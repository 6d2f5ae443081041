-- SUMMARY: The frames that upvalue links lead to, and how calls, returns and unwinding keep them those of the enclosing functions.
import Eel.Vm.CallDiscipline

/-!
# Scopes

A nested function reaches the variables of the functions around it through the
`upvalues` links of the frames.
-/

namespace Eel

/-- The level of the upvalue that an instruction accesses. -/
def Instr.uvLevel : Instr → Option Nat
  | .phuval _ b => some b
  | .getuval _ _ c | .setuval _ _ c | .getuvargi _ _ c | .setuvargi _ _ c => some c
  | .getuvtargi _ _ _ d => some d
  | _ => none

/-- The base that `k` links lead to from `b`. -/
def uvFrom (frames : Nat → Callframe) (b : Nat) : Nat → Nat
  | 0 => b
  | k + 1 => (frames (uvFrom frames b k)).upvalues

section Scopes

variable (parent : ObjId → Option ObjId) (S : ObjId → Prop)

/-- The function around `fo`, `k` levels up. -/
def enclosing (fo : ObjId) : Nat → Option ObjId
  | 0 => some fo
  | k + 1 => (enclosing fo k).bind parent

variable (frames : Nat → Callframe)

/-- The link of the frame at `t`, where `fo` runs, leads to a frame on the stack of the
function around `fo`, the one in whose scope `fo` was called. -/
def InScope (t : Nat) (fo : ObjId) : Prop :=
  ∃ p caller j, parent fo = some p ∧ (frames (frames t).rBase).f = some caller ∧
    enclosing parent caller j = some p ∧ (frames t).upvalues = uvFrom frames (frames t).rBase j ∧
    (frames (frames t).upvalues).f = some p ∧
    ∀ i ≤ j, Encloses frames (frames t).rBase (uvFrom frames (frames t).rBase i)

/-- A frame where calls put it. If its function is one of `S`, its link leads to the right
frame, and so will that of its catcher. -/
structure Linked (t : Nat) : Prop where
  base_le : (frames t).rBase ≤ (frames t).rSbase
  sbase_le : (frames t).rSbase ≤ (frames t).rSp
  sp_lt : (t = 0 ∧ (frames t).rBase = 0) ∨ (frames t).rSp < t
  link : ∀ fo, (frames t).f = some fo → S fo → InScope parent frames t fo
  catcher : ∀ fo, (frames t).catcher = some fo → S fo →
    ∃ p, parent fo = some p ∧ (frames (frames t).rBase).f = some p

end Scopes

variable {parent : ObjId → Option ObjId} {S : ObjId → Prop} {frames frames' : Nat → Callframe}
  {fo p : ObjId} {b j k t u : Nat}

theorem uvFrom_add : uvFrom frames b (j + k) = uvFrom frames (uvFrom frames b j) k := by
  induction k with
  | zero => rfl
  | succ k ih =>
    change (frames (uvFrom frames b (j + k))).upvalues = _
    rw [ih]
    rfl

theorem enclosing_add :
    enclosing parent fo (j + k) = (enclosing parent fo j).bind fun p => enclosing parent p k := by
  induction k with
  | zero => exact (Option.bind_fun_some _).symm
  | succ k ih =>
    change (enclosing parent fo (j + k)).bind parent = _
    rw [ih, Option.bind_assoc]
    rfl

theorem enclosing_some (h : enclosing parent fo k = some p) (hj : j ≤ k) :
    ∃ g, enclosing parent fo j = some g := by
  obtain ⟨n, rfl⟩ := Nat.exists_eq_add_of_le hj
  rw [enclosing_add] at h
  obtain ⟨g, hg, -⟩ := Option.bind_eq_some_iff.mp h
  exact ⟨g, hg⟩

theorem Encloses.trans (h : Encloses frames b t) (h' : Encloses frames t u) :
    Encloses frames b u := by
  induction h with
  | here => exact h'
  | outer hb _ ih => exact .outer hb (ih h')

theorem Linked.rBase_le (h : Linked parent S frames t) : (frames t).rBase ≤ t := by
  rcases h.sp_lt with ⟨rfl, h0⟩ | hlt
  · exact Nat.le_of_eq h0
  · exact Nat.le_of_lt (Nat.lt_of_le_of_lt (Nat.le_trans h.base_le h.sbase_le) hlt)

/-- What is on the stack below a frame is on the stack from it. -/
theorem Linked.encloses (h : Linked parent S frames t) (hu : Encloses frames (frames t).rBase u) :
    Encloses frames t u := by
  rcases h.sp_lt with ⟨rfl, h0⟩ | hlt
  · rwa [h0] at hu
  · exact .outer (Nat.ne_of_gt (Nat.lt_of_le_of_lt (Nat.zero_le _) hlt)) hu

/-! ## Stacks of linked frames -/

/-- All frames on the stack from `b` are linked. -/
def AllLinked (parent : ObjId → Option ObjId) (S : ObjId → Prop) (frames : Nat → Callframe)
    (b : Nat) : Prop :=
  ∀ t, Encloses frames b t → Linked parent S frames t

theorem AllLinked.outer (h : AllLinked parent S frames b) (ht : Encloses frames b t) :
    AllLinked parent S frames t :=
  fun _ hu => h _ (ht.trans hu)

theorem AllLinked.caller (h : AllLinked parent S frames b) :
    AllLinked parent S frames (frames b).rBase :=
  fun _ hu => h _ ((h b .here).encloses hu)

theorem AllLinked.le (h : AllLinked parent S frames b) (ht : Encloses frames b t) : t ≤ b := by
  induction ht with
  | here => exact Nat.le_refl _
  | outer _ _ ih => exact Nat.le_trans (ih h.caller) (h _ .here).rBase_le

/-- Upvalue links lead to frames on the stack of the functions around the one that runs. -/
theorem AllLinked.reaches (h : AllLinked parent S frames b) (hfo : (frames b).f = some fo)
    (hS : ∀ j < k, ∀ g, enclosing parent fo j = some g → S g)
    (hp : enclosing parent fo k = some p) :
    Encloses frames b (uvFrom frames b k) ∧ (frames (uvFrom frames b k)).f = some p := by
  induction k generalizing p with
  | zero =>
    cases hp
    exact ⟨.here, hfo⟩
  | succ k ih =>
    obtain ⟨g, hg, hgp⟩ := Option.bind_eq_some_iff.mp hp
    obtain ⟨henc, hrun⟩ := ih (fun j hj => hS j (Nat.lt_succ_of_lt hj)) hg
    have hlinked := h _ henc
    obtain ⟨p', _, j, hp', -, -, hlink, hf, hstack⟩ :=
      hlinked.link g hrun (hS k (Nat.lt_succ_self k) g hg)
    cases hgp.symm.trans hp'
    have hbelow := hstack j (Nat.le_refl j)
    rw [← hlink] at hbelow
    exact ⟨henc.trans (hlinked.encloses hbelow), hf⟩

/-! ## Changes elsewhere -/

theorem Encloses.congr (h : AllLinked parent S frames b) (hf : ∀ t ≤ b, frames' t = frames t) :
    Encloses frames' b t ↔ Encloses frames b t := by
  constructor
  · intro ht
    induction ht with
    | here => exact .here
    | @outer b t hb _ ih =>
      have hle := (h b .here).rBase_le
      rw [hf b (Nat.le_refl _)] at ih
      exact .outer hb (ih h.caller fun t ht => hf t (Nat.le_trans ht hle))
  · intro ht
    induction ht with
    | here => exact .here
    | @outer b t hb _ ih =>
      have hle := (h b .here).rBase_le
      refine .outer hb ?_
      rw [hf b (Nat.le_refl _)]
      exact ih h.caller fun t ht => hf t (Nat.le_trans ht hle)

theorem uvFrom_congr (hle : ∀ j < k, uvFrom frames b j ≤ u) (hf : ∀ t ≤ u, frames' t = frames t) :
    uvFrom frames' b k = uvFrom frames b k := by
  induction k with
  | zero => rfl
  | succ k ih =>
    have hsame := ih fun j hj => hle j (Nat.lt_succ_of_lt hj)
    change (frames' (uvFrom frames' b k)).upvalues = _
    rw [hsame, hf _ (hle k (Nat.lt_succ_self k))]
    rfl

theorem InScope.congr (h : InScope parent frames t fo) (hlinked : AllLinked parent S frames t)
    (hf : ∀ u ≤ t, frames' u = frames u) : InScope parent frames' t fo := by
  obtain ⟨p, caller, j, hp, hcaller, henc, hlink, hrun, hstack⟩ := h
  have hle := (hlinked t .here).rBase_le
  have hbelow : ∀ u ≤ (frames t).rBase, frames' u = frames u := fun u hu => hf u (Nat.le_trans hu hle)
  have hsame : ∀ i ≤ j, uvFrom frames' (frames t).rBase i = uvFrom frames (frames t).rBase i :=
    fun i hi => uvFrom_congr (fun i' hi' => hlinked.caller.le (hstack i' (by omega))) hbelow
  have hu : (frames t).upvalues ≤ (frames t).rBase := by
    rw [hlink]
    exact hlinked.caller.le (hstack j (Nat.le_refl j))
  refine ⟨p, caller, j, hp, ?_, henc, ?_, ?_, fun i hi => ?_⟩
  · rw [hf t (Nat.le_refl t), hbelow _ (Nat.le_refl _)]
    exact hcaller
  · rw [hf t (Nat.le_refl t), hsame j (Nat.le_refl j)]
    exact hlink
  · rw [hf t (Nat.le_refl t), hbelow _ hu]
    exact hrun
  · rw [hf t (Nat.le_refl t), hsame i hi]
    exact (Encloses.congr hlinked.caller hbelow).mpr (hstack i hi)

theorem AllLinked.congr (h : AllLinked parent S frames b) (hf : ∀ t ≤ b, frames' t = frames t) :
    AllLinked parent S frames' b := by
  intro t ht
  have ht := (Encloses.congr h hf).mp ht
  have hle : ∀ u ≤ t, frames' u = frames u := fun u hu => hf u (Nat.le_trans hu (h.le ht))
  have hlinked := h t ht
  have hsame := hle t (Nat.le_refl t)
  have hcaller := hle _ hlinked.rBase_le
  refine ⟨?_, ?_, ?_, fun fo hfo hS => ?_, fun fo hfo hS => ?_⟩ <;> rw [hsame] at *
  · exact hlinked.base_le
  · exact hlinked.sbase_le
  · exact hlinked.sp_lt
  · exact (hlinked.link fo hfo hS).congr (h.outer ht) hle
  · rw [hcaller]
    exact hlinked.catcher fo hfo hS

/-- A new frame on top of linked ones. -/
theorem AllLinked.push (h : AllLinked parent S frames b) (hf : ∀ u ≤ b, frames' u = frames u)
    (hbase : (frames' t).rBase = b) (hnew : Linked parent S frames' t) :
    AllLinked parent S frames' t := by
  have hold := h.congr hf
  intro u hu
  cases hu with
  | here => exact hnew
  | outer _ hu =>
    rw [hbase] at hu
    exact hold u hu

namespace Vm

variable {vm vm' : Vm} {E : Env}

theorem uvBase_eq : vm.uvBase k = uvFrom vm.callframe vm.base k := by
  induction k with
  | zero => rfl
  | succ k ih =>
    unfold uvBase uvFrom
    rw [ih]

/-! ## States -/

/-- All frames on the stack are linked, and there is room above them. -/
structure Scoped (parent : ObjId → Option ObjId) (S : ObjId → Prop) (vm : Vm) : Prop where
  ordered : vm.Ordered
  linked : AllLinked parent S vm.callframe vm.base

theorem Scoped.within (h : vm.Scoped parent S) (hw : Within vm vm') : vm'.Scoped parent S where
  ordered := ⟨by rw [hw.base, hw.sbase]; exact h.ordered.base_le,
    by rw [hw.sbase]; exact hw.sp h.ordered.sbase_le⟩
  linked := by
    rw [hw.callframe, hw.base]
    exact h.linked

/-- The current frame is left. -/
theorem Scoped.left (h : vm.Scoped parent S) (hframes : vm'.callframe = vm.callframe)
    (hbase : vm'.base = (vm.callframe vm.base).rBase)
    (hsbase : vm'.sbase = (vm.callframe vm.base).rSbase) (hle : vm'.sbase ≤ vm'.sp) :
    vm'.Scoped parent S where
  ordered := ⟨by rw [hbase, hsbase]; exact (h.linked _ .here).base_le, hle⟩
  linked := by
    rw [hframes, hbase]
    exact h.linked.caller

/-- A frame is entered. -/
theorem Scoped.pushed (h : vm.Scoped parent S) (hp : Pushed vm vm')
    (hlink : ∀ fo, (vm'.callframe vm'.base).f = some fo → S fo →
      InScope parent vm'.callframe vm'.base fo)
    (hcatcher : ∀ fo, (vm'.callframe vm'.base).catcher = some fo → S fo →
      ∃ p, parent fo = some p ∧ (vm.callframe vm.base).f = some p) :
    vm'.Scoped parent S where
  ordered := hp.ordered
  linked := by
    have hlt : vm.base < vm'.base :=
      Nat.lt_of_le_of_lt (Nat.le_trans h.ordered.base_le h.ordered.sbase_le) hp.above
    have hf : ∀ u ≤ vm.base, vm'.callframe u = vm.callframe u := fun u hu =>
      hp.frames u (Nat.ne_of_lt (Nat.lt_of_le_of_lt hu hlt))
    refine h.linked.push hf hp.base ⟨?_, ?_, ?_, hlink, fun fo hfo hS => ?_⟩
    · rw [hp.base, hp.sbase]
      exact h.ordered.base_le
    · rw [hp.sbase, hp.sp]
      exact h.ordered.sbase_le
    · rw [hp.sp]
      exact .inr hp.above
    · rw [hp.base, hf _ (Nat.le_refl _)]
      exact hcatcher fo hfo hS

/-! ## Calls -/

/-- A function of `S` is called, by a function that is inside the one around it, `levels` deep. -/
def Called (parent : ObjId → Option ObjId) (S : ObjId → Prop) (vm : Vm) (fo : ObjId)
    (levels : Nat) : Prop :=
  S fo → ∃ p caller, parent fo = some p ∧ (vm.callframe vm.base).f = some caller ∧
    enclosing parent caller levels = some p ∧
    ∀ j < levels, ∀ g, enclosing parent caller j = some g → S g

variable {F : ObjId → Function} {result : Option Nat} {levels : Nat}

theorem callEel_upvalues (h : vm.Scoped parent S)
    (hstack : ∀ i ≤ levels, Encloses vm.callframe vm.base (uvFrom vm.callframe vm.base i)) :
    ((vm.callEel F fo result levels).callframe (vm.callEel F fo result levels).base).upvalues =
      uvFrom vm.callframe vm.base levels := by
  obtain ⟨pushed, hpushed⟩ : ∃ pushed, pushed = vm.pushFrame (F fo).cleansize (F fo).framesize :=
    ⟨_, rfl⟩
  have hlink : (pushed.callframe pushed.base).upvalues = vm.base := by
    rw [hpushed]
    simp [pushFrame]
  have hup : ((vm.callEel F fo result levels).callframe
      (vm.callEel F fo result levels).base).upvalues = uvFrom pushed.callframe pushed.base (1 + levels) := by
    unfold callEel
    rw [← hpushed]
    simp only [modifyFrame, Function.update_self]
    split
    · rename_i hzero
      rw [hzero]
      rfl
    · rw [uvBase_eq, Nat.add_comm]
  rw [hup, uvFrom_add]
  change uvFrom pushed.callframe (pushed.callframe pushed.base).upvalues levels = _
  rw [hlink]
  refine uvFrom_congr (fun i hi => h.linked.le (hstack i (Nat.le_of_lt hi))) fun t ht => ?_
  have hp := pushFrame_pushed vm (F fo).cleansize (F fo).framesize
  rw [← hpushed] at hp
  have hle := Nat.le_trans h.ordered.base_le h.ordered.sbase_le
  exact hp.frames t (Nat.ne_of_lt (Nat.lt_of_le_of_lt (Nat.le_trans ht hle) hp.above))

theorem Scoped.reaches (h : vm.Scoped parent S) (hcall : vm.Called parent S fo levels) (hS : S fo) :
    ∀ i ≤ levels, Encloses vm.callframe vm.base (uvFrom vm.callframe vm.base i) := by
  obtain ⟨p, caller, -, hcaller, henc, hneeds⟩ := hcall hS
  intro i hi
  obtain ⟨g, hg⟩ := enclosing_some henc hi
  exact (h.linked.reaches hcaller (fun j hj => hneeds j (Nat.lt_of_lt_of_le hj hi)) hg).1

/-- A frame is entered, with the link that the level of the call gives. -/
theorem Scoped.entered (h : vm.Scoped parent S) (hp : Pushed vm vm')
    (hf : (vm'.callframe vm'.base).f = some fo)
    (hup : S fo → (vm'.callframe vm'.base).upvalues = uvFrom vm.callframe vm.base levels)
    (hcall : vm.Called parent S fo levels)
    (hcatcher : ∀ fo, (vm'.callframe vm'.base).catcher = some fo → S fo →
      ∃ p, parent fo = some p ∧ (vm.callframe vm.base).f = some p) :
    vm'.Scoped parent S := by
  refine h.pushed hp (fun fo' hfo' hS => ?_) hcatcher
  cases hf.symm.trans hfo'
  have hreach := h.reaches hcall hS
  obtain ⟨p, caller, hparent, hcaller, henc, hneeds⟩ := hcall hS
  have hrun := (h.linked.reaches hcaller hneeds henc).2
  have hlt : vm.base < vm'.base :=
    Nat.lt_of_le_of_lt (Nat.le_trans h.ordered.base_le h.ordered.sbase_le) hp.above
  have hsame : ∀ u ≤ vm.base, vm'.callframe u = vm.callframe u := fun u hu =>
    hp.frames u (Nat.ne_of_lt (Nat.lt_of_le_of_lt hu hlt))
  have huv : ∀ i ≤ levels, uvFrom vm'.callframe vm.base i = uvFrom vm.callframe vm.base i :=
    fun i hi => uvFrom_congr (fun i' hi' => h.linked.le (hreach i' (by omega))) hsame
  refine ⟨p, caller, levels, hparent, ?_, henc, ?_, ?_, fun i hi => ?_⟩
  · rw [hp.base, hsame _ (Nat.le_refl _)]
    exact hcaller
  · rw [hup hS, hp.base, huv levels (Nat.le_refl _)]
  · rw [hup hS, hsame _ (h.linked.le (hreach levels (Nat.le_refl _)))]
    exact hrun
  · rw [hp.base, huv i hi]
    exact (Encloses.congr h.linked hsame).mpr (hreach i hi)

theorem Scoped.callEel (h : vm.Scoped parent S) (hcall : vm.Called parent S fo levels) :
    (vm.callEel F fo result levels).Scoped parent S := by
  obtain ⟨hp, hf, hnone, -⟩ := callEel_pushed (F := F) vm fo result levels
  refine h.entered hp hf (fun hS => callEel_upvalues h (h.reaches hcall hS)) hcall fun fo' hfo' => ?_
  rw [hnone] at hfo'
  cases hfo'

theorem Scoped.here (i : Nat) (hi : i ≤ 0) :
    Encloses vm.callframe vm.base (uvFrom vm.callframe vm.base i) := by
  cases Nat.le_zero.mp hi
  exact .here

/-- `TRY` and `UNTRY`. -/
theorem Scoped.enterBlock {block : Value} {catcher : Option ObjId} {untry : Bool}
    (h : vm.Scoped parent S) (hcall : vm.Called parent S (block.obj?.getD 0) 0)
    (hcatcher : ∀ fo, catcher = some fo → vm.Called parent S fo 0) :
    (vm.enterBlock E block catcher untry).Scoped parent S := by
  obtain ⟨hp, hf, hcat⟩ := enterBlock_pushed E vm block catcher untry
  refine h.entered hp hf (fun _ => ?_) hcall fun fo hfo hS => ?_
  · have hup : ((vm.callEel E.function (block.obj?.getD 0) (vm.callframe vm.base).result 0).callframe
        _).upvalues = uvFrom vm.callframe vm.base 0 := callEel_upvalues h Scoped.here
    rw [← hup]
    simp [Vm.enterBlock, modifyFrame]
  · rw [hcat] at hfo
    obtain ⟨p, caller, hparent, hcaller, henc, -⟩ := hcatcher fo hfo hS
    cases henc
    exact ⟨_, hparent, hcaller⟩

theorem Scoped.callCatcher (h : vm.Scoped parent S) (hcall : vm.Called parent S fo 0) :
    (vm.callCatcher F fo).Scoped parent S := by
  obtain ⟨hp, hf, hnone⟩ := callCatcher_pushed (F := F) vm fo
  refine h.entered hp hf (fun _ => ?_) hcall fun fo' hfo' => ?_
  · have hup : ((vm.callEel F fo (vm.callframe vm.base).result 0).callframe _).upvalues =
        uvFrom vm.callframe vm.base 0 := callEel_upvalues h Scoped.here
    rw [← hup]
    simp [Vm.callCatcher, modifyFrame]
  · rw [hnone] at hfo'
    cases hfo'

/-- A C function is none of `S`. -/
theorem Scoped.enterC (h : vm.Scoped parent S) (hfo : ¬ S fo) :
    (vm.enterC fo result).Scoped parent S := by
  obtain ⟨hp, hf⟩ := enterC_pushed vm fo result
  refine h.pushed hp (fun fo' hfo' hS => ?_) fun fo' hfo' => ?_
  · cases hf.symm.trans hfo'
    exact absurd hS hfo
  · have hnone : ((vm.enterC fo result).callframe (vm.enterC fo result).base).catcher = none := by
      simp [Vm.enterC, modifyFrame]
    rw [hnone] at hfo'
    cases hfo'

/-! ## Returns and exceptions -/

theorem Scoped.unwindFrame (h : vm.Scoped parent S) : (vm.unwindFrame F).Scoped parent S :=
  h.left unwindFrame_callframe rfl rfl (h.linked _ .here).sbase_le

theorem Scoped.unwindFrames {n target : Nat} (h : vm.Scoped parent S) :
    (vm.unwindFrames F target n).Scoped parent S := by
  induction n generalizing vm with
  | zero => exact h
  | succ n ih =>
    rw [Vm.unwindFrames]
    split
    · exact h
    · exact ih h.unwindFrame

theorem unwindFrames_base {n target : Nat} (h : AllLinked parent S vm.callframe vm.base)
    (ht : Encloses vm.callframe vm.base target) (hn : vm.base ≤ n) :
    (vm.unwindFrames F target n).base = target := by
  induction n generalizing vm with
  | zero =>
    have hzero : vm.base = 0 := Nat.le_zero.mp hn
    cases ht with
    | here => rfl
    | outer hne => exact absurd hzero hne
  | succ n ih =>
    rw [unwindFrames]
    split
    · assumption
    · rename_i hne
      cases ht with
      | here => exact absurd rfl hne
      | outer hpos ht =>
        have hlt : (vm.callframe vm.base).rBase < vm.base := by
          have hlinked := h _ .here
          rcases hlinked.sp_lt with ⟨h0, -⟩ | hlt
          · exact absurd h0 hpos
          · exact Nat.lt_of_le_of_lt (Nat.le_trans hlinked.base_le hlinked.sbase_le) hlt
        refine ih ?_ ?_ (Nat.le_of_lt_succ (Nat.lt_of_lt_of_le hlt hn))
        · rw [unwindFrame_callframe, unwindFrame_base]
          exact h.caller
        · rw [unwindFrame_callframe, unwindFrame_base]
          exact ht

theorem findCatcher_encloses {x : Xno} {n c : Nat} (h : vm.findCatcher F x b n = (t, some c)) :
    Encloses vm.callframe b t ∧ t ≠ 0 ∧ (vm.callframe t).catcher = some c := by
  induction n generalizing b with
  | zero => cases h
  | succ n ih =>
    rw [findCatcher] at h
    split at h
    · cases h
    · rename_i hcut
      have hb : b ≠ 0 := fun h0 => hcut (.inl h0)
      split at h
      · rename_i hcatcher
        split at h
        · exact ⟨.outer hb (ih h).1, (ih h).2⟩
        · cases h
          exact ⟨.here, hb, hcatcher⟩
      · exact ⟨.outer hb (ih h).1, (ih h).2⟩

theorem Scoped.scheduler (h : vm.Scoped parent S) : (vm.scheduler F).2.Scoped parent S := by
  unfold Vm.scheduler
  dsimp only
  split
  · exact h
  · split
    · exact h
    · split
      · unfold scheduleReturn
        dsimp only
        have hunw : (vm.unwind F (vm.callframe (vm.returningFrame vm.base vm.base)).rBase).Scoped
            parent S := h.unwindFrames
        have hclear := hunw.within within_stackClear
        split
        · exact hclear
        · split
          · exact hclear
          · exact hclear.within within_store
      · unfold scheduleException
        split
        · rename_i b c hfind
          obtain ⟨hb, hpos, hcatcher⟩ := findCatcher_encloses hfind
          have hlinked := h.linked b hb
          have hbase := unwindFrames_base (F := F) h.linked (hb.trans (.outer hpos .here))
            (Nat.le_refl _)
          have hunw : (vm.unwind F (vm.callframe b).rBase).Scoped parent S := h.unwindFrames
          refine (hunw.callCatcher fun hS => ?_).within within_addClean
          obtain ⟨p, hparent, hrun⟩ := hlinked.catcher c hcatcher hS
          refine ⟨p, p, hparent, ?_, rfl, fun j hj => absurd hj (Nat.not_lt_zero j)⟩
          rw [unwind_callframe]
          unfold unwind
          rw [hbase]
          exact hrun
        · exact h.unwindFrames

end Vm

end Eel
