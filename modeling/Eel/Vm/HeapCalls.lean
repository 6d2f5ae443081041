-- SUMMARY: Frames that are entered and arguments that are passed while the heap grows, and when growing is invisible.
import Eel.Vm.HeapMoves

/-!
# Calls on a heap that moves
-/

namespace Eel

namespace Store

variable {s : Store} {o : ObjId} {v : Value} {b : Nat}

theorem limboUnlink_subset : (s.limboUnlink o).limbo b ⊆ s.limbo b := by
  unfold limboUnlink
  split
  · exact List.Subset.refl _
  · rename_i base _
    dsimp only
    by_cases hb : b = base
    · rw [hb, Function.update_self]
      exact List.erase_subset
    · rw [Function.update_of_ne hb]
      exact List.Subset.refl _

theorem disownObject_subset {n : Nat} : (disownObject n s o).limbo b ⊆ s.limbo b := by
  induction n generalizing s o with
  | zero => exact List.Subset.refl _
  | succ n ih =>
    have hfold : ∀ (os : List ObjId) (s : Store),
        (os.foldl (disownObject n) s).limbo b ⊆ s.limbo b := by
      intro os
      induction os with
      | nil => exact fun _ => List.Subset.refl _
      | cons x os iho => exact fun s => List.Subset.trans (iho _) ih
    rw [disownObject]
    dsimp only
    split
    · exact List.Subset.refl _
    · split
      · exact limboUnlink_subset
      · exact List.Subset.trans (hfold _ _) (List.Subset.trans (hfold _ _) limboUnlink_subset)

/-- Disowning puts nothing into limbo lists. -/
theorem disown_subset : (s.disown v).limbo b ⊆ s.limbo b := by
  cases v with
  | objref o => exact disownObject_subset
  | _ => exact List.Subset.refl _

end Store

namespace Vm

variable {vm : Vm}

theorem argf_subset {item : ArgItem} {b : Nat} :
    (vm.argf item).store.limbo b ⊆ vm.store.limbo b := by
  cases item with
  | reset =>
    have hsurvives : Survives fun s : Store => s.limbo b ⊆ vm.store.limbo b :=
      ⟨fun _ _ => List.Subset.trans Store.disown_subset,
        fun _ _ => List.Subset.trans Store.limboUnlink_subset⟩
    exact hsurvives.stackClear (List.Subset.refl _)
  | result | raw => exact List.Subset.refl _
  | copy v =>
    change (vm.store.copy vm.sp v).limbo b ⊆ _
    rw [Store.SameLimbo.copy.limbo]
    exact List.Subset.refl _

end Vm

namespace Mem

variable {A : Realloc} {E : Env} {M : Mem} {vm' : Vm}

/-! ## Frames -/

/-- Nothing is in limbo in a new frame. -/
theorem Sound.pushed (h : M.Sound) (hp : Vm.Pushed M.vm vm')
    (hframed : vm'.Scoped (fun _ => none) fun _ => False)
    (hf : (vm'.callframe vm'.base).f ≠ none)
    (hl : vm'.store.limbo = Function.update M.vm.store.limbo vm'.base []) :
    ({ M with vm := vm' } : Mem).Sound := by
  have hle := Nat.le_trans h.framed.ordered.base_le h.framed.ordered.sbase_le
  have hsame : ∀ b ≤ M.vm.base, vm'.callframe b = M.vm.callframe b := fun b hb =>
    hp.frames b (Nat.ne_of_lt (Nat.lt_of_le_of_lt (Nat.le_trans hb hle) hp.above))
  have hstack : ∀ b, Encloses vm'.callframe M.vm.base b ↔ Encloses M.vm.callframe M.vm.base b :=
    fun b => Encloses.congr h.framed.linked hsame
  refine ⟨hframed, fun b hb hne => ?_, fun b hb => ?_, h.size_pos⟩
  · cases hb with
    | here => exact hf
    | outer _ hb =>
      rw [hp.base] at hb
      have hold := (hstack b).mp hb
      change (vm'.callframe b).f ≠ none
      rw [hsame b (h.framed.linked.le hold)]
      exact h.called b hold hne
  · change vm'.store.limbo b ≠ [] at hb
    rw [hl] at hb
    by_cases hbase : b = vm'.base
    · rw [hbase, Function.update_self] at hb
      exact absurd rfl hb
    · rw [Function.update_of_ne hbase] at hb
      obtain ⟨henc, hne, hlink⟩ := h.linked b hb
      refine ⟨.outer (Nat.ne_of_gt (Nat.lt_of_le_of_lt (Nat.zero_le _) hp.above)) ?_, hne, hlink⟩
      rw [hp.base]
      exact (hstack b).mpr henc

theorem Sound.callEel {F : ObjId → Function} {fo : ObjId} {result : Option Nat} {levels : Nat}
    (h : M.Sound) : ({ M with vm := M.vm.callEel F fo result levels } : Mem).Sound := by
  obtain ⟨hp, hf, -⟩ := Vm.callEel_pushed (F := F) M.vm fo result levels
  refine h.pushed hp (h.framed.callEel fun hS => hS.elim) ?_ rfl
  rw [hf]
  exact Option.some_ne_none fo

theorem Sound.callCatcher {F : ObjId → Function} {fo : ObjId} (h : M.Sound) :
    ({ M with vm := M.vm.callCatcher F fo } : Mem).Sound := by
  obtain ⟨hp, hf, -⟩ := Vm.callCatcher_pushed (F := F) M.vm fo
  refine h.pushed hp (h.framed.callCatcher fun hS => hS.elim) ?_ rfl
  rw [hf]
  exact Option.some_ne_none fo

theorem Sound.enterC {fo : ObjId} {result : Option Nat} (h : M.Sound) :
    ({ M with vm := M.vm.enterC fo result } : Mem).Sound := by
  obtain ⟨hp, hf⟩ := Vm.enterC_pushed M.vm fo result
  refine h.pushed hp (h.framed.enterC id) ?_ rfl
  rw [hf]
  exact Option.some_ne_none fo

theorem Sound.reloadContext (h : M.Sound) : M.reloadContext.Sound :=
  ⟨h.framed, h.called, h.linked, h.size_pos⟩

theorem growFrame_vm {cleansize framesize : Nat} : (M.growFrame A cleansize framesize).vm = M.vm :=
  growHeap_vm

theorem Sound.growFrame {cleansize framesize : Nat} (h : M.Sound) :
    (M.growFrame A cleansize framesize).Sound :=
  h.growHeap

/-! ## Arguments of `eel_vargf` -/

theorem Sound.argf {item : ArgItem} (h : M.Sound) : ({ M with vm := M.vm.argf item } : Mem).Sound :=
  h.faded (Vm.within_argf item) fun _ => Vm.argf_subset

/-- Values that are not on the heap, or are in a block that is still there, are passed. -/
theorem argfs_spec {block : Int} {args : List HostArg} (h : M.Sound)
    (hargs : (∃ i, HostArg.heap i ∈ args) → block = M.block) :
    ∃ M', argfs block args M = some M' ∧ M'.vm = M.vm.argfs args ∧ M'.Sound := by
  induction args generalizing M with
  | nil => exact ⟨M, rfl, rfl, h⟩
  | cons arg args ih =>
    cases arg with
    | item item =>
      exact ih h.argf fun ⟨i, hi⟩ => hargs ⟨i, List.mem_cons_of_mem _ hi⟩
    | heap i =>
      have hblock := hargs ⟨i, List.mem_cons_self⟩
      rw [argfs, read, if_pos hblock]
      exact ih h.argf fun _ => hblock

theorem argfs_none {block : Int} {args : List HostArg} (hargs : ∃ i, HostArg.heap i ∈ args)
    (hblock : block ≠ M.block) : argfs block args M = none := by
  obtain ⟨i, hi⟩ := hargs
  induction args generalizing M with
  | nil => cases hi
  | cons arg args ih =>
    cases arg with
    | item item =>
      rcases List.mem_cons.mp hi with heq | hi
      · cases heq
      · exact @ih { M with vm := M.vm.argf item } hblock hi
    | heap j =>
      rw [argfs, read, if_neg hblock]
      rfl

theorem vargf_iff {args : List HostArg} (h : M.Sound) :
    M.Invisible A E (.vargf args) ↔ M.Safe A E (.vargf args) := by
  have hgrow : (M.growHeap A (M.vm.sp + args.length)).Sound := h.growHeap
  constructor
  · rintro ⟨x, M', hr, -⟩ hargs hmoves
    change ((argfs M.block args (M.growHeap A (M.vm.sp + args.length))).bind _) = _ at hr
    rw [argfs_none hargs hmoves.symm] at hr
    cases hr
  · intro hsafe
    obtain ⟨M', hr, hvm, hs⟩ := argfs_spec hgrow fun hargs => (not_not.mp (hsafe hargs)).symm
    refine ⟨Xno.ok, M', ?_, ?_, hs, False.elim⟩
    · change ((argfs M.block args (M.growHeap A (M.vm.sp + args.length))).bind _) = _
      rw [hr]
      rfl
    · rw [hvm, growHeap_vm]
      rfl

theorem invisible_of_done {i : Instr} (hdone : Done (M.vm.exec E i) (M.exec A E i)) :
    M.Invisible A E (.instr i) := by
  obtain ⟨x, M', hr, hvm, hs, hc⟩ := hdone
  exact ⟨x, M', hr, hvm, hs, fun _ => hc⟩

theorem done_of_invisible {i : Instr} (h : M.Invisible A E (.instr i)) :
    Done (M.vm.exec E i) (M.exec A E i) := by
  obtain ⟨x, M', hr, hvm, hs, hc⟩ := h
  exact ⟨x, M', hr, hvm, hs, hc trivial⟩

theorem instr_iff {i : Instr} (hE : KeepsLimbo E) (h : M.Sound) (hc : M.Cached) (hi : i.Pushes) :
    Done (M.vm.exec E i) (M.exec A E i) ↔ M.Safe A E (.instr i) := by
  by_cases hnone : i ≠ .phargs ∧ i ≠ .pushtup ∧ (∀ a, i ≠ .phargi a) ∧ ∀ a b, i ≠ .phargi2 a b
  · refine iff_of_true (done_exec hE h hc hi hnone) ?_
    cases i with
    | phargs => exact absurd rfl hnone.1
    | pushtup => exact absurd rfl hnone.2.1
    | phargi a => exact absurd rfl (hnone.2.2.1 a)
    | phargi2 a b => exact absurd rfl (hnone.2.2.2 a b)
    | _ => trivial
  · cases i with
    | phargs => exact phargs_iff h hc
    | pushtup => exact pushtup_iff h hc
    | phargi a => exact phargi_iff h hc
    | phargi2 a b => exact phargi2_iff h hc
    | _ => exact absurd ⟨nofun, nofun, nofun, nofun⟩ hnone

/-- The VM loop is where it is when it executes an instruction. -/
def Ready (M : Mem) : Growth → Prop
  | .instr i => i.Pushes ∧ M.Cached
  | _ => True

/-- Moves of the heap are invisible exactly where no argument is read through an old pointer. -/
theorem grow_invisible_iff {g : Growth} (hE : KeepsLimbo E) (h : M.Sound) (hready : M.Ready g) :
    M.Invisible A E g ↔ M.Safe A E g := by
  cases g with
  | instr i =>
    obtain ⟨hi, hc⟩ := hready
    exact ⟨fun hinv => (instr_iff hE h hc hi).mp (done_of_invisible hinv),
      fun hsafe => invisible_of_done ((instr_iff hE h hc hi).mpr hsafe)⟩
  | callEel fo result levels =>
    refine iff_of_true ⟨_, _, rfl, ?_, h.growFrame.callEel.reloadContext, fun _ => cached_reloadContext⟩
      trivial
    change (_, Vm.callEel _ (growFrame A M _ _).vm _ _ _) = _
    rw [growFrame_vm]
    rfl
  | enterC fo result =>
    refine iff_of_true ⟨_, _, rfl, ?_, h.growFrame.enterC, False.elim⟩ trivial
    change (_, Vm.enterC (growFrame A M _ _).vm _ _) = _
    rw [growFrame_vm]
    rfl
  | callCatcher fo =>
    refine iff_of_true ⟨_, _, rfl, ?_, h.growFrame.callCatcher.reloadContext,
      fun _ => cached_reloadContext⟩ trivial
    change (_, Vm.callCatcher _ (growFrame A M _ _).vm _) = _
    rw [growFrame_vm]
    rfl
  | vargf args => exact vargf_iff h

/-- A function that was called with one argument runs, at the end of the heap. -/
def fullHeap : Mem where
  vm :=
    { Vm.oneArgument with
      base := 8
      sp := 9
      sbase := 9
      callframe := fun b =>
        if b = 8 then { Vm.plainFrame 1 0 with rSp := 2, rSbase := 1, argv := 1, argc := 1 }
        else Vm.plainFrame 0 0 }
  block := 0
  size := 9
  link _ := 0
  r := ⟨0, 8⟩
  cf := ⟨0, 8⟩

theorem fullHeap_sound : fullHeap.Sound where
  framed := by
    refine ⟨⟨by decide, by decide⟩, fun t ht => ?_⟩
    cases ht with
    | here => exact ⟨by decide, by decide, .inr (by decide), nofun, nofun⟩
    | outer _ ht =>
      cases ht with
      | here => exact ⟨by decide, by decide, .inl ⟨rfl, rfl⟩, nofun, nofun⟩
      | outer h => exact absurd rfl h
  called := by
    intro b _ _
    change (if b = 8 then _ else _ : Callframe).f ≠ none
    split <;> exact Option.some_ne_none _
  linked := fun b hb => absurd rfl hb
  size_pos := by decide

/-- Pushing a register. -/
theorem grow_invisible_push :
    fullHeap.Invisible (fun _ _ => 1) (Vm.bareEnv fun _ => .nop) (.instr (.push 0)) := by
  have hready : fullHeap.Ready (.instr (.push 0)) := ⟨trivial, rfl, rfl⟩
  exact (grow_invisible_iff (fun _ _ _ _ => rfl) fullHeap_sound hready).mpr trivial

/-- `PHARGI` reads the argument where it was. -/
theorem not_invisible_phargi :
    ¬ fullHeap.Invisible (fun _ _ => 1) (Vm.bareEnv fun _ => .nop) (.instr (.phargi 0)) := by
  rintro ⟨x, M', hr, -⟩
  exact absurd hr (Option.some_ne_none _).symm

end Mem

end Eel
