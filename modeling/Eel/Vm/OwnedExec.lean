-- SUMMARY: What keeps ownership exact within a frame: operators that count what they return, and instructions that never overwrite the last owner of what they copy.
import Eel.Core.Fading
import Eel.Vm.Owned

/-!
# Owners and instructions
-/

namespace Eel

/-! ## Operators -/

/-- An operator given `s` counts the reference to its result, and leaves everything
else as it should be. -/
def OpResult.Counted (s : Store) (r : OpResult) : Prop :=
  ∀ B P L, s.Tidy B P L →
    match r with
    | (.ok v, s') => s'.Tidy B P (v.strong?.toList ++ L) ∧ v.obj? = v.strong?
    | (.error _, s') => s'.Tidy B P L

/-- The same of an operator whose result is no object. -/
def OpResult.Plain (s : Store) (r : OpResult) : Prop :=
  r.Counted s ∧ ∀ v s', r = (.ok v, s') → v.obj? = none

/-- Operators, casts, constructors and metamethods count references, when what they are
given is there. -/
structure Env.Counts (E : Env) : Prop where
  operate : ∀ op v w s, s.Live v → s.Live w → (E.operate op v w s).Counted s
  ipoperate : ∀ op v w s, s.Live v → s.Live w → (E.ipoperate op v w s).Counted s
  unary : ∀ op v s, s.Live v → (E.unary op v s).Counted s
  plain : ∀ op ∈ [Operator.neg, .bnot, .not, .typeof, .sizeof], ∀ v s, s.Live v →
    (E.unary op v s).Plain s
  cast : ∀ v cid s, s.Live v → (E.cast v cid s).Counted s
  construct : ∀ cid vs s, (∀ v ∈ vs, s.Live v) → (E.construct cid vs s).Counted s
  getindex : ∀ o key s, (s.object o).freed = false → s.Live key → (E.getindex o key s).Counted s
  setindex : ∀ o key v s, (s.object o).freed = false → s.Live key → s.Live v →
    ∀ B P L, s.Tidy B P L → (E.setindex o key v s).2.Tidy B P L

theorem Value.strong?_of_obj? {v : Value} (h : v.obj? = none) : v.strong? = none := by
  cases v with
  | objref o => cases h
  | _ => rfl

theorem Value.ne_weakref {v : Value} {o : ObjId} {wired : Bool} (h : v.obj? = none) :
    v ≠ .weakref o wired := by
  rintro rfl
  cases h

namespace Vm

variable (E : Env) (L : List ObjId) (vm : Vm)

/-! ## Registers -/

/-- `R[a]` is a temporary: it owns nothing. -/
def Temporary (a : Nat) : Prop := vm.base + a ∉ vm.owning E

/-- Heap position `i` is an owner, and there are objects, `Rest`, that are owned without it. -/
def Overwrites (i : Nat) (Rest : Set ObjId) : Prop :=
  i ∈ vm.owning E ∧ vm.store.Anchored ((vm.owning E).erase i) L Rest

variable {E : Env} {hosts : Bool} {L L' : List ObjId} {vm vm' : Vm} {a b i n : Nat} {v w : Value} {s : Store}
  {r : OpResult}

/-! ### Who owns -/

theorem Activation.owning_bounds {x : Activation} (hx : x.Formed (vm.vars E x.base))
    (hi : i ∈ x.owning E vm) : x.base ≤ i ∧ i < x.sp := by
  have hbase := hx.base
  have hsp := hx.sp
  rcases List.mem_append.mp hi with hi | hi
  · have := List.mem_range'_1.mp hi
    exact ⟨by omega, by omega⟩
  · have := hx.bounds i hi
    exact ⟨by omega, by omega⟩

/-- No position is two owners. -/
theorem Stacked.owning_nodup (h : vm.Stacked E) : (vm.owning E).Nodup := by
  refine List.nodup_flatMap.mpr ⟨fun x hx => ?_, ?_⟩
  · have hf := h.formed x hx
    refine List.nodup_append.mpr ⟨List.nodup_range', hf.nodup, fun i hi j hj hij => ?_⟩
    have := List.mem_range'_1.mp hi
    have := hf.bounds j hj
    omega
  · refine h.above.imp_of_mem fun {x y} hx hy hxy i hi hj => ?_
    have := Activation.owning_bounds (h.formed x hx) hi
    have := Activation.owning_bounds (h.formed y hy) hj
    omega

/-! ### Writing registers -/

theorem qcopyReg_obj? : ((vm.qcopyReg a v).register a).obj? = v.obj? := by
  unfold qcopyReg register Store.qcopy Store.setHeap
  simp only [Function.update_self]
  cases v <;> rfl

/-- What a push leaves alone. -/
theorem push_heap (hi : i < vm.sp) : (vm.push v).store.heap i = vm.store.heap i := by
  unfold Vm.push Store.copy Store.setHeap
  rw [Store.own_heap]
  exact Function.update_of_ne (Nat.ne_of_lt hi) ..

theorem push_live (h : vm.store.Live w) : (vm.push v).store.Live w := fun o ho =>
  Store.own_freed.trans (h o ho)

namespace Owned

theorem setHeap (h : vm.Owned E hosts L) (hi : i ∉ vm.owning E ∨ (vm.store.heap i).strong? = none)
    (hv : v.obj? = none) : ({ vm with store := vm.store.setHeap i v } : Vm).Owned E hosts L := by
  have hstrong := Value.strong?_of_obj? hv
  refine h.store (h.tidy.setHeap (hi.imp_right fun hold => ⟨hold, hstrong⟩) fun o ho => ?_)
  exact absurd ho (Value.ne_weakref hv)

theorem writeReg (h : vm.Owned E hosts L) (ha : vm.Temporary E a) (hv : v.obj? = none) :
    (vm.writeReg a v).Owned E hosts L :=
  h.setHeap (.inl ha) hv

theorem qcopyReg (h : vm.Owned E hosts L) (ha : vm.Temporary E a) : (vm.qcopyReg a v).Owned E hosts L :=
  h.store (h.tidy.qcopy ha)

theorem grabReg (h : vm.Owned E hosts L) (hrun : InEel E vm) (ha : vm.store.Live (vm.register a)) :
    (vm.grabReg a).Owned E hosts L :=
  h.store (h.tidy.grab ha hrun.base_mem)

/-- A temporary holds a reference that its limbo list takes care of. -/
theorem grab (h : vm.Owned E hosts L) (hrun : InEel E vm) (ha : vm.Temporary E a) (hv : vm.store.Live v) :
    ((vm.qcopyReg a v).grabReg a).Owned E hosts L := by
  refine (h.qcopyReg ha).grabReg hrun fun o ho => hv o ?_
  rw [← @qcopyReg_obj? vm a v]
  exact ho

/-! ### Results -/

theorem ok (h : vm.Owned E hosts L) (hr : OpResult.Counted vm.store (.ok v, s)) :
    ({ vm with store := s } : Vm).Owned E hosts (v.strong?.toList ++ L) ∧ v.obj? = v.strong? := by
  obtain ⟨htidy, hv⟩ := hr _ _ _ h.tidy
  exact ⟨h.store htidy, hv⟩

theorem error {x : Xno} (h : vm.Owned E hosts L) (hr : OpResult.Counted vm.store (.error x, s)) :
    ({ vm with store := s } : Vm).Owned E hosts L :=
  h.store (hr _ _ _ h.tidy)

theorem received (h : vm.Owned E hosts L) (hrun : InEel E vm) (ha : vm.Temporary E a) (hr : r.Counted vm.store) :
    (vm.received a r).All fun vm' => vm'.Owned E hosts L := by
  obtain ⟨x | v, s⟩ := r
  · exact h.error hr
  · obtain ⟨hown, hv⟩ := h.ok hr
    have hset := hown.tidy.setHeap (i := vm.base + a) (v := v) (.inl ha) fun o ho => by
      rw [ho] at hv
      cases hv
    have hreg : (({ vm with store := s } : Vm).writeReg a v).register a = v := Function.update_self ..
    suffices htidy : ((({ vm with store := s } : Vm).writeReg a v).store.receive vm.base
        ((({ vm with store := s } : Vm).writeReg a v).register a)).Tidy _ _ _ from hown.store htidy
    rw [hreg]
    exact hset.receive hv hrun.base_mem

theorem result (h : vm.Owned E hosts L) (ha : vm.Temporary E a) (hr : r.Plain vm.store) :
    (vm.result a r).All fun vm' => vm'.Owned E hosts L := by
  obtain ⟨x | v, s⟩ := r
  · exact h.error hr.1
  · obtain ⟨hown, hstrong⟩ := h.ok hr.1
    have hv := hr.2 v s rfl
    rw [← hstrong, hv] at hown
    have ha' : ({ vm with store := s } : Vm).Temporary E a := ha
    exact hown.writeReg ha' hv

theorem pushedResult (h : vm.Owned E hosts L) (hr : r.Counted vm.store) :
    (vm.pushed r).All fun vm' => vm'.Owned E hosts L := by
  obtain ⟨x | v, s⟩ := r
  · exact h.error hr
  · obtain ⟨hown, hv⟩ := h.ok hr
    refine hown.pushRaw fun o ho => ?_
    rw [ho] at hv
    cases hv

theorem indget (hE : E.Counts) (h : vm.Owned E hosts L) (hrun : InEel E vm) (ha : vm.Temporary E a) (hv : vm.store.Live v)
    (hw : vm.store.Live w) : (vm.indget E a v w).All fun vm' => vm'.Owned E hosts L := by
  unfold Vm.indget
  cases ho : v.obj? with
  | none => exact h
  | some o => exact h.received hrun ha (hE.getindex o w _ (hv o ho) hw)

theorem indset (hE : E.Counts) (h : vm.Owned E hosts L) (ha : vm.store.Live (vm.register a))
    (hv : vm.store.Live v) (hw : vm.store.Live w) :
    (vm.indset E a v w).All fun vm' => vm'.Owned E hosts L := by
  unfold Vm.indset
  cases ho : v.obj? with
  | none => exact h
  | some o =>
    have hown := h.store (hE.setindex o w (vm.register a) _ (hv o ho) hw ha _ _ _ h.tidy)
    dsimp only
    split
    · exact hown
    · exact hown

/-- Without an owner's rights before, without them after a plain value is written. -/
theorem strong?_update {bits : BitVec 64} (hi : (s.heap i).strong? = none) :
    ((s.setHeap n (.real bits)).heap i).strong? = none := by
  by_cases hin : i = n
  · subst hin
    rw [Store.setHeap_self]
    rfl
  · rw [Store.setHeap_ne hin]
    exact hi

theorem disownHeap_of_strong? (hi : (vm.store.heap i).strong? = none) : vm.disownHeap i = vm := by
  unfold Vm.disownHeap Store.disown
  cases hv : vm.store.heap i with
  | objref o =>
    rw [hv] at hi
    cases hi
  | _ => rfl

/-! ### Overwriting -/

/-- The owner at `i` gives up what it refers to. -/
theorem disownAt (h : vm.Owned E hosts L) {Rest : Set ObjId} (hi : vm.Overwrites E L i Rest) :
    (vm.store.disown (vm.store.heap i)).Tidy (vm.lists E hosts)
        ((vm.owning E).erase i) L ∧
      ∀ o ∈ Rest, ((vm.store.disown (vm.store.heap i)).object o).freed = false := by
  obtain ⟨hmem, hrest⟩ := hi
  obtain ⟨htidy, -, hk⟩ :=
    (h.tidy.perm (List.perm_cons_erase hmem).symm).disown_cons hrest
  exact ⟨htidy, fun o ho => (hk o ho).freed.trans (hrest o ho).1⟩

/-- Another value is copied to the owner at `i`, which gives up what it refers to first. -/
theorem overwrite (h : vm.Owned E hosts L) {Rest : Set ObjId} (hi : vm.Overwrites E L i Rest)
    (hv : ∀ o, v.obj? = some o → o ∈ Rest) :
    ({ vm with store := (vm.store.disown (vm.store.heap i)).copy i v } : Vm).Owned E hosts L := by
  obtain ⟨htidy, hrest⟩ := h.disownAt hi
  have hout : i ∉ (vm.owning E).erase i := h.stacked.owning_nodup.not_mem_erase
  have hcopy := htidy.copy_cons (fun o ho => hrest o (hv o ho)) hout
  exact h.store (hcopy.perm (List.perm_cons_erase hi.1))

theorem overwritePlain (h : vm.Owned E hosts L) (hi : i ∈ vm.owning E) (hv : v.obj? = none) :
    ({ vm with store := (vm.store.disown (vm.store.heap i)).setHeap i v } : Vm).Owned E hosts L := by
  obtain ⟨htidy, -⟩ := h.disownAt ⟨hi, Store.anchored_empty⟩
  have hout : i ∉ (vm.owning E).erase i := h.stacked.owning_nodup.not_mem_erase
  have hset := htidy.setHeap (v := v) (.inl hout) fun o ho => absurd ho (Value.ne_weakref hv)
  refine h.store (Store.Tidy.perm (P := i :: (vm.owning E).erase i) ?_ (List.perm_cons_erase hi))
  refine hset.same (Store.exact_cons.mpr ?_) .refl
  have hi : (Store.setHeap (vm.store.disown (vm.store.heap i)) i v).heap i = v :=
    Function.update_self ..
  have hstrong := Value.strong?_of_obj? hv
  rw [hi, hstrong]
  exact hset.exact

theorem setarg {c : Nat} (h : vm.Owned E hosts L) (hi : i < (vm.callframe b).argc →
    ∃ Rest, vm.Overwrites E L ((vm.callframe b).argv + i) Rest ∧
      ∀ o, (vm.register c).obj? = some o → o ∈ Rest) :
    (vm.setarg c b i).All fun vm' => vm'.Owned E hosts L := by
  unfold Vm.setarg
  split
  · rename_i hlt
    obtain ⟨Rest, hover, hrest⟩ := hi hlt
    exact h.overwrite hover fun o ho => hrest o (Store.fades_disown.heap_obj? ho)
  · exact h

theorem getarg {default : Option Value} (h : vm.Owned E hosts L) (hrun : InEel E vm) (ha : vm.Temporary E a)
    (hi : i < (vm.callframe b).argc → vm.store.Live (vm.store.heap ((vm.callframe b).argv + i))) :
    (vm.getarg a b i default).All fun vm' => vm'.Owned E hosts L := by
  unfold Vm.getarg
  split
  · rename_i hlt
    exact h.grab hrun ha (hi hlt)
  · cases default with
    | none => exact h
    | some v => exact h.qcopyReg ha

/-! ### Pushing -/

theorem pushRange (h : vm.Owned E hosts L)
    (hr : ∀ j, i ≤ j → j < i + n → j < vm.sp ∧ vm.store.Live (vm.store.heap j)) :
    (pushRange i n vm).Owned E hosts L := by
  induction n generalizing vm i with
  | zero => exact h
  | succ n ih =>
    have hi := hr i (Nat.le_refl _) (by omega)
    refine ih (h.push hi.2) fun j hj hlt => ?_
    have hj := hr j (by omega) (by omega)
    refine ⟨Nat.lt_succ_of_lt hj.1, ?_⟩
    rw [push_heap hj.1]
    exact push_live hj.2

theorem pushPlain (h : vm.Owned E hosts L) (hv : v.obj? = none) : (vm.pushRaw v).Owned E hosts L := by
  have hstrong := Value.strong?_of_obj? hv
  exact Owned.pushRaw (by rw [hstrong]; exact h) fun o ho => absurd ho (Value.ne_weakref hv)

/-! ### Loops -/

theorem castLoop {k : Vm → BitVec 64 → Outcome} (h : vm.Owned E hosts L)
    (hb : vm.Temporary E b ∨ (vm.register b).strong? = none)
    (hk : ∀ vm' bits, vm'.Owned E hosts L →
      (∀ c, vm.Temporary E c ∨ (vm.register c).strong? = none →
        vm'.Temporary E c ∨ (vm'.register c).strong? = none) →
      (k vm' bits).All fun vm' => vm'.Owned E hosts L) :
    (vm.castLoop E b k).All fun vm' => vm'.Owned E hosts L := by
  unfold Vm.castLoop
  split
  · exact hk _ _ h fun _ hc => hc
  · split
    · refine hk _ _ (h.setHeap hb rfl) fun c hc => ?_
      refine hc.imp id fun hc => ?_
      exact strong?_update hc
    · exact h

theorem castLoopVar {k : Vm → BitVec 64 → Outcome} (h : vm.Owned E hosts L)
    (ha : vm.base + a ∈ vm.owning E ∨ (vm.register a).strong? = none)
    (hk : ∀ vm' bits, vm'.Owned E hosts L → (vm'.register a).strong? = none →
      (∀ c, vm.Temporary E c ∨ (vm.register c).strong? = none →
        vm'.Temporary E c ∨ (vm'.register c).strong? = none) →
      (k vm' bits).All fun vm' => vm'.Owned E hosts L) :
    (vm.castLoopVar E a k).All fun vm' => vm'.Owned E hosts L := by
  unfold Vm.castLoopVar
  split
  · rename_i bits hreg
    exact hk _ _ h (by rw [hreg]; rfl) fun _ hc => hc
  · split
    · refine hk _ _ ?_ ?_ fun c hc => hc.imp id fun hc => ?_
      · rcases ha with ha | ha
        · exact h.overwritePlain ha rfl
        · have hsame : vm.disownHeap (vm.base + a) = vm := disownHeap_of_strong? ha
          rw [hsame]
          exact h.setHeap (.inr ha) rfl
      · exact congrArg Value.strong? Store.setHeap_self
      · refine strong?_update ?_
        exact (Store.fades_disown.heap _).strong?.trans hc
    · exact h

end Owned

end Vm

end Eel
