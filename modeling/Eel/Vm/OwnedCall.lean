-- SUMMARY: Calls from C code: what a C function leaves, and when its result is handed on with exact ownership.
import Eel.Vm.OwnedUnwind

/-!
# Owners and C functions
-/

namespace Eel

/-! ## C code that counts references -/

/-- What is left when C code returns `x`, with `Held` still referred to by those who called
it: its own register and the result, if there is one, are all that it gives up. -/
structure HostDone (E : Env) (fo : ObjId) (Held : List ObjId) (x : Xno) (vm : Vm) : Prop where
  signal : x ≠ Xno.return
  args : x = Xno.ok → vm.sp = vm.sbase
  result : x = Xno.ok → (E.function fo).results = true →
    ∀ ri, (vm.callframe vm.base).result = some ri →
      (vm.store.heap ri).obj? = (vm.store.heap ri).strong? ∧
        (ri ∈ vm.owning E → vm.Owned E false Held) ∧
        (ri ∉ vm.owning E → vm.Owned E false ((vm.store.heap ri).strong?.toList ++ Held))
  register : ¬ (x = Xno.ok ∧ (E.function fo).results = true ∧
      (vm.callframe vm.base).result = some vm.base) → (vm.store.heap vm.base).strong? = none
  plain : ¬ (x = Xno.ok ∧ (E.function fo).results = true) → vm.Owned E false Held

/-- C code counts its references: it keeps ownership exact, with the references `L` it
holds itself, whatever the functions that it calls do. -/
def Host.Counts (E : Env) (Done : Xno → Vm → Prop) : Host → Vm → List ObjId → Prop
  | .ret x, vm, _ => Done x vm
  | .look k, vm, L => (k vm).Counts E Done vm L
  | .act s k, vm, _ =>
    ∃ L', ({ vm with store := s } : Vm).Owned E false L' ∧ k.Counts E Done { vm with store := s } L'
  | .argf item k, vm, _ =>
    ∃ L', (vm.argf item).Owned E false L' ∧ k.Counts E Done (vm.argf item) L'
  | .call _ k, vm, L =>
    (vm.store.heap vm.base).strong? = none ∧
      ∀ x vm', vm'.Owned E false L → vm'.base = vm.base →
        vm'.callframe vm'.base = vm.callframe vm.base → (k x).Counts E Done vm' L

/-- All C functions do. -/
def HostsCount (E : Env) (C : ObjId → Host) : Prop :=
  ∀ fo (vm : Vm) L, (vm.callframe vm.base).f = some fo → vm.Owned E false L →
    vm.store.heap vm.base = .nil → vm.sp = vm.sbase →
    (C fo).Counts E (HostDone E fo L) vm L

namespace Vm

variable {E : Env} {L : List ObjId} {vm vm' : Vm} {c s p b t n : Nat} {bs : List Nat}
  {v : Value} {fo : ObjId} {x : Xno} {result : Option Nat}

/-! ## C frames -/

theorem vars_inC (hc : InC E.function vm.callframe b) : vm.vars E b = [b] := if_pos hc

/-- C code leaves its frame; what its register refers to is left over. -/
theorem Owned.returnedC (h : vm.Owned E false L) (hc : InC E.function vm.callframe vm.base)
    (hsp : vm.sp = vm.sbase) (hcaller : (vm.callframe vm.base).rBase < vm.base) :
    vm.returned.Owned E false ((vm.store.heap vm.base).strong?.toList ++ L) := by
  have hframes : vm.frames = ⟨vm.base, vm.sbase, vm.sp⟩ :: vm.returned.frames := by
    unfold frames
    rw [callers_eq, if_pos hcaller]
    rfl
  have howning : vm.owning E = vm.base :: vm.returned.owning E := by
    rw [owning_eq, vars_inC hc, hsp, Nat.sub_self]
    unfold owningBelow
    rw [callers_eq, if_pos hcaller]
    rfl
  refine ⟨⟨fun a ha => ?_, ?_⟩, ?_⟩
  · exact h.stacked.formed a (hframes ▸ List.mem_cons_of_mem _ ha)
  · have habove := h.stacked.above
    rw [hframes] at habove
    exact (List.pairwise_cons.mp habove).2
  · have htidy := h.tidy
    rw [howning] at htidy
    refine ⟨Store.exact_cons.mp htidy.exact, htidy.linked, fun b hb => htidy.unused b fun hmem => hb ?_⟩
    obtain ⟨hmem, hkeep⟩ := mem_lists.mp hmem
    have hkeep := hkeep.resolve_left (by decide)
    rw [hframes, List.map_cons] at hmem
    refine mem_lists.mpr ⟨(List.mem_cons.mp hmem).resolve_left fun hb => hkeep ?_, .inr hkeep⟩
    rw [hb]
    exact hc

/-- `call_c` up to the C function: its register is empty. -/
theorem Owned.enterC (h : vm.Owned E false L) (hfo : (E.function fo).cfunc = true) :
    (vm.enterC fo result).Owned E false L ∧
      InC E.function (vm.enterC fo result).callframe (vm.enterC fo result).base ∧
      (vm.enterC fo result).store.heap (vm.enterC fo result).base = .nil := by
  obtain ⟨hp, hf⟩ := enterC_pushed vm fo result
  have hc : InC E.function (vm.enterC fo result).callframe (vm.enterC fo result).base :=
    .inr (by simp [Callframe.isCFunc, hf, hfo])
  have hstore : (vm.enterC fo result).store = vm.store.setHeap (vm.enterC fo result).base .nil := by
    have hcall : (vm.enterC fo result).store =
        (vm.pushFrame 0 1).store.setHeap (vm.enterC fo result).base .nil := rfl
    rw [hcall, h.pushFrame_store 0 1]
  have hctab : ∀ b, b ≠ (vm.enterC fo result).base →
      (vm.enterC fo result).cleantab b = vm.cleantab b := fun b hb => Function.update_of_ne hb ..
  have hsbase : (vm.enterC fo result).sbase = (vm.enterC fo result).base + 1 := rfl
  have hsp : (vm.enterC fo result).sp = (vm.enterC fo result).sbase := rfl
  generalize vm.enterC fo result = vm' at hp hc hstore hctab hsbase hsp
  have hout : vm'.base ∉ vm.owning E := fun hmem =>
    Nat.lt_irrefl _ (Nat.lt_trans hp.above (h.stacked.owning_lt hmem))
  have hnil : vm'.store.heap vm'.base = .nil := by
    rw [hstore]
    exact Store.setHeap_self
  refine ⟨h.entered hp (vars_inC hc) hctab hsp (List.nodup_singleton _) (fun r hr => ?_) ?_, hc, hnil⟩
  · cases List.mem_singleton.mp hr
    exact ⟨Nat.le_refl _, by omega⟩
  · have hset := h.tidy.setHeap (v := .nil) (.inl hout) fun _ ho => absurd ho (Value.ne_weakref rfl)
    rw [← hstore] at hset
    refine hset.same (Store.exact_cons.mpr ?_) .refl
    rw [hnil]
    exact hset.exact

/-- C code gives up its frame. -/
def droppedC (vm : Vm) (x : Xno) : Vm :=
  let cf := vm.callframe vm.base
  let left := FrameEvent.dropped vm.base (vm.store.limbo vm.base)
  let vm := if x = Xno.ok then vm else vm.stackClear
  { vm with base := cf.rBase, sp := cf.rSp, sbase := cf.rSbase, log := vm.log ++ [left] }.stackClear

theorem droppedC_fades : Store.Fades vm.store (vm.droppedC x).store := by
  unfold droppedC
  dsimp only
  refine survives_fades.stackClear ?_
  change Store.Fades vm.store (if x = Xno.ok then vm else vm.stackClear).store
  split
  · exact .refl
  · exact survives_fades.stackClear .refl

theorem droppedC_base : (vm.droppedC x).base = (vm.callframe vm.base).rBase := stackClear_base

theorem droppedC_callframe : (vm.droppedC x).callframe = vm.callframe := by
  unfold droppedC
  dsimp only
  rw [stackClear_callframe]
  change (if x = Xno.ok then vm else vm.stackClear).callframe = _
  split
  · rfl
  · exact stackClear_callframe

theorem leaveC_eq : vm.leaveC E fo result x =
    if x = Xno.ok ∧ (E.function fo).results then
      let v := (vm.droppedC x).store.heap ((vm.callframe vm.base).result.getD 0)
      if result.isSome then
        { vm.droppedC x with store := (vm.droppedC x).store.receive (vm.droppedC x).base v }
      else { vm.droppedC x with store := (vm.droppedC x).store.disown v }
    else vm.droppedC x := rfl

theorem Owned.droppedC (h : vm.Owned E false L) (hc : InC E.function vm.callframe vm.base)
    (hcaller : (vm.callframe vm.base).rBase < vm.base) (hsp : x = Xno.ok → vm.sp = vm.sbase) :
    (vm.droppedC x).Owned E false ((vm.store.heap vm.base).strong?.toList ++ L) := by
  have hleft : ∀ vm' : Vm, vm'.Owned E false L → vm'.base = vm.base → vm'.callframe = vm.callframe →
      vm'.sp = vm'.sbase →
      vm'.returned.Owned E false ((vm'.store.heap vm.base).strong?.toList ++ L) := by
    intro vm' h' hbase hframe hsp
    have hret := h'.returnedC (by rw [hframe, hbase]; exact hc) hsp (by rw [hframe, hbase]; exact hcaller)
    rw [hbase] at hret
    exact hret
  unfold Vm.droppedC
  dsimp only
  refine Owned.stackClear ?_
  by_cases hx : x = Xno.ok
  · have hret := hleft vm h rfl rfl (hsp hx)
    simp only [if_pos hx]
    exact ⟨⟨hret.stacked.formed, hret.stacked.above⟩, hret.tidy⟩
  · have hret := hleft vm.stackClear h.stackClear stackClear_base stackClear_callframe
      ((stackClear_sp h.ordered.2).trans stackClear_sbase.symm)
    have hsame := ((@stackClear_fades vm).heap vm.base).strong?
    rw [hsame] at hret
    simp only [if_neg hx]
    have hback : ∀ {cf : Callframe} {log : List FrameEvent},
        cf = vm.stackClear.callframe vm.stackClear.base →
        Owned E { vm.stackClear with
          base := cf.rBase
          sp := cf.rSp
          sbase := cf.rSbase
          log := log } false ((vm.store.heap vm.base).strong?.toList ++ L) := by
      rintro cf log rfl
      exact ⟨⟨hret.stacked.formed, hret.stacked.above⟩, hret.tidy⟩
    exact hback (by rw [stackClear_callframe, stackClear_base])

/-- The frame of C code that `call_c` has set up, as it is when the C function returns. -/
structure Leaving (E : Env) (fo : ObjId) (result : Option Nat) (vm : Vm) : Prop where
  host : InC E.function vm.callframe vm.base
  caller : (vm.callframe vm.base).rBase < vm.base
  slot : (vm.callframe vm.base).result = some (result.getD vm.base)
  below : ∀ ri, result = some ri → ri < vm.base

/-- The result of a C function is received by a temporary of EEL code, or it is no object. -/
def Receives (E : Env) (vm : Vm) (ri : Nat) : Prop :=
  (¬ InC E.function vm.callframe (vm.callframe vm.base).rBase ∧ ri ∉ vm.owning E) ∨
    (ri ∈ vm.owning E ∧ (vm.store.heap ri).obj? = none)

theorem Owned.dropped_plain {Held : List ObjId} (hl : Leaving E fo result vm)
    (hd : HostDone E fo Held x vm) (h : vm.Owned E false L)
    (hplain : (vm.store.heap vm.base).strong? = none) : (vm.droppedC x).Owned E false L := by
  have hdrop := h.droppedC (x := x) hl.host hl.caller hd.args
  rw [hplain] at hdrop
  exact hdrop

/-- A C function is left. -/
theorem Owned.leaveC {Held : List ObjId} (hl : Leaving E fo result vm)
    (hd : HostDone E fo Held x vm)
    (hslot : x = Xno.ok → (E.function fo).results = true → ∀ ri, result = some ri → vm.Receives E ri) :
    (vm.leaveC E fo result x).Owned E false Held := by
  rw [leaveC_eq]
  by_cases hres : x = Xno.ok ∧ (E.function fo).results = true
  · obtain ⟨hv, hin, hout⟩ := hd.result hres.1 hres.2 _ hl.slot
    have hsame := faded_eq_of_obj? ((droppedC_fades (x := x)).heap _) hv
    rw [if_pos hres]
    dsimp only
    rw [hl.slot, Option.getD_some, hsame]
    cases result with
    | none =>
      -- The result is in the register of the C function, and nobody wants it.
      have hmem : vm.base ∈ vm.owning E := by
        rw [owning_eq, vars_inC hl.host]
        exact List.mem_append_right _ List.mem_cons_self
      have hdrop := (hin hmem).droppedC (x := x) hl.host hl.caller hd.args
      obtain ⟨hex, hsh, -⟩ := hdrop.tidy.exact.disown Store.anchored_empty
      exact hdrop.store (hdrop.tidy.same hex hsh.sameLimbo)
    | some ri =>
      rw [Option.getD_some] at hv hin hout ⊢
      have hne : ri ≠ vm.base := Nat.ne_of_lt (hl.below ri rfl)
      have hplain := hd.register fun h => hne (Option.some.inj (hl.slot.symm.trans h.2.2))
      simp only [Option.isSome_some, if_true]
      rcases hslot hres.1 hres.2 ri rfl with ⟨heel, htmp⟩ | ⟨hmem, hnone⟩
      · have hdrop := (hout htmp).dropped_plain hl hd hplain
        have hback : InEel E (vm.droppedC x) := by
          unfold InEel
          rw [droppedC_callframe, droppedC_base]
          exact ⟨fun h0 => heel (.inl h0), Bool.eq_false_iff.mpr fun h => heel (.inr h)⟩
        exact hdrop.store (hdrop.tidy.receive hv hback.base_mem)
      · have hdrop := (hin hmem).dropped_plain hl hd hplain
        have hreceive : (vm.droppedC x).store.receive (vm.droppedC x).base (vm.store.heap ri) =
            (vm.droppedC x).store := by
          unfold Store.receive
          rw [hnone]
        rw [hreceive]
        exact hdrop
  · rw [if_neg hres]
    exact (hd.plain hres).dropped_plain hl hd (hd.register fun h => hres ⟨h.1, h.2.1⟩)

end Vm

end Eel
