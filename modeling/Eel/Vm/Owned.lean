-- SUMMARY: Which registers and arguments own objects, and what pushing, initializing and cleaning do to them.
import Eel.Core.OwnerOps
import Eel.Vm.OpenFrames

/-!
# Owners in the VM
-/

namespace Eel

namespace Vm

/-- The registers of a frame that is active: the VM registers, as they are or as saved
in the frame above. -/
structure Activation where
  base : Nat
  sbase : Nat
  sp : Nat

/-- The frames below the one at `base`, from the top. A frame is above the one it
returns to. -/
def callers (callframe : Nat → Callframe) (base : Nat) : List Activation :=
  let cf := callframe base
  if cf.rBase < base then ⟨cf.rBase, cf.rSbase, cf.rSp⟩ :: callers callframe cf.rBase else []
termination_by base

variable (E : Env) (vm : Vm)

/-- The frame at the top, and those below. -/
def frames : List Activation := ⟨vm.base, vm.sbase, vm.sp⟩ :: callers vm.callframe vm.base

instance {F : ObjId → Function} {frames : Nat → Callframe} {c : Nat} : Decidable (InC F frames c) := by
  unfold InC
  infer_instance

/-- The registers of the frame at `b` that own: the variables in the clean table, or the
result of C code. -/
def vars (b : Nat) : List Nat :=
  if InC E.function vm.callframe b then [b] else (vm.cleantab b).map (b + ·)

/-- What a frame owns: its vars and the items of its argument stack. -/
def Activation.owning (a : Activation) : List Nat :=
  List.range' a.sbase (a.sp - a.sbase) ++ vm.vars E a.base

/-- The frames with limbo lists: those of EEL code, and if `hosts` all of them. -/
def lists (hosts : Bool) : List Nat :=
  (vm.frames.map Activation.base).filter fun b => hosts || !decide (InC E.function vm.callframe b)

/-- The heap positions that own what they refer to. -/
def owning : List Nat := vm.frames.flatMap (Activation.owning E vm)

/-- The variables `vs` of a frame are below its argument stack, each once. -/
structure Activation.Formed (vs : List Nat) (a : Activation) : Prop where
  base : a.base ≤ a.sbase
  sp : a.sbase ≤ a.sp
  nodup : vs.Nodup
  bounds : ∀ r ∈ vs, a.base ≤ r ∧ r < a.sbase

/-- The frames are well formed and on top of each other. -/
structure Stacked : Prop where
  formed : ∀ a ∈ vm.frames, a.Formed (vm.vars E a.base)
  above : vm.frames.Pairwise fun a b => b.sp < a.base

/-- Counts are exact when the owners are the variables, the argument stacks, what objects
hold, the limbo lists, the exception, and `L`. -/
structure Owned (hosts : Bool) (L : List ObjId) : Prop where
  stacked : vm.Stacked E
  tidy : vm.store.Tidy (vm.lists E hosts) (vm.owning E) L

/-! ## Frames -/

variable {E : Env} {hosts : Bool} {vm vm' : Vm} {a b i n : Nat} {v : Value} {L L' : List ObjId} {s : Store}
  {x : Activation}

theorem callers_eq (cf : Nat → Callframe) (base : Nat) :
    callers cf base =
      if (cf base).rBase < base then
        ⟨(cf base).rBase, (cf base).rSbase, (cf base).rSp⟩ :: callers cf (cf base).rBase
      else [] := by
  rw [callers]

theorem lt_of_mem_callers {callframe : Nat → Callframe} {base : Nat}
    (h : x ∈ callers callframe base) : x.base < base := by
  induction base using Nat.strong_induction_on with
  | _ base ih =>
    rw [callers_eq] at h
    split at h
    · rename_i hlt
      rcases List.mem_cons.mp h with rfl | h
      · exact hlt
      · exact Nat.lt_trans (ih _ hlt h) hlt
    · cases h

/-- The callers are found in the frames from `base` down. -/
theorem callers_congr {cf cf' : Nat → Callframe} {base : Nat} (h : ∀ b ≤ base, cf' b = cf b) :
    callers cf' base = callers cf base := by
  induction base using Nat.strong_induction_on with
  | _ base ih =>
    rw [callers_eq cf', callers_eq cf, h base (Nat.le_refl _)]
    split
    · rename_i hlt
      rw [ih _ hlt fun b hb => h b (Nat.le_of_lt (Nat.lt_of_le_of_lt hb hlt))]
    · rfl

theorem vars_congr (hf : vm'.callframe b = vm.callframe b) (hc : vm'.cleantab b = vm.cleantab b) :
    vm'.vars E b = vm.vars E b := by
  have hC : InC E.function vm'.callframe b ↔ InC E.function vm.callframe b := by
    unfold InC
    rw [hf]
  unfold vars
  simp only [hC, hc]

theorem Activation.owning_congr (hf : vm'.callframe x.base = vm.callframe x.base)
    (hc : vm'.cleantab x.base = vm.cleantab x.base) :
    x.owning E vm' = x.owning E vm := by
  unfold Activation.owning
  rw [vars_congr hf hc]

/-- What the frames below own. -/
def owningBelow (E : Env) (vm : Vm) : List Nat :=
  (callers vm.callframe vm.base).flatMap (Activation.owning E vm)

theorem owning_eq : vm.owning E =
    List.range' vm.sbase (vm.sp - vm.sbase) ++ (vm.vars E vm.base ++ vm.owningBelow E) := by
  unfold owning frames owningBelow Activation.owning
  rw [List.flatMap_cons, List.append_assoc]

namespace Stacked

variable (h : vm.Stacked E)

include h

theorem sbase_le_sp : vm.sbase ≤ vm.sp := (h.formed _ List.mem_cons_self).sp

theorem lt_base (ha : x ∈ callers vm.callframe vm.base) : x.sp < vm.base :=
  (List.pairwise_cons.mp h.above).1 x ha

theorem owningBelow_lt (hi : i ∈ vm.owningBelow E) : i < vm.base := by
  obtain ⟨x, hx, hi⟩ := List.mem_flatMap.mp hi
  have hsp := h.lt_base hx
  rcases List.mem_append.mp hi with hi | hi
  · have := List.mem_range'_1.mp hi
    omega
  · have hx' := h.formed x (List.mem_cons_of_mem _ hx)
    have := (hx'.bounds i hi).2
    have := hx'.sp
    omega

theorem vars_bounds (hi : i ∈ vm.vars E vm.base) : vm.base ≤ i ∧ i < vm.sbase :=
  (h.formed _ List.mem_cons_self).bounds i hi

theorem owning_lt (hi : i ∈ vm.owning E) : i < vm.sp := by
  rw [owning_eq] at hi
  have hsp := h.sbase_le_sp
  rcases List.mem_append.mp hi with hi | hi
  · have := List.mem_range'_1.mp hi
    omega
  rcases List.mem_append.mp hi with hi | hi
  · have := h.vars_bounds hi
    omega
  · have hbelow := h.owningBelow_lt hi
    have hbase : vm.base ≤ vm.sbase := (h.formed _ List.mem_cons_self).base
    omega

end Stacked

theorem mem_lists : b ∈ vm.lists E hosts ↔
    b ∈ vm.frames.map Activation.base ∧ (hosts = true ∨ ¬ InC E.function vm.callframe b) := by
  unfold lists
  rw [List.mem_filter, Bool.or_eq_true, Bool.not_eq_true', decide_eq_false_iff_not]

theorem lists_congr (hframes : vm'.frames = vm.frames) (hf : vm'.callframe = vm.callframe) :
    vm'.lists E hosts = vm.lists E hosts := by
  unfold lists
  rw [hframes, hf]

/-! ## Another store -/

/-- The frames and owners do not depend on the store. -/
theorem Owned.store (h : vm.Owned E hosts L)
    (hs : s.Tidy (vm.lists E hosts) (vm.owning E) L') :
    ({ vm with store := s } : Vm).Owned E hosts L' :=
  ⟨⟨h.stacked.formed, h.stacked.above⟩, hs⟩

/-- Only the program counter is another. -/
theorem Owned.jump (h : vm.Owned E hosts L) {d : Int} : (vm.jump d).Owned E hosts L :=
  ⟨⟨h.stacked.formed, h.stacked.above⟩, h.tidy⟩

/-! ## The argument stack -/

theorem owning_push (h : vm.sbase ≤ vm.sp) :
    ({ vm with sp := vm.sp + 1, store := s } : Vm).owning E =
      List.range' vm.sbase (vm.sp - vm.sbase) ++ vm.sp :: (vm.vars E vm.base ++ vm.owningBelow E) := by
  rw [owning_eq]
  change List.range' vm.sbase (vm.sp + 1 - vm.sbase) ++ (vm.vars E vm.base ++ vm.owningBelow E) = _
  have hn : vm.sp + 1 - vm.sbase = vm.sp - vm.sbase + 1 := by omega
  have hsp : vm.sbase + (vm.sp - vm.sbase) = vm.sp := by omega
  rw [hn, List.range'_concat, Nat.one_mul, hsp, List.append_assoc]
  rfl

/-- One more item, which owns what it refers to. -/
theorem Owned.pushed (h : vm.Owned E hosts L)
    (hs : s.Tidy (vm.lists E hosts) (vm.sp :: vm.owning E) L') :
    ({ vm with sp := vm.sp + 1, store := s } : Vm).Owned E hosts L' := by
  have hsp := h.stacked.sbase_le_sp
  refine ⟨⟨fun a ha => ?_, ?_⟩, ?_⟩
  · rcases List.mem_cons.mp ha with rfl | ha
    · have hf := h.stacked.formed _ List.mem_cons_self
      exact ⟨hf.base, Nat.le_succ_of_le hf.sp, hf.nodup, hf.bounds⟩
    · exact h.stacked.formed a (List.mem_cons_of_mem _ ha)
  · exact List.pairwise_cons.mpr (List.pairwise_cons.mp h.stacked.above)
  · refine hs.perm ?_
    rw [owning_push hsp, owning_eq]
    exact List.perm_middle

theorem Owned.sp_notMem (h : vm.Owned E hosts L) : vm.sp ∉ vm.owning E :=
  fun hmem => Nat.lt_irrefl _ (h.stacked.owning_lt hmem)

theorem Owned.push (h : vm.Owned E hosts L) (hv : vm.store.Live v) : (vm.push v).Owned E hosts L :=
  h.pushed (h.tidy.copy_cons hv h.sp_notMem)

/-- A value that is pushed as it is becomes the owner of what was in flight. -/
theorem Owned.pushRaw (h : vm.Owned E hosts (v.strong?.toList ++ L))
    (hv : ∀ o, v = .weakref o true → (vm.store.object o).freed = false) :
    (vm.pushRaw v).Owned E hosts L := by
  refine h.pushed ?_
  have hset := h.tidy.setHeap (.inl h.sp_notMem) hv
  refine hset.same (Store.exact_cons.mpr ?_) .refl
  rw [show (vm.store.setHeap vm.sp v).heap vm.sp = v from Function.update_self ..]
  exact hset.exact

theorem Owned.disownArg (h : vm.Owned E hosts L) (hsp : vm.sbase < vm.sp) :
    (vm.store.disown (vm.store.heap (vm.sp - 1))).Tidy (vm.lists E hosts)
        (({ vm with sp := vm.sp - 1 } : Vm).owning E) L ∧
      (vm.store.disown (vm.store.heap (vm.sp - 1))).limbo = vm.store.limbo := by
  have hperm : ((vm.sp - 1) :: ({ vm with sp := vm.sp - 1 } : Vm).owning E).Perm (vm.owning E) := by
    have hpush := @owning_push E { vm with sp := vm.sp - 1 } vm.store (Nat.le_sub_one_of_lt hsp)
    have hback : vm.sp - 1 + 1 = vm.sp := Nat.sub_add_cancel (Nat.zero_lt_of_lt hsp)
    simp only [hback] at hpush
    rw [hpush, owning_eq]
    exact List.perm_middle.symm
  obtain ⟨htidy, hsh, -⟩ := (h.tidy.perm hperm).disown_cons Store.anchored_empty
  exact ⟨htidy, hsh.limbo⟩

/-- The last item of the argument stack is disowned. -/
theorem Owned.dropArg (h : vm.Owned E hosts L) (hsp : vm.sbase < vm.sp) :
    ({ vm with sp := vm.sp - 1, store := vm.store.disown (vm.store.heap (vm.sp - 1)) } : Vm).Owned
      E hosts L := by
  refine ⟨⟨fun a ha => ?_, ?_⟩, (h.disownArg hsp).1⟩
  · rcases List.mem_cons.mp ha with rfl | ha
    · have hf := h.stacked.formed _ List.mem_cons_self
      exact ⟨hf.base, Nat.le_sub_one_of_lt hsp, hf.nodup, hf.bounds⟩
    · exact h.stacked.formed a (List.mem_cons_of_mem _ ha)
  · exact List.pairwise_cons.mpr (List.pairwise_cons.mp h.stacked.above)

theorem Owned.dropArgs (h : vm.Owned E hosts L) (hn : n ≤ vm.sp - vm.sbase) :
    (dropArgs n vm).Owned E hosts L := by
  induction n generalizing vm with
  | zero => exact h
  | succ n ih =>
    have hsp : vm.sbase < vm.sp := by omega
    refine ih (h.dropArg hsp) ?_
    change n ≤ vm.sp - 1 - vm.sbase
    omega

theorem Owned.stackClear (h : vm.Owned E hosts L) : vm.stackClear.Owned E hosts L :=
  h.dropArgs (Nat.le_refl _)

/-- Objects in limbo have an owner, so that disowning does not unlink them. -/
theorem Owned.dropArgs_limbo (h : vm.Owned E hosts L) (hn : n ≤ vm.sp - vm.sbase) :
    (Vm.dropArgs n vm).store.limbo = vm.store.limbo := by
  induction n generalizing vm with
  | zero => rfl
  | succ n ih =>
    have hsp : vm.sbase < vm.sp := by omega
    have hlimbo := ih (h.dropArg hsp) (by change n ≤ vm.sp - 1 - vm.sbase; omega)
    refine hlimbo.trans (h.disownArg hsp).2

theorem Owned.stackClear_limbo (h : vm.Owned E hosts L) :
    vm.stackClear.store.limbo = vm.store.limbo :=
  h.dropArgs_limbo (Nat.le_refl _)

/-! ## Variables -/

/-- The current frame runs EEL code. -/
def InEel (E : Env) (vm : Vm) : Prop :=
  vm.base ≠ 0 ∧ (vm.callframe vm.base).isCFunc E.function = false

theorem InEel.not_inC (h : InEel E vm) : ¬ InC E.function vm.callframe vm.base := by
  rintro (h0 | hc)
  · exact h.1 h0
  · exact Bool.noConfusion (h.2.symm.trans hc)

theorem InEel.base_mem (h : InEel E vm) : vm.base ∈ vm.lists E hosts := by
  exact mem_lists.mpr ⟨List.mem_cons_self, .inr h.not_inC⟩

theorem InEel.vars (h : InEel E vm) : vm.vars E vm.base = (vm.cleantab vm.base).map (vm.base + ·) := by
  unfold Vm.vars
  rw [if_neg h.not_inC]

theorem owningBelow_congr (hbase : vm'.base = vm.base)
    (hf : ∀ b ≤ vm.base, vm'.callframe b = vm.callframe b)
    (hc : ∀ b < vm.base, vm'.cleantab b = vm.cleantab b) :
    vm'.owningBelow E = vm.owningBelow E := by
  unfold owningBelow
  rw [hbase, callers_congr hf]
  refine List.flatMap_congr fun x hx => ?_
  have hlt := lt_of_mem_callers hx
  exact Activation.owning_congr (hf _ (Nat.le_of_lt hlt)) (hc _ hlt)

/-- Another clean table for the current frame. -/
theorem Owned.cleantab {ctab : List Nat} (h : vm.Owned E hosts L) (hrun : InEel E vm)
    (hbase : vm'.base = vm.base) (hsbase : vm'.sbase = vm.sbase) (hsp : vm'.sp = vm.sp)
    (hframe : vm'.callframe = vm.callframe)
    (hctab : vm'.cleantab = Function.update vm.cleantab vm.base ctab)
    (hnodup : ctab.Nodup) (hb : ∀ r ∈ ctab, vm.base + r < vm.sbase)
    (hs : vm'.store.Tidy (vm.lists E hosts)
      (List.range' vm.sbase (vm.sp - vm.sbase) ++ (ctab.map (vm.base + ·) ++ vm.owningBelow E)) L') :
    vm'.Owned E hosts L' := by
  have hrun' : InEel E vm' := by
    unfold InEel
    rw [hbase, hframe]
    exact hrun
  have hvars : vm'.vars E vm.base = ctab.map (vm.base + ·) := by
    have hvars := hrun'.vars
    rw [hbase, hctab, Function.update_self] at hvars
    exact hvars
  have hother : ∀ b < vm.base, vm'.cleantab b = vm.cleantab b := fun b hb => by
    rw [hctab]
    exact Function.update_of_ne (Nat.ne_of_lt hb) ..
  have hframes : vm'.frames = vm.frames := by
    unfold frames
    rw [hbase, hsbase, hsp, hframe]
  refine ⟨⟨fun a ha => ?_, hframes ▸ h.stacked.above⟩, ?_⟩
  · rw [hframes] at ha
    have hf := h.stacked.formed a ha
    rcases List.mem_cons.mp ha with rfl | ha
    · refine ⟨hf.base, hf.sp, ?_, fun i hi => ?_⟩
      · rw [hvars]
        exact hnodup.map fun _ _ => Nat.add_left_cancel
      · rw [hvars] at hi
        obtain ⟨r, hr, rfl⟩ := List.mem_map.mp hi
        exact ⟨Nat.le_add_right _ _, hb r hr⟩
    · rw [vars_congr (congrFun hframe _) (hother _ (lt_of_mem_callers ha))]
      exact hf
  · rw [owning_eq, lists_congr hframes hframe, hsbase, hsp, hbase, hvars,
      owningBelow_congr hbase (fun _ _ => congrFun hframe _) hother]
    exact hs

/-- A register that holds a new value becomes a variable. -/
theorem Owned.addClean (h : vm.Owned E hosts L) (hrun : InEel E vm) (ha : vm.base + a ∉ vm.owning E)
    (hlt : vm.base + a < vm.sbase)
    (hs : s.Tidy (vm.lists E hosts) ((vm.base + a) :: vm.owning E) L') :
    (({ vm with store := s } : Vm).addClean a).Owned E hosts L' := by
  have hf := h.stacked.formed _ List.mem_cons_self
  have hvars := hrun.vars
  rw [owning_eq, hvars] at ha hs
  refine h.cleantab hrun rfl rfl rfl rfl rfl (List.nodup_cons.mpr ⟨fun hmem => ?_, ?_⟩)
    (List.forall_mem_cons.mpr ⟨hlt, fun r hr => ?_⟩) (hs.perm List.perm_middle)
  · exact ha (List.mem_append_right _ (List.mem_append_left _ (List.mem_map_of_mem hmem)))
  · exact List.Nodup.of_map _ (hvars ▸ hf.nodup)
  · exact (hf.bounds _ (hvars.symm ▸ List.mem_map_of_mem hr)).2

/-- Registers that are no variables any more are disowned. -/
theorem foldl_disown {B P : List Nat} {regs : List Nat}
    (h : s.Tidy B (regs.map (b + ·) ++ P) L) :
    (regs.foldl (fun s r => s.disown (s.heap (b + r))) s).Tidy B P L := by
  induction regs generalizing s with
  | nil => exact h
  | cons r regs ih => exact ih (h.disown_cons Store.anchored_empty).1

theorem Owned.clean (h : vm.Owned E hosts L) (hrun : InEel E vm) : (vm.clean n).Owned E hosts L := by
  have hf := h.stacked.formed _ List.mem_cons_self
  have hvars := hrun.vars
  have hnodup : (vm.cleantab vm.base).Nodup := List.Nodup.of_map _ (hvars ▸ hf.nodup)
  unfold Vm.clean
  dsimp only
  generalize (vm.cleantab vm.base).length - n = k
  refine h.cleantab hrun rfl rfl rfl rfl rfl (hnodup.sublist (List.drop_sublist _ _))
    (fun r hr => ?_) (foldl_disown ?_)
  · exact (hf.bounds _ (hvars.symm ▸ List.mem_map_of_mem (List.mem_of_mem_drop hr))).2
  · refine h.tidy.perm ?_
    rw [owning_eq, hvars]
    have hsplit : (vm.cleantab vm.base).map (vm.base + ·) =
        ((vm.cleantab vm.base).take k).map (vm.base + ·) ++
          ((vm.cleantab vm.base).drop k).map (vm.base + ·) := by
      rw [← List.map_append, List.take_append_drop]
    rw [hsplit, List.append_assoc]
    exact List.perm_append_comm_assoc ..

/-! ## Leaving a frame -/

/-- A limbo list is given up. -/
theorem dropLimbo_tidy {B P : List Nat} (h : s.Tidy B P L) (hn : (s.limbo b).length ≤ n) :
    (dropLimbo b n s).Tidy B P L ∧ (dropLimbo b n s).limbo b = [] := by
  induction n generalizing s with
  | zero => exact ⟨h, List.length_eq_zero_iff.mp (Nat.le_zero.mp hn)⟩
  | succ n ih =>
    unfold dropLimbo
    split
    · rename_i hnil
      exact ⟨h, hnil⟩
    · rename_i o os hcons
      have ho : (s.object o).limbo = some b := (h.linked.mem b o).mp (hcons ▸ List.mem_cons_self)
      have hunlink := h.limboUnlink ho
      obtain ⟨hex, hsh, -⟩ := hunlink.exact.disown (v := .objref o) Store.anchored_empty
      refine ih (hunlink.same hex hsh.sameLimbo) ?_
      rw [hsh.limbo, Store.limboUnlink_limbo ho, Function.update_self, hcons,
        List.erase_cons_head]
      rw [hcons] at hn
      exact Nat.le_of_succ_le_succ hn

theorem Owned.limboClean (h : vm.Owned E hosts L) :
    vm.limboClean.Owned E hosts L ∧ vm.limboClean.store.limbo vm.base = [] := by
  obtain ⟨htidy, hnil⟩ := dropLimbo_tidy h.tidy (Nat.le_refl _)
  exact ⟨h.store htidy, hnil⟩

theorem release_cleantab : vm.release.cleantab vm.base = [] := by
  unfold release Vm.clean limboClean
  simp only [Nat.sub_zero, Function.update_self]
  exact List.drop_length

theorem Owned.release (h : vm.Owned E hosts L) (hrun : InEel E vm) :
    vm.release.Owned E hosts L ∧ vm.release.store.limbo vm.base = [] := by
  obtain ⟨hown, hnil⟩ := (h.clean (n := 0) hrun).limboClean
  exact ⟨⟨⟨hown.stacked.formed, hown.stacked.above⟩, hown.tidy⟩, hnil⟩

/-- The state of the caller. -/
def returned (vm : Vm) : Vm :=
  let cf := vm.callframe vm.base
  { vm with base := cf.rBase, pc := cf.rPc, sbase := cf.rSbase, sp := cf.rSp }

/-- A frame that owns nothing any more is left. -/
theorem Owned.returned (h : vm.Owned E hosts L) (hrun : InEel E vm) (hsp : vm.sp = vm.sbase)
    (hctab : vm.cleantab vm.base = []) (hlimbo : vm.store.limbo vm.base = [])
    (hcaller : (vm.callframe vm.base).rBase < vm.base) : vm.returned.Owned E hosts L := by
  have hframes : vm.frames = ⟨vm.base, vm.sbase, vm.sp⟩ :: vm.returned.frames := by
    unfold frames
    rw [callers_eq, if_pos hcaller]
    rfl
  have howning : vm.owning E = vm.returned.owning E := by
    rw [owning_eq, hrun.vars, hctab, hsp, Nat.sub_self]
    unfold owningBelow
    rw [callers_eq, if_pos hcaller]
    rfl
  have htidy := h.tidy
  refine ⟨⟨fun a ha => ?_, ?_⟩, ?_⟩
  · exact h.stacked.formed a (hframes ▸ List.mem_cons_of_mem _ ha)
  · have habove := h.stacked.above
    rw [hframes] at habove
    exact (List.pairwise_cons.mp habove).2
  · rw [← howning]
    refine ⟨htidy.exact, htidy.linked, fun b hb => ?_⟩
    by_cases hbb : b = vm.base
    · rw [hbb]
      exact hlimbo
    · refine htidy.unused b fun hmem => hb ?_
      obtain ⟨hmem, hkeep⟩ := mem_lists.mp hmem
      rw [hframes, List.map_cons] at hmem
      exact mem_lists.mpr ⟨(List.mem_cons.mp hmem).resolve_left hbb, hkeep⟩

/-- `RETURN`, from a frame with an empty argument stack. -/
theorem Owned.popFrame (h : vm.Owned E hosts L) (hrun : InEel E vm) (hsp : vm.sp = vm.sbase)
    (hcaller : (vm.callframe vm.base).rBase < vm.base) : vm.popFrame.Owned E hosts L := by
  obtain ⟨hown, hnil⟩ := h.release hrun
  exact (@Owned.returned _ _ vm.release _ hown hrun hsp release_cleantab hnil hcaller).stackClear

/-! ## Entering a frame -/

variable {fo : ObjId}

theorem Owned.ordered (h : vm.Owned E hosts L) : vm.base ≤ vm.sbase ∧ vm.sbase ≤ vm.sp := by
  have hf := h.stacked.formed _ List.mem_cons_self
  exact ⟨hf.base, hf.sp⟩

theorem Owned.frames_le (h : vm.Owned E hosts L) (hx : x ∈ vm.frames) : x.sp ≤ vm.sp ∧ x.base ≤ vm.base := by
  rcases List.mem_cons.mp hx with rfl | hx
  · exact ⟨Nat.le_refl _, Nat.le_refl _⟩
  · have hsp := h.stacked.lt_base hx
    have hbase := lt_of_mem_callers hx
    have hord := h.ordered
    exact ⟨by omega, by omega⟩

/-- A new frame with the variables `new`. -/
theorem Owned.entered {new : List Nat} (h : vm.Owned E hosts L) (hp : Pushed vm vm')
    (hnew : vm'.vars E vm'.base = new)
    (hctab : ∀ b, b ≠ vm'.base → vm'.cleantab b = vm.cleantab b) (hsp : vm'.sp = vm'.sbase)
    (hnodup : new.Nodup) (hbounds : ∀ r ∈ new, vm'.base ≤ r ∧ r < vm'.sbase)
    (hs : vm'.store.Tidy (vm.lists E hosts) (new ++ vm.owning E) L) : vm'.Owned E hosts L := by
  have hord := h.ordered
  have hbase : vm.base < vm'.base := Nat.lt_of_le_of_lt (Nat.le_trans hord.1 hord.2) hp.above
  have hcallers : callers vm'.callframe vm'.base = vm.frames := by
    rw [callers_eq, hp.base, if_pos hbase, hp.sbase, hp.sp]
    unfold frames
    rw [callers_congr fun b hb => hp.frames b (Nat.ne_of_lt (Nat.lt_of_le_of_lt hb hbase))]
  have hne : ∀ a ∈ vm.frames, a.base ≠ vm'.base := fun a ha =>
    Nat.ne_of_lt (Nat.lt_of_le_of_lt (h.frames_le ha).2 hbase)
  have hframes : vm'.frames = ⟨vm'.base, vm'.sbase, vm'.sp⟩ :: vm.frames := by
    rw [← hcallers]
    rfl
  have howning : vm'.owning E = new ++ vm.owning E := by
    rw [owning_eq, hnew, hsp, Nat.sub_self]
    unfold owningBelow
    rw [hcallers]
    refine congrArg (new ++ ·) (List.flatMap_congr fun a ha => ?_)
    exact Activation.owning_congr (hp.frames _ (hne a ha)) (hctab _ (hne a ha))
  have hlists : vm.lists E hosts ⊆ vm'.lists E hosts := by
    intro b hb
    obtain ⟨hmem, hkeep⟩ := mem_lists.mp hb
    obtain ⟨a, ha, rfl⟩ := List.mem_map.mp hmem
    refine mem_lists.mpr ⟨?_, hkeep.imp id fun hkeep => ?_⟩
    · rw [hframes]
      exact List.mem_cons_of_mem _ hmem
    · unfold InC at hkeep ⊢
      rw [hp.frames _ (hne a ha)]
      exact hkeep
  refine ⟨⟨fun a ha => ?_, ?_⟩, ?_⟩
  · rw [hframes] at ha
    rcases List.mem_cons.mp ha with rfl | ha
    · rw [hnew]
      exact ⟨hp.ordered.base_le, hp.ordered.sbase_le, hnodup, hbounds⟩
    · rw [vars_congr (hp.frames _ (hne a ha)) (hctab _ (hne a ha))]
      exact h.stacked.formed a ha
  · rw [hframes]
    exact List.pairwise_cons.mpr
      ⟨fun a ha => Nat.lt_of_le_of_lt (h.frames_le ha).1 hp.above, h.stacked.above⟩
  · rw [howning]
    exact ⟨hs.exact, hs.linked, fun b hb => hs.unused b fun hmem => hb (hlists hmem)⟩

/-- The new frame of an EEL function owns nothing. -/
theorem Owned.enteredEel (h : vm.Owned E hosts L) (hp : Pushed vm vm') (hrun : InEel E vm')
    (hctab : vm'.cleantab = Function.update vm.cleantab vm'.base [])
    (hsp : vm'.sp = vm'.sbase) (hs : vm'.store = vm.store) : vm'.Owned E hosts L := by
  have hnew : vm'.vars E vm'.base = [] := by
    rw [hrun.vars, hctab, Function.update_self]
    rfl
  refine h.entered hp hnew (fun b hb => ?_) hsp List.nodup_nil (fun _ hr => nomatch hr) (hs ▸ h.tidy)
  rw [hctab]
  exact Function.update_of_ne hb ..

/-- The limbo list of a new frame is empty as it is. -/
theorem Owned.pushFrame_store (h : vm.Owned E hosts L) (cleansize framesize : Nat) :
    (vm.pushFrame cleansize framesize).store = vm.store := by
  have hunused : vm.store.limbo (vm.pushFrame cleansize framesize).base = [] := by
    refine h.tidy.unused _ fun hmem => ?_
    obtain ⟨a, ha, hb⟩ := List.mem_map.mp (mem_lists.mp hmem).1
    have hlt := (pushFrame_pushed vm cleansize framesize).above
    have hle := (h.frames_le ha).2
    have hord := h.ordered
    omega
  have hstore : (vm.pushFrame cleansize framesize).store = { vm.store with
      limbo := Function.update vm.store.limbo (vm.pushFrame cleansize framesize).base [] } := rfl
  rw [hstore, ← hunused, Function.update_eq_self]

theorem Owned.callEel (h : vm.Owned E hosts L) {result : Option Nat} {levels : Nat}
    (hfo : (E.function fo).cfunc = false) :
    (vm.callEel E.function fo result levels).Owned E hosts L ∧
      InEel E (vm.callEel E.function fo result levels) := by
  obtain ⟨hp, hf, -⟩ := callEel_pushed (F := E.function) vm fo result levels
  have hrun : InEel E (vm.callEel E.function fo result levels) := by
    refine ⟨Nat.ne_of_gt (Nat.lt_of_le_of_lt (Nat.zero_le _) hp.above), ?_⟩
    unfold Callframe.isCFunc
    rw [hf]
    exact hfo
  exact ⟨h.enteredEel hp hrun rfl rfl
    (h.pushFrame_store (E.function fo).cleansize (E.function fo).framesize), hrun⟩

theorem Owned.enterBlock (h : vm.Owned E hosts L) {block : Value} {catcher : Option ObjId} {untry : Bool}
    (hfo : (E.function (block.obj?.getD 0)).cfunc = false) :
    (vm.enterBlock E block catcher untry).Owned E hosts L ∧
      InEel E (vm.enterBlock E block catcher untry) := by
  obtain ⟨hp, hf, -⟩ := enterBlock_pushed E vm block catcher untry
  have hrun : InEel E (vm.enterBlock E block catcher untry) := by
    refine ⟨Nat.ne_of_gt (Nat.lt_of_le_of_lt (Nat.zero_le _) hp.above), ?_⟩
    unfold Callframe.isCFunc
    rw [hf]
    exact hfo
  exact ⟨h.enteredEel hp hrun rfl rfl (h.pushFrame_store (E.function (block.obj?.getD 0)).cleansize
    (E.function (block.obj?.getD 0)).framesize), hrun⟩

end Vm

end Eel
