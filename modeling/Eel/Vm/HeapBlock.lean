-- SUMMARY: The block of memory that holds the VM heap: how it grows and moves, and what points into it.
import Eel.Vm.Scopes

/-!
# The heap block

The other models refer to values on the heap by their index. Here the heap is in a
block of memory that `realloc` may move, and pointers into the block it was moved
from cannot be used.
-/

namespace Eel

/-- A pointer to a value: the block, and the index there. -/
structure Ptr where
  block : Int
  index : Nat
  deriving DecidableEq

/-- The VM with the memory for its heap, and `EEL_vmstate`. -/
structure Mem where
  vm : Vm
  /-- `heap`. -/
  block : Int
  /-- `heapsize`. -/
  size : Nat
  /-- The block that `lprev` of the first object in the limbo list of a frame points into. -/
  link : Nat → Int
  /-- The register frame. -/
  r : Ptr
  /-- The call frame, by its base. -/
  cf : Ptr

namespace Mem

/-! ## Growing -/

/-- `relocate_limbo` from `frame`, for at most `n` frames. -/
def relocateLimbo (vm : Vm) (offset : Int) : Nat → Nat → (Nat → Int) → Nat → Int
  | 0, _, link => link
  | n + 1, frame, link =>
    if frame = 0 then link
    else if (vm.callframe frame).f = none then link
    else
      relocateLimbo vm offset n (vm.callframe frame).rBase <|
        if vm.store.limbo frame = [] then link
        else Function.update link frame (link frame + offset)

/-- Where `realloc` puts the block of some memory when it is given a size. -/
abbrev Realloc := Mem → Nat → Int

variable (A : Realloc) (M : Mem)

/-- `set_heap`. -/
def setHeap (size : Nat) : Mem :=
  let block := A M size
  if block = M.block then { M with size := size }
  else
    { M with
      block := block
      size := size
      link := relocateLimbo M.vm (block - M.block) M.vm.base M.vm.base M.link }

/-- The loop of `grow_heap`, for at most `n` turns. -/
def doubled (minsize : Nat) : Nat → Nat → Nat
  | 0, size => size
  | n + 1, size => if size < minsize then doubled minsize n (2 * size) else size

/-- `grow_heap`. -/
def growHeap (minsize : Nat) : Mem :=
  if minsize ≤ M.size then M else M.setHeap A (doubled minsize minsize M.size)

/-- `reload_context`. -/
def reloadContext : Mem := { M with r := ⟨M.block, M.vm.base⟩, cf := ⟨M.block, M.vm.base⟩ }

/-- `CHECK_STACK`. -/
def checkStack (n : Nat) : Mem :=
  let M' := M.growHeap A (M.vm.sp + n)
  if M'.block = M.block then M' else M'.reloadContext

/-! ## Pointers -/

/-- `vm->heap + i`. -/
def heapPtr (i : Nat) : Ptr := ⟨M.block, i⟩

/-- What a pointer points to, if it does not point into a block that is gone. -/
def read (p : Ptr) : Option Value :=
  if p.block = M.block then some (M.vm.store.heap p.index) else none

/-- `R[a]`. -/
def reg (a : Nat) : Option Value := M.read ⟨M.r.block, M.r.index + a⟩

/-- `*CALLFRAME`. -/
def frame : Option Callframe :=
  if M.cf.block = M.block then some (M.vm.callframe M.cf.index) else none

/-- The pointers of the VM loop are those to the current frame. -/
structure Cached : Prop where
  r : M.r = ⟨M.block, M.vm.base⟩
  cf : M.cf = ⟨M.block, M.vm.base⟩

/-- Frames are where calls put them, and the limbo lists that are not empty belong to frames
on the stack and are linked to them. -/
structure Sound : Prop where
  framed : M.vm.Scoped (fun _ => none) fun _ => False
  called : ∀ b, Encloses M.vm.callframe M.vm.base b → b ≠ 0 → (M.vm.callframe b).f ≠ none
  linked : ∀ b, M.vm.store.limbo b ≠ [] →
    Encloses M.vm.callframe M.vm.base b ∧ b ≠ 0 ∧ M.link b = M.block
  size_pos : 0 < M.size

variable {A M} {n b i min : Nat}

/-! ## What growing does -/

theorem relocateLimbo_of_lt {vm : Vm} {offset : Int} {link : Nat → Int} {t : Nat}
    (h : AllLinked (fun _ => none) (fun _ => False) vm.callframe t) (hb : t < b) :
    relocateLimbo vm offset n t link b = link b := by
  induction n generalizing t link with
  | zero => rfl
  | succ n ih =>
    rw [relocateLimbo]
    split
    · rfl
    · split
      · rfl
      · rw [ih h.caller (Nat.lt_of_le_of_lt (h _ .here).rBase_le hb)]
        split
        · rfl
        · exact Function.update_of_ne (Nat.ne_of_gt hb) ..

/-- Every limbo list of a frame on the stack is relocated once. -/
theorem relocateLimbo_of_encloses {vm : Vm} {offset : Int} {link : Nat → Int} {t : Nat}
    (h : AllLinked (fun _ => none) (fun _ => False) vm.callframe t)
    (hf : ∀ b, Encloses vm.callframe t b → b ≠ 0 → (vm.callframe b).f ≠ none)
    (ht : Encloses vm.callframe t b) (hb : b ≠ 0) (hn : t ≤ n) (hlimbo : vm.store.limbo b ≠ []) :
    relocateLimbo vm offset n t link b = link b + offset := by
  induction n generalizing t link with
  | zero =>
    cases Nat.le_zero.mp hn
    exact absurd (Nat.le_zero.mp (h.le ht)) hb
  | succ n ih =>
    rw [relocateLimbo]
    have hpos : t ≠ 0 := fun h0 => hb (Nat.le_zero.mp (h0 ▸ h.le ht))
    have hlt : (vm.callframe t).rBase < t := by
      have hlinked := h _ .here
      rcases hlinked.sp_lt with ⟨h0, -⟩ | hlt
      · exact absurd h0 hpos
      · exact Nat.lt_of_le_of_lt (Nat.le_trans hlinked.base_le hlinked.sbase_le) hlt
    rw [if_neg hpos, if_neg (hf t .here hpos)]
    cases ht with
    | here =>
      rw [relocateLimbo_of_lt h.caller hlt, if_neg hlimbo]
      exact Function.update_self ..
    | outer _ ht =>
      rw [ih h.caller (fun b hb => hf b ((h _ .here).encloses hb)) ht
        (Nat.le_of_lt_succ (Nat.lt_of_lt_of_le hlt hn))]
      split
      · rfl
      · rw [Function.update_of_ne (Nat.ne_of_lt (Nat.lt_of_le_of_lt (h.caller.le ht) hlt))]

@[simp] theorem setHeap_vm : (M.setHeap A n).vm = M.vm := by
  unfold setHeap
  dsimp only
  split <;> rfl

@[simp] theorem growHeap_vm : (M.growHeap A min).vm = M.vm := by
  unfold growHeap
  split
  · rfl
  · exact setHeap_vm

@[simp] theorem checkStack_vm : (M.checkStack A n).vm = M.vm := by
  unfold checkStack
  dsimp only
  split <;> exact growHeap_vm

theorem le_doubled {size : Nat} : size ≤ doubled min n size := by
  induction n generalizing size with
  | zero => exact Nat.le_refl _
  | succ n ih =>
    rw [doubled]
    split
    · exact Nat.le_trans (Nat.le_mul_of_pos_left size (by decide)) ih
    · exact Nat.le_refl _

theorem lt_doubled {size : Nat} (hpos : 0 < size) (hn : min ≤ size + n) : min ≤ doubled min n size := by
  induction n generalizing size with
  | zero => exact hn
  | succ n ih =>
    rw [doubled]
    split
    · exact ih (by omega) (by omega)
    · omega

/-- There is room for what the heap has grown for. -/
theorem le_growHeap_size (hpos : 0 < M.size) : min ≤ (M.growHeap A min).size := by
  unfold growHeap
  split
  · assumption
  · have hle := @lt_doubled min min M.size hpos (by omega)
    unfold setHeap
    dsimp only
    split <;> exact hle

theorem Sound.growHeap (h : M.Sound) : (M.growHeap A min).Sound := by
  unfold Mem.growHeap
  split
  · exact h
  · have hpos : 0 < doubled min min M.size := Nat.lt_of_lt_of_le h.size_pos le_doubled
    unfold Mem.setHeap
    dsimp only
    split
    · exact ⟨h.framed, h.called, h.linked, hpos⟩
    · refine ⟨h.framed, h.called, fun b hb => ?_, hpos⟩
      obtain ⟨henc, hne, hlink⟩ := h.linked b hb
      refine ⟨henc, hne, ?_⟩
      dsimp only
      rw [relocateLimbo_of_encloses h.framed.linked h.called henc hne (Nat.le_refl _) hb, hlink]
      omega

theorem Sound.checkStack (h : M.Sound) : (M.checkStack A n).Sound := by
  have hgrow : (M.growHeap A (M.vm.sp + n)).Sound := h.growHeap
  unfold Mem.checkStack
  dsimp only
  split
  · exact hgrow
  · exact ⟨hgrow.framed, hgrow.called, hgrow.linked, hgrow.size_pos⟩

theorem cached_reloadContext : M.reloadContext.Cached := ⟨rfl, rfl⟩

/-- Cached pointers are reloaded when the heap moves. -/
theorem Cached.checkStack (h : M.Cached) : (M.checkStack A n).Cached := by
  unfold Mem.checkStack
  dsimp only
  split
  · rename_i hblock
    have hsame : ∀ {M' : Mem}, M'.r = M.r → M'.cf = M.cf → M'.vm = M.vm → M'.block = M.block →
        M'.Cached := by
      intro M' hr hcf hvm hb
      exact ⟨by rw [hr, hb, hvm]; exact h.r, by rw [hcf, hb, hvm]; exact h.cf⟩
    refine hsame ?_ ?_ growHeap_vm hblock <;>
    · unfold Mem.growHeap Mem.setHeap
      dsimp only
      split
      · rfl
      · split <;> rfl
  · exact cached_reloadContext

theorem Cached.reg (h : M.Cached) {a : Nat} : M.reg a = some (M.vm.register a) := by
  unfold Mem.reg read
  rw [h.r, if_pos rfl]
  rfl

theorem Cached.frame (h : M.Cached) : M.frame = some (M.vm.callframe M.vm.base) := by
  unfold Mem.frame
  rw [h.cf, if_pos rfl]

theorem read_heapPtr : M.read (M.heapPtr i) = some (M.vm.store.heap i) := if_pos rfl

end Mem

end Eel
