-- SUMMARY: Blocks of memory as lists of cells, the accesses of C to them, and what they do to the items at the start.
import Mathlib.Data.List.Basic
import Mathlib.Data.List.Induction
import Mathlib.Data.Option.Basic
import Mathlib.Order.Basic

/-!
# Blocks of memory

A cell that was never written has no value. An access that leaves the block, or that reads
such a cell, has no result.

What a block is used for is in its first cells: `items` are in `b` when their cells are a
prefix of it, and what is behind them does not matter.
-/

/-- A block of cells. -/
abbrev Block (α : Type) := List (Option α)

namespace Block

variable {α : Type}

def load (b : Block α) (i : Int) : Option α := if 0 ≤ i then b[i.toNat]?.join else none

/-- Puts cells at `start`, and keeps the others. -/
def write (b : Block α) (start : Int) (cells : List (Option α)) : Option (Block α) :=
  if 0 ≤ start ∧ start + cells.length ≤ b.length then
    some (b.take start.toNat ++ cells ++ b.drop (start.toNat + cells.length))
  else none

def store (b : Block α) (i : Int) (a : α) : Option (Block α) := b.write i [some a]

/-- `memset`. -/
def fill (b : Block α) (start n : Int) (a : α) : Option (Block α) :=
  if 0 ≤ n then b.write start (List.replicate n.toNat (some a)) else none

/-- Clears what is between the first `length` cells and `i`. -/
def clearTo (b : Block α) (length i : Int) (pad : α) : Option (Block α) :=
  if length < i then b.fill length (i - length) pad else some b

/-- The `n` cells from `start` on. -/
def slice (b : Block α) (start n : Int) : Option (List (Option α)) :=
  if 0 ≤ n ∧ 0 ≤ start ∧ start + n ≤ b.length then some ((b.drop start.toNat).take n.toNat) else none

/-- `memmove` within a block. -/
def move (b : Block α) (dst src n : Int) : Option (Block α) := (b.slice src n).bind (b.write dst)

/-- `memcpy` within a block, of cells that do not overlap. -/
def copy (b : Block α) (dst src n : Int) : Option (Block α) :=
  if n = 0 then some b else if dst + n ≤ src ∨ src + n ≤ dst then b.move dst src n else none

/-- What `realloc` makes of a block: the cells that are added have no values yet. -/
def resize (b : Block α) (n : Nat) : Block α := b.take n ++ List.replicate (n - b.length) none

/-- Copies one cell that has a value. -/
def copyCell (b : Block α) (dst src : Int) : Option (Block α) := (b.load src).bind (b.store dst)

/-- What has a value behind the first `n` cells had it before. -/
def KeepsBehind (n : Nat) (b b' : Block α) : Prop := ∀ k a, n ≤ k → b'[k]? = some (some a) → b[k]? = some (some a)

/-- Copies cell by cell, upwards. -/
def copyUp (b : Block α) (dst src : Int) : Nat → Option (Block α)
  | 0 => some b
  | n + 1 => (b.copyCell dst src).bind fun b => copyUp b (dst + 1) (src + 1) n

/-- Reads `n` cells that have values, from `i` on. -/
def read (b : Block α) (i : Int) : Nat → Option (List α)
  | 0 => some []
  | n + 1 => (b.load i).bind fun a => (read b (i + 1) n).map (a :: ·)

/-- Moves the `n` cells from `i` on by one place, the last one first. -/
def shift (b : Block α) (i : Int) : Nat → Option (Block α)
  | 0 => some b
  | n + 1 => (b.copyCell (i + n + 1) (i + n)).bind fun b => shift b i n

/-! ## Accesses to what is at the start -/

variable {b : Block α} {A M C T : List (Option α)} {i start n : Int}

@[simp] theorem length_resize {k : Nat} : (b.resize k).length = k := by
  unfold resize
  rw [List.length_append, List.length_take, List.length_replicate]
  omega

/-- Resizing keeps what fits. -/
theorem prefix_resize {k : Nat} (h : A <+: b) (hk : A.length ≤ k) : A <+: b.resize k := by
  obtain ⟨T, rfl⟩ := h
  unfold resize
  rw [List.take_append, List.take_of_length_le hk, List.append_assoc]
  exact List.prefix_append ..

/-- There are cells behind the items when the block is larger. -/
theorem room (h : A <+: b) {k : Nat} (hk : A.length + k ≤ b.length) : ∃ M, M.length = k ∧ A ++ M <+: b := by
  obtain ⟨T, rfl⟩ := h
  rw [List.length_append] at hk
  refine ⟨T.take k, List.length_take_of_le (by omega), ?_⟩
  rw [List.prefix_append_right_inj]
  exact List.take_prefix ..

/-- Cells are replaced by as many others. -/
theorem write_start (h : A ++ M ++ C <+: b) (hstart : start = A.length) {cells : List (Option α)}
    (hlen : cells.length = M.length) :
    ∃ b', b.write start cells = some b' ∧ A ++ cells ++ C <+: b' ∧ b'.length = b.length := by
  obtain ⟨T, rfl⟩ := h
  subst hstart
  have hbound : 0 ≤ (A.length : Int) ∧ (A.length : Int) + cells.length ≤ (A ++ M ++ C ++ T).length := by
    simp only [List.length_append]
    omega
  have htake : (A ++ M ++ C ++ T).take A.length = A := by
    rw [List.append_assoc, List.append_assoc]
    exact List.take_left
  have hdrop : (A ++ M ++ C ++ T).drop (A.length + cells.length) = C ++ T := by
    rw [hlen, ← List.length_append, List.append_assoc _ C]
    exact List.drop_left
  unfold write
  rw [if_pos hbound, Int.toNat_natCast, htake, hdrop]
  refine ⟨_, rfl, ?_, ?_⟩
  · rw [← List.append_assoc]
    exact List.prefix_append ..
  · simp only [List.length_append, hlen]
    omega

theorem write_none {cells : List (Option α)} (h : b.length < start + cells.length) : b.write start cells = none := by
  unfold write
  exact if_neg fun hb => by have := hb.2; omega

/-- An item is replaced. -/
theorem store_start {items : List α} (h : items.map some <+: b) {k : Nat} (hk : k < items.length) (hi : i = k)
    (a : α) : ∃ b', b.store i a = some b' ∧ (items.set k a).map some <+: b' ∧ b'.length = b.length := by
  have hsplit : (items.take k).map some ++ [some items[k]] ++ (items.drop (k + 1)).map some = items.map some := by
    rw [← List.map_singleton, ← List.map_append, ← List.map_append, List.take_append_getElem,
      List.take_append_drop]
  rw [← hsplit] at h
  have hstart : i = ((items.take k).map some).length := by
    rw [List.length_map, List.length_take_of_le (Nat.le_of_lt hk)]
    exact hi
  have hone : [some a].length = [some items[k]].length := rfl
  obtain ⟨b', hb', hpre, hlen⟩ := write_start h hstart hone
  refine ⟨b', hb', ?_, hlen⟩
  rw [List.set_eq_take_append_cons_drop, if_pos hk, List.map_append, List.map_cons, ← List.singleton_append,
    ← List.append_assoc]
  exact hpre

/-- Some items are replaced. -/
theorem write_items {items l : List α} (h : items.map some <+: b) {k : Nat} (hk : k + l.length ≤ items.length)
    (hi : i = k) :
    ∃ b', b.write i (l.map some) = some b' ∧
      (items.take k ++ l ++ items.drop (k + l.length)).map some <+: b' ∧ b'.length = b.length := by
  have hsplit : (items.take k).map some ++ ((items.drop k).take l.length).map some ++
      (items.drop (k + l.length)).map some = items.map some := by
    rw [← List.map_append, ← List.map_append, ← List.take_add, List.take_append_drop]
  rw [← hsplit] at h
  have hstart : i = ((items.take k).map some).length := by
    rw [List.length_map, List.length_take_of_le (by omega)]
    exact hi
  have hlen : (l.map some).length = (((items.drop k).take l.length).map some).length := by
    rw [List.length_map, List.length_map, List.length_take_of_le (by rw [List.length_drop]; omega)]
  obtain ⟨b', hb', hpre, hblen⟩ := write_start h hstart hlen
  refine ⟨b', hb', ?_, hblen⟩
  rw [List.map_append, List.map_append]
  exact hpre

/-- An item is put behind the others. -/
theorem push_start {items : List α} (h : items.map some <+: b) (hlt : items.length < b.length)
    (hi : i = items.length) (a : α) :
    ∃ b', b.store i a = some b' ∧ (items ++ [a]).map some <+: b' ∧ b'.length = b.length := by
  obtain ⟨M, hM, hroom⟩ := room h (k := 1) (by rw [List.length_map]; exact hlt)
  rw [← List.append_nil (_ ++ M)] at hroom
  rw [← List.length_map (f := some)] at hi
  have hone : [some a].length = M.length := hM.symm
  obtain ⟨b', hb', hpre, hlen⟩ := write_start hroom hi hone
  refine ⟨b', hb', ?_, hlen⟩
  rw [List.append_nil] at hpre
  rw [List.map_append]
  exact hpre

/-- Items are put behind the others, and one more behind them. -/
theorem append_start {items l : List α} (h : items.map some <+: b) (hroom : items.length + l.length < b.length)
    (hstart : start = items.length) (hi : i = start + l.length) (a : α) :
    ∃ b₁ b₂, b.write start (l.map some) = some b₁ ∧ b₁.store i a = some b₂ ∧
      (items ++ l ++ [a]).map some <+: b₂ ∧ b₂.length = b.length := by
  obtain ⟨M, hM, hcells⟩ := room h (k := l.length) (by rw [List.length_map]; omega)
  rw [← List.append_nil (_ ++ M)] at hcells
  have hlen : (l.map some).length = M.length := by
    rw [List.length_map, hM]
  rw [← List.length_map (f := some)] at hstart
  obtain ⟨b₁, hb₁, hpre₁, hlen₁⟩ := write_start hcells hstart hlen
  rw [List.append_nil, ← List.map_append] at hpre₁
  rw [List.length_map] at hstart
  have hend : i = (items ++ l).length := by
    rw [hi, hstart, List.length_append, Int.natCast_add]
  obtain ⟨b₂, hb₂, hpre₂, hlen₂⟩ := push_start hpre₁ (by rw [List.length_append, hlen₁]; exact hroom) hend a
  exact ⟨b₁, b₂, hb₁, hb₂, hpre₂, hlen₂.trans hlen₁⟩

/-- What is put further behind does not matter to the items. -/
theorem store_behind {items : List α} (h : items.map some <+: b) {k : Nat} (hle : items.length ≤ k)
    (hlt : k < b.length) (hi : i = k) (a : α) :
    ∃ b', b.store i a = some b' ∧ items.map some <+: b' ∧ b'.length = b.length := by
  have htake : (b.take k).length = k := List.length_take_of_le (Nat.le_of_lt hlt)
  have hitems : items.map some <+: b.take k := by
    refine List.prefix_of_prefix_length_le h (List.take_prefix ..) ?_
    rw [List.length_map, htake]
    exact hle
  obtain ⟨M, hM, hroom⟩ := room (List.take_prefix k b) (k := 1) (by rw [htake]; exact hlt)
  rw [← List.append_nil (_ ++ M)] at hroom
  have hone : [some a].length = M.length := hM.symm
  have hstart : i = (b.take k).length := by
    rw [htake]
    exact hi
  obtain ⟨b', hb', hpre, hlen⟩ := write_start hroom hstart hone
  rw [List.append_nil] at hpre
  exact ⟨b', hb', hitems.trans ((List.prefix_append ..).trans hpre), hlen⟩

theorem store_none {a : α} (h : (b.length : Int) ≤ i) : b.store i a = none := by
  refine write_none ?_
  rw [List.length_singleton]
  omega

/-- Cells behind the items are filled. -/
theorem fill_start {items : List α} (h : items.map some <+: b) {k : Nat} (hk : items.length + k ≤ b.length)
    (hstart : start = items.length) (hn : n = k) (a : α) :
    ∃ b', b.fill start n a = some b' ∧ (items ++ List.replicate k a).map some <+: b' ∧ b'.length = b.length := by
  obtain ⟨M, hM, hroom⟩ := room h (k := k) (by rw [List.length_map]; exact hk)
  rw [← List.append_nil (_ ++ M)] at hroom
  have hlen : (List.replicate k (some a)).length = M.length := by
    rw [List.length_replicate, hM]
  rw [← List.length_map (f := some)] at hstart
  obtain ⟨b', hb', hpre, hblen⟩ := write_start hroom hstart hlen
  refine ⟨b', ?_, ?_, hblen⟩
  · unfold fill
    subst hn
    rw [if_pos (by omega), Int.toNat_natCast]
    exact hb'
  · rw [List.append_nil] at hpre
    rw [List.map_append, List.map_replicate]
    exact hpre

theorem length_fill {a : α} {b' : Block α} (h : b.fill start n a = some b') : b'.length = b.length := by
  unfold fill write at h
  split at h
  · split at h
    · rename_i hb
      rw [← Option.some.inj h]
      simp only [List.length_append, List.length_take, List.length_drop]
      omega
    · cases h
  · cases h

theorem length_clearTo {a : α} {l : Int} {b' : Block α} (h : b.clearTo l i a = some b') : b'.length = b.length := by
  unfold clearTo at h
  split at h
  · exact length_fill h
  · rw [Option.some.inj h]

theorem clearTo_start {items : List α} (h : items.map some <+: b) {k : Nat} (hk : k ≤ b.length)
    (hle : items.length ≤ k) (hi : i = k) {l : Int} (hl : l = items.length) (a : α) :
    ∃ b', b.clearTo l i a = some b' ∧ (items ++ List.replicate (k - items.length) a).map some <+: b' ∧
      b'.length = b.length := by
  unfold clearTo
  by_cases hlt : l < i
  · rw [if_pos hlt]
    exact fill_start h (by omega) hl (by omega) a
  · rw [if_neg hlt, Nat.sub_eq_zero_of_le (by omega)]
    refine ⟨b, rfl, ?_, rfl⟩
    rw [List.replicate_zero, List.append_nil]
    exact h

theorem write_nil {k : Nat} (h : k ≤ b.length) : b.write k [] = some b := by
  have hbound : 0 ≤ (k : Int) ∧ (k : Int) + ([] : List (Option α)).length ≤ b.length := by
    rw [List.length_nil]
    omega
  unfold write
  rw [if_pos hbound, List.append_nil, List.length_nil, Nat.add_zero, List.take_append_drop]

theorem slice_start (h : A ++ M <+: b) (hstart : start = A.length) (hn : n = M.length) :
    b.slice start n = some M := by
  obtain ⟨T, rfl⟩ := h
  subst hstart hn
  unfold slice
  rw [if_pos (by simp only [List.length_append]; omega), Int.toNat_natCast, Int.toNat_natCast, List.append_assoc,
    List.drop_left, List.take_left]

theorem move_neg {dst src : Int} (h : ¬ 0 ≤ n) : b.move dst src n = none := by
  unfold move slice
  rw [if_neg fun hn => h hn.1]
  rfl

theorem load_start {a : α} (h : A ++ [some a] <+: b) (hi : i = A.length) : b.load i = some a := by
  obtain ⟨T, rfl⟩ := h
  subst hi
  unfold load
  rw [if_pos (by omega), Int.toNat_natCast, List.append_assoc, List.getElem?_append_right (Nat.le_refl _), Nat.sub_self]
  rfl

theorem load_item {items : List α} (h : items.map some <+: b) {k : Nat} (hk : k < items.length) (hi : i = k) :
    b.load i = some items[k] := by
  refine load_start (A := (items.take k).map some) ?_ ?_
  · refine List.IsPrefix.trans ?_ h
    rw [← List.map_singleton, ← List.map_append, List.take_append_getElem]
    exact (List.take_prefix ..).map some
  · rw [List.length_map, List.length_take_of_le (Nat.le_of_lt hk)]
    exact hi

theorem read_items {items : List α} (h : items.map some <+: b) {k n : Nat} (hk : k + n ≤ items.length) (hi : i = k) :
    b.read i n = some ((items.drop k).take n) := by
  induction n generalizing k i with
  | zero => rfl
  | succ n ih =>
    have hlt : k < items.length := by
      omega
    show (b.load i).bind _ = _
    rw [load_item h hlt hi, Option.bind_some, ih (k := k + 1) (by omega) (by omega), List.drop_eq_getElem_cons hlt]
    rfl

theorem read_all {items : List α} (h : items.map some <+: b) : b.read 0 items.length = some items := by
  have hread : b.read ((0 : Nat) : Int) items.length = _ := read_items h (k := 0) (by omega) rfl
  rw [List.drop_zero, List.take_length] at hread
  exact hread

theorem copyCell_start {a : α} {d s : Int} {B : List (Option α)} (hsrc : B ++ [some a] <+: b)
    (hB : s = B.length) (h : A ++ M ++ C <+: b) (hA : d = A.length) (hM : M.length = 1) :
    ∃ b', b.copyCell d s = some b' ∧ A ++ [some a] ++ C <+: b' ∧ b'.length = b.length := by
  unfold copyCell
  rw [load_start hsrc hB]
  exact write_start h hA hM.symm

/-! ## Deletion and insertion -/

/-- Cells are removed by moving what is behind them. -/
theorem move_delete (h : A ++ M ++ C <+: b) {d s : Int} (hdst : d = A.length)
    (hsrc : s = A.length + M.length) (hn : n = C.length) :
    ∃ b', b.move d s n = some b' ∧ A ++ C <+: b' ∧ b'.length = b.length := by
  have hslice : b.slice s n = some C := by
    refine slice_start h ?_ hn
    rw [List.length_append]
    exact hsrc
  -- as many cells as are moved, behind the first ones
  have hcells : A ++ (M ++ C).take C.length ++ (M ++ C).drop C.length = A ++ M ++ C := by
    rw [List.append_assoc, List.take_append_drop, List.append_assoc]
  rw [← hcells] at h
  have hlen : C.length = ((M ++ C).take C.length).length := by
    rw [List.length_take_of_le]
    rw [List.length_append]
    omega
  obtain ⟨b', hb', hpre, hblen⟩ := write_start h hdst hlen
  refine ⟨b', ?_, (List.prefix_append ..).trans hpre, hblen⟩
  unfold move
  rw [hslice]
  exact hb'

/-- Room is made by moving what is behind it; what is in it then does not matter. -/
theorem move_insert (h : A ++ C <+: b) {k : Nat} (hk : A.length + C.length + k ≤ b.length) {d s : Int}
    (hdst : d = A.length + k) (hsrc : s = A.length) (hn : n = C.length) :
    ∃ b' M, b.move d s n = some b' ∧ M.length = k ∧ A ++ M ++ C <+: b' ∧ b'.length = b.length := by
  obtain ⟨R, hR, hroom⟩ := room h (by rw [List.length_append]; exact hk)
  have hcells : A ++ (C ++ R).take k ++ (C ++ R).drop k ++ [] = A ++ C ++ R := by
    rw [List.append_nil, List.append_assoc, List.take_append_drop, List.append_assoc]
  rw [← hcells] at hroom
  have hM : ((C ++ R).take k).length = k := by
    rw [List.length_take_of_le]
    rw [List.length_append]
    omega
  have hlen : C.length = ((C ++ R).drop k).length := by
    rw [List.length_drop, List.length_append]
    omega
  have hstart : d = (A ++ (C ++ R).take k).length := by
    rw [List.length_append, hM]
    exact hdst
  obtain ⟨b', hb', hpre, hblen⟩ := write_start hroom hstart hlen
  rw [List.append_nil] at hpre
  refine ⟨b', (C ++ R).take k, ?_, hM, hpre, hblen⟩
  unfold move
  rw [slice_start h hsrc hn]
  exact hb'

/-- Copying upwards removes what is between, which may be nothing. -/
theorem copyUp_delete {A D : List (Option α)} {C : List α} {d s : Int} (h : A ++ D ++ C.map some <+: b)
    (hdst : d = A.length) (hsrc : s = A.length + D.length) :
    ∃ b', b.copyUp d s C.length = some b' ∧ A ++ C.map some <+: b' ∧ b'.length = b.length := by
  induction C generalizing A D b d s with
  | nil =>
    refine ⟨b, rfl, ?_, rfl⟩
    rw [List.map_nil, List.append_nil] at h ⊢
    exact (List.prefix_append ..).trans h
  | cons c C ih =>
    rw [List.map_cons] at h
    have hload : A ++ D ++ [some c] <+: b := by
      refine List.IsPrefix.trans ?_ h
      rw [← List.singleton_append (l := C.map some), ← List.append_assoc]
      exact List.prefix_append ..
    -- the first cell that is replaced, and the others with the copied one
    obtain ⟨m, D', hm, hD'⟩ : ∃ m D', D ++ [some c] = m :: D' ∧ D'.length = D.length := by
      cases D with
      | nil => exact ⟨some c, [], rfl, rfl⟩
      | cons m D => exact ⟨m, D ++ [some c], rfl, by simp⟩
    have hcells : A ++ [m] ++ (D' ++ C.map some) = A ++ D ++ some c :: C.map some := by
      rw [List.append_assoc, List.singleton_append, ← List.cons_append, ← hm]
      simp
    rw [← hcells] at h
    have hsrc₀ : s = (A ++ D).length := by
      rw [List.length_append]
      exact hsrc
    have hdst₁ : d + 1 = (A ++ [some c]).length := by
      rw [List.length_append, hdst]
      rfl
    have hsrc₁ : s + 1 = (A ++ [some c]).length + D'.length := by
      rw [← hdst₁, hsrc, hdst, hD']
      omega
    obtain ⟨b₁, hb₁, hpre, hlen₁⟩ := copyCell_start hload hsrc₀ h hdst rfl
    rw [← List.append_assoc] at hpre
    obtain ⟨b', hb', hpre', hlen'⟩ := ih hpre hdst₁ hsrc₁
    refine ⟨b', ?_, ?_, hlen'.trans hlen₁⟩
    · show (b.copyCell d s).bind _ = _
      rw [hb₁]
      exact hb'
    · rw [List.append_assoc] at hpre'
      exact hpre'

/-- Shifting makes room for one cell. -/
theorem shift_insert {A T : List (Option α)} {C : List α} {m : Option α} (h : A ++ C.map some ++ [m] ++ T <+: b)
    (hi : i = A.length) :
    ∃ b' m', b.shift i C.length = some b' ∧ A ++ [m'] ++ C.map some ++ T <+: b' ∧ b'.length = b.length := by
  induction C using List.reverseRecOn generalizing m T b with
  | nil =>
    refine ⟨b, m, rfl, ?_, rfl⟩
    simpa using h
  | append_singleton C c ih =>
    rw [List.map_append] at h
    have hload : A ++ C.map some ++ [some c] <+: b := by
      refine List.IsPrefix.trans ?_ h
      simp [List.append_assoc]
    have hsrc : i + C.length = (A ++ C.map some).length := by
      rw [List.length_append, List.length_map, hi]
      rfl
    have hdst : i + C.length + 1 = (A ++ (C.map some ++ [c].map some)).length := by
      rw [← List.append_assoc, List.length_append, Int.natCast_add, ← hsrc]
      rfl
    obtain ⟨b₁, hb₁, hpre, hlen₁⟩ := copyCell_start hload hsrc h hdst rfl
    have hpre₁ : A ++ C.map some ++ [some c] ++ ([some c] ++ T) <+: b₁ := by
      simpa [List.append_assoc] using hpre
    obtain ⟨b', m', hb', hpre', hlen'⟩ := ih hpre₁
    refine ⟨b', m', ?_, ?_, hlen'.trans hlen₁⟩
    · rw [List.length_append]
      show (b.copyCell (i + C.length + 1) (i + C.length)).bind _ = _
      rw [hb₁]
      exact hb'
    · simpa [List.append_assoc] using hpre'

/-! ## Cells that are not written -/

namespace KeepsBehind

variable {b' b'' : Block α} {k m : Nat}

theorem refl (b : Block α) : KeepsBehind k b b := fun _ _ _ h => h

theorem trans (h : KeepsBehind k b b') (h' : KeepsBehind k b' b'') : KeepsBehind k b b'' :=
  fun j a hj hja => h j a hj (h' j a hj hja)

theorem mono (h : KeepsBehind k b b') (hle : k ≤ m) : KeepsBehind m b b' := fun j a hj => h j a (Nat.le_trans hle hj)

theorem resize : KeepsBehind k b (b.resize m) := by
  intro j a _ h
  unfold Block.resize at h
  by_cases hlt : j < (b.take m).length
  · rw [List.getElem?_append_left hlt, List.getElem?_take] at h
    split at h
    · exact h
    · cases h
  · rw [List.getElem?_append_right (Nat.not_lt.mp hlt), List.getElem?_replicate] at h
    split at h
    · cases h
    · cases h

theorem write {cells : List (Option α)} (h : b.write start cells = some b') (hk : start + cells.length ≤ k) :
    KeepsBehind k b b' := by
  unfold Block.write at h
  split at h
  · rename_i hbound
    obtain rfl := Option.some.inj h
    intro j a hj hja
    have hlen : (b.take start.toNat ++ cells).length = start.toNat + cells.length := by
      rw [List.length_append, List.length_take_of_le (by omega)]
    rw [List.getElem?_append_right (by rw [hlen]; omega), hlen, List.getElem?_drop] at hja
    rw [← hja]
    congr 1
    omega
  · cases h

theorem store {a : α} (h : b.store i a = some b') (hk : i + 1 ≤ k) : KeepsBehind k b b' := write h hk

theorem move {d s : Int} (h : b.move d s n = some b') (hk : d + n ≤ k) : KeepsBehind k b b' := by
  unfold Block.move at h
  obtain ⟨cells, hslice, hwrite⟩ := Option.bind_eq_some_iff.mp h
  refine write hwrite ?_
  unfold slice at hslice
  split at hslice
  · obtain rfl := Option.some.inj hslice
    rw [List.length_take]
    omega
  · cases hslice

theorem shift {l : Nat} (h : b.shift i l = some b') (hk : i + l + 1 ≤ k) : KeepsBehind k b b' := by
  induction l generalizing b with
  | zero => exact Option.some.inj h ▸ refl b
  | succ l ih =>
    obtain ⟨b₁, hcopy, hshift⟩ := Option.bind_eq_some_iff.mp h
    obtain ⟨a, -, hstore⟩ := Option.bind_eq_some_iff.mp hcopy
    exact (store hstore (by omega)).trans (ih hshift (by omega))

end KeepsBehind

end Block
