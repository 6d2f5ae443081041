-- SUMMARY: Deleting ranges of items from arrays, vectors and dynamic strings.
import Eel.Core.Buffer

/-!
# Deletion

The operands of `delete` are a first index and a count, which one function makes a range
of. Each class then moves what is behind the range, in its own way.
-/

namespace Eel

/-! ## Ranges -/

/-- The end index of a range from `i0` on, of one item if there is no count. -/
def lastIndex (X : Indexing) (i0 : BitVec 32) : Option Value → Except Xno (BitVec 32)
  | none => .ok i0
  | some (.boolean v) | some (.integer v) | some (.classid v) => .ok (i0 + v - 1)
  | some (.real bits) => .ok (X.last i0 bits)
  | some _ => .error Xno.wrongType

/-- The checks of `eel_get_delete_range`. -/
def checkRange (length i0 i1 : Int) : Except Xno (Int × Int) :=
  if i0 < 0 then .error Xno.lowIndex
  else if i1 < i0 then .error Xno.wrongIndex
  else if length < i1 then .error Xno.highIndex
  else .ok (i0, i1)

/-- `eel_get_delete_range`. -/
def getDeleteRange (X : Indexing) (op1 op2 : Option Value) (length : Int) : Except Xno (Int × Int) :=
  match op1 with
  | none => .ok (0, length - 1)
  | some op1 =>
    match op1.index X with
    | .error x => .error x
    | .ok i0 =>
      match lastIndex X i0 op2 with
      | .error x => .error x
      | .ok i1 => checkRange length i0.toInt i1.toInt

/-! ## The classes -/

/-- What happens around an array. -/
structure Surroundings where
  /-- The objects that die when the item at an index is disowned. -/
  dead : Int → List ObjId
  /-- Whether what is in a value that is not a reference is the address that is looked for. -/
  stale : Int → Bool

namespace Surroundings

variable (E : Surroundings)

/-- `values[i].objref.v == op1->objref.v`. -/
def sameAddress (o : ObjId) (i : Int) (v : Value) : Bool :=
  match v.obj? with
  | some o' => o' = o
  | none => E.stale i

/-- The loop of `a_delete` that looks for an object, among `n` items from `i` on. -/
def find (o : ObjId) (cells : Block Value) (i : Int) : Nat → Option (Option Int)
  | 0 => some none
  | n + 1 =>
    (cells.load i).bind fun v => if E.sameAddress o i v then some (some i) else find o cells (i + 1) n

/-- `eel_v_disown_nz` of `n` items from `i` on. -/
def disown (cells : Block Value) (i : Int) : Nat → Option (Block Value)
  | 0 => some cells
  | n + 1 =>
    (cells.load i).bind fun _ => disown (cells.map (Option.map (Value.killAll (E.dead i)))) (i + 1) n

/-- What a value becomes when `n` items from `i` on are disowned. -/
def after (i : Int) : Nat → Value → Value
  | 0, v => v
  | n + 1, v => after (i + 1) n (v.killAll (E.dead i))

end Surroundings

namespace Buffer

variable (M : Memory) (X : Indexing) (E : Surroundings)

/-- The range that `a_delete` deletes. -/
def aRange (op1 op2 : Option Value) (b : Buffer Value) : Option (Except Xno (Int × Int)) :=
  match op1.bind Value.obj? with
  | some o =>
    (E.find o b.cells 0 b.length.toNat).map fun
      | some i => .ok (i, i)
      | none => .error Xno.wrongIndex
  | none => some (getDeleteRange X op1 op2 b.length)

/-- What `a_delete` does with a range. A failure to shrink the block is ignored. -/
def aDeleteRange (i0 i1 : Int) (b : Buffer Value) : Option (Xno × Buffer Value) :=
  (E.disown b.cells i0 (i1 - i0 + 1).toNat).bind fun cells =>
  (cells.copyUp i0 (i1 + 1) (b.length - i1 - 1).toNat).bind fun cells =>
  let length := b.length - (i1 - i0 + 1)
  (aSetsize M ⟨length, b.maxlength, cells⟩ length).map fun r => (Xno.ok, r.2)

/-- `a_delete`. -/
def aDelete (op1 op2 : Option Value) (b : Buffer Value) : Option (Xno × Buffer Value) :=
  (b.aRange X E op1 op2).bind fun
    | .error x => some (x, b)
    | .ok (i0, i1) => b.aDeleteRange M E i0 i1

/-- `v_delete`. -/
def vDelete (cls : VectorClass) (op1 op2 : Option Value) (b : Buffer Item) : Option (Xno × Buffer Item) :=
  match getDeleteRange X op1 op2 b.length with
  | .error x => some (x, b)
  | .ok (i0, i1) =>
    (b.cells.move i0 (i1 + 1) (b.length - i1 - 1)).bind fun cells =>
    let length := b.length - (i1 - i0 + 1)
    (vSetsize M cls ⟨length, b.maxlength, cells⟩ length).map fun r => (Xno.ok, r.2)

/-- `ds_delete`, which moves the terminator as well. -/
def dsDelete (op1 op2 : Option Value) (b : Buffer Byte) : Option (Xno × Buffer Byte) :=
  match getDeleteRange X op1 op2 b.length with
  | .error x => some (x, b)
  | .ok (i0, i1) =>
    (b.cells.move i0 (i1 + 1) (b.length - i1)).bind fun cells =>
    let length := b.length - (i1 - i0 + 1)
    (dsSetsize M ⟨length, b.maxlength, cells⟩ (length + 1)).map fun r => (Xno.ok, r.2)

end Buffer

/-! ## What deletion is to do -/

/-- An error leaves the object as it is. A range is inside it, and its items are removed:
the others are `kept`, in their order. -/
def DeletesRange {α : Type} (Is : List α → Buffer α → Prop) (kept : Int → Int → α → α) (items : List α) (b : Buffer α)
    (result : Option (Xno × Buffer α)) : Except Xno (Int × Int) → Prop
  | .error x => x ≠ Xno.ok ∧ result = some (x, b)
  | .ok (i0, i1) =>
    (0 ≤ i0 ∧ i0 ≤ i1 + 1 ∧ i1 < items.length) ∧
      ∃ b', result = some (Xno.ok, b') ∧
        Is ((items.take i0.toNat ++ items.drop (i1 + 1).toNat).map (kept i0 i1)) b' ∧
        b'.length = items.length - (i1 - i0 + 1)

/-- The range ends just behind the last item. -/
def EndsBehind (length : Nat) (range : Except Xno (Int × Int)) : Prop := ∃ i0, range = .ok (i0, length)

/-! ## Ranges that are reported -/

section Ranges

variable {X : Indexing} {op1 op2 : Option Value} {length i0 i1 : Int} {x : Xno}

theorem lastIndex_error {i : BitVec 32} (h : lastIndex X i op2 = .error x) : x = Xno.wrongType := by
  rcases op2 with _ | v
  · cases h
  · cases v <;> cases h <;> rfl

theorem checkRange_error (h : checkRange length i0 i1 = .error x) :
    x = Xno.lowIndex ∨ x = Xno.wrongIndex ∨ x = Xno.highIndex := by
  unfold checkRange at h
  split at h
  · exact .inl (Except.error.inj h).symm
  · split at h
    · exact .inr (.inl (Except.error.inj h).symm)
    · split at h
      · exact .inr (.inr (Except.error.inj h).symm)
      · cases h

theorem checkRange_ok {j0 j1 : Int} (h : checkRange length j0 j1 = .ok (i0, i1)) :
    0 ≤ i0 ∧ i0 ≤ i1 ∧ i1 ≤ length := by
  unfold checkRange at h
  split at h
  · cases h
  · split at h
    · cases h
    · split at h
      · cases h
      · obtain ⟨rfl, rfl⟩ := Prod.mk.inj (Except.ok.inj h)
        omega

theorem getDeleteRange_error (h : getDeleteRange X op1 op2 length = .error x) : x ≠ Xno.ok := by
  have hcases : x = Xno.wrongType ∨ x = Xno.lowIndex ∨ x = Xno.wrongIndex ∨ x = Xno.highIndex := by
    unfold getDeleteRange at h
    split at h
    · cases h
    · split at h
      · rename_i y hindex
        obtain rfl := Except.error.inj h
        exact .inl (Value.index_error hindex)
      · split at h
        · rename_i y hlast
          obtain rfl := Except.error.inj h
          exact .inl (lastIndex_error hlast)
        · exact .inr (checkRange_error h)
  rcases hcases with rfl | rfl | rfl | rfl <;> decide

/-- What `eel_get_delete_range` does check. -/
theorem getDeleteRange_ok (h : getDeleteRange X op1 op2 length = .ok (i0, i1)) (hlen : 0 ≤ length) :
    0 ≤ i0 ∧ i0 ≤ i1 + 1 ∧ i1 ≤ length := by
  unfold getDeleteRange at h
  split at h
  · obtain ⟨rfl, rfl⟩ := Prod.mk.inj (Except.ok.inj h)
    omega
  · split at h
    · cases h
    · split at h
      · cases h
      · obtain ⟨hlow, hle, hhigh⟩ := checkRange_ok h
        omega

end Ranges

/-! ## What the classes do with a range -/

/-- The items before, in and behind a range. -/
theorem take_slice_drop {α : Type} (l : List α) {a c : Nat} (h : a ≤ c) :
    l.take a ++ (l.drop a).take (c - a) ++ l.drop c = l := by
  have hdrop : l.drop c = (l.drop a).drop (c - a) := by
    rw [List.drop_drop, Nat.add_sub_cancel' h]
  rw [List.append_assoc, hdrop, List.take_append_drop, List.take_append_drop]

section Arrays

variable {E : Surroundings} {cells : Block Value} {items : List Value} {i : Int}

/-- The first item with an address is found. -/
theorem Surroundings.find_spec {o : ObjId} {n : Nat} (h : items.map some <+: cells) (hi : 0 ≤ i)
    (hn : i + n ≤ items.length) :
    ∃ r, E.find o cells i n = some r ∧
      (∀ j, r = some j → i ≤ j ∧ j < i + n ∧ ∃ v, items[j.toNat]? = some v ∧ E.sameAddress o j v) ∧
      ∀ k v, i ≤ k → k < r.getD (i + n) → items[k.toNat]? = some v → E.sameAddress o k v = false := by
  induction n generalizing i with
  | zero =>
    refine ⟨none, rfl, nofun, fun k v hk hlt => ?_⟩
    rw [Option.getD_none] at hlt
    omega
  | succ n ih =>
    have hlt : i.toNat < items.length := by
      omega
    show ∃ r, (cells.load i).bind _ = some r ∧ _
    rw [Block.load_item h hlt (Int.toNat_of_nonneg hi).symm, Option.bind_some]
    cases hsame : E.sameAddress o i items[i.toNat] with
    | true =>
      rw [if_pos rfl]
      refine ⟨some i, rfl, fun j hj => ?_, fun k v hk hlt => ?_⟩
      · obtain rfl := Option.some.inj hj
        exact ⟨le_refl _, by omega, _, List.getElem?_eq_getElem hlt, hsame⟩
      · rw [Option.getD_some] at hlt
        omega
    | false =>
      rw [if_neg Bool.false_ne_true]
      obtain ⟨r, hr, hfound, hbefore⟩ := ih (i := i + 1) (by omega) (by omega)
      refine ⟨r, hr, fun j hj => ?_, fun k v hk hlt' hv => ?_⟩
      · obtain ⟨hle, hjlt, hv⟩ := hfound j hj
        exact ⟨by omega, by omega, hv⟩
      · rcases eq_or_lt_of_le hk with rfl | hk
        · rw [List.getElem?_eq_getElem hlt] at hv
          rw [← Option.some.inj hv]
          exact hsame
        · refine hbefore k v (by omega) ?_ hv
          rw [show i + 1 + (n : Int) = i + (n + 1 : Nat) by omega]
          exact hlt'

/-- Disowning items takes effect on all that refer weakly to what dies. -/
theorem Surroundings.disown_spec {n : Nat} (h : items.map some <+: cells) (hi : 0 ≤ i) (hn : i + n ≤ items.length) :
    ∃ cells', E.disown cells i n = some cells' ∧ (items.map (E.after i n)).map some <+: cells' ∧
      cells'.length = cells.length := by
  induction n generalizing cells items i with
  | zero =>
    refine ⟨cells, rfl, ?_, rfl⟩
    rw [show E.after i 0 = id from rfl, List.map_id]
    exact h
  | succ n ih =>
    have hlt : i.toNat < items.length := by
      omega
    have hload := Block.load_item h hlt (Int.toNat_of_nonneg hi).symm
    have hmap : (items.map (Value.killAll (E.dead i))).map some <+:
        cells.map (Option.map (Value.killAll (E.dead i))) := by
      have hpre := h.map (Option.map (Value.killAll (E.dead i)))
      rw [List.map_map] at hpre
      rw [List.map_map]
      exact hpre
    have hnext : i + 1 + n ≤ (items.map (Value.killAll (E.dead i))).length := by
      rw [List.length_map]
      omega
    obtain ⟨cells', hcells, hpre, hlen⟩ := ih hmap (i := i + 1) (by omega) hnext
    refine ⟨cells', ?_, ?_, hlen.trans (List.length_map _)⟩
    · show (cells.load i).bind _ = _
      rw [hload]
      exact hcells
    · have hmaps : (items.map (Value.killAll (E.dead i))).map (E.after (i + 1) n) = items.map (E.after i (n + 1)) :=
        List.map_map
      rw [hmaps] at hpre
      exact hpre

end Arrays

namespace Buffer

variable {M : Memory} {X : Indexing} {E : Surroundings} {op1 op2 : Option Value} {i0 i1 : Int}

theorem length_left {α : Type} {items : List α} (h0 : 0 ≤ i0) (hle : i0 ≤ i1 + 1) (hlt : i1 < items.length) :
    ((items.take i0.toNat ++ items.drop (i1 + 1).toNat).length : Int) = items.length - (i1 - i0 + 1) := by
  rw [List.length_append, List.length_take_of_le (by omega), List.length_drop]
  omega

/-- The cells before, in and behind a range. -/
theorem cells_split {α : Type} {items T : List α} {cells : Block α} (h : (items ++ T).map some <+: cells)
    (h0 : 0 ≤ i0) (hle : i0 ≤ i1 + 1) (hlt : i1 < items.length) :
    ∃ A D C : List α, A = items.take i0.toNat ∧ C = items.drop (i1 + 1).toNat ∧
      i0 = A.length ∧ i1 + 1 = A.length + D.length ∧ items.length - i1 - 1 = C.length ∧
      A.map some ++ D.map some ++ (C ++ T).map some <+: cells := by
  have hac : i0.toNat ≤ (i1 + 1).toNat := by
    omega
  have hA : (items.take i0.toNat).length = i0.toNat := List.length_take_of_le (by omega)
  have hD : ((items.drop i0.toNat).take ((i1 + 1).toNat - i0.toNat)).length = (i1 + 1).toNat - i0.toNat :=
    List.length_take_of_le (by rw [List.length_drop]; omega)
  refine ⟨_, (items.drop i0.toNat).take ((i1 + 1).toNat - i0.toNat), _, rfl, rfl, ?_, ?_, ?_, ?_⟩
  · omega
  · omega
  · rw [List.length_drop]
    omega
  · rw [← List.map_append, ← List.map_append, ← List.append_assoc, take_slice_drop items hac]
    exact h

/-- A range is removed by moving what is behind it, with `T`. -/
theorem Keeps.delete {α : Type} {S : Sizing} {items T : List α} {b : Buffer α} (hb : b.Keeps S (items ++ T))
    (h0 : 0 ≤ i0) (hle : i0 ≤ i1 + 1) (hlt : i1 < items.length) {n : Int}
    (hn : n = items.length - i1 - 1 + T.length) (length : Int) :
    ∃ cells, b.cells.move i0 (i1 + 1) n = some cells ∧
      Keeps S (items.take i0.toNat ++ items.drop (i1 + 1).toNat ++ T) ⟨length, b.maxlength, cells⟩ := by
  obtain ⟨A, D, C, hA, hC, hAl, hDl, hCl, hsplit⟩ := cells_split hb.stored h0 hle hlt
  have hn' : n = ((C ++ T).map some).length := by
    rw [List.length_map, List.length_append]
    omega
  obtain ⟨cells, hmove, hpre, hlen⟩ := Block.move_delete hsplit (d := i0) (s := i1 + 1)
    (by rw [List.length_map]; exact hAl) (by rw [List.length_map, List.length_map]; exact hDl) hn'
  rw [← List.map_append, ← List.append_assoc, hA, hC] at hpre
  exact ⟨cells, hmove, hb.replace hlen hpre⟩

/-- `v_delete`, of a range inside the vector. -/
theorem IsVector.delete {cls : VectorClass} {items : List Item} {b : Buffer Item} (hb : b.IsVector cls items)
    (h : getDeleteRange X op1 op2 b.length = .ok (i0, i1)) (h0 : 0 ≤ i0) (hle : i0 ≤ i1 + 1)
    (hlt : i1 < items.length) :
    ∃ b', b.vDelete M X cls op1 op2 = some (Xno.ok, b') ∧
      b'.IsVector cls (items.take i0.toNat ++ items.drop (i1 + 1).toNat) := by
  have hkeeps₀ : b.Keeps cls.sizing (items ++ []) := by
    rw [List.append_nil]
    exact hb.keeps
  obtain ⟨cells, hmove, hkeeps⟩ := hkeeps₀.delete h0 hle hlt (n := b.length - i1 - 1)
    (by rw [hb.length_eq, List.length_nil, Nat.cast_zero, add_zero]) (b.length - (i1 - i0 + 1))
  rw [List.append_nil] at hkeeps
  have hleft := length_left h0 hle hlt
  rw [← hb.length_eq] at hleft
  obtain ⟨r, b', hset, hkeeps', hlen⟩ := setsize_shrink (M := M) hkeeps hleft.le
    (hleft ▸ Int.ofNat_le.mpr hkeeps.length_le)
  refine ⟨b', ?_, hlen.trans hleft.symm, hkeeps'⟩
  unfold vDelete
  rw [h]
  dsimp only
  rw [hmove, Option.bind_some, vSetsize, hset]
  rfl

/-- `ds_delete`, of a range inside the dynamic string. -/
theorem IsDstring.delete {items : List Byte} {b : Buffer Byte} (hb : b.IsDstring items)
    (h : getDeleteRange X op1 op2 b.length = .ok (i0, i1)) (h0 : 0 ≤ i0) (hle : i0 ≤ i1 + 1)
    (hlt : i1 < items.length) :
    ∃ b', b.dsDelete M X op1 op2 = some (Xno.ok, b') ∧
      b'.IsDstring (items.take i0.toNat ++ items.drop (i1 + 1).toNat) := by
  obtain ⟨cells, hmove, hkeeps⟩ := hb.keeps.delete h0 hle hlt (n := b.length - i1)
    (by rw [hb.length_eq, List.length_singleton]; omega) (b.length - (i1 - i0 + 1))
  have hleft := length_left h0 hle hlt
  rw [← hb.length_eq] at hleft
  have hsize : ((items.take i0.toNat ++ items.drop (i1 + 1).toNat ++ [0]).length : Int) =
      b.length - (i1 - i0 + 1) + 1 := by
    rw [List.length_append, List.length_singleton, Nat.cast_add, hleft]
    rfl
  obtain ⟨r, b', hset, hkeeps', hlen⟩ := setsize_shrink (M := M) hkeeps hsize.le
    (hsize ▸ Int.ofNat_le.mpr hkeeps.length_le)
  refine ⟨b', ?_, hlen.trans hleft.symm, hkeeps'⟩
  unfold dsDelete
  rw [h]
  dsimp only
  rw [hmove, Option.bind_some, dsSetsize, hset]
  rfl

/-- `a_delete`, of a range inside the array. -/
theorem IsArray.delete {items : List Value} {b : Buffer Value} (hb : b.IsArray items) (h0 : 0 ≤ i0)
    (hle : i0 ≤ i1 + 1) (hlt : i1 < items.length) :
    ∃ b', b.aDeleteRange M E i0 i1 = some (Xno.ok, b') ∧
      b'.IsArray ((items.take i0.toNat ++ items.drop (i1 + 1).toNat).map (E.after i0 (i1 - i0 + 1).toNat)) := by
  obtain ⟨cells, hdisown, hpre, hlen⟩ := Surroundings.disown_spec (E := E) (n := (i1 - i0 + 1).toNat)
    hb.keeps.stored h0 (by omega)
  obtain ⟨f, hf⟩ : ∃ f, E.after i0 (i1 - i0 + 1).toNat = f := ⟨_, rfl⟩
  rw [hf] at hpre ⊢
  have hmaplen : ((items.map f).length : Int) = items.length := by
    rw [List.length_map]
  rw [← List.append_nil (items.map f)] at hpre
  obtain ⟨A, D, C, hA, hC, hAl, hDl, hCl, hsplit⟩ := cells_split hpre h0 hle (hmaplen ▸ hlt)
  rw [List.append_nil] at hsplit
  obtain ⟨cells', hcopy, hpre', hlen'⟩ := Block.copyUp_delete hsplit (d := i0) (s := i1 + 1)
    (by rw [List.length_map]; exact hAl) (by rw [List.length_map, List.length_map]; exact hDl)
  rw [← List.map_append] at hpre'
  have hleft := length_left h0 hle hlt
  rw [← hb.length_eq] at hleft
  have hitems : A ++ C = (items.take i0.toNat ++ items.drop (i1 + 1).toNat).map f := by
    rw [List.map_append, List.map_take, List.map_drop, hA, hC]
  rw [hitems] at hpre'
  have hkeeps : Keeps arraySizing ((items.take i0.toNat ++ items.drop (i1 + 1).toNat).map f)
      ⟨b.length - (i1 - i0 + 1), b.maxlength, cells'⟩ := hb.keeps.replace (hlen'.trans hlen) hpre'
  rw [← List.length_map (f := f)] at hleft
  obtain ⟨r, b', hset, hkeeps', hlen''⟩ := aSetsize_shrink (M := M) hkeeps hleft.le
    (hleft ▸ Int.ofNat_le.mpr hkeeps.length_le)
  refine ⟨b', ?_, hlen''.trans hleft.symm, hkeeps'⟩
  unfold aDeleteRange
  have hn : (b.length - i1 - 1).toNat = C.length := by
    rw [hb.length_eq, ← hmaplen]
    omega
  rw [hdisown, Option.bind_some, hn, hcopy, Option.bind_some]
  dsimp only
  rw [hset]
  rfl

/-- The range of an array that an object's address is looked for in is one item. -/
theorem IsArray.aRange_ok {items : List Value} {b : Buffer Value} (hb : b.IsArray items) :
    ∃ range, b.aRange X E op1 op2 = some range ∧ (∀ x, range = .error x → x ≠ Xno.ok) ∧
      ∀ i0 i1, range = .ok (i0, i1) → 0 ≤ i0 ∧ i0 ≤ i1 + 1 ∧ i1 ≤ items.length := by
  unfold aRange
  split
  · obtain ⟨r, hr, hfound, -⟩ := Surroundings.find_spec (E := E) (n := b.length.toNat) hb.keeps.stored (le_refl 0)
      (by rw [hb.length_eq]; omega)
    rw [hr, Option.map_some]
    cases r with
    | none =>
      refine ⟨_, rfl, fun x hx => ?_, nofun⟩
      obtain rfl := Except.error.inj hx
      decide
    | some j =>
      refine ⟨_, rfl, nofun, fun i0 i1 hi => ?_⟩
      obtain ⟨rfl, rfl⟩ := Prod.mk.inj (Except.ok.inj hi)
      obtain ⟨hle, hlt, -⟩ := hfound j rfl
      rw [hb.length_eq] at hlt
      omega
  · refine ⟨_, rfl, fun x => getDeleteRange_error, fun i0 i1 h => ?_⟩
    have hlen := hb.length_eq
    have := getDeleteRange_ok h (by omega)
    omega

end Buffer

/-! ## Deletion -/

section Deletion

variable {α : Type} {Is : List α → Buffer α → Prop} {kept : Int → Int → α → α} {items : List α} {b : Buffer α}
  {result : Option (Xno × Buffer α)} {range : Except Xno (Int × Int)}

/-- Only ranges that end behind the last item are wrong. -/
theorem deletesRange_iff (herror : ∀ x, range = .error x → x ≠ Xno.ok ∧ result = some (x, b))
    (hrange : ∀ i0 i1, range = .ok (i0, i1) → 0 ≤ i0 ∧ i0 ≤ i1 + 1 ∧ i1 ≤ items.length)
    (hresult : ∀ i0 i1, range = .ok (i0, i1) → i1 < items.length → ∃ b', result = some (Xno.ok, b') ∧
      Is ((items.take i0.toNat ++ items.drop (i1 + 1).toNat).map (kept i0 i1)) b' ∧
      b'.length = items.length - (i1 - i0 + 1)) :
    DeletesRange Is kept items b result range ↔ ¬ EndsBehind items.length range := by
  cases range with
  | error x => exact iff_of_true (herror x rfl) nofun
  | ok r =>
    obtain ⟨i0, i1⟩ := r
    obtain ⟨h0, hle, hhigh⟩ := hrange i0 i1 rfl
    constructor
    · rintro ⟨⟨-, -, hlt⟩, -⟩ ⟨j0, hj⟩
      obtain ⟨-, rfl⟩ := Prod.mk.inj (Except.ok.inj hj)
      exact absurd hlt (lt_irrefl _)
    · intro hnot
      have hlt : i1 < items.length := by
        refine lt_of_le_of_ne hhigh fun heq => hnot ⟨i0, ?_⟩
        rw [heq]
      exact ⟨⟨h0, hle, hlt⟩, hresult i0 i1 rfl hlt⟩

end Deletion

namespace Buffer

variable {M : Memory} {X : Indexing} {E : Surroundings} {op1 op2 : Option Value}

theorem IsArray.delete_iff {items : List Value} {b : Buffer Value} (hb : b.IsArray items) :
    ∃ range, b.aRange X E op1 op2 = some range ∧
      (DeletesRange IsArray (fun i0 i1 => E.after i0 (i1 - i0 + 1).toNat) items b (b.aDelete M X E op1 op2) range ↔
        ¬ EndsBehind items.length range) := by
  obtain ⟨range, hrange, herror, hok⟩ : ∃ range, b.aRange X E op1 op2 = some range ∧ _ := hb.aRange_ok
  refine ⟨range, hrange, deletesRange_iff (fun x hx => ⟨herror x hx, ?_⟩) hok fun i0 i1 h hlt => ?_⟩
  · unfold aDelete
    rw [hrange, hx]
    rfl
  · obtain ⟨h0, hle, -⟩ := hok i0 i1 h
    obtain ⟨b', hdel, hb'⟩ := hb.delete (M := M) (E := E) h0 hle hlt
    refine ⟨b', ?_, hb', ?_⟩
    · unfold aDelete
      rw [hrange, h]
      exact hdel
    · rw [hb'.length_eq, List.length_map]
      exact length_left h0 hle hlt

theorem IsVector.delete_iff {cls : VectorClass} {items : List Item} {b : Buffer Item} (hb : b.IsVector cls items) :
    DeletesRange (IsVector cls) (fun _ _ => id) items b (b.vDelete M X cls op1 op2)
        (getDeleteRange X op1 op2 b.length) ↔
      ¬ EndsBehind items.length (getDeleteRange X op1 op2 b.length) := by
  have hlen := hb.length_eq
  refine deletesRange_iff (fun x hx => ⟨getDeleteRange_error hx, ?_⟩) (fun i0 i1 h => ?_) fun i0 i1 h hlt => ?_
  · unfold vDelete
    rw [hx]
  · exact hlen ▸ getDeleteRange_ok h (by omega)
  · obtain ⟨h0, hle, -⟩ := getDeleteRange_ok h (by omega)
    obtain ⟨b', hdel, hb'⟩ := hb.delete (M := M) h h0 hle hlt
    refine ⟨b', hdel, ?_, ?_⟩
    · rw [List.map_id]
      exact hb'
    · rw [hb'.length_eq]
      exact length_left h0 hle hlt

theorem IsDstring.delete_iff {items : List Byte} {b : Buffer Byte} (hb : b.IsDstring items) :
    DeletesRange IsDstring (fun _ _ => id) items b (b.dsDelete M X op1 op2) (getDeleteRange X op1 op2 b.length) ↔
      ¬ EndsBehind items.length (getDeleteRange X op1 op2 b.length) := by
  have hlen := hb.length_eq
  refine deletesRange_iff (fun x hx => ⟨getDeleteRange_error hx, ?_⟩) (fun i0 i1 h => ?_) fun i0 i1 h hlt => ?_
  · unfold dsDelete
    rw [hx]
  · exact hlen ▸ getDeleteRange_ok h (by omega)
  · obtain ⟨h0, hle, -⟩ := getDeleteRange_ok h (by omega)
    obtain ⟨b', hdel, hb'⟩ := hb.delete (M := M) h h0 hle hlt
    refine ⟨b', hdel, ?_, ?_⟩
    · rw [List.map_id]
      exact hb'
    · rw [hb'.length_eq]
      exact length_left h0 hle hlt

end Buffer

end Eel
