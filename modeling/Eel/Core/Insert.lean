-- SUMMARY: Insertion into arrays, vectors and dynamic strings.
import Eel.Core.SetIndex
import Eel.Core.StringIn

/-!
# Insertion

Each class makes room for what is inserted, moves what is behind the index, and writes.
None of them checks that the index is not behind the last item.
-/

namespace Eel

/-- What `ds_insert` inserts. -/
inductive Piece where
  | chars (s : List Byte)
  /-- The dynamic string itself. -/
  | self

namespace Piece

/-- The characters of an operand: those of a string, or the one that a value is. -/
def ofValue (X : Indexing) (text : ObjId → Option Text) (eo : ObjId) (op2 : Value) : Piece :=
  match op2.obj?.bind fun o => (text o).map fun t => (o, t) with
  | some (_, .string buffer) => chars buffer
  | some (o, .dstring buffer) => if o = eo then self else chars buffer
  | none => chars [op2.byte X]

/-- `s2len`, for a dynamic string of this length. -/
def s2len (length : Int) : Piece → Int
  | chars s => s.length
  | self => length

/-- The characters, for a dynamic string with these. -/
def of (items : List Byte) : Piece → List Byte
  | chars s => s
  | self => items

end Piece

namespace Buffer

variable (M : Memory) (X : Indexing) (C : Conversions)

/-! ## The classes -/

/-- What `a_insert` does at an index. -/
def aInsertAt (i : Int) (op2 : Value) (b : Buffer Value) : Option (Xno × Buffer Value) :=
  (CInt.check (b.length + 1)).bind fun length =>
  (b.aSetsize M length).bind fun r =>
  if r.1 < 0 then some (Xno.memory, r.2)
  else
    (r.2.cells.shift i (b.length - i).toNat).bind fun cells =>
    (cells.store i op2.copy).map fun cells => (Xno.ok, ⟨length, r.2.maxlength, cells⟩)

/-- `a_insert`. -/
def aInsert (op1 op2 : Value) (b : Buffer Value) : Option (Xno × Buffer Value) :=
  match op1.index X with
  | .error x => some (x, b)
  | .ok i => if i.toInt < 0 then some (Xno.lowIndex, b) else b.aInsertAt M i.toInt op2

/-- What `v_insert` does at an index. When there is no memory, the exception code is what
`v_setsize` returned. -/
def vInsertAt (cls : VectorClass) (i : Int) (op2 : Value) (b : Buffer Item) : Option (Xno × Buffer Item) :=
  (CInt.check (b.length + 1)).bind fun length =>
  (b.vSetsize M cls length).bind fun r =>
  if r.1 ≠ 0 then some (BitVec.ofInt 32 r.1, r.2)
  else
    (r.2.cells.move (i + 1) i (length - i - 1)).bind fun cells =>
    match cls.convert C op2 with
    | .error x => some (x, ⟨length, r.2.maxlength, cells⟩)
    | .ok item => (cells.store i item).map fun cells => (Xno.ok, ⟨length, r.2.maxlength, cells⟩)

/-- `v_insert`. -/
def vInsert (cls : VectorClass) (op1 op2 : Value) (b : Buffer Item) : Option (Xno × Buffer Item) :=
  match op1.index X with
  | .error x => some (x, b)
  | .ok i => if i.toInt < 0 then some (Xno.lowIndex, b) else b.vInsertAt M C cls i.toInt op2

/-- Whether the block is at another place after `ds_setsize`. -/
def moved (b b' : Buffer Byte) : Bool := b'.maxlength ≠ b.maxlength && M.moves b'.maxlength

/-- The `memcpy` of `ds_insert`. What it inserts of the string itself it looks for where the
block was at first. -/
def writePiece (i s2len : Int) (p : Piece) (moved : Bool) (cells : Block Byte) : Option (Block Byte) :=
  match p with
  | .chars s => cells.write i (s.map some)
  | .self => if moved then if s2len = 0 then some cells else none else cells.copy i 0 s2len

/-- What `ds_insert` does at an index. -/
def dsInsertAt (i : Int) (p : Piece) (b : Buffer Byte) : Option (Xno × Buffer Byte) :=
  let s2len := p.s2len b.length
  (CInt.check (b.length + s2len + i + 1)).bind fun size =>
  (b.dsSetsize M size).bind fun r =>
  if r.1 < 0 then some (Xno.memory, r.2)
  else
    (if i ≤ b.length then r.2.cells.move (i + s2len) i (b.length - i + 1) else some r.2.cells).bind fun cells =>
    (writePiece i s2len p (moved M b r.2) cells).map fun cells =>
      (Xno.ok, ⟨b.length + s2len, r.2.maxlength, cells⟩)

/-- `ds_insert`. -/
def dsInsert (text : ObjId → Option Text) (eo : ObjId) (op1 op2 : Value) (b : Buffer Byte) :
    Option (Xno × Buffer Byte) :=
  match op1.index X with
  | .error x => some (x, b)
  | .ok i => if i.toInt < 0 then some (Xno.lowIndex, b) else b.dsInsertAt M i.toInt (Piece.ofValue X text eo op2)

end Buffer

/-! ## What insertion is to do -/

section Insertion

variable {α : Type}

/-- The items with others at `i`, and padding if `i` is behind the last one. -/
def insertItems (pad : α) (items : List α) (i : Nat) (xs : List α) : List α :=
  items.take i ++ List.replicate (i - items.length) pad ++ xs ++ items.drop i

/-- An insertion puts the new items at the index, and writes nothing behind the last item,
with `tail` cells that belong to it. It leaves the object as it is when it fails, which it
may when the index is behind the last item, the value has no item, or there is no memory. -/
def InsertsAt (Is : List α → Buffer α → Prop) (pad : α) (tail : Nat) (items : List α) (b : Buffer α)
    (new : Except Xno (List α)) (result : Option (Xno × Buffer α)) (i : Nat) : Prop :=
  ∃ x b', result = some (x, b') ∧ b.cells.KeepsBehind (b'.length.toNat + tail) b'.cells ∧
    (x = Xno.ok → ∃ xs, new = .ok xs ∧ Is (insertItems pad items i xs) b') ∧
    (x ≠ Xno.ok → Is items b' ∧ (items.length < i ∨ x = Xno.memory ∨ x = -1 ∨ new = .error x))

/-- An insertion with an operand as index. -/
def InsertsItems (Is : List α → Buffer α → Prop) (pad : α) (tail : Nat) (items : List α) (b : Buffer α)
    (new : Except Xno (List α)) (result : Option (Xno × Buffer α)) : Except Xno (BitVec 32) → Prop :=
  AtIndex b result (InsertsAt Is pad tail items b new result)

variable {Is : List α → Buffer α → Prop} {pad : α} {tail : Nat} {items xs : List α} {b : Buffer α}
  {new : Except Xno (List α)} {result : Option (Xno × Buffer α)} {i : Nat}

theorem insertItems_of_le (h : i ≤ items.length) : insertItems pad items i xs = items.take i ++ xs ++ items.drop i := by
  unfold insertItems
  rw [Nat.sub_eq_zero_of_le h, List.replicate_zero, List.append_nil]

theorem length_insertItems : (insertItems pad items i xs).length = max items.length i + xs.length := by
  unfold insertItems
  simp only [List.length_append, List.length_take, List.length_replicate, List.length_drop]
  omega

theorem not_insertsAt_none : ¬ InsertsAt Is pad tail items b new none i := by
  rintro ⟨x, b', h, -⟩
  cases h

theorem InsertsAt.of_ok {b' : Buffer α} (hresult : result = some (Xno.ok, b')) (hnew : new = .ok xs)
    (h : Is (insertItems pad items i xs) b') (hbehind : b.cells.KeepsBehind (b'.length.toNat + tail) b'.cells) :
    InsertsAt Is pad tail items b new result i :=
  ⟨Xno.ok, b', hresult, hbehind, fun _ => ⟨xs, hnew, h⟩, fun hne => absurd rfl hne⟩

theorem InsertsAt.of_error {x : Xno} (hresult : result = some (x, b)) (hx : x ≠ Xno.ok)
    (h : Is items b) (hwhy : items.length < i ∨ x = Xno.memory ∨ x = -1 ∨ new = .error x) :
    InsertsAt Is pad tail items b new result i :=
  ⟨x, b, hresult, .refl _, fun heq => absurd heq hx, fun _ => ⟨h, hwhy⟩⟩

end Insertion

namespace Buffer

variable {M : Memory} {X : Indexing} {C : Conversions} {op1 op2 : Value} {i : Nat}

/-! ## Arrays -/

/-- An insertion into an array is right up to the last item, and behind it only when there
is no memory. -/
theorem IsArray.insertsAt_iff {items : List Value} {b : Buffer Value} (hb : b.IsArray items) :
    InsertsAt IsArray .nil 0 items b (.ok [op2.copy]) (b.aInsertAt M i op2) i ↔
      i ≤ items.length ∨ b.Refused M arraySizing (items.length + 1) := by
  have hlen := hb.length_eq
  have hle := hb.keeps.length_le
  have hfits : 16 * b.maxlength < 2 ^ 31 := hb.keeps.fits
  have hrange : CInt.InRange (b.length + 1) := ⟨by omega, by omega⟩
  unfold aInsertAt
  rw [CInt.check_eq_some.mpr ⟨hrange, rfl⟩, Option.bind_some, ← hlen]
  have hanswered : b.Answered M arraySizing (b.length + 1) := answered_succ hb.keeps (by omega)
  by_cases hrefused : b.Refused M arraySizing (b.length + 1)
  · rw [aSetsize_refused hrefused (by omega), Option.bind_some, if_pos (show (-1 : Int) < 0 by decide)]
    exact iff_of_true (.of_error rfl (by decide) hb (.inr (.inl rfl))) (.inr hrefused)
  rw [or_iff_left hrefused]
  obtain ⟨b₁, hset, hkeeps, hroom, hlen₁⟩ := aSetsize_served hb.keeps (hanswered.resolve_right hrefused) (by omega)
  rw [hset, Option.bind_some, if_neg (lt_irrefl (0 : Int))]
  by_cases hi : i ≤ items.length
  · refine iff_of_true ?_ hi
    have hA : (items.take i).length = i := List.length_take_of_le hi
    have hsplit : (items.take i).map some ++ (items.drop i).map some <+: b₁.cells := by
      rw [← List.map_append, List.take_append_drop]
      exact hkeeps.stored
    obtain ⟨R, hR, hpre⟩ := Block.room hsplit (k := 1)
      (by rw [← List.map_append, List.take_append_drop, List.length_map, hkeeps.maxlength_eq]; omega)
    obtain ⟨m, rfl⟩ := List.length_eq_one_iff.mp hR
    rw [← List.append_nil (_ ++ [m])] at hpre
    have hstart : (i : Int) = ((items.take i).map some).length := by
      rw [List.length_map, hA]
    obtain ⟨cells, m', hshift, hpre', hclen⟩ := Block.shift_insert hpre hstart
    rw [List.append_nil] at hpre'
    have hone : [some op2.copy].length = [m'].length := rfl
    obtain ⟨cells', hstore, hpre'', hclen'⟩ := Block.write_start hpre' hstart hone
    have hn : (b.length - i).toNat = (items.drop i).length := by
      rw [List.length_drop]
      omega
    have hstore : cells.store i op2.copy = some cells' := hstore
    rw [hn, hshift, Option.bind_some, hstore, Option.map_some]
    have hbehind : b.cells.KeepsBehind ((b.length + 1).toNat + 0) cells' :=
      ((aSetsize_keepsBehind hset).trans (.shift hshift (by omega))).trans (.store hstore (by omega))
    refine .of_ok rfl rfl ⟨?_, hkeeps.replace (hclen'.trans hclen) ?_⟩ hbehind
    · show b.length + 1 = ((insertItems .nil items i [op2.copy]).length : Int)
      rw [length_insertItems, List.length_singleton]
      omega
    · rw [insertItems_of_le hi, List.map_append, List.map_append]
      exact hpre''
  · -- the length is too small for what was inserted
    refine iff_of_false ?_ hi
    rintro ⟨x, b', h, -, hok, -⟩
    obtain ⟨cells, -, hmap⟩ := Option.bind_eq_some_iff.mp h
    obtain ⟨cells', -, hr⟩ := Option.map_eq_some_iff.mp hmap
    obtain ⟨rfl, rfl⟩ := Prod.mk.inj hr
    obtain ⟨xs, hxs, hb'⟩ := hok rfl
    obtain rfl := Except.ok.inj hxs
    have hshort : b.length + 1 = ((insertItems .nil items i [op2.copy]).length : Int) := hb'.length_eq
    rw [length_insertItems, List.length_singleton] at hshort
    omega

/-! ## Moving what is behind an index -/

/-- Room for `k` items at an index, in front of what is behind it and of `T`. -/
theorem Keeps.makeRoom {α : Type} {S : Sizing} {items T : List α} {b : Buffer α} (hb : b.Keeps S (items ++ T))
    (hi : i ≤ items.length) {k : Nat} (hroom : items.length + T.length + k ≤ b.maxlength) {n : Int}
    (hn : n = items.length - i + T.length) :
    ∃ cells M, b.cells.move (i + k) i n = some cells ∧ M.length = k ∧ cells.length = b.cells.length ∧
      (items.take i).map some ++ M ++ (items.drop i ++ T).map some <+: cells := by
  have hA : ((items.take i).map some).length = i := by
    rw [List.length_map, List.length_take_of_le hi]
  have hC : ((items.drop i ++ T).map some).length = items.length - i + T.length := by
    rw [List.length_map, List.length_append, List.length_drop]
  have hsplit : (items.take i).map some ++ (items.drop i ++ T).map some <+: b.cells := by
    rw [← List.map_append, ← List.append_assoc, List.take_append_drop]
    exact hb.stored
  obtain ⟨cells, M, hmove, hM, hpre, hlen⟩ := Block.move_insert hsplit (k := k) (d := i + k) (s := i) (n := n)
    (by rw [hA, hC, hb.maxlength_eq]; omega) (by rw [hA]) (by rw [hA]) (by rw [hC]; omega)
  exact ⟨cells, M, hmove, hM, hlen, hpre⟩

/-! ## Vectors -/

/-- An insertion into a vector takes a value with an item, and an index that is not behind
the last item. -/
theorem IsVector.insertsAt_iff {cls : VectorClass} {items : List Item} {b : Buffer Item} (hb : b.IsVector cls items) :
    InsertsAt (IsVector cls) 0 0 items b ((cls.convert C op2).map fun a => [a]) (b.vInsertAt M C cls i op2) i ↔
      CInt.InRange (items.length + 1) ∧ (b.Refused M cls.sizing (items.length + 1) ∨
        b.Served M cls.sizing (items.length + 1) ∧ i ≤ items.length ∧ ∃ a, cls.convert C op2 = .ok a) := by
  have hlen := hb.length_eq
  unfold vInsertAt
  rw [← hlen]
  by_cases hrange : CInt.InRange (b.length + 1)
  · rw [CInt.check_eq_some.mpr ⟨hrange, rfl⟩, Option.bind_some, and_iff_right hrange, vSetsize]
    by_cases hrefused : b.Refused M cls.sizing (b.length + 1)
    · rw [setsize_refused hrefused, Option.bind_some, if_pos (show (-1 : Int) ≠ 0 by decide)]
      exact iff_of_true (.of_error rfl (show BitVec.ofInt 32 (-1) ≠ Xno.ok by decide) hb (.inr (.inr (.inl rfl))))
        (.inl hrefused)
    rw [or_iff_right hrefused]
    by_cases hserved : b.Served M cls.sizing (b.length + 1)
    · obtain ⟨b₁, hset, hkeeps, hroom, -⟩ := setsize_served hb.keeps hserved (by omega)
      rw [hset, Option.bind_some, if_neg (not_not.mpr (rfl : (0 : Int) = 0)), and_iff_right hserved]
      by_cases hi : i ≤ items.length
      · rw [and_iff_right hi]
        have hkeeps₀ : b₁.Keeps cls.sizing (items ++ []) := by
          rw [List.append_nil]
          exact hkeeps
        obtain ⟨cells, R, hmove, hR, hclen, hpre⟩ := hkeeps₀.makeRoom hi (k := 1) (n := b.length + 1 - i - 1)
          (by rw [List.length_nil]; omega) (by rw [List.length_nil]; omega)
        rw [Nat.cast_one] at hmove
        rw [hmove, Option.bind_some]
        cases hconv : cls.convert C op2 with
        | error x =>
          refine iff_of_false ?_ (by rintro ⟨_, h⟩; cases h)
          rintro ⟨y, b', h, -, -, herror⟩
          obtain ⟨rfl, rfl⟩ := Prod.mk.inj (Option.some.inj h)
          have hsame := (herror (convert_error hconv ▸ by decide)).1.length_eq
          have hlonger : b.length + 1 = items.length := hsame
          omega
        | ok a =>
          have hstart : (i : Int) = ((items.take i).map some).length := by
            rw [List.length_map, List.length_take_of_le hi]
          have hone : [some a].length = R.length := hR.symm
          obtain ⟨cells', hwrite, hpre', hclen'⟩ := Block.write_start hpre hstart hone
          have hstore : cells.store i a = some cells' := hwrite
          dsimp only
          rw [hstore, Option.map_some]
          have hbehind : b.cells.KeepsBehind ((b.length + 1).toNat + 0) cells' :=
            ((setsize_keepsBehind hset).trans (.move hmove (by omega))).trans (.store hstore (by omega))
          refine iff_of_true (.of_ok rfl rfl ⟨?_, hkeeps.replace (hclen'.trans hclen) ?_⟩ hbehind) ⟨a, rfl⟩
          · show b.length + 1 = ((insertItems 0 items i [a]).length : Int)
            rw [length_insertItems, List.length_singleton]
            omega
          · rw [List.append_nil] at hpre'
            rw [insertItems_of_le hi, List.map_append, List.map_append]
            exact hpre'
      · -- the size of what is moved is negative
        have hneg : ¬ 0 ≤ b.length + 1 - i - 1 := by
          omega
        rw [Block.move_neg hneg, Option.bind_none]
        exact iff_of_false not_insertsAt_none fun h => hi h.1
    · have hnot : ¬ b.Answered M cls.sizing (b.length + 1) := fun h => h.elim hserved hrefused
      rw [setsize_eq_none cls.sizing_exact hb.keeps hnot, Option.bind_none]
      exact iff_of_false not_insertsAt_none fun h => hserved h.1
  · rw [CInt.check_eq_none.mpr hrange, Option.bind_none]
    exact iff_of_false not_insertsAt_none fun h => hrange h.1

/-! ## Dynamic strings -/

/-- The characters can be inserted: those of the string itself only into an empty string,
or behind its last character when the block has not moved. -/
def Inserts (M : Memory) (p : Piece) (i : Nat) (items : List Byte) (b : Buffer Byte) (newsize : Int) : Prop :=
  match p with
  | .chars _ => True
  | .self => items = [] ∨ i = items.length ∧
      ∀ k, calcresize? dstringSizing.base dstringSizing.base_pos b.maxlength newsize = some k → k ≠ b.maxlength →
        M.moves k = false

section Pieces

variable {items : List Byte} {cells : Block Byte} {R : List (Option Byte)} {p : Piece} {n : Int}

/-- The characters of another object go where there is room for them. -/
theorem writePiece_chars {s : List Byte} {m : Bool} (hi : i ≤ items.length) (hR : R.length = s.length)
    (h : (items.take i).map some ++ R ++ (items.drop i ++ [0]).map some <+: cells) :
    ∃ cells', writePiece i n (.chars s) m cells = some cells' ∧
      (insertItems 0 items i s ++ [0]).map some <+: cells' ∧ cells'.length = cells.length := by
  have hstart : (i : Int) = ((items.take i).map some).length := by
    rw [List.length_map, List.length_take_of_le hi]
  have hlen : (s.map some).length = R.length := by
    rw [List.length_map, hR]
  obtain ⟨cells', hwrite, hpre, hclen⟩ := Block.write_start h hstart hlen
  refine ⟨cells', hwrite, ?_, hclen⟩
  rw [← List.map_append, ← List.map_append, ← List.append_assoc] at hpre
  rw [insertItems_of_le hi]
  exact hpre

/-- Nothing is copied of an empty string. -/
theorem writePiece_self_nil {m : Bool} {j : Int} : writePiece j 0 .self m cells = some cells := by
  show (if m then if (0 : Int) = 0 then some cells else none else cells.copy j 0 0) = some cells
  unfold Block.copy
  rw [if_pos rfl, if_pos rfl, ite_self]

/-- Behind the last character, the string's own characters are what is written, if the block has not moved. -/
theorem writePiece_end {m : Bool} (h : items.map some <+: cells) (hp : p = .self → items = [] ∨ m = false) :
    writePiece items.length (p.of items).length p m cells = cells.write items.length ((p.of items).map some) := by
  cases p with
  | chars s => rfl
  | self =>
    show writePiece items.length items.length .self m cells = cells.write items.length (items.map some)
    by_cases hnil : items = []
    · subst hnil
      exact writePiece_self_nil.trans (Block.write_nil (k := 0) (Nat.zero_le _)).symm
    obtain rfl := (hp rfl).resolve_left hnil
    have hpos := List.length_pos_iff.mpr hnil
    have hslice : cells.slice 0 items.length = some (items.map some) :=
      Block.slice_start (A := []) h rfl (by rw [List.length_map])
    show Block.copy cells items.length 0 items.length = _
    unfold Block.copy
    rw [if_neg (by omega), if_pos (.inr (by omega))]
    unfold Block.move
    rw [hslice]
    rfl

/-- The string's own characters are in front of the room behind them. -/
theorem writePiece_self (hR : R.length = items.length)
    (h : (items.take items.length).map some ++ R ++ (items.drop items.length ++ [0]).map some <+: cells) :
    ∃ cells', writePiece items.length items.length .self false cells = some cells' ∧
      (insertItems 0 items items.length items ++ [0]).map some <+: cells' ∧ cells'.length = cells.length := by
  have hitems : items.map some <+: cells := by
    rw [List.take_length, List.append_assoc] at h
    exact (List.prefix_append ..).trans h
  have hself : writePiece items.length items.length .self false cells =
      writePiece items.length items.length (.chars items) false cells := writePiece_end (p := .self) hitems fun _ => .inr rfl
  rw [hself]
  exact writePiece_chars (Nat.le_refl _) hR h

/-- Otherwise they are not where they are looked for, or overlap with the room. -/
theorem writePiece_self_none {m : Bool} (hne : items ≠ []) (hi : i ≤ items.length) (h : m = true ∨ i ≠ items.length) :
    writePiece i items.length .self m cells = none := by
  have hpos : 0 < items.length := List.length_pos_iff.mpr hne
  have hlen : (items.length : Int) ≠ 0 := by
    omega
  show (if m then if (items.length : Int) = 0 then some cells else none else cells.copy i 0 items.length) = none
  cases m with
  | true => rw [if_pos rfl, if_neg hlen]
  | false =>
    have hlt : i < items.length := lt_of_le_of_ne hi (h.resolve_left Bool.false_ne_true)
    unfold Block.copy
    rw [if_neg Bool.false_ne_true, if_neg hlen, if_neg (by omega)]

theorem writePiece_keepsBehind {m : Bool} {cells' : Block Byte} {k : Nat} (h : writePiece i n p m cells = some cells')
    (hn : n = (p.of items).length) (hk : i + n ≤ k) : cells.KeepsBehind k cells' := by
  cases p with
  | chars s =>
    refine .write h ?_
    rw [List.length_map]
    exact hn ▸ hk
  | self =>
    have h : (if m then if n = 0 then some cells else none else cells.copy i 0 n) = some cells' := h
    split at h
    · split at h
      · exact Option.some.inj h ▸ .refl cells
      · cases h
    · unfold Block.copy at h
      split at h
      · exact Option.some.inj h ▸ .refl cells
      · split at h
        · exact .move h hk
        · cases h

end Pieces

/-- An insertion into a dynamic string has to have an index that is not behind the last
character, and must not look for what has been moved. -/
theorem IsDstring.insertsAt_iff {p : Piece} {items : List Byte} {b : Buffer Byte} (hb : b.IsDstring items) :
    InsertsAt IsDstring 0 1 items b (.ok (p.of items)) (b.dsInsertAt M i p) i ↔
      CInt.InRange (items.length + (p.of items).length + i + 1) ∧
        (b.Refused M dstringSizing (items.length + (p.of items).length + i + 1) ∨
          b.Served M dstringSizing (items.length + (p.of items).length + i + 1) ∧ i ≤ items.length ∧
            Inserts M p i items b (items.length + (p.of items).length + i + 1)) := by
  have hlen := hb.length_eq
  have hs2len : p.s2len b.length = (p.of items).length := by
    cases p with
    | chars s => rfl
    | self => exact hlen
  unfold dsInsertAt
  rw [hs2len, ← hlen]
  dsimp only
  by_cases hrange : CInt.InRange (b.length + (p.of items).length + i + 1)
  · rw [CInt.check_eq_some.mpr ⟨hrange, rfl⟩, Option.bind_some, and_iff_right hrange, dsSetsize]
    by_cases hrefused : b.Refused M dstringSizing (b.length + (p.of items).length + i + 1)
    · rw [setsize_refused hrefused, Option.bind_some, if_pos (show (-1 : Int) < 0 by decide)]
      exact iff_of_true (.of_error rfl (by decide) hb (.inr (.inl rfl))) (.inl hrefused)
    rw [or_iff_right hrefused]
    by_cases hserved : b.Served M dstringSizing (b.length + (p.of items).length + i + 1)
    · obtain ⟨b₁, hset, hkeeps, hroom, -⟩ := setsize_served hb.keeps hserved
        (by rw [List.length_append, List.length_singleton]; omega)
      have hmax := setsize_maxlength hset
      rw [hset, Option.bind_some, if_neg (lt_irrefl (0 : Int)), and_iff_right hserved]
      by_cases hi : i ≤ items.length
      · rw [if_pos (by omega), and_iff_right hi]
        obtain ⟨cells, R, hmove, hR, hclen, hpre⟩ := hkeeps.makeRoom hi (k := (p.of items).length)
          (n := b.length - i + 1) (by rw [List.length_singleton]; omega) (by rw [List.length_singleton, hlen]; rfl)
        rw [hmove, Option.bind_some]
        have hdone : ∀ cells', writePiece i (p.of items).length p (moved M b b₁) cells = some cells' →
            (insertItems 0 items i (p.of items) ++ [0]).map some <+: cells' → cells'.length = cells.length →
            InsertsAt IsDstring 0 1 items b (.ok (p.of items))
              (some (Xno.ok, ⟨b.length + (p.of items).length, b₁.maxlength, cells'⟩)) i := by
          intro cells' hwrite hpre' hclen'
          refine .of_ok rfl rfl ⟨?_, hkeeps.replace (hclen'.trans hclen) hpre'⟩ ?_
          · show b.length + (p.of items).length = ((insertItems 0 items i (p.of items)).length : Int)
            rw [length_insertItems]
            omega
          · show b.cells.KeepsBehind ((b.length + (p.of items).length).toNat + 1) cells'
            exact ((setsize_keepsBehind hset).trans (.move hmove (by omega))).trans
              (writePiece_keepsBehind hwrite rfl (by omega))
        cases p with
        | chars s =>
          obtain ⟨cells', hwrite, hpre', hclen'⟩ := writePiece_chars (s := s) (n := (s.length : Nat))
            (m := moved M b b₁) hi hR hpre
          show InsertsAt _ _ _ _ _ _ ((writePiece i (s.length : Nat) (.chars s) (moved M b b₁) cells).map _) i ↔ _
          rw [hwrite]
          exact iff_of_true (hdone cells' hwrite hpre' hclen') trivial
        | self =>
          show InsertsAt _ _ _ _ _ _ ((writePiece i (items.length : Nat) .self (moved M b b₁) cells).map _) i ↔
            (items = [] ∨ i = items.length ∧ _)
          by_cases hnil : items = []
          · subst hnil
            obtain rfl : i = 0 := Nat.le_zero.mp hi
            obtain rfl : R = [] := List.eq_nil_of_length_eq_zero hR
            rw [List.length_nil, Nat.cast_zero, writePiece_self_nil]
            exact iff_of_true (hdone cells writePiece_self_nil hpre rfl) (.inl rfl)
          rw [or_iff_right hnil]
          have hmoved : moved M b b₁ = false ↔ ∀ k, calcresize? dstringSizing.base dstringSizing.base_pos b.maxlength
              (b.length + items.length + i + 1) = some k → k ≠ b.maxlength → M.moves k = false := by
            have hmax' : calcresize? dstringSizing.base dstringSizing.base_pos b.maxlength
                (b.length + items.length + i + 1) = some b₁.maxlength := hmax
            unfold moved
            rw [Bool.and_eq_false_iff, decide_eq_false_iff_not]
            constructor
            · rintro h k hk hne
              obtain rfl := Option.some.inj (hmax'.symm.trans hk)
              exact h.resolve_left (not_not.mpr hne)
            · intro h
              by_cases hne : b₁.maxlength ≠ b.maxlength
              · exact .inr (h _ hmax' hne)
              · exact .inl hne
          by_cases hfine : i = items.length ∧ moved M b b₁ = false
          · obtain ⟨rfl, hm⟩ := hfine
            obtain ⟨cells', hwrite, hpre', hclen'⟩ :
                ∃ cells', writePiece items.length items.length .self false cells = some cells' ∧ _ :=
              writePiece_self hR hpre
            rw [← hm] at hwrite
            rw [hwrite]
            exact iff_of_true (hdone cells' hwrite hpre' hclen') ⟨rfl, hmoved.mp hm⟩
          · have hbad : moved M b b₁ = true ∨ i ≠ items.length := by
              by_cases heq : i = items.length
              · exact .inl (Bool.eq_true_of_not_eq_false fun hm => hfine ⟨heq, hm⟩)
              · exact .inr heq
            rw [writePiece_self_none hnil hi hbad]
            exact iff_of_false not_insertsAt_none fun h => hfine ⟨h.1, hmoved.mpr h.2⟩
      · -- the length is too small for what was inserted
        rw [if_neg (by omega), Option.bind_some]
        refine iff_of_false ?_ fun h => hi h.1
        rintro ⟨x, b', h, -, hok, -⟩
        obtain ⟨cells', -, hr⟩ := Option.map_eq_some_iff.mp h
        obtain ⟨rfl, rfl⟩ := Prod.mk.inj hr
        obtain ⟨xs, hxs, hb'⟩ := hok rfl
        obtain rfl := Except.ok.inj hxs
        have hshort : b.length + (p.of items).length = ((insertItems 0 items i (p.of items)).length : Int) :=
          hb'.length_eq
        rw [length_insertItems] at hshort
        omega
    · have hnot : ¬ b.Answered M dstringSizing (b.length + (p.of items).length + i + 1) :=
        fun h => h.elim hserved hrefused
      rw [setsize_eq_none dstringSizing_exact hb.keeps hnot, Option.bind_none]
      exact iff_of_false not_insertsAt_none fun h => hserved h.1
  · rw [CInt.check_eq_none.mpr hrange, Option.bind_none]
    exact iff_of_false not_insertsAt_none fun h => hrange h.1

/-! ## All sequences -/

theorem IsArray.insert_iff {items : List Value} {b : Buffer Value} (hb : b.IsArray items) :
    InsertsItems IsArray .nil 0 items b (.ok [op2.copy]) (b.aInsert M X op1 op2) (op1.index X) ↔
      ∀ i (k : Nat), op1.index X = .ok i → i.toInt = k →
        k ≤ items.length ∨ b.Refused M arraySizing (items.length + 1) := by
  unfold aInsert
  refine atIndex_iff (fun x hx => ?_) (fun i hi hneg => ?_) fun i k hi hk => ?_
  · rw [hx, Value.index_error hx]
    exact ⟨by decide, rfl⟩
  · rw [hi]
    exact if_pos hneg
  · have hnonneg : ¬ i.toInt < 0 := by
      omega
    rw [hi]
    dsimp only
    rw [if_neg hnonneg, hk]
    exact hb.insertsAt_iff

theorem IsVector.insert_iff {cls : VectorClass} {items : List Item} {b : Buffer Item} (hb : b.IsVector cls items) :
    InsertsItems (IsVector cls) 0 0 items b ((cls.convert C op2).map fun a => [a]) (b.vInsert M X C cls op1 op2)
        (op1.index X) ↔
      ∀ i (k : Nat), op1.index X = .ok i → i.toInt = k →
        CInt.InRange (items.length + 1) ∧ (b.Refused M cls.sizing (items.length + 1) ∨
          b.Served M cls.sizing (items.length + 1) ∧ k ≤ items.length ∧ ∃ a, cls.convert C op2 = .ok a) := by
  unfold vInsert
  refine atIndex_iff (fun x hx => ?_) (fun i hi hneg => ?_) fun i k hi hk => ?_
  · rw [hx, Value.index_error hx]
    exact ⟨by decide, rfl⟩
  · rw [hi]
    exact if_pos hneg
  · have hnonneg : ¬ i.toInt < 0 := by
      omega
    rw [hi]
    dsimp only
    rw [if_neg hnonneg, hk]
    exact hb.insertsAt_iff

theorem IsDstring.insert_iff {text : ObjId → Option Text} {eo : ObjId} {items : List Byte} {b : Buffer Byte}
    (hb : b.IsDstring items) {p : Piece} (hp : Piece.ofValue X text eo op2 = p) :
    InsertsItems IsDstring 0 1 items b (.ok (p.of items)) (b.dsInsert M X text eo op1 op2) (op1.index X) ↔
      ∀ i (k : Nat), op1.index X = .ok i → i.toInt = k →
        CInt.InRange (items.length + (p.of items).length + k + 1) ∧
          (b.Refused M dstringSizing (items.length + (p.of items).length + k + 1) ∨
            b.Served M dstringSizing (items.length + (p.of items).length + k + 1) ∧ k ≤ items.length ∧
              Inserts M p k items b (items.length + (p.of items).length + k + 1)) := by
  unfold dsInsert
  rw [hp]
  refine atIndex_iff (fun x hx => ?_) (fun i hi hneg => ?_) fun i k hi hk => ?_
  · rw [hx, Value.index_error hx]
    exact ⟨by decide, rfl⟩
  · rw [hi]
    exact if_pos hneg
  · have hnonneg : ¬ i.toInt < 0 := by
      omega
    rw [hi]
    dsimp only
    rw [if_neg hnonneg, hk]
    exact hb.insertsAt_iff

/-- When insertions do what they are to do. -/
theorem inserts_iff (M : Memory) (X : Indexing) (C : Conversions) (op1 op2 : Value) :
    (∀ items b, IsArray items b →
      (InsertsItems IsArray .nil 0 items b (.ok [op2.copy]) (b.aInsert M X op1 op2) (op1.index X) ↔
        ∀ i (k : Nat), op1.index X = .ok i → i.toInt = k →
          k ≤ items.length ∨ b.Refused M arraySizing (items.length + 1))) ∧
    (∀ cls items b, IsVector cls items b →
      (InsertsItems (IsVector cls) 0 0 items b ((cls.convert C op2).map fun a => [a]) (b.vInsert M X C cls op1 op2)
          (op1.index X) ↔
        ∀ i (k : Nat), op1.index X = .ok i → i.toInt = k →
          CInt.InRange (items.length + 1) ∧ (b.Refused M cls.sizing (items.length + 1) ∨
            b.Served M cls.sizing (items.length + 1) ∧ k ≤ items.length ∧ ∃ a, cls.convert C op2 = .ok a))) ∧
    ∀ text eo p items b, IsDstring items b → Piece.ofValue X text eo op2 = p →
      (InsertsItems IsDstring 0 1 items b (.ok (p.of items)) (b.dsInsert M X text eo op1 op2) (op1.index X) ↔
        ∀ i (k : Nat), op1.index X = .ok i → i.toInt = k →
          CInt.InRange (items.length + (p.of items).length + k + 1) ∧
            (b.Refused M dstringSizing (items.length + (p.of items).length + k + 1) ∨
              b.Served M dstringSizing (items.length + (p.of items).length + k + 1) ∧ k ≤ items.length ∧
                Inserts M p k items b (items.length + (p.of items).length + k + 1))) :=
  ⟨fun _ _ hb => hb.insert_iff, fun _ _ _ hb => hb.insert_iff, fun _ _ _ _ _ hb hp => hb.insert_iff hp⟩

/-- An array of one item. -/
def shortArray : Buffer Value := ⟨1, 8, [some (.integer 1), none, none, none, none, none, none, none]⟩

theorem shortArray_isArray : shortArray.IsArray [.integer 1] := ⟨rfl, rfl, by decide, ⟨_, rfl⟩⟩

/-- An insertion in front of the item. -/
theorem inserts_first :
    let X : Indexing := ⟨fun _ => 0, fun _ _ => 0, fun _ => 0⟩
    InsertsItems IsArray .nil 0 [.integer 1] shortArray (.ok [.integer 2])
      (shortArray.aInsert .ample X (.integer 0) (.integer 2)) (Value.index X (.integer 0)) := by
  intro X
  have C : Conversions := ⟨fun _ _ => 0, fun _ _ => 0, fun _ _ => 0, fun _ _ => 0, 0⟩
  refine ((inserts_iff .ample X C (.integer 0) (.integer 2)).1 _ _ shortArray_isArray).mpr ?_
  intro i k hi hk
  obtain rfl := Except.ok.inj hi
  have hzero : (0 : Int) = k := hk
  exact .inl (by omega)

/-- An insertion behind the last item writes an item that is not in the array, and the array
has one that nobody wrote. -/
theorem not_inserts_behind :
    let X : Indexing := ⟨fun _ => 0, fun _ _ => 0, fun _ => 0⟩
    let result := shortArray.aInsert .ample X (.integer 5) (.integer 2)
    shortArray.IsArray [.integer 1] ∧
      result = some (Xno.ok, ⟨2, 8, [some (.integer 1), none, none, none, none, some (.integer 2), none, none]⟩) ∧
      ¬ InsertsItems IsArray .nil 0 [.integer 1] shortArray (.ok [.integer 2]) result (Value.index X (.integer 5)) := by
  intro X result
  have hresult : result =
      some (Xno.ok, ⟨2, 8, [some (.integer 1), none, none, none, none, some (.integer 2), none, none]⟩) := rfl
  refine ⟨shortArray_isArray, hresult, ?_⟩
  rw [hresult]
  rintro ⟨x, b', h, -, hok, -⟩
  obtain ⟨rfl, rfl⟩ := Prod.mk.inj (Option.some.inj h)
  obtain ⟨xs, hxs, hb'⟩ := hok rfl
  obtain rfl := Except.ok.inj hxs
  exact absurd hb'.length_eq (by decide)

end Buffer

end Eel
