-- SUMMARY: Strings and dynamic strings that are made of integers, of each other and of vectors, and which of them have the bytes they were made of.
import Eel.Core.RangeCopy
import Eel.Core.VectorArith
import Mathlib.Data.List.TakeWhile

/-!
# Making strings

Strings are made by their constructors and by casts. Most of these have the number of the
characters beside the characters; the constructor of strings looks for a terminator.
-/

namespace Eel

/-! ## Characters -/

/-- `eel_get_indexval`. -/
def Value.indexval (X : Indexing) : Value → BitVec 32
  | .real bits => X.floor bits
  | .integer v | .boolean v | .classid v => v
  | .nil | .objref _ | .weakref .. => -1

/-- The loop of `s_construct` and `ds_construct`. -/
def constructChars (X : Indexing) : List Value → Except Xno (List Byte)
  | [] => .ok []
  | v :: initv =>
    if (v.indexval X).toInt < 0 then .error Xno.arguments
    else (constructChars X initv).map ((v.indexval X).setWidth 8 :: ·)

/-- What `s_getindex` and `ds_getindex` do, for the character at an index. -/
def charAt (X : Indexing) (length : Int) (buffer : Int → Option Byte) (op1 : Value) : Option (Except Xno Value) :=
  match op1.index X with
  | .error x => some (.error x)
  | .ok i =>
    if i.toInt < 0 then some (.error Xno.lowIndex)
    else if length ≤ i.toInt then some (.error Xno.highIndex)
    else (buffer i.toInt).map fun c => .ok (.integer (c.signExtend 32 &&& 0xff))

/-- `s_getindex`. -/
def StringObj.getindex (X : Indexing) (ps : StringObj) : Value → Option (Except Xno Value) :=
  charAt X ps.length fun i => ps.buffer[i.toNat]?

/-- `ds_getindex`. -/
def Buffer.dsGetindex (X : Indexing) (ds : Buffer Byte) : Value → Option (Except Xno Value) :=
  charAt X ds.length ds.cells.load

/-! ## Constructors and casts -/

variable (X : Indexing)

/-- `eel_ps_new_grab`, of a buffer with a terminator behind `s`. -/
def StringPool.newGrab (p : StringPool) (s : List Byte) : ObjId × StringPool := p.nnewGrab (CString.beforeZero 0 s)

/-- `s_construct`. -/
def StringPool.sConstruct (initv : List Value) (p : StringPool) : Option (Except Xno (ObjId × StringPool)) :=
  if 0 < initv.length then
    (CInt.check (initv.length + 1)).map fun _ => (constructChars X initv).map p.newGrab
  else some (.ok (p.nnew []))

namespace Buffer

/-- `ds_nnew_grab`, of a buffer with a terminator behind `s`. -/
def dsNnewGrab (s : List Byte) : Buffer Byte := ⟨s.length, s.length + 1, (s ++ [0]).map some⟩

/-- `ds_construct`. -/
def dsConstruct (initv : List Value) : Option (Except Xno (Buffer Byte)) :=
  if 0 < initv.length then
    (CInt.check (initv.length + 1)).map fun _ => (constructChars X initv).map dsNnewGrab
  else (dsNnew []).map .ok

/-- `s_cast_to_dstring`. -/
def sCastToDstring (src : StringObj) : Option (Except Xno (Buffer Byte)) :=
  (src.chars 0 src.length).bind fun s => (dsNnew (s.map some)).map .ok

end Buffer

namespace StringPool

/-- `s_cast_to_string`, which is a cast of dynamic strings. -/
def sCastToString (src : Buffer Byte) (p : StringPool) : Option (Except Xno (ObjId × StringPool)) :=
  (src.cells.read 0 src.length.toNat).map fun s => .ok (p.nnew s)

/-- `v_cast_to_string`. -/
def vCastToString (F : VectorReals) (cls : VectorClass) (vec : Buffer Item) (p : StringPool) :
    Option (Except Xno (ObjId × StringPool)) :=
  (CInt.check (vec.length + 1)).bind fun _ =>
    (vec.cells.read 0 vec.length.toNat).bind fun items =>
      (items.mapM fun item => (cls.ivalue F item).map fun iv => iv.setWidth 8).map fun s => .ok (p.nnewGrab s)

end StringPool

/-! ## What is to be made -/

/-- Indexing gives the bytes, as integers from 0 to 255. -/
def IndexesBytes (b : List Byte) (getindex : Value → Option (Except Xno Value)) : Prop :=
  ∀ (i : BitVec 32) (k : Nat) (c : Byte), i.toInt = k → b[k]? = some c →
    getindex (.integer i) = some (.ok (.integer (c.setWidth 32)))

/-- The result is a string with these bytes. -/
def MakesString (b : List Byte) (result : Option (Except Xno (ObjId × StringPool))) : Prop :=
  ∃ r ps, result = some (.ok r) ∧ r.2.object r.1 = some ps ∧ ps.bytes = b ∧ ps.length = b.length ∧
    IndexesBytes b (ps.getindex X)

/-- The result is a dynamic string with these bytes. -/
def MakesDstring (b : List Byte) (result : Option (Except Xno (Buffer Byte))) : Prop :=
  ∃ new, result = some (.ok new) ∧ new.IsDstring b ∧ IndexesBytes b (new.dsGetindex X)

/-- There is a size for a buffer of these bytes and a terminator. -/
def HasSize (b : List Byte) : Prop := b.length + 1 < 2 ^ 31

instance (b : List Byte) : Decidable (HasSize b) := inferInstanceAs (Decidable (_ < _))

/-- A byte as a value. -/
def Value.ofByte (c : Byte) : Value := .integer (c.setWidth 32)

variable {X} {b : List Byte} {p : StringPool}

/-! ## Indexing -/

theorem and_signExtend (c : Byte) : c.signExtend 32 &&& 0xff = c.setWidth 32 := by
  revert c
  decide

theorem indexesBytes_charAt {buffer : Int → Option Byte} {length : Int} (hlen : length = b.length)
    (hbuffer : ∀ (k : Nat) c, b[k]? = some c → buffer k = some c) : IndexesBytes b (charAt X length buffer) := by
  intro i k c hi hc
  have hlt : k < b.length := (List.getElem?_eq_some_iff.mp hc).1
  show (if i.toInt < 0 then _ else _) = _
  rw [hi, if_neg (by omega), if_neg (by omega), hbuffer k c hc, Option.map_some, and_signExtend]

theorem Buffer.IsDstring.indexes {new : Buffer Byte} (h : new.IsDstring b) : IndexesBytes b (new.dsGetindex X) := by
  refine indexesBytes_charAt h.length_eq fun k c hc => ?_
  obtain ⟨hlt, rfl⟩ := List.getElem?_eq_some_iff.mp hc
  exact Block.load_item (((List.prefix_append ..).map some).trans h.keeps.stored) hlt rfl

theorem makesDstring_of {new : Buffer Byte} (h : new.IsDstring b) : MakesDstring X b (some (.ok new)) :=
  ⟨new, rfl, h, h.indexes⟩

/-- For what a pool has, the bytes are all that matters. -/
theorem makesString_iff {r : ObjId × StringPool} (h : r.2.Inv) :
    MakesString X b (some (.ok r)) ↔ StringPool.Returns r b := by
  constructor
  · rintro ⟨r', ps, heq, hps, hbytes, hlen, -⟩
    obtain rfl := Except.ok.inj (Option.some.inj heq)
    exact ⟨ps, hps, hbytes, hlen⟩
  · rintro ⟨ps, hps, hbytes, hlen⟩
    refine ⟨r, ps, rfl, hps, hbytes, hlen, indexesBytes_charAt (by rw [hlen]) fun k c hc => ?_⟩
    rw [(h.pooled.wf _ ps hps).buffer_eq, hbytes, Int.toNat_natCast]
    exact List.getElem?_append_left (List.getElem?_eq_some_iff.mp hc).1 ▸ hc

/-! ## The constructors -/

theorem constructChars_ofByte (b : List Byte) : constructChars X (b.map Value.ofByte) = .ok b := by
  induction b with
  | nil => rfl
  | cons c b ih =>
    have hindex : (Value.ofByte c).indexval X = c.setWidth 32 := rfl
    have hpos : ¬ (c.setWidth 32).toInt < 0 := by
      have hlt := c.isLt
      rw [BitVec.toInt_setWidth, Int.bmod_eq_of_le (by omega) (by omega)]
      omega
    have hchar : (c.setWidth 32).setWidth 8 = c := by
      rw [BitVec.setWidth_setWidth_of_le _ (by decide), BitVec.setWidth_eq]
    rw [List.map_cons, constructChars, hindex, if_neg hpos, ih, hchar]
    rfl

theorem check_size : CInt.check ((b.map Value.ofByte).length + 1) = some ((b.length : Int) + 1) ↔ HasSize b := by
  rw [List.length_map, CInt.check_eq_some, and_iff_left rfl, HasSize]
  constructor
  · intro h
    have := h.2
    omega
  · intro h
    exact ⟨by omega, by omega⟩

theorem check_none (h : ¬ HasSize b) : CInt.check ((b.length : Int) + 1) = none :=
  CInt.check_eq_none.mpr fun hr => h (by have := hr.2; unfold HasSize; omega)

theorem beforeZero_eq_iff : CString.beforeZero 0 b = b ↔ 0 ∉ b := by
  unfold CString.beforeZero
  rw [List.takeWhile_eq_self_iff]
  constructor
  · intro h hmem
    exact absurd rfl (of_decide_eq_true (h 0 hmem))
  · intro h c hc
    exact decide_eq_true fun heq => h (heq ▸ hc)

/-- Strings without zeros are not taken for others. -/
theorem not_hasConflated (hp : p.Inv) (h : 0 ∉ b) : ¬ p.HasConflated b := by
  rintro ⟨o, ps, hps, hne, hlen, -, hzero⟩
  have hwf := hp.pooled.wf o ps hps
  rw [beforeZero_eq_iff.mpr h] at hzero
  have hstart : b <+: ps.bytes := hzero ▸ List.takeWhile_prefix _
  exact hne (hstart.eq_of_length (hlen.symm.trans hwf.length_eq)).symm

/-- The constructor of strings takes what is before the first zero. -/
theorem sConstruct_iff (hp : p.Inv) :
    MakesString X b (p.sConstruct X (b.map Value.ofByte)) ↔ 0 ∉ b ∧ HasSize b := by
  unfold StringPool.sConstruct
  cases b with
  | nil =>
    refine iff_of_true ((makesString_iff (hp.nnew [])).mpr ?_) ⟨List.not_mem_nil, by decide⟩
    exact (hp.nnew_returns_iff []).mpr (not_hasConflated hp List.not_mem_nil)
  | cons c rest =>
    rw [if_pos (by rw [List.length_map]; exact Nat.succ_pos _)]
    by_cases hsize : HasSize (c :: rest)
    · rw [check_size.mpr hsize, Option.map_some, constructChars_ofByte, and_iff_left hsize]
      have hzero : 0 ∉ CString.beforeZero 0 (c :: rest) := by
        unfold CString.beforeZero
        intro hmem
        have hne := List.mem_takeWhile_imp hmem
        exact of_decide_eq_true hne rfl
      have hreturns := (hp.nnew_returns_iff _).mpr (not_hasConflated hp hzero)
      refine (makesString_iff (hp.nnew _)).trans ?_
      rw [← beforeZero_eq_iff]
      constructor
      · rintro ⟨ps, hps, hbytes, -⟩
        obtain ⟨ps', hps', hbytes', -⟩ := hreturns
        rw [hps] at hps'
        obtain rfl := Option.some.inj hps'
        exact hbytes'.symm.trans hbytes
      · intro heq
        exact (congrArg (StringPool.Returns _) heq).mp hreturns
    · rw [List.length_map, check_none hsize]
      exact iff_of_false (fun ⟨_, _, h, _⟩ => nomatch h) fun h => hsize h.2

theorem isDstring_dsNnewGrab (h : HasSize b) : (Buffer.dsNnewGrab b).IsDstring b := by
  refine ⟨rfl, ?_, ?_, List.prefix_rfl⟩
  · show ((b ++ [0]).map some).length = b.length + 1
    rw [List.length_map, List.length_append, List.length_singleton]
  · show 1 * (b.length + 1) < 2 ^ 31
    rw [Nat.one_mul]
    exact h

theorem constructChars_length {initv : List Value} {items : List Byte} (h : constructChars X initv = .ok items) :
    items.length = initv.length := by
  induction initv generalizing items with
  | nil =>
    obtain rfl := Except.ok.inj h
    rfl
  | cons v initv ih =>
    unfold constructChars at h
    split at h
    · cases h
    · cases hrest : constructChars X initv with
      | error x =>
        rw [hrest] at h
        cases h
      | ok rest =>
        rw [hrest] at h
        obtain rfl := Except.ok.inj h
        exact congrArg (· + 1) (ih hrest)

theorem constructChars_error {initv : List Value} {x : Xno} (h : constructChars X initv = .error x) :
    x = Xno.arguments := by
  induction initv with
  | nil => cases h
  | cons v initv ih =>
    unfold constructChars at h
    split at h
    · exact (Except.error.inj h).symm
    · cases hrest : constructChars X initv with
      | error y =>
        rw [hrest] at h
        exact ih (hrest.trans (congrArg _ (Except.error.inj h)))
      | ok rest =>
        rw [hrest] at h
        cases h

theorem dsConstruct_nil : ∃ new, Buffer.dsConstruct X [] = some (.ok new) ∧ new.IsDstring [] := by
  obtain ⟨new, hnew, hds⟩ := Buffer.dsNnew_spec (s := []) (by decide)
  exact ⟨new, congrArg (Option.map Except.ok) hnew, hds⟩

/-- The constructor of dynamic strings takes characters, or reports what is none. -/
theorem dsConstruct_cases (initv : List Value) (h : initv.length + 1 < 2 ^ 31) :
    (∃ items new, constructChars X initv = .ok items ∧ Buffer.dsConstruct X initv = some (.ok new) ∧
        new.IsDstring items) ∨
      ∃ x, constructChars X initv = .error x ∧ Buffer.dsConstruct X initv = some (.error x) ∧ x ≠ Xno.ok := by
  cases initv with
  | nil =>
    obtain ⟨new, hnew, hds⟩ := dsConstruct_nil (X := X)
    exact .inl ⟨[], new, rfl, hnew, hds⟩
  | cons v rest =>
    have hcheck : CInt.check (((v :: rest).length : Int) + 1) = some (((v :: rest).length : Int) + 1) :=
      CInt.check_eq_some.mpr ⟨⟨by omega, by omega⟩, rfl⟩
    have hconstruct : Buffer.dsConstruct X (v :: rest) =
        some ((constructChars X (v :: rest)).map Buffer.dsNnewGrab) := by
      have hpos : 0 < (v :: rest).length := Nat.succ_pos _
      unfold Buffer.dsConstruct
      rw [if_pos hpos, hcheck, Option.map_some]
    rw [hconstruct]
    cases hchars : constructChars X (v :: rest) with
    | ok items =>
      have hsize : HasSize items := by
        unfold HasSize
        rw [constructChars_length hchars]
        exact h
      exact .inl ⟨items, _, rfl, rfl, isDstring_dsNnewGrab hsize⟩
    | error x =>
      refine .inr ⟨x, rfl, rfl, ?_⟩
      rw [constructChars_error hchars]
      decide

theorem dsConstruct_iff : MakesDstring X b (Buffer.dsConstruct X (b.map Value.ofByte)) ↔ HasSize b := by
  by_cases hsize : HasSize b
  · refine iff_of_true ?_ hsize
    have hcases := dsConstruct_cases (X := X) (b.map Value.ofByte) (by rw [List.length_map]; exact hsize)
    rw [constructChars_ofByte] at hcases
    rcases hcases with ⟨items, new, heq, hnew, hds⟩ | ⟨x, heq, -⟩
    · obtain rfl := Except.ok.inj heq
      rw [hnew]
      exact makesDstring_of hds
    · cases heq
  · have hpos : 0 < (b.map Value.ofByte).length := by
      unfold HasSize at hsize
      rw [List.length_map]
      omega
    unfold Buffer.dsConstruct
    rw [if_pos hpos, List.length_map, check_none hsize]
    exact iff_of_false (fun ⟨_, h, _⟩ => nomatch h) hsize

/-! ## The casts -/

theorem sCastToDstring_iff (hp : p.Inv) {eo : ObjId} {src : StringObj} (hsrc : p.object eo = some src) :
    MakesDstring X src.bytes (Buffer.sCastToDstring src) ↔ HasSize src.bytes := by
  have hwf := hp.pooled.wf eo src hsrc
  have hchars : src.chars 0 src.length = some src.bytes := by
    unfold StringObj.chars
    rw [if_pos ⟨le_rfl, Int.natCast_nonneg _, by rw [hwf.buffer_eq, List.length_append, hwf.length_eq]; omega⟩,
      Int.toNat_natCast]
    rfl
  unfold Buffer.sCastToDstring
  rw [hchars, Option.bind_some]
  by_cases hsize : HasSize src.bytes
  · obtain ⟨new, hnew, hds⟩ := Buffer.dsNnew_spec hsize
    rw [hnew]
    exact iff_of_true (makesDstring_of hds) hsize
  · have hnone : Buffer.dsNnew (src.bytes.map some) = none := by
      unfold Buffer.dsNnew
      rw [List.length_map, check_none hsize]
      rfl
    rw [hnone]
    exact iff_of_false (fun ⟨_, h, _⟩ => nomatch h) hsize

theorem sCastToString_iff (hp : p.Inv) {src : Buffer Byte} (hsrc : src.IsDstring b) :
    MakesString X b (p.sCastToString src) ↔ ¬ p.HasConflated b := by
  have hlen : src.length.toNat = b.length := by
    rw [hsrc.length_eq, Int.toNat_natCast]
  have hread : src.cells.read 0 src.length.toNat = some b := by
    rw [hlen]
    exact Block.read_all (((List.prefix_append ..).map some).trans hsrc.keeps.stored)
  unfold StringPool.sCastToString
  rw [hread, Option.map_some, makesString_iff (hp.nnew b), hp.nnew_returns_iff]

/-- The bytes of a `vector_u8`. -/
def bytesOf (items : List Item) : List Byte := items.map fun item => item.setWidth 8

theorem mapM_ivalue (F : VectorReals) (items : List Item) :
    (items.mapM fun item => (VectorClass.ivalue F .u8 item).map fun iv => iv.setWidth 8) = some (bytesOf items) := by
  induction items with
  | nil => rfl
  | cons item items ih =>
    have hchar : ((item.setWidth 8).setWidth 32).setWidth 8 = item.setWidth 8 := by
      rw [BitVec.setWidth_setWidth_of_le _ (by decide), BitVec.setWidth_eq]
    rw [List.mapM_cons, ih]
    show some (((item.setWidth 8).setWidth 32).setWidth 8 :: bytesOf items) = _
    rw [hchar]
    rfl

theorem vCastToString_iff (hp : p.Inv) {F : VectorReals} {vec : Buffer Item} {items : List Item}
    (hvec : vec.IsVector .u8 items) :
    MakesString X (bytesOf items) (p.vCastToString F .u8 vec) ↔
      ¬ p.HasConflated (bytesOf items) ∧ HasSize (bytesOf items) := by
  have hbytes : (bytesOf items).length = items.length := List.length_map _
  have hread : vec.cells.read 0 vec.length.toNat = some items := by
    rw [hvec.length_eq, Int.toNat_natCast]
    exact Block.read_all hvec.keeps.stored
  unfold StringPool.vCastToString
  rw [hvec.length_eq, ← hbytes]
  by_cases hsize : HasSize (bytesOf items)
  · rw [CInt.check_eq_some.mpr ⟨⟨by omega, by unfold HasSize at hsize; omega⟩, rfl⟩, Option.bind_some, hbytes,
      ← hvec.length_eq, hread, Option.bind_some, mapM_ivalue, Option.map_some, and_iff_left hsize]
    exact (makesString_iff (hp.nnew _)).trans (hp.nnew_returns_iff _)
  · rw [check_none hsize]
    exact iff_of_false (fun ⟨_, _, h, _⟩ => nomatch h) fun h => hsize h.2

/-! ## Bytes that are kept -/

/-- In every state of the pool that a run leads to: which of the constructors and casts keep which bytes. -/
theorem makes_iff (X : Indexing) (F : VectorReals) (ops : List StringPool.Op) :
    let p := (Machine.run StringPool.step StringPool.open ops).2
    (∀ b, MakesString X b (p.sConstruct X (b.map Value.ofByte)) ↔ 0 ∉ b ∧ HasSize b) ∧
    (∀ b, MakesDstring X b (Buffer.dsConstruct X (b.map Value.ofByte)) ↔ HasSize b) ∧
    (∀ eo src, p.object eo = some src →
      (MakesDstring X src.bytes (Buffer.sCastToDstring src) ↔ HasSize src.bytes)) ∧
    (∀ b src, Buffer.IsDstring b src → (MakesString X b (p.sCastToString src) ↔ ¬ p.HasConflated b)) ∧
    ∀ items vec, Buffer.IsVector .u8 items vec →
      (MakesString X (bytesOf items) (p.vCastToString F .u8 vec) ↔
        ¬ p.HasConflated (bytesOf items) ∧ HasSize (bytesOf items)) := by
  intro p
  have hp : p.Inv := .run ops
  refine ⟨fun b => sConstruct_iff hp, fun b => dsConstruct_iff, ?_, ?_, ?_⟩
  · intro eo src hsrc
    exact sCastToDstring_iff hp hsrc
  · intro b src hsrc
    exact sCastToString_iff hp hsrc
  · intro items vec hvec
    exact vCastToString_iff hp hvec

/-- What doubles are as indexes does not matter to bytes. -/
def noIndexing : Indexing := ⟨fun _ => 0, fun _ _ => 0, fun _ => 0⟩

/-- A dynamic string with a zero in it, as a string. -/
theorem makes_with_zero :
    let src : Buffer Byte := ⟨3, 4, [some 65, some 0, some 200, some 0]⟩
    src.IsDstring [65, 0, 200] ∧ MakesString noIndexing [65, 0, 200] (StringPool.open.sCastToString src) := by
  intro src
  have hsrc : src.IsDstring [65, 0, 200] := ⟨rfl, rfl, by decide, List.prefix_rfl⟩
  refine ⟨hsrc, ((makes_iff noIndexing noVectorReals []).2.2.2.1 _ src hsrc).mpr ?_⟩
  rintro ⟨o, ps, hps, -⟩
  cases hps

/-- A string that is made of three bytes with a zero among them has one byte. -/
theorem not_makes_zero :
    let result := StringPool.open.sConstruct noIndexing ([65, 0, 66].map Value.ofByte)
    (∃ r ps, result = some (.ok r) ∧ r.2.object r.1 = some ps ∧ ps.bytes = [65] ∧ ps.length = 1) ∧
      ¬ MakesString noIndexing [65, 0, 66] result := by
  intro result
  have hresult : result = some (.ok (StringPool.open.nnewGrab [65])) := rfl
  refine ⟨⟨_, ⟨[65, 0], 1, hashMem [65], 1⟩, hresult, rfl, rfl, rfl⟩, ?_⟩
  rintro ⟨r, ps, heq, hps, -, hlen, -⟩
  rw [hresult] at heq
  obtain rfl := Except.ok.inj (Option.some.inj heq)
  obtain rfl : StringObj.mk [65, 0] 1 (hashMem [65]) 1 = ps := Option.some.inj hps
  exact absurd hlen (by decide)

end Eel
