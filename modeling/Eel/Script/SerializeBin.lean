-- SUMMARY: The binary format of serialize: writing a tree, reading it back, and the round trip.
import Eel.Script.Memfile

/-!
# Binary serialization

A type byte, then the number of items where there is one, then what there is of the value.
The reader calls itself for the values inside, each of which has a type byte of its own, so
no recursion is deeper than there are bytes.
-/

namespace Eel

/-- The `BIN_` constants. -/
inductive BinType where
  | unknown | nil | integer | real
  | booleanT | booleanF
  | string | dstring | table | array
  | vectorD | vectorU32 | vectorS32
  deriving DecidableEq

namespace BinType

def code : BinType → BitVec 32
  | unknown => 0
  | nil => 1
  | integer => 2
  | real => 3
  | booleanT => 4
  | booleanF => 5
  | string => 6
  | dstring => 7
  | table => 8
  | array => 9
  | vectorD => 10
  | vectorU32 => 11
  | vectorS32 => 12

/-- `dstring [type]`. -/
def byte (type : BinType) : Byte := type.code.setWidth 8

/-- The case of a `switch` that a code belongs to. -/
def ofCode (code : BitVec 32) : Option BinType :=
  [unknown, nil, integer, real, booleanT, booleanF, string, dstring, table, array, vectorD, vectorU32,
    vectorS32].find? fun type => type.code = code

theorem ofCode_byte (type : BinType) : ofCode (type.byte.setWidth 32) = some type := by
  cases type <;> decide

end BinType

namespace Tree

/-- `SERIALIZE_DROP_UNKNOWN`. -/
def dropUnknown : BitVec 32 := 1

/-! ## The writer -/

/-- `sizeof v`. -/
def sizeof (n : Nat) : Tree := .integer (BitVec.ofNat 32 n)

/-- `write_typed`. -/
def writeTyped (buf : Memfile) (type : BinType) (val : Option Tree) : Except Thrown Memfile :=
  match val with
  | some val => buf.write [.dstring [type.byte], val]
  | none => buf.write [.dstring [type.byte]]

/-- The items of a vector. -/
def writeEach (buf : Memfile) : List Tree → Except Thrown Memfile
  | [] => .ok buf
  | v :: vs => do
    let buf ← buf.write [v]
    writeEach buf vs

mutual

/-- `write_value_bin`. -/
def writeValueBin (flags : BitVec 32) : Tree → Memfile → Except Thrown Memfile
  | .nil, buf => writeTyped buf .nil none
  | .integer v, buf => writeTyped buf .integer (some (.integer v))
  | .real bits, buf => writeTyped buf .real (some (.real bits))
  | .boolean v, buf => if v then writeTyped buf .booleanT none else writeTyped buf .booleanF none
  | .string bytes, buf => do
    let buf ← writeTyped buf .string none
    buf.write [sizeof bytes.length, .string bytes]
  | .dstring bytes, buf => do
    let buf ← writeTyped buf .dstring none
    buf.write [sizeof bytes.length, .dstring bytes]
  | .vectorD items, buf => do
    let buf ← writeTyped buf .vectorD none
    let buf ← buf.write [sizeof items.length]
    writeEach buf (items.map .real)
  | .vectorU32 items, buf => do
    let buf ← writeTyped buf .vectorU32 none
    let buf ← buf.write [sizeof items.length]
    writeEach buf (items.map .integer)
  | .vectorS32 items, buf => do
    let buf ← writeTyped buf .vectorS32 none
    let buf ← buf.write [sizeof items.length]
    writeEach buf (items.map .integer)
  | .table items, buf => do
    let buf ← writeTyped buf .table none
    let buf ← buf.write [sizeof items.length]
    writeItems flags items buf
  | .array items, buf => do
    let buf ← writeTyped buf .array none
    let buf ← buf.write [sizeof items.length]
    writeList flags items buf
  | .other typename, buf =>
    if flags &&& dropUnknown = 0 then
      .error (.text ("serialize(bin): Value of unsupported type '" ++ typename ++ "'!"))
    else .ok buf

def writeList (flags : BitVec 32) : List Tree → Memfile → Except Thrown Memfile
  | [], buf => .ok buf
  | v :: vs, buf => do
    let buf ← writeValueBin flags v buf
    writeList flags vs buf

def writeItems (flags : BitVec 32) : List (Tree × Tree) → Memfile → Except Thrown Memfile
  | [], buf => .ok buf
  | (k, v) :: items, buf => do
    let buf ← writeValueBin flags k buf
    let buf ← writeValueBin flags v buf
    writeItems flags items buf

end

/-- The rounds of `for local i = 0, limit`. -/
def rounds (limit : BitVec 32) : Nat := (limit.toInt + 1).toNat

def loop {σ : Type} (body : σ → Except Thrown σ) : Nat → σ → Except Thrown σ
  | 0, s => .ok s
  | n + 1, s => do
    let s ← body s
    loop body n s

/-- `read(mf, integer)`. -/
def readInteger (mf : Memfile) : Except Thrown (BitVec 32 × Memfile) := do
  match ← mf.readType .integer with
  | (.integer v, mf) => .ok (v, mf)
  | _ => .error (.xno Xno.wrongType)

/-- `read(mf, real)`. -/
def readReal (mf : Memfile) : Except Thrown (BitVec 64 × Memfile) := do
  match ← mf.readType .real with
  | (.real bits, mf) => .ok (bits, mf)
  | _ => .error (.xno Xno.wrongType)

/-- `read(mf, read(mf, integer))`. -/
def readBytes (mf : Memfile) : Except Thrown (List Byte × Memfile) := do
  let (count, mf) ← readInteger mf
  mf.read count

/-- `v.+ read(mf, …)`. -/
def appendItem {α : Type} (read : Memfile → Except Thrown (α × Memfile)) (s : List α × Memfile) :
    Except Thrown (List α × Memfile) := do
  let (item, mf) ← read s.2
  .ok (s.1 ++ [item], mf)

/-- `t[read_value_bin(mf)] = read_value_bin(mf)`. -/
def setItem (K : Keys) (read : Memfile → Except Thrown (Tree × Memfile)) (s : List (Tree × Tree) × Memfile) :
    Except Thrown (List (Tree × Tree) × Memfile) := do
  let (key, mf) ← read s.2
  let (value, mf) ← read mf
  .ok (setindex K s.1 key value, mf)

/-- An empty container, and what is read into it. -/
def readInto {α : Type} (body : List α × Memfile → Except Thrown (List α × Memfile)) (mf : Memfile) :
    Except Thrown (List α × Memfile) := do
  let (items, mf) ← readInteger mf
  loop body (rounds (items - 1)) ([], mf)

/-- The `switch` of `read_value_bin`, with what it calls for the values inside. -/
def readCase (K : Keys) (read : Memfile → Except Thrown (Tree × Memfile)) (type : BitVec 32) (mf : Memfile) :
    Except Thrown (Tree × Memfile) :=
  match BinType.ofCode type with
  | some .nil => .ok (.nil, mf)
  | some .integer => mf.readType .integer
  | some .real => mf.readType .real
  | some .booleanT => .ok (.boolean true, mf)
  | some .booleanF => .ok (.boolean false, mf)
  | some .string | some .unknown => do
    let (bytes, mf) ← readBytes mf
    .ok (.string bytes, mf)
  | some .dstring => do
    let (bytes, mf) ← readBytes mf
    .ok (.dstring bytes, mf)
  | some .table => do
    let (t, mf) ← readInto (setItem K read) mf
    .ok (.table t, mf)
  | some .array => do
    let (a, mf) ← readInto (appendItem read) mf
    .ok (.array a, mf)
  | some .vectorD => do
    let (v, mf) ← readInto (appendItem readReal) mf
    .ok (.vectorD v, mf)
  | some .vectorU32 => do
    let (v, mf) ← readInto (appendItem readInteger) mf
    .ok (.vectorU32 v, mf)
  | some .vectorS32 => do
    let (v, mf) ← readInto (appendItem readInteger) mf
    .ok (.vectorS32 v, mf)
  | none => .error (.text ("deserialize(): Unknown type code " ++ toString type.toInt ++ "!"))

/-- `read_value_bin`, which calls itself no deeper than the second argument says. -/
def readValueBin (K : Keys) : Nat → Memfile → Except Thrown (Tree × Memfile)
  | 0, _ => .error (.xno Xno.internal)
  | depth + 1, mf => do
    let (s, mf) ← mf.read 1
    match s with
    | [] => .error (.xno Xno.highIndex)
    | c :: _ => readCase K (readValueBin K depth) (c.setWidth 32) mf

/-- The number of items, as `sizeof` gives it. -/
def binCount (n : Nat) : List Byte := BigEndian.encode 4 (BitVec.ofNat 32 n).toNat

mutual

/-- The bytes that a tree is written as. -/
def bin : Tree → List Byte
  | .nil => [BinType.nil.byte]
  | .integer v => BinType.integer.byte :: BigEndian.encode 4 v.toNat
  | .real bits => BinType.real.byte :: BigEndian.encode 8 bits.toNat
  | .boolean v => [(if v then BinType.booleanT else BinType.booleanF).byte]
  | .string bytes => BinType.string.byte :: (binCount bytes.length ++ bytes)
  | .dstring bytes => BinType.dstring.byte :: (binCount bytes.length ++ bytes)
  | .vectorD items => BinType.vectorD.byte ::
      (binCount items.length ++ items.flatMap fun bits => BigEndian.encode 8 bits.toNat)
  | .vectorU32 items => BinType.vectorU32.byte ::
      (binCount items.length ++ items.flatMap fun v => BigEndian.encode 4 v.toNat)
  | .vectorS32 items => BinType.vectorS32.byte ::
      (binCount items.length ++ items.flatMap fun v => BigEndian.encode 4 v.toNat)
  | .table items => BinType.table.byte :: (binCount items.length ++ binItems items)
  | .array items => BinType.array.byte :: (binCount items.length ++ binList items)
  | .other _ => []

def binList : List Tree → List Byte
  | [] => []
  | v :: vs => v.bin ++ binList vs

def binItems : List (Tree × Tree) → List Byte
  | [] => []
  | (k, v) :: items => k.bin ++ (v.bin ++ binItems items)

end

/-! ## What is written -/

open Memfile (written readUpTo)

variable {flags : BitVec 32} {before bytes after : List Byte}

theorem ok_bind {ε α β : Type} {a : α} {f : α → Except ε β} : (Except.ok a >>= f) = f a := rfl

theorem writeTyped_none (type : BinType) :
    writeTyped (written before) type none = .ok (written (before ++ [type.byte])) := by
  unfold writeTyped
  exact Memfile.write_written rfl

theorem writeTyped_some (type : BinType) {val : Tree} (hval : Memfile.encode val = some bytes) :
    writeTyped (written before) type (some val) = .ok (written (before ++ type.byte :: bytes)) := by
  have htype : Memfile.encode (.dstring [type.byte]) = some [type.byte] := rfl
  unfold writeTyped
  dsimp only
  rw [Memfile.write_written htype, Memfile.write_written hval, List.append_assoc]
  rfl

theorem write_sizeof (n : Nat) (args : List Tree) :
    (written before).write (sizeof n :: args) = (written (before ++ binCount n)).write args :=
  Memfile.write_written rfl

theorem writeEach_written {α : Type} {value : α → Tree} {encoding : α → List Byte}
    (hencode : ∀ x, Memfile.encode (value x) = some (encoding x)) (xs : List α) :
    writeEach (written before) (xs.map value) = .ok (written (before ++ xs.flatMap encoding)) := by
  induction xs generalizing before with
  | nil =>
    rw [List.flatMap_nil, List.append_nil]
    rfl
  | cons x xs ih =>
    rw [List.map_cons, List.flatMap_cons, ← List.append_assoc]
    unfold writeEach
    rw [Memfile.write_written (hencode x)]
    exact ih

/-- A type byte and a count, and then the rest. -/
theorem append_type_count (type : BinType) (n : Nat) :
    before ++ [type.byte] ++ binCount n ++ bytes = before ++ type.byte :: (binCount n ++ bytes) := by
  rw [List.append_assoc, List.append_assoc]
  rfl

mutual

theorem writeValueBin_written {v : Tree} (h : v.Ok) (before : List Byte) :
    writeValueBin flags v (written before) = .ok (written (before ++ v.bin)) := by
  cases v with
  | nil => exact writeTyped_none .nil
  | integer v =>
    have hval : Memfile.encode (.integer v) = some (BigEndian.encode 4 v.toNat) := rfl
    exact writeTyped_some .integer hval
  | real bits =>
    have hval : Memfile.encode (.real bits) = some (BigEndian.encode 8 bits.toNat) := rfl
    exact writeTyped_some .real hval
  | boolean v =>
    cases v with
    | false => exact writeTyped_none .booleanF
    | true => exact writeTyped_none .booleanT
  | string bytes =>
    unfold writeValueBin bin
    rw [writeTyped_none, ok_bind, write_sizeof, Memfile.write_written rfl, append_type_count]
    rfl
  | dstring bytes =>
    unfold writeValueBin bin
    rw [writeTyped_none, ok_bind, write_sizeof, Memfile.write_written rfl, append_type_count]
    rfl
  | vectorD items =>
    unfold writeValueBin bin
    rw [writeTyped_none, ok_bind, write_sizeof, ← append_type_count]
    exact writeEach_written (fun _ => rfl) items
  | vectorU32 items =>
    unfold writeValueBin bin
    rw [writeTyped_none, ok_bind, write_sizeof, ← append_type_count]
    exact writeEach_written (fun _ => rfl) items
  | vectorS32 items =>
    unfold writeValueBin bin
    rw [writeTyped_none, ok_bind, write_sizeof, ← append_type_count]
    exact writeEach_written (fun _ => rfl) items
  | table items =>
    unfold writeValueBin bin
    rw [writeTyped_none, ok_bind, write_sizeof, ← append_type_count]
    exact writeItems_written h.2.2 _
  | array items =>
    unfold writeValueBin bin
    rw [writeTyped_none, ok_bind, write_sizeof, ← append_type_count]
    exact writeList_written h.2 _
  | other => exact h.elim

theorem writeList_written {vs : List Tree} (h : OkList vs) (before : List Byte) :
    writeList flags vs (written before) = .ok (written (before ++ binList vs)) := by
  cases vs with
  | nil =>
    unfold writeList binList
    rw [List.append_nil]
  | cons v vs =>
    unfold writeList binList
    rw [writeValueBin_written h.1, ok_bind, writeList_written h.2, List.append_assoc]

theorem writeItems_written {items : List (Tree × Tree)} (h : OkItems items) (before : List Byte) :
    writeItems flags items (written before) = .ok (written (before ++ binItems items)) := by
  match items with
  | [] =>
    unfold writeItems binItems
    rw [List.append_nil]
  | (k, v) :: items =>
    obtain ⟨_, hk, hv, hitems⟩ := h
    unfold writeItems binItems
    rw [writeValueBin_written hk, ok_bind, writeValueBin_written hv, ok_bind, writeItems_written hitems,
      List.append_assoc, List.append_assoc]

end

/-! ## What is read -/

variable {K : Keys}

theorem loop_succ {σ : Type} {body : σ → Except Thrown σ} {n : Nat} {s s' : σ} (h : body s = .ok s') :
    loop body (n + 1) s = loop body n s' := by
  show (body s >>= fun s => loop body n s) = _
  rw [h, ok_bind]

/-- `for local i = 0, items - 1` goes round once for each item, and not at all if there are none. -/
theorem rounds_length {n : Nat} (h : n < 2 ^ 31) : rounds (BitVec.ofNat 32 n - 1) = n := by
  unfold rounds
  rw [BitVec.toInt_sub, Memfile.toInt_ofNat_length h]
  show (((n : Int) - 1).bmod (2 ^ 32) + 1).toNat = n
  rw [Int.bmod_eq_of_le (by omega) (by omega)]
  omega

theorem readInteger_readUpTo (v : BitVec 32) :
    readInteger (readUpTo before (BigEndian.encode 4 v.toNat ++ after)) =
      .ok (v, readUpTo (before ++ BigEndian.encode 4 v.toNat) after) := by
  unfold readInteger
  rw [Memfile.readType_integer, ok_bind]

theorem readReal_readUpTo (bits : BitVec 64) :
    readReal (readUpTo before (BigEndian.encode 8 bits.toNat ++ after)) =
      .ok (bits, readUpTo (before ++ BigEndian.encode 8 bits.toNat) after) := by
  unfold readReal
  rw [Memfile.readType_real, ok_bind]

theorem readBytes_readUpTo (h : bytes.length < 2 ^ 31) :
    readBytes (readUpTo before (binCount bytes.length ++ bytes ++ after)) =
      .ok (bytes, readUpTo (before ++ (binCount bytes.length ++ bytes)) after) := by
  unfold readBytes binCount
  rw [List.append_assoc, readInteger_readUpTo, ok_bind]
  dsimp only
  rw [Memfile.read_readUpTo h, List.append_assoc]

/-- A container is read by as many rounds as it has items. -/
theorem readInto_readUpTo {α : Type} {body : List α × Memfile → Except Thrown (List α × Memfile)} {n : Nat}
    (h : n < 2 ^ 31) :
    readInto body (readUpTo before (binCount n ++ bytes)) =
      loop body n ([], readUpTo (before ++ binCount n) bytes) := by
  unfold readInto binCount
  rw [readInteger_readUpTo, ok_bind]
  dsimp only
  rw [rounds_length h]

/-- The items of a vector. -/
theorem loop_appendItem {α : Type} {read : Memfile → Except Thrown (α × Memfile)} {encoding : α → List Byte}
    (hread : ∀ x before after, read (readUpTo before (encoding x ++ after)) =
      .ok (x, readUpTo (before ++ encoding x) after)) (xs acc : List α) (before : List Byte) :
    loop (appendItem read) xs.length (acc, readUpTo before (xs.flatMap encoding ++ after)) =
      .ok (acc ++ xs, readUpTo (before ++ xs.flatMap encoding) after) := by
  induction xs generalizing acc before with
  | nil =>
    rw [List.append_nil, List.flatMap_nil, List.append_nil]
    rfl
  | cons x xs ih =>
    have hbody : appendItem read (acc, readUpTo before (encoding x ++ (xs.flatMap encoding ++ after))) =
        .ok (acc ++ [x], readUpTo (before ++ encoding x) (xs.flatMap encoding ++ after)) := by
      unfold appendItem
      rw [hread, ok_bind]
    rw [List.flatMap_cons, List.append_assoc, List.length_cons, loop_succ hbody, ih, List.append_assoc,
      List.append_assoc]
    rfl

theorem readVector {α : Type} {read : Memfile → Except Thrown (α × Memfile)} {encoding : α → List Byte}
    (hread : ∀ x before after, read (readUpTo before (encoding x ++ after)) =
      .ok (x, readUpTo (before ++ encoding x) after)) {xs : List α} (h : xs.length < 2 ^ 31) :
    readInto (appendItem read) (readUpTo before (binCount xs.length ++ xs.flatMap encoding ++ after)) =
      .ok (xs, readUpTo (before ++ (binCount xs.length ++ xs.flatMap encoding)) after) := by
  rw [List.append_assoc, readInto_readUpTo h, loop_appendItem hread, List.append_assoc]
  rfl

/-- The type byte leads to its case, which has less left to read. -/
theorem readValueBin_of_case {v : Tree} (type : BinType) (hbin : v.bin = type.byte :: bytes) {depth : Nat}
    (hdepth : v.bin.length ≤ depth)
    (hcase : ∀ d, bytes.length ≤ d → ∃ v', Same v v' ∧
      readCase K (readValueBin K d) (type.byte.setWidth 32) (readUpTo (before ++ [type.byte]) (bytes ++ after)) =
        .ok (v', readUpTo (before ++ [type.byte] ++ bytes) after)) :
    ∃ v', Same v v' ∧
      readValueBin K depth (readUpTo before (v.bin ++ after)) = .ok (v', readUpTo (before ++ v.bin) after) := by
  rw [hbin] at hdepth ⊢
  obtain ⟨d, rfl⟩ : ∃ d, depth = d + 1 := Nat.exists_eq_succ_of_ne_zero (Nat.ne_of_gt (Nat.lt_of_lt_of_le
    (Nat.zero_lt_succ _) hdepth))
  obtain ⟨v', hsame, hread⟩ := hcase d (Nat.le_of_succ_le_succ hdepth)
  have htype : [type.byte].length < 2 ^ 31 := Nat.one_lt_two_pow (by decide)
  have hbyte : (readUpTo before ([type.byte] ++ (bytes ++ after))).read 1 =
      .ok ([type.byte], readUpTo (before ++ [type.byte]) (bytes ++ after)) := Memfile.read_readUpTo htype
  refine ⟨v', hsame, ?_⟩
  show ((readUpTo before ([type.byte] ++ (bytes ++ after))).read 1 >>= _) = _
  rw [hbyte, ok_bind]
  dsimp only
  rw [hread, List.append_assoc]
  rfl

mutual

/-- What a tree was written as is read as a tree of the same structure, and no more is read. -/
theorem readValueBin_bin {v : Tree} (h : v.Ok) {depth : Nat} (hdepth : v.bin.length ≤ depth) (before after : List Byte) :
    ∃ v', Same v v' ∧
      readValueBin K depth (readUpTo before (v.bin ++ after)) = .ok (v', readUpTo (before ++ v.bin) after) := by
  cases v with
  | nil =>
    refine readValueBin_of_case .nil rfl hdepth fun d _ => ⟨.nil, .nil, ?_⟩
    unfold readCase
    rw [BinType.ofCode_byte, List.append_nil]
    rfl
  | integer v =>
    refine readValueBin_of_case .integer rfl hdepth fun d _ => ⟨.integer v, .integer, ?_⟩
    unfold readCase
    rw [BinType.ofCode_byte]
    exact Memfile.readType_integer v
  | real bits =>
    refine readValueBin_of_case .real rfl hdepth fun d _ => ⟨.real bits, .real, ?_⟩
    unfold readCase
    rw [BinType.ofCode_byte]
    exact Memfile.readType_real bits
  | boolean v =>
    cases v with
    | false =>
      refine readValueBin_of_case .booleanF rfl hdepth fun d _ => ⟨.boolean false, .boolean, ?_⟩
      unfold readCase
      rw [BinType.ofCode_byte, List.append_nil]
      rfl
    | true =>
      refine readValueBin_of_case .booleanT rfl hdepth fun d _ => ⟨.boolean true, .boolean, ?_⟩
      unfold readCase
      rw [BinType.ofCode_byte, List.append_nil]
      rfl
  | string bytes =>
    refine readValueBin_of_case .string rfl hdepth fun d _ => ⟨.string bytes, .string, ?_⟩
    unfold readCase
    rw [BinType.ofCode_byte]
    dsimp only
    rw [readBytes_readUpTo h, ok_bind]
  | dstring bytes =>
    refine readValueBin_of_case .dstring rfl hdepth fun d _ => ⟨.dstring bytes, .dstring, ?_⟩
    unfold readCase
    rw [BinType.ofCode_byte]
    dsimp only
    rw [readBytes_readUpTo h, ok_bind]
  | vectorD items =>
    refine readValueBin_of_case .vectorD rfl hdepth fun d _ => ⟨.vectorD items, .vectorD, ?_⟩
    unfold readCase
    rw [BinType.ofCode_byte]
    dsimp only
    rw [readVector (fun bits _ _ => readReal_readUpTo bits) h, ok_bind]
  | vectorU32 items =>
    refine readValueBin_of_case .vectorU32 rfl hdepth fun d _ => ⟨.vectorU32 items, .vectorU32, ?_⟩
    unfold readCase
    rw [BinType.ofCode_byte]
    dsimp only
    rw [readVector (fun v _ _ => readInteger_readUpTo v) h, ok_bind]
  | vectorS32 items =>
    refine readValueBin_of_case .vectorS32 rfl hdepth fun d _ => ⟨.vectorS32 items, .vectorS32, ?_⟩
    unfold readCase
    rw [BinType.ofCode_byte]
    dsimp only
    rw [readVector (fun v _ _ => readInteger_readUpTo v) h, ok_bind]
  | table items =>
    obtain ⟨hlength, hnodup, hitems⟩ := h
    refine readValueBin_of_case .table rfl hdepth fun d hd => ?_
    rw [List.length_append] at hd
    obtain ⟨order, t', hsame, hperm, hread⟩ := readItems_bin hitems hnodup (by omega : (binItems items).length ≤ d)
      (fun item hitem => absurd hitem List.not_mem_nil) (before ++ [BinType.table.byte] ++ binCount items.length) after
    rw [List.append_nil] at hperm
    refine ⟨.table t', .table hsame hperm.symm, ?_⟩
    unfold readCase
    rw [BinType.ofCode_byte]
    dsimp only
    rw [List.append_assoc (binCount _), readInto_readUpTo hlength, hread, ok_bind, List.append_assoc _ (binCount _)]
  | array items =>
    obtain ⟨hlength, hitems⟩ := h
    refine readValueBin_of_case .array rfl hdepth fun d hd => ?_
    rw [List.length_append] at hd
    obtain ⟨a, hsame, hread⟩ := readList_bin hitems (by omega : (binList items).length ≤ d) []
      (before ++ [BinType.array.byte] ++ binCount items.length) after
    refine ⟨.array a, .array hsame, ?_⟩
    unfold readCase
    rw [BinType.ofCode_byte]
    dsimp only
    rw [List.append_assoc (binCount _), readInto_readUpTo hlength, hread, ok_bind, List.append_assoc _ (binCount _)]
    rfl
  | other => exact h.elim

theorem readList_bin {vs : List Tree} (h : OkList vs) {depth : Nat} (hdepth : (binList vs).length ≤ depth)
    (acc : List Tree) (before after : List Byte) :
    ∃ vs', SameList vs vs' ∧
      loop (appendItem (readValueBin K depth)) vs.length (acc, readUpTo before (binList vs ++ after)) =
        .ok (acc ++ vs', readUpTo (before ++ binList vs) after) := by
  cases vs with
  | nil =>
    refine ⟨[], .nil, ?_⟩
    unfold binList
    rw [List.append_nil, List.append_nil]
    rfl
  | cons v vs =>
    unfold binList at hdepth ⊢
    rw [List.length_append] at hdepth
    obtain ⟨v', hv, hread⟩ := readValueBin_bin h.1 (by omega : v.bin.length ≤ depth) before (binList vs ++ after)
    obtain ⟨vs', hvs, hrest⟩ := readList_bin h.2 (by omega : (binList vs).length ≤ depth) (acc ++ [v'])
      (before ++ v.bin) after
    refine ⟨v' :: vs', .cons hv hvs, ?_⟩
    have hbody : appendItem (readValueBin K depth) (acc, readUpTo before (v.bin ++ (binList vs ++ after))) =
        .ok (acc ++ [v'], readUpTo (before ++ v.bin) (binList vs ++ after)) := by
      unfold appendItem
      rw [hread, ok_bind]
    rw [List.append_assoc, List.length_cons, loop_succ hbody, hrest, List.append_assoc, List.append_assoc]
    rfl

theorem readItems_bin {items : List (Tree × Tree)} (h : OkItems items) (hnodup : (items.map Prod.fst).Nodup)
    {depth : Nat} (hdepth : (binItems items).length ≤ depth) {t : List (Tree × Tree)}
    (ht : ∀ item ∈ t, item.1.PlainKey ∧ item.1 ∉ items.map Prod.fst) (before after : List Byte) :
    ∃ order t', SameItems items order ∧ t'.Perm (order ++ t) ∧
      loop (setItem K (readValueBin K depth)) items.length (t, readUpTo before (binItems items ++ after)) =
        .ok (t', readUpTo (before ++ binItems items) after) := by
  match items with
  | [] =>
    refine ⟨[], t, .nil, .refl _, ?_⟩
    unfold binItems
    rw [List.append_nil]
    rfl
  | (k, v) :: items =>
    obtain ⟨hplain, hk, hv, hitems⟩ := h
    unfold binItems at hdepth ⊢
    rw [List.length_append, List.length_append] at hdepth
    rw [List.map_cons, List.nodup_cons] at hnodup
    obtain ⟨k', hsame, hreadk⟩ := readValueBin_bin hk (by omega : k.bin.length ≤ depth) before
      (v.bin ++ (binItems items ++ after))
    obtain rfl := hsame.eq hplain
    obtain ⟨v', hsamev, hreadv⟩ := readValueBin_bin hv (by omega : v.bin.length ≤ depth) (before ++ k'.bin)
      (binItems items ++ after)
    have hnew : ∀ item ∈ t, K.same k' item.1 = false := by
      intro item hitem
      obtain ⟨hitemplain, hother⟩ := ht item hitem
      apply Bool.eq_false_iff.mpr
      intro heq
      apply hother
      rw [← (K.same_iff hplain hitemplain).mp heq]
      exact List.mem_cons_self
    have hperm : (setindex K t k' v').Perm ((k', v') :: t) := setindex_perm hnew
    have ht' : ∀ item ∈ setindex K t k' v', item.1.PlainKey ∧ item.1 ∉ items.map Prod.fst := by
      intro item hitem
      rcases List.mem_cons.mp (hperm.mem_iff.mp hitem) with rfl | hold
      · exact ⟨hplain, hnodup.1⟩
      · obtain ⟨hitemplain, hother⟩ := ht item hold
        exact ⟨hitemplain, fun hmem => hother (List.mem_cons_of_mem _ hmem)⟩
    obtain ⟨order, t', hsameitems, hperm', hrest⟩ := readItems_bin hitems hnodup.2
      (by omega : (binItems items).length ≤ depth) ht' (before ++ k'.bin ++ v.bin) after
    refine ⟨(k', v') :: order, t', .cons hsamev hsameitems, ?_, ?_⟩
    · exact hperm'.trans ((hperm.append_left order).trans List.perm_middle)
    · have hbody : setItem K (readValueBin K depth)
          (t, readUpTo before (k'.bin ++ (v.bin ++ (binItems items ++ after)))) =
          .ok (setindex K t k' v', readUpTo (before ++ k'.bin ++ v.bin) (binItems items ++ after)) := by
        unfold setItem
        rw [hreadk, ok_bind]
        dsimp only
        rw [hreadv, ok_bind]
      rw [List.append_assoc, List.append_assoc, List.length_cons, loop_succ hbody, hrest, List.append_assoc,
        List.append_assoc]

end

/-! ## The round trip -/

end Tree

end Eel
