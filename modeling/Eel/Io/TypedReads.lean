-- SUMMARY: Typed reads from files and memory files: what is written is read back, and what a short read returns.
import Eel.Io.MemfileLaw

/-!
# Typed reads

A file of the C library is its bytes and a position. `read_type` reads into a buffer on the
stack, which has `old` bytes in it.
-/

namespace Eel

namespace Io

/-- A file that can be read and written. -/
structure StdioFile where
  content : List Byte
  position : Nat
  deriving DecidableEq

namespace StdioFile

/-- What there is from the position on. -/
def rest (f : StdioFile) : List Byte := f.content.drop f.position

/-- `fread`. -/
def fread (n : Nat) (f : StdioFile) : List Byte × StdioFile :=
  (f.rest.take n, { f with position := f.position + (f.rest.take n).length })

/-- `fwrite`, to a device that has room. -/
def fwrite (s : List Byte) (f : StdioFile) : StdioFile :=
  ⟨overwrite f.content f.position s, f.position + s.length⟩

/-- `io_write_file`. No file is a dynamic string. -/
def writeFile (p : Piece) (f : StdioFile) : Option (Xno × Int × StdioFile) :=
  some (Xno.ok, ((p.of []).length : Int), f.fwrite (p.of []))

end StdioFile

/-- What `read_type` reads from. Closed files are `none`. -/
inductive Source where
  | file (f : Option StdioFile)
  | memfile (mf : Option Memfile)
  | string (buffer : List Byte)
  | dstring (ds : Buffer Byte)
  | other

/-- How many bytes to read for a class. -/
def readCount : Value → Except Xno ReadClass
  | .classid v => if v = 1 then .ok .real else if v = 2 then .ok .integer else .error Xno.notImplemented
  | _ => .error Xno.arguments

/-- The value that bytes are. -/
def decodeType : ReadClass → List Byte → Value
  | .real, buf => .real (BitVec.ofNat 64 (BigEndian.decode buf))
  | .integer, buf => .integer (BitVec.ofNat 32 (BigEndian.decode buf))

/-- The first `count` bytes of the buffer when bytes have been read. -/
def stackBuffer (old : Nat → Byte) (count : Nat) (s : List Byte) : List Byte :=
  s ++ ((List.range count).map old).drop s.length

/-- `read_type`, of a class that can be read. -/
def readClass (old : Nat → Byte) (cls : ReadClass) : Source → Option (Except Xno Value × Source)
  | .file none => some (.error Xno.fileClosed, .file none)
  | .file (some f) =>
    let (s, f) := f.fread cls.count
    if s.length ≠ cls.count ∧ s.length = 0 then some (.error Xno.eof, .file (some f))
    else some (.ok (decodeType cls (stackBuffer old cls.count s)), .file (some f))
  | .memfile none => some (.error Xno.fileClosed, .memfile none)
  | .memfile (some mf) =>
    (CInt.check (mf.position + cls.count)).bind fun last =>
    if mf.buffer.length < last then some (.error Xno.eof, .memfile (some mf))
    else
      (mf.buffer.cells.read mf.position cls.count).map fun s =>
        (.ok (decodeType cls s), .memfile (some { mf with position := last }))
  | .string buffer =>
    if buffer.length < cls.count then some (.error Xno.eof, .string buffer)
    else some (.ok (decodeType cls (buffer.take cls.count)), .string buffer)
  | .dstring ds =>
    if ds.length < cls.count then some (.error Xno.eof, .dstring ds)
    else (ds.cells.read 0 cls.count).map fun s => (.ok (decodeType cls s), .dstring ds)
  | .other => some (.error Xno.wrongType, .other)

/-- `read_type`. -/
def readType (old : Nat → Byte) (cls : Value) (src : Source) : Option (Except Xno Value × Source) :=
  match readCount cls with
  | .error x => some (.error x, src)
  | .ok cls => readClass old cls src

/-- Typed reads, one after the other. -/
def readTypes (old : Nat → Byte) : List Value → Source → Option (Except Xno (List Value) × Source)
  | [], src => some (.ok [], src)
  | cls :: rest, src =>
    (readType old cls src).bind fun
      | (.error x, src) => some (.error x, src)
      | (.ok v, src) =>
        (readTypes old rest src).map fun
          | (.ok vs, src) => (.ok (v :: vs), src)
          | (.error x, src) => (.error x, src)

/-- Values with a type that can be read. -/
inductive Typed where
  | integer (v : BitVec 32)
  | real (bits : BitVec 64)
  deriving DecidableEq

namespace Typed

def operand : Typed → Operand
  | integer v => .integer v
  | real bits => .real bits

def value : Typed → Value
  | integer v => .integer v
  | real bits => .real bits

def cls : Typed → ReadClass
  | integer _ => .integer
  | real _ => .real

/-- The class identifier to read the value with. -/
def classid : Typed → Value
  | integer _ => .classid 2
  | real _ => .classid 1

def bytes : Typed → List Byte
  | integer v => BigEndian.encode 4 v.toNat
  | real bits => BigEndian.encode 8 bits.toNat

end Typed

/-- A typed read is to return the next bytes as a value, or that they are too few. -/
def ReadsTyped (cls : ReadClass) (rest : List Byte) (src : Source) : Prop :=
  (cls.count ≤ rest.length →
    ∀ old, ∃ src', readClass old cls src = some (.ok (decodeType cls (rest.take cls.count)), src')) ∧
  (rest.length < cls.count → ∀ old, ∃ src', readClass old cls src = some (.error Xno.eof, src'))

section

variable {old : Nat → Byte} {cls : ReadClass} {f : StdioFile} {mf : Memfile} {g : Eel.Memfile} {moves : Nat → Bool}

/-! ## One read -/

theorem stackBuffer_full {s : List Byte} {n : Nat} (h : s.length = n) : stackBuffer old n s = s := by
  unfold stackBuffer
  rw [List.drop_eq_nil_of_le, List.append_nil]
  rw [List.length_map, List.length_range, h]

/-- A file with enough bytes. -/
theorem readClass_file (h : cls.count ≤ f.rest.length) :
    readClass old cls (.file (some f)) =
      some (.ok (decodeType cls (f.rest.take cls.count)),
        .file (some { f with position := f.position + cls.count })) := by
  have hlen : (f.rest.take cls.count).length = cls.count := List.length_take_of_le h
  unfold readClass StdioFile.fread
  dsimp only
  rw [if_neg fun hshort => hshort.1 hlen, hlen, stackBuffer_full hlen]

/-- At the end of a file. -/
theorem readClass_file_end (h : f.rest = []) :
    ∃ src, readClass old cls (.file (some f)) = some (.error Xno.eof, src) := by
  have hpos : (0 : Nat) ≠ cls.count := by
    cases cls <;> decide
  unfold readClass StdioFile.fread
  dsimp only
  rw [h, List.take_nil]
  exact ⟨_, if_pos ⟨hpos, rfl⟩⟩

/-- Before the end of a file, something is always returned. -/
theorem readClass_file_short (h : f.rest ≠ []) :
    readClass old cls (.file (some f)) =
      some (.ok (decodeType cls (stackBuffer old cls.count (f.rest.take cls.count))),
        .file (some { f with position := f.position + (f.rest.take cls.count).length })) := by
  have hpos : cls.count ≠ 0 := by
    cases cls <;> decide
  have hlen : (f.rest.take cls.count).length ≠ 0 := by
    rw [List.length_take]
    have hrest := List.length_pos_iff.mpr h
    omega
  unfold readClass StdioFile.fread
  dsimp only
  rw [if_neg fun hshort => hlen hshort.2]

theorem readsTyped_file_iff :
    ReadsTyped cls f.rest (.file (some f)) ↔ ¬ (0 < f.rest.length ∧ f.rest.length < cls.count) := by
  constructor
  · rintro ⟨-, hshort⟩ ⟨hpos, hlt⟩
    obtain ⟨src, hread⟩ := hshort hlt fun _ => 0
    rw [readClass_file_short (List.length_pos_iff.mp hpos)] at hread
    cases hread
  · intro hnot
    refine ⟨fun hle old => ⟨_, readClass_file hle⟩, fun hlt old => readClass_file_end ?_⟩
    exact List.length_eq_zero_iff.mp (Nat.eq_zero_of_not_pos fun hpos => hnot ⟨hpos, hlt⟩)

/-- A memory file with enough bytes. -/
theorem readClass_memfile (h : mf.Represents g) (hle : g.position + cls.count ≤ g.buffer.length) :
    readClass old cls (.memfile (some mf)) =
      some (.ok (decodeType cls ((g.buffer.drop g.position).take cls.count)),
        .memfile (some { mf with position := ((g.position + cls.count : Nat) : Int) })) := by
  have hlen := h.buffer.length_eq
  have hmax := h.buffer.length_lt
  unfold readClass
  dsimp only
  rw [h.position, CInt.check_eq_some.mpr ⟨⟨by omega, by omega⟩, rfl⟩, Option.bind_some, if_neg (by omega),
    Block.read_items h.buffer.stored hle rfl]
  rfl

/-- A memory file with too few bytes. -/
theorem readClass_memfile_short (h : mf.Represents g) (hlt : g.buffer.length < g.position + cls.count) :
    readClass old cls (.memfile (some mf)) =
      if mf.position + cls.count < 2 ^ 31 then some (.error Xno.eof, .memfile (some mf)) else none := by
  have hlen := h.buffer.length_eq
  have hpos := h.position
  unfold readClass
  dsimp only
  split
  · next hsum =>
    rw [CInt.check_eq_some.mpr ⟨⟨by omega, hsum⟩, rfl⟩, Option.bind_some, if_pos (by omega)]
  · next hsum =>
    have hnone : CInt.check (mf.position + cls.count) = none := by
      refine Option.eq_none_iff_forall_ne_some.mpr fun x hx => hsum ?_
      exact (CInt.check_eq_some.mp hx).1.2
    rw [hnone]
    rfl

theorem readsTyped_memfile_iff (h : mf.Represents g) :
    ReadsTyped cls (g.buffer.drop g.position) (.memfile (some mf)) ↔
      ¬ (g.buffer.length < g.position + cls.count ∧ 2 ^ 31 ≤ mf.position + cls.count) := by
  have hinside := h.inside
  have hrest : (g.buffer.drop g.position).length = g.buffer.length - g.position := List.length_drop
  constructor
  · rintro ⟨-, hshort⟩ ⟨hlt, hsum⟩
    obtain ⟨src, hread⟩ := hshort (by omega) fun _ => 0
    rw [readClass_memfile_short h hlt, if_neg (by omega)] at hread
    cases hread
  · intro hnot
    refine ⟨fun hle old => ⟨_, readClass_memfile h (by omega)⟩, fun hlt old => ⟨.memfile (some mf), ?_⟩⟩
    rw [readClass_memfile_short h (by omega)]
    refine if_pos (Int.lt_of_not_ge fun hsum => hnot ⟨by omega, hsum⟩)

/-! ## Round trips -/

namespace Typed

variable {v : Typed} {vs : List Typed} {tail : List Byte}

theorem length_bytes (v : Typed) : v.bytes.length = v.cls.count := by
  cases v <;> exact BigEndian.length_encode ..

theorem decode_bytes (v : Typed) : decodeType v.cls v.bytes = v.value := by
  cases v with
  | integer v => exact congrArg Value.integer (BigEndian.ofNat_decode_encode (Nat.le_refl 32) v)
  | real bits => exact congrArg Value.real (BigEndian.ofNat_decode_encode (Nat.le_refl 64) bits)

theorem readType_classid (v : Typed) (src : Source) : readType old v.classid src = readClass old v.cls src := by
  cases v <;> rfl

theorem piece_operand (v : Typed) : v.operand.piece = some (.chars v.bytes) := by
  cases v <;> rfl

end Typed

/-- The bytes of typed values. -/
def typedBytes (vs : List Typed) : List Byte := vs.flatMap Typed.bytes

/-- A value and those behind it. -/
theorem readTypes_cons {src src' src'' : Source}
    (hclass : readClass old v.cls src = some (.ok (decodeType v.cls v.bytes), src'))
    (hrest : readTypes old (vs.map Typed.classid) src' = some (.ok (vs.map Typed.value), src'')) :
    readTypes old ((v :: vs).map Typed.classid) src = some (.ok ((v :: vs).map Typed.value), src'') := by
  rw [List.map_cons]
  unfold readTypes
  rw [v.readType_classid, hclass, v.decode_bytes, Option.bind_some]
  dsimp only
  rw [hrest]
  rfl

/-- Values that are next in a file are read. -/
theorem readTypes_file (vs : List Typed) {tail : List Byte} (h : f.rest = typedBytes vs ++ tail) :
    ∃ src, readTypes old (vs.map Typed.classid) (.file (some f)) = some (.ok (vs.map Typed.value), src) := by
  induction vs generalizing f with
  | nil => exact ⟨_, rfl⟩
  | cons v vs ih =>
    have hrest : f.rest = v.bytes ++ (typedBytes vs ++ tail) := by
      rw [h]
      exact List.append_assoc ..
    have hle : v.cls.count ≤ f.rest.length := by
      rw [hrest, List.length_append, v.length_bytes]
      exact Nat.le_add_right ..
    have hnext : StdioFile.rest { f with position := f.position + v.cls.count } = typedBytes vs ++ tail := by
      show f.content.drop (f.position + v.cls.count) = _
      rw [← List.drop_drop]
      show f.rest.drop _ = _
      rw [hrest, ← v.length_bytes, List.drop_left]
    obtain ⟨src, hread⟩ := ih hnext
    refine ⟨src, readTypes_cons ?_ hread⟩
    rw [readClass_file hle, hrest, ← v.length_bytes, List.take_left]

/-- So are those that are next in a memory file. -/
theorem readTypes_memfile (vs : List Typed) {tail : List Byte} (h : mf.Represents g)
    (hrest : g.buffer.drop g.position = typedBytes vs ++ tail) :
    ∃ src, readTypes old (vs.map Typed.classid) (.memfile (some mf)) = some (.ok (vs.map Typed.value), src) := by
  induction vs generalizing mf g with
  | nil => exact ⟨_, rfl⟩
  | cons v vs ih =>
    have hrest' : g.buffer.drop g.position = v.bytes ++ (typedBytes vs ++ tail) := by
      rw [hrest]
      exact List.append_assoc ..
    have hle : g.position + v.cls.count ≤ g.buffer.length := by
      have hlen := congrArg List.length hrest'
      have hinside := h.inside
      rw [List.length_drop, List.length_append, v.length_bytes] at hlen
      omega
    have hnext : g.buffer.drop (g.position + v.cls.count) = typedBytes vs ++ tail := by
      rw [← List.drop_drop, hrest', ← v.length_bytes, List.drop_left]
    have hrep : Memfile.Represents { mf with position := ((g.position + v.cls.count : Nat) : Int) }
        ⟨g.buffer, g.position + v.cls.count⟩ := ⟨h.buffer, rfl, hle⟩
    obtain ⟨src, hread⟩ := ih hrep hnext
    refine ⟨src, readTypes_cons ?_ hread⟩
    rw [readClass_memfile h hle, hrest', ← v.length_bytes, List.take_left]

/-! ### Writing -/

/-- What is written of typed values are their bytes. -/
theorem plainWrite_typed (vs : List Typed) (written : List Byte) (g : Eel.Memfile) :
    (plainWrite (vs.map Typed.operand) written g).1 = .written (written ++ typedBytes vs) := by
  induction vs generalizing written g with
  | nil => exact congrArg PlainResult.written (List.append_nil _).symm
  | cons v vs ih =>
    rw [List.map_cons]
    unfold plainWrite
    rw [v.piece_operand]
    refine (ih _ _).trans (congrArg PlainResult.written ?_)
    exact List.append_assoc ..

/-- A position behind the end of a file is as one at the end, behind zeros. -/
theorem overwrite_pad (items : List Byte) (pos : Nat) (s : List Byte) :
    overwrite (items ++ List.replicate (pos - items.length) 0) pos s = overwrite items pos s := by
  rcases Nat.le_total pos items.length with hle | hge
  · rw [Nat.sub_eq_zero_of_le hle, List.replicate_zero, List.append_nil]
  · have hlen : (items ++ List.replicate (pos - items.length) (0 : Byte)).length = pos := by
      rw [List.length_append, List.length_replicate]
      omega
    unfold overwrite
    rw [hlen, Nat.sub_self, List.replicate_zero, List.append_nil, List.take_of_length_le (Nat.le_of_eq hlen),
      List.take_of_length_le hge, List.drop_eq_nil_of_le (by omega), List.drop_eq_nil_of_le (by omega)]

/-- A value that is written to a file. -/
theorem ioWrite_file_cons (v : Typed) (vs : List Typed) (c : Int) (f : StdioFile) :
    ioWrite StdioFile.writeFile ((v :: vs).map Typed.operand) c f =
      (CInt.check (c + v.bytes.length)).bind fun count =>
        ioWrite StdioFile.writeFile (vs.map Typed.operand) count (f.fwrite v.bytes) := by
  rw [List.map_cons]
  conv => lhs; unfold ioWrite
  rw [v.piece_operand]
  unfold StdioFile.writeFile
  dsimp only
  rw [Option.bind_some]
  exact if_neg (not_not_intro rfl)

/-- A file is written as a plain one. -/
theorem ioWrite_file (vs : List Typed) {c n : Int} {f' : StdioFile} (written : List Byte)
    (hinside : f.position ≤ f.content.length)
    (h : ioWrite StdioFile.writeFile (vs.map Typed.operand) c f = some (.ok n, f')) :
    (plainWrite (vs.map Typed.operand) written ⟨f.content, f.position⟩).2 = ⟨f'.content, f'.position⟩ := by
  induction vs generalizing c f written with
  | nil =>
    obtain ⟨-, rfl⟩ := Prod.mk.inj (Option.some.inj h)
    rfl
  | cons v vs ih =>
    rw [ioWrite_file_cons] at h
    obtain ⟨count, -, hrest⟩ := Option.bind_eq_some_iff.mp h
    rw [List.map_cons]
    unfold plainWrite
    rw [v.piece_operand]
    have hput : plainPut ⟨f.content, f.position⟩ v.bytes =
        ⟨(f.fwrite v.bytes).content, (f.fwrite v.bytes).position⟩ := by
      unfold plainPut StdioFile.fwrite
      dsimp only
      rw [dsWrite_eq_overwrite hinside]
    have hinside' : (f.fwrite v.bytes).position ≤ (f.fwrite v.bytes).content.length := by
      show f.position + v.bytes.length ≤ (overwrite f.content f.position v.bytes).length
      rw [length_overwrite hinside]
      exact Nat.le_max_right ..
    show (plainWrite _ _ (plainPut ⟨f.content, f.position⟩ v.bytes)).2 = _
    rw [hput]
    exact ih _ hinside' hrest

/-- The bytes of the values are in the file from the old position on. -/
theorem ioWrite_file_rest (vs : List Typed) {n : Int} {f' : StdioFile}
    (h : ioWrite StdioFile.writeFile (vs.map Typed.operand) 0 f = some (.ok n, f')) :
    ∃ tail, f'.content.drop f.position = typedBytes vs ++ tail := by
  cases vs with
  | nil => exact ⟨_, rfl⟩
  | cons v vs =>
    let padded : StdioFile := ⟨f.content ++ List.replicate (f.position - f.content.length) 0, f.position⟩
    have hinside : padded.position ≤ padded.content.length := by
      show f.position ≤ (f.content ++ List.replicate (f.position - f.content.length) 0).length
      rw [List.length_append, List.length_replicate]
      omega
    have hfwrite (s : List Byte) : padded.fwrite s = f.fwrite s := by
      unfold StdioFile.fwrite
      rw [show overwrite padded.content padded.position s = overwrite f.content f.position s from overwrite_pad ..]
    have hpadded : ioWrite StdioFile.writeFile ((v :: vs).map Typed.operand) 0 padded = some (.ok n, f') := by
      rw [ioWrite_file_cons] at h ⊢
      rw [hfwrite]
      exact h
    have hfst := plainWrite_typed (v :: vs) [] ⟨padded.content, padded.position⟩
    have hsnd := ioWrite_file (v :: vs) [] hinside hpadded
    obtain ⟨t, ht, htake, -, -⟩ :=
      plainWrite_spec (f := ⟨padded.content, padded.position⟩) _ hinside (Prod.ext hfst hsnd)
    obtain rfl : typedBytes (v :: vs) = t := ht
    refine ⟨(f'.content.drop f.position).drop (typedBytes (v :: vs)).length, ?_⟩
    conv => rhs; arg 1; rw [← htake]
    exact (List.take_append_drop ..).symm

/-- Bytes for which there is a result fit. -/
theorem takes_of_write {s : List Byte} {result : Xno × Int × Memfile}
    (h : mf.writeMemfile (.enough moves) (.chars s) = some result) : mf.Takes moves (.chars s) := by
  obtain ⟨⟨x, ds⟩, hwrite, -⟩ := Option.bind_eq_some_iff.mp h
  obtain ⟨last, hlast, hwrite⟩ := Option.bind_eq_some_iff.mp hwrite
  obtain ⟨hrange, rfl⟩ := CInt.check_eq_some.mp hlast
  refine ⟨hrange.2, ?_⟩
  change (if mf.buffer.length ≤ mf.position + s.length then _ else _) = _ at hwrite
  split at hwrite
  · obtain ⟨size, hsize, hwrite⟩ := Option.bind_eq_some_iff.mp hwrite
    obtain ⟨hsizes, rfl⟩ := CInt.check_eq_some.mp hsize
    obtain ⟨r, hset, -⟩ := Option.bind_eq_some_iff.mp hwrite
    obtain ⟨k, hk, -⟩ := Option.bind_eq_some_iff.mp hset
    exact .inr ⟨hsizes.2, k, hk⟩
  · exact .inl (by omega)

theorem takesAll_of_write (vs : List Typed) {c n : Int} {mf' : Memfile} (h : mf.Represents g)
    (hwrite : ioWrite (Memfile.writeMemfile (.enough moves)) (vs.map Typed.operand) c mf = some (.ok n, mf')) :
    mf.TakesAll moves (vs.map Typed.operand) := by
  induction vs generalizing c mf g with
  | nil => trivial
  | cons v vs ih =>
    rw [List.map_cons] at hwrite ⊢
    unfold ioWrite at hwrite
    rw [v.piece_operand] at hwrite
    obtain ⟨⟨x, len, mf₁⟩, hfirst, hrest⟩ := Option.bind_eq_some_iff.mp hwrite
    have htakes := takes_of_write hfirst
    obtain ⟨mf₂, hspec, hrep⟩ := writeMemfile_spec h htakes
    intro p hp
    obtain rfl : Piece.chars v.bytes = p := Option.some.inj (v.piece_operand.symm.trans hp)
    refine ⟨htakes, fun len' mf₃ hsame => ?_⟩
    obtain ⟨rfl, rfl⟩ := Prod.mk.inj (Prod.mk.inj (Option.some.inj (hsame.symm.trans hspec))).2
    obtain ⟨rfl, heq⟩ := Prod.mk.inj (Option.some.inj (hfirst.symm.trans hspec))
    obtain ⟨rfl, rfl⟩ := Prod.mk.inj heq
    dsimp only at hrest
    rw [if_neg (not_not_intro rfl)] at hrest
    obtain ⟨count, -, hrest⟩ := Option.bind_eq_some_iff.mp hrest
    exact ih hrep hrest

end

end Io

/-- Values that have been written are read back by their types from the same position, from a file and from a memory
file. A read of too few bytes returns that, unless it is from a file with some of them left, or the position
is too close to the largest `int`. -/
theorem typedReads_iff (old : Nat → Byte) (moves : Nat → Bool) (cls : ReadClass) :
    (∀ (vs : List Io.Typed) f n f', Io.ioWrite Io.StdioFile.writeFile (vs.map Io.Typed.operand) 0 f = some (.ok n, f') →
      ∃ src, Io.readTypes old (vs.map Io.Typed.classid) (.file (some { f' with position := f.position })) =
        some (.ok (vs.map Io.Typed.value), src)) ∧
    (∀ (vs : List Io.Typed) mf g n mf', mf.Represents g →
      Io.ioWrite (Io.Memfile.writeMemfile (.enough moves)) (vs.map Io.Typed.operand) 0 mf = some (.ok n, mf') →
      ∃ src, Io.readTypes old (vs.map Io.Typed.classid) (.memfile (some { mf' with position := mf.position })) =
        some (.ok (vs.map Io.Typed.value), src)) ∧
    (∀ f : Io.StdioFile, Io.ReadsTyped cls f.rest (.file (some f)) ↔
      ¬ (0 < f.rest.length ∧ f.rest.length < cls.count)) ∧
    ∀ (mf : Io.Memfile) g, mf.Represents g → (Io.ReadsTyped cls (g.buffer.drop g.position) (.memfile (some mf)) ↔
      ¬ (g.buffer.length < g.position + cls.count ∧ 2 ^ 31 ≤ mf.position + cls.count)) := by
  refine ⟨fun vs f n f' hwrite => ?_, fun vs mf g n mf' h hwrite => ?_, fun f => Io.readsTyped_file_iff,
    fun mf g h => Io.readsTyped_memfile_iff h⟩
  · obtain ⟨tail, hrest⟩ := Io.ioWrite_file_rest vs hwrite
    exact Io.readTypes_file vs hrest
  · obtain ⟨result, mf'', hspec, hshows, hrep⟩ :=
      Io.ioWrite_spec (vs.map Io.Typed.operand) [] h (Io.takesAll_of_write vs h hwrite) (Nat.zero_le _)
    obtain ⟨rfl, rfl⟩ := Prod.mk.inj (Option.some.inj (hwrite.symm.trans hspec))
    obtain ⟨g', hg'⟩ : ∃ g', (Io.plainWrite (vs.map Io.Typed.operand) [] g).2 = g' := ⟨_, rfl⟩
    obtain ⟨t, ht, htake, hend, -⟩ := Io.plainWrite_spec _ h.inside (Prod.ext (Io.plainWrite_typed vs [] g) hg')
    obtain rfl : Io.typedBytes vs = t := ht
    rw [hg'] at hrep
    have hrest : g'.buffer.drop g.position =
        Io.typedBytes vs ++ (g'.buffer.drop g.position).drop (Io.typedBytes vs).length := by
      conv => rhs; arg 1; rw [← htake]
      exact (List.take_append_drop ..).symm
    refine Io.readTypes_memfile vs (g := ⟨g'.buffer, g.position⟩) ⟨hrep.buffer, h.position, ?_⟩ hrest
    exact Nat.le_trans (Nat.le_add_right ..) hend

/-- An integer and a real in a file. -/
theorem typedReads_two :
    let vs : List Io.Typed := [.integer 5, .real 7]
    ∃ f' src, Io.ioWrite Io.StdioFile.writeFile (vs.map Io.Typed.operand) 0 ⟨[], 0⟩ = some (.ok 12, f') ∧
      Io.readTypes (fun _ => 0) (vs.map Io.Typed.classid) (.file (some { f' with position := 0 })) =
        some (.ok (vs.map Io.Typed.value), src) := by
  intro vs
  obtain ⟨src, hread⟩ := (typedReads_iff (fun _ => 0) (fun _ => false) .integer).1 vs ⟨[], 0⟩ 12
    ⟨Io.typedBytes vs, 12⟩ (by decide)
  exact ⟨_, src, by decide, hread⟩

/-- Of three bytes that are left in a file, and one of the stack, an integer is made. -/
theorem not_readsTyped_three :
    let f : Io.StdioFile := ⟨[1, 2, 3], 0⟩
    (Io.readClass (fun _ => 7) .integer (.file (some f))).map Prod.fst = some (.ok (.integer 0x01020307)) ∧
      ¬ Io.ReadsTyped .integer f.rest (.file (some f)) := by
  intro f
  refine ⟨rfl, ?_⟩
  rintro ⟨-, hshort⟩
  obtain ⟨src, hread⟩ := hshort (by decide) fun _ => 7
  cases hread

end Eel
