-- SUMMARY: Files in memory: writing values to them and reading them back.
import Eel.Lib.BigEndian
import Eel.Script.Tree

/-!
# Files in memory

Memory is assumed to suffice, so the buffer always grows as it has to, and positions in it
are small enough for an `int`.
-/

namespace Eel

/-- `eel_ds_write`. -/
def dsWrite (buffer : List Byte) (pos : Nat) (s : List Byte) : List Byte :=
  let buffer :=
    if pos + s.length ≥ buffer.length then buffer ++ List.replicate (pos + s.length - buffer.length) 0 else buffer
  buffer.take pos ++ s ++ buffer.drop (pos + s.length)

/-- `EEL_memfile`. -/
structure Memfile where
  buffer : List Byte
  position : Nat

/-- The classes that `read_type` knows. -/
inductive ReadClass where
  | integer | real
  deriving DecidableEq

namespace ReadClass

/-- How many bytes to read. -/
def count : ReadClass → Nat
  | integer => 4
  | real => 8

def decode : ReadClass → List Byte → Tree
  | integer, buf => .integer (BitVec.ofNat 32 (BigEndian.decode buf))
  | real, buf => .real (BitVec.ofNat 64 (BigEndian.decode buf))

end ReadClass

namespace Memfile

/-- What `io_write` writes of an argument. -/
def encode : Tree → Option (List Byte)
  | .real bits => some (BigEndian.encode 8 bits.toNat)
  | .integer v => some (BigEndian.encode 4 v.toNat)
  | .string bytes | .dstring bytes => some bytes
  | _ => none

/-- `io_write`. -/
def write (mf : Memfile) : List Tree → Except Thrown Memfile
  | [] => .ok mf
  | arg :: args =>
    match encode arg with
    | some s => write { buffer := dsWrite mf.buffer mf.position s, position := mf.position + s.length } args
    | none => .error (.xno Xno.arguments)

/-- `io_read`, of a number of bytes. -/
def read (mf : Memfile) (count : BitVec 32) : Except Thrown (List Byte × Memfile) :=
  if count.toInt < 0 then .error (.xno Xno.lowValue)
  else if count.toInt.toNat = 0 then .ok ([], mf)
  else if mf.position ≥ mf.buffer.length then .error (.xno Xno.eof)
  else
    let count := min count.toInt.toNat (mf.buffer.length - mf.position)
    .ok ((mf.buffer.drop mf.position).take count, { mf with position := mf.position + count })

/-- `read_type`. -/
def readType (mf : Memfile) (cls : ReadClass) : Except Thrown (Tree × Memfile) :=
  if mf.position + cls.count > mf.buffer.length then .error (.xno Xno.eof)
  else
    .ok (cls.decode ((mf.buffer.drop mf.position).take cls.count), { mf with position := mf.position + cls.count })

/-! ## What is written is read -/

variable {before bytes after : List Byte}

theorem dsWrite_end : dsWrite before before.length bytes = before ++ bytes := by
  unfold dsWrite
  rw [if_pos (Nat.le_add_right _ _), Nat.add_sub_cancel_left]
  dsimp only
  rw [List.take_left,
    List.drop_of_length_le (by rw [List.length_append, List.length_replicate]), List.append_nil]

/-- A file that was written to its end. -/
def written (buffer : List Byte) : Memfile := ⟨buffer, buffer.length⟩

/-- A file that was read up to `after`. -/
def readUpTo (before after : List Byte) : Memfile := ⟨before ++ after, before.length⟩

theorem write_written {arg : Tree} {args : List Tree} (harg : encode arg = some bytes) :
    write (written before) (arg :: args) = write (written (before ++ bytes)) args := by
  show (match encode arg with
    | some s => write ⟨dsWrite before before.length s, before.length + s.length⟩ args
    | none => .error (.xno Xno.arguments)) = _
  rw [harg]
  dsimp only
  rw [dsWrite_end, ← List.length_append]
  rfl

theorem take_readUpTo : ((before ++ (bytes ++ after)).drop before.length).take bytes.length = bytes := by
  rw [List.drop_left, List.take_left]

theorem readUpTo_append :
    (⟨before ++ (bytes ++ after), before.length + bytes.length⟩ : Memfile) = readUpTo (before ++ bytes) after := by
  unfold readUpTo
  rw [List.append_assoc, List.length_append]

theorem toInt_ofNat_length {n : Nat} (h : n < 2 ^ 31) : (BitVec.ofNat 32 n).toInt = n := by
  rw [BitVec.toInt_ofNat', Int.bmod_eq_of_le (by omega) (by omega)]

/-- Bytes of which there are as many as an `int` can count are read as they were written. -/
theorem read_readUpTo (h : bytes.length < 2 ^ 31) :
    (readUpTo before (bytes ++ after)).read (BitVec.ofNat 32 bytes.length) =
      .ok (bytes, readUpTo (before ++ bytes) after) := by
  have hint := toInt_ofNat_length h
  unfold read
  rw [hint, if_neg (by omega), Int.toNat_natCast]
  cases bytes with
  | nil =>
    rw [List.append_nil]
    rfl
  | cons b bs =>
    rw [if_neg (by exact Nat.succ_ne_zero _), if_neg]
    · dsimp only
      have hmin : min (b :: bs).length
          ((readUpTo before (b :: bs ++ after)).buffer.length - (readUpTo before (b :: bs ++ after)).position) =
          (b :: bs).length := by
        unfold readUpTo
        dsimp only
        rw [List.length_append, List.length_append]
        omega
      rw [hmin]
      show Except.ok (((before ++ (b :: bs ++ after)).drop before.length).take (b :: bs).length,
        (⟨before ++ (b :: bs ++ after), before.length + (b :: bs).length⟩ : Memfile)) = _
      rw [take_readUpTo, readUpTo_append]
    · unfold readUpTo
      dsimp only
      rw [List.length_append, List.length_append, List.length_cons]
      omega

theorem readType_readUpTo {cls : ReadClass} (h : bytes.length = cls.count) :
    (readUpTo before (bytes ++ after)).readType cls = .ok (cls.decode bytes, readUpTo (before ++ bytes) after) := by
  unfold readType
  rw [if_neg]
  · show Except.ok (cls.decode (((before ++ (bytes ++ after)).drop before.length).take cls.count),
      (⟨before ++ (bytes ++ after), before.length + cls.count⟩ : Memfile)) = _
    rw [← h, take_readUpTo, readUpTo_append]
  · unfold readUpTo
    dsimp only
    rw [List.length_append, List.length_append]
    omega

/-- A number is read back. -/
theorem readType_integer (v : BitVec 32) :
    (readUpTo before (BigEndian.encode 4 v.toNat ++ after)).readType .integer =
      .ok (.integer v, readUpTo (before ++ BigEndian.encode 4 v.toNat) after) := by
  rw [readType_readUpTo (BigEndian.length_encode 4 v.toNat)]
  dsimp only [ReadClass.decode]
  rw [BigEndian.ofNat_decode_encode (Nat.le_refl 32)]

theorem readType_real (bits : BitVec 64) :
    (readUpTo before (BigEndian.encode 8 bits.toNat ++ after)).readType .real =
      .ok (.real bits, readUpTo (before ++ BigEndian.encode 8 bits.toNat) after) := by
  rw [readType_readUpTo (BigEndian.length_encode 8 bits.toNat)]
  dsimp only [ReadClass.decode]
  rw [BigEndian.ofNat_decode_encode (Nat.le_refl 64)]

end Memfile

end Eel
