-- SUMMARY: Memory files over the blocks of dynamic strings: reading, writing and moving the position.
import Eel.Core.DstringOps
import Eel.Script.Memfile

/-!
# Memory files in memory

Here a memory file has a dynamic string with its block. Blocks move, sums can be too large for
an `int`, and what is read is copied to memory that has other values in it.
-/

namespace Eel

def Xno.fileSeek : Xno := 60
def Xno.fileClosed : Xno := 66

namespace Buffer

/-- `eel_ds_write`, also of the characters of the dynamic string itself, where they were before. -/
def dsWritePiece (M : Memory) (pos : Int) (p : Piece) (ds : Buffer Byte) : Option (Xno × Buffer Byte) :=
  let len := p.s2len ds.length
  (CInt.check (pos + len)).bind fun last =>
  if ds.length ≤ last then
    (CInt.check (last + 1)).bind fun size =>
    (ds.dsSetsize M size).bind fun r =>
    if r.1 < 0 then some (Xno.memory, r.2)
    else
      (r.2.cells.fill ds.length (r.2.maxlength - ds.length) 0).bind fun cells =>
      (writePiece pos len p (moved M ds r.2) cells).map fun cells => (Xno.ok, ⟨last, r.2.maxlength, cells⟩)
  else (writePiece pos len p false ds.cells).map fun cells => (Xno.ok, { ds with cells := cells })

end Buffer

namespace Io

/-- `EEL_memfile`, with the dynamic string that is its buffer. -/
structure Memfile where
  buffer : Buffer Byte
  position : Int

/-- What `io_write` is called with. -/
inductive Operand where
  | integer (v : BitVec 32)
  | real (bits : BitVec 64)
  | text (p : Piece)
  | other

/-- The bytes that `io_write` writes of an operand. -/
def Operand.piece : Operand → Option Piece
  | integer v => some (.chars (BigEndian.encode 4 v.toNat))
  | real bits => some (.chars (BigEndian.encode 8 bits.toNat))
  | text p => some p
  | other => none

/-- The loop of `io_write`, for how a class writes the bytes of an operand. -/
def ioWrite {σ : Type} (write : Piece → σ → Option (Xno × Int × σ)) :
    List Operand → (count : Int) → σ → Option (Except Xno Int × σ)
  | [], count, f => some (.ok count, f)
  | v :: vs, count, f =>
    match v.piece with
    | none => some (.error Xno.arguments, f)
    | some p =>
      (write p f).bind fun (x, len, f) =>
        if x ≠ Xno.ok then some (.error x, f)
        else (CInt.check (count + len)).bind fun count => ioWrite write vs count f

namespace Memfile

/-- `io_write_memfile`. -/
def writeMemfile (M : Memory) (p : Piece) (mf : Memfile) : Option (Xno × Int × Memfile) :=
  let len := p.s2len mf.buffer.length
  (mf.buffer.dsWritePiece M mf.position p).bind fun (x, ds) =>
    if x ≠ Xno.ok then some (x, len, { mf with buffer := ds })
    else (CInt.check (mf.position + len)).map fun position => (Xno.ok, len, ⟨ds, position⟩)

/-- The dynamic string of `eel_ds_nnew`, for so many characters. `fresh` is what was in its memory before. -/
def dsNnew (fresh : Nat → Byte) (len : Int) : Option (Buffer Byte) :=
  (CInt.check (len + 1)).bind fun size =>
    (Block.store ((List.range size.toNat).map fun i => some (fresh i)) 0 0).map fun cells => ⟨0, size.toNat, cells⟩

/-- `io_read`. -/
def ioRead (fresh : Nat → Byte) (count : Int) (mf : Memfile) : Option (Except Xno (Buffer Byte) × Memfile) :=
  if count < 0 then some (.error Xno.lowValue, mf)
  else
    (dsNnew fresh count).bind fun ds =>
    if count = 0 then some (.ok ds, mf)
    else if mf.buffer.length ≤ mf.position then some (.error Xno.eof, mf)
    else
      (CInt.check (mf.position + count)).bind fun last =>
      let count := if mf.buffer.length < last then mf.buffer.length - mf.position else count
      (mf.buffer.cells.slice mf.position count).bind fun bytes =>
      (ds.cells.write 0 bytes).map fun cells =>
        (.ok { ds with length := count, cells := cells }, { mf with position := mf.position + count })

/-- `mf_setindex`, of the position. -/
def setPosition (iv : Int) (mf : Memfile) : Xno × Memfile :=
  if iv < 0 ∨ mf.buffer.length < iv then (Xno.fileSeek, mf) else (Xno.ok, { mf with position := iv })

end Memfile

/-! ## Runs -/

/-- What a script does with a memory file. Blocks of some sizes move when they are resized. -/
inductive MemfileOp where
  | read (fresh : Nat → Byte) (count : BitVec 32)
  | write (moves : Nat → Bool) (operands : List Operand)
  | seek (iv : BitVec 32)

inductive MemfileResult where
  | dstring (ds : Buffer Byte)
  | count (n : Int)
  | done
  | failed (x : Xno)

/-- The result of an operation. Memory suffices. -/
def Memfile.perform (mf : Memfile) : MemfileOp → Option (MemfileResult × Memfile)
  | .read fresh count =>
    (mf.ioRead fresh count.toInt).map fun
      | (.ok ds, mf) => (.dstring ds, mf)
      | (.error x, mf) => (.failed x, mf)
  | .write moves operands =>
    (ioWrite (Memfile.writeMemfile (.enough moves)) operands 0 mf).map fun
      | (.ok n, mf) => (.count n, mf)
      | (.error x, mf) => (.failed x, mf)
  | .seek iv =>
    match mf.setPosition iv.toInt with
    | (x, mf) => some (if x = Xno.ok then .done else .failed x, mf)

/-! ## Plain files -/

/-- What is to be seen of a result. -/
inductive PlainResult where
  | bytes (s : List Byte)
  | written (s : List Byte)
  | done
  | failed (x : Xno)

/-- Writes bytes at the position, and moves it behind them. -/
def plainPut (f : Eel.Memfile) (s : List Byte) : Eel.Memfile := ⟨dsWrite f.buffer f.position s, f.position + s.length⟩

/-- Writes one operand after the other. -/
def plainWrite : List Operand → (written : List Byte) → Eel.Memfile → PlainResult × Eel.Memfile
  | [], written, f => (.written written, f)
  | v :: vs, written, f =>
    match v.piece with
    | none => (.failed Xno.arguments, f)
    | some p => plainWrite vs (written ++ p.of f.buffer) (plainPut f (p.of f.buffer))

/-- Bytes of a plain file, and the end of it where there are none left. -/
def plainRead (f : Eel.Memfile) (count : Int) : PlainResult × Eel.Memfile :=
  if count < 0 then (.failed Xno.lowValue, f)
  else if f.position = f.buffer.length ∧ 0 < count then (.failed Xno.eof, f)
  else (.bytes ((f.buffer.drop f.position).take count.toNat),
    { f with position := min (f.position + count.toNat) f.buffer.length })

def plainSeek (f : Eel.Memfile) (iv : Int) : PlainResult × Eel.Memfile :=
  if 0 ≤ iv ∧ iv ≤ f.buffer.length then (.done, { f with position := iv.toNat }) else (.failed Xno.fileSeek, f)

def plainPerform (f : Eel.Memfile) : MemfileOp → PlainResult × Eel.Memfile
  | .read _ count => plainRead f count.toInt
  | .write _ operands => plainWrite operands [] f
  | .seek iv => plainSeek f iv.toInt

/-- A memory file has these bytes, with a terminator behind them, and its position is in them or at their end. -/
structure Memfile.Represents (mf : Memfile) (f : Eel.Memfile) : Prop where
  buffer : mf.buffer.IsDstring f.buffer
  position : mf.position = f.position
  inside : f.position ≤ f.buffer.length

/-- A result is what is to be seen. A dynamic string has its bytes with a terminator behind them. -/
def MemfileResult.Shows : MemfileResult → PlainResult → Prop
  | dstring ds, .bytes s => ds.IsDstring s
  | count n, .written s => n = s.length
  | done, .done => True
  | failed x, .failed y => x = y
  | _, _ => False

/-! ## Where things go wrong -/

/-- No sum overflows, and what is written of the buffer itself is written behind it, and is still where it was. -/
def Memfile.Takes (moves : Nat → Bool) (mf : Memfile) : Piece → Prop
  | .chars s => mf.position + s.length < 2 ^ 31 ∧
      (mf.position + s.length < mf.buffer.length ∨ Grows mf.buffer (mf.position + s.length + 1))
  | .self => mf.position = mf.buffer.length ∧ Grows mf.buffer (mf.position + mf.buffer.length + 1) ∧
      (mf.buffer.length = 0 ∨ Stays moves mf.buffer (mf.position + mf.buffer.length + 1))

/-- So for one operand after the other. -/
def Memfile.TakesAll (moves : Nat → Bool) : List Operand → Memfile → Prop
  | [], _ => True
  | v :: vs, mf => ∀ p, v.piece = some p → mf.Takes moves p ∧
      ∀ len mf', mf.writeMemfile (.enough moves) p = some (Xno.ok, len, mf') → TakesAll moves vs mf'

/-- For bytes that are read, there is a zero behind them in new memory, and no sum overflows. -/
def Memfile.Fine (mf : Memfile) : MemfileOp → Prop
  | .read fresh count => count.toInt < 2 ^ 31 - 1 ∧ (0 < count.toInt → mf.position < mf.buffer.length →
      mf.position + count.toInt < 2 ^ 31 ∧ fresh (min count.toInt (mf.buffer.length - mf.position)).toNat = 0)
  | .write moves operands => mf.TakesAll moves operands
  | .seek _ => True

/-- The states of runs of such operations, with the plain file that each stands for. -/
inductive MemfileReached (mf : Memfile) (f : Eel.Memfile) : Memfile → Eel.Memfile → Prop
  | start : MemfileReached mf f mf f
  | step {mf' mf'' : Memfile} {f' : Eel.Memfile} {op : MemfileOp} {result : MemfileResult}
      (h : MemfileReached mf f mf' f') (hfine : mf'.Fine op) (hstep : mf'.perform op = some (result, mf'')) :
      MemfileReached mf f mf'' (plainPerform f' op).2

end Io

end Eel
