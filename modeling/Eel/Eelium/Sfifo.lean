-- SUMMARY: The FIFO of Eelium: the steps of its two calls, and what one of them has copied so far.
import Eel.Core.Value
import Eel.Lib.Ring
import Mathlib.Data.List.TakeDrop

/-!
# The FIFO

One party writes and another reads, and they share nothing but the buffer and the two
positions. A call is a series of steps: a load of a position, a byte that is copied, or a
store of a position. The buffer has been allocated, and its size is at most `2 ^ 30`, so
that no sum of a position and a length is too large for an `int`.
-/

namespace Eel

/-- `sfifo_t`. Positions may stand at `size`, which is the same place as 0. -/
structure Sfifo where
  buffer : List Byte
  size : Nat
  readpos : Nat
  writepos : Nat

namespace Sfifo

/-- `sfifo_used`, of positions as they were read. -/
def used (size writepos readpos : Nat) : Nat :=
  ((BitVec.ofNat 32 writepos - BitVec.ofNat 32 readpos) &&& BitVec.ofNat 32 (size - 1)).toNat

/-- `sfifo_space`. -/
def space (size writepos readpos : Nat) : Nat := size - 1 - used size writepos readpos

/-- How far a call is with its copies: `done` of the `n` bytes at `i`, after `moved` bytes of an
earlier copy. -/
structure Copy where
  moved : Nat
  i : Nat
  n : Nat
  done : Nat
  /-- The length of the second copy, to or from the start of the buffer. -/
  rest : Option Nat

namespace Copy

/-- `len` bytes at `i`, in two parts if they do not fit there. -/
def start (size i len : Nat) : Copy :=
  if i + len > size then ⟨0, i, size - i, 0, some (len - (size - i))⟩ else ⟨0, i, len, 0, none⟩

def advance (c : Copy) : Copy := { c with done := c.done + 1 }

def second (c : Copy) (len : Nat) : Copy := ⟨c.moved + c.n, 0, len, 0, none⟩

/-- The bytes that have been copied. -/
def copied (c : Copy) : Nat := c.moved + c.done

/-- The cell that comes next. -/
def cell (c : Copy) : Nat := c.i + c.done

end Copy

/-- Where the writer is in `sfifo_write`: what it does next. -/
inductive Writer where
  | idle
  /-- Load `writepos`, for the space. -/
  | write (buf : List Byte)
  /-- Load `readpos`. -/
  | space (buf : List Byte) (writepos : Nat)
  /-- Load `writepos` for `i`. -/
  | place (buf : List Byte) (total : Nat)
  /-- Copy a byte, or else go on to the second copy, or else store `writepos`. -/
  | copy (buf : List Byte) (total : Nat) (c : Copy)

/-- Where the reader is in `sfifo_read`: what it does next. -/
inductive Reader where
  | idle
  /-- Load `writepos`. -/
  | read (len : Nat)
  /-- Load `readpos`, for what is used. -/
  | used (len : Nat) (writepos : Nat)
  /-- Load `readpos` for `i`. -/
  | place (total : Nat)
  /-- Copy a byte, or else go on to the second copy, or else store `readpos`. -/
  | copy (buf : List Byte) (total : Nat) (c : Copy)

/-- A step of `sfifo_write`: the cell it touches, what it leaves, and the bytes that were accepted
if the call is over. -/
def writeStep (f : Sfifo) : Writer → Option Nat × Sfifo × Writer × List Byte
  | .idle => (none, f, .idle, [])
  | .write buf => (none, f, .space buf f.writepos, [])
  | .space buf writepos => (none, f, .place buf (min (space f.size writepos f.readpos) buf.length), [])
  | .place buf total => (none, f, .copy buf total (.start f.size f.writepos total), [])
  | .copy buf total c =>
    if c.done < c.n then
      (some c.cell, { f with buffer := f.buffer.set c.cell (buf.getD c.copied 0) }, .copy buf total c.advance, [])
    else
      match c.rest with
      | some len => (none, f, .copy buf total (c.second len), [])
      | none => (none, { f with writepos := c.i + c.n }, .idle, buf.take total)

/-- A step of `sfifo_read`: the cell it touches, what it leaves, and the bytes that are returned
if the call is over. -/
def readStep (f : Sfifo) : Reader → Option Nat × Sfifo × Reader × List Byte
  | .idle => (none, f, .idle, [])
  | .read len => (none, f, .used len f.writepos, [])
  | .used len writepos => (none, f, .place (min (used f.size writepos f.readpos) len), [])
  | .place total => (none, f, .copy [] total (.start f.size f.readpos total), [])
  | .copy buf total c =>
    if c.done < c.n then
      (some c.cell, f, .copy (buf ++ [f.buffer.getD c.cell 0]) total c.advance, [])
    else
      match c.rest with
      | some len => (none, f, .copy buf total (c.second len), [])
      | none => (none, { f with readpos := c.i + c.n }, .idle, buf.take total)

/-- The FIFO and its two parties. -/
structure State where
  fifo : Sfifo
  writer : Writer
  reader : Reader
  /-- The bytes that calls of `sfifo_write` have accepted. -/
  accepted : List Byte
  /-- The bytes that calls of `sfifo_read` have returned. -/
  returned : List Byte

/-- Whose turn it is, and what is called for if that party is not in a call. -/
inductive Act where
  | writer (buf : List Byte)
  | reader (len : Nat)

namespace State

/-- After `sfifo_init`, with whatever is in the buffer. -/
def init (size : Nat) (buffer : List Byte) : State where
  fifo := { buffer := buffer, size := size, readpos := 0, writepos := 0 }
  writer := .idle
  reader := .idle
  accepted := []
  returned := []

/-- One step of one of the parties, and the cell it touches. -/
def step (s : State) : Act → Option Nat × State
  | .writer buf =>
    match s.writer with
    | .idle => (none, { s with writer := .write buf })
    | writer =>
      let (cell, fifo, writer, bytes) := writeStep s.fifo writer
      (cell, { s with fifo := fifo, writer := writer, accepted := s.accepted ++ bytes })
  | .reader len =>
    match s.reader with
    | .idle => (none, { s with reader := .read len })
    | reader =>
      let (cell, fifo, reader, bytes) := readStep s.fifo reader
      (cell, { s with fifo := fifo, reader := reader, returned := s.returned ++ bytes })

end State

/-! ## What is used -/

/-- The mask makes the distance one on the ring. -/
theorem used_eq {k : Nat} (hk : k ≤ 30) {writepos readpos : Nat} (hw : writepos ≤ 2 ^ k) (hr : readpos ≤ 2 ^ k) :
    used (2 ^ k) writepos readpos = (writepos + 2 ^ k - readpos) % 2 ^ k := by
  have hpow : 2 ^ k ≤ 2 ^ 30 := Nat.pow_le_pow_right (by omega) hk
  have hpos : 0 < 2 ^ k := Nat.two_pow_pos k
  obtain ⟨m, hm⟩ : 2 ^ k ∣ 2 ^ 32 := Nat.pow_dvd_pow 2 (by omega)
  have hm1 : 1 ≤ m := by
    rcases Nat.eq_zero_or_pos m with rfl | h
    · rw [Nat.mul_zero] at hm
      cases hm
    · exact h
  have hsum : 2 ^ 32 - readpos + writepos = writepos + 2 ^ k - readpos + 2 ^ k * (m - 1) := by
    have : 2 ^ 32 = 2 ^ k + 2 ^ k * (m - 1) := by
      rw [hm]
      obtain ⟨n, rfl⟩ : ∃ n, m = n + 1 := ⟨m - 1, by omega⟩
      rw [Nat.add_sub_cancel, Nat.mul_add, Nat.mul_one, Nat.add_comm]
    omega
  unfold used
  rw [BitVec.toNat_and, BitVec.toNat_sub, BitVec.toNat_ofNat, BitVec.toNat_ofNat, BitVec.toNat_ofNat,
    Nat.mod_eq_of_lt (by omega : writepos < 2 ^ 32), Nat.mod_eq_of_lt (by omega : readpos < 2 ^ 32),
    Nat.mod_eq_of_lt (by omega : 2 ^ k - 1 < 2 ^ 32), Nat.and_two_pow_sub_one_eq_mod,
    Nat.mod_mod_of_dvd _ ⟨m, hm⟩, hsum, Nat.add_mul_mod_self_left]

theorem used_eq_of_distance {k : Nat} (hk : k ≤ 30) {writepos readpos t : Nat} (hw : writepos ≤ 2 ^ k)
    (hr : readpos ≤ 2 ^ k) (ht : t < 2 ^ k) (h : (readpos + t) % 2 ^ k = writepos % 2 ^ k) :
    used (2 ^ k) writepos readpos = t := by
  rw [used_eq hk hw hr]
  exact Ring.distance_eq hr ht h

/-! ## Copies -/

theorem Copy.copied_start {size i len : Nat} : (Copy.start size i len).copied = 0 := by
  unfold Copy.start
  split
  · rfl
  · rfl

/-- A copy is on its way from the place `pos` on, round the end, and has `total` bytes to copy. -/
structure Copy.Ok (size pos total : Nat) (c : Copy) : Prop where
  place : (pos + c.moved) % size = c.i % size
  inside : c.i + c.n ≤ size
  done_le : c.done ≤ c.n
  last : c.rest = none → c.moved + c.n = total
  wraps : ∀ len, c.rest = some len → c.i + c.n = size ∧ c.moved + c.n + len = total ∧ len ≤ size

namespace Copy.Ok

variable {size pos total : Nat} {c : Copy}

theorem start (hpos : pos ≤ size) (htotal : total ≤ size) : Copy.Ok size pos total (.start size pos total) := by
  unfold Copy.start
  split
  · rename_i hover
    exact {
      place := rfl
      inside := by show pos + (size - pos) ≤ size; omega
      done_le := Nat.zero_le _
      last := nofun
      wraps := by
        rintro len ⟨⟩
        show pos + (size - pos) = size ∧ 0 + (size - pos) + (total - (size - pos)) = total ∧ _
        omega }
  · exact {
      place := rfl
      inside := by show pos + total ≤ size; omega
      done_le := Nat.zero_le _
      last := fun _ => Nat.zero_add total
      wraps := nofun }

theorem advance (h : c.Ok size pos total) (hdone : c.done < c.n) : c.advance.Ok size pos total where
  place := h.place
  inside := h.inside
  done_le := hdone
  last := h.last
  wraps := h.wraps

theorem second (h : c.Ok size pos total) {len : Nat} (hrest : c.rest = some len) :
    (c.second len).Ok size pos total where
  place := by
    obtain ⟨hend, _, _⟩ := h.wraps len hrest
    show (pos + (c.moved + c.n)) % size = 0 % size
    rw [← Nat.add_assoc, Nat.add_mod, h.place, ← Nat.add_mod, hend, Nat.mod_self, Nat.zero_mod]
  inside := by
    show 0 + len ≤ size
    have := (h.wraps len hrest).2.2
    omega
  done_le := Nat.zero_le _
  last _ := (h.wraps len hrest).2.1
  wraps := nofun

/-- The next cell is inside, and where the bytes copied so far end. -/
theorem cell_lt (h : c.Ok size pos total) (hdone : c.done < c.n) : c.cell < size := by
  have := h.inside
  unfold Copy.cell
  omega

theorem cell_eq (h : c.Ok size pos total) (hdone : c.done < c.n) : (pos + c.copied) % size = c.cell := by
  have hcell := h.cell_lt hdone
  unfold Copy.copied Copy.cell at *
  rw [← Nat.add_assoc, Nat.add_mod, h.place, ← Nat.add_mod, Nat.mod_eq_of_lt hcell]

theorem copied_lt (h : c.Ok size pos total) (hdone : c.done < c.n) : c.copied < total := by
  unfold Copy.copied
  cases hrest : c.rest with
  | none =>
    have := h.last hrest
    omega
  | some len =>
    have := (h.wraps len hrest).2.1
    omega

theorem copied_le (h : c.Ok size pos total) : c.copied ≤ total := by
  have := h.done_le
  unfold Copy.copied
  cases hrest : c.rest with
  | none =>
    have := h.last hrest
    omega
  | some len =>
    have := (h.wraps len hrest).2.1
    omega

theorem copied_second (h : c.Ok size pos total) (hdone : ¬c.done < c.n) {len : Nat} :
    (c.second len).copied = c.copied := by
  have := h.done_le
  unfold Copy.copied Copy.second
  dsimp only
  omega

/-- The last copy ends where the position is put. -/
theorem copied_end (h : c.Ok size pos total) (hdone : ¬c.done < c.n) (hrest : c.rest = none) :
    c.copied = total ∧ (pos + total) % size = (c.i + c.n) % size := by
  have hlast := h.last hrest
  have hle := h.done_le
  refine ⟨?_, ?_⟩
  · unfold Copy.copied
    omega
  · rw [← hlast, ← Nat.add_assoc, Nat.add_mod, h.place, ← Nat.add_mod]

end Copy.Ok

end Sfifo

end Eel
