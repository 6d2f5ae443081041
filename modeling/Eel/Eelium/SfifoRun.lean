-- SUMMARY: The FIFO is safe for one writer and one reader, in every interleaving of their steps.
import Eel.Eelium.Sfifo
import Eel.Lib.Machine

/-!
# Runs of the FIFO

The bytes that were accepted and not yet returned are in the buffer from the read position
on, followed by those that the writer has copied so far. Each party knows less than there
is: the other one can only make more space, or more bytes to read.
-/

namespace Eel.Sfifo

variable {k : Nat} {s : State} {pending : List Byte}

/-- The space that the writer has found for what it writes. -/
def Writer.claimed : Writer → Nat
  | .place _ total | .copy _ total _ => total
  | .idle | .write _ | .space _ _ => 0

/-- What the writer has put into the buffer. -/
def Writer.copied : Writer → List Byte
  | .copy buf _ c => buf.take c.copied
  | _ => []

/-- What the writer knows. -/
def Writer.Ok (size writepos : Nat) : Writer → Prop
  | .idle | .write _ => True
  | .space _ w => w = writepos
  | .place buf total => total ≤ buf.length
  | .copy buf total c => total ≤ buf.length ∧ c.Ok size writepos total

/-- What the reader knows: the write position it has seen is not past the one there is. -/
def Reader.Ok (size readpos : Nat) (pending : List Byte) : Reader → Prop
  | .idle | .read _ => True
  | .used _ w => w ≤ size ∧ ∃ t, t ≤ pending.length ∧ (readpos + t) % size = w % size
  | .place total => total ≤ pending.length
  | .copy buf total c => total ≤ pending.length ∧ c.Ok size readpos total ∧ buf = pending.take c.copied

/-- More bytes to read do not change what the reader knows. -/
theorem Reader.Ok.append {r : Reader} {size readpos : Nat} {bytes : List Byte} (h : r.Ok size readpos pending) :
    r.Ok size readpos (pending ++ bytes) := by
  have hle : pending.length ≤ (pending ++ bytes).length := by
    rw [List.length_append]
    exact Nat.le_add_right _ _
  cases r with
  | idle => trivial
  | read => trivial
  | used len w =>
    obtain ⟨hw, t, ht, hdistance⟩ := h
    exact ⟨hw, t, Nat.le_trans ht hle, hdistance⟩
  | place total => exact Nat.le_trans h hle
  | copy buf total c =>
    obtain ⟨htotal, hc, hbuf⟩ := h
    refine ⟨Nat.le_trans htotal hle, hc, ?_⟩
    rw [List.take_append_of_le_length (Nat.le_trans hc.copied_le htotal)]
    exact hbuf

/-- The bytes in `pending` are yet to be read, and are in the buffer. -/
structure State.Ok (k : Nat) (s : State) (pending : List Byte) : Prop where
  accepted_eq : s.accepted = s.returned ++ pending
  size_eq : s.fifo.size = 2 ^ k
  length_eq : s.fifo.buffer.length = 2 ^ k
  readpos_le : s.fifo.readpos ≤ 2 ^ k
  writepos_le : s.fifo.writepos ≤ 2 ^ k
  distance : (s.fifo.readpos + pending.length) % 2 ^ k = s.fifo.writepos % 2 ^ k
  room : pending.length + s.writer.claimed < 2 ^ k
  holds : Ring.Holds s.fifo.buffer s.fifo.readpos (pending ++ s.writer.copied)
  writer : s.writer.Ok (2 ^ k) s.fifo.writepos
  reader : s.reader.Ok (2 ^ k) s.fifo.readpos pending

namespace State.Ok

theorem init {buffer : List Byte} (hbuffer : buffer.length = 2 ^ k) : (State.init (2 ^ k) buffer).Ok k [] where
  accepted_eq := rfl
  size_eq := rfl
  length_eq := hbuffer
  readpos_le := Nat.zero_le _
  writepos_le := Nat.zero_le _
  distance := rfl
  room := Nat.two_pow_pos k
  holds := Ring.holds_nil
  writer := trivial
  reader := trivial

/-! ## Steps of the writer -/

/-- A step of the writer that leaves the FIFO alone. -/
theorem withWriter (h : s.Ok k pending) {writer : Writer} (hroom : pending.length + writer.claimed < 2 ^ k)
    (hcopied : writer.copied = s.writer.copied) (hwriter : writer.Ok (2 ^ k) s.fifo.writepos) :
    State.Ok k { s with writer := writer } pending :=
  { h with
    room := hroom
    holds := by
      show Ring.Holds s.fifo.buffer s.fifo.readpos (pending ++ writer.copied)
      rw [hcopied]
      exact h.holds
    writer := hwriter }

/-- The space that the writer sees is there, whatever the reader does from then on. -/
theorem space_room (h : s.Ok k pending) (hk : k ≤ 30) (len : Nat) :
    pending.length + min (space s.fifo.size s.fifo.writepos s.fifo.readpos) len < 2 ^ k := by
  have hroom := h.room
  have hused := used_eq_of_distance hk h.writepos_le h.readpos_le (by omega) h.distance
  unfold space
  rw [h.size_eq, hused]
  omega

theorem writeByte (h : s.Ok k pending) {buf : List Byte} {total : Nat} {c : Copy}
    (hs : s.writer = .copy buf total c) (hdone : c.done < c.n) :
    State.Ok k { s with
      fifo := { s.fifo with buffer := s.fifo.buffer.set c.cell (buf.getD c.copied 0) }
      writer := .copy buf total c.advance } pending := by
  have hwriter := h.writer
  have hroom := h.room
  have hholds := h.holds
  rw [hs] at hwriter hroom hholds
  obtain ⟨htotal, hc⟩ := hwriter
  have hlt : c.copied < buf.length := Nat.lt_of_lt_of_le (hc.copied_lt hdone) htotal
  have hlen : (pending ++ buf.take c.copied).length = pending.length + c.copied := by
    rw [List.length_append, List.length_take, Nat.min_eq_left (Nat.le_of_lt hlt)]
  have hcell : (s.fifo.readpos + (pending ++ buf.take c.copied).length) % s.fifo.buffer.length = c.cell := by
    rw [h.length_eq, hlen, ← Nat.add_assoc, Nat.add_mod, h.distance, ← Nat.add_mod, hc.cell_eq hdone]
  have hnext : buf.take c.copied ++ [buf.getD c.copied 0] = buf.take c.advance.copied := by
    show _ = buf.take (c.copied + 1)
    rw [List.take_add_one, List.getD_eq_getElem?_getD, List.getElem?_eq_getElem hlt]
    rfl
  have hfits : (pending ++ buf.take c.copied).length < s.fifo.buffer.length := by
    have := hc.copied_lt hdone
    rw [h.length_eq, hlen]
    exact Nat.lt_trans (Nat.add_lt_add_left this _) hroom
  have hset : Ring.Holds (s.fifo.buffer.set c.cell (buf.getD c.copied 0)) s.fifo.readpos
      (pending ++ buf.take c.advance.copied) := by
    rw [← hnext, ← List.append_assoc]
    exact Ring.Holds.set_next hholds hfits hcell
  exact { h with
    length_eq := List.length_set.trans h.length_eq
    room := hroom
    holds := hset
    writer := ⟨htotal, hc.advance hdone⟩ }

theorem writeSecond (h : s.Ok k pending) {buf : List Byte} {total len : Nat} {c : Copy}
    (hs : s.writer = .copy buf total c) (hdone : ¬c.done < c.n) (hrest : c.rest = some len) :
    State.Ok k { s with writer := .copy buf total (c.second len) } pending := by
  have hwriter := h.writer
  have hroom := h.room
  rw [hs] at hwriter hroom
  obtain ⟨htotal, hc⟩ := hwriter
  refine h.withWriter hroom ?_ ⟨htotal, hc.second hrest⟩
  rw [hs]
  show buf.take (c.second len).copied = buf.take c.copied
  rw [hc.copied_second hdone]

/-- The position is stored when all bytes are in place. -/
theorem writeEnd (h : s.Ok k pending) {buf : List Byte} {total : Nat} {c : Copy}
    (hs : s.writer = .copy buf total c) (hdone : ¬c.done < c.n) (hrest : c.rest = none) :
    State.Ok k { s with
      fifo := { s.fifo with writepos := c.i + c.n }
      writer := .idle
      accepted := s.accepted ++ buf.take total } (pending ++ buf.take total) := by
  have hwriter := h.writer
  have hroom := h.room
  have hholds := h.holds
  rw [hs] at hwriter hroom hholds
  obtain ⟨htotal, hc⟩ := hwriter
  obtain ⟨hcopied, hend⟩ := hc.copied_end hdone hrest
  have hholds' : Ring.Holds s.fifo.buffer s.fifo.readpos (pending ++ buf.take c.copied) := hholds
  rw [hcopied] at hholds'
  have hlen : (pending ++ buf.take total).length = pending.length + total := by
    rw [List.length_append, List.length_take, Nat.min_eq_left htotal]
  exact {
    accepted_eq := by
      show s.accepted ++ buf.take total = s.returned ++ (pending ++ buf.take total)
      rw [h.accepted_eq, List.append_assoc]
    size_eq := h.size_eq
    length_eq := h.length_eq
    readpos_le := h.readpos_le
    writepos_le := hc.inside
    distance := by
      show (s.fifo.readpos + (pending ++ buf.take total).length) % 2 ^ k = (c.i + c.n) % 2 ^ k
      rw [hlen, ← Nat.add_assoc, Nat.add_mod, h.distance, ← Nat.add_mod, hend]
    room := by
      show (pending ++ buf.take total).length + 0 < 2 ^ k
      rw [hlen]
      exact hroom
    holds := by
      show Ring.Holds s.fifo.buffer s.fifo.readpos (pending ++ buf.take total ++ [])
      rw [List.append_nil]
      exact hholds'
    writer := trivial
    reader := h.reader.append }

/-- Whatever the writer does next, the FIFO stays as it has to be. -/
theorem writeStep (h : s.Ok k pending) (hk : k ≤ 30) :
    let r := Sfifo.writeStep s.fifo s.writer
    State.Ok k { s with fifo := r.2.1, writer := r.2.2.1, accepted := s.accepted ++ r.2.2.2 } (pending ++ r.2.2.2) := by
  have hwriter := h.writer
  have hroom := h.room
  cases hs : s.writer with
  | idle =>
    rw [hs] at hroom
    dsimp only [Sfifo.writeStep]
    rw [List.append_nil, List.append_nil]
    exact h.withWriter hroom (hs ▸ rfl) trivial
  | write buf =>
    rw [hs] at hroom
    dsimp only [Sfifo.writeStep]
    rw [List.append_nil, List.append_nil]
    exact h.withWriter hroom (hs ▸ rfl) rfl
  | space buf w =>
    rw [hs] at hwriter
    obtain rfl : w = s.fifo.writepos := hwriter
    dsimp only [Sfifo.writeStep]
    rw [List.append_nil, List.append_nil]
    exact h.withWriter (h.space_room hk buf.length) (hs ▸ rfl) (Nat.min_le_right _ _)
  | place buf total =>
    rw [hs] at hwriter hroom
    have htotal : total ≤ 2 ^ k := Nat.le_of_lt (Nat.lt_of_le_of_lt (Nat.le_add_left _ _) hroom)
    dsimp only [Sfifo.writeStep]
    rw [List.append_nil, List.append_nil, h.size_eq]
    refine h.withWriter hroom ?_ ⟨hwriter, Copy.Ok.start h.writepos_le htotal⟩
    rw [hs]
    show buf.take (Copy.start (2 ^ k) s.fifo.writepos total).copied = []
    rw [Copy.copied_start]
    rfl
  | copy buf total c =>
    dsimp only [Sfifo.writeStep]
    split
    · rename_i hdone
      rw [List.append_nil, List.append_nil]
      exact h.writeByte hs hdone
    · rename_i hdone
      split
      · rename_i len hrest
        rw [List.append_nil, List.append_nil]
        exact h.writeSecond hs hdone hrest
      · rename_i hrest
        exact h.writeEnd hs hdone hrest

/-! ## Steps of the reader -/

/-- A step of the reader that leaves the FIFO alone. -/
theorem withReader (h : s.Ok k pending) {reader : Reader} (hreader : reader.Ok (2 ^ k) s.fifo.readpos pending) :
    State.Ok k { s with reader := reader } pending :=
  { h with reader := hreader }

/-- What the reader takes for used is there to read. -/
theorem used_le (h : s.Ok k pending) (hk : k ≤ 30) {len w : Nat} (hs : s.reader = .used len w) :
    min (used s.fifo.size w s.fifo.readpos) len ≤ pending.length := by
  have hreader := h.reader
  have hroom := h.room
  rw [hs] at hreader
  obtain ⟨hw, t, ht, hdistance⟩ := hreader
  rw [h.size_eq, used_eq_of_distance hk hw h.readpos_le (by omega) hdistance]
  exact Nat.le_trans (Nat.min_le_left _ _) ht

/-- The byte that is read is the next one. -/
theorem readByte (h : s.Ok k pending) {buf : List Byte} {total : Nat} {c : Copy}
    (hs : s.reader = .copy buf total c) (hdone : c.done < c.n) :
    State.Ok k { s with reader := .copy (buf ++ [s.fifo.buffer.getD c.cell 0]) total c.advance } pending := by
  have hreader := h.reader
  rw [hs] at hreader
  obtain ⟨htotal, hc, hbuf⟩ := hreader
  have hlt : c.copied < pending.length := Nat.lt_of_lt_of_le (hc.copied_lt hdone) htotal
  have hcell : (s.fifo.readpos + c.copied) % s.fifo.buffer.length = c.cell := by
    rw [h.length_eq]
    exact hc.cell_eq hdone
  refine h.withReader ⟨htotal, hc.advance hdone, ?_⟩
  show _ = pending.take (c.copied + 1)
  rw [List.take_add_one, List.getD_eq_getElem?_getD, h.holds.left.getElem?_eq hlt hcell, List.getElem?_eq_getElem hlt,
    hbuf]
  rfl

theorem readSecond (h : s.Ok k pending) {buf : List Byte} {total len : Nat} {c : Copy}
    (hs : s.reader = .copy buf total c) (hdone : ¬c.done < c.n) (hrest : c.rest = some len) :
    State.Ok k { s with reader := .copy buf total (c.second len) } pending := by
  have hreader := h.reader
  rw [hs] at hreader
  obtain ⟨htotal, hc, hbuf⟩ := hreader
  refine h.withReader ⟨htotal, hc.second hrest, ?_⟩
  rw [hc.copied_second hdone]
  exact hbuf

/-- The position is stored when all bytes have been read. -/
theorem readEnd (h : s.Ok k pending) {buf : List Byte} {total : Nat} {c : Copy}
    (hs : s.reader = .copy buf total c) (hdone : ¬c.done < c.n) (hrest : c.rest = none) :
    State.Ok k { s with
      fifo := { s.fifo with readpos := c.i + c.n }
      reader := .idle
      returned := s.returned ++ buf.take total } (pending.drop total) ∧ buf.take total = pending.take total := by
  have hreader := h.reader
  have hroom := h.room
  have hholds := h.holds
  rw [hs] at hreader
  obtain ⟨htotal, hc, hbuf⟩ := hreader
  obtain ⟨hcopied, hend⟩ := hc.copied_end hdone hrest
  have hbytes : buf.take total = pending.take total := by
    rw [hbuf, hcopied, List.take_take, Nat.min_self]
  have hlen : (pending.take total).length = total := by
    rw [List.length_take, Nat.min_eq_left htotal]
  rw [← List.take_append_drop total pending, List.append_assoc] at hholds
  have hplace : (c.i + c.n) % s.fifo.buffer.length =
      (s.fifo.readpos + (pending.take total).length) % s.fifo.buffer.length := by
    rw [hlen, h.length_eq, hend]
  refine ⟨?_, hbytes⟩
  exact {
    accepted_eq := by
      show s.accepted = s.returned ++ buf.take total ++ pending.drop total
      rw [hbytes, List.append_assoc, List.take_append_drop, h.accepted_eq]
    size_eq := h.size_eq
    length_eq := h.length_eq
    readpos_le := hc.inside
    writepos_le := h.writepos_le
    distance := by
      show (c.i + c.n + (pending.drop total).length) % 2 ^ k = s.fifo.writepos % 2 ^ k
      rw [Nat.add_mod, ← hend, ← Nat.add_mod, List.length_drop, Nat.add_assoc, Nat.add_sub_cancel' htotal, h.distance]
    room := by
      show (pending.drop total).length + s.writer.claimed < 2 ^ k
      rw [List.length_drop]
      omega
    holds := hholds.right.congr hplace
    writer := h.writer
    reader := trivial }

/-- Whatever the reader does next, the FIFO stays as it has to be, and it returns the bytes that come next. -/
theorem readStep (h : s.Ok k pending) (hk : k ≤ 30) :
    let r := Sfifo.readStep s.fifo s.reader
    ∃ rest, r.2.2.2 ++ rest = pending ∧
      State.Ok k { s with fifo := r.2.1, reader := r.2.2.1, returned := s.returned ++ r.2.2.2 } rest := by
  have hreader := h.reader
  cases hs : s.reader with
  | idle =>
    refine ⟨pending, rfl, ?_⟩
    dsimp only [Sfifo.readStep]
    rw [List.append_nil]
    exact h.withReader trivial
  | read len =>
    refine ⟨pending, rfl, ?_⟩
    dsimp only [Sfifo.readStep]
    rw [List.append_nil]
    exact h.withReader ⟨h.writepos_le, pending.length, Nat.le_refl _, h.distance⟩
  | used len w =>
    refine ⟨pending, rfl, ?_⟩
    dsimp only [Sfifo.readStep]
    rw [List.append_nil]
    exact h.withReader (h.used_le hk hs)
  | place total =>
    rw [hs] at hreader
    have hroom := h.room
    have htotal : total ≤ 2 ^ k := Nat.le_trans hreader (by omega)
    refine ⟨pending, rfl, ?_⟩
    dsimp only [Sfifo.readStep]
    rw [List.append_nil, h.size_eq]
    refine h.withReader ⟨hreader, Copy.Ok.start h.readpos_le htotal, ?_⟩
    rw [Copy.copied_start]
    rfl
  | copy buf total c =>
    dsimp only [Sfifo.readStep]
    split
    · rename_i hdone
      refine ⟨pending, rfl, ?_⟩
      rw [List.append_nil]
      exact h.readByte hs hdone
    · rename_i hdone
      split
      · rename_i len hrest
        refine ⟨pending, rfl, ?_⟩
        rw [List.append_nil]
        exact h.readSecond hs hdone hrest
      · rename_i hrest
        obtain ⟨hok, hbytes⟩ := h.readEnd hs hdone hrest
        refine ⟨pending.drop total, ?_, hok⟩
        rw [hbytes, List.take_append_drop]

/-! ## Runs -/

/-- A cell that a step touches is in the buffer. -/
theorem touched_lt (h : s.Ok k pending) {act : Act} {cell : Nat} (hcell : (s.step act).1 = some cell) :
    cell < 2 ^ k := by
  have hwriter := h.writer
  have hreader := h.reader
  cases act with
  | writer buf =>
    cases hs : s.writer with
    | copy buf total c =>
      rw [hs] at hwriter
      dsimp only [State.step] at hcell
      rw [hs] at hcell
      dsimp only [Sfifo.writeStep] at hcell
      split at hcell
      · rename_i hdone
        obtain rfl := Option.some.inj hcell
        exact hwriter.2.cell_lt hdone
      · split at hcell <;> cases hcell
    | _ =>
      dsimp only [State.step] at hcell
      rw [hs] at hcell
      cases hcell
  | reader len =>
    cases hs : s.reader with
    | copy buf total c =>
      rw [hs] at hreader
      dsimp only [State.step] at hcell
      rw [hs] at hcell
      dsimp only [Sfifo.readStep] at hcell
      split at hcell
      · rename_i hdone
        obtain rfl := Option.some.inj hcell
        exact hreader.2.1.cell_lt hdone
      · split at hcell <;> cases hcell
    | _ =>
      dsimp only [State.step] at hcell
      rw [hs] at hcell
      cases hcell

/-- One step of either party. -/
theorem step (hk : k ≤ 30) (h : ∃ pending, s.Ok k pending) (act : Act) : ∃ pending, (s.step act).2.Ok k pending := by
  obtain ⟨pending, h⟩ := h
  have hroom := h.room
  cases act with
  | writer buf =>
    cases hs : s.writer with
    | idle =>
      rw [hs] at hroom
      refine ⟨pending, ?_⟩
      dsimp only [State.step]
      rw [hs]
      exact h.withWriter hroom (hs ▸ rfl) trivial
    | _ =>
      have hstep := h.writeStep hk
      rw [hs] at hstep
      dsimp only [State.step]
      rw [hs]
      exact ⟨_, hstep⟩
  | reader len =>
    cases hs : s.reader with
    | idle =>
      refine ⟨pending, ?_⟩
      dsimp only [State.step]
      rw [hs]
      exact h.withReader trivial
    | _ =>
      obtain ⟨rest, _, hstep⟩ := h.readStep hk
      rw [hs] at hstep
      refine ⟨rest, ?_⟩
      dsimp only [State.step]
      rw [hs]
      exact hstep

theorem run (hk : k ≤ 30) (h : ∃ pending, s.Ok k pending) (acts : List Act) :
    (∃ pending, (Machine.run State.step s acts).2.Ok k pending) ∧
      ∀ cell, some cell ∈ (Machine.run State.step s acts).1 → cell < 2 ^ k := by
  have hstep : ∀ (s : State) (act : Act), (∃ pending, s.Ok k pending) →
      (∃ pending, (State.step s act).2.Ok k pending) ∧
        ∀ cell, (State.step s act).1 = some cell → cell < 2 ^ k := by
    intro s act hs
    refine ⟨step hk hs act, ?_⟩
    obtain ⟨pending, hs⟩ := hs
    exact fun cell hcell => hs.touched_lt hcell
  obtain ⟨hend, hout⟩ := @Machine.run_inv_out _ _ _ State.step (fun s => ∃ pending, s.Ok k pending)
    (fun o => ∀ cell, o = some cell → cell < 2 ^ k) hstep s h acts
  exact ⟨hend, fun cell hmem => hout _ hmem cell rfl⟩

end State.Ok

/-- The bytes that were accepted and not yet returned. -/
def State.unread (s : State) : List Byte := s.accepted.drop s.returned.length

/-- Nothing is lost, duplicated or overwritten before it is read. -/
structure State.Safe (s : State) : Prop where
  returned_prefix : s.returned <+: s.accepted
  unread_le : s.unread.length ≤ s.fifo.size - 1
  unread_used : used s.fifo.size s.fifo.writepos s.fifo.readpos = s.unread.length
  unread_held : Ring.Holds s.fifo.buffer s.fifo.readpos s.unread

theorem State.Ok.safe (h : s.Ok k pending) (hk : k ≤ 30) : s.Safe := by
  have hunread : s.unread = pending := by
    unfold State.unread
    rw [h.accepted_eq, List.drop_left]
  have hlt : pending.length < 2 ^ k := Nat.lt_of_le_of_lt (Nat.le_add_right _ _) h.room
  exact {
    returned_prefix := ⟨pending, h.accepted_eq.symm⟩
    unread_le := by
      rw [hunread, h.size_eq]
      exact Nat.le_sub_one_of_lt hlt
    unread_used := by
      rw [hunread, h.size_eq]
      exact used_eq_of_distance hk h.writepos_le h.readpos_le hlt h.distance
    unread_held := by
      rw [hunread]
      exact h.holds.left }

/-- In every run from an empty FIFO, the state is safe at every moment and every cell that is touched
is in the buffer. -/
theorem run_safe {k : Nat} (hk : k ≤ 30) {buffer : List Byte} (hbuffer : buffer.length = 2 ^ k) (acts : List Act) :
    (Machine.run State.step (State.init (2 ^ k) buffer) acts).2.Safe ∧
      ∀ cell, some cell ∈ (Machine.run State.step (State.init (2 ^ k) buffer) acts).1 → cell < buffer.length := by
  obtain ⟨⟨pending, hok⟩, hcells⟩ := State.Ok.run hk ⟨[], State.Ok.init hbuffer⟩ acts
  rw [hbuffer]
  exact ⟨hok.safe hk, hcells⟩

/-- The reader loads the write position before the writer stores it, and then the read position. -/
theorem run_safe_stale :
    (Machine.run State.step (State.init (2 ^ 1) [0, 0])
      [.writer [5, 6], .reader 2, .writer [], .writer [], .reader 2, .writer [], .writer [], .writer [],
        .reader 2, .reader 2, .reader 2]).2.Safe :=
  (run_safe (k := 1) (by decide) rfl _).1

end Eel.Sfifo
