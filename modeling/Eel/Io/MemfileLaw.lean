-- SUMMARY: A memory file is a plain file: its reads, writes and changes of position over whole runs.
import Eel.Core.DstringRun
import Eel.Io.Memfile

/-!
# The law of memory files
-/

namespace Eel

/-- Inside a file and at its end, the write of plain files puts bytes in the place of others. -/
theorem dsWrite_eq_overwrite {items : List Byte} {pos : Nat} (h : pos ≤ items.length) (s : List Byte) :
    dsWrite items pos s = overwrite items pos s := by
  unfold dsWrite overwrite
  rw [Nat.sub_eq_zero_of_le h, List.replicate_zero, List.append_nil]
  split
  · next hend =>
    dsimp only
    rw [List.take_append_of_le_length h, List.drop_eq_nil_of_le hend, List.drop_eq_nil_of_le]
    rw [List.length_append, List.length_replicate]
    omega
  · rfl

theorem length_overwrite {items : List Byte} {pos : Nat} (h : pos ≤ items.length) (s : List Byte) :
    (overwrite items pos s).length = max items.length (pos + s.length) := by
  unfold overwrite
  simp only [List.length_append, List.length_take, List.length_replicate, List.length_drop]
  omega

/-- What is written is at its place then. -/
theorem drop_overwrite (items : List Byte) (pos : Nat) (s : List Byte) :
    (overwrite items pos s).drop pos = s ++ items.drop (pos + s.length) := by
  have hbefore : (items.take pos ++ List.replicate (pos - items.length) (0 : Byte)).length = pos := by
    rw [List.length_append, List.length_take, List.length_replicate]
    omega
  unfold overwrite
  rw [List.append_assoc]
  conv => lhs; arg 1; rw [← hbefore]
  exact List.drop_left

/-- What is before it stays. -/
theorem take_overwrite {items : List Byte} {pos k : Nat} (h : pos ≤ items.length) (hk : k ≤ pos) (s : List Byte) :
    (overwrite items pos s).take k = items.take k := by
  unfold overwrite
  rw [Nat.sub_eq_zero_of_le h, List.replicate_zero, List.append_nil, List.append_assoc,
    List.take_append_of_le_length (by rw [List.length_take_of_le h]; exact hk), List.take_take, Nat.min_eq_left hk]

namespace Buffer.IsDstring

variable {moves : Nat → Bool} {ds : Buffer Byte} {items : List Byte}

/-- What is written of the dynamic string itself, behind it. -/
theorem dsWritePiece_self (hds : ds.IsDstring items) (hgrows : Grows ds (items.length + items.length + 1))
    (hstays : items = [] ∨ Stays moves ds (items.length + items.length + 1)) :
    ds.dsWritePiece (.enough moves) items.length .self = ds.dsWrite (.enough moves) items.length items := by
  have hlen := hds.length_eq
  have hlt := hgrows.1
  obtain ⟨b₁, hset, hkeeps, hroom, -⟩ := setsize_served hds.keeps
    (show ds.Served (.enough moves) dstringSizing (items.length + items.length + 1) from hgrows.served)
    (by rw [List.length_append, List.length_singleton]; omega)
  obtain ⟨k, hk⟩ : ∃ k : Nat, (b₁.maxlength : Int) - ds.length = k := Int.eq_ofNat_of_zero_le (by omega)
  have hitems : items.map some <+: b₁.cells := ((List.prefix_append ..).map some).trans hkeeps.stored
  obtain ⟨cells, hfill, hpre, hclen⟩ := Block.fill_start hitems (k := k) (by rw [hkeeps.maxlength_eq]; omega) hlen hk
    (0 : Byte)
  have hend : writePiece items.length items.length .self (moved (.enough moves) ds b₁) cells =
      cells.write items.length (items.map some) :=
    writePiece_end (p := .self) (((List.prefix_append ..).map some).trans hpre) fun _ =>
      hstays.imp id fun hstay => hstay.not_moved hset
  have hs2len : Piece.s2len ds.length .self = items.length := hlen
  unfold dsWritePiece Buffer.dsWrite
  rw [hs2len]
  dsimp only
  rw [CInt.check_eq_some.mpr ⟨⟨by omega, by omega⟩, rfl⟩, Option.bind_some, Option.bind_some, if_pos (by omega),
    if_pos (by omega), CInt.check_eq_some.mpr ⟨⟨by omega, by omega⟩, rfl⟩, Option.bind_some, Option.bind_some,
    dsSetsize, hset, Option.bind_some, Option.bind_some, if_neg (lt_irrefl (0 : Int)), hfill, Option.bind_some, hend]
  rfl

end Buffer.IsDstring

namespace Io

variable {moves : Nat → Bool} {mf mf' : Memfile} {f f' : Eel.Memfile} {p : Piece}

/-! ## Writing -/

/-- `eel_ds_write` of bytes, of its own only behind them. -/
theorem dsWritePiece_spec (h : mf.Represents f) (htakes : mf.Takes moves p) :
    ∃ ds, mf.buffer.dsWritePiece (.enough moves) mf.position p = some (Xno.ok, ds) ∧
      ds.IsDstring (overwrite f.buffer f.position (p.of f.buffer)) := by
  have hlen := h.buffer.length_eq
  have hdoes : Does f.buffer (mf.buffer.dsWritePiece (.enough moves) mf.position p)
      (some (overwrite f.buffer f.position (p.of f.buffer))) := by
    cases p with
    | chars s =>
      obtain ⟨hint, hgrows⟩ := htakes
      rw [h.position] at hint hgrows ⊢
      refine h.buffer.dsWrite hint (hgrows.imp (fun hlt => ?_) id)
      rw [hlen] at hlt
      exact_mod_cast hlt
    | self =>
      obtain ⟨hpos, hgrows, hstays⟩ := htakes
      have hfpos : f.position = f.buffer.length := by
        have hpos' := h.position
        omega
      rw [hpos, hlen] at hgrows hstays
      rw [hpos, hlen, h.buffer.dsWritePiece_self hgrows (hstays.imp_left fun hnil =>
        List.length_eq_zero_iff.mp (by exact_mod_cast hnil)), hfpos]
      exact h.buffer.dsWrite (by have := hgrows.1; omega) (.inr hgrows)
  obtain ⟨x, ds, hresult, hds, hok⟩ := hdoes
  obtain rfl : x = Xno.ok := hok.mpr rfl
  exact ⟨ds, hresult, hds⟩

/-- `io_write_memfile`. -/
theorem writeMemfile_spec (h : mf.Represents f) (htakes : mf.Takes moves p) :
    ∃ mf', mf.writeMemfile (.enough moves) p = some (Xno.ok, ((p.of f.buffer).length : Int), mf') ∧
      mf'.Represents (plainPut f (p.of f.buffer)) := by
  obtain ⟨ds, hwrite, hds⟩ := dsWritePiece_spec h htakes
  have hs2len : p.s2len mf.buffer.length = (p.of f.buffer).length := h.buffer.s2len_eq
  have hend : mf.position + (p.of f.buffer).length < 2 ^ 31 := by
    cases p with
    | chars s => exact htakes.1
    | self =>
      obtain ⟨-, ⟨hlt, -⟩, -⟩ := htakes
      rw [← hs2len]
      show mf.position + mf.buffer.length < 2 ^ 31
      omega
  have hpos := h.position
  refine ⟨⟨ds, mf.position + (p.of f.buffer).length⟩, ?_, ?_, ?_, ?_⟩
  · unfold Memfile.writeMemfile
    rw [hwrite, hs2len]
    show ((CInt.check (mf.position + (p.of f.buffer).length)).map _) = _
    rw [CInt.check_eq_some.mpr ⟨⟨by omega, hend⟩, rfl⟩]
    rfl
  · show ds.IsDstring (dsWrite f.buffer f.position (p.of f.buffer))
    rw [dsWrite_eq_overwrite h.inside]
    exact hds
  · show mf.position + (p.of f.buffer).length = ((f.position + (p.of f.buffer).length : Nat) : Int)
    omega
  · show f.position + (p.of f.buffer).length ≤ (dsWrite f.buffer f.position (p.of f.buffer)).length
    rw [dsWrite_eq_overwrite h.inside, length_overwrite h.inside]
    exact Nat.le_max_right ..

/-- `io_write`, of operands that come behind what `written` is. -/
theorem ioWrite_spec (operands : List Operand) (written : List Byte) (h : mf.Represents f)
    (htakes : mf.TakesAll moves operands) (hle : written.length ≤ f.position) :
    ∃ result mf', ioWrite (Memfile.writeMemfile (.enough moves)) operands written.length mf = some (result, mf') ∧
      (match result with
        | .ok n => MemfileResult.count n
        | .error x => .failed x).Shows (plainWrite operands written f).1 ∧
      mf'.Represents (plainWrite operands written f).2 := by
  induction operands generalizing written mf f with
  | nil => exact ⟨.ok written.length, mf, rfl, rfl, h⟩
  | cons v vs ih =>
    unfold ioWrite plainWrite
    cases hv : v.piece with
    | none => exact ⟨.error Xno.arguments, mf, rfl, rfl, h⟩
    | some p =>
      obtain ⟨hp, hvs⟩ := htakes p hv
      obtain ⟨mf', hwrite, hmf'⟩ := writeMemfile_spec h hp
      have hpos' := hmf'.position
      have hinside := hmf'.inside
      have hlen' := hmf'.buffer.length_eq
      have hmax := hmf'.buffer.length_lt
      have hput : (plainPut f (p.of f.buffer)).position = f.position + (p.of f.buffer).length := rfl
      rw [hput] at hinside
      have hcount : (written ++ p.of f.buffer).length = written.length + (p.of f.buffer).length := List.length_append
      have hcheck : CInt.check ((written.length : Int) + (p.of f.buffer).length) =
          some ((written ++ p.of f.buffer).length : Int) :=
        CInt.check_eq_some.mpr ⟨⟨by omega, by omega⟩, by rw [hcount]; exact Int.natCast_add ..⟩
      obtain ⟨result, mf'', hrest, hshows, hrep⟩ := ih (written ++ p.of f.buffer) hmf' (hvs _ _ hwrite)
        (by rw [hcount, hput]; omega)
      refine ⟨result, mf'', ?_, hshows, hrep⟩
      dsimp only
      rw [hwrite, Option.bind_some]
      dsimp only
      rw [if_neg (not_not_intro rfl), hcheck]
      exact hrest

/-! ## Reading -/

/-- New memory with a terminator at its start. -/
theorem dsNnew_spec {n : Nat} (hn : n < 2 ^ 31 - 1) (fresh : Nat → Byte) :
    ∃ ds, Memfile.dsNnew fresh n = some ds ∧ ds.length = 0 ∧ ds.maxlength = n + 1 ∧ ds.cells.length = n + 1 ∧
      ds.cells[0]? = some (some 0) ∧ ∀ i, 0 < i → i ≤ n → ds.cells[i]? = some (some (fresh i)) := by
  have hsize : ((n : Int) + 1).toNat = n + 1 := by
    omega
  have hlen : ((List.range (n + 1)).map fun i => some (fresh i)).length = n + 1 := by
    rw [List.length_map, List.length_range]
  have hstore : Block.store ((List.range (n + 1)).map fun i => some (fresh i)) 0 0 =
      some (some 0 :: ((List.range (n + 1)).map fun i => some (fresh i)).drop 1) := by
    unfold Block.store Block.write
    rw [if_pos ⟨Int.le_refl 0, by rw [hlen, List.length_singleton]; omega⟩]
    rfl
  refine ⟨⟨0, n + 1, some 0 :: ((List.range (n + 1)).map fun i => some (fresh i)).drop 1⟩, ?_, rfl, rfl, ?_, rfl, ?_⟩
  · unfold Memfile.dsNnew
    rw [CInt.check_eq_some.mpr ⟨⟨by omega, by omega⟩, rfl⟩, Option.bind_some, hsize, hstore]
    rfl
  · rw [List.length_cons, List.length_drop, hlen]
    rfl
  · intro i hpos hle
    obtain ⟨k, rfl⟩ := Nat.exists_eq_add_one_of_ne_zero (Nat.ne_of_gt hpos)
    rw [List.getElem?_cons_succ, List.getElem?_drop, List.getElem?_map, Nat.add_comm 1 k,
      List.getElem?_range (by omega)]
    rfl

/-- Bytes that are copied to new memory are a dynamic string if there is a zero behind them. -/
theorem isDstring_copied {ds : Buffer Byte} {s : List Byte} {n : Nat} (hn : n < 2 ^ 31 - 1)
    (hmax : ds.maxlength = n + 1) (hlen : ds.cells.length = n + 1) (hle : s.length ≤ n)
    (hzero : ds.cells[s.length]? = some (some 0)) :
    ∃ cells, ds.cells.write 0 (s.map some) = some cells ∧
      Buffer.IsDstring s { ds with length := s.length, cells := cells } := by
  have htake : (ds.cells.take s.length).length = s.length := List.length_take_of_le (by omega)
  have hpre : [] ++ ds.cells.take s.length ++ [some 0] <+: ds.cells := by
    have hsucc : ds.cells.take (s.length + 1) = ds.cells.take s.length ++ [some 0] := by
      rw [List.take_add_one, hzero]
      rfl
    rw [List.nil_append, ← hsucc]
    exact List.take_prefix ..
  obtain ⟨cells, hwrite, hcells, hclen⟩ := Block.write_start hpre (rfl : (0 : Int) = 0)
    (show (s.map some).length = (ds.cells.take s.length).length by rw [List.length_map, htake])
  refine ⟨cells, hwrite, rfl, ?_, ?_, ?_⟩
  · show cells.length = ds.maxlength
    rw [hclen, hlen, hmax]
  · show 1 * ds.maxlength < 2 ^ 31
    omega
  · rw [List.map_append]
    exact hcells

/-- The bytes of a dynamic string from a position on. -/
theorem slice_bytes {ds : Buffer Byte} {items : List Byte} (hds : ds.IsDstring items) {pos m : Nat}
    (hm : pos + m ≤ items.length) :
    ds.cells.slice pos m = some (((items.drop pos).take m).map some) := by
  have hpre : (items.take pos).map some ++ ((items.drop pos).take m).map some <+: ds.cells := by
    refine List.IsPrefix.trans ?_ hds.stored
    rw [← List.map_append, ← List.take_add]
    exact (List.take_prefix ..).map some
  refine Block.slice_start hpre ?_ ?_
  · rw [List.length_map, List.length_take_of_le (by omega)]
  · rw [List.length_map, List.length_take_of_le (by rw [List.length_drop]; omega)]

/-- A read of some bytes, from where there are some. -/
theorem ioRead_bytes {fresh : Nat → Byte} {n : Nat} (h : mf.Represents f) (hn : n < 2 ^ 31 - 1) (hpos : 0 < n)
    (hlt : f.position < f.buffer.length) (hsum : (f.position : Int) + n < 2 ^ 31)
    (hfresh : fresh (min n (f.buffer.length - f.position)) = 0) :
    ∃ ds, mf.ioRead fresh n =
        some (.ok ds, { mf with position := ((f.position + min n (f.buffer.length - f.position) : Nat) : Int) }) ∧
      ds.IsDstring ((f.buffer.drop f.position).take n) := by
  have hlen := h.buffer.length_eq
  obtain ⟨ds, hnew, -, hmax, hcells, -, hfreshes⟩ := dsNnew_spec hn fresh
  obtain ⟨m, hm⟩ : ∃ m, m = min n (f.buffer.length - f.position) := ⟨_, rfl⟩
  rw [← hm] at hfresh ⊢
  have htake : (f.buffer.drop f.position).take n = (f.buffer.drop f.position).take m := by
    rw [hm, ← List.length_drop, List.take_eq_take_min]
  have hmlen : ((f.buffer.drop f.position).take m).length = m :=
    List.length_take_of_le (by rw [List.length_drop]; omega)
  rw [htake]
  have hzero : ds.cells[((f.buffer.drop f.position).take m).length]? = some (some 0) := by
    rw [hmlen, hfreshes m (by omega) (by omega), hfresh]
  obtain ⟨cells, hwrite, hds⟩ := isDstring_copied hn hmax hcells (by rw [hmlen]; omega) hzero
  rw [hmlen] at hds
  refine ⟨{ ds with length := m, cells := cells }, ?_, hds⟩
  have hcount : (if mf.buffer.length < mf.position + n then mf.buffer.length - mf.position else (n : Int)) = m := by
    rw [h.position, hlen]
    split
    all_goals omega
  unfold Memfile.ioRead
  rw [if_neg (by omega), hnew, Option.bind_some, if_neg (by omega), if_neg (by rw [h.position, hlen]; omega),
    CInt.check_eq_some.mpr ⟨⟨by rw [h.position]; omega, by rw [h.position]; exact hsum⟩, rfl⟩, Option.bind_some]
  dsimp only
  rw [hcount, h.position, slice_bytes h.buffer (by omega), Option.bind_some, hwrite]
  rfl

/-- `io_read`. -/
theorem read_spec {fresh : Nat → Byte} {count : BitVec 32} (h : mf.Represents f) (hfine : mf.Fine (.read fresh count)) :
    ∃ result mf', mf.perform (.read fresh count) = some (result, mf') ∧ result.Shows (plainRead f count.toInt).1 ∧
      mf'.Represents (plainRead f count.toInt).2 := by
  obtain ⟨hcount, hbytes⟩ := hfine
  have hlen := h.buffer.length_eq
  have hinside := h.inside
  unfold Memfile.perform
  dsimp only
  generalize count.toInt = c at hcount hbytes
  unfold plainRead
  rcases Int.lt_or_le c 0 with hneg | hnonneg
  · have hread : mf.ioRead fresh c = some (.error Xno.lowValue, mf) := if_pos hneg
    rw [hread, if_pos hneg]
    exact ⟨_, _, rfl, rfl, h⟩
  obtain ⟨n, rfl⟩ := Int.eq_ofNat_of_zero_le hnonneg
  obtain ⟨ds, hnew, hdslen, hmax, hcells, hfirst, -⟩ := dsNnew_spec (n := n) (by omega) fresh
  rw [if_neg (by omega), Int.toNat_natCast]
  rcases Nat.eq_zero_or_pos n with rfl | hpos
  · -- nothing is read
    have hread : mf.ioRead fresh (0 : Nat) = some (.ok ds, mf) := by
      unfold Memfile.ioRead
      rw [if_neg (by omega), hnew]
      rfl
    obtain ⟨cells, hwrite, hds⟩ := isDstring_copied (s := []) (by decide) hmax hcells (Nat.le_refl 0) hfirst
    obtain rfl : ds.cells = cells := Option.some.inj ((Block.write_nil (k := 0) (Nat.zero_le _)).symm.trans hwrite)
    rw [hread, if_neg fun hend => absurd hend.2 (by decide), List.take_zero, Nat.add_zero, Nat.min_eq_left hinside]
    refine ⟨_, _, rfl, ?_, h⟩
    have hsame : ({ ds with length := ([] : List Byte).length, cells := ds.cells } : Buffer Byte) = ds := by
      obtain ⟨length, maxlength, cells⟩ := ds
      obtain rfl : length = 0 := hdslen
      rfl
    exact hsame ▸ hds
  by_cases hend : f.position = f.buffer.length
  · have hread : mf.ioRead fresh n = some (.error Xno.eof, mf) := by
      unfold Memfile.ioRead
      rw [if_neg (by omega), hnew, Option.bind_some, if_neg (by omega), if_pos (by rw [h.position, hlen]; omega)]
    rw [hread, if_pos ⟨hend, by omega⟩]
    exact ⟨_, _, rfl, rfl, h⟩
  · have hlt : f.position < f.buffer.length := Nat.lt_of_le_of_ne hinside hend
    obtain ⟨hsum, hfresh⟩ := hbytes (by omega) (by rw [h.position, hlen]; omega)
    rw [h.position] at hsum hfresh
    have hmin : (min (n : Int) (mf.buffer.length - f.position)).toNat = min n (f.buffer.length - f.position) := by
      omega
    rw [hmin] at hfresh
    obtain ⟨ds', hread, hds'⟩ := ioRead_bytes h (by omega) hpos hlt hsum hfresh
    rw [hread, if_neg fun heq => hend heq.1]
    refine ⟨_, _, rfl, hds', h.buffer, ?_, Nat.min_le_right ..⟩
    show ((f.position + min n (f.buffer.length - f.position) : Nat) : Int) =
      (min (f.position + n) f.buffer.length : Nat)
    omega

/-! ## Runs -/

/-- An operation. -/
theorem perform_spec {op : MemfileOp} (h : mf.Represents f) (hfine : mf.Fine op) :
    ∃ result mf', mf.perform op = some (result, mf') ∧ result.Shows (plainPerform f op).1 ∧
      mf'.Represents (plainPerform f op).2 := by
  cases op with
  | read fresh count => exact read_spec h hfine
  | write moves operands =>
    obtain ⟨result, mf', hwrite, hshows, hrep⟩ := ioWrite_spec operands [] h hfine (Nat.zero_le _)
    have hwrite' : ioWrite (Memfile.writeMemfile (.enough moves)) operands 0 mf = some (result, mf') := hwrite
    unfold Memfile.perform
    dsimp only
    rw [hwrite']
    cases result with
    | ok n => exact ⟨.count n, mf', rfl, hshows, hrep⟩
    | error x => exact ⟨.failed x, mf', rfl, hshows, hrep⟩
  | seek iv =>
    have hlen := h.buffer.length_eq
    unfold Memfile.perform plainPerform plainSeek
    dsimp only
    by_cases hin : 0 ≤ iv.toInt ∧ iv.toInt ≤ f.buffer.length
    · have hset : mf.setPosition iv.toInt = (Xno.ok, { mf with position := iv.toInt }) := if_neg (by omega)
      rw [hset, if_pos hin]
      refine ⟨.done, { mf with position := iv.toInt }, rfl, trivial, h.buffer, ?_, ?_⟩
      · show iv.toInt = (iv.toInt.toNat : Int)
        omega
      · show iv.toInt.toNat ≤ f.buffer.length
        omega
    · have hset : mf.setPosition iv.toInt = (Xno.fileSeek, mf) := if_pos (by omega)
      rw [hset, if_neg hin]
      exact ⟨.failed Xno.fileSeek, mf, rfl, rfl, h⟩

/-- A run. -/
theorem MemfileReached.represents {mf₀ : Memfile} {f₀ : Eel.Memfile} (hreached : MemfileReached mf₀ f₀ mf f)
    (h : mf₀.Represents f₀) : mf.Represents f := by
  induction hreached with
  | start => exact h
  | step _ hfine hstep ih =>
    obtain ⟨result, mf', hperform, -, hrep⟩ := perform_spec ih hfine
    obtain ⟨-, rfl⟩ := Prod.mk.inj (Option.some.inj (hstep.symm.trans hperform))
    exact hrep

/-! ## What is written is read -/

/-- The bytes that are written are behind the old position, and what is before it stays. -/
theorem plainWrite_spec (operands : List Operand) {written s : List Byte} {g : Eel.Memfile}
    (hinside : f.position ≤ f.buffer.length) (h : plainWrite operands written f = (.written s, g)) :
    ∃ t, s = written ++ t ∧ (g.buffer.drop f.position).take t.length = t ∧ f.position + t.length ≤ g.buffer.length ∧
      g.buffer.take f.position = f.buffer.take f.position := by
  induction operands generalizing written f with
  | nil =>
    obtain ⟨hs, rfl⟩ := Prod.mk.inj h
    obtain rfl : written = s := PlainResult.written.inj hs
    exact ⟨[], (List.append_nil _).symm, List.take_zero, hinside, rfl⟩
  | cons v vs ih =>
    unfold plainWrite at h
    cases hv : v.piece with
    | none =>
      rw [hv] at h
      cases h
    | some p =>
      rw [hv] at h
      obtain ⟨q, hq⟩ : ∃ q, p.of f.buffer = q := ⟨_, rfl⟩
      dsimp only at h
      rw [hq] at h
      have hbuffer : (plainPut f q).buffer = overwrite f.buffer f.position q := dsWrite_eq_overwrite hinside q
      have hposition : (plainPut f q).position = f.position + q.length := rfl
      obtain ⟨t, rfl, ht, hend, hkeep⟩ := ih (by
        rw [hbuffer, hposition, length_overwrite hinside]
        exact Nat.le_max_right ..) h
      rw [hposition] at ht hend hkeep
      have hmid : (g.buffer.take (f.position + q.length)).drop f.position = q := by
        rw [hkeep, hbuffer, List.drop_take, drop_overwrite, Nat.add_sub_cancel_left, List.take_left]
      refine ⟨q ++ t, List.append_assoc .., ?_, by rw [List.length_append]; omega, ?_⟩
      · rw [List.drop_take, Nat.add_sub_cancel_left] at hmid
        rw [List.length_append, List.take_add, hmid, List.drop_drop, ht]
      · have htake := congrArg (List.take f.position) hkeep
        rw [List.take_take, Nat.min_eq_left (Nat.le_add_right ..), hbuffer, List.take_take,
          Nat.min_eq_left (Nat.le_add_right ..), take_overwrite hinside (Nat.le_refl _)] at htake
        exact htake

/-- Reading from where writing began. -/
theorem plainRead_written {operands : List Operand} {s : List Byte} {g : Eel.Memfile}
    (hinside : f.position ≤ f.buffer.length) (h : plainWrite operands [] f = (.written s, g)) :
    ∃ g', plainSeek g f.position = (.done, g') ∧ (plainRead g' s.length).1 = .bytes s := by
  obtain ⟨t, rfl, ht, hend, -⟩ := plainWrite_spec operands hinside h
  refine ⟨{ g with position := f.position }, ?_, ?_⟩
  · unfold plainSeek
    rw [if_pos ⟨Int.natCast_nonneg _, by omega⟩]
    rfl
  · have hmore : ¬ (f.position = g.buffer.length ∧ 0 < (s.length : Int)) := by
      omega
    unfold plainRead
    rw [if_neg (by omega), if_neg hmore, Int.toNat_natCast]
    exact congrArg PlainResult.bytes ht

end Io

/-- In every run, the position is inside the buffer, and each operation is what it is of a plain file. What
is read and the buffer have a terminator. What is written is what is read from the old position. -/
theorem memfile_law {mf₀ mf : Io.Memfile} {f₀ f : Memfile} (h : mf₀.Represents f₀)
    (hreached : Io.MemfileReached mf₀ f₀ mf f) :
    (0 ≤ mf.position ∧ mf.position ≤ mf.buffer.length) ∧ mf.Represents f ∧
    (∀ op, mf.Fine op → ∃ result mf', mf.perform op = some (result, mf') ∧
      result.Shows (Io.plainPerform f op).1 ∧ mf'.Represents (Io.plainPerform f op).2) ∧
    ∀ moves operands s g, Io.plainPerform f (.write moves operands) = (.written s, g) →
      ∃ g', Io.plainSeek g f.position = (.done, g') ∧ (Io.plainRead g' s.length).1 = .bytes s := by
  have hrep := hreached.represents h
  have hlen := hrep.buffer.length_eq
  have hpos := hrep.position
  have hinside := hrep.inside
  exact ⟨⟨by omega, by omega⟩, hrep, fun op hfine => Io.perform_spec hrep hfine,
    fun moves operands s g hwrite => Io.plainRead_written hinside hwrite⟩

/-- A file with one byte. -/
def oneByteFile : Io.Memfile := ⟨⟨1, 2, [some 97, some 0]⟩, 0⟩

theorem memfile_law_byte :
    ∃ result mf', oneByteFile.perform (.read (fun _ => 0) 1) = some (result, mf') ∧ result.Shows (.bytes [97]) ∧
      mf'.Represents ⟨[97], 1⟩ := by
  have hrep : oneByteFile.Represents ⟨[97], 0⟩ :=
    ⟨⟨rfl, rfl, by decide, List.prefix_rfl⟩, rfl, Nat.zero_le _⟩
  have hfine : oneByteFile.Fine (.read (fun _ => 0) 1) := ⟨by decide, fun _ _ => ⟨by decide, rfl⟩⟩
  exact (memfile_law hrep .start).2.2.1 _ hfine

/-- What is read has no terminator if the new memory had something else there. -/
theorem not_memfile_law_byte :
    let op : Io.MemfileOp := .read (fun _ => 7) 1
    oneByteFile.Represents ⟨[97], 0⟩ ∧ (Io.plainPerform ⟨[97], 0⟩ op).1 = .bytes [97] ∧
      ∃ ds mf', oneByteFile.perform op = some (.dstring ds, mf') ∧ ds.length = 1 ∧ ds.cells.load ds.length = some 7 ∧
        ¬ (Io.MemfileResult.dstring ds).Shows (.bytes [97]) := by
  refine ⟨⟨⟨rfl, rfl, by decide, List.prefix_rfl⟩, rfl, Nat.zero_le _⟩, rfl, ⟨1, 2, [some 97, some 7]⟩,
    ⟨⟨1, 2, [some 97, some 0]⟩, 1⟩, rfl, rfl, rfl, ?_⟩
  rintro ⟨-, -, -, rest, hrest⟩
  cases hrest

end Eel
