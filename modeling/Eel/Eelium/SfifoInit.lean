-- SUMMARY: sfifo_init: which requests the doubling loop serves, and what a fresh FIFO has room for.
import Eel.Eelium.SfifoRun
import Eel.Lib.CInt

/-!
# Making a FIFO

The loop doubles an `int` until it is more than the request. The last power of two that
an `int` can have is `2 ^ 30`, so it serves a request exactly if that is less. The requests
that `sfifo_init` lets through go on to `2 ^ 31 - 1`.
-/

namespace Eel.Sfifo

/-- `SFIFO_MAX_BUFFER_SIZE`. -/
def maxBufferSize : Int := 0x7fffffff

def einval : Int := 22

def enomem : Int := 12

/-- `for(; f->size <= size; f->size <<= 1)`, with so many turns at most. -/
def double (size : Int) : Nat → Int → Option Int
  | 0, _ => none
  | turns + 1, n => if n ≤ size then (CInt.check (n * 2)).bind (double size turns) else some n

/-- `sfifo_init`: what it returns, and the FIFO it leaves. -/
def init? (malloc : Nat → Option (List Byte)) (turns : Nat) (size : Int) : Option (Int × Sfifo) :=
  if size > maxBufferSize then some (-einval, { buffer := [], size := 0, readpos := 0, writepos := 0 })
  else
    (double size turns 1).map fun n =>
      match malloc n.toNat with
      | some buffer => (0, { buffer := buffer, size := n.toNat, readpos := 0, writepos := 0 })
      | none => (-enomem, { buffer := [], size := n.toNat, readpos := 0, writepos := 0 })

/-! ## The loop -/

variable {size n : Int} {turns k : Nat}

theorem double_past (h : size < n) : double size (turns + 1) n = some n := by
  rw [double, if_neg (Int.not_le.mpr h)]

/-- The next power is an `int` up to the last one. -/
theorem double_succ (hk : k < 30) (h : (2 : Int) ^ k ≤ size) :
    double size (turns + 1) (2 ^ k) = double size turns (2 ^ (k + 1)) := by
  have hpow : (2 : Int) ^ (k + 1) ≤ 2 ^ 30 := by exact_mod_cast Nat.pow_le_pow_right Nat.two_pos hk
  have hpos : (0 : Int) < 2 ^ (k + 1) := by exact_mod_cast Nat.two_pow_pos (k + 1)
  have hcheck : CInt.check ((2 : Int) ^ k * 2) = some (2 ^ (k + 1)) := by
    rw [← Int.pow_succ]
    exact CInt.check_eq_some.mpr ⟨⟨by omega, by omega⟩, rfl⟩
  rw [double, if_pos h, hcheck, Option.bind_some]

theorem double_last (h : (2 : Int) ^ 30 ≤ size) : double size (turns + 1) (2 ^ 30) = none := by
  rw [double, if_pos h, CInt.check_eq_none.mpr (by decide), Option.bind_none]

/-- Enough turns reach a power that is more than the request. -/
theorem exists_double (hsize : size < 2 ^ 30) (hk : k ≤ 30) :
    ∃ turns j, j ≤ 30 ∧ double size turns (2 ^ k) = some (2 ^ j) ∧ size < 2 ^ j := by
  -- On the doublings that are left before 2 ^ 30.
  induction hm : 30 - k generalizing k with
  | zero =>
    obtain rfl : k = 30 := by omega
    exact ⟨1, 30, Nat.le_refl _, double_past hsize, hsize⟩
  | succ m ih =>
    rcases Int.lt_or_le size (2 ^ k) with hpast | hle
    · exact ⟨1, k, hk, double_past hpast, hpast⟩
    · obtain ⟨turns, j, hj, hdouble, hlt⟩ := ih (k := k + 1) (by omega) (by omega)
      refine ⟨turns + 1, j, hj, ?_, hlt⟩
      rw [double_succ (by omega) hle]
      exact hdouble

/-- A request of `2 ^ 30` or more is not served in any number of turns: the loop overflows. -/
theorem double_eq_none (hsize : (2 : Int) ^ 30 ≤ size) (hk : k ≤ 30) : double size turns (2 ^ k) = none := by
  induction turns generalizing k with
  | zero => rfl
  | succ turns ih =>
    rcases Nat.lt_or_eq_of_le hk with hlt | rfl
    · have hpow : (2 : Int) ^ k ≤ 2 ^ 30 := by exact_mod_cast Nat.pow_le_pow_right Nat.two_pos hk
      rw [double_succ hlt (Int.le_trans hpow hsize)]
      exact ih hlt
    · exact double_last hsize

/-- Whatever the loop ends with is a power of two. -/
theorem double_power (hk : k ≤ 30) (h : double size turns (2 ^ k) = some n) : ∃ j, j ≤ 30 ∧ n = 2 ^ j := by
  induction turns generalizing k with
  | zero => cases h
  | succ turns ih =>
    rcases Int.lt_or_le size (2 ^ k) with hpast | hle
    · rw [double_past hpast] at h
      exact ⟨k, hk, (Option.some.inj h).symm⟩
    · rcases Nat.lt_or_eq_of_le hk with hlt | rfl
      · rw [double_succ hlt hle] at h
        exact ih hlt h
      · rw [double_last hle] at h
        cases h

/-! ## The FIFO -/

theorem two_pow_toNat : ((2 : Int) ^ k).toNat = 2 ^ k := by
  rw [show (2 : Int) ^ k = ((2 ^ k : Nat) : Int) by exact_mod_cast rfl, Int.toNat_natCast]

/-- A FIFO that has nothing in it has room for all but one of its bytes. -/
theorem space_empty (hk : k ≤ 30) : space (2 ^ k) 0 0 = 2 ^ k - 1 := by
  unfold space
  rw [used_eq_of_distance hk (Nat.zero_le _) (Nat.zero_le _) (Nat.two_pow_pos k) rfl]
  rfl

theorem init?_eq_none {malloc : Nat → Option (List Byte)} (hmax : size ≤ maxBufferSize) (hsize : (2 : Int) ^ 30 ≤ size) :
    init? malloc turns size = none := by
  unfold init?
  rw [if_neg (Int.not_lt.mpr hmax), show (1 : Int) = 2 ^ 0 from rfl, double_eq_none hsize (Nat.zero_le _)]
  rfl

theorem exists_init? (malloc : Nat → Option (List Byte)) (hmax : size ≤ maxBufferSize) (hsize : size < 2 ^ 30) :
    ∃ turns k, k ≤ 30 ∧ size < 2 ^ k ∧ init? malloc turns size =
      some (match malloc (2 ^ k) with
        | some buffer => (0, { buffer := buffer, size := 2 ^ k, readpos := 0, writepos := 0 })
        | none => (-enomem, { buffer := [], size := 2 ^ k, readpos := 0, writepos := 0 })) := by
  obtain ⟨turns, k, hk, hdouble, hlt⟩ := exists_double (k := 0) hsize (Nat.zero_le _)
  rw [show (2 : Int) ^ 0 = 1 from rfl] at hdouble
  refine ⟨turns, k, hk, hlt, ?_⟩
  unfold init?
  rw [if_neg (Int.not_lt.mpr hmax), hdouble, Option.map_some, two_pow_toNat]

/-- What `sfifo_init` promises of the FIFO: a power of two that is more than the request, and room
for the request. -/
structure Fresh (f : Sfifo) (size : Int) : Prop where
  power : ∃ k, f.size = 2 ^ k
  size_lt : size < f.size
  space_ge : size ≤ space f.size f.writepos f.readpos

/-- A request is served exactly if it is less than the last power of two. -/
theorem init_serves (malloc : Nat → Option (List Byte)) (size : Int) (hmax : size ≤ maxBufferSize) :
    (∃ turns f, init? malloc turns size = some (if (malloc f.size).isSome then 0 else -enomem, f) ∧ Fresh f size) ↔
      size < 2 ^ 30 := by
  constructor
  · rintro ⟨turns, f, hinit, -⟩
    rcases Int.lt_or_le size (2 ^ 30) with h | h
    · exact h
    · rw [init?_eq_none hmax h] at hinit
      cases hinit
  · intro h
    obtain ⟨turns, k, hk, hlt, hinit⟩ := exists_init? malloc hmax h
    have hspace := space_empty hk
    have hpos : 0 < 2 ^ k := Nat.two_pow_pos k
    have hcast : ((2 ^ k : Nat) : Int) = 2 ^ k := by exact_mod_cast rfl
    have hfresh : ∀ buffer, Fresh { buffer := buffer, size := 2 ^ k, readpos := 0, writepos := 0 } size := by
      intro buffer
      exact {
        power := ⟨k, rfl⟩
        size_lt := by
          show size < ((2 ^ k : Nat) : Int)
          rw [hcast]
          exact hlt
        space_ge := by
          show size ≤ (space (2 ^ k) 0 0 : Int)
          rw [hspace]
          omega }
    cases hm : malloc (2 ^ k) with
    | some buffer =>
      rw [hm] at hinit
      refine ⟨turns, _, ?_, hfresh buffer⟩
      dsimp only
      rw [hm]
      exact hinit
    | none =>
      rw [hm] at hinit
      refine ⟨turns, _, ?_, hfresh []⟩
      dsimp only
      rw [hm]
      exact hinit

theorem init_serves_100 :
    ∃ turns f, init? (fun n => some (List.replicate n 0)) turns 100 =
      some (if ((fun n => some (List.replicate n (0 : Byte))) f.size).isSome then 0 else -enomem, f) ∧ Fresh f 100 :=
  (init_serves (fun n => some (List.replicate n 0)) 100 (by decide)).mpr (by decide)

/-- The first request that is accepted and not served. -/
theorem not_init_serves :
    ¬ ∀ (malloc : Nat → Option (List Byte)) (size : Int), 0 ≤ size → size ≤ maxBufferSize →
      ∃ turns f, init? malloc turns size = some (if (malloc f.size).isSome then 0 else -enomem, f) ∧ Fresh f size := by
  intro h
  obtain ⟨turns, f, hinit, -⟩ := h (fun n => some (List.replicate n 0)) (2 ^ 30) (by decide) (by decide)
  rw [init?_eq_none (by decide) (Int.le_refl _)] at hinit
  cases hinit

/-- What has been made for a request is where the runs of the FIFO start. -/
theorem init_run_safe {malloc : Nat → Option (List Byte)}
    (hmalloc : ∀ n buffer, malloc n = some buffer → buffer.length = n) {f : Sfifo}
    (hinit : init? malloc turns size = some (0, f)) (acts : List Act) :
    (Machine.run State.step (State.init f.size f.buffer) acts).2.Safe ∧
      ∀ cell, some cell ∈ (Machine.run State.step (State.init f.size f.buffer) acts).1 → cell < f.buffer.length := by
  unfold init? at hinit
  split at hinit
  · cases hinit
  · obtain ⟨n, hdouble, hpair⟩ := Option.map_eq_some_iff.mp hinit
    obtain ⟨k, hk, rfl⟩ := double_power (k := 0) (Nat.zero_le _) hdouble
    rw [two_pow_toNat] at hpair
    cases hm : malloc (2 ^ k) with
    | none =>
      rw [hm] at hpair
      cases hpair
    | some buffer =>
      rw [hm] at hpair
      cases hpair
      exact run_safe hk (hmalloc _ _ hm) acts

end Eel.Sfifo
