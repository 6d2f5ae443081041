-- SUMMARY: Rectangles of integers: the points of one, and those that two of them have in common.
import Mathlib.Data.Int.Order.Basic
import Mathlib.Data.Set.Basic

/-!
# Rectangles

A rectangle has a corner, a width and a height. It has no points if one of these is not
positive.
-/

structure Rect where
  x : Int
  y : Int
  w : Int
  h : Int
  deriving DecidableEq

namespace Rect

/-- The points of a rectangle. -/
def points (r : Rect) : Set (Int × Int) :=
  {p | r.x ≤ p.1 ∧ p.1 < r.x + r.w ∧ r.y ≤ p.2 ∧ p.2 < r.y + r.h}

/-- The rectangle between these edges. -/
def between (left top right bottom : Int) : Rect := ⟨left, top, right - left, bottom - top⟩

/-- What two rectangles have in common. -/
def inter (r r' : Rect) : Rect :=
  between (max r.x r'.x) (max r.y r'.y) (min (r.x + r.w) (r'.x + r'.w)) (min (r.y + r.h) (r'.y + r'.h))

/-- The points of a rectangle that are in a second one, each with the one in a third that it gets to when the
corner of the first is moved there. -/
def carry (r src dst : Rect) (corner : Int × Int) : Set ((Int × Int) × (Int × Int)) :=
  {m | m.1 ∈ r.points ∧ m.1 ∈ src.points ∧ m.2 ∈ dst.points ∧
    m.2 = (m.1.1 - r.x + corner.1, m.1.2 - r.y + corner.2)}

/-- The same rectangle seen from another origin. -/
def shift (r : Rect) (dx dy : Int) : Rect := ⟨r.x + dx, r.y + dy, r.w, r.h⟩

variable {r r' : Rect} {p : Int × Int}

theorem mem_points : p ∈ r.points ↔ r.x ≤ p.1 ∧ p.1 < r.x + r.w ∧ r.y ≤ p.2 ∧ p.2 < r.y + r.h := Iff.rfl

theorem mem_between {left top right bottom : Int} :
    p ∈ (between left top right bottom).points ↔ left ≤ p.1 ∧ p.1 < right ∧ top ≤ p.2 ∧ p.2 < bottom := by
  rw [mem_points]
  unfold between
  dsimp only
  omega

theorem mem_inter : p ∈ (r.inter r').points ↔ p ∈ r.points ∧ p ∈ r'.points := by
  unfold inter
  rw [mem_between, mem_points, mem_points]
  omega

theorem mem_shift {dx dy : Int} : p ∈ (r.shift dx dy).points ↔ (p.1 - dx, p.2 - dy) ∈ r.points := by
  rw [mem_points, mem_points]
  unfold shift
  dsimp only
  omega

/-- A rectangle that has a width and a height has its corners. -/
theorem points_nonempty (hw : 0 < r.w) (hh : 0 < r.h) : r.points.Nonempty :=
  ⟨(r.x, r.y), by rw [mem_points]; dsimp only; omega⟩

theorem not_mem_of_nonpos (h : r.w ≤ 0 ∨ r.h ≤ 0) : p ∉ r.points := by
  rw [mem_points]
  omega

theorem points_nonempty_iff : r.points.Nonempty ↔ 0 < r.w ∧ 0 < r.h := by
  constructor
  · rintro ⟨p, hp⟩
    rw [mem_points] at hp
    omega
  · rintro ⟨hw, hh⟩
    exact points_nonempty hw hh

/-! ## Points that are carried -/

variable {src dst : Rect} {corner corner' : Int × Int}

theorem mem_carry {q : Int × Int} : (p, q) ∈ carry r src dst corner ↔
    p ∈ r.points ∧ p ∈ src.points ∧ q ∈ dst.points ∧ q = (p.1 - r.x + corner.1, p.2 - r.y + corner.2) := Iff.rfl

/-- Where the points get to determines how far they are carried. -/
theorem carry_eq_iff (hne : (corner.1 - r.x, corner.2 - r.y) ≠ (corner'.1 - r'.x, corner'.2 - r'.y)) :
    carry r src dst corner = carry r' src dst corner' ↔ carry r src dst corner = ∅ ∧ carry r' src dst corner' = ∅ := by
  have hapart : ∀ m, m ∈ carry r src dst corner → m ∉ carry r' src dst corner' := by
    rintro ⟨p, q⟩ hm hm'
    have heq := (mem_carry.mp hm).2.2.2.symm.trans (mem_carry.mp hm').2.2.2
    rw [Prod.mk.injEq] at heq
    refine hne (Prod.ext ?_ ?_)
    · dsimp only
      omega
    · dsimp only
      omega
  constructor
  · intro heq
    have hempty : carry r src dst corner = ∅ :=
      Set.eq_empty_of_forall_notMem fun m hm => hapart m hm (heq ▸ hm)
    exact ⟨hempty, heq ▸ hempty⟩
  · rintro ⟨hempty, hempty'⟩
    rw [hempty, hempty']

end Rect
