-- SUMMARY: Subtracting rectangles: the pieces are those of four bands, and when these are all that is left.
import Eel.Lib.CInt
import Eel.Lib.Rect
import Mathlib.Data.Set.Lattice
import Mathlib.Order.CompletePartialOrder
import Mathlib.Order.Disjoint

/-!
# Rectangle tools

`Subtract` cuts four bands out of a rectangle, above, below, to the left and to the right
of another one. The bands begin at 0 or end 10000 behind the other one, and what is
farther away is lost.
-/

namespace Eel.RectTools

/-- `r_construct`, of a rectangle from four integers. -/
def construct (x y w h : Int) : Rect := ⟨x, y, max w 0, max h 0⟩

/-- `Intersect`: nothing when a sum is too large. -/
def intersect (r1 r2 : Rect) : Option (Option Rect) := do
  let xmin := max r1.x r2.x
  let ymin := max r1.y r2.y
  let right1 ← CInt.check (r1.x + r1.w)
  let right2 ← CInt.check (r2.x + r2.w)
  let xmax := min right1 right2
  let bottom1 ← CInt.check (r1.y + r1.h)
  let bottom2 ← CInt.check (r2.y + r2.h)
  let ymax := min bottom1 bottom2
  if xmax ≤ xmin ∨ ymax ≤ ymin then some none
  else do
    let w ← CInt.check (xmax - xmin)
    let h ← CInt.check (ymax - ymin)
    some (some (construct xmin ymin w h))

/-- `Subtract`, with what it leaves in `output`. -/
def subtract (r1 r2 : Rect) (output : List Rect) : Option (List Rect) := do
  let x2 ← CInt.check (r2.x + r2.w)
  let y2 ← CInt.check (r2.y + r2.h)
  let top ← intersect r1 (construct 0 0 10000 r2.y)
  let bottom ← intersect r1 (construct 0 y2 10000 10000)
  let left ← intersect r1 (construct 0 r2.y r2.x r2.h)
  let right ← intersect r1 (construct x2 r2.y 10000 r2.h)
  some (output ++ top.toList ++ bottom.toList ++ left.toList ++ right.toList)

/-! ## Intersections -/

/-- A rectangle that is an object. -/
structure Ok (r : Rect) : Prop where
  x : CInt.InRange r.x
  y : CInt.InRange r.y
  w : 0 ≤ r.w ∧ r.w < 2 ^ 31
  h : 0 ≤ r.h ∧ r.h < 2 ^ 31

/-- The right and the lower edge are integers. -/
def Fits (r : Rect) : Prop := r.x + r.w < 2 ^ 31 ∧ r.y + r.h < 2 ^ 31

variable {r1 r2 r : Rect}

theorem construct_of_nonneg {x y w h : Int} (hw : 0 ≤ w) (hh : 0 ≤ h) : construct x y w h = ⟨x, y, w, h⟩ := by
  unfold construct
  rw [max_eq_left hw, max_eq_left hh]

theorem Ok.construct {x y w h : Int} (hx : CInt.InRange x) (hy : CInt.InRange y) (hw : w < 2 ^ 31) (hh : h < 2 ^ 31) :
    Ok (construct x y w h) where
  x := hx
  y := hy
  w := ⟨le_max_right w 0, max_lt hw (by decide)⟩
  h := ⟨le_max_right h 0, max_lt hh (by decide)⟩

theorem mem_construct {x y w h : Int} {p : Int × Int} :
    p ∈ (construct x y w h).points ↔ x ≤ p.1 ∧ p.1 < x + max w 0 ∧ y ≤ p.2 ∧ p.2 < y + max h 0 := Iff.rfl

theorem Ok.check_right (h : Ok r) (hfits : Fits r) : CInt.check (r.x + r.w) = some (r.x + r.w) := by
  have hx := h.x
  have hw := h.w
  unfold Fits at hfits
  unfold CInt.InRange at hx
  exact CInt.check_eq_some.mpr ⟨⟨by omega, by omega⟩, rfl⟩

theorem Ok.check_bottom (h : Ok r) (hfits : Fits r) : CInt.check (r.y + r.h) = some (r.y + r.h) := by
  have hy := h.y
  have hh := h.h
  unfold Fits at hfits
  unfold CInt.InRange at hy
  exact CInt.check_eq_some.mpr ⟨⟨by omega, by omega⟩, rfl⟩

/-- The intersection, if it has points. -/
def common (r1 r2 : Rect) : Option Rect :=
  if 0 < (r1.inter r2).w ∧ 0 < (r1.inter r2).h then some (r1.inter r2) else none

theorem intersect_eq (h1 : Ok r1) (h2 : Ok r2) (hfits1 : Fits r1) (hfits2 : Fits r2) :
    intersect r1 r2 = some (common r1 r2) := by
  have hx := h1.x
  have hy := h1.y
  have hw := h1.w
  have hh := h1.h
  unfold intersect common Rect.inter Rect.between
  rw [h1.check_right hfits1, h2.check_right hfits2, h1.check_bottom hfits1, h2.check_bottom hfits2]
  dsimp only [Option.bind_eq_bind, Option.bind_some]
  unfold CInt.InRange at hx hy
  by_cases hempty :
      min (r1.x + r1.w) (r2.x + r2.w) ≤ max r1.x r2.x ∨ min (r1.y + r1.h) (r2.y + r2.h) ≤ max r1.y r2.y
  · rw [if_pos hempty, if_neg (by omega)]
  · have hwidth : CInt.check (min (r1.x + r1.w) (r2.x + r2.w) - max r1.x r2.x) =
        some (min (r1.x + r1.w) (r2.x + r2.w) - max r1.x r2.x) :=
      CInt.check_eq_some.mpr ⟨⟨by omega, by omega⟩, rfl⟩
    have hheight : CInt.check (min (r1.y + r1.h) (r2.y + r2.h) - max r1.y r2.y) =
        some (min (r1.y + r1.h) (r2.y + r2.h) - max r1.y r2.y) :=
      CInt.check_eq_some.mpr ⟨⟨by omega, by omega⟩, rfl⟩
    rw [if_neg hempty, if_pos (by omega), hwidth, Option.bind_some, hheight, Option.bind_some,
      construct_of_nonneg (by omega) (by omega)]

/-- Sums that are too large have no result. -/
theorem intersect_fits {o : Option Rect} (h : intersect r1 r2 = some o) : Fits r1 ∧ Fits r2 := by
  unfold intersect at h
  obtain ⟨right1, hright1, h⟩ := Option.bind_eq_some_iff.mp h
  obtain ⟨right2, hright2, h⟩ := Option.bind_eq_some_iff.mp h
  obtain ⟨bottom1, hbottom1, h⟩ := Option.bind_eq_some_iff.mp h
  obtain ⟨bottom2, hbottom2, -⟩ := Option.bind_eq_some_iff.mp h
  exact ⟨⟨(CInt.check_eq_some.mp hright1).1.2, (CInt.check_eq_some.mp hbottom1).1.2⟩,
    (CInt.check_eq_some.mp hright2).1.2, (CInt.check_eq_some.mp hbottom2).1.2⟩

/-- The points of an intersection are those that are in both. -/
theorem exists_mem_common {p : Int × Int} :
    (∃ r ∈ common r1 r2, p ∈ r.points) ↔ p ∈ r1.points ∧ p ∈ r2.points := by
  rw [← Rect.mem_inter]
  unfold common
  split
  · exact ⟨by rintro ⟨r, hr, hp⟩; cases hr; exact hp, fun hp => ⟨_, rfl, hp⟩⟩
  · rename_i hempty
    refine iff_of_false (by rintro ⟨r, hr, -⟩; cases hr) (Rect.not_mem_of_nonpos ?_)
    omega

theorem common_nonempty (h : common r1 r2 = some r) : r.points.Nonempty := by
  unfold common at h
  split at h
  · rename_i hsize
    cases h
    exact Rect.points_nonempty hsize.1 hsize.2
  · cases h

/-! ## The bands -/

/-- The four bands around a rectangle. -/
def bands (r2 : Rect) : List Rect :=
  [construct 0 0 10000 r2.y, construct 0 (r2.y + r2.h) 10000 10000, construct 0 r2.y r2.x r2.h,
    construct (r2.x + r2.w) r2.y 10000 r2.h]

/-- The rectangles and the bands are where integers are. -/
structure InSight (r1 r2 : Rect) : Prop where
  fits : Fits r1
  right : r2.x + r2.w + 10000 < 2 ^ 31
  bottom : r2.y + r2.h + 10000 < 2 ^ 31

theorem filterMap_cons {α β : Type} {f : α → Option β} {a : α} {l : List α} :
    (a :: l).filterMap f = (f a).toList ++ l.filterMap f := by
  rw [List.filterMap_cons]
  cases f a <;> rfl

theorem subtract_eq (h1 : Ok r1) (h2 : Ok r2) (h : InSight r1 r2) (output : List Rect) :
    subtract r1 r2 output = some (output ++ (bands r2).filterMap (common r1)) := by
  have hx := h2.x
  have hy := h2.y
  have hw := h2.w
  have hh := h2.h
  have hright := h.right
  have hbottom := h.bottom
  have hfits : Fits r2 := ⟨by omega, by omega⟩
  unfold CInt.InRange at hx hy
  have htop := intersect_eq h1 (Ok.construct (x := 0) (y := 0) (w := 10000) (h := r2.y) (by decide) (by decide)
    (by decide) hy.2) h.fits ⟨by show (0 : Int) + 10000 < 2 ^ 31; decide, by unfold construct; dsimp only; omega⟩
  have hbelow := intersect_eq h1 (Ok.construct (x := 0) (y := r2.y + r2.h) (w := 10000) (h := 10000) (by decide)
    ⟨by omega, by omega⟩ (by decide) (by decide)) h.fits ⟨by show (0 : Int) + 10000 < 2 ^ 31; decide, hbottom⟩
  have hleft := intersect_eq h1 (Ok.construct (x := 0) (y := r2.y) (w := r2.x) (h := r2.h) (by decide) h2.y
    hx.2 hh.2) h.fits ⟨by unfold construct; dsimp only; omega, by unfold construct; dsimp only; omega⟩
  have hbehind := intersect_eq h1 (Ok.construct (x := r2.x + r2.w) (y := r2.y) (w := 10000) (h := r2.h)
    ⟨by omega, by omega⟩ h2.y (by decide) hh.2) h.fits ⟨hright, by unfold construct; dsimp only; omega⟩
  unfold subtract bands
  rw [h2.check_right hfits, h2.check_bottom hfits]
  dsimp only [Option.bind_eq_bind, Option.bind_some]
  rw [htop, Option.bind_some, hbelow, Option.bind_some, hleft, Option.bind_some, hbehind, Option.bind_some,
    filterMap_cons, filterMap_cons, filterMap_cons, filterMap_cons, List.filterMap_nil, List.append_nil]
  simp only [List.append_assoc]

theorem subtract_inSight {output pieces : List Rect} (h : subtract r1 r2 output = some pieces) : InSight r1 r2 := by
  unfold subtract at h
  obtain ⟨x2, hx2, h⟩ := Option.bind_eq_some_iff.mp h
  obtain ⟨y2, hy2, h⟩ := Option.bind_eq_some_iff.mp h
  obtain ⟨-, rfl⟩ := CInt.check_eq_some.mp hx2
  obtain ⟨-, rfl⟩ := CInt.check_eq_some.mp hy2
  obtain ⟨top, htop, h⟩ := Option.bind_eq_some_iff.mp h
  obtain ⟨bottom, hbottom, h⟩ := Option.bind_eq_some_iff.mp h
  obtain ⟨left, -, h⟩ := Option.bind_eq_some_iff.mp h
  obtain ⟨right, hright, -⟩ := Option.bind_eq_some_iff.mp h
  exact { fits := (intersect_fits htop).1, right := (intersect_fits hright).2.1, bottom := (intersect_fits hbottom).2.2 }

theorem exists_mem_bands {p : Int × Int} :
    (∃ r ∈ bands r2, p ∈ r.points) ↔
      (0 ≤ p.1 ∧ p.1 < 10000 ∧ 0 ≤ p.2 ∧ p.2 < r2.y) ∨
      (0 ≤ p.1 ∧ p.1 < 10000 ∧ r2.y + r2.h ≤ p.2 ∧ p.2 < r2.y + r2.h + 10000) ∨
      (0 ≤ p.1 ∧ p.1 < r2.x ∧ r2.y ≤ p.2 ∧ p.2 < r2.y + max r2.h 0) ∨
      (r2.x + r2.w ≤ p.1 ∧ p.1 < r2.x + r2.w + 10000 ∧ r2.y ≤ p.2 ∧ p.2 < r2.y + max r2.h 0) := by
  unfold bands
  simp only [List.mem_cons, List.not_mem_nil, or_false, exists_eq_or_imp, exists_eq_left, mem_construct]
  omega

/-- No point is in two bands. -/
theorem bands_disjoint (h2 : Ok r2) : (bands r2).Pairwise fun r r' => Disjoint r.points r'.points := by
  have hw := h2.w
  have hh := h2.h
  unfold bands
  simp only [List.pairwise_cons, List.mem_cons, List.not_mem_nil, or_false, forall_eq_or_imp, forall_eq,
    Set.disjoint_left, mem_construct, List.Pairwise.nil, and_true, IsEmpty.forall_iff, implies_true]
  refine ⟨⟨?_, ?_, ?_⟩, ⟨?_, ?_⟩, ?_⟩
  all_goals
    intro p hp hp'
    omega

/-- And none is in the rectangle. -/
theorem bands_outside (h2 : Ok r2) {p : Int × Int} (h : ∃ r ∈ bands r2, p ∈ r.points) : p ∉ r2.points := by
  have hw := h2.w
  have hh := h2.h
  rw [exists_mem_bands] at h
  rw [Rect.mem_points]
  omega

/-! ## Subtraction -/

/-- What `Subtract` is to produce. -/
structure Subtracted (r1 r2 : Rect) (pieces : List Rect) : Prop where
  disjoint : pieces.Pairwise fun r r' => Disjoint r.points r'.points
  nonempty : ∀ r ∈ pieces, r.points.Nonempty
  union : ⋃ r ∈ pieces, r.points = r1.points \ r2.points

/-- What there is of a rectangle above, below, to the left and to the right of another one is in the bands. -/
structure Covered (r1 r2 : Rect) : Prop where
  top : r1.points.Nonempty → r1.y < r2.y → 0 ≤ r1.x ∧ r1.x + r1.w ≤ 10000 ∧ 0 ≤ r1.y
  bottom : r1.points.Nonempty → r2.y + r2.h < r1.y + r1.h →
    0 ≤ r1.x ∧ r1.x + r1.w ≤ 10000 ∧ r1.y + r1.h ≤ r2.y + r2.h + 10000
  left : r1.points.Nonempty → max r1.y r2.y < min (r1.y + r1.h) (r2.y + r2.h) → r1.x < r2.x → 0 ≤ r1.x
  right : r1.points.Nonempty → max r1.y r2.y < min (r1.y + r1.h) (r2.y + r2.h) → r2.x + r2.w < r1.x + r1.w →
    r1.x + r1.w ≤ r2.x + r2.w + 10000

/-- A point of the one rectangle that is not in the other one is in a band. -/
def InBands (r1 r2 : Rect) : Prop := ∀ p ∈ r1.points, p ∉ r2.points → ∃ r ∈ bands r2, p ∈ r.points

theorem InBands.at {x y : Int} (h : InBands r1 r2) (hx : r1.x ≤ x ∧ x < r1.x + r1.w) (hy : r1.y ≤ y ∧ y < r1.y + r1.h)
    (hout : ¬(r2.x ≤ x ∧ x < r2.x + r2.w ∧ r2.y ≤ y ∧ y < r2.y + r2.h)) :
    (0 ≤ x ∧ x < 10000 ∧ 0 ≤ y ∧ y < r2.y) ∨ (0 ≤ x ∧ x < 10000 ∧ r2.y + r2.h ≤ y ∧ y < r2.y + r2.h + 10000) ∨
      (0 ≤ x ∧ x < r2.x ∧ r2.y ≤ y ∧ y < r2.y + max r2.h 0) ∨
      (r2.x + r2.w ≤ x ∧ x < r2.x + r2.w + 10000 ∧ r2.y ≤ y ∧ y < r2.y + max r2.h 0) :=
  exists_mem_bands.mp (h (x, y) ⟨hx.1, hx.2, hy.1, hy.2⟩ hout)

theorem inBands_iff (h2 : Ok r2) : InBands r1 r2 ↔ Covered r1 r2 := by
  have hw := h2.w
  have hh := h2.h
  constructor
  · -- Of each of the four parts, the corners that are farthest away have to be in a band.
    intro h
    refine { top := ?_, bottom := ?_, left := ?_, right := ?_ }
    · rintro ⟨p, hp⟩ hpart
      rw [Rect.mem_points] at hp
      have hfirst := h.at (x := r1.x) (y := r1.y) (by omega) (by omega) (by omega)
      have hlast := h.at (x := r1.x + r1.w - 1) (y := r1.y) (by omega) (by omega) (by omega)
      omega
    · rintro ⟨p, hp⟩ hpart
      rw [Rect.mem_points] at hp
      have hfirst := h.at (x := r1.x) (y := r1.y + r1.h - 1) (by omega) (by omega) (by omega)
      have hlast := h.at (x := r1.x + r1.w - 1) (y := r1.y + r1.h - 1) (by omega) (by omega) (by omega)
      omega
    · rintro ⟨p, hp⟩ hrows hpart
      rw [Rect.mem_points] at hp
      have hfirst := h.at (x := r1.x) (y := max r1.y r2.y) (by omega) (by omega) (by omega)
      omega
    · rintro ⟨p, hp⟩ hrows hpart
      rw [Rect.mem_points] at hp
      have hlast := h.at (x := r1.x + r1.w - 1) (y := max r1.y r2.y) (by omega) (by omega) (by omega)
      omega
  · intro h p hp hout
    have hnonempty : r1.points.Nonempty := ⟨p, hp⟩
    rw [Rect.mem_points] at hp hout
    rw [exists_mem_bands]
    rcases Int.lt_or_le p.2 r2.y with habove | habove
    · obtain ⟨hleft, hright, htop⟩ := h.top hnonempty (by omega)
      exact .inl ⟨by omega, by omega, by omega, habove⟩
    · rcases Int.lt_or_le p.2 (r2.y + r2.h) with hrow | hbelow
      · have hrows : max r1.y r2.y < min (r1.y + r1.h) (r2.y + r2.h) :=
          max_lt (lt_min (by omega) (by omega)) (lt_min (by omega) (by omega))
        rw [max_eq_left hh.1]
        rcases Int.lt_or_le p.1 r2.x with hbefore | hbefore
        · have hleft := h.left hnonempty hrows (by omega)
          exact .inr (.inr (.inl ⟨by omega, hbefore, habove, hrow⟩))
        · have hbehind : r2.x + r2.w ≤ p.1 := by omega
          have hright := h.right hnonempty hrows (by omega)
          exact .inr (.inr (.inr ⟨hbehind, by omega, habove, hrow⟩))
      · obtain ⟨hleft, hright, hbottom⟩ := h.bottom hnonempty (by omega)
        exact .inr (.inl ⟨by omega, by omega, hbelow, by omega⟩)

theorem exists_mem_pieces {p : Int × Int} :
    (∃ r ∈ (bands r2).filterMap (common r1), p ∈ r.points) ↔ p ∈ r1.points ∧ ∃ r ∈ bands r2, p ∈ r.points := by
  constructor
  · rintro ⟨r, hr, hp⟩
    obtain ⟨band, hband, hcommon⟩ := List.mem_filterMap.mp hr
    obtain ⟨hp1, hp2⟩ := exists_mem_common.mp ⟨r, hcommon, hp⟩
    exact ⟨hp1, band, hband, hp2⟩
  · rintro ⟨hp1, band, hband, hp2⟩
    obtain ⟨r, hcommon, hp⟩ := exists_mem_common.mpr ⟨hp1, hp2⟩
    exact ⟨r, List.mem_filterMap.mpr ⟨band, hband, hcommon⟩, hp⟩

/-- The pieces are what is left exactly if what is left is in the bands. -/
theorem pieces_subtracted (h2 : Ok r2) :
    Subtracted r1 r2 ((bands r2).filterMap (common r1)) ↔ Covered r1 r2 := by
  rw [← inBands_iff h2]
  constructor
  · intro h p hp hout
    have hmem : p ∈ ⋃ r ∈ (bands r2).filterMap (common r1), r.points := by
      rw [h.union]
      exact ⟨hp, hout⟩
    simp only [Set.mem_iUnion, exists_prop] at hmem
    exact (exists_mem_pieces.mp hmem).2
  · intro h
    refine { disjoint := ?_, nonempty := ?_, union := ?_ }
    · rw [List.pairwise_filterMap]
      refine (bands_disjoint h2).imp fun hdisjoint r hr r' hr' => ?_
      rw [Set.disjoint_left] at hdisjoint ⊢
      intro p hp hp'
      exact hdisjoint (exists_mem_common.mp ⟨r, hr, hp⟩).2 (exists_mem_common.mp ⟨r', hr', hp'⟩).2
    · intro r hr
      obtain ⟨band, -, hcommon⟩ := List.mem_filterMap.mp hr
      exact common_nonempty hcommon
    · ext p
      simp only [Set.mem_iUnion, exists_prop, Set.mem_sdiff]
      rw [exists_mem_pieces]
      exact ⟨fun ⟨hp, hband⟩ => ⟨hp, bands_outside h2 hband⟩, fun ⟨hp, hout⟩ => ⟨hp, h p hp hout⟩⟩

/-- `Subtract` does what it is to do exactly if no sum is too large and what is left is in the bands. -/
theorem subtract_iff {r1 r2 : Rect} (h1 : Ok r1) (h2 : Ok r2) :
    (∃ pieces, subtract r1 r2 [] = some pieces ∧ Subtracted r1 r2 pieces) ↔ InSight r1 r2 ∧ Covered r1 r2 := by
  constructor
  · rintro ⟨pieces, hsubtract, hpieces⟩
    have hsight := subtract_inSight hsubtract
    rw [subtract_eq h1 h2 hsight, List.nil_append] at hsubtract
    cases hsubtract
    exact ⟨hsight, (pieces_subtracted h2).mp hpieces⟩
  · rintro ⟨hsight, hcovered⟩
    exact ⟨_, subtract_eq h1 h2 hsight [], (pieces_subtracted h2).mpr hcovered⟩

/-- A hole in the middle. -/
theorem subtract_iff_hole :
    (∃ pieces, subtract ⟨0, 0, 30, 30⟩ ⟨10, 10, 10, 10⟩ [] = some pieces ∧
        Subtracted ⟨0, 0, 30, 30⟩ ⟨10, 10, 10, 10⟩ pieces) ↔
      InSight ⟨0, 0, 30, 30⟩ ⟨10, 10, 10, 10⟩ ∧ Covered ⟨0, 0, 30, 30⟩ ⟨10, 10, 10, 10⟩ :=
  subtract_iff ⟨by decide, by decide, by decide, by decide⟩
    ⟨by decide, by decide, by decide, by decide⟩

/-- Above and to the left of 0 there is no band. -/
theorem not_subtracted :
    ¬ ∀ r1 r2, Ok r1 → Ok r2 → ∃ pieces, subtract r1 r2 [] = some pieces ∧ Subtracted r1 r2 pieces := by
  intro h
  obtain ⟨pieces, hsubtract, hpieces⟩ := h ⟨-10, 0, 20, 10⟩ ⟨0, 0, 10, 10⟩ ⟨by decide, by decide, by decide, by decide⟩
    ⟨by decide, by decide, by decide, by decide⟩
  have hnone : subtract ⟨-10, 0, 20, 10⟩ ⟨0, 0, 10, 10⟩ [] = some [] := by
    decide
  obtain rfl : [] = pieces := Option.some.inj (hnone.symm.trans hsubtract)
  have hmem : ((-10, 0) : Int × Int) ∈ ⋃ r ∈ ([] : List Rect), r.points := by
    rw [hpieces.union, Set.mem_sdiff, Rect.mem_points, Rect.mem_points]
    decide
  simp at hmem

end Eel.RectTools
