-- SUMMARY: Surfaces of pixels: what clipping leaves of a rectangle, and windows, whose pixels are pixels of what they are in.
import Eel.Lib.Conversions
import Eel.Lib.Rect

/-!
# Surfaces

A surface has a size and the index of its first pixel among those of the surface that owns
them all. A window is a part of a surface, and a view is a window that remembers where it
is. The sizes of a surface are signed, those of a rectangle are not: what clipping leaves
of a rectangle that is not in the surface is very large.
-/

namespace Eel.Zs

open CInt

/-- `ZS_Surface`. -/
structure Surface where
  pixels : Int
  w : Int
  h : Int
  xo : Int
  yo : Int
  pitch : Int

def Surface.bounds (s : Surface) : Rect := ⟨0, 0, s.w, s.h⟩

/-- `zs_Pixel`. -/
def Surface.pixel (s : Surface) (x y : Int) : Int := s.pixels + (y * s.pitch + x)

/-- `zs_Clip`. The width and the height of the rectangle are unsigned. -/
def clip (r : Rect) (w h : Int) : Bool × Rect :=
  let x2 := signed (r.x + r.w)
  let y2 := signed (r.y + r.h)
  let x := if r.x < 0 then 0 else r.x
  let x2 := if w < x2 then w else x2
  let y := if r.y < 0 then 0 else r.y
  let y2 := if h < y2 then h else y2
  let r : Rect := ⟨x, y, unsigned (x2 - x), r.h⟩
  if r.w ≤ 0 then (false, r)
  else
    let r : Rect := { r with h := unsigned (y2 - y) }
    if r.h ≤ 0 then (false, r) else (true, r)

/-- `zs_NewSurface`. -/
def newSurface (w h : Int) : Surface := { pixels := 0, w := w, h := h, xo := 0, yo := 0, pitch := w }

/-- `zs_Window`, and what becomes of the area. -/
def Surface.window (s : Surface) (area : Rect) : Surface × Rect :=
  let area := (clip area s.w s.h).2
  ({ pixels := s.pixel area.x area.y, w := signed area.w, h := signed area.h, xo := 0, yo := 0, pitch := s.pitch },
    area)

/-- `zs_View`. -/
def Surface.view (s : Surface) (area : Rect) : Surface × Rect :=
  let w := s.window area
  ({ w.1 with xo := w.2.x, yo := w.2.y }, w.2)

/-! ## Small coordinates -/

/-- A coordinate of which five have a sum that is in range. -/
def IsSmall (n : Int) : Prop := -2 ^ 28 < n ∧ n < 2 ^ 28

instance (n : Int) : Decidable (IsSmall n) := inferInstanceAs (Decidable (_ ∧ _))

structure Surface.Small (s : Surface) : Prop where
  w : IsSmall s.w
  h : IsSmall s.h
  xo : IsSmall s.xo
  yo : IsSmall s.yo

/-- A rectangle that is given has no negative size. -/
structure SmallRect (r : Rect) : Prop where
  x : IsSmall r.x
  y : IsSmall r.y
  w : 0 ≤ r.w ∧ r.w < 2 ^ 28
  h : 0 ≤ r.h ∧ r.h < 2 ^ 28

theorem IsSmall.inRange {n : Int} (h : IsSmall n) : InRange n := by
  have hlow := h.1
  have hhigh := h.2
  exact ⟨by omega, by omega⟩

/-! ## Clipping -/

/-- A rectangle as it is seen from a surface with an offset. -/
structure Nearby (r : Rect) : Prop where
  x : -2 ^ 29 < r.x ∧ r.x < 2 ^ 29
  y : -2 ^ 29 < r.y ∧ r.y < 2 ^ 29
  w : IsSmall r.w
  h : IsSmall r.h

/-- What is in the surface. -/
def inside (r : Rect) (w h : Int) : Rect := r.inter ⟨0, 0, w, h⟩

variable {r : Rect} {w h : Int}

theorem inside_x : (inside r w h).x = max r.x 0 := rfl

theorem inside_y : (inside r w h).y = max r.y 0 := rfl

theorem inside_w : (inside r w h).w = min (r.x + r.w) w - max r.x 0 := by
  unfold inside Rect.inter Rect.between
  dsimp only
  rw [Int.zero_add]

theorem inside_h : (inside r w h).h = min (r.y + r.h) h - max r.y 0 := by
  unfold inside Rect.inter Rect.between
  dsimp only
  rw [Int.zero_add]

theorem inside_w_bound (hr : Nearby r) (hw : IsSmall w) : -2 ^ 30 < (inside r w h).w ∧ (inside r w h).w < 2 ^ 28 := by
  obtain ⟨hx, -, hrw, -⟩ := hr
  obtain ⟨hrw, hrw'⟩ := hrw
  obtain ⟨hw, hw'⟩ := hw
  rw [inside_w]
  omega

theorem inside_h_bound (hr : Nearby r) (hh : IsSmall h) : -2 ^ 30 < (inside r w h).h ∧ (inside r w h).h < 2 ^ 28 := by
  obtain ⟨-, hy, -, hrh⟩ := hr
  obtain ⟨hrh, hrh'⟩ := hrh
  obtain ⟨hh, hh'⟩ := hh
  rw [inside_h]
  omega

/-- The height that clipping leaves, which it does not look at if no width is left. -/
def heightLeft (r : Rect) (w h : Int) : Int := if (inside r w h).w = 0 then r.h else (inside r w h).h

theorem heightLeft_of_ne (hne : (inside r w h).w ≠ 0) : heightLeft r w h = (inside r w h).h := if_neg hne

theorem heightLeft_bound (hr : Nearby r) (hh : IsSmall h) : -2 ^ 30 < heightLeft r w h ∧ heightLeft r w h < 2 ^ 28 := by
  obtain ⟨hrh, hrh'⟩ := hr.h
  have hbound := inside_h_bound (w := w) hr hh
  unfold heightLeft
  split <;> omega

/-- The rectangle with its size as it is where that is unsigned. -/
def stored (r : Rect) : Rect := { r with w := unsigned r.w, h := unsigned r.h }

/-- What is left is what is inside, but for the height. -/
theorem clip_stored (hr : Nearby r) (hw : IsSmall w) (hh : IsSmall h) :
    clip (stored r) w h =
      (decide ((inside r w h).w ≠ 0 ∧ (inside r w h).h ≠ 0),
        stored { inside r w h with h := heightLeft r w h }) := by
  have hx2 : signed (r.x + unsigned r.w) = r.x + r.w := by
    obtain ⟨hx, -, hrw, -⟩ := hr
    obtain ⟨hrw, hrw'⟩ := hrw
    exact signed_add_unsigned ⟨by omega, by omega⟩
  have hy2 : signed (r.y + unsigned r.h) = r.y + r.h := by
    obtain ⟨-, hy, -, hrh⟩ := hr
    obtain ⟨hrh, hrh'⟩ := hrh
    exact signed_add_unsigned ⟨by omega, by omega⟩
  have hleft : (if r.x < 0 then 0 else r.x) = max r.x 0 := by
    split <;> omega
  have htop : (if r.y < 0 then 0 else r.y) = max r.y 0 := by
    split <;> omega
  have hright : (if w < r.x + r.w then w else r.x + r.w) = min (r.x + r.w) w := by
    split <;> omega
  have hbottom : (if h < r.y + r.h then h else r.y + r.h) = min (r.y + r.h) h := by
    split <;> omega
  have hwbound := inside_w_bound (h := h) hr hw
  have hhbound := inside_h_bound (w := w) hr hh
  have hwide := unsigned_le_zero (n := (inside r w h).w) ⟨by omega, by omega⟩
  have hhigh := unsigned_le_zero (n := (inside r w h).h) ⟨by omega, by omega⟩
  unfold clip stored heightLeft
  dsimp only
  rw [hx2, hy2, hleft, htop, hright, hbottom, ← inside_w (h := h), ← inside_h (w := w)]
  by_cases hw0 : (inside r w h).w = 0
  · rw [if_pos (hwide.mpr hw0), if_pos hw0, decide_eq_false (fun hne => hne.1 hw0)]
    rfl
  · rw [if_neg (fun hle => hw0 (hwide.mp hle)), if_neg hw0]
    by_cases hh0 : (inside r w h).h = 0
    · rw [if_pos (hhigh.mpr hh0), decide_eq_false (fun hne => hne.2 hh0)]
      rfl
    · rw [if_neg (fun hle => hh0 (hhigh.mp hle)), decide_eq_true ⟨hw0, hh0⟩]
      rfl

theorem stored_of_small (hr : SmallRect r) : stored r = r := by
  obtain ⟨hw, hw'⟩ := hr.w
  obtain ⟨hh, hh'⟩ := hr.h
  unfold stored
  rw [unsigned_of_nonneg ⟨by omega, by omega⟩ hw, unsigned_of_nonneg ⟨by omega, by omega⟩ hh]

theorem SmallRect.nearby (hr : SmallRect r) : Nearby r := by
  obtain ⟨⟨hx, hx'⟩, ⟨hy, hy'⟩, ⟨hw, hw'⟩, ⟨hh, hh'⟩⟩ := hr
  exact ⟨⟨by omega, by omega⟩, ⟨by omega, by omega⟩, ⟨by omega, hw'⟩, ⟨by omega, hh'⟩⟩

/-! ## Windows -/

variable {s : Surface} {p : Int × Int}

theorem mem_bounds : p ∈ s.bounds.points ↔ 0 ≤ p.1 ∧ p.1 < s.w ∧ 0 ≤ p.2 ∧ p.2 < s.h := by
  rw [Rect.mem_points]
  unfold Surface.bounds
  dsimp only
  rw [Int.zero_add, Int.zero_add]

/-- The pixels of a window are those of the surface that are in the area. -/
theorem window_bounds (hs : s.Small) (hr : SmallRect r) : p ∈ (s.window r).1.bounds.points ↔
    (max r.x 0 + p.1, max r.y 0 + p.2) ∈ r.points ∧ (max r.x 0 + p.1, max r.y 0 + p.2) ∈ s.bounds.points := by
  have hclip := clip_stored hr.nearby hs.w hs.h
  rw [stored_of_small hr] at hclip
  have hwbound := inside_w_bound (h := s.h) hr.nearby hs.w
  have hhbound := heightLeft_bound (w := s.w) hr.nearby hs.h
  have hin : ∀ q, q ∈ r.points ∧ q ∈ s.bounds.points ↔ q ∈ (inside r s.w s.h).points := fun q => Rect.mem_inter.symm
  rw [hin]
  unfold Surface.window Surface.bounds
  rw [hclip]
  unfold stored
  dsimp only
  rw [signed_unsigned ⟨by omega, by omega⟩, signed_unsigned ⟨by omega, by omega⟩, Rect.mem_points, Rect.mem_points,
    inside_x, inside_y]
  dsimp only
  by_cases hw0 : (inside r s.w s.h).w = 0
  · rw [hw0]
    omega
  · rw [heightLeft_of_ne hw0]
    omega

theorem window_pixel (hs : s.Small) (hr : SmallRect r) (x y : Int) :
    (s.window r).1.pixel x y = s.pixel (max r.x 0 + x) (max r.y 0 + y) := by
  have hclip := clip_stored hr.nearby hs.w hs.h
  rw [stored_of_small hr] at hclip
  unfold Surface.window
  rw [hclip]
  unfold stored Surface.pixel
  dsimp only
  rw [inside_x, inside_y, Int.add_mul]
  omega

/-- The surfaces that can be made of one with its own pixels. -/
inductive Surface.Made (w h : Int) : Surface → Prop
  | new : Made w h (newSurface w h)
  | window {s : Surface} {area : Rect} (hs : Made w h s) (hsmall : s.Small) (harea : SmallRect area) :
      Made w h (s.window area).1
  | view {s : Surface} {area : Rect} (hs : Made w h s) (hsmall : s.Small) (harea : SmallRect area) :
      Made w h (s.view area).1

/-- Each pixel of a surface is one of those that there are, in its row and column. -/
theorem Surface.Made.pixel_mem (hs : s.Made w h) (hp : p ∈ s.bounds.points) :
    ∃ q ∈ (newSurface w h).bounds.points, s.pixel p.1 p.2 = (newSurface w h).pixel q.1 q.2 := by
  induction hs generalizing p with
  | new => exact ⟨p, hp, rfl⟩
  | window hs hsmall harea ih =>
    obtain ⟨q, hq, hpixel⟩ := ih ((window_bounds hsmall harea).mp hp).2
    exact ⟨q, hq, (window_pixel hsmall harea p.1 p.2).trans hpixel⟩
  | view hs hsmall harea ih =>
    obtain ⟨q, hq, hpixel⟩ := ih ((window_bounds hsmall harea).mp hp).2
    exact ⟨q, hq, (window_pixel hsmall harea p.1 p.2).trans hpixel⟩

/-- So it is in the array that has been allocated. -/
theorem Surface.Made.pixel_range (hs : s.Made w h) (hp : p ∈ s.bounds.points) :
    0 ≤ s.pixel p.1 p.2 ∧ s.pixel p.1 p.2 < w * h := by
  obtain ⟨q, hq, hpixel⟩ := hs.pixel_mem hp
  obtain ⟨hleft, hright, htop, hbottom⟩ := mem_bounds.mp hq
  unfold newSurface at hright hbottom
  dsimp only at hright hbottom
  have hrows : (q.2 + 1) * w ≤ h * w := Int.mul_le_mul_of_nonneg_right hbottom (by omega)
  have hstart : 0 ≤ q.2 * w := Int.mul_nonneg htop (by omega)
  rw [Int.add_mul, Int.one_mul, Int.mul_comm h] at hrows
  rw [hpixel]
  unfold newSurface Surface.pixel
  dsimp only
  omega

end Eel.Zs
