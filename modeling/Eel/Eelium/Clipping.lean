-- SUMMARY: Filling and copying what is in a surface: which pixels are touched, and when these are the ones that are meant.
import Eel.Eelium.Surface

/-!
# Filling and copying

A rectangle is clipped to its surface, and what is copied is clipped again to where it goes.
What is touched is written down pixel by pixel. The sizes of a rectangle are unsigned, so a
test for one that is not positive only finds zero; what has been clipped away is copied
unless the size is exactly that.
-/

namespace Eel.Zs

open CInt

/-! ## The code -/

inductive Channel
  | r | g | b | a | i | z
  deriving DecidableEq

/-- The bit of a channel in `ZS_Channels`. -/
def Channel.mask : Channel → BitVec 32
  | r => 0x01
  | g => 0x02
  | b => 0x04
  | a => 0x08
  | i => 0x10
  | z => 0x20

def chRgb : BitVec 32 := 0x07
def chRgba : BitVec 32 := 0x0f
def chAll : BitVec 32 := 0x3f

def pixelChannels : List Channel := [.r, .g, .b, .a, .i, .z]

def selects (channels : BitVec 32) (c : Channel) : Bool := channels &&& c.mask != 0

/-- `for(x = xmin; x < xmax; ++x)`. -/
def steps (xmin xmax : Int) : List Int := (List.range (xmax - xmin).toNat).map fun (i : Nat) => xmin + i

/-- The rectangle of a call, which is the whole surface if there is none. -/
def given (s : Surface) (r : Option Rect) : Rect := r.getD ⟨0, 0, unsigned s.w, unsigned s.h⟩

def offset (s : Surface) (r : Rect) : Rect := { r with x := r.x - s.xo, y := r.y - s.yo }

/-- The channels that are written in a row of `zs_RawFill`. -/
def fillRow (channels : BitVec 32) (xmin xmax y : Int) : List (Channel × Int × Int) :=
  let pixels (cs : List Channel) := (steps xmin xmax).flatMap fun x => cs.map fun c => (c, x, y)
  if channels = chAll then pixels pixelChannels
  else if channels = chRgb then pixels [.r, .g, .b]
  else if channels = chRgba then pixels [.r, .g, .b, .a]
  else if channels = chRgb ||| Channel.z.mask then pixels [.r, .g, .b, .z]
  else (pixelChannels.filter (selects channels)).flatMap fun c => (steps xmin xmax).map fun x => (c, x, y)

/-- `zs_RawFill`, and what becomes of the rectangle. -/
def rawFill (channels : BitVec 32) (s : Surface) (r : Option Rect) : List (Channel × Int × Int) × Option Rect :=
  let c := clip (offset s (given s r)) s.w s.h
  let xmax := signed (c.2.x + c.2.w)
  let ymax := signed (c.2.y + c.2.h)
  (if c.1 then (steps c.2.y ymax).flatMap (fillRow (channels &&& chAll) c.2.x xmax) else [], r.map fun _ => c.2)

/-- What is left along one axis: where it starts, its size, and where it goes. -/
structure Fitted where
  start : Int
  size : Int
  dest : Int

/-- What would be in front of the destination is left out. -/
def nudge (start size dest : Int) : Fitted :=
  if dest < 0 then ⟨start - dest, unsigned (size + dest), 0⟩ else ⟨start, size, dest⟩

/-- So is what would be behind it. The comparison is one of unsigned numbers. -/
def fit (start size dest room : Int) : Fitted :=
  let f := nudge start size dest
  if unsigned room < unsigned (f.dest + f.size) then { f with size := unsigned (room - f.dest) } else f

/-- The channels that are copied in a row of `zs_RawCopy`. Whole pixels are copied as so many bytes, an `int`. -/
def copyRow (channels : BitVec 32) (w : Int) (p q : Int × Int) : List (Channel × (Int × Int) × (Int × Int)) :=
  let pixel (x : Int) (c : Channel) := (c, (p.1 + x, p.2), (q.1 + x, q.2))
  if channels = chAll then
    let bytes := signed (8 * w)
    (steps 0 (bytes % 2 ^ 64 / 8)).flatMap fun x => pixelChannels.map (pixel x)
  else (pixelChannels.filter (selects channels)).flatMap fun c => (steps 0 w).map fun x => pixel x c

/-- `zs_RawCopy`, and what becomes of the rectangle. -/
def rawCopy (channels : BitVec 32) (src : Surface) (srcr : Option Rect) (dst : Surface) (dx dy : Int) :
    List (Channel × (Int × Int) × (Int × Int)) × Option Rect :=
  let r := offset src (given src srcr)
  let dx := if r.x < 0 then dx - r.x else dx
  let dy := if r.y < 0 then dy - r.y else dy
  let c := (clip r src.w src.h).2
  let fx := fit c.x c.w (dx - dst.xo) dst.w
  let fy := fit c.y c.h (dy - dst.yo) dst.h
  (if fx.size ≤ 0 ∨ fy.size ≤ 0 then []
    else (steps 0 fy.size).flatMap fun y =>
      copyRow (channels &&& chAll) fx.size (fx.start, fy.start + y) (fx.dest, fy.dest + y),
    srcr.map fun _ => ⟨fx.start, fy.start, fx.size, fy.size⟩)

/-- `zs_Blit`, the pixels of each row with those that the pipe is run on. The position is a `float`. Without a
rectangle `srcr->x` is read nevertheless. -/
def blit (src : Surface) (srcr : Option Rect) (dst : Surface) (x y : Int) :
    Option (List ((Int × Int) × (Int × Int))) :=
  srcr.map fun srcr =>
    let xmin := float (float x - float src.xo)
    let ymin := float (float y - float src.yo)
    let xmin := if srcr.x < 0 then xmin - srcr.x else xmin
    let ymin := if srcr.y < 0 then ymin - srcr.y else ymin
    let sr := (clip (offset src srcr) src.w src.h).2
    let ymax := signed (ymin + sr.h)
    let xmax := signed (xmin + sr.w)
    let fx := nudge sr.x sr.w xmin
    let xmax := if dst.w < xmax then dst.w else xmax
    let fy := nudge sr.y sr.h ymin
    let ymax := if dst.h < ymax then dst.h else ymax
    if fx.size ≤ 0 ∨ fy.size ≤ 0 ∨ xmax ≤ fx.dest then []
    else (steps fy.dest ymax).flatMap fun iy => (steps 0 (xmax - fx.dest)).map fun i =>
      ((fx.start + i, fy.start + iy - fy.dest), (fx.dest + i, iy))

/-! ## What is meant -/

/-- The rectangle of a call in the coordinates of the surface itself. -/
def area (s : Surface) : Option Rect → Rect
  | some r => r.shift (-s.xo) (-s.yo)
  | none => s.bounds

/-- The pixels to copy, each with the one that it is copied to. -/
def meant (src : Surface) (r : Rect) (dst : Surface) (dx dy : Int) : Set ((Int × Int) × (Int × Int)) :=
  r.carry src.bounds dst.bounds (dx - dst.xo, dy - dst.yo)

def Filled (s : Surface) (r : Option Rect) : Prop :=
  ∀ channels c p, (c, p) ∈ (rawFill channels s r).1 ↔
    selects channels c ∧ p ∈ (area s r).points ∧ p ∈ s.bounds.points

def Copied (src : Surface) (r : Option Rect) (dst : Surface) (dx dy : Int) : Prop :=
  ∀ channels c m, (c, m) ∈ (rawCopy channels src r dst dx dy).1 ↔
    selects channels c ∧ m ∈ meant src (area src r) dst dx dy

def Blitted (src : Surface) (r : Option Rect) (dst : Surface) (dx dy : Int) : Prop :=
  ∃ ms, blit src r dst dx dy = some ms ∧ ∀ m, m ∈ ms ↔ m ∈ meant src (area src r) dst dx dy

/-- The two ways to copy touch the same pixels. -/
def Agree (src : Surface) (r : Option Rect) (dst : Surface) (dx dy : Int) : Prop :=
  ∃ ms, blit src r dst dx dy = some ms ∧
    ∀ channels c m, (c, m) ∈ (rawCopy channels src r dst dx dy).1 ↔ selects channels c ∧ m ∈ ms

/-- The pixels of a window are those of the surface that are in the area, in the same places. -/
def Windowed (s : Surface) (area : Rect) : Prop :=
  ∀ p : Int × Int,
    (p ∈ (s.window area).1.bounds.points ↔ (max area.x 0 + p.1, max area.y 0 + p.2) ∈ area.points ∧
      (max area.x 0 + p.1, max area.y 0 + p.2) ∈ s.bounds.points) ∧
    (s.window area).1.pixel p.1 p.2 = s.pixel (max area.x 0 + p.1) (max area.y 0 + p.2)

/-! ## Rows -/

theorem mem_steps {x xmin xmax : Int} : x ∈ steps xmin xmax ↔ xmin ≤ x ∧ x < xmax := by
  unfold steps
  rw [List.mem_map]
  constructor
  · rintro ⟨i, hi, rfl⟩
    rw [List.mem_range] at hi
    omega
  · rintro ⟨hmin, hmax⟩
    exact ⟨(x - xmin).toNat, List.mem_range.mpr (by omega), by omega⟩

theorem mem_pixelChannels (c : Channel) : c ∈ pixelChannels := by
  cases c <;> decide

theorem selects_masked (channels : BitVec 32) (c : Channel) : selects (channels &&& chAll) c = selects channels c := by
  have hmask : chAll &&& c.mask = c.mask := by
    cases c <;> rfl
  unfold selects
  rw [BitVec.and_assoc, hmask]

theorem selects_all (c : Channel) : selects chAll c = true := by
  cases c <;> rfl

variable {channels : BitVec 32} {c : Channel}

/-- The cases of a row differ in the order of the channels only. -/
theorem mem_fillRow {xmin xmax y x y' : Int} :
    (c, x, y') ∈ fillRow channels xmin xmax y ↔ selects channels c ∧ (xmin ≤ x ∧ x < xmax) ∧ y' = y := by
  have hpixels : ∀ cs : List Channel, (∀ c, c ∈ cs ↔ selects channels c) →
      ((c, x, y') ∈ (steps xmin xmax).flatMap (fun x => cs.map fun c => (c, x, y)) ↔
        selects channels c ∧ (xmin ≤ x ∧ x < xmax) ∧ y' = y) := by
    intro cs hcs
    simp only [List.mem_flatMap, List.mem_map, mem_steps, Prod.mk.injEq, hcs]
    constructor
    · rintro ⟨_, hx, _, hc, rfl, rfl, rfl⟩
      exact ⟨hc, hx, rfl⟩
    · rintro ⟨hc, hx, rfl⟩
      exact ⟨x, hx, c, hc, rfl, rfl, rfl⟩
  unfold fillRow
  dsimp only
  split
  · rename_i heq
    exact hpixels _ fun c => ⟨fun _ => heq ▸ selects_all c, fun _ => mem_pixelChannels c⟩
  split
  · rename_i heq
    refine hpixels _ fun c => ?_
    rw [heq]
    cases c <;> decide
  split
  · rename_i heq
    refine hpixels _ fun c => ?_
    rw [heq]
    cases c <;> decide
  split
  · rename_i heq
    refine hpixels _ fun c => ?_
    rw [heq]
    cases c <;> decide
  · simp only [List.mem_flatMap, List.mem_filter, List.mem_map, mem_steps, Prod.mk.injEq]
    constructor
    · rintro ⟨_, ⟨-, hc⟩, _, hx, rfl, rfl, rfl⟩
      exact ⟨hc, hx, rfl⟩
    · rintro ⟨hc, hx, rfl⟩
      exact ⟨c, ⟨mem_pixelChannels c, hc⟩, x, hx, rfl, rfl, rfl⟩

/-- A row of whole pixels has fewer bytes than an `int` can count, if it is short. -/
theorem mem_copyRow {w : Int} (hw : channels = chAll → 0 ≤ w ∧ w < 2 ^ 28) {p q : Int × Int} {m : (Int × Int) × (Int × Int)} :
    (c, m) ∈ copyRow channels w p q ↔
      selects channels c ∧ ∃ x, (0 ≤ x ∧ x < w) ∧ m = ((p.1 + x, p.2), (q.1 + x, q.2)) := by
  unfold copyRow
  dsimp only
  split
  · rename_i heq
    have hcount : signed (8 * w) % 2 ^ 64 / 8 = w := by
      have hw := hw heq
      rw [signed_of_inRange ⟨by omega, by omega⟩]
      omega
    rw [hcount]
    simp only [List.mem_flatMap, List.mem_map, mem_steps, Prod.mk.injEq]
    constructor
    · rintro ⟨x, hx, _, -, rfl, hm⟩
      exact ⟨heq ▸ selects_all _, x, hx, hm.symm⟩
    · rintro ⟨-, x, hx, hm⟩
      exact ⟨x, hx, c, mem_pixelChannels c, rfl, hm.symm⟩
  · simp only [List.mem_flatMap, List.mem_filter, List.mem_map, mem_steps, Prod.mk.injEq]
    constructor
    · rintro ⟨_, ⟨-, hc⟩, x, hx, rfl, hm⟩
      exact ⟨hc, x, hx, hm.symm⟩
    · rintro ⟨hc, x, hx, hm⟩
      exact ⟨c, ⟨mem_pixelChannels c, hc⟩, x, hx, rfl, hm.symm⟩

/-! ## Filling -/

variable {s src dst : Surface} {r : Option Rect}

/-- What is taken for the rectangle: the offset is subtracted from the whole surface as well. -/
def taken (s : Surface) (r : Option Rect) : Rect := (r.getD s.bounds).shift (-s.xo) (-s.yo)

theorem offset_given (hr : ∀ r' ∈ r, SmallRect r') : offset s (given s r) = stored (taken s r) := by
  cases r with
  | none => rfl
  | some r =>
    have hstored := stored_of_small (hr r rfl)
    unfold stored at hstored
    unfold offset given stored taken Rect.shift
    dsimp only [Option.getD_some]
    rw [(Rect.mk.inj hstored).2.2.1, (Rect.mk.inj hstored).2.2.2]
    rfl

theorem taken_nearby (hs : s.Small) (hr : ∀ r' ∈ r, SmallRect r') : Nearby (taken s r) := by
  obtain ⟨hw, hh, ⟨hxo, hxo'⟩, ⟨hyo, hyo'⟩⟩ := hs
  cases r with
  | none =>
    refine ⟨?_, ?_, hw, hh⟩
    all_goals
      unfold taken Rect.shift Surface.bounds
      dsimp only [Option.getD_none]
      omega
  | some r =>
    obtain ⟨⟨hx, hx'⟩, ⟨hy, hy'⟩, ⟨hw, hw'⟩, ⟨hh, hh'⟩⟩ := hr r rfl
    refine ⟨?_, ?_, ⟨?_, hw'⟩, ⟨?_, hh'⟩⟩
    all_goals
      unfold taken Rect.shift
      dsimp only [Option.getD_some]
      omega

/-- What is taken is what is meant, if there is a rectangle or no offset. -/
theorem taken_eq_area (h : r.isSome ∨ s.xo = 0 ∧ s.yo = 0) : taken s r = area s r := by
  cases r with
  | some r => rfl
  | none =>
    obtain hsome | ⟨hx, hy⟩ := h
    · cases hsome
    · unfold taken Rect.shift
      rw [hx, hy]
      rfl

theorem mem_rawFill (hs : s.Small) (hr : ∀ r' ∈ r, SmallRect r') {p : Int × Int} :
    (c, p) ∈ (rawFill channels s r).1 ↔
      selects channels c ∧ p ∈ (taken s r).points ∧ p ∈ s.bounds.points := by
  have hnear := taken_nearby hs hr
  have hclip := clip_stored hnear hs.w hs.h
  have hwbound := inside_w_bound (h := s.h) hnear hs.w
  have hhbound := inside_h_bound (w := s.w) hnear hs.h
  have hin : p ∈ (taken s r).points ∧ p ∈ s.bounds.points ↔ p ∈ (inside (taken s r) s.w s.h).points :=
    Rect.mem_inter.symm
  have hmem := Rect.mem_points (r := inside (taken s r) s.w s.h) (p := p)
  have hxrange : -2 ^ 30 < (inside (taken s r) s.w s.h).x ∧ (inside (taken s r) s.w s.h).x < 2 ^ 29 := by
    have hx := hnear.x
    rw [inside_x]
    omega
  have hyrange : -2 ^ 30 < (inside (taken s r) s.w s.h).y ∧ (inside (taken s r) s.w s.h).y < 2 ^ 29 := by
    have hy := hnear.y
    rw [inside_y]
    omega
  rw [hin, hmem]
  unfold rawFill
  rw [offset_given hr, hclip]
  unfold stored
  dsimp only
  by_cases hne : (inside (taken s r) s.w s.h).w ≠ 0 ∧ (inside (taken s r) s.w s.h).h ≠ 0
  · rw [decide_eq_true hne, if_pos rfl, heightLeft_of_ne hne.1, signed_add_unsigned ⟨by omega, by omega⟩,
      signed_add_unsigned ⟨by omega, by omega⟩, List.mem_flatMap]
    obtain ⟨x, y⟩ := p
    simp only [mem_steps, mem_fillRow, selects_masked]
    constructor
    · rintro ⟨y', hy, hc, hx, rfl⟩
      exact ⟨hc, hx.1, hx.2, hy⟩
    · rintro ⟨hc, hx, hx', hy⟩
      exact ⟨y, hy, hc, ⟨hx, hx'⟩, rfl⟩
  · rw [decide_eq_false hne, if_neg Bool.false_ne_true]
    constructor
    · intro h
      cases h
    · rintro ⟨-, h⟩
      omega

/-- A surface is filled as it is meant to be if the whole of it is not seen with an offset. -/
theorem filled_iff_rect (hs : s.Small) (hr : ∀ r' ∈ r, SmallRect r') :
    Filled s r ↔ r.isSome ∨ s.xo = 0 ∧ s.yo = 0 ∨ s.w ≤ 0 ∨ s.h ≤ 0 := by
  constructor
  · intro h
    cases r with
    | some r => exact .inl rfl
    | none =>
      right
      by_contra hno
      have hall : ∀ p, p ∈ s.bounds.points → p ∈ (taken s none).points := fun p hp =>
        ((mem_rawFill hs hr).mp ((h chAll .r p).mpr ⟨selects_all _, hp, hp⟩)).2.1
      have hfirst := hall (0, 0) (mem_bounds.mpr (by dsimp only; omega))
      have hlast := hall (s.w - 1, s.h - 1) (mem_bounds.mpr (by dsimp only; omega))
      rw [Rect.mem_points] at hfirst hlast
      unfold taken Rect.shift Surface.bounds at hfirst hlast
      dsimp only [Option.getD_none] at hfirst hlast
      omega
  · intro h channels c p
    rw [mem_rawFill hs hr]
    by_cases hsame : r.isSome ∨ s.xo = 0 ∧ s.yo = 0
    · rw [taken_eq_area hsame]
    · have hempty : p ∉ s.bounds.points := by
        refine Rect.not_mem_of_nonpos ?_
        unfold Surface.bounds
        dsimp only
        rcases h with h | h | h
        · exact absurd (.inl h) hsame
        · exact absurd (.inr h) hsame
        · exact h
      exact ⟨fun hp => absurd hp.2.2 hempty, fun hp => absurd hp.2.2 hempty⟩

/-! ## One axis of what is copied -/

/-- The end of what is copied, the smaller of two numbers that are compared unsigned. -/
def edge (e room : Int) : Int := if unsigned room < unsigned e then room else e

theorem nudge_unsigned (start size dest : Int) :
    nudge start (unsigned size) dest = ⟨start - min dest 0, unsigned (size + min dest 0), max dest 0⟩ := by
  unfold nudge
  split
  · rw [unsigned_unsigned_add, min_eq_left (by omega), max_eq_right (by omega)]
  · rw [min_eq_right (by omega), max_eq_left (by omega), Int.sub_zero, Int.add_zero]

theorem fit_unsigned (start size dest room : Int) :
    fit start (unsigned size) dest room =
      ⟨start - min dest 0, unsigned (edge (dest + size) room - max dest 0), max dest 0⟩ := by
  have hend : unsigned (max dest 0 + unsigned (size + min dest 0)) = unsigned (dest + size) := by
    rw [unsigned_add_unsigned]
    congr 1
    omega
  have hsize : size + min dest 0 = dest + size - max dest 0 := by omega
  unfold fit edge
  rw [nudge_unsigned]
  dsimp only
  rw [hend, hsize]
  split <;> rfl

/-- As long as something is left, it makes no difference that the comparison is unsigned. -/
theorem edge_of_lt {e room dest : Int} (he : InRange e) (hroom : InRange room) (hdest : 0 ≤ dest)
    (h : 0 < min e room - dest) : edge e room = min e room := by
  have hlt := unsigned_lt hroom he
  rw [if_pos (by omega)] at hlt
  unfold edge
  split
  · rename_i h
    rw [hlt] at h
    omega
  · rename_i h
    rw [hlt] at h
    omega

/-- Along one axis, what is copied is what is left of the source and has a place in the destination. -/
theorem along_iff {start size dest room p q : Int} :
    (∃ i, (0 ≤ i ∧ i < min (dest + size) room - max dest 0) ∧ p = start - min dest 0 + i ∧ q = max dest 0 + i) ↔
      (start ≤ p ∧ p < start + size) ∧ (0 ≤ q ∧ q < room) ∧ q = p - start + dest := by
  constructor
  · rintro ⟨i, hi, rfl, rfl⟩
    omega
  · rintro ⟨hp, hq, rfl⟩
    exact ⟨p - start + dest - max dest 0, by omega, by omega, by omega⟩

/-- The points that are carried are those along both axes. -/
theorem mem_carry_along {t : Rect} {X Y : Int} {p q : Int × Int} :
    (p, q) ∈ t.carry src.bounds dst.bounds (X + min t.x 0, Y + min t.y 0) ↔
      (∃ i, (0 ≤ i ∧ i < min (X + (inside t src.w src.h).w) dst.w - max X 0) ∧
        p.1 = max t.x 0 - min X 0 + i ∧ q.1 = max X 0 + i) ∧
      ∃ j, (0 ≤ j ∧ j < min (Y + (inside t src.w src.h).h) dst.h - max Y 0) ∧
        p.2 = max t.y 0 - min Y 0 + j ∧ q.2 = max Y 0 + j := by
  rw [Rect.mem_carry, ← and_assoc, ← Rect.mem_inter, along_iff, along_iff, ← inside_x (w := src.w) (h := src.h),
    ← inside_y (w := src.w) (h := src.h)]
  have hx := inside_x (r := t) (w := src.w) (h := src.h)
  have hy := inside_y (r := t) (w := src.w) (h := src.h)
  have hin : p ∈ (t.inter src.bounds).points ↔ _ := Rect.mem_points (r := inside t src.w src.h)
  rw [hin, mem_bounds]
  obtain ⟨q1, q2⟩ := q
  rw [Prod.mk.injEq]
  constructor
  · rintro ⟨hp, hq, rfl, rfl⟩
    exact ⟨⟨⟨hp.1, hp.2.1⟩, ⟨hq.1, hq.2.1⟩, by omega⟩, ⟨hp.2.2, hq.2.2, by omega⟩⟩
  · rintro ⟨⟨hpx, hqx, hx'⟩, hpy, hqy, hy'⟩
    dsimp only at hx' hy'
    exact ⟨⟨hpx.1, hpx.2, hpy.1, hpy.2⟩, ⟨hqx.1, hqx.2, hqy.1, hqy.2⟩, by omega, by omega⟩

/-! ## Blitting -/

/-- Where the corner of a rectangle gets to, along one axis. What is subtracted from the position is the offset of
the source, rounded as a `float`, and what the rectangle itself has on the negative side. -/
def landing (position offset corner : Int) : Int :=
  float (float position - float offset) - min corner 0 + min (corner - offset) 0

theorem float_bounds {n : Int} (h : IsSmall n) : -2 ^ 28 ≤ float n ∧ float n ≤ 2 ^ 28 :=
  abs_le.mp (float_bound (m := 28) (abs_le.mpr ⟨h.1.le, h.2.le⟩))

theorem float_sub_bounds {a b : Int} (ha : IsSmall a) (hb : IsSmall b) :
    -2 ^ 29 ≤ float (float a - float b) ∧ float (float a - float b) ≤ 2 ^ 29 := by
  have ha := float_bounds ha
  have hb := float_bounds hb
  exact abs_le.mp (float_bound (m := 29) (abs_le.mpr ⟨by omega, by omega⟩))

variable {dx dy : Int}

/-- What is copied is what is in both surfaces when the corner gets to the landing. -/
theorem blit_eq {r : Rect} (dst : Surface) (hsrc : src.Small) (hr : SmallRect r) (hdx : IsSmall dx)
    (hdy : IsSmall dy) :
    ∃ ms, blit src (some r) dst dx dy = some ms ∧ ∀ m, m ∈ ms ↔
      m ∈ (taken src (some r)).carry src.bounds dst.bounds (landing dx src.xo r.x, landing dy src.yo r.y) := by
  refine ⟨_, rfl, ?_⟩
  rintro ⟨p, q⟩
  have hr' : ∀ r' ∈ some r, SmallRect r' := by
    rintro _ ⟨⟩
    exact hr
  have hoffset : offset src r = stored (taken src (some r)) := offset_given hr'
  have hnear := taken_nearby hsrc hr'
  have hclip := clip_stored hnear hsrc.w hsrc.h
  have hwbound := inside_w_bound (h := src.h) hnear hsrc.w
  have hhbound := heightLeft_bound (w := src.w) hnear hsrc.h
  have hxbound : -2 ^ 30 < float (float dx - float src.xo) - min r.x 0 ∧
      float (float dx - float src.xo) - min r.x 0 < 2 ^ 30 := by
    have hpos := float_sub_bounds hdx hsrc.xo
    obtain ⟨hrx, hrx'⟩ := hr.x
    omega
  have hybound : -2 ^ 30 < float (float dy - float src.yo) - min r.y 0 ∧
      float (float dy - float src.yo) - min r.y 0 < 2 ^ 30 := by
    have hpos := float_sub_bounds hdy hsrc.yo
    obtain ⟨hry, hry'⟩ := hr.y
    omega
  have hxmin : ∀ n, (if r.x < 0 then n - r.x else n) = n - min r.x 0 := by
    intro n
    split <;> omega
  have hymin : ∀ n, (if r.y < 0 then n - r.y else n) = n - min r.y 0 := by
    intro n
    split <;> omega
  have hmin : ∀ a b : Int, (if a < b then a else b) = min b a := by
    intro a b
    split <;> omega
  have hx : landing dx src.xo r.x = _ + min (taken src (some r)).x 0 := rfl
  have hy : landing dy src.yo r.y = _ + min (taken src (some r)).y 0 := rfl
  rw [hx, hy, mem_carry_along]
  dsimp only
  rw [hoffset, hclip, hxmin, hymin, hmin, hmin]
  generalize float (float dx - float src.xo) - min r.x 0 = X at *
  generalize float (float dy - float src.yo) - min r.y 0 = Y at *
  generalize taken src (some r) = t at *
  unfold stored
  dsimp only
  rw [inside_x, inside_y, nudge_unsigned, nudge_unsigned, signed_add_unsigned ⟨by omega, by omega⟩]
  dsimp only
  have hwide := unsigned_le_zero (n := (inside t src.w src.h).w + min X 0) ⟨by omega, by omega⟩
  have hhigh := unsigned_le_zero (n := heightLeft t src.w src.h + min Y 0) ⟨by omega, by omega⟩
  split
  · rename_i hstop
    rw [hwide, hhigh] at hstop
    constructor
    · intro h
      cases h
    · rintro ⟨⟨i, hi, -⟩, j, hj, -⟩
      have hH := heightLeft_of_ne (r := t) (w := src.w) (h := src.h) (by omega)
      omega
  · have hH := heightLeft_of_ne (r := t) (w := src.w) (h := src.h) (by omega)
    rw [signed_add_unsigned ⟨by omega, by omega⟩, hH]
    obtain ⟨p1, p2⟩ := p
    obtain ⟨q1, q2⟩ := q
    simp only [List.mem_flatMap, List.mem_map, mem_steps, Prod.mk.injEq]
    constructor
    · rintro ⟨y, hy, i, hi, ⟨hp1, hp2⟩, hq1, hq2⟩
      exact ⟨⟨i, hi, hp1.symm, hq1.symm⟩, y - max Y 0, by omega, by omega, by omega⟩
    · rintro ⟨⟨i, hi, hp1, hq1⟩, j, hj, hp2, hq2⟩
      exact ⟨max Y 0 + j, by omega, i, hi, ⟨hp1.symm, by omega⟩, hq1.symm, hq2.symm⟩

/-! ## Copying -/

/-- Where what is left of a rectangle is copied to, along one axis. -/
def copyDest (dest offset corner : Int) : Int := dest - min corner 0 - offset

/-- The size of what is copied, before it becomes unsigned. -/
def copySize (dest left room : Int) : Int := edge (dest + left) room - max dest 0

def copyWidth (src : Surface) (t : Rect) (dst : Surface) (dx : Int) : Int :=
  copySize (copyDest dx dst.xo t.x) (inside t src.w src.h).w dst.w

def copyHeight (src : Surface) (t : Rect) (dst : Surface) (dy : Int) : Int :=
  copySize (copyDest dy dst.yo t.y) (heightLeft t src.w src.h) dst.h

theorem copyDest_bound {dest offset corner : Int} (hdest : IsSmall dest) (hoffset : IsSmall offset)
    (hcorner : -2 ^ 29 < corner) : -2 ^ 29 < copyDest dest offset corner ∧ copyDest dest offset corner < 2 ^ 30 := by
  obtain ⟨hdest, hdest'⟩ := hdest
  obtain ⟨hoffset, hoffset'⟩ := hoffset
  unfold copyDest
  omega

theorem copySize_bound {dest left room : Int} (hdest : -2 ^ 29 < dest ∧ dest < 2 ^ 30)
    (hleft : -2 ^ 30 < left ∧ left < 2 ^ 28) (hroom : IsSmall room) :
    InRange (copySize dest left room) := by
  obtain ⟨hroom, hroom'⟩ := hroom
  unfold copySize edge
  constructor
  · split <;> omega
  · split <;> omega

/-- What is copied is a rectangle, which has a size if there is anything to copy. -/
theorem copySize_of_pos {dest left room : Int} (hdest : -2 ^ 29 < dest ∧ dest < 2 ^ 30)
    (hleft : -2 ^ 30 < left ∧ left < 2 ^ 28) (hroom : IsSmall room) (h : 0 < min (dest + left) room - max dest 0) :
    copySize dest left room = min (dest + left) room - max dest 0 := by
  obtain ⟨hroom, hroom'⟩ := hroom
  unfold copySize
  rw [edge_of_lt ⟨by omega, by omega⟩ ⟨by omega, by omega⟩ (le_max_right dest 0) h]

theorem rawCopy_eq (hsrc : src.Small) (hdst : dst.Small) (hr : ∀ r' ∈ r, SmallRect r') (hdx : IsSmall dx)
    (hdy : IsSmall dy) :
    (rawCopy channels src r dst dx dy).1 =
      if copyWidth src (taken src r) dst dx = 0 ∨ copyHeight src (taken src r) dst dy = 0 then []
      else (steps 0 (unsigned (copyHeight src (taken src r) dst dy))).flatMap fun y =>
        copyRow (channels &&& chAll) (unsigned (copyWidth src (taken src r) dst dx))
          (max (taken src r).x 0 - min (copyDest dx dst.xo (taken src r).x) 0,
            max (taken src r).y 0 - min (copyDest dy dst.yo (taken src r).y) 0 + y)
          (max (copyDest dx dst.xo (taken src r).x) 0, max (copyDest dy dst.yo (taken src r).y) 0 + y) := by
  have hnear := taken_nearby hsrc hr
  have hwidth : unsigned (copyWidth src (taken src r) dst dx) ≤ 0 ↔ copyWidth src (taken src r) dst dx = 0 :=
    unsigned_le_zero
      (copySize_bound (copyDest_bound hdx hdst.xo hnear.x.1) (inside_w_bound hnear hsrc.w) hdst.w)
  have hheight : unsigned (copyHeight src (taken src r) dst dy) ≤ 0 ↔ copyHeight src (taken src r) dst dy = 0 :=
    unsigned_le_zero
      (copySize_bound (copyDest_bound hdy hdst.yo hnear.y.1) (heightLeft_bound hnear hsrc.h) hdst.h)
  have hx : (if (taken src r).x < 0 then dx - (taken src r).x else dx) - dst.xo = copyDest dx dst.xo (taken src r).x := by
    unfold copyDest
    split <;> omega
  have hy : (if (taken src r).y < 0 then dy - (taken src r).y else dy) - dst.yo = copyDest dy dst.yo (taken src r).y := by
    unfold copyDest
    split <;> omega
  rw [← if_congr (or_congr hwidth hheight) rfl rfl]
  unfold rawCopy
  dsimp only
  rw [offset_given hr, clip_stored hnear hsrc.w hsrc.h]
  unfold stored
  dsimp only
  rw [hx, hy, fit_unsigned, fit_unsigned, inside_x, inside_y]
  rfl

/-- The pixels that are meant, along both axes. -/
theorem mem_meant {t : Rect} {p q : Int × Int} :
    (p, q) ∈ meant src t dst dx dy ↔
      (∃ i, (0 ≤ i ∧ i < min (copyDest dx dst.xo t.x + (inside t src.w src.h).w) dst.w -
          max (copyDest dx dst.xo t.x) 0) ∧
        p.1 = max t.x 0 - min (copyDest dx dst.xo t.x) 0 + i ∧ q.1 = max (copyDest dx dst.xo t.x) 0 + i) ∧
      ∃ j, (0 ≤ j ∧ j < min (copyDest dy dst.yo t.y + (inside t src.w src.h).h) dst.h -
          max (copyDest dy dst.yo t.y) 0) ∧
        p.2 = max t.y 0 - min (copyDest dy dst.yo t.y) 0 + j ∧ q.2 = max (copyDest dy dst.yo t.y) 0 + j := by
  have hx : copyDest dx dst.xo t.x + min t.x 0 = dx - dst.xo := by
    unfold copyDest
    omega
  have hy : copyDest dy dst.yo t.y + min t.y 0 = dy - dst.yo := by
    unfold copyDest
    omega
  rw [← mem_carry_along, hx, hy]
  rfl

/-- If there is anything to copy, that is copied. -/
theorem mem_rawCopy (hsrc : src.Small) (hdst : dst.Small) (hr : ∀ r' ∈ r, SmallRect r') (hdx : IsSmall dx)
    (hdy : IsSmall dy) (hsome : (meant src (taken src r) dst dx dy).Nonempty) {m : (Int × Int) × (Int × Int)} :
    (c, m) ∈ (rawCopy channels src r dst dx dy).1 ↔
      selects channels c ∧ m ∈ meant src (taken src r) dst dx dy := by
  have hnear := taken_nearby hsrc hr
  have hxdest := copyDest_bound hdx hdst.xo hnear.x.1
  have hydest := copyDest_bound hdy hdst.yo hnear.y.1
  have hwbound := inside_w_bound (h := src.h) hnear hsrc.w
  have hhbound := inside_h_bound (w := src.w) hnear hsrc.h
  obtain ⟨⟨p₀, q₀⟩, hm₀⟩ := hsome
  obtain ⟨⟨i₀, hi₀, -⟩, j₀, hj₀, -⟩ := mem_meant.mp hm₀
  have hwidth : copyWidth src (taken src r) dst dx =
      min (copyDest dx dst.xo (taken src r).x + (inside (taken src r) src.w src.h).w) dst.w -
        max (copyDest dx dst.xo (taken src r).x) 0 :=
    copySize_of_pos hxdest hwbound hdst.w (by omega)
  have hheight : copyHeight src (taken src r) dst dy =
      min (copyDest dy dst.yo (taken src r).y + (inside (taken src r) src.w src.h).h) dst.h -
        max (copyDest dy dst.yo (taken src r).y) 0 := by
    unfold copyHeight
    rw [heightLeft_of_ne (by omega), copySize_of_pos hydest hhbound hdst.h (by omega)]
  have hrow : 0 ≤ copyWidth src (taken src r) dst dx ∧ copyWidth src (taken src r) dst dx < 2 ^ 28 := by omega
  have hrows : 0 ≤ copyHeight src (taken src r) dst dy ∧ copyHeight src (taken src r) dst dy < 2 ^ 28 := by omega
  obtain ⟨p, q⟩ := m
  rw [rawCopy_eq hsrc hdst hr hdx hdy, if_neg (by omega), unsigned_of_nonneg ⟨by omega, by omega⟩ hrow.1,
    unsigned_of_nonneg ⟨by omega, by omega⟩ hrows.1, mem_meant, ← hwidth, ← hheight, List.mem_flatMap]
  simp only [mem_copyRow fun _ => hrow, selects_masked, mem_steps, Prod.ext_iff]
  constructor
  · rintro ⟨j, hj, hc, i, hi, ⟨hp1, hp2⟩, hq1, hq2⟩
    exact ⟨hc, ⟨i, hi, hp1, hq1⟩, j, hj, hp2, hq2⟩
  · rintro ⟨hc, ⟨i, hi, hp1, hq1⟩, j, hj, hp2, hq2⟩
    exact ⟨j, hj, hc, i, hi, ⟨hp1, hp2⟩, hq1, hq2⟩

/-- If there is nothing left along an axis, nothing is copied. -/
def Stops (src : Surface) (r : Option Rect) (dst : Surface) (dx dy : Int) : Prop :=
  copyWidth src (taken src r) dst dx = 0 ∨ copyHeight src (taken src r) dst dy = 0

theorem rawCopy_stops (hsrc : src.Small) (hdst : dst.Small) (hr : ∀ r' ∈ r, SmallRect r') (hdx : IsSmall dx)
    (hdy : IsSmall dy) (hstops : Stops src r dst dx dy) : (rawCopy channels src r dst dx dy).1 = [] := by
  rw [rawCopy_eq hsrc hdst hr hdx hdy]
  exact if_pos hstops

/-- If there is not, a pixel is, whether it is meant or not. -/
theorem rawCopy_goes (hsrc : src.Small) (hdst : dst.Small) (hr : ∀ r' ∈ r, SmallRect r') (hdx : IsSmall dx)
    (hdy : IsSmall dy) (hgoes : ¬ Stops src r dst dx dy) :
    ∃ m, (Channel.r, m) ∈ (rawCopy Channel.r.mask src r dst dx dy).1 ∧
      m.2 = (m.1.1 - (taken src r).x + (dx - dst.xo), m.1.2 - (taken src r).y + (dy - dst.yo)) := by
  have hnear := taken_nearby hsrc hr
  have hwrange : InRange (copyWidth src (taken src r) dst dx) :=
    copySize_bound (copyDest_bound hdx hdst.xo hnear.x.1) (inside_w_bound hnear hsrc.w) hdst.w
  have hhrange : InRange (copyHeight src (taken src r) dst dy) :=
    copySize_bound (copyDest_bound hdy hdst.yo hnear.y.1) (heightLeft_bound hnear hsrc.h) hdst.h
  have hw := unsigned_le_zero hwrange
  have hh := unsigned_le_zero hhrange
  obtain ⟨hwne, hhne⟩ := not_or.mp hgoes
  have hwpos := unsigned_nonneg (n := copyWidth src (taken src r) dst dx)
  have hhpos := unsigned_nonneg (n := copyHeight src (taken src r) dst dy)
  refine ⟨((max (taken src r).x 0 - min (copyDest dx dst.xo (taken src r).x) 0,
    max (taken src r).y 0 - min (copyDest dy dst.yo (taken src r).y) 0),
    (max (copyDest dx dst.xo (taken src r).x) 0, max (copyDest dy dst.yo (taken src r).y) 0)), ?_, ?_⟩
  · rw [rawCopy_eq hsrc hdst hr hdx hdy, if_neg (not_or.mpr ⟨hwne, hhne⟩), List.mem_flatMap]
    refine ⟨0, mem_steps.mpr (by omega), ?_⟩
    rw [mem_copyRow fun heq => absurd heq (by decide)]
    refine ⟨rfl, 0, by omega, ?_⟩
    dsimp only
    rw [Int.add_zero, Int.add_zero, Int.add_zero, Int.add_zero]
  · unfold copyDest
    dsimp only
    rw [Prod.mk.injEq]
    omega

/-- The whole surface is taken for another rectangle just if there is an offset. -/
theorem area_of_corner (hx : (taken src r).x = (area src r).x) (hy : (taken src r).y = (area src r).y) :
    r.isSome ∨ src.xo = 0 ∧ src.yo = 0 := by
  cases r with
  | some r => exact .inl rfl
  | none =>
    unfold taken Rect.shift area Surface.bounds at hx hy
    dsimp only [Option.getD_none] at hx hy
    exact .inr (by omega)

/-- Where a copy goes right: there is something to copy, from where it is meant to be; or there is nothing, and
along one of the axes exactly nothing is left. -/
def CopyFits (src : Surface) (r : Option Rect) (dst : Surface) (dx dy : Int) : Prop :=
  (meant src (taken src r) dst dx dy).Nonempty ∧ (r.isSome ∨ src.xo = 0 ∧ src.yo = 0) ∨
    meant src (taken src r) dst dx dy = ∅ ∧ meant src (area src r) dst dx dy = ∅ ∧ Stops src r dst dx dy

theorem copied_iff_fits (hsrc : src.Small) (hdst : dst.Small) (hr : ∀ r' ∈ r, SmallRect r') (hdx : IsSmall dx)
    (hdy : IsSmall dy) : Copied src r dst dx dy ↔ CopyFits src r dst dx dy := by
  have hplace : ∀ m : (Int × Int) × (Int × Int), m ∈ meant src (area src r) dst dx dy →
      m.2 = (m.1.1 - (taken src r).x + (dx - dst.xo), m.1.2 - (taken src r).y + (dy - dst.yo)) →
      r.isSome ∨ src.xo = 0 ∧ src.yo = 0 := by
    rintro ⟨p, q⟩ hm hq
    obtain ⟨-, -, -, hq'⟩ := Rect.mem_carry.mp hm
    have heq := hq.symm.trans hq'
    rw [Prod.mk.injEq] at heq
    dsimp only at heq
    exact area_of_corner (by omega) (by omega)
  constructor
  · intro h
    rcases Set.eq_empty_or_nonempty (meant src (taken src r) dst dx dy) with hnone | hsome
    · right
      have hstops : Stops src r dst dx dy := by
        by_contra hgoes
        obtain ⟨m, hm, hq⟩ := rawCopy_goes hsrc hdst hr hdx hdy hgoes
        have hmeant := ((h _ _ m).mp hm).2
        rw [← taken_eq_area (hplace m hmeant hq), hnone] at hmeant
        exact hmeant
      refine ⟨hnone, Set.eq_empty_of_forall_notMem fun m hm => ?_, hstops⟩
      have hcopy := (h chAll .r m).mpr ⟨selects_all _, hm⟩
      rw [rawCopy_stops hsrc hdst hr hdx hdy hstops] at hcopy
      cases hcopy
    · obtain ⟨⟨p, q⟩, hm⟩ := hsome
      have hcopy := (mem_rawCopy hsrc hdst hr hdx hdy ⟨_, hm⟩).mpr ⟨selects_all .r, hm⟩
      exact .inl ⟨⟨_, hm⟩, hplace (p, q) ((h _ _ _).mp hcopy).2 (Rect.mem_carry.mp hm).2.2.2⟩
  · rintro (⟨hsome, hsame⟩ | ⟨-, hnone, hstops⟩) channels c m
    · rw [mem_rawCopy hsrc hdst hr hdx hdy hsome, taken_eq_area hsame]
    · rw [rawCopy_stops hsrc hdst hr hdx hdy hstops, hnone]
      constructor
      · intro h
        cases h
      · rintro ⟨-, h⟩
        cases h

/-- Where blitting goes right: the corner of the rectangle gets to where it is meant to, or that makes no
difference, as nothing is in both surfaces. -/
def BlitFits (src : Surface) (r : Option Rect) (dst : Surface) (dx dy : Int) : Prop :=
  ∃ r' ∈ r, (landing dx src.xo r'.x, landing dy src.yo r'.y) = (dx - dst.xo, dy - dst.yo) ∨
    (taken src r).carry src.bounds dst.bounds (landing dx src.xo r'.x, landing dy src.yo r'.y) = ∅ ∧
      meant src (area src r) dst dx dy = ∅

theorem blitted_iff_fits (dst : Surface) (hsrc : src.Small) (hr : ∀ r' ∈ r, SmallRect r') (hdx : IsSmall dx) (hdy : IsSmall dy) :
    Blitted src r dst dx dy ↔ BlitFits src r dst dx dy := by
  cases r with
  | none =>
    constructor
    · rintro ⟨ms, hms, -⟩
      cases hms
    · rintro ⟨r', hr', -⟩
      cases hr'
  | some r =>
    obtain ⟨ms, hms, hmem⟩ := blit_eq dst hsrc (hr r rfl) hdx hdy
    have hsets : Blitted src (some r) dst dx dy ↔
        (taken src (some r)).carry src.bounds dst.bounds (landing dx src.xo r.x, landing dy src.yo r.y) =
          meant src (area src (some r)) dst dx dy := by
      constructor
      · rintro ⟨_, hms', hmem'⟩
        cases hms.symm.trans hms'
        ext m
        rw [← hmem, hmem']
      · intro heq
        exact ⟨ms, hms, fun m => by rw [hmem, heq]⟩
    rw [hsets]
    by_cases hplace : (landing dx src.xo r.x, landing dy src.yo r.y) = (dx - dst.xo, dy - dst.yo)
    · refine ⟨fun _ => ⟨r, rfl, .inl hplace⟩, fun _ => ?_⟩
      rw [hplace]
      rfl
    · refine (Rect.carry_eq_iff fun heq => ?_).trans ⟨fun h => ⟨r, rfl, .inr h⟩, ?_⟩
      · rw [Prod.mk.injEq] at heq
        have hx : (taken src (some r)).x = (area src (some r)).x := rfl
        have hy : (taken src (some r)).y = (area src (some r)).y := rfl
        exact hplace (Prod.ext (by dsimp only at heq ⊢; omega) (by dsimp only at heq ⊢; omega))
      · rintro ⟨_, ⟨⟩, h⟩
        exact h.resolve_left hplace

/-- Without offsets, the corner of a rectangle gets to where it is meant to. -/
theorem landing_of_no_offset {n : Int} (hn : n.natAbs < 2 ^ 24) (corner : Int) : landing n 0 corner = n := by
  have hzero : float 0 = 0 := float_of_lt (by decide)
  unfold landing
  rw [float_of_lt hn, hzero, Int.sub_zero, Int.sub_zero, float_of_lt hn]
  omega

theorem blitFits_of_no_offset {r : Rect} (hsrc : src.xo = 0 ∧ src.yo = 0) (hdst : dst.xo = 0 ∧ dst.yo = 0)
    (hdx : dx.natAbs < 2 ^ 24) (hdy : dy.natAbs < 2 ^ 24) : BlitFits src (some r) dst dx dy := by
  refine ⟨r, rfl, .inl ?_⟩
  rw [hsrc.1, hsrc.2, hdst.1, hdst.2, landing_of_no_offset hdx, landing_of_no_offset hdy, Int.sub_zero, Int.sub_zero]

/-- The two ways to copy touch the same pixels only if both touch those that are meant. -/
theorem agree_iff_fits (hsrc : src.Small) (hdst : dst.Small) (hr : ∀ r' ∈ r, SmallRect r') (hdx : IsSmall dx)
    (hdy : IsSmall dy) : Agree src r dst dx dy ↔ CopyFits src r dst dx dy ∧ BlitFits src r dst dx dy := by
  rw [← copied_iff_fits hsrc hdst hr hdx hdy, ← blitted_iff_fits dst hsrc hr hdx hdy]
  constructor
  · rintro ⟨ms, hms, hagree⟩
    have hcopied : Copied src r dst dx dy := by
      cases r with
      | none => cases hms
      | some r =>
        obtain ⟨_, hms', hmem⟩ := blit_eq dst hsrc (hr r rfl) hdx hdy
        cases hms.symm.trans hms'
        refine (copied_iff_fits hsrc hdst hr hdx hdy).mpr ?_
        rcases Set.eq_empty_or_nonempty (meant src (taken src (some r)) dst dx dy) with hnone | hsome
        · refine .inr ⟨hnone, hnone, ?_⟩
          by_contra hgoes
          obtain ⟨⟨p, q⟩, hm, hq⟩ := rawCopy_goes hsrc hdst hr hdx hdy hgoes
          obtain ⟨hp, hsrc', hdst', -⟩ := Rect.mem_carry.mp ((hmem _).mp ((hagree _ _ _).mp hm).2)
          have hmeant : (p, q) ∈ meant src (taken src (some r)) dst dx dy := Rect.mem_carry.mpr ⟨hp, hsrc', hdst', hq⟩
          rw [hnone] at hmeant
          exact hmeant
        · exact .inl ⟨hsome, .inl rfl⟩
    refine ⟨hcopied, ms, hms, fun m => ?_⟩
    have hboth := (hagree chAll .r m).symm.trans (hcopied chAll .r m)
    rw [selects_all] at hboth
    exact ⟨fun hm => (hboth.mp ⟨rfl, hm⟩).2, fun hm => (hboth.mpr ⟨rfl, hm⟩).2⟩
  · rintro ⟨hcopied, ms, hms, hmem⟩
    exact ⟨ms, hms, fun channels c m => by rw [hcopied, hmem]⟩

/-! ## Clipping as a whole -/

/-- What is promised of the surfaces and the arguments of a call. -/
structure Clipped (src : Surface) (r : Option Rect) (dst : Surface) (dx dy : Int) : Prop where
  filled : Filled src r
  copied : Copied src r dst dx dy
  blitted : Blitted src r dst dx dy
  agree : Agree src r dst dx dy
  windowed : ∀ area, SmallRect area → Windowed src area

/-- The arguments of a call, all of them small. -/
structure SmallCall (src : Surface) (r : Option Rect) (dst : Surface) (dx dy : Int) : Prop where
  src : src.Small
  dst : dst.Small
  r : ∀ r' ∈ r, SmallRect r'
  dx : IsSmall dx
  dy : IsSmall dy

theorem windowed (hs : s.Small) {area : Rect} (harea : SmallRect area) : Windowed s area := fun p =>
  ⟨window_bounds hs harea, window_pixel hs harea p.1 p.2⟩

/-- All operations do what is promised exactly where their coordinates fit, and each of them where its own do. The
pixels of a surface are all in the array that is allocated for them. -/
theorem clipped_iff {w h : Int} (hmade : src.Made w h) (hsmall : SmallCall src r dst dx dy) :
    (Clipped src r dst dx dy ↔ CopyFits src r dst dx dy ∧ BlitFits src r dst dx dy) ∧
      (Filled src r ↔ r.isSome ∨ src.xo = 0 ∧ src.yo = 0 ∨ src.w ≤ 0 ∨ src.h ≤ 0) ∧
      (Copied src r dst dx dy ↔ CopyFits src r dst dx dy) ∧
      (Blitted src r dst dx dy ↔ BlitFits src r dst dx dy) ∧
      ∀ p ∈ src.bounds.points, 0 ≤ src.pixel p.1 p.2 ∧ src.pixel p.1 p.2 < w * h := by
  have hfilled := filled_iff_rect hsmall.src hsmall.r
  have hcopied := copied_iff_fits hsmall.src hsmall.dst hsmall.r hsmall.dx hsmall.dy
  have hblitted := blitted_iff_fits dst hsmall.src hsmall.r hsmall.dx hsmall.dy
  have hagree := agree_iff_fits hsmall.src hsmall.dst hsmall.r hsmall.dx hsmall.dy
  refine ⟨⟨fun h => hagree.mp h.agree, fun h => ?_⟩, hfilled, hcopied, hblitted, fun p hp => hmade.pixel_range hp⟩
  obtain ⟨r', hr', -⟩ := h.2
  exact { filled := hfilled.mpr (.inl (Option.isSome_of_mem hr'))
          copied := hcopied.mpr h.1
          blitted := hblitted.mpr h.2
          agree := hagree.mpr h
          windowed := fun area harea => windowed hsmall.src harea }

/-- A square in the corner of a surface is copied to the middle of another one. -/
theorem clipped_iff_square :
    Clipped (newSurface 4 4) (some ⟨0, 0, 2, 2⟩) (newSurface 4 4) 1 1 := by
  refine (clipped_iff .new ⟨⟨by decide, by decide, by decide, by decide⟩, ⟨by decide, by decide, by decide, by decide⟩,
    ?_, by decide, by decide⟩).1.mpr
    ⟨.inl ⟨⟨((0, 0), (1, 1)), mem_meant.mpr ⟨⟨0, by decide, by decide, by decide⟩, 0, by decide, by decide, by decide⟩⟩,
      .inl rfl⟩, blitFits_of_no_offset ⟨rfl, rfl⟩ ⟨rfl, rfl⟩ (by decide) (by decide)⟩
  rintro _ ⟨⟩
  exact ⟨by decide, by decide, by decide, by decide⟩

/-- Behind the right edge of the destination, pixels are copied all the same. -/
theorem not_clipped :
    ¬ ∀ (src dst : Surface) (w h : Int) (r : Option Rect) (dx dy : Int),
      src.Made w h → dst.Made w h → SmallCall src r dst dx dy → Clipped src r dst dx dy := by
  intro hall
  have hsmall : SmallCall (newSurface 4 4) (some ⟨0, 0, 2, 2⟩) (newSurface 4 4) 5 0 := by
    refine ⟨⟨by decide, by decide, by decide, by decide⟩, ⟨by decide, by decide, by decide, by decide⟩, ?_, by decide,
      by decide⟩
    rintro _ ⟨⟩
    exact ⟨by decide, by decide, by decide, by decide⟩
  have hcopied := (hall _ _ 4 4 _ _ _ .new .new hsmall).copied
  rcases (copied_iff_fits hsmall.src hsmall.dst hsmall.r hsmall.dx hsmall.dy).mp hcopied with
    ⟨⟨⟨p, q⟩, hm⟩, -⟩ | ⟨-, -, hstops⟩
  · obtain ⟨⟨i, hi, -⟩, -⟩ := mem_meant.mp hm
    have hnone : min (copyDest 5 0 0 + 2) 4 - max (copyDest 5 0 0) 0 = (-1 : Int) := by decide
    have hi : 0 ≤ i ∧ i < min (copyDest 5 0 0 + 2) 4 - max (copyDest 5 0 0) 0 := hi
    omega
  · exact absurd hstops (by unfold Stops; decide)

end Eel.Zs
