-- SUMMARY: Lines and columns of source positions, with the position that was asked for last kept.
import Eel.Compiler.Bio
import Eel.Lib.CInt

/-!
# Source positions

`eel_bio_linecount` goes on from the position it was asked for last where it can. It answers
what a scan from the start would.
-/

namespace Eel

/-- `EEL_bio` as far as lines are counted: the source, and the position of the line count cache. -/
structure LineBio where
  data : List Byte
  lccPos : Int
  lccLine : Int
  lccCol : Int
  deriving DecidableEq

/-- `eel_bio_open`. The cache starts behind the end. -/
def eelBioOpen (data : List Byte) : Option LineBio :=
  (CInt.check (data.length + 1)).map fun pos => ⟨data, pos, 0, 0⟩

/-- Line and column behind a character. There is no result where an `int` overflows, or for tabs of size 0. -/
def countChar (tab : Int) (lc : Int × Int) (ch : Byte) : Option (Int × Int) := do
  let (l, c) := lc
  if ch = 10 then return (← CInt.check (l + 1), 1)
  else if ch = 9 then
    let c ← CInt.check (c + (← CInt.check (tab + 1)))
    if tab = 0 then none else return (l, ← CInt.check (c - c.tmod tab))
  else
    -- .ess compressed newlines
    let (l, c) ← if ch.toNat ≤ 8 then do pure (← CInt.check (l + ch.toNat), (1 : Int)) else pure (l, c)
    if 32 ≤ ch.toNat then return (l, ← CInt.check (c + 1)) else return (l, c)

/-- The loop of `eel_bio_linecount` over the characters of a piece of source. -/
def countChars (tab : Int) (text : List Byte) (lc : Int × Int) : Option (Int × Int) := text.foldlM (countChar tab) lc

namespace LineBio

/-- The loop of `eel_bio_linecount`, from a position and what is known there. -/
def countFrom (bio : LineBio) (tab : Int) (p pos : Nat) (lc : Int × Int) : Option (Option (Int × Int) × LineBio) :=
  (countChars tab ((bio.data.take pos).drop p) lc).map fun lc => (some lc, ⟨bio.data, pos, lc.1, lc.2⟩)

/-- `eel_bio_linecount`: line and column, or a failure. -/
def linecount (bio : LineBio) (tab pos : Int) : Option (Option (Int × Int) × LineBio) :=
  if bio.lccPos ≤ pos then
    if bio.data.length < pos then some (none, bio)
    else bio.countFrom tab bio.lccPos.toNat pos.toNat (bio.lccLine, bio.lccCol)
  else if pos < 0 then some (none, bio)
  else bio.countFrom tab 0 pos.toNat (1, 1)

/-- One query after the other. -/
def linecounts (tab : Int) : List Int → LineBio → Option (List (Option (Int × Int)) × LineBio)
  | [], bio => some ([], bio)
  | pos :: queries, bio => do
    let (answer, bio) ← bio.linecount tab pos
    let (answers, bio) ← linecounts tab queries bio
    return (answer :: answers, bio)

end LineBio

/-- Line and column of a position in a scan from the start, and a failure outside of the source. -/
def freshCount (data : List Byte) (tab pos : Int) : Option (Option (Int × Int)) :=
  if 0 ≤ pos ∧ pos ≤ data.length then (countChars tab (data.take pos.toNat) (1, 1)).map some else some none

/-! ## The cache -/

/-- The cache has what a scan from the start gives, or is behind the end. -/
structure LineBio.Valid (tab : Int) (data : List Byte) (bio : LineBio) : Prop where
  data_eq : bio.data = data
  cached : bio.lccPos = data.length + 1 ∨ 0 ≤ bio.lccPos ∧ bio.lccPos ≤ data.length ∧
    countChars tab (data.take bio.lccPos.toNat) (1, 1) = some (bio.lccLine, bio.lccCol)

variable {data : List Byte} {tab pos : Int} {bio : LineBio} {p q : Nat} {lc : Int × Int}

theorem countChars_append (s t : List Byte) (lc : Int × Int) :
    countChars tab (s ++ t) lc = (countChars tab s lc).bind (countChars tab t) := List.foldlM_append

/-- A scan goes on where one that stopped earlier left off. -/
theorem countChars_resume (hle : p ≤ q) (h : countChars tab (data.take p) (1, 1) = some lc) :
    countChars tab ((data.take q).drop p) lc = countChars tab (data.take q) (1, 1) := by
  have hsplit : data.take q = data.take p ++ (data.take q).drop p := by
    have htake : (data.take q).take p = data.take p := by
      rw [List.take_take, Nat.min_eq_left hle]
    rw [← htake, List.take_append_drop]
  rw [hsplit, countChars_append, h, ← hsplit]
  rfl

theorem eelBioOpen_valid (h : eelBioOpen data = some bio) : bio.Valid tab data := by
  obtain ⟨pos, hpos, rfl⟩ := Option.map_eq_some_iff.mp h
  obtain ⟨-, rfl⟩ := CInt.check_eq_some.mp hpos
  exact ⟨rfl, .inl rfl⟩

/-- Where a scan reaches a position with what a scan from the start gives, so does the cache. -/
theorem countFrom_fresh (hdata : bio.data = data) (hpos : 0 ≤ pos ∧ pos ≤ data.length)
    (hscan : countChars tab ((data.take pos.toNat).drop p) lc = countChars tab (data.take pos.toNat) (1, 1)) :
    (bio.countFrom tab p pos.toNat lc).map Prod.fst = freshCount data tab pos ∧
      ∀ answer bio', bio.countFrom tab p pos.toNat lc = some (answer, bio') → bio'.Valid tab data := by
  unfold LineBio.countFrom freshCount
  rw [if_pos hpos, hdata, hscan, Option.map_map]
  refine ⟨rfl, fun answer bio' h => ?_⟩
  obtain ⟨lc', hlc, hbio⟩ := Option.map_eq_some_iff.mp h
  obtain rfl := congrArg Prod.snd hbio
  refine ⟨rfl, .inr ⟨Int.natCast_nonneg _, ?_, hlc⟩⟩
  show (pos.toNat : Int) ≤ data.length
  omega

/-- A query is answered as by a scan from the start, and the cache stays valid. -/
theorem linecount_fresh (h : bio.Valid tab data) (pos : Int) :
    (bio.linecount tab pos).map Prod.fst = freshCount data tab pos ∧
      ∀ answer bio', bio.linecount tab pos = some (answer, bio') → bio'.Valid tab data := by
  have hfail (hout : ¬ (0 ≤ pos ∧ pos ≤ data.length)) :
      some none = freshCount data tab pos ∧
        ∀ (answer : Option (Int × Int)) (bio' : LineBio), some (none, bio) = some (answer, bio') →
          bio'.Valid tab data := by
    refine ⟨(if_neg hout).symm, fun answer bio' heq => ?_⟩
    obtain ⟨-, rfl⟩ := Prod.mk.inj (Option.some.inj heq)
    exact h
  unfold LineBio.linecount
  rw [h.data_eq]
  split
  · next hge =>
    split
    · next hgt => exact hfail fun hin => absurd hin.2 (Int.not_le.mpr hgt)
    · next hle =>
      obtain ⟨hnonneg, -, hcached⟩ := h.cached.resolve_left (by omega)
      exact countFrom_fresh h.data_eq ⟨by omega, by omega⟩ (countChars_resume (by omega) hcached)
  · split
    · next hneg => exact hfail fun hin => absurd hin.1 (Int.not_le.mpr hneg)
    · next hlt hnonneg =>
      have hin : 0 ≤ pos ∧ pos ≤ data.length := by
        rcases h.cached with hout | ⟨-, hcached, -⟩
        all_goals exact ⟨by omega, by omega⟩
      exact countFrom_fresh h.data_eq hin rfl

/-- Each query, in whatever order, is answered as by a scan from the start, and fails outside of the source. -/
theorem linecounts_fresh {data : List Byte} {bio : LineBio} (hopen : eelBioOpen data = some bio) (tab : Int)
    (queries : List Int) :
    (LineBio.linecounts tab queries bio).map Prod.fst = queries.mapM (freshCount data tab) := by
  have hvalid : bio.Valid tab data := eelBioOpen_valid hopen
  clear hopen
  induction queries generalizing bio with
  | nil => rfl
  | cons pos queries ih =>
    obtain ⟨hfresh, hkeep⟩ := linecount_fresh hvalid pos
    rw [List.mapM_cons, ← hfresh]
    unfold LineBio.linecounts
    cases hquery : bio.linecount tab pos with
    | none => rfl
    | some r =>
      obtain ⟨answer, bio'⟩ := r
      have hrest := ih (hkeep answer bio' hquery)
      simp only [Option.bind_eq_bind, Option.bind_some, Option.map_some, ← hrest]
      cases LineBio.linecounts tab queries bio' <;> rfl

/-- `a`, a tab, a line feed and `b`, asked for backwards. -/
theorem linecounts_fresh_backwards :
    (LineBio.linecounts 8 [4, 3, 2, 5] ⟨[97, 9, 10, 98], 5, 0, 0⟩).map Prod.fst =
      some [some (2, 2), some (2, 1), some (1, 8), none] := by
  have hopen : eelBioOpen [97, 9, 10, 98] = some ⟨[97, 9, 10, 98], 5, 0, 0⟩ := by decide
  have hfresh : [4, 3, 2, 5].mapM (freshCount [97, 9, 10, 98] 8) =
      some [some (2, 2), some (2, 1), some (1, 8), none] := by decide
  exact (linecounts_fresh hopen 8 [4, 3, 2, 5]).trans hfresh

end Eel
