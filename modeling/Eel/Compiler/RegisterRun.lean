-- SUMMARY: What the register allocator hands out over a run: disjoint ranges inside the table and the frame.
import Eel.Compiler.Registers
import Mathlib.Data.List.Induction

/-!
# Runs of the register allocator

As long as no register behind the frame that a byte can count is asked for, and none too far
behind the table, the ranges handed out are what they should be.
-/

namespace Eel

namespace RegTable

variable {t t' t'' : RegTable} {n i k first : Nat} {u : RegUse}

/-- What a register is in use for, wherever the table ends. -/
def useAt (t : RegTable) (r : Nat) : Option RegUse := t.registers[r]?.join

/-! ## The table grows -/

/-- The table has become larger, and nothing else has changed. -/
structure Grown (t t' : RegTable) : Prop where
  registers : ∃ k, t'.registers = t.registers ++ List.replicate k none
  framesize : t'.framesize = t.framesize
  cleansize : t'.cleansize = t.cleansize

theorem Grown.refl (t : RegTable) : Grown t t := ⟨⟨0, (List.append_nil _).symm⟩, rfl, rfl⟩

theorem Grown.trans (h : Grown t t') (h' : Grown t' t'') : Grown t t'' := by
  obtain ⟨k, hk⟩ := h.registers
  obtain ⟨k', hk'⟩ := h'.registers
  refine ⟨⟨k + k', ?_⟩, h'.framesize.trans h.framesize, h'.cleansize.trans h.cleansize⟩
  rw [hk', hk, List.append_assoc, List.replicate_append_replicate]

theorem useAt_append_replicate (l : List (Option RegUse)) (k r : Nat) :
    (l ++ List.replicate k none)[r]?.join = l[r]?.join := by
  rcases Nat.lt_or_ge r l.length with hlt | hge
  · rw [List.getElem?_append_left hlt]
  · rw [List.getElem?_append_right hge, List.getElem?_eq_none hge]
    cases hget : (List.replicate k (none : Option RegUse))[r - l.length]? with
    | none => rfl
    | some v =>
      obtain rfl := List.eq_of_mem_replicate (List.mem_of_getElem? hget)
      rfl

theorem Grown.useAt_eq (h : Grown t t') (r : Nat) : t'.useAt r = t.useAt r := by
  obtain ⟨k, hk⟩ := h.registers
  unfold useAt
  rw [hk, useAt_append_replicate]

theorem Grown.length_le (h : Grown t t') : t.registers.length ≤ t'.registers.length := by
  obtain ⟨k, hk⟩ := h.registers
  rw [hk, List.length_append]
  exact Nat.le_add_right ..

/-- `realloc_regs` doubles the table. -/
theorem reallocRegs_grown (hlen : t.registers.length ≤ 256) :
    ∃ t', t.reallocRegs = some t' ∧ Grown t t' ∧
      t'.registers.length = if t.registers.length = 0 then 16 else t.registers.length * 2 := by
  unfold reallocRegs
  by_cases hempty : t.registers = []
  · refine ⟨{ t with registers := t.registers ++ List.replicate (16 - t.registers.length) none }, ?_,
      ⟨⟨_, rfl⟩, rfl, rfl⟩, ?_⟩
    · rw [if_pos hempty]
      rfl
    · dsimp only
      rw [hempty]
      rfl
  · have hcheck : CInt.check ((t.registers.length : Int) * 2) = some ((t.registers.length : Int) * 2) :=
      CInt.check_eq_some.mpr ⟨⟨by omega, by omega⟩, rfl⟩
    have hne : t.registers.length ≠ 0 := fun heq => hempty (List.length_eq_zero_iff.mp heq)
    have hnat : ((t.registers.length : Int) * 2).toNat = t.registers.length * 2 := by omega
    refine ⟨{ t with registers := t.registers ++ List.replicate (t.registers.length * 2 - t.registers.length) none },
      ?_, ⟨⟨_, rfl⟩, rfl, rfl⟩, ?_⟩
    · rw [if_neg hempty, hcheck, ← hnat]
      rfl
    · rw [if_neg hne, List.length_append, List.length_replicate]
      omega

/-- A register that is asked for not too far behind the table is in it then. -/
theorem extend_grown (hlen : t.registers.length ≤ 512) (hsmall : i < 256)
    (hi : i < if t.registers.length = 0 then 16 else t.registers.length * 2) :
    ∃ t', t.extend i = some t' ∧ Grown t t' ∧ i < t'.registers.length ∧ t'.registers.length ≤ 512 := by
  unfold extend
  split
  · obtain ⟨t', ht', hgrown, hlen'⟩ := reallocRegs_grown (t := t) (by omega)
    refine ⟨t', ht', hgrown, hlen' ▸ hi, ?_⟩
    rw [hlen']
    split
    all_goals omega
  · exact ⟨t, rfl, .refl t, by omega, hlen⟩

/-- So is one right behind the table. -/
theorem extend_next (hlen : t.registers.length ≤ 512) (hsmall : i < 256) (hi : i ≤ t.registers.length) :
    ∃ t', t.extend i = some t' ∧ Grown t t' ∧ i < t'.registers.length ∧ t'.registers.length ≤ 512 := by
  refine extend_grown hlen hsmall ?_
  split
  all_goals omega

theorem use_eq (hi : i < t.registers.length) : t.use i = some (t.useAt i) := by
  unfold use useAt
  rw [if_neg (by omega), Int.toNat_natCast, List.getElem?_eq_getElem hi]
  rfl

/-! ## Searching -/

/-- Registers in a row are free. -/
def FreeFrom (t : RegTable) (first n : Nat) : Prop := ∀ r, first ≤ r → r < first + n → t.useAt r = none

theorem Grown.freeFrom_iff (h : Grown t t') : t'.FreeFrom first n ↔ t.FreeFrom first n := by
  unfold FreeFrom
  simp only [h.useAt_eq]

/-- Either all registers are free, and in the table, or one that is in the table is not. -/
theorem rangeFree_spec (hlen : t.registers.length ≤ 512) (hi : i ≤ t.registers.length) (hsmall : i + n ≤ 256) :
    ∃ ok t', rangeFree n i t = some (ok, t') ∧ Grown t t' ∧ t'.registers.length ≤ 512 ∧
      (ok = true → t.FreeFrom i n ∧ i + n ≤ t'.registers.length) ∧
      (ok = false → ∃ r, i ≤ r ∧ r < i + n ∧ t.useAt r ≠ none) := by
  induction n generalizing i t with
  | zero =>
    refine ⟨true, t, rfl, .refl t, hlen, fun _ => ⟨fun r hle hlt => absurd hlt (Nat.not_lt.mpr hle), hi⟩, nofun⟩
  | succ n ih =>
    obtain ⟨t₁, ht₁, hgrown₁, hlt₁, hlen₁⟩ := extend_next (i := i) hlen (by omega) hi
    have huse := use_eq hlt₁
    have hunfold : rangeFree (n + 1) i t =
        if t₁.useAt i ≠ none then some (false, t₁) else rangeFree n (i + 1) t₁ := by
      conv => lhs; unfold rangeFree
      rw [ht₁]
      change (t₁.use i).bind _ = _
      rw [huse]
      rfl
    rw [hunfold]
    split
    · next hused =>
      refine ⟨false, t₁, rfl, hgrown₁, hlen₁, nofun, fun _ => ⟨i, Nat.le_refl i, by omega, ?_⟩⟩
      rw [← hgrown₁.useAt_eq]
      exact hused
    · next hfree =>
      obtain ⟨ok, t', ht', hgrown, hlen', hok, hno⟩ := ih (i := i + 1) hlen₁ hlt₁ (by omega)
      refine ⟨ok, t', ht', hgrown₁.trans hgrown, hlen', fun heq => ?_, fun heq => ?_⟩
      · obtain ⟨hrest, hle⟩ := hok heq
        refine ⟨fun r hr hr' => ?_, by omega⟩
        rcases Nat.eq_or_lt_of_le hr with rfl | hlt
        · rw [← hgrown₁.useAt_eq]
          exact Decidable.not_not.mp hfree
        · rw [← hgrown₁.useAt_eq]
          exact hrest r hlt (by omega)
      · obtain ⟨r, hr, hr', hused⟩ := hno heq
        exact ⟨r, by omega, by omega, hgrown₁.useAt_eq r ▸ hused⟩

/-- The search ends at the first free range, which begins in the table or right behind it. -/
theorem findRange_spec {count : Int} {f : Nat} (hlen : t.registers.length ≤ 512) (hf : f ≤ t.registers.length)
    (hfree : t.FreeFrom f count.toNat) (hfit : f + count.toNat ≤ 256) (hcount : CInt.InRange count) (hle : first ≤ f)
    (hrounds : f < k + first) :
    ∃ (first' : Nat) (t' : RegTable), findRange count k first t = some ((first' : Int), t') ∧ Grown t t' ∧
      t'.registers.length ≤ 512 ∧ first' ≤ f ∧ t.FreeFrom first' count.toNat ∧
      first' + count.toNat ≤ t'.registers.length := by
  induction k generalizing first t with
  | zero => omega
  | succ k ih =>
    obtain ⟨ok, t₁, ht₁, hgrown₁, hlen₁, hok, hno⟩ :=
      rangeFree_spec (n := count.toNat) hlen (Nat.le_trans hle hf) (by omega)
    have hcheck : CInt.check ((first : Int) + count) = some ((first : Int) + count) :=
      CInt.check_eq_some.mpr ⟨⟨by have := hcount.1; omega, by omega⟩, rfl⟩
    have hunfold : findRange count (k + 1) first t =
        if ok = true then some ((first : Int), t₁) else findRange count k (first + 1) t₁ := by
      conv => lhs; unfold findRange
      rw [hcheck, ht₁]
      rfl
    rw [hunfold]
    cases ok with
    | true =>
      obtain ⟨hrange, hend⟩ := hok rfl
      exact ⟨first, t₁, rfl, hgrown₁, hlen₁, hle, hrange, hend⟩
    | false =>
      obtain ⟨r, hr, hr', hused⟩ := hno rfl
      have hlt : first < f := by
        refine Nat.lt_of_le_of_ne hle ?_
        rintro rfl
        exact hused (hfree r hr hr')
      obtain ⟨first', t', ht', hgrown, hlen', hle', hrange, hend⟩ :=
        ih hlen₁ (Nat.le_trans hf hgrown₁.length_le) (hgrown₁.freeFrom_iff.mpr hfree) (show first + 1 ≤ f from hlt)
          (by omega)
      exact ⟨first', t', ht', hgrown₁.trans hgrown, hlen', hle', hgrown₁.freeFrom_iff.mp hrange, hend⟩

/-- `topOf` is behind the last register in use. -/
theorem topOf_spec (n : Nat) (hn : n ≤ t.registers.length) :
    t.topOf n ≤ n ∧ (∀ r, t.topOf n ≤ r → r < n → t.useAt r = none) ∧
      ∀ k, (∀ r, r < n → t.useAt r ≠ none → r < k) → t.topOf n ≤ k := by
  induction n with
  | zero => exact ⟨Nat.le_refl 0, fun r _ hr => absurd hr (Nat.not_lt_zero r), fun k _ => Nat.zero_le k⟩
  | succ n ih =>
    have hget := use_eq (t := t) hn
    have huse : t.registers[n]? = some (t.useAt n) := by
      unfold useAt
      rw [List.getElem?_eq_getElem hn]
      rfl
    unfold topOf
    rw [huse]
    split
    · next hused =>
      have hused' : t.useAt n ≠ none := fun heq => hused (congrArg some heq)
      exact ⟨Nat.le_refl _, fun r hr hr' => absurd hr' (Nat.not_lt.mpr hr),
        fun k hk => hk n (Nat.lt_succ_self n) hused'⟩
    · next hfree =>
      obtain ⟨hle, habove, hleast⟩ := ih (Nat.le_of_succ_le hn)
      refine ⟨Nat.le_succ_of_le hle, fun r hr hr' => ?_, fun k hk => hleast k fun r hr => hk r (Nat.lt_succ_of_lt hr)⟩
      rcases Nat.lt_succ_iff_lt_or_eq.mp hr' with hlt | rfl
      · exact habove r hr hlt
      · exact Option.some.inj (Decidable.not_not.mp hfree)

/-- The table is doubled until a register below 256 is in it. -/
theorem makeRoom_spec {r : Int} (hlen : t.registers.length ≤ 512) (hr : r < 256) (hk : k < n)
    (hsize : t.registers.length = 0 ∧ 5 ≤ k ∨ 0 < t.registers.length ∧ 256 ≤ t.registers.length * 2 ^ k) :
    ∃ t', makeRoom r n t = some t' ∧ Grown t t' ∧ r < t'.registers.length ∧ t'.registers.length ≤ 512 := by
  induction n generalizing t k with
  | zero => omega
  | succ n ih =>
    unfold makeRoom
    split
    · next hle =>
      obtain ⟨t₁, ht₁, hgrown₁, hlen₁⟩ := reallocRegs_grown (t := t) (by omega)
      obtain ⟨k', rfl⟩ : ∃ k', k = k' + 1 := by
        refine Nat.exists_eq_add_one_of_ne_zero ?_
        rintro rfl
        rw [Nat.pow_zero] at hsize
        omega
      have hsize' : t₁.registers.length = 0 ∧ 5 ≤ k' ∨
          0 < t₁.registers.length ∧ 256 ≤ t₁.registers.length * 2 ^ k' := by
        refine .inr ?_
        rcases hsize with ⟨hzero, hk'⟩ | ⟨hpos, hsize⟩
        · rw [hlen₁, if_pos hzero]
          have hpow : 2 ^ 4 ≤ 2 ^ k' := Nat.pow_le_pow_right (by decide) (Nat.le_of_succ_le_succ hk')
          omega
        · rw [hlen₁, if_neg (Nat.ne_of_gt hpos), Nat.mul_assoc, ← Nat.pow_succ']
          exact ⟨Nat.mul_pos hpos (by decide), hsize⟩
      have hlen₁' : t₁.registers.length ≤ 512 := by
        split at hlen₁
        all_goals omega
      obtain ⟨t', ht', hgrown, hr', hlen'⟩ := ih hlen₁' (Nat.lt_of_succ_lt_succ hk) hsize'
      exact ⟨t', by rw [ht₁, Option.bind_some, ht'], hgrown₁.trans hgrown, hr', hlen'⟩
    · exact ⟨t, rfl, .refl t, by omega, hlen⟩

/-! ## Taking and giving back -/

theorem useAt_set {v : Option RegUse} (hi : i < t.registers.length) (r : Nat) :
    RegTable.useAt { t with registers := t.registers.set i v } r = if r = i then v else t.useAt r := by
  unfold useAt
  rw [List.getElem?_set]
  split
  · next heq =>
    rw [if_pos heq.symm]
    rfl
  · next hne => rw [if_neg fun heq => hne heq.symm]

/-- The registers of a range are set, and the others are not. -/
theorem setUses_spec {v : Option RegUse} (hend : first + n ≤ t.registers.length) :
    ∃ t', setUses v n first t = some t' ∧ t'.registers.length = t.registers.length ∧
      t'.framesize = t.framesize ∧ t'.cleansize = t.cleansize ∧
      (v = none → t'.registers.count (some .var) ≤ t.registers.count (some .var)) ∧
      ∀ r, t'.useAt r = if first ≤ r ∧ r < first + n then v else t.useAt r := by
  induction n generalizing first t with
  | zero => exact ⟨t, rfl, rfl, rfl, rfl, fun _ => Nat.le_refl _, fun r => (if_neg (by omega)).symm⟩
  | succ n ih =>
    have hfirst : first < t.registers.length := by omega
    have hset : t.setUse first v = some { t with registers := t.registers.set first v } := by
      unfold setUse
      rw [if_pos ⟨Int.natCast_nonneg _, by omega⟩, Int.toNat_natCast]
    obtain ⟨t', ht', hlen, hframe, hclean, hcount, huse⟩ :=
      ih (t := { t with registers := t.registers.set first v })
        (show first + 1 + n ≤ (t.registers.set first v).length by rw [List.length_set]; omega)
    refine ⟨t', ?_, hlen.trans (List.length_set), hframe, hclean, fun hv => ?_, fun r => ?_⟩
    · unfold setUses
      rw [hset, Option.bind_some]
      exact ht'
    · refine Nat.le_trans (hcount hv) ?_
      rw [hv]
      dsimp only
      rw [List.count_set hfirst]
      simp
    · rw [huse r, useAt_set hfirst]
      by_cases hr : r = first
      · rw [if_neg (by omega), if_pos hr, if_pos (by omega)]
      · rw [if_neg hr]
        by_cases hr' : first + 1 ≤ r ∧ r < first + 1 + n
        · rw [if_pos hr', if_pos (by omega)]
        · rw [if_neg hr', if_neg (by omega)]

/-- As many registers are in use as variables as there are, at most, below the frame size. -/
theorem count_le (h : ∀ r, t.useAt r ≠ none → r < n) : t.registers.count (some .var) ≤ n := by
  have hsplit : (t.registers.take n ++ t.registers.drop n).count (some .var) = _ := List.count_append
  rw [List.take_append_drop] at hsplit
  have hdrop : (t.registers.drop n).count (some .var) = 0 := by
    refine List.count_eq_zero.mpr fun hmem => ?_
    obtain ⟨i, hi⟩ := List.mem_iff_getElem?.mp hmem
    rw [List.getElem?_drop] at hi
    have huse : t.useAt (n + i) = some .var := by
      unfold useAt
      rw [hi]
      rfl
    have hlt := h (n + i) (by rw [huse]; exact Option.some_ne_none _)
    omega
  have htake := List.count_le_length (a := (some RegUse.var)) (l := t.registers.take n)
  rw [List.length_take] at htake
  omega

/-- Places of a list where a value stands are no more than it is counted. -/
theorem length_le_count {α : Type} [BEq α] [LawfulBEq α] {l : List α} {a : α} {rs : List Nat} (hnodup : rs.Nodup)
    (hrs : ∀ r ∈ rs, l[r]? = some a) : rs.length ≤ l.count a := by
  induction l using List.reverseRecOn generalizing rs with
  | nil =>
    cases rs with
    | nil => exact Nat.le_refl 0
    | cons r rs => exact nomatch hrs r List.mem_cons_self
  | append_singleton l x ih =>
    have herase := ih (hnodup.erase l.length) fun r hr => by
      obtain ⟨hne, hmem⟩ := hnodup.mem_erase_iff.mp hr
      have hget := hrs r hmem
      have hlt := (List.getElem?_eq_some_iff.mp hget).1
      rw [List.length_append, List.length_singleton] at hlt
      rwa [List.getElem?_append_left (by omega)] at hget
    rw [List.count_append]
    by_cases hmem : l.length ∈ rs
    · have hlast := hrs _ hmem
      rw [List.getElem?_append_right (Nat.le_refl _), Nat.sub_self] at hlast
      obtain rfl : x = a := Option.some.inj hlast
      rw [List.length_erase_of_mem hmem] at herase
      rw [List.count_singleton_self]
      omega
    · rw [List.erase_of_not_mem hmem] at herase
      exact Nat.le_trans herase (Nat.le_add_right ..)

/-- The clean size covers the variables, as long as a byte counts them. -/
theorem checkCleansize_spec (h : t.registers.count (some .var) < 256) :
    t.checkCleansize.registers = t.registers ∧ t.checkCleansize.framesize = t.framesize ∧
      t.registers.count (some .var) ≤ t.checkCleansize.cleansize.toNat := by
  unfold checkCleansize
  dsimp only
  split
  · refine ⟨rfl, rfl, ?_⟩
    rw [BitVec.toNat_ofNat, Nat.mod_eq_of_lt h]
  · next hle => exact ⟨rfl, rfl, Nat.le_of_not_lt hle⟩

/-- The frame size exceeds what is asked for, and does not shrink. -/
theorem bumpFramesize_spec {last size : Int} (hle : last < size) (hsize : size < 256) :
    (t.bumpFramesize last size).registers = t.registers ∧ (t.bumpFramesize last size).cleansize = t.cleansize ∧
      t.framesize.toNat ≤ (t.bumpFramesize last size).framesize.toNat ∧
      last < (t.bumpFramesize last size).framesize.toNat := by
  unfold bumpFramesize
  split
  · next hbump =>
    have hnat : ((BitVec.ofInt 8 size).toNat : Int) = size := by
      rw [BitVec.toNat_ofInt]
      omega
    refine ⟨rfl, rfl, ?_, ?_⟩
    · dsimp only
      omega
    · dsimp only
      omega
  · next hkeep => exact ⟨rfl, rfl, Nat.le_refl _, by omega⟩

end RegTable

namespace RegTable

variable {t : RegTable} {first n : Nat} {u : RegUse}

/-- The registers of a range are in use in the second table, and the sizes cover it. -/
structure Marked (t t' : RegTable) (first n : Nat) (u : RegUse) : Prop where
  length : t'.registers.length = t.registers.length
  useAt : ∀ r, t'.useAt r = if first ≤ r ∧ r < first + n then some u else t.useAt r
  grow : t.framesize.toNat ≤ t'.framesize.toNat
  cover : ∀ r, first ≤ r → r < first + n → r < t'.framesize.toNat
  clean : t'.registers.count (some .var) ≤ t'.cleansize.toNat

theorem mark_spec {m k : Int} (hframe : ∀ r, t.useAt r ≠ none → r < t.framesize.toNat)
    (hend : first + n ≤ t.registers.length) (hmk : m < k) (hk : k < 256)
    (hcover : ∀ r, first ≤ r → r < first + n → r ≤ m) :
    ∃ t', setUses (some u) n first (t.bumpFramesize m k) = some t' ∧ Marked t t'.checkCleansize first n u := by
  obtain ⟨hregisters, -, hgrow, hlast⟩ := bumpFramesize_spec (t := t) hmk hk
  generalize t.bumpFramesize m k = t₁ at hregisters hgrow hlast
  have huse₁ (r : Nat) : t₁.useAt r = t.useAt r := by
    unfold RegTable.useAt
    rw [hregisters]
  have hend₁ : first + n ≤ t₁.registers.length := by rwa [hregisters]
  obtain ⟨t₂, ht₂, hlen₂, hframe₂, -, -, huse₂⟩ := setUses_spec (v := some u) hend₁
  have hin (r : Nat) (hr : first ≤ r) (hr' : r < first + n) : r < t₂.framesize.toNat := by
    have hle := hcover r hr hr'
    rw [hframe₂]
    omega
  have hbelow (r : Nat) (hr : t₂.useAt r ≠ none) : r < t₂.framesize.toNat := by
    rw [huse₂, huse₁] at hr
    split at hr
    · next hrange => exact hin r hrange.1 hrange.2
    · rw [hframe₂]
      exact Nat.lt_of_lt_of_le (hframe r hr) hgrow
  have hcount := count_le hbelow
  obtain ⟨hregs, hframe₃, hclean⟩ := checkCleansize_spec (t := t₂) (Nat.lt_of_le_of_lt hcount t₂.framesize.isLt)
  refine ⟨t₂, ht₂, ⟨by rw [hregs, hlen₂, hregisters], fun r => ?_, ?_, fun r hr hr' => ?_, by rwa [hregs]⟩⟩
  · rw [← huse₁ r, ← huse₂ r]
    unfold RegTable.useAt
    rw [hregs]
  · rw [hframe₃, hframe₂]
    exact hgrow
  · rw [hframe₃]
    exact hin r hr hr'

theorem take_spec {count : Int} (hframe : ∀ r, t.useAt r ≠ none → r < t.framesize.toNat)
    (hend : first + count.toNat ≤ t.registers.length) (hfit : first + count ≤ 254) :
    ∃ t', t.take first count u = some ((first : Int), t') ∧ Marked t t' first count.toNat u := by
  obtain ⟨t', ht', hmarked⟩ := mark_spec (u := u) (m := first + count) (k := first + count + 1) hframe hend (by omega)
    (by omega) (fun r hr hr' => by omega)
  refine ⟨t'.checkCleansize, ?_, hmarked⟩
  unfold take
  change (setUses (some u) count.toNat first (t.bumpFramesize (first + count) (first + count + 1))).bind _ = _
  rw [ht']
  rfl

end RegTable

/-! ## Runs -/

/-- A register of the range. -/
def RegRange.Contains (R : RegRange) (r : Nat) : Prop := R.first ≤ r ∧ (r : Int) < R.first + R.count

instance (R : RegRange) (r : Nat) : Decidable (R.Contains r) := inferInstanceAs (Decidable (_ ∧ _))

/-- The allocator of a coder, the registers that are handed out and not given back, with what for, and all
ranges that were ever handed out. -/
structure RegHistory where
  table : RegTable
  owned : Nat → Option RegUse
  handed : List RegRange

namespace RegHistory

def start : RegHistory := ⟨.empty, fun _ => none, []⟩

/-- What a call is for. -/
def useOf : RegCall → Option RegUse
  | .alloc _ u | .allocTop _ u | .allocReg _ u => some u
  | .free .. => none

/-- The range that a call hands out, or gives back. -/
def rangeOf (out : Option RegRange) : RegCall → RegRange
  | .free first count => ⟨first.toInt, count.toInt⟩
  | _ => out.getD ⟨0, 0⟩

/-- What is owned behind a call. -/
def after (s : RegHistory) (c : RegCall) (out : Option RegRange) (t : RegTable) : RegHistory where
  table := t
  owned r := if (rangeOf out c).Contains r then useOf c else s.owned r
  handed := out.toList ++ s.handed

/-- No register behind the 255th is asked for, and a register by its number only if it is in the table or
in what the table is doubled to. What is freed is owned. -/
def Allowed (s : RegHistory) : RegCall → Prop
  | .alloc count _ => ∃ first : Nat, first + count.toInt ≤ 254 ∧
      ∀ r, RegRange.Contains ⟨first, count.toInt⟩ r → s.owned r = none
  | .allocTop count _ => ∃ first : Nat, first + count.toInt ≤ 254 ∧ ∀ r, s.owned r ≠ none → r < first
  | .allocReg r _ => 0 ≤ r.toInt ∧ r.toInt ≤ 254 ∧
      r.toInt < if s.table.registers = [] then 16 else 2 * s.table.registers.length
  | .free first count => 0 ≤ first.toInt ∧ 0 < count.toInt ∧
      ∀ r, RegRange.Contains ⟨first.toInt, count.toInt⟩ r → s.owned r ≠ none

/-- The states of runs of allowed calls. -/
inductive Reached : RegHistory → Prop
  | start : Reached start
  | call {s : RegHistory} {c : RegCall} {out : Option RegRange} {t : RegTable} (h : Reached s) (hallowed : s.Allowed c)
      (hcall : s.table.call c = some (.ok (out, t))) : Reached (s.after c out t)

/-- The table says what is owned, and the sizes cover it. -/
structure Inv (s : RegHistory) : Prop where
  owned : ∀ r, s.table.useAt r = s.owned r
  small : s.table.registers.length ≤ 512
  frame : ∀ r, s.owned r ≠ none → r < s.table.framesize.toNat
  handed : ∀ R ∈ s.handed, ∀ r, R.Contains r → r < s.table.framesize.toNat
  clean : s.table.registers.count (some .var) ≤ s.table.cleansize.toNat

theorem contains_iff {first r : Nat} {count : Int} :
    RegRange.Contains ⟨first, count⟩ r ↔ first ≤ r ∧ r < first + count.toNat := by
  unfold RegRange.Contains
  dsimp only
  omega

theorem Inv.frame_of_grown {s : RegHistory} (h : s.Inv) {t : RegTable} (hgrown : s.table.Grown t) (r : Nat)
    (hr : t.useAt r ≠ none) : r < t.framesize.toNat := by
  rw [hgrown.useAt_eq, h.owned] at hr
  rw [hgrown.framesize]
  exact h.frame r hr

/-- A range that is handed out is in the frame. -/
theorem Inv.hand {s : RegHistory} (h : s.Inv) {t t' : RegTable} {first : Nat} {count : Int} {c : RegCall} {u : RegUse}
    (hgrown : s.table.Grown t) (hlen : t.registers.length ≤ 512) (hmarked : t.Marked t' first count.toNat u)
    (huse : useOf c = some u) (hrange : rangeOf (some ⟨first, count⟩) c = ⟨first, count⟩) :
    (s.after c (some ⟨first, count⟩) t').Inv := by
  have hgrow := hmarked.grow
  rw [hgrown.framesize] at hgrow
  refine ⟨fun r => ?_, hmarked.length ▸ hlen, fun r hr => ?_, fun R hR r hr => ?_, hmarked.clean⟩
  · show t'.useAt r = if (rangeOf (some ⟨first, count⟩) c).Contains r then useOf c else s.owned r
    rw [hmarked.useAt, hrange, huse, hgrown.useAt_eq, h.owned]
    simp only [contains_iff]
  · change (if (rangeOf (some ⟨first, count⟩) c).Contains r then useOf c else s.owned r) ≠ none at hr
    rw [hrange] at hr
    split at hr
    · next hin =>
      obtain ⟨hlow, hhigh⟩ := contains_iff.mp hin
      exact hmarked.cover r hlow hhigh
    · exact Nat.lt_of_lt_of_le (h.frame r hr) hgrow
  · rcases List.mem_cons.mp hR with rfl | hR
    · obtain ⟨hlow, hhigh⟩ := contains_iff.mp hr
      exact hmarked.cover r hlow hhigh
    · exact Nat.lt_of_lt_of_le (h.handed R hR r hr) hgrow

/-- What an allowed call comes to: there is a result, what is handed out was free, and the invariant is kept. -/
def Served (s : RegHistory) (c : RegCall) : Prop :=
  ∃ result, s.table.call c = some result ∧ ∀ out t, result = .ok (out, t) →
    (s.after c out t).Inv ∧ ∀ R, out = some R → 0 ≤ R.first ∧ (∀ r, R.Contains r → s.owned r = none) ∧
      ∀ count u, c = .allocTop count u → ∀ r, s.owned r ≠ none → (r : Int) < R.first

theorem inRange_toInt (x : BitVec 32) : CInt.InRange x.toInt := by
  have hlow := BitVec.le_toInt x
  have hhigh := BitVec.toInt_lt (x := x)
  exact ⟨by simpa using hlow, by simpa using hhigh⟩

variable {s : RegHistory} {u : RegUse}

theorem Inv.alloc {count : BitVec 32} (h : s.Inv) (hallowed : s.Allowed (.alloc count u)) :
    s.Served (.alloc count u) := by
  obtain ⟨f, hfit, hfree⟩ := hallowed
  -- a free range that begins in the table or right behind it
  obtain ⟨f', hle, hfree', hfit', hsmall⟩ : ∃ f' : Nat, f' ≤ s.table.registers.length ∧
      s.table.FreeFrom f' count.toInt.toNat ∧ f' + count.toInt ≤ 254 ∧ f' + count.toInt.toNat ≤ 256 := by
    rcases Int.lt_or_le 0 count.toInt with hpos | hneg
    · refine ⟨min f s.table.registers.length, Nat.min_le_right _ _, fun r hr hr' => ?_, by omega, by omega⟩
      rcases Nat.lt_or_ge r s.table.registers.length with hlt | hge
      · rw [h.owned]
        exact hfree r (contains_iff.mpr ⟨by omega, by omega⟩)
      · unfold RegTable.useAt
        rw [List.getElem?_eq_none hge]
        rfl
    · exact ⟨0, Nat.zero_le _, fun r hr hr' => by omega, by omega, by omega⟩
  obtain ⟨first, t, ht, hgrown, hlen, hfirst, hrange, hend⟩ :=
    RegTable.findRange_spec (k := s.table.registers.length + 1) h.small hle hfree' hsmall (inRange_toInt count)
      (Nat.zero_le f') (by omega)
  have hlast : first + count.toInt ≤ 254 := by omega
  obtain ⟨t', ht', hmarked⟩ := RegTable.take_spec (u := u) (h.frame_of_grown hgrown) hend hlast
  refine ⟨.ok (some ⟨first, count.toInt⟩, t'), ?_, ?_⟩
  · change (s.table.eelRAlloc count.toInt u).map _ = _
    have halloc : s.table.eelRAlloc count.toInt u = some ((first : Int), t') := by
      unfold RegTable.eelRAlloc
      change (RegTable.findRange count.toInt (s.table.registers.length + 1) (0 : Nat) s.table).bind _ = _
      rw [ht]
      exact ht'
    rw [halloc]
    rfl
  · intro out t'' heq
    obtain ⟨rfl, rfl⟩ := Prod.mk.inj (Except.ok.inj heq)
    refine ⟨h.hand hgrown hlen hmarked rfl rfl, fun R hR => ?_⟩
    obtain rfl := Option.some.inj hR
    refine ⟨Int.natCast_nonneg _, fun r hr => ?_, fun count' u' heq => nomatch heq⟩
    obtain ⟨hlow, hhigh⟩ := contains_iff.mp hr
    rw [← h.owned]
    exact hrange r hlow hhigh

theorem Inv.allocTop {count : BitVec 32} (h : s.Inv) (hallowed : s.Allowed (.allocTop count u)) :
    s.Served (.allocTop count u) := by
  obtain ⟨f, hfit, hbelow⟩ := hallowed
  obtain ⟨hle, habove, hleast⟩ := RegTable.topOf_spec (t := s.table) s.table.registers.length (Nat.le_refl _)
  generalize hfirst : s.table.topOf s.table.registers.length = first at hle habove hleast
  have hfree (r : Nat) (hr : first ≤ r) : s.owned r = none := by
    rw [← h.owned]
    rcases Nat.lt_or_ge r s.table.registers.length with hlt | hge
    · exact habove r hr hlt
    · unfold RegTable.useAt
      rw [List.getElem?_eq_none hge]
      rfl
  have hmin : first ≤ f := hleast f fun r _ hr => hbelow r (h.owned r ▸ hr)
  have hlast : first + count.toInt ≤ 254 := by omega
  have hcheck : CInt.check (first + count.toInt) = some (first + count.toInt) := by
    have hlow := (inRange_toInt count).1
    exact CInt.check_eq_some.mpr ⟨⟨by omega, by omega⟩, rfl⟩
  have hsize : s.table.registers.length = 0 ∧ 5 ≤ 8 ∨
      0 < s.table.registers.length ∧ 256 ≤ s.table.registers.length * 2 ^ 8 := by
    omega
  obtain ⟨t, ht, hgrown, hroom, hlen⟩ :=
    RegTable.makeRoom_spec (r := first + count.toInt) (n := 32) h.small (by omega) (by decide) hsize
  have hend : first + count.toInt.toNat ≤ t.registers.length := by
    have hgrow := hgrown.length_le
    omega
  obtain ⟨t', ht', hmarked⟩ := RegTable.take_spec (u := u) (h.frame_of_grown hgrown) hend hlast
  refine ⟨.ok (some ⟨first, count.toInt⟩, t'), ?_, ?_⟩
  · change (s.table.eelRAllocTop count.toInt u).map _ = _
    have halloc : s.table.eelRAllocTop count.toInt u = some ((first : Int), t') := by
      unfold RegTable.eelRAllocTop
      rw [hfirst]
      change (CInt.check (first + count.toInt)).bind _ = _
      rw [hcheck]
      change (RegTable.makeRoom (first + count.toInt) 32 s.table).bind _ = _
      rw [ht]
      exact ht'
    rw [halloc]
    rfl
  · intro out t'' heq
    obtain ⟨rfl, rfl⟩ := Prod.mk.inj (Except.ok.inj heq)
    refine ⟨h.hand hgrown hlen hmarked rfl rfl, fun R hR => ?_⟩
    obtain rfl := Option.some.inj hR
    refine ⟨Int.natCast_nonneg _, fun r hr => hfree r (contains_iff.mp hr).1, fun _ _ _ r hr => ?_⟩
    have hlt : r < first := by
      refine Nat.lt_of_not_le fun hge => hr (hfree r hge)
    exact Int.ofNat_lt.mpr hlt

theorem Inv.allocReg {r : BitVec 32} (h : s.Inv) (hallowed : s.Allowed (.allocReg r u)) :
    s.Served (.allocReg r u) := by
  obtain ⟨hnonneg, hlast, hnear⟩ := hallowed
  obtain ⟨i, hi⟩ := Int.eq_ofNat_of_zero_le hnonneg
  rw [hi] at hlast hnear
  have hnear' : i < if s.table.registers.length = 0 then 16 else s.table.registers.length * 2 := by
    simp only [List.length_eq_zero_iff]
    split at hnear
    all_goals
      rename_i hempty
      first | rw [if_pos hempty] | rw [if_neg hempty]
      omega
  obtain ⟨t, ht, hgrown, hlt, hlen⟩ := RegTable.extend_grown h.small (by omega) hnear'
  have hcall : s.table.eelRAllocReg r.toInt u = if t.useAt i ≠ none then
      some (.error "Tried to allocate in-use register!") else
      ((t.bumpFramesize i (i + 1)).setUse i (some u)).map fun t => .ok t.checkCleansize := by
    unfold RegTable.eelRAllocReg
    rw [hi]
    change (s.table.extend i).bind _ = _
    rw [ht]
    change (t.use i).bind _ = _
    rw [RegTable.use_eq hlt, Option.bind_some]
    split
    · rfl
    · change ((t.bumpFramesize i (i + 1)).setUse i (some u)).bind _ = _
      cases (t.bumpFramesize i (i + 1)).setUse i (some u) <;> rfl
  unfold Served RegTable.call
  dsimp only
  rw [hcall]
  split
  · exact ⟨_, rfl, fun out t' heq => nomatch heq⟩
  · next hfree =>
    have hfree' : t.useAt i = none := Decidable.not_not.mp hfree
    obtain ⟨t', ht', hmarked⟩ := RegTable.mark_spec (t := t) (u := u) (m := i) (k := i + 1)
      (h.frame_of_grown hgrown) (show i + 1 ≤ t.registers.length from hlt) (by omega) (by omega)
      (fun r hr hr' => by omega)
    have hset : (t.bumpFramesize i (i + 1)).setUse i (some u) = some t' := by
      unfold RegTable.setUses at ht'
      rw [← ht']
      cases (t.bumpFramesize i (i + 1)).setUse i (some u) <;> rfl
    rw [hset, hi]
    refine ⟨_, rfl, fun out t'' heq => ?_⟩
    obtain ⟨rfl, rfl⟩ := Prod.mk.inj (Except.ok.inj heq)
    refine ⟨h.hand hgrown hlen hmarked rfl rfl, fun R hR => ?_⟩
    obtain rfl := Option.some.inj hR
    refine ⟨Int.natCast_nonneg _, fun r hr => ?_, fun count' u' heq => nomatch heq⟩
    obtain rfl : r = i := by
      obtain ⟨hlow, hhigh⟩ := contains_iff.mp hr
      have hone : (1 : Int).toNat = 1 := rfl
      omega
    rw [← h.owned, ← hgrown.useAt_eq]
    exact hfree'

theorem Inv.free {first count : BitVec 32} (h : s.Inv) (hallowed : s.Allowed (.free first count)) :
    s.Served (.free first count) := by
  obtain ⟨hnonneg, hpos, howned⟩ := hallowed
  obtain ⟨f, hf⟩ := Int.eq_ofNat_of_zero_le hnonneg
  obtain ⟨n, hn⟩ := Int.eq_ofNat_of_zero_le (Int.le_of_lt hpos)
  rw [hf, hn] at howned
  rw [hn] at hpos
  -- the last register is owned: it is in the table, and in the frame
  have hlast := howned (f + n - 1) (contains_iff.mpr ⟨by omega, by omega⟩)
  have hframe := h.frame _ hlast
  have hsmall := s.table.framesize.isLt
  have hin : f + n ≤ s.table.registers.length := by
    refine Nat.le_of_not_lt fun hlt => hlast ?_
    rw [← h.owned]
    unfold RegTable.useAt
    rw [List.getElem?_eq_none (by omega)]
    rfl
  obtain ⟨t, ht, hgrown, hlt, hlen⟩ := RegTable.extend_next (i := f + n) h.small (by omega) hin
  obtain ⟨t', ht', hlen', hframe', hclean', hcount, huse⟩ :=
    RegTable.setUses_spec (t := t) (v := none) (Nat.le_of_lt hlt)
  have hcall : s.table.call (.free first count) = some (.ok (none, t')) := by
    have hcheck : CInt.check ((f : Int) + n) = some ((f + n : Nat) : Int) :=
      CInt.check_eq_some.mpr ⟨⟨by omega, by omega⟩, Int.natCast_add ..⟩
    have hcount : (((f + n : Nat) : Int) - f).toNat = n := by omega
    unfold RegTable.call RegTable.eelRFree
    dsimp only
    rw [hf, hn, if_pos hpos, hcheck]
    change Option.map _ ((s.table.extend (f + n : Nat)).bind _) = _
    rw [ht, Option.bind_some, if_neg (by omega), hcount, ht']
    rfl
  refine ⟨_, hcall, fun out t'' heq => ?_⟩
  obtain ⟨rfl, rfl⟩ := Prod.mk.inj (Except.ok.inj heq)
  refine ⟨⟨fun r => ?_, hlen' ▸ hlen, fun r hr => ?_, fun R hR r hr => ?_, ?_⟩, fun R hR => nomatch hR⟩
  · show t'.useAt r = if RegRange.Contains ⟨first.toInt, count.toInt⟩ r then none else s.owned r
    rw [huse, hf, hn, hgrown.useAt_eq, h.owned]
    simp only [contains_iff, Int.toNat_natCast]
  · change (if RegRange.Contains ⟨first.toInt, count.toInt⟩ r then none else s.owned r) ≠ none at hr
    show r < t'.framesize.toNat
    rw [hframe', hgrown.framesize]
    split at hr
    · exact absurd rfl hr
    · exact h.frame r hr
  · show r < t'.framesize.toNat
    rw [hframe', hgrown.framesize]
    exact h.handed R hR r hr
  · show t'.registers.count (some .var) ≤ t'.cleansize.toNat
    refine Nat.le_trans (hcount rfl) ?_
    obtain ⟨k, hk⟩ := hgrown.registers
    have hnone : (List.replicate k (none : Option RegUse)).count (some .var) = 0 :=
      List.count_eq_zero.mpr fun hmem => nomatch List.eq_of_mem_replicate hmem
    rw [hk, List.count_append, hnone, Nat.add_zero, hclean', hgrown.cleansize]
    exact h.clean

/-- One step. -/
theorem Inv.call {c : RegCall} (h : s.Inv) (hallowed : s.Allowed c) : s.Served c := by
  cases c with
  | alloc count u => exact h.alloc hallowed
  | allocTop count u => exact h.allocTop hallowed
  | allocReg r u => exact h.allocReg hallowed
  | free first count => exact h.free hallowed

theorem Inv.start : start.Inv :=
  ⟨fun _ => rfl, Nat.zero_le _, fun _ h => absurd rfl h, fun _ h => (nomatch h), Nat.zero_le _⟩

/-- A whole run. -/
theorem Reached.inv (h : Reached s) : s.Inv := by
  induction h with
  | start => exact .start
  | call _ hallowed hcall ih =>
    obtain ⟨result, hresult, hserved⟩ := ih.call hallowed
    obtain rfl := Option.some.inj (hcall.symm.trans hresult)
    exact (hserved _ _ rfl).1

/-- As many variables as there are at one time are covered by the clean size. -/
theorem Inv.variables (h : s.Inv) {rs : List Nat} (hnodup : rs.Nodup) (hrs : ∀ r ∈ rs, s.owned r = some .var) :
    rs.length ≤ s.table.cleansize.toNat := by
  refine Nat.le_trans (RegTable.length_le_count hnodup fun r hr => ?_) h.clean
  have huse := hrs r hr
  rw [← h.owned] at huse
  exact Option.join_eq_some_iff.mp huse

end RegHistory

/-- In a run of allowed calls, the frame size is greater than every register that was handed out, and the clean
size covers the variables of any time. Every allowed call comes to its end inside the table, and hands out
a range that was free, above all that is in use if it is asked for at the top. -/
theorem registers_reached (s : RegHistory) (h : s.Reached) :
    (∀ R ∈ s.handed, ∀ r, R.Contains r → r < s.table.framesize.toNat) ∧
      (∀ rs : List Nat, rs.Nodup → (∀ r ∈ rs, s.owned r = some .var) → rs.length ≤ s.table.cleansize.toNat) ∧
      ∀ c, s.Allowed c → ∃ result, s.table.call c = some result ∧
        ∀ out t, result = .ok (out, t) → ∀ R, out = some R → 0 ≤ R.first ∧
          (∀ r, R.Contains r → s.owned r = none) ∧
          ∀ count u, c = .allocTop count u → ∀ r, s.owned r ≠ none → (r : Int) < R.first := by
  have hinv := h.inv
  refine ⟨hinv.handed, fun rs hnodup hrs => hinv.variables hnodup hrs, fun c hallowed => ?_⟩
  obtain ⟨result, hresult, hserved⟩ := hinv.call hallowed
  exact ⟨result, hresult, fun out t heq => (hserved out t heq).2⟩

/-- Behind the call, the register that was handed out is in the frame. -/
theorem registers_reached_first :
    ∃ t, (RegHistory.start.after (.alloc 2 .var) (some ⟨0, 2⟩) t).Reached ∧ 1 < t.framesize.toNat ∧
      2 ≤ t.cleansize.toNat := by
  have hallowed : RegHistory.start.Allowed (.alloc 2 .var) := ⟨0, by decide, fun r _ => rfl⟩
  refine ⟨⟨[some .var, some .var] ++ List.replicate 14 none, 3, 2⟩, ?_⟩
  have hreached : (RegHistory.start.after (.alloc 2 .var) (some ⟨0, 2⟩)
      ⟨[some .var, some .var] ++ List.replicate 14 none, 3, 2⟩).Reached := .call .start hallowed rfl
  obtain ⟨hframe, hclean, -⟩ := registers_reached _ hreached
  exact ⟨hreached, hframe ⟨0, 2⟩ List.mem_cons_self 1 (by decide), hclean [0, 1] (by decide) (by decide)⟩

/-- The table is doubled once for a register that is asked for by its number, and the frame size of a function is
a byte: register 32 of an empty table is behind its end, and 255 registers make a frame of size 0. -/
theorem registers_past_table : RegHistory.start.Reached ∧ RegHistory.start.table.call (.allocReg 32 .var) = none ∧
    (∃ t, RegHistory.start.table.extend 32 = some t ∧ t.registers.length = 16 ∧ t.use 32 = none) ∧
    (RegHistory.start.table.eelRAllocTop 255 .temporary).map (fun out => (out.1, out.2.framesize)) = some (0, 0) := by
  refine ⟨.start, by decide, ⟨_, rfl, by decide, by decide⟩, ?_⟩
  decide +kernel

end Eel
