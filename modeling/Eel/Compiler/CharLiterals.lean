-- SUMMARY: Character literals: the bytes they spell, and the integer that the lexer makes of them.
import Eel.Compiler.NumberTokens
import Eel.Compiler.ScanLoops

/-!
# Character literals

The bytes of a literal are shifted together as signed characters: one of 128 or more sets all
bits above it.
-/

namespace Eel

/-- The number whose big-endian bytes these are. -/
def bigEndian (bytes : List Byte) : Nat := bytes.foldl (fun n c => n * 2 ^ 8 + c.toNat) 0

/-- A byte with a sign has nothing but ones above it in a word of `k` bytes. -/
def SignsVanish (k : Nat) (bytes : List Byte) : Prop :=
  ∀ (i : Nat) (c : Byte), bytes[i]? = some c → 128 ≤ c.toNat → bytes.length = k ∧ ∀ j < i, bytes[j]? = some 255

namespace Lexer

variable {c : Byte} {bytes : List Byte} {k : Nat}

/-! ## Bytes in a word -/

theorem shiftIn_low (v : BitVec 32) (hc : c.toNat < 128) :
    (v <<< 8 ||| c.signExtend 32).toNat = v.toNat % 2 ^ 24 * 2 ^ 8 + c.toNat := by
  have hmsb : c.msb = false := by
    rw [BitVec.msb_eq_decide]
    exact decide_eq_false (by omega)
  have hshift : v.toNat * 2 ^ 8 % 2 ^ 32 = v.toNat % 2 ^ 24 * 2 ^ 8 := by omega
  have hwidth : c.toNat % 2 ^ 32 = c.toNat := Nat.mod_eq_of_lt (by omega)
  rw [BitVec.signExtend_eq_setWidth_of_msb_false hmsb, BitVec.toNat_or, BitVec.toNat_shiftLeft, BitVec.toNat_setWidth,
    Nat.shiftLeft_eq, hshift, hwidth, ← Nat.shiftLeft_eq, ← Nat.shiftLeft_add_eq_or_of_lt (by omega)]

theorem shiftIn_high (v : BitVec 32) (hc : 128 ≤ c.toNat) :
    (v <<< 8 ||| c.signExtend 32).toNat = 2 ^ 32 - 2 ^ 8 + c.toNat := by
  have hmsb : c.msb = true := by
    rw [BitVec.msb_eq_decide]
    exact decide_eq_true hc
  have heq : v <<< 8 ||| c.signExtend 32 = c.signExtend 32 := by
    ext i hi
    simp only [BitVec.getElem_or, BitVec.getElem_shiftLeft, BitVec.getElem_signExtend, hmsb]
    grind
  have hlt := c.isLt
  rw [heq, BitVec.toNat_signExtend, hmsb, if_pos rfl, BitVec.toNat_setWidth, Nat.mod_eq_of_lt (by omega)]
  omega

theorem charValue_append : charValue (bytes ++ [c]) = charValue bytes <<< 8 ||| c.signExtend 32 := by
  unfold charValue
  rw [List.foldl_append]
  rfl

theorem bigEndian_append : bigEndian (bytes ++ [c]) = bigEndian bytes * 2 ^ 8 + c.toNat := by
  unfold bigEndian
  rw [List.foldl_append]
  rfl

theorem bigEndian_lt (bytes : List Byte) : bigEndian bytes < 2 ^ (8 * bytes.length) := by
  induction bytes using List.reverseRecOn with
  | nil => decide
  | append_singleton bytes c ih =>
    have hc := c.isLt
    rw [bigEndian_append, List.length_append, List.length_singleton, Nat.mul_add, Nat.pow_add, Nat.mul_one]
    have hle : (bigEndian bytes + 1) * 2 ^ 8 ≤ 2 ^ (8 * bytes.length) * 2 ^ 8 := Nat.mul_le_mul_right _ ih
    omega

/-- Only ones are the largest number. -/
theorem bigEndian_max : bigEndian bytes + 1 = 2 ^ (8 * bytes.length) ↔ ∀ c ∈ bytes, c = 255 := by
  induction bytes using List.reverseRecOn with
  | nil => simp [bigEndian]
  | append_singleton bytes c ih =>
    have hc := c.isLt
    have hlt := bigEndian_lt bytes
    have hone : c.toNat = 255 ↔ c = 255 := ⟨fun h => BitVec.eq_of_toNat_eq h, fun h => h ▸ rfl⟩
    rw [bigEndian_append, List.length_append, List.length_singleton, Nat.mul_add, Nat.pow_add, Nat.mul_one,
      List.forall_mem_append, ← ih, List.forall_mem_singleton, ← hone]
    generalize 2 ^ (8 * bytes.length) = m at hlt
    omega

/-! ## Signs -/

theorem signsVanish_low (hc : c.toNat < 128) : SignsVanish (k + 1) (bytes ++ [c]) ↔ SignsVanish k bytes := by
  constructor
  · intro h i d hd hsign
    have hlt : i < bytes.length := (List.getElem?_eq_some_iff.mp hd).1
    obtain ⟨hlen, hones⟩ := h i d (by rwa [List.getElem?_append_left hlt]) hsign
    rw [List.length_append, List.length_singleton] at hlen
    refine ⟨Nat.succ.inj hlen, fun j hj => ?_⟩
    have hj' := hones j hj
    rwa [List.getElem?_append_left (Nat.lt_trans hj hlt)] at hj'
  · intro h i d hd hsign
    rcases Nat.lt_or_ge i bytes.length with hlt | hge
    · rw [List.getElem?_append_left hlt] at hd
      obtain ⟨hlen, hones⟩ := h i d hd hsign
      refine ⟨by rw [List.length_append, hlen]; rfl, fun j hj => ?_⟩
      rw [List.getElem?_append_left (Nat.lt_trans hj hlt)]
      exact hones j hj
    · rw [List.getElem?_append_right hge] at hd
      obtain rfl : c = d := List.mem_singleton.mp (List.mem_of_getElem? hd) |>.symm
      exact absurd hc (Nat.not_lt.mpr hsign)

theorem signsVanish_high (hc : 128 ≤ c.toNat) :
    SignsVanish (k + 1) (bytes ++ [c]) ↔ bytes.length = k ∧ ∀ d ∈ bytes, d = 255 := by
  constructor
  · intro h
    have hlast : (bytes ++ [c])[bytes.length]? = some c := by
      rw [List.getElem?_append_right (Nat.le_refl _), Nat.sub_self]
      rfl
    obtain ⟨hlen, hones⟩ := h _ c hlast hc
    rw [List.length_append, List.length_singleton] at hlen
    refine ⟨Nat.succ.inj hlen, fun d hd => ?_⟩
    obtain ⟨j, hj, rfl⟩ := List.mem_iff_getElem.mp hd
    have hj' := hones j hj
    rw [List.getElem?_append_left hj, List.getElem?_eq_getElem hj] at hj'
    exact Option.some.inj hj'
  · rintro ⟨hlen, hones⟩ i d hd -
    refine ⟨by rw [List.length_append, hlen]; rfl, fun j hj => ?_⟩
    have hi : i < (bytes ++ [c]).length := (List.getElem?_eq_some_iff.mp hd).1
    rw [List.length_append, List.length_singleton] at hi
    have hlt : j < bytes.length := by omega
    rw [List.getElem?_append_left hlt, List.getElem?_eq_getElem hlt, hones _ (List.getElem_mem hlt)]

/-- The value in the low bytes of the word, and when it is that of the bytes. -/
theorem charValue_iff (hk : k ≤ 4) (hlen : bytes.length ≤ k) :
    (charValue bytes).toNat % 2 ^ (8 * k) = bigEndian bytes ↔ SignsVanish k bytes := by
  induction bytes using List.reverseRecOn generalizing k with
  | nil =>
    refine ⟨fun _ i d hd => (nomatch hd), fun _ => ?_⟩
    exact Nat.zero_mod _
  | append_singleton bytes c ih =>
    rw [List.length_append, List.length_singleton] at hlen
    obtain ⟨k, rfl⟩ := Nat.exists_eq_add_one_of_ne_zero (Nat.ne_of_gt (Nat.zero_lt_of_lt hlen))
    have hlt := c.isLt
    have hk' : k = 0 ∨ k = 1 ∨ k = 2 ∨ k = 3 := by omega
    rw [charValue_append, bigEndian_append]
    rcases Nat.lt_or_ge c.toNat 128 with hc | hc
    · rw [signsVanish_low hc, shiftIn_low _ hc, ← ih (Nat.le_of_succ_le hk) (Nat.le_of_succ_le_succ hlen)]
      rcases hk' with rfl | rfl | rfl | rfl
      all_goals omega
    · rw [signsVanish_high hc, shiftIn_high _ hc, ← bigEndian_max]
      have hmax := bigEndian_lt bytes
      have hmono : bytes.length < k → bigEndian bytes + 1 < 2 ^ (8 * k) := fun hlt =>
        Nat.lt_of_le_of_lt hmax (Nat.pow_lt_pow_right (by decide) (Nat.mul_lt_mul_of_pos_left hlt (by decide)))
      have hword : bigEndian bytes + 1 = 2 ^ (8 * k) ↔
          bytes.length = k ∧ bigEndian bytes + 1 = 2 ^ (8 * bytes.length) := by
        constructor
        · intro heq
          have hlen' : bytes.length = k := by
            rcases Nat.lt_or_eq_of_le (Nat.le_of_succ_le_succ hlen) with hlt | heq'
            · exact absurd heq (Nat.ne_of_lt (hmono hlt))
            · exact heq'
          exact ⟨hlen', hlen' ▸ heq⟩
        · rintro ⟨rfl, heq⟩
          exact heq
      rw [← hword]
      rcases hk' with rfl | rfl | rfl | rfl
      all_goals omega

/-! ## The literal -/

variable {S : SymTables} {X : NumCasts} {flags : LexFlags} {rounds : Nat} {items : List LitItem}
  {pre ws tok : List Byte}

/-- The source of a literal, with white space and a token behind it. -/
def literalSource (items : List LitItem) (pre ws tok : List Byte) : List Byte :=
  pre ++ [39] ++ (textOf items ++ Delim.character.byte :: (ws ++ tok))

/-- The lexer at a literal that is read as what it spells. -/
theorem lexToken_literal (S : SymTables) (X : NumCasts) (hspells : Spells .character items) (hws : White ws)
    (ht : Token .character tok) (hread : Readable .character items) (hslash : SlashFollowed tok)
    (hchars : flags.characters = false) (hrounds : (literalSource items pre ws tok).length < rounds) :
    ∃ b', lexToken S X flags rounds ⟨literalSource items pre ws tok, pre.length⟩ =
      if 4 < (items.map LitItem.denote).length then
        some (.error "Character literal too long for the integer type!")
      else some (.ok ((.inum, .integer (charValue (items.map LitItem.denote))), b')) := by
  obtain ⟨k, rfl⟩ := Nat.exists_eq_add_one_of_ne_zero (Nat.ne_of_gt (Nat.zero_lt_of_lt hrounds))
  have hat : Bio.At ⟨literalSource items pre ws tok, pre.length⟩
      (39 :: (textOf items ++ Delim.character.byte :: (ws ++ tok))) := by
    refine ⟨?_, ?_⟩
    · unfold literalSource
      rw [List.append_assoc, List.drop_left]
      rfl
    · unfold literalSource
      rw [List.append_assoc, List.length_append]
      exact Nat.le_add_right ..
  have hparse := parseString_spells .character items (pre ++ [39]) ws tok hspells hws ht hread hslash
  have hbehind : (⟨literalSource items pre ws tok, (pre ++ [39]).length⟩ : Bio) =
      Bio.advance ⟨literalSource items pre ws tok, pre.length⟩ 1 := by
    unfold Bio.advance
    rw [List.length_append]
    rfl
  change parseString .character ⟨literalSource items pre ws tok, (pre ++ [39]).length⟩ = _ at hparse
  rw [hbehind] at hparse
  generalize hb : (⟨literalSource items pre ws tok, pre.length⟩ : Bio) = b at hat hparse
  have hdata : b.data.length < k + 1 := by
    rw [← hb]
    exact hrounds
  have hleft : (b.advance 1).left < k + 1 := Nat.lt_of_le_of_lt (Nat.sub_le ..) hdata
  have hloop : parseStringLoop .character (k + 1) [] (b.advance 1) = some (parseString .character (b.advance 1)) :=
    parseStringLoop_eq hat.tail.2 hleft (Nat.le_refl _)
  have hfrom : lexToken S X flags (k + 1) b = lexCharacters (k + 1) (b.advance 1) := by
    rw [lexToken_at hat (by decide) (fun heq => nomatch heq)]
    unfold lexFrom
    rw [hchars]
    rfl
  obtain ⟨b', hend⟩ : ∃ b', parseString .character (b.advance 1) = .ok (items.map LitItem.denote, b') := ⟨_, hparse⟩
  refine ⟨b', ?_⟩
  rw [hfrom]
  unfold lexCharacters
  rw [Scan.bind_ok (hloop.trans (congrArg some hend))]
  split
  · rfl
  · rfl

end Lexer

open Lexer in
/-- A literal of at most four bytes that is read as what it spells has the value of its bytes if and only if no sign
gets in the way. A longer one is rejected. -/
theorem characterLiteral_iff (S : SymTables) (X : NumCasts) (flags : LexFlags) (rounds : Nat) (items : List LitItem)
    (pre ws tok : List Byte) (hspells : Spells .character items) (hws : White ws) (ht : Token .character tok)
    (hread : Readable .character items) (hslash : SlashFollowed tok) (hchars : flags.characters = false)
    (hrounds : (literalSource items pre ws tok).length < rounds) :
    (4 < items.length → lexToken S X flags rounds ⟨literalSource items pre ws tok, pre.length⟩ =
      some (.error "Character literal too long for the integer type!")) ∧
    (items.length ≤ 4 → ∃ i b', lexToken S X flags rounds ⟨literalSource items pre ws tok, pre.length⟩ =
        some (.ok ((.inum, .integer i), b')) ∧
      (i.toNat = bigEndian (items.map LitItem.denote) ↔ SignsVanish 4 (items.map LitItem.denote))) := by
  obtain ⟨b', hlex⟩ := lexToken_literal S X hspells hws ht hread hslash hchars hrounds
  rw [List.length_map] at hlex
  refine ⟨fun hlong => hlex.trans (if_pos hlong), fun hshort => ?_⟩
  refine ⟨charValue (items.map LitItem.denote), b', hlex.trans (if_neg (Nat.not_lt.mpr hshort)), ?_⟩
  have hiff := charValue_iff (Nat.le_refl 4)
    (show (items.map LitItem.denote).length ≤ 4 by rwa [List.length_map])
  rwa [Nat.mod_eq_of_lt (charValue _).isLt] at hiff

open Lexer in
theorem characterLiteral_byte :
    ∃ i b', lexToken ⟨fun _ => [], [], fun _ => none⟩ ⟨fun _ => 0, fun _ => 0⟩
        ⟨false, false, false, false, false, false⟩ 9 ⟨literalSource [.plain 65] [] [] [59], 0⟩ =
      some (.ok ((.inum, .integer i), b')) ∧ i.toNat = 65 := by
  have hspells : Spells .character [.plain 65] := ⟨⟨by decide, by decide, by decide⟩, trivial⟩
  have hread : Readable .character [.plain 65] := .cons trivial .nil
  have hsigns : SignsVanish 4 [65] := by
    intro i c hc hsign
    obtain rfl := List.mem_singleton.mp (List.mem_of_getElem? hc)
    exact absurd hsign (by decide)
  have ht : Token .character [59] := .mk (by decide) (by decide) fun heq => nomatch heq
  have hslash : SlashFollowed [59] := fun heq => nomatch heq
  obtain ⟨i, b', hlex, hvalue⟩ :=
    (characterLiteral_iff ⟨fun _ => [], [], fun _ => none⟩ ⟨fun _ => 0, fun _ => 0⟩
      ⟨false, false, false, false, false, false⟩ 9 [.plain 65] [] [] [59] hspells .nil ht hread hslash rfl
      (by decide)).2 (by decide)
  exact ⟨i, b', hlex, hvalue.mpr hsigns⟩

open Lexer in
/-- The byte 128 alone spells 128, and is read as a negative number. -/
theorem characterLiteral_signed :
    Spells .character [.plain 128] ∧ bigEndian ([LitItem.plain 128].map LitItem.denote) = 128 ∧
    ∃ b', lexToken ⟨fun _ => [], [], fun _ => none⟩ ⟨fun _ => 0, fun _ => 0⟩
        ⟨false, false, false, false, false, false⟩ 9 ⟨literalSource [.plain 128] [] [] [59], 0⟩ =
      some (.ok ((.inum, .integer 0xFFFFFF80#32), b')) := by
  refine ⟨⟨⟨by decide, by decide, by decide⟩, trivial⟩, rfl, ⟨literalSource [.plain 128] [] [] [59], 3⟩, ?_⟩
  rfl

end Eel
