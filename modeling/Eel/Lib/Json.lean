-- SUMMARY: The grammar of JSON texts in ASCII characters, with the value that a text stands for.
import Mathlib

/-!
# JSON

Texts are sequences of bytes. Numbers are exact, and strings are sequences of 16 bit units, as
they are in escapes. The grammar is a relation between texts and values: members of an object
stay in order, and may have the same name.
-/

inductive Json where
  | null
  | bool (b : Bool)
  | num (q : ℚ)
  | str (s : List (BitVec 16))
  | arr (items : List Json)
  | obj (members : List (List (BitVec 16) × Json))

namespace Json

/-- A text. -/
abbrev Bytes := List (BitVec 8)

/-! ## Numbers -/

def IsDigit (c : BitVec 8) : Prop := 48 ≤ c.toNat ∧ c.toNat ≤ 57

/-- Digits, one at least. -/
def Digits (ds : Bytes) : Prop := ds ≠ [] ∧ ∀ c ∈ ds, IsDigit c

/-- The number that digits spell. -/
def digitsValue (ds : Bytes) : Nat := ds.foldl (fun n c => n * 10 + (c.toNat - 48)) 0

/-- What is before the point. There are no zeros in front. -/
def Whole (ds : Bytes) : Prop := Digits ds ∧ (ds.head? = some 48 → ds = [48])

/-- A point with digits behind it, or neither. -/
inductive Frac : Bytes → Bytes → Prop
  | none : Frac [] []
  | some {ds} : Digits ds → Frac (46 :: ds) ds

inductive Exp : Bytes → ℤ → Prop
  | none : Exp [] 0
  | bare {mark ds} : mark = 101 ∨ mark = 69 → Digits ds → Exp (mark :: ds) (digitsValue ds)
  | plus {mark ds} : mark = 101 ∨ mark = 69 → Digits ds → Exp (mark :: 43 :: ds) (digitsValue ds)
  | minus {mark ds} : mark = 101 ∨ mark = 69 → Digits ds → Exp (mark :: 45 :: ds) (-digitsValue ds)

def signText (negative : Bool) : Bytes := if negative then [45] else []

def signed (negative : Bool) (q : ℚ) : ℚ := if negative then -q else q

inductive Number : Bytes → ℚ → Prop
  | mk {negative whole point frac exp e} : Whole whole → Frac point frac → Exp exp e →
      Number (signText negative ++ whole ++ point ++ exp)
        (signed negative (digitsValue (whole ++ frac) * 10 ^ (e - frac.length)))

/-! ## Strings -/

/-- The escapes of one character. -/
def shortEscapes : List (BitVec 8 × BitVec 16) :=
  [(34, 34), (92, 92), (47, 47), (98, 8), (102, 12), (110, 10), (114, 13), (116, 9)]

/-- The value of a hexadecimal figure. -/
def hexValue (c : BitVec 8) : Option Nat :=
  if 48 ≤ c.toNat ∧ c.toNat ≤ 57 then some (c.toNat - 48)
  else if 97 ≤ c.toNat ∧ c.toNat ≤ 102 then some (c.toNat - 87)
  else if 65 ≤ c.toNat ∧ c.toNat ≤ 70 then some (c.toNat - 55)
  else none

/-- A character of a string, or an escape. -/
inductive Unit : Bytes → BitVec 16 → Prop
  | plain {c} : 32 ≤ c.toNat → c.toNat < 128 → c ≠ 34 → c ≠ 92 → Unit [c] (c.setWidth 16)
  | short {c u} : (c, u) ∈ shortEscapes → Unit [92, c] u
  | hex {c₃ c₂ c₁ c₀ n₃ n₂ n₁ n₀} : hexValue c₃ = some n₃ → hexValue c₂ = some n₂ → hexValue c₁ = some n₁ →
      hexValue c₀ = some n₀ →
      Unit [92, 117, c₃, c₂, c₁, c₀] (BitVec.ofNat 16 (((n₃ * 16 + n₂) * 16 + n₁) * 16 + n₀))

inductive Units : Bytes → List (BitVec 16) → Prop
  | nil : Units [] []
  | cons {text rest u s} : Unit text u → Units rest s → Units (text ++ rest) (u :: s)

/-- A string with its quotes. -/
inductive Str : Bytes → List (BitVec 16) → Prop
  | mk {text s} : Units text s → Str (34 :: (text ++ [34])) s

/-! ## Values -/

/-- White space. -/
def White (ws : Bytes) : Prop := ∀ c ∈ ws, c = 32 ∨ c = 9 ∨ c = 10 ∨ c = 13

def ascii (text : List Char) : Bytes := text.map fun c => BitVec.ofNat 8 c.toNat

mutual

/-- The text is one of the value. -/
inductive Value : Bytes → Json → Prop
  | null : Value (ascii ['n', 'u', 'l', 'l']) null
  | true : Value (ascii ['t', 'r', 'u', 'e']) (bool true)
  | false : Value (ascii ['f', 'a', 'l', 's', 'e']) (bool false)
  | num {text q} : Number text q → Value text (num q)
  | str {text s} : Str text s → Value text (str s)
  | noItems {ws} : White ws → Value (91 :: (ws ++ [93])) (arr [])
  | arr {text items} : Items text items → Value (91 :: (text ++ [93])) (arr items)
  | noMembers {ws} : White ws → Value (123 :: (ws ++ [125])) (obj [])
  | obj {text members} : Members text members → Value (123 :: (text ++ [125])) (obj members)

/-- Items with commas between them. -/
inductive Items : Bytes → List Json → Prop
  | one {ws text ws' v} : White ws → Value text v → White ws' → Items (ws ++ text ++ ws') [v]
  | cons {ws text ws' rest v vs} : White ws → Value text v → White ws' → Items rest vs →
      Items (ws ++ text ++ ws' ++ 44 :: rest) (v :: vs)

/-- Members with commas between them. -/
inductive Members : Bytes → List (List (BitVec 16) × Json) → Prop
  | one {text s v} : Member text s v → Members text [(s, v)]
  | cons {text rest s v members} : Member text s v → Members rest members →
      Members (text ++ 44 :: rest) ((s, v) :: members)

/-- A name, a colon and a value. -/
inductive Member : Bytes → List (BitVec 16) → Json → Prop
  | mk {ws name ws' ws₁ text ws₁' s v} : White ws → Str name s → White ws' → White ws₁ → Value text v → White ws₁' →
      Member (ws ++ name ++ ws' ++ 58 :: (ws₁ ++ text ++ ws₁')) s v

end

/-- A text of a value with white space around it. -/
def Text (text : Bytes) (v : Json) : Prop :=
  ∃ ws t ws', White ws ∧ White ws' ∧ Value t v ∧ text = ws ++ t ++ ws'

variable {ds ds' : Bytes} {c : BitVec 8} {v : Json}

/-! ## Digits -/

theorem digitsValue_append (ds ds' : Bytes) :
    digitsValue (ds ++ ds') = digitsValue ds * 10 ^ ds'.length + digitsValue ds' := by
  unfold digitsValue
  rw [List.foldl_append]
  generalize ds.foldl (fun n c => n * 10 + (c.toNat - 48)) 0 = n
  induction ds' generalizing n with
  | nil => simp
  | cons c ds' ih =>
    simp only [List.foldl_cons, List.length_cons]
    rw [ih, ih (0 * 10 + (c.toNat - 48)), Nat.pow_succ]
    ring

theorem digitsValue_zeros (k : Nat) : digitsValue (List.replicate k 48) = 0 := by
  induction k with
  | zero => rfl
  | succ k ih =>
    rw [List.replicate_succ', digitsValue_append, ih]
    rfl

theorem Value.text (h : Value ds v) : Text ds v :=
  ⟨[], ds, [], nofun, nofun, h, (List.append_nil ds).symm⟩

end Json
