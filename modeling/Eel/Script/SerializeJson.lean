-- SUMMARY: The JSON format of serialize: which trees are written, and that what is written of them is JSON of their values.
import Eel.Lib.Binary64
import Eel.Lib.Printf
import Eel.Script.Quote
import Eel.Script.Tree

/-!
# JSON serialization

Items are on lines of their own, with a tab for each level. Numbers that are not finite are
written as well, although there are none in JSON.
-/

namespace Eel

namespace Tree

open Strings (ascii quote jsonEscapes)

/-- `SERIALIZE_DROP_UNKNOWN`, for values of classes that there is nothing for in JSON. -/
def dropsUnknown (flags : BitVec 32) : Prop := flags &&& 1 ≠ 0

instance (flags : BitVec 32) : Decidable (dropsUnknown flags) := inferInstanceAs (Decidable (_ ≠ _))

/-- Code that may throw, or have no result. -/
abbrev Script := ExceptT Thrown Option

/-- `(string)typeof v`. -/
def typename : Tree → String
  | nil => "nil"
  | integer _ => "integer"
  | real _ => "real"
  | boolean _ => "boolean"
  | string _ => "string"
  | dstring _ => "dstring"
  | vectorD _ => "vector_d"
  | vectorU32 _ => "vector_u32"
  | vectorS32 _ => "vector_s32"
  | table _ => "table"
  | array _ => "array"
  | other name => name

/-- `ds_cast_from_real`, with the format `EEL_REAL_FMT`. -/
def realText (bits : BitVec 64) : List Byte :=
  match Binary64.unpack bits with
  | .finite s m e _ => Printf.g 11 (s == .negative) (m * 2 ^ e.toNat) (2 ^ (-e).toNat)
  | .zero s => Printf.g 11 (s == .negative) 0 1
  | .infinity s => Json.signText (s == .negative) ++ ascii ['i', 'n', 'f']
  | .notANumber => Json.signText bits.msb ++ ascii ['n', 'a', 'n']

/-- The `default` of the `switch`. -/
def unsupportedJson (flags : BitVec 32) (v : Tree) (buf : List Byte) : Script (List Byte) :=
  if dropsUnknown flags then pure buf
  else throw (.text ("serialize(json): Value of unsupported type '" ++ v.typename ++ "'!"))

mutual

/-- `write_value_json`. -/
def writeValueJson (flags : BitVec 32) : Tree → (indent buf : List Byte) → Script (List Byte)
  | .nil, _, buf => pure (buf ++ ascii ['n', 'u', 'l', 'l'])
  | .integer v, _, buf => pure (buf ++ Printf.d v.toInt)
  | .real bits, _, buf => pure (buf ++ realText bits)
  | .boolean v, _, buf => pure (buf ++ if v then ascii ['t', 'r', 'u', 'e'] else ascii ['f', 'a', 'l', 's', 'e'])
  | .string bytes, _, buf | .dstring bytes, _, buf => do
    let text ← ExceptT.lift (quote bytes jsonEscapes)
    pure (buf ++ text)
  | .table items, indent, buf => do
    let buf ← writeItemsJson flags items (indent ++ [9]) (buf ++ ascii ['{', '\n'])
    pure (buf ++ indent ++ ascii ['}'])
  | .array items, indent, buf => do
    let buf ← writeListJson flags items (indent ++ [9]) (buf ++ ascii ['[', '\n'])
    pure (buf ++ indent ++ ascii [']'])
  | .vectorD items, _, buf => unsupportedJson flags (.vectorD items) buf
  | .vectorU32 items, _, buf => unsupportedJson flags (.vectorU32 items) buf
  | .vectorS32 items, _, buf => unsupportedJson flags (.vectorS32 items) buf
  | .other name, _, buf => unsupportedJson flags (.other name) buf

def writeListJson (flags : BitVec 32) : List Tree → (i2 buf : List Byte) → Script (List Byte)
  | [], _, buf => pure buf
  | v :: vs, i2, buf => do
    let buf ← writeValueJson flags v i2 (buf ++ i2)
    let buf := if vs.isEmpty then buf else buf ++ ascii [',']
    writeListJson flags vs i2 (buf ++ ascii ['\n'])

def writeItemsJson (flags : BitVec 32) : List (Tree × Tree) → (i2 buf : List Byte) → Script (List Byte)
  | [], _, buf => pure buf
  | (k, v) :: items, i2, buf => do
    let buf ← match k with
      | .string _ | .dstring _ => writeValueJson flags k i2 (buf ++ i2)
      | _ => throw (.text ("serialize(json): '" ++ k.typename ++
          "' object field! (Must be string or dstring for JSON.)"))
    let buf ← writeValueJson flags v i2 (buf ++ ascii [':', ' '])
    let buf := if items.isEmpty then buf else buf ++ ascii [',']
    writeItemsJson flags items i2 (buf ++ ascii ['\n'])

end

/-- A name. -/
def IsText : Tree → Prop
  | string _ | dstring _ => True
  | _ => False

mutual

/-- All that is in the tree is of classes that are written, and what is in a table has names. -/
def Writable : Tree → Prop
  | nil | integer _ | real _ | boolean _ | string _ | dstring _ => True
  | table items => WritableItems items
  | array items => WritableList items
  | vectorD _ | vectorU32 _ | vectorS32 _ | other _ => False

def WritableList : List Tree → Prop
  | [] => True
  | v :: vs => v.Writable ∧ WritableList vs

def WritableItems : List (Tree × Tree) → Prop
  | [] => True
  | (k, v) :: items => k.IsText ∧ v.Writable ∧ WritableItems items

end

/-- The value of a number, if it is finite. -/
def value? (bits : BitVec 64) : Option ℚ :=
  match Binary64.unpack bits with
  | .finite s m e _ => some (Json.signed (s == .negative) (m * 2 ^ e))
  | .zero _ => some 0
  | .infinity _ | .notANumber => none

mutual

/-- All numbers in the tree are finite. -/
def Finite : Tree → Prop
  | real bits => (value? bits).isSome
  | table items => FiniteItems items
  | array items => FiniteList items
  | _ => True

def FiniteList : List Tree → Prop
  | [] => True
  | v :: vs => v.Finite ∧ FiniteList vs

def FiniteItems : List (Tree × Tree) → Prop
  | [] => True
  | (_, v) :: items => v.Finite ∧ FiniteItems items

end

/-- The name that a key is in JSON. -/
def units (bytes : List Byte) : List (BitVec 16) := bytes.map fun c => c.setWidth 16

inductive NameOf : Tree → List (BitVec 16) → Prop
  | string {bytes} : NameOf (string bytes) (units bytes)
  | dstring {bytes} : NameOf (dstring bytes) (units bytes)

mutual

/-- The values that a tree is in JSON. Real numbers are rounded to 12 figures. -/
inductive JsonOf : Tree → Json → Prop
  | nil : JsonOf nil .null
  | integer {v} : JsonOf (integer v) (.num v.toInt)
  | real {bits x q} : value? bits = some x → |q - x| ≤ |x| * 10 ^ (-11 : ℤ) / 2 → JsonOf (real bits) (.num q)
  | boolean {v} : JsonOf (boolean v) (.bool v)
  | string {bytes} : JsonOf (string bytes) (.str (units bytes))
  | dstring {bytes} : JsonOf (dstring bytes) (.str (units bytes))
  | table {items members} : JsonOfItems items members → JsonOf (table items) (.obj members)
  | array {items js} : JsonOfList items js → JsonOf (array items) (.arr js)

inductive JsonOfList : List Tree → List Json → Prop
  | nil : JsonOfList [] []
  | cons {v j vs js} : JsonOf v j → JsonOfList vs js → JsonOfList (v :: vs) (j :: js)

inductive JsonOfItems : List (Tree × Tree) → List (List (BitVec 16) × Json) → Prop
  | nil : JsonOfItems [] []
  | cons {k s v j items members} : NameOf k s → JsonOf v j → JsonOfItems items members →
      JsonOfItems ((k, v) :: items) ((s, j) :: members)

end

/-! ## Strings -/

variable {flags : BitVec 32} {last : Bool} {c : Byte} {bytes text buf indent : List Byte} {bits : BitVec 64}

theorem hexValue_figure : ∀ n < 16, Json.hexValue (Strings.figure n) = some n := by
  decide

theorem unit_unicode (c : Byte) :
    Json.Unit [92, 117, Strings.figure 0, Strings.figure 0, Strings.figure (c.toNat / 16), Strings.figure (c.toNat % 16)]
      (c.setWidth 16) := by
  have hlt : c.toNat < 256 := c.isLt
  have h := Json.Unit.hex (hexValue_figure 0 (by decide)) (hexValue_figure 0 (by decide))
    (hexValue_figure (c.toNat / 16) (by omega)) (hexValue_figure (c.toNat % 16) (by omega))
  have hvalue : BitVec.ofNat 16 (((0 * 16 + 0) * 16 + c.toNat / 16) * 16 + c.toNat % 16) = c.setWidth 16 := by
    apply BitVec.eq_of_toNat_eq
    rw [BitVec.toNat_ofNat, BitVec.toNat_setWidth]
    omega
  rwa [hvalue] at h

theorem quoteChar_unit (last : Bool) (c : Byte) :
    ∃ text, Strings.quoteChar jsonEscapes last c = some text ∧ Json.Unit text (c.setWidth 16) := by
  have hjson : jsonEscapes &&& jsonEscapes ≠ 0 := by decide
  have hmulti : ¬ jsonEscapes &&& Strings.multiline ≠ 0 := by decide
  unfold Strings.quoteChar
  simp only [if_pos hjson, if_neg hmulti]
  split
  · rename_i h
    obtain rfl : c = 92 := BitVec.eq_of_toNat_eq h
    exact ⟨_, rfl, .short (by decide)⟩
  · rename_i h
    obtain rfl : c = 7 := BitVec.eq_of_toNat_eq h
    exact ⟨_, rfl, unit_unicode 7⟩
  · rename_i h
    obtain rfl : c = 8 := BitVec.eq_of_toNat_eq h
    exact ⟨_, rfl, .short (by decide)⟩
  · rename_i h
    obtain rfl : c = 12 := BitVec.eq_of_toNat_eq h
    exact ⟨_, rfl, .short (by decide)⟩
  · rename_i h
    obtain rfl : c = 10 := BitVec.eq_of_toNat_eq h
    exact ⟨_, rfl, .short (by decide)⟩
  · rename_i h
    obtain rfl : c = 13 := BitVec.eq_of_toNat_eq h
    exact ⟨_, rfl, .short (by decide)⟩
  · rename_i h
    obtain rfl : c = 9 := BitVec.eq_of_toNat_eq h
    exact ⟨_, rfl, .short (by decide)⟩
  · rename_i h
    obtain rfl : c = 11 := BitVec.eq_of_toNat_eq h
    exact ⟨_, rfl, unit_unicode 11⟩
  · rename_i h
    obtain rfl : c = 34 := BitVec.eq_of_toNat_eq h
    exact ⟨_, rfl, .short (by decide)⟩
  · rename_i h
    obtain rfl : c = 39 := BitVec.eq_of_toNat_eq h
    exact ⟨_, rfl, .plain (by decide) (by decide) (by decide) (by decide)⟩
  · rename_i h92 _ _ _ _ _ _ _ h34 _
    split
    · rw [Strings.hexstr_byte]
      exact ⟨_, rfl, unit_unicode c⟩
    · refine ⟨_, rfl, .plain (by omega) (by omega) (fun h => h34 ?_) (fun h => h92 ?_)⟩
      · rw [h]
        rfl
      · rw [h]
        rfl

theorem quoteChars_units (bytes : List Byte) :
    ∃ text, Strings.quoteChars jsonEscapes bytes = some text ∧ Json.Units text (units bytes) := by
  induction bytes with
  | nil => exact ⟨[], rfl, .nil⟩
  | cons c bytes ih =>
    obtain ⟨text, hchar, hunit⟩ := quoteChar_unit bytes.isEmpty c
    obtain ⟨rest, hrest, hunits⟩ := ih
    refine ⟨text ++ rest, ?_, .cons hunit hunits⟩
    rw [Strings.quoteChars, hchar, hrest]
    rfl

theorem quote_str (bytes : List Byte) :
    ∃ text, quote bytes jsonEscapes = some text ∧ Json.Str text (units bytes) := by
  obtain ⟨text, htext, hunits⟩ := quoteChars_units bytes
  refine ⟨_, ?_, .mk hunits⟩
  unfold quote
  rw [htext]
  rfl

/-! ## Numbers -/

theorem quotient_eq (m : Nat) (e : ℤ) : ((m * 2 ^ e.toNat : Nat) : ℚ) / (2 ^ (-e).toNat : Nat) = m * 2 ^ e := by
  obtain ⟨k, rfl | rfl⟩ := e.eq_nat_or_neg
  · simp
  · simp [div_eq_mul_inv]

theorem realText_number {x : ℚ} (h : value? bits = some x) :
    ∃ q, Json.Number (realText bits) q ∧ |q - x| ≤ |x| * 10 ^ (-11 : ℤ) / 2 := by
  unfold value? at h
  unfold realText
  cases hbits : Binary64.unpack bits with
  | finite s m e hm =>
    rw [hbits] at h
    cases h
    obtain ⟨q, hq, herror⟩ := Printf.number_g 11 (s == .negative) (m * 2 ^ e.toNat) (Nat.two_pow_pos (-e).toNat)
    refine ⟨q, hq, ?_⟩
    have habs : |Json.signed (s == .negative) (m * 2 ^ e)| = (m * 2 ^ e : ℚ) := by
      have hpos : |(m * 2 ^ e : ℚ)| = m * 2 ^ e := abs_of_nonneg (by positivity)
      cases s == .negative with
      | false => exact hpos
      | true => exact (abs_neg _).trans hpos
    rw [quotient_eq] at herror
    rw [habs]
    exact herror
  | zero s =>
    rw [hbits] at h
    cases h
    obtain ⟨q, hq, herror⟩ := Printf.number_g 11 (s == .negative) 0 Nat.one_pos
    refine ⟨q, hq, ?_⟩
    have hzero : Json.signed (s == .negative) ((0 : Nat) / (1 : Nat) : ℚ) = 0 := by
      cases s == .negative <;> simp [Json.signed]
    rw [hzero] at herror
    simpa using herror
  | infinity s =>
    rw [hbits] at h
    cases h
  | notANumber =>
    rw [hbits] at h
    cases h

/-! ## Items -/

/-- What is written of some items: nothing, or items with commas between them and white space around. -/
def IsItems (vs : List Tree) (text : List Byte) : Prop :=
  (vs = [] → text = []) ∧ (FiniteList vs → ∃ js, JsonOfList vs js ∧
    (vs ≠ [] → ∀ ws ws', Json.White ws → Json.White ws' → Json.Items (ws ++ text ++ ws') js))

def IsMembers (items : List (Tree × Tree)) (text : List Byte) : Prop :=
  (items = [] → text = []) ∧ (FiniteItems items → ∃ members, JsonOfItems items members ∧
    (items ≠ [] → ∀ ws ws', Json.White ws → Json.White ws' → Json.Members (ws ++ text ++ ws') members))

/-- What is written of a value. -/
def IsValue (v : Tree) (text : List Byte) : Prop := v.Finite → ∃ j, JsonOf v j ∧ Json.Value text j

theorem white_append {ws ws' : List Byte} (h : Json.White ws) (h' : Json.White ws') : Json.White (ws ++ ws') := by
  intro c hc
  exact (List.mem_append.mp hc).elim (h c) (h' c)

theorem white_nil : Json.White [] := nofun

theorem white_newline : Json.White [10] := by
  intro c hc
  exact .inr (.inr (.inl (List.mem_singleton.mp hc)))

theorem white_indent (h : Json.White indent) : Json.White (indent ++ [9]) :=
  white_append h fun _ hc => .inr (.inl (List.mem_singleton.mp hc))

theorem isValue_array {vs : List Tree} (h : IsItems vs text) (hindent : Json.White indent) :
    IsValue (.array vs) (91 :: ([10] ++ text ++ indent ++ [93])) := by
  intro hfinite
  obtain ⟨js, hjs, hitems⟩ := h.2 hfinite
  refine ⟨_, .array hjs, ?_⟩
  cases vs with
  | nil =>
    cases hjs
    rw [h.1 rfl, List.append_nil]
    exact .noItems (white_append white_newline hindent)
  | cons v vs => exact .arr (hitems (List.cons_ne_nil _ _) _ _ white_newline hindent)

theorem isValue_table {items : List (Tree × Tree)} (h : IsMembers items text) (hindent : Json.White indent) :
    IsValue (.table items) (123 :: ([10] ++ text ++ indent ++ [125])) := by
  intro hfinite
  obtain ⟨members, hmembers, htext⟩ := h.2 hfinite
  refine ⟨_, .table hmembers, ?_⟩
  cases items with
  | nil =>
    cases hmembers
    rw [h.1 rfl, List.append_nil]
    exact .noMembers (white_append white_newline hindent)
  | cons item items => exact .obj (htext (List.cons_ne_nil _ _) _ _ white_newline hindent)

/-- The comma behind an item. -/
def comma {α : Type} (items : List α) : List Byte := if items.isEmpty then [] else [44]

theorem isItems_cons {v : Tree} {vs : List Tree} {rest : List Byte} (hv : IsValue v text) (hvs : IsItems vs rest)
    (hindent : Json.White indent) : IsItems (v :: vs) (indent ++ text ++ comma vs ++ [10] ++ rest) := by
  refine ⟨nofun, fun hfinite => ?_⟩
  obtain ⟨j, hj, htext⟩ := hv hfinite.1
  obtain ⟨js, hjs, hitems⟩ := hvs.2 hfinite.2
  refine ⟨j :: js, .cons hj hjs, fun _ ws ws' hws hws' => ?_⟩
  cases vs with
  | nil =>
    cases hjs
    rw [hvs.1 rfl]
    have h := Json.Items.one (white_append hws hindent) htext (white_append white_newline hws')
    simpa [comma] using h
  | cons v' vs =>
    have h := Json.Items.cons (white_append hws hindent) htext white_nil
      (hitems (List.cons_ne_nil _ _) [10] ws' white_newline hws')
    simpa [comma] using h

theorem isMembers_cons {k v : Tree} {items : List (Tree × Tree)} {name rest : List Byte} {s : List (BitVec 16)}
    (hk : NameOf k s) (hname : Json.Str name s) (hv : IsValue v text) (hitems : IsMembers items rest)
    (hindent : Json.White indent) :
    IsMembers ((k, v) :: items) (indent ++ name ++ [58, 32] ++ text ++ comma items ++ [10] ++ rest) := by
  refine ⟨nofun, fun hfinite => ?_⟩
  obtain ⟨j, hj, htext⟩ := hv hfinite.1
  obtain ⟨members, hmembers, hrest⟩ := hitems.2 hfinite.2
  refine ⟨(s, j) :: members, .cons hk hj hmembers, fun _ ws ws' hws hws' => ?_⟩
  have hblank : Json.White [32] := fun c hc => .inl (List.mem_singleton.mp hc)
  cases items with
  | nil =>
    cases hmembers
    rw [hitems.1 rfl]
    have h := Json.Member.mk (white_append hws hindent) hname white_nil hblank htext
      (white_append white_newline hws')
    simpa [comma] using Json.Members.one h
  | cons item items =>
    have h := Json.Member.mk (white_append hws hindent) hname white_nil hblank htext white_nil
    simpa [comma] using Json.Members.cons h (hrest (List.cons_ne_nil _ _) [10] ws' white_newline hws')

/-! ## Writing -/

theorem lift_quote (bytes buf : List Byte) :
    ∃ text, (do let text ← ExceptT.lift (quote bytes jsonEscapes); pure (buf ++ text) : Script (List Byte)) =
      pure (buf ++ text) ∧ Json.Str text (units bytes) := by
  obtain ⟨text, htext, hstr⟩ := quote_str bytes
  refine ⟨text, ?_, hstr⟩
  rw [htext]
  rfl

theorem comma_append {α : Type} (items : List α) (buf : List Byte) :
    (if items.isEmpty then buf else buf ++ ascii [',']) = buf ++ comma items := by
  unfold comma
  split
  · exact (List.append_nil buf).symm
  · rfl

/-- The name of an item. -/
theorem writeValueJson_name (flags : BitVec 32) (indent buf : List Byte) {k : Tree} (hk : k.IsText) :
    ∃ name s, writeValueJson flags k indent buf = pure (buf ++ name) ∧ NameOf k s ∧ Json.Str name s := by
  cases k with
  | string bytes =>
    obtain ⟨text, htext, hstr⟩ := lift_quote bytes buf
    exact ⟨text, _, htext, .string, hstr⟩
  | dstring bytes =>
    obtain ⟨text, htext, hstr⟩ := lift_quote bytes buf
    exact ⟨text, _, htext, .dstring, hstr⟩
  | _ => exact hk.elim

theorem writeItemsJson_name {k v : Tree} {items : List (Tree × Tree)} (hk : k.IsText) :
    writeItemsJson flags ((k, v) :: items) indent buf = (do
      let buf ← writeValueJson flags k indent (buf ++ indent)
      let buf ← writeValueJson flags v indent (buf ++ [58, 32])
      writeItemsJson flags items indent (buf ++ comma items ++ [10])) := by
  cases k with
  | string _ | dstring _ =>
    rw [writeItemsJson]
    simp only [comma_append]
    rfl
  | _ => exact hk.elim

mutual

theorem writeValueJson_writable (flags : BitVec 32) : (v : Tree) → v.Writable → ∀ (buf : List Byte) {indent}, Json.White indent →
    ∃ text, writeValueJson flags v indent buf = pure (buf ++ text) ∧ IsValue v text
  | .nil, _, _, _, _ => ⟨_, rfl, fun _ => ⟨_, .nil, .null⟩⟩
  | .integer v, _, _, _, _ => ⟨_, rfl, fun _ => ⟨_, .integer, .num (Printf.number_d v.toInt)⟩⟩
  | .real bits, _, _, _, _ => ⟨_, rfl, fun hfinite => by
      obtain ⟨x, hx⟩ := Option.isSome_iff_exists.mp hfinite
      obtain ⟨q, hq, herror⟩ := realText_number hx
      exact ⟨_, .real hx herror, .num hq⟩⟩
  | .boolean v, _, _, _, _ => ⟨_, rfl, fun _ => ⟨_, .boolean, by
      cases v with
      | false => exact .false
      | true => exact .true⟩⟩
  | .string bytes, _, buf, _, _ => by
      obtain ⟨text, htext, hstr⟩ := lift_quote bytes buf
      exact ⟨text, htext, fun _ => ⟨_, .string, .str hstr⟩⟩
  | .dstring bytes, _, buf, _, _ => by
      obtain ⟨text, htext, hstr⟩ := lift_quote bytes buf
      exact ⟨text, htext, fun _ => ⟨_, .dstring, .str hstr⟩⟩
  | .table items, h, buf, indent, hindent => by
      obtain ⟨text, htext, hmembers⟩ := writeItemsJson_writable flags items h (buf ++ ascii ['{', '\n']) (white_indent hindent)
      refine ⟨_, ?_, isValue_table hmembers hindent⟩
      rw [writeValueJson, htext, pure_bind]
      simp [ascii]
  | .array items, h, buf, indent, hindent => by
      obtain ⟨text, htext, hitems⟩ := writeListJson_writable flags items h (buf ++ ascii ['[', '\n']) (white_indent hindent)
      refine ⟨_, ?_, isValue_array hitems hindent⟩
      rw [writeValueJson, htext, pure_bind]
      simp [ascii]

theorem writeListJson_writable (flags : BitVec 32) : (vs : List Tree) → WritableList vs → ∀ (buf : List Byte) {indent},
    Json.White indent → ∃ text, writeListJson flags vs indent buf = pure (buf ++ text) ∧ IsItems vs text
  | [], _, buf, _, _ => by
      refine ⟨[], ?_, fun _ => rfl, fun _ => ⟨[], .nil, fun h => (h rfl).elim⟩⟩
      rw [writeListJson, List.append_nil]
  | v :: vs, h, buf, indent, hindent => by
      obtain ⟨text, htext, hvalue⟩ := writeValueJson_writable flags v h.1 (buf ++ indent) hindent
      obtain ⟨rest, hrest, hitems⟩ := writeListJson_writable flags vs h.2 (buf ++ indent ++ text ++ comma vs ++ [10]) hindent
      refine ⟨_, ?_, isItems_cons hvalue hitems hindent⟩
      rw [writeListJson, htext, pure_bind, comma_append]
      rw [show ascii ['\n'] = [10] from rfl, hrest]
      simp

theorem writeItemsJson_writable (flags : BitVec 32) : (items : List (Tree × Tree)) → WritableItems items →
    ∀ (buf : List Byte) {indent}, Json.White indent → ∃ text, writeItemsJson flags items indent buf = pure (buf ++ text) ∧ IsMembers items text
  | [], _, buf, _, _ => by
      refine ⟨[], ?_, fun _ => rfl, fun _ => ⟨[], .nil, fun h => (h rfl).elim⟩⟩
      rw [writeItemsJson, List.append_nil]
  | (k, v) :: items, h, buf, indent, hindent => by
      obtain ⟨name, s, hname, hk, hstr⟩ := writeValueJson_name flags indent (buf ++ indent) h.1
      obtain ⟨text, htext, hvalue⟩ :=
        writeValueJson_writable flags v h.2.1 (buf ++ indent ++ name ++ [58, 32]) hindent
      obtain ⟨rest, hrest, hitems⟩ := writeItemsJson_writable flags items h.2.2
        (buf ++ indent ++ name ++ [58, 32] ++ text ++ comma items ++ [10]) hindent
      refine ⟨_, ?_, isMembers_cons hk hstr hvalue hitems hindent⟩
      rw [writeItemsJson_name h.1, hname, pure_bind, htext, pure_bind, hrest]
      simp

end

/-! ## What is not written -/

/-- An exception is thrown that says so. -/
def Throws (x : Script (List Byte)) : Prop := ∃ message, x = throw (.text message)

theorem Throws.bind {x : Script (List Byte)} (h : Throws x) (f : List Byte → Script (List Byte)) : Throws (x >>= f) := by
  obtain ⟨message, rfl⟩ := h
  exact ⟨message, rfl⟩

theorem writeItemsJson_noName {k v : Tree} {items : List (Tree × Tree)} (hk : ¬ k.IsText) :
    Throws (writeItemsJson flags ((k, v) :: items) indent buf) := by
  cases k with
  | string _ | dstring _ => exact (hk trivial).elim
  | _ =>
    rw [writeItemsJson]
    · exact ⟨_, rfl⟩
    all_goals nofun

theorem unsupportedJson_throws {v : Tree} (hflags : ¬ dropsUnknown flags) : Throws (unsupportedJson flags v buf) := by
  unfold unsupportedJson
  rw [if_neg hflags]
  exact ⟨_, rfl⟩

mutual

theorem writeValueJson_throws (hflags : ¬ dropsUnknown flags) : (v : Tree) → ¬ v.Writable →
    ∀ {indent buf : List Byte}, Json.White indent → Throws (writeValueJson flags v indent buf)
  | .nil, h, _, _, _ | .integer _, h, _, _, _ | .real _, h, _, _, _ | .boolean _, h, _, _, _ | .string _, h, _, _, _
  | .dstring _, h, _, _, _ => (h trivial).elim
  | .vectorD _, _, _, _, _ | .vectorU32 _, _, _, _, _ | .vectorS32 _, _, _, _, _ | .other _, _, _, _, _ =>
    unsupportedJson_throws hflags
  | .table items, h, _, _, hindent => (writeItemsJson_throws hflags items h (white_indent hindent)).bind _
  | .array items, h, _, _, hindent => (writeListJson_throws hflags items h (white_indent hindent)).bind _

theorem writeListJson_throws (hflags : ¬ dropsUnknown flags) : (vs : List Tree) → ¬ WritableList vs →
    ∀ {indent buf : List Byte}, Json.White indent → Throws (writeListJson flags vs indent buf)
  | [], h, _, _, _ => (h trivial).elim
  | v :: vs, h, indent, buf, hindent => by
    rw [writeListJson]
    by_cases hv : v.Writable
    · obtain ⟨text, htext, -⟩ := writeValueJson_writable flags v hv (buf ++ indent) hindent
      rw [htext, pure_bind]
      exact writeListJson_throws hflags vs (fun hvs => h ⟨hv, hvs⟩) hindent
    · exact (writeValueJson_throws hflags v hv hindent).bind _

theorem writeItemsJson_throws (hflags : ¬ dropsUnknown flags) : (items : List (Tree × Tree)) → ¬ WritableItems items →
    ∀ {indent buf : List Byte}, Json.White indent → Throws (writeItemsJson flags items indent buf)
  | [], h, _, _, _ => (h trivial).elim
  | (k, v) :: items, h, indent, buf, hindent => by
    by_cases hk : k.IsText
    · obtain ⟨name, s, hname, -, -⟩ := writeValueJson_name flags indent (buf ++ indent) hk
      rw [writeItemsJson_name hk, hname, pure_bind]
      by_cases hv : v.Writable
      · obtain ⟨text, htext, -⟩ :=
          writeValueJson_writable flags v hv (buf ++ indent ++ name ++ [58, 32]) hindent
        rw [htext, pure_bind]
        exact writeItemsJson_throws hflags items (fun hitems => h ⟨hk, hv, hitems⟩) hindent
      · exact (writeValueJson_throws hflags v hv hindent).bind _
    · exact writeItemsJson_noName hk

end

end Tree

end Eel
