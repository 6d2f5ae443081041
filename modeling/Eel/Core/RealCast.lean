-- SUMMARY: The two conversions of values to real numbers, which read an object's number from different places.
import Eel.Core.Doubles

/-!
# Conversions to real

An `EEL_value` is a union: an integer is in its second word, and a real is in its upper
half, as the address of an object is. A cast metamethod writes the class of what it leaves,
and its payload, and nothing else. `eel_get_realval` has a class cast an object to a real, and
then takes an integer from the union.
-/

namespace Eel

/-- The bytes of an `EEL_value`. -/
structure Raw where
  classid : Nat
  /-- `integer.v`, where an object reference has its `index`. -/
  word : BitVec 32
  /-- `real.v`, where an object reference has its address. -/
  upper : BitVec 64

/-- A value is written over what was there. -/
def Raw.write (r : Raw) (v : Value) : Raw where
  classid := v.cls
  word := v.int?.getD r.word
  upper := v.num?.getD r.upper

/-- The number that a value stands for, as `eel_v2d` has it. -/
def Value.number? (R : Reals) : Value → Option (BitVec 64)
  | .nil => some 0
  | .real bits => some bits
  | .integer a | .boolean a | .classid a => some (R.ofInt a)
  | .objref _ | .weakref .. => none

namespace Meta

variable {W : Type} (M : Meta W)

/-- `eel_get_realval`, with what is in its `result` and in the caller's `*dv` when it is called,
and in `*dv` when it returns. -/
def getRealval (v : Value) (result : Raw) (dv : BitVec 64) (w : W) : Except (Stop W) W × BitVec 64 :=
  match v with
  | .nil => (.ok w, 0)
  | .real bits => (.ok w, bits)
  | .integer a | .boolean a | .classid a => (.ok w, M.real.ofInt a)
  | .objref _ | .weakref .. =>
    match M.cast v 1 w with
    | .error e => (.error e, dv)
    | .ok (c, w) => (.ok w, M.real.ofInt (result.write c).word)

/-- What a conversion makes of a value, if it is the number that the real cast makes of it; if
that fails, the conversion fails alike and leaves the caller's number alone. -/
def CastsTo (v : Value) (dv : BitVec 64) (w : W) (out : Except (Stop W) W × BitVec 64) : Prop :=
  match M.opCastr v w with
  | .error e => out = (.error e, dv)
  | .ok (wr, w') => ∃ c x, wr = .value c ∧ c.number? M.real = some x ∧ out = (.ok w', x)

/-- What the cast metamethod of an object has to leave for `integer.v` to be its number: a
number that is there, or one that happens to have been there. -/
def ReadsWord (result : Raw) : Value → Prop
  | .integer _ | .boolean _ | .classid _ => True
  | .nil => M.real.ofInt result.word = 0
  | .real bits => M.real.ofInt result.word = bits
  | .objref _ | .weakref .. => False

/-- When the two conversions agree on a value. -/
def Agreeing (v : Value) (result : Raw) (w : W) : Prop :=
  match v with
  | .nil | .real _ | .integer _ | .classid _ => True
  | .boolean a => a = 0 ∨ a = 1
  | .objref _ | .weakref .. => ∀ c w', M.cast v 1 w = .ok (c, w') → M.ReadsWord result c

variable {M}

theorem castsTo_ok {v c : Value} {dv x : BitVec 64} {w w' : W}
    (h : M.opCastr v w = .ok (.value c, w')) :
    M.CastsTo v dv w (.ok w', x) ↔ c.number? M.real = some x := by
  simp only [CastsTo, h]
  constructor
  · rintro ⟨_, y, ⟨⟩, hy, ⟨⟩⟩
    exact hy
  · intro hx
    exact ⟨c, x, rfl, hx, rfl⟩

theorem castsTo_error {v : Value} {dv : BitVec 64} {w : W} {e : Stop W} (h : M.opCastr v w = .error e) :
    M.CastsTo v dv w (.error e, dv) := by
  simp only [CastsTo, h]

/-- The number of what a cast metamethod leaves is the `integer.v` of the union just when it
is there. -/
theorem number_word_iff (result : Raw) (c : Value) :
    c.number? M.real = some (M.real.ofInt (result.write c).word) ↔ M.ReadsWord result c := by
  rcases c with _ | _ | _ | _ | _ | _ | _ <;>
    simp [Value.number?, ReadsWord, Raw.write, Value.int?, eq_comm]

/-- The two conversions of an object agree when its cast metamethod fails, or leaves an integer. -/
theorem castsTo_object {v : Value} {result : Raw} {dv : BitVec 64} {w : W}
    (hcast : M.opCastr v = Op.method (M.cast v 1))
    (hget : M.getRealval v result dv w =
      match M.cast v 1 w with
      | .error e => (.error e, dv)
      | .ok (c, w) => (.ok w, M.real.ofInt (result.write c).word)) :
    M.CastsTo v dv w (M.getRealval v result dv w) ↔
      ∀ c w', M.cast v 1 w = .ok (c, w') → M.ReadsWord result c := by
  rw [hget]
  cases h : M.cast v 1 w with
  | error e =>
    have hop : M.opCastr v w = .error e := by rw [hcast, Op.method, h]; rfl
    exact iff_of_true (castsTo_error hop) (fun c w' hc => nomatch hc)
  | ok p =>
    obtain ⟨c, w'⟩ := p
    have hop : M.opCastr v w = .ok (.value c, w') := by rw [hcast, Op.method, h]; rfl
    rw [castsTo_ok hop, number_word_iff]
    constructor
    · rintro hr _ _ ⟨⟩
      exact hr
    · intro hr
      exact hr c w' rfl

variable (M)

theorem ofInt_boolean (fmod pow : BitVec 64 → BitVec 64 → BitVec 64) (a : BitVec 32) :
    (if a = 0 then 0 else (Reals.binary64 fmod pow).ofInt 1) = (Reals.binary64 fmod pow).ofInt a ↔
      a = 0 ∨ a = 1 := by
  split
  · rename_i h
    subst h
    exact iff_of_true (show 0 = Binary64.ofInt 0 by decide) (.inl rfl)
  · rename_i h
    have hinj := Binary64.ofInt_inj (natAbs_toInt_lt 1) (natAbs_toInt_lt a)
    rw [BitVec.toInt_inj] at hinj
    exact hinj.trans ⟨fun h1 => .inr h1.symm, fun h1 => (h1.resolve_left h).symm⟩

/-- The two conversions to real agree on values that are no objects, and on objects that a
metamethod casts to an integer or not at all. -/
theorem getRealval_castsTo_iff (fmod pow : BitVec 64 → BitVec 64 → BitVec 64) (v : Value) (result : Raw)
    (dv : BitVec 64) (w : W) :
    (M.doubles fmod pow).CastsTo v dv w ((M.doubles fmod pow).getRealval v result dv w) ↔
      (M.doubles fmod pow).Agreeing v result w := by
  cases v with
  | nil | real | integer | classid => exact iff_of_true ((castsTo_ok rfl).mpr rfl) trivial
  | boolean a =>
    have hcast : (M.doubles fmod pow).opCastr (.boolean a) w =
        .ok (.value (.real (if a = 0 then 0 else (Reals.binary64 fmod pow).ofInt 1)), w) := rfl
    refine (castsTo_ok hcast).trans ?_
    rw [Value.number?, Option.some_inj]
    exact ofInt_boolean fmod pow a
  | objref o => exact castsTo_object rfl rfl
  | weakref o wired => exact castsTo_object rfl rfl

/-- `s_cast_to_real`, where strings are the only objects. -/
def strings (fmod pow : BitVec 64 → BitVec 64 → BitVec 64) (atof : ObjId → BitVec 64) : Meta Unit :=
  { primitives fmod pow with cast := fun v _ w => .ok (.real ((v.obj?.map atof).getD 0), w) }

/-- "2" is cast to 2, and converted to what the union had in its second word. -/
theorem getRealval_string_two :
    let M := strings (fun a _ => a) (fun a _ => a) fun _ => Binary64.ofInt 2
    ¬M.CastsTo (.objref 1) 0 () (M.getRealval (.objref 1) ⟨0, 0, 0⟩ 0 ()) := by
  intro M h
  have hword : Binary64.ofInt 0 = Binary64.ofInt 2 := (castsTo_object rfl rfl).mp h _ _ rfl
  exact absurd hword (by decide)

end Meta

end Eel
