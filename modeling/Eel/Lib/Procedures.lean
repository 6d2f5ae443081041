-- SUMMARY: Recursive procedures as programs with calls: what runs return, what they call, and the rule for recursion.
import Mathlib.Logic.Basic

/-!
# Procedures

A program returns a value, fails, or calls a procedure and goes on with what comes back.
The procedures are programs themselves, so a run is a finite tree of calls.
-/

namespace Procedures

/-- A program. `Q` is what is called and with what, `R` what a call returns. -/
inductive Prog (Q R α : Type) where
  | ret (a : α)
  | fail
  | call (q : Q) (k : R → Prog Q R α)

namespace Prog

variable {Q Q' R α β : Type}

def bind : Prog Q R α → (α → Prog Q R β) → Prog Q R β
  | ret a, f => f a
  | fail, _ => fail
  | call q k, f => call q fun r => (k r).bind f

instance : Monad (Prog Q R) where
  pure := ret
  bind := bind

@[simp] theorem bind_eq {x : Prog Q R α} {f : α → Prog Q R β} : (x >>= f) = x.bind f := rfl

@[simp] theorem pure_eq {a : α} : (pure a : Prog Q R α) = ret a := rfl

@[simp] theorem ret_bind {a : α} {f : α → Prog Q R β} : (ret a).bind f = f a := rfl

@[simp] theorem fail_bind {f : α → Prog Q R β} : (fail : Prog Q R α).bind f = fail := rfl

theorem bind_assoc {γ : Type} {x : Prog Q R α} {f : α → Prog Q R β} {g : β → Prog Q R γ} :
    (x.bind f).bind g = x.bind fun a => (f a).bind g := by
  induction x with
  | ret a => rfl
  | fail => rfl
  | call q k ih => exact congrArg (call q) (funext ih)

/-- The program calls other procedures. -/
def relabel (f : Q → Q') : Prog Q R α → Prog Q' R α
  | ret a => ret a
  | fail => fail
  | call q k => call (f q) fun r => (k r).relabel f

/-- The program that calls `q`. -/
def ask (q : Q) : Prog Q R R := call q ret

def ofOption : Option α → Prog Q R α
  | some a => ret a
  | none => fail

/-- What the program returns when each call returns what `P` says of it. -/
def Via (P : Q → R → Prop) : Prog Q R α → α → Prop
  | ret a, b => a = b
  | fail, _ => False
  | call q k, b => ∃ r, P q r ∧ (k r).Via P b

/-- The program, with calls answered by `M`. -/
def eval (M : Q → Option R) : Prog Q R α → Option α
  | ret a => some a
  | fail => none
  | call q k => (M q).bind fun r => (k r).eval M

end Prog

open Prog

variable {Q R α β : Type} {code : Q → Prog Q R R} {Good : Q → Prop} {P : Q → R → Prop}
variable {x : Prog Q R α} {f : α → Prog Q R β} {q : Q} {k : R → Prog Q R α} {a a' : α} {b : β}

/-- The program returns `a`, where `code` has the procedures. -/
inductive Returns (code : Q → Prog Q R R) : {α : Type} → Prog Q R α → α → Prop
  | ret {α : Type} (a : α) : Returns code (.ret a) a
  | call {α : Type} {q : Q} {k : R → Prog Q R α} {r : R} {a : α} :
    Returns code (code q) r → Returns code (k r) a → Returns code (.call q k) a

/-- The call is made in the run of the program. -/
inductive Visits (code : Q → Prog Q R R) : {α : Type} → Prog Q R α → Q → Prop
  | here {α : Type} {q : Q} {k : R → Prog Q R α} : Visits code (.call q k) q
  | inside {α : Type} {q q' : Q} {k : R → Prog Q R α} :
    Visits code (code q) q' → Visits code (.call q k) q'
  | after {α : Type} {q q' : Q} {k : R → Prog Q R α} {r : R} :
    Returns code (code q) r → Visits code (k r) q' → Visits code (.call q k) q'

/-- What a procedure returns, with calls at most `n` deep. -/
def meaning (code : Q → Prog Q R R) : Nat → Q → Option R
  | 0, _ => none
  | n + 1, q => (code q).eval (meaning code n)

/-! ## Runs -/

theorem returns_ret : Returns code (.ret a) a' ↔ a = a' :=
  ⟨fun | .ret _ => rfl, fun h => h ▸ .ret a⟩

theorem returns_fail : ¬ Returns code (.fail : Prog Q R α) a := nofun

theorem returns_call :
    Returns code (.call q k) a ↔ ∃ r, Returns code (code q) r ∧ Returns code (k r) a :=
  ⟨fun | .call hq hk => ⟨_, hq, hk⟩, fun ⟨_, hq, hk⟩ => .call hq hk⟩

theorem Returns.unique (h : Returns code x a) (h' : Returns code x a') : a = a' := by
  induction h with
  | ret => exact returns_ret.mp h'
  | call _ _ ihq ihk =>
    obtain ⟨r, hq, hk⟩ := returns_call.mp h'
    obtain rfl := ihq hq
    exact ihk hk

/-- What the evaluator returns, the program returns. -/
theorem returns_of_eval {M : Q → Option R} (hM : ∀ {q r}, M q = some r → Returns code (code q) r)
    (h : x.eval M = some a) : Returns code x a := by
  induction x with
  | ret b => exact returns_ret.mpr (Option.some.inj h)
  | fail => cases h
  | call q k ih =>
    obtain ⟨r, hr, hk⟩ := Option.bind_eq_some_iff.mp h
    exact .call (hM hr) (ih r hk)

theorem returns_of_meaning {n : Nat} {q : Q} {r : R} (h : meaning code n q = some r) :
    Returns code (code q) r := by
  induction n generalizing q r with
  | zero => cases h
  | succ n ih => exact returns_of_eval ih h

theorem returns_of_eval_meaning {n : Nat} (h : x.eval (meaning code n) = some a) : Returns code x a :=
  returns_of_eval returns_of_meaning h

theorem returns_ask {r : R} : Returns code (ask q) r ↔ Returns code (code q) r := by
  simp [ask, returns_call, returns_ret]

theorem returns_ofOption {o : Option α} : Returns code (ofOption o) a ↔ o = some a := by
  cases o <;> simp [ofOption, returns_ret, returns_fail]

/-- What each call returns when it returns, the run returns. -/
theorem returns_of_via (h : x.Via (fun q r => Returns code (code q) r ∧ P q r) a) : Returns code x a := by
  induction x with
  | ret c => exact returns_ret.mpr h
  | fail => exact h.elim
  | call q k ih =>
    obtain ⟨r, ⟨hq, -⟩, hk⟩ := h
    exact .call hq (ih r hk)

/-- **Recursion.** What holds of each procedure that returns when it holds of the calls it makes, holds
of every call of a run. -/
theorem Returns.via (hstep : ∀ q r, (code q).Via (fun q r => Returns code (code q) r ∧ P q r) r → P q r)
    (h : Returns code x a) : x.Via (fun q r => Returns code (code q) r ∧ P q r) a := by
  induction h with
  | ret => rfl
  | @call α q k r a hq hk ihq ihk => exact ⟨r, ⟨hq, hstep q r ihq⟩, ihk⟩

/-! ## Runs that make good calls only -/

/-- The program returns `a`, and each call that its run makes is good. -/
def Safely (code : Q → Prog Q R R) (Good : Q → Prop) (x : Prog Q R α) (a : α) : Prop :=
  Returns code x a ∧ ∀ q, Visits code x q → Good q

@[simp] theorem safely_ret : Safely code Good (.ret a) a' ↔ a = a' :=
  ⟨fun h => returns_ret.mp h.1, fun h => ⟨returns_ret.mpr h, nofun⟩⟩

@[simp] theorem safely_fail : ¬ Safely code Good (.fail : Prog Q R α) a := fun h => returns_fail h.1

@[simp] theorem safely_call :
    Safely code Good (.call q k) a ↔
      Good q ∧ ∃ r, Safely code Good (code q) r ∧ Safely code Good (k r) a := by
  constructor
  · intro ⟨hr, hv⟩
    obtain ⟨r, hq, hk⟩ := returns_call.mp hr
    exact ⟨hv q .here, r, ⟨hq, fun q' h => hv q' (.inside h)⟩, hk, fun q' h => hv q' (.after hq h)⟩
  · intro ⟨hgood, r, ⟨hq, hvq⟩, hk, hvk⟩
    refine ⟨.call hq hk, fun q' h => ?_⟩
    cases h with
    | here => exact hgood
    | inside h => exact hvq q' h
    | after hq' h =>
      obtain rfl := hq.unique hq'
      exact hvk q' h

@[simp] theorem safely_bind :
    Safely code Good (x.bind f) b ↔ ∃ a, Safely code Good x a ∧ Safely code Good (f a) b := by
  induction x with
  | ret c => simp [Prog.bind]
  | fail => simp [Prog.bind]
  | call q k ih => simp only [Prog.bind, safely_call, ih]; grind

@[simp] theorem safely_ask {r : R} :
    Safely code Good (ask q) r ↔ Good q ∧ Safely code Good (code q) r := by
  simp [ask]

@[simp] theorem safely_ofOption {x : Option α} : Safely code Good (ofOption x) a ↔ x = some a := by
  cases x <;> simp [ofOption]

/-- A run is good when every call is. -/
theorem returns_iff_safely : Returns code x a ↔ Safely code (fun _ => True) x a :=
  ⟨fun h => ⟨h, fun _ _ => trivial⟩, And.left⟩

theorem Safely.unique (h : Safely code Good x a) (h' : Returns code x a') : a = a' := h.1.unique h'

/-- **Recursion.** What holds of each procedure when it holds of the calls it makes, holds of every
call of a run. -/
theorem Safely.via (hstep : ∀ q r, Good q → (code q).Via (fun q r => Good q ∧ P q r) r → P q r)
    (h : Safely code Good x a) : x.Via (fun q r => Good q ∧ P q r) a := by
  obtain ⟨hr, hv⟩ := h
  induction hr with
  | ret => rfl
  | @call α q k r a hq hk ihq ihk =>
    have hgood : Good q := hv q .here
    have hP : P q r := hstep q r hgood (ihq fun q' h => hv q' (.inside h))
    exact ⟨r, ⟨hgood, hP⟩, ihk fun q' h => hv q' (.after hq h)⟩

/-! ## Binding -/

theorem via_bind {P : Q → R → Prop} :
    (x.bind f).Via P b ↔ ∃ a, x.Via P a ∧ (f a).Via P b := by
  induction x with
  | ret c => simp [Prog.bind, Via]
  | fail => simp [Prog.bind, Via]
  | call q k ih => simp only [Prog.bind, Via, ih]; grind

@[simp] theorem via_ask {P : Q → R → Prop} {r : R} : (ask q).Via P r ↔ P q r := by
  simp [ask, Via]

@[simp] theorem via_ofOption {P : Q → R → Prop} {x : Option α} : (ofOption x).Via P a ↔ x = some a := by
  cases x <;> simp [ofOption, Via]

theorem via_relabel {Q' : Type} {g : Q → Q'} {P : Q' → R → Prop} :
    (x.relabel g).Via P a ↔ x.Via (fun q => P (g q)) a := by
  induction x with
  | ret c => rfl
  | fail => rfl
  | call q k ih => simp only [relabel, Via, ih]

end Procedures
