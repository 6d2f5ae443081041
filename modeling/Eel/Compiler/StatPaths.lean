-- SUMMARY: The paths of control through statements, and the loops that can be left in the usual way.
import Eel.Compiler.StatCode
import Eel.Lib.Traces

/-!
# Paths

What control can do is said by the paths through statements. On these every test that is not
constant can go either way, and every instruction that is not a jump can throw an exception.
-/

namespace Eel

namespace Events

open Traces Behaviour

/-- How a path through a statement ends. -/
inductive Exit where
  | next
  /-- By a `break`, `continue` or `repeat` of the closest loop that has it. -/
  | brk
  | cont
  | rep
  | ret
  | retry
  | thrown
  /-- By an exception that handlers are not asked about. -/
  | uncaught
  /-- It is not at its end yet. -/
  | cut
  deriving DecidableEq

abbrev Paths (L : Type) := Behaviour L Exit

namespace Paths

variable {L : Type} (P Q : Paths L)

/-- Instructions, which may throw exceptions. -/
def instr (l : L) : Paths L := choice (done .cut) (choice (visit l .next) (visit l .thrown))

/-- A jump, and how it leaves the statement that it is in. -/
def jump (l : L) (x : Exit) : Paths L := choice (done .cut) (visit l x)

def seq : Paths L := bind P fun
  | .next => Q
  | x => done x

/-- The body of a loop, and `Q` where `continue` goes. Where `repeat` is allowed, it is the end of the round. -/
def turn (repeatable : Bool) : Paths L := bind P fun
  | .next | .cont => Q
  | .brk => done .next
  | .rep => done (if repeatable then .cont else .rep)
  | x => done x

/-- A loop whose rounds end in `.cont` when there is another one. -/
def loop : Paths L := rounds P .cont

/-- How a block is left that is a function of its own. There are no jumps out of it. -/
def blockExit : Exit → Paths L
  | .brk | .cont | .rep => never
  | x => done x

/-- How a block is left that is not protected by the handlers around it. -/
def untryExit : Exit → Paths L
  | .brk | .cont | .rep | .retry => never
  | .thrown => done .uncaught
  | x => done x

/-- A block with a handler for its exceptions. -/
def guarded : Paths L := bind P fun
  | .thrown => bind Q blockExit
  | x => blockExit x

/-- A block with a handler, which a `retry` starts again. -/
def tries (l : L) : Paths L := rounds (seq (instr l) (guarded P Q)) .retry

end Paths

open Paths

variable {L : Type}

mutual

def Stat.paths : Stat L → Paths L
  | .void => done .next
  | .assignstat e => instr e.label
  | .throwstat e => seq (instr e.label) (done .thrown)
  | .retrystat l => jump l .retry
  | .ifstat e s => seq (instr e.label) (choice (done .next) s.paths)
  | .ifelse e s out s' => seq (instr e.label) (choice (seq s.paths (jump out .next)) s'.paths)
  | .switchstat e cs => seq (instr e.label) (choice (done .next) cs.paths)
  | .switchdefault e cs s => seq (instr e.label) (choice cs.paths s.paths)
  | .whilestat (.never l) _ _ => jump l .next
  | .whilestat .always s l => loop (turn s.paths (jump l .cont) false)
  | .whilestat (.expr e) s l => loop (seq (instr e.label) (choice (done .next) (turn s.paths (jump l .cont) false)))
  | .dostat s e => loop (turn s.paths (seq (instr e.label) (choice (done .next) (done .cont))) false)
  | .forstat e s l =>
    seq (instr e.label) (choice (done .next)
      (loop (turn s.paths (seq (instr l) (choice (done .next) (done .cont))) true)))
  | .breakstat l => jump l .brk
  | .contstat l => jump l .cont
  | .repeatstat l => jump l .rep
  | .returnstat e => seq (instr e.label) (done .ret)
  | .trystat s l => tries s.paths (done .next) l
  | .tryexcept s s' l => tries s.paths s'.paths l
  | .untrystat s l => seq (instr l) (bind s.paths untryExit)
  | .body b => b.paths

def Block.paths : Block L → Paths L
  | .nil => done .next
  | .cons s b => seq s.paths b.paths

/-- The paths of all cases. -/
def Cases.paths : Cases L → Paths L
  | .nil => never
  | .cons s out cs => choice (seq s.paths (jump out .next)) cs.paths

end

/-- The end of a body may be come to in the usual way, if it may be come to so at all. -/
def EndsToo (P : Paths L) (x : Exit) : Prop := P.Ends x → P.Ends .next

mutual

/-- Loops whose bodies have a `continue` may also come to the end of the body. So do those that have a `break`, if there
is no other way out of them. -/
def Stat.Regular : Stat L → Prop
  | .ifstat _ s | .untrystat s _ | .trystat s _ | .whilestat (.never _) s _ => s.Regular
  | .ifelse _ s _ s' | .tryexcept s s' _ => s.Regular ∧ s'.Regular
  | .switchstat _ cs => cs.Regular
  | .switchdefault _ cs s => cs.Regular ∧ s.Regular
  | .whilestat .always s _ => s.Regular ∧ EndsToo s.paths .cont ∧ EndsToo s.paths .brk
  | .whilestat (.expr _) s _ | .dostat s _ | .forstat _ s _ => s.Regular ∧ EndsToo s.paths .cont
  | .body b => b.Regular
  | _ => True

def Block.Regular : Block L → Prop
  | .nil => True
  | .cons s b => s.Regular ∧ b.Regular

def Cases.Regular : Cases L → Prop
  | .nil => True
  | .cons s _ cs => s.Regular ∧ cs.Regular

end

/-! ## Ends and labels -/

section

variable {P Q : Paths L} {l l' : L} {x y : Exit} {repeatable : Bool}

theorem ends_jump : (jump l x).Ends y ↔ y = .cut ∨ y = x := by
  simp [jump]

theorem visits_jump : (jump l x).Visits l' ↔ l' = l := by
  simp [jump]

theorem ends_instr : (instr l).Ends x ↔ x = .cut ∨ x = .next ∨ x = .thrown := by
  simp [instr]

theorem visits_instr : (instr l).Visits l' ↔ l' = l := by
  simp [instr]

theorem ends_seq_next : (seq P Q).Ends .next ↔ P.Ends .next ∧ Q.Ends .next := by
  unfold seq
  rw [ends_bind]
  constructor
  · rintro ⟨x, hx, hends⟩
    cases x with
    | next => exact ⟨hx, hends⟩
    | _ => cases ends_done.mp hends
  · rintro ⟨hp, hq⟩
    exact ⟨.next, hp, hq⟩

theorem visits_of_seq (h : (seq P Q).Visits l) : P.Visits l ∨ P.Ends .next ∧ Q.Visits l := by
  rcases visits_of_bind h with hl | ⟨x, hx, hl⟩
  · exact .inl hl
  · cases x with
    | next => exact .inr ⟨hx, hl⟩
    | _ => exact (visits_done hl).elim

theorem visits_seq (hQ : ∃ x, Q.Ends x) (h : P.Visits l ∨ P.Ends .next ∧ Q.Visits l) : (seq P Q).Visits l := by
  rcases h with hl | ⟨hnext, hl⟩
  · refine visits_bind_left hl fun x => ?_
    cases x with
    | next =>
      obtain ⟨y, t, ht⟩ := hQ
      exact ⟨t, y, ht⟩
    | _ => exact ⟨[], _, rfl, rfl⟩
  · exact visits_bind_right hnext hl

theorem visits_of_turn (h : (turn P Q repeatable).Visits l) :
    P.Visits l ∨ (P.Ends .next ∨ P.Ends .cont) ∧ Q.Visits l := by
  rcases visits_of_bind h with hl | ⟨x, hx, hl⟩
  · exact .inl hl
  · cases x with
    | next => exact .inr ⟨.inl hx, hl⟩
    | cont => exact .inr ⟨.inr hx, hl⟩
    | _ => exact (visits_done hl).elim

theorem ends_of_turn (h : (turn P Q repeatable).Ends .next) : P.Ends .brk ∨ Q.Ends .next := by
  obtain ⟨x, hx, hends⟩ := ends_bind.mp h
  cases x with
  | next => exact .inr hends
  | cont => exact .inr hends
  | brk => exact .inl hx
  | rep => cases repeatable <;> cases ends_done.mp hends
  | _ => cases ends_done.mp hends

theorem not_visits_never : ¬ (never : Paths L).Visits l := by
  rintro ⟨_, _, h, -⟩
  exact h

theorem not_ends_never : ¬ (never : Paths L).Ends x := by
  rintro ⟨_, h⟩
  exact h

theorem visits_of_blockExit (h : (blockExit x : Paths L).Visits l) : False := by
  cases x with
  | brk | cont | rep => exact not_visits_never h
  | _ => exact visits_done h

theorem ends_of_blockExit (h : (blockExit x : Paths L).Ends y) : y = x := by
  cases x with
  | brk | cont | rep => exact (not_ends_never h).elim
  | _ => exact ends_done.mp h

theorem visits_of_untryExit (h : (untryExit x : Paths L).Visits l) : False := by
  cases x with
  | brk | cont | rep | retry => exact not_visits_never h
  | _ => exact visits_done h

theorem ends_of_untryExit (h : (untryExit x : Paths L).Ends .next) : x = .next := by
  cases x with
  | next => rfl
  | brk | cont | rep | retry => exact (not_ends_never h).elim
  | _ => cases ends_done.mp h

theorem visits_of_tries (h : (tries P Q l).Visits l') : l' = l ∨ P.Visits l' ∨ Q.Visits l' := by
  rcases visits_of_seq (visits_of_rounds h) with hl | ⟨-, hl⟩
  · exact .inl (visits_instr.mp hl)
  · right
    rcases visits_of_bind hl with hl | ⟨x, -, hl⟩
    · exact .inl hl
    · cases x with
      | thrown => exact .inr ((visits_of_bind hl).resolve_right fun ⟨_, _, hl⟩ => visits_of_blockExit hl)
      | _ => exact (visits_of_blockExit hl).elim

theorem ends_of_tries (h : (tries P Q l).Ends .next) : P.Ends .next ∨ Q.Ends .next := by
  obtain ⟨x, hx, hends⟩ := ends_bind.mp (ends_seq_next.mp (ends_of_rounds h).1).2
  cases x with
  | thrown =>
    obtain ⟨y, hy, hends⟩ := ends_bind.mp hends
    cases ends_of_blockExit hends
    exact .inr hy
  | next => exact .inl hx
  | _ => cases ends_of_blockExit hends

end

end Events

end Eel
