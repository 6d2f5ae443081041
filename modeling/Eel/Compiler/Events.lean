-- SUMMARY: Compiler events: what has happened in a context, how branches are merged, and what is known of control and variables.
import Eel.Compiler.Contexts
import Mathlib.Algebra.Group.Int.Defs
import Mathlib.Algebra.GroupWithZero.Nat
import Mathlib.Data.List.FinRange

/-!
# Compiler events

The compiler keeps track of variables that have been initialized and of blocks that control
has left. A context has a list of events of its own, and behind it the lists of conditional
contexts within it that have been popped, until these are merged.
-/

namespace Eel

namespace Events

/-- `EEL_cestate`. -/
inductive Cestate where
  /-- It has not occurred. -/
  | no
  | maybe
  | yes
  deriving DecidableEq

namespace Cestate

def toNat : Cestate → Nat
  | no => 0
  | maybe => 1
  | yes => 2

/-- `EEL_ENOT`. -/
def not : Cestate → Cestate
  | no => yes
  | maybe => maybe
  | yes => no

/-- The state, unless the other one is greater. -/
def bump (x y : Cestate) : Cestate := if x.toNat < y.toNat then y else x

/-- The state, unless it is greater than the other one. -/
def limit (x y : Cestate) : Cestate := if y.toNat < x.toNat then y else x

variable {x y : Cestate}

theorem bump_ne_yes : x.bump y ≠ yes ↔ x ≠ yes ∧ y ≠ yes := by
  cases x <;> cases y <;> decide

theorem limit_ne_yes : x.limit y ≠ yes ↔ x ≠ yes ∨ y ≠ yes := by
  cases x <;> cases y <;> decide

end Cestate

/-- `EEL_MAXREG` and `EEL_cevents`. The first ones are the initializations of registers. -/
inductive Event where
  | init (r : Fin 256)
  | exit
  | ret
  | result
  | target
  deriving DecidableEq

/-- `EEL_cevlist`. -/
structure Cevlist where
  events : Event → Cestate
  breakto : Int
  maybeBreakto : Int

namespace Cevlist

/-- `eel_e_open`. -/
def opened : Cevlist := ⟨fun _ => .no, 0, 0⟩

variable (e : Cevlist)

def set (i : Event) (x : Cestate) : Cevlist := { e with events := Function.update e.events i x }

/-- `eel_e_move_up`, of the events of a context of this type. -/
def movedUp (type : ContextType) : Cevlist where
  events
    | .exit | .target => .no
    | .init r => if type = .block then e.events (.init r) else .no
    | i => e.events i
  breakto := if e.breakto ≠ 0 then e.breakto - 1 else e.breakto
  maybeBreakto := if e.maybeBreakto ≠ 0 then e.maybeBreakto - 1 else e.maybeBreakto

/-- `eel_e_move_up_xblock`. -/
def movedUpXblock : Cevlist :=
  { e with
    events := fun
      | .ret => e.events .ret
      | .result => e.events .result
      | _ => .no }

/-- `eel_e_merge_up`, into the events `pe` of the previous context. -/
def mergedUp (type : ContextType) (pe : Cevlist) : Cevlist :=
  { pe with
    events := fun
      | .target => pe.events .target
      | .init r => if type = .block then (pe.events (.init r)).bump (e.events (.init r)) else pe.events (.init r)
      | i => (pe.events i).bump (e.events i) }

/-- The states of an event in all branches, as one. -/
def sumState (lists : List Cevlist) (i : Event) : Cestate :=
  let sum := (lists.map fun e => (e.events i).toNat).sum
  if sum = 0 then .no else if lists.length * 2 = sum then .yes else .maybe

/-- The shallowest `breakto` in any branch, peeled. -/
def shallowest (lists : List Cevlist) : Int :=
  lists.foldl (fun s e => if e.breakto - 1 < s then e.breakto - 1 else s) (2 ^ 31 - 1)

/-- `maybe_breakto`, bumped by the breaks of a branch. -/
def bumpMaybe (m : Int) (e : Cevlist) : Int :=
  let m := if m < e.breakto - 1 then e.breakto - 1 else m
  if m < e.maybeBreakto - 1 then e.maybeBreakto - 1 else m

/-- `eel_e_merge`, of the events of a context with those of its branches. -/
def merge (modulator : Cestate) : List Cevlist → Cevlist
  | [] => e
  | lists =>
    { events := fun
        | .exit => e.events .exit
        | .target => e.events .target
        | i => (e.events i).bump ((sumState lists i).limit modulator)
      breakto := if modulator = .yes ∧ e.breakto < shallowest lists then shallowest lists else e.breakto
      maybeBreakto := lists.foldl bumpMaybe e.maybeBreakto }

end Cevlist

structure Flags where
  conditional : Bool
  breakable : Bool
  continuable : Bool
  repeatable : Bool
  keep : Bool

/-- `EEL_codemark`. A jump that is left out as dead code has no position. -/
structure Codemark where
  pos : Option Nat
  xstate : Cestate

/-- `EEL_context`, as far as events and jumps go. -/
structure Context where
  type : ContextType
  /-- `EEL_FF_XBLOCK` of the function that is coded. -/
  xblock : Bool
  flags : Flags
  level : Int
  /-- Where the code of the context starts, if that can be jumped to. -/
  startpos : Nat
  /-- `firstel`, and the lists behind it. -/
  events : Cevlist
  branches : List Cevlist
  /-- Jumps to the end of the context, and to where its loop goes on. -/
  endjumps : List Codemark
  contjumps : List Codemark

/-! ## Tests -/

/-- The loop of `test_ev`, which has come to `result`. -/
def testEvFrom (i : Event) (result : Cestate) : List Context → Cestate
  | [] => result
  | c :: cs =>
    let result := result.bump (c.events.events i)
    if result = .yes ∨ c.type = .function then result else testEvFrom i result cs

/-- `test_ev`. -/
def testEv (cs : List Context) (i : Event) : Cestate := testEvFrom i .no cs

/-- `test_break`. -/
def testBreak (c : Context) : Cestate :=
  if c.events.breakto ≠ 0 then .yes else if c.events.maybeBreakto ≠ 0 then .maybe else .no

/-- `eel_test_exit`. -/
def testExit : List Context → Cestate
  | [] => .no
  | c :: cs =>
    if c.events.events .target = .yes then .no else
      let ex := testEv (c :: cs) .exit
      let ret := testEv (c :: cs) .ret
      let brk := testBreak c
      if ex = .yes ∨ ret = .yes ∨ brk = .yes then .yes
      else if ex = .no ∧ ret = .no ∧ brk = .no then .no
      else .maybe

/-- `eel_test_init`. -/
def testInit (cs : List Context) (r : Fin 256) : Cestate := testEv cs (.init r)

/-- `eel_test_result`. -/
def testResult (cs : List Context) : Cestate := testEv cs .result

/-- `eel_initializations`. Where some may or may not have been done, there is an error. -/
def initializations : List Context → Option Nat
  | [] => some 0
  | c :: cs =>
    if ∃ r, c.events.events (.init r) = .maybe then none
    else
      let count := (List.finRange 256).countP fun r => c.events.events (.init r) = .yes
      if c.type = .function then some count else (initializations cs).map (count + ·)

/-- `find_context_flags`. The root context is not looked at. -/
def findContextFlags (flag : Flags → Bool) : List Context → Option Nat
  | [] | [_] => none
  | c :: cs => if flag c.flags then some 0 else (findContextFlags flag cs).map (· + 1)

/-! ## Contexts -/

/-- `eel_context_push`, at this position of the code. -/
def contextPush (type : ContextType) (xblock : Bool) (flags : Flags) (pos : Nat) (cs : List Context) : List Context :=
  ⟨type, xblock, flags, (cs.head?.map Context.level).getD 0 + 1,
    if flags.continuable then pos else if type = .function then 0 else (cs.head?.map Context.startpos).getD 0,
    .opened, [], [], []⟩ :: cs

/-- `eel_context_pop`. -/
def contextPop : List Context → List Context
  | c :: p :: cs =>
    (match c.type with
    | .module | .block | .body =>
      if c.flags.conditional then { p with branches := p.branches ++ [c.events.movedUp c.type] }
      else { p with events := c.events.mergedUp c.type p.events }
    | .function => if c.xblock then { p with branches := p.branches ++ [c.events.movedUpXblock] } else p) :: cs
  | cs => cs

/-- The events of the current context change. -/
def mapEvents (f : Cevlist → Cevlist) : List Context → List Context
  | [] => []
  | c :: cs => { c with events := f c.events } :: cs

/-- `eel_e_merge`. -/
def merge (modulator : Cestate) : List Context → List Context
  | [] => []
  | c :: cs => { c with events := c.events.merge modulator c.branches, branches := [] } :: cs

/-- `eel_e_target`. -/
def eTarget (x : Cestate) : List Context → List Context :=
  mapEvents fun e => e.set .target ((e.events .target).bump x)

/-- `eel_e_break`, to a context that is `d` below the current one. -/
def eBreak (d : Nat) (cs : List Context) : List Context :=
  match cs.head?, cs[d]? with
  | some c, some ctx =>
    let depth := c.level - ctx.level + 1
    mapEvents (fun e => if e.breakto < depth then { e with breakto := depth } else e) cs
  | _, _ => cs

/-! ## What is read of a context -/

/-- A context without its jumps. -/
def Context.core (c : Context) : Context := { c with endjumps := [], contjumps := [] }

/-- In no context of the function has the event occurred for certain. -/
def NotYet (i : Event) : List Context → Prop
  | [] => True
  | c :: cs => c.events.events i ≠ .yes ∧ (c.type = .function ∨ NotYet i cs)

variable {c : Context} {cs : List Context} {i : Event} {x : Cestate}

theorem testEvFrom_core (cs : List Context) : testEvFrom i x (cs.map Context.core) = testEvFrom i x cs := by
  induction cs generalizing x with
  | nil => rfl
  | cons c cs ih =>
    simp only [List.map_cons, testEvFrom, ih]
    rfl

theorem testExit_core : testExit (cs.map Context.core) = testExit cs := by
  cases cs with
  | nil => rfl
  | cons c cs =>
    have hev (i : Event) : testEv (c.core :: cs.map Context.core) i = testEv (c :: cs) i :=
      testEvFrom_core (c :: cs)
    simp only [List.map_cons, testExit, hev]
    rfl

theorem testEvFrom_ne_yes : testEvFrom i x cs ≠ .yes ↔ x ≠ .yes ∧ NotYet i cs := by
  induction cs generalizing x with
  | nil => simp [testEvFrom, NotYet]
  | cons c cs ih =>
    unfold testEvFrom NotYet
    dsimp only
    rw [← and_assoc, ← Cestate.bump_ne_yes]
    by_cases hyes : x.bump (c.events.events i) = .yes
    · simp [hyes]
    · by_cases hf : c.type = .function
      · simp [hyes, hf]
      · simp [hyes, hf, ih]

theorem testEv_ne_yes : testEv cs i ≠ .yes ↔ NotYet i cs := by
  unfold testEv
  rw [testEvFrom_ne_yes]
  exact and_iff_right (by decide)

/-- What decides whether control may be here, where nothing jumps to. -/
theorem testExit_ne_yes (hexit : NotYet .exit (c :: cs)) (hret : NotYet .ret (c :: cs)) (hbreak : c.events.breakto = 0) :
    testExit (c :: cs) ≠ .yes := by
  rw [← testEv_ne_yes] at hexit hret
  have hbrk : testBreak c ≠ .yes := by
    unfold testBreak
    rw [if_neg (not_not.mpr hbreak)]
    split <;> decide
  unfold testExit
  dsimp only
  rw [if_neg (fun h : testEv (c :: cs) .exit = .yes ∨ testEv (c :: cs) .ret = .yes ∨ testBreak c = .yes =>
    h.elim hexit fun h => h.elim hret hbrk)]
  split
  · decide
  · split <;> decide

end Events

end Eel
