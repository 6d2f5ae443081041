-- SUMMARY: After a call from C the VM is back in the caller's frame, with its arguments gone and all frames released, unless a frame is stranded.
import Eel.Vm.OpenFrames

/-!
# The discipline of calls

What `eel_call` leaves to its C caller, for every function and every way it ends.
-/

namespace Eel

open Brackets

namespace Vm

variable {F : ObjId → Function} {E : Env} {vm vm' : Vm} {c s p b t : Nat} {bs : List Nat}
  {x : Xno}

/-! ## The scheduler -/

theorem encloses_of_open (h : Open F vm.callframe c s p b bs) (ht : t ∈ bs) :
    Encloses vm.callframe b t := by
  induction h with
  | outermost => cases List.mem_singleton.mp ht; exact .here
  | inner h _ ih =>
    rcases List.mem_cons.mp ht with rfl | ht
    · exact .here
    · exact .outer h.runs.1 (ih ht)

theorem returningFrame_mem {n : Nat} (h : Open F vm.callframe c s p b bs) (hn : b ≤ n) :
    vm.returningFrame b n ∈ bs := by
  induction h generalizing n with
  | outermost h _ _ _ hblock _ =>
    cases n with
    | zero => exact List.mem_singleton.mpr rfl
    | succ n =>
      unfold returningFrame
      dsimp only
      rw [if_neg (by simp [hblock])]
      exact List.mem_singleton.mpr rfl
  | inner h _ ih =>
    cases n with
    | zero => exact List.mem_cons_self
    | succ n =>
      unfold returningFrame
      dsimp only
      split
      · exact List.mem_cons_of_mem _
          (ih (Nat.le_of_lt_succ (Nat.lt_of_lt_of_le h.rBase_lt hn)))
      · exact List.mem_cons_self

theorem findCatcher_inC {n : Nat} (hc : InC F vm.callframe c) :
    vm.findCatcher F x c n = (c, none) := by
  cases n with
  | zero => rfl
  | succ n =>
    rw [findCatcher]
    refine if_pos ?_
    rcases hc with h0 | hc
    · exact .inl h0
    · exact .inr (.inr (.inl hc))

/-- The search for a catcher ends at an open frame or in C code. -/
theorem findCatcher_open {n : Nat} (h : Open F vm.callframe c s p b bs)
    (hc : InC F vm.callframe c) (hn : b ≤ n) :
    (∃ t fo, vm.findCatcher F x b n = (t, some fo) ∧ t ∈ bs ∧
        (vm.callframe t).catcher = some fo) ∨
      vm.findCatcher F x b n = (c, none) ∨ ∃ t ∈ bs, vm.findCatcher F x b n = (t, none) := by
  induction h generalizing n with
  | @outermost b h hbase _ _ _ hcatcher =>
    cases n with
    | zero => exact absurd (Nat.le_zero.mp hn) h.runs.1
    | succ n =>
      rw [findCatcher]
      split
      · exact .inr (.inr ⟨b, List.mem_singleton.mpr rfl, rfl⟩)
      · rw [hcatcher, hbase]
        exact .inr (.inl (findCatcher_inC hc))
  | @inner b bs h _ ih =>
    cases n with
    | zero => exact absurd (Nat.le_zero.mp hn) h.runs.1
    | succ n =>
      have hrest := ih (n := n) (Nat.le_of_lt_succ (Nat.lt_of_lt_of_le h.rBase_lt hn))
      have hgoal :
          (∃ t fo, vm.findCatcher F x (vm.callframe b).rBase n = (t, some fo) ∧ t ∈ b :: bs ∧
              (vm.callframe t).catcher = some fo) ∨
            vm.findCatcher F x (vm.callframe b).rBase n = (c, none) ∨
            ∃ t ∈ b :: bs, vm.findCatcher F x (vm.callframe b).rBase n = (t, none) := by
        rcases hrest with ⟨t, fo, hfind, ht, hcatcher⟩ | hfind | ⟨t, ht, hfind⟩
        · exact .inl ⟨t, fo, hfind, List.mem_cons_of_mem _ ht, hcatcher⟩
        · exact .inr (.inl hfind)
        · exact .inr (.inr ⟨t, List.mem_cons_of_mem _ ht, hfind⟩)
      rw [findCatcher]
      split
      · exact .inr (.inr ⟨b, List.mem_cons_self, rfl⟩)
      · cases hcatcher : (vm.callframe b).catcher with
        | none => exact hgoal
        | some fo =>
          dsimp only
          split
          · exact hgoal
          · exact .inl ⟨b, fo, rfl, List.mem_cons_self, hcatcher⟩

/-- Unwinding open frames up to one of them gives a frame to go on in, or C code. -/
theorem unwind_open (hopen : Open F vm.callframe c s p vm.base bs) (ht : t ∈ bs) :
    ∃ bs₁ bs₂, bs = bs₁ ++ bs₂ ∧ Unwound t bs₁ vm (vm.unwind F (vm.callframe t).rBase) ∧
      Placed F vm.callframe t ∧
      ((bs₂ = [] ∧ (vm.callframe t).rBase = c ∧ (vm.callframe t).rSbase = s ∧
          (vm.callframe t).rSp = p ∧ (vm.callframe t).catcher = none) ∨
        Open F vm.callframe c s p (vm.callframe t).rBase bs₂) := by
  obtain ⟨bs₁, bs₂, rfl, hlast⟩ := hopen.split ht
  refine ⟨bs₁ ++ [t], bs₂, by simp, unwindFrames_unwound hopen (Nat.le_refl _), hlast.placed, ?_⟩
  rcases hlast.outer with ⟨hnil, hc, hs, hp, _, hcatcher⟩ | h
  · exact .inl ⟨hnil, hc, hs, hp, hcatcher⟩
  · exact .inr h

/-- The code for returning from within a block. -/
theorem scheduleReturn_open (hopen : Open F vm.callframe c s p vm.base bs)
    (hc : InC F vm.callframe c) :
    ((vm.scheduleReturn F).1 = Xno.ok ∧ ∃ bs', Advance F c s p vm bs (vm.scheduleReturn F).2 bs') ∨
      ((vm.scheduleReturn F).1 = Xno.end ∧ Finish c s p vm bs (vm.scheduleReturn F).2) := by
  have ht := returningFrame_mem hopen (Nat.le_refl vm.base)
  obtain ⟨bs₁, bs₂, rfl, hunw, hplaced, hrest⟩ := unwind_open hopen ht
  have hclear := hunw.stackClear
  have hsp := stackClear_sp hunw.sbase_le
  unfold scheduleReturn
  dsimp only
  rcases hrest with ⟨rfl, hbase, hsbase, -, -⟩ | hrest
  · rw [if_pos]
    · rw [List.append_nil]
      exact .inr ⟨rfl, hclear.finish hbase hsbase (hsp.trans (hunw.sbase.trans hsbase))⟩
    · rw [hclear.base, hclear.callframe, hbase]
      exact hc
  · have hruns := hrest.placed.runs
    have hadv := hclear.advance hplaced hrest
    rw [if_neg]
    · split
      · refine .inl ⟨?_, bs₂, hadv⟩
        unfold resume
        dsimp only
        rw [hclear.callframe, hclear.base, hruns.2.2]
        rfl
      · refine .inl ⟨?_, bs₂, hadv.trans (within_store.advance hadv.opened hadv.ordered)⟩
        unfold resume
        dsimp only
        rw [hclear.callframe, hclear.base, hruns.2.2]
        rfl
    · rw [hclear.base, hclear.callframe]
      rintro (h0 | hC)
      · exact hruns.1 h0
      · exact hruns.not_inC (.inr hC)

/-! ## Orderly runs -/

/-- Nothing is left over when nobody catches the exception: the search for a catcher
ends in C code, and not at an untry block, and the function that was called from
there had no arguments. -/
def Settles (F : ObjId → Function) (vm : Vm) (x : Xno) : Prop :=
  ∀ b, vm.findCatcher F x vm.base vm.base = (b, none) →
    ¬ RunsEel F vm.callframe b ∧
      ∀ t, Encloses vm.callframe vm.base t → t ≠ 0 → (vm.callframe t).rBase = b →
        (vm.callframe t).rSp = (vm.callframe t).rSbase

/-- An instruction as the compiler emits it: blocks and catchers are EEL functions,
and catchers alone use `RETRY`, which EEL functions called. -/
def Compiled (E : Env) (vm : Vm) : Prop :=
  match vm.fetch E with
  | .«try» a b =>
    (E.function ((vm.constant (vm.fo vm.base) b).obj?.getD 0)).cfunc = false ∧
      (E.function ((vm.constant (vm.fo vm.base) a).obj?.getD 0)).cfunc = false
  | .untry a => (E.function ((vm.constant (vm.fo vm.base) a).obj?.getD 0)).cfunc = false
  | .retry => RunsEel E.function vm.callframe (vm.callframe vm.base).rBase
  | _ => True

/-- The steps after which calls leave nothing behind. -/
def Orderly (E : Env) : Point → Prop
  | .fetch vm => Compiled E vm
  | .schedule vm =>
    exceptionXno vm.store.exception ≠ Xno.end ∧
      (¬ IsSignal (exceptionXno vm.store.exception) →
        Settles E.function vm (exceptionXno vm.store.exception))
  | .call fo vm =>
    vm.checkArgs E fo = Xno.ok → vm.store.heap vm.base ≠ .nil → (E.function fo).results = false →
      vm.sp = vm.sbase
  | .leaveC vm => vm.store.limbo vm.base = []

/-! ## Steps of the VM loop -/

/-- The scheduler goes on in an open frame, or returns to the C caller. -/
theorem scheduler_open (hopen : Open F vm.callframe c s p vm.base bs) (hc : InC F vm.callframe c)
    (hord : vm.Ordered) (hend : exceptionXno vm.store.exception ≠ Xno.end)
    (hsettles : ¬ IsSignal (exceptionXno vm.store.exception) →
      Settles F vm (exceptionXno vm.store.exception)) :
    ((vm.scheduler F).1 = Xno.ok ∧ ∃ bs', Advance F c s p vm bs (vm.scheduler F).2 bs') ∨
      ((vm.scheduler F).1 ≠ Xno.ok ∧ (vm.scheduler F).1 ≠ Xno.yield ∧
        Finish c s p vm bs (vm.scheduler F).2) := by
  by_cases hx : IsSignal (exceptionXno vm.store.exception)
  · rw [scheduler]
    split
    · refine .inl ⟨?_, bs, Within.refl.advance hopen hord⟩
      unfold resume
      rw [hopen.placed.runs.2.2]
      rfl
    · rename_i hgo
      rw [if_pos]
      · rcases scheduleReturn_open hopen hc with h | ⟨hx, h⟩
        · exact .inl h
        · rw [hx]
          exact .inr ⟨by decide, by decide, h⟩
      · rcases hx with h | h | h | h
        · exact absurd (.inl h) hgo
        · exact absurd (.inr h) hgo
        · exact absurd h hend
        · exact h
  · have hset := hsettles hx
    rw [scheduler_exception hx]
    generalize exceptionXno vm.store.exception = x at *
    rcases findCatcher_open (x := x) hopen hc (Nat.le_refl _) with
      ⟨t, fo, hfind, ht, hcatcher⟩ | hfind | ⟨t, ht, hfind⟩
    · obtain ⟨bs₁, bs₂, rfl, hunw, hplaced, hrest⟩ := unwind_open hopen ht
      have hout : Open F vm.callframe c s p (vm.callframe t).rBase bs₂ := by
        rcases hrest with ⟨-, -, -, -, hnone⟩ | h
        · rw [hcatcher] at hnone
          cases hnone
        · exact h
      have hadv := hunw.advance hplaced hout
      obtain ⟨hpush, hf, hnone⟩ :=
        callCatcher_pushed (F := F) (vm.unwind F (vm.callframe t).rBase) fo
      have hnew := hpush.advance hadv.opened hadv.ordered
        (hpush.placed hadv.ordered (by simp [Callframe.isCFunc, hf, hplaced.catcher fo hcatcher])
          (by simp [hnone]))
      have hclean := (within_addClean (a := 0)).advance hnew.opened hnew.ordered
      unfold scheduleException
      rw [hfind]
      exact .inl ⟨rfl, _, (hadv.trans hnew).trans hclean⟩
    · obtain ⟨t, ht, hbase⟩ := hopen.exists_outermost
      have hsp := (hset c hfind).2 t (encloses_of_open hopen ht)
      obtain ⟨bs₁, bs₂, rfl, hunw, hplaced, hrest⟩ := unwind_open hopen ht
      rw [hbase] at hunw
      unfold scheduleException
      rw [hfind]
      refine .inr ⟨fun h => hx (.inl h), fun h => hx (.inr (.inl h)), ?_⟩
      rcases hrest with ⟨rfl, -, hsbase, -, -⟩ | h
      · rw [List.append_nil]
        refine hunw.finish hbase hsbase (Nat.le_antisymm ?_ ?_)
        · rw [← hsbase, ← hsp hplaced.runs.1 hbase]
          exact hunw.sp_le
        · rw [← hsbase, ← hunw.sbase]
          exact hunw.sbase_le
      · rw [hbase] at h
        exact absurd hc h.placed.runs.not_inC
    · obtain ⟨_, _, _, hlast⟩ := hopen.split ht
      exact absurd hlast.placed.runs (hset t hfind).1

/-- `RETURN` goes on in an open frame, or returns to the C caller. -/
theorem stepReturn_open (hopen : Open E.function vm.callframe c s p vm.base bs)
    (hc : InC E.function vm.callframe c) :
    (∃ vm' bs', vm.stepReturn E = .next vm' ∧ Advance E.function c s p vm bs vm' bs') ∨
      ∃ vm', vm.stepReturn E = .leave Xno.end vm' ∧ Finish c s p vm bs vm' := by
  obtain ⟨bs', rfl⟩ := hopen.head
  obtain ⟨hpop, hsp⟩ := popFrame_unwound hopen.placed
  unfold stepReturn
  dsimp only
  rcases hopen.outer with ⟨rfl, hbase, hsbase, -, -, -⟩ | h
  · rw [if_pos]
    · exact .inr ⟨_, rfl, hpop.finish hbase hsbase (hsp.trans (hpop.sbase.trans hsbase))⟩
    · rw [hpop.base, hpop.callframe, hbase]
      exact hc
  · rw [if_neg]
    · exact .inl ⟨_, _, rfl, hpop.advance hopen.placed h⟩
    · rw [hpop.base, hpop.callframe]
      exact h.placed.runs.not_inC

/-- What a step of the VM loop has to do with the open frames. -/
def StepOpen (E : Env) (c s p : Nat) (vm : Vm) (bs : List Nat) : Step → Prop
  | .next vm' => ∃ bs', Advance E.function c s p vm bs vm' bs'
  | .leave x vm' => x = Xno.end ∧ Finish c s p vm bs vm'
  | .schedule vm' => Advance E.function c s p vm bs vm' bs
  | .call _ _ _ vm' => Advance E.function c s p vm bs vm' bs

/-- An instruction within the frame before it is fetched and executed. -/
theorem StepOpen.of_advance {st : Step} (h : Advance E.function c s p vm bs vm' bs)
    (hst : StepOpen E c s p vm' bs st) : StepOpen E c s p vm bs st := by
  cases st with
  | next vm'' =>
    obtain ⟨bs', h'⟩ := hst
    exact ⟨bs', h.trans h'⟩
  | leave x vm'' => exact ⟨hst.1, h.finish hst.2⟩
  | schedule vm'' => exact h.trans hst
  | call fo result levels vm'' => exact h.trans hst

theorem stepReturn_stepOpen (hopen : Open E.function vm.callframe c s p vm.base bs)
    (hc : InC E.function vm.callframe c) : StepOpen E c s p vm bs (vm.stepReturn E) := by
  rcases stepReturn_open hopen hc with ⟨vm', bs', hst, h⟩ | ⟨vm', hst, h⟩ <;> rw [hst]
  · exact ⟨bs', h⟩
  · exact ⟨rfl, h⟩

theorem stepReturnr_stepOpen {a : Nat} (hopen : Open E.function vm.callframe c s p vm.base bs)
    (hord : vm.Ordered) (hc : InC E.function vm.callframe c) :
    StepOpen E c s p vm bs (vm.stepReturnr E a) := by
  unfold stepReturnr
  split
  · exact stepReturn_stepOpen hopen hc
  · rename_i ri _
    have hcopy := (within_store (s := vm.store.copy ri (vm.register a))).advance hopen hord
    refine .of_advance hcopy ?_
    rcases stepReturn_open hcopy.opened hc with ⟨vm', bs', hst, h⟩ | ⟨vm', hst, h⟩ <;> rw [hst]
    · exact ⟨bs', h.trans (within_store.advance h.opened h.ordered)⟩
    · exact ⟨rfl, h⟩

theorem enterBlock_stepOpen {block : Value} {catcher : Option ObjId} {untry : Bool}
    (hopen : Open E.function vm.callframe c s p vm.base bs) (hord : vm.Ordered)
    (hblock : (E.function (block.obj?.getD 0)).cfunc = false)
    (hcatcher : ∀ fo, catcher = some fo → (E.function fo).cfunc = false) :
    StepOpen E c s p vm bs (.next (vm.enterBlock E block catcher untry)) := by
  obtain ⟨hpush, hf, hcat⟩ := enterBlock_pushed E vm block catcher untry
  exact ⟨_, hpush.advance hopen hord
    (hpush.placed hord (by simp [Callframe.isCFunc, hf, hblock]) (by rwa [hcat]))⟩

theorem retry_stepOpen (hopen : Open E.function vm.callframe c s p vm.base bs)
    (hc : InC E.function vm.callframe c)
    (hretry : RunsEel E.function vm.callframe (vm.callframe vm.base).rBase) :
    StepOpen E c s p vm bs (.next vm.retry) := by
  obtain ⟨bs', rfl⟩ := hopen.head
  have hpop : Unwound vm.base [vm.base] vm vm.retry :=
    ⟨rfl, rfl, hopen.placed.sbase_le, Nat.le_refl _, rfl, rfl⟩
  rcases hopen.outer with ⟨-, hbase, -, -, -, -⟩ | h
  · rw [hbase] at hretry
    exact absurd hc hretry.not_inC
  · exact ⟨bs', hpop.advance hopen.placed h⟩

theorem stepCall_stepOpen {ref : Value} {result : Option Nat}
    (hopen : Open E.function vm.callframe c s p vm.base bs) (hord : vm.Ordered) :
    StepOpen E c s p vm bs (vm.stepCall E ref result) := by
  have hthrow : ∀ x, Advance E.function c s p vm bs (vm.throwXno x) bs :=
    fun _ => within_store.advance hopen hord
  unfold stepCall
  split
  · exact hthrow _
  · split
    · exact Within.refl.advance hopen hord
    · exact hthrow _

/-- Every instruction keeps to the open frames. -/
theorem step_open (hopen : Open E.function vm.callframe c s p vm.base bs) (hord : vm.Ordered)
    (hc : InC E.function vm.callframe c) (hcompiled : Compiled E vm) :
    StepOpen E c s p vm bs (vm.step E) := by
  have hpc : Within vm { vm with pc := vm.pc + (vm.fetch E).size } :=
    .of_eq rfl rfl rfl rfl (Nat.le_refl _)
  have hfetch := hpc.advance hopen hord
  refine .of_advance hfetch ?_
  have hopen' := hfetch.opened
  have hord' := hfetch.ordered
  have hwithin : ∀ {s'}, Advance E.function c s p { vm with pc := vm.pc + (vm.fetch E).size } bs
      { vm with pc := vm.pc + (vm.fetch E).size, store := s' } bs :=
    within_store.advance hopen' hord'
  unfold Compiled at hcompiled
  unfold step execute
  split
  · exact stepCall_stepOpen hopen' hord'
  · exact stepCall_stepOpen hopen' hord'
  · exact Within.refl.advance hopen' hord'
  · exact Within.refl.advance hopen' hord'
  · exact stepReturn_stepOpen hopen' hc
  · exact stepReturnr_stepOpen hopen' hord' hc
  · rename_i hi
    rw [hi] at hcompiled
    exact enterBlock_stepOpen hopen' hord' hcompiled.1 fun _ h => by
      cases h
      exact hcompiled.2
  · rename_i hi
    rw [hi] at hcompiled
    exact enterBlock_stepOpen hopen' hord' hcompiled fun _ h => by cases h
  · exact hwithin
  · rename_i hi
    rw [hi] at hcompiled
    exact retry_stepOpen hopen' hc hcompiled
  · exact hwithin
  · split
    · exact hwithin
    · exact hwithin
  · have hexec := exec_within (E := E) { vm with pc := vm.pc + (vm.fetch E).size } (vm.fetch E)
    split
    · rename_i hr
      rw [hr] at hexec
      exact ⟨bs, Within.advance hexec hopen' hord'⟩
    · rename_i hr
      rw [hr] at hexec
      have hadv := Within.advance hexec hopen' hord'
      exact hadv.trans (within_store.advance hadv.opened hadv.ordered)

/-! ## Runs -/

/-- Back in the frame of the C caller, with every frame since then settled. -/
structure Returned (vm vm' : Vm) : Prop where
  base : vm'.base = vm.base
  sbase : vm'.sbase = vm.sbase
  frames : ∀ b ≤ vm.sbase, vm'.callframe b = vm.callframe b
  log : ∃ l, vm'.log = vm.log ++ l ∧ Settled l

theorem Returned.trans {vm'' : Vm} (h : Returned vm vm') (h' : Returned vm' vm'') :
    Returned vm vm'' where
  base := h'.base.trans h.base
  sbase := h'.sbase.trans h.sbase
  frames b hb := (h'.frames b (h.sbase.symm ▸ hb)).trans (h.frames b hb)
  log := by
    obtain ⟨l, hl, hset⟩ := h.log
    obtain ⟨l', hl', hset'⟩ := h'.log
    exact ⟨l ++ l', by rw [hl', hl, List.append_assoc], hset.append hset'⟩

theorem Within.returned (h : Within vm vm') : Returned vm vm' where
  base := h.base
  sbase := h.sbase
  frames b _ := by rw [h.callframe]
  log := ⟨[], by rw [h.log, List.append_nil], .nil⟩

/-- A C function that leaves nothing in its limbo list is settled by its return. -/
theorem leaveC_returned {fo : ObjId} {result : Option Nat} (hord : vm.Ordered)
    (hret : Returned (vm.enterC fo result) vm')
    (hlimbo : vm'.store.limbo vm'.base = []) :
    Returned vm (vm'.leaveC E fo result x) ∧ (vm'.leaveC E fo result x).sp = vm.sbase := by
  obtain ⟨hpush, -⟩ := enterC_pushed vm fo result
  generalize vm.enterC fo result = entered at hret hpush
  have hframe : vm'.callframe vm'.base = entered.callframe entered.base := by
    rw [hret.base]
    exact hret.frames _ hpush.ordered.base_le
  have hclear : Within vm' (if x = Xno.ok then vm' else vm'.stackClear) :=
    within_ite .refl within_stackClear
  unfold leaveC
  dsimp only
  generalize (if x = Xno.ok then vm' else vm'.stackClear) = cleared at hclear
  have hback : Returned vm { cleared with
      base := (vm'.callframe vm'.base).rBase
      sp := (vm'.callframe vm'.base).rSp
      sbase := (vm'.callframe vm'.base).rSbase
      log := cleared.log ++ [.dropped vm'.base (vm'.store.limbo vm'.base)] } := by
    refine ⟨?_, ?_, fun b hb => ?_, ?_⟩
    · rw [hframe]; exact hpush.base
    · rw [hframe]; exact hpush.sbase
    · have hlt : b < entered.base := Nat.lt_of_le_of_lt (Nat.le_trans hb hord.sbase_le) hpush.above
      change cleared.callframe b = _
      rw [hclear.callframe, hret.frames b (Nat.le_trans (Nat.le_of_lt hlt) hpush.ordered.base_le),
        hpush.frames b (Nat.ne_of_lt hlt)]
    · obtain ⟨l, hl, hset⟩ := hret.log
      refine ⟨.pushed entered.base :: (l ++ [.dropped entered.base []]), ?_,
        .pair hset (.inr rfl) .nil⟩
      change cleared.log ++ _ = _
      rw [hclear.log, hl, hpush.log, hlimbo, hret.base]
      simp
  generalize hpop : Vm.mk _ _ _ _ _ _ _ _ _ _ _ = popped at hback
  have hle : popped.sbase ≤ popped.sp := by
    rw [← hpop]
    change (vm'.callframe vm'.base).rSbase ≤ (vm'.callframe vm'.base).rSp
    rw [hframe, hpush.sbase, hpush.sp]
    exact hord.sbase_le
  have hdone : Returned vm popped.stackClear ∧ popped.stackClear.sp = vm.sbase :=
    ⟨hback.trans within_stackClear.returned, (stackClear_sp hle).trans hback.sbase⟩
  split
  · split
    · exact ⟨hdone.1.trans within_store.returned, hdone.2⟩
    · exact ⟨hdone.1.trans within_store.returned, hdone.2⟩
  · exact hdone

/-- What each task leaves, in an orderly run. -/
def Spec (E : Env) (task : Task) (vm : Vm) (r : Result) : Prop :=
  match task with
  | .loop | .schedule | .run =>
    ∀ c s p bs, Open E.function vm.callframe c s p vm.base bs → vm.Ordered →
      InC E.function vm.callframe c →
      Finish c s p vm bs r.vm ∧ r.x ≠ Xno.ok ∧ r.x ≠ Xno.yield
  | .doRun =>
    ∀ c s p bs, Open E.function vm.callframe c s p vm.base bs → vm.Ordered →
      InC E.function vm.callframe c → Finish c s p vm bs r.vm
  | .callF fo result levels =>
    vm.Ordered →
      (r.x = Xno.noResult ∧ r.vm = vm ∧ result.isSome ∧ (E.function fo).results = false) ∨
      ((E.function fo).cfunc = true ∧ Returned vm r.vm ∧ r.vm.sp = vm.sbase) ∨
      ((E.function fo).cfunc = false ∧ r.x = Xno.ok ∧
        r.vm = vm.callEel E.function fo result levels)
  | .host _ =>
    vm.Ordered → InC E.function vm.callframe vm.base → Returned vm r.vm ∧ vm.sbase ≤ r.vm.sp
  | .call fo =>
    vm.Ordered → InC E.function vm.callframe vm.base →
      Returned vm r.vm ∧ vm.sbase ≤ r.vm.sp ∧ (E.callable fo → r.vm.sp = vm.sbase)

variable {C : ObjId → Host}

/-- What is left of a task when the rest of its run is added. -/
theorem after_spec {o : Option Result} {trace : List Point} {r : Result}
    (h : o.map (.after trace) = some r) :
    ∃ r', o = some r' ∧ r.x = r'.x ∧ r.vm = r'.vm ∧ r.trace = trace ++ r'.trace := by
  obtain ⟨r', ho, rfl⟩ := Option.map_eq_some_iff.mp h
  exact ⟨r', ho, rfl, rfl, rfl⟩

/-- Whatever is performed within `fuel` turns meets its specification. -/
def Performs (E : Env) (C : ObjId → Host) (fuel : Nat) : Prop :=
  ∀ task vm r, perform E C fuel task vm = some r → (∀ pt ∈ r.trace, Orderly E pt) →
    Spec E task vm r

variable {fuel : Nat} {r : Result} {fo : ObjId} {result : Option Nat} {levels : Nat}

/-- The VM loop, once it has advanced. -/
theorem Performs.loop_of_advance {task : Task} {bs' : List Nat} (ih : Performs E C fuel)
    (htask : task = .loop ∨ task = .schedule) (hr : perform E C fuel task vm' = some r)
    (hok : ∀ pt ∈ r.trace, Orderly E pt) (hadv : Advance E.function c s p vm bs vm' bs')
    (hopen : Open E.function vm.callframe c s p vm.base bs) (hc : InC E.function vm.callframe c) :
    Finish c s p vm bs r.vm ∧ r.x ≠ Xno.ok ∧ r.x ≠ Xno.yield := by
  have hc' : InC E.function vm'.callframe c := by
    unfold InC
    rw [hadv.frames c (Nat.le_trans hopen.order.1 hopen.order.2.1)]
    exact hc
  have hspec := ih task vm' r hr hok
  rcases htask with rfl | rfl <;>
  · obtain ⟨hfin, hx⟩ := hspec c s p bs' hadv.opened hadv.ordered hc'
    exact ⟨hadv.finish hfin, hx⟩

/-- A function called from an open frame is either entered or has returned. -/
theorem callF_advance (hcall : Spec E (.callF fo result levels) vm r)
    (hopen : Open E.function vm.callframe c s p vm.base bs) (hord : vm.Ordered) :
    ∃ bs', Advance E.function c s p vm bs r.vm bs' := by
  rcases hcall hord with ⟨-, hvm, -, -⟩ | ⟨-, hret, hsp⟩ | ⟨hfunc, -, hvm⟩
  · rw [hvm]
    exact ⟨bs, Within.refl.advance hopen hord⟩
  · refine ⟨bs, ⟨?_, ?_, fun b hb => ?_, ?_⟩⟩
    · rw [hret.base]
      exact hopen.congr fun t ht => hret.frames t (Nat.le_trans ht hord.base_le)
    · exact ⟨by rw [hret.base, hret.sbase]; exact hord.base_le,
        Nat.le_of_eq (hret.sbase.trans hsp.symm)⟩
    · exact hret.frames b (Nat.le_trans (Nat.le_of_lt (Nat.lt_of_le_of_lt hb hopen.order.2.2))
        hord.base_le)
    · obtain ⟨l, hl, hset⟩ := hret.log
      exact ⟨l, hl, fun _ h => hset.append_closing h⟩
  · rw [hvm]
    obtain ⟨hpush, hf, hnone, -⟩ := callEel_pushed (F := E.function) vm fo result levels
    exact ⟨_, hpush.advance hopen hord
      (hpush.placed hord (by simp [Callframe.isCFunc, hf, hfunc]) (by simp [hnone]))⟩

theorem Performs.loop (ih : Performs E C fuel) (hr : perform E C (fuel + 1) .loop vm = some r)
    (hok : ∀ pt ∈ r.trace, Orderly E pt) : Spec E .loop vm r := by
  intro c s p bs hopen hord hc
  rw [perform] at hr
  have hstep : Orderly E (.fetch vm) → StepOpen E c s p vm bs (vm.step E) :=
    fun h => step_open hopen hord hc h
  split at hr <;> rename_i hst <;> rw [hst] at hstep
  · obtain ⟨r', hr', hx, hvm, htrace⟩ := after_spec hr
    rw [htrace] at hok
    obtain ⟨bs', hadv⟩ := hstep (hok _ List.mem_cons_self)
    rw [hx, hvm]
    exact ih.loop_of_advance (.inl rfl) hr' (fun pt h => hok pt (List.mem_cons_of_mem _ h)) hadv
      hopen hc
  · cases hr
    obtain ⟨rfl, hfin⟩ := hstep (hok _ List.mem_cons_self)
    exact ⟨hfin, (by decide : Xno.end ≠ Xno.ok), (by decide : Xno.end ≠ Xno.yield)⟩
  · obtain ⟨r', hr', hx, hvm, htrace⟩ := after_spec hr
    rw [htrace] at hok
    have hadv := hstep (hok _ List.mem_cons_self)
    rw [hx, hvm]
    exact ih.loop_of_advance (.inr rfl) hr' (fun pt h => hok pt (List.mem_cons_of_mem _ h)) hadv
      hopen hc
  · obtain ⟨r₁, hr₁, hrest⟩ := Option.bind_eq_some_iff.mp hr
    have hcalled : (∀ pt ∈ Point.fetch vm :: r₁.trace, Orderly E pt) →
        ∃ bs', Advance E.function c s p vm bs r₁.vm bs' := fun h => by
      have hadv := hstep (h _ List.mem_cons_self)
      obtain ⟨bs', hadv'⟩ := callF_advance
        (ih _ _ _ hr₁ fun pt hpt => h pt (List.mem_cons_of_mem _ hpt)) hadv.opened hadv.ordered
      exact ⟨bs', hadv.trans hadv'⟩
    split at hrest
    · obtain ⟨r', hr', hx, hvm, htrace⟩ := after_spec hrest
      rw [htrace] at hok
      obtain ⟨bs', hadv⟩ := hcalled fun pt h => hok pt (List.mem_append_left _ h)
      rw [hx, hvm]
      exact ih.loop_of_advance (.inl rfl) hr' (fun pt h => hok pt (List.mem_append_right _ h))
        hadv hopen hc
    · obtain ⟨r', hr', hx, hvm, htrace⟩ := after_spec hrest
      rw [htrace] at hok
      obtain ⟨bs', hadv⟩ := hcalled fun pt h => hok pt (List.mem_append_left _ h)
      rw [hx, hvm]
      exact ih.loop_of_advance (.inr rfl) hr' (fun pt h => hok pt (List.mem_append_right _ h))
        (hadv.trans (within_store.advance hadv.opened hadv.ordered)) hopen hc

theorem Performs.schedule (ih : Performs E C fuel)
    (hr : perform E C (fuel + 1) .schedule vm = some r)
    (hok : ∀ pt ∈ r.trace, Orderly E pt) : Spec E .schedule vm r := by
  intro c s p bs hopen hord hc
  rw [perform] at hr
  have hopen' : Orderly E (.schedule vm) → _ := fun h => scheduler_open hopen hc hord h.1 h.2
  generalize vm.scheduler E.function = sched at hr hopen'
  obtain ⟨x, vm'⟩ := sched
  dsimp only at hr hopen'
  split at hr
  · rename_i hxok
    obtain ⟨r', hr', hx, hvm, htrace⟩ := after_spec hr
    rw [htrace] at hok
    rcases hopen' (hok _ List.mem_cons_self) with ⟨-, bs', hadv⟩ | ⟨hne, -⟩
    · rw [hx, hvm]
      exact ih.loop_of_advance (.inl rfl) hr' (fun pt h => hok pt (List.mem_cons_of_mem _ h)) hadv
        hopen hc
    · exact absurd hxok hne
  · rename_i hxne
    cases hr
    rcases hopen' (hok _ List.mem_cons_self) with ⟨hxok, -⟩ | ⟨hne, hyield, hfin⟩
    · exact absurd hxok hxne
    · exact ⟨hfin, hne, hyield⟩

theorem Performs.run (ih : Performs E C fuel) (hr : perform E C (fuel + 1) .run vm = some r)
    (hok : ∀ pt ∈ r.trace, Orderly E pt) : Spec E .run vm r := by
  intro c s p bs hopen hord hc
  rw [perform, if_neg hopen.placed.runs.1] at hr
  exact ih.loop_of_advance (.inl rfl) hr hok (within_store.advance hopen hord) hopen hc

theorem Performs.doRun (ih : Performs E C fuel)
    (hr : perform E C (fuel + 1) .doRun vm = some r)
    (hok : ∀ pt ∈ r.trace, Orderly E pt) : Spec E .doRun vm r := by
  intro c s p bs hopen hord hc
  rw [perform] at hr
  obtain ⟨r₁, hr₁, hrest⟩ := Option.bind_eq_some_iff.mp hr
  have hrun : (∀ pt ∈ r₁.trace, Orderly E pt) → _ := fun h =>
    ih .run vm r₁ hr₁ h c s p bs hopen hord hc
  split at hrest
  · rename_i hnone
    obtain ⟨r', -, -, -, htrace⟩ := after_spec hrest
    rw [htrace] at hok
    obtain ⟨-, hok', hyield⟩ := hrun fun pt h => hok pt (List.mem_append_left _ h)
    unfold Xno.doRun at hnone
    rw [if_neg (not_or.mpr ⟨hok', hyield⟩)] at hnone
    split at hnone <;> cases hnone
  · cases hrest
    exact (hrun hok).1

theorem Performs.callF (ih : Performs E C fuel)
    (hr : perform E C (fuel + 1) (.callF fo result levels) vm = some r)
    (hok : ∀ pt ∈ r.trace, Orderly E pt) : Spec E (.callF fo result levels) vm r := by
  intro hord
  rw [perform] at hr
  split at hr
  · rename_i hresult
    cases hr
    exact .inl ⟨rfl, rfl, hresult.1, by simpa using hresult.2⟩
  · split at hr
    · rename_i hfunc
      obtain ⟨r', hr', rfl⟩ := Option.map_eq_some_iff.mp hr
      obtain ⟨hpush, hf⟩ := enterC_pushed vm fo result
      have hC : InC E.function (vm.enterC fo result).callframe (vm.enterC fo result).base :=
        .inr (by simp [Callframe.isCFunc, hf, hfunc])
      obtain ⟨hret, -⟩ := ih _ _ _ hr' (fun pt h => hok pt (List.mem_append_left _ h))
        hpush.ordered hC
      obtain ⟨hret', hsp⟩ := leaveC_returned (E := E) (x := r'.x) hord hret
        (hok (.leaveC r'.vm) (List.mem_append_right _ List.mem_cons_self))
      exact .inr (.inl ⟨hfunc, hret', hsp⟩)
    · rename_i hfunc
      cases hr
      exact .inr (.inr ⟨by simpa using hfunc, rfl, rfl⟩)

theorem within_argf (item : ArgItem) : Within vm (vm.argf item) := by
  cases item with
  | reset => exact within_stackClear.trans within_store
  | result => exact within_store
  | raw v => exact within_pushRaw
  | copy v => exact within_push

/-- A C function, once it has done something. -/
theorem Performs.host_of_returned {p : Host} (ih : Performs E C fuel)
    (hr : perform E C fuel (.host p) vm' = some r) (hok : ∀ pt ∈ r.trace, Orderly E pt)
    (hret : Returned vm vm') (hsp : vm.sbase ≤ vm'.sp) (hord : vm.Ordered)
    (hc : InC E.function vm.callframe vm.base) : Returned vm r.vm ∧ vm.sbase ≤ r.vm.sp := by
  have hord' : vm'.Ordered :=
    ⟨by rw [hret.base, hret.sbase]; exact hord.base_le, by rwa [hret.sbase]⟩
  have hc' : InC E.function vm'.callframe vm'.base := by
    unfold InC
    rw [hret.base, hret.frames _ hord.base_le]
    exact hc
  obtain ⟨hret', hsp'⟩ := ih (.host p) vm' r hr hok hord' hc'
  exact ⟨hret.trans hret', hret.sbase ▸ hsp'⟩

theorem Performs.host {p : Host} (ih : Performs E C fuel)
    (hr : perform E C (fuel + 1) (.host p) vm = some r)
    (hok : ∀ pt ∈ r.trace, Orderly E pt) : Spec E (.host p) vm r := by
  intro hord hc
  cases p with
  | ret x =>
    rw [perform] at hr
    cases hr
    exact ⟨Within.refl.returned, hord.sbase_le⟩
  | look k =>
    rw [perform] at hr
    exact ih.host_of_returned hr hok Within.refl.returned hord.sbase_le hord hc
  | act s k =>
    rw [perform] at hr
    exact ih.host_of_returned hr hok within_store.returned hord.sbase_le hord hc
  | argf item k =>
    rw [perform] at hr
    exact ih.host_of_returned hr hok (within_argf item).returned ((within_argf item).sp hord.sbase_le) hord hc
  | call fo k =>
    rw [perform] at hr
    obtain ⟨r₁, hr₁, hrest⟩ := Option.bind_eq_some_iff.mp hr
    obtain ⟨r', hr', -, hvm, htrace⟩ := after_spec hrest
    rw [htrace] at hok
    obtain ⟨hret, hsp, -⟩ := ih _ _ _ hr₁ (fun pt h => hok pt (List.mem_append_left _ h)) hord hc
    rw [hvm]
    exact ih.host_of_returned hr' (fun pt h => hok pt (List.mem_append_right _ h)) hret hsp hord hc

/-- An EEL function that C code called and ran to its end has returned. -/
theorem returned_of_finish (hord : vm.Ordered) (hpush : Pushed vm vm')
    (hfin : Finish vm.base vm.sbase vm.sp vm' [vm'.base] r.vm) :
    Returned vm r.vm ∧ r.vm.sp = vm.sbase where
  left :=
    { base := hfin.base
      sbase := hfin.sbase
      frames := fun b hb => by
        have hle := Nat.le_trans hb hord.sbase_le
        rw [hfin.frames b hle, hpush.frames b (Nat.ne_of_lt (Nat.lt_of_le_of_lt hle hpush.above))]
      log := by
        obtain ⟨l, hl, hset⟩ := hfin.log
        refine ⟨.pushed vm'.base :: l, by rw [hl, hpush.log]; simp, ?_⟩
        cases hset.push with
        | nil h => exact h }
  right := hfin.sp

theorem Performs.call (ih : Performs E C fuel)
    (hr : perform E C (fuel + 1) (.call fo) vm = some r)
    (hok : ∀ pt ∈ r.trace, Orderly E pt) : Spec E (.call fo) vm r := by
  intro hord hc
  suffices h : Returned vm r.vm ∧ vm.sbase ≤ r.vm.sp ∧ (E.callable fo → r.vm.sp = vm.sbase) from h
  rw [perform] at hr
  split at hr
  · rename_i hcallable
    cases hr
    exact ⟨Within.refl.returned, hord.sbase_le, fun h => absurd h hcallable⟩
  · split at hr
    · cases hr
      have hsp : vm.resetArgs.sp = vm.sbase := stackClear_sp hord.sbase_le
      exact ⟨(within_argf .reset).returned, Nat.le_of_eq hsp.symm, fun _ => hsp⟩
    · rename_i hargs
      dsimp only at hr
      generalize hresult : (if vm.store.heap vm.base = Value.nil then none else some vm.base) = result at hr
      obtain ⟨r₁, hr₁, hrest⟩ := Option.bind_eq_some_iff.mp hr
      obtain ⟨r₂, hr₂, rfl⟩ := Option.map_eq_some_iff.mp hrest
      have hok₁ : ∀ pt ∈ r₁.trace, Orderly E pt := fun pt h =>
        hok pt (List.mem_cons_of_mem _ (List.mem_append_left _ h))
      have hok₂ : ∀ pt ∈ r₂.trace, Orderly E pt := fun pt h =>
        hok pt (List.mem_cons_of_mem _ (List.mem_append_right _ h))
      have hdone : Returned vm r₂.vm ∧ r₂.vm.sp = vm.sbase := by
        rcases ih _ _ _ hr₁ hok₁ hord with
          ⟨hx, hvm, hsome, hnores⟩ | ⟨hfunc, hret, hsp⟩ | ⟨hfunc, hx, hvm⟩
        · -- No result, although one is wanted: the arguments stay, if there are any.
          rw [if_neg (by rw [hx]; exact fun h => absurd h.1 (by decide))] at hr₂
          cases hr₂
          have hcall := hok (.call fo vm) List.mem_cons_self
          have hsp : vm.sp = vm.sbase := by
            refine hcall (not_not.mp hargs) ?_ hnores
            intro hnil
            rw [if_pos hnil] at hresult
            rw [← hresult] at hsome
            cases hsome
          rw [hvm]
          exact ⟨Within.refl.returned, hsp⟩
        · rw [if_neg (fun h => h.2 hfunc)] at hr₂
          cases hr₂
          exact ⟨hret, hsp⟩
        · rw [if_pos ⟨hx, by simp [hfunc]⟩] at hr₂
          obtain ⟨hpush, hf, hnone, htry, hcatch⟩ := callEel_pushed (F := E.function) vm
            fo result 0
          rw [← hvm] at hpush hf hnone htry hcatch
          have hplaced := hpush.placed (F := E.function) hord
            (by simp [Callframe.isCFunc, hf, hfunc]) (by simp [hnone])
          have hc' : InC E.function r₁.vm.callframe vm.base := by
            unfold InC
            rw [hpush.frames _ (Nat.ne_of_lt (Nat.lt_of_le_of_lt
              (Nat.le_trans hord.base_le hord.sbase_le) hpush.above))]
            exact hc
          have hfin := ih _ _ _ hr₂ hok₂ _ _ _ _
            (hpush.opened hplaced (by simp [htry, hcatch]) hnone) hpush.ordered hc'
          exact returned_of_finish hord hpush hfin
      exact ⟨⟨hdone.1.base, hdone.1.sbase, hdone.1.frames, hdone.1.log⟩,
        Nat.le_of_eq hdone.2.symm, fun _ => hdone.2⟩

/-- Every run meets the specification of its task. -/
theorem performs (fuel : Nat) : Performs E C fuel := by
  induction fuel with
  | zero => exact fun task vm r hr => by cases hr
  | succ fuel ih =>
    intro task vm r hr hok
    cases task with
    | loop => exact ih.loop hr hok
    | schedule => exact ih.schedule hr hok
    | run => exact ih.run hr hok
    | doRun => exact ih.doRun hr hok
    | callF fo result levels => exact ih.callF hr hok
    | host p => exact ih.host hr hok
    | call fo => exact ih.call hr hok

/-! ## Calls from C -/

/-- What a C caller may expect of `eel_call`: its own frame, an empty argument stack,
and all frames since then released, once each. -/
structure Restored (vm vm' : Vm) : Prop where
  base : vm'.base = vm.base
  sbase : vm'.sbase = vm.sbase
  sp : vm'.sp = vm.sbase
  log : ∃ l, vm'.log = vm.log ++ l ∧ Settled l

/-- In an orderly run, `eel_call` restores the frame of its C caller, however the
function ends. -/
theorem call_restores (hr : perform E C fuel (.call fo) vm = some r)
    (hcallable : E.callable fo) (hord : vm.Ordered) (hc : InC E.function vm.callframe vm.base)
    (hok : ∀ pt ∈ r.trace, Orderly E pt) : Restored vm r.vm := by
  obtain ⟨hret, -, hsp⟩ := performs fuel (.call fo) vm r hr hok hord hc
  exact ⟨hret.base, hret.sbase, hsp hcallable, hret.log⟩

/-! ### Calls from the initial state -/

/-- Functions that run `code` and may have one argument; no operators. -/
def bareEnv (code : Nat → Instr) : Env where
  function _ :=
    { cfunc := false, results := false, reqargs := 0, optargs := 1, tupargs := 0
      argdefaults := none, framesize := 1, cleansize := 1, «module» := 0 }
  callable _ := true
  code _ := code
  operate _ _ _ s := (.error Xno.wrongType, s)
  ipoperate _ _ _ s := (.error Xno.wrongType, s)
  unary _ _ s := (.error Xno.wrongType, s)
  cast _ _ s := (.error Xno.wrongType, s)
  construct _ _ s := (.error Xno.wrongType, s)
  getindex _ _ s := (.error Xno.wrongIndex, s)
  setindex _ _ _ s := (Xno.wrongIndex, s)
  realval _ := .error Xno.wrongType
  realAdd a _ := a
  realLt _ _ := false
  realFloor _ := 0

/-- `eel_vm_open`, with one argument pushed. -/
def oneArgument : Vm where
  store :=
    { heap := fun _ => .nil
      object := fun _ =>
        { refcount := 1, values := [], cls := none, limbo := none, refuses := false,
          freed := false }
      limbo := fun _ => []
      exception := .nil
      next := 2 }
  base := 0
  sp := 2
  sbase := 1
  pc := 0
  resv := 0
  argv := 0
  argc := 0
  callframe _ := plainFrame 0 0
  cleantab _ := []
  log := []

/-- A function that returns at once. -/
theorem call_restores_return :
    ∃ r, perform (bareEnv fun _ => .«return») (fun _ => .ret Xno.ok) 5 (.call 1) oneArgument =
      some r ∧ Restored oneArgument r.vm :=
  ⟨_, rfl, @call_restores (bareEnv fun _ => .«return») oneArgument (fun _ => .ret Xno.ok) 5 _ 1 rfl rfl
    ⟨by decide, by decide⟩ (.inl rfl) fun pt hpt => by
      rcases List.mem_cons.mp hpt with rfl | hpt
      · exact fun _ h => absurd rfl h
      · cases List.mem_singleton.mp hpt
        exact trivial⟩

/-- A function that throws `true`: its argument is left on the stack of the caller. -/
theorem call_leaves_argument :
    ∃ r, perform (bareEnv fun pc => if pc = 0 then .ldtrue 0 else .throw 0)
        (fun _ => .ret Xno.ok) 7 (.call 1) oneArgument = some r ∧
      r.x = Xno.other ∧ r.vm.base = 0 ∧ r.vm.sbase = 1 ∧ r.vm.sp = 2 ∧
      ¬ Restored oneArgument r.vm :=
  ⟨_, rfl, rfl, rfl, rfl, rfl, fun h => absurd h.sp (by decide)⟩

end Vm

end Eel
