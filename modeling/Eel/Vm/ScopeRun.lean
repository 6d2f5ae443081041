-- SUMMARY: In every run that calls nested functions in scope, ended or not, upvalue accesses reach the frames of the enclosing functions.
import Eel.Vm.Scopes

/-!
# Scopes and runs
-/

namespace Eel

/-- The points that a run passes within `fuel` turns, also when it does not end. -/
@[simp] def passed (E : Env) (C : ObjId → Host) : Nat → Task → Vm → List Point
  | 0, _, _ => []
  | fuel + 1, .loop, vm =>
    .fetch vm ::
      match vm.step E with
      | .next vm' => passed E C fuel .loop vm'
      | .leave _ _ => []
      | .schedule vm' => passed E C fuel .schedule vm'
      | .call fo result levels vm' =>
        passed E C fuel (.callF fo result levels) vm' ++
          (perform E C fuel (.callF fo result levels) vm').elim [] fun r =>
            if r.x = Xno.ok then passed E C fuel .loop r.vm
            else passed E C fuel .schedule (r.vm.throwXno r.x)
  | fuel + 1, .schedule, vm =>
    let (x, vm') := vm.scheduler E.function
    .schedule vm :: if x = Xno.ok then passed E C fuel .loop vm' else []
  | fuel + 1, .run, vm =>
    if vm.base = 0 then []
    else
      passed E C fuel .loop
        { vm with store := { vm.store.disown vm.store.exception with exception := .nil } }
  | fuel + 1, .doRun, vm =>
    passed E C fuel .run vm ++
      (perform E C fuel .run vm).elim [] fun r =>
        match r.x.doRun with
        | none => passed E C fuel .doRun r.vm
        | some _ => []
  | fuel + 1, .callF fo result _, vm =>
    if result.isSome ∧ ¬ (E.function fo).results then []
    else if (E.function fo).cfunc then
      passed E C fuel (.host (C fo)) (vm.enterC fo result) ++
        (perform E C fuel (.host (C fo)) (vm.enterC fo result)).elim [] fun r => [.leaveC r.vm]
    else []
  | _ + 1, .host (.ret _), _ => []
  | fuel + 1, .host (.look k), vm => passed E C fuel (.host (k vm)) vm
  | fuel + 1, .host (.act s k), vm => passed E C fuel (.host k) { vm with store := s }
  | fuel + 1, .host (.argf item k), vm => passed E C fuel (.host k) (vm.argf item)
  | fuel + 1, .host (.call fo k), vm =>
    passed E C fuel (.call fo) vm ++
      (perform E C fuel (.call fo) vm).elim [] fun r => passed E C fuel (.host (k r.x)) r.vm
  | fuel + 1, .call fo, vm =>
    .call fo vm ::
      if ¬ E.callable fo then []
      else if vm.checkArgs E fo ≠ Xno.ok then []
      else
        let result := if vm.store.heap vm.base = .nil then none else some vm.base
        passed E C fuel (.callF fo result 0) vm ++
          (perform E C fuel (.callF fo result 0) vm).elim [] fun r =>
            if r.x = Xno.ok ∧ ¬ (E.function fo).cfunc then passed E C fuel .doRun r.vm else []

/-- The trace of a run that ends. -/
def Traced (l : List Point) (o : Option Result) : Prop := ∀ r, o = some r → r.trace = l

theorem traced_some {r : Result} : Traced r.trace (some r) := fun _ h => by cases h; rfl

theorem Traced.map {l m : List Point} {o : Option Result} {f : Result → Result} (h : Traced l o)
    (hf : ∀ r, (f r).trace = m ++ r.trace) : Traced (m ++ l) (o.map f) := by
  intro r hr
  obtain ⟨r', hr', rfl⟩ := Option.map_eq_some_iff.mp hr
  rw [hf, h r' hr']

theorem Traced.after {l m : List Point} {o : Option Result} (h : Traced l o) :
    Traced (m ++ l) (o.map (.after m)) :=
  h.map fun _ => rfl

theorem Traced.bind {l m : List Point} {o : Option Result} {l' : Result → List Point}
    {k : Result → Option Result} (h : Traced l o)
    (hk : ∀ r, Traced (m ++ (r.trace ++ l' r)) (k r)) :
    Traced (m ++ (l ++ o.elim [] l')) (o.bind k) := by
  intro r hr
  obtain ⟨r', rfl, hr'⟩ := Option.bind_eq_some_iff.mp hr
  rw [← h r' rfl]
  exact hk r' r hr'

/-- A run that ends passes the points of its trace. -/
theorem traced_passed {E : Env} {C : ObjId → Host} {fuel : Nat} {task : Task} {vm : Vm} :
    Traced (passed E C fuel task vm) (perform E C fuel task vm) := by
  induction fuel generalizing task vm with
  | zero =>
    rw [perform_zero]
    exact fun r hr => by cases hr
  | succ fuel ih =>
    cases task with
    | loop =>
      rw [passed, perform]
      generalize vm.step E = st
      cases st with
      | next vm' => exact Traced.after (m := [.fetch vm]) ih
      | leave x vm' => exact traced_some
      | schedule vm' => exact Traced.after (m := [.fetch vm]) ih
      | call fo result levels vm' =>
        refine Traced.bind (m := [.fetch vm]) ih fun r => ?_
        split
        · exact Traced.after (m := .fetch vm :: r.trace) ih
        · exact Traced.after (m := .fetch vm :: r.trace) ih
    | schedule =>
      rw [passed, perform]
      generalize vm.scheduler E.function = sched
      obtain ⟨x, vm'⟩ := sched
      dsimp only
      split
      · exact Traced.after (m := [.schedule vm]) ih
      · exact traced_some
    | run =>
      rw [passed, perform]
      split
      · exact traced_some
      · exact ih
    | doRun =>
      rw [passed, perform]
      refine Traced.bind (m := []) ih fun r => ?_
      cases r.x.doRun with
      | none => exact Traced.after ih
      | some x =>
        rw [List.append_nil]
        exact traced_some
    | callF fo result levels =>
      rw [passed, perform]
      split
      · exact traced_some
      · split
        · rw [Option.map_eq_bind]
          exact Traced.bind (m := []) ih fun r => traced_some
        · exact traced_some
    | host q =>
      cases q with
      | ret x => rw [passed, perform]; exact traced_some
      | look k => rw [passed, perform]; exact ih
      | act s k => rw [passed, perform]; exact ih
      | argf item k => rw [passed, perform]; exact ih
      | call fo k =>
        rw [passed, perform]
        exact Traced.bind (m := []) ih fun r => Traced.after ih
    | call fo =>
      rw [passed, perform]
      split
      · exact traced_some
      · split
        · exact traced_some
        · refine Traced.bind (m := [.call fo vm]) ih fun r => ?_
          refine Traced.map (m := .call fo vm :: r.trace) ?_ fun _ => rfl
          split
          · exact ih
          · exact traced_some

namespace Vm

variable {E : Env} {C : ObjId → Host} {parent : ObjId → Option ObjId} {S : ObjId → Prop}
  {vm vm' : Vm} {fo : ObjId} {result : Option Nat} {levels fuel k : Nat} {r : Result}

/-! ## Steps -/

/-- The functions of `S` are called in scope: from inside the function around them, and not
from C. Those whose links an access needs are in `S`. -/
def CallsInScope (E : Env) (parent : ObjId → Option ObjId) (S : ObjId → Prop) : Point → Prop
  | .fetch vm =>
    let constant a := (vm.constant (vm.fo vm.base) a).obj?.getD 0
    (∀ fo k, (vm.callframe vm.base).f = some fo → (vm.fetch E).uvLevel = some k →
      ∀ j < k, ∀ g, enclosing parent fo j = some g → S g) ∧
    match vm.fetch E with
    | .call a | .callr a _ =>
      ∀ fo, getFunction E (vm.register a) = .ok fo → vm.Called parent S fo 0
    | .ccall a b | .ccallr a _ b => vm.Called parent S (constant b) a
    | .«try» a b => vm.Called parent S (constant b) 0 ∧ vm.Called parent S (constant a) 0
    | .untry a => vm.Called parent S (constant a) 0
    | _ => True
  | .call fo _ => ¬ S fo
  | .schedule _ | .leaveC _ => True

/-- What a step leaves. -/
def StepScoped (parent : ObjId → Option ObjId) (S : ObjId → Prop) : Step → Prop
  | .next vm | .leave _ vm | .schedule vm => vm.Scoped parent S
  | .call fo _ levels vm => vm.Scoped parent S ∧ vm.Called parent S fo levels

theorem Scoped.stackClear (h : vm.Scoped parent S) : vm.stackClear.Scoped parent S :=
  h.within within_stackClear

theorem Scoped.store {s : Store} (h : vm.Scoped parent S) :
    ({ vm with store := s } : Vm).Scoped parent S :=
  h.within within_store

theorem Scoped.popFrame (h : vm.Scoped parent S) : vm.popFrame.Scoped parent S := by
  unfold Vm.popFrame
  refine Scoped.stackClear ?_
  exact h.left rfl rfl rfl (h.linked _ .here).sbase_le

theorem Scoped.stepReturn (h : vm.Scoped parent S) : StepScoped parent S (vm.stepReturn E) := by
  unfold Vm.stepReturn
  dsimp only
  split
  · exact h.popFrame
  · exact h.popFrame

theorem Scoped.stepReturnr {a : Nat} (h : vm.Scoped parent S) :
    StepScoped parent S (vm.stepReturnr E a) := by
  unfold Vm.stepReturnr
  split
  · exact h.stepReturn
  · rename_i ri _
    have hret := Scoped.stepReturn (E := E) (h.store (s := vm.store.copy ri (vm.register a)))
    split
    · rename_i heq
      rw [heq] at hret
      exact Scoped.store hret
    · exact hret

theorem Scoped.stepCall {ref : Value} (h : vm.Scoped parent S)
    (hcall : ∀ fo, getFunction E ref = .ok fo → vm.Called parent S fo 0) :
    StepScoped parent S (vm.stepCall E ref result) := by
  unfold Vm.stepCall
  split
  · exact h.store
  · rename_i fo hfo
    split
    · exact ⟨h, hcall fo hfo⟩
    · exact h.store

theorem Scoped.retry (h : vm.Scoped parent S) : vm.retry.Scoped parent S :=
  h.left rfl rfl rfl (h.linked _ .here).sbase_le

/-- Every instruction keeps the frames linked. -/
theorem step_scoped (h : vm.Scoped parent S) (hcalls : CallsInScope E parent S (.fetch vm)) :
    StepScoped parent S (vm.step E) := by
  obtain ⟨-, hcalls⟩ := hcalls
  have hpc : ({ vm with pc := vm.pc + (vm.fetch E).size } : Vm).Scoped parent S :=
    h.within (.of_eq rfl rfl rfl rfl (Nat.le_refl _))
  unfold step
  generalize vm.fetch E = i at *
  unfold execute
  split
  · exact hpc.stepCall hcalls
  · exact hpc.stepCall hcalls
  · exact ⟨hpc, hcalls⟩
  · exact ⟨hpc, hcalls⟩
  · exact hpc.stepReturn
  · exact hpc.stepReturnr
  · refine hpc.enterBlock hcalls.1 fun fo hfo => ?_
    cases hfo
    exact hcalls.2
  · exact hpc.enterBlock hcalls fun fo hfo => by cases hfo
  · exact hpc.store
  · exact hpc.retry
  · exact hpc.store
  · split
    · exact hpc.store
    · exact hpc.store
  · have hexec := exec_within (E := E) { vm with pc := vm.pc + i.size } i
    split
    · rename_i heq
      rw [heq] at hexec
      exact hpc.within hexec
    · rename_i heq
      rw [heq] at hexec
      exact (hpc.within hexec).store

/-! ## Runs -/

/-- A C function is left. -/
theorem Scoped.leaveC {x : Xno} (h : vm.Scoped parent S) :
    (vm.leaveC E fo result x).Scoped parent S := by
  obtain ⟨cleared, hcleared⟩ : ∃ vm', vm' = if x = Xno.ok then vm else vm.stackClear := ⟨_, rfl⟩
  have hw : Within vm cleared := hcleared ▸ within_ite .refl within_stackClear
  have hback : ({ cleared with
      base := (vm.callframe vm.base).rBase
      sp := (vm.callframe vm.base).rSp
      sbase := (vm.callframe vm.base).rSbase
      log := cleared.log ++ [.dropped vm.base (vm.store.limbo vm.base)] } : Vm).Scoped parent S :=
    h.left hw.callframe rfl rfl (h.linked _ .here).sbase_le
  have hclear := hback.stackClear
  unfold Vm.leaveC
  dsimp only
  rw [← hcleared]
  split
  · split
    · exact hclear.store
    · exact hclear.store
  · exact hclear

/-- What holds before a task is performed. -/
def Task.Called (parent : ObjId → Option ObjId) (S : ObjId → Prop) (vm : Vm) : Task → Prop
  | .callF fo _ levels => vm.Called parent S fo levels
  | _ => True

/-- When functions are called in scope at all points passed, all of these are linked, and so is
what is left in the end. -/
def Keeps (E : Env) (parent : ObjId → Option ObjId) (S : ObjId → Prop) (l : List Point)
    (o : Option Result) : Prop :=
  (∀ pt ∈ l, CallsInScope E parent S pt) →
    (∀ vm, .fetch vm ∈ l → vm.Scoped parent S) ∧ ∀ r, o = some r → r.vm.Scoped parent S

variable {l : List Point} {o : Option Result}

theorem keeps_nil : Keeps E parent S [] none := fun _ =>
  ⟨fun _ h => absurd h List.not_mem_nil, fun _ h => by cases h⟩

theorem keeps_done (h : r.vm.Scoped parent S) : Keeps E parent S [] (some r) := fun _ =>
  ⟨fun _ h => absurd h List.not_mem_nil, fun _ hr => by cases hr; exact h⟩

theorem Keeps.map {f : Result → Result} (h : Keeps E parent S l o)
    (hf : ∀ r, r.vm.Scoped parent S → (f r).vm.Scoped parent S) : Keeps E parent S l (o.map f) := by
  intro hok
  obtain ⟨hpts, hend⟩ := h hok
  refine ⟨hpts, fun r hr => ?_⟩
  obtain ⟨r', hr', rfl⟩ := Option.map_eq_some_iff.mp hr
  exact hf r' (hend r' hr')

theorem Keeps.after {trace : List Point} (h : Keeps E parent S l o) :
    Keeps E parent S l (o.map (.after trace)) :=
  h.map fun _ h => h

theorem Keeps.cons {pt : Point}
    (h : CallsInScope E parent S pt →
      (∀ vm, pt = .fetch vm → vm.Scoped parent S) ∧ Keeps E parent S l o) :
    Keeps E parent S (pt :: l) o := by
  intro hok
  obtain ⟨hpt, hl⟩ := h (hok pt List.mem_cons_self)
  obtain ⟨hpts, hend⟩ := hl fun pt' hpt' => hok pt' (List.mem_cons_of_mem _ hpt')
  refine ⟨fun vm hvm => ?_, hend⟩
  rcases List.mem_cons.mp hvm with rfl | hvm
  · exact hpt vm rfl
  · exact hpts vm hvm

/-- One run after another. -/
theorem Keeps.bind {l' : Result → List Point} {k : Result → Option Result}
    (h : Keeps E parent S l o)
    (hk : ∀ r, r.vm.Scoped parent S → Keeps E parent S (l' r) (k r)) :
    Keeps E parent S (l ++ o.elim [] l') (o.bind k) := by
  intro hok
  obtain ⟨hpts, hend⟩ := h fun pt hpt => hok pt (List.mem_append_left _ hpt)
  cases o with
  | none =>
    refine ⟨fun vm hvm => ?_, fun r hr => by cases hr⟩
    rcases List.mem_append.mp hvm with hvm | hvm
    · exact hpts vm hvm
    · cases hvm
  | some r =>
    obtain ⟨hpts', hend'⟩ := hk r (hend r rfl) fun pt hpt => hok pt (List.mem_append_right _ hpt)
    refine ⟨fun vm hvm => ?_, hend'⟩
    rcases List.mem_append.mp hvm with hvm | hvm
    · exact hpts vm hvm
    · exact hpts' vm hvm

/-- Whatever is performed within `fuel` turns. -/
def AllKeep (E : Env) (C : ObjId → Host) (parent : ObjId → Option ObjId) (S : ObjId → Prop)
    (fuel : Nat) : Prop :=
  ∀ task vm, vm.Scoped parent S → Task.Called parent S vm task →
    Keeps E parent S (passed E C fuel task vm) (perform E C fuel task vm)

theorem AllKeep.loop (ih : AllKeep E C parent S fuel) (h : vm.Scoped parent S) :
    Keeps E parent S (passed E C (fuel + 1) .loop vm) (perform E C (fuel + 1) .loop vm) := by
  rw [passed, perform]
  refine .cons fun hcalls => ⟨fun vm' hvm => by cases hvm; exact h, ?_⟩
  have hstep := step_scoped h hcalls
  generalize vm.step E = st at hstep
  cases st with
  | next vm' => exact (ih .loop vm' hstep trivial).after
  | leave x vm' => exact keeps_done hstep
  | schedule vm' => exact (ih .schedule vm' hstep trivial).after
  | call fo result levels vm' =>
    refine (ih (.callF fo result levels) vm' hstep.1 hstep.2).bind fun r hr => ?_
    split
    · exact (ih .loop _ hr trivial).after
    · exact (ih .schedule _ hr.store trivial).after

theorem AllKeep.schedule (ih : AllKeep E C parent S fuel) (h : vm.Scoped parent S) :
    Keeps E parent S (passed E C (fuel + 1) .schedule vm) (perform E C (fuel + 1) .schedule vm) := by
  rw [passed, perform]
  have hsched := h.scheduler (F := E.function)
  generalize vm.scheduler E.function = sched at hsched
  obtain ⟨x, vm'⟩ := sched
  dsimp only
  refine .cons fun _ => ⟨fun _ hvm => (by cases hvm), ?_⟩
  split
  · exact (ih .loop _ hsched trivial).after
  · exact keeps_done hsched

theorem AllKeep.doRun (ih : AllKeep E C parent S fuel) (h : vm.Scoped parent S) :
    Keeps E parent S (passed E C (fuel + 1) .doRun vm) (perform E C (fuel + 1) .doRun vm) := by
  rw [passed, perform]
  refine (ih .run vm h trivial).bind fun r hr => ?_
  cases r.x.doRun with
  | none => exact (ih .doRun _ hr trivial).after
  | some x => exact keeps_done hr

theorem AllKeep.callF (hS : ∀ fo, S fo → (E.function fo).cfunc = false)
    (ih : AllKeep E C parent S fuel) (h : vm.Scoped parent S)
    (hcall : vm.Called parent S fo levels) :
    Keeps E parent S (passed E C (fuel + 1) (.callF fo result levels) vm)
      (perform E C (fuel + 1) (.callF fo result levels) vm) := by
  rw [passed, perform]
  split
  · exact keeps_done h
  · split
    · rename_i hfo
      have hno : ¬ S fo := fun hs => by
        rw [hS fo hs] at hfo
        cases hfo
      rw [Option.map_eq_bind]
      refine (ih (.host (C fo)) _ (h.enterC hno) trivial).bind fun r hr => ?_
      exact .cons fun _ => ⟨fun _ hvm => (by cases hvm), keeps_done hr.leaveC⟩
    · exact keeps_done (h.callEel hcall)

theorem AllKeep.host {q : Host} (ih : AllKeep E C parent S fuel) (h : vm.Scoped parent S) :
    Keeps E parent S (passed E C (fuel + 1) (.host q) vm) (perform E C (fuel + 1) (.host q) vm) := by
  cases q with
  | ret x =>
    rw [passed, perform]
    exact keeps_done h
  | look k =>
    rw [passed, perform]
    exact ih _ _ h trivial
  | act s k =>
    rw [passed, perform]
    exact ih _ _ h.store trivial
  | argf item k =>
    rw [passed, perform]
    exact ih _ _ (h.within (within_argf item)) trivial
  | call fo k =>
    rw [passed, perform]
    refine (ih (.call fo) _ h trivial).bind fun r hr => ?_
    exact (ih (.host (k r.x)) _ hr trivial).after

theorem AllKeep.call (ih : AllKeep E C parent S fuel) (h : vm.Scoped parent S) :
    Keeps E parent S (passed E C (fuel + 1) (.call fo) vm) (perform E C (fuel + 1) (.call fo) vm) := by
  rw [passed, perform]
  refine .cons fun hno => ⟨fun _ hvm => (by cases hvm), ?_⟩
  split
  · exact keeps_done h
  · split
    · exact keeps_done (h.within (within_argf .reset))
    · refine (ih (.callF fo _ 0) vm h fun hs => absurd hs hno).bind fun r hr => ?_
      refine Keeps.map ?_ fun r' hr' => hr'.within (.of_eq rfl rfl rfl rfl (Nat.le_refl _))
      split
      · exact ih .doRun _ hr trivial
      · exact keeps_done hr

/-- Whatever is performed from a linked state keeps it linked, while functions are called in
scope. -/
theorem allKeep (hS : ∀ fo, S fo → (E.function fo).cfunc = false) (fuel : Nat) :
    AllKeep E C parent S fuel := by
  induction fuel with
  | zero =>
    intro task vm _ _
    rw [passed, perform_zero]
    exact keeps_nil
  | succ fuel ih =>
    intro task vm h hcall
    cases task with
    | loop => exact ih.loop h
    | schedule => exact ih.schedule h
    | run =>
      rw [passed, perform]
      split
      · exact keeps_done h
      · exact ih .loop _ h.store trivial
    | doRun => exact ih.doRun h
    | callF fo result levels => exact ih.callF hS h hcall
    | host q => exact ih.host h
    | call fo => exact ih.call h

/-! ## Upvalues -/

/-- The frame `k` links up is on the stack, an activation of the function around the one that
runs, and the one in whose scope that was called. -/
def ReachesScope (parent : ObjId → Option ObjId) (vm : Vm) (k : Nat) : Prop :=
  ∀ fo p, (vm.callframe vm.base).f = some fo → enclosing parent fo k = some p →
    Encloses vm.callframe vm.base (vm.uvBase k) ∧ (vm.callframe (vm.uvBase k)).f = some p ∧
      (0 < k → ∃ caller j, (vm.callframe (vm.callframe vm.base).rBase).f = some caller ∧
        enclosing parent caller j = some p ∧
        vm.uvBase k = uvFrom vm.callframe (vm.callframe vm.base).rBase j)

theorem Scoped.reachesScope (h : vm.Scoped parent S)
    (hS : ∀ fo, (vm.callframe vm.base).f = some fo →
      ∀ j < k, ∀ g, enclosing parent fo j = some g → S g) : ReachesScope parent vm k := by
  intro fo p hfo hp
  rw [uvBase_eq]
  obtain ⟨henc, hrun⟩ := h.linked.reaches hfo (hS fo hfo) hp
  refine ⟨henc, hrun, fun hk => ?_⟩
  obtain ⟨k, rfl⟩ := Nat.exists_eq_succ_of_ne_zero (Nat.ne_of_gt hk)
  obtain ⟨p', caller, j, hparent, hcaller, hj, hlink, -⟩ :=
    (h.linked _ .here).link fo hfo (hS fo hfo 0 hk fo rfl)
  rw [Nat.succ_eq_add_one, Nat.add_comm, enclosing_add] at hp
  have hp : enclosing parent p' k = some p := by
    change (parent fo).bind _ = _ at hp
    rw [hparent] at hp
    exact hp
  refine ⟨caller, j + k, hcaller, ?_, ?_⟩
  · rw [enclosing_add, hj]
    exact hp
  · rw [Nat.succ_eq_add_one, Nat.add_comm, uvFrom_add, uvFrom_add, ← hlink]
    rfl

/-- Every instruction that accesses an upvalue reaches the right frame, in every run whose
steps call functions in scope. -/
theorem passed_reachesScope (hS : ∀ fo, S fo → (E.function fo).cfunc = false) {task : Task}
    (h : vm.Scoped parent S) (hcall : Task.Called parent S vm task)
    (hok : ∀ pt ∈ passed E C fuel task vm, CallsInScope E parent S pt) :
    ∀ vm', .fetch vm' ∈ passed E C fuel task vm →
      ∀ k, (vm'.fetch E).uvLevel = some k → ReachesScope parent vm' k := by
  intro vm' hvm' k hk
  have hlinked := (allKeep hS fuel task vm h hcall hok).1 vm' hvm'
  exact hlinked.reachesScope fun fo hfo => (hok _ hvm').1 fo k hfo hk

/-! ## The levels of direct calls -/

/-- The level that `call` gives `CCALL` and `CCALLR`. `EEL_FF_UPVALUES` is set for a function as
soon as an access to an upvalue has been compiled in it. -/
def callLevel (upvalues : Bool) (caller callee : Nat) : Nat :=
  if upvalues then caller + 1 - callee else 0

theorem enclosing_depth {depth : ObjId → Nat} (hdepth : ∀ f p, parent f = some p → depth f = depth p + 1)
    {p : ObjId} (h : enclosing parent fo k = some p) : depth fo = depth p + k := by
  induction k generalizing p with
  | zero =>
    cases h
    rfl
  | succ k ih =>
    obtain ⟨g, hg, hp⟩ := Option.bind_eq_some_iff.mp h
    rw [ih hg, hdepth g p hp]
    omega

/-- A direct call is in scope when the callee is known to use upvalues, or if the function
around it makes the call. -/
theorem enclosing_callLevel_iff {depth : ObjId → Nat}
    (hdepth : ∀ f p, parent f = some p → depth f = depth p + 1) {p caller : ObjId} {j : Nat}
    {upvalues : Bool} (hparent : parent fo = some p) (hvisible : enclosing parent caller j = some p) :
    enclosing parent caller (callLevel upvalues (depth caller) (depth fo)) = some p ↔
      upvalues = true ∨ caller = p := by
  have hcaller := enclosing_depth hdepth hvisible
  have hcallee := hdepth fo p hparent
  have hlevel : depth caller + 1 - depth fo = j := by omega
  unfold callLevel
  rw [hlevel]
  cases upvalues with
  | true => exact iff_of_true hvisible (.inl rfl)
  | false =>
    change some caller = some p ↔ _
    constructor
    · intro h
      exact .inr (Option.some.inj h)
    · rintro (h | rfl)
      · cases h
      · rfl

/-! ### A nested function -/

/-- Function 2 is nested in function 1. -/
def nested (fo : ObjId) : Option ObjId := if fo = 2 then some 1 else none

/-- Function 2 gets a variable of the function around it. -/
def nestedEnv (code : ObjId → Nat → Instr) : Env :=
  { bareEnv fun _ => .nop with
    code := fun fo pc => if fo = 2 then .getuval 0 0 1 else code fo pc }

/-- The host is about to call function 1, which has functions 2 and 3 as constants. -/
def beforeNested : Vm where
  store :=
    { heap := fun _ => .nil
      object := fun o =>
        { refcount := 1, values := if o = 1 then [.objref 2, .objref 3] else [], cls := none
          limbo := none, refuses := false, freed := false }
      limbo := fun _ => []
      exception := .nil
      next := 4 }
  base := 0
  sp := 1
  sbase := 1
  pc := 0
  resv := 0
  argv := 0
  argc := 0
  callframe _ := plainFrame 0 0
  cleantab _ := []
  log := []

theorem beforeNested_scoped {S : ObjId → Prop} (hS : ¬ S 0) : beforeNested.Scoped nested S where
  ordered := ⟨by decide, by decide⟩
  linked := by
    intro t ht
    have hzero : t = 0 := by
      cases ht with
      | here => rfl
      | outer h => exact absurd rfl h
    subst hzero
    refine ⟨by decide, by decide, .inl ⟨rfl, rfl⟩, fun fo hfo hs => ?_, fun fo hfo => by cases hfo⟩
    cases hfo
    exact absurd hs hS

/-- Function 1 calls function 2 itself. -/
theorem passed_reachesScope_direct :
    ∃ vm, .fetch vm ∈ passed (nestedEnv fun _ _ => .ccall 0 0) (fun _ => .ret Xno.ok) 5 (.call 1)
        beforeNested ∧
      (vm.fetch (nestedEnv fun _ _ => .ccall 0 0)).uvLevel = some 1 ∧ ReachesScope nested vm 1 := by
  have hmem := @List.mem_of_getElem? _ (passed (nestedEnv fun _ _ => .ccall 0 0)
    (fun _ => .ret Xno.ok) 5 (.call 1) beforeNested) 2 _ rfl
  refine ⟨_, hmem, rfl, ?_⟩
  have hcalled : Task.Called nested (· = 2) beforeNested (.call 1) := trivial
  refine passed_reachesScope (fun _ _ => rfl) (beforeNested_scoped (by decide)) hcalled
    (fun pt hpt => ?_) _ hmem 1 rfl
  rcases List.mem_cons.mp hpt with rfl | hpt
  · exact (by decide : (1 : Nat) ≠ 2)
  · rcases List.mem_cons.mp hpt with rfl | hpt
    · refine ⟨fun fo k _ hk => (by cases hk), fun _ => ?_⟩
      exact ⟨1, 1, rfl, rfl, rfl, fun j hj => absurd hj (Nat.not_lt_zero j)⟩
    · cases List.mem_singleton.mp hpt
      refine ⟨fun fo k hfo hk j hj g hg => ?_, trivial⟩
      cases hk
      cases Nat.lt_one_iff.mp hj
      cases hfo
      cases hg
      rfl

/-- Function 1 passes function 2 to function 3, which calls it. -/
theorem not_reachesScope_callback :
    ∃ vm, .fetch vm ∈ passed (nestedEnv fun fo pc =>
        if fo = 3 then (if pc = 0 then .getargi 0 0 else .call 0)
        else if pc = 0 then .pushc 0 else .ccall 0 1) (fun _ => .ret Xno.ok) 9 (.call 1)
        beforeNested ∧
      vm.fetch (nestedEnv fun _ _ => .nop) = .getuval 0 0 1 ∧
      (vm.callframe vm.base).f = some 2 ∧ (vm.callframe (vm.uvBase 1)).f = some 3 ∧
      ¬ ReachesScope nested vm 1 := by
  refine ⟨_, List.mem_of_getElem? (i := 5) rfl, rfl, rfl, rfl, fun h => ?_⟩
  exact absurd (h 2 1 rfl rfl).2.1 (by decide)

end Vm

end Eel
