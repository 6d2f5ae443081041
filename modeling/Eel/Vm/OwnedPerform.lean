-- SUMMARY: Whole runs keep ownership exact, through calls, exceptions and C functions, and what eel_call hands to its C caller is owned once.
import Eel.Vm.OwnedCall

/-!
# Owners and runs
-/

namespace Eel

namespace Vm

variable {E : Env} {L : List ObjId} {vm vm' : Vm} {c s p a b t n : Nat} {bs : List Nat}
  {v : Value} {fo : ObjId} {x : Xno} {result : Option Nat} {levels fuel : Nat} {r : Result}
  {C : ObjId → Host}

theorem Advance.inC {F : ObjId → Function} {bs' : List Nat} (h : Advance F c s p vm bs vm' bs')
    (hopen : Open F vm.callframe c s p vm.base bs) (hc : InC F vm.callframe c) :
    InC F vm'.callframe c := by
  unfold InC
  rw [h.frames c (Nat.le_trans hopen.order.1 hopen.order.2.1)]
  exact hc

/-! ## Steps of the VM loop -/

/-- What keeps ownership exact when the next instruction is executed. What is raised by
another instruction than `RETXR` is not taken for a return with a result. -/
def StepAllows (E : Env) (L : List ObjId) (vm : Vm) : Prop :=
  match vm.fetch E with
  | .retxr a => vm.Returns E vm.returnBase (vm.register a)
  | i =>
    vm.Allows E L i ∧ (∀ vm', vm.step E = .schedule vm' → vm'.inFlight E = .nil) ∧
      ∀ fo ri levels vm', vm.step E = .call fo (some ri) levels vm' → ri < vm'.sbase

/-- The points after which ownership is exact. Results of C functions go to temporaries of EEL
code, or C code called them and they are no objects. -/
def Accounted (E : Env) : Point → Prop
  | .fetch vm => ∀ L, vm.Owned E false L → StepAllows E L vm
  | .schedule vm =>
    ∀ b fo, vm.findCatcher E.function (exceptionXno vm.store.exception) vm.base vm.base =
      (b, some fo) → 0 < (E.function fo).framesize
  | .call _ _ => True
  | .leaveC vm =>
    ∀ ri, (vm.callframe vm.base).result = some ri → ri ≠ vm.base → vm.Receives E ri

/-- The state that a step leaves, and what is in flight there. -/
def StepOwned (E : Env) (L : List ObjId) : Step → Prop
  | .next vm | .leave _ vm => vm.Owned E false L
  | .schedule vm =>
    vm.Owned E false ((vm.inFlight E).strong?.toList ++ L) ∧
      (vm.inFlight E).obj? = (vm.inFlight E).strong?
  | .call _ result _ vm => vm.Owned E false L ∧ ∀ ri, result = some ri → ri < vm.sbase

theorem Owned.pc {pc : Nat} (h : vm.Owned E false L) : ({ vm with pc := pc } : Vm).Owned E false L :=
  ⟨⟨h.stacked.formed, h.stacked.above⟩, h.tidy⟩

theorem returnBase_congr (hframe : vm'.callframe = vm.callframe) (hbase : vm'.base = vm.base) :
    vm'.returnBase = vm.returnBase := by
  have hsame : ∀ n b, vm'.returningFrame b n = vm.returningFrame b n := by
    intro n
    induction n with
    | zero => exact fun _ => rfl
    | succ n ih =>
      intro b
      unfold returningFrame
      dsimp only
      rw [hframe, ih]
  unfold returnBase
  rw [hsame, hframe, hbase]

theorem inFlight_return : (vm.throwXno Xno.return).inFlight E =
    if InC E.function vm.callframe vm.returnBase then .nil
    else
      match (vm.callframe vm.base).result with
      | none => .nil
      | some ri => (vm.throwXno Xno.return).store.heap ri := by
  have hret : (vm.throwXno Xno.return).returnBase = vm.returnBase := returnBase_congr rfl rfl
  have hxno : exceptionXno (vm.throwXno Xno.return).store.exception = Xno.return := rfl
  unfold inFlight
  rw [hret]
  by_cases hC : InC E.function vm.callframe vm.returnBase
  · rw [if_pos hC]
    exact if_neg fun hcond => hcond.2 hC
  · rw [if_neg hC]
    exact if_pos ⟨hxno, hC⟩

/-- `RETXR`: the result is in flight, unless C code gets it. -/
theorem Owned.retxr (h : vm.Owned E false L) (hv : vm.Returns E vm.returnBase (vm.register a)) :
    StepOwned E L (vm.execute E (.retxr a)) := by
  obtain ⟨hlive, hweak, hresult⟩ := hv
  unfold execute
  dsimp only
  split
  · rename_i hnone
    have hnil : (vm.throwXno Xno.return).inFlight E = .nil := by
      rw [inFlight_return, hnone]
      split <;> rfl
    change Vm.Owned _ _ _ _ ∧ _
    rw [hnil]
    exact ⟨h.throwXno, rfl⟩
  · rename_i ri hri
    obtain ⟨hhost, heel⟩ := hresult ri hri
    obtain ⟨vm₁, hvm₁⟩ : ∃ vm₁, vm₁ = ({ vm with store := vm.store.copy ri (vm.register a) } : Vm) :=
      ⟨_, rfl⟩
    have hret : vm₁.returnBase = vm.returnBase := by
      rw [hvm₁]
      exact returnBase_congr rfl rfl
    have hframe : vm₁.callframe = vm.callframe := by rw [hvm₁]
    have hri₁ : (vm₁.callframe vm₁.base).result = some ri := by
      rw [hvm₁]
      exact hri
    rw [← hvm₁]
    change Vm.Owned _ _ _ _ ∧ _
    rw [inFlight_return, hret, hframe]
    by_cases hC : InC E.function vm.callframe vm.returnBase
    · have hhost := hhost hC
      rw [if_pos hC]
      exact ⟨Owned.throwXno (hvm₁ ▸ h.copyHost hlive hhost.1 hhost.2), rfl⟩
    · have hheap : (vm₁.throwXno Xno.return).store.heap ri = (vm.register a).copy := by
        have hfades := (Store.fades_disown (s := vm₁.store) (v := vm₁.store.exception)).heap ri
        have hcopy : vm₁.store.heap ri = (vm.register a).copy := by
          rw [hvm₁]
          exact Store.copy_self
        rw [hcopy] at hfades
        exact faded_eq_of_obj? hfades (copy_obj? hweak)
      rw [if_neg hC, ← hframe, hri₁]
      dsimp only
      rw [hheap]
      exact ⟨Owned.throwXno (hvm₁ ▸ h.copyResult hlive (heel hC)), copy_obj? hweak⟩

theorem step_owned (hE : E.Counts) (h : vm.Owned E false L) (hrun : InEel E vm)
    (ha : StepAllows E L vm) : StepOwned E L (vm.step E) := by
  unfold StepAllows at ha
  have hother : vm.Allows E L (vm.fetch E) ∧
      (∀ vm', vm.step E = .schedule vm' → vm'.inFlight E = .nil) ∧
      (∀ fo ri levels vm', vm.step E = .call fo (some ri) levels vm' → ri < vm'.sbase) →
      StepOwned E L (vm.step E) := by
    rintro ⟨hi, hraise, hcall⟩
    have hexec := execute_owned hE (@Owned.pc _ _ _ (vm.pc + (vm.fetch E).size) h) hrun (allows_pc.mpr hi)
    unfold step at hraise hcall ⊢
    generalize ({ vm with pc := vm.pc + (vm.fetch E).size } : Vm).execute E (vm.fetch E) = st at *
    cases st with
    | next vm' => exact hexec
    | leave x vm' => exact hexec
    | schedule vm' =>
      change Vm.Owned _ _ _ _ ∧ _
      rw [hraise vm' rfl]
      exact ⟨hexec, rfl⟩
    | call fo result levels vm' => exact ⟨hexec, fun ri hri => hcall fo ri levels vm' (hri ▸ rfl)⟩
  split at ha
  · rename_i a hfetch
    have hret : ({ vm with pc := vm.pc + (vm.fetch E).size } : Vm).returnBase = vm.returnBase :=
      returnBase_congr rfl rfl
    unfold step
    rw [hfetch] at hret ⊢
    refine Owned.retxr h.pc ?_
    rw [hret]
    exact ha
  · exact hother ha

/-! ## Runs -/

/-- What each task leaves, when the points it passes are accounted for. -/
def Accounts (E : Env) (task : Task) (vm : Vm) (r : Result) : Prop :=
  match task with
  | .loop | .run | .doRun =>
    ∀ c s p bs L, Open E.function vm.callframe c s p vm.base bs → vm.Ordered →
      InC E.function vm.callframe c → vm.Owned E false L → r.vm.Owned E false L
  | .schedule =>
    ∀ c s p bs L, Open E.function vm.callframe c s p vm.base bs → vm.Ordered →
      InC E.function vm.callframe c →
      vm.Owned E false ((vm.inFlight E).strong?.toList ++ L) →
      (vm.inFlight E).obj? = (vm.inFlight E).strong? → r.vm.Owned E false L
  | .callF _ result _ =>
    ∀ L, vm.Ordered → vm.Owned E false L → (∀ ri, result = some ri → ri ≤ vm.sbase) →
      r.vm.Owned E false L ∧ r.x ≠ Xno.return
  | .host p =>
    ∀ Done L, vm.Ordered → InC E.function vm.callframe vm.base → vm.Owned E false L →
      p.Counts E Done vm L → Done r.x r.vm
  | .call _ =>
    ∀ L, vm.Ordered → InC E.function vm.callframe vm.base → vm.Owned E false L →
      (r.x ≠ Xno.ok → (vm.store.heap vm.base).strong? = none) → r.vm.Owned E false L

/-- Whatever is performed within `fuel` turns is accounted for. -/
def AllAccount (E : Env) (C : ObjId → Host) (fuel : Nat) : Prop :=
  ∀ task vm r, perform E C fuel task vm = some r →
    (∀ pt ∈ r.trace, Orderly E pt ∧ Accounted E pt) → Accounts E task vm r

/-- The VM loop or the scheduler, from where it has advanced to. -/
theorem AllAccount.loop_of_advance {bs' : List Nat} (ih : AllAccount E C fuel)
    (hr : perform E C fuel .loop vm' = some r)
    (hok : ∀ pt ∈ r.trace, Orderly E pt ∧ Accounted E pt)
    (hadv : Advance E.function c s p vm bs vm' bs')
    (hopen : Open E.function vm.callframe c s p vm.base bs) (hc : InC E.function vm.callframe c)
    (h : vm'.Owned E false L) : r.vm.Owned E false L :=
  ih .loop vm' r hr hok c s p bs' L hadv.opened hadv.ordered (hadv.inC hopen hc) h

theorem AllAccount.schedule_of_advance {bs' : List Nat} (ih : AllAccount E C fuel)
    (hr : perform E C fuel .schedule vm' = some r)
    (hok : ∀ pt ∈ r.trace, Orderly E pt ∧ Accounted E pt)
    (hadv : Advance E.function c s p vm bs vm' bs')
    (hopen : Open E.function vm.callframe c s p vm.base bs) (hc : InC E.function vm.callframe c)
    (h : StepOwned E L (.schedule vm')) : r.vm.Owned E false L :=
  ih .schedule vm' r hr hok c s p bs' L hadv.opened hadv.ordered (hadv.inC hopen hc) h.1 h.2

theorem AllAccount.loop (hE : E.Counts) (ih : AllAccount E C fuel)
    (hr : perform E C (fuel + 1) .loop vm = some r)
    (hok : ∀ pt ∈ r.trace, Orderly E pt ∧ Accounted E pt) : Accounts E .loop vm r := by
  intro c s p bs L hopen hord hc h
  rw [perform] at hr
  have hstep : Orderly E (.fetch vm) ∧ Accounted E (.fetch vm) →
      StepOpen E c s p vm bs (vm.step E) ∧ StepOwned E L (vm.step E) := fun hpt =>
    ⟨step_open hopen hord hc hpt.1, step_owned hE h (Placed.inEel hopen.placed) (hpt.2 L h)⟩
  split at hr <;> rename_i hst <;> rw [hst] at hstep
  · obtain ⟨r', hr', -, hvm, htrace⟩ := after_spec hr
    rw [htrace] at hok
    obtain ⟨⟨bs', hadv⟩, hown⟩ := hstep (hok _ List.mem_cons_self)
    rw [hvm]
    exact ih.loop_of_advance hr' (fun pt h => hok pt (List.mem_cons_of_mem _ h)) hadv hopen hc hown
  · cases hr
    exact (hstep (hok _ List.mem_cons_self)).2
  · obtain ⟨r', hr', -, hvm, htrace⟩ := after_spec hr
    rw [htrace] at hok
    obtain ⟨hadv, hown⟩ := hstep (hok _ List.mem_cons_self)
    rw [hvm]
    exact ih.schedule_of_advance hr' (fun pt h => hok pt (List.mem_cons_of_mem _ h)) hadv hopen hc hown
  · obtain ⟨r₁, hr₁, hrest⟩ := Option.bind_eq_some_iff.mp hr
    have hcalled : (∀ pt ∈ Point.fetch vm :: r₁.trace, Orderly E pt ∧ Accounted E pt) →
        (∃ bs', Advance E.function c s p vm bs r₁.vm bs') ∧ r₁.vm.Owned E false L ∧
          r₁.x ≠ Xno.return := fun hpt => by
      obtain ⟨hadv, hown, hslot⟩ := hstep (hpt _ List.mem_cons_self)
      have hrest := fun pt h => hpt pt (List.mem_cons_of_mem (Point.fetch vm) h)
      obtain ⟨bs', hadv'⟩ := callF_advance (performs _ _ _ _ hr₁ fun pt h => (hrest pt h).1)
        hadv.opened hadv.ordered
      exact ⟨⟨bs', hadv.trans hadv'⟩, ih _ _ _ hr₁ hrest L hadv.ordered hown fun ri hri =>
        Nat.le_of_lt (hslot ri hri)⟩
    split at hrest
    · obtain ⟨r', hr', -, hvm, htrace⟩ := after_spec hrest
      rw [htrace] at hok
      obtain ⟨⟨bs', hadv⟩, hown, -⟩ := hcalled fun pt h => hok pt (List.mem_append_left _ h)
      rw [hvm]
      exact ih.loop_of_advance hr' (fun pt h => hok pt (List.mem_append_right _ h)) hadv hopen hc hown
    · obtain ⟨r', hr', -, hvm, htrace⟩ := after_spec hrest
      rw [htrace] at hok
      obtain ⟨⟨bs', hadv⟩, hown, hx⟩ := hcalled fun pt h => hok pt (List.mem_append_left _ h)
      have hnil : (r₁.vm.throwXno r₁.x).inFlight E = .nil := if_neg fun hcond => hx hcond.1
      rw [hvm]
      refine ih.schedule_of_advance hr' (fun pt h => hok pt (List.mem_append_right _ h))
        (hadv.trans (within_store.advance hadv.opened hadv.ordered)) hopen hc ?_
      change Vm.Owned _ _ _ _ ∧ _
      rw [hnil]
      exact ⟨hown.throwXno, rfl⟩

theorem AllAccount.schedule (ih : AllAccount E C fuel)
    (hr : perform E C (fuel + 1) .schedule vm = some r)
    (hok : ∀ pt ∈ r.trace, Orderly E pt ∧ Accounted E pt) : Accounts E .schedule vm r := by
  intro c s p bs L hopen hord hc h hv
  rw [perform] at hr
  have hsched : Orderly E (.schedule vm) ∧ Accounted E (.schedule vm) → _ := fun hpt =>
    And.intro (scheduler_open hopen hc hord hpt.1.1 hpt.1.2) (h.scheduler hv hopen hc hpt.2)
  generalize vm.scheduler E.function = sched at hr hsched
  obtain ⟨x, vm'⟩ := sched
  dsimp only at hr hsched
  split at hr
  · rename_i hxok
    obtain ⟨r', hr', -, hvm, htrace⟩ := after_spec hr
    rw [htrace] at hok
    rcases hsched (hok _ List.mem_cons_self) with ⟨⟨-, bs', hadv⟩ | ⟨hne, -⟩, hown⟩
    · rw [hvm]
      exact ih.loop_of_advance hr' (fun pt h => hok pt (List.mem_cons_of_mem _ h)) hadv hopen hc hown
    · exact absurd hxok hne
  · cases hr
    exact (hsched (hok _ List.mem_cons_self)).2

theorem AllAccount.run (ih : AllAccount E C fuel) (hr : perform E C (fuel + 1) .run vm = some r)
    (hok : ∀ pt ∈ r.trace, Orderly E pt ∧ Accounted E pt) : Accounts E .run vm r := by
  intro c s p bs L hopen hord hc h
  rw [perform, if_neg hopen.placed.runs.1] at hr
  have hclear := h.store (h.tidy.setException (v := .nil) Store.anchored_empty fun _ ho => absurd ho (Option.some_ne_none _).symm)
  exact ih.loop_of_advance hr hok (within_store.advance hopen hord) hopen hc hclear

theorem AllAccount.doRun (ih : AllAccount E C fuel)
    (hr : perform E C (fuel + 1) .doRun vm = some r)
    (hok : ∀ pt ∈ r.trace, Orderly E pt ∧ Accounted E pt) : Accounts E .doRun vm r := by
  intro c s p bs L hopen hord hc h
  rw [perform] at hr
  obtain ⟨r₁, hr₁, hrest⟩ := Option.bind_eq_some_iff.mp hr
  split at hrest
  · rename_i hnone
    obtain ⟨r', -, -, -, htrace⟩ := after_spec hrest
    rw [htrace] at hok
    have hrun := performs (C := C) _ .run vm r₁ hr₁
      (fun pt h => (hok pt (List.mem_append_left _ h)).1) c s p bs hopen hord hc
    obtain ⟨-, hok', hyield⟩ := hrun
    unfold Xno.doRun at hnone
    rw [if_neg (not_or.mpr ⟨hok', hyield⟩)] at hnone
    split at hnone <;> cases hnone
  · cases hrest
    exact ih .run vm r₁ hr₁ hok c s p bs L hopen hord hc h

theorem inC_congr {F : ObjId → Function} {frames frames' : Nat → Callframe}
    (h : frames' c = frames c) : InC F frames' c ↔ InC F frames c := by
  unfold InC
  rw [h]

/-- The frame of the caller is as it was. -/
theorem Returned.caller {entered : Vm} (h : Returned entered vm') (hord : vm.Ordered)
    (hp : Pushed vm entered) : vm'.callframe vm.base = vm.callframe vm.base := by
  have hlt : vm.base < entered.base :=
    Nat.lt_of_le_of_lt (Nat.le_trans hord.base_le hord.sbase_le) hp.above
  rw [h.frames _ (Nat.le_trans (Nat.le_of_lt hlt) hp.ordered.base_le), hp.frames _ (Nat.ne_of_lt hlt)]

/-- A C function that has been entered and has done what it does. -/
theorem leaving_of_returned (hord : vm.Ordered) (hfo : (E.function fo).cfunc = true)
    (hslot : ∀ ri, result = some ri → ri ≤ vm.sbase)
    (hret : Returned (vm.enterC fo result) vm') :
    Leaving E fo result vm' ∧ (vm'.callframe vm'.base).rBase = vm.base := by
  obtain ⟨hp, hf⟩ := enterC_pushed vm fo result
  have hres : ((vm.enterC fo result).callframe (vm.enterC fo result).base).result =
      some (result.getD (vm.enterC fo result).base) := by
    simp [Vm.enterC, modifyFrame]
  generalize vm.enterC fo result = entered at hp hf hres hret
  have hframe : vm'.callframe vm'.base = entered.callframe entered.base := by
    rw [hret.base]
    exact hret.frames _ hp.ordered.base_le
  have hbase : (vm'.callframe vm'.base).rBase = vm.base := by
    rw [hframe]
    exact hp.base
  have hle := Nat.le_trans hord.base_le hord.sbase_le
  refine ⟨⟨.inr ?_, ?_, ?_, fun ri hri => ?_⟩, hbase⟩
  · unfold Callframe.isCFunc
    rw [hframe, hf]
    exact hfo
  · rw [hbase, hret.base]
    exact Nat.lt_of_le_of_lt hle hp.above
  · rw [hframe, hres, hret.base]
  · rw [hret.base]
    exact Nat.lt_of_le_of_lt (Nat.le_trans (hslot ri hri) hord.sbase_le) hp.above

/-- A C function runs in a frame of its own. -/
theorem AllAccount.enterC (hC : HostsCount E C) (ih : AllAccount E C fuel)
    (hr : perform E C fuel (.host (C fo)) (vm.enterC fo result) = some r)
    (hok : ∀ pt ∈ r.trace, Orderly E pt ∧ Accounted E pt) (hord : vm.Ordered)
    (h : vm.Owned E false L) (hfo : (E.function fo).cfunc = true)
    (hslot : ∀ ri, result = some ri → ri ≤ vm.sbase) :
    HostDone E fo L r.x r.vm ∧ Leaving E fo result r.vm ∧
      (r.vm.callframe r.vm.base).rBase = vm.base := by
  obtain ⟨hown, hc, hnil⟩ := @Owned.enterC _ _ _ _ result h hfo
  obtain ⟨hp, hf⟩ := enterC_pushed vm fo result
  have hcount := hC fo _ L hf hown hnil rfl
  obtain ⟨hret, -⟩ := performs _ _ _ _ hr (fun pt h => (hok pt h).1) hp.ordered hc
  exact ⟨ih _ _ _ hr hok _ L hp.ordered hc hown hcount, leaving_of_returned hord hfo hslot hret⟩

theorem AllAccount.callF (hC : HostsCount E C) (ih : AllAccount E C fuel)
    (hr : perform E C (fuel + 1) (.callF fo result levels) vm = some r)
    (hok : ∀ pt ∈ r.trace, Orderly E pt ∧ Accounted E pt) :
    Accounts E (.callF fo result levels) vm r := by
  intro L hord h hslot
  rw [perform] at hr
  split at hr
  · cases hr
    exact ⟨h, (by decide : Xno.noResult ≠ Xno.return)⟩
  · split at hr
    · rename_i hfo
      obtain ⟨r', hr', rfl⟩ := Option.map_eq_some_iff.mp hr
      obtain ⟨hdone, hleaving, -⟩ := ih.enterC hC hr' (fun pt h => hok pt (List.mem_append_left _ h))
        hord h hfo hslot
      have hpt := (hok (.leaveC r'.vm) (List.mem_append_right _ List.mem_cons_self)).2
      refine ⟨Owned.leaveC hleaving hdone fun _ _ ri hri => ?_, hdone.signal⟩
      refine hpt ri ?_ (Nat.ne_of_lt (hleaving.below ri hri))
      rw [hleaving.slot, hri]
      rfl
    · rename_i hfo
      cases hr
      exact ⟨(h.callEel (Bool.not_eq_true _ ▸ hfo)).1, (by decide : Xno.ok ≠ Xno.return)⟩

theorem AllAccount.host {q : Host} (ih : AllAccount E C fuel)
    (hr : perform E C (fuel + 1) (.host q) vm = some r)
    (hok : ∀ pt ∈ r.trace, Orderly E pt ∧ Accounted E pt) : Accounts E (.host q) vm r := by
  intro Done L hord hc h hcount
  have hgo : ∀ {vm' : Vm} {q' : Host} {L' : List ObjId} {r' : Result},
      perform E C fuel (.host q') vm' = some r' →
      (∀ pt ∈ r'.trace, Orderly E pt ∧ Accounted E pt) → Within vm vm' →
      vm'.Owned E false L' → q'.Counts E Done vm' L' → Done r'.x r'.vm := by
    intro vm' q' L' r' hr' hok' hw h' hcount'
    refine ih _ _ _ hr' hok' Done L' ⟨?_, ?_⟩ ?_ h' hcount'
    · rw [hw.base, hw.sbase]
      exact hord.base_le
    · rw [hw.sbase]
      exact hw.sp hord.sbase_le
    · rw [hw.callframe, hw.base]
      exact hc
  cases q with
  | ret x =>
    rw [perform] at hr
    cases hr
    exact hcount
  | look k =>
    rw [perform] at hr
    exact hgo hr hok .refl h hcount
  | act s k =>
    obtain ⟨L', h', hcount'⟩ := hcount
    rw [perform] at hr
    exact hgo hr hok within_store h' hcount'
  | argf item k =>
    obtain ⟨L', h', hcount'⟩ := hcount
    rw [perform] at hr
    exact hgo hr hok (within_argf item) h' hcount'
  | call fo k =>
    obtain ⟨hplain, hnext⟩ := hcount
    rw [perform] at hr
    obtain ⟨r₁, hr₁, hrest⟩ := Option.bind_eq_some_iff.mp hr
    obtain ⟨r', hr', hx, hvm, htrace⟩ := after_spec hrest
    rw [htrace] at hok
    have hok₁ := fun pt h => hok pt (List.mem_append_left _ h)
    obtain ⟨hret, hsp, -⟩ := performs _ _ _ _ hr₁ (fun pt h => (hok₁ pt h).1) hord hc
    have hown := ih _ _ _ hr₁ hok₁ L hord hc h fun _ => hplain
    have hframe : r₁.vm.callframe r₁.vm.base = vm.callframe vm.base := by
      rw [hret.base]
      exact hret.frames _ hord.base_le
    rw [hx, hvm]
    refine ih _ _ _ hr' (fun pt h => hok pt (List.mem_append_right _ h)) Done L ⟨?_, ?_⟩ ?_ hown
      (hnext r₁.x r₁.vm hown hret.base hframe)
    · rw [hret.base, hret.sbase]
      exact hord.base_le
    · rw [hret.sbase]
      exact hsp
    · unfold InC
      rw [hframe, hret.base]
      exact hc

/-- An EEL function that C code calls runs to its end. -/
theorem AllAccount.runEel (ih : AllAccount E C fuel) (hord : vm.Ordered)
    (hc : InC E.function vm.callframe vm.base) (hfo : (E.function fo).cfunc = false)
    (hr : perform E C fuel .doRun (vm.callEel E.function fo result 0) = some r)
    (hok : ∀ pt ∈ r.trace, Orderly E pt ∧ Accounted E pt) (h : vm.Owned E false L) :
    r.vm.Owned E false L ∧ r.vm.base = vm.base := by
  obtain ⟨hpush, hf, hnone, htry, hcatch⟩ := callEel_pushed (F := E.function) vm fo result 0
  have hown := (@Owned.callEel _ _ _ _ _ h result 0 hfo).1
  generalize vm.callEel E.function fo result 0 = entered at *
  have hplaced := hpush.placed (F := E.function) hord
    (by simp [Callframe.isCFunc, hf, hfo]) (by simp [hnone])
  have hopen := hpush.opened hplaced (by simp [htry, hcatch]) hnone
  have hc' : InC E.function entered.callframe vm.base := by
    unfold InC
    rw [hpush.frames _ (Nat.ne_of_lt (Nat.lt_of_le_of_lt
      (Nat.le_trans hord.base_le hord.sbase_le) hpush.above))]
    exact hc
  have hfin := performs _ _ _ _ hr (fun pt h => (hok pt h).1) _ _ _ _ hopen hpush.ordered hc'
  exact ⟨ih _ _ _ hr hok _ _ _ _ L hopen hpush.ordered hc' hown, hfin.base⟩

/-- `reset_args`, when the register of the C code owns nothing. -/
theorem Owned.resetArgs (h : vm.Owned E false L) (hplain : (vm.store.heap vm.base).strong? = none) :
    vm.resetArgs.Owned E false L := by
  have hclear := h.stackClear
  have hsame := ((@stackClear_fades vm).heap vm.base).strong?
  refine hclear.setHeap (.inr ?_) rfl
  rw [stackClear_base]
  exact hsame.trans hplain

theorem AllAccount.call (ih : AllAccount E C fuel)
    (hr : perform E C (fuel + 1) (.call fo) vm = some r)
    (hok : ∀ pt ∈ r.trace, Orderly E pt ∧ Accounted E pt) : Accounts E (.call fo) vm r := by
  intro L hord hc h hplain
  rw [perform] at hr
  split at hr
  · cases hr
    exact h
  · split at hr
    · rename_i hargs
      cases hr
      exact h.resetArgs (hplain hargs)
    · dsimp only at hr
      generalize hresult : (if vm.store.heap vm.base = Value.nil then none else some vm.base) = result at hr
      have hslot : ∀ ri, result = some ri → ri ≤ vm.sbase := by
        intro ri hri
        rw [← hresult] at hri
        split at hri
        · cases hri
        · cases hri
          exact hord.base_le
      obtain ⟨r₁, hr₁, hrest⟩ := Option.bind_eq_some_iff.mp hr
      obtain ⟨r₂, hr₂, rfl⟩ := Option.map_eq_some_iff.mp hrest
      have hok₁ : ∀ pt ∈ r₁.trace, Orderly E pt ∧ Accounted E pt := fun pt h =>
        hok pt (List.mem_cons_of_mem _ (List.mem_append_left _ h))
      have hok₂ : ∀ pt ∈ r₂.trace, Orderly E pt ∧ Accounted E pt := fun pt h =>
        hok pt (List.mem_cons_of_mem _ (List.mem_append_right _ h))
      have hdone : r₂.vm.Owned E false L := by
        have hown := (ih _ _ _ hr₁ hok₁ L hord h hslot).1
        split at hr₂
        · rename_i hrun
          have hfo : (E.function fo).cfunc = false := by simpa using hrun.2
          rcases performs _ _ _ _ hr₁ (fun pt h => (hok₁ pt h).1) hord with
            ⟨hx, -⟩ | ⟨hfunc, -⟩ | ⟨-, -, hvm⟩
          · rw [hx] at hrun
            exact absurd hrun.1 (by decide)
          · rw [hfo] at hfunc
            cases hfunc
          · rw [hvm] at hr₂
            exact (ih.runEel hord hc hfo hr₂ hok₂ h).1
        · cases hr₂
          exact hown
      exact ⟨⟨hdone.stacked.formed, hdone.stacked.above⟩, hdone.tidy⟩

/-- Every run keeps ownership exact while the points it passes are accounted for. -/
theorem allAccount (hE : E.Counts) (hC : HostsCount E C) (fuel : Nat) : AllAccount E C fuel := by
  induction fuel with
  | zero => exact fun task vm r hr => by cases hr
  | succ fuel ih =>
    intro task vm r hr hok
    cases task with
    | loop => exact ih.loop hE hr hok
    | schedule => exact ih.schedule hr hok
    | run => exact ih.run hr hok
    | doRun => exact ih.doRun hr hok
    | callF fo result levels => exact ih.callF hC hr hok
    | host p => exact ih.host hr hok
    | call fo => exact ih.call hr hok

/-! ## Results for C callers -/

/-- What a C caller may expect of a result: counts are exact, its own register is among the
owners, and only frames of EEL code that are on the stack have objects in limbo. -/
structure Handed (E : Env) (L : List ObjId) (vm : Vm) : Prop where
  counted : vm.store.Exact (vm.owning E) L
  owner : vm.base ∈ vm.owning E
  unlinked : ∀ b, b ∉ vm.lists E false → vm.store.limbo b = []

theorem mem_owning_inC (hc : InC E.function vm.callframe vm.base) : vm.base ∈ vm.owning E := by
  rw [owning_eq, vars_inC hc]
  exact List.mem_append_right _ List.mem_cons_self

theorem mem_owning_caller (hcaller : (vm.callframe vm.base).rBase < vm.base)
    (hc : InC E.function vm.callframe (vm.callframe vm.base).rBase) :
    (vm.callframe vm.base).rBase ∈ vm.owning E := by
  rw [owning_eq]
  unfold owningBelow
  rw [callers_eq, if_pos hcaller, List.flatMap_cons]
  unfold Activation.owning
  rw [vars_inC hc]
  refine List.mem_append_right _ (List.mem_append_right _ (List.mem_append_left _ ?_))
  exact List.mem_append_right _ List.mem_cons_self

theorem Owned.handed (h : vm.Owned E false L) (hc : InC E.function vm.callframe vm.base) :
    Handed E L vm :=
  ⟨h.tidy.exact, mem_owning_inC hc, h.tidy.unused⟩

/-- A result that C code has received: its count is one too low, or it is in a limbo list
that nobody releases. -/
theorem handed_receive_iff (h : vm.Owned E false L) (hc : InC E.function vm.callframe vm.base)
    (hv : v.obj? = v.strong?) (hmem : vm.store.heap vm.base = v) :
    Handed E L { vm with store := vm.store.receive vm.base v } ↔ v.obj? = none := by
  constructor
  · intro hhand
    by_contra hobj
    obtain ⟨o, ho⟩ := Option.ne_none_iff_exists'.mp hobj
    have hreceive : vm.store.receive vm.base v = if vm.store.inLimbo o
        then vm.store.modify o fun ob => { ob with refcount := ob.refcount - 1 }
        else vm.store.limboPush vm.base o := by
      unfold Store.receive
      rw [ho]
    rw [hreceive] at hhand
    split at hhand
    · have hheld : o ∈ vm.store.heldAt (vm.owning E) :=
        List.mem_filterMap.mpr ⟨vm.base, mem_owning_inC hc, by rw [hmem, ← hv, ho]⟩
      have hpos := List.count_pos_iff.mpr hheld
      have halive := h.tidy.exact.alive_of_owners (o := o) (by unfold Store.owners; omega)
      exact h.tidy.exact.not_decr halive hhand.counted
    · have hnil := hhand.unlinked vm.base fun hlist => (mem_lists.mp hlist).2.elim (by decide) fun h => h hc
      have hlist : (vm.store.limboPush vm.base o).limbo vm.base = o :: vm.store.limbo vm.base := by
        rw [Store.limboPush_limbo]
        exact Function.update_self ..
      exact absurd (hlist.symm.trans hnil) (List.cons_ne_nil _ _)
  · intro hnone
    have hreceive : vm.store.receive vm.base v = vm.store := by
      unfold Store.receive
      rw [hnone]
    rw [hreceive]
    exact h.handed hc

/-- The points of a call, without the one where the called C function is left. -/
def callPoints (E : Env) (fo : ObjId) (r : Result) : List Point :=
  if (E.function fo).cfunc then r.trace.dropLast else r.trace

/-- The C function called returns no object. -/
def ReturnsPlain (c : Nat) (r : Result) : Prop :=
  ∀ vm, r.trace.getLast? = some (.leaveC vm) → (vm.store.heap c).obj? = none

theorem callF_handed (hE : E.Counts) (hC : HostsCount E C)
    (hr : perform E C fuel (.callF fo (some vm.base) levels) vm = some r) (hx : r.x = Xno.ok)
    (hord : vm.Ordered) (hc : InC E.function vm.callframe vm.base) (h : vm.Owned E false L)
    (hfo : (E.function fo).cfunc = true)
    (hok : ∀ pt ∈ r.trace.dropLast, Orderly E pt ∧ Accounted E pt) :
    Handed E L r.vm ↔ ReturnsPlain vm.base r := by
  cases fuel with
  | zero => cases hr
  | succ fuel =>
    rw [perform] at hr
    split at hr
    · cases hr
      cases hx
    · rename_i hresults
      obtain ⟨r', hr', rfl⟩ := Option.map_eq_some_iff.mp hr
      rw [List.dropLast_concat] at hok
      have hslot : ∀ ri, some vm.base = some ri → ri ≤ vm.sbase := fun ri hri =>
        Option.some.inj hri ▸ hord.base_le
      obtain ⟨hdone, hleaving, hcaller⟩ := (allAccount hE hC fuel).enterC hC hr' hok hord h hfo hslot
      have hresults : (E.function fo).results = true := by simpa using hresults
      obtain ⟨hv, hin, -⟩ := hdone.result hx hresults _ hleaving.slot
      rw [Option.getD_some] at hv hin
      have hne : vm.base ≠ r'.vm.base := Nat.ne_of_lt (hleaving.below _ rfl)
      have hplain := hdone.register fun h => hne (Option.some.inj (hleaving.slot.symm.trans h.2.2))
      have hC' : InC E.function r'.vm.callframe (r'.vm.callframe r'.vm.base).rBase := by
        have hp := (enterC_pushed vm fo (some vm.base)).1
        obtain ⟨hret, -⟩ := performs _ _ _ _ hr' (fun pt h => (hok pt h).1) hp.ordered
          (@Owned.enterC _ _ _ _ (some vm.base) h hfo).2.1
        rw [hcaller]
        exact (inC_congr (hret.caller hord hp)).mpr hc
      have hmem := mem_owning_caller hleaving.caller hC'
      rw [hcaller] at hmem
      have hdrop := (hin hmem).dropped_plain hleaving hdone hplain
      have hsame := faded_eq_of_obj? ((droppedC_fades (x := r'.x)).heap vm.base) hv
      have hbase : (r'.vm.droppedC r'.x).base = vm.base := droppedC_base.trans hcaller
      have hhost : InC E.function (r'.vm.droppedC r'.x).callframe (r'.vm.droppedC r'.x).base := by
        rw [droppedC_callframe, droppedC_base]
        exact hC'
      have hleave : r'.vm.leaveC E fo (some vm.base) r'.x = { r'.vm.droppedC r'.x with
          store := (r'.vm.droppedC r'.x).store.receive (r'.vm.droppedC r'.x).base
            (r'.vm.store.heap vm.base) } := by
        rw [leaveC_eq, if_pos ⟨hx, hresults⟩]
        dsimp only
        rw [hleaving.slot, Option.getD_some, Option.getD_some, hsame]
        rfl
      have hiff := handed_receive_iff hdrop hhost hv (by rw [hbase]; exact hsame)
      rw [← hleave] at hiff
      refine hiff.trans ⟨fun hnone vm' hlast => ?_, fun hplain => hplain r'.vm ?_⟩
      · rw [List.getLast?_concat] at hlast
        cases hlast
        exact hnone
      · exact List.getLast?_concat

theorem callF_trace (hr : perform E C fuel (.callF fo result levels) vm = some r)
    (hx : r.x = Xno.ok) (hfo : (E.function fo).cfunc = true) :
    ∃ before vm', r.trace = before ++ [.leaveC vm'] := by
  cases fuel with
  | zero => cases hr
  | succ fuel =>
    rw [perform] at hr
    split at hr
    · cases hr
      cases hx
    · obtain ⟨r', -, rfl⟩ := Option.map_eq_some_iff.mp hr
      exact ⟨r'.trace, r'.vm, rfl⟩

/-- What an EEL function returns is handed to its C caller as it should be. -/
theorem call_handed_eel (hE : E.Counts) (hC : HostsCount E C)
    (hr : perform E C fuel (.call fo) vm = some r) (hx : r.x = Xno.ok) (hord : vm.Ordered)
    (hc : InC E.function vm.callframe vm.base) (h : vm.Owned E false L)
    (hok : ∀ pt ∈ r.trace, Orderly E pt ∧ Accounted E pt) : Handed E L r.vm := by
  have hown := allAccount hE hC fuel _ _ _ hr hok L hord hc h fun hno => absurd hx hno
  obtain ⟨hret, -⟩ := performs _ _ _ _ hr (fun pt h => (hok pt h).1) hord hc
  refine hown.handed ?_
  rw [hret.base]
  exact (inC_congr (hret.frames _ hord.base_le)).mpr hc

theorem call_handed_c (hE : E.Counts) (hC : HostsCount E C)
    (hr : perform E C fuel (.call fo) vm = some r) (hcallable : E.callable fo) (hx : r.x = Xno.ok)
    (hwanted : vm.store.heap vm.base ≠ .nil) (hord : vm.Ordered)
    (hc : InC E.function vm.callframe vm.base) (h : vm.Owned E false L)
    (hfo : (E.function fo).cfunc = true)
    (hok : ∀ pt ∈ r.trace.dropLast, Orderly E pt ∧ Accounted E pt) :
    Handed E L r.vm ↔ ReturnsPlain vm.base r := by
  cases fuel with
  | zero => cases hr
  | succ fuel =>
    rw [perform, if_neg (not_not_intro hcallable)] at hr
    split at hr
    · rename_i hargs
      cases hr
      exact absurd hx hargs
    · dsimp only at hr
      obtain ⟨r₁, hr₁, hrest⟩ := Option.bind_eq_some_iff.mp hr
      obtain ⟨r₂, hr₂, rfl⟩ := Option.map_eq_some_iff.mp hrest
      rw [if_neg fun h => h.2 hfo] at hr₂
      cases hr₂
      obtain ⟨before, vm', hbefore⟩ := callF_trace hr₁ hx hfo
      have htrace : ∀ pt, pt :: (r₁.trace ++ []) = (pt :: before) ++ [.leaveC vm'] := by
        intro pt
        rw [hbefore, List.append_nil, List.cons_append]
      dsimp only at hok
      rw [htrace, List.dropLast_concat] at hok
      have hiff := callF_handed hE hC hr₁ hx hord hc h hfo fun pt hpt => hok pt <| by
        rw [hbefore, List.dropLast_concat] at hpt
        exact List.mem_cons_of_mem _ hpt
      -- The `resv`, `argv` and `argc` that are put back own nothing.
      have hback : Handed E L { r₁.vm with resv := vm.resv, argv := vm.argv, argc := vm.argc } ↔
          Handed E L r₁.vm :=
        ⟨fun h => ⟨h.counted, h.owner, h.unlinked⟩, fun h => ⟨h.counted, h.owner, h.unlinked⟩⟩
      refine hback.trans (hiff.trans ?_)
      unfold ReturnsPlain
      rw [htrace, List.getLast?_concat, hbefore, List.getLast?_concat]

/-- Exactly when `eel_call` hands a result to its C caller as it should. -/
theorem call_handed_iff (hE : E.Counts) (hC : HostsCount E C)
    (hr : perform E C fuel (.call fo) vm = some r) (hcallable : E.callable fo) (hx : r.x = Xno.ok)
    (hwanted : vm.store.heap vm.base ≠ .nil) (hord : vm.Ordered)
    (hc : InC E.function vm.callframe vm.base) (h : vm.Owned E false L)
    (hok : ∀ pt ∈ callPoints E fo r, Orderly E pt ∧ Accounted E pt) :
    Handed E L r.vm ↔ ((E.function fo).cfunc = true → ReturnsPlain vm.base r) := by
  unfold callPoints at hok
  split at hok
  · rename_i hfo
    exact (call_handed_c hE hC hr hcallable hx hwanted hord hc h hfo hok).trans
      ⟨fun h _ => h, fun h => h hfo⟩
  · rename_i hfo
    exact iff_of_true (call_handed_eel hE hC hr hx hord hc h hok) fun h => absurd h hfo

/-! ### A result for the host -/

/-- Functions that have a result and run `code`, unless they are C functions. -/
def resultEnv (cfunc : Bool) (code : Nat → Instr) : Env :=
  { bareEnv code with
    function := fun _ =>
      { cfunc := cfunc, results := true, reqargs := 0, optargs := 0, tupargs := 0
        argdefaults := none, framesize := 1, cleansize := 1, «module» := 0 } }

theorem resultEnv_counts {cfunc : Bool} {code : Nat → Instr} : (resultEnv cfunc code).Counts :=
  have h : (bareEnv code).Counts := bareEnv_counts
  ⟨h.operate, h.ipoperate, h.unary, h.plain, h.cast, h.construct, h.getindex, h.setindex⟩

/-- No frame is on the stack, and the host wants the result of a function, object 0. -/
def resultWanted : Vm where
  store :=
    { heap := fun i => if i = 0 then .boolean 1 else .nil
      object := fun o =>
        { refcount := if o < 1 then 1 else 0, values := [], cls := none, limbo := none,
          refuses := false, freed := decide (1 ≤ o) }
      limbo := fun _ => []
      exception := .nil
      next := 1 }
  base := 0
  sp := 1
  sbase := 1
  pc := 0
  resv := 0
  argv := 0
  argc := 0
  callframe _ := plainFrame 0 0
  cleantab _ := []
  log := []

theorem resultWanted_owned {cfunc : Bool} {code : Nat → Instr} :
    resultWanted.Owned (resultEnv cfunc code) false [0] := by
  have hframes : resultWanted.frames = [⟨0, 1, 1⟩] := by
    unfold frames
    rw [callers_eq, if_neg (by decide)]
    rfl
  have howning : resultWanted.owning (resultEnv cfunc code) = [0] := by
    unfold owning
    rw [hframes]
    rfl
  refine ⟨⟨fun a ha => ?_, ?_⟩, ?_⟩
  · rw [hframes] at ha
    cases List.mem_singleton.mp ha
    exact ⟨by decide, by decide, List.nodup_singleton 0, fun r hr => by
      cases List.mem_singleton.mp hr
      decide⟩
  · rw [hframes]
    exact List.pairwise_singleton ..
  · rw [howning]
    have howners : ∀ o, resultWanted.store.owners [0] [0] o = if 0 = o then 1 else 0 := by
      intro o
      have hslot : resultWanted.store.slotCount o = 0 := rfl
      have hheld : resultWanted.store.heldAt [0] = [] := rfl
      unfold Store.owners
      rw [hslot, hheld]
      simp only [List.count_cons, List.count_nil, beq_iff_eq]
      change 0 + 0 + 0 + 0 + 0 + _ = _
      omega
    refine ⟨⟨fun o ho => ?_, fun o ho => ?_, fun o ho => decide_eq_true ho, ?_⟩,
      ⟨fun b o => ?_, fun b => ?_⟩, fun b _ => rfl⟩
    · have hlt : o < 1 := by simpa [resultWanted] using ho
      rw [howners]
      match o, hlt with
      | 0, _ => rfl
    · have hle : 1 ≤ o := of_decide_eq_true ho
      rw [howners, if_neg (Nat.ne_of_lt hle)]
    · rintro o (⟨i, hi⟩ | hx | ⟨o', hv⟩)
      · change (if i = 0 then Value.boolean 1 else .nil) = _ at hi
        split at hi <;> cases hi
      · cases hx
      · cases hv
    · exact ⟨fun h => (nomatch h), fun h => (nomatch h)⟩
    · exact List.nodup_nil

/-- `nil` can be returned to C code that wants a result. -/
theorem returns_nil (hv : v = .nil) (hhost : InC E.function vm.callframe (vm.callframe vm.base).rBase)
    (hcaller : (vm.callframe vm.base).rBase < vm.base)
    (hresult : (vm.callframe vm.base).result = some (vm.callframe vm.base).rBase)
    (hplain : (vm.store.heap (vm.callframe vm.base).rBase).strong? = none) :
    vm.Returns E (vm.callframe vm.base).rBase v := by
  subst hv
  refine ⟨fun o ho => (nomatch ho), fun o ho => (nomatch ho), fun ri hri => ?_⟩
  cases hresult.symm.trans hri
  exact ⟨fun _ => ⟨mem_owning_caller hcaller hhost, hplain⟩, fun h => absurd hhost h⟩

/-- C functions that fail count their references. -/
theorem failing_counts {E : Env} : HostsCount E fun _ => .ret Xno.wrongType := by
  intro fo vm L _ h hnil _
  have hno : Xno.wrongType ≠ Xno.ok := by decide
  exact ⟨by decide, fun h => absurd h hno, fun h => absurd h hno,
    fun _ => by rw [hnil]; rfl, fun _ => h⟩

/-- An EEL function that returns `nil`. -/
theorem call_handed_iff_returnr :
    ∃ r, perform (resultEnv false fun _ => .returnr 0) (fun _ => .ret Xno.wrongType) 5 (.call 0)
      resultWanted = some r ∧
      (Handed (resultEnv false fun _ => .returnr 0) [0] r.vm ↔
        (((resultEnv false fun _ => .returnr 0).function 0).cfunc = true → ReturnsPlain 0 r)) := by
  refine ⟨_, rfl, @call_handed_iff _ _ _ _ 5 _ _ resultEnv_counts failing_counts rfl rfl rfl
    (by decide) ⟨by decide, by decide⟩ (.inl rfl) resultWanted_owned fun pt hpt => ?_⟩
  rcases List.mem_cons.mp hpt with rfl | hpt
  · exact ⟨fun _ _ h => (nomatch h), trivial⟩
  · cases List.mem_singleton.mp hpt
    refine ⟨trivial, fun L _ => ⟨⟨⟨rfl, by decide⟩, ?_⟩, fun vm' h => ?_, fun fo ri levels vm' h => ?_⟩⟩
    · exact returns_nil rfl (.inl rfl) (by decide) rfl rfl
    · cases h
    · cases h

/-- A C function that returns a new object, as object 1. -/
def newResult : Host :=
  .look fun vm =>
    .act { (vm.store.modify 1 fun ob => { ob with refcount := 1, freed := false }).setHeap vm.resv
      (.objref 1) with next := 2 } (.ret Xno.ok)

/-- The reference to a new object that a C function returns is linked in a list that no frame
has. -/
theorem not_handed_newResult :
    resultWanted.Owned (resultEnv true fun _ => .nop) false [0] ∧
      ∃ r, perform (resultEnv true fun _ => .nop) (fun _ => newResult) 5 (.call 0) resultWanted =
        some r ∧ r.x = Xno.ok ∧ r.vm.store.heap 0 = .objref 1 ∧
        (r.vm.store.object 1).refcount = 1 ∧ r.vm.store.limbo 0 = [1] ∧ r.vm.base = 0 ∧
        ¬ Handed (resultEnv true fun _ => .nop) [0] r.vm := by
  refine ⟨resultWanted_owned, _, rfl, rfl, rfl, rfl, rfl, rfl, fun h => ?_⟩
  have hnil := h.unlinked 0 fun hlist =>
    (mem_lists.mp hlist).2.elim (by decide) fun h => h (.inl rfl)
  cases hnil

end Vm

end Eel
