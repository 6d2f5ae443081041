-- SUMMARY: Leaving frames for an exception keeps ownership exact: what they owned is given up, and the exception goes to the catcher.
import Eel.Vm.OwnedRun

/-!
# Owners and exceptions
-/

namespace Eel

/-- An open frame is the current one, or it called an open frame. -/
theorem Open.eq_or_callee {F : ObjId → Function} {frames : Nat → Callframe} {c s p b t : Nat}
    {bs : List Nat} (h : Open F frames c s p b bs) (ht : t ∈ bs) :
    t = b ∨ ∃ t' ∈ bs, (frames t').rBase = t := by
  induction h with
  | outermost => exact .inl (List.mem_singleton.mp ht)
  | @inner b bs _ _ ih =>
    rcases List.mem_cons.mp ht with rfl | ht
    · exact .inl rfl
    · rcases ih ht with rfl | ⟨t', ht', hbase⟩
      · exact .inr ⟨b, List.mem_cons_self, rfl⟩
      · exact .inr ⟨t', List.mem_cons_of_mem _ ht', hbase⟩

namespace Vm

variable {E : Env} {hosts : Bool} {L : List ObjId} {vm vm' : Vm} {c s p b t n : Nat} {bs : List Nat}
  {v : Value} {fo : ObjId}

/-! ## Unwinding -/

theorem Placed.inEel (h : Placed E.function vm.callframe vm.base) : InEel E vm :=
  ⟨h.runs.1, h.runs.2.2⟩

theorem unwindFrame_eq (hrun : InEel E vm) :
    vm.unwindFrame E.function = returned vm.release.stackClear := by
  unfold unwindFrame returned
  dsimp only
  rw [if_neg (by simp [hrun.2]), stackClear_callframe, stackClear_base]
  rfl

namespace Owned

theorem unwindFrame (h : vm.Owned E hosts L) (hp : Placed E.function vm.callframe vm.base) :
    (vm.unwindFrame E.function).Owned E hosts L := by
  have hrun := Placed.inEel hp
  obtain ⟨hown, hnil⟩ := h.release hrun
  have hclear := hown.stackClear
  have hrun' : InEel E vm.release.stackClear := by
    unfold InEel
    rw [stackClear_callframe, stackClear_base]
    exact hrun
  rw [unwindFrame_eq hrun]
  refine hclear.returned hrun' ?_ ?_ ?_ ?_
  · rw [stackClear_sp hown.ordered.2, stackClear_sbase]
  · rw [stackClear_cleantab, stackClear_base]
    exact release_cleantab
  · rw [hown.stackClear_limbo, stackClear_base]
    exact hnil
  · rw [stackClear_callframe, stackClear_base]
    exact hp.rBase_lt

/-- All frames from the current one to `t` are left. -/
theorem unwindFrames {bs₁ bs₂ : List Nat} (h : vm.Owned E hosts L)
    (hopen : Open E.function vm.callframe c s p vm.base (bs₁ ++ t :: bs₂)) (hn : vm.base ≤ n) :
    (vm.unwindFrames E.function (vm.callframe t).rBase n).Owned E hosts L := by
  induction n generalizing vm bs₁ with
  | zero => exact h
  | succ n ih =>
    unfold Vm.unwindFrames
    split
    · exact h
    · rename_i hne
      have hstep := h.unwindFrame hopen.placed
      have hle : (vm.unwindFrame E.function).base ≤ n :=
        Nat.le_of_lt_succ (Nat.lt_of_lt_of_le hopen.placed.rBase_lt hn)
      obtain ⟨bs', hbs⟩ := hopen.head
      cases bs₁ with
      | nil =>
        cases hbs
        -- The frame left was the last one.
        have hstop : (vm.unwindFrame E.function).unwindFrames E.function
            (vm.callframe vm.base).rBase n = vm.unwindFrame E.function := by
          cases n with
          | zero => rfl
          | succ n => rw [Vm.unwindFrames, if_pos unwindFrame_base]
        rw [hstop]
        exact hstep
      | cons b bs₁ =>
        cases hbs
        rcases hopen.outer with ⟨hnil, _⟩ | houter
        · simp at hnil
        · have hrest := @ih _ bs₁ hstep (by simpa using houter) hle
          simpa using hrest

theorem unwind (h : vm.Owned E hosts L) (hopen : Open E.function vm.callframe c s p vm.base bs)
    (ht : t ∈ bs) : (vm.unwind E.function (vm.callframe t).rBase).Owned E hosts L := by
  obtain ⟨bs₁, bs₂, rfl, -⟩ := hopen.split ht
  exact h.unwindFrames hopen (Nat.le_refl _)

/-- The exception becomes the first variable of the catcher. -/
theorem callCatcher (h : vm.Owned E hosts L) (hfo : (E.function fo).cfunc = false)
    (hsize : 0 < (E.function fo).framesize) :
    ((vm.callCatcher E.function fo).addClean 0).Owned E hosts L := by
  obtain ⟨hp, hf, -⟩ := callCatcher_pushed (F := E.function) vm fo
  have hrun : InEel E (vm.callCatcher E.function fo) := by
    refine ⟨Nat.ne_of_gt (Nat.lt_of_le_of_lt (Nat.zero_le _) hp.above), ?_⟩
    unfold Callframe.isCFunc
    rw [hf]
    exact hfo
  have hsbase : (vm.callCatcher E.function fo).sbase =
      (vm.callCatcher E.function fo).base + (E.function fo).framesize := rfl
  have hstore : (vm.callCatcher E.function fo).store =
      vm.store.clearException.setHeap (vm.callCatcher E.function fo).base vm.store.exception := by
    have hpush := h.pushFrame_store (E.function fo).cleansize (E.function fo).framesize
    have hcall : (vm.callCatcher E.function fo).store =
        (vm.pushFrame (E.function fo).cleansize (E.function fo).framesize).store.clearException.setHeap
          (vm.callCatcher E.function fo).base
          (vm.pushFrame (E.function fo).cleansize (E.function fo).framesize).store.exception := rfl
    rw [hcall, hpush]
  have hctab : (vm.callCatcher E.function fo).cleantab =
      Function.update vm.cleantab (vm.callCatcher E.function fo).base [] := rfl
  have hsp : (vm.callCatcher E.function fo).sp = (vm.callCatcher E.function fo).sbase := rfl
  generalize vm.callCatcher E.function fo = vm' at hp hrun hsbase hstore hctab hsp
  have hout : vm'.base ∉ vm.owning E := fun hmem =>
    Nat.lt_irrefl _ (Nat.lt_trans hp.above (h.stacked.owning_lt hmem))
  have hnew : (vm'.addClean 0).vars E vm'.base = [vm'.base] := by
    have hvars := @InEel.vars _ (vm'.addClean 0) hrun
    have hnil : vm'.cleantab vm'.base = [] := by
      rw [hctab]
      exact Function.update_self ..
    have hone : (vm'.addClean 0).cleantab vm'.base = [0] := by
      unfold Vm.addClean
      simp only [Function.update_self, hnil]
    exact hvars.trans (congrArg (List.map _) hone)
  refine @Owned.entered _ _ _ (vm'.addClean 0) _ _ h
    ⟨hp.above, hp.base, hp.sbase, hp.sp, ⟨hp.ordered.base_le, hp.ordered.sbase_le⟩, hp.frames, hp.log⟩
    hnew (fun b hb => ?_) hsp (List.nodup_singleton _) (fun r hr => ?_) ?_
  · refine (Function.update_of_ne hb ..).trans ?_
    rw [hctab]
    exact Function.update_of_ne hb ..
  · cases List.mem_singleton.mp hr
    refine ⟨Nat.le_refl _, ?_⟩
    change vm'.base < vm'.sbase
    omega
  · change vm'.store.Tidy _ _ _
    rw [hstore]
    exact h.tidy.moveException hout

end Owned

/-! ## The scheduler -/

/-- The base of the frame that `EEL_XRETURN` returns to. -/
def returnBase (vm : Vm) : Nat := (vm.callframe (vm.returningFrame vm.base vm.base)).rBase

/-- The result that nobody owns while `EEL_XRETURN` is on its way to EEL code. -/
def inFlight (E : Env) (vm : Vm) : Value :=
  if exceptionXno vm.store.exception = Xno.return ∧ ¬ InC E.function vm.callframe vm.returnBase then
    match (vm.callframe vm.base).result with
    | none => .nil
    | some ri => vm.store.heap ri
  else .nil

theorem unwind_fades {target : Nat} : Store.Fades vm.store (vm.unwind E.function target).store :=
  survives_fades.unwind .refl

theorem faded_eq_of_obj? {v' : Value} (h : v.Faded v') (hv : v.obj? = v.strong?) : v' = v := by
  rcases h with h | ⟨-, o, rfl⟩
  · exact h
  · cases hv

namespace Owned

theorem scheduleReturn (h : vm.Owned E hosts ((vm.inFlight E).strong?.toList ++ L))
    (hv : (vm.inFlight E).obj? = (vm.inFlight E).strong?)
    (hx : exceptionXno vm.store.exception = Xno.return)
    (hopen : Open E.function vm.callframe c s p vm.base bs) :
    (vm.scheduleReturn E.function).2.Owned E hosts L := by
  have ht := returningFrame_mem hopen (Nat.le_refl vm.base)
  have hown := (h.unwind hopen ht).stackClear
  have hbase : (vm.unwind E.function vm.returnBase).stackClear.base = vm.returnBase := by
    obtain ⟨bs₁, bs₂, -, hunw, -, -⟩ := unwind_open hopen ht
    rw [stackClear_base]
    exact hunw.base
  have hframe : (vm.unwind E.function vm.returnBase).stackClear.callframe = vm.callframe := by
    rw [stackClear_callframe, unwind_callframe]
  have hfades : Store.Fades vm.store (vm.unwind E.function vm.returnBase).stackClear.store :=
    survives_fades.stackClear unwind_fades
  have hret : vm.scheduleReturn E.function = (fun vm' : Vm =>
      if vm'.base = 0 ∨ (vm'.callframe vm.returnBase).isCFunc E.function then (Xno.end, vm')
      else
        match (vm.callframe vm.base).result with
        | none => vm'.resume E.function
        | some ri =>
          { vm' with store := vm'.store.receive vm'.base (vm'.store.heap ri) }.resume E.function)
      (vm.unwind E.function vm.returnBase).stackClear := rfl
  rw [hret]
  change (vm.unwind E.function vm.returnBase).stackClear.Owned E hosts _ at hown
  generalize (vm.unwind E.function vm.returnBase).stackClear = vm' at hown hbase hframe hfades
  dsimp only
  have hcond : (vm'.base = 0 ∨ (vm'.callframe vm.returnBase).isCFunc E.function = true) ↔
      InC E.function vm.callframe vm.returnBase := by
    rw [hframe, hbase]
    exact Iff.rfl
  by_cases hC : InC E.function vm.callframe vm.returnBase
  · have hnil : vm.inFlight E = .nil := if_neg fun hcond => hcond.2 hC
    rw [hnil] at hown
    rw [if_pos (hcond.mpr hC)]
    exact hown
  · have hback : InEel E vm' := by
      unfold InEel
      rw [hframe, hbase]
      exact ⟨fun h0 => hC (.inl h0), Bool.eq_false_iff.mpr fun h => hC (.inr h)⟩
    have hpend : vm.inFlight E = match (vm.callframe vm.base).result with
      | none => .nil
      | some ri => vm.store.heap ri := if_pos ⟨hx, hC⟩
    rw [hpend] at hown hv
    rw [if_neg fun h => hC (hcond.mp h)]
    split
    · rename_i hnone
      rw [hnone] at hown
      exact hown
    · rename_i ri hri
      rw [hri] at hown hv
      have hsame := faded_eq_of_obj? (hfades.heap ri) hv
      dsimp only at hown hv
      rw [← hsame] at hown hv
      exact hown.store (hown.tidy.receive hv hback.base_mem)

/-- The frames above an open one, or all of them, are left. -/
theorem unwindTo (h : vm.Owned E hosts L) (hopen : Open E.function vm.callframe c s p vm.base bs)
    (ht : t = c ∨ t ∈ bs) : (vm.unwind E.function t).Owned E hosts L := by
  have hnext : ∀ {t'}, t' ∈ bs → (vm.callframe t').rBase = t →
      (vm.unwind E.function t).Owned E hosts L := fun ht' hbase => hbase ▸ h.unwind hopen ht'
  rcases ht with rfl | ht
  · obtain ⟨t', ht', hbase⟩ := hopen.exists_outermost
    exact hnext ht' hbase
  · rcases hopen.eq_or_callee ht with rfl | ⟨t', ht', hbase⟩
    · have hstay : vm.unwind E.function vm.base = vm := by
        unfold Vm.unwind
        cases hb : vm.base with
        | zero => rfl
        | succ n => rw [Vm.unwindFrames, if_pos hb]
      rw [hstay]
      exact h
    · exact hnext ht' hbase

theorem scheduler (h : vm.Owned E hosts ((vm.inFlight E).strong?.toList ++ L))
    (hv : (vm.inFlight E).obj? = (vm.inFlight E).strong?)
    (hopen : Open E.function vm.callframe c s p vm.base bs) (hc : InC E.function vm.callframe c)
    (hsize : ∀ b fo, vm.findCatcher E.function (exceptionXno vm.store.exception) vm.base vm.base =
      (b, some fo) → 0 < (E.function fo).framesize) :
    (vm.scheduler E.function).2.Owned E hosts L := by
  by_cases hret : exceptionXno vm.store.exception = Xno.return
  · have hsched : vm.scheduler E.function = vm.scheduleReturn E.function := by
      unfold Vm.scheduler
      rw [hret]
      rfl
    rw [hsched]
    exact h.scheduleReturn hv hret hopen
  · have hnil : vm.inFlight E = .nil := if_neg fun hcond => hret hcond.1
    rw [hnil] at h
    unfold Vm.scheduler
    dsimp only
    split
    · exact h
    · split
      · exact h
      · unfold Vm.scheduleException
        generalize exceptionXno vm.store.exception = x at hsize
        rcases findCatcher_open (x := x) hopen hc (Nat.le_refl _) with
          ⟨t, fo, hfind, ht, hcatcher⟩ | hfind | ⟨t, ht, hfind⟩
        · obtain ⟨_, _, _, hlast⟩ := hopen.split ht
          rw [hfind]
          exact (h.unwind hopen ht).callCatcher (hlast.placed.catcher fo hcatcher) (hsize t fo hfind)
        · rw [hfind]
          exact h.unwindTo hopen (.inl rfl)
        · rw [hfind]
          exact h.unwindTo hopen (.inr ht)

end Owned

end Vm

end Eel
