-- SUMMARY: Instructions within a frame leave the frames alone: the VM registers, the callframes and the record of frames.
import Eel.Vm.Exec

/-!
# Frames and instructions
-/

namespace Eel

namespace Vm

/-- `vm'` is in the same frame as `vm`, with the same frames around it. -/
structure Within (vm vm' : Vm) : Prop where
  base : vm'.base = vm.base
  sbase : vm'.sbase = vm.sbase
  callframe : vm'.callframe = vm.callframe
  log : vm'.log = vm.log
  sp : vm.sbase ≤ vm.sp → vm.sbase ≤ vm'.sp

variable {E : Env} {vm vm' vm'' : Vm} {a b : Nat} {v : Value}

theorem Within.refl : Within vm vm := ⟨rfl, rfl, rfl, rfl, id⟩

theorem Within.trans (h : Within vm vm') (h' : Within vm' vm'') : Within vm vm'' where
  base := h'.base.trans h.base
  sbase := h'.sbase.trans h.sbase
  callframe := h'.callframe.trans h.callframe
  log := h'.log.trans h.log
  sp hsp := h.sbase ▸ h'.sp (h.sbase.symm ▸ h.sp hsp)

/-- Another store and program counter. -/
theorem Within.of_eq (hbase : vm'.base = vm.base) (hsbase : vm'.sbase = vm.sbase)
    (hframe : vm'.callframe = vm.callframe) (hlog : vm'.log = vm.log) (hsp : vm.sp ≤ vm'.sp) :
    Within vm vm' :=
  ⟨hbase, hsbase, hframe, hlog, fun h => Nat.le_trans h hsp⟩

theorem within_store {s : Store} : Within vm { vm with store := s } :=
  .of_eq rfl rfl rfl rfl (Nat.le_refl _)

theorem within_jump {d : Int} : Within vm (vm.jump d) := .of_eq rfl rfl rfl rfl (Nat.le_refl _)

theorem within_writeReg : Within vm (vm.writeReg a v) := within_store

theorem within_qcopyReg : Within vm (vm.qcopyReg a v) := within_store

theorem within_copyReg : Within vm (vm.copyReg a v) := within_store

theorem within_disownHeap : Within vm (vm.disownHeap a) := within_store

theorem within_receiveReg : Within vm (vm.receiveReg a) := within_store

theorem within_grabReg : Within vm (vm.grabReg a) := within_store

theorem within_addClean : Within vm (vm.addClean a) := .of_eq rfl rfl rfl rfl (Nat.le_refl _)

theorem within_clean : Within vm (vm.clean a) := .of_eq rfl rfl rfl rfl (Nat.le_refl _)

theorem within_push : Within vm (vm.push v) := .of_eq rfl rfl rfl rfl (Nat.le_succ _)

theorem within_pushRaw : Within vm (vm.pushRaw v) := .of_eq rfl rfl rfl rfl (Nat.le_succ _)

theorem within_pushRange {i n : Nat} : Within vm (pushRange i n vm) := by
  induction n generalizing i vm with
  | zero => exact .refl
  | succ n ih => exact within_push.trans ih

theorem within_stackClear : Within vm vm.stackClear where
  base := stackClear_base
  sbase := stackClear_sbase
  callframe := stackClear_callframe
  log := stackClear_log
  sp h := Nat.le_of_eq (stackClear_sp h).symm

/-! ## Outcomes -/

variable {r : OpResult} {key : Value}

theorem all_within_result : (vm.result a r).All (Within vm) := by
  unfold result
  split
  · exact within_store.trans within_writeReg
  · exact within_store

theorem all_within_received {vm : Vm} {a : Nat} {r : OpResult} : (vm.received a r).All (Within vm) := by
  have h : (vm.result a r).All (Within vm) := all_within_result
  unfold received
  cases hr : vm.result a r with
  | next vm' => rw [hr] at h; exact Within.trans h within_receiveReg
  | thrown x vm' => rw [hr] at h; exact h

theorem all_within_pushed : (vm.pushed r).All (Within vm) := by
  unfold pushed
  split
  · exact within_store.trans within_pushRaw
  · exact within_store

theorem all_within_indget : (vm.indget E a v key).All (Within vm) := by
  unfold indget
  split
  · exact all_within_received
  · exact .refl

theorem all_within_indset : (vm.indset E a v key).All (Within vm) := by
  unfold indset
  split
  · dsimp only
    split
    · exact within_store
    · exact within_store
  · exact .refl

theorem all_within_getarg {i : Nat} {default : Option Value} :
    (vm.getarg a b i default).All (Within vm) := by
  unfold getarg
  split
  · exact within_qcopyReg.trans within_grabReg
  · split
    · exact within_qcopyReg
    · exact .refl

theorem all_within_setarg {i : Nat} : (vm.setarg a b i).All (Within vm) := by
  unfold setarg
  split
  · exact within_disownHeap.trans within_store
  · exact .refl

theorem all_within_gettarg {pos : Nat} {tup : Int} :
    (vm.gettarg E a b pos tup).All (Within vm) := by
  unfold gettarg
  dsimp only
  split
  · exact .refl
  · exact all_within_getarg

theorem Outcome.All.trans {o : Outcome} (h : Within vm vm') (ho : o.All (Within vm')) :
    o.All (Within vm) := by
  cases o with
  | next _ => exact Within.trans h ho
  | thrown _ _ => exact Within.trans h ho

theorem all_within_castLoop {k : Vm → BitVec 64 → Outcome}
    (hk : ∀ vm bits, (k vm bits).All (Within vm)) : (vm.castLoop E a k).All (Within vm) := by
  unfold castLoop
  split
  · exact hk _ _
  · split
    · exact Outcome.All.trans within_writeReg (hk _ _)
    · exact .refl

theorem all_within_castLoopVar {k : Vm → BitVec 64 → Outcome}
    (hk : ∀ vm bits, (k vm bits).All (Within vm)) : (vm.castLoopVar E a k).All (Within vm) := by
  unfold castLoopVar
  split
  · exact hk _ _
  · split
    · exact Outcome.All.trans (within_disownHeap.trans within_writeReg) (hk _ _)
    · exact .refl

theorem within_ite {c : Prop} [Decidable c] {vm₁ vm₂ : Vm} (h₁ : Within vm vm₁)
    (h₂ : Within vm vm₂) : Within vm (if c then vm₁ else vm₂) := by
  split
  · exact h₁
  · exact h₂

/-- Instructions within a frame leave the frames alone. -/
theorem exec_within (vm : Vm) (i : Instr) : (vm.exec E i).All (Within vm) := by
  cases i with
  | jump => exact within_jump
  | jumpz => exact within_ite .refl within_jump
  | jumpnz => exact within_ite within_jump .refl
  | «switch» =>
    unfold exec
    dsimp only
    split
    · split
      · exact .of_eq rfl rfl rfl rfl (Nat.le_refl _)
      · exact within_store
      · exact within_store.trans within_jump
    · exact within_jump
  | preloop =>
    unfold exec
    refine all_within_castLoopVar fun _ _ => all_within_castLoop fun _ _ =>
      all_within_castLoop fun _ _ => ?_
    exact within_ite (within_ite within_jump .refl) (within_ite within_jump .refl)
  | loop =>
    unfold exec
    refine all_within_castLoopVar fun _ _ => ?_
    split
    · exact within_writeReg.trans
        (within_ite (within_ite .refl within_jump) (within_ite .refl within_jump))
    · exact .refl
  | push | pushc | phvar | phuval => exact within_push
  | push2 | pushc2 => exact within_push.trans within_push
  | push3 => exact (within_push.trans within_push).trans within_push
  | push4 => exact ((within_push.trans within_push).trans within_push).trans within_push
  | pushi | phtrue | phfalse | pushnil => exact within_pushRaw
  | pushic => exact within_pushRaw.trans within_push
  | pushci => exact within_push.trans within_pushRaw
  | pushtup | phargs => exact within_pushRange
  | clean => exact within_clean
  | argc | tupc | spec | ldi | ldtrue | ldfalse | ldnil => exact within_writeReg
  | tspec =>
    unfold exec
    dsimp only
    split
    · exact .refl
    · exact within_writeReg
  | ldc | move => exact within_qcopyReg
  | init | initc => exact within_copyReg.trans within_addClean
  | initi | initnil => exact within_writeReg.trans within_addClean
  | assign | assignc => exact within_disownHeap.trans within_copyReg
  | assigni | asnnil => exact within_disownHeap.trans within_writeReg
  | getuval | getvar => exact within_qcopyReg.trans within_grabReg
  | setuval => exact within_disownHeap.trans within_store
  | setvar => exact within_store
  | indseti | indset | indsetc => exact all_within_indset
  | indgeti | indget | indgetc => exact all_within_indget
  | getargi | getuvargi => exact all_within_getarg
  | phargi =>
    unfold exec
    dsimp only
    split
    · exact within_push
    · exact .refl
  | phargi2 =>
    unfold exec
    dsimp only
    split
    · exact within_push.trans within_push
    · exact .refl
  | setargi | setuvargi => exact all_within_setarg
  | gettargi | getuvtargi => exact all_within_gettarg
  | phbop | phbopi | phadd | phsub | phmul | phdiv | phmod | phpower => exact all_within_pushed
  | bop | ipbop | bops | ipbops | bopi | ipbopi | bopc | castr | casti | castb | add | sub | mul
  | div | mod | power | clone => exact all_within_received
  | neg | bnot | not | typeof | sizeof => exact all_within_result
  | cast =>
    unfold exec
    dsimp only
    split
    · exact all_within_received
    · exact .refl
  | weakref =>
    unfold exec
    dsimp only
    split
    · exact within_writeReg
    · exact within_writeReg
    · exact .refl
  | new a b =>
    unfold exec
    dsimp only
    have h := @all_within_received vm a (E.construct b
      ((List.range (vm.sp - vm.sbase)).map fun i => vm.store.heap (vm.sbase + i)) vm.store)
    split
    · rename_i hr
      rw [hr] at h
      exact Within.trans h within_stackClear
    · rename_i hr
      rw [hr] at h
      exact h
  | nop | illegal | call | callr | ccall | ccallr | «return» | returnr | «try» | untry | throw
  | retry | retx | retxr => exact .refl

end Vm

end Eel
