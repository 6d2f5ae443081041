-- SUMMARY: Instructions and calls that may grow the VM heap, with the pointers they use: what they do does not depend on moves of the heap unless an argument is read through an old pointer.
import Eel.Core.OwnerOps
import Eel.Vm.HeapBlock

/-!
# Moves of the heap

Everything that grows the heap, over the memory it is in.
-/

namespace Eel

/-- The exception code that an instruction leaves with, or `XOK`, and the state. -/
def Outcome.code : Outcome → Xno × Vm
  | .next vm => (Xno.ok, vm)
  | .thrown x vm => (x, vm)

/-- What `eel_argf` is given. -/
inductive HostArg where
  | item (item : ArgItem)
  /-- `v`, with a pointer to the value at `i` on the heap. -/
  | heap (i : Nat)

/-- Whatever may grow the heap. -/
inductive Growth where
  /-- An instruction that pushes arguments. -/
  | instr (i : Instr)
  | callEel (fo : ObjId) (result : Option Nat) (levels : Nat)
  /-- `call_c` up to the call of the C function. -/
  | enterC (fo : ObjId) (result : Option Nat)
  | callCatcher (fo : ObjId)
  /-- `eel_vargf`. -/
  | vargf (args : List HostArg)

/-- The instructions that push arguments. -/
def Instr.Pushes : Instr → Prop
  | .push _ | .push2 .. | .push3 .. | .push4 .. | .pushi _ | .phtrue | .phfalse | .pushnil | .pushc _
  | .pushc2 .. | .pushic .. | .pushci .. | .phvar _ | .phuval .. | .pushtup | .phargs | .phargi _
  | .phargi2 .. | .phbop .. | .phbopi .. | .phadd .. | .phsub .. | .phmul .. | .phdiv .. | .phmod ..
  | .phpower .. => True
  | _ => False

/-- What `vm->heap` is like afterwards does not matter to these: they work on the heap by index. -/
def Vm.argfs (vm : Vm) : List HostArg → Vm
  | [] => vm
  | .item item :: args => (vm.argf item).argfs args
  | .heap i :: args => (vm.argf (.copy (vm.store.heap i))).argfs args

/-- What is done, when the heap stays where it is. -/
def Vm.grow (vm : Vm) (E : Env) : Growth → Outcome
  | .instr i => vm.exec E i
  | .callEel fo result levels => .next (vm.callEel E.function fo result levels)
  | .enterC fo result => .next (vm.enterC fo result)
  | .callCatcher fo => .next (vm.callCatcher E.function fo)
  | .vargf args => .next (vm.argfs args)

namespace Mem

variable (A : Realloc) (E : Env) (M : Mem)

/-! ## Instructions -/

/-- `eel_v_copy(S, ..)`, and `vm->sp` goes on. -/
def push (v : Value) : Mem := { M with vm := M.vm.push v }

def pushRaw (v : Value) : Mem := { M with vm := M.vm.pushRaw v }

/-- `PUSH` to `PUSH4`. -/
def pushRegs (as : List Nat) : Option (Xno × Mem) := do
  let M := M.checkStack A as.length
  let vs ← as.mapM M.reg
  return (Xno.ok, vs.foldl push M)

/-- The constants of the function that runs. -/
def constant (a : Nat) : Option Value := do
  let cf ← M.frame
  return M.vm.constant (cf.f.getD 0) a

/-- The loop of `PHARGS` and `PUSHTUP`. -/
def pushArgs (args : Ptr) : Nat → Mem → Option Mem
  | 0, M => some M
  | n + 1, M => do
    let v ← M.read args
    pushArgs ⟨args.block, args.index + 1⟩ n (M.push v)

/-- A pointer to an argument on the heap, or to its default. -/
def argPtr (i : Nat) : Option (Option (Ptr ⊕ Value)) := do
  let cf ← M.frame
  if i < cf.argc then return some (.inl (M.heapPtr (cf.argv + i)))
  else return (M.vm.optargDefault E M.vm.base i).map .inr

/-- What is at either pointer. -/
def readArg : Ptr ⊕ Value → Option Value
  | .inl p => M.read p
  | .inr v => some v

/-- `XCHECK` of an operator whose result goes to `S`. -/
def pushed (r : OpResult) : Xno × Mem :=
  match r with
  | (.ok v, s) => (Xno.ok, { M with vm := ({ M.vm with store := s }).pushRaw v })
  | (.error x, s) => (x, { M with vm := { M.vm with store := s } })

/-- `PHBOP` and the like. -/
def pushOp (op : Operator) (a b : Nat) : Option (Xno × Mem) := do
  let M := M.checkStack A 1
  let v ← M.reg a
  let w ← M.reg b
  return M.pushed (E.operate op v w M.vm.store)

/-- An instruction that pushes arguments. -/
def exec : Instr → Option (Xno × Mem)
  | .push a => M.pushRegs A [a]
  | .push2 a b => M.pushRegs A [a, b]
  | .push3 a b c => M.pushRegs A [a, b, c]
  | .push4 a b c d => M.pushRegs A [a, b, c, d]
  | .pushi a => some (Xno.ok, (M.checkStack A 1).pushRaw (.integer (BitVec.ofInt 32 a)))
  | .phtrue => some (Xno.ok, (M.checkStack A 1).pushRaw (.boolean 1))
  | .phfalse => some (Xno.ok, (M.checkStack A 1).pushRaw (.boolean 0))
  | .pushnil => some (Xno.ok, (M.checkStack A 1).pushRaw .nil)
  | .pushc a => do
    let v ← M.constant a
    return (Xno.ok, (M.checkStack A 1).push v)
  | .pushc2 a b => do
    let v ← M.constant a
    let w ← M.constant b
    return (Xno.ok, ((M.checkStack A 2).push v).push w)
  | .pushic a b => do
    let v ← M.constant a
    return (Xno.ok, ((M.checkStack A 2).pushRaw (.integer (BitVec.ofInt 32 b))).push v)
  | .pushci a b => do
    let v ← M.constant a
    return (Xno.ok, ((M.checkStack A 2).push v).pushRaw (.integer (BitVec.ofInt 32 b)))
  | .phvar a =>
    let M := M.checkStack A 1
    some (Xno.ok, M.push (M.vm.static E a))
  | .phuval a b => do
    let M := M.checkStack A 1
    let v ← M.read (M.heapPtr (M.vm.uvBase b + a))
    return (Xno.ok, M.push v)
  | .phargs => do
    let cf ← M.frame
    if cf.argc = 0 then return (Xno.ok, M)
    else
      let args := M.heapPtr cf.argv
      let M ← pushArgs args cf.argc (M.checkStack A cf.argc)
      return (Xno.ok, M)
  | .pushtup => do
    let cf ← M.frame
    let argc := cf.argc - (E.function (cf.f.getD 0)).reqargs
    if argc = 0 then return (Xno.ok, M)
    else
      let args := M.heapPtr (cf.argv + (E.function (cf.f.getD 0)).reqargs)
      let M ← pushArgs args argc (M.checkStack A argc)
      return (Xno.ok, M)
  | .phargi a => do
    match ← M.argPtr E a with
    | none => return (Xno.highIndex, M)
    | some arg =>
      let M := M.checkStack A 1
      let v ← M.readArg arg
      return (Xno.ok, M.push v)
  | .phargi2 a b => do
    match ← M.argPtr E a, ← M.argPtr E b with
    | some argA, some argB =>
      let M := M.checkStack A 2
      let v ← M.readArg argA
      let w ← M.readArg argB
      return (Xno.ok, (M.push v).push w)
    | _, _ => return (Xno.highIndex, M)
  | .phbop a b c => M.pushOp A E b a c
  | .phbopi a b c => do
    let iv := Value.integer (BitVec.ofInt 32 c)
    let M := M.checkStack A 1
    let v ← M.reg a
    return M.pushed (E.operate b v iv M.vm.store)
  | .phadd a b => M.pushOp A E .add a b
  | .phsub a b => M.pushOp A E .sub a b
  | .phmul a b => M.pushOp A E .mul a b
  | .phdiv a b => M.pushOp A E .div a b
  | .phmod a b => M.pushOp A E .mod a b
  | .phpower a b => M.pushOp A E .power a b
  | _ => none

/-! ## Calls -/

/-- `EEL_MINSTACK`. -/
def minStack : Nat := 32

/-- The growing that `push_frame` starts with. -/
def growFrame (cleansize framesize : Nat) : Mem :=
  M.growHeap A (M.vm.sp + (cleansize + Vm.valueSize) / Vm.valueSize + Vm.cfRegs + framesize + minStack)

/-- The loop of `eel_vargf`. The values that `v` is given are found through pointers into the
block at `block`. -/
def argfs (block : Int) : List HostArg → Mem → Option Mem
  | [], M => some M
  | .item item :: args, M => argfs block args { M with vm := M.vm.argf item }
  | .heap i :: args, M => do
    let v ← M.read ⟨block, i⟩
    argfs block args { M with vm := M.vm.argf (.copy v) }

def grow : Growth → Option (Xno × Mem)
  | .instr i => M.exec A E i
  | .callEel fo result levels =>
    let M := M.growFrame A (E.function fo).cleansize (E.function fo).framesize
    some (Xno.ok, { M with vm := M.vm.callEel E.function fo result levels }.reloadContext)
  | .enterC fo result =>
    let M := M.growFrame A 0 1
    some (Xno.ok, { M with vm := M.vm.enterC fo result })
  | .callCatcher fo =>
    let M := M.growFrame A (E.function fo).cleansize (E.function fo).framesize
    some (Xno.ok, { M with vm := M.vm.callCatcher E.function fo }.reloadContext)
  | .vargf args => do
    let M ← argfs M.block args (M.growHeap A (M.vm.sp + args.length))
    return (Xno.ok, M)

/-! ## Moves -/

/-- The VM loop goes on, with its pointers into the heap. -/
def Stays : Growth → Prop
  | .instr _ | .callEel .. | .callCatcher _ => True
  | .enterC .. | .vargf _ => False

/-- Growing is invisible: no pointer into a block that is gone is used, the state is as if the heap
had not moved, and limbo lists and the pointers of the VM loop are those for the new block. -/
def Invisible (M : Mem) (g : Growth) : Prop :=
  ∃ x M', M.grow A E g = some (x, M') ∧ (x, M'.vm) = (M.vm.grow E g).code ∧ M'.Sound ∧
    (Stays g → M'.Cached)

/-- `realloc` moves the heap when it grows to `minsize`. -/
def Moves (minsize : Nat) : Prop := (M.growHeap A minsize).block ≠ M.block

instance {minsize : Nat} : Decidable (M.Moves A minsize) := inferInstanceAs (Decidable (_ ≠ _))

/-- No argument on the heap is read through a pointer from before a move. -/
def Safe : Growth → Prop
  | .instr .phargs =>
    let argc := (M.vm.callframe M.vm.base).argc
    argc = 0 ∨ ¬ M.Moves A (M.vm.sp + argc)
  | .instr .pushtup =>
    let argc := (M.vm.callframe M.vm.base).argc - (M.vm.fn E).reqargs
    argc = 0 ∨ ¬ M.Moves A (M.vm.sp + argc)
  | .instr (.phargi a) =>
    a < (M.vm.callframe M.vm.base).argc → ¬ M.Moves A (M.vm.sp + 1)
  | .instr (.phargi2 a b) =>
    let argc := (M.vm.callframe M.vm.base).argc
    M.vm.pushedArg E a ≠ none → M.vm.pushedArg E b ≠ none → (a < argc ∨ b < argc) →
      ¬ M.Moves A (M.vm.sp + 2)
  | .vargf args => (∃ i, HostArg.heap i ∈ args) → ¬ M.Moves A (M.vm.sp + args.length)
  | _ => True

/-- Operators leave the limbo lists alone. -/
def KeepsLimbo : Prop := ∀ op v w s, (E.operate op v w s).2.limbo = s.limbo

variable {A E M} {n : Nat} {vm' : Vm} {v w : Value}

theorem Sound.faded (h : M.Sound) (hw : Vm.Within M.vm vm')
    (hl : ∀ b, vm'.store.limbo b ⊆ M.vm.store.limbo b) : ({ M with vm := vm' } : Mem).Sound where
  framed := h.framed.within hw
  called := by
    rw [hw.callframe, hw.base]
    exact h.called
  linked := by
    rw [hw.callframe, hw.base]
    intro b hb
    exact h.linked b fun hnil => hb (List.subset_nil.mp (hnil ▸ hl b))
  size_pos := h.size_pos

theorem Sound.within (h : M.Sound) (hw : Vm.Within M.vm vm')
    (hl : vm'.store.limbo = M.vm.store.limbo) : ({ M with vm := vm' } : Mem).Sound :=
  h.faded hw fun b => congrFun hl b ▸ List.Subset.refl _

theorem Cached.vm (h : M.Cached) (hb : vm'.base = M.vm.base) : ({ M with vm := vm' } : Mem).Cached :=
  ⟨by rw [hb]; exact h.r, by rw [hb]; exact h.cf⟩

theorem Sound.push (h : M.Sound) : (M.push v).Sound :=
  h.within Vm.within_push Store.SameLimbo.copy.limbo

theorem Sound.pushRaw (h : M.Sound) : (M.pushRaw v).Sound := h.within Vm.within_pushRaw rfl

theorem Cached.push (h : M.Cached) : (M.push v).Cached := h.vm rfl

theorem Cached.pushRaw (h : M.Cached) : (M.pushRaw v).Cached := h.vm rfl

/-! ### Instructions -/

/-- What an instruction does, with the pointers of the VM loop kept. -/
def Done (o : Outcome) (r : Option (Xno × Mem)) : Prop :=
  ∃ x M', r = some (x, M') ∧ (x, M'.vm) = o.code ∧ M'.Sound ∧ M'.Cached

theorem done_next {vm : Vm} (h : M.Sound) (hc : M.Cached) (hvm : M.vm = vm) :
    Done (.next vm) (some (Xno.ok, M)) :=
  ⟨Xno.ok, M, rfl, by rw [hvm]; rfl, h, hc⟩

theorem Sound.pushes {vs : List Value} (h : M.Sound) (hc : M.Cached) :
    (vs.foldl Mem.push M).Sound ∧ (vs.foldl Mem.push M).Cached ∧
      (vs.foldl Mem.push M).vm = vs.foldl Vm.push M.vm := by
  induction vs generalizing M with
  | nil => exact ⟨h, hc, rfl⟩
  | cons v vs ih => exact ih h.push hc.push

theorem mapM_reg {as : List Nat} (hc : M.Cached) : as.mapM M.reg = some (as.map M.vm.register) := by
  induction as with
  | nil => rfl
  | cons a as ih =>
    rw [List.mapM_cons, ih, hc.reg]
    rfl

theorem done_pushRegs {as : List Nat} (h : M.Sound) (hc : M.Cached) :
    Done (.next ((as.map M.vm.register).foldl Vm.push M.vm)) (M.pushRegs A as) := by
  obtain ⟨hs, hc', hvm⟩ := @Sound.pushes (M.checkStack A as.length) (as.map M.vm.register)
    h.checkStack hc.checkStack
  unfold pushRegs
  dsimp only
  rw [mapM_reg hc.checkStack, checkStack_vm]
  exact done_next hs hc' (by rw [hvm, checkStack_vm])

theorem constant_eq {a : Nat} (hc : M.Cached) :
    M.constant a = some (M.vm.constant (M.vm.fo M.vm.base) a) := by
  unfold constant
  rw [hc.frame]
  rfl

theorem done_pushed {r : OpResult} (h : M.Sound) (hc : M.Cached)
    (hr : r.2.limbo = M.vm.store.limbo) : Done (M.vm.pushed r) (some (M.pushed r)) := by
  obtain ⟨x | v, s⟩ := r
  · exact ⟨x, _, rfl, rfl, h.within Vm.within_store hr, hc.vm rfl⟩
  · refine ⟨Xno.ok, _, rfl, rfl, ?_, hc.vm rfl⟩
    exact h.within (Vm.within_store.trans Vm.within_pushRaw) hr

theorem done_pushOp {op : Operator} {a b : Nat} (hE : KeepsLimbo E) (h : M.Sound) (hc : M.Cached) :
    Done (M.vm.pushed (E.operate op (M.vm.register a) (M.vm.register b) M.vm.store))
      (M.pushOp A E op a b) := by
  have hpush := done_pushed (r := E.operate op (M.vm.register a) (M.vm.register b) M.vm.store)
    (h.checkStack (A := A) (n := 1)) hc.checkStack (by rw [checkStack_vm]; exact hE ..)
  unfold pushOp
  dsimp only
  rw [hc.checkStack.reg, hc.checkStack.reg]
  simp only [checkStack_vm] at hpush ⊢
  exact hpush

/-- The instructions that use no pointer from before they grow the heap. -/
theorem done_exec {i : Instr} (hE : KeepsLimbo E) (h : M.Sound) (hc : M.Cached) (hi : i.Pushes)
    (hnone : i ≠ .phargs ∧ i ≠ .pushtup ∧ (∀ a, i ≠ .phargi a) ∧ ∀ a b, i ≠ .phargi2 a b) :
    Done (M.vm.exec E i) (M.exec A E i) := by
  have hs₁ : (M.checkStack A 1).Sound := h.checkStack
  have hc₁ : (M.checkStack A 1).Cached := hc.checkStack
  have hs₂ : (M.checkStack A 2).Sound := h.checkStack
  have hc₂ : (M.checkStack A 2).Cached := hc.checkStack
  cases i with
  | push | push2 | push3 | push4 => exact done_pushRegs h hc
  | pushi | phtrue | phfalse | pushnil =>
    exact done_next hs₁.pushRaw hc₁.pushRaw (congrArg (Vm.pushRaw · _) checkStack_vm)
  | pushc a =>
    rw [exec, constant_eq hc]
    exact done_next hs₁.push hc₁.push (congrArg (Vm.push · _) checkStack_vm)
  | pushc2 a b =>
    rw [exec, constant_eq hc, constant_eq hc]
    exact done_next hs₂.push.push hc₂.push.push
      (congrArg (fun vm => (Vm.push vm _).push _) checkStack_vm)
  | pushic a b =>
    rw [exec, constant_eq hc]
    exact done_next hs₂.pushRaw.push hc₂.pushRaw.push
      (congrArg (fun vm => (Vm.pushRaw vm _).push _) checkStack_vm)
  | pushci a b =>
    rw [exec, constant_eq hc]
    exact done_next hs₂.push.pushRaw hc₂.push.pushRaw
      (congrArg (fun vm => (Vm.push vm _).pushRaw _) checkStack_vm)
  | phvar a =>
    exact done_next hs₁.push hc₁.push (congrArg (fun vm => Vm.push vm (vm.static E a)) checkStack_vm)
  | phuval a b =>
    rw [exec, read_heapPtr]
    exact done_next hs₁.push hc₁.push
      (congrArg (fun vm => Vm.push vm (vm.store.heap (vm.uvBase b + a))) checkStack_vm)
  | phbop | phadd | phsub | phmul | phdiv | phmod | phpower => exact done_pushOp hE h hc
  | phbopi a b c =>
    have hpush := done_pushed (r := E.operate b (M.vm.register a) (.integer (BitVec.ofInt 32 c)) M.vm.store)
      hs₁ hc₁ (by rw [checkStack_vm]; exact hE ..)
    rw [exec, hc₁.reg]
    simp only [checkStack_vm] at hpush ⊢
    exact hpush
  | phargs => exact absurd rfl hnone.1
  | pushtup => exact absurd rfl hnone.2.1
  | phargi a => exact absurd rfl (hnone.2.2.1 a)
  | phargi2 a b => exact absurd rfl (hnone.2.2.2 a b)
  | _ => exact hi.elim

/-! ### Arguments read through old pointers -/

theorem checkStack_block : (M.checkStack A n).block = (M.growHeap A (M.vm.sp + n)).block := by
  unfold checkStack
  dsimp only
  split <;> rfl

/-- A pointer from before the heap is grown for `n` items. -/
theorem read_checkStack {i : Nat} :
    (M.checkStack A n).read ⟨M.block, i⟩ =
      if M.Moves A (M.vm.sp + n) then none else some (M.vm.store.heap i) := by
  unfold read
  rw [checkStack_vm, checkStack_block]
  by_cases hmoves : M.Moves A (M.vm.sp + n)
  · rw [if_pos hmoves]
    exact if_neg fun hblock => hmoves hblock.symm
  · rw [if_neg hmoves]
    exact if_pos (not_not.mp hmoves).symm

theorem pushArgs_spec {i : Nat} (h : M.Sound) (hc : M.Cached) :
    ∃ M', pushArgs ⟨M.block, i⟩ n M = some M' ∧ M'.vm = Vm.pushRange i n M.vm ∧ M'.Sound ∧
      M'.Cached := by
  induction n generalizing i M with
  | zero => exact ⟨M, rfl, rfl, h, hc⟩
  | succ n ih =>
    rw [pushArgs, show M.read ⟨M.block, i⟩ = _ from read_heapPtr]
    exact ih h.push hc.push

/-- The arguments from `i` can be pushed exactly if the heap does not move. -/
theorem pushArgs_iff {i : Nat} (h : M.Sound) (hc : M.Cached) (hn : n ≠ 0) :
    Done (.next (Vm.pushRange i n M.vm))
        ((pushArgs ⟨M.block, i⟩ n (M.checkStack A n)).bind fun M => some (Xno.ok, M)) ↔
      ¬ M.Moves A (M.vm.sp + n) := by
  obtain ⟨n, rfl⟩ := Nat.exists_eq_succ_of_ne_zero hn
  by_cases hmoves : M.Moves A (M.vm.sp + (n + 1))
  · refine iff_of_false ?_ (not_not_intro hmoves)
    rw [pushArgs, read_checkStack, if_pos hmoves]
    rintro ⟨x, M', hr, -⟩
    cases hr
  · refine iff_of_true ?_ hmoves
    have hblock : (M.checkStack A (n + 1)).block = M.block := by
      rw [checkStack_block]
      exact not_not.mp hmoves
    obtain ⟨M', hr, hvm, hs', hc'⟩ := pushArgs_spec (n := n + 1) (i := i)
      (h.checkStack (A := A) (n := n + 1)) hc.checkStack
    rw [hblock] at hr
    rw [hr]
    exact done_next hs' hc' (by rw [hvm, checkStack_vm])

theorem argPtr_eq {a : Nat} (hc : M.Cached) :
    M.argPtr E a = some (if a < (M.vm.callframe M.vm.base).argc then
      some (.inl (M.heapPtr ((M.vm.callframe M.vm.base).argv + a)))
      else (M.vm.optargDefault E M.vm.base a).map .inr) := by
  unfold argPtr
  rw [hc.frame]
  change (if _ then _ else _) = _
  split <;> rfl

/-- What `PHARGI` and `PHARGI2` read after they have grown the heap. -/
theorem readArg_checkStack {a : Nat} {arg : Ptr ⊕ Value} (hc : M.Cached)
    (harg : M.argPtr E a = some (some arg)) :
    (M.checkStack A n).readArg arg =
      if a < (M.vm.callframe M.vm.base).argc ∧ M.Moves A (M.vm.sp + n) then none
      else M.vm.pushedArg E a := by
  rw [argPtr_eq hc] at harg
  unfold Vm.pushedArg
  dsimp only
  by_cases ha : a < (M.vm.callframe M.vm.base).argc
  · rw [if_pos ha] at harg ⊢
    cases harg
    refine read_checkStack.trans ?_
    by_cases hmoves : M.Moves A (M.vm.sp + n)
    · rw [if_pos hmoves, if_pos ⟨ha, hmoves⟩]
    · rw [if_neg hmoves, if_neg fun h => hmoves h.2]
  · rw [if_neg ha] at harg ⊢
    rw [if_neg fun h => ha h.1]
    cases hd : M.vm.optargDefault E M.vm.base a with
    | none =>
      rw [hd] at harg
      cases harg
    | some v =>
      rw [hd] at harg
      cases harg
      rfl

theorem argPtr_none_iff {a : Nat} (hc : M.Cached) :
    M.argPtr E a = some none ↔ M.vm.pushedArg E a = none := by
  rw [argPtr_eq hc]
  unfold Vm.pushedArg
  dsimp only
  split
  · exact ⟨fun h => (by cases h), fun h => (by cases h)⟩
  · cases M.vm.optargDefault E M.vm.base a with
    | none => exact ⟨fun _ => rfl, fun _ => rfl⟩
    | some v => exact ⟨fun h => (by cases h), fun h => (by cases h)⟩

theorem phargs_iff (h : M.Sound) (hc : M.Cached) :
    Done (M.vm.exec E .phargs) (M.exec A E .phargs) ↔ M.Safe A E (.instr .phargs) := by
  rw [exec, hc.frame]
  change Done (.next (Vm.pushRange _ _ M.vm)) (if _ then _ else _) ↔ _ ∨ _
  split
  · rename_i hargc
    refine iff_of_true ?_ (.inl hargc)
    rw [hargc]
    exact done_next h hc rfl
  · rename_i hargc
    rw [or_iff_right hargc]
    exact pushArgs_iff h hc hargc

theorem pushtup_iff (h : M.Sound) (hc : M.Cached) :
    Done (M.vm.exec E .pushtup) (M.exec A E .pushtup) ↔ M.Safe A E (.instr .pushtup) := by
  rw [exec, hc.frame]
  change Done (.next (Vm.pushRange _ _ M.vm)) (if _ then _ else _) ↔ _ ∨ _
  split
  · rename_i hargc
    refine iff_of_true ?_ (.inl hargc)
    rw [show (M.vm.callframe M.vm.base).argc - (M.vm.fn E).reqargs = 0 from hargc]
    exact done_next h hc rfl
  · rename_i hargc
    exact (pushArgs_iff h hc hargc).trans (or_iff_right hargc).symm

/-- What a pointer to an argument points to. -/
theorem argPtr_some {a : Nat} (hc : M.Cached) (ha : M.vm.pushedArg E a = some v) :
    ∃ arg, M.argPtr E a = some (some arg) := by
  cases harg : M.argPtr E a with
  | none =>
    rw [argPtr_eq hc] at harg
    cases harg
  | some arg =>
    cases arg with
    | none =>
      rw [(argPtr_none_iff hc).mp harg] at ha
      cases ha
    | some arg => exact ⟨arg, rfl⟩

theorem not_done_none {o : Outcome} : ¬ Done o none := by
  rintro ⟨x, M', hr, -⟩
  cases hr

theorem phargi_iff {a : Nat} (h : M.Sound) (hc : M.Cached) :
    Done (M.vm.exec E (.phargi a)) (M.exec A E (.phargi a)) ↔ M.Safe A E (.instr (.phargi a)) := by
  unfold exec Vm.exec Safe
  dsimp only
  cases ha : M.vm.pushedArg E a with
  | none =>
    rw [(argPtr_none_iff hc).mpr ha]
    refine iff_of_true ⟨_, M, rfl, rfl, h, hc⟩ fun hargc => ?_
    unfold Vm.pushedArg at ha
    dsimp only at ha
    rw [if_pos hargc] at ha
    cases ha
  | some v =>
    obtain ⟨arg, harg⟩ := argPtr_some hc ha
    have hread := readArg_checkStack (A := A) (n := 1) hc harg
    rw [harg]
    change Done _ (((M.checkStack A 1).readArg arg).bind _) ↔ _
    rw [hread, ha]
    by_cases hold : a < (M.vm.callframe M.vm.base).argc ∧ M.Moves A (M.vm.sp + 1)
    · rw [if_pos hold]
      exact iff_of_false not_done_none fun hsafe => hsafe hold.1 hold.2
    · rw [if_neg hold]
      refine iff_of_true ?_ fun hargc hmoves => hold ⟨hargc, hmoves⟩
      exact done_next h.checkStack.push hc.checkStack.push (congrArg (Vm.push · _) checkStack_vm)

theorem phargi2_iff {a b : Nat} (h : M.Sound) (hc : M.Cached) :
    Done (M.vm.exec E (.phargi2 a b)) (M.exec A E (.phargi2 a b)) ↔
      M.Safe A E (.instr (.phargi2 a b)) := by
  unfold exec Vm.exec Safe
  dsimp only
  cases ha : M.vm.pushedArg E a with
  | none =>
    rw [(argPtr_none_iff hc).mpr ha, argPtr_eq hc]
    exact iff_of_true ⟨_, M, rfl, rfl, h, hc⟩ fun hne => absurd rfl hne
  | some v =>
    obtain ⟨argA, hargA⟩ := argPtr_some hc ha
    rw [hargA]
    cases hb : M.vm.pushedArg E b with
    | none =>
      rw [(argPtr_none_iff hc).mpr hb]
      exact iff_of_true ⟨_, M, rfl, rfl, h, hc⟩ fun _ hne => absurd rfl hne
    | some w =>
      obtain ⟨argB, hargB⟩ := argPtr_some hc hb
      have hreadA := readArg_checkStack (A := A) (n := 2) hc hargA
      have hreadB := readArg_checkStack (A := A) (n := 2) hc hargB
      rw [hargB]
      change Done _ (((M.checkStack A 2).readArg argA).bind fun v =>
        ((M.checkStack A 2).readArg argB).bind _) ↔ _
      rw [hreadA, hreadB, ha, hb]
      by_cases hmoves : M.Moves A (M.vm.sp + 2)
      · by_cases hargc : a < (M.vm.callframe M.vm.base).argc ∨ b < (M.vm.callframe M.vm.base).argc
        · refine iff_of_false ?_ fun hsafe => hsafe (Option.some_ne_none v) (Option.some_ne_none w) hargc hmoves
          rcases hargc with hargc | hargc
          · rw [if_pos ⟨hargc, hmoves⟩]
            exact not_done_none
          · rw [show (if b < (M.vm.callframe M.vm.base).argc ∧ M.Moves A (M.vm.sp + 2) then none
              else some w) = none from if_pos ⟨hargc, hmoves⟩]
            cases (if a < (M.vm.callframe M.vm.base).argc ∧ M.Moves A (M.vm.sp + 2) then none
              else some v) <;> exact not_done_none
        · refine iff_of_true ?_ fun _ _ hor => absurd hor hargc
          rw [if_neg fun hand => hargc (.inl hand.1), if_neg fun hand => hargc (.inr hand.1)]
          exact done_next h.checkStack.push.push hc.checkStack.push.push
            (congrArg (fun vm => (Vm.push vm _).push _) checkStack_vm)
      · refine iff_of_true ?_ fun _ _ _ => hmoves
        rw [if_neg fun hand => hmoves hand.2, if_neg fun hand => hmoves hand.2]
        exact done_next h.checkStack.push.push hc.checkStack.push.push
          (congrArg (fun vm => (Vm.push vm _).push _) checkStack_vm)

end Mem

end Eel
