-- SUMMARY: Runs of instructions keep ownership exact, as long as none of them overwrites the last owner of the object it is about to copy.
import Eel.Lib.Machine
import Eel.Vm.CallDiscipline
import Eel.Vm.OwnedExec

/-!
# Owners along runs
-/

namespace Eel

/-- Whatever a step does next, it leaves a state that satisfies `P`. -/
def Step.All (P : Vm → Prop) : Step → Prop
  | .next vm | .leave _ vm | .schedule vm | .call _ _ _ vm => P vm

namespace Vm

variable (E : Env) (L : List ObjId) (vm : Vm)

/-! ## What instructions rely on -/

/-- `R[a]` is a register that becomes a variable. -/
def Fresh (a : Nat) : Prop := vm.Temporary E a ∧ vm.base + a < vm.sbase

/-- The arguments of the frame at `b` are there. -/
def Args (b : Nat) : Prop :=
  ∀ i < (vm.callframe b).argc, vm.store.Live (vm.store.heap ((vm.callframe b).argv + i))

/-- `n` items of the heap from `i` are there, below the top of the argument stack. -/
def Items (i n : Nat) : Prop :=
  ∀ j, i ≤ j → j < i + n → j < vm.sp ∧ vm.store.Live (vm.store.heap j)

/-- What `v` refers to is owned without the owner at `i`, which it is going to replace. -/
def Replaces (i : Nat) (v : Value) : Prop :=
  ∃ Rest, vm.Overwrites E L i Rest ∧ ∀ o, v.obj? = some o → o ∈ Rest

/-- The same for argument `i` of the frame at `b`. -/
def ReplacesArg (b i : Nat) (v : Value) : Prop :=
  i < (vm.callframe b).argc → vm.Replaces E L ((vm.callframe b).argv + i) v

/-- The same for static variable `i`; the module is owned without it as well. -/
def ReplacesStatic (i : Nat) (v : Value) : Prop :=
  i < (vm.store.object (vm.fn E).module).values.length ∧
    ∃ Rest, (vm.store.clearSlot (vm.fn E).module i).Anchored (vm.owning E) L Rest ∧
      (vm.fn E).module ∈ Rest ∧ ∀ o, v.obj? = some o → o ∈ Rest

/-- The same for the exception. -/
def ReplacesException (v : Value) : Prop :=
  ∃ Rest, vm.store.clearException.Anchored (vm.owning E) L Rest ∧ ∀ o, v.obj? = some o → o ∈ Rest

/-- The frame can be left: it has no arguments pending. -/
def Leaves : Prop := vm.sp = vm.sbase ∧ (vm.callframe vm.base).rBase < vm.base

/-- `v` can be returned to the frame at `c`: it is no weak reference on its own, and the
register that wants it is a temporary of EEL code, or the empty result of C code. -/
def Returns (c : Nat) (v : Value) : Prop :=
  vm.store.Live v ∧ (∀ o, v ≠ .weakref o false) ∧
    ∀ ri, (vm.callframe vm.base).result = some ri →
      (InC E.function vm.callframe c → ri ∈ vm.owning E ∧ (vm.store.heap ri).strong? = none) ∧
        (¬ InC E.function vm.callframe c → ri ∉ vm.owning E)

/-- The switch table gives no objects. -/
def SwitchesOn (a b : Nat) : Prop :=
  vm.store.Live (vm.register a) ∧ vm.store.Live (vm.constant (vm.fo vm.base) b) ∧
    ∀ o v s, E.getindex o (vm.register a) vm.store = (.ok v, s) → v.obj? = none

/-- What keeps ownership exact when `i` is executed: it reads what is there, writes
temporaries, makes new registers variables, and where it overwrites an owner, the object
that it copies has another one. -/
def Allows (i : Instr) : Prop :=
  let constant := vm.constant (vm.fo vm.base)
  let live := vm.store.Live
  match i with
  | .illegal | .nop | .jump _ | .jumpz .. | .jumpnz .. | .pushi _ | .phtrue | .phfalse | .pushnil
  | .call _ | .callr .. | .ccall .. | .ccallr .. | .clean _ | .retx => True
  | .«switch» a b _ => vm.SwitchesOn E a b
  | .preloop a b c _ =>
    (vm.base + a ∈ vm.owning E ∨ (vm.register a).strong? = none) ∧
      (vm.Temporary E b ∨ (vm.register b).strong? = none) ∧
      (vm.Temporary E c ∨ (vm.register c).strong? = none)
  | .loop a _ _ _ => vm.base + a ∈ vm.owning E ∨ (vm.register a).strong? = none
  | .push a => live (vm.register a)
  | .push2 a b => live (vm.register a) ∧ live (vm.register b)
  | .push3 a b c => live (vm.register a) ∧ live (vm.register b) ∧ live (vm.register c)
  | .push4 a b c d =>
    live (vm.register a) ∧ live (vm.register b) ∧ live (vm.register c) ∧ live (vm.register d)
  | .pushc a | .pushic a _ | .pushci a _ => live (constant a)
  | .pushc2 a b => live (constant a) ∧ live (constant b)
  | .phvar a => live (vm.static E a)
  | .phuval a b => live (vm.store.heap (vm.uvBase b + a))
  | .pushtup =>
    vm.Items ((vm.callframe vm.base).argv + (vm.fn E).reqargs)
      ((vm.callframe vm.base).argc - (vm.fn E).reqargs)
  | .phargs => vm.Items (vm.callframe vm.base).argv (vm.callframe vm.base).argc
  | .«return» | .retry => vm.Leaves
  | .returnr a => vm.Leaves ∧ vm.Returns E (vm.callframe vm.base).rBase (vm.register a)
  | .argc a | .tupc a | .spec _ a | .tspec _ a | .ldi a _ | .ldtrue a | .ldfalse a | .ldnil a
  | .ldc a _ | .move a _ | .weakref a _ => vm.Temporary E a
  | .init a b => vm.Fresh E a ∧ live (vm.register b)
  | .initi a _ | .initnil a => vm.Fresh E a
  | .initc a b => vm.Fresh E a ∧ live (constant b)
  | .assign a b => vm.Replaces E L (vm.base + a) (vm.register b)
  | .assigni a _ | .asnnil a => vm.base + a ∈ vm.owning E
  | .assignc a b => vm.Replaces E L (vm.base + a) (constant b)
  | .getuval a b c => vm.Temporary E a ∧ live (vm.store.heap (vm.uvBase c + b))
  | .setuval a b c => vm.Replaces E L (vm.uvBase c + b) (vm.register a)
  | .getvar a b => vm.Temporary E a ∧ live (vm.static E b)
  | .setvar a b => vm.ReplacesStatic E L b (vm.register a)
  | .indseti a _ c => live (vm.register a) ∧ live (vm.register c)
  | .indset a b c => live (vm.register a) ∧ live (vm.register b) ∧ live (vm.register c)
  | .indsetc a b c => live (vm.register a) ∧ live (vm.register b) ∧ live (constant c)
  | .indgeti a _ c => vm.Temporary E a ∧ live (vm.register c)
  | .indget a b c => vm.Temporary E a ∧ live (vm.register b) ∧ live (vm.register c)
  | .indgetc a b c => vm.Temporary E a ∧ live (vm.register b) ∧ live (constant c)
  | .getargi a _ | .gettargi a _ _ => vm.Temporary E a ∧ vm.Args vm.base
  | .getuvargi a _ c | .getuvtargi a _ _ c => vm.Temporary E a ∧ vm.Args (vm.uvBase c)
  | .phargi a => ∀ v, vm.pushedArg E a = some v → live v
  | .phargi2 a b =>
    (∀ v, vm.pushedArg E a = some v → live v) ∧ ∀ v, vm.pushedArg E b = some v → live v
  | .setargi a b => vm.ReplacesArg E L vm.base b (vm.register a)
  | .setuvargi a b c => vm.ReplacesArg E L (vm.uvBase c) b (vm.register a)
  | .bop a b _ d | .ipbop a b _ d =>
    vm.Temporary E a ∧ live (vm.register b) ∧ live (vm.register d)
  | .bops a b _ d | .ipbops a b _ d => vm.Temporary E a ∧ live (vm.register b) ∧ live (vm.static E d)
  | .bopc a b _ d => vm.Temporary E a ∧ live (vm.register b) ∧ live (constant d)
  | .add a b c | .sub a b c | .mul a b c | .div a b c | .mod a b c | .power a b c =>
    vm.Temporary E a ∧ live (vm.register b) ∧ live (vm.register c)
  | .bopi a b _ _ | .ipbopi a b _ _ | .neg a b | .bnot a b | .not a b | .castr a b | .casti a b
  | .castb a b | .cast a b _ | .typeof a b | .sizeof a b | .clone a b =>
    vm.Temporary E a ∧ live (vm.register b)
  | .phbop a _ b | .phadd a b | .phsub a b | .phmul a b | .phdiv a b | .phmod a b
  | .phpower a b => live (vm.register a) ∧ live (vm.register b)
  | .phbopi a _ _ => live (vm.register a)
  | .new a _ => vm.Temporary E a ∧ vm.Items vm.sbase (vm.sp - vm.sbase)
  | .«try» _ b => (E.function ((constant b).obj?.getD 0)).cfunc = false
  | .untry a => (E.function ((constant a).obj?.getD 0)).cfunc = false
  | .throw a => vm.ReplacesException E L (vm.register a)
  | .retxr a =>
    (vm.register a).obj? = none ∧ ∀ ri, (vm.callframe vm.base).result = some ri →
      ri ∉ vm.owning E ∨ (vm.store.heap ri).strong? = none

variable {E : Env} {hosts : Bool} {L : List ObjId} {vm : Vm} {a b i n : Nat} {v w : Value} {s : Store}

/-! ## Instructions within a frame -/

namespace Owned

/-- `INIT`: a register gets a value and becomes a variable. -/
theorem initCopy (h : vm.Owned E hosts L) (hrun : InEel E vm) (ha : vm.Fresh E a)
    (hv : vm.store.Live v) :
    ((vm.copyReg a v).addClean a).Owned E hosts L :=
  h.addClean hrun ha.1 ha.2 (h.tidy.copy_cons hv ha.1)

theorem initPlain (h : vm.Owned E hosts L) (hrun : InEel E vm) (ha : vm.Fresh E a)
    (hv : v.obj? = none) :
    ((vm.writeReg a v).addClean a).Owned E hosts L := by
  have hset := (h.writeReg ha.1 hv).tidy
  refine h.addClean hrun ha.1 ha.2 (hset.same (Store.exact_cons.mpr ?_) .refl)
  rw [Store.setHeap_self, Value.strong?_of_obj? hv]
  exact hset.exact

/-- `ASSIGN` and the like. The value is read after the owner has given up what it had. -/
theorem replace {v' : Value} (h : vm.Owned E hosts L) (hr : vm.Replaces E L i v)
    (hv : ∀ o, v'.obj? = some o → v.obj? = some o) :
    ({ vm with store := (vm.store.disown (vm.store.heap i)).copy i v' } : Vm).Owned E hosts L := by
  obtain ⟨Rest, hover, hrest⟩ := hr
  exact h.overwrite hover fun o ho => hrest o (hv o ho)

theorem setvar (h : vm.Owned E hosts L) (hr : vm.ReplacesStatic E L b (vm.register a)) :
    (vm.exec E (.setvar a b)).All fun vm' => vm'.Owned E hosts L := by
  obtain ⟨hlen, Rest, hanch, hmod, hrest⟩ := hr
  exact h.store (h.tidy.setStatic hlen hanch hmod hrest)

theorem weakref (h : vm.Owned E hosts L) (ha : vm.Temporary E a) :
    (vm.exec E (.weakref a b)).All fun vm' => vm'.Owned E hosts L := by
  unfold exec
  dsimp only
  split
  · exact h.writeReg ha rfl
  · exact h.store (h.tidy.setHeap (.inl ha) fun o ho => nomatch ho)
  · exact h

theorem «switch» {c : Int} (hE : E.Counts) (h : vm.Owned E hosts L) (hs : vm.SwitchesOn E a b) :
    (vm.exec E (.«switch» a b c)).All fun vm' => vm'.Owned E hosts L := by
  obtain ⟨ha, hb, hplain⟩ := hs
  unfold exec
  dsimp only
  split
  · rename_i o ho
    have hr := hE.getindex o (vm.register a) vm.store (hb o ho) ha
    have hnone := hplain o
    generalize E.getindex o (vm.register a) vm.store = r at hr hnone
    obtain ⟨x | v, s⟩ := r
    · exact (h.error hr).jump
    · obtain ⟨hown, hstrong⟩ := h.ok hr
      rw [← hstrong, hnone v s rfl] at hown
      have hpc : ∀ n, ({ vm with store := s, pc := n } : Vm).Owned E hosts L :=
        fun n => ⟨⟨hown.stacked.formed, hown.stacked.above⟩, hown.tidy⟩
      cases v with
      | integer offs => exact hpc _
      | _ => exact hown
  · exact h.jump

theorem gettarg {pos : Nat} {tup : Int} (h : vm.Owned E hosts L) (hrun : InEel E vm) (ha : vm.Temporary E a)
    (hargs : vm.Args b) : (vm.gettarg E a b pos tup).All fun vm' => vm'.Owned E hosts L := by
  unfold Vm.gettarg
  dsimp only
  split
  · exact h
  · exact h.getarg hrun ha (hargs _)

theorem new {cid : Nat} (hE : E.Counts) (h : vm.Owned E hosts L) (hrun : InEel E vm) (ha : vm.Temporary E a)
    (hs : vm.Items vm.sbase (vm.sp - vm.sbase)) :
    (vm.exec E (.new a cid)).All fun vm' => vm'.Owned E hosts L := by
  unfold exec
  dsimp only
  have hr := hE.construct cid ((List.range (vm.sp - vm.sbase)).map fun i => vm.store.heap (vm.sbase + i))
    vm.store fun v hv => by
      obtain ⟨j, hj, rfl⟩ := List.mem_map.mp hv
      have hj := List.mem_range.mp hj
      exact (hs _ (Nat.le_add_right _ _) (Nat.add_lt_add_left hj _)).2
  have hrec := h.received hrun ha hr
  generalize vm.received a _ = r at hrec
  cases r with
  | next vm' => exact hrec.stackClear
  | thrown x vm' => exact hrec

theorem jumpIf {c : Prop} [Decidable c] {d : Int} (h : vm.Owned E hosts L) :
    (if c then vm else vm.jump d).Owned E hosts L ∧ (if c then vm.jump d else vm).Owned E hosts L := by
  split
  · exact ⟨h, h.jump⟩
  · exact ⟨h.jump, h⟩

theorem preloop {c : Nat} {d : Int} (h : vm.Owned E hosts L) (ha : vm.Allows E L (.preloop a b c d)) :
    (vm.exec E (.preloop a b c d)).All fun vm' => vm'.Owned E hosts L := by
  obtain ⟨ha, hb, hc⟩ := ha
  unfold exec
  refine h.castLoopVar ha fun vm₁ ra h₁ _ hkeep₁ => ?_
  refine h₁.castLoop (hkeep₁ b hb) fun vm₂ rb h₂ hkeep₂ => ?_
  refine h₂.castLoop (hkeep₂ c (hkeep₁ c hc)) fun vm₃ rc h₃ _ => ?_
  change Owned E (ite _ _ _) hosts L
  split
  · exact h₃.jumpIf.2
  · exact h₃.jumpIf.2

theorem loop {c : Nat} {d : Int} (h : vm.Owned E hosts L) (ha : vm.Allows E L (.loop a b c d)) :
    (vm.exec E (.loop a b c d)).All fun vm' => vm'.Owned E hosts L := by
  unfold exec
  refine h.castLoopVar ha fun vm₁ ra h₁ hreal _ => ?_
  split
  · rename_i rb rc _ _
    have hset : (vm₁.writeReg a (.real (E.realAdd ra rb))).Owned E hosts L :=
      h₁.setHeap (.inr hreal) rfl
    change Owned E (ite _ _ _) hosts L
    split
    · exact hset.jumpIf.1
    · exact hset.jumpIf.1
  · exact h₁

end Owned

theorem exec_owned (hE : E.Counts) (h : vm.Owned E hosts L) (hrun : InEel E vm) {i : Instr}
    (hi : vm.Allows E L i) :
    (vm.exec E i).All fun vm' => vm'.Owned E hosts L := by
  have hprev : ∀ {v : Value}, vm.store.Live v → (vm.push v).Owned E hosts L := h.push
  cases i with
  | nop => exact h
  | jump => exact h.jump
  | jumpz => exact (h.jumpIf).1
  | jumpnz => exact (h.jumpIf).2
  | «switch» => exact h.switch hE hi
  | preloop => exact h.preloop hi
  | loop => exact h.loop hi
  | push => exact hprev hi
  | push2 => exact (hprev hi.1).push (push_live hi.2)
  | push3 =>
    obtain ⟨ha, hb, hc⟩ := hi
    exact ((hprev ha).push (push_live hb)).push (push_live (push_live hc))
  | push4 =>
    obtain ⟨ha, hb, hc, hd⟩ := hi
    have h₃ := ((hprev ha).push (push_live hb)).push (push_live (push_live hc))
    exact h₃.push (push_live (push_live (push_live hd)))
  | pushi => exact h.pushPlain rfl
  | phtrue => exact h.pushPlain rfl
  | phfalse => exact h.pushPlain rfl
  | pushnil => exact h.pushPlain rfl
  | pushc => exact hprev hi
  | pushc2 => exact (hprev hi.1).push (push_live hi.2)
  | pushic => exact Owned.push (h.pushPlain rfl) hi
  | pushci => exact (hprev hi).pushPlain rfl
  | phvar => exact hprev hi
  | phuval => exact hprev hi
  | pushtup => exact h.pushRange hi
  | phargs => exact h.pushRange hi
  | clean => exact h.clean hrun
  | argc => exact h.writeReg hi rfl
  | tupc => exact h.writeReg hi rfl
  | spec => exact h.writeReg hi rfl
  | tspec =>
    unfold exec
    dsimp only
    split
    · exact h
    · exact h.writeReg hi rfl
  | ldi => exact h.writeReg hi rfl
  | ldtrue => exact h.writeReg hi rfl
  | ldfalse => exact h.writeReg hi rfl
  | ldnil => exact h.writeReg hi rfl
  | ldc => exact h.qcopyReg hi
  | move => exact h.qcopyReg hi
  | init => exact h.initCopy hrun hi.1 hi.2
  | initi => exact h.initPlain hrun hi rfl
  | initnil => exact h.initPlain hrun hi rfl
  | initc => exact h.initCopy hrun hi.1 hi.2
  | assign => exact h.replace hi fun _ ho => Store.fades_disown.heap_obj? ho
  | assigni => exact h.overwritePlain hi rfl
  | asnnil => exact h.overwritePlain hi rfl
  | assignc => exact h.replace hi fun _ ho => Store.fades_disown.slot_obj? ho
  | getuval => exact h.grab hrun hi.1 hi.2
  | setuval => exact h.replace hi fun _ ho => Store.fades_disown.heap_obj? ho
  | getvar => exact h.grab hrun hi.1 hi.2
  | setvar => exact h.setvar hi
  | indseti => exact h.indset hE hi.1 hi.2 fun _ ho => nomatch ho
  | indgeti => exact h.indget hE hrun hi.1 hi.2 fun _ ho => nomatch ho
  | indset => exact h.indset hE hi.1 hi.2.2 hi.2.1
  | indget => exact h.indget hE hrun hi.1 hi.2.2 hi.2.1
  | indsetc => exact h.indset hE hi.1 hi.2.1 hi.2.2
  | indgetc => exact h.indget hE hrun hi.1 hi.2.1 hi.2.2
  | getargi => exact h.getarg hrun hi.1 (hi.2 _)
  | phargi =>
    unfold exec
    dsimp only
    split
    · exact hprev (hi _ ‹_›)
    · exact h
  | phargi2 =>
    unfold exec
    dsimp only
    split
    · exact (hprev (hi.1 _ ‹_›)).push (push_live (hi.2 _ ‹_›))
    · exact h
  | setargi => exact h.setarg hi
  | gettargi => exact h.gettarg hrun hi.1 hi.2
  | getuvargi => exact h.getarg hrun hi.1 (hi.2 _)
  | setuvargi => exact h.setarg hi
  | getuvtargi => exact h.gettarg hrun hi.1 hi.2
  | bop => exact h.received hrun hi.1 (hE.operate _ _ _ _ hi.2.1 hi.2.2)
  | phbop => exact h.pushedResult (hE.operate _ _ _ _ hi.1 hi.2)
  | ipbop => exact h.received hrun hi.1 (hE.ipoperate _ _ _ _ hi.2.1 hi.2.2)
  | bops => exact h.received hrun hi.1 (hE.operate _ _ _ _ hi.2.1 hi.2.2)
  | ipbops => exact h.received hrun hi.1 (hE.ipoperate _ _ _ _ hi.2.1 hi.2.2)
  | bopi => exact h.received hrun hi.1 (hE.operate _ _ _ _ hi.2 fun _ ho => nomatch ho)
  | phbopi => exact h.pushedResult (hE.operate _ _ _ _ hi fun _ ho => nomatch ho)
  | ipbopi => exact h.received hrun hi.1 (hE.ipoperate _ _ _ _ hi.2 fun _ ho => nomatch ho)
  | bopc => exact h.received hrun hi.1 (hE.operate _ _ _ _ hi.2.1 hi.2.2)
  | neg => exact h.result hi.1 (hE.plain _ (by decide) _ _ hi.2)
  | bnot => exact h.result hi.1 (hE.plain _ (by decide) _ _ hi.2)
  | not => exact h.result hi.1 (hE.plain _ (by decide) _ _ hi.2)
  | castr => exact h.received hrun hi.1 (hE.unary _ _ _ hi.2)
  | casti => exact h.received hrun hi.1 (hE.unary _ _ _ hi.2)
  | castb => exact h.received hrun hi.1 (hE.unary _ _ _ hi.2)
  | cast =>
    unfold exec
    dsimp only
    split
    · exact h.received hrun hi.1 (hE.cast _ _ _ hi.2)
    · exact h
  | typeof => exact h.result hi.1 (hE.plain _ (by decide) _ _ hi.2)
  | sizeof => exact h.result hi.1 (hE.plain _ (by decide) _ _ hi.2)
  | weakref => exact h.weakref hi
  | add => exact h.received hrun hi.1 (hE.operate _ _ _ _ hi.2.1 hi.2.2)
  | sub => exact h.received hrun hi.1 (hE.operate _ _ _ _ hi.2.1 hi.2.2)
  | mul => exact h.received hrun hi.1 (hE.operate _ _ _ _ hi.2.1 hi.2.2)
  | div => exact h.received hrun hi.1 (hE.operate _ _ _ _ hi.2.1 hi.2.2)
  | mod => exact h.received hrun hi.1 (hE.operate _ _ _ _ hi.2.1 hi.2.2)
  | power => exact h.received hrun hi.1 (hE.operate _ _ _ _ hi.2.1 hi.2.2)
  | phadd => exact h.pushedResult (hE.operate _ _ _ _ hi.1 hi.2)
  | phsub => exact h.pushedResult (hE.operate _ _ _ _ hi.1 hi.2)
  | phmul => exact h.pushedResult (hE.operate _ _ _ _ hi.1 hi.2)
  | phdiv => exact h.pushedResult (hE.operate _ _ _ _ hi.1 hi.2)
  | phmod => exact h.pushedResult (hE.operate _ _ _ _ hi.1 hi.2)
  | phpower => exact h.pushedResult (hE.operate _ _ _ _ hi.1 hi.2)
  | new => exact h.new hE hrun hi.1 hi.2
  | clone => exact h.received hrun hi.1 (hE.unary _ _ _ hi.2)
  | _ => exact h

/-! ## Calls, returns and exceptions -/

/-- An instruction, up to where a C function is called or the scheduler takes over. -/
def after (E : Env) (vm : Vm) (i : Instr) : Unit × Vm :=
  match ({ vm with pc := vm.pc + i.size } : Vm).execute E i with
  | .next vm' | .leave _ vm' | .schedule vm' => ((), vm')
  | .call fo result levels vm' =>
    ((), if (E.function fo).cfunc then vm' else vm'.callEel E.function fo result levels)

@[simp] theorem popFrame_base : vm.popFrame.base = (vm.callframe vm.base).rBase := by
  unfold popFrame
  rw [stackClear_base]

@[simp] theorem popFrame_callframe : vm.popFrame.callframe = vm.callframe := by
  unfold popFrame
  rw [stackClear_callframe]
  rfl

theorem copy_ne_weakref {o : ObjId} (h : ∀ o, v ≠ .weakref o false) : v.copy ≠ .weakref o true := by
  cases v with
  | weakref o' wired =>
    cases wired with
    | false => exact absurd rfl (h o')
    | true => exact Value.noConfusion
  | _ => exact Value.noConfusion

theorem copy_obj? (h : ∀ o, v ≠ .weakref o false) : v.copy.obj? = v.copy.strong? := by
  cases v with
  | weakref o' wired =>
    cases wired with
    | false => exact absurd rfl (h o')
    | true => rfl
  | _ => rfl

theorem uvBase_pc {pc level : Nat} : uvBase { vm with pc := pc } level = vm.uvBase level := by
  induction level with
  | zero => rfl
  | succ level ih =>
    unfold uvBase
    rw [ih]

theorem allows_pc {i : Instr} {pc : Nat} :
    Allows E L { vm with pc := pc } i ↔ vm.Allows E L i := by
  cases i with
  | phuval =>
    unfold Allows
    dsimp only
    rw [uvBase_pc]
  | getuval | setuval | getuvargi | setuvargi | getuvtargi =>
    unfold Allows
    dsimp only
    rw [uvBase_pc]
    exact Iff.rfl
  | _ => exact Iff.rfl

theorem survives_fades {s : Store} : Survives fun s' => Store.Fades s s' where
  disown _ _ hs := hs.trans Store.fades_disown
  unlink _ _ hs := hs.trans Store.fades_limboUnlink

theorem stackClear_fades : Store.Fades vm.store vm.stackClear.store :=
  survives_fades.stackClear .refl

theorem popFrame_fades : Store.Fades vm.store vm.popFrame.store := by
  unfold popFrame
  refine survives_fades.stackClear ?_
  exact survives_fades.release Store.Fades.refl

namespace Owned

theorem throwXno {x : Xno} (h : vm.Owned E hosts L) : (vm.throwXno x).Owned E hosts L :=
  h.store (h.tidy.setException (v := .integer x) Store.anchored_empty fun _ ho => nomatch ho)

theorem throwValue (h : vm.Owned E hosts L) (hv : vm.ReplacesException E L v) :
    (vm.throwValue v).Owned E hosts L := by
  obtain ⟨Rest, hanch, hrest⟩ := hv
  exact h.store (h.tidy.setException hanch hrest)

/-- A result for EEL code is owned by nobody while the frame is left. -/
theorem copyResult (h : vm.Owned E hosts L) (hv : vm.store.Live v) (hi : i ∉ vm.owning E) :
    ({ vm with store := vm.store.copy i v } : Vm).Owned E hosts (v.copy.strong?.toList ++ L) :=
  h.store (h.tidy.copy hv (.inl hi))

/-- A result for C code is owned by its register. -/
theorem copyHost (h : vm.Owned E hosts L) (hv : vm.store.Live v) (hi : i ∈ vm.owning E)
    (hnone : (vm.store.heap i).strong? = none) :
    ({ vm with store := vm.store.copy i v } : Vm).Owned E hosts L := by
  have hout : i ∉ (vm.owning E).erase i := h.stacked.owning_nodup.not_mem_erase
  have hperm := h.tidy.perm (List.perm_cons_erase hi).symm
  have hex := Store.exact_cons.mp hperm.exact
  rw [hnone] at hex
  have hcopy := (hperm.same hex .refl).copy_cons hv hout
  exact h.store (hcopy.perm (List.perm_cons_erase hi))

/-- `CALL` and `CALLR`, up to the call. -/
theorem stepCall {ref : Value} {result : Option Nat} (h : vm.Owned E hosts L) :
    (vm.stepCall E ref result).All fun vm' => vm'.Owned E hosts L := by
  unfold Vm.stepCall
  split
  · exact h.throwXno
  · split
    · exact h
    · exact h.throwXno

theorem stepReturn (h : vm.Owned E hosts L) (hrun : InEel E vm) (hl : vm.Leaves) :
    (vm.stepReturn E).All fun vm' => vm'.Owned E hosts L := by
  have hpop := h.popFrame hrun hl.1 hl.2
  unfold Vm.stepReturn
  dsimp only
  split
  · exact hpop
  · exact hpop

theorem stepReturnr (h : vm.Owned E hosts L) (hrun : InEel E vm) (hl : vm.Leaves)
    (hv : vm.Returns E (vm.callframe vm.base).rBase (vm.register a)) :
    (vm.stepReturnr E a).All fun vm' => vm'.Owned E hosts L := by
  obtain ⟨hlive, hweak, hresult⟩ := hv
  unfold Vm.stepReturnr
  split
  · exact h.stepReturn hrun hl
  · rename_i ri hri
    obtain ⟨hhost, heel⟩ := hresult ri hri
    have hfades := @popFrame_fades { vm with store := vm.store.copy ri (vm.register a) }
    have hcalled : ∀ vm' : Vm, vm'.base = (vm.callframe vm.base).rBase →
        vm'.callframe = vm.callframe →
        ((vm'.base = 0 ∨ (vm'.callframe vm'.base).isCFunc E.function = true) ↔ InC E.function vm.callframe (vm.callframe vm.base).rBase) := by
      intro vm' hbase hframe
      rw [hframe, hbase]
      exact Iff.rfl
    have hcalled := hcalled (Vm.popFrame { vm with store := vm.store.copy ri (vm.register a) })
      popFrame_base popFrame_callframe
    by_cases hc : InC E.function vm.callframe (vm.callframe vm.base).rBase
    · obtain ⟨hmem, hnone⟩ := hhost hc
      have hpop := (h.copyHost hlive hmem hnone).popFrame hrun hl.1 hl.2
      unfold Vm.stepReturn
      dsimp only
      rw [if_pos (hcalled.mpr hc)]
      exact hpop
    · have hpop := (h.copyResult hlive (heel hc)).popFrame hrun hl.1 hl.2
      unfold Vm.stepReturn
      dsimp only
      rw [if_neg fun hcond => hc (hcalled.mp hcond)]
      have hback : InEel E (Vm.popFrame { vm with store := vm.store.copy ri (vm.register a) }) :=
        ⟨fun h0 => hc (hcalled.mp (.inl h0)), Bool.eq_false_iff.mpr fun hC => hc (hcalled.mp (.inr hC))⟩
      generalize Vm.popFrame { vm with store := vm.store.copy ri (vm.register a) } = vm' at hpop hfades hback
      -- The result is a strong reference, which does not fade.
      have hcopy : vm'.store.heap ri = (vm.register a).copy := by
        rcases hfades.heap ri with hsame | ⟨-, o, ho⟩
        · exact hsame.trans Store.copy_self
        · rw [show _ = _ from Store.copy_self] at ho
          exact absurd ho (copy_ne_weakref hweak)
      refine hpop.store ?_
      rw [hcopy]
      exact hpop.tidy.receive (copy_obj? hweak) hback.base_mem

/-- `RETRY`: the arguments of the caller stay. -/
theorem retry (h : vm.Owned E hosts L) (hrun : InEel E vm) (hl : vm.Leaves) : vm.retry.Owned E hosts L := by
  obtain ⟨hown, hnil⟩ := h.release hrun
  have hret := @Owned.returned _ _ vm.release _ hown hrun hl.1 release_cleantab hnil hl.2
  exact ⟨⟨hret.stacked.formed, hret.stacked.above⟩, hret.tidy⟩

end Owned

theorem execute_owned (hE : E.Counts) (h : vm.Owned E hosts L) (hrun : InEel E vm) {i : Instr}
    (hi : vm.Allows E L i) :
    (vm.execute E i).All fun vm' => vm'.Owned E hosts L := by
  cases i with
  | call => exact h.stepCall
  | callr => exact h.stepCall
  | ccall => exact h
  | ccallr => exact h
  | «return» => exact h.stepReturn hrun hi
  | returnr => exact h.stepReturnr hrun hi.1 hi.2
  | «try» => exact (h.enterBlock hi).1
  | untry => exact (h.enterBlock hi).1
  | throw => exact h.throwValue hi
  | retry => exact h.retry hrun hi
  | retx => exact h.throwXno
  | retxr a =>
    obtain ⟨hplain, hslot⟩ := hi
    unfold execute
    dsimp only
    split
    · exact h.throwXno
    · rename_i ri hri
      have hcopy : vm.store.copy ri (vm.register a) = vm.store.setHeap ri (vm.register a) := by
        cases hv : vm.register a with
        | objref | weakref => rw [hv] at hplain; cases hplain
        | _ => rfl
      rw [hcopy]
      have hset : ({ vm with store := vm.store.setHeap ri (vm.register a) } : Vm).Owned E hosts L :=
        h.setHeap (hslot ri hri) hplain
      exact hset.throwXno
  | _ =>
    have hexec := exec_owned hE h hrun hi
    unfold execute
    dsimp only
    split
    · rename_i vm' heq
      rw [heq] at hexec
      exact hexec
    · rename_i x vm' heq
      rw [heq] at hexec
      exact Owned.throwXno hexec

/-- Ownership is counted exactly along every run whose instructions are allowed. -/
theorem run_owned (hE : E.Counts) (h : vm.Owned E hosts L) {is : List Instr}
    (his : Machine.Along (after E) (fun vm i => InEel E vm ∧ vm.Allows E L i) vm is) :
    (Machine.run (after E) vm is).2.Owned E hosts L := by
  have hstep : ∀ vm i, Owned E vm hosts L → InEel E vm ∧ Allows E L vm i → Owned E (after E vm i).2 hosts L := by
    intro vm i h hi
    have hpc : ({ vm with pc := vm.pc + i.size } : Vm).Owned E hosts L :=
      ⟨⟨h.stacked.formed, h.stacked.above⟩, h.tidy⟩
    have hexec := execute_owned hE hpc hi.1 (allows_pc.mpr hi.2)
    unfold after
    generalize ({ vm with pc := vm.pc + i.size } : Vm).execute E i = st at hexec
    cases st with
    | call fo result levels vm' =>
      dsimp only
      split
      · exact hexec
      · rename_i hfo
        exact (Owned.callEel hexec (Bool.not_eq_true _ ▸ hfo)).1
    | _ => exact hexec
  exact Machine.run_inv hstep h his

/-! ### A variable assigned to itself -/

theorem bareEnv_counts {code : Nat → Instr} : (bareEnv code).Counts where
  operate _ _ _ _ _ _ _ _ _ h := h
  ipoperate _ _ _ _ _ _ _ _ _ h := h
  unary _ _ _ _ _ _ _ h := h
  plain _ _ _ _ _ := ⟨fun _ _ _ h => h, fun _ _ h => nomatch h⟩
  cast _ _ _ _ _ _ _ h := h
  construct _ _ _ _ _ _ _ h := h
  getindex _ _ _ _ _ _ _ _ h := h
  setindex _ _ _ _ _ _ _ _ _ _ h := h

/-- A function, object 0, with one variable, which is the only owner of object 1. -/
def oneVariable : Vm where
  store :=
    { heap := fun i => if i = 5 then .objref 1 else .nil
      object := fun o =>
        { refcount := if o < 2 then 1 else 0, values := [], cls := none, limbo := none,
          refuses := false, freed := decide (2 ≤ o) }
      limbo := fun _ => []
      exception := .nil
      next := 2 }
  base := 5
  sp := 7
  sbase := 7
  pc := 0
  resv := 0
  argv := 0
  argc := 0
  callframe _ := { plainFrame 0 0 with rSbase := 1, rSp := 1 }
  cleantab b := if b = 5 then [0] else []
  log := []

theorem oneVariable_frames : oneVariable.frames = [⟨5, 7, 7⟩, ⟨0, 1, 1⟩] := by
  unfold frames
  rw [callers_eq, if_pos (by decide), callers_eq, if_neg (by decide)]
  rfl

theorem oneVariable_owning {code : Nat → Instr} : oneVariable.owning (bareEnv code) = [5, 0] := by
  unfold owning
  rw [oneVariable_frames]
  rfl

/-- The host refers to the function. -/
theorem oneVariable_owned {code : Nat → Instr} {hosts : Bool} : oneVariable.Owned (bareEnv code) hosts [0] where
  stacked := by
    refine ⟨fun a ha => ?_, ?_⟩
    · rw [oneVariable_frames] at ha
      rcases List.mem_cons.mp ha with rfl | ha
      · exact ⟨by decide, by decide, List.nodup_singleton 5, fun r hr => by
          cases List.mem_singleton.mp hr
          decide⟩
      · cases List.mem_singleton.mp ha
        exact ⟨by decide, by decide, List.nodup_singleton 0, fun r hr => by
          cases List.mem_singleton.mp hr
          decide⟩
    · rw [oneVariable_frames]
      exact List.pairwise_pair.mpr (by decide)
  tidy := by
    rw [oneVariable_owning]
    have howners : ∀ o, oneVariable.store.owners [5, 0] [0] o =
        (if 1 = o then 1 else 0) + if 0 = o then 1 else 0 := by
      intro o
      have hslot : oneVariable.store.slotCount o = 0 := rfl
      have hheld : oneVariable.store.heldAt [5, 0] = [1] := rfl
      unfold Store.owners
      rw [hslot, hheld]
      simp only [List.count_cons, List.count_nil, beq_iff_eq]
      change 0 + _ + 0 + 0 + 0 + _ = _
      omega
    refine ⟨⟨fun o ho => ?_, fun o ho => ?_, fun o ho => decide_eq_true ho, ?_⟩, ⟨fun b o => ?_, fun b => ?_⟩,
      fun b _ => rfl⟩
    · have hlt : o < 2 := by simpa [oneVariable] using ho
      rw [howners]
      match o, hlt with
      | 0, _ => rfl
      | 1, _ => rfl
    · have hle : 2 ≤ o := of_decide_eq_true ho
      have hne : ∀ n < 2, n ≠ o := fun n hn => Nat.ne_of_lt (Nat.lt_of_lt_of_le hn hle)
      rw [howners, if_neg (hne 1 (by decide)), if_neg (hne 0 (by decide))]
    · rintro o (⟨i, hi⟩ | hx | ⟨o', hv⟩)
      · change (if i = 5 then Value.objref 1 else .nil) = _ at hi
        split at hi <;> cases hi
      · cases hx
      · cases hv
    · exact ⟨fun h => (nomatch h), fun h => (nomatch h)⟩
    · exact List.nodup_nil

/-- Pushing a variable and cleaning it up. -/
theorem run_owned_push :
    (Machine.run (after (bareEnv fun _ => .nop)) oneVariable [.push 0, .pushnil, .clean 0]).2.Owned
      (bareEnv fun _ => .nop) true [0] :=
  run_owned bareEnv_counts oneVariable_owned
    ⟨⟨⟨by decide, rfl⟩, fun o ho => by cases ho; rfl⟩, ⟨⟨by decide, rfl⟩, trivial⟩,
      ⟨⟨by decide, rfl⟩, trivial⟩, trivial⟩

/-- Assigning the variable to itself destroys its object. -/
theorem not_owned_assign_self :
    oneVariable.Owned (bareEnv fun _ => .nop) true [0] ∧
      (after (bareEnv fun _ => .nop) oneVariable (.assign 0 0)).2.register 0 = .objref 1 ∧
      ((after (bareEnv fun _ => .nop) oneVariable (.assign 0 0)).2.store.object 1).freed = true ∧
      ¬ (after (bareEnv fun _ => .nop) oneVariable (.assign 0 0)).2.Owned (bareEnv fun _ => .nop) true [0] := by
  refine ⟨oneVariable_owned, rfl, rfl, fun h => ?_⟩
  have hdead := h.tidy.exact.dead 1 rfl
  have hmem : 5 ∈ (after (bareEnv fun _ => .nop) oneVariable (.assign 0 0)).2.owning
      (bareEnv fun _ => .nop) := by
    rw [owning_eq]
    exact List.mem_append_right _ (List.mem_append_left _ (List.mem_singleton.mpr rfl))
  have hheld : 1 ∈ (after (bareEnv fun _ => .nop) oneVariable (.assign 0 0)).2.store.heldAt
      ((after (bareEnv fun _ => .nop) oneVariable (.assign 0 0)).2.owning (bareEnv fun _ => .nop)) :=
    List.mem_filterMap.mpr ⟨5, hmem, rfl⟩
  have hpos := List.count_pos_iff.mpr hheld
  unfold Store.owners at hdead
  omega

end Vm

end Eel
