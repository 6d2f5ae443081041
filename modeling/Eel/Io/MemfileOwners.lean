-- SUMMARY: Who owns the buffer of a memory file, from its construction to its end.
import Eel.Io.Memfile
import Mathlib.Logic.Function.Basic

/-!
# Owners of buffers

A memory file owns the dynamic string that is its buffer, as others may. Accesses to an object
that is gone have no result.
-/

namespace Eel

namespace Io

/-- A dynamic string in memory. -/
inductive DsState where
  | absent
  | alive (refcount : Nat) (ds : Buffer Byte)
  | gone

/-- Dynamic strings, a memory file, and the counted references that others have. -/
structure BufferWorld where
  ds : ObjId → DsState
  /-- How often the destructor of a dynamic string has run. -/
  destroyed : ObjId → Nat
  others : ObjId → Nat
  /-- No memory file, or one that has a buffer and a position unless it is closed. -/
  file : Option (Option (ObjId × Int))
  /-- Where the next object goes. -/
  next : ObjId

inductive BufferAnswer where
  | done
  | number (n : Int)
  | dstring (o : ObjId)
  | io (r : MemfileResult)

/-- What happens to the memory file, and what others do with dynamic strings. -/
inductive BufferOp where
  | create (ds : Buffer Byte)
  | share (o : ObjId)
  | drop (o : ObjId)
  | construct
  | constructFrom (o : ObjId)
  | getPosition
  | getBuffer
  | setPosition (iv : Int)
  | setBuffer (o : ObjId)
  | length
  | io (op : MemfileOp)
  | close
  | destruct

namespace BufferWorld

def setDs (w : BufferWorld) (o : ObjId) (d : DsState) : BufferWorld := { w with ds := Function.update w.ds o d }

/-- `eel_own`. -/
def own (w : BufferWorld) (o : ObjId) : Option BufferWorld :=
  match w.ds o with
  | .alive n ds => some (w.setDs o (.alive (n + 1) ds))
  | _ => none

/-- `eel_disown`, with the destructor. -/
def disown (w : BufferWorld) (o : ObjId) : Option BufferWorld :=
  match w.ds o with
  | .alive (n + 1) ds =>
    if n = 0 then some { w.setDs o .gone with destroyed := Function.update w.destroyed o (w.destroyed o + 1) }
    else some (w.setDs o (.alive n ds))
  | _ => none

/-- `eel_free`, without a destructor. -/
def free (w : BufferWorld) (o : ObjId) : Option BufferWorld :=
  match w.ds o with
  | .alive .. => some (w.setDs o .gone)
  | _ => none

/-- `eel_ds_nnew`. -/
def dsNew (w : BufferWorld) (ds : Buffer Byte) : BufferWorld :=
  { w.setDs w.next (.alive 1 ds) with next := w.next + 1 }

/-- `eel_ds_new(vm, "")`. -/
def emptyDs : Buffer Byte := ⟨0, 1, [some 0]⟩

/-- The `EEL_memfile`, when it is open. -/
def memfile? (w : BufferWorld) (buffer : ObjId) (position : Int) : Option Memfile :=
  match w.ds buffer with
  | .alive _ ds => some ⟨ds, position⟩
  | _ => none

/-- What an operation does with an open file, or one that is closed, through `mf->buffer`. -/
def withFile (w : BufferWorld) (f : ObjId → Int → Option (Except Xno BufferAnswer × BufferWorld)) :
    Option (Except Xno BufferAnswer × BufferWorld) :=
  match w.file with
  | none => none
  | some none => some (.error Xno.fileClosed, w)
  | some (some (buffer, position)) => f buffer position

/-- A step. What others do not own they have no way to. -/
def step (w : BufferWorld) : BufferOp → Option (Except Xno BufferAnswer × BufferWorld)
  | .create ds => some (.ok (.dstring w.next),
      { w.dsNew ds with others := Function.update w.others w.next (w.others w.next + 1) })
  | .share o =>
    (w.own o).map fun w => (.ok .done, { w with others := Function.update w.others o (w.others o + 1) })
  | .drop o =>
    (w.disown o).map fun w => (.ok .done, { w with others := Function.update w.others o (w.others o - 1) })
  | .construct => some (.ok .done, { w.dsNew emptyDs with file := some (some (w.next, 0)) })
  | .constructFrom o => (w.own o).map fun w => (.ok .done, { w with file := some (some (o, 0)) })
  | .getPosition => w.withFile fun _ position => some (.ok (.number position), w)
  | .getBuffer => w.withFile fun o _ =>
    (w.own o).map fun w => (.ok (.dstring o), { w with others := Function.update w.others o (w.others o + 1) })
  | .setPosition iv => w.withFile fun o position =>
    (w.memfile? o position).map fun mf =>
      match mf.setPosition iv with
      | (x, mf) => (if x = Xno.ok then .ok .done else .error x, { w with file := some (some (o, mf.position)) })
  | .setBuffer o =>
    match w.file with
    | none => none
    | some none => (w.own o).map fun w => (.ok .done, { w with file := some (some (o, 0)) })
    | some (some (buffer, _)) =>
      (w.disown buffer).bind fun w => (w.own o).map fun w => (.ok .done, { w with file := some (some (o, 0)) })
  | .length => w.withFile fun o position =>
    (w.memfile? o position).map fun mf => (.ok (.number mf.buffer.length), w)
  | .io op => w.withFile fun o position =>
    match w.ds o with
    | .alive n ds =>
      (Memfile.perform ⟨ds, position⟩ op).map fun (r, mf) =>
        (.ok (.io r), { w.setDs o (.alive n mf.buffer) with file := some (some (o, mf.position)) })
    | _ => none
  | .close => w.withFile fun o _ => (w.free o).map fun w => (.ok .done, { w with file := some none })
  | .destruct =>
    match w.file with
    | none => none
    | some none => some (.ok .done, { w with file := none })
    | some (some (buffer, _)) => (w.disown buffer).map fun w => (.ok .done, { w with file := none })

/-! ## What is to hold -/

/-- The references of the file to a dynamic string. -/
def held (w : BufferWorld) (o : ObjId) : Nat :=
  match w.file with
  | some (some (buffer, _)) => if buffer = o then 1 else 0
  | _ => 0

/-- A dynamic string is alive as long as it has owners, which are counted, and has been destroyed once when it has
none anymore. -/
def Counted (owners destroyed : Nat) : DsState → Prop
  | .absent => owners = 0 ∧ destroyed = 0
  | .alive n _ => n = owners ∧ 0 < n ∧ destroyed = 0
  | .gone => owners = 0 ∧ destroyed = 1

structure Inv (w : BufferWorld) : Prop where
  counted : ∀ o, Counted (w.others o + w.held o) (w.destroyed o) (w.ds o)
  absent : ∀ o, w.next ≤ o → w.ds o = .absent

/-- What can happen: others give up and share what they own, a file is constructed when there is none, its buffer is a
dynamic string that there is, and reads and writes come to an end. -/
def Possible (w : BufferWorld) : BufferOp → Prop
  | .create _ => True
  | .share o | .drop o => 0 < w.others o
  | .construct => w.file = none
  | .constructFrom o => w.file = none ∧ ∃ n ds, w.ds o = .alive n ds
  | .setBuffer o => w.file ≠ none ∧ ∃ n ds, w.ds o = .alive n ds
  | .io op => w.file ≠ none ∧ ∀ o position mf, w.file = some (some (o, position)) → w.memfile? o position = some mf →
      (mf.perform op).isSome
  | _ => w.file ≠ none

/-- Operations that are accesses to a memory file. -/
def IsAccess : BufferOp → Prop
  | .create _ | .share _ | .drop _ | .construct | .constructFrom _ | .destruct => False
  | _ => True

/-- The only dynamic string that an operation may change. -/
def Writes (w : BufferWorld) (o : ObjId) : BufferOp → Prop
  | .io _ => w.held o = 1
  | _ => False

/-- A step keeps the counts right, and what has owners then as it was. A closed file refuses accesses. -/
def Conforms (w : BufferWorld) (op : BufferOp) : Prop :=
  ∃ result w', w.step op = some (result, w') ∧ w'.Inv ∧
    (w.file = some none → IsAccess op → result = .error Xno.fileClosed ∧ w' = w) ∧
    ∀ o n ds, w.ds o = .alive n ds → 0 < w'.others o + w'.held o →
      ∃ n' ds', w'.ds o = .alive n' ds' ∧ (ds' = ds ∨ w.Writes o op)

/-- An open file is not closed, and its buffer is not replaced by itself if nobody else owns it. The buffer of a closed
file is not replaced. -/
def Fine (w : BufferWorld) : BufferOp → Prop
  | .close => ∀ buffer position, w.file ≠ some (some (buffer, position))
  | .setBuffer o => ∃ buffer position, w.file = some (some (buffer, position)) ∧ (o = buffer → 0 < w.others o)
  | _ => True

/-- The states of runs of such operations. -/
inductive Reached (w₀ : BufferWorld) : BufferWorld → Prop
  | start : Reached w₀ w₀
  | step {w w' : BufferWorld} {op : BufferOp} {result : Except Xno BufferAnswer} (h : Reached w₀ w)
      (hpossible : w.Possible op) (hfine : w.Fine op) (hstep : w.step op = some (result, w')) : Reached w₀ w'

/-! ## One dynamic string changes -/

section

variable {w w' w₀ : BufferWorld} {o b : ObjId} {n : Nat} {ds : Buffer Byte} {position : Int}
  {file : Option (Option (ObjId × Int))}

/-- What has owners is as it was. -/
def Keeps (w w' : BufferWorld) : Prop :=
  ∀ o n ds, w.ds o = .alive n ds → 0 < w'.others o + w'.held o → ∃ n', w'.ds o = .alive n' ds

theorem Keeps.refl (w : BufferWorld) : w.Keeps w := fun _ n _ h _ => ⟨n, h⟩

/-- The counts of the other dynamic strings are right if those of one are. -/
theorem Inv.change (h : w.Inv) (o : ObjId) (hds : ∀ x, x ≠ o → w'.ds x = w.ds x)
    (hdestroyed : ∀ x, x ≠ o → w'.destroyed x = w.destroyed x)
    (howners : ∀ x, x ≠ o → w'.others x + w'.held x = w.others x + w.held x)
    (ho : Counted (w'.others o + w'.held o) (w'.destroyed o) (w'.ds o)) (hnext : w.next ≤ w'.next) (hlt : o < w'.next) :
    w'.Inv := by
  refine ⟨fun x => ?_, fun x hx => ?_⟩
  · by_cases hx : x = o
    · rw [hx]
      exact ho
    · rw [hds x hx, hdestroyed x hx, howners x hx]
      exact h.counted x
  · have hx' : x ≠ o := Nat.ne_of_gt (Nat.lt_of_lt_of_le hlt hx)
    rw [hds x hx']
    exact h.absent x (Nat.le_trans hnext hx)

theorem Inv.alive_lt (h : w.Inv) (ho : w.ds o = .alive n ds) : o < w.next := by
  refine Nat.lt_of_not_le fun hle => ?_
  rw [h.absent o hle] at ho
  cases ho

theorem Inv.alive_count (h : w.Inv) (ho : w.ds o = .alive n ds) :
    n = w.others o + w.held o ∧ 0 < n ∧ w.destroyed o = 0 := by
  have hcounted := h.counted o
  rwa [ho] at hcounted

/-- What has an owner is alive. -/
theorem Inv.alive_of_owned (h : w.Inv) (ho : 0 < w.others o + w.held o) : ∃ n ds, w.ds o = .alive n ds := by
  have hcounted := h.counted o
  cases hds : w.ds o with
  | alive n ds => exact ⟨n, ds, rfl⟩
  | absent =>
    rw [hds] at hcounted
    exact absurd hcounted.1 (Nat.ne_of_gt ho)
  | gone =>
    rw [hds] at hcounted
    exact absurd hcounted.1 (Nat.ne_of_gt ho)

theorem own_eq (ho : w.ds o = .alive n ds) : w.own o = some (w.setDs o (.alive (n + 1) ds)) := by
  unfold own
  rw [ho]

theorem setDs_self (w : BufferWorld) (o : ObjId) (d : DsState) : (w.setDs o d).ds o = d := Function.update_self ..

theorem setDs_ne (w : BufferWorld) {o x : ObjId} (hx : x ≠ o) (d : DsState) : (w.setDs o d).ds x = w.ds x :=
  Function.update_of_ne hx ..

theorem held_open (hfile : w.file = some (some (b, position))) (o : ObjId) : w.held o = if b = o then 1 else 0 := by
  unfold held
  rw [hfile]

theorem held_eq_zero (hfile : w.file = none ∨ w.file = some none) (o : ObjId) : w.held o = 0 := by
  unfold held
  rcases hfile with hfile | hfile
  all_goals rw [hfile]

/-- The state of one dynamic string changes, and the counts follow. -/
theorem Inv.change_ds (h : w.Inv) (ho : w.ds o = .alive n ds) {d : DsState} (hds : w'.ds = (w.setDs o d).ds)
    (hdestroyed : ∀ x, x ≠ o → w'.destroyed x = w.destroyed x) (hnext : w'.next = w.next)
    (howners : ∀ x, x ≠ o → w'.others x + w'.held x = w.others x + w.held x)
    (hself : Counted (w'.others o + w'.held o) (w'.destroyed o) d) : w'.Inv := by
  refine h.change o (fun x hx => ?_) hdestroyed howners ?_ (Nat.le_of_eq hnext.symm) ?_
  · rw [hds]
    exact setDs_ne w hx d
  · rw [hds, setDs_self]
    exact hself
  · rw [hnext]
    exact h.alive_lt ho

/-- What is in a dynamic string stays when its count changes. -/
theorem keeps_alive {m : Nat} (ho : w.ds o = .alive n ds) (hds : w'.ds = (w.setDs o (.alive m ds)).ds) :
    w.Keeps w' := by
  intro x k es hx _
  rw [hds]
  by_cases hxo : x = o
  · subst hxo
    obtain ⟨-, rfl⟩ := DsState.alive.inj (ho.symm.trans hx)
    exact ⟨m, setDs_self ..⟩
  · exact ⟨k, (setDs_ne w hxo _).trans hx⟩

/-- One more owner, somewhere. -/
theorem Inv.own (h : w.Inv) (ho : w.ds o = .alive n ds) (hds : w'.ds = (w.setDs o (.alive (n + 1) ds)).ds)
    (hdestroyed : w'.destroyed = w.destroyed) (hnext : w'.next = w.next)
    (howners : ∀ x, w'.others x + w'.held x = w.others x + w.held x + if x = o then 1 else 0) :
    w'.Inv ∧ w.Keeps w' := by
  obtain ⟨hcount, hpos, hdest⟩ := h.alive_count ho
  refine ⟨h.change_ds ho hds (fun x _ => ?_) hnext (fun x hx => ?_) ?_, keeps_alive ho hds⟩
  · rw [hdestroyed]
  · rw [howners, if_neg hx, Nat.add_zero]
  · rw [howners, if_pos rfl, hdestroyed]
    exact ⟨by rw [hcount], Nat.succ_pos n, hdest⟩

/-- One owner less, and the end of what has none. -/
theorem Inv.disown (h : w.Inv) (ho : w.ds o = .alive n ds) :
    ∃ w₁, w.disown o = some w₁ ∧ w₁.others = w.others ∧ w₁.file = w.file ∧
      ∀ w', w'.ds = w₁.ds → w'.destroyed = w₁.destroyed → w'.next = w₁.next →
        (∀ x, w'.others x + w'.held x + (if x = o then 1 else 0) = w.others x + w.held x) → w'.Inv ∧ w.Keeps w' := by
  obtain ⟨hcount, hpos, hdest⟩ := h.alive_count ho
  obtain ⟨n, rfl⟩ := Nat.exists_eq_add_one_of_ne_zero (Nat.ne_of_gt hpos)
  have hdisown : w.disown o =
      if n = 0 then some { w.setDs o .gone with destroyed := Function.update w.destroyed o (w.destroyed o + 1) }
      else some (w.setDs o (.alive n ds)) := by
    unfold BufferWorld.disown
    rw [ho]
  have hless {w' : BufferWorld}
      (howners : ∀ x, w'.others x + w'.held x + (if x = o then 1 else 0) = w.others x + w.held x) :
      (∀ x, x ≠ o → w'.others x + w'.held x = w.others x + w.held x) ∧ w'.others o + w'.held o = n := by
    refine ⟨fun x hx => ?_, ?_⟩
    · have hsum := howners x
      rwa [if_neg hx, Nat.add_zero] at hsum
    · have hsum := howners o
      rw [if_pos rfl] at hsum
      omega
  rw [hdisown]
  split
  · next hzero =>
    refine ⟨_, rfl, rfl, rfl, fun w' hds hdestroyed hnext howners => ?_⟩
    obtain ⟨hothers, hself⟩ := hless howners
    have hone : w'.destroyed o = 1 := by
      rw [hdestroyed]
      exact (Function.update_self ..).trans (congrArg (· + 1) hdest)
    refine ⟨h.change_ds ho hds (fun x hx => ?_) hnext hothers ⟨hself.trans hzero, hone⟩, fun x m es hx hown => ?_⟩
    · rw [hdestroyed]
      exact Function.update_of_ne hx ..
    · have hxo : x ≠ o := by
        rintro rfl
        omega
      exact ⟨m, by rw [hds]; exact (setDs_ne w hxo _).trans hx⟩
  · next hmore =>
    refine ⟨_, rfl, rfl, rfl, fun w' hds hdestroyed hnext howners => ?_⟩
    obtain ⟨hothers, hself⟩ := hless howners
    refine ⟨h.change_ds ho hds (fun x _ => ?_) hnext hothers ?_, keeps_alive ho hds⟩
    · rw [hdestroyed]
      rfl
    · rw [hself, hdestroyed]
      exact ⟨rfl, Nat.pos_of_ne_zero hmore, hdest⟩

/-! ## Operations -/

variable {op : BufferOp} {result : Except Xno BufferAnswer}

theorem Conforms.intro (hstep : w.step op = some (result, w')) (hinv : w'.Inv ∧ w.Keeps w')
    (hrefuse : w.file = some none → IsAccess op → result = .error Xno.fileClosed ∧ w' = w) : w.Conforms op := by
  refine ⟨result, w', hstep, hinv.1, hrefuse, fun o n ds ho hown => ?_⟩
  obtain ⟨n', hn'⟩ := hinv.2 o n ds ho hown
  exact ⟨n', ds, hn', .inl rfl⟩

/-- A closed file. -/
theorem Conforms.closed (h : w.Inv) (hstep : w.step op = some (.error Xno.fileClosed, w)) : w.Conforms op :=
  .intro hstep ⟨h, .refl w⟩ fun _ _ => ⟨rfl, rfl⟩

/-- A new dynamic string with one owner. -/
theorem Inv.dsNew (h : w.Inv) (ds : Buffer Byte) (hds : w'.ds = (w.dsNew ds).ds)
    (hdestroyed : w'.destroyed = w.destroyed) (hnext : w'.next = w.next + 1)
    (howners : ∀ x, w'.others x + w'.held x = w.others x + w.held x + if x = w.next then 1 else 0) :
    w'.Inv ∧ w.Keeps w' := by
  have habsent := h.absent w.next (Nat.le_refl _)
  obtain ⟨hnone, hdest⟩ : w.others w.next + w.held w.next = 0 ∧ w.destroyed w.next = 0 := by
    have hcounted := h.counted w.next
    rwa [habsent] at hcounted
  refine ⟨h.change w.next (fun x hx => ?_) (fun x hx => ?_) (fun x hx => ?_) ?_ (hnext ▸ Nat.le_succ _) ?_,
    fun x m es hx _ => ?_⟩
  · rw [hds]
    exact setDs_ne w hx _
  · rw [hdestroyed]
  · rw [howners, if_neg hx, Nat.add_zero]
  · have halive : w'.ds w.next = .alive 1 ds := by
      rw [hds]
      exact setDs_self ..
    rw [halive, howners, if_pos rfl, hdestroyed, hnone]
    exact ⟨rfl, Nat.one_pos, hdest⟩
  · rw [hnext]
    exact Nat.lt_succ_self _
  · have hne : x ≠ w.next := Nat.ne_of_lt (h.alive_lt hx)
    rw [hds]
    exact ⟨m, (setDs_ne w hne _).trans hx⟩

theorem update_add (f : ObjId → Nat) (o x : ObjId) :
    Function.update f o (f o + 1) x = f x + if x = o then 1 else 0 := by
  by_cases hx : x = o
  · rw [hx, Function.update_self, if_pos rfl]
  · rw [Function.update_of_ne hx, if_neg hx]
    rfl

theorem update_sub (f : ObjId → Nat) {o : ObjId} (ho : 0 < f o) (x : ObjId) :
    Function.update f o (f o - 1) x + (if x = o then 1 else 0) = f x := by
  by_cases hx : x = o
  · rw [hx, Function.update_self, if_pos rfl]
    exact Nat.sub_add_cancel ho
  · rw [Function.update_of_ne hx, if_neg hx]
    rfl

theorem conforms_create (h : w.Inv) (ds : Buffer Byte) : w.Conforms (.create ds) := by
  refine .intro rfl (h.dsNew ds rfl rfl rfl fun x => ?_) fun _ hacc => (nomatch hacc)
  show Function.update w.others w.next (w.others w.next + 1) x + w.held x = _
  rw [update_add, Nat.add_right_comm]

theorem conforms_share (h : w.Inv) (ho : 0 < w.others o) : w.Conforms (.share o) := by
  obtain ⟨n, ds, halive⟩ := h.alive_of_owned (Nat.add_pos_left ho (w.held o))
  have hstep : w.step (.share o) = some (.ok .done, { w.setDs o (.alive (n + 1) ds) with
      others := Function.update w.others o (w.others o + 1) }) := by
    unfold step
    dsimp only
    rw [own_eq halive]
    rfl
  refine .intro hstep (h.own halive rfl rfl rfl fun x => ?_) fun _ hacc => (nomatch hacc)
  show Function.update w.others o (w.others o + 1) x + w.held x = _
  rw [update_add, Nat.add_right_comm]

theorem conforms_drop (h : w.Inv) (ho : 0 < w.others o) : w.Conforms (.drop o) := by
  obtain ⟨n, ds, halive⟩ := h.alive_of_owned (Nat.add_pos_left ho (w.held o))
  obtain ⟨w₁, hdisown, hothers, hfile, hspec⟩ := h.disown halive
  have hstep : w.step (.drop o) = some (.ok .done, { w₁ with
      others := Function.update w₁.others o (w₁.others o - 1) }) := by
    unfold step
    dsimp only
    rw [hdisown]
    rfl
  refine .intro hstep (hspec _ rfl rfl rfl fun x => ?_) fun _ hacc => (nomatch hacc)
  have hheld : w₁.held x = w.held x := by
    unfold held
    rw [hfile]
  show Function.update w₁.others o (w₁.others o - 1) x + w₁.held x + _ = _
  rw [hothers, hheld, Nat.add_right_comm, update_sub w.others ho]

theorem conforms_construct (h : w.Inv) (hfile : w.file = none) : w.Conforms .construct := by
  refine .intro rfl (h.dsNew emptyDs rfl rfl rfl fun x => ?_) fun _ hacc => (nomatch hacc)
  have hheld : held { w.dsNew emptyDs with file := some (some (w.next, 0)) } x = if w.next = x then 1 else 0 :=
    held_open rfl x
  rw [hheld, held_eq_zero (.inl hfile), Nat.add_zero]
  simp only [eq_comm]
  rfl

/-- The file gets a buffer. -/
theorem Inv.hold (h : w.Inv) (hfile : w.file = none ∨ w.file = some none) (halive : w.ds o = .alive n ds) :
    ∃ w₁, w.own o = some w₁ ∧ Inv { w₁ with file := some (some (o, 0)) } ∧
      w.Keeps { w₁ with file := some (some (o, 0)) } := by
  refine ⟨_, own_eq halive, h.own halive rfl rfl rfl fun x => ?_⟩
  have hheld : held { w.setDs o (.alive (n + 1) ds) with file := some (some (o, 0)) } x = if o = x then 1 else 0 :=
    held_open rfl x
  rw [hheld, held_eq_zero hfile, Nat.add_zero]
  simp only [eq_comm]
  rfl

theorem conforms_constructFrom (h : w.Inv) (hfile : w.file = none) (halive : w.ds o = .alive n ds) :
    w.Conforms (.constructFrom o) := by
  obtain ⟨w₁, hown, hspec⟩ := h.hold (.inl hfile) halive
  have hstep : w.step (.constructFrom o) = some (.ok .done, { w₁ with file := some (some (o, 0)) }) := by
    unfold step
    dsimp only
    rw [hown]
    rfl
  exact .intro hstep hspec fun _ hacc => (nomatch hacc)

/-- The file lets go of its buffer. -/
theorem Inv.release (h : w.Inv) (hfile : w.file = some (some (b, position))) (hnew : file = none ∨ file = some none) :
    ∃ w₁, w.disown b = some w₁ ∧ w₁.others = w.others ∧ Inv { w₁ with file := file } ∧
      w.Keeps { w₁ with file := file } := by
  have hheld (x : ObjId) : w.held x = if x = b then 1 else 0 := by
    rw [held_open hfile]
    simp only [eq_comm]
  obtain ⟨n, ds, halive⟩ := h.alive_of_owned (o := b) (by rw [hheld, if_pos rfl]; exact Nat.succ_pos _)
  obtain ⟨w₁, hdisown, hothers, -, hspec⟩ := h.disown halive
  refine ⟨w₁, hdisown, hothers, hspec _ rfl rfl rfl fun x => ?_⟩
  have hnone : held { w₁ with file := file } x = 0 := held_eq_zero hnew x
  show w₁.others x + _ + _ = _
  rw [hnone, hheld, hothers]
  rfl

theorem conforms_destruct (h : w.Inv) (hfile : w.file ≠ none) : w.Conforms .destruct := by
  rcases hw : w.file with _ | _ | ⟨b, position⟩
  · exact absurd hw hfile
  · have hstep : w.step .destruct = some (.ok .done, { w with file := none }) := by
      unfold step
      dsimp only
      rw [hw]
    have hheld (x : ObjId) : held { w with file := none } x = w.held x :=
      (held_eq_zero (.inl rfl) x).trans (held_eq_zero (.inr hw) x).symm
    refine .intro hstep ⟨⟨fun x => ?_, h.absent⟩, fun _ n _ hx _ => ⟨n, hx⟩⟩ fun _ hacc => (nomatch hacc)
    rw [hheld]
    exact h.counted x
  · obtain ⟨w₁, hdisown, -, hspec⟩ := h.release hw (.inl rfl)
    have hstep : w.step .destruct = some (.ok .done, { w₁ with file := none }) := by
      unfold step
      dsimp only
      rw [hw]
      dsimp only
      rw [hdisown]
      rfl
    exact .intro hstep hspec fun _ hacc => (nomatch hacc)

/-! ## Accesses -/

/-- An access through the buffer is refused if there is none. -/
theorem conforms_withFile {f : ObjId → Int → Option (Except Xno BufferAnswer × BufferWorld)} (h : w.Inv)
    (hstep : w.step op = w.withFile f) (hfile : w.file ≠ none)
    (hopen : ∀ b position, w.file = some (some (b, position)) → w.step op = f b position → w.Conforms op) :
    w.Conforms op := by
  unfold withFile at hstep
  rcases hw : w.file with _ | _ | ⟨b, position⟩
  · exact absurd hw hfile
  · rw [hw] at hstep
    exact .closed h hstep
  · rw [hw] at hstep
    exact hopen b position hw hstep

/-- The buffer of an open file is alive. -/
theorem Inv.open_alive (h : w.Inv) (hfile : w.file = some (some (b, position))) : ∃ n ds, w.ds b = .alive n ds := by
  refine h.alive_of_owned ?_
  rw [held_open hfile, if_pos rfl]
  exact Nat.succ_pos _

theorem memfile?_eq (halive : w.ds b = .alive n ds) (position : Int) : w.memfile? b position = some ⟨ds, position⟩ := by
  unfold memfile?
  rw [halive]

theorem not_closed (hfile : w.file = some (some (b, position))) {P : Prop} (hclosed : w.file = some none) : P := by
  rw [hfile] at hclosed
  cases hclosed

/-- Only the position has changed. -/
theorem inv_position (h : w.Inv) (hfile : w.file = some (some (b, position))) (iv : Int) :
    Inv { w with file := some (some (b, iv)) } ∧ w.Keeps { w with file := some (some (b, iv)) } := by
  have hheld (x : ObjId) : held { w with file := some (some (b, iv)) } x = w.held x :=
    (held_open rfl x).trans (held_open hfile x).symm
  refine ⟨⟨fun x => ?_, h.absent⟩, fun _ n _ hx _ => ⟨n, hx⟩⟩
  rw [hheld]
  exact h.counted x

theorem conforms_getPosition (h : w.Inv) (hfile : w.file ≠ none) : w.Conforms .getPosition :=
  conforms_withFile h rfl hfile fun _ _ hopen hstep => .intro hstep ⟨h, .refl w⟩ fun hclosed => not_closed hopen hclosed

theorem conforms_length (h : w.Inv) (hfile : w.file ≠ none) : w.Conforms .length := by
  refine conforms_withFile h rfl hfile fun b position hopen hstep => ?_
  obtain ⟨n, ds, halive⟩ := h.open_alive hopen
  rw [memfile?_eq halive] at hstep
  exact .intro hstep ⟨h, .refl w⟩ fun hclosed => not_closed hopen hclosed

theorem conforms_getBuffer (h : w.Inv) (hfile : w.file ≠ none) : w.Conforms .getBuffer := by
  refine conforms_withFile h rfl hfile fun b position hopen hstep => ?_
  obtain ⟨n, ds, halive⟩ := h.open_alive hopen
  rw [own_eq halive] at hstep
  refine .intro hstep (h.own halive rfl rfl rfl fun x => ?_) fun hclosed => not_closed hopen hclosed
  show Function.update w.others b (w.others b + 1) x + w.held x = _
  rw [update_add, Nat.add_right_comm]

theorem conforms_setPosition (h : w.Inv) (hfile : w.file ≠ none) (iv : Int) : w.Conforms (.setPosition iv) := by
  refine conforms_withFile h rfl hfile fun b position hopen hstep => ?_
  obtain ⟨n, ds, halive⟩ := h.open_alive hopen
  rw [memfile?_eq halive] at hstep
  exact .intro hstep (inv_position h hopen _) fun hclosed => not_closed hopen hclosed

theorem conforms_io {op : MemfileOp} (h : w.Inv) (hpossible : w.Possible (.io op)) : w.Conforms (.io op) := by
  obtain ⟨hfile, hends⟩ := hpossible
  refine conforms_withFile h rfl hfile fun b position hopen hstep => ?_
  obtain ⟨n, ds, halive⟩ := h.open_alive hopen
  obtain ⟨⟨r, mf⟩, hperform⟩ := Option.isSome_iff_exists.mp (hends b position _ hopen (memfile?_eq halive position))
  rw [halive] at hstep
  dsimp only at hstep
  rw [hperform] at hstep
  have hheld (x : ObjId) :
      held { w.setDs b (.alive n mf.buffer) with file := some (some (b, mf.position)) } x = w.held x :=
    (held_open rfl x).trans (held_open hopen x).symm
  refine ⟨_, _, hstep, ⟨fun x => ?_, fun x hx => ?_⟩, fun hclosed => not_closed hopen hclosed, fun x m es hx _ => ?_⟩
  · rw [hheld]
    have hcounted := h.counted x
    by_cases hxb : x = b
    · subst hxb
      rw [halive] at hcounted
      show Counted _ _ ((w.setDs x (.alive n mf.buffer)).ds x)
      rw [setDs_self]
      exact hcounted
    · show Counted _ _ ((w.setDs b (.alive n mf.buffer)).ds x)
      rw [setDs_ne w hxb]
      exact hcounted
  · have hxb : x ≠ b := Nat.ne_of_gt (Nat.lt_of_lt_of_le (h.alive_lt halive) hx)
    exact (setDs_ne w hxb _).trans (h.absent x hx)
  · by_cases hxb : x = b
    · subst hxb
      refine ⟨n, mf.buffer, setDs_self .., .inr ?_⟩
      show w.held x = 1
      rw [held_open hopen, if_pos rfl]
    · exact ⟨m, es, (setDs_ne w hxb _).trans hx, .inl rfl⟩

/-- Only a file that is closed can be closed. -/
theorem conforms_close_iff (h : w.Inv) (hfile : w.file ≠ none) : w.Conforms .close ↔ w.Fine .close := by
  rcases hw : w.file with _ | _ | ⟨b, position⟩
  · exact absurd hw hfile
  · refine iff_of_true (.closed h ?_) fun buffer position heq => ?_
    · show w.withFile _ = _
      unfold withFile
      rw [hw]
    · rw [hw] at heq
      cases heq
  · refine iff_of_false ?_ fun hfine => hfine b position hw
    obtain ⟨n, ds, halive⟩ := h.open_alive hw
    have hstep : w.step .close = some (.ok .done, { w.setDs b .gone with file := some none }) := by
      show w.withFile _ = _
      unfold withFile
      rw [hw]
      dsimp only
      unfold free
      rw [halive]
      rfl
    rintro ⟨result, w', hstep', hinv, -, -⟩
    obtain ⟨-, rfl⟩ := Prod.mk.inj (Option.some.inj (hstep.symm.trans hstep'))
    have hcounted := hinv.counted b
    have hgone : (w.setDs b .gone).ds b = .gone := setDs_self ..
    change Counted _ (w.destroyed b) ((w.setDs b .gone).ds b) at hcounted
    rw [hgone, (h.alive_count halive).2.2] at hcounted
    exact absurd hcounted.2 (by decide)

/-- The buffer of an open file can be replaced by what is alive without it. -/
theorem conforms_setBuffer_iff (h : w.Inv) (hpossible : w.Possible (.setBuffer o)) :
    w.Conforms (.setBuffer o) ↔ w.Fine (.setBuffer o) := by
  obtain ⟨hfile, n, ds, halive⟩ := hpossible
  rcases hw : w.file with _ | _ | ⟨b, position⟩
  · exact absurd hw hfile
  · -- a closed file gets a buffer
    refine iff_of_false ?_ ?_
    · rintro ⟨result, w', hstep, -, hrefuse, -⟩
      obtain ⟨rfl, -⟩ := hrefuse hw trivial
      unfold step at hstep
      dsimp only at hstep
      rw [hw] at hstep
      dsimp only at hstep
      rw [own_eq halive] at hstep
      cases hstep
    · rintro ⟨b, position, hopen, -⟩
      exact not_closed hopen hw
  · obtain ⟨w₁, hdisown, hothers, hinv, hkeeps⟩ := h.release hw (.inr rfl)
    have hheld (x : ObjId) : held { w₁ with file := some none } x = 0 := held_eq_zero (.inr rfl) x
    by_cases hlast : o = b → 0 < w.others o
    · refine iff_of_true ?_ ⟨b, position, hw, hlast⟩
      -- it is alive without the file
      obtain ⟨n₁, ds₁, halive₁⟩ : ∃ n₁ ds₁, DsState.alive n₁ ds₁ = w₁.ds o := by
        have hown : 0 < w.others o := by
          by_cases hob : o = b
          · exact hlast hob
          · have hcount := (h.alive_count halive).1
            have hpos := (h.alive_count halive).2.1
            rw [held_open hw, if_neg fun heq => hob heq.symm, Nat.add_zero] at hcount
            exact hcount ▸ hpos
        obtain ⟨n₁, ds₁, halive₁⟩ := hinv.alive_of_owned (o := o) (by
          show 0 < w₁.others o + _
          rw [hothers]
          exact Nat.add_pos_left hown _)
        exact ⟨n₁, ds₁, halive₁.symm⟩
      obtain ⟨w₂, hown₂, hinv₂, hkeeps₂⟩ := hinv.hold (.inr rfl) halive₁.symm
      have hstep : w.step (.setBuffer o) = some (.ok .done, { w₂ with file := some (some (o, 0)) }) := by
        unfold step
        dsimp only
        rw [hw]
        dsimp only
        rw [hdisown, Option.bind_some, own_eq halive₁.symm]
        rw [own_eq (w := { w₁ with file := some none }) halive₁.symm] at hown₂
        obtain rfl := Option.some.inj hown₂
        rfl
      refine .intro hstep ⟨hinv₂, fun x m es hx hown => ?_⟩ fun hclosed => not_closed hw hclosed
      have hown₁ : 0 < w₁.others x + held { w₁ with file := some none } x := by
        by_cases hxo : x = o
        · subst hxo
          obtain ⟨hcount, hpos, -⟩ := hinv.alive_count halive₁.symm
          exact hcount ▸ hpos
        · have hothers₂ : w₂.others = w₁.others := by
            rw [own_eq (w := { w₁ with file := some none }) halive₁.symm] at hown₂
            obtain rfl := Option.some.inj hown₂
            rfl
          have hheld₂ : held { w₂ with file := some (some (o, 0)) } x = 0 :=
            (held_open rfl x).trans (if_neg fun heq => hxo heq.symm)
          change 0 < w₂.others x + _ at hown
          rw [hheld₂, hothers₂] at hown
          exact Nat.add_pos_left hown _
      obtain ⟨m₁, hx₁⟩ := hkeeps x m es hx hown₁
      exact hkeeps₂ x m₁ es hx₁ hown
    · refine iff_of_false ?_ ?_
      · -- it is gone before the file owns it
        obtain ⟨rfl, hnone⟩ : o = b ∧ w.others o = 0 := by
          refine ⟨Decidable.byContradiction fun hne => hlast fun heq => absurd heq hne, ?_⟩
          exact Nat.eq_zero_of_not_pos fun hpos => hlast fun _ => hpos
        have hown : w₁.own o = none := by
          unfold own
          cases hds : w₁.ds o with
          | alive n₁ ds₁ =>
            obtain ⟨hcount, hpos, -⟩ := hinv.alive_count (o := o) hds
            rw [hheld] at hcount
            change n₁ = w₁.others o + 0 at hcount
            rw [hothers, hnone] at hcount
            exact absurd hcount (Nat.ne_of_gt hpos)
          | absent => rfl
          | gone => rfl
        rintro ⟨result, w', hstep, -⟩
        unfold step at hstep
        dsimp only at hstep
        rw [hw] at hstep
        dsimp only at hstep
        rw [hdisown, Option.bind_some, hown] at hstep
        cases hstep
      · rintro ⟨b', position', hopen, hcond⟩
        obtain ⟨rfl, -⟩ := Prod.mk.inj (Option.some.inj (Option.some.inj (hw.symm.trans hopen)))
        exact hlast hcond

/-- What is possible conforms, but for closing and wrong replacements. -/
theorem conforms_iff (h : w.Inv) (hpossible : w.Possible op) : w.Conforms op ↔ w.Fine op := by
  cases op with
  | create ds => exact iff_of_true (conforms_create h ds) trivial
  | share o => exact iff_of_true (conforms_share h hpossible) trivial
  | drop o => exact iff_of_true (conforms_drop h hpossible) trivial
  | construct => exact iff_of_true (conforms_construct h hpossible) trivial
  | constructFrom o =>
    obtain ⟨hfile, n, ds, halive⟩ := hpossible
    exact iff_of_true (conforms_constructFrom h hfile halive) trivial
  | getPosition => exact iff_of_true (conforms_getPosition h hpossible) trivial
  | getBuffer => exact iff_of_true (conforms_getBuffer h hpossible) trivial
  | setPosition iv => exact iff_of_true (conforms_setPosition h hpossible iv) trivial
  | setBuffer o => exact conforms_setBuffer_iff h hpossible
  | length => exact iff_of_true (conforms_length h hpossible) trivial
  | io op => exact iff_of_true (conforms_io h hpossible) trivial
  | close => exact conforms_close_iff h hpossible
  | destruct => exact iff_of_true (conforms_destruct h hpossible) trivial

/-- A run. -/
theorem Reached.inv (hreached : w₀.Reached w) (h : w₀.Inv) : w.Inv := by
  induction hreached with
  | start => exact h
  | step _ hpossible hfine hstep ih =>
    obtain ⟨result, w', hstep', hinv, -⟩ := (conforms_iff ih hpossible).mpr hfine
    obtain ⟨-, rfl⟩ := Prod.mk.inj (Option.some.inj (hstep.symm.trans hstep'))
    exact hinv

end

end BufferWorld

end Io

/-- In every run of operations that are fine, the owners of every dynamic string are counted, an open memory file among
those of its buffer, and a dynamic string is destroyed once, when it has none. An operation that is possible keeps it
so, leaves what has owners as it was, and is refused by a closed file, exactly if it is fine. -/
theorem memfile_owners {w₀ w : Io.BufferWorld} (h : w₀.Inv) (hreached : w₀.Reached w) :
    w.Inv ∧ ∀ op, w.Possible op → (w.Conforms op ↔ w.Fine op) :=
  ⟨hreached.inv h, fun _ hpossible => Io.BufferWorld.conforms_iff (hreached.inv h) hpossible⟩

/-- Nothing is there. -/
def noBuffers : Io.BufferWorld := ⟨fun _ => .absent, fun _ => 0, fun _ => 0, none, 0⟩

theorem noBuffers_inv : noBuffers.Inv := ⟨fun _ => ⟨rfl, rfl⟩, fun _ _ => rfl⟩

/-- A memory file with an empty buffer. -/
def oneMemfile : Io.BufferWorld := { noBuffers.dsNew Io.BufferWorld.emptyDs with file := some (some (0, 0)) }

theorem oneMemfile_reached : noBuffers.Reached oneMemfile :=
  .step .start (show noBuffers.Possible .construct from rfl) trivial rfl

/-- A memory file is constructed and destructed. -/
theorem memfile_owners_destruct :
    ∃ w, noBuffers.Reached w ∧ w.Inv ∧ w.file = none ∧ w.destroyed 0 = 1 := by
  have hreached : noBuffers.Reached _ :=
    .step oneMemfile_reached (show oneMemfile.Possible .destruct from Option.some_ne_none _) trivial rfl
  exact ⟨_, hreached, (memfile_owners noBuffers_inv hreached).1, rfl, rfl⟩

/-- The buffer of a memory file that is closed is freed, though somebody else owns it. -/
theorem not_memfile_owners_close :
    ∃ w, noBuffers.Reached w ∧ w.Possible .close ∧ w.others 0 = 1 ∧ w.held 0 = 1 ∧
      (∃ w', w.step .close = some (.ok .done, w') ∧ w'.others 0 = 1 ∧ w'.destroyed 0 = 0 ∧ w'.ds 0 = .gone) ∧
      ¬ w.Conforms .close := by
  have hreached : noBuffers.Reached _ :=
    .step oneMemfile_reached (show oneMemfile.Possible .getBuffer from Option.some_ne_none _) trivial rfl
  refine ⟨_, hreached, Option.some_ne_none _, rfl, rfl, ⟨_, rfl, rfl, rfl, rfl⟩, fun hconforms => ?_⟩
  have hfine := (Io.BufferWorld.conforms_close_iff (hreached.inv noBuffers_inv) (Option.some_ne_none _)).mp hconforms
  exact hfine 0 0 rfl

end Eel
