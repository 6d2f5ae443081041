-- SUMMARY: Jumps that wait for their targets: where they are, what statements leave alone, and what becomes of the code.
import Eel.Compiler.CodeRun

/-!
# Jump marks

A jump is coded before it is known where it goes, and is marked in its context until then.
Code that is not finished is related to the code that becomes of it by the positions of the
marks, and by where these jumps will go.
-/

namespace Eel

namespace Events

open Traces Behaviour Paths Coding

/-- What jumps see of a context. -/
structure Marks where
  type : ContextType
  flags : Flags
  startpos : Nat
  /-- The positions of jumps to the end, and to where the loop goes on. -/
  ends : List Nat
  conts : List Nat

def Context.marks (c : Context) : Marks :=
  ⟨c.type, c.flags, c.startpos, c.endjumps.filterMap Codemark.pos, c.contjumps.filterMap Codemark.pos⟩

/-- Where the marks of a context lead. -/
structure Aim where
  brk : Nat
  cont : Nat

/-- The aims of the contexts, with `a` for another one on top. -/
def under (a : Aim) (T : Nat → Aim) : Nat → Aim
  | 0 => a
  | k + 1 => T k

/-- Marked positions of this function. -/
def pending : List Marks → List Nat
  | [] => []
  | m :: ms => m.ends ++ m.conts ++ if m.type = .function then [] else pending ms

/-- Marked positions of this function, with where these jumps will go. -/
def waiting (T : Nat → Aim) : List Marks → List (Nat × Nat)
  | [] => []
  | m :: ms => m.ends.map (·, (T 0).brk) ++ m.conts.map (·, (T 0).cont) ++
      if m.type = .function then [] else waiting (fun k => T (k + 1)) ms

/-- Where a jump to the closest context with a flag goes, if that is in this function. -/
def target (flag : Flags → Bool) (dest : Marks → Aim → Nat) (T : Nat → Aim) : List Marks → Option Nat
  | [] | [_] => none
  | m :: ms =>
    if flag m.flags then some (dest m (T 0))
    else if m.type = .function then none
    else target flag dest (fun k => T (k + 1)) ms

section

variable {L : Type} {es es₁ es' : Coding L} {F : List (Instr L)} {X : List Nat} {T : Nat → Aim} {a : Aim}
  {m m' m'' : Marks} {ms ms' ms'' : List Marks} {n p q w k : Nat} {b : Bool}

def Coding.marks (es : Coding L) : List Marks := es.contexts.map Context.marks

theorem mem_pending : q ∈ pending ms ↔ ∃ w, (q, w) ∈ waiting T ms := by
  induction ms generalizing T with
  | nil => simp [pending, waiting]
  | cons m ms ih =>
    by_cases hf : m.type = .function
    · simp [pending, waiting, hf, exists_or]
    · simp [pending, waiting, hf, ih (T := fun k => T (k + 1)), exists_or]

theorem target_cons {flag : Flags → Bool} {dest : Marks → Aim → Nat} (hms : ms ≠ []) :
    target flag dest T (m :: ms) = if flag m.flags then some (dest m (T 0))
      else if m.type = .function then none else target flag dest (fun k => T (k + 1)) ms := by
  cases ms with
  | nil => exact (hms rfl).elim
  | cons m' ms => rfl

/-! ## What is left alone -/

/-- Old marks are kept, and so are all of a context that is not a loop. Those of the wrapper of a `switch` are not. -/
structure Marks.Keeps (n : Nat) (wrapper : Bool) (m m' : Marks) : Prop where
  type : m'.type = m.type
  flags : m'.flags = m.flags
  startpos : m'.startpos = m.startpos
  ends : ∀ q < n, q ∈ m'.ends ↔ q ∈ m.ends
  conts : ∀ q < n, q ∈ m'.conts ↔ q ∈ m.conts
  noEnds : m.flags.breakable = false → wrapper = false → m'.ends = m.ends
  noConts : m.flags.continuable = false → m'.conts = m.conts

/-- Nothing is marked in other functions. -/
def KeepsAll (n : Nat) : Bool → List Marks → List Marks → Prop
  | _, [], [] => True
  | b, m :: ms, m' :: ms' => m.Keeps n b m' ∧ if m.type = .function then ms' = ms else KeepsAll n false ms ms'
  | _, _, _ => False

theorem Marks.Keeps.refl : m.Keeps n b m := ⟨rfl, rfl, rfl, fun _ _ => .rfl, fun _ _ => .rfl, fun _ _ => rfl, fun _ => rfl⟩

theorem Marks.Keeps.trans (h : m.Keeps n b m') (h' : m'.Keeps n b m'') : m.Keeps n b m'' where
  type := h'.type.trans h.type
  flags := h'.flags.trans h.flags
  startpos := h'.startpos.trans h.startpos
  ends q hq := (h'.ends q hq).trans (h.ends q hq)
  conts q hq := (h'.conts q hq).trans (h.conts q hq)
  noEnds hb hw := (h'.noEnds (h.flags ▸ hb) hw).trans (h.noEnds hb hw)
  noConts hc := (h'.noConts (h.flags ▸ hc)).trans (h.noConts hc)

theorem Marks.Keeps.weaken {b' : Bool} (h : m.Keeps n b m') (hk : k ≤ n) (hb : b = true → b' = true) : m.Keeps k b' m' where
  type := h.type
  flags := h.flags
  startpos := h.startpos
  ends q hq := h.ends q (hq.trans_le hk)
  conts q hq := h.conts q (hq.trans_le hk)
  noEnds hbrk hw := h.noEnds hbrk (Bool.eq_false_iff.mpr fun htrue => Bool.false_ne_true (hw.symm.trans (hb htrue)))
  noConts := h.noConts

theorem KeepsAll.refl : KeepsAll n b ms ms := by
  induction ms generalizing b with
  | nil => trivial
  | cons m ms ih =>
    refine ⟨.refl, ?_⟩
    split
    · rfl
    · exact ih

theorem KeepsAll.trans (h : KeepsAll n b ms ms') (h' : KeepsAll n b ms' ms'') : KeepsAll n b ms ms'' := by
  induction ms generalizing b ms' ms'' with
  | nil =>
    match ms', h with
    | [], _ => exact h'
  | cons m ms ih =>
    match ms', ms'', h, h' with
    | m' :: ms', m'' :: ms'', ⟨hm, h⟩, ⟨hm', h'⟩ =>
      refine ⟨hm.trans hm', ?_⟩
      rw [hm.type] at h'
      split
      · rename_i hf
        rw [if_pos hf] at h h'
        exact h'.trans h
      · rename_i hf
        rw [if_neg hf] at h h'
        exact ih h h'

theorem KeepsAll.weaken {b' : Bool} (h : KeepsAll n b ms ms') (hk : k ≤ n) (hb : b = true → b' = true) :
    KeepsAll k b' ms ms' := by
  induction ms generalizing b b' ms' with
  | nil =>
    match ms', h with
    | [], _ => trivial
  | cons m ms ih =>
    match ms', h with
    | m' :: ms', ⟨hm, h⟩ =>
      refine ⟨hm.weaken hk hb, ?_⟩
      split
      · rename_i hf
        rwa [if_pos hf] at h
      · rename_i hf
        rw [if_neg hf] at h
        exact ih h id

theorem KeepsAll.mono (h : KeepsAll n false ms ms') (hk : k ≤ n) : KeepsAll k b ms ms' := h.weaken hk nofun

theorem KeepsAll.waiting_iff (h : KeepsAll n b ms ms') (hq : q < n) : (q, w) ∈ waiting T ms' ↔ (q, w) ∈ waiting T ms := by
  induction ms generalizing b ms' T with
  | nil =>
    match ms', h with
    | [], _ => rfl
  | cons m ms ih =>
    match ms', h with
    | m' :: ms', ⟨hm, h⟩ =>
      have hrest : (q, w) ∈ (if m'.type = .function then [] else waiting (fun k => T (k + 1)) ms') ↔
          (q, w) ∈ (if m.type = .function then [] else waiting (fun k => T (k + 1)) ms) := by
        rw [hm.type]
        split
        · rfl
        · rename_i hf
          rw [if_neg hf] at h
          exact ih h
      have hends : (q, w) ∈ m'.ends.map (·, (T 0).brk) ↔ (q, w) ∈ m.ends.map (·, (T 0).brk) := by
        simp [hm.ends q hq]
      have hconts : (q, w) ∈ m'.conts.map (·, (T 0).cont) ↔ (q, w) ∈ m.conts.map (·, (T 0).cont) := by
        simp [hm.conts q hq]
      rw [waiting, waiting, List.mem_append, List.mem_append, List.mem_append, List.mem_append, hends, hconts, hrest]

theorem KeepsAll.pending_iff (h : KeepsAll n b ms ms') (hq : q < n) : q ∈ pending ms' ↔ q ∈ pending ms := by
  rw [mem_pending (T := fun _ => ⟨0, 0⟩), mem_pending (T := fun _ => ⟨0, 0⟩)]
  exact exists_congr fun w => h.waiting_iff hq

theorem KeepsAll.target_eq {flag : Flags → Bool} {dest : Marks → Aim → Nat}
    (hdest : ∀ m m' a, m'.startpos = m.startpos → dest m' a = dest m a) (h : KeepsAll n b ms ms') :
    target flag dest T ms' = target flag dest T ms := by
  induction ms generalizing b ms' T with
  | nil =>
    match ms', h with
    | [], _ => rfl
  | cons m ms ih =>
    match ms', h with
    | m' :: ms', ⟨hm, h⟩ =>
      by_cases hms : ms = []
      · subst hms
        match ms', h with
        | [], _ => rfl
        | _ :: _, h => split at h <;> cases h
      · have hms' : ms' ≠ [] := by
          rintro rfl
          match ms, hms, h with
          | _ :: _, _, h => split at h <;> cases h
        rw [target_cons hms, target_cons hms', hm.flags, hm.type, hdest m m' _ hm.startpos]
        split
        · rfl
        · split
          · rfl
          · rename_i hf
            rw [if_neg hf] at h
            exact ih h

/-! ## What coding does to marks -/

theorem code_marks (i : Instr L) : (es.code i).marks = es.marks := by
  unfold Coding.code
  split <;> rfl

theorem setjump_marks {pos : Option Nat} {whereto : Nat} (h : es.setjump pos whereto = some es') :
    es'.marks = es.marks := by
  cases pos with
  | none =>
    cases h
    rfl
  | some p =>
    obtain ⟨i, -, rfl⟩ := Option.map_eq_some_iff.mp h
    rfl

theorem addCase_marks (pos : Option Nat) : (es.addCase pos).marks = es.marks := by
  cases pos <;> rfl

theorem mapEvents_marks {f : Cevlist → Cevlist} : (es.mapContexts (mapEvents f)).marks = es.marks := by
  unfold Coding.marks Coding.mapContexts mapEvents
  cases es.contexts <;> rfl

theorem eBreak_marks {d : Nat} : (es.mapContexts (eBreak d)).marks = es.marks := by
  unfold Coding.marks Coding.mapContexts eBreak
  dsimp only
  cases es.contexts with
  | nil => rfl
  | cons c cs =>
    dsimp only [List.head?_cons]
    cases (c :: cs)[d]? <;> rfl

theorem merge_marks {x : Cestate} : (es.merge x).marks = es.marks := by
  unfold Coding.marks Coding.merge Coding.mapContexts Events.merge
  cases es.contexts <;> rfl

theorem push_marks (es : Coding L) (type : ContextType) (xblock : Bool) (flags : Flags) :
    ∃ pos, (es.push type xblock flags).marks = ⟨type, flags, pos, [], []⟩ :: es.marks ∧
      (flags.continuable = true → pos = es.coded.length) := by
  refine ⟨_, rfl, fun h => if_pos h⟩

theorem pop_marks (hms : ms ≠ []) (h : es.marks = m :: ms) : es.pop.marks = ms := by
  unfold Coding.marks at h
  unfold Coding.marks Coding.pop Coding.mapContexts
  match es.contexts, h with
  | [_], h => exact (hms (List.cons_eq_cons.mp h).2.symm).elim
  | c :: p :: cs, h =>
    rw [← (List.cons_eq_cons.mp h).2]
    unfold contextPop
    dsimp only
    rw [List.map_cons, List.map_cons]
    congr 1
    split
    · split <;> rfl
    · split <;> rfl
    · split <;> rfl
    · split <;> rfl

theorem code_length (i : Instr L) : es.coded.length ≤ (es.code i).coded.length := by
  unfold Coding.code
  split
  · exact le_rfl
  · rw [List.length_append]
    exact Nat.le_add_right ..

theorem code_getElem? (i : Instr L) (h : q < es.coded.length) : (es.code i).coded[q]? = es.coded[q]? := by
  unfold Coding.code
  split
  · rfl
  · exact List.getElem?_append_left h

theorem setjump_length {pos : Option Nat} {whereto : Nat} (h : es.setjump pos whereto = some es') :
    es'.coded.length = es.coded.length := by
  cases pos with
  | none =>
    cases h
    rfl
  | some p =>
    obtain ⟨i, -, rfl⟩ := Option.map_eq_some_iff.mp h
    exact List.length_set

theorem jumpHere_length {pos : Option Nat} (h : es.jumpHere pos = some es') : es'.coded.length = es.coded.length :=
  setjump_length h

theorem setjump_getElem? {pos : Option Nat} {whereto : Nat} (h : es.setjump pos whereto = some es') (hq : pos ≠ some q) :
    es'.coded[q]? = es.coded[q]? := by
  cases pos with
  | none =>
    cases h
    rfl
  | some p =>
    obtain ⟨i, -, rfl⟩ := Option.map_eq_some_iff.mp h
    exact List.getElem?_set_ne fun hp => hq (congrArg some hp)

/-- An instruction that is aimed. -/
def Aimed (F : List (Instr L)) (q w : Nat) (i : Instr L) : Prop :=
  ∃ i', i.setDisp (w - (q + 1)) = some i' ∧ F[q]? = some i'

theorem setjump_aimed (h : es.setjump (some p) w = some es') : ∃ i, es.coded[p]? = some i ∧ Aimed es'.coded p w i := by
  obtain ⟨i', hset, rfl⟩ := Option.map_eq_some_iff.mp h
  obtain ⟨i, hi, hdisp⟩ := Option.bind_eq_some_iff.mp hset
  exact ⟨i, hi, i', hdisp, List.getElem?_set_self (List.getElem?_eq_some_iff.mp hi).1⟩

/-! ## Frames -/

/-- What was coded in front of `n` is left alone, except for a `switch` that this is in. -/
structure Frame (switch : Option Nat) (n : Nat) (es es' : Coding L) : Prop where
  length : es.coded.length ≤ es'.coded.length
  coded : ∀ q < n, switch ≠ some q → es'.coded[q]? = es.coded[q]?
  marks : KeepsAll n switch.isSome es.marks es'.marks

variable {switch : Option Nat}

theorem Frame.trans (h : Frame switch n es es₁) (h' : Frame switch n es₁ es') : Frame switch n es es' where
  length := h.length.trans h'.length
  coded q hq hs := (h'.coded q hq hs).trans (h.coded q hq hs)
  marks := h.marks.trans h'.marks

theorem Frame.mono (h : Frame none n es es') (hk : k ≤ n) : Frame switch k es es' where
  length := h.length
  coded q hq _ := h.coded q (hq.trans_le hk) nofun
  marks := h.marks.mono hk

theorem Frame.le (h : Frame switch n es es') (hk : k ≤ n) : Frame switch k es es' where
  length := h.length
  coded q hq := h.coded q (hq.trans_le hk)
  marks := h.marks.weaken hk id

theorem Frame.of_eq (hcoded : es'.coded = es.coded) (hmarks : es'.marks = es.marks) : Frame switch n es es' where
  length := by rw [hcoded]
  coded _ _ _ := by rw [hcoded]
  marks := by
    rw [hmarks]
    exact .refl

theorem Frame.code {i : Instr L} (hn : n ≤ es.coded.length) : Frame switch n es (es.code i) where
  length := code_length i
  coded _ hq _ := code_getElem? i (hq.trans_le hn)
  marks := by
    rw [code_marks]
    exact .refl

theorem Frame.setjump {pos : Option Nat} (h : es.setjump pos w = some es') (hn : ∀ p, pos = some p → n ≤ p) :
    Frame switch n es es' where
  length := (setjump_length h).ge
  coded q hq _ := setjump_getElem? h fun hp => (hn q hp).not_gt hq
  marks := by
    rw [setjump_marks h]
    exact .refl

theorem Frame.addCase : Frame switch n es (es.addCase switch) where
  length := by
    cases switch with
    | none => exact le_rfl
    | some p => exact (List.length_modify ..).ge
  coded q _ hs := by
    cases switch with
    | none => rfl
    | some p => exact List.getElem?_modify_ne _ _ fun hp => hs (congrArg some hp)
  marks := by
    rw [addCase_marks]
    exact .refl

/-- Marked positions are not marked twice, and are those of instructions. -/
structure Tidy (es : Coding L) : Prop where
  nodup : (pending es.marks).Nodup
  lt : ∀ q ∈ pending es.marks, q < es.coded.length

theorem Tidy.of_marks (h : Tidy es) (hmarks : es'.marks = es.marks) (hlength : es.coded.length ≤ es'.coded.length) :
    Tidy es' where
  nodup := by
    rw [hmarks]
    exact h.nodup
  lt q hq := (h.lt q (hmarks ▸ hq)).trans_le hlength

/-! ## What becomes of code -/

/-- The code will be `F`, but for the positions `X`, where it is not known yet. -/
structure Into (F : List (Instr L)) (X : List Nat) (T : Nat → Aim) (es : Coding L) : Prop where
  coded : ∀ q i, es.coded[q]? = some i → q ∉ X → q ∉ pending es.marks → F[q]? = some i
  aimed : ∀ q w i, es.coded[q]? = some i → q ∉ X → (q, w) ∈ waiting T es.marks → Aimed F q w i

theorem Into.of_kept (h : Into F X T es') (hcoded : ∀ q < es.coded.length, q ∉ X → es'.coded[q]? = es.coded[q]?)
    (hmarks : KeepsAll es.coded.length b es.marks es'.marks) : Into F X T es where
  coded q i hi hX hq := by
    have hlt := (List.getElem?_eq_some_iff.mp hi).1
    refine h.coded q i ?_ hX (mt (hmarks.pending_iff hlt).mp hq)
    rwa [hcoded q hlt hX]
  aimed q w i hi hX hq := by
    have hlt := (List.getElem?_eq_some_iff.mp hi).1
    refine h.aimed q w i ?_ hX ((hmarks.waiting_iff hlt).mpr hq)
    rwa [hcoded q hlt hX]

theorem Into.back (h : Into F X T es') (hframe : Frame switch es.coded.length es es')
    (hswitch : ∀ p, switch = some p → p ∈ X) : Into F X T es :=
  h.of_kept (fun q hq hX => hframe.coded q hq fun hs => hX (hswitch q hs)) hframe.marks

theorem Into.of_eq (h : Into F X T es') (hcoded : es'.coded = es.coded) (hmarks : es'.marks = es.marks) : Into F X T es := by
  have hframe : Frame none es.coded.length es es' := .of_eq hcoded hmarks
  exact h.back hframe nofun

/-- It does not matter what is not known of code that is not there yet. -/
theorem Into.weaken {Y : List Nat} (h : Into F Y T es) (hY : ∀ q ∈ Y, q < es.coded.length → q ∈ X) : Into F X T es where
  coded q i hi hX := h.coded q i hi fun hq => hX (hY q hq (List.getElem?_eq_some_iff.mp hi).1)
  aimed q w i hi hX := h.aimed q w i hi fun hq => hX (hY q hq (List.getElem?_eq_some_iff.mp hi).1)

/-- In front of a jump's target being set, it is not known. -/
theorem Into.setjump (h : Into F X T es') (hset : es.setjump (some p) w = some es') : Into F (p :: X) T es where
  coded q i hi hX hq := by
    obtain ⟨hne, hX⟩ := not_or.mp (mt List.mem_cons.mpr hX)
    refine h.coded q i ?_ hX (setjump_marks hset ▸ hq)
    rwa [setjump_getElem? hset fun hp => hne (Option.some.inj hp).symm]
  aimed q v i hi hX hq := by
    obtain ⟨hne, hX⟩ := not_or.mp (mt List.mem_cons.mpr hX)
    refine h.aimed q v i ?_ hX (setjump_marks hset ▸ hq)
    rwa [setjump_getElem? hset fun hp => hne (Option.some.inj hp).symm]

/-- Behind that it is as it stays. -/
theorem Into.aimed_setjump (h : Into F X T es') (hset : es.setjump (some p) w = some es') (hX : p ∉ X)
    (hp : p ∉ pending es.marks) : ∃ i, es.coded[p]? = some i ∧ Aimed F p w i := by
  obtain ⟨i, hi, i', hdisp, hi'⟩ := setjump_aimed hset
  exact ⟨i, hi, i', hdisp, h.coded p i' hi' hX (setjump_marks hset ▸ hp)⟩

/-- The targets of the jumps at `ps` are set, and they are not marked any more. -/
theorem Into.fixed {ps : List Nat} {T' : Nat → Aim} (h : Into F X T' es') (ht : Tidy es)
    (hpending : (pending es.marks).Perm (ps ++ pending es'.marks))
    (hwaiting : ∀ q v, (q, v) ∈ waiting T es.marks → q ∈ ps ∧ v = w ∨ (q, v) ∈ waiting T' es'.marks)
    (hset : ∀ q ∈ ps, ∃ i, es.coded[q]? = some i ∧ Aimed es'.coded q w i)
    (hkept : ∀ q, q ∉ ps → es'.coded[q]? = es.coded[q]?) : Into F X T es where
  coded q i hi hX hq := by
    rw [hpending.mem_iff, List.mem_append, not_or] at hq
    refine h.coded q i ?_ hX hq.2
    rwa [hkept q hq.1]
  aimed q v i hi hX hq := by
    have hdisjoint := List.disjoint_of_nodup_append (hpending.nodup ht.nodup)
    rcases hwaiting q v hq with ⟨hps, rfl⟩ | hq
    · obtain ⟨i₀, hi₀, i', hdisp, hi'⟩ := hset q hps
      obtain rfl := Option.some.inj (hi.symm.trans hi₀)
      exact ⟨i', hdisp, h.coded q i' hi' hX fun hq => hdisjoint hps hq⟩
    · refine h.aimed q v i ?_ hX hq
      rwa [hkept q fun hps => hdisjoint hps (mem_pending.mpr ⟨v, hq⟩)]

theorem Tidy.fixed {ps : List Nat} (ht : Tidy es) (hpending : (pending es.marks).Perm (ps ++ pending es'.marks))
    (hlength : es.coded.length ≤ es'.coded.length) : Tidy es' where
  nodup := (hpending.nodup ht.nodup).of_append_right
  lt q hq := (ht.lt q (hpending.mem_iff.mpr (List.mem_append_right ps hq))).trans_le hlength

/-! ## Marks that are fixed up -/

theorem fixupMark_eq {mark : Codemark} (h : fixupMark w es mark = some es') :
    ∃ es₁, es.setjump mark.pos w = some es₁ ∧ es'.coded = es₁.coded ∧ es'.marks = es.marks := by
  obtain ⟨es₁, h₁, rfl⟩ := Option.map_eq_some_iff.mp h
  exact ⟨es₁, h₁, rfl, mapEvents_marks.trans (setjump_marks h₁)⟩

theorem foldlM_fixupMark {marks : List Codemark} (h : marks.foldlM (fixupMark w) es = some es') :
    es'.marks = es.marks ∧ es'.coded.length = es.coded.length ∧
      ∀ q, q ∉ marks.filterMap Codemark.pos → es'.coded[q]? = es.coded[q]? := by
  induction marks generalizing es with
  | nil =>
    cases h
    exact ⟨rfl, rfl, fun _ _ => rfl⟩
  | cons mark marks ih =>
    obtain ⟨es₁, h₁, h⟩ := Option.bind_eq_some_iff.mp h
    obtain ⟨es₂, h₂, hcoded, hmarks⟩ := fixupMark_eq h₁
    obtain ⟨hmarks', hlength, hkept⟩ := ih h
    refine ⟨hmarks'.trans hmarks, hlength.trans (hcoded ▸ setjump_length h₂), fun q hq => ?_⟩
    rw [List.mem_filterMap] at hq
    have hrest : q ∉ marks.filterMap Codemark.pos := by
      rw [List.mem_filterMap]
      exact fun ⟨m, hm, hpos⟩ => hq ⟨m, List.mem_cons_of_mem mark hm, hpos⟩
    rw [hkept q hrest, hcoded]
    exact setjump_getElem? h₂ fun hp => hq ⟨mark, List.mem_cons_self, hp⟩

theorem foldlM_fixupMark_aimed {marks : List Codemark} (h : marks.foldlM (fixupMark w) es = some es')
    (hnodup : (marks.filterMap Codemark.pos).Nodup) :
    ∀ q ∈ marks.filterMap Codemark.pos, ∃ i, es.coded[q]? = some i ∧ Aimed es'.coded q w i := by
  induction marks generalizing es with
  | nil => exact nofun
  | cons mark marks ih =>
    obtain ⟨es₁, h₁, h⟩ := Option.bind_eq_some_iff.mp h
    obtain ⟨es₂, h₂, hcoded, -⟩ := fixupMark_eq h₁
    intro q hq
    cases hpos : mark.pos with
    | none =>
      rw [List.filterMap_cons_none hpos] at hnodup hq
      obtain ⟨i, hi, haimed⟩ := ih h hnodup q hq
      refine ⟨i, ?_, haimed⟩
      rwa [hcoded, setjump_getElem? h₂ (by rw [hpos]; nofun)] at hi
    | some p =>
      rw [List.filterMap_cons_some hpos] at hnodup hq
      rw [hpos] at h₂
      obtain ⟨hp, hnodup⟩ := List.nodup_cons.mp hnodup
      rcases List.mem_cons.mp hq with rfl | hq
      · obtain ⟨i, hi, i', hdisp, hi'⟩ := setjump_aimed h₂
        refine ⟨i, hi, i', hdisp, ?_⟩
        rwa [(foldlM_fixupMark h).2.2 q hp, hcoded]
      · obtain ⟨i, hi, haimed⟩ := ih h hnodup q hq
        refine ⟨i, ?_, haimed⟩
        rwa [hcoded, setjump_getElem? h₂ fun h => hp (Option.some.inj h ▸ hq)] at hi

/-- What is marked when the jumps of the current context have been fixed up, and what is known of the code. -/
structure FixedUp (es es' : Coding L) (ps : List Nat) (ms : List Marks) : Prop where
  marks : es'.marks = ms
  length : es'.coded.length = es.coded.length
  kept : ∀ q, q ∉ ps → es'.coded[q]? = es.coded[q]?
  aimed : ps.Nodup → ∀ q ∈ ps, ∃ i, es.coded[q]? = some i ∧ Aimed es'.coded q es.coded.length i

theorem fixup_fixedUp {jumps : Context → List Codemark} {unlink : Context → Context} {c : Context} {cs : List Context}
    (hc : es.contexts = c :: cs) (h : es.fixup jumps unlink = some es') :
    FixedUp es es' ((jumps c).filterMap Codemark.pos) ((unlink c).marks :: cs.map Context.marks) := by
  unfold Coding.fixup at h
  rw [hc] at h
  dsimp only at h
  obtain ⟨hmarks, hlength, hkept⟩ := foldlM_fixupMark h
  have haimed := foldlM_fixupMark_aimed h
  exact ⟨hmarks, hlength, hkept, haimed⟩

theorem fixupBreaks_fixedUp (hm : es.marks = m :: ms) (h : es.fixupBreaks = some es') :
    FixedUp es es' m.ends ({ m with ends := [] } :: ms) := by
  unfold Coding.marks at hm
  obtain ⟨c, cs, hc, rfl, rfl⟩ := List.map_eq_cons_iff.mp hm
  exact fixup_fixedUp hc h

theorem fixupContinuations_fixedUp (hm : es.marks = m :: ms) (h : es.fixupContinuations = some es') :
    FixedUp es es' m.conts ({ m with conts := [] } :: ms) := by
  unfold Coding.marks at hm
  obtain ⟨c, cs, hc, rfl, rfl⟩ := List.map_eq_cons_iff.mp hm
  exact fixup_fixedUp hc h

section

variable {ps : List Nat}

theorem FixedUp.tidy (h : FixedUp es es' ps ms) (ht : Tidy es) (hpending : (pending es.marks).Perm (ps ++ pending ms)) :
    Tidy es' := by
  rw [← h.marks] at hpending
  exact ht.fixed hpending h.length.ge

theorem FixedUp.into {T' : Nat → Aim} (h : FixedUp es es' ps ms) (ht : Tidy es) (hi : Into F X T' es')
    (hpending : (pending es.marks).Perm (ps ++ pending ms))
    (hwaiting : ∀ q v, (q, v) ∈ waiting T es.marks → q ∈ ps ∧ v = es.coded.length ∨ (q, v) ∈ waiting T' ms) :
    Into F X T es := by
  rw [← h.marks] at hpending hwaiting
  exact hi.fixed ht hpending hwaiting (h.aimed (hpending.nodup ht.nodup).of_append_left) h.kept

theorem FixedUp.frame (h : FixedUp es es' ps ms) (hps : ∀ q ∈ ps, n ≤ q) (hms : KeepsAll n switch.isSome es.marks ms) :
    Frame switch n es es' where
  length := h.length.ge
  coded q hq _ := h.kept q fun hmem => (hps q hmem).not_gt hq
  marks := by rwa [h.marks]

end

theorem pending_ends : (pending (m :: ms)).Perm (m.ends ++ pending ({ m with ends := [] } :: ms)) := by
  rw [pending, pending, List.nil_append, List.append_assoc]

theorem pending_conts : (pending (m :: ms)).Perm (m.conts ++ pending ({ m with conts := [] } :: ms)) := by
  rw [pending, pending, List.append_nil, ← List.append_assoc]
  exact List.perm_append_comm.append_right _

theorem waiting_ends {v : Nat} (h : (q, v) ∈ waiting (under ⟨w, a.cont⟩ T) (m :: ms)) :
    q ∈ m.ends ∧ v = w ∨ (q, v) ∈ waiting (under a T) ({ m with ends := [] } :: ms) := by
  rw [waiting, List.append_assoc, List.mem_append] at h
  rcases h with h | h
  · obtain ⟨q', hq, heq⟩ := List.mem_map.mp h
    cases heq
    exact .inl ⟨hq, rfl⟩
  · exact .inr h

theorem waiting_conts {v : Nat} (h : (q, v) ∈ waiting (under ⟨a.brk, w⟩ T) (m :: ms)) :
    q ∈ m.conts ∧ v = w ∨ (q, v) ∈ waiting (under a T) ({ m with conts := [] } :: ms) := by
  rw [waiting, List.mem_append, List.mem_append] at h
  rcases h with (h | h) | h
  · exact .inr (List.mem_append_left _ (List.mem_append_left _ h))
  · obtain ⟨q', hq, heq⟩ := List.mem_map.mp h
    cases heq
    exact .inl ⟨hq, rfl⟩
  · exact .inr (List.mem_append_right _ h)

end

end Events

end Eel
