-- SUMMARY: What a text that fails to compile leaves behind: all is restored, but for its symbols and qualifiers.
import Eel.Compiler.CompileRun

/-!
# Texts that fail

What an action keeps of the state is proved for each of them, and of whole texts by
induction. The contexts of a text end with that of its module.
-/

namespace Eel.Compiler

variable {L : Type} {es es' es'' : Compiler L} {k mid n : Nat} {ns : List Nat} {invalidate : L → L}

/-! ## What is kept -/

/-- What actions keep. The context that they are done in may get another symbol. -/
structure Keeps (es es' : Compiler L) : Prop where
  types : es'.contexts.map Context.type = es.contexts.map Context.type
  tail : es'.contexts.tail = es.contexts.tail
  jumpbufs : es'.jumpbufs = es.jumpbufs
  modnames : es'.modnames = es.modnames
  includeDepth : es'.includeDepth = es.includeDepth
  moduleLock : es'.moduleLock = es.moduleLock

/-- What an error restores: all that was there at the last `eel_try`, where `n` contexts were pushed since. -/
structure Unwound (n : Nat) (es es' : Compiler L) : Prop where
  contexts : es'.contexts = es.contexts.drop n
  jumpbufs : es'.jumpbufs = es.jumpbufs.tail
  modnames : es'.modnames = es.modnames
  includeDepth : es'.includeDepth = es.includeDepth
  moduleLock : es'.moduleLock = es.moduleLock - modules (es.contexts.take n)

/-- What compiling a text restores, whatever comes of it. -/
structure Restores (es es' : Compiler L) : Prop where
  contexts : es'.contexts = es.contexts
  jumpbufs : es'.jumpbufs = es.jumpbufs
  modnames : es'.modnames = es.modnames
  includeDepth : es'.includeDepth = es.includeDepth
  moduleLock : es'.moduleLock = es.moduleLock

theorem Keeps.refl : Keeps es es := ⟨rfl, rfl, rfl, rfl, rfl, rfl⟩

theorem Keeps.trans (h : Keeps es es') (h' : Keeps es' es'') : Keeps es es'' :=
  ⟨h'.types.trans h.types, h'.tail.trans h.tail, h'.jumpbufs.trans h.jumpbufs, h'.modnames.trans h.modnames,
    h'.includeDepth.trans h.includeDepth, h'.moduleLock.trans h.moduleLock⟩

theorem Restores.keeps (h : Restores es es') : Keeps es es' :=
  ⟨by rw [h.contexts], by rw [h.contexts], h.jumpbufs, h.modnames, h.includeDepth, h.moduleLock⟩

/-- Contexts are counted by their types. -/
theorem modules_eq {contexts contexts' : List Context}
    (h : contexts'.map Context.type = contexts.map Context.type) : modules contexts' = modules contexts := by
  have hcount : ∀ cs : List Context, modules cs = (cs.map Context.type).countP (· = .module) := by
    intro cs
    rw [List.countP_map]
    rfl
  rw [hcount, hcount, h]

theorem Keeps.length (h : Keeps es es') : es'.contexts.length = es.contexts.length := by
  have hlen := congrArg List.length h.types
  rwa [List.length_map, List.length_map] at hlen

/-- An error after actions. -/
theorem Keeps.unwound (h : Keeps es es') (h' : Unwound (n + 1) es' es'') : Unwound (n + 1) es es'' where
  contexts := by
    rw [h'.contexts, ← List.drop_tail, ← List.drop_tail, h.tail]
  jumpbufs := by rw [h'.jumpbufs, h.jumpbufs]
  modnames := h'.modnames.trans h.modnames
  includeDepth := h'.includeDepth.trans h.includeDepth
  moduleLock := by
    have htypes : (es'.contexts.take (n + 1)).map Context.type = (es.contexts.take (n + 1)).map Context.type := by
      rw [List.map_take, List.map_take, h.types]
    rw [h'.moduleLock, h.moduleLock, modules_eq htypes]

/-! ## In a module -/

/-- The module `mid` is being compiled, and nothing since has to do with older symbols. -/
structure Inside (mid : Nat) (es : Compiler L) : Prop where
  ok : es.Ok
  stack : ∃ inner c outer, es.contexts = inner ++ c :: outer ∧ c.type = .module ∧ c.symtab.id = mid ∧
    ∀ x ∈ inner, x.type ≠ .module ∧ (x.type = .function → mid < x.symtab.id)

/-- What comes of actions in a module, after `n + 1` contexts were pushed since `eel_try`. -/
def Spec (mid n : Nat) (es : Compiler L) : Except (Compiler L) (Compiler L) → Prop
  | .ok es' => Keeps es es' ∧ Inside mid es' ∧ Grows (mid + 1) es es'
  | .error es' => Unwound (n + 1) es es' ∧ es'.Ok ∧ Grows (mid + 1) es es'

/-- Actions that do what actions in a module do. -/
def Runs (run : Compiler L → Except (Compiler L) (Compiler L)) : Prop :=
  ∀ (es : Compiler L) (mid n : Nat) (ns : List Nat), Inside mid es → es.jumpbufs = (n + 1) :: ns →
    n + 1 < es.contexts.length → Spec mid n es (run es)

theorem Inside.mid_lt (h : Inside mid es) : mid < es.nextSymbol := by
  obtain ⟨inner, c, outer, hstack, -, rfl, -⟩ := h.stack
  exact (h.ok.contexts c (by rw [hstack]; exact List.mem_append_right _ List.mem_cons_self)).1

theorem Inside.of_contexts (h : Inside mid es) (hok : es'.Ok) (hcontexts : es'.contexts = es.contexts) :
    Inside mid es' := by
  obtain ⟨inner, c, outer, hstack, hc⟩ := h.stack
  exact ⟨hok, inner, c, outer, hcontexts.trans hstack, hc⟩

/-- A context within the module is pushed. -/
theorem Inside.link (h : Inside mid es) {x : Context} (hx : x.type ≠ .module)
    (hfunction : x.type = .function → mid < x.symtab.id) (hok : es'.Ok) (hcontexts : es'.contexts = x :: es.contexts) :
    Inside mid es' := by
  obtain ⟨inner, c, outer, hstack, hmodule, hmid, hinner⟩ := h.stack
  refine ⟨hok, x :: inner, c, outer, by rw [hcontexts, hstack, List.cons_append], hmodule, hmid, fun y hy => ?_⟩
  rcases List.mem_cons.mp hy with rfl | hy
  · exact ⟨hx, hfunction⟩
  · exact hinner y hy

/-- The context of the module is below one that is within it. -/
theorem Inside.pop (h : Inside mid es) {x : Context} {rest : List Context} (hcontexts : es.contexts = x :: rest)
    (hx : x.type ≠ .module) (hok : es'.Ok) (hcontexts' : es'.contexts = rest) : Inside mid es' := by
  obtain ⟨inner, c, outer, hstack, hmodule, hmid, hinner⟩ := h.stack
  cases inner with
  | nil =>
    rw [hcontexts] at hstack
    cases hstack
    exact absurd hmodule hx
  | cons y inner =>
    rw [hcontexts] at hstack
    cases hstack
    exact ⟨hok, inner, c, outer, hcontexts', hmodule, hmid, fun z hz => hinner z (List.mem_cons_of_mem _ hz)⟩

/-! ## Contexts -/

/-- A context was pushed, with a new symbol if it is that of a module or a function. -/
structure Pushes (type : ContextType) (x : Context) (es es' : Compiler L) : Prop where
  contexts : es'.contexts = x :: es.contexts
  kind : x.type = type
  fresh : type = .module ∨ type = .function → x.symtab.id = es.nextSymbol ∧ x.symtab ∈ es'.symbols
  jumpbufs : ∀ n ns, es.jumpbufs = n :: ns → es'.jumpbufs = (n + 1) :: ns
  modnames : es'.modnames = es.modnames
  includeDepth : es'.includeDepth = es.includeDepth
  moduleLock : es'.moduleLock = es.moduleLock + modules [x]
  ok : es'.Ok
  grows : ∀ k, Grows k es es'

theorem Ok.count (h : es.Ok) {f : Nat → Nat} : (es.count f).Ok := by
  unfold Compiler.count
  split
  · exact ⟨h.symbols, h.contexts, h.next_pos⟩
  · exact h

theorem Ok.link (h : es.Ok) {type : ContextType} {s : Symbol} (hs : Formed es.nextSymbol s) :
    (es.link type s).Ok where
  symbols := h.symbols
  contexts c hc := by
    rcases List.mem_cons.mp hc with rfl | hc
    · exact hs
    · exact h.contexts c hc
  next_pos := h.next_pos

theorem count_of_cons {f : Nat → Nat} (h : es.jumpbufs = n :: ns) :
    es.count f = { es with jumpbufs := f n :: ns } := by
  unfold Compiler.count
  rw [h]

theorem pushes (h : es.Ok) (hn : es.jumpbufs = n :: ns) (type : ContextType) (name : Option String) :
    ∃ x, Pushes type x es (es.contextPush type name) := by
  have hjumpbufs : ∀ n' ns', es.jumpbufs = n' :: ns' → (n + 1) :: ns = (n' + 1) :: ns' := by
    intro n' ns' hn'
    rw [hn] at hn'
    cases hn'
    rfl
  have hcount : ({ es with jumpbufs := (n + 1) :: ns } : Compiler L).Ok := ⟨h.symbols, h.contexts, h.next_pos⟩
  have hadd : ∀ (parent : Symbol) (symType : SymType), Formed es.nextSymbol parent →
      (({ es with jumpbufs := (n + 1) :: ns } : Compiler L).sAdd parent symType name).2.Ok := by
    intro parent symType hparent
    exact hcount.sAdd hparent
  have hgrows : ∀ (parent : Symbol) (symType : SymType) (k : Nat), Grows k es (es.sAdd parent symType name).2 :=
    fun _ _ _ => grows_sAdd
  unfold contextPush
  rw [count_of_cons hn]
  cases type with
  | block =>
    refine ⟨⟨.block, es.symtab⟩, rfl, rfl, fun hno => ?_, hjumpbufs, rfl, rfl, (Int.add_zero _).symm, ?_, fun k => ?_⟩
    · rcases hno with hno | hno <;> cases hno
    · exact hcount.link h.symtab
    · exact ⟨Nat.le_refl _, fun _ _ hi => hi⟩
  | body =>
    refine ⟨⟨.body, (es.sAdd es.symtab .body name).1⟩, rfl, rfl, fun hno => ?_, hjumpbufs, rfl, rfl,
      (Int.add_zero _).symm, ?_, fun k => ?_⟩
    · rcases hno with hno | hno <;> cases hno
    · exact (hadd es.symtab .body h.symtab).link (Ok.sAdd_formed h.symtab)
    · exact ⟨(hgrows es.symtab .body k).next, (hgrows es.symtab .body k).ids⟩
  | function =>
    refine ⟨⟨.function, (es.sAdd es.symtab .function name).1⟩, rfl, rfl,
      fun _ => ⟨rfl, List.mem_append_right _ List.mem_cons_self⟩, hjumpbufs, rfl, rfl, (Int.add_zero _).symm, ?_, fun k => ?_⟩
    · exact (hadd es.symtab .function h.symtab).link (Ok.sAdd_formed h.symtab)
    · exact ⟨(hgrows es.symtab .function k).next, (hgrows es.symtab .function k).ids⟩
  | module =>
    refine ⟨⟨.module, (es.sAdd root .module name).1⟩, rfl, rfl,
      fun _ => ⟨rfl, List.mem_append_right _ List.mem_cons_self⟩, hjumpbufs, rfl, rfl, rfl, ?_, fun k => ?_⟩
    · have hok := @Ok.link _ _ (hadd root .module h.root) .module _ (Ok.sAdd_formed h.root)
      exact ⟨hok.symbols, hok.contexts, hok.next_pos⟩
    · exact ⟨(hgrows root .module k).next, (hgrows root .module k).ids⟩

/-- A context that was pushed is popped, after actions in it. -/
structure Pops (es es' : Compiler L) : Prop extends Restores es es' where
  ok : es'.Ok

theorem Pushes.pop {type : ContextType} {x : Context} (h : Pushes type x es es') (hkeeps : Keeps es' es'') (hok : es''.Ok)
    (hn : es.jumpbufs = n :: ns) (hne : es.contexts ≠ []) :
    Pops es es''.contextPop ∧ es''.contextPop.symbols = es''.symbols ∧ es''.contextPop.nextSymbol = es''.nextSymbol := by
  obtain ⟨c, rest, hrest⟩ := List.exists_cons_of_ne_nil hne
  have htail := hkeeps.tail
  have htypes := hkeeps.types
  rw [h.contexts] at htail htypes
  cases hcontexts : es''.contexts with
  | nil =>
    rw [hcontexts] at htypes
    cases htypes
  | cons y ys =>
    rw [hcontexts] at htail htypes
    obtain rfl : ys = es.contexts := htail
    have hy : y.type = x.type := (List.cons.inj htypes).1
    rw [hrest] at hcontexts
    have hjumpbufs := hkeeps.jumpbufs.trans (h.jumpbufs n ns hn)
    rw [contextPop_cons hcontexts hjumpbufs]
    refine ⟨⟨⟨hrest.symm, ?_, ?_, ?_, ?_⟩, hok.symbols, fun c' hc' => ?_, hok.next_pos⟩, rfl, rfl⟩
    · exact hn.symm
    · exact hkeeps.modnames.trans h.modnames
    · exact hkeeps.includeDepth.trans h.includeDepth
    · show (if y.type = _ then _ else _) = _
      rw [hkeeps.moduleLock, h.moduleLock, hy]
      by_cases hmodule : x.type = ContextType.module
      · simp [modules, hmodule]
      · simp [modules, hmodule]
    · exact hok.contexts c' (by rw [hcontexts]; exact List.mem_cons_of_mem _ hc')

/-- An error in a context that was pushed. -/
theorem Pushes.unwound {type : ContextType} {x : Context} (h : Pushes type x es es') (h' : Unwound (n + 1) es' es'')
    (hn : es.jumpbufs = n :: ns) : Unwound n es es'' where
  contexts := by rw [h'.contexts, h.contexts, List.drop_succ_cons]
  jumpbufs := by rw [h'.jumpbufs, h.jumpbufs n ns hn, hn, List.tail_cons, List.tail_cons]
  modnames := h'.modnames.trans h.modnames
  includeDepth := h'.includeDepth.trans h.includeDepth
  moduleLock := by
    have hmodules : modules (x :: es.contexts.take n) = modules [x] + modules (es.contexts.take n) := by
      unfold modules
      rw [← List.countP_append, List.singleton_append]
    rw [h'.moduleLock, h.moduleLock, h.contexts, List.take_succ_cons, hmodules]
    omega

theorem Scope.type_ne (t : Scope) : t.type ≠ .module := by
  cases t <;> decide

/-- The actions in a scope of their own. -/
theorem spec_scope {run : Compiler L → Except (Compiler L) (Compiler L)} (hrun : Runs run) (h : Inside mid es)
    (hn : es.jumpbufs = (n + 1) :: ns) (hlt : n + 1 < es.contexts.length) (t : Scope) (name : Option String) :
    Spec mid n es (do let es ← run (es.contextPush t.type name); return es.contextPop) := by
  obtain ⟨x, hpush⟩ := pushes h.ok hn t.type name
  have hinside : Inside mid (es.contextPush t.type name) := by
    refine h.link (hpush.kind ▸ Scope.type_ne t) (fun hfunction => ?_) hpush.ok hpush.contexts
    rw [(hpush.fresh (.inr (hpush.kind ▸ hfunction))).1]
    exact h.mid_lt
  have hpushed := hpush.jumpbufs _ _ hn
  have hlt' : n + 1 + 1 < (es.contextPush t.type name).contexts.length := by
    rw [hpush.contexts, List.length_cons]
    exact Nat.succ_lt_succ hlt
  have hspec := hrun _ _ _ _ hinside hpushed hlt'
  have hne : es.contexts ≠ [] := List.ne_nil_of_length_pos (Nat.zero_lt_of_lt hlt)
  match hres : run (es.contextPush t.type name) with
  | .ok es' =>
    rw [hres] at hspec
    obtain ⟨hkeeps, hinside', hgrows⟩ := hspec
    obtain ⟨hpops, hsymbols, hnext⟩ := hpush.pop hkeeps hinside'.ok hn hne
    have hgrows' := (hpush.grows (mid + 1)).trans hgrows
    refine ⟨hpops.toRestores.keeps, h.of_contexts hpops.ok hpops.contexts, ?_, fun i hi hmem => ?_⟩
    · rw [hnext]
      exact hgrows'.next
    · unfold ids
      rw [hsymbols]
      exact hgrows'.ids i hi hmem
  | .error es' =>
    rw [hres] at hspec
    obtain ⟨hunwound, hok, hgrows⟩ := hspec
    exact ⟨hpush.unwound hunwound hn, hok, (hpush.grows (mid + 1)).trans hgrows⟩

/-! ## Actions -/

/-- An action that works on symbols, and leaves what contexts there are. -/
theorem Inside.spec (h : Inside mid es) (hr : Restores es es') (hok : es'.Ok) (hgrows : Grows (mid + 1) es es') :
    Spec mid n es (.ok es') :=
  ⟨hr.keeps, h.of_contexts hok hr.contexts, hgrows⟩

/-- The symbol of a function in the module gives way to one that was declared there. -/
theorem Inside.spec_redeclare (h : Inside mid es) (decl : Nat) : Spec mid n es (.ok (es.redeclare decl)) := by
  have hself : Spec mid n es (.ok es) := h.spec ⟨rfl, rfl, rfl, rfl, rfl⟩ h.ok .refl
  obtain ⟨inner, m, outer, hstack, hmodule, hmid, hinner⟩ := h.stack
  have hcurrent : es.currentModule = some m.symtab := by
    unfold currentModule
    have hno : inner.find? (fun c => decide (c.type = .module)) = none :=
      List.find?_eq_none.mpr fun x hx => by simpa using (hinner x hx).1
    rw [hstack, List.find?_append, hno, Option.none_or, List.find?_cons_of_pos (by simpa using hmodule)]
    rfl
  unfold redeclare
  cases inner with
  | nil =>
    rw [hstack]
    dsimp only [List.nil_append]
    rw [hmodule]
    exact hself
  | cons c inner =>
    rw [hstack]
    dsimp only [List.cons_append]
    split
    · rename_i s hfunction hdeclared
      have hs : s ∈ es.symbols := List.mem_of_find?_eq_some hdeclared
      have hfound := List.find?_some hdeclared
      rw [hcurrent] at hfound
      have hparent : mid ∈ s.parents := by
        rw [← hmid]
        simpa using (of_decide_eq_true hfound).2
      have hlt : mid < s.id := (h.ok.symbols s hs).2 mid hparent
      have hc : mid < c.symtab.id := (hinner c List.mem_cons_self).2 hfunction
      have hok : (es.sFree c.symtab.id).Ok := h.ok.sFree
      refine ⟨⟨?_, ?_, rfl, rfl, rfl, rfl⟩, ⟨⟨hok.symbols, fun c' hc' => ?_, hok.next_pos⟩, ?_⟩, ?_⟩
      · rw [hstack]
        rw [List.cons_append, List.map_cons, List.map_cons, hfunction]
      · rw [hstack]
        rfl
      · rcases List.mem_cons.mp hc' with rfl | hc'
        · exact h.ok.symbols s hs
        · exact h.ok.contexts c' (by rw [hstack]; exact List.mem_cons_of_mem _ hc')
      · refine ⟨⟨.function, s⟩ :: inner, m, outer, rfl, hmodule, hmid, fun x hx => ?_⟩
        rcases List.mem_cons.mp hx with rfl | hx
        · refine ⟨fun hno => ?_, fun _ => hlt⟩
          cases hno
        · exact hinner x (List.mem_cons_of_mem _ hx)
      · have hgrows := @Ok.grows_sFree _ _ (mid + 1) h.ok _ (Nat.succ_le_of_lt hc)
        exact ⟨hgrows.next, hgrows.ids⟩
    · exact hself

/-- An error. -/
theorem Inside.spec_error (h : Inside mid es) (hn : es.jumpbufs = (n + 1) :: ns) (hlt : n + 1 < es.contexts.length) :
    Spec mid n es (.error es.cthrow) := by
  rw [cthrow_eq hn hlt]
  refine ⟨⟨rfl, ?_, rfl, rfl, rfl⟩, ⟨h.ok.symbols, fun c hc => h.ok.contexts c (List.mem_of_mem_drop hc), h.ok.next_pos⟩,
    Nat.le_refl _, fun _ _ hi => hi⟩
  rw [hn]
  rfl

/-! ## Texts -/

/-- What compiling a text leaves, whatever comes of it: no symbol that was there is gone, and if it fails
there is a new one. -/
structure Leaves (result : Compiled) (circular : Bool) (es es' : Compiler L) : Prop extends Restores es es' where
  ok : es'.Ok
  grows : Grows es.nextSymbol es es'
  left : result = .failed → circular = false → es.nextSymbol ∈ es'.ids

/-- At the level of the module, the symbol of the context is its own. -/
theorem Inside.symtab_id (h : Inside mid es) {types : List ContextType}
    (htypes : es.contexts.map Context.type = .module :: types) : es.symtab.id = mid := by
  obtain ⟨inner, c, outer, hstack, -, hmid, hinner⟩ := h.stack
  unfold Compiler.symtab
  cases inner with
  | nil =>
    rw [hstack]
    exact hmid
  | cons x inner =>
    rw [hstack] at htypes
    exact absurd (List.cons.inj htypes).1 (hinner x List.mem_cons_self).1

/-- The module is left, and its symbols are removed. -/
def leaveModule (invalidate : L → L) (es : Compiler L) : Compiler L :=
  let es := es.contextPop
  let mst := es.symtab
  let es := es.contextPop.sFree mst.id
  { es with lexer := invalidate es.lexer }

theorem compile2_eq {start body : Compiler L → Except (Compiler L) (Compiler L)} :
    compile2 invalidate start body es =
      start ({ es with lexer := invalidate es.lexer }.contextPush .module none) >>= fun es =>
        body (es.contextPush .function none) >>= fun es => .ok (leaveModule invalidate es) := rfl

/-- What `compile2` ends with: an error leaves the symbol of the module. -/
def Ends (es : Compiler L) : Except (Compiler L) (Compiler L) → Prop
  | .ok es' => Restores es es' ∧ es'.Ok ∧ Grows es.nextSymbol es es'
  | .error es' => Unwound 0 es es' ∧ es'.Ok ∧ Grows es.nextSymbol es es' ∧ es.nextSymbol ∈ es'.ids

/-- The lexer does not matter. -/
theorem Ends.of_lexer {lexer : L} {res : Except (Compiler L) (Compiler L)} (h : Ends { es with lexer } res) :
    Ends es res := by
  cases res with
  | ok es' =>
    obtain ⟨hr, hok, hgrows⟩ := h
    exact ⟨⟨hr.contexts, hr.jumpbufs, hr.modnames, hr.includeDepth, hr.moduleLock⟩, hok, hgrows.next, hgrows.ids⟩
  | error es' =>
    obtain ⟨hu, hok, hgrows, hleft⟩ := h
    exact ⟨⟨hu.contexts, hu.jumpbufs, hu.modnames, hu.includeDepth, hu.moduleLock⟩, hok, ⟨hgrows.next, hgrows.ids⟩, hleft⟩

/-- A module of which the contexts were pushed. -/
structure Opened (m : Context) (es es' : Compiler L) : Prop extends Pushes .module m es es' where
  inside : Inside es.nextSymbol es'

theorem Pushes.opened {m : Context} (h : Pushes .module m es es') : Opened m es es' where
  toPushes := h
  inside := ⟨h.ok, [], m, es.contexts, h.contexts, h.kind, (h.fresh (.inl rfl)).1, fun _ hx => absurd hx List.not_mem_nil⟩

/-- An error after the contexts of a module were pushed. -/
theorem Opened.error {m : Context} (h : Opened m es es') (hn : es.jumpbufs = 0 :: ns) (hunwound : Unwound 1 es' es'')
    (hok : es''.Ok) (hgrows : Grows (es.nextSymbol + 1) es' es'') : Ends es (.error es'') := by
  have hmem : es.nextSymbol ∈ es'.ids := by
    obtain ⟨hid, hsymbol⟩ := h.fresh (.inl rfl)
    rw [← hid]
    exact List.mem_map_of_mem hsymbol
  exact ⟨h.unwound hunwound hn, hok, (h.grows _).trans (hgrows.mono (Nat.le_succ _)), hgrows.ids _ (Nat.lt_succ_self _) hmem⟩

/-- The module is left after actions in it. -/
theorem Opened.done {m f : Context} {es₂ es₃ es₄ : Compiler L} (h : Opened m es es') (hn : es.jumpbufs = 0 :: ns)
    (hne : es.contexts ≠ []) (hkeeps : Keeps es' es₂) (hinside : Inside es.nextSymbol es₂)
    (hgrows : Grows (es.nextSymbol + 1) es' es₂) (hpush : Pushes .function f es₂ es₃) (hkeeps' : Keeps es₃ es₄) (hok : es₄.Ok)
    (hgrows' : Grows (es.nextSymbol + 1) es₃ es₄) : Ends es (.ok (leaveModule invalidate es₄)) := by
  have hn' : es₂.jumpbufs = 1 :: ns := hkeeps.jumpbufs.trans (h.jumpbufs 0 ns hn)
  have hne' : es₂.contexts ≠ [] := by
    intro hnil
    have hlen := hkeeps.length
    rw [hnil, h.contexts] at hlen
    cases hlen
  obtain ⟨hpops, hsymbols, hnext⟩ := hpush.pop hkeeps' hok hn' hne'
  have hmodule : Keeps es' es₄.contextPop := hkeeps.trans hpops.toRestores.keeps
  obtain ⟨hpops', hsymbols', hnext'⟩ := h.pop hmodule hpops.ok hn hne
  have htypes : es₄.contextPop.contexts.map Context.type = .module :: es.contexts.map Context.type := by
    rw [hmodule.types, h.contexts, List.map_cons, h.kind]
  have hmst : es₄.contextPop.symtab.id = es.nextSymbol :=
    (hinside.of_contexts hpops.ok hpops.contexts).symtab_id htypes
  have hall : Grows es.nextSymbol es es₄ :=
    ((h.grows _).trans (hgrows.mono (Nat.le_succ _))).trans ((hpush.grows _).trans (hgrows'.mono (Nat.le_succ _)))
  have hpopped : Grows es.nextSymbol es es₄.contextPop.contextPop := by
    refine ⟨?_, fun i hi hmem => ?_⟩
    · rw [hnext', hnext]
      exact hall.next
    · unfold ids
      rw [hsymbols', hsymbols]
      exact hall.ids i hi hmem
  have hfreed : Grows es.nextSymbol es₄.contextPop.contextPop (es₄.contextPop.contextPop.sFree es₄.contextPop.symtab.id) :=
    hpops'.ok.grows_sFree (Nat.le_of_eq hmst.symm)
  have hok' : (es₄.contextPop.contextPop.sFree es₄.contextPop.symtab.id).Ok := hpops'.ok.sFree
  have hend := hpopped.trans hfreed
  exact ⟨⟨hpops'.contexts, hpops'.jumpbufs, hpops'.modnames, hpops'.includeDepth, hpops'.moduleLock⟩,
    ⟨hok'.symbols, hok'.contexts, hok'.next_pos⟩, hend.next, hend.ids⟩

/-- The state `compile2` gets to, or that its error leaves. -/
theorem compile2_ends {start body : Compiler L → Except (Compiler L) (Compiler L)} (hstart : Runs start)
    (hbody : Runs body) (h : es.Ok) (hn : es.jumpbufs = 0 :: ns) (hne : es.contexts ≠ []) :
    Ends es (compile2 invalidate start body es) := by
  have hlex : ({ es with lexer := invalidate es.lexer } : Compiler L).Ok := ⟨h.symbols, h.contexts, h.next_pos⟩
  obtain ⟨m, hm⟩ := pushes hlex hn .module none
  have hopened := hm.opened
  have hlen : 0 + 1 < (({ es with lexer := invalidate es.lexer } : Compiler L).contextPush .module none).contexts.length := by
    rw [hm.contexts, List.length_cons]
    exact Nat.succ_lt_succ (List.length_pos_of_ne_nil hne)
  have hspec := hstart _ _ _ _ hopened.inside (hm.jumpbufs 0 ns hn) hlen
  rw [compile2_eq]
  refine @Ends.of_lexer _ _ (invalidate es.lexer) _ ?_
  match hres : start (({ es with lexer := invalidate es.lexer } : Compiler L).contextPush .module none) with
  | .error es' =>
    rw [hres] at hspec
    exact hopened.error hn hspec.1 hspec.2.1 hspec.2.2
  | .ok es₂ =>
    rw [hres] at hspec
    obtain ⟨hkeeps, hinside, hgrows⟩ := hspec
    have hn' : es₂.jumpbufs = 1 :: ns := hkeeps.jumpbufs.trans (hm.jumpbufs 0 ns hn)
    obtain ⟨f, hf⟩ := pushes hinside.ok hn' .function none
    have hinside' : Inside es.nextSymbol (es₂.contextPush .function none) := by
      refine hinside.link (by rw [hf.kind]; decide) (fun _ => ?_) hf.ok hf.contexts
      rw [(hf.fresh (.inr rfl)).1]
      exact hinside.mid_lt
    have hlen' : 1 + 1 < (es₂.contextPush .function none).contexts.length := by
      rw [hf.contexts, List.length_cons, hkeeps.length]
      exact Nat.succ_lt_succ hlen
    have hspec' := hbody _ _ _ _ hinside' (hf.jumpbufs 1 ns hn') hlen'
    show Ends _ (body (es₂.contextPush .function none) >>= fun es => .ok (leaveModule invalidate es))
    match hres' : body (es₂.contextPush .function none) with
    | .error es' =>
      rw [hres'] at hspec'
      obtain ⟨hunwound, hok, hgrows'⟩ := hspec'
      have hgrows'' := hgrows.trans ((hf.grows _).trans hgrows')
      exact hopened.error hn (hkeeps.unwound (hf.unwound hunwound hn')) hok hgrows''
    | .ok es₄ =>
      rw [hres'] at hspec'
      obtain ⟨hkeeps', hinside'', hgrows'⟩ := hspec'
      exact hopened.done hn hne hkeeps hinside hgrows hf hkeeps' hinside''.ok hgrows'

theorem Restores.refl : Restores es es := ⟨rfl, rfl, rfl, rfl, rfl⟩

theorem modules_take_zero {contexts : List Context} {lock : Int} : lock - modules (contexts.take 0) = lock := by
  simp [modules]

/-- `eel_compile` restores what it changed, before it throws. -/
theorem eelCompile_leaves {start body : Compiler L → Except (Compiler L) (Compiler L)} (hstart : Runs start)
    (hbody : Runs body) {filename : Option String} {warned : Bool} (h : es.Ok) (hne : es.contexts ≠ []) :
    Leaves (eelCompile invalidate filename warned start body es).1 (filename.any (· ∈ es.modnames)) es
      (eelCompile invalidate filename warned start body es).2 := by
  unfold eelCompile
  dsimp only
  split
  · rename_i hcircular
    refine ⟨.refl, h, .refl, fun _ hno => ?_⟩
    rw [hcircular] at hno
    cases hno
  · have hopen : ({ es with modnames := filename.toList ++ es.modnames, includeDepth := 0 } : Compiler L).eelTry.Ok :=
      ⟨h.symbols, h.contexts, h.next_pos⟩
    have hends := @compile2_ends _ _ es.jumpbufs invalidate _ _ hstart hbody hopen rfl hne
    have hmodnames : filename.elim (filename.toList ++ es.modnames) (filename.toList ++ es.modnames).erase =
        es.modnames := by
      cases filename with
      | none => rfl
      | some name => exact List.erase_cons_head ..
    split
    · rename_i es' hres
      rw [hres] at hends
      obtain ⟨hr, hok, hgrows⟩ := hends
      refine ⟨⟨hr.contexts, ?_, ?_, rfl, hr.moduleLock⟩, ⟨hok.symbols, hok.contexts, hok.next_pos⟩,
        ⟨hgrows.next, hgrows.ids⟩, fun hfailed => ?_⟩
      · show es'.jumpbufs.tail = _
        rw [hr.jumpbufs]
        rfl
      · show filename.elim es'.modnames es'.modnames.erase = _
        rw [hr.modnames]
        exact hmodnames
      · split at hfailed <;> cases hfailed
    · rename_i es' hres
      rw [hres] at hends
      obtain ⟨hu, hok, hgrows, hleft⟩ := hends
      refine ⟨⟨hu.contexts, hu.jumpbufs, ?_, rfl, hu.moduleLock.trans modules_take_zero⟩,
        ⟨hok.symbols, hok.contexts, hok.next_pos⟩, ⟨hgrows.next, hgrows.ids⟩, fun _ _ => hleft⟩
      show filename.elim es'.modnames es'.modnames.erase = _
      rw [hu.modnames]
      exact hmodnames

/-- So do those that return what it throws. -/
theorem load_leaves {start body : Compiler L → Except (Compiler L) (Compiler L)} (hstart : Runs start)
    (hbody : Runs body) (loader : Loader) (filename : Option String) (warned : Bool) (h : es.Ok) (hne : es.contexts ≠ []) :
    Leaves (load invalidate loader filename warned start body es).1 (filename.any (· ∈ es.modnames)) es
      (load invalidate loader filename warned start body es).2 := by
  have htry : es.eelTry.Ok := ⟨h.symbols, h.contexts, h.next_pos⟩
  have hleaves := @eelCompile_leaves _ _ invalidate _ _ hstart hbody filename warned htry hne
  unfold load
  generalize eelCompile invalidate filename warned start body es.eelTry = res at hleaves
  obtain ⟨result, es'⟩ := res
  dsimp only at hleaves
  have hcthrow : es'.cthrow = { es' with jumpbufs := es.jumpbufs } := by
    have hlt : 0 < es'.contexts.length := by
      rw [hleaves.contexts]
      exact List.length_pos_of_ne_nil hne
    rw [cthrow_eq hleaves.jumpbufs hlt, modules_take_zero]
    rfl
  have hrestores : Restores es { es' with jumpbufs := es.jumpbufs } :=
    ⟨hleaves.contexts, rfl, hleaves.modnames, hleaves.includeDepth, hleaves.moduleLock⟩
  have hok : ({ es' with jumpbufs := es.jumpbufs } : Compiler L).Ok :=
    ⟨hleaves.ok.symbols, hleaves.ok.contexts, hleaves.ok.next_pos⟩
  have hthrown : ∀ es'' : Compiler L, es''.symbols = es'.symbols → es''.nextSymbol = es'.nextSymbol → es''.Ok →
      Restores es es'' → Leaves result (filename.any (· ∈ es.modnames)) es es'' := by
    intro es'' hsymbols hnext hok'' hrestores''
    refine ⟨hrestores'', hok'', ⟨?_, fun i hi hmem => ?_⟩, fun hfailed hcircular => ?_⟩
    · rw [hnext]
      exact hleaves.grows.next
    · unfold ids
      rw [hsymbols]
      exact hleaves.grows.ids i hi hmem
    · unfold ids
      rw [hsymbols]
      exact hleaves.left hfailed hcircular
  cases result with
  | done =>
    refine hthrown es'.eelDone rfl rfl ⟨hok.symbols, hok.contexts, hok.next_pos⟩ ?_
    refine ⟨hleaves.contexts, ?_, hleaves.modnames, hleaves.includeDepth, hleaves.moduleLock⟩
    show es'.jumpbufs.tail = _
    rw [hleaves.jumpbufs]
    rfl
  | warnings | failed =>
    dsimp only
    rw [hcthrow]
    cases loader with
    | builtin => exact hthrown _ rfl rfl hok hrestores
    | buffer =>
      exact hthrown _ rfl rfl ⟨hok.symbols, hok.contexts, hok.next_pos⟩
        ⟨hrestores.contexts, rfl, hrestores.modnames, hrestores.includeDepth, hrestores.moduleLock⟩

mutual

/-- What each action does. -/
theorem act_runs : (a : Act L) → Runs (act invalidate a)
  | .lex f => by
    intro es mid n ns h _ _
    exact h.spec ⟨rfl, rfl, rfl, rfl, rfl⟩ ⟨h.ok.symbols, h.ok.contexts, h.ok.next_pos⟩
      ⟨Nat.le_refl _, fun _ _ hi => hi⟩
  | .qualify qualifiers => by
    intro es mid n ns h _ _
    exact h.spec ⟨rfl, rfl, rfl, rfl, rfl⟩ ⟨h.ok.symbols, h.ok.contexts, h.ok.next_pos⟩
      ⟨Nat.le_refl _, fun _ _ hi => hi⟩
  | .define type name => by
    intro es mid n ns h _ _
    exact h.spec ⟨rfl, rfl, rfl, rfl, rfl⟩ (h.ok.sAdd h.ok.symtab) grows_sAdd
  | .rename name => by
    intro es mid n ns h _ _
    refine h.spec ⟨rfl, rfl, rfl, rfl, rfl⟩ h.ok.sRename ⟨Nat.le_refl _, fun i _ hi => ?_⟩
    rw [sRename_ids]
    exact hi
  | .register type name => by
    intro es mid n ns h _ _
    exact h.spec ⟨rfl, rfl, rfl, rfl, rfl⟩ (h.ok.sAdd h.ok.root) grows_sAdd
  | .redeclare decl => by
    intro es mid n ns h _ _
    exact h.spec_redeclare decl
  | .scope t name body => by
    intro es mid n ns h hn hlt
    exact spec_scope (acts_runs body) h hn hlt t name
  | .compile loader filename warned start body => by
    intro es mid n ns h _ hlt
    have hne : es.contexts ≠ [] := List.ne_nil_of_length_pos (Nat.zero_lt_of_lt hlt)
    have hleaves := @load_leaves _ _ invalidate _ _ (acts_runs start) (acts_runs body) loader filename warned h.ok hne
    exact h.spec hleaves.toRestores hleaves.ok (hleaves.grows.mono h.mid_lt)
  | .error => by
    intro es mid n ns h hn hlt
    exact h.spec_error hn hlt

theorem acts_runs : (as : List (Act L)) → Runs (acts invalidate as)
  | [] => by
    intro es mid n ns h _ _
    exact h.spec .refl h.ok .refl
  | a :: as => by
    intro es mid n ns h hn hlt
    have hact := act_runs a es mid n ns h hn hlt
    show Spec mid n es (act invalidate a es >>= acts invalidate as)
    match hres : act invalidate a es with
    | .error es' =>
      rw [hres] at hact
      exact hact
    | .ok es' =>
      rw [hres] at hact
      obtain ⟨hkeeps, hinside, hgrows⟩ := hact
      have hrest := acts_runs as _ _ _ _ hinside (hkeeps.jumpbufs.trans hn) (by rw [hkeeps.length]; exact hlt)
      show Spec mid n es (acts invalidate as es')
      match hres' : acts invalidate as es' with
      | .error es'' =>
        rw [hres'] at hrest
        exact ⟨hkeeps.unwound hrest.1, hrest.2.1, hgrows.trans hrest.2.2⟩
      | .ok es'' =>
        rw [hres'] at hrest
        exact ⟨hkeeps.trans hrest.1, hrest.2.1, hgrows.trans hrest.2.2⟩

end

/-! ## No trace -/

/-- A text is compiled, and what it fails with is returned. -/
def compileText (invalidate : L → L) (loader : Loader) (filename : Option String) (warned : Bool)
    (start body : List (Act L)) : Compiler L → Compiled × Compiler L :=
  load invalidate loader filename warned (acts invalidate start) (acts invalidate body)

/-- The state is what it was. -/
structure NoTrace (es es' : Compiler L) : Prop extends Restores es es' where
  qualifiers : es'.qualifiers = es.qualifiers
  lexer : es'.lexer = es.lexer
  symbols : es'.symbols = es.symbols

variable {loader : Loader} {filename : Option String} {warned : Bool} {start body : List (Act L)}

/-- A module that is already being compiled is not compiled. -/
theorem compileText_circular (h : filename.any (· ∈ es.modnames) = true) (hne : es.contexts ≠ []) :
    (compileText invalidate loader filename warned start body es).2 =
      match loader with
      | .builtin => es
      | .buffer => { es with lexer := invalidate es.lexer } := by
  have hcompile : eelCompile invalidate filename warned (acts invalidate start) (acts invalidate body) es.eelTry =
      (.failed, es.eelTry) := by
    unfold eelCompile
    exact if_pos h
  have hcthrow : es.eelTry.cthrow = es := by
    have hlt : 0 < es.eelTry.contexts.length := List.length_pos_of_ne_nil hne
    rw [cthrow_eq rfl hlt, modules_take_zero]
    rfl
  unfold compileText load
  rw [hcompile]
  dsimp only
  rw [hcthrow]
  cases loader <;> rfl

/-- A text that fails leaves no trace only if it was not compiled at all: else the symbol of its module stays
where it is. Contexts, jump buffers, module names, the include depth and the module lock are restored. -/
theorem compileText_noTrace_iff (h : es.Ok) (hne : es.contexts ≠ [])
    (hfailed : (compileText invalidate loader filename warned start body es).1 = .failed) :
    Restores es (compileText invalidate loader filename warned start body es).2 ∧
      (NoTrace es (compileText invalidate loader filename warned start body es).2 ↔
        filename.any (· ∈ es.modnames) = true ∧ (loader = .buffer → invalidate es.lexer = es.lexer)) := by
  have hstart : Runs (acts invalidate start) := acts_runs start
  have hbody : Runs (acts invalidate body) := acts_runs body
  have hleaves := @load_leaves _ es invalidate _ _ hstart hbody loader filename warned h hne
  refine ⟨hleaves.toRestores, fun htrace => ?_, fun ⟨hcircular, hlexer⟩ => ?_⟩
  · have hcircular : filename.any (· ∈ es.modnames) = true := by
      by_contra hno
      obtain ⟨s, hs, hid⟩ := List.mem_map.mp (hleaves.left hfailed (Bool.eq_false_iff.mpr hno))
      have hs' : s ∈ es.symbols := htrace.symbols ▸ hs
      exact absurd hid (Nat.ne_of_lt (h.symbols s hs').1)
    refine ⟨hcircular, fun hloader => ?_⟩
    subst hloader
    have hlexer := htrace.lexer
    rw [compileText_circular hcircular hne] at hlexer
    exact hlexer
  · rw [compileText_circular hcircular hne]
    cases loader with
    | builtin => exact ⟨.refl, rfl, rfl, rfl⟩
    | buffer => exact ⟨⟨rfl, rfl, rfl, rfl, rfl⟩, rfl, hlexer rfl, rfl⟩

/-- The state after `eel_open`, while the modules of `modnames` are being compiled. -/
def opened (modnames : List String) : Compiler Unit where
  contexts := [⟨.block, root⟩]
  jumpbufs := []
  symbols := []
  nextSymbol := 1
  modnames := modnames
  includeDepth := 0
  moduleLock := 0
  qualifiers := 0
  lexer := ()

theorem opened_ok {modnames : List String} : (opened modnames).Ok where
  symbols _ hs := absurd hs List.not_mem_nil
  contexts c hc := by
    rw [List.mem_singleton.mp hc]
    exact ⟨Nat.one_pos, fun _ hi => absurd hi List.not_mem_nil⟩
  next_pos := Nat.one_pos

/-- A module imports itself. -/
theorem compileText_noTrace_circular :
    NoTrace (opened ["a"]) (compileText id .builtin (some "a") false [] [] (opened ["a"])).2 :=
  (@compileText_noTrace_iff _ (opened ["a"]) id .builtin (some "a") false [] [] opened_ok (List.cons_ne_nil _ _)
    rfl).2.mpr ⟨rfl, fun h => Loader.noConfusion h⟩

/-- `export 5;` leaves the symbols of the module and of its function, and `export` for the next text. -/
theorem compileText_leaves_export :
    let es' := compileText id .builtin (some "a") false [.lex id] [.lex id, .qualify 8, .error] (opened [])
    es'.1 = .failed ∧ ¬ NoTrace (opened []) es'.2 ∧ es'.2.symbols.length = 2 ∧ es'.2.qualifiers = 8 := by
  refine ⟨rfl, fun h => ?_, rfl, rfl⟩
  have hsymbols := h.symbols
  cases hsymbols

end Eel.Compiler
