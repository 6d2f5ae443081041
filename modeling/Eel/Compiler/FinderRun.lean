-- SUMMARY: Repeated calls of a symbol finder return every symbol that is searched for once.
import Eel.Compiler.Finder
import Mathlib.Data.List.Flatten

/-!
# Searching a symbol tree

Two states of a finder are the same to further calls if one round leads from one to the other.
So a whole table is passed, with the tables below it, on the way from its first symbol to its end.
-/

namespace Eel

namespace Finder

variable {H : SymbolHeap} {f f' : Finder} {l : List SymId} {hit : Option SymId}

/-! ## Rounds -/

theorem go_eq_loop {t : SymId} (h : f.symtab = some t) (rounds : Nat) : f.eelFinderGo H rounds = loop H rounds f := by
  unfold eelFinderGo
  rw [h]
  exact if_neg (Option.some_ne_none t)

/-- The last round. -/
theorem Yields.complete {t : SymId} (ht : f.symtab = some t) (hround : f.round H = some (.complete f')) :
    Yields H f [] := by
  refine .done (show Returns H f none f' from ⟨1, fun rounds hle => ?_⟩)
  obtain ⟨n, rfl⟩ := Nat.exists_eq_add_of_le' hle
  rw [go_eq_loop ht]
  unfold loop
  rw [hround]
  rfl

/-- A round that goes on, with a hit or without one. -/
theorem Yields.round {t t' : SymId} (ht : f.symtab = some t) (ht' : f'.symtab = some t')
    (hround : f.round H = some (.on f' hit)) (h : Yields H f' l) : Yields H f (hit.toList ++ l) := by
  cases hit with
  | some s =>
    refine .hit ⟨1, fun rounds hle => ?_⟩ h
    obtain ⟨n, rfl⟩ := Nat.exists_eq_add_of_le' hle
    rw [go_eq_loop ht]
    unfold loop
    rw [hround]
    rfl
  | none =>
    have hreturns {r : Option SymId} {f'' : Finder} (hr : Returns H f' r f'') : Returns H f r f'' := by
      obtain ⟨n, hn⟩ := hr
      refine ⟨n + 1, fun rounds hle => ?_⟩
      obtain ⟨k, rfl⟩ : ∃ k, rounds = k + 1 := ⟨rounds - 1, by omega⟩
      have hk := hn k (Nat.le_of_succ_le_succ hle)
      rw [go_eq_loop ht'] at hk
      rw [go_eq_loop ht]
      unfold loop
      rw [hround]
      exact hk
    cases h with
    | done hr => exact .done (hreturns hr)
    | hit hr hrest => exact .hit (hreturns hr) hrest

/-! ## Tests -/

/-- The check for a match is for the symbols that the search is for. -/
theorem test_iff {s : SymbolEntry} {n : SymbolNode} (hname : n.name = s.name) (htype : n.type = s.type) :
    f.test n = true ↔ f.Accepts s := by
  unfold test Accepts
  rw [hname, htype]
  constructor
  · intro h
    split at h
    · cases h
    · next hnot =>
      refine ⟨fun hflag hsome => ?_, fun hflag => ?_⟩
      · refine Decidable.byContradiction fun hne => hnot ⟨hflag, hsome, .inr hne⟩
      · rwa [if_pos hflag] at h
  · rintro ⟨hnames, htypes⟩
    rw [if_neg]
    · split
      · next hflag => exact htypes hflag
      · rfl
    · rintro ⟨hflag, hsome, hnone | hne⟩
      · exact hsome ((hnames hflag hsome).symm.trans hnone)
      · exact hne (hnames hflag hsome)

theorem descends_iff {type : SymType} :
    f.descends type = true ↔ f.flags &&& estfDown ≠ 0 ∧ (f.flags &&& estfTypes ≠ 0 → f.hasType type) := by
  unfold descends
  rw [decide_eq_true_iff, Decidable.imp_iff_not_or, Decidable.not_not]

@[simp] theorem put_flags (symtab symbol : Option SymId) : (f.put symtab symbol).flags = f.flags := rfl

theorem put_put (t x t' x' : Option SymId) : (f.put t x).put t' x' = f.put t' x' := rfl

theorem put_test (t x : Option SymId) (n : SymbolNode) : (f.put t x).test n = f.test n := rfl

theorem put_descends (t x : Option SymId) (type : SymType) : (f.put t x).descends type = f.descends type := rfl

/-! ## A table -/

/-- A symbol that is looked at. -/
theorem round_cons {p s : SymId} {x : Option SymId} {name : Option ObjId} {type : SymType} {symbols next : SymbolList}
    (hcursor : (f.put (some p) x).cursor H = some (some s))
    (hs : H s = some ⟨name, type, some p, next.first?, symbols.first?⟩) :
    (f.put (some p) x).round H = some (.on
      (if symbols.first? ≠ none ∧ f.descends type then f.put (some s) none else f.put (some p) (some s))
      (if f.Accepts ⟨s, name, type, symbols⟩ then some s else none)) := by
  have htest : (f.test ⟨name, type, some p, next.first?, symbols.first?⟩ = true) =
      f.Accepts ⟨s, name, type, symbols⟩ := propext (test_iff rfl rfl)
  unfold round
  rw [hcursor, Option.bind_some]
  dsimp only
  unfold visit
  rw [hs, Option.map_some]
  dsimp only
  rw [put_test, put_descends, put_put, put_put]
  simp only [htest]
  split <;> rfl

/-- The end of a table that was entered. -/
theorem round_sub {p s : SymId} {x : Option SymId} {n : SymbolNode} (hcursor : (f.put (some s) x).cursor H = some none)
    (hup : f.flags &&& estfUp = 0) (hdown : f.flags &&& estfDown ≠ 0) (hstart : f.start ≠ some s)
    (hs : H s = some n) (hparent : n.parent = some p) :
    (f.put (some s) x).round H = some (.on (f.put (some p) (some s)) none) := by
  unfold round
  rw [hcursor, Option.bind_some]
  dsimp only
  unfold leave
  rw [put_flags, if_neg (not_not_intro hup), if_pos hdown, if_neg fun heq => hstart heq.symm]
  show ((some s).bind H).map _ = _
  rw [Option.bind_some, hs, Option.map_some, hparent]
  rfl

/-- From some symbol of a table on, what is found is what the rest of it holds, and then what comes at its end. -/
theorem yields_found {ts : SymbolList} {p : SymId} {x : Option SymId} (hH : H.Holds p ts)
    (hdown : f.flags &&& estfDown ≠ 0 → f.flags &&& estfUp = 0 ∧ ∀ s ∈ ts.ids, f.start ≠ some s)
    (hcursor : (f.put (some p) x).cursor H = some ts.first?)
    (hend : ∀ x, (f.put (some p) x).cursor H = some none → Yields H (f.put (some p) x) l) :
    Yields H (f.put (some p) x) (f.found ts ++ l) := by
  induction ts generalizing p x l with
  | nil => exact hend x hcursor
  | cons s name type symbols next ihsymbols ihnext =>
    obtain ⟨hs, hsymbols, hnext⟩ := hH
    have hin {rs : SymbolList} (hrs : ∀ r ∈ rs.ids, r ∈ symbols.ids ++ next.ids) :
        f.flags &&& estfDown ≠ 0 → f.flags &&& estfUp = 0 ∧ ∀ s ∈ rs.ids, f.start ≠ some s := fun hflag =>
      ⟨(hdown hflag).1, fun r hr => (hdown hflag).2 r (List.mem_cons_of_mem _ (hrs r hr))⟩
    have hrest : Yields H (f.put (some p) (some s)) (f.found next ++ l) := by
      refine ihnext hnext (hin fun r hr => List.mem_append_right _ hr) ?_ hend
      show (H s).map SymbolNode.next = some next.first?
      rw [hs]
      rfl
    have hround := round_cons hcursor hs
    unfold found
    have hhit : (if f.Accepts ⟨s, name, type, symbols⟩ then [s] else []) =
        (if f.Accepts ⟨s, name, type, symbols⟩ then some s else none).toList := by
      split <;> rfl
    rw [hhit, List.append_assoc, List.append_assoc]
    cases hdesc : f.descends type with
    | false =>
      rw [hdesc, if_neg fun h => Bool.false_ne_true h.2] at hround
      rw [if_neg Bool.false_ne_true]
      exact .round rfl rfl hround hrest
    | true =>
      rw [if_pos rfl]
      obtain ⟨hflag, -⟩ := descends_iff.mp hdesc
      obtain ⟨hup, hstart⟩ := hdown hflag
      cases symbols with
      | nil =>
        rw [if_neg fun h => h.1 rfl] at hround
        exact .round rfl rfl hround hrest
      | cons s' name' type' symbols' next' =>
        rw [hdesc, if_pos ⟨Option.some_ne_none s', rfl⟩] at hround
        refine .round rfl rfl hround ?_
        refine ihsymbols hsymbols (hin fun r hr => List.mem_append_left _ hr) ?_ fun y hy => ?_
        · show ((some s).bind H).map SymbolNode.symbols = _
          rw [Option.bind_some, hs]
          rfl
        · exact .round rfl rfl (round_sub hy hup hflag (hstart s List.mem_cons_self) hs rfl) hrest

/-! ## What is found -/

theorem ids_sub {ts : SymbolList} {s : SymbolEntry} (hs : s ∈ ts.toList) : (s.id :: s.symbols.ids).Sublist ts.ids := by
  induction ts with
  | nil => cases hs
  | cons r name type symbols next _ ihnext =>
    rcases List.mem_cons.mp hs with rfl | hs
    · exact (List.sublist_append_left ..).cons_cons r
    · exact ((ihnext hs).trans (List.sublist_append_right ..)).cons r

theorem toList_sub (ts : SymbolList) : (ts.toList.map SymbolEntry.id).Sublist ts.ids := by
  induction ts with
  | nil => exact List.Sublist.slnil
  | cons r name type symbols next _ ihnext => exact (ihnext.trans (List.sublist_append_right ..)).cons_cons r

theorem found_sub (f : Finder) (ts : SymbolList) : (f.found ts).Sublist ts.ids := by
  induction ts with
  | nil => exact List.Sublist.slnil
  | cons r name type symbols next ihsymbols ihnext =>
    unfold found
    rw [List.append_assoc]
    show List.Sublist _ ([r] ++ (symbols.ids ++ next.ids))
    refine List.Sublist.append ?_ (List.Sublist.append ?_ ihnext)
    · split
      · exact List.Sublist.refl _
      · exact List.nil_sublist _
    · split
      · exact ihsymbols
      · exact List.nil_sublist _

theorem found_cons (f : Finder) (r : SymId) (name : Option ObjId) (type : SymType) (symbols next : SymbolList) :
    f.found (.cons r name type symbols next) =
      (if f.Accepts ⟨r, name, type, symbols⟩ then [r] else []) ++ (if f.descends type then f.found symbols else []) ++
        f.found next := rfl

/-- What is found in a table is what is accepted of its symbols, and what is found in those of them that are entered. -/
theorem mem_found_iff {ts : SymbolList} {x : SymId} :
    x ∈ f.found ts ↔ ∃ s ∈ ts.toList, f.Accepts s ∧ s.id = x ∨ f.descends s.type ∧ x ∈ f.found s.symbols := by
  induction ts with
  | nil =>
    refine iff_of_false (fun h => nomatch h) ?_
    rintro ⟨s, hs, -⟩
    cases hs
  | cons r name type symbols next _ ihnext =>
    rw [found_cons, List.mem_append, List.mem_append, ihnext]
    show _ ↔ ∃ s ∈ ⟨r, name, type, symbols⟩ :: next.toList, _
    rw [List.exists_mem_cons_iff]
    refine or_congr (or_congr ?_ ?_) Iff.rfl
    · split
      · next hacc => exact List.mem_singleton.trans ⟨fun heq => ⟨hacc, heq.symm⟩, fun h => h.2.symm⟩
      · next hnot => exact iff_of_false (fun h => nomatch h) fun h => hnot h.1
    · split
      · next hdesc => exact ⟨fun h => ⟨hdesc, h⟩, fun h => h.2⟩
      · next hnot => exact iff_of_false (fun h => nomatch h) fun h => hnot h.1

/-- Without going down, only the table itself is searched. -/
theorem found_eq_filter (hdown : f.flags &&& estfDown = 0) (ts : SymbolList) :
    f.found ts = (ts.toList.filter (f.Accepts ·)).map SymbolEntry.id := by
  induction ts with
  | nil => rfl
  | cons r name type symbols next _ ihnext =>
    have hdesc : f.descends type = false := by
      refine Bool.eq_false_iff.mpr fun h => (descends_iff.mp h).1 hdown
    unfold found
    rw [hdesc, if_neg Bool.false_ne_true, List.append_nil, ihnext]
    show _ = ((⟨r, name, type, symbols⟩ :: next.toList).filter _).map _
    rw [List.filter_cons]
    split
    · next hacc =>
      rw [if_pos (decide_eq_true hacc)]
      rfl
    · next hnot =>
      rw [if_neg fun h => hnot (of_decide_eq_true h)]
      rfl

/-- Going down, what is found are the symbols of the tables that are entered. -/
theorem mem_found_iff_entered (hdown : f.flags &&& estfDown ≠ 0) {start : SymbolEntry} {x : SymId} :
    x ∈ f.found start.symbols ↔ ∃ t, Entered f start t ∧ ∃ s ∈ t.symbols.toList, f.Accepts s ∧ s.id = x := by
  constructor
  · have hentered (ts : SymbolList) (hx : x ∈ f.found ts) (t : SymbolEntry) (ht : Entered f start t)
        (hts : ∀ s ∈ ts.toList, s ∈ t.symbols.toList) :
        ∃ t, Entered f start t ∧ ∃ s ∈ t.symbols.toList, f.Accepts s ∧ s.id = x := by
      induction ts generalizing t with
      | nil => cases hx
      | cons r name type symbols next ihsymbols ihnext =>
        have hr : ⟨r, name, type, symbols⟩ ∈ t.symbols.toList := hts _ List.mem_cons_self
        unfold found at hx
        rcases List.mem_append.mp hx with hx | hx
        · rcases List.mem_append.mp hx with hx | hx
          · split at hx
            · next hacc => exact ⟨t, ht, _, hr, hacc, (List.mem_singleton.mp hx).symm⟩
            · cases hx
          · split at hx
            · next hdesc =>
              exact ihsymbols hx ⟨r, name, type, symbols⟩ (.sub ht hr (descends_iff.mp hdesc).2) fun _ hs => hs
            · cases hx
        · exact ihnext hx t ht fun s hs => hts s (List.mem_cons_of_mem _ hs)
    exact fun hx => hentered _ hx start .start fun _ hs => hs
  · rintro ⟨t, ht, s, hs, hacc, rfl⟩
    have hsub {t : SymbolEntry} (ht : Entered f start t) {x : SymId} (hx : x ∈ f.found t.symbols) :
        x ∈ f.found start.symbols := by
      induction ht with
      | start => exact hx
      | sub ht' hr htype ih => exact ih (mem_found_iff.mpr ⟨_, hr, .inr ⟨descends_iff.mpr ⟨hdown, htype⟩, hx⟩⟩)
    exact hsub ht (mem_found_iff.mpr ⟨s, hs, .inl ⟨hacc, rfl⟩⟩)

end Finder

/-! ## Tables of a tree -/

section Trees

variable {H : SymbolHeap} {root table : SymbolEntry} {tables : List SymbolEntry}

/-- A symbol of a table, in memory. -/
theorem SymbolHeap.Holds.entry {p : SymId} {ts : SymbolList} {s : SymbolEntry} (h : H.Holds p ts) (hs : s ∈ ts.toList) :
    (∃ n, H s.id = some n ∧ n.parent = some p ∧ n.symbols = s.symbols.first?) ∧ H.Holds s.id s.symbols := by
  induction ts with
  | nil => cases hs
  | cons r name type symbols next _ ihnext =>
    obtain ⟨hr, hsymbols, hnext⟩ := h
    rcases List.mem_cons.mp hs with rfl | hs
    · exact ⟨⟨_, hr, rfl, rfl⟩, hsymbols⟩
    · exact ihnext hnext hs

/-- A symbol's own symbols are not beside it. -/
theorem SymbolList.ids_append_subperm {ts : SymbolList} {s : SymbolEntry} (hs : s ∈ ts.toList) :
    (s.symbols.ids ++ ts.toList.map SymbolEntry.id).Subperm ts.ids := by
  induction ts with
  | nil => cases hs
  | cons r name type symbols next _ ihnext =>
    show (s.symbols.ids ++ r :: next.toList.map SymbolEntry.id).Subperm (r :: (symbols.ids ++ next.ids))
    rw [List.perm_middle.subperm_right, List.subperm_cons]
    rcases List.mem_cons.mp hs with rfl | hs
    · exact (List.subperm_append_left _).mpr (Finder.toList_sub next).subperm
    · exact (ihnext hs).trans (List.sublist_append_right ..).subperm

theorem Enclosing.held (henc : Enclosing root table tables) (h : H.IsTree root) :
    (∃ n, H table.id = some n ∧ n.parent = tables.head?.map SymbolEntry.id ∧ n.symbols = table.symbols.first?) ∧
      H.Holds table.id table.symbols := by
  induction henc with
  | root => exact ⟨h.node, h.symbols⟩
  | sub henc hs ih => exact ih.2.entry hs

theorem Enclosing.sub_ids (henc : Enclosing root table tables) :
    (table.id :: table.symbols.ids).Sublist (root.id :: root.symbols.ids) := by
  induction henc with
  | root => exact List.Sublist.refl _
  | sub henc hs ih => exact (Finder.ids_sub hs).trans ((List.sublist_cons_self ..).trans ih)

/-- No symbol is in two tables. -/
theorem Enclosing.nodup (henc : Enclosing root table tables) (h : H.IsTree root) :
    (table.symbols.ids ++ tables.flatMap fun t => t.symbols.toList.map SymbolEntry.id).Nodup := by
  induction henc with
  | root =>
    rw [List.flatMap_nil, List.append_nil]
    exact (List.nodup_cons.mp h.nodup).2
  | sub henc hs ih =>
    rw [List.flatMap_cons, ← List.append_assoc]
    obtain ⟨l, hperm, hsub⟩ := (List.subperm_append_right _).mpr (SymbolList.ids_append_subperm hs)
    exact hperm.nodup_iff.mp (ih.sublist hsub)

end Trees

namespace Finder

variable {H : SymbolHeap} {f : Finder} {root table : SymbolEntry} {tables : List SymbolEntry}

theorem cursor_first (henc : Enclosing root table tables) (h : H.IsTree root) :
    (f.put (some table.id) none).cursor H = some table.symbols.first? := by
  obtain ⟨⟨n, hn, -, hsymbols⟩, -⟩ := henc.held h
  show ((some table.id).bind H).map SymbolNode.symbols = _
  rw [Option.bind_some, hn, Option.map_some, hsymbols]

/-- The end of a table, on the way up. -/
theorem round_up {x : Option SymId} (henc : Enclosing root table tables) (h : H.IsTree root)
    (hup : f.flags &&& estfUp ≠ 0) (hcursor : (f.put (some table.id) x).cursor H = some none) :
    (f.put (some table.id) x).round H = some (match tables with
      | [] => .complete (f.put (some table.id) none)
      | t :: _ => .on (f.put (some t.id) none) none) := by
  obtain ⟨⟨n, hn, hparent, -⟩, -⟩ := henc.held h
  unfold round
  rw [hcursor, Option.bind_some]
  dsimp only
  unfold leave
  rw [put_flags, if_pos hup]
  show ((some table.id).bind H).map _ = _
  rw [Option.bind_some, hn, Option.map_some, hparent]
  cases tables <;> rfl

/-- Upward. -/
theorem yields_up (henc : Enclosing root table tables) (h : H.IsTree root) (hup : f.flags &&& estfUp ≠ 0)
    (hdown : f.flags &&& estfDown = 0) :
    Yields H (f.put (some table.id) none) ((table :: tables).flatMap fun t => f.found t.symbols) := by
  induction henc with
  | root =>
    refine yields_found h.symbols (fun hflag => absurd hdown hflag) (cursor_first .root h) fun x hx => ?_
    exact .complete rfl (round_up .root h hup hx)
  | sub henc hs ih =>
    rw [List.flatMap_cons]
    refine yields_found ((henc.held h).2.entry hs).2 (fun hflag => absurd hdown hflag) (cursor_first (.sub henc hs) h)
      fun x hx => ?_
    exact .round rfl rfl (round_up (.sub henc hs) h hup hx) ih

/-- The end of the table that a search downward starts from. -/
theorem round_start {s : SymId} {x : Option SymId} (hstart : f.start = some s) (hup : f.flags &&& estfUp = 0)
    (hdown : f.flags &&& estfDown ≠ 0) (hcursor : (f.put (some s) x).cursor H = some none) :
    (f.put (some s) x).round H = some (.complete (f.put (some s) none)) := by
  unfold round
  rw [hcursor, Option.bind_some]
  dsimp only
  unfold leave
  rw [put_flags, if_neg (not_not_intro hup), if_pos hdown]
  exact if_pos hstart.symm

/-- Downward. -/
theorem yields_down (henc : Enclosing root table tables) (h : H.IsTree root) (hstart : f.start = some table.id)
    (hup : f.flags &&& estfUp = 0) (hdown : f.flags &&& estfDown ≠ 0) :
    Yields H (f.put (some table.id) none) (f.found table.symbols) := by
  have hnot (s : SymId) (hs : s ∈ table.symbols.ids) : f.start ≠ some s := by
    have hnodup := h.nodup.sublist henc.sub_ids
    rw [hstart]
    rintro heq
    obtain rfl := Option.some.inj heq
    exact (List.nodup_cons.mp hnodup).1 hs
  have hyields := yields_found (l := []) (henc.held h).2 (fun _ => ⟨hup, hnot⟩) (cursor_first henc h)
    fun x hx => .complete rfl (round_start hstart hup hdown hx)
  rwa [List.append_nil] at hyields

end Finder

/-- Upward, calls return the symbols that are searched for of a table and of all that enclose it, innermost first.
Downward, those of the table and of all below it that are entered. Each is returned once, and then there is
`NULL`. -/
theorem finder_yields (H : SymbolHeap) (root table : SymbolEntry) (tables : List SymbolEntry) (h : H.IsTree root)
    (henc : Enclosing root table tables) (name : Option ObjId) (types flags : BitVec 32) :
    let f := { eelFinderInit (some table.id) flags with name, types }
    (flags &&& estfUp ≠ 0 → flags &&& estfDown = 0 → ∃ l, f.Yields H l ∧ l.Nodup ∧
      l = (table :: tables).flatMap fun t => (t.symbols.toList.filter (f.Accepts ·)).map SymbolEntry.id) ∧
    (flags &&& estfDown ≠ 0 → flags &&& estfUp = 0 → ∃ l, f.Yields H l ∧ l.Nodup ∧
      ∀ x, x ∈ l ↔ ∃ t, f.Entered table t ∧ ∃ s ∈ t.symbols.toList, f.Accepts s ∧ s.id = x) := by
  intro f
  have hnodup := henc.nodup h
  refine ⟨fun hup hdown => ⟨_, Finder.yields_up (f := f) henc h hup hdown, ?_, ?_⟩, fun hdown hup =>
    ⟨_, Finder.yields_down (f := f) henc h rfl hup hdown, ?_, fun x => Finder.mem_found_iff_entered hdown⟩⟩
  · refine hnodup.sublist ?_
    rw [List.flatMap_cons]
    refine (Finder.found_sub f table.symbols).append (List.Sublist.flatMap_right tables fun t _ => ?_)
    rw [Finder.found_eq_filter hdown]
    exact List.filter_sublist.map SymbolEntry.id
  · simp only [Finder.found_eq_filter (f := f) hdown]
  · exact (hnodup.sublist (List.sublist_append_left ..)).sublist (Finder.found_sub f table.symbols)

/-- A tree with a namespace that has one symbol, and another symbol beside it. -/
def smallTree : SymbolEntry :=
  ⟨0, none, .module,
    .cons 1 none .namespace (.cons 2 (some 7) .variable .nil .nil) (.cons 3 (some 7) .variable .nil .nil)⟩

def smallHeap : SymbolHeap
  | 0 => some ⟨none, .module, none, none, some 1⟩
  | 1 => some ⟨none, .namespace, some 0, some 3, some 2⟩
  | 2 => some ⟨some 7, .variable, some 1, none, none⟩
  | 3 => some ⟨some 7, .variable, some 0, none, none⟩
  | _ => none

/-- All that is found in it by a name from the namespace upward. -/
theorem finder_yields_name :
    let f := { eelFinderInit (some 1) (estfName ||| estfUp) with name := some 7, types := -1 }
    f.Yields smallHeap [2, 3] := by
  intro f
  have htree : smallHeap.IsTree smallTree :=
    ⟨⟨_, rfl, rfl, rfl⟩, ⟨rfl, ⟨rfl, trivial, trivial⟩, rfl, trivial, trivial⟩, by decide⟩
  have henc : Enclosing smallTree ⟨1, none, .namespace, .cons 2 (some 7) .variable .nil .nil⟩ [smallTree] :=
    .sub .root List.mem_cons_self
  obtain ⟨l, hyields, -, rfl⟩ :=
    (finder_yields smallHeap smallTree _ _ htree henc (some 7) (-1) (estfName ||| estfUp)).1 (by decide) (by decide)
  exact hyields

end Eel
