-- SUMMARY: The optimizer keeps instructions whole and the line table in step with them, and comes to an end.
import Eel.Compiler.Optimizer

/-!
# Runs of the optimizer
-/

namespace Eel

/-! ## What is emitted -/

section Emitting

variable {ins i1 i2 : Nat → Byte} {i : Nat} {op : Opcode} {args : List (BitVec 32)} {k : Emission}
  {lo hi : Byte}

/-- The emitter emits the instruction, wherever it is called. -/
def Emits (k : Emission) (ins : CodeIns) : Prop := ∀ cdr, k cdr = .ok (cdr.doCode ins.bytes)

theorem fits_o8 : OperandKind.u8.Fits (o8 ins i).toInt := by
  have := (ins i).isLt
  have hnat : (o8 ins i).toNat = (ins i).toNat := by
    rw [o8, BitVec.toNat_setWidth]
    omega
  rw [BitVec.toInt_eq_toNat_of_lt (by omega), hnat]
  unfold OperandKind.Fits
  omega

/-- Two bytes are those of a word. -/
theorem exists_word (lo hi : Byte) :
    ∃ v : BitVec 32, lo = v.setWidth 8 ∧ hi = v.extractLsb' 8 8 := by
  have hlo := lo.isLt
  have hhi := hi.isLt
  refine ⟨BitVec.ofNat 32 (hi.toNat * 256 + lo.toNat), ?_, ?_⟩
  · apply BitVec.eq_of_toNat_eq
    rw [BitVec.toNat_setWidth, BitVec.toNat_ofNat]
    omega
  · apply BitVec.eq_of_toNat_eq
    rw [BitVec.extractLsb'_toNat, BitVec.toNat_ofNat, Nat.shiftRight_eq_div_pow]
    omega

theorem fits_o16 : OperandKind.u16.Fits (o16 ins i).toInt := by
  obtain ⟨v, hlo, hhi⟩ := exists_word (ins i) (ins (i + 1))
  have hword : o16 ins i = (v.setWidth 16).setWidth 32 := by
    rw [o16, hlo, hhi, word_eq]
  have := (v.setWidth 16).isLt
  have hnat : (o16 ins i).toNat = (v.setWidth 16).toNat := by
    rw [hword, BitVec.toNat_setWidth]
    omega
  rw [BitVec.toInt_eq_toNat_of_lt (by omega), hnat]
  unfold OperandKind.Fits
  omega

theorem fits_os16 : OperandKind.s16.Fits (os16 ins i).toInt := by
  obtain ⟨v, hlo, hhi⟩ := exists_word (ins i) (ins (i + 1))
  have hword : os16 ins i = (v.setWidth 16).signExtend 32 := by
    rw [os16, hlo, hhi, sword_eq]
  rw [hword, BitVec.toInt_signExtend_of_le (by omega)]
  have hle := BitVec.le_toInt (v.setWidth 16)
  have hlt := BitVec.toInt_lt (x := v.setWidth 16)
  unfold OperandKind.Fits
  omega

variable {f g h' e : Nat → Byte} {j l n : Nat}

theorem fits_A : Layout.A.Fits [o8 f i] :=
  .cons fits_o8 .nil

theorem fits_AB : Layout.AB.Fits [o8 f i, o8 g j] :=
  .cons fits_o8 (.cons fits_o8 .nil)

theorem fits_ABC : Layout.ABC.Fits [o8 f i, o8 g j, o8 h' l] :=
  .cons fits_o8 (.cons fits_o8 (.cons fits_o8 .nil))

theorem fits_ABCD : Layout.ABCD.Fits [o8 f i, o8 g j, o8 h' l, o8 e n] :=
  .cons fits_o8 (.cons fits_o8 (.cons fits_o8 (.cons fits_o8 .nil)))

theorem fits_AxBx : Layout.AxBx.Fits [o16 f i, o16 g j] :=
  .cons fits_o16 (.cons fits_o16 .nil)

theorem fits_AxsBx : Layout.AxsBx.Fits [o16 f i, os16 g j] :=
  .cons fits_o16 (.cons fits_os16 .nil)

theorem fits_AsBx : Layout.AsBx.Fits [o8 f i, os16 g j] :=
  .cons fits_o8 (.cons fits_os16 .nil)

theorem fits_ABx : Layout.ABx.Fits [o8 f i, o16 g j] :=
  .cons fits_o8 (.cons fits_o16 .nil)

theorem fits_ABsCx : Layout.ABsCx.Fits [o8 f i, o8 g j, os16 h' l] :=
  .cons fits_o8 (.cons fits_o8 (.cons fits_os16 .nil))

theorem fits_ABCx : Layout.ABCx.Fits [o8 f i, o8 g j, o16 h' l] :=
  .cons fits_o8 (.cons fits_o8 (.cons fits_o16 .nil))

theorem fits_ABCDx : Layout.ABCDx.Fits [o8 f i, o8 g j, o8 h' l, o16 e n] :=
  .cons fits_o8 (.cons fits_o8 (.cons fits_o8 (.cons fits_o16 .nil)))

/-- Branches are emitted without a target. -/
theorem fits_AsB0 : Layout.AsBx.Fits [o8 f i, 0] :=
  .cons fits_o8 (.cons ⟨Int.le_of_lt (by decide), by decide⟩ .nil)

/-- An emitter whose operands fit emits a whole instruction. -/
theorem emits_of_fits (op : Opcode) (args : List (BitVec 32))
    (hk : ∀ cdr : Coder, cdr.codeFor op args = some (k cdr)) (hfits : op.layout.Fits args) :
    ∃ ins : CodeIns, ins.op = op ∧ Emits k ins := by
  have hwhole := Coder.iSize_eq hfits
  refine ⟨⟨op, kindBytes op.layout.kinds args, hwhole⟩, rfl, fun cdr => ?_⟩
  exact Option.some.inj ((hk cdr).symm.trans (Coder.codeFor_of_fits hfits))

variable {op1 op2 : Opcode} {keepregs : Bool}

theorem of_guard {p : Prop} [Decidable p] {k' : Emission} (h : (if p then none else some k') = some k) :
    k' = k := by
  split at h
  · cases h
  · exact Option.some.inj h

/-- For a pair, less is emitted than was there. -/
def EmitsLess (n : Nat) (k : Emission) : Prop := ∃ ins : CodeIns, ins.op.iSize < n ∧ Emits k ins

theorem emitsLess_of_fits (op : Opcode) (args : List (BitVec 32))
    (hk : ∀ cdr : Coder, cdr.codeFor op args = some (k cdr)) (hfits : op.layout.Fits args) {o1 o2 : Opcode}
    (h1 : some op1 = some o1) (h2 : some op2 = some o2) (hlt : op.iSize < o1.iSize + o2.iSize) :
    EmitsLess (op1.iSize + op2.iSize) k := by
  obtain ⟨ins, rfl, hins⟩ := emits_of_fits op args hk hfits
  obtain rfl := Option.some.inj h1
  obtain rfl := Option.some.inj h2
  exact ⟨ins, hlt, hins⟩

theorem pairCode_spec (h1 : Opcode.ofByte (i1 0) = some op1) (h2 : Opcode.ofByte (i2 0) = some op2)
    (h : FragCoder.pairCode keepregs i1 i2 = some k) : EmitsLess (op1.iSize + op2.iSize) k := by
  unfold FragCoder.pairCode at h
  rw [h1, h2] at h
  split at h
  · obtain rfl := Option.some.inj h
    exact emitsLess_of_fits .push2 [_, _] (fun _ => rfl) fits_AB ‹some op1 = _› ‹some op2 = _› (by decide)
  · obtain rfl := Option.some.inj h
    exact emitsLess_of_fits .push3 [_, _, _] (fun _ => rfl) fits_ABC ‹some op1 = _› ‹some op2 = _› (by decide)
  · obtain rfl := Option.some.inj h
    exact emitsLess_of_fits .push4 [_, _, _, _] (fun _ => rfl) fits_ABCD ‹some op1 = _› ‹some op2 = _› (by decide)
  · obtain rfl := Option.some.inj h
    exact emitsLess_of_fits .pushc2 [_, _] (fun _ => rfl) fits_AxBx ‹some op1 = _› ‹some op2 = _› (by decide)
  · obtain rfl := Option.some.inj h
    exact emitsLess_of_fits .pushci [_, _] (fun _ => rfl) fits_AxsBx ‹some op1 = _› ‹some op2 = _› (by decide)
  · obtain rfl := Option.some.inj h
    exact emitsLess_of_fits .pushic [_, _] (fun _ => rfl) fits_AxsBx ‹some op1 = _› ‹some op2 = _› (by decide)
  · obtain rfl := of_guard h
    exact emitsLess_of_fits .jumpnz [_, _] (fun _ => rfl) fits_AsB0 ‹some op1 = _› ‹some op2 = _› (by decide)
  · obtain rfl := of_guard h
    exact emitsLess_of_fits .jumpz [_, _] (fun _ => rfl) fits_AsB0 ‹some op1 = _› ‹some op2 = _› (by decide)
  · obtain rfl := of_guard h
    exact emitsLess_of_fits .initi [_, _] (fun _ => rfl) fits_AsBx ‹some op1 = _› ‹some op2 = _› (by decide)
  · obtain rfl := of_guard h
    exact emitsLess_of_fits .assigni [_, _] (fun _ => rfl) fits_AsBx ‹some op1 = _› ‹some op2 = _› (by decide)
  · obtain rfl := of_guard h
    exact emitsLess_of_fits .initnil [_] (fun _ => rfl) fits_A ‹some op1 = _› ‹some op2 = _› (by decide)
  · obtain rfl := of_guard h
    exact emitsLess_of_fits .asnnil [_] (fun _ => rfl) fits_A ‹some op1 = _› ‹some op2 = _› (by decide)
  · obtain rfl := of_guard h
    exact emitsLess_of_fits .initc [_, _] (fun _ => rfl) fits_ABx ‹some op1 = _› ‹some op2 = _› (by decide)
  · obtain rfl := of_guard h
    exact emitsLess_of_fits .assignc [_, _] (fun _ => rfl) fits_ABx ‹some op1 = _› ‹some op2 = _› (by decide)
  · obtain rfl := of_guard h
    exact emitsLess_of_fits .phargi [_] (fun _ => rfl) fits_A ‹some op1 = _› ‹some op2 = _› (by decide)
  · obtain rfl := Option.some.inj h
    exact emitsLess_of_fits .phargi2 [_, _] (fun _ => rfl) fits_AB ‹some op1 = _› ‹some op2 = _› (by decide)
  · obtain rfl := of_guard h
    exact emitsLess_of_fits .phbop [_, _, _] (fun _ => rfl) fits_ABC ‹some op1 = _› ‹some op2 = _› (by decide)
  · obtain rfl := of_guard h
    exact emitsLess_of_fits .phbopi [_, _, _] (fun _ => rfl) fits_ABsCx ‹some op1 = _› ‹some op2 = _› (by decide)
  · obtain rfl := of_guard h
    exact emitsLess_of_fits .indgetc [_, _, _] (fun _ => rfl) fits_ABCx ‹some op1 = _› ‹some op2 = _› (by decide)
  · obtain rfl := of_guard h
    exact emitsLess_of_fits .indsetc [_, _, _] (fun _ => rfl) fits_ABCx ‹some op1 = _› ‹some op2 = _› (by decide)
  · obtain rfl := of_guard h
    exact emitsLess_of_fits .bopc [_, _, _, _] (fun _ => rfl) fits_ABCDx ‹some op1 = _› ‹some op2 = _› (by decide)
  · cases h

theorem bopCode_layout {b : Byte} (h : FragCoder.bopCode b = some op) : op.layout = .ABC := by
  unfold FragCoder.bopCode at h
  split at h <;> cases h <;> rfl

theorem phbopCode_layout {b : Byte} (h : FragCoder.phbopCode b = some op) : op.layout = .AB := by
  unfold FragCoder.phbopCode at h
  split at h <;> cases h <;> rfl

theorem singleCode_spec (h1 : Opcode.ofByte (i1 0) = some op1) (h : FragCoder.singleCode i1 = some k) :
    EmitsLess op1.iSize k := by
  unfold FragCoder.singleCode at h
  rw [h1] at h
  split at h
  case h_1 heq =>
    obtain rfl := Option.some.inj heq
    obtain ⟨op, hop, rfl⟩ := Option.map_eq_some_iff.mp h
    have hlayout := bopCode_layout hop
    obtain ⟨ins, rfl, hins⟩ := emits_of_fits op [o8 i1 1, o8 i1 2, o8 i1 4]
      (fun cdr => by rw [Coder.codeFor]; simp only [hlayout]) (hlayout ▸ fits_ABC)
    exact ⟨ins, by rw [Opcode.iSize, hlayout]; decide, hins⟩
  case h_2 heq =>
    obtain rfl := Option.some.inj heq
    obtain ⟨op, hop, rfl⟩ := Option.map_eq_some_iff.mp h
    have hlayout := phbopCode_layout hop
    obtain ⟨ins, rfl, hins⟩ := emits_of_fits op [o8 i1 1, o8 i1 3]
      (fun cdr => by rw [Coder.codeFor]; simp only [hlayout]) (hlayout ▸ fits_AB)
    exact ⟨ins, by rw [Opcode.iSize, hlayout]; decide, hins⟩
  case h_3 => cases h

end Emitting

/-! ## Substituting -/

section Cutting

variable {α : Type} {before out after new : List α}

theorem cut_append {start : Nat} {count : Int} (hstart : start = before.length) (hcount : count = out.length) :
    cut (before ++ (out ++ after)) start count = some (before ++ after) := by
  subst hstart hcount
  unfold cut
  rw [if_pos]
  · rw [List.take_left, Int.toNat_natCast, ← List.length_append, ← List.append_assoc, List.drop_left]
  · simp only [List.length_append]
    omega

theorem paste_append {dst src len : Nat} (hdst : dst = before.length) (hlen : len = out.length)
    (hsrc : src = before.length + out.length + after.length) (hnew : new.length = len) :
    paste (before ++ (out ++ (after ++ new))) dst src len = some (before ++ (new ++ (after ++ new))) := by
  subst hdst hlen hsrc
  have hdrop : (before ++ (out ++ (after ++ new))).drop (before.length + out.length + after.length) = new := by
    rw [← List.append_assoc, ← List.append_assoc, ← List.length_append, ← List.length_append, List.drop_left]
  have hrest : (before ++ (out ++ (after ++ new))).drop (before.length + out.length) = after ++ new := by
    rw [← List.append_assoc, ← List.length_append, List.drop_left]
  unfold paste
  rw [if_pos]
  · rw [hdrop, hrest, List.take_left, ← hnew, List.take_length, List.append_assoc]
  · simp only [List.length_append]
    omega

end Cutting

namespace FragCoder

/-- The coder with these instructions and lines in the buffers. -/
def holding (cdr : FragCoder) (items : List (CodeIns × Int)) : FragCoder :=
  { cdr with code := CodeIns.code items, lines := CodeIns.lines items }

section Substituting

variable {cdr : FragCoder} {body done before group after : List (CodeIns × Int)} {k : Emission}
  {ins : CodeIns} {pc : Nat} {keepregs : Bool}

theorem codeAt_item {item : CodeIns × Int} (h : CodeIns.code (before ++ item :: after) <+: cdr.code) :
    cdr.codeAt (CodeIns.code before).length = item.1.op.byte := by
  obtain ⟨rest, hrest⟩ := h
  unfold codeAt
  rw [← hrest, CodeIns.code_append, List.append_assoc, List.getD_eq_getElem?_getD,
    List.getElem?_append_right (Nat.le_refl _), Nat.sub_self]
  rfl

/-- The line entry of a position is found by counting instructions from the start of the fragment. -/
theorem lineIndex_eq (h : CodeIns.code (body ++ done) <+: cdr.code) :
    cdr.lineIndex (CodeIns.code (body ++ done)).length (CodeIns.code body).length body.length =
      (body ++ done).length := by
  induction done generalizing body with
  | nil =>
    unfold lineIndex
    rw [List.append_nil, if_neg (Nat.lt_irrefl _)]
  | cons item done ih =>
    have hstep : body ++ item :: done = (body ++ [item]) ++ done := by simp
    have hlen : (CodeIns.code (body ++ [item])).length = (CodeIns.code body).length + item.1.op.iSize := by
      simp
    have hlt : (CodeIns.code body).length < (CodeIns.code (body ++ item :: done)).length := by
      have := @Layout.osize_pos item.1.op.layout
      simp [Opcode.iSize]
      omega
    unfold lineIndex
    rw [if_pos hlt, codeAt_item h, iSizeOf_byte, ← hlen]
    rw [hstep] at h ⊢
    have hnext := ih h
    rwa [List.length_append, List.length_singleton] at hnext

/-- What is in the place of a group of instructions afterwards: nothing in dead code, else the new
instruction with the last line of the group. -/
def replaced (dead : Bool) (ins : CodeIns) (group : List (CodeIns × Int)) : List (CodeIns × Int) :=
  if dead then [] else group.getLast?.toList.map fun last => (ins, last.2)

theorem regroups_replaced (hgroup : group ≠ []) :
    Regroups (cdr.dead = true) group (replaced cdr.dead ins group) := by
  unfold replaced
  split
  · rename_i hdead
    have := Regroups.gone hdead group .nil
    rwa [List.append_nil] at this
  · rw [List.getLast?_eq_getLast_of_ne_nil hgroup]
    have hmem : (group.getLast hgroup).2 ∈ group.map Prod.snd :=
      List.mem_map_of_mem (List.getLast_mem hgroup)
    have := @Regroups.keep _ _ (cdr.dead = true) group [] [] ins _ hmem .nil
    rwa [List.append_nil] at this

/-- The moves: `M1` is the excess, `M2` has the size of the new code `N`, and so for the lines. -/
theorem substitute_lists {A M1 M2 Z N : List Byte} {LA LM1 LM2 LZ NL : List Int}
    (hcode : cdr.code = A ++ (M1 ++ (M2 ++ Z))) (hlines : cdr.lines = LA ++ (LM1 ++ (LM2 ++ LZ)))
    (hN : N.length = M2.length) (hNL : NL.length = LM2.length)
    (hindex : { cdr with code := cdr.code ++ N, lines := cdr.lines ++ NL }.lineIndex A.length
      cdr.fragstart cdr.fragline = LA.length) :
    substitute cdr { cdr with code := cdr.code ++ N, lines := cdr.lines ++ NL } A.length
        (M1 ++ M2).length (LM1 ++ LM2).length =
      some { cdr with code := A ++ (N ++ Z), lines := LA ++ (LM2 ++ LZ) } := by
  have hlen : cdr.code.length = A.length + (M1.length + (M2.length + Z.length)) := by
    simp [hcode]
  have hlens : cdr.lines.length = LA.length + (LM1.length + (LM2.length + LZ.length)) := by
    simp [hlines]
  have hnew : (cdr.code ++ N).length - cdr.code.length = N.length := by simp
  have hdiff : ((M1 ++ M2).length : Int) - (N.length : Nat) = M1.length := by
    rw [List.length_append]
    omega
  have hicdiff : ((LM1 ++ LM2).length : Int) - ((cdr.lines ++ NL).length - (cdr.lines.length : Int)) =
      LM1.length := by
    rw [List.length_append, List.length_append]
    omega
  have hlines1 : codeRemoveLineinfo { cdr with code := cdr.code ++ N, lines := cdr.lines ++ NL } A.length
      LM1.length = some { cdr with code := cdr.code ++ N, lines := LA ++ (LM2 ++ (LZ ++ NL)) } := by
    unfold codeRemoveLineinfo
    dsimp only
    rw [hindex, hlines, List.append_assoc, List.append_assoc, List.append_assoc, cut_append rfl rfl]
    rfl
  have hcode1 : codeRemoveBytes { cdr with code := cdr.code ++ N, lines := LA ++ (LM2 ++ (LZ ++ NL)) } A.length
      M1.length = some { cdr with code := A ++ (M2 ++ (Z ++ N)), lines := LA ++ (LM2 ++ (LZ ++ NL)) } := by
    unfold codeRemoveBytes
    dsimp only
    rw [hcode, List.append_assoc, List.append_assoc, List.append_assoc, cut_append rfl rfl]
    rfl
  have hend : ((cdr.code.length : Int) - M1.length).toNat = A.length + M2.length + Z.length := by omega
  have hnlines : ((cdr.lines.length : Int) - LM1.length).toNat = (LA ++ (LM2 ++ LZ)).length := by
    simp only [List.length_append]
    omega
  have htake : (LA ++ (LM2 ++ (LZ ++ NL))).take (LA ++ (LM2 ++ LZ)).length = LA ++ (LM2 ++ LZ) := by
    have hassoc : LA ++ (LM2 ++ (LZ ++ NL)) = LA ++ (LM2 ++ LZ) ++ NL := by simp only [List.append_assoc]
    rw [hassoc, List.take_left]
  have hcode2 : codeRemoveBytes { cdr with code := A ++ (N ++ (Z ++ N)), lines := LA ++ (LM2 ++ LZ) }
      (A.length + M2.length + Z.length) N.length =
        some { cdr with code := A ++ (N ++ Z), lines := LA ++ (LM2 ++ LZ) } := by
    have hcut := @cut_append _ (A ++ (N ++ Z)) N [] (A.length + M2.length + Z.length) N.length
      (by simp only [List.length_append]; omega) rfl
    rw [List.append_nil, List.append_nil] at hcut
    unfold codeRemoveBytes
    dsimp only
    rw [← List.append_assoc N, ← List.append_assoc A, hcut]
    rfl
  unfold substitute
  simp only [hnew, hdiff, hicdiff, hlines1, Option.bind_eq_bind, Option.bind_some, hcode1, hend, hnlines,
    htake, paste_append rfl hN rfl rfl, hcode2]

/-- Nothing is emitted in dead code. -/
theorem emitting_eq (hk : Emits k ins) :
    (cdr.emitting k).toOption = some { cdr with
      code := cdr.code ++ (if cdr.dead then [] else ins.bytes),
      lines := cdr.lines ++ (if cdr.dead then [] else [cdr.line]) } := by
  unfold emitting
  rw [hk]
  by_cases hdead : cdr.dead = true
  · simp only [Coder.doCode, if_pos hdead, List.append_nil]
    rfl
  · simp only [Coder.doCode, if_neg hdead]
    rfl

/-- The new instruction takes the place of a group, and gets its last line. -/
theorem substitute_eq (done after : List (CodeIns × Int)) (hk : Emits k ins) (hgroup : group ≠ [])
    (hsize : ins.op.iSize ≤ (CodeIns.code group).length)
    (hstart : cdr.fragstart = (CodeIns.code body).length) (hline : cdr.fragline = body.length) :
    ∃ new, ((cdr.holding (body ++ done ++ (group ++ after))).emitting k).toOption = some new ∧
      substitute (cdr.holding (body ++ done ++ (group ++ after))) new (CodeIns.code (body ++ done)).length
          (CodeIns.code group).length group.length =
        some (cdr.holding (body ++ done ++ (replaced cdr.dead ins group ++ after))) := by
  have hcode : (cdr.holding (body ++ done ++ (group ++ after))).code =
      CodeIns.code (body ++ done) ++ (CodeIns.code group ++ CodeIns.code after) := by
    simp [holding]
  have hlines : (cdr.holding (body ++ done ++ (group ++ after))).lines =
      CodeIns.lines (body ++ done) ++ (CodeIns.lines group ++ CodeIns.lines after) := by
    simp [holding]
  have hindex : ∀ N NL, { cdr.holding (body ++ done ++ (group ++ after)) with
      code := (cdr.holding (body ++ done ++ (group ++ after))).code ++ N,
      lines := (cdr.holding (body ++ done ++ (group ++ after))).lines ++ NL }.lineIndex
        (CodeIns.code (body ++ done)).length cdr.fragstart cdr.fragline =
          (CodeIns.lines (body ++ done)).length := by
    intro N NL
    rw [hstart, hline, CodeIns.length_lines]
    refine lineIndex_eq ?_
    dsimp only
    rw [hcode, List.append_assoc]
    exact List.prefix_append _ _
  have hlen : group.length = (CodeIns.lines group).length := CodeIns.length_lines.symm
  refine ⟨_, emitting_eq hk, ?_⟩
  rw [hlen, show (cdr.holding (body ++ done ++ (group ++ after))).dead = cdr.dead from rfl]
  by_cases hdead : cdr.dead = true
  · have h := @substitute_lists (cdr.holding (body ++ done ++ (group ++ after))) (CodeIns.code (body ++ done))
      (CodeIns.code group) [] (CodeIns.code after) [] (CodeIns.lines (body ++ done)) (CodeIns.lines group) []
      (CodeIns.lines after) [] hcode hlines rfl rfl (hindex [] [])
    rw [List.append_nil (CodeIns.code group), List.append_nil (CodeIns.lines group)] at h
    simp only [if_pos hdead]
    refine h.trans (congrArg some ?_)
    simp [holding, replaced, hdead]
  · have hcut : (CodeIns.code group).length - ins.op.iSize ≤ (CodeIns.code group).length := Nat.sub_le _ _
    obtain ⟨init, last, rfl⟩ : ∃ init last, group = init ++ [last] :=
      ⟨_, _, (List.dropLast_append_getLast hgroup).symm⟩
    have hM : CodeIns.code (init ++ [last]) =
        (CodeIns.code (init ++ [last])).take ((CodeIns.code (init ++ [last])).length - ins.op.iSize) ++
          (CodeIns.code (init ++ [last])).drop ((CodeIns.code (init ++ [last])).length - ins.op.iSize) :=
      (List.take_append_drop _ _).symm
    have hM2 : ins.bytes.length =
        ((CodeIns.code (init ++ [last])).drop ((CodeIns.code (init ++ [last])).length - ins.op.iSize)).length := by
      rw [CodeIns.length_bytes, List.length_drop]
      omega
    generalize (CodeIns.code (init ++ [last])).take _ = M1 at hM
    generalize (CodeIns.code (init ++ [last])).drop _ = M2 at hM hM2
    rw [hM, List.append_assoc M1] at hcode
    rw [@CodeIns.lines_append init, List.append_assoc (CodeIns.lines init)] at hlines
    have h := @substitute_lists (cdr.holding (body ++ done ++ (init ++ [last] ++ after)))
      (CodeIns.code (body ++ done)) M1 M2 (CodeIns.code after) ins.bytes (CodeIns.lines (body ++ done))
      (CodeIns.lines init) (CodeIns.lines [last]) (CodeIns.lines after) [cdr.line] hcode hlines hM2 rfl
      (hindex _ _)
    rw [← hM, ← CodeIns.lines_append] at h
    simp only [if_neg hdead]
    refine h.trans (congrArg some ?_)
    simp [holding, replaced, hdead, CodeIns.lines]

theorem length_replaced {dead : Bool} :
    (CodeIns.code (replaced dead ins group)).length ≤ ins.op.iSize := by
  unfold replaced
  cases dead with
  | true => exact Nat.zero_le _
  | false =>
    cases group.getLast? with
    | none => exact Nat.zero_le _
    | some last => simp

/-- `rest` has become `rest'` after `pc`; when something was done, the code is shorter. -/
structure Steps (cdr : FragCoder) (body done rest : List (CodeIns × Int)) (r : Option (Bool × FragCoder))
    (c : Bool) (rest' : List (CodeIns × Int)) : Prop where
  result : r = some (c, cdr.holding (body ++ done ++ rest'))
  regroups : Regroups (cdr.dead = true) rest rest'
  shorter : (CodeIns.code rest').length + c.toNat ≤ (CodeIns.code rest).length

theorem steps_refl {rest : List (CodeIns × Int)} :
    Steps cdr body done rest (some (false, cdr.holding (body ++ done ++ rest))) false rest :=
  ⟨rfl, .refl rest, Nat.le_refl _⟩

theorem substitute_steps (done after : List (CodeIns × Int))
    (hk : EmitsLess (CodeIns.code group).length k) (hgroup : group ≠ [])
    (hstart : cdr.fragstart = (CodeIns.code body).length) (hline : cdr.fragline = body.length) :
    ∃ rest', Steps cdr body done (group ++ after)
      (do
        let new ← ((cdr.holding (body ++ done ++ (group ++ after))).emitting k).toOption
        let cdr ← substitute (cdr.holding (body ++ done ++ (group ++ after))) new
          (CodeIns.code (body ++ done)).length (CodeIns.code group).length group.length
        some (true, cdr)) true rest' := by
  obtain ⟨ins, hlt, hins⟩ := hk
  obtain ⟨new, hnew, hsub⟩ := substitute_eq done after hins hgroup (Nat.le_of_lt hlt) hstart hline
  refine ⟨replaced cdr.dead ins group ++ after, ?_, (regroups_replaced hgroup).append (.refl after), ?_⟩
  · simp only [hnew, hsub, Option.bind_eq_bind, Option.bind_some]
  · have := @length_replaced group ins cdr.dead
    simp only [CodeIns.code_append, List.length_append, Bool.toNat_true]
    omega

theorem pairSubst_steps (keepregs : Bool) (done : List (CodeIns × Int)) (item : CodeIns × Int)
    (rest : List (CodeIns × Int))
    (hstart : cdr.fragstart = (CodeIns.code body).length) (hline : cdr.fragline = body.length) :
    ∃ c rest', Steps cdr body done (item :: rest)
      (pairSubst (cdr.holding (body ++ done ++ item :: rest)) keepregs (CodeIns.code (body ++ done)).length)
      c rest' := by
  have h1 : (cdr.holding (body ++ done ++ item :: rest)).codeAt (CodeIns.code (body ++ done)).length =
      item.1.op.byte := codeAt_item (List.prefix_refl _)
  have hpc2 : (CodeIns.code (body ++ done)).length + item.1.op.iSize =
      (CodeIns.code (body ++ done ++ [item])).length := by simp [Nat.add_assoc]
  unfold pairSubst
  simp only [Nat.add_zero, h1, iSizeOf_byte, hpc2]
  split
  · exact ⟨false, _, steps_refl⟩
  · rename_i hlt
    cases rest with
    | nil => exact absurd (Nat.le_refl _) hlt
    | cons item2 rest =>
      have h2 : (cdr.holding (body ++ done ++ item :: item2 :: rest)).codeAt
          (CodeIns.code (body ++ done ++ [item])).length = item2.1.op.byte := by
        have hpre : CodeIns.code (body ++ done ++ [item] ++ item2 :: rest) <+:
            (cdr.holding (body ++ done ++ item :: item2 :: rest)).code := by
          rw [List.append_assoc (body ++ done)]
          exact List.prefix_refl _
        exact codeAt_item hpre
      simp only [h2, iSizeOf_byte]
      split
      · exact ⟨false, _, steps_refl⟩
      · rename_i k hk
        have hless := pairCode_spec ((congrArg Opcode.ofByte h1).trans Opcode.ofByte_byte)
          ((congrArg Opcode.ofByte h2).trans Opcode.ofByte_byte) hk
        have hsize : (CodeIns.code [item, item2]).length = item.1.op.iSize + item2.1.op.iSize := by simp
        rw [← hsize] at hless ⊢
        obtain ⟨rest', hrest⟩ := substitute_steps done rest hless (List.cons_ne_nil _ _) hstart hline
        exact ⟨true, rest', hrest⟩

theorem singleSubst_steps (done rest : List (CodeIns × Int))
    (hstart : cdr.fragstart = (CodeIns.code body).length) (hline : cdr.fragline = body.length) :
    ∃ c rest', Steps cdr body done rest
      (singleSubst (cdr.holding (body ++ done ++ rest)) (CodeIns.code (body ++ done)).length) c rest' := by
  unfold singleSubst
  cases rest with
  | nil =>
    refine ⟨false, [], ?_⟩
    have hend : (cdr.holding (body ++ done ++ [])).code.length ≤ (CodeIns.code (body ++ done)).length := by
      rw [List.append_nil]
      exact Nat.le_refl _
    simp only [if_pos hend]
    exact steps_refl
  | cons item rest =>
    have h1 : (cdr.holding (body ++ done ++ item :: rest)).codeAt (CodeIns.code (body ++ done)).length =
        item.1.op.byte := codeAt_item (List.prefix_refl _)
    simp only [Nat.add_zero, h1, iSizeOf_byte]
    split
    · exact ⟨false, _, steps_refl⟩
    · split
      · exact ⟨false, _, steps_refl⟩
      · rename_i k hk
        have hless := singleCode_spec ((congrArg Opcode.ofByte h1).trans Opcode.ofByte_byte) hk
        have hsize : (CodeIns.code [item]).length = item.1.op.iSize := by simp
        rw [← hsize] at hless ⊢
        obtain ⟨rest', hrest⟩ := substitute_steps done rest hless (List.cons_ne_nil _ _) hstart hline
        exact ⟨true, rest', hrest⟩

end Substituting

/-! ## Whole runs -/

section Running

variable {cdr : FragCoder} {body : List (CodeIns × Int)} {keepregs : Bool}

theorem pass_zero_rest {items : List (CodeIns × Int)} {pc rounds : Nat} {changed : Bool} (hrounds : 0 < rounds)
    (hpc : (CodeIns.code items).length ≤ pc) :
    pass keepregs rounds pc changed (cdr.holding items) = some (changed, cdr.holding items) := by
  obtain ⟨m, rfl⟩ := Nat.exists_eq_succ_of_ne_zero (Nat.ne_of_gt hrounds)
  exact if_neg (Nat.not_lt.mpr hpc)

/-- One round, if there is an instruction left. -/
theorem pass_step (keepregs : Bool) (done : List (CodeIns × Int)) (item : CodeIns × Int)
    (rest : List (CodeIns × Int)) (changed : Bool)
    (hstart : cdr.fragstart = (CodeIns.code body).length) (hline : cdr.fragline = body.length) :
    ∃ c rest', (∀ rounds, pass keepregs (rounds + 1) (CodeIns.code (body ++ done)).length changed
        (cdr.holding (body ++ done ++ item :: rest)) =
      pass keepregs rounds ((CodeIns.code (body ++ done)).length +
          iSizeOf ((cdr.holding (body ++ done ++ rest')).codeAt (CodeIns.code (body ++ done)).length)) c
        (cdr.holding (body ++ done ++ rest'))) ∧
      Regroups (cdr.dead = true) (item :: rest) rest' ∧
      (CodeIns.code rest').length ≤ (CodeIns.code (item :: rest)).length ∧
      (CodeIns.code rest').length + c.toNat ≤ (CodeIns.code (item :: rest)).length + changed.toNat := by
  obtain ⟨c1, rest1, hpair⟩ := pairSubst_steps keepregs done item rest hstart hline
  obtain ⟨c2, rest2, hsingle⟩ := singleSubst_steps done rest1 hstart hline
  refine ⟨changed || c1 || c2, rest2, fun rounds => ?_, hpair.regroups.trans hsingle.regroups, ?_, ?_⟩
  · have hlt : (CodeIns.code (body ++ done)).length < (cdr.holding (body ++ done ++ item :: rest)).code.length := by
      have := @Layout.osize_pos item.1.op.layout
      simp [holding, Opcode.iSize]
      omega
    rw [pass, if_pos hlt, hpair.result]
    simp only [Option.bind_eq_bind, Option.bind_some, hsingle.result]
  · have h1 := hpair.shorter
    have h2 := hsingle.shorter
    omega
  · have h1 := hpair.shorter
    have h2 := hsingle.shorter
    have hor : (changed || c1 || c2).toNat ≤ changed.toNat + c1.toNat + c2.toNat := by
      cases changed <;> cases c1 <;> cases c2 <;> decide
    omega

/-- A pass goes through the rest of the fragment. -/
theorem pass_eq (keepregs : Bool) (hstart : cdr.fragstart = (CodeIns.code body).length)
    (hline : cdr.fragline = body.length) (n : Nat)
    (done rest : List (CodeIns × Int)) (changed : Bool) (hn : (CodeIns.code rest).length = n) :
    ∃ c rest', (∀ rounds, n < rounds →
        pass keepregs rounds (CodeIns.code (body ++ done)).length changed (cdr.holding (body ++ done ++ rest)) =
          some (c, cdr.holding (body ++ done ++ rest'))) ∧
      Regroups (cdr.dead = true) rest rest' ∧ (CodeIns.code rest').length + c.toNat ≤ n + changed.toNat := by
  induction n using Nat.strongRecOn generalizing done rest changed with
  | ind n ih =>
    cases rest with
    | nil =>
      refine ⟨changed, [], fun rounds hrounds => ?_, .nil, ?_⟩
      · exact pass_zero_rest (Nat.lt_of_le_of_lt (Nat.zero_le n) hrounds) (by rw [List.append_nil])
      · exact Nat.add_le_add_right (Nat.zero_le n) _
    | cons item rest =>
      obtain ⟨c, rest2, hstep, hregroups, hle, hshort⟩ := pass_step keepregs done item rest changed hstart hline
      have hpos := @Layout.osize_pos item.1.op.layout
      have hn1 : 1 ≤ n := by
        rw [← hn]
        simp [Opcode.iSize]
        omega
      cases rest2 with
      | nil =>
        refine ⟨c, [], fun rounds hrounds => ?_, hregroups, hn ▸ hshort⟩
        obtain ⟨m, rfl⟩ := Nat.exists_eq_succ_of_ne_zero (Nat.ne_of_gt (Nat.zero_lt_of_lt hrounds))
        rw [hstep m]
        refine pass_zero_rest (by omega) ?_
        rw [List.append_nil]
        exact Nat.le_add_right _ _
      | cons x tail =>
        have hnext : (CodeIns.code (body ++ done)).length +
            iSizeOf ((cdr.holding (body ++ done ++ x :: tail)).codeAt (CodeIns.code (body ++ done)).length) =
              (CodeIns.code (body ++ (done ++ [x]))).length := by
          rw [codeAt_item (List.prefix_refl _), iSizeOf_byte]
          simp [Nat.add_assoc]
        have hitems : body ++ done ++ x :: tail = body ++ (done ++ [x]) ++ tail := by simp
        have hx : (CodeIns.code (x :: tail)).length = x.1.op.iSize + (CodeIns.code tail).length := by simp
        have hxpos := @Layout.osize_pos x.1.op.layout
        have htail : (CodeIns.code tail).length < n := by
          unfold Opcode.iSize at hx
          omega
        obtain ⟨c', rest', hrun, hregroups', hshort'⟩ := ih _ htail (done ++ [x]) tail c rfl
        have hitems' : body ++ done ++ x :: rest' = body ++ (done ++ [x]) ++ rest' := by simp
        refine ⟨c', x :: rest', fun rounds hrounds => ?_, hregroups.trans (hregroups'.append_left [x]), ?_⟩
        · obtain ⟨m, rfl⟩ := Nat.exists_eq_succ_of_ne_zero (Nat.ne_of_gt (Nat.zero_lt_of_lt hrounds))
          rw [hstep m, hnext, hitems, hitems']
          exact hrun m (by omega)
        · have hx' : (CodeIns.code (x :: rest')).length = x.1.op.iSize + (CodeIns.code rest').length := by simp
          omega

/-- The passes come to an end, as each but the last makes the code shorter. -/
theorem passes_eq (keepregs : Bool) (hstart : cdr.fragstart = (CodeIns.code body).length)
    (hline : cdr.fragline = body.length) (n : Nat)
    (frag : List (CodeIns × Int)) (hn : (CodeIns.code frag).length = n) :
    ∃ frag', (∀ rounds m, n < rounds → n < m →
        passes keepregs rounds m (cdr.holding (body ++ frag)) = some (cdr.holding (body ++ frag'))) ∧
      Regroups (cdr.dead = true) frag frag' := by
  induction n using Nat.strongRecOn generalizing frag with
  | ind n ih =>
    cases hpeephole : cdr.peephole with
    | false =>
      refine ⟨frag, fun rounds m _ hm => ?_, .refl frag⟩
      obtain ⟨m, rfl⟩ := Nat.exists_eq_succ_of_ne_zero (Nat.ne_of_gt (Nat.zero_lt_of_lt hm))
      have hpeep : ¬ (cdr.holding (body ++ frag)).peephole = true := by
        rw [show (cdr.holding (body ++ frag)).peephole = cdr.peephole from rfl, hpeephole]
        exact Bool.false_ne_true
      exact if_neg hpeep
    | true =>
      obtain ⟨c, frag1, hpass, hregroups, hshort⟩ := pass_eq keepregs hstart hline n [] frag false hn
      have hstep : ∀ rounds m, n < rounds → passes keepregs rounds (m + 1) (cdr.holding (body ++ frag)) =
          if c then passes keepregs rounds m (cdr.holding (body ++ frag1))
          else some (cdr.holding (body ++ frag1)) := by
        intro rounds m hrounds
        have hrun := hpass rounds hrounds
        rw [List.append_nil] at hrun
        have hpeep : (cdr.holding (body ++ frag)).peephole = true := hpeephole
        rw [passes, if_pos hpeep, show (cdr.holding (body ++ frag)).fragstart = cdr.fragstart from rfl,
          hstart, hrun]
        rfl
      cases c with
      | false =>
        refine ⟨frag1, fun rounds m hrounds hm => ?_, hregroups⟩
        obtain ⟨m, rfl⟩ := Nat.exists_eq_succ_of_ne_zero (Nat.ne_of_gt (Nat.zero_lt_of_lt hm))
        exact hstep rounds m hrounds
      | true =>
        have hlt : (CodeIns.code frag1).length < n := Nat.lt_of_succ_le (by simpa using hshort)
        obtain ⟨frag', hrest, hregroups'⟩ := ih _ hlt frag1 rfl
        refine ⟨frag', fun rounds m hrounds hm => ?_, hregroups.trans hregroups'⟩
        obtain ⟨m, rfl⟩ := Nat.exists_eq_succ_of_ne_zero (Nat.ne_of_gt (Nat.zero_lt_of_lt hm))
        rw [hstep rounds m hrounds]
        exact hrest rounds m (by omega) (by omega)

end Running

/-! ## The books -/

/-- The code is that of `body`, and of `frag` from the start of the fragment on, and the line table has
their lines. -/
structure Tabled (cdr : FragCoder) (body frag : List (CodeIns × Int)) : Prop where
  code : cdr.code = CodeIns.code (body ++ frag)
  lines : cdr.lines = CodeIns.lines (body ++ frag)
  fragstart : cdr.fragstart = (CodeIns.code body).length
  fragline : cdr.fragline = body.length

variable {cdr : FragCoder} {body frag : List (CodeIns × Int)}

theorem Tabled.holding_eq (h : cdr.Tabled body frag) : cdr.holding (body ++ frag) = cdr := by
  unfold holding
  rw [← h.code, ← h.lines]

/-- The optimizer comes to an end, regroups the fragment and closes it. -/
theorem Tabled.optimize (h : cdr.Tabled body frag) (keepregs : Bool) :
    ∃ cdr' frag', (∀ rounds, cdr.code.length < rounds → cdr.optimize keepregs rounds = some cdr') ∧
      cdr'.Tabled (body ++ frag') [] ∧ Regroups (cdr.dead = true) frag frag' := by
  obtain ⟨frag', hrun, hregroups⟩ := passes_eq keepregs h.fragstart h.fragline _ frag rfl
  refine ⟨{ cdr.holding (body ++ frag') with
    fragstart := (CodeIns.code (body ++ frag')).length, fragline := (CodeIns.lines (body ++ frag')).length },
    frag', fun rounds hrounds => ?_, ?_, hregroups⟩
  · have hlt : (CodeIns.code frag).length < rounds := by
      rw [h.code, CodeIns.code_append, List.length_append] at hrounds
      omega
    unfold FragCoder.optimize
    rw [← h.holding_eq, hrun rounds rounds hlt hlt]
    rfl
  · refine ⟨?_, ?_, rfl, CodeIns.length_lines⟩
    · rw [List.append_nil]
      rfl
    · rw [List.append_nil]
      rfl

theorem Tabled.take_code (h : cdr.Tabled body frag) :
    cdr.code.take (CodeIns.code body).length = CodeIns.code body := by
  rw [h.code, CodeIns.code_append, List.take_left]

theorem Tabled.take_lines (h : cdr.Tabled body frag) : cdr.lines.take body.length = CodeIns.lines body := by
  rw [h.lines, CodeIns.lines_append, ← CodeIns.length_lines, List.take_left]

/-- The books do not tell where the fragment starts but for these two numbers. -/
theorem Tabled.reopen (h : cdr.Tabled (body ++ frag) []) :
    { cdr with fragstart := (CodeIns.code body).length, fragline := body.length }.Tabled body frag := by
  have hcode := h.code
  have hlines := h.lines
  rw [List.append_nil] at hcode hlines
  exact ⟨hcode, hlines, rfl, rfl⟩

/-- `eel_optimize` terminates. It leaves whole instructions with one line each, that of one of the
instructions they replace, and nothing in front of the fragment changes. The lookup of any position of
the code finds the instruction there with its line. -/
theorem optimize_books (h : cdr.Tabled body frag) (keepregs : Bool) :
    ∃ cdr' frag', (∀ rounds, cdr.code.length < rounds → cdr.optimize keepregs rounds = some cdr') ∧
      cdr'.Tabled (body ++ frag') [] ∧ Regroups (cdr.dead = true) frag frag' ∧
      cdr'.code.take cdr.fragstart = cdr.code.take cdr.fragstart ∧
      cdr'.lines.take cdr.fragline = cdr.lines.take cdr.fragline ∧
      ∀ pos < cdr'.code.length, ∃ before ins line after, body ++ frag' = before ++ (ins, line) :: after ∧
        (CodeIns.code before).length ≤ pos ∧ pos < (CodeIns.code before).length + ins.op.iSize ∧
        CodeListing.findInstruction ⟨false, cdr'.code, cdr'.lines⟩ pos =
          some (((CodeIns.code before).length : Int), some line) := by
  obtain ⟨cdr', frag', hrun, htabled, hregroups⟩ := h.optimize keepregs
  have hopen := htabled.reopen
  refine ⟨cdr', frag', hrun, htabled, hregroups, ?_, ?_, fun pos hpos => ?_⟩
  · rw [h.fragstart, h.take_code]
    exact hopen.take_code
  · rw [h.fragline, h.take_lines]
    exact hopen.take_lines
  · exact CodeListing.findInstruction_eq rfl hopen.code hopen.lines hpos

/-- `LDI 5, R1` and `INIT R0, R1` behind `PUSHNIL`, on lines 3, 4 and 2. -/
theorem optimize_books_ldi :
    ∃ cdr' frag', (∀ rounds, 8 < rounds →
        FragCoder.optimize ⟨⟨[Opcode.pushnil.byte, Opcode.ldi.byte, 1, 5, 0, Opcode.init.byte, 0, 1], false⟩,
          [2, 3, 4], 1, 1, true, 9, 0⟩ false rounds = some cdr') ∧
      cdr'.Tabled ([(⟨.pushnil, [], rfl⟩, 2)] ++ frag') [] := by
  obtain ⟨cdr', frag', hrun, htabled, -⟩ := @optimize_books
    ⟨⟨[Opcode.pushnil.byte, Opcode.ldi.byte, 1, 5, 0, Opcode.init.byte, 0, 1], false⟩, [2, 3, 4], 1, 1, true, 9, 0⟩
    [(⟨.pushnil, [], rfl⟩, 2)] [(⟨.ldi, [1, 5, 0], rfl⟩, 3), (⟨.init, [0, 1], rfl⟩, 4)] ⟨rfl, rfl, rfl, rfl⟩ false
  exact ⟨cdr', frag', hrun, htabled⟩

/-! ## The coder -/

/-- What happens to a coder: it is opened, emits, wherever the parser is by then, and ends fragments. -/
inductive Coded : FragCoder → Prop where
  | opened {cdr : FragCoder} (hcode : cdr.code = []) (hlines : cdr.lines = [])
      (hstart : cdr.fragstart = 0) (hline : cdr.fragline = 0) : Coded cdr
  | emitted {cdr cdr' : FragCoder} (h : Coded cdr) (line : Int) (dead : Bool) (behind : Byte) {k : Emission}
      {ins : CodeIns} (hk : Emits k ins)
      (hnew : ({ cdr with line := line, dead := dead, behind := behind }.emitting k).toOption = some cdr') : Coded cdr'
  | optimized {cdr cdr' : FragCoder} (h : Coded cdr) (keepregs : Bool) {rounds : Nat}
      (hrounds : cdr.code.length < rounds) (hopt : cdr.optimize keepregs rounds = some cdr') : Coded cdr'

/-- The books do not depend on where the parser is. -/
theorem Tabled.move (h : cdr.Tabled body frag) (line : Int) (dead : Bool) (behind : Byte) :
    { cdr with line := line, dead := dead, behind := behind }.Tabled body frag :=
  ⟨h.code, h.lines, h.fragstart, h.fragline⟩

theorem Tabled.emitting {cdr' : FragCoder} {k : Emission} {ins : CodeIns} (h : cdr.Tabled body frag) (hk : Emits k ins)
    (hnew : (cdr.emitting k).toOption = some cdr') :
    cdr'.Tabled body (frag ++ if cdr.dead then [] else [(ins, cdr.line)]) := by
  rw [emitting_eq hk] at hnew
  obtain rfl := Option.some.inj hnew
  refine ⟨?_, ?_, h.fragstart, h.fragline⟩
  · dsimp only
    rw [h.code, ← List.append_assoc, @CodeIns.code_append (body ++ frag)]
    split
    · rfl
    · simp
  · dsimp only
    rw [h.lines, ← List.append_assoc, @CodeIns.lines_append (body ++ frag)]
    split
    · rfl
    · rfl

/-- The books are in order at any time. -/
theorem Coded.tabled (h : Coded cdr) : ∃ body frag, cdr.Tabled body frag := by
  induction h with
  | opened hcode hlines hstart hline => exact ⟨[], [], hcode, hlines, hstart, hline⟩
  | emitted h line dead behind hk hnew ih =>
    obtain ⟨body, frag, hbooks⟩ := ih
    exact ⟨body, _, (hbooks.move line dead behind).emitting hk hnew⟩
  | optimized h keepregs hrounds hopt ih =>
    obtain ⟨body, frag, hbooks⟩ := ih
    obtain ⟨cdr', frag', hrun, htabled, -⟩ := hbooks.optimize keepregs
    obtain rfl := Option.some.inj ((hrun _ hrounds).symm.trans hopt)
    exact ⟨_, _, htabled⟩

end FragCoder

end Eel
