import RangerRisc.Isa
import RangerRisc.LabelAddresses

/-! What `assemble` makes of a load or a store, for every spacing and every form of its operand. -/

namespace RangerRisc.Assembler

open Numeral Regexp Rv32i

namespace MemoryOp
variable (op : MemoryOp)

def expr : MemoryOp → Pattern
  | load _ _ => loadsExpr
  | store _ => storesExpr

def encode : MemoryOp → Context → Except Error Text
  | load _ _ => loads
  | store _ => stores

/-- The word with the given registers and immediate. -/
def word (op : MemoryOp) (reg base : BitVec 5) (f : BitVec 12) : Word :=
  match op with
  | load _ _ => iFormat f base (loadsFunct3 op.name) reg 0b0000011#7
  | store _ => sFormat f reg base (storesFunct3 op.name) 0b0100011#7

/-- `imm_o` of the instruction. -/
def immediate : MemoryOp → Word → Word
  | load _ _ => RangerRisc.immI
  | store _ => RangerRisc.immS

theorem immediate_word (reg base : BitVec 5) (f : BitVec 12) :
    op.immediate (op.word reg base f) = f.signExtend 32 := by
  cases op with
  | load size signed => exact (immI_eq _).trans (immI_iFormat _ _ _ _ f)
  | store size => exact (immS_eq _).trans (immS_sFormat _ _ _ _ f)

theorem dispatch_name (ctx : Context) : dispatch op.name ctx = op.encode ctx := by
  cases op with
  | load size signed => cases size <;> cases signed <;> rfl
  | store size => cases size <;> rfl

theorem rewrite_name (ass : Text) (labels : LabelMap) :
    rewrite op.name ass labels = resolveOperand ass labels >>= replaceOperand ass := by
  cases op with
  | load size signed => cases size <;> cases signed <;> rfl
  | store size => cases size <;> rfl

theorem encode_fields {ctx : Context} {whole imm : Text} {reg base : Register} {v : BitVec 64}
    {f : BitVec 12}
    (hfields : findStringSubmatch op.expr ctx.assembly =
      [whole, op.name, reg.text, imm, base.text])
    (himm : immediateInt imm = .ok v) (hf : immField v = wordBits f) :
    op.encode ctx = .ok (machineCode (wordBits (op.word reg.number base.number f))) := by
  cases op with
  | load size signed =>
    exact loads_fields hfields himm hf reg.stringRegToInt_text base.stringRegToInt_text
      (regBits_number reg) (regBits_number base)
  | store size =>
    exact stores_fields hfields himm hf reg.stringRegToInt_text base.stringRegToInt_text
      (regBits_number reg) (regBits_number base)

/-- An immediate that does not read as a number is refused. -/
theorem encode_error {ctx : Context} {whole name reg imm base : Text} {e : Error}
    (hfields : findStringSubmatch op.expr ctx.assembly = [whole, name, reg, imm, base])
    (himm : immediateInt imm = .error e) : op.encode ctx = .error e := by
  cases op with
  | load size signed =>
    have hfields : findStringSubmatch loadsExpr ctx.assembly =
        [whole, name, reg, imm, base] := hfields
    show loads ctx = .error e
    simp only [loads, hfields, field_zero, field_succ, ok_bind, himm]
    rfl
  | store size =>
    have hfields : findStringSubmatch storesExpr ctx.assembly =
        [whole, name, reg, imm, base] := hfields
    show stores ctx = .error e
    simp only [stores, hfields, field_zero, field_succ, ok_bind, himm]
    rfl

end MemoryOp

/-! ## Fields -/

theorem isWord_ne_colon {t : Text} (h : ∀ c ∈ t, isWord c = true) : ':' ∉ t :=
  not_mem_of_class h rfl

/-- Without a colon nothing is marked as a number of words. -/
theorem immediateInt_eq {t : Text} (h : ':' ∉ t) : immediateInt t = stringHexToInt t := by
  have hmark : contains "WA:".toList t = false := contains_of_not_mem (c := ':') (by decide) h
  rw [immediateInt, hmark]
  cases stringHexToInt t <;> rfl

namespace MemoryLine
variable (l : MemoryLine)

def machineLine (addr : Text) : MachineLine := ⟨l.text, .instruction, addr, []⟩

theorem fields_loadsExpr :
    ∃ whole, findStringSubmatch loadsExpr l.text =
      [whole, l.op.name, l.reg.text, l.operand.text, l.base.text] :=
  fields_spacedOffset l.op.name_lower.1 l.op.name_lower.2 l.gap l.commaGap l.parenGap l.reg l.base
    isOperand l.remark.text l.operand.text_ne_nil l.operand.isOperand_text
    (fun c hc => isOperand_not_blank (l.operand.isOperand_text c hc)) rfl rfl

/-- The operand as it stands, if it is a name alone. -/
theorem fields_expr_name (hmark : l.operand.marked = false) (hadd : l.operand.addend = none) :
    ∃ whole, findStringSubmatch l.op.expr l.text =
      [whole, l.op.name, l.reg.text, l.operand.name.text, l.base.text] := by
  have htext : l.operand.text = l.operand.name.text := by
    simp [Operand.text, Operand.addendText, hmark, hadd]
  cases hop : l.op with
  | load size signed =>
    have hfields := l.fields_loadsExpr
    rw [htext, hop] at hfields
    exact hfields
  | store size =>
    have hfields := fields_spacedOffset l.op.name_lower.1 l.op.name_lower.2 l.gap l.commaGap
      l.parenGap l.reg l.base Assembler.isWord l.remark.text l.operand.name.ne_nil
      l.operand.name.isWord (fun c hc => isWord_not_blank (l.operand.name.isWord c hc)) rfl rfl
    rw [← htext, hop] at hfields
    rw [← htext]
    have hline : l.text = spacedTwo (MemoryOp.store size).name l.gap l.reg.text l.commaGap
        (offsetOperand l.operand.text l.parenGap l.base.text l.remark.text) := by
      rw [text, hop]
    rw [hline]
    exact hfields

/-- The line with its operand replaced. -/
def replaced (v : Text) : Text := lineOffset l.op.name l.reg.text v l.base.text

theorem replaceOperand_text {v : Text} (hv : v ≠ []) :
    replaceOperand l.text v = .ok (l.replaced v) := by
  obtain ⟨whole, hfields⟩ := l.fields_loadsExpr
  rw [replaceOperand, if_neg hv]
  simp only [hfields, field_zero, field_succ, ok_bind]
  show Except.ok _ = _
  simp [replaced, lineOffset, lineTwo]

theorem fields_replaced {v : Text} (hv : v ≠ []) (hword : ∀ c ∈ v, Assembler.isWord c = true) :
    ∃ whole, findStringSubmatch l.op.expr (l.replaced v) =
      [whole, l.op.name, l.reg.text, v, l.base.text] := by
  have hblank : ∀ c ∈ v, isBlank c = false := fun c hc => isWord_not_blank (hword c hc)
  unfold replaced
  cases hop : l.op with
  | load size signed =>
    exact fields_offset (loadName_lower size signed).1 (loadName_lower size signed).2 l.reg l.base
      isOperand hv (fun c hc => isOperand_of_isWord (hword c hc)) hblank rfl rfl
  | store size =>
    exact fields_offset (storeName_lower size).1 (storeName_lower size).2 l.reg l.base
      Assembler.isWord hv hword hblank rfl rfl

theorem plain_replaced {v : Text} (hword : ∀ c ∈ v, Assembler.isWord c = true) :
    Plain (l.replaced v) :=
  plain_append (plain_append (plain_append (plain_append (plain_append (plain_append (plain_append
    (plain_of_isWord l.op.isWord_name) (List.all_eq_true.mp rfl))
    (plain_of_isWord l.reg.isWord_text)) (List.all_eq_true.mp rfl)) (plain_of_isWord hword))
    (List.all_eq_true.mp rfl)) (plain_of_isWord l.base.isWord_text)) (List.all_eq_true.mp rfl)

/-- An operand of `storesExpr` ends at blanks or at the parenthesis. -/
theorem pieces_storesExpr {ss : List Text} (h : List.Forall₂ Item.Fits storesExpr ss) :
    ∃ head j w b after, ss.flatten = head ++ ',' :: (j ++ (w ++ (b ++ '(' :: after))) ∧
      (∀ c ∈ j, isBlank c = true) ∧ (w ≠ [] ∧ ∀ c ∈ w, Assembler.isWord c = true) ∧
      ∀ c ∈ b, isBlank c = true := by
  obtain _ | ⟨-, h⟩ := h
  obtain _ | ⟨-, h⟩ := h
  obtain _ | ⟨-, h⟩ := h
  obtain _ | ⟨hcomma, h⟩ := h
  obtain _ | ⟨hj, h⟩ := h
  obtain _ | ⟨hw, h⟩ := h
  obtain _ | ⟨hb, h⟩ := h
  obtain _ | ⟨hparen, h⟩ := h
  next m sp r comma j w b paren ss =>
  obtain rfl := fits_one hcomma
  obtain rfl := fits_one hparen
  exact ⟨m ++ (sp ++ r), j, w, b, ss.flatten, by simp, hj.cls,
    ⟨List.ne_nil_of_length_pos hw.min, hw.cls⟩, hb.cls⟩

theorem stops_blank_paren {cls : Char → Bool} {b after : Text} (hb : ∀ c ∈ b, isBlank c = true)
    (hspace : cls ' ' = false) (hparen : cls '(' = false) : Stops cls (b ++ '(' :: after) := by
  cases b with
  | nil => exact stops_cons hparen
  | cons c b =>
    obtain rfl : c = ' ' := by simpa [isBlank] using hb c List.mem_cons_self
    exact stops_cons hspace

/-- A store has no operand with a mark or a plus sign. -/
theorem fields_storesExpr_odd (hodd : l.operand.marked = true ∨ l.operand.addend.isSome) :
    findStringSubmatch storesExpr l.text = [] := by
  unfold findStringSubmatch
  cases hm : find storesExpr l.text with
  | none => rfl
  | some m =>
    obtain ⟨pre, ss, last, htext, hfits, -⟩ := exists_pieces_of_find hm
    obtain ⟨head, j, w, b, after, hflat, hj, ⟨hne, hw⟩, hb⟩ := pieces_storesExpr hfits
    have hsplit : pre ++ head ++ ',' :: (j ++ (w ++ (b ++ '(' :: (after ++ last)))) =
        l.head ++ ',' :: l.rest := by
      rw [← text_eq, htext, hflat]
      simp
    obtain ⟨-, -, hrest⟩ := (List.append_cons_inj_of_notMem l.comma_not_mem.1
      l.comma_not_mem.2).mp hsplit.symm
    have hoperand := congrArg (List.dropWhile isBlank) hrest
    rw [rest_eq, dropWhile_append_stops (isBlank_blanks _) (stops_append l.operand.text_ne_nil
      fun c hc => isOperand_not_blank (l.operand.isOperand_text c hc)), dropWhile_append_stops hj
      (stops_append hne fun c hc => isWord_not_blank (hw c hc))] at hoperand
    -- the mark is no word, and the plus sign stands where the word ends
    have hmark : l.operand.marked = false := by
      by_contra hmark
      obtain ⟨c, w, rfl⟩ := List.exists_cons_of_ne_nil hne
      have hhead := congrArg List.head? hoperand
      obtain rfl : '@' = c := by simpa [Operand.text, hmark] using hhead
      exact absurd (hw '@' List.mem_cons_self) (by decide)
    obtain ⟨n, hn⟩ := Option.isSome_iff_exists.mp (hodd.resolve_left (by simp [hmark]))
    have htail := congrArg (List.dropWhile Assembler.isWord) hoperand
    have hsum : l.operand.text ++ l.afterOperand =
        l.operand.name.text ++ '+' :: (n.text ++ l.afterOperand) := by
      simp [Operand.text, Operand.addendText, hmark, hn]
    rw [hsum, dropWhile_append_stops l.operand.name.isWord (stops_cons rfl),
      dropWhile_append_stops hw (stops_blank_paren hb rfl rfl)] at htail
    have hplus : Stops (fun c => c == '+') (b ++ '(' :: (after ++ last)) :=
      stops_blank_paren hb rfl rfl
    rw [← htail] at hplus
    exact absurd (hplus '+' rfl) (by decide)

end MemoryLine

/-! ## Operands that are no numbers -/

theorem stringHexToInt_marked {t : Text} (h : '@' ∈ t) : ∃ e, stringHexToInt t = .error e :=
  parseInt_of_not_digit (c := '@') rfl
    (mem_replaceOnce_of_mem (by decide) (mem_replaceOnce_of_mem (by decide) h)) (by simp)

/-- The first digit stays in front of the plus sign, whichever `0x` is taken out. -/
theorem replaceOnce_sum (n : HexLiteral) (t : Text) :
    ∃ d s, replaceOnce "0x".toList [] (n.text ++ '+' :: t) = d :: s ∧ (digit 16 d).isSome := by
  obtain ⟨d, ds, hdigits⟩ := List.exists_cons_of_ne_nil (digits_of_value n.spells).1
  have hd := n.isDigit d (hdigits ▸ List.mem_cons_self)
  cases hzero : n.zeroX with
  | true =>
    refine ⟨d, ds ++ '+' :: t, ?_, hd⟩
    simp [HexLiteral.text, hzero, hdigits, replaceOnce, List.isPrefixOf]
  | false =>
    have hno : "0x".toList.isPrefixOf (d :: (ds ++ '+' :: t)) = false := by
      have hx : n.digits.tail.head? ≠ some 'x' := by
        intro h
        have hmem := n.isDigit 'x' (List.mem_of_mem_tail (List.mem_of_mem_head? h))
        exact absurd hmem (by decide)
      rw [hdigits, List.tail_cons] at hx
      cases ds with
      | nil => simp [List.isPrefixOf]
      | cons e es =>
        have he : 'x' ≠ e := fun h => hx (by rw [h]; rfl)
        simp [List.isPrefixOf, he]
    refine ⟨d, replaceOnce "0x".toList [] (ds ++ '+' :: t), ?_, hd⟩
    have htext : n.text ++ '+' :: t = d :: (ds ++ '+' :: t) := by
      simp [HexLiteral.text, hzero, hdigits]
    rw [htext, replaceOnce, hno]
    rfl

theorem stringHexToInt_sum (n : HexLiteral) (t : Text) :
    ∃ e, stringHexToInt (n.text ++ '+' :: t) = .error e := by
  have hmem : '+' ∈ replaceOnce "0x".toList [] (n.text ++ '+' :: t) :=
    mem_replaceOnce_of_mem (by decide) (List.mem_append_right _ List.mem_cons_self)
  obtain ⟨d, s, hs, hd⟩ := replaceOnce_sum n t
  rw [hs] at hmem
  have hno : "WA:".toList.isPrefixOf (d :: s) = false := by
    have hW : 'W' ≠ d := by
      rintro rfl
      exact absurd hd (by decide)
    simp [List.isPrefixOf, hW]
  have hsecond : replaceOnce "WA:".toList [] (d :: s) = d :: replaceOnce "WA:".toList [] s := by
    rw [replaceOnce, hno]
    rfl
  refine parseInt_of_not_digit (c := '+') rfl ?_ ?_
  · rw [hs]
    exact mem_replaceOnce_of_mem (by decide) hmem
  · rw [hs, hsecond]
    rintro - h
    obtain rfl := Option.some.inj h
    exact absurd hd (by decide)

/-! ## The whole line -/

section Assemble
variable {l : MemoryLine} {labels : LabelMap} (addr : Text)

theorem instruction_text :
    field (findStringSubmatch instrExpr (l.machineLine addr).line) 1 = .ok l.op.name :=
  instruction_of_spacedTwo l.op.name_lower.1 l.op.name_lower.2 _ _ _ _

theorem assemble_kept (hlabels : PlainValues labels) (h : resolveOperand l.text labels = .ok []) :
    ∃ refs, assemble labels (l.machineLine addr) =
      (l.op.encode ⟨l.text, wordAddrToByteAddrString addr, refs⟩).map
        fun code => ⟨l.machineLine addr, code⟩ := by
  have hrewrite : rewrite l.op.name (l.machineLine addr).line labels = .ok l.text := by
    rw [l.op.rewrite_name]
    show resolveOperand l.text labels >>= replaceOperand l.text = _
    rw [h]
    rfl
  have hassemble := assemble_plain rfl (instruction_text addr) hrewrite l.plain_text hlabels
  rw [l.op.dispatch_name] at hassemble
  exact ⟨_, hassemble⟩

theorem assemble_replaced {v : Text} (hlabels : PlainValues labels)
    (h : resolveOperand l.text labels = .ok v) (hv : v ≠ [])
    (hword : ∀ c ∈ v, Assembler.isWord c = true) :
    ∃ refs, assemble labels (l.machineLine addr) =
      (l.op.encode ⟨l.replaced v, wordAddrToByteAddrString addr, refs⟩).map
        fun code => ⟨{ l.machineLine addr with line := l.replaced v }, code⟩ := by
  have hrewrite : rewrite l.op.name (l.machineLine addr).line labels = .ok (l.replaced v) := by
    rw [l.op.rewrite_name]
    show resolveOperand l.text labels >>= replaceOperand l.text = _
    rw [h]
    exact l.replaceOperand_text hv
  have hassemble := assemble_plain rfl (instruction_text addr) hrewrite (l.plain_replaced hword)
    hlabels
  rw [l.op.dispatch_name] at hassemble
  exact ⟨_, hassemble⟩

theorem assemble_error {e : Error} (h : resolveOperand l.text labels = .error e) :
    assemble labels (l.machineLine addr) = .error e := by
  have hrewrite : rewrite l.op.name (l.machineLine addr).line labels = .error e := by
    rw [l.op.rewrite_name]
    show resolveOperand l.text labels >>= replaceOperand l.text = _
    rw [h]
    rfl
  show (field _ 1 >>= _) = _
  rw [instruction_text, ok_bind, hrewrite]
  rfl

/-- A name that stands alone has to be a number. -/
theorem assemble_name_error {e : Error} (hlabels : PlainValues labels)
    (h : resolveOperand l.text labels = .ok []) (hmark : l.operand.marked = false)
    (hadd : l.operand.addend = none) (hread : stringHexToInt l.operand.name.text = .error e) :
    assemble labels (l.machineLine addr) = .error e := by
  obtain ⟨refs, hassemble⟩ := assemble_kept addr hlabels h
  obtain ⟨whole, hfields⟩ := l.fields_expr_name hmark hadd
  have himm : immediateInt l.operand.name.text = .error e :=
    (immediateInt_eq (isWord_ne_colon l.operand.name.isWord)).trans hread
  have hencode : l.op.encode ⟨l.text, wordAddrToByteAddrString addr, refs⟩ = .error e :=
    l.op.encode_error hfields himm
  rw [hassemble, hencode]
  rfl

/-- **An operand with a mark or a plus sign** has to be found by `resolveCalc`: no encoder reads
it. -/
theorem assemble_unresolved (hlabels : PlainValues labels) (hres : ¬ l.IsResolved)
    (hodd : l.operand.marked = true ∨
      ∃ n : HexLiteral, l.operand.name.text = n.text ∧ l.operand.addend.isSome) :
    ∃ e, assemble labels (l.machineLine addr) = .error e := by
  obtain ⟨refs, hassemble⟩ := assemble_kept addr hlabels (resolveOperand_unresolved labels hres)
  obtain ⟨e, hread⟩ : ∃ e, stringHexToInt l.operand.text = .error e := by
    cases hmark : l.operand.marked with
    | true => exact stringHexToInt_marked (by simp [Operand.text, hmark])
    | false =>
      obtain ⟨n, hn, hadd⟩ := hodd.resolve_left (by simp [hmark])
      obtain ⟨m, hm⟩ := Option.isSome_iff_exists.mp hadd
      have htext : l.operand.text = n.text ++ '+' :: m.text := by
        simp [Operand.text, Operand.addendText, hmark, hm, hn]
      rw [htext]
      exact stringHexToInt_sum n m.text
  have hencode : ∃ e, l.op.encode ⟨l.text, wordAddrToByteAddrString addr, refs⟩ = .error e := by
    cases hop : l.op with
    | load size signed =>
      obtain ⟨whole, hfields⟩ := l.fields_loadsExpr
      have himm : immediateInt l.operand.text = .error e := by
        rw [immediateInt, hread]
        rfl
      exact ⟨_, (MemoryOp.load size signed).encode_error hfields himm⟩
    | store size =>
      have hfields : findStringSubmatch storesExpr l.text = [] := by
        rcases hodd with hmark | ⟨n, -, hadd⟩
        · exact l.fields_storesExpr_odd (.inl hmark)
        · exact l.fields_storesExpr_odd (.inr hadd)
      refine ⟨.indexOutOfRange, ?_⟩
      show stores _ = _
      rw [stores, hfields]
      rfl
  obtain ⟨e, he⟩ := hencode
  exact ⟨e, by rw [hassemble, he]; rfl⟩

end Assemble

/-! ## The immediate -/

/-- The line has a word, with this immediate. -/
def MemoryOp.Holds (op : MemoryOp) (a : Except Error CodedLine) (x : ℕ) : Prop :=
  ∃ coded word, a = .ok coded ∧ readWord coded.code = some word ∧
    op.immediate word = BitVec.ofNat 32 x

theorem not_holds_error {op : MemoryOp} {a : Except Error CodedLine} {x : ℕ}
    (h : ∃ e, a = .error e) : ¬ op.Holds a x := by
  obtain ⟨e, rfl⟩ := h
  rintro ⟨coded, word, h, -⟩
  cases h

/-- The immediate of an operand that reads as a number which is not negative. -/
theorem holds_iff {op : MemoryOp} {a : Except Error CodedLine} {ctx : Context} {line : MachineLine}
    {whole t : Text} {reg base : Register} {v : BitVec 64} {x : ℕ}
    (ha : a = (op.encode ctx).map fun code => ⟨line, code⟩)
    (hfields : findStringSubmatch op.expr ctx.assembly = [whole, op.name, reg.text, t, base.text])
    (hword : ∀ c ∈ t, Assembler.isWord c = true) (hread : stringHexToInt t = .ok v)
    (hv : v.toNat < 2 ^ 63) (hx : x ≤ 2047) : op.Holds a x ↔ heldNumber v.toNat = x := by
  have himm : immediateInt t = .ok v := (immediateInt_eq (isWord_ne_colon hword)).trans hread
  have hcode := op.encode_fields hfields himm (immField_eq hv)
  rw [ha, hcode, ← signExtend_eq_iff (heldNumber_lt v.toNat) hx, ← op.immediate_word reg.number
    base.number]
  constructor
  · rintro ⟨coded, word, hok, hreadWord, himmediate⟩
    obtain rfl := Except.ok.inj hok
    rw [readWord_machineCode] at hreadWord
    obtain rfl := Option.some.inj hreadWord
    exact himmediate
  · exact fun h => ⟨_, _, rfl, readWord_machineCode _, h⟩

section Holds
variable {l : MemoryLine} {labels : LabelMap} {addr t : Text} {v : BitVec 64} {x : ℕ}

theorem holds_kept (hlabels : PlainValues labels) (h : resolveOperand l.text labels = .ok [])
    (hmark : l.operand.marked = false) (hadd : l.operand.addend = none)
    (hread : stringHexToInt l.operand.name.text = .ok v) (hv : v.toNat < 2 ^ 63) (hx : x ≤ 2047) :
    l.op.Holds (assemble labels (l.machineLine addr)) x ↔ heldNumber v.toNat = x := by
  obtain ⟨refs, hassemble⟩ := assemble_kept addr hlabels h
  obtain ⟨whole, hfields⟩ := l.fields_expr_name hmark hadd
  exact holds_iff hassemble hfields l.operand.name.isWord hread hv hx

theorem holds_replaced (hlabels : PlainValues labels) (h : resolveOperand l.text labels = .ok t)
    (ht : t ≠ []) (hword : ∀ c ∈ t, Assembler.isWord c = true) (hread : stringHexToInt t = .ok v)
    (hv : v.toNat < 2 ^ 63) (hx : x ≤ 2047) :
    l.op.Holds (assemble labels (l.machineLine addr)) x ↔ heldNumber v.toNat = x := by
  obtain ⟨refs, hassemble⟩ := assemble_replaced addr hlabels h ht hword
  obtain ⟨whole, hfields⟩ := l.fields_replaced ht hword
  exact holds_iff hassemble hfields hword hread hv hx

end Holds

end RangerRisc.Assembler
