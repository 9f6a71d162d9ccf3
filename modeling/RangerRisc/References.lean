import RangerRisc.MemoryAssembly
import RangerRisc.PcRelative

/-! Lines that name a label: `jal` and branches, `jalr`, loads and stores, and `@:` lines; and what
becomes of a source line in the RAM file. -/

namespace RangerRisc.Assembler

open Numeral Regexp Rv32i

/-! ## Forms of lines -/

inductive RelativeOp where
  | jal (rd : Register)
  /-- With the spaces behind the second comma. -/
  | branch (c : Cond) (rs1 rs2 : Register) (gap : ℕ)

namespace RelativeOp

def name : RelativeOp → Text
  | jal _ => "jal".toList
  | branch c _ _ _ => condName c

def kind : RelativeOp → PcRelative
  | jal _ => .jal
  | branch _ _ _ _ => .branch

def reg : RelativeOp → Register
  | jal rd => rd
  | branch _ rs1 _ _ => rs1

def registers : RelativeOp → List Register
  | jal rd => [rd]
  | branch _ rs1 rs2 _ => [rs1, rs2]

/-- What stands between the first comma and the label. -/
def second : RelativeOp → Text
  | jal _ => []
  | branch _ _ rs2 gap => rs2.text ++ ',' :: blanks gap

end RelativeOp

/-- `jal rd, @L` or `beq rs1, rs2, @L` -/
structure RelativeLine where
  op : RelativeOp
  name : Name
  /-- The spaces behind the mnemonic, but one. -/
  gap : ℕ
  commaGap : ℕ
  remark : Remark

def RelativeLine.text (l : RelativeLine) : Text :=
  spacedTwo l.op.name l.gap l.op.reg.text l.commaGap
    (l.op.second ++ '@' :: (l.name.text ++ l.remark.text))

/-- `jalr rd, L(rs1)` -/
structure JalrLine where
  rd : Register
  name : Name
  rs1 : Register
  gap : ℕ
  commaGap : ℕ
  parenGap : ℕ
  remark : Remark

def JalrLine.text (l : JalrLine) : Text :=
  spacedTwo "jalr".toList l.gap l.rd.text l.commaGap
    (offsetOperand l.name.text l.parenGap l.rs1.text l.remark.text)

inductive Reference where
  | relative (l : RelativeLine)
  | jalr (l : JalrLine)
  | memory (l : MemoryLine)
  /-- `@: L` -/
  | data (name : Name) (remark : Remark)

namespace Reference

def name : Reference → Name
  | relative l => l.name
  | jalr l => l.name
  | memory l => l.operand.name
  | data name _ => name

def text : Reference → Text
  | relative l => l.text
  | jalr l => l.text
  | memory l => l.text
  | data name remark => "@: ".toList ++ (name.text ++ remark.text)

end Reference

/-! ## Lines of the source -/

/-- What a source line that is reached with this `pc` adds to the RAM file. -/
def lineWords (labels : LabelMap) (startLabel endLabel : Text) (pc : BitVec 64) (line : Text) :
    Except Error (List (Text × Text)) := do
  match ← sectionLine labels startLabel endLabel (trim line) with
  | .skip | .finish => return []
  | .emit ltype value => do
    let coded ← assemble labels ⟨trim line, ltype, uintToHexString pc false, value⟩
    return [ramWord coded]

/-! ### Classes of lines -/

/-- What a pattern asks for has to stand in the text. -/
theorem find_eq_none_of_not_mem {p : Pattern} {s : Text} {c : Char} (hp : one c ∈ p) (h : c ∉ s) :
    find p s = none := by
  cases hm : find p s with
  | none => rfl
  | some m =>
    obtain ⟨pre, ss, rest, rfl, hfits, -⟩ := exists_pieces_of_find hm
    have hpiece : ∀ {p : Pattern} {ss : List Text}, List.Forall₂ Item.Fits p ss → one c ∈ p →
        [c] ∈ ss := by
      intro p ss hfits
      induction hfits with
      | nil => exact fun h => absurd h List.not_mem_nil
      | cons hit _ ih =>
        intro hmem
        rcases List.mem_cons.mp hmem with rfl | hmem
        · rw [fits_one hit]
          exact List.mem_cons_self
        · exact List.mem_cons_of_mem _ (ih hmem)
    have hflat : c ∈ ss.flatten := List.mem_flatten.mpr
      ⟨[c], hpiece hfits hp, List.mem_singleton_self c⟩
    exact absurd (List.mem_append_right pre (List.mem_append_left rest hflat)) h

theorem findStringSubmatch_of_not_mem {p : Pattern} {s : Text} {c : Char} (hp : one c ∈ p)
    (h : c ∉ s) : findStringSubmatch p s = [] := by
  rw [findStringSubmatch, find_eq_none_of_not_mem hp h]

section Classes
variable {labels : LabelMap} {start stop line : Text}

/-- **A line without a colon** is an instruction. -/
theorem sectionLine_instruction (hcolon : ':' ∉ line)
    (hword : ∃ c t, line = c :: t ∧ isLower c = true) :
    sectionLine labels start stop line = .ok (.emit .instruction []) := by
  obtain ⟨c, t, rfl, hc⟩ := hword
  have hslash : c ≠ '/' := by
    rintro rfl
    exact absurd hc (by decide)
  have hraw : matchRaw (c :: t) = none := by
    rw [matchRaw, findStringSubmatch_of_not_mem (c := ':') (by simp [rawExpr]) hcolon]
    rfl
  have href : matchAddrRef (c :: t) labels = .ok none := by
    rw [matchAddrRef, findStringSubmatch_of_not_mem (c := ':') (by simp [addRefExpr]) hcolon]
    rfl
  have hlabel : matchLabel (c :: t) = .error (.message "not a Label line".toList) := by
    rw [matchLabel, findStringSubmatch_of_not_mem (c := ':') (by simp [labelExpr]) hcolon]
    rfl
  rw [sectionLine, if_neg (by simp), if_neg (by simp [hslash]),
    if_neg (by simp [hslash.symm]), hraw, href]
  simp only [hlabel]
  rfl

end Classes

/-! ## `jal` and branches -/

namespace RelativeOp
variable (op : RelativeOp)

theorem name_lower : op.name ≠ [] ∧ ∀ c ∈ op.name, isLower c = true := by
  cases op with
  | jal rd => exact ⟨List.cons_ne_nil _ _, List.all_eq_true.mp rfl⟩
  | branch c rs1 rs2 gap => exact condName_lower c

theorem calm_second : Calm op.second := by
  cases op with
  | jal rd => exact fun c hc => absurd hc List.not_mem_nil
  | branch c rs1 rs2 gap =>
    exact calm_append (calm_of_isWord rs2.isWord_text) (calm_cons rfl (by decide) (calm_blanks _))

theorem dispatch_name (ctx : Context) : dispatch op.name ctx = op.kind.encode ctx := by
  cases op with
  | jal rd => rfl
  | branch c rs1 rs2 gap => cases c <;> rfl

theorem rewrite_name (ass : Text) (labels : LabelMap) : rewrite op.name ass labels = .ok ass := by
  cases op with
  | jal rd => rfl
  | branch c rs1 rs2 gap => cases c <;> rfl

theorem getLabel_name (ass : Text) :
    getLabel op.name ass =
      if (findStringSubmatch op.kind.expr ass).length = 0 then
        .error (.message ("no fields found for instruction: ".toList ++ op.name))
      else field (findStringSubmatch op.kind.expr ass) op.kind.labelField := by
  cases op with
  | jal rd => rfl
  | branch c rs1 rs2 gap => cases c <;> rfl

end RelativeOp

namespace RelativeLine
variable (l : RelativeLine)

theorem calm_text : Calm l.text :=
  calm_spacedTwo (fun c hc => isWord_of_isLower (l.op.name_lower.2 c hc)) l.op.reg.isWord_text
    (calm_append l.op.calm_second (calm_cons rfl (by decide)
      (calm_append (calm_of_isWord l.name.isWord) l.remark.calm))) _ _

theorem fields_text :
    ∃ whole, findStringSubmatch l.op.kind.expr l.text =
      whole :: l.op.name :: (l.op.registers.map Register.text ++ [l.name.text]) := by
  obtain ⟨hne, hop⟩ := l.op.name_lower
  have hlabel : Splits [one '@', word] [['@'], l.name.text] l.remark.text :=
    ⟨takes_one '@' _, takes_plus rfl rfl l.name.ne_nil l.name.isWord l.remark.stops, trivial⟩
  have hblank : Stops isBlank ([['@'], l.name.text].flatten ++ l.remark.text) := stops_cons rfl
  have hflat : [['@'], l.name.text].flatten ++ l.remark.text =
      '@' :: (l.name.text ++ l.remark.text) := by simp
  unfold text
  cases hform : l.op with
  | jal rd =>
    rw [hform] at hne hop
    have hfields := fields_spacedTwo hne hop l.gap l.commaGap rd _ _ hblank hlabel
    rw [hflat] at hfields
    exact hfields
  | branch c rs1 rs2 gap =>
    rw [hform] at hne hop
    have hfields := fields_spacedThree hne hop l.gap l.commaGap gap rs1 rs2 _ _ hblank hlabel
    have hsecond : (RelativeOp.branch c rs1 rs2 gap).second ++
        '@' :: (l.name.text ++ l.remark.text) =
        rs2.text ++ ',' :: (blanks gap ++ '@' :: (l.name.text ++ l.remark.text)) := by
      simp [RelativeOp.second]
    rw [hflat] at hfields
    rw [hsecond]
    exact hfields

variable {ctx : Context}

theorem field_label (h : ctx.assembly = l.text) :
    field (l.op.kind.fields ctx) l.op.kind.labelField = .ok l.name.text := by
  obtain ⟨whole, hfields⟩ := l.fields_text
  rw [PcRelative.fields, h, hfields]
  cases l.op <;> rfl

theorem registers (h : ctx.assembly = l.text) : l.op.kind.Registers ctx := by
  obtain ⟨whole, hfields⟩ := l.fields_text
  intro i hi
  rw [PcRelative.fields, h, hfields]
  cases hform : l.op with
  | jal rd =>
    rw [hform] at hi
    obtain rfl : i = 2 := by simpa [RelativeOp.kind, PcRelative.registerFields] using hi
    exact ⟨_, rd.stringRegToInt_text⟩
  | branch c rs1 rs2 gap =>
    rw [hform] at hi
    have hcases : i = 2 ∨ i = 3 := by
      simpa [RelativeOp.kind, PcRelative.registerFields] using hi
    rcases hcases with rfl | rfl
    · exact ⟨_, rs1.stringRegToInt_text⟩
    · exact ⟨_, rs2.stringRegToInt_text⟩

theorem labelRef_text (labels : LabelMap) :
    labelRef l.op.name l.text labels = (l.name.text, labelValue labels l.name.text) := by
  obtain ⟨whole, hfields⟩ := l.fields_text
  have hlabel := l.field_label (show (⟨l.text, [], []⟩ : Context).assembly = l.text from rfl)
  have hget : getLabel l.op.name l.text = .ok l.name.text := by
    rw [l.op.getLabel_name, if_neg (by rw [hfields]; simp)]
    exact hlabel
  rw [labelRef, getLabelRef, hget]
  rfl

/-- The context of the line, with the value of its label. -/
def context (labels : LabelMap) (addr : Text) : Context :=
  ⟨l.text, wordAddrToByteAddrString addr, [[(l.name.text, labelValue labels l.name.text)]]⟩

theorem assemble_text {labels : LabelMap} (hlabels : PlainValues labels) (addr : Text) :
    assemble labels ⟨l.text, .instruction, addr, []⟩ =
      (l.op.kind.encode (l.context labels addr)).map
        fun code => ⟨⟨l.text, .instruction, addr, []⟩, code⟩ := by
  have hinstruction : field (findStringSubmatch instrExpr l.text) 1 = .ok l.op.name :=
    instruction_of_spacedTwo l.op.name_lower.1 l.op.name_lower.2 _ _ _ _
  rw [assemble_plain rfl hinstruction (l.op.rewrite_name _ _) l.calm_text.plain hlabels,
    l.labelRef_text, l.op.dispatch_name]
  rfl

end RelativeLine

/-- The byte address of a line that stands at `pc`. -/
def byteCount (pc : BitVec 64) : HexLiteral :=
  .printed (byteAddress (HexLiteral.printed pc.toNat))

theorem RelativeLine.context_pc (l : RelativeLine) (labels : LabelMap) (pc : BitVec 64) :
    (l.context labels (uintToHexString pc false)).pc = (byteCount pc).text :=
  wordAddrToByteAddrString_eq (HexLiteral.printed pc.toNat)

theorem RelativeLine.findLabelValue_context (l : RelativeLine) (labels : LabelMap) (addr : Text) :
    findLabelValue (l.context labels addr).labels l.name.text =
      .ok (labelValue labels l.name.text) := by
  simp [findLabelValue, RelativeLine.context]

/-! ## `jalr` -/

namespace JalrLine
variable (l : JalrLine)

theorem isOperand_name : ∀ c ∈ l.name.text, isOperand c = true :=
  fun c hc => isOperand_of_isWord (l.name.isWord c hc)

theorem calm_text : Calm l.text :=
  calm_spacedTwo (List.all_eq_true.mp rfl) l.rd.isWord_text
    (calm_offsetOperand l.isOperand_name l.rs1.isWord_text l.remark.calm _) _ _

theorem fields_text :
    ∃ whole, findStringSubmatch jalrExpr l.text =
      [whole, "jalr".toList, l.rd.text, l.name.text, l.rs1.text] :=
  fields_spacedOffset (List.cons_ne_nil _ _) (List.all_eq_true.mp rfl) l.gap l.commaGap l.parenGap
    l.rd l.rs1 Assembler.isWord l.remark.text l.name.ne_nil l.name.isWord
    (fun c hc => isWord_not_blank (l.name.isWord c hc)) rfl rfl

theorem labelRef_text (labels : LabelMap) :
    labelRef "jalr".toList l.text labels = (l.name.text, labelValue labels l.name.text) := by
  obtain ⟨whole, hfields⟩ := l.fields_text
  have hget : getLabel "jalr".toList l.text = .ok l.name.text := by
    show (if (findStringSubmatch jalrExpr l.text).length = 0 then Except.error _
      else field (findStringSubmatch jalrExpr l.text) 3) = _
    rw [hfields]
    rfl
  rw [labelRef, getLabelRef, hget]
  rfl

def context (labels : LabelMap) (addr : Text) : Context :=
  ⟨l.text, wordAddrToByteAddrString addr, [[(l.name.text, labelValue labels l.name.text)]]⟩

theorem assemble_text {labels : LabelMap} (hlabels : PlainValues labels) (addr : Text) :
    assemble labels ⟨l.text, .instruction, addr, []⟩ =
      (Assembler.jalr (l.context labels addr)).map
        fun code => ⟨⟨l.text, .instruction, addr, []⟩, code⟩ := by
  have hinstruction : field (findStringSubmatch instrExpr l.text) 1 = .ok "jalr".toList :=
    instruction_of_spacedTwo (List.cons_ne_nil _ _) (List.all_eq_true.mp rfl) _ _ _ _
  rw [assemble_plain rfl hinstruction rfl l.calm_text.plain hlabels, l.labelRef_text]
  rfl

/-- The name is a number if there is a `0x` in it. -/
theorem jalrOffset_context (labels : LabelMap) (addr : Text) :
    jalrOffset (l.context labels addr) l.name.text = .ok
      (if contains "0x".toList l.name.text then l.name.text
        else labelValue labels l.name.text) := by
  unfold jalrOffset
  split_ifs
  · rfl
  · simp [findLabelValue, context]

/-- The word of a `jalr` whose offset reads as a number. -/
theorem jalr_context {labels : LabelMap} {addr t : Text} {v : BitVec 64}
    (ht : jalrOffset (l.context labels addr) l.name.text = .ok t) (hv : stringHexToInt t = .ok v)
    (hsmall : v.toNat < 2 ^ 63) :
    Assembler.jalr (l.context labels addr) = .ok (machineCode (wordBits (iFormat
      ((BitVec.ofNat 12 (heldNumber v.toNat)).extractLsb' 1 11 ++ 0#1) l.rs1.number 0b000#3
      l.rd.number 0b1100111#7))) := by
  obtain ⟨whole, hfields⟩ := l.fields_text
  exact jalr_fields hfields ht hv (immField_eq hsmall) l.rd.stringRegToInt_text
    l.rs1.stringRegToInt_text (regBits_number l.rd) (regBits_number l.rs1)

theorem jalr_error {labels : LabelMap} {addr t : Text} {e : Error}
    (ht : jalrOffset (l.context labels addr) l.name.text = .ok t)
    (hv : stringHexToInt t = .error e) : Assembler.jalr (l.context labels addr) = .error e := by
  obtain ⟨whole, hfields⟩ := l.fields_text
  have hfields : findStringSubmatch jalrExpr (l.context labels addr).assembly =
      [whole, "jalr".toList, l.rd.text, l.name.text, l.rs1.text] := hfields
  simp only [Assembler.jalr, hfields, field_zero, field_succ, ok_bind, ht, hv]
  rfl

end JalrLine

/-! ## What a line adds -/

section Words
variable {labels : LabelMap} {start stop line t : Text} {pc : BitVec 64}

/-- An instruction is assembled under its address. -/
theorem lineWords_instruction (hline : trim line = t) (hcalm : Calm t)
    (hword : ∃ c s, t = c :: s ∧ isLower c = true) :
    lineWords labels start stop pc line =
      (assemble labels ⟨t, .instruction, uintToHexString pc false, []⟩).map fun c =>
        [ramWord c] := by
  rw [lineWords, hline, sectionLine_instruction hcalm.colon hword, ok_bind]
  show assemble labels _ >>= _ = _
  cases assemble labels ⟨t, .instruction, uintToHexString pc false, []⟩ <;> rfl

theorem starts_spacedTwo {op : Text} (hop : op ≠ [] ∧ ∀ c ∈ op, isLower c = true) (k : ℕ) (a : Text)
    (j : ℕ) (b : Text) : ∃ c s, spacedTwo op k a j b = c :: s ∧ isLower c = true := by
  obtain ⟨c, op, rfl⟩ := List.exists_cons_of_ne_nil hop.1
  exact ⟨c, _, rfl, hop.2 c List.mem_cons_self⟩

/-- The fields of a `@:` line. -/
theorem fields_data (name : Name) (remark : Remark) :
    ∃ whole, findStringSubmatch addRefExpr ("@: ".toList ++ (name.text ++ remark.text)) =
      [whole, [], name.text] := by
  have hsplits : Splits addRefExpr [[], ['@'], [':'], [' '], name.text] remark.text :=
    ⟨⟨List.forall_mem_nil _, Nat.zero_le _, .inr ⟨rfl, stops_cons rfl⟩⟩, takes_one '@' _,
      takes_one ':' _, takes_one ' ' _, takes_plus rfl rfl name.ne_nil name.isWord remark.stops,
      trivial⟩
  exact ⟨_, findStringSubmatch_of_splits hsplits (by simp)⟩

/-- No `d` stands in front of its only colon. -/
theorem findStringSubmatch_data (name : Name) (remark : Remark) :
    findStringSubmatch rawExpr ("@: ".toList ++ (name.text ++ remark.text)) = [] := by
  unfold findStringSubmatch
  cases hm : find rawExpr ("@: ".toList ++ (name.text ++ remark.text)) with
  | none => rfl
  | some m =>
    obtain ⟨pre, ss, rest, htext, hfits, -⟩ := exists_pieces_of_find hm
    obtain _ | ⟨-, hfits⟩ := hfits
    obtain _ | ⟨hd, hfits⟩ := hfits
    obtain _ | ⟨hcolon, -⟩ := hfits
    next b d colon ss =>
    obtain rfl := fits_one hd
    obtain rfl := fits_one hcolon
    have hcalm : Calm (' ' :: (name.text ++ remark.text)) :=
      calm_cons rfl (by decide) (calm_append (calm_of_isWord name.isWord) remark.calm)
    have hsplit : ['@'] ++ ':' :: (' ' :: (name.text ++ remark.text)) =
        (pre ++ b ++ ['d']) ++ ':' :: (ss.flatten ++ rest) := by
      simpa using htext
    obtain ⟨hhead, -⟩ := (List.append_cons_inj_of_notMem (by decide) hcalm.colon).mp hsplit
    have hlast := congrArg List.getLast? hhead
    simp at hlast

/-- **A `@:` line** gets the byte address of its label. -/
theorem lineWords_data {name : Name} {remark : Remark}
    (hline : trim line = "@: ".toList ++ (name.text ++ remark.text)) :
    lineWords labels start stop pc line =
      match labels.lookup name.text with
      | some addr => .ok [(uintToHexString pc false, wordAddrToByteAddrString addr)]
      | none => .error (.message "label not found".toList) := by
  obtain ⟨whole, hfields⟩ := fields_data name remark
  have hraw : matchRaw ("@: ".toList ++ (name.text ++ remark.text)) = none := by
    rw [matchRaw, findStringSubmatch_data]
    rfl
  have href : matchAddrRef ("@: ".toList ++ (name.text ++ remark.text)) labels =
      match labels.lookup name.text with
      | some addr => .ok (some addr)
      | none => .error (.message "label not found".toList) := by
    rw [matchAddrRef, hfields]
    rfl
  rw [lineWords, hline, sectionLine, if_neg (by simp), if_neg (by simp),
    if_neg (by simp), hraw, href]
  cases labels.lookup name.text <;> rfl

end Words

end RangerRisc.Assembler
