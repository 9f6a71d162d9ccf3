import RangerRisc.AssemblerDecode
import RangerRisc.LabelTargets
import RangerRisc.SectionOverlap

/-! What the lines of a source ask for, labels included, and the words that `assemble` makes of
them. -/

namespace RangerRisc.Assembler

open Numeral Regexp Rv32i

/-! ## Meaning -/

namespace MemoryOp

def instr (op : MemoryOp) (reg base : BitVec 5) (offset : Word) : Instr :=
  match op with
  | load size signed => .load size signed reg base offset
  | store size => .store size base reg offset

/-- There is no `lwu`. -/
def IsValid : MemoryOp → Prop
  | load size signed => size = .word → signed = true
  | store _ => True

end MemoryOp

namespace OperandForm

/-- Where the label of an operand stands. -/
def base (labels : LabelMap) : OperandForm → BitVec 64
  | number _ | sum _ _ => 0
  | label name | labelSum name _ => sectionStart labels name.text

/-- The assembler computes the value of the operand. -/
def IsComputed (l : MemoryLine) (labels : LabelMap) : OperandForm → Prop
  | number h => labels.lookup h.text = none
  | sum _ n => l.IsResolved ∧ n.IsDecimal
  | label name => l.IsResolved ∧ ∃ w, address labels name.text = .ok w
  | labelSum name n => (l.IsResolved ∧ n.IsDecimal) ∧ ∃ w, address labels name.text = .ok w

end OperandForm

def RelativeOp.instr (offset : Word) : RelativeOp → Instr
  | jal rd => .jal rd.number offset
  | branch c rs1 rs2 _ => .branch c rs1.number rs2.number offset

/-- An instruction of a source. -/
inductive Stmt where
  /-- Registers and numbers alone. -/
  | plain (l : Line)
  | memory (l : MemoryLine) (operand : OperandForm)
  | relative (l : RelativeLine)

namespace Stmt

def text : Stmt → Text
  | plain l => l.text
  | memory l _ => l.text
  | relative l => l.text

/-- The instruction that a line at the word address `pc` asks for. -/
def instr (labels : LabelMap) (pc : BitVec 64) : Stmt → Instr
  | plain l => l.instr (.printed 0)
  | memory l o => l.op.instr l.reg.number l.base.number
      (BitVec.ofNat 32 (o.value (o.base labels).toNat))
  | relative l => l.op.instr
      (BitVec.ofInt 32 (4 * ((sectionStart labels l.name.text).toNat : ℤ) - 4 * pc.toNat))

/-- The labels are there, and the numbers fit their fields. -/
def InRange (labels : LabelMap) (pc : BitVec 64) : Stmt → Prop
  | plain l =>
    match l with
    | .alu _ _ _ _ | .aluImm _ _ _ _ | .jalr _ _ _ | .lui _ _ | .auipc _ _ =>
        l.InRange [] (.printed 0)
    | _ => False
  | memory l o => l.op.IsValid ∧ l.operand = o.operand ∧ o.IsComputed l labels ∧
      o.value (o.base labels).toNat ≤ 2047
  | relative l => ∃ w, address labels l.name.text = .ok w ∧
      (Reference.relative l).InRange pc w.toNat

end Stmt

/-! ## Words -/

/-- The line has a word, which decodes to the instruction. -/
def Becomes (labels : LabelMap) (m : MachineLine) (i : Instr) : Prop :=
  ∃ coded w, assemble labels m = .ok coded ∧ readWord coded.code = some w ∧ decode w = some i

theorem Produces.becomes {labels : LabelMap} {m m' : MachineLine} {r : Except Error Text}
    {i : Instr} (h : Produces r i) (ha : assemble labels m = r.map fun code => ⟨m', code⟩) :
    Becomes labels m i := by
  obtain ⟨code, w, rfl, hread, hdecode⟩ := h
  exact ⟨_, w, ha, hread, hdecode⟩

section Plain
variable {labels : LabelMap} {pc : BitVec 64}

theorem SignedLiteral.calm_text (l : SignedLiteral) : Calm l.text := by
  intro c hc
  have h := l.isWord_or_minus_text c hc
  rw [Bool.or_eq_true, beq_iff_eq] at h
  rcases h with h | rfl
  · exact @calm_of_isWord [c] (by simpa using h) c (List.mem_singleton_self c)
  · exact ⟨rfl, by decide⟩

/-- A line with a register first, which is not rewritten. -/
structure Line.Shape (l : Line) (reg : Register) (rest : Text) : Prop where
  lower : l.mnemonic ≠ [] ∧ ∀ c ∈ l.mnemonic, isLower c = true
  text : l.text = spacedTwo l.mnemonic 0 reg.text 1 rest
  calm : Calm rest
  rewrite : ∀ labels, rewrite l.mnemonic l.text labels = .ok l.text

theorem Line.exists_shape {l : Line} (h : (Stmt.plain l).InRange labels pc) :
    ∃ reg rest, l.Shape reg rest := by
  have hnil : Calm [] := List.forall_mem_nil _
  have hthree : ∀ {b c : Text}, Calm b → Calm c → Calm (b ++ ", ".toList ++ c) := fun hb hc =>
    calm_append (calm_append hb (calm_cons rfl (by decide) (calm_cons rfl (by decide) hnil))) hc
  have hoffset : ∀ {b c : Text}, Calm b → Calm c → Calm (b ++ "(".toList ++ c ++ ")".toList) :=
    fun hb hc => calm_append (calm_append (calm_append hb (calm_cons rfl (by decide) hnil)) hc)
      (calm_cons rfl (by decide) hnil)
  cases l with
  | alu o rd rs1 rs2 =>
    refine ⟨rd, rs1.text ++ ", ".toList ++ rs2.text, aluName_lower o, ?_,
      hthree (calm_of_isWord rs1.isWord_text) (calm_of_isWord rs2.isWord_text), fun labels => ?_⟩
    · rw [← lineTwo_eq]
      simp [Line.text, Line.mnemonic, lineThree, lineTwo]
    · cases o <;> rfl
  | aluImm o rd rs1 imm =>
    refine ⟨rd, rs1.text ++ ", ".toList ++ imm.text, aluImmName_lower o, ?_,
      hthree (calm_of_isWord rs1.isWord_text) imm.calm_text, fun labels => ?_⟩
    · rw [← lineTwo_eq]
      simp [Line.text, Line.mnemonic, lineThree, lineTwo]
    · cases o <;> rfl
  | jalr rd rs1 offset =>
    refine ⟨rd, offset.text ++ "(".toList ++ rs1.text ++ ")".toList,
      ⟨List.cons_ne_nil _ _, List.all_eq_true.mp rfl⟩, ?_,
      hoffset (calm_of_isWord offset.isWord_text) (calm_of_isWord rs1.isWord_text), fun _ => rfl⟩
    rw [← lineTwo_eq]
    simp [Line.text, Line.mnemonic, lineOffset, lineTwo]
  | lui rd imm =>
    exact ⟨rd, imm.text, ⟨List.cons_ne_nil _ _, List.all_eq_true.mp rfl⟩, lineTwo_eq _ _,
      calm_of_isWord imm.isWord_text, fun _ => rfl⟩
  | auipc rd imm =>
    exact ⟨rd, imm.text, ⟨List.cons_ne_nil _ _, List.all_eq_true.mp rfl⟩, lineTwo_eq _ _,
      calm_of_isWord imm.isWord_text, fun _ => rfl⟩
  | _ => exact absurd h id

theorem Line.Shape.calm_text {l : Line} {reg : Register} {rest : Text} (h : l.Shape reg rest) :
    Calm l.text := by
  rw [h.text]
  exact calm_spacedTwo (fun c hc => isWord_of_isLower (h.lower.2 c hc)) reg.isWord_text h.calm _ _

theorem plain_becomes (hlabels : PlainValues labels) {l : Line}
    (h : (Stmt.plain l).InRange labels pc) :
    Becomes labels ⟨l.text, .instruction, uintToHexString pc false, []⟩
      ((Stmt.plain l).instr labels pc) := by
  obtain ⟨reg, rest, hshape⟩ := Line.exists_shape h
  have hinstruction : field (findStringSubmatch instrExpr l.text) 1 = .ok l.mnemonic := by
    rw [hshape.text]
    exact instruction_of_spacedTwo hshape.lower.1 hshape.lower.2 _ _ _ _
  have hassemble := @assemble_plain labels ⟨l.text, .instruction, uintToHexString pc false, []⟩ _ _
    rfl hinstruction (hshape.rewrite labels) hshape.calm_text.plain hlabels
  have hpc : wordAddrToByteAddrString (uintToHexString pc false) = (byteCount pc).text :=
    wordAddrToByteAddrString_eq (HexLiteral.printed pc.toNat)
  rw [hpc] at hassemble
  have hrange : ∀ refs, l.InRange refs (byteCount pc) := by
    cases l <;> first | exact fun _ => h | exact absurd h id
  have hinstr : (Stmt.plain l).instr labels pc = l.instr (byteCount pc) := by
    cases l <;> first | rfl | exact absurd h id
  rw [hinstr]
  exact (dispatch_produces l _ (byteCount pc) (hrange _)).becomes hassemble

end Plain

/-! ### Jumps and branches -/

section Relative
variable {labels : LabelMap} {pc : BitVec 64}

theorem sectionStart_eq {label : Text} {w : BitVec 64} (h : address labels label = .ok w) :
    sectionStart labels label = w := by
  rw [sectionStart, h]

theorem relative_becomes (hlabels : PlainValues labels) {l : RelativeLine}
    (h : (Stmt.relative l).InRange labels pc) :
    Becomes labels ⟨l.text, .instruction, uintToHexString pc false, []⟩
      ((Stmt.relative l).instr labels pc) := by
  obtain ⟨w, hw, hsmall, hlow, hhigh⟩ := h
  have hreach : ∀ k : PcRelative, k.reach ≤ 2 ^ 20 := by
    intro k
    cases k <;> decide
  have hreach := hreach l.op.kind
  set d : ℤ := 4 * (w.toNat : ℤ) - 4 * pc.toNat with hd
  have hbytes : wordAddrToByteAddrString (labelValue labels l.name.text) =
      (HexLiteral.printed (4 * w.toNat)).text :=
    wordAddrToByteAddrString_small (by rw [ofInt_toNat]; exact hw) (by omega)
  have hcount : byteCount pc = HexLiteral.printed (4 * pc.toNat) := by
    have hnumber : (HexLiteral.printed pc.toNat).number = pc.toNat := rfl
    rw [byteCount, byteAddress, hnumber, if_pos (by omega), Nat.mod_eq_of_lt (by omega)]
  have hpc := l.context_pc labels pc
  rw [hcount] at hpc
  have hdelta := labelDelta_of_bytes hpc (l.findLabelValue_context labels _) hbytes
    (show 4 * pc.toNat < 2 ^ 63 ∧ 4 * w.toNat < 2 ^ 63 by omega)
  have hdistance : ((HexLiteral.printed (4 * w.toNat)).number : ℤ) -
      ((HexLiteral.printed (4 * pc.toNat)).number : ℤ) = d := by
    show ((4 * w.toNat : ℕ) : ℤ) - ((4 * pc.toNat : ℕ) : ℤ) = _
    omega
  rw [hdistance] at hdelta
  have heven : 2 ∣ d := by omega
  have hinstr : (Stmt.relative l).instr labels pc = l.op.instr (BitVec.ofInt 32 d) := by
    rw [hd, Stmt.instr, sectionStart_eq hw]
  suffices hproduces : Produces (l.op.kind.encode (l.context labels (uintToHexString pc false)))
      (l.op.instr (BitVec.ofInt 32 d)) by
    rw [hinstr]
    exact hproduces.becomes (l.assemble_text hlabels _)
  obtain ⟨whole, hfields⟩ := l.fields_text
  cases hop : l.op with
  | jal rd =>
    rw [hop] at hlow hhigh hfields
    have hcode := @jal_fields (l.context labels (uintToHexString pc false)) _ _ _ _ _ rd.number _
      hfields hdelta rd.stringRegToInt_text (regBits_number rd) hlow hhigh
    have hdecode := decode_jal rd.number ((BitVec.ofInt 32 d).extractLsb' 0 21)
      (lowBit_slice 20 heven)
    rw [signExtend_slice (n := 20) (by decide) hlow hhigh] at hdecode
    exact produces_of_word hcode hdecode
  | branch c rs1 rs2 gap =>
    rw [hop] at hlow hhigh hfields
    have hf3 : Cond.ofFunct3 (branchFunct3 (condName c)) = some c := by cases c <;> decide
    have hcode := @btypeBranch_fields (l.context labels (uintToHexString pc false)) _ _ _ _ _ _ _
      rs1.number rs2.number _ hfields hdelta rs1.stringRegToInt_text rs2.stringRegToInt_text
      (regBits_number rs1) (regBits_number rs2) hlow hhigh
    have hdecode := decode_branch rs2.number rs1.number ((BitVec.ofInt 32 d).extractLsb' 0 13)
      (lowBit_slice 12 heven) hf3
    rw [signExtend_slice (n := 12) (by decide) hlow hhigh] at hdecode
    exact produces_of_word hcode hdecode

end Relative

/-! ### Loads and stores -/

section Memory
variable {labels : LabelMap} {l : MemoryLine} {addr : Text} {x : ℕ}

theorem MemoryOp.decode_word {op : MemoryOp} (hvalid : op.IsValid) (reg base : BitVec 5)
    (f : BitVec 12) : decode (op.word reg base f) = some (op.instr reg base (f.signExtend 32)) := by
  cases op with
  | load size signed =>
    have hf3 : loadFunct (loadsFunct3 (loadName size signed)) = some (size, signed) := by
      have hword : size = .word → signed = true := hvalid
      cases size <;> cases signed <;> first | exact absurd (hword rfl) (by decide) | decide
    exact decode_load base reg f hf3
  | store size =>
    have hf3 : storeFunct (storesFunct3 (storeName size)) = some size := by cases size <;> decide
    exact decode_store reg base f hf3

theorem signExtend_small (hx : x ≤ 2047) : (BitVec.ofNat 12 x).signExtend 32 =
    BitVec.ofNat 32 x := by
  have hsign := @signExtend_offset x hx
  have hslice : (BitVec.ofInt 32 (x : ℤ)).extractLsb' 0 12 = BitVec.ofNat 12 x := by
    apply BitVec.eq_of_toNat_eq
    rw [BitVec.ofInt_natCast, BitVec.extractLsb'_toNat, BitVec.toNat_ofNat, BitVec.toNat_ofNat,
      Nat.shiftRight_zero]
    omega
  rwa [hslice, BitVec.ofInt_natCast] at hsign

/-- The operand of the line that is encoded reads as a small number. -/
theorem memory_produces (hvalid : l.op.IsValid) {ctx : Context} {whole t : Text}
    (hfields : findStringSubmatch l.op.expr ctx.assembly =
      [whole, l.op.name, l.reg.text, t, l.base.text])
    (hword : ∀ c ∈ t, isWord c = true) (hread : stringHexToInt t = .ok (BitVec.ofInt 64 x))
    (hx : x ≤ 2047) :
    Produces (l.op.encode ctx) (l.op.instr l.reg.number l.base.number (BitVec.ofNat 32 x)) := by
  have hnat : (BitVec.ofInt 64 (x : ℤ)).toNat = x := by
    rw [BitVec.ofInt_natCast, BitVec.toNat_ofNat, Nat.mod_eq_of_lt (by omega)]
  have himm : immediateInt t = .ok (BitVec.ofInt 64 x) :=
    (immediateInt_eq (isWord_ne_colon hword)).trans hread
  have hfield := immField_eq (v := BitVec.ofInt 64 x) (by omega)
  rw [hnat, heldNumber_of_lt (by omega)] at hfield
  have hdecode := MemoryOp.decode_word hvalid l.reg.number l.base.number (BitVec.ofNat 12 x)
  rw [signExtend_small hx] at hdecode
  exact produces_of_word (l.op.encode_fields hfields himm hfield) hdecode

theorem becomes_kept (hlabels : PlainValues labels) (hvalid : l.op.IsValid)
    (h : resolveOperand l.text labels = .ok []) (hmark : l.operand.marked = false)
    (hadd : l.operand.addend = none)
    (hread : stringHexToInt l.operand.name.text = .ok (BitVec.ofInt 64 x)) (hx : x ≤ 2047) :
    Becomes labels (l.machineLine addr)
      (l.op.instr l.reg.number l.base.number (BitVec.ofNat 32 x)) := by
  obtain ⟨refs, hassemble⟩ := assemble_kept addr hlabels h
  obtain ⟨whole, hfields⟩ := l.fields_expr_name hmark hadd
  exact (memory_produces hvalid hfields l.operand.name.isWord hread hx).becomes hassemble

theorem becomes_replaced (hlabels : PlainValues labels) (hvalid : l.op.IsValid) {k : HexLiteral}
    (h : resolveOperand l.text labels = .ok k.text) (hk : k.number = x) (hx : x ≤ 2047) :
    Becomes labels (l.machineLine addr)
      (l.op.instr l.reg.number l.base.number (BitVec.ofNat 32 x)) := by
  subst hk
  obtain ⟨refs, hassemble⟩ := assemble_replaced addr hlabels h k.text_ne_nil k.isWord_text
  obtain ⟨whole, hfields⟩ := l.fields_replaced k.text_ne_nil k.isWord_text
  exact (memory_produces hvalid hfields k.isWord_text (k.stringHexToInt_text (by omega)) hx).becomes
    hassemble

theorem memory_becomes (hlabels : PlainValues labels) {o : OperandForm} {pc : BitVec 64}
    (h : (Stmt.memory l o).InRange labels pc) :
    Becomes labels (l.machineLine addr) ((Stmt.memory l o).instr labels pc) := by
  obtain ⟨hvalid, ho, hcomputed, hx⟩ := h
  cases o with
  | number h =>
    have hname : l.operand.name.text = h.text := by rw [ho]; rfl
    have hmissing : labels.lookup h.text = none := hcomputed
    have hmark : l.operand.marked = false := by rw [ho]; rfl
    have hadd : l.operand.addend = none := by rw [ho]; rfl
    have hresolve : resolveOperand l.text labels = .ok [] := by
      by_cases hres : l.IsResolved
      · rw [resolveOperand_resolved labels hres, Operand.resolve, hmark, hadd, hname, labelValue,
          hmissing]
        rfl
      · exact resolveOperand_unresolved labels hres
    have hsmall : h.number ≤ 2047 := hx
    refine becomes_kept hlabels hvalid hresolve hmark hadd ?_ hx
    rw [hname]
    exact h.stringHexToInt_text (by omega)
  | sum h n =>
    obtain ⟨hres, hdecimal⟩ := hcomputed
    have hsmall : h.number + n.number ≤ 2047 := hx
    have hresolve : resolveOperand l.text labels =
        .ok (HexLiteral.summed (h.number + n.number)).text := by
      rw [resolveOperand_resolved labels hres, ho]
      exact calcSum_eq (h.stringHexToInt_text (by omega)) hdecimal (by omega)
    exact becomes_replaced hlabels hvalid hresolve rfl hx
  | label name =>
    obtain ⟨hres, w, hw⟩ := hcomputed
    have hbase : (OperandForm.label name).base labels = w := sectionStart_eq hw
    rw [hbase] at hx
    have hsmall : 4 * w.toNat ≤ 2047 := hx
    have hread : stringHexToInt (labelValue labels name.text) = .ok (BitVec.ofInt 64 w.toNat) := by
      rw [ofInt_toNat]
      exact hw
    have hresolve : resolveOperand l.text labels = .ok (HexLiteral.printed (4 * w.toNat)).text := by
      rw [resolveOperand_resolved labels hres, ho,
        ← wordAddrToByteAddrString_small hread (by omega)]
      rfl
    rw [Stmt.instr, hbase]
    exact becomes_replaced hlabels hvalid hresolve rfl hx
  | labelSum name n =>
    obtain ⟨⟨hres, hdecimal⟩, w, hw⟩ := hcomputed
    have hbase : (OperandForm.labelSum name n).base labels = w := sectionStart_eq hw
    rw [hbase] at hx
    have hsmall : 4 * (w.toNat + n.number) ≤ 2047 := hx
    have hread : stringHexToInt (labelValue labels name.text) = .ok (BitVec.ofInt 64 w.toNat) := by
      rw [ofInt_toNat]
      exact hw
    have hsum : (HexLiteral.summed (w.toNat + n.number)).number = w.toNat + n.number := rfl
    have hbytes := wordAddrToByteAddrString_small
      ((HexLiteral.summed (w.toNat + n.number)).stringHexToInt_text (by rw [hsum]; omega))
      (by rw [hsum]; omega)
    have hresolve : resolveOperand l.text labels =
        .ok (HexLiteral.printed (4 * (w.toNat + n.number))).text := by
      rw [resolveOperand_resolved labels hres, ho]
      show (calcSum (labelValue labels name.text) n.leading).map _ = _
      rw [calcSum_eq hread hdecimal (by omega)]
      exact congrArg Except.ok hbytes
    rw [Stmt.instr, hbase]
    exact becomes_replaced hlabels hvalid hresolve rfl hx

end Memory

/-- **A line becomes the word that its instruction decodes from.** -/
theorem Stmt.becomes {labels : LabelMap} (hlabels : Addresses labels) {stmt : Stmt} {pc : BitVec 64}
    (h : stmt.InRange labels pc) :
    Becomes labels ⟨stmt.text, .instruction, uintToHexString pc false, []⟩
      (stmt.instr labels pc) := by
  cases stmt with
  | plain l => exact plain_becomes hlabels.plain h
  | memory l o => exact memory_becomes hlabels.plain h
  | relative l => exact relative_becomes hlabels.plain h

section Text
variable {labels : LabelMap} {stmt : Stmt} {pc : BitVec 64}

theorem Stmt.calm_text (h : stmt.InRange labels pc) : Calm stmt.text := by
  cases stmt with
  | plain l =>
    obtain ⟨reg, rest, hshape⟩ := Line.exists_shape h
    exact hshape.calm_text
  | memory l o => exact l.calm_text
  | relative l => exact l.calm_text

/-- A statement begins with its mnemonic. -/
theorem Stmt.starts (h : stmt.InRange labels pc) : ∃ c t, stmt.text = c :: t ∧
    isLower c = true := by
  cases stmt with
  | plain l =>
    obtain ⟨reg, rest, hshape⟩ := Line.exists_shape h
    obtain ⟨c, t, hspaced, hc⟩ := starts_spacedTwo hshape.lower 0 reg.text 1 rest
    exact ⟨c, t, hshape.text.trans hspaced, hc⟩
  | memory l o => exact starts_spacedTwo l.op.name_lower _ _ _ _
  | relative l => exact starts_spacedTwo l.op.name_lower _ _ _ _

end Text

end RangerRisc.Assembler
