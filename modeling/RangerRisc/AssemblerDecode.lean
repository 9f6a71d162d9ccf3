import RangerRisc.AssemblerWords
import RangerRisc.Isa

/-! The assembler and the processors agree: a line is encoded as a word in which both the
instruction set and the processors' own slices find the line's instruction. -/

namespace RangerRisc.Assembler

open Numeral Regexp Rv32i

/-- The assembly lines of the instructions that the processors share, with the address that
the context gives to a label. -/
inductive Line where
  | alu (o : AluOp) (rd rs1 rs2 : Register)
  | aluImm (o : AluOp) (rd rs1 : Register) (imm : SignedLiteral)
  | load (size : Size) (signed : Bool) (rd rs1 : Register) (offset : HexLiteral)
  | store (size : Size) (rs2 rs1 : Register) (offset : HexLiteral)
  | branch (c : Cond) (rs1 rs2 : Register) (label : Text) (target : HexLiteral)
  | jal (rd : Register) (label : Text) (target : HexLiteral)
  | jalr (rd rs1 : Register) (offset : HexLiteral)
  | jalrLabel (rd rs1 : Register) (label : Text) (offset : HexLiteral)
  | lui (rd : Register) (imm : HexLiteral)
  | auipc (rd : Register) (imm : HexLiteral)

namespace Line

def mnemonic : Line → Text
  | alu o _ _ _ => aluName o
  | aluImm o _ _ _ => aluImmName o
  | load size signed _ _ _ => loadName size signed
  | store size _ _ _ => storeName size
  | branch c _ _ _ _ => condName c
  | jal _ _ _ => "jal".toList
  | jalr _ _ _ | jalrLabel _ _ _ _ => "jalr".toList
  | lui _ _ => "lui".toList
  | auipc _ _ => "auipc".toList

def text (line : Line) : Text :=
  match line with
  | alu _ rd rs1 rs2 => lineThree line.mnemonic rd.text rs1.text rs2.text
  | aluImm _ rd rs1 imm => lineThree line.mnemonic rd.text rs1.text imm.text
  | load _ _ rd rs1 offset => lineOffset line.mnemonic rd.text offset.text rs1.text
  | store _ rs2 rs1 offset => lineOffset line.mnemonic rs2.text offset.text rs1.text
  | branch _ rs1 rs2 label _ => lineThree line.mnemonic rs1.text rs2.text ('@' :: label)
  | jal rd label _ => lineTwo line.mnemonic rd.text ('@' :: label)
  | jalr rd rs1 offset => lineOffset line.mnemonic rd.text offset.text rs1.text
  | jalrLabel rd rs1 label _ => lineOffset line.mnemonic rd.text label rs1.text
  | lui rd imm | auipc rd imm => lineTwo line.mnemonic rd.text imm.text

/-- The ranges of the fields. `0x` tells the offset of a jalr from a label. -/
def InRange (labels : Labels) (pc : HexLiteral) : Line → Prop
  | alu _ _ _ _ => True
  | aluImm o _ _ imm => o ≠ .sub ∧
      if o.isShift then 0 ≤ imm.number ∧ imm.number ≤ 31
      else -2048 ≤ imm.number ∧ imm.number ≤ 2047
  | load size signed _ _ offset => (size = .word → signed = true) ∧ offset.number ≤ 2047
  | store _ _ _ offset => offset.number ≤ 2047
  | branch _ _ _ label target => Reaches labels pc label target 4096
  | jal _ label target => Reaches labels pc label target 1048576
  | jalr _ _ offset => offset.zeroX = true ∧ offset.number ≤ 2046 ∧ 2 ∣ offset.number
  | jalrLabel _ _ label offset => (label ≠ [] ∧ ∀ c ∈ label, isWord c = true) ∧
      contains "0x".toList label = false ∧ findLabelValue labels label = .ok offset.text ∧
      offset.number ≤ 2046 ∧ 2 ∣ offset.number
  | lui _ imm | auipc _ imm => imm.number ≤ 0xFFFFF

/-- The instruction that a line at `pc` asks for. -/
def instr (pc : HexLiteral) : Line → Instr
  | alu o rd rs1 rs2 => .op o rd.number rs1.number rs2.number
  | aluImm o rd rs1 imm => .opImm o rd.number rs1.number (BitVec.ofInt 32 imm.number)
  | load size signed rd rs1 offset =>
    .load size signed rd.number rs1.number (BitVec.ofInt 32 offset.number)
  | store size rs2 rs1 offset =>
    .store size rs1.number rs2.number (BitVec.ofInt 32 offset.number)
  | branch c rs1 rs2 _ target =>
    .branch c rs1.number rs2.number (BitVec.ofInt 32 (distance pc target))
  | jal rd _ target => .jal rd.number (BitVec.ofInt 32 (distance pc target))
  | jalr rd rs1 offset | jalrLabel rd rs1 _ offset =>
    .jalr rd.number rs1.number (BitVec.ofInt 32 offset.number)
  | lui rd imm => .lui rd.number (BitVec.ofInt 32 (imm.number * 4096))
  | auipc rd imm => .auipc rd.number (BitVec.ofInt 32 (imm.number * 4096))

end Line

/-- The word that decodes to an instruction is what the encoder returns. -/
def Produces (result : Except Error Text) (i : Instr) : Prop :=
  ∃ code w, result = .ok code ∧ readWord code = some w ∧ Rv32i.decode w = some i

theorem produces_of_word {result : Except Error Text} {w : Word} {i : Instr}
    (h : result = .ok (machineCode (wordBits w))) (hw : Rv32i.decode w = some i) :
    Produces result i :=
  ⟨_, w, h, readWord_machineCode w, hw⟩

section Formats
variable {ctx : Context}

theorem alu_produces (o : AluOp) (rd rs1 rs2 : Register)
    (h : ctx.assembly = (Line.alu o rd rs1 rs2).text) :
    Produces (rtypeAlu ctx) (.op o rd.number rs1.number rs2.number) := by
  apply produces_of_word (rtypeAlu_text o rd rs1 rs2 h)
  apply decode_op
  cases o <;> decide

theorem aluImmField_slice {o : AluOp} (x : Word) (ho : o ≠ .sra) :
    aluImmField o x = x.extractLsb' 0 12 := by
  apply BitVec.eq_of_getLsbD_eq
  intro i hi
  rw [aluImmField, if_neg ho]
  simp only [BitVec.getLsbD_append, BitVec.getLsbD_extractLsb', Nat.zero_add]
  grind

/-- A shift by an amount below 32 keeps the amount and its operation apart. -/
theorem aluImmField_shift {o : AluOp} (ho : o.isShift) {k : ℕ} (hk : k < 32) :
    AluOp.ofFunct (itypeFunct3 (aluImmName o))
        ((aluImmField o (BitVec.ofInt 32 k)).extractLsb' 5 7) = some o ∧
      ((aluImmField o (BitVec.ofInt 32 k)).extractLsb' 0 5).setWidth 32 = BitVec.ofInt 32 k := by
  have hall : ∀ k : Fin 32, ∀ o ∈ [AluOp.sll, .srl, .sra],
      AluOp.ofFunct (itypeFunct3 (aluImmName o))
          ((aluImmField o (BitVec.ofInt 32 (k.val : ℤ))).extractLsb' 5 7) = some o ∧
        ((aluImmField o (BitVec.ofInt 32 (k.val : ℤ))).extractLsb' 0 5).setWidth 32 =
          BitVec.ofInt 32 (k.val : ℤ) := by
    decide +kernel
  apply hall ⟨k, hk⟩ o
  cases o <;> first | exact absurd ho (by decide) | decide

theorem aluImm_produces (o : AluOp) (rd rs1 : Register) (imm : SignedLiteral) (ho : o ≠ .sub)
    (hrange : if o.isShift then 0 ≤ imm.number ∧ imm.number ≤ 31
      else -2048 ≤ imm.number ∧ imm.number ≤ 2047)
    (h : ctx.assembly = (Line.aluImm o rd rs1 imm).text) :
    Produces (itypeAlu ctx) (.opImm o rd.number rs1.number (BitVec.ofInt 32 imm.number)) := by
  by_cases hs : o.isShift
  · rw [if_pos hs] at hrange
    obtain ⟨k, hk⟩ : ∃ k : ℕ, imm.number = k := ⟨imm.number.toNat, by omega⟩
    obtain ⟨hop, hamount⟩ := aluImmField_shift hs (k := k) (by omega)
    have hf3 : itypeFunct3 (aluImmName o) = 0b001#3 ∨ itypeFunct3 (aluImmName o) = 0b101#3 := by
      cases o <;> first | exact absurd hs (by decide) | decide
    have himm : AluOp.ofImmFunct (itypeFunct3 (aluImmName o))
        ((aluImmField o (BitVec.ofInt 32 (k : ℤ))).extractLsb' 5 7) = some o := by
      rw [AluOp.ofImmFunct, if_pos hf3, hop]
    have hdecode := decode_opImm rs1.number rd.number _ himm
    rw [if_pos hs, hamount, ← hk] at hdecode
    exact produces_of_word (itypeAlu_text o rd rs1 imm (by omega) (by omega) h) hdecode
  · rw [if_neg hs] at hrange
    have hf3 : ¬ (itypeFunct3 (aluImmName o) = 0b001#3 ∨ itypeFunct3 (aluImmName o) = 0b101#3) := by
      cases o <;> first | exact absurd rfl hs | decide
    have hop : AluOp.ofFunct3 (itypeFunct3 (aluImmName o)) = o := by
      cases o <;> first | exact absurd rfl hs | exact absurd rfl ho | decide
    have hslice := aluImmField_slice (o := o) (BitVec.ofInt 32 imm.number)
      (by rintro rfl; exact hs rfl)
    have himm : AluOp.ofImmFunct (itypeFunct3 (aluImmName o))
        ((aluImmField o (BitVec.ofInt 32 imm.number)).extractLsb' 5 7) = some o := by
      rw [AluOp.ofImmFunct, if_neg hf3, hop]
    have hdecode := decode_opImm rs1.number rd.number _ himm
    have hsign := signExtend_slice (z := imm.number) (n := 11) (by decide) (by omega) (by omega)
    rw [if_neg hs, hslice, hsign, ← hslice] at hdecode
    exact produces_of_word (itypeAlu_text o rd rs1 imm (by omega) (by omega) h) hdecode

/-- An offset of at most 2047 is its own sign extension. -/
theorem signExtend_offset {n : ℕ} (h : n ≤ 2047) :
    ((BitVec.ofInt 32 (n : ℤ)).extractLsb' 0 12).signExtend 32 = BitVec.ofInt 32 (n : ℤ) :=
  signExtend_slice (n := 11) (by decide) (by omega) (by omega)

theorem load_produces (size : Size) (signed : Bool) (rd rs1 : Register) (offset : HexLiteral)
    (hword : size = .word → signed = true) (hoffset : offset.number ≤ 2047)
    (h : ctx.assembly = (Line.load size signed rd rs1 offset).text) :
    Produces (loads ctx)
      (.load size signed rd.number rs1.number (BitVec.ofInt 32 offset.number)) := by
  have hf3 : loadFunct (loadsFunct3 (loadName size signed)) = some (size, signed) := by
    cases size <;> cases signed <;> first | exact absurd (hword rfl) (by decide) | decide
  have hdecode := decode_load rs1.number rd.number
    ((BitVec.ofInt 32 (offset.number : ℤ)).extractLsb' 0 12) hf3
  rw [signExtend_offset hoffset] at hdecode
  exact produces_of_word (loads_text size signed rd rs1 offset (by omega) h) hdecode

theorem store_produces (size : Size) (rs2 rs1 : Register) (offset : HexLiteral)
    (hoffset : offset.number ≤ 2047)
    (h : ctx.assembly = (Line.store size rs2 rs1 offset).text) :
    Produces (stores ctx) (.store size rs1.number rs2.number (BitVec.ofInt 32 offset.number)) := by
  have hf3 : storeFunct (storesFunct3 (storeName size)) = some size := by cases size <;> decide
  have hdecode := decode_store rs2.number rs1.number
    ((BitVec.ofInt 32 (offset.number : ℤ)).extractLsb' 0 12) hf3
  rw [signExtend_offset hoffset] at hdecode
  exact produces_of_word (stores_text size rs2 rs1 offset (by omega) h) hdecode

theorem lowBit_slice {z : ℤ} (k : ℕ) (h : 2 ∣ z) :
    ((BitVec.ofInt 32 z).extractLsb' 0 (k + 1)).getLsbD 0 = false := by
  have hbit : (BitVec.ofInt 32 z).toNat % 2 = 0 := by
    rw [BitVec.toNat_ofInt]
    omega
  rw [BitVec.getLsbD_extractLsb', BitVec.getLsbD, Nat.zero_add, Nat.testBit_zero, hbit]
  simp

section Labels
variable {pc target : HexLiteral} {label : Text}

theorem branch_produces (c : Cond) (rs1 rs2 : Register) (hpc : ctx.pc = pc.text)
    (hr : Reaches ctx.labels pc label target 4096)
    (h : ctx.assembly = (Line.branch c rs1 rs2 label target).text) :
    Produces (btypeBranch ctx)
      (.branch c rs1.number rs2.number (BitVec.ofInt 32 (distance pc target))) := by
  have hf3 : Cond.ofFunct3 (branchFunct3 (condName c)) = some c := by cases c <;> decide
  have hdecode := decode_branch rs2.number rs1.number
    ((BitVec.ofInt 32 (distance pc target)).extractLsb' 0 13) (lowBit_slice 12 hr.even) hf3
  rw [signExtend_slice (n := 12) (by decide) hr.low hr.high] at hdecode
  exact produces_of_word (btypeBranch_text c rs1 rs2 hpc hr h) hdecode

theorem jal_produces (rd : Register) (hpc : ctx.pc = pc.text)
    (hr : Reaches ctx.labels pc label target 1048576)
    (h : ctx.assembly = (Line.jal rd label target).text) :
    Produces (jal ctx) (.jal rd.number (BitVec.ofInt 32 (distance pc target))) := by
  have hdecode := decode_jal rd.number
    ((BitVec.ofInt 32 (distance pc target)).extractLsb' 0 21) (lowBit_slice 20 hr.even)
  rw [signExtend_slice (n := 20) (by decide) hr.low hr.high] at hdecode
  exact produces_of_word (jal_text rd hpc hr h) hdecode

end Labels

theorem jalr_produces (rd rs1 : Register) {label : Text} {offset : HexLiteral}
    (hlabel : label ≠ [] ∧ ∀ c ∈ label, isWord c = true)
    (hoffset : jalrOffset ctx label = .ok offset.text) (hsmall : offset.number ≤ 2046)
    (heven : 2 ∣ offset.number)
    (h : ctx.assembly = lineOffset "jalr".toList rd.text label rs1.text) :
    Produces (jalr ctx) (.jalr rd.number rs1.number (BitVec.ofInt 32 offset.number)) := by
  have hdecode := decode_jalr rs1.number rd.number
    ((BitVec.ofInt 32 (offset.number : ℤ)).extractLsb' 0 12)
  rw [signExtend_offset (by omega)] at hdecode
  exact produces_of_word (jalr_text rd rs1 hlabel hoffset (by omega) heven h) hdecode

/-- The upper immediate, moved up by its twelve zeros. -/
theorem slice_append_zero {n : ℕ} :
    (BitVec.ofInt 32 (n : ℤ)).extractLsb' 0 20 ++ 0#12 = BitVec.ofInt 32 ((n : ℤ) * 4096) := by
  apply BitVec.eq_of_toNat_eq
  rw [show ((n : ℤ) * 4096) = ((n * 4096 : ℕ) : ℤ) by push_cast; rfl, BitVec.ofInt_natCast,
    BitVec.ofInt_natCast, BitVec.toNat_append, BitVec.extractLsb'_toNat, BitVec.toNat_ofNat,
    BitVec.toNat_ofNat]
  simp only [Nat.shiftRight_zero, BitVec.toNat_ofNat, Nat.shiftLeft_eq]
  show n % 2 ^ 32 % 2 ^ 20 * 2 ^ 12 ||| 0 % 2 ^ 12 = _
  rw [Nat.zero_mod, Nat.or_zero]
  omega

theorem lui_produces (rd : Register) (imm : HexLiteral) (himm : imm.number ≤ 0xFFFFF)
    (h : ctx.assembly = (Line.lui rd imm).text) :
    Produces (lui ctx) (.lui rd.number (BitVec.ofInt 32 (imm.number * 4096))) := by
  have hdecode := decode_lui rd.number ((BitVec.ofInt 32 (imm.number : ℤ)).extractLsb' 0 20)
  rw [slice_append_zero] at hdecode
  exact produces_of_word
    (utype_text "lui".toList 0b0110111#7 (by decide) (List.all_eq_true.mp rfl) rd imm
      (by omega) h) hdecode

theorem auipc_produces (rd : Register) (imm : HexLiteral) (himm : imm.number ≤ 0xFFFFF)
    (h : ctx.assembly = (Line.auipc rd imm).text) :
    Produces (auipc ctx) (.auipc rd.number (BitVec.ofInt 32 (imm.number * 4096))) := by
  have hdecode := decode_auipc rd.number ((BitVec.ofInt 32 (imm.number : ℤ)).extractLsb' 0 20)
  rw [slice_append_zero] at hdecode
  exact produces_of_word
    (utype_text "auipc".toList 0b0010111#7 (by decide) (List.all_eq_true.mp rfl) rd imm
      (by omega) h) hdecode

end Formats

/-! ## Dispatch -/

theorem contains_zeroX (l : HexLiteral) (h : l.zeroX = true) :
    contains "0x".toList l.text = true := by
  have htext : l.text = '0' :: 'x' :: l.digits := by simp [HexLiteral.text, h]
  rw [htext]
  simp [contains, List.isPrefixOf]

/-- `Dispatch` finds the encoder of the line's format. -/
theorem dispatch_produces (line : Line) (labels : Labels) (pc : HexLiteral)
    (h : line.InRange labels pc) :
    Produces (dispatch line.mnemonic ⟨line.text, pc.text, labels⟩) (line.instr pc) := by
  have hne : ∀ o : AluOp, o ≠ .sub →
      ∀ ctx, dispatch (aluImmName o) ctx = itypeAlu ctx := by
    intro o ho ctx
    cases o <;> first | exact absurd rfl ho | rfl
  cases line with
  | alu o rd rs1 rs2 =>
    have hd : ∀ ctx, dispatch (aluName o) ctx = rtypeAlu ctx := by intro ctx; cases o <;> rfl
    rw [Line.mnemonic, hd]
    exact alu_produces o rd rs1 rs2 rfl
  | aluImm o rd rs1 imm =>
    rw [Line.mnemonic, hne o h.1]
    exact aluImm_produces o rd rs1 imm h.1 h.2 rfl
  | load size signed rd rs1 offset =>
    have hd : ∀ ctx, dispatch (loadName size signed) ctx = loads ctx := by
      intro ctx
      cases size <;> cases signed <;> rfl
    rw [Line.mnemonic, hd]
    exact load_produces size signed rd rs1 offset h.1 h.2 rfl
  | store size rs2 rs1 offset =>
    have hd : ∀ ctx, dispatch (storeName size) ctx = stores ctx := by intro ctx; cases size <;> rfl
    rw [Line.mnemonic, hd]
    exact store_produces size rs2 rs1 offset h rfl
  | branch c rs1 rs2 label target =>
    have hd : ∀ ctx, dispatch (condName c) ctx = btypeBranch ctx := by intro ctx; cases c <;> rfl
    rw [Line.mnemonic, hd]
    exact branch_produces c rs1 rs2 rfl h rfl
  | jal rd label target => exact jal_produces rd rfl h rfl
  | jalr rd rs1 offset =>
    have hoffset : ∀ ctx, jalrOffset ctx offset.text = .ok offset.text :=
      fun ctx => if_pos (contains_zeroX offset h.1)
    exact jalr_produces rd rs1 ⟨offset.text_ne_nil, offset.isWord_text⟩ (hoffset _) h.2.1 h.2.2 rfl
  | jalrLabel rd rs1 label offset =>
    obtain ⟨hlabel, hzero, hfound, hsmall, heven⟩ := h
    have hoffset : ∀ ctx : Context, ctx.labels = labels →
        jalrOffset ctx label = .ok offset.text := by
      rintro ctx rfl
      rw [jalrOffset, hzero]
      exact hfound
    exact jalr_produces rd rs1 hlabel (hoffset _ rfl) hsmall heven rfl
  | lui rd imm => exact lui_produces rd imm h rfl
  | auipc rd imm => exact auipc_produces rd imm h rfl

/-- **The assembler and the processors agree.** The code of a line is a word that the
instruction set decodes to the line's instruction, and the processors' slices of that word
are the parts of the instruction. -/
theorem dispatch_decodes (line : Line) (labels : Labels) (pc : HexLiteral) (undef : Word)
    (h : line.InRange labels pc) :
    ∃ code w, dispatch line.mnemonic ⟨line.text, pc.text, labels⟩ = .ok code ∧
      readWord code = some w ∧ Rv32i.decode w = some (line.instr pc) ∧
      Encodes undef w (line.instr pc) := by
  obtain ⟨code, w, hcode, hword, hdecode⟩ := dispatch_produces line labels pc h
  exact ⟨code, w, hcode, hword, hdecode, encodes_of_decode undef hdecode⟩

/-- A branch backwards: `blt x3, a1, @Next` at 0x1F0, with `Next` at word 0xB. -/
def branchBack : Line :=
  .branch .lt (.x 3) (.a 1) "Next".toList (.mk false "0B".toList 11 (by decide))

theorem dispatch_decodes_branchBack :
    ∃ code w, dispatch "blt".toList
        ⟨"blt x3, a1, @Next".toList, "1F0".toList, [[("Next".toList, "0B".toList)]]⟩ = .ok code ∧
      readWord code = some w ∧
      Rv32i.decode w = some (.branch .lt 3#5 11#5 (BitVec.ofInt 32 (-452))) ∧
      Encodes 0 w (.branch .lt 3#5 11#5 (BitVec.ofInt 32 (-452))) :=
  dispatch_decodes branchBack [[("Next".toList, "0B".toList)]]
    (.mk false "1F0".toList 0x1F0 (by decide)) 0
    ⟨⟨by decide, List.all_eq_true.mp rfl⟩, by decide, by decide, by decide, by decide, by decide,
      by decide⟩

end RangerRisc.Assembler
