import RangerRisc.Lib.Rv32i

/-! The six RV32I instruction formats: how an instruction word is put together, and that
its fields and its immediate come out again. -/

namespace Rv32i

def rFormat (f7 : BitVec 7) (rs2 rs1 : BitVec 5) (f3 : BitVec 3) (rd : BitVec 5) (op : BitVec 7) :
    Word := f7 ++ rs2 ++ rs1 ++ f3 ++ rd ++ op

def iFormat (imm : BitVec 12) (rs1 : BitVec 5) (f3 : BitVec 3) (rd : BitVec 5) (op : BitVec 7) :
    Word := imm ++ rs1 ++ f3 ++ rd ++ op

def sFormat (imm : BitVec 12) (rs2 rs1 : BitVec 5) (f3 : BitVec 3) (op : BitVec 7) : Word :=
  imm.extractLsb' 5 7 ++ rs2 ++ rs1 ++ f3 ++ imm.extractLsb' 0 5 ++ op

/-- The lowest bit of the offset is not encoded. -/
def bFormat (imm : BitVec 13) (rs2 rs1 : BitVec 5) (f3 : BitVec 3) (op : BitVec 7) : Word :=
  imm.extractLsb' 12 1 ++ imm.extractLsb' 5 6 ++ rs2 ++ rs1 ++ f3 ++ imm.extractLsb' 1 4 ++
    imm.extractLsb' 11 1 ++ op

def uFormat (imm : BitVec 20) (rd : BitVec 5) (op : BitVec 7) : Word := imm ++ rd ++ op

def jFormat (imm : BitVec 21) (rd : BitVec 5) (op : BitVec 7) : Word :=
  imm.extractLsb' 20 1 ++ imm.extractLsb' 1 10 ++ imm.extractLsb' 11 1 ++
    imm.extractLsb' 12 8 ++ rd ++ op

/-- What a word shows in the fields that every format keeps in one place. -/
structure Fields (ir : Word) (op : BitVec 7) (rd : BitVec 5) (f3 : BitVec 3) (rs1 rs2 : BitVec 5) :
    Prop where
  opcode : ir.extractLsb' 0 7 = op
  rd : ir.extractLsb' 7 5 = rd
  funct3 : ir.extractLsb' 12 3 = f3
  rs1 : ir.extractLsb' 15 5 = rs1
  rs2 : ir.extractLsb' 20 5 = rs2

section Fields
variable (f7 : BitVec 7) (rs2 rs1 rd : BitVec 5) (f3 : BitVec 3) (op : BitVec 7)

theorem rFormat_fields : Fields (rFormat f7 rs2 rs1 f3 rd op) op rd f3 rs1 rs2 := by
  constructor <;>
  · apply BitVec.eq_of_getLsbD_eq
    intro i hi
    simp only [rFormat, BitVec.getLsbD_append, BitVec.getLsbD_extractLsb']
    grind

theorem rFormat_funct7 : (rFormat f7 rs2 rs1 f3 rd op).extractLsb' 25 7 = f7 := by
  apply BitVec.eq_of_getLsbD_eq
  intro i hi
  simp only [rFormat, BitVec.getLsbD_append, BitVec.getLsbD_extractLsb']
  grind

theorem iFormat_fields (imm : BitVec 12) :
    Fields (iFormat imm rs1 f3 rd op) op rd f3 rs1 (imm.extractLsb' 0 5) := by
  constructor <;>
  · apply BitVec.eq_of_getLsbD_eq
    intro i hi
    simp only [iFormat, BitVec.getLsbD_append, BitVec.getLsbD_extractLsb']
    grind

theorem iFormat_funct7 (imm : BitVec 12) :
    (iFormat imm rs1 f3 rd op).extractLsb' 25 7 = imm.extractLsb' 5 7 := by
  apply BitVec.eq_of_getLsbD_eq
  intro i hi
  simp only [iFormat, BitVec.getLsbD_append, BitVec.getLsbD_extractLsb']
  grind

theorem iFormat_imm (imm : BitVec 12) : (iFormat imm rs1 f3 rd op).extractLsb' 20 12 = imm := by
  apply BitVec.eq_of_getLsbD_eq
  intro i hi
  simp only [iFormat, BitVec.getLsbD_append, BitVec.getLsbD_extractLsb']
  grind

theorem sFormat_fields (imm : BitVec 12) :
    Fields (sFormat imm rs2 rs1 f3 op) op (imm.extractLsb' 0 5) f3 rs1 rs2 := by
  constructor <;>
  · apply BitVec.eq_of_getLsbD_eq
    intro i hi
    simp only [sFormat, BitVec.getLsbD_append, BitVec.getLsbD_extractLsb']
    grind

theorem bFormat_fields (imm : BitVec 13) : ∃ rd,
    Fields (bFormat imm rs2 rs1 f3 op) op rd f3 rs1 rs2 := by
  refine ⟨imm.extractLsb' 1 4 ++ imm.extractLsb' 11 1, ?_⟩
  constructor <;>
  · apply BitVec.eq_of_getLsbD_eq
    intro i hi
    simp only [bFormat, BitVec.getLsbD_append, BitVec.getLsbD_extractLsb']
    grind

theorem uFormat_fields (imm : BitVec 20) :
    (uFormat imm rd op).extractLsb' 0 7 = op ∧ (uFormat imm rd op).extractLsb' 7 5 = rd := by
  constructor <;>
  · apply BitVec.eq_of_getLsbD_eq
    intro i hi
    simp only [uFormat, BitVec.getLsbD_append, BitVec.getLsbD_extractLsb']
    grind

theorem jFormat_fields (imm : BitVec 21) :
    (jFormat imm rd op).extractLsb' 0 7 = op ∧ (jFormat imm rd op).extractLsb' 7 5 = rd := by
  constructor <;>
  · apply BitVec.eq_of_getLsbD_eq
    intro i hi
    simp only [jFormat, BitVec.getLsbD_append, BitVec.getLsbD_extractLsb']
    grind

/-! ## Immediates -/

theorem immI_iFormat (imm : BitVec 12) : immI (iFormat imm rs1 f3 rd op) = imm.signExtend 32 := by
  rw [immI, iFormat_imm]

theorem shamt_iFormat (imm : BitVec 12) :
    shamt (iFormat imm rs1 f3 rd op) = (imm.extractLsb' 0 5).setWidth 32 := by
  rw [shamt, (iFormat_fields rs1 rd f3 op imm).rs2]

theorem immS_sFormat (imm : BitVec 12) : immS (sFormat imm rs2 rs1 f3 op) = imm.signExtend 32 := by
  apply BitVec.eq_of_getLsbD_eq
  intro i hi
  simp only [immS, sFormat, BitVec.getLsbD_append, BitVec.getLsbD_extractLsb',
    BitVec.getLsbD_signExtend, BitVec.msb_eq_getLsbD_last]
  grind

theorem immB_bFormat (imm : BitVec 13) (heven : imm.getLsbD 0 = false) :
    immB (bFormat imm rs2 rs1 f3 op) = imm.signExtend 32 := by
  apply BitVec.eq_of_getLsbD_eq
  intro i hi
  simp only [immB, bFormat, BitVec.getLsbD_append, BitVec.getLsbD_extractLsb',
    BitVec.getLsbD_signExtend, BitVec.msb_eq_getLsbD_last, BitVec.getLsbD_zero]
  grind

theorem immU_uFormat (imm : BitVec 20) : immU (uFormat imm rd op) = imm ++ 0#12 := by
  apply BitVec.eq_of_getLsbD_eq
  intro i hi
  simp only [immU, uFormat, BitVec.getLsbD_append, BitVec.getLsbD_extractLsb', BitVec.getLsbD_zero]
  grind

theorem immJ_jFormat (imm : BitVec 21) (heven : imm.getLsbD 0 = false) :
    immJ (jFormat imm rd op) = imm.signExtend 32 := by
  apply BitVec.eq_of_getLsbD_eq
  intro i hi
  simp only [immJ, jFormat, BitVec.getLsbD_append, BitVec.getLsbD_extractLsb',
    BitVec.getLsbD_signExtend, BitVec.msb_eq_getLsbD_last, BitVec.getLsbD_zero]
  grind

end Fields

/-! ## Decoding -/

section Decode
variable {f7 : BitVec 7} {f3 : BitVec 3} (rs2 rs1 rd : BitVec 5)

theorem decode_op {o : AluOp} (h : AluOp.ofFunct f3 f7 = some o) :
    decode (rFormat f7 rs2 rs1 f3 rd 0b0110011#7) = some (.op o rd rs1 rs2) := by
  have hf := rFormat_fields f7 rs2 rs1 rd f3 0b0110011#7
  have h7 := rFormat_funct7 f7 rs2 rs1 rd f3 0b0110011#7
  simp [decode, hf.opcode, hf.rd, hf.funct3, hf.rs1, hf.rs2, h7, h]

theorem decode_opImm {o : AluOp} (imm : BitVec 12)
    (h : AluOp.ofImmFunct f3 (imm.extractLsb' 5 7) = some o) :
    decode (iFormat imm rs1 f3 rd 0b0010011#7) = some (.opImm o rd rs1
      (if o.isShift then (imm.extractLsb' 0 5).setWidth 32 else imm.signExtend 32)) := by
  have hf := iFormat_fields rs1 rd f3 0b0010011#7 imm
  have h7 := iFormat_funct7 rs1 rd f3 0b0010011#7 imm
  simp [decode, hf.opcode, hf.rd, hf.funct3, hf.rs1, h7, h, immI_iFormat, shamt_iFormat]

theorem decode_load {size : Size} {signed : Bool} (imm : BitVec 12)
    (h : loadFunct f3 = some (size, signed)) :
    decode (iFormat imm rs1 f3 rd 0b0000011#7) =
      some (.load size signed rd rs1 (imm.signExtend 32)) := by
  have hf := iFormat_fields rs1 rd f3 0b0000011#7 imm
  simp [decode, hf.opcode, hf.rd, hf.funct3, hf.rs1, h, immI_iFormat]

theorem decode_store {size : Size} (imm : BitVec 12) (h : storeFunct f3 = some size) :
    decode (sFormat imm rs2 rs1 f3 0b0100011#7) =
      some (.store size rs1 rs2 (imm.signExtend 32)) := by
  have hf := sFormat_fields rs2 rs1 f3 0b0100011#7 imm
  simp [decode, hf.opcode, hf.funct3, hf.rs1, hf.rs2, h, immS_sFormat]

theorem decode_branch {c : Cond} (imm : BitVec 13) (heven : imm.getLsbD 0 = false)
    (h : Cond.ofFunct3 f3 = some c) :
    decode (bFormat imm rs2 rs1 f3 0b1100011#7) =
      some (.branch c rs1 rs2 (imm.signExtend 32)) := by
  obtain ⟨rd, hf⟩ := bFormat_fields rs2 rs1 f3 0b1100011#7 imm
  simp [decode, hf.opcode, hf.funct3, hf.rs1, hf.rs2, h, immB_bFormat rs2 rs1 f3 _ imm heven]

theorem decode_jal (imm : BitVec 21) (heven : imm.getLsbD 0 = false) :
    decode (jFormat imm rd 0b1101111#7) = some (.jal rd (imm.signExtend 32)) := by
  obtain ⟨hop, hrd⟩ := jFormat_fields rd 0b1101111#7 imm
  simp [decode, hop, hrd, immJ_jFormat rd _ imm heven]

theorem decode_jalr (imm : BitVec 12) :
    decode (iFormat imm rs1 0b000#3 rd 0b1100111#7) = some (.jalr rd rs1 (imm.signExtend 32)) := by
  have hf := iFormat_fields rs1 rd 0b000#3 0b1100111#7 imm
  simp [decode, hf.opcode, hf.rd, hf.funct3, hf.rs1, immI_iFormat]

theorem decode_lui (imm : BitVec 20) :
    decode (uFormat imm rd 0b0110111#7) = some (.lui rd (imm ++ 0#12)) := by
  obtain ⟨hop, hrd⟩ := uFormat_fields rd 0b0110111#7 imm
  simp [decode, hop, hrd, immU_uFormat]

theorem decode_auipc (imm : BitVec 20) :
    decode (uFormat imm rd 0b0010111#7) = some (.auipc rd (imm ++ 0#12)) := by
  obtain ⟨hop, hrd⟩ := uFormat_fields rd 0b0010111#7 imm
  simp [decode, hop, hrd, immU_uFormat]

end Decode

end Rv32i
