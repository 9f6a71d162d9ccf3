import RangerRisc.Lib.Trace

/-! `definitions.sv` and `TypeEnums.sv`: opcodes, instruction fields, select codes
and the state enumerations. Load and read/write strobes are active low, so they are
bits whose value `false` means active. -/

namespace RangerRisc

abbrev Word := BitVec 32

/-! ## Instruction fields -/

/-- The opcodes that are decoded; every other value of `ir[6:0]` is `unknown`. -/
inductive Opcode where
  | rType | iType | iTypeL | iTypeJ | iTypeE | sType | bType | uTypeL | uTypeA | jType
  | unknown
  deriving DecidableEq, Repr

def Opcode.ofBits (b : BitVec 7) : Opcode :=
  if b = 0b0110011#7 then .rType
  else if b = 0b0010011#7 then .iType
  else if b = 0b0000011#7 then .iTypeL
  else if b = 0b1100111#7 then .iTypeJ
  else if b = 0b1110011#7 then .iTypeE
  else if b = 0b0100011#7 then .sType
  else if b = 0b1100011#7 then .bType
  else if b = 0b0110111#7 then .uTypeL
  else if b = 0b0010111#7 then .uTypeA
  else if b = 0b1101111#7 then .jType
  else .unknown

/-- `ir_opcode`, as the case labels of the control matrices and of the immediate unit see it. -/
def irOpcode (ir : Word) : Opcode := Opcode.ofBits (ir.extractLsb' 0 7)

def funct3 (ir : Word) : BitVec 3 := ir.extractLsb' 12 3
def dstRg (ir : Word) : BitVec 5 := ir.extractLsb' 7 5
def rs1 (ir : Word) : BitVec 5 := ir.extractLsb' 15 5
def rs2 (ir : Word) : BitVec 5 := ir.extractLsb' 20 5
/-- The upper three bits of funct7. -/
def funct7up (ir : Word) : BitVec 3 := ir.extractLsb' 29 3
def funct12 (ir : Word) : BitVec 12 := ir.extractLsb' 20 12

/-! ## Select codes -/

@[simp] abbrev rgLdEnabled : Bool := false
@[simp] abbrev rgLdDisabled : Bool := true
@[simp] abbrev rwActive : Bool := false
@[simp] abbrev rwInActive : Bool := true
@[simp] abbrev alwaysLoad : Bool := false

@[simp] abbrev aSrcPC : BitVec 2 := 0b00#2
@[simp] abbrev aSrcPrior : BitVec 2 := 0b01#2
@[simp] abbrev aSrcZero : BitVec 2 := 0b10#2
@[simp] abbrev aSrcRsa : BitVec 2 := 0b11#2

@[simp] abbrev bSrcRsb : BitVec 2 := 0b00#2
@[simp] abbrev bSrcFour : BitVec 2 := 0b01#2
@[simp] abbrev bSrcImm : BitVec 2 := 0b10#2
@[simp] abbrev bSrcZero : BitVec 2 := 0b11#2

@[simp] abbrev wdSrcImm : BitVec 2 := 0b00#2
@[simp] abbrev wdSrcALUOut : BitVec 2 := 0b01#2
@[simp] abbrev wdSrcMDR : BitVec 2 := 0b10#2
@[simp] abbrev wdSrcCSR : BitVec 2 := 0b11#2

@[simp] abbrev pcSrcAluImm : BitVec 3 := 0b000#3
@[simp] abbrev pcSrcAluOut : BitVec 3 := 0b001#3
@[simp] abbrev pcSrcResetVec : BitVec 3 := 0b010#3
@[simp] abbrev pcSrcRDCSR : BitVec 3 := 0b011#3
@[simp] abbrev pcSrcResetAdr : BitVec 3 := 0b100#3

/-- ALU operations: funct3 followed by the upper three bits of funct7. -/
@[simp] abbrev addOp : BitVec 6 := 0b000_000#6
@[simp] abbrev subOp : BitVec 6 := 0b000_010#6
@[simp] abbrev xorOp : BitVec 6 := 0b100_000#6
@[simp] abbrev orOp : BitVec 6 := 0b110_000#6
@[simp] abbrev andOp : BitVec 6 := 0b111_000#6
@[simp] abbrev sllOp : BitVec 6 := 0b001_000#6
@[simp] abbrev srlOp : BitVec 6 := 0b101_000#6
@[simp] abbrev sraOp : BitVec 6 := 0b101_010#6
@[simp] abbrev sltOp : BitVec 6 := 0b010_000#6
@[simp] abbrev sltuOp : BitVec 6 := 0b011_000#6

/-! ## States -/

inductive ResetState where
  | sync0 | vector0 | vector1 | vector2 | vector3
  deriving DecidableEq, Repr

/-- The states of the control matrices. `definitions/TypeEnums.sv` keeps prefetch and
interrupt entry among the instruction states, the `TypeEnums.sv` of the other two
directories among these; each matrix uses the ones its own file lists. -/
inductive MatrixState where
  | reset | fetch | decode | execute | preFetch | irq0 | irq1 | irq2 | halt
  deriving DecidableEq, Repr

inductive InstructionState where
  | stStore | stMemAcc | stMemWrt | stMemRrd
  | itLoad | itLdMemAcc | itLdMemMdr | itLdMemCmpl
  | rType | rtCmpl | bType | btBranch | btCmpl
  | itAlu | itAluCmpl | jtJal | jtJalRtr | itJalr | itJalrRtr
  | uType | utCmpl | uTypeAui | utAuiCmpl
  | itEbreak | itECall | itCsr | itCsrLd
  | irq0 | irq1 | irq2 | itMret | itMretClr | preFetch | irUnknown
  deriving DecidableEq, Repr

/-! ## Control and status registers -/

namespace Csr
@[simp] abbrev mstatus : BitVec 12 := 0x300#12
@[simp] abbrev mie : BitVec 12 := 0x304#12
@[simp] abbrev mtvec : BitVec 12 := 0x305#12
@[simp] abbrev mepc : BitVec 12 := 0x341#12
@[simp] abbrev mip : BitVec 12 := 0x344#12

/-- Bit positions. -/
abbrev mstatusMIE : ℕ := 3
abbrev mstatusMPIE : ℕ := 7
abbrev mieMEIE : ℕ := 11
abbrev mipMEIP : ℕ := 11

@[simp] abbrev csrrw : BitVec 3 := 0b001#3
@[simp] abbrev csrrs : BitVec 3 := 0b010#3
@[simp] abbrev csrrc : BitVec 3 := 0b011#3
@[simp] abbrev csrrwi : BitVec 3 := 0b101#3
@[simp] abbrev csrrsi : BitVec 3 := 0b110#3
@[simp] abbrev csrrci : BitVec 3 := 0b111#3
end Csr

end RangerRisc
