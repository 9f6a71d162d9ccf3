import RangerRisc.ControlMatrix
import RangerRisc.Lib.Bits

/-! What the two matrices with CSRs have in common: the five registers, the decoding
of a CSR instruction, the interrupt flags and the two edits of mstatus. -/

namespace RangerRisc

open BitField

/-! ## Registers -/

@[ext] structure CsrRegs where
  mstatus : Word
  mie : Word
  mip : Word
  mepc : Word
  mtvec : Word
  deriving DecidableEq, Repr

namespace CsrRegs

variable (r : CsrRegs)

def read (addr : BitVec 12) : Word :=
  if addr = Csr.mstatus then r.mstatus
  else if addr = Csr.mie then r.mie
  else if addr = Csr.mtvec then r.mtvec
  else if addr = Csr.mepc then r.mepc
  else if addr = Csr.mip then r.mip
  else 0

def write (addr : BitVec 12) (data : Word) : CsrRegs :=
  if addr = Csr.mstatus then { r with mstatus := data }
  else if addr = Csr.mie then { r with mie := data }
  else if addr = Csr.mtvec then { r with mtvec := data }
  else if addr = Csr.mip then { r with mip := data }
  else if addr = Csr.mepc then { r with mepc := data }
  else r

/-- Writing back what is read changes nothing. -/
@[simp] theorem write_read (addr : BitVec 12) : r.write addr (r.read addr) = r := by
  unfold write read
  split_ifs <;> first | rfl | simp_all

@[simp] theorem write_mstatus {addr : BitVec 12} (h : addr ≠ Csr.mstatus) (data : Word) :
    (r.write addr data).mstatus = r.mstatus := by
  unfold write
  split_ifs <;> first | rfl | exact absurd ‹_› h

@[simp] theorem write_mepc {addr : BitVec 12} (h : addr ≠ Csr.mepc) (data : Word) :
    (r.write addr data).mepc = r.mepc := by
  unfold write
  split_ifs <;> rfl

@[simp] theorem write_mip {addr : BitVec 12} (h : addr ≠ Csr.mip) (data : Word) :
    (r.write addr data).mip = r.mip := by
  unfold write
  split_ifs <;> rfl

/-- `mip[`CSR_Mip_MEIE] <= b` -/
def setMip (b : Bool) : CsrRegs := { r with mip := assignBit r.mip Csr.mipMEIP b }

@[simp] theorem setMip_setMip (b c : Bool) : (r.setMip b).setMip c = r.setMip c := by
  simp only [setMip]
  rw [assignBit_assignBit _ _ _ _ (by decide)]

@[simp] theorem setMip_mip_MEIP (b : Bool) :
    (r.setMip b).mip.getLsbD Csr.mipMEIP = b :=
  getLsbD_assignBit_self _ _ _ (by decide)

/-- The three enables that make `irq_pending`. -/
def irqPending : Bool :=
  r.mstatus.getLsbD Csr.mstatusMIE && r.mie.getLsbD Csr.mieMEIE && r.mip.getLsbD Csr.mipMEIP

end CsrRegs

/-- mstatus on the way into a trap: MPIE takes MIE, MIE is cleared. -/
def trapStatus (mstatus : Word) : Word :=
  assignBit (assignBit mstatus Csr.mstatusMPIE (mstatus.getLsbD Csr.mstatusMIE))
    Csr.mstatusMIE false

/-- mstatus on the way out: MIE takes MPIE, MPIE is cleared. -/
def mretStatus (mstatus : Word) : Word :=
  assignBit (assignBit mstatus Csr.mstatusMIE (mstatus.getLsbD Csr.mstatusMPIE))
    Csr.mstatusMPIE false

/-- Mepc without its two low bits. -/
def mretPc (mepc : Word) : Word := mepc.extractLsb' 2 30 ++ 0b00#2

section Status
variable (mstatus : Word)

/-- mret undoes what the trap has done to mstatus, apart from MPIE. -/
theorem mretStatus_trapStatus_MIE :
    (mretStatus (trapStatus mstatus)).getLsbD Csr.mstatusMIE =
      mstatus.getLsbD Csr.mstatusMIE := by
  simp only [mretStatus, trapStatus]
  rw [getLsbD_assignBit_of_ne _ _ (by decide) (by decide), getLsbD_assignBit_self _ _ _ (by decide),
    getLsbD_assignBit_of_ne _ _ (by decide) (by decide), getLsbD_assignBit_self _ _ _ (by decide)]

theorem mretStatus_trapStatus_of_ne {b : ℕ} (h : b ≠ Csr.mstatusMIE) (h' : b ≠ Csr.mstatusMPIE) :
    (mretStatus (trapStatus mstatus)).getLsbD b = mstatus.getLsbD b := by
  simp only [mretStatus, trapStatus]
  rw [getLsbD_assignBit_of_ne _ _ (by decide) h', getLsbD_assignBit_of_ne _ _ (by decide) h,
    getLsbD_assignBit_of_ne _ _ (by decide) h, getLsbD_assignBit_of_ne _ _ (by decide) h']

end Status

theorem mretPc_aligned {pc : Word} (h : pc.extractLsb' 0 2 = 0#2) : mretPc pc = pc := by
  apply BitVec.eq_of_getLsbD_eq
  intro j hj
  rw [mretPc, BitVec.getLsbD_append]
  by_cases h2 : j < 2
  · have hbit := congrArg (fun b : BitVec 2 => b.getLsbD j) h
    simp only [BitVec.getLsbD_extractLsb', h2, decide_true, Bool.true_and, Nat.zero_add] at hbit
    simp [h2, hbit]
  · simp only [h2, if_false, BitVec.getLsbD_extractLsb']
    rw [show 2 + (j - 2) = j by omega]
    simp [show j - 2 < 30 by omega]

/-! ## CSR instructions -/

def isCSRInstr (ir : Word) : Bool := irOpcode ir = .iTypeE ∧ funct3 ir ≠ 0b000#3

/-- `immediate` of the matrices, zero extended. -/
def csrImmediate (ir : Word) : Word := (ir.extractLsb' 15 5).setWidth 32

/-- The value of `csr_data` before the state machine. -/
def csrDataRead (r : CsrRegs) (addr : BitVec 12) (ir rsa : Word) : Word :=
  if isCSRInstr ir then
    if dstRg ir = 0#5 ∧ funct3 ir = Csr.csrrw then rsa else r.read addr
  else r.mstatus

/-- `algo_data` -/
def algoData (ir rsa csrData : Word) : Word :=
  if isCSRInstr ir then
    if funct3 ir = Csr.csrrwi then csrImmediate ir
    else if funct3 ir = Csr.csrrc then ~~~rsa &&& csrData
    else if funct3 ir = Csr.csrrci then ~~~(csrImmediate ir) &&& csrData
    else if funct3 ir = Csr.csrrs then rsa ||| csrData
    else if funct3 ir = Csr.csrrsi then csrImmediate ir ||| csrData
    else 0
  else 0

/-- What the ITCSR state does: write the CSR without reading it, nothing, or hand the
old value to the register file. funct3 = 100 is none of these. -/
inductive CsrAction where
  | write | skip | transfer | unknown
  deriving DecidableEq, Repr

def csrAction (rdIsX0 rs1IsX0 : Bool) (f : BitVec 3) : CsrAction :=
  if f = Csr.csrrw then if rdIsX0 then .write else .transfer
  else if f = Csr.csrrs ∨ f = Csr.csrrc then if rs1IsX0 then .skip else .transfer
  else if f = Csr.csrrwi ∨ f = Csr.csrrsi ∨ f = Csr.csrrci then .transfer
  else .unknown

/-- `csr_data` in the ITCSRLd state. -/
def csrLdData (ir rsa csrData : Word) : Word :=
  if funct3 ir = Csr.csrrw then rsa
  else if funct3 ir = Csr.csrrs ∨ funct3 ir = Csr.csrrc ∨ funct3 ir = Csr.csrrwi ∨
      funct3 ir = Csr.csrrsi ∨ funct3 ir = Csr.csrrci then algoData ir rsa csrData
  else csrData

/-- The CSR instruction `ir` writes its CSR, as the instruction set has it: the set and clear
forms only if they have a source. -/
def csrWrites (ir : Word) : Prop :=
  isCSRInstr ir ∧ (funct3 ir = Csr.csrrw ∨ funct3 ir = Csr.csrrwi ∨ rs1 ir ≠ 0#5)

instance : DecidablePred csrWrites := fun _ => inferInstanceAs (Decidable (_ ∧ _))

/-- ITCSR writes at once only for csrrw. -/
theorem csrAction_write {rdIsX0 rs1IsX0 : Bool} {f : BitVec 3}
    (h : csrAction rdIsX0 rs1IsX0 f = .write) : f = Csr.csrrw := by
  revert h
  cases rdIsX0 <;> cases rs1IsX0 <;> revert f <;> decide

/-- Where the instruction set has no write, the matrices write back what they have read. -/
theorem CsrRegs.write_csrLdData (r : CsrRegs) {ir : Word} (h : isCSRInstr ir) (hw : ¬ csrWrites ir)
    (ha : csrAction (dstRg ir == 0#5) (rs1 ir == 0#5) (funct3 ir) = .transfer) (rsa : Word) :
    r.write (funct12 ir) (csrLdData ir rsa (csrDataRead r (funct12 ir) ir rsa)) = r := by
  obtain ⟨hrw, hrwi, hrs1⟩ :
      funct3 ir ≠ Csr.csrrw ∧ funct3 ir ≠ Csr.csrrwi ∧ rs1 ir = 0#5 := by
    simpa [csrWrites, h] using hw
  have hread : csrDataRead r (funct12 ir) ir rsa = r.read (funct12 ir) := by
    simp [csrDataRead, h, hrw]
  have hcases : ∀ (a : Bool) (f : BitVec 3), f ≠ Csr.csrrw → f ≠ Csr.csrrwi →
      csrAction a true f = .transfer → f = Csr.csrrsi ∨ f = Csr.csrrci := by decide
  have himm : csrImmediate ir = 0 := by
    rw [csrImmediate, show ir.extractLsb' 15 5 = 0#5 from hrs1]
    rfl
  have hdata : csrLdData ir rsa (r.read (funct12 ir)) = r.read (funct12 ir) := by
    rw [hrs1] at ha
    rcases hcases _ _ hrw hrwi ha with hf | hf
    · simp [csrLdData, algoData, h, hf, himm]
    · simp [csrLdData, algoData, h, hf, himm]
      exact BitVec.allOnes_and
  rw [hread, hdata, CsrRegs.write_read]

/-- The first state of a SYSTEM instruction. -/
def csrSystem (ir : Word) : InstructionState :=
  if isCSRInstr ir then .itCsr
  else if funct12 ir = 0x001#12 then .itEbreak
  else if funct12 ir = 0x000#12 then .itECall
  else if funct12 ir = 0x302#12 then .itMret
  else .itLoad

/-- Decode chooses ITCSR for the CSR instructions alone, and never ITCSRLd. -/
theorem decodeNext_csr (ir : Word) :
    (decodeNext (csrSystem ir) ir = .itCsr → isCSRInstr ir) ∧
      decodeNext (csrSystem ir) ir ≠ .itCsrLd := by
  unfold decodeNext
  cases irOpcode ir with
  | iTypeE =>
    unfold csrSystem
    by_cases hcsr : isCSRInstr ir
    · simp only [hcsr, if_true]
      exact ⟨fun _ => trivial, InstructionState.noConfusion⟩
    · dsimp only
      rw [if_neg hcsr]
      split_ifs <;> simp
  | _ => exact ⟨InstructionState.noConfusion, InstructionState.noConfusion⟩

/-! ## Interrupt flags -/

@[ext] structure IrqRegs where
  irqTriggered : Bool
  irqResetTrigger : Bool
  interruptInProgress : Bool
  deriving DecidableEq, Repr

namespace IrqRegs

/-- The interrupt domain at a falling edge of `irq_i`. -/
def fall (r : IrqRegs) : IrqRegs := { r with irqTriggered := !r.irqResetTrigger }

/-- The clock loads `irq_reset_trigger`; its rising edge clears `irq_triggered` in the
interrupt domain. -/
def clock (r : IrqRegs) (resetTrigger inProgress : Bool) : IrqRegs where
  irqTriggered := if resetTrigger && !r.irqResetTrigger then false else r.irqTriggered
  irqResetTrigger := resetTrigger
  interruptInProgress := inProgress

@[simp] theorem clock_self (r : IrqRegs) :
    r.clock r.irqResetTrigger r.interruptInProgress = r := by
  simp [clock]

end IrqRegs

/-! ## The matrix around them -/

@[ext] structure CsrMatrix where
  seq : SeqState
  csrs : CsrRegs
  irq : IrqRegs
  deriving DecidableEq, Repr

/-- The outputs of a combinational block that also drives the CSRs. -/
structure CsrOutputs extends Outputs where
  writeCSR : Bool
  csrAddr : BitVec 12
  csrData : Word
  irqPending : Bool

/-- Outputs that leave the CSRs alone. -/
def Outputs.noCsr (o : Outputs) (addr : BitVec 12) (data : Word) : CsrOutputs :=
  { o with writeCSR := false, csrAddr := addr, csrData := data, irqPending := false }

/-- The CSR write of the sequence control. -/
def CsrRegs.clock (o : CsrOutputs) (r : CsrRegs) : CsrRegs :=
  if o.writeCSR then r.write o.csrAddr o.csrData else r

end RangerRisc
