import RangerRisc.ControlMatrixCSRs
import RangerRisc.Lib.Trace

/-! The four processors. The datapath always loads on the negative edge. In
`modules/RangerRiscCSRs.sv` the matrix does too; in the others it waits for the positive
edge, so a cycle is the datapath's edge and then the matrix's, with the combinational
block seeing the new datapath. -/

namespace RangerRisc

/-- What a cycle sees from outside. -/
structure Input where
  resetI : Bool
  /-- `irq_i` falls at least once after the previous edge of the matrix and before this one. -/
  irqFalls : Bool
  deriving DecidableEq, Repr

def CsrMatrix.sample (i : Input) (m : CsrMatrix) : CsrMatrix :=
  if i.irqFalls then { m with irq := m.irq.fall } else m

namespace CsrMatrix
variable (i : Input) (m : CsrMatrix)

theorem sample_calm {i : Input} (h : i.irqFalls = false) : m.sample i = m := by
  rw [sample, h, if_neg Bool.false_ne_true]

@[simp] theorem sample_seq : (m.sample i).seq = m.seq := by
  unfold sample
  split <;> rfl

@[simp] theorem sample_csrs : (m.sample i).csrs = m.csrs := by
  unfold sample
  split <;> rfl

@[simp] theorem sample_inProgress :
    (m.sample i).irq.interruptInProgress = m.irq.interruptInProgress := by
  unfold sample
  split <;> rfl

@[simp] theorem sample_resetTrigger :
    (m.sample i).irq.irqResetTrigger = m.irq.irqResetTrigger := by
  unfold sample
  split <;> rfl

end CsrMatrix

structure SeqCore where
  seq : SeqState
  dp : Datapath

structure CsrCore where
  matrix : CsrMatrix
  dp : Datapath

namespace CsrCore
abbrev seq (s : CsrCore) : SeqState := s.matrix.seq
abbrev csrs (s : CsrCore) : CsrRegs := s.matrix.csrs
abbrev irq (s : CsrCore) : IrqRegs := s.matrix.irq
end CsrCore

/-! ## Cycles -/

/-- A matrix on the positive edge, the datapath on the negative one. -/
def SeqCore.cycle (comb : SeqState → Bool → Word → BitVec 4 → Outputs) (w : Wiring) (i : Input)
    (s : SeqCore) : SeqCore :=
  let o := comb s.seq i.resetI s.dp.ir s.dp.aluFlags
  let dp := s.dp.clock w o.control
  let o' := comb s.seq i.resetI dp.ir dp.aluFlags
  { seq := s.seq.clock o' i.resetI, dp := dp }

/-- `modules/RangerRisc.sv` -/
def stepRangerRisc (w : Wiring) : Input → SeqCore → SeqCore := SeqCore.cycle ControlMatrix.comb w

/-- `simulation/ranger_microcode/RangerRisc.sv` -/
def stepMicrocode (w : Wiring) : Input → SeqCore → SeqCore := SeqCore.cycle MicroCodeMatrix.comb w

/-- `modules/RangerRiscCSRs.sv` -/
def stepCSRs (w : Wiring) (i : Input) (s : CsrCore) : CsrCore :=
  let m := s.matrix.sample i
  let o := ControlMatrixCSRs.comb m s.dp.ir s.dp.aluFlags s.dp.rsa s.dp.pc i.resetI
  { matrix := ControlMatrixCSRs.clock o i.resetI m, dp := s.dp.clock w o.control }

/-- `Synthesis/ranger_risc/csrs/RangerRiscProcessor.sv` -/
def stepSynthesis (w : Wiring) (i : Input) (s : CsrCore) : CsrCore :=
  let m := s.matrix.sample i
  let o := SynthesisMatrix.comb m s.dp.ir s.dp.aluFlags s.dp.rsa s.dp.pc i.resetI
  let dp := s.dp.clock w o.control
  let o' := SynthesisMatrix.comb m dp.ir dp.aluFlags dp.rsa dp.pc i.resetI
  { matrix := SynthesisMatrix.clock o' i.resetI m, dp := dp }

/-! ## A common view -/

/-- A processor, seen through its sequencer and its datapath. -/
structure Core where
  State : Type
  step : Input → State → State
  seq : State → SeqState
  dp : State → Datapath
  /-- No interrupt can be accepted before a CSR instruction changes an enable. -/
  interruptsDisabled : State → Prop

def CsrRegs.disabled (r : CsrRegs) : Prop :=
  (r.mstatus.getLsbD Csr.mstatusMIE && r.mie.getLsbD Csr.mieMEIE) = false

theorem CsrRegs.disabled_setMip {r : CsrRegs} (b : Bool) :
    (r.setMip b).disabled ↔ r.disabled := Iff.rfl

theorem CsrRegs.irqPending_disabled {r : CsrRegs} (h : r.disabled) : r.irqPending = false := by
  unfold CsrRegs.disabled at h
  simp only [CsrRegs.irqPending, h, Bool.false_and]

namespace Core

def ofSeq (step : Input → SeqCore → SeqCore) : Core where
  State := SeqCore
  step := step
  seq := SeqCore.seq
  dp := SeqCore.dp
  interruptsDisabled := fun _ => True

def ofCsr (step : Input → CsrCore → CsrCore) : Core where
  State := CsrCore
  step := step
  seq := CsrCore.seq
  dp := CsrCore.dp
  interruptsDisabled := fun s => s.csrs.disabled

end Core

/-- The processors of the repository. -/
inductive CoreName where
  | rangerRisc | rangerRiscCSRs | rangerRiscProcessor | rangerRiscMicrocode
  deriving DecidableEq, Repr

namespace CoreName

/-- `modules/RangerRisc.sv` fixes its reset vector, the others take it as a parameter. -/
def wiring (undef resetVector : Word) : CoreName → Wiring
  | rangerRisc => Wiring.rangerRisc undef
  | rangerRiscCSRs => Wiring.rangerRiscCSRs undef resetVector
  | rangerRiscProcessor | rangerRiscMicrocode => Wiring.memoryMapped undef resetVector

def core (undef resetVector : Word) (name : CoreName) : Core :=
  let w := name.wiring undef resetVector
  match name with
  | rangerRisc => Core.ofSeq (stepRangerRisc w)
  | rangerRiscCSRs => Core.ofCsr (stepCSRs w)
  | rangerRiscProcessor => Core.ofCsr (stepSynthesis w)
  | rangerRiscMicrocode => Core.ofSeq (stepMicrocode w)

end CoreName

end RangerRisc
