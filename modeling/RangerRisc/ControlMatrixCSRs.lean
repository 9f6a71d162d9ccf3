import RangerRisc.Csrs

/-! The two matrices with CSRs: `modules/ControlMatrixCSRs.sv`, where prefetch and
interrupt entry are instruction states, and `Synthesis/ranger_risc/csrs/ControlMatrix.sv`,
where they are states of the main machine. -/

namespace RangerRisc

open BitField

namespace ControlMatrixCSRs

section
variable (m : CsrMatrix) (ir : Word) (flags : BitVec 4) (rsa pc : Word)

def csrData : Word := csrDataRead m.csrs (funct12 ir) ir rsa

/-- `o` with the defaults of the CSR signals. -/
def quiet (o : Outputs) : CsrOutputs := o.noCsr (funct12 ir) (csrData m ir rsa)

/-- The control signals of ITCSR and ITCSRLd that do not hand anything over. -/
def csrControl : Control := { Control.idle with rsaLd := rgLdDisabled }

def action : CsrAction :=
  csrAction (isCSRInstr ir && dstRg ir == 0#5) (isCSRInstr ir && rs1 ir == 0#5) (funct3 ir)

/-- ITCSR -/
def itCsr : CsrOutputs :=
  match action ir with
  | .write => { quiet m ir rsa (executeOut csrControl .preFetch) with writeCSR := true }
  | .skip => quiet m ir rsa (executeOut csrControl .preFetch)
  | .transfer =>
    let c := { csrControl with
      rdData := csrData m ir rsa, wdSrc := wdSrcCSR, rgWr := rwActive }
    quiet m ir rsa (executeOut c .itCsrLd)
  | .unknown => quiet m ir rsa (leaveOut csrControl .fetch)

def accepts : Bool := m.csrs.irqPending && !m.irq.interruptInProgress

/-- PreFetch -/
def preFetch : CsrOutputs :=
  if accepts m then
    { quiet m ir rsa (executeOut Control.idle .irq0) with
      irqPending := m.csrs.irqPending
      writeCSR := true
      csrAddr := Csr.mstatus
      csrData := trapStatus m.csrs.mstatus }
  else
    { quiet m ir rsa (leaveOut preFetchControl .fetch) with irqPending := m.csrs.irqPending }

def execute : CsrOutputs :=
  match m.seq.irState with
  | .itEbreak => quiet m ir rsa (executeOut Control.idle .itEbreak)
  | .itECall => quiet m ir rsa (executeOut Control.idle .itECall)
  | .itCsr => itCsr m ir rsa
  | .itCsrLd =>
    { quiet m ir rsa (executeOut csrControl .preFetch) with
      writeCSR := true
      csrData := csrLdData ir rsa (csrData m ir rsa) }
  | .itMret =>
    let c := { Control.idle with
      rdData := mretPc m.csrs.mepc, pcSrc := pcSrcRDCSR, pcLd := rgLdEnabled }
    quiet m ir rsa (executeOut c .itMretClr)
  | .itMretClr =>
    { quiet m ir rsa (executeOut Control.idle .preFetch) with
      writeCSR := true
      csrAddr := Csr.mstatus
      csrData := mretStatus m.csrs.mstatus }
  | .preFetch => preFetch m ir rsa
  | .irq0 =>
    { quiet m ir rsa (executeOut Control.idle .irq1) with
      writeCSR := true
      csrAddr := Csr.mepc
      csrData := pc }
  | .irq1 =>
    let c := { Control.idle with
      rdData := m.csrs.mtvec, pcSrc := pcSrcRDCSR, pcLd := rgLdEnabled }
    quiet m ir rsa (executeOut c .irq2)
  | .irq2 => quiet m ir rsa (leaveOut preFetchControl .fetch)
  | s =>
    let c := executeControl s ir (takeBranch flags (funct3 ir))
    match executeNext s ir with
    | .next s' => quiet m ir rsa (executeOut c s')
    | .done => quiet m ir rsa (executeOut c .preFetch)

/-- The combinational block. -/
def comb (resetI : Bool) : CsrOutputs :=
  match m.seq.state with
  | .reset => quiet m ir rsa (resetOut .fetch m.seq.vectorState resetI)
  | .fetch => quiet m ir rsa (fetchOut memNotBusy)
  | .decode => quiet m ir rsa (decodeOut (csrSystem ir) ir)
  | .execute => execute m ir flags rsa pc
  | _ => quiet m ir rsa (Outputs.init Control.idle)

end

/-- `irq_reset_trigger` after the clock edge. -/
def resetTrigger (m : CsrMatrix) : Bool :=
  match m.seq.state, m.seq.irState with
  | .execute, .irq0 => true
  | .execute, .irq1 => false
  | _, _ => m.irq.irqResetTrigger

/-- `interrupt_in_progress` after the clock edge. -/
def inProgress (m : CsrMatrix) (o : CsrOutputs) : Bool :=
  match m.seq.state, m.seq.irState with
  | .reset, _ => false
  | .execute, .preFetch =>
    if o.irqPending && !m.irq.interruptInProgress then true else m.irq.interruptInProgress
  | .execute, .itMretClr => false
  | _, _ => m.irq.interruptInProgress

/-- Whether the state clears mip's MEIP. -/
def clearsMip (m : CsrMatrix) : Bool := m.seq.state = .execute ∧ m.seq.irState = .itMretClr

/-- mip after the assignments that follow the CSR write, the last one wins. -/
def latchMip (m : CsrMatrix) (r : CsrRegs) : CsrRegs :=
  if m.irq.irqTriggered && !m.irq.interruptInProgress then r.setMip true
  else if clearsMip m then r.setMip false
  else r

/-- The sequence control. -/
def clock (o : CsrOutputs) (resetI : Bool) (m : CsrMatrix) : CsrMatrix where
  seq := m.seq.clock o.toOutputs resetI
  csrs := latchMip m (m.csrs.clock o)
  irq := m.irq.clock (resetTrigger m) (inProgress m o)

end ControlMatrixCSRs

namespace SynthesisMatrix

section
variable (m : CsrMatrix) (ir : Word) (flags : BitVec 4) (rsa pc : Word)

def csrAddr : BitVec 12 :=
  match m.seq.irState with
  | .itMret => Csr.mstatus
  | _ =>
    match m.seq.state with
    | .preFetch => Csr.mstatus
    | .irq0 => Csr.mepc
    | _ => funct12 ir

def csrData : Word := csrDataRead m.csrs (csrAddr m ir) ir rsa

def quiet (o : Outputs) : CsrOutputs := o.noCsr (csrAddr m ir) (csrData m ir rsa)

def action : CsrAction := csrAction (dstRg ir == 0#5) (rs1 ir == 0#5) (funct3 ir)

/-- `rd_data`, given what the main block makes of `csr_data`. -/
def rdData (data : Word) : Word :=
  let entry := if m.seq.state = .irq1 then m.csrs.mtvec else 0
  match m.seq.irState with
  | .itCsr => if action ir = .transfer then data else entry
  | .itMret => mretPc m.csrs.mepc
  | _ => entry

def csrControl : Control := { Control.idle with rsaLd := rgLdDisabled }

/-- ITCSR -/
def itCsr : CsrOutputs :=
  match action ir with
  | .write => { quiet m ir rsa (leaveOut csrControl .preFetch) with writeCSR := true }
  | .skip => quiet m ir rsa (leaveOut csrControl .preFetch)
  | .transfer =>
    quiet m ir rsa (executeOut { csrControl with wdSrc := wdSrcCSR, rgWr := rwActive } .itCsrLd)
  | .unknown => quiet m ir rsa (leaveOut csrControl .fetch)

def accepts : Bool := m.csrs.irqPending && !m.irq.interruptInProgress

/-- PreFetch -/
def preFetch : CsrOutputs :=
  if accepts m then
    { quiet m ir rsa (leaveOut Control.idle .irq0) with irqPending := m.csrs.irqPending }
  else
    { quiet m ir rsa (leaveOut preFetchControl .fetch) with irqPending := m.csrs.irqPending }

def execute : CsrOutputs :=
  match m.seq.irState with
  | .itEbreak => quiet m ir rsa (leaveOut Control.idle .halt)
  | .itECall => quiet m ir rsa (executeOut Control.idle .itECall)
  | .itCsr => itCsr m ir rsa
  | .itCsrLd =>
    { quiet m ir rsa (leaveOut csrControl .preFetch) with
      writeCSR := true
      csrData := csrLdData ir rsa (csrData m ir rsa) }
  | .itMret =>
    quiet m ir rsa
      (executeOut { Control.idle with pcSrc := pcSrcRDCSR, pcLd := rgLdEnabled } .itMretClr)
  | .itMretClr => quiet m ir rsa (leaveOut Control.idle .preFetch)
  | s =>
    let c := executeControl s ir (takeBranch flags (funct3 ir))
    match executeNext s ir with
    | .next s' => quiet m ir rsa (executeOut c s')
    | .done => quiet m ir rsa (leaveOut c .preFetch)

/-- The main block. -/
def main (resetI : Bool) : CsrOutputs :=
  match m.seq.state with
  | .reset => quiet m ir rsa (resetOut .preFetch m.seq.vectorState resetI)
  | .fetch => quiet m ir rsa (fetchOut memNotBusy)
  | .decode => quiet m ir rsa (decodeOut (csrSystem ir) ir)
  | .execute => execute m ir flags rsa
  | .preFetch => preFetch m ir rsa
  | .irq0 =>
    { quiet m ir rsa (leaveOut Control.idle .irq1) with writeCSR := true, csrData := pc }
  | .irq1 =>
    quiet m ir rsa (leaveOut { Control.idle with pcSrc := pcSrcRDCSR, pcLd := rgLdEnabled } .irq2)
  | .irq2 => quiet m ir rsa (leaveOut preFetchControl .fetch)
  | .halt => quiet m ir rsa (leaveOut Control.idle .halt)

/-- The combinational blocks together: `alu_op` and `rd_data` have their own. -/
def comb (resetI : Bool) : CsrOutputs :=
  let o := main m ir flags rsa pc resetI
  { o with control :=
    { o.control with
      aluOp := MicroCodeMatrix.aluOp m.seq.irState ir
      rdData := rdData m ir o.csrData } }

end

/-- `irq_reset_trigger` after the clock edge. -/
def resetTrigger (m : CsrMatrix) : Bool :=
  match m.seq.state with
  | .reset =>
    match m.seq.vectorState with
    | .vector0 | .vector2 => false
    | .vector1 => true
    | _ => m.irq.irqResetTrigger
  | .irq0 => true
  | .irq1 => false
  | _ => m.irq.irqResetTrigger

/-- `interrupt_in_progress` after the clock edge. -/
def inProgress (m : CsrMatrix) (o : CsrOutputs) : Bool :=
  match m.seq.state with
  | .reset => if m.seq.vectorState = .vector0 then false else m.irq.interruptInProgress
  | .execute => if m.seq.irState = .itMretClr then false else m.irq.interruptInProgress
  | .preFetch =>
    if o.irqPending && !m.irq.interruptInProgress then true else m.irq.interruptInProgress
  | _ => m.irq.interruptInProgress

def inVector0 (m : CsrMatrix) : Bool := m.seq.state = .reset ∧ m.seq.vectorState = .vector0

/-- Whether the state clears mip's MEIP. -/
def clearsMip (m : CsrMatrix) : Bool := inVector0 m ∨ m.seq.state = .irq1

/-- The assignments that follow the CSR write, the last one wins. -/
def latchMip (m : CsrMatrix) (r : CsrRegs) : CsrRegs :=
  let r := if inVector0 m then { r with mie := 0 } else r
  if m.irq.irqTriggered then r.setMip true
  else if clearsMip m then r.setMip false
  else r

/-- The sequence control. -/
def clock (o : CsrOutputs) (resetI : Bool) (m : CsrMatrix) : CsrMatrix where
  seq := m.seq.clock o.toOutputs resetI
  csrs := latchMip m (m.csrs.clock o)
  irq := m.irq.clock (resetTrigger m) (inProgress m o)

end SynthesisMatrix

end RangerRisc
