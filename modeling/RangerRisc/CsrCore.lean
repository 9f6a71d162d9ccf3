import RangerRisc.Refinement

/-! `modules/RangerRiscCSRs.sv` edge by edge: one equation for every state, from which
everything about this processor is proved. -/

namespace RangerRisc

open Clocked BitField

/-- What `pcSrcRDCSR` selects is the `rd_data` of the matrix. -/
def Wiring.SelectsRdCSR (w : Wiring) : Prop :=
  ∀ a b data storage, w.pcMux pcSrcRDCSR a b data storage = data

namespace ControlMatrixCSRs

@[simp] theorem accepts_sample (i : Input) (m : CsrMatrix) : accepts (m.sample i) = accepts m := by
  simp [accepts]

@[simp] theorem csrData_sample (i : Input) (m : CsrMatrix) (ir rsa : Word) :
    csrData (m.sample i) ir rsa = csrData m ir rsa := by
  simp [csrData]

theorem execute_shared {m : CsrMatrix} (hs : shared m.seq.irState) (ir : Word) (flags : BitVec 4)
    (rsa pc : Word) :
    execute m ir flags rsa pc =
      let c := executeControl m.seq.irState ir (takeBranch flags (funct3 ir))
      match executeNext m.seq.irState ir with
      | .next s' => quiet m ir rsa (executeOut c s')
      | .done => quiet m ir rsa (executeOut c .preFetch) := by
  unfold execute
  cases h : m.seq.irState <;> first | rfl | exact absurd hs (by rw [h]; decide)

/-- The instruction states that no instruction starts in or leads to. -/
def stray : InstructionState → Bool
  | .stMemRrd | .btCmpl | .utCmpl | .utAuiCmpl | .irUnknown => true
  | _ => false

theorem execute_stray {m : CsrMatrix} (hs : stray m.seq.irState) (ir : Word) (flags : BitVec 4)
    (rsa pc : Word) :
    execute m ir flags rsa pc = quiet m ir rsa (executeOut Control.idle .itLoad) := by
  unfold execute
  cases h : m.seq.irState <;> first | rfl | exact absurd hs (by rw [h]; decide)

/-- The matrix after an edge on which it only moves on: an interrupt may get pending. -/
def moved (m : CsrMatrix) (state : MatrixState) (irState : InstructionState) : CsrMatrix where
  seq := { m.seq with state := state, irState := irState }
  csrs := if m.irq.irqTriggered && !m.irq.interruptInProgress then m.csrs.setMip true else m.csrs
  irq := m.irq

/-- The states whose edge changes no interrupt flag. -/
def plain (q : SeqState) : Bool :=
  match q.state, q.irState with
  | .fetch, _ | .decode, _ => true
  | .execute, .preFetch | .execute, .itMretClr | .execute, .irq0 | .execute, .irq1 => false
  | .execute, _ => true
  | _, _ => false

section Plain
variable {m : CsrMatrix}

theorem plain_shared {q : SeqState} (hs : q.state = .execute) (hsh : shared q.irState) :
    plain q := by
  unfold plain
  rw [hs]
  cases h : q.irState <;> first | rfl | exact absurd hsh (by rw [h]; decide)

theorem plain_stray {q : SeqState} (hs : q.state = .execute) (hp : stray q.irState) : plain q := by
  unfold plain
  rw [hs]
  cases h : q.irState <;> first | rfl | exact absurd hp (by rw [h]; decide)

theorem resetTrigger_plain (h : plain m.seq) : resetTrigger m = m.irq.irqResetTrigger := by
  unfold plain at h
  unfold resetTrigger
  split at h <;> simp_all

theorem inProgress_plain (h : plain m.seq) (o : CsrOutputs) :
    inProgress m o = m.irq.interruptInProgress := by
  unfold plain at h
  unfold inProgress
  split at h <;> simp_all

theorem clearsMip_plain (h : plain m.seq) : clearsMip m = false := by
  unfold plain at h
  unfold clearsMip
  split at h <;> simp_all

end Plain

section Step
variable {w : Wiring} {i : Input} {s : CsrCore}

/-- The outputs in force at the edge. -/
abbrev outputs (i : Input) (s : CsrCore) : CsrOutputs :=
  comb (s.matrix.sample i) s.dp.ir s.dp.aluFlags s.dp.rsa s.dp.pc i.resetI

/-- The defaults of the CSR signals around `o`. -/
abbrev quietly (i : Input) (s : CsrCore) (o : Outputs) : CsrOutputs :=
  quiet (s.matrix.sample i) s.dp.ir s.dp.rsa o

theorem step_eq {o : CsrOutputs} (ho : outputs i s = o) :
    stepCSRs w i s =
      { matrix := clock o i.resetI (s.matrix.sample i), dp := s.dp.clock w o.control } := by
  rw [← ho]
  rfl

/-- An edge in a plain state that writes no CSR. -/
theorem step_plain {o : Outputs} (hi : i.resetI = true) (hp : plain s.seq)
    (ho : outputs i s = quietly i s o) (hc : o.resetComplete = true) :
    stepCSRs w i s =
      { matrix := moved (s.matrix.sample i) o.nextState o.nextIrState
        dp := s.dp.clock w o.control } := by
  have hp' : plain (s.matrix.sample i).seq := by simpa using hp
  rw [step_eq ho]
  simp only [clock, resetTrigger_plain hp', inProgress_plain hp', clearsMip_plain hp', latchMip,
    IrqRegs.clock_self]
  simp [moved, SeqState.clock, hc, hi, CsrRegs.clock, quiet, Outputs.noCsr]

theorem step_fetch (hi : i.resetI = true) (hs : s.seq.state = .fetch) :
    stepCSRs w i s =
      { matrix := moved (s.matrix.sample i) .decode .itLoad
        dp := s.dp.clock w fetchControl } :=
  step_plain (o := fetchOut memNotBusy) hi (by simp [plain, hs]) (by simp [comb, hs]) rfl

theorem step_decode (hi : i.resetI = true) (hs : s.seq.state = .decode) :
    stepCSRs w i s =
      { matrix := moved (s.matrix.sample i) .execute (decodeNext (csrSystem s.dp.ir) s.dp.ir)
        dp := s.dp.clock w decodeControl } :=
  step_plain (o := decodeOut _ _) hi (by simp [plain, hs]) (by simp [comb, hs]) rfl

/-! Execute -/

theorem step_next {s' : InstructionState} (hi : i.resetI = true) (hs : s.seq.state = .execute)
    (hsh : shared s.seq.irState) (hn : executeNext s.seq.irState s.dp.ir = .next s') :
    stepCSRs w i s =
      { matrix := moved (s.matrix.sample i) .execute s'
        dp := s.dp.exec w s.seq.irState } := by
  have ho : outputs i s = quietly i s (executeOut (executeControl s.seq.irState s.dp.ir
      (takeBranch s.dp.aluFlags (funct3 s.dp.ir))) s') := by
    have hx := execute_shared (m := s.matrix.sample i) (by simpa using hsh) s.dp.ir s.dp.aluFlags
      s.dp.rsa s.dp.pc
    simp only [CsrMatrix.sample_seq, hn] at hx
    simp [comb, hs, hx]
  exact step_plain hi (plain_shared hs hsh) ho rfl

theorem step_done (hi : i.resetI = true) (hs : s.seq.state = .execute)
    (hsh : shared s.seq.irState) (hn : executeNext s.seq.irState s.dp.ir = .done) :
    stepCSRs w i s =
      { matrix := moved (s.matrix.sample i) .execute .preFetch
        dp := s.dp.exec w s.seq.irState } := by
  have ho : outputs i s = quietly i s (executeOut (executeControl s.seq.irState s.dp.ir
      (takeBranch s.dp.aluFlags (funct3 s.dp.ir))) .preFetch) := by
    have hx := execute_shared (m := s.matrix.sample i) (by simpa using hsh) s.dp.ir s.dp.aluFlags
      s.dp.rsa s.dp.pc
    simp only [CsrMatrix.sample_seq, hn] at hx
    simp [comb, hs, hx]
  exact step_plain hi (plain_shared hs hsh) ho rfl

/-! Interrupt entry -/

/-- PreFetch takes no interrupt and reads the next instruction. -/
theorem step_preFetch (hi : i.resetI = true) (hs : s.seq.state = .execute)
    (hp : s.seq.irState = .preFetch) (ha : accepts s.matrix = false) :
    stepCSRs w i s =
      { matrix := moved (s.matrix.sample i) .fetch .itLoad
        dp := s.dp.clock w preFetchControl } := by
  have ho : outputs i s =
      { quietly i s (leaveOut preFetchControl .fetch) with irqPending := s.csrs.irqPending } := by
    simp [comb, hs, execute, hp, preFetch, ha]
  have hnot : (s.matrix.csrs.irqPending && !s.matrix.irq.interruptInProgress) = false := ha
  rw [step_eq ho]
  congr 1
  ext1
  · simp [clock, moved, hi, SeqState.clock, quiet, Outputs.noCsr, leaveOut, Outputs.init]
  · simp [clock, moved, CsrRegs.clock, quiet, Outputs.noCsr, latchMip, clearsMip, hp]
  · ext1 <;> simp [clock, moved, resetTrigger, inProgress, hs, hp, hnot, IrqRegs.clock]

/-- The matrix after an edge in Execute that also writes a CSR or changes an interrupt flag. -/
def movedWith (m : CsrMatrix) (irState : InstructionState) (r : CsrRegs) (q : IrqRegs) :
    CsrMatrix where
  seq := { m.seq with state := .execute, irState := irState }
  csrs := if m.irq.irqTriggered && !m.irq.interruptInProgress then r.setMip true else r
  irq := q

theorem step_accept (hi : i.resetI = true) (hs : s.seq.state = .execute)
    (hp : s.seq.irState = .preFetch) (ha : accepts s.matrix = true) :
    stepCSRs w i s =
      { matrix := movedWith (s.matrix.sample i) .irq0
          { s.csrs with mstatus := trapStatus s.csrs.mstatus }
          { (s.matrix.sample i).irq with interruptInProgress := true }
        dp := s.dp.clock w Control.idle } := by
  have ho : outputs i s =
      { quietly i s (executeOut Control.idle .irq0) with
        irqPending := s.csrs.irqPending
        writeCSR := true
        csrAddr := Csr.mstatus
        csrData := trapStatus s.csrs.mstatus } := by
    simp [comb, hs, execute, hp, preFetch, ha]
  have hyes : (s.matrix.csrs.irqPending && !s.matrix.irq.interruptInProgress) = true := ha
  rw [step_eq ho]
  congr 1
  ext1
  · simp [clock, movedWith, hi, SeqState.clock, quiet, Outputs.noCsr, executeOut, Outputs.init]
  · simp [clock, movedWith, CsrRegs.clock, CsrRegs.write, quiet, Outputs.noCsr, latchMip,
      clearsMip, hp]
  · ext1 <;> simp [clock, movedWith, resetTrigger, inProgress, hs, hp, hyes, IrqRegs.clock]

theorem step_irq0 (hi : i.resetI = true) (hs : s.seq.state = .execute)
    (hp : s.seq.irState = .irq0) :
    stepCSRs w i s =
      { matrix := movedWith (s.matrix.sample i) .irq1 { s.csrs with mepc := s.dp.pc }
          ((s.matrix.sample i).irq.clock true s.irq.interruptInProgress)
        dp := s.dp.clock w Control.idle } := by
  have ho : outputs i s =
      { quietly i s (executeOut Control.idle .irq1) with
        writeCSR := true
        csrAddr := Csr.mepc
        csrData := s.dp.pc } := by
    simp [comb, hs, execute, hp]
  rw [step_eq ho]
  congr 1
  ext1
  · simp [clock, movedWith, hi, SeqState.clock, quiet, Outputs.noCsr, executeOut, Outputs.init]
  · simp [clock, movedWith, CsrRegs.clock, CsrRegs.write, quiet, Outputs.noCsr, latchMip,
      clearsMip, hp]
  · simp [clock, movedWith, resetTrigger, inProgress, hs, hp]

/-- `pc_src` selects `rd_data`, which is `data`. -/
def jumpControl (data : Word) : Control :=
  { Control.idle with rdData := data, pcSrc := pcSrcRDCSR, pcLd := rgLdEnabled }

theorem clock_jump (hw : w.SelectsRdCSR) (d : Datapath) (data : Word) :
    (d.clock w (jumpControl data)).pc = data :=
  hw _ _ _ _

theorem step_irq1 (hi : i.resetI = true) (hs : s.seq.state = .execute)
    (hp : s.seq.irState = .irq1) :
    stepCSRs w i s =
      { matrix := movedWith (s.matrix.sample i) .irq2 s.csrs
          ((s.matrix.sample i).irq.clock false s.irq.interruptInProgress)
        dp := s.dp.clock w (jumpControl s.csrs.mtvec) } := by
  have ho : outputs i s = quietly i s (executeOut (jumpControl s.csrs.mtvec) .irq2) := by
    simp [comb, hs, execute, hp, jumpControl]
  rw [step_eq ho]
  congr 1
  ext1
  · simp [clock, movedWith, hi, SeqState.clock, quiet, Outputs.noCsr, executeOut, Outputs.init]
  · simp [clock, movedWith, CsrRegs.clock, quiet, Outputs.noCsr, latchMip, clearsMip, hp]
  · simp [clock, movedWith, resetTrigger, inProgress, hs, hp]

theorem step_irq2 (hi : i.resetI = true) (hs : s.seq.state = .execute)
    (hp : s.seq.irState = .irq2) :
    stepCSRs w i s =
      { matrix := moved (s.matrix.sample i) .fetch .itLoad
        dp := s.dp.clock w preFetchControl } :=
  step_plain (o := leaveOut preFetchControl .fetch) hi (by simp [plain, hs, hp])
    (by simp [comb, hs, execute, hp]) rfl

/-! What an interrupt that gets pending leaves alone. -/

section Moved
variable {m : CsrMatrix} {state : MatrixState} {irState : InstructionState}
    {r : CsrRegs} {q : IrqRegs}

@[simp] theorem moved_mstatus : (moved m state irState).csrs.mstatus = m.csrs.mstatus := by
  unfold moved
  split <;> rfl

@[simp] theorem moved_mepc : (moved m state irState).csrs.mepc = m.csrs.mepc := by
  unfold moved
  split <;> rfl

@[simp] theorem movedWith_mstatus : (movedWith m irState r q).csrs.mstatus = r.mstatus := by
  unfold movedWith
  split <;> rfl

@[simp] theorem movedWith_mepc : (movedWith m irState r q).csrs.mepc = r.mepc := by
  unfold movedWith
  split <;> rfl

@[simp] theorem movedWith_mtvec : (movedWith m irState r q).csrs.mtvec = r.mtvec := by
  unfold movedWith
  split <;> rfl

end Moved

/-! Return from a trap -/

theorem step_itMret (hi : i.resetI = true) (hs : s.seq.state = .execute)
    (hp : s.seq.irState = .itMret) :
    stepCSRs w i s =
      { matrix := moved (s.matrix.sample i) .execute .itMretClr
        dp := s.dp.clock w (jumpControl (mretPc s.csrs.mepc)) } :=
  step_plain (o := executeOut _ .itMretClr) hi (by simp [plain, hs, hp])
    (by simp [comb, hs, execute, hp]) rfl

/-- ITMretClr clears MEIP, but an interrupt that is latched while none is in progress
wins over that. -/
theorem step_itMretClr (hi : i.resetI = true) (hs : s.seq.state = .execute)
    (hp : s.seq.irState = .itMretClr) :
    stepCSRs w i s =
      { matrix := movedWith (s.matrix.sample i) .preFetch
          (CsrRegs.setMip { s.csrs with mstatus := mretStatus s.csrs.mstatus } false)
          { (s.matrix.sample i).irq with interruptInProgress := false }
        dp := s.dp.clock w Control.idle } := by
  have ho : outputs i s =
      { quietly i s (executeOut Control.idle .preFetch) with
        writeCSR := true
        csrAddr := Csr.mstatus
        csrData := mretStatus s.csrs.mstatus } := by
    simp [comb, hs, execute, hp]
  rw [step_eq ho]
  congr 1
  ext1
  · simp [clock, movedWith, hi, SeqState.clock, quiet, Outputs.noCsr, executeOut, Outputs.init]
  · simp [clock, movedWith, CsrRegs.clock, CsrRegs.write, quiet, Outputs.noCsr, latchMip,
      clearsMip, hp, hs]
  · ext1 <;> simp [clock, movedWith, resetTrigger, inProgress, hs, hp, IrqRegs.clock]

/-! CSR instructions -/

/-- ITCSR writes the CSR without reading it. -/
theorem step_itCsr_write (hi : i.resetI = true) (hs : s.seq.state = .execute)
    (hp : s.seq.irState = .itCsr) (ha : action s.dp.ir = .write) :
    stepCSRs w i s =
      { matrix := movedWith (s.matrix.sample i) .preFetch
          (s.csrs.write (funct12 s.dp.ir) (csrData s.matrix s.dp.ir s.dp.rsa))
          (s.matrix.sample i).irq
        dp := s.dp.clock w csrControl } := by
  have ho : outputs i s =
      { quietly i s (executeOut csrControl .preFetch) with writeCSR := true } := by
    simp [comb, hs, execute, hp, itCsr, ha]
  rw [step_eq ho]
  congr 1
  ext1
  · simp [clock, movedWith, hi, SeqState.clock, quiet, Outputs.noCsr, executeOut, Outputs.init]
  · simp [clock, movedWith, CsrRegs.clock, quiet, Outputs.noCsr, latchMip, clearsMip, hp]
  · ext1 <;> simp [clock, movedWith, resetTrigger, inProgress, hs, hp, IrqRegs.clock]

theorem step_itCsr_skip (hi : i.resetI = true) (hs : s.seq.state = .execute)
    (hp : s.seq.irState = .itCsr) (ha : action s.dp.ir = .skip) :
    stepCSRs w i s =
      { matrix := moved (s.matrix.sample i) .execute .preFetch
        dp := s.dp.clock w csrControl } :=
  step_plain (o := executeOut csrControl .preFetch) hi (by simp [plain, hs, hp])
    (by simp [comb, hs, execute, hp, itCsr, ha]) rfl

/-- The signals with which ITCSR hands `data` to the register file. -/
def transferControl (data : Word) : Control :=
  { csrControl with rdData := data, wdSrc := wdSrcCSR, rgWr := rwActive }

theorem step_itCsr_transfer (hi : i.resetI = true) (hs : s.seq.state = .execute)
    (hp : s.seq.irState = .itCsr) (ha : action s.dp.ir = .transfer) :
    stepCSRs w i s =
      { matrix := moved (s.matrix.sample i) .execute .itCsrLd
        dp := s.dp.clock w (transferControl (csrData s.matrix s.dp.ir s.dp.rsa)) } :=
  step_plain (o := executeOut (transferControl _) .itCsrLd) hi (by simp [plain, hs, hp])
    (by simp [comb, hs, execute, hp, itCsr, ha, transferControl]) rfl

/-- With funct3 = 100 ITCSR leaves for Fetch without a read of the memory. -/
theorem step_itCsr_unknown (hi : i.resetI = true) (hs : s.seq.state = .execute)
    (hp : s.seq.irState = .itCsr) (ha : action s.dp.ir = .unknown) :
    stepCSRs w i s =
      { matrix := moved (s.matrix.sample i) .fetch .itLoad
        dp := s.dp.clock w csrControl } :=
  step_plain (o := leaveOut csrControl .fetch) hi (by simp [plain, hs, hp])
    (by simp [comb, hs, execute, hp, itCsr, ha]) rfl

theorem step_itCsrLd (hi : i.resetI = true) (hs : s.seq.state = .execute)
    (hp : s.seq.irState = .itCsrLd) :
    stepCSRs w i s =
      { matrix := movedWith (s.matrix.sample i) .preFetch
          (s.csrs.write (funct12 s.dp.ir)
            (csrLdData s.dp.ir s.dp.rsa (csrData s.matrix s.dp.ir s.dp.rsa)))
          (s.matrix.sample i).irq
        dp := s.dp.clock w csrControl } := by
  have ho : outputs i s =
      { quietly i s (executeOut csrControl .preFetch) with
        writeCSR := true
        csrData := csrLdData s.dp.ir s.dp.rsa (csrData s.matrix s.dp.ir s.dp.rsa) } := by
    simp [comb, hs, execute, hp]
  rw [step_eq ho]
  congr 1
  ext1
  · simp [clock, movedWith, hi, SeqState.clock, quiet, Outputs.noCsr, executeOut, Outputs.init]
  · simp [clock, movedWith, CsrRegs.clock, quiet, Outputs.noCsr, latchMip, clearsMip, hp]
  · ext1 <;> simp [clock, movedWith, resetTrigger, inProgress, hs, hp, IrqRegs.clock]

/-! The states that wait, and those that no instruction starts in. -/

theorem step_wait (hi : i.resetI = true) (hs : s.seq.state = .execute)
    (hp : s.seq.irState = .itEbreak ∨ s.seq.irState = .itECall) :
    stepCSRs w i s =
      { matrix := moved (s.matrix.sample i) .execute s.seq.irState
        dp := s.dp.clock w Control.idle } := by
  apply step_plain (o := executeOut Control.idle s.seq.irState) hi
  · rcases hp with hp | hp <;> simp [plain, hs, hp]
  · rcases hp with hp | hp <;> simp [comb, hs, execute, hp]
  · rfl

theorem step_stray (hi : i.resetI = true) (hs : s.seq.state = .execute)
    (hp : stray s.seq.irState) :
    stepCSRs w i s =
      { matrix := moved (s.matrix.sample i) .execute .itLoad
        dp := s.dp.clock w Control.idle } := by
  have hx := execute_stray (m := s.matrix.sample i) (by simpa using hp) s.dp.ir s.dp.aluFlags
    s.dp.rsa s.dp.pc
  exact step_plain (o := executeOut Control.idle .itLoad) hi (plain_stray hs hp)
    (by simp [comb, hs, hx]) rfl

/-! ## All edges in Execute -/

/-- What an edge in Execute does, with reset inactive. -/
inductive ExecuteEdge (w : Wiring) (i : Input) (s : CsrCore) : Prop where
  | next (s' : InstructionState) (hsh : shared s.seq.irState)
      (hn : executeNext s.seq.irState s.dp.ir = .next s')
      (h : stepCSRs w i s =
        { matrix := moved (s.matrix.sample i) .execute s', dp := s.dp.exec w s.seq.irState })
  | done (hsh : shared s.seq.irState) (hn : executeNext s.seq.irState s.dp.ir = .done)
      (h : stepCSRs w i s =
        { matrix := moved (s.matrix.sample i) .execute .preFetch
          dp := s.dp.exec w s.seq.irState })
  | preFetch (hp : s.seq.irState = .preFetch) (ha : accepts s.matrix = false)
      (h : stepCSRs w i s =
        { matrix := moved (s.matrix.sample i) .fetch .itLoad, dp := s.dp.clock w preFetchControl })
  | accept (hp : s.seq.irState = .preFetch) (ha : accepts s.matrix = true)
      (h : stepCSRs w i s =
        { matrix := movedWith (s.matrix.sample i) .irq0
            { s.csrs with mstatus := trapStatus s.csrs.mstatus }
            { (s.matrix.sample i).irq with interruptInProgress := true }
          dp := s.dp.clock w Control.idle })
  | irq0 (hp : s.seq.irState = .irq0)
      (h : stepCSRs w i s =
        { matrix := movedWith (s.matrix.sample i) .irq1 { s.csrs with mepc := s.dp.pc }
            ((s.matrix.sample i).irq.clock true s.irq.interruptInProgress)
          dp := s.dp.clock w Control.idle })
  | irq1 (hp : s.seq.irState = .irq1)
      (h : stepCSRs w i s =
        { matrix := movedWith (s.matrix.sample i) .irq2 s.csrs
            ((s.matrix.sample i).irq.clock false s.irq.interruptInProgress)
          dp := s.dp.clock w (jumpControl s.csrs.mtvec) })
  | irq2 (hp : s.seq.irState = .irq2)
      (h : stepCSRs w i s =
        { matrix := moved (s.matrix.sample i) .fetch .itLoad, dp := s.dp.clock w preFetchControl })
  | itMret (hp : s.seq.irState = .itMret)
      (h : stepCSRs w i s =
        { matrix := moved (s.matrix.sample i) .execute .itMretClr
          dp := s.dp.clock w (jumpControl (mretPc s.csrs.mepc)) })
  | itMretClr (hp : s.seq.irState = .itMretClr)
      (h : stepCSRs w i s =
        { matrix := movedWith (s.matrix.sample i) .preFetch
            (CsrRegs.setMip { s.csrs with mstatus := mretStatus s.csrs.mstatus } false)
            { (s.matrix.sample i).irq with interruptInProgress := false }
          dp := s.dp.clock w Control.idle })
  | csrWrite (hp : s.seq.irState = .itCsr) (ha : action s.dp.ir = .write)
      (h : stepCSRs w i s =
        { matrix := movedWith (s.matrix.sample i) .preFetch
            (s.csrs.write (funct12 s.dp.ir) (csrData s.matrix s.dp.ir s.dp.rsa))
            (s.matrix.sample i).irq
          dp := s.dp.clock w csrControl })
  | csrSkip (hp : s.seq.irState = .itCsr) (ha : action s.dp.ir = .skip)
      (h : stepCSRs w i s =
        { matrix := moved (s.matrix.sample i) .execute .preFetch, dp := s.dp.clock w csrControl })
  | transfer (hp : s.seq.irState = .itCsr) (ha : action s.dp.ir = .transfer)
      (h : stepCSRs w i s =
        { matrix := moved (s.matrix.sample i) .execute .itCsrLd
          dp := s.dp.clock w (transferControl (csrData s.matrix s.dp.ir s.dp.rsa)) })
  | csrLd (hp : s.seq.irState = .itCsrLd)
      (h : stepCSRs w i s =
        { matrix := movedWith (s.matrix.sample i) .preFetch
            (s.csrs.write (funct12 s.dp.ir)
              (csrLdData s.dp.ir s.dp.rsa (csrData s.matrix s.dp.ir s.dp.rsa)))
            (s.matrix.sample i).irq
          dp := s.dp.clock w csrControl })
  | unknown (hp : s.seq.irState = .itCsr) (ha : action s.dp.ir = .unknown)
      (h : stepCSRs w i s =
        { matrix := moved (s.matrix.sample i) .fetch .itLoad, dp := s.dp.clock w csrControl })
  /-- EBREAK and ECALL wait, a stray state goes to ITLoad. -/
  | idle (s' : InstructionState)
      (hp : s' = .itLoad ∨ (s' = .itEbreak ∨ s' = .itECall) ∧ s' = s.seq.irState)
      (h : stepCSRs w i s =
        { matrix := moved (s.matrix.sample i) .execute s', dp := s.dp.clock w Control.idle })

theorem executeEdge (hi : i.resetI = true) (hs : s.seq.state = .execute) :
    ExecuteEdge w i s := by
  have hshared : shared s.seq.irState → ExecuteEdge w i s := by
    intro hsh
    cases hn : executeNext s.seq.irState s.dp.ir with
    | next s' => exact .next s' hsh hn (step_next hi hs hsh hn)
    | done => exact .done hsh hn (step_done hi hs hsh hn)
  have hstray : stray s.seq.irState → ExecuteEdge w i s := fun hp =>
    .idle .itLoad (.inl rfl) (step_stray hi hs hp)
  cases hp : s.seq.irState with
  | preFetch =>
    cases ha : accepts s.matrix with
    | false => exact .preFetch hp ha (step_preFetch hi hs hp ha)
    | true => exact .accept hp ha (step_accept hi hs hp ha)
  | irq0 => exact .irq0 hp (step_irq0 hi hs hp)
  | irq1 => exact .irq1 hp (step_irq1 hi hs hp)
  | irq2 => exact .irq2 hp (step_irq2 hi hs hp)
  | itMret => exact .itMret hp (step_itMret hi hs hp)
  | itMretClr => exact .itMretClr hp (step_itMretClr hi hs hp)
  | itCsr =>
    cases ha : action s.dp.ir with
    | write => exact .csrWrite hp ha (step_itCsr_write hi hs hp ha)
    | skip => exact .csrSkip hp ha (step_itCsr_skip hi hs hp ha)
    | transfer => exact .transfer hp ha (step_itCsr_transfer hi hs hp ha)
    | unknown => exact .unknown hp ha (step_itCsr_unknown hi hs hp ha)
  | itCsrLd => exact .csrLd hp (step_itCsrLd hi hs hp)
  | itEbreak => exact .idle .itEbreak (.inr ⟨.inl rfl, hp.symm⟩) (hp ▸ step_wait hi hs (.inl hp))
  | itECall => exact .idle .itECall (.inr ⟨.inr rfl, hp.symm⟩) (hp ▸ step_wait hi hs (.inr hp))
  | stMemRrd | btCmpl | utCmpl | utAuiCmpl | irUnknown => exact hstray (by rw [hp]; rfl)
  | _ => exact hshared (by rw [hp]; rfl)

end Step

/-! ## Among the four processors -/

theorem moved_disabled {m : CsrMatrix} (h : m.csrs.disabled) (state : MatrixState)
    (irState : InstructionState) : (moved m state irState).csrs.disabled := by
  unfold moved
  split
  · exact (CsrRegs.disabled_setMip true).mpr h
  · exact h

theorem accepts_disabled {m : CsrMatrix} (h : m.csrs.disabled) : accepts m = false := by
  rw [accepts, CsrRegs.irqPending_disabled h, Bool.false_and]

theorem sequences (w : Wiring) : (Core.ofCsr (stepCSRs w)).Sequences w where
  fetch i s hi hs := by
    have h := step_fetch (w := w) hi hs
    refine ⟨⟨addOp, 0, ?_⟩, ?_, ?_⟩
    · simp only [Core.ofCsr, h]
      rfl
    · simp only [Core.ofCsr, h, moved]
    · simp only [Core.ofCsr, h, moved]
  decode i s hi hs hsys := by
    have h := step_decode (w := w) hi hs.1
    refine ⟨?_, ?_, ?_⟩
    · simp only [Core.ofCsr, h]
    · simp only [Core.ofCsr, h, moved]
    · simp only [Core.ofCsr, h, moved]
      exact decodeNext_eq hsys _ _
  execute i s s' hi hs hnext := by
    have h := step_next (w := w) hi hs.1 hs.2 hnext
    refine ⟨?_, ?_, ?_⟩ <;> simp only [Core.ofCsr, h, moved]

theorem returns (w : Wiring) : (Core.ofCsr (stepCSRs w)).Returns w where
  disabled i s hi hs hdis := by
    have hdis' : (s.matrix.sample i).csrs.disabled := by
      rw [CsrMatrix.sample_csrs]
      exact hdis
    change (stepCSRs w i s).matrix.csrs.disabled
    rcases hs with hs | hs | ⟨hs, hsh⟩
    · rw [step_fetch hi hs]
      exact moved_disabled hdis' _ _
    · rw [step_decode hi hs.1]
      exact moved_disabled hdis' _ _
    · cases hn : executeNext s.seq.irState s.dp.ir with
      | next s' =>
        rw [step_next hi hs hsh hn]
        exact moved_disabled hdis' _ _
      | done =>
        rw [step_done hi hs hsh hn]
        exact moved_disabled hdis' _ _
  leave s inp hinp hin hdone hdis := by
    obtain ⟨hs, hsh⟩ := hin
    have hstep := step_done (w := w) (hinp 0) hs hsh hdone
    have hdis' : (stepCSRs w (inp 0) s).csrs.disabled := by
      rw [hstep]
      refine moved_disabled ?_ _ _
      rw [CsrMatrix.sample_csrs]
      exact hdis
    have hstep' := step_preFetch (w := w) (i := inp 1) (s := stepCSRs w (inp 0) s) (hinp 1)
      (by rw [hstep]; rfl) (by rw [hstep]; rfl) (accepts_disabled hdis')
    refine ⟨2, FirstReturn.afterEdge ?_ (FirstReturn.oneEdge ?_), ?_, ?_⟩
    · simp [Core.ofCsr, Core.AtFetch, hstep, moved]
    · simp [Core.ofCsr, Core.AtFetch, hstep', moved]
    · change Ready _ (stepCSRs w (inp 1) (stepCSRs w (inp 0) s)).dp
      rw [hstep', hstep]
      exact ready_preFetch addOp 0
    · change (stepCSRs w (inp 1) (stepCSRs w (inp 0) s)).matrix.csrs.disabled
      rw [hstep']
      refine moved_disabled ?_ _ _
      rw [CsrMatrix.sample_csrs]
      exact hdis'

end ControlMatrixCSRs

end RangerRisc
