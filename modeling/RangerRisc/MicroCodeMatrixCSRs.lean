import Mathlib.Data.Nat.Count
import RangerRisc.InterruptProtocol

/-! `simulation/ranger_microcode/MicroCodeMatrixCSRs.sv`, the matrix with CSRs in which PreFetch
and the interrupt entry have become states of the main machine, and what has become of the
interrupt protocol: a trap is entered as before, but its mret does not enable interrupts again. -/

namespace RangerRisc

open Clocked BitField

namespace MicroCodeMatrixCSRs

open SynthesisMatrix (csrAddr csrData quiet rdData csrControl itCsr accepts meip
  requested AtMretClr)

section
variable (m : CsrMatrix) (ir : Word) (flags : BitVec 4) (rsa pc : Word)

/-- PreFetch -/
def preFetch : CsrOutputs :=
  if accepts m then
    { quiet m ir rsa (leaveOut Control.idle .irq0) with
      irqPending := m.csrs.irqPending
      writeCSR := true
      csrData := trapStatus m.csrs.mstatus }
  else
    { quiet m ir rsa (leaveOut preFetchControl .fetch) with irqPending := m.csrs.irqPending }

def execute : CsrOutputs :=
  match m.seq.irState with
  | .itEbreak => quiet m ir rsa (leaveOut Control.idle .halt)
  | .itECall => quiet m ir rsa (executeOut Control.idle .itECall)
  | .itCsr => itCsr m ir rsa
  | .itCsrLd =>
    { quiet m ir rsa (leaveOut csrControl .preFetch) with
      writeCSR := true
      csrData := csrLdData ir rsa (csrData m ir rsa) }
  | .itMret =>
    quiet m ir rsa
      (executeOut { Control.idle with pcSrc := pcSrcRDCSR, pcLd := rgLdEnabled } .itMretClr)
  | .itMretClr =>
    -- the address is the one in the instruction, `csr_addr` knows of ITMret only
    { quiet m ir rsa (leaveOut Control.idle .preFetch) with
      writeCSR := true
      csrData := mretStatus m.csrs.mstatus }
  | s =>
    let c := executeControl s ir (takeBranch flags (funct3 ir))
    match executeNext s ir with
    | .next s' => quiet m ir rsa (executeOut c s')
    | .done => quiet m ir rsa (leaveOut c .preFetch)

/-- The main block. -/
def main (resetI : Bool) : CsrOutputs :=
  match m.seq.state with
  | .reset => quiet m ir rsa (resetOut .preFetch m.seq.vectorState resetI)
  | .fetch => quiet m ir rsa (fetchOut memNotBusy)
  | .decode => quiet m ir rsa (decodeOut (csrSystem ir) ir)
  | .execute => execute m ir flags rsa
  | .preFetch => preFetch m ir rsa
  | .irq0 =>
    { quiet m ir rsa (leaveOut Control.idle .irq1) with writeCSR := true, csrData := pc }
  | .irq1 =>
    quiet m ir rsa (leaveOut { Control.idle with pcSrc := pcSrcRDCSR, pcLd := rgLdEnabled } .irq2)
  | .irq2 => quiet m ir rsa (leaveOut preFetchControl .fetch)
  | .halt => quiet m ir rsa (leaveOut Control.idle .halt)

/-- The combinational blocks together: `alu_op` and `rd_data` have their own. -/
def comb (resetI : Bool) : CsrOutputs :=
  let o := main m ir flags rsa pc resetI
  { o with control :=
    { o.control with
      aluOp := MicroCodeMatrix.aluOp m.seq.irState ir
      rdData := rdData m ir o.csrData } }

end

/-- `irq_reset_trigger` after the clock edge. The arms for IRQ0 and IRQ1 stand inside the arm for
Execute of a `case` on the same `state`. -/
def resetTrigger (m : CsrMatrix) : Bool :=
  match m.seq.state with
  | .execute =>
    match m.seq.state with
    | .irq0 => true
    | .irq1 => false
    | _ => m.irq.irqResetTrigger
  | _ => m.irq.irqResetTrigger

/-- `interrupt_in_progress` after the clock edge; so does the arm for PreFetch. -/
def inProgress (m : CsrMatrix) (o : CsrOutputs) : Bool :=
  match m.seq.state with
  | .reset => false
  | .execute =>
    let started :=
      match m.seq.state with
      | .preFetch =>
        if o.irqPending && !m.irq.interruptInProgress then true else m.irq.interruptInProgress
      | _ => m.irq.interruptInProgress
    if m.seq.irState = .itMretClr then false else started
  | _ => m.irq.interruptInProgress

/-- Whether the state clears mip's MEIP. -/
def clearsMip (m : CsrMatrix) : Bool := m.seq.state = .execute ∧ m.seq.irState = .itMretClr

/-- The assignments that follow the CSR write, the last one wins. -/
def latchMip (m : CsrMatrix) (r : CsrRegs) : CsrRegs :=
  if m.irq.irqTriggered && !m.irq.interruptInProgress then r.setMip true
  else if clearsMip m then r.setMip false
  else r

/-- The sequence control. -/
def clock (o : CsrOutputs) (resetI : Bool) (m : CsrMatrix) : CsrMatrix where
  seq := m.seq.clock o.toOutputs resetI
  csrs := latchMip m (m.csrs.clock o)
  irq := m.irq.clock (resetTrigger m) (inProgress m o)

end MicroCodeMatrixCSRs

/-- `simulation/ranger_microcode/RangerRisc.sv` with this matrix, all on the negative edge. -/
def stepMicrocodeCSRs (w : Wiring) (i : Input) (s : CsrCore) : CsrCore :=
  let m := s.matrix.sample i
  let o := MicroCodeMatrixCSRs.comb m s.dp.ir s.dp.aluFlags s.dp.rsa s.dp.pc i.resetI
  { matrix := MicroCodeMatrixCSRs.clock o i.resetI m, dp := s.dp.clock w o.control }

namespace MicroCodeMatrixCSRs

open SynthesisMatrix (csrAddr csrData quiet rdData csrControl itCsr accepts meip
  requested AtMretClr)

/-! ## One edge -/

/-- The states of a CSR instruction and of mret have their instruction in the instruction
register. -/
structure Decoded (s : CsrCore) : Prop where
  csr : s.seq.state = .execute → s.seq.irState = .itCsr ∨ s.seq.irState = .itCsrLd →
    isCSRInstr s.dp.ir
  csrLd : s.seq.state = .execute → s.seq.irState = .itCsrLd →
    SynthesisMatrix.action s.dp.ir = .transfer
  mret : s.seq.state = .execute → s.seq.irState = .itMret ∨ s.seq.irState = .itMretClr →
    funct12 s.dp.ir = 0x302#12
  entry : s.seq.state = .irq0 → s.seq.irState ≠ .itMret

/-- The next edge ends a CSR instruction that writes mstatus or mip. -/
def WritesEnables (s : CsrCore) : Prop :=
  s.seq.state = .execute ∧ (s.seq.irState = .itCsr ∨ s.seq.irState = .itCsrLd) ∧
    csrWrites s.dp.ir ∧ (funct12 s.dp.ir = Csr.mstatus ∨ funct12 s.dp.ir = Csr.mip)

section Edge
variable {w : Wiring} {i : Input} {s : CsrCore}

/-- The outputs in force at the edge. -/
abbrev outputs (i : Input) (s : CsrCore) : CsrOutputs :=
  comb (s.matrix.sample i) s.dp.ir s.dp.aluFlags s.dp.rsa s.dp.pc i.resetI

/-- What an edge writes to mstatus and mip: mstatus on the way into a trap, and nothing else that
the program does not ask for. -/
theorem clock_csrs (h : Decoded s) (hno : ¬ WritesEnables s) :
    (s.csrs.clock (outputs i s)).mip = s.csrs.mip ∧
      (s.csrs.clock (outputs i s)).mstatus =
        if s.seq.state = .preFetch ∧ accepts s.matrix = true then trapStatus s.csrs.mstatus
        else s.csrs.mstatus := by
  cases hs : s.seq.state with
  | preFetch =>
    cases ha : accepts s.matrix with
    | true =>
      have haddr : csrAddr (s.matrix.sample i) s.dp.ir = Csr.mstatus := by
        cases hp : s.seq.irState <;> simp [csrAddr, hs, hp]
      simp [CsrRegs.clock, comb, main, hs, preFetch, ha, quiet, Outputs.noCsr, haddr,
        CsrRegs.write]
    | false => simp [CsrRegs.clock, comb, main, hs, preFetch, ha, quiet, Outputs.noCsr]
  | irq0 =>
    have haddr : csrAddr (s.matrix.sample i) s.dp.ir = Csr.mepc := by
      have hne := h.entry hs
      simp only [csrAddr, CsrMatrix.sample_seq, hs]
    simp [CsrRegs.clock, comb, main, hs, quiet, Outputs.noCsr, haddr, CsrRegs.write]
  | execute =>
    rw [if_neg fun hpre => MatrixState.noConfusion hpre.1]
    have hquiet : (outputs i s).writeCSR = false → (s.csrs.clock (outputs i s)).mip = s.csrs.mip ∧
        (s.csrs.clock (outputs i s)).mstatus = s.csrs.mstatus := by
      intro hw
      rw [CsrRegs.clock, hw]
      exact ⟨rfl, rfl⟩
    have hnamed : ∀ data, csrWrites s.dp.ir → s.seq.irState = .itCsr ∨ s.seq.irState = .itCsrLd →
        (s.csrs.write (funct12 s.dp.ir) data).mip = s.csrs.mip ∧
          (s.csrs.write (funct12 s.dp.ir) data).mstatus = s.csrs.mstatus := by
      intro data hw hp
      obtain ⟨hne, hne'⟩ : funct12 s.dp.ir ≠ Csr.mstatus ∧ funct12 s.dp.ir ≠ Csr.mip :=
        ⟨fun ha => hno ⟨hs, hp, hw, .inl ha⟩, fun ha => hno ⟨hs, hp, hw, .inr ha⟩⟩
      exact ⟨CsrRegs.write_mip _ hne' _, CsrRegs.write_mstatus _ hne _⟩
    cases hp : s.seq.irState with
    | itCsr =>
      cases ha : SynthesisMatrix.action s.dp.ir with
      | write =>
        have hw := hnamed (csrData (s.matrix.sample i) s.dp.ir s.dp.rsa)
          ⟨h.csr hs (.inl hp), .inl (csrAction_write ha)⟩ (.inl hp)
        simpa [CsrRegs.clock, comb, main, hs, execute, hp, itCsr, ha, quiet, Outputs.noCsr,
          csrAddr] using hw
      | _ =>
        apply hquiet
        simp [comb, main, hs, execute, hp, itCsr, ha, quiet, Outputs.noCsr]
    | itCsrLd =>
      have hclock : s.csrs.clock (outputs i s) = s.csrs.write (funct12 s.dp.ir)
          (csrLdData s.dp.ir s.dp.rsa (csrDataRead s.csrs (funct12 s.dp.ir) s.dp.ir s.dp.rsa)) := by
        simp [CsrRegs.clock, comb, main, hs, execute, hp, quiet, Outputs.noCsr, csrAddr, csrData]
      rw [hclock]
      by_cases hw : csrWrites s.dp.ir
      · exact hnamed _ hw (.inr hp)
      · rw [CsrRegs.write_csrLdData _ (h.csr hs (.inr hp)) hw (h.csrLd hs hp)]
        exact ⟨rfl, rfl⟩
    | itMretClr =>
      -- a write to the address of mret itself, which is no CSR
      have haddr : csrAddr (s.matrix.sample i) s.dp.ir = 0x302#12 := by
        simp [csrAddr, hp, hs, h.mret hs (.inr hp)]
      simp [CsrRegs.clock, comb, main, hs, execute, hp, quiet, Outputs.noCsr, haddr, CsrRegs.write]
    | _ =>
      apply hquiet
      simp [comb, main, hs, execute, hp, quiet, Outputs.noCsr]
      try (split <;> simp)
  | _ => simp [CsrRegs.clock, comb, main, hs, quiet, Outputs.noCsr]

theorem step_seq : (stepMicrocodeCSRs w i s).seq =
    s.seq.clock (outputs i s).toOutputs i.resetI := by
  change (s.matrix.sample i).seq.clock (outputs i s).toOutputs i.resetI = _
  rw [CsrMatrix.sample_seq]

theorem step_low (hi : i.resetI = false) : (stepMicrocodeCSRs w i s).seq.state = .reset := by
  rw [step_seq, hi]
  rfl

/-- Where Execute may lead. -/
structure ExecuteNext (m : CsrMatrix) (ir : Word) (o : CsrOutputs) : Prop where
  state : o.nextState ≠ .irq0
  resetComplete : o.resetComplete = true
  csr : o.nextIrState ≠ .itCsr
  csrLd : o.nextIrState = .itCsrLd →
    m.seq.irState = .itCsr ∧ SynthesisMatrix.action ir = .transfer
  mret : o.nextIrState ≠ .itMret
  mretClr : o.nextIrState = .itMretClr → m.seq.irState = .itMret

theorem execute_next (m : CsrMatrix) (ir : Word) (flags : BitVec 4) (rsa : Word) :
    ExecuteNext m ir (execute m ir flags rsa) := by
  have hother : ∀ o : CsrOutputs, o.nextState ≠ .irq0 → o.resetComplete = true →
      o.nextIrState = .itLoad ∨ shared o.nextIrState ∨ o.nextIrState = .itECall →
      ExecuteNext m ir o := by
    intro o hs hr hp
    refine ⟨hs, hr, ?_, ?_, ?_, ?_⟩ <;> intro h <;> rw [h] at hp <;>
      rcases hp with hp | hp | hp <;> cases hp
  unfold execute
  split
  · exact hother _ MatrixState.noConfusion rfl (.inl rfl)
  · exact hother _ MatrixState.noConfusion rfl (.inr (.inr rfl))
  · next hp =>
    unfold itCsr
    split
    · exact hother _ MatrixState.noConfusion rfl (.inl rfl)
    · exact hother _ MatrixState.noConfusion rfl (.inl rfl)
    · next ha =>
      exact ⟨MatrixState.noConfusion, rfl, InstructionState.noConfusion, fun _ => ⟨hp, ha⟩,
        InstructionState.noConfusion, InstructionState.noConfusion⟩
    · exact hother _ MatrixState.noConfusion rfl (.inl rfl)
  · exact hother _ MatrixState.noConfusion rfl (.inl rfl)
  · next hp =>
    exact ⟨MatrixState.noConfusion, rfl, InstructionState.noConfusion,
      InstructionState.noConfusion, InstructionState.noConfusion, fun _ => hp⟩
  · exact hother _ MatrixState.noConfusion rfl (.inl rfl)
  · dsimp only
    split
    · next s' hn => exact hother _ MatrixState.noConfusion rfl (.inr (.inl (executeNext_shared hn)))
    · exact hother _ MatrixState.noConfusion rfl (.inl rfl)

/-- The next state of a matrix that is in Execute. -/
theorem step_execute (hi : i.resetI = true) (hs : s.seq.state = .execute) :
    (stepMicrocodeCSRs w i s).seq.state =
        (execute (s.matrix.sample i) s.dp.ir s.dp.aluFlags s.dp.rsa).nextState ∧
      (stepMicrocodeCSRs w i s).seq.irState =
        (execute (s.matrix.sample i) s.dp.ir s.dp.aluFlags s.dp.rsa).nextIrState := by
  have hrc := (execute_next (s.matrix.sample i) s.dp.ir s.dp.aluFlags s.dp.rsa).resetComplete
  rw [step_seq]
  simp [comb, main, hs, SeqState.clock, hi, hrc]

/-- The instruction register holds in the states that need it. -/
theorem step_ir (hs : s.seq.state = .execute)
    (hp : s.seq.irState = .itCsr ∨ s.seq.irState = .itMret) :
    (stepMicrocodeCSRs w i s).dp.ir = s.dp.ir := by
  have hld : (outputs i s).control.irLd = rgLdDisabled := by
    rcases hp with hp | hp
    · cases ha : SynthesisMatrix.action s.dp.ir <;>
        simp [comb, main, hs, execute, hp, itCsr, ha, quiet, Outputs.noCsr, leaveOut, executeOut,
          Outputs.init, csrControl, Control.idle]
    · simp [comb, main, hs, execute, hp, quiet, Outputs.noCsr, executeOut, Outputs.init,
        Control.idle]
  exact Datapath.clock_ir hld

/-- Where the states outside Execute lead; only PreFetch leads to IRQ0. -/
def nextOf (q : SeqState) (accepted : Bool) : MatrixState :=
  match q.state with
  | .reset => if q.vectorState = .vector3 then .preFetch else .reset
  | .fetch => .decode
  | .decode => .execute
  | .execute => .execute
  | .preFetch => if accepted then .irq0 else .fetch
  | .irq0 => .irq1
  | .irq1 => .irq2
  | .irq2 => .fetch
  | .halt => .halt

theorem step_state (hi : i.resetI = true) (hs : s.seq.state ≠ .execute) :
    (stepMicrocodeCSRs w i s).seq.state = nextOf s.seq (accepts s.matrix) := by
  rw [step_seq]
  unfold nextOf
  cases hst : s.seq.state with
  | execute => exact absurd hst hs
  | reset =>
    have ho : s.seq.clock (outputs i s).toOutputs true =
        s.seq.clock (resetOut .preFetch s.seq.vectorState true) true := by
      simp [SeqState.clock, comb, main, hst, hi, quiet, Outputs.noCsr]
    rw [hi, ho, SeqState.clock_reset .preFetch hst rfl]
    dsimp only
    split
    · rfl
    · exact hst
  | preFetch =>
    cases ha : accepts s.matrix <;>
      simp [comb, main, hst, preFetch, ha, SeqState.clock, hi, quiet, Outputs.noCsr, leaveOut,
        Outputs.init]
  | _ =>
    simp [comb, main, hst, SeqState.clock, hi, quiet, Outputs.noCsr, leaveOut, Outputs.init,
      fetchOut, decodeOut]

/-- A trap is entered from PreFetch alone, by an accepted interrupt. -/
theorem enters (h : (stepMicrocodeCSRs w i s).seq.state = .irq0) :
    s.seq.state = .preFetch ∧ accepts s.matrix = true := by
  cases hi : i.resetI with
  | false => exact MatrixState.noConfusion ((step_low hi).symm.trans h)
  | true =>
    by_cases hs : s.seq.state = .execute
    · rw [(step_execute hi hs).1] at h
      exact absurd h (execute_next _ _ _ _).state
    · rw [step_state hi hs] at h
      unfold nextOf at h
      cases hst : s.seq.state with
      | preFetch =>
        refine ⟨rfl, ?_⟩
        cases ha : accepts s.matrix with
        | true => rfl
        | false => simp [hst, ha] at h
      | reset =>
        simp only [hst] at h
        split at h <;> cases h
      | execute => exact absurd hst hs
      | _ => simp [hst] at h

theorem step_irState (hi : i.resetI = true) (hs : s.seq.state = .preFetch ∨ s.seq.state = .fetch) :
    (stepMicrocodeCSRs w i s).seq.irState = .itLoad := by
  rw [step_seq]
  rcases hs with hs | hs
  · cases ha : accepts s.matrix <;>
      simp [comb, main, hs, preFetch, ha, SeqState.clock, hi, quiet, Outputs.noCsr, leaveOut,
        Outputs.init]
  · simp [comb, main, hs, SeqState.clock, hi, quiet, Outputs.noCsr, fetchOut, Outputs.init]

/-- Decode leaves the instruction register and chooses the state for its instruction. -/
theorem step_decode (hi : i.resetI = true) (hs : s.seq.state = .decode) :
    (stepMicrocodeCSRs w i s).seq.irState = decodeNext (csrSystem s.dp.ir) s.dp.ir ∧
      (stepMicrocodeCSRs w i s).dp.ir = s.dp.ir := by
  constructor
  · rw [step_seq]
    simp [comb, main, hs, SeqState.clock, hi, quiet, Outputs.noCsr, decodeOut, Outputs.init]
  · apply Datapath.clock_ir
    simp [comb, main, hs, quiet, Outputs.noCsr, decodeOut, Outputs.init, decodeControl,
      Control.idle]

/-- Decode chooses ITMret for mret alone, and never ITMretClr. -/
theorem decodeNext_mret (ir : Word) :
    (decodeNext (csrSystem ir) ir = .itMret → funct12 ir = 0x302#12) ∧
      decodeNext (csrSystem ir) ir ≠ .itMretClr := by
  unfold decodeNext
  cases irOpcode ir with
  | iTypeE =>
    unfold csrSystem
    dsimp only
    by_cases hcsr : isCSRInstr ir
    · simp [hcsr]
    · split_ifs <;> simp_all
  | _ => exact ⟨InstructionState.noConfusion, InstructionState.noConfusion⟩

theorem Decoded.step (h : Decoded s) : Decoded (stepMicrocodeCSRs w i s) := by
  have hcalm : (stepMicrocodeCSRs w i s).seq.state ≠ .execute →
      ((stepMicrocodeCSRs w i s).seq.state = .irq0 →
        (stepMicrocodeCSRs w i s).seq.irState ≠ .itMret) → Decoded (stepMicrocodeCSRs w i s) :=
    fun hne hentry => ⟨fun hs => absurd hs hne, fun hs => absurd hs hne, fun hs => absurd hs hne,
      hentry⟩
  have hentry : i.resetI = true → (stepMicrocodeCSRs w i s).seq.state = .irq0 →
      (stepMicrocodeCSRs w i s).seq.irState ≠ .itMret := by
    intro hi h0
    rw [step_irState hi (.inl (enters h0).1)]
    exact InstructionState.noConfusion
  cases hi : i.resetI with
  | false =>
    apply hcalm <;> rw [step_low hi]
    · exact MatrixState.noConfusion
    · exact MatrixState.noConfusion
  | true =>
    by_cases hne : (stepMicrocodeCSRs w i s).seq.state = .execute
    · by_cases hs : s.seq.state = .execute
      · have hnext := execute_next (s.matrix.sample i) s.dp.ir s.dp.aluFlags s.dp.rsa
        obtain ⟨-, hp⟩ := step_execute (w := w) hi hs
        -- ITCSRLd comes after ITCSR and ITMretClr after ITMret, with the same instruction
        have hld : (stepMicrocodeCSRs w i s).seq.irState = .itCsrLd →
            isCSRInstr s.dp.ir ∧ SynthesisMatrix.action s.dp.ir = .transfer ∧
              (stepMicrocodeCSRs w i s).dp.ir = s.dp.ir := by
          intro hc
          obtain ⟨hold, ha⟩ := hnext.csrLd (hp.symm.trans hc)
          rw [CsrMatrix.sample_seq] at hold
          exact ⟨h.csr hs (.inl hold), ha, step_ir hs (.inl hold)⟩
        constructor
        · rintro - (hc | hc)
          · exact absurd (hp.symm.trans hc) hnext.csr
          · obtain ⟨hcsr, -, hir⟩ := hld hc
            rw [hir]
            exact hcsr
        · intro _ hc
          obtain ⟨-, ha, hir⟩ := hld hc
          rw [hir]
          exact ha
        · rintro - (hc | hc)
          · exact absurd (hp.symm.trans hc) hnext.mret
          · have hold := hnext.mretClr (hp.symm.trans hc)
            rw [CsrMatrix.sample_seq] at hold
            rw [step_ir hs (.inr hold)]
            exact h.mret hs (.inl hold)
        · intro h0
          rw [hne] at h0
          exact MatrixState.noConfusion h0
      · have hdec : s.seq.state = .decode := by
          rw [step_state hi hs] at hne
          unfold nextOf at hne
          cases hst : s.seq.state with
          | decode => rfl
          | execute => exact absurd hst hs
          | _ =>
            simp only [hst] at hne
            first | exact MatrixState.noConfusion hne | (split at hne <;> cases hne)
        obtain ⟨hp, hir⟩ := step_decode (w := w) hi hdec
        have hcsr := decodeNext_csr s.dp.ir
        have hmret := decodeNext_mret s.dp.ir
        rw [← hp, ← hir] at hcsr hmret
        constructor
        · rintro - (hc | hc)
          · exact hcsr.1 hc
          · exact absurd hc hcsr.2
        · exact fun _ hc => absurd hc hcsr.2
        · rintro - (hc | hc)
          · exact hmret.1 hc
          · exact absurd hc hmret.2
        · exact hentry hi
    · exact hcalm hne (hentry hi)

/-- mstatus.MIE after an edge: a trap clears it, and nothing sets it. -/
theorem step_MIE (h : Decoded s) (hno : ¬ WritesEnables s) :
    (stepMicrocodeCSRs w i s).csrs.mstatus.getLsbD Csr.mstatusMIE =
      (s.csrs.mstatus.getLsbD Csr.mstatusMIE &&
        !(decide (s.seq.state = .preFetch) && accepts s.matrix)) := by
  have hstatus : (stepMicrocodeCSRs w i s).csrs.mstatus =
      (s.csrs.clock (outputs i s)).mstatus := by
    change (latchMip (s.matrix.sample i) ((s.matrix.sample i).csrs.clock (outputs i s))).mstatus = _
    rw [CsrMatrix.sample_csrs]
    unfold latchMip
    split_ifs <;> rfl
  have htrap : ∀ mstatus, (trapStatus mstatus).getLsbD Csr.mstatusMIE = false := fun mstatus =>
    getLsbD_assignBit_self _ _ _ (by decide)
  rw [hstatus, (clock_csrs h hno).2]
  by_cases hs : s.seq.state = .preFetch
  · cases ha : accepts s.matrix <;> simp [hs, htrap]
  · simp [hs]

/-- There is no request. -/
def Silent (s : CsrCore) : Prop := requested s.matrix = false

theorem Silent.step (hq : Silent s) (h : Decoded s) (hno : ¬ WritesEnables s)
    (hfall : i.irqFalls = false) : Silent (stepMicrocodeCSRs w i s) := by
  have hsample : s.matrix.sample i = s.matrix := by simp [CsrMatrix.sample, hfall]
  obtain ⟨ht, hp⟩ : s.matrix.irq.irqTriggered = false ∧
      s.csrs.mip.getLsbD Csr.mipMEIP = false := by
    simpa [Silent, requested, CsrCore.csrs] using hq
  have hmip := (clock_csrs (i := i) h hno).1
  have hirq : (stepMicrocodeCSRs w i s).matrix.irq.irqTriggered = false := by
    change ((s.matrix.sample i).irq.clock _ _).irqTriggered = false
    rw [hsample]
    simp [IrqRegs.clock, ht]
  have hmeip : (stepMicrocodeCSRs w i s).matrix.csrs.mip.getLsbD Csr.mipMEIP = false := by
    change (latchMip (s.matrix.sample i) ((s.matrix.sample i).csrs.clock (outputs i s))).mip.getLsbD
      _ = false
    rw [CsrMatrix.sample_csrs, hsample]
    unfold latchMip
    rw [ht]
    cases clearsMip s.matrix with
    | true => exact getLsbD_assignBit_self _ _ _ (by decide)
    | false =>
      change (s.csrs.clock (outputs i s)).mip.getLsbD _ = false
      rw [hmip]
      exact hp
  simp [Silent, requested, hirq, hmeip]

theorem Silent.not_accepts (hq : Silent s) : accepts s.matrix = false := by
  obtain ⟨-, hp⟩ : s.matrix.irq.irqTriggered = false ∧
      s.matrix.csrs.mip.getLsbD Csr.mipMEIP = false := by
    simpa [Silent, requested] using hq
  simp [accepts, CsrRegs.irqPending, hp]

end Edge

/-! ## Runs -/

/-- The interrupt protocol over a run: traps are paid for by the edges of `irq_i`, with one request
that may stand at the start; they do not nest; and the mret that ends one enables interrupts. -/
structure KeepsProtocol (w : Wiring) (s : CsrCore) (inp : ℕ → Input) : Prop where
  traps_le_falls : ∀ n,
    Nat.count (fun j => (trace (stepMicrocodeCSRs w) s inp j).seq.state = .irq0) n ≤
      (if requested s.matrix then 1 else 0) + Nat.count (fun j => (inp j).irqFalls = true) n
  not_nested : ∀ m n, m < n → (trace (stepMicrocodeCSRs w) s inp m).seq.state = .irq0 →
    (trace (stepMicrocodeCSRs w) s inp n).seq.state = .irq0 →
    ∃ j, m < j ∧ j < n ∧ AtMretClr (trace (stepMicrocodeCSRs w) s inp j)
  restored : ∀ m j, m < j → (trace (stepMicrocodeCSRs w) s inp m).seq.state = .irq0 →
    AtMretClr (trace (stepMicrocodeCSRs w) s inp j) →
    (∀ l, m < l → l < j → ¬ AtMretClr (trace (stepMicrocodeCSRs w) s inp l)) →
    (trace (stepMicrocodeCSRs w) s inp (j + 1)).csrs.mstatus.getLsbD Csr.mstatusMIE = true

/-- A run from an instruction boundary, where interrupts may be enabled, of a program that leaves
mstatus and mip alone from there on. -/
structure QuietRun (w : Wiring) (s : CsrCore) (inp : ℕ → Input) : Prop where
  boundary : s.seq.state = .preFetch
  noWrite : ∀ n, ¬ WritesEnables (trace (stepMicrocodeCSRs w) s inp n)

section Run
variable {w : Wiring} {s : CsrCore} {inp : ℕ → Input}

namespace QuietRun

theorem decoded (h : QuietRun w s inp) (n : ℕ) : Decoded (trace (stepMicrocodeCSRs w) s inp n) := by
  apply trace_invariant
  · constructor <;> simp [h.boundary]
  · exact fun n hn => hn.step

/-- The edge before IRQ0. -/
theorem entered (h : QuietRun w s inp) {n : ℕ}
    (hn : (trace (stepMicrocodeCSRs w) s inp n).seq.state = .irq0) :
    ∃ l, n = l + 1 ∧ (trace (stepMicrocodeCSRs w) s inp l).seq.state = .preFetch ∧
      accepts (trace (stepMicrocodeCSRs w) s inp l).matrix = true := by
  cases n with
  | zero => exact MatrixState.noConfusion (h.boundary.symm.trans hn)
  | succ l => exact ⟨l, rfl, enters hn⟩

/-- Interrupts stay disabled from a trap on. -/
theorem disabled (h : QuietRun w s inp) {m : ℕ}
    (hm : (trace (stepMicrocodeCSRs w) s inp m).seq.state = .irq0) (d : ℕ) :
    (trace (stepMicrocodeCSRs w) s inp (m + d)).csrs.mstatus.getLsbD Csr.mstatusMIE = false := by
  induction d with
  | zero =>
    obtain ⟨l, rfl, hpre, ha⟩ := h.entered hm
    rw [Nat.add_zero, trace_succ, step_MIE (h.decoded l) (h.noWrite l)]
    simp [hpre, ha]
  | succ d ih =>
    rw [← Nat.add_assoc, trace_succ, step_MIE (h.decoded _) (h.noWrite _), ih, Bool.false_and]

/-- There is one trap at most. -/
theorem once (h : QuietRun w s inp) {m n : ℕ} (hmn : m < n)
    (hm : (trace (stepMicrocodeCSRs w) s inp m).seq.state = .irq0)
    (hn : (trace (stepMicrocodeCSRs w) s inp n).seq.state = .irq0) : False := by
  obtain ⟨l, rfl, -, ha⟩ := h.entered hn
  obtain ⟨d, rfl⟩ : ∃ d, l = m + d := ⟨l - m, by omega⟩
  have hmie : (trace (stepMicrocodeCSRs w) s inp (m + d)).matrix.csrs.mstatus.getLsbD
      Csr.mstatusMIE = false := h.disabled hm d
  simp [accepts, CsrRegs.irqPending, hmie] at ha

/-- And it has been asked for. -/
theorem asked (h : QuietRun w s inp) {n : ℕ}
    (hn : (trace (stepMicrocodeCSRs w) s inp n).seq.state = .irq0) :
    requested s.matrix = true ∨ ∃ j < n, (inp j).irqFalls = true := by
  by_contra hno
  push Not at hno
  obtain ⟨hstart, hfall⟩ := hno
  obtain ⟨l, rfl, -, ha⟩ := h.entered hn
  have hq : ∀ k ≤ l, Silent (trace (stepMicrocodeCSRs w) s inp k) := by
    apply trace_invariant_until
    · exact eq_false_of_ne_true hstart
    · intro k hk hq
      exact hq.step (h.decoded k) (h.noWrite k) (eq_false_of_ne_true (hfall k (by omega)))
  rw [(hq l le_rfl).not_accepts] at ha
  exact Bool.noConfusion ha

theorem traps_le_falls (h : QuietRun w s inp) (n : ℕ) :
    Nat.count (fun j => (trace (stepMicrocodeCSRs w) s inp j).seq.state = .irq0) n ≤
      (if requested s.matrix then 1 else 0) + Nat.count (fun j => (inp j).irqFalls = true) n := by
  induction n with
  | zero => simp
  | succ n ih =>
    by_cases hn : (trace (stepMicrocodeCSRs w) s inp n).seq.state = .irq0
    · have hnone : Nat.count (fun j => (trace (stepMicrocodeCSRs w) s inp j).seq.state = .irq0) n
          = 0 := Nat.count_of_forall_not fun _ hmn hm => h.once hmn hm hn
      rw [Nat.count_succ, hnone, if_pos hn]
      rcases h.asked hn with hr | ⟨j, hj, hfall⟩
      · rw [if_pos hr]
        exact Nat.le_add_right _ _
      · have hpaid : Nat.count (fun j => (inp j).irqFalls = true) j <
            Nat.count (fun j => (inp j).irqFalls = true) (n + 1) :=
          Nat.count_strict_mono hfall (Nat.lt_succ_of_lt hj)
        exact (Nat.succ_le_of_lt (Nat.zero_lt_of_lt hpaid)).trans (Nat.le_add_left _ _)
    · rw [Nat.count_succ, if_neg hn]
      exact ih.trans (Nat.add_le_add_left (Nat.count_monotone _ (Nat.le_succ n)) _)

end QuietRun

/-- **The protocol is kept exactly when no trap is left.** The first mret after a trap does not
enable interrupts. -/
theorem keepsProtocol_iff (h : QuietRun w s inp) :
    KeepsProtocol w s inp ↔
      ∀ m j, m < j → (trace (stepMicrocodeCSRs w) s inp m).seq.state = .irq0 →
        ¬ AtMretClr (trace (stepMicrocodeCSRs w) s inp j) := by
  constructor
  · intro hk m j hmj hm hj
    -- the first one after the trap
    obtain ⟨l, ⟨hml, hl⟩, hfirst⟩ : ∃ l, (m < l ∧ AtMretClr (trace (stepMicrocodeCSRs w) s inp l)) ∧
        ∀ k < l, ¬ (m < k ∧ AtMretClr (trace (stepMicrocodeCSRs w) s inp k)) := by
      classical
      have hex : ∃ l, m < l ∧ AtMretClr (trace (stepMicrocodeCSRs w) s inp l) := ⟨j, hmj, hj⟩
      exact ⟨Nat.find hex, Nat.find_spec hex, fun k hk => Nat.find_min hex hk⟩
    have hset := hk.restored m l hml hm hl fun k hmk hkl hk => hfirst k hkl ⟨hmk, hk⟩
    have hclear := h.disabled hm (l + 1 - m)
    rw [Nat.add_sub_cancel' (by omega : m ≤ l + 1), hset] at hclear
    exact Bool.noConfusion hclear
  · intro hnone
    refine ⟨h.traps_le_falls, ?_, ?_⟩
    · exact fun m n hmn hm hn => (h.once hmn hm hn).elim
    · exact fun m j hmj hm hj => absurd hj (hnone m j hmj hm)

end Run

/-- Interrupts are enabled, and the memory holds a nop at 0, mret at 0x100, where mtvec points, and
ebreak everywhere else. -/
def mretHandler : CsrCore where
  matrix := {
    seq := { state := .preFetch, vectorState := .sync0, irState := .itLoad }
    csrs := { mstatus := 0x8, mie := 0x800, mip := 0, mepc := 0, mtvec := 0x100 }
    irq := ⟨false, false, false⟩ }
  dp := { Datapath.filled 0x00100073 with
    mem := fun a =>
      if a = Pmmu.wordAddr 0 then 0x00000013
      else if a = Pmmu.wordAddr 0x100 then 0x30200073
      else 0x00100073 }

/-- `irq_i` falls once, before the first edge. -/
def fallsOnce (n : ℕ) : Input := ⟨true, decide (n = 0)⟩

instance : DecidablePred WritesEnables := fun _ => inferInstanceAs (Decidable (_ ∧ _ ∧ _ ∧ _))

theorem mretHandler_run : QuietRun (Wiring.memoryMapped 0 0) mretHandler fallsOnce where
  boundary := rfl
  noWrite n := by
    have hhalt : ∀ d, (trace (stepMicrocodeCSRs (Wiring.memoryMapped 0 0)) mretHandler fallsOnce
        (16 + d)).seq.state = .halt := by
      intro d
      induction d with
      | zero => decide +kernel
      | succ d ih =>
        rw [← Nat.add_assoc, trace_succ,
          step_state rfl (by rw [ih]; exact MatrixState.noConfusion), nextOf, ih]
    have hbefore : ∀ m < 16, ¬ WritesEnables
        (trace (stepMicrocodeCSRs (Wiring.memoryMapped 0 0)) mretHandler fallsOnce m) := by
      decide +kernel
    rcases Nat.lt_or_ge n 16 with hn | hn
    · exact hbefore n hn
    · obtain ⟨d, rfl⟩ : ∃ d, n = 16 + d := ⟨n - 16, by omega⟩
      rintro ⟨hs, -⟩
      exact MatrixState.noConfusion ((hhalt d).symm.trans hs)

theorem keepsProtocol_iff_mretHandler :
    ¬ (KeepsProtocol (Wiring.memoryMapped 0 0) mretHandler fallsOnce) := by
  rw [keepsProtocol_iff mretHandler_run]
  intro hnone
  have hclr : AtMretClr
      (trace (stepMicrocodeCSRs (Wiring.memoryMapped 0 0)) mretHandler fallsOnce 11) :=
    ⟨by decide +kernel, by decide +kernel⟩
  exact hnone 5 11 (by decide) (by decide +kernel) hclr

/-- One edge of `irq_i`, and a handler that is one mret: the trap is entered after the nop, and its
mret leaves interrupts disabled. -/
theorem mret_keeps_disabled :
    ¬ ∀ (w : Wiring) (s : CsrCore) (inp : ℕ → Input), QuietRun w s inp → KeepsProtocol w s inp := by
  intro h
  have hmie := (h _ _ _ mretHandler_run).restored 5 11 (by decide) (by decide +kernel)
    ⟨by decide +kernel, by decide +kernel⟩ (by
      intro l hl hl' ⟨hs, hp⟩
      have hnone : ∀ l < 11, 5 < l →
          ¬ ((trace (stepMicrocodeCSRs (Wiring.memoryMapped 0 0)) mretHandler fallsOnce l).seq.state
              = .execute ∧
            (trace (stepMicrocodeCSRs (Wiring.memoryMapped 0 0)) mretHandler fallsOnce
              l).seq.irState = .itMretClr) := by
        decide +kernel
      exact hnone l hl' hl ⟨hs, hp⟩)
  have hclear : (trace (stepMicrocodeCSRs (Wiring.memoryMapped 0 0)) mretHandler fallsOnce
      12).csrs.mstatus.getLsbD Csr.mstatusMIE = false := by
    decide +kernel
  rw [hclear] at hmie
  exact Bool.noConfusion hmie

end MicroCodeMatrixCSRs

end RangerRisc
