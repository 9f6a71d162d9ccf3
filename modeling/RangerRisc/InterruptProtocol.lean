import RangerRisc.Reset

/-! The interrupt flags of `Synthesis/ranger_risc/csrs/ControlMatrix.sv`, set and cleared by two
clock domains, over whole runs from power-up: traps do not nest, none is spurious and no edge of
`irq_i` is lost. Only an edge that comes while reset is low outlives the reset. -/

namespace RangerRisc

open Clocked BitField

namespace SynthesisMatrix

/-! ## One cycle -/

section Cycle
variable {w : Wiring} {i : Input} {s : CsrCore}

/-- The states that may follow `q`; PreFetch leaves for the trap when it is `accepted`. -/
def LeadsTo (q : SeqState) (accepted : Bool) (next : MatrixState) : Prop :=
  match q.state with
  | .reset => next = if q.vectorState = .vector3 then .preFetch else .reset
  | .fetch => next = .decode
  | .decode => next = .execute
  | .execute => next = .execute ∨ next = .preFetch ∨ next = .fetch ∨ next = .halt
  | .preFetch => next = if accepted then .irq0 else .fetch
  | .irq0 => next = .irq1
  | .irq1 => next = .irq2
  | .irq2 => next = .fetch
  | .halt => next = .halt

theorem execute_nextState (m : CsrMatrix) (ir : Word) (flags : BitVec 4) (rsa : Word) :
    ((execute m ir flags rsa).nextState = .execute ∨
      (execute m ir flags rsa).nextState = .preFetch ∨
      (execute m ir flags rsa).nextState = .fetch ∨ (execute m ir flags rsa).nextState = .halt) ∧
    (execute m ir flags rsa).resetComplete = true := by
  unfold execute
  split
  · exact ⟨.inr (.inr (.inr rfl)), rfl⟩
  · exact ⟨.inl rfl, rfl⟩
  · unfold itCsr
    split
    · exact ⟨.inr (.inl rfl), rfl⟩
    · exact ⟨.inr (.inl rfl), rfl⟩
    · exact ⟨.inl rfl, rfl⟩
    · exact ⟨.inr (.inr (.inl rfl)), rfl⟩
  · exact ⟨.inr (.inl rfl), rfl⟩
  · exact ⟨.inl rfl, rfl⟩
  · exact ⟨.inr (.inl rfl), rfl⟩
  · dsimp only
    split
    · exact ⟨.inl rfl, rfl⟩
    · exact ⟨.inr (.inl rfl), rfl⟩

/-- The outputs at the edge of the matrix. -/
abbrev outputs (w : Wiring) (i : Input) (s : CsrCore) : CsrOutputs :=
  outputsOn i s (stepSynthesis w i s).dp

theorem step_matrix : (stepSynthesis w i s).matrix =
    clock (outputs w i s) i.resetI (s.matrix.sample i) := rfl

theorem step_seq : (stepSynthesis w i s).seq =
    s.seq.clock (outputs w i s).toOutputs i.resetI := by
  rw [CsrCore.seq, step_matrix, clock, CsrMatrix.sample_seq]

theorem step_low (hi : i.resetI = false) :
    (stepSynthesis w i s).seq = { s.seq with state := .reset, vectorState := .sync0 } := by
  rw [step_seq, hi]
  rfl

theorem leadsTo (hi : i.resetI = true) :
    LeadsTo s.seq (accepts s.matrix) (stepSynthesis w i s).seq.state := by
  unfold LeadsTo
  cases hs : s.seq.state with
  | reset =>
    rw [(step_reset hs).1, hi, SeqState.clock_reset .preFetch hs rfl]
    dsimp only
    split
    · rfl
    · exact hs
  | execute =>
    obtain ⟨hnext, hrc⟩ := execute_nextState (s.matrix.sample i) (stepSynthesis w i s).dp.ir
      (stepSynthesis w i s).dp.aluFlags (stepSynthesis w i s).dp.rsa
    rw [step_seq]
    simpa [outputs, comb, main, hs, SeqState.clock, hi, hrc] using hnext
  | preFetch =>
    rw [step_seq]
    cases ha : accepts s.matrix <;>
      simp [outputs, comb, main, hs, preFetch, ha, SeqState.clock, hi, quiet, Outputs.noCsr,
        leaveOut, Outputs.init]
  | _ =>
    rw [step_seq]
    simp [outputs, comb, main, hs, SeqState.clock, hi, quiet, Outputs.noCsr, leaveOut, Outputs.init,
      fetchOut, decodeOut]

/-! ### The CSR write -/

/-- ITCSRLd follows a transfer only, and nothing in Execute leads to ITCSR. -/
theorem execute_nextIrState (m : CsrMatrix) (ir : Word) (flags : BitVec 4) (rsa : Word) :
    (execute m ir flags rsa).nextIrState ≠ .itCsr ∧
      ((execute m ir flags rsa).nextIrState = .itCsrLd →
        m.seq.irState = .itCsr ∧ action ir = .transfer) := by
  unfold execute
  split
  · exact ⟨InstructionState.noConfusion, InstructionState.noConfusion⟩
  · exact ⟨InstructionState.noConfusion, InstructionState.noConfusion⟩
  · next hp =>
    unfold itCsr
    split
    · exact ⟨InstructionState.noConfusion, InstructionState.noConfusion⟩
    · exact ⟨InstructionState.noConfusion, InstructionState.noConfusion⟩
    · next ha => exact ⟨InstructionState.noConfusion, fun _ => ⟨hp, ha⟩⟩
    · exact ⟨InstructionState.noConfusion, InstructionState.noConfusion⟩
  · exact ⟨InstructionState.noConfusion, InstructionState.noConfusion⟩
  · exact ⟨InstructionState.noConfusion, InstructionState.noConfusion⟩
  · exact ⟨InstructionState.noConfusion, InstructionState.noConfusion⟩
  · dsimp only
    split
    · next s' hn =>
      have hsh := executeNext_shared hn
      change s' ≠ .itCsr ∧ (s' = .itCsrLd → _)
      constructor
      · rintro rfl
        exact Bool.noConfusion hsh
      · rintro rfl
        exact Bool.noConfusion hsh
    · exact ⟨InstructionState.noConfusion, InstructionState.noConfusion⟩

/-- The two states of a CSR instruction have one in the instruction register. -/
structure CsrReady (s : CsrCore) : Prop where
  csr : s.seq.state = .execute → s.seq.irState = .itCsr ∨ s.seq.irState = .itCsrLd →
    isCSRInstr s.dp.ir
  csrLd : s.seq.state = .execute → s.seq.irState = .itCsrLd → action s.dp.ir = .transfer

theorem step_ir (hs : s.seq.state = .execute)
    (hp : s.seq.irState = .itCsr ∨ s.seq.irState = .itCsrLd) :
    (stepSynthesis w i s).dp.ir = s.dp.ir := by
  have hld : (outputsOn i s s.dp).control.irLd = rgLdDisabled := by
    rcases hp with hp | hp
    · cases ha : action s.dp.ir <;>
        simp [comb, main, hs, execute, hp, itCsr, ha, quiet, Outputs.noCsr, leaveOut, executeOut,
          Outputs.init, csrControl, Control.idle]
    · simp [comb, main, hs, execute, hp, quiet, Outputs.noCsr, leaveOut, Outputs.init, csrControl,
        Control.idle]
  exact Datapath.clock_ir hld

/-- The next edge of the matrix ends a CSR instruction that writes mip. -/
def WritesMip (s : CsrCore) : Prop :=
  s.seq.state = .execute ∧ (s.seq.irState = .itCsr ∨ s.seq.irState = .itCsrLd) ∧
    csrWrites s.dp.ir ∧ funct12 s.dp.ir = Csr.mip

theorem execute_writeCSR (m : CsrMatrix) (ir : Word) (flags : BitVec 4) (rsa : Word)
    (h : (execute m ir flags rsa).writeCSR = true) :
    m.seq.irState = .itCsr ∧ action ir = .write ∨ m.seq.irState = .itCsrLd := by
  unfold execute at h
  split at h
  · exact Bool.noConfusion h
  · exact Bool.noConfusion h
  · next hp =>
    unfold itCsr at h
    split at h
    · next ha => exact .inl ⟨hp, ha⟩
    · exact Bool.noConfusion h
    · exact Bool.noConfusion h
    · exact Bool.noConfusion h
  · next hp => exact .inr hp
  · exact Bool.noConfusion h
  · exact Bool.noConfusion h
  · dsimp only at h
    split at h
    · exact Bool.noConfusion h
    · exact Bool.noConfusion h

/-- Outside Execute only IRQ0 writes a CSR, and that is not mip. -/
theorem outputs_writeCSR (h : (outputs w i s).writeCSR = true) :
    s.seq.state = .irq0 ∧ (outputs w i s).csrAddr ≠ Csr.mip ∨
    s.seq.state = .execute ∧ (s.seq.irState = .itCsr ∧ action (stepSynthesis w i s).dp.ir = .write ∨
      s.seq.irState = .itCsrLd) := by
  cases hs : s.seq.state with
  | irq0 =>
    left
    refine ⟨rfl, ?_⟩
    cases hp : s.seq.irState <;>
      simp [outputs, comb, main, hs, hp, quiet, Outputs.noCsr, csrAddr]
  | execute =>
    right
    refine ⟨rfl, ?_⟩
    simp only [outputs, comb, main, CsrMatrix.sample_seq, hs] at h
    have hw := execute_writeCSR _ _ _ _ h
    rwa [CsrMatrix.sample_seq] at hw
  | preFetch =>
    cases ha : accepts s.matrix <;>
      simp [outputs, comb, main, hs, preFetch, ha, quiet, Outputs.noCsr] at h
  | _ => simp [outputs, comb, main, hs, quiet, Outputs.noCsr] at h

/-- A CSR instruction names the CSR. -/
theorem outputs_csrAddr (hs : s.seq.state = .execute)
    (hp : s.seq.irState = .itCsr ∨ s.seq.irState = .itCsrLd) :
    (outputs w i s).csrAddr = funct12 s.dp.ir := by
  have hir := step_ir (w := w) (i := i) hs hp
  rcases hp with hp | hp
  · cases ha : action s.dp.ir <;>
      simp [outputs, comb, main, hs, execute, hp, itCsr, hir, ha, quiet, Outputs.noCsr, csrAddr]
  · simp [outputs, comb, main, hs, execute, hp, hir, quiet, Outputs.noCsr, csrAddr]

theorem outputs_csrLd (hs : s.seq.state = .execute) (hp : s.seq.irState = .itCsrLd) :
    (outputs w i s).csrData = csrLdData s.dp.ir (stepSynthesis w i s).dp.rsa
      (csrDataRead s.csrs (funct12 s.dp.ir) s.dp.ir (stepSynthesis w i s).dp.rsa) := by
  have hir := step_ir (w := w) (i := i) hs (.inr hp)
  simp [outputs, comb, main, hs, execute, hp, hir, quiet, Outputs.noCsr, csrData, csrAddr]

/-- The write keeps mip, unless the program means to write it. -/
theorem CsrReady.clock_mip (h : CsrReady s) (hno : ¬ WritesMip s) :
    (s.csrs.clock (outputs w i s)).mip = s.csrs.mip := by
  unfold CsrRegs.clock
  split
  · next hwrite =>
    rcases outputs_writeCSR hwrite with ⟨_, haddr⟩ | ⟨hs, hp⟩
    · exact CsrRegs.write_mip _ haddr _
    · have hp' : s.seq.irState = .itCsr ∨ s.seq.irState = .itCsrLd := hp.imp_left And.left
      have hir := step_ir (w := w) (i := i) hs hp'
      have hcsr := h.csr hs hp'
      rw [outputs_csrAddr hs hp']
      by_cases hw : csrWrites s.dp.ir
      · exact CsrRegs.write_mip _ (fun haddr => hno ⟨hs, hp', hw, haddr⟩) _
      · rcases hp with ⟨_, ha⟩ | hp
        · rw [hir] at ha
          exact absurd ⟨hcsr, .inl (csrAction_write ha)⟩ hw
        · rw [outputs_csrLd hs hp, CsrRegs.write_csrLdData _ hcsr hw (h.csrLd hs hp)]
  · rfl

theorem CsrReady.step (h : CsrReady s) : CsrReady (stepSynthesis w i s) := by
  cases hi : i.resetI with
  | false =>
    have hreset : (stepSynthesis w i s).seq.state = .reset := by rw [step_low hi]
    exact ⟨fun hs => MatrixState.noConfusion (hreset.symm.trans hs),
      fun hs => MatrixState.noConfusion (hreset.symm.trans hs)⟩
  | true =>
    have hnext := leadsTo (w := w) (s := s) hi
    unfold LeadsTo at hnext
    cases hs : s.seq.state with
    | decode =>
      have hp : (stepSynthesis w i s).seq.irState = decodeNext
          (csrSystem (stepSynthesis w i s).dp.ir) (stepSynthesis w i s).dp.ir := by
        rw [step_seq]
        simp [outputs, comb, main, hs, SeqState.clock, hi, quiet, Outputs.noCsr, decodeOut,
          Outputs.init]
      obtain ⟨hcsr, hld⟩ := decodeNext_csr (stepSynthesis w i s).dp.ir
      rw [← hp] at hcsr hld
      exact ⟨fun _ hp => hcsr (hp.resolve_right hld), fun _ hp => absurd hp hld⟩
    | execute =>
      have hp : (stepSynthesis w i s).seq.state = .execute →
          (stepSynthesis w i s).seq.irState = (execute (s.matrix.sample i)
            (stepSynthesis w i s).dp.ir (stepSynthesis w i s).dp.aluFlags
            (stepSynthesis w i s).dp.rsa).nextIrState := by
        obtain ⟨-, hrc⟩ := execute_nextState (s.matrix.sample i) (stepSynthesis w i s).dp.ir
          (stepSynthesis w i s).dp.aluFlags (stepSynthesis w i s).dp.rsa
        intro _
        rw [step_seq]
        simp [outputs, comb, main, hs, SeqState.clock, hi, hrc]
      obtain ⟨hne, hld⟩ := execute_nextIrState (s.matrix.sample i) (stepSynthesis w i s).dp.ir
        (stepSynthesis w i s).dp.aluFlags (stepSynthesis w i s).dp.rsa
      have htransfer : (stepSynthesis w i s).seq.state = .execute →
          (stepSynthesis w i s).seq.irState = .itCsrLd →
          s.seq.irState = .itCsr ∧ action (stepSynthesis w i s).dp.ir = .transfer := by
        intro hs' hp'
        have := hld ((hp hs').symm.trans hp')
        rwa [CsrMatrix.sample_seq] at this
      constructor
      · intro hs' hp'
        have hp' := hp'.resolve_left fun h => hne ((hp hs').symm.trans h)
        obtain ⟨hcsr, -⟩ := htransfer hs' hp'
        rw [step_ir hs (.inl hcsr)]
        exact h.csr hs (.inl hcsr)
      · intro hs' hp'
        exact (htransfer hs' hp').2
    | reset | fetch | preFetch | irq0 | irq1 | irq2 | halt =>
      have hne : (stepSynthesis w i s).seq.state ≠ .execute := by
        rw [hs] at hnext
        rw [hnext]
        try split
        all_goals exact MatrixState.noConfusion
      exact ⟨fun hs' => absurd hs' hne, fun hs' => absurd hs' hne⟩

end Cycle

/-! ## The flags -/

/-- MEIP of mip. -/
def meip (s : CsrCore) : Bool := s.csrs.mip.getLsbD Csr.mipMEIP

/-- The states in which `irq_reset_trigger` is up. -/
def acknowledges (q : SeqState) : Prop :=
  q.state = .irq1 ∨ q.state = .reset ∧ q.vectorState = .vector2

/-- The two clock domains agree. -/
structure Flags (s : CsrCore) : Prop where
  trigger : s.irq.irqResetTrigger = true ↔ acknowledges s.seq
  cleared : s.irq.irqResetTrigger = true → s.irq.irqTriggered = false
  irq0 : s.seq.state = .irq0 → s.irq.interruptInProgress = true

/-- Reset is high, or the run has not left Sync0 yet. -/
def Starts (i : Input) (s : CsrCore) : Prop :=
  i.resetI = true ∨ s.seq.state = .reset ∧ s.seq.vectorState = .sync0

section Flags
variable {w : Wiring} {i : Input} {s : CsrCore}

theorem resetTrigger_sample (m : CsrMatrix) : resetTrigger (m.sample i) = resetTrigger m := by
  simp [resetTrigger]

theorem step_resetTrigger :
    (stepSynthesis w i s).irq.irqResetTrigger = resetTrigger s.matrix := by
  rw [CsrCore.irq, step_matrix, clock, resetTrigger_sample]
  rfl

theorem step_triggered :
    (stepSynthesis w i s).irq.irqTriggered =
      if resetTrigger s.matrix && !s.irq.irqResetTrigger then false
      else (s.matrix.sample i).irq.irqTriggered := by
  rw [CsrCore.irq, step_matrix, clock, resetTrigger_sample, IrqRegs.clock,
    CsrMatrix.sample_resetTrigger]

theorem step_meip (h : CsrReady s) (hno : ¬ WritesMip s) :
    meip (stepSynthesis w i s) =
      if (s.matrix.sample i).irq.irqTriggered then true
      else if clearsMip s.matrix then false else meip s := by
  have hclock : (s.matrix.csrs.clock (outputs w i s)).mip = s.matrix.csrs.mip := h.clock_mip hno
  have hclears : clearsMip (s.matrix.sample i) = clearsMip s.matrix := by
    simp [clearsMip, inVector0]
  rw [meip, CsrCore.csrs, step_matrix, clock, latchMip, hclears]
  cases (s.matrix.sample i).irq.irqTriggered with
  | true =>
    cases inVector0 (s.matrix.sample i) <;> simp
  | false =>
    cases clearsMip s.matrix <;> cases inVector0 (s.matrix.sample i) <;>
      simp [meip, hclock, CsrCore.csrs]

/-- IRQ0 and Vector1 raise `irq_reset_trigger`, the state after them lowers it. -/
theorem Flags.resetTrigger_iff (h : Flags s) :
    resetTrigger s.matrix = true ↔
      s.seq.state = .irq0 ∨ s.seq.state = .reset ∧ s.seq.vectorState = .vector1 := by
  have htrigger := h.trigger
  unfold acknowledges at htrigger
  unfold resetTrigger
  cases hs : s.seq.state with
  | reset => cases hv : s.seq.vectorState <;> simp_all
  | _ => simp_all

theorem acknowledges_step (hi : Starts i s) :
    acknowledges (stepSynthesis w i s).seq ↔
      s.seq.state = .irq0 ∨ s.seq.state = .reset ∧ s.seq.vectorState = .vector1 := by
  cases hr : i.resetI with
  | false =>
    obtain ⟨hs, hv⟩ : s.seq.state = .reset ∧ s.seq.vectorState = .sync0 := by
      simpa [Starts, hr] using hi
    simp [acknowledges, step_low hr, hs, hv]
  | true =>
    have hnext := leadsTo (w := w) (s := s) hr
    unfold LeadsTo at hnext
    unfold acknowledges
    cases hs : s.seq.state with
    | reset =>
      rw [(step_reset hs).1, hr, SeqState.clock_reset .preFetch hs rfl]
      cases hv : s.seq.vectorState <;> simp [nextVector, hs]
    | execute =>
      rw [hs] at hnext
      rcases hnext with h | h | h | h <;> simp [h]
    | preFetch =>
      rw [hs] at hnext
      cases ha : accepts s.matrix <;> simp [hnext, ha]
    | _ =>
      rw [hs] at hnext
      simp [hnext]

/-- Reset is not entered again while `reset_i` is high. -/
theorem reset_step (hi : i.resetI = true) (h : (stepSynthesis w i s).seq.state = .reset) :
    s.seq.state = .reset := by
  have hnext := leadsTo (w := w) (s := s) hi
  unfold LeadsTo at hnext
  rw [h] at hnext
  cases hs : s.seq.state with
  | reset => rfl
  | execute => simp [hs] at hnext
  | preFetch =>
    rw [hs] at hnext
    dsimp only at hnext
    split at hnext <;> exact MatrixState.noConfusion hnext
  | _ => simp [hs] at hnext

theorem irq0_step (h : (stepSynthesis w i s).seq.state = .irq0) :
    s.seq.state = .preFetch ∧ accepts s.matrix = true := by
  cases hr : i.resetI with
  | false => simp [step_low hr] at h
  | true =>
    have hnext := leadsTo (w := w) (s := s) hr
    unfold LeadsTo at hnext
    rw [h] at hnext
    cases hs : s.seq.state with
    | preFetch =>
      rw [hs] at hnext
      cases ha : accepts s.matrix with
      | true => exact ⟨rfl, rfl⟩
      | false => simp [ha] at hnext
    | reset =>
      rw [hs] at hnext
      dsimp only at hnext
      split at hnext <;> exact MatrixState.noConfusion hnext
    | _ => simp [hs] at hnext

theorem step_inProgress : (stepSynthesis w i s).irq.interruptInProgress =
    inProgress (s.matrix.sample i) (outputs w i s) := rfl

theorem inProgress_accept (hs : s.seq.state = .preFetch) (ha : accepts s.matrix = true) :
    (stepSynthesis w i s).irq.interruptInProgress = true := by
  have ho : (outputs w i s).irqPending = s.matrix.csrs.irqPending := by
    simp [outputs, comb, main, hs, preFetch, ha]
  have ha' : (s.matrix.csrs.irqPending && !s.matrix.irq.interruptInProgress) = true := ha
  simp [step_inProgress, inProgress, hs, ho, ha']

/-- In ITMretClr -/
def AtMretClr (s : CsrCore) : Prop := s.seq.state = .execute ∧ s.seq.irState = .itMretClr

/-- Apart from reset only ITMretClr ends a trap. -/
theorem inProgress_lost (h : s.irq.interruptInProgress = true) (hs : s.seq.state ≠ .reset)
    (hlost : (stepSynthesis w i s).irq.interruptInProgress ≠ true) : AtMretClr s := by
  rw [step_inProgress] at hlost
  unfold inProgress at hlost
  cases hstate : s.seq.state with
  | reset => exact absurd hstate hs
  | execute =>
    by_cases hp : s.seq.irState = .itMretClr
    · exact ⟨hstate, hp⟩
    · simp [hstate, hp, h] at hlost
  | _ => simp [hstate, h] at hlost

/-- **Every edge keeps the two domains in step.** -/
theorem Flags.step (h : Flags s) (hi : Starts i s) : Flags (stepSynthesis w i s) where
  trigger := by
    rw [step_resetTrigger, h.resetTrigger_iff, acknowledges_step hi]
  cleared ht := by
    rw [step_resetTrigger] at ht
    have hold : s.irq.irqResetTrigger = false := by
      have hstate := h.resetTrigger_iff.mp ht
      rw [← Bool.not_eq_true, h.trigger]
      rintro (hs | ⟨hs, hv⟩) <;> rcases hstate with h | ⟨h, h'⟩ <;> simp_all
    rw [step_triggered, ht, hold]
    rfl
  irq0 hs := by
    obtain ⟨hpre, ha⟩ := irq0_step hs
    exact inProgress_accept hpre ha

/-! ### Requests -/

/-- A request is latched, or pending. -/
def requested (m : CsrMatrix) : Bool := m.irq.irqTriggered || m.csrs.mip.getLsbD Csr.mipMEIP

/-- The states before Vector1 has acknowledged what came before. -/
def early (q : SeqState) : Prop :=
  q.state = .reset ∧ (q.vectorState = .sync0 ∨ q.vectorState = .vector0 ∨ q.vectorState = .vector1)

/-- A request that no edge up to the next IRQ1 can lose: early in reset mip does not count, Vector0
clears it. -/
def Kept (s : CsrCore) (m : CsrMatrix) : Prop :=
  m.irq.irqTriggered = true ∨ ¬ early s.seq ∧ meip s = true

theorem Kept.sample {m : CsrMatrix} (h : Kept s m) (hm : m = s.matrix) (hf : Flags s) :
    Kept s (m.sample i) := by
  subst hm
  unfold CsrMatrix.sample
  split
  · rcases h with ht | h
    · left
      cases hr : s.matrix.irq.irqResetTrigger with
      | false => simp [IrqRegs.fall, hr]
      | true => exact absurd (hf.cleared hr) (by simp [CsrCore.irq, ht])
    · exact .inr h
  · exact h

theorem Kept.requested {m : CsrMatrix} (h : Kept s m) (hm : m.csrs = s.csrs) :
    requested m = true := by
  unfold SynthesisMatrix.requested
  rcases h with ht | ⟨-, hp⟩
  · simp [ht]
  · have hp' : m.csrs.mip.getLsbD Csr.mipMEIP = true := by
      rw [hm]
      exact hp
    simp [hp']

/-- There is no request, and none is left over from before reset. -/
structure Silent (s : CsrCore) : Prop where
  triggered : s.irq.irqTriggered = false
  meip : meip s = false ∨
    s.seq.state = .reset ∧ (s.seq.vectorState = .sync0 ∨ s.seq.vectorState = .vector0)

theorem early_step (hi : Starts i s) (h : early (stepSynthesis w i s).seq) :
    s.seq.state = .reset ∧ (s.seq.vectorState = .sync0 ∨ s.seq.vectorState = .vector0) := by
  obtain ⟨hs', hv'⟩ := h
  cases hr : i.resetI with
  | false =>
    obtain ⟨hs, hv⟩ : s.seq.state = .reset ∧ s.seq.vectorState = .sync0 := by
      simpa [Starts, hr] using hi
    exact ⟨hs, .inl hv⟩
  | true =>
    have hs := reset_step hr hs'
    refine ⟨hs, ?_⟩
    rw [(step_reset hs).1, hr, SeqState.clock_reset .preFetch hs rfl] at hs' hv'
    cases hv : s.seq.vectorState <;> simp_all [nextVector]

theorem sync0_step (hs : s.seq.state = .reset) (hv : s.seq.vectorState = .sync0) :
    (stepSynthesis w i s).seq.state = .reset ∧
      ((stepSynthesis w i s).seq.vectorState = .sync0 ∨
        (stepSynthesis w i s).seq.vectorState = .vector0) := by
  cases hr : i.resetI with
  | false => simp [step_low hr]
  | true =>
    rw [(step_reset hs).1, hr, SeqState.clock_reset .preFetch hs hv]
    simp [hs, nextVector]

/-- **No edge but that of IRQ1 loses a request.** -/
theorem Kept.step (h : Kept s (s.matrix.sample i)) (hf : Flags s) (hc : CsrReady s)
    (hno : ¬ WritesMip s) (hi : Starts i s) (hs : s.seq.state ≠ .irq1) :
    Kept (stepSynthesis w i s) (stepSynthesis w i s).matrix := by
  have hmeip := step_meip (w := w) (i := i) hc hno
  rcases h with ht | ⟨hearly, hpending⟩
  · rw [if_pos ht] at hmeip
    by_cases hearly : early (stepSynthesis w i s).seq
    · -- nothing is acknowledged before Vector1
      left
      have hstate := early_step hi hearly
      have hack : resetTrigger s.matrix = false := by
        rw [← Bool.not_eq_true, hf.resetTrigger_iff]
        rintro (h | ⟨-, h⟩) <;> simp_all
      change (stepSynthesis w i s).irq.irqTriggered = true
      rw [step_triggered, hack]
      exact ht
    · exact .inr ⟨hearly, hmeip⟩
  · right
    refine ⟨fun hearly' => hearly ?_, ?_⟩
    · obtain ⟨hs', hv'⟩ := early_step hi hearly'
      exact ⟨hs', hv'.imp_right .inl⟩
    · have hclears : clearsMip s.matrix = false := by
        simp only [clearsMip, inVector0, decide_eq_true_eq, decide_eq_false_iff_not]
        rintro (⟨h, h'⟩ | h)
        · exact hearly ⟨h, .inr (.inl h')⟩
        · exact hs h
      rw [hmeip, hclears, hpending]
      simp

/-- **No request comes up without an edge of `irq_i`.** -/
theorem Silent.step (h : Silent s) (hc : CsrReady s) (hno : ¬ WritesMip s)
    (hfall : i.irqFalls = false) : Silent (stepSynthesis w i s) := by
  have hsample : s.matrix.sample i = s.matrix := by simp [CsrMatrix.sample, hfall]
  have ht : s.matrix.irq.irqTriggered = false := h.triggered
  have hmeip := step_meip (w := w) (i := i) hc hno
  rw [hsample, ht] at hmeip
  constructor
  · rw [step_triggered, hsample, ht, ite_self]
  · rcases h.meip with hm | ⟨hs, hv | hv⟩
    · left
      simpa [hm] using hmeip
    · exact .inr (sync0_step hs hv)
    · left
      have hclears : clearsMip s.matrix = true := by simp [clearsMip, inVector0, hs, hv]
      simpa [hclears] using hmeip

/-- A trap that is entered was requested. -/
theorem Silent.not_entered (h : Silent s) : (stepSynthesis w i s).seq.state ≠ .irq0 := by
  intro hs
  cases hr : i.resetI with
  | false =>
    rw [step_low hr] at hs
    exact MatrixState.noConfusion hs
  | true =>
    obtain ⟨hpre, ha⟩ := irq0_step hs
    rcases h.meip with hm | ⟨hreset, -⟩
    · have hm' : s.matrix.csrs.mip.getLsbD Csr.mipMEIP = false := hm
      simp [accepts, CsrRegs.irqPending, hm'] at ha
    · exact MatrixState.noConfusion (hreset.symm.trans hpre)

end Flags

/-! ## Runs from power-up -/

/-- `irq_i` may fall at any time. Reset is low for the first `k` edges and then high, and the
program never writes mip. -/
structure PowerUpRun (w : Wiring) (s : CsrCore) (inp : ℕ → Input) (k : ℕ) : Prop where
  seq : s.seq = { state := .reset, vectorState := .sync0, irState := .itLoad }
  triggered : s.irq.irqTriggered = false
  resetTrigger : s.irq.irqResetTrigger = false
  low : ∀ j < k, (inp j).resetI = false
  high : ∀ j, k ≤ j → (inp j).resetI = true
  mip : ∀ n, ¬ WritesMip (trace (stepSynthesis w) s inp n)

section Run
variable {w : Wiring} {s : CsrCore} {inp : ℕ → Input} {k : ℕ}

namespace PowerUpRun

theorem starts (h : PowerUpRun w s inp k) (n : ℕ) :
    Starts (inp n) (trace (stepSynthesis w) s inp n) := by
  rcases Nat.lt_or_ge n k with hn | hn
  · right
    cases n with
    | zero =>
      rw [trace_zero, h.seq]
      exact ⟨rfl, rfl⟩
    | succ n =>
      rw [trace_succ, step_low (h.low n (by omega))]
      exact ⟨rfl, rfl⟩
  · exact .inl (h.high n hn)

theorem flags (h : PowerUpRun w s inp k) (n : ℕ) : Flags (trace (stepSynthesis w) s inp n) := by
  apply trace_invariant
  · refine ⟨?_, ?_, ?_⟩
    · simp [acknowledges, h.seq, h.resetTrigger]
    · exact fun _ => h.triggered
    · simp [h.seq]
  · exact fun n hn => hn.step (h.starts n)

theorem csrReady (h : PowerUpRun w s inp k) (n : ℕ) :
    CsrReady (trace (stepSynthesis w) s inp n) := by
  apply trace_invariant
  · constructor <;> simp [h.seq]
  · exact fun n hn => hn.step

/-- Reset is behind the run once it has left it. -/
theorem not_reset (h : PowerUpRun w s inp k) {m : ℕ}
    (hm : (trace (stepSynthesis w) s inp m).seq.state ≠ .reset) (d : ℕ) :
    (trace (stepSynthesis w) s inp (m + d)).seq.state ≠ .reset := by
  induction d with
  | zero => exact hm
  | succ d ih =>
    rcases h.starts (m + d) with hi | ⟨hs, -⟩
    · exact fun hreset => ih (reset_step hi hreset)
    · exact absurd hs ih

/-- After an acknowledged trap, or from power-up, everything is silent until `irq_i` falls. -/
theorem silent (h : PowerUpRun w s inp k) {m : ℕ}
    (hm : Silent (trace (stepSynthesis w) s inp m)) (d : ℕ)
    (hfall : ∀ j, m ≤ j → j < m + d → (inp j).irqFalls = false) :
    Silent (trace (stepSynthesis w) s inp (m + d)) := by
  induction d with
  | zero => exact hm
  | succ d ih =>
    exact (ih fun j hj hjd => hfall j hj (by omega)).step (h.csrReady _) (h.mip _)
      (hfall (m + d) (by omega) (by omega))

/-- Traps do not nest. -/
theorem mretClr_between (h : PowerUpRun w s inp k) {m n : ℕ} (hmn : m < n)
    (hm : (trace (stepSynthesis w) s inp m).seq.state = .irq0)
    (hn : (trace (stepSynthesis w) s inp n).seq.state = .irq0) :
    ∃ j, m < j ∧ j < n ∧ AtMretClr (trace (stepSynthesis w) s inp j) := by
  obtain ⟨l, rfl⟩ : ∃ l, n = l + 1 := ⟨n - 1, by omega⟩
  have hprog := (h.flags m).irq0 hm
  obtain ⟨-, ha⟩ := irq0_step hn
  have hfree : ¬ (trace (stepSynthesis w) s inp l).irq.interruptInProgress = true := by
    simp only [accepts, Bool.and_eq_true, Bool.not_eq_true'] at ha
    simp [ha.2]
  obtain ⟨j, hmj, hjl, hj, hj'⟩ := exists_edge_of_change
    (p := fun x : CsrCore => x.irq.interruptInProgress = true) (Nat.le_of_lt_succ hmn) hprog hfree
  have hreset : (trace (stepSynthesis w) s inp j).seq.state ≠ .reset := by
    obtain ⟨d, rfl⟩ : ∃ d, j = m + d := ⟨j - m, by omega⟩
    exact h.not_reset (by rw [hm]; exact MatrixState.noConfusion) d
  have hclr := inProgress_lost hj hreset hj'
  refine ⟨j, ?_, by omega, hclr⟩
  rcases Nat.lt_or_eq_of_le hmj with hlt | rfl
  · exact hlt
  · exact MatrixState.noConfusion (hm.symm.trans hclr.1)

/-- The states of the entry after IRQ0. -/
theorem entry_states (h : PowerUpRun w s inp k) {m : ℕ}
    (hm : (trace (stepSynthesis w) s inp m).seq.state = .irq0) :
    (trace (stepSynthesis w) s inp (m + 1)).seq.state = .irq1 ∧
      (trace (stepSynthesis w) s inp (m + 2)).seq.state = .irq2 := by
  have hne : (trace (stepSynthesis w) s inp m).seq.state ≠ .reset := by
    rw [hm]
    exact MatrixState.noConfusion
  have h1 : (trace (stepSynthesis w) s inp (m + 1)).seq.state = .irq1 := by
    have hnext := leadsTo (w := w) (s := trace (stepSynthesis w) s inp m)
      ((h.starts m).resolve_right fun hr => hne hr.1)
    unfold LeadsTo at hnext
    rwa [hm] at hnext
  refine ⟨h1, ?_⟩
  have hne1 := h.not_reset hne 1
  have hnext := leadsTo (w := w) (s := trace (stepSynthesis w) s inp (m + 1))
    ((h.starts (m + 1)).resolve_right fun hr => hne1 hr.1)
  unfold LeadsTo at hnext
  rwa [h1] at hnext

/-- IRQ1 takes back the request that it answers. -/
theorem silent_irq1 (h : PowerUpRun w s inp k) {n : ℕ}
    (hn : (trace (stepSynthesis w) s inp n).seq.state = .irq1) :
    Silent (trace (stepSynthesis w) s inp (n + 1)) := by
  have htrigger := (h.flags n).trigger.mpr (.inl hn)
  have hcleared := (h.flags n).cleared htrigger
  have hsample : ((trace (stepSynthesis w) s inp n).matrix.sample (inp n)).irq.irqTriggered =
      false := by
    have htrigger' : (trace (stepSynthesis w) s inp n).matrix.irq.irqResetTrigger = true := htrigger
    unfold CsrMatrix.sample
    split
    · simp [IrqRegs.fall, htrigger']
    · exact hcleared
  have hmeip := step_meip (w := w) (i := inp n) (h.csrReady n) (h.mip n)
  rw [hsample] at hmeip
  constructor
  · rw [trace_succ, step_triggered, hsample, ite_self]
  · left
    have hclears : clearsMip (trace (stepSynthesis w) s inp n).matrix = true := by
      simp [clearsMip, hn]
    rw [trace_succ]
    simpa [hclears] using hmeip

/-- No trap is spurious. -/
theorem fall_between (h : PowerUpRun w s inp k) {m n : ℕ} (hmn : m < n)
    (hm : (trace (stepSynthesis w) s inp m).seq.state = .irq0)
    (hn : (trace (stepSynthesis w) s inp n).seq.state = .irq0) :
    ∃ j, m + 2 ≤ j ∧ j < n ∧ (inp j).irqFalls = true := by
  obtain ⟨h1, h2⟩ := h.entry_states hm
  obtain ⟨d, rfl⟩ : ∃ d, n = m + 2 + d + 1 := by
    refine ⟨n - (m + 3), ?_⟩
    by_contra hne
    obtain rfl | rfl : n = m + 1 ∨ n = m + 2 := by omega
    · exact MatrixState.noConfusion (h1.symm.trans hn)
    · exact MatrixState.noConfusion (h2.symm.trans hn)
  by_contra hno
  push Not at hno
  refine (h.silent (h.silent_irq1 h1) d ?_).not_entered hn
  intro j hj hjd
  simpa using hno j hj (by omega)

theorem fall_before (h : PowerUpRun w s inp k) {n : ℕ}
    (hn : (trace (stepSynthesis w) s inp n).seq.state = .irq0) :
    ∃ j < n, (inp j).irqFalls = true := by
  obtain ⟨d, rfl⟩ : ∃ d, n = 0 + d + 1 := by
    refine ⟨n - 1, ?_⟩
    by_contra hne
    obtain rfl : n = 0 := by omega
    rw [trace_zero, h.seq] at hn
    exact MatrixState.noConfusion hn
  by_contra hno
  push Not at hno
  refine (h.silent (m := 0) ⟨h.triggered, .inr ?_⟩ d ?_).not_entered hn
  · rw [trace_zero, h.seq]
    exact ⟨rfl, .inl rfl⟩
  · intro j _ hjd
    simpa using hno j (by omega)

/-- No edge of `irq_i` is lost. -/
theorem requested_until (h : PowerUpRun w s inp k) {n : ℕ} (hfall : (inp n).irqFalls = true)
    (ht : (trace (stepSynthesis w) s inp n).irq.irqResetTrigger = false) (d : ℕ)
    (hno : ∀ j, n ≤ j → j < n + d → (trace (stepSynthesis w) s inp j).seq.state ≠ .irq1) :
    Kept (trace (stepSynthesis w) s inp (n + d))
      ((trace (stepSynthesis w) s inp (n + d)).matrix.sample (inp (n + d))) := by
  induction d with
  | zero =>
    left
    have ht' : (trace (stepSynthesis w) s inp n).matrix.irq.irqResetTrigger = false := ht
    simp [CsrMatrix.sample, hfall, IrqRegs.fall, ht']
  | succ d ih =>
    have hkept := (ih fun j hj hjd => hno j hj (by omega)).step (w := w) (h.flags _) (h.csrReady _)
      (h.mip _) (h.starts _) (hno (n + d) (by omega) (by omega))
    exact hkept.sample rfl (h.flags (n + d + 1))

end PowerUpRun

/-- The interrupt protocol of a run that comes out of reset at the edge `k`: traps do not nest, each
of them has an edge of `irq_i` of its own, and none of these edges is lost. -/
structure Protocol (w : Wiring) (s : CsrCore) (inp : ℕ → Input) (k : ℕ) : Prop where
  notNested : ∀ m n, m < n → (trace (stepSynthesis w) s inp m).seq.state = .irq0 →
    (trace (stepSynthesis w) s inp n).seq.state = .irq0 →
    ∃ j, m < j ∧ j < n ∧ AtMretClr (trace (stepSynthesis w) s inp j)
  notSpurious : ∀ n, (trace (stepSynthesis w) s inp n).seq.state = .irq0 →
    (∃ j, k ≤ j ∧ j < n ∧ (inp j).irqFalls = true) ∧
    ∀ m < n, (trace (stepSynthesis w) s inp m).seq.state = .irq0 →
      ∃ j, m + 2 ≤ j ∧ j < n ∧ (inp j).irqFalls = true
  notLost : ∀ n d, (inp n).irqFalls = true →
    (trace (stepSynthesis w) s inp n).irq.irqResetTrigger = false →
    (∀ j, n ≤ j → j < n + d → (trace (stepSynthesis w) s inp j).seq.state ≠ .irq1) →
    requested ((trace (stepSynthesis w) s inp (n + d)).matrix.sample (inp (n + d)))

/-- **The interrupt protocol** of every run in which `irq_i` does not fall while reset is low. -/
theorem interrupt_protocol (h : PowerUpRun w s inp k)
    (hlow : ∀ j < k, (inp j).irqFalls = false) : Protocol w s inp k where
  notNested _ _ hmn hm hn := h.mretClr_between hmn hm hn
  notSpurious n hn := by
    obtain ⟨j, hjn, hj⟩ := h.fall_before hn
    have hkj : k ≤ j := by
      by_contra hlt
      simp [hlow j (by omega)] at hj
    exact ⟨⟨j, hkj, hjn, hj⟩, fun m hmn hm => h.fall_between hmn hm hn⟩
  notLost _ d hfall ht hno := (h.requested_until hfall ht d hno).requested
    (CsrMatrix.sample_csrs _ _)

/-- A processor that halts without having written mip never writes it. -/
theorem not_writesMip_of_halt {m : ℕ} (hhigh : ∀ j, m ≤ j → (inp j).resetI = true)
    (hhalt : (trace (stepSynthesis w) s inp m).seq.state = .halt)
    (hbefore : ∀ j < m, ¬ WritesMip (trace (stepSynthesis w) s inp j)) (n : ℕ) :
    ¬ WritesMip (trace (stepSynthesis w) s inp n) := by
  have hhalted : ∀ d, (trace (stepSynthesis w) s inp (m + d)).seq.state = .halt := by
    intro d
    induction d with
    | zero => exact hhalt
    | succ d ih =>
      have hnext := leadsTo (w := w) (s := trace (stepSynthesis w) s inp (m + d))
        (hhigh (m + d) (by omega))
      unfold LeadsTo at hnext
      rwa [ih] at hnext
  rcases Nat.lt_or_ge n m with hn | hn
  · exact hbefore n hn
  · obtain ⟨d, rfl⟩ : ∃ d, n = m + d := ⟨n - m, by omega⟩
    rintro ⟨hs, -⟩
    exact MatrixState.noConfusion ((hhalted d).symm.trans hs)

end Run

instance : DecidablePred WritesMip := fun _ => inferInstanceAs (Decidable (_ ∧ _ ∧ _ ∧ _))

/-- Power-up with the memory full of ebreaks, which halt this processor. -/
def halting : CsrCore where
  matrix := {
    seq := { state := .reset, vectorState := .sync0, irState := .itLoad }
    csrs := { mstatus := 0, mie := 0, mip := 0, mepc := 0, mtvec := 0 }
    irq := ⟨false, false, false⟩ }
  dp := Datapath.filled 0x00100073

/-- The reset vector 0 leads to `lui x1, 1`, `addi x1, x1, -2048`, `csrrw x0, mie, x1`,
`csrrwi x0, mtvec, 28`, `csrrsi x0, mstatus, 8`, which let the interrupt in, and then to ebreaks. -/
def enabling : CsrCore :=
  { halting with
    dp := { halting.dp with
      mem := fun a => [4, 0x000010B7, 0x80008093, 0x30409073, 0x305E5073, 0x30046073].getD a.toNat
        0x00100073 } }

/-- Reset is low for one edge, `irq_i` falls before the edge `m`. -/
def fallsAt (m n : ℕ) : Input := ⟨decide (0 < n), decide (n = m)⟩

theorem enabling_run {m : ℕ}
    (hhalt : (trace (stepSynthesis (Wiring.memoryMapped 0 0)) enabling (fallsAt m) 36).seq.state =
      .halt)
    (hmip : ∀ j < 36,
      ¬ WritesMip (trace (stepSynthesis (Wiring.memoryMapped 0 0)) enabling (fallsAt m) j)) :
    PowerUpRun (Wiring.memoryMapped 0 0) enabling (fallsAt m) 1 where
  seq := rfl
  triggered := rfl
  resetTrigger := rfl
  low j hj := decide_eq_false (by omega)
  high j hj := decide_eq_true hj
  mip := not_writesMip_of_halt (fun _ hj => decide_eq_true (by omega)) hhalt hmip

/-- The trap behind the csrrsi has an edge behind the reset. -/
theorem interrupt_protocol_enabling :
    ∃ j, 1 ≤ j ∧ j < 30 ∧ (fallsAt 12 j).irqFalls = true :=
  ((interrupt_protocol (enabling_run (by decide +kernel) (by decide +kernel))
    (by decide)).notSpurious 30 (by decide +kernel)).1

/-- An edge while reset is low is trapped behind the reset: the clear of mip in Vector0 has lost
against the trigger. -/
theorem interrupt_protocol_low :
    ¬ ∀ (undef resetVector : Word) (s : CsrCore) (inp : ℕ → Input) (k : ℕ),
      PowerUpRun (Wiring.memoryMapped undef resetVector) s inp k →
      Protocol (Wiring.memoryMapped undef resetVector) s inp k := by
  intro h
  have hrun : PowerUpRun (Wiring.memoryMapped 0 0) enabling (fallsAt 0) 1 :=
    enabling_run (by decide +kernel) (by decide +kernel)
  obtain ⟨j, hj, -, hfall⟩ := ((h 0 0 enabling (fallsAt 0) 1 hrun).notSpurious 30
    (by decide +kernel)).1
  have hj0 : j = 0 := of_decide_eq_true hfall
  omega

end SynthesisMatrix

end RangerRisc
