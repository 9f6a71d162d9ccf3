import RangerRisc.InterruptProtocol
import RangerRisc.Interrupts
import RangerRisc.Transfers

/-! MEIP of mip in the two processors with CSRs: what the hardware does to it at an edge, and
what a CSR instruction that names mip does. -/

namespace RangerRisc

open Clocked BitField

/-! ## CSR instructions that name mip -/

/-- Not in one of the two states of a CSR instruction. -/
def OutsideCsr (q : SeqState) : Prop :=
  q.state = .execute → q.irState ≠ .itCsr ∧ q.irState ≠ .itCsrLd

/-- The two states of a CSR instruction have one in the instruction register. -/
def CsrDecoded (s : CsrCore) : Prop :=
  s.seq.state = .execute → s.seq.irState = .itCsr ∨ s.seq.irState = .itCsrLd → isCSRInstr s.dp.ir

theorem OutsideCsr.decoded {s : CsrCore} (h : OutsideCsr s.seq) : CsrDecoded s := by
  intro hs hp
  rcases hp with hp | hp
  · exact absurd hp (h hs).1
  · exact absurd hp (h hs).2

/-- The states that write a CSR for an instruction: ITCSR for a csrrw to x0, and ITCSRLd. -/
def WritesCsr (s : CsrCore) : Prop :=
  s.seq.state = .execute ∧
    (s.seq.irState = .itCsr ∧ funct3 s.dp.ir = Csr.csrrw ∧ dstRg s.dp.ir = 0#5 ∨
      s.seq.irState = .itCsrLd)

/-- The instruction `ir` asks mip for another MEIP than `meip`. The immediates have no bit 11. -/
def ChangesMeip (ir rsa : Word) (meip : Bool) : Prop :=
  funct12 ir = Csr.mip ∧
    (funct3 ir = Csr.csrrw ∧ rsa.getLsbD Csr.mipMEIP ≠ meip ∨
      funct3 ir = Csr.csrrwi ∧ meip = true ∨
      funct3 ir = Csr.csrrs ∧ rsa.getLsbD Csr.mipMEIP = true ∧ meip = false ∨
      funct3 ir = Csr.csrrc ∧ rsa.getLsbD Csr.mipMEIP = true ∧ meip = true)

open SynthesisMatrix (meip)

theorem csrImmediate_MEIP (ir : Word) : (csrImmediate ir).getLsbD Csr.mipMEIP = false := by
  simp [csrImmediate, Csr.mipMEIP]

/-- What these states write. -/
def csrWritten (s : CsrCore) : Word :=
  if s.seq.irState = .itCsr then s.dp.rsa
  else csrLdData s.dp.ir s.dp.rsa (csrDataRead s.csrs (funct12 s.dp.ir) s.dp.ir s.dp.rsa)

theorem csrWritten_MEIP {s : CsrCore} (hcsr : isCSRInstr s.dp.ir) (hw : WritesCsr s)
    (haddr : funct12 s.dp.ir = Csr.mip) :
    (csrWritten s).getLsbD Csr.mipMEIP ≠ meip s ↔ ChangesMeip s.dp.ir s.dp.rsa (meip s) := by
  have himm := csrImmediate_MEIP s.dp.ir
  have hread : (s.csrs.read 0x344#12).getLsbD Csr.mipMEIP = meip s := rfl
  unfold ChangesMeip csrWritten
  rcases hw.2 with ⟨hp, hf, -⟩ | hp
  · simp [hp, hf, haddr]
  · have hcases : ∀ f : BitVec 3, f = Csr.csrrw ∨ f = Csr.csrrs ∨ f = Csr.csrrc ∨
        f = Csr.csrrwi ∨ f = Csr.csrrsi ∨ f = Csr.csrrci ∨ f = 0b000#3 ∨ f = 0b100#3 := by decide
    rw [if_neg (by rw [hp]; decide)]
    rcases hcases (funct3 s.dp.ir) with hf | hf | hf | hf | hf | hf | hf | hf <;>
      simp [csrLdData, csrDataRead, algoData, hcsr, hf, haddr, himm, hread, BitVec.getLsbD_not]
    all_goals
      cases s.dp.rsa.getLsbD Csr.mipMEIP <;> cases meip s <;> decide

instance : DecidablePred WritesCsr := fun _ => inferInstanceAs (Decidable (_ ∧ (_ ∧ _ ∧ _ ∨ _)))

instance (ir rsa : Word) (meip : Bool) : Decidable (ChangesMeip ir rsa meip) :=
  inferInstanceAs (Decidable (_ ∧ (_ ∨ _ ∨ _ ∨ _)))

/-! ## One edge -/

theorem CsrRegs.mip_clock (o : CsrOutputs) (r : CsrRegs) : (r.clock o).mip =
    if o.writeCSR = true ∧ o.csrAddr = Csr.mip then o.csrData else r.mip := by
  unfold CsrRegs.clock
  by_cases haddr : o.csrAddr = Csr.mip
  · cases o.writeCSR <;> simp [haddr, CsrRegs.write]
  · rw [if_neg fun hw : _ ∧ _ => haddr hw.2]
    cases o.writeCSR with
    | true => exact CsrRegs.write_mip r haddr _
    | false => rfl

/-- MEIP after the write of an edge, from the CSR that the edge writes. -/
theorem clock_meip {s : CsrCore} {o : CsrOutputs} (h : CsrDecoded s)
    (hwrite : WritesCsr s →
      o.writeCSR = true ∧ o.csrAddr = funct12 s.dp.ir ∧ o.csrData = csrWritten s)
    (hother : ¬ WritesCsr s → ¬ (o.writeCSR = true ∧ o.csrAddr = Csr.mip)) :
    (s.csrs.clock o).mip.getLsbD Csr.mipMEIP =
      if WritesCsr s ∧ ChangesMeip s.dp.ir s.dp.rsa (meip s) then !meip s else meip s := by
  rw [CsrRegs.mip_clock]
  by_cases hw : WritesCsr s
  · obtain ⟨hwr, haddr, hdata⟩ := hwrite hw
    have hcsr := h hw.1 (hw.2.imp And.left id)
    rw [hwr, haddr, hdata]
    by_cases hmip : funct12 s.dp.ir = Csr.mip
    · have hiff := csrWritten_MEIP hcsr hw hmip
      by_cases hc : ChangesMeip s.dp.ir s.dp.rsa (meip s)
      · rw [if_pos ⟨rfl, hmip⟩, if_pos ⟨hw, hc⟩]
        exact Bool.eq_not_of_ne (hiff.mpr hc)
      · rw [if_pos ⟨rfl, hmip⟩, if_neg fun h => hc h.2]
        exact not_not.mp fun hne => hc (hiff.mp hne)
    · rw [if_neg fun h => hmip h.2, if_neg fun h => hmip h.2.1]
      rfl
  · rw [if_neg (hother hw), if_neg fun h => hw h.1]
    rfl

/-- An instruction overwrites MEIP at an edge that does not set it anyway. -/
def Overwrites (sets : Bool) (s : CsrCore) : Prop :=
  WritesCsr s ∧ ChangesMeip s.dp.ir s.dp.rsa (meip s) ∧ sets = false

instance (sets : Bool) : DecidablePred (Overwrites sets) :=
  fun _ => inferInstanceAs (Decidable (_ ∧ _ ∧ _))

/-- At an edge with or without a request to set MEIP, and to clear it. -/
theorem edge_iff {s : CsrCore} {sets clears after : Bool}
    (hclears : WritesCsr s → clears = false)
    (hafter : after = if sets then true else if clears then false else
      if WritesCsr s ∧ ChangesMeip s.dp.ir s.dp.rsa (meip s) then !meip s else meip s) :
    (meip s = false → after = true → sets = true) ∧
        (meip s = true → after = false → clears = true) ↔ ¬ Overwrites sets s := by
  unfold Overwrites
  generalize meip s = b at hafter ⊢
  by_cases hw : WritesCsr s
  · rw [hclears hw] at hafter ⊢
    by_cases hc : ChangesMeip s.dp.ir s.dp.rsa b <;> cases sets <;> cases b <;> simp_all
  · cases sets <;> cases clears <;> cases b <;> simp_all

namespace ControlMatrixCSRs
variable {w : Wiring} {i : Input} {s : CsrCore}

/-- The states of a CSR instruction that write, and what. -/
theorem outputs_write (h : CsrDecoded s) (hw : WritesCsr s) :
    (outputs i s).writeCSR = true ∧ (outputs i s).csrAddr = funct12 s.dp.ir ∧
      (outputs i s).csrData = csrWritten s := by
  obtain ⟨hs, ⟨hp, hf, hrd⟩ | hp⟩ := hw
  · have hcsr := h hs (.inl hp)
    have ha : action s.dp.ir = .write := by simp [action, csrAction, hcsr, hf, hrd]
    simp [comb, hs, execute, hp, itCsr, ha, quiet, Outputs.noCsr, csrWritten, csrData, csrDataRead,
      hcsr, hf, hrd]
  · simp [comb, hs, execute, hp, quiet, Outputs.noCsr, csrWritten, csrData]

/-- No other state writes mip. -/
theorem outputs_other (h : CsrDecoded s) (hw : ¬ WritesCsr s) :
    ¬ ((outputs i s).writeCSR = true ∧ (outputs i s).csrAddr = Csr.mip) := by
  cases hs : s.seq.state with
  | execute =>
    cases hp : s.seq.irState with
    | preFetch =>
      cases ha : accepts s.matrix <;>
        simp [comb, hs, execute, hp, preFetch, ha, quiet, Outputs.noCsr]
    | itCsr =>
      have hcsr := h hs (.inl hp)
      have ha : action s.dp.ir ≠ .write := by
        intro ha
        have hrw := csrAction_write ha
        have hrd : dstRg s.dp.ir = 0#5 := by
          by_contra hrd
          simp [action, csrAction, hcsr, hrw, hrd] at ha
        exact hw ⟨hs, .inl ⟨hp, hrw, hrd⟩⟩
      cases ha' : action s.dp.ir with
      | write => exact absurd ha' ha
      | _ => simp [comb, hs, execute, hp, itCsr, ha', quiet, Outputs.noCsr]
    | itCsrLd => exact absurd ⟨hs, .inr hp⟩ hw
    | irq0 | itMretClr => simp [comb, hs, execute, hp, quiet, Outputs.noCsr]
    | _ =>
      simp [comb, hs, execute, hp, quiet, Outputs.noCsr]
      try (split <;> simp)
  | _ => simp [comb, hs, quiet, Outputs.noCsr]

theorem step_meip (h : CsrDecoded s) : meip (stepCSRs w i s) =
    if pends (s.matrix.sample i) then true
    else if clearsMip s.matrix then false
    else if WritesCsr s ∧ ChangesMeip s.dp.ir s.dp.rsa (meip s) then !meip s else meip s := by
  have hclears : clearsMip (s.matrix.sample i) = clearsMip s.matrix := by simp [clearsMip]
  have hmip := clock_meip h (outputs_write (i := i) h) (outputs_other h)
  have hcsrs : (stepCSRs w i s).csrs =
      if pends (s.matrix.sample i) then ((s.matrix.sample i).csrs.clock (outputs i s)).setMip true
      else if clearsMip (s.matrix.sample i) then
        ((s.matrix.sample i).csrs.clock (outputs i s)).setMip false
      else (s.matrix.sample i).csrs.clock (outputs i s) := rfl
  rw [meip, hcsrs, hclears, CsrMatrix.sample_csrs, ← hmip]
  cases pends (s.matrix.sample i) with
  | true => exact CsrRegs.setMip_mip_MEIP _ true
  | false =>
    cases clearsMip s.matrix with
    | true => exact CsrRegs.setMip_mip_MEIP _ false
    | false => rfl

/-- Nothing but Decode and a CSR instruction itself leads to the states of a CSR instruction. -/
theorem CsrDecoded.step (h : CsrDecoded s) : CsrDecoded (stepCSRs w i s) := by
  cases hi : i.resetI with
  | false =>
    have hreset : (stepCSRs w i s).seq.state = .reset := by
      simp [stepCSRs, clock, hi, SeqState.clock_low]
    exact fun hs => MatrixState.noConfusion (hreset.symm.trans hs)
  | true =>
    cases hs : s.seq.state with
    | reset =>
      have hne : (stepCSRs w i s).seq.state ≠ .execute := by
        rw [(step_reset hs).1, hi, SeqState.clock_reset .fetch hs rfl]
        split
        · exact MatrixState.noConfusion
        · rw [hs]
          exact MatrixState.noConfusion
      exact fun hs' => absurd hs' hne
    | fetch =>
      rw [step_fetch hi hs]
      exact fun hs' => MatrixState.noConfusion hs'
    | decode =>
      rw [step_decode hi hs]
      intro _ hp
      rw [CsrCore.seq, moved] at hp
      have hir : (s.dp.clock w decodeControl).ir = s.dp.ir := Datapath.clock_ir rfl
      rw [hir]
      exact (decodeNext_csr s.dp.ir).1 (hp.resolve_right (decodeNext_csr s.dp.ir).2)
    | execute =>
      cases executeEdge (w := w) hi hs with
      | next s' _ hn h' =>
        rw [h']
        have hsh := executeNext_shared hn
        intro _ hp
        rcases hp with rfl | rfl <;> exact Bool.noConfusion hsh
      | transfer hp _ h' =>
        rw [h']
        have hir : (s.dp.clock w (transferControl (csrData s.matrix s.dp.ir s.dp.rsa))).ir =
            s.dp.ir := Datapath.clock_ir rfl
        intro _ _
        rw [hir]
        exact h hs (.inl hp)
      | idle s' hp h' =>
        rw [h']
        intro _ hp'
        rcases hp with rfl | ⟨rfl | rfl, -⟩ <;> rcases hp' with hp' | hp' <;>
          exact InstructionState.noConfusion hp'
      | preFetch _ _ h' | irq2 _ h' | unknown _ _ h' =>
        rw [h']
        exact fun hs' => MatrixState.noConfusion hs'
      | done _ _ h' | csrWrite _ _ h' | csrSkip _ _ h' | csrLd _ h' | itMretClr _ h' =>
        rw [h']
        exact OutsideCsr.decoded fun _ => ⟨InstructionState.noConfusion,
          InstructionState.noConfusion⟩
      | accept _ _ h' | irq0 _ h' | irq1 _ h' | itMret _ h' =>
        rw [h']
        exact OutsideCsr.decoded fun _ => ⟨InstructionState.noConfusion,
          InstructionState.noConfusion⟩
    | preFetch | irq0 | irq1 | irq2 | halt =>
      have hreset : (stepCSRs w i s).seq.state = .reset := by
        simp [stepCSRs, comb, hs, clock, hi, SeqState.clock, quiet, Outputs.noCsr, Outputs.init]
      exact fun hs' => MatrixState.noConfusion (hreset.symm.trans hs')

end ControlMatrixCSRs

namespace SynthesisMatrix
variable {w : Wiring} {i : Input} {s : CsrCore}

theorem step_rsa (hw : w.rsaLd rgLdDisabled = rgLdDisabled) (hs : s.seq.state = .execute)
    (hp : s.seq.irState = .itCsr ∨ s.seq.irState = .itCsrLd) :
    (stepSynthesis w i s).dp.rsa = s.dp.rsa := by
  have hld : (outputsOn i s s.dp).control.rsaLd = rgLdDisabled := by
    rcases hp with hp | hp
    · cases ha : action s.dp.ir <;>
        simp [comb, main, hs, execute, hp, itCsr, ha, quiet, Outputs.noCsr, leaveOut, executeOut,
          Outputs.init, csrControl, Control.idle]
    · simp [comb, main, hs, execute, hp, quiet, Outputs.noCsr, leaveOut, Outputs.init, csrControl,
        Control.idle]
  change (s.dp.clock w (outputsOn i s s.dp).control).rsa = s.dp.rsa
  simp [Datapath.clock, register, hld, hw]

theorem outputs_write (hld : w.rsaLd rgLdDisabled = rgLdDisabled) (h : CsrReady s)
    (hw : WritesCsr s) :
    (outputs w i s).writeCSR = true ∧ (outputs w i s).csrAddr = funct12 s.dp.ir ∧
      (outputs w i s).csrData = csrWritten s := by
  obtain ⟨hs, hp⟩ := hw
  have hp' : s.seq.irState = .itCsr ∨ s.seq.irState = .itCsrLd := hp.imp_left And.left
  have hir := step_ir (w := w) (i := i) hs hp'
  have hrsa := step_rsa (i := i) hld hs hp'
  have hcsr := h.csr hs hp'
  refine ⟨?_, outputs_csrAddr hs hp', ?_⟩
  · rcases hp with ⟨hp, hf, hrd⟩ | hp
    · have ha : action s.dp.ir = .write := by simp [action, csrAction, hf, hrd]
      simp [outputs, comb, main, hs, execute, hp, itCsr, hir, ha, quiet, Outputs.noCsr]
    · simp [outputs, comb, main, hs, execute, hp, quiet, Outputs.noCsr]
  · rcases hp with ⟨hp, hf, hrd⟩ | hp
    · have ha : action s.dp.ir = .write := by simp [action, csrAction, hf, hrd]
      simp [outputs, comb, main, hs, execute, hp, itCsr, hir, hrsa, ha, quiet, Outputs.noCsr,
        csrWritten, csrData, csrDataRead, hcsr, hf, hrd]
    · rw [outputs_csrLd hs hp, csrWritten, if_neg (by rw [hp]; decide), hrsa]

theorem outputs_other (hw : ¬ WritesCsr s) :
    ¬ ((outputs w i s).writeCSR = true ∧ (outputs w i s).csrAddr = Csr.mip) := by
  rintro ⟨hwrite, haddr⟩
  rcases outputs_writeCSR hwrite with ⟨-, hne⟩ | ⟨hs, ⟨hp, ha⟩ | hp⟩
  · exact hne haddr
  · rw [step_ir hs (.inl hp)] at ha
    have hrw := csrAction_write ha
    have hrd : dstRg s.dp.ir = 0#5 := by
      by_contra hrd
      simp [action, csrAction, hrw, hrd] at ha
    exact hw ⟨hs, .inl ⟨hp, hrw, hrd⟩⟩
  · exact hw ⟨hs, .inr hp⟩

theorem step_meip_written (hld : w.rsaLd rgLdDisabled = rgLdDisabled) (h : CsrReady s) :
    meip (stepSynthesis w i s) =
      if (s.matrix.sample i).irq.irqTriggered then true
      else if clearsMip s.matrix then false
      else if WritesCsr s ∧ ChangesMeip s.dp.ir s.dp.rsa (meip s) then !meip s else meip s := by
  have hclears : clearsMip (s.matrix.sample i) = clearsMip s.matrix := by
    simp [clearsMip, inVector0]
  have hmip := clock_meip h.csr (outputs_write (i := i) hld h) (outputs_other (w := w) (i := i))
  rw [← hmip, meip, CsrCore.csrs, step_matrix, clock, latchMip, hclears]
  cases (s.matrix.sample i).irq.irqTriggered with
  | true => cases inVector0 (s.matrix.sample i) <;> simp
  | false =>
    cases clearsMip s.matrix <;> cases inVector0 (s.matrix.sample i) <;> simp

end SynthesisMatrix

/-! ## Runs -/

/-- At edge `n` of a run MEIP goes up only where a latched request sets it, latched by an edge of
`irq_i` in the run or before it, and down only where the processor clears it. -/
structure MeipByHardware (step : Input → CsrCore → CsrCore) (sets clears : CsrMatrix → Bool)
    (s : CsrCore) (inp : ℕ → Input) (n : ℕ) : Prop where
  rises : meip (trace step s inp n) = false → meip (trace step s inp (n + 1)) = true →
    sets ((trace step s inp n).matrix.sample (inp n)) = true ∧
      (s.irq.irqTriggered = true ∨ ∃ j ≤ n, (inp j).irqFalls = true)
  falls : meip (trace step s inp n) = true → meip (trace step s inp (n + 1)) = false →
    clears (trace step s inp n).matrix = true

section Run
variable {step : Input → CsrCore → CsrCore} {s : CsrCore} {inp : ℕ → Input}

theorem triggered_sample {i : Input} {m : CsrMatrix} (h : (m.sample i).irq.irqTriggered = true) :
    m.irq.irqTriggered = true ∨ i.irqFalls = true := by
  cases hf : i.irqFalls with
  | true => exact .inr rfl
  | false =>
    rw [CsrMatrix.sample_calm _ hf] at h
    exact .inl h

/-- A request that is latched has an edge of `irq_i` behind it. -/
theorem fall_of_triggered
    (hstep : ∀ i x, (step i x).irq.irqTriggered = true →
      (x.matrix.sample i).irq.irqTriggered = true) {n : ℕ}
    (h : ((trace step s inp n).matrix.sample (inp n)).irq.irqTriggered = true) :
    s.irq.irqTriggered = true ∨ ∃ j ≤ n, (inp j).irqFalls = true := by
  induction n with
  | zero => exact (triggered_sample h).imp_right fun hf => ⟨0, Nat.le_refl 0, hf⟩
  | succ n ih =>
    rcases triggered_sample h with ht | hf
    · exact (ih (hstep _ _ ht)).imp_right fun ⟨j, hj, hf⟩ => ⟨j, Nat.le_succ_of_le hj, hf⟩
    · exact .inr ⟨n + 1, Nat.le_refl _, hf⟩

theorem clock_triggered {r : IrqRegs} {t p : Bool} (h : (r.clock t p).irqTriggered = true) :
    r.irqTriggered = true := by
  simp only [IrqRegs.clock] at h
  split at h
  · exact Bool.noConfusion h
  · exact h

/-- The law of one edge over a run. -/
theorem meipByHardware_iff {sets clears : CsrMatrix → Bool}
    (hstep : ∀ i x, (step i x).irq.irqTriggered = true →
      (x.matrix.sample i).irq.irqTriggered = true)
    (hsets : ∀ m, sets m = true → m.irq.irqTriggered = true)
    (hclears : ∀ x : CsrCore, WritesCsr x → clears x.matrix = false) {n : ℕ} {x : CsrCore}
    (hx : trace step s inp n = x)
    (hmeip : meip (step (inp n) x) = if sets (x.matrix.sample (inp n)) then true
      else if clears x.matrix then false
      else if WritesCsr x ∧ ChangesMeip x.dp.ir x.dp.rsa (meip x) then !meip x else meip x) :
    MeipByHardware step sets clears s inp n ↔ ¬ Overwrites (sets (x.matrix.sample (inp n))) x := by
  subst hx
  have hfall : sets ((trace step s inp n).matrix.sample (inp n)) = true →
      s.irq.irqTriggered = true ∨ ∃ j ≤ n, (inp j).irqFalls = true :=
    fun h => fall_of_triggered hstep (hsets _ h)
  rw [← edge_iff (hclears _) hmeip]
  exact ⟨fun h => ⟨fun h0 h1 => (h.rises h0 h1).1, h.falls⟩,
    fun h => ⟨fun h0 h1 => ⟨h.1 h0 h1, hfall (h.1 h0 h1)⟩, h.2⟩⟩

end Run

theorem ControlMatrixCSRs.clearsMip_of_writes {s : CsrCore} (hw : WritesCsr s) :
    clearsMip s.matrix = false := by
  have hne : s.seq.irState ≠ .itMretClr := by
    rcases hw.2 with ⟨hp, -⟩ | hp <;> rw [hp] <;> decide
  exact decide_eq_false fun h => hne h.2

theorem SynthesisMatrix.clearsMip_of_writes {s : CsrCore} (hw : WritesCsr s) :
    clearsMip s.matrix = false := by
  have hs : s.matrix.seq.state = .execute := hw.1
  simp [clearsMip, inVector0, hs]

/-- **MEIP belongs to the hardware**, at every edge of every run of the two processors, exactly as
long as no instruction overwrites it. -/
theorem meip_read_only {undef resetVector : Word} {s : CsrCore} {inp : ℕ → Input}
    (hs : OutsideCsr s.seq) (n : ℕ) :
    (MeipByHardware (stepCSRs (Wiring.rangerRiscCSRs undef resetVector))
        ControlMatrixCSRs.pends ControlMatrixCSRs.clearsMip s inp n ↔
      ¬ Overwrites (ControlMatrixCSRs.pends ((trace (stepCSRs
          (Wiring.rangerRiscCSRs undef resetVector)) s inp n).matrix.sample (inp n)))
        (trace (stepCSRs (Wiring.rangerRiscCSRs undef resetVector)) s inp n)) ∧
    (MeipByHardware (stepSynthesis (Wiring.memoryMapped undef resetVector))
        (fun m => m.irq.irqTriggered) SynthesisMatrix.clearsMip s inp n ↔
      ¬ Overwrites ((trace (stepSynthesis (Wiring.memoryMapped undef resetVector)) s inp
          n).matrix.sample (inp n)).irq.irqTriggered
        (trace (stepSynthesis (Wiring.memoryMapped undef resetVector)) s inp n)) := by
  have hdec : CsrDecoded (trace (stepCSRs (Wiring.rangerRiscCSRs undef resetVector)) s inp n) := by
    apply trace_invariant (p := CsrDecoded) hs.decoded
    exact fun k h => ControlMatrixCSRs.CsrDecoded.step h
  have hready : SynthesisMatrix.CsrReady s :=
    ⟨hs.decoded, fun hx hp => absurd hp (hs hx).2⟩
  have hready' : SynthesisMatrix.CsrReady
      (trace (stepSynthesis (Wiring.memoryMapped undef resetVector)) s inp n) := by
    apply trace_invariant (p := SynthesisMatrix.CsrReady) hready
    exact fun k h => h.step
  constructor
  · exact meipByHardware_iff (fun _ _ => clock_triggered) (fun _ h => (Bool.and_eq_true_iff.mp h).1)
      (fun _ => ControlMatrixCSRs.clearsMip_of_writes) rfl (ControlMatrixCSRs.step_meip hdec)
  · exact meipByHardware_iff (fun _ _ => clock_triggered) (fun _ h => h)
      (fun _ => SynthesisMatrix.clearsMip_of_writes) rfl
      (SynthesisMatrix.step_meip_written rfl hready')

/-- `csrrw x0, mip, x1` in every word, x1 has bit 11. -/
def settingMeip (state : MatrixState) (irState : InstructionState) : CsrCore where
  matrix := {
    seq := { state := state, vectorState := .sync0, irState := irState }
    csrs := { mstatus := 0, mie := 0, mip := 0, mepc := 0, mtvec := 0 }
    irq := ⟨false, false, false⟩ }
  dp := { Datapath.filled 0x34409073 with bank := fun r => if r = 1 then 0x800 else 0 }

theorem meip_read_only_preFetch :
    MeipByHardware (stepCSRs (Wiring.rangerRiscCSRs 0 0)) ControlMatrixCSRs.pends
      ControlMatrixCSRs.clearsMip (settingMeip .execute .preFetch) (fun _ => ⟨true, false⟩) 2 :=
  (meip_read_only (fun _ => ⟨InstructionState.noConfusion, InstructionState.noConfusion⟩) 2).1.mpr
    (by decide)

/-- In either processor, from a boundary on, the instruction makes an interrupt pending that no
device has asked for. -/
theorem meip_written :
    (¬ ∀ (undef resetVector : Word) (s : CsrCore) (inp : ℕ → Input), OutsideCsr s.seq → ∀ n,
      MeipByHardware (stepCSRs (Wiring.rangerRiscCSRs undef resetVector)) ControlMatrixCSRs.pends
        ControlMatrixCSRs.clearsMip s inp n) ∧
    ¬ ∀ (undef resetVector : Word) (s : CsrCore) (inp : ℕ → Input), OutsideCsr s.seq → ∀ n,
      MeipByHardware (stepSynthesis (Wiring.memoryMapped undef resetVector))
        (fun m => m.irq.irqTriggered) SynthesisMatrix.clearsMip s inp n := by
  constructor
  · intro h
    have hedge := h 0 0 (settingMeip .execute .preFetch) (fun _ => ⟨true, false⟩)
      (fun _ => ⟨InstructionState.noConfusion, InstructionState.noConfusion⟩) 3
    exact absurd (hedge.rises (by decide) (by decide)).1 (by decide)
  · intro h
    have hedge := h 0 0 (settingMeip .preFetch .itLoad) (fun _ => ⟨true, false⟩)
      (fun h => MatrixState.noConfusion h) 3
    exact absurd (hedge.rises (by decide) (by decide)).1 (by decide)

end RangerRisc
