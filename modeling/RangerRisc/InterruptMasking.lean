import RangerRisc.HartSteps

/-! With interrupts disabled `irq_i` does not show in `modules/RangerRiscCSRs.sv`: two runs that
differ in it alone go through the same states, edge by edge. -/

namespace RangerRisc

open Clocked

/-- A write leaves the other CSRs, and of mip it leaves nothing. -/
theorem CsrRegs.setMip_write (r : CsrRegs) (b : Bool) (addr : BitVec 12) (data : Word) :
    ((r.setMip b).write addr data).setMip b = (r.write addr data).setMip b := by
  by_cases h : addr = Csr.mip
  · rw [h]
    rfl
  · rw [write_setMip h, setMip_setMip]

namespace ControlMatrixCSRs

/-- The same but for what `irq_i` has triggered, and MEIP. -/
structure Alike (a b : CsrCore) : Prop where
  seq : a.seq = b.seq
  dp : a.dp = b.dp
  csrs : a.csrs.setMip true = b.csrs.setMip true
  inProgress : a.irq.interruptInProgress = b.irq.interruptInProgress

/-- A CSR instruction for mip is in one of its states. -/
def UsesMip (s : CsrCore) : Prop :=
  s.seq.state = .execute ∧ (s.seq.irState = .itCsr ∨ s.seq.irState = .itCsrLd) ∧
    isCSRInstr s.dp.ir ∧ funct12 s.dp.ir = Csr.mip

instance (s : CsrCore) : Decidable (UsesMip s) :=
  inferInstanceAs (Decidable (_ ∧ _))

section Alike
variable {w : Wiring} {i i' : Input} {a b : CsrCore}

theorem moved_setMip (m : CsrMatrix) (state : MatrixState) (irState : InstructionState) :
    (moved m state irState).csrs.setMip true = m.csrs.setMip true := by
  unfold moved
  dsimp only
  split
  · exact m.csrs.setMip_setMip true true
  · rfl

theorem movedWith_setMip (m : CsrMatrix) (irState : InstructionState) (r : CsrRegs) (q : IrqRegs) :
    (movedWith m irState r q).csrs.setMip true = r.setMip true := by
  unfold movedWith
  dsimp only
  split
  · exact r.setMip_setMip true true
  · rfl

theorem Alike.moved (h : Alike a b) (state : MatrixState) (irState : InstructionState)
    (d : Datapath) :
    Alike { matrix := moved (a.matrix.sample i) state irState, dp := d }
      { matrix := moved (b.matrix.sample i') state irState, dp := d } where
  seq := by
    have hseq := h.seq
    simp only [CsrCore.seq] at hseq ⊢
    simp only [ControlMatrixCSRs.moved, CsrMatrix.sample_seq, hseq]
  dp := rfl
  csrs := by
    have hcsrs := h.csrs
    simp only [CsrCore.csrs] at hcsrs ⊢
    rw [moved_setMip, moved_setMip, CsrMatrix.sample_csrs, CsrMatrix.sample_csrs, hcsrs]
  inProgress := by
    change (a.matrix.sample i).irq.interruptInProgress =
        (b.matrix.sample i').irq.interruptInProgress
    rw [CsrMatrix.sample_inProgress, CsrMatrix.sample_inProgress]
    exact h.inProgress

theorem Alike.movedWith (h : Alike a b) (irState : InstructionState) {r r' : CsrRegs}
    (hr : r.setMip true = r'.setMip true) {q q' : IrqRegs}
    (hq : q.interruptInProgress = q'.interruptInProgress) (d : Datapath) :
    Alike { matrix := movedWith (a.matrix.sample i) irState r q, dp := d }
      { matrix := movedWith (b.matrix.sample i') irState r' q', dp := d } where
  seq := by
    have hseq := h.seq
    simp only [CsrCore.seq] at hseq ⊢
    simp only [ControlMatrixCSRs.movedWith, CsrMatrix.sample_seq, hseq]
  dp := rfl
  csrs := by
    simp only [CsrCore.csrs]
    rw [movedWith_setMip, movedWith_setMip, hr]
  inProgress := hq

/-- The CSRs but mip. -/
theorem Alike.read (h : Alike a b) {addr : BitVec 12} (haddr : addr ≠ Csr.mip) :
    a.csrs.read addr = b.csrs.read addr := by
  rw [← CsrRegs.read_setMip a.csrs haddr true, h.csrs, CsrRegs.read_setMip _ haddr]

theorem Alike.mstatus (h : Alike a b) : a.csrs.mstatus = b.csrs.mstatus := by
  have hm := congrArg CsrRegs.mstatus h.csrs
  exact hm

theorem Alike.mtvec (h : Alike a b) : a.csrs.mtvec = b.csrs.mtvec := by
  have hm := congrArg CsrRegs.mtvec h.csrs
  exact hm

theorem Alike.mepc (h : Alike a b) : a.csrs.mepc = b.csrs.mepc := by
  have hm := congrArg CsrRegs.mepc h.csrs
  exact hm

theorem Alike.disabled (h : Alike a b) (hdis : a.csrs.disabled) : b.csrs.disabled := by
  rw [← CsrRegs.disabled_setMip true, ← h.csrs, CsrRegs.disabled_setMip]
  exact hdis

theorem Alike.csrData (h : Alike a b)
    (hmip : ¬ (isCSRInstr a.dp.ir ∧ funct12 a.dp.ir = Csr.mip)) :
    csrData a.matrix a.dp.ir a.dp.rsa = csrData b.matrix a.dp.ir a.dp.rsa := by
  unfold ControlMatrixCSRs.csrData csrDataRead
  by_cases hcsr : isCSRInstr a.dp.ir = true
  · have haddr : funct12 a.dp.ir ≠ Csr.mip := fun he => hmip ⟨hcsr, he⟩
    rw [if_pos hcsr, if_pos hcsr, h.read haddr]
  · rw [if_neg hcsr, if_neg hcsr]
    exact h.mstatus

theorem Alike.write (h : Alike a b) (addr : BitVec 12) (data : Word) :
    (a.csrs.write addr data).setMip true = (b.csrs.write addr data).setMip true := by
  rw [← CsrRegs.setMip_write, h.csrs, CsrRegs.setMip_write]

/-- An edge in Execute. -/
theorem Alike.execute (h : Alike a b) (hi : i.resetI = true) (hi' : i'.resetI = true)
    (hs : a.seq.state = .execute) (hdis : a.csrs.disabled) (hmip : ¬ UsesMip a) :
    Alike (stepCSRs w i a) (stepCSRs w i' b) := by
  have hs' : b.seq.state = .execute := h.seq ▸ hs
  have hshared : shared a.seq.irState → Alike (stepCSRs w i a) (stepCSRs w i' b) := by
    intro hsh
    have hsh' : shared b.seq.irState := h.seq ▸ hsh
    cases hn : executeNext a.seq.irState a.dp.ir with
    | next st =>
      rw [step_next hi hs hsh hn, step_next hi' hs' hsh'
        (by rw [← h.seq, ← h.dp]; exact hn), ← h.seq, ← h.dp]
      exact h.moved _ _ _
    | done =>
      rw [step_done hi hs hsh hn, step_done hi' hs' hsh'
        (by rw [← h.seq, ← h.dp]; exact hn), ← h.seq, ← h.dp]
      exact h.moved _ _ _
  cases hp : a.seq.irState with
  | preFetch =>
    have hp' : b.seq.irState = .preFetch := h.seq ▸ hp
    rw [step_preFetch hi hs hp (accepts_disabled hdis),
      step_preFetch hi' hs' hp' (accepts_disabled (h.disabled hdis)), ← h.dp]
    exact h.moved _ _ _
  | irq0 =>
    have hp' : b.seq.irState = .irq0 := h.seq ▸ hp
    rw [step_irq0 hi hs hp, step_irq0 hi' hs' hp', ← h.dp]
    have hr := congrArg (fun r : CsrRegs => { r with mepc := a.dp.pc }) h.csrs
    refine h.movedWith _ ?_ ?_ _
    · exact hr
    · exact h.inProgress
  | irq1 =>
    have hp' : b.seq.irState = .irq1 := h.seq ▸ hp
    rw [step_irq1 hi hs hp, step_irq1 hi' hs' hp', ← h.dp, ← h.mtvec]
    refine h.movedWith _ h.csrs ?_ _
    exact h.inProgress
  | irq2 =>
    have hp' : b.seq.irState = .irq2 := h.seq ▸ hp
    rw [step_irq2 hi hs hp, step_irq2 hi' hs' hp', ← h.dp]
    exact h.moved _ _ _
  | itMret =>
    have hp' : b.seq.irState = .itMret := h.seq ▸ hp
    rw [step_itMret hi hs hp, step_itMret hi' hs' hp', ← h.dp, ← h.mepc]
    exact h.moved _ _ _
  | itMretClr =>
    have hp' : b.seq.irState = .itMretClr := h.seq ▸ hp
    rw [step_itMretClr hi hs hp, step_itMretClr hi' hs' hp', ← h.dp]
    have hr := congrArg (fun r : CsrRegs => { r with mstatus := mretStatus r.mstatus }) h.csrs
    refine h.movedWith _ ?_ ?_ _
    · rw [CsrRegs.setMip_setMip, CsrRegs.setMip_setMip]
      exact hr
    · rfl
  | itCsr =>
    have hp' : b.seq.irState = .itCsr := h.seq ▸ hp
    have hdata := h.csrData fun hcsr => hmip ⟨hs, .inl hp, hcsr⟩
    cases ha : action a.dp.ir with
    | write =>
      rw [step_itCsr_write hi hs hp ha, step_itCsr_write hi' hs' hp'
        (by rw [← h.dp]; exact ha), ← h.dp, ← hdata]
      refine h.movedWith _ (h.write _ _) ?_ _
      rw [CsrMatrix.sample_inProgress, CsrMatrix.sample_inProgress]
      exact h.inProgress
    | skip =>
      rw [step_itCsr_skip hi hs hp ha, step_itCsr_skip hi' hs' hp'
        (by rw [← h.dp]; exact ha), ← h.dp]
      exact h.moved _ _ _
    | transfer =>
      rw [step_itCsr_transfer hi hs hp ha,
        step_itCsr_transfer hi' hs' hp' (by rw [← h.dp]; exact ha), ← h.dp, ← hdata]
      exact h.moved _ _ _
    | unknown =>
      rw [step_itCsr_unknown hi hs hp ha, step_itCsr_unknown hi' hs' hp' (by rw [← h.dp]; exact ha),
        ← h.dp]
      exact h.moved _ _ _
  | itCsrLd =>
    have hp' : b.seq.irState = .itCsrLd := h.seq ▸ hp
    have hdata := h.csrData fun hcsr => hmip ⟨hs, .inr hp, hcsr⟩
    rw [step_itCsrLd hi hs hp, step_itCsrLd hi' hs' hp', ← h.dp, ← hdata]
    refine h.movedWith _ (h.write _ _) ?_ _
    rw [CsrMatrix.sample_inProgress, CsrMatrix.sample_inProgress]
    exact h.inProgress
  | itEbreak | itECall =>
    have hp' := h.seq ▸ hp
    rw [step_wait hi hs (by rw [hp]; decide), step_wait hi' hs' (by rw [hp']; decide),
      ← h.seq, ← h.dp]
    exact h.moved _ _ _
  | stMemRrd | btCmpl | utCmpl | utAuiCmpl | irUnknown =>
    have hp' := h.seq ▸ hp
    rw [step_stray hi hs (by rw [hp]; rfl), step_stray hi' hs' (by rw [hp']; rfl), ← h.dp]
    exact h.moved _ _ _
  | _ => exact hshared (by rw [hp]; rfl)

/-- Reset changes no more than the sequencer, unless it has begun. -/
theorem step_low {s : CsrCore} (hs : s.seq.state ≠ .reset) (falls : Bool) :
    stepCSRs w ⟨false, falls⟩ s =
      { matrix :=
          { (stepCSRs w ⟨true, falls⟩ s).matrix with
            seq := { s.seq with state := .reset, vectorState := .sync0 } }
        dp := (stepCSRs w ⟨true, falls⟩ s).dp } := by
  have hsample : s.matrix.sample ⟨false, falls⟩ = s.matrix.sample ⟨true, falls⟩ := rfl
  have hcomb : ∀ ir flags rsa pc, comb (s.matrix.sample ⟨true, falls⟩) ir flags rsa pc false =
      comb (s.matrix.sample ⟨true, falls⟩) ir flags rsa pc true := by
    intro ir flags rsa pc
    unfold comb
    rw [CsrMatrix.sample_seq]
    cases hst : s.seq.state with
    | reset => exact absurd hst hs
    | _ => rfl
  simp only [stepCSRs, hsample, hcomb, clock, SeqState.clock_low, CsrMatrix.sample_seq]

/-- An edge outside Execute drives no CSR signal. -/
theorem step_quiet {s : CsrCore} {o : Outputs} (ho : outputs i s = quietly i s o)
    (hs : s.seq.state ≠ .execute) :
    (stepCSRs w i s).seq = s.seq.clock o i.resetI ∧ (stepCSRs w i s).dp = s.dp.clock w o.control ∧
      (stepCSRs w i s).csrs.setMip true = s.csrs.setMip true ∧
      (stepCSRs w i s).irq.interruptInProgress =
        if s.seq.state = .reset then false else s.irq.interruptInProgress := by
  rw [step_eq ho]
  refine ⟨?_, rfl, ?_, ?_⟩
  · change (s.matrix.sample i).seq.clock o i.resetI = _
    rw [CsrMatrix.sample_seq]
  · have hclears : clearsMip (s.matrix.sample i) = false := by
      simp [clearsMip, hs]
    change (latchMip _ (CsrRegs.clock _ _)).setMip true = _
    rw [latchMip, hclears, CsrRegs.clock, CsrMatrix.sample_csrs]
    split
    · exact s.csrs.setMip_setMip true true
    · rfl
  · change inProgress (s.matrix.sample i) _ = _
    unfold inProgress
    rw [CsrMatrix.sample_seq, CsrMatrix.sample_inProgress]
    cases hst : s.seq.state with
    | execute => exact absurd hst hs
    | _ => rfl

/-- Outside Execute. -/
theorem Alike.quiet (h : Alike a b) (hreset : i.resetI = i'.resetI) {o : Outputs}
    (ho : outputs i a = quietly i a o) (ho' : outputs i' b = quietly i' b o)
    (hs : a.seq.state ≠ .execute) : Alike (stepCSRs w i a) (stepCSRs w i' b) := by
  obtain ⟨hseq, hdp, hcsrs, hin⟩ := step_quiet (w := w) ho hs
  obtain ⟨hseq', hdp', hcsrs', hin'⟩ := step_quiet (w := w) ho' (by rw [← h.seq]; exact hs)
  refine ⟨?_, ?_, ?_, ?_⟩
  · rw [hseq, hseq', h.seq, hreset]
  · rw [hdp, hdp', h.dp]
  · rw [hcsrs, hcsrs', h.csrs]
  · rw [hin, hin', h.seq, h.inProgress]

/-- **Every edge keeps two runs alike**, as long as interrupts are disabled and no instruction uses
mip. -/
theorem Alike.step (h : Alike a b) (hreset : i.resetI = i'.resetI) (hdis : a.csrs.disabled)
    (hmip : ¬ UsesMip a) : Alike (stepCSRs w i a) (stepCSRs w i' b) := by
  cases hs : a.seq.state with
  | execute =>
    obtain ⟨low, falls⟩ := i
    obtain ⟨low', falls'⟩ := i'
    obtain rfl : low = low' := hreset
    cases low with
    | true => exact h.execute rfl rfl hs hdis hmip
    | false =>
      have hs' : b.seq.state ≠ .reset := by
        rw [← h.seq, hs]
        exact MatrixState.noConfusion
      have hhigh : Alike (stepCSRs w ⟨true, falls⟩ a) (stepCSRs w ⟨true, falls'⟩ b) :=
        h.execute rfl rfl hs hdis hmip
      rw [step_low (by rw [hs]; exact MatrixState.noConfusion), step_low hs']
      refine ⟨?_, hhigh.dp, hhigh.csrs, hhigh.inProgress⟩
      change SeqState.mk _ _ _ = SeqState.mk _ _ _
      rw [h.seq]
  | reset =>
    refine h.quiet hreset (o := resetOut .fetch a.seq.vectorState i.resetI) ?_ ?_ ?_
    · simp [comb, hs]
    · simp [comb, ← h.seq, hs, hreset]
    · simp [hs]
  | fetch =>
    refine h.quiet hreset (o := fetchOut memNotBusy) ?_ ?_ ?_
    · simp [comb, hs]
    · simp [comb, ← h.seq, hs]
    · simp [hs]
  | decode =>
    refine h.quiet hreset (o := decodeOut (csrSystem a.dp.ir) a.dp.ir) ?_ ?_ ?_
    · simp [comb, hs]
    · simp [comb, ← h.seq, hs, h.dp]
    · simp [hs]
  | preFetch | irq0 | irq1 | irq2 | halt =>
    refine h.quiet hreset (o := Outputs.init Control.idle) ?_ ?_ ?_
    · simp [comb, hs]
    · simp [comb, ← h.seq, hs]
    · simp [hs]

end Alike

/-- **With interrupts disabled `irq_i` does not show.** Two runs that differ in `irq_i` alone go
through the same states with the same datapath, edge by edge, as long as the program does not enable
interrupts and does not use mip. -/
theorem irq_invisible {w : Wiring} {s : CsrCore} {inp inp' : ℕ → Input} {n : ℕ}
    (hreset : ∀ k < n, (inp k).resetI = (inp' k).resetI)
    (hdis : ∀ k < n, (trace (stepCSRs w) s inp k).csrs.disabled)
    (hmip : ∀ k < n, ¬ UsesMip (trace (stepCSRs w) s inp k)) :
    (trace (stepCSRs w) s inp' n).seq = (trace (stepCSRs w) s inp n).seq ∧
      (trace (stepCSRs w) s inp' n).dp = (trace (stepCSRs w) s inp n).dp ∧
      ∀ addr ≠ Csr.mip, (trace (stepCSRs w) s inp' n).csrs.read addr =
        (trace (stepCSRs w) s inp n).csrs.read addr := by
  have halike : ∀ k ≤ n, Alike (trace (stepCSRs w) s inp k) (trace (stepCSRs w) s inp' k) := by
    intro k
    induction k with
    | zero => exact fun _ => ⟨rfl, rfl, rfl, rfl⟩
    | succ k ih =>
      intro hk
      exact (ih (Nat.le_of_succ_le hk)).step (hreset k hk) (hdis k hk) (hmip k hk)
  have h := halike n (Nat.le_refl n)
  exact ⟨h.seq.symm, h.dp.symm, fun addr haddr => (h.read haddr).symm⟩

/-- Two nops, with `irq_i` falling all the time and with `irq_i` high. -/
theorem irq_invisible_nops :
    (trace (stepCSRs (Wiring.rangerRiscCSRs 0 0)) (resting 0x00000013 ⟨false, false, false⟩)
        (fun _ => ⟨true, true⟩) 8).seq =
      (trace (stepCSRs (Wiring.rangerRiscCSRs 0 0)) (resting 0x00000013 ⟨false, false, false⟩)
        (fun _ => ⟨true, false⟩) 8).seq ∧
    (trace (stepCSRs (Wiring.rangerRiscCSRs 0 0)) (resting 0x00000013 ⟨false, false, false⟩)
        (fun _ => ⟨true, true⟩) 8).dp =
      (trace (stepCSRs (Wiring.rangerRiscCSRs 0 0)) (resting 0x00000013 ⟨false, false, false⟩)
        (fun _ => ⟨true, false⟩) 8).dp ∧
    ∀ addr ≠ Csr.mip,
      (trace (stepCSRs (Wiring.rangerRiscCSRs 0 0)) (resting 0x00000013 ⟨false, false, false⟩)
        (fun _ => ⟨true, true⟩) 8).csrs.read addr =
      (trace (stepCSRs (Wiring.rangerRiscCSRs 0 0)) (resting 0x00000013 ⟨false, false, false⟩)
        (fun _ => ⟨true, false⟩) 8).csrs.read addr :=
  irq_invisible (fun _ _ => rfl) (by unfold CsrRegs.disabled; decide +kernel) (by decide +kernel)

end ControlMatrixCSRs

end RangerRisc
