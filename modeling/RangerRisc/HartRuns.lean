import RangerRisc.HartSteps

/-! Whole runs of `modules/RangerRiscCSRs.sv` as runs of the hart, and what follows for
interrupts. -/

namespace RangerRisc

open Clocked

namespace ControlMatrixCSRs

section Runs
variable {undef resetVector : Word} {s : CsrCore} {inp : ℕ → Input}

/-- **Refinement.** Whatever the memory holds and whenever `irq_i` falls, the boundaries of a run
are the states of one run of the hart, in the same order and none left out: the run goes from
boundary to boundary as long as the hart does. -/
theorem refines_hart (hinp : High inp) (hr : Rests s) : ∃ arrivals : ℕ → Arrival, ∀ k,
    (∀ h, runs (Hart.step undef) arrivals (hart s) k = some h →
      ∃ n, Tracks (stepWired undef resetVector) AtBoundary Rests hart arrival s inp k h
        (arrivals k) n) ∧
    (runs (Hart.step undef) arrivals (hart s) k = none →
      ∀ n, ¬ Visit (stepWired undef resetVector) AtBoundary s inp k n) :=
  visit_refines hr fun m hm => steps (hinp.shift m) hm

theorem rests_resting (word : Word) (triggered inProgress : Bool) :
    Rests (resting word ⟨triggered, false, inProgress⟩) :=
  .of_preFetch rfl rfl rfl

/-- A run of nops with `irq_i` falling all the time. -/
theorem refines_hart_nops : ∃ arrivals : ℕ → Arrival, ∀ k,
    (∀ h, runs (Hart.step 0) arrivals (hart (resting 0x00000013 ⟨false, false, false⟩)) k = some h →
      ∃ n, Tracks (stepWired 0 0) AtBoundary Rests hart arrival
        (resting 0x00000013 ⟨false, false, false⟩) (fun _ => ⟨true, true⟩) k h (arrivals k) n) ∧
    (runs (Hart.step 0) arrivals (hart (resting 0x00000013 ⟨false, false, false⟩)) k = none →
      ∀ n, ¬ Visit (stepWired 0 0) AtBoundary (resting 0x00000013 ⟨false, false, false⟩)
        (fun _ => ⟨true, true⟩) k n) :=
  refines_hart (fun _ => rfl) (rests_resting _ _ _)

/-! ## Reset -/

theorem reset_disabled {w : Wiring} {i : Input} (hs : s.seq.state = .reset)
    (hdis : s.csrs.disabled) : (stepCSRs w i s).csrs.disabled := by
  have ho : outputs i s = quietly i s (resetOut .fetch s.seq.vectorState i.resetI) := by
    simp [comb, hs]
  rw [step_eq ho]
  change (latchMip _ (CsrRegs.clock _ _)).disabled
  have hkept : (s.matrix.sample i).csrs.clock
      (quietly i s (resetOut .fetch s.seq.vectorState i.resetI)) = s.csrs := by
    simp [CsrRegs.clock, quiet, Outputs.noCsr]
  rw [hkept, latchMip]
  split_ifs
  · exact (CsrRegs.disabled_setMip true).mpr hdis
  · exact (CsrRegs.disabled_setMip false).mpr hdis
  · exact hdis

/-- Reset ends a trap, and leaves the enables and `irq_reset_trigger` as they are. -/
theorem reset_flags {w : Wiring} {i : Input} (hs : s.seq.state = .reset)
    (harmed : s.irq.irqResetTrigger = false) (hdis : s.csrs.disabled) :
    (stepCSRs w i s).irq.irqResetTrigger = false ∧ (stepCSRs w i s).csrs.disabled ∧
      (stepCSRs w i s).irq.interruptInProgress = false := by
  have ho : outputs i s = quietly i s (resetOut .fetch s.seq.vectorState i.resetI) := by
    simp [comb, hs]
  refine ⟨?_, reset_disabled hs hdis, ?_⟩
  · rw [step_eq ho]
    simpa [clock, resetTrigger, hs, IrqRegs.clock] using harmed
  · rw [step_eq ho]
    simp [clock, inProgress, hs, IrqRegs.clock]

/-- From Sync0 to Vector3: the program counter comes from the reset vector. -/
theorem arch_of_reset (hinp : High inp) (hs : s.seq.state = .reset)
    (hv : s.seq.vectorState = .sync0) :
    (trace (stepWired undef resetVector) s inp 4).dp.arch =
      { s.dp.arch with pc := s.dp.mem (Pmmu.wordAddr resetVector) } := by
  have hadr : (Wiring.rangerRiscCSRs undef resetVector).SelectsResetAdr id := fun _ _ _ _ => rfl
  obtain ⟨-, hkeeps, -, hpc⟩ :=
    (resets (Wiring.rangerRiscCSRs undef resetVector)).to_vector3 hadr hinp ⟨hs, hv⟩
  obtain ⟨hbank, hmem⟩ := hkeeps 4 (Nat.le_refl 4)
  ext1
  · exact hpc
  · exact congrArg Bank.toRegFile hbank
  · exact hmem

/-- From Sync0 a run comes to the boundary before its first instruction. -/
theorem rests_of_reset (hinp : High inp) (hs : s.seq.state = .reset)
    (hv : s.seq.vectorState = .sync0) (harmed : s.irq.irqResetTrigger = false)
    (hdis : s.csrs.disabled) :
    Rests (trace (stepWired undef resetVector) s inp 4) ∧
      (trace (stepWired undef resetVector) s inp 4).dp.arch =
        { s.dp.arch with pc := s.dp.mem (Pmmu.wordAddr resetVector) } := by
  have hadr : (Wiring.rangerRiscCSRs undef resetVector).SelectsResetAdr id := fun _ _ _ _ => rfl
  obtain ⟨⟨hs1, hs2, hs3, hs4⟩, -⟩ :=
    (resets (Wiring.rangerRiscCSRs undef resetVector)).to_vector3 hadr hinp ⟨hs, hv⟩
  obtain ⟨ha1, hd1, -⟩ := reset_flags (w := Wiring.rangerRiscCSRs undef resetVector) (i := inp 0) hs
    harmed hdis
  obtain ⟨ha2, hd2, -⟩ := reset_flags (w := Wiring.rangerRiscCSRs undef resetVector) (i := inp 1)
    hs1.1 ha1 hd1
  obtain ⟨ha3, hd3, -⟩ := reset_flags (w := Wiring.rangerRiscCSRs undef resetVector) (i := inp 2)
    hs2.1 ha2 hd2
  obtain ⟨ha4, hd4, hin4⟩ := reset_flags (w := Wiring.rangerRiscCSRs undef resetVector) (i := inp 3)
    hs3.1 ha3 hd3
  have hreset : (trace (stepWired undef resetVector) s inp 4).seq.state = .reset := hs4.1
  refine ⟨⟨.inr hs4, ha4, ?_, ?_⟩, arch_of_reset hinp hs hv⟩
  · exact fun hexec => MatrixState.noConfusion (hreset.symm.trans hexec)
  · exact fun _ => ⟨hin4, accepts_disabled hd4⟩

end Runs

end ControlMatrixCSRs

end RangerRisc
