import RangerRisc.Boundary
import RangerRisc.Reset

/-! Fetch coherence of `modules/RangerRiscCSRs.sv`: Fetch does not read the memory, every way
into it must have done so. One does not, and that is the only one. -/

namespace RangerRisc

open Clocked

namespace ControlMatrixCSRs

/-- A SYSTEM instruction with funct3 = 100 is in the ITCSR state, which leaves for Fetch at once. -/
def StaleExit (s : CsrCore) : Prop :=
  s.seq.state = .execute ∧ s.seq.irState = .itCsr ∧ funct3 s.dp.ir = 0b100#3

instance : DecidablePred StaleExit := fun _ => inferInstanceAs (Decidable (_ ∧ _ ∧ _))

/-- The memory output in Fetch and the instruction register in Decode are the word at pc. -/
structure Coherent (s : CsrCore) : Prop where
  fetch : s.seq.state = .fetch → Ready s.dp.arch s.dp
  decode : s.seq.state = .decode → Fetched s.dp.arch s.dp
  itCsr : s.seq.state = .execute → s.seq.irState = .itCsr → funct3 s.dp.ir ≠ 0b000#3

section Coherent
variable {w : Wiring} {i : Input} {s : CsrCore}

theorem Coherent.of_reset (hs : s.seq.state = .reset) : Coherent s where
  fetch h := MatrixState.noConfusion (hs.symm.trans h)
  decode h := MatrixState.noConfusion (hs.symm.trans h)
  itCsr h := MatrixState.noConfusion (hs.symm.trans h)

theorem Coherent.of_fetch (hs : s.seq.state = .fetch) (h : Ready s.dp.arch s.dp) : Coherent s where
  fetch _ := h
  decode h := MatrixState.noConfusion (hs.symm.trans h)
  itCsr h := MatrixState.noConfusion (hs.symm.trans h)

theorem Coherent.of_decode (hs : s.seq.state = .decode) (h : Fetched s.dp.arch s.dp) :
    Coherent s where
  fetch h := MatrixState.noConfusion (hs.symm.trans h)
  decode _ := h
  itCsr h := MatrixState.noConfusion (hs.symm.trans h)

theorem Coherent.of_execute (hs : s.seq.state = .execute)
    (h : s.seq.irState = .itCsr → funct3 s.dp.ir ≠ 0b000#3) : Coherent s where
  fetch h := MatrixState.noConfusion (hs.symm.trans h)
  decode h := MatrixState.noConfusion (hs.symm.trans h)
  itCsr _ := h

theorem decodeNext_itCsr {ir : Word} (h : decodeNext (csrSystem ir) ir = .itCsr) :
    funct3 ir ≠ 0b000#3 := by
  have hcsr := (decodeNext_csr ir).1 h
  simp only [isCSRInstr, decide_eq_true_eq] at hcsr
  exact hcsr.2

/-- ITCSR knows what to do with all but two values of funct3. -/
theorem action_unknown {ir : Word} (h : action ir = .unknown) :
    funct3 ir = 0b000#3 ∨ funct3 ir = 0b100#3 := by
  have hall : ∀ (a b : Bool) (f : BitVec 3), csrAction a b f = .unknown →
      f = 0b000#3 ∨ f = 0b100#3 := by decide
  exact hall _ _ _ h

theorem Coherent.execute (h : Coherent s) (hok : ¬ StaleExit s) (hi : i.resetI = true)
    (hs : s.seq.state = .execute) : Coherent (stepCSRs w i s) := by
  cases executeEdge (w := w) hi hs with
  | next s' hsh hn h =>
    rw [h]
    apply Coherent.of_execute rfl
    rintro rfl
    exact Bool.noConfusion (executeNext_shared hn)
  | done hsh hn h =>
    rw [h]
    exact Coherent.of_execute rfl InstructionState.noConfusion
  | preFetch hp ha h | irq2 hp h =>
    rw [h]
    exact Coherent.of_fetch rfl (ready_preFetch addOp 0).self
  | accept _ _ h | irq0 _ h | irq1 _ h | itMret _ h | itMretClr _ h | csrWrite _ _ h | csrSkip _ _ h
  | transfer _ _ h | csrLd _ h =>
    rw [h]
    exact Coherent.of_execute rfl InstructionState.noConfusion
  | unknown hp ha _ =>
    rcases action_unknown ha with h0 | h4
    · exact absurd h0 (h.itCsr hs hp)
    · exact absurd ⟨hs, hp, h4⟩ hok
  | idle s' hp h =>
    rw [h]
    apply Coherent.of_execute rfl
    rintro rfl
    rcases hp with hp | ⟨hp | hp, -⟩ <;> exact InstructionState.noConfusion hp

/-- **Every edge keeps it**, but the stale exit. -/
theorem Coherent.step (h : Coherent s) (hok : ¬ StaleExit s) : Coherent (stepCSRs w i s) := by
  cases hi : i.resetI with
  | false =>
    apply Coherent.of_reset
    simp [stepCSRs, clock, hi, SeqState.clock_low]
  | true =>
    cases hs : s.seq.state with
    | reset =>
      obtain ⟨hseq, hdp⟩ := step_reset (w := w) (i := i) hs
      rw [hi] at hseq
      by_cases hv : s.seq.vectorState = .vector3
      · rw [SeqState.clock_reset .fetch hs hv] at hseq
        rw [hv] at hdp
        apply Coherent.of_fetch (by rw [hseq]; rfl)
        rw [hdp]
        exact (vector3_ready s.dp addOp 0).self
      · rw [SeqState.clock_reset .fetch hs rfl, if_neg hv] at hseq
        exact Coherent.of_reset (by rw [hseq]; exact hs)
    | fetch =>
      rw [step_fetch hi hs]
      exact Coherent.of_decode rfl ((h.fetch hs).fetch addOp 0).self
    | decode =>
      rw [step_decode hi hs]
      apply Coherent.of_execute rfl
      intro hp
      change funct3 (s.dp.clock w decodeControl).ir ≠ _
      rw [Datapath.clock_ir rfl]
      exact decodeNext_itCsr hp
    | execute => exact h.execute hok hi hs
    | preFetch | irq0 | irq1 | irq2 | halt =>
      apply Coherent.of_reset
      simp [stepCSRs, comb, hs, clock, hi, SeqState.clock, quiet, Outputs.noCsr, Outputs.init]

/-- **Fetch coherence.** From any state, once reset has been sampled: as long as no SYSTEM
instruction with funct3 = 100 is executed, Decode has the word at pc. -/
theorem fetch_coherent {inp : ℕ → Input} (hreset : (inp 0).resetI = false) {n : ℕ} (hn : 0 < n)
    (hok : ∀ k, 0 < k → k < n → ¬ StaleExit (trace (stepCSRs w) s inp k))
    (hdec : (trace (stepCSRs w) s inp n).seq.state = .decode) :
    (trace (stepCSRs w) s inp n).dp.ir = (trace (stepCSRs w) s inp n).dp.mem
        (Pmmu.wordAddr (trace (stepCSRs w) s inp n).dp.pc) ∧
      (trace (stepCSRs w) s inp n).dp.pcPrior = (trace (stepCSRs w) s inp n).dp.pc := by
  have hstart : Coherent (trace (stepCSRs w) s inp 1) := by
    apply Coherent.of_reset
    simp [trace_succ, stepCSRs, clock, hreset, SeqState.clock_low]
  obtain ⟨m, rfl⟩ : ∃ m, n = 1 + m := ⟨n - 1, by omega⟩
  have hrun : Coherent (trace (stepCSRs w) s inp (1 + m)) := by
    rw [trace_add]
    apply trace_invariant_until hstart _ m (Nat.le_refl m)
    intro k hk hcoh
    rw [← trace_add] at hcoh
    rw [trace_succ, ← trace_add]
    exact hcoh.step (hok (1 + k) (by omega) (by omega))
  have hfetched := hrun.decode hdec
  exact ⟨hfetched.ir_eq, hfetched.pcPrior⟩

/-- After the stale exit the memory output, left from an earlier read, is executed at the next
pc. -/
theorem StaleExit.decode {inp : ℕ → Input} (h : StaleExit s) (hinp : High inp) :
    (trace (stepCSRs w) s inp 2).seq.state = .decode ∧
      (trace (stepCSRs w) s inp 2).dp.ir = s.dp.storage ∧
      (trace (stepCSRs w) s inp 2).dp.pc = s.dp.pc := by
  obtain ⟨hs, hp, hf⟩ := h
  have haction : action s.dp.ir = .unknown := by
    rw [action, hf]
    rfl
  have h1 := step_itCsr_unknown (w := w) (hinp 0) hs hp haction
  have h2 := step_fetch (w := w) (i := inp 1) (s := stepCSRs w (inp 0) s) (hinp 1)
    (by rw [h1]; rfl)
  rw [trace_succ, trace_succ, trace_zero, h2, h1]
  exact ⟨rfl, rfl, rfl⟩

end Coherent

/-- `addi x1, x1, 1` everywhere: decoded for the third time with 2 in x1. -/
theorem fetch_coherent_addi :
    (trace (stepCSRs (Wiring.rangerRiscCSRs 0 0)) (resting 0x00108093 ⟨false, false, false⟩)
        resetOnce 17).dp.ir = 0x00108093 ∧
      (trace (stepCSRs (Wiring.rangerRiscCSRs 0 0)) (resting 0x00108093 ⟨false, false, false⟩)
        resetOnce 17).dp.pcPrior =
      (trace (stepCSRs (Wiring.rangerRiscCSRs 0 0)) (resting 0x00108093 ⟨false, false, false⟩)
        resetOnce 17).dp.pc ∧
      (trace (stepCSRs (Wiring.rangerRiscCSRs 0 0)) (resting 0x00108093 ⟨false, false, false⟩)
        resetOnce 17).dp.bank.read 1 = 2 := by
  have hok : ∀ k < 17, ¬ StaleExit (trace (stepCSRs (Wiring.rangerRiscCSRs 0 0))
      (resting 0x00108093 ⟨false, false, false⟩) resetOnce k) := by decide +kernel
  have hreset : (resetOnce 0).resetI = false := rfl
  have hcoh := fetch_coherent (w := Wiring.rangerRiscCSRs 0 0)
    (s := resting 0x00108093 ⟨false, false, false⟩) hreset (by decide) (fun k _ hk => hok k hk)
    (by decide +kernel)
  exact ⟨hcoh.1.trans (by decide +kernel), hcoh.2, by decide +kernel⟩

/-- The word 0x00004073 almost everywhere: SYSTEM with funct3 = 100. The nop is at word 29, where
the second instruction is. -/
def staleCore : CsrCore :=
  { resting 0x00004073 ⟨false, false, false⟩ with
    dp := { Datapath.filled 0x00004073 with
      mem := fun a => if a = 29#10 then 0x00000013 else 0x00004073 } }

theorem fetch_stale :
    ¬ ∀ (undef resetVector : Word) (s : CsrCore) (inp : ℕ → Input) (n : ℕ),
      (inp 0).resetI = false → 0 < n →
      (trace (stepCSRs (Wiring.rangerRiscCSRs undef resetVector)) s inp n).seq.state = .decode →
      (trace (stepCSRs (Wiring.rangerRiscCSRs undef resetVector)) s inp n).dp.ir =
        (trace (stepCSRs (Wiring.rangerRiscCSRs undef resetVector)) s inp n).dp.mem (Pmmu.wordAddr
          (trace (stepCSRs (Wiring.rangerRiscCSRs undef resetVector)) s inp n).dp.pc) ∧
        (trace (stepCSRs (Wiring.rangerRiscCSRs undef resetVector)) s inp n).dp.pcPrior =
          (trace (stepCSRs (Wiring.rangerRiscCSRs undef resetVector)) s inp n).dp.pc := by
  intro h
  obtain ⟨hir, -⟩ := h 0 0 staleCore resetOnce 10 rfl (by decide) (by decide +kernel)
  exact absurd hir (by decide +kernel)

end ControlMatrixCSRs

end RangerRisc
