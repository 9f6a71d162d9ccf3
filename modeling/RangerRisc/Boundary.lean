import RangerRisc.CsrCore
import RangerRisc.Isa

/-! `modules/RangerRiscCSRs.sv` from one instruction boundary to the next: what an
instruction does to the architectural state, and that the CSRs only move when an
interrupt has been latched. -/

namespace RangerRisc

open Clocked

namespace ControlMatrixCSRs

/-- An instruction boundary. -/
def AtPreFetch (s : CsrCore) : Prop := s.seq.state = .execute ∧ s.seq.irState = .preFetch

instance : DecidablePred AtPreFetch := fun _ => inferInstanceAs (Decidable (_ ∧ _))

/-- At a boundary, with everything zero but the memory, which holds `word`, and the flags. -/
def resting (word : Word) (irq : IrqRegs) : CsrCore where
  matrix := {
    seq := { state := .execute, vectorState := .sync0, irState := .preFetch }
    csrs := { mstatus := 0, mie := 0, mip := 0, mepc := 0, mtvec := 0 }
    irq := irq }
  dp := Datapath.filled word

/-- The edge writes no CSR and changes no interrupt flag. -/
def MovesOn (i : Input) (s t : CsrCore) : Prop :=
  ∃ state irState, t.matrix = moved (s.matrix.sample i) state irState

section Chain
variable {w : Wiring} {s : CsrCore} {inp : ℕ → Input}

/-- In Fetch, in Decode or in one of the shared instruction states. -/
def Busy (s : CsrCore) : Prop :=
  s.seq.state = .fetch ∨ s.seq.state = .decode ∨ s.seq.state = .execute ∧ shared s.seq.irState

theorem Busy.movesOn {i : Input} (h : Busy s) (hi : i.resetI = true) :
    MovesOn i s (stepCSRs w i s) := by
  rcases h with hs | hs | ⟨hs, hsh⟩
  · exact ⟨_, _, by rw [step_fetch hi hs]⟩
  · exact ⟨_, _, by rw [step_decode hi hs]⟩
  · cases hn : executeNext s.seq.irState s.dp.ir with
    | next s' => exact ⟨_, _, by rw [step_next hi hs hsh hn]⟩
    | done => exact ⟨_, _, by rw [step_done hi hs hsh hn]⟩

theorem Busy.not_preFetch (h : Busy s) : ¬ AtPreFetch s := by
  rintro ⟨hs, hp⟩
  rcases h with h | h | ⟨-, hsh⟩
  · exact MatrixState.noConfusion (h.symm.trans hs)
  · exact MatrixState.noConfusion (h.symm.trans hs)
  · rw [hp] at hsh
    exact Bool.noConfusion hsh

/-- From Fetch to the last state of the instruction, on this processor. -/
theorem instruction_chain {a : Arch} (hinp : High inp) (hs : s.seq.state = .fetch)
    (hready : Ready a s.dp) (hsys : irOpcode a.fetched ≠ .iTypeE)
    (hw : StoreReaches w a.fetched a) :
    ∃ n, (∀ k ≤ n, Busy (trace (stepCSRs w) s inp k)) ∧
      (trace (stepCSRs w) s inp n).seq.state = .execute ∧
      shared (trace (stepCSRs w) s inp n).seq.irState ∧
      executeNext (trace (stepCSRs w) s inp n).seq.irState (trace (stepCSRs w) s inp n).dp.ir =
        .done ∧
      ((trace (stepCSRs w) s inp n).dp.exec w (trace (stepCSRs w) s inp n).seq.irState).arch =
        instrStep w.undef a.fetched a := by
  obtain ⟨n, hdecode, hpath, hdone, harch⟩ :=
    (sequences w).instruction_chain hinp hs hready hsys hw
  have hlast := hpath n (Nat.le_refl n)
  refine ⟨2 + n, ?_, hlast.1, hlast.2, hdone, harch⟩
  intro k hk
  obtain rfl | rfl | ⟨j, hj, rfl⟩ : k = 0 ∨ k = 1 ∨ ∃ j ≤ n, k = 2 + j := by
    rcases Nat.lt_or_ge k 2 with h | h
    · omega
    · exact .inr (.inr ⟨k - 2, by omega, by omega⟩)
  · exact .inl hs
  · exact .inr (.inl hdecode.1)
  · exact .inr (.inr (hpath j hj))

/-- **From boundary to boundary.** An instruction other than SYSTEM, at a boundary where no
interrupt is accepted, is carried out as `instrStep` says, and no edge on the way writes a CSR. -/
theorem boundary_chain (hinp : High inp) (hb : AtPreFetch s) (ha : accepts s.matrix = false)
    (hsys : irOpcode s.dp.arch.fetched ≠ .iTypeE)
    (hw : StoreReaches w s.dp.arch.fetched s.dp.arch) :
    ∃ n, FirstReturn (stepCSRs w) AtPreFetch s inp n ∧
      (trace (stepCSRs w) s inp n).dp.arch = instrStep w.undef s.dp.arch.fetched s.dp.arch ∧
      ∀ k < n, MovesOn (inp k) (trace (stepCSRs w) s inp k) (trace (stepCSRs w) s inp (k + 1)) := by
  have hfetch : trace (stepCSRs w) s inp 1 = _ := step_preFetch (hinp 0) hb.1 hb.2 ha
  have hready : Ready s.dp.arch (trace (stepCSRs w) s inp 1).dp := by
    rw [hfetch]
    exact ready_preFetch addOp 0
  obtain ⟨n, hbusy, hexec, hsh, hdone, harch⟩ :=
    instruction_chain (hinp.shift 1) (by rw [hfetch]; rfl) hready hsys hw
  rw [← trace_add] at hexec hsh hdone harch
  have hbusy' : ∀ k, 0 < k → k ≤ 1 + n → Busy (trace (stepCSRs w) s inp k) := by
    intro k hk hkn
    obtain ⟨j, rfl⟩ : ∃ j, k = 1 + j := ⟨k - 1, by omega⟩
    rw [trace_add]
    exact hbusy j (by omega)
  have hend : trace (stepCSRs w) s inp (1 + n + 1) = _ :=
    step_done (hinp (1 + n)) hexec hsh hdone
  refine ⟨1 + n + 1, ⟨by omega, ?_, ?_⟩, ?_, ?_⟩
  · rw [hend]
    exact ⟨rfl, rfl⟩
  · intro k hk hkn
    exact (hbusy' k hk (by omega)).not_preFetch
  · rw [hend]
    exact harch
  · intro k hk
    rcases Nat.eq_zero_or_pos k with rfl | hpos
    · exact ⟨.fetch, .itLoad, by rw [hfetch, trace_zero]⟩
    · exact (hbusy' k hpos (by omega)).movesOn (hinp k)

end Chain

/-! ## The CSRs on the way -/

/-- The CSRs once an interrupt that is latched has been made pending. -/
def settle (m : CsrMatrix) : CsrRegs :=
  if m.irq.irqTriggered && !m.irq.interruptInProgress then m.csrs.setMip true else m.csrs

theorem settle_moved (m : CsrMatrix) (state : MatrixState) (irState : InstructionState) :
    settle (moved m state irState) = settle m := by
  unfold settle moved
  split <;> simp

/-- Without falling edges of `irq_i` the CSRs settle once and stay. -/
theorem csrs_of_moves {s : CsrCore} {step : Input → CsrCore → CsrCore} {inp : ℕ → Input} {n : ℕ}
    (hinp : ∀ k < n, (inp k).irqFalls = false)
    (hmoves : ∀ k < n, MovesOn (inp k) (trace step s inp k) (trace step s inp (k + 1))) :
    ∀ k < n, (trace step s inp (k + 1)).csrs = settle s.matrix := by
  have hsettle : ∀ k ≤ n, settle (trace step s inp k).matrix = settle s.matrix := by
    apply trace_invariant_until (p := fun x : CsrCore => settle x.matrix = settle s.matrix) rfl
    intro k hk ih
    obtain ⟨state, irState, h⟩ := hmoves k hk
    rw [h, settle_moved, CsrMatrix.sample, hinp k hk]
    exact ih
  intro k hk
  obtain ⟨state, irState, h⟩ := hmoves k hk
  rw [CsrCore.csrs, h, ← hsettle k (Nat.le_of_lt hk), CsrMatrix.sample, hinp k hk]
  rfl

/-! ## Instructions that only compute -/

/-- OP other than the shifts, OP-IMM, LUI and AUIPC. -/
def computes : Rv32i.Instr → Bool
  | .op o _ _ _ => !o.isShift
  | .opImm .. | .lui .. | .auipc .. => true
  | _ => false

section Computes
variable {undef resetVector : Word} {ir : Word} {i : Rv32i.Instr}

theorem computes_agrees (h : computes i) (a : Arch) : Agrees a i := by
  cases i with
  | op o rd r1 r2 =>
    intro hs
    simp [computes, hs] at h
  | opImm | lui | auipc => trivial
  | _ => exact Bool.noConfusion h

theorem computes_opcode (h : computes i) (henc : Encodes undef ir i) :
    irOpcode ir ≠ .iTypeE ∧ irOpcode ir ≠ .sType ∧
      ∀ a, (instrStep undef ir a).pc = a.pc + 4 := by
  cases i with
  | op | opImm | lui | auipc => simp [henc.1, instrStep, nextPc]
  | _ => exact Bool.noConfusion h

/-- **A computing instruction**, from its boundary to the next: registers and pc are those of
the instruction set, memory keeps its words, and of the CSRs only mip may change, when an
interrupt was latched before. -/
theorem computing_boundary {s : CsrCore} {inp : ℕ → Input}
    (hb : AtPreFetch s)
    (hinp : UntilReturn (stepCSRs (Wiring.rangerRiscCSRs undef resetVector)) AtPreFetch s inp
      fun i => i.resetI = true ∧ i.irqFalls = false)
    (ha : accepts s.matrix = false)
    (hdec : Rv32i.decode (s.dp.mem (Pmmu.wordAddr s.dp.pc)) = some i) (hi : computes i) :
    ∃ n, FirstReturn (stepCSRs (Wiring.rangerRiscCSRs undef resetVector)) AtPreFetch s inp n ∧
      (trace (stepCSRs (Wiring.rangerRiscCSRs undef resetVector)) s inp n).dp.arch.toState =
        Rv32i.exec s.dp.arch.toState i ∧
      (trace (stepCSRs (Wiring.rangerRiscCSRs undef resetVector)) s inp n).dp.pc = s.dp.pc + 4 ∧
      (trace (stepCSRs (Wiring.rangerRiscCSRs undef resetVector)) s inp n).dp.mem = s.dp.mem ∧
      (trace (stepCSRs (Wiring.rangerRiscCSRs undef resetVector)) s inp n).csrs =
        if s.irq.irqTriggered && !s.irq.interruptInProgress then s.csrs.setMip true
        else s.csrs := by
  obtain ⟨inp', hinp', hsame⟩ :=
    hinp.exists_always { resetI := true, irqFalls := false } ⟨rfl, rfl⟩
  have henc : Encodes undef s.dp.arch.fetched i := encodes_of_decode undef hdec
  obtain ⟨hsys, hst, hpc⟩ := computes_opcode hi henc
  obtain ⟨n, hret, harch, hmoves⟩ := boundary_chain
    (w := Wiring.rangerRiscCSRs undef resetVector) (fun k => (hinp' k).1) hb ha hsys
    (fun h => absurd h hst)
  have heq := trace_congr (stepCSRs (Wiring.rangerRiscCSRs undef resetVector)) s inp' (hsame n hret)
  refine ⟨n, hret.congr (hsame n hret), ?_⟩
  rw [← heq]
  refine ⟨?_, ?_, ?_, ?_⟩
  · rw [harch]
    exact instrStep_exec henc (computes_agrees hi _)
  · exact (congrArg Arch.pc harch).trans (hpc _)
  · refine (congrArg Arch.mem harch).trans ?_
    simp only [instrStep, hst, if_false]
    rfl
  · obtain ⟨m, rfl⟩ : ∃ m, n = m + 1 := ⟨n - 1, by have := hret.pos; omega⟩
    exact csrs_of_moves (fun k _ => (hinp' k).2) hmoves m (Nat.lt_succ_self m)

/-- `addi x1, x0, 5` -/
theorem computing_boundary_addi :
    ∃ n, FirstReturn (stepCSRs (Wiring.rangerRiscCSRs 0 0)) AtPreFetch
        (resting 0x00500093 ⟨false, false, false⟩) (fun _ => ⟨true, false⟩) n ∧
      (trace (stepCSRs (Wiring.rangerRiscCSRs 0 0)) (resting 0x00500093 ⟨false, false, false⟩)
        (fun _ => ⟨true, false⟩) n).dp.arch.toState =
        Rv32i.exec (resting 0x00500093 ⟨false, false, false⟩).dp.arch.toState
          (.opImm .add 1 0 5) := by
  have hcalm : UntilReturn (stepCSRs (Wiring.rangerRiscCSRs 0 0)) AtPreFetch
      (resting 0x00500093 ⟨false, false, false⟩) (fun _ => ⟨true, false⟩)
      fun i => i.resetI = true ∧ i.irqFalls = false := fun _ _ => ⟨rfl, rfl⟩
  obtain ⟨n, hret, hexec, -⟩ :=
    computing_boundary (i := .opImm .add 1 0 5) ⟨rfl, rfl⟩ hcalm rfl (by decide) rfl
  exact ⟨n, hret, hexec⟩

/-- mip is not always kept: an interrupt that was latched while another one was handled gets
pending during the first instruction after mret, here a nop. -/
theorem computing_boundary_latched :
    ¬ ∀ (undef resetVector : Word) (s : CsrCore) (inp : ℕ → Input) (i : Rv32i.Instr),
      AtPreFetch s →
      UntilReturn (stepCSRs (Wiring.rangerRiscCSRs undef resetVector)) AtPreFetch s inp
        (fun i => i.resetI = true ∧ i.irqFalls = false) →
      accepts s.matrix = false →
      Rv32i.decode (s.dp.mem (Pmmu.wordAddr s.dp.pc)) = some i → computes i →
      ∃ n, FirstReturn (stepCSRs (Wiring.rangerRiscCSRs undef resetVector)) AtPreFetch s inp n ∧
        (trace (stepCSRs (Wiring.rangerRiscCSRs undef resetVector)) s inp n).dp.arch.toState =
          Rv32i.exec s.dp.arch.toState i ∧
        (trace (stepCSRs (Wiring.rangerRiscCSRs undef resetVector)) s inp n).dp.pc =
          s.dp.pc + 4 ∧
        (trace (stepCSRs (Wiring.rangerRiscCSRs undef resetVector)) s inp n).dp.mem = s.dp.mem ∧
        (trace (stepCSRs (Wiring.rangerRiscCSRs undef resetVector)) s inp n).csrs = s.csrs := by
  intro h
  obtain ⟨n, hret, -, -, -, hcsrs⟩ := h 0 0 (resting 0x00000013 ⟨true, false, false⟩)
    (fun _ => ⟨true, false⟩) (.opImm .add 0 0 0) ⟨rfl, rfl⟩ (fun _ _ => ⟨rfl, rfl⟩) rfl
    (by decide) rfl
  have hhigh : High fun _ => (⟨true, false⟩ : Input) := fun _ => rfl
  obtain ⟨m, hret', -, hmoves⟩ := boundary_chain (w := Wiring.rangerRiscCSRs 0 0)
    (s := resting 0x00000013 ⟨true, false, false⟩)
    hhigh ⟨rfl, rfl⟩ rfl (by decide) (fun h => absurd h (by decide))
  obtain rfl := hret.unique hret'
  obtain ⟨k, rfl⟩ : ∃ k, n = k + 1 := ⟨n - 1, by have := hret.pos; omega⟩
  rw [csrs_of_moves (fun _ _ => rfl) hmoves k (Nat.lt_succ_self k)] at hcsrs
  exact absurd hcsrs (by decide)

end Computes

end ControlMatrixCSRs

end RangerRisc
