import RangerRisc.Boundary

/-! Branches and jumps on `modules/RangerRiscCSRs.sv`, from one boundary to the next, whatever
`irq_i` does meanwhile. -/

namespace RangerRisc

open Clocked

namespace ControlMatrixCSRs

/-! ## Interrupts that come in on the way -/

/-- An interrupt is latched while none is in progress, the next edge makes it pending. -/
def pends (m : CsrMatrix) : Bool := m.irq.irqTriggered && !m.irq.interruptInProgress

/-- An interrupt gets pending at one of the first `n` edges. -/
def PendsWithin (step : Input → CsrCore → CsrCore) (s : CsrCore) (inp : ℕ → Input) (n : ℕ) : Prop :=
  ∃ k < n, pends ((trace step s inp k).matrix.sample (inp k)) = true

instance (step : Input → CsrCore → CsrCore) (s : CsrCore) (inp : ℕ → Input) (n : ℕ) :
    Decidable (PendsWithin step s inp n) :=
  inferInstanceAs (Decidable (∃ k < n, _))

section Latch
variable {step : Input → CsrCore → CsrCore} {s : CsrCore} {inp : ℕ → Input}

theorem pendsWithin_succ {n : ℕ} : PendsWithin step s inp (n + 1) ↔
    PendsWithin step s inp n ∨ pends ((trace step s inp n).matrix.sample (inp n)) = true := by
  constructor
  · rintro ⟨k, hk, hp⟩
    rcases Nat.lt_or_eq_of_le (Nat.le_of_lt_succ hk) with hlt | rfl
    · exact .inl ⟨k, hlt, hp⟩
    · exact .inr hp
  · rintro (⟨k, hk, hp⟩ | hp)
    · exact ⟨k, Nat.lt_succ_of_lt hk, hp⟩
    · exact ⟨n, Nat.lt_succ_self n, hp⟩

/-- While the matrix only moves on, the CSRs change when an interrupt gets pending, and only
then. -/
theorem csrs_of_pends {n : ℕ}
    (hmoves : ∀ k < n, MovesOn (inp k) (trace step s inp k) (trace step s inp (k + 1))) :
    (trace step s inp n).csrs =
      if PendsWithin step s inp n then s.csrs.setMip true else s.csrs := by
  induction n with
  | zero =>
    rw [if_neg (by rintro ⟨k, hk, -⟩; exact Nat.not_lt_zero k hk)]
    rfl
  | succ n ih =>
    have hn := ih fun k hk => hmoves k (Nat.lt_succ_of_lt hk)
    obtain ⟨state, irState, h⟩ := hmoves n (Nat.lt_succ_self n)
    have hstep : (trace step s inp (n + 1)).csrs =
        if pends ((trace step s inp n).matrix.sample (inp n)) then
          (trace step s inp n).csrs.setMip true
        else (trace step s inp n).csrs := by
      rw [CsrCore.csrs, h]
      simp only [moved, CsrMatrix.sample_csrs]
      rfl
    rw [hstep, hn]
    by_cases hnow : pends ((trace step s inp n).matrix.sample (inp n)) = true
    · rw [if_pos hnow, if_pos (pendsWithin_succ.mpr (.inr hnow))]
      split
      · exact CsrRegs.setMip_setMip _ _ _
      · rfl
    · rw [if_neg hnow]
      by_cases hbefore : PendsWithin step s inp n
      · rw [if_pos hbefore, if_pos (pendsWithin_succ.mpr (.inl hbefore))]
      · rw [if_neg hbefore, if_neg]
        rw [pendsWithin_succ]
        exact not_or.mpr ⟨hbefore, hnow⟩

end Latch

section Boundary
variable {undef resetVector : Word} {s : CsrCore} {inp : ℕ → Input} {i : Rv32i.Instr}

/-- **Any instruction other than SYSTEM**, with any falling edges of `irq_i` on the way. -/
theorem instruction_boundary (hb : AtPreFetch s)
    (hinp : UntilReturn (stepCSRs (Wiring.rangerRiscCSRs undef resetVector)) AtPreFetch s inp
      fun i => i.resetI = true)
    (ha : accepts s.matrix = false) (hsys : irOpcode s.dp.arch.fetched ≠ .iTypeE) :
    ∃ n, FirstReturn (stepCSRs (Wiring.rangerRiscCSRs undef resetVector)) AtPreFetch s inp n ∧
      (trace (stepCSRs (Wiring.rangerRiscCSRs undef resetVector)) s inp n).dp.arch =
        instrStep undef s.dp.arch.fetched s.dp.arch ∧
      (trace (stepCSRs (Wiring.rangerRiscCSRs undef resetVector)) s inp n).csrs =
        if PendsWithin (stepCSRs (Wiring.rangerRiscCSRs undef resetVector)) s inp n then
          s.csrs.setMip true
        else s.csrs := by
  obtain ⟨inp', hhigh, hsame⟩ := hinp.exists_always (q := fun i : Input => i.resetI = true)
    ⟨true, false⟩ rfl
  obtain ⟨n, hret, harch, hmoves⟩ := boundary_chain
    (w := Wiring.rangerRiscCSRs undef resetVector) hhigh hb ha hsys (fun _ => rfl)
  have heq : ∀ k ≤ n, trace (stepCSRs (Wiring.rangerRiscCSRs undef resetVector)) s inp' k =
      trace (stepCSRs (Wiring.rangerRiscCSRs undef resetVector)) s inp k :=
    fun k hk => trace_congr _ _ _ fun j hj => hsame n hret j (Nat.lt_of_lt_of_le hj hk)
  refine ⟨n, hret.congr (hsame n hret), ?_, ?_⟩
  · rw [← heq n (Nat.le_refl n)]
    exact harch
  · apply csrs_of_pends
    intro k hk
    rw [← heq k (Nat.le_of_lt hk), ← heq (k + 1) hk, ← hsame n hret k hk]
    exact hmoves k hk

/-! ## Branches -/

theorem instrStep_branch {ir : Word} {c : Rv32i.Cond} {r1 r2 : BitVec 5} {offset : Word} {a : Arch}
    (h : Encodes undef ir (.branch c r1 r2 offset)) : instrStep undef ir a =
      { a with pc := if c.holds (a.regs r1) (a.regs r2) then a.pc + offset else a.pc + 4 } := by
  obtain ⟨hop, hcond, rfl, rfl, himm⟩ := h
  have htaken : branchTaken undef ir a = c.holds (a.regs (rs1 ir)) (a.regs (rs2 ir)) :=
    takeBranch_sub hcond undef _ _
  ext1
  · simp only [instrStep, nextPc, hop, himm, htaken]
  · simp [instrStep, writesRd, hop]
  · simp [instrStep, hop]

/-- **A branch** goes by the condition of the instruction set, on any operands; registers and
memory stay, and of the CSRs only mip may change, when an interrupt gets pending. -/
theorem branch_boundary {c : Rv32i.Cond} {r1 r2 : BitVec 5} {offset : Word} (hb : AtPreFetch s)
    (hinp : UntilReturn (stepCSRs (Wiring.rangerRiscCSRs undef resetVector)) AtPreFetch s inp
      fun i => i.resetI = true)
    (ha : accepts s.matrix = false)
    (hdec : Rv32i.decode (s.dp.mem (Pmmu.wordAddr s.dp.pc)) = some (.branch c r1 r2 offset)) :
    ∃ n, FirstReturn (stepCSRs (Wiring.rangerRiscCSRs undef resetVector)) AtPreFetch s inp n ∧
      (trace (stepCSRs (Wiring.rangerRiscCSRs undef resetVector)) s inp n).dp.arch =
        { s.dp.arch with
          pc := if c.holds (s.dp.arch.regs r1) (s.dp.arch.regs r2) then s.dp.pc + offset
            else s.dp.pc + 4 } ∧
      (trace (stepCSRs (Wiring.rangerRiscCSRs undef resetVector)) s inp n).csrs =
        if PendsWithin (stepCSRs (Wiring.rangerRiscCSRs undef resetVector)) s inp n then
          s.csrs.setMip true
        else s.csrs := by
  have henc : Encodes undef s.dp.arch.fetched (.branch c r1 r2 offset) :=
    encodes_of_decode undef hdec
  have hsys : irOpcode s.dp.arch.fetched ≠ .iTypeE := by simp [henc.1]
  obtain ⟨n, hret, harch, hcsrs⟩ := instruction_boundary hb hinp ha hsys
  exact ⟨n, hret, harch.trans (instrStep_branch henc), hcsrs⟩

/-- `blt x0, x0, 8` falls through. -/
theorem branch_boundary_blt :
    ∃ n, FirstReturn (stepCSRs (Wiring.rangerRiscCSRs 0 0)) AtPreFetch
        (resting 0x00004463 ⟨false, false, false⟩) (fun _ => ⟨true, false⟩) n ∧
      (trace (stepCSRs (Wiring.rangerRiscCSRs 0 0)) (resting 0x00004463 ⟨false, false, false⟩)
        (fun _ => ⟨true, false⟩) n).dp.pc = 4 := by
  have hhigh : UntilReturn (stepCSRs (Wiring.rangerRiscCSRs 0 0)) AtPreFetch
      (resting 0x00004463 ⟨false, false, false⟩) (fun _ => ⟨true, false⟩)
      fun i => i.resetI = true := fun _ _ => rfl
  have hdec : Rv32i.decode ((resting 0x00004463 ⟨false, false, false⟩).dp.mem (Pmmu.wordAddr 0)) =
      some (.branch .lt 0 0 8) := by decide
  obtain ⟨n, hret, harch, -⟩ := branch_boundary ⟨rfl, rfl⟩ hhigh rfl hdec
  exact ⟨n, hret, congrArg Arch.pc harch⟩

/-- With a falling edge of `irq_i` during the branch mip does change. -/
theorem branch_boundary_pends :
    ¬ ∀ (undef resetVector : Word) (s : CsrCore) (inp : ℕ → Input) (c : Rv32i.Cond)
      (r1 r2 : BitVec 5) (offset : Word), AtPreFetch s →
      UntilReturn (stepCSRs (Wiring.rangerRiscCSRs undef resetVector)) AtPreFetch s inp
        (fun i => i.resetI = true) →
      accepts s.matrix = false →
      Rv32i.decode (s.dp.mem (Pmmu.wordAddr s.dp.pc)) = some (.branch c r1 r2 offset) →
      ∃ n, FirstReturn (stepCSRs (Wiring.rangerRiscCSRs undef resetVector)) AtPreFetch s inp n ∧
        (trace (stepCSRs (Wiring.rangerRiscCSRs undef resetVector)) s inp n).dp.arch =
          { s.dp.arch with
            pc := if c.holds (s.dp.arch.regs r1) (s.dp.arch.regs r2) then s.dp.pc + offset
              else s.dp.pc + 4 } ∧
        (trace (stepCSRs (Wiring.rangerRiscCSRs undef resetVector)) s inp n).csrs = s.csrs := by
  intro h
  obtain ⟨n, hret, -, hcsrs⟩ := h 0 0 (resting 0x00004463 ⟨false, false, false⟩)
    (fun _ => ⟨true, true⟩) .lt 0 0 8 ⟨rfl, rfl⟩ (fun _ _ => rfl) rfl (by decide)
  have hhigh : UntilReturn (stepCSRs (Wiring.rangerRiscCSRs 0 0)) AtPreFetch
      (resting 0x00004463 ⟨false, false, false⟩) (fun _ => ⟨true, true⟩)
      fun i => i.resetI = true := fun _ _ => rfl
  obtain ⟨m, hret', -, hmip⟩ := instruction_boundary ⟨rfl, rfl⟩ hhigh rfl (by decide)
  obtain rfl := hret.unique hret'
  rw [if_pos ⟨0, hret.pos, rfl⟩, hcsrs] at hmip
  exact absurd hmip (by decide)

/-! ## Jumps -/

/-- The link register and the target of a jump. -/
def jump (a : Arch) : Rv32i.Instr → Option (BitVec 5 × Word)
  | .jal rd offset => some (rd, a.pc + offset)
  | .jalr rd r1 offset => some (rd, a.regs r1 + offset)
  | _ => none

theorem instrStep_jump {ir : Word} {a : Arch} {rd : BitVec 5} {target : Word}
    (h : Encodes undef ir i) (hj : jump a i = some (rd, target)) :
    irOpcode ir ≠ .iTypeE ∧
      instrStep undef ir a = ⟨target, a.regs.write rd (a.pc + 4), a.mem⟩ := by
  cases i with
  | jal rd' offset =>
    obtain ⟨hop, rfl, himm⟩ := h
    obtain ⟨rfl, rfl⟩ := Prod.mk.inj (Option.some.inj hj)
    refine ⟨by simp [hop], ?_⟩
    ext1
    · simp [instrStep, nextPc, hop, himm]
    · simp [instrStep, writesRd, hop, result]
    · simp [instrStep, hop]
  | jalr rd' r1 offset =>
    obtain ⟨hop, rfl, rfl, himm⟩ := h
    obtain ⟨rfl, rfl⟩ := Prod.mk.inj (Option.some.inj hj)
    refine ⟨by simp [hop], ?_⟩
    ext1
    · simp [instrStep, nextPc, hop, effAddr, himm, srcA]
    · simp [instrStep, writesRd, hop, result]
    · simp [instrStep, hop]
  | _ => exact absurd hj (Option.some_ne_none _).symm

/-- **A jump** goes to its target and links to the next instruction, whatever register it links
to; memory stays, and of the CSRs only mip may change, when an interrupt gets pending. -/
theorem jump_boundary {rd : BitVec 5} {target : Word} (hb : AtPreFetch s)
    (hinp : UntilReturn (stepCSRs (Wiring.rangerRiscCSRs undef resetVector)) AtPreFetch s inp
      fun i => i.resetI = true)
    (ha : accepts s.matrix = false)
    (hdec : Rv32i.decode (s.dp.mem (Pmmu.wordAddr s.dp.pc)) = some i)
    (hj : jump s.dp.arch i = some (rd, target)) :
    ∃ n, FirstReturn (stepCSRs (Wiring.rangerRiscCSRs undef resetVector)) AtPreFetch s inp n ∧
      (trace (stepCSRs (Wiring.rangerRiscCSRs undef resetVector)) s inp n).dp.arch =
        ⟨target, s.dp.arch.regs.write rd (s.dp.pc + 4), s.dp.mem⟩ ∧
      (trace (stepCSRs (Wiring.rangerRiscCSRs undef resetVector)) s inp n).csrs =
        if PendsWithin (stepCSRs (Wiring.rangerRiscCSRs undef resetVector)) s inp n then
          s.csrs.setMip true
        else s.csrs := by
  have henc : Encodes undef s.dp.arch.fetched i := encodes_of_decode undef hdec
  obtain ⟨hsys, hstep⟩ := instrStep_jump henc hj
  obtain ⟨n, hret, harch, hcsrs⟩ := instruction_boundary hb hinp ha hsys
  exact ⟨n, hret, harch.trans hstep, hcsrs⟩

/-- `jal x1, 8` -/
theorem jump_boundary_jal :
    ∃ n, FirstReturn (stepCSRs (Wiring.rangerRiscCSRs 0 0)) AtPreFetch
        (resting 0x008000EF ⟨false, false, false⟩) (fun _ => ⟨true, false⟩) n ∧
      (trace (stepCSRs (Wiring.rangerRiscCSRs 0 0)) (resting 0x008000EF ⟨false, false, false⟩)
        (fun _ => ⟨true, false⟩) n).dp.pc = 8 := by
  have hhigh : UntilReturn (stepCSRs (Wiring.rangerRiscCSRs 0 0)) AtPreFetch
      (resting 0x008000EF ⟨false, false, false⟩) (fun _ => ⟨true, false⟩)
      fun i => i.resetI = true := fun _ _ => rfl
  obtain ⟨n, hret, harch, -⟩ := jump_boundary (i := .jal 1 8) ⟨rfl, rfl⟩ hhigh rfl (by decide) rfl
  exact ⟨n, hret, congrArg Arch.pc harch⟩

/-- With a falling edge of `irq_i` during the jump mip does change. -/
theorem jump_boundary_pends :
    ¬ ∀ (undef resetVector : Word) (s : CsrCore) (inp : ℕ → Input) (i : Rv32i.Instr)
      (rd : BitVec 5) (target : Word), AtPreFetch s →
      UntilReturn (stepCSRs (Wiring.rangerRiscCSRs undef resetVector)) AtPreFetch s inp
        (fun i => i.resetI = true) →
      accepts s.matrix = false →
      Rv32i.decode (s.dp.mem (Pmmu.wordAddr s.dp.pc)) = some i →
      jump s.dp.arch i = some (rd, target) → target.getLsbD 0 = false →
      ∃ n, FirstReturn (stepCSRs (Wiring.rangerRiscCSRs undef resetVector)) AtPreFetch s inp n ∧
        (trace (stepCSRs (Wiring.rangerRiscCSRs undef resetVector)) s inp n).dp.arch =
          ⟨target, s.dp.arch.regs.write rd (s.dp.pc + 4), s.dp.mem⟩ ∧
        (trace (stepCSRs (Wiring.rangerRiscCSRs undef resetVector)) s inp n).csrs = s.csrs := by
  intro h
  obtain ⟨n, hret, -, hcsrs⟩ := h 0 0 (resting 0x008000EF ⟨false, false, false⟩)
    (fun _ => ⟨true, true⟩) (.jal 1 8) 1 8 ⟨rfl, rfl⟩ (fun _ _ => rfl) rfl (by decide) rfl
    (by decide)
  have hhigh : UntilReturn (stepCSRs (Wiring.rangerRiscCSRs 0 0)) AtPreFetch
      (resting 0x008000EF ⟨false, false, false⟩) (fun _ => ⟨true, true⟩)
      fun i => i.resetI = true := fun _ _ => rfl
  obtain ⟨m, hret', -, hmip⟩ := instruction_boundary ⟨rfl, rfl⟩ hhigh rfl (by decide)
  obtain rfl := hret.unique hret'
  rw [if_pos ⟨0, hret.pos, rfl⟩, hcsrs] at hmip
  exact absurd hmip (by decide)

end Boundary

end ControlMatrixCSRs

end RangerRisc
