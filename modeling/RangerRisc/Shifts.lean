import RangerRisc.Transfers

/-! Shifts by a register on `modules/RangerRiscCSRs.sv`. `ALU.sv` takes the whole of `rs2` as the
amount, where the instruction set takes its lower five bits. -/

namespace RangerRisc

open Clocked
open Rv32i (AluOp)

/-- The amount is below 32, or shifting by more loses nothing that shifting by its lower five
bits would keep. -/
def ShiftFits (o : AluOp) (a b : Word) : Prop :=
  match o with
  | .sll => b.toNat < 32 ∨ 2 ^ (32 - b.toNat % 32) ∣ a.toNat
  | .srl => b.toNat < 32 ∨ a.toNat < 2 ^ (b.toNat % 32)
  | .sra => b.toNat < 32 ∨ a.toNat < 2 ^ (b.toNat % 32) ∨ b.toNat = 32 ∧ a = BitVec.allOnes 32
  | _ => True

section Amount
variable {a b : Word}

theorem shiftAmount_mod (b : Word) : Rv32i.shiftAmount b = b.toNat % 32 := by
  simp [Rv32i.shiftAmount, BitVec.extractLsb'_toNat]

theorem zero_eq_shiftLeft_iff {k : ℕ} (hk : k ≤ 32) : 0 = a <<< k ↔ 2 ^ (32 - k) ∣ a.toNat := by
  have hpow : 2 ^ 32 = 2 ^ (32 - k) * 2 ^ k := by
    rw [← Nat.pow_add, Nat.sub_add_cancel hk]
  have hzero : 0 = a <<< k ↔ a.toNat * 2 ^ k % 2 ^ 32 = 0 := by
    rw [← BitVec.toNat_inj, BitVec.toNat_shiftLeft, Nat.shiftLeft_eq]
    exact eq_comm
  rw [hzero, ← Nat.dvd_iff_mod_eq_zero, hpow]
  exact Nat.mul_dvd_mul_iff_right (Nat.two_pow_pos k)

theorem zero_eq_ushiftRight_iff {k : ℕ} : 0 = a >>> k ↔ a.toNat < 2 ^ k := by
  rw [← BitVec.toNat_inj, BitVec.toNat_ushiftRight, Nat.shiftRight_eq_div_pow]
  refine eq_comm.trans ?_
  exact Nat.div_eq_zero_iff_lt (Nat.two_pow_pos k)

/-- What is left of the 64 sign bits when the word itself has been shifted out. -/
theorem getLsbD_yOut_sra (undef : Word) (hb : 32 ≤ b.toNat) (i : ℕ) :
    (ALU.yOut undef a b sraOp).getLsbD i =
      (decide (i < 32) && (decide (b.toNat + i < 64) && a.msb)) := by
  change (((BitVec.fill 32 (a.getLsbD 31) ++ a) >>> b).setWidth 32).getLsbD i = _
  have hout : ¬ b.toNat + i < 32 := by omega
  have hsign : (b.toNat + i - 32 < 32) = (b.toNat + i < 64) := by
    rw [eq_iff_iff]
    omega
  simp only [BitVec.getLsbD_setWidth, BitVec.ushiftRight_eq', BitVec.getLsbD_ushiftRight,
    BitVec.getLsbD_append, getLsbD_fill, BitVec.msb_eq_getLsbD_last, hout, if_false, hsign]

theorem yOut_sra_msb (undef : Word) (hb : 32 ≤ b.toNat) (ha : a.msb = false) :
    ALU.yOut undef a b sraOp = 0 := by
  apply BitVec.eq_of_getLsbD_eq
  intro i _
  simp [getLsbD_yOut_sra undef hb, ha]

theorem two_pow_le_of_msb (ha : a.msb = true) {k : ℕ} (hk : k < 32) : ¬ a.toNat < 2 ^ k := by
  have htop : 2 ^ 31 ≤ a.toNat := by
    rw [BitVec.msb_eq_decide] at ha
    exact of_decide_eq_true ha
  have hle : 2 ^ k ≤ 2 ^ 31 := Nat.pow_le_pow_right (by decide) (by omega)
  omega

/-- The sign fills the word only when all of it, and no more, has been shifted out. -/
theorem yOut_sra_eq_iff (undef : Word) (hb : 32 ≤ b.toNat) (ha : a.msb = true) :
    ALU.yOut undef a b sraOp = a.sshiftRight (b.toNat % 32) ↔
      b.toNat = 32 ∧ a = BitVec.allOnes 32 := by
  have hones : b.toNat = 32 → ALU.yOut undef a b sraOp = BitVec.allOnes 32 := by
    intro h32
    apply BitVec.eq_of_getLsbD_eq
    intro i hi
    have hin : b.toNat + i < 64 := by omega
    rw [getLsbD_yOut_sra undef hb, ha, BitVec.getLsbD_allOnes, decide_eq_true hin, Bool.and_self,
      Bool.and_true]
  constructor
  · intro h
    have htop := congrArg BitVec.msb h
    rw [BitVec.msb_sshiftRight, ha, BitVec.msb_eq_getLsbD_last,
      getLsbD_yOut_sra undef hb, ha] at htop
    have h32 : b.toNat = 32 := by
      have hfar : b.toNat + 31 < 64 := by simpa using htop
      omega
    rw [hones h32, h32, BitVec.sshiftRight_zero] at h
    exact ⟨h32, h.symm⟩
  · rintro ⟨h32, rfl⟩
    rw [hones h32, h32, BitVec.sshiftRight_zero]

/-- The ALU shifts as the instruction set does just where the amount fits. -/
theorem yOut_shift_iff {o : AluOp} (ho : o.isShift) (undef a b : Word) :
    ALU.yOut undef a b (opCode o) = o.eval a b ↔ ShiftFits o a b := by
  rcases Nat.lt_or_ge b.toNat 32 with hlt | hge
  · rw [yOut_opCode undef a b o fun _ => hlt]
    cases o with
    | sll | srl | sra => exact ⟨fun _ => .inl hlt, fun _ => rfl⟩
    | _ => exact ⟨fun _ => trivial, fun _ => rfl⟩
  · have hk : b.toNat % 32 < 32 := Nat.mod_lt _ (by decide)
    have hnot : ¬ b.toNat < 32 := Nat.not_lt.mpr hge
    cases o with
    | sll =>
      have hzero : ALU.yOut undef a b sllOp = 0 := BitVec.shiftLeft_eq_zero hge
      rw [opCode, AluOp.eval, hzero, shiftAmount_mod, zero_eq_shiftLeft_iff (Nat.le_of_lt hk),
        ShiftFits, or_iff_right hnot]
    | srl =>
      have hzero : ALU.yOut undef a b srlOp = 0 := BitVec.ushiftRight_eq_zero hge
      rw [opCode, AluOp.eval, hzero, shiftAmount_mod, zero_eq_ushiftRight_iff, ShiftFits,
        or_iff_right hnot]
    | sra =>
      rw [opCode, AluOp.eval, shiftAmount_mod]
      cases ha : a.msb with
      | false =>
        have hones : ¬ (b.toNat = 32 ∧ a = BitVec.allOnes 32) := by
          rintro ⟨-, rfl⟩
          exact Bool.noConfusion ha
        rw [yOut_sra_msb undef hge ha, BitVec.sshiftRight_eq_of_msb_false ha,
          zero_eq_ushiftRight_iff, ShiftFits, or_iff_right hnot, or_iff_left hones]
      | true =>
        rw [yOut_sra_eq_iff undef hge ha, ShiftFits, or_iff_right hnot,
          or_iff_right (two_pow_le_of_msb ha hk)]
    | _ => exact Bool.noConfusion ho

end Amount

namespace ControlMatrixCSRs

section Shift
variable {undef resetVector : Word} {s : CsrCore} {inp : ℕ → Input} {o : AluOp}
    {rd r1 r2 : BitVec 5}

/-- **A shift by a register** leaves in `rd` what the instruction set says just when the amount
fits, or `rd` is x0. -/
theorem shift_boundary (hb : AtPreFetch s)
    (hinp : UntilReturn (stepCSRs (Wiring.rangerRiscCSRs undef resetVector)) AtPreFetch s inp
      fun i => i.resetI = true)
    (ha : accepts s.matrix = false)
    (hdec : Rv32i.decode (s.dp.mem (Pmmu.wordAddr s.dp.pc)) = some (.op o rd r1 r2))
    (ho : o.isShift) :
    ∃ n, FirstReturn (stepCSRs (Wiring.rangerRiscCSRs undef resetVector)) AtPreFetch s inp n ∧
      ((trace (stepCSRs (Wiring.rangerRiscCSRs undef resetVector)) s inp n).dp.arch.regs =
          s.dp.arch.regs.write rd (o.eval (s.dp.arch.regs r1) (s.dp.arch.regs r2)) ↔
        rd = 0 ∨ ShiftFits o (s.dp.arch.regs r1) (s.dp.arch.regs r2)) := by
  have henc : Encodes undef s.dp.arch.fetched (.op o rd r1 r2) := encodes_of_decode undef hdec
  obtain ⟨hop, hcode, hrd, hr1, hr2⟩ := henc
  obtain ⟨n, hret, harch, -⟩ := instruction_boundary hb hinp ha (by simp [hop])
  refine ⟨n, hret, ?_⟩
  have hregs : (instrStep undef s.dp.arch.fetched s.dp.arch).regs = s.dp.arch.regs.write rd
      (ALU.yOut undef (s.dp.arch.regs r1) (s.dp.arch.regs r2) (opCode o)) := by
    simp only [instrStep, writesRd, result, hop, hcode, hrd, srcA, srcB, hr1, hr2, if_true]
  rw [harch, hregs, Rv32i.RegFile.write_inj, yOut_shift_iff ho]
  rfl

/-- The first word is `sll x3, x1, x2`, the registers x1 and x2 hold `a` and `b`. -/
def shifting (a b : Word) : CsrCore :=
  { resting 0x002091B3 ⟨false, false, false⟩ with
    dp := { Datapath.filled 0x002091B3 with bank := fun r => if r = 1 then a else b } }

theorem shift_boundary_sll :
    ∃ n, FirstReturn (stepCSRs (Wiring.rangerRiscCSRs 0 0)) AtPreFetch (shifting 3 2)
        (fun _ => ⟨true, false⟩) n ∧
      (trace (stepCSRs (Wiring.rangerRiscCSRs 0 0)) (shifting 3 2) (fun _ => ⟨true, false⟩)
        n).dp.arch.regs 3 = 12 := by
  have hhigh : UntilReturn (stepCSRs (Wiring.rangerRiscCSRs 0 0)) AtPreFetch (shifting 3 2)
      (fun _ => ⟨true, false⟩) fun i => i.resetI = true := fun _ _ => rfl
  have hdec : Rv32i.decode ((shifting 3 2).dp.mem (Pmmu.wordAddr 0)) = some (.op .sll 3 1 2) := by
    decide
  obtain ⟨n, hret, hiff⟩ := shift_boundary ⟨rfl, rfl⟩ hhigh rfl hdec rfl
  exact ⟨n, hret, congrArg (fun r : Rv32i.RegFile => r 3) (hiff.mpr (.inr (.inl (by decide))))⟩

/-- 3 shifted left by 34 is 12, the processor has 0. -/
theorem shift_boundary_large :
    ¬ ∀ (undef resetVector : Word) (s : CsrCore) (inp : ℕ → Input) (o : AluOp)
      (rd r1 r2 : BitVec 5), AtPreFetch s →
      UntilReturn (stepCSRs (Wiring.rangerRiscCSRs undef resetVector)) AtPreFetch s inp
        (fun i => i.resetI = true) →
      accepts s.matrix = false →
      Rv32i.decode (s.dp.mem (Pmmu.wordAddr s.dp.pc)) = some (.op o rd r1 r2) → o.isShift →
      ∃ n, FirstReturn (stepCSRs (Wiring.rangerRiscCSRs undef resetVector)) AtPreFetch s inp n ∧
        (trace (stepCSRs (Wiring.rangerRiscCSRs undef resetVector)) s inp n).dp.arch.regs =
          s.dp.arch.regs.write rd (o.eval (s.dp.arch.regs r1) (s.dp.arch.regs r2)) := by
  intro h
  obtain ⟨n, hret, hregs⟩ := h 0 0 (shifting 3 34) (fun _ => ⟨true, false⟩) .sll 3 1 2 ⟨rfl, rfl⟩
    (fun _ _ => rfl) rfl (by decide) rfl
  have hhigh : UntilReturn (stepCSRs (Wiring.rangerRiscCSRs 0 0)) AtPreFetch (shifting 3 34)
      (fun _ => ⟨true, false⟩) fun i => i.resetI = true := fun _ _ => rfl
  obtain ⟨m, hret', harch, -⟩ := instruction_boundary ⟨rfl, rfl⟩ hhigh rfl (by decide)
  obtain rfl := hret.unique hret'
  rw [harch] at hregs
  exact absurd (congrArg (fun r : Rv32i.RegFile => r 3) hregs) (by decide)

end Shift

end ControlMatrixCSRs

end RangerRisc
