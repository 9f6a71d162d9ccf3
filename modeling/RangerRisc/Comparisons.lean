import RangerRisc.Alu
import Mathlib.Algebra.Group.Nat.Defs

/-! The comparisons of the ALU, of any width: the flags of `SubOp`, and `SltOp` and `SltuOp`. -/

namespace RangerRisc

variable {w : ℕ}

/-- The top bit as a bound. -/
theorem top_bit (a : BitVec (w + 1)) : a.getLsbD w = decide (2 ^ w ≤ a.toNat) := by
  have h := BitVec.msb_eq_decide a
  rwa [BitVec.msb_eq_getLsbD_last] at h

theorem slt_iff (a b : BitVec (w + 1)) : a.slt b =
    if a.getLsbD w = b.getLsbD w then decide (a < b) else a.getLsbD w := by
  have hult : a.ult b = decide (a.toNat < b.toNat) := rfl
  have hlt : (a < b) ↔ a.toNat < b.toNat := Iff.rfl
  rw [BitVec.slt_eq_ult, BitVec.msb_eq_getLsbD_last, BitVec.msb_eq_getLsbD_last]
  simp only [hult, hlt, Nat.add_sub_cancel, top_bit]
  grind

/-- The borrow of a subtraction that is made one bit wider. -/
theorem borrow (a b : BitVec w) :
    (a.setWidth (w + 1) - b.setWidth (w + 1)).getLsbD w = a.ult b := by
  have ha := a.isLt
  have hb := b.isLt
  have hult : a.ult b = decide (a.toNat < b.toNat) := rfl
  rw [top_bit, hult, BitVec.toNat_sub, BitVec.toNat_setWidth, BitVec.toNat_setWidth,
    Nat.mod_eq_of_lt (a := a.toNat) (by omega), Nat.mod_eq_of_lt (a := b.toNat) (by omega)]
  by_cases h : a.toNat < b.toNat
  · rw [Nat.mod_eq_of_lt (by omega)]
    simp only [h, decide_true, decide_eq_true_eq]
    omega
  · rw [show 2 ^ (w + 1) - b.toNat + a.toNat = (a.toNat - b.toNat) + 2 ^ (w + 1) by omega,
      Nat.add_mod_right, Nat.mod_eq_of_lt (by omega)]
    simp only [h, decide_false, decide_eq_false_iff_not]
    omega

theorem yOut_sub (undef a b : BitVec w) : ALU.yOut undef a b subOp = a - b := by
  change (a.setWidth (w + 1) - b.setWidth (w + 1)).setWidth w = a - b
  have ha := a.isLt
  have hb := b.isLt
  apply BitVec.eq_of_toNat_eq
  rw [BitVec.toNat_setWidth, BitVec.toNat_sub, BitVec.toNat_sub, BitVec.toNat_setWidth,
    BitVec.toNat_setWidth, Nat.mod_eq_of_lt (a := a.toNat) (by omega),
    Nat.mod_eq_of_lt (a := b.toNat) (by omega),
    Nat.mod_mod_of_dvd _ (Nat.pow_dvd_pow 2 (Nat.le_succ w)),
    show 2 ^ (w + 1) - b.toNat + a.toNat = (2 ^ w - b.toNat + a.toNat) + 2 ^ w by omega,
    Nat.add_mod_right]

theorem setWidth_ofBool (c : Bool) : (BitVec.ofBool c).setWidth w = if c = true then 1 else 0 := by
  cases c
  · simp
  · exact BitVec.eq_of_toNat_eq (by simp)

theorem yOut_sltu (undef a b : BitVec w) :
    ALU.yOut undef a b sltuOp = if a.ult b then 1 else 0 := by
  change (BitVec.ofBool (a.ult b)).setWidth w = _
  exact setWidth_ofBool _

section Signed
variable (undef a b : BitVec (w + 1))

theorem yOut_slt : ALU.yOut undef a b sltOp = if a.slt b then 1 else 0 := by
  rw [slt_iff]
  change (if a.getLsbD w = b.getLsbD w then
      (⟨false, false, (BitVec.ofBool (decide (a < b))).setWidth (w + 1)⟩ : ALU.Result (w + 1))
    else ⟨false, false, (BitVec.ofBool (a.getLsbD w)).setWidth (w + 1)⟩).ores = _
  split
  · exact setWidth_ofBool _
  · exact setWidth_ofBool _

theorem flags_sub :
    ALU.flagsOut undef a b subOp =
      BitVec.ofBool ((a.setWidth w).ult (b.setWidth w) ^^ a.ult b) ++
        BitVec.ofBool ((a - b).getLsbD w) ++ BitVec.ofBool (a.ult b) ++
        BitVec.ofBool (decide (a - b = 0)) := by
  rw [← borrow (a.setWidth w), ← borrow a, ← yOut_sub undef a b]
  rfl

/-- The sign of the difference and the two borrows together compare signed numbers. -/
theorem negative_overflow :
    ((a - b).getLsbD w ^^ ((a.setWidth w).ult (b.setWidth w) ^^ a.ult b)) = a.slt b := by
  have hl : (a.setWidth w).ult (b.setWidth w) = decide (a.toNat % 2 ^ w < b.toNat % 2 ^ w) := by
    simp only [BitVec.ult, BitVec.toNat_setWidth]
  have hult : a.ult b = decide (a.toNat < b.toNat) := rfl
  have hs : (a - b).getLsbD w =
      decide (2 ^ w ≤ (2 ^ (w + 1) - b.toNat + a.toNat) % 2 ^ (w + 1)) := by
    rw [top_bit, BitVec.toNat_sub]
  have ha' := a.isLt
  have hb' := b.isLt
  have hmod : ∀ n < 2 ^ (w + 1), n % 2 ^ w = if 2 ^ w ≤ n then n - 2 ^ w else n := by
    intro n hn
    split
    · rw [Nat.mod_eq_sub_mod ‹_›, Nat.mod_eq_of_lt (by omega)]
    · exact Nat.mod_eq_of_lt (by omega)
  have hdiff : (2 ^ (w + 1) - b.toNat + a.toNat) % 2 ^ (w + 1) =
      if b.toNat ≤ a.toNat then a.toNat - b.toNat else 2 ^ (w + 1) - b.toNat + a.toNat := by
    split
    · rw [show 2 ^ (w + 1) - b.toNat + a.toNat = (a.toNat - b.toNat) + 2 ^ (w + 1) by omega,
        Nat.add_mod_right, Nat.mod_eq_of_lt (by omega)]
    · exact Nat.mod_eq_of_lt (by omega)
  have hlt : (a < b) ↔ a.toNat < b.toNat := Iff.rfl
  rw [hl, hs, slt_iff, hult, hdiff, hmod _ ha', hmod _ hb']
  simp only [top_bit, hlt]
  have hpow : 2 ^ (w + 1) = 2 * 2 ^ w := by omega
  generalize 2 ^ w = p at hpow
  generalize 2 ^ (w + 1) = q at hpow ha' hb'
  grind

theorem flag_bits (v n c z : Bool) :
    let f : BitVec 4 := BitVec.ofBool v ++ BitVec.ofBool n ++ BitVec.ofBool c ++ BitVec.ofBool z
    f.getLsbD flagZero = z ∧ f.getLsbD flagCarry = c ∧ f.getLsbD flagNegative = n ∧
      f.getLsbD flagOverflow = v := by
  revert v n c z
  decide

theorem sub_eq_zero_iff (a b : BitVec w) : a - b = 0 ↔ a = b := by
  constructor
  · intro h
    rw [← BitVec.sub_add_cancel a b, h]
    exact BitVec.zero_add b
  · rintro rfl
    exact BitVec.sub_self a

/-- The four flags of a subtraction. -/
theorem flags_sub_bits :
    (ALU.flagsOut undef a b subOp).getLsbD flagZero = (a == b) ∧
    (ALU.flagsOut undef a b subOp).getLsbD flagCarry = a.ult b ∧
    ((ALU.flagsOut undef a b subOp).getLsbD flagNegative ^^
      (ALU.flagsOut undef a b subOp).getLsbD flagOverflow) = a.slt b := by
  have hz : decide (a - b = 0) = (a == b) := by
    rw [beq_eq_decide]
    exact decide_eq_decide.mpr (sub_eq_zero_iff a b)
  obtain ⟨h0, h1, h2, h3⟩ := flag_bits ((a.setWidth w).ult (b.setWidth w) ^^ a.ult b)
    ((a - b).getLsbD w) (a.ult b) (decide (a - b = 0))
  rw [flags_sub, h0, h1, h2, h3, hz, negative_overflow]
  exact ⟨rfl, rfl, rfl⟩

end Signed

/-- **Subtraction and comparison at every width**: the difference, what its flags compare, and the
two comparison results. -/
theorem comparisons (hw : 2 ≤ w) (undef a b : BitVec w) :
    ALU.yOut undef a b subOp = a - b ∧
      (ALU.flagsOut undef a b subOp).getLsbD flagZero = decide (a = b) ∧
      (ALU.flagsOut undef a b subOp).getLsbD flagCarry = decide (a.toNat < b.toNat) ∧
      ((ALU.flagsOut undef a b subOp).getLsbD flagNegative ^^
        (ALU.flagsOut undef a b subOp).getLsbD flagOverflow) = decide (a.toInt < b.toInt) ∧
      ALU.yOut undef a b sltOp = (if a.toInt < b.toInt then 1 else 0) ∧
      ALU.yOut undef a b sltuOp = (if a.toNat < b.toNat then 1 else 0) := by
  obtain ⟨w, rfl⟩ : ∃ v, w = v + 1 := ⟨w - 1, by omega⟩
  obtain ⟨hz, hc, hn⟩ := flags_sub_bits undef a b
  refine ⟨yOut_sub undef a b, ?_, hc, ?_, ?_, ?_⟩
  · rw [hz, beq_eq_decide]
  · rw [hn, BitVec.slt_eq_decide]
  · rw [yOut_slt, BitVec.slt_eq_decide]
    simp
  · rw [yOut_sltu, BitVec.ult_eq_decide]
    simp

theorem comparisons_two :
    ALU.yOut 0 1#2 2#2 subOp = 3 ∧
      (ALU.flagsOut 0 1#2 2#2 subOp).getLsbD flagZero = false ∧
      (ALU.flagsOut 0 1#2 2#2 subOp).getLsbD flagCarry = true ∧
      ((ALU.flagsOut 0 1#2 2#2 subOp).getLsbD flagNegative ^^
        (ALU.flagsOut 0 1#2 2#2 subOp).getLsbD flagOverflow) = false ∧
      ALU.yOut 0 1#2 2#2 sltOp = 0 ∧ ALU.yOut 0 1#2 2#2 sltuOp = 1 :=
  comparisons (by decide) 0 1#2 2#2

end RangerRisc
