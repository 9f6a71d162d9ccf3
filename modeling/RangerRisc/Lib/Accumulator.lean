import Mathlib.Algebra.Group.Nat.Defs
import Mathlib.Tactic.Common

/-! Phase accumulators: a register that gains a constant at every edge and whose bit `i`
is taken as a tick, so that the edges between two ticks need not divide a power of two. -/

namespace PhaseAccumulator

variable {w : ℕ} (inc : BitVec w)

/-- The register `n` edges after it was cleared. -/
def phase (n : ℕ) : BitVec w := BitVec.ofNat w (n * inc.toNat)

/-- How many edges after a clear the tick on bit `i` is seen. -/
def wait (i : ℕ) : ℕ := (2 ^ i + inc.toNat - 1) / inc.toNat

@[simp] theorem phase_zero : phase inc 0 = 0 := by simp [phase]

@[simp] theorem phase_succ (n : ℕ) : phase inc n + inc = phase inc (n + 1) := by
  apply BitVec.eq_of_toNat_eq
  simp [phase, Nat.add_mul]

variable {inc}

theorem mul_lt_of_lt_wait {i n : ℕ} (hn : n < wait inc i) : n * inc.toNat < 2 ^ i := by
  have h : (n + 1) * inc.toNat ≤ 2 ^ i + inc.toNat - 1 := Nat.mul_le_of_le_div _ _ _ hn
  have hpos : 0 < inc.toNat := by
    by_contra h0
    simp [wait, Nat.eq_zero_of_not_pos h0] at hn
  rw [Nat.add_mul, Nat.one_mul] at h
  omega

theorem le_mul_wait {i : ℕ} (hpos : 0 < inc.toNat) : 2 ^ i ≤ wait inc i * inc.toNat := by
  have h : 2 ^ i + inc.toNat - 1 < inc.toNat * (wait inc i + 1) := Nat.lt_mul_div_succ _ hpos
  rw [Nat.mul_add, Nat.mul_one, Nat.mul_comm] at h
  omega

/-- **The tick.** An increment that does not pass over bit `i` sets it for the first time
after `wait inc i` edges. -/
theorem getLsbD_phase {i n : ℕ} (hpos : 0 < inc.toNat) (hinc : inc.toNat ≤ 2 ^ i) (hi : i < w)
    (hn : n ≤ wait inc i) : (phase inc n).getLsbD i = decide (n = wait inc i) := by
  rw [phase, BitVec.getLsbD_ofNat, decide_eq_true hi, Bool.true_and]
  rcases Nat.lt_or_eq_of_le hn with hlt | rfl
  · rw [decide_eq_false (Nat.ne_of_lt hlt)]
    exact Nat.testBit_lt_two_pow (mul_lt_of_lt_wait hlt)
  · rw [decide_eq_true rfl]
    have hlow := le_mul_wait (i := i) hpos
    have hhigh : wait inc i * inc.toNat ≤ 2 ^ i + inc.toNat - 1 := Nat.div_mul_le_self _ _
    apply Nat.testBit_of_two_pow_le_and_two_pow_add_one_gt hlow
    rw [Nat.pow_succ]
    omega

/-! ## From any value on -/

/-- How many edges it takes from the value `c` until the tick on bit `i` is seen. -/
def untilTick (inc : BitVec w) (i : ℕ) (c : BitVec w) : ℕ :=
  if c.getLsbD i then 0 else (2 ^ i - c.toNat % 2 ^ i + inc.toNat - 1) / inc.toNat

theorem untilTick_le_wait (i : ℕ) (c : BitVec w) : untilTick inc i c ≤ wait inc i := by
  unfold untilTick
  split
  · exact Nat.zero_le _
  · exact Nat.div_le_div_right (by omega)

/-- An edge without the tick takes bit `i` into account with what it carries. -/
theorem getLsbD_add_inc {i : ℕ} {c : BitVec w} (hinc : inc.toNat ≤ 2 ^ i) (hi : i < w)
    (hc : c.getLsbD i = false) :
    (c + inc).getLsbD i = decide (2 ^ i ≤ c.toNat % 2 ^ i + inc.toNat) := by
  have hpow : 0 < 2 ^ i := Nat.two_pow_pos i
  have heven : c.toNat / 2 ^ i % 2 = 0 := by
    rw [← BitVec.testBit_toNat, Nat.testBit_eq_decide_div_mod_eq, decide_eq_false_iff_not] at hc
    omega
  have hmod : c.toNat % 2 ^ i < 2 ^ i := Nat.mod_lt _ hpow
  have hsum : (c.toNat + inc.toNat) / 2 ^ i =
      c.toNat / 2 ^ i + (c.toNat % 2 ^ i + inc.toNat) / 2 ^ i := by
    rw [← Nat.mul_add_div hpow, ← Nat.add_assoc, Nat.div_add_mod]
  rw [← BitVec.testBit_toNat, BitVec.toNat_add, Nat.testBit_mod_two_pow, decide_eq_true hi,
    Bool.true_and, Nat.testBit_eq_decide_div_mod_eq, decide_eq_decide, hsum]
  rcases Nat.lt_or_ge (c.toNat % 2 ^ i + inc.toNat) (2 ^ i) with hlt | hge
  · rw [Nat.div_eq_of_lt hlt]
    omega
  · have hone : (c.toNat % 2 ^ i + inc.toNat) / 2 ^ i = 1 :=
      Nat.div_eq_of_lt_le (by rwa [Nat.one_mul]) (by rw [Nat.add_mul, Nat.one_mul]; omega)
    rw [hone]
    omega

/-- **The tick comes nearer.** Whatever the register holds, an edge that does not see the tick is
one of those that it takes. -/
theorem untilTick_add_lt {i : ℕ} {c : BitVec w} (hpos : 0 < inc.toNat) (hinc : inc.toNat ≤ 2 ^ i)
    (hi : i < w) (hc : c.getLsbD i = false) : untilTick inc i (c + inc) < untilTick inc i c := by
  have hmod : c.toNat % 2 ^ i < 2 ^ i := Nat.mod_lt _ (Nat.two_pow_pos i)
  have hone : untilTick inc i c = (2 ^ i - c.toNat % 2 ^ i - 1) / inc.toNat + 1 := by
    rw [untilTick, hc, if_neg Bool.false_ne_true, ← Nat.add_div_right _ hpos]
    congr 1
    omega
  rw [hone, untilTick, getLsbD_add_inc hinc hi hc]
  split
  · exact Nat.succ_pos _
  · next h =>
    have hlt : c.toNat % 2 ^ i + inc.toNat < 2 ^ i := by simpa using h
    have hnext : (c + inc).toNat % 2 ^ i = c.toNat % 2 ^ i + inc.toNat := by
      rw [BitVec.toNat_add, Nat.mod_mod_of_dvd _ (Nat.pow_dvd_pow 2 (Nat.le_of_lt hi)), Nat.add_mod,
        Nat.mod_eq_of_lt (show inc.toNat < 2 ^ i by omega), Nat.mod_eq_of_lt hlt]
    rw [hnext]
    refine Nat.lt_succ_of_le (Nat.div_le_div_right ?_)
    omega

end PhaseAccumulator
