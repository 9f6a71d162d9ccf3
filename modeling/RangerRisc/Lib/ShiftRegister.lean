import Mathlib.Data.BitVec
import Mathlib.Tactic.Common

/-! Words sent bit by bit, the most significant first: the sender shifts its register to the
left, the receiver shifts its own and takes the bit in at the low end. -/

namespace ShiftRegister

variable {w : ℕ}

/-- The register shifted by one, with `b` at the low end. -/
def shiftIn (acc : BitVec (w + 1)) (b : Bool) : BitVec (w + 1) :=
  BitVec.concat (acc.extractLsb' 0 w) b

theorem getLsbD_shiftIn (acc : BitVec (w + 1)) (b : Bool) {i : ℕ} (hi : i ≤ w) :
    (shiftIn acc b).getLsbD i = if i = 0 then b else acc.getLsbD (i - 1) := by
  rw [shiftIn, BitVec.getLsbD_concat]
  split
  · rfl
  · rw [BitVec.getLsbD_extractLsb', Nat.zero_add]
    simp only [show i - 1 < w by omega, decide_true, Bool.true_and]

/-- The high `k` bits of `x` have arrived: they are the low `k` bits of `acc`. -/
def Received (x acc : BitVec (w + 1)) (k : ℕ) : Prop :=
  ∀ i < k, acc.getLsbD i = x.getLsbD (w + 1 - k + i)

theorem Received.zero (x acc : BitVec (w + 1)) : Received x acc 0 :=
  fun _ hi => absurd hi (Nat.not_lt_zero _)

/-- The next bit is the one at the top of `x` shifted `k` times. -/
theorem Received.shiftIn {x acc : BitVec (w + 1)} {k : ℕ} (h : Received x acc k) (hk : k ≤ w) :
    Received x (shiftIn acc (x <<< k).msb) (k + 1) := by
  intro i hi
  rw [getLsbD_shiftIn acc _ (by omega)]
  split
  · rename_i h0
    subst h0
    rw [BitVec.msb_shiftLeft, BitVec.getMsbD_eq_getLsbD]
    simp only [show k < w + 1 by omega, decide_true, Bool.true_and]
    congr 1
    omega
  · rw [h (i - 1) (by omega)]
    congr 1
    omega

/-- When all bits have arrived, whatever the register held before. -/
theorem Received.eq {x acc : BitVec (w + 1)} (h : Received x acc (w + 1)) : acc = x := by
  apply BitVec.eq_of_getLsbD_eq
  intro i hi
  rw [h i hi, Nat.sub_self, Nat.zero_add]

end ShiftRegister
