import Mathlib.Tactic.Common

/-! Single-bit assignment in a bit vector, as a hardware description writes `x[i] = b`. -/

namespace BitField

variable {w : ℕ}

/-- `x` with bit `i` set to `b`. -/
def assignBit (x : BitVec w) (i : ℕ) (b : Bool) : BitVec w :=
  if b then x ||| BitVec.twoPow w i else x &&& ~~~(BitVec.twoPow w i)

theorem getLsbD_assignBit (x : BitVec w) (i j : ℕ) (b : Bool) (hi : i < w) :
    (assignBit x i b).getLsbD j = if j = i then b else x.getLsbD j := by
  unfold assignBit
  by_cases h : j = i
  · subst h
    cases b <;> simp [hi]
  · have h' : ¬ i = j := fun e => h e.symm
    cases b <;> simp [h, h']
    intro hx
    exact BitVec.lt_of_getLsbD hx

theorem getLsbD_assignBit_self (x : BitVec w) (i : ℕ) (b : Bool) (hi : i < w) :
    (assignBit x i b).getLsbD i = b := by
  rw [getLsbD_assignBit x i i b hi, if_pos rfl]

theorem getLsbD_assignBit_of_ne (x : BitVec w) {i j : ℕ} (b : Bool) (hi : i < w) (h : j ≠ i) :
    (assignBit x i b).getLsbD j = x.getLsbD j := by
  rw [getLsbD_assignBit x i j b hi, if_neg h]

theorem assignBit_assignBit (x : BitVec w) (i : ℕ) (b c : Bool) (hi : i < w) :
    assignBit (assignBit x i b) i c = assignBit x i c := by
  apply BitVec.eq_of_getLsbD_eq
  intro j _
  simp only [getLsbD_assignBit _ i j _ hi]
  split <;> rfl

end BitField
