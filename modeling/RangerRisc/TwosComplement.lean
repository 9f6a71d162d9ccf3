import RangerRisc.AssemblerUtils

/-! `TwosComplement` and `IntToBinaryString` as arithmetic. `AddOne` leaves its loop before the
first element of the array, so that a carry into the highest bit is lost. -/

namespace RangerRisc.Assembler

open Numeral

/-- The number that an array spells, from its highest bit down. -/
def arrayValue (arr : List Bool) : ℕ := Nat.ofDigits 2 (arr.reverse.map Bool.toNat)

theorem testBit_arrayValue (arr : List Bool) (i : ℕ) :
    (arrayValue arr).testBit i = arr.reverse.getD i false :=
  testBit_ofDigits arr.reverse i

/-- Every array is the bits of a word. -/
theorem wordBits_arrayValue (arr : List Bool) :
    wordBits (BitVec.ofNat arr.length (arrayValue arr)) = arr := by
  refine ((eq_wordBits_iff rfl _).mpr fun i hi => ?_).symm
  rw [BitVec.getLsbD_ofNat, decide_eq_true hi, testBit_arrayValue, Bool.true_and]

theorem arrayValue_wordBits {w : ℕ} (x : BitVec w) : arrayValue (wordBits x) = x.toNat := by
  have hlen : (wordBits x).length = w := by simp [wordBits]
  apply Nat.eq_of_testBit_eq
  intro i
  rw [testBit_arrayValue]
  rcases Nat.lt_or_ge i w with hi | hi
  · exact getD_reverse_wordBits x hi
  · rw [BitVec.testBit_toNat, BitVec.getLsbD_of_ge x i hi, List.getD_eq_getElem?_getD,
      List.getElem?_eq_none (by simpa [hlen] using hi), Option.getD_none]

theorem bits_succ (w n : ℕ) : bits (w + 1) n = n.testBit w :: bits w n := by
  simp [bits, List.range_succ]

theorem true_mem_bits {w n : ℕ} : true ∈ bits w n ↔ ∃ j < w, n.testBit j = true := by
  simp [bits]

/-- The complement of an array is its negation exactly if the carry stops behind the first
element. -/
theorem arrayValue_twosComplement_iff (arr : List Bool) :
    arrayValue (twosComplement arr) = (2 ^ arr.length - arrayValue arr) % 2 ^ arr.length ↔
      arr = [] ∨ true ∈ arr.tail := by
  obtain ⟨w, x, rfl⟩ : ∃ (w : ℕ) (x : BitVec w), wordBits x = arr := ⟨_, _, wordBits_arrayValue arr⟩
  have hlen : (wordBits x).length = w := by simp [wordBits]
  have hlen' : (twosComplement (wordBits x)).length = w := by rw [length_twosComplement, hlen]
  have hvalue : arrayValue (twosComplement (wordBits x)) = (-x).toNat ↔
      twosComplement (wordBits x) = wordBits (-x) := by
    constructor
    · intro h
      rw [eq_wordBits_iff hlen']
      intro i _
      rw [← testBit_arrayValue, h, BitVec.testBit_toNat]
    · intro h
      rw [h, arrayValue_wordBits]
  rw [hlen, arrayValue_wordBits, ← BitVec.toNat_neg, hvalue, twosComplement_wordBits_iff]
  cases w with
  | zero => simp [wordBits, bits]
  | succ w =>
    rw [wordBits, bits_succ, List.tail_cons, true_mem_bits]
    simp [BitVec.testBit_toNat]

theorem binaryArrayToString_false {w : ℕ} (x : BitVec w) :
    binaryArrayToString (wordBits x) false = print 2 w x.toNat := by
  rw [binaryArrayToString, if_neg Bool.false_ne_true, wordBits, print_two x.isLt]

theorem intToBinaryString_ofInt {z : ℤ} (hlow : -2 ^ 31 < z) (hhigh : z < 2 ^ 32) :
    intToBinaryString (BitVec.ofInt 64 z) = print 2 32 (z % 2 ^ 32).toNat := by
  have hword : (BitVec.ofInt 32 z).toNat = (z % 2 ^ 32).toNat := BitVec.toNat_ofInt z
  have harray := intToBinaryArray_ofInt hlow hhigh
  rw [← hword]
  rcases Int.lt_or_le z 0 with hneg | hpos
  · obtain ⟨m, rfl⟩ : ∃ m : ℕ, z = -(m : ℤ) := ⟨z.natAbs, by omega⟩
    rw [intToBinaryArray, intToBinaryString_neg (by omega) (by omega),
      binaryStringToArray_binaryArrayToString] at harray
    rw [intToBinaryString_neg (by omega) (by omega), harray, binaryArrayToString_false]
  · obtain ⟨m, rfl⟩ : ∃ m : ℕ, z = m := ⟨z.toNat, by omega⟩
    rw [intToBinaryString_natCast (by omega), hword, Int.emod_eq_of_lt hpos hhigh,
      Int.toNat_natCast]

theorem value_intToBinaryString_iff {v : BitVec 64} (hlow : -2 ^ 31 ≤ v.toInt)
    (hhigh : v.toInt < 2 ^ 32) :
    (intToBinaryString v).length = 32 ∧
        value 2 (intToBinaryString v) = some (v.toInt % 2 ^ 32).toNat ↔
      v.toInt ≠ -2 ^ 31 := by
  constructor
  · rintro ⟨-, hvalue⟩ hmin
    obtain rfl : v = BitVec.ofInt 64 (-2 ^ 31) := by rw [← hmin, BitVec.ofInt_toInt]
    revert hvalue
    decide +kernel
  · intro hmin
    have hstring := intToBinaryString_ofInt (by omega) hhigh
    rw [BitVec.ofInt_toInt] at hstring
    have hlt : (v.toInt % 2 ^ 32).toNat < 2 ^ 32 := by omega
    rw [hstring]
    refine ⟨?_, value_print _ Nat.one_lt_two (by omega) (by omega)⟩
    rw [print_two hlt, List.length_map, length_bits]

/-- **The helpers are right exactly where no carry reaches the highest bit**: of the numbers only
the lowest is misread, of the arrays those with nothing but zeros behind the first element. -/
theorem twosComplement_iff {v : BitVec 64} (hlow : -2 ^ 31 ≤ v.toInt) (hhigh : v.toInt < 2 ^ 32)
    (arr : List Bool) :
    ((intToBinaryString v).length = 32 ∧
        value 2 (intToBinaryString v) = some (v.toInt % 2 ^ 32).toNat ↔ v.toInt ≠ -2 ^ 31) ∧
      ((twosComplement arr).length = arr.length ∧
        arrayValue (twosComplement arr) = (2 ^ arr.length - arrayValue arr) % 2 ^ arr.length ↔
          arr = [] ∨ true ∈ arr.tail) :=
  ⟨value_intToBinaryString_iff hlow hhigh, by
    rw [← arrayValue_twosComplement_iff]
    exact and_iff_right (length_twosComplement arr)⟩

theorem twosComplement_five :
    ((intToBinaryString (-5)).length = 32 ∧
        value 2 (intToBinaryString (-5)) = some ((-5 : BitVec 64).toInt % 2 ^ 32).toNat) ∧
      arrayValue (twosComplement [false, true, false, true]) = 11 :=
  have h := @twosComplement_iff (-5) (by decide) (by decide) [false, true, false, true]
  ⟨h.1.mpr (by decide), (h.2.mpr (.inr (by decide))).2⟩

/-- The lowest number reads as zero, and so does the complement of zero as the highest bit. -/
theorem lowest_misread :
    ¬ ((∀ v : BitVec 64, -2 ^ 31 ≤ v.toInt → v.toInt < 2 ^ 32 →
        (intToBinaryString v).length = 32 ∧
          value 2 (intToBinaryString v) = some (v.toInt % 2 ^ 32).toNat) ∧
      ∀ arr : List Bool,
        arrayValue (twosComplement arr) = (2 ^ arr.length - arrayValue arr) % 2 ^ arr.length) := by
  rintro ⟨h, -⟩
  have hlowest := (h (BitVec.ofInt 64 (-2 ^ 31)) (by decide) (by decide)).2
  revert hlowest
  decide +kernel

end RangerRisc.Assembler
