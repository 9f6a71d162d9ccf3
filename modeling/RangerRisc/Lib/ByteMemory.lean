import Mathlib.Data.BitVec
import Mathlib.Logic.Function.Basic
import Mathlib.Tactic.Common

/-! Little-endian byte memories, and a memory of 32-bit words seen as one. -/

namespace ByteMemory

variable {n : ℕ}

abbrev Bytes (n : ℕ) := BitVec n → BitVec 8

/-- The `k` bytes from `addr` up, the first of them least significant. -/
def load (m : Bytes n) (addr : BitVec n) : (k : ℕ) → BitVec (8 * k)
  | 0 => 0#0
  | k + 1 => load m (addr + 1) k ++ m addr

/-- Puts the `k` bytes of `v` at `addr` and up. -/
def store (m : Bytes n) (addr : BitVec n) {k : ℕ} (v : BitVec (8 * k)) : Bytes n := fun a =>
  if (a - addr).toNat < k then v.extractLsb' (8 * (a - addr).toNat) 8 else m a

/-- A byte outside the stored range keeps its value. -/
theorem store_of_outside (m : Bytes n) (addr a : BitVec n) {k : ℕ} (v : BitVec (8 * k))
    (h : k ≤ (a - addr).toNat) : store m addr v a = m a :=
  if_neg (Nat.not_lt.mpr h)

/-! ## Words -/

/-- The word that holds the byte at `a`, and where in it. -/
def wordOf (a : BitVec (n + 2)) : BitVec n := BitVec.ofNat n (a.toNat / 4)
def laneOf (a : BitVec (n + 2)) : ℕ := a.toNat % 4

theorem laneOf_lt (a : BitVec (n + 2)) : laneOf a < 4 := Nat.mod_lt _ (by decide)

/-- The bytes of a memory of words. -/
def ofWords (mem : BitVec n → BitVec 32) : Bytes (n + 2) := fun a =>
  (mem (wordOf a)).extractLsb' (8 * laneOf a) 8

/-- Two addresses are equal when word and lane are. -/
theorem eq_of_wordOf_laneOf {a b : BitVec (n + 2)} (hw : wordOf a = wordOf b)
    (hl : laneOf a = laneOf b) : a = b := by
  have ha : a.toNat / 4 < 2 ^ n := by
    have := a.isLt
    rw [Nat.pow_add] at this
    omega
  have hb : b.toNat / 4 < 2 ^ n := by
    have := b.isLt
    rw [Nat.pow_add] at this
    omega
  have hd := congrArg BitVec.toNat hw
  simp only [wordOf, BitVec.toNat_ofNat, Nat.mod_eq_of_lt ha, Nat.mod_eq_of_lt hb] at hd
  unfold laneOf at hl
  apply BitVec.eq_of_toNat_eq
  omega

/-- Stepping inside a word. -/
theorem toNat_add_of_laneOf {a : BitVec (n + 2)} {j : ℕ} (h : laneOf a + j < 4) :
    (a + BitVec.ofNat (n + 2) j).toNat = a.toNat + j := by
  have ha := a.isLt
  unfold laneOf at h
  rw [Nat.pow_add] at ha
  rw [BitVec.toNat_add, BitVec.toNat_ofNat, Nat.add_mod_mod, Nat.mod_eq_of_lt]
  rw [Nat.pow_add]
  omega

theorem wordOf_add {a : BitVec (n + 2)} {j : ℕ} (h : laneOf a + j < 4) :
    wordOf (a + BitVec.ofNat (n + 2) j) = wordOf a := by
  unfold wordOf
  rw [toNat_add_of_laneOf h]
  unfold laneOf at h
  rw [show (a.toNat + j) / 4 = a.toNat / 4 by omega]

theorem laneOf_add {a : BitVec (n + 2)} {j : ℕ} (h : laneOf a + j < 4) :
    laneOf (a + BitVec.ofNat (n + 2) j) = laneOf a + j := by
  have hj := toNat_add_of_laneOf h
  unfold laneOf at h ⊢
  omega

/-- Loading from within one word. -/
theorem load_ofWords (mem : BitVec n → BitVec 32) (a : BitVec (n + 2)) {k : ℕ}
    (h : laneOf a + k ≤ 4) :
    load (ofWords mem) a k = (mem (wordOf a)).extractLsb' (8 * laneOf a) (8 * k) := by
  induction k generalizing a with
  | zero => exact BitVec.eq_of_toNat_eq (by simp [load])
  | succ k ih =>
    apply BitVec.eq_of_getLsbD_eq
    intro i hi
    rw [load, BitVec.getLsbD_append]
    by_cases h8 : i < 8
    · have hle : i < 8 * (k + 1) := by omega
      simp [h8, hle, ofWords]
    · have h1 : laneOf a + 1 < 4 := by omega
      have hrest := ih (a + 1#(n + 2)) (by rw [laneOf_add h1]; omega)
      rw [wordOf_add h1, laneOf_add h1] at hrest
      have hi' : i - 8 < 8 * k := by omega
      have hbit : 8 * (laneOf a + 1) + (i - 8) = 8 * laneOf a + i := by omega
      change (if i < 8 then _ else (load (ofWords mem) (a + 1#(n + 2)) k).getLsbD (i - 8)) = _
      rw [hrest, if_neg h8, BitVec.getLsbD_extractLsb', BitVec.getLsbD_extractLsb', hbit]
      simp [hi, hi']

/-- Storing into one word: `x` is that word with the bytes of `v` put in place. -/
theorem store_ofWords (mem : BitVec n → BitVec 32) (a : BitVec (n + 2)) {k : ℕ}
    (v : BitVec (8 * k)) {x : BitVec 32} (h : laneOf a + k ≤ 4)
    (hx : ∀ i, x.getLsbD i =
      if 8 * laneOf a ≤ i ∧ i < 8 * (laneOf a + k) then v.getLsbD (i - 8 * laneOf a)
      else (mem (wordOf a)).getLsbD i) :
    store (ofWords mem) a v = ofWords (Function.update mem (wordOf a) x) := by
  funext b
  by_cases hin : (b - a).toNat < k
  · -- the byte is `j` lanes above `a`, in the same word
    obtain ⟨j, hj⟩ : ∃ j, (b - a).toNat = j := ⟨_, rfl⟩
    have hb : b = a + BitVec.ofNat (n + 2) j := by
      rw [← hj, BitVec.ofNat_toNat, BitVec.setWidth_eq, BitVec.add_comm, BitVec.sub_add_cancel]
    have hjk : laneOf a + j < 4 := by omega
    rw [store, if_pos hin, hj, ofWords, hb, wordOf_add hjk, laneOf_add hjk, Function.update_self]
    apply BitVec.eq_of_getLsbD_eq
    intro i hi
    rw [BitVec.getLsbD_extractLsb', BitVec.getLsbD_extractLsb', hx, if_pos (by omega)]
    rw [show 8 * (laneOf a + j) + i - 8 * laneOf a = 8 * j + i by omega]
  · rw [store_of_outside _ _ _ _ (Nat.not_lt.mp hin), ofWords, ofWords]
    by_cases hw : wordOf b = wordOf a
    · rw [hw, Function.update_self]
      have hout : laneOf b < laneOf a ∨ laneOf a + k ≤ laneOf b := by
        by_contra hcon
        have hlane := laneOf_lt b
        have hlt : laneOf a + (laneOf b - laneOf a) < 4 := by omega
        have hb : b = a + BitVec.ofNat (n + 2) (laneOf b - laneOf a) :=
          eq_of_wordOf_laneOf (by rw [wordOf_add hlt, hw]) (by rw [laneOf_add hlt]; omega)
        apply hin
        rw [hb, BitVec.add_comm, BitVec.add_sub_cancel, BitVec.toNat_ofNat]
        exact lt_of_le_of_lt (Nat.mod_le _ _) (by omega)
      apply BitVec.eq_of_getLsbD_eq
      intro i hi
      rw [BitVec.getLsbD_extractLsb', BitVec.getLsbD_extractLsb', hx, if_neg (by omega)]
    · rw [Function.update_of_ne hw]

end ByteMemory
