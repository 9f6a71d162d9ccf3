import Mathlib.Algebra.Group.Nat.Defs
import Mathlib.Data.List.Nodup
import Mathlib.Tactic.Common

/-! Blocks of addresses that count up from a start and wrap around: when they repeat an address. -/

namespace Blocks

variable {w : ℕ}

/-- The `n` addresses from `s` on. -/
def block (s : BitVec w) (n : ℕ) : List (BitVec w) :=
  (List.range n).map fun i => s + BitVec.ofNat w i

/-- Neither block reaches the start of the other one. -/
def Apart (b c : BitVec w × ℕ) : Prop :=
  b.2 = 0 ∨ c.2 = 0 ∨ b.2 ≤ (c.1 - b.1).toNat ∧ c.2 ≤ (b.1 - c.1).toNat

instance (b c : BitVec w × ℕ) : Decidable (Apart b c) := inferInstanceAs (Decidable (_ ∨ _))

/-- The addresses of a block, by how far they are from its start. -/
theorem mem_block {s a : BitVec w} {n : ℕ} : a ∈ block s n ↔ (a - s).toNat < n := by
  rw [block, List.mem_map]
  constructor
  · rintro ⟨i, hi, rfl⟩
    have hoff : s + BitVec.ofNat w i - s = BitVec.ofNat w i := by
      rw [BitVec.add_comm, BitVec.add_sub_cancel]
    rw [hoff, BitVec.toNat_ofNat]
    exact Nat.lt_of_le_of_lt (Nat.mod_le i _) (List.mem_range.mp hi)
  · intro h
    refine ⟨(a - s).toNat, List.mem_range.mpr h, ?_⟩
    rw [BitVec.ofNat_toNat, BitVec.setWidth_eq, BitVec.add_comm, BitVec.sub_add_cancel]

theorem block_succ (s : BitVec w) (n : ℕ) : block s (n + 1) = s :: block (s + 1) n := by
  rw [block, List.range_succ_eq_map, List.map_cons, List.map_map, block]
  congr 1
  · exact BitVec.add_zero s
  · refine List.map_congr_left fun i _ => ?_
    show s + BitVec.ofNat w (i + 1) = s + 1 + BitVec.ofNat w i
    rw [BitVec.ofNat_add, BitVec.add_assoc, BitVec.add_comm (BitVec.ofNat w i)]
    rfl

/-- A block repeats an address if it is longer than the address space. -/
theorem nodup_block (s : BitVec w) (n : ℕ) : (block s n).Nodup ↔ n ≤ 2 ^ w := by
  rw [block, List.nodup_map_iff_inj_on List.nodup_range]
  constructor
  · intro h
    by_contra hlong
    have hpos := Nat.two_pow_pos w
    have hzero : BitVec.ofNat w 0 = BitVec.ofNat w (2 ^ w) := by
      apply BitVec.eq_of_toNat_eq
      rw [BitVec.toNat_ofNat, BitVec.toNat_ofNat, Nat.zero_mod, Nat.mod_self]
    have hwrap := h 0 (List.mem_range.mpr (by omega)) (2 ^ w) (List.mem_range.mpr (by omega))
      (congrArg (s + ·) hzero)
    omega
  · intro hn i hi j hj heq
    have hi := List.mem_range.mp hi
    have hj := List.mem_range.mp hj
    have hoff := congrArg (· - s) heq
    simp only [BitVec.add_comm s, BitVec.add_sub_cancel] at hoff
    have hnat := congrArg BitVec.toNat hoff
    rwa [BitVec.toNat_ofNat, BitVec.toNat_ofNat, Nat.mod_eq_of_lt (by omega),
      Nat.mod_eq_of_lt (by omega)] at hnat

/-- **Two blocks have an address in common** exactly if one of them reaches the start of the
other. -/
theorem disjoint_block (s t : BitVec w) (n m : ℕ) :
    (block s n).Disjoint (block t m) ↔ Apart (s, n) (t, m) := by
  simp only [Apart, List.Disjoint, mem_block]
  constructor
  · intro h
    by_cases hn : n = 0
    · exact .inl hn
    by_cases hm : m = 0
    · exact .inr (.inl hm)
    have hzero : ∀ u : BitVec w, (u - u).toNat = 0 := by simp
    refine .inr (.inr ⟨?_, ?_⟩)
    · by_contra hlt
      exact @h t (by omega) (by rw [hzero]; omega)
    · by_contra hlt
      exact @h s (by rw [hzero]; omega) (by omega)
  · rintro (rfl | rfl | ⟨hn, hm⟩) a hs ht
    · exact absurd hs (Nat.not_lt_zero _)
    · exact absurd ht (Nat.not_lt_zero _)
    · have hsum : a - s = (a - t) + (t - s) := by grind
      have hflip : s - t = -(t - s) := by grind
      have hnat := congrArg BitVec.toNat hsum
      have hneg : (s - t).toNat = (2 ^ w - (t - s).toNat) % 2 ^ w := by
        rw [hflip, BitVec.toNat_neg]
      have hlt := (t - s).isLt
      have hlt' := (a - t).isLt
      rw [BitVec.toNat_add] at hnat
      have hneg' : (s - t).toNat = 2 ^ w - (t - s).toNat := by
        rw [hneg, Nat.mod_eq_of_lt (by omega)]
      have hmod := Nat.mod_eq_of_lt (a := (a - t).toNat + (t - s).toNat) (b := 2 ^ w) (by omega)
      omega

/-- **Addresses of several blocks** are all different exactly if no block is too long and every two
of them are apart. -/
theorem nodup_blocks (bs : List (BitVec w × ℕ)) :
    (bs.flatMap fun b => block b.1 b.2).Nodup ↔ (∀ b ∈ bs, b.2 ≤ 2 ^ w) ∧ bs.Pairwise Apart := by
  rw [List.nodup_flatMap]
  refine and_congr (forall₂_congr fun b _ => nodup_block b.1 b.2) ?_
  have hrel : (Function.onFun List.Disjoint fun b : BitVec w × ℕ => block b.1 b.2) = Apart := by
    funext b c
    exact propext (disjoint_block b.1 c.1 b.2 c.2)
  rw [hrel]

end Blocks
