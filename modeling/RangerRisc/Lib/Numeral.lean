import Mathlib.Data.Nat.Digits.Lemmas
import Mathlib.Data.Nat.Size
import Mathlib.Tactic.Common

/-! Numerals in text, most significant digit first: what a digit string is worth in a base
up to 36, and the numeral of a number padded with zeros. -/

namespace Numeral

def digitValue (c : Char) : Option ℕ :=
  if '0' ≤ c ∧ c ≤ '9' then some (c.toNat - '0'.toNat)
  else if 'a' ≤ c ∧ c ≤ 'z' then some (c.toNat - 'a'.toNat + 10)
  else if 'A' ≤ c ∧ c ≤ 'Z' then some (c.toNat - 'A'.toNat + 10)
  else none

def digit (b : ℕ) (c : Char) : Option ℕ := (digitValue c).filter (· < b)

/-- The number that a nonempty digit string stands for. -/
def value (b : ℕ) (s : List Char) : Option ℕ :=
  if s = [] then none else (s.mapM (digit b)).map fun ds => Nat.ofDigits b ds.reverse

def digitChar (d : ℕ) : Char := Char.ofNat (if d < 10 then '0'.toNat + d else 'A'.toNat + (d - 10))

/-- The numeral of `n`, with zeros in front of it up to the width `w`. -/
def print (b w n : ℕ) : List Char := (Nat.digitsAppend b w n).reverse.map digitChar

theorem digit_digitChar {b d : ℕ} (hb : b ≤ 36) (hd : d < b) : digit b (digitChar d) = some d := by
  have hvalue : ∀ d < 36, digitValue (digitChar d) = some d := by decide
  rw [digit, hvalue d (Nat.lt_of_lt_of_le hd hb)]
  simpa using hd

theorem mapM_digit {b : ℕ} (hb : b ≤ 36) {ds : List ℕ} (hds : ∀ d ∈ ds, d < b) :
    (ds.map digitChar).mapM (digit b) = some ds := by
  induction ds with
  | nil => rfl
  | cons d ds ih =>
    have hrest := ih (fun d' hd' => hds d' (List.mem_cons_of_mem d hd'))
    simp only [List.map_cons, List.mapM_cons, digit_digitChar hb (hds d List.mem_cons_self), hrest]
    rfl

/-- The value of a digit string whose digits are known. -/
theorem value_map_digitChar {b : ℕ} (hb : b ≤ 36) {ds : List ℕ} (hds : ∀ d ∈ ds, d < b)
    (hne : ds ≠ []) : value b (ds.map digitChar) = some (Nat.ofDigits b ds.reverse) := by
  rw [value, if_neg (by simpa using hne), mapM_digit hb hds]
  rfl

theorem print_ne_nil (b n : ℕ) {w : ℕ} (hw : 0 < w) : print b w n ≠ [] := by
  intro h
  have hlen := congrArg List.length h
  simp only [print, Nat.digitsAppend, List.length_map, List.length_reverse, List.length_append,
    List.length_replicate, List.length_nil] at hlen
  omega

/-- **Printing and reading back.** -/
theorem value_print {b w : ℕ} (n : ℕ) (hb : 1 < b) (hb' : b ≤ 36) (hw : 0 < w) :
    value b (print b w n) = some n := by
  have hds : ∀ d ∈ (Nat.digitsAppend b w n).reverse, d < b := by
    intro d hd
    exact Nat.lt_of_mem_digitsAppend hb w d (List.mem_reverse.mp hd)
  have hne : (Nat.digitsAppend b w n).reverse ≠ [] := by
    intro h
    exact print_ne_nil b n hw (by rw [print, h]; rfl)
  rw [print, value_map_digitChar hb' hds hne, List.reverse_reverse, Nat.digitsAppend,
    Nat.ofDigits_append_replicate_zero, Nat.ofDigits_digits]

theorem isSome_of_mapM {α β : Type} {f : α → Option β} {l : List α} {l' : List β}
    (h : l.mapM f = some l') : ∀ a ∈ l, (f a).isSome := by
  induction l generalizing l' with
  | nil => simp
  | cons a l ih =>
    rw [List.mapM_cons] at h
    obtain ⟨b, hb, h⟩ := Option.bind_eq_some_iff.mp h
    obtain ⟨bs, hbs, _⟩ := Option.bind_eq_some_iff.mp h
    intro a' ha'
    rcases List.mem_cons.mp ha' with rfl | ha'
    · simp [hb]
    · exact ih hbs a' ha'

/-- A text with a value is a nonempty string of digits. -/
theorem digits_of_value {b n : ℕ} {s : List Char} (h : value b s = some n) :
    s ≠ [] ∧ ∀ c ∈ s, (digit b c).isSome := by
  unfold value at h
  split at h
  · exact absurd h (by simp)
  · next hne =>
    obtain ⟨ds, hds, _⟩ := Option.map_eq_some_iff.mp h
    exact ⟨hne, isSome_of_mapM hds⟩

/-! ## Numerals by their digits -/

theorem value_cons_zero {b : ℕ} (hb : 0 < b) {s : List Char} (hs : s ≠ []) :
    value b ('0' :: s) = value b s := by
  have hzero : digit b '0' = some 0 := by simp [digit, digitValue, hb]
  rw [value, value, if_neg (List.cons_ne_nil _ _), if_neg hs, List.mapM_cons, hzero]
  cases s.mapM (digit b) with
  | none => rfl
  | some ds => simp [Nat.ofDigits_append]

/-- **Leading zeros** do not change the value of a numeral. -/
theorem value_zeros {b : ℕ} (hb : 0 < b) (k : ℕ) {s : List Char} (hs : s ≠ []) :
    value b (List.replicate k '0' ++ s) = value b s := by
  induction k with
  | zero => rfl
  | succ k ih =>
    rw [List.replicate_succ, List.cons_append, value_cons_zero hb (by simp [hs]), ih]

theorem value_singleton (b : ℕ) (c : Char) : value b [c] = digit b c := by
  rw [value, if_neg (List.cons_ne_nil _ _), List.mapM_cons]
  cases digit b c with
  | none => rfl
  | some d => simp

/-- The last digit and what stands before it. -/
theorem value_concat {b : ℕ} {s : List Char} (hs : s ≠ []) (c : Char) :
    value b (s ++ [c]) = (value b s).bind fun m => (digit b c).map fun d => b * m + d := by
  rw [value, value, if_neg (by simp), if_neg hs, List.mapM_append]
  cases s.mapM (digit b) with
  | none => rfl
  | some ds =>
    cases hc : digit b c with
    | none => simp [hc]
    | some d => simp [hc, Nat.ofDigits_cons, Nat.add_comm]

/-- The digits that a numeral begins with are worth no more than all of it. -/
theorem value_prefix_le {b n : ℕ} {s t : List Char} (hb : 0 < b) (hs : s ≠ [])
    (h : value b (s ++ t) = some n) : ∃ m ≤ n, value b s = some m := by
  induction t using List.reverseRecOn generalizing n with
  | nil => exact ⟨n, Nat.le_refl n, by rwa [List.append_nil] at h⟩
  | append_singleton t c ih =>
    rw [← List.append_assoc, value_concat (List.append_ne_nil_of_left_ne_nil hs t)] at h
    obtain ⟨n', hn', h⟩ := Option.bind_eq_some_iff.mp h
    obtain ⟨d, -, rfl⟩ := Option.map_eq_some_iff.mp h
    obtain ⟨m, hm, hvalue⟩ := ih hn'
    have hgrow : n' ≤ b * n' := Nat.le_mul_of_pos_left n' hb
    exact ⟨m, Nat.le_trans hm (Nat.le_trans hgrow (Nat.le_add_right _ _)), hvalue⟩

theorem digit_lt {b d : ℕ} {c : Char} (h : digit b c = some d) : d < b :=
  of_decide_eq_true (Option.filter_eq_some_iff.mp h).2

/-- A string of digits is worth less than the power that its length asks for. -/
theorem exists_value {b : ℕ} {s : List Char} (hs : s ≠ []) (h : ∀ c ∈ s, (digit b c).isSome) :
    ∃ n < b ^ s.length, value b s = some n := by
  induction s using List.reverseRecOn with
  | nil => exact absurd rfl hs
  | append_singleton s c ih =>
    obtain ⟨d, hd⟩ := Option.isSome_iff_exists.mp (h c (by simp))
    have hlt := digit_lt hd
    by_cases hnil : s = []
    · subst hnil
      exact ⟨d, by simpa using hlt, (value_singleton b c).trans hd⟩
    · obtain ⟨n, hn, hvalue⟩ := ih hnil fun x hx => h x (List.mem_append_left _ hx)
      refine ⟨b * n + d, ?_, ?_⟩
      · have hle : b * (n + 1) ≤ b * b ^ s.length := Nat.mul_le_mul_left b hn
        rw [List.length_append, List.length_singleton, Nat.pow_succ, Nat.mul_comm (b ^ s.length)]
        rw [Nat.mul_succ] at hle
        omega
      · rw [value_concat hnil, hvalue, hd]
        rfl

theorem digitValue_eq_zero {c : Char} (h : digitValue c = some 0) : c = '0' := by
  unfold digitValue at h
  split_ifs at h with h0 ha hA
  · have hle : c.toNat ≤ '0'.toNat := Nat.sub_eq_zero_iff_le.mp (Option.some.inj h)
    have hge : '0'.toNat ≤ c.toNat := UInt32.le_iff_toNat_le.mp h0.1
    exact Char.ext (UInt32.toNat_inj.mp (Nat.le_antisymm hle hge))
  · simp at h
  · simp at h

/-- Only zeros are worth nothing. -/
theorem eq_zeros_of_value {b : ℕ} {s : List Char} (h : value b s = some 0) (hb : 0 < b) :
    s = List.replicate s.length '0' := by
  induction s using List.reverseRecOn with
  | nil => rfl
  | append_singleton s c ih =>
    have hdigit : digit b c = some 0 ∧ (s = [] ∨ value b s = some 0) := by
      by_cases hs : s = []
      · subst hs
        exact ⟨by rwa [List.nil_append, value_singleton] at h, .inl rfl⟩
      · rw [value_concat hs] at h
        obtain ⟨m, hm, h⟩ := Option.bind_eq_some_iff.mp h
        obtain ⟨d, hd, h⟩ := Option.map_eq_some_iff.mp h
        obtain ⟨hm0, rfl⟩ := Nat.add_eq_zero_iff.mp h
        obtain rfl : m = 0 := by
          rcases Nat.mul_eq_zero.mp hm0 with h | h
          · omega
          · exact h
        exact ⟨hd, .inr hm⟩
    obtain ⟨hc, hs⟩ := hdigit
    obtain rfl : c = '0' := by
      obtain ⟨hvalue, -⟩ := Option.filter_eq_some_iff.mp hc
      exact digitValue_eq_zero hvalue
    have hrest : s = List.replicate s.length '0' := by
      rcases hs with rfl | hs
      · rfl
      · exact ih hs
    rw [List.length_append, List.length_singleton, List.replicate_succ', ← hrest]

/-! ## Binary numerals -/

/-- The bits of a number from the highest of `w` down. -/
def bits (w n : ℕ) : List Bool := (List.range w).reverse.map n.testBit

theorem digitsAppend_two {w n : ℕ} (hn : n < 2 ^ w) :
    Nat.digitsAppend 2 w n = (List.range w).map fun i => (n.testBit i).toNat := by
  have hlen := Nat.length_digitsAppend (Nat.one_lt_two) w hn
  apply List.ext_getElem (by simp [hlen])
  intro i hi hi'
  have hw : i < w := by simpa using hi'
  have hget : (Nat.digitsAppend 2 w n).getD i 0 = n / 2 ^ i % 2 := by
    have hdigits := Nat.getD_digits n i (Nat.le_refl 2)
    rw [← hdigits, Nat.digitsAppend]
    simp only [List.getD_eq_getElem?_getD, List.getElem?_append, List.getElem?_replicate]
    split
    · rfl
    · next h =>
      rw [List.getElem?_eq_none (Nat.le_of_not_lt h)]
      split <;> rfl
  rw [List.getD_eq_getElem?_getD, List.getElem?_eq_getElem hi, Option.getD_some] at hget
  rw [hget, List.getElem_map, List.getElem_range, Nat.testBit_eq_decide_div_mod_eq]
  have hlt := Nat.mod_lt (n / 2 ^ i) Nat.two_pos
  by_cases h : n / 2 ^ i % 2 = 1
  · simp [h]
  · simp [h]
    omega

/-- A number that fits prints as its bits. -/
theorem print_two {w n : ℕ} (hn : n < 2 ^ w) :
    print 2 w n = (bits w n).map fun c => digitChar c.toNat := by
  rw [print, digitsAppend_two hn, bits, ← List.map_reverse, List.map_map, List.map_map]
  rfl

/-- A numeral that is no shorter than the width is not padded. -/
theorem print_two_size {w n : ℕ} (h : w ≤ n.size) : print 2 w n = print 2 n.size n := by
  have hlength : (Nat.digits 2 n).length = n.size := by
    rw [Nat.digits_two_eq_bits, List.length_map, Nat.size_eq_bits_len]
  rw [print, print, Nat.digitsAppend, Nat.digitsAppend, hlength, Nat.sub_self,
    Nat.sub_eq_zero_of_le h]

/-- The bits of a binary numeral are those of its value. -/
theorem testBit_ofDigits (l : List Bool) (i : ℕ) :
    (Nat.ofDigits 2 (l.map Bool.toNat)).testBit i = l.getD i false := by
  induction l generalizing i with
  | nil => simp
  | cons c l ih =>
    rw [List.map_cons, Nat.ofDigits_cons]
    cases i with
    | zero => cases c <;> simp [Nat.testBit_zero, Nat.add_mod]
    | succ i =>
      rw [Nat.testBit_succ, List.getD_cons_succ, ← ih]
      congr 1
      cases c <;> simp
      omega

end Numeral
