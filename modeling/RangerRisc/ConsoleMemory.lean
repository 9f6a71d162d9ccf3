import RangerRisc.Console

/-! The memory edit of the console against the program load: both name a word by its address, and
the edit turns the address into one of bytes before it takes it for an index of words. -/

namespace RangerRisc.Console

open Numeral Regexp
open Assembler (contains)

/-! ## Hexadecimal numbers -/

theorem isHex_of_digit {c : Char} (h : (digit 16 c).isSome = true) : isHex c = true := by
  have hle : ∀ a b : Char, a ≤ b ↔ a.toNat ≤ b.toNat := fun _ _ => Iff.rfl
  obtain ⟨d, hd⟩ := Option.isSome_iff_exists.mp h
  obtain ⟨hd, hlt⟩ := Option.filter_eq_some_iff.mp hd
  have hlt' : d < 16 := of_decide_eq_true hlt
  unfold digitValue at hd
  unfold isHex
  split_ifs at hd with h0 ha hA
  · simp [h0]
  · have hbound := Option.some.inj hd
    have hf : c ≤ 'f' := by
      rw [hle] at ha ⊢
      have : 'a'.toNat = 97 := rfl
      have : 'f'.toNat = 102 := rfl
      omega
    simp [ha.1, hf]
  · have hbound := Option.some.inj hd
    have hF : c ≤ 'F' := by
      rw [hle] at hA ⊢
      have : 'A'.toNat = 65 := rfl
      have : 'F'.toNat = 70 := rfl
      omega
    simp [hA.1, hF]

theorem not_isSpace_of_digit {c : Char} (h : (digit 16 c).isSome = true) : isSpace c = false := by
  cases hc : isSpace c with
  | false => rfl
  | true =>
    have hmem : c ∈ " \t\n\x0b\x0c\r".toList := List.contains_iff_mem.mp hc
    have hnone : (" \t\n\x0b\x0c\r".toList.all fun c => !(digit 16 c).isSome) = true := by decide
    have hdigit := List.all_eq_true.mp hnone c hmem
    rw [h] at hdigit
    exact absurd hdigit (by decide)

section Hex
variable {s : Text} {n : ℕ}

theorem head_digit (hs : value 16 s = some n) :
    ∃ c t, s = c :: t ∧ (digit 16 c).isSome = true := by
  obtain ⟨hne, hdigits⟩ := digits_of_value hs
  obtain ⟨c, t, rfl⟩ := List.exists_cons_of_ne_nil hne
  exact ⟨c, t, rfl, hdigits c List.mem_cons_self⟩

theorem takeWhile_digits (hs : value 16 s = some n) :
    s.takeWhile (fun c => (digit 16 c).isSome) = s :=
  List.takeWhile_eq_self_iff.mpr (digits_of_value hs).2

theorem stripPrefix_digits (hs : value 16 s = some n) : stripPrefix 16 s = s := by
  unfold stripPrefix
  split
  · exact absurd ((digits_of_value hs).2 'x' (by simp)) (by decide)
  · exact absurd ((digits_of_value hs).2 'X' (by simp)) (by decide)
  · rfl

theorem extractDigits_eq {t : Text} (ht : stripPrefix 16 t = s) (hs : value 16 s = some n)
    (hn : n < 2 ^ 32) : extractDigits 16 (2 ^ 32) false t = n := by
  rw [extractDigits, ht, takeWhile_digits hs, hs]
  exact if_pos hn

theorem extract_eq {c : Char} {t : Text} (hc : (digit 16 c).isSome = true)
    (ht : stripPrefix 16 (c :: t) = s) (hs : value 16 s = some n) (hn : n < 2 ^ 32) :
    extract 16 (2 ^ 32) (c :: t) = n := by
  rw [extract, List.dropWhile_cons_of_neg (by simp [not_isSpace_of_digit hc])]
  split
  · next h => exact absurd ((List.cons.inj h).1 ▸ hc) (by decide)
  · next h => exact absurd ((List.cons.inj h).1 ▸ hc) (by decide)
  · exact extractDigits_eq ht hs hn

theorem hexStringToInt_digits (hs : value 16 s = some n) (hn : n < 2 ^ 32) :
    hexStringToInt s = BitVec.ofNat 32 n := by
  obtain ⟨c, t, rfl, hc⟩ := head_digit hs
  rw [hexStringToInt, extract_eq hc (stripPrefix_digits hs) hs hn]

theorem getArgInt_prefixed (hs : value 16 s = some n) (hn : n < 2 ^ 32) :
    getArgInt ('0' :: 'x' :: s) = BitVec.ofNat 32 n := by
  have hcontains : contains "0x".toList ('0' :: 'x' :: s) = true := by
    simp [contains]
  rw [getArgInt, if_pos hcontains, hexStringToInt,
    extract_eq (c := '0') (by decide) (rfl : stripPrefix 16 ('0' :: 'x' :: s) = s) hs hn]

end Hex

/-! ## The two commands -/

section Commands
variable {mem : Mem} {a : BitVec 10} {v : Word}

theorem store_word (mem : Mem) (a : BitVec 10) (v : Word) :
    store mem (BitVec.ofNat 32 a.toNat) v = some (Function.update mem a v) := by
  have ha := a.isLt
  have hnat : (BitVec.ofNat 32 a.toNat).toNat = a.toNat := by
    rw [BitVec.toNat_ofNat, Nat.mod_eq_of_lt (by omega)]
  have hindex : (BitVec.ofNat 32 a.toNat).setWidth 10 = a := by
    apply BitVec.eq_of_toNat_eq
    rw [BitVec.toNat_setWidth, hnat, Nat.mod_eq_of_lt ha]
  rw [store, if_pos (by omega), hindex]

/-- Four times the address is an address below 256 only. -/
theorem store_byteAddr (mem : Mem) (a : BitVec 10) (v : Word) :
    store mem (wordToByteAddr (BitVec.ofNat 32 a.toNat)) v =
      if a.toNat < 256 then some (Function.update mem (a * 4) v) else none := by
  have ha := a.isLt
  have hnat : (wordToByteAddr (BitVec.ofNat 32 a.toNat)).toNat = a.toNat * 4 := by
    have hfour : (4 : Word).toNat = 4 := rfl
    simp only [wordToByteAddr, BitVec.toNat_mul, BitVec.toNat_ofNat, hfour]
    omega
  have hindex : (wordToByteAddr (BitVec.ofNat 32 a.toNat)).setWidth 10 = a * 4 := by
    apply BitVec.eq_of_toNat_eq
    rw [BitVec.toNat_setWidth, hnat, BitVec.toNat_mul]
    rfl
  rw [store, hnat, hindex]
  by_cases h : a.toNat < 256
  · rw [if_pos (by omega), if_pos h]
  · rw [if_neg (by omega), if_neg h]

theorem loadProg_line {sa sv : Text} (hsa : value 16 sa = some a.toNat)
    (hsv : value 16 sv = some v.toNat) (hlen : sv.length = 8) :
    loadProg ['@' :: sa ++ ' ' :: sv] mem = some (Function.update mem a v) := by
  have hv := v.isLt
  have ha := a.isLt
  have hsplits : Splits memRegex [['@'], sa, [' '], sv] [] :=
    ⟨takes_one '@' _,
      takes_plus rfl rfl (digits_of_value hsa).1
        (fun c hc => isHex_of_digit ((digits_of_value hsa).2 c hc)) (stops_cons (by decide)),
      takes_one ' ' _,
      ⟨fun c hc => isHex_of_digit ((digits_of_value hsv).2 c hc), by simp [hlen],
        .inl (by rw [hlen])⟩, trivial⟩
  have hfind := find_of_splits hsplits
  have hline : [['@'], sa, [' '], sv].flatten ++ [] = '@' :: sa ++ ' ' :: sv := by simp
  rw [hline] at hfind
  have hgroups : (pieces memRegex [['@'], sa, [' '], sv]).groups = [sa, sv] := rfl
  rw [loadProg, List.foldlM_cons, loadLine, hfind]
  simp only [hgroups, List.getD_cons_zero, List.getD_cons_succ]
  rw [hexStringToInt_digits hsa (by omega), hexStringToInt_digits hsv hv, store_word,
    BitVec.ofNat_toNat, BitVec.setWidth_eq]
  rfl

theorem splitString_mm {sa sv : Text} (hsa : ∀ c ∈ sa, isSpace c = false)
    (hsv : ∀ c ∈ sv, isSpace c = false) (hne : sa ≠ []) (hne' : sv ≠ []) :
    splitString ("mm ".toList ++ sa ++ ' ' :: sv) = ["mm".toList, sa, sv] := by
  have hmm : ∀ c ∈ "mm".toList, isSpace c = false := by
    intro c hc
    obtain rfl | rfl := List.mem_pair.mp hc
    · rfl
    · rfl
  have hsplit : ("mm ".toList ++ sa ++ ' ' :: sv).splitOnP isSpace = ["mm".toList, sa, sv] := by
    show ("mm".toList ++ ' ' :: (sa ++ ' ' :: sv)).splitOnP isSpace = _
    rw [List.splitOnP_append_cons_of_forall_mem hmm _ (by decide),
      List.splitOnP_append_cons_of_forall_mem hsa _ (by decide), List.splitOnP_eq_singleton hsv]
  rw [splitString, hsplit]
  simp [hne, hne']

/-- The line `mm 0x… 0x…`. -/
def mmLine (sa sv : Text) : Text := "mm ".toList ++ ('0' :: 'x' :: sa) ++ ' ' :: '0' :: 'x' :: sv

/-- The line `@… …` of a program. -/
def ramLine (sa sv : Text) : Text := '@' :: sa ++ ' ' :: sv

theorem memModify_mmLine {sa sv : Text} (hsa : value 16 sa = some a.toNat)
    (hsv : value 16 sv = some v.toNat) :
    memModify (mmLine sa sv) mem =
      if a.toNat < 256 then some (Function.update mem (a * 4) v) else none := by
  have hv := v.isLt
  have ha := a.isLt
  have hspace : ∀ {s : Text} {n : ℕ}, value 16 s = some n →
      ∀ c ∈ '0' :: 'x' :: s, isSpace c = false := by
    intro s n hs c hc
    rw [List.mem_cons, List.mem_cons] at hc
    rcases hc with rfl | rfl | hc
    · rfl
    · rfl
    · exact not_isSpace_of_digit ((digits_of_value hs).2 c hc)
  have hfields := splitString_mm (hspace hsa) (hspace hsv) (List.cons_ne_nil _ _)
    (List.cons_ne_nil _ _)
  rw [memModify, mmLine, hfields]
  simp only [List.getD_cons_zero, List.getD_cons_succ]
  rw [getArgInt_prefixed hsa (by omega), getArgInt_prefixed hsv hv, store_byteAddr,
    BitVec.ofNat_toNat, BitVec.setWidth_eq]

/-- **The edit and the load agree at address 0**, and where both words have the value already. -/
theorem memModify_iff {sa sv la lv : Text} (hsa : value 16 sa = some a.toNat)
    (hsv : value 16 sv = some v.toNat) (hla : value 16 la = some a.toNat)
    (hlv : value 16 lv = some v.toNat) (hlen : lv.length = 8) :
    loadProg [ramLine la lv] mem = some (Function.update mem a v) ∧
      (memModify (mmLine sa sv) mem = loadProg [ramLine la lv] mem ↔
        a = 0 ∨ a.toNat < 256 ∧ mem a = v ∧ mem (a * 4) = v) := by
  have hload : loadProg [ramLine la lv] mem = some (Function.update mem a v) :=
    loadProg_line hla hlv hlen
  refine ⟨hload, ?_⟩
  rw [hload, memModify_mmLine hsa hsv]
  have ha := a.isLt
  have hzero : a.toNat < 256 → (a * 4 = a ↔ a = 0) := by
    intro h
    have hmul : (a * 4).toNat = a.toNat * 4 := by
      rw [BitVec.toNat_mul]
      exact Nat.mod_eq_of_lt (show a.toNat * 4 < 1024 by omega)
    constructor
    · intro heq
      rw [heq] at hmul
      exact BitVec.eq_of_toNat_eq (show a.toNat = 0 by omega)
    · rintro rfl
      rfl
  constructor
  · intro h
    split_ifs at h with hlt
    by_cases hsame : a * 4 = a
    · exact .inl ((hzero hlt).mp hsame)
    · have heq := Option.some.inj h
      have h1 := congrFun heq a
      have h2 := congrFun heq (a * 4)
      rw [Function.update_of_ne (Ne.symm hsame), Function.update_self] at h1
      rw [Function.update_self, Function.update_of_ne hsame] at h2
      exact .inr ⟨hlt, h1, h2.symm⟩
  · rintro (rfl | ⟨hlt, h1, h2⟩)
    · rfl
    · rw [if_pos hlt, ← h2, Function.update_eq_self, h2, ← h1, Function.update_eq_self]

end Commands

/-- `mm 0x0 0xABCD` and the line `@0 0000ABCD`, in an empty memory. -/
theorem memModify_zero :
    memModify (mmLine "0".toList "ABCD".toList) (fun _ => 0) =
      loadProg [ramLine "0".toList "0000ABCD".toList] (fun _ => 0) :=
  (@memModify_iff (fun _ => 0) 0 0xABCD#32 "0".toList "ABCD".toList "0".toList "0000ABCD".toList
    (by decide) (by decide +kernel) (by decide) (by decide +kernel) rfl).2.mpr (.inl rfl)

/-- `mm 0x1 0x1` writes word 4. -/
theorem memModify_one :
    ¬ ∀ (mem : Mem) (a : BitVec 10) (v : Word) (sa sv la lv : Text), value 16 sa = some a.toNat →
      value 16 sv = some v.toNat → value 16 la = some a.toNat → value 16 lv = some v.toNat →
        lv.length = 8 → memModify (mmLine sa sv) mem = loadProg [ramLine la lv] mem := by
  intro h
  have heq := h (fun _ => 0) 1 1 "1".toList "1".toList "1".toList "00000001".toList (by decide)
    (by decide) (by decide) (by decide +kernel) rfl
  have hword := congrArg (Option.map fun m => m 1) heq
  revert hword
  decide +kernel

end RangerRisc.Console
