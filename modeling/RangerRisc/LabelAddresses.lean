import RangerRisc.AssemblerSections
import RangerRisc.OperandLines

/-! What the first pass records: every label has an address that reads as a number which is not
negative. -/

namespace RangerRisc.Assembler

open Numeral Regexp

/-- An address as it stands in `labels`, in words. -/
structure IsAddress (t : Text) : Prop where
  ne_nil : t ≠ []
  isWord : ∀ c ∈ t, isWord c = true
  reads : ∃ v, stringHexToInt t = .ok v

/-- Without a sign nothing reads as a negative number. -/
theorem toNat_of_stringHexToInt {t : Text} {v : BitVec 64} (hword : ∀ c ∈ t, isWord c = true)
    (h : stringHexToInt t = .ok v) : v.toNat < 2 ^ 63 := by
  have hminus : ∀ s, replaceOnce "WA:".toList [] (replaceOnce "0x".toList [] t) ≠ '-' :: s := by
    intro s hs
    have hmem : '-' ∈ t := mem_replaceOnce (mem_replaceOnce (hs ▸ List.mem_cons_self))
    exact not_mem_of_class hword rfl hmem
  have hsmall : ∀ s, parseUnsigned 16 s = .ok v → v.toNat < 2 ^ 63 := by
    intro s hs
    obtain ⟨un, -, hs⟩ := bind_eq_ok hs
    split_ifs at hs with hlarge
    obtain rfl := Except.ok.inj hs
    exact Nat.lt_of_not_le hlarge
  unfold stringHexToInt parseInt at h
  split at h
  · next s hs => exact absurd hs (hminus s)
  · exact hsmall _ h
  · exact hsmall _ h

theorem isWord_of_isAlnum {c : Char} (h : isAlnum c = true) : isWord c = true := by
  unfold isAlnum at h
  simp only [Bool.or_eq_true] at h
  rcases h with (h | h) | h <;> simp [isWord, h]

/-- The groups of a label line. -/
theorem isAlnum_of_matchLabel {line label addr : Text} (h : matchLabel line = .ok (label, addr)) :
    (∀ c ∈ label, isAlnum c = true) ∧ ∀ c ∈ addr, isAlnum c = true := by
  unfold matchLabel findStringSubmatch at h
  cases hm : find labelExpr line with
  | none =>
    rw [hm] at h
    cases h
  | some m =>
    obtain ⟨pre, ss, rest, -, hfits, rfl⟩ := exists_pieces_of_find hm
    obtain _ | ⟨hname, hfits⟩ := hfits
    obtain _ | ⟨-, hfits⟩ := hfits
    obtain _ | ⟨-, hfits⟩ := hfits
    obtain _ | ⟨-, hfits⟩ := hfits
    obtain _ | ⟨haddr, hfits⟩ := hfits
    obtain _ | _ := hfits
    rw [hm] at h
    cases h
    exact ⟨hname.cls, haddr.cls⟩

theorem isAddress_printed {v w : BitVec 64} (h : stringHexToInt (uintToHexString v false) = .ok w) :
    IsAddress (uintToHexString v false) :=
  ⟨(HexLiteral.printed v.toNat).text_ne_nil, (HexLiteral.printed v.toNat).isWord_text, ⟨w, h⟩⟩

theorem isAddress_labelAddr {line label addr : Text} {pc v : BitVec 64}
    (hline : matchLabel line = .ok (label, addr))
    (h : stringHexToInt (labelAddr line addr pc) = .ok v) : IsAddress (labelAddr line addr pc) := by
  obtain ⟨-, haddr⟩ := isAlnum_of_matchLabel hline
  unfold labelAddr at h ⊢
  split_ifs at h ⊢ with hnil hmark
  · exact isAddress_printed h
  · exact isAddress_printed h
  · exact isAddress_printed h
  · exact ⟨hnil, fun c hc => isWord_of_isAlnum (haddr c hc), ⟨v, h⟩⟩

def Addresses (labels : LabelMap) : Prop := ∀ entry ∈ labels, IsAddress entry.2

theorem addresses_findLabel {s s' : FindLabels} {line : Text} (h : findLabel s line = .ok s')
    (hs : Addresses s.labels) : Addresses s'.labels := by
  cases hl : labelOf line with
  | none =>
    rw [findLabel_word hl] at h
    obtain rfl := Except.ok.inj h
    exact hs
  | some l =>
    obtain ⟨label, addr⟩ := l
    rw [findLabel_label hl] at h
    obtain ⟨v, hv, rfl⟩ := map_eq_ok h
    exact List.forall_mem_cons.mpr ⟨isAddress_labelAddr (labelOf_eq_some.mp hl).2 hv, hs⟩

/-- **What is recorded is an address.** -/
theorem addresses_findLabels {lines : List Text} {found : FindLabels}
    (h : findLabels lines = .ok found) : Addresses found.labels := by
  have hrun : ∀ s : FindLabels, lines.foldlM findLabel s = .ok found → Addresses s.labels →
      Addresses found.labels := by
    clear h
    induction lines with
    | nil =>
      intro s h hs
      obtain rfl := Except.ok.inj h
      exact hs
    | cons line lines ih =>
      intro s h hs
      rw [List.foldlM_cons] at h
      obtain ⟨s', hline, h⟩ := bind_eq_ok h
      exact ih s' h (addresses_findLabel hline hs)
  exact hrun _ h (List.forall_mem_nil _)

section Addresses
variable {labels : LabelMap} (h : Addresses labels)
include h

theorem Addresses.plain : PlainValues labels :=
  fun entry hentry => plain_of_isWord (h entry hentry).isWord

/-- The address of a recorded label, which is not negative. -/
theorem Addresses.recorded {label : Text} {v : BitVec 64} (hv : address labels label = .ok v) :
    IsAddress (labelValue labels label) ∧ stringHexToInt (labelValue labels label) = .ok v ∧
      v.toNat < 2 ^ 63 := by
  have haddr : stringHexToInt (labelValue labels label) = .ok v := hv
  have hmem : IsAddress (labelValue labels label) := by
    unfold labelValue at haddr ⊢
    cases hl : labels.lookup label with
    | none =>
      rw [hl] at haddr
      cases haddr
    | some value =>
      obtain ⟨before, after, rfl, -⟩ := List.lookup_eq_some_iff.mp hl
      exact h (label, value) (by simp)
  exact ⟨hmem, haddr, toNat_of_stringHexToInt hmem.isWord haddr⟩

/-- A value that is not empty is one that is recorded. -/
theorem Addresses.reads {label : Text} (hne : labelValue labels label ≠ []) :
    ∃ v, address labels label = .ok v := by
  unfold labelValue at hne
  cases hl : labels.lookup label with
  | none =>
    rw [hl] at hne
    exact absurd rfl hne
  | some value =>
    obtain ⟨before, after, hsplit, -⟩ := List.lookup_eq_some_iff.mp hl
    obtain ⟨v, hv⟩ := (h (label, value) (by rw [hsplit]; simp)).reads
    exact ⟨v, by rw [address, hl]; exact hv⟩

end Addresses

end RangerRisc.Assembler
