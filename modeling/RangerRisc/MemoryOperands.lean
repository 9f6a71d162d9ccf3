import RangerRisc.MemoryAssembly

/-! The operands `H`, `H+n`, `@L` and `@L+n` of loads and stores: when the immediate of the word is
the value of the operand. -/

namespace RangerRisc.Assembler

open Numeral Regexp

namespace HexLiteral
variable (n : HexLiteral)

def name : Name := ⟨n.text, n.text_ne_nil, n.isWord_text⟩

/-- The digits of an addend that `resolveCalc` reads: it stops at an `x` and at `a` to `f`. -/
def leading : Text := n.text.takeWhile isDecimal

/-- What it reads is the whole number. -/
def IsDecimal : Prop := value 16 n.leading = some n.number

theorem leading_cases : n.leading = [] ∨ ∃ m ≤ n.number, value 16 n.leading = some m := by
  cases hzero : n.zeroX with
  | true =>
    have hleading : n.leading = ['0'] := by
      simp [leading, text, hzero, List.takeWhile, Assembler.isDecimal]
    exact .inr ⟨0, Nat.zero_le _, by rw [hleading]; rfl⟩
  | false =>
    have hleading : n.leading = n.digits.takeWhile Assembler.isDecimal := by
      simp [leading, text, hzero]
    by_cases hnil : n.leading = []
    · exact .inl hnil
    · have hspells := n.spells
      rw [← List.takeWhile_append_dropWhile (p := Assembler.isDecimal) (l := n.digits),
        ← hleading] at hspells
      exact .inr (value_prefix_le (by decide) hnil hspells)

theorem spells_print (k : ℕ) : value 16 (print 16 8 k) = some k :=
  value_print k (by decide) (by decide) (by decide)

/-- A number with `0x`, as a sum is written. -/
def summed (k : ℕ) : HexLiteral := ⟨true, print 16 8 k, k, spells_print k⟩

end HexLiteral

inductive OperandForm where
  | number (h : HexLiteral)
  | sum (h n : HexLiteral)
  | label (name : Name)
  | labelSum (name : Name) (n : HexLiteral)

namespace OperandForm

def operand : OperandForm → Operand
  | number h => ⟨false, h.name, none⟩
  | sum h n => ⟨false, h.name, some n⟩
  | label name => ⟨true, name, none⟩
  | labelSum name n => ⟨true, name, some n⟩

/-- A label that is named stands at the word address `w`. -/
def At (labels : LabelMap) (w : BitVec 64) : OperandForm → Prop
  | number _ | sum _ _ => True
  | label name | labelSum name _ => address labels name.text = .ok w

def value (w : ℕ) : OperandForm → ℕ
  | number h => h.number
  | sum h n => h.number + n.number
  | label _ => 4 * w
  | labelSum _ n => 4 * (w + n.number)

/-- When the assembler computes that value. A number may be the name of a label, and then the word
address of that label takes its place. -/
def Accepted (l : MemoryLine) (labels : LabelMap) : OperandForm → Prop
  | number h => l.IsResolved → ∀ w, address labels h.text = .ok w → heldNumber w.toNat = h.number
  | sum _ n => l.IsResolved ∧ n.IsDecimal
  | label _ => l.IsResolved
  | labelSum _ n => l.IsResolved ∧ n.IsDecimal

end OperandForm

/-! ## Sums -/

theorem ofInt_add_ofInt (a b : ℕ) :
    BitVec.ofInt 64 (a : ℤ) + BitVec.ofInt 64 (b : ℤ) = BitVec.ofNat 64 (a + b) := by
  rw [BitVec.ofInt_natCast, BitVec.ofInt_natCast, BitVec.ofNat_add]

theorem calcSum_eq {base : Text} {h m : ℕ} {n : HexLiteral}
    (hbase : stringHexToInt base = .ok (BitVec.ofInt 64 h)) (hm : value 16 n.leading = some m)
    (hlt : h + m < 2 ^ 63) : calcSum base n.leading = .ok (HexLiteral.summed (h + m)).text := by
  have hleading : stringHexToInt n.leading = .ok (BitVec.ofInt 64 m) :=
    (HexLiteral.mk false n.leading m hm).stringHexToInt_text (show m < 2 ^ 63 by omega)
  rw [calcSum, hbase, hleading, ok_bind, ok_bind, ofInt_add_ofInt, uintToHexString,
    BitVec.toNat_ofNat, Nat.mod_eq_of_lt (by omega)]
  rfl

theorem calcSum_error {base : Text} {n : HexLiteral} (h : n.leading = []) :
    ∃ e, calcSum base n.leading = .error e := by
  rw [calcSum, h]
  cases stringHexToInt base with
  | error e => exact ⟨e, rfl⟩
  | ok v => exact ⟨_, rfl⟩

theorem ofInt_toNat (w : BitVec 64) : BitVec.ofInt 64 (w.toNat : ℤ) = w := by
  rw [BitVec.ofInt_natCast, BitVec.ofNat_toNat, BitVec.setWidth_eq]

/-- The byte address of a word address that reads as a number. -/
theorem wordAddrToByteAddrString_small {t : Text} {w : ℕ}
    (h : stringHexToInt t = .ok (BitVec.ofInt 64 w)) (hw : 4 * w < 2 ^ 63) :
    wordAddrToByteAddrString t = (HexLiteral.printed (4 * w)).text := by
  have hmul : (BitVec.ofInt 64 (w : ℤ) * 4).toNat = 4 * w := by
    rw [BitVec.ofInt_natCast, BitVec.toNat_mul, BitVec.toNat_ofNat]
    show w % 2 ^ 64 * 4 % 2 ^ 64 = _
    omega
  rw [wordAddrToByteAddrString, h]
  show uintToHexString (BitVec.ofInt 64 (w : ℤ) * 4) false = _
  rw [uintToHexString, hmul]
  rfl

/-! ## Lines -/

section Lines
variable {labels : LabelMap} {l : MemoryLine} {addr : Text} {x : ℕ}

/-- A small number in the place of the operand. -/
theorem holds_literal {k : HexLiteral} (hlabels : PlainValues labels)
    (h : resolveOperand l.text labels = .ok k.text) (hk : k.number < 2 ^ 12) (hx : x ≤ 2047) :
    l.op.Holds (assemble labels (l.machineLine addr)) x ↔ k.number = x := by
  have hnat : (BitVec.ofInt 64 (k.number : ℤ)).toNat = k.number := by
    rw [BitVec.ofInt_natCast, BitVec.toNat_ofNat, Nat.mod_eq_of_lt (by omega)]
  have hread := k.stringHexToInt_text (by omega)
  rw [holds_replaced hlabels h k.text_ne_nil k.isWord_text hread (by omega) hx, hnat,
    heldNumber_of_lt hk]

/-- A sum that `resolveCalc` reads, and what it makes of it. -/
theorem holds_calcSum {base : Text} {h : ℕ} {n : HexLiteral} {f : Text → Text} {k : ℕ → HexLiteral}
    (value : ℕ → ℕ) (hlabels : PlainValues labels)
    (hresolve : resolveOperand l.text labels = (calcSum base n.leading).map f)
    (hbase : stringHexToInt base = .ok (BitVec.ofInt 64 h))
    (hf : ∀ m, m ≤ n.number → f (HexLiteral.summed (h + m)).text = (k m).text)
    (hk : ∀ m, (k m).number = value m) (hvalue : StrictMono value) (hx : value n.number ≤ 2047)
    (hsmall : h + n.number < 2 ^ 63) :
    l.op.Holds (assemble labels (l.machineLine addr)) (value n.number) ↔ n.IsDecimal := by
  rcases n.leading_cases with hnil | ⟨m, hm, hleading⟩
  · obtain ⟨e, he⟩ := @calcSum_error base n hnil
    rw [he] at hresolve
    have hno : ¬ n.IsDecimal := by
      intro hdecimal
      rw [HexLiteral.IsDecimal, hnil] at hdecimal
      cases hdecimal
    exact iff_of_false (not_holds_error ⟨e, assemble_error addr hresolve⟩) hno
  · rw [calcSum_eq hbase hleading (by omega)] at hresolve
    have hresolved : resolveOperand l.text labels = .ok (k m).text := by
      rw [hresolve, ← hf m hm]
      rfl
    have hle : value m ≤ value n.number := hvalue.monotone hm
    rw [holds_literal hlabels hresolved (by rw [hk]; omega) hx, hk, hvalue.injective.eq_iff,
      HexLiteral.IsDecimal, hleading, Option.some_inj]

end Lines

section Forms
variable {labels : LabelMap} {l : MemoryLine} {addr : Text} {w : BitVec 64}

/-- A number stands as it is, unless it is the name of a label as well. -/
theorem holds_number (hlabels : Addresses labels) {h : HexLiteral}
    (ho : l.operand = (OperandForm.number h).operand) (hx : h.number ≤ 2047) :
    l.op.Holds (assemble labels (l.machineLine addr)) h.number ↔
      (OperandForm.number h).Accepted l labels := by
  have hmark : l.operand.marked = false := by rw [ho]; rfl
  have hadd : l.operand.addend = none := by rw [ho]; rfl
  have hname : l.operand.name.text = h.text := by rw [ho]; rfl
  have hnat : (BitVec.ofInt 64 (h.number : ℤ)).toNat = h.number := by
    rw [BitVec.ofInt_natCast, BitVec.toNat_ofNat, Nat.mod_eq_of_lt (by omega)]
  have hread : stringHexToInt l.operand.name.text = .ok (BitVec.ofInt 64 h.number) := by
    rw [hname]
    exact h.stringHexToInt_text (by omega)
  have hkept : resolveOperand l.text labels = .ok [] →
      l.op.Holds (assemble labels (l.machineLine addr)) h.number := fun hresolve =>
    (holds_kept hlabels.plain hresolve hmark hadd hread (by omega) hx).mpr
      (by rw [hnat, heldNumber_of_lt (by omega)])
  by_cases hres : l.IsResolved
  · have hresolve : resolveOperand l.text labels = .ok (labelValue labels h.text) := by
      rw [resolveOperand_resolved labels hres, Operand.resolve, hmark, hadd, hname]
    by_cases hnil : labelValue labels h.text = []
    · rw [hnil] at hresolve
      have haddress : ∀ w, address labels h.text ≠ .ok w := by
        intro w hw
        have herror : address labels h.text = stringHexToInt [] := congrArg stringHexToInt hnil
        rw [herror] at hw
        cases hw
      exact iff_of_true (hkept hresolve) fun _ w hw => absurd hw (haddress w)
    · obtain ⟨v, hv⟩ := hlabels.reads hnil
      obtain ⟨haddress, hvalue, hsmall⟩ := hlabels.recorded hv
      rw [holds_replaced hlabels.plain hresolve hnil haddress.isWord hvalue hsmall hx]
      constructor
      · intro hheld _ w hw
        obtain rfl := Except.ok.inj (hv.symm.trans hw)
        exact hheld
      · exact fun haccepted => haccepted hres v hv
  · exact iff_of_true (hkept (resolveOperand_unresolved labels hres)) fun h => absurd h hres

theorem holds_sum (hlabels : Addresses labels) {h n : HexLiteral}
    (ho : l.operand = (OperandForm.sum h n).operand) (hx : h.number + n.number ≤ 2047) :
    l.op.Holds (assemble labels (l.machineLine addr)) (h.number + n.number) ↔
      (OperandForm.sum h n).Accepted l labels := by
  by_cases hres : l.IsResolved
  · have hresolve : resolveOperand l.text labels = (calcSum h.text n.leading).map id := by
      rw [resolveOperand_resolved labels hres, ho]
      cases hsum : calcSum h.text n.leading <;> exact hsum
    have hholds : l.op.Holds (assemble labels (l.machineLine addr)) (h.number + n.number) ↔
        n.IsDecimal :=
      holds_calcSum (fun m => h.number + m) hlabels.plain hresolve
        (h.stringHexToInt_text (by omega)) (fun m _ => rfl) (fun m => rfl)
        (fun a b hab => Nat.add_lt_add_left hab _) hx (by omega)
    exact hholds.trans ⟨fun hdecimal => ⟨hres, hdecimal⟩, And.right⟩
  · have herror := assemble_unresolved addr hlabels.plain hres
      (.inr ⟨h, by rw [ho]; rfl, by rw [ho]; rfl⟩)
    exact iff_of_false (not_holds_error herror) fun h => hres h.1

theorem holds_label (hlabels : Addresses labels) {name : Name}
    (ho : l.operand = (OperandForm.label name).operand) (hw : address labels name.text = .ok w)
    (hx : 4 * w.toNat ≤ 2047) :
    l.op.Holds (assemble labels (l.machineLine addr)) (4 * w.toNat) ↔
      (OperandForm.label name).Accepted l labels := by
  by_cases hres : l.IsResolved
  · have hread : stringHexToInt (labelValue labels name.text) = .ok (BitVec.ofInt 64 w.toNat) := by
      rw [ofInt_toNat]
      exact hw
    have hresolve : resolveOperand l.text labels =
        .ok (HexLiteral.printed (4 * w.toNat)).text := by
      rw [resolveOperand_resolved labels hres, ho,
        ← wordAddrToByteAddrString_small hread (by omega)]
      rfl
    have hnumber : (HexLiteral.printed (4 * w.toNat)).number = 4 * w.toNat := rfl
    exact iff_of_true
      ((holds_literal hlabels.plain hresolve (by rw [hnumber]; omega) hx).mpr hnumber) hres
  · have herror := assemble_unresolved addr hlabels.plain hres (.inl (by rw [ho]; rfl))
    exact iff_of_false (not_holds_error herror) hres

theorem holds_labelSum (hlabels : Addresses labels) {name : Name} {n : HexLiteral}
    (ho : l.operand = (OperandForm.labelSum name n).operand)
    (hw : address labels name.text = .ok w) (hx : 4 * (w.toNat + n.number) ≤ 2047) :
    l.op.Holds (assemble labels (l.machineLine addr)) (4 * (w.toNat + n.number)) ↔
      (OperandForm.labelSum name n).Accepted l labels := by
  by_cases hres : l.IsResolved
  · have hread : stringHexToInt (labelValue labels name.text) = .ok (BitVec.ofInt 64 w.toNat) := by
      rw [ofInt_toNat]
      exact hw
    have hresolve : resolveOperand l.text labels =
        (calcSum (labelValue labels name.text) n.leading).map wordAddrToByteAddrString := by
      rw [resolveOperand_resolved labels hres, ho]
      rfl
    have hbytes : ∀ m, m ≤ n.number → wordAddrToByteAddrString
        (HexLiteral.summed (w.toNat + m)).text = (HexLiteral.printed (4 * (w.toNat + m))).text := by
      intro m hm
      have hsum : (HexLiteral.summed (w.toNat + m)).number = w.toNat + m := rfl
      exact wordAddrToByteAddrString_small
        ((HexLiteral.summed (w.toNat + m)).stringHexToInt_text (by rw [hsum]; omega)) (by omega)
    have hholds : l.op.Holds (assemble labels (l.machineLine addr)) (4 * (w.toNat + n.number)) ↔
        n.IsDecimal :=
      holds_calcSum (fun m => 4 * (w.toNat + m)) hlabels.plain hresolve hread hbytes (fun m => rfl)
        (fun a b hab => Nat.mul_lt_mul_of_pos_left (Nat.add_lt_add_left hab _) (by decide)) hx
        (by omega)
    exact hholds.trans ⟨fun hdecimal => ⟨hres, hdecimal⟩, And.right⟩
  · have herror := assemble_unresolved addr hlabels.plain hres (.inl (by rw [ho]; rfl))
    exact iff_of_false (not_holds_error herror) fun h => hres h.1

end Forms

/-- **The value of an operand** is in the word exactly when the line has one space behind the
mnemonic and an `x` register in front of the comma, and when an addend is written with decimal
digits; a number alone need only be no name of a label. -/
theorem immediate_is_value_iff {lines : List Text} {found : FindLabels}
    (hfound : findLabels lines = .ok found) (l : MemoryLine) (addr : Text) {o : OperandForm}
    (ho : l.operand = o.operand) {w : BitVec 64} (hw : o.At found.labels w)
    (hvalue : o.value w.toNat ≤ 2047) :
    l.op.Holds (assemble found.labels (l.machineLine addr)) (o.value w.toNat) ↔
      o.Accepted l found.labels := by
  have hlabels := addresses_findLabels hfound
  cases o with
  | number h => exact holds_number hlabels ho hvalue
  | sum h n => exact holds_sum hlabels ho hvalue
  | label name => exact holds_label hlabels ho hw hvalue
  | labelSum name n => exact holds_labelSum hlabels ho hw hvalue

/-! ## A source -/

def dataSource : List Text :=
  ["Main: @0".toList, "lw x1, @Data+2(x0)".toList, "Data: @10".toList, "d: 7".toList]

def dataFound : FindLabels :=
  ⟨17, [("Data".toList, "10".toList), ("Main".toList, "0".toList)], ["Main".toList, "Data".toList]⟩

/-- `@Data+2` -/
def dataOperand : OperandForm :=
  .labelSum ⟨"Data".toList, by decide, List.all_eq_true.mp (by decide)⟩
    ⟨false, "2".toList, 2, by decide⟩

/-- `lw x1, @Data+2(x0)`, with more spaces behind the mnemonic if there is a gap. -/
def dataLine (gap : ℕ) (reg base : Register) : MemoryLine where
  op := .load .word true
  reg := reg
  operand := dataOperand.operand
  base := base
  gap := gap
  commaGap := 1
  parenGap := 0
  remark := .nothing

theorem dataOperand_at : dataOperand.At dataFound.labels 16 := by
  show address dataFound.labels "Data".toList = _
  decide +kernel

theorem immediate_data :
    (dataLine 0 (.x 1) (.x 0)).op.Holds (assemble dataFound.labels
      ((dataLine 0 (.x 1) (.x 0)).machineLine "00000000".toList)) (4 * (16 + 2)) := by
  have haccepted : dataOperand.Accepted (dataLine 0 (.x 1) (.x 0)) dataFound.labels := by
    refine ⟨⟨rfl, 1, rfl⟩, ?_⟩
    show value 16 _ = _
    decide +kernel
  have hfound : findLabels dataSource = .ok dataFound := by decide +kernel
  exact (immediate_is_value_iff hfound (dataLine 0 (.x 1) (.x 0)) _ rfl dataOperand_at
    (by decide)).mpr haccepted

/-- Two spaces behind the mnemonic, as in `count_via_mem.asm`: the line is refused. -/
theorem spaced_refused :
    ¬ ∀ (lines : List Text) (found : FindLabels), findLabels lines = .ok found →
      ∀ (l : MemoryLine) (addr : Text) (o : OperandForm), l.operand = o.operand →
        ∀ w : BitVec 64, o.At found.labels w → o.value w.toNat ≤ 2047 →
          l.op.Holds (assemble found.labels (l.machineLine addr)) (o.value w.toNat) := by
  intro h
  have hholds := h dataSource dataFound (by decide +kernel) (dataLine 1 (.x 1) (.x 0))
    "00000000".toList dataOperand rfl 16 dataOperand_at (by decide)
  have herror : assemble dataFound.labels ((dataLine 1 (.x 1) (.x 0)).machineLine
      "00000000".toList) = .error .errSyntax := by decide +kernel
  rw [herror] at hholds
  exact not_holds_error ⟨_, rfl⟩ hholds

end RangerRisc.Assembler
