import RangerRisc.MemoryOperands
import RangerRisc.References

/-! The address that a line with a label names: when it is four times the word address that the
first pass recorded. -/

namespace RangerRisc.Assembler

open Numeral Regexp Rv32i

/-- The line is the one that is assembled, with another text at most. -/
theorem assemble_line {labels : LabelMap} {l : MachineLine} {c : CodedLine}
    (h : assemble labels l = .ok c) : ∃ text, c.line = { l with line := text } := by
  obtain ⟨line, ltype, addr, value⟩ := l
  unfold assemble at h
  cases ltype with
  | data =>
    obtain rfl := Except.ok.inj h
    exact ⟨line, rfl⟩
  | addrRef =>
    obtain rfl := Except.ok.inj h
    exact ⟨line, rfl⟩
  | instruction =>
    obtain ⟨instruction, -, h⟩ := bind_eq_ok h
    obtain ⟨text, -, h⟩ := bind_eq_ok h
    obtain ⟨code, -, h⟩ := bind_eq_ok h
    obtain rfl := Except.ok.inj h
    exact ⟨text, rfl⟩

namespace Reference

/-- A name alone: a load or a store has no addend, and need not have a mark. -/
def IsName : Reference → Prop
  | memory l => l.operand.addend = none
  | _ => True

/-- The byte address that the word names at `pc`, where a base register holds 0. -/
def target (pc : BitVec 64) (word : Word) : Reference → Word
  | relative l => BitVec.ofNat 32 (4 * pc.toNat) + l.op.kind.offset word
  | jalr _ => RangerRisc.immI word
  | memory l => l.op.immediate word
  | data _ _ => word

/-- The byte address of the label is within the range of the immediate. -/
def InRange (pc : BitVec 64) (w : ℕ) : Reference → Prop
  | relative l => 4 * w < 2 ^ 32 ∧ -l.op.kind.reach ≤ 4 * (w : ℤ) - 4 * (pc.toNat : ℤ) ∧
      4 * (w : ℤ) - 4 * (pc.toNat : ℤ) < l.op.kind.reach
  | jalr _ | memory _ => 4 * w ≤ 2047
  | data _ _ => 4 * w < 2 ^ 32

/-- The line has one word, which names the byte address `n`. -/
def Reaches (r : Reference) (pc : BitVec 64) (n : ℕ)
    (words : Except Error (List (Text × Text))) : Prop :=
  ∃ t word, words = .ok [(uintToHexString pc false, t)] ∧ readWord t = some word ∧
    r.target pc word = BitVec.ofNat 32 n

/-- When the word address is multiplied. A `jalr` and a load or a store without a mark take it as it
stands, and what looks like a number to them is one. -/
def IsScaled (w : ℕ) : Reference → Prop
  | relative _ | data _ _ => True
  | jalr l =>
    if contains "0x".toList l.name.text = true then
      ∃ v, stringHexToInt l.name.text = .ok v ∧ heldNumber v.toNat / 2 * 2 = 4 * w
    else w = 0
  | memory l =>
    if l.operand.marked = true then l.IsResolved
    else (l.IsResolved → w = 0) ∧
      (¬ l.IsResolved → ∃ v, stringHexToInt l.operand.name.text = .ok v ∧
        heldNumber v.toNat = 4 * w)

end Reference

section Targets
variable {labels : LabelMap} {start stop line : Text} {pc w : BitVec 64}

theorem reaches_instruction {r : Reference} {t : Text} {n : ℕ} (hline : trim line = t)
    (hcalm : Calm t) (hword : ∃ c s, t = c :: s ∧ isLower c = true) :
    r.Reaches pc n (lineWords labels start stop pc line) ↔
      ∃ coded word, assemble labels ⟨t, .instruction, uintToHexString pc false, []⟩ = .ok coded ∧
        readWord coded.code = some word ∧ r.target pc word = BitVec.ofNat 32 n := by
  rw [lineWords_instruction hline hcalm hword]
  have hram : ∀ {coded},
      assemble labels ⟨t, .instruction, uintToHexString pc false, []⟩ = .ok coded →
      ramWord coded = (uintToHexString pc false, coded.code) := by
    intro coded h
    obtain ⟨text, htext⟩ := assemble_line h
    rw [ramWord, htext]
  constructor
  · rintro ⟨t', word, hwords, hread, htarget⟩
    obtain ⟨coded, hcoded, hpair⟩ := map_eq_ok hwords
    rw [hram hcoded] at hpair
    obtain ⟨-, rfl⟩ := Prod.mk.inj (List.singleton_inj.mp hpair)
    exact ⟨coded, word, hcoded, hread, htarget⟩
  · rintro ⟨coded, word, hcoded, hread, htarget⟩
    refine ⟨coded.code, word, ?_, hread, htarget⟩
    rw [hcoded, ← hram hcoded]
    rfl

/-- The sum of the address of the line and of the distance. -/
theorem ofNat_add_distance {a b : ℕ} {x : Word} (h : x.toInt = (b : ℤ) - a) :
    BitVec.ofNat 32 a + x = BitVec.ofNat 32 b := by
  have hx : x = BitVec.ofInt 32 ((b : ℤ) - a) := by rw [← h, BitVec.ofInt_toInt]
  rw [hx, ← BitVec.ofInt_natCast, ← BitVec.ofInt_natCast, ← BitVec.ofInt_add]
  congr 1
  omega

variable (hlabels : Addresses labels)
include hlabels

/-- `jal` and branches multiply. -/
theorem relative_reaches {l : RelativeLine} (hline : trim line = l.text)
    (hw : address labels l.name.text = .ok w) (hrange : (Reference.relative l).InRange pc w.toNat) :
    (Reference.relative l).Reaches pc (4 * w.toNat) (lineWords labels start stop pc line) := by
  obtain ⟨hsmall, hlow, hhigh⟩ := hrange
  have hreach : ∀ k : PcRelative, k.reach ≤ 2 ^ 20 := by
    intro k
    cases k <;> decide
  have hreach := hreach l.op.kind
  have hbytes : wordAddrToByteAddrString (labelValue labels l.name.text) =
      (HexLiteral.printed (4 * w.toNat)).text :=
    wordAddrToByteAddrString_small (by rw [ofInt_toNat]; exact hw) (by omega)
  have hcount : byteCount pc = HexLiteral.printed (4 * pc.toNat) := by
    have hnumber : (HexLiteral.printed pc.toNat).number = pc.toNat := rfl
    rw [byteCount, byteAddress, hnumber, if_pos (by omega), Nat.mod_eq_of_lt (by omega)]
  have hpc := l.context_pc labels pc
  rw [hcount] at hpc
  have hdelta := labelDelta_of_bytes hpc (l.findLabelValue_context labels _) hbytes
    (show 4 * pc.toNat < 2 ^ 63 ∧ 4 * w.toNat < 2 ^ 63 by omega)
  have hd : ((HexLiteral.printed (4 * w.toNat)).number : ℤ) -
      ((HexLiteral.printed (4 * pc.toNat)).number : ℤ) =
        4 * (w.toNat : ℤ) - 4 * (pc.toNat : ℤ) := by
    show ((4 * w.toNat : ℕ) : ℤ) - ((4 * pc.toNat : ℕ) : ℤ) = _
    omega
  rw [hd] at hdelta
  obtain ⟨word, hcode, hoffset⟩ := encode_near l.op.kind (l.field_label rfl) hdelta
    (l.registers rfl) hlow hhigh (by omega)
  rw [reaches_instruction hline l.calm_text (starts_spacedTwo l.op.name_lower _ _ _ _),
    l.assemble_text hlabels.plain, hcode]
  exact ⟨_, word, rfl, readWord_machineCode word, ofNat_add_distance (by rw [hoffset]; omega)⟩

omit hlabels in
/-- The bit that `jalr` leaves out. -/
theorem jalr_field_eq (x : ℕ) :
    (BitVec.ofNat 12 x).extractLsb' 1 11 ++ 0#1 = BitVec.ofNat 12 (x / 2 * 2) := by
  apply BitVec.eq_of_toNat_eq
  rw [BitVec.toNat_append, BitVec.extractLsb'_toNat, BitVec.toNat_ofNat, BitVec.toNat_ofNat,
    BitVec.toNat_ofNat, Nat.zero_mod, Nat.or_zero, Nat.shiftLeft_eq, Nat.shiftRight_eq_div_pow]
  omega

omit hlabels in
/-- The offset of a `jalr` whose operand reads as a number. -/
theorem jalr_reaches_iff {l : JalrLine} {t : Text} {v : BitVec 64} {n : ℕ}
    (hlabels : PlainValues labels) (hline : trim line = l.text)
    (ht : jalrOffset (l.context labels (uintToHexString pc false)) l.name.text = .ok t)
    (hv : stringHexToInt t = .ok v) (hsmall : v.toNat < 2 ^ 63) (hn : n ≤ 2047) :
    (Reference.jalr l).Reaches pc n (lineWords labels start stop pc line) ↔
      heldNumber v.toNat / 2 * 2 = n := by
  have hheld := heldNumber_lt v.toNat
  rw [reaches_instruction hline l.calm_text
    (starts_spacedTwo ⟨List.cons_ne_nil _ _, List.all_eq_true.mp rfl⟩ _ _ _ _),
    l.assemble_text hlabels,
    l.jalr_context ht hv hsmall, jalr_field_eq, ← signExtend_eq_iff (by omega) hn]
  have himm : ∀ f : BitVec 12, RangerRisc.immI (iFormat f l.rs1.number 0b000#3 l.rd.number
      0b1100111#7) = f.signExtend 32 := fun f => (immI_eq _).trans (immI_iFormat _ _ _ _ f)
  rw [← himm]
  constructor
  · rintro ⟨coded, word, hok, hread, htarget⟩
    obtain rfl := Except.ok.inj hok
    have hword := Option.some.inj ((readWord_machineCode _).symm.trans hread)
    rw [hword]
    exact htarget
  · exact fun h => ⟨_, _, rfl, readWord_machineCode _, h⟩

/-- `jalr` does not multiply. -/
theorem jalr_reaches {l : JalrLine} (hline : trim line = l.text)
    (hw : address labels l.name.text = .ok w) (hrange : (Reference.jalr l).InRange pc w.toNat) :
    (Reference.jalr l).Reaches pc (4 * w.toNat) (lineWords labels start stop pc line) ↔
      (Reference.jalr l).IsScaled w.toNat := by
  have hrange : 4 * w.toNat ≤ 2047 := hrange
  have hoffset := l.jalrOffset_context labels (uintToHexString pc false)
  show _ ↔ (if contains "0x".toList l.name.text = true then _ else w.toNat = 0)
  cases hzero : contains "0x".toList l.name.text with
  | false =>
    rw [hzero] at hoffset
    rw [jalr_reaches_iff hlabels.plain hline hoffset hw (by omega) hrange,
      heldNumber_of_lt (by omega), if_neg (by decide)]
    omega
  | true =>
    rw [hzero, if_pos rfl] at hoffset
    rw [if_pos rfl]
    cases hread : stringHexToInt l.name.text with
    | error e =>
      refine iff_of_false ?_ (by simp)
      rw [reaches_instruction hline l.calm_text
        (starts_spacedTwo ⟨List.cons_ne_nil _ _, List.all_eq_true.mp rfl⟩ _ _ _ _),
        l.assemble_text hlabels.plain, l.jalr_error hoffset hread]
      rintro ⟨coded, word, hok, -⟩
      cases hok
    | ok v =>
      rw [jalr_reaches_iff hlabels.plain hline hoffset hread
        (toNat_of_stringHexToInt l.name.isWord hread) hrange]
      simp

/-- A load or a store that `resolveCalc` finds multiplies behind a mark only. -/
theorem memory_reaches {l : MemoryLine} (hname : (Reference.memory l).IsName)
    (hline : trim line = l.text) (hw : address labels l.operand.name.text = .ok w)
    (hrange : (Reference.memory l).InRange pc w.toNat) :
    (Reference.memory l).Reaches pc (4 * w.toNat) (lineWords labels start stop pc line) ↔
      (Reference.memory l).IsScaled w.toNat := by
  have hadd : l.operand.addend = none := hname
  have hrange : 4 * w.toNat ≤ 2047 := hrange
  have hholds : (Reference.memory l).Reaches pc (4 * w.toNat)
      (lineWords labels start stop pc line) ↔
      l.op.Holds (assemble labels (l.machineLine (uintToHexString pc false))) (4 * w.toNat) :=
    reaches_instruction hline l.calm_text (starts_spacedTwo l.op.name_lower _ _ _ _)
  rw [hholds]
  show _ ↔ (if l.operand.marked = true then l.IsResolved else _)
  cases hmark : l.operand.marked with
  | true =>
    have ho : l.operand = (OperandForm.label l.operand.name).operand := by
      obtain ⟨op, reg, ⟨marked, name, addend⟩, base, gap, commaGap, parenGap, remark⟩ := l
      obtain rfl : marked = true := hmark
      obtain rfl : addend = none := hadd
      rfl
    rw [if_pos rfl]
    exact holds_label hlabels ho hw hrange
  | false =>
    rw [if_neg (by decide)]
    by_cases hres : l.IsResolved
    · have hresolve := resolveOperand_resolved labels hres
      rw [Operand.resolve, hmark, hadd] at hresolve
      obtain ⟨haddress, hvalue, hsmall⟩ := hlabels.recorded hw
      rw [holds_replaced hlabels.plain hresolve haddress.ne_nil haddress.isWord hvalue
        hsmall hrange, heldNumber_of_lt (by omega)]
      simp only [hres, true_implies, not_true_eq_false, false_implies, and_true]
      omega
    · have hresolve := resolveOperand_unresolved labels hres
      simp only [hres, false_implies, not_false_eq_true, true_implies, true_and]
      cases hread : stringHexToInt l.operand.name.text with
      | error e =>
        have herror := assemble_name_error (uintToHexString pc false) hlabels.plain
          hresolve hmark hadd hread
        exact iff_of_false (not_holds_error ⟨e, herror⟩) (by simp)
      | ok v =>
        rw [holds_kept hlabels.plain hresolve hmark hadd hread
          (toNat_of_stringHexToInt l.operand.name.isWord hread) hrange]
        simp

omit hlabels in
/-- A `@:` line multiplies. -/
theorem data_reaches {name : Name} {remark : Remark}
    (hline : trim line = (Reference.data name remark).text) (hw : address labels name.text = .ok w)
    (hrange : 4 * w.toNat < 2 ^ 32) :
    (Reference.data name remark).Reaches pc (4 * w.toNat)
      (lineWords labels start stop pc line) := by
  have hwords := @lineWords_data labels start stop line pc name remark hline
  cases hl : labels.lookup name.text with
  | none =>
    rw [address, hl] at hw
    cases hw
  | some addr =>
    rw [hl] at hwords
    have haddr : stringHexToInt addr = .ok (BitVec.ofInt 64 w.toNat) := by
      rw [ofInt_toNat, ← hw, address, hl]
      rfl
    have hread : readWord (HexLiteral.printed (4 * w.toNat)).text =
        some (BitVec.ofNat 32 (4 * w.toNat)) := by
      rw [readWord]
      show (value 16 (print 16 8 (4 * w.toNat))).map _ = _
      rw [value_print _ (by decide) (by decide) (by decide)]
      rfl
    refine ⟨_, _, hwords, ?_, rfl⟩
    rw [wordAddrToByteAddrString_small haddr (by omega)]
    exact hread

end Targets

/-- **Where the factor of four is applied**: for `jal`, branches and `@:` lines always, for a load
or a store with `@L` if the line is written as `resolveCalc` expects it, and for `L` alone, in
`jalr` as well, only if it is the number of its own byte address or the label stands at 0. -/
theorem reaches_iff {lines : List Text} {found : FindLabels} (hfound : findLabels lines = .ok found)
    {r : Reference} (hname : r.IsName) {pc w : BitVec 64}
    (hw : address found.labels r.name.text = .ok w) (hrange : r.InRange pc w.toNat) {line : Text}
    (hline : trim line = r.text) (start stop : Text) :
    r.Reaches pc (4 * w.toNat) (lineWords found.labels start stop pc line) ↔
      r.IsScaled w.toNat := by
  have hlabels := addresses_findLabels hfound
  cases r with
  | relative l => exact iff_of_true (relative_reaches hlabels hline hw hrange) trivial
  | jalr l => exact jalr_reaches hlabels hline hw hrange
  | memory l => exact memory_reaches hlabels hname hline hw hrange
  | data name remark => exact iff_of_true (data_reaches hline hw hrange) trivial

/-! ## A source -/

/-- A line before the label `Sub`. -/
def subSource (line : Text) : List Text :=
  ["Main: @0".toList, line, "Sub: @4".toList, "d: 7".toList]

def subFound : FindLabels :=
  ⟨5, [("Sub".toList, "4".toList), ("Main".toList, "0".toList)], ["Main".toList, "Sub".toList]⟩

def sub : Name := ⟨"Sub".toList, by decide, List.all_eq_true.mp (by decide)⟩

theorem jal_reaches_sub :
    (Reference.relative ⟨.jal (.x 1), sub, 0, 1, .nothing⟩).Reaches 0 (4 * 4)
      (lineWords subFound.labels "Main".toList "Sub".toList 0 "  jal x1, @Sub".toList) := by
  have hfound : findLabels (subSource "  jal x1, @Sub".toList) = .ok subFound := by decide +kernel
  have hname : (Reference.relative ⟨.jal (.x 1), sub, 0, 1, .nothing⟩).IsName := trivial
  have hw : address subFound.labels sub.text = .ok 4 := by decide +kernel
  have hrange : (Reference.relative ⟨.jal (.x 1), sub, 0, 1, .nothing⟩).InRange 0 4 :=
    ⟨by decide, by decide, by decide⟩
  exact (reaches_iff hfound hname hw hrange (by decide +kernel) _ _).mpr trivial

/-- A `jalr` to `Sub` goes to the word address. -/
theorem jalr_misses_sub :
    ¬ ∀ (lines : List Text) (found : FindLabels), findLabels lines = .ok found →
      ∀ (r : Reference) (pc w : BitVec 64) (line start stop : Text), line ∈ lines → r.IsName →
        address found.labels r.name.text = .ok w → r.InRange pc w.toNat → trim line = r.text →
          r.Reaches pc (4 * w.toNat) (lineWords found.labels start stop pc line) := by
  intro h
  have hreaches := h (subSource "jalr x1, Sub(x0)".toList) subFound (by decide +kernel)
    (.jalr ⟨.x 1, sub, .x 0, 0, 1, 0, .nothing⟩) 0 4 "jalr x1, Sub(x0)".toList "Main".toList
    "Sub".toList (by decide) trivial (by decide +kernel) (by show 4 * 4 ≤ 2047; decide)
    (by decide +kernel)
  obtain ⟨t, word, hwords, hread, htarget⟩ := hreaches
  have hcode : lineWords subFound.labels "Main".toList "Sub".toList 0 "jalr x1, Sub(x0)".toList =
      .ok [("00000000".toList, "004000E7".toList)] := by decide +kernel
  rw [hcode] at hwords
  obtain ⟨-, rfl⟩ := Prod.mk.inj (List.singleton_inj.mp (Except.ok.inj hwords))
  have hword : readWord "004000E7".toList = some 0x004000E7#32 := by decide +kernel
  obtain rfl := Option.some.inj (hword.symm.trans hread)
  exact absurd htarget (by show RangerRisc.immI _ ≠ _; decide +kernel)

end RangerRisc.Assembler
