import RangerRisc.AssemblerLines
import RangerRisc.Lib.Rv32iFormats

/-! What the encoders make of a line: the machine code of the word that the line's
instruction format puts together. -/

namespace RangerRisc.Assembler

open Numeral Regexp Rv32i

/-! ## Machine codes -/

/-- The word that a memory file's hexadecimal text stands for. -/
def readWord (code : Text) : Option Word := (value 16 code).map (BitVec.ofNat 32)

@[simp] theorem length_wordBits {w : ℕ} (x : BitVec w) : (wordBits x).length = w := length_bits w _

theorem wordBits_append {m n : ℕ} (x : BitVec m) (y : BitVec n) :
    wordBits x ++ wordBits y = wordBits (x ++ y) := by
  apply List.ext_getElem
  · simp
  · intro i hi hi'
    have hlt : i < m + n := by simpa using hi
    simp only [wordBits, bits, List.getElem_append, List.getElem_map, List.getElem_reverse,
      List.getElem_range, List.length_map, List.length_reverse, List.length_range]
    show _ = (x ++ y).getLsbD (m + n - 1 - i)
    rw [BitVec.getLsbD_append]
    split
    · next h =>
      rw [if_neg (by omega), show m + n - 1 - i - n = m - 1 - i by omega]
      rfl
    · next h =>
      rw [if_pos (by omega), show m + n - 1 - i = n - 1 - (i - m) by omega]
      rfl

/-- Any bits are those of a word. -/
theorem exists_wordBits (l : List Bool) : ∃ x : BitVec l.length, l = wordBits x := by
  induction l with
  | nil => exact ⟨0#0, rfl⟩
  | cons b l ih =>
    obtain ⟨x, hx⟩ := ih
    refine ⟨BitVec.cons b x, ?_⟩
    have hcast : wordBits (BitVec.cons b x) = b :: wordBits x := by
      rw [wordBits, bits, List.range_succ, List.reverse_append, List.reverse_singleton,
        List.singleton_append, List.map_cons, wordBits, bits]
      congr 1
      · show (BitVec.cons b x).getLsbD l.length = b
        rw [BitVec.getLsbD_cons, if_pos rfl]
      · apply List.map_congr_left
        intro i hi
        have hlt : i < l.length := by simpa using hi
        show (BitVec.cons b x).getLsbD i = x.getLsbD i
        rw [BitVec.getLsbD_cons, if_neg (Nat.ne_of_lt hlt)]
    rw [hcast, ← hx]

theorem exists_wordBits_of_length {w : ℕ} {l : List Bool} (h : l.length = w) :
    ∃ x : BitVec w, l = wordBits x := by
  subst h
  exact exists_wordBits l

theorem exists_regBits (v : BitVec 64) : ∃ r : BitVec 5, regBits v = wordBits r :=
  exists_wordBits (regBits v)

theorem binaryArrayToString_wordBits {w : ℕ} (x : BitVec w) :
    binaryArrayToString (wordBits x).reverse true = print 2 w x.toNat := by
  rw [binaryArrayToString, if_pos rfl, List.reverse_reverse, wordBits, print_two x.isLt]

/-- The code of a word is its hexadecimal numeral. -/
theorem machineCode_wordBits (x : Word) : machineCode (wordBits x) = print 16 8 x.toNat := by
  have hx := x.isLt
  have hparse : parseUint 2 (print 2 32 x.toNat) = .ok (BitVec.ofNat 64 x.toNat) := by
    rw [parseUint, value_print x.toNat (by decide) (by decide) (by decide)]
    exact if_pos (by omega)
  have hnat : (BitVec.ofNat 64 x.toNat).toNat = x.toNat := by
    rw [BitVec.toNat_ofNat]
    exact Nat.mod_eq_of_lt (by omega)
  rw [machineCode, binaryArrayToString_wordBits, binaryStringToHexString, hparse]
  show uintToHexString (BitVec.ofNat 64 x.toNat) false = _
  rw [uintToHexString, hnat]
  rfl

/-- **A machine code is read back as the word it was made from.** -/
theorem readWord_machineCode (x : Word) : readWord (machineCode (wordBits x)) = some x := by
  rw [machineCode_wordBits, readWord, value_print x.toNat (by decide) (by decide) (by decide),
    Option.map_some, BitVec.ofNat_toNat, BitVec.setWidth_eq]

/-- A run of elements is a slice of the word. -/
theorem pick_wordBits {w : ℕ} (x : BitVec w) (s n : ℕ) (h : s + n ≤ w) :
    pick (wordBits x) ((List.range n).reverse.map fun i => w - 1 - (s + i)) =
      wordBits (x.extractLsb' s n) := by
  rw [pick, wordBits, bits, List.map_map]
  apply List.map_congr_left
  intro i hi
  have hlt : i < n := by simpa using hi
  show (wordBits x).getD (w - 1 - (s + i)) false = (x.extractLsb' s n).getLsbD i
  rw [getD_wordBits x (by omega), BitVec.getLsbD_extractLsb', decide_eq_true hlt, Bool.true_and]
  congr 1
  omega

/-- The same for a slice of the low part of the word. -/
theorem pick_low (x : Word) (k s n : ℕ) (h : s + n ≤ k) (hk : k ≤ 32) :
    pick (wordBits x) ((List.range n).reverse.map fun i => 32 - 1 - (s + i)) =
      wordBits ((x.extractLsb' 0 k).extractLsb' s n) := by
  rw [pick_wordBits x s n (Nat.le_trans h hk)]
  congr 1
  apply BitVec.eq_of_getLsbD_eq
  intro i hi
  simp only [BitVec.getLsbD_extractLsb', Nat.zero_add]
  grind

theorem regBits_number (r : Register) : regBits (r.number.setWidth 64) = wordBits r.number := by
  have hlt := r.number.isLt
  have hword : r.number.setWidth 64 = BitVec.ofInt 64 (r.number.toNat : ℤ) := by
    rw [BitVec.ofInt_natCast, BitVec.ofNat_toNat]
  have hslice : (BitVec.ofInt 32 (r.number.toNat : ℤ)).extractLsb' 0 5 = r.number := by
    apply BitVec.eq_of_toNat_eq
    simpa using hlt
  rw [regBits, hword, intToBinaryArray_ofInt (by omega) (by omega)]
  have hpick := pick_wordBits (BitVec.ofInt 32 (r.number.toNat : ℤ)) 0 5 (by decide)
  rw [hslice] at hpick
  exact hpick

/-! ## Encoders -/

theorem extractLsb'_ofInt (z : ℤ) {n : ℕ} (hn : n ≤ 32) :
    (BitVec.ofInt 32 z).extractLsb' 0 n = BitVec.ofInt n z := by
  apply BitVec.eq_of_toNat_eq
  rw [BitVec.extractLsb'_toNat, BitVec.toNat_ofInt, BitVec.toNat_ofInt, Nat.shiftRight_zero]
  have hdvd : ((2 ^ n : ℕ) : ℤ) ∣ ((2 ^ 32 : ℕ) : ℤ) := by
    exact_mod_cast Nat.pow_dvd_pow 2 hn
  have hmod := Int.emod_emod_of_dvd z hdvd
  have hpos : 0 ≤ z % ((2 ^ 32 : ℕ) : ℤ) := Int.emod_nonneg _ (by decide)
  rw [← hmod, Int.toNat_emod hpos (Int.natCast_nonneg _), Int.toNat_natCast]

/-- A number within the range of a field is the sign extension of that field. -/
theorem signExtend_slice {z : ℤ} {n : ℕ} (hn : n < 32) (hlow : -2 ^ n ≤ z) (hhigh : z < 2 ^ n) :
    ((BitVec.ofInt 32 z).extractLsb' 0 (n + 1)).signExtend 32 = BitVec.ofInt 32 z := by
  have hslice : (BitVec.ofInt 32 z).extractLsb' 0 (n + 1) = BitVec.ofInt (n + 1) z :=
    extractLsb'_ofInt z hn
  have hpow : (2 : ℤ) ^ (n + 1) = 2 * 2 ^ n := by rw [pow_succ, mul_comm]
  rw [hslice, BitVec.signExtend, BitVec.toInt_ofInt, Int.bmod_eq_of_le]
  · push_cast
    rw [hpow]
    omega
  · push_cast
    rw [hpow]
    omega

section Encoders
variable {ctx : Context}

def aluName : AluOp → Text
  | .add => "add".toList
  | .sub => "sub".toList
  | .sll => "sll".toList
  | .slt => "slt".toList
  | .sltu => "sltu".toList
  | .xor => "xor".toList
  | .srl => "srl".toList
  | .sra => "sra".toList
  | .or => "or".toList
  | .and => "and".toList

def aluImmName : AluOp → Text
  | .sltu => "sltiu".toList
  | o => aluName o ++ "i".toList

theorem aluName_lower (o : AluOp) : aluName o ≠ [] ∧ ∀ c ∈ aluName o, isLower c = true := by
  cases o <;> exact ⟨List.cons_ne_nil _ _, List.all_eq_true.mp rfl⟩

theorem aluImmName_lower (o : AluOp) :
    aluImmName o ≠ [] ∧ ∀ c ∈ aluImmName o, isLower c = true := by
  cases o <;> exact ⟨List.cons_ne_nil _ _, List.all_eq_true.mp rfl⟩

def aluFunct7 (o : AluOp) : BitVec 7 := if o = .sub ∨ o = .sra then 0b0100000 else 0b0000000

theorem rtypeAlu_text (o : AluOp) (rd rs1 rs2 : Register)
    (h : ctx.assembly = lineThree (aluName o) rd.text rs1.text rs2.text) :
    rtypeAlu ctx = .ok (machineCode (wordBits (rFormat (aluFunct7 o) rs2.number rs1.number
      (rtypeFunct3 (aluName o)) rd.number 0b0110011#7))) := by
  obtain ⟨whole, hfields⟩ := fields_three (aluName_lower o).1 (aluName_lower o).2 rd rs1
    [register] [rs2.text] (stops_append rs2.text_ne_nil rs2.not_blank)
    ⟨takes_register rs2 (stops_nil _), trivial⟩
  rw [List.flatten_singleton, ← h] at hfields
  have hfields : findStringSubmatch rtypeExpr ctx.assembly =
    [whole, aluName o, rd.text, rs1.text, rs2.text] := hfields
  have hfunct7 : [false, decide (aluName o = "sub".toList ∨ aluName o = "sra".toList), false, false,
      false, false, false] = wordBits (aluFunct7 o) := by
    cases o <;> decide
  simp only [rtypeAlu, hfields, field_zero, field_succ, ok_bind, Register.stringRegToInt_text,
    regBits_number, hfunct7, wordBits_append]
  rfl

/-- The upper two bits stand apart: `srai` sets the second. -/
def aluImmField (o : AluOp) (x : Word) : BitVec 12 :=
  x.extractLsb' 11 1 ++ (if o = .sra then 1#1 else x.extractLsb' 10 1) ++ x.extractLsb' 0 10

theorem itypeAlu_text (o : AluOp) (rd rs1 : Register) (imm : SignedLiteral)
    (hlow : -2 ^ 31 < imm.number) (hhigh : imm.number < 2 ^ 32)
    (h : ctx.assembly = lineThree (aluImmName o) rd.text rs1.text imm.text) :
    itypeAlu ctx = .ok (machineCode (wordBits (iFormat
      (aluImmField o (BitVec.ofInt 32 imm.number)) rs1.number (itypeFunct3 (aluImmName o)) rd.number
      0b0010011#7))) := by
  have hblank : ∀ c ∈ imm.text, isBlank c = false := by
    intro c hc
    rcases Bool.or_eq_true _ _ ▸ imm.isWord_or_minus_text c hc with hword | hminus
    · exact isWord_not_blank hword
    · obtain rfl : c = '-' := by simpa using hminus
      rfl
  obtain ⟨whole, hfields⟩ := fields_three (aluImmName_lower o).1 (aluImmName_lower o).2 rd rs1
    [(plus fun c => isWord c || c == '-').capture] [imm.text]
    (stops_append imm.text_ne_nil hblank)
    ⟨takes_plus rfl rfl imm.text_ne_nil imm.isWord_or_minus_text (stops_nil _), trivial⟩
  rw [List.flatten_singleton, ← h] at hfields
  have hfields : findStringSubmatch itypeExpr ctx.assembly =
    [whole, aluImmName o, rd.text, rs1.text, imm.text] := hfields
  have hnumber : imm.literal.number < 2 ^ 63 := by
    rw [← imm.natAbs_number]
    omega
  have himm := immediateInt_text (imm.not_mem_text (c := 'W') rfl (by decide) (by decide))
    (imm.stringHexToInt_text hnumber)
  set x : Word := BitVec.ofInt 32 imm.number with hx
  have harray : intToBinaryArray (BitVec.ofInt 64 imm.number) = wordBits x :=
    intToBinaryArray_ofInt hlow hhigh
  have h11 : pick (wordBits x) [20] = wordBits (x.extractLsb' 11 1) :=
    pick_wordBits x 11 1 (by decide)
  have h10 : (if aluImmName o = "srai".toList then [true] else pick (wordBits x) [21]) =
      wordBits (if o = .sra then 1#1 else x.extractLsb' 10 1) := by
    have hpick : pick (wordBits x) [21] = wordBits (x.extractLsb' 10 1) :=
      pick_wordBits x 10 1 (by decide)
    have hname : aluImmName o = "srai".toList ↔ o = .sra := by cases o <;> decide
    by_cases ho : o = .sra
    · rw [if_pos (hname.mpr ho), if_pos ho]
      rfl
    · rw [if_neg (fun h => ho (hname.mp h)), if_neg ho, hpick]
  have h9 : pick (wordBits x) [22, 23, 24, 25, 26, 27, 28, 29, 30, 31] =
      wordBits (x.extractLsb' 0 10) := pick_wordBits x 0 10 (by decide)
  simp only [itypeAlu, hfields, field_zero, field_succ, ok_bind, Register.stringRegToInt_text, himm,
    regBits_number, harray, h11, h10, h9, wordBits_append]
  rfl

def loadName : Size → Bool → Text
  | .byte, true => "lb".toList
  | .half, true => "lh".toList
  | .word, _ => "lw".toList
  | .byte, false => "lbu".toList
  | .half, false => "lhu".toList

theorem loadName_lower (size : Size) (signed : Bool) :
    loadName size signed ≠ [] ∧ ∀ c ∈ loadName size signed, isLower c = true := by
  cases size <;> cases signed <;> exact ⟨List.cons_ne_nil _ _, List.all_eq_true.mp rfl⟩

/-- The twelve bits of a number that a load or a store takes. -/
def immField (v : BitVec 64) : List Bool :=
  pick (intToBinaryArray v) [20, 21, 22, 23, 24, 25, 26, 27, 28, 29, 30, 31]

theorem immField_ofInt {z : ℤ} (hlow : -2 ^ 31 < z) (hhigh : z < 2 ^ 32) :
    immField (BitVec.ofInt 64 z) = wordBits ((BitVec.ofInt 32 z).extractLsb' 0 12) := by
  rw [immField, intToBinaryArray_ofInt hlow hhigh]
  exact pick_wordBits _ 0 12 (by decide)

/-- What a load or a store holds of a number: twelve bits, of a number with more than 32 bits those
that stand 20 places behind the highest. -/
def heldNumber (n : ℕ) : ℕ := n / 2 ^ (n.size - 32) % 2 ^ 12

theorem heldNumber_lt (n : ℕ) : heldNumber n < 2 ^ 12 := Nat.mod_lt _ (by decide)

theorem heldNumber_of_lt {n : ℕ} (h : n < 2 ^ 12) : heldNumber n = n := by
  have hsize : n.size - 32 = 0 := Nat.sub_eq_zero_of_le
    (Nat.le_trans (Nat.size_le.mpr h) (by decide))
  rw [heldNumber, hsize, Nat.pow_zero, Nat.div_one, Nat.mod_eq_of_lt h]

theorem immField_eq {v : BitVec 64} (h : v.toNat < 2 ^ 63) :
    immField v = wordBits (BitVec.ofNat 12 (heldNumber v.toNat)) := by
  have hint : v.toInt = v.toNat := BitVec.toInt_eq_toNat_of_lt (by omega)
  set n := v.toNat
  obtain ⟨k, hk⟩ : ∃ k, n.size - 32 = k := ⟨_, rfl⟩
  have hfits : n < 2 ^ (k + 32) :=
    Nat.lt_of_lt_of_le (Nat.lt_size_self n) (Nat.pow_le_pow_right Nat.two_pos (by omega))
  have hprint : print 2 32 n = print 2 (k + 32) n := by
    rcases Nat.le_total n.size 32 with hshort | hlong
    · rw [show k = 0 by omega]
    · rw [print_two_size hlong, show n.size = k + 32 by omega]
  have harray : intToBinaryArray v = wordBits (BitVec.ofNat (k + 32) n) := by
    rw [intToBinaryArray, intToBinaryString, hint, if_pos (Int.natCast_nonneg n),
      sprintfBinary, hint,
      if_neg (by omega), hprint, binaryStringToArray_print hfits, wordBits, BitVec.toNat_ofNat,
      Nat.mod_eq_of_lt hfits]
  have hpick := pick_wordBits (BitVec.ofNat (k + 32) n) k 12 (by omega)
  have hplaces : ((List.range 12).reverse.map fun i => k + 32 - 1 - (k + i)) =
      [20, 21, 22, 23, 24, 25, 26, 27, 28, 29, 30, 31] := by
    have hplace : ∀ i ∈ (List.range 12).reverse, k + 32 - 1 - (k + i) = 31 - i := by
      intro i hi
      omega
    rw [List.map_congr_left hplace]
    rfl
  rw [immField, harray, ← hplaces, hpick]
  congr 1
  apply BitVec.eq_of_toNat_eq
  rw [BitVec.extractLsb'_toNat, BitVec.toNat_ofNat, BitVec.toNat_ofNat, Nat.mod_eq_of_lt hfits,
    Nat.shiftRight_eq_div_pow, heldNumber, hk, Nat.mod_mod]

theorem signExtend_eq_iff {x y : ℕ} (hx : x < 2 ^ 12) (hy : y ≤ 2047) :
    (BitVec.ofNat 12 x).signExtend 32 = BitVec.ofNat 32 y ↔ x = y := by
  have hmsb : (BitVec.ofNat 12 x).msb = decide (2 ^ 11 ≤ x) := by
    rw [BitVec.msb_eq_decide, BitVec.toNat_ofNat, Nat.mod_eq_of_lt hx]
  rw [← BitVec.toNat_inj, BitVec.toNat_signExtend, hmsb, BitVec.toNat_setWidth, BitVec.toNat_ofNat,
    BitVec.toNat_ofNat]
  by_cases hneg : 2 ^ 11 ≤ x
  · rw [decide_eq_true hneg, if_pos rfl]
    omega
  · rw [decide_eq_false hneg, if_neg (by decide)]
    omega

theorem loads_fields {whole instru rd imm rs1 : Text} {v vd v1 : BitVec 64} {f : BitVec 12}
    {rdn r1 : BitVec 5}
    (hfields : findStringSubmatch loadsExpr ctx.assembly = [whole, instru, rd, imm, rs1])
    (himm : immediateInt imm = .ok v) (hf : immField v = wordBits f)
    (hrd : stringRegToInt rd = .ok vd) (hrs1 : stringRegToInt rs1 = .ok v1)
    (hrdn : regBits vd = wordBits rdn) (hr1 : regBits v1 = wordBits r1) :
    loads ctx =
      .ok (machineCode (wordBits (iFormat f r1 (loadsFunct3 instru) rdn 0b0000011#7))) := by
  unfold immField at hf
  simp only [loads, hfields, field_zero, field_succ, ok_bind, hrd, hrs1, himm, hrdn, hr1, hf,
    wordBits_append]
  rfl

theorem loads_text (size : Size) (signed : Bool) (rd rs1 : Register) (offset : HexLiteral)
    (hoffset : offset.number < 2 ^ 32)
    (h : ctx.assembly = lineOffset (loadName size signed) rd.text offset.text rs1.text) :
    loads ctx = .ok (machineCode (wordBits (iFormat
      ((BitVec.ofInt 32 offset.number).extractLsb' 0 12) rs1.number
      (loadsFunct3 (loadName size signed)) rd.number 0b0000011#7))) := by
  obtain ⟨whole, hfields⟩ := fields_offset (loadName_lower size signed).1
    (loadName_lower size signed).2 rd rs1 (fun c => c == '@' || c == '+' || isWord c)
    offset.text_ne_nil (fun c hc => by rw [offset.isWord_text c hc, Bool.or_true])
    offset.not_blank rfl rfl
  rw [← h] at hfields
  exact loads_fields hfields (immediateInt_text (offset.not_mem_text (c := 'W') rfl (by decide))
    (offset.stringHexToInt_text (by omega))) (immField_ofInt (by omega) (by omega))
    rd.stringRegToInt_text rs1.stringRegToInt_text (regBits_number rd) (regBits_number rs1)

def storeName : Size → Text
  | .byte => "sb".toList
  | .half => "sh".toList
  | .word => "sw".toList

theorem storeName_lower (size : Size) :
    storeName size ≠ [] ∧ ∀ c ∈ storeName size, isLower c = true := by
  cases size <;> exact ⟨List.cons_ne_nil _ _, List.all_eq_true.mp rfl⟩

/-- A store takes them in two parts. -/
theorem immField_parts {v : BitVec 64} {f : BitVec 12} (hf : immField v = wordBits f) :
    pick (intToBinaryArray v) [20, 21, 22, 23, 24, 25, 26] = wordBits (f.extractLsb' 5 7) ∧
      pick (intToBinaryArray v) [27, 28, 29, 30, 31] = wordBits (f.extractLsb' 0 5) := by
  have hparts : pick (intToBinaryArray v) [20, 21, 22, 23, 24, 25, 26] ++
      pick (intToBinaryArray v) [27, 28, 29, 30, 31] =
        wordBits (f.extractLsb' 5 7) ++ wordBits (f.extractLsb' 0 5) := by
    rw [wordBits_append, BitVec.extractLsb'_append_extractLsb'_eq_extractLsb' (by decide)]
    refine Eq.trans hf (congrArg wordBits ?_)
    exact BitVec.extractLsb'_eq_self.symm
  exact List.append_inj hparts (by simp [pick])

theorem stores_fields {whole instru rs2 imm rs1 : Text} {v v2 v1 : BitVec 64} {f : BitVec 12}
    {r2 r1 : BitVec 5}
    (hfields : findStringSubmatch storesExpr ctx.assembly = [whole, instru, rs2, imm, rs1])
    (himm : immediateInt imm = .ok v) (hf : immField v = wordBits f)
    (hrs2 : stringRegToInt rs2 = .ok v2) (hrs1 : stringRegToInt rs1 = .ok v1)
    (hr2 : regBits v2 = wordBits r2) (hr1 : regBits v1 = wordBits r1) :
    stores ctx =
      .ok (machineCode (wordBits (sFormat f r2 r1 (storesFunct3 instru) 0b0100011#7))) := by
  obtain ⟨hupper, hlower⟩ := immField_parts hf
  simp only [stores, hfields, field_zero, field_succ, ok_bind, hrs2, hrs1, himm, hr2, hr1, hupper,
    hlower, wordBits_append]
  rfl

theorem stores_text (size : Size) (rs2 rs1 : Register) (offset : HexLiteral)
    (hoffset : offset.number < 2 ^ 32)
    (h : ctx.assembly = lineOffset (storeName size) rs2.text offset.text rs1.text) :
    stores ctx = .ok (machineCode (wordBits (sFormat
      ((BitVec.ofInt 32 offset.number).extractLsb' 0 12) rs2.number rs1.number
      (storesFunct3 (storeName size)) 0b0100011#7))) := by
  obtain ⟨whole, hfields⟩ := fields_offset (storeName_lower size).1 (storeName_lower size).2 rs2 rs1
    isWord offset.text_ne_nil offset.isWord_text offset.not_blank rfl rfl
  rw [← h] at hfields
  exact stores_fields hfields (immediateInt_text (offset.not_mem_text (c := 'W') rfl (by decide))
    (offset.stringHexToInt_text (by omega))) (immField_ofInt (by omega) (by omega))
    rs2.stringRegToInt_text rs1.stringRegToInt_text (regBits_number rs2) (regBits_number rs1)

/-- From the PC to a target, in bytes. -/
def distance (pc target : HexLiteral) : ℤ := 4 * (target.number : ℤ) - pc.number

/-- A label that the context knows, at an even distance of the PC within the given reach. -/
structure Reaches (labels : Labels) (pc : HexLiteral) (label : Text) (target : HexLiteral)
    (reach : ℤ) : Prop where
  word : label ≠ [] ∧ ∀ c ∈ label, isWord c = true
  found : findLabelValue labels label = .ok target.text
  pcSmall : pc.number < 2 ^ 63
  targetSmall : 4 * target.number < 2 ^ 63
  low : -reach ≤ distance pc target
  high : distance pc target < reach
  even : 2 ∣ distance pc target

def condName : Cond → Text
  | .eq => "beq".toList
  | .ne => "bne".toList
  | .lt => "blt".toList
  | .ge => "bge".toList
  | .ltu => "bltu".toList
  | .geu => "bgeu".toList

theorem condName_lower (c : Cond) : condName c ≠ [] ∧ ∀ c' ∈ condName c, isLower c' = true := by
  cases c <;> exact ⟨List.cons_ne_nil _ _, List.all_eq_true.mp rfl⟩

section Labels
variable {pc target : HexLiteral} {label : Text}

theorem splits_label (hlabel : label ≠ [] ∧ ∀ c ∈ label, isWord c = true) :
    Splits [one '@', word] [['@'], label] [] :=
  ⟨takes_one '@' _, takes_plus rfl rfl hlabel.1 hlabel.2 (stops_nil _), trivial⟩

/-- The bit on top of the branch offset is taken from further up, where it is the sign still. -/
theorem btypeBranch_fields {whole instru rs1 rs2 : Text} {v1 v2 : BitVec 64} {r1 r2 : BitVec 5}
    {d : ℤ}
    (hfields : findStringSubmatch branchExpr ctx.assembly = [whole, instru, rs1, rs2, label])
    (hdelta : labelDelta ctx label = .ok (BitVec.ofInt 64 d))
    (hrs1 : stringRegToInt rs1 = .ok v1) (hrs2 : stringRegToInt rs2 = .ok v2)
    (hr1 : regBits v1 = wordBits r1) (hr2 : regBits v2 = wordBits r2)
    (hlow : -4096 ≤ d) (hhigh : d < 4096) :
    btypeBranch ctx = .ok (machineCode (wordBits (bFormat ((BitVec.ofInt 32 d).extractLsb' 0 13)
      r2 r1 (branchFunct3 instru) 0b1100011#7))) := by
  set x : Word := BitVec.ofInt 32 d with hx
  have harray : intToBinaryArray (BitVec.ofInt 64 d) = wordBits x :=
    intToBinaryArray_ofInt (by omega) (by omega)
  have hsign : (x.extractLsb' 0 13).signExtend 32 = x :=
    signExtend_slice (n := 12) (by decide) hlow hhigh
  have h12 : pick (wordBits x) [12] = wordBits ((x.extractLsb' 0 13).extractLsb' 12 1) := by
    have hpick : pick (wordBits x) [12] = wordBits (x.extractLsb' 19 1) :=
      pick_wordBits x 19 1 (by decide)
    rw [hpick]
    congr 1
    apply BitVec.eq_of_getLsbD_eq
    intro i hi
    obtain rfl : i = 0 := by omega
    have hbit := congrArg (fun y => y.getLsbD 19) hsign
    simp only [BitVec.getLsbD_signExtend, BitVec.msb_eq_getLsbD_last] at hbit
    simp only [BitVec.getLsbD_extractLsb']
    simpa using hbit.symm
  have h10 : pick (wordBits x) [21, 22, 23, 24, 25, 26] =
      wordBits ((x.extractLsb' 0 13).extractLsb' 5 6) :=
    pick_low x 13 5 6 (by decide) (by decide)
  have h4 : pick (wordBits x) [27, 28, 29, 30] =
      wordBits ((x.extractLsb' 0 13).extractLsb' 1 4) :=
    pick_low x 13 1 4 (by decide) (by decide)
  have h11 : pick (wordBits x) [20] = wordBits ((x.extractLsb' 0 13).extractLsb' 11 1) :=
    pick_low x 13 11 1 (by decide) (by decide)
  simp only [btypeBranch, hfields, field_zero, field_succ, ok_bind, hrs1, hrs2, hdelta, hr1, hr2,
    harray, h12, h10, h4, h11, wordBits_append]
  rfl

theorem btypeBranch_text (c : Cond) (rs1 rs2 : Register) (hpc : ctx.pc = pc.text)
    (hr : Reaches ctx.labels pc label target 4096)
    (h : ctx.assembly = lineThree (condName c) rs1.text rs2.text ('@' :: label)) :
    btypeBranch ctx = .ok (machineCode (wordBits (bFormat
      ((BitVec.ofInt 32 (distance pc target)).extractLsb' 0 13) rs2.number rs1.number
      (branchFunct3 (condName c)) 0b1100011#7))) := by
  obtain ⟨whole, hfields⟩ := fields_three (condName_lower c).1 (condName_lower c).2 rs1 rs2
    [one '@', word] [['@'], label] (stops_cons (by decide)) (splits_label hr.word)
  have hflat : [['@'], label].flatten = '@' :: label := by simp
  rw [hflat, ← h] at hfields
  exact btypeBranch_fields hfields (labelDelta_text hpc hr.found hr.pcSmall hr.targetSmall)
    rs1.stringRegToInt_text rs2.stringRegToInt_text (regBits_number rs1) (regBits_number rs2)
    hr.low hr.high

theorem jal_fields {whole instru rd : Text} {v : BitVec 64} {r : BitVec 5} {d : ℤ}
    (hfields : findStringSubmatch jalExpr ctx.assembly = [whole, instru, rd, label])
    (hdelta : labelDelta ctx label = .ok (BitVec.ofInt 64 d))
    (hrd : stringRegToInt rd = .ok v) (hr : regBits v = wordBits r)
    (hlow : -1048576 ≤ d) (hhigh : d < 1048576) :
    jal ctx = .ok (machineCode (wordBits (jFormat ((BitVec.ofInt 32 d).extractLsb' 0 21) r
      0b1101111#7))) := by
  set x : Word := BitVec.ofInt 32 d with hx
  have harray : intToBinaryArray (BitVec.ofInt 64 d) = wordBits x :=
    intToBinaryArray_ofInt (by omega) (by omega)
  have hlength : List.replicate ((wordBits x).length - 32) false = [] := by
    rw [length_wordBits]
    rfl
  have h20 : pick (wordBits x) [11] = wordBits ((x.extractLsb' 0 21).extractLsb' 20 1) :=
    pick_low x 21 20 1 (by decide) (by decide)
  have h10 : pick (wordBits x) [21, 22, 23, 24, 25, 26, 27, 28, 29, 30] =
      wordBits ((x.extractLsb' 0 21).extractLsb' 1 10) :=
    pick_low x 21 1 10 (by decide) (by decide)
  have h11 : pick (wordBits x) [20] = wordBits ((x.extractLsb' 0 21).extractLsb' 11 1) :=
    pick_low x 21 11 1 (by decide) (by decide)
  have h19 : pick (wordBits x) [12, 13, 14, 15, 16, 17, 18, 19] =
      wordBits ((x.extractLsb' 0 21).extractLsb' 12 8) :=
    pick_low x 21 12 8 (by decide) (by decide)
  simp only [jal, hfields, field_zero, field_succ, ok_bind, hrd, hdelta, hr, harray, hlength,
    List.nil_append, h20, h10, h11, h19, wordBits_append]
  rfl

theorem jal_text (rd : Register) (hpc : ctx.pc = pc.text)
    (hr : Reaches ctx.labels pc label target 1048576)
    (h : ctx.assembly = lineTwo "jal".toList rd.text ('@' :: label)) :
    jal ctx = .ok (machineCode (wordBits (jFormat
      ((BitVec.ofInt 32 (distance pc target)).extractLsb' 0 21) rd.number 0b1101111#7))) := by
  have hne : "jal".toList ≠ [] := by decide
  obtain ⟨whole, hfields⟩ := fields_two hne (List.all_eq_true.mp rfl) rd
    [one '@', word] [['@'], label] (stops_cons (by decide)) (splits_label hr.word)
  have hflat : [['@'], label].flatten = '@' :: label := by simp
  rw [hflat, ← h] at hfields
  exact jal_fields hfields (labelDelta_text hpc hr.found hr.pcSmall hr.targetSmall)
    rd.stringRegToInt_text (regBits_number rd) hr.low hr.high

end Labels

/-- The lowest bit is written as zero whatever the offset. -/
theorem jalr_fields {whole instru rd label rs1 offset : Text} {v vd v1 : BitVec 64} {f : BitVec 12}
    {rdn r1 : BitVec 5}
    (hfields : findStringSubmatch jalrExpr ctx.assembly = [whole, instru, rd, label, rs1])
    (hoffset : jalrOffset ctx label = .ok offset) (hint : stringHexToInt offset = .ok v)
    (hf : immField v = wordBits f) (hrd : stringRegToInt rd = .ok vd)
    (hrs1 : stringRegToInt rs1 = .ok v1) (hrdn : regBits vd = wordBits rdn)
    (hr1 : regBits v1 = wordBits r1) :
    jalr ctx = .ok (machineCode (wordBits (iFormat (f.extractLsb' 1 11 ++ 0#1) r1 0b000#3 rdn
      0b1100111#7))) := by
  have hparts : pick (intToBinaryArray v) [20, 21, 22, 23, 24, 25, 26, 27, 28, 29, 30] ++
      pick (intToBinaryArray v) [31] = wordBits (f.extractLsb' 1 11) ++
        wordBits (f.extractLsb' 0 1) := by
    rw [wordBits_append, BitVec.extractLsb'_append_extractLsb'_eq_extractLsb' (by decide)]
    refine Eq.trans hf (congrArg wordBits ?_)
    exact BitVec.extractLsb'_eq_self.symm
  have hupper := (List.append_inj hparts (by simp [pick])).1
  have hlast : [false] = wordBits 0#1 := rfl
  simp only [jalr, hfields, field_zero, field_succ, ok_bind, hoffset, hint, hrd, hrs1, hrdn, hr1,
    hupper, hlast, wordBits_append]
  rfl

theorem jalr_text (rd rs1 : Register) {label : Text} {offset : HexLiteral}
    (hlabel : label ≠ [] ∧ ∀ c ∈ label, isWord c = true)
    (hoffset : jalrOffset ctx label = .ok offset.text)
    (hsmall : offset.number < 2 ^ 32) (heven : 2 ∣ offset.number)
    (h : ctx.assembly = lineOffset "jalr".toList rd.text label rs1.text) :
    jalr ctx = .ok (machineCode (wordBits (iFormat
      ((BitVec.ofInt 32 offset.number).extractLsb' 0 12) rs1.number 0b000#3 rd.number
      0b1100111#7))) := by
  have hne : "jalr".toList ≠ [] := by decide
  obtain ⟨whole, hfields⟩ := fields_offset hne (List.all_eq_true.mp rfl) rd rs1 isWord
    hlabel.1 hlabel.2 (fun c hc => isWord_not_blank (hlabel.2 c hc)) rfl rfl
  rw [← h] at hfields
  have hcode := jalr_fields hfields hoffset (offset.stringHexToInt_text (by omega))
    (immField_ofInt (by omega) (by omega)) rd.stringRegToInt_text rs1.stringRegToInt_text
    (regBits_number rd) (regBits_number rs1)
  set x : Word := BitVec.ofInt 32 offset.number with hx
  have hbit : x.getLsbD 0 = false := by
    rw [hx, BitVec.ofInt_natCast, BitVec.getLsbD_ofNat, Nat.testBit_zero]
    simpa using Nat.mod_eq_zero_of_dvd heven
  have hfield : (x.extractLsb' 0 12).extractLsb' 1 11 ++ 0#1 = x.extractLsb' 0 12 := by
    apply BitVec.eq_of_getLsbD_eq
    intro i hi
    simp only [BitVec.getLsbD_append, BitVec.getLsbD_extractLsb', BitVec.getLsbD_zero]
    grind
  rw [hcode, hfield]

theorem utype_text (op : Text) (opcode : BitVec 7) (hne : op ≠ [])
    (hop : ∀ c ∈ op, isLower c = true) (rd : Register) (imm : HexLiteral)
    (himm : imm.number < 2 ^ 32) (h : ctx.assembly = lineTwo op rd.text imm.text) :
    utype opcode ctx = .ok (machineCode (wordBits (uFormat
      ((BitVec.ofInt 32 imm.number).extractLsb' 0 20) rd.number opcode))) := by
  obtain ⟨whole, hfields⟩ := fields_utype hne hop rd imm.text_ne_nil imm.isWord_text
  rw [← h] at hfields
  have hint := imm.stringHexToInt_text (by omega)
  set x : Word := BitVec.ofInt 32 imm.number with hx
  have harray : intToBinaryArray (BitVec.ofInt 64 imm.number) = wordBits x :=
    intToBinaryArray_ofInt (by omega) (by omega)
  have himm20 : pick (wordBits x) [12, 13, 14, 15, 16, 17, 18, 19, 20, 21, 22, 23, 24, 25, 26, 27,
      28, 29, 30, 31] = wordBits (x.extractLsb' 0 20) := pick_wordBits x 0 20 (by decide)
  simp only [utype, hfields, field_zero, field_succ, ok_bind, hint, Register.stringRegToInt_text,
    regBits_number, harray, himm20, wordBits_append]
  rfl

end Encoders

end RangerRisc.Assembler
