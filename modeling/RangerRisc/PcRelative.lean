import RangerRisc.AssemblerWords
import RangerRisc.Isa

/-! Branches and `jal`, whose last operand is a label: when the offset that `Immediate.sv`
makes of the word is the distance to that label. -/

namespace RangerRisc.Assembler

open Numeral Regexp

inductive PcRelative where
  | branch
  | jal
  deriving DecidableEq

namespace PcRelative

def expr : PcRelative → Pattern
  | branch => branchExpr
  | jal => jalExpr

def encode : PcRelative → Context → Except Error Text
  | branch => btypeBranch
  | jal => Assembler.jal

/-- The place of the label among the fields of a line. -/
def labelField : PcRelative → ℕ
  | branch => 4
  | jal => 3

def registerFields : PcRelative → List ℕ
  | branch => [2, 3]
  | jal => [2]

/-- `imm_o` of the instruction. -/
def offset : PcRelative → Word → Word
  | branch => immB
  | jal => immJ

/-- The distances that the immediate holds lie below this one, and from its opposite on. -/
def reach : PcRelative → ℤ
  | branch => 4096
  | jal => 1048576

def fields (k : PcRelative) (ctx : Context) : List Text := findStringSubmatch k.expr ctx.assembly

/-- The register operands are numbers. -/
def Registers (k : PcRelative) (ctx : Context) : Prop :=
  ∀ i ∈ k.registerFields, ∃ v, (field (k.fields ctx) i >>= stringRegToInt) = .ok v

end PcRelative

/-! ## The distance, for addresses of any size -/

/-- What `wordAddrToByteAddrString` makes of the address of a label: it drops the error of an
address that is no `int64`, and multiplies in 64 bits. -/
def byteAddress (target : HexLiteral) : ℕ :=
  if target.number < 2 ^ 63 then 4 * target.number % 2 ^ 64 else 0

/-- Both ends of the distance are `int64` numbers. -/
def HasAddress (pc target : HexLiteral) : Prop := pc.number < 2 ^ 63 ∧ byteAddress target < 2 ^ 63

section Delta
variable {ctx : Context} {label : Text} {pc target : HexLiteral}

theorem wordAddrToByteAddrString_eq (target : HexLiteral) :
    wordAddrToByteAddrString target.text = (HexLiteral.printed (byteAddress target)).text := by
  unfold byteAddress
  split_ifs with h
  · have hmul : (BitVec.ofInt 64 (target.number : ℤ) * 4).toNat = 4 * target.number % 2 ^ 64 := by
      rw [BitVec.ofInt_natCast, BitVec.toNat_mul, BitVec.toNat_ofNat]
      show target.number % 2 ^ 64 * 4 % 2 ^ 64 = _
      omega
    rw [wordAddrToByteAddrString, target.stringHexToInt_text h]
    show uintToHexString (BitVec.ofInt 64 (target.number : ℤ) * 4) false = _
    rw [uintToHexString, hmul]
    rfl
  · rw [wordAddrToByteAddrString, target.stringHexToInt_large (Nat.le_of_not_lt h)]
    rfl

/-- The distance to a label whose value has this byte address. -/
theorem labelDelta_of_bytes {t : Text} {bytes : HexLiteral} (hpc : ctx.pc = pc.text)
    (hfound : findLabelValue ctx.labels label = .ok t)
    (hbytes : wordAddrToByteAddrString t = bytes.text)
    (h : pc.number < 2 ^ 63 ∧ bytes.number < 2 ^ 63) :
    labelDelta ctx label = .ok (BitVec.ofInt 64 (bytes.number - pc.number)) := by
  rw [labelDelta, hpc, pc.stringHexToInt_text h.1, hfound, ok_bind, ok_bind, hbytes,
    bytes.stringHexToInt_text h.2, Int.sub_eq_add_neg, BitVec.ofInt_add, BitVec.ofInt_neg,
    ← BitVec.sub_eq_add_neg]
  rfl

theorem labelDelta_of_large {t : Text} {bytes : HexLiteral} (hpc : ctx.pc = pc.text)
    (hfound : findLabelValue ctx.labels label = .ok t)
    (hbytes : wordAddrToByteAddrString t = bytes.text)
    (h : ¬ (pc.number < 2 ^ 63 ∧ bytes.number < 2 ^ 63)) :
    labelDelta ctx label = .error .errRange := by
  rcases Nat.lt_or_ge pc.number (2 ^ 63) with hsmall | hlarge
  · have hlarge : 2 ^ 63 ≤ bytes.number := by
      by_contra hlt
      exact h ⟨hsmall, Nat.lt_of_not_le hlt⟩
    rw [labelDelta, hpc, pc.stringHexToInt_text hsmall, hfound, ok_bind, ok_bind, hbytes,
      bytes.stringHexToInt_large hlarge]
    rfl
  · rw [labelDelta, hpc, pc.stringHexToInt_large hlarge]
    rfl

theorem labelDelta_eq_error (hpc : ctx.pc = pc.text)
    (htarget : findLabelValue ctx.labels label = .ok target.text) (h : ¬ HasAddress pc target) :
    labelDelta ctx label = .error .errRange :=
  labelDelta_of_large hpc htarget (wordAddrToByteAddrString_eq target) h

theorem labelDelta_eq_ok (hpc : ctx.pc = pc.text)
    (htarget : findLabelValue ctx.labels label = .ok target.text) (h : HasAddress pc target) :
    labelDelta ctx label = .ok (BitVec.ofInt 64 (byteAddress target - pc.number)) :=
  labelDelta_of_bytes hpc htarget (wordAddrToByteAddrString_eq target) h

/-- A label within reach is not so far up that its address wraps around. -/
theorem byteAddress_of_near (hpc : pc.number < 2 ^ 63) (h : distance pc target < 2 ^ 63) :
    byteAddress target = 4 * target.number := by
  unfold distance at h
  rw [byteAddress, if_pos (by omega), Nat.mod_eq_of_lt (by omega)]

end Delta

/-! ## Lines that are encoded -/

section Fields
variable {ctx : Context} {label : Text}

theorem fields_of_branch (h : field (PcRelative.branch.fields ctx) 4 = .ok label) :
    ∃ whole instru rs1 rs2,
      findStringSubmatch branchExpr ctx.assembly = [whole, instru, rs1, rs2, label] := by
  have hlength : (findStringSubmatch branchExpr ctx.assembly).length = 4 + 1 := length_fields h
  have h : field (findStringSubmatch branchExpr ctx.assembly) 4 = .ok label := h
  obtain ⟨whole, groups, hfields⟩ := List.exists_cons_of_length_eq_add_one hlength
  rw [hfields] at h hlength ⊢
  obtain ⟨instru, rs1, rs2, t, rfl⟩ := List.length_eq_four.mp (Nat.succ.inj hlength)
  obtain rfl : t = label := Except.ok.inj h
  exact ⟨whole, instru, rs1, rs2, rfl⟩

theorem fields_of_jal (h : field (PcRelative.jal.fields ctx) 3 = .ok label) :
    ∃ whole instru rd, findStringSubmatch jalExpr ctx.assembly = [whole, instru, rd, label] := by
  have hlength : (findStringSubmatch jalExpr ctx.assembly).length = 4 := length_fields h
  have h : field (findStringSubmatch jalExpr ctx.assembly) 3 = .ok label := h
  obtain ⟨whole, instru, rd, t, hfields⟩ := List.length_eq_four.mp hlength
  rw [hfields] at h
  obtain rfl : t = label := Except.ok.inj h
  exact ⟨whole, instru, rd, hfields⟩

/-- **No distance is refused**: an encoder fails at a register or at an address only. -/
theorem accepts_iff (k : PcRelative) (hlabel : field (k.fields ctx) k.labelField = .ok label) :
    (∃ code, k.encode ctx = .ok code) ↔
      (∃ delta, labelDelta ctx label = .ok delta) ∧ k.Registers ctx := by
  cases k with
  | branch =>
    obtain ⟨whole, instru, rs1, rs2, hfields⟩ := fields_of_branch hlabel
    have hregs : PcRelative.branch.Registers ctx ↔
        (∃ v, stringRegToInt rs1 = .ok v) ∧ ∃ v, stringRegToInt rs2 = .ok v := by
      simp [PcRelative.Registers, PcRelative.registerFields, PcRelative.fields, PcRelative.expr,
        hfields]
    rw [hregs]
    show (∃ code, btypeBranch ctx = .ok code) ↔ _
    simp only [btypeBranch, hfields, field_zero, field_succ, ok_bind]
    cases labelDelta ctx label <;> cases stringRegToInt rs2 <;> cases stringRegToInt rs1 <;>
      simp [bind, Except.bind, pure, Except.pure]
  | jal =>
    obtain ⟨whole, instru, rd, hfields⟩ := fields_of_jal hlabel
    have hregs : PcRelative.jal.Registers ctx ↔ ∃ v, stringRegToInt rd = .ok v := by
      simp [PcRelative.Registers, PcRelative.registerFields, PcRelative.fields, PcRelative.expr,
        hfields]
    rw [hregs]
    show (∃ code, jal ctx = .ok code) ↔ _
    simp only [jal, hfields, field_zero, field_succ, ok_bind]
    cases labelDelta ctx label <;> cases stringRegToInt rd <;>
      simp [bind, Except.bind, pure, Except.pure]

end Fields

/-! ## What the immediate holds -/

theorem toInt_signExtend_slice {z : ℤ} {n : ℕ} (hn : n < 31) (hlow : -2 ^ n ≤ z)
    (hhigh : z < 2 ^ n) :
    (((BitVec.ofInt 32 z).extractLsb' 0 (n + 1)).signExtend 32).toInt = z := by
  have hpow : (2 : ℤ) ^ n ≤ 2 ^ 31 := pow_le_pow_right₀ (by decide) (Nat.le_of_lt hn)
  rw [signExtend_slice (Nat.lt_succ_of_lt hn) hlow hhigh, BitVec.toInt_ofInt,
    Int.bmod_eq_of_le (by omega) (by omega)]

theorem getLsbD_zero_ofInt {z : ℤ} {n : ℕ} (heven : 2 ∣ z) :
    ((BitVec.ofInt 32 z).extractLsb' 0 n).getLsbD 0 = false := by
  have hmod : (z % ((2 ^ 32 : ℕ) : ℤ)).toNat % 2 = 0 := by omega
  rw [BitVec.getLsbD_extractLsb', BitVec.getLsbD, BitVec.toNat_ofInt, Nat.testBit_zero, hmod]
  simp

theorem two_dvd_toInt_append_zero {n : ℕ} (y : BitVec n) : (2 : ℤ) ∣ (y ++ 0#1).toInt := by
  have hnat : (y ++ 0#1).toNat = 2 * y.toNat := by
    rw [BitVec.toNat_append]
    simp [Nat.shiftLeft_eq, Nat.mul_comm]
  have hpow : 2 ^ (n + 1) = 2 * 2 ^ n := by rw [Nat.pow_succ, Nat.mul_comm]
  rw [BitVec.toInt_eq_toNat_cond, hnat]
  split_ifs
  · exact_mod_cast Dvd.intro _ rfl
  · rw [hpow]
    push_cast
    exact dvd_sub (Dvd.intro _ rfl) (Dvd.intro _ rfl)

/-- **Every immediate is even and within reach.** -/
theorem offset_range (k : PcRelative) (w : Word) :
    -k.reach ≤ (k.offset w).toInt ∧ (k.offset w).toInt < k.reach ∧ 2 ∣ (k.offset w).toInt := by
  cases k with
  | branch =>
    show -4096 ≤ (immB w).toInt ∧ (immB w).toInt < 4096 ∧ 2 ∣ (immB w).toInt
    rw [immB_eq, Rv32i.immB, BitVec.toInt_signExtend_of_le (by decide)]
    exact ⟨BitVec.le_toInt _, BitVec.toInt_lt, two_dvd_toInt_append_zero _⟩
  | jal =>
    show -1048576 ≤ (immJ w).toInt ∧ (immJ w).toInt < 1048576 ∧ 2 ∣ (immJ w).toInt
    rw [immJ_eq, Rv32i.immJ, BitVec.toInt_signExtend_of_le (by decide)]
    exact ⟨BitVec.le_toInt _, BitVec.toInt_lt, two_dvd_toInt_append_zero _⟩

section Encodes
variable {ctx : Context} {label : Text} {pc target : HexLiteral}

/-- A distance within reach is encoded as it is. -/
theorem encode_near (k : PcRelative) {d : ℤ}
    (hlabel : field (k.fields ctx) k.labelField = .ok label)
    (hdelta : labelDelta ctx label = .ok (BitVec.ofInt 64 d)) (hregs : k.Registers ctx)
    (hlow : -k.reach ≤ d) (hhigh : d < k.reach) (heven : 2 ∣ d) :
    ∃ w, k.encode ctx = .ok (machineCode (wordBits w)) ∧ (k.offset w).toInt = d := by
  cases k with
  | branch =>
    obtain ⟨whole, instru, rs1, rs2, hfields⟩ := fields_of_branch hlabel
    have hfield : PcRelative.branch.fields ctx = [whole, instru, rs1, rs2, label] := hfields
    obtain ⟨v1, hv1⟩ := hregs 2 (by decide)
    obtain ⟨v2, hv2⟩ := hregs 3 (by decide)
    rw [hfield] at hv1 hv2
    obtain ⟨r1, hr1⟩ := exists_regBits v1
    obtain ⟨r2, hr2⟩ := exists_regBits v2
    refine ⟨_, btypeBranch_fields hfields hdelta hv1 hv2 hr1 hr2 hlow hhigh, ?_⟩
    show (immB _).toInt = d
    rw [immB_eq, Rv32i.immB_bFormat _ _ _ _ _ (getLsbD_zero_ofInt heven)]
    exact toInt_signExtend_slice (n := 12) (by decide) hlow hhigh
  | jal =>
    obtain ⟨whole, instru, rd, hfields⟩ := fields_of_jal hlabel
    have hfield : PcRelative.jal.fields ctx = [whole, instru, rd, label] := hfields
    obtain ⟨v, hv⟩ := hregs 2 (by decide)
    rw [hfield] at hv
    obtain ⟨r, hr⟩ := exists_regBits v
    refine ⟨_, jal_fields hfields hdelta hv hr hlow hhigh, ?_⟩
    show (immJ _).toInt = d
    rw [immJ_eq, Rv32i.immJ_jFormat _ _ _ (getLsbD_zero_ofInt heven)]
    exact toInt_signExtend_slice (n := 20) (by decide) hlow hhigh

/-- **When an encoder is exact**: it gives a word with another offset for every distance out of
reach, and it fails only where a register or an address is no number. -/
theorem encode_exact_iff (k : PcRelative) (hlabel : field (k.fields ctx) k.labelField = .ok label)
    (hpc : ctx.pc = pc.text) (htarget : findLabelValue ctx.labels label = .ok target.text) :
    (∀ code, k.encode ctx = .ok code →
        ∃ w, readWord code = some w ∧ (k.offset w).toInt = distance pc target) ↔
      ¬ k.Registers ctx ∨ ¬ HasAddress pc target ∨
        -k.reach ≤ distance pc target ∧ distance pc target < k.reach ∧ 2 ∣ distance pc target := by
  have haccepts := accepts_iff k hlabel
  constructor
  · intro hexact
    by_cases hregs : k.Registers ctx
    · by_cases haddr : HasAddress pc target
      · obtain ⟨code, hcode⟩ := haccepts.mpr ⟨⟨_, labelDelta_eq_ok hpc htarget haddr⟩, hregs⟩
        obtain ⟨w, -, hw⟩ := hexact code hcode
        rw [← hw]
        exact .inr (.inr (offset_range k w))
      · exact .inr (.inl haddr)
    · exact .inl hregs
  · intro hcond code hcode
    obtain ⟨⟨delta, hdelta⟩, hregs⟩ := haccepts.mp ⟨code, hcode⟩
    have haddr : HasAddress pc target := by
      by_contra hno
      rw [labelDelta_eq_error hpc htarget hno] at hdelta
      cases hdelta
    obtain ⟨hlow, hhigh, heven⟩ := (hcond.resolve_left (not_not_intro hregs)).resolve_left
      (not_not_intro haddr)
    have hreach : k.reach ≤ 2 ^ 63 := by cases k <;> decide
    have hbytes := byteAddress_of_near haddr.1 (lt_of_lt_of_le hhigh hreach)
    have hdist : labelDelta ctx label = .ok (BitVec.ofInt 64 (distance pc target)) := by
      rw [labelDelta_eq_ok hpc htarget haddr, hbytes, distance]
      push_cast
      rfl
    obtain ⟨w, hw, hoffset⟩ := encode_near k hlabel hdist hregs hlow hhigh heven
    rw [hw] at hcode
    obtain rfl := Except.ok.inj hcode
    exact ⟨w, readWord_machineCode w, hoffset⟩

end Encodes

/-- A branch back from byte 32 to word 4. -/
theorem encode_exact_backwards :
    ∃ w, PcRelative.branch.encode
        ⟨"bne x1, x2, @Loop".toList, "00000020".toList, [[("Loop".toList, "0x4".toList)]]⟩ =
          .ok "FE2098E3".toList ∧
      readWord "FE2098E3".toList = some w ∧ (immB w).toInt = -16 := by
  let pc : HexLiteral := ⟨false, "00000020".toList, 32, by decide +kernel⟩
  let target : HexLiteral := ⟨true, "4".toList, 4, by decide +kernel⟩
  let ctx : Context :=
    ⟨"bne x1, x2, @Loop".toList, pc.text, [[("Loop".toList, target.text)]]⟩
  have hlabel : field (PcRelative.branch.fields ctx) PcRelative.branch.labelField =
      .ok "Loop".toList := by decide +kernel
  have htarget : findLabelValue ctx.labels "Loop".toList = .ok target.text := rfl
  have hcode : PcRelative.branch.encode ctx = .ok "FE2098E3".toList := by decide +kernel
  obtain ⟨w, hw, hoffset⟩ :=
    (encode_exact_iff .branch hlabel rfl htarget).mpr (.inr (.inr (by decide))) _ hcode
  exact ⟨w, hcode, hw, hoffset⟩

/-- A branch at 0 to byte 4096 is encoded as one to itself. -/
theorem branch_far_wraps :
    ¬ ∀ (k : PcRelative) (ctx : Context) (label : Text) (pc target : HexLiteral),
      field (k.fields ctx) k.labelField = .ok label → ctx.pc = pc.text →
      findLabelValue ctx.labels label = .ok target.text →
      ∀ code, k.encode ctx = .ok code →
        ∃ w, readWord code = some w ∧ (k.offset w).toInt = distance pc target := by
  intro h
  let ctx : Context := ⟨"beq x1, x2, @Far".toList, "00000000".toList,
    [[("Far".toList, "0x400".toList)]]⟩
  let pc : HexLiteral := ⟨false, "00000000".toList, 0, by decide +kernel⟩
  let target : HexLiteral := ⟨true, "400".toList, 1024, by decide +kernel⟩
  have hcode : btypeBranch ctx = .ok "00208063".toList := by decide +kernel
  obtain ⟨w, hw, hoffset⟩ :=
    h .branch ctx "Far".toList pc target (by decide +kernel) rfl rfl _ hcode
  have hread : readWord "00208063".toList = some 0x00208063 := by decide +kernel
  obtain rfl : w = 0x00208063 := Option.some.inj (hw.symm.trans hread)
  have hzero : (immB 0x00208063).toInt = 0 := by decide +kernel
  exact absurd (hzero.symm.trans hoffset) (by decide)

end RangerRisc.Assembler
