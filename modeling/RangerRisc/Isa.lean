import RangerRisc.Comparisons
import RangerRisc.Instruction

/-! The processor's own functions against the instruction set: ALU, branch conditions,
immediates and memory lanes, and from them `instrStep` against `Rv32i.exec`. -/

namespace RangerRisc

open Rv32i (AluOp Cond Size Instr)

/-! ## ALU -/

/-- The operation code of an ALU operation. -/
def opCode : AluOp → BitVec 6
  | .add => addOp
  | .sub => subOp
  | .sll => sllOp
  | .slt => sltOp
  | .sltu => sltuOp
  | .xor => xorOp
  | .srl => srlOp
  | .sra => sraOp
  | .or => orOp
  | .and => andOp

theorem opCode_ofFunct3 (f : BitVec 3) : f ++ 0b000#3 = opCode (AluOp.ofFunct3 f) := by
  revert f
  decide

theorem opCode_ofFunct {f : BitVec 3} {f7 : BitVec 7} {o : AluOp}
    (h : AluOp.ofFunct f f7 = some o) : f ++ f7.extractLsb' 4 3 = opCode o := by
  unfold AluOp.ofFunct at h
  split_ifs at h with h7 h7' h3 h3'
  · rw [h7, ← Option.some.inj h]
    exact opCode_ofFunct3 f
  · rw [h7', h3, ← Option.some.inj h]
    decide
  · rw [h7', h3', ← Option.some.inj h]
    decide

theorem getLsbD_fill (n : ℕ) (b : Bool) (i : ℕ) :
    (BitVec.fill n b).getLsbD i = (decide (i < n) && b) := by
  cases b <;> simp [BitVec.fill, BitVec.neg_one_eq_allOnes]

theorem yOut_sra {a b : Word} (undef : Word) (hb : b.toNat < 32) :
    ALU.yOut undef a b sraOp = a.sshiftRight b.toNat := by
  change ((BitVec.fill 32 (a.getLsbD 31) ++ a) >>> b).setWidth 32 = _
  apply BitVec.eq_of_getLsbD_eq
  intro i hi
  simp only [BitVec.getLsbD_setWidth, BitVec.ushiftRight_eq', BitVec.getLsbD_ushiftRight,
    BitVec.getLsbD_append, getLsbD_fill, BitVec.getLsbD_sshiftRight, BitVec.msb_eq_getLsbD_last]
  by_cases h : b.toNat + i < 32
  · simp [h, hi]
  · have hs : b.toNat + i - 32 < 32 := by omega
    simp [h, hi, hs]

/-- An amount below 32 is its own lower five bits. -/
theorem shiftAmount_eq {b : Word} (hb : b.toNat < 32) : Rv32i.shiftAmount b = b.toNat := by
  simp only [Rv32i.shiftAmount, BitVec.extractLsb'_toNat, Nat.shiftRight_zero]
  exact Nat.mod_eq_of_lt hb

/-- The ALU takes the whole of `b` as the amount of a shift. -/
theorem yOut_opCode (undef a b : Word) (o : AluOp) (hb : o.isShift → b.toNat < 32) :
    ALU.yOut undef a b (opCode o) = o.eval a b := by
  cases o with
  | add => rfl
  | sub => exact yOut_sub undef a b
  | xor => rfl
  | or => rfl
  | and => rfl
  | slt => exact yOut_slt undef a b
  | sltu => exact yOut_sltu undef a b
  | sll => rw [AluOp.eval, shiftAmount_eq (hb rfl)]; rfl
  | srl => rw [AluOp.eval, shiftAmount_eq (hb rfl)]; rfl
  | sra => rw [AluOp.eval, shiftAmount_eq (hb rfl)]; exact yOut_sra undef (hb rfl)

/-! ## Branches -/

theorem takeBranch_sub {f : BitVec 3} {c : Rv32i.Cond} (h : Rv32i.Cond.ofFunct3 f = some c)
    (undef a b : Word) : takeBranch (ALU.flagsOut undef a b subOp) f = c.holds a b := by
  obtain ⟨hz, hc, hn⟩ := flags_sub_bits undef a b
  have hn' : ((ALU.flagsOut undef a b subOp).getLsbD flagNegative ==
      (ALU.flagsOut undef a b subOp).getLsbD flagOverflow) = !a.slt b := by
    rw [← hn]
    cases BitVec.getLsbD _ flagNegative <;> cases BitVec.getLsbD _ flagOverflow <;> rfl
  unfold takeBranch
  rw [hz, hc, hn, hn']
  unfold Rv32i.Cond.ofFunct3 at h
  split_ifs at h with h0 h1 h2 h3 h4 h5
  all_goals
    obtain rfl := Option.some.inj h
    subst f
    simp [Rv32i.Cond.holds, bne]

/-! ## Immediates -/

section Immediates
variable (undef ir : Word)

theorem immI_eq : immI ir = Rv32i.immI ir := by
  apply BitVec.eq_of_getLsbD_eq
  intro i hi
  simp only [immI, Rv32i.immI, signs, BitVec.getLsbD_append, BitVec.getLsbD_extractLsb',
    BitVec.getLsbD_signExtend, getLsbD_fill, BitVec.msb_eq_getLsbD_last]
  grind

theorem immS_eq : immS ir = Rv32i.immS ir := by
  apply BitVec.eq_of_getLsbD_eq
  intro i hi
  simp only [immS, Rv32i.immS, signs, BitVec.getLsbD_append, BitVec.getLsbD_extractLsb',
    BitVec.getLsbD_signExtend, getLsbD_fill, BitVec.msb_eq_getLsbD_last]
  grind

theorem immB_eq : immB ir = Rv32i.immB ir := by
  apply BitVec.eq_of_getLsbD_eq
  intro i hi
  simp only [immB, Rv32i.immB, signs, BitVec.getLsbD_append, BitVec.getLsbD_extractLsb',
    BitVec.getLsbD_signExtend, getLsbD_fill, BitVec.msb_eq_getLsbD_last, BitVec.getLsbD_zero]
  grind

theorem immU_eq : immU ir = Rv32i.immU ir := by
  apply BitVec.eq_of_getLsbD_eq
  intro i hi
  simp only [immU, Rv32i.immU, signs, BitVec.getLsbD_append, BitVec.getLsbD_extractLsb',
    getLsbD_fill, BitVec.getLsbD_zero]
  rcases Nat.lt_or_ge i 31 with h | h
  · grind
  · obtain rfl : i = 31 := by omega
    simp

theorem immJ_eq : immJ ir = Rv32i.immJ ir := by
  apply BitVec.eq_of_getLsbD_eq
  intro i hi
  simp only [immJ, Rv32i.immJ, signs, BitVec.getLsbD_append, BitVec.getLsbD_extractLsb',
    BitVec.getLsbD_signExtend, getLsbD_fill, BitVec.msb_eq_getLsbD_last, BitVec.getLsbD_zero]
  grind

theorem immShamt_eq : immShamt ir = Rv32i.shamt ir := by
  apply BitVec.eq_of_getLsbD_eq
  intro i hi
  simp only [immShamt, Rv32i.shamt, BitVec.getLsbD_append, BitVec.getLsbD_extractLsb',
    BitVec.getLsbD_setWidth, BitVec.getLsbD_zero]
  grind

end Immediates

/-! ## Memory lanes -/

section Lanes
variable (mem : Mem) (addr : Word)

/-- The address that the memory sees of a byte address. -/
def byteAddr : BitVec 12 := addr.setWidth 12

theorem wordOf_byteAddr : ByteMemory.wordOf (byteAddr addr) = Pmmu.wordAddr addr := by
  apply BitVec.eq_of_toNat_eq
  simp only [ByteMemory.wordOf, byteAddr, Pmmu.wordAddr, BitVec.toNat_ofNat, BitVec.toNat_setWidth,
    BitVec.extractLsb'_toNat, Nat.shiftRight_eq_div_pow]
  omega

theorem laneOf_byteAddr : ByteMemory.laneOf (byteAddr addr) = addr.toNat % 4 := by
  simp only [ByteMemory.laneOf, byteAddr, BitVec.toNat_setWidth]
  omega

theorem byteSelector_toNat : (Pmmu.byteSelector addr).toNat = addr.toNat % 4 := by
  simp [Pmmu.byteSelector, BitVec.extractLsb'_toNat]

/-- A multiplexer over the lanes of a word. -/
theorem mux4_lanes {w : ℕ} (select : BitVec 2) (g : ℕ → BitVec w) :
    mux4 select (g 0) (g 1) (g 2) (g 3) = g select.toNat := by
  have h : ∀ s : BitVec 2, s = 0#2 ∨ s = 1#2 ∨ s = 2#2 ∨ s = 3#2 := by decide
  rcases h select with rfl | rfl | rfl | rfl <;> rfl

theorem mux2_lanes {w : ℕ} (select : Bool) (g : ℕ → BitVec w) :
    mux2 select (g 0) (g 1) = g select.toNat := by
  cases select <;> rfl

theorem byteData_eq (storage : Word) :
    Pmmu.byteData addr storage = storage.extractLsb' (8 * (addr.toNat % 4)) 8 := by
  rw [← byteSelector_toNat]
  exact mux4_lanes _ fun i => storage.extractLsb' (8 * i) 8

variable {addr}

/-- An aligned halfword is at lane 0 or 2, as address bit 1 says. -/
theorem halfwordSelector_toNat (h : Size.half.Aligned addr) :
    addr.toNat % 4 = 2 * (Pmmu.halfwordSelector addr).toNat := by
  have h2 : addr.toNat % 2 = 0 := h
  have hb : Pmmu.halfwordSelector addr = decide (addr.toNat / 2 % 2 = 1) := by
    rw [Pmmu.halfwordSelector, ← BitVec.testBit_toNat, Nat.testBit_eq_decide_div_mod_eq]
  rw [hb]
  by_cases h1 : addr.toNat / 2 % 2 = 1
  · simp only [h1, decide_true, Bool.toNat_true]
    omega
  · simp only [h1, decide_false, Bool.toNat_false]
    omega

theorem halfwordData_eq (h : Size.half.Aligned addr) (storage : Word) :
    Pmmu.halfwordData addr storage = storage.extractLsb' (8 * (addr.toNat % 4)) 16 := by
  rw [halfwordSelector_toNat h, ← Nat.mul_assoc]
  exact mux2_lanes _ fun i => storage.extractLsb' (16 * i) 16

theorem word_lane (h : Size.word.Aligned addr) : addr.toNat % 4 = 0 := h

/-- An aligned access stays inside its word. -/
theorem lane_fits {size : Size} (h : size.Aligned addr) : addr.toNat % 4 + size.bytes ≤ 4 := by
  unfold Size.Aligned at h
  cases size <;> simp only [Size.bytes] at h ⊢ <;> omega

/-- Repeating the sign in front, where it is asked for, extends. -/
theorem getLsbD_fill_append {m k : ℕ} (h : m + (k + 1) = 32) (signed : Bool)
    (v : BitVec (k + 1)) (i : ℕ) :
    (BitVec.fill m (signed && v.getLsbD k) ++ v).getLsbD i =
      (Rv32i.extend signed v).getLsbD i := by
  have hmsb : v.msb = v.getLsbD k := BitVec.msb_eq_getLsbD_last v
  rw [BitVec.getLsbD_append, getLsbD_fill]
  unfold Rv32i.extend
  cases signed
  · simp only [Bool.false_and, Bool.and_false, Bool.false_eq_true, if_false,
      BitVec.getLsbD_setWidth]
    grind
  · simp only [Bool.true_and, if_true, BitVec.getLsbD_signExtend, hmsb]
    grind

theorem extend_word (signed : Bool) (v : Word) : Rv32i.extend signed v = v := by
  cases signed <;> simp [Rv32i.extend]

theorem loadData_eq {f : BitVec 3} {size : Size} {signed : Bool}
    (hf : Rv32i.loadFunct f = some (size, signed)) (h : size.Aligned addr) :
    Pmmu.loadData f addr (mem (Pmmu.wordAddr addr)) =
      Rv32i.extend signed
        (ByteMemory.load (ByteMemory.ofWords mem) (byteAddr addr) size.bytes) := by
  have hfit : ByteMemory.laneOf (byteAddr addr) + size.bytes ≤ 4 := by
    rw [laneOf_byteAddr]
    exact lane_fits h
  rw [ByteMemory.load_ofWords mem _ hfit, wordOf_byteAddr, laneOf_byteAddr]
  generalize mem (Pmmu.wordAddr addr) = storage
  unfold Rv32i.loadFunct at hf
  split_ifs at hf with hf6
  simp only [Option.map_eq_some_iff, Prod.mk.injEq] at hf
  obtain ⟨size', hsize, rfl, rfl⟩ := hf
  unfold Size.ofBits at hsize
  apply BitVec.eq_of_getLsbD_eq
  intro i _
  split_ifs at hsize with h0 h1 h2
  · obtain rfl := Option.some.inj hsize
    rw [Pmmu.loadData_byte _ _ h0, byteData_eq]
    exact getLsbD_fill_append (m := 24) (k := 7) rfl _ _ i
  · obtain rfl := Option.some.inj hsize
    rw [Pmmu.loadData_halfword _ _ h1, halfwordData_eq h]
    exact getLsbD_fill_append (m := 16) (k := 15) rfl _ _ i
  · obtain rfl := Option.some.inj hsize
    rw [Pmmu.loadData_word _ _ h2, word_lane h]
    have hword : storage.extractLsb' (8 * 0) (8 * Size.word.bytes) = storage :=
      BitVec.extractLsb'_eq_self
    rw [hword]
    exact congrArg (fun x : Word => x.getLsbD i) (extend_word _ storage).symm

/-! A store merges its bytes into the word that the memory output shows. -/

theorem storeByteData_eq (wd storage : Word) (i : ℕ) :
    (Pmmu.storeByteData addr wd storage).getLsbD i =
      if 8 * (addr.toNat % 4) ≤ i ∧ i < 8 * (addr.toNat % 4 + 1) then
        wd.getLsbD (i - 8 * (addr.toNat % 4))
      else storage.getLsbD i := by
  rw [← byteSelector_toNat]
  have h : ∀ s : BitVec 2, s = 0#2 ∨ s = 1#2 ∨ s = 2#2 ∨ s = 3#2 := by decide
  unfold Pmmu.storeByteData
  rcases h (Pmmu.byteSelector addr) with hs | hs | hs | hs
  all_goals
    rw [hs]
    simp only [mux4, BitVec.reduceEq, if_true, if_false, BitVec.toNat_ofNat,
      BitVec.getLsbD_append, BitVec.getLsbD_extractLsb']
    grind

theorem storeHalfwordData_eq (h : Size.half.Aligned addr) (wd storage : Word) (i : ℕ) :
    (Pmmu.storeHalfwordData addr wd storage).getLsbD i =
      if 8 * (addr.toNat % 4) ≤ i ∧ i < 8 * (addr.toNat % 4 + 2) then
        wd.getLsbD (i - 8 * (addr.toNat % 4))
      else storage.getLsbD i := by
  rw [halfwordSelector_toNat h]
  unfold Pmmu.storeHalfwordData
  cases Pmmu.halfwordSelector addr
  all_goals
    simp only [mux2, if_true, if_false, Bool.toNat_false, Bool.toNat_true, Bool.true_eq_false,
      BitVec.getLsbD_append, BitVec.getLsbD_extractLsb']
    grind

theorem getLsbD_storeData {f : BitVec 3} {size : Size} (hf : Rv32i.storeFunct f = some size)
    (h : size.Aligned addr) (wd storage : Word) (i : ℕ) :
    (Pmmu.storeData f addr wd storage).getLsbD i =
      if 8 * (addr.toNat % 4) ≤ i ∧ i < 8 * (addr.toNat % 4 + size.bytes) then
        wd.getLsbD (i - 8 * (addr.toNat % 4))
      else storage.getLsbD i := by
  unfold Rv32i.storeFunct at hf
  split_ifs at hf
  unfold Size.ofBits at hf
  split_ifs at hf with h0 h1 h2
  · obtain rfl := Option.some.inj hf
    rw [Pmmu.storeData_byte _ _ _ h0]
    exact storeByteData_eq wd storage i
  · obtain rfl := Option.some.inj hf
    rw [Pmmu.storeData_halfword _ _ _ h1]
    exact storeHalfwordData_eq h wd storage i
  · obtain rfl := Option.some.inj hf
    rw [Pmmu.storeData_word _ _ _ h2, word_lane h]
    split_ifs with hi
    · rfl
    · have hge : 32 ≤ i := by
        simp only [Size.bytes] at hi
        omega
      rw [BitVec.getLsbD_of_ge _ _ hge, BitVec.getLsbD_of_ge _ _ hge]

theorem storeData_eq {f : BitVec 3} {size : Size} (hf : Rv32i.storeFunct f = some size)
    (h : size.Aligned addr) (wd : Word) :
    ByteMemory.ofWords (Function.update mem (Pmmu.wordAddr addr)
        (Pmmu.storeData f addr wd (mem (Pmmu.wordAddr addr)))) =
      ByteMemory.store (ByteMemory.ofWords mem) (byteAddr addr)
        (wd.setWidth (8 * size.bytes)) := by
  have hfit : ByteMemory.laneOf (byteAddr addr) + size.bytes ≤ 4 := by
    rw [laneOf_byteAddr]
    exact lane_fits h
  symm
  rw [← wordOf_byteAddr]
  apply ByteMemory.store_ofWords mem _ _ hfit
  intro i
  rw [wordOf_byteAddr, laneOf_byteAddr, getLsbD_storeData hf h]
  split_ifs with hi
  · have hlt : i - 8 * (addr.toNat % 4) < 8 * size.bytes := by omega
    simp [hlt]
  · rfl

end Lanes

/-! ## Instructions -/

/-- What a program sees of a processor, the memory as bytes. -/
def Arch.toState (a : Arch) : Rv32i.State 12 := ⟨a.pc, a.regs, ByteMemory.ofWords a.mem⟩

/-- Where the processor and the instruction set agree: it shifts by the whole of `rs2`,
keeps bit 0 of a jalr target, and has no access across words. -/
def Agrees (a : Arch) : Instr → Prop
  | .op o _ _ rs2 => o.isShift → (a.regs rs2).toNat < 32
  | .jalr _ rs1 offset => (a.regs rs1 + offset).getLsbD 0 = false
  | .load size _ _ rs1 offset => size.Aligned (a.regs rs1 + offset)
  | .store size rs1 _ offset => size.Aligned (a.regs rs1 + offset)
  | _ => True

/-- The processor's own slices of `ir` are the parts of `i`. -/
def Encodes (undef ir : Word) : Instr → Prop
  | .op o rd r1 r2 => irOpcode ir = .rType ∧ funct3 ir ++ funct7up ir = opCode o ∧
      dstRg ir = rd ∧ rs1 ir = r1 ∧ rs2 ir = r2
  | .opImm o rd r1 imm => irOpcode ir = .iType ∧ itAluOp ir = opCode o ∧
      dstRg ir = rd ∧ rs1 ir = r1 ∧ immediate undef ir = imm ∧ (o.isShift → imm.toNat < 32)
  | .lui rd imm => irOpcode ir = .uTypeL ∧ dstRg ir = rd ∧ immediate undef ir = imm
  | .auipc rd imm => irOpcode ir = .uTypeA ∧ dstRg ir = rd ∧ immediate undef ir = imm
  | .jal rd offset => irOpcode ir = .jType ∧ dstRg ir = rd ∧ immediate undef ir = offset
  | .jalr rd r1 offset => irOpcode ir = .iTypeJ ∧ dstRg ir = rd ∧ rs1 ir = r1 ∧
      immediate undef ir = offset
  | .branch c r1 r2 offset => irOpcode ir = .bType ∧ Cond.ofFunct3 (funct3 ir) = some c ∧
      rs1 ir = r1 ∧ rs2 ir = r2 ∧ immediate undef ir = offset
  | .load size signed rd r1 offset => irOpcode ir = .iTypeL ∧
      Rv32i.loadFunct (funct3 ir) = some (size, signed) ∧
      dstRg ir = rd ∧ rs1 ir = r1 ∧ immediate undef ir = offset
  | .store size r1 r2 offset => irOpcode ir = .sType ∧
      Rv32i.storeFunct (funct3 ir) = some size ∧
      rs1 ir = r1 ∧ rs2 ir = r2 ∧ immediate undef ir = offset

section Decode
variable {ir : Word}

theorem irOpcode_eq {b : BitVec 7} (h : ir.extractLsb' 0 7 = b) :
    irOpcode ir = Opcode.ofBits b := by
  rw [irOpcode, h]

theorem funct7up_eq : funct7up ir = (ir.extractLsb' 25 7).extractLsb' 4 3 := by
  apply BitVec.eq_of_getLsbD_eq
  intro i hi
  simp only [funct7up, BitVec.getLsbD_extractLsb']
  grind

theorem immediate_iType (undef : Word) (h : irOpcode ir = .iType) : immediate undef ir =
    if funct3 ir = 0b001#3 ∨ funct3 ir = 0b101#3 then immShamt ir else immI ir := by
  unfold immediate immSrc
  rw [h]
  simp only
  split <;> rfl

theorem shamt_lt (ir : Word) : (Rv32i.shamt ir).toNat < 32 := by
  simp only [Rv32i.shamt, BitVec.toNat_setWidth]
  have h := (ir.extractLsb' 20 5).isLt
  omega

/-- funct3 tells the shifts from the other operations. -/
theorem isShift_ofFunct3 (f : BitVec 3) :
    (AluOp.ofFunct3 f).isShift = decide (f = 0b001#3 ∨ f = 0b101#3) := by
  revert f
  decide

theorem isShift_ofFunct {f : BitVec 3} {f7 : BitVec 7} {o : AluOp}
    (hf : f = 0b001#3 ∨ f = 0b101#3) (h : AluOp.ofFunct f f7 = some o) : o.isShift := by
  unfold AluOp.ofFunct at h
  rcases hf with rfl | rfl
  · split_ifs at h
    · rw [← Option.some.inj h]
      rfl
    all_goals simp_all
  · split_ifs at h
    · rw [← Option.some.inj h]
      rfl
    all_goals
      first
      | (rw [← Option.some.inj h]; rfl)
      | simp_all

theorem encodes_opImm (undef : Word) {o : AluOp} (h0 : ir.extractLsb' 0 7 = 0b0010011#7)
    (h : AluOp.ofImmFunct (funct3 ir) (ir.extractLsb' 25 7) = some o) :
    Encodes undef ir (.opImm o (dstRg ir) (rs1 ir)
      (if o.isShift then Rv32i.shamt ir else Rv32i.immI ir)) := by
  have hop : irOpcode ir = .iType := irOpcode_eq h0
  unfold AluOp.ofImmFunct at h
  split_ifs at h with hf
  · have hs := isShift_ofFunct hf h
    refine ⟨hop, ?_, rfl, rfl, ?_, ?_⟩
    · rw [itAluOp, if_pos hf, funct7up_eq]
      exact opCode_ofFunct h
    · rw [immediate_iType undef hop, if_pos hf, if_pos hs, immShamt_eq]
    · rw [if_pos hs]
      exact fun _ => shamt_lt ir
  · obtain rfl := Option.some.inj h
    have hs : ¬ (AluOp.ofFunct3 (funct3 ir)).isShift := by
      rw [isShift_ofFunct3]
      simpa using hf
    refine ⟨hop, ?_, rfl, rfl, ?_, fun hs' => absurd hs' hs⟩
    · rw [itAluOp, if_neg hf]
      exact opCode_ofFunct3 (funct3 ir)
    · rw [immediate_iType undef hop, if_neg hf, if_neg hs, immI_eq]

/-- The processor decodes what the instruction set decodes. -/
theorem encodes_of_decode {i : Instr} (undef : Word) (h : Rv32i.decode ir = some i) :
    Encodes undef ir i := by
  unfold Rv32i.decode at h
  simp only at h
  split_ifs at h with h0 h1 h2 h3 h4 h5 h6 h6' h7 h8
  · obtain ⟨o, ho, rfl⟩ := Option.map_eq_some_iff.mp h
    refine ⟨irOpcode_eq h0, ?_, rfl, rfl, rfl⟩
    rw [funct7up_eq]
    exact opCode_ofFunct ho
  · obtain ⟨o, ho, rfl⟩ := Option.map_eq_some_iff.mp h
    exact encodes_opImm undef h1 ho
  · obtain ⟨⟨size, signed⟩, hf, rfl⟩ := Option.map_eq_some_iff.mp h
    have hop : irOpcode ir = .iTypeL := irOpcode_eq h2
    refine ⟨hop, hf, rfl, rfl, ?_⟩
    rw [immediate, immSrc, hop, ← immI_eq]
    rfl
  · obtain ⟨size, hf, rfl⟩ := Option.map_eq_some_iff.mp h
    have hop : irOpcode ir = .sType := irOpcode_eq h3
    refine ⟨hop, hf, rfl, rfl, ?_⟩
    rw [immediate, immSrc, hop, ← immS_eq]
    rfl
  · obtain ⟨c, hf, rfl⟩ := Option.map_eq_some_iff.mp h
    have hop : irOpcode ir = .bType := irOpcode_eq h4
    refine ⟨hop, hf, rfl, rfl, ?_⟩
    rw [immediate, immSrc, hop, ← immB_eq]
    rfl
  · obtain rfl := Option.some.inj h
    have hop : irOpcode ir = .jType := irOpcode_eq h5
    refine ⟨hop, rfl, ?_⟩
    rw [immediate, immSrc, hop, ← immJ_eq]
    rfl
  · obtain rfl := Option.some.inj h
    have hop : irOpcode ir = .iTypeJ := irOpcode_eq h6
    refine ⟨hop, rfl, rfl, ?_⟩
    rw [immediate, immSrc, hop, ← immI_eq]
    rfl
  · obtain rfl := Option.some.inj h
    have hop : irOpcode ir = .uTypeL := irOpcode_eq h7
    refine ⟨hop, rfl, ?_⟩
    rw [immediate, immSrc, hop, ← immU_eq]
    rfl
  · obtain rfl := Option.some.inj h
    have hop : irOpcode ir = .uTypeA := irOpcode_eq h8
    refine ⟨hop, rfl, ?_⟩
    rw [immediate, immSrc, hop, ← immU_eq]
    rfl

end Decode

theorem clear_bit0 {x : Word} (h : x.getLsbD 0 = false) : x &&& ~~~1#32 = x := by
  apply BitVec.eq_of_getLsbD_eq
  intro i hi
  rw [BitVec.getLsbD_and, BitVec.getLsbD_not, BitVec.getLsbD_one]
  cases i with
  | zero => simpa using h
  | succ i => simp [hi]

section Exec
variable {undef ir : Word} {a : Arch}

/-- Instructions that neither jump nor store. -/
theorem instrStep_exec_result {rd : BitVec 5} {v : Word}
    (hs : irOpcode ir ≠ .sType) (hpc : nextPc undef ir a = a.pc + 4) (hrd : dstRg ir = rd)
    (hw : writesRd ir) (hv : result undef ir a = v) :
    (instrStep undef ir a).toState =
      { a.toState with pc := a.pc + 4, regs := a.regs.write rd v } := by
  simp [instrStep, Arch.toState, hs, hpc, hw, hrd, hv]

/-- **The processor's instructions are those of the instruction set**, where the two agree
on shift amounts, jalr targets and alignment. -/
theorem instrStep_exec {i : Instr} (h : Encodes undef ir i) (ha : Agrees a i) :
    (instrStep undef ir a).toState = Rv32i.exec a.toState i := by
  cases i with
  | op o rd r1 r2 =>
    obtain ⟨hop, hcode, hrd, rfl, rfl⟩ := h
    apply instrStep_exec_result (by simp [hop]) (by simp [nextPc, hop]) hrd
      (by simp [writesRd, hop])
    simp only [result, hop, hcode]
    exact yOut_opCode _ _ _ _ ha
  | opImm o rd r1 imm =>
    obtain ⟨hop, hcode, hrd, rfl, himm, hshift⟩ := h
    apply instrStep_exec_result (by simp [hop]) (by simp [nextPc, hop]) hrd
      (by simp [writesRd, hop])
    simp only [result, hop, hcode, himm]
    exact yOut_opCode _ _ _ _ hshift
  | lui rd imm =>
    obtain ⟨hop, hrd, himm⟩ := h
    apply instrStep_exec_result (by simp [hop]) (by simp [nextPc, hop]) hrd
      (by simp [writesRd, hop])
    simp only [result, hop, himm]
  | auipc rd imm =>
    obtain ⟨hop, hrd, himm⟩ := h
    apply instrStep_exec_result (by simp [hop]) (by simp [nextPc, hop]) hrd
      (by simp [writesRd, hop])
    simp only [result, hop, himm]
    rfl
  | load size signed rd r1 offset =>
    obtain ⟨hop, hf, hrd, rfl, himm⟩ := h
    apply instrStep_exec_result (by simp [hop]) (by simp [nextPc, hop]) hrd
      (by simp [writesRd, hop])
    simp only [result, hop, effAddr, himm]
    exact loadData_eq a.mem hf ha
  | store size r1 r2 offset =>
    obtain ⟨hop, hf, rfl, rfl, himm⟩ := h
    ext1
    · simp [instrStep, nextPc, hop, Arch.toState, Rv32i.exec]
    · simp [instrStep, writesRd, hop, Arch.toState, Rv32i.exec]
    · simp only [instrStep, hop, if_true, Arch.toState, Rv32i.exec, effAddr, himm]
      exact storeData_eq a.mem hf ha (srcB ir a)
  | branch c r1 r2 offset =>
    obtain ⟨hop, hf, rfl, rfl, himm⟩ := h
    have htaken : branchTaken undef ir a = c.holds (a.regs (rs1 ir)) (a.regs (rs2 ir)) :=
      takeBranch_sub hf _ _ _
    ext1
    · simp only [instrStep, nextPc, hop, himm, htaken, Arch.toState, Rv32i.exec]
      rfl
    · simp [instrStep, writesRd, hop, Arch.toState, Rv32i.exec]
    · simp [instrStep, hop, Arch.toState, Rv32i.exec]
  | jal rd offset =>
    obtain ⟨hop, hrd, himm⟩ := h
    ext1
    · simp [instrStep, nextPc, hop, himm, Arch.toState, Rv32i.exec]
    · simp [instrStep, writesRd, hop, hrd, result, Arch.toState, Rv32i.exec]
    · simp [instrStep, hop, Arch.toState, Rv32i.exec]
  | jalr rd r1 offset =>
    obtain ⟨hop, hrd, rfl, himm⟩ := h
    ext1
    · simp only [instrStep, nextPc, hop, effAddr, himm, srcA, Arch.toState, Rv32i.exec]
      exact (clear_bit0 ha).symm
    · simp [instrStep, writesRd, hop, hrd, result, Arch.toState, Rv32i.exec]
    · simp [instrStep, hop, Arch.toState, Rv32i.exec]

/-! A decoded instruction never meets an `x`. -/

theorem immediate_undef (ir u u' : Word) : immediate u ir = immediate u' ir := by
  unfold immediate immSrc
  cases irOpcode ir with
  | iType => simp only; split <;> rfl
  | _ => rfl

theorem yOut_undef (u u' a b : Word) (o : AluOp) :
    ALU.yOut u a b (opCode o) = ALU.yOut u' a b (opCode o) := by
  cases o <;> rfl

theorem instrStep_undef {i : Instr} (h : Rv32i.decode ir = some i) (u u' : Word) :
    instrStep u ir a = instrStep u' ir a := by
  have henc := encodes_of_decode u h
  have himm := immediate_undef ir u u'
  have hresult : result u ir a = result u' ir a := by
    unfold result effAddr
    cases i with
    | op o rd r1 r2 =>
      obtain ⟨hop, hcode, -⟩ := henc
      simp only [hop, hcode, yOut_undef u u']
    | opImm o rd r1 imm =>
      obtain ⟨hop, hcode, -⟩ := henc
      simp only [hop, hcode, himm, yOut_undef u u']
    | _ => simp only [henc.1, himm]
  have htaken : branchTaken u ir a = branchTaken u' ir a := rfl
  unfold instrStep nextPc effAddr
  rw [hresult, himm, htaken]

end Exec

end RangerRisc
