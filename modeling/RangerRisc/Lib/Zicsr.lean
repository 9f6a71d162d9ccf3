import RangerRisc.Lib.Rv32i

/-! The CSR instructions: their encodings, their operands and what they make of the old value. -/

namespace Zicsr

open Rv32i (Word RegFile)

inductive Op where
  | write | set | clear
  deriving DecidableEq, Repr

/-- With `immediate` the operand is the number `source` itself, not the register. -/
structure Instr where
  op : Op
  immediate : Bool
  rd : BitVec 5
  source : BitVec 5
  addr : BitVec 12
  deriving DecidableEq, Repr

def Op.ofBits (b : BitVec 2) : Option Op :=
  if b = 0b01#2 then some .write
  else if b = 0b10#2 then some .set
  else if b = 0b11#2 then some .clear
  else none

def decode (ir : Word) : Option Instr :=
  if ir.extractLsb' 0 7 = 0b1110011#7 then
    (Op.ofBits (ir.extractLsb' 12 2)).map fun op =>
      { op := op
        immediate := ir.getLsbD 14
        rd := ir.extractLsb' 7 5
        source := ir.extractLsb' 15 5
        addr := ir.extractLsb' 20 12 }
  else none

/-- The new value of the CSR. -/
def Op.eval (old operand : Word) : Op → Word
  | .write => operand
  | .set => old ||| operand
  | .clear => old &&& ~~~operand

namespace Instr

def operand (i : Instr) (regs : RegFile) : Word :=
  if i.immediate then i.source.setWidth 32 else regs i.source

/-- funct3 -/
def funct3 (i : Instr) : BitVec 3 :=
  match i.immediate, i.op with
  | false, .write => 0b001#3
  | false, .set => 0b010#3
  | false, .clear => 0b011#3
  | true, .write => 0b101#3
  | true, .set => 0b110#3
  | true, .clear => 0b111#3

theorem funct3_ne_zero (i : Instr) : i.funct3 ≠ 0b000#3 := by
  cases i with
  | mk op immediate => cases immediate <;> cases op <;> exact of_decide_eq_false rfl

end Instr

theorem decode_funct3 {ir : Word} {i : Instr} (h : decode ir = some i) :
    ir.extractLsb' 12 3 = i.funct3 := by
  unfold decode at h
  split_ifs at h
  obtain ⟨op, hop, rfl⟩ := Option.map_eq_some_iff.mp h
  have hsplit : ir.extractLsb' 12 3 = BitVec.ofBool (ir.getLsbD 14) ++ ir.extractLsb' 12 2 := by
    apply BitVec.eq_of_getLsbD_eq
    intro j hj
    simp only [BitVec.getLsbD_append, BitVec.getLsbD_extractLsb', BitVec.getLsbD_ofBool]
    obtain rfl | rfl | rfl : j = 0 ∨ j = 1 ∨ j = 2 := by omega
    all_goals simp
  rw [hsplit]
  unfold Op.ofBits at hop
  split_ifs at hop with h1 h2 h3
  all_goals
    obtain rfl := Option.some.inj hop
    simp only [Instr.funct3]
  · rw [h1]; cases ir.getLsbD 14 <;> rfl
  · rw [h2]; cases ir.getLsbD 14 <;> rfl
  · rw [h3]; cases ir.getLsbD 14 <;> rfl

end Zicsr
