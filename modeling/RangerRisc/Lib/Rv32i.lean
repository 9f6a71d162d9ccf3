import RangerRisc.Lib.ByteMemory

/-! The unprivileged RV32I instructions other than FENCE, ECALL and EBREAK: their
encodings and their meaning on registers and a byte memory of `2^n` bytes. -/

namespace Rv32i

abbrev Word := BitVec 32

/-! ## Registers -/

/-- The registers, `x0` being zero. -/
@[ext] structure RegFile where
  val : BitVec 5 → Word
  zero : val 0#5 = 0#32

namespace RegFile

instance : CoeFun RegFile (fun _ => BitVec 5 → Word) := ⟨RegFile.val⟩

@[simp] theorem apply_zero (r : RegFile) : r 0#5 = 0#32 := r.zero

def write (r : RegFile) (dst : BitVec 5) (data : Word) : RegFile where
  val := fun i => if i = dst ∧ i ≠ 0#5 then data else r i
  zero := by simp

theorem write_apply (r : RegFile) (dst : BitVec 5) (data : Word) (i : BitVec 5) :
    r.write dst data i = if i = dst ∧ i ≠ 0#5 then data else r i := rfl

@[simp] theorem write_zero (r : RegFile) (data : Word) : r.write 0#5 data = r := by
  ext i : 2
  simp only [write_apply]
  rw [if_neg (by rintro ⟨h, h'⟩; exact h' h)]

theorem write_self (r : RegFile) {dst : BitVec 5} (h : dst ≠ 0#5) (data : Word) :
    r.write dst data dst = data := by
  rw [write_apply, if_pos ⟨rfl, h⟩]

@[simp] theorem write_get (r : RegFile) (dst : BitVec 5) : r.write dst (r dst) = r := by
  ext i : 2
  rw [write_apply]
  split
  · next h => rw [h.1]
  · rfl

theorem write_inj (r : RegFile) {dst : BitVec 5} {data data' : Word} :
    r.write dst data = r.write dst data' ↔ dst = 0#5 ∨ data = data' := by
  constructor
  · intro h
    by_cases hdst : dst = 0#5
    · exact .inl hdst
    · right
      rw [← write_self r hdst data, h, write_self r hdst data']
  · rintro (rfl | rfl)
    · rw [write_zero, write_zero]
    · rfl

theorem write_eq_iff (r : RegFile) {dst : BitVec 5} {data : Word} :
    r.write dst data = r ↔ dst = 0#5 ∨ data = r dst := by
  rw [← write_inj r, write_get]

end RegFile

/-! ## Instructions -/

inductive AluOp where
  | add | sub | sll | slt | sltu | xor | srl | sra | or | and
  deriving DecidableEq, Repr

inductive Cond where
  | eq | ne | lt | ge | ltu | geu
  deriving DecidableEq, Repr

inductive Size where
  | byte | half | word
  deriving DecidableEq, Repr

inductive Instr where
  | op (o : AluOp) (rd rs1 rs2 : BitVec 5)
  | opImm (o : AluOp) (rd rs1 : BitVec 5) (imm : Word)
  | lui (rd : BitVec 5) (imm : Word)
  | auipc (rd : BitVec 5) (imm : Word)
  | jal (rd : BitVec 5) (offset : Word)
  | jalr (rd rs1 : BitVec 5) (offset : Word)
  | branch (c : Cond) (rs1 rs2 : BitVec 5) (offset : Word)
  | load (size : Size) (signed : Bool) (rd rs1 : BitVec 5) (offset : Word)
  | store (size : Size) (rs1 rs2 : BitVec 5) (offset : Word)
  deriving DecidableEq, Repr

/-! ## Encodings -/

section Immediates
variable (ir : Word)

def immI : Word := (ir.extractLsb' 20 12).signExtend 32
def immS : Word := (ir.extractLsb' 25 7 ++ ir.extractLsb' 7 5).signExtend 32
def immB : Word :=
  (ir.extractLsb' 31 1 ++ ir.extractLsb' 7 1 ++ ir.extractLsb' 25 6 ++ ir.extractLsb' 8 4 ++
    0#1).signExtend 32
def immU : Word := ir.extractLsb' 12 20 ++ 0#12
def immJ : Word :=
  (ir.extractLsb' 31 1 ++ ir.extractLsb' 12 8 ++ ir.extractLsb' 20 1 ++ ir.extractLsb' 21 10 ++
    0#1).signExtend 32
def shamt : Word := (ir.extractLsb' 20 5).setWidth 32

end Immediates

/-- The operation that funct3 names when funct7 is zero. -/
def AluOp.ofFunct3 (f : BitVec 3) : AluOp :=
  if f = 0b000#3 then .add
  else if f = 0b001#3 then .sll
  else if f = 0b010#3 then .slt
  else if f = 0b011#3 then .sltu
  else if f = 0b100#3 then .xor
  else if f = 0b101#3 then .srl
  else if f = 0b110#3 then .or
  else .and

def AluOp.ofFunct (f : BitVec 3) (f7 : BitVec 7) : Option AluOp :=
  if f7 = 0b0000000#7 then some (ofFunct3 f)
  else if f7 = 0b0100000#7 then
    if f = 0b000#3 then some .sub else if f = 0b101#3 then some .sra else none
  else none

def AluOp.isShift : AluOp → Bool
  | .sll | .srl | .sra => true
  | _ => false

/-- The shifts among the immediate instructions have a funct7, the others none. -/
def AluOp.ofImmFunct (f : BitVec 3) (f7 : BitVec 7) : Option AluOp :=
  if f = 0b001#3 ∨ f = 0b101#3 then ofFunct f f7 else some (ofFunct3 f)

def Cond.ofFunct3 (f : BitVec 3) : Option Cond :=
  if f = 0b000#3 then some .eq
  else if f = 0b001#3 then some .ne
  else if f = 0b100#3 then some .lt
  else if f = 0b101#3 then some .ge
  else if f = 0b110#3 then some .ltu
  else if f = 0b111#3 then some .geu
  else none

def Size.ofBits (b : BitVec 2) : Option Size :=
  if b = 0b00#2 then some .byte
  else if b = 0b01#2 then some .half
  else if b = 0b10#2 then some .word
  else none

/-- The loads that funct3 names: bit 2 asks for zero extension, which `lw` does not have. -/
def loadFunct (f : BitVec 3) : Option (Size × Bool) :=
  if f = 0b110#3 then none
  else (Size.ofBits (f.extractLsb' 0 2)).map fun size => (size, !f.getLsbD 2)

def storeFunct (f : BitVec 3) : Option Size :=
  if f.getLsbD 2 then none else Size.ofBits (f.extractLsb' 0 2)

def decode (ir : Word) : Option Instr :=
  let opcode := ir.extractLsb' 0 7
  let f := ir.extractLsb' 12 3
  let f7 := ir.extractLsb' 25 7
  let rd := ir.extractLsb' 7 5
  let rs1 := ir.extractLsb' 15 5
  let rs2 := ir.extractLsb' 20 5
  if opcode = 0b0110011#7 then (AluOp.ofFunct f f7).map fun o => .op o rd rs1 rs2
  else if opcode = 0b0010011#7 then
    (AluOp.ofImmFunct f f7).map fun o => .opImm o rd rs1 (if o.isShift then shamt ir else immI ir)
  else if opcode = 0b0000011#7 then
    (loadFunct f).map fun (size, signed) => .load size signed rd rs1 (immI ir)
  else if opcode = 0b0100011#7 then (storeFunct f).map fun size => .store size rs1 rs2 (immS ir)
  else if opcode = 0b1100011#7 then (Cond.ofFunct3 f).map fun c => .branch c rs1 rs2 (immB ir)
  else if opcode = 0b1101111#7 then some (.jal rd (immJ ir))
  else if opcode = 0b1100111#7 then if f = 0b000#3 then some (.jalr rd rs1 (immI ir)) else none
  else if opcode = 0b0110111#7 then some (.lui rd (immU ir))
  else if opcode = 0b0010111#7 then some (.auipc rd (immU ir))
  else none

/-! ## Meaning -/

/-- A shift looks at the lower five bits of its amount. -/
def shiftAmount (b : Word) : ℕ := (b.extractLsb' 0 5).toNat

def AluOp.eval (a b : Word) : AluOp → Word
  | .add => a + b
  | .sub => a - b
  | .sll => a <<< shiftAmount b
  | .slt => if a.slt b then 1 else 0
  | .sltu => if a.ult b then 1 else 0
  | .xor => a ^^^ b
  | .srl => a >>> shiftAmount b
  | .sra => a.sshiftRight (shiftAmount b)
  | .or => a ||| b
  | .and => a &&& b

def Cond.holds (a b : Word) : Cond → Bool
  | .eq => a == b
  | .ne => a != b
  | .lt => a.slt b
  | .ge => !a.slt b
  | .ltu => a.ult b
  | .geu => !a.ult b

def Size.bytes : Size → ℕ
  | .byte => 1
  | .half => 2
  | .word => 4

def Size.Aligned (size : Size) (addr : Word) : Prop := addr.toNat % size.bytes = 0

instance (size : Size) (addr : Word) : Decidable (size.Aligned addr) :=
  inferInstanceAs (Decidable (_ = _))

def extend {k : ℕ} (signed : Bool) (v : BitVec k) : Word :=
  if signed then v.signExtend 32 else v.setWidth 32

@[ext] structure State (n : ℕ) where
  pc : Word
  regs : RegFile
  bytes : ByteMemory.Bytes n

variable {n : ℕ}

def exec (s : State n) : Instr → State n
  | .op o rd rs1 rs2 =>
    { s with pc := s.pc + 4, regs := s.regs.write rd (o.eval (s.regs rs1) (s.regs rs2)) }
  | .opImm o rd rs1 imm =>
    { s with pc := s.pc + 4, regs := s.regs.write rd (o.eval (s.regs rs1) imm) }
  | .lui rd imm => { s with pc := s.pc + 4, regs := s.regs.write rd imm }
  | .auipc rd imm => { s with pc := s.pc + 4, regs := s.regs.write rd (s.pc + imm) }
  | .jal rd offset => { s with pc := s.pc + offset, regs := s.regs.write rd (s.pc + 4) }
  | .jalr rd rs1 offset =>
    { s with pc := (s.regs rs1 + offset) &&& ~~~1#32, regs := s.regs.write rd (s.pc + 4) }
  | .branch c rs1 rs2 offset =>
    { s with pc := if c.holds (s.regs rs1) (s.regs rs2) then s.pc + offset else s.pc + 4 }
  | .load size signed rd rs1 offset =>
    let v := ByteMemory.load s.bytes ((s.regs rs1 + offset).setWidth n) size.bytes
    { s with pc := s.pc + 4, regs := s.regs.write rd (extend signed v) }
  | .store size rs1 rs2 offset =>
    let v := (s.regs rs2).setWidth (8 * size.bytes)
    { s with
      pc := s.pc + 4
      bytes := ByteMemory.store s.bytes ((s.regs rs1 + offset).setWidth n) v }

end Rv32i
