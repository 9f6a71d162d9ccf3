import RangerRisc.Definitions

/-! `Mux2.sv`, `Mux4.sv`, `Mux8.sv`, `ALU.sv` and `Immediate.sv`: the combinational
parts of the datapath. `undef` stands for the value the tools give to an `x`. -/

namespace RangerRisc

variable {w : ℕ}

/-! ## Multiplexers -/

def mux2 (select : Bool) (data0 data1 : BitVec w) : BitVec w :=
  if select = false then data0 else data1

def mux4 (select : BitVec 2) (data0 data1 data2 data3 : BitVec w) : BitVec w :=
  if select = 0b00#2 then data0
  else if select = 0b01#2 then data1
  else if select = 0b10#2 then data2
  else if select = 0b11#2 then data3
  else 0

def mux8 (select : BitVec 3) (data0 data1 data2 data3 data4 data5 data6 data7 : BitVec w) :
    BitVec w :=
  if select = 0b000#3 then data0
  else if select = 0b001#3 then data1
  else if select = 0b010#3 then data2
  else if select = 0b011#3 then data3
  else if select = 0b100#3 then data4
  else if select = 0b101#3 then data5
  else if select = 0b110#3 then data6
  else if select = 0b111#3 then data7
  else 0

/-! ## ALU -/

/-- The carries out of the lower `w - 1` and of all `w` bits, and the result `ORes`. -/
structure ALU.Result (w : ℕ) where
  carryBorrowL : Bool
  carryBorrowH : Bool
  ores : BitVec w

def ALU.result (undef a b : BitVec w) (funcOp : BitVec 6) : ALU.Result w :=
  if funcOp = addOp then ⟨false, false, a + b⟩
  else if funcOp = subOp then
    -- both subtractions are made one bit wider than their operands, that bit is the borrow
    let lower := (a.setWidth (w - 1)).setWidth w - (b.setWidth (w - 1)).setWidth w
    let full := a.setWidth (w + 1) - b.setWidth (w + 1)
    ⟨lower.getLsbD (w - 1), full.getLsbD w, full.setWidth w⟩
  else if funcOp = andOp then ⟨false, false, a &&& b⟩
  else if funcOp = orOp then ⟨false, false, a ||| b⟩
  else if funcOp = xorOp then ⟨false, false, a ^^^ b⟩
  else if funcOp = sllOp then ⟨false, a.getLsbD (w - 1), a <<< b⟩
  else if funcOp = srlOp then ⟨false, a.getLsbD 0, a >>> b⟩
  else if funcOp = sraOp then
    let sextA : BitVec (w + w) := BitVec.fill w (a.getLsbD (w - 1)) ++ a
    ⟨false, false, (sextA >>> b).setWidth w⟩
  else if funcOp = sltOp then
    if a.getLsbD (w - 1) = b.getLsbD (w - 1) then
      ⟨false, false, (BitVec.ofBool (decide (a < b))).setWidth w⟩
    else ⟨false, false, (BitVec.ofBool (a.getLsbD (w - 1))).setWidth w⟩
  else if funcOp = sltuOp then ⟨false, false, (BitVec.ofBool (decide (a < b))).setWidth w⟩
  else ⟨false, false, undef⟩

/-- `y_o` -/
def ALU.yOut (undef a b : BitVec w) (funcOp : BitVec 6) : BitVec w :=
  (ALU.result undef a b funcOp).ores

/-- `flags_o`: V, N, C, Z from the upper bit down. -/
def ALU.flagsOut (undef a b : BitVec w) (funcOp : BitVec 6) : BitVec 4 :=
  let r := ALU.result undef a b funcOp
  BitVec.ofBool (r.carryBorrowL ^^ r.carryBorrowH) ++ BitVec.ofBool (r.ores.getLsbD (w - 1)) ++
    BitVec.ofBool r.carryBorrowH ++ BitVec.ofBool (decide (r.ores = 0))

abbrev flagZero : ℕ := 0
abbrev flagCarry : ℕ := 1
abbrev flagNegative : ℕ := 2
abbrev flagOverflow : ℕ := 3

/-! ## Immediate -/

def immSrc (ir : Word) : BitVec 3 :=
  match irOpcode ir with
  | .iType => if funct3 ir = 0b001#3 ∨ funct3 ir = 0b101#3 then 0b101#3 else 0b000#3
  | .iTypeL | .iTypeJ | .iTypeE => 0b000#3
  | .sType => 0b001#3
  | .bType => 0b010#3
  | .uTypeL | .uTypeA => 0b011#3
  | .jType => 0b100#3
  | .rType | .unknown => 0b111#3

section Formats
variable (ir : Word)

/-- The sign bit, repeated. -/
def signs (n : ℕ) : BitVec n := BitVec.fill n (ir.getLsbD 31)

def immI : Word := signs ir 21 ++ ir.extractLsb' 25 6 ++ ir.extractLsb' 21 4 ++ ir.extractLsb' 20 1
def immS : Word := signs ir 21 ++ ir.extractLsb' 25 6 ++ ir.extractLsb' 8 4 ++ ir.extractLsb' 7 1
def immB : Word :=
  signs ir 20 ++ ir.extractLsb' 7 1 ++ ir.extractLsb' 25 6 ++ ir.extractLsb' 8 4 ++ 0#1
def immU : Word := signs ir 1 ++ ir.extractLsb' 20 11 ++ ir.extractLsb' 12 8 ++ 0#12
def immJ : Word :=
  signs ir 12 ++ ir.extractLsb' 12 8 ++ ir.extractLsb' 20 1 ++ ir.extractLsb' 25 6 ++
    ir.extractLsb' 21 4 ++ 0#1
def immShamt : Word := 0#27 ++ ir.extractLsb' 20 5

end Formats

/-- `imm_o` -/
def immediate (undef ir : Word) : Word :=
  mux8 (immSrc ir) (immI ir) (immS ir) (immB ir) (immU ir) (immJ ir) (immShamt ir) undef 0

end RangerRisc
