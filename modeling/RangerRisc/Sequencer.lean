import RangerRisc.Datapath

/-! The part the four control matrices share: the reset sequence, Fetch, Decode and
the instruction states from the first state of an instruction to its last. They
differ in what a last state hands over to, which `Succ.done` leaves open. -/

namespace RangerRisc

/-- `take_branch`, from the saved flags. -/
def takeBranch (flags : BitVec 4) (f : BitVec 3) : Bool :=
  if f = 0b000#3 then flags.getLsbD flagZero
  else if f = 0b001#3 then !flags.getLsbD flagZero
  else if f = 0b100#3 then flags.getLsbD flagNegative ^^ flags.getLsbD flagOverflow
  else if f = 0b101#3 then flags.getLsbD flagNegative == flags.getLsbD flagOverflow
  else if f = 0b110#3 then flags.getLsbD flagCarry
  else if f = 0b111#3 then !flags.getLsbD flagCarry
  else false

/-- The operation of an immediate instruction: only the shifts look at funct7. -/
def itAluOp (ir : Word) : BitVec 6 :=
  if funct3 ir = 0b001#3 ∨ funct3 ir = 0b101#3 then funct3 ir ++ funct7up ir
  else funct3 ir ++ 0b000#3

/-! ## Sequence control -/

/-- The three state registers of a matrix. -/
structure SeqState where
  state : MatrixState
  vectorState : ResetState
  irState : InstructionState
  deriving DecidableEq, Repr

/-- What the combinational block of a matrix computes. -/
structure Outputs where
  control : Control
  nextState : MatrixState
  nextVectorState : ResetState
  nextIrState : InstructionState
  resetComplete : Bool

/-- The defaults of the block, around some control signals. -/
def Outputs.init (c : Control) : Outputs where
  control := c
  nextState := .reset
  nextVectorState := .sync0
  nextIrState := .itLoad
  resetComplete := true

def SeqState.clock (o : Outputs) (resetI : Bool) (q : SeqState) : SeqState :=
  if resetI = false then { q with state := .reset, vectorState := .sync0 }
  else if o.resetComplete then { q with state := o.nextState, irState := o.nextIrState }
  else { q with state := .reset, vectorState := o.nextVectorState }

/-! ## Reset, Fetch and Decode -/

def vectorControl : ResetState → Control
  | .sync0 => { Control.idle with rstSrc := true }
  | .vector0 => { Control.idle with rstSrc := true, pcLd := rgLdEnabled, pcSrc := pcSrcResetVec }
  | .vector1 => { Control.idle with rstSrc := true, memRd := rwActive }
  | .vector2 => { Control.idle with rstSrc := true, pcLd := rgLdEnabled, pcSrc := pcSrcResetAdr }
  | .vector3 => { Control.idle with rstSrc := true, memRd := rwActive }

def nextVector (resetI : Bool) : ResetState → ResetState
  | .sync0 => if resetI = false then .sync0 else .vector0
  | .vector0 => .vector1
  | .vector1 => .vector2
  | .vector2 => .vector3
  | .vector3 => .sync0

/-- The Reset state; `after` is where Vector3 leaves for. -/
def resetOut (after : MatrixState) (v : ResetState) (resetI : Bool) : Outputs :=
  { Outputs.init (vectorControl v) with
    nextState := if v = .vector3 then after else .reset
    nextVectorState := nextVector resetI v
    resetComplete := decide (v = .vector3) }

def fetchControl : Control := { Control.idle with irLd := rgLdEnabled, pcpLd := rgLdEnabled }

def fetchOut (memBusy : Bool) : Outputs :=
  if memBusy then { Outputs.init Control.idle with nextState := .fetch }
  else { Outputs.init fetchControl with nextState := .decode }

/-- `mem_busy_i` is tied to this in every processor. -/
abbrev memNotBusy : Bool := false

def decodeControl : Control :=
  { Control.idle with aluLd := rgLdEnabled, pcLd := rgLdEnabled, pcSrc := pcSrcAluImm }

/-- The first state of the instruction in `ir`, given the one for SYSTEM. -/
def decodeNext (system : InstructionState) (ir : Word) : InstructionState :=
  match irOpcode ir with
  | .iTypeE => system
  | .rType => .rType
  | .iType => .itAlu
  | .iTypeJ => .itJalr
  | .sType => .stStore
  | .bType => .bType
  | .jType => .jtJal
  | .uTypeL => .uType
  | .uTypeA => .uTypeAui
  | .iTypeL | .unknown => .itLoad

def decodeOut (system : InstructionState) (ir : Word) : Outputs :=
  { Outputs.init decodeControl with nextState := .execute, nextIrState := decodeNext system ir }

def preFetchControl : Control := { Control.idle with memRd := rwActive }

/-! ## Execute -/

/-- The signals of an instruction state. -/
def executeControl (s : InstructionState) (ir : Word) (taken : Bool) : Control :=
  match s with
  | .rType => { Control.idle with
      aluLd := rgLdEnabled, aSrc := aSrcRsa, bSrc := bSrcRsb, aluOp := funct3 ir ++ funct7up ir }
  | .rtCmpl => { Control.idle with wdSrc := wdSrcALUOut, rgWr := rgLdEnabled }
  | .itAlu => { Control.idle with
      aluLd := rgLdEnabled, aSrc := aSrcRsa, bSrc := bSrcImm, aluOp := itAluOp ir }
  | .itAluCmpl => { Control.idle with wdSrc := wdSrcALUOut, rgWr := rgLdEnabled }
  | .itLoad => { Control.idle with aluLd := rgLdEnabled, aSrc := aSrcRsa, bSrc := bSrcImm }
  | .itLdMemAcc => { Control.idle with memRd := rwActive, addrSrc := true }
  | .itLdMemMdr => { Control.idle with memRd := rwActive, addrSrc := true, mdrLd := rgLdEnabled }
  | .itLdMemCmpl => { Control.idle with wdSrc := wdSrcMDR, rgWr := rgLdEnabled }
  | .itJalr => { Control.idle with
      aSrc := aSrcRsa, bSrc := bSrcImm, pcSrc := pcSrcAluImm, pcLd := rgLdEnabled }
  | .itJalrRtr => { Control.idle with
      aSrc := aSrcPrior, bSrc := bSrcFour, wdSrc := wdSrcImm, rgWr := rgLdEnabled }
  | .stStore => { Control.idle with
      aluLd := rgLdEnabled, aSrc := aSrcRsa, bSrc := bSrcImm, addrSrc := true }
  | .stMemAcc => { Control.idle with memRd := rwActive, addrSrc := true }
  | .stMemWrt => { Control.idle with addrSrc := true, memRd := rwInActive, memWr := rwActive }
  | .bType => { Control.idle with
      aSrc := aSrcRsa, bSrc := bSrcRsb, flagsLd := rgLdEnabled, aluOp := subOp }
  | .btBranch => { Control.idle with
      aluLd := rgLdEnabled, aSrc := aSrcPrior, bSrc := bSrcImm, pcSrc := pcSrcAluImm,
      pcLd := !taken }
  | .jtJal => { Control.idle with
      aSrc := aSrcPrior, bSrc := bSrcImm, pcSrc := pcSrcAluImm, pcLd := rgLdEnabled }
  | .jtJalRtr => { Control.idle with
      aSrc := aSrcPrior, bSrc := bSrcFour, wdSrc := wdSrcImm, rgWr := rgLdEnabled }
  | .uType => { Control.idle with
      aSrc := aSrcZero, bSrc := bSrcImm, wdSrc := wdSrcImm, rgWr := rgLdEnabled }
  | .uTypeAui => { Control.idle with
      aSrc := aSrcPrior, bSrc := bSrcImm, wdSrc := wdSrcImm, rgWr := rgLdEnabled }
  | _ => Control.idle

/-- Where an instruction state leads: to another one, or out of the instruction. -/
inductive Succ where
  | next (s : InstructionState)
  | done
  deriving DecidableEq, Repr

def executeNext (s : InstructionState) (ir : Word) : Succ :=
  match s with
  | .rType => if dstRg ir = 0#5 then .done else .next .rtCmpl
  | .itAlu => if dstRg ir = 0#5 then .done else .next .itAluCmpl
  | .itLoad => .next .itLdMemAcc
  | .itLdMemAcc => .next .itLdMemMdr
  | .itLdMemMdr => .next .itLdMemCmpl
  | .itJalr => if dstRg ir = 0#5 then .done else .next .itJalrRtr
  | .stStore => if Pmmu.isWordSize (funct3 ir) then .next .stMemWrt else .next .stMemAcc
  | .stMemAcc => .next .stMemWrt
  | .bType => .next .btBranch
  | .jtJal => if dstRg ir = 0#5 then .done else .next .jtJalRtr
  | .rtCmpl | .itAluCmpl | .itLdMemCmpl | .itJalrRtr | .stMemWrt | .btBranch | .jtJalRtr
  | .uType | .uTypeAui => .done
  -- `next_ir_state` keeps its default
  | _ => .next .itLoad

/-- The instruction states that the four matrices have in common. -/
def shared : InstructionState → Bool
  | .rType | .rtCmpl | .itAlu | .itAluCmpl | .itLoad | .itLdMemAcc | .itLdMemMdr | .itLdMemCmpl
  | .itJalr | .itJalrRtr | .stStore | .stMemAcc | .stMemWrt | .bType | .btBranch
  | .jtJal | .jtJalRtr | .uType | .uTypeAui => true
  | _ => false

/-- An Execute state that stays in Execute, in the instruction state `s`. -/
def executeOut (c : Control) (s : InstructionState) : Outputs :=
  { Outputs.init c with nextState := .execute, nextIrState := s }

/-- An Execute state that leaves Execute for `next`. -/
def leaveOut (c : Control) (next : MatrixState) : Outputs :=
  { Outputs.init c with nextState := next }

end RangerRisc
