import RangerRisc.Sequencer

/-! The two matrices without CSRs: `modules/ControlMatrix.sv` and
`simulation/ranger_microcode/MicroCodeMatrix.sv`. -/

namespace RangerRisc

namespace ControlMatrix

/-- The last states in which the next fetch is read in the same cycle. -/
def overlaps (s : InstructionState) (taken : Bool) : Bool :=
  match s with
  | .rType | .rtCmpl | .itAlu | .itAluCmpl | .itLdMemCmpl => true
  | .btBranch => !taken
  | _ => false

def execute (s : InstructionState) (ir : Word) (taken : Bool) : Outputs :=
  match s with
  | .itEbreak => executeOut Control.idle .itEbreak
  | .itECall => executeOut Control.idle .itECall
  | .preFetch => leaveOut preFetchControl .fetch
  | s =>
    let c := executeControl s ir taken
    match executeNext s ir with
    | .next s' => executeOut c s'
    | .done =>
      if overlaps s taken then leaveOut { c with memRd := rwActive } .fetch
      else executeOut c .preFetch

/-- The combinational block. -/
def comb (q : SeqState) (resetI : Bool) (ir : Word) (flags : BitVec 4) : Outputs :=
  match q.state with
  | .reset => resetOut .fetch q.vectorState resetI
  | .fetch => fetchOut memNotBusy
  | .decode => decodeOut (if ir.getLsbD 20 then .itEbreak else .itECall) ir
  | .execute => execute q.irState ir (takeBranch flags (funct3 ir))
  | _ => Outputs.init Control.idle

end ControlMatrix

namespace MicroCodeMatrix

/-- `alu_op`, from the instruction state alone. -/
def aluOp (s : InstructionState) (ir : Word) : BitVec 6 :=
  match s with
  | .rType => funct3 ir ++ funct7up ir
  | .itAlu => itAluOp ir
  | .bType => subOp
  | _ => addOp

def system (ir : Word) : InstructionState :=
  if funct12 ir = 1#12 then .itEbreak
  else if funct12 ir = 0#12 then .itECall
  else .itLoad

def execute (s : InstructionState) (ir : Word) (taken : Bool) : Outputs :=
  match s with
  | .itEbreak => leaveOut Control.idle .halt
  | .itECall => executeOut Control.idle .itECall
  | s =>
    let c := executeControl s ir taken
    match executeNext s ir with
    | .next s' => executeOut c s'
    | .done => leaveOut c .preFetch

/-- The main block; `alu_op` has a block of its own. -/
def main (q : SeqState) (resetI : Bool) (ir : Word) (flags : BitVec 4) : Outputs :=
  match q.state with
  | .reset => resetOut .preFetch q.vectorState resetI
  | .fetch => fetchOut memNotBusy
  | .decode => decodeOut (system ir) ir
  | .execute => execute q.irState ir (takeBranch flags (funct3 ir))
  | .preFetch => leaveOut preFetchControl .fetch
  | .halt => leaveOut Control.idle .halt
  | _ => Outputs.init Control.idle

def comb (q : SeqState) (resetI : Bool) (ir : Word) (flags : BitVec 4) : Outputs :=
  let o := main q resetI ir flags
  { o with control := { o.control with aluOp := aluOp q.irState ir } }

end MicroCodeMatrix

end RangerRisc
