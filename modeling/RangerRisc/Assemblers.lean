import RangerRisc.AssemblerUtils

/-! `tools/gen-instr/assemblers`: one encoder for each instruction format, and `Dispatch`.
What they print on the terminal is left out. -/

namespace RangerRisc.Assembler

open Numeral Regexp

/-- The `json` argument of the encoders. -/
structure Context where
  assembly : Text
  pc : Text
  labels : Labels

/-! ## Expressions -/

def isLower (c : Char) : Bool := 'a' ≤ c && c ≤ 'z'
def isDecimal (c : Char) : Bool := '0' ≤ c && c ≤ '9'
/-- `[xa0-9]` -/
def isRegister (c : Char) : Bool := c == 'x' || c == 'a' || isDecimal c
/-- `\w` -/
def isWord (c : Char) : Bool := isDecimal c || isLower c || ('A' ≤ c && c ≤ 'Z') || c == '_'
def isBlank (c : Char) : Bool := c == ' '

def mnemonic : Item := (plus isLower).capture
def register : Item := (plus isRegister).capture
def word : Item := (plus isWord).capture
/-- `,[ ]*` -/
def comma : Pattern := [one ',', star isBlank]

def rtypeExpr : Pattern := [mnemonic, plus isBlank, register] ++ comma ++ [register] ++
    comma ++ [register]

def itypeExpr : Pattern :=
  [mnemonic, plus isBlank, register] ++ comma ++ [register] ++ comma ++
    [(plus fun c => isWord c || c == '-').capture]

def branchExpr : Pattern :=
  [mnemonic, plus isBlank, register] ++ comma ++ [register] ++ comma ++ [one '@', word]

def jalExpr : Pattern := [mnemonic, plus isBlank, register] ++ comma ++ [one '@', word]

/-- An offset of the given characters and a base register in parentheses. -/
def offsetExpr (cls : Char → Bool) : Pattern :=
  [mnemonic, plus isBlank, register] ++ comma ++
    [(plus cls).capture, star isBlank, one '(', register, one ')']

def loadsExpr : Pattern := offsetExpr fun c => c == '@' || c == '+' || isWord c
def storesExpr : Pattern := offsetExpr isWord
def jalrExpr : Pattern := offsetExpr isWord

def utypeExpr : Pattern := [mnemonic, one ' ', register] ++ comma ++ [word]

def csrExpr : Pattern :=
  [(plus fun c => "csrwi".toList.contains c).capture, plus isBlank, register] ++ comma ++ [word] ++
    comma ++ [register]

/-- `nil` if there is no match. -/
def findStringSubmatch (expr : Pattern) (ass : Text) : List Text :=
  match find expr ass with
  | some m => m.text :: m.groups
  | none => []

/-- `fields[i]` -/
def field (fields : List Text) (i : ℕ) : Except Error Text :=
  match fields[i]? with
  | some t => .ok t
  | none => .error .indexOutOfRange

/-! ## Instruction words -/

/-- The listed elements of an array. -/
def pick (arr : List Bool) (is : List ℕ) : List Bool := is.map fun i => arr.getD i false

/-- The five bits of a register number. -/
def regBits (r : BitVec 64) : List Bool := pick (intToBinaryArray r) [27, 28, 29, 30, 31]

/-- The array is given from `instruction[31]` down to `instruction[0]`; the source fills it
in memory order and reverses it here. -/
def machineCode (instruction : List Bool) : Text :=
  binaryStringToHexString (binaryArrayToString instruction.reverse true) false

/-! ## Encoders -/

def rtypeFunct3 (instru : Text) : BitVec 3 :=
  match String.ofList instru with
  | "add" => 0b000
  | "sub" => 0b000
  | "xor" => 0b100
  | "or" => 0b110
  | "and" => 0b111
  | "sll" => 0b001
  | "srl" => 0b101
  | "sra" => 0b101
  | "slt" => 0b010
  | "sltu" => 0b011
  | _ => 0b000

def rtypeAlu (json : Context) : Except Error Text := do
  let fields := findStringSubmatch rtypeExpr json.assembly
  let instru ← field fields 1
  let rd ← field fields 2
  let rs1 ← field fields 3
  let rs2 ← field fields 4
  let bit30 := instru = "sub".toList ∨ instru = "sra".toList
  let rs2Int ← stringRegToInt rs2
  let rs1Int ← stringRegToInt rs1
  let rdInt ← stringRegToInt rd
  return machineCode ([false, decide bit30, false, false, false, false, false] ++
    regBits rs2Int ++ regBits rs1Int ++ wordBits (rtypeFunct3 instru) ++ regBits rdInt ++
    wordBits 0b0110011#7)

def itypeFunct3 (instru : Text) : BitVec 3 :=
  match String.ofList instru with
  | "addi" => 0b000
  | "xori" => 0b100
  | "ori" => 0b110
  | "andi" => 0b111
  | "slli" => 0b001
  | "srli" => 0b101
  | "srai" => 0b101
  | "slti" => 0b010
  | "sltiu" => 0b011
  | _ => 0b000

/-- The immediate of an I-type ALU instruction, a load or a store: a hexadecimal number, in words
if it is marked so. -/
def immediateInt (imm : Text) : Except Error (BitVec 64) := do
  let immInt ← stringHexToInt imm
  return if contains "WA:".toList imm then immInt * 4 else immInt

def itypeAlu (json : Context) : Except Error Text := do
  let fields := findStringSubmatch itypeExpr json.assembly
  let instru ← field fields 1
  let rd ← field fields 2
  let rs1 ← field fields 3
  let imm ← field fields 4
  let immInt ← immediateInt imm
  let produced := intToBinaryArray immInt
  let rs1Int ← stringRegToInt rs1
  let rdInt ← stringRegToInt rd
  return machineCode (pick produced [20] ++
    (if instru = "srai".toList then [true] else pick produced [21]) ++
    pick produced [22, 23, 24, 25, 26, 27, 28, 29, 30, 31] ++
    regBits rs1Int ++ wordBits (itypeFunct3 instru) ++ regBits rdInt ++ wordBits 0b0010011#7)

def loadsFunct3 (funct3 : Text) : BitVec 3 :=
  match String.ofList funct3 with
  | "lb" => 0b000
  | "lh" => 0b001
  | "lw" => 0b010
  | "lbu" => 0b100
  | "lhu" => 0b101
  | _ => 0b000

def loads (json : Context) : Except Error Text := do
  let fields := findStringSubmatch loadsExpr json.assembly
  let rd ← field fields 2
  let imm ← field fields 3
  let rs1 ← field fields 4
  let immInt ← immediateInt imm
  let produced := intToBinaryArray immInt
  let rs1Int ← stringRegToInt rs1
  let funct3 ← field fields 1
  let rdInt ← stringRegToInt rd
  return machineCode (pick produced [20, 21, 22, 23, 24, 25, 26, 27, 28, 29, 30, 31] ++
    regBits rs1Int ++ wordBits (loadsFunct3 funct3) ++ regBits rdInt ++ wordBits 0b0000011#7)

def storesFunct3 (funct3 : Text) : BitVec 3 :=
  match String.ofList funct3 with
  | "sb" => 0b000
  | "sh" => 0b001
  | "sw" => 0b010
  | _ => 0b000

def stores (json : Context) : Except Error Text := do
  let fields := findStringSubmatch storesExpr json.assembly
  let rs2 ← field fields 2
  let imm ← field fields 3
  let rs1 ← field fields 4
  let immInt ← immediateInt imm
  let produced := intToBinaryArray immInt
  let rs2Int ← stringRegToInt rs2
  let rs1Int ← stringRegToInt rs1
  let funct3 ← field fields 1
  return machineCode (pick produced [20, 21, 22, 23, 24, 25, 26] ++ regBits rs2Int ++
    regBits rs1Int ++ wordBits (storesFunct3 funct3) ++ pick produced [27, 28, 29, 30, 31] ++
    wordBits 0b0100011#7)

/-- The distance from `json["PC"]` to a label. -/
def labelDelta (json : Context) (label : Text) : Except Error (BitVec 64) := do
  let pcInt ← stringHexToInt json.pc
  let target ← findLabelValue json.labels label
  let targetInt ← stringHexToInt (wordAddrToByteAddrString target)
  return targetInt - pcInt

def branchFunct3 (instru : Text) : BitVec 3 :=
  match String.ofList instru with
  | "beq" => 0b000
  | "bne" => 0b001
  | "blt" => 0b100
  | "bge" => 0b101
  | "bltu" => 0b110
  | "bgeu" => 0b111
  | _ => 0b000

def btypeBranch (json : Context) : Except Error Text := do
  let fields := findStringSubmatch branchExpr json.assembly
  let instru ← field fields 1
  let rs1 ← field fields 2
  let rs2 ← field fields 3
  let label ← field fields 4
  let delta ← labelDelta json label
  let produced := intToBinaryArray delta
  let rs2Int ← stringRegToInt rs2
  let rs1Int ← stringRegToInt rs1
  return machineCode (pick produced [12] ++ pick produced [21, 22, 23, 24, 25, 26] ++
    regBits rs2Int ++ regBits rs1Int ++ wordBits (branchFunct3 instru) ++
    pick produced [27, 28, 29, 30] ++ pick produced [20] ++ wordBits 0b1100011#7)

/-- The array is as long as the number's binary string. -/
def jal (json : Context) : Except Error Text := do
  let fields := findStringSubmatch jalExpr json.assembly
  let rd ← field fields 2
  let label ← field fields 3
  let delta ← labelDelta json label
  let produced := intToBinaryArray delta
  let rdInt ← stringRegToInt rd
  return machineCode (List.replicate (produced.length - 32) false ++ pick produced [11] ++
    pick produced [21, 22, 23, 24, 25, 26, 27, 28, 29, 30] ++ pick produced [20] ++
    pick produced [12, 13, 14, 15, 16, 17, 18, 19] ++ regBits rdInt ++ wordBits 0b1101111#7)

/-- A number, or the name of a label. -/
def jalrOffset (json : Context) (label : Text) : Except Error Text :=
  if contains "0x".toList label then .ok label else findLabelValue json.labels label

def jalr (json : Context) : Except Error Text := do
  let fields := findStringSubmatch jalrExpr json.assembly
  let rd ← field fields 2
  let rs1 ← field fields 4
  let label ← field fields 3
  let offset ← jalrOffset json label
  let offsetInt ← stringHexToInt offset
  let produced := intToBinaryArray offsetInt
  let rs1Int ← stringRegToInt rs1
  let rdInt ← stringRegToInt rd
  return machineCode (pick produced [20, 21, 22, 23, 24, 25, 26, 27, 28, 29, 30] ++ [false] ++
    regBits rs1Int ++ wordBits 0b000#3 ++ regBits rdInt ++ wordBits 0b1100111#7)

/-- `Lui` and `Auipc`, which differ in the opcode. -/
def utype (opcode : BitVec 7) (json : Context) : Except Error Text := do
  let fields := findStringSubmatch utypeExpr json.assembly
  let rd ← field fields 2
  let imm ← field fields 3
  let immInt ← stringHexToInt imm
  let produced := intToBinaryArray immInt
  let rdInt ← stringRegToInt rd
  return machineCode (pick produced [12, 13, 14, 15, 16, 17, 18, 19, 20, 21, 22, 23, 24, 25, 26,
    27, 28, 29, 30, 31] ++ regBits rdInt ++ wordBits opcode)

def lui (json : Context) : Except Error Text := utype 0b0110111 json
def auipc (json : Context) : Except Error Text := utype 0b0010111 json

def ebreak : Except Error Text :=
  return machineCode (wordBits 0b000000000001#12 ++ wordBits 0b00000#5 ++ wordBits 0b000#3 ++
    wordBits 0b00000#5 ++ wordBits 0b1110011#7)

def mret : Except Error Text :=
  return machineCode (wordBits 0b001100000010#12 ++ wordBits 0b00000#5 ++ wordBits 0b000#3 ++
    wordBits 0b00000#5 ++ wordBits 0b1110011#7)

/-- A CSR by its name; anything else is left to be a number. -/
def csrAddress (csr : Text) : Text :=
  match String.ofList csr with
  | "mstatus" => "0x300".toList
  | "mie" => "0x304".toList
  | "mtvec" => "0x305".toList
  | "mscratch" => "0x340".toList
  | "mepc" => "0x341".toList
  | "mcause" => "0x342".toList
  | "mtval" => "0x343".toList
  | "mip" => "0x344".toList
  | _ => csr

def csrFunct3 (instru : Text) : BitVec 3 :=
  match String.ofList instru with
  | "csrrw" => 0b001
  | "csrrs" => 0b010
  | "csrrc" => 0b011
  | "csrrwi" => 0b101
  | "csrrsi" => 0b110
  | "csrrci" => 0b111
  | _ => 0b000

def itypeCSR (json : Context) : Except Error Text := do
  let fields := findStringSubmatch csrExpr json.assembly
  let instru ← field fields 1
  let rd ← field fields 2
  let csr ← field fields 3
  let rs1Imm ← field fields 4
  let csrInt ← stringHexToInt (csrAddress csr)
  let csrA := (intToBinaryArray csrInt).reverse
  let rs1Int ← stringRegToInt rs1Imm
  let rs1Arr := (intToBinaryArray rs1Int).reverse
  let rdInt ← stringRegToInt rd
  let rdArr := (intToBinaryArray rdInt).reverse
  return machineCode (pick csrA [11, 10, 9, 8, 7, 6, 5, 4, 3, 2, 1, 0] ++
    pick rs1Arr [4, 3, 2, 1, 0] ++ wordBits (csrFunct3 instru) ++ pick rdArr [4, 3, 2, 1, 0] ++
    wordBits 0b1110011#7)

/-- An instruction that is not listed has no code and no error. -/
def dispatch (instruction : Text) (context : Context) : Except Error Text :=
  match String.ofList instruction with
  | "jal" => jal context
  | "jalr" => jalr context
  | "lui" => lui context
  | "auipc" => auipc context
  | "ebreak" => ebreak
  | "lb" | "lh" | "lw" | "lbu" | "lhu" => loads context
  | "sb" | "sh" | "sw" => stores context
  | "add" | "sub" | "xor" | "or" | "and" | "sll" | "srl" | "sra" | "slt" | "sltu" =>
    rtypeAlu context
  | "addi" | "xori" | "ori" | "andi" | "slli" | "srli" | "srai" | "slti" | "sltiu" =>
    itypeAlu context
  | "beq" | "bne" | "blt" | "bge" | "bltu" | "bgeu" => btypeBranch context
  | "csrrw" | "csrrs" | "csrrc" | "csrrwi" | "csrrsi" | "csrrci" => itypeCSR context
  | "mret" => mret
  | _ => .ok []

end RangerRisc.Assembler
