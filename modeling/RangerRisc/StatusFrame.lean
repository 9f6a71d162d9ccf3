import RangerRisc.AssemblerWords
import RangerRisc.DebugLink
import Mathlib.Data.List.GetD

/-! The status frame: the bytes of CSStatusSend in `csrs/Top.sv`, and `showData` of
`tools/go-uart/main.go`, which prints what it reads of them. -/

namespace RangerRisc.Status

open Numeral Assembler

/-! ## `Top.sv` -/

/-- What the processor shows, with the two registers of the module that are sent along. A state
is held as its code. -/
structure DebugOutputs where
  matState : BitVec 5
  vectorState : BitVec 5
  irState : BitVec 6
  cpuClock : Bool
  ready : Bool
  halt : Bool
  cmToIrLd : Bool
  cmToPcLd : Bool
  cmToPcpLd : Bool
  cmToMemRd : Bool
  cmToAluLd : Bool
  pcOut : Word
  irOut : Word
  pcPriorOut : Word
  aMuxOut : Word
  bMuxOut : Word
  immExtOut : Word
  addrMuxToPmmu : Word
  cmToMdrLd : Bool
  cmToRgWr : Bool
  cmToMemWr : Bool
  cmToAluFlagsLd : Bool
  cmToAddrSrc : Bool
  cmToRsaLd : Bool
  ioWr : Bool
  takeBranch : Bool
  wdSrcOut : Word
  cmToPcSrc : BitVec 3
  cmToWdSrc : BitVec 2
  aluFlagsCm : BitVec 4
  dataOut : Byte
  clockSelect : BitVec 2
  irqTriggered : Bool
  interruptInProgress : Bool
  irqPending : Bool
  writeCsr : Bool
  isCsrInstr : Bool
  irqResetTrigger : Bool
  mdrOut : Word
  aluOut : Word
  mepc : Word
  mip : Word
  mstatus : Word
  mie : Word
  csrData : Word

/-- A concatenation of bits, from the highest down. -/
def concat (b₇ b₆ b₅ b₄ b₃ b₂ b₁ b₀ : Bool) : Byte :=
  BitVec.ofBoolListBE [b₇, b₆, b₅, b₄, b₃, b₂, b₁, b₀]

/-- `r[0:7]`, `r[8:15]`, `r[16:23]` and `r[24:31]`, the first of which is bits 7 to 0. -/
def bytesOf (r : Word) : List Byte :=
  [r.extractLsb' 0 8, r.extractLsb' 8 8, r.extractLsb' 16 8, r.extractLsb' 24 8]

/-- The entries of the case in CSStatusSend. -/
def statusBytes (o : DebugOutputs) : List Byte := List.flatten [
  -- byte 0
  [o.matState ++ o.vectorState.extractLsb' 2 3,
    o.vectorState.extractLsb' 0 2 ++ o.irState,
    concat o.cpuClock o.ready o.halt o.cmToIrLd o.cmToPcLd o.cmToPcpLd o.cmToMemRd o.cmToAluLd],
  -- byte 3
  bytesOf o.pcOut, bytesOf o.irOut, bytesOf o.pcPriorOut, bytesOf o.aMuxOut,
  bytesOf o.bMuxOut, bytesOf o.immExtOut, bytesOf o.addrMuxToPmmu,
  -- byte 31
  [concat o.cmToMdrLd o.cmToRgWr o.cmToMemWr o.cmToAluFlagsLd o.cmToAddrSrc o.cmToRsaLd o.ioWr
    o.takeBranch],
  bytesOf o.wdSrcOut,
  -- byte 36
  [o.cmToPcSrc.setWidth 8, o.cmToWdSrc.setWidth 8, o.aluFlagsCm.setWidth 8, o.dataOut,
    concat (o.clockSelect.getLsbD 1) (o.clockSelect.getLsbD 0) o.irqTriggered
      o.interruptInProgress o.irqPending o.writeCsr o.isCsrInstr o.irqResetTrigger],
  -- byte 41
  bytesOf o.mdrOut, bytesOf o.aluOut, bytesOf o.mepc, bytesOf o.mip, bytesOf o.mstatus,
  bytesOf o.mie, bytesOf o.csrData]

/-- The entry for a count; there is none above 68. -/
def statusByte (o : DebugOutputs) (cntStatusReqByte : BitVec 7) : Byte :=
  (statusBytes o).getD cntStatusReqByte.toNat 0

/-- The bytes of the response while the outputs are held. -/
def frame (o : DebugOutputs) : List Byte :=
  (List.range Mode.status.length).map (Sender.responseByte .status 0x73 (statusByte o))

/-! ## `main.go` -/

/-- `fmt.Sprintf("%08b", rxBuf[idx])`; `readPort` returns a buffer of 69 bytes. -/
def sprintfByte (idx : ℕ) (rxBuf : List Byte) : Text := print 2 8 (rxBuf.getD idx 0).toNat

/-- `ui, _ := strconv.ParseUint(s, 2, 64)`. -/
def parsed (s : Text) : ℕ :=
  match parseUint 2 s with
  | .ok ui => ui.toNat
  | .error _ => 0

/-- A switch on a string. -/
def switch (b : Text) (cases : List (String × String)) : String :=
  ((cases.find? fun c => c.1.toList = b).map Prod.snd).getD "---"

def matrixState (idx : ℕ) (rxBuf : List Byte) : String :=
  match parsed ((sprintfByte idx rxBuf).take 5) with
  | 0 => "Reset"
  | 1 => "Fetch"
  | 2 => "Decode"
  | 3 => "Execute"
  | 4 => "PreFetch"
  | 5 => "IRQ0"
  | 6 => "IRQ1"
  | 7 => "IRQ2"
  | 8 => "Halt"
  | _ => "---"

def vectorState (idx : ℕ) (rxBuf : List Byte) : String :=
  let b := (sprintfByte idx rxBuf).drop 5 ++ (sprintfByte (idx + 1) rxBuf).take 2
  switch (b.take 5)
    [("00000", "Sync0"), ("00001", "Vector0"), ("00010", "Vector1"), ("00011", "Vector2"),
      ("00100", "Vector3")]

def irState (idx : ℕ) (rxBuf : List Byte) : String :=
  match parsed ((sprintfByte idx rxBuf).drop 2) with
  | 0 => "STStore"
  | 1 => "STMemAcc"
  | 2 => "STMemWrt"
  | 3 => "STMemRrd"
  | 4 => "ITLoad"
  | 5 => "ITLDMemAcc"
  | 6 => "ITLDMemMdr"
  | 7 => "ITLDMemCmpl"
  | 8 => "RType"
  | 9 => "RTCmpl"
  | 10 => "BType"
  | 11 => "BTBranch"
  | 12 => "BTCmpl"
  | 13 => "ITALU"
  | 14 => "ITALUCmpl"
  | 15 => "JTJal"
  | 16 => "JTJalRtr"
  | 17 => "ITJalr"
  | 18 => "ITJalrRtr"
  | 19 => "UType"
  | 20 => "UTCmpl"
  | 21 => "UTypeAui"
  | 22 => "UTAuiCmpl"
  | 23 => "ITEbreak"
  | 24 => "ITECall"
  | 25 => "ITCSR"
  | 26 => "ITCSRLd"
  | 27 => "ITMret"
  | 28 => "ITMretClr"
  | 29 => "IRUnknown"
  | _ => "---"

/-- `fmt.Sprintf("%0wb", rxBuf[idx])[0:w]`. -/
def lowBits (w idx : ℕ) (rxBuf : List Byte) : Text := (print 2 w (rxBuf.getD idx 0).toNat).take w

def pcSrc (idx : ℕ) (rxBuf : List Byte) : String :=
  switch (lowBits 3 idx rxBuf)
    [("000", "PCSrcAluImm"), ("001", "PCSrcAluOut"), ("010", "PCSrcResetVec"),
      ("011", "PCSrcRDCSR"), ("100", "PCSrcResetAdr")]

def wdSrcMux (idx : ℕ) (rxBuf : List Byte) : String :=
  switch (lowBits 2 idx rxBuf)
    [("00", "WDSrcImm"), ("01", "WDSrcALUOut"), ("10", "WDSrcMDR"), ("11", "WDSrcCSR")]

def aluFlags (idx : ℕ) (rxBuf : List Byte) : String :=
  switch (lowBits 4 idx rxBuf)
    [("0000", "----"), ("0001", "---Z"), ("0010", "--C-"), ("0011", "--CZ"), ("0100", "-N--"),
      ("0101", "-N-Z"), ("0110", "-NC-"), ("0111", "-NCZ"), ("1000", "V---"), ("1001", "V--Z"),
      ("1010", "V-C-"), ("1011", "V-CZ"), ("1100", "VN--"), ("1101", "VN-Z"), ("1110", "VNC-"),
      ("1111", "VNCZ")]

/-- The headings of the control bits, which are read downwards. -/
def bitsHeader : List Text := [
  "            -------------------------------------------------".toList,
  "                    |                 A       t | i i i   i i".toList,
  "                  c |                 L       a | r n r   s r".toList,
  "                  l |                 U       k | q t g w c q".toList,
  "                  k |                 F A     e |   r   r s r".toList,
  "                    |                 l d       | t   p i r s".toList,
  "                  s |     P M A M   M a d R   b | r p e t   t".toList,
  "            C R   e | I P C e L d R e g r s I r | i r n e i  ".toList,
  "            l e H l | R C P m U r g m s   a O a | g o d   n t".toList,
  "            o a a e |                   s     n | g g i c s r".toList,
  "            c d l c | l l l r l l w w l r l w c | r r n s t i".toList,
  "            k y t t | d d d d d d r r d c d r h | d e g r r g".toList,
  "            -------------------------------------------------".toList]

/-- The characters of a row, with a blank before each. -/
def spaced (cs : Text) : Text := cs.flatMap fun c => [' ', c]

def clkSelect (b3 : Text) : Char :=
  if b3.getD 0 ' ' = '0' ∧ b3.getD 1 ' ' = '1' then '1'
  else if b3.getD 0 ' ' = '1' ∧ b3.getD 1 ' ' = '0' then '2'
  else '0'

def bitsRow (b b2 b3 : Text) : Text :=
  "           ".toList ++ spaced (b.take 3 ++ [clkSelect b3]) ++ " |".toList ++
    spaced (b.drop 3 ++ b2) ++ " |".toList ++ spaced (b3.drop 2)

def bits (idx idx2 idx3 : ℕ) (rxBuf : List Byte) : List Text :=
  bitsHeader ++ [bitsRow (sprintfByte idx rxBuf) (sprintfByte idx2 rxBuf) (sprintfByte idx3 rxBuf)]

/-- `fmt.Sprintf("%s%s%s%s", b23_30, b15_22, b8_14, b0_7)`. -/
def binaryWord (idx : ℕ) (rxBuf : List Byte) : Text :=
  sprintfByte (idx + 3) rxBuf ++ sprintfByte (idx + 2) rxBuf ++ sprintfByte (idx + 1) rxBuf ++
    sprintfByte idx rxBuf

def showWord (label : String) (idx : ℕ) (rxBuf : List Byte) : Text :=
  label.toList ++ ": ".toList ++ sprintfByte (idx + 3) rxBuf ++ "_".toList ++
    sprintfByte (idx + 2) rxBuf ++ "_".toList ++ sprintfByte (idx + 1) rxBuf ++ "_".toList ++
    sprintfByte idx rxBuf ++ " (".toList ++ binaryStringToHexString (binaryWord idx rxBuf) true ++
    ")".toList

/-- The line of `showWord` with the word address; an error of `StringToUint` ends the program. -/
def showCounter (label : String) (idx : ℕ) (rxBuf : List Byte) : Except Error Text := do
  let ui64 ← parseUint 2 (binaryWord idx rxBuf)
  .ok (showWord label idx rxBuf ++ " (".toList ++ uintToHexString (ui64 / 4) true ++ ")".toList)

def showPC (idx : ℕ) (rxBuf : List Byte) : Except Error Text := showCounter "      PC" idx rxBuf

def showPCPrior (idx : ℕ) (rxBuf : List Byte) : Except Error Text :=
  showCounter " PCPrior" idx rxBuf

def showByte (label : String) (idx : ℕ) (rxBuf : List Byte) : Text :=
  label.toList ++ ": ".toList ++ sprintfByte idx rxBuf ++ " (".toList ++
    binaryStringToHexString (sprintfByte idx rxBuf) true ++ ")".toList

/-- `fmt.Println` of a label and a name. -/
def named (label name : String) : Text := label.toList ++ " ".toList ++ name.toList

def separator : Text := List.replicate 77 '='

def addressHeader : Text :=
  "          <------------- Binary ------------>  <Byte Addr>  <Word Addr>".toList

/-- The lines that are printed. -/
def showData (rxBuf : List Byte) : Except Error (List Text) := do
  let pc ← showPC 3 rxBuf
  let pcPrior ← showPCPrior 11 rxBuf
  .ok ([separator,
    named "MatrixState:" (matrixState 0 rxBuf),
    named "VectorState:" (vectorState 0 rxBuf),
    named "    IRState:" (irState 1 rxBuf),
    named "      PCSrc:" (pcSrc 36 rxBuf),
    named "   WDSrcMux:" (wdSrcMux 37 rxBuf),
    named "  ALU flags:" (aluFlags 38 rxBuf)] ++
    bits 2 31 40 rxBuf ++
    [[], addressHeader, pc, pcPrior,
    showWord "      IR" 7 rxBuf,
    showWord " AMuxOut" 15 rxBuf,
    showWord " BMuxOut" 19 rxBuf,
    showWord "  ImmExt" 23 rxBuf,
    showWord " AddrMux" 27 rxBuf,
    showWord "WdSrcOut" 32 rxBuf,
    showWord "  MDROut" 41 rxBuf,
    showWord "  ALUOut" 45 rxBuf,
    showByte " DataOut" 39 rxBuf,
    showWord "    Mepc" 49 rxBuf,
    showWord "     Mip" 53 rxBuf,
    showWord " Mstatus" 57 rxBuf,
    showWord "     Mie" 61 rxBuf,
    showWord " CSRData" 65 rxBuf,
    separator])

/-! ## The report of the values

What is to be printed, by the values that the processor shows: the names of the enumerations of
`csrs/TypeEnums.sv` at their codes, the bits under their headings and the words as numerals. -/

def matrixStates : List String :=
  ["Reset", "Fetch", "Decode", "Execute", "PreFetch", "IRQ0", "IRQ1", "IRQ2", "Halt"]

def resetStates : List String := ["Sync0", "Vector0", "Vector1", "Vector2", "Vector3"]

def instructionStates : List String :=
  ["STStore", "STMemAcc", "STMemWrt", "STMemRrd", "ITLoad", "ITLDMemAcc", "ITLDMemMdr",
    "ITLDMemCmpl", "RType", "RTCmpl", "BType", "BTBranch", "BTCmpl", "ITALU", "ITALUCmpl", "JTJal",
    "JTJalRtr", "ITJalr", "ITJalrRtr", "UType", "UTCmpl", "UTypeAui", "UTAuiCmpl", "ITEbreak",
    "ITECall", "ITCSR", "ITCSRLd", "ITMret", "ITMretClr", "IRUnknown"]

def pcSources : List String :=
  ["PCSrcAluImm", "PCSrcAluOut", "PCSrcResetVec", "PCSrcRDCSR", "PCSrcResetAdr"]

def wdSources : List String := ["WDSrcImm", "WDSrcALUOut", "WDSrcMDR", "WDSrcCSR"]

/-- The name of a code, if it has one. -/
def nameOf {w : ℕ} (names : List String) (code : BitVec w) : String := names.getD code.toNat "---"

/-- The letters of the flags that are set, the overflow first. -/
def flagsText (flags : BitVec 4) : Text :=
  [if flags.getLsbD 3 then 'V' else '-', if flags.getLsbD 2 then 'N' else '-',
    if flags.getLsbD 1 then 'C' else '-', if flags.getLsbD 0 then 'Z' else '-']

/-- A value in binary, from the highest bit down. -/
def digits {w : ℕ} (x : BitVec w) : Text := (wordBits x).map fun b => digitChar b.toNat

def hexadecimal (n : ℕ) : Text := " (0x".toList ++ print 16 8 n ++ ")".toList

def wordLine (label : String) (x : Word) : Text :=
  label.toList ++ ": ".toList ++ (digits x).take 8 ++ "_".toList ++ ((digits x).drop 8).take 8 ++
    "_".toList ++ ((digits x).drop 16).take 8 ++ "_".toList ++ (digits x).drop 24 ++
    hexadecimal x.toNat

def byteLine (label : String) (x : Byte) : Text :=
  label.toList ++ ": ".toList ++ digits x ++ hexadecimal x.toNat

/-- The address of the word is shown too. -/
def counterLine (label : String) (x : Word) : Text :=
  wordLine label x ++ hexadecimal (x.toNat / 4)

/-- Each control with its heading and what is to stand below it. -/
def controls (o : DebugOutputs) : List (String × Char) :=
  [("Clock", digitChar o.cpuClock.toNat), ("Ready", digitChar o.ready.toNat),
    ("Halt", digitChar o.halt.toNat), ("clkselect", digitChar o.clockSelect.toNat),
    ("IRld", digitChar o.cmToIrLd.toNat), ("PCld", digitChar o.cmToPcLd.toNat),
    ("PCPld", digitChar o.cmToPcpLd.toNat), ("Memrd", digitChar o.cmToMemRd.toNat),
    ("ALUld", digitChar o.cmToAluLd.toNat), ("Mdrld", digitChar o.cmToMdrLd.toNat),
    ("Rgwr", digitChar o.cmToRgWr.toNat), ("Memwr", digitChar o.cmToMemWr.toNat),
    ("ALUFlagsld", digitChar o.cmToAluFlagsLd.toNat), ("Addrsrc", digitChar o.cmToAddrSrc.toNat),
    ("Rsald", digitChar o.cmToRsaLd.toNat), ("IOwr", digitChar o.ioWr.toNat),
    ("takebranch", digitChar o.takeBranch.toNat), ("irqtriggrd", digitChar o.irqTriggered.toNat),
    ("intrprogre", digitChar o.interruptInProgress.toNat),
    ("irgpending", digitChar o.irqPending.toNat), ("writecsr", digitChar o.writeCsr.toNat),
    ("iscsrinstr", digitChar o.isCsrInstr.toNat), ("irqrsttrig", digitChar o.irqResetTrigger.toNat)]

/-- A row of 23 characters. -/
def rowOf (cs : Text) : Text :=
  "           ".toList ++ spaced (cs.take 4) ++ " |".toList ++ spaced ((cs.drop 4).take 13) ++
    " |".toList ++ spaced (cs.drop 17)

/-- The row of the controls. -/
def controlRow (o : DebugOutputs) : Text := rowOf ((controls o).map Prod.snd)

/-- The lines, with the row of the controls still to be filled in. -/
def reportLines (o : DebugOutputs) (row : Text) : List Text :=
  [separator,
    named "MatrixState:" (nameOf matrixStates o.matState),
    named "VectorState:" (nameOf resetStates o.vectorState),
    named "    IRState:" (nameOf instructionStates o.irState),
    named "      PCSrc:" (nameOf pcSources o.cmToPcSrc),
    named "   WDSrcMux:" (nameOf wdSources o.cmToWdSrc),
    "  ALU flags: ".toList ++ flagsText o.aluFlagsCm] ++
    bitsHeader ++
    [row, [], addressHeader,
    counterLine "      PC" o.pcOut,
    counterLine " PCPrior" o.pcPriorOut,
    wordLine "      IR" o.irOut,
    wordLine " AMuxOut" o.aMuxOut,
    wordLine " BMuxOut" o.bMuxOut,
    wordLine "  ImmExt" o.immExtOut,
    wordLine " AddrMux" o.addrMuxToPmmu,
    wordLine "WdSrcOut" o.wdSrcOut,
    wordLine "  MDROut" o.mdrOut,
    wordLine "  ALUOut" o.aluOut,
    byteLine " DataOut" o.dataOut,
    wordLine "    Mepc" o.mepc,
    wordLine "     Mip" o.mip,
    wordLine " Mstatus" o.mstatus,
    wordLine "     Mie" o.mie,
    wordLine " CSRData" o.csrData,
    separator]

def report (o : DebugOutputs) : List Text := reportLines o (controlRow o)

/-- What is read downwards in the headings of a column. -/
def heading (col : ℕ) : Text :=
  (bitsHeader.map (·.getD col ' ')).filter fun c => c ≠ ' ' ∧ c ≠ '-'

def headings : List String :=
  ["Clock", "Ready", "Halt", "clkselect", "IRld", "PCld", "PCPld", "Memrd", "ALUld", "Mdrld",
    "Rgwr", "Memwr", "ALUFlagsld", "Addrsrc", "Rsald", "IOwr", "takebranch", "irqtriggrd",
    "intrprogre", "irgpending", "writecsr", "iscsrinstr", "irqrsttrig"]

def columns : List ℕ :=
  [12, 14, 16, 18, 22, 24, 26, 28, 30, 32, 34, 36, 38, 40, 42, 44, 46, 50, 52, 54, 56, 58, 60]

/-! ## Binary text -/

theorem digits_append {v w : ℕ} (x : BitVec v) (y : BitVec w) :
    digits (x ++ y) = digits x ++ digits y := by
  rw [digits, ← wordBits_append, List.map_append]
  rfl

@[simp] theorem length_digits {w : ℕ} (x : BitVec w) : (digits x).length = w := by
  simp [digits, wordBits]

theorem wordBits_ofBoolListBE (l : List Bool) : wordBits (BitVec.ofBoolListBE l) = l := by
  induction l with
  | nil => rfl
  | cons b l ih =>
    have hcons : wordBits (BitVec.ofBoolListBE (b :: l)) =
        wordBits (BitVec.ofBool b ++ BitVec.ofBoolListBE l) := by
      rw [wordBits, wordBits, BitVec.ofBoolListBE, BitVec.cons, BitVec.toNat_cast,
        List.length_cons, Nat.add_comm]
    rw [hcons, ← wordBits_append, ih]
    cases b <;> rfl

theorem digits_concat (b₇ b₆ b₅ b₄ b₃ b₂ b₁ b₀ : Bool) :
    digits (concat b₇ b₆ b₅ b₄ b₃ b₂ b₁ b₀) =
      [b₇, b₆, b₅, b₄, b₃, b₂, b₁, b₀].map fun b => digitChar b.toNat := by
  rw [digits, concat, wordBits_ofBoolListBE]

theorem print_toNat {w : ℕ} (x : BitVec w) : print 2 w x.toNat = digits x := print_two x.isLt

theorem parseUint_digits {w : ℕ} (x : BitVec w) (hw : 0 < w) (hw' : w ≤ 64) :
    parseUint 2 (digits x) = .ok (BitVec.ofNat 64 x.toNat) := by
  have hlt : x.toNat < 2 ^ 64 := Nat.lt_of_lt_of_le x.isLt (Nat.pow_le_pow_right Nat.two_pos hw')
  rw [parseUint, ← print_toNat, value_print x.toNat Nat.one_lt_two (by omega) hw]
  exact if_pos hlt

theorem parsed_digits {w : ℕ} (x : BitVec w) (hw : 0 < w) (hw' : w ≤ 64) :
    parsed (digits x) = x.toNat := by
  have hlt : x.toNat < 2 ^ 64 := Nat.lt_of_lt_of_le x.isLt (Nat.pow_le_pow_right Nat.two_pos hw')
  rw [parsed, parseUint_digits x hw hw']
  exact Nat.mod_eq_of_lt hlt

theorem binaryStringToHexString_digits {w : ℕ} (x : BitVec w) (hw : 0 < w) (hw' : w ≤ 64) :
    binaryStringToHexString (digits x) true = "0x".toList ++ print 16 8 x.toNat := by
  have hlt : x.toNat < 2 ^ 64 := Nat.lt_of_lt_of_le x.isLt (Nat.pow_le_pow_right Nat.two_pos hw')
  rw [binaryStringToHexString, parseUint_digits x hw hw']
  simp only [uintToHexString, if_true, BitVec.toNat_ofNat, Nat.mod_eq_of_lt hlt]

variable (o : DebugOutputs)

/-- A byte that is received is the entry of its number. -/
theorem getD_frame {idx : ℕ} (hidx : idx < 69) :
    (frame o).getD idx 0 = (statusBytes o).getD idx 0 := by
  have hlen : idx < (frame o).length := by simpa [frame, Mode.length] using hidx
  rw [List.getD_eq_getElem _ _ hlen]
  simp [frame, Sender.responseByte, statusByte, Nat.mod_eq_of_lt (show idx < 128 by omega)]

theorem sprintfByte_frame {idx : ℕ} (hidx : idx < 69) :
    sprintfByte idx (frame o) = digits ((statusBytes o).getD idx 0) := by
  rw [sprintfByte, getD_frame o hidx, print_toNat]

/-- A narrow value in a byte of its own. -/
theorem lowBits_frame {w idx : ℕ} (x : BitVec w) (hidx : idx < 69) (hw : w ≤ 8)
    (hbyte : (statusBytes o).getD idx 0 = x.setWidth 8) : lowBits w idx (frame o) = digits x := by
  rw [lowBits, getD_frame o hidx, hbyte, BitVec.toNat_setWidth_of_le hw, print_toNat,
    List.take_of_length_le (Nat.le_of_eq (length_digits x))]

theorem matrixState_frame : matrixState 0 (frame o) = nameOf matrixStates o.matState := by
  have hcode : parsed ((sprintfByte 0 (frame o)).take 5) = o.matState.toNat := by
    have hbits : sprintfByte 0 (frame o) =
        digits o.matState ++ digits (o.vectorState.extractLsb' 2 3) := by
      rw [sprintfByte_frame o (by decide), ← digits_append]
      rfl
    rw [hbits, List.take_left' (length_digits _), parsed_digits _ (by decide) (by decide)]
  rw [matrixState, hcode]
  generalize o.matState = code
  revert code
  decide

theorem irState_frame : irState 1 (frame o) = nameOf instructionStates o.irState := by
  have hcode : parsed ((sprintfByte 1 (frame o)).drop 2) = o.irState.toNat := by
    have hbits : sprintfByte 1 (frame o) =
        digits (o.vectorState.extractLsb' 0 2) ++ digits o.irState := by
      rw [sprintfByte_frame o (by decide), ← digits_append]
      rfl
    rw [hbits, List.drop_left' (length_digits _), parsed_digits _ (by decide) (by decide)]
  rw [irState, hcode]
  generalize o.irState = code
  revert code
  decide

theorem vectorState_frame : vectorState 0 (frame o) = nameOf resetStates o.vectorState := by
  have hcode : (sprintfByte 0 (frame o)).drop 5 ++ (sprintfByte (0 + 1) (frame o)).take 2 =
      digits o.vectorState := by
    have hfirst : sprintfByte 0 (frame o) =
        digits o.matState ++ digits (o.vectorState.extractLsb' 2 3) := by
      rw [sprintfByte_frame o (by decide), ← digits_append]
      rfl
    have hsecond : sprintfByte (0 + 1) (frame o) =
        digits (o.vectorState.extractLsb' 0 2) ++ digits o.irState := by
      rw [sprintfByte_frame o (by decide), ← digits_append]
      rfl
    have hsplit : ∀ code : BitVec 5, code.extractLsb' 2 3 ++ code.extractLsb' 0 2 = code := by
      decide
    rw [hfirst, hsecond, List.drop_left' (length_digits _), List.take_left' (length_digits _),
      ← digits_append, hsplit]
  simp only [vectorState, hcode]
  generalize o.vectorState = code
  revert code
  decide

theorem pcSrc_frame : pcSrc 36 (frame o) = nameOf pcSources o.cmToPcSrc := by
  rw [pcSrc, lowBits_frame o o.cmToPcSrc (by decide) (by decide) rfl]
  generalize o.cmToPcSrc = code
  revert code
  decide

theorem wdSrcMux_frame : wdSrcMux 37 (frame o) = nameOf wdSources o.cmToWdSrc := by
  rw [wdSrcMux, lowBits_frame o o.cmToWdSrc (by decide) (by decide) rfl]
  generalize o.cmToWdSrc = code
  revert code
  decide

theorem aluFlags_frame : (aluFlags 38 (frame o)).toList = flagsText o.aluFlagsCm := by
  rw [aluFlags, lowBits_frame o o.aluFlagsCm (by decide) (by decide) rfl]
  generalize o.aluFlagsCm = flags
  revert flags
  decide

/-- A word is put together again from its bytes. -/
theorem digits_bytes (x : Word) :
    digits (x.extractLsb' 24 8) ++ digits (x.extractLsb' 16 8) ++ digits (x.extractLsb' 8 8) ++
      digits (x.extractLsb' 0 8) = digits x := by
  rw [← digits_append, ← digits_append, ← digits_append]
  congr 1
  apply BitVec.eq_of_getLsbD_eq
  intro i hi
  simp only [BitVec.getLsbD_append, BitVec.getLsbD_extractLsb']
  split_ifs with h0 h1 h2
  · simp [h0]
  · rw [decide_eq_true h1, Bool.true_and, Nat.add_sub_cancel' (Nat.le_of_not_lt h0)]
  · rw [decide_eq_true h2, Bool.true_and, show 16 + (i - 8 - 8) = i by omega]
  · rw [decide_eq_true (by omega), Bool.true_and, show 24 + (i - 8 - 8 - 8) = i by omega]

/-- The word at an offset. -/
structure WordAt (o : DebugOutputs) (idx : ℕ) (x : Word) : Prop where
  byte0 : sprintfByte idx (frame o) = digits (x.extractLsb' 0 8)
  byte1 : sprintfByte (idx + 1) (frame o) = digits (x.extractLsb' 8 8)
  byte2 : sprintfByte (idx + 2) (frame o) = digits (x.extractLsb' 16 8)
  byte3 : sprintfByte (idx + 3) (frame o) = digits (x.extractLsb' 24 8)

theorem wordAt {idx : ℕ} {x : Word} (hidx : idx + 3 < 69)
    (hbytes : ((statusBytes o).drop idx).take 4 = bytesOf x) : WordAt o idx x := by
  have hentry : ∀ i < 4, (statusBytes o).getD (idx + i) 0 = (bytesOf x).getD i 0 := by
    intro i hi
    rw [← hbytes]
    simp [List.getD_eq_getElem?_getD, hi]
  constructor
  · rw [sprintfByte_frame o (by omega)]
    exact congrArg digits (hentry 0 (by decide))
  · rw [sprintfByte_frame o (by omega)]
    exact congrArg digits (hentry 1 (by decide))
  · rw [sprintfByte_frame o (by omega)]
    exact congrArg digits (hentry 2 (by decide))
  · rw [sprintfByte_frame o (by omega)]
    exact congrArg digits (hentry 3 (by decide))

variable {o} {idx : ℕ} {x : Word}

theorem hexadecimal_eq (n : ℕ) :
    hexadecimal n = " (".toList ++ ("0x".toList ++ print 16 8 n) ++ ")".toList := rfl

theorem WordAt.binaryWord (h : WordAt o idx x) : binaryWord idx (frame o) = digits x := by
  rw [Status.binaryWord, h.byte0, h.byte1, h.byte2, h.byte3, digits_bytes]

theorem WordAt.showWord (h : WordAt o idx x) (label : String) :
    showWord label idx (frame o) = wordLine label x := by
  have hlen : ∀ start, (digits (x.extractLsb' start 8)).length = 8 := fun _ => length_digits _
  have h0 : (digits x).take 8 = digits (x.extractLsb' 24 8) := by
    rw [← digits_bytes, List.append_assoc, List.append_assoc, List.take_left' (hlen 24)]
  have h1 : ((digits x).drop 8).take 8 = digits (x.extractLsb' 16 8) := by
    rw [← digits_bytes, List.append_assoc, List.append_assoc, List.drop_left' (hlen 24),
      List.take_left' (hlen 16)]
  have h2 : ((digits x).drop 16).take 8 = digits (x.extractLsb' 8 8) := by
    rw [← digits_bytes, List.append_assoc, List.drop_left' (by simp), List.take_left' (hlen 8)]
  have h3 : (digits x).drop 24 = digits (x.extractLsb' 0 8) := by
    rw [← digits_bytes, List.drop_left' (by simp)]
  rw [Status.showWord, h.binaryWord, binaryStringToHexString_digits x (by decide) (by decide),
    h.byte0, h.byte1, h.byte2, h.byte3, wordLine, h0, h1, h2, h3, hexadecimal_eq]
  simp only [List.append_assoc]

theorem showWord_frame (o : DebugOutputs) (label : String) (idx : ℕ) (x : Word)
    (hidx : idx + 3 < 69) (hbytes : ((statusBytes o).drop idx).take 4 = bytesOf x) :
    Status.showWord label idx (frame o) = wordLine label x :=
  (wordAt o hidx hbytes).showWord label

theorem WordAt.showCounter (h : WordAt o idx x) (label : String) :
    showCounter label idx (frame o) = .ok (counterLine label x) := by
  have hquarter : (BitVec.ofNat 64 x.toNat / 4).toNat = x.toNat / 4 := by
    rw [BitVec.toNat_udiv, BitVec.toNat_ofNat, Nat.mod_eq_of_lt (by omega)]
    rfl
  rw [Status.showCounter, h.binaryWord, parseUint_digits x (by decide) (by decide), h.showWord]
  show Except.ok _ = Except.ok _
  rw [counterLine, hexadecimal_eq, uintToHexString, hquarter, if_pos rfl]
  simp only [List.append_assoc]

theorem showByte_frame (label : String) {x : Byte} (hidx : idx < 69)
    (hbyte : (statusBytes o).getD idx 0 = x) : showByte label idx (frame o) = byteLine label x := by
  rw [showByte, sprintfByte_frame o hidx, hbyte,
    binaryStringToHexString_digits x (by decide) (by decide), byteLine, hexadecimal_eq]
  simp only [List.append_assoc]

theorem sprintfByte_concat (o : DebugOutputs) {idx : ℕ} {b₇ b₆ b₅ b₄ b₃ b₂ b₁ b₀ : Bool}
    (hidx : idx < 69) (hbyte : (statusBytes o).getD idx 0 = concat b₇ b₆ b₅ b₄ b₃ b₂ b₁ b₀) :
    sprintfByte idx (frame o) =
      [b₇, b₆, b₅, b₄, b₃, b₂, b₁, b₀].map fun b => digitChar b.toNat := by
  rw [sprintfByte_frame o hidx, hbyte, digits_concat]

theorem clkSelect_iff (sel : BitVec 2) (cs : Text) :
    clkSelect (digitChar (sel.getLsbD 1).toNat :: digitChar (sel.getLsbD 0).toNat :: cs) =
      digitChar sel.toNat ↔ sel ≠ 3 := by
  simp only [clkSelect, List.getD_cons_zero, List.getD_cons_succ]
  revert sel
  decide

theorem rowOf_append {cs cs' cs'' : Text} (hcs : cs.length = 4) (hcs' : cs'.length = 13) :
    rowOf (cs ++ cs' ++ cs'') = "           ".toList ++ spaced cs ++ " |".toList ++ spaced cs' ++
      " |".toList ++ spaced cs'' := by
  have htake : (cs ++ cs' ++ cs'').take 4 = cs := by
    rw [List.append_assoc, List.take_left' hcs]
  have hmiddle : ((cs ++ cs' ++ cs'').drop 4).take 13 = cs' := by
    rw [List.append_assoc, List.drop_left' hcs, List.take_left' hcs']
  have hdrop : (cs ++ cs' ++ cs'').drop 17 = cs'' :=
    List.drop_left' (by rw [List.length_append, hcs, hcs'])
  unfold rowOf
  rw [htake, hmiddle, hdrop]

theorem bitsRow_iff (o : DebugOutputs) :
    bitsRow (sprintfByte 2 (frame o)) (sprintfByte 31 (frame o)) (sprintfByte 40 (frame o)) =
      controlRow o ↔ o.clockSelect ≠ 3 := by
  have h2 : (statusBytes o).getD 2 0 = concat o.cpuClock o.ready o.halt o.cmToIrLd o.cmToPcLd
      o.cmToPcpLd o.cmToMemRd o.cmToAluLd := rfl
  have h31 : (statusBytes o).getD 31 0 = concat o.cmToMdrLd o.cmToRgWr o.cmToMemWr o.cmToAluFlagsLd
      o.cmToAddrSrc o.cmToRsaLd o.ioWr o.takeBranch := rfl
  have h40 : (statusBytes o).getD 40 0 = concat (o.clockSelect.getLsbD 1) (o.clockSelect.getLsbD 0)
      o.irqTriggered o.interruptInProgress o.irqPending o.writeCsr o.isCsrInstr
      o.irqResetTrigger := rfl
  unfold bitsRow controlRow
  rw [sprintfByte_concat o (by decide) h2, sprintfByte_concat o (by decide) h31,
    sprintfByte_concat o (by decide) h40, ← rowOf_append rfl rfl]
  simp only [List.map_cons, List.map_nil]
  rw [← clkSelect_iff o.clockSelect]
  constructor
  · intro h
    exact congrArg (·.getD 18 ' ') h
  · intro h
    rw [h]
    rfl

theorem heading_columns : columns.map heading = headings.map String.toList := by decide +kernel

theorem headings_controls (o : DebugOutputs) : headings = (controls o).map Prod.fst := rfl

theorem columns_row (o : DebugOutputs) :
    (columns.map fun col => (controlRow o).getD col ' ') = (controls o).map Prod.snd := by
  have hindent : "           ".toList = List.replicate 11 ' ' := rfl
  have hbar : " |".toList = [' ', '|'] := rfl
  unfold controlRow rowOf
  rw [hindent, hbar]
  rfl

/-- **Every control stands under its heading.** -/
theorem under_heading {o : DebugOutputs} {p : String × Char} (hp : p ∈ controls o) :
    ∃ col, heading col = p.1.toList ∧ (controlRow o).getD col ' ' = p.2 := by
  obtain ⟨i, hi, rfl⟩ := List.mem_iff_getElem.mp hp
  have hcol : i < columns.length := hi
  have hhead := congrArg (·[i]?) heading_columns
  rw [headings_controls o] at hhead
  have hrow := congrArg (·[i]?) (columns_row o)
  simp only [List.getElem?_map, List.getElem?_eq_getElem hcol, List.getElem?_eq_getElem hi,
    Option.map_some, Option.some.injEq] at hhead hrow
  exact ⟨columns[i], hhead, hrow⟩

/-- Everything but the row is right for all values. -/
theorem showData_lines (o : DebugOutputs) :
    showData (frame o) = .ok (reportLines o (bitsRow (sprintfByte 2 (frame o))
      (sprintfByte 31 (frame o)) (sprintfByte 40 (frame o)))) := by
  have hpc : showPC 3 (frame o) = .ok (counterLine "      PC" o.pcOut) :=
    (wordAt o (by decide) rfl).showCounter _
  have hprior : showPCPrior 11 (frame o) = .ok (counterLine " PCPrior" o.pcPriorOut) :=
    (wordAt o (by decide) rfl).showCounter _
  have hflags : named "  ALU flags:" (aluFlags 38 (frame o)) =
      "  ALU flags: ".toList ++ flagsText o.aluFlagsCm := by
    unfold named
    rw [aluFlags_frame]
    rfl
  unfold showData
  rw [hpc, hprior, matrixState_frame, vectorState_frame, irState_frame, pcSrc_frame, wdSrcMux_frame,
    hflags, showWord_frame o _ 7 o.irOut (by decide) rfl,
    showWord_frame o _ 15 o.aMuxOut (by decide) rfl,
    showWord_frame o _ 19 o.bMuxOut (by decide) rfl,
    showWord_frame o _ 23 o.immExtOut (by decide) rfl,
    showWord_frame o _ 27 o.addrMuxToPmmu (by decide) rfl,
    showWord_frame o _ 32 o.wdSrcOut (by decide) rfl,
    showWord_frame o _ 41 o.mdrOut (by decide) rfl,
    showWord_frame o _ 45 o.aluOut (by decide) rfl,
    showByte_frame (x := o.dataOut) _ (by decide) rfl,
    showWord_frame o _ 49 o.mepc (by decide) rfl,
    showWord_frame o _ 53 o.mip (by decide) rfl,
    showWord_frame o _ 57 o.mstatus (by decide) rfl,
    showWord_frame o _ 61 o.mie (by decide) rfl,
    showWord_frame o _ 65 o.csrData (by decide) rfl]
  unfold bits reportLines
  simp only [List.append_assoc, List.singleton_append]
  rfl

theorem report_iff (o : DebugOutputs) :
    showData (frame o) = .ok (report o) ↔ o.clockSelect ≠ 3 := by
  rw [← bitsRow_iff, showData_lines, report]
  constructor
  · intro h
    exact congrArg (·.getD 20 []) (Except.ok.inj h)
  · intro h
    rw [h]

/-- **The frame is decoded to the values** if and only if the clock has one of its settings. -/
theorem showData_frame_iff (o : DebugOutputs) :
    (showData (frame o) = .ok (report o) ↔ o.clockSelect ≠ 3) ∧
      ∀ p ∈ controls o, ∃ col, heading col = p.1.toList ∧ (controlRow o).getD col ' ' = p.2 :=
  ⟨report_iff o, fun _ hp => under_heading hp⟩

/-- Outputs with an interrupt in progress. -/
def interrupted (sel : BitVec 2) : DebugOutputs where
  matState := 3
  vectorState := 4
  irState := 29
  cpuClock := true
  ready := true
  halt := false
  cmToIrLd := true
  cmToPcLd := false
  cmToPcpLd := true
  cmToMemRd := true
  cmToAluLd := true
  pcOut := 0x00000404
  irOut := 0x30200073
  pcPriorOut := 0x00000400
  aMuxOut := 0x12345678
  bMuxOut := 0x9ABCDEF0
  immExtOut := 0xFFFFFFFC
  addrMuxToPmmu := 0x00000404
  cmToMdrLd := true
  cmToRgWr := true
  cmToMemWr := true
  cmToAluFlagsLd := true
  cmToAddrSrc := false
  cmToRsaLd := true
  ioWr := true
  takeBranch := false
  wdSrcOut := 0x000000FF
  cmToPcSrc := 1
  cmToWdSrc := 2
  aluFlagsCm := 0b1001
  dataOut := 0x3A
  clockSelect := sel
  irqTriggered := true
  interruptInProgress := true
  irqPending := false
  writeCsr := false
  isCsrInstr := true
  irqResetTrigger := false
  mdrOut := 0x00000001
  aluOut := 0x00000408
  mepc := 0x00000100
  mip := 0x00000800
  mstatus := 0x00000080
  mie := 0x00000800
  csrData := 0x00000800

/-- A fourth setting would be shown as the first one. -/
theorem showData_clock_three : showData (frame (interrupted 3)) ≠ .ok (report (interrupted 3)) :=
  fun h => (report_iff (interrupted 3)).mp h rfl

end RangerRisc.Status
