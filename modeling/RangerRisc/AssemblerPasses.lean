import Mathlib.Data.List.DropRight
import RangerRisc.Assemblers

/-! `tools/gen-instr/assembler/main.go`: the scanner, and the two passes over the lines that it
delivers. The first pass gives each label an address, the second one gathers the lines of each
label's section. A file is the list of its lines; encoding the gathered lines and writing the files
is left out. -/

namespace RangerRisc.Assembler

open Numeral Regexp

/-! ## The scanner -/

/-- `bufio.MaxScanTokenSize` -/
def maxScanTokenSize : ℕ := 64 * 1024

/-- `len(line)`, the bytes of its UTF-8. -/
def byteLength (line : Text) : ℕ := (line.map Char.utf8Size).sum

/-- The buffer of the scanner holds the line. -/
def Fits (line : Text) : Prop := byteLength line < maxScanTokenSize

instance : DecidablePred Fits := fun _ => inferInstanceAs (Decidable (_ < _))

/-- `dropCR` of `bufio`: one carriage return at the end does not belong to the line. -/
def dropCR (line : Text) : Text := if line.getLast? = some '\r' then line.dropLast else line

/-- What `Scan` and `Text` deliver of a file. The first line that does not fit stops the scanner for
good, and its error is never asked for. -/
def scan (file : List Text) : List Text := (file.takeWhile fun line => Fits line).map dropCR

/-! ## Lines -/

/-- `[0-9a-zA-Z]` -/
def isAlnum (c : Char) : Bool := isDecimal c || isLower c || ('A' ≤ c && c ≤ 'Z')
/-- `[0-9a-zA-z]`, which has the characters between `Z` and `a` too. -/
def isRawDigit (c : Char) : Bool := isDecimal c || isLower c || ('A' ≤ c && c ≤ 'z')
/-- `[@$]` -/
def isMark (c : Char) : Bool := c == '@' || c == '$'

/-- `([0-9a-zA-Z]*): [@$]([0-9a-zA-Z]*)` -/
def labelExpr : Pattern :=
  [(star isAlnum).capture, one ':', one ' ', ⟨isMark, 1, some 1, false⟩, (star isAlnum).capture]

/-- `([ ]*)d: ([0-9a-zA-z]+)` -/
def rawExpr : Pattern :=
  [(star isBlank).capture, one 'd', one ':', one ' ', (plus isRawDigit).capture]

/-- `([ ]*)@: ([\w]+)` -/
def addRefExpr : Pattern := [(star isBlank).capture, one '@', one ':', one ' ', word]

/-- `([\/\/]{2})` -/
def slashes : Item := ⟨fun c => c == '/', 2, some 2, true⟩

/-- `([ ]*)[ ]*([\/\/]{2})`, at the beginning of the line. -/
def commentLineExp : Pattern := [(star isBlank).capture, star isBlank, slashes]

def isComment (line : Text) : Bool := (matchAt commentLineExp line).isSome

/-- The label and the address of a label line. -/
def matchLabel (line : Text) : Except Error (Text × Text) :=
  let fields := findStringSubmatch labelExpr line
  if 0 < fields.length then .ok (fields.getD 1 [], fields.getD 2 [])
  else .error (.message "not a Label line".toList)

def matchRaw (line : Text) : Option Text :=
  let fields := findStringSubmatch rawExpr line
  if 0 < fields.length then some (fields.getD 2 []) else none

/-- `labels`, the latest entry first. -/
abbrev LabelMap := List (Text × Text)

def matchAddrRef (line : Text) (labels : LabelMap) : Except Error (Option Text) :=
  let fields := findStringSubmatch addRefExpr line
  if 0 < fields.length then
    match labels.lookup (fields.getD 2 []) with
    | some addr => .ok (some addr)
    | none => .error (.message "label not found".toList)
  else .ok none

/-- `strings.Trim(line, " ")` -/
def trim (line : Text) : Text := (line.dropWhile isBlank).rdropWhile isBlank

/-! ## First pass -/

/-- The error of the conversion is dropped, and its value is then 0. -/
def byteAddrToWordAddrString (wrdAddr : Text) : Text :=
  let hint := match stringHexToInt wrdAddr with
    | .ok v => v
    | .error _ => 0
  uintToHexString (hint.sdiv 4) false

structure FindLabels where
  pc : BitVec 64
  labels : LabelMap
  labelNames : List Text
  deriving DecidableEq

/-- The word address of a label: the current `pc` unless the line has one, and a fourth of it
if there is a `$` anywhere in the line. -/
def labelAddr (line addr : Text) (pc : BitVec 64) : Text :=
  let addr := if addr = [] then uintToHexString pc false else addr
  if contains "$".toList line then byteAddrToWordAddrString addr else addr

def findLabel (s : FindLabels) (line : Text) : Except Error FindLabels :=
  if line.length = 0 then .ok s
  else if isComment line then .ok s
  else
    match matchLabel line with
    | .ok (label, addr) => do
      let addr := labelAddr line addr s.pc
      let value ← stringHexToInt addr
      .ok ⟨value, (label, addr) :: s.labels, s.labelNames ++ [label]⟩
    | .error _ => .ok { s with pc := s.pc + 1 }

/-- A conversion that fails is fatal. -/
def findLabels (lines : List Text) : Except Error FindLabels := lines.foldlM findLabel ⟨0, [], []⟩

/-! ## Second pass -/

inductive LineType where
  | data
  | addrRef
  | instruction
  deriving DecidableEq, Repr

structure MachineLine where
  line : Text
  ltype : LineType
  addr : Text
  value : Text
  deriving DecidableEq

/-- What the second pass does with a line. -/
inductive Action where
  | skip
  | emit (ltype : LineType) (value : Text)
  | finish

/-- `line` is trimmed. The second character of a lone slash is out of range. -/
def sectionLine (labels : LabelMap) (startLabel endLabel line : Text) : Except Error Action :=
  if line.length = 0 then .ok .skip
  else if line = ['/'] then .error .indexOutOfRange
  else if ['/', '/'] <+: line then .ok .skip
  else
    match matchRaw line with
    | some v => .ok (.emit .data v)
    | none =>
      match matchAddrRef line labels with
      | .error e => .error e
      | .ok (some v) => .ok (.emit .addrRef (wordAddrToByteAddrString v))
      | .ok none =>
        let label := match matchLabel line with
          | .ok (label, _) => label
          | .error _ => []
        if label ≠ [] ∧ label = startLabel then .ok .skip
        else if label ≠ [] ∧ label = endLabel then .ok .finish
        else .ok (.emit .instruction [])

/-- The loop of `processSection`: the lines of the section, and what the scanner has left. -/
def scanSection (labels : LabelMap) (startLabel endLabel : Text) :
    BitVec 64 → List Text → Except Error (List MachineLine × List Text)
  | _, [] => .ok ([], [])
  | pc, line :: rest => do
    match ← sectionLine labels startLabel endLabel (trim line) with
    | .skip => scanSection labels startLabel endLabel pc rest
    | .finish => .ok ([], rest)
    | .emit ltype value => do
      let (lines, left) ← scanSection labels startLabel endLabel (pc + 1) rest
      .ok (⟨trim line, ltype, uintToHexString pc false, value⟩ :: lines, left)

structure Section where
  label : Text
  lines : List MachineLine
  deriving DecidableEq

/-- The address that the first pass recorded for a label. -/
def address (labels : LabelMap) (label : Text) : Except Error (BitVec 64) :=
  stringHexToInt ((labels.lookup label).getD [])

def processSection (labels : LabelMap) (startLabel endLabel : Text) (lines : List Text) :
    Except Error (Section × List Text) := do
  let pc ← address labels startLabel
  let (sectLines, left) ← scanSection labels startLabel endLabel pc lines
  .ok (⟨startLabel, sectLines⟩, left)

/-- The sections of `main`, which share one scanner. The last one has no end label. -/
def sections (labels : LabelMap) : List Text → List Text → Except Error (List Section)
  | [], _ => .error .indexOutOfRange
  | [label], lines => do
    let (sect, _) ← processSection labels label [] lines
    .ok [sect]
  | startLabel :: endLabel :: labelNames, lines => do
    let (sect, left) ← processSection labels startLabel endLabel lines
    let sects ← sections labels (endLabel :: labelNames) left
    .ok (sect :: sects)

end RangerRisc.Assembler
