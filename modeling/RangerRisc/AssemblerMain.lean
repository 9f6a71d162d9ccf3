import RangerRisc.AssemblerPasses
import RangerRisc.Lib.Json

/-! `tools/gen-instr/assembler/main.go` from the gathered lines on: an instruction is rewritten, put
into a context and encoded, and every line gives the RAM file an address and a word. The text of
the two files that are written is left out. -/

namespace RangerRisc.Assembler

open Numeral Regexp

/-- `labels[label]` -/
def labelValue (labels : LabelMap) (label : Text) : Text := (labels.lookup label).getD []

/-! ## Operands of loads and stores -/

/-- `[x0-9]` -/
def isNumbered (c : Char) : Bool := c == 'x' || isDecimal c

/-- `([\w]+) ([x0-9]+),[ ]*`, an operand, and `([+]*)([0-9]*)`. -/
def operandExpr (operand : Pattern) : Pattern :=
  [word, one ' ', (plus isNumbered).capture] ++ comma ++ operand ++
    [(star fun c => c == '+').capture, (star isDecimal).capture]

def calcExpr : Pattern := operandExpr [(plus fun c => isWord c || c == '@').capture]
def baseExpr : Pattern := operandExpr [word]
def refExpr : Pattern := operandExpr [one '@', word]

/-- `@([\w]+)` -/
def branchRefExpr : Pattern := [one '@', word]

def calcSum (base offset : Text) : Except Error Text := do
  let base ← stringHexToInt base
  let offset ← stringHexToInt offset
  return uintToHexString (base + offset) true

/-- The operand of a load or a store, empty if there is nothing to rewrite. -/
def resolveOperand (ass : Text) (labels : LabelMap) : Except Error Text :=
  if (findStringSubmatch calcExpr ass).length = 0 then .ok []
  else
    let fields := findStringSubmatch baseExpr ass
    if 0 < fields.length then do
      if (← field fields 4) ≠ [] then calcSum (← field fields 3) (← field fields 5)
      else return labelValue labels (← field fields 3)
    else do
      let fields := findStringSubmatch refExpr ass
      let plus ← field fields 4
      let value := labelValue labels (← field fields 3)
      let value ← if plus ≠ [] then calcSum value (← field fields 5) else .ok value
      return wordAddrToByteAddrString value

/-- The target of a branch, which is not a path that is taken. -/
def resolveBranch (ass : Text) (labels : LabelMap) : Except Error Text :=
  let fields := findStringSubmatch branchRefExpr ass
  if fields.length = 0 then .error (.message "branch label required".toList)
  else do
    let value := labelValue labels (← field fields 1)
    let bad ← stringHexToInt (wordAddrToByteAddrString value)
    return uintToHexString bad true

def resolveCalc (instruction ass : Text) (labels : LabelMap) : Except Error Text :=
  match String.ofList instruction with
  | "lb" | "lh" | "lw" | "lbu" | "lhu" | "sb" | "sh" | "sw" => resolveOperand ass labels
  | "beq" | "bne" | "blt" | "bge" | "bltu" | "bgeu" => resolveBranch ass labels
  | _ => .ok []

/-- The line with another operand. -/
def replaceOperand (ass value : Text) : Except Error Text :=
  if value = [] then .ok ass
  else do
    let lFields := findStringSubmatch loadsExpr ass
    return (← field lFields 1) ++ " ".toList ++ (← field lFields 2) ++ ", ".toList ++ value ++
      "(".toList ++ (← field lFields 4) ++ ")".toList

def rewrite (instruction ass : Text) (labels : LabelMap) : Except Error Text :=
  match String.ofList instruction with
  | "lb" | "lh" | "lw" | "lbu" | "lhu" | "sb" | "sh" | "sw" => do
    let value ← resolveCalc instruction ass labels
    replaceOperand ass value
  | _ => .ok ass

/-! ## Labels -/

def getFields (instruction ass : Text) : List Text :=
  match String.ofList instruction with
  | "jal" => findStringSubmatch jalExpr ass
  | "jalr" => findStringSubmatch jalrExpr ass
  | "beq" | "bne" | "blt" | "bge" | "bltu" | "bgeu" => findStringSubmatch branchExpr ass
  | "lb" | "lh" | "lw" | "lbu" | "lhu" => findStringSubmatch loadsExpr ass
  | _ => []

def getLabel (instruction ass : Text) : Except Error Text :=
  let fields := getFields instruction ass
  if fields.length = 0 then
    .error (.message ("no fields found for instruction: ".toList ++ instruction))
  else
    match String.ofList instruction with
    | "jal" | "jalr" => field fields 3
    | "beq" | "bne" | "blt" | "bge" | "bltu" | "bgeu" => field fields 4
    | "lb" | "lh" | "lw" | "lbu" | "lhu" => field fields 3
    | _ => .error (.message ("unknown instruction: ".toList ++ instruction))

/-- A label that is not recorded has an empty value. -/
def getLabelRef (instruction ass : Text) (labels : LabelMap) : Except Error (Text × Text) := do
  let label ← getLabel instruction ass
  return (label, labelValue labels label)

/-- The error is dropped. -/
def labelRef (instruction ass : Text) (labels : LabelMap) : Text × Text :=
  match getLabelRef instruction ass labels with
  | .ok ref => ref
  | .error _ => ([], [])

/-! ## Contexts -/

/-- `sort` by the keys of a map. -/
def sortKeys (members : List (Text × Text)) : List (Text × Text) :=
  members.mergeSort fun m m' => !(decide (m'.1 < m.1))

mutual

/-- `%s` of a value inside of another one. A number stands as it was written. -/
def sprintInner : Json.Value → Text
  | .null => "<nil>".toList
  | .bool b => "%!s(bool=".toList ++ (if b then "true".toList else "false".toList) ++ ")".toList
  | .number t => "%!s(float64=".toList ++ t ++ ")".toList
  | .string s => s
  | .array vs => "[".toList ++ [' '].intercalate (sprintValues vs) ++ "]".toList
  | .object ms =>
    let ms := (sprintMembers ms).pwFilter fun m m' => m.1 ≠ m'.1
    "map[".toList ++ [' '].intercalate ((sortKeys ms).map fun m => m.1 ++ ":".toList ++ m.2) ++
      "]".toList

def sprintValues : List Json.Value → List Text
  | [] => []
  | v :: vs => sprintInner v :: sprintValues vs

def sprintMembers : List (Text × Json.Value) → List (Text × Text)
  | [] => []
  | (key, v) :: ms => (key, sprintInner v) :: sprintMembers ms

end

/-- `fmt.Sprintf("%s", v)` -/
def sprint : Json.Value → Text
  | .null => "%!s(<nil>)".toList
  | v => sprintInner v

def readLabels : Json.Value → Labels
  | .array vs => vs.filterMap fun v =>
    match v with
    | .object ms => some (ms.reverse.map fun m => (m.1, sprint m.2))
    | _ => none
  | _ => []

/-- `ctx` -/
def contextText (ass pc label value : Text) : Text :=
  "\x7b".toList ++ "\"Assembly\":\"".toList ++ ass ++ "\",".toList ++ "\"PC\":\"".toList ++ pc ++
    "\",".toList ++ "\"Labels\": [\x7b\"".toList ++ label ++ "\":\"".toList ++ value ++
    "\"\x7d]".toList ++ "\x7d".toList

/-- The error of the conversion is dropped, and the map is then `nil`. -/
def createContext (ass pc label value : Text) : Context :=
  match Json.parse (contextText ass pc label value) with
  | some (.object ms) =>
    let get key := (Json.member key ms).getD .null
    ⟨sprint (get "Assembly".toList), sprint (get "PC".toList), readLabels (get "Labels".toList)⟩
  | _ => ⟨sprint .null, sprint .null, []⟩

/-! ## Assembling -/

/-- `([a-z]+)` -/
def instrExpr : Pattern := [mnemonic]

/-- A machine line with its `code`. -/
structure CodedLine where
  line : MachineLine
  code : Text
  deriving DecidableEq

def assemble (labels : LabelMap) (mcLine : MachineLine) : Except Error CodedLine :=
  match mcLine.ltype with
  | .data | .addrRef => .ok ⟨mcLine, []⟩
  | .instruction => do
    let instruction ← field (findStringSubmatch instrExpr mcLine.line) 1
    let line ← rewrite instruction mcLine.line labels
    let ref := labelRef instruction line labels
    let context := createContext line (wordAddrToByteAddrString mcLine.addr) ref.1 ref.2
    let macCode ← dispatch instruction context
    return ⟨{ mcLine with line := line }, macCode⟩

/-- The address and the word that the RAM file has for a line. -/
def ramWord (l : CodedLine) : Text × Text :=
  match l.line.ltype with
  | .data | .addrRef => (l.line.addr, l.line.value)
  | .instruction => (l.line.addr, l.code)

/-- What `main` makes of a file. -/
structure Assembly where
  found : FindLabels
  sections : List Section
  lines : List CodedLine
  deriving DecidableEq

def Assembly.ramFile (a : Assembly) : List (Text × Text) := a.lines.map ramWord

def assembleLines (lines : List Text) : Except Error Assembly := do
  let found ← findLabels lines
  let sects ← sections found.labels found.labelNames lines
  let coded ← (sects.flatMap Section.lines).mapM (assemble found.labels)
  return ⟨found, sects, coded⟩

/-- The file is read twice, by two scanners that deliver the same. -/
def assembleFile (file : List Text) : Except Error Assembly := assembleLines (scan file)

/-- A source of one section. -/
def oneLine (line : Text) : List Text := ["Main: @0".toList, line]

def oneLineFound : FindLabels := ⟨1, [("Main".toList, "0".toList)], ["Main".toList]⟩

/-! ## Plain lines -/

def Plain (t : Text) : Prop := ∀ c ∈ t, Json.isPlain c = true

theorem plain_append {s t : Text} (hs : Plain s) (ht : Plain t) : Plain (s ++ t) := by
  intro c hc
  rcases List.mem_append.mp hc with h | h
  · exact hs c h
  · exact ht c h

section Plain
variable {ass pc label value : Text}

/-- The array of labels. -/
theorem readValue_labels (hlabel : Plain label) (hvalue : Plain value) (n : ℕ) (rest : Text) :
    Json.readValue (n + 4) (' ' :: '[' :: '\x7b' :: '"' :: (label ++ '"' :: ':' :: '"' ::
      (value ++ '"' :: '\x7d' :: ']' :: rest))) =
        some (.array [.object [(label, .string value)]], rest) := by
  have hstring : Json.readValue (n + 2) ('"' :: (value ++ '"' :: '\x7d' :: ']' :: rest)) =
      some (.string value, '\x7d' :: ']' :: rest) := Json.readValue_string hvalue (n + 1)
  have hmembers := Json.readMembers_last (Json.readValue (n + 2)) hlabel hstring (n + 1)
  have hobject : Json.readValue (n + 3) ('\x7b' :: '"' :: (label ++ '"' :: ':' :: '"' ::
      (value ++ '"' :: '\x7d' :: ']' :: rest))) =
        some (.object [(label, .string value)], ']' :: rest) := by
    rw [Json.readValue]
    show (Json.readMembers _ _ _).map _ = _
    rw [hmembers]
    rfl
  have helements := Json.readElements_last (Json.readValue (n + 3)) hobject (n + 2)
  rw [Json.readValue]
  show (Json.readElements _ _ _).map _ = _
  rw [helements]
  rfl

/-- The context with its strings in quotes. -/
theorem contextText_eq (ass pc label value : Text) :
    contextText ass pc label value = '\x7b' :: '"' :: ("Assembly".toList ++ '"' :: ':' ::
      '"' :: (ass ++ '"' :: ',' :: '"' :: ("PC".toList ++ '"' :: ':' :: '"' :: (pc ++ '"' :: ',' ::
      '"' :: ("Labels".toList ++ '"' :: ':' :: ' ' :: '[' :: '\x7b' :: '"' :: (label ++ '"' ::
      ':' :: '"' :: (value ++ '"' :: '\x7d' :: ']' :: ['\x7d']))))))) := by
  have hassembly : "\"Assembly\":\"".toList =
      '"' :: ("Assembly".toList ++ ['"', ':', '"']) := by decide
  have hpc : "\"PC\":\"".toList = '"' :: ("PC".toList ++ ['"', ':', '"']) := by decide
  have hlabels : "\"Labels\": [\x7b\"".toList =
      '"' :: ("Labels".toList ++ ['"', ':', ' ', '[', '\x7b', '"']) := by decide
  have hcolon : "\":\"".toList = ['"', ':', '"'] := by decide
  have hcomma : "\",".toList = ['"', ','] := by decide
  have hend : "\"\x7d]".toList = ['"', '\x7d', ']'] := by decide
  have hopen : "\x7b".toList = ['\x7b'] := by decide
  have hclose : "\x7d".toList = ['\x7d'] := by decide
  delta contextText
  rw [hassembly, hpc, hlabels, hcolon, hcomma, hend, hopen, hclose]
  generalize "Assembly".toList = assemblyKey
  generalize "PC".toList = pcKey
  generalize "Labels".toList = labelsKey
  simp only [List.append_assoc, List.cons_append, List.nil_append]

theorem parse_contextText (hass : Plain ass) (hpc : Plain pc) (hlabel : Plain label)
    (hvalue : Plain value) :
    Json.parse (contextText ass pc label value) = some (.object
      [("Assembly".toList, .string ass), ("PC".toList, .string pc),
        ("Labels".toList, .array [.object [(label, .string value)]])]) := by
  have hplain : Plain "Assembly".toList ∧ Plain "PC".toList ∧ Plain "Labels".toList :=
    ⟨List.all_eq_true.mp rfl, List.all_eq_true.mp rfl, List.all_eq_true.mp rfl⟩
  have htext := contextText_eq ass pc label value
  obtain ⟨n, hn⟩ : ∃ n, (contextText ass pc label value).length = n + 5 := by
    rw [htext]
    exact ⟨_, rfl⟩
  have hstring : ∀ {t : Text}, Plain t → ∀ rest, Json.readValue (n + 5) ('"' :: (t ++ '"' :: ',' ::
      rest)) = some (.string t, ',' :: rest) := fun ht rest => Json.readValue_string ht (n + 4)
  have hlabels := Json.readMembers_last (Json.readValue (n + 5)) hplain.2.2
    (readValue_labels hlabel hvalue (n + 1) ['\x7d']) (n + 2)
  have hpcs := fun rest =>
    Json.readMembers_cons (Json.readValue (n + 5)) hplain.2.1 (hstring hpc rest) (n + 3)
  have hall := fun rest =>
    Json.readMembers_cons (Json.readValue (n + 5)) hplain.1 (hstring hass rest) (n + 4)
  have hvalue : Json.readValue (n + 6) (contextText ass pc label value) = some (.object
      [("Assembly".toList, .string ass), ("PC".toList, .string pc),
        ("Labels".toList, .array [.object [(label, .string value)]])], []) := by
    rw [htext, Json.readValue]
    show (Json.readMembers _ _ _).map _ = _
    rw [hall, hpcs, hlabels]
    rfl
  rw [Json.parse, hn, hvalue]
  rfl

/-- **A plain line is handed on as it is.** -/
theorem createContext_plain (hass : Plain ass) (hpc : Plain pc) (hlabel : Plain label)
    (hvalue : Plain value) : createContext ass pc label value = ⟨ass, pc, [[(label, value)]]⟩ := by
  rw [createContext, parse_contextText hass hpc hlabel hvalue]
  rfl

end Plain

end RangerRisc.Assembler
