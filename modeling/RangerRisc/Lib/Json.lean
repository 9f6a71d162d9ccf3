import Mathlib.Tactic.Common

/-! JSON texts and the values they stand for. Numbers are kept as they are written. -/

namespace Json

abbrev Text := List Char

inductive Value where
  | null
  | bool (b : Bool)
  | number (text : Text)
  | string (s : Text)
  | array (vs : List Value)
  | object (members : List (Text × Value))

def isSpace (c : Char) : Bool := c == ' ' || c == '\t' || c == '\n' || c == '\r'

def skip (s : Text) : Text := s.dropWhile isSpace

/-! ## Strings -/

def hexDigit (c : Char) : Option ℕ :=
  if '0' ≤ c ∧ c ≤ '9' then some (c.toNat - '0'.toNat)
  else if 'a' ≤ c ∧ c ≤ 'f' then some (c.toNat - 'a'.toNat + 10)
  else if 'A' ≤ c ∧ c ≤ 'F' then some (c.toNat - 'A'.toNat + 10)
  else none

/-- The code unit of `\uabcd`. -/
def codeUnit (a b c d : Char) : Option ℕ := do
  some (4096 * (← hexDigit a) + 256 * (← hexDigit b) + 16 * (← hexDigit c) + (← hexDigit d))

def escape (c : Char) : Option Char :=
  match c with
  | '"' => some '"'
  | '\\' => some '\\'
  | '/' => some '/'
  | 'b' => some (Char.ofNat 8)
  | 'f' => some (Char.ofNat 12)
  | 'n' => some '\n'
  | 'r' => some '\r'
  | 't' => some '\t'
  | _ => none

/-- What is left of a string behind its first quote: its characters and code units, and the text
behind the second quote. No control character may stand in it. -/
def readUnits : Text → Option (List (Char ⊕ ℕ) × Text)
  | [] => none
  | '"' :: s => some ([], s)
  | '\\' :: 'u' :: a :: b :: c :: d :: s => do
    let u ← codeUnit a b c d
    let (us, rest) ← readUnits s
    some (.inr u :: us, rest)
  | '\\' :: e :: s => do
    let c ← escape e
    let (us, rest) ← readUnits s
    some (.inl c :: us, rest)
  | c :: s =>
    if c.toNat < 32 then none
    else do
      let (us, rest) ← readUnits s
      some (.inl c :: us, rest)

def isSurrogate (u : ℕ) : Bool := 0xD800 ≤ u && u < 0xE000

/-- Two code units that are one character, which is none of the first plane. -/
def pair (u v : ℕ) : Option Char :=
  if 0xD800 ≤ u ∧ u < 0xDC00 ∧ 0xDC00 ≤ v ∧ v < 0xE000 then
    some (Char.ofNat (0x10000 + (u - 0xD800) * 0x400 + (v - 0xDC00)))
  else none

/-- A surrogate without its other half is replaced. -/
def join : List (Char ⊕ ℕ) → Text
  | [] => []
  | .inl c :: us => c :: join us
  | .inr u :: .inr v :: us =>
    match pair u v with
    | some c => c :: join us
    | none => (if isSurrogate u then Char.ofNat 0xFFFD else Char.ofNat u) :: join (.inr v :: us)
  | .inr u :: us => (if isSurrogate u then Char.ofNat 0xFFFD else Char.ofNat u) :: join us

def readString (s : Text) : Option (Text × Text) :=
  (readUnits s).map fun (us, rest) => (join us, rest)

/-! ## Numbers -/

def isDigit (c : Char) : Bool := '0' ≤ c && c ≤ '9'

def isNumberChar (c : Char) : Bool :=
  isDigit c || c == '-' || c == '+' || c == '.' || c == 'e' || c == 'E'

def isExponent (s : Text) : Bool :=
  match s with
  | [] => true
  | e :: s =>
    let ds := match s with
      | '+' :: ds => ds
      | '-' :: ds => ds
      | ds => ds
    (e == 'e' || e == 'E') && ds ≠ [] && ds.all isDigit

def isFraction (s : Text) : Bool :=
  match s with
  | '.' :: s => s.takeWhile isDigit ≠ [] && isExponent (s.dropWhile isDigit)
  | s => isExponent s

def isNumber (s : Text) : Bool :=
  let s := match s with
    | '-' :: s => s
    | s => s
  let int := s.takeWhile isDigit
  int ≠ [] && (int.head? ≠ some '0' || int.length == 1) && isFraction (s.dropWhile isDigit)

def readNumber (s : Text) : Option (Text × Text) :=
  let run := s.takeWhile isNumberChar
  if isNumber run then some (run, s.dropWhile isNumberChar) else none

/-! ## Values -/

section Compound
variable (value : Text → Option (Value × Text))

/-- The elements of an array behind its bracket; there is one at least. -/
def readElements : ℕ → Text → Option (List Value × Text)
  | 0, _ => none
  | n + 1, s => do
    let (v, s) ← value s
    match skip s with
    | ',' :: s => do
      let (vs, s) ← readElements n s
      some (v :: vs, s)
    | ']' :: s => some ([v], s)
    | _ => none

def readMembers : ℕ → Text → Option (List (Text × Value) × Text)
  | 0, _ => none
  | n + 1, s =>
    match skip s with
    | '"' :: s => do
      let (key, s) ← readString s
      match skip s with
      | ':' :: s => do
        let (v, s) ← value s
        match skip s with
        | ',' :: s => do
          let (ms, s) ← readMembers n s
          some ((key, v) :: ms, s)
        | '}' :: s => some ([(key, v)], s)
        | _ => none
      | _ => none
    | _ => none

end Compound

def literal (word : Text) (v : Value) (s : Text) : Option (Value × Text) :=
  if word.isPrefixOf s then some (v, s.drop word.length) else none

/-- A value and the text behind it. The first argument bounds the depth, and the elements of each
array and object. -/
def readValue : ℕ → Text → Option (Value × Text)
  | 0, _ => none
  | n + 1, s =>
    match skip s with
    | '"' :: s => (readString s).map fun (t, rest) => (.string t, rest)
    | '[' :: s =>
      match skip s with
      | ']' :: s => some (.array [], s)
      | _ => (readElements (readValue n) n s).map fun (vs, rest) => (.array vs, rest)
    | '{' :: s =>
      match skip s with
      | '}' :: s => some (.object [], s)
      | _ => (readMembers (readValue n) n s).map fun (ms, rest) => (.object ms, rest)
    | 't' :: s => literal "true".toList (.bool true) ('t' :: s)
    | 'f' :: s => literal "false".toList (.bool false) ('f' :: s)
    | 'n' :: s => literal "null".toList .null ('n' :: s)
    | s => (readNumber s).map fun (t, rest) => (.number t, rest)

/-- The value of a text, with white space around it. -/
def parse (s : Text) : Option Value := do
  let (v, rest) ← readValue (s.length + 1) s
  if skip rest = [] then some v else none

/-- The value of a member; of several with one name the last counts. -/
def member (key : Text) (members : List (Text × Value)) : Option Value := members.reverse.lookup key

/-! ## Plain strings -/

/-- What stands for itself in a string. -/
def isPlain (c : Char) : Bool := c ≠ '"' && c ≠ '\\' && 32 ≤ c.toNat

theorem readUnits_plain {s : Text} (h : ∀ c ∈ s, isPlain c = true) (rest : Text) :
    readUnits (s ++ '"' :: rest) = some (s.map .inl, rest) := by
  induction s with
  | nil => rfl
  | cons c s ih =>
    have hc := h c List.mem_cons_self
    simp only [isPlain, Bool.and_eq_true, decide_eq_true_eq] at hc
    have hstep : readUnits (c :: (s ++ '"' :: rest)) =
        (readUnits (s ++ '"' :: rest)).map fun (us, rest) => (.inl c :: us, rest) := by
      rw [readUnits.eq_def]
      split <;> simp_all
    rw [List.cons_append, hstep, ih fun c' hc' => h c' (List.mem_cons_of_mem c hc')]
    rfl

theorem join_map_inl (s : Text) : join (s.map .inl) = s := by
  induction s with
  | nil => rfl
  | cons c s ih => rw [List.map_cons, join, ih]

/-- **A plain string is read as it is.** -/
theorem readString_plain {s : Text} (h : ∀ c ∈ s, isPlain c = true) (rest : Text) :
    readString (s ++ '"' :: rest) = some (s, rest) := by
  rw [readString, readUnits_plain h]
  simp only [Option.map_some, join_map_inl]

section Reading
variable (value : Text → Option (Value × Text)) {v : Value} {s key rest : Text}

theorem readValue_string (h : ∀ c ∈ s, isPlain c = true) (n : ℕ) :
    readValue (n + 1) ('"' :: (s ++ '"' :: rest)) = some (.string s, rest) := by
  have hstring := readString_plain h rest
  rw [readValue]
  show (readString (s ++ '"' :: rest)).map _ = _
  rw [hstring]
  rfl

/-- A member with others behind it. -/
theorem readMembers_cons (hkey : ∀ c ∈ key, isPlain c = true) (hv : value s = some (v, ',' :: rest))
    (n : ℕ) : readMembers value (n + 1) ('"' :: (key ++ '"' :: ':' :: s)) =
      (readMembers value n rest).map fun (ms, rest) => ((key, v) :: ms, rest) := by
  have hstring := readString_plain hkey (':' :: s)
  rw [readMembers]
  show (readString (key ++ '"' :: ':' :: s) >>= _) = _
  rw [hstring]
  show (value s >>= _) = _
  rw [hv]
  show (readMembers value n rest >>= _) = _
  cases readMembers value n rest <;> rfl

/-- The last member. -/
theorem readMembers_last (hkey : ∀ c ∈ key, isPlain c = true) (hv : value s = some (v, '}' :: rest))
    (n : ℕ) : readMembers value (n + 1) ('"' :: (key ++ '"' :: ':' :: s)) =
      some ([(key, v)], rest) := by
  have hstring := readString_plain hkey (':' :: s)
  rw [readMembers]
  show (readString (key ++ '"' :: ':' :: s) >>= _) = _
  rw [hstring]
  show (value s >>= _) = _
  rw [hv]
  rfl

theorem readElements_last (hv : value s = some (v, ']' :: rest)) (n : ℕ) :
    readElements value (n + 1) s = some ([v], rest) := by
  rw [readElements, hv]
  rfl

end Reading

end Json
