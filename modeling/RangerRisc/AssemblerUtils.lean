import RangerRisc.Lib.Numeral
import RangerRisc.Lib.Regexp

/-! `tools/gen-instr/utils`: `formats.go`, `bits.go` and `json_utils.go`, with what they use
of `strconv`, `strings` and `fmt`. An `int64` is a `BitVec 64`; a byte array of zeros and
ones is a list of bits. -/

namespace RangerRisc.Assembler

open Numeral

abbrev Text := Regexp.Text

inductive Error where
  | errSyntax
  | errRange
  | message (text : Text)
  /-- A run-time panic, which ends the program. -/
  | indexOutOfRange
  deriving DecidableEq, Repr

/-! ## `strconv` and `strings` -/

/-- The digits in front are too many already, whatever comes behind them. -/
def overflows (b : ℕ) (s : Text) : Bool :=
  match value b (s.takeWhile fun c => (digit b c).isSome) with
  | some n => 2 ^ 64 ≤ n
  | none => false

def parseUint (b : ℕ) (s : Text) : Except Error (BitVec 64) :=
  match value b s with
  | some n => if n < 2 ^ 64 then .ok (BitVec.ofNat 64 n) else .error .errRange
  | none => .error (if overflows b s then .errRange else .errSyntax)

def parseUnsigned (b : ℕ) (s : Text) : Except Error (BitVec 64) := do
  let un ← parseUint b s
  if 2 ^ 63 ≤ un.toNat then .error .errRange else .ok un

def parseInt (b : ℕ) (s : Text) : Except Error (BitVec 64) :=
  match s with
  | '-' :: s => do
    let un ← parseUint b s
    if 2 ^ 63 < un.toNat then .error .errRange else .ok (-un)
  | '+' :: s => parseUnsigned b s
  | s => parseUnsigned b s

/-- `strings.Replace(s, old, new, 1)`, for a nonempty `old`. -/
def replaceOnce (old new : Text) : Text → Text
  | [] => []
  | c :: s =>
    if old.isPrefixOf (c :: s) then new ++ (c :: s).drop old.length
    else c :: replaceOnce old new s

/-- `strings.Contains`, for a nonempty `sub`. -/
def contains (sub : Text) : Text → Bool
  | [] => false
  | c :: s => sub.isPrefixOf (c :: s) || contains sub s

/-! ## `bits.go` -/

def negate (arr : List Bool) : List Bool := arr.map (!·)

/-- The loop of `AddOne`, from the last element on. It ends before the first one, which
takes no carry. -/
def addCarry : Bool → List Bool → List Bool
  | c, b :: b' :: l => (if b && c then false else b || c) :: addCarry (b && c) (b' :: l)
  | _, l => l

def addOne (arr : List Bool) : List Bool := (addCarry true arr.reverse).reverse

def twosComplement (arr : List Bool) : List Bool := addOne (negate arr)

/-! ## `formats.go` -/

def stringHexToInt (hex : Text) : Except Error (BitVec 64) :=
  parseInt 16 (replaceOnce "WA:".toList [] (replaceOnce "0x".toList [] hex))

def stringRegToInt (reg : Text) : Except Error (BitVec 64) := do
  let isABI := contains "a".toList reg
  let value ← parseInt 10 (replaceOnce "a".toList [] (replaceOnce "x".toList [] reg))
  .ok (if isABI then value + 10 else value)

def uintToHexString (value : BitVec 64) (with0x : Bool) : Text :=
  (if with0x then "0x".toList else []) ++ print 16 8 value.toNat

/-- The error of the conversion is dropped, and its value is then 0. -/
def wordAddrToByteAddrString (wrdAddr : Text) : Text :=
  let hint := match stringHexToInt wrdAddr with
    | .ok v => v
    | .error _ => 0
  uintToHexString (hint * 4) false

/-- `fmt.Sprintf("%032b", value)`. -/
def sprintfBinary (value : BitVec 64) : Text :=
  if value.toInt < 0 then '-' :: print 2 31 (-value.toInt).toNat else print 2 32 value.toNat

def binaryArrayToString (binary : List Bool) (reverse : Bool) : Text :=
  (if reverse then binary.reverse else binary).map fun b => digitChar b.toNat

def binaryStringToArray (value : Text) : List Bool := value.map (· != '0')

def intToBinaryString (value : BitVec 64) : Text :=
  if 0 ≤ value.toInt then sprintfBinary value
  else
    binaryArrayToString (twosComplement (binaryStringToArray (sprintfBinary (-value)))) false

def binaryStringToHexString (binary : Text) (with0x : Bool) : Text :=
  match parseUint 2 binary with
  | .ok ui => uintToHexString ui with0x
  | .error _ => "error".toList

def intToBinaryArray (value : BitVec 64) : List Bool :=
  binaryStringToArray (intToBinaryString value)

/-! ## `json_utils.go` -/

/-- The maps of `json["Labels"]`, in their order. -/
abbrev Labels := List (List (Text × Text))

def findLabelValue (labels : Labels) (label : Text) : Except Error Text :=
  match labels.findSome? (·.lookup label) with
  | some val => .ok val
  | none => .error (.message ("Label '".toList ++ label ++ "' not found".toList))

/-! ## Two's complement -/

/-- An element but the last is flipped if everything before it is set; the last one stays. -/
theorem getD_addCarry (c : Bool) (l : List Bool) (i : ℕ) :
    (addCarry c l).getD i false =
      if i + 1 < l.length then l.getD i false ^^ (c && (l.take i).all id) else l.getD i false := by
  induction l generalizing c i with
  | nil => simp [addCarry]
  | cons b l ih =>
    cases l with
    | nil => simp [addCarry]
    | cons b' l =>
      rw [addCarry]
      cases i with
      | zero => cases b <;> cases c <;> simp
      | succ i =>
        have hlen : i + 1 + 1 < (b :: b' :: l).length ↔ i + 1 < (b' :: l).length := by simp
        simp only [List.getD_cons_succ, ih, List.take_succ_cons, List.all_cons, hlen]
        cases b <;> cases c <;> simp

@[simp] theorem length_addCarry (c : Bool) (l : List Bool) : (addCarry c l).length = l.length := by
  induction l generalizing c with
  | nil => rfl
  | cons b l ih =>
    cases l with
    | nil => rfl
    | cons b' l => simp [addCarry, ih]

/-- The bits of a word, from the highest down. -/
def wordBits {w : ℕ} (x : BitVec w) : List Bool := bits w x.toNat

@[simp] theorem length_bits (w n : ℕ) : (bits w n).length = w := by simp [bits]

theorem getD_wordBits {w : ℕ} (x : BitVec w) {i : ℕ} (hi : i < w) :
    (wordBits x).getD i false = x.getLsbD (w - 1 - i) := by
  have hlen : i < (bits w x.toNat).length := by rwa [length_bits]
  rw [wordBits, List.getD_eq_getElem?_getD, List.getElem?_eq_getElem hlen, Option.getD_some]
  simp [bits, BitVec.getLsbD]

theorem getD_reverse_wordBits {w : ℕ} (x : BitVec w) {i : ℕ} (hi : i < w) :
    (wordBits x).reverse.getD i false = x.getLsbD i := by
  simp [wordBits, bits, BitVec.getLsbD, hi]

theorem all_take_negate {w : ℕ} (x : BitVec w) {i : ℕ} (hi : i ≤ w) :
    ((negate (wordBits x)).reverse.take i).all id = true ↔ ∀ j < i, x.getLsbD j = false := by
  induction i with
  | zero => simp
  | succ i ih =>
    have hget : (negate (wordBits x)).reverse[i]? = some (!x.getLsbD i) := by
      simp [negate, wordBits, bits, BitVec.getLsbD, Nat.lt_of_succ_le hi]
    rw [List.take_add_one, hget, List.all_append, Bool.and_eq_true, ih (Nat.le_of_succ_le hi),
      Nat.forall_lt_succ_right]
    simp

theorem getD_reverse_negate {w : ℕ} (x : BitVec w) {i : ℕ} (hi : i < w) :
    (negate (wordBits x)).reverse.getD i false = !x.getLsbD i := by
  simp [negate, wordBits, bits, BitVec.getLsbD, hi]

/-- Every bit but the highest is one of the complement; the highest is flipped and takes no
carry. -/
theorem getD_twosComplement {w : ℕ} (x : BitVec w) {i : ℕ} (hi : i < w) :
    (twosComplement (wordBits x)).reverse.getD i false =
      if i + 1 < w then (-x).getLsbD i else !x.getLsbD i := by
  have hall := all_take_negate x (Nat.le_of_lt hi)
  have hlen : (negate (wordBits x)).reverse.length = w := by simp [negate, wordBits]
  rw [twosComplement, addOne, List.reverse_reverse, getD_addCarry, getD_reverse_negate x hi, hlen,
    BitVec.getLsbD_neg, decide_eq_true hi]
  by_cases hlast : i + 1 < w
  · rw [if_pos hlast, if_pos hlast]
    by_cases hlow : ∀ j < i, x.getLsbD j = false
    · have hnone : ¬ ∃ j < i, x.getLsbD j = true := by
        rintro ⟨j, hj, hset⟩
        rw [hlow j hj] at hset
        exact absurd hset (by decide)
      simp [hall.mpr hlow, hnone]
    · have hsome : ∃ j < i, x.getLsbD j = true := by simpa using hlow
      have hcarry : ((negate (wordBits x)).reverse.take i).all id = false :=
        Bool.eq_false_iff.mpr (fun h => hlow (hall.mp h))
      simp [hcarry, hsome]
  · rw [if_neg hlast, if_neg hlast]

@[simp] theorem length_twosComplement (arr : List Bool) :
    (twosComplement arr).length = arr.length := by
  simp [twosComplement, addOne, negate]

/-- Two arrays of one length are the same if their bits are. -/
theorem eq_wordBits_iff {w : ℕ} {l : List Bool} (hl : l.length = w) (y : BitVec w) :
    l = wordBits y ↔ ∀ i < w, l.reverse.getD i false = y.getLsbD i := by
  constructor
  · rintro rfl i hi
    exact getD_reverse_wordBits y hi
  · intro h
    have hlen : l.reverse.length = (wordBits y).reverse.length := by simp [hl, wordBits]
    apply List.reverse_injective
    apply List.ext_getElem hlen
    intro i hi hi'
    have hw : i < w := by simpa [hl] using hi
    have hget := (h i hw).trans (getD_reverse_wordBits y hw).symm
    rwa [List.getD_eq_getElem?_getD, List.getElem?_eq_getElem hi, List.getD_eq_getElem?_getD,
      List.getElem?_eq_getElem hi', Option.getD_some, Option.getD_some] at hget

/-- **Two's complement**, exactly where no carry is due in the highest bit. -/
theorem twosComplement_wordBits_iff {w : ℕ} (x : BitVec w) :
    twosComplement (wordBits x) = wordBits (-x) ↔ (0 < w → ∃ j < w - 1, x.getLsbD j = true) := by
  rw [eq_wordBits_iff (by simp [wordBits])]
  constructor
  · intro h hw
    have htop := h (w - 1) (by omega)
    rw [getD_twosComplement x (by omega), if_neg (by omega), BitVec.getLsbD_neg,
      decide_eq_true (by omega : w - 1 < w)] at htop
    by_contra hnone
    simp [hnone] at htop
  · intro h i hi
    rw [getD_twosComplement x hi]
    split
    · rfl
    · obtain rfl : i = w - 1 := by omega
      rw [BitVec.getLsbD_neg, decide_eq_true hi]
      simp [h (by omega)]

/-- The complement of a number that is neither zero nor has its highest bit set. -/
theorem twosComplement_wordBits {w : ℕ} (x : BitVec w) (hx : x ≠ 0)
    (hmsb : x.getLsbD (w - 1) = false) : twosComplement (wordBits x) = wordBits (-x) := by
  rw [twosComplement_wordBits_iff]
  intro _
  by_contra hnone
  apply hx
  apply BitVec.eq_of_getLsbD_eq
  intro j hj
  rcases Nat.lt_or_ge j (w - 1) with hlt | hge
  · simpa using fun h => hnone ⟨j, hlt, h⟩
  · rw [show j = w - 1 by omega, hmsb]
    simp

theorem binaryStringToArray_print {w n : ℕ} (hn : n < 2 ^ w) :
    binaryStringToArray (print 2 w n) = bits w n := by
  have hchar : ∀ b : Bool, (digitChar b.toNat != '0') = b := by decide
  rw [print_two hn, binaryStringToArray, List.map_map]
  exact (List.map_congr_left fun b _ => hchar b).trans (List.map_id _)

theorem binaryStringToArray_binaryArrayToString (l : List Bool) :
    binaryStringToArray (binaryArrayToString l false) = l := by
  have hchar : ∀ b : Bool, (digitChar b.toNat != '0') = b := by decide
  simp only [binaryStringToArray, binaryArrayToString, Bool.false_eq_true, if_false, List.map_map]
  exact (List.map_congr_left fun b _ => hchar b).trans (List.map_id _)

theorem toInt_ofInt_of_bounds {z : ℤ} (hlow : -2 ^ 31 ≤ z) (hhigh : z < 2 ^ 32) :
    (BitVec.ofInt 64 z).toInt = z := by
  rw [BitVec.toInt_ofInt]
  exact Int.bmod_eq_of_le (by omega) (by omega)

theorem intToBinaryString_neg {m : ℕ} (hm0 : 0 < m) (hm : m ≤ 2 ^ 31) :
    intToBinaryString (BitVec.ofInt 64 (-(m : ℤ))) =
      binaryArrayToString (twosComplement (wordBits (BitVec.ofNat 32 m))) false := by
  have hminus : -BitVec.ofInt 64 (-(m : ℤ)) = BitVec.ofNat 64 m := by
    rw [BitVec.ofInt_neg, BitVec.neg_neg, BitVec.ofInt_natCast]
  have hnat : (BitVec.ofNat 64 m).toNat = m := by
    rw [BitVec.toNat_ofNat]
    exact Nat.mod_eq_of_lt (by omega)
  have hsign : ¬ (BitVec.ofNat 64 m).toInt < 0 := by
    rw [BitVec.toInt_eq_toNat_of_lt (by omega)]
    omega
  have hword : bits 32 m = wordBits (BitVec.ofNat 32 m) := by
    rw [wordBits, BitVec.toNat_ofNat, Nat.mod_eq_of_lt (by omega)]
  unfold intToBinaryString
  rw [toInt_ofInt_of_bounds (by omega) (by omega), if_neg (by omega), hminus, sprintfBinary,
    if_neg hsign, hnat, binaryStringToArray_print (by omega), hword]

theorem intToBinaryString_natCast {m : ℕ} (hm : m < 2 ^ 32) :
    intToBinaryString (BitVec.ofInt 64 (m : ℤ)) = print 2 32 m := by
  have hnat : (BitVec.ofInt 64 (m : ℤ)).toNat = m := by
    rw [BitVec.ofInt_natCast, BitVec.toNat_ofNat]
    exact Nat.mod_eq_of_lt (by omega)
  unfold intToBinaryString
  rw [sprintfBinary, toInt_ofInt_of_bounds (by omega) (by omega), if_pos (by omega),
    if_neg (by omega), hnat]

/-- **The bits of a number** that is a 32-bit one, signed or unsigned. -/
theorem intToBinaryArray_ofInt {z : ℤ} (hlow : -2 ^ 31 < z) (hhigh : z < 2 ^ 32) :
    intToBinaryArray (BitVec.ofInt 64 z) = wordBits (BitVec.ofInt 32 z) := by
  rw [intToBinaryArray]
  rcases Int.lt_or_le z 0 with hneg | hpos
  · obtain ⟨m, rfl⟩ : ∃ m : ℕ, z = -(m : ℤ) := ⟨z.natAbs, by omega⟩
    have hm : m < 2 ^ 31 := by omega
    rw [intToBinaryString_neg (by omega) (by omega), binaryStringToArray_binaryArrayToString,
      twosComplement_wordBits]
    · rw [BitVec.ofInt_neg, BitVec.ofInt_natCast]
    · intro h
      have := congrArg BitVec.toNat h
      simp at this
      omega
    · rw [BitVec.getLsbD_ofNat, Nat.testBit_lt_two_pow hm, Bool.and_false]
  · obtain ⟨m, rfl⟩ : ∃ m : ℕ, z = m := ⟨z.toNat, by omega⟩
    have hm : m < 2 ^ 32 := by omega
    rw [intToBinaryString_natCast hm, binaryStringToArray_print hm, wordBits, BitVec.ofInt_natCast,
      BitVec.toNat_ofNat, Nat.mod_eq_of_lt hm]

end RangerRisc.Assembler
