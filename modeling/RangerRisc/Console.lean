import RangerRisc.AssemblerUtils
import RangerRisc.ControlMatrixCSRs

/-! The console of the simulation: `utils.cpp`, and of `simulation.cpp` and `console_tb.cpp` the
search for an ebreak, the memory edit and the program load. Its numbers are 32-bit ints. -/

namespace RangerRisc.Console

open Numeral Regexp
open Assembler (contains)

/-! ## `utils.cpp` -/

def isSpace (c : Char) : Bool := " \t\n\x0b\x0c\r".toList.contains c

def splitString (cmdLine : Text) : List Text := (cmdLine.splitOnP isSpace).filter (· ≠ [])

/-- The numeral of a `bitset<32>`. -/
def intToBin (v : Word) : Text := (bits 32 v.toNat).map fun b => if b then '1' else '0'

/-- A number may begin with `0x` where numbers are hexadecimal. -/
def stripPrefix (b : ℕ) (s : Text) : Text :=
  match s with
  | '0' :: 'x' :: t => if b = 16 then t else s
  | '0' :: 'X' :: t => if b = 16 then t else s
  | _ => s

/-- The digits up to the first other character, as an unsigned number below `bound`. What is no
number reads as zero, a number that is too large as the largest one. -/
def extractDigits (b bound : ℕ) (neg : Bool) (s : Text) : ℕ :=
  match value b ((stripPrefix b s).takeWhile fun c => (digit b c).isSome) with
  | none => 0
  | some n => if n < bound then (if neg then (bound - n) % bound else n) else bound - 1

/-- `stream >> i` -/
def extract (b bound : ℕ) (s : Text) : ℕ :=
  match s.dropWhile isSpace with
  | '-' :: t => extractDigits b bound true t
  | '+' :: t => extractDigits b bound false t
  | t => extractDigits b bound false t

def hexStringToInt (v : Text) : Word := BitVec.ofNat 32 (extract 16 (2 ^ 32) v)

/-- An `unsigned long`, cut to an int. -/
def stringToInt (v : Text) : Word := BitVec.ofNat 32 (extract 10 (2 ^ 64) v)

def wordToByteAddr (wa : Word) : Word := wa * 4

/-! ## Memory -/

/-- `bram->mem[addr] = val`. There is no value for an index outside of the array. -/
def store (mem : Mem) (addr val : Word) : Option Mem :=
  if addr.toNat < 1024 then some (Function.update mem (addr.setWidth 10) val) else none

/-- `getArg1Int` and `getArg2Int`. -/
def getArgInt (arg : Text) : Word :=
  if contains "0x".toList arg then hexStringToInt arg else stringToInt arg

/-- `Command::MemModify`, of a line that begins with `mm`. -/
def memModify (keyBuffer : Text) (mem : Mem) : Option Mem :=
  let fields := splitString keyBuffer
  let arg1 := fields.getD 1 "0".toList
  let arg2 := fields.getD 2 "0".toList
  store mem (wordToByteAddr (getArgInt arg1)) (getArgInt arg2)

def isHex (c : Char) : Bool :=
  decide ('a' ≤ c ∧ c ≤ 'f') || decide ('A' ≤ c ∧ c ≤ 'F') || decide ('0' ≤ c ∧ c ≤ '9')

/-- `@([a-fA-F0-9]+) ([a-fA-F0-9]{8})` -/
def memRegex : Pattern := [one '@', (plus isHex).capture, one ' ', ⟨isHex, 8, some 8, true⟩]

/-- A line of a program; one that does not match is reported and skipped. -/
def loadLine (mem : Mem) (line : Text) : Option Mem :=
  match find memRegex line with
  | none => some mem
  | some m => store mem (hexStringToInt (m.groups.getD 0 [])) (hexStringToInt (m.groups.getD 1 []))

/-- `Command::LoadProg`, with the lines of the file. -/
def loadProg (file : List Text) (mem : Mem) : Option Mem := file.foldlM loadLine mem

/-! ## Running to an ebreak -/

/-- `ir.substr(pos, len)` -/
def substr (s : Text) (pos len : ℕ) : Text := (s.drop pos).take len

/-- The test that ends the loop. -/
def isEbreak (data : Word) : Bool :=
  let ir := intToBin data
  let opCode := substr ir (ir.length - 7) (ir.length - 1)
  opCode == "1110011".toList && ir[11]? == some '1'

/-- The loop, with what it does to the simulation before each test. -/
def runToEbreak {Sim : Type} (eval : Sim → Sim) (ir : Sim → Word) : ℕ → Sim → Sim
  | 0, s => s
  | n + 1, s => if isEbreak (ir (eval s)) then eval s else runToEbreak eval ir n (eval s)

section Ebreak
variable (data : Word)

theorem irOpcode_iTypeE :
    irOpcode data = .iTypeE ↔ data.getLsbD 6 = true ∧ data.getLsbD 5 = true ∧
      data.getLsbD 4 = true ∧ data.getLsbD 3 = false ∧ data.getLsbD 2 = false ∧
        data.getLsbD 1 = true ∧ data.getLsbD 0 = true := by
  have hcode : ∀ b : BitVec 7, Opcode.ofBits b = .iTypeE ↔ b.getLsbD 6 = true ∧ b.getLsbD 5 = true ∧
      b.getLsbD 4 = true ∧ b.getLsbD 3 = false ∧ b.getLsbD 2 = false ∧ b.getLsbD 1 = true ∧
        b.getLsbD 0 = true := by decide
  have h := hcode (data.extractLsb' 0 7)
  simpa [irOpcode, BitVec.getLsbD_extractLsb'] using h

/-- The test reads the opcode and bit 20. -/
theorem isEbreak_iff : isEbreak data = true ↔ irOpcode data = .iTypeE ∧ data.getLsbD 20 = true := by
  have hbits : intToBin data =
      (List.range 32).reverse.map fun i => if data.getLsbD i then '1' else '0' := by
    simp [intToBin, bits, BitVec.getLsbD]
  rw [irOpcode_iTypeE]
  unfold isEbreak substr
  rw [hbits]
  simp [List.range_succ]

/-- Decode takes an ebreak for one. -/
theorem csrSystem_itEbreak :
    csrSystem data = .itEbreak ↔ isCSRInstr data = false ∧ funct12 data = 1#12 := by
  unfold csrSystem
  split
  · next h => simp [h]
  · next h =>
    rw [Bool.not_eq_true] at h
    split
    · next h1 => simp [h, h1]
    · next h1 =>
      split_ifs <;> simp [h1]

theorem decodeNext_itEbreak :
    decodeNext (csrSystem data) data = .itEbreak ↔
      irOpcode data = .iTypeE ∧ funct3 data = 0 ∧ funct12 data = 1#12 := by
  cases hop : irOpcode data with
  | iTypeE =>
    have hcsr : isCSRInstr data = false ↔ funct3 data = 0 := by simp [isCSRInstr, hop]
    rw [decodeNext, hop, csrSystem_itEbreak, hcsr]
    simp
  | _ => simp [decodeNext, hop]

theorem funct12_one :
    funct12 data = 1#12 ↔ data.getLsbD 20 = true ∧ data.extractLsb' 21 11 = 0 := by
  have hcode : ∀ b : BitVec 12, b = 1#12 ↔ b.getLsbD 0 = true ∧ b.extractLsb' 1 11 = 0 := by
    decide +kernel
  have hhigh : (funct12 data).extractLsb' 1 11 = data.extractLsb' 21 11 := by
    apply BitVec.eq_of_getLsbD_eq
    intro i hi
    simp [funct12, BitVec.getLsbD_extractLsb', hi, Nat.add_comm]
    omega
  rw [hcode, hhigh]
  simp [funct12]

end Ebreak

/-- The loop ends behind the first cycle that leaves an ebreak, or what it takes for one, in IR. -/
theorem runToEbreak_spec {Sim : Type} (eval : Sim → Sim) (ir : Sim → Word) (n : ℕ) (s : Sim) :
    ∃ k ≤ n, runToEbreak eval ir n s = eval^[k] s ∧
      (∀ j, 0 < j → j < k → isEbreak (ir (eval^[j] s)) = false) ∧
      (k < n → isEbreak (ir (eval^[k] s)) = true) := by
  induction n generalizing s with
  | zero => exact ⟨0, Nat.le_refl 0, rfl, fun j _ hj => absurd hj (Nat.not_lt_zero j),
      fun h => absurd h (Nat.not_lt_zero 0)⟩
  | succ n ih =>
    rw [runToEbreak]
    cases hstop : isEbreak (ir (eval s)) with
    | true => exact ⟨1, by omega, rfl, fun j hj hj' => absurd hj' (by omega), fun _ => hstop⟩
    | false =>
      obtain ⟨k, hk, hrun, hbefore, hend⟩ := ih (eval s)
      refine ⟨k + 1, by omega, hrun, fun j hj hjk => ?_, fun h => hend (by omega)⟩
      obtain ⟨j, rfl⟩ : ∃ i, j = i + 1 := ⟨j - 1, by omega⟩
      cases j with
      | zero => exact hstop
      | succ j => exact hbefore (j + 1) (by omega) (by omega)

/-- **The test is right but for the instructions with an odd `funct12`**: of the words that Decode
does not send to ITEbreak it stops at those SYSTEM words that have bit 20 set. -/
theorem isEbreak_iff_itEbreak {m : CsrMatrix} (hm : m.seq.state = .decode) (ir : Word)
    (flags : BitVec 4) (rsa pc : Word) (resetI : Bool) :
    let next := (ControlMatrixCSRs.comb m ir flags rsa pc resetI).nextIrState
    (next = .itEbreak ↔ irOpcode ir = .iTypeE ∧ funct3 ir = 0 ∧ funct12 ir = 1#12) ∧
      ((isEbreak ir = true ↔ next = .itEbreak) ↔
        (irOpcode ir = .iTypeE → ir.getLsbD 20 = true →
          funct3 ir = 0 ∧ ir.extractLsb' 21 11 = 0)) := by
  have hnext : (ControlMatrixCSRs.comb m ir flags rsa pc resetI).nextIrState =
      decodeNext (csrSystem ir) ir := by
    rw [ControlMatrixCSRs.comb, hm]
    rfl
  intro next
  have hdecode : next = .itEbreak ↔ irOpcode ir = .iTypeE ∧ funct3 ir = 0 ∧ funct12 ir = 1#12 := by
    rw [← decodeNext_itEbreak, ← hnext]
  refine ⟨hdecode, ?_⟩
  rw [hdecode, isEbreak_iff, funct12_one]
  tauto

/-- Decode, before any CSR has a value. -/
def decoding : CsrMatrix := ⟨⟨.decode, .sync0, .preFetch⟩, ⟨0, 0, 0, 0, 0⟩, ⟨false, false, false⟩⟩

theorem ebreak_stops :
    isEbreak 0x00100073#32 = true ↔
      (ControlMatrixCSRs.comb decoding 0x00100073#32 0 0 0 true).nextIrState = .itEbreak :=
  (isEbreak_iff_itEbreak (rfl : decoding.seq.state = .decode) 0x00100073#32 0 0 0 true).2.mpr
    fun _ _ => ⟨rfl, rfl⟩

/-- `csrrw x0, mtvec, x0` -/
theorem mtvec_stops :
    ¬ ∀ (m : CsrMatrix), m.seq.state = .decode → ∀ (ir : Word) (flags : BitVec 4) (rsa pc : Word)
      (resetI : Bool), isEbreak ir = true ↔
        (ControlMatrixCSRs.comb m ir flags rsa pc resetI).nextIrState = .itEbreak := by
  intro h
  have hstop := (h decoding rfl 0x30501073#32 0 0 0 true).mp (by decide)
  revert hstop
  decide

end RangerRisc.Console
