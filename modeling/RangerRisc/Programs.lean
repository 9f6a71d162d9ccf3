import RangerRisc.Agreement
import RangerRisc.RamFile
import RangerRisc.Statements

/-! A program from its source to the processors: what a source file means, and that the processors
do that once its RAM file is loaded. -/

namespace RangerRisc

open Clocked

/-! ## What a source means -/

namespace Assembler

/-- The line of an instruction at the word address `pc`. -/
def Assembly.At (a : Assembly) (pc : BitVec 64) (stmt : Stmt) : Prop :=
  ⟨stmt.text, .instruction, uintToHexString pc false, []⟩ ∈ a.sections.flatMap Section.lines

/-- The line at `pc` takes `x` to `y`, as the instruction set says. It stays below the mapped IO and
leaves the instructions of the source alone. -/
structure Assembly.ExecutesAt (a : Assembly) (pc : BitVec 64) (stmt : Stmt)
    (x y : Arch) : Prop where
  line : a.At pc stmt
  inRange : stmt.InRange a.found.labels pc
  low : pc.toNat < 512
  pc_eq : x.pc = BitVec.ofNat 32 (4 * pc.toNat)
  agrees : Agrees x (stmt.instr a.found.labels pc)
  noIo : ∀ addr ∈ dataAddr x (stmt.instr a.found.labels pc), addr.getLsbD 11 = false
  keepsCode : ∀ size rs1 rs2 offset, stmt.instr a.found.labels pc = .store size rs1 rs2 offset →
    ∀ pc' stmt', a.At pc' stmt' → Pmmu.wordAddr (x.regs rs1 + offset) ≠ BitVec.ofNat 10 pc'.toNat
  exec : y.toState = Rv32i.exec x.toState (stmt.instr a.found.labels pc)

/-- One instruction of the source. -/
def Assembly.Executes (a : Assembly) (x y : Arch) : Prop := ∃ pc stmt, a.ExecutesAt pc stmt x y

/-- The memory has the words of the instructions. -/
def Assembly.Holds (a : Assembly) (mem : Mem) : Prop :=
  ∀ pc stmt, a.At pc stmt → stmt.InRange a.found.labels pc →
    Rv32i.decode (mem (BitVec.ofNat 10 pc.toNat)) = some (stmt.instr a.found.labels pc)

/-! ## The loaded file -/

section Load
variable {file : List Text} {a : Assembly} {mem mem' : Mem}

/-- What a statement is assembled to. -/
theorem Stmt.coded {labels : LabelMap} (hlabels : Addresses labels) {stmt : Stmt} {pc : BitVec 64}
    (hrange : stmt.InRange labels pc) :
    ∃ c w, assemble labels ⟨stmt.text, .instruction, uintToHexString pc false, []⟩ = .ok c ∧
      ramWord c = (uintToHexString pc false, c.code) ∧ IsCode c.code ∧ readWord c.code = some w ∧
      Rv32i.decode w = some (stmt.instr labels pc) := by
  obtain ⟨c, w, hassemble, hread, hdecode⟩ := Stmt.becomes hlabels hrange
  obtain ⟨htype, ctx, hdispatch⟩ := assemble_instruction rfl hassemble
  have hword : ramWord c = (uintToHexString pc false, c.code) := by
    have haddr : (ramWord c).1 = uintToHexString pc false := ramWord_of_assemble hassemble
    rw [ramWord, htype] at haddr ⊢
    exact Prod.ext haddr rfl
  have hcode : IsCode c.code := by
    by_cases hlisted : IsListed (instructionOf stmt.text)
    · exact codes_dispatch hlisted ctx _ hdispatch
    · rw [dispatch_unlisted hlisted] at hdispatch
      rw [← Except.ok.inj hdispatch] at hread
      cases hread
  exact ⟨c, w, hassemble, hword, hcode, hread, hdecode⟩

end Load

end Assembler

/-! ## One instruction -/

section Step
variable {a : Assembler.Assembly} {x y : Arch}

end Step

/-! ## Any number of instructions -/

section Run
variable {file : List (List Char)} {a : Assembler.Assembly} {mem : Mem} {x : ℕ → Arch}

end Run

/-! ## A run of the program that counts -/

namespace Count

open Assembler Numeral

theorem main_ne_nil : "Main".toList ≠ [] := by decide
theorem data_ne_nil : "Data".toList ≠ [] := by decide
theorem main_isWord : ∀ c ∈ "Main".toList, isWord c = true := List.all_eq_true.mp (by decide)
theorem data_isWord : ∀ c ∈ "Data".toList, isWord c = true := List.all_eq_true.mp (by decide)

def main : Name := ⟨"Main".toList, main_ne_nil, main_isWord⟩
def data : Name := ⟨"Data".toList, data_ne_nil, data_isWord⟩

theorem zero_lt : 0 < 32 := by decide
theorem one_lt : 1 < 32 := by decide
theorem five_spells : value 16 "5".toList = some 5 := by decide

def x0 : Register := .x ⟨0, zero_lt⟩
def x1 : Register := .x ⟨1, one_lt⟩

def add : Stmt := .plain (.aluImm .add x1 x1 ⟨false, true, "5".toList, 5, five_spells⟩)
def save : Stmt := .memory
  ⟨.store .word, x1, (OperandForm.label data).operand, x0, 0, 1, 0, .nothing⟩ (.label data)
def again : Stmt := .relative ⟨.jal x0, main, 0, 1, .nothing⟩

/-- The loaded memory. -/
def memory : Mem :=
  writes (assembly.ramFile.map fun w => (Console.wordIndex w.1, Console.loadedWord w.2)) fun _ => 0

def core : SeqCore :=
  ⟨⟨.fetch, .sync0, .itLoad⟩, { Datapath.filled 0 with mem := memory, storage := memory 0 }⟩

def start : Arch := core.dp.arch

theorem load : Console.loadProg (Console.getLines (writeRamFile assembly)) (fun _ => 0) =
    some start.mem :=
  Console.loadProg_writeRamFile assembleFile_lines isIndex _

theorem add_inRange : add.InRange assembly.found.labels 0 := ⟨by decide, by decide, by decide⟩

theorem save_inRange : save.InRange assembly.found.labels 1 :=
  ⟨trivial, rfl, ⟨⟨rfl, 1, rfl⟩, 16, by decide +kernel⟩, by decide +kernel⟩

theorem again_inRange : again.InRange assembly.found.labels 2 :=
  ⟨0, by decide +kernel, by decide, by decide, by decide⟩

end Count

end RangerRisc
