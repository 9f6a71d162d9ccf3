import RangerRisc.Sequencer
import RangerRisc.Lib.Rv32i

/-! One instruction, from the datapath that Decode leaves behind to the last of its
instruction states, whatever the matrix around them does. `instrStep` says what comes
of it in terms of pc, registers and memory alone. -/

namespace RangerRisc

open Rv32i (RegFile)

/-! ## Architectural state -/

/-- The registers as a program sees them. -/
def Bank.toRegFile (bank : Bank) : RegFile := ⟨bank.read, rfl⟩

@[simp] theorem Bank.toRegFile_apply (bank : Bank) (i : BitVec 5) :
    bank.toRegFile i = bank.read i := rfl

@[simp] theorem Bank.write_disabled (bank : Bank) (dst : BitVec 5) (data : Word) :
    bank.write rgLdDisabled dst data = bank := by
  simp [Bank.write]

@[simp] theorem Bank.toRegFile_write (bank : Bank) (dst : BitVec 5) (data : Word) :
    (bank.write rgLdEnabled dst data).toRegFile = bank.toRegFile.write dst data := by
  ext i : 2
  simp only [RegFile.write_apply, Bank.toRegFile_apply, Bank.read, Bank.write]
  by_cases hi : i = 0#5
  · simp [hi]
  · by_cases hd : i = dst
    · subst hd
      simp [hi]
    · by_cases h0 : dst = 0#5 <;> simp [hi, hd, h0]

@[simp] theorem Mem.write_inactive (mem : Mem) (addr : BitVec 10) (data : Word) :
    mem.write rwInActive addr data = mem := by
  simp [Mem.write]

/-- What a program sees of a processor. -/
@[ext] structure Arch where
  pc : Word
  regs : RegFile
  mem : Mem

def Datapath.arch (d : Datapath) : Arch := ⟨d.pc, d.bank.toRegFile, d.mem⟩

/-! ## The meaning of an instruction word -/

section InstrStep
variable (undef ir : Word) (a : Arch)

def Arch.fetched : Word := a.mem (Pmmu.wordAddr a.pc)

def srcA : Word := a.regs (rs1 ir)
def srcB : Word := a.regs (rs2 ir)

/-- The address of a load, a store and a jalr. -/
def effAddr : Word := srcA ir a + immediate undef ir

def branchTaken : Bool :=
  takeBranch (ALU.flagsOut undef (srcA ir a) (srcB ir a) subOp) (funct3 ir)

/-- The value that goes to `rd`, for the instructions that have one. -/
def result : Word :=
  match irOpcode ir with
  | .rType => ALU.yOut undef (srcA ir a) (srcB ir a) (funct3 ir ++ funct7up ir)
  | .iType => ALU.yOut undef (srcA ir a) (immediate undef ir) (itAluOp ir)
  | .iTypeJ | .jType => a.pc + 4
  | .uTypeL => immediate undef ir
  | .uTypeA => a.pc + immediate undef ir
  | _ => Pmmu.loadData (funct3 ir) (effAddr undef ir a)
      (a.mem (Pmmu.wordAddr (effAddr undef ir a)))

def nextPc : Word :=
  match irOpcode ir with
  | .iTypeJ => effAddr undef ir a
  | .jType => a.pc + immediate undef ir
  | .bType => if branchTaken undef ir a then a.pc + immediate undef ir else a.pc + 4
  | _ => a.pc + 4

def writesRd : Bool :=
  match irOpcode ir with
  | .sType | .bType => false
  | _ => true

/-- The instruction `ir` on `a`, with the processor's own ALU, immediates and memory
lanes. Opcodes that are not decoded execute as loads. -/
def instrStep : Arch where
  pc := nextPc undef ir a
  regs := if writesRd ir then a.regs.write (dstRg ir) (result undef ir a) else a.regs
  mem := if irOpcode ir = .sType then
      Function.update a.mem (Pmmu.wordAddr (effAddr undef ir a))
        (Pmmu.storeData (funct3 ir) (effAddr undef ir a) (srcB ir a)
          (a.mem (Pmmu.wordAddr (effAddr undef ir a))))
    else a.mem

end InstrStep

/-! ## Instruction states -/

/-- The edge that ends the instruction state `s`. -/
def Datapath.exec (w : Wiring) (s : InstructionState) (d : Datapath) : Datapath :=
  d.clock w (executeControl s d.ir (takeBranch d.aluFlags (funct3 d.ir)))

/-- The instruction started in `s` on `d` gets to its last state `l` on `e`. -/
inductive Executes (w : Wiring) :
    InstructionState → Datapath → InstructionState → Datapath → Prop where
  | last {s : InstructionState} {d : Datapath} (hs : shared s) (hd : executeNext s d.ir = .done) :
      Executes w s d s d
  | step {s s' l : InstructionState} {d e : Datapath} (hs : shared s)
      (hd : executeNext s d.ir = .next s') (rest : Executes w s' (d.exec w s) l e) :
      Executes w s d l e

/-- What Decode leaves of the instruction `ir` fetched in `a`. -/
structure Decoded (ir : Word) (a : Arch) (d : Datapath) : Prop where
  ir_eq : d.ir = ir
  pc : d.pc = a.pc + 4
  pcPrior : d.pcPrior = a.pc
  regs : d.bank.toRegFile = a.regs
  mem : d.mem = a.mem
  rsa : d.rsa = srcA ir a
  rsb : d.rsb = srcB ir a

section Exec
variable (w : Wiring) (d : Datapath)

@[simp] theorem ALU.yOut_addOp (undef a b : Word) : ALU.yOut undef a b addOp = a + b := rfl

/-! What the edge does to each register, state by state. -/

attribute [local simp] Datapath.exec executeControl Datapath.clock Control.idle

@[simp] theorem exec_ir (s : InstructionState) : (d.exec w s).ir = d.ir := by
  cases s <;> rfl

@[simp] theorem exec_pcPrior (s : InstructionState) : (d.exec w s).pcPrior = d.pcPrior := by
  cases s <;> rfl

@[simp] theorem exec_rsb (s : InstructionState) : (d.exec w s).rsb = d.rs2Out := rfl

@[simp] theorem exec_rsa (s : InstructionState) : (d.exec w s).rsa = d.rs1Out := by
  cases s <;>
    simp [register, w.rsaLd_enabled]

theorem exec_pc (s : InstructionState) : (d.exec w s).pc =
    match s with
    | .itJalr => d.rsa + d.immExtOut w
    | .jtJal => d.pcPrior + d.immExtOut w
    | .btBranch =>
      if takeBranch d.aluFlags (funct3 d.ir) then d.pcPrior + d.immExtOut w else d.pc
    | _ => d.pc := by
  cases s <;>
    simp [register, Datapath.pcSrcOut, w.pcMux_aluImm, Datapath.aluImmOut, Datapath.aMuxOut,
      Datapath.bMuxOut, mux4]

theorem exec_aluOut (s : InstructionState) : (d.exec w s).aluOut =
    match s with
    | .rType => ALU.yOut w.undef d.rsa d.rsb (funct3 d.ir ++ funct7up d.ir)
    | .itAlu => ALU.yOut w.undef d.rsa (d.immExtOut w) (itAluOp d.ir)
    | .itLoad | .stStore => d.rsa + d.immExtOut w
    | .btBranch => d.pcPrior + d.immExtOut w
    | _ => d.aluOut := by
  cases s <;>
    simp [register, Datapath.aluImmOut, Datapath.aMuxOut, Datapath.bMuxOut, mux4]

theorem exec_aluFlags (s : InstructionState) : (d.exec w s).aluFlags =
    match s with
    | .bType => ALU.flagsOut w.undef d.rsa d.rsb subOp
    | _ => d.aluFlags := by
  cases s <;>
    simp [register, Datapath.aluFlagsOut, Datapath.aMuxOut, Datapath.bMuxOut, mux4]

theorem exec_storage (s : InstructionState) : (d.exec w s).storage =
    match s with
    | .itLdMemAcc | .itLdMemMdr | .stMemAcc => d.mem (Pmmu.wordAddr d.aluOut)
    | _ => d.storage := by
  cases s <;>
    simp [register, Datapath.addrMux, mux2]

theorem exec_mdr (s : InstructionState) : (d.exec w s).mdr =
    match s with
    | .itLdMemMdr => Pmmu.loadData (funct3 d.ir) d.aluOut d.storage
    | _ => d.mdr := by
  cases s <;>
    simp [register, Datapath.pmmuOut, Datapath.rstSrcOut, Datapath.addrMux, Pmmu.rdOut, mux2]

theorem exec_bank (s : InstructionState) : (d.exec w s).bank =
    match s with
    | .rtCmpl | .itAluCmpl => d.bank.write rgLdEnabled (dstRg d.ir) d.aluOut
    | .itLdMemCmpl => d.bank.write rgLdEnabled (dstRg d.ir) d.mdr
    | .itJalrRtr | .jtJalRtr => d.bank.write rgLdEnabled (dstRg d.ir) (d.pcPrior + 4)
    | .uType => d.bank.write rgLdEnabled (dstRg d.ir) (d.immExtOut w)
    | .uTypeAui => d.bank.write rgLdEnabled (dstRg d.ir) (d.pcPrior + d.immExtOut w)
    | _ => d.bank := by
  cases s <;>
    simp [Datapath.wdSrcOut, Datapath.aluImmOut, Datapath.aMuxOut, Datapath.bMuxOut, mux4]

theorem exec_mem (s : InstructionState) : (d.exec w s).mem =
    match s with
    | .stMemWrt => d.mem.write (w.memWr rwActive d.aluOut) (Pmmu.wordAddr d.aluOut)
        (Pmmu.storeData (funct3 d.ir) d.aluOut d.rsb d.storage)
    | _ => d.mem := by
  cases s <;>
    simp [w.memWr_inactive, Datapath.rstSrcOut, Datapath.addrMux, mux2]

end Exec

namespace Executes

variable {w : Wiring} {s l : InstructionState} {d e : Datapath}

theorem ir_eq (h : Executes w s d l e) : e.ir = d.ir := by
  induction h with
  | last => rfl
  | step _ _ _ ih => rw [ih, exec_ir]

theorem last_done (h : Executes w s d l e) : executeNext l e.ir = .done := by
  induction h with
  | last _ hd => exact hd
  | step _ _ _ ih => exact ih

end Executes

/-- The instruction started in `s` on `d` ends with the architectural state `b`. -/
def Completes (w : Wiring) (s : InstructionState) (d : Datapath) (b : Arch) : Prop :=
  ∃ l e, Executes w s d l e ∧ (e.exec w l).arch = b

section Completes
variable {w : Wiring} {s s' : InstructionState} {d : Datapath} {b : Arch}

theorem Completes.last (hs : shared s) (hd : executeNext s d.ir = .done)
    (h : (d.exec w s).arch = b) : Completes w s d b :=
  ⟨s, d, .last hs hd, h⟩

theorem Completes.step (hs : shared s) (hd : executeNext s d.ir = .next s')
    (h : Completes w s' (d.exec w s) b) : Completes w s d b := by
  obtain ⟨l, e, hrun, he⟩ := h
  exact ⟨l, e, .step hs hd hrun, he⟩

end Completes

/-! ## Every instruction completes as `instrStep` says -/

section Instr
variable {w : Wiring} {ir : Word} {a : Arch} {d : Datapath}

theorem Decoded.rs1Out (h : Decoded ir a d) : d.rs1Out = srcA ir a := by
  rw [Datapath.rs1Out, h.ir_eq, srcA, ← h.regs, Bank.toRegFile_apply]

theorem Decoded.rs2Out (h : Decoded ir a d) : d.rs2Out = srcB ir a := by
  rw [Datapath.rs2Out, h.ir_eq, srcB, ← h.regs, Bank.toRegFile_apply]

theorem Decoded.immExtOut (h : Decoded ir a d) : d.immExtOut w = immediate w.undef ir := by
  rw [Datapath.immExtOut, h.ir_eq]

/-- An edge that leaves pc, registers and memory alone keeps what Decode left. -/
theorem Decoded.exec (h : Decoded ir a d) {s : InstructionState} (hpc : (d.exec w s).pc = d.pc)
    (hbank : (d.exec w s).bank = d.bank) (hmem : (d.exec w s).mem = d.mem) :
    Decoded ir a (d.exec w s) where
  ir_eq := by rw [exec_ir, h.ir_eq]
  pc := by rw [hpc, h.pc]
  pcPrior := by rw [exec_pcPrior, h.pcPrior]
  regs := by rw [hbank, h.regs]
  mem := by rw [hmem, h.mem]
  rsa := by rw [exec_rsa, h.rs1Out]
  rsb := by rw [exec_rsb, h.rs2Out]

theorem completes_rType (h : Decoded ir a d) (ho : irOpcode ir = .rType) :
    Completes w .rType d (instrStep w.undef ir a) := by
  have h1 : Decoded ir a (d.exec w .rType) :=
    h.exec (by simp [exec_pc]) (by simp [exec_bank]) (by simp [exec_mem])
  by_cases hd : dstRg ir = 0#5
  · apply Completes.last rfl (by simp [executeNext, h.ir_eq, hd])
    ext1 <;> simp [Datapath.arch, h1.pc, h1.regs, h1.mem, instrStep, ho, nextPc, writesRd, hd]
  · apply Completes.step rfl (by simp [executeNext, h.ir_eq, hd]; rfl)
    apply Completes.last rfl rfl
    ext1
    · simp [Datapath.arch, exec_pc _ _ .rtCmpl, h1.pc, instrStep, ho, nextPc]
    · simp [Datapath.arch, exec_bank _ _ .rtCmpl, h1.regs, h.ir_eq, exec_aluOut, h.rsa, h.rsb,
        instrStep, ho, writesRd, result]
    · simp [Datapath.arch, exec_mem _ _ .rtCmpl, h1.mem, instrStep, ho]

theorem completes_itAlu (h : Decoded ir a d) (ho : irOpcode ir = .iType) :
    Completes w .itAlu d (instrStep w.undef ir a) := by
  have h1 : Decoded ir a (d.exec w .itAlu) :=
    h.exec (by simp [exec_pc]) (by simp [exec_bank]) (by simp [exec_mem])
  by_cases hd : dstRg ir = 0#5
  · apply Completes.last rfl (by simp [executeNext, h.ir_eq, hd])
    ext1 <;> simp [Datapath.arch, h1.pc, h1.regs, h1.mem, instrStep, ho, nextPc, writesRd, hd]
  · apply Completes.step rfl (by simp [executeNext, h.ir_eq, hd]; rfl)
    apply Completes.last rfl rfl
    ext1
    · simp [Datapath.arch, exec_pc _ _ .itAluCmpl, h1.pc, instrStep, ho, nextPc]
    · simp [Datapath.arch, exec_bank _ _ .itAluCmpl, h1.regs, h.ir_eq, exec_aluOut, h.rsa,
        h.immExtOut, instrStep, ho, writesRd, result]
    · simp [Datapath.arch, exec_mem _ _ .itAluCmpl, h1.mem, instrStep, ho]

/-! Loads, from the last state back. An unknown opcode and the rest of SYSTEM go the same way. -/

/-- The opcodes that `instrStep` takes for a load. -/
def loads (ir : Word) : Prop :=
  irOpcode ir = .iTypeL ∨ irOpcode ir = .unknown ∨ irOpcode ir = .iTypeE

theorem completes_itLdMemCmpl (h : Decoded ir a d) (ho : loads ir)
    (hmdr : d.mdr = result w.undef ir a) :
    Completes w .itLdMemCmpl d (instrStep w.undef ir a) := by
  apply Completes.last rfl rfl
  ext1
  · rcases ho with ho | ho | ho <;>
      simp [Datapath.arch, exec_pc, h.pc, instrStep, ho, nextPc]
  · rcases ho with ho | ho | ho <;>
      simp [Datapath.arch, exec_bank, h.regs, h.ir_eq, hmdr, instrStep, ho, writesRd]
  · rcases ho with ho | ho | ho <;>
      simp [Datapath.arch, exec_mem, h.mem, instrStep, ho]

theorem completes_itLdMemMdr (h : Decoded ir a d) (ho : loads ir)
    (hout : d.aluOut = effAddr w.undef ir a)
    (hst : d.storage = a.mem (Pmmu.wordAddr (effAddr w.undef ir a))) :
    Completes w .itLdMemMdr d (instrStep w.undef ir a) := by
  apply Completes.step rfl rfl
  apply completes_itLdMemCmpl _ ho
  · rcases ho with ho | ho | ho <;> simp [exec_mdr, h.ir_eq, hout, hst, result, ho]
  · exact h.exec (by simp [exec_pc]) (by simp [exec_bank]) (by simp [exec_mem])

theorem completes_itLdMemAcc (h : Decoded ir a d) (ho : loads ir)
    (hout : d.aluOut = effAddr w.undef ir a) :
    Completes w .itLdMemAcc d (instrStep w.undef ir a) := by
  apply Completes.step rfl rfl
  apply completes_itLdMemMdr _ ho
  · simp [exec_aluOut, hout]
  · simp [exec_storage, hout, h.mem]
  · exact h.exec (by simp [exec_pc]) (by simp [exec_bank]) (by simp [exec_mem])

theorem completes_itLoad (h : Decoded ir a d) (ho : loads ir) :
    Completes w .itLoad d (instrStep w.undef ir a) := by
  apply Completes.step rfl rfl
  apply completes_itLdMemAcc _ ho
  · simp [exec_aluOut, h.rsa, h.immExtOut, effAddr]
  · exact h.exec (by simp [exec_pc]) (by simp [exec_bank]) (by simp [exec_mem])

/-! Stores, from the last state back. Only a store shorter than a word needs the memory
output, and only for it STMemAcc reads the word first. -/

theorem completes_stMemWrt (h : Decoded ir a d) (ho : irOpcode ir = .sType)
    (hw : w.memWr rwActive (effAddr w.undef ir a) = rwActive)
    (hout : d.aluOut = effAddr w.undef ir a)
    (hst : Pmmu.isWordSize (funct3 ir) ∨
      d.storage = a.mem (Pmmu.wordAddr (effAddr w.undef ir a))) :
    Completes w .stMemWrt d (instrStep w.undef ir a) := by
  apply Completes.last rfl rfl
  have hdata : Pmmu.storeData (funct3 ir) (effAddr w.undef ir a) (srcB ir a) d.storage =
      Pmmu.storeData (funct3 ir) (effAddr w.undef ir a) (srcB ir a)
        (a.mem (Pmmu.wordAddr (effAddr w.undef ir a))) := by
    rcases hst with hst | hst
    · rw [Pmmu.storeData_word _ _ _ hst, Pmmu.storeData_word _ _ _ hst]
    · rw [hst]
  ext1
  · simp [Datapath.arch, exec_pc, h.pc, instrStep, ho, nextPc]
  · simp [Datapath.arch, exec_bank, h.regs, instrStep, ho, writesRd]
  · simp [Datapath.arch, exec_mem, h.mem, h.ir_eq, h.rsb, hout, hw, hdata, Mem.write, instrStep, ho]

theorem completes_stMemAcc (h : Decoded ir a d) (ho : irOpcode ir = .sType)
    (hw : w.memWr rwActive (effAddr w.undef ir a) = rwActive)
    (hout : d.aluOut = effAddr w.undef ir a) :
    Completes w .stMemAcc d (instrStep w.undef ir a) := by
  apply Completes.step rfl rfl
  apply completes_stMemWrt _ ho hw
  · simp [exec_aluOut, hout]
  · simp [exec_storage, hout, h.mem]
  · exact h.exec (by simp [exec_pc]) (by simp [exec_bank]) (by simp [exec_mem])

theorem completes_stStore (h : Decoded ir a d) (ho : irOpcode ir = .sType)
    (hw : w.memWr rwActive (effAddr w.undef ir a) = rwActive) :
    Completes w .stStore d (instrStep w.undef ir a) := by
  have h1 : Decoded ir a (d.exec w .stStore) :=
    h.exec (by simp [exec_pc]) (by simp [exec_bank]) (by simp [exec_mem])
  have hout : (d.exec w .stStore).aluOut = effAddr w.undef ir a := by
    simp [exec_aluOut, h.rsa, h.immExtOut, effAddr]
  by_cases hs : Pmmu.isWordSize (funct3 ir)
  · apply Completes.step rfl (by simp [executeNext, h.ir_eq, hs]; rfl)
    exact completes_stMemWrt h1 ho hw hout (.inl hs)
  · apply Completes.step rfl (by simp [executeNext, h.ir_eq, hs]; rfl)
    exact completes_stMemAcc h1 ho hw hout

/-! Jumps and branches. -/

theorem completes_itJalr (h : Decoded ir a d) (ho : irOpcode ir = .iTypeJ) :
    Completes w .itJalr d (instrStep w.undef ir a) := by
  by_cases hd : dstRg ir = 0#5
  · apply Completes.last rfl (by simp [executeNext, h.ir_eq, hd])
    ext1
    · simp [Datapath.arch, exec_pc, h.rsa, h.immExtOut, instrStep, ho, nextPc, effAddr]
    · simp [Datapath.arch, exec_bank, h.regs, instrStep, ho, writesRd, hd]
    · simp [Datapath.arch, exec_mem, h.mem, instrStep, ho]
  · apply Completes.step rfl (by simp [executeNext, h.ir_eq, hd]; rfl)
    apply Completes.last rfl rfl
    ext1
    · simp [Datapath.arch, exec_pc, h.rsa, h.immExtOut, instrStep, ho, nextPc, effAddr]
    · simp [Datapath.arch, exec_bank, h.regs, h.ir_eq, h.pcPrior, instrStep, ho, writesRd, result]
    · simp [Datapath.arch, exec_mem, h.mem, instrStep, ho]

theorem completes_jtJal (h : Decoded ir a d) (ho : irOpcode ir = .jType) :
    Completes w .jtJal d (instrStep w.undef ir a) := by
  by_cases hd : dstRg ir = 0#5
  · apply Completes.last rfl (by simp [executeNext, h.ir_eq, hd])
    ext1
    · simp [Datapath.arch, exec_pc, h.pcPrior, h.immExtOut, instrStep, ho, nextPc]
    · simp [Datapath.arch, exec_bank, h.regs, instrStep, ho, writesRd, hd]
    · simp [Datapath.arch, exec_mem, h.mem, instrStep, ho]
  · apply Completes.step rfl (by simp [executeNext, h.ir_eq, hd]; rfl)
    apply Completes.last rfl rfl
    ext1
    · simp [Datapath.arch, exec_pc, h.pcPrior, h.immExtOut, instrStep, ho, nextPc]
    · simp [Datapath.arch, exec_bank, h.regs, h.ir_eq, h.pcPrior, instrStep, ho, writesRd, result]
    · simp [Datapath.arch, exec_mem, h.mem, instrStep, ho]

theorem completes_bType (h : Decoded ir a d) (ho : irOpcode ir = .bType) :
    Completes w .bType d (instrStep w.undef ir a) := by
  have h1 : Decoded ir a (d.exec w .bType) :=
    h.exec (by simp [exec_pc]) (by simp [exec_bank]) (by simp [exec_mem])
  have htaken : takeBranch (d.exec w .bType).aluFlags (funct3 ir) = branchTaken w.undef ir a := by
    simp only [exec_aluFlags, h.rsa, h.rsb]
    rfl
  apply Completes.step rfl rfl
  apply Completes.last rfl rfl
  ext1
  · simp [Datapath.arch, exec_pc _ _ .btBranch, h.ir_eq, htaken, h1.pc, h.pcPrior, h1.immExtOut,
      instrStep, ho, nextPc]
  · simp [Datapath.arch, exec_bank _ _ .btBranch, h1.regs, instrStep, ho, writesRd]
  · simp [Datapath.arch, exec_mem _ _ .btBranch, h1.mem, instrStep, ho]

/-! The two U-types need a single state. -/

theorem completes_uType (h : Decoded ir a d) (ho : irOpcode ir = .uTypeL) :
    Completes w .uType d (instrStep w.undef ir a) := by
  apply Completes.last rfl rfl
  ext1
  · simp [Datapath.arch, exec_pc, h.pc, instrStep, ho, nextPc]
  · simp [Datapath.arch, exec_bank, h.regs, h.ir_eq, h.immExtOut, instrStep, ho, writesRd, result]
  · simp [Datapath.arch, exec_mem, h.mem, instrStep, ho]

theorem completes_uTypeAui (h : Decoded ir a d) (ho : irOpcode ir = .uTypeA) :
    Completes w .uTypeAui d (instrStep w.undef ir a) := by
  apply Completes.last rfl rfl
  ext1
  · simp [Datapath.arch, exec_pc, h.pc, instrStep, ho, nextPc]
  · simp [Datapath.arch, exec_bank, h.regs, h.ir_eq, h.pcPrior, h.immExtOut, instrStep, ho,
      writesRd, result]
  · simp [Datapath.arch, exec_mem, h.mem, instrStep, ho]

/-- The memory takes what `ir` stores; the wirings with mapped IO withhold some stores. -/
def StoreReaches (w : Wiring) (ir : Word) (a : Arch) : Prop :=
  irOpcode ir = .sType → w.memWr rwActive (effAddr w.undef ir a) = rwActive

/-- **Every instruction but SYSTEM** completes, from the state that Decode chose for it. -/
theorem completes_decoded (h : Decoded ir a d) (hsys : irOpcode ir ≠ .iTypeE)
    (hw : StoreReaches w ir a) (system : InstructionState) :
    Completes w (decodeNext system ir) d (instrStep w.undef ir a) := by
  unfold decodeNext
  cases ho : irOpcode ir with
  | iTypeE => exact absurd ho hsys
  | rType => exact completes_rType h ho
  | iType => exact completes_itAlu h ho
  | iTypeJ => exact completes_itJalr h ho
  | sType => exact completes_stStore h ho (hw ho)
  | bType => exact completes_bType h ho
  | jType => exact completes_jtJal h ho
  | uTypeL => exact completes_uType h ho
  | uTypeA => exact completes_uTypeAui h ho
  | iTypeL => exact completes_itLoad h (.inl ho)
  | unknown => exact completes_itLoad h (.inr (.inl ho))

end Instr

/-! ## Fetch and Decode -/

theorem Datapath.clock_ir {w : Wiring} {c : Control} {d : Datapath} (h : c.irLd = rgLdDisabled) :
    (d.clock w c).ir = d.ir := by
  simp [Datapath.clock, register, h]

theorem Datapath.clock_pc {w : Wiring} {c : Control} {d : Datapath} (h : c.pcLd = rgLdDisabled) :
    (d.clock w c).pc = d.pc := by
  simp [Datapath.clock, register, h]

theorem Datapath.clock_aluFlags {w : Wiring} {c : Control} {d : Datapath}
    (h : c.flagsLd = rgLdDisabled) : (d.clock w c).aluFlags = d.aluFlags := by
  simp [Datapath.clock, register, h]

/-- Registers and memory are the same in `e` as in `d`. -/
def Datapath.Keeps (d e : Datapath) : Prop := e.bank = d.bank ∧ e.mem = d.mem

theorem Datapath.Keeps.refl (d : Datapath) : d.Keeps d := ⟨rfl, rfl⟩

theorem Datapath.Keeps.trans {d e f : Datapath} (h : d.Keeps e) (h' : e.Keeps f) : d.Keeps f :=
  ⟨h'.1.trans h.1, h'.2.trans h.2⟩

/-- An edge writes nothing while both strobes are inactive. -/
theorem Datapath.keeps_clock {w : Wiring} {c : Control} {d : Datapath} (hrg : c.rgWr = rgLdDisabled)
    (hwr : c.memWr = rwInActive) : d.Keeps (d.clock w c) := by
  constructor
  · simp only [Datapath.clock, hrg, Bank.write_disabled]
  · simp only [Datapath.clock, hwr, w.memWr_inactive, Mem.write_inactive]

/-- Only a SYSTEM instruction starts in the state a matrix has for it. -/
theorem decodeNext_eq {ir : Word} (h : irOpcode ir ≠ .iTypeE) (s s' : InstructionState) :
    decodeNext s ir = decodeNext s' ir := by
  unfold decodeNext
  cases ho : irOpcode ir <;> first | rfl | exact absurd ho h

theorem executeControl_irLd (s : InstructionState) (ir : Word) (taken : Bool) :
    (executeControl s ir taken).irLd = rgLdDisabled := by
  cases s <;> rfl

/-- Only the shared states follow inside an instruction. -/
theorem executeNext_shared {s s' : InstructionState} {ir : Word} (h : executeNext s ir = .next s') :
    shared s' := by
  unfold executeNext at h
  repeat' split at h
  all_goals
    cases h
    try rfl

/-- The datapath between two instructions: the memory output is the next one. -/
structure Ready (a : Arch) (d : Datapath) : Prop where
  arch : d.arch = a
  storage : d.storage = a.fetched

/-- What Fetch leaves. -/
structure Fetched (a : Arch) (d : Datapath) : Prop where
  arch : d.arch = a
  ir_eq : d.ir = a.fetched
  pcPrior : d.pcPrior = a.pc

section Fetch
variable {w : Wiring} {a : Arch} {d : Datapath}

theorem Ready.self (h : Ready a d) : Ready d.arch d := by
  rw [h.arch]
  exact h

theorem Fetched.self (h : Fetched a d) : Fetched d.arch d := by
  rw [h.arch]
  exact h

/-- The ALU and `rd_data` have no part in Fetch. -/
theorem Ready.fetch (h : Ready a d) (op : BitVec 6) (data : Word) :
    Fetched a (d.clock w { fetchControl with aluOp := op, rdData := data }) where
  arch := by
    rw [← h.arch]
    simp [Datapath.arch, Datapath.clock, fetchControl, Control.idle, register, w.memWr_inactive]
  ir_eq := by
    rw [← h.storage]
    simp [Datapath.clock, fetchControl, Control.idle, register, Datapath.pmmuOut, Pmmu.rdOut]
  pcPrior := by
    rw [← h.arch]
    simp [Datapath.arch, Datapath.clock, fetchControl, Control.idle, register]

/-- Decode steps pc. -/
theorem decode_pc (w : Wiring) (d : Datapath) : (d.clock w decodeControl).pc = d.pc + 4 := by
  simp [Datapath.clock, decodeControl, Control.idle, register, Datapath.pcSrcOut, w.pcMux_aluImm,
    Datapath.aluImmOut, Datapath.aMuxOut, Datapath.bMuxOut, mux4]

theorem Fetched.decode (h : Fetched a d) :
    Decoded a.fetched a (d.clock w decodeControl) where
  ir_eq := by
    rw [← h.ir_eq]
    simp [Datapath.clock, decodeControl, Control.idle, register]
  pc := by
    rw [decode_pc, ← h.arch]
    rfl
  pcPrior := by
    rw [← h.pcPrior]
    simp [Datapath.clock, decodeControl, Control.idle, register]
  regs := by
    rw [← h.arch]
    simp [Datapath.arch, Datapath.clock, decodeControl, Control.idle]
  mem := by
    rw [← h.arch]
    simp [Datapath.arch, Datapath.clock, decodeControl, Control.idle, w.memWr_inactive]
  rsa := by
    rw [← h.ir_eq, ← h.arch]
    simp [Datapath.clock, decodeControl, Control.idle, register, w.rsaLd_enabled,
      Datapath.rs1Out, srcA, Datapath.arch]
  rsb := by
    rw [← h.ir_eq, ← h.arch]
    simp [Datapath.clock, Datapath.rs2Out, srcB, Datapath.arch]

/-- Reading the memory at pc, with nothing else enabled, readies the next fetch. -/
theorem ready_preFetch (op : BitVec 6) (data : Word) :
    Ready d.arch (d.clock w { preFetchControl with aluOp := op, rdData := data }) where
  arch := by
    simp [Datapath.arch, Datapath.clock, preFetchControl, Control.idle, register,
      w.memWr_inactive]
  storage := by
    simp [Datapath.arch, Datapath.clock, preFetchControl, Control.idle, register, Arch.fetched,
      Datapath.addrMux, mux2]

end Fetch

end RangerRisc
