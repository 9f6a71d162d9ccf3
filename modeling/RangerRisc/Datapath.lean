import RangerRisc.Pmmu

/-! The datapath between the registers, shared by the four `RangerRisc*.sv` processors,
and how each of them wires the few nets in which they differ. -/

namespace RangerRisc

/-- The outputs of a control matrix. -/
structure Control where
  irLd : Bool
  pcLd : Bool
  pcpLd : Bool
  flagsLd : Bool
  pcSrc : BitVec 3
  memWr : Bool
  memRd : Bool
  addrSrc : Bool
  rstSrc : Bool
  rgWr : Bool
  aSrc : BitVec 2
  bSrc : BitVec 2
  aluLd : Bool
  aluOp : BitVec 6
  wdSrc : BitVec 2
  rsaLd : Bool
  rdData : Word
  mdrLd : Bool
  deriving DecidableEq, Repr

/-- The defaults at the top of every matrix's combinational block. -/
def Control.idle : Control where
  irLd := rgLdDisabled
  pcLd := rgLdDisabled
  pcpLd := rgLdDisabled
  flagsLd := rgLdDisabled
  pcSrc := pcSrcAluImm
  memWr := rwInActive
  memRd := rwInActive
  addrSrc := false
  rstSrc := false
  rgWr := rgLdDisabled
  aSrc := aSrcPC
  bSrc := bSrcFour
  aluLd := rgLdDisabled
  aluOp := addOp
  wdSrc := wdSrcImm
  rsaLd := rgLdEnabled
  rdData := 0
  mdrLd := rgLdDisabled

/-- Everything the negative edge of the clock loads outside the control matrix. -/
structure Datapath where
  pc : Word
  pcPrior : Word
  ir : Word
  aluOut : Word
  aluFlags : BitVec 4
  mdr : Word
  rsa : Word
  rsb : Word
  bank : Bank
  mem : Mem
  /-- The registered output of the memory, `storage_data_out`. -/
  storage : Word

/-- Everything zero but the memory, which holds `word` everywhere. -/
def Datapath.filled (word : Word) : Datapath where
  pc := 0
  pcPrior := 0
  ir := 0
  aluOut := 0
  aluFlags := 0
  mdr := 0
  rsa := 0
  rsb := 0
  bank := fun _ => 0
  mem := fun _ => word
  storage := word

/-- The nets that the processors wire differently, and what they have in common there. -/
structure Wiring where
  undef : Word
  resetVector : Word
  /-- `pc_mux` as a function of its select code, the ALU result, ALUOut, the CSR
  data of the control matrix and the memory output. -/
  pcMux : BitVec 3 → Word → Word → Word → Word → Word
  /-- `ld_i` of the RsA register. -/
  rsaLd : Bool → Bool
  /-- The last input of the write-back multiplexer. -/
  wdData3 : Word → Word
  /-- The memory's write strobe, from the strobe of the matrix and the address. -/
  memWr : Bool → Word → Bool
  pcMux_aluImm : ∀ a b c e, pcMux pcSrcAluImm a b c e = a
  pcMux_resetVec : ∀ a b c e, pcMux pcSrcResetVec a b c e = resetVector
  rsaLd_enabled : rsaLd rgLdEnabled = rgLdEnabled
  memWr_inactive : ∀ addr, memWr rwInActive addr = rwInActive

namespace Wiring

/-- `modules/RangerRisc.sv`. -/
def rangerRisc (undef : Word) : Wiring where
  undef := undef
  resetVector := 0x00000010 * 4
  pcMux := fun select aluImm aluOut _ pmmu =>
    mux8 select aluImm aluOut (0x00000010 * 4) pmmu 0 0 0 0
  rsaLd := fun _ => alwaysLoad
  wdData3 := fun _ => undef
  memWr := fun wr _ => wr
  pcMux_aluImm _ _ _ _ := rfl
  pcMux_resetVec _ _ _ _ := rfl
  rsaLd_enabled := rfl
  memWr_inactive _ := rfl

/-- `modules/RangerRiscCSRs.sv`. -/
def rangerRiscCSRs (undef resetVector : Word) : Wiring where
  undef := undef
  resetVector := resetVector
  pcMux := fun select aluImm aluOut rdData pmmu =>
    mux8 select aluImm aluOut resetVector rdData pmmu 0 0 0
  rsaLd := fun ld => ld
  wdData3 := fun rdData => rdData
  memWr := fun wr _ => wr
  pcMux_aluImm _ _ _ _ := rfl
  pcMux_resetVec _ _ _ _ := rfl
  rsaLd_enabled := rfl
  memWr_inactive _ := rfl

/-- `Synthesis/ranger_risc/csrs/RangerRiscProcessor.sv` and
`simulation/ranger_microcode/RangerRisc.sv`: a store with address bit 11 set goes to
IO, the memory does not see it. -/
def memoryMapped (undef resetVector : Word) : Wiring :=
  { rangerRiscCSRs undef resetVector with
    memWr := fun wr addr => wr || addr.getLsbD 11
    memWr_inactive := fun _ => rfl }

end Wiring

namespace Datapath

variable (w : Wiring) (c : Control) (d : Datapath)

/-! ## Nets -/

def rstSrcOut : BitVec 3 := mux2 c.rstSrc (funct3 d.ir) 0b010#3
def addrMux : Word := mux2 c.addrSrc d.pc d.aluOut
def pmmuOut : Word := Pmmu.rdOut (rstSrcOut c d) (addrMux c d) c.memRd d.storage

def rs1Out : Word := d.bank.read (rs1 d.ir)
def rs2Out : Word := d.bank.read (rs2 d.ir)

def immExtOut : Word := immediate w.undef d.ir
def aMuxOut : Word := mux4 c.aSrc d.pc d.pcPrior 0 d.rsa
def bMuxOut : Word := mux4 c.bSrc d.rsb 4 (immExtOut w d) 0

def aluImmOut : Word := ALU.yOut w.undef (aMuxOut c d) (bMuxOut w c d) c.aluOp
def aluFlagsOut : BitVec 4 :=
  ALU.flagsOut w.undef (aMuxOut c d) (bMuxOut w c d) c.aluOp

def pcSrcOut : Word := w.pcMux c.pcSrc (aluImmOut w c d) d.aluOut c.rdData (pmmuOut c d)
def wdSrcOut : Word := mux4 c.wdSrc (aluImmOut w c d) d.aluOut d.mdr (w.wdData3 c.rdData)

/-- One negative edge: every register loads from the values before the edge, the
memory output too when it is read in the same edge as it is written. -/
def clock : Datapath where
  pc := register c.pcLd (pcSrcOut w c d) d.pc
  pcPrior := register c.pcpLd d.pc d.pcPrior
  ir := register c.irLd (pmmuOut c d) d.ir
  aluOut := register c.aluLd (aluImmOut w c d) d.aluOut
  aluFlags := register c.flagsLd (aluFlagsOut w c d) d.aluFlags
  mdr := register c.mdrLd (pmmuOut c d) d.mdr
  rsa := register (w.rsaLd c.rsaLd) (rs1Out d) d.rsa
  rsb := rs2Out d
  bank := d.bank.write c.rgWr (dstRg d.ir) (wdSrcOut w c d)
  mem := d.mem.write (w.memWr c.memWr (addrMux c d)) (Pmmu.wordAddr (addrMux c d))
    (Pmmu.storeData (rstSrcOut c d) (addrMux c d) d.rsb d.storage)
  storage := register c.memRd (d.mem (Pmmu.wordAddr (addrMux c d))) d.storage

end Datapath

end RangerRisc
