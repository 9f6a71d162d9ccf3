import RangerRisc.Lib.ShiftRegister
import RangerRisc.Uart

/-! The SPI link of `simulation/spi_sync8`: `IOModule.sv`, `SPIMaster.sv` and
`SPISlave_mcp23s17.sv` on one system clock. A cycle is from positive edge to positive edge:
what is clocked on the negative edge sees the registers and the inputs of the cycle, what is
clocked on the positive one sees also what the negative edge changed, and what is clocked by
the divided clock follows when the divider has changed. -/

namespace RangerRisc

open Clocked ShiftRegister

/-- `modules/Memory.sv` with 4 address bits. Both ports act on the negative edge and are
enabled low; a read returns what was there before. -/
structure Memory where
  mem : BitVec 4 → Byte
  dataO : Byte

def Memory.negedge (dataI : Byte) (addrI : BitVec 4) (wrI rdI : Bool) (m : Memory) : Memory :=
  { mem := if !wrI then Function.update m.mem addrI dataI else m.mem
    dataO := if !rdI then m.mem addrI else m.dataO }

/-! ## The master -/

inductive MasterState where
  | msIdle | msStart | msBegin | msTransmitting | msComplete
  deriving DecidableEq, Repr

structure SPIMaster where
  state : MasterState
  misoSync : CDCSynchron
  bitCnt : BitVec 3
  rxBits : Byte
  txBits : Byte
  mosi : Bool
  byteTxComplete : Bool
  rxByte : Byte

namespace SPIMaster

/-- The gated clock; `txEn` is active low. -/
def outSpiClk (spiClk txEn : Bool) (m : SPIMaster) : Bool :=
  (m.state = .msTransmitting || m.state = .msComplete) && !txEn && spiClk

/-- The data for the next leading edge. -/
def negSpiClk (txByte : Byte) (m : SPIMaster) : SPIMaster :=
  match m.state with
  | .msIdle => { m with txBits := txByte }
  | .msBegin => { m with mosi := m.txBits.msb, txBits := m.txBits <<< 1 }
  | .msTransmitting => { m with mosi := m.txBits.msb, txBits := m.txBits <<< 1 }
  | _ => m

def posSpiClk (txEn : Bool) (m : SPIMaster) : SPIMaster :=
  match m.state with
  | .msIdle =>
    if !txEn then { m with bitCnt := 7, rxBits := 0, state := .msBegin, byteTxComplete := false }
    else m
  | .msBegin =>
    { m with
      bitCnt := m.bitCnt - 1, rxBits := shiftIn m.rxBits m.misoSync.syncO
      state := .msTransmitting }
  | .msTransmitting =>
    let m' := { m with
      rxBits := shiftIn m.rxBits m.misoSync.syncO, bitCnt := m.bitCnt - 1 }
    if m.bitCnt = 0 then
      { m' with
        state := .msComplete, byteTxComplete := true
        rxByte := shiftIn m.rxBits m.misoSync.syncO }
    else m'
  | .msComplete => { m with state := .msIdle, byteTxComplete := false }
  | _ => m

end SPIMaster

/-! ## The slave -/

inductive SlaveState where
  | slIdle | slTransmit | slShift | slLoad | slLoad2 | slCSLoad | slCSLoad2
  deriving DecidableEq, Repr

/-- `modules/ParallelLoadShiftReg.sv`, on the negative edge; `load` and `shift` are active low
and `reset` is tied high. -/
def parallelLoadShiftReg (load shift : Bool) (dataIn q : Byte) : Byte :=
  if !load then dataIn else if !shift then q <<< 1 else q

/-- `rxBuf` has three cells; the fourth is never addressed. -/
structure SPISlave where
  state : SlaveState
  rxByte : Byte
  sclkSync : CDCSynchron
  mosiSync : CDCSynchron
  ssSync : CDCSynchron
  bitCnt : BitVec 3
  shift : Bool
  loadData : Bool
  shiftData : Byte
  bufCnt : BitVec 2
  dataSelect : BitVec 2
  rxBuf : BitVec 2 → Byte

/-- What the slave samples of the lines; `cs` is active low. -/
structure SlaveInput where
  spiClk : Bool
  cs : Bool
  mosi : Bool

def ioConResponse : Byte := 0x28
def ioDirResponse : Byte := 0xF9
def ioIpoResponse : Byte := 0xE4

namespace SPISlave

def miso (s : SPISlave) : Bool := s.shiftData.msb

/-- `data_out_mux`, a `Mux4`. -/
def dataOutVal (s : SPISlave) : Byte :=
  if s.dataSelect = 0 then ioConResponse
  else if s.dataSelect = 1 then ioDirResponse
  else if s.dataSelect = 2 then ioIpoResponse
  else 0

def negedge (s : SPISlave) : SPISlave :=
  { s with shiftData := parallelLoadShiftReg s.loadData s.shift s.dataOutVal s.shiftData }

def finalFall (s : SPISlave) : Bool := s.state = .slIdle && s.sclkSync.fallingO

def startEnd (s : SPISlave) : Bool := s.ssSync.fallingO || s.finalFall

def pattern1 (s : SPISlave) : Bool := s.rxBuf 0 = 0x41 && s.rxBuf 1 = 0x0A
def pattern2 (s : SPISlave) : Bool := s.rxBuf 0 = 0x41 && s.rxBuf 1 = 0x0F
def pattern3 (s : SPISlave) : Bool := s.rxBuf 0 = 0x41 && s.rxBuf 1 = 0x00

/-- `rx_buf[0]` and `rx_buf[1]` filled with ones. -/
def clearBuf (rxBuf : BitVec 2 → Byte) : BitVec 2 → Byte :=
  Function.update (Function.update rxBuf 0 0xFF) 1 0xFF

/-! The blocks of the positive edge: `s` is before it, `t` is what the blocks above have
assigned. -/

/-- What is assigned at every edge. -/
def sampled (i : SlaveInput) (s : SPISlave) : SPISlave :=
  { s with
    sclkSync := s.sclkSync.clock i.spiClk, mosiSync := s.mosiSync.clock i.mosi
    ssSync := s.ssSync.clock i.cs, shift := true, loadData := true, dataSelect := 3 }

def ssFalling (s t : SPISlave) : SPISlave :=
  if s.ssSync.fallingO then
    { t with bufCnt := 0, rxBuf := clearBuf s.rxBuf, state := .slIdle }
  else t

def sclkFalling (s t : SPISlave) : SPISlave :=
  if s.sclkSync.fallingO && s.state = .slTransmit then
    { t with shift := false, state := .slShift }
  else t

def shifted (s t : SPISlave) : SPISlave :=
  if s.state = .slShift then { t with state := .slTransmit } else t

def sclkRising (s t : SPISlave) : SPISlave :=
  if s.sclkSync.risingO then
    let t' := { t with rxByte := shiftIn s.rxByte s.mosiSync.syncO }
    match s.state with
    | .slIdle => { t' with state := .slTransmit }
    | .slTransmit =>
      if s.bitCnt = 0 then { t' with state := .slIdle } else { t' with bitCnt := s.bitCnt - 1 }
    | _ => t'
  else t

def respond (pattern : Bool) (dataSelect : BitVec 2) (s t : SPISlave) : SPISlave :=
  if pattern && s.state = .slIdle then { t with state := .slLoad, dataSelect, loadData := false }
  else t

def loaded (s t : SPISlave) : SPISlave :=
  if s.state = .slLoad then { t with state := .slIdle, rxBuf := clearBuf s.rxBuf } else t

def capture (s t : SPISlave) : SPISlave :=
  if s.finalFall then
    { t with
      rxBuf := Function.update t.rxBuf s.bufCnt s.rxByte
      bufCnt := if s.bufCnt = 2 then 0 else s.bufCnt + 1
      rxByte := 0 }
  else t

def restart (s t : SPISlave) : SPISlave := if s.startEnd then { t with bitCnt := 6 } else t

/-- In the order of the source: of two assignments to a register the later one holds. -/
def posedge (i : SlaveInput) (s : SPISlave) : SPISlave :=
  restart s <| capture s <| loaded s <|
    respond s.pattern3 2 s <| respond s.pattern2 1 s <| respond s.pattern1 0 s <|
      sclkRising s <| shifted s <| sclkFalling s <| ssFalling s <| s.sampled i

def clock (i : SlaveInput) (s : SPISlave) : SPISlave := s.negedge.posedge i

end SPISlave

/-! ## The IO module -/

inductive IOState where
  | ioBoot | ioReset | ioIdle | ioBegin | ioSend | ioNext | ioComplete
  deriving DecidableEq, Repr

structure IOModule where
  state : IOState
  txByteCnt : BitVec 4
  txStrAddr : BitVec 4
  txBuf : Memory
  rxStrAddr : BitVec 4
  rxBuf : Memory
  sysClkCnt : BitVec 4
  mastSpiClk : Bool
  pMastSpiClk : Bool
  pByteSent : Bool
  pSpiClk : Bool

/-- `reset`, `send`, `txWr` and `rxRd` are active low. `rx_addr` is connected to nothing. -/
structure IOInput where
  reset : Bool
  send : Bool
  txAddr : BitVec 4
  txByte : Byte
  txWr : Bool
  rxRd : Bool

/-- What the module sees of its master. -/
structure MasterLines where
  byteSent : Bool
  spiClk : Bool
  byteFromSlave : Byte

namespace IOModule

def byteSentFalling (byteSent : Bool) (m : IOModule) : Bool := m.pByteSent && !byteSent

def spiClkFalling (l : MasterLines) (m : IOModule) : Bool := m.pSpiClk && !l.spiClk

def txAddrIdx (i : IOInput) (m : IOModule) : BitVec 4 := if !i.txWr then i.txAddr else m.txStrAddr

def rxWr (l : MasterLines) (m : IOModule) : Bool := !(m.spiClkFalling l && l.byteSent)

def mastSpiClkRising (m : IOModule) : Bool := !m.pMastSpiClk && m.mastSpiClk

/-- Active low. -/
def txRd (m : IOModule) : Bool :=
  match m.state with
  | .ioBegin => !m.mastSpiClkRising
  | .ioNext => false
  | _ => true

/-- Active low. -/
def spiSend (byteSent : Bool) (m : IOModule) : Bool :=
  match m.state with
  | .ioSend => m.byteSentFalling byteSent
  | _ => true

/-- Active low. -/
def cs (m : IOModule) : Bool :=
  match m.state with
  | .ioBegin | .ioSend | .ioNext => false
  | _ => true

def ioComplete (m : IOModule) : Bool := m.state = .ioComplete

/-- The address is compared at 32 bits, where a count of 0 less 1 is no address. -/
def lastByte (i : IOInput) (m : IOModule) : Bool :=
  (m.txAddrIdx i).setWidth 32 = m.txByteCnt.setWidth 32 - 1

def nextState (i : IOInput) (byteSent : Bool) (m : IOModule) : IOState :=
  match m.state with
  | .ioBoot => if !i.reset then .ioReset else .ioBoot
  | .ioReset => .ioIdle
  | .ioIdle => if !i.send then .ioBegin else .ioIdle
  | .ioBegin => if m.mastSpiClkRising then .ioSend else .ioBegin
  | .ioSend =>
    if m.byteSentFalling byteSent then if m.lastByte i then .ioComplete else .ioNext else .ioSend
  | .ioNext => .ioSend
  | .ioComplete => .ioIdle

def negedge (i : IOInput) (l : MasterLines) (m : IOModule) : IOModule :=
  { m with
    txBuf := m.txBuf.negedge i.txByte (m.txAddrIdx i) i.txWr m.txRd
    rxBuf := m.rxBuf.negedge l.byteFromSlave m.rxStrAddr (m.rxWr l) i.rxRd }

/-- The wires are those before the edge, the `p_` registers being assigned at it. -/
def posedge (i : IOInput) (l : MasterLines) (m : IOModule) : IOModule :=
  let m' := { m with
    pByteSent := l.byteSent, pSpiClk := l.spiClk, pMastSpiClk := m.mastSpiClk
    state := if !i.reset then .ioReset else m.nextState i l.byteSent
    sysClkCnt := if m.sysClkCnt = 5 then 0 else m.sysClkCnt + 1
    mastSpiClk := if m.sysClkCnt = 5 then !m.mastSpiClk else m.mastSpiClk }
  match m.state with
  | .ioIdle =>
    { m' with
      txStrAddr := 0, rxStrAddr := 0
      txByteCnt := if !i.txWr then m.txByteCnt + 1 else m.txByteCnt }
  | .ioSend => if m.byteSentFalling l.byteSent then { m' with txStrAddr := m.txStrAddr + 1 } else m'
  | .ioNext => { m' with rxStrAddr := m.rxStrAddr + 1 }
  | .ioComplete => { m' with txByteCnt := 0 }
  | _ => m'

def clock (i : IOInput) (l : MasterLines) (m : IOModule) : IOModule := (m.negedge i l).posedge i l

end IOModule

/-! ## The link -/

structure SpiLink where
  io : IOModule
  master : SPIMaster
  slave : SPISlave

namespace SpiLink

def spiSend (s : SpiLink) : Bool := s.io.spiSend s.master.byteTxComplete

def spiClk (s : SpiLink) : Bool := s.master.outSpiClk s.io.mastSpiClk s.spiSend

def masterLines (s : SpiLink) : MasterLines :=
  ⟨s.master.byteTxComplete, s.spiClk, s.master.rxByte⟩

def slaveInput (s : SpiLink) : SlaveInput := ⟨s.spiClk, s.io.cs, s.master.mosi⟩

/-- The divided clock has changed from `pMastSpiClk` to `mastSpiClk`, if it has. -/
def spiClkEdge (pMastSpiClk mastSpiClk txEn : Bool) (txByte : Byte) (m : SPIMaster) : SPIMaster :=
  if !pMastSpiClk && mastSpiClk then m.posSpiClk txEn
  else if pMastSpiClk && !mastSpiClk then m.negSpiClk txByte
  else m

def clock (i : IOInput) (s : SpiLink) : SpiLink :=
  let io := s.io.clock i s.masterLines
  let slave := s.slave.clock s.slaveInput
  -- the synchroniser samples what the slave shows after the negative edge
  let m := { s.master with misoSync := s.master.misoSync.clock s.slave.negedge.miso }
  let txEn := io.spiSend m.byteTxComplete
  { io, slave, master := spiClkEdge s.io.mastSpiClk io.mastSpiClk txEn io.txBuf.dataO m }

end SpiLink

/-! ## What is observed -/

/-- A rising edge of the SPI clock with the slave's shift register, and a byte that has come to
a place of the master's or of the slave's `rx_buf`. -/
inductive SpiEvent where
  | rise (shiftData : Byte)
  | store (addr : BitVec 4) (byte : Byte)
  | capture (idx : BitVec 2) (byte : Byte)
  deriving DecidableEq, Repr

def SPISlave.captures (i : SlaveInput) (s : SPISlave) : List SpiEvent :=
  if s.finalFall then [.capture s.bufCnt ((s.clock i).rxBuf s.bufCnt)] else []

namespace SpiLink

def stores (i : IOInput) (s : SpiLink) : List SpiEvent :=
  if !s.io.rxWr s.masterLines then
    [.store s.io.rxStrAddr ((s.clock i).io.rxBuf.mem s.io.rxStrAddr)]
  else []

def rises (i : IOInput) (s : SpiLink) : List SpiEvent :=
  if !s.spiClk && (s.clock i).spiClk then [.rise (s.clock i).slave.shiftData] else []

/-- The events of a cycle: on the negative edge, on the positive one, and after it. -/
def events (i : IOInput) (s : SpiLink) : List SpiEvent :=
  s.stores i ++ s.slave.captures s.slaveInput ++ s.rises i

end SpiLink

end RangerRisc
