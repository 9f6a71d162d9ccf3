import RangerRisc.Definitions
import RangerRisc.Lib.Accumulator

/-! `UARTTx.sv`, `UARTRx.sv` and `CDCSynchron.sv`, built with one stop bit, and the
loopback of `uart_tx_rx_multibyte`: the transmitter's line is the receiver's, and both
run on one source clock. -/

namespace RangerRisc

open PhaseAccumulator

abbrev Byte := BitVec 8

/-! ## The baud rate -/

def BAUD : ℕ := 115200
def SOURCE_FREQ : ℕ := 25000000
def ACCUMULATOR_WIDTH : ℕ := 16
def STOP_BITS : BitVec 2 := 1

def COUNT_INC : BitVec 17 :=
  BitVec.ofNat 17
    ((BAUD <<< (ACCUMULATOR_WIDTH - 4) + SOURCE_FREQ >>> 5) / (SOURCE_FREQ >>> 4))

def baudTick (counter : BitVec 17) : Bool := counter.getLsbD ACCUMULATOR_WIDTH
def baudHalfTick (counter : BitVec 17) : Bool := counter.getLsbD (ACCUMULATOR_WIDTH - 1)
def baudQuarterTick (counter : BitVec 17) : Bool := counter.getLsbD (ACCUMULATOR_WIDTH - 2)

/-- The baud counter `n` edges after it was cleared. -/
def counterAt (n : ℕ) : BitVec 17 := phase COUNT_INC n

@[simp] theorem counterAt_zero : counterAt 0 = 0 := phase_zero _

@[simp] theorem counterAt_succ (n : ℕ) : counterAt n + COUNT_INC = counterAt (n + 1) :=
  phase_succ _ n

theorem baudTick_counterAt {n : ℕ} (hn : n ≤ 218) : baudTick (counterAt n) = decide (n = 218) :=
  getLsbD_phase (i := 16) (by decide) (by decide) (by decide) hn

theorem baudHalfTick_counterAt {n : ℕ} (hn : n ≤ 109) :
    baudHalfTick (counterAt n) = decide (n = 109) :=
  getLsbD_phase (i := 15) (by decide) (by decide) (by decide) hn

theorem baudQuarterTick_counterAt {n : ℕ} (hn : n ≤ 55) :
    baudQuarterTick (counterAt n) = decide (n = 55) :=
  getLsbD_phase (i := 14) (by decide) (by decide) (by decide) hn

/-! ## The transmitter -/

inductive TxState where
  | txReset | txIdle | txStartBit | txSending | txStopBit | txComplete
  deriving DecidableEq, Repr

structure UARTTx where
  state : TxState
  baudCounter : BitVec 17
  bitCnt : BitVec 3
  txBits : Byte
  stopBits : BitVec 2
  txOut : Bool
  txComplete : Bool
  deriving DecidableEq

/-- `tx_en` is active low. The module does not read its `reset`. -/
structure TxInput where
  txEn : Bool
  txByte : Byte

/-- Every edge advances the counter, unless the state clears it. -/
def UARTTx.clock (i : TxInput) (t : UARTTx) : UARTTx :=
  let t' := { t with baudCounter := t.baudCounter + COUNT_INC }
  match t.state with
  | .txReset => { t' with txBits := 0, txComplete := false, state := .txIdle }
  | .txIdle =>
    if !i.txEn then
      { t' with state := .txStartBit, txOut := false, txBits := i.txByte, baudCounter := 0 }
    else { t' with txOut := true }
  | .txStartBit =>
    if baudTick t.baudCounter then
      { t' with
        state := .txSending, txOut := t.txBits.getLsbD 0, baudCounter := 0, bitCnt := 7 }
    else t'
  | .txSending =>
    if baudTick t.baudCounter then
      -- the counter and the shift register move on whether this was the last bit or not
      let t'' := { t' with baudCounter := 0, txBits := t.txBits >>> 1, bitCnt := t.bitCnt - 1 }
      if t.bitCnt = 0 then
        { t'' with state := .txStopBit, txOut := true, stopBits := STOP_BITS }
      else { t'' with txOut := t.txBits.getLsbD 0 }
    else { t' with txOut := t.txBits.getLsbD 0 }
  | .txStopBit =>
    if 0 < t.stopBits then
      if baudTick t.baudCounter then
        { t' with baudCounter := 0, bitCnt := 0, stopBits := t.stopBits - 1 }
      else t'
    else { t' with state := .txComplete, txComplete := true }
  | .txComplete => { t' with state := .txIdle, txComplete := false }

/-! ## The receiver -/

/-- The synchroniser: three flip-flops in a row. -/
structure CDCSynchron where
  bit0 : Bool
  bit1 : Bool
  bit2 : Bool
  deriving DecidableEq

namespace CDCSynchron

def clock (asyncI : Bool) (c : CDCSynchron) : CDCSynchron :=
  { bit2 := c.bit1, bit1 := c.bit0, bit0 := asyncI }

def risingO (c : CDCSynchron) : Bool := !c.bit2 && c.bit1
def fallingO (c : CDCSynchron) : Bool := c.bit2 && !c.bit1
def syncO (c : CDCSynchron) : Bool := c.bit1

end CDCSynchron

inductive RxState where
  | rxReset | rxIdle | rxHalfBit | rxStartBit | rxReceiving | rxStopBit | rxComplete
  deriving DecidableEq, Repr

structure UARTRx where
  rxSync : CDCSynchron
  state : RxState
  baudCounter : BitVec 17
  bitCnt : BitVec 3
  rxBits : Byte
  rxByte : Byte
  rxComplete : Bool
  deriving DecidableEq

/-- `reset` is active low. -/
structure RxInput where
  reset : Bool
  rxIn : Bool

/-- `{Rx_sync, rx_bits[7:1]}`: the bit received last is the most significant. -/
def sampleBit (b : Bool) (bits : Byte) : Byte := BitVec.cons b (bits.extractLsb' 1 7)

def UARTRx.clock (i : RxInput) (r : UARTRx) : UARTRx :=
  let r' := { r with
    rxSync := r.rxSync.clock i.rxIn, baudCounter := r.baudCounter + COUNT_INC }
  let r'' := match r.state with
    | .rxReset =>
      { r' with rxBits := 0, rxComplete := false, state := .rxIdle, baudCounter := 0, rxByte := 0 }
    | .rxIdle =>
      if r.rxSync.fallingO then
        { r' with state := .rxStartBit, rxByte := 0, rxBits := 0, baudCounter := 0 }
      else r'
    | .rxStartBit =>
      if baudHalfTick r.baudCounter then { r' with state := .rxHalfBit, baudCounter := 0 } else r'
    | .rxHalfBit =>
      if baudTick r.baudCounter then
        { r' with
          state := .rxReceiving, baudCounter := 0, bitCnt := 7
          rxBits := sampleBit r.rxSync.syncO r.rxBits }
      else r'
    | .rxReceiving =>
      if baudTick r.baudCounter then
        if r.bitCnt = 0 then { r' with state := .rxStopBit, baudCounter := 0 }
        else
          { r' with
            rxBits := sampleBit r.rxSync.syncO r.rxBits, bitCnt := r.bitCnt - 1
            baudCounter := 0 }
      else r'
    | .rxStopBit =>
      let r₁ := { r' with rxByte := r.rxBits }
      if baudQuarterTick r.baudCounter && r.rxSync.syncO then
        { r₁ with state := .rxComplete, baudCounter := 0, bitCnt := 0, rxComplete := true }
      else r₁
    | .rxComplete => { r' with rxComplete := false, state := .rxIdle }
  if !i.reset then { r'' with state := .rxReset } else r''

/-! ## The loopback -/

structure Loopback where
  tx : UARTTx
  rx : UARTRx
  deriving DecidableEq

/-- What drives the two modules; `rx_in` is the transmitter's line. -/
structure LoopbackInput where
  reset : Bool
  txEn : Bool
  txByte : Byte

def Loopback.clock (i : LoopbackInput) (l : Loopback) : Loopback :=
  { tx := l.tx.clock ⟨i.txEn, i.txByte⟩, rx := l.rx.clock ⟨i.reset, l.tx.txOut⟩ }

/-- Both machines idle on a line that has been high for as long as the synchroniser sees. -/
structure Loopback.Idle (l : Loopback) : Prop where
  tx : l.tx.state = .txIdle
  txOut : l.tx.txOut = true
  txComplete : l.tx.txComplete = false
  rx : l.rx.state = .rxIdle
  rxComplete : l.rx.rxComplete = false
  rxSync : l.rx.rxSync = ⟨true, true, true⟩

end RangerRisc
