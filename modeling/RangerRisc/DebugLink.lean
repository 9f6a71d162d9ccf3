import RangerRisc.UartFrame

/-! The debug link of `Synthesis/ranger_risc/csrs/Top.sv`: the state machine that controls the
module, with its transmitter and receiver. The status bytes are what the processor shows at
the time; the counter of the slow clock and the ports are left out. -/

namespace RangerRisc

open Clocked

/-! ## The controller -/

inductive ControlState where
  | csReset | csReset1 | csResetComplete
  | csCPUResetAssert | csCPUResetDeassert | csResetAssertToggle
  | csStatusRequest | csStatusSend | csStatusSending
  | csCPUClockRise | csCPUClockFall | csCPUClockToggle
  | csClockControlMan | csClockControlRun | csClockControlPll
  | csIdle | csSend | csSending
  deriving DecidableEq, Repr

/-- `tx_en` and `reset` are active low. -/
structure Controller where
  state : ControlState
  nextState : ControlState
  cntByte : BitVec 2
  cntResetHold : BitVec 4
  cntStatusReqByte : BitVec 7
  displayByte : Byte
  reset : Bool
  txEn : Bool
  txByte : Byte
  manClock : Bool
  clockSelect : BitVec 2
  deriving DecidableEq

/-- `status n` is the entry of the status bytes for the count `n`. -/
structure ControlInput where
  locked : Bool
  txComplete : Bool
  rxComplete : Bool
  rxByte : Byte
  status : BitVec 7 → Byte

/-- Where CSIdle goes for a byte. -/
def commandState (rxByte : Byte) : ControlState :=
  if rxByte = 0x72 then .csCPUResetAssert
  else if rxByte = 0x7A then .csCPUClockRise
  else if rxByte = 0x78 then .csCPUClockFall
  else if rxByte = 0x63 then .csCPUClockToggle
  else if rxByte = 0x65 then .csResetAssertToggle
  else if rxByte = 0x73 then .csStatusRequest
  else if rxByte = 0x6A then .csClockControlMan
  else if rxByte = 0x6B then .csClockControlRun
  else if rxByte = 0x6C then .csClockControlPll
  else .csSend

def commands : List Byte := [0x72, 0x7A, 0x78, 0x63, 0x65, 0x73, 0x6A, 0x6B, 0x6C]

/-- A byte with the state that it leads to. -/
inductive Command : Byte → ControlState → Prop
  | reset : Command 0x72 .csCPUResetAssert
  | clockRise : Command 0x7A .csCPUClockRise
  | clockFall : Command 0x78 .csCPUClockFall
  | clockToggle : Command 0x63 .csCPUClockToggle
  | resetToggle : Command 0x65 .csResetAssertToggle
  | statusRequest : Command 0x73 .csStatusRequest
  | clockMan : Command 0x6A .csClockControlMan
  | clockRun : Command 0x6B .csClockControlRun
  | clockPll : Command 0x6C .csClockControlPll
  | other {b : Byte} (hb : b ∉ commands) : Command b .csSend

theorem commandState_command (b : Byte) : Command b (commandState b) := by
  by_cases hb : b ∈ commands
  · simp only [commands, List.mem_cons, List.not_mem_nil, or_false] at hb
    rcases hb with rfl | rfl | rfl | rfl | rfl | rfl | rfl | rfl | rfl <;> constructor
  · have hstate : commandState b = .csSend := by
      simp only [commands, List.mem_cons, List.not_mem_nil, or_false, not_or] at hb
      obtain ⟨h1, h2, h3, h4, h5, h6, h7, h8, h9⟩ := hb
      rw [commandState, if_neg h1, if_neg h2, if_neg h3, if_neg h4, if_neg h5, if_neg h6,
        if_neg h7, if_neg h8, if_neg h9]
    rw [hstate]
    exact .other hb

/-- The bytes of CSSend. -/
def replyByte (cntByte : BitVec 2) (displayByte : Byte) : Byte :=
  if cntByte = 0 then
    if displayByte = 0x72 ∨ displayByte = 0x65 then 0x52
    else if displayByte = 0x7A ∨ displayByte = 0x78 ∨ displayByte = 0x63 then 0x43
    else if displayByte = 0x6A ∨ displayByte = 0x6B then 0x4B
    else 0x4F
  else if cntByte = 1 then
    if displayByte = 0x72 then 0x73
    else if displayByte = 0x7A then 0x72
    else if displayByte = 0x78 then 0x66
    else if displayByte = 0x63 then 0x74
    else if displayByte = 0x65 then 0x61
    else 0x6B
  else if cntByte = 2 then 0x0D
  else 0x0A

/-- The new state is the old `next_state`, which every state assigns one edge before it is
left: each of them runs at two edges at least. -/
def Controller.clock (i : ControlInput) (c : Controller) : Controller :=
  let c' := { c with state := c.nextState }
  match c.state with
  | .csReset =>
    { c' with
      reset := false, cntByte := 0, cntResetHold := 0, txEn := true, manClock := false
      clockSelect := 0, nextState := .csReset1 }
  | .csReset1 =>
    { c' with reset := false, nextState := if i.locked then .csResetComplete else c.nextState }
  | .csResetComplete => { c' with reset := true, nextState := .csIdle }
  | .csCPUResetAssert =>
    { c' with
      reset := false, cntResetHold := 0, txEn := true, manClock := !c.manClock
      nextState := .csCPUResetDeassert }
  | .csCPUResetDeassert =>
    if c.cntResetHold = 0b1111 then
      { c' with reset := true, nextState := .csSend, manClock := !c.manClock }
    else { c' with cntResetHold := c.cntResetHold + 1, manClock := !c.manClock }
  | .csResetAssertToggle => { c' with reset := !c.reset, nextState := .csSend }
  | .csCPUClockRise => { c' with manClock := true, nextState := .csSend }
  | .csCPUClockFall => { c' with manClock := false, nextState := .csSend }
  | .csCPUClockToggle => { c' with manClock := true, nextState := .csCPUClockFall }
  | .csClockControlMan => { c' with clockSelect := 0b00, nextState := .csSend }
  | .csClockControlRun => { c' with clockSelect := 0b01, nextState := .csSend }
  | .csClockControlPll => { c' with clockSelect := 0b10, nextState := .csSend }
  | .csStatusRequest => { c' with cntStatusReqByte := 0, nextState := .csStatusSend }
  | .csStatusSend =>
    { c' with
      txEn := false, nextState := .csStatusSending
      txByte := if c.cntStatusReqByte ≤ 68 then i.status c.cntStatusReqByte else c.txByte }
  | .csStatusSending =>
    if i.txComplete then
      if c.cntStatusReqByte = 0b1000100 then
        { c' with txEn := true, nextState := .csIdle, cntStatusReqByte := 0 }
      else
        { c' with
          txEn := true, nextState := .csStatusSend, cntStatusReqByte := c.cntStatusReqByte + 1 }
    else { c' with txEn := true }
  | .csIdle =>
    if i.rxComplete then
      { c' with displayByte := i.rxByte, nextState := commandState i.rxByte }
    else c'
  | .csSend =>
    { c' with
      txEn := false, nextState := .csSending, txByte := replyByte c.cntByte c.displayByte }
  | .csSending =>
    if i.txComplete then
      if c.cntByte = 0b11 then { c' with txEn := true, nextState := .csIdle, cntByte := 0 }
      else { c' with txEn := true, nextState := .csSend, cntByte := c.cntByte + 1 }
    else { c' with txEn := true }

/-! ## The controller with its transmitter -/

structure Sender where
  control : Controller
  tx : UARTTx
  deriving DecidableEq

/-- What the receiver, the PLL and the processor show. -/
structure SenderInput where
  locked : Bool
  rxComplete : Bool
  rxByte : Byte
  status : BitVec 7 → Byte

def Sender.clock (i : SenderInput) (s : Sender) : Sender where
  control := s.control.clock ⟨i.locked, s.tx.txComplete, i.rxComplete, i.rxByte, i.status⟩
  tx := s.tx.clock ⟨s.control.txEn, s.control.txByte⟩

/-- The whole link. -/
structure DebugLink where
  control : Controller
  tx : UARTTx
  rx : UARTRx
  deriving DecidableEq

structure DebugLinkInput where
  rxIn : Bool
  locked : Bool
  status : BitVec 7 → Byte

/-- The receiver is held in reset with the processor. -/
def DebugLink.clock (i : DebugLinkInput) (l : DebugLink) : DebugLink where
  control := l.control.clock ⟨i.locked, l.tx.txComplete, l.rx.rxComplete, l.rx.rxByte, i.status⟩
  tx := l.tx.clock ⟨l.control.txEn, l.control.txByte⟩
  rx := l.rx.clock ⟨l.control.reset, i.rxIn⟩

/-- The transmitter takes a byte. -/
def Sender.starts (s : Sender) : Bool := s.tx.state = .txIdle ∧ s.control.txEn = false

/-- The state machine waits for a command. -/
structure Controller.Ready (c : Controller) : Prop where
  state : c.state = .csIdle
  nextState : c.nextState = .csIdle
  cntByte : c.cntByte = 0
  cntStatusReqByte : c.cntStatusReqByte = 0
  reset : c.reset = true
  txEn : c.txEn = true

/-- A response is either the status bytes or the four bytes of CSSend. -/
inductive Mode where
  | reply | status
  deriving DecidableEq

namespace Mode

def sendState : Mode → ControlState
  | .reply => .csSend
  | .status => .csStatusSend

def waitState : Mode → ControlState
  | .reply => .csSending
  | .status => .csStatusSending

def length : Mode → ℕ
  | .reply => 4
  | .status => 69

def count : Mode → Controller → ℕ
  | .reply, c => c.cntByte.toNat
  | .status, c => c.cntStatusReqByte.toNat

def otherCount : Mode → Controller → ℕ
  | .reply, c => c.cntStatusReqByte.toNat
  | .status, c => c.cntByte.toNat

def byte : Mode → ControlInput → Controller → Byte
  | .reply, _, c => replyByte c.cntByte c.displayByte
  | .status, i, c => i.status c.cntStatusReqByte

end Mode

namespace Controller

/-- The controller between two states of sending byte `k`. -/
structure In (m : Mode) (state nextState : ControlState) (k : ℕ) (b : Byte) (c : Controller) :
    Prop where
  state : c.state = state
  nextState : c.nextState = nextState
  count : m.count c = k
  otherCount : m.otherCount c = 0
  displayByte : c.displayByte = b
  reset : c.reset = true

variable {m : Mode} {k : ℕ} {b : Byte} {c : Controller} (i : ControlInput)

/-- The first edge of a send state. -/
theorem In.send (h : In m m.sendState m.sendState k b c) (hk : k < m.length) :
    In m m.sendState m.waitState k b (c.clock i) ∧ (c.clock i).txEn = false ∧
      (c.clock i).txByte = m.byte i c := by
  obtain ⟨hstate, hnext, hcount, hother, hdisplay, hreset⟩ := h
  cases m with
  | reply =>
    refine ⟨⟨?_, ?_, ?_, ?_, ?_, ?_⟩, ?_, ?_⟩ <;>
      simp_all [clock, Mode.sendState, Mode.waitState, Mode.count, Mode.otherCount, Mode.byte]
  | status =>
    have hle : c.cntStatusReqByte ≤ 68 := by
      have : c.cntStatusReqByte.toNat < 69 := by
        rw [show c.cntStatusReqByte.toNat = k from hcount]
        exact hk
      bv_omega
    refine ⟨⟨?_, ?_, ?_, ?_, ?_, ?_⟩, ?_, ?_⟩ <;>
      simp_all [clock, Mode.sendState, Mode.waitState, Mode.count, Mode.otherCount, Mode.byte]

/-- The second one. -/
theorem In.sent (h : In m m.sendState m.waitState k b c) :
    In m m.waitState m.waitState k b (c.clock i) := by
  obtain ⟨hstate, hnext, hcount, hother, hdisplay, hreset⟩ := h
  cases m <;> constructor <;>
    simp_all [clock, Mode.sendState, Mode.waitState, Mode.count, Mode.otherCount]

/-- Waiting for the transmitter, and the edge that leaves the waiting state. -/
theorem In.wait {state : ControlState} (h : In m m.waitState state k b c)
    (hi : i.txComplete = false) : In m state state k b (c.clock i) ∧ (c.clock i).txEn = true := by
  obtain ⟨hstate, hnext, hcount, hother, hdisplay, hreset⟩ := h
  cases m <;> refine ⟨⟨?_, ?_, ?_, ?_, ?_, ?_⟩, ?_⟩ <;>
    simp_all [clock, Mode.waitState, Mode.count, Mode.otherCount]

/-- The end of a byte that is not the last one. -/
theorem In.complete (h : In m m.waitState m.waitState k b c) (hi : i.txComplete = true)
    (hk : k + 1 < m.length) :
    In m m.waitState m.sendState (k + 1) b (c.clock i) ∧ (c.clock i).txEn = true := by
  obtain ⟨hstate, hnext, hcount, hother, hdisplay, hreset⟩ := h
  cases m with
  | reply =>
    have hlast : c.cntByte ≠ 3 := by
      rintro h3
      rw [Mode.count, h3] at hcount
      subst hcount
      exact absurd hk (by decide)
    have hcnt : (c.cntByte + 1).toNat = k + 1 := by
      rw [Mode.count] at hcount
      bv_omega
    refine ⟨⟨?_, ?_, ?_, ?_, ?_, ?_⟩, ?_⟩ <;>
      simp_all [clock, Mode.sendState, Mode.waitState, Mode.count, Mode.otherCount]
  | status =>
    have hlast : c.cntStatusReqByte ≠ 68 := by
      rintro h68
      rw [Mode.count, h68] at hcount
      subst hcount
      exact absurd hk (by decide)
    have hcnt : (c.cntStatusReqByte + 1).toNat = k + 1 := by
      rw [Mode.count] at hcount
      have : k + 1 < 69 := hk
      bv_omega
    refine ⟨⟨?_, ?_, ?_, ?_, ?_, ?_⟩, ?_⟩ <;>
      simp_all [clock, Mode.sendState, Mode.waitState, Mode.count, Mode.otherCount]

/-- The end of the last byte. -/
theorem In.finish (h : In m m.waitState m.waitState k b c) (hi : i.txComplete = true)
    (hk : k + 1 = m.length) :
    In m m.waitState .csIdle 0 b (c.clock i) ∧ (c.clock i).txEn = true := by
  obtain ⟨hstate, hnext, hcount, hother, hdisplay, hreset⟩ := h
  cases m with
  | reply =>
    have hlast : c.cntByte = 3 := by
      have : k + 1 = 4 := hk
      rw [Mode.count] at hcount
      bv_omega
    refine ⟨⟨?_, ?_, ?_, ?_, ?_, ?_⟩, ?_⟩ <;>
      simp_all [clock, Mode.waitState, Mode.count, Mode.otherCount]
  | status =>
    have hlast : c.cntStatusReqByte = 68 := by
      have : k + 1 = 69 := hk
      rw [Mode.count] at hcount
      bv_omega
    refine ⟨⟨?_, ?_, ?_, ?_, ?_, ?_⟩, ?_⟩ <;>
      simp_all [clock, Mode.waitState, Mode.count, Mode.otherCount]

theorem In.ready (h : In m .csIdle .csIdle 0 b c) (hen : c.txEn = true) : c.Ready := by
  obtain ⟨hstate, hnext, hcount, hother, hdisplay, hreset⟩ := h
  have hzero : c.cntByte.toNat = 0 ∧ c.cntStatusReqByte.toNat = 0 := by
    cases m
    · exact ⟨hcount, hother⟩
    · exact ⟨hother, hcount⟩
  exact ⟨hstate, hnext, BitVec.eq_of_toNat_eq hzero.1, BitVec.eq_of_toNat_eq hzero.2, hreset, hen⟩

end Controller

/-! ## One byte of a response -/

namespace UARTTx

theorem Closing.wait {t : UARTTx} (h : Closing 0 t) (inp : TxInput) (hen : inp.txEn = true) :
    Closing 0 (t.clock inp) := by
  obtain ⟨hstate, hstop, hout, hcomplete⟩ := h
  constructor <;> simp_all [clock]

end UARTTx

namespace Sender

/-- About to send byte `k` of a response. -/
structure AtSend (m : Mode) (k : ℕ) (b : Byte) (s : Sender) : Prop where
  control : Controller.In m m.sendState m.sendState k b s.control
  txEn : s.control.txEn = true
  tx : UARTTx.Closing 0 s.tx

/-- Idle, with nothing on the line. -/
structure Resting (s : Sender) : Prop where
  control : s.control.Ready
  tx : UARTTx.Closing 0 s.tx

/-- What comes after byte `k`. -/
def AfterSend (m : Mode) (k : ℕ) (b : Byte) (s : Sender) : Prop :=
  if k + 1 = m.length then s.Resting else AtSend m (k + 1) b s

/-- Byte `k` of a response, from the first edge of its send state to the next byte's. -/
structure SendsByte (m : Mode) (k : ℕ) (run : ℕ → Sender) : Prop where
  reset : ∀ n ≤ 2195, (run n).control.reset = true
  starts : ∀ n < 2195, (run n).starts = decide (n = 1)
  count : m.count (run 1).control = k
  frame : UARTTx.Sends (run 1).control.txByte fun n => (run (2 + n)).tx

variable {m : Mode} {k : ℕ} {b : Byte} {s : Sender} (inp : ℕ → SenderInput)

/-- The controller and its inputs at an edge. -/
def controlInput (s : Sender) (i : SenderInput) : ControlInput :=
  ⟨i.locked, s.tx.txComplete, i.rxComplete, i.rxByte, i.status⟩

theorem clock_control (i : SenderInput) : (s.clock i).control =
    s.control.clock (s.controlInput i) :=
  rfl

theorem clock_tx (i : SenderInput) : (s.clock i).tx =
    s.tx.clock ⟨s.control.txEn, s.control.txByte⟩ :=
  rfl

theorem wait_clock {state : ControlState} (h : Controller.In m m.waitState state k b s.control)
    (hi : s.tx.txComplete = false) (i : SenderInput) :
    Controller.In m state state k b (s.clock i).control ∧ (s.clock i).control.txEn = true :=
  h.wait (s.controlInput i) hi

theorem idle_clock (h : UARTTx.Closing 0 s.tx) (hen : s.control.txEn = true) (i : SenderInput) :
    UARTTx.Closing 0 (s.clock i).tx :=
  h.wait ⟨s.control.txEn, s.control.txByte⟩ hen

/-- The edge that sees the completion. -/
theorem complete_clock (h : Controller.In m m.waitState m.waitState k b s.control)
    (hi : s.tx.txComplete = true) (hk : k < m.length) (i : SenderInput) :
    Controller.In m m.waitState (if k + 1 = m.length then .csIdle else m.sendState)
      (if k + 1 = m.length then 0 else k + 1) b (s.clock i).control ∧
        (s.clock i).control.txEn = true := by
  by_cases hend : k + 1 = m.length
  · rw [if_pos hend, if_pos hend]
    exact h.finish (s.controlInput i) hi hend
  · rw [if_neg hend, if_neg hend]
    exact h.complete (s.controlInput i) hi (by omega)

/-- The transmitter runs on its own once the byte is in. -/
theorem trace_tx (n j : ℕ) :
    (trace clock s inp (n + j)).tx = trace UARTTx.clock (trace clock s inp n).tx
      (fun l => ⟨(trace clock s inp (n + l)).control.txEn,
        (trace clock s inp (n + l)).control.txByte⟩) j := by
  induction j with
  | zero => rfl
  | succ j ih => rw [← Nat.add_assoc, trace_succ, trace_succ, clock_tx, ih]

/-- The course of byte `k`: the transmitter takes it, and the controller waits until its frame
is over. -/
structure Course (m : Mode) (k : ℕ) (b : Byte) (run : ℕ → Sender) : Prop where
  taken : Controller.In m m.sendState m.waitState k b (run 1).control
  enabled : (run 1).control.txEn = false
  idle : UARTTx.Closing 0 (run 1).tx
  frame : UARTTx.Frame (run 1).control.txByte 0 0 (run 2).tx
  sends : UARTTx.Sends (run 1).control.txByte fun n => (run (2 + n)).tx
  wait : ∀ n, 2 ≤ n → n ≤ 2193 → Controller.In m m.waitState m.waitState k b (run n).control ∧
    (2 < n → (run n).control.txEn = true)
  last : Controller.In m m.waitState (if k + 1 = m.length then .csIdle else m.sendState)
    (if k + 1 = m.length then 0 else k + 1) b (run 2194).control
  last_txEn : (run 2194).control.txEn = true

theorem AtSend.course (h : AtSend m k b s) (hk : k < m.length) :
    Course m k b (trace clock s inp) := by
  obtain ⟨hin₁, hen₁, -⟩ := h.control.send (s.controlInput (inp 0)) hk
  rw [← clock_control] at hin₁ hen₁
  have htx₁ : UARTTx.Closing 0 (trace clock s inp 1).tx := idle_clock h.tx h.txEn _
  have hin₂ : Controller.In m m.waitState m.waitState k b (trace clock s inp 2).control :=
    Controller.In.sent _ hin₁
  have hframe : UARTTx.Frame (trace clock s inp 1).control.txByte 0 0 (trace clock s inp 2).tx :=
    UARTTx.start_frame ⟨(trace clock s inp 1).control.txEn, (trace clock s inp 1).control.txByte⟩
      htx₁.state htx₁.txComplete hen₁
  have hsends : UARTTx.Sends (trace clock s inp 1).control.txByte
      fun n => (trace clock s inp (2 + n)).tx := by
    have hrun := UARTTx.sends (fun l => ⟨(trace clock s inp (2 + l)).control.txEn,
      (trace clock s inp (2 + l)).control.txByte⟩) hframe
    have heq : (fun n => (trace clock s inp (2 + n)).tx) = _ := funext fun n => trace_tx inp 2 n
    rw [heq]
    exact hrun
  have hbusy : ∀ n, 2 ≤ n → n < 2193 → (trace clock s inp n).tx.txComplete = false := by
    intro n hn hn'
    have hlow := hsends.busy (n - 2) (by omega)
    rwa [Nat.add_sub_cancel' hn] at hlow
  have hdone : (trace clock s inp 2193).tx.txComplete = true := by
    have hhigh := hsends.complete
    rwa [show 2 + 2191 = 2193 from rfl] at hhigh
  -- the waiting state holds as long as the frame lasts
  have hwait : ∀ n, 2 ≤ n → n ≤ 2193 →
      Controller.In m m.waitState m.waitState k b (trace clock s inp n).control ∧
        (2 < n → (trace clock s inp n).control.txEn = true) := by
    intro n hn
    induction hn with
    | refl => exact fun _ => ⟨hin₂, fun h => absurd h (Nat.lt_irrefl 2)⟩
    | @step n hn ih =>
      intro hn'
      obtain ⟨hin, _⟩ := ih (Nat.le_of_succ_le hn')
      obtain ⟨hin', hen'⟩ := wait_clock hin (hbusy n hn hn') (inp n)
      exact ⟨hin', fun _ => hen'⟩
  have hstep : trace clock s inp 2194 = clock (inp 2193) (trace clock s inp 2193) :=
    trace_succ clock s inp 2193
  obtain ⟨hin, hen⟩ := complete_clock (hwait 2193 (by omega) (Nat.le_refl _)).1 hdone hk (inp 2193)
  rw [← hstep] at hin hen
  exact ⟨hin₁, hen₁, htx₁, hframe, hsends, hwait, hin, hen⟩

/-- **One byte**: it is taken once, and the count moves on once. -/
theorem AtSend.sends (h : AtSend m k b s) (hk : k < m.length) :
    SendsByte m k (trace clock s inp) ∧ AfterSend m k b (trace clock s inp 2195) ∧
      (trace clock s inp 1).control.txByte = m.byte (s.controlInput (inp 0)) s.control := by
  obtain ⟨hin₁, hen₁, htx₁, hframe, hsends, hwait, hin, hen⟩ := h.course inp hk
  have hidle : UARTTx.Closing 0 (trace clock s inp 2194).tx := by
    have hclosing := hsends.idle
    rwa [show 2 + 2192 = 2194 from rfl] at hclosing
  have hstep' : trace clock s inp 2195 = clock (inp 2194) (trace clock s inp 2194) :=
    trace_succ clock s inp 2194
  obtain ⟨hin', hen'⟩ := wait_clock hin hidle.txComplete (inp 2194)
  rw [← hstep'] at hin' hen'
  have hidle' : UARTTx.Closing 0 (trace clock s inp 2195).tx := by
    rw [hstep']
    exact idle_clock hidle hen _
  refine ⟨⟨?_, ?_, hin₁.count, hsends⟩, ?_, (h.control.send (s.controlInput (inp 0)) hk).2.2⟩
  · intro n hn
    rcases (by omega : n = 0 ∨ n = 1 ∨ (2 ≤ n ∧ n ≤ 2193) ∨ n = 2194 ∨ n = 2195) with
      rfl | rfl | ⟨h2, h3⟩ | rfl | rfl
    · exact h.control.reset
    · exact hin₁.reset
    · exact (hwait n h2 h3).1.reset
    · exact hin.reset
    · exact hin'.reset
  · intro n hn
    rcases (by omega : n = 0 ∨ n = 1 ∨ n = 2 ∨ (2 < n ∧ n ≤ 2193) ∨ n = 2194) with
      rfl | rfl | rfl | ⟨h2, h3⟩ | rfl
    · simp [starts, h.txEn]
    · simp [starts, htx₁.state, hen₁]
    · simp [starts, hframe.state, UARTTx.frameState]
    · have htrue := (hwait n (by omega) h3).2 h2
      have hne : n ≠ 1 := by omega
      simp [starts, htrue, hne]
    · simp [starts, hen]
  · unfold AfterSend
    by_cases hend : k + 1 = m.length
    · rw [if_pos hend, if_pos hend] at hin'
      rw [if_pos hend]
      exact ⟨hin'.ready hen', hidle'⟩
    · rw [if_neg hend, if_neg hend] at hin'
      rw [if_neg hend]
      exact ⟨hin', hen', hidle'⟩

/-! ## A whole response -/

/-- Byte `k` of a response to `b`. -/
def responseByte (m : Mode) (b : Byte) (status : BitVec 7 → Byte) (k : ℕ) : Byte :=
  match m with
  | .reply => replyByte (BitVec.ofNat 2 k) b
  | .status => status (BitVec.ofNat 7 k)

theorem byte_eq {state nextState : ControlState} (h : Controller.In m state nextState k b s.control)
    (i : SenderInput) : m.byte (s.controlInput i) s.control = responseByte m b i.status k := by
  have hcount := h.count
  cases m with
  | reply =>
    have hk : s.control.cntByte = BitVec.ofNat 2 k := by
      rw [← hcount]
      exact BitVec.eq_of_toNat_eq (by simp [Mode.count])
    show replyByte s.control.cntByte s.control.displayByte = _
    rw [hk, h.displayByte]
    rfl
  | status =>
    have hk : s.control.cntStatusReqByte = BitVec.ofNat 7 k := by
      rw [← hcount]
      exact BitVec.eq_of_toNat_eq (by simp [Mode.count])
    show i.status s.control.cntStatusReqByte = _
    rw [hk]
    rfl

theorem AtSend.run (h : AtSend m 0 b s) : ∀ j < m.length,
    AtSend m j b (trace clock s inp (2195 * j)) := by
  intro j
  induction j with
  | zero => exact fun _ => h
  | succ j ih =>
    intro hj
    have hsends := ((ih (Nat.lt_of_succ_lt hj)).sends (fun n => inp (2195 * j + n))
      (Nat.lt_of_succ_lt hj)).2.1
    rw [AfterSend, if_neg (Nat.ne_of_lt hj), ← trace_add] at hsends
    exact hsends

theorem AtSend.finish (h : AtSend m 0 b s) : (trace clock s inp (2195 * m.length)).Resting := by
  obtain ⟨j, hj⟩ : ∃ j, m.length = j + 1 := by cases m <;> exact ⟨_, rfl⟩
  have hlast := (((h.run inp j (by omega)).sends (fun n => inp (2195 * j + n)) (by omega))).2.1
  rw [AfterSend, if_pos hj.symm, ← trace_add] at hlast
  rw [hj]
  exact hlast

/-! ## From a command to its response -/

end Sender

namespace Controller

/-- A state at which the controller has arrived, on the way to the response to `b`. -/
structure At (q : ControlState) (b : Byte) (c : Controller) : Prop where
  state : c.state = q
  nextState : c.nextState = q
  cntByte : c.cntByte = 0
  cntStatusReqByte : c.cntStatusReqByte = 0
  displayByte : c.displayByte = b
  txEn : c.txEn = true

/-- The state after one that leaves the counts and the transmitter alone. -/
def follows : ControlState → Option ControlState
  | .csStatusRequest => some .csStatusSend
  | .csCPUClockToggle => some .csCPUClockFall
  | .csCPUClockRise | .csCPUClockFall | .csClockControlMan | .csClockControlRun
  | .csClockControlPll | .csResetAssertToggle => some .csSend
  | _ => none

variable {q q' : ControlState} {b : Byte} {c : Controller}

/-- Both edges of such a state. `reset` is toggled at either. -/
theorem At.twice (h : At q b c) (hr : c.reset = true) (hnext : follows q = some q')
    (i i' : ControlInput) : At q' b ((c.clock i).clock i') ∧
      ((c.clock i).clock i').reset = true ∧ (c.clock i).txEn = true := by
  obtain ⟨hstate, hnextState, hcnt, hreq, hdisplay, hen⟩ := h
  cases q <;> simp only [follows, reduceCtorEq, Option.some.injEq] at hnext <;> subst hnext <;>
    refine ⟨⟨?_, ?_, ?_, ?_, ?_, ?_⟩, ?_, ?_⟩ <;> simp_all [clock]

/-- The reset of the processor begins. -/
theorem At.resetAssert (h : At .csCPUResetAssert b c) (i i' : ControlInput) :
    At .csCPUResetDeassert b ((c.clock i).clock i') ∧
      ((c.clock i).clock i').cntResetHold = 0 ∧ (c.clock i).txEn = true := by
  obtain ⟨hstate, hnextState, hcnt, hreq, hdisplay, hen⟩ := h
  refine ⟨⟨?_, ?_, ?_, ?_, ?_, ?_⟩, ?_, ?_⟩ <;> simp_all [clock]

theorem At.resetHold (h : At .csCPUResetDeassert b c) (hhold : c.cntResetHold.toNat < 15)
    (i : ControlInput) :
    At .csCPUResetDeassert b (c.clock i) ∧
      (c.clock i).cntResetHold.toNat = c.cntResetHold.toNat + 1 := by
  have hne : c.cntResetHold ≠ 15 := by
    rintro h15
    rw [h15] at hhold
    exact absurd hhold (by decide)
  obtain ⟨hstate, hnextState, hcnt, hreq, hdisplay, hen⟩ := h
  refine ⟨⟨?_, ?_, ?_, ?_, ?_, ?_⟩, ?_⟩ <;> simp_all [clock]
  bv_omega

/-- And ends. -/
theorem At.resetDeassert (h : At .csCPUResetDeassert b c) (hhold : c.cntResetHold.toNat = 15)
    (i i' : ControlInput) :
    At .csSend b ((c.clock i).clock i') ∧ ((c.clock i).clock i').reset = true ∧
      (c.clock i).txEn = true := by
  have h15 : c.cntResetHold = 15 := BitVec.eq_of_toNat_eq hhold
  obtain ⟨hstate, hnextState, hcnt, hreq, hdisplay, hen⟩ := h
  refine ⟨⟨?_, ?_, ?_, ?_, ?_, ?_⟩, ?_, ?_⟩ <;> simp_all [clock]

/-- A command is read off the receiver once, at the first of the two edges. -/
theorem Ready.accept (h : c.Ready) (i i' : ControlInput) (hi : i.rxComplete = true)
    (hi' : i'.rxComplete = false) :
    At (commandState i.rxByte) i.rxByte ((c.clock i).clock i') ∧
      ((c.clock i).clock i').reset = true ∧ (c.clock i).txEn = true := by
  obtain ⟨hstate, hnextState, hcnt, hreq, hreset, hen⟩ := h
  refine ⟨⟨?_, ?_, ?_, ?_, ?_, ?_⟩, ?_, ?_⟩ <;> simp_all [clock]

theorem Ready.wait (h : c.Ready) {i : ControlInput} (hi : i.rxComplete = false) :
    (c.clock i).Ready := by
  obtain ⟨hstate, hnextState, hcnt, hreq, hreset, hen⟩ := h
  constructor <;> simp_all [clock]

end Controller

/-- The edges from a state to the first byte of its response. -/
def edgesToSend : ControlState → ℕ
  | .csSend | .csStatusSend => 0
  | .csCPUClockToggle => 4
  | .csCPUResetAssert => 19
  | _ => 2

def mode (b : Byte) : Mode := if b = 0x73 then .status else .reply

/-- The edges from the completion of a command to the first byte of its response. -/
def lead (b : Byte) : ℕ := 2 + edgesToSend (commandState b)

/-- The edge behind a response. -/
def responseEnd (b : Byte) : ℕ := lead b + 2195 * (mode b).length

namespace Sender

variable {m : Mode} {b : Byte} {s : Sender} {d : ℕ}

/-- The first byte of a response is `d` edges away, with the transmitter idle until then. -/
def LeadsIn (m : Mode) (b : Byte) (d : ℕ) (s : Sender) : Prop :=
  ∀ inp : ℕ → SenderInput,
    (∀ n ≤ d, (trace clock s inp n).control.txEn = true) ∧ AtSend m 0 b (trace clock s inp d)

theorem LeadsIn.cons (hen : s.control.txEn = true) (h : ∀ i, LeadsIn m b d (s.clock i)) :
    LeadsIn m b (d + 1) s := by
  intro inp
  obtain ⟨htx, hsend⟩ := h (inp 0) (fun n => inp (n + 1))
  refine ⟨?_, by rw [trace_succ']; exact hsend⟩
  intro n hn
  cases n with
  | zero => exact hen
  | succ n =>
    rw [trace_succ']
    exact htx n (Nat.le_of_succ_le_succ hn)

theorem LeadsIn.send (h : s.control.At m.sendState b) (hr : s.control.reset = true)
    (htx : UARTTx.Closing 0 s.tx) : LeadsIn m b 0 s := by
  obtain ⟨hstate, hnextState, hcnt, hreq, hdisplay, hen⟩ := h
  intro inp
  refine ⟨fun n hn => by rw [Nat.le_zero.mp hn]; exact hen,
    ⟨⟨hstate, hnextState, ?_, ?_, hdisplay, hr⟩, hen, htx⟩⟩
  · cases m <;> simp [Mode.count, hcnt, hreq]
  · cases m <;> simp [Mode.otherCount, hcnt, hreq]

/-- One state that takes two edges. -/
theorem LeadsIn.twice {q q' : ControlState} (h : s.control.At q b) (hr : s.control.reset = true)
    (htx : UARTTx.Closing 0 s.tx) (hnext : Controller.follows q = some q')
    (hrest : ∀ s : Sender, s.control.At q' b → s.control.reset = true → UARTTx.Closing 0 s.tx →
      LeadsIn m b d s) : LeadsIn m b (d + 2) s := by
  refine LeadsIn.cons h.txEn fun i => ?_
  have htx' := idle_clock htx h.txEn i
  have hen' : (s.clock i).control.txEn = true :=
    (h.twice hr hnext (s.controlInput i) (s.controlInput i)).2.2
  refine LeadsIn.cons hen' fun i' => ?_
  obtain ⟨hat, hreset, _⟩ := h.twice hr hnext (s.controlInput i) ((s.clock i).controlInput i')
  exact hrest _ hat hreset (idle_clock htx' hen' i')

/-- The sixteen cycles that hold the processor in reset. -/
theorem LeadsIn.resetDeassert (h : s.control.At .csCPUResetDeassert b) {k : ℕ}
    (hk : s.control.cntResetHold.toNat + k = 15) (htx : UARTTx.Closing 0 s.tx) :
    LeadsIn .reply b (k + 2) s := by
  induction k generalizing s with
  | zero =>
    have h15 : s.control.cntResetHold.toNat = 15 := hk
    refine LeadsIn.cons h.txEn fun i => ?_
    have htx' := idle_clock htx h.txEn i
    have hen' : (s.clock i).control.txEn = true :=
      (h.resetDeassert h15 (s.controlInput i) (s.controlInput i)).2.2
    refine LeadsIn.cons hen' fun i' => ?_
    obtain ⟨hat, hreset, _⟩ :=
      h.resetDeassert h15 (s.controlInput i) ((s.clock i).controlInput i')
    exact LeadsIn.send hat hreset (idle_clock htx' hen' i')
  | succ k ih =>
    refine LeadsIn.cons h.txEn fun i => ?_
    obtain ⟨hat, hhold⟩ := h.resetHold (by omega) (s.controlInput i)
    refine ih hat ?_ (idle_clock htx h.txEn i)
    rw [clock_control, hhold]
    omega

theorem LeadsIn.resetAssert (h : s.control.At .csCPUResetAssert b)
    (htx : UARTTx.Closing 0 s.tx) : LeadsIn .reply b 19 s := by
  refine LeadsIn.cons h.txEn fun i => ?_
  have htx' := idle_clock htx h.txEn i
  have hen' : (s.clock i).control.txEn = true :=
    (h.resetAssert (s.controlInput i) (s.controlInput i)).2.2
  refine LeadsIn.cons hen' fun i' => ?_
  obtain ⟨hat, hhold, _⟩ := h.resetAssert (s.controlInput i) ((s.clock i).controlInput i')
  exact LeadsIn.resetDeassert (k := 15) hat
    (by rw [clock_control, clock_control, hhold]; rfl) (idle_clock htx' hen' i')

/-- **From every command to its response.** -/
theorem LeadsIn.command (h : s.control.At (commandState b) b) (hr : s.control.reset = true)
    (htx : UARTTx.Closing 0 s.tx) : LeadsIn (mode b) b (edgesToSend (commandState b)) s := by
  have hsend : ∀ s : Sender, s.control.At .csSend b → s.control.reset = true →
      UARTTx.Closing 0 s.tx → LeadsIn .reply b 0 s := fun s h hr htx => LeadsIn.send h hr htx
  have hstatus : ∀ s : Sender, s.control.At .csStatusSend b → s.control.reset = true →
      UARTTx.Closing 0 s.tx → LeadsIn .status b 0 s := fun s h hr htx => LeadsIn.send h hr htx
  have hfall : ∀ s : Sender, s.control.At .csCPUClockFall b → s.control.reset = true →
      UARTTx.Closing 0 s.tx → LeadsIn .reply b 2 s :=
    fun s h hr htx => LeadsIn.twice h hr htx rfl hsend
  have hcommand := commandState_command b
  generalize commandState b = q at hcommand h ⊢
  cases hcommand with
  | reset => exact LeadsIn.resetAssert h htx
  | clockToggle => exact LeadsIn.twice h hr htx rfl hfall
  | statusRequest => exact LeadsIn.twice h hr htx rfl hstatus
  | other hb =>
    have hmode : mode b = .reply := if_neg fun hs => hb (by simp [hs, commands])
    rw [hmode]
    exact LeadsIn.send h hr htx
  | _ => exact LeadsIn.twice h hr htx rfl hsend

/-- **The response to a command** that completes at the start of the run, up to a horizon
before which no other command does. -/
structure Answers (b : Byte) (inp : ℕ → SenderInput) (horizon : ℕ) (run : ℕ → Sender) : Prop where
  quiet : ∀ n ≤ lead b, (run n).starts = false
  sends : ∀ j < (mode b).length, SendsByte (mode b) j fun n => run (lead b + 2195 * j + n)
  byte : ∀ j < (mode b).length, (run (lead b + 2195 * j + 1)).control.txByte =
    responseByte (mode b) b (inp (lead b + 2195 * j)).status j
  resting : ∀ n, responseEnd b ≤ n → n ≤ horizon → (run n).Resting

theorem Resting.wait (h : s.Resting) {i : SenderInput} (hi : i.rxComplete = false) :
    (s.clock i).Resting :=
  ⟨h.control.wait (i := s.controlInput i) hi, idle_clock h.tx h.control.txEn i⟩

/-- The first byte of the response, and the silence before it. -/
theorem Resting.leads {inp : ℕ → SenderInput} (h : s.Resting) (h0 : (inp 0).rxComplete = true)
    (h1 : (inp 1).rxComplete = false) :
    (∀ n ≤ lead (inp 0).rxByte, (trace clock s inp n).control.txEn = true) ∧
      AtSend (mode (inp 0).rxByte) 0 (inp 0).rxByte (trace clock s inp (lead (inp 0).rxByte)) := by
  obtain ⟨hat, hreset, hen₁⟩ := h.control.accept (s.controlInput (inp 0))
    ((s.clock (inp 0)).controlInput (inp 1)) h0 h1
  have htx₂ : UARTTx.Closing 0 (trace clock s inp 2).tx :=
    idle_clock (idle_clock h.tx h.control.txEn (inp 0)) hen₁ (inp 1)
  have hcommand : LeadsIn (mode (inp 0).rxByte) (inp 0).rxByte
      (edgesToSend (commandState (inp 0).rxByte)) (trace clock s inp 2) :=
    LeadsIn.command hat hreset htx₂
  obtain ⟨hquiet, hsend⟩ := hcommand fun n => inp (2 + n)
  rw [← trace_add] at hsend
  refine ⟨?_, hsend⟩
  intro n hn
  match n, hn with
  | 0, _ => exact h.control.txEn
  | 1, _ => exact hen₁
  | n + 2, hn =>
    have hlow := hquiet n (by rw [lead] at hn; omega)
    rwa [← trace_add, Nat.add_comm] at hlow

theorem answers {inp : ℕ → SenderInput} {horizon : ℕ} (h : s.Resting)
    (h0 : (inp 0).rxComplete = true) (h1 : (inp 1).rxComplete = false)
    (hcalm : ∀ n, responseEnd (inp 0).rxByte ≤ n → n < horizon → (inp n).rxComplete = false) :
    Answers (inp 0).rxByte inp horizon (trace clock s inp) := by
  obtain ⟨hquiet, hsend⟩ := h.leads h0 h1
  have hbyte : ∀ j < (mode (inp 0).rxByte).length,
      AtSend (mode (inp 0).rxByte) j (inp 0).rxByte
        (trace clock s inp (lead (inp 0).rxByte + 2195 * j)) := by
    intro j hj
    rw [trace_add]
    exact hsend.run _ j hj
  have hend : (trace clock s inp (responseEnd (inp 0).rxByte)).Resting := by
    rw [responseEnd, trace_add]
    exact hsend.finish _
  refine ⟨?_, ?_, ?_, ?_⟩
  · intro n hn
    simp [starts, hquiet n hn]
  · intro j hj
    have hsends := ((hbyte j hj).sends (fun n => inp (lead (inp 0).rxByte + 2195 * j + n)) hj).1
    have heq : (fun n => trace clock s inp (lead (inp 0).rxByte + 2195 * j + n)) =
        trace clock (trace clock s inp (lead (inp 0).rxByte + 2195 * j))
          fun n => inp (lead (inp 0).rxByte + 2195 * j + n) := funext fun n => trace_add _ _ _ _ _
    rw [heq]
    exact hsends
  · intro j hj
    have hsends := ((hbyte j hj).sends (fun n => inp (lead (inp 0).rxByte + 2195 * j + n)) hj).2.2
    rw [← trace_add, byte_eq (hbyte j hj).control] at hsends
    exact hsends
  · intro n hn
    induction hn with
    | refl => exact fun _ => hend
    | @step n hn ih =>
      intro hn'
      rw [trace_succ]
      exact (ih (Nat.le_of_succ_le hn')).wait (hcalm n hn hn')

variable {inp : ℕ → SenderInput} {horizon n : ℕ} {run : ℕ → Sender}

/-- Each cycle from the first byte on is one of a byte, or idle. -/
theorem Answers.cases (h : Answers b inp horizon run) (hlead : lead b ≤ n)
    (hn : n ≤ horizon ∨ n < responseEnd b) :
    (∃ j < (mode b).length, ∃ r < 2195, n = lead b + 2195 * j + r) ∨
      (responseEnd b ≤ n ∧ (run n).Resting) := by
  rcases Nat.lt_or_ge n (responseEnd b) with hlt | hge
  · refine .inl ⟨(n - lead b) / 2195, ?_, (n - lead b) % 2195, Nat.mod_lt _ (by decide), ?_⟩
    · rw [responseEnd] at hlt
      rw [Nat.div_lt_iff_lt_mul (by decide)]
      omega
    · have := Nat.div_add_mod (n - lead b) 2195
      omega
  · exact .inr ⟨hge, h.resting n hge (hn.resolve_right (Nat.not_lt.mpr hge))⟩

/-- A byte is taken at no other cycle of the response, nor behind it. -/
theorem Answers.starts_iff (h : Answers b inp horizon run)
    (hn : n ≤ horizon ∨ n < responseEnd b) :
    (run n).starts = true ↔ ∃ j < (mode b).length, n = lead b + 2195 * j + 1 := by
  rcases Nat.lt_or_ge n (lead b) with hlt | hge
  · rw [h.quiet n (Nat.le_of_lt hlt)]
    simp only [Bool.false_eq_true, false_iff, not_exists, not_and]
    omega
  · rcases h.cases hge hn with ⟨j, hj, r, hr, rfl⟩ | ⟨hend, hrest⟩
    · rw [(h.sends j hj).starts r hr, decide_eq_true_iff]
      constructor
      · rintro rfl
        exact ⟨j, hj, rfl⟩
      · rintro ⟨j', _, heq⟩
        omega
    · have hidle : (run n).starts = false := by simp [Sender.starts, hrest.control.txEn]
      rw [hidle]
      simp only [Bool.false_eq_true, false_iff, not_exists, not_and]
      intro j hj heq
      rw [responseEnd] at hend
      omega

theorem Answers.reset (h : Answers b inp horizon run) (hlead : lead b ≤ n)
    (hn : n ≤ horizon ∨ n < responseEnd b) : (run n).control.reset = true := by
  rcases h.cases hlead hn with ⟨j, hj, r, hr, rfl⟩ | ⟨_, hrest⟩
  · exact (h.sends j hj).reset r (Nat.le_of_lt hr)
  · exact hrest.control.reset

end Sender

end RangerRisc
