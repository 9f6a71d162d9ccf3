import Mathlib.Tactic.IntervalCases
import RangerRisc.SpiHalf

/-! Whole transfers on the SPI link: the two shift registers exchange a byte in twenty half
periods, a frame sends the bytes of `tx_buf`, and any run is frames with rest between them. -/

namespace RangerRisc

open Clocked ShiftRegister

namespace Exchange

variable {x x₀ : Exchange} {txMem : BitVec 4 → Byte} {j : ℕ}

/-- The exchange after `n` half periods. -/
def run (txMem : BitVec 4 → Byte) (x : Exchange) (n : ℕ) : Exchange :=
  trace (fun (_ : Unit) => half txMem) x (fun _ => ()) n

/-- What they show. -/
def shown (txMem : BitVec 4 → Byte) (x : Exchange) (n : ℕ) : List SpiEvent :=
  emitted (fun (_ : Unit) => half txMem) x (fun _ => ()) (fun _ => log) n

theorem run_add (m n : ℕ) : run txMem x (m + n) = run txMem (run txMem x m) n :=
  trace_add _ x _ m n

theorem run_succ (n : ℕ) : run txMem x (n + 1) = (run txMem x n).half txMem := rfl

theorem shown_add (m n : ℕ) :
    shown txMem x (m + n) = shown txMem x m ++ shown txMem (run txMem x m) n :=
  emitted_add _ x _ _ m n

/-- In `n` half periods the byte goes on, and `l` is shown. -/
structure Sends (txMem : BitVec 4 → Byte) (x : Exchange) (n : ℕ) (l : List SpiEvent) : Prop where
  sent : ∀ m < n, (run txMem x m).sent = false
  shown : shown txMem x n = l

theorem Sends.append {m n : ℕ} {l l' : List SpiEvent} (h : Sends txMem x m l)
    (h' : Sends txMem (run txMem x m) n l') : Sends txMem x (m + n) (l ++ l') := by
  refine ⟨fun k hk => ?_, by rw [shown_add, h.shown, h'.shown]⟩
  rcases Nat.lt_or_ge k m with hkm | hmk
  · exact h.sent k hkm
  · have := h'.sent (k - m) (by omega)
    rwa [← run_add, Nat.add_sub_cancel' hmk] at this

theorem Sends.two {l : List SpiEvent} (h : x.sent = false) (h' : (x.half txMem).sent = false)
    (hl : x.log ++ (x.half txMem).log = l) : Sends txMem x 2 l := by
  refine ⟨fun k hk => ?_, hl⟩
  rcases (by omega : k = 0 ∨ k = 1) with rfl | rfl
  · exact h
  · exact h'

/-! ## A byte -/

/-- The link is about to send a byte. -/
structure Ready (x : Exchange) : Prop where
  high : x.high = true
  state : x.master.state = .msIdle
  byteTxComplete : x.master.byteTxComplete = false
  slave : x.slave.state = .slIdle
  bitCnt : x.slave.bitCnt = 6

/-- Before the rising edge for bit `j`, counted from the most significant one. -/
structure Bit (x₀ : Exchange) (j : ℕ) (x : Exchange) : Prop where
  high : x.high = false
  addr : x.addr = x₀.addr
  rxMem : x.rxMem = x₀.rxMem
  state : x.master.state = if j = 0 then .msBegin else .msTransmitting
  bitCnt : x.master.bitCnt = BitVec.ofNat 3 (7 - j)
  byteTxComplete : x.master.byteTxComplete = false
  txBits : x.master.txBits = x₀.txByte <<< (j + 1)
  mosi : x.master.mosi = (x₀.txByte <<< j).msb
  rxBits : Received x₀.slave.shiftData x.master.rxBits j
  slave : x.slave.state = if j = 0 then .slIdle else .slTransmit
  slaveCnt : x.slave.bitCnt = BitVec.ofNat 3 (min 6 (7 - j))
  shiftData : x.slave.shiftData = x₀.slave.shiftData <<< j
  rxByte : Received x₀.txByte x.slave.rxByte j
  bufCnt : x.slave.bufCnt = x₀.slave.bufCnt
  rxBuf : x.slave.rxBuf = x₀.slave.rxBuf

/-- Three half periods load the byte and put its first bit on the line. -/
theorem Ready.bit (h : x.Ready) : Bit x 0 (run txMem x 3) ∧ Sends txMem x 3 [] := by
  obtain ⟨_, _, _, _, ⟨_, _⟩, ⟨_, _⟩⟩ := x
  obtain ⟨rfl, rfl, rfl, rfl, rfl⟩ := h
  refine ⟨?_, fun k hk => ?_, rfl⟩
  · exact {
      high := rfl, addr := rfl, rxMem := rfl, state := rfl, bitCnt := rfl, byteTxComplete := rfl
      txBits := rfl, mosi := by rw [BitVec.shiftLeft_zero]; rfl
      rxBits := Received.zero _ _, slave := rfl, slaveCnt := rfl
      shiftData := (BitVec.shiftLeft_zero _).symm, rxByte := Received.zero _ _
      bufCnt := rfl, rxBuf := rfl }
  · rcases (by omega : k = 0 ∨ k = 1 ∨ k = 2) with rfl | rfl | rfl <;> rfl

/-- A rising edge that is passed on. -/
theorem half_rise (txMem : BitVec 4 → Byte) {m : SPIMaster} (hhigh : x.high = false)
    (hsent : x.master.byteTxComplete = false)
    (hedge : x.edge = m) (hclk : m.outSpiClk true false = true) :
    x.half txMem = { x with high := true, master := m, slave := x.slave.onRise m.mosi } ∧
      x.log = [.rise x.slave.shiftData] := by
  have hlow : x.clk = false := by rw [clk, SPIMaster.outSpiClk, hhigh, Bool.and_false]
  have hhi : x.clk' = true := by rw [clk', hedge, hhigh]; exact hclk
  have hstored : x.stored = false := by rw [stored, hlow]; rfl
  have hnot : x.sent = false := by rw [sent, hsent]; rfl
  constructor
  · simp [half, hstored, hnot, hhigh, hedge, hlow, hhi, SPISlave.half]
  · simp [log, hstored, hlow, hhi]

/-- A falling edge that is passed on. -/
theorem half_fall (txMem : BitVec 4 → Byte) {m : SPIMaster} (hhigh : x.high = true)
    (hclk : x.master.outSpiClk true false = true) (hedge : x.edge = m) (hsent : x.sent = false) :
    x.half txMem = { x with
        high := false, master := m, slave := x.slave.onFall
        rxMem := if m.byteTxComplete then Function.update x.rxMem x.addr m.rxByte else x.rxMem } ∧
      x.log = (if m.byteTxComplete then [.store x.addr m.rxByte] else []) ++
        (if x.slave.state = .slIdle then [.capture x.slave.bufCnt x.slave.rxByte] else []) := by
  have hhi : x.clk = true := by rw [clk, hhigh]; exact hclk
  have hlow : x.clk' = false := by
    rw [clk', SPIMaster.outSpiClk, hhigh, Bool.not_true, Bool.and_false]
  have hstored : x.stored = m.byteTxComplete := by rw [stored, hhi, hlow, hedge]; rfl
  constructor
  · simp [half, hstored, hsent, hhigh, hedge, hlow, hhi, SPISlave.half]
  · simp [log, hstored, hedge, hlow, hhi]

/-- The master at a rising edge before the last one of the byte. -/
def sampling (x : Exchange) : SPIMaster :=
  { x.master with
    state := .msTransmitting, bitCnt := x.master.bitCnt - 1
    misoSync := ⟨x.slave.miso, x.slave.miso, x.slave.miso⟩
    rxBits := shiftIn x.master.rxBits x.slave.miso }

theorem Bit.edge (h : Bit x₀ j x) (hj : j < 7) : x.edge = x.sampling := by
  have hcnt : x.master.bitCnt ≠ 0#3 := by
    rw [h.bitCnt]
    intro h0
    have := congrArg BitVec.toNat h0
    simp at this
    omega
  have hstate := h.state
  rw [Exchange.edge, h.high]
  split at hstate <;>
    simp [SPIMaster.posSpiClk, hstate, sampling, CDCSynchron.syncO, hcnt]

/-- The slave counts from the second bit on. -/
theorem Bit.onRise (h : Bit x₀ j x) (hj : j < 7) (m : Bool) :
    (x.slave.onRise m).state = .slTransmit ∧
      (x.slave.onRise m).bitCnt = BitVec.ofNat 3 (min 6 (7 - (j + 1))) := by
  have hcnt := h.slaveCnt
  have hstate := h.slave
  simp only [SPISlave.onRise, hcnt, hstate]
  interval_cases j <;> exact ⟨rfl, rfl⟩

/-- The master at the falling edge after it. -/
def shifting (x : Exchange) : SPIMaster :=
  { x.sampling with mosi := x.master.txBits.msb, txBits := x.master.txBits <<< 1 }

/-- One bit: either side takes in what the other shows, and both go on to the next bit. -/
theorem Bit.step (txMem : BitVec 4 → Byte) (h : Bit x₀ j x) (hj : j < 7) :
    Bit x₀ (j + 1) (run txMem x 2) ∧ Sends txMem x 2 [.rise (x₀.slave.shiftData <<< j)] := by
  obtain ⟨hrise, hlog⟩ := half_rise txMem h.high h.byteTxComplete (h.edge hj) rfl
  obtain ⟨hstate, hcnt⟩ := h.onRise hj x.sampling.mosi
  obtain ⟨y, hy⟩ : ∃ y : Exchange, y =
      { x with high := true, master := x.sampling, slave := x.slave.onRise x.sampling.mosi } :=
    ⟨_, rfl⟩
  rw [← hy] at hrise
  have hystate : y.slave.state = .slTransmit := by rw [hy]; exact hstate
  have hedge : y.edge = x.shifting := by rw [hy]; rfl
  have hsent : y.sent = false := by rw [sent, hy]; exact congrArg (· && _) h.byteTxComplete
  have hbyte : x.shifting.byteTxComplete = false := h.byteTxComplete
  obtain ⟨hfall, hlog'⟩ := half_fall txMem (by rw [hy]) (by rw [hy]; rfl) hedge hsent
  have hunsent : x.sent = false := by rw [sent, h.byteTxComplete]; rfl
  refine ⟨?_, Sends.two hunsent (by rw [hrise]; exact hsent) ?_⟩
  swap
  · rw [hrise, hlog, hlog', hystate, hbyte, h.shiftData]
    rfl
  rw [run_succ, run_succ, run, trace_zero, hrise, hfall, hbyte]
  have hslave : y.slave.onFall = { y.slave with shiftData := y.slave.shiftData <<< 1 } := by
    rw [SPISlave.onFall, if_pos hystate]
  rw [hslave, hy]
  exact {
    high := rfl, addr := h.addr, rxMem := h.rxMem, state := (if_neg (Nat.succ_ne_zero j)).symm
    bitCnt := by
      change x.master.bitCnt - 1 = _
      rw [h.bitCnt]
      interval_cases j <;> rfl
    byteTxComplete := h.byteTxComplete
    txBits := by
      change x.master.txBits <<< 1 = _
      rw [h.txBits, ← BitVec.shiftLeft_add]
    mosi := by
      change x.master.txBits.msb = _
      rw [h.txBits]
    rxBits := by
      have := h.rxBits.shiftIn (Nat.le_of_lt hj)
      rw [← h.shiftData] at this
      exact this
    slave := hstate.trans (if_neg (Nat.succ_ne_zero j)).symm
    slaveCnt := hcnt
    shiftData := by
      change x.slave.shiftData <<< 1 = _
      rw [h.shiftData, ← BitVec.shiftLeft_add]
    rxByte := by
      have := h.rxByte.shiftIn (Nat.le_of_lt hj)
      rw [← h.mosi] at this
      exact this
    bufCnt := h.bufCnt, rxBuf := h.rxBuf }

/-- The master at the last rising edge of the byte. -/
def completing (x : Exchange) : SPIMaster :=
  { x.sampling with
    state := .msComplete, byteTxComplete := true
    rxByte := shiftIn x.master.rxBits x.slave.miso }

/-- The byte has gone, and the other has come. -/
structure Done (x₀ x : Exchange) : Prop where
  high : x.high = false
  addr : x.addr = x₀.addr
  rxMem : x.rxMem = Function.update x₀.rxMem x₀.addr x₀.slave.shiftData
  state : x.master.state = .msComplete
  byteTxComplete : x.master.byteTxComplete = true
  slave : x.slave.state = .slIdle
  bitCnt : x.slave.bitCnt = 6
  bufCnt : x.slave.bufCnt = if x₀.slave.bufCnt = 2 then 0 else x₀.slave.bufCnt + 1

theorem Bit.last (txMem : BitVec 4 → Byte) (h : Bit x₀ 7 x) :
    Done x₀ (run txMem x 2) ∧
      Sends txMem x 2 [.rise (x₀.slave.shiftData <<< 7), .store x₀.addr x₀.slave.shiftData,
        .capture x₀.slave.bufCnt x₀.txByte] := by
  have hmaster : shiftIn x.master.rxBits x.slave.miso = x₀.slave.shiftData := by
    have := h.rxBits.shiftIn (Nat.le_refl 7)
    rw [← h.shiftData] at this
    exact this.eq
  have hslave : shiftIn x.slave.rxByte x.master.mosi = x₀.txByte := by
    have := h.rxByte.shiftIn (Nat.le_refl 7)
    rw [← h.mosi] at this
    exact this.eq
  have hstate : x.master.state = .msTransmitting := h.state
  have hcnt : x.master.bitCnt = 0#3 := h.bitCnt
  have hedge : x.edge = x.completing := by
    rw [Exchange.edge, h.high]
    simp [SPIMaster.posSpiClk, hstate, hcnt, completing, sampling, CDCSynchron.syncO]
  obtain ⟨hrise, hlog⟩ := half_rise txMem h.high h.byteTxComplete hedge rfl
  obtain ⟨y, hy⟩ : ∃ y : Exchange, y =
      { x with high := true, master := x.completing, slave := x.slave.onRise x.completing.mosi } :=
    ⟨_, rfl⟩
  rw [← hy] at hrise
  have hystate : y.slave.state = .slIdle := by
    rw [hy]
    exact if_pos ⟨h.slave, h.slaveCnt⟩
  have hyedge : y.edge = x.completing := by rw [hy]; rfl
  have hsent : y.sent = false := by rw [sent, hyedge, hy]; rfl
  obtain ⟨hfall, hlog'⟩ := half_fall txMem (by rw [hy]) (by rw [hy]; rfl) hyedge hsent
  have hrx : x.completing.rxByte = x₀.slave.shiftData := hmaster
  have hby : x.completing.byteTxComplete = true := rfl
  have hyslave : y.slave.rxByte = x₀.txByte := by rw [hy]; exact hslave
  have hybuf : y.slave.bufCnt = x₀.slave.bufCnt := by rw [hy]; exact h.bufCnt
  have hyaddr : y.addr = x₀.addr := by rw [hy]; exact h.addr
  have hyrx : y.rxMem = x₀.rxMem := by rw [hy]; exact h.rxMem
  have hunsent : x.sent = false := by rw [sent, h.byteTxComplete]; rfl
  refine ⟨?_, Sends.two hunsent (by rw [hrise]; exact hsent) ?_⟩
  · obtain ⟨hz, hzcnt, hzbuf⟩ : y.slave.onFall.state = .slIdle ∧ y.slave.onFall.bitCnt = 6 ∧
        y.slave.onFall.bufCnt = if y.slave.bufCnt = 2 then 0 else y.slave.bufCnt + 1 := by
      rw [SPISlave.onFall, if_neg (by rw [hystate]; decide)]
      exact ⟨hystate, rfl, rfl⟩
    rw [run_succ, run_succ, run, trace_zero, hrise, hfall, hrx, hby, if_pos rfl]
    refine ⟨rfl, hyaddr, ?_, rfl, rfl, hz, hzcnt, ?_⟩
    · rw [hyrx, hyaddr]
    · rw [hzbuf, hybuf]
  · rw [hrise, hlog, hlog', hystate, hrx, hby, h.shiftData, hyslave, hybuf, hyaddr]
    rfl

/-- What is shown while a byte is sent, `q` being in the slave's shift register. -/
def byteLog (addr : BitVec 4) (idx : BitVec 2) (q b : Byte) : List SpiEvent :=
  (List.range 8).map (fun k => .rise (q <<< k)) ++ [.store addr q, .capture idx b]

/-- **A byte** takes nineteen half periods, and at the end the registers are exchanged. -/
theorem Ready.byte (txMem : BitVec 4 → Byte) (h : x.Ready) :
    Done x (run txMem x 19) ∧
      Sends txMem x 19 (byteLog x.addr x.slave.bufCnt x.slave.shiftData x.txByte) := by
  have hbits : ∀ j ≤ 7, Bit x j (run txMem x (3 + 2 * j)) ∧
      Sends txMem x (3 + 2 * j) ((List.range j).map fun k => .rise (x.slave.shiftData <<< k)) := by
    intro j
    induction j with
    | zero => exact fun _ => h.bit
    | succ j ih =>
      intro hj
      obtain ⟨hbit, hsends⟩ := ih (Nat.le_of_succ_le hj)
      obtain ⟨hbit', hsends'⟩ := hbit.step txMem hj
      rw [← run_add] at hbit'
      refine ⟨hbit', ?_⟩
      rw [List.range_succ, List.map_append]
      exact hsends.append hsends'
  obtain ⟨hbit, hsends⟩ := hbits 7 (Nat.le_refl 7)
  obtain ⟨hdone, hsends'⟩ := hbit.last txMem
  rw [← run_add] at hdone
  exact ⟨hdone, hsends.append hsends'⟩

/-- The half period between two bytes. -/
theorem Done.next (txMem : BitVec 4 → Byte) (h : Done x₀ x) :
    x.sent = true ∧ x.clk' = false ∧ x.log = [] ∧ (x.half txMem).Ready ∧
      (x.half txMem).addr = x₀.addr + 1 ∧ (x.half txMem).txByte = txMem (x₀.addr + 1) ∧
      (x.half txMem).rxMem = x.rxMem ∧ (x.half txMem).slave.bufCnt = x.slave.bufCnt := by
  obtain ⟨_, addr, _, _, ⟨_, _⟩, ⟨_, _⟩⟩ := x
  obtain ⟨rfl, haddr, _, rfl, rfl, rfl, rfl, _⟩ := h
  refine ⟨rfl, rfl, rfl, ⟨rfl, rfl, rfl, rfl, rfl⟩, ?_, ?_, rfl, rfl⟩
  · rw [← haddr]
    rfl
  · rw [← haddr]
    rfl

/-! ## The bytes of a frame -/

/-- What is in the slave's shift register when byte `i` begins. -/
def answer (txMem : BitVec 4 → Byte) (x : Exchange) (i : ℕ) : Byte :=
  (run txMem x (20 * i)).slave.shiftData

/-- Byte `i` of a frame is next: the bytes before it have been exchanged. -/
structure Next (txMem : BitVec 4 → Byte) (x : Exchange) (i : ℕ) (y : Exchange) : Prop where
  ready : y.Ready
  addr : y.addr = BitVec.ofNat 4 i
  txByte : y.txByte = txMem (BitVec.ofNat 4 i)
  bufCnt : y.slave.bufCnt = BitVec.ofNat 2 (i % 3)
  rxMem : ∀ k < i, y.rxMem (BitVec.ofNat 4 k) = x.answer txMem k

theorem ofNat_succ_mod_three (i : ℕ) :
    (if BitVec.ofNat 2 (i % 3) = 2 then 0 else BitVec.ofNat 2 (i % 3) + 1) =
      BitVec.ofNat 2 ((i + 1) % 3) := by
  have hlt : i % 3 < 3 := Nat.mod_lt i (by decide)
  rw [Nat.add_mod]
  generalize i % 3 = r at hlt
  interval_cases r <;> rfl

theorem ofNat_ne {i k : ℕ} (hk : k < i) (hi : i < 16) : BitVec.ofNat 4 k ≠ BitVec.ofNat 4 i := by
  intro h
  have := congrArg BitVec.toNat h
  simp at this
  omega

/-- Byte `i` of a frame, with the half periods before it. -/
theorem Next.done {i : ℕ} (h : Next txMem x i (run txMem x (20 * i))) (hi : i < 16) :
    Done (run txMem x (20 * i)) (run txMem x (20 * i + 19)) ∧
      Sends txMem (run txMem x (20 * i)) 19
        (byteLog (BitVec.ofNat 4 i) (BitVec.ofNat 2 (i % 3)) (x.answer txMem i)
          (txMem (BitVec.ofNat 4 i))) ∧
      ∀ k < i + 1, (run txMem x (20 * i + 19)).rxMem (BitVec.ofNat 4 k) = x.answer txMem k := by
  obtain ⟨hdone, hsends⟩ := h.ready.byte txMem
  rw [← run_add] at hdone
  rw [h.addr, h.bufCnt, h.txByte] at hsends
  refine ⟨hdone, hsends, ?_⟩
  intro k hk
  rw [hdone.rxMem, h.addr]
  rcases Nat.lt_succ_iff_lt_or_eq.mp hk with hlt | rfl
  · rw [Function.update_of_ne (ofNat_ne hlt hi), h.rxMem k hlt]
  · exact Function.update_self _ _ _

theorem Next.succ {i : ℕ} (h : Next txMem x i (run txMem x (20 * i))) (hi : i < 16) :
    Next txMem x (i + 1) (run txMem x (20 * (i + 1))) := by
  obtain ⟨hdone, -, hmem⟩ := h.done hi
  obtain ⟨-, -, -, hready, haddr, hbyte, hrx, hbuf⟩ := hdone.next txMem
  rw [← run_succ] at hready haddr hbyte hrx hbuf
  have hnext : run txMem x (20 * (i + 1)) = run txMem x (20 * i + 19 + 1) := rfl
  rw [hnext]
  have hsucc : BitVec.ofNat 4 i + 1 = BitVec.ofNat 4 (i + 1) := (BitVec.ofNat_add i 1).symm
  refine ⟨hready, ?_, ?_, ?_, ?_⟩
  · rw [haddr, h.addr, hsucc]
  · rw [hbyte, h.addr, hsucc]
  · rw [hbuf, hdone.bufCnt, h.bufCnt, ofNat_succ_mod_three]
  · rw [hrx]
    exact hmem

/-- What is shown while the first `n` bytes are sent. -/
def bytesLog (txMem : BitVec 4 → Byte) (q : ℕ → Byte) (n : ℕ) : List SpiEvent :=
  (List.range n).flatMap fun i =>
    byteLog (BitVec.ofNat 4 i) (BitVec.ofNat 2 (i % 3)) (q i) (txMem (BitVec.ofNat 4 i))

/-- **The bytes of a frame**, up to the half period that would fetch the next one. -/
theorem Next.bytes (h : Next txMem x 0 x) {n : ℕ} (hn : n < 16) :
    (∀ i ≤ n, Next txMem x i (run txMem x (20 * i))) ∧
      shown txMem x (20 * n + 19) = bytesLog txMem (x.answer txMem) (n + 1) := by
  have hnext : ∀ i ≤ n, Next txMem x i (run txMem x (20 * i)) := by
    intro i
    induction i with
    | zero => exact fun _ => h
    | succ i ih => exact fun hi => (ih (Nat.le_of_succ_le hi)).succ (by omega)
  refine ⟨hnext, ?_⟩
  have hshown : ∀ i ≤ n, shown txMem x (20 * i) = bytesLog txMem (x.answer txMem) i := by
    intro i
    induction i with
    | zero => exact fun _ => rfl
    | succ i ih =>
      intro hi
      obtain ⟨hdone, hsends, -⟩ := (hnext i (by omega)).done (by omega)
      obtain ⟨-, -, hlog, -⟩ := hdone.next txMem
      calc shown txMem x (20 * (i + 1))
          = shown txMem x (20 * i) ++ (shown txMem (run txMem x (20 * i)) 19 ++
              (run txMem x (20 * i + 19)).log) := by
            rw [run_add, show 20 * (i + 1) = 20 * i + (19 + 1) by omega, shown_add]
            rfl
        _ = bytesLog txMem (x.answer txMem) (i + 1) := by
            rw [ih (by omega), hsends.shown, hlog, List.append_nil, bytesLog, bytesLog,
              List.range_succ, List.flatMap_append, List.flatMap_singleton]
  obtain ⟨-, hsends, -⟩ := (hnext n (Nat.le_refl n)).done hn
  rw [shown_add, hshown n (Nat.le_refl n), hsends.shown, bytesLog, bytesLog, List.range_succ,
    List.flatMap_append, List.flatMap_singleton]

end Exchange

end RangerRisc
