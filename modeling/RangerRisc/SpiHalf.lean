import RangerRisc.SpiSlave

/-! The SPI link over one half period of the divided clock, six cycles: what the edge does to
the master has reached the slave and come back before the next edge. -/

namespace RangerRisc

open Clocked ShiftRegister

/-! ## Cycles -/

/-- The inputs during a transfer: no reset and nothing written. -/
structure IOInput.Quiet (i : IOInput) : Prop where
  reset : i.reset = true
  txWr : i.txWr = true

namespace IOModule

variable {i : IOInput} {l : MasterLines} {m : IOModule}

/-- What changes in every cycle: the divider, the copies of the lines and the ports of
`rx_buf`. -/
def tick (i : IOInput) (l : MasterLines) (m : IOModule) : IOModule :=
  { m with
    pByteSent := l.byteSent, pSpiClk := l.spiClk, pMastSpiClk := m.mastSpiClk
    sysClkCnt := if m.sysClkCnt = 5 then 0 else m.sysClkCnt + 1
    mastSpiClk := if m.sysClkCnt = 5 then !m.mastSpiClk else m.mastSpiClk
    rxBuf := m.rxBuf.negedge l.byteFromSlave m.rxStrAddr (m.rxWr l) i.rxRd }

/-- The byte at `txStrAddr` is fetched. -/
def fetch (m : IOModule) : IOModule :=
  { m with txBuf := { m.txBuf with dataO := m.txBuf.mem m.txStrAddr } }

theorem spiSend_of_send (hs : m.state = .ioSend) (b : Bool) :
    m.spiSend b = m.byteSentFalling b := by
  rw [spiSend, hs]

theorem cs_of_send (hs : m.state = .ioSend) : m.cs = false := by
  rw [cs, hs]

section Quiet

variable (hq : i.Quiet)
include hq

theorem clock_begin_wait (hs : m.state = .ioBegin) (hrise : m.mastSpiClkRising = false) :
    m.clock i l = m.tick i l := by
  obtain ⟨hreset, hwr⟩ := hq
  obtain ⟨state, _, _, _, _, _, _, spi, pSpi, _, _⟩ := m
  subst hs
  have hrise' : (!pSpi && spi) = false := hrise
  simp only [clock, posedge, negedge, nextState, txRd, mastSpiClkRising, hreset, hwr, hrise']
  rfl

/-- The divided clock rises: the byte at `txStrAddr` is fetched. -/
theorem clock_begin_rise (hs : m.state = .ioBegin) (hrise : m.mastSpiClkRising = true) :
    m.clock i l = { m.fetch.tick i l with state := .ioSend } := by
  obtain ⟨hreset, hwr⟩ := hq
  obtain ⟨state, _, _, _, _, _, _, spi, pSpi, _, _⟩ := m
  subst hs
  have hrise' : (!pSpi && spi) = true := hrise
  simp only [clock, posedge, negedge, nextState, txRd, txAddrIdx, mastSpiClkRising, hreset, hwr,
    hrise']
  rfl

theorem clock_send (hs : m.state = .ioSend) (hfall : m.byteSentFalling l.byteSent = false) :
    m.clock i l = m.tick i l := by
  obtain ⟨hreset, hwr⟩ := hq
  obtain ⟨state, _, _, _, _, _, _, _, _, pSent, _⟩ := m
  subst hs
  have hfall' : (pSent && !l.byteSent) = false := hfall
  simp only [clock, posedge, negedge, nextState, txRd, byteSentFalling, hreset, hwr, hfall']
  rfl

/-- The byte was sent. -/
theorem clock_send_fall (hs : m.state = .ioSend) (hfall : m.byteSentFalling l.byteSent = true) :
    m.clock i l = { m.tick i l with
      txStrAddr := m.txStrAddr + 1, state := if m.lastByte i then .ioComplete else .ioNext } := by
  obtain ⟨hreset, hwr⟩ := hq
  obtain ⟨state, _, _, _, _, _, _, _, _, pSent, _⟩ := m
  subst hs
  have hfall' : (pSent && !l.byteSent) = true := hfall
  simp only [clock, posedge, negedge, nextState, txRd, byteSentFalling, hreset, hwr, hfall']
  rfl

theorem clock_next (hs : m.state = .ioNext) :
    m.clock i l = { m.fetch.tick i l with rxStrAddr := m.rxStrAddr + 1, state := .ioSend } := by
  obtain ⟨hreset, hwr⟩ := hq
  obtain ⟨state, _⟩ := m
  subst hs
  simp only [clock, posedge, negedge, nextState, txRd, txAddrIdx, hreset, hwr]
  rfl

end Quiet

end IOModule

namespace SPIMaster

/-- An edge leaves the synchroniser as it is, and a rising one samples its middle. -/
theorem negSpiClk_sync (m : SPIMaster) (b : Byte) (c : CDCSynchron) :
    ({ m with misoSync := c } : SPIMaster).negSpiClk b = { m.negSpiClk b with misoSync := c } := by
  obtain ⟨state, _⟩ := m
  cases state <;> rfl

theorem posSpiClk_sync (m : SPIMaster) (e : Bool) {c c' : CDCSynchron} (h : c.syncO = c'.syncO) :
    ({ m with misoSync := c } : SPIMaster).posSpiClk e =
      { ({ m with misoSync := c' } : SPIMaster).posSpiClk e with misoSync := c } := by
  obtain ⟨state, sync, bitCnt, rxBits, _⟩ := m
  cases state with
  | msIdle => cases e <;> rfl
  | msStart => rfl
  | msBegin => simp [posSpiClk, h]
  | msTransmitting => by_cases hcnt : bitCnt = 0#3 <;> simp [posSpiClk, h, hcnt]
  | msComplete => rfl

end SPIMaster

namespace SpiLink

variable {s : SpiLink} {i : IOInput} {inp : ℕ → IOInput}

/-- A cycle, from what it does to the IO module. -/
theorem clock_of_io {io : IOModule} (h : s.io.clock i s.masterLines = io) :
    s.clock i = {
      io
      master := spiClkEdge s.io.mastSpiClk io.mastSpiClk (io.spiSend s.master.byteTxComplete)
        io.txBuf.dataO { s.master with misoSync := s.master.misoSync.clock s.slave.negedge.miso }
      slave := s.slave.clock s.slaveInput } := by
  subst h
  rfl

theorem spiClkEdge_self (c e : Bool) (b : Byte) (m : SPIMaster) : spiClkEdge c c e b m = m := by
  cases c <;> rfl

/-- A byte is being sent, and the IO module has seen what its master does. -/
structure Steady (s : SpiLink) : Prop where
  state : s.io.state = .ioSend
  pByteSent : s.io.pByteSent = s.master.byteTxComplete
  pSpiClk : s.io.pSpiClk = s.spiClk
  pMastSpiClk : s.io.pMastSpiClk = s.io.mastSpiClk

/-- The link `k` cycles after `s`, the slave apart having only counted; `d` is what was read of
`rx_buf` and `c` is in the synchroniser of the master. -/
def held (s : SpiLink) (k : ℕ) (d : Byte) (c : CDCSynchron) : SpiLink where
  io := { s.io with
    sysClkCnt := s.io.sysClkCnt + BitVec.ofNat 4 k, rxBuf := { s.io.rxBuf with dataO := d } }
  master := { s.master with misoSync := c }
  slave := trace SPISlave.clock s.slave (fun _ => s.slaveInput) k

theorem Steady.rxWr (h : s.Steady) : s.io.rxWr s.masterLines = true := by
  change (!((s.io.pSpiClk && !s.spiClk) && s.master.byteTxComplete)) = true
  rw [h.pSpiClk, Bool.and_not_self]
  rfl

/-- In such a cycle the counter of the divider moves, and `rx_buf` may be read. -/
theorem Steady.tick {k : ℕ} {d : Byte} {c : CDCSynchron} (h : s.Steady)
    (hk : s.io.sysClkCnt + BitVec.ofNat 4 k ≠ 5) :
    ∃ d', ∀ c', (s.held k d c).io.tick i (s.held k d c).masterLines =
      (s.held (k + 1) d' c').io := by
  have hwr : (s.held k d c).io.rxWr (s.held k d c).masterLines = true := h.rxWr
  refine ⟨if !i.rxRd then s.io.rxBuf.mem s.io.rxStrAddr else d, fun c' => ?_⟩
  unfold IOModule.tick
  rw [hwr]
  change ({ s.io with
    pByteSent := s.master.byteTxComplete, pSpiClk := s.spiClk, pMastSpiClk := s.io.mastSpiClk
    sysClkCnt := if s.io.sysClkCnt + BitVec.ofNat 4 k = 5 then 0 else
      s.io.sysClkCnt + BitVec.ofNat 4 k + 1
    mastSpiClk :=
      if s.io.sysClkCnt + BitVec.ofNat 4 k = 5 then !s.io.mastSpiClk else s.io.mastSpiClk
    rxBuf := ⟨s.io.rxBuf.mem,
      if !i.rxRd then s.io.rxBuf.mem s.io.rxStrAddr else d⟩ } : IOModule) = _
  have hsucc : BitVec.ofNat 4 k + 1 = BitVec.ofNat 4 (k + 1) := (BitVec.ofNat_add k 1).symm
  rw [if_neg hk, if_neg hk, ← h.pByteSent, ← h.pSpiClk, BitVec.add_assoc, hsucc]
  change _ = ({ s.io with
    pMastSpiClk := s.io.pMastSpiClk, sysClkCnt := s.io.sysClkCnt + BitVec.ofNat 4 (k + 1)
    rxBuf := ⟨s.io.rxBuf.mem, if !i.rxRd then s.io.rxBuf.mem s.io.rxStrAddr else d⟩ } : IOModule)
  rw [h.pMastSpiClk]

theorem Steady.clock_held {k : ℕ} {d : Byte} {c : CDCSynchron} (h : s.Steady)
    (hk : s.io.sysClkCnt + BitVec.ofNat 4 k ≠ 5) (hq : i.Quiet) :
    ∃ d', (s.held k d c).clock i =
      s.held (k + 1) d' (c.clock (s.held k d c).slave.negedge.miso) := by
  have hfall : (s.held k d c).io.byteSentFalling (s.held k d c).masterLines.byteSent = false := by
    change (s.io.pByteSent && !s.master.byteTxComplete) = false
    rw [h.pByteSent, Bool.and_not_self]
  obtain ⟨d', htick⟩ := h.tick (i := i) (d := d) (c := c) hk
  have hio := (IOModule.clock_send hq (m := (s.held k d c).io) (l := (s.held k d c).masterLines)
    h.state hfall).trans (htick c)
  refine ⟨d', ?_⟩
  rw [clock_of_io hio]
  change ({ io := _, master := spiClkEdge s.io.mastSpiClk s.io.mastSpiClk _ _ _
            slave := _ } : SpiLink) = _
  rw [spiClkEdge_self]
  rfl

theorem held_zero : s.held 0 s.io.rxBuf.dataO s.master.misoSync = s := by
  obtain ⟨⟨⟩, ⟨⟩, slave⟩ := s
  simp [held]

/-- The synchroniser of the master has the level that the slave showed last. -/
theorem clock_misoSync (s : SpiLink) (i : IOInput) :
    (s.clock i).master.misoSync.bit0 = (s.clock i).slave.miso := by
  have hedge : ∀ (c c' e : Bool) (b : Byte) (m : SPIMaster),
      (spiClkEdge c c' e b m).misoSync = m.misoSync := by
    intro c c' e b m
    have hpos := congrArg SPIMaster.misoSync (m.posSpiClk_sync e (Eq.refl m.misoSync.syncO))
    have hneg := congrArg SPIMaster.misoSync (m.negSpiClk_sync b m.misoSync)
    unfold spiClkEdge
    split
    · exact hpos
    · split
      · exact hneg
      · rfl
  have hmiso : (s.clock i).slave.miso = s.slave.negedge.miso :=
    congrArg BitVec.msb SPISlave.clock_shiftData
  rw [hmiso]
  exact congrArg CDCSynchron.bit0 (hedge _ _ _ _ _)

/-- Such a cycle shows nothing but what the slave captures. -/
theorem Steady.events_held {k : ℕ} {d : Byte} {c : CDCSynchron} (h : s.Steady)
    (hk : s.io.sysClkCnt + BitVec.ofNat 4 k ≠ 5) (hq : i.Quiet) :
    (s.held k d c).events i = (s.held k d c).slave.captures s.slaveInput := by
  have hstores : (s.held k d c).stores i = [] := by
    have hwr : (s.held k d c).io.rxWr (s.held k d c).masterLines = true := h.rxWr
    rw [stores, hwr]
    rfl
  have hrises : (s.held k d c).rises i = [] := by
    obtain ⟨d', hd'⟩ := h.clock_held (d := d) (c := c) hk hq
    have hclk : ((s.held k d c).clock i).spiClk = (s.held k d c).spiClk := by
      rw [hd']
      rfl
    rw [rises, hclk, Bool.not_and_self]
    rfl
  rw [events, hstores, hrises, List.append_nil, List.nil_append]
  rfl

theorem ofNat_ne_five {n : ℕ} (hn : n < 5) : BitVec.ofNat 4 n ≠ 5 := by
  intro h
  have := congrArg BitVec.toNat h
  simp at this
  omega

/-- Up to the last cycle of the half period. -/
theorem Steady.trace_held {n : ℕ} (h : s.Steady) (hn : s.io.sysClkCnt = BitVec.ofNat 4 n)
    {k : ℕ} (hk : n + k ≤ 5) (hq : ∀ j < k, (inp j).Quiet) :
    ∃ d c, trace clock s inp k = s.held k d c ∧
      emitted clock s inp events k =
        emitted SPISlave.clock s.slave (fun _ => s.slaveInput) SPISlave.captures k := by
  induction k with
  | zero => exact ⟨_, _, held_zero.symm, rfl⟩
  | succ k ih =>
    obtain ⟨d, c, hd, he⟩ := ih (by omega) fun j hj => hq j (Nat.lt_succ_of_lt hj)
    have hcnt : s.io.sysClkCnt + BitVec.ofNat 4 k ≠ 5 := by
      rw [hn, ← BitVec.ofNat_add]
      exact ofNat_ne_five (by omega)
    have hquiet := hq k (Nat.lt_succ_self k)
    obtain ⟨d', hd'⟩ := h.clock_held (d := d) (c := c) hcnt hquiet
    refine ⟨d', _, by rw [trace_succ, hd, hd'], ?_⟩
    rw [emitted_succ, emitted_succ, he, hd, h.events_held hcnt hquiet]
    rfl

end SpiLink

/-! ## The exchange, half period by half period -/

/-- The link at the end of a half period: the level of the divided clock, the address of the
byte that is sent, the byte itself, `rx_buf`, and the two machines. -/
structure Exchange where
  high : Bool
  addr : BitVec 4
  txByte : Byte
  rxMem : BitVec 4 → Byte
  master : SPIMaster
  slave : SPISlave

namespace Exchange

/-- The gated clock. -/
def clk (x : Exchange) : Bool := x.master.outSpiClk x.high false

/-- The master after the next edge. -/
def edge (x : Exchange) : SPIMaster :=
  if x.high then x.master.negSpiClk x.txByte
  else
    ({ x.master with misoSync := ⟨x.slave.miso, x.slave.miso, x.slave.miso⟩ } :
      SPIMaster).posSpiClk false

def clk' (x : Exchange) : Bool := x.edge.outSpiClk (!x.high) false

/-- The byte was sent. -/
def sent (x : Exchange) : Bool := x.master.byteTxComplete && !x.edge.byteTxComplete

def stored (x : Exchange) : Bool := x.clk && !x.clk' && x.edge.byteTxComplete

/-- The next half period; `txMem` is what is in `tx_buf`. -/
def half (txMem : BitVec 4 → Byte) (x : Exchange) : Exchange where
  high := !x.high
  addr := if x.sent then x.addr + 1 else x.addr
  txByte := if x.sent then txMem (x.addr + 1) else x.txByte
  rxMem := if x.stored then Function.update x.rxMem x.addr x.edge.rxByte else x.rxMem
  master := x.edge
  slave := x.slave.half x.clk x.clk' x.edge.mosi

/-- What the next half period shows. -/
def log (x : Exchange) : List SpiEvent :=
  (if !x.clk && x.clk' then [.rise x.slave.shiftData] else []) ++
  (if x.stored then [.store x.addr x.edge.rxByte] else []) ++
  (if x.clk && !x.clk' && x.slave.state = .slIdle then
    [.capture x.slave.bufCnt x.slave.rxByte] else [])

/-- The address of the byte is that of the last one. -/
def Last (cnt : BitVec 4) (x : Exchange) : Prop := x.addr.setWidth 32 = cnt.setWidth 32 - 1

end Exchange

namespace SpiLink

variable {s : SpiLink} {i : IOInput} {inp : ℕ → IOInput} {x : Exchange} {cnt : BitVec 4}
  {txMem : BitVec 4 → Byte}

/-- The link sends, in the last cycle of a half period, and everything else is in `x`. -/
structure Shows (cnt : BitVec 4) (txMem : BitVec 4 → Byte) (x : Exchange) (s : SpiLink) : Prop where
  steady : s.Steady
  sysClkCnt : s.io.sysClkCnt = 5
  mastSpiClk : s.io.mastSpiClk = x.high
  txByteCnt : s.io.txByteCnt = cnt
  txStrAddr : s.io.txStrAddr = x.addr
  rxStrAddr : s.io.rxStrAddr = x.addr
  txMem : s.io.txBuf.mem = txMem
  txByte : s.io.txBuf.dataO = x.txByte
  rxMem : s.io.rxBuf.mem = x.rxMem
  master : s.master = { x.master with misoSync := s.master.misoSync }
  miso : s.master.misoSync.bit0 = x.slave.miso
  waits : x.slave.Waits
  slave : s.slave = x.slave.lined ⟨x.clk, x.clk, x.clk⟩
    ⟨x.master.mosi, x.master.mosi, x.master.mosi⟩

theorem Steady.spiSend (h : s.Steady) : s.spiSend = false := by
  rw [SpiLink.spiSend, IOModule.spiSend, h.state]
  change (s.io.pByteSent && !s.master.byteTxComplete) = false
  rw [h.pByteSent, Bool.and_not_self]

theorem Shows.spiClk (h : Shows cnt txMem x s) : s.spiClk = x.clk := by
  rw [SpiLink.spiClk, h.steady.spiSend, h.mastSpiClk, h.master]
  rfl

theorem Shows.byteTxComplete (h : Shows cnt txMem x s) :
    s.master.byteTxComplete = x.master.byteTxComplete := by
  rw [h.master]

theorem Shows.mosi (h : Shows cnt txMem x s) : s.master.mosi = x.master.mosi := by
  rw [h.master]

theorem Shows.cs (h : Shows cnt txMem x s) : s.io.cs = false := by
  rw [IOModule.cs, h.steady.state]

theorem Shows.slaveInput (h : Shows cnt txMem x s) :
    s.slaveInput = ⟨x.clk, false, x.master.mosi⟩ := by
  rw [SpiLink.slaveInput, h.spiClk, h.mosi, h.cs]

/-- The cycle of the edge. -/
def edged (x : Exchange) (s : SpiLink) (d : Byte) (c : CDCSynchron) : SpiLink where
  io := { s.io with
    sysClkCnt := 0, mastSpiClk := !x.high, rxBuf := { s.io.rxBuf with dataO := d } }
  master := { x.edge with misoSync := c }
  slave := s.slave.clock s.slaveInput

/-- The edge at the master: a rising one samples what the slave showed last. -/
theorem Shows.spiClkEdge (h : Shows cnt txMem x s) (miso : Bool) :
    SpiLink.spiClkEdge s.io.mastSpiClk (!x.high) false s.io.txBuf.dataO
      { s.master with misoSync := s.master.misoSync.clock miso } =
        { x.edge with misoSync := s.master.misoSync.clock miso } := by
  have hmaster : ({ s.master with misoSync := s.master.misoSync.clock miso } : SPIMaster) =
      { x.master with misoSync := s.master.misoSync.clock miso } := by
    rw [h.master]
  rw [hmaster, h.mastSpiClk, h.txByte]
  unfold SpiLink.spiClkEdge Exchange.edge
  cases x.high with
  | true => exact x.master.negSpiClk_sync _ _
  | false => exact x.master.posSpiClk_sync _ h.miso

theorem Shows.clock_edge (h : Shows cnt txMem x s) (hq : i.Quiet) :
    ∃ d c, s.clock i = edged x s d c := by
  have hfall : s.io.byteSentFalling s.masterLines.byteSent = false := by
    change (s.io.pByteSent && !s.master.byteTxComplete) = false
    rw [h.steady.pByteSent, Bool.and_not_self]
  have hio := IOModule.clock_send hq (l := s.masterLines) h.steady.state hfall
  obtain ⟨d, hd⟩ : ∃ d, d = if !i.rxRd then s.io.rxBuf.mem s.io.rxStrAddr else s.io.rxBuf.dataO :=
    ⟨_, rfl⟩
  obtain ⟨c, hc⟩ : ∃ c, c = s.master.misoSync.clock s.slave.negedge.miso := ⟨_, rfl⟩
  have htick : s.io.tick i s.masterLines = (edged x s d c).io := by
    rw [IOModule.tick, h.steady.rxWr, if_pos h.sysClkCnt, if_pos h.sysClkCnt]
    change ({ s.io with
      pByteSent := s.master.byteTxComplete, pSpiClk := s.spiClk, pMastSpiClk := s.io.mastSpiClk
      sysClkCnt := 0, mastSpiClk := !s.io.mastSpiClk
      rxBuf := ⟨s.io.rxBuf.mem,
        if !i.rxRd then s.io.rxBuf.mem s.io.rxStrAddr else s.io.rxBuf.dataO⟩ } : IOModule) = _
    rw [← hd, ← h.steady.pByteSent, ← h.steady.pSpiClk, ← h.steady.pMastSpiClk]
    change _ = ({ s.io with
      sysClkCnt := 0, mastSpiClk := !x.high, rxBuf := ⟨s.io.rxBuf.mem, d⟩ } : IOModule)
    rw [← h.mastSpiClk, ← h.steady.pMastSpiClk]
  have hsend : (edged x s d c).io.spiSend s.master.byteTxComplete = false := h.steady.spiSend
  refine ⟨d, c, ?_⟩
  have hedge := h.spiClkEdge s.slave.negedge.miso
  rw [← hc] at hedge
  rw [clock_of_io (hio.trans htick), hsend, ← hc, edged, ← hedge]

/-- The IO module in the cycle after the edge has been seen, its state machine apart. -/
def seenIo (x : Exchange) (s : SpiLink) (d : Byte) : IOModule :=
  { s.io with
    sysClkCnt := 1, mastSpiClk := !x.high, pMastSpiClk := !x.high
    pByteSent := x.edge.byteTxComplete, pSpiClk := x.clk'
    rxBuf := {
      mem := if x.stored then Function.update x.rxMem x.addr x.edge.rxByte else x.rxMem
      dataO := d } }

section Edged

variable {d : Byte} {c : CDCSynchron} (h : Shows cnt txMem x s)
include h

theorem Shows.edged_spiSend : (edged x s d c).spiSend = x.sent := by
  have hstate : (edged x s d c).io.state = .ioSend := h.steady.state
  rw [SpiLink.spiSend, IOModule.spiSend_of_send hstate]
  change (s.io.pByteSent && !x.edge.byteTxComplete) = x.sent
  rw [h.steady.pByteSent, h.byteTxComplete]
  rfl

theorem Shows.edged_state : (edged x s d c).io.state = .ioSend := h.steady.state

theorem Shows.edged_falling :
    (edged x s d c).io.byteSentFalling (edged x s d c).masterLines.byteSent = x.sent := by
  change (s.io.pByteSent && !x.edge.byteTxComplete) = x.sent
  rw [h.steady.pByteSent, h.byteTxComplete]
  rfl

/-- While the byte goes on the clock is not gated; when it was sent the master is idle. -/
theorem Shows.edged_spiClk (hclk : x.sent = true → x.clk' = false) :
    (edged x s d c).spiClk = x.clk' := by
  rw [SpiLink.spiClk, h.edged_spiSend]
  change x.edge.outSpiClk (!x.high) x.sent = x.clk'
  cases hsent : x.sent with
  | false => rfl
  | true =>
    rw [hclk hsent, SPIMaster.outSpiClk]
    simp

theorem Shows.edged_rxWr (hclk : x.sent = true → x.clk' = false) :
    (edged x s d c).io.rxWr (edged x s d c).masterLines = !x.stored := by
  change (!((s.io.pSpiClk && !(edged x s d c).spiClk) && x.edge.byteTxComplete)) = _
  rw [h.edged_spiClk hclk, h.steady.pSpiClk, h.spiClk]
  rfl

theorem Shows.edged_slaveInput (hclk : x.sent = true → x.clk' = false) :
    (edged x s d c).slaveInput = ⟨x.clk', false, x.edge.mosi⟩ := by
  rw [SpiLink.slaveInput, h.edged_spiClk hclk]
  change SlaveInput.mk _ (IOModule.cs s.io) _ = _
  rw [IOModule.cs, h.steady.state]
  rfl

theorem Shows.edged_slave :
    (edged x s d c).slave = s.slave.clock ⟨x.clk, false, x.master.mosi⟩ := by
  rw [edged, h.slaveInput]

theorem Shows.edged_tick (hclk : x.sent = true → x.clk' = false) :
    ∃ d', (edged x s d c).io.tick i (edged x s d c).masterLines = seenIo x s d' := by
  have hwr := h.edged_rxWr (d := d) (c := c) hclk
  refine ⟨if !i.rxRd then s.io.rxBuf.mem s.io.rxStrAddr else d, ?_⟩
  rw [IOModule.tick, hwr]
  change ({ s.io with
    pByteSent := x.edge.byteTxComplete, pSpiClk := (edged x s d c).spiClk, pMastSpiClk := !x.high
    sysClkCnt := 1, mastSpiClk := !x.high
    rxBuf := {
      mem := if !!x.stored then Function.update s.io.rxBuf.mem s.io.rxStrAddr x.edge.rxByte
        else s.io.rxBuf.mem
      dataO := if !i.rxRd then s.io.rxBuf.mem s.io.rxStrAddr else d } } : IOModule) = _
  rw [Bool.not_not, h.edged_spiClk hclk, h.rxStrAddr, h.rxMem]
  rfl

/-- The cycle after the edge, from what the state machine of the IO module does. -/
theorem Shows.clock_edged {io : IOModule}
    (hio : (edged x s d c).io.clock i (edged x s d c).masterLines = io)
    (hclk : x.sent = true → x.clk' = false) (hmast : io.mastSpiClk = !x.high) :
    ∃ c', (edged x s d c).clock i = {
      io
      master := { x.edge with misoSync := c' }
      slave := (s.slave.clock ⟨x.clk, false, x.master.mosi⟩).clock
        ⟨x.clk', false, x.edge.mosi⟩ } := by
  refine ⟨c.clock (edged x s d c).slave.negedge.miso, ?_⟩
  rw [clock_of_io hio, hmast, h.edged_slaveInput hclk]
  have hmaster := spiClkEdge_self (!x.high) (io.spiSend x.edge.byteTxComplete) io.txBuf.dataO
    { x.edge with misoSync := c.clock (edged x s d c).slave.negedge.miso }
  rw [← h.slaveInput]
  exact congrArg (fun m => ({ io, master := m, slave := _ } : SpiLink)) hmaster

theorem Shows.events_edge (hclk : x.sent = true → x.clk' = false)
    (h1 : s.clock i = edged x s d c) :
    s.events i = if !x.clk && x.clk' then [.rise x.slave.shiftData] else [] := by
  have hstores : s.stores i = [] := by
    rw [stores, h.steady.rxWr]
    rfl
  have hcaptures : s.slave.captures s.slaveInput = [] := by
    apply SPISlave.captures_eq_nil
    rw [h.slave]
    exact Bool.and_not_self _
  have hdata : (s.clock i).slave.shiftData = x.slave.shiftData := by
    change (s.slave.clock s.slaveInput).shiftData = x.slave.shiftData
    rw [SPISlave.clock_shiftData, h.slave, SPISlave.negedge_eq rfl rfl]
    rfl
  rw [events, hstores, hcaptures, rises, hdata, h1, h.edged_spiClk hclk, h.spiClk]
  rfl

theorem Shows.events_edged (hclk : x.sent = true → x.clk' = false)
    (hmem : ((edged x s d c).clock i).io.rxBuf.mem =
      if x.stored then Function.update x.rxMem x.addr x.edge.rxByte else x.rxMem)
    (h2 : ((edged x s d c).clock i).spiClk = x.clk') :
    (edged x s d c).events i = (if x.stored then [.store x.addr x.edge.rxByte] else []) ++
      (edged x s d c).slave.captures (edged x s d c).slaveInput := by
  have haddr : (edged x s d c).io.rxStrAddr = x.addr := h.rxStrAddr
  have hstores : (edged x s d c).stores i =
      if x.stored then [.store x.addr x.edge.rxByte] else [] := by
    rw [stores, h.edged_rxWr hclk, hmem, haddr, Bool.not_not]
    cases x.stored with
    | false => rfl
    | true => rw [if_pos rfl, if_pos rfl, if_pos rfl, Function.update_self]
  have hrises : (edged x s d c).rises i = [] := by
    rw [rises, h2, h.edged_spiClk hclk, Bool.not_and_self]
    rfl
  rw [events, hstores, hrises, List.append_nil]

end Edged

theorem halfLines_add_two (clk m clk' m' : Bool) :
    (fun k => SPISlave.halfLines clk m clk' m' (2 + k)) = fun _ => ⟨clk', false, m'⟩ := by
  funext k
  exact if_neg (by omega)

/-- The slave over the half period, from its third cycle on. -/
theorem Shows.trace_slave (h : Shows cnt txMem x s) :
    trace SPISlave.clock ((s.slave.clock ⟨x.clk, false, x.master.mosi⟩).clock
        ⟨x.clk', false, x.edge.mosi⟩) (fun _ => ⟨x.clk', false, x.edge.mosi⟩) 4 =
      (x.half txMem).slave.lined ⟨x.clk', x.clk', x.clk'⟩
        ⟨x.edge.mosi, x.edge.mosi, x.edge.mosi⟩ := by
  have htrace := trace_add SPISlave.clock s.slave
    (SPISlave.halfLines x.clk x.master.mosi x.clk' x.edge.mosi) 2 4
  rw [halfLines_add_two] at htrace
  have hhalf := @SPISlave.trace_half x.slave x.clk x.clk' x.master.mosi x.edge.mosi h.waits
  rw [← h.slave] at hhalf
  exact htrace.symm.trans hhalf

theorem Shows.captures_slave (h : Shows cnt txMem x s) :
    (s.slave.clock ⟨x.clk, false, x.master.mosi⟩).captures ⟨x.clk', false, x.edge.mosi⟩ ++
      emitted SPISlave.clock ((s.slave.clock ⟨x.clk, false, x.master.mosi⟩).clock
        ⟨x.clk', false, x.edge.mosi⟩) (fun _ => ⟨x.clk', false, x.edge.mosi⟩) SPISlave.captures 4 =
      if x.clk && !x.clk' && x.slave.state = .slIdle then
        [.capture x.slave.bufCnt x.slave.rxByte] else [] := by
  have hadd := emitted_add SPISlave.clock s.slave
    (SPISlave.halfLines x.clk x.master.mosi x.clk' x.edge.mosi) SPISlave.captures 2 4
  rw [halfLines_add_two] at hadd
  have hfirst : s.slave.captures ⟨x.clk, false, x.master.mosi⟩ = [] := by
    apply SPISlave.captures_eq_nil
    rw [h.slave]
    exact Bool.and_not_self _
  have htwo : emitted SPISlave.clock s.slave
      (SPISlave.halfLines x.clk x.master.mosi x.clk' x.edge.mosi) SPISlave.captures 2 =
        (s.slave.clock ⟨x.clk, false, x.master.mosi⟩).captures ⟨x.clk', false, x.edge.mosi⟩ := by
    change [] ++ s.slave.captures ⟨x.clk, false, x.master.mosi⟩ ++ _ = _
    rw [hfirst]
    rfl
  have hhalf := @SPISlave.emitted_captures_half x.slave x.clk x.clk' x.master.mosi x.edge.mosi
    h.waits
  rw [← h.slave] at hhalf
  rw [htwo] at hadd
  exact hadd.symm.trans hhalf

/-- From a steady cycle to the end of its half period, where the link shows `y` if all that
stays shows it already and the slave will. -/
theorem Steady.shows {t : SpiLink} {y : Exchange} (h : t.Steady) {n k : ℕ}
    (hn : t.io.sysClkCnt = BitVec.ofNat 4 n) (hk : n + (k + 1) = 5)
    (hq : ∀ j < k + 1, (inp j).Quiet) (hhigh : t.io.mastSpiClk = y.high)
    (hcnt : t.io.txByteCnt = cnt) (htx : t.io.txStrAddr = y.addr) (hrx : t.io.rxStrAddr = y.addr)
    (htxMem : t.io.txBuf.mem = txMem) (hbyte : t.io.txBuf.dataO = y.txByte)
    (hrxMem : t.io.rxBuf.mem = y.rxMem)
    (hmaster : t.master = { y.master with misoSync := t.master.misoSync }) (hw : y.slave.Waits)
    (hslave : trace SPISlave.clock t.slave (fun _ => ⟨y.clk, false, y.master.mosi⟩) (k + 1) =
      y.slave.lined ⟨y.clk, y.clk, y.clk⟩ ⟨y.master.mosi, y.master.mosi, y.master.mosi⟩) :
    Shows cnt txMem y (trace clock t inp (k + 1)) ∧
      emitted clock t inp events (k + 1) =
        emitted SPISlave.clock t.slave (fun _ => ⟨y.clk, false, y.master.mosi⟩) SPISlave.captures
          (k + 1) ∧
      ∀ j ≤ k + 1, (trace clock t inp j).io.cs = false := by
  have hclk : t.spiClk = y.clk := by
    rw [SpiLink.spiClk, h.spiSend, hhigh, hmaster]
    rfl
  have hlines : t.slaveInput = ⟨y.clk, false, y.master.mosi⟩ := by
    rw [SpiLink.slaveInput, hclk, IOModule.cs, h.state, hmaster]
  obtain ⟨d, c, htrace, hlog⟩ := h.trace_held hn (Nat.le_of_eq hk) hq
  have hmiso : (trace clock t inp (k + 1)).master.misoSync.bit0 =
      (trace clock t inp (k + 1)).slave.miso := clock_misoSync _ _
  have hheld : (t.held (k + 1) d c).slave =
      y.slave.lined ⟨y.clk, y.clk, y.clk⟩ ⟨y.master.mosi, y.master.mosi, y.master.mosi⟩ := by
    rw [← hslave, ← hlines]
    rfl
  refine ⟨?_, ?_, ?_⟩
  · rw [htrace] at hmiso ⊢
    refine ⟨⟨h.state, h.pByteSent, h.pSpiClk, h.pMastSpiClk⟩, ?_, hhigh, hcnt, htx, hrx, htxMem,
      hbyte, hrxMem, ?_, ?_, hw, hheld⟩
    · change t.io.sysClkCnt + BitVec.ofNat 4 (k + 1) = 5
      rw [hn, ← BitVec.ofNat_add, hk]
      rfl
    · change ({ t.master with misoSync := c } : SPIMaster) = { y.master with misoSync := c }
      rw [hmaster]
    · rw [hmiso, hheld]
      rfl
  · rw [hlog, hlines]
  · intro j hj
    obtain ⟨d, c, htrace, -⟩ := h.trace_held hn (k := j) (by omega)
      fun i hi => hq i (Nat.lt_of_lt_of_le hi hj)
    rw [htrace]
    exact IOModule.cs_of_send h.state

/-- What a half period leads to and shows, the slave being selected throughout. -/
structure HalfPeriod (cnt : BitVec 4) (txMem : BitVec 4 → Byte) (x : Exchange) (s : SpiLink)
    (inp : ℕ → IOInput) : Prop where
  shows : Shows cnt txMem (x.half txMem) (trace clock s inp 6)
  log : emitted clock s inp events 6 = x.log
  cs : ∀ k ≤ 6, (trace clock s inp k).io.cs = false

/-- A half period in which the byte goes on. -/
theorem Shows.half_of_not_sent (h : Shows cnt txMem x s) (hq : ∀ j < 6, (inp j).Quiet)
    (hsent : x.sent = false) : HalfPeriod cnt txMem x s inp := by
  have hclk : x.sent = true → x.clk' = false := fun h => absurd (hsent.symm.trans h) (by decide)
  obtain ⟨d, c, h1⟩ := h.clock_edge (hq 0 (by decide))
  obtain ⟨d', htick⟩ := h.edged_tick (i := inp 1) (d := d) (c := c) hclk
  have hio := (IOModule.clock_send (hq 1 (by decide)) h.edged_state
    (h.edged_falling.trans hsent)).trans htick
  obtain ⟨c', h2⟩ := h.clock_edged hio hclk rfl
  obtain ⟨t, ht⟩ : ∃ t, t = (edged x s d c).clock (inp 1) := ⟨_, rfl⟩
  rw [h2] at ht
  have htwo : trace clock s inp 2 = t := by
    rw [trace_succ, trace_succ, trace_zero, h1, h2, ht]
  have hclk' : t.spiClk = x.clk' := by
    have hsend : t.spiSend = false := by
      have hstate : t.io.state = .ioSend := by
        rw [ht]
        exact h.steady.state
      rw [SpiLink.spiSend, IOModule.spiSend_of_send hstate, ht]
      exact Bool.and_not_self _
    rw [SpiLink.spiClk, hsend, ht]
    rfl
  have hsteady : t.Steady := by
    refine ⟨by rw [ht]; exact h.steady.state, by rw [ht]; rfl, ?_, by rw [ht]; rfl⟩
    rw [hclk', ht]
    rfl
  have hhalf : x.half txMem = { x.half txMem with addr := x.addr, txByte := x.txByte } := by
    simp [Exchange.half, hsent]
  have hend : Shows cnt txMem (x.half txMem) (trace clock t (fun j => inp (2 + j)) 4) ∧
      emitted clock t (fun j => inp (2 + j)) events 4 =
        emitted SPISlave.clock t.slave (fun _ => ⟨x.clk', false, x.edge.mosi⟩)
          SPISlave.captures 4 ∧
      ∀ j ≤ 4, (trace clock t (fun j => inp (2 + j)) j).io.cs = false :=
    hsteady.shows (n := 1) (k := 3) (by rw [ht]; rfl) rfl (fun j hj => hq _ (by omega))
      (by rw [ht]; rfl) (by rw [ht]; exact h.txByteCnt) (by rw [ht, hhalf]; exact h.txStrAddr)
      (by rw [ht, hhalf]; exact h.rxStrAddr) (by rw [ht]; exact h.txMem)
      (by rw [ht, hhalf]; exact h.txByte) (by rw [ht]; rfl) (by rw [ht]; rfl) h.waits.half
      (by rw [ht]; exact h.trace_slave)
  obtain ⟨hshows, hlog, hcs⟩ := hend
  have hlast : ∀ j, trace clock s inp (2 + j) = trace clock t (fun j => inp (2 + j)) j := by
    intro j
    rw [trace_add, htwo]
  refine ⟨?_, ?_, ?_⟩
  · rw [← hlast] at hshows
    exact hshows
  · have hedge := h.events_edge hclk h1
    have hedged := h.events_edged (i := inp 1) (d := d) (c := c) hclk (by rw [h2]; rfl)
      (by rw [h2, ← ht, hclk'])
    calc emitted clock s inp events 6
        = emitted clock s inp events 2 ++ emitted clock t (fun j => inp (2 + j)) events 4 := by
          rw [← htwo]
          exact emitted_add clock s inp events 2 4
      _ = s.events (inp 0) ++ (edged x s d c).events (inp 1) ++
          emitted SPISlave.clock t.slave (fun _ => ⟨x.clk', false, x.edge.mosi⟩)
            SPISlave.captures 4 := by
          rw [hlog, ← h1]
          rfl
      _ = x.log := by
          rw [hedge, hedged, h.edged_slaveInput hclk, h.edged_slave, ht, Exchange.log,
            ← h.captures_slave]
          simp only [List.append_assoc]
  · intro k hk
    rcases (by omega : k = 0 ∨ k = 1 ∨ 2 ≤ k) with rfl | rfl | h2k
    · exact h.cs
    · rw [trace_succ, trace_zero, h1]
      exact h.cs
    · have := hcs (k - 2) (by omega)
      rwa [← hlast, Nat.add_sub_cancel' h2k] at this

theorem Shows.lastByte (h : Shows cnt txMem x s) (hq : i.Quiet) {d : Byte} {c : CDCSynchron} :
    (edged x s d c).io.lastByte i = true ↔ x.Last cnt := by
  have haddr : (edged x s d c).io.txAddrIdx i = x.addr := by
    rw [IOModule.txAddrIdx, hq.txWr]
    exact h.txStrAddr
  have hcnt : (edged x s d c).io.txByteCnt = cnt := h.txByteCnt
  rw [IOModule.lastByte, haddr, hcnt, decide_eq_true_iff, Exchange.Last]

/-- The cycle after the falling of `byte_sent` was seen. -/
def afterByte (x : Exchange) (s : SpiLink) (st : IOState) (d : Byte) (c : CDCSynchron) :
    SpiLink where
  io := { seenIo x s d with txStrAddr := s.io.txStrAddr + 1, state := st }
  master := { x.edge with misoSync := c }
  slave := (s.slave.clock ⟨x.clk, false, x.master.mosi⟩).clock ⟨x.clk', false, x.edge.mosi⟩

theorem Shows.clock_sent (h : Shows cnt txMem x s) {i' : IOInput} {st : IOState} {d : Byte}
    {c : CDCSynchron} (hq' : i'.Quiet) (hsent : x.sent = true) (hclk' : x.clk' = false)
    (hst : (if (edged x s d c).io.lastByte i' then IOState.ioComplete else .ioNext) = st) :
    ∃ d' c', (edged x s d c).clock i' = afterByte x s st d' c' := by
  obtain ⟨d', htick⟩ := h.edged_tick (i := i') (d := d) (c := c) fun _ => hclk'
  have hfall : (edged x s d c).io.byteSentFalling (edged x s d c).masterLines.byteSent = true :=
    h.edged_falling.trans hsent
  have hio := IOModule.clock_send_fall hq' h.edged_state hfall
  rw [htick, hst] at hio
  obtain ⟨c', h2⟩ := h.clock_edged hio (fun _ => hclk') rfl
  exact ⟨d', c', h2⟩

section AfterByte

variable {st : IOState} {d : Byte} {c : CDCSynchron} (hst : st = .ioNext ∨ st = .ioComplete)
include hst

theorem afterByte_spiSend : (afterByte x s st d c).spiSend = true := by
  rcases hst with rfl | rfl <;> rfl

theorem afterByte_spiClk : (afterByte x s st d c).spiClk = false := by
  rw [SpiLink.spiClk, afterByte_spiSend hst, SPIMaster.outSpiClk, Bool.not_true, Bool.and_false,
    Bool.false_and]

end AfterByte

theorem afterByte_rxWr {st : IOState} {d : Byte} {c : CDCSynchron} (hclk' : x.clk' = false) :
    (afterByte x s st d c).io.rxWr (afterByte x s st d c).masterLines = true := by
  change (!((x.clk' && !(afterByte x s st d c).spiClk) && x.edge.byteTxComplete)) = true
  rw [hclk']
  rfl

/-- The next byte is fetched. -/
def fetched (x : Exchange) (s : SpiLink) (d : Byte) (c : CDCSynchron) : SpiLink where
  io := { seenIo x s d with
    sysClkCnt := 2, state := .ioSend
    txStrAddr := s.io.txStrAddr + 1, rxStrAddr := s.io.rxStrAddr + 1
    txBuf := ⟨s.io.txBuf.mem, s.io.txBuf.mem (s.io.txStrAddr + 1)⟩ }
  master := { x.edge with misoSync := c }
  slave := ((s.slave.clock ⟨x.clk, false, x.master.mosi⟩).clock
    ⟨x.clk', false, x.edge.mosi⟩).clock ⟨x.clk', false, x.edge.mosi⟩

theorem clock_afterByte {d : Byte} {c : CDCSynchron} (hq : i.Quiet) (hclk' : x.clk' = false) :
    ∃ d' c', (afterByte x s .ioNext d c).clock i = fetched x s d' c' := by
  have hwr : (afterByte x s .ioNext d c).io.fetch.rxWr (afterByte x s .ioNext d c).masterLines =
      true := afterByte_rxWr hclk'
  have hclk : (afterByte x s .ioNext d c).spiClk = x.clk' := by
    rw [hclk', afterByte_spiClk (.inl rfl)]
  obtain ⟨d', hd'⟩ : ∃ d', d' =
      if !i.rxRd then (seenIo x s d).rxBuf.mem s.io.rxStrAddr else d := ⟨_, rfl⟩
  have hio : (afterByte x s .ioNext d c).io.clock i (afterByte x s .ioNext d c).masterLines =
      (fetched x s d' c).io := by
    rw [IOModule.clock_next hq rfl, IOModule.tick, hwr, hd', fetched]
    change ({ seenIo x s d with
      pByteSent := x.edge.byteTxComplete, pSpiClk := (afterByte x s .ioNext d c).spiClk
      pMastSpiClk := !x.high, sysClkCnt := 2, mastSpiClk := !x.high, state := .ioSend
      txStrAddr := s.io.txStrAddr + 1, rxStrAddr := s.io.rxStrAddr + 1
      txBuf := ⟨s.io.txBuf.mem, s.io.txBuf.mem (s.io.txStrAddr + 1)⟩
      rxBuf := ⟨(seenIo x s d).rxBuf.mem,
        if !i.rxRd then (seenIo x s d).rxBuf.mem s.io.rxStrAddr else d⟩ } : IOModule) = _
    rw [hclk]
    rfl
  have hlines : (afterByte x s .ioNext d c).slaveInput = ⟨x.clk', false, x.edge.mosi⟩ := by
    rw [SpiLink.slaveInput, hclk]
    rfl
  have hmaster := spiClkEdge_self (!x.high) ((fetched x s d' c).io.spiSend x.edge.byteTxComplete)
    (fetched x s d' c).io.txBuf.dataO
    { x.edge with misoSync := c.clock (afterByte x s .ioNext d c).slave.negedge.miso }
  refine ⟨d', c.clock (afterByte x s .ioNext d c).slave.negedge.miso, ?_⟩
  rw [clock_of_io hio, hlines]
  exact congrArg (fun m => ({ io := _, master := m, slave := _ } : SpiLink)) hmaster

theorem fetched_steady {d : Byte} {c : CDCSynchron} : (fetched x s d c).Steady := by
  refine ⟨rfl, rfl, ?_, rfl⟩
  have hsend : (fetched x s d c).spiSend = false := Bool.and_not_self x.edge.byteTxComplete
  rw [SpiLink.spiClk, hsend]
  rfl

theorem events_afterByte {d : Byte} {c : CDCSynchron} (hclk' : x.clk' = false)
    (h3 : ((afterByte x s .ioNext d c).clock i).spiClk = false) :
    (afterByte x s .ioNext d c).events i =
      (afterByte x s .ioNext d c).slave.captures ⟨x.clk', false, x.edge.mosi⟩ := by
  have hstores : (afterByte x s .ioNext d c).stores i = [] := by
    rw [stores, afterByte_rxWr hclk']
    rfl
  have hrises : (afterByte x s .ioNext d c).rises i = [] := by
    rw [rises, h3, Bool.and_false]
    rfl
  have hlines : (afterByte x s .ioNext d c).slaveInput = ⟨x.clk', false, x.edge.mosi⟩ := by
    rw [SpiLink.slaveInput, afterByte_spiClk (.inl rfl), hclk']
    rfl
  rw [events, hstores, hrises, hlines, List.append_nil, List.nil_append]

/-- The half period after which the next byte is sent. -/
theorem Shows.half_of_sent (h : Shows cnt txMem x s) (hq : ∀ j < 6, (inp j).Quiet)
    (hsent : x.sent = true) (hclk' : x.clk' = false) (hlast : ¬ x.Last cnt) :
    HalfPeriod cnt txMem x s inp := by
  obtain ⟨d, c, h1⟩ := h.clock_edge (hq 0 (by decide))
  have hst : (if (edged x s d c).io.lastByte (inp 1) then IOState.ioComplete else .ioNext) =
      .ioNext := by
    rw [if_neg]
    rw [h.lastByte (hq 1 (by decide))]
    exact hlast
  obtain ⟨d', c', h2⟩ := h.clock_sent (hq 1 (by decide)) hsent hclk' hst
  obtain ⟨d'', c'', h3⟩ :=
    clock_afterByte (x := x) (s := s) (d := d') (c := c') (hq 2 (by decide)) hclk'
  have hthree : trace clock s inp 3 = fetched x s d'' c'' := by
    rw [trace_succ, trace_succ, trace_succ, trace_zero, h1, h2, h3]
  have hhalf : x.half txMem =
      { x.half txMem with addr := x.addr + 1, txByte := txMem (x.addr + 1) } := by
    simp [Exchange.half, hsent]
  have hslave := h.trace_slave
  rw [trace_succ'] at hslave
  have hend : Shows cnt txMem (x.half txMem)
        (trace clock (fetched x s d'' c'') (fun j => inp (3 + j)) 3) ∧
      emitted clock (fetched x s d'' c'') (fun j => inp (3 + j)) events 3 =
        emitted SPISlave.clock (fetched x s d'' c'').slave (fun _ => ⟨x.clk', false, x.edge.mosi⟩)
          SPISlave.captures 3 ∧
      ∀ j ≤ 3, (trace clock (fetched x s d'' c'') (fun j => inp (3 + j)) j).io.cs = false :=
    fetched_steady.shows (n := 2) (k := 2) rfl rfl (fun j hj => hq _ (by omega)) rfl h.txByteCnt
      (by rw [hhalf, ← h.txStrAddr]; rfl) (by rw [hhalf, ← h.rxStrAddr]; rfl) h.txMem
      (by rw [hhalf, ← h.txMem, ← h.txStrAddr]; rfl) rfl rfl h.waits.half hslave
  obtain ⟨hshows, hlog, hcs⟩ := hend
  have hlast : ∀ j, trace clock s inp (3 + j) =
      trace clock (fetched x s d'' c'') (fun j => inp (3 + j)) j := by
    intro j
    rw [trace_add, hthree]
  have hclk : x.sent = true → x.clk' = false := fun _ => hclk'
  refine ⟨?_, ?_, ?_⟩
  · rw [← hlast] at hshows
    exact hshows
  · have hedge := h.events_edge hclk h1
    have hedged := h.events_edged (i := inp 1) (d := d) (c := c) hclk (by rw [h2]; rfl)
      (by rw [h2, hclk', afterByte_spiClk (.inl rfl)])
    have hafter := events_afterByte (i := inp 2) (x := x) (s := s) (d := d') (c := c') hclk'
      (by rw [h3, ← fetched_steady.pSpiClk]; exact hclk')
    have hcap := h.captures_slave
    rw [emitted_succ'] at hcap
    calc emitted clock s inp events 6
        = emitted clock s inp events 3 ++
            emitted clock (fetched x s d'' c'') (fun j => inp (3 + j)) events 3 := by
          rw [← hthree]
          exact emitted_add clock s inp events 3 3
      _ = s.events (inp 0) ++ (edged x s d c).events (inp 1) ++
          (afterByte x s .ioNext d' c').events (inp 2) ++
          emitted SPISlave.clock (fetched x s d'' c'').slave (fun _ => ⟨x.clk', false, x.edge.mosi⟩)
            SPISlave.captures 3 := by
          rw [hlog, ← h2, ← h1]
          rfl
      _ = x.log := by
          rw [hedge, hedged, hafter, h.edged_slaveInput hclk, h.edged_slave, Exchange.log, ← hcap]
          simp only [List.append_assoc]
          rfl
  · intro k hk
    rcases (by omega : k = 0 ∨ k = 1 ∨ k = 2 ∨ 3 ≤ k) with rfl | rfl | rfl | h3k
    · exact h.cs
    · rw [trace_succ, trace_zero, h1]
      exact h.cs
    · rw [trace_succ, trace_succ, trace_zero, h1, h2]
      rfl
    · have := hcs (k - 3) (by omega)
      rwa [← hlast, Nat.add_sub_cancel' h3k] at this

end SpiLink

end RangerRisc
