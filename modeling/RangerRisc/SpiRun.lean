import RangerRisc.SpiFrame

/-! Whole runs of the SPI link: between the transfers the link rests, a transfer opens with
the next rising edge of the divided clock and closes after its last byte. -/

namespace RangerRisc

open Clocked ShiftRegister

namespace IOModule

variable {m : IOModule} {i : IOInput} {l : MasterLines}

/-- What the state machine does not decide. -/
theorem clock_divider : (m.clock i l).pByteSent = l.byteSent ∧ (m.clock i l).pSpiClk = l.spiClk ∧
    (m.clock i l).pMastSpiClk = m.mastSpiClk ∧
    (m.clock i l).sysClkCnt = (if m.sysClkCnt = 5 then 0 else m.sysClkCnt + 1) ∧
    (m.clock i l).mastSpiClk = (if m.sysClkCnt = 5 then !m.mastSpiClk else m.mastSpiClk) := by
  obtain ⟨state, _, _, _, _, _, _, _, _, pByteSent, _⟩ := m
  obtain ⟨byteSent, _⟩ := l
  cases state with
  | ioSend => cases pByteSent <;> cases byteSent <;> exact ⟨rfl, rfl, rfl, rfl, rfl⟩
  | _ => exact ⟨rfl, rfl, rfl, rfl, rfl⟩

theorem clock_state :
    (m.clock i l).state = if !i.reset then .ioReset else m.nextState i l.byteSent := by
  obtain ⟨state, _, _, _, _, _, _, _, _, pByteSent, _⟩ := m
  obtain ⟨byteSent, _⟩ := l
  cases state with
  | ioSend => cases pByteSent <;> cases byteSent <;> rfl
  | _ => rfl

/-- Whatever starts a transfer starts it in the idle state. -/
theorem clock_cs (hcs : m.cs = true) (hcs' : (m.clock i l).cs = false) :
    m.state = .ioIdle ∧ i.send = false ∧ i.reset = true := by
  have hstate := clock_state (m := m) (i := i) (l := l)
  cases hreset : i.reset with
  | false =>
    rw [hreset] at hstate
    rw [cs, hstate] at hcs'
    cases hcs'
  | true =>
    rw [hreset] at hstate
    rw [cs, hstate] at hcs'
    obtain ⟨state, _⟩ := m
    cases state with
    | ioIdle =>
      cases hsend : i.send with
      | false => exact ⟨rfl, rfl, rfl⟩
      | true =>
        simp only [nextState, hsend] at hcs'
        cases hcs'
    | ioBoot =>
      simp only [nextState, hreset] at hcs'
      cases hcs'
    | ioReset => cases hcs'
    | ioComplete => cases hcs'
    | ioBegin => cases hcs
    | ioSend => cases hcs
    | ioNext => cases hcs

end IOModule

namespace SpiLink

variable {s : SpiLink} {i : IOInput} {inp : ℕ → IOInput} {x : Exchange} {cnt : BitVec 4}
  {txMem : BitVec 4 → Byte}

/-! ## The divider -/

/-- The counter of the divided clock has not left its range, and the clock changes only where
the counter starts again. -/
def Divides (m : IOModule) : Prop :=
  ∃ n ≤ 5, m.sysClkCnt = BitVec.ofNat 4 n ∧ (n = 0 ∨ m.pMastSpiClk = m.mastSpiClk)

theorem Divides.clock {m : IOModule} {l : MasterLines} (h : Divides m) :
    Divides (m.clock i l) := by
  obtain ⟨-, -, hpmast, hcnt, hmast⟩ := IOModule.clock_divider (m := m) (i := i) (l := l)
  obtain ⟨n, hn, hcount, -⟩ := h
  unfold Divides
  rw [hcnt, hpmast, hmast, hcount]
  rcases Nat.lt_or_eq_of_le hn with hlt | rfl
  · refine ⟨n + 1, hlt, ?_, .inr ?_⟩
    · rw [if_neg (ofNat_ne_five hlt)]
      exact (BitVec.ofNat_add n 1).symm
    · rw [if_neg (ofNat_ne_five hlt)]
  · exact ⟨0, Nat.zero_le 5, rfl, .inl rfl⟩

/-- Where the clock has just risen the counter has just started again. -/
theorem Divides.of_rising {m : IOModule} (h : Divides m) (hrise : m.mastSpiClkRising = true) :
    m.mastSpiClk = true ∧ m.sysClkCnt = 0 := by
  have hmast : m.mastSpiClk = true ∧ m.pMastSpiClk = false := by
    unfold IOModule.mastSpiClkRising at hrise
    cases hp : m.pMastSpiClk <;> cases hm : m.mastSpiClk <;> simp [hp, hm] at hrise ⊢
  refine ⟨hmast.1, ?_⟩
  obtain ⟨n, -, hcnt, rfl | hpast⟩ := h
  · exact hcnt
  · rw [hmast.1, hmast.2] at hpast
    cases hpast

/-! ## Calm cycles -/

/-- No byte is under way, and the divider is in step with its own past. -/
structure Calm (s : SpiLink) : Prop where
  pByteSent : s.io.pByteSent = false
  pSpiClk : s.io.pSpiClk = false
  state : s.master.state = .msIdle
  byteTxComplete : s.master.byteTxComplete = false
  divider : ∃ n ≤ 5, s.io.sysClkCnt = BitVec.ofNat 4 n ∧
    (n = 0 ∨ s.io.pMastSpiClk = s.io.mastSpiClk)

theorem Calm.spiClk (h : s.Calm) : s.spiClk = false := by
  rw [SpiLink.spiClk, SPIMaster.outSpiClk, h.state]
  rfl

theorem Calm.rxWr (h : s.Calm) : s.io.rxWr s.masterLines = true := by
  have hbyte : s.masterLines.byteSent = false := h.byteTxComplete
  rw [IOModule.rxWr, hbyte, Bool.and_false]
  rfl

theorem clock_master (s : SpiLink) (i : IOInput) : (s.clock i).master =
    spiClkEdge s.io.mastSpiClk (s.clock i).io.mastSpiClk
      ((s.clock i).io.spiSend s.master.byteTxComplete) (s.clock i).io.txBuf.dataO
      { s.master with misoSync := s.master.misoSync.clock s.slave.negedge.miso } := rfl

/-- An idle master that is not enabled at an edge stays idle, and its line as it is. -/
theorem spiClkEdge_idle {c c' e : Bool} {b : Byte} {m : SPIMaster} (hs : m.state = .msIdle)
    (he : e = true ∨ c' = c) :
    (spiClkEdge c c' e b m).state = .msIdle ∧
      (spiClkEdge c c' e b m).byteTxComplete = m.byteTxComplete ∧
      (spiClkEdge c c' e b m).mosi = m.mosi := by
  rcases he with rfl | rfl
  · obtain ⟨state, _⟩ := m
    subst hs
    cases c <;> cases c' <;> exact ⟨rfl, rfl, rfl⟩
  · rw [spiClkEdge_self]
    exact ⟨hs, rfl, rfl⟩

theorem Calm.clock (h : s.Calm) (hsend : (s.clock i).io.spiSend false = true ∨
    (s.clock i).io.mastSpiClk = s.io.mastSpiClk) :
    (s.clock i).Calm ∧ (s.clock i).master.mosi = s.master.mosi := by
  have hio : (s.clock i).io = s.io.clock i s.masterLines := rfl
  obtain ⟨hsent, hclk, -⟩ := IOModule.clock_divider (m := s.io) (i := i) (l := s.masterLines)
  obtain ⟨hstate, hbyte, hmosi⟩ := spiClkEdge_idle (c := s.io.mastSpiClk)
    (b := (s.clock i).io.txBuf.dataO)
    (m := { s.master with misoSync := s.master.misoSync.clock s.slave.negedge.miso }) h.state hsend
  rw [← h.byteTxComplete, ← clock_master] at hstate hbyte hmosi
  refine ⟨⟨?_, ?_, hstate, hbyte.trans h.byteTxComplete, ?_⟩, hmosi⟩
  · rw [hio, hsent]
    exact h.byteTxComplete
  · rw [hio, hclk]
    exact h.spiClk
  · exact Divides.clock h.divider

/-- A calm cycle after which the clock is low shows nothing but what the slave captures. -/
theorem Calm.events (h : s.Calm) (hclk : (s.clock i).spiClk = false) :
    s.events i = s.slave.captures s.slaveInput := by
  have hstores : s.stores i = [] := by
    rw [stores, h.rxWr]
    rfl
  have hrises : s.rises i = [] := by
    rw [rises, hclk, Bool.and_false]
    rfl
  rw [SpiLink.events, hstores, hrises, List.append_nil, List.nil_append]

/-! ## Between the transfers -/

/-- The select line is high and all is at rest. -/
structure Resting (s : SpiLink) : Prop where
  cs : s.io.cs = true
  calm : s.Calm
  slave : s.slave.Resting

theorem spiSend_of_ne (h : s.io.state ≠ .ioSend) (b : Bool) : s.io.spiSend b = true := by
  unfold IOModule.spiSend
  split
  · contradiction
  · rfl

/-- One cycle of a resting link, whether a transfer starts or not. -/
theorem Resting.clock (h : s.Resting) :
    (s.clock i).Calm ∧ (s.clock i).slave.Resting ∧ (s.clock i).slave.ssSync.bit0 = true ∧
      s.events i = [] := by
  have hstate : (s.clock i).io.state ≠ .ioSend := by
    have hnext : (s.clock i).io.state =
        if !i.reset then .ioReset else s.io.nextState i s.masterLines.byteSent :=
      IOModule.clock_state
    have hcs := h.cs
    rw [hnext]
    unfold IOModule.nextState
    unfold IOModule.cs at hcs
    split
    · decide
    · split at hcs
      · cases hcs
      · cases hcs
      · cases hcs
      · split <;> first | contradiction | (split <;> decide) | decide
  have hcalm := (h.calm.clock (i := i) (.inl (spiSend_of_ne hstate false))).1
  have hlines : s.slaveInput = ⟨false, true, s.master.mosi⟩ := by
    rw [slaveInput, h.calm.spiClk, h.cs]
  have hslave : (s.clock i).slave = s.slave.clock ⟨false, true, s.master.mosi⟩ := by
    rw [← hlines]
    rfl
  refine ⟨hcalm, ?_, ?_, ?_⟩
  · rw [hslave]
    exact h.slave.clock rfl rfl
  · rw [hslave, h.slave.clock_eq]
    rfl
  · rw [h.calm.events hcalm.spiClk]
    exact h.slave.captures

/-! ## The opening of a transfer -/

/-- A transfer has been asked for, and `n` cycles ago the slave was `slave₀`. -/
structure Selecting (cnt : BitVec 4) (txMem : BitVec 4 → Byte) (mosi : Bool) (slave₀ : SPISlave)
    (n : ℕ) (s : SpiLink) : Prop where
  state : s.io.state = .ioBegin
  calm : s.Calm
  txByteCnt : s.io.txByteCnt = cnt
  txStrAddr : s.io.txStrAddr = 0
  rxStrAddr : s.io.rxStrAddr = 0
  txMem : s.io.txBuf.mem = txMem
  line : s.master.mosi = mosi
  slave : s.slave = trace SPISlave.clock slave₀ (fun _ => ⟨false, false, mosi⟩) n

/-- The cycles until the divided clock rises. -/
def untilRise (s : SpiLink) : ℕ :=
  if s.io.mastSpiClkRising then 0
  else (if s.io.mastSpiClk then 12 else 6) - s.io.sysClkCnt.toNat

theorem untilRise_clock (hd : ∃ n ≤ 5, s.io.sysClkCnt = BitVec.ofNat 4 n ∧
      (n = 0 ∨ s.io.pMastSpiClk = s.io.mastSpiClk)) (hrise : s.io.mastSpiClkRising = false)
    (hio : (s.clock i).io = s.io.tick i s.masterLines) : untilRise (s.clock i) < untilRise s := by
  obtain ⟨k, hk, hcnt, hpast⟩ := hd
  unfold untilRise
  rw [hrise, hio]
  unfold IOModule.mastSpiClkRising at hrise ⊢
  simp only [IOModule.tick, hcnt]
  cases hm : s.io.mastSpiClk <;> interval_cases k <;> decide

section Selecting

variable {mosi : Bool} {slave₀ : SPISlave} {n : ℕ} (h : Selecting cnt txMem mosi slave₀ n s)
include h

theorem Selecting.slaveInput : s.slaveInput = ⟨false, false, mosi⟩ := by
  rw [SpiLink.slaveInput, h.calm.spiClk, IOModule.cs, h.state, h.line]

theorem Selecting.clock_slave : (s.clock i).slave =
    trace SPISlave.clock slave₀ (fun _ => ⟨false, false, mosi⟩) (n + 1) := by
  rw [trace_succ, ← h.slave, ← h.slaveInput]
  rfl

theorem Selecting.silent (hrest : slave₀.Resting) (hclk : (s.clock i).spiClk = false) :
    s.events i = [] := by
  rw [h.calm.events hclk, SPISlave.captures_eq_nil]
  rw [h.slave, SPISlave.trace_sclkSync hrest.sclkSync]
  rfl

/-- A cycle without the rising edge. -/
theorem Selecting.wait (hrest : slave₀.Resting) (hq : i.Quiet)
    (hrise : s.io.mastSpiClkRising = false) :
    Selecting cnt txMem mosi slave₀ (n + 1) (s.clock i) ∧ s.events i = [] ∧
      untilRise (s.clock i) < untilRise s := by
  have hio : (s.clock i).io = s.io.tick i s.masterLines :=
    IOModule.clock_begin_wait hq h.state hrise
  have hstate : (s.clock i).io.state = .ioBegin := by rw [hio]; exact h.state
  obtain ⟨hcalm, hmosi⟩ := h.calm.clock (i := i)
    (.inl (spiSend_of_ne (by rw [hstate]; decide) false))
  refine ⟨⟨hstate, hcalm, by rw [hio]; exact h.txByteCnt, by rw [hio]; exact h.txStrAddr,
    by rw [hio]; exact h.rxStrAddr, by rw [hio]; exact h.txMem, hmosi.trans h.line,
    h.clock_slave⟩, h.silent hrest hcalm.spiClk, untilRise_clock h.calm.divider hrise hio⟩

/-- The cycle in which the divided clock rises: the first byte is fetched. -/
theorem Selecting.clock_rise (hq : i.Quiet) (hrise : s.io.mastSpiClkRising = true) :
    (s.clock i).Steady ∧ (s.clock i).Calm ∧
      (s.clock i).io.sysClkCnt = BitVec.ofNat 4 1 ∧ (s.clock i).io.mastSpiClk = true ∧
      (s.clock i).io.txByteCnt = cnt ∧ (s.clock i).io.txStrAddr = 0 ∧
      (s.clock i).io.rxStrAddr = 0 ∧ (s.clock i).io.txBuf = ⟨txMem, txMem 0⟩ ∧
      (s.clock i).io.rxBuf.mem = s.io.rxBuf.mem ∧ (s.clock i).master.mosi = mosi := by
  have hio : (s.clock i).io = { s.io.fetch.tick i s.masterLines with state := .ioSend } :=
    IOModule.clock_begin_rise hq h.state hrise
  obtain ⟨hmast, hzero⟩ := Divides.of_rising h.calm.divider hrise
  have hsysClk : (s.clock i).io.mastSpiClk = s.io.mastSpiClk := by
    have hne : s.io.sysClkCnt ≠ 5 := by rw [hzero]; decide
    rw [hio]
    exact if_neg hne
  obtain ⟨hcalm, hmosi⟩ := h.calm.clock (i := i) (.inr hsysClk)
  refine ⟨⟨by rw [hio], hcalm.pByteSent.trans hcalm.byteTxComplete.symm,
    hcalm.pSpiClk.trans hcalm.spiClk.symm, ?_⟩, hcalm, ?_, hsysClk.trans hmast, ?_, ?_, ?_, ?_,
    ?_, hmosi.trans h.line⟩
  · rw [hsysClk, hio]
    rfl
  · rw [hio]
    change (if s.io.sysClkCnt = 5 then 0 else s.io.sysClkCnt + 1) = BitVec.ofNat 4 1
    rw [hzero]
    rfl
  · rw [hio]
    exact h.txByteCnt
  · rw [hio]
    exact h.txStrAddr
  · rw [hio]
    exact h.rxStrAddr
  · rw [hio]
    change ({ mem := s.io.txBuf.mem, dataO := s.io.txBuf.mem s.io.txStrAddr } : Memory) = _
    rw [h.txMem, h.txStrAddr]
  · rw [hio]
    change (if !s.io.rxWr s.masterLines then _ else s.io.rxBuf.mem) = s.io.rxBuf.mem
    rw [h.calm.rxWr]
    rfl

/-- Four cycles later the link shows the exchange of the first byte. -/
theorem Selecting.rise (hrest : slave₀.Resting) (hcs : slave₀.ssSync.bit0 = true)
    (hrise : s.io.mastSpiClkRising = true) (hq : ∀ k, (inp k).Quiet) :
    ∃ x, Exchange.Next txMem x 0 x ∧ Shows cnt txMem x (trace SpiLink.clock s inp 5) ∧
      emitted SpiLink.clock s inp SpiLink.events 5 = [] ∧
      ∀ j ≤ 5, (trace SpiLink.clock s inp j).io.cs = false := by
  obtain ⟨hsteady, hcalm, hcnt, hmast, hbytes, htx, hrx, hbuf, hmem, hmosi⟩ :=
    h.clock_rise (hq 0) hrise
  have hslave := h.clock_slave (i := inp 0)
  obtain ⟨t, ht⟩ : ∃ t, t = s.clock (inp 0) := ⟨_, rfl⟩
  rw [← ht] at hsteady hcalm hcnt hmast hbytes htx hrx hbuf hmem hmosi hslave
  obtain ⟨x, hx⟩ : ∃ x : Exchange, x = {
      high := true, addr := 0, txByte := txMem 0, rxMem := s.io.rxBuf.mem
      master := t.master, slave := slave₀.selected } := ⟨_, rfl⟩
  have hclk : x.clk = false := by
    rw [hx, Exchange.clk, SPIMaster.outSpiClk, hcalm.state]
    rfl
  have hline : x.master.mosi = mosi := by rw [hx]; exact hmosi
  have hend : Shows cnt txMem x (trace SpiLink.clock t (fun k => inp (k + 1)) 4) ∧
      emitted SpiLink.clock t (fun k => inp (k + 1)) SpiLink.events 4 =
        emitted SPISlave.clock t.slave (fun _ => ⟨x.clk, false, x.master.mosi⟩)
          SPISlave.captures 4 ∧
      ∀ j ≤ 4, (trace SpiLink.clock t (fun k => inp (k + 1)) j).io.cs = false :=
    hsteady.shows (n := 1) (k := 3) hcnt rfl (fun j _ => hq (j + 1)) (by rw [hmast, hx]) hbytes
      (by rw [htx, hx]) (by rw [hrx, hx]) (by rw [hbuf]) (by rw [hbuf, hx]) (by rw [hmem, hx])
      (by rw [hx]) (by rw [hx]; exact ⟨.inl hrest.state, SPISlave.response_clearBuf _⟩)
      (by
        rw [hclk, hline, hslave, hx, ← SPISlave.trace_select hrest hcs (n + 2)]
        exact (trace_add SPISlave.clock slave₀ _ (n + 1) 4).symm)
  obtain ⟨hshows, hlog, hlow⟩ := hend
  refine ⟨x, ?_, ?_, ?_, ?_⟩
  · rw [hx]
    exact ⟨⟨rfl, hcalm.state, hcalm.byteTxComplete, hrest.state, rfl⟩, rfl, rfl, rfl,
      fun k hk => absurd hk (Nat.not_lt_zero k)⟩
  · rw [trace_succ', ← ht]
    exact hshows
  · have hsync : t.slave.sclkSync = ⟨false, false, false⟩ := by
      rw [hslave]
      exact SPISlave.trace_sclkSync hrest.sclkSync (n + 1)
    rw [emitted_succ', ← ht, hlog, hclk, h.silent hrest (by rw [← ht]; exact hcalm.spiClk),
      SPISlave.emitted_captures_select hsync]
    rfl
  · intro j hj
    rcases Nat.eq_zero_or_pos j with rfl | hpos
    · rw [trace_zero, IOModule.cs, h.state]
    · obtain ⟨k, rfl⟩ := Nat.exists_eq_add_of_lt hpos
      rw [Nat.zero_add, trace_succ', ← ht]
      exact hlow k (by omega)

end Selecting

/-- The opening: at some cycle the link shows the exchange of the first byte, and until then
nothing. The induction is on the cycles until the divided clock rises. -/
theorem Selecting.opens {mosi : Bool} {slave₀ : SPISlave} {n : ℕ}
    (h : Selecting cnt txMem mosi slave₀ n s) (hrest : slave₀.Resting)
    (hcs : slave₀.ssSync.bit0 = true) (hq : ∀ k, (inp k).Quiet) :
    ∃ x k, Exchange.Next txMem x 0 x ∧ Shows cnt txMem x (trace clock s inp k) ∧
      emitted clock s inp events k = [] ∧ ∀ j ≤ k, (trace clock s inp j).io.cs = false := by
  obtain ⟨w, hw⟩ : ∃ w, w = untilRise s := ⟨_, rfl⟩
  induction w using Nat.strongRecOn generalizing s n inp with
  | _ w ih =>
    cases hrise : s.io.mastSpiClkRising with
    | true =>
      obtain ⟨x, hx⟩ := h.rise hrest hcs hrise hq
      exact ⟨x, 5, hx⟩
    | false =>
      obtain ⟨hnext, hlog, hlt⟩ := h.wait hrest (hq 0) hrise
      obtain ⟨x, k, hx, hshows, hlog', hlow⟩ :=
        ih _ (hw ▸ hlt) hnext (fun k => hq (k + 1)) rfl
      refine ⟨x, k + 1, hx, ?_, ?_, ?_⟩
      · rw [trace_succ']
        exact hshows
      · rw [emitted_succ', hlog, hlog']
        rfl
      · intro j hj
        rcases Nat.eq_zero_or_pos j with rfl | hpos
        · rw [trace_zero, IOModule.cs, h.state]
        · obtain ⟨k', rfl⟩ := Nat.exists_eq_add_of_lt hpos
          rw [Nat.zero_add, trace_succ']
          exact hlow k' (by omega)

/-! ## A whole transfer -/

/-- The half periods of an exchange in which bytes go on or give way to the next one. -/
theorem Shows.run (h : Shows cnt txMem x s) (hq : ∀ k, (inp k).Quiet) {n : ℕ}
    (hgo : ∀ m < n, (x.run txMem m).sent = true →
      (x.run txMem m).clk' = false ∧ ¬ (x.run txMem m).Last cnt) :
    Shows cnt txMem (x.run txMem n) (trace clock s inp (6 * n)) ∧
      emitted clock s inp events (6 * n) = x.shown txMem n ∧
      ∀ j ≤ 6 * n, (trace clock s inp j).io.cs = false := by
  induction n with
  | zero =>
    refine ⟨h, rfl, fun j hj => ?_⟩
    obtain rfl : j = 0 := by omega
    exact h.cs
  | succ n ih =>
    obtain ⟨hshows, hlog, hlow⟩ := ih fun m hm => hgo m (Nat.lt_succ_of_lt hm)
    have hquiet : ∀ j < 6, (inp (6 * n + j)).Quiet := fun j _ => hq _
    have hhalf : HalfPeriod cnt txMem (x.run txMem n) (trace clock s inp (6 * n))
        (fun j => inp (6 * n + j)) := by
      cases hsent : (x.run txMem n).sent with
      | false => exact hshows.half_of_not_sent hquiet hsent
      | true =>
        obtain ⟨hclk, hlast⟩ := hgo n (Nat.lt_succ_self n) hsent
        exact hshows.half_of_sent hquiet hsent hclk hlast
    rw [Nat.mul_succ, trace_add, emitted_add, hlog, hhalf.log]
    refine ⟨hhalf.shows, rfl, fun j hj => ?_⟩
    rcases Nat.lt_or_ge (6 * n) j with hlt | hle
    · obtain ⟨k, rfl⟩ := Nat.exists_eq_add_of_lt hlt
      rw [Nat.add_assoc, trace_add]
      exact hhalf.cs (k + 1) (by omega)
    · exact hlow j hle

/-- The last byte has gone: the select line rises two cycles later. -/
theorem Shows.closes {x₀ : Exchange} (h : Shows cnt txMem x s) (hdone : x₀.Done x)
    (hlast : x.Last cnt) (hq : ∀ k, (inp k).Quiet) :
    (trace clock s inp 2).Resting ∧ (trace clock s inp 2).io.state = .ioComplete ∧
      (trace clock s inp 2).io.rxBuf.mem = x.rxMem ∧ emitted clock s inp events 2 = [] ∧
      ∀ j < 2, (trace clock s inp j).io.cs = false := by
  obtain ⟨hsent, hclk', -⟩ := hdone.next txMem
  have hclk : x.clk = false := by rw [Exchange.clk, SPIMaster.outSpiClk, hdone.high, Bool.and_false]
  have hstored : x.stored = false := by rw [Exchange.stored, hclk]; rfl
  have hedge : x.edge.state = .msIdle ∧ x.edge.byteTxComplete = false := by
    rw [Exchange.edge, hdone.high]
    simp [SPIMaster.posSpiClk, hdone.state]
  obtain ⟨d, c, h1⟩ := h.clock_edge (hq 0)
  have hst : (if (edged x s d c).io.lastByte (inp 1) then IOState.ioComplete else .ioNext) =
      .ioComplete := if_pos ((h.lastByte (hq 1)).mpr hlast)
  obtain ⟨d', c', h2⟩ := h.clock_sent (hq 1) hsent hclk' hst
  have htwo : trace clock s inp 2 = afterByte x s .ioComplete d' c' := by
    rw [trace_succ, trace_succ, trace_zero, h1, h2]
  have hlined : s.slave = x.slave.lined ⟨false, false, false⟩
      ⟨x.master.mosi, x.master.mosi, x.master.mosi⟩ := by
    rw [h.slave, hclk]
  have hfirst : s.slave.clock ⟨x.clk, false, x.master.mosi⟩ = s.slave := by
    rw [hclk, hlined]
    exact SPISlave.clock_lined rfl h.waits rfl rfl
  have hcapture : ∀ i, s.slave.captures i = [] := by
    intro i
    apply SPISlave.captures_eq_nil
    rw [hlined]
    rfl
  rw [htwo]
  refine ⟨⟨rfl, ⟨hedge.2, hclk', hedge.1, hedge.2, 1, by decide, rfl, .inr rfl⟩, ?_⟩, rfl, ?_, ?_,
    ?_⟩
  · have hslave : (afterByte x s .ioComplete d' c').slave = x.slave.lined ⟨false, false, false⟩
        ⟨x.edge.mosi, x.master.mosi, x.master.mosi⟩ := by
      rw [afterByte, hfirst, hclk', hlined]
      exact SPISlave.clock_lined rfl h.waits rfl rfl
    rw [hslave]
    exact ⟨hdone.slave, h.waits.response, rfl, fun hb => hb, fun hb => hb⟩
  · exact if_neg (by rw [hstored]; decide)
  · have hgate : x.sent = true → x.clk' = false := fun _ => hclk'
    rw [emitted_succ, emitted_succ, trace_succ, trace_zero, h.events_edge hgate h1, h1,
      h.events_edged hgate (by rw [h2]; rfl) (by rw [h2, hclk', afterByte_spiClk (.inr rfl)]),
      h.edged_slave, hfirst, hcapture, hstored, hclk']
    rw [Bool.and_false]
    rfl
  · intro j hj
    rcases (by omega : j = 0 ∨ j = 1) with rfl | rfl
    · exact h.cs
    · rw [trace_succ, trace_zero, h1]
      exact h.cs

theorem last_iff {n i : ℕ} (hn : n < 15) (hi : i ≤ n) (haddr : x.addr = BitVec.ofNat 4 i) :
    x.Last (BitVec.ofNat 4 (n + 1)) ↔ i = n := by
  rw [Exchange.Last, haddr]
  interval_cases n <;> interval_cases i <;> decide

/-- In the exchange of `n + 1` bytes only the last one is not followed by another. -/
theorem goes_on {n : ℕ} (hn : n < 15) (h : Exchange.Next txMem x 0 x) {m : ℕ}
    (hm : m < 20 * n + 19) (hsent : (x.run txMem m).sent = true) :
    (x.run txMem m).clk' = false ∧ ¬ (x.run txMem m).Last (BitVec.ofNat 4 (n + 1)) := by
  obtain ⟨i, r, hr, rfl⟩ : ∃ i r, r < 20 ∧ m = 20 * i + r :=
    ⟨m / 20, m % 20, Nat.mod_lt _ (by decide), (Nat.div_add_mod m 20).symm⟩
  have hnext := (h.bytes (n := n) (by omega)).1 i (by omega)
  obtain ⟨hdone, hsends, -⟩ := hnext.done (by omega)
  rcases Nat.lt_or_ge r 19 with hlt | hge
  · rw [Exchange.run_add, hsends.sent r hlt] at hsent
    cases hsent
  · obtain rfl : r = 19 := by omega
    refine ⟨(hdone.next txMem).2.1, ?_⟩
    rw [last_iff (i := i) hn (by omega) (hdone.addr.trans hnext.addr)]
    omega

/-- **A transfer** of the first `n + 1` bytes of `tx_buf`, from the request on. -/
theorem Selecting.transfer {mosi : Bool} {slave₀ : SPISlave} {k n : ℕ}
    (h : Selecting (BitVec.ofNat 4 (n + 1)) txMem mosi slave₀ k s) (hrest : slave₀.Resting)
    (hcs : slave₀.ssSync.bit0 = true) (hn : n < 15) (hq : ∀ k, (inp k).Quiet) :
    ∃ len q, FirstReturn clock (fun t => t.io.cs = true) s inp len ∧
      (trace clock s inp len).Resting ∧ (trace clock s inp len).io.state = .ioComplete ∧
      emitted clock s inp events len = Exchange.bytesLog txMem q (n + 1) ∧
      ∀ i ≤ n, (trace clock s inp len).io.rxBuf.mem (BitVec.ofNat 4 i) = q i := by
  obtain ⟨x, w, hx, hshows, hopen, hlow⟩ := h.opens hrest hcs hq
  obtain ⟨hnext, hbytes⟩ := hx.bytes (n := n) (by omega)
  obtain ⟨hdone, -, hmem⟩ := (hnext n (Nat.le_refl n)).done (by omega)
  have haddr := hdone.addr.trans (hnext n (Nat.le_refl n)).addr
  obtain ⟨inp', hinp'⟩ : ∃ inp' : ℕ → IOInput, inp' = fun k => inp (w + k) := ⟨_, rfl⟩
  have hq' : ∀ k, (inp' k).Quiet := fun k => by rw [hinp']; exact hq _
  obtain ⟨hrun, hlog, hlow'⟩ := hshows.run hq' (n := 20 * n + 19) fun m hm => goes_on hn hx hm
  obtain ⟨hrests, hcomplete, hrx, hlog', hlow''⟩ := hrun.closes hdone
    ((last_iff hn (Nat.le_refl n) haddr).mpr rfl) fun k => hq' (6 * (20 * n + 19) + k)
  have htrace : ∀ j, trace clock s inp (w + j) = trace clock (trace clock s inp w) inp' j := by
    intro j
    rw [trace_add, hinp']
  rw [← trace_add, ← htrace] at hrests hcomplete hrx
  refine ⟨w + (6 * (20 * n + 19) + 2), x.answer txMem, ⟨by omega, hrests.cs, ?_⟩, hrests,
    hcomplete, ?_, ?_⟩
  · intro j _ hj hcs
    have hlow : (trace clock s inp j).io.cs = false := by
      rcases Nat.lt_or_ge j w with hjw | hwj
      · exact hlow j (Nat.le_of_lt hjw)
      · obtain ⟨m, rfl⟩ := Nat.exists_eq_add_of_le hwj
        rw [htrace]
        rcases Nat.lt_or_ge m (6 * (20 * n + 19)) with hm | hm
        · exact hlow' m (Nat.le_of_lt hm)
        · obtain ⟨m', rfl⟩ := Nat.exists_eq_add_of_le hm
          rw [trace_add]
          exact hlow'' m' (by omega)
    exact absurd (hlow.symm.trans hcs) (by decide)
  · rw [emitted_add, hopen, ← hinp', emitted_add, hlog, hlog', hbytes, List.append_nil]
    rfl
  · intro i hi
    rw [hrx]
    exact hmem i (by omega)

end SpiLink

end RangerRisc
