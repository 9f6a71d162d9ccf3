import RangerRisc.Spi

/-! The slave of the SPI link: one equation for each kind of cycle, and from them what it does
over a half period of the SPI clock, six cycles, and when it is selected. -/

namespace RangerRisc

open Clocked ShiftRegister

namespace SPISlave

variable {s : SPISlave} {i : SlaveInput} {clk clk' m m' : Bool}

/-- The response to what is in `rx_buf`. -/
def response (rxBuf : BitVec 2 → Byte) : Option Byte :=
  if rxBuf 0 = 0x41 then
    if rxBuf 1 = 0x0A then some ioConResponse
    else if rxBuf 1 = 0x0F then some ioDirResponse
    else if rxBuf 1 = 0x00 then some ioIpoResponse
    else none
  else none

@[simp] theorem response_clearBuf (rxBuf : BitVec 2 → Byte) : response (clearBuf rxBuf) = none := by
  simp [response, clearBuf, Function.update]

theorem patterns_of_response (h : response s.rxBuf = none) :
    s.pattern1 = false ∧ s.pattern2 = false ∧ s.pattern3 = false := by
  unfold response at h
  unfold pattern1 pattern2 pattern3
  grind

/-- No two patterns match at once, so the response is the one of the pattern that does. -/
theorem patterns_of_some {r : Byte} (h : response s.rxBuf = some r) :
    (s.pattern1 = true ∧ s.pattern2 = false ∧ s.pattern3 = false ∧ r = ioConResponse) ∨
      (s.pattern1 = false ∧ s.pattern2 = true ∧ s.pattern3 = false ∧ r = ioDirResponse) ∨
      (s.pattern1 = false ∧ s.pattern2 = false ∧ s.pattern3 = true ∧ r = ioIpoResponse) := by
  unfold response at h
  unfold pattern1 pattern2 pattern3
  split at h
  · rename_i h0
    rw [h0]
    split at h
    · rename_i h1
      rw [h1]
      exact .inl ⟨rfl, rfl, rfl, (Option.some.inj h).symm⟩
    · split at h
      · rename_i h1
        rw [h1]
        exact .inr (.inl ⟨rfl, rfl, rfl, (Option.some.inj h).symm⟩)
      · split at h
        · rename_i h1
          rw [h1]
          exact .inr (.inr ⟨rfl, rfl, rfl, (Option.some.inj h).symm⟩)
        · cases h
  · cases h

/-- Between two edges of the SPI clock, with no response to load. -/
structure Waits (s : SPISlave) : Prop where
  state : s.state = .slIdle ∨ s.state = .slTransmit
  response : response s.rxBuf = none

/-- The rising edge of the SPI clock. -/
def onRise (mosi : Bool) (s : SPISlave) : SPISlave :=
  { s with
    rxByte := shiftIn s.rxByte mosi
    state := if s.state = .slTransmit ∧ s.bitCnt = 0 then .slIdle else .slTransmit
    bitCnt := if s.state = .slTransmit ∧ s.bitCnt ≠ 0 then s.bitCnt - 1 else s.bitCnt }

def captured (s : SPISlave) : BitVec 2 → Byte := Function.update s.rxBuf s.bufCnt s.rxByte

/-- The falling edge of the SPI clock: within a byte, and after it. -/
def onFall (s : SPISlave) : SPISlave :=
  if s.state = .slTransmit then { s with shiftData := s.shiftData <<< 1 }
  else
    { s with
      rxByte := 0, bitCnt := 6, bufCnt := if s.bufCnt = 2 then 0 else s.bufCnt + 1
      rxBuf := if (response s.captured).isSome then clearBuf s.captured else s.captured
      shiftData := (response s.captured).getD s.shiftData }

section Edges

variable (hss : s.ssSync.fallingO = false)
include hss

theorem posedge_still (h : s.Waits) (hrise : s.sclkSync.risingO = false)
    (hfall : s.sclkSync.fallingO = false) : s.posedge i = s.sampled i := by
  obtain ⟨h1, h2, h3⟩ := patterns_of_response h.response
  rcases h.state with hs | hs <;>
    simp [posedge, ssFalling, sclkFalling, shifted, sclkRising, respond, loaded, capture,
      restart, sampled, finalFall, startEnd, hss, hrise, hfall, h1, h2, h3, hs]

theorem posedge_rise (h : s.Waits) (hrise : s.sclkSync.risingO = true)
    (hfall : s.sclkSync.fallingO = false) :
    s.posedge i = (s.onRise s.mosiSync.syncO).sampled i := by
  obtain ⟨h1, h2, h3⟩ := patterns_of_response h.response
  rcases h.state with hs | hs
  · simp [posedge, ssFalling, sclkFalling, shifted, sclkRising, respond, loaded, capture,
      restart, sampled, onRise, finalFall, startEnd, hss, hrise, hfall, h1, h2, h3, hs]
  · by_cases hcnt : s.bitCnt = 0#3 <;>
      simp [posedge, ssFalling, sclkFalling, shifted, sclkRising, respond, loaded, capture,
      restart, sampled, onRise, finalFall, startEnd, hss, hrise, hfall, h1, h2, h3, hs, hcnt]

/-- A falling edge within a byte starts a shift, which the next negative edge does. -/
theorem posedge_fall (h : s.Waits) (hs : s.state = .slTransmit)
    (hrise : s.sclkSync.risingO = false) (hfall : s.sclkSync.fallingO = true) :
    s.posedge i = { s.sampled i with shift := false, state := .slShift } := by
  obtain ⟨h1, h2, h3⟩ := patterns_of_response h.response
  simp [posedge, ssFalling, sclkFalling, shifted, sclkRising, respond, loaded, capture,
      restart, sampled, finalFall, startEnd, hss, hrise, hfall, h1, h2, h3, hs]

theorem posedge_shifted (hresponse : response s.rxBuf = none) (hs : s.state = .slShift)
    (hrise : s.sclkSync.risingO = false) (hfall : s.sclkSync.fallingO = false) :
    s.posedge i = { s.sampled i with state := .slTransmit } := by
  obtain ⟨h1, h2, h3⟩ := patterns_of_response hresponse
  simp [posedge, ssFalling, sclkFalling, shifted, sclkRising, respond, loaded, capture,
      restart, sampled, finalFall, startEnd, hss, hrise, hfall, h1, h2, h3, hs]

/-- The falling edge after a byte captures it. -/
theorem posedge_final (h : s.Waits) (hs : s.state = .slIdle)
    (hrise : s.sclkSync.risingO = false) (hfall : s.sclkSync.fallingO = true) :
    s.posedge i =
      { s.sampled i with
        rxByte := 0, bitCnt := 6, bufCnt := if s.bufCnt = 2 then 0 else s.bufCnt + 1
        rxBuf := s.captured } := by
  obtain ⟨h1, h2, h3⟩ := patterns_of_response h.response
  simp [posedge, ssFalling, sclkFalling, shifted, sclkRising, respond, loaded, capture,
      restart, sampled, captured, finalFall, startEnd, hss, hrise, hfall, h1, h2, h3, hs]

/-- A response is put on the data of the shift register, which the next negative edge loads. -/
theorem posedge_respond {r : Byte} (hresponse : response s.rxBuf = some r) (hs : s.state = .slIdle)
    (hrise : s.sclkSync.risingO = false) (hfall : s.sclkSync.fallingO = false) :
    ∃ d, s.posedge i =
        { s.sampled i with state := .slLoad, loadData := false, dataSelect := d } ∧
      (s.posedge i).dataOutVal = r := by
  rcases patterns_of_some hresponse with ⟨h1, h2, h3, rfl⟩ | ⟨h1, h2, h3, rfl⟩ | ⟨h1, h2, h3, rfl⟩
  · refine ⟨0, ?_, ?_⟩ <;>
      simp [posedge, ssFalling, sclkFalling, shifted, sclkRising, respond, loaded, capture,
        restart, sampled, dataOutVal, finalFall, startEnd, hss, hrise, hfall, h1, h2, h3, hs]
  · refine ⟨1, ?_, ?_⟩ <;>
      simp [posedge, ssFalling, sclkFalling, shifted, sclkRising, respond, loaded, capture,
        restart, sampled, dataOutVal, finalFall, startEnd, hss, hrise, hfall, h1, h2, h3, hs]
  · refine ⟨2, ?_, ?_⟩ <;>
      simp [posedge, ssFalling, sclkFalling, shifted, sclkRising, respond, loaded, capture,
        restart, sampled, dataOutVal, finalFall, startEnd, hss, hrise, hfall, h1, h2, h3, hs]

theorem posedge_loaded (hs : s.state = .slLoad) (hrise : s.sclkSync.risingO = false)
    (hfall : s.sclkSync.fallingO = false) :
    s.posedge i = { s.sampled i with state := .slIdle, rxBuf := clearBuf s.rxBuf } := by
  simp [posedge, ssFalling, sclkFalling, shifted, sclkRising, respond, loaded, capture,
      restart, sampled, finalFall, startEnd, hss, hrise, hfall, hs]

end Edges

/-- The select line falls on a slave that is idle. -/
theorem posedge_select (h : s.Waits) (hs : s.state = .slIdle) (hss : s.ssSync.fallingO = true)
    (hrise : s.sclkSync.risingO = false) (hfall : s.sclkSync.fallingO = false) :
    s.posedge i = { s.sampled i with bufCnt := 0, rxBuf := clearBuf s.rxBuf, bitCnt := 6 } := by
  obtain ⟨h1, h2, h3⟩ := patterns_of_response h.response
  simp [posedge, ssFalling, sclkFalling, shifted, sclkRising, respond, loaded, capture,
      restart, sampled, finalFall, startEnd, hss, hrise, hfall, h1, h2, h3, hs]

theorem negedge_eq (hload : s.loadData = true) (hshift : s.shift = true) : s.negedge = s := by
  obtain ⟨⟩ := s
  simp_all [negedge, parallelLoadShiftReg]

/-- The slave selected, with these levels in its synchronisers. -/
def lined (sclk mosi : CDCSynchron) (s : SPISlave) : SPISlave :=
  { s with
    sclkSync := sclk, mosiSync := mosi, ssSync := ⟨false, false, false⟩
    shift := true, loadData := true, dataSelect := 3 }

theorem Waits.lined {sclk mosi : CDCSynchron} (h : s.Waits) : (s.lined sclk mosi).Waits :=
  ⟨h.state, h.response⟩

section Lined

variable {sclk mosi : CDCSynchron} (hcs : i.cs = false)
include hcs

theorem sampled_lined :
    (s.lined sclk mosi).sampled i = s.lined (sclk.clock i.spiClk) (mosi.clock i.mosi) := by
  simp [sampled, lined, CDCSynchron.clock, hcs]

theorem clock_lined (hw : s.Waits) (hrise : sclk.risingO = false) (hfall : sclk.fallingO = false) :
    (s.lined sclk mosi).clock i = s.lined (sclk.clock i.spiClk) (mosi.clock i.mosi) := by
  rw [clock, negedge_eq rfl rfl, posedge_still (s := s.lined sclk mosi) rfl hw.lined hrise hfall,
    sampled_lined hcs]

theorem clock_lined_rise (hw : s.Waits) (hrise : sclk.risingO = true)
    (hfall : sclk.fallingO = false) : (s.lined sclk mosi).clock i =
      (s.onRise mosi.syncO).lined (sclk.clock i.spiClk) (mosi.clock i.mosi) := by
  rw [clock, negedge_eq rfl rfl, posedge_rise (s := s.lined sclk mosi) rfl hw.lined hrise hfall]
  exact @sampled_lined (s.onRise mosi.syncO) i sclk mosi hcs

end Lined

theorem Waits.onRise (h : s.Waits) : (s.onRise m).Waits := by
  refine ⟨?_, h.response⟩
  by_cases hlast : s.state = .slTransmit ∧ s.bitCnt = 0
  · exact .inl (if_pos hlast)
  · exact .inr (if_neg hlast)

theorem Waits.onFall (h : s.Waits) : s.onFall.Waits := by
  unfold SPISlave.onFall
  split
  · exact ⟨h.state, h.response⟩
  · rename_i hs
    refine ⟨.inl (h.state.resolve_right hs), ?_⟩
    cases hr : SPISlave.response s.captured <;> simp [hr]

/-- The cycle after a falling edge within a byte. -/
def shifting (sclk mosi : CDCSynchron) (s : SPISlave) : SPISlave :=
  { s.lined sclk mosi with shift := false, state := .slShift }

/-- The cycle after a response was found. -/
def loading (sclk mosi : CDCSynchron) (d : BitVec 2) (s : SPISlave) : SPISlave :=
  { s.lined sclk mosi with state := .slLoad, loadData := false, dataSelect := d }

theorem clock_shifting {sclk mosi : CDCSynchron} (hw : s.Waits) (hcs : i.cs = false)
    (hrise : sclk.risingO = false) (hfall : sclk.fallingO = false) :
    (s.shifting sclk mosi).clock i =
      ({ s with state := .slTransmit, shiftData := s.shiftData <<< 1 } : SPISlave).lined
        (sclk.clock i.spiClk) (mosi.clock i.mosi) := by
  rw [clock, posedge_shifted (s := (s.shifting sclk mosi).negedge) rfl hw.response rfl hrise hfall]
  simp [sampled, shifting, lined, negedge, parallelLoadShiftReg, CDCSynchron.clock, hcs]

theorem clock_loading {sclk mosi : CDCSynchron} {d : BitVec 2} (hcs : i.cs = false)
    (hrise : sclk.risingO = false) (hfall : sclk.fallingO = false) :
    (s.loading sclk mosi d).clock i =
      ({ s with
        state := .slIdle, rxBuf := clearBuf s.rxBuf
        shiftData := (s.loading sclk mosi d).dataOutVal } : SPISlave).lined
        (sclk.clock i.spiClk) (mosi.clock i.mosi) := by
  rw [clock, posedge_loaded (s := (s.loading sclk mosi d).negedge) rfl rfl hrise hfall]
  simp [sampled, loading, lined, negedge, parallelLoadShiftReg, CDCSynchron.clock, hcs]

theorem clock_lined_respond {sclk mosi : CDCSynchron} {r : Byte}
    (hresponse : response s.rxBuf = some r) (hs : s.state = .slIdle) (hcs : i.cs = false)
    (hrise : sclk.risingO = false) (hfall : sclk.fallingO = false) :
    ∃ d, (s.lined sclk mosi).clock i =
        s.loading (sclk.clock i.spiClk) (mosi.clock i.mosi) d ∧
      (s.loading (sclk.clock i.spiClk) (mosi.clock i.mosi) d).dataOutVal = r := by
  obtain ⟨d, hd, hout⟩ := posedge_respond (i := i) (s := s.lined sclk mosi) rfl hresponse hs
    hrise hfall
  rw [sampled_lined hcs] at hd
  rw [hd] at hout
  refine ⟨d, ?_, hout⟩
  rw [clock, negedge_eq rfl rfl, hd]
  rfl

/-- The three cycles from a falling edge on. -/
theorem clock_lined_fall {mosi : CDCSynchron} (hw : s.Waits) :
    ((((s.lined ⟨false, false, true⟩ mosi).clock ⟨false, false, m⟩).clock ⟨false, false, m⟩).clock
      ⟨false, false, m⟩) = s.onFall.lined ⟨false, false, false⟩ ⟨m, m, m⟩ := by
  rcases hw.state with hs | hs
  · -- the byte is captured; what `rx_buf` then holds may be answered
    obtain ⟨t, ht⟩ : ∃ t : SPISlave, t = { s with
        rxByte := 0, bitCnt := 6, bufCnt := if s.bufCnt = 2 then 0 else s.bufCnt + 1
        rxBuf := s.captured } := ⟨_, rfl⟩
    have h1 : (s.lined ⟨false, false, true⟩ mosi).clock ⟨false, false, m⟩ =
        t.lined ⟨false, false, false⟩ (mosi.clock m) := by
      rw [clock, negedge_eq rfl rfl, posedge_final (s := s.lined ⟨false, false, true⟩ mosi) rfl
        hw.lined hs rfl rfl, sampled_lined rfl, ht]
      rfl
    have hfall : s.onFall = { t with
        rxBuf := if (response s.captured).isSome then clearBuf s.captured else s.captured
        shiftData := (response s.captured).getD s.shiftData } := by
      rw [onFall, if_neg (by rw [hs]; decide), ht]
    rw [h1, hfall]
    cases hr : response s.captured with
    | none =>
      have hwait : t.Waits := by
        rw [ht]
        exact ⟨.inl hs, hr⟩
      rw [clock_lined rfl hwait rfl rfl, clock_lined rfl hwait rfl rfl, ht]
      rfl
    | some r =>
      obtain ⟨d, hload, hout⟩ := @clock_lined_respond t ⟨false, false, m⟩ ⟨false, false, false⟩
        (mosi.clock m) r (by rw [ht]; exact hr) (by rw [ht]; exact hs) rfl rfl rfl
      rw [hload, clock_loading rfl rfl rfl, hout, ht]
      simp [lined, CDCSynchron.clock, hs]
  · have h1 : (s.lined ⟨false, false, true⟩ mosi).clock ⟨false, false, m⟩ =
        s.shifting ⟨false, false, false⟩ (mosi.clock m) := by
      rw [clock, negedge_eq rfl rfl, posedge_fall (s := s.lined ⟨false, false, true⟩ mosi) rfl
        hw.lined hs rfl rfl, sampled_lined rfl]
      rfl
    have hfall : s.onFall = { s with state := .slTransmit, shiftData := s.shiftData <<< 1 } := by
      rw [onFall, if_pos hs, ← hs]
    rw [h1, clock_shifting hw rfl rfl rfl, ← hfall, clock_lined rfl hw.onFall rfl rfl]
    rfl

/-! ## A half period -/

/-- The lines of a half period: the edge at its start comes after the first sample. -/
def halfLines (clk m clk' m' : Bool) (k : ℕ) : SlaveInput :=
  if k = 0 then ⟨clk, false, m⟩ else ⟨clk', false, m'⟩

/-- What a half period does to the slave, the clock going from `clk` to `clk'`. -/
def half (clk clk' mosi : Bool) (s : SPISlave) : SPISlave :=
  if !clk && clk' then s.onRise mosi else if clk && !clk' then s.onFall else s

theorem Waits.half (h : s.Waits) : (s.half clk clk' m).Waits := by
  unfold SPISlave.half
  split
  · exact h.onRise
  · split
    · exact h.onFall
    · exact h

/-- For three cycles the edge goes through the synchronisers. -/
theorem trace_three (hw : s.Waits) :
    trace clock (s.lined ⟨clk, clk, clk⟩ ⟨m, m, m⟩) (halfLines clk m clk' m') 3 =
      s.lined ⟨clk', clk', clk⟩ ⟨m', m', m⟩ := by
  have hrise : (!clk && clk) = false := by cases clk <;> rfl
  have hfall : (clk && !clk) = false := by cases clk <;> rfl
  have h0 : (s.lined ⟨clk, clk, clk⟩ ⟨m, m, m⟩).clock ⟨clk, false, m⟩ =
      s.lined ⟨clk, clk, clk⟩ ⟨m, m, m⟩ := clock_lined rfl hw hrise hfall
  have h1 : (s.lined ⟨clk, clk, clk⟩ ⟨m, m, m⟩).clock ⟨clk', false, m'⟩ =
      s.lined ⟨clk', clk, clk⟩ ⟨m', m, m⟩ := clock_lined rfl hw hrise hfall
  have h2 : (s.lined ⟨clk', clk, clk⟩ ⟨m', m, m⟩).clock ⟨clk', false, m'⟩ =
      s.lined ⟨clk', clk', clk⟩ ⟨m', m', m⟩ := clock_lined rfl hw hrise hfall
  calc _ = (((s.lined ⟨clk, clk, clk⟩ ⟨m, m, m⟩).clock ⟨clk, false, m⟩).clock
        ⟨clk', false, m'⟩).clock ⟨clk', false, m'⟩ := rfl
    _ = s.lined ⟨clk', clk', clk⟩ ⟨m', m', m⟩ := by rw [h0, h1, h2]

theorem trace_half (hw : s.Waits) :
    trace clock (s.lined ⟨clk, clk, clk⟩ ⟨m, m, m⟩) (halfLines clk m clk' m') 6 =
      (s.half clk clk' m').lined ⟨clk', clk', clk'⟩ ⟨m', m', m'⟩ := by
  have h6 : trace clock (s.lined ⟨clk, clk, clk⟩ ⟨m, m, m⟩) (halfLines clk m clk' m') 6 =
      (((s.lined ⟨clk', clk', clk⟩ ⟨m', m', m⟩).clock ⟨clk', false, m'⟩).clock
        ⟨clk', false, m'⟩).clock ⟨clk', false, m'⟩ := by
    rw [trace_succ, trace_succ, trace_succ, trace_three hw]
    rfl
  rw [h6]
  have hstill : ∀ t : SPISlave, t.Waits → ∀ sel : CDCSynchron,
      (t.lined ⟨clk', clk', clk'⟩ sel).clock ⟨clk', false, m'⟩ =
        t.lined ⟨clk', clk', clk'⟩ (sel.clock m') := by
    intro t ht sel
    exact clock_lined rfl ht (by cases clk' <;> rfl) (by cases clk' <;> rfl)
  cases hrise : !clk && clk' with
  | true =>
    have h3 : (s.lined ⟨clk', clk', clk⟩ ⟨m', m', m⟩).clock ⟨clk', false, m'⟩ =
        (s.onRise m').lined ⟨clk', clk', clk'⟩ ⟨m', m', m'⟩ :=
      clock_lined_rise rfl hw hrise (by revert hrise; cases clk <;> cases clk' <;> decide)
    rw [h3, hstill _ hw.onRise, hstill _ hw.onRise, half, if_pos hrise]
    rfl
  | false =>
    cases hfall : clk && !clk' with
    | true =>
      obtain ⟨rfl, rfl⟩ : clk = true ∧ clk' = false := by simpa using hfall
      exact clock_lined_fall hw
    | false =>
      have h3 : (s.lined ⟨clk', clk', clk⟩ ⟨m', m', m⟩).clock ⟨clk', false, m'⟩ =
          s.lined ⟨clk', clk', clk'⟩ ⟨m', m', m'⟩ := clock_lined rfl hw hrise hfall
      rw [h3, hstill _ hw, hstill _ hw, half, if_neg (by rw [hrise]; decide),
        if_neg (by rw [hfall]; decide)]
      rfl

/-! ## Captures -/

/-- The blocks of the positive edge leave the synchroniser of the clock and the shift register
as they find them. -/
theorem posedge_kept :
    (s.posedge i).sclkSync = s.sclkSync.clock i.spiClk ∧ (s.posedge i).shiftData = s.shiftData := by
  have hfirst : ∀ t : SPISlave,
      (shifted s (sclkFalling s (ssFalling s t))).sclkSync = t.sclkSync ∧
        (shifted s (sclkFalling s (ssFalling s t))).shiftData = t.shiftData := by
    intro t
    unfold shifted sclkFalling ssFalling
    split <;> split <;> split <;> exact ⟨rfl, rfl⟩
  have hrise : ∀ t : SPISlave, (sclkRising s t).sclkSync = t.sclkSync ∧
      (sclkRising s t).shiftData = t.shiftData := by
    intro t
    unfold sclkRising
    split
    · split
      · exact ⟨rfl, rfl⟩
      · split <;> exact ⟨rfl, rfl⟩
      · exact ⟨rfl, rfl⟩
    · exact ⟨rfl, rfl⟩
  have hrespond : ∀ (p : Bool) (d : BitVec 2) (t : SPISlave),
      (respond p d s t).sclkSync = t.sclkSync ∧ (respond p d s t).shiftData = t.shiftData := by
    intro p d t
    unfold respond
    split <;> exact ⟨rfl, rfl⟩
  have hrest : ∀ t : SPISlave, (restart s (capture s (loaded s t))).sclkSync = t.sclkSync ∧
      (restart s (capture s (loaded s t))).shiftData = t.shiftData := by
    intro t
    unfold restart capture loaded
    split <;> split <;> split <;> exact ⟨rfl, rfl⟩
  unfold posedge
  rw [(hrest _).1, (hrespond _ _ _).1, (hrespond _ _ _).1, (hrespond _ _ _).1, (hrise _).1,
    (hfirst _).1, (hrest _).2, (hrespond _ _ _).2, (hrespond _ _ _).2, (hrespond _ _ _).2,
    (hrise _).2, (hfirst _).2]
  exact ⟨rfl, rfl⟩

theorem clock_sclkSync : (s.clock i).sclkSync = s.sclkSync.clock i.spiClk := posedge_kept.1

theorem clock_shiftData : (s.clock i).shiftData = s.negedge.shiftData := posedge_kept.2

/-- A capture leaves the byte in its place of `rx_buf`. -/
theorem clock_rxBuf_of_finalFall (h : s.finalFall = true) :
    (s.clock i).rxBuf s.bufCnt = s.rxByte := by
  have hfall : s.negedge.finalFall = true := h
  have hstart : s.negedge.startEnd = true := by simp [startEnd, hfall]
  simp only [clock, posedge, restart, capture, hfall, hstart, if_true]
  exact Function.update_self _ _ _

theorem captures_eq_nil (h : s.sclkSync.fallingO = false) : s.captures i = [] := by
  simp [captures, finalFall, h]

/-- A half period captures a byte if the clock falls with the slave idle, and nothing else. -/
theorem emitted_captures_half (hw : s.Waits) :
    emitted clock (s.lined ⟨clk, clk, clk⟩ ⟨m, m, m⟩) (halfLines clk m clk' m') captures 6 =
      if clk && !clk' && s.state = .slIdle then [.capture s.bufCnt s.rxByte] else [] := by
  have hother : ∀ k < 6, k ≠ 3 →
      (trace clock (s.lined ⟨clk, clk, clk⟩ ⟨m, m, m⟩) (halfLines clk m clk' m')
        k).sclkSync.fallingO = false := by
    intro k hk hk3
    have hcases : k = 0 ∨ k = 1 ∨ k = 2 ∨ k = 4 ∨ k = 5 := by omega
    rcases hcases with rfl | rfl | rfl | rfl | rfl <;>
      simp [trace_succ, clock_sclkSync, lined, halfLines, CDCSynchron.clock, CDCSynchron.fallingO]
  have hthree : (trace clock (s.lined ⟨clk, clk, clk⟩ ⟨m, m, m⟩) (halfLines clk m clk' m')
      3).captures (halfLines clk m clk' m' 3) =
      if clk && !clk' && s.state = .slIdle then [.capture s.bufCnt s.rxByte] else [] := by
    rw [trace_three hw]
    have hfinal : (s.lined ⟨clk', clk', clk⟩ ⟨m', m', m⟩).finalFall =
        (clk && !clk' && decide (s.state = .slIdle)) := Bool.and_comm _ _
    cases h : clk && !clk' && decide (s.state = .slIdle) with
    | true =>
      have hbyte := @clock_rxBuf_of_finalFall _ (halfLines clk m clk' m' 3) (hfinal.trans h)
      rw [captures, if_pos (hfinal.trans h), hbyte, if_pos rfl]
      rfl
    | false =>
      rw [captures, hfinal, h]
      rfl
  calc _ = (trace clock (s.lined ⟨clk, clk, clk⟩ ⟨m, m, m⟩) (halfLines clk m clk' m')
        3).captures (halfLines clk m clk' m' 3) := by
        rw [emitted_succ, emitted_succ, emitted_succ, emitted_succ, emitted_succ, emitted_succ,
          captures_eq_nil (hother 0 (by decide) (by decide)),
          captures_eq_nil (hother 1 (by decide) (by decide)),
          captures_eq_nil (hother 2 (by decide) (by decide)),
          captures_eq_nil (hother 4 (by decide) (by decide)),
          captures_eq_nil (hother 5 (by decide) (by decide))]
        simp [emitted]
    _ = _ := hthree

/-! ## Between the transfers -/

/-- Idle on a low clock, with no falling edge of the select line on its way. -/
structure Resting (s : SPISlave) : Prop where
  state : s.state = .slIdle
  response : response s.rxBuf = none
  sclkSync : s.sclkSync = ⟨false, false, false⟩
  bit2 : s.ssSync.bit2 = true → s.ssSync.bit1 = true
  bit1 : s.ssSync.bit1 = true → s.ssSync.bit0 = true

theorem Resting.clock_eq (h : s.Resting) : s.clock i = s.negedge.sampled i := by
  have hss : s.negedge.ssSync.fallingO = false := by
    cases h2 : s.ssSync.bit2 with
    | false => simp [CDCSynchron.fallingO, negedge, h2]
    | true => simp [CDCSynchron.fallingO, negedge, h.bit2 h2]
  have hclk : s.negedge.sclkSync = ⟨false, false, false⟩ := h.sclkSync
  exact posedge_still hss ⟨.inl h.state, h.response⟩ (by rw [hclk]; rfl) (by rw [hclk]; rfl)

theorem Resting.clock (h : s.Resting) (hclk : i.spiClk = false) (hcs : i.cs = true) :
    (s.clock i).Resting := by
  rw [h.clock_eq]
  refine ⟨h.state, h.response, ?_, h.bit1, fun _ => hcs⟩
  simp [sampled, negedge, h.sclkSync, CDCSynchron.clock, hclk]

theorem Resting.captures (h : s.Resting) : s.captures i = [] :=
  captures_eq_nil (by rw [h.sclkSync]; rfl)

/-- What the falling edge of the select line makes of the slave. -/
def selected (s : SPISlave) : SPISlave :=
  { s with
    bufCnt := 0, rxBuf := clearBuf s.rxBuf, bitCnt := 6, shiftData := s.negedge.shiftData }

/-- Three cycles after the select line fell the slave is ready for a byte, and stays so. -/
theorem trace_select (h : s.Resting) (hcs : s.ssSync.bit0 = true) (n : ℕ) :
    trace clock s (fun _ => ⟨false, false, m⟩) (n + 3) =
      s.selected.lined ⟨false, false, false⟩ ⟨m, m, m⟩ := by
  have hwaits : s.selected.Waits := ⟨.inl h.state, response_clearBuf _⟩
  induction n with
  | zero =>
    obtain ⟨t, ht⟩ : ∃ t, t = s.negedge.sampled ⟨false, false, m⟩ := ⟨_, rfl⟩
    obtain ⟨u, hu⟩ : ∃ u, u = t.sampled ⟨false, false, m⟩ := ⟨_, rfl⟩
    have htss : t.ssSync = ⟨false, true, s.ssSync.bit1⟩ := by
      rw [ht, ← hcs]
      rfl
    have huss : u.ssSync = ⟨false, false, true⟩ := by
      rw [hu, sampled, htss]
      rfl
    have htclk : t.sclkSync = ⟨false, false, false⟩ := by
      rw [ht, sampled, negedge, h.sclkSync]
      rfl
    have huclk : u.sclkSync = ⟨false, false, false⟩ := by
      rw [hu, sampled, htclk]
      rfl
    have htw : t.Waits := by
      rw [ht]
      exact ⟨.inl h.state, h.response⟩
    have huw : u.Waits := by
      rw [hu]
      exact ⟨htw.state, htw.response⟩
    have h1 : s.clock ⟨false, false, m⟩ = t := by rw [ht, h.clock_eq]
    have h2 : t.clock ⟨false, false, m⟩ = u := by
      rw [clock, negedge_eq (by rw [ht]; rfl) (by rw [ht]; rfl), hu]
      exact posedge_still (by rw [htss]; cases s.ssSync.bit1 <;> rfl) htw (by rw [htclk]; rfl)
        (by rw [htclk]; rfl)
    have h3 : u.clock ⟨false, false, m⟩ =
        { u.sampled ⟨false, false, m⟩ with
          bufCnt := 0, rxBuf := clearBuf u.rxBuf, bitCnt := 6 } := by
      rw [clock, negedge_eq (by rw [hu]; rfl) (by rw [hu]; rfl)]
      exact posedge_select huw (by rw [hu, ht]; exact h.state) (by rw [huss]; rfl)
        (by rw [huclk]; rfl) (by rw [huclk]; rfl)
    rw [trace_succ, trace_succ, trace_succ, trace_zero, h1, h2, h3, hu, ht]
    simp [sampled, selected, lined, negedge, CDCSynchron.clock, h.sclkSync, hcs]
  | succ n ih =>
    rw [show n + 1 + 3 = n + 3 + 1 by omega, trace_succ, ih]
    exact clock_lined rfl hwaits rfl rfl

theorem trace_sclkSync (hclk : s.sclkSync = ⟨false, false, false⟩) (n : ℕ) :
    (trace clock s (fun _ => ⟨false, false, m⟩) n).sclkSync = ⟨false, false, false⟩ := by
  induction n with
  | zero => exact hclk
  | succ n ih =>
    rw [trace_succ, clock_sclkSync, ih]
    rfl

theorem emitted_captures_select (hclk : s.sclkSync = ⟨false, false, false⟩) (n : ℕ) :
    emitted clock s (fun _ => ⟨false, false, m⟩) captures n = [] := by
  induction n with
  | zero => rfl
  | succ n ih => rw [emitted_succ, ih, captures_eq_nil (by rw [trace_sclkSync hclk]; rfl)]; rfl

end SPISlave

end RangerRisc
