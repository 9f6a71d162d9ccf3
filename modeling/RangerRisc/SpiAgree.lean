import RangerRisc.SpiLength

/-! Two links that show the same on their lines: what has come from the slave may differ, and
so may whatever is loaded before it is used. -/

namespace RangerRisc

open Clocked

namespace SPIMaster

variable {m m' : SPIMaster} {c c' e : Bool} {b b' : Byte}

/-- A byte has been taken, and its last bit has not been sent yet. -/
def midByte (m : SPIMaster) : Bool := m.state = .msBegin || m.state = .msTransmitting

/-- What holds of every state that is reached. -/
structure Sound (m : SPIMaster) : Prop where
  state : m.state ≠ .msStart
  byteTxComplete : m.byteTxComplete = decide (m.state = .msComplete)

theorem negSpiClk_state (m : SPIMaster) (b : Byte) : (m.negSpiClk b).state = m.state := by
  cases hs : m.state <;> simp [negSpiClk, hs]

theorem negSpiClk_byteTxComplete (m : SPIMaster) (b : Byte) :
    (m.negSpiClk b).byteTxComplete = m.byteTxComplete := by
  cases hs : m.state <;> simp [negSpiClk, hs]

theorem Sound.neg (h : m.Sound) (b : Byte) : (m.negSpiClk b).Sound := by
  constructor
  · rw [negSpiClk_state]
    exact h.state
  · rw [negSpiClk_state, negSpiClk_byteTxComplete]
    exact h.byteTxComplete

theorem Sound.pos (h : m.Sound) (e : Bool) : (m.posSpiClk e).Sound := by
  obtain ⟨hstate, hcomplete⟩ := h
  cases hs : m.state with
  | msStart => exact absurd hs hstate
  | msIdle =>
    rw [hs] at hcomplete
    cases e <;> constructor <;> simp [posSpiClk, hs, hcomplete]
  | msBegin =>
    rw [hs] at hcomplete
    constructor <;> simp [posSpiClk, hs, hcomplete]
  | msTransmitting =>
    rw [hs] at hcomplete
    by_cases hcnt : m.bitCnt = 0#3 <;> constructor <;> simp [posSpiClk, hs, hcnt, hcomplete]
  | msComplete => constructor <;> simp [posSpiClk, hs]

/-- A master that is not enabled goes on with the byte that it has, if any, when the clock
rises. -/
theorem Sound.unsent (h : m.Sound) : if m.midByte then
      (m.posSpiClk true).state = .msTransmitting ∨ (m.posSpiClk true).state = .msComplete
    else (m.posSpiClk true).state = .msIdle := by
  cases hs : m.state with
  | msStart => exact absurd hs h.state
  | msTransmitting =>
    by_cases hcnt : m.bitCnt = 0#3 <;> simp [midByte, posSpiClk, hs, hcnt]
  | _ => simp [midByte, posSpiClk, hs]

/-- Two masters that go on alike; `c` is the divided clock. -/
structure Agrees (c : Bool) (m m' : SPIMaster) : Prop where
  state : m.state = m'.state
  byteTxComplete : m.byteTxComplete = m'.byteTxComplete
  bitCnt : m'.state ≠ .msIdle → m.bitCnt = m'.bitCnt
  txBits : m'.state = .msBegin ∨ m'.state = .msTransmitting ∨ m'.state = .msIdle ∧ c = false →
    m.txBits = m'.txBits
  mosi : m'.state = .msTransmitting ∨ m'.state = .msComplete ∨ m'.state = .msBegin ∧ c = false →
    m.mosi = m'.mosi

theorem Agrees.pos (h : Agrees false m m') (e : Bool) :
    Agrees true (m.posSpiClk e) (m'.posSpiClk e) := by
  obtain ⟨hstate, hcomplete, hcnt, htx, hmosi⟩ := h
  cases hs' : m'.state with
  | msStart =>
    constructor <;> simp_all [posSpiClk]
  | msIdle =>
    cases e <;> constructor <;> simp_all [posSpiClk]
  | msBegin => constructor <;> simp_all [posSpiClk]
  | msTransmitting =>
    by_cases hzero : m'.bitCnt = 0#3 <;> constructor <;> simp_all [posSpiClk]
  | msComplete => constructor <;> simp_all [posSpiClk]

/-- An idle master takes its byte from the buffer when the clock falls. -/
theorem Agrees.neg (h : Agrees true m m') (hb : b = b') :
    Agrees false (m.negSpiClk b) (m'.negSpiClk b') := by
  obtain ⟨hstate, hcomplete, hcnt, htx, hmosi⟩ := h
  subst hb
  cases hs' : m'.state <;> constructor <;> simp_all [negSpiClk]

end SPIMaster

namespace SpiLink

variable {s t : SpiLink} {i : IOInput} {inp : ℕ → IOInput} {cnt : BitVec 4} {n : ℕ}

/-! ## The lines -/

/-- What a receiver sees; the data counts while the clock is high. -/
structure SpiLines where
  cs : Bool
  spiClk : Bool
  mosi : Option Bool
  ioComplete : Bool
  deriving DecidableEq, Repr

def lines (s : SpiLink) : SpiLines :=
  ⟨s.io.cs, s.spiClk, if s.spiClk then some s.master.mosi else none, s.io.ioComplete⟩

/-- The lines outside the states in which bytes are sent. -/
theorem lines_of_silent (h : s.io.state ≠ .ioSend) :
    s.lines = ⟨s.io.cs, false, none, s.io.ioComplete⟩ := by
  have hclk : s.spiClk = false := by
    rw [spiClk, spiSend, spiSend_of_ne h, SPIMaster.outSpiClk, Bool.not_true, Bool.and_false]
    rfl
  rw [lines, hclk]
  rfl

/-! ## Dividers in step -/

/-- Two dividers in step. -/
structure InStep (s t : SpiLink) : Prop where
  sysClkCnt : s.io.sysClkCnt = t.io.sysClkCnt
  mastSpiClk : s.io.mastSpiClk = t.io.mastSpiClk
  pMastSpiClk : s.io.pMastSpiClk = t.io.pMastSpiClk
  divides : Divides t.io

theorem InStep.clock {i' : IOInput} (h : InStep s t) : InStep (s.clock i) (t.clock i') := by
  obtain ⟨-, -, hpmast, hcnt, hmast⟩ :=
    IOModule.clock_divider (m := s.io) (i := i) (l := s.masterLines)
  obtain ⟨-, -, hpmast', hcnt', hmast'⟩ :=
    IOModule.clock_divider (m := t.io) (i := i') (l := t.masterLines)
  exact ⟨hcnt.trans (by rw [h.sysClkCnt, ← hcnt']; rfl),
    hmast.trans (by rw [h.sysClkCnt, h.mastSpiClk, ← hmast']; rfl),
    hpmast.trans (h.mastSpiClk.trans hpmast'.symm), h.divides.clock⟩

theorem InStep.rising (h : InStep s t) : s.io.mastSpiClkRising = t.io.mastSpiClkRising := by
  rw [IOModule.mastSpiClkRising, IOModule.mastSpiClkRising, h.mastSpiClk, h.pMastSpiClk]

/-! ## While bytes are sent -/

/-- Both links are at the same place of the same bytes, of which there are `n` to be sent by
`t`; the count of `s` may be another one. -/
structure Agree (cnt : BitVec 4) (n : ℕ) (s t : SpiLink) : Prop where
  state : s.io.state = t.io.state
  sends : t.io.state = .ioSend ∨
    t.io.state = .ioNext ∧ t.io.mastSpiClk = true ∧ t.io.sysClkCnt ≠ 5
  inStep : InStep s t
  pByteSent : s.io.pByteSent = t.io.pByteSent
  sent : t.io.pByteSent = t.master.byteTxComplete ∨
    t.io.mastSpiClk = true ∧ t.io.sysClkCnt = 0
  master : s.master.Agrees t.io.mastSpiClk t.master
  count : s.io.txByteCnt = cnt
  txByteCnt : t.io.txByteCnt = BitVec.ofNat 4 n
  txStrAddr : ∃ j < n, s.io.txStrAddr = BitVec.ofNat 4 j ∧ t.io.txStrAddr = BitVec.ofNat 4 j
  txMem : ∀ j < n, s.io.txBuf.mem (BitVec.ofNat 4 j) = t.io.txBuf.mem (BitVec.ofNat 4 j)
  dataO : t.io.state = .ioSend → s.io.txBuf.dataO = t.io.txBuf.dataO

theorem Agree.spiSend (h : Agree cnt n s t) : s.spiSend = t.spiSend := by
  have hfall : s.io.byteSentFalling s.master.byteTxComplete =
      t.io.byteSentFalling t.master.byteTxComplete := by
    rw [IOModule.byteSentFalling, IOModule.byteSentFalling, h.pByteSent, h.master.byteTxComplete]
  rw [SpiLink.spiSend, SpiLink.spiSend, IOModule.spiSend, IOModule.spiSend, h.state, hfall]

theorem Agree.lines (h : Agree cnt n s t) : s.lines = t.lines := by
  have hcs : s.io.cs = t.io.cs := by rw [IOModule.cs, IOModule.cs, h.state]
  have hcomplete : s.io.ioComplete = t.io.ioComplete := by
    rw [IOModule.ioComplete, IOModule.ioComplete, h.state]
  have hclk : s.spiClk = t.spiClk := by
    rw [spiClk, spiClk, SPIMaster.outSpiClk, SPIMaster.outSpiClk, h.spiSend, h.master.state,
      h.inStep.mastSpiClk]
  have hmosi : t.spiClk = true → s.master.mosi = t.master.mosi := by
    intro hhigh
    rw [spiClk, SPIMaster.outSpiClk] at hhigh
    simp only [Bool.and_eq_true, Bool.or_eq_true, decide_eq_true_eq] at hhigh
    exact h.master.mosi (hhigh.1.1.elim .inl fun hs => .inr (.inl hs))
  rw [SpiLink.lines, SpiLink.lines, hcs, hcomplete, hclk]
  cases hhigh : t.spiClk with
  | false => rfl
  | true => rw [hmosi hhigh]

/-- The master after a cycle, from its edges. -/
theorem Agree.clock_master (h : Agree cnt n s t)
    (hstate : (s.clock i).io.state = (t.clock i).io.state)
    (hdata : t.io.mastSpiClk = true → (t.clock i).io.mastSpiClk = false →
      (s.clock i).io.txBuf.dataO = (t.clock i).io.txBuf.dataO) :
    (s.clock i).master.Agrees (t.clock i).io.mastSpiClk (t.clock i).master := by
  have hstep : InStep (s.clock i) (t.clock i) := h.inStep.clock
  obtain ⟨hsent, -⟩ := IOModule.clock_divider (m := s.io) (i := i) (l := s.masterLines)
  obtain ⟨hsent', -⟩ := IOModule.clock_divider (m := t.io) (i := i) (l := t.masterLines)
  have hen : (s.clock i).io.spiSend s.master.byteTxComplete =
      (t.clock i).io.spiSend t.master.byteTxComplete := by
    have hpast : (s.clock i).io.pByteSent = (t.clock i).io.pByteSent :=
      hsent.trans (h.master.byteTxComplete.trans hsent'.symm)
    rw [IOModule.spiSend, IOModule.spiSend, IOModule.byteSentFalling, IOModule.byteSentFalling,
      hstate, hpast, h.master.byteTxComplete]
  have hm := h.master
  rw [SpiLink.clock_master, SpiLink.clock_master, h.inStep.mastSpiClk, hstep.mastSpiClk, hen]
  have hsync : ∀ c c', SPIMaster.Agrees t.io.mastSpiClk { s.master with misoSync := c }
      { t.master with misoSync := c' } := fun _ _ =>
    ⟨hm.state, hm.byteTxComplete, hm.bitCnt, hm.txBits, hm.mosi⟩
  unfold spiClkEdge
  cases hc : t.io.mastSpiClk <;> cases hc' : (t.clock i).io.mastSpiClk <;> rw [hc] at hsync
  · exact hsync _ _
  · exact (hsync _ _).pos _
  · exact (hsync _ _).neg (hdata hc hc')
  · exact hsync _ _

/-- `byte_sent` changes only where the clock rises. -/
theorem clock_sent (t : SpiLink) (i : IOInput) :
    (t.clock i).io.pByteSent = (t.clock i).master.byteTxComplete ∨
      (t.clock i).io.mastSpiClk = true ∧ (t.clock i).io.sysClkCnt = 0 := by
  obtain ⟨hsent, -, -, hcnt, hmast⟩ :=
    IOModule.clock_divider (m := t.io) (i := i) (l := t.masterLines)
  have hsent' : (t.clock i).io.pByteSent = t.master.byteTxComplete := hsent
  have hcnt' : (t.clock i).io.sysClkCnt = _ := hcnt
  have hmast' : (t.clock i).io.mastSpiClk = _ := hmast
  by_cases h5 : t.io.sysClkCnt = 5
  · rw [if_pos h5] at hmast' hcnt'
    cases hc : t.io.mastSpiClk with
    | false => exact .inr ⟨by rw [hmast', hc]; rfl, hcnt'⟩
    | true =>
      refine .inl (hsent'.trans ?_)
      rw [SpiLink.clock_master, hmast', hc]
      exact (SPIMaster.negSpiClk_byteTxComplete
        { t.master with misoSync := t.master.misoSync.clock t.slave.negedge.miso } _).symm
  · rw [if_neg h5] at hmast'
    refine .inl (hsent'.trans ?_)
    rw [SpiLink.clock_master, hmast', spiClkEdge_self]

theorem lastByte_iff {m : IOModule} (hq : i.Quiet) :
    m.lastByte i = true ↔ m.txStrAddr.setWidth 32 = m.txByteCnt.setWidth 32 - 1 := by
  rw [IOModule.lastByte, IOModule.txAddrIdx, hq.txWr, decide_eq_true_eq]
  rfl

theorem last_address_iff {n j : ℕ} (hn : n ≤ 15) (hj : j < n) :
    (BitVec.ofNat 4 j).setWidth 32 = (BitVec.ofNat 4 n).setWidth 32 - 1 ↔ j + 1 = n := by
  interval_cases n <;> interval_cases j <;> decide

theorem count_unique {a b : BitVec 4} {c : BitVec 32} (ha : c = a.setWidth 32 - 1)
    (hb : c = b.setWidth 32 - 1) : a = b := by
  bv_omega

/-- One cycle of two links at the same place. As long as the select lines are alike they stay at
the same place, or both have sent their last byte. -/
theorem Agree.clock (h : Agree cnt n s t) (hn : n ≤ 15) (hq : i.Quiet)
    (hcs : (s.clock i).io.cs = (t.clock i).io.cs) :
    Agree cnt n (s.clock i) (t.clock i) ∨
      (s.clock i).io.state = .ioComplete ∧ (t.clock i).io.state = .ioComplete ∧
        cnt = BitVec.ofNat 4 n := by
  obtain ⟨j, hj, haddr, haddr'⟩ := h.txStrAddr
  have hstep : InStep (s.clock i) (t.clock i) := h.inStep.clock
  have hsent : (s.clock i).io.pByteSent = (t.clock i).io.pByteSent := by
    have hsent' : (t.clock i).io.pByteSent = t.master.byteTxComplete := IOModule.clock_divider.1
    exact IOModule.clock_divider.1.trans (h.master.byteTxComplete.trans hsent'.symm)
  have hcalm : t.io.sysClkCnt ≠ 5 → (t.clock i).io.mastSpiClk = t.io.mastSpiClk := fun hne =>
    IOModule.clock_divider.2.2.2.2.trans (if_neg hne)
  rcases h.sends with hsend | ⟨hnext, hmast, hcnt⟩
  · have hsend' := h.state.trans hsend
    have hfall : s.io.byteSentFalling s.masterLines.byteSent =
        t.io.byteSentFalling t.masterLines.byteSent := by
      have hline : s.masterLines.byteSent = t.masterLines.byteSent := h.master.byteTxComplete
      rw [IOModule.byteSentFalling, IOModule.byteSentFalling, h.pByteSent, hline]
    cases hf : t.io.byteSentFalling t.masterLines.byteSent with
    | false =>
      have hs : (s.clock i).io = s.io.tick i s.masterLines :=
        IOModule.clock_send hq hsend' (hfall.trans hf)
      have ht : (t.clock i).io = t.io.tick i t.masterLines := IOModule.clock_send hq hsend hf
      have hstate : (s.clock i).io.state = (t.clock i).io.state := by
        rw [hs, ht]
        exact h.state
      refine .inl ⟨hstate, .inl (by rw [ht]; exact hsend), hstep, hsent, clock_sent t i,
        h.clock_master hstate fun _ _ => ?_, by rw [hs]; exact h.count,
        by rw [ht]; exact h.txByteCnt,
        ⟨j, hj, by rw [hs]; exact haddr, by rw [ht]; exact haddr'⟩, ?_, fun _ => ?_⟩
      · rw [hs, ht]
        exact h.dataO hsend
      · rw [hs, ht]
        exact h.txMem
      · rw [hs, ht]
        exact h.dataO hsend
    | true =>
      have hs : (s.clock i).io = { s.io.tick i s.masterLines with
          txStrAddr := s.io.txStrAddr + 1
          state := if s.io.lastByte i then .ioComplete else .ioNext } :=
        IOModule.clock_send_fall hq hsend' (hfall.trans hf)
      have ht : (t.clock i).io = { t.io.tick i t.masterLines with
          txStrAddr := t.io.txStrAddr + 1
          state := if t.io.lastByte i then .ioComplete else .ioNext } :=
        IOModule.clock_send_fall hq hsend hf
      obtain ⟨hmast, hcnt⟩ : t.io.mastSpiClk = true ∧ t.io.sysClkCnt = 0 := by
        refine h.sent.resolve_left fun heq => ?_
        have hline : t.masterLines.byteSent = t.io.pByteSent := heq.symm
        rw [IOModule.byteSentFalling, hline, Bool.and_not_self] at hf
        cases hf
      have hmast' := hcalm (by rw [hcnt]; decide)
      have hlast : t.io.lastByte i = true ↔ j + 1 = n := by
        rw [lastByte_iff hq, haddr', h.txByteCnt]
        exact last_address_iff hn hj
      cases hl : s.io.lastByte i <;> cases hl' : t.io.lastByte i <;> rw [hl] at hs <;>
        rw [hl'] at ht hlast
      · have hstate : (s.clock i).io.state = (t.clock i).io.state := by
          rw [hs, ht]
        have hne : j + 1 ≠ n := fun heq => absurd (hlast.mpr heq) (by decide)
        have hnext : BitVec.ofNat 4 j + 1 = BitVec.ofNat 4 (j + 1) := (BitVec.ofNat_add j 1).symm
        refine .inl ⟨hstate, .inr ⟨by rw [ht]; rfl, hmast'.trans hmast, ?_⟩, hstep, hsent,
          clock_sent t i, h.clock_master hstate fun hc hc' => ?_,
          by rw [hs]; exact h.count, by rw [ht]; exact h.txByteCnt,
          ⟨j + 1, by omega, ?_, ?_⟩, ?_, fun hsend => ?_⟩
        · rw [ht]
          change (if t.io.sysClkCnt = 5 then 0 else t.io.sysClkCnt + 1) ≠ 5
          rw [hcnt]
          decide
        · rw [hmast', hc] at hc'
          cases hc'
        · rw [hs, ← hnext, ← haddr]
        · rw [ht, ← hnext, ← haddr']
        · rw [hs, ht]
          exact h.txMem
        · rw [ht] at hsend
          cases hsend
      · rw [IOModule.cs, IOModule.cs, hs, ht] at hcs
        cases hcs
      · rw [IOModule.cs, IOModule.cs, hs, ht] at hcs
        cases hcs
      · refine .inr ⟨by rw [hs]; rfl, by rw [ht]; rfl, ?_⟩
        rw [lastByte_iff hq, haddr, h.count] at hl
        rw [lastByte_iff hq, haddr', h.txByteCnt] at hl'
        exact count_unique hl hl'
  · have hs : (s.clock i).io = { s.io.fetch.tick i s.masterLines with
        rxStrAddr := s.io.rxStrAddr + 1, state := .ioSend } :=
      IOModule.clock_next hq (h.state.trans hnext)
    have ht : (t.clock i).io = { t.io.fetch.tick i t.masterLines with
        rxStrAddr := t.io.rxStrAddr + 1, state := .ioSend } := IOModule.clock_next hq hnext
    have hstate : (s.clock i).io.state = (t.clock i).io.state := by rw [hs, ht]
    refine .inl ⟨hstate, .inl (by rw [ht]), hstep, hsent, clock_sent t i,
      h.clock_master hstate fun hc hc' => ?_, by rw [hs]; exact h.count,
      by rw [ht]; exact h.txByteCnt,
      ⟨j, hj, by rw [hs]; exact haddr, by rw [ht]; exact haddr'⟩, ?_, fun _ => ?_⟩
    · rw [hcalm hcnt, hc] at hc'
      cases hc'
    · rw [hs, ht]
      exact h.txMem
    · rw [hs, ht]
      change s.io.txBuf.mem s.io.txStrAddr = t.io.txBuf.mem t.io.txStrAddr
      rw [haddr, haddr']
      exact h.txMem j hj

theorem Agree.cs_clock (h : Agree cnt n s t)
    (hcnt : cnt = BitVec.ofNat 4 n) : (s.clock i).io.cs = (t.clock i).io.cs := by
  obtain ⟨j, -, haddr, haddr'⟩ := h.txStrAddr
  have hlast : s.io.lastByte i = t.io.lastByte i := by
    rw [IOModule.lastByte, IOModule.lastByte, IOModule.txAddrIdx, IOModule.txAddrIdx, haddr,
      haddr', h.count, h.txByteCnt, hcnt]
  have hfall : s.io.byteSentFalling s.masterLines.byteSent =
      t.io.byteSentFalling t.masterLines.byteSent := by
    have hline : s.masterLines.byteSent = t.masterLines.byteSent := h.master.byteTxComplete
    rw [IOModule.byteSentFalling, IOModule.byteSentFalling, h.pByteSent, hline]
  have hnext : s.io.nextState i s.masterLines.byteSent =
      t.io.nextState i t.masterLines.byteSent := by
    rw [IOModule.nextState, IOModule.nextState, h.state, hfall, hlast, h.inStep.rising]
  have hstate : (s.clock i).io.state = (t.clock i).io.state :=
    IOModule.clock_state.trans ((congrArg _ hnext).trans IOModule.clock_state.symm)
  rw [IOModule.cs, IOModule.cs, hstate]

/-- As long as the select line of `t` is low and that of `s` is alike, the links stay at the
same place. -/
theorem Agree.run {len : ℕ} (h : Agree cnt n s t) (hn : n ≤ 15) (hq : ∀ k < len, (inp k).Quiet)
    (hlow : ∀ k < len, (trace SpiLink.clock t inp k).io.cs = false)
    (hcs : ∀ k < len, Agree cnt n (trace SpiLink.clock s inp k) (trace SpiLink.clock t inp k) →
      (trace SpiLink.clock s inp (k + 1)).io.cs = (trace SpiLink.clock t inp (k + 1)).io.cs) :
    ∀ k < len, Agree cnt n (trace SpiLink.clock s inp k) (trace SpiLink.clock t inp k) := by
  intro k
  induction k with
  | zero => exact fun _ => h
  | succ k ih =>
    intro hk
    have hagree := ih (Nat.lt_of_succ_lt hk)
    have hlt := Nat.lt_of_succ_lt hk
    rcases hagree.clock hn (hq k hlt) (hcs k hlt hagree) with hnext | ⟨-, hcomplete, -⟩
    · exact hnext
    · have hcs' := hlow (k + 1) hk
      have hstate : (trace SpiLink.clock t inp (k + 1)).io.state = .ioComplete := hcomplete
      rw [IOModule.cs, hstate] at hcs'
      cases hcs'

theorem Agree.cs (h : Agree cnt n s t) : t.io.cs = false := by
  rw [IOModule.cs]
  rcases h.sends with hs | ⟨hs, -⟩ <;> rw [hs]

/-- What is left of two transfers at the same place. -/
theorem Agree.lines_iff {len : ℕ} (h : Agree cnt n s t) (hn : n ≤ 15) (hq : ∀ k, (inp k).Quiet)
    (hreturn : FirstReturn SpiLink.clock (fun t => t.io.cs = true) t inp len) :
    (∀ k ≤ len, (trace SpiLink.clock s inp k).lines = (trace SpiLink.clock t inp k).lines) ↔
      cnt = BitVec.ofNat 4 n := by
  have hlow : ∀ k < len, (trace SpiLink.clock t inp k).io.cs = false := by
    intro k hk
    rcases Nat.eq_zero_or_pos k with rfl | hpos
    · exact h.cs
    · exact Bool.eq_false_of_not_eq_true (hreturn.first k hpos hk)
  have hrun := h.run hn (fun k _ => hq k) hlow
  obtain ⟨d, rfl⟩ := Nat.exists_eq_add_of_le' hreturn.pos
  -- the last cycle
  have hend : Agree cnt n (trace SpiLink.clock s inp d) (trace SpiLink.clock t inp d) →
      (trace SpiLink.clock s inp (d + 1)).io.cs = (trace SpiLink.clock t inp (d + 1)).io.cs →
      (trace SpiLink.clock s inp (d + 1)).io.state = .ioComplete ∧
        (trace SpiLink.clock t inp (d + 1)).io.state = .ioComplete ∧ cnt = BitVec.ofNat 4 n := by
    intro hlast hcs
    refine (hlast.clock hn (hq d) hcs).resolve_left fun hon => ?_
    exact absurd (hon.cs.symm.trans hreturn.hit) (by decide)
  refine ⟨fun hlines => ?_, fun hcnt k hk => ?_⟩
  · have hcs : ∀ k ≤ d + 1, (trace SpiLink.clock s inp k).io.cs =
        (trace SpiLink.clock t inp k).io.cs := fun k hk => congrArg SpiLines.cs (hlines k hk)
    have hlast := hrun (fun k hk _ => hcs (k + 1) hk) d (Nat.lt_succ_self d)
    exact (hend hlast (hcs _ (Nat.le_refl _))).2.2
  · have hall := hrun fun k _ hagree => hagree.cs_clock hcnt
    rcases Nat.lt_or_eq_of_le hk with hlt | rfl
    · exact (hall k hlt).lines
    · have hlast := hall d (Nat.lt_succ_self d)
      obtain ⟨hs, ht, -⟩ := hend hlast (hlast.cs_clock hcnt)
      rw [lines_of_silent (by rw [hs]; decide), lines_of_silent (by rw [ht]; decide),
        IOModule.cs, IOModule.cs, IOModule.ioComplete, IOModule.ioComplete, hs, ht]

/-! ## The opening -/

/-- Both links wait for the clock to rise: `t` is at rest, and the master of `s` may be in the
middle of a byte, or was before the clock rose. -/
structure Opens (cnt : BitVec 4) (n : ℕ) (mid : Bool) (s t : SpiLink) : Prop where
  state : s.io.state = .ioBegin
  state' : t.io.state = .ioBegin
  inStep : InStep s t
  calm : t.Calm
  sound : s.master.Sound
  master : s.master.midByte = mid ∧ t.io.mastSpiClkRising = false ∨
    t.io.mastSpiClkRising = true ∧
      if mid then s.master.state = .msTransmitting ∨ s.master.state = .msComplete
      else s.master.state = .msIdle
  count : s.io.txByteCnt = cnt
  txByteCnt : t.io.txByteCnt = BitVec.ofNat 4 n
  txStrAddr : s.io.txStrAddr = 0 ∧ t.io.txStrAddr = 0
  txMem : ∀ j < n, s.io.txBuf.mem (BitVec.ofNat 4 j) = t.io.txBuf.mem (BitVec.ofNat 4 j)

theorem sound_clock (h : s.master.Sound) : (s.clock i).master.Sound := by
  have hsync : ∀ c, ({ s.master with misoSync := c } : SPIMaster).Sound := fun _ =>
    ⟨h.state, h.byteTxComplete⟩
  rw [SpiLink.clock_master]
  unfold spiClkEdge
  split
  · exact (hsync _).pos _
  · split
    · exact (hsync _).neg _
    · exact hsync _

/-- A cycle in which no byte is sent. -/
theorem clock_unsent (h : s.master.Sound) (hs : (s.clock i).io.state ≠ .ioSend) :
    (s.clock i).master.midByte = s.master.midByte ∧
        (s.clock i).io.mastSpiClkRising = false ∨
      (s.clock i).io.mastSpiClkRising = true ∧
        if s.master.midByte then
          (s.clock i).master.state = .msTransmitting ∨ (s.clock i).master.state = .msComplete
        else (s.clock i).master.state = .msIdle := by
  have hpast : (s.clock i).io.pMastSpiClk = s.io.mastSpiClk := IOModule.clock_divider.2.2.1
  rw [IOModule.mastSpiClkRising, hpast, SpiLink.clock_master, spiSend_of_ne hs]
  obtain ⟨m, hm⟩ : ∃ m : SPIMaster,
      m = { s.master with misoSync := s.master.misoSync.clock s.slave.negedge.miso } := ⟨_, rfl⟩
  have hsound : m.Sound := by rw [hm]; exact ⟨h.state, h.byteTxComplete⟩
  have hmid : s.master.midByte = m.midByte := by rw [hm]; rfl
  rw [← hm, hmid]
  unfold spiClkEdge
  cases s.io.mastSpiClk <;> cases (s.clock i).io.mastSpiClk
  · exact .inl ⟨rfl, rfl⟩
  · exact .inr ⟨rfl, hsound.unsent⟩
  · refine .inl ⟨?_, rfl⟩
    change (m.negSpiClk _).midByte = m.midByte
    rw [SPIMaster.midByte, SPIMaster.midByte, SPIMaster.negSpiClk_state]
  · exact .inl ⟨rfl, rfl⟩

section Opens

variable {mid : Bool} (h : Opens cnt n mid s t)
include h

theorem Opens.lines : s.lines = t.lines ∧ t.io.cs = false := by
  have hcs : t.io.cs = false := by rw [IOModule.cs, h.state']
  have hcs' : s.io.cs = false := by rw [IOModule.cs, h.state]
  refine ⟨?_, hcs⟩
  rw [lines_of_silent (by rw [h.state]; decide), lines_of_silent (by rw [h.state']; decide), hcs,
    hcs', IOModule.ioComplete, IOModule.ioComplete, h.state, h.state']

/-- A cycle without the rising edge. -/
theorem Opens.wait (hq : i.Quiet) (hrise : t.io.mastSpiClkRising = false) :
    Opens cnt n mid (s.clock i) (t.clock i) ∧ untilRise (t.clock i) < untilRise t := by
  have hs : (s.clock i).io = s.io.tick i s.masterLines :=
    IOModule.clock_begin_wait hq h.state (h.inStep.rising.trans hrise)
  have ht : (t.clock i).io = t.io.tick i t.masterLines :=
    IOModule.clock_begin_wait hq h.state' hrise
  have hstate : (s.clock i).io.state = .ioBegin := by rw [hs]; exact h.state
  have hstate' : (t.clock i).io.state = .ioBegin := by rw [ht]; exact h.state'
  have hstep : InStep (s.clock i) (t.clock i) := h.inStep.clock
  have hmid : s.master.midByte = mid := by
    rcases h.master with ⟨hmid, -⟩ | ⟨hrise', -⟩
    · exact hmid
    · rw [hrise] at hrise'
      cases hrise'
  have hmaster := clock_unsent (i := i) h.sound (by rw [hstate]; decide)
  rw [hmid, hstep.rising] at hmaster
  refine ⟨⟨hstate, hstate', hstep,
    (h.calm.clock (i := i) (.inl (spiSend_of_ne (by rw [hstate']; decide) false))).1,
    sound_clock h.sound, hmaster, by rw [hs]; exact h.count, by rw [ht]; exact h.txByteCnt,
    by rw [hs, ht]; exact h.txStrAddr, by rw [hs, ht]; exact h.txMem⟩, ?_⟩
  exact untilRise_clock h.calm.divider hrise ht

/-- The cycle in which the divided clock has risen: a master in the middle of a byte shows a
clock that the other one does not. -/
theorem Opens.rise (hpos : 0 < n) (hq : i.Quiet) (hrise : t.io.mastSpiClkRising = true) :
    (t.clock i).io.cs = false ∧
      if mid then (s.clock i).spiClk = true ∧ (t.clock i).spiClk = false
      else Agree cnt n (s.clock i) (t.clock i) := by
  have hs : (s.clock i).io = { s.io.fetch.tick i s.masterLines with state := .ioSend } :=
    IOModule.clock_begin_rise hq h.state (h.inStep.rising.trans hrise)
  have ht : (t.clock i).io = { t.io.fetch.tick i t.masterLines with state := .ioSend } :=
    IOModule.clock_begin_rise hq h.state' hrise
  have hstep : InStep (s.clock i) (t.clock i) := h.inStep.clock
  obtain ⟨hmast, hzero⟩ := h.inStep.divides.of_rising hrise
  have hmast' : (t.clock i).io.mastSpiClk = t.io.mastSpiClk :=
    IOModule.clock_divider.2.2.2.2.trans (if_neg (by rw [hzero]; decide))
  obtain ⟨hcalm, -⟩ := h.calm.clock (i := i) (.inr hmast')
  have hmaster : (s.clock i).master =
      { s.master with misoSync := s.master.misoSync.clock s.slave.negedge.miso } := by
    rw [SpiLink.clock_master, hstep.mastSpiClk, hmast', h.inStep.mastSpiClk, spiClkEdge_self]
  have hsent : (s.clock i).io.pByteSent = (s.clock i).master.byteTxComplete := by
    rw [hmaster]
    exact IOModule.clock_divider.1
  have hstage := h.master.resolve_left fun hno => by rw [hrise] at hno; cases hno.2
  have hsound := sound_clock (i := i) h.sound
  refine ⟨by rw [IOModule.cs, ht], ?_⟩
  cases mid with
  | true =>
    have hsend : (s.clock i).spiSend = false := by
      rw [spiSend, IOModule.spiSend_of_send (by rw [hs]), IOModule.byteSentFalling, hsent,
        Bool.and_not_self]
    refine ⟨?_, hcalm.spiClk⟩
    have hstates : (s.clock i).master.state = .msTransmitting ∨
        (s.clock i).master.state = .msComplete := by
      rw [hmaster]
      exact hstage.2
    rw [spiClk, hsend, SPIMaster.outSpiClk, hstep.mastSpiClk, hmast', hmast]
    rcases hstates with hst | hst <;> rw [hst] <;> rfl
  | false =>
    have hidle : (s.clock i).master.state = .msIdle := by
      rw [hmaster]
      exact hstage.2
    have hunsent : (s.clock i).master.byteTxComplete = false := by
      rw [hsound.byteTxComplete, hidle]
      rfl
    refine ⟨by rw [hs, ht], .inl (by rw [ht]), hstep, ?_, clock_sent t i, ?_,
      by rw [hs]; exact h.count, by rw [ht]; exact h.txByteCnt, ⟨0, hpos, ?_, ?_⟩, ?_, fun _ => ?_⟩
    · rw [hsent, hunsent, hcalm.pByteSent]
    · rw [hmast', hmast]
      constructor <;> simp [hidle, hunsent, hcalm.state, hcalm.byteTxComplete]
    · rw [hs]
      exact h.txStrAddr.1
    · rw [ht]
      exact h.txStrAddr.2
    · rw [hs, ht]
      exact h.txMem
    · rw [hs, ht]
      change s.io.txBuf.mem s.io.txStrAddr = t.io.txBuf.mem t.io.txStrAddr
      rw [h.txStrAddr.1, h.txStrAddr.2]
      exact h.txMem 0 hpos

/-- The clock rises, and until then the lines are alike. -/
theorem Opens.opens (hq : ∀ k, (inp k).Quiet) : ∃ w,
    Opens cnt n mid (trace SpiLink.clock s inp w) (trace SpiLink.clock t inp w) ∧
      (trace SpiLink.clock t inp w).io.mastSpiClkRising = true ∧
      ∀ j ≤ w, (trace SpiLink.clock s inp j).lines = (trace SpiLink.clock t inp j).lines ∧
        (trace SpiLink.clock t inp j).io.cs = false := by
  obtain ⟨r, hr⟩ : ∃ r, r = untilRise t := ⟨_, rfl⟩
  induction r using Nat.strongRecOn generalizing s t inp with
  | _ r ih =>
    cases hrise : t.io.mastSpiClkRising with
    | true =>
      refine ⟨0, h, hrise, fun j hj => ?_⟩
      obtain rfl : j = 0 := by omega
      exact h.lines
    | false =>
      obtain ⟨hnext, hlt⟩ := h.wait (hq 0) hrise
      obtain ⟨w, hopens, hw, hlines⟩ := ih _ (hr ▸ hlt) hnext (fun k => hq (k + 1)) rfl
      refine ⟨w + 1, ?_, ?_, fun j hj => ?_⟩
      · rw [trace_succ', trace_succ']
        exact hopens
      · rw [trace_succ']
        exact hw
      · rcases Nat.eq_zero_or_pos j with rfl | hpos
        · exact h.lines
        · obtain ⟨k, rfl⟩ := Nat.exists_eq_add_of_lt hpos
          rw [Nat.zero_add, trace_succ', trace_succ']
          exact hlines k (by omega)

/-- **Two transfers.** The lines are alike up to the end of the transfer of `t` exactly if the
master of `s` was not in the middle of a byte and the counts are the same. -/
theorem Opens.lines_iff {len : ℕ} (hpos : 0 < n) (hn : n ≤ 15) (hq : ∀ k, (inp k).Quiet)
    (hreturn : FirstReturn SpiLink.clock (fun t => t.io.cs = true) t inp len) :
    (∀ k ≤ len, (trace SpiLink.clock s inp k).lines = (trace SpiLink.clock t inp k).lines) ↔
      mid = false ∧ cnt = BitVec.ofNat 4 n := by
  obtain ⟨w, hopens, hrise, hopening⟩ := h.opens hq
  obtain ⟨hcs, hrises⟩ := hopens.rise hpos (hq w) hrise
  have hw : w + 1 < len := by
    by_contra hge
    have hhit : (trace SpiLink.clock t inp len).io.cs = true := hreturn.hit
    rcases Nat.lt_or_eq_of_le (Nat.le_of_not_lt hge) with hlt | rfl
    · rw [(hopening len (by omega)).2] at hhit
      cases hhit
    · exact absurd (hcs.symm.trans hhit) (by decide)
  obtain ⟨d, rfl⟩ := Nat.exists_eq_add_of_le (Nat.le_of_lt hw)
  cases mid with
  | true =>
    refine iff_of_false (fun hlines => ?_) fun hmid => by cases hmid.1
    have hclk : (trace SpiLink.clock s inp (w + 1)).spiClk =
        (trace SpiLink.clock t inp (w + 1)).spiClk :=
      congrArg SpiLines.spiClk (hlines (w + 1) (Nat.le_of_lt hw))
    rw [trace_succ, trace_succ, hrises.1, hrises.2] at hclk
    cases hclk
  | false =>
    -- from here on the links are at the same place
    have hagree : Agree cnt n (trace SpiLink.clock s inp (w + 1))
        (trace SpiLink.clock t inp (w + 1)) := hrises
    have hiff := hagree.lines_iff hn (fun k => hq (w + 1 + k)) (hreturn.rest (by omega))
    simp only [← trace_add] at hiff
    refine ⟨fun hlines => ⟨rfl, hiff.mp fun k hk => hlines _ (by omega)⟩, fun ⟨_, hcnt⟩ k hk => ?_⟩
    rcases Nat.lt_or_ge w k with hwk | hkw
    · obtain ⟨e, rfl⟩ := Nat.exists_eq_add_of_le (Nat.succ_le_of_lt hwk)
      exact hiff.mpr hcnt e (by omega)
    · exact (hopening k hkw).1

end Opens

end SpiLink

end RangerRisc
