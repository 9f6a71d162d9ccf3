import RangerRisc.Uart

/-! One 8N1 frame, from both ends of the line. A frame is ten symbols of 219 cycles: the
start bit, the eight bits of the byte from the lowest, the stop bit. -/

namespace RangerRisc

open PhaseAccumulator Clocked

/-! ## Sending a frame -/

namespace UARTTx

def frameState (i : ℕ) : TxState :=
  if i = 0 then .txStartBit else if i = 9 then .txStopBit else .txSending

/-- The line `j` cycles into symbol `i`. Between the bits of the byte the line is one cycle
behind the counter: `tx_bits` is shifted at the edge that still shows its old bit. -/
def frameLevel (b : Byte) (i j : ℕ) : Bool :=
  if i = 0 then false
  else if i = 9 then true
  else b.getLsbD (if j = 0 then i - 2 else i - 1)

/-- The transmitter `j` cycles into symbol `i` of the frame of `b`. -/
structure Frame (b : Byte) (i j : ℕ) (t : UARTTx) : Prop where
  state : t.state = frameState i
  baudCounter : t.baudCounter = counterAt j
  txBits : i ≤ 8 → t.txBits = b >>> (i - 1)
  bitCnt : 1 ≤ i → i ≤ 8 → t.bitCnt.toNat + i = 8
  stopBits : i = 9 → t.stopBits = STOP_BITS
  txOut : t.txOut = frameLevel b i j
  txComplete : t.txComplete = false

variable {b : Byte} {i j : ℕ} {t : UARTTx} (inp : TxInput)

theorem start_frame (ht : t.state = .txIdle) (hc : t.txComplete = false) (hen : inp.txEn = false) :
    Frame inp.txByte 0 0 (t.clock inp) := by
  constructor <;> simp [clock, ht, hc, hen, frameState, frameLevel]

theorem Frame.hold (hf : Frame b i j t) (hi : i ≤ 9) (hj : j < 218) :
    Frame b i (j + 1) (t.clock inp) := by
  have htick : baudTick t.baudCounter = false := by
    rw [hf.baudCounter, baudTick_counterAt (Nat.le_of_lt hj), decide_eq_false (Nat.ne_of_lt hj)]
  obtain ⟨hstate, hcounter, hbits, hcnt, hstop, hout, hcomplete⟩ := hf
  have h0 : i = 0 ∨ i = 9 ∨ (1 ≤ i ∧ i ≤ 8) := by omega
  rcases h0 with rfl | rfl | ⟨h1, h8⟩
  · constructor <;>
      simp_all [clock, frameState, frameLevel]
  · constructor <;>
      simp_all [clock, frameState, frameLevel, STOP_BITS]
  · have hne0 : i ≠ 0 := by omega
    have hne9 : i ≠ 9 := by omega
    constructor <;>
      simp_all [clock, frameState, frameLevel]

theorem Frame.next (hf : Frame b i 218 t) (hi : i ≤ 8) : Frame b (i + 1) 0 (t.clock inp) := by
  have htick : baudTick t.baudCounter = true := by
    rw [hf.baudCounter, baudTick_counterAt (Nat.le_refl _), decide_eq_true rfl]
  obtain ⟨hstate, hcounter, hbits, hcnt, hstop, hout, hcomplete⟩ := hf
  have h0 : i = 0 ∨ i = 8 ∨ (1 ≤ i ∧ i ≤ 7) := by omega
  rcases h0 with rfl | rfl | ⟨h1, h7⟩
  · constructor <;>
      simp_all [clock, frameState, frameLevel]
  · have hzero : t.bitCnt = 0 := BitVec.eq_of_toNat_eq
      (by simpa using hcnt (by omega) (Nat.le_refl _))
    constructor <;>
      simp_all [clock, frameState, frameLevel]
  · have hne0 : i ≠ 0 := by omega
    have hne9 : i ≠ 9 := by omega
    have hne8 : i ≠ 8 := by omega
    have hcnt' := hcnt h1 hi
    have hzero : t.bitCnt ≠ 0 := by
      intro h
      rw [h] at hcnt'
      simp at hcnt'
      omega
    have hshift : b >>> (i - 1) >>> 1 = b >>> i := by
      rw [← BitVec.shiftRight_add, Nat.sub_add_cancel h1]
    have hdec : (t.bitCnt - 1).toNat = t.bitCnt.toNat - 1 := by
      rw [BitVec.toNat_sub_of_le] <;> bv_omega
    constructor <;>
      simp_all [clock, frameState, frameLevel]
    omega

/-- A transmitter that has `m` cycles of the stop bit and of its completion left. -/
structure Closing (m : ℕ) (t : UARTTx) : Prop where
  state : t.state = if m = 2 then .txStopBit else if m = 1 then .txComplete else .txIdle
  stopBits : m = 2 → t.stopBits = 0
  txOut : t.txOut = true
  txComplete : t.txComplete = decide (m = 1)

theorem Frame.close (hf : Frame b 9 218 t) : Closing 2 (t.clock inp) := by
  have htick : baudTick t.baudCounter = true := by
    rw [hf.baudCounter, baudTick_counterAt (Nat.le_refl _), decide_eq_true rfl]
  obtain ⟨hstate, hcounter, hbits, hcnt, hstop, hout, hcomplete⟩ := hf
  constructor <;>
    simp_all [clock, frameState, frameLevel, STOP_BITS]

theorem Closing.complete (hc : Closing 2 t) : Closing 1 (t.clock inp) := by
  obtain ⟨hstate, hstop, hout, hcomplete⟩ := hc
  constructor <;> simp_all [clock]

theorem Closing.idle (hc : Closing 1 t) : Closing 0 (t.clock inp) := by
  obtain ⟨hstate, hstop, hout, hcomplete⟩ := hc
  constructor <;> simp_all [clock]

section Run
variable (inp : ℕ → TxInput)

/-- The symbols follow one another, each held for its 219 cycles. -/
theorem frame_run (h0 : Frame b 0 0 t) :
    ∀ i ≤ 9, ∀ j ≤ 218, Frame b i j (trace clock t inp (219 * i + j)) := by
  intro i
  induction i with
  | zero =>
    intro _ j
    induction j with
    | zero => exact fun _ => h0
    | succ j ih => exact fun hj => (ih (Nat.le_of_succ_le hj)).hold _ (Nat.zero_le 9) hj
  | succ i ih =>
    intro hi j
    induction j with
    | zero =>
      intro _
      have hlast := ih (Nat.le_of_succ_le hi) 218 (Nat.le_refl _)
      rw [show 219 * (i + 1) + 0 = 219 * i + 218 + 1 by omega, trace_succ]
      exact hlast.next _ (Nat.le_of_lt_succ hi)
    | succ j ihj => exact fun hj => (ihj (Nat.le_of_succ_le hj)).hold _ hi hj

/-- The line `n` cycles after the start bit began. -/
def frameLine (b : Byte) (n : ℕ) : Bool :=
  if n < 2190 then frameLevel b (n / 219) (n % 219) else true

/-- What a transmitter that begins the frame of `b` does until it is idle again. -/
structure Sends (b : Byte) (run : ℕ → UARTTx) : Prop where
  line : ∀ n ≤ 2192, (run n).txOut = frameLine b n
  busy : ∀ n < 2191, (run n).txComplete = false
  complete : (run 2191).txComplete = true
  idle : Closing 0 (run 2192)

theorem sends (h0 : Frame b 0 0 t) : Sends b (trace clock t inp) := by
  have hframe : ∀ n < 2190, Frame b (n / 219) (n % 219) (trace clock t inp n) := by
    intro n hn
    have h := frame_run inp h0 (n / 219) (by omega) (n % 219) (by omega)
    rwa [Nat.div_add_mod] at h
  have hclose : Closing 2 (trace clock t inp 2190) := by
    rw [trace_succ]
    exact (hframe 2189 (by omega)).close _
  have hcomplete : Closing 1 (trace clock t inp 2191) := by
    rw [trace_succ]
    exact hclose.complete _
  have hidle : Closing 0 (trace clock t inp 2192) := by
    rw [trace_succ]
    exact hcomplete.idle _
  refine ⟨?_, ?_, by simpa using hcomplete.txComplete, hidle⟩
  · intro n hn
    rcases Nat.lt_or_ge n 2190 with hlt | hge
    · rw [(hframe n hlt).txOut, frameLine, if_pos hlt]
    · obtain rfl | rfl | rfl : n = 2190 ∨ n = 2191 ∨ n = 2192 := by omega
      · exact hclose.txOut
      · exact hcomplete.txOut
      · exact hidle.txOut
  · intro n hn
    rcases Nat.lt_or_ge n 2190 with hlt | hge
    · exact (hframe n hlt).txComplete
    · obtain rfl : n = 2190 := by omega
      simpa using hclose.txComplete

end Run

end UARTTx

/-! ## Receiving a frame -/

namespace UARTRx

def frameState (i : ℕ) : RxState :=
  if i = 0 then .rxHalfBit else if i = 9 then .rxStopBit else .rxReceiving

/-- The receiver `j` cycles after the falling edge of a start bit. -/
structure StartBit (j : ℕ) (r : UARTRx) : Prop where
  state : r.state = .rxStartBit
  baudCounter : r.baudCounter = counterAt j
  rxComplete : r.rxComplete = false

/-- The receiver with `i` bits of `b` sampled, `j` cycles after the last of them. -/
structure Frame (b : Byte) (i j : ℕ) (r : UARTRx) : Prop where
  state : r.state = frameState i
  baudCounter : r.baudCounter = counterAt j
  bitCnt : 1 ≤ i → i ≤ 8 → r.bitCnt.toNat + i = 8
  rxBits : ∀ m < 8, m < i → r.rxBits.getLsbD (8 - i + m) = b.getLsbD m
  rxComplete : r.rxComplete = false

structure Idle (r : UARTRx) : Prop where
  state : r.state = .rxIdle
  rxComplete : r.rxComplete = false

theorem getLsbD_sampleBit (c : Bool) (bits : Byte) {m : ℕ} (hm : m < 8) :
    (sampleBit c bits).getLsbD m = if m = 7 then c else bits.getLsbD (m + 1) := by
  rw [sampleBit, BitVec.getLsbD_cons, BitVec.getLsbD_extractLsb']
  split
  · rfl
  · have hlt : m < 7 := by omega
    simp [hlt, Nat.add_comm]

variable {b : Byte} {i j : ℕ} {r : UARTRx} {inp : RxInput}

@[simp] theorem clock_rxSync (inp : RxInput) (r : UARTRx) :
    (r.clock inp).rxSync = r.rxSync.clock inp.rxIn := by
  unfold clock
  cases r.state <;> simp only [] <;> (repeat' split) <;> rfl

theorem Idle.wait (h : r.Idle) (hreset : inp.reset = true) (hfall : r.rxSync.fallingO = false) :
    (r.clock inp).Idle := by
  obtain ⟨hstate, hcomplete⟩ := h
  constructor <;> simp [clock, hstate, hcomplete, hreset, hfall]

theorem Idle.start (h : r.Idle) (hreset : inp.reset = true) (hfall : r.rxSync.fallingO = true) :
    StartBit 0 (r.clock inp) := by
  obtain ⟨hstate, hcomplete⟩ := h
  constructor <;> simp [clock, hstate, hcomplete, hreset, hfall]

theorem StartBit.hold (h : StartBit j r) (hreset : inp.reset = true) (hj : j < 109) :
    StartBit (j + 1) (r.clock inp) := by
  have htick : baudHalfTick r.baudCounter = false := by
    rw [h.baudCounter, baudHalfTick_counterAt (Nat.le_of_lt hj), decide_eq_false (Nat.ne_of_lt hj)]
  obtain ⟨hstate, hcounter, hcomplete⟩ := h
  constructor <;> simp_all [clock]

theorem StartBit.half (h : StartBit 109 r) (hreset : inp.reset = true) :
    Frame b 0 0 (r.clock inp) := by
  have htick : baudHalfTick r.baudCounter = true := by
    rw [h.baudCounter, baudHalfTick_counterAt (Nat.le_refl _), decide_eq_true rfl]
  obtain ⟨hstate, hcounter, hcomplete⟩ := h
  constructor <;> simp_all [clock, frameState]

theorem Frame.hold (hf : Frame b i j r) (hreset : inp.reset = true) (hi : i ≤ 8) (hj : j < 218) :
    Frame b i (j + 1) (r.clock inp) := by
  have htick : baudTick r.baudCounter = false := by
    rw [hf.baudCounter, baudTick_counterAt (Nat.le_of_lt hj), decide_eq_false (Nat.ne_of_lt hj)]
  obtain ⟨hstate, hcounter, hcnt, hbits, hcomplete⟩ := hf
  rcases Nat.eq_zero_or_pos i with rfl | hpos
  · constructor <;> simp_all [clock, frameState]
  · have hne0 : i ≠ 0 := by omega
    have hne9 : i ≠ 9 := by omega
    constructor <;> simp_all [clock, frameState]

theorem Frame.holdStop (hf : Frame b 9 j r) (hreset : inp.reset = true) (hj : j < 55) :
    Frame b 9 (j + 1) (r.clock inp) := by
  have htick : baudQuarterTick r.baudCounter = false := by
    rw [hf.baudCounter, baudQuarterTick_counterAt (Nat.le_of_lt hj),
      decide_eq_false (Nat.ne_of_lt hj)]
  obtain ⟨hstate, hcounter, hcnt, hbits, hcomplete⟩ := hf
  constructor <;> simp_all [clock, frameState]

/-- The tick of a bit samples it. -/
theorem Frame.sample (hf : Frame b i 218 r) (hreset : inp.reset = true) (hi : i < 8)
    (hsync : r.rxSync.syncO = b.getLsbD i) : Frame b (i + 1) 0 (r.clock inp) := by
  have htick : baudTick r.baudCounter = true := by
    rw [hf.baudCounter, baudTick_counterAt (Nat.le_refl _), decide_eq_true rfl]
  have hbits : ∀ m < 8, m < i + 1 →
      (sampleBit (b.getLsbD i) r.rxBits).getLsbD (8 - (i + 1) + m) = b.getLsbD m := by
    intro m hm hmi
    rw [getLsbD_sampleBit _ _ (by omega)]
    split
    · next h => rw [show m = i by omega]
    · next h =>
      rw [← hf.rxBits m hm (by omega)]
      congr 1
      omega
  obtain ⟨hstate, hcounter, hcnt, -, hcomplete⟩ := hf
  rcases Nat.eq_zero_or_pos i with rfl | hpos
  · constructor <;> simp_all [clock, frameState]
    exact hbits
  · have hne0 : i ≠ 0 := by omega
    have hne9 : i ≠ 9 := by omega
    have hne8 : i ≠ 8 := by omega
    have hcnt' := hcnt hpos (Nat.le_of_lt hi)
    have hzero : r.bitCnt ≠ 0 := by
      intro h
      rw [h] at hcnt'
      simp at hcnt'
      omega
    have hdec : (r.bitCnt - 1).toNat = r.bitCnt.toNat - 1 := by
      rw [BitVec.toNat_sub_of_le] <;> bv_omega
    constructor <;> simp_all [clock, frameState]
    omega

theorem Frame.stop (hf : Frame b 8 218 r) (hreset : inp.reset = true) :
    Frame b 9 0 (r.clock inp) := by
  have htick : baudTick r.baudCounter = true := by
    rw [hf.baudCounter, baudTick_counterAt (Nat.le_refl _), decide_eq_true rfl]
  have hzero : r.bitCnt = 0 :=
    BitVec.eq_of_toNat_eq (by simpa using hf.bitCnt (by omega) (Nat.le_refl _))
  obtain ⟨hstate, hcounter, hcnt, hbits, hcomplete⟩ := hf
  constructor <;> simp_all [clock, frameState]

/-- The receiver shows the byte for the one cycle of RxComplete. -/
structure Completing (b : Byte) (r : UARTRx) : Prop where
  state : r.state = .rxComplete
  rxComplete : r.rxComplete = true
  rxByte : r.rxByte = b

theorem Frame.complete (hf : Frame b 9 55 r) (hreset : inp.reset = true)
    (hsync : r.rxSync.syncO = true) : Completing b (r.clock inp) := by
  have htick : baudQuarterTick r.baudCounter = true := by
    rw [hf.baudCounter, baudQuarterTick_counterAt (Nat.le_refl _), decide_eq_true rfl]
  have hbyte : r.rxBits = b := by
    apply BitVec.eq_of_getLsbD_eq
    intro m hm
    simpa using hf.rxBits m hm (by omega)
  obtain ⟨hstate, hcounter, hcnt, hbits, hcomplete⟩ := hf
  constructor <;> simp [clock, hstate, frameState, htick, hsync, hreset, hbyte]

theorem Completing.idle (h : Completing b r) (hreset : inp.reset = true) : (r.clock inp).Idle := by
  obtain ⟨hstate, hcomplete, hbyte⟩ := h
  constructor <;> simp [clock, hstate, hreset]

/-- What a receiver in its start bit does with a line that carries `b`. -/
structure Receives (b : Byte) (run : ℕ → UARTRx) : Prop where
  busy : ∀ n < 2137, (run n).rxComplete = false
  complete : Completing b (run 2137)
  idle : (run 2138).Idle

section Run
variable {inp : ℕ → RxInput}

theorem startBit_run (hreset : ∀ n, (inp n).reset = true) (h0 : StartBit 0 r) :
    ∀ j ≤ 109, StartBit j (trace clock r inp j) := by
  intro j
  induction j with
  | zero => exact fun _ => h0
  | succ j ih => exact fun hj => (ih (Nat.le_of_succ_le hj)).hold (hreset j) hj

/-- The samples of the bits, 219 cycles apart, the first after a half and a whole bit. -/
theorem frame_run (hreset : ∀ n, (inp n).reset = true) (h0 : StartBit 0 r)
    (hsync : ∀ i < 8, (trace clock r inp (328 + 219 * i)).rxSync.syncO = b.getLsbD i) :
    ∀ i ≤ 8, ∀ j ≤ 218, Frame b i j (trace clock r inp (110 + 219 * i + j)) := by
  intro i
  induction i with
  | zero =>
    intro _ j
    induction j with
    | zero => exact fun _ => (startBit_run hreset h0 109 (Nat.le_refl _)).half (hreset 109)
    | succ j ih => exact fun hj => (ih (Nat.le_of_succ_le hj)).hold (hreset _) (Nat.zero_le 8) hj
  | succ i ih =>
    intro hi j
    induction j with
    | zero =>
      intro _
      have hlast := ih (Nat.le_of_succ_le hi) 218 (Nat.le_refl _)
      have hbit := hsync i hi
      rw [show 328 + 219 * i = 110 + 219 * i + 218 by omega] at hbit
      rw [show 110 + 219 * (i + 1) + 0 = 110 + 219 * i + 218 + 1 by omega, trace_succ]
      exact hlast.sample (hreset _) hi hbit
    | succ j ihj => exact fun hj => (ihj (Nat.le_of_succ_le hj)).hold (hreset _) hi hj

theorem stopBit_run (hreset : ∀ n, (inp n).reset = true) (h0 : Frame b 9 0 r) :
    ∀ j ≤ 55, Frame b 9 j (trace clock r inp j) := by
  intro j
  induction j with
  | zero => exact fun _ => h0
  | succ j ih => exact fun hj => (ih (Nat.le_of_succ_le hj)).holdStop (hreset j) hj

/-- **A receiver reads the byte off nine points of its line**, whatever the line does between
them. -/
theorem receives (hreset : ∀ n, (inp n).reset = true) (h0 : StartBit 0 r)
    (hsync : ∀ i < 8, (trace clock r inp (328 + 219 * i)).rxSync.syncO = b.getLsbD i)
    (hstop : (trace clock r inp 2136).rxSync.syncO = true) : Receives b (trace clock r inp) := by
  have hframe := frame_run hreset h0 hsync
  have hstop0 : Frame b 9 0 (trace clock r inp 2081) := by
    rw [trace_succ]
    exact (hframe 8 (Nat.le_refl _) 218 (Nat.le_refl _)).stop (hreset _)
  have hlast : ∀ j ≤ 55, Frame b 9 j (trace clock r inp (2081 + j)) := by
    intro j hj
    rw [trace_add]
    exact stopBit_run (fun n => hreset _) hstop0 j hj
  have hcomplete : Completing b (trace clock r inp 2137) := by
    rw [trace_succ]
    exact (hlast 55 (Nat.le_refl _)).complete (hreset _) hstop
  refine ⟨?_, hcomplete, ?_⟩
  · intro n hn
    rcases Nat.lt_or_ge n 110 with hstart | hframed
    · exact (startBit_run hreset h0 n (by omega)).rxComplete
    · rcases Nat.lt_or_ge n 2081 with hbits | hstopped
      · have h := hframe ((n - 110) / 219) (by omega) ((n - 110) % 219) (by omega)
        rw [show 110 + 219 * ((n - 110) / 219) + (n - 110) % 219 = n by omega] at h
        exact h.rxComplete
      · have h := hlast (n - 2081) (by omega)
        rw [show 2081 + (n - 2081) = n by omega] at h
        exact h.rxComplete
  · rw [trace_succ]
    exact hcomplete.idle (hreset _)

end Run

/-! ## Between the frames -/

/-- `Rx_complete` is high only while a byte is shown, or until a reset is over. -/
def Flagged (r : UARTRx) : Prop :=
  r.rxComplete = true → r.state = .rxComplete ∨ r.state = .rxReset

theorem Flagged.edge (h : r.Flagged) (inp : RxInput) : (r.clock inp).Flagged := by
  unfold Flagged at h ⊢
  unfold clock
  cases hr : inp.reset
  · exact fun _ => .inr rfl
  · cases hs : r.state <;> simp only [hs, Bool.not_true, Bool.false_eq_true, if_false] at h ⊢ <;>
      (repeat' split) <;> simp_all

theorem flagged_of_reset {inp : RxInput} (h : inp.reset = false) : (r.clock inp).Flagged :=
  fun _ => .inr (by simp [clock, h])

theorem Flagged.low (h : r.Flagged) (hr : r.rxComplete = true) (inp : RxInput) :
    (r.clock inp).rxComplete = false := by
  rcases h hr with hs | hs <;> cases hi : inp.reset <;> simp [clock, hs, hi]

/-- Nothing on the line; `reset` may be low or not. -/
structure Dormant (r : UARTRx) : Prop where
  state : r.state = .rxIdle ∨ r.state = .rxReset
  rxComplete : r.rxComplete = false
  rxSync : r.rxSync = ⟨true, true, true⟩

theorem Dormant.wait (h : r.Dormant) (hin : inp.rxIn = true) : (r.clock inp).Dormant := by
  obtain ⟨hstate, hcomplete, hsync⟩ := h
  rcases hstate with hstate | hstate <;> cases hr : inp.reset <;> constructor <;>
    simp [clock, hstate, hcomplete, hsync, hin, hr, CDCSynchron.clock, CDCSynchron.fallingO]

theorem Dormant.idle (h : r.Dormant) (hr : inp.reset = true) : (r.clock inp).Idle := by
  obtain ⟨hstate, hcomplete, hsync⟩ := h
  rcases hstate with hstate | hstate <;> constructor <;>
    simp [clock, hstate, hcomplete, hsync, hr, CDCSynchron.fallingO]

theorem Completing.dormant (h : Completing b r) (hsync : r.rxSync = ⟨true, true, true⟩)
    (hin : inp.rxIn = true) : (r.clock inp).Dormant := by
  obtain ⟨hstate, hcomplete, hbyte⟩ := h
  cases hr : inp.reset <;> constructor <;>
    simp [clock, hstate, hsync, hin, hr, CDCSynchron.clock]

theorem Completing.low (h : Completing b r) : (r.clock inp).rxComplete = false := by
  cases hr : inp.reset <;> simp [clock, h.state, hr]

/-- The flip-flops hold the last three levels of the line. -/
theorem trace_rxSync (inp : ℕ → RxInput) (n : ℕ) :
    (trace clock r inp (n + 3)).rxSync =
      ⟨(inp (n + 2)).rxIn, (inp (n + 1)).rxIn, (inp n).rxIn⟩ := by
  rw [trace_succ, clock_rxSync, trace_succ, clock_rxSync, trace_succ, clock_rxSync]
  rfl

/-- A command on the line of an idle receiver, from the first cycle of its start bit. -/
theorem receives_command {line : ℕ → Bool} (h : r.Idle) (hsync : r.rxSync = ⟨true, true, true⟩)
    (hlow : line 0 = false) (hbits : ∀ i < 8, line (329 + 219 * i) = b.getLsbD i)
    (hstop : line 2137 = true) :
    (∀ n < 2140, (trace clock r (fun n => ⟨true, line n⟩) n).rxComplete = false) ∧
      Completing b (trace clock r (fun n => ⟨true, line n⟩) 2140) := by
  have hidle₁ : (trace clock r (fun n => ⟨true, line n⟩) 1).Idle :=
    h.wait rfl (by rw [hsync]; rfl)
  have hsync₁ : (trace clock r (fun n => ⟨true, line n⟩) 1).rxSync = ⟨false, true, true⟩ := by
    rw [trace_succ, clock_rxSync, trace_zero, hsync, hlow]
    rfl
  have hidle₂ : (trace clock r (fun n => ⟨true, line n⟩) 2).Idle :=
    hidle₁.wait rfl (by rw [hsync₁]; rfl)
  have hsync₂ : (trace clock r (fun n => ⟨true, line n⟩) 2).rxSync = ⟨line 1, false, true⟩ := by
    rw [trace_succ, clock_rxSync, hsync₁]
    rfl
  have hstart : StartBit 0 (trace clock r (fun n => ⟨true, line n⟩) 3) :=
    hidle₂.start rfl (by rw [hsync₂]; rfl)
  have hshift : ∀ n, trace clock (trace clock r (fun n => ⟨true, line n⟩) 3)
      (fun n => ⟨true, line (3 + n)⟩) n = trace clock r (fun n => ⟨true, line n⟩) (3 + n) :=
    fun n => (trace_add clock r (fun n => (⟨true, line n⟩ : RxInput)) 3 n).symm
  have hlevel : ∀ n, (trace clock r (fun n => ⟨true, line n⟩) (3 + n)).rxSync.syncO =
      line (n + 1) := by
    intro n
    rw [Nat.add_comm 3 n, trace_rxSync]
    rfl
  obtain ⟨hbusy, hcomplete, _⟩ := receives (fun n => rfl) hstart
    (fun i hi => by
      rw [hshift, hlevel, show 328 + 219 * i + 1 = 329 + 219 * i by omega]
      exact hbits i hi)
    (by
      rw [hshift, hlevel]
      exact hstop)
  refine ⟨?_, ?_⟩
  · intro n hn
    rcases (by omega : n = 0 ∨ n = 1 ∨ n = 2 ∨ 3 ≤ n) with rfl | rfl | rfl | h3
    · exact h.rxComplete
    · exact hidle₁.rxComplete
    · exact hidle₂.rxComplete
    · have hlow := hbusy (n - 3) (by omega)
      rwa [hshift, Nat.add_sub_cancel' h3] at hlow
  · rwa [hshift] at hcomplete

end UARTRx

end RangerRisc
