import RangerRisc.BaudTolerance

/-! The receiver on any line at all. A reader that looks at the line alone says which bytes are on
it and where they begin; the receiver shows what this reader reads, and nothing else. -/

namespace RangerRisc.UARTRx

open Clocked

/-! ## The reader -/

inductive Reading where
  | listening
  | inFrame (start : ℕ)
  | showing (b : Byte)

def Reading.shown : Reading → Option Byte
  | .showing b => some b
  | _ => none

theorem Reading.eq_of_shown {p : Reading} {b : Byte} (h : p.shown = some b) : p = .showing b := by
  cases p with
  | showing b' => rw [Option.some.inj h]
  | listening => cases h
  | inFrame start => cases h

section Reader
variable (line : ℕ → Bool)

def fallsAt (n : ℕ) : Bool := !line n && (n == 0 || line (n - 1))

/-- The cycle that sample `i` of a frame is taken from. -/
def sampleAt (start i : ℕ) : ℕ := start + 329 + 219 * i

/-- The byte of the frame that begins at `start`, off eight points of the line. -/
def byteAt (start : ℕ) : Byte :=
  BitVec.ofBoolListLE [line (sampleAt start 0), line (sampleAt start 1), line (sampleAt start 2),
    line (sampleAt start 3), line (sampleAt start 4), line (sampleAt start 5),
    line (sampleAt start 6), line (sampleAt start 7)]

/-- The stop bit is looked for from a quarter of a symbol after the last tick on, and, as the
counter runs on, in every other quarter only. -/
def stopAt (start n : ℕ) : Bool :=
  decide (start + 2082 ≤ n) && baudQuarterTick (counterAt (n - (start + 2082))) && line n

/-- Where the reader is after `n` cycles of the line. In the cycle after the stop bit it does not
look at the line. -/
def reading : ℕ → Reading
  | 0 => .listening
  | n + 1 =>
    match reading n with
    | .listening => if fallsAt line n then .inFrame n else .listening
    | .inFrame start =>
      if stopAt line start n then .showing (byteAt line start) else .inFrame start
    | .showing _ => .listening

variable {line}

theorem getLsbD_byteAt {start i : ℕ} (hi : i < 8) :
    (byteAt line start).getLsbD i = line (sampleAt start i) := by
  rw [byteAt, BitVec.getLsbD_ofBoolListLE]
  obtain rfl | rfl | rfl | rfl | rfl | rfl | rfl | rfl :
    i = 0 ∨ i = 1 ∨ i = 2 ∨ i = 3 ∨ i = 4 ∨ i = 5 ∨ i = 6 ∨ i = 7 := by omega
  all_goals rfl

/-- A frame began with a falling edge that the reader was listening for, and lasts since then. -/
theorem inFrame_start {n start : ℕ} (h : reading line n = .inFrame start) :
    start < n ∧ fallsAt line start = true ∧ ∀ k, start < k → k ≤ n →
      reading line k = .inFrame start := by
  induction n with
  | zero => cases h
  | succ n ih =>
    have hlast : ∀ k, k = n + 1 → reading line k = .inFrame start := fun k hk => hk ▸ h
    rw [reading] at h
    cases hn : reading line n with
    | listening =>
      rw [hn] at h
      dsimp only at h
      split at h
      · next hfall =>
        obtain rfl := Reading.inFrame.inj h
        exact ⟨Nat.lt_succ_self _, hfall, fun k hk hkn => hlast k (by omega)⟩
      · cases h
    | inFrame start' =>
      rw [hn] at h
      dsimp only at h
      split at h
      · cases h
      · cases h
        obtain ⟨hlt, hfall, hsince⟩ := ih hn
        refine ⟨Nat.lt_succ_of_lt hlt, hfall, fun k hk hkn => ?_⟩
        rcases Nat.lt_or_ge n k with hge | hle
        · exact hlast k (by omega)
        · exact hsince k hk hle
    | showing b =>
      rw [hn] at h
      cases h

/-- What is shown was on the line: a falling edge, the bits at their samples, a stop bit. -/
theorem showing_start {n : ℕ} {b : Byte} (h : reading line (n + 1) = .showing b) :
    ∃ start, start + 2137 ≤ n ∧ fallsAt line start = true ∧ b = byteAt line start ∧
      line n = true ∧ ∀ k, start < k → k ≤ n → reading line k = .inFrame start := by
  rw [reading] at h
  cases hn : reading line n with
  | listening =>
    rw [hn] at h
    dsimp only at h
    split at h <;> cases h
  | inFrame start =>
    rw [hn] at h
    dsimp only at h
    split at h
    · next hstop =>
      cases h
      obtain ⟨-, hfall, hsince⟩ := inFrame_start hn
      rw [stopAt, Bool.and_eq_true, Bool.and_eq_true, decide_eq_true_eq] at hstop
      obtain ⟨⟨hle, htick⟩, hhigh⟩ := hstop
      refine ⟨start, ?_, hfall, rfl, hhigh, hsince⟩
      by_contra hearly
      rw [baudQuarterTick_counterAt (by omega), decide_eq_true_eq] at htick
      omega
    · cases h
  | showing b' =>
    rw [hn] at h
    cases h

end Reader

/-! ## The receiver in a frame -/

/-- The receiver `j` cycles after it has seen the start bit of a frame of `b`. -/
inductive InFrame (b : Byte) : ℕ → UARTRx → Prop
  | start {j : ℕ} {r : UARTRx} (h : StartBit j r) (hj : j ≤ 109) : InFrame b j r
  | bit {i j : ℕ} {r : UARTRx} (h : Frame b i j r) (hi : i ≤ 8) (hj : j ≤ 218) :
      InFrame b (110 + 219 * i + j) r
  | stop {j : ℕ} {r : UARTRx} (h : Frame b 9 j r) : InFrame b (2081 + j) r

section Edge
variable {b : Byte} {j : ℕ} {r : UARTRx} {inp : RxInput}

theorem InFrame.rxComplete (h : InFrame b j r) : r.rxComplete = false := by
  cases h with
  | start h _ => exact h.rxComplete
  | bit h _ _ => exact h.rxComplete
  | stop h => exact h.rxComplete

theorem Frame.stopState (h : Frame b 9 j r) : r.state = .rxStopBit := h.state

/-- The stop bit has not been seen. -/
theorem Frame.wait (h : Frame b 9 j r) (hreset : inp.reset = true)
    (hstop : (baudQuarterTick (counterAt j) && r.rxSync.syncO) = false) :
    Frame b 9 (j + 1) (r.clock inp) := by
  rw [← h.baudCounter] at hstop
  have hclock : r.clock inp =
      { r with
        rxSync := r.rxSync.clock inp.rxIn, baudCounter := r.baudCounter + COUNT_INC
        rxByte := r.rxBits } := by
    simp only [clock, h.stopState, hstop, hreset, Bool.not_true, Bool.false_eq_true, if_false]
  rw [hclock]
  exact ⟨h.state, by rw [← counterAt_succ, ← h.baudCounter], h.bitCnt, h.rxBits, h.rxComplete⟩

theorem Frame.show (h : Frame b 9 j r) (hreset : inp.reset = true)
    (hstop : (baudQuarterTick (counterAt j) && r.rxSync.syncO) = true) :
    Completing b (r.clock inp) := by
  rw [← h.baudCounter] at hstop
  have hbyte : r.rxBits = b := by
    apply BitVec.eq_of_getLsbD_eq
    intro m hm
    simpa using h.rxBits m hm (by omega)
  constructor <;> simp [clock, h.stopState, hstop, hreset, hbyte]

/-- One edge of a frame that is not over. -/
theorem InFrame.edge (h : InFrame b j r) (hreset : inp.reset = true)
    (hbit : ∀ i < 8, j = 328 + 219 * i → r.rxSync.syncO = b.getLsbD i)
    (hstop : 2081 ≤ j → (baudQuarterTick (counterAt (j - 2081)) && r.rxSync.syncO) = false) :
    InFrame b (j + 1) (r.clock inp) := by
  cases h with
  | start h hj =>
    rcases Nat.lt_or_eq_of_le hj with hlt | rfl
    · exact .start (h.hold hreset hlt) hlt
    · exact .bit (i := 0) (j := 0) (h.half hreset) (Nat.zero_le 8) (Nat.zero_le 218)
  | @bit i j _ h hi hj =>
    rcases Nat.lt_or_eq_of_le hj with hlt | rfl
    · exact .bit (h.hold hreset hi hlt) hi hlt
    · rcases Nat.lt_or_eq_of_le hi with hlast | rfl
      · have hnext := h.sample hreset hlast (hbit i hlast (by omega))
        have hframe : InFrame b (110 + 219 * (i + 1) + 0) (r.clock inp) :=
          .bit hnext hlast (Nat.zero_le 218)
        rwa [show 110 + 219 * (i + 1) + 0 = 110 + 219 * i + 218 + 1 by omega] at hframe
      · exact .stop (j := 0) (h.stop hreset)
  | @stop j _ h =>
    refine .stop (h.wait hreset ?_)
    rw [← hstop (Nat.le_add_right 2081 j), Nat.add_sub_cancel_left]

theorem InFrame.complete (h : InFrame b j r) (hreset : inp.reset = true) (hj : 2081 ≤ j)
    (hstop : (baudQuarterTick (counterAt (j - 2081)) && r.rxSync.syncO) = true) :
    Completing b (r.clock inp) := by
  cases h with
  | start h hstart => omega
  | bit h hi hbit => omega
  | stop h =>
    rw [Nat.add_sub_cancel_left] at hstop
    exact h.show hreset hstop

end Edge

/-! ## The receiver follows the reader -/

/-- The receiver, two cycles behind a reader that has seen `n` cycles. -/
def Reading.Follows (line : ℕ → Bool) (n : ℕ) (r : UARTRx) : Reading → Prop
  | .listening => r.Idle
  | .inFrame start => start < n ∧ InFrame (byteAt line start) (n - start - 1) r
  | .showing b => Completing b r

section Run
variable {r : UARTRx} {line : ℕ → Bool}

theorem Reading.Follows.pulse {n : ℕ} {p : Reading} (h : p.Follows line n r) :
    r.pulse = p.shown := by
  cases p with
  | listening =>
    rw [UARTRx.pulse, Idle.rxComplete h]
    rfl
  | inFrame start =>
    rw [UARTRx.pulse, h.2.rxComplete]
    rfl
  | showing b =>
    rw [UARTRx.pulse, Completing.rxComplete h, Completing.rxByte h]
    rfl

/-- The synchroniser at the cycle at which the receiver sees level `n` of the line. -/
theorem Resting.trace_rxSync (h : r.Resting) (n : ℕ) :
    (trace clock r (fun n => ⟨true, line n⟩) (n + 2)).rxSync =
      ⟨line (n + 1), line n, n == 0 || line (n - 1)⟩ := by
  cases n with
  | zero =>
    rw [trace_succ, clock_rxSync, trace_succ, clock_rxSync, trace_zero, h.rxSync]
    rfl
  | succ n =>
    rw [UARTRx.trace_rxSync]
    rfl

/-- **The receiver follows the reader** in every cycle. -/
theorem Resting.follows (h : r.Resting) (n : ℕ) :
    (reading line n).Follows line n (trace clock r (fun n => ⟨true, line n⟩) (n + 2)) := by
  induction n with
  | zero =>
    have hquiet : ∀ r' : UARTRx, r'.rxSync.bit1 = true → r'.rxSync.fallingO = false := by
      intro r' hr
      rw [CDCSynchron.fallingO, hr, Bool.not_true, Bool.and_false]
    have hone : (trace clock r (fun n => ⟨true, line n⟩) 1).Idle :=
      h.idle.wait rfl (hquiet r (by rw [h.rxSync]))
    exact hone.wait rfl (hquiet _ (by rw [trace_succ, clock_rxSync, trace_zero, h.rxSync]; rfl))
  | succ n ih =>
    have hsync : (trace clock r (fun n => ⟨true, line n⟩) (n + 2)).rxSync =
      ⟨line (n + 1), line n, n == 0 || line (n - 1)⟩ := h.trace_rxSync n
    rw [Nat.add_right_comm, trace_succ, reading]
    revert ih hsync
    generalize trace clock r (fun n => ⟨true, line n⟩) (n + 2) = r'
    intro ih hsync
    have hlevel : r'.rxSync.syncO = line n := by
      rw [hsync]
      rfl
    have hfall : r'.rxSync.fallingO = fallsAt line n := by
      rw [hsync]
      exact Bool.and_comm _ _
    cases hn : reading line n with
    | listening =>
      rw [hn] at ih
      dsimp only
      split
      · next hstart =>
        refine ⟨Nat.lt_succ_self n, ?_⟩
        rw [Nat.add_sub_cancel_left]
        exact .start (Idle.start ih rfl (hfall.trans hstart)) (Nat.zero_le 109)
      · next hstart => exact Idle.wait ih rfl (by rw [hfall, Bool.eq_false_iff.mpr hstart])
    | inFrame start =>
      rw [hn] at ih
      obtain ⟨hlt, hframe⟩ := ih
      have hwhen : n - start - 1 - 2081 = n - (start + 2082) := by omega
      dsimp only
      split
      · next hstop =>
        rw [stopAt, Bool.and_eq_true, Bool.and_eq_true, decide_eq_true_eq] at hstop
        obtain ⟨⟨hle, htick⟩, hhigh⟩ := hstop
        refine hframe.complete rfl (by omega) ?_
        rw [hwhen, htick, hlevel, hhigh]
        rfl
      · next hstop =>
        refine ⟨Nat.lt_succ_of_lt hlt, ?_⟩
        rw [show n + 1 - start - 1 = n - start - 1 + 1 by omega]
        refine hframe.edge rfl (fun i hi hj => ?_) fun hj => ?_
        · rw [hlevel, getLsbD_byteAt hi, sampleAt, show n = start + 329 + 219 * i by omega]
        · rw [hwhen, hlevel]
          rw [stopAt, decide_eq_true (show start + 2082 ≤ n by omega), Bool.true_and] at hstop
          exact Bool.eq_false_iff.mpr hstop
    | showing b =>
      rw [hn] at ih
      exact Completing.idle ih rfl

/-- Nothing is shown before the reader can have seen a frame. -/
theorem Resting.three_le (h : r.Resting) {n : ℕ} {b : Byte}
    (hshown : (trace clock r (fun n => ⟨true, line n⟩) n).pulse = some b) : ∃ k, n = k + 3 := by
  have hone : (trace clock r (fun n => ⟨true, line n⟩) 1).Idle :=
    h.idle.wait rfl (by rw [h.rxSync]; rfl)
  obtain rfl | rfl | rfl | hthree : n = 0 ∨ n = 1 ∨ n = 2 ∨ 3 ≤ n := by omega
  · rw [trace_zero, h.pulse] at hshown
    cases hshown
  · rw [UARTRx.pulse, hone.rxComplete] at hshown
    cases hshown
  · rw [(h.follows 0).pulse] at hshown
    cases hshown
  · exact ⟨n - 3, by omega⟩

theorem Resting.pulse_eq (h : r.Resting) (n : ℕ) :
    (trace clock r (fun n => ⟨true, line n⟩) (n + 2)).pulse = (reading line n).shown :=
  (h.follows n).pulse

end Run

/-- **The receiver is the reader**, two cycles late, whatever the line does. -/
theorem reads_line {r : UARTRx} (h0 : r.Idle) (hsync : r.rxSync = ⟨true, true, true⟩)
    (line : ℕ → Bool) (n : ℕ) :
    (trace clock r (fun n => ⟨true, line n⟩) (n + 2)).pulse = (reading line n).shown :=
  Resting.pulse_eq ⟨h0, hsync⟩ n

/-- A byte on the line at the nominal rate. -/
theorem reads_line_frame : (reading (sentLine 219 [(0, 0x55)]) 2138).shown = some 0x55 :=
  (reads_line (r := waiting) ⟨rfl, rfl⟩ rfl (sentLine 219 [(0, 0x55)]) 2138).symm.trans
    ((pulse_run (by decide) (by decide) [(0, 0x55)] ⟨⟨rfl, rfl⟩, rfl⟩ 2140).trans (by decide))

/-- **No byte is made up.** A byte that is shown was on the line: a falling edge, then its bits 219
cycles apart, then a stop bit three cycles before it is shown. Nothing else is shown from that
falling edge on, so each frame is shown once. -/
theorem shown_on_line {r : UARTRx} (h0 : r.Idle) (hsync : r.rxSync = ⟨true, true, true⟩)
    {line : ℕ → Bool} {n : ℕ} {b : Byte}
    (hshown : (trace clock r (fun n => ⟨true, line n⟩) n).pulse = some b) :
    ∃ start stop, n = stop + 3 ∧ start + 2137 ≤ stop ∧
      line start = false ∧ (start = 0 ∨ line (start - 1) = true) ∧
      (∀ i < 8, line (start + 329 + 219 * i) = b.getLsbD i) ∧ line stop = true ∧
      ∀ m, start + 3 ≤ m → m < n → (trace clock r (fun n => ⟨true, line n⟩) m).pulse = none := by
  have hrest : r.Resting := ⟨h0, hsync⟩
  obtain ⟨k, rfl⟩ := hrest.three_le hshown
  rw [show k + 3 = k + 1 + 2 by omega, hrest.pulse_eq] at hshown
  obtain ⟨start, hle, hfall, rfl, hhigh, hsince⟩ := showing_start (Reading.eq_of_shown hshown)
  rw [fallsAt, Bool.and_eq_true, Bool.or_eq_true, Bool.not_eq_true', beq_iff_eq] at hfall
  refine ⟨start, k, rfl, hle, hfall.1, hfall.2, fun i hi => (getLsbD_byteAt hi).symm, hhigh, ?_⟩
  intro m hm hmk
  obtain ⟨m, rfl⟩ : ∃ m', m = m' + 2 := ⟨m - 2, by omega⟩
  rw [hrest.pulse_eq, hsince m (by omega) (by omega)]
  rfl

/-- The same byte. -/
theorem shown_on_line_frame :
    ∃ start stop, 2140 = stop + 3 ∧ start + 2137 ≤ stop ∧
      sentLine 219 [(0, 0x55)] start = false ∧
      (start = 0 ∨ sentLine 219 [(0, 0x55)] (start - 1) = true) ∧
      (∀ i < 8, sentLine 219 [(0, 0x55)] (start + 329 + 219 * i) = (0x55 : Byte).getLsbD i) ∧
      sentLine 219 [(0, 0x55)] stop = true ∧
      ∀ m, start + 3 ≤ m → m < 2140 →
        (trace clock waiting (fun n => ⟨true, sentLine 219 [(0, 0x55)] n⟩) m).pulse = none :=
  shown_on_line (r := waiting) ⟨rfl, rfl⟩ rfl
    ((pulse_run (by decide) (by decide) [(0, 0x55)] ⟨⟨rfl, rfl⟩, rfl⟩ 2140).trans (by decide))

end RangerRisc.UARTRx
