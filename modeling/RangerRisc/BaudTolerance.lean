import Mathlib.Data.List.Basic
import RangerRisc.UartFrame

/-! The receiver on the line of a sender with a bit period of its own. The receiver counts 219
cycles a bit from the falling edge on, so the sender may be somewhat faster or slower. -/

namespace RangerRisc.UARTRx

open Clocked

/-! ## The line -/

/-- The start bit, the bits of the byte from the lowest, the stop bit. -/
def symbol (b : Byte) (i : ℕ) : Bool :=
  if i = 0 then false else if i = 9 then true else b.getLsbD (i - 1)

/-- The line of a sender with a bit period of `period` cycles. A frame is given by the cycles
that the line is idle before it and by its byte. -/
def sentLine (period : ℕ) : List (ℕ × Byte) → ℕ → Bool
  | [], _ => true
  | (gap, b) :: frames, n =>
    if n < gap then true
    else if n < gap + 10 * period then symbol b ((n - gap) / period)
    else sentLine period frames (n - (gap + 10 * period))

/-- The cycles from the start to the end of the last stop bit. -/
def duration (period : ℕ) : List (ℕ × Byte) → ℕ
  | [] => 0
  | (gap, _) :: frames => gap + 10 * period + duration period frames

/-- The byte that is shown complete. -/
def pulse (r : UARTRx) : Option Byte := if r.rxComplete then some r.rxByte else none

/-- One pulse in each frame, 2140 cycles after the start bit began. -/
def expectedPulse (period : ℕ) : List (ℕ × Byte) → ℕ → Option Byte
  | [], _ => none
  | (gap, b) :: frames, n =>
    if n < gap + 10 * period then if n = gap + 2140 then some b else none
    else expectedPulse period frames (n - (gap + 10 * period))

/-! ## A frame -/

/-- Idle on a line that has been high for as long as the synchroniser sees. -/
structure Resting (r : UARTRx) : Prop where
  idle : r.Idle
  rxSync : r.rxSync = ⟨true, true, true⟩

variable {period : ℕ} {b : Byte} {r : UARTRx} {line : ℕ → Bool}

theorem Resting.pulse (h : r.Resting) : r.pulse = none := by
  rw [UARTRx.pulse, h.idle.rxComplete]
  rfl

theorem Resting.wait (h : r.Resting) : (r.clock ⟨true, true⟩).Resting := by
  refine ⟨h.idle.wait rfl (by rw [h.rxSync]; rfl), ?_⟩
  rw [clock_rxSync, h.rxSync]
  rfl

theorem Resting.gap (h : r.Resting) {gap : ℕ} (hline : ∀ n < gap, line n = true) :
    ∀ n ≤ gap, (trace clock r (fun n => ⟨true, line n⟩) n).Resting :=
  trace_invariant_until h fun k hk hrest => by
    rw [trace_succ, hline k hk]
    exact hrest.wait

/-- Every sample falls into its own bit, and the completion into the stop bit. -/
theorem Resting.completes (h : r.Resting) (hlow : 215 ≤ period) (hhigh : period ≤ 230)
    (hline : ∀ n < 10 * period, line n = symbol b (n / period)) :
    (∀ n < 2140, (trace clock r (fun n => ⟨true, line n⟩) n).rxComplete = false) ∧
      Completing b (trace clock r (fun n => ⟨true, line n⟩) 2140) := by
  have hsymbol : ∀ i < 10, ∀ n, period * i ≤ n → n < period * (i + 1) → line n = symbol b i := by
    intro i hi n hn hn'
    have hle : period * (i + 1) ≤ period * 10 := Nat.mul_le_mul_left period hi
    rw [hline n (by omega), Nat.div_eq_of_lt_le (by rwa [Nat.mul_comm]) (by rwa [Nat.mul_comm])]
  refine receives_command h.idle h.rxSync ?_ ?_ ?_
  · exact hsymbol 0 (by decide) 0 (by omega) (by omega)
  · intro i hi
    have hbit : symbol b (i + 1) = b.getLsbD i := by
      rw [symbol, if_neg (Nat.succ_ne_zero i), if_neg (by omega), Nat.add_sub_cancel]
    have hupper : period * (i + 1) ≤ 230 * (i + 1) := Nat.mul_le_mul_right _ hhigh
    have hlower : 215 * (i + 1 + 1) ≤ period * (i + 1 + 1) := Nat.mul_le_mul_right _ hlow
    rw [hsymbol (i + 1) (by omega) _ (by omega) (by omega), hbit]
  · exact hsymbol 9 (by decide) 2137 (by omega) (by omega)

/-- **One frame**: one pulse, and the receiver is ready for the next frame as soon as the line
may carry it. -/
theorem Resting.frame (h : r.Resting) (hlow : 215 ≤ period) (hhigh : period ≤ 230)
    (hline : ∀ n < 10 * period, line n = symbol b (n / period)) :
    (∀ n < 10 * period, (trace clock r (fun n => ⟨true, line n⟩) n).pulse =
      if n = 2140 then some b else none) ∧
      (trace clock r (fun n => ⟨true, line n⟩) (10 * period)).Resting := by
  obtain ⟨hquiet, hcomplete⟩ := h.completes hlow hhigh hline
  have hstop : ∀ n, 9 * period ≤ n → n < 10 * period → line n = true := by
    intro n hn hn'
    rw [hline n hn', Nat.div_eq_of_lt_le (k := 9) hn hn']
    rfl
  have hidle : (trace clock r (fun n => ⟨true, line n⟩) 2141).Resting := by
    refine ⟨?_, ?_⟩
    · rw [trace_succ]
      exact hcomplete.idle rfl
    · rw [trace_rxSync, hstop 2138 (by omega) (by omega), hstop 2139 (by omega) (by omega),
        hstop 2140 (by omega) (by omega)]
  have hrest : ∀ n, 2141 ≤ n → n ≤ 10 * period →
      (trace clock r (fun n => ⟨true, line n⟩) n).Resting := by
    intro n hn hn'
    have hhigh : ∀ k < 10 * period - 2141, line (2141 + k) = true :=
      fun k hk => hstop _ (by omega) (by omega)
    have hgap := hidle.gap hhigh (n - 2141) (by omega)
    rwa [← trace_add clock r (fun n => (⟨true, line n⟩ : RxInput)) 2141, Nat.add_sub_cancel' hn]
      at hgap
  refine ⟨fun n hn => ?_, hrest _ (by omega) (Nat.le_refl _)⟩
  rcases Nat.lt_trichotomy n 2140 with hlt | rfl | hgt
  · rw [UARTRx.pulse, hquiet n hlt, if_neg (Nat.ne_of_lt hlt)]
    rfl
  · rw [UARTRx.pulse, hcomplete.rxComplete, hcomplete.rxByte]
    rfl
  · rw [(hrest n hgt (Nat.le_of_lt hn)).pulse, if_neg (Nat.ne_of_gt hgt)]

/-! ## A sequence of frames -/

/-- A run goes on with the rest of its line. -/
theorem trace_shift (r : UARTRx) (line : ℕ → Bool) (m n : ℕ) :
    trace clock (trace clock r (fun n => ⟨true, line n⟩) m) (fun n => ⟨true, line (m + n)⟩) n =
      trace clock r (fun n => ⟨true, line n⟩) (m + n) :=
  (trace_add clock r (fun n => (⟨true, line n⟩ : RxInput)) m n).symm

theorem pulse_run (hlow : 215 ≤ period) (hhigh : period ≤ 230) (frames : List (ℕ × Byte))
    (h : r.Resting) (n : ℕ) :
    (trace clock r (fun n => ⟨true, sentLine period frames n⟩) n).pulse =
      expectedPulse period frames n := by
  induction frames generalizing r n with
  | nil =>
    have hidle : ∀ k < n, sentLine period [] k = true := fun _ _ => rfl
    exact (h.gap hidle n (Nat.le_refl n)).pulse
  | cons frame frames ih =>
    obtain ⟨gap, b⟩ := frame
    have hgap : ∀ n ≤ gap,
        (trace clock r (fun n => ⟨true, sentLine period ((gap, b) :: frames) n⟩) n).Resting :=
      h.gap fun n hn => if_pos hn
    have hline : ∀ n < 10 * period,
        sentLine period ((gap, b) :: frames) (gap + n) = symbol b (n / period) := by
      intro n hn
      rw [sentLine, if_neg (by omega), if_pos (by omega), Nat.add_sub_cancel_left]
    have hrest : ∀ n, sentLine period ((gap, b) :: frames) (gap + 10 * period + n) =
        sentLine period frames n := by
      intro n
      rw [sentLine, if_neg (by omega), if_neg (by omega), Nat.add_sub_cancel_left]
    obtain ⟨hpulse, hready⟩ := (hgap gap (Nat.le_refl gap)).frame hlow hhigh hline
    simp only [trace_shift] at hpulse hready
    rw [expectedPulse]
    rcases Nat.lt_or_ge n (gap + 10 * period) with hlt | hge
    · rw [if_pos hlt]
      rcases Nat.lt_or_ge n gap with hbefore | hframe
      · rw [(hgap n (Nat.le_of_lt hbefore)).pulse, if_neg (by omega)]
      · obtain ⟨k, rfl⟩ := Nat.exists_eq_add_of_le hframe
        rw [hpulse k (by omega)]
        simp only [Nat.add_left_cancel_iff]
    · obtain ⟨k, rfl⟩ := Nat.exists_eq_add_of_le hge
      rw [if_neg (by omega), Nat.add_sub_cancel_left, ← ih hready k,
        ← trace_shift r _ (gap + 10 * period) k]
      simp only [hrest]

theorem pulses_before (b : Byte) (c m : ℕ) :
    ((List.range m).flatMap fun n => (if n = c then some b else none).toList) =
      if c < m then [b] else [] := by
  induction m with
  | zero => rfl
  | succ m ih =>
    rw [List.range_succ, List.flatMap_append, ih, List.flatMap_singleton]
    rcases Nat.lt_trichotomy c m with hlt | rfl | hgt
    · rw [if_pos hlt, if_neg (Nat.ne_of_gt hlt), if_pos (Nat.lt_succ_of_lt hlt)]
      rfl
    · rw [if_neg (Nat.lt_irrefl c), if_pos rfl, if_pos (Nat.lt_succ_self c)]
      rfl
    · rw [if_neg (Nat.not_lt_of_gt hgt), if_neg (Nat.ne_of_lt hgt), if_neg (by omega)]
      rfl

/-- The expected pulses are those of the bytes in their order. -/
theorem expectedPulse_bytes (hlow : 215 ≤ period) (frames : List (ℕ × Byte)) {n : ℕ}
    (hn : duration period frames ≤ n) :
    ((List.range n).flatMap fun k => (expectedPulse period frames k).toList) =
      frames.map Prod.snd := by
  induction frames generalizing n with
  | nil => exact List.flatMap_eq_nil_iff.mpr fun _ _ => rfl
  | cons frame frames ih =>
    obtain ⟨gap, b⟩ := frame
    have hsum : gap + 10 * period + duration period frames ≤ n := hn
    obtain ⟨m, rfl⟩ := Nat.exists_eq_add_of_le (Nat.le_trans (Nat.le_add_right _ _) hsum)
    have hfirst : ((List.range (gap + 10 * period)).flatMap fun k =>
        (expectedPulse period ((gap, b) :: frames) k).toList) = [b] := by
      have hone := pulses_before b (gap + 2140) (gap + 10 * period)
      rw [if_pos (by omega)] at hone
      rw [← hone]
      refine List.flatMap_congr fun k hk => ?_
      rw [expectedPulse, if_pos (List.mem_range.mp hk)]
    rw [List.range_add, List.flatMap_append, hfirst, List.flatMap_map, List.map_cons,
      List.singleton_append, ← ih (Nat.le_of_add_le_add_left hsum)]
    refine congrArg (b :: ·) (List.flatMap_congr fun k _ => ?_)
    rw [expectedPulse, if_neg (by omega), Nat.add_sub_cancel_left]

/-- **Baud tolerance.** With a bit period of 215 to 230 cycles the receiver shows every byte
complete for one cycle, in its frame, and shows nothing else. -/
theorem baud_tolerance (hlow : 215 ≤ period) (hhigh : period ≤ 230) (h0 : r.Idle)
    (hsync : r.rxSync = ⟨true, true, true⟩) (frames : List (ℕ × Byte)) :
    (∀ n, (trace clock r (fun n => ⟨true, sentLine period frames n⟩) n).pulse =
      expectedPulse period frames n) ∧
      ∀ n, duration period frames ≤ n →
        emitted clock r (fun n => ⟨true, sentLine period frames n⟩) (fun _ r => r.pulse.toList) n =
          frames.map Prod.snd := by
  have hpulse := pulse_run hlow hhigh frames ⟨h0, hsync⟩
  refine ⟨hpulse, fun n hn => ?_⟩
  rw [emitted_eq_flatMap, ← expectedPulse_bytes hlow frames hn]
  simp only [hpulse]

/-- An idle receiver. -/
def waiting : UARTRx where
  rxSync := ⟨true, true, true⟩
  state := .rxIdle
  baudCounter := 0
  bitCnt := 0
  rxBits := 0
  rxByte := 0
  rxComplete := false

/-- Three bytes of the slowest sender, the first two back to back. -/
theorem baud_tolerance_slowest :
    (∀ n, (trace clock waiting
        (fun n => ⟨true, sentLine 230 [(7, 0x55), (0, 0x80), (1000, 0x3A)] n⟩) n).pulse =
      expectedPulse 230 [(7, 0x55), (0, 0x80), (1000, 0x3A)] n) ∧
      ∀ n, duration 230 [(7, 0x55), (0, 0x80), (1000, 0x3A)] ≤ n →
        emitted clock waiting
          (fun n => ⟨true, sentLine 230 [(7, 0x55), (0, 0x80), (1000, 0x3A)] n⟩)
          (fun _ r => r.pulse.toList) n = [0x55, 0x80, 0x3A] :=
  baud_tolerance (by decide) (by decide) ⟨rfl, rfl⟩ rfl [(7, 0x55), (0, 0x80), (1000, 0x3A)]

end RangerRisc.UARTRx
