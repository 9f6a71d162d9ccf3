import RangerRisc.BaudTolerance

/-! The receiver after noise. Whatever its line did since the reset, a line that is high for 2141
cycles, less than a frame of 219 cycles a bit, leaves the receiver ready for the next start bit. -/

namespace RangerRisc.UARTRx

open Clocked PhaseAccumulator

variable {r : UARTRx}

theorem Flagged.run (h : r.Flagged) (inp : ℕ → RxInput) (n : ℕ) :
    (trace clock r inp n).Flagged := by
  refine trace_invariant h (fun n hn => ?_) n
  rw [trace_succ]
  exact Flagged.edge hn _

theorem flagged_run {inp : ℕ → RxInput} {k t : ℕ} (hk : k < t) (hreset : (inp k).reset = false) :
    (trace clock r inp t).Flagged := by
  obtain ⟨d, rfl⟩ := Nat.exists_eq_add_of_lt hk
  rw [Nat.add_right_comm, trace_add]
  exact Flagged.run (flagged_of_reset hreset) _ d

/-! ## How far the receiver is from the end of a frame -/

/-- The edges until a frame is over, when the line stays high. -/
def remaining (r : UARTRx) : ℕ :=
  match r.state with
  | .rxReset | .rxIdle | .rxComplete => 0
  | .rxStopBit => untilTick COUNT_INC 14 r.baudCounter + 1
  | .rxReceiving => untilTick COUNT_INC 16 r.baudCounter + 219 * r.bitCnt.toNat + 57
  | .rxHalfBit => untilTick COUNT_INC 16 r.baudCounter + 1809
  | .rxStartBit => untilTick COUNT_INC 15 r.baudCounter + 2028

theorem remaining_le (r : UARTRx) : r.remaining ≤ 2137 := by
  have h14 : untilTick COUNT_INC 14 r.baudCounter ≤ 55 := untilTick_le_wait 14 _
  have h15 : untilTick COUNT_INC 15 r.baudCounter ≤ 109 := untilTick_le_wait 15 _
  have h16 : untilTick COUNT_INC 16 r.baudCounter ≤ 218 := untilTick_le_wait 16 _
  have hcnt : r.bitCnt.toNat < 8 := r.bitCnt.isLt
  unfold remaining
  cases r.state <;> simp only [] <;> omega

/-- On a high line every edge ends the frame or comes nearer to its end. -/
theorem resting_or_nearer (h : r.Flagged) (hsync : r.rxSync = ⟨true, true, true⟩) :
    (r.clock ⟨true, true⟩).Resting ∨ (r.clock ⟨true, true⟩).remaining < r.remaining := by
  have hsync' : (r.clock ⟨true, true⟩).rxSync = ⟨true, true, true⟩ := by
    rw [clock_rxSync, hsync]
    rfl
  have hnear : ∀ {i}, i = 14 ∨ i = 15 ∨ i = 16 → r.baudCounter.getLsbD i = false →
      untilTick COUNT_INC i (r.baudCounter + COUNT_INC) < untilTick COUNT_INC i r.baudCounter := by
    rintro i (rfl | rfl | rfl) hi
    · exact untilTick_add_lt (by decide) (by decide) (by decide) hi
    · exact untilTick_add_lt (by decide) (by decide) (by decide) hi
    · exact untilTick_add_lt (by decide) (by decide) (by decide) hi
  cases hs : r.state with
  | rxReset => exact .inl ⟨⟨by simp [clock, hs], by simp [clock, hs]⟩, hsync'⟩
  | rxComplete => exact .inl ⟨⟨by simp [clock, hs], by simp [clock, hs]⟩, hsync'⟩
  | rxIdle =>
    have hlow : r.rxComplete = false := by
      rw [← Bool.not_eq_true]
      intro hhigh
      rcases h hhigh with hc | hc <;> rw [hs] at hc <;> cases hc
    exact .inl (Resting.wait ⟨⟨hs, hlow⟩, hsync⟩)
  | rxStartBit =>
    right
    cases htick : baudHalfTick r.baudCounter with
    | false =>
      have hlt := hnear (i := 15) (by omega) htick
      simpa [clock, remaining, hs, htick] using hlt
    | true =>
      have hzero : untilTick COUNT_INC 16 0#17 = 218 := by decide
      simp [clock, remaining, hs, htick, hzero]
  | rxHalfBit =>
    right
    cases htick : baudTick r.baudCounter with
    | false =>
      have hlt := hnear (i := 16) (by omega) htick
      simpa [clock, remaining, hs, htick] using hlt
    | true =>
      have hzero : untilTick COUNT_INC 16 0#17 = 218 := by decide
      simp [clock, remaining, hs, htick, hzero]
  | rxReceiving =>
    right
    cases htick : baudTick r.baudCounter with
    | false =>
      have hlt := hnear (i := 16) (by omega) htick
      simpa [clock, remaining, hs, htick] using hlt
    | true =>
      by_cases hcnt : r.bitCnt = 0
      · have hzero : untilTick COUNT_INC 14 0#17 = 55 := by decide
        simp [clock, remaining, hs, htick, hcnt, hzero]
      · have hzero : untilTick COUNT_INC 16 0#17 = 218 := by decide
        have hdec : (r.bitCnt - 1).toNat + 1 = r.bitCnt.toNat := by bv_omega
        have hnext : (r.clock ⟨true, true⟩).remaining = 218 + 219 * (r.bitCnt - 1).toNat + 57 := by
          have hne : ¬ r.bitCnt = 0#3 := hcnt
          simp [clock, remaining, hs, htick, hne, hzero]
        have hthis : r.remaining = untilTick COUNT_INC 16 r.baudCounter +
            219 * r.bitCnt.toNat + 57 := by
          simp [remaining, hs]
        omega
  | rxStopBit =>
    right
    cases htick : baudQuarterTick r.baudCounter with
    | false =>
      have hlt := hnear (i := 14) (by omega) htick
      simpa [clock, remaining, hs, htick] using hlt
    | true => simp [clock, remaining, hs, htick, hsync, CDCSynchron.syncO]

/-! ## A quiet line -/

theorem Resting.stays (h : r.Resting) (n : ℕ) :
    (trace clock r (fun _ => ⟨true, true⟩) n).Resting :=
  h.gap (fun _ _ => rfl) n (Nat.le_refl n)

/-- Three cycles fill the synchroniser, the others end the frame that the receiver takes itself to
be in. -/
theorem Flagged.rests (h : r.Flagged) : (trace clock r (fun _ => ⟨true, true⟩) 2141).Resting := by
  have hshift : ∀ m n, trace clock (trace clock r (fun _ => ⟨true, true⟩) m)
      (fun _ => ⟨true, true⟩) n = trace clock r (fun _ => ⟨true, true⟩) (m + n) :=
    fun m n => (trace_add clock r (fun _ => (⟨true, true⟩ : RxInput)) m n).symm
  have hstep : ∀ k,
      (trace clock (trace clock r (fun _ => ⟨true, true⟩) 3) (fun _ => ⟨true, true⟩)
        (k + 1)).Resting ∨
      (trace clock (trace clock r (fun _ => ⟨true, true⟩) 3) (fun _ => ⟨true, true⟩)
        (k + 1)).remaining <
        (trace clock (trace clock r (fun _ => ⟨true, true⟩) 3) (fun _ => ⟨true, true⟩)
          k).remaining := by
    intro k
    rw [trace_succ, hshift, Nat.add_comm 3 k]
    exact resting_or_nearer (Flagged.run h _ _) (trace_rxSync _ k)
  obtain ⟨n, hn, hrest⟩ := exists_of_rank hstep
  have hle := Nat.le_trans hn (remaining_le _)
  have hstays := hrest.stays (2137 - n)
  rwa [hshift, hshift, show 3 + (n + 1) + (2137 - n) = 2141 by omega] at hstays

/-- **Recovery.** From whatever the registers held at power-up, and whatever the line did since the
reset, a line that is high for 2141 cycles brings the receiver back: of the frames that follow it
shows every byte for one cycle, and nothing else. -/
theorem recovers {inp : ℕ → RxInput} {k t : ℕ} (hk : k < t) (hreset : (inp k).reset = false)
    (hquiet : ∀ n < 2141, inp (t + n) = ⟨true, true⟩) {period : ℕ} (hlow : 215 ≤ period)
    (hhigh : period ≤ 230) (frames : List (ℕ × Byte))
    (hframes : ∀ n, inp (t + 2141 + n) = ⟨true, sentLine period frames n⟩) :
    (∀ n, (trace clock r inp (t + 2141 + n)).pulse = expectedPulse period frames n) ∧
      ∀ n, duration period frames ≤ n →
        emitted clock (trace clock r inp (t + 2141)) (fun k => inp (t + 2141 + k))
          (fun _ r => r.pulse.toList) n = frames.map Prod.snd := by
  have hrest : (trace clock r inp (t + 2141)).Resting := by
    rw [trace_add, trace_congr clock _ (fun k => inp (t + k)) hquiet]
    exact Flagged.rests (flagged_run hk hreset)
  have hline : (fun k => inp (t + 2141 + k)) = fun n => ⟨true, sentLine period frames n⟩ :=
    funext hframes
  have hpulse := pulse_run hlow hhigh frames hrest
  refine ⟨fun n => ?_, fun n hn => ?_⟩
  · rw [trace_add, hline]
    exact hpulse n
  · rw [hline, emitted_eq_flatMap, ← expectedPulse_bytes hlow frames hn]
    simp only [hpulse]

/-- A line that is low for 5000 cycles after the reset, then high, then two frames. -/
def brokenLine (n : ℕ) : RxInput :=
  if n < 5000 then ⟨decide (n ≠ 0), false⟩
  else if n < 7141 then ⟨true, true⟩
  else ⟨true, sentLine 230 [(0, 0x55), (0, 0x80)] (n - 7141)⟩

theorem recovers_broken :
    (∀ n, (trace clock waiting brokenLine (5000 + 2141 + n)).pulse =
      expectedPulse 230 [(0, 0x55), (0, 0x80)] n) ∧
      ∀ n, duration 230 [(0, 0x55), (0, 0x80)] ≤ n →
        emitted clock (trace clock waiting brokenLine (5000 + 2141))
          (fun k => brokenLine (5000 + 2141 + k)) (fun _ r => r.pulse.toList) n = [0x55, 0x80] := by
  refine recovers (k := 0) (by decide) rfl (fun n hn => ?_) (by decide) (by decide)
    [(0, 0x55), (0, 0x80)] fun n => ?_
  · rw [brokenLine, if_neg (by omega), if_pos (by omega)]
  · rw [brokenLine, if_neg (by omega), if_neg (by omega), Nat.add_sub_cancel_left]

end RangerRisc.UARTRx
