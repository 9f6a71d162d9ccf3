import RangerRisc.SpiAgree

/-! Reset and a transfer after it. Reset takes the state machine of `IOModule.sv` back, but
neither `tx_byte_cnt` nor the master, which goes on with its byte. -/

namespace RangerRisc

open Clocked

namespace SpiLink

variable {s t : SpiLink} {inp : ℕ → IOInput} {f n a T : ℕ}
  {txMem rxMem txMem' rxMem' : BitVec 4 → Byte}

/-! ## What is written -/

/-- The bytes written in the first `n` cycles. -/
def written (inp : ℕ → IOInput) (n : ℕ) : List Byte :=
  ((List.range n).filter fun k => !(inp k).txWr).map fun k => (inp k).txByte

theorem written_succ (inp : ℕ → IOInput) (n : ℕ) :
    written inp (n + 1) = written inp n ++ if !(inp n).txWr then [(inp n).txByte] else [] := by
  rw [written, List.range_succ, List.filter_append, List.map_append, List.filter_singleton]
  cases (inp n).txWr <;> rfl

theorem length_written (inp : ℕ → IOInput) (n : ℕ) : (written inp n).length = writes inp n := by
  rw [written, List.length_map, ← List.countP_eq_length_filter]
  rfl

/-- `n` bytes are written at consecutive addresses from 0, whenever, and `send` is asserted in
cycle `f`. -/
structure Queues (inp : ℕ → IOInput) (f n : ℕ) : Prop extends Fills inp f n where
  txAddr : ∀ k ≤ f, (inp k).txWr = false →
    (inp k).txAddr = BitVec.ofNat 4 (written inp k).length

theorem Queues.stored (h : Queues inp f n) (hn : n ≤ 15) (hs : s.io.state = .ioIdle) (k : ℕ)
    (hk : k ≤ f + 1) : ∀ i (hi : i < (written inp k).length),
      (trace clock s inp k).io.txBuf.mem (BitVec.ofNat 4 i) = (written inp k)[i] := by
  induction k with
  | zero => exact fun i hi => absurd hi (Nat.not_lt_zero i)
  | succ k ih =>
    have hstored := ih (Nat.le_of_succ_le hk)
    have hkf : k ≤ f := Nat.le_of_succ_le_succ hk
    have hio : (trace clock s inp (k + 1)).io =
        (trace clock s inp k).io.clock (inp k) (trace clock s inp k).masterLines := rfl
    have hmem := (IOModule.clock_idle (i := inp k) (l := (trace clock s inp k).masterLines)
      (h.idle hs k hkf).1).2.2.2
    rw [hio, hmem, written_succ]
    cases hwr : (inp k).txWr with
    | true => simpa using hstored
    | false =>
      have hlt : (written inp k).length < 16 := by
        have hmono : writes inp k ≤ writes inp (f + 1) :=
          (List.range_sublist.mpr (by omega)).countP_le
        rw [length_written]
        have := h.writes
        omega
      rw [h.txAddr k hkf hwr]
      exact stored_append _ hlt hstored

/-! ## The transfer after a reset -/

/-- The transfer that is asked for in cycle `f` sends from `s` exactly what has been written, and
its lines are those of the same transfer from `t`, which a slave reads so. -/
def Cleanly (s t : SpiLink) (inp : ℕ → IOInput) (f : ℕ) : Prop :=
  ∃ len q, FirstReturn clock (fun t => t.io.cs = true) (trace clock t inp f)
      (fun k => inp (f + k)) len ∧
    emitted clock (trace clock t inp f) (fun k => inp (f + k)) events len =
      transferLog (written inp (f + 1)) q ∧
    (trace clock s inp (f + len)).io.ioComplete = true ∧
    ∀ k ≤ len, (trace clock s inp (f + k)).lines = (trace clock t inp (f + k)).lines

/-- Both links wait for the clock to rise. -/
theorem Queues.opens (h : Queues inp f n) (hn : n ≤ 15) (he : t.Empty)
    (hs : s.io.state = .ioIdle) (hsound : (trace clock s inp f).master.Sound)
    (hstep : InStep (trace clock s inp f) (trace clock t inp f)) :
    Opens (s.io.txByteCnt + BitVec.ofNat 4 n) n (trace clock s inp f).master.midByte
      (trace clock s inp (f + 1)) (trace clock t inp (f + 1)) := by
  obtain ⟨hstate, haddr, hcnt⟩ := h.begins hs
  obtain ⟨hstate', haddr', hcnt'⟩ := h.begins he.state
  have hnext : InStep (trace clock s inp (f + 1)) (trace clock t inp (f + 1)) :=
    hstep.clock
  have hrise : ((trace clock s inp f).clock (inp f)).io.mastSpiClkRising =
      (trace clock t inp (f + 1)).io.mastSpiClkRising := hnext.rising
  have hmaster := clock_unsent (i := inp f) hsound
    fun hsend => absurd (hstate.symm.trans hsend) (by decide)
  rw [hrise] at hmaster
  refine ⟨hstate, hstate', hnext, ((h.resting he f (Nat.le_refl f)).clock (i := inp f)).1,
    sound_clock hsound, hmaster, hcnt, ?_, ⟨haddr, haddr'⟩, fun j hj => ?_⟩
  · rw [hcnt', he.txByteCnt]
    exact BitVec.zero_add _
  · have hlen : j < (written inp (f + 1)).length := by
      rw [length_written, h.writes]
      exact hj
    rw [h.stored hn hs (f + 1) (Nat.le_refl _) j hlen,
      h.stored hn he.state (f + 1) (Nat.le_refl _) j hlen]

/-- The transfer is a clean one exactly if nothing was queued, and no byte was under way when it
was asked for. -/
theorem Queues.cleanly_iff (h : Queues inp f n) (hpos : 1 ≤ n) (hn : n ≤ 15) (he : t.Empty)
    (hs : s.io.state = .ioIdle) (hsound : (trace clock s inp f).master.Sound)
    (hstep : InStep (trace clock s inp f) (trace clock t inp f))
    (hq : UntilReturn clock (fun t => t.io.cs = true) (trace clock t inp (f + 1))
      (fun k => inp (f + 1 + k)) IOInput.Quiet) :
    Cleanly s t inp f ↔
      s.io.txByteCnt = 0 ∧ (trace clock s inp f).master.midByte = false := by
  obtain ⟨hcs, len, q, hreturn, hlog, hcomplete, -⟩ := h.toFills.performs he hq hpos hn
  have hopens := h.opens hn he hs hsound hstep
  obtain ⟨d, rfl⟩ : ∃ d, len = 1 + d := ⟨len - 1, by have := hreturn.pos; omega⟩
  have hd : 0 < d := by
    rcases Nat.eq_zero_or_pos d with rfl | hd
    · have hhit := hreturn.hit
      rw [← trace_add, Nat.add_zero, hcs] at hhit
      cases hhit
    · exact hd
  have hrest := hreturn.rest hd
  simp only [← trace_add, ← Nat.add_assoc] at hrest
  -- the inputs are quiet until then, and it does not matter what comes afterwards
  obtain ⟨inp', hquiet, hsame⟩ :=
    exists_extension (⟨true, true, 0, 0, true, true⟩ : IOInput) ⟨rfl, rfl⟩ fun k (hk : k < d) =>
      hq k fun j hj hjk => hrest.first j hj (by omega)
  have hback := fun k (hk : k < d) => (hsame k hk).symm
  have htrace : ∀ u : SpiLink, ∀ k ≤ d, trace clock (trace clock u inp (f + 1)) inp' k =
      trace clock u inp (f + 1 + k) := by
    intro u k hk
    rw [trace_congr clock _ inp' fun j hj => hsame j (by omega), ← trace_add]
  have hiff := hopens.lines_iff hpos hn hquiet (hrest.congr hback)
  have hidle : (trace clock s inp f).lines = (trace clock t inp f).lines := by
    rw [lines_of_silent (by rw [(h.idle hs f (Nat.le_refl f)).1]; decide),
      lines_of_silent (by rw [(h.idle he.state f (Nat.le_refl f)).1]; decide), IOModule.cs,
      IOModule.cs, IOModule.ioComplete, IOModule.ioComplete, (h.idle hs f (Nat.le_refl f)).1,
      (h.idle he.state f (Nat.le_refl f)).1]
  have hcount : s.io.txByteCnt + BitVec.ofNat 4 n = BitVec.ofNat 4 n ↔ s.io.txByteCnt = 0 := by
    bv_omega
  constructor
  · rintro ⟨len', -, hreturn', -, -, hlines⟩
    obtain rfl := hreturn'.unique hreturn
    obtain ⟨hmid, hcnt⟩ := hiff.mp fun k hk => by
      rw [htrace s k hk, htrace t k hk, Nat.add_assoc]
      exact hlines (1 + k) (by omega)
    exact ⟨hcount.mp hcnt, hmid⟩
  · rintro ⟨hcnt, hmid⟩
    have hlines : ∀ k ≤ 1 + d,
        (trace clock s inp (f + k)).lines = (trace clock t inp (f + k)).lines := by
      intro k hk
      rcases Nat.eq_zero_or_pos k with rfl | hpos'
      · exact hidle
      · obtain ⟨j, rfl⟩ := Nat.exists_eq_add_of_le hpos'
        have := hiff.mpr ⟨hmid, hcount.mpr hcnt⟩ j (by omega)
        rwa [htrace s j (by omega), htrace t j (by omega), Nat.add_assoc] at this
    refine ⟨1 + d, q, hreturn, ?_, ?_, hlines⟩
    · have hholds : Holds (written inp (f + 1)) (trace clock t inp (f + 1)) := by
        have hlen : (written inp (f + 1)).length = n := (length_written _ _).trans h.writes
        refine ⟨hlen ▸ hn, ?_, h.stored hn he.state (f + 1) (Nat.le_refl _)⟩
        rw [hlen, hopens.txByteCnt]
      rw [hlog, ← hholds.bytesLog, length_written, h.writes]
    · exact (congrArg SpiLines.ioComplete (hlines _ (Nat.le_refl _))).trans hcomplete

/-! ## Runs from power-up -/

/-- `reset` is held low for two periods of the SPI clock or more, nothing being sent, and then
released; whatever happened before it. -/
structure Resets (inp : ℕ → IOInput) (a T : ℕ) : Prop where
  long : a + 24 ≤ T
  low : ∀ k, a ≤ k → k < T → (inp k).reset = false ∧ (inp k).send = true
  high : (inp T).reset = true

/-- The inputs of a run that has been reset from power-up on. -/
def resetUntil (T : ℕ) (inp : ℕ → IOInput) (k : ℕ) : IOInput :=
  if k < T then ⟨false, true, 0, 0, true, true⟩ else inp k

theorem powerUp_sound (txMem rxMem : BitVec 4 → Byte) (inp : ℕ → IOInput) (k : ℕ) :
    (trace clock (powerUp txMem rxMem) inp k).master.Sound :=
  @trace_invariant _ _ clock _ inp (fun s : SpiLink => s.master.Sound)
    ⟨(by intro hs; cases hs), rfl⟩ (fun _ h => sound_clock h) k

/-- The divider takes no notice of the inputs. -/
theorem powerUp_inStep (inp inp' : ℕ → IOInput) (k : ℕ) :
    InStep (trace clock (powerUp txMem rxMem) inp k)
      (trace clock (powerUp txMem' rxMem') inp' k) := by
  induction k with
  | zero => exact ⟨rfl, rfl, rfl, 0, Nat.zero_le 5, rfl, .inl rfl⟩
  | succ k ih => exact ih.clock

theorem after_sound (inp : ℕ → IOInput) (T f : ℕ) :
    (trace clock (trace clock (powerUp txMem rxMem) inp (T + 1))
      (fun k => inp (T + 1 + k)) f).master.Sound := by
  rw [← trace_add]
  exact powerUp_sound txMem rxMem inp (T + 1 + f)

theorem after_inStep (inp : ℕ → IOInput) (T f : ℕ) :
    InStep (trace clock (trace clock (powerUp txMem rxMem) inp (T + 1))
        (fun k => inp (T + 1 + k)) f)
      (trace clock (trace clock (powerUp txMem' rxMem') (resetUntil T inp) (T + 1))
        (fun k => inp (T + 1 + k)) f) := by
  induction f with
  | zero => exact powerUp_inStep inp (resetUntil T inp) (T + 1)
  | succ f ih => exact ih.clock

/-- The cycle in which `reset` is released. -/
theorem clock_released {i : IOInput} (hs : s.io.state = .ioReset) (hi : i.reset = true) :
    (s.clock i).io.state = .ioIdle ∧ (s.clock i).io.txByteCnt = s.io.txByteCnt := by
  have hio : (s.clock i).io = s.io.clock i s.masterLines := rfl
  constructor
  · rw [hio, IOModule.clock_state, hi, IOModule.nextState, hs]
    rfl
  · obtain ⟨⟨state, _⟩, _, _⟩ := s
    subst hs
    rfl

theorem Resets.released (h : Resets inp a T) :
    (trace clock s inp (T + 1)).io.state = .ioIdle ∧
      (trace clock s inp (T + 1)).io.txByteCnt = (trace clock s inp T).io.txByteCnt := by
  have hlong := h.long
  obtain ⟨k, rfl⟩ : ∃ k, T = k + 1 := ⟨T - 1, by omega⟩
  have hstate : (trace clock s inp (k + 1)).io.state = .ioReset := by
    have hnext : (trace clock s inp (k + 1)).io.state = _ := IOModule.clock_state
    rw [hnext, (h.low k (by omega) (Nat.lt_succ_self k)).1]
    rfl
  exact clock_released hstate h.high

/-- A link that is reset from power-up on is idle then, and nothing is queued. -/
theorem Resets.empty (h : Resets inp a T) :
    (trace clock (powerUp txMem rxMem) (resetUntil T inp) (T + 1)).Empty := by
  have hlong := h.long
  have hreset : ∀ k ≤ T, (trace clock (powerUp txMem rxMem) (resetUntil T inp) k).Resting ∧
      (trace clock (powerUp txMem rxMem) (resetUntil T inp) k).io.txByteCnt = 0 ∧
      (trace clock (powerUp txMem rxMem) (resetUntil T inp) k).io.state =
        if k = 0 then .ioBoot else .ioReset := by
    intro k
    induction k with
    | zero => exact fun _ => ⟨(powerUp_keeps txMem rxMem).resting, rfl, rfl⟩
    | succ k ih =>
      intro hk
      obtain ⟨hrest, hcnt, hstate⟩ := ih (Nat.le_of_succ_le hk)
      have hinp : resetUntil T inp k = ⟨false, true, 0, 0, true, true⟩ := if_pos hk
      have hio : (trace clock (powerUp txMem rxMem) (resetUntil T inp) (k + 1)).io =
          (trace clock (powerUp txMem rxMem) (resetUntil T inp) k).io.clock (resetUntil T inp k)
            (trace clock (powerUp txMem rxMem) (resetUntil T inp) k).masterLines := rfl
      have hnext : (trace clock (powerUp txMem rxMem) (resetUntil T inp) (k + 1)).io.state =
          .ioReset := by
        rw [hio, IOModule.clock_state, hinp]
        rfl
      have hwait : (trace clock (powerUp txMem rxMem) (resetUntil T inp) k).io.state = .ioBoot ∨
          (trace clock (powerUp txMem rxMem) (resetUntil T inp) k).io.state = .ioReset := by
        rw [hstate]
        split
        · exact .inl rfl
        · exact .inr rfl
      obtain ⟨hcalm, hslave, -, -⟩ := hrest.clock (i := resetUntil T inp k)
      refine ⟨⟨by rw [IOModule.cs, hnext], hcalm, hslave⟩, ?_, hnext⟩
      rw [hio, (IOModule.clock_kept hwait (by rw [hinp])).1, hcnt]
  obtain ⟨hrest, hcnt, hstate⟩ := hreset T (Nat.le_refl T)
  rw [if_neg (by omega)] at hstate
  have hinp : (resetUntil T inp T).reset = true := by
    rw [resetUntil, if_neg (Nat.lt_irrefl T)]
    exact h.high
  obtain ⟨hidle, hcnt'⟩ := clock_released hstate hinp
  obtain ⟨hcalm, hslave, -, -⟩ := hrest.clock (i := resetUntil T inp T)
  exact ⟨⟨by rw [trace_succ, IOModule.cs, hidle], hcalm, hslave⟩, hidle, hcnt'.trans hcnt⟩

/-- **Reset and transfer.** After a reset in any reachable state a transfer is as from power-up
exactly if `tx_byte_cnt` was 0 when reset was released and the master is not in the middle of a
byte when the transfer is asked for. -/
theorem transfer_after_reset_iff (hr : Resets inp a T)
    (h : Queues (fun k => inp (T + 1 + k)) f n) (hpos : 1 ≤ n) (hn : n ≤ 15)
    (hq : UntilReturn clock (fun t => t.io.cs = true)
      (trace clock (trace clock (powerUp txMem' rxMem') (resetUntil T inp) (T + 1))
        (fun k => inp (T + 1 + k)) (f + 1))
      (fun k => inp (T + 1 + (f + 1 + k))) IOInput.Quiet) :
    Cleanly (trace clock (powerUp txMem rxMem) inp (T + 1))
        (trace clock (powerUp txMem' rxMem') (resetUntil T inp) (T + 1))
        (fun k => inp (T + 1 + k)) f ↔
      (trace clock (powerUp txMem rxMem) inp T).io.txByteCnt = 0 ∧
        (trace clock (powerUp txMem rxMem) inp (T + 1 + f)).master.midByte = false := by
  obtain ⟨hidle, hcnt⟩ := hr.released (s := powerUp txMem rxMem)
  rw [← hcnt, trace_add clock _ inp (T + 1) f]
  exact h.cleanly_iff hpos hn hr.empty hidle (after_sound inp T f) (after_inStep inp T f) hq

/-- Reset for two periods from power-up on, a byte two cycles later, and then it is sent. -/
def resetByte (k : ℕ) : IOInput where
  reset := 24 ≤ k
  send := k ≠ 27
  txAddr := 0
  txByte := 0x41
  txWr := k ≠ 26
  rxRd := true

theorem resetByte_cleanly :
    Cleanly (trace clock (powerUp (fun _ => 0) fun _ => 0) resetByte 25)
      (trace clock (powerUp (fun _ => 0) fun _ => 0) (resetUntil 24 resetByte) 25)
      (fun k => resetByte (25 + k)) 2 := by
  refine (transfer_after_reset_iff (a := 0) (T := 24) (n := 1) ⟨by decide, by decide, rfl⟩
    ⟨⟨by decide, by decide, rfl, by decide⟩, by decide⟩ (by decide) (by decide)
    fun k _ => ⟨?_, ?_⟩).mpr ⟨by decide +kernel, by decide +kernel⟩
  · exact decide_eq_true (by omega)
  · exact decide_eq_true (by omega)

/-- A byte is queued before the reset, and another one after it is sent. -/
def halfQueued (k : ℕ) : IOInput where
  reset := k ≠ 0 ∧ (k < 4 ∨ 28 ≤ k)
  send := k ≠ 32
  txAddr := 0
  txByte := 0x41
  txWr := k ≠ 2 ∧ k ≠ 30
  rxRd := true

theorem halfQueued_not_cleanly : Resets halfQueued 4 28 ∧
    Queues (fun k => halfQueued (29 + k)) 3 1 ∧ (∀ k, (halfQueued (29 + (4 + k))).Quiet) ∧
    ¬ Cleanly (trace clock (powerUp (fun _ => 0) fun _ => 0) halfQueued 29)
      (trace clock (powerUp (fun _ => 0) fun _ => 0) (resetUntil 28 halfQueued) 29)
      (fun k => halfQueued (29 + k)) 3 := by
  have hr : Resets halfQueued 4 28 := by
    refine ⟨by decide, fun k hk hlt => ⟨decide_eq_false ?_, decide_eq_true ?_⟩, rfl⟩ <;> omega
  have hqueues : Queues (fun k => halfQueued (29 + k)) 3 1 :=
    ⟨⟨by decide, by decide, rfl, by decide⟩, by decide⟩
  have hquiet : ∀ k, (halfQueued (29 + (4 + k))).Quiet := fun k =>
    ⟨decide_eq_true (by omega), decide_eq_true (by omega)⟩
  refine ⟨hr, hqueues, hquiet, fun hclean => ?_⟩
  have hcnt := ((hqueues.cleanly_iff (by decide) (by decide) hr.empty hr.released.1
    (after_sound halfQueued 28 3) (after_inStep halfQueued 28 3) fun k _ => hquiet k).mp hclean).1
  exact absurd hcnt (by decide +kernel)

end SpiLink

end RangerRisc
