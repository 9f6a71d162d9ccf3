import RangerRisc.SpiTransfers

/-! The length of a transfer. The count of 16 bytes does not fit `tx_byte_cnt`, and the count of
0 that is left is never the address of a last byte. -/

namespace RangerRisc

open Clocked

namespace Exchange

variable {x : Exchange} {txMem : BitVec 4 → Byte}

/-- No address is the last one of 0 bytes. -/
theorem not_last_zero (x : Exchange) : ¬ x.Last 0 := by
  have hno : ∀ addr : BitVec 4, addr.setWidth 32 ≠ (0 : BitVec 4).setWidth 32 - 1 := by decide
  exact hno x.addr

/-- After each byte the link is ready for another one. -/
theorem Ready.again (txMem : BitVec 4 → Byte) (h : x.Ready) (i : ℕ) :
    (run txMem x (20 * i)).Ready := by
  induction i with
  | zero => exact h
  | succ i ih =>
    obtain ⟨hdone, -⟩ := ih.byte txMem
    obtain ⟨-, -, -, hready, -⟩ := hdone.next txMem
    rw [← run_add, ← run_succ] at hready
    exact hready

/-- Where a byte gives way to the next one the clock stays low. -/
theorem Ready.gated (txMem : BitVec 4 → Byte) (h : x.Ready) {m : ℕ}
    (hsent : (run txMem x m).sent = true) : (run txMem x m).clk' = false := by
  obtain ⟨i, r, hr, rfl⟩ : ∃ i r, r < 20 ∧ m = 20 * i + r :=
    ⟨m / 20, m % 20, Nat.mod_lt _ (by decide), (Nat.div_add_mod m 20).symm⟩
  obtain ⟨hdone, hsends⟩ := (h.again txMem i).byte txMem
  rcases Nat.lt_or_ge r 19 with hlt | hge
  · rw [run_add, hsends.sent r hlt] at hsent
    cases hsent
  · obtain rfl : r = 19 := by omega
    rw [run_add]
    exact (hdone.next txMem).2.1

end Exchange

namespace SpiLink

variable {s : SpiLink} {inp : ℕ → IOInput} {f n : ℕ}

/-- A transfer with a count of 0 does not end. -/
theorem Selecting.endless {txMem : BitVec 4 → Byte} {mosi : Bool} {slave₀ : SPISlave} {k : ℕ}
    (h : Selecting 0 txMem mosi slave₀ k s) (hrest : slave₀.Resting)
    (hcs : slave₀.ssSync.bit0 = true) (hq : ∀ k, (inp k).Quiet) (n : ℕ) :
    (trace clock s inp n).io.cs = false := by
  obtain ⟨x, w, hx, hshows, -, hlow⟩ := h.opens hrest hcs hq
  rcases Nat.le_total n w with hle | hge
  · exact hlow n hle
  · obtain ⟨d, rfl⟩ := Nat.exists_eq_add_of_le hge
    rw [trace_add]
    have hgo : ∀ m < d, (x.run txMem m).sent = true →
        (x.run txMem m).clk' = false ∧ ¬ (x.run txMem m).Last 0 := fun m _ hsent =>
      ⟨hx.ready.gated txMem hsent, Exchange.not_last_zero _⟩
    exact (hshows.run (fun k => hq (w + k)) hgo).2.2 d (by omega)

/-! ## Filling the buffer -/

/-- The writes of the first `n` cycles. -/
def writes (inp : ℕ → IOInput) (n : ℕ) : ℕ := (List.range n).countP fun k => !(inp k).txWr

theorem writes_succ (inp : ℕ → IOInput) (n : ℕ) :
    writes inp (n + 1) = writes inp n + if !(inp n).txWr then 1 else 0 := by
  rw [writes, List.range_succ, List.countP_append, List.countP_singleton]
  rfl

theorem count_succ (cnt : BitVec 4) (inp : ℕ → IOInput) (n : ℕ) :
    (if !(inp n).txWr then cnt + BitVec.ofNat 4 (writes inp n) + 1
      else cnt + BitVec.ofNat 4 (writes inp n)) = cnt + BitVec.ofNat 4 (writes inp (n + 1)) := by
  rw [writes_succ]
  split
  · rw [BitVec.add_assoc]
    exact congrArg (cnt + ·) (BitVec.ofNat_add _ 1).symm
  · rfl

/-- `n` bytes are written, whenever and wherever, and `send` is asserted in cycle `f`. -/
structure Fills (inp : ℕ → IOInput) (f n : ℕ) : Prop where
  reset : ∀ k ≤ f, (inp k).reset = true
  waits : ∀ k < f, (inp k).send = true
  send : (inp f).send = false
  writes : writes inp (f + 1) = n

/-- The link is idle, and nothing has been written yet. -/
structure Empty (s : SpiLink) : Prop where
  resting : s.Resting
  state : s.io.state = .ioIdle
  txByteCnt : s.io.txByteCnt = 0

theorem Fills.idle (h : Fills inp f n) (hs : s.io.state = .ioIdle) (k : ℕ) (hk : k ≤ f) :
    (trace clock s inp k).io.state = .ioIdle ∧ (trace clock s inp k).io.txByteCnt =
      s.io.txByteCnt + BitVec.ofNat 4 (SpiLink.writes inp k) := by
  induction k with
  | zero => exact ⟨hs, (BitVec.add_zero _).symm⟩
  | succ k ih =>
    obtain ⟨hstate, hcnt⟩ := ih (Nat.le_of_succ_le hk)
    have hio : (trace clock s inp (k + 1)).io =
        (trace clock s inp k).io.clock (inp k) (trace clock s inp k).masterLines := rfl
    constructor
    · rw [hio, IOModule.clock_state, h.reset k (Nat.le_of_succ_le hk), IOModule.nextState, hstate,
        h.waits k hk]
      rfl
    · rw [hio, (IOModule.clock_idle hstate).2.2.1, hcnt, count_succ]

/-- The request is taken: the count is what has been written, as far as it fits. -/
theorem Fills.begins (h : Fills inp f n) (hs : s.io.state = .ioIdle) :
    (trace clock s inp (f + 1)).io.state = .ioBegin ∧
      (trace clock s inp (f + 1)).io.txStrAddr = 0 ∧
      (trace clock s inp (f + 1)).io.txByteCnt = s.io.txByteCnt + BitVec.ofNat 4 n := by
  obtain ⟨hstate, hcnt⟩ := h.idle hs f (Nat.le_refl f)
  have hio : (trace clock s inp (f + 1)).io =
      (trace clock s inp f).io.clock (inp f) (trace clock s inp f).masterLines := rfl
  obtain ⟨haddr, -, hbytes, -⟩ := IOModule.clock_idle (i := inp f)
    (l := (trace clock s inp f).masterLines) hstate
  refine ⟨?_, haddr, ?_⟩
  · rw [hio, IOModule.clock_state, h.reset f (Nat.le_refl f), IOModule.nextState, hstate, h.send]
    rfl
  · rw [hio, hbytes, hcnt, ← h.writes, count_succ]

theorem Fills.resting (h : Fills inp f n) (he : s.Empty) (k : ℕ) (hk : k ≤ f) :
    (trace clock s inp k).Resting := by
  induction k with
  | zero => exact he.resting
  | succ k ih =>
    obtain ⟨hcalm, hslave, -, -⟩ := (ih (Nat.le_of_succ_le hk)).clock (i := inp k)
    have hidle := (h.idle he.state (k + 1) hk).1
    exact ⟨by rw [IOModule.cs, hidle], hcalm, hslave⟩

theorem Fills.selecting (h : Fills inp f n) (he : s.Empty) :
    ∃ mosi slave₀, Selecting (BitVec.ofNat 4 n) (trace clock s inp (f + 1)).io.txBuf.mem mosi
        slave₀ 0 (trace clock s inp (f + 1)) ∧ slave₀.Resting ∧ slave₀.ssSync.bit0 = true ∧
      (trace clock s inp f).events (inp f) = [] := by
  have hrest := h.resting he f (Nat.le_refl f)
  have hstarts := hrest.starts (h.idle he.state f (Nat.le_refl f)).1 h.send
    (h.reset f (Nat.le_refl f))
  obtain ⟨-, hslave, hbit0, hsilent⟩ := hrest.clock (i := inp f)
  have hbytes : ((trace clock s inp f).clock (inp f)).io.txByteCnt = BitVec.ofNat 4 n := by
    have hcnt := (h.begins he.state).2.2
    rw [he.txByteCnt] at hcnt
    exact hcnt.trans (BitVec.zero_add _)
  rw [hbytes] at hstarts
  exact ⟨_, _, hstarts, hslave, hbit0, hsilent⟩

/-! ## The transfer -/

/-- From the request in cycle `f` on, exactly the first `n` bytes of `tx_buf` are exchanged; then
the select line is released, `io_complete` raised and the count cleared. -/
def Performs (s : SpiLink) (inp : ℕ → IOInput) (f n : ℕ) : Prop :=
  (trace clock s inp (f + 1)).io.cs = false ∧
  ∃ len q, FirstReturn clock (fun t => t.io.cs = true) (trace clock s inp f)
      (fun k => inp (f + k)) len ∧
    emitted clock (trace clock s inp f) (fun k => inp (f + k)) events len =
      Exchange.bytesLog (trace clock s inp (f + 1)).io.txBuf.mem q n ∧
    (trace clock s inp (f + len)).io.ioComplete = true ∧
    (trace clock s inp (f + len + 1)).io.txByteCnt = 0

section Fills

variable (h : Fills inp f n) (he : s.Empty)
  (hq : UntilReturn clock (fun t => t.io.cs = true) (trace clock s inp (f + 1))
    (fun k => inp (f + 1 + k)) IOInput.Quiet)
include h he hq

theorem Fills.performs (hpos : 1 ≤ n) (hn : n ≤ 15) : Performs s inp f n := by
  obtain ⟨mosi, slave₀, hsel, hslave, hbit0, hsilent⟩ := h.selecting he
  obtain ⟨m, rfl⟩ := Nat.exists_eq_add_of_le' hpos
  obtain ⟨t, ht⟩ : ∃ t, t = trace clock s inp (f + 1) := ⟨_, rfl⟩
  have hclock : (trace clock s inp f).clock (inp f) = t := ht.symm
  rw [← ht] at hsel hq
  have hcs : t.io.cs = false := by rw [IOModule.cs, hsel.state]
  obtain ⟨inp', hquiet, hsame⟩ := hq.exists_always ⟨true, true, 0, 0, true, true⟩ ⟨rfl, rfl⟩
  obtain ⟨len, q, hreturn, -, hcomplete, hlog, -⟩ :=
    hsel.transfer hslave hbit0 (by omega) hquiet
  have heq := hsame len hreturn
  have htrace : trace clock t inp' len = trace clock s inp (f + (len + 1)) := by
    rw [trace_congr clock t inp' heq, ht, ← trace_add]
    congr 1
    omega
  rw [htrace] at hcomplete
  refine ⟨by rw [← ht]; exact hcs, len + 1, q, ?_, ?_, ?_, ?_⟩
  · apply FirstReturn.afterEdge
    · rw [Nat.add_zero, hclock, hcs]
      decide
    · rw [Nat.add_zero, hclock]
      have := hreturn.congr heq
      simp only [Nat.add_assoc, Nat.add_comm 1] at this
      exact this
  · rw [emitted_succ', Nat.add_zero, hsilent, hclock, ← ht, ← hlog,
      emitted_congr clock t inp' events heq]
    simp only [Nat.add_assoc, Nat.add_comm 1]
    rfl
  · rw [IOModule.ioComplete, hcomplete]
    rfl
  · exact IOModule.clock_complete hcomplete

theorem Fills.hangs (hn : n = 16) : ¬ Performs s inp f n := by
  rintro ⟨-, len, -, hreturn, -⟩
  subst hn
  obtain ⟨mosi, slave₀, hsel, hslave, hbit0, -⟩ := h.selecting he
  obtain ⟨d, rfl⟩ : ∃ d, len = d + 1 := ⟨len - 1, by have := hreturn.pos; omega⟩
  have hone : ∀ k, trace clock s inp (f + (k + 1)) =
      trace clock (trace clock s inp (f + 1)) (fun k => inp (f + 1 + k)) k := by
    intro k
    rw [← trace_add]
    congr 1
    omega
  -- the inputs are quiet as far as the return is from here
  have hquiet : ∀ k < d, (inp (f + 1 + k)).Quiet := by
    intro k hk
    apply hq k
    intro j hj hjk hcs
    rw [← hone, trace_add] at hcs
    exact hreturn.first (j + 1) (by omega) (by omega) hcs
  obtain ⟨inp', hquiet', hsame⟩ :=
    exists_extension (⟨true, true, 0, 0, true, true⟩ : IOInput) ⟨rfl, rfl⟩ hquiet
  have hlow := hsel.endless hslave hbit0 hquiet' d
  rw [trace_congr clock _ inp' hsame, ← hone, trace_add, hreturn.hit] at hlow
  cases hlow

/-- **Transfer length.** `n` bytes are transferred, and the transfer ends, for every count that
fits `tx_byte_cnt`; with 16 bytes it does not end. -/
theorem performs_iff (hpos : 1 ≤ n) (hn : n ≤ 16) : Performs s inp f n ↔ n ≤ 15 := by
  refine ⟨fun hp => ?_, h.performs he hq hpos⟩
  rcases Nat.lt_or_eq_of_le hn with hlt | heq
  · exact Nat.le_of_lt_succ hlt
  · exact absurd hp (h.hangs he hq heq)

end Fills

/-- In a link that is used from power-up on, nothing has been written where the queue is empty. -/
theorem Drives.empty {txMem rxMem : BitVec 4 → Byte} {a b : ℕ}
    (h : Drives (powerUp txMem rxMem) inp a b)
    (hs : (trace clock (powerUp txMem rxMem) inp f).io.state = .ioIdle)
    (hq : queue (powerUp txMem rxMem) inp f = []) :
    (trace clock (powerUp txMem rxMem) inp f).Empty := by
  obtain ⟨m, hm, hk, hend⟩ := h.keeps rfl (powerUp_keeps txMem rxMem) f
  obtain rfl : m = f := by
    rcases hend with heq | ⟨-, -, hlow⟩
    · exact heq
    · rcases Nat.lt_or_eq_of_le hm with hlt | heq
      · exact absurd hs (IOModule.state_of_cs (hlow f hlt (Nat.le_refl f))).2.2
      · exact heq
  have hholds := hk.holds.resolve_left (by rw [hs]; decide)
  refine ⟨hk.resting, hs, ?_⟩
  rw [hholds.txByteCnt, hq]
  rfl

/-- The link two cycles after power-up, reset having been pulsed in the first one. -/
def ready : SpiLink := trace clock (powerUp (fun _ => 0) fun _ => 0) threeBytes 2

theorem ready_empty : ready.Empty := threeBytes_drives.empty rfl rfl

theorem threeBytes_performs : Performs ready (fun k => threeBytes (2 + k)) 3 3 ↔ 3 ≤ 15 := by
  refine performs_iff ⟨by decide, by decide, rfl, rfl⟩ ready_empty (fun k _ => ⟨?_, ?_⟩)
    (by decide) (by decide)
  · exact decide_eq_true (by omega)
  · exact decide_eq_true (by omega)

/-- The whole buffer is filled, and sent in cycle 16. -/
def sixteenBytes (n : ℕ) : IOInput where
  reset := true
  send := n ≠ 16
  txAddr := BitVec.ofNat 4 n
  txByte := BitVec.ofNat 8 n
  txWr := 16 ≤ n
  rxRd := true

theorem sixteenBytes_hangs : ready.Empty ∧ Fills sixteenBytes 16 16 ∧
    (∀ k, (sixteenBytes (17 + k)).Quiet) ∧ ¬ Performs ready sixteenBytes 16 16 := by
  have hfills : Fills sixteenBytes 16 16 := ⟨by decide, by decide, rfl, by decide⟩
  have hquiet : ∀ k, (sixteenBytes (17 + k)).Quiet := fun k =>
    ⟨rfl, decide_eq_true (by omega)⟩
  exact ⟨ready_empty, hfills, hquiet, hfills.hangs ready_empty (fun k _ => hquiet k) rfl⟩

end SpiLink

end RangerRisc
