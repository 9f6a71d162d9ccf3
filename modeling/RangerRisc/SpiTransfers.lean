import Mathlib.Data.List.FinRange
import RangerRisc.SpiRun

/-! Sequences of transfers: bytes are written to `tx_buf` while the link is idle and then sent,
any number of times from power-up on. -/

namespace RangerRisc

open Clocked ShiftRegister

namespace IOModule

variable {m : IOModule} {i : IOInput} {l : MasterLines}

theorem clock_idle (hs : m.state = .ioIdle) : (m.clock i l).txStrAddr = 0 ∧
    (m.clock i l).rxStrAddr = 0 ∧
    (m.clock i l).txByteCnt = (if !i.txWr then m.txByteCnt + 1 else m.txByteCnt) ∧
    (m.clock i l).txBuf.mem =
      if !i.txWr then Function.update m.txBuf.mem i.txAddr i.txByte else m.txBuf.mem := by
  obtain ⟨state, _⟩ := m
  obtain ⟨_, _, _, _, txWr, _⟩ := i
  subst hs
  cases txWr <;> exact ⟨rfl, rfl, rfl, rfl⟩

theorem clock_complete (hs : m.state = .ioComplete) : (m.clock i l).txByteCnt = 0 := by
  obtain ⟨state, _⟩ := m
  subst hs
  rfl

theorem state_of_cs (hcs : m.cs = false) :
    m.state ≠ .ioBoot ∧ m.state ≠ .ioReset ∧ m.state ≠ .ioIdle := by
  refine ⟨fun hs => ?_, fun hs => ?_, fun hs => ?_⟩ <;> (rw [cs, hs] at hcs; cases hcs)

theorem clock_kept (hs : m.state = .ioBoot ∨ m.state = .ioReset) (hwr : i.txWr = true) :
    (m.clock i l).txByteCnt = m.txByteCnt ∧ (m.clock i l).txBuf.mem = m.txBuf.mem := by
  obtain ⟨state, _⟩ := m
  obtain ⟨_, _, _, _, txWr, _⟩ := i
  obtain rfl : txWr = true := hwr
  rcases hs with hs | hs <;> subst hs <;> exact ⟨rfl, rfl⟩

end IOModule

namespace SpiLink

variable {s : SpiLink} {i : IOInput} {inp : ℕ → IOInput} {q : List Byte} {a b : ℕ}

/-- All registers are zero; nothing is said of the memories. -/
def powerUp (txMem rxMem : BitVec 4 → Byte) : SpiLink where
  io := {
    state := .ioBoot, txByteCnt := 0, txStrAddr := 0, txBuf := ⟨txMem, 0⟩, rxStrAddr := 0
    rxBuf := ⟨rxMem, 0⟩, sysClkCnt := 0, mastSpiClk := false, pMastSpiClk := false
    pByteSent := false, pSpiClk := false }
  master := {
    state := .msIdle, misoSync := ⟨false, false, false⟩, bitCnt := 0, rxBits := 0, txBits := 0
    mosi := false, byteTxComplete := false, rxByte := 0 }
  slave := {
    state := .slIdle, rxByte := 0, sclkSync := ⟨false, false, false⟩
    mosiSync := ⟨false, false, false⟩, ssSync := ⟨false, false, false⟩, bitCnt := 0
    shift := false, loadData := false, shiftData := 0, bufCnt := 0, dataSelect := 0
    rxBuf := fun _ => 0 }

/-- What has been written since the last transfer. -/
def nextQueue (i : IOInput) (s : SpiLink) (q : List Byte) : List Byte :=
  if s.io.state = .ioComplete then [] else if !i.txWr then q ++ [i.txByte] else q

def queue (s : SpiLink) (inp : ℕ → IOInput) : ℕ → List Byte
  | 0 => []
  | n + 1 => nextQueue (inp n) (trace clock s inp n) (queue s inp n)

/-- The link in use: reset is pulsed once, bytes are written at consecutive addresses from 0
while the link is idle, at most 15, and what is sent are the bytes written. -/
structure Drives (s : SpiLink) (inp : ℕ → IOInput) (a b : ℕ) : Prop where
  pulse : a < b
  reset : ∀ n, (inp n).reset = false ↔ a ≤ n ∧ n < b
  write : ∀ n, (inp n).txWr = false → (trace clock s inp n).io.state = .ioIdle ∧
    (inp n).txAddr = BitVec.ofNat 4 (queue s inp n).length ∧ (queue s inp n).length < 15
  send : ∀ n, (trace clock s inp n).io.state = .ioIdle → (inp n).send = false →
    queue s inp (n + 1) ≠ []

/-! ## Between the transfers -/

/-- `tx_buf` has the bytes of the queue. -/
structure Holds (q : List Byte) (s : SpiLink) : Prop where
  length : q.length ≤ 15
  txByteCnt : s.io.txByteCnt = BitVec.ofNat 4 q.length
  txMem : ∀ i (hi : i < q.length), s.io.txBuf.mem (BitVec.ofNat 4 i) = q[i]

/-- The link rests, and keeps what was written. -/
structure Keeps (q : List Byte) (s : SpiLink) : Prop where
  resting : s.Resting
  holds : s.io.state = .ioComplete ∨ Holds q s

/-- A byte written behind those that are stored. -/
theorem stored_append {mem : BitVec 4 → Byte} (b : Byte) (hlt : q.length < 16)
    (h : ∀ i (hi : i < q.length), mem (BitVec.ofNat 4 i) = q[i]) (i : ℕ)
    (hi : i < (q ++ [b]).length) :
    Function.update mem (BitVec.ofNat 4 q.length) b (BitVec.ofNat 4 i) = (q ++ [b])[i] := by
  rcases Nat.lt_or_ge i q.length with hlt' | hge
  · rw [Function.update_of_ne (Exchange.ofNat_ne hlt' hlt), h i hlt',
      List.getElem_append_left hlt']
  · obtain rfl : i = q.length := by
      simp at hi
      omega
    rw [Function.update_self, List.getElem_append_right (Nat.le_refl _)]
    simp

theorem Holds.append {b : Byte} {s' : SpiLink} (h : Holds q s) (hlt : q.length < 15)
    (hcnt : s'.io.txByteCnt = s.io.txByteCnt + 1)
    (hmem : s'.io.txBuf.mem =
      Function.update s.io.txBuf.mem (BitVec.ofNat 4 q.length) b) : Holds (q ++ [b]) s' := by
  refine ⟨by simp; omega, ?_, fun i hi => ?_⟩
  · rw [hcnt, h.txByteCnt, List.length_append]
    exact (BitVec.ofNat_add q.length 1).symm
  · rw [hmem]
    exact stored_append b (by omega) h.txMem i hi

theorem Holds.of_eq {s' : SpiLink} (h : Holds q s) (hcnt : s'.io.txByteCnt = s.io.txByteCnt)
    (hmem : s'.io.txBuf.mem = s.io.txBuf.mem) : Holds q s' := by
  refine ⟨h.length, hcnt.trans h.txByteCnt, fun i hi => ?_⟩
  rw [hmem]
  exact h.txMem i hi

/-- One cycle between the transfers, whether a transfer starts or not. -/
theorem Keeps.clock (h : Keeps q s)
    (hwrite : i.txWr = false → s.io.state = .ioIdle ∧ i.txAddr = BitVec.ofNat 4 q.length ∧
      q.length < 15) : Holds (nextQueue i s q) (s.clock i) := by
  have hio : (s.clock i).io = s.io.clock i s.masterLines := rfl
  have hcs := h.resting.cs
  have hready : s.io.state = .ioBoot ∨ s.io.state = .ioReset →
      Holds (nextQueue i s q) (s.clock i) := by
    intro hs
    have hidle : s.io.state ≠ .ioIdle := by rcases hs with hs | hs <;> rw [hs] <;> decide
    have hcomplete : s.io.state ≠ .ioComplete := by rcases hs with hs | hs <;> rw [hs] <;> decide
    have hwr : i.txWr = true := by
      cases hwr : i.txWr with
      | true => rfl
      | false => exact absurd (hwrite hwr).1 hidle
    obtain ⟨hcnt, hmem⟩ := IOModule.clock_kept (l := s.masterLines) hs hwr
    rw [nextQueue, if_neg hcomplete, hwr]
    exact (h.holds.resolve_left hcomplete).of_eq hcnt hmem
  cases hs : s.io.state with
  | ioBoot => exact hready (.inl hs)
  | ioReset => exact hready (.inr hs)
  | ioComplete =>
    rw [nextQueue, if_pos hs]
    refine ⟨Nat.zero_le 15, ?_, fun i hi => absurd hi (Nat.not_lt_zero i)⟩
    rw [hio]
    exact IOModule.clock_complete hs
  | ioIdle =>
    have hcomplete : s.io.state ≠ .ioComplete := by rw [hs]; decide
    have hholds := h.holds.resolve_left hcomplete
    obtain ⟨-, -, hcnt, hmem⟩ := IOModule.clock_idle (i := i) (l := s.masterLines) hs
    rw [← hio] at hcnt hmem
    rw [nextQueue, if_neg hcomplete]
    cases hwr : i.txWr with
    | false =>
      obtain ⟨-, haddr, hlt⟩ := hwrite hwr
      rw [hwr] at hcnt hmem
      rw [haddr] at hmem
      exact hholds.append hlt hcnt hmem
    | true =>
      rw [hwr] at hcnt hmem
      exact hholds.of_eq hcnt hmem
  | _ =>
    rw [IOModule.cs, hs] at hcs
    cases hcs

/-- A transfer starts in the idle state, and in no other way. -/
theorem Resting.starts (h : s.Resting) (hs : s.io.state = .ioIdle) (hsend : i.send = false)
    (hreset : i.reset = true) :
    Selecting (s.clock i).io.txByteCnt (s.clock i).io.txBuf.mem (s.clock i).master.mosi
      (s.clock i).slave 0 (s.clock i) := by
  have hio : (s.clock i).io = s.io.clock i s.masterLines := rfl
  have hstate : (s.clock i).io.state = .ioBegin := by
    rw [hio, IOModule.clock_state, hreset, IOModule.nextState, hs, hsend]
    rfl
  obtain ⟨htx, hrx, -, -⟩ := IOModule.clock_idle (i := i) (l := s.masterLines) hs
  exact ⟨hstate, h.clock.1, rfl, htx, hrx, rfl, rfl, rfl⟩

/-! ## Runs -/

/-- What is shown while `bytes` are sent, `q i` being in the slave's shift register when byte
`i` begins. -/
def transferLog (bytes : List Byte) (q : ℕ → Byte) : List SpiEvent :=
  (List.finRange bytes.length).flatMap fun i : Fin bytes.length =>
    Exchange.byteLog (BitVec.ofNat 4 i) (BitVec.ofNat 2 (i % 3)) (q i) bytes[i]

theorem Holds.bytesLog (h : Holds q s) (r : ℕ → Byte) :
    Exchange.bytesLog s.io.txBuf.mem r q.length = transferLog q r := by
  have hrange : List.range q.length = (List.finRange q.length).map Fin.val := by
    simp
  rw [Exchange.bytesLog, transferLog, hrange, List.flatMap_map]
  apply List.flatMap_congr
  intro i hi
  rw [h.txMem i i.isLt]
  rfl

/-- A transfer of `bytes` from `s` on: the select line is low until `len` cycles have passed,
the events until then are those of the bytes, and what came back is in `rx_buf`. -/
def Transfers (s : SpiLink) (inp : ℕ → IOInput) (bytes : List Byte) : Prop :=
  ∃ len q, FirstReturn clock (fun t => t.io.cs = true) s inp len ∧
    emitted clock s inp events len = transferLog bytes q ∧
    ∀ i < bytes.length, (trace clock s inp len).io.rxBuf.mem (BitVec.ofNat 4 i) = q i

section Drives

variable (h : Drives s inp a b)
include h

/-- The state machine leaves its reset state when reset is over. -/
theorem Drives.state (hboot : s.io.state = .ioBoot) (n : ℕ) (hn : n ≤ b) :
    (trace clock s inp n).io.state = if n ≤ a then .ioBoot else .ioReset := by
  induction n with
  | zero => exact hboot.trans (if_pos (Nat.zero_le a)).symm
  | succ n ih =>
    have hio : (trace clock s inp (n + 1)).io =
        (trace clock s inp n).io.clock (inp n) (trace clock s inp n).masterLines := rfl
    rw [hio, IOModule.clock_state]
    rcases Nat.lt_or_ge n a with hlt | hge
    · have hreset : (inp n).reset = true := by
        cases hr : (inp n).reset with
        | true => rfl
        | false => exact absurd ((h.reset n).mp hr).1 (by omega)
      have hstate := ih (by omega)
      rw [if_pos (Nat.le_of_lt hlt)] at hstate
      rw [if_pos (Nat.succ_le_of_lt hlt), hreset, IOModule.nextState, hstate, hreset]
      rfl
    · rw [if_neg (show ¬ n + 1 ≤ a by omega), (h.reset n).mpr ⟨hge, hn⟩]
      rfl

theorem Drives.reset_of_state (hboot : s.io.state = .ioBoot) {n : ℕ}
    (hne : (trace clock s inp n).io.state ≠ .ioBoot)
    (hne' : (trace clock s inp n).io.state ≠ .ioReset) : (inp n).reset = true := by
  cases hr : (inp n).reset with
  | true => rfl
  | false =>
    have hstate := h.state hboot n (Nat.le_of_lt ((h.reset n).mp hr).2)
    split at hstate
    · exact absurd hstate hne
    · exact absurd hstate hne'

/-- While the select line is low nothing is reset or written. -/
theorem Drives.quiet (hboot : s.io.state = .ioBoot) {n : ℕ}
    (hcs : (trace clock s inp n).io.cs = false) : (inp n).Quiet := by
  obtain ⟨hnboot, hnreset, hnidle⟩ := IOModule.state_of_cs hcs
  refine ⟨h.reset_of_state hboot hnboot hnreset, ?_⟩
  cases hwr : (inp n).txWr with
  | true => rfl
  | false => exact absurd (h.write n hwr).1 hnidle

theorem Drives.untilReturn (hboot : s.io.state = .ioBoot) {f : ℕ}
    (hcs : (trace clock s inp f).io.cs = false) :
    UntilReturn clock (fun t => t.io.cs = true) (trace clock s inp f) (fun k => inp (f + k))
      IOInput.Quiet := by
  intro k hk
  apply h.quiet hboot
  rcases Nat.eq_zero_or_pos k with rfl | hpos
  · exact hcs
  · rw [trace_add]
    exact Bool.eq_false_of_not_eq_true (hk k hpos (Nat.le_refl k))

/-- A transfer that is asked for while the link keeps what was written. -/
theorem Drives.transfer (hboot : s.io.state = .ioBoot) {f : ℕ}
    (hk : Keeps (queue s inp f) (trace clock s inp f))
    (hidle : (trace clock s inp f).io.state = .ioIdle) (hsend : (inp f).send = false) :
    (trace clock s inp (f + 1)).io.cs = false ∧
    ∃ len q, FirstReturn clock (fun t => t.io.cs = true) (trace clock s inp f)
        (fun k => inp (f + k)) len ∧
      emitted clock (trace clock s inp f) (fun k => inp (f + k)) events len =
        transferLog (queue s inp (f + 1)) q ∧
      (∀ i < (queue s inp (f + 1)).length,
        (trace clock s inp (f + len)).io.rxBuf.mem (BitVec.ofNat 4 i) = q i) ∧
      (trace clock s inp (f + len)).Resting ∧
      (trace clock s inp (f + len)).io.state = .ioComplete := by
  have hreset : (inp f).reset = true :=
    h.reset_of_state hboot (by rw [hidle]; decide) (by rw [hidle]; decide)
  have hholds : Holds (queue s inp (f + 1)) (trace clock s inp (f + 1)) := hk.clock (h.write f)
  have hstarts := hk.resting.starts hidle hsend hreset
  obtain ⟨-, hslave, hbit0, hsilent⟩ := hk.resting.clock (i := inp f)
  obtain ⟨n, hn⟩ : ∃ n, (queue s inp (f + 1)).length = n + 1 :=
    Nat.exists_eq_succ_of_ne_zero fun h0 => h.send f hidle hsend (List.length_eq_zero_iff.mp h0)
  have hlen := hholds.length
  obtain ⟨t, ht⟩ : ∃ t, t = trace clock s inp (f + 1) := ⟨_, rfl⟩
  have hclock : (trace clock s inp f).clock (inp f) = t := ht.symm
  rw [← ht] at hholds
  rw [hclock] at hslave hbit0 hstarts
  rw [hholds.txByteCnt, hn] at hstarts
  have hcs : t.io.cs = false := by rw [IOModule.cs, hstarts.state]
  have huntil := h.untilReturn hboot (f := f + 1) (by rw [← ht]; exact hcs)
  rw [← ht] at huntil
  obtain ⟨inp', hquiet, hsame⟩ :=
    huntil.exists_always ⟨true, true, 0, 0, true, true⟩ ⟨rfl, rfl⟩
  obtain ⟨len, q, hreturn, hrest, hcomplete, hlog, hmem⟩ :=
    hstarts.transfer hslave hbit0 (by omega) hquiet
  have heq := hsame len hreturn
  have htrace : trace clock t inp' len = trace clock s inp (f + (len + 1)) := by
    rw [trace_congr clock t inp' heq, ht, ← trace_add]
    congr 1
    omega
  rw [htrace] at hrest hcomplete hmem
  refine ⟨by rw [← ht]; exact hcs, len + 1, q, ?_, ?_, ?_, hrest, hcomplete⟩
  · apply FirstReturn.afterEdge
    · rw [Nat.add_zero, hclock, hcs]
      decide
    · rw [Nat.add_zero, hclock]
      have := hreturn.congr heq
      simp only [Nat.add_assoc, Nat.add_comm 1] at this
      exact this
  · rw [emitted_succ', Nat.add_zero, hsilent, hclock, ← hholds.bytesLog, hn, ← hlog,
      emitted_congr clock t inp' events heq]
    simp only [Nat.add_assoc, Nat.add_comm 1]
    rfl
  · intro i hi
    exact hmem i (by omega)

/-- At any time the link keeps what was written, or a transfer has been asked for and its
select line is still low. -/
theorem Drives.keeps (hboot : s.io.state = .ioBoot) (h0 : Keeps [] s) (n : ℕ) :
    ∃ m ≤ n, Keeps (queue s inp m) (trace clock s inp m) ∧
      (m = n ∨ (trace clock s inp m).io.state = .ioIdle ∧ (inp m).send = false ∧
        ∀ j, m < j → j ≤ n → (trace clock s inp j).io.cs = false) := by
  induction n with
  | zero => exact ⟨0, Nat.le_refl 0, h0, .inl rfl⟩
  | succ n ih =>
    obtain ⟨m, hm, hk, rfl | ⟨hidle, hsend, hlow⟩⟩ := ih
    · by_cases hstart : (trace clock s inp (m + 1)).io.cs = true
      · obtain ⟨hcalm, hslave, -, -⟩ := hk.resting.clock (i := inp m)
        exact ⟨m + 1, Nat.le_refl _, ⟨⟨hstart, hcalm, hslave⟩, .inr (hk.clock (h.write m))⟩,
          .inl rfl⟩
      · obtain ⟨hidle, hsend, -⟩ :=
          IOModule.clock_cs hk.resting.cs (Bool.eq_false_of_not_eq_true hstart)
        refine ⟨m, hm.trans (Nat.le_succ m), hk, .inr ⟨hidle, hsend, fun j hj hjm => ?_⟩⟩
        obtain rfl : j = m + 1 := by omega
        exact Bool.eq_false_of_not_eq_true hstart
    · by_cases hend : (trace clock s inp (n + 1)).io.cs = true
      · -- the select line rises for the first time, so the transfer is complete
        obtain ⟨-, len, q, hreturn, -, -, hrest, hcomplete⟩ := h.transfer hboot hk hidle hsend
        obtain ⟨d, rfl⟩ := Nat.exists_eq_add_of_le hm
        have hback : FirstReturn clock (fun t => t.io.cs = true) (trace clock s inp m)
            (fun k => inp (m + k)) (d + 1) := by
          refine ⟨Nat.succ_pos d, by rw [← trace_add]; exact hend, fun k hk hkd hcs => ?_⟩
          rw [← trace_add, hlow (m + k) (by omega) (by omega)] at hcs
          cases hcs
        rw [hreturn.unique hback] at hrest hcomplete
        exact ⟨m + d + 1, Nat.le_refl _, ⟨hrest, .inl hcomplete⟩, .inl rfl⟩
      · refine ⟨m, hm.trans (Nat.le_succ n), hk, .inr ⟨hidle, hsend, fun j hj hjn => ?_⟩⟩
        rcases Nat.lt_or_ge n j with hlt | hge
        · obtain rfl : j = n + 1 := by omega
          exact Bool.eq_false_of_not_eq_true hend
        · exact hlow j hj hge

end Drives

theorem powerUp_keeps (txMem rxMem : BitVec 4 → Byte) : Keeps [] (powerUp txMem rxMem) := by
  refine ⟨⟨rfl, ⟨rfl, rfl, rfl, rfl, 0, Nat.zero_le 5, rfl, .inl rfl⟩, ?_⟩,
    .inr ⟨Nat.zero_le 15, rfl, fun i hi => absurd hi (Nat.not_lt_zero i)⟩⟩
  exact ⟨rfl, rfl, rfl, fun hb => hb, fun hb => hb⟩

/-- **Full-duplex integrity.** From power-up on, the select line falls exactly where a transfer
is asked for, and every transfer exchanges the bytes written since the one before it. -/
theorem drives_transfers {txMem rxMem : BitVec 4 → Byte} (h : Drives (powerUp txMem rxMem) inp a b)
    (f : ℕ) :
    ((trace clock (powerUp txMem rxMem) inp f).io.cs = true ∧
        (trace clock (powerUp txMem rxMem) inp (f + 1)).io.cs = false ↔
      (trace clock (powerUp txMem rxMem) inp f).io.state = .ioIdle ∧ (inp f).send = false) ∧
    ((trace clock (powerUp txMem rxMem) inp f).io.state = .ioIdle → (inp f).send = false →
      Transfers (trace clock (powerUp txMem rxMem) inp f) (fun k => inp (f + k))
        (queue (powerUp txMem rxMem) inp (f + 1))) := by
  have hkeeps : (trace clock (powerUp txMem rxMem) inp f).io.state = .ioIdle →
      Keeps (queue (powerUp txMem rxMem) inp f) (trace clock (powerUp txMem rxMem) inp f) := by
    intro hidle
    obtain ⟨m, hm, hk, rfl | ⟨-, -, hlow⟩⟩ := h.keeps rfl (powerUp_keeps txMem rxMem) f
    · exact hk
    · rcases Nat.lt_or_eq_of_le hm with hlt | rfl
      · exact absurd hidle (IOModule.state_of_cs (hlow f hlt (Nat.le_refl f))).2.2
      · exact hk
  refine ⟨⟨fun ⟨hcs, hcs'⟩ => ?_, fun ⟨hidle, hsend⟩ => ⟨?_, ?_⟩⟩, fun hidle hsend => ?_⟩
  · obtain ⟨hidle, hsend, -⟩ := IOModule.clock_cs hcs hcs'
    exact ⟨hidle, hsend⟩
  · exact (hkeeps hidle).resting.cs
  · exact (h.transfer rfl (hkeeps hidle) hidle hsend).1
  · obtain ⟨-, len, q, hreturn, hlog, hmem, -⟩ := h.transfer rfl (hkeeps hidle) hidle hsend
    refine ⟨len, q, hreturn, hlog, fun i hi => ?_⟩
    rw [← trace_add]
    exact hmem i hi

/-- Reset in the first cycle, three bytes from the third one on, and then they are sent. -/
def threeBytes (n : ℕ) : IOInput where
  reset := n ≠ 0
  send := n ≠ 5
  txAddr := BitVec.ofNat 4 (n - 2)
  txByte := [0, 0, 0x41, 0xC3, 0x0F].getD n 0
  txWr := n ≠ 2 ∧ n ≠ 3 ∧ n ≠ 4
  rxRd := true

theorem threeBytes_drives : Drives (powerUp (fun _ => 0) fun _ => 0) threeBytes 0 1 := by
  refine ⟨by decide, fun n => ?_, fun n hn => ?_, fun n _ hn => ?_⟩
  · simp [threeBytes]
  · have hcases : n = 2 ∨ n = 3 ∨ n = 4 := by
      simp [threeBytes] at hn
      omega
    obtain rfl | rfl | rfl := hcases <;> exact ⟨by decide, by decide, by decide⟩
  · obtain rfl : n = 5 := by simpa [threeBytes] using hn
    exact List.cons_ne_nil _ _

theorem threeBytes_transfers :
    Transfers (trace clock (powerUp (fun _ => 0) fun _ => 0) threeBytes 5)
      (fun k => threeBytes (5 + k)) [0x41, 0xC3, 0x0F] :=
  (drives_transfers threeBytes_drives 5).2 rfl rfl

end SpiLink

end RangerRisc
