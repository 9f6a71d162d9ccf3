import RangerRisc.UartFrame

/-! The loopback delivers every byte: the receiver is done with a frame, and idle again,
before the transmitter has completed it. -/

namespace RangerRisc

open Clocked

/-- The signal is high at the cycles `t k`, `k < count`, each time for that one cycle, and
at no other. -/
structure Pulses (sig : ℕ → Bool) (t : ℕ → ℕ) (count : ℕ) : Prop where
  high : ∀ n, sig n = true ↔ ∃ k < count, n = t k
  apart : ∀ k, k + 1 < count → t k + 1 < t (k + 1)

namespace Loopback

/-! ## The line and the synchroniser -/

theorem frameLine_low (b : Byte) : UARTTx.frameLine b 0 = false := by
  simp [UARTTx.frameLine, UARTTx.frameLevel]

theorem frameLine_bit (b : Byte) {i : ℕ} (hi : i < 8) :
    UARTTx.frameLine b (329 + 219 * i) = b.getLsbD i := by
  have hsymbol : (329 + 219 * i) / 219 = i + 1 := by omega
  have hpoint : (329 + 219 * i) % 219 = 110 := by omega
  have hlt : 329 + 219 * i < 2190 := by omega
  have hne : i ≠ 8 := by omega
  simp [UARTTx.frameLine, UARTTx.frameLevel, hsymbol, hpoint, hlt, hne]

theorem frameLine_high (b : Byte) {n : ℕ} (hn : 1971 ≤ n) : UARTTx.frameLine b n = true := by
  unfold UARTTx.frameLine
  split
  · have hsymbol : n / 219 = 9 := by omega
    simp [UARTTx.frameLevel, hsymbol]
  · rfl

/-- The line as the last flip-flop shows it, `n` cycles after `tx_en` was asserted. -/
def wire (b : Byte) (n : ℕ) : Bool := if n < 4 then true else UARTTx.frameLine b (n - 4)

theorem wire_before (b : Byte) {n : ℕ} (hn : n < 4) : wire b n = true := if_pos hn

theorem wire_frame (b : Byte) (n : ℕ) : wire b (n + 4) = UARTTx.frameLine b n := by
  rw [wire, if_neg (by omega), Nat.add_sub_cancel]

theorem wire_high (b : Byte) {n : ℕ} (hn : 1975 ≤ n) : wire b n = true := by
  rw [wire, if_neg (by omega)]
  exact frameLine_high b (by omega)

section Run
variable {l : Loopback} {inp : ℕ → LoopbackInput}

theorem trace_tx (n : ℕ) :
    (trace clock l inp n).tx = trace UARTTx.clock l.tx
      (fun k => ⟨(inp k).txEn, (inp k).txByte⟩) n := by
  induction n with
  | zero => rfl
  | succ n ih => rw [trace_succ, trace_succ, ← ih]; rfl

theorem trace_rx (n : ℕ) :
    (trace clock l inp n).rx =
      trace UARTRx.clock l.rx (fun k => ⟨(inp k).reset, (trace clock l inp k).tx.txOut⟩) n := by
  induction n with
  | zero => rfl
  | succ n ih => rw [trace_succ, trace_succ, ← ih]; rfl

/-! ## One byte -/

theorem Idle.wait {i : LoopbackInput} (h : l.Idle) (hreset : i.reset = true)
    (hen : i.txEn = true) : (l.clock i).Idle := by
  have hrx : (l.rx.clock ⟨i.reset, l.tx.txOut⟩).Idle :=
    UARTRx.Idle.wait ⟨h.rx, h.rxComplete⟩ hreset (by rw [h.rxSync]; rfl)
  refine ⟨?_, ?_, ?_, hrx.state, hrx.rxComplete, ?_⟩
  · simp [clock, UARTTx.clock, h.tx, hen]
  · simp [clock, UARTTx.clock, h.tx, hen]
  · simp [clock, UARTTx.clock, h.tx, hen, h.txComplete]
  · simp [clock, CDCSynchron.clock, h.rxSync, h.txOut]

/-- What the loopback does with a byte, counted from the cycle that asserts `tx_en`. -/
structure Delivers (b : Byte) (run : ℕ → Loopback) : Prop where
  txBusy : ∀ n < 2192, (run n).tx.txComplete = false
  txDone : (run 2192).tx.txComplete = true
  rxBusy : ∀ n ≤ 2192, n ≠ 2141 → (run n).rx.rxComplete = false
  rxDone : (run 2141).rx.rxComplete = true
  rxByte : (run 2141).rx.rxByte = b
  idle : (run 2193).Idle

theorem sends (h : l.Idle) (hen : (inp 0).txEn = false) :
    UARTTx.Sends (inp 0).txByte (fun n => (trace clock l inp (n + 1)).tx) := by
  have hstart := UARTTx.start_frame ⟨(inp 0).txEn, (inp 0).txByte⟩ h.tx h.txComplete hen
  have hsends := UARTTx.sends (fun k => ⟨(inp (k + 1)).txEn, (inp (k + 1)).txByte⟩) hstart
  have heq : (fun n => (trace clock l inp (n + 1)).tx) = trace UARTTx.clock
      (l.tx.clock ⟨(inp 0).txEn, (inp 0).txByte⟩)
      (fun k => ⟨(inp (k + 1)).txEn, (inp (k + 1)).txByte⟩) := by
    funext n
    rw [trace_tx, trace_succ']
  rw [heq]
  exact hsends

/-- The three flip-flops and the register before them hold four successive levels. -/
theorem wire_run (h : l.Idle) (hen : (inp 0).txEn = false) :
    ∀ n ≤ 2193, (trace clock l inp n).tx.txOut = wire (inp 0).txByte (n + 3) ∧
      (trace clock l inp n).rx.rxSync = ⟨wire (inp 0).txByte (n + 2),
        wire (inp 0).txByte (n + 1), wire (inp 0).txByte n⟩ := by
  have hsends := sends h hen
  intro n
  induction n with
  | zero => exact fun _ => ⟨h.txOut, h.rxSync⟩
  | succ n ih =>
    intro hn
    obtain ⟨hout, hsync⟩ := ih (Nat.le_of_succ_le hn)
    constructor
    · rw [show n + 1 + 3 = n + 4 from rfl, wire_frame]
      exact hsends.line n (Nat.le_of_succ_le_succ hn)
    · rw [trace_succ, clock, UARTRx.clock_rxSync, hsync, hout]
      rfl

variable (hreset : ∀ n, (inp n).reset = true)
include hreset

theorem rx_idle_run {m : ℕ} (h : (trace clock l inp m).rx.Idle) {d : ℕ}
    (hfall : ∀ k < d, (trace clock l inp (m + k)).rx.rxSync.fallingO = false) :
    ∀ k ≤ d, (trace clock l inp (m + k)).rx.Idle := by
  intro k
  induction k with
  | zero => exact fun _ => h
  | succ k ih =>
    intro hk
    rw [← Nat.add_assoc, trace_succ]
    exact (ih (Nat.le_of_succ_le hk)).wait (hreset _) (hfall k hk)

/-- **One byte through the loopback.** -/
theorem delivers (h : l.Idle) (hen : (inp 0).txEn = false) :
    Delivers (inp 0).txByte (trace clock l inp) := by
  have hsends := sends h hen
  have hwire := wire_run h hen
  have hfall : ∀ n ≤ 2193, (trace clock l inp n).rx.rxSync.fallingO =
      (wire (inp 0).txByte n && !wire (inp 0).txByte (n + 1)) := by
    intro n hn
    rw [(hwire n hn).2]
    rfl
  -- the start bit reaches the last two flip-flops three cycles after `tx_en`
  have hbefore : ∀ k ≤ 3, (trace clock l inp (0 + k)).rx.Idle := by
    have h0 : (trace clock l inp 0).rx.Idle := ⟨h.rx, h.rxComplete⟩
    apply rx_idle_run hreset h0
    intro k hk
    rw [hfall _ (by omega), wire_before _ (by omega), wire_before _ (by omega)]
    rfl
  have hstart : UARTRx.StartBit 0 (trace clock l inp 4).rx := by
    rw [trace_succ]
    apply (hbefore 3 (Nat.le_refl 3)).start (hreset 3)
    rw [hfall 3 (by omega), wire_before _ (by omega), wire_frame, frameLine_low]
    rfl
  have hshift : ∀ n, trace UARTRx.clock (trace clock l inp 4).rx
      (fun k => ⟨(inp (4 + k)).reset, (trace clock l inp (4 + k)).tx.txOut⟩) n =
      (trace clock l inp (4 + n)).rx := by
    intro n
    rw [trace_rx, trace_rx, ← trace_add]
  have hbits : ∀ i < 8, (trace UARTRx.clock (trace clock l inp 4).rx
      (fun k => ⟨(inp (4 + k)).reset, (trace clock l inp (4 + k)).tx.txOut⟩)
      (328 + 219 * i)).rxSync.syncO = (inp 0).txByte.getLsbD i := by
    intro i hi
    rw [hshift, (hwire _ (by omega)).2, ← frameLine_bit _ hi, ← wire_frame]
    show wire _ (4 + (328 + 219 * i) + 1) = _
    congr 1
    omega
  have hstop : (trace UARTRx.clock (trace clock l inp 4).rx
      (fun k => ⟨(inp (4 + k)).reset, (trace clock l inp (4 + k)).tx.txOut⟩)
      2136).rxSync.syncO = true := by
    rw [hshift, (hwire _ (by omega)).2]
    exact wire_high (inp 0).txByte (n := 2141) (by omega)
  have hreceives := UARTRx.receives (fun n => hreset (4 + n)) hstart hbits hstop
  have hafter : ∀ k ≤ 51, (trace clock l inp (2142 + k)).rx.Idle := by
    apply rx_idle_run hreset
    · have := hreceives.idle
      rwa [hshift] at this
    · intro k hk
      rw [hfall _ (by omega), wire_high _ (by omega), wire_high _ (by omega)]
      rfl
  have hcomplete := hreceives.complete
  rw [hshift] at hcomplete
  refine ⟨?_, hsends.complete, ?_, hcomplete.rxComplete, hcomplete.rxByte, ?_⟩
  · intro n hn
    cases n with
    | zero => exact h.txComplete
    | succ n => exact hsends.busy n (Nat.lt_of_succ_lt_succ hn)
  · intro n hn hne
    rcases Nat.lt_or_ge n 4 with hlt | hge
    · have := (hbefore n (by omega)).rxComplete
      rwa [Nat.zero_add] at this
    · rcases Nat.lt_or_ge n 2141 with hlt | hge'
      · have := hreceives.busy (n - 4) (by omega)
        rwa [hshift, show 4 + (n - 4) = n by omega] at this
      · have := (hafter (n - 2142) (by omega)).rxComplete
        rwa [show 2142 + (n - 2142) = n by omega] at this
  · obtain ⟨hout, hsync⟩ := hwire 2193 (Nat.le_refl _)
    have htx := hsends.idle
    have hrx := hafter 51 (Nat.le_refl _)
    refine ⟨htx.state, htx.txOut, htx.txComplete, hrx.state, hrx.rxComplete, ?_⟩
    rw [hsync, wire_high _ (by omega), wire_high _ (by omega), wire_high _ (by omega)]

end Run

/-! ## Any number of bytes -/

/-- The `k`-th byte is asserted at cycle `start k`, after the completion of the one before;
`tx_en` is high but for the assertions, each held for no longer than until its completion. -/
structure Drives (l : Loopback) (inp : ℕ → LoopbackInput) (bytes : List Byte) (start : ℕ → ℕ) :
    Prop where
  reset : ∀ n, (inp n).reset = true
  asserted : ∀ k (hk : k < bytes.length),
    (inp (start k)).txEn = false ∧ (inp (start k)).txByte = bytes[k]
  afterComplete : ∀ k, k + 1 < bytes.length →
    ∃ n, start k < n ∧ n < start (k + 1) ∧ (trace clock l inp n).tx.txComplete = true
  only : ∀ n, (inp n).txEn = false → ∃ k < bytes.length, start k ≤ n ∧
    ∀ m, start k < m → m < n → (trace clock l inp m).tx.txComplete = false

section Bytes
variable {l : Loopback} {inp : ℕ → LoopbackInput} {bytes : List Byte} {start : ℕ → ℕ}

theorem Drives.start_le (hd : Drives l inp bytes start) {j k : ℕ} (hjk : j ≤ k)
    (hk : k < bytes.length) : start j ≤ start k := by
  induction k with
  | zero => exact Nat.le_of_eq (congrArg start (Nat.le_zero.mp hjk))
  | succ k ih =>
    rcases Nat.lt_or_eq_of_le hjk with hlt | rfl
    · obtain ⟨n, hn, hn', _⟩ := hd.afterComplete k hk
      have := ih (Nat.le_of_lt_succ hlt) (Nat.lt_of_succ_lt hk)
      omega
    · exact Nat.le_refl _

theorem Drives.delivers (hd : Drives l inp bytes start) {k : ℕ} (hk : k < bytes.length)
    (h : (trace clock l inp (start k)).Idle) :
    Delivers bytes[k] (fun n => trace clock l inp (start k + n)) := by
  obtain ⟨hen, hbyte⟩ := hd.asserted k hk
  have hone := @Loopback.delivers _ (fun n => inp (start k + n)) (fun n => hd.reset _) h hen
  have heq : trace clock (trace clock l inp (start k)) (fun n => inp (start k + n)) =
      fun n => trace clock l inp (start k + n) := by
    funext n
    rw [trace_add]
  rw [heq] at hone
  rw [← hbyte]
  exact hone

theorem Drives.idle_until (hd : Drives l inp bytes start) {m n : ℕ} (hmn : m ≤ n)
    (h : (trace clock l inp m).Idle) (hen : ∀ k, m ≤ k → k < n → (inp k).txEn = true) :
    (trace clock l inp n).Idle := by
  induction n with
  | zero => rwa [Nat.le_zero.mp hmn] at h
  | succ n ih =>
    rcases Nat.lt_or_eq_of_le hmn with hlt | rfl
    · have hn := ih (Nat.le_of_lt_succ hlt) (fun k hk hkn => hen k hk (Nat.lt_succ_of_lt hkn))
      rw [trace_succ]
      exact hn.wait (hd.reset n) (hen n (Nat.le_of_lt_succ hlt) (Nat.lt_succ_self n))
    · exact h

/-- The next byte waits for the completion, which is the last cycle of the frame. -/
theorem Drives.start_gap (hd : Drives l inp bytes start) {k : ℕ} (hk : k < bytes.length)
    (hnext : k + 1 < bytes.length)
    (h : Delivers bytes[k] (fun n => trace clock l inp (start k + n))) :
    start k + 2192 < start (k + 1) := by
  obtain ⟨n, hn, hn', hdone⟩ := hd.afterComplete k hnext
  by_contra hge
  have hbusy := h.txBusy (n - start k) (by omega)
  simp only [Nat.add_sub_cancel' (Nat.le_of_lt hn), hdone] at hbusy
  exact absurd hbusy (by decide)

/-- Every byte finds the loopback idle. -/
theorem Drives.idle_start (hd : Drives l inp bytes start) (h0 : l.Idle) {k : ℕ}
    (hk : k < bytes.length) : (trace clock l inp (start k)).Idle := by
  induction k with
  | zero =>
    apply hd.idle_until (m := 0) (Nat.zero_le _) h0
    intro n _ hn
    by_contra hen
    obtain ⟨j, hj, hjn, _⟩ := hd.only n (by simpa using hen)
    have := hd.start_le (Nat.zero_le j) hj
    omega
  | succ k ih =>
    have hdel := hd.delivers (Nat.lt_of_succ_lt hk) (ih (Nat.lt_of_succ_lt hk))
    have hgap := hd.start_gap (Nat.lt_of_succ_lt hk) hk hdel
    apply hd.idle_until (m := start k + 2193) hgap hdel.idle
    intro n hn hn'
    by_contra hen
    obtain ⟨j, hj, hjn, hquiet⟩ := hd.only n (by simpa using hen)
    -- an assertion that began with an earlier byte has been completed
    rcases Nat.lt_or_ge k j with hkj | hjk
    · have : start (k + 1) ≤ start j := hd.start_le hkj hj
      omega
    · have hle := hd.start_le hjk (Nat.lt_of_succ_lt hk)
      have hbusy := hquiet (start k + 2192) (by omega) (by omega)
      have hdone : (trace clock l inp (start k + 2192)).tx.txComplete = true := hdel.txDone
      rw [hdone] at hbusy
      exact absurd hbusy (by decide)

/-- Every cycle is idle or belongs to the frame of a byte. -/
theorem Drives.cycle_cases (hd : Drives l inp bytes start) (h0 : l.Idle) (n : ℕ) :
    (trace clock l inp n).Idle ∨ ∃ k < bytes.length, start k < n ∧ n ≤ start k + 2192 := by
  induction n with
  | zero => exact .inl h0
  | succ n ih =>
    by_cases hframe : ∃ k < bytes.length, start k < n + 1 ∧ n + 1 ≤ start k + 2192
    · exact .inr hframe
    · left
      have hend : ∀ k < bytes.length, start k ≤ n → start k + 2192 ≤ n := by
        intro k hk hkn
        by_contra hlt
        exact hframe ⟨k, hk, by omega, by omega⟩
      have hidle : ∀ k < bytes.length, n = start k + 2192 → (trace clock l inp (n + 1)).Idle := by
        rintro k hk rfl
        exact (hd.delivers hk (hd.idle_start h0 hk)).idle
      rcases ih with hn | ⟨k, hk, hkn, hkn'⟩
      · by_cases hen : (inp n).txEn = true
        · rw [trace_succ]
          exact hn.wait (hd.reset n) hen
        · obtain ⟨k, hk, hkn, hquiet⟩ := hd.only n (by simpa using hen)
          rcases Nat.lt_or_eq_of_le (hend k hk hkn) with hlt | heq
          · have hdone : (trace clock l inp (start k + 2192)).tx.txComplete = true :=
              (hd.delivers hk (hd.idle_start h0 hk)).txDone
            have hbusy := hquiet (start k + 2192) (by omega) hlt
            rw [hdone] at hbusy
            exact absurd hbusy (by decide)
          · exact hidle k hk heq.symm
      · exact hidle k hk (Nat.le_antisymm hkn' (hend k hk (Nat.le_of_lt hkn)))

/-- A signal that is low on an idle loopback, and high at one cycle of every frame. -/
theorem Drives.pulses (hd : Drives l inp bytes start) (h0 : l.Idle) {sig : Loopback → Bool} {d : ℕ}
    (hidle : ∀ l, l.Idle → sig l = false)
    (hlow : ∀ b run, Delivers b run → ∀ n ≤ 2192, n ≠ d → sig (run n) = false)
    (hhigh : ∀ b run, Delivers b run → sig (run d) = true) :
    Pulses (fun n => sig (trace clock l inp n)) (fun k => start k + d) bytes.length := by
  have hdel := fun k (hk : k < bytes.length) => hd.delivers hk (hd.idle_start h0 hk)
  constructor
  · intro n
    constructor
    · intro hn
      rcases hd.cycle_cases h0 n with hfree | ⟨k, hk, hkn, hkn'⟩
      · rw [hidle _ hfree] at hn
        exact absurd hn (by decide)
      · refine ⟨k, hk, ?_⟩
        by_contra hne
        have hbusy := hlow _ _ (hdel k hk) (n - start k) (by omega) (by omega)
        simp only [Nat.add_sub_cancel' (Nat.le_of_lt hkn), hn] at hbusy
        exact absurd hbusy (by decide)
    · rintro ⟨k, hk, rfl⟩
      exact hhigh _ _ (hdel k hk)
  · intro k hk
    have := hd.start_gap (Nat.lt_of_succ_lt hk) hk (hdel k (Nat.lt_of_succ_lt hk))
    omega

/-- **The loopback.** Each byte completes once at either end, at a fixed distance from its
assertion, and the receiver shows that byte. -/
theorem loopback (h0 : l.Idle) (hd : Drives l inp bytes start) :
    Pulses (fun n => (trace clock l inp n).tx.txComplete) (fun k => start k + 2192) bytes.length ∧
      Pulses (fun n => (trace clock l inp n).rx.rxComplete) (fun k => start k + 2141)
        bytes.length ∧
      ∀ k (hk : k < bytes.length), (trace clock l inp (start k + 2141)).rx.rxByte = bytes[k] := by
  refine ⟨?_, ?_, fun k hk => (hd.delivers hk (hd.idle_start h0 hk)).rxByte⟩
  · exact hd.pulses h0  (fun l hl => hl.txComplete)
      (fun b run h n hn hne => h.txBusy n (Nat.lt_of_le_of_ne hn hne)) (fun b run h => h.txDone)
  · exact hd.pulses h0  (fun l hl => hl.rxComplete)
      (fun b run h => h.rxBusy) (fun b run h => h.rxDone)

/-! Two bytes, the second at the first idle cycle after the first. -/

def idleLine : Loopback where
  tx := ⟨.txIdle, 0, 0, 0, 0, true, false⟩
  rx := ⟨⟨true, true, true⟩, .rxIdle, 0, 0, 0, 0, false⟩

def twoBytes (n : ℕ) : LoopbackInput where
  reset := true
  txEn := !(n == 0 || n == 2193)
  txByte := if n = 0 then 0xA9 else 0xF2

theorem idleLine_idle : idleLine.Idle := ⟨rfl, rfl, rfl, rfl, rfl, rfl⟩

theorem twoBytes_drives : Drives idleLine twoBytes [0xA9, 0xF2] (fun k => 2193 * k) where
  reset _ := rfl
  asserted k hk := by
    match k, hk with
    | 0, _ => exact ⟨rfl, rfl⟩
    | 1, _ => exact ⟨rfl, rfl⟩
  afterComplete k hk := by
    obtain rfl : k = 0 := by
      have : k + 1 < 2 := hk
      omega
    have hreset : ∀ n, (twoBytes n).reset = true := fun _ => rfl
    exact ⟨2192, by omega, by omega, (Loopback.delivers hreset idleLine_idle rfl).txDone⟩
  only n hn := by
    have h : n = 0 ∨ n = 2193 := by
      by_contra hne
      simp_all [twoBytes]
    rcases h with rfl | rfl
    · exact ⟨0, by decide, by omega, fun m hm hm' => absurd hm' (by omega)⟩
    · exact ⟨1, by decide, by omega, fun m hm hm' => absurd hm' (by omega)⟩

theorem loopback_twoBytes :
    Pulses (fun n => (trace clock idleLine twoBytes n).tx.txComplete) (fun k => 2193 * k + 2192) 2 ∧
      Pulses (fun n => (trace clock idleLine twoBytes n).rx.rxComplete) (fun k => 2193 * k + 2141)
        2 ∧
      ∀ k (hk : k < 2), (trace clock idleLine twoBytes (2193 * k + 2141)).rx.rxByte =
        ([0xA9, 0xF2] : List Byte)[k] :=
  loopback idleLine_idle twoBytes_drives

end Bytes

end Loopback

end RangerRisc
