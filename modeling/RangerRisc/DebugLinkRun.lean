import Mathlib.Data.Finset.Card
import Mathlib.Data.Finset.Range
import RangerRisc.DebugLink

/-! Runs of the debug link on a host's line: every command is answered once, and the next one
finds the controller idle. -/

namespace RangerRisc

open Clocked

namespace DebugLink

def sender (l : DebugLink) : Sender := ⟨l.control, l.tx⟩

/-- What the sender reads of the link. -/
def senderInput (l : DebugLink) (i : DebugLinkInput) : SenderInput :=
  ⟨i.locked, l.rx.rxComplete, l.rx.rxByte, i.status⟩

theorem clock_sender (l : DebugLink) (i : DebugLinkInput) :
    (l.clock i).sender = l.sender.clock (l.senderInput i) := rfl

theorem clock_rx (l : DebugLink) (i : DebugLinkInput) :
    (l.clock i).rx = l.rx.clock ⟨l.control.reset, i.rxIn⟩ := rfl

section Run

variable {l : DebugLink} {inp : ℕ → DebugLinkInput}

theorem trace_sender (m n : ℕ) :
    (trace clock l inp (m + n)).sender = trace Sender.clock (trace clock l inp m).sender
      (fun k => (trace clock l inp (m + k)).senderInput (inp (m + k))) n := by
  induction n with
  | zero => rfl
  | succ n ih => rw [← Nat.add_assoc, trace_succ, trace_succ, clock_sender, ih]

theorem trace_rx (m n : ℕ) :
    (trace clock l inp (m + n)).rx = trace UARTRx.clock (trace clock l inp m).rx
      (fun k => ⟨(trace clock l inp (m + k)).control.reset, (inp (m + k)).rxIn⟩) n := by
  induction n with
  | zero => rfl
  | succ n ih => rw [← Nat.add_assoc, trace_succ, trace_succ, clock_rx, ih]

theorem trace_rxSync (n : ℕ) : (trace clock l inp (n + 3)).rx.rxSync =
    ⟨(inp (n + 2)).rxIn, (inp (n + 1)).rxIn, (inp n).rxIn⟩ := by
  have hrx := @trace_rx l inp 0 (n + 3)
  rw [Nat.zero_add] at hrx
  rw [hrx, UARTRx.trace_rxSync]
  simp only [Nat.zero_add]

/-! ## From power-up -/

/-- The registers that are declared with a value have it, and the count of the status bytes,
which no state clears before it is used, has the zero of an iCE40 flip-flop. -/
structure PowerUp (l : DebugLink) : Prop where
  state : l.control.state = .csReset
  nextState : l.control.nextState = .csReset
  cntStatusReqByte : l.control.cntStatusReqByte = 0
  tx : l.tx.state = .txReset

/-- The controller waits for the PLL, or leaves its reset states. -/
structure Booting (l : DebugLink) : Prop where
  states : (l.control.state = .csReset1 ∧ l.control.nextState = .csReset1) ∨
    (l.control.state = .csReset1 ∧ l.control.nextState = .csResetComplete) ∨
    (l.control.state = .csResetComplete ∧ l.control.nextState = .csResetComplete) ∨
    (l.control.state = .csResetComplete ∧ l.control.nextState = .csIdle ∧ l.control.reset = true)
  cntByte : l.control.cntByte = 0
  cntStatusReqByte : l.control.cntStatusReqByte = 0
  txEn : l.control.txEn = true
  tx : UARTTx.Closing 0 l.tx

/-- Open for a command. -/
structure Listening (l : DebugLink) : Prop where
  sender : l.sender.Resting
  rx : l.rx.Idle
  rxSync : l.rx.rxSync = ⟨true, true, true⟩

theorem Booting.step (h : l.Booting) (i : DebugLinkInput) :
    (l.clock i).Booting ∨ ((l.clock i).sender.Resting ∧ l.control.reset = true) := by
  obtain ⟨hstates, hcnt, hreq, hen, htx⟩ := h
  have htx' : UARTTx.Closing 0 (l.clock i).tx := htx.wait ⟨l.control.txEn, l.control.txByte⟩ hen
  rcases hstates with ⟨hs, hn⟩ | ⟨hs, hn⟩ | ⟨hs, hn⟩ | ⟨hs, hn, hr⟩
  · left
    cases hl : i.locked <;> refine ⟨?_, ?_, ?_, ?_, htx'⟩ <;>
      simp [clock, Controller.clock, hs, hn, hl, hcnt, hreq, hen]
  · left
    cases hl : i.locked <;> refine ⟨?_, ?_, ?_, ?_, htx'⟩ <;>
      simp [clock, Controller.clock, hs, hn, hl, hcnt, hreq, hen]
  · left
    refine ⟨?_, ?_, ?_, ?_, htx'⟩ <;> simp [clock, Controller.clock, hs, hn, hcnt, hreq, hen]
  · right
    refine ⟨⟨⟨?_, ?_, ?_, ?_, ?_, ?_⟩, htx'⟩, hr⟩ <;>
      simp [sender, clock, Controller.clock, hs, hn, hcnt, hreq, hen]

theorem Listening.dormant (h : l.Listening) : l.rx.Dormant :=
  ⟨.inl h.rx.state, h.rx.rxComplete, h.rxSync⟩

theorem Listening.wait (h : l.Listening) {i : DebugLinkInput} (hin : i.rxIn = true) :
    (l.clock i).Listening where
  sender := h.sender.wait (i := l.senderInput i) h.rx.rxComplete
  rx := h.dormant.idle h.sender.control.reset
  rxSync := by
    have hdormant : (l.clock i).rx.Dormant := h.dormant.wait hin
    exact hdormant.rxSync

theorem rx_held (r : UARTRx) (rxIn : Bool) : (r.clock ⟨false, rxIn⟩).state = .rxReset := by
  simp [UARTRx.clock]

theorem rx_cleared {r : UARTRx} (h : r.state = .rxReset) (i : RxInput) :
    (r.clock i).rxComplete = false := by
  cases hr : i.reset <;> simp [UARTRx.clock, h, hr]

/-- The controller waits for the PLL, and the receiver is held in reset. -/
structure Held (l : DebugLink) : Prop where
  booting : l.Booting
  state : l.control.state = .csReset1
  nextState : l.control.nextState = .csReset1
  reset : l.control.reset = false
  rx : l.rx.state = .rxReset

/-- The first two edges, at which CSReset runs. -/
theorem PowerUp.reset (h : l.PowerUp) :
    (trace clock l inp 2).Held ∧ ∀ n < 3, (trace clock l inp n).sender.starts = false := by
  obtain ⟨hs, hn, hreq, htx⟩ := h
  have h1 : (trace clock l inp 1).control.state = .csReset ∧
      (trace clock l inp 1).control.nextState = .csReset1 ∧
      (trace clock l inp 1).control.cntStatusReqByte = 0 ∧
      (trace clock l inp 1).control.txEn = true ∧ (trace clock l inp 1).control.reset = false ∧
      (trace clock l inp 1).tx.state = .txIdle ∧ (trace clock l inp 1).tx.txComplete = false := by
    simp [trace, clock, Controller.clock, UARTTx.clock, hs, hn, hreq, htx]
  obtain ⟨hs1, hn1, hq1, he1, hr1, ht1, hd1⟩ := h1
  have htx2 : UARTTx.Closing 0 (trace clock l inp 2).tx := by
    rw [trace_succ]
    constructor <;> simp [clock, UARTTx.clock, ht1, hd1, he1]
  have hboot : (trace clock l inp 2).Booting := by
    refine ⟨.inl ?_, ?_, ?_, ?_, htx2⟩ <;> rw [trace_succ] <;>
      simp [clock, Controller.clock, hs1, hn1, hq1]
  refine ⟨⟨hboot, ?_, ?_, ?_, ?_⟩, ?_⟩
  · rw [trace_succ]
    simp [clock, Controller.clock, hs1, hn1]
  · rw [trace_succ]
    simp [clock, Controller.clock, hs1]
  · rw [trace_succ]
    simp [clock, Controller.clock, hs1]
  · rw [trace_succ, clock_rx, hr1]
    exact rx_held _ _
  · intro n hn
    rcases (by omega : n = 0 ∨ n = 1 ∨ n = 2) with rfl | rfl | rfl
    · simp [Sender.starts, sender, htx]
    · simp [Sender.starts, sender, he1]
    · simp [Sender.starts, sender, hboot.txEn]

/-- With reset low the controller does not come to CSIdle. -/
theorem Held.booting_step (h : l.Held) (i : DebugLinkInput) : (l.clock i).Booting := by
  rcases h.booting.step i with hboot | ⟨-, hreset⟩
  · exact hboot
  · rw [h.reset] at hreset
    cases hreset

/-- An edge without the PLL's lock leaves the controller where it is. -/
theorem Held.wait (h : l.Held) {i : DebugLinkInput} (hlocked : i.locked = false) :
    (l.clock i).Held := by
  have hboot := h.booting_step i
  obtain ⟨-, hs, hn, hr, hrx⟩ := h
  have hs' : (l.clock i).control.state = .csReset1 := by
    simp [clock, Controller.clock, hs, hn]
  refine ⟨hboot, hs', ?_, ?_, ?_⟩
  · simp [clock, Controller.clock, hs, hn, hlocked]
  · simp [clock, Controller.clock, hs]
  · rw [clock_rx, hr]
    exact rx_held _ _

/-- The third edge, and every other one out of `Held`: by then the flip-flops show the line. -/
theorem Held.booting_next {n : ℕ} (h : (trace clock l inp (n + 2)).Held)
    (hline : ∀ k < 3, (inp (n + k)).rxIn = true) :
    (trace clock l inp (n + 3)).Booting ∧ (trace clock l inp (n + 3)).rx.Dormant := by
  have hboot := h.booting_step (inp (n + 2))
  obtain ⟨-, -, -, hr, hrx⟩ := h
  refine ⟨hboot, ?_, ?_, ?_⟩
  · rw [trace_succ, clock_rx, hr]
    exact .inr (rx_held _ _)
  · rw [trace_succ, clock_rx]
    exact rx_cleared hrx _
  · rw [trace_rxSync n, hline 2 (by decide), hline 1 (by decide), ← hline 0 (by decide)]
    rfl

/-- As long as the line stays high the link boots and then listens. -/
theorem Booting.boot {k m : ℕ}
    (hk : (trace clock l inp k).Booting ∧ (trace clock l inp k).rx.Dormant)
    (hline : ∀ n, k ≤ n → n < m → (inp n).rxIn = true) :
    ∀ n, k ≤ n → n ≤ m → ((trace clock l inp n).Booting ∧ (trace clock l inp n).rx.Dormant) ∨
      (trace clock l inp n).Listening := by
  intro n hn
  induction hn with
  | refl => exact fun _ => .inl hk
  | @step n hn ih =>
    intro hm
    have hin := hline n hn hm
    rw [trace_succ]
    rcases ih (Nat.le_of_succ_le hm) with ⟨hboot, hrx⟩ | hlisten
    · have hrx' : ((trace clock l inp n).clock (inp n)).rx.Dormant := hrx.wait hin
      rcases hboot.step (inp n) with hboot' | ⟨hrest, hr⟩
      · exact .inl ⟨hboot', hrx'⟩
      · exact .inr ⟨hrest, hrx.idle hr, hrx'.rxSync⟩
    · exact .inr (hlisten.wait hin)

/-- Until the line goes low for the first time. -/
theorem PowerUp.boot (h : l.PowerUp) {m : ℕ} (hline : ∀ n < m, (inp n).rxIn = true) {n : ℕ}
    (hn : 3 ≤ n) (hm : n ≤ m) :
    ((trace clock l inp n).Booting ∧ (trace clock l inp n).rx.Dormant) ∨
      (trace clock l inp n).Listening := by
  have hheld : (trace clock l inp (0 + 2)).Held := (@PowerUp.reset l inp h).1
  have hboot := hheld.booting_next fun k hk => hline (0 + k) (by omega)
  exact Booting.boot hboot (fun n _ hn => hline n hn) n hn hm

theorem starts_of_boot (h : l.Booting ∧ l.rx.Dormant ∨ l.Listening) : l.sender.starts = false := by
  rcases h with ⟨hboot, -⟩ | hlisten
  · simp [Sender.starts, sender, hboot.txEn]
  · simp [Sender.starts, hlisten.sender.control.txEn]

/-- Nothing is sent before the first command. -/
theorem PowerUp.silent (h : l.PowerUp) {n : ℕ} (hline : ∀ k < n, (inp k).rxIn = true) :
    (trace clock l inp n).sender.starts = false := by
  rcases Nat.lt_or_ge n 3 with hlt | hge
  · exact (@PowerUp.reset l inp h).2 n hlt
  · exact starts_of_boot (h.boot hline hge (Nat.le_refl n))

/-- What comes before the PLL has locked is not heard: if the line is high from then on, nothing is
sent at all. -/
theorem PowerUp.unheard (h : l.PowerUp) {m : ℕ} (hm : 2 ≤ m)
    (hlocked : ∀ n < m, (inp n).locked = false) (hline : ∀ n, m ≤ n + 2 → (inp n).rxIn = true)
    (n : ℕ) : (trace clock l inp n).sender.starts = false := by
  obtain ⟨hreset, hearly⟩ := @PowerUp.reset l inp h
  have hheld : ∀ d, 2 + d ≤ m → (trace clock l inp (2 + d)).Held := by
    intro d
    induction d with
    | zero => exact fun _ => hreset
    | succ d ih => exact fun hd => (ih (by omega)).wait (hlocked (2 + d) hd)
  rcases Nat.lt_or_ge n 2 with hlt | hge
  · exact hearly n (by omega)
  · rcases Nat.lt_or_ge m n with hlate | hsoon
    · have hlast : (trace clock l inp (m - 2 + 2)).Held := by
        have hd := hheld (m - 2) (by omega)
        rwa [Nat.add_comm] at hd
      have hboot := hlast.booting_next fun k _ => hline _ (by omega)
      exact starts_of_boot (Booting.boot hboot (fun j hj _ => hline j (by omega)) n (by omega)
        (Nat.le_refl n))
    · have hd := hheld (n - 2) (by omega)
      rw [Nat.add_sub_cancel' hge] at hd
      simp [Sender.starts, sender, hd.booting.txEn]

/-! ## The host -/

/-- The line that a host drives at 115200 baud. The frame of command `k` begins at the cycle
`start k`; a symbol lasts 217 cycles, and the line shows it but for 80 cycles at either end.
The line carries one frame at a time. -/
structure Host (line : ℕ → Bool) (cmds : List Byte) (start : ℕ → ℕ) : Prop where
  order : ∀ k, k + 1 < cmds.length → start k + 217 * 10 ≤ start (k + 1)
  begins : ∀ k < cmds.length, line (start k) = false
  bits : ∀ k (hk : k < cmds.length), ∀ i < 8, ∀ n, 217 * (i + 1) + 80 ≤ n →
    n + 80 ≤ 217 * (i + 2) → line (start k + n) = cmds[k].getLsbD i
  rests : ∀ n, (∀ k < cmds.length, start k ≤ n → start k + (217 * 9 + 80) ≤ n) → line n = true

/-- The bytes that a host has received by cycle `n` of those sent from cycle `m` on: a byte is
received once its stop bit has begun, nine symbols into its frame. -/
def received (run : ℕ → DebugLink) (m n : ℕ) : ℕ :=
  ((Finset.range (n + 1)).filter fun c =>
    m ≤ c ∧ c + 1 + 9 * 219 ≤ n ∧ (run c).sender.starts = true).card

/-- The link when the command `b`, whose frame began at cycle `s`, completes. -/
structure Arrives (run : ℕ → DebugLink) (b : Byte) (s : ℕ) : Prop where
  quiet : ∀ n < 2140, (run (s + n)).rx.rxComplete = false
  resting : (run (s + 2140)).sender.Resting
  complete : UARTRx.Completing b (run (s + 2140)).rx
  silent : ∀ n ≤ 2140, (run (s + n)).sender.starts = false

section Line

variable {cmds : List Byte} {start : ℕ → ℕ}

theorem Host.start_le (h : Host (fun n => (inp n).rxIn) cmds start) {j k : ℕ} (hjk : j ≤ k)
    (hk : k < cmds.length) : start j ≤ start k := by
  induction hjk with
  | refl => exact Nat.le_refl _
  | @step k _ ih =>
    have hle := ih (Nat.lt_of_succ_lt hk)
    have hstep : start k + 217 * 10 ≤ start k.succ := h.order k hk
    omega

/-- The line is high before the first command. -/
theorem Host.before (h : Host (fun n => (inp n).rxIn) cmds start) {n : ℕ}
    (hn : ∀ _ : 0 < cmds.length, n < start 0) : (inp n).rxIn = true := by
  refine h.rests n fun k hk hkn => ?_
  have := hn (Nat.zero_lt_of_lt hk)
  have := h.start_le (Nat.zero_le k) hk
  omega

/-- And from the stop bit of a command to the next one. -/
theorem Host.between (h : Host (fun n => (inp n).rxIn) cmds start) {k n : ℕ} (hk : k < cmds.length)
    (hlow : start k + 2033 ≤ n) (hhigh : k + 1 < cmds.length → n < start (k + 1)) :
    (inp n).rxIn = true := by
  refine h.rests n fun j hj hjn => ?_
  rcases Nat.lt_or_ge k j with hlt | hge
  · have hnext : k + 1 < cmds.length := Nat.lt_of_le_of_lt hlt hj
    have hlate := hhigh hnext
    have hle : start (k + 1) ≤ start j := h.start_le hlt hj
    omega
  · have := h.start_le hge hk
    omega

/-- **The reception of a command**, as long as `reset` stays high. -/
theorem Host.receives (h : Host (fun n => (inp n).rxIn) cmds start) {k : ℕ} (hk : k < cmds.length)
    (hrx : (trace clock l inp (start k)).rx.Idle)
    (hsync : (trace clock l inp (start k)).rx.rxSync = ⟨true, true, true⟩)
    (hreset : ∀ m < 2140, (∀ n < m, (trace clock l inp (start k + n)).rx.rxComplete = false) →
      (trace clock l inp (start k + m)).control.reset = true) :
    (∀ n < 2140, (trace clock l inp (start k + n)).rx.rxComplete = false) ∧
      UARTRx.Completing cmds[k] (trace clock l inp (start k + 2140)).rx := by
  obtain ⟨hquiet, hcomplete⟩ := @UARTRx.receives_command cmds[k] _
    (fun n => (inp (start k + n)).rxIn)
    hrx hsync (h.begins k hk) (fun i hi => h.bits k hk i hi _ (by omega) (by omega))
    (h.between hk (by omega) fun hlt => by have := h.order k hlt; omega)
  have hideal : ∀ m ≤ 2140, ∀ n ≤ m, (trace clock l inp (start k + n)).rx =
      trace UARTRx.clock (trace clock l inp (start k)).rx
        (fun n => ⟨true, (inp (start k + n)).rxIn⟩) n := by
    intro m
    induction m with
    | zero =>
      intro _ n hn
      rw [Nat.le_zero.mp hn]
      rfl
    | succ m ih =>
      intro hm n hn
      have hprev := ih (Nat.le_of_succ_le hm)
      rcases Nat.lt_or_eq_of_le hn with hlt | rfl
      · exact hprev n (Nat.le_of_lt_succ hlt)
      · have hr := hreset m hm fun n hn => by
          rw [hprev n (Nat.le_of_lt hn)]
          exact hquiet n (Nat.lt_trans hn hm)
        rw [← Nat.add_assoc, trace_succ, clock_rx, hr, hprev m (Nat.le_refl m), trace_succ]
  refine ⟨fun n hn => ?_, ?_⟩
  · rw [hideal n (Nat.le_of_lt hn) n (Nat.le_refl n)]
    exact hquiet n hn
  · rw [hideal 2140 (Nat.le_refl _) 2140 (Nat.le_refl _)]
    exact hcomplete

theorem answers_from {e horizon : ℕ} (hrest : (trace clock l inp e).sender.Resting)
    (h0 : (trace clock l inp e).rx.rxComplete = true)
    (h1 : (trace clock l inp (e + 1)).rx.rxComplete = false)
    (hcalm : ∀ n, responseEnd (trace clock l inp e).rx.rxByte ≤ n → n < horizon →
      (trace clock l inp (e + n)).rx.rxComplete = false) :
    Sender.Answers (trace clock l inp e).rx.rxByte
      (fun n => (trace clock l inp (e + n)).senderInput (inp (e + n))) horizon
      fun n => (trace clock l inp (e + n)).sender := by
  have heq : (fun n => (trace clock l inp (e + n)).sender) = _ := funext fun n => trace_sender e n
  rw [heq]
  exact @Sender.answers _ (fun n => (trace clock l inp (e + n)).senderInput (inp (e + n))) horizon
    hrest h0 h1 hcalm

/-- The run from the completion of a command on, as the sender sees it. -/
theorem Arrives.answers {b : Byte} {s : ℕ} (h : Arrives (trace clock l inp) b s) {horizon : ℕ}
    (hcalm : ∀ n, responseEnd b ≤ n → n < horizon →
      (trace clock l inp (s + 2140 + n)).rx.rxComplete = false) :
    Sender.Answers b
      (fun n => (trace clock l inp (s + 2140 + n)).senderInput (inp (s + 2140 + n))) horizon
      fun n => (trace clock l inp (s + 2140 + n)).sender := by
  obtain ⟨_, hrest, hcomplete, _⟩ := h
  generalize s + 2140 = e at *
  obtain rfl : (trace clock l inp e).rx.rxByte = b := hcomplete.rxByte
  exact answers_from hrest hcomplete.rxComplete
    (by rw [trace_succ, clock_rx]; exact hcomplete.low) hcalm

/-- The host waits for the last byte of a response: the next command begins behind its last
start bit and data bits. -/
theorem Arrives.paced {b : Byte} {s s' : ℕ} (h : Arrives (trace clock l inp) b s)
    (hpaced : (mode b).length ≤ received (trace clock l inp) s s') :
    s + 2140 + responseEnd b ≤ s' + 222 := by
  have hanswers := @Arrives.answers l inp b s h 0 fun n _ hn => absurd hn (Nat.not_lt_zero n)
  by_contra hearly
  have hsubset : ((Finset.range (s' + 1)).filter fun c =>
      s ≤ c ∧ c + 1 + 9 * 219 ≤ s' ∧ (trace clock l inp c).sender.starts = true) ⊆
      (Finset.range ((mode b).length - 1)).image fun j => s + 2140 + (lead b + 2195 * j + 1) := by
    intro c hc
    obtain ⟨_, hsc, hcs, hstarts⟩ := Finset.mem_filter.mp hc
    have hlate : s + 2140 < c := by
      by_contra hle
      have hsilent := h.silent (c - s) (by omega)
      rw [Nat.add_sub_cancel' hsc, hstarts] at hsilent
      exact absurd hsilent (by decide)
    obtain ⟨n, rfl⟩ : ∃ n, c = s + 2140 + n := ⟨c - (s + 2140), by omega⟩
    obtain ⟨j, hj, rfl⟩ := (hanswers.starts_iff
      (.inr (by rw [responseEnd] at hearly ⊢; omega))).mp hstarts
    refine Finset.mem_image.mpr ⟨j, Finset.mem_range.mpr ?_, rfl⟩
    rw [responseEnd] at hearly
    omega
  have hcard := Nat.le_trans (Finset.card_le_card hsubset) Finset.card_image_le
  rw [Finset.card_range] at hcard
  rw [received] at hpaced
  have hpos : 0 < (mode b).length := by cases mode b <;> decide
  omega

theorem Arrives.received_all {b : Byte} {s s' : ℕ} (h : Arrives (trace clock l inp) b s)
    (hs : s + 2140 + responseEnd b ≤ s' + 222) :
    (mode b).length ≤ received (trace clock l inp) s s' := by
  have hanswers := @Arrives.answers l inp b s h 0 fun n _ hn => absurd hn (Nat.not_lt_zero n)
  have hsubset : ((Finset.range (mode b).length).image fun j =>
      s + 2140 + (lead b + 2195 * j + 1)) ⊆ (Finset.range (s' + 1)).filter fun c =>
        s ≤ c ∧ c + 1 + 9 * 219 ≤ s' ∧ (trace clock l inp c).sender.starts = true := by
    intro c hc
    obtain ⟨j, hj, rfl⟩ := Finset.mem_image.mp hc
    have hlt := Finset.mem_range.mp hj
    rw [responseEnd] at hs
    refine Finset.mem_filter.mpr ⟨Finset.mem_range.mpr (by omega), by omega, by omega, ?_⟩
    exact (hanswers.starts_iff (.inr (by rw [responseEnd]; omega))).mpr ⟨j, hlt, rfl⟩
  have hinj : Function.Injective fun j => s + 2140 + (lead b + 2195 * j + 1) := by
    intro i j hij
    have : s + 2140 + (lead b + 2195 * i + 1) = s + 2140 + (lead b + 2195 * j + 1) := hij
    omega
  have hcard := Finset.card_le_card hsubset
  rwa [Finset.card_image_of_injective _ hinj, Finset.card_range] at hcard

/-- The receiver rests from a command to the next one. -/
theorem Arrives.dormant (h : Host (fun n => (inp n).rxIn) cmds start) {k : ℕ} (hk : k < cmds.length)
    (ha : Arrives (trace clock l inp) cmds[k] (start k)) {n : ℕ} (hn : start k + 2140 < n)
    (hnext : k + 1 < cmds.length → n ≤ start (k + 1)) : (trace clock l inp n).rx.Dormant := by
  have hline : ∀ m, start k + 2033 ≤ m → m < n → (inp m).rxIn = true :=
    fun m hm hmn => h.between hk hm fun hlt => Nat.lt_of_lt_of_le hmn (hnext hlt)
  clear hnext
  induction hn with
  | refl =>
    have hsync : (trace clock l inp (start k + 2140)).rx.rxSync = ⟨true, true, true⟩ := by
      rw [show start k + 2140 = start k + 2137 + 3 by omega, trace_rxSync,
        hline _ (by omega) (by omega), hline _ (by omega) (by omega), hline _ (by omega) (by omega)]
    rw [trace_succ, clock_rx]
    exact ha.complete.dormant hsync (hline _ (by omega) (by omega))
  | @step n hn ih =>
    have hdormant := ih fun m hm hmn => hline m hm (Nat.lt_succ_of_lt hmn)
    have hn' : start k + 2140 < n := hn
    rw [trace_succ, clock_rx]
    exact hdormant.wait (hline n (by omega) (Nat.lt_succ_self n))

theorem lead_le (b : Byte) : 2 ≤ lead b ∧ lead b ≤ 21 := by
  have hedges : ∀ q, edgesToSend q ≤ 19 := by
    intro q
    cases q <;> decide
  have := hedges (commandState b)
  unfold lead
  omega

/-- **The next command** finds the receiver idle and, once it is complete, the controller. -/
theorem Arrives.next (h : Host (fun n => (inp n).rxIn) cmds start) {k : ℕ}
    (hk : k + 1 < cmds.length) (ha : Arrives (trace clock l inp) cmds[k] (start k))
    (hpaced : (mode cmds[k]).length ≤ received (trace clock l inp) (start k) (start (k + 1))) :
    Arrives (trace clock l inp) cmds[k + 1] (start (k + 1)) := by
  have hgap := ha.paced hpaced
  have hlead := lead_le cmds[k]
  have hlen : 4 ≤ (mode cmds[k]).length := by cases mode cmds[k] <;> decide
  have hdormant : ∀ n, start k + 2140 < n → n ≤ start (k + 1) → (trace clock l inp n).rx.Dormant :=
    fun n hn hn' => ha.dormant h (Nat.lt_of_succ_lt hk) hn fun _ => hn'
  rw [responseEnd] at hgap
  -- what the sender does up to `m` cycles into the new frame
  have hanswers : ∀ m, (∀ n < m, (trace clock l inp (start (k + 1) + n)).rx.rxComplete = false) →
      Sender.Answers cmds[k]
        (fun n => (trace clock l inp (start k + 2140 + n)).senderInput (inp (start k + 2140 + n)))
        (start (k + 1) + m - (start k + 2140))
        fun n => (trace clock l inp (start k + 2140 + n)).sender := by
    intro m hquiet
    refine ha.answers fun n hn hn' => ?_
    rcases Nat.lt_or_ge (start (k + 1)) (start k + 2140 + n) with hlt | hge
    · have hlow := hquiet (start k + 2140 + n - start (k + 1)) (by omega)
      rwa [Nat.add_sub_cancel' (Nat.le_of_lt hlt)] at hlow
    · exact (hdormant _ (by rw [responseEnd] at hn; omega) hge).rxComplete
  have hreset : ∀ m, (∀ n < m, (trace clock l inp (start (k + 1) + n)).rx.rxComplete = false) →
      (trace clock l inp (start (k + 1) + m)).control.reset = true := by
    intro m hquiet
    have hr := (hanswers m hquiet).reset (n := start (k + 1) + m - (start k + 2140)) (by omega)
      (.inl (Nat.le_refl _))
    rwa [Nat.add_sub_cancel' (by omega)] at hr
  have hrx : (trace clock l inp (start (k + 1))).rx.Idle := by
    obtain ⟨n, hn⟩ : ∃ n, start (k + 1) = n + 1 := ⟨start (k + 1) - 1, by omega⟩
    have hr := (hanswers 0 fun n hn => absurd hn (Nat.not_lt_zero n)).reset
      (n := n - (start k + 2140)) (by omega) (.inl (by omega))
    rw [Nat.add_sub_cancel' (by omega)] at hr
    rw [hn, trace_succ, clock_rx]
    exact (hdormant n (by omega) (by omega)).idle hr
  have hsync := (hdormant (start (k + 1)) (by omega) (Nat.le_refl _)).rxSync
  obtain ⟨hquiet, hcomplete⟩ := h.receives hk hrx hsync fun m _ hm => hreset m hm
  have hlast := hanswers 2140 hquiet
  refine ⟨hquiet, ?_, hcomplete, ?_⟩
  · have hrest := hlast.resting (start (k + 1) + 2140 - (start k + 2140))
      (by rw [responseEnd]; omega) (Nat.le_refl _)
    rwa [Nat.add_sub_cancel' (by omega)] at hrest
  · intro n hn
    have hiff := hlast.starts_iff (n := start (k + 1) + n - (start k + 2140)) (.inl (by omega))
    rw [Nat.add_sub_cancel' (by omega)] at hiff
    rw [← Bool.not_eq_true, hiff]
    rintro ⟨j, hj, heq⟩
    omega

theorem PowerUp.listening (h : l.PowerUp) {m : ℕ} (hline : ∀ n < m, (inp n).rxIn = true)
    (hidle : (trace clock l inp m).control.state = .csIdle) : (trace clock l inp m).Listening := by
  have hearly : 3 ≤ m := by
    by_contra hlt
    rcases (by omega : m = 0 ∨ m = 1 ∨ m = 2) with rfl | rfl | rfl
    · exact absurd (h.state.symm.trans hidle) (by decide)
    · simp [trace, clock, Controller.clock, h.state, h.nextState] at hidle
    · exact absurd ((@PowerUp.reset l inp h).1.state.symm.trans hidle) (by decide)
  rcases h.boot hline hearly (Nat.le_refl m) with ⟨hboot, _⟩ | hlisten
  · rcases hboot.states with ⟨hs, _⟩ | ⟨hs, _⟩ | ⟨hs, _⟩ | ⟨hs, _⟩ <;>
      exact absurd (hs.symm.trans hidle) (by decide)
  · exact hlisten

theorem resting_run {s m : ℕ} (h : (trace clock l inp s).sender.Resting)
    (hquiet : ∀ n < m, (trace clock l inp (s + n)).rx.rxComplete = false) :
    (trace clock l inp (s + m)).sender.Resting := by
  induction m with
  | zero => exact h
  | succ m ih =>
    have hrest := ih fun n hn => hquiet n (Nat.lt_succ_of_lt hn)
    rw [← Nat.add_assoc, trace_succ, clock_sender]
    exact hrest.wait (hquiet m (Nat.lt_succ_self m))

theorem Listening.arrives (h : Host (fun n => (inp n).rxIn) cmds start) (hk : 0 < cmds.length)
    (hl : (trace clock l inp (start 0)).Listening) :
    Arrives (trace clock l inp) cmds[0] (start 0) := by
  obtain ⟨hquiet, hcomplete⟩ := h.receives hk hl.rx hl.rxSync fun m _ hm =>
    (resting_run hl.sender hm).control.reset
  have hrest : ∀ n ≤ 2140, (trace clock l inp (start 0 + n)).sender.Resting :=
    fun n hn => resting_run hl.sender fun j hj => hquiet j (Nat.lt_of_lt_of_le hj hn)
  exact ⟨hquiet, hrest 2140 (Nat.le_refl _), hcomplete,
    fun n hn => by simp [Sender.starts, (hrest n hn).control.txEn]⟩

/-- The state machine's count of the bytes of a response. -/
def byteNumber (b : Byte) (c : Controller) : ℕ :=
  if b = 0x73 then c.cntStatusReqByte.toNat else c.cntByte.toNat

def responseLength (b : Byte) : ℕ := if b = 0x73 then 69 else 4

/-- **What the link does for a command**, counted from the cycle at which it completes, as long
as `within` holds: it takes its bytes one after another, each of them once and at its number,
puts them on the line, and waits for the next command with both counts cleared. -/
structure Responds (b : Byte) (status : ℕ → BitVec 7 → Byte) (within : ℕ → Prop)
    (run : ℕ → DebugLink) : Prop where
  command : (run 0).rx.rxComplete = true ∧ (run 0).rx.rxByte = b
  starts : ∀ n, within n → ((run n).sender.starts = true ↔
    ∃ j < responseLength b, n = lead b + 2195 * j + 1)
  number : ∀ j < responseLength b, byteNumber b (run (lead b + 2195 * j + 1)).control = j
  line : ∀ j < responseLength b, UARTTx.Sends
    (if b = 0x73 then status (lead b + 2195 * j) (BitVec.ofNat 7 j)
      else replyByte (BitVec.ofNat 2 j) b)
    fun n => (run (lead b + 2195 * j + 2 + n)).tx
  ready : ∀ n, lead b + 2195 * responseLength b ≤ n → within n → (run n).control.Ready

theorem mode_length (b : Byte) : (mode b).length = responseLength b := by
  unfold mode responseLength
  split_ifs <;> rfl

theorem Arrives.responds {b : Byte} {s : ℕ} (h : Arrives (trace clock l inp) b s)
    {within : ℕ → Prop}
    (hcalm : ∀ n, within n → ∀ m < n, 0 < m →
      (trace clock l inp (s + 2140 + m)).rx.rxComplete = false) :
    Responds b (fun n => (inp (s + 2140 + n)).status) within
      fun n => trace clock l inp (s + 2140 + n) := by
  have hanswers := fun n (hn : within n) => @Arrives.answers l inp b s h n fun m hm hmn =>
    hcalm n hn m hmn (by have := lead_le b; rw [responseEnd] at hm; omega)
  have hfirst := @Arrives.answers l inp b s h 0 fun n _ hn => absurd hn (Nat.not_lt_zero n)
  refine ⟨⟨h.complete.rxComplete, h.complete.rxByte⟩, ?_, ?_, ?_, ?_⟩
  · intro n hn
    rw [← mode_length]
    exact (hanswers n hn).starts_iff (.inl (Nat.le_refl n))
  · intro j hj
    rw [← mode_length] at hj
    have hcount := (hfirst.sends j hj).count
    unfold mode at hcount
    unfold byteNumber
    split_ifs at hcount ⊢ <;> exact hcount
  · intro j hj
    rw [← mode_length] at hj
    have hframe := (hfirst.sends j hj).frame
    rw [hfirst.byte j hj] at hframe
    have hbyte : Sender.responseByte (mode b) b
        (inp (s + 2140 + (lead b + 2195 * j))).status j =
        if b = 0x73 then (inp (s + 2140 + (lead b + 2195 * j))).status (BitVec.ofNat 7 j)
        else replyByte (BitVec.ofNat 2 j) b := by
      unfold mode
      split_ifs <;> rfl
    have hrun : (fun n => (trace clock l inp (s + 2140 + (lead b + 2195 * j + 2 + n))).tx) =
        fun n => (trace clock l inp (s + 2140 + (lead b + 2195 * j + (2 + n)))).sender.tx := by
      funext n
      rw [Nat.add_assoc (lead b + 2195 * j)]
      rfl
    rw [← hbyte]
    show UARTTx.Sends _ fun n => (trace clock l inp (s + 2140 + (lead b + 2195 * j + 2 + n))).tx
    rw [hrun]
    exact hframe
  · intro n hn hw
    rw [← mode_length] at hn
    exact ((hanswers n hw).resting n hn (Nat.le_refl n)).control

/-- **The debug link answers every command of a host that waits for the answers.** -/
theorem debug_link (h0 : l.PowerUp) (hhost : Host (fun n => (inp n).rxIn) cmds start)
    (hup : ∀ _ : 0 < cmds.length, (trace clock l inp (start 0)).control.state = .csIdle)
    (hpaced : ∀ k (_ : k + 1 < cmds.length),
      responseLength cmds[k] ≤ received (trace clock l inp) (start k) (start (k + 1))) :
    (∀ n, (∀ _ : 0 < cmds.length, n ≤ start 0 + 2140) →
      (trace clock l inp n).sender.starts = false) ∧
    ∀ k (_ : k < cmds.length),
      Responds cmds[k] (fun n => (inp (start k + 2140 + n)).status)
        (fun n => k + 1 < cmds.length → start k + n ≤ start (k + 1))
        fun n => trace clock l inp (start k + 2140 + n) := by
  have harrives : ∀ k (hk : k < cmds.length), Arrives (trace clock l inp) cmds[k] (start k) := by
    intro k
    induction k with
    | zero =>
      intro hk
      exact (h0.listening (fun n hn => hhost.before fun _ => hn) (hup hk)).arrives hhost hk
    | succ k ih =>
      intro hk
      refine (ih (Nat.lt_of_succ_lt hk)).next hhost hk ?_
      rw [mode_length]
      exact hpaced k hk
  refine ⟨?_, ?_⟩
  · intro n hn
    by_cases hk : 0 < cmds.length
    · rcases Nat.lt_or_ge (start 0) n with hlt | hge
      · have hsilent := (harrives 0 hk).silent (n - start 0) (by have := hn hk; omega)
        rwa [Nat.add_sub_cancel' (Nat.le_of_lt hlt)] at hsilent
      · exact h0.silent fun m hm => hhost.before fun _ => Nat.lt_of_lt_of_le hm hge
    · exact h0.silent fun m _ => hhost.before fun hpos => absurd hpos hk
  · intro k hk
    refine (harrives k hk).responds fun n hn m hmn hm => ?_
    rcases Nat.lt_or_ge (start (k + 1)) (start k + 2140 + m) with hlt | hge
    · by_cases hnext : k + 1 < cmds.length
      · have hquiet := (harrives (k + 1) hnext).quiet (start k + 2140 + m - start (k + 1))
          (by have := hn hnext; omega)
        rwa [Nat.add_sub_cancel' (Nat.le_of_lt hlt)] at hquiet
      · exact ((harrives k hk).dormant hhost hk (by omega) fun h => absurd h hnext).rxComplete
    · exact ((harrives k hk).dormant hhost hk (by omega) fun _ => hge).rxComplete

end Line

/-! Two commands, the second as soon as the response to the first is over. -/

/-- The frame of one command, with the line high around it. -/
def symbolLine (b : Byte) (s n : ℕ) : Bool :=
  if n < s ∨ s + 217 * 9 ≤ n then true
  else if n < s + 217 then false
  else b.getLsbD ((n - s) / 217 - 1)

theorem symbolLine_high {b : Byte} {s n : ℕ} (h : n < s ∨ s + 217 * 9 ≤ n) :
    symbolLine b s n = true := if_pos h

theorem symbolLine_low (b : Byte) (s : ℕ) : symbolLine b s s = false := by
  rw [symbolLine, if_neg (by omega), if_pos (by omega)]

theorem symbolLine_bit (b : Byte) (s : ℕ) {i n : ℕ} (hi : i < 8) (hlow : 217 * (i + 1) ≤ n)
    (hhigh : n < 217 * (i + 2)) : symbolLine b s (s + n) = b.getLsbD i := by
  have hsymbol : (s + n - s) / 217 - 1 = i := by omega
  rw [symbolLine, if_neg (by omega), if_neg (by omega), hsymbol]

def twoCommands (n : ℕ) : DebugLinkInput where
  rxIn := symbolLine 0x7A 6 n && symbolLine 0x73 10930 n
  locked := true
  status i := i.setWidth 8

def powerUp : DebugLink where
  control := ⟨.csReset, .csReset, 0, 0, 0, 0, false, false, 0, false, 0⟩
  tx := ⟨.txReset, 0, 0, 0, 0, false, false⟩
  rx := ⟨⟨false, false, false⟩, .rxIdle, 0, 0, 0, 0, false⟩

def twoStarts (k : ℕ) : ℕ := 6 + 10924 * k

theorem twoCommands_host : Host (fun n => (twoCommands n).rxIn) [0x7A, 0x73] twoStarts := by
  refine ⟨?_, ?_, ?_, ?_⟩
  · intro k _
    unfold twoStarts
    omega
  · intro k hk
    match k, hk with
    | 0, _ => rfl
    | 1, _ => rfl
  · intro k hk i hi n hlow hhigh
    match k, hk with
    | 0, _ =>
      show (symbolLine 0x7A 6 (6 + n) && symbolLine 0x73 10930 (6 + n)) = _
      rw [symbolLine_bit _ _ hi (by omega) (by omega), symbolLine_high (by omega), Bool.and_true]
      rfl
    | 1, _ =>
      show (symbolLine 0x7A 6 (10930 + n) && symbolLine 0x73 10930 (10930 + n)) = _
      rw [symbolLine_bit _ _ hi (by omega) (by omega), symbolLine_high (by omega), Bool.true_and]
      rfl
  · intro n hn
    have h0 := hn 0 (by decide)
    have h1 := hn 1 (by decide)
    unfold twoStarts at h0 h1
    show (symbolLine 0x7A 6 n && symbolLine 0x73 10930 n) = true
    rw [symbolLine_high (by omega), symbolLine_high (by omega)]
    rfl

theorem twoCommands_listening : (trace clock powerUp twoCommands 6).Listening :=
  PowerUp.listening ⟨rfl, rfl, rfl, rfl⟩ (fun n hn => twoCommands_host.before fun _ => hn)
    (by decide)

theorem twoCommands_paced : ∀ k (_ : k + 1 < [(0x7A : Byte), 0x73].length),
    responseLength [(0x7A : Byte), 0x73][k] ≤
      received (trace clock powerUp twoCommands) (twoStarts k) (twoStarts (k + 1)) := by
  intro k hk
  obtain rfl : k = 0 := by
    have : k + 1 < 2 := hk
    omega
  have harrives := twoCommands_listening.arrives twoCommands_host (by decide)
  exact harrives.received_all (by decide)

theorem debug_link_twoCommands :
    (∀ n, (∀ _ : 0 < [(0x7A : Byte), 0x73].length, n ≤ twoStarts 0 + 2140) →
      (trace clock powerUp twoCommands n).sender.starts = false) ∧
    ∀ k (_ : k < [(0x7A : Byte), 0x73].length),
      Responds [(0x7A : Byte), 0x73][k] (fun n => (twoCommands (twoStarts k + 2140 + n)).status)
        (fun n => k + 1 < [(0x7A : Byte), 0x73].length → twoStarts k + n ≤ twoStarts (k + 1))
        fun n => trace clock powerUp twoCommands (twoStarts k + 2140 + n) :=
  debug_link ⟨rfl, rfl, rfl, rfl⟩ twoCommands_host
    (fun _ => twoCommands_listening.sender.control.state) twoCommands_paced

/-- The command is over when the PLL locks. -/
def lateLock (n : ℕ) : DebugLinkInput where
  rxIn := symbolLine 0x7A 6 n
  locked := decide (3000 ≤ n)
  status i := i.setWidth 8

theorem lateLock_host : Host (fun n => (lateLock n).rxIn) [0x7A] fun _ => 6 where
  order k hk := absurd hk (by simp)
  begins k hk := symbolLine_low 0x7A 6
  bits k hk i hi n hlow hhigh := by
    obtain rfl : k = 0 := Nat.lt_one_iff.mp hk
    exact symbolLine_bit 0x7A 6 hi (by omega) (by omega)
  rests n hn := symbolLine_high (by have := hn 0 (by decide); omega)

/-- A command before the PLL has locked gets no answer. -/
theorem debug_link_lateLock :
    ¬ ∀ (l : DebugLink) (inp : ℕ → DebugLinkInput) (cmds : List Byte) (start : ℕ → ℕ),
      l.PowerUp → Host (fun n => (inp n).rxIn) cmds start →
      (∀ k (_ : k + 1 < cmds.length),
        responseLength cmds[k] ≤ received (trace clock l inp) (start k) (start (k + 1))) →
      ∀ k (_ : k < cmds.length), ∃ n,
        responseLength cmds[k] ≤ received (trace clock l inp) (start k) n := by
  intro h
  obtain ⟨n, hn⟩ := h powerUp lateLock [0x7A] (fun _ => 6) ⟨rfl, rfl, rfl, rfl⟩ lateLock_host
    (fun k hk => absurd hk (by simp)) 0 (by decide)
  have hsilent : ∀ c, (trace clock powerUp lateLock c).sender.starts = false :=
    @PowerUp.unheard powerUp lateLock ⟨rfl, rfl, rfl, rfl⟩ 3000 (by decide)
      (fun n hn => decide_eq_false (by omega)) fun n hn => symbolLine_high (by omega)
  have hnone : received (trace clock powerUp lateLock) 6 n = 0 := by simp [received, hsilent]
  rw [hnone] at hn
  exact absurd hn (by decide)

end Run

end DebugLink

end RangerRisc
