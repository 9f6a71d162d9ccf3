import Mathlib.Tactic.IntervalCases
import RangerRisc.DebugLinkRun

/-! What the debug commands do to `reset`, `man_clock` and `clock_select`. Each state of the
controller runs at two edges: an assignment may be made twice, a toggle may not. -/

namespace RangerRisc

open Clocked

/-! ## The panel -/

/-- The registers that the commands are about. -/
structure Panel where
  reset : Bool
  manClock : Bool
  clockSelect : BitVec 2
  deriving DecidableEq

def Controller.panel (c : Controller) : Panel := ⟨c.reset, c.manClock, c.clockSelect⟩

/-- What one edge in a state does to the panel. -/
def ControlState.acts : ControlState → Panel → Panel
  | .csResetAssertToggle, p => { p with reset := !p.reset }
  | .csCPUClockRise, p => { p with manClock := true }
  | .csCPUClockFall, p => { p with manClock := false }
  | .csCPUClockToggle, p => { p with manClock := true }
  | .csClockControlMan, p => { p with clockSelect := 0b00 }
  | .csClockControlRun, p => { p with clockSelect := 0b01 }
  | .csClockControlPll, p => { p with clockSelect := 0b10 }
  | _, p => p

/-- The states of the reset sequences, whose edges depend on more than the panel. -/
def ControlState.resets : ControlState → Bool
  | .csReset | .csReset1 | .csResetComplete | .csCPUResetAssert | .csCPUResetDeassert => true
  | _ => false

/-- The states up to the first byte of the response. -/
def leadStates : ControlState → List ControlState
  | .csSend | .csStatusSend => []
  | .csCPUClockToggle =>
    [.csCPUClockToggle, .csCPUClockToggle, .csCPUClockFall, .csCPUClockFall]
  | .csCPUResetAssert =>
    .csCPUResetAssert :: .csCPUResetAssert :: List.replicate 17 .csCPUResetDeassert
  | q => [q, q]

theorem length_leadStates (q : ControlState) : (leadStates q).length = edgesToSend q := by
  cases q <;> rfl

theorem Controller.clock_panel (i : ControlInput) {c : Controller} (h : c.state.resets = false) :
    (c.clock i).panel = c.state.acts c.panel := by
  cases hs : c.state <;> rw [hs] at h <;> simp only [clock, hs]
  case csIdle => split <;> rfl
  case csSending => split <;> [split; skip] <;> rfl
  case csStatusSending => split <;> [split; skip] <;> rfl
  all_goals first | rfl | cases h

/-! ## The states of a command -/

namespace Controller

variable {q q' : ControlState} {b : Byte} {c : Controller} {states : List ControlState}

theorem clock_state (i : ControlInput) (c : Controller) : (c.clock i).state = c.nextState := by
  unfold clock
  cases c.state
  case csIdle => simp only; split <;> rfl
  case csCPUResetDeassert => simp only; split <;> rfl
  case csSending => simp only; split <;> [split; skip] <;> rfl
  case csStatusSending => simp only; split <;> [split; skip] <;> rfl
  all_goals rfl

/-- The controller waits in CSIdle; its second edge there, after a command, does not count. -/
def Waits (c : Controller) : Prop := c.state = .csIdle ∧ c.nextState = .csIdle

/-- The controller runs through the states whatever its inputs are. -/
def Passes (states : List ControlState) (c : Controller) : Prop :=
  ∀ inp : ℕ → ControlInput, ∀ n (hn : n < states.length),
    (trace clock c inp n).state = states[n]

theorem Passes.nil : Passes [] c := fun _ _ hn => absurd hn (Nat.not_lt_zero _)

theorem Passes.cons (hq : c.state = q) (h : ∀ i, Passes states (c.clock i)) :
    Passes (q :: states) c := by
  intro inp n hn
  cases n with
  | zero => exact hq
  | succ n =>
    rw [trace_succ']
    exact h (inp 0) (fun n => inp (n + 1)) n (Nat.lt_of_succ_lt_succ hn)

/-- Both edges of a state. -/
theorem Passes.twice (h : At q b c) (hr : c.reset = true) (hnext : follows q = some q')
    (hrest : ∀ c : Controller, At q' b c → c.reset = true → Passes states c) :
    Passes (q :: q :: states) c := by
  refine Passes.cons h.state fun i => Passes.cons ((clock_state i c).trans h.nextState) fun i' => ?_
  obtain ⟨hat, hreset, -⟩ := h.twice hr hnext i i'
  exact hrest _ hat hreset

theorem Passes.resetDeassert (h : At .csCPUResetDeassert b c) {k : ℕ}
    (hk : c.cntResetHold.toNat + k = 15) :
    Passes (List.replicate (k + 2) .csCPUResetDeassert) c := by
  induction k generalizing c with
  | zero =>
    exact Passes.cons h.state fun i =>
      Passes.cons ((clock_state i c).trans h.nextState) fun _ => Passes.nil
  | succ k ih =>
    refine Passes.cons h.state fun i => ?_
    obtain ⟨hat, hhold⟩ := h.resetHold (by omega) i
    exact ih hat (by omega)

/-- The states of every command. -/
theorem Passes.command (h : At (commandState b) b c) (hr : c.reset = true) :
    Passes (leadStates (commandState b)) c := by
  have hsend : ∀ q, ∀ c : Controller, At q b c → c.reset = true → Passes [] c :=
    fun _ _ _ _ => Passes.nil
  have hfall : ∀ c : Controller, At .csCPUClockFall b c → c.reset = true →
      Passes [.csCPUClockFall, .csCPUClockFall] c := fun c h hr => Passes.twice h hr rfl (hsend _)
  have hcommand := commandState_command b
  generalize commandState b = q at hcommand h ⊢
  cases hcommand with
  | reset =>
    refine Passes.cons h.state fun i =>
      Passes.cons ((clock_state i c).trans h.nextState) fun i' => ?_
    obtain ⟨hat, hhold, -⟩ := h.resetAssert i i'
    exact Passes.resetDeassert hat (by rw [hhold]; rfl)
  | clockToggle => exact Passes.twice h hr rfl hfall
  | other => exact Passes.nil
  | _ => exact Passes.twice h hr rfl (hsend _)

end Controller

namespace Sender

variable {m : Mode} {k : ℕ} {b : Byte} {s : Sender} (inp : ℕ → SenderInput)

/-- The controller on its own, on what it reads. -/
theorem trace_control (n j : ℕ) : (trace clock s inp (n + j)).control =
    trace Controller.clock (trace clock s inp n).control
      (fun l => (trace clock s inp (n + l)).controlInput (inp (n + l))) j := by
  induction j with
  | zero => rfl
  | succ j ih => rw [← Nat.add_assoc, trace_succ, trace_succ, clock_control, ih]

/-- While byte `k` is sent the controller sends or waits. -/
theorem AtSend.states (h : AtSend m k b s) (hk : k < m.length) {n : ℕ} (hn : n < 2195) :
    (trace clock s inp n).control.state = m.sendState ∨
      (trace clock s inp n).control.state = m.waitState := by
  have hcourse := h.course inp hk
  rcases (by omega : n = 0 ∨ n = 1 ∨ (2 ≤ n ∧ n ≤ 2193) ∨ n = 2194) with
    rfl | rfl | ⟨h2, h3⟩ | rfl
  · exact .inl h.control.state
  · exact .inl hcourse.taken.state
  · exact .inr (hcourse.wait n h2 h3).1.state
  · exact .inr hcourse.last.state

/-- And while a whole response is. -/
theorem AtSend.responseStates (h : AtSend m 0 b s) {n : ℕ} (hn : n < 2195 * m.length) :
    (trace clock s inp n).control.state = m.sendState ∨
      (trace clock s inp n).control.state = m.waitState := by
  have hj : n / 2195 < m.length := (Nat.div_lt_iff_lt_mul (by decide)).mpr (by omega)
  have hstates := (h.run inp _ hj).states (fun l => inp (2195 * (n / 2195) + l)) hj
    (Nat.mod_lt n (by decide))
  rwa [← trace_add, Nat.div_add_mod] at hstates

/-! ## A command from beginning to end -/

theorem commandState_ne_idle (b : Byte) : commandState b ≠ .csIdle := by
  have hcommand := commandState_command b
  generalize commandState b = q at hcommand ⊢
  cases hcommand <;> decide

theorem leadStates_ne_idle (b : Byte) : ∀ q ∈ leadStates (commandState b), q ≠ .csIdle := by
  have hcommand := commandState_command b
  generalize commandState b = q at hcommand ⊢
  cases hcommand <;> decide

theorem Mode.ne_idle (m : Mode) {q : ControlState} (h : q = m.sendState ∨ q = m.waitState) :
    q ≠ .csIdle ∧ q.resets = false ∧ ∀ p, q.acts p = p := by
  cases m <;> rcases h with rfl | rfl <;> exact ⟨by decide, rfl, fun _ => rfl⟩

/-- The states at which a command is read, carried out and answered. -/
structure Timeline (b : Byte) (run : ℕ → Sender) : Prop where
  reads : ∀ n < 2, (run n).control.state = .csIdle
  accepts : (run 1).control.nextState = commandState b
  leads : ∀ n (hn : n < (leadStates (commandState b)).length),
    (run (2 + n)).control.state = (leadStates (commandState b))[n]
  responds : ∀ n, lead b ≤ n → n < responseEnd b →
    (run n).control.state = (mode b).sendState ∨ (run n).control.state = (mode b).waitState
  rests : (run (responseEnd b)).Resting

variable {inp}

theorem Resting.timeline (h : s.Resting) (h0 : (inp 0).rxComplete = true)
    (h1 : (inp 1).rxComplete = false) : Timeline (inp 0).rxByte (trace clock s inp) := by
  obtain ⟨hat, hreset, -⟩ := h.control.accept (s.controlInput (inp 0))
    ((s.clock (inp 0)).controlInput (inp 1)) h0 h1
  obtain ⟨-, hsend⟩ := h.leads h0 h1
  have hone : (trace clock s inp 1).control.state = .csIdle :=
    (Controller.clock_state _ s.control).trans h.control.nextState
  refine ⟨fun n hn => ?_, ?_, fun n hn => ?_, fun n hlow hhigh => ?_, ?_⟩
  · rcases (by omega : n = 0 ∨ n = 1) with rfl | rfl
    · exact h.control.state
    · exact hone
  · rw [← Controller.clock_state ((trace clock s inp 1).controlInput (inp 1))]
    exact hat.state
  · rw [trace_control]
    exact Controller.Passes.command hat hreset _ n hn
  · obtain ⟨d, rfl⟩ := Nat.exists_eq_add_of_le hlow
    rw [trace_add]
    exact hsend.responseStates _ (by rw [responseEnd] at hhigh; omega)
  · rw [responseEnd, trace_add]
    exact hsend.finish _

namespace Timeline

variable {run : ℕ → Sender} (h : Timeline b run)
include h

theorem busy {n : ℕ} (hn : 1 < n) (hend : n < responseEnd b) :
    (run n).control.state ≠ .csIdle := by
  rcases Nat.lt_or_ge n (lead b) with hlt | hge
  · obtain ⟨d, rfl⟩ := Nat.exists_eq_add_of_le (Nat.succ_le_of_lt hn)
    have hd : d < (leadStates (commandState b)).length := by
      rw [length_leadStates]
      rw [lead] at hlt
      omega
    rw [h.leads d hd]
    exact leadStates_ne_idle b _ (List.getElem_mem hd)
  · exact (Mode.ne_idle _ (h.responds n hge hend)).1

theorem not_waits {n : ℕ} (hpos : 0 < n) (hend : n < responseEnd b) : ¬ (run n).control.Waits := by
  rintro ⟨hstate, hnext⟩
  rcases Nat.lt_or_ge 1 n with hlt | hge
  · exact h.busy hlt hend hstate
  · obtain rfl : n = 1 := by omega
    exact commandState_ne_idle b (h.accepts.symm.trans hnext)

end Timeline

/-! ## What it does to the panel -/

theorem leadStates_not_resets (hb : b ≠ 0x72) :
    ∀ q ∈ leadStates (commandState b), q.resets = false := by
  have hcommand := commandState_command b
  generalize commandState b = q at hcommand ⊢
  cases hcommand with
  | reset => exact absurd rfl hb
  | _ => decide

theorem panel_succ {n : ℕ} (h : (trace clock s inp n).control.state.resets = false) :
    (trace clock s inp (n + 1)).control.panel =
      (trace clock s inp n).control.state.acts (trace clock s inp n).control.panel :=
  Controller.clock_panel _ h

section Panel

variable (h : Timeline b (trace clock s inp))
include h

theorem Timeline.panel_read : ∀ n ≤ 2, (trace clock s inp n).control.panel = s.control.panel := by
  intro n
  induction n with
  | zero => exact fun _ => rfl
  | succ n ih =>
    intro hn
    have hstate := h.reads n hn
    rw [panel_succ (by rw [hstate]; rfl), hstate]
    exact ih (Nat.le_of_succ_le hn)

theorem Timeline.panel_lead (hb : b ≠ 0x72) :
    ∀ n ≤ (leadStates (commandState b)).length, (trace clock s inp (2 + n)).control.panel =
      ((leadStates (commandState b)).take n).foldl (fun p q => q.acts p) s.control.panel := by
  intro n
  induction n with
  | zero => exact fun _ => h.panel_read 2 (Nat.le_refl 2)
  | succ n ih =>
    intro hn
    have hstate := h.leads n hn
    have hresets := leadStates_not_resets hb _ (List.getElem_mem hn)
    rw [← Nat.add_assoc, panel_succ (by rw [hstate]; exact hresets), hstate,
      ih (Nat.le_of_succ_le hn), List.take_add_one, List.foldl_append,
      List.getElem?_eq_getElem hn]
    rfl

/-- Behind the states of the command the panel stays as it is. -/
theorem Timeline.panel_response (hb : b ≠ 0x72) : ∀ n, lead b ≤ n → n ≤ responseEnd b →
    (trace clock s inp n).control.panel =
      (leadStates (commandState b)).foldl (fun p q => q.acts p) s.control.panel := by
  intro n hn
  induction hn with
  | refl =>
    intro _
    rw [lead, ← length_leadStates, h.panel_lead hb _ (Nat.le_refl _), List.take_length]
  | @step n hn ih =>
    intro hend
    obtain ⟨-, hresets, hacts⟩ := Mode.ne_idle _ (h.responds n hn hend)
    rw [panel_succ hresets, hacts]
    exact ih (Nat.le_of_succ_le hend)

end Panel

end Sender

/-! ## The effects -/

/-- What a command is for. The pulse of `c` is no change where it starts from a low clock. -/
def effect (b : Byte) (p : Panel) : Panel where
  reset := if b = 0x65 then !p.reset else p.reset
  manClock := if b = 0x7A then true else if b = 0x78 then false else p.manClock
  clockSelect :=
    if b = 0x6A then 0b00 else if b = 0x6B then 0b01 else if b = 0x6C then 0b10
    else p.clockSelect

/-- What its states do: the toggle of `reset` is undone at the second edge, and `c` leaves the clock
low. -/
def outcome (b : Byte) (p : Panel) : Panel :=
  { effect b p with
    reset := p.reset
    manClock := if b = 0x63 then false else (effect b p).manClock }

theorem foldl_acts {b : Byte} (hb : b ≠ 0x72) (p : Panel) :
    (leadStates (commandState b)).foldl (fun p q => q.acts p) p = outcome b p := by
  obtain ⟨reset, manClock, clockSelect⟩ := p
  have hcommand := commandState_command b
  generalize commandState b = q at hcommand ⊢
  cases hcommand with
  | reset => exact absurd rfl hb
  | resetToggle => exact congrArg (Panel.mk · manClock clockSelect) (Bool.not_not reset)
  | other hother =>
    simp only [commands, List.mem_cons, List.not_mem_nil, or_false, not_or] at hother
    obtain ⟨-, hrise, hfall, htoggle, -, -, hman, hrun, hpll⟩ := hother
    simp only [outcome, effect]
    rw [if_neg htoggle, if_neg hrise, if_neg hfall, if_neg hman, if_neg hrun, if_neg hpll]
    rfl
  | _ => rfl

/-- The commands whose states do what they are for. -/
theorem outcome_eq_effect_iff (b : Byte) (p : Panel) :
    outcome b p = effect b p ↔ b ≠ 0x65 ∧ ¬ (b = 0x63 ∧ p.manClock = true) := by
  obtain ⟨reset, manClock, clockSelect⟩ := p
  by_cases he : b = 0x65
  · subst he
    refine iff_of_false (fun h => ?_) fun h => h.1 rfl
    have hreset : reset = !reset := congrArg Panel.reset h
    cases reset <;> cases hreset
  · by_cases hc : b = 0x63
    · subst hc
      cases manClock with
      | false => exact iff_of_true rfl ⟨he, fun h => Bool.noConfusion h.2⟩
      | true =>
        refine iff_of_false (fun h => ?_) fun h => h.2 ⟨rfl, rfl⟩
        have hclock : false = true := congrArg Panel.manClock h
        cases hclock
    · refine iff_of_true ?_ ⟨he, fun h => hc h.1⟩
      simp only [outcome, effect, if_neg he, if_neg hc]

/-- The rising edges of a line in its first `n` cycles. -/
def rises (line : ℕ → Bool) (n : ℕ) : ℕ :=
  (List.range n).countP fun k => !line k && line (k + 1)

def falls (line : ℕ → Bool) (n : ℕ) : ℕ :=
  (List.range n).countP fun k => line k && !line (k + 1)

theorem edges_of_still {line : ℕ → Bool} {m : ℕ} (d : ℕ)
    (h : ∀ k, m ≤ k → k ≤ m + d → line k = line m) :
    rises line (m + d) = rises line m ∧ falls line (m + d) = falls line m := by
  induction d with
  | zero => exact ⟨rfl, rfl⟩
  | succ d ih =>
    obtain ⟨hrise, hfall⟩ := ih fun k hk hkd => h k hk (Nat.le_succ_of_le hkd)
    have hd := h (m + d) (Nat.le_add_right m d) (Nat.le_succ _)
    have hd' := h (m + d + 1) (by omega) (Nat.le_refl _)
    rw [← Nat.add_assoc, rises, falls, List.range_succ, List.countP_append, List.countP_append,
      List.countP_singleton, List.countP_singleton, hd, hd', Bool.not_and_self, Bool.and_not_self]
    exact ⟨hrise, hfall⟩

theorem edges_congr {line line' : ℕ → Bool} {n : ℕ} (h : ∀ k ≤ n, line k = line' k) :
    rises line n = rises line' n ∧ falls line n = falls line' n := by
  constructor <;> refine List.countP_congr fun k hk => ?_
  all_goals
    have hk' := List.mem_range.mp hk
    rw [h k (by omega), h (k + 1) (by omega)]

/-- The pulse that CSCPUClockToggle and CSCPUClockFall make. -/
theorem Sender.Timeline.toggle {s : Sender} {inp : ℕ → SenderInput}
    (h : Timeline 0x63 (trace clock s inp)) (hlow : s.control.manClock = false) :
    rises (fun n => (trace clock s inp n).control.manClock) (responseEnd 0x63) = 1 ∧
      falls (fun n => (trace clock s inp n).control.manClock) (responseEnd 0x63) = 1 := by
  have hpulse : ∀ k ≤ 6, (trace clock s inp k).control.manClock = decide (k = 3 ∨ k = 4) := by
    intro k hk
    have hlead := h.panel_lead (by decide)
    rcases Nat.lt_or_ge k 2 with hlt | hge
    · have hread := congrArg Panel.manClock (h.panel_read k (Nat.le_of_lt hlt))
      refine hread.trans (hlow.trans (decide_eq_false ?_).symm)
      omega
    · obtain ⟨j, rfl⟩ := Nat.exists_eq_add_of_le hge
      have hj := congrArg Panel.manClock (hlead j (by change j ≤ 4; omega))
      refine hj.trans ?_
      have hj4 : j ≤ 4 := by omega
      interval_cases j
      · exact hlow
      · rfl
      · rfl
      · rfl
      · rfl
  have hstill : ∀ k, 6 ≤ k → k ≤ 6 + 8780 → (trace clock s inp k).control.manClock =
      (trace clock s inp 6).control.manClock := by
    intro k hk hend
    have hpanel := h.panel_response (by decide)
    have hk' := hpanel k hk hend
    have h6 := hpanel 6 (Nat.le_refl 6) (by decide)
    exact congrArg Panel.manClock (hk'.trans h6.symm)
  obtain ⟨hrise, hfall⟩ :=
    @edges_of_still (fun n => (trace clock s inp n).control.manClock) _ 8780 hstill
  obtain ⟨hrise', hfall'⟩ :=
    @edges_congr (fun n => (trace clock s inp n).control.manClock) _ _ hpulse
  exact ⟨hrise.trans hrise', hfall.trans hfall'⟩

/-! ## Every command of every run -/

namespace DebugLink

variable {l : DebugLink} {inp : ℕ → DebugLinkInput} {f n : ℕ}

theorem trace_sender_fun (m : ℕ) : (fun n => (trace clock l inp (m + n)).sender) =
    trace Sender.clock (trace clock l inp m).sender
      fun k => (trace clock l inp (m + k)).senderInput (inp (m + k)) :=
  funext fun n => trace_sender m n

/-- The course of a command that is taken in cycle `m`. -/
theorem timeline {m : ℕ} (hrest : (trace clock l inp m).sender.Resting)
    (hpulse : (trace clock l inp m).rx.Flagged)
    (hrx : (trace clock l inp m).rx.rxComplete = true) :
    Sender.Timeline (trace clock l inp m).rx.rxByte fun n =>
      (trace clock l inp (m + n)).sender := by
  have htimeline := @Sender.Resting.timeline _
    (fun k => (trace clock l inp (m + k)).senderInput (inp (m + k))) hrest hrx (hpulse.low hrx _)
  rw [trace_sender_fun]
  exact htimeline

theorem PowerUp.flagged (h : l.PowerUp) : ∀ n, 3 ≤ n → (trace clock l inp n).rx.Flagged := by
  have hrx := (@PowerUp.reset l inp h).1.rx
  intro n hn
  induction hn with
  | refl =>
    intro hcomplete
    rw [trace_succ, clock_rx, rx_cleared hrx] at hcomplete
    cases hcomplete
  | step _ ih => exact ih.edge _

theorem PowerUp.early (h : l.PowerUp) (hn : n < 3) :
    (trace clock l inp n).control.state ≠ .csIdle := by
  have hstate := (@PowerUp.reset l inp h).1.state
  rcases (by omega : n = 0 ∨ n = 1 ∨ n = 2) with rfl | rfl | rfl
  · rw [trace_zero, h.state]
    decide
  · have hone : (trace clock l inp 1).control.state = .csReset :=
      (Controller.clock_state _ _).trans h.nextState
    rw [hone]
    decide
  · rw [hstate]
    decide

/-- At cycle `n` the link rests, or a command that it took at rest is under way. -/
def Serves (l : DebugLink) (inp : ℕ → DebugLinkInput) (n : ℕ) : Prop :=
  ∃ m, 3 ≤ m ∧ m ≤ n ∧ (trace clock l inp m).sender.Resting ∧
    (m = n ∨ (trace clock l inp m).rx.rxComplete = true ∧
      n < m + responseEnd (trace clock l inp m).rx.rxByte)

theorem responseEnd_pos (b : Byte) : 1 < responseEnd b := by
  rw [responseEnd, lead]
  omega

/-- From power-up on the link boots, and then it serves. -/
theorem PowerUp.serves (h : l.PowerUp) :
    ∀ n, 3 ≤ n → (trace clock l inp n).Booting ∨ Serves l inp n := by
  have hboot := (@PowerUp.reset l inp h).1.booting
  have hstep : ∀ n, 2 ≤ n → (trace clock l inp n).Booting →
      (trace clock l inp (n + 1)).Booting ∨ Serves l inp (n + 1) := by
    intro n hn hboot
    rcases hboot.step (inp n) with hboot' | ⟨hrest, -⟩
    · exact .inl hboot'
    · exact .inr ⟨n + 1, by omega, Nat.le_refl _, hrest, .inl rfl⟩
  intro n hn
  induction hn with
  | refl => exact hstep 2 (Nat.le_refl 2) hboot
  | @step n hn ih =>
    rcases ih with hboot | ⟨m, hm, hmn, hrest, hend⟩
    · exact hstep n (Nat.le_of_succ_le hn) hboot
    · right
      by_cases hrx : (trace clock l inp m).rx.rxComplete = true
      · have hpos := responseEnd_pos (trace clock l inp m).rx.rxByte
        have hlt : n + 1 ≤ m + responseEnd (trace clock l inp m).rx.rxByte := by
          rcases hend with rfl | ⟨-, hlt⟩ <;> omega
        rcases Nat.lt_or_eq_of_le hlt with hlt | heq
        · exact ⟨m, hm, Nat.le_succ_of_le hmn, hrest, .inr ⟨hrx, hlt⟩⟩
        · refine ⟨n + 1, by omega, Nat.le_refl _, ?_, .inl rfl⟩
          rw [heq]
          exact (timeline hrest (h.flagged m hm) hrx).rests
      · -- nothing was received, so the link still rests
        obtain rfl : m = n := hend.resolve_right fun hno => hrx hno.1
        exact ⟨m + 1, by omega, Nat.le_refl _,
          hrest.wait (i := (trace clock l inp m).senderInput (inp m))
            (Bool.eq_false_of_not_eq_true hrx), .inl rfl⟩

/-- A command that is received in CSIdle is received by a link at rest. -/
theorem PowerUp.resting (h : l.PowerUp) (hs : (trace clock l inp f).control.state = .csIdle)
    (hrx : (trace clock l inp f).rx.rxComplete = true) :
    3 ≤ f ∧ (trace clock l inp f).sender.Resting := by
  have h3 : 3 ≤ f := Nat.le_of_not_lt fun hlt => h.early hlt hs
  refine ⟨h3, ?_⟩
  rcases h.serves f h3 with hboot | ⟨m, hm, hmf, hrest, heq | ⟨hrx', hend⟩⟩
  · rcases hboot.states with ⟨hs', -⟩ | ⟨hs', -⟩ | ⟨hs', -⟩ | ⟨hs', -⟩ <;>
      exact absurd (hs.symm.trans hs') (by decide)
  · exact heq ▸ hrest
  · obtain ⟨d, rfl⟩ := Nat.exists_eq_add_of_le hmf
    have htimeline := timeline hrest (h.flagged m hm) hrx'
    rcases (by omega : d = 0 ∨ d = 1 ∨ 1 < d) with rfl | rfl | hd
    · exact hrest
    · -- the second edge of CSIdle sees no command
      rw [trace_succ, clock_rx, (h.flagged m hm).low hrx'] at hrx
      cases hrx
    · exact absurd hs (htimeline.busy hd (by omega))

/-- The command that `rx_byte` is has its effect once when the controller next waits in CSIdle. -/
def Once (l : DebugLink) (inp : ℕ → DebugLinkInput) : Prop :=
  ∃ n, FirstReturn clock (fun l => l.control.Waits) l inp n ∧
    (trace clock l inp n).control.panel = effect l.rx.rxByte l.control.panel ∧
    (l.rx.rxByte = 0x63 → l.control.manClock = false →
      rises (fun k => (trace clock l inp k).control.manClock) n = 1 ∧
        falls (fun k => (trace clock l inp k).control.manClock) n = 1)

/-- The way back to CSIdle, and the panel there. -/
theorem PowerUp.returns (h : l.PowerUp) (hs : (trace clock l inp f).control.state = .csIdle)
    (hrx : (trace clock l inp f).rx.rxComplete = true)
    (hr : (trace clock l inp f).rx.rxByte ≠ 0x72) :
    FirstReturn clock (fun l => l.control.Waits) (trace clock l inp f) (fun k => inp (f + k))
        (responseEnd (trace clock l inp f).rx.rxByte) ∧
      (trace clock l inp (f + responseEnd (trace clock l inp f).rx.rxByte)).control.panel =
        outcome (trace clock l inp f).rx.rxByte (trace clock l inp f).control.panel := by
  obtain ⟨h3, hrest⟩ := h.resting hs hrx
  have htimeline := timeline hrest (h.flagged f h3) hrx
  have hpos := responseEnd_pos (trace clock l inp f).rx.rxByte
  refine ⟨⟨by omega, ?_, fun k hk hkend => ?_⟩, ?_⟩
  · rw [← trace_add]
    exact ⟨htimeline.rests.control.state, htimeline.rests.control.nextState⟩
  · rw [← trace_add]
    exact htimeline.not_waits hk hkend
  · refine Eq.trans ?_ (foldl_acts hr (trace clock l inp f).control.panel)
    have hpanel := @Sender.Timeline.panel_response (trace clock l inp f).rx.rxByte
      (trace clock l inp f).sender
      (fun k => (trace clock l inp (f + k)).senderInput (inp (f + k)))
      (by rw [← trace_sender_fun]; exact htimeline) hr _ (by rw [responseEnd]; omega)
      (Nat.le_refl _)
    rw [← trace_sender] at hpanel
    exact hpanel

theorem PowerUp.once (h : l.PowerUp) (hs : (trace clock l inp f).control.state = .csIdle)
    (hrx : (trace clock l inp f).rx.rxComplete = true)
    (hr : (trace clock l inp f).rx.rxByte ≠ 0x72)
    (heffect : outcome (trace clock l inp f).rx.rxByte (trace clock l inp f).control.panel =
      effect (trace clock l inp f).rx.rxByte (trace clock l inp f).control.panel) :
    Once (trace clock l inp f) (fun k => inp (f + k)) := by
  obtain ⟨hreturn, hpanel⟩ := h.returns hs hrx hr
  rw [trace_add] at hpanel
  refine ⟨_, hreturn, hpanel.trans heffect, fun hb hlow => ?_⟩
  obtain ⟨h3, hrest⟩ := h.resting hs hrx
  have htimeline := timeline hrest (h.flagged f h3) hrx
  rw [trace_sender_fun, hb] at htimeline
  have htoggle := htimeline.toggle hlow
  rw [← trace_sender_fun] at htoggle
  rw [hb]
  simp only [← trace_add]
  exact htoggle

/-- In a run the panel ends as the states of the command leave it. -/
theorem PowerUp.outcome_of_once (h : l.PowerUp)
    (hs : (trace clock l inp f).control.state = .csIdle)
    (hrx : (trace clock l inp f).rx.rxComplete = true)
    (hr : (trace clock l inp f).rx.rxByte ≠ 0x72)
    (honce : Once (trace clock l inp f) (fun k => inp (f + k))) :
    outcome (trace clock l inp f).rx.rxByte (trace clock l inp f).control.panel =
      effect (trace clock l inp f).rx.rxByte (trace clock l inp f).control.panel := by
  obtain ⟨n, hn, heffect, -⟩ := honce
  obtain ⟨hreturn, hpanel⟩ := h.returns hs hrx hr
  obtain rfl := hn.unique hreturn
  rw [trace_add] at hpanel
  exact hpanel.symm.trans heffect

/-- **Every command has its effect once**, but for the toggle of `reset` and a pulse of `man_clock`
that starts from a high clock. -/
theorem once_iff (h : l.PowerUp) (hs : (trace clock l inp f).control.state = .csIdle)
    (hrx : (trace clock l inp f).rx.rxComplete = true)
    (hr : (trace clock l inp f).rx.rxByte ≠ 0x72) :
    Once (trace clock l inp f) (fun k => inp (f + k)) ↔
      (trace clock l inp f).rx.rxByte ≠ 0x65 ∧
        ¬ ((trace clock l inp f).rx.rxByte = 0x63 ∧
          (trace clock l inp f).control.manClock = true) := by
  have hiff := outcome_eq_effect_iff (trace clock l inp f).rx.rxByte
    (trace clock l inp f).control.panel
  constructor
  · intro honce
    exact hiff.mp (h.outcome_of_once hs hrx hr honce)
  · intro hcond
    exact h.once hs hrx hr (hiff.mpr hcond)

/-! ## One command -/

/-- The frame of a command that begins in cycle 6 after power-up. -/
def oneCommand (b : Byte) (n : ℕ) : DebugLinkInput where
  rxIn := symbolLine b 6 n
  locked := true
  status i := i.setWidth 8

theorem oneCommand_host (b : Byte) :
    Host (fun n => (oneCommand b n).rxIn) [b] (fun _ => 6) := by
  refine ⟨fun k hk => ?_, fun k _ => symbolLine_low b 6, fun k hk i hi n hlow hhigh => ?_,
    fun n hn => ?_⟩
  · change k + 1 < 1 at hk
    omega
  · obtain rfl : k = 0 := by
      change k < 1 at hk
      omega
    exact symbolLine_bit b 6 hi (by omega) (by omega)
  · have h0 := hn 0 Nat.one_pos
    exact symbolLine_high (by omega)

theorem oneCommand_arrives (b : Byte)
    (hs : (trace clock powerUp (oneCommand b) 6).control.state = .csIdle) :
    Arrives (trace clock powerUp (oneCommand b)) b 6 :=
  (PowerUp.listening ⟨rfl, rfl, rfl, rfl⟩ (fun _ hn => (oneCommand_host b).before fun _ => hn)
    hs).arrives (oneCommand_host b) Nat.one_pos

theorem clockRise_once :
    Once (trace clock powerUp (oneCommand 0x7A) 2146) (fun k => oneCommand 0x7A (2146 + k)) := by
  have harrives := oneCommand_arrives 0x7A (by decide)
  have hbyte := harrives.complete.rxByte
  refine (once_iff ⟨rfl, rfl, rfl, rfl⟩ harrives.resting.control.state
    harrives.complete.rxComplete ?_).mpr ⟨?_, fun h => ?_⟩
  · rw [hbyte]
    decide
  · rw [hbyte]
    decide
  · rw [hbyte] at h
    exact absurd h.1 (by decide)

theorem resetToggle_not_once :
    (trace clock powerUp (oneCommand 0x65) 2146).control.state = .csIdle ∧
      (trace clock powerUp (oneCommand 0x65) 2146).rx.rxComplete = true ∧
      (trace clock powerUp (oneCommand 0x65) 2146).rx.rxByte = 0x65 ∧
      ¬ Once (trace clock powerUp (oneCommand 0x65) 2146)
        fun k => oneCommand 0x65 (2146 + k) := by
  have harrives := oneCommand_arrives 0x65 (by decide)
  have hbyte := harrives.complete.rxByte
  refine ⟨harrives.resting.control.state, harrives.complete.rxComplete, hbyte, fun honce => ?_⟩
  have heffect := PowerUp.outcome_of_once ⟨rfl, rfl, rfl, rfl⟩ harrives.resting.control.state
    harrives.complete.rxComplete (by rw [hbyte]; decide) honce
  exact ((outcome_eq_effect_iff _ _).mp heffect).1 hbyte

end DebugLink

end RangerRisc
