import RangerRisc.InterruptProtocol

/-! Reset and the interrupt flags of `Synthesis/ranger_risc/csrs/ControlMatrix.sv`. Vector0 clears
mip, but the trigger is only reset in Vector1, and as long as it is up mip is set again. -/

namespace RangerRisc

open Clocked

namespace SynthesisMatrix

/-- The interrupt flags as reset should leave them. -/
structure Flushed (s : CsrCore) : Prop where
  triggered : s.irq.irqTriggered = false
  resetTrigger : s.irq.irqResetTrigger = false
  inProgress : s.irq.interruptInProgress = false
  meip : meip s = false
  mie : s.csrs.mie = 0

/-- Reset is low for the first `k` edges, then high, and `irq_i` does not fall until Vector3 is
left. -/
structure ResetPulse (inp : ℕ → Input) (k : ℕ) : Prop where
  pos : 0 < k
  low : ∀ j < k, (inp j).resetI = false
  high : ∀ j, k ≤ j → j < k + 5 → (inp j).resetI = true
  calm : ∀ j < k + 5, (inp j).irqFalls = false

/-- The edge that finds reset low raises `irq_reset_trigger`. -/
def Acknowledging (s : CsrCore) : Prop :=
  (s.seq.state = .irq0 ∨ s.seq.state = .reset ∧ s.seq.vectorState = .vector1) ∧
    s.irq.irqResetTrigger = false

/-- Reset has got to the vector state `v`. -/
def InVector (v : ResetState) (s : CsrCore) : Prop :=
  s.seq.state = .reset ∧ s.seq.vectorState = v

section Edge
variable {w : Wiring} {i : Input} {s : CsrCore}

theorem InVector.next {v : ResetState} (h : InVector v s) (hi : i.resetI = true)
    (hv : v ≠ .vector3) : InVector (nextVector true v) (stepSynthesis w i s) :=
  (resets w).next i s v hi hv h

theorem acknowledging_iff :
    (resetTrigger s.matrix && !s.irq.irqResetTrigger) = true ↔ Acknowledging s := by
  unfold Acknowledging resetTrigger
  cases hs : s.seq.state with
  | reset => cases hv : s.seq.vectorState <;> simp
  | _ => simp

theorem step_triggered_calm (hfall : i.irqFalls = false) :
    (stepSynthesis w i s).irq.irqTriggered =
      if resetTrigger s.matrix && !s.irq.irqResetTrigger then false else s.irq.irqTriggered := by
  rw [step_triggered, CsrMatrix.sample_calm _ hfall]

/-- The flags after an edge in a vector state. -/
theorem InVector.flags {v : ResetState} (h : InVector v s) (hfall : i.irqFalls = false) :
    (stepSynthesis w i s).irq.irqResetTrigger = resetTrigger s.matrix ∧
    (stepSynthesis w i s).irq.interruptInProgress =
      (if v = .vector0 then false else s.irq.interruptInProgress) ∧
    meip (stepSynthesis w i s) =
      (if s.irq.irqTriggered then true else if v = .vector0 then false else meip s) ∧
    (stepSynthesis w i s).csrs.mie = if v = .vector0 then 0 else s.csrs.mie := by
  obtain ⟨hs, rfl⟩ := h
  have hready : CsrReady s := by
    constructor <;> simp [hs]
  have hno : ¬ WritesMip s := by
    simp [WritesMip, hs]
  have hclears : clearsMip s.matrix = decide (s.seq.vectorState = .vector0) := by
    simp [clearsMip, inVector0, hs]
  refine ⟨step_resetTrigger, ?_, ?_, (step_reset hs).2.2⟩
  · rw [step_inProgress]
    simp [inProgress, hs]
  · rw [step_meip hready hno, CsrMatrix.sample_calm _ hfall, hclears]
    simp

/-- The flags from Vector0 on, `t` being what was latched then. -/
structure Stage (triggered resetTrigger t : Bool) (s : CsrCore) : Prop where
  triggered : s.irq.irqTriggered = triggered
  resetTrigger : s.irq.irqResetTrigger = resetTrigger
  inProgress : s.irq.interruptInProgress = false
  meip : SynthesisMatrix.meip s = t
  mie : s.csrs.mie = 0

/-- Sync0 changes neither flag of the interrupt domain. -/
theorem sync0_triggered (h : InVector .sync0 s) (hfall : i.irqFalls = false) :
    (stepSynthesis w i s).irq.irqTriggered = s.irq.irqTriggered := by
  obtain ⟨hs, hv⟩ := h
  have hkeep : resetTrigger s.matrix = s.irq.irqResetTrigger := by simp [resetTrigger, hs, hv]
  rw [step_triggered_calm hfall, hkeep, Bool.and_not_self, if_neg Bool.false_ne_true]

/-- Vector0 clears mip, unless the trigger is up. -/
theorem vector0_stage (h : InVector .vector0 s) (hfall : i.irqFalls = false) :
    Stage s.irq.irqTriggered false s.irq.irqTriggered (stepSynthesis w i s) := by
  have hdown : SynthesisMatrix.resetTrigger s.matrix = false := by
    simp [SynthesisMatrix.resetTrigger, h.1, h.2]
  obtain ⟨hreset, hprogress, hmeip, hmie⟩ := h.flags (w := w) hfall
  refine ⟨?_, hreset.trans hdown, hprogress, ?_, hmie⟩
  · rw [step_triggered_calm hfall, hdown, Bool.false_and, if_neg Bool.false_ne_true]
  · rw [hmeip, if_pos rfl]
    cases s.irq.irqTriggered <;> rfl

/-- Vector1 resets the trigger, but leaves it pending in mip. -/
theorem Stage.vector1 {t : Bool} (h : Stage t false t s) (hin : InVector .vector1 s)
    (hfall : i.irqFalls = false) :
    Stage false true t (stepSynthesis w i s) := by
  have hup : SynthesisMatrix.resetTrigger s.matrix = true := by
    simp [SynthesisMatrix.resetTrigger, hin.1, hin.2]
  obtain ⟨hreset, hprogress, hmeip, hmie⟩ := hin.flags (w := w) hfall
  refine ⟨?_, hreset.trans hup, hprogress.trans h.inProgress, ?_, hmie.trans h.mie⟩
  · rw [step_triggered_calm hfall, hup, h.resetTrigger]
    rfl
  · rw [hmeip, h.triggered, h.meip]
    cases t <;> rfl

/-- Vector2 and Vector3 leave everything but `irq_reset_trigger`. -/
theorem Stage.rearm {rt t : Bool} {v : ResetState} (h : Stage false rt t s) (hin : InVector v s)
    (hfall : i.irqFalls = false)
    (hlate : v = .vector2 ∨ v = .vector3 ∧ rt = false) :
    Stage false false t (stepSynthesis w i s) := by
  have hdown : SynthesisMatrix.resetTrigger s.matrix = false := by
    have hrt := h.resetTrigger
    rcases hlate with rfl | ⟨rfl, rfl⟩ <;>
      simp [SynthesisMatrix.resetTrigger, hin.1, hin.2, hrt]
  have hne : v ≠ .vector0 := by
    rcases hlate with rfl | ⟨rfl, -⟩ <;> exact ResetState.noConfusion
  obtain ⟨hreset, hprogress, hmeip, hmie⟩ := hin.flags (w := w) hfall
  rw [if_neg hne] at hprogress hmeip hmie
  refine ⟨?_, hreset.trans hdown, hprogress.trans h.inProgress, ?_, hmie.trans h.mie⟩
  · rw [step_triggered_calm hfall, hdown, h.triggered, ite_self]
  · rw [hmeip, h.triggered, if_neg Bool.false_ne_true, h.meip]

end Edge

section Run
variable {w : Wiring} {s : CsrCore} {inp : ℕ → Input} {k : ℕ}

namespace ResetPulse

/-- While reset is low the run waits in Sync0, with what the first edge has left latched. -/
theorem sync0 (h : ResetPulse inp k) {j : ℕ} (hj : j < k) :
    InVector .sync0 (trace (stepSynthesis w) s inp (j + 1)) ∧
      (trace (stepSynthesis w) s inp (j + 1)).irq.irqTriggered =
        (stepSynthesis w (inp 0) s).irq.irqTriggered := by
  induction j with
  | zero => exact ⟨(resets w).low (inp 0) s (h.low 0 hj), rfl⟩
  | succ j ih =>
    obtain ⟨hin, ht⟩ := ih (by omega)
    exact ⟨(resets w).low (inp (j + 1)) (trace (stepSynthesis w) s inp (j + 1)) (h.low _ hj),
      (sync0_triggered hin (h.calm _ (by omega))).trans ht⟩

/-- From Sync0 through the vector states to PreFetch. -/
theorem to_preFetch (h : ResetPulse inp k) :
    (∀ j, 0 < j → j < k + 5 → (trace (stepSynthesis w) s inp j).seq.state = .reset) ∧
      (trace (stepSynthesis w) s inp (k + 5)).seq.state = .preFetch ∧
      Stage false false (stepSynthesis w (inp 0) s).irq.irqTriggered
        (trace (stepSynthesis w) s inp (k + 5)) := by
  have hpos := h.pos
  obtain ⟨j, rfl⟩ : ∃ j, k = j + 1 := ⟨k - 1, by omega⟩
  have hcalm : ∀ m < 5, (inp (j + 1 + m)).irqFalls = false := fun m hm => h.calm _ (by omega)
  have hhigh : ∀ m < 5, (inp (j + 1 + m)).resetI = true := fun m hm =>
    h.high _ (by omega) (by omega)
  obtain ⟨hin0, ht0⟩ := h.sync0 (w := w) (s := s) (Nat.lt_succ_self j)
  have hin1 : InVector .vector0 (trace (stepSynthesis w) s inp (j + 1 + 1)) :=
    hin0.next (hhigh 0 (by decide)) ResetState.noConfusion
  have hin2 : InVector .vector1 (trace (stepSynthesis w) s inp (j + 1 + 2)) :=
    hin1.next (hhigh 1 (by decide)) ResetState.noConfusion
  have hin3 : InVector .vector2 (trace (stepSynthesis w) s inp (j + 1 + 3)) :=
    hin2.next (hhigh 2 (by decide)) ResetState.noConfusion
  have hin4 : InVector .vector3 (trace (stepSynthesis w) s inp (j + 1 + 4)) :=
    hin3.next (hhigh 3 (by decide)) ResetState.noConfusion
  have ht1 : (trace (stepSynthesis w) s inp (j + 1 + 1)).irq.irqTriggered =
      (stepSynthesis w (inp 0) s).irq.irqTriggered :=
    (sync0_triggered hin0 (hcalm 0 (by decide))).trans ht0
  have hstage2 : Stage _ false _ (trace (stepSynthesis w) s inp (j + 1 + 2)) :=
    vector0_stage hin1 (hcalm 1 (by decide))
  rw [ht1] at hstage2
  have hstage3 : Stage false true _ (trace (stepSynthesis w) s inp (j + 1 + 3)) :=
    hstage2.vector1 hin2 (hcalm 2 (by decide))
  have hstage4 : Stage false false _ (trace (stepSynthesis w) s inp (j + 1 + 4)) :=
    hstage3.rearm hin3 (hcalm 3 (by decide)) (.inl rfl)
  have hstage5 : Stage false false _ (trace (stepSynthesis w) s inp (j + 1 + 5)) :=
    hstage4.rearm hin4 (hcalm 4 (by decide)) (.inr ⟨rfl, rfl⟩)
  refine ⟨?_, ?_, hstage5⟩
  · intro m hm hm5
    rcases Nat.lt_or_ge m (j + 2) with hlt | hge
    · obtain ⟨n, rfl⟩ : ∃ n, m = n + 1 := ⟨m - 1, by omega⟩
      exact (h.sync0 (by omega)).1.1
    · obtain rfl | rfl | rfl | rfl : m = j + 1 + 1 ∨ m = j + 1 + 2 ∨ m = j + 1 + 3 ∨
          m = j + 1 + 4 := by omega
      · exact hin1.1
      · exact hin2.1
      · exact hin3.1
      · exact hin4.1
  · have hlast : trace (stepSynthesis w) s inp (j + 1 + 5) =
        stepSynthesis w (inp (j + 1 + 4)) (trace (stepSynthesis w) s inp (j + 1 + 4)) := rfl
    rw [hlast, (step_reset hin4.1).1, hhigh 4 (by decide),
      SeqState.clock_reset .preFetch hin4.1 hin4.2, if_pos rfl]

/-- What the edge that finds reset low leaves latched. -/
theorem latched_first (h : ResetPulse inp k) :
    (stepSynthesis w (inp 0) s).irq.irqTriggered = false ↔
      s.irq.irqTriggered = false ∨ Acknowledging s := by
  rw [step_triggered_calm (h.calm 0 (Nat.succ_pos _))]
  by_cases hack : Acknowledging s
  · rw [if_pos (acknowledging_iff.mpr hack)]
    exact ⟨fun _ => .inr hack, fun _ => rfl⟩
  · rw [if_neg (fun h => hack (acknowledging_iff.mp h))]
    exact ⟨.inl, fun h => h.resolve_right hack⟩

end ResetPulse

/-! ## No request from before -/

/-- Without a falling edge of `irq_i` and a program that writes mip a silent processor stays
silent, whatever reset does. -/
theorem Silent.run (h : Silent s) (hc : CsrReady s) (hfall : ∀ n, (inp n).irqFalls = false)
    (hno : ∀ n, ¬ WritesMip (trace (stepSynthesis w) s inp n)) (n : ℕ) :
    Silent (trace (stepSynthesis w) s inp n) := by
  have hready : ∀ n, CsrReady (trace (stepSynthesis w) s inp n) :=
    trace_invariant hc fun _ hn => hn.step
  exact trace_invariant h (fun m hm => hm.step (hready m) (hno m) (hfall m)) n

theorem Flushed.silent (h : Flushed s) : Silent s := ⟨h.triggered, .inl h.meip⟩

/-- **Reset and the interrupt flags.** When the run arrives in PreFetch the flags are clear just
when no interrupt was latched as reset went low, or the same edge acknowledged it. They keep
every trap out until `irq_i` falls or the program writes mip. -/
theorem reset_flushes (h : ResetPulse inp k) :
    (∀ j, 0 < j → j < k + 5 → (trace (stepSynthesis w) s inp j).seq.state = .reset) ∧
      (trace (stepSynthesis w) s inp (k + 5)).seq.state = .preFetch ∧
      (Flushed (trace (stepSynthesis w) s inp (k + 5)) ↔
        s.irq.irqTriggered = false ∨ Acknowledging s) ∧
      (Flushed (trace (stepSynthesis w) s inp (k + 5)) →
        (∀ n, (inp (k + 5 + n)).irqFalls = false) →
        (∀ n, ¬ WritesMip (trace (stepSynthesis w) s inp (k + 5 + n))) →
        ∀ n, (trace (stepSynthesis w) s inp (k + 5 + n)).seq.state ≠ .irq0) := by
  obtain ⟨hreset, hpre, hstage⟩ := h.to_preFetch (w := w) (s := s)
  refine ⟨hreset, hpre, ?_, ?_⟩
  · rw [← h.latched_first (w := w) (s := s)]
    constructor
    · exact fun hflushed => hstage.meip.symm.trans hflushed.meip
    · exact fun hdown => ⟨hstage.triggered, hstage.resetTrigger, hstage.inProgress,
        hstage.meip.trans hdown, hstage.mie⟩
  · intro hflushed hfall hno n
    have hready : CsrReady (trace (stepSynthesis w) s inp (k + 5)) := by
      constructor <;> simp [hpre]
    cases n with
    | zero =>
      rw [Nat.add_zero, hpre]
      exact MatrixState.noConfusion
    | succ n =>
      have hsilent : Silent (trace (stepSynthesis w) s inp (k + 5 + n)) := by
        rw [trace_add]
        refine hflushed.silent.run hready hfall (fun m => ?_) n
        rw [← trace_add]
        exact hno m
      exact hsilent.not_entered

end Run

theorem reset_flushes_halting :
    Flushed (trace (stepSynthesis (Wiring.memoryMapped 0 0)) halting resetOnce 6) := by
  have hpulse : ResetPulse resetOnce 1 :=
    ⟨Nat.one_pos, by decide, fun j hj _ => decide_eq_true hj, fun _ _ => rfl⟩
  exact (reset_flushes hpulse).2.2.1.mpr (.inl rfl)

/-- `irq_i` falls before the edge 12, reset comes again one edge later. -/
def fallThenReset (n : ℕ) : Input := ⟨decide (n ≠ 0 ∧ n ≠ 13), decide (n = 12)⟩

/-- The request is pending again when the processor arrives in PreFetch. -/
theorem reset_flushes_pending :
    ¬ ∀ (undef resetVector : Word) (s : CsrCore) (inp : ℕ → Input) (n k : ℕ),
      s.seq = { state := .reset, vectorState := .sync0, irState := .itLoad } →
      s.irq = ⟨false, false, false⟩ → ResetPulse (fun j => inp (n + j)) k →
      Flushed (trace (stepSynthesis (Wiring.memoryMapped undef resetVector)) s inp
        (n + (k + 5))) := by
  intro h
  have hpulse : ResetPulse (fun j => fallThenReset (13 + j)) 1 :=
    ⟨Nat.one_pos, by decide, fun j hj _ => decide_eq_true (by omega),
      fun j _ => decide_eq_false (by omega)⟩
  have hflushed := h 0 0 halting fallThenReset 13 1 rfl rfl hpulse
  exact absurd hflushed.meip (by decide +kernel)

end SynthesisMatrix

end RangerRisc
