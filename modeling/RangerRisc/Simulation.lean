import RangerRisc.Console
import RangerRisc.HartProgress

/-! The simulation that the console drives: of `model.h` what a run reads, and of `simulation.cpp`
the reset and the run to the next Fetch. Verilator evaluates the processor with CSRs once a
nanosecond. -/

namespace RangerRisc

open Clocked

namespace Console

/-- The length of a clock cycle in nanoseconds. -/
def fullCycle : ℕ := 20
def halfCycle : ℕ := fullCycle / 2
def maxSteps : ℕ := 100000

structure Model where
  core : CsrCore
  /-- The levels at the last `eval`, which looks for edges. -/
  clkSeen : Bool
  irqSeen : Bool
  clkI : Bool
  resetI : Bool
  irqI : Bool
  timeStepNs : ℕ
  stepCnt : ℕ

namespace Model
variable (w : Wiring) (mdl : Model)

/-- `Simulation::begin` -/
def simBegin : Model :=
  if mdl.timeStepNs % halfCycle = 0 then { mdl with clkI := !mdl.clkI } else mdl

/-- `tb->eval()`. The two clock domains read what the registers were before. -/
def eval : Model :=
  let core :=
    if mdl.clkSeen && !mdl.clkI then stepCSRs w ⟨mdl.resetI, false⟩ mdl.core else mdl.core
  let held := mdl.core.irq.irqResetTrigger || core.irq.irqResetTrigger
  { mdl with
    core :=
      if mdl.irqSeen && !mdl.irqI then
        { core with matrix := { core.matrix with irq := { core.irq with irqTriggered := !held } } }
      else core
    clkSeen := mdl.clkI
    irqSeen := mdl.irqI }

/-- `Simulation::update`, on an unsigned 64-bit time. -/
def simUpdate : Model :=
  { mdl with stepCnt := mdl.stepCnt + 1, timeStepNs := (mdl.timeStepNs + 1) % 2 ^ 64 }

/-- The body of every loop, one unit of time. -/
def unitStep : Model := ((mdl.simBegin).eval w).simUpdate

/-- Until the matrix is in `target`, for `n` units of time at most. -/
def runUntil (target : MatrixState) : ℕ → Model → Model
  | 0, mdl => mdl
  | n + 1, mdl =>
    if mdl.core.seq.state ≠ target then runUntil target n (mdl.unitStep w) else mdl

/-- `Simulation::run_to_fetch` -/
def runToFetch : Model :=
  -- in Fetch it has to leave the state before it searches
  let mdl := if mdl.core.seq.state = .fetch then runUntil w .decode maxSteps mdl else mdl
  runUntil w .fetch maxSteps mdl

/-- The loop of `Simulation::update_reset`; every round counts, so that `stepSize` rounds are
enough. -/
def resetSteps (stepSize : ℕ) : ℕ → Model → Model
  | 0, mdl => mdl
  | n + 1, mdl =>
    let mdl := mdl.unitStep w
    if mdl.stepCnt < stepSize then resetSteps stepSize n mdl else mdl

/-- `Simulation::begin_reset`, `Simulation::update_reset` and `Simulation::end_reset`. -/
def reset : Model :=
  let mdl := { mdl with resetI := false, timeStepNs := 0, stepCnt := 0 }
  let mdl := resetSteps w (fullCycle * 3) (fullCycle * 3) mdl
  { mdl with resetI := true }

end Model

/-! ## The commands, nothing running beside them -/

section Commands
variable (w : Wiring) (mdl : Model)

/-- What the main loop does after each command. -/
def idle : Model := { mdl with irqI := true }

/-- `rn fetch` -/
def rnFetch : Model := idle (mdl.runToFetch w)

/-- `ld`, with the lines of the file. -/
def ld (file : List (List Char)) : Option Model :=
  (loadProg file mdl.core.dp.mem).map fun mem =>
    idle { mdl with core := { mdl.core with dp := { mdl.core.dp with mem := mem } } }

end Commands

/-! ## Units of time and clock edges -/

/-- Every edge has been seen, and reset is at `level`. -/
structure Settled (level : Bool) (mdl : Model) : Prop where
  clk : mdl.clkSeen = mdl.clkI
  irq : mdl.irqSeen = true → mdl.irqI = true
  reset : mdl.resetI = level
  time : mdl.timeStepNs < 2 ^ 64

/-- What an edge samples. -/
def held (level : Bool) (_ : ℕ) : Input := ⟨level, false⟩

/-- The units of time before the one in which the clock falls, at most. -/
def rest (mdl : Model) : ℕ :=
  (10 - mdl.timeStepNs % 10) % 10 + if mdl.clkI then 0 else 10

def Falls (mdl : Model) : Prop := mdl.clkI = true ∧ mdl.timeStepNs % 10 = 0

instance : DecidablePred Falls := fun _ => inferInstanceAs (Decidable (_ ∧ _))

section Unit
variable {w : Wiring} {level : Bool} {mdl : Model}

theorem rest_le (mdl : Model) : rest mdl ≤ 19 := by
  unfold rest
  split <;> omega

theorem unitStep_clkI : (mdl.unitStep w).clkI =
    if mdl.timeStepNs % 10 = 0 then !mdl.clkI else mdl.clkI := by
  have hhalf : halfCycle = 10 := rfl
  simp only [Model.unitStep, Model.simUpdate, Model.eval, Model.simBegin, hhalf]
  split <;> rfl

theorem unitStep_timeStepNs :
    (mdl.unitStep w).timeStepNs = (mdl.timeStepNs + 1) % 2 ^ 64 := by
  simp only [Model.unitStep, Model.simUpdate, Model.eval, Model.simBegin]
  split <;> rfl

/-- The processor has an edge when the clock falls, and is left alone otherwise. -/
theorem Settled.unitStep_core (h : Settled level mdl) : (mdl.unitStep w).core =
    if Falls mdl then stepCSRs w ⟨level, false⟩ mdl.core else mdl.core := by
  obtain ⟨core, clkSeen, irqSeen, clkI, resetI, irqI, t, cnt⟩ := mdl
  obtain ⟨hclk, hirq, hreset, -⟩ := h
  obtain rfl : clkSeen = clkI := hclk
  obtain rfl : resetI = level := hreset
  have hhalf : halfCycle = 10 := rfl
  have hcalm : (irqSeen && !irqI) = false := by
    cases irqSeen with
    | false => rfl
    | true =>
      rw [show irqI = true from hirq rfl]
      rfl
  simp only [Model.unitStep, Model.simUpdate, Model.eval, Model.simBegin, hhalf, Falls]
  by_cases ht : t % 10 = 0
  · cases clkSeen <;> simp [ht, hcalm]
  · cases clkSeen <;> simp [ht, hcalm]

theorem Settled.unitStep (h : Settled level mdl) : Settled level (mdl.unitStep w) := by
  obtain ⟨hclk, hirq, rfl, ht⟩ := h
  refine ⟨?_, ?_, ?_, ?_⟩
  · rfl
  · simp only [Model.unitStep, Model.simUpdate, Model.eval]
    exact id
  · simp only [Model.unitStep, Model.simUpdate, Model.eval, Model.simBegin]
    split <;> rfl
  · rw [unitStep_timeStepNs]
    exact Nat.mod_lt _ (by decide)

/-- Time goes on by one, or starts again from zero half a half-cycle early. -/
theorem next_time {t : ℕ} (h : t < 2 ^ 64) :
    (t + 1) % 2 ^ 64 = t + 1 ∨ (t + 1) % 2 ^ 64 = 0 ∧ t % 10 = 5 := by
  rcases Nat.lt_or_eq_of_le (Nat.succ_le_of_lt h) with hlt | heq
  · exact .inl (Nat.mod_eq_of_lt hlt)
  · have htop : t + 1 = 2 ^ 64 := heq
    exact .inr ⟨by rw [htop, Nat.mod_self], by omega⟩

/-- Without a falling edge there is less to wait, even where the time starts again. -/
theorem Settled.rest_unitStep (h : Settled level mdl) (hf : ¬ Falls mdl) :
    rest (mdl.unitStep w) + 1 ≤ rest mdl := by
  rw [Falls] at hf
  unfold rest
  rw [unitStep_clkI, unitStep_timeStepNs]
  rcases next_time h.time with ht | ⟨ht, h5⟩
  · rw [ht]
    cases hc : mdl.clkI with
    | true =>
      have hne : mdl.timeStepNs % 10 ≠ 0 := fun h0 => hf ⟨hc, h0⟩
      simp only [if_neg hne, if_true]
      omega
    | false =>
      by_cases h0 : mdl.timeStepNs % 10 = 0
      · simp only [if_pos h0, Bool.not_false, if_true, Bool.false_eq_true, if_false]
        omega
      · simp only [if_neg h0, Bool.false_eq_true, if_false]
        omega
  · rw [ht, h5]
    cases mdl.clkI <;> simp

theorem Falls.rest (h : Falls mdl) : rest mdl = 0 := by
  obtain ⟨hc, ht⟩ := h
  simp [Console.rest, hc, ht]

/-- `m` units of time are some edges of the clock, one in twenty at least. -/
theorem Settled.iterate (h : Settled level mdl) (m : ℕ) :
    Settled level ((Model.unitStep w)^[m] mdl) ∧
      ∃ e, ((Model.unitStep w)^[m] mdl).core = trace (stepCSRs w) mdl.core (held level) e ∧
        m + rest ((Model.unitStep w)^[m] mdl) ≤ 20 * e + rest mdl := by
  induction m with
  | zero => exact ⟨h, 0, rfl, by simp⟩
  | succ m ih =>
    rw [Function.iterate_succ_apply']
    generalize (Model.unitStep w)^[m] mdl = mdl' at ih
    obtain ⟨hset, e, hcore, hle⟩ := ih
    refine ⟨hset.unitStep, ?_⟩
    by_cases hf : Falls mdl'
    · have hrest := rest_le (mdl'.unitStep w)
      have hzero := hf.rest
      refine ⟨e + 1, ?_, by omega⟩
      rw [hset.unitStep_core, if_pos hf, hcore]
      rfl
    · have hless := hset.rest_unitStep (w := w) hf
      refine ⟨e, ?_, by omega⟩
      rw [hset.unitStep_core, if_neg hf, hcore]

end Unit

/-! ## Loops -/

section Loops
variable {w : Wiring} {level : Bool} {mdl : Model} {target : MatrixState}

/-- A run stops behind the first edge that leaves the matrix in `target`. -/
theorem Settled.runUntil (h : Settled level mdl) {d n : ℕ}
    (hfirst : ∀ k < d, (trace (stepCSRs w) mdl.core (held level) k).seq.state ≠ target)
    (hhit : (trace (stepCSRs w) mdl.core (held level) d).seq.state = target)
    (hn : d ≠ 0 → rest mdl + 20 * (d - 1) < n) :
    Settled level (Model.runUntil w target n mdl) ∧
      (Model.runUntil w target n mdl).core = trace (stepCSRs w) mdl.core (held level) d := by
  induction n generalizing mdl d with
  | zero =>
    obtain rfl : d = 0 := by
      by_contra hd
      exact absurd (hn hd) (Nat.not_lt_zero _)
    exact ⟨h, rfl⟩
  | succ n ih =>
    cases d with
    | zero =>
      have hstop : Model.runUntil w target (n + 1) mdl = mdl := if_neg (not_not.mpr hhit)
      rw [hstop]
      exact ⟨h, rfl⟩
    | succ d =>
      have hgo : Model.runUntil w target (n + 1) mdl = Model.runUntil w target n (mdl.unitStep w) :=
        if_pos (hfirst 0 (Nat.succ_pos d))
      have hbound := hn (Nat.succ_ne_zero d)
      have hcore := h.unitStep_core (w := w)
      rw [hgo]
      by_cases hf : Falls mdl
      · -- the edge is one of the `d + 1`
        rw [if_pos hf] at hcore
        have hrest := rest_le (mdl.unitStep w)
        have hstep : ∀ k, trace (stepCSRs w) mdl.core (held level) (k + 1) =
            trace (stepCSRs w) (mdl.unitStep w).core (held level) k := by
          intro k
          rw [hcore, trace_succ']
          rfl
        have hih := ih h.unitStep (d := d) (fun k hk => hstep k ▸ hfirst (k + 1) (by omega))
          (hstep d ▸ hhit) (fun hd => by omega)
        rw [hstep d]
        exact hih
      · rw [if_neg hf] at hcore
        have hless := h.rest_unitStep (w := w) hf
        have hih := ih h.unitStep (d := d + 1) (by rw [hcore]; exact hfirst)
          (by rw [hcore]; exact hhit) (fun _ => by omega)
        rw [hcore] at hih
        exact hih

/-- Where it never comes to `target` it uses up its time. -/
theorem runUntil_eq_iterate {n : ℕ}
    (h : ∀ m < n, ((Model.unitStep w)^[m] mdl).core.seq.state ≠ target) :
    Model.runUntil w target n mdl = (Model.unitStep w)^[n] mdl := by
  induction n generalizing mdl with
  | zero => rfl
  | succ n ih =>
    have hgo : Model.runUntil w target (n + 1) mdl = Model.runUntil w target n (mdl.unitStep w) :=
      if_pos (h 0 (Nat.succ_pos n))
    rw [hgo, Function.iterate_succ_apply]
    exact ih fun m hm => h (m + 1) (by omega)

theorem Settled.runUntil_never (h : Settled level mdl)
    (hnever : ∀ k, (trace (stepCSRs w) mdl.core (held level) k).seq.state ≠ target) (n : ℕ) :
    Settled level (Model.runUntil w target n mdl) ∧
      ∃ e, (Model.runUntil w target n mdl).core = trace (stepCSRs w) mdl.core (held level) e ∧
        n ≤ 20 * e + 19 := by
  have hloop : Model.runUntil w target n mdl = (Model.unitStep w)^[n] mdl := by
    apply runUntil_eq_iterate
    intro m _
    obtain ⟨-, e, hcore, -⟩ := h.iterate (w := w) m
    rw [hcore]
    exact hnever e
  obtain ⟨hset, e, hcore, hle⟩ := h.iterate (w := w) n
  have hrest := rest_le mdl
  rw [hloop]
  exact ⟨hset, e, hcore, by omega⟩

end Loops

end Console

end RangerRisc
