import RangerRisc.Refinement

/-! The two processors without CSRs among the four: how they go through an instruction,
the first of them reading the next one while it writes back. -/

namespace RangerRisc

open Clocked

/-- Where neither the instruction nor the flags are loaded, the positive edge sees what the
negative one saw. -/
theorem SeqCore.cycle_eq {comb : SeqState → Bool → Word → BitVec 4 → Outputs} {w : Wiring}
    {i : Input} {s : SeqCore} {o : Outputs}
    (ho : comb s.seq i.resetI s.dp.ir s.dp.aluFlags = o) (hir : o.control.irLd = rgLdDisabled)
    (hflags : o.control.flagsLd = rgLdDisabled) :
    SeqCore.cycle comb w i s =
      { seq := s.seq.clock o i.resetI, dp := s.dp.clock w o.control } := by
  simp only [SeqCore.cycle, ho, Datapath.clock_ir hir, Datapath.clock_aluFlags hflags]

/-- The last state of an instruction does not load the flags. -/
theorem executeControl_flagsLd {s : InstructionState} {ir : Word}
    (hdone : executeNext s ir = .done) (taken : Bool) :
    (executeControl s ir taken).flagsLd = rgLdDisabled := by
  cases s <;> first | rfl | exact absurd hdone Succ.noConfusion

/-! ## `modules/RangerRisc.sv` -/

namespace ControlMatrix

/-- A shared instruction state, without the cases of the others. -/
theorem execute_shared {s : InstructionState} (hs : shared s) (ir : Word) (taken : Bool) :
    execute s ir taken =
      match executeNext s ir with
      | .next s' => executeOut (executeControl s ir taken) s'
      | .done =>
        if overlaps s taken then
          leaveOut { executeControl s ir taken with memRd := rwActive } .fetch
        else executeOut (executeControl s ir taken) .preFetch := by
  cases s <;> first | rfl | exact absurd hs (by decide)

theorem sequences (w : Wiring) : (Core.ofSeq (stepRangerRisc w)).Sequences w where
  fetch i s hi hs := by
    refine ⟨⟨addOp, 0, ?_⟩, ?_⟩
    all_goals
      change s.seq.state = .fetch at hs
      simp [Core.AtDecode, Core.ofSeq, stepRangerRisc, SeqCore.cycle, comb, hs,
        fetchOut, Outputs.init, SeqState.clock, hi, fetchControl, Control.idle]
  decode i s hi hs hsys := by
    replace hs : s.seq.state = .decode := hs.1
    change irOpcode s.dp.ir ≠ _ at hsys
    refine ⟨?_, ?_, ?_⟩
    all_goals
      simp [Core.ofSeq, stepRangerRisc, SeqCore.cycle, comb, hs, decodeOut, Outputs.init,
        SeqState.clock, hi]
    rw [Datapath.clock_ir rfl]
    exact decodeNext_eq hsys _ _
  execute i s s' hi hs hnext := by
    obtain ⟨hs, hsh⟩ := hs
    change s.seq.state = .execute at hs
    change shared s.seq.irState at hsh
    change executeNext s.seq.irState s.dp.ir = .next s' at hnext
    refine ⟨?_, ?_, ?_⟩
    all_goals
      simp [Core.ofSeq, stepRangerRisc, SeqCore.cycle, comb, hs, execute_shared hsh, hnext,
        executeOut, Outputs.init, SeqState.clock, hi, Datapath.clock_ir (executeControl_irLd _ _ _),
        Datapath.exec]

/-- Reading the next instruction in the last state does not disturb that state. -/
theorem ready_overlap (w : Wiring) (d : Datapath) (s : InstructionState)
    (h : overlaps s (takeBranch d.aluFlags (funct3 d.ir))) :
    Ready (d.exec w s).arch (d.clock w
      { executeControl s d.ir (takeBranch d.aluFlags (funct3 d.ir)) with memRd := rwActive }) where
  arch := by
    cases s <;> first | exact absurd h Bool.false_ne_true | skip
    all_goals
      simp [overlaps] at h
      simp [Datapath.exec, Datapath.arch, Datapath.clock, executeControl, Control.idle, register,
        Datapath.wdSrcOut, mux4, w.memWr_inactive, h]
  storage := by
    cases s <;> first | exact absurd h Bool.false_ne_true | skip
    all_goals
      simp [overlaps] at h
      simp [Datapath.exec, Datapath.arch, Datapath.clock, executeControl, Control.idle, register,
        Datapath.addrMux, mux2, w.memWr_inactive, Arch.fetched, h]

section Leave
variable {w : Wiring} {i : Input} {s : SeqCore}

theorem step_overlap (hi : i.resetI = true) (hs : s.seq.state = .execute)
    (hsh : shared s.seq.irState) (hdone : executeNext s.seq.irState s.dp.ir = .done)
    (hov : overlaps s.seq.irState (takeBranch s.dp.aluFlags (funct3 s.dp.ir))) :
    stepRangerRisc w i s =
      { seq := { s.seq with state := .fetch, irState := .itLoad }
        dp := s.dp.clock w
          { executeControl s.seq.irState s.dp.ir (takeBranch s.dp.aluFlags (funct3 s.dp.ir)) with
            memRd := rwActive } } := by
  have ho : comb s.seq i.resetI s.dp.ir s.dp.aluFlags = leaveOut
      { executeControl s.seq.irState s.dp.ir (takeBranch s.dp.aluFlags (funct3 s.dp.ir)) with
        memRd := rwActive } .fetch := by
    simp only [comb, hs, execute_shared hsh, hdone, hov, if_true]
  rw [stepRangerRisc, SeqCore.cycle_eq ho (executeControl_irLd _ _ _)
    (executeControl_flagsLd hdone _)]
  simp [SeqState.clock, hi, leaveOut, Outputs.init]

theorem step_done (hi : i.resetI = true) (hs : s.seq.state = .execute)
    (hsh : shared s.seq.irState) (hdone : executeNext s.seq.irState s.dp.ir = .done)
    (hov : ¬ overlaps s.seq.irState (takeBranch s.dp.aluFlags (funct3 s.dp.ir))) :
    stepRangerRisc w i s =
      { seq := { s.seq with state := .execute, irState := .preFetch }
        dp := s.dp.exec w s.seq.irState } := by
  have ho : comb s.seq i.resetI s.dp.ir s.dp.aluFlags = executeOut
      (executeControl s.seq.irState s.dp.ir (takeBranch s.dp.aluFlags (funct3 s.dp.ir)))
      .preFetch := by
    simp only [comb, hs, execute_shared hsh, hdone, hov]
    rfl
  rw [stepRangerRisc, SeqCore.cycle_eq ho (executeControl_irLd _ _ _)
    (executeControl_flagsLd hdone _)]
  simp [SeqState.clock, hi, executeOut, Outputs.init, Datapath.exec]

theorem step_preFetch (hi : i.resetI = true) (hs : s.seq.state = .execute)
    (hp : s.seq.irState = .preFetch) :
    stepRangerRisc w i s =
      { seq := { s.seq with state := .fetch, irState := .itLoad }
        dp := s.dp.clock w preFetchControl } := by
  have ho : comb s.seq i.resetI s.dp.ir s.dp.aluFlags = leaveOut preFetchControl .fetch := by
    simp only [comb, hs, hp, execute]
  rw [stepRangerRisc, SeqCore.cycle_eq ho rfl rfl]
  simp [SeqState.clock, hi, leaveOut, Outputs.init]

end Leave

theorem returns (w : Wiring) : (Core.ofSeq (stepRangerRisc w)).Returns w where
  disabled _ _ _ _ _ := trivial
  leave s inp hinp hin hdone _ := by
    obtain ⟨hs, hsh⟩ := hin
    change s.seq.state = .execute at hs
    change shared s.seq.irState at hsh
    change executeNext s.seq.irState s.dp.ir = .done at hdone
    by_cases hov : overlaps s.seq.irState (takeBranch s.dp.aluFlags (funct3 s.dp.ir))
    · have hstep := step_overlap (w := w) (hinp 0) hs hsh hdone hov
      refine ⟨1, FirstReturn.oneEdge ?_, ?_, trivial⟩
      · simp [Core.ofSeq, Core.AtFetch, hstep]
      · change Ready _ (stepRangerRisc w (inp 0) s).dp
        rw [hstep]
        exact ready_overlap w s.dp _ hov
    · have hstep := step_done (w := w) (hinp 0) hs hsh hdone hov
      have hstep' := step_preFetch (w := w) (i := inp 1) (s := stepRangerRisc w (inp 0) s)
        (hinp 1) (by rw [hstep]) (by rw [hstep])
      refine ⟨2, FirstReturn.afterEdge ?_ (FirstReturn.oneEdge ?_), ?_, trivial⟩
      · simp [Core.ofSeq, Core.AtFetch, hstep]
      · simp [Core.ofSeq, Core.AtFetch, hstep']
      · change Ready _ (stepRangerRisc w (inp 1) (stepRangerRisc w (inp 0) s)).dp
        rw [hstep', hstep]
        exact ready_preFetch addOp 0

end ControlMatrix

/-! ## `simulation/ranger_microcode/RangerRisc.sv` -/

namespace MicroCodeMatrix

/-- The separate `alu_op` agrees with the one each instruction state asks for. -/
theorem executeControl_aluOp (s : InstructionState) (ir : Word) (taken : Bool) :
    { executeControl s ir taken with aluOp := aluOp s ir } = executeControl s ir taken := by
  cases s <;> rfl

theorem execute_shared {s : InstructionState} (hs : shared s) (ir : Word) (taken : Bool) :
    execute s ir taken =
      match executeNext s ir with
      | .next s' => executeOut (executeControl s ir taken) s'
      | .done => leaveOut (executeControl s ir taken) .preFetch := by
  cases s <;> first | rfl | exact absurd hs (by decide)

theorem sequences (w : Wiring) : (Core.ofSeq (stepMicrocode w)).Sequences w where
  fetch i s hi hs := by
    refine ⟨⟨aluOp s.seq.irState s.dp.ir, 0, ?_⟩, ?_⟩
    all_goals
      change s.seq.state = .fetch at hs
      simp [Core.AtDecode, Core.ofSeq, stepMicrocode, SeqCore.cycle, comb, main, hs,
        fetchOut, Outputs.init, SeqState.clock, hi, fetchControl, Control.idle]
  decode i s hi hs hsys := by
    obtain ⟨hs, hit⟩ := hs
    change s.seq.state = .decode at hs
    change s.seq.irState = .itLoad at hit
    change irOpcode s.dp.ir ≠ _ at hsys
    have ho : comb s.seq i.resetI s.dp.ir s.dp.aluFlags = decodeOut (system s.dp.ir) s.dp.ir := by
      simp [comb, main, hs, hit, aluOp, decodeOut, Outputs.init, decodeControl, Control.idle]
    change (stepMicrocode w i s).dp = _ ∧ (stepMicrocode w i s).seq.state = _ ∧
      (stepMicrocode w i s).seq.irState = _
    rw [stepMicrocode, SeqCore.cycle_eq ho rfl rfl]
    simp [decodeOut, Outputs.init, SeqState.clock, hi]
    exact ⟨rfl, decodeNext_eq hsys _ _⟩
  execute i s s' hi hs hnext := by
    obtain ⟨hs, hsh⟩ := hs
    change s.seq.state = .execute at hs
    change shared s.seq.irState at hsh
    change executeNext s.seq.irState s.dp.ir = .next s' at hnext
    refine ⟨?_, ?_, ?_⟩
    all_goals
      simp [Core.ofSeq, stepMicrocode, SeqCore.cycle, comb, main, hs, execute_shared hsh, hnext,
        executeOut, Outputs.init, SeqState.clock, hi, executeControl_aluOp,
        Datapath.clock_ir (executeControl_irLd _ _ _), Datapath.exec]

section Leave
variable {w : Wiring} {i : Input} {s : SeqCore}

theorem step_done (hi : i.resetI = true) (hs : s.seq.state = .execute)
    (hsh : shared s.seq.irState) (hdone : executeNext s.seq.irState s.dp.ir = .done) :
    stepMicrocode w i s =
      { seq := { s.seq with state := .preFetch, irState := .itLoad }
        dp := s.dp.exec w s.seq.irState } := by
  have ho : comb s.seq i.resetI s.dp.ir s.dp.aluFlags = leaveOut
      (executeControl s.seq.irState s.dp.ir (takeBranch s.dp.aluFlags (funct3 s.dp.ir)))
      .preFetch := by
    simp only [comb, main, hs, execute_shared hsh, hdone, leaveOut, Outputs.init,
      executeControl_aluOp]
  rw [stepMicrocode, SeqCore.cycle_eq ho (executeControl_irLd _ _ _)
    (executeControl_flagsLd hdone _)]
  simp [SeqState.clock, hi, leaveOut, Outputs.init, Datapath.exec]

theorem step_preFetch (hi : i.resetI = true) (hs : s.seq.state = .preFetch) :
    stepMicrocode w i s =
      { seq := { s.seq with state := .fetch, irState := .itLoad }
        dp := s.dp.clock w { preFetchControl with aluOp := aluOp s.seq.irState s.dp.ir } } := by
  have ho : comb s.seq i.resetI s.dp.ir s.dp.aluFlags =
      leaveOut { preFetchControl with aluOp := aluOp s.seq.irState s.dp.ir } .fetch := by
    simp only [comb, main, hs, leaveOut, Outputs.init]
  rw [stepMicrocode, SeqCore.cycle_eq ho rfl rfl]
  simp [SeqState.clock, hi, leaveOut, Outputs.init]

end Leave

theorem returns (w : Wiring) : (Core.ofSeq (stepMicrocode w)).Returns w where
  disabled _ _ _ _ _ := trivial
  leave s inp hinp hin hdone _ := by
    obtain ⟨hs, hsh⟩ := hin
    have hstep := step_done (w := w) (hinp 0) hs hsh hdone
    have hstep' := step_preFetch (w := w) (i := inp 1) (s := stepMicrocode w (inp 0) s)
      (hinp 1) (by rw [hstep])
    refine ⟨2, FirstReturn.afterEdge ?_ (FirstReturn.oneEdge ?_), ?_, trivial⟩
    · simp [Core.ofSeq, Core.AtFetch, hstep]
    · simp [Core.ofSeq, Core.AtFetch, hstep']
    · change Ready _ (stepMicrocode w (inp 1) (stepMicrocode w (inp 0) s)).dp
      rw [hstep', hstep]
      exact ready_preFetch _ 0

end MicroCodeMatrix

end RangerRisc
