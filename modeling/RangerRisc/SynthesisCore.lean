import RangerRisc.Refinement

/-! `Synthesis/ranger_risc/csrs/RangerRiscProcessor.sv` cycle by cycle: one equation for
every state that an instruction or an interrupt goes through. -/

namespace RangerRisc

open Clocked

namespace SynthesisMatrix

@[simp] theorem accepts_sample (i : Input) (m : CsrMatrix) : accepts (m.sample i) = accepts m := by
  simp [accepts]

/-- The matrix after an edge on which it only moves on: an interrupt may get pending. -/
def moved (m : CsrMatrix) (state : MatrixState) (irState : InstructionState) : CsrMatrix where
  seq := { m.seq with state := state, irState := irState }
  csrs := if m.irq.irqTriggered then m.csrs.setMip true else m.csrs
  irq := m.irq

/-- The states whose edge changes no interrupt flag. -/
def plain (q : SeqState) : Bool :=
  match q.state with
  | .fetch | .decode | .irq2 | .halt => true
  | .execute => q.irState ≠ .itMretClr
  | _ => false

section Plain
variable {m : CsrMatrix}

theorem plain_shared {q : SeqState} (hs : q.state = .execute) (hsh : shared q.irState) :
    plain q := by
  unfold plain
  rw [hs]
  cases h : q.irState <;> first | rfl | exact absurd hsh (by rw [h]; decide)

theorem resetTrigger_plain (h : plain m.seq) : resetTrigger m = m.irq.irqResetTrigger := by
  unfold plain at h
  unfold resetTrigger
  split at h <;> simp_all

theorem inProgress_plain (h : plain m.seq) (o : CsrOutputs) :
    inProgress m o = m.irq.interruptInProgress := by
  unfold plain at h
  unfold inProgress
  split at h <;> simp_all

theorem clearsMip_plain (h : plain m.seq) : clearsMip m = false ∧ inVector0 m = false := by
  unfold plain at h
  unfold clearsMip inVector0
  split at h <;> simp_all

end Plain

section Step
variable {w : Wiring} {i : Input} {s : CsrCore}

/-- The outputs on the datapath `d`: the old one for the datapath's edge, the new one for the
matrix's. -/
abbrev outputsOn (i : Input) (s : CsrCore) (d : Datapath) : CsrOutputs :=
  comb (s.matrix.sample i) d.ir d.aluFlags d.rsa d.pc i.resetI

theorem step_eq {c : Control} {o : CsrOutputs} (hc : (outputsOn i s s.dp).control = c)
    (ho : outputsOn i s (s.dp.clock w c) = o) :
    stepSynthesis w i s =
      { matrix := clock o i.resetI (s.matrix.sample i), dp := s.dp.clock w c } := by
  subst hc
  rw [← ho]
  rfl

/-- A cycle in a plain state that writes no CSR. -/
theorem step_plain {c : Control} {o : CsrOutputs} (hi : i.resetI = true) (hp : plain s.seq)
    (hc : (outputsOn i s s.dp).control = c) (ho : outputsOn i s (s.dp.clock w c) = o)
    (hw : o.writeCSR = false) (hr : o.resetComplete = true) :
    stepSynthesis w i s =
      { matrix := moved (s.matrix.sample i) o.nextState o.nextIrState, dp := s.dp.clock w c } := by
  have hp' : plain (s.matrix.sample i).seq := by simpa using hp
  rw [step_eq hc ho]
  simp only [clock, resetTrigger_plain hp', inProgress_plain hp', clearsMip_plain hp', latchMip,
    IrqRegs.clock_self, CsrRegs.clock, hw]
  simp [moved, SeqState.clock, hr, hi]

end Step

theorem execute_shared {m : CsrMatrix} (hs : shared m.seq.irState) (ir : Word) (flags : BitVec 4)
    (rsa : Word) :
    execute m ir flags rsa =
      let c := executeControl m.seq.irState ir (takeBranch flags (funct3 ir))
      match executeNext m.seq.irState ir with
      | .next s' => quiet m ir rsa (executeOut c s')
      | .done => quiet m ir rsa (leaveOut c .preFetch) := by
  unfold execute
  cases h : m.seq.irState <;> first | rfl | exact absurd hs (by rw [h]; decide)

/-- The separate `alu_op` and `rd_data` are those each shared state asks for. -/
theorem executeControl_separate {m : CsrMatrix} (hs : m.seq.state = .execute)
    (hsh : shared m.seq.irState) (ir : Word) (taken : Bool) (data : Word) :
    { executeControl m.seq.irState ir taken with
      aluOp := MicroCodeMatrix.aluOp m.seq.irState ir
      rdData := rdData m ir data } = executeControl m.seq.irState ir taken := by
  unfold rdData
  rw [hs]
  cases h : m.seq.irState <;> first | rfl | exact absurd hsh (by rw [h]; decide)

section Step
variable {w : Wiring} {i : Input} {s : CsrCore}

/-- The outputs of a state that only moves on, with `alu_op` and `rd_data` as they come. -/
def separately (m : CsrMatrix) (ir rsa : Word) (o : Outputs) : CsrOutputs :=
  let q := quiet m ir rsa o
  { q with control :=
    { q.control with
      aluOp := MicroCodeMatrix.aluOp m.seq.irState ir
      rdData := rdData m ir q.csrData } }

theorem step_fetch (hi : i.resetI = true) (hs : s.seq.state = .fetch) :
    ∃ op data, stepSynthesis w i s =
      { matrix := moved (s.matrix.sample i) .decode .itLoad
        dp := s.dp.clock w { fetchControl with aluOp := op, rdData := data } } := by
  have ho : ∀ d : Datapath, outputsOn i s d =
      separately (s.matrix.sample i) d.ir d.rsa (fetchOut memNotBusy) := by
    intro d
    simp [comb, main, hs, separately]
  exact ⟨_, _, step_plain hi (by simp [plain, hs]) (congrArg (·.control) (ho s.dp)) (ho _) rfl rfl⟩

theorem step_decode (hi : i.resetI = true) (hs : s.seq.state = .decode)
    (hp : s.seq.irState = .itLoad) :
    stepSynthesis w i s =
      { matrix := moved (s.matrix.sample i) .execute (decodeNext (csrSystem s.dp.ir) s.dp.ir)
        dp := s.dp.clock w decodeControl } := by
  have ho : ∀ d : Datapath, outputsOn i s d =
      quiet (s.matrix.sample i) d.ir d.rsa (decodeOut (csrSystem d.ir) d.ir) := by
    intro d
    simp [comb, main, hs, hp, MicroCodeMatrix.aluOp, rdData, quiet, Outputs.noCsr, decodeOut,
      Outputs.init, decodeControl, Control.idle]
  have hir : (s.dp.clock w decodeControl).ir = s.dp.ir := Datapath.clock_ir rfl
  rw [step_plain (c := decodeControl) hi (by simp [plain, hs]) (by rw [ho s.dp]; rfl) (ho _) rfl
    rfl]
  simp only [quiet, Outputs.noCsr, decodeOut, hir]

/-! Execute -/

theorem outputsOn_shared (hs : s.seq.state = .execute) (hsh : shared s.seq.irState)
    (d : Datapath) :
    outputsOn i s d =
      let c := executeControl s.seq.irState d.ir (takeBranch d.aluFlags (funct3 d.ir))
      match executeNext s.seq.irState d.ir with
      | .next s' => quiet (s.matrix.sample i) d.ir d.rsa (executeOut c s')
      | .done => quiet (s.matrix.sample i) d.ir d.rsa (leaveOut c .preFetch) := by
  have hx := execute_shared (m := s.matrix.sample i) (by simpa using hsh) d.ir d.aluFlags d.rsa
  have hc := executeControl_separate (m := s.matrix.sample i) (by simpa using hs)
    (by simpa using hsh) d.ir (takeBranch d.aluFlags (funct3 d.ir))
  simp only [CsrMatrix.sample_seq] at hx hc
  simp only [outputsOn, comb, main, CsrMatrix.sample_seq, hs, hx]
  cases hn : executeNext s.seq.irState d.ir with
  | next s' => simp only [quiet, Outputs.noCsr, executeOut, Outputs.init, hc]
  | done => simp only [quiet, Outputs.noCsr, leaveOut, Outputs.init, hc]

theorem step_next {s' : InstructionState} (hi : i.resetI = true) (hs : s.seq.state = .execute)
    (hsh : shared s.seq.irState) (hn : executeNext s.seq.irState s.dp.ir = .next s') :
    stepSynthesis w i s =
      { matrix := moved (s.matrix.sample i) .execute s'
        dp := s.dp.exec w s.seq.irState } := by
  have hir : (s.dp.exec w s.seq.irState).ir = s.dp.ir := exec_ir w s.dp _
  have ho := outputsOn_shared (i := i) hs hsh s.dp
  have ho' := outputsOn_shared (i := i) hs hsh (s.dp.exec w s.seq.irState)
  simp only [hn] at ho
  simp only [hir, hn] at ho'
  exact step_plain (c := executeControl s.seq.irState s.dp.ir
    (takeBranch s.dp.aluFlags (funct3 s.dp.ir))) hi (plain_shared hs hsh) (by rw [ho]; rfl) ho' rfl
    rfl

theorem step_done (hi : i.resetI = true) (hs : s.seq.state = .execute)
    (hsh : shared s.seq.irState) (hn : executeNext s.seq.irState s.dp.ir = .done) :
    stepSynthesis w i s =
      { matrix := moved (s.matrix.sample i) .preFetch .itLoad
        dp := s.dp.exec w s.seq.irState } := by
  have hir : (s.dp.exec w s.seq.irState).ir = s.dp.ir := exec_ir w s.dp _
  have ho := outputsOn_shared (i := i) hs hsh s.dp
  have ho' := outputsOn_shared (i := i) hs hsh (s.dp.exec w s.seq.irState)
  simp only [hn] at ho
  simp only [hir, hn] at ho'
  exact step_plain (c := executeControl s.seq.irState s.dp.ir
    (takeBranch s.dp.aluFlags (funct3 s.dp.ir))) hi (plain_shared hs hsh) (by rw [ho]; rfl) ho' rfl
    rfl

/-- PreFetch takes no interrupt and reads the next instruction. -/
theorem step_preFetch (hi : i.resetI = true) (hs : s.seq.state = .preFetch)
    (ha : accepts s.matrix = false) :
    (stepSynthesis w i s).matrix = moved (s.matrix.sample i) .fetch .itLoad ∧
    ∃ op data, (stepSynthesis w i s).dp =
      s.dp.clock w { preFetchControl with aluOp := op, rdData := data } := by
  have ho : ∀ d : Datapath, outputsOn i s d =
      { separately (s.matrix.sample i) d.ir d.rsa (leaveOut preFetchControl .fetch) with
        irqPending := s.csrs.irqPending } := by
    intro d
    simp [comb, main, hs, preFetch, ha, separately]
  have hnot : (s.matrix.csrs.irqPending && !s.matrix.irq.interruptInProgress) = false := ha
  rw [step_eq (congrArg (·.control) (ho s.dp)) (ho _)]
  refine ⟨?_, _, _, rfl⟩
  ext1
  · simp [clock, moved, hi, SeqState.clock, separately, quiet, Outputs.noCsr, leaveOut,
      Outputs.init]
  · simp [clock, moved, CsrRegs.clock, separately, quiet, Outputs.noCsr, latchMip, clearsMip,
      inVector0, hs]
  · ext1 <;> simp [clock, moved, resetTrigger, inProgress, hs, hnot, IrqRegs.clock]

end Step

/-! ## Among the four processors -/

theorem moved_disabled {m : CsrMatrix} (h : m.csrs.disabled) (state : MatrixState)
    (irState : InstructionState) : (moved m state irState).csrs.disabled := by
  unfold moved
  split
  · exact (CsrRegs.disabled_setMip true).mpr h
  · exact h

theorem accepts_disabled {m : CsrMatrix} (h : m.csrs.disabled) : accepts m = false := by
  rw [accepts, CsrRegs.irqPending_disabled h, Bool.false_and]

theorem sequences (w : Wiring) : (Core.ofCsr (stepSynthesis w)).Sequences w where
  fetch i s hi hs := by
    obtain ⟨op, data, h⟩ := step_fetch (w := w) hi hs
    refine ⟨⟨op, data, ?_⟩, ?_, ?_⟩ <;> simp only [Core.ofCsr, h, moved]
  decode i s hi hs hsys := by
    have h := step_decode (w := w) hi hs.1 hs.2
    refine ⟨?_, ?_, ?_⟩
    · simp only [Core.ofCsr, h]
    · simp only [Core.ofCsr, h, moved]
    · simp only [Core.ofCsr, h, moved]
      exact decodeNext_eq hsys _ _
  execute i s s' hi hs hnext := by
    have h := step_next (w := w) hi hs.1 hs.2 hnext
    refine ⟨?_, ?_, ?_⟩ <;> simp only [Core.ofCsr, h, moved]

theorem returns (w : Wiring) : (Core.ofCsr (stepSynthesis w)).Returns w where
  disabled i s hi hs hdis := by
    have hdis' : (s.matrix.sample i).csrs.disabled := by
      rw [CsrMatrix.sample_csrs]
      exact hdis
    change (stepSynthesis w i s).matrix.csrs.disabled
    rcases hs with hs | hs | ⟨hs, hsh⟩
    · obtain ⟨op, data, h⟩ := step_fetch (w := w) hi hs
      rw [h]
      exact moved_disabled hdis' _ _
    · rw [step_decode hi hs.1 hs.2]
      exact moved_disabled hdis' _ _
    · cases hn : executeNext s.seq.irState s.dp.ir with
      | next s' =>
        rw [step_next hi hs hsh hn]
        exact moved_disabled hdis' _ _
      | done =>
        rw [step_done hi hs hsh hn]
        exact moved_disabled hdis' _ _
  leave s inp hinp hin hdone hdis := by
    obtain ⟨hs, hsh⟩ := hin
    have hstep := step_done (w := w) (hinp 0) hs hsh hdone
    have hdis' : (stepSynthesis w (inp 0) s).csrs.disabled := by
      rw [hstep]
      refine moved_disabled ?_ _ _
      rw [CsrMatrix.sample_csrs]
      exact hdis
    obtain ⟨hm, op, data, hd⟩ := step_preFetch (w := w) (i := inp 1)
      (s := stepSynthesis w (inp 0) s) (hinp 1) (by rw [hstep]; rfl) (accepts_disabled hdis')
    refine ⟨2, FirstReturn.afterEdge ?_ (FirstReturn.oneEdge ?_), ?_, ?_⟩
    · simp [Core.ofCsr, Core.AtFetch, hstep, moved]
    · change (stepSynthesis w (inp 1) (stepSynthesis w (inp 0) s)).matrix.seq.state = .fetch
      rw [hm]
      rfl
    · change Ready _ (stepSynthesis w (inp 1) (stepSynthesis w (inp 0) s)).dp
      rw [hd, hstep]
      exact ready_preFetch op data
    · change (stepSynthesis w (inp 1) (stepSynthesis w (inp 0) s)).matrix.csrs.disabled
      rw [hm]
      refine moved_disabled ?_ _ _
      rw [CsrMatrix.sample_csrs]
      exact hdis'

end SynthesisMatrix

end RangerRisc
