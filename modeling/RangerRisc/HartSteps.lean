import RangerRisc.Hart
import RangerRisc.Interrupts
import RangerRisc.Reset

/-! `modules/RangerRiscCSRs.sv` makes the steps of the hart, one from each boundary to the next,
whatever is in memory and whenever `irq_i` falls. -/

namespace RangerRisc

open Clocked

namespace ControlMatrixCSRs

def traps (m : CsrMatrix) : TrapState := ⟨m.csrs, m.irq.irqTriggered, m.irq.interruptInProgress⟩

/-- What a program sees of the processor. -/
def hart (s : CsrCore) : Hart := ⟨s.dp.arch, traps s.matrix⟩

theorem hart_accepts (s : CsrCore) : (hart s).traps.accepts = accepts s.matrix := rfl

/-- The states that read the next instruction: PreFetch, IRQ2 for the handler's first one and
Vector3 for the program's. -/
def AtBoundary (s : CsrCore) : Prop :=
  s.seq.state = .execute ∧ (s.seq.irState = .preFetch ∨ s.seq.irState = .irq2) ∨
    s.seq.state = .reset ∧ s.seq.vectorState = .vector3

instance : DecidablePred AtBoundary := fun _ => inferInstanceAs (Decidable (_ ∨ _))

/-- A boundary as runs have them. Only PreFetch looks at interrupts. -/
structure Rests (s : CsrCore) : Prop where
  boundary : AtBoundary s
  armed : s.irq.irqResetTrigger = false
  irq2 : s.seq.state = .execute → s.seq.irState = .irq2 → s.irq.interruptInProgress = true
  vector3 : s.seq.state = .reset → s.irq.interruptInProgress = false ∧ accepts s.matrix = false

/-! ## Falling edges of `irq_i` -/

/-- `irq_i` falls before one of the first `n` edges. -/
def fell (inp : ℕ → Input) : ℕ → Bool
  | 0 => false
  | n + 1 => fell inp n || (inp n).irqFalls

/-- A CSR is read on the fourth edge of its instruction. -/
def arrival (inp : ℕ → Input) (n : ℕ) : Arrival := ⟨fell inp 3, fell (fun k => inp (3 + k)) (n - 3)⟩

theorem fell_add (inp : ℕ → Input) (m n : ℕ) :
    fell inp (m + n) = (fell inp m || fell (fun k => inp (m + k)) n) := by
  induction n with
  | zero => simp [fell]
  | succ n ih => rw [← Nat.add_assoc, fell, fell, ih, Bool.or_assoc]

theorem fell_arrival (inp : ℕ → Input) {n : ℕ} (hn : 3 ≤ n) :
    fell inp n = ((arrival inp n).early || (arrival inp n).late) := by
  obtain ⟨k, rfl⟩ : ∃ k, n = 3 + k := ⟨n - 3, by omega⟩
  rw [fell_add, arrival, Nat.add_sub_cancel_left]

theorem fell_of_falls {inp : ℕ → Input} {j n : ℕ} (hj : j < n) (h : (inp j).irqFalls = true) :
    fell inp n = true := by
  induction n with
  | zero => exact absurd hj (Nat.not_lt_zero j)
  | succ n ih =>
    rw [fell, Bool.or_eq_true]
    rcases Nat.lt_or_eq_of_le (Nat.le_of_lt_succ hj) with hlt | rfl
    · exact .inl (ih hlt)
    · exact .inr h

/-- An edge within the step is part of its arrival. -/
theorem arrival_of_falls {inp : ℕ → Input} {j n : ℕ} (hj : j < n) (h : (inp j).irqFalls = true) :
    ((arrival inp n).early || (arrival inp n).late) = true := by
  rcases Nat.lt_or_ge j 3 with h3 | h3
  · rw [arrival, fell_of_falls h3 h, Bool.true_or]
  · rw [← fell_arrival inp (by omega)]
    exact fell_of_falls hj h

section Sample
variable {m : CsrMatrix} {i : Input}

theorem triggered_sample (h : m.irq.irqResetTrigger = false) :
    (m.sample i).irq.irqTriggered = (m.irq.irqTriggered || i.irqFalls) := by
  unfold CsrMatrix.sample
  cases i.irqFalls with
  | false => simp
  | true => simp [IrqRegs.fall, h]

theorem traps_moved (h : m.irq.irqResetTrigger = false) (state : MatrixState)
    (irState : InstructionState) :
    traps (moved (m.sample i) state irState) = (traps m).pend i.irqFalls := by
  simp only [traps, moved, TrapState.pend, triggered_sample h, CsrMatrix.sample_inProgress,
    CsrMatrix.sample_csrs]
  rfl

end Sample

section Moves
variable {step : Input → CsrCore → CsrCore} {s : CsrCore} {inp : ℕ → Input} {n : ℕ}

theorem MovesOn.pend {i : Input} {t : CsrCore} (h : MovesOn i s t)
    (harmed : s.irq.irqResetTrigger = false) :
    traps t.matrix = (traps s.matrix).pend i.irqFalls ∧
      t.irq.irqResetTrigger = false := by
  obtain ⟨state, irState, h⟩ := h
  refine ⟨by rw [h, traps_moved harmed], ?_⟩
  rw [CsrCore.irq, h]
  exact (CsrMatrix.sample_resetTrigger i s.matrix).trans harmed

/-- Edges on which the matrix only moves on let time pass. -/
theorem pend_of_moves (harmed : s.irq.irqResetTrigger = false)
    (hmoves : ∀ k < n + 1, MovesOn (inp k) (trace step s inp k) (trace step s inp (k + 1))) :
    traps (trace step s inp (n + 1)).matrix = (traps s.matrix).pend (fell inp (n + 1)) ∧
      (trace step s inp (n + 1)).irq.irqResetTrigger = false := by
  induction n with
  | zero => exact (hmoves 0 Nat.one_pos).pend harmed
  | succ n ih =>
    obtain ⟨htraps, harmed'⟩ := ih fun k hk => hmoves k (Nat.lt_succ_of_lt hk)
    have hedge := (hmoves (n + 1) (Nat.lt_succ_self _)).pend harmed'
    rw [hedge.1, htraps, TrapState.pend_pend, fell]
    exact ⟨rfl, hedge.2⟩

end Moves

/-! ## The first three edges -/

section Chain
variable {w : Wiring} {s : CsrCore} {inp : ℕ → Input}

/-- The size of the access has no part in a read that nothing takes. -/
theorem clock_vector3 (w : Wiring) (d : Datapath) :
    d.clock w (vectorControl .vector3) = d.clock w preFetchControl := by
  simp [Datapath.clock, vectorControl, preFetchControl, Control.idle, register, w.memWr_inactive,
    w.rsaLd_enabled, Datapath.addrMux, mux2]

theorem step_vector3 {i : Input} (hi : i.resetI = true) (hs : s.seq.state = .reset)
    (hv : s.seq.vectorState = .vector3) (hidle : s.irq.interruptInProgress = false) :
    stepCSRs w i s =
      { matrix := moved (s.matrix.sample i) .fetch .itLoad
        dp := s.dp.clock w preFetchControl } := by
  have ho : outputs i s = quietly i s (resetOut .fetch .vector3 true) := by
    simp [comb, hs, hv, hi]
  rw [step_eq ho]
  refine congrArg₂ CsrCore.mk ?_ (clock_vector3 w s.dp)
  ext1
  · simp [clock, moved, hi, SeqState.clock, quiet, Outputs.noCsr, resetOut, Outputs.init]
  · simp [clock, moved, CsrRegs.clock, quiet, Outputs.noCsr, latchMip, clearsMip, hs]
  · ext1 <;> simp [clock, moved, resetTrigger, inProgress, hs, hidle, IrqRegs.clock]

theorem step_boundary {i : Input} (hi : i.resetI = true) (hr : Rests s)
    (ha : accepts s.matrix = false) :
    stepCSRs w i s =
      { matrix := moved (s.matrix.sample i) .fetch .itLoad
        dp := s.dp.clock w preFetchControl } := by
  obtain ⟨hs, hp | hp⟩ | ⟨hs, hv⟩ := hr.boundary
  · exact step_preFetch hi hs hp ha
  · exact step_irq2 hi hs hp
  · exact step_vector3 hi hs hv (hr.vector3 hs).1

theorem decodeNext_ne (ir : Word) : decodeNext (csrSystem ir) ir ≠ .preFetch ∧
    decodeNext (csrSystem ir) ir ≠ .irq2 := by
  unfold decodeNext csrSystem
  cases irOpcode ir with
  | iTypeE =>
    dsimp only
    split_ifs <;> exact ⟨InstructionState.noConfusion, InstructionState.noConfusion⟩
  | _ => exact ⟨InstructionState.noConfusion, InstructionState.noConfusion⟩

theorem not_atBoundary (hs : s.seq.state ≠ .execute) (hr : s.seq.state ≠ .reset) :
    ¬ AtBoundary s := by
  rintro (⟨h, -⟩ | ⟨h, -⟩)
  · exact hs h
  · exact hr h

theorem not_atBoundary_execute (hs : s.seq.state = .execute) (hp : s.seq.irState ≠ .preFetch)
    (hq : s.seq.irState ≠ .irq2) : ¬ AtBoundary s := by
  rintro (⟨-, h | h⟩ | ⟨h, -⟩)
  · exact hp h
  · exact hq h
  · exact MatrixState.noConfusion (hs.symm.trans h)

theorem not_atBoundary_shared (hs : s.seq.state = .execute) (hsh : shared s.seq.irState) :
    ¬ AtBoundary s := by
  apply not_atBoundary_execute hs
  · intro hp
    rw [hp] at hsh
    exact Bool.noConfusion hsh
  · intro hp
    rw [hp] at hsh
    exact Bool.noConfusion hsh

/-- Where three edges lead from a boundary at which no interrupt is accepted. -/
structure Dispatched (w : Wiring) (s : CsrCore) (inp : ℕ → Input) : Prop where
  state : (trace (stepCSRs w) s inp 3).seq.state = .execute
  irState : (trace (stepCSRs w) s inp 3).seq.irState =
    decodeNext (csrSystem s.dp.arch.fetched) s.dp.arch.fetched
  decoded : Decoded s.dp.arch.fetched s.dp.arch (trace (stepCSRs w) s inp 3).dp
  storage : (trace (stepCSRs w) s inp 3).dp.storage = s.dp.arch.fetched
  moves : ∀ k < 3, MovesOn (inp k) (trace (stepCSRs w) s inp k) (trace (stepCSRs w) s inp (k + 1))
  inside : ∀ k, 0 < k → k ≤ 3 → ¬ AtBoundary (trace (stepCSRs w) s inp k)

/-- PreFetch, Fetch and Decode. -/
theorem dispatch (hinp : High inp) (hr : Rests s) (ha : accepts s.matrix = false) :
    Dispatched w s inp := by
  have h1 : trace (stepCSRs w) s inp 1 = _ := step_boundary (hinp 0) hr ha
  have hs1 : (trace (stepCSRs w) s inp 1).seq.state = .fetch := by rw [h1]; rfl
  have hready : Ready s.dp.arch (trace (stepCSRs w) s inp 1).dp := by
    rw [h1]
    exact ready_preFetch addOp 0
  have h2 : trace (stepCSRs w) s inp 2 = _ := step_fetch (hinp 1) hs1
  have hs2 : (trace (stepCSRs w) s inp 2).seq.state = .decode := by rw [h2]; rfl
  have hfetched : Fetched s.dp.arch (trace (stepCSRs w) s inp 2).dp := by
    rw [h2]
    exact hready.fetch addOp 0
  have h3 : trace (stepCSRs w) s inp 3 = _ := step_decode (hinp 2) hs2
  have hp3 : (trace (stepCSRs w) s inp 3).seq.irState =
      decodeNext (csrSystem s.dp.arch.fetched) s.dp.arch.fetched := by
    rw [h3, ← hfetched.ir_eq]
    rfl
  refine ⟨by rw [h3]; rfl, hp3, ?_, ?_, ?_, ?_⟩
  · rw [h3]
    exact hfetched.decode
  · rw [h3, ← hready.storage, h2]
    rfl
  · intro k hk
    obtain rfl | rfl | rfl : k = 0 ∨ k = 1 ∨ k = 2 := by omega
    · exact ⟨_, _, by rw [h1, trace_zero]⟩
    · exact ⟨_, _, by rw [h2]⟩
    · exact ⟨_, _, by rw [h3]⟩
  · intro k hk hk3
    obtain rfl | rfl | rfl : k = 1 ∨ k = 2 ∨ k = 3 := by omega
    · exact not_atBoundary (by rw [hs1]; decide) (by rw [hs1]; decide)
    · exact not_atBoundary (by rw [hs2]; decide) (by rw [hs2]; decide)
    · obtain ⟨hne, hne'⟩ := decodeNext_ne s.dp.arch.fetched
      exact not_atBoundary_execute (by rw [h3]; rfl) (by rw [hp3]; exact hne)
        (by rw [hp3]; exact hne')

end Chain

/-! ## The steps -/

/-- `modules/RangerRiscCSRs.sv` with its wiring. -/
abbrev stepWired (undef resetVector : Word) : Input → CsrCore → CsrCore :=
  stepCSRs (Wiring.rangerRiscCSRs undef resetVector)

/-- From the boundary `s` the processor comes to the next one, which is `h` for a program. -/
def Arrives (undef resetVector : Word) (s : CsrCore) (inp : ℕ → Input) (next : Arrival → Hart) :
    Prop :=
  ∃ n, FirstReturn (stepWired undef resetVector) AtBoundary s inp n ∧
    Rests (trace (stepWired undef resetVector) s inp n) ∧
    hart (trace (stepWired undef resetVector) s inp n) = next (arrival inp n)

theorem Rests.of_preFetch {s : CsrCore} (hs : s.seq.state = .execute)
    (hp : s.seq.irState = .preFetch) (harmed : s.irq.irqResetTrigger = false) : Rests s where
  boundary := .inl ⟨hs, .inl hp⟩
  armed := harmed
  irq2 _ h := InstructionState.noConfusion (hp.symm.trans h)
  vector3 h := MatrixState.noConfusion (hs.symm.trans h)

section Steps
variable {undef resetVector : Word} {s : CsrCore} {inp : ℕ → Input}

/-- An instruction whose states are shared, from the one that Decode chose to its last. -/
theorem completes_plain {w : Wiring} {ir : Word} {a : Arch} {d : Datapath} (hk : kind ir = .plain)
    (hdec : Decoded ir a d) (hw : StoreReaches w ir a) :
    Completes w (decodeNext (csrSystem ir) ir) d (instrStep w.undef ir a) := by
  rcases kind_plain hk with hsys | hu
  · exact completes_decoded hdec hsys hw _
  · rw [hu.decodeNext_eq]
    exact completes_itLoad hdec hu.loads

theorem instr_arrives (hinp : High inp) (hr : Rests s) (ha : accepts s.matrix = false)
    (hk : kind s.dp.arch.fetched = .plain) :
    Arrives undef resetVector s inp fun arr => (hart s).instr undef arr := by
  have hd : Dispatched (Wiring.rangerRiscCSRs undef resetVector) s inp := dispatch hinp hr ha
  obtain ⟨l, e, hrun, harch⟩ :=
    completes_plain (w := Wiring.rangerRiscCSRs undef resetVector) hk hd.decoded fun _ => rfl
  obtain ⟨n, hl, he, hpath⟩ :
      ∃ n, (trace (stepWired undef resetVector) s inp (3 + n)).seq.irState = l ∧
        (trace (stepWired undef resetVector) s inp (3 + n)).dp = e ∧
        ∀ k ≤ n, (trace (stepWired undef resetVector) s inp (3 + k)).seq.state = .execute ∧
          shared (trace (stepWired undef resetVector) s inp (3 + k)).seq.irState := by
    simp only [trace_add]
    exact (sequences (Wiring.rangerRiscCSRs undef resetVector)).execute_chain hrun (hinp.shift 3)
      hd.state hd.irState rfl
  obtain ⟨hlast, hsh⟩ := hpath n (Nat.le_refl n)
  have hend : trace (stepWired undef resetVector) s inp (3 + n + 1) = _ :=
    step_done (hinp (3 + n)) hlast hsh (by rw [hl, he]; exact hrun.last_done)
  have hmoves : ∀ k < 3 + n + 1, MovesOn (inp k) (trace (stepWired undef resetVector) s inp k)
      (trace (stepWired undef resetVector) s inp (k + 1)) := by
    intro k hk
    rcases Nat.lt_or_ge k 3 with hk3 | hk3
    · exact hd.moves k hk3
    · obtain ⟨j, rfl⟩ : ∃ j, k = 3 + j := ⟨k - 3, by omega⟩
      exact Busy.movesOn (.inr (.inr (hpath j (by omega)))) (hinp _)
  obtain ⟨htraps, harmed⟩ := pend_of_moves hr.armed hmoves
  refine ⟨3 + n + 1, ⟨Nat.succ_pos _, ?_, ?_⟩, ?_, ?_⟩
  · rw [hend]
    exact .inl ⟨rfl, .inl rfl⟩
  · intro k hk hkn
    rcases Nat.lt_or_ge 3 k with hk3 | hk3
    · obtain ⟨j, rfl⟩ : ∃ j, k = 3 + j := ⟨k - 3, by omega⟩
      exact not_atBoundary_shared (hpath j (by omega)).1 (hpath j (by omega)).2
    · exact hd.inside k hk hk3
  · exact .of_preFetch (by rw [hend]; rfl) (by rw [hend]; rfl) harmed
  · change hart _ = (hart s).instr undef (arrival inp (3 + n + 1))
    rw [hart, Hart.instr, htraps, fell_arrival inp (by omega), hend]
    refine congrArg (Hart.mk · _) ?_
    rw [hl, he]
    exact harch

/-- In a trap nothing gets pending. -/
theorem movedWith_inProgress {m : CsrMatrix} (h : m.irq.interruptInProgress = true)
    (irState : InstructionState) (r : CsrRegs) (q : IrqRegs) :
    (movedWith m irState r q).csrs = r := by
  simp [movedWith, h]

theorem movedWith_pending {r : CsrRegs} (h : r.mip.getLsbD Csr.mipMEIP = true) (m : CsrMatrix)
    (irState : InstructionState) (q : IrqRegs) : (movedWith m irState r q).csrs = r := by
  unfold movedWith
  dsimp only
  split
  · exact CsrRegs.setMip_of_MEIP h
  · rfl

/-- Into the trap: `irq_reset_trigger` is up for one edge, which clears what is triggered, and what
comes in then is lost. -/
theorem trap_entered (hinp : High inp) (hr : Rests s) (ha : accepts s.matrix = true) :
    FirstReturn (stepWired undef resetVector) AtBoundary s inp 3 ∧
      Rests (trace (stepWired undef resetVector) s inp 3) ∧
      hart (trace (stepWired undef resetVector) s inp 3) = (hart s).trap ∧
      (trace (stepWired undef resetVector) s inp 3).seq.irState = .irq2 := by
  obtain ⟨hpending, hidle⟩ := Bool.and_eq_true_iff.mp ha
  have hmeip : s.csrs.mip.getLsbD Csr.mipMEIP = true := (Bool.and_eq_true_iff.mp hpending).2
  obtain ⟨hs, hp⟩ : s.seq.state = .execute ∧ s.seq.irState = .preFetch := by
    obtain ⟨hs, hp | hp⟩ | ⟨hs, -⟩ := hr.boundary
    · exact ⟨hs, hp⟩
    · change (!s.irq.interruptInProgress) = true at hidle
      rw [hr.irq2 hs hp] at hidle
      exact Bool.noConfusion hidle
    · rw [(hr.vector3 hs).2] at ha
      exact Bool.noConfusion ha
  have h1 : trace (stepWired undef resetVector) s inp 1 = _ :=
    step_accept (hinp 0) hs hp ha
  have h2 : trace (stepWired undef resetVector) s inp 2 = _ :=
    step_irq0 (s := trace (stepWired undef resetVector) s inp 1) (hinp 1) (by rw [h1]; rfl)
      (by rw [h1]; rfl)
  have h3 : trace (stepWired undef resetVector) s inp 3 = _ :=
    step_irq1 (s := trace (stepWired undef resetVector) s inp 2) (hinp 2) (by rw [h2]; rfl)
      (by rw [h2]; rfl)
  have hcsrs1 : (trace (stepWired undef resetVector) s inp 1).csrs =
      { s.csrs with mstatus := trapStatus s.csrs.mstatus } := by
    rw [h1]
    refine movedWith_pending ?_ _ _ _
    exact hmeip
  have hin1 : (trace (stepWired undef resetVector) s inp 1).irq.interruptInProgress = true := by
    rw [h1]
    rfl
  have harmed1 : (trace (stepWired undef resetVector) s inp 1).irq.irqResetTrigger = false := by
    rw [h1]
    exact (CsrMatrix.sample_resetTrigger (inp 0) s.matrix).trans hr.armed
  have hcsrs2 : (trace (stepWired undef resetVector) s inp 2).csrs =
      { s.csrs with mstatus := trapStatus s.csrs.mstatus, mepc := s.dp.pc } := by
    rw [h2]
    refine (movedWith_inProgress ((CsrMatrix.sample_inProgress _ _).trans hin1) _ _ _).trans ?_
    rw [hcsrs1, h1]
    rfl
  have hirq2 : (trace (stepWired undef resetVector) s inp 2).irq = ⟨false, true, true⟩ := by
    rw [h2]
    change IrqRegs.clock _ _ _ = _
    simp [IrqRegs.clock, harmed1, hin1]
  have hcsrs3 : (trace (stepWired undef resetVector) s inp 3).csrs =
      { s.csrs with mstatus := trapStatus s.csrs.mstatus, mepc := s.dp.pc } := by
    rw [h3]
    refine (movedWith_inProgress ((CsrMatrix.sample_inProgress _ _).trans ?_) _ _ _).trans hcsrs2
    exact congrArg IrqRegs.interruptInProgress hirq2
  have hirq3 : (trace (stepWired undef resetVector) s inp 3).irq = ⟨false, false, true⟩ := by
    rw [h3]
    change IrqRegs.clock _ _ _ = _
    rw [CsrMatrix.sample]
    split <;> simp [IrqRegs.clock, IrqRegs.fall, hirq2]
  have harch3 : (trace (stepWired undef resetVector) s inp 3).dp.arch =
      { s.dp.arch with pc := s.csrs.mtvec } := by
    have hmtvec : (trace (stepWired undef resetVector) s inp 2).csrs.mtvec = s.csrs.mtvec := by
      rw [hcsrs2]
    rw [h3, hmtvec, h2, h1]
    rfl
  refine ⟨⟨by decide, ?_, ?_⟩, ⟨?_, ?_, ?_, ?_⟩, ?_, by rw [h3]; rfl⟩
  · rw [h3]
    exact .inl ⟨rfl, .inr rfl⟩
  · intro k hk hk3
    obtain rfl | rfl : k = 1 ∨ k = 2 := by omega
    · rw [h1]
      exact not_atBoundary_execute rfl InstructionState.noConfusion InstructionState.noConfusion
    · rw [h2]
      exact not_atBoundary_execute rfl InstructionState.noConfusion InstructionState.noConfusion
  · rw [h3]
    exact .inl ⟨rfl, .inr rfl⟩
  · rw [hirq3]
  · rw [hirq3]
    exact fun _ _ => rfl
  · rw [h3]
    exact fun h => MatrixState.noConfusion h
  · change Hart.mk _ ⟨CsrCore.csrs _, (CsrCore.irq _).irqTriggered,
      (CsrCore.irq _).interruptInProgress⟩ = _
    rw [harch3, hcsrs3, hirq3]
    rfl

theorem trap_arrives (hinp : High inp) (hr : Rests s) (ha : accepts s.matrix = true) :
    Arrives undef resetVector s inp fun _ => (hart s).trap := by
  obtain ⟨hret, hrests, hhart, -⟩ :=
    @trap_entered undef resetVector s inp hinp hr ha
  exact ⟨3, hret, hrests, hhart⟩

/-- ITMretClr clears MEIP, unless it is set at the same edge. -/
theorem setMip_pending (r : CsrRegs) (c : Bool) :
    (if c then (r.setMip false).setMip true else r.setMip false) = r.setMip c := by
  cases c with
  | false => rfl
  | true => exact r.setMip_setMip false true

theorem mret_arrives (hinp : High inp) (hr : Rests s) (ha : accepts s.matrix = false)
    (hk : kind s.dp.arch.fetched = .mret) :
    Arrives undef resetVector s inp fun arr => (hart s).mret arr := by
  have hd : Dispatched (Wiring.rangerRiscCSRs undef resetVector) s inp := dispatch hinp hr ha
  have hp3 := hd.irState.trans (kind_mret hk)
  have h4 : trace (stepWired undef resetVector) s inp 4 = _ := step_itMret (hinp 3) hd.state hp3
  have h5 : trace (stepWired undef resetVector) s inp 5 = _ :=
    step_itMretClr (s := trace (stepWired undef resetVector) s inp 4) (hinp 4) (by rw [h4]; rfl)
      (by rw [h4]; rfl)
  have hmoves : ∀ k < 4, MovesOn (inp k) (trace (stepWired undef resetVector) s inp k)
      (trace (stepWired undef resetVector) s inp (k + 1)) := by
    intro k hk4
    rcases Nat.lt_or_ge k 3 with hk3 | hk3
    · exact hd.moves k hk3
    · obtain rfl : k = 3 := by omega
      exact ⟨_, _, by rw [h4]⟩
  obtain ⟨htraps3, -⟩ := pend_of_moves (n := 2) hr.armed hd.moves
  obtain ⟨htraps4, harmed4⟩ := pend_of_moves hr.armed hmoves
  have harch : (trace (stepWired undef resetVector) s inp 5).dp.arch =
      { s.dp.arch with pc := mretPc s.csrs.mepc } := by
    have hmepc : (trace (stepWired undef resetVector) s inp 3).csrs.mepc = s.csrs.mepc :=
      (congrArg (fun t => t.csrs.mepc) htraps3).trans (TrapState.pend_mepc _ _)
    have hdata : (trace (stepWired undef resetVector) s inp 5).dp.arch =
        { (trace (stepWired undef resetVector) s inp 3).dp.arch with
          pc := mretPc (trace (stepWired undef resetVector) s inp 3).csrs.mepc } := by
      rw [h5, h4]
      rfl
    rw [hdata, hmepc]
    exact congrArg₂ (Arch.mk _) hd.decoded.regs hd.decoded.mem
  have htraps5 : traps (trace (stepWired undef resetVector) s inp 5).matrix =
      ((traps s.matrix).pend (fell inp 5)).leave := by
    rw [fell, ← TrapState.pend_pend, ← htraps4, TrapState.leave_pend, h5]
    simp only [traps, movedWith, triggered_sample harmed4, CsrMatrix.sample_inProgress]
    exact congrArg (TrapState.mk · _ _) (setMip_pending _ _)
  refine ⟨5, ⟨by decide, ?_, ?_⟩, ?_, ?_⟩
  · rw [h5]
    exact .inl ⟨rfl, .inl rfl⟩
  · intro k hk hk5
    rcases Nat.lt_or_ge 3 k with hk3 | hk3
    · obtain rfl : k = 4 := by omega
      rw [h4]
      exact not_atBoundary_execute rfl InstructionState.noConfusion InstructionState.noConfusion
    · exact hd.inside k hk hk3
  · refine .of_preFetch (by rw [h5]; rfl) (by rw [h5]; rfl) ?_
    rw [h5]
    exact (CsrMatrix.sample_resetTrigger _ _).trans harmed4
  · change Hart.mk _ (traps _) = (hart s).mret (arrival inp 5)
    rw [harch, htraps5, Hart.mret, fell_arrival inp (by decide)]
    rfl

/-! ### CSR instructions -/

theorem traps_written {m : CsrMatrix} {i : Input} (harmed : m.irq.irqResetTrigger = false)
    (irState : InstructionState) (r : CsrRegs) :
    traps (movedWith (m.sample i) irState r (m.sample i).irq) =
      ((traps m).edit fun _ => r).pend i.irqFalls := by
  simp only [traps, movedWith, TrapState.pend, TrapState.edit, triggered_sample harmed,
    CsrMatrix.sample_inProgress]
  rfl

section Csr
variable {ir : Word} {i : Zicsr.Instr}

/-- csrrw to x0 writes in ITCSR. -/
theorem write_blind (hf : CsrFields ir i) (r : CsrRegs) (rsa : Word)
    (hblind : i.op = .write ∧ i.immediate = false ∧ i.rd = 0#5) :
    r.write (funct12 ir) (csrDataRead r (funct12 ir) ir rsa) = r.perform i rsa := by
  rw [hf.csrDataRead, if_pos hblind, hf.funct12, CsrRegs.perform, hblind.1]
  rfl

/-- The others write in ITCSRLd. -/
theorem write_transfer (hf : CsrFields ir i) (r : CsrRegs) (rsa : Word)
    (hblind : ¬ (i.op = .write ∧ i.immediate = false ∧ i.rd = 0#5)) :
    r.write (funct12 ir) (csrLdData ir rsa (csrDataRead r (funct12 ir) ir rsa)) =
      r.perform i (if i.immediate then i.source.setWidth 32 else rsa) := by
  rw [hf.csrDataRead, if_neg hblind, hf.csrLdData, hf.funct12, CsrRegs.perform]

end Csr

/-- A CSR instruction in ITCSR, three edges after the boundary. -/
structure ReachesCsr (undef resetVector : Word) (s : CsrCore) (inp : ℕ → Input) (i : Zicsr.Instr) :
    Prop where
  dispatched : Dispatched (Wiring.rangerRiscCSRs undef resetVector) s inp
  irState : (trace (stepWired undef resetVector) s inp 3).seq.irState = .itCsr
  fields : CsrFields (trace (stepWired undef resetVector) s inp 3).dp.ir i
  arch : (trace (stepWired undef resetVector) s inp 3).dp.arch =
    ⟨s.dp.pc + 4, s.dp.arch.regs, s.dp.mem⟩
  rsa : (trace (stepWired undef resetVector) s inp 3).dp.rsa = s.dp.arch.regs i.source
  pended : traps (trace (stepWired undef resetVector) s inp 3).matrix =
    (traps s.matrix).pend (fell inp 3)
  armed : (trace (stepWired undef resetVector) s inp 3).irq.irqResetTrigger = false

section Csr
variable {i : Zicsr.Instr}

theorem reachesCsr (hinp : High inp) (hr : Rests s) (ha : accepts s.matrix = false)
    (hk : kind s.dp.arch.fetched = .csr i) : ReachesCsr undef resetVector s inp i := by
  have hd : Dispatched (Wiring.rangerRiscCSRs undef resetVector) s inp := dispatch hinp hr ha
  obtain ⟨htraps, harmed⟩ := pend_of_moves (n := 2) hr.armed hd.moves
  refine ⟨hd, hd.irState.trans (kind_csr hk).decodeNext, ?_, ?_, ?_, htraps, harmed⟩
  · rw [hd.decoded.ir_eq]
    exact kind_csr hk
  · ext1
    · exact hd.decoded.pc
    · exact hd.decoded.regs
    · exact hd.decoded.mem
  · rw [hd.decoded.rsa, srcA, (kind_csr hk).rs1]

/-- A form that does nothing. -/
theorem ReachesCsr.skip (h : ReachesCsr undef resetVector s inp i) (hinp : High inp)
    (hskip : i.op ≠ .write ∧ i.immediate = false ∧ i.source = 0#5) :
    Arrives undef resetVector s inp fun arr => (hart s).csrInstr arr i := by
  have h4 : trace (stepWired undef resetVector) s inp 4 = _ :=
    step_itCsr_skip (hinp 3) h.dispatched.state h.irState
      (CsrFields.action_skip h.fields hskip.1 hskip.2.1 hskip.2.2)
  have htraps : traps (trace (stepWired undef resetVector) s inp 4).matrix =
      (traps s.matrix).pend (fell inp 4) := by
    rw [h4, traps_moved h.armed, h.pended, TrapState.pend_pend]
    rfl
  refine ⟨4, ⟨by decide, ?_, fun k hk hk4 => h.dispatched.inside k hk (by omega)⟩, ?_, ?_⟩
  · rw [h4]
    exact .inl ⟨rfl, .inl rfl⟩
  · refine .of_preFetch (by rw [h4]; rfl) (by rw [h4]; rfl) ?_
    rw [h4]
    exact (CsrMatrix.sample_resetTrigger _ _).trans h.armed
  · change Hart.mk _ (traps _) = (hart s).csrInstr (arrival inp 4) i
    rw [Hart.csrInstr, if_pos hskip, htraps, fell_arrival inp (by decide), h4,
      (clock_csrControl undef resetVector _).1, h.arch]
    rfl

/-- A form that writes, but not `rd`. -/
theorem ReachesCsr.blind (h : ReachesCsr undef resetVector s inp i) (hinp : High inp)
    (hblind : i.op = .write ∧ i.immediate = false ∧ i.rd = 0#5) :
    Arrives undef resetVector s inp fun arr => (hart s).csrInstr arr i := by
  have hact : action (trace (stepWired undef resetVector) s inp 3).dp.ir = .write := by
    rw [CsrFields.action_source h.fields (.inl hblind.1), if_pos hblind]
  have h4 : trace (stepWired undef resetVector) s inp 4 = _ :=
    step_itCsr_write (hinp 3) h.dispatched.state h.irState hact
  have hoperand : i.operand s.dp.arch.regs =
      (trace (stepWired undef resetVector) s inp 3).dp.rsa := by
    rw [h.rsa, Zicsr.Instr.operand, hblind.2.1]
    rfl
  have htraps : traps (trace (stepWired undef resetVector) s inp 4).matrix =
      (((traps s.matrix).pend (arrival inp 4).early).edit
        (CsrRegs.perform i (i.operand s.dp.arch.regs))).pend (arrival inp 4).late := by
    rw [h4, traps_written h.armed, csrData, write_blind h.fields _ _ hblind, hoperand, arrival,
      ← h.pended]
    rfl
  refine ⟨4, ⟨by decide, ?_, fun k hk hk4 => h.dispatched.inside k hk (by omega)⟩, ?_, ?_⟩
  · rw [h4]
    exact .inl ⟨rfl, .inl rfl⟩
  · refine .of_preFetch (by rw [h4]; rfl) (by rw [h4]; rfl) ?_
    rw [h4]
    exact (CsrMatrix.sample_resetTrigger _ _).trans h.armed
  · have hno : ¬ (i.op ≠ .write ∧ i.immediate = false ∧ i.source = 0#5) := fun h => h.1 hblind.1
    change Hart.mk _ (traps _) = (hart s).csrInstr (arrival inp 4) i
    rw [Hart.csrInstr, if_neg hno, htraps, h4, (clock_csrControl undef resetVector _).1, h.arch,
      hblind.2.2, Rv32i.RegFile.write_zero]
    rfl

/-- The other forms: `rd` is written in ITCSR, the CSR in ITCSRLd. -/
theorem ReachesCsr.transfer (h : ReachesCsr undef resetVector s inp i) (hinp : High inp)
    (hskip : ¬ (i.op ≠ .write ∧ i.immediate = false ∧ i.source = 0#5))
    (hblind : ¬ (i.op = .write ∧ i.immediate = false ∧ i.rd = 0#5)) :
    Arrives undef resetVector s inp fun arr => (hart s).csrInstr arr i := by
  have hsrc : i.op = .write ∨ i.immediate = true ∨ i.source ≠ 0#5 := by
    by_contra hno
    simp only [not_or, Bool.not_eq_true, Decidable.not_not] at hno
    exact hskip hno
  have hact : action (trace (stepWired undef resetVector) s inp 3).dp.ir = .transfer := by
    rw [CsrFields.action_source h.fields hsrc, if_neg hblind]
  have h4 : trace (stepWired undef resetVector) s inp 4 = _ :=
    step_itCsr_transfer (hinp 3) h.dispatched.state h.irState hact
  have h5 : trace (stepWired undef resetVector) s inp 5 = _ :=
    step_itCsrLd (s := trace (stepWired undef resetVector) s inp 4) (hinp 4) (by rw [h4]; rfl)
      (by rw [h4]; rfl)
  obtain ⟨harch4, hrsa4, hir4⟩ := clock_transfer undef resetVector
    (trace (stepWired undef resetVector) s inp 3).dp
    (csrData (trace (stepWired undef resetVector) s inp 3).matrix
      (trace (stepWired undef resetVector) s inp 3).dp.ir
      (trace (stepWired undef resetVector) s inp 3).dp.rsa)
  have hf4 : CsrFields (trace (stepWired undef resetVector) s inp 4).dp.ir i := by
    rw [h4]
    exact hir4 ▸ h.fields
  have htraps4 : traps (trace (stepWired undef resetVector) s inp 4).matrix =
      ((traps s.matrix).pend (arrival inp 5).early).pend (inp 3).irqFalls := by
    rw [h4, traps_moved h.armed, h.pended]
    rfl
  have harmed4 : (trace (stepWired undef resetVector) s inp 4).irq.irqResetTrigger = false := by
    rw [h4]
    exact (CsrMatrix.sample_resetTrigger _ _).trans h.armed
  have hoperand : i.operand s.dp.arch.regs =
      if i.immediate then i.source.setWidth 32
      else (trace (stepWired undef resetVector) s inp 4).dp.rsa := by
    rw [h4, Zicsr.Instr.operand, ← h.rsa]
    exact congrArg _ hrsa4.symm
  have hwritten : traps (trace (stepWired undef resetVector) s inp 5).matrix =
      ((traps (trace (stepWired undef resetVector) s inp 4).matrix).edit
        (CsrRegs.perform i (i.operand s.dp.arch.regs))).pend (inp 4).irqFalls := by
    rw [h5, traps_written harmed4, csrData, write_transfer hf4 _ _ hblind, hoperand]
    rfl
  have htraps5 : traps (trace (stepWired undef resetVector) s inp 5).matrix =
      (((traps s.matrix).pend (arrival inp 5).early).edit
        (CsrRegs.perform i (i.operand s.dp.arch.regs))).pend (arrival inp 5).late := by
    rw [hwritten, htraps4, TrapState.pend_edit _ fun r => r.perform_setMip i _ true]
    rfl
  refine ⟨5, ⟨by decide, ?_, ?_⟩, ?_, ?_⟩
  · rw [h5]
    exact .inl ⟨rfl, .inl rfl⟩
  · intro k hk hk5
    rcases Nat.lt_or_ge 3 k with hk3 | hk3
    · obtain rfl : k = 4 := by omega
      rw [h4]
      exact not_atBoundary_execute rfl InstructionState.noConfusion InstructionState.noConfusion
    · exact h.dispatched.inside k hk hk3
  · refine .of_preFetch (by rw [h5]; rfl) (by rw [h5]; rfl) ?_
    rw [h5]
    exact (CsrMatrix.sample_resetTrigger _ _).trans harmed4
  · change Hart.mk _ (traps _) = (hart s).csrInstr (arrival inp 5) i
    rw [Hart.csrInstr, if_neg hskip, htraps5, h5,
      (clock_csrControl undef resetVector _).1, h4, harch4,
      csrData, h.fields.csrDataRead, if_neg hblind, h.fields.dstRg, h.arch]
    refine congrArg (Hart.mk · _) (congrArg (Arch.mk _ · _) ?_)
    rw [arrival, hart, ← h.pended]
    rfl

theorem csr_arrives (hinp : High inp) (hr : Rests s) (ha : accepts s.matrix = false)
    (hk : kind s.dp.arch.fetched = .csr i) :
    Arrives undef resetVector s inp fun arr => (hart s).csrInstr arr i := by
  have h : ReachesCsr undef resetVector s inp i := reachesCsr hinp hr ha hk
  by_cases hskip : i.op ≠ .write ∧ i.immediate = false ∧ i.source = 0#5
  · exact h.skip hinp hskip
  · by_cases hblind : i.op = .write ∧ i.immediate = false ∧ i.rd = 0#5
    · exact h.blind hinp hblind
    · exact h.transfer hinp hskip hblind

end Csr

/-! ### Instructions that never end -/

/-- ITCSR does not know what to do with `ir` and leaves for Fetch. -/
def Unknown (ir : Word) : Prop :=
  decodeNext (csrSystem ir) ir = .itCsr ∧ action ir = .unknown

/-- In EBREAK or ECALL, or on the way round Fetch, Decode and ITCSR with the word `ir`, which is
still the output of the memory. -/
inductive Hangs (s : CsrCore) : Prop where
  | waits (hs : s.seq.state = .execute) (hp : s.seq.irState = .itEbreak ∨ s.seq.irState = .itECall)
  | fetch (hs : s.seq.state = .fetch) (hu : Unknown s.dp.storage)
  | decode (hs : s.seq.state = .decode) (hu : Unknown s.dp.storage) (hir : s.dp.ir = s.dp.storage)
  | itCsr (hs : s.seq.state = .execute) (hp : s.seq.irState = .itCsr) (hu : Unknown s.dp.storage)
    (hir : s.dp.ir = s.dp.storage)

theorem Hangs.step {w : Wiring} {i : Input} (h : Hangs s) (hi : i.resetI = true) :
    Hangs (stepCSRs w i s) := by
  cases h with
  | waits hs hp =>
    rw [step_wait hi hs hp]
    exact .waits rfl hp
  | fetch hs hu =>
    rw [step_fetch hi hs]
    exact .decode rfl hu rfl
  | decode hs hu hir =>
    rw [step_decode hi hs, hir, hu.1]
    exact .itCsr rfl rfl hu hir
  | itCsr hs hp hu hir =>
    rw [step_itCsr_unknown hi hs hp (by rw [hir]; exact hu.2)]
    exact .fetch rfl hu

theorem Hangs.not_atBoundary (h : Hangs s) : ¬ AtBoundary s := by
  cases h with
  | waits hs hp =>
    rcases hp with hp | hp
    · exact not_atBoundary_execute hs (by rw [hp]; decide) (by rw [hp]; decide)
    · exact not_atBoundary_execute hs (by rw [hp]; decide) (by rw [hp]; decide)
  | fetch hs | decode hs =>
    exact ControlMatrixCSRs.not_atBoundary (by rw [hs]; decide) (by rw [hs]; decide)
  | itCsr hs hp => exact not_atBoundary_execute hs (by rw [hp]; decide) (by rw [hp]; decide)

theorem Hangs.run (h : Hangs s) (hinp : High inp) (n : ℕ) :
    Hangs (trace (stepWired undef resetVector) s inp n) := by
  apply trace_invariant (p := Hangs) h
  intro k hk
  exact hk.step (hinp k)

theorem hang_never (hinp : High inp) (hr : Rests s) (ha : accepts s.matrix = false)
    (hk : kind s.dp.arch.fetched = .hangs) (n : ℕ) :
    ¬ FirstReturn (stepWired undef resetVector) AtBoundary s inp n := by
  have hd : Dispatched (Wiring.rangerRiscCSRs undef resetVector) s inp := dispatch hinp hr ha
  have hhangs : Hangs (trace (stepWired undef resetVector) s inp 3) := by
    rcases kind_hangs hk with hp | hp | hu
    · exact .waits hd.state (.inl (hd.irState.trans hp))
    · exact .waits hd.state (.inr (hd.irState.trans hp))
    · refine .itCsr hd.state (hd.irState.trans hu.1) ?_ (hd.decoded.ir_eq.trans hd.storage.symm)
      rw [hd.storage]
      exact hu
  intro hret
  rcases Nat.lt_or_ge n 4 with hn | hn
  · exact hd.inside n hret.pos (by omega) hret.hit
  · obtain ⟨m, rfl⟩ : ∃ m, n = 3 + m := ⟨n - 3, by omega⟩
    have hit := hret.hit
    rw [trace_add] at hit
    exact (hhangs.run (hinp.shift 3) m).not_atBoundary hit

/-! ### All steps -/

/-- **From boundary to boundary** the processor makes one step of the hart, or neither moves on. -/
theorem steps (hinp : High inp) (hr : Rests s) :
    Steps (stepWired undef resetVector) AtBoundary Rests hart (Hart.step undef) arrival s inp := by
  have harrives : ∀ next : Arrival → Hart, Arrives undef resetVector s inp next →
      (∀ arr, Hart.step undef arr (hart s) = some (next arr)) →
      Steps (stepWired undef resetVector) AtBoundary Rests hart (Hart.step undef)
        arrival s inp := by
    rintro next ⟨n, hret, hrests, hn⟩ hstep
    exact .inl ⟨n, hret, hrests, by rw [hstep, hn]⟩
  cases ha : accepts s.matrix with
  | true => exact harrives _ (trap_arrives hinp hr ha) fun arr =>
      Hart.step_of_accepts ((hart_accepts s).trans ha)
  | false =>
    have hstep : ∀ arr, Hart.step undef arr (hart s) = _ := fun arr =>
      Hart.step_of_not_accepts ((hart_accepts s).trans ha)
    cases hk : kind (hart s).arch.fetched with
    | plain => exact harrives _ (instr_arrives hinp hr ha hk) fun arr => by rw [hstep, hk]
    | csr i => exact harrives _ (csr_arrives hinp hr ha hk) fun arr => by rw [hstep, hk]
    | mret => exact harrives _ (mret_arrives hinp hr ha hk) fun arr => by rw [hstep, hk]
    | hangs => exact .inr ⟨fun arr => by rw [hstep, hk], hang_never hinp hr ha hk⟩

end Steps

end ControlMatrixCSRs

end RangerRisc
