import RangerRisc.Agreement

/-! The reset sequence of the four processors: from any state into Sync0, through the
vector states, to the first Decode. -/

namespace RangerRisc

open Clocked

/-! ## The vector states -/

/-- The signals of a vector state. The ALU's operation and `rd_data` have no part in it. -/
def vectorSignals (v : ResetState) (op : BitVec 6) (data : Word) : Control :=
  { vectorControl v with aluOp := op, rdData := data }

/-- Where `pc_mux` leads for `pcSrcResetAdr`, given the memory output. -/
def Wiring.SelectsResetAdr (w : Wiring) (f : Word → Word) : Prop :=
  ∀ a b data storage, w.pcMux pcSrcResetAdr a b data storage = f storage

def vectorPc (w : Wiring) (f : Word → Word) (d : Datapath) : ResetState → Word
  | .vector0 => w.resetVector
  | .vector2 => f d.storage
  | .sync0 | .vector1 | .vector3 => d.pc

def vectorStorage (d : Datapath) : ResetState → Word
  | .vector1 | .vector3 => d.mem (Pmmu.wordAddr d.pc)
  | .sync0 | .vector0 | .vector2 => d.storage

section Vector
variable {w : Wiring} (d : Datapath) (v : ResetState) (op : BitVec 6) (data : Word)

theorem vector_keeps : d.Keeps (d.clock w (vectorSignals v op data)) := by
  cases v <;> exact Datapath.keeps_clock rfl rfl

theorem vector_pc {f : Word → Word} (hf : w.SelectsResetAdr f) :
    (d.clock w (vectorSignals v op data)).pc = vectorPc w f d v := by
  cases v with
  | sync0 | vector1 | vector3 => rfl
  | vector0 =>
    simp [Datapath.clock, vectorSignals, vectorControl, Control.idle, register,
      Datapath.pcSrcOut, w.pcMux_resetVec, vectorPc]
  | vector2 =>
    simp [Datapath.clock, vectorSignals, vectorControl, Control.idle, register,
      Datapath.pcSrcOut, Datapath.pmmuOut, Pmmu.rdOut, hf _ _ _ _, vectorPc]

theorem vector_storage :
    (d.clock w (vectorSignals v op data)).storage = vectorStorage d v := by
  cases v <;>
    simp [Datapath.clock, vectorSignals, vectorControl, Control.idle, register, Datapath.addrMux,
      mux2, vectorStorage]

/-- Vector3 readies the first fetch, as PreFetch does the others. -/
theorem vector3_ready : Ready d.arch (d.clock w (vectorSignals .vector3 op data)) where
  arch := by
    obtain ⟨hbank, hmem⟩ := vector_keeps (w := w) d .vector3 op data
    rw [Datapath.arch, hbank, hmem]
    rfl
  storage := vector_storage d .vector3 op data

end Vector

/-! ## Through the vector states -/

namespace Core

variable (c : Core)

def AtVector (v : ResetState) (s : c.State) : Prop :=
  (c.seq s).state = .reset ∧ (c.seq s).vectorState = v

/-- How a processor goes through reset. Vector0 makes it `quiet`, so that no interrupt gets
in before the first fetch. -/
structure Resets (w : Wiring) (quiet : c.State → Prop) : Prop where
  low : ∀ i s, i.resetI = false → c.AtVector .sync0 (c.step i s)
  vector : ∀ i s v, c.AtVector v s →
    ∃ op data, c.dp (c.step i s) = (c.dp s).clock w (vectorSignals v op data)
  next : ∀ i s v, i.resetI = true → v ≠ .vector3 → c.AtVector v s →
    c.AtVector (nextVector true v) (c.step i s)
  quiet_vector0 : ∀ i s, c.AtVector .vector0 s → quiet (c.step i s)
  quiet_step : ∀ i s v, c.AtVector v s → quiet s → quiet (c.step i s)
  vector3 : ∀ s inp, High inp → c.AtVector .vector3 s → quiet s →
    c.AtFetch (c.step (inp 0) s) ∨
    (c.seq (c.step (inp 0) s)).state = .preFetch ∧ c.AtFetch (c.step (inp 1) (c.step (inp 0) s)) ∧
      ∃ op data, c.dp (c.step (inp 1) (c.step (inp 0) s)) =
        (c.dp (c.step (inp 0) s)).clock w { preFetchControl with aluOp := op, rdData := data }

variable {c} {w : Wiring} {quiet : c.State → Prop}

/-- One edge through a vector state other than the last. -/
theorem Resets.edge (h : c.Resets w quiet) {f : Word → Word} (hf : w.SelectsResetAdr f)
    {i : Input} {s : c.State} {v : ResetState} (hi : i.resetI = true) (hv : v ≠ .vector3)
    (hs : c.AtVector v s) :
    c.AtVector (nextVector true v) (c.step i s) ∧ (c.dp s).Keeps (c.dp (c.step i s)) ∧
      (c.dp (c.step i s)).pc = vectorPc w f (c.dp s) v ∧
      (c.dp (c.step i s)).storage = vectorStorage (c.dp s) v := by
  obtain ⟨op, data, hd⟩ := h.vector i s v hs
  rw [hd]
  exact ⟨h.next i s v hi hv hs, vector_keeps _ v op data, vector_pc _ v op data hf,
    vector_storage _ v op data⟩

/-- From Sync0 to Vector3: pc has got what is stored at the reset vector. -/
theorem Resets.to_vector3 (h : c.Resets w quiet) {f : Word → Word} (hf : w.SelectsResetAdr f)
    {s : c.State} {inp : ℕ → Input} (hinp : High inp) (hs : c.AtVector .sync0 s) :
    (c.AtVector .vector0 (trace c.step s inp 1) ∧ c.AtVector .vector1 (trace c.step s inp 2) ∧
      c.AtVector .vector2 (trace c.step s inp 3) ∧ c.AtVector .vector3 (trace c.step s inp 4)) ∧
    (∀ k ≤ 4, (c.dp s).Keeps (c.dp (trace c.step s inp k))) ∧
    quiet (trace c.step s inp 4) ∧
    (c.dp (trace c.step s inp 4)).pc = f ((c.dp s).mem (Pmmu.wordAddr w.resetVector)) := by
  obtain ⟨hs1, hk1, -, -⟩ := h.edge hf (hinp 0) (by decide) hs
  obtain ⟨hs2, hk2, hpc2, -⟩ := h.edge (s := trace c.step s inp 1) hf (hinp 1) (by decide) hs1
  have hq2 := h.quiet_vector0 (inp 1) _ hs1
  obtain ⟨hs3, hk3, -, hst3⟩ := h.edge (s := trace c.step s inp 2) hf (hinp 2) (by decide) hs2
  have hq3 := h.quiet_step (inp 2) _ _ hs2 hq2
  obtain ⟨hs4, hk4, hpc4, -⟩ := h.edge (s := trace c.step s inp 3) hf (hinp 3) (by decide) hs3
  have hq4 := h.quiet_step (inp 3) _ _ hs3 hq3
  have hk2' := hk1.trans hk2
  have hk3' := hk2'.trans hk3
  refine ⟨⟨hs1, hs2, hs3, hs4⟩, ?_, hq4, ?_⟩
  · intro k hk
    obtain rfl | rfl | rfl | rfl | rfl : k = 0 ∨ k = 1 ∨ k = 2 ∨ k = 3 ∨ k = 4 := by omega
    · exact Datapath.Keeps.refl _
    · exact hk1
    · exact hk2'
    · exact hk3'
    · exact hk3'.trans hk4
  · calc (c.dp (trace c.step s inp 4)).pc
        = f (c.dp (trace c.step s inp 3)).storage := hpc4
      _ = f ((c.dp (trace c.step s inp 2)).mem
            (Pmmu.wordAddr (c.dp (trace c.step s inp 2)).pc)) := congrArg f hst3
      _ = f ((c.dp s).mem (Pmmu.wordAddr w.resetVector)) := by
          rw [trace_succ, hpc2]
          exact congrArg (fun m => f (m (Pmmu.wordAddr w.resetVector))) hk2'.2

/-- From Vector3 to the first Fetch, with or without a PreFetch in between. -/
theorem Resets.to_fetch (h : c.Resets w quiet) {s : c.State} {inp : ℕ → Input} (hinp : High inp)
    (hs : c.AtVector .vector3 s) (hquiet : quiet s) :
    ∃ n, c.AtFetch (trace c.step s inp n) ∧
      (∀ k ≤ n, (c.seq (trace c.step s inp k)).state ≠ .decode ∧
        (c.dp s).Keeps (c.dp (trace c.step s inp k))) ∧
      Ready (c.dp s).arch (c.dp (trace c.step s inp n)) := by
  obtain ⟨op, data, hd⟩ := h.vector (inp 0) s .vector3 hs
  have hs0 : (c.seq s).state ≠ .decode := by
    rw [hs.1]
    exact MatrixState.noConfusion
  have hkeep : (c.dp s).Keeps (c.dp (c.step (inp 0) s)) := by
    rw [hd]
    exact vector_keeps _ _ op data
  have hready : Ready (c.dp s).arch (c.dp (c.step (inp 0) s)) := by
    rw [hd]
    exact vector3_ready _ op data
  rcases h.vector3 s inp hinp hs hquiet with hfetch | ⟨hpre, hfetch, op', data', hd'⟩
  · refine ⟨1, hfetch, ?_, hready⟩
    intro k hk
    obtain rfl | rfl : k = 0 ∨ k = 1 := by omega
    · exact ⟨hs0, Datapath.Keeps.refl _⟩
    · refine ⟨fun hdec => ?_, hkeep⟩
      exact MatrixState.noConfusion (hfetch.symm.trans hdec)
  · have hkeep' : (c.dp s).Keeps (c.dp (c.step (inp 1) (c.step (inp 0) s))) := by
      rw [hd']
      exact hkeep.trans (Datapath.keeps_clock rfl rfl)
    refine ⟨2, hfetch, ?_, ?_⟩
    · intro k hk
      obtain rfl | rfl | rfl : k = 0 ∨ k = 1 ∨ k = 2 := by omega
      · exact ⟨hs0, Datapath.Keeps.refl _⟩
      · refine ⟨fun hdec => ?_, hkeep⟩
        exact MatrixState.noConfusion (hpre.symm.trans hdec)
      · refine ⟨fun hdec => ?_, hkeep'⟩
        exact MatrixState.noConfusion (hfetch.symm.trans hdec)
    · change Ready _ (c.dp (c.step (inp 1) (c.step (inp 0) s)))
      rw [hd', ← hready.arch]
      exact ready_preFetch op' data'

/-- **From Sync0 to the first Decode.** -/
theorem Resets.to_decode (h : c.Resets w quiet) (hseq : c.Sequences w) {f : Word → Word}
    (hf : w.SelectsResetAdr f) {s : c.State} {inp : ℕ → Input} (hinp : High inp)
    (hs : c.AtVector .sync0 s) :
    ∃ n, 4 < n ∧ (c.seq (trace c.step s inp n)).state = .decode ∧
      (∀ k < n, (c.seq (trace c.step s inp k)).state ≠ .decode) ∧
      (∀ k ≤ n, (c.dp s).Keeps (c.dp (trace c.step s inp k))) ∧
      (c.dp (trace c.step s inp n)).pc = f ((c.dp s).mem (Pmmu.wordAddr w.resetVector)) ∧
      (c.dp (trace c.step s inp n)).ir =
        (c.dp s).mem (Pmmu.wordAddr (c.dp (trace c.step s inp n)).pc) := by
  obtain ⟨⟨hs1, hs2, hs3, hs4⟩, hkeeps, hquiet, hpc⟩ := h.to_vector3 hf hinp hs
  obtain ⟨m, hfetch, hm, hready⟩ := h.to_fetch (hinp.shift 4) hs4 hquiet
  rw [← trace_add] at hfetch hready
  obtain ⟨⟨op, data, hd⟩, hdec⟩ := hseq.fetch (inp (4 + m)) _ (hinp _) hfetch
  have hfetched := hready.fetch (w := w) op data
  rw [← hd] at hfetched
  have hkeepsm : ∀ k ≤ 4 + m, (c.dp s).Keeps (c.dp (trace c.step s inp k)) := by
    intro k hk
    rcases Nat.lt_or_ge k 4 with h4 | h4
    · exact hkeeps k (by omega)
    · obtain ⟨j, rfl⟩ : ∃ j, k = 4 + j := ⟨k - 4, by omega⟩
      rw [trace_add]
      exact (hkeeps 4 (Nat.le_refl 4)).trans (hm j (by omega)).2
  have hkeepn : (c.dp s).Keeps (c.dp (trace c.step s inp (4 + m + 1))) := by
    refine (hkeepsm _ (Nat.le_refl _)).trans ?_
    rw [trace_succ, hd]
    exact Datapath.keeps_clock rfl rfl
  have hpcn : (c.dp (trace c.step s inp (4 + m + 1))).pc = (c.dp (trace c.step s inp 4)).pc :=
    congrArg Arch.pc hfetched.arch
  refine ⟨4 + m + 1, by omega, hdec.1, ?_, ?_, ?_, ?_⟩
  · intro k hk hdecode
    rcases Nat.lt_or_ge k 4 with h4 | h4
    · obtain rfl | rfl | rfl | rfl : k = 0 ∨ k = 1 ∨ k = 2 ∨ k = 3 := by omega
      · exact MatrixState.noConfusion (hs.1.symm.trans hdecode)
      · exact MatrixState.noConfusion (hs1.1.symm.trans hdecode)
      · exact MatrixState.noConfusion (hs2.1.symm.trans hdecode)
      · exact MatrixState.noConfusion (hs3.1.symm.trans hdecode)
    · obtain ⟨j, rfl⟩ : ∃ j, k = 4 + j := ⟨k - 4, by omega⟩
      rw [trace_add] at hdecode
      exact (hm j (by omega)).1 hdecode
  · intro k hk
    rcases Nat.lt_or_ge (4 + m) k with h4 | h4
    · obtain rfl : k = 4 + m + 1 := by omega
      exact hkeepn
    · exact hkeepsm k h4
  · rw [hpcn, hpc]
  · calc (c.dp (trace c.step s inp (4 + m + 1))).ir
        = (c.dp (trace c.step s inp 4)).mem
            (Pmmu.wordAddr (c.dp (trace c.step s inp 4)).pc) := hfetched.ir_eq
      _ = (c.dp s).mem (Pmmu.wordAddr (c.dp (trace c.step s inp (4 + m + 1))).pc) := by
          rw [hpcn, (hkeeps 4 (Nat.le_refl 4)).2]

end Core

/-! ## Each processor -/

theorem SeqState.clock_low (o : Outputs) (q : SeqState) :
    q.clock o false = { q with state := .reset, vectorState := .sync0 } := rfl

/-- The sequencer after an edge in Reset. -/
theorem SeqState.clock_reset {q : SeqState} {v : ResetState} (after : MatrixState)
    (hs : q.state = .reset) (hv : q.vectorState = v) :
    q.clock (resetOut after q.vectorState true) true =
      if v = .vector3 then { q with state := after, irState := .itLoad }
      else { q with vectorState := nextVector true v } := by
  subst hv
  unfold SeqState.clock resetOut
  by_cases h : q.vectorState = .vector3 <;> simp [h, Outputs.init, hs]

/-- A matrix without CSRs that leaves its sequencer and its signals to the common reset
sequence. -/
theorem SeqCore.cycle_reset {comb : SeqState → Bool → Word → BitVec 4 → Outputs}
    {after : MatrixState} (aluOp : InstructionState → Word → BitVec 6) {w : Wiring} {i : Input}
    {s : SeqCore} (hcomb : ∀ ir flags, comb s.seq i.resetI ir flags =
      { resetOut after s.seq.vectorState i.resetI with
        control := vectorSignals s.seq.vectorState (aluOp s.seq.irState ir) 0 }) :
    SeqCore.cycle comb w i s =
      { seq := s.seq.clock (resetOut after s.seq.vectorState i.resetI) i.resetI
        dp := s.dp.clock w (vectorSignals s.seq.vectorState (aluOp s.seq.irState s.dp.ir) 0) } := by
  simp only [SeqCore.cycle, hcomb]
  rfl

theorem vectorSignals_idle (v : ResetState) : vectorSignals v addOp 0 = vectorControl v := by
  cases v <;> rfl

namespace ControlMatrix
variable {w : Wiring} {i : Input} {s : SeqCore}

theorem step_reset (hs : s.seq.state = .reset) :
    stepRangerRisc w i s =
      { seq := s.seq.clock (resetOut .fetch s.seq.vectorState i.resetI) i.resetI
        dp := s.dp.clock w (vectorSignals s.seq.vectorState addOp 0) } := by
  apply SeqCore.cycle_reset fun _ _ => addOp
  intro ir flags
  simp only [comb, hs, vectorSignals_idle]
  rfl

theorem resets (w : Wiring) : (Core.ofSeq (stepRangerRisc w)).Resets w fun _ => True where
  low i s hi := by
    change (SeqCore.cycle comb w i s).seq.state = _ ∧ (SeqCore.cycle comb w i s).seq.vectorState = _
    simp [SeqCore.cycle, hi, SeqState.clock_low]
  vector i s v hv := by
    obtain ⟨hs, rfl⟩ := hv
    exact ⟨addOp, 0, by simp only [Core.ofSeq, step_reset hs]⟩
  next i s v hi hne hv := by
    obtain ⟨hs, hv⟩ := hv
    simp only [Core.ofSeq] at hs hv
    simp [Core.ofSeq, Core.AtVector, step_reset hs, hi, SeqState.clock_reset .fetch hs hv, hne, hs]
  quiet_vector0 _ _ _ := trivial
  quiet_step _ _ _ _ _ := trivial
  vector3 s inp hinp hv _ := by
    obtain ⟨hs, hv⟩ := hv
    simp only [Core.ofSeq] at hs hv
    left
    simp [Core.ofSeq, Core.AtFetch, step_reset hs, hinp 0, SeqState.clock_reset .fetch hs hv]

end ControlMatrix

namespace MicroCodeMatrix
variable {w : Wiring} {i : Input} {s : SeqCore}

theorem step_reset (hs : s.seq.state = .reset) :
    stepMicrocode w i s =
      { seq := s.seq.clock (resetOut .preFetch s.seq.vectorState i.resetI) i.resetI
        dp := s.dp.clock w (vectorSignals s.seq.vectorState (aluOp s.seq.irState s.dp.ir) 0) } := by
  apply SeqCore.cycle_reset aluOp
  intro ir flags
  simp only [comb, main, hs]
  cases s.seq.vectorState <;> rfl

theorem resets (w : Wiring) : (Core.ofSeq (stepMicrocode w)).Resets w fun _ => True where
  low i s hi := by
    change (SeqCore.cycle comb w i s).seq.state = _ ∧ (SeqCore.cycle comb w i s).seq.vectorState = _
    simp [SeqCore.cycle, hi, SeqState.clock_low]
  vector i s v hv := by
    obtain ⟨hs, rfl⟩ := hv
    exact ⟨aluOp s.seq.irState s.dp.ir, 0, by simp only [Core.ofSeq, step_reset hs]⟩
  next i s v hi hne hv := by
    obtain ⟨hs, hv⟩ := hv
    simp only [Core.ofSeq] at hs hv
    simp [Core.ofSeq, Core.AtVector, step_reset hs, hi, SeqState.clock_reset .preFetch hs hv, hne,
      hs]
  quiet_vector0 _ _ _ := trivial
  quiet_step _ _ _ _ _ := trivial
  vector3 s inp hinp hv _ := by
    obtain ⟨hs, hv⟩ := hv
    simp only [Core.ofSeq] at hs hv
    have hpre : (stepMicrocode w (inp 0) s).seq.state = .preFetch := by
      simp [step_reset hs, hinp 0, SeqState.clock_reset .preFetch hs hv]
    have hstep := step_preFetch (w := w) (hinp 1) hpre
    right
    refine ⟨hpre, ?_, aluOp (stepMicrocode w (inp 0) s).seq.irState
      (stepMicrocode w (inp 0) s).dp.ir, 0, ?_⟩
    · simp only [Core.ofSeq, Core.AtFetch, hstep]
    · simp only [Core.ofSeq, hstep]
      rfl

end MicroCodeMatrix

namespace ControlMatrixCSRs
variable {w : Wiring} {i : Input} {s : CsrCore}

theorem step_reset (hs : s.seq.state = .reset) :
    (stepCSRs w i s).seq =
      s.seq.clock (resetOut .fetch s.seq.vectorState i.resetI) i.resetI ∧
    (stepCSRs w i s).dp = s.dp.clock w (vectorSignals s.seq.vectorState addOp 0) := by
  have ho : outputs i s = quietly i s (resetOut .fetch s.seq.vectorState i.resetI) := by
    simp [comb, hs]
  rw [step_eq ho, vectorSignals_idle]
  simp [clock]
  exact ⟨rfl, rfl⟩

theorem resets (w : Wiring) : (Core.ofCsr (stepCSRs w)).Resets w fun _ => True where
  low i s hi := by
    change (stepCSRs w i s).seq.state = _ ∧ (stepCSRs w i s).seq.vectorState = _
    simp [stepCSRs, clock, hi, SeqState.clock_low]
  vector i s v hv := by
    obtain ⟨hs, rfl⟩ := hv
    exact ⟨addOp, 0, (step_reset hs).2⟩
  next i s v hi hne hv := by
    obtain ⟨hs, hv⟩ := hv
    simp only [Core.ofCsr] at hs hv
    simp [Core.ofCsr, Core.AtVector, (step_reset hs).1, hi, SeqState.clock_reset .fetch hs hv, hne,
      hs]
  quiet_vector0 _ _ _ := trivial
  quiet_step _ _ _ _ _ := trivial
  vector3 s inp hinp hv _ := by
    obtain ⟨hs, hv⟩ := hv
    simp only [Core.ofCsr] at hs hv
    left
    simp [Core.ofCsr, Core.AtFetch, (step_reset hs).1, hinp 0, SeqState.clock_reset .fetch hs hv]

end ControlMatrixCSRs

namespace SynthesisMatrix
variable {w : Wiring} {i : Input} {s : CsrCore}

theorem latchMip_mie (m : CsrMatrix) (r : CsrRegs) :
    (latchMip m r).mie = if inVector0 m then 0 else r.mie := by
  cases h0 : inVector0 m <;> cases h1 : m.irq.irqTriggered <;> cases h2 : clearsMip m <;>
    simp [latchMip, h0, h1, h2, CsrRegs.setMip]

theorem step_reset (hs : s.seq.state = .reset) :
    (stepSynthesis w i s).seq =
      s.seq.clock (resetOut .preFetch s.seq.vectorState i.resetI) i.resetI ∧
    (∃ op data, (stepSynthesis w i s).dp =
      s.dp.clock w (vectorSignals s.seq.vectorState op data)) ∧
    (stepSynthesis w i s).csrs.mie = if s.seq.vectorState = .vector0 then 0 else s.csrs.mie := by
  have ho : ∀ d : Datapath, outputsOn i s d = separately (s.matrix.sample i) d.ir d.rsa
      (resetOut .preFetch s.seq.vectorState i.resetI) := by
    intro d
    simp [comb, main, hs, separately]
  rw [step_eq (congrArg (·.control) (ho s.dp)) (ho _)]
  refine ⟨?_, ⟨_, _, rfl⟩, ?_⟩
  · simp only [CsrCore.seq, clock, CsrMatrix.sample_seq]
    rfl
  · refine (latchMip_mie _ _).trans ?_
    simp [inVector0, hs, CsrRegs.clock, separately, quiet, Outputs.noCsr]

/-- mie is cleared on the way through reset. -/
theorem resets (w : Wiring) :
    (Core.ofCsr (stepSynthesis w)).Resets w fun s : CsrCore => s.csrs.mie = 0 where
  low i s hi := by
    change (stepSynthesis w i s).seq.state = _ ∧ (stepSynthesis w i s).seq.vectorState = _
    simp [stepSynthesis, clock, hi, SeqState.clock_low]
  vector i s v hv := by
    obtain ⟨hs, rfl⟩ := hv
    exact (step_reset hs).2.1
  next i s v hi hne hv := by
    obtain ⟨hs, hv⟩ := hv
    simp only [Core.ofCsr] at hs hv
    simp [Core.ofCsr, Core.AtVector, (step_reset hs).1, hi, SeqState.clock_reset .preFetch hs hv,
      hne, hs]
  quiet_vector0 i s hv := by
    obtain ⟨hs, hv⟩ := hv
    exact ((step_reset hs).2.2).trans (if_pos hv)
  quiet_step i s v hv hq := by
    change (stepSynthesis w i s).csrs.mie = 0
    rw [(step_reset hv.1).2.2, hq, ite_self]
  vector3 s inp hinp hv hq := by
    obtain ⟨hs, hv⟩ := hv
    simp only [Core.ofCsr] at hs hv
    have hpre : (stepSynthesis w (inp 0) s).seq.state = .preFetch := by
      simp [(step_reset hs).1, hinp 0, SeqState.clock_reset .preFetch hs hv]
    have hmie : (stepSynthesis w (inp 0) s).csrs.mie = 0 := by
      rw [(step_reset hs).2.2, hq, ite_self]
    have hdis : (stepSynthesis w (inp 0) s).csrs.disabled := by
      rw [CsrRegs.disabled, hmie]
      simp
    obtain ⟨hm, op, data, hd⟩ := step_preFetch (w := w) (hinp 1) hpre (accepts_disabled hdis)
    right
    refine ⟨hpre, ?_, op, data, hd⟩
    change (stepSynthesis w (inp 1) (stepSynthesis w (inp 0) s)).matrix.seq.state = .fetch
    rw [hm]
    rfl

end SynthesisMatrix

/-! ## The reset vector is reached -/

/-- The input of `pc_mux` that `pcSrcResetAdr` selects: `modules/RangerRisc.sv` has the memory
output at another input. -/
def CoreName.resetAdr (name : CoreName) (storage : Word) : Word :=
  if name = .rangerRisc then 0 else storage

namespace CoreName
variable (name : CoreName) (undef resetVector : Word)

theorem selectsResetAdr :
    (name.wiring undef resetVector).SelectsResetAdr name.resetAdr := by
  cases name <;> exact fun _ _ _ _ => rfl

theorem resets : ∃ quiet,
    (name.core undef resetVector).Resets (name.wiring undef resetVector) quiet := by
  cases name with
  | rangerRisc => exact ⟨_, ControlMatrix.resets _⟩
  | rangerRiscCSRs => exact ⟨_, ControlMatrixCSRs.resets _⟩
  | rangerRiscProcessor => exact ⟨_, SynthesisMatrix.resets _⟩
  | rangerRiscMicrocode => exact ⟨_, MicroCodeMatrix.resets _⟩

end CoreName

/-- What reset must do in the run from `s` whose first `k` edges see it, the first Decode
coming after `n` edges. -/
structure Core.ResetRun (c : Core) (s : c.State) (inp : ℕ → Input) (k n : ℕ) : Prop where
  sync0 : ∀ j, 0 < j → j ≤ k → c.AtVector .sync0 (trace c.step s inp j)
  vector0 : c.AtVector .vector0 (trace c.step s inp (k + 1))
  vector1 : c.AtVector .vector1 (trace c.step s inp (k + 2))
  vector2 : c.AtVector .vector2 (trace c.step s inp (k + 3))
  vector3 : c.AtVector .vector3 (trace c.step s inp (k + 4))
  later : k + 4 < n
  decode : (c.seq (trace c.step s inp n)).state = .decode
  first : ∀ j, 0 < j → j < n → (c.seq (trace c.step s inp j)).state ≠ .decode
  keeps : ∀ j, 0 < j → j ≤ n → (c.dp (trace c.step s inp 1)).Keeps (c.dp (trace c.step s inp j))
  ir_eq : (c.dp (trace c.step s inp n)).ir =
    (c.dp (trace c.step s inp n)).mem (Pmmu.wordAddr (c.dp (trace c.step s inp n)).pc)

/-- The reset sequence ends with pc at what is stored at the reset vector. -/
def Core.ReachesVector (c : Core) (w : Wiring) (s : c.State) (inp : ℕ → Input) (k : ℕ) : Prop :=
  ∃ n, c.ResetRun s inp k n ∧ (c.dp (trace c.step s inp n)).pc =
    (c.dp (trace c.step s inp n)).mem (Pmmu.wordAddr w.resetVector)

section ResetRun
variable {c : Core} {w : Wiring} {s : c.State} {inp : ℕ → Input} {k : ℕ}

theorem Core.ResetRun.unique {m n : ℕ} (hm : c.ResetRun s inp k m) (hn : c.ResetRun s inp k n) :
    m = n := by
  rcases Nat.lt_trichotomy m n with h | h | h
  · exact absurd hm.decode (hn.first m (by have := hm.later; omega) h)
  · exact h
  · exact absurd hn.decode (hm.first n (by have := hn.later; omega) h)

/-- While reset is low the processor stays in Sync0 and writes nothing after the first edge. -/
theorem Core.Resets.sync0_run {quiet : c.State → Prop} (h : c.Resets w quiet)
    (hlow : ∀ j < k, (inp j).resetI = false) :
    ∀ j, 0 < j → j ≤ k → c.AtVector .sync0 (trace c.step s inp j) ∧
      (c.dp (trace c.step s inp 1)).Keeps (c.dp (trace c.step s inp j)) := by
  intro j
  induction j with
  | zero => exact fun h0 => absurd h0 (Nat.lt_irrefl 0)
  | succ j ih =>
    intro _ hj
    refine ⟨h.low _ _ (hlow j hj), ?_⟩
    rcases Nat.eq_zero_or_pos j with rfl | hpos
    · exact Datapath.Keeps.refl _
    · obtain ⟨hs, hkeep⟩ := ih hpos (by omega)
      obtain ⟨op, data, hd⟩ := h.vector (inp j) _ _ hs
      refine hkeep.trans ?_
      rw [trace_succ, hd]
      exact vector_keeps _ _ op data

/-- **Reset, from any state.** -/
theorem Core.Resets.reset_run {quiet : c.State → Prop} (h : c.Resets w quiet)
    (hseq : c.Sequences w) {f : Word → Word} (hf : w.SelectsResetAdr f) (hk : 0 < k)
    (hlow : ∀ j < k, (inp j).resetI = false) (hhigh : ∀ j, k ≤ j → (inp j).resetI = true) :
    ∃ n, c.ResetRun s inp k n ∧ (c.dp (trace c.step s inp n)).pc =
      f ((c.dp (trace c.step s inp 1)).mem (Pmmu.wordAddr w.resetVector)) := by
  have hsync := h.sync0_run (s := s) hlow
  obtain ⟨hs, hkeepk⟩ := hsync k hk (Nat.le_refl k)
  have hinp : High fun j => inp (k + j) := fun j => hhigh _ (Nat.le_add_right k j)
  obtain ⟨⟨hs1, hs2, hs3, hs4⟩, -⟩ := h.to_vector3 hf hinp hs
  obtain ⟨n, hlt, hdec, hfirst, hkeep, hpc, hir⟩ := h.to_decode hseq hf hinp hs
  rw [← trace_add] at hs1 hs2 hs3 hs4 hdec hpc hir
  have hkeeps : ∀ j, 0 < j → j ≤ k + n →
      (c.dp (trace c.step s inp 1)).Keeps (c.dp (trace c.step s inp j)) := by
    intro j hj hjn
    rcases Nat.lt_or_ge k j with hkj | hjk
    · obtain ⟨i, rfl⟩ : ∃ i, j = k + i := ⟨j - k, by omega⟩
      rw [trace_add]
      exact hkeepk.trans (hkeep i (by omega))
    · exact (hsync j hj hjk).2
  refine ⟨k + n, ⟨fun j hj hjk => (hsync j hj hjk).1, hs1, hs2, hs3, hs4, by omega, hdec, ?_,
    hkeeps, ?_⟩, ?_⟩
  · intro j hj hjn
    rcases Nat.lt_or_ge k j with hkj | hjk
    · obtain ⟨i, rfl⟩ : ∃ i, j = k + i := ⟨j - k, by omega⟩
      rw [trace_add]
      exact hfirst i (by omega)
    · rw [(hsync j hj hjk).1.1]
      exact MatrixState.noConfusion
  · rw [hir, (hkeeps (k + n) (by omega) (Nat.le_refl _)).2, ← hkeepk.2]
  · rw [hpc, hkeepk.2]

end ResetRun

section Reaches
variable {undef resetVector : Word} {inp : ℕ → Input} {k : ℕ}

theorem CoreName.reachesVector_iff (name : CoreName) {s : (name.core undef resetVector).State}
    (hk : 0 < k) (hlow : ∀ j < k, (inp j).resetI = false)
    (hhigh : ∀ j, k ≤ j → (inp j).resetI = true) :
    (name.core undef resetVector).ReachesVector (name.wiring undef resetVector) s inp k ↔
      name.resetAdr (((name.core undef resetVector).dp
          ((name.core undef resetVector).step (inp 0) s)).mem
            (Pmmu.wordAddr (name.wiring undef resetVector).resetVector)) =
        ((name.core undef resetVector).dp ((name.core undef resetVector).step (inp 0) s)).mem
          (Pmmu.wordAddr (name.wiring undef resetVector).resetVector) := by
  obtain ⟨quiet, hresets⟩ := name.resets undef resetVector
  obtain ⟨n, hrun, hpc⟩ := hresets.reset_run (s := s) (name.sequences undef resetVector)
    (name.selectsResetAdr undef resetVector) hk hlow hhigh
  have hmem := (hrun.keeps n (by have := hrun.later; omega) (Nat.le_refl n)).2
  constructor
  · rintro ⟨m, hrun', hpc'⟩
    obtain rfl := hrun.unique hrun'
    rw [hpc, hmem] at hpc'
    exact hpc'
  · intro h
    refine ⟨n, hrun, ?_⟩
    rw [hpc, hmem]
    exact h

/-- **Reset reaches the reset vector** on every processor but `modules/RangerRisc.sv`. That one
starts at 0 instead, which is right when 0 is what the reset vector holds. -/
theorem reset_reaches_vector (name : CoreName) {s : (name.core undef resetVector).State}
    (hk : 0 < k) (hlow : ∀ j < k, (inp j).resetI = false)
    (hhigh : ∀ j, k ≤ j → (inp j).resetI = true) :
    (name.core undef resetVector).ReachesVector (name.wiring undef resetVector) s inp k ↔
      (name = .rangerRisc →
        ((name.core undef resetVector).dp ((name.core undef resetVector).step (inp 0) s)).mem
          (Pmmu.wordAddr (name.wiring undef resetVector).resetVector) = 0) := by
  rw [name.reachesVector_iff hk hlow hhigh]
  by_cases hname : name = .rangerRisc
  · rw [CoreName.resetAdr, if_pos hname]
    exact ⟨fun h _ => h.symm, fun h => (h hname).symm⟩
  · rw [CoreName.resetAdr, if_neg hname]
    exact ⟨fun _ h => absurd h hname, fun _ => rfl⟩

/-- Reset is low for the first edge alone. -/
def resetOnce (n : ℕ) : Input := ⟨decide (0 < n), false⟩

theorem reset_reaches_vector_nops :
    (CoreName.rangerRiscMicrocode.core 0 0).ReachesVector (Wiring.memoryMapped 0 0) nops
      resetOnce 1 := by
  have hlow : ∀ j < 1, (resetOnce j).resetI = false := by decide
  have hhigh : ∀ j, 1 ≤ j → (resetOnce j).resetI = true := fun j hj => decide_eq_true hj
  exact (reset_reaches_vector .rangerRiscMicrocode Nat.one_pos hlow hhigh).mpr
    CoreName.noConfusion

/-- In `modules/RangerRisc.sv`, with 0x13 at the reset vector, pc is 0. -/
theorem reset_misses_vector :
    ¬ ∀ (name : CoreName) (undef resetVector : Word) (s : (name.core undef resetVector).State)
      (inp : ℕ → Input) (k : ℕ), 0 < k → (∀ j < k, (inp j).resetI = false) →
      (∀ j, k ≤ j → (inp j).resetI = true) →
      (name.core undef resetVector).ReachesVector (name.wiring undef resetVector) s inp k := by
  intro h
  have hlow : ∀ j < 1, (resetOnce j).resetI = false := by decide
  have hhigh : ∀ j, 1 ≤ j → (resetOnce j).resetI = true := fun j hj => decide_eq_true hj
  have hreach := h .rangerRisc 0 0 nops resetOnce 1 Nat.one_pos hlow hhigh
  have hnop : (0 : Word) = 0x00000013 :=
    (CoreName.reachesVector_iff .rangerRisc Nat.one_pos hlow hhigh).mp hreach
  exact absurd hnop (by decide)

end Reaches

end RangerRisc
