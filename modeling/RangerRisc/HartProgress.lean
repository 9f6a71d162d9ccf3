import RangerRisc.HartRuns

/-! How long `modules/RangerRiscCSRs.sv` takes to get back to a boundary, from any state at all. -/

namespace RangerRisc

open Clocked

namespace ControlMatrixCSRs

instance : DecidablePred Unknown := fun _ => inferInstanceAs (Decidable (_ ∧ _))

/-- How many edges are left after the next one, at most. -/
def executeRank (ir : Word) : InstructionState → ℕ
  | .preFetch | .irq2 => 6
  | .itCsr => if action ir = .unknown then 6 else 1
  | .itLoad => 3
  | .itLdMemAcc | .stStore => 2
  | .rType | .itAlu | .itJalr | .jtJal | .bType | .itLdMemMdr | .stMemAcc => 1
  | .itMret | .irq0 => 1
  | .stMemRrd | .btCmpl | .utCmpl | .utAuiCmpl | .irUnknown => 4
  | _ => 0

def vectorRank : ResetState → ℕ
  | .sync0 => 3
  | .vector0 => 2
  | .vector1 => 1
  | .vector2 => 0
  | .vector3 => 6

def rank (s : CsrCore) : ℕ :=
  match s.seq.state with
  | .execute => executeRank s.dp.ir s.seq.irState
  | .fetch => 5
  | .decode => if Unknown s.dp.ir then 7 else 4
  | .reset => vectorRank s.seq.vectorState
  | _ => 4

theorem rank_le (s : CsrCore) : rank s ≤ 7 := by
  unfold rank executeRank vectorRank
  split
  · split <;> try split
    all_goals decide
  · decide
  · split <;> decide
  · split <;> decide
  · decide

theorem rank_reset {s : CsrCore} (hs : s.seq.state = .reset) :
    rank s = vectorRank s.seq.vectorState := by
  rw [rank, hs]

/-- The states of an instruction come in the order of their ranks. -/
theorem executeRank_next {ir : Word} {st st' : InstructionState} (hsh : shared st)
    (h : executeNext st ir = .next st') : executeRank ir st' < executeRank ir st := by
  cases st with
  | rType | itAlu | itJalr | jtJal | stStore =>
    simp only [executeNext] at h
    split_ifs at h <;> cases h <;> simp [executeRank]
  | itLoad | itLdMemAcc | itLdMemMdr | stMemAcc | bType =>
    cases h
    simp [executeRank]
  | rtCmpl | itAluCmpl | itLdMemCmpl | itJalrRtr | stMemWrt | btBranch | jtJalRtr | uType
  | uTypeAui => exact Succ.noConfusion h
  | _ => exact Bool.noConfusion hsh

theorem executeRank_decodeNext {ir : Word} (h : ¬ Unknown ir) :
    executeRank ir (decodeNext (csrSystem ir) ir) ≤ 3 := by
  by_cases hcsr : decodeNext (csrSystem ir) ir = .itCsr
  · rw [hcsr, executeRank, if_neg fun hact => h ⟨hcsr, hact⟩]
    decide
  · unfold decodeNext csrSystem at hcsr ⊢
    cases ho : irOpcode ir with
    | iTypeE =>
      rw [ho] at hcsr
      dsimp only at hcsr ⊢
      split_ifs at hcsr ⊢ <;> first | exact absurd rfl hcsr | simp [executeRank]
    | _ => simp [executeRank]

section Progress
variable {undef resetVector : Word} {s : CsrCore} {i : Input}

/-- Every edge in Execute gets to a boundary, hangs or lowers the rank. -/
theorem rank_execute {w : Wiring} (hi : i.resetI = true) (hs : s.seq.state = .execute) :
    (AtBoundary (stepCSRs w i s) ∨ Hangs (stepCSRs w i s)) ∨ rank (stepCSRs w i s) < rank s := by
  have hrank : rank s = executeRank s.dp.ir s.seq.irState := by rw [rank, hs]
  have hshared : shared s.seq.irState →
      (AtBoundary (stepCSRs w i s) ∨ Hangs (stepCSRs w i s)) ∨ rank (stepCSRs w i s) < rank s := by
    intro hsh
    cases hn : executeNext s.seq.irState s.dp.ir with
    | next st' =>
      right
      rw [hrank, step_next hi hs hsh hn]
      change executeRank (s.dp.exec w s.seq.irState).ir st' < _
      rw [exec_ir]
      exact executeRank_next hsh hn
    | done =>
      rw [step_done hi hs hsh hn]
      exact .inl (.inl (.inl ⟨rfl, .inl rfl⟩))
  cases hp : s.seq.irState with
  | preFetch =>
    right
    cases ha : accepts s.matrix with
    | false =>
      rw [hrank, hp, step_preFetch hi hs hp ha]
      exact (by decide : 5 < 6)
    | true =>
      rw [hrank, hp, step_accept hi hs hp ha]
      exact (by decide : 1 < 6)
  | irq0 =>
    right
    rw [hrank, hp, step_irq0 hi hs hp]
    exact (by decide : 0 < 1)
  | irq1 =>
    rw [step_irq1 hi hs hp]
    exact .inl (.inl (.inl ⟨rfl, .inr rfl⟩))
  | irq2 =>
    right
    rw [hrank, hp, step_irq2 hi hs hp]
    exact (by decide : 5 < 6)
  | itMret =>
    right
    rw [hrank, hp, step_itMret hi hs hp]
    exact (by decide : 0 < 1)
  | itMretClr =>
    rw [step_itMretClr hi hs hp]
    exact .inl (.inl (.inl ⟨rfl, .inl rfl⟩))
  | itCsr =>
    cases ha : action s.dp.ir with
    | write =>
      rw [step_itCsr_write hi hs hp ha]
      exact .inl (.inl (.inl ⟨rfl, .inl rfl⟩))
    | skip =>
      rw [step_itCsr_skip hi hs hp ha]
      exact .inl (.inl (.inl ⟨rfl, .inl rfl⟩))
    | transfer =>
      right
      rw [hrank, hp, step_itCsr_transfer hi hs hp ha, executeRank, ha]
      exact (by decide : 0 < 1)
    | unknown =>
      right
      rw [hrank, hp, step_itCsr_unknown hi hs hp ha, executeRank, ha]
      exact (by decide : 5 < 6)
  | itCsrLd =>
    rw [step_itCsrLd hi hs hp]
    exact .inl (.inl (.inl ⟨rfl, .inl rfl⟩))
  | itEbreak =>
    rw [step_wait hi hs (.inl hp), hp]
    exact .inl (.inr (.waits rfl (.inl rfl)))
  | itECall =>
    rw [step_wait hi hs (.inr hp), hp]
    exact .inl (.inr (.waits rfl (.inr rfl)))
  | stMemRrd | btCmpl | utCmpl | utAuiCmpl | irUnknown =>
    right
    rw [hrank, hp, step_stray hi hs (by rw [hp]; rfl)]
    exact (by decide : 3 < 4)
  | _ => exact hshared (by rw [hp]; rfl)

/-- So does every edge. -/
theorem rank_step {w : Wiring} (hi : i.resetI = true) :
    (AtBoundary (stepCSRs w i s) ∨ Hangs (stepCSRs w i s)) ∨ rank (stepCSRs w i s) < rank s := by
  cases hs : s.seq.state with
  | execute => exact rank_execute hi hs
  | fetch =>
    rw [step_fetch hi hs]
    by_cases hu : Unknown s.dp.storage
    · exact .inl (.inr (.decode rfl hu rfl))
    · right
      rw [rank, rank, hs]
      change (if Unknown s.dp.storage then 7 else 4) < 5
      rw [if_neg hu]
      decide
  | decode =>
    right
    rw [step_decode hi hs, rank, rank, hs]
    change executeRank (s.dp.clock w decodeControl).ir _ < if Unknown s.dp.ir then 7 else 4
    rw [Datapath.clock_ir rfl]
    split
    · next hu =>
      rw [hu.1]
      change (if action s.dp.ir = .unknown then 6 else 1) < 7
      rw [if_pos hu.2]
      decide
    · next hu => exact Nat.lt_succ_of_le (executeRank_decodeNext hu)
  | reset =>
    have hseq := (step_reset (w := w) (i := i) hs).1
    rw [hi] at hseq
    by_cases hv : s.seq.vectorState = .vector3
    · right
      rw [SeqState.clock_reset .fetch hs hv, if_pos rfl] at hseq
      rw [rank_reset hs, hv, rank, hseq]
      exact (by decide : 5 < 6)
    · rw [SeqState.clock_reset .fetch hs rfl, if_neg hv] at hseq
      have hs' : (stepCSRs w i s).seq.state = .reset := by
        rw [hseq]
        exact hs
      rw [rank_reset hs, rank_reset hs', hseq]
      cases hv' : s.seq.vectorState with
      | vector3 => exact absurd hv' hv
      | vector2 => exact .inl (.inl (.inr ⟨hs', by rw [hseq, hv']; rfl⟩))
      | sync0 => exact .inr (by decide : 2 < 3)
      | vector0 => exact .inr (by decide : 1 < 2)
      | vector1 => exact .inr (by decide : 0 < 1)
  | preFetch | irq0 | irq1 | irq2 | halt =>
    obtain ⟨hs', hv'⟩ : (stepCSRs w i s).seq.state = .reset ∧
        (stepCSRs w i s).seq.vectorState = s.seq.vectorState := by
      simp [stepCSRs, comb, hs, clock, hi, SeqState.clock, quiet, Outputs.noCsr, Outputs.init]
    have hrank : rank s = 4 := by rw [rank, hs]
    rw [rank_reset hs', hv', hrank]
    cases hv : s.seq.vectorState with
    | vector3 => exact .inl (.inl (.inr ⟨hs', hv'.trans hv⟩))
    | _ => exact .inr (by decide)

/-- The rank bounds the way to a boundary. -/
theorem boundary_or_hangs_within {inp : ℕ → Input} (hinp : High inp) : ∃ n ≤ rank s,
    AtBoundary (trace (stepWired undef resetVector) s inp (n + 1)) ∨
      Hangs (trace (stepWired undef resetVector) s inp (n + 1)) :=
  exists_of_rank (p := fun s => AtBoundary s ∨ Hangs s) fun k => rank_step (hinp k)

/-- **Liveness.** From any state, with reset inactive, the processor comes to a boundary within
eight edges, or hangs from then on. -/
theorem boundary_or_hangs {inp : ℕ → Input} (hinp : High inp) :
    ∃ n, 0 < n ∧ n ≤ 8 ∧ (AtBoundary (trace (stepWired undef resetVector) s inp n) ∨
      ∀ m, n ≤ m → Hangs (trace (stepWired undef resetVector) s inp m)) := by
  obtain ⟨n, hn, h⟩ := @boundary_or_hangs_within undef resetVector s inp hinp
  have hle := rank_le s
  refine ⟨n + 1, Nat.succ_pos n, by omega, h.imp_right fun hh m hm => ?_⟩
  obtain ⟨j, rfl⟩ : ∃ j, m = n + 1 + j := ⟨m - (n + 1), by omega⟩
  rw [trace_add]
  exact hh.run (hinp.shift (n + 1)) j

/-- EBREAK, from a stray state. -/
theorem boundary_or_hangs_ebreak :
    ∃ n, 0 < n ∧ n ≤ 8 ∧ (AtBoundary (trace (stepWired 0 0)
        { resting 0x00100073 ⟨false, false, false⟩ with
          matrix := { (resting 0x00100073 ⟨false, false, false⟩).matrix with
            seq := ⟨.halt, .sync0, .irUnknown⟩ } } (fun _ => ⟨true, true⟩) n) ∨
      ∀ m, n ≤ m → Hangs (trace (stepWired 0 0)
        { resting 0x00100073 ⟨false, false, false⟩ with
          matrix := { (resting 0x00100073 ⟨false, false, false⟩).matrix with
            seq := ⟨.halt, .sync0, .irUnknown⟩ } } (fun _ => ⟨true, true⟩) m)) :=
  boundary_or_hangs fun _ => rfl

/-- From a boundary to the next it takes seven edges at most. -/
theorem firstReturn_le {inp : ℕ → Input} (hinp : High inp) (hr : Rests s) {d : ℕ}
    (hd : FirstReturn (stepWired undef resetVector) AtBoundary s inp d) : d ≤ 7 := by
  obtain ⟨n, hn, h⟩ := @boundary_or_hangs_within undef resetVector s inp hinp
  have hrank : rank s = 6 := by
    obtain ⟨hs, hp | hp⟩ | ⟨hs, hv⟩ := hr.boundary
    · rw [rank, hs, hp]
      rfl
    · rw [rank, hs, hp]
      rfl
    · rw [rank_reset hs, hv]
      rfl
  rcases Nat.lt_or_ge d (n + 2) with hlt | hge
  · omega
  · rcases h with hb | hh
    · exact absurd hb (hd.first (n + 1) (Nat.succ_pos n) (by omega))
    · obtain ⟨j, rfl⟩ : ∃ j, d = n + 1 + j := ⟨d - (n + 1), by omega⟩
      have hit := hd.hit
      rw [trace_add] at hit
      exact absurd hit (hh.run (hinp.shift (n + 1)) j).not_atBoundary

end Progress

end ControlMatrixCSRs

end RangerRisc
