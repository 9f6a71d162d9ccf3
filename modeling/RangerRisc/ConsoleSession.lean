import RangerRisc.Programs
import RangerRisc.Simulation

/-! What a session at the console comes to. Each `rn fetch` runs the processor to its next Fetch. -/

namespace RangerRisc

open Clocked

namespace ControlMatrixCSRs

/-! ## Coming to Fetch -/

def AtFetch (s : CsrCore) : Prop := s.seq.state = .fetch

instance : DecidablePred AtFetch := fun _ => inferInstanceAs (Decidable (_ = _))

/-- EBREAK and ECALL wait for a debugger. -/
def Waits (s : CsrCore) : Prop :=
  s.seq.state = .execute ∧ (s.seq.irState = .itEbreak ∨ s.seq.irState = .itECall)

section Fetch
variable {undef resetVector : Word} {s : CsrCore} {inp : ℕ → Input}

theorem Waits.not_atFetch (h : Waits s) : ¬ AtFetch s := fun hf =>
  MatrixState.noConfusion (h.1.symm.trans hf)

theorem Waits.run (h : Waits s) (hinp : High inp) (n : ℕ) :
    Waits (trace (stepWired undef resetVector) s inp n) := by
  apply trace_invariant (p := Waits) h
  intro k hk
  have hnext : trace (stepWired undef resetVector) s inp (k + 1) = _ := step_wait (hinp k) hk.1 hk.2
  rw [hnext]
  exact ⟨rfl, hk.2⟩

/-- Vector3 readies the first Fetch. -/
theorem vector3_fetch {w : Wiring} {i : Input} (hi : i.resetI = true) (hs : s.seq.state = .reset)
    (hv : s.seq.vectorState = .vector3) :
    AtFetch (stepCSRs w i s) ∧ Ready s.dp.arch (stepCSRs w i s).dp := by
  obtain ⟨hseq, hdp⟩ := step_reset (w := w) (i := i) hs
  constructor
  · rw [hi, SeqState.clock_reset .fetch hs hv, if_pos rfl] at hseq
    exact congrArg SeqState.state hseq
  · rw [hdp, hv]
    exact vector3_ready s.dp addOp 0

/-- IRQ0, IRQ1 and IRQ2 come before the Fetch of a handler. -/
theorem boundary_fetch (hinp : High inp) (h : AtBoundary s) :
    ∃ n, 0 < n ∧ n ≤ 4 ∧ AtFetch (trace (stepWired undef resetVector) s inp n) := by
  obtain ⟨hs, hp | hp⟩ | ⟨hs, hv⟩ := h
  · cases ha : accepts s.matrix with
    | false =>
      have h1 : trace (stepWired undef resetVector) s inp 1 = _ := step_preFetch (hinp 0) hs hp ha
      refine ⟨1, Nat.one_pos, by decide, ?_⟩
      rw [h1]
      rfl
    | true =>
      have h1 : trace (stepWired undef resetVector) s inp 1 = _ := step_accept (hinp 0) hs hp ha
      have h2 : trace (stepWired undef resetVector) s inp 2 = _ :=
        step_irq0 (hinp 1) (by rw [h1]; rfl) (by rw [h1]; rfl)
      have h3 : trace (stepWired undef resetVector) s inp 3 = _ :=
        step_irq1 (hinp 2) (by rw [h2]; rfl) (by rw [h2]; rfl)
      have h4 : trace (stepWired undef resetVector) s inp 4 = _ :=
        step_irq2 (hinp 3) (by rw [h3]; rfl) (by rw [h3]; rfl)
      refine ⟨4, by decide, by decide, ?_⟩
      rw [h4]
      rfl
  · have h1 : trace (stepWired undef resetVector) s inp 1 = _ := step_irq2 (hinp 0) hs hp
    refine ⟨1, Nat.one_pos, by decide, ?_⟩
    rw [h1]
    rfl
  · exact ⟨1, Nat.one_pos, by decide, (vector3_fetch (hinp 0) hs hv).1⟩

/-- A word that names no operation is fetched again and again. -/
theorem hangs_fetch (hinp : High inp) (h : Hangs s) :
    Waits s ∨ ∃ n ≤ 2, AtFetch (trace (stepWired undef resetVector) s inp n) := by
  cases h with
  | waits hs hp => exact .inl ⟨hs, hp⟩
  | fetch hs _ => exact .inr ⟨0, by decide, hs⟩
  | itCsr hs hp hu hir =>
    have hu0 : action s.dp.ir = .unknown := by
      rw [hir]
      exact hu.2
    have h1 : trace (stepWired undef resetVector) s inp 1 = _ :=
      step_itCsr_unknown (hinp 0) hs hp hu0
    refine .inr ⟨1, by decide, ?_⟩
    rw [h1]
    rfl
  | decode hs hu hir =>
    have h1 : trace (stepWired undef resetVector) s inp 1 = _ := step_decode (hinp 0) hs
    have hp : (trace (stepWired undef resetVector) s inp 1).seq.irState = .itCsr := by
      rw [h1]
      change decodeNext (csrSystem s.dp.ir) s.dp.ir = _
      rw [hir]
      exact hu.1
    have hu1 : action (trace (stepWired undef resetVector) s inp 1).dp.ir = .unknown := by
      rw [h1]
      change action (s.dp.clock _ decodeControl).ir = _
      rw [Datapath.clock_ir rfl, hir]
      exact hu.2
    have h2 : trace (stepWired undef resetVector) s inp 2 = _ :=
      step_itCsr_unknown (hinp 1) (by rw [h1]; rfl) hp hu1
    refine .inr ⟨2, by decide, ?_⟩
    rw [h2]
    rfl

/-- From any state the processor comes to Fetch within twelve edges, or to wait. -/
theorem fetch_or_waits (hinp : High inp) : ∃ n, 0 < n ∧ n ≤ 12 ∧
    (AtFetch (trace (stepWired undef resetVector) s inp n) ∨
      Waits (trace (stepWired undef resetVector) s inp n)) := by
  obtain ⟨n, hn, h⟩ := @boundary_or_hangs_within undef resetVector s inp hinp
  have hrank := rank_le s
  rcases h with hb | hh
  · obtain ⟨m, -, hm, hf⟩ :=
      @boundary_fetch undef resetVector _ _ (hinp.shift (n + 1)) hb
    rw [← trace_add] at hf
    exact ⟨n + 1 + m, by omega, by omega, .inl hf⟩
  · rcases @hangs_fetch undef resetVector _ _ (hinp.shift (n + 1)) hh with
      hw | ⟨m, hm, hf⟩
    · exact ⟨n + 1, by omega, by omega, .inr hw⟩
    · rw [← trace_add] at hf
      exact ⟨n + 1 + m, by omega, by omega, .inl hf⟩

/-- It is back in Fetch within twelve edges, or never again. -/
theorem fetch_or_waits_always (hinp : High inp) :
    (∃ d ≤ 12, FirstReturn (stepWired undef resetVector) AtFetch s inp d) ∨
      (∀ d, ¬ FirstReturn (stepWired undef resetVector) AtFetch s inp d) ∧
        ∀ m, 12 ≤ m → Waits (trace (stepWired undef resetVector) s inp m) := by
  obtain ⟨n, hpos, hn, hf | hw⟩ := @fetch_or_waits undef resetVector s inp hinp
  · obtain ⟨d, hd, hret⟩ := FirstReturn.exists_le hpos hf
    exact .inl ⟨d, by omega, hret⟩
  · have hafter : ∀ m, n ≤ m → Waits (trace (stepWired undef resetVector) s inp m) := by
      intro m hm
      obtain ⟨j, rfl⟩ : ∃ j, m = n + j := ⟨m - n, by omega⟩
      rw [trace_add]
      exact hw.run (hinp.shift n) j
    by_cases hex : ∃ d, FirstReturn (stepWired undef resetVector) AtFetch s inp d
    · obtain ⟨d, hd⟩ := hex
      refine .inl ⟨d, ?_, hd⟩
      by_contra hlt
      exact (hafter d (by omega)).not_atFetch hd.hit
    · exact .inr ⟨not_exists.mp hex, fun m hm => hafter m (by omega)⟩

end Fetch

end ControlMatrixCSRs

namespace Console

open ControlMatrixCSRs

/-! ## The run to the next Fetch -/

section RunToFetch
variable {undef resetVector : Word} {mdl : Model}

theorem held_high : High (held true) := fun _ => rfl

theorem Settled.idle {level : Bool} (h : Settled level mdl) : Settled level (idle mdl) :=
  ⟨h.clk, fun _ => rfl, h.reset, h.time⟩

/-- A search for the next Fetch that starts in `s` ends in `t`. -/
def Finds (undef resetVector : Word) (s t : CsrCore) : Prop :=
  (∃ d, FirstReturn (stepWired undef resetVector) AtFetch s (held true) d ∧
      t = trace (stepWired undef resetVector) s (held true) d) ∨
    (∀ d, ¬ FirstReturn (stepWired undef resetVector) AtFetch s (held true) d) ∧ Waits t

theorem Finds.afterEdge {s t : CsrCore}
    (hleft : ¬ AtFetch (trace (stepWired undef resetVector) s (held true) 1))
    (h : Finds undef resetVector (trace (stepWired undef resetVector) s (held true) 1) t) :
    Finds undef resetVector s t := by
  rcases h with ⟨d, hret, rfl⟩ | ⟨hnever, hwaits⟩
  · exact .inl ⟨d + 1, hret.afterEdge hleft,
      (trace_succ' (stepWired undef resetVector) s (held true) d).symm⟩
  · refine .inr ⟨fun d hret => ?_, hwaits⟩
    have hpos := hret.pos
    obtain ⟨e, rfl⟩ : ∃ e, d = 1 + e := ⟨d - 1, by omega⟩
    rcases Nat.eq_zero_or_pos e with rfl | he
    · exact hleft hret.hit
    · exact hnever e (hret.rest he)

/-- The search, from any other state. -/
theorem Settled.runUntil_fetch (h : Settled true mdl) (hne : ¬ AtFetch mdl.core) {mdl' : Model}
    (hrun : Model.runUntil (.rangerRiscCSRs undef resetVector) .fetch maxSteps mdl = mdl') :
    Settled true mdl' ∧ Finds undef resetVector mdl.core mdl'.core := by
  have hsteps : maxSteps = 100000 := rfl
  subst hrun
  rcases @fetch_or_waits_always undef resetVector mdl.core _ held_high with
    ⟨d, hd, hret⟩ | ⟨hnever, hwaits⟩
  · have hrest := rest_le mdl
    have hfirst : ∀ k < d, (trace (stepWired undef resetVector) mdl.core (held true) k).seq.state ≠
        .fetch := by
      intro k hk
      rcases Nat.eq_zero_or_pos k with rfl | hpos
      · exact hne
      · exact hret.first k hpos hk
    obtain ⟨hset, hcore⟩ := h.runUntil (n := maxSteps) hfirst hret.hit (fun _ => by omega)
    exact ⟨hset, .inl ⟨d, hret, hcore⟩⟩
  · have hno : ∀ k, (trace (stepWired undef resetVector) mdl.core (held true) k).seq.state ≠
        .fetch := by
      intro k hk
      rcases Nat.eq_zero_or_pos k with rfl | hpos
      · exact hne hk
      · obtain ⟨d, -, hret⟩ := FirstReturn.exists_le (p := AtFetch) hpos hk
        exact hnever d hret
    obtain ⟨hset, e, hcore, he⟩ := h.runUntil_never hno maxSteps
    refine ⟨hset, .inr ⟨hnever, ?_⟩⟩
    rw [hcore]
    exact hwaits e (by omega)

/-- In Fetch the first loop goes on to Decode. -/
theorem Settled.runUntil_decode (h : Settled true mdl) (hf : AtFetch mdl.core) {mdl' : Model}
    (hrun : Model.runUntil (.rangerRiscCSRs undef resetVector) .decode maxSteps mdl = mdl') :
    Settled true mdl' ∧
      mdl'.core = trace (stepWired undef resetVector) mdl.core (held true) 1 ∧
        ¬ AtFetch (trace (stepWired undef resetVector) mdl.core (held true) 1) := by
  have hnext : trace (stepWired undef resetVector) mdl.core (held true) 1 = _ :=
    step_fetch (held_high 0) hf
  have hstate : (trace (stepWired undef resetVector) mdl.core (held true) 1).seq.state =
      .decode := by
    rw [hnext]
    rfl
  have hfirst : ∀ k < 1, (trace (stepWired undef resetVector) mdl.core (held true) k).seq.state ≠
      .decode := by
    intro k hk hd
    obtain rfl : k = 0 := by omega
    exact MatrixState.noConfusion (Eq.trans (Eq.symm hf) hd)
  have hrest := rest_le mdl
  have hsteps : maxSteps = 100000 := rfl
  subst hrun
  obtain ⟨hset, hcore⟩ := h.runUntil (n := maxSteps) hfirst hstate (fun _ => by omega)
  exact ⟨hset, hcore, fun hfetch => MatrixState.noConfusion (hstate.symm.trans hfetch)⟩

/-- `rn fetch` ends in the next Fetch of the processor, or with a processor that waits if it has
none. -/
theorem Settled.rnFetch (h : Settled true mdl) {mdl' : Model}
    (hrun : Console.rnFetch (.rangerRiscCSRs undef resetVector) mdl = mdl') :
    Settled true mdl' ∧ Finds undef resetVector mdl.core mdl'.core := by
  subst hrun
  unfold Console.rnFetch Model.runToFetch
  by_cases hf : mdl.core.seq.state = .fetch
  · rw [if_pos hf]
    generalize hmid : Model.runUntil (.rangerRiscCSRs undef resetVector) .decode maxSteps mdl = mid
    obtain ⟨hset, hcore, hleft⟩ := h.runUntil_decode hf hmid
    rw [← hcore] at hleft
    obtain ⟨hset', hfinds⟩ := @Settled.runUntil_fetch undef resetVector mid hset hleft _ rfl
    rw [hcore] at hleft hfinds
    exact ⟨hset'.idle, hfinds.afterEdge hleft⟩
  · rw [if_neg hf]
    obtain ⟨hset, hfinds⟩ := @Settled.runUntil_fetch undef resetVector mdl h hf _ rfl
    exact ⟨hset.idle, hfinds⟩

/-- **One after another.** After `k` times `rn fetch` the processor is in its `k`-th Fetch from
where it was, whatever it was doing, or it waits in EBREAK or ECALL and has no `k`-th Fetch. -/
theorem rnFetch_visits (h : Settled true mdl) (k : ℕ) :
    Settled true ((rnFetch (.rangerRiscCSRs undef resetVector))^[k] mdl) ∧
      ((∃ n, Visit (stepWired undef resetVector) AtFetch mdl.core (held true) k n ∧
          ((rnFetch (.rangerRiscCSRs undef resetVector))^[k] mdl).core =
            trace (stepWired undef resetVector) mdl.core (held true) n) ∨
        (∀ n, ¬ Visit (stepWired undef resetVector) AtFetch mdl.core (held true) k n) ∧
          Waits ((rnFetch (.rangerRiscCSRs undef resetVector))^[k] mdl).core) := by
  induction k with
  | zero => exact ⟨h, .inl ⟨0, rfl, rfl⟩⟩
  | succ k ih =>
    rw [Function.iterate_succ_apply']
    generalize (rnFetch (.rangerRiscCSRs undef resetVector))^[k] mdl = mid at ih
    obtain ⟨hset, hmid⟩ := ih
    obtain ⟨hset', hend⟩ := @Settled.rnFetch undef resetVector mid hset _ rfl
    refine ⟨hset', ?_⟩
    rcases hmid with ⟨n, hn, hcore⟩ | ⟨hno, hwaits⟩
    · rw [hcore] at hend
      rcases hend with ⟨d, hret, hcore'⟩ | ⟨hnever, hwaits⟩
      · exact .inl ⟨n + d, ⟨n, d, hn, rfl, hret⟩, by rw [hcore', trace_add]; rfl⟩
      · refine .inr ⟨?_, hwaits⟩
        rintro - ⟨m, d, hm, -, hret⟩
        obtain rfl := hm.unique hn
        exact hnever d hret
    · refine .inr ⟨?_, ?_⟩
      · rintro - ⟨m, d, hm, -, -⟩
        exact hno m hm
      · rcases hend with ⟨d, -, hcore'⟩ | ⟨-, hwaits'⟩
        · rw [hcore']
          exact hwaits.run held_high d
        · exact hwaits'

end RunToFetch

/-- The console after its first time unit, the processor in reset. -/
def counting : Model where
  core := {
    matrix := {
      seq := ⟨.reset, .sync0, .itLoad⟩
      csrs := { mstatus := 0, mie := 0, mip := 0, mepc := 0, mtvec := 0 }
      irq := ⟨false, false, false⟩ }
    dp := Datapath.filled 0 }
  clkSeen := false
  irqSeen := true
  clkI := false
  resetI := true
  irqI := true
  timeStepNs := 1
  stepCnt := 0

/-- With `addi x1, x1, 1` from address 8 on. -/
def incrementing : Model :=
  { counting with core := { counting.core with dp := { counting.core.dp with
    mem := fun a => if a = Pmmu.wordAddr 0x100 then 8 else 0x00108093 } } }

/-- The third Fetch, where two instructions have been executed. -/
theorem rnFetch_visits_incrementing :
    Settled true ((rnFetch (.rangerRiscCSRs 0 0x100))^[3] incrementing) ∧
      ((rnFetch (.rangerRiscCSRs 0 0x100))^[3] incrementing).core.dp.pc = 16 ∧
      ((rnFetch (.rangerRiscCSRs 0 0x100))^[3] incrementing).core.dp.bank.read 1 = 2 := by
  have hfirst : FirstReturn (stepWired 0 0x100) AtFetch incrementing.core (held true) 5 := by
    decide +kernel
  have hsecond : FirstReturn (stepWired 0 0x100) AtFetch
      (trace (stepWired 0 0x100) incrementing.core (held true) 5)
        (fun k => held true (5 + k)) 5 := by
    decide +kernel
  have hthird : FirstReturn (stepWired 0 0x100) AtFetch
      (trace (stepWired 0 0x100) incrementing.core (held true) 10)
        (fun k => held true (10 + k)) 5 := by
    decide +kernel
  have hvisit : Visit (stepWired 0 0x100) AtFetch incrementing.core (held true) 3 15 :=
    ⟨10, 5, ⟨5, 5, ⟨0, 5, rfl, rfl, hfirst⟩, rfl, hsecond⟩, rfl, hthird⟩
  obtain ⟨hset, ⟨n, hn, hcore⟩ | ⟨hno, -⟩⟩ := @rnFetch_visits 0 0x100 incrementing
    ⟨rfl, fun _ => rfl, rfl, by decide⟩ 3
  · rw [hn.unique hvisit] at hcore
    refine ⟨hset, ?_, ?_⟩
    · exact (congrArg (fun s : CsrCore => s.dp.pc) hcore).trans (by decide +kernel)
    · exact (congrArg (fun s : CsrCore => s.dp.bank.read 1) hcore).trans (by decide +kernel)
  · exact absurd hvisit (hno 15)

/-! ## From `sg reset` to a program -/

section Session
variable {undef resetVector : Word} {mdl mdl' : Model}

end Session

end Console

end RangerRisc
