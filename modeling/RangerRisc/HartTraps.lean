import RangerRisc.HartProgress

/-! Interrupts over whole runs of `modules/RangerRiscCSRs.sv`: traps do not nest, the interrupted
program always gets on, and an interrupt is answered in time. -/

namespace RangerRisc

open Clocked

/-! ## What a step does to the flags -/

namespace Hart
variable {undef : Word} {arr : Arrival} {h h' : Hart}

/-- Only mret ends a trap. -/
theorem step_inProgress (hstep : h.step undef arr = some h') (ha : h.traps.accepts = false)
    (hk : kind h.arch.fetched ≠ .mret) : h'.traps.inProgress = h.traps.inProgress := by
  rw [step_of_not_accepts ha] at hstep
  split at hstep
  · obtain rfl := Option.some.inj hstep
    rfl
  · obtain rfl := Option.some.inj hstep
    unfold csrInstr
    split <;> rfl
  · next hm => exact absurd hm hk
  · exact absurd hstep.symm (Option.some_ne_none h')

/-- After mret no interrupt is accepted at once, if it has ended a trap. -/
theorem mret_accepts (h : Hart) (arr : Arrival) (hin : h.traps.inProgress = true) :
    (h.mret arr).traps.accepts = false := by
  have hmeip : (h.mret arr).traps.csrs.mip.getLsbD Csr.mipMEIP = false := by
    rw [mret, TrapState.leave_pend, hin]
    exact (CsrRegs.setMip_mip_MEIP _ _).trans (Bool.and_false _)
  rw [TrapState.accepts, CsrRegs.irqPending, hmeip, Bool.and_false, Bool.false_and]

/-- What comes in outside a trap is pending when the step is over. -/
theorem step_pending (hstep : h.step undef arr = some h') (ha : h.traps.accepts = false)
    (hin : h.traps.inProgress = false) (harr : (arr.early || arr.late) = true) :
    h'.traps.csrs.mip.getLsbD Csr.mipMEIP = true ∧ h'.traps.inProgress = false := by
  have hany : (h.traps.triggered || (arr.early || arr.late)) = true := by
    rw [harr, Bool.or_true]
  rw [step_of_not_accepts ha] at hstep
  split at hstep
  · obtain rfl := Option.some.inj hstep
    exact ⟨TrapState.pend_MEIP _ hany hin, hin⟩
  · obtain rfl := Option.some.inj hstep
    unfold csrInstr
    split
    · exact ⟨TrapState.pend_MEIP _ hany hin, hin⟩
    · refine ⟨TrapState.pend_MEIP _ ?_ hin, hin⟩
      rw [← hany, ← Bool.or_assoc]
      rfl
  · obtain rfl := Option.some.inj hstep
    refine ⟨?_, rfl⟩
    rw [mret, TrapState.leave_pend, hin, hany]
    exact CsrRegs.setMip_mip_MEIP _ _
  · exact absurd hstep.symm (Option.some_ne_none h')

end Hart

namespace ControlMatrixCSRs

section Visits
variable {undef resetVector : Word} {s : CsrCore} {inp : ℕ → Input}

/-! ## From visit to visit -/

theorem step_of_firstReturn (hinp : High inp) (hr : Rests s) {d : ℕ}
    (hd : FirstReturn (stepWired undef resetVector) AtBoundary s inp d) :
    Rests (trace (stepWired undef resetVector) s inp d) ∧
      Hart.step undef (arrival inp d) (hart s) =
        some (hart (trace (stepWired undef resetVector) s inp d)) := by
  rcases @steps undef resetVector s inp hinp hr with ⟨e, he, hrests, hstep⟩ | ⟨-, hnever⟩
  · obtain rfl := he.unique hd
    exact ⟨hrests, hstep⟩
  · exact absurd hd (hnever d)

theorem visit_rests (hinp : High inp) (hr : Rests s) {k n : ℕ}
    (h : Visit (stepWired undef resetVector) AtBoundary s inp k n) :
    Rests (trace (stepWired undef resetVector) s inp n) := by
  induction k generalizing n with
  | zero =>
    obtain rfl : n = 0 := h
    exact hr
  | succ k ih =>
    obtain ⟨m, d, hm, rfl, hd⟩ := h
    rw [trace_add]
    exact (step_of_firstReturn (hinp.shift m) (ih hm) hd).1

theorem accepts_inProgress {s : CsrCore} (h : s.irq.interruptInProgress = true) :
    accepts s.matrix = false := by
  rw [accepts, Bool.and_eq_false_iff]
  right
  change (!s.irq.interruptInProgress) = false
  rw [h]
  rfl

/-- A trap is on from the visit after it was accepted until mret. -/
theorem inProgress_or_mret (hinp : High inp) (hr : Rests s) {i j n m : ℕ} (hij : i < j)
    (hi : Visit (stepWired undef resetVector) AtBoundary s inp i n)
    (hj : Visit (stepWired undef resetVector) AtBoundary s inp j m)
    (ha : accepts (trace (stepWired undef resetVector) s inp n).matrix = true) :
    (trace (stepWired undef resetVector) s inp m).irq.interruptInProgress = true ∨
      ∃ k l, i < k ∧ k < j ∧ Visit (stepWired undef resetVector) AtBoundary s inp k l ∧
        (trace (stepWired undef resetVector) s inp l).irq.interruptInProgress = true ∧
        kind (trace (stepWired undef resetVector) s inp l).dp.arch.fetched = .mret := by
  induction j generalizing m with
  | zero => exact absurd hij (Nat.not_lt_zero i)
  | succ j ih =>
    obtain ⟨l, d, hl, rfl, hd⟩ := hj
    have hrests := visit_rests hinp hr hl
    obtain ⟨-, hstep⟩ := step_of_firstReturn (hinp.shift l) hrests hd
    rw [← trace_add] at hstep
    rcases Nat.lt_or_eq_of_le (Nat.le_of_lt_succ hij) with hlt | rfl
    · rcases ih hlt hl with hin | ⟨k, l', hik, hkj, hmret⟩
      · by_cases hk : kind (trace (stepWired undef resetVector) s inp l).dp.arch.fetched = .mret
        · exact .inr ⟨j, l, hlt, Nat.lt_succ_self j, hl, hin, hk⟩
        · have hnot := (hart_accepts _).trans (accepts_inProgress hin)
          exact .inl ((Hart.step_inProgress hstep hnot hk).trans hin)
      · exact .inr ⟨k, l', hik, Nat.lt_succ_of_lt hkj, hmret⟩
    · obtain rfl := hl.unique hi
      rw [Hart.step_of_accepts ((hart_accepts _).trans ha)] at hstep
      exact .inl (congrArg (fun h => h.traps.inProgress) (Option.some.inj hstep)).symm

/-- **Traps do not nest, and they do not starve the program.** Between two traps there is the mret
that ends the first one, and the instruction it returns to is executed before the second. -/
theorem traps_apart (hinp : High inp) (hr : Rests s) {i j n m : ℕ} (hij : i < j)
    (hi : Visit (stepWired undef resetVector) AtBoundary s inp i n)
    (hj : Visit (stepWired undef resetVector) AtBoundary s inp j m)
    (hai : accepts (trace (stepWired undef resetVector) s inp n).matrix = true)
    (haj : accepts (trace (stepWired undef resetVector) s inp m).matrix = true) :
    ∃ k l l', i < k ∧ k + 1 < j ∧
      Visit (stepWired undef resetVector) AtBoundary s inp k l ∧
      kind (trace (stepWired undef resetVector) s inp l).dp.arch.fetched = .mret ∧
      Visit (stepWired undef resetVector) AtBoundary s inp (k + 1) l' ∧
      (trace (stepWired undef resetVector) s inp l').irq.interruptInProgress = false ∧
      accepts (trace (stepWired undef resetVector) s inp l').matrix = false ∧
      (trace (stepWired undef resetVector) s inp l').dp.pc =
        mretPc (trace (stepWired undef resetVector) s inp l).csrs.mepc := by
  rcases inProgress_or_mret hinp hr hij hi hj hai with hin | ⟨k, l, hik, hkj, hl, hin, hk⟩
  · exact absurd haj (by rw [accepts_inProgress hin]; exact Bool.false_ne_true)
  · obtain ⟨l', -, hl'⟩ := hj.exists_of_le hkj
    obtain ⟨l₀, d, hl₀, rfl, hd⟩ := hl'
    obtain rfl := hl₀.unique hl
    obtain ⟨-, hstep⟩ := step_of_firstReturn (hinp.shift l₀) (visit_rests hinp hr hl) hd
    rw [← trace_add, Hart.step_of_not_accepts ((hart_accepts _).trans (accepts_inProgress hin)),
      show kind (hart _).arch.fetched = _ from hk] at hstep
    have hmret := Option.some.inj hstep
    have hnot := Hart.mret_accepts (hart (trace (stepWired undef resetVector) s inp l₀))
      (arrival (fun j => inp (l₀ + j)) d) hin
    rw [hmret, hart_accepts] at hnot
    refine ⟨k, l₀, l₀ + d, hik, ?_, hl, hk, ⟨l₀, d, hl, rfl, hd⟩, ?_, hnot, ?_⟩
    · rcases Nat.lt_or_eq_of_le hkj with hlt | rfl
      · exact hlt
      · obtain rfl := hj.unique ⟨l₀, d, hl, rfl, hd⟩
        rw [haj] at hnot
        exact Bool.noConfusion hnot
    · exact (congrArg (fun h => h.traps.inProgress) hmret).symm
    · exact (congrArg (fun h => h.arch.pc) hmret).symm

/-! ## Response -/

/-- The handler is about to be fetched; `resume` is where mret leads. -/
structure AtHandler (handler resume : Word) (s : CsrCore) : Prop where
  irq2 : s.seq.irState = .irq2
  pc : s.dp.pc = handler
  mepc : s.csrs.mepc = resume
  inProgress : s.irq.interruptInProgress = true

/-- **Response.** When `irq_i` falls during a step outside a trap and the two enables are set at the
end of the step, the handler is entered from there, ten edges after the step began at most. -/
theorem irq_response (hinp : High inp) (hr : Rests s) (ha : accepts s.matrix = false)
    (hin : s.irq.interruptInProgress = false) {d j : ℕ}
    (hd : FirstReturn (stepWired undef resetVector) AtBoundary s inp d) (hj : j < d)
    (hfall : (inp j).irqFalls = true)
    (hmie : (trace (stepWired undef resetVector) s inp d).csrs.mstatus.getLsbD
      Csr.mstatusMIE = true)
    (hmeie : (trace (stepWired undef resetVector) s inp d).csrs.mie.getLsbD Csr.mieMEIE = true) :
    ∃ e ≤ 10, d ≤ e ∧ FirstReturn (stepWired undef resetVector) AtBoundary
        (trace (stepWired undef resetVector) s inp d) (fun k => inp (d + k)) (e - d) ∧
      AtHandler (trace (stepWired undef resetVector) s inp d).csrs.mtvec
        (trace (stepWired undef resetVector) s inp d).dp.pc
        (trace (stepWired undef resetVector) s inp e) := by
  obtain ⟨hrests, hstep⟩ := step_of_firstReturn hinp hr hd
  obtain ⟨hmeip, hin'⟩ := Hart.step_pending hstep ((hart_accepts s).trans ha) hin
    (arrival_of_falls hj hfall)
  have hacc : accepts (trace (stepWired undef resetVector) s inp d).matrix = true := by
    rw [← hart_accepts, TrapState.accepts, CsrRegs.irqPending, hmeip, hin']
    exact Bool.and_eq_true_iff.mpr ⟨Bool.and_eq_true_iff.mpr
      ⟨Bool.and_eq_true_iff.mpr ⟨hmie, hmeie⟩, rfl⟩, rfl⟩
  obtain ⟨hret, -, hhart, hirq2⟩ := @trap_entered undef resetVector _ _ (hinp.shift d)
    hrests hacc
  have hle := firstReturn_le hinp hr hd
  rw [← trace_add] at hhart hirq2
  refine ⟨d + 3, by omega, Nat.le_add_right d 3, ?_, hirq2, ?_, ?_, ?_⟩
  · rw [Nat.add_sub_cancel_left]
    exact hret
  · exact congrArg (fun h => h.arch.pc) hhart
  · exact congrArg (fun h => h.traps.csrs.mepc) hhart
  · exact congrArg (fun h => h.traps.inProgress) hhart

end Visits

/-! ## Nops with a handler that is mret alone -/

/-- Interrupts are enabled, and one is pending or not. The handler is at 4. -/
def nopsWithMret (pending : Bool) : CsrCore where
  matrix := {
    seq := { state := .execute, vectorState := .sync0, irState := .preFetch }
    csrs := {
      mstatus := 0x8, mie := 0x800, mip := bif pending then 0x800 else 0, mepc := 0, mtvec := 4 }
    irq := ⟨pending, false, false⟩ }
  dp := { Datapath.filled 0x00000013 with
    pc := 8
    mem := fun a => if a = 1#10 then 0x30200073 else 0x00000013 }

/-- The trap, mret and one nop. -/
theorem nopsWithMret_visits :
    Visit (stepWired 0 0) AtBoundary (nopsWithMret true) (fun _ => ⟨true, true⟩) 3 12 := by
  have htrap : FirstReturn (stepWired 0 0) AtBoundary (nopsWithMret true)
      (fun _ => ⟨true, true⟩) 3 := by
    decide +kernel
  have hmret : FirstReturn (stepWired 0 0) AtBoundary
      (trace (stepWired 0 0) (nopsWithMret true) (fun _ => ⟨true, true⟩) 3)
      (fun _ => ⟨true, true⟩) 5 := by
    decide +kernel
  have hnop : FirstReturn (stepWired 0 0) AtBoundary
      (trace (stepWired 0 0) (nopsWithMret true) (fun _ => ⟨true, true⟩) 8)
      (fun _ => ⟨true, true⟩) 4 := by
    decide +kernel
  exact ⟨8, 4, ⟨3, 5, ⟨0, 3, rfl, rfl, htrap⟩, rfl, hmret⟩, rfl, hnop⟩

theorem traps_apart_nops : ∃ k l l', 0 < k ∧ k + 1 < 3 ∧
    Visit (stepWired 0 0) AtBoundary (nopsWithMret true) (fun _ => ⟨true, true⟩) k l ∧
    kind (trace (stepWired 0 0) (nopsWithMret true) (fun _ => ⟨true, true⟩) l).dp.arch.fetched =
      .mret ∧
    Visit (stepWired 0 0) AtBoundary (nopsWithMret true) (fun _ => ⟨true, true⟩) (k + 1) l' ∧
    (trace (stepWired 0 0) (nopsWithMret true)
      (fun _ => ⟨true, true⟩) l').irq.interruptInProgress = false ∧
    accepts (trace (stepWired 0 0) (nopsWithMret true) (fun _ => ⟨true, true⟩) l').matrix = false ∧
    (trace (stepWired 0 0) (nopsWithMret true) (fun _ => ⟨true, true⟩) l').dp.pc =
      mretPc (trace (stepWired 0 0) (nopsWithMret true) (fun _ => ⟨true, true⟩) l).csrs.mepc := by
  have hvisit : Visit (stepWired 0 0) AtBoundary (nopsWithMret true) (fun _ => ⟨true, true⟩) 0 0 :=
    rfl
  exact traps_apart (fun _ => rfl) (.of_preFetch rfl rfl rfl) (by decide) hvisit nopsWithMret_visits
    (by decide) (by decide +kernel)

/-- `irq_i` falls while a nop is fetched. -/
theorem irq_response_nops : ∃ e ≤ 10, 4 ≤ e ∧ FirstReturn (stepWired 0 0) AtBoundary
      (trace (stepWired 0 0) (nopsWithMret false) (fun _ => ⟨true, true⟩) 4)
      (fun _ => ⟨true, true⟩) (e - 4) ∧
    AtHandler (trace (stepWired 0 0) (nopsWithMret false) (fun _ => ⟨true, true⟩) 4).csrs.mtvec
      (trace (stepWired 0 0) (nopsWithMret false) (fun _ => ⟨true, true⟩) 4).dp.pc
      (trace (stepWired 0 0) (nopsWithMret false) (fun _ => ⟨true, true⟩) e) := by
  have hnop : FirstReturn (stepWired 0 0) AtBoundary (nopsWithMret false)
      (fun _ => ⟨true, true⟩) 4 := by
    decide +kernel
  have hfirst : 0 < 4 := by decide
  exact irq_response (fun _ => rfl) (.of_preFetch rfl rfl rfl) (by decide) rfl hnop hfirst rfl
    (by decide +kernel) (by decide +kernel)

end ControlMatrixCSRs

end RangerRisc
