import RangerRisc.Boundary

/-! A trap of `modules/RangerRiscCSRs.sv` from the boundary where it is accepted, through its
handler, back to that boundary. -/

namespace RangerRisc

open Clocked

namespace ControlMatrixCSRs

/-! ## The entry -/

/-- From the boundary through IRQ0, IRQ1 and IRQ2 to the Fetch of the handler. -/
structure TrapEntry (w : Wiring) (s : CsrCore) (inp : ℕ → Input) : Prop where
  irq0 : (trace (stepCSRs w) s inp 1).seq.irState = .irq0
  irq1 : (trace (stepCSRs w) s inp 2).seq.irState = .irq1
  irq2 : (trace (stepCSRs w) s inp 3).seq.irState = .irq2
  fetch : (trace (stepCSRs w) s inp 4).seq.state = .fetch
  pc : (trace (stepCSRs w) s inp 4).dp.pc = s.csrs.mtvec
  storage : (trace (stepCSRs w) s inp 4).dp.storage = s.dp.mem (Pmmu.wordAddr s.csrs.mtvec)
  keeps : ∀ k ≤ 4, s.dp.Keeps (trace (stepCSRs w) s inp k).dp

section Entry
variable {w : Wiring} {s : CsrCore} {inp : ℕ → Input}

/-- The four edges of the entry. -/
theorem entry (hw : w.SelectsRdCSR) (hinp : ∀ k < 4, (inp k).resetI = true) (hb : AtPreFetch s)
    (ha : accepts s.matrix = true) :
    TrapEntry w s inp ∧
    (trace (stepCSRs w) s inp 4).irq.interruptInProgress = true ∧
    (trace (stepCSRs w) s inp 4).csrs.mepc = s.dp.pc ∧
    (trace (stepCSRs w) s inp 4).csrs.mstatus = trapStatus s.csrs.mstatus := by
  have h1 : trace (stepCSRs w) s inp 1 = _ := step_accept (hinp 0 (by decide)) hb.1 hb.2 ha
  have h2 : trace (stepCSRs w) s inp 2 = _ :=
    step_irq0 (s := trace (stepCSRs w) s inp 1) (hinp 1 (by decide)) (by rw [h1]; rfl)
      (by rw [h1]; rfl)
  have h3 : trace (stepCSRs w) s inp 3 = _ :=
    step_irq1 (s := trace (stepCSRs w) s inp 2) (hinp 2 (by decide)) (by rw [h2]; rfl)
      (by rw [h2]; rfl)
  have h4 : trace (stepCSRs w) s inp 4 = _ :=
    step_irq2 (s := trace (stepCSRs w) s inp 3) (hinp 3 (by decide)) (by rw [h3]; rfl)
      (by rw [h3]; rfl)
  have hpc1 : (trace (stepCSRs w) s inp 1).dp.pc = s.dp.pc := by rw [h1]; rfl
  have hk1 : s.dp.Keeps (trace (stepCSRs w) s inp 1).dp := by
    rw [h1]
    exact Datapath.keeps_clock rfl rfl
  have hk2 : s.dp.Keeps (trace (stepCSRs w) s inp 2).dp := by
    rw [h2]
    exact hk1.trans (Datapath.keeps_clock rfl rfl)
  have hk3 : s.dp.Keeps (trace (stepCSRs w) s inp 3).dp := by
    rw [h3]
    exact hk2.trans (Datapath.keeps_clock rfl rfl)
  have hk4 : s.dp.Keeps (trace (stepCSRs w) s inp 4).dp := by
    rw [h4]
    exact hk3.trans (Datapath.keeps_clock rfl rfl)
  have hmtvec : (trace (stepCSRs w) s inp 2).csrs.mtvec = s.csrs.mtvec := by
    simp [CsrCore.csrs, h2, h1]
  have hpc3 : (trace (stepCSRs w) s inp 3).dp.pc = s.csrs.mtvec := by
    rw [h3, clock_jump hw, hmtvec]
  refine ⟨⟨by rw [h1]; rfl, by rw [h2]; rfl, by rw [h3]; rfl, by rw [h4]; rfl, ?_, ?_, ?_⟩,
    ?_, ?_, ?_⟩
  · rw [h4]
    exact hpc3
  · rw [h4, ← hpc3, ← hk3.2]
    exact (ready_preFetch (w := w) addOp 0).storage
  · intro k hk
    obtain rfl | rfl | rfl | rfl | rfl : k = 0 ∨ k = 1 ∨ k = 2 ∨ k = 3 ∨ k = 4 := by omega
    · exact Datapath.Keeps.refl _
    · exact hk1
    · exact hk2
    · exact hk3
    · exact hk4
  · simp [CsrCore.irq, h4, h3, h2, h1, moved, movedWith, IrqRegs.clock]
  · simp [CsrCore.csrs, h4, h3, h2, hpc1]
  · simp [CsrCore.csrs, h4, h3, h2, h1]

end Entry

/-! ## The handler -/

/-- The instruction states of the way into a trap and out of it. -/
def trapState : InstructionState → Bool
  | .irq0 | .irq1 | .irq2 | .itMretClr => true
  | _ => false

/-- The next edge ends a CSR instruction that writes mepc or mstatus. -/
def WritesTrap (s : CsrCore) : Prop :=
  s.seq.state = .execute ∧ (s.seq.irState = .itCsr ∨ s.seq.irState = .itCsrLd) ∧
    csrWrites s.dp.ir ∧ (funct12 s.dp.ir = Csr.mepc ∨ funct12 s.dp.ir = Csr.mstatus)

/-- In ITMret -/
def AtMret (s : CsrCore) : Prop := s.seq.state = .execute ∧ s.seq.irState = .itMret

/-- A handler is running, with `mepc` and `mstatus` in the two registers. -/
structure InHandler (mepc mstatus : Word) (s : CsrCore) : Prop where
  state : s.seq.state = .fetch ∨ s.seq.state = .decode ∨
    s.seq.state = .execute ∧ trapState s.seq.irState = false
  inProgress : s.irq.interruptInProgress = true
  mepc_eq : s.csrs.mepc = mepc
  mstatus_eq : s.csrs.mstatus = mstatus
  csr : s.seq.state = .execute → s.seq.irState = .itCsr ∨ s.seq.irState = .itCsrLd →
    isCSRInstr s.dp.ir
  csrLd : s.seq.state = .execute → s.seq.irState = .itCsrLd → action s.dp.ir = .transfer

section Handler
variable {w : Wiring} {i : Input} {s : CsrCore} {mepc mstatus : Word}

theorem action_of_isCSRInstr {ir : Word} (h : isCSRInstr ir) :
    action ir = csrAction (dstRg ir == 0#5) (rs1 ir == 0#5) (funct3 ir) := by
  rw [action, h, Bool.true_and, Bool.true_and]

theorem csrWrites_of_action {ir : Word} (h : isCSRInstr ir) (ha : action ir = .write) :
    csrWrites ir :=
  ⟨h, .inl (csrAction_write ha)⟩

/-- A CSR other than mepc and mstatus is written. -/
theorem InHandler.write_other (h : InHandler mepc mstatus s) (hs : s.seq.state = .execute)
    (hp : s.seq.irState = .itCsr ∨ s.seq.irState = .itCsrLd) (hw : csrWrites s.dp.ir)
    (hno : ¬ WritesTrap s) (data : Word) :
    (s.csrs.write (funct12 s.dp.ir) data).mepc = mepc ∧
      (s.csrs.write (funct12 s.dp.ir) data).mstatus = mstatus := by
  have hne : funct12 s.dp.ir ≠ Csr.mepc ∧ funct12 s.dp.ir ≠ Csr.mstatus := by
    constructor
    · exact fun h => hno ⟨hs, hp, hw, .inl h⟩
    · exact fun h => hno ⟨hs, hp, hw, .inr h⟩
  exact ⟨(CsrRegs.write_mepc _ hne.1 _).trans h.mepc_eq,
    (CsrRegs.write_mstatus _ hne.2 _).trans h.mstatus_eq⟩

/-- ITCSRLd, where no write is meant, writes what it has read. -/
theorem InHandler.write_csrLd (h : InHandler mepc mstatus s) (hs : s.seq.state = .execute)
    (hp : s.seq.irState = .itCsrLd) (hno : ¬ WritesTrap s) :
    (s.csrs.write (funct12 s.dp.ir) (csrLdData s.dp.ir s.dp.rsa
      (csrData s.matrix s.dp.ir s.dp.rsa))).mepc = mepc ∧
    (s.csrs.write (funct12 s.dp.ir) (csrLdData s.dp.ir s.dp.rsa
      (csrData s.matrix s.dp.ir s.dp.rsa))).mstatus = mstatus := by
  by_cases hw : csrWrites s.dp.ir
  · exact h.write_other hs (.inr hp) hw hno _
  · have hcsr := h.csr hs (.inr hp)
    have ha := h.csrLd hs hp
    rw [action_of_isCSRInstr hcsr] at ha
    rw [csrData, CsrRegs.write_csrLdData _ hcsr hw ha]
    exact ⟨h.mepc_eq, h.mstatus_eq⟩

/-- An edge that changes no CSR. -/
theorem InHandler.moved (h : InHandler mepc mstatus s) {state : MatrixState}
    {irState : InstructionState} {dp : Datapath}
    (hstate : state = .fetch ∨ state = .decode ∨ state = .execute ∧ trapState irState = false)
    (hcsr : irState = .itCsr ∨ irState = .itCsrLd → isCSRInstr dp.ir)
    (hcsrLd : irState = .itCsrLd → action dp.ir = .transfer) :
    InHandler mepc mstatus
      { matrix := ControlMatrixCSRs.moved (s.matrix.sample i) state irState, dp := dp } where
  state := hstate
  inProgress := (CsrMatrix.sample_inProgress i s.matrix).trans h.inProgress
  mepc_eq := by
    rw [CsrCore.csrs, moved_mepc, CsrMatrix.sample_csrs]
    exact h.mepc_eq
  mstatus_eq := by
    rw [CsrCore.csrs, moved_mstatus, CsrMatrix.sample_csrs]
    exact h.mstatus_eq
  csr _ := hcsr
  csrLd _ := hcsrLd

/-- The instruction states apart from traps and CSR instructions. -/
def calm : InstructionState → Bool
  | .irq0 | .irq1 | .irq2 | .itMretClr | .itCsr | .itCsrLd => false
  | _ => true

theorem calm_of_shared {irState : InstructionState} (h : shared irState) : calm irState := by
  cases irState <;> first | rfl | exact Bool.noConfusion h

theorem InHandler.moved_calm (h : InHandler mepc mstatus s) {state : MatrixState}
    {irState : InstructionState} {dp : Datapath}
    (hstate : state = .fetch ∨ state = .decode ∨ state = .execute) (hcalm : calm irState) :
    InHandler mepc mstatus
      { matrix := ControlMatrixCSRs.moved (s.matrix.sample i) state irState, dp := dp } := by
  apply h.moved
  · rcases hstate with hs | hs | hs
    · exact .inl hs
    · exact .inr (.inl hs)
    · refine .inr (.inr ⟨hs, ?_⟩)
      cases irState <;> first | rfl | exact Bool.noConfusion hcalm
  · rintro (rfl | rfl) <;> exact Bool.noConfusion hcalm
  · rintro rfl
    exact Bool.noConfusion hcalm

/-- An edge that ends a CSR instruction. -/
theorem InHandler.written (h : InHandler mepc mstatus s) {r : CsrRegs} {dp : Datapath}
    (hr : r.mepc = mepc ∧ r.mstatus = mstatus) :
    InHandler mepc mstatus
      { matrix := movedWith (s.matrix.sample i) .preFetch r (s.matrix.sample i).irq
        dp := dp } where
  state := .inr (.inr ⟨rfl, rfl⟩)
  inProgress := (CsrMatrix.sample_inProgress i s.matrix).trans h.inProgress
  mepc_eq := movedWith_mepc.trans hr.1
  mstatus_eq := movedWith_mstatus.trans hr.2
  csr _ hp := by rcases hp with hp | hp <;> exact InstructionState.noConfusion hp
  csrLd _ hp := InstructionState.noConfusion hp

/-- The states that Decode chooses. -/
theorem decodeNext_calm (ir : Word) :
    calm (decodeNext (csrSystem ir) ir) ∨
      decodeNext (csrSystem ir) ir = .itCsr ∧ isCSRInstr ir := by
  unfold decodeNext
  cases irOpcode ir with
  | iTypeE =>
    unfold csrSystem
    by_cases hcsr : isCSRInstr ir
    · exact .inr ⟨if_pos hcsr, hcsr⟩
    · left
      rw [if_neg hcsr]
      split_ifs <;> rfl
  | _ => exact .inl rfl

theorem InHandler.execute (h : InHandler mepc mstatus s) (hno : ¬ WritesTrap s)
    (hmret : ¬ AtMret s) (hi : i.resetI = true) (hs : s.seq.state = .execute) :
    InHandler mepc mstatus (stepCSRs w i s) := by
  have hstate : trapState s.seq.irState = false := by
    rcases h.state with h | h | h
    · exact MatrixState.noConfusion (hs.symm.trans h)
    · exact MatrixState.noConfusion (hs.symm.trans h)
    · exact h.2
  cases executeEdge (w := w) hi hs with
  | next s' _ hn h' =>
    rw [h']
    exact h.moved_calm (.inr (.inr rfl)) (calm_of_shared (executeNext_shared hn))
  | done _ _ h' | csrSkip _ _ h' =>
    rw [h']
    exact h.moved_calm (.inr (.inr rfl)) rfl
  | preFetch _ _ h' | unknown _ _ h' =>
    rw [h']
    exact h.moved_calm (.inl rfl) rfl
  | accept _ ha _ =>
    have hprog : s.matrix.irq.interruptInProgress = true := h.inProgress
    simp [accepts, hprog] at ha
  | irq0 hp _ | irq1 hp _ | irq2 hp _ | itMretClr hp _ =>
    rw [hp] at hstate
    exact Bool.noConfusion hstate
  | itMret hp _ => exact absurd ⟨hs, hp⟩ hmret
  | csrWrite hp ha h' =>
    rw [h']
    exact h.written (h.write_other hs (.inl hp) (csrWrites_of_action (h.csr hs (.inl hp)) ha) hno _)
  | csrLd hp h' =>
    rw [h']
    exact h.written (h.write_csrLd hs hp hno)
  | transfer hp ha h' =>
    rw [h']
    exact h.moved (.inr (.inr ⟨rfl, rfl⟩)) (fun _ => h.csr hs (.inl hp)) (fun _ => ha)
  | idle s' hp h' =>
    rw [h']
    apply h.moved_calm (.inr (.inr rfl))
    rcases hp with rfl | ⟨rfl | rfl, -⟩ <;> rfl

/-- **Every edge keeps the handler's two registers** that neither writes them nor leaves. -/
theorem InHandler.step (h : InHandler mepc mstatus s) (hno : ¬ WritesTrap s) (hmret : ¬ AtMret s)
    (hi : i.resetI = true) : InHandler mepc mstatus (stepCSRs w i s) := by
  rcases h.state with hs | hs | ⟨hs, -⟩
  · rw [step_fetch hi hs]
    exact h.moved_calm (.inr (.inl rfl)) rfl
  · rw [step_decode hi hs]
    rcases decodeNext_calm s.dp.ir with hcalm | ⟨hdec, hcsr⟩
    · exact h.moved_calm (.inr (.inr rfl)) hcalm
    · rw [hdec]
      refine h.moved (.inr (.inr ⟨rfl, rfl⟩)) (fun _ => ?_)
        (fun hp => InstructionState.noConfusion hp)
      rw [Datapath.clock_ir rfl]
      exact hcsr
  · exact h.execute hno hmret hi hs

end Handler

/-! ## The exit -/

section Exit
variable {w : Wiring} {s : CsrCore} {inp : ℕ → Input} {mepc mstatus : Word}

/-- The two edges of the exit. -/
theorem exit (hw : w.SelectsRdCSR) (hinp : ∀ k < 2, (inp k).resetI = true) (hmret : AtMret s) :
    s.dp.Keeps (trace (stepCSRs w) s inp 1).dp ∧ s.dp.Keeps (trace (stepCSRs w) s inp 2).dp ∧
    AtPreFetch (trace (stepCSRs w) s inp 2) ∧
    (trace (stepCSRs w) s inp 2).dp.pc = mretPc s.csrs.mepc ∧
    (trace (stepCSRs w) s inp 2).csrs.mstatus = mretStatus s.csrs.mstatus := by
  have h1 : trace (stepCSRs w) s inp 1 = _ := step_itMret (hinp 0 (by decide)) hmret.1 hmret.2
  have h2 : trace (stepCSRs w) s inp 2 = _ :=
    step_itMretClr (s := trace (stepCSRs w) s inp 1) (hinp 1 (by decide)) (by rw [h1]; rfl)
      (by rw [h1]; rfl)
  have hk1 : s.dp.Keeps (trace (stepCSRs w) s inp 1).dp := by
    rw [h1]
    exact Datapath.keeps_clock rfl rfl
  have hk2 : s.dp.Keeps (trace (stepCSRs w) s inp 2).dp := by
    rw [h2]
    exact hk1.trans (Datapath.keeps_clock rfl rfl)
  have hpc1 : (trace (stepCSRs w) s inp 1).dp.pc = mretPc s.csrs.mepc := by
    rw [h1, clock_jump hw, trace_zero]
  refine ⟨hk1, hk2, ?_, ?_, ?_⟩
  · rw [h2]
    exact ⟨rfl, rfl⟩
  · rw [h2, ← hpc1]
    exact Datapath.clock_pc rfl
  · simp [CsrCore.csrs, h2, h1, CsrRegs.setMip]

/-- At a boundary where no interrupt is accepted, the word at pc is the next in Decode. -/
theorem next_decode (hinp : ∀ k < 2, (inp k).resetI = true) (hb : AtPreFetch s)
    (ha : accepts s.matrix = false) :
    (trace (stepCSRs w) s inp 2).seq.state = .decode ∧
    (trace (stepCSRs w) s inp 2).dp.ir = s.dp.arch.fetched ∧
    (trace (stepCSRs w) s inp 2).dp.arch = s.dp.arch := by
  have h1 : trace (stepCSRs w) s inp 1 = _ := step_preFetch (hinp 0 (by decide)) hb.1 hb.2 ha
  have h2 : trace (stepCSRs w) s inp 2 = _ :=
    step_fetch (s := trace (stepCSRs w) s inp 1) (hinp 1 (by decide)) (by rw [h1]; rfl)
  have hready : Ready s.dp.arch (trace (stepCSRs w) s inp 1).dp := by
    rw [h1]
    exact ready_preFetch addOp 0
  have hfetched := hready.fetch (w := w) addOp 0
  refine ⟨by rw [h2]; rfl, ?_, ?_⟩
  · rw [h2]
    exact hfetched.ir_eq
  · rw [h2]
    exact hfetched.arch

end Exit

/-! ## The trap as a whole -/

/-- Two edges after ITMret the run is back at the boundary where the trap was accepted. -/
structure TrapExit (w : Wiring) (s : CsrCore) (inp : ℕ → Input) (n : ℕ) : Prop where
  boundary : AtPreFetch (trace (stepCSRs w) s inp (n + 2))
  pc : (trace (stepCSRs w) s inp (n + 2)).dp.pc = s.dp.pc
  mie : (trace (stepCSRs w) s inp (n + 2)).csrs.mstatus.getLsbD Csr.mstatusMIE = true
  mstatus : ∀ b, b ≠ Csr.mstatusMIE → b ≠ Csr.mstatusMPIE →
    (trace (stepCSRs w) s inp (n + 2)).csrs.mstatus.getLsbD b = s.csrs.mstatus.getLsbD b
  keeps : ∀ k ≤ 2,
    (trace (stepCSRs w) s inp n).dp.Keeps (trace (stepCSRs w) s inp (n + k)).dp
  /-- Unless an interrupt is accepted at once, the instruction at that boundary is the next. -/
  resumes : (∀ k < 2, (inp (n + 2 + k)).resetI = true) →
    accepts (trace (stepCSRs w) s inp (n + 2)).matrix = false →
    (trace (stepCSRs w) s inp (n + 4)).seq.state = .decode ∧
    (trace (stepCSRs w) s inp (n + 4)).dp.ir =
      (trace (stepCSRs w) s inp n).dp.mem (Pmmu.wordAddr s.dp.pc) ∧
    (trace (stepCSRs w) s inp (n + 4)).dp.pc = s.dp.pc

section Trap
variable {undef resetVector : Word} {s : CsrCore} {inp : ℕ → Input} {n : ℕ}

/-- An accepted interrupt finds MIE set. -/
theorem accepts_MIE (ha : accepts s.matrix = true) :
    s.csrs.mstatus.getLsbD Csr.mstatusMIE = true := by
  simp only [accepts, CsrRegs.irqPending, Bool.and_eq_true] at ha
  exact ha.1.1.1

/-- ITMret is not part of the entry. -/
theorem entry_no_mret {w : Wiring} (hw : w.SelectsRdCSR) (hb : AtPreFetch s)
    (ha : accepts s.matrix = true) (hinp : ∀ k < n, (inp k).resetI = true) (hn : n < 4) :
    ¬ AtMret (trace (stepCSRs w) s inp n) := by
  have hhigh : ∀ k < 4, ({ inp k with resetI := true } : Input).resetI = true := fun _ _ => rfl
  have hentry := (entry hw hhigh hb ha).1
  rintro ⟨-, hp⟩
  have hsame : ∀ k < n, inp k = { inp k with resetI := true } := fun k hk => by rw [← hinp k hk]
  rw [trace_congr (stepCSRs w) s inp hsame] at hp
  obtain rfl | rfl | rfl | rfl : n = 0 ∨ n = 1 ∨ n = 2 ∨ n = 3 := by omega
  · exact InstructionState.noConfusion (hb.2.symm.trans hp)
  · exact InstructionState.noConfusion (hentry.irq0.symm.trans hp)
  · exact InstructionState.noConfusion (hentry.irq1.symm.trans hp)
  · exact InstructionState.noConfusion (hentry.irq2.symm.trans hp)

/-- **A trap is transparent.** -/
theorem trap_transparent (hb : AtPreFetch s) (ha : accepts s.matrix = true)
    (hpc : s.dp.pc.extractLsb' 0 2 = 0#2) (hinp : ∀ k < n + 2, (inp k).resetI = true)
    (hmret : AtMret (trace (stepCSRs (Wiring.rangerRiscCSRs undef resetVector)) s inp n))
    (hfirst : ∀ k < n,
      ¬ AtMret (trace (stepCSRs (Wiring.rangerRiscCSRs undef resetVector)) s inp k))
    (hhandler : ∀ k, 4 ≤ k → k < n →
      ¬ WritesTrap (trace (stepCSRs (Wiring.rangerRiscCSRs undef resetVector)) s inp k)) :
    TrapEntry (Wiring.rangerRiscCSRs undef resetVector) s inp ∧
      TrapExit (Wiring.rangerRiscCSRs undef resetVector) s inp n := by
  have hw : (Wiring.rangerRiscCSRs undef resetVector).SelectsRdCSR := fun _ _ _ _ => rfl
  have hn : 4 ≤ n := by
    by_contra hlt
    exact entry_no_mret hw hb ha (fun k hk => hinp k (by omega)) (by omega) hmret
  obtain ⟨hentry, hprog, hmepc, hmstatus⟩ := entry hw (fun k hk => hinp k (by omega)) hb ha
  -- the handler, from its Fetch to ITMret
  have hstart : InHandler s.dp.pc (trapStatus s.csrs.mstatus)
      (trace (stepCSRs (Wiring.rangerRiscCSRs undef resetVector)) s inp 4) :=
    ⟨.inl hentry.fetch, hprog, hmepc, hmstatus,
      fun h => MatrixState.noConfusion (h.symm.trans hentry.fetch),
      fun h => MatrixState.noConfusion (h.symm.trans hentry.fetch)⟩
  obtain ⟨m, rfl⟩ : ∃ m, n = 4 + m := ⟨n - 4, by omega⟩
  have hend : InHandler s.dp.pc (trapStatus s.csrs.mstatus)
      (trace (stepCSRs (Wiring.rangerRiscCSRs undef resetVector)) s inp (4 + m)) := by
    rw [trace_add]
    apply trace_invariant_until hstart _ m (Nat.le_refl m)
    intro k hk hin
    rw [trace_succ]
    rw [← trace_add] at hin ⊢
    exact hin.step (hhandler (4 + k) (by omega) (by omega)) (hfirst (4 + k) (by omega))
      (hinp (4 + k) (by omega))
  have hlast : ∀ k < 2, (inp (4 + m + k)).resetI = true := fun k hk => hinp _ (by omega)
  obtain ⟨hk1, hk2, hboundary, hpc', hstatus'⟩ := exit hw hlast hmret
  rw [← trace_add] at hk1 hk2 hboundary hpc' hstatus'
  rw [hend.mepc_eq, mretPc_aligned hpc] at hpc'
  rw [hend.mstatus_eq] at hstatus'
  refine ⟨hentry, ⟨hboundary, hpc', ?_, ?_, ?_, ?_⟩⟩
  · rw [hstatus', mretStatus_trapStatus_MIE]
    exact accepts_MIE ha
  · intro b hb1 hb2
    rw [hstatus', mretStatus_trapStatus_of_ne _ hb1 hb2]
  · intro k hk
    obtain rfl | rfl | rfl : k = 0 ∨ k = 1 ∨ k = 2 := by omega
    · exact Datapath.Keeps.refl _
    · exact hk1
    · exact hk2
  · intro hinp' ha'
    obtain ⟨hdec, hir, harch⟩ := next_decode hinp' hboundary ha'
    rw [← trace_add] at hdec hir harch
    refine ⟨hdec, ?_, (congrArg Arch.pc harch).trans hpc'⟩
    rw [hir, Arch.fetched, Datapath.arch, hpc', hk2.2]

instance : DecidablePred AtMret := fun _ => inferInstanceAs (Decidable (_ ∧ _))

instance : DecidablePred WritesTrap := fun _ => inferInstanceAs (Decidable (_ ∧ _ ∧ _ ∧ _))

/-- At a boundary with an interrupt pending, the memory full of mrets. -/
def interrupted : CsrCore where
  matrix := {
    seq := { state := .execute, vectorState := .sync0, irState := .preFetch }
    csrs := {
      mstatus := 0x00000008, mie := 0x00000800, mip := 0x00000800, mepc := 0, mtvec := 0x100 }
    irq := ⟨true, false, false⟩ }
  dp := Datapath.filled 0x30200073

theorem trap_transparent_mret :
    TrapExit (Wiring.rangerRiscCSRs 0 0) interrupted (fun _ => ⟨true, false⟩) 6 := by
  have hinp : ∀ k < 6 + 2, ((fun _ => ⟨true, false⟩ : ℕ → Input) k).resetI = true :=
    fun _ _ => rfl
  have hfirst : ∀ k < 6, ¬ AtMret
      (trace (stepCSRs (Wiring.rangerRiscCSRs 0 0)) interrupted (fun _ => ⟨true, false⟩) k) := by
    decide +kernel
  have hhandler : ∀ k < 6, ¬ WritesTrap
      (trace (stepCSRs (Wiring.rangerRiscCSRs 0 0)) interrupted (fun _ => ⟨true, false⟩) k) := by
    decide +kernel
  exact (trap_transparent ⟨rfl, rfl⟩ (by decide) (by decide) hinp (by decide +kernel) hfirst
    (fun k _ hk => hhandler k hk)).2

end Trap

end ControlMatrixCSRs

end RangerRisc
