import RangerRisc.FetchCoherence

/-! The lowest bit of pc in `modules/RangerRiscCSRs.sv`. Of everything that loads pc only jalr
can set it. -/

namespace RangerRisc

open Clocked

def IsEven (a : Word) : Prop := a.getLsbD 0 = false

instance (a : Word) : Decidable (IsEven a) := inferInstanceAs (Decidable (_ = _))

theorem IsEven.add {a b : Word} (ha : IsEven a) (hb : IsEven b) : IsEven (a + b) := by
  unfold IsEven at *
  rw [BitVec.getLsbD_eq_getElem (by decide)] at *
  rw [BitVec.getElem_add]
  simp [ha, hb]

theorem isEven_immB (ir : Word) : IsEven (immB ir) := by
  rw [IsEven, immB, BitVec.getLsbD_append]
  rfl

theorem isEven_immJ (ir : Word) : IsEven (immJ ir) := by
  rw [IsEven, immJ, BitVec.getLsbD_append]
  rfl

theorem isEven_mretPc (mepc : Word) : IsEven (mretPc mepc) := by
  rw [IsEven, mretPc, BitVec.getLsbD_append]
  rfl

namespace ControlMatrixCSRs

/-- The target of a jalr is odd. -/
def OddJalr (w : Wiring) (s : CsrCore) : Prop :=
  s.seq.state = .execute ∧ s.seq.irState = .itJalr ∧ ¬ IsEven (s.dp.rsa + s.dp.immExtOut w)

/-- The instruction register is what a branch or a jal state expects. -/
def Expected (irState : InstructionState) (ir : Word) : Prop :=
  match irState with
  | .bType | .btBranch => irOpcode ir = .bType
  | .jtJal => irOpcode ir = .jType
  | _ => True

structure EvenPc (w : Wiring) (s : CsrCore) : Prop where
  state : s.seq.state = .reset ∨ s.seq.state = .fetch ∨ s.seq.state = .decode ∨
    s.seq.state = .execute
  vector1 : s.seq.state = .reset → s.seq.vectorState = .vector1 → s.dp.pc = w.resetVector
  vector2 : s.seq.state = .reset → s.seq.vectorState = .vector2 → IsEven s.dp.storage
  vector3 : s.seq.state = .reset → s.seq.vectorState = .vector3 → IsEven s.dp.pc
  pc : s.seq.state = .fetch ∨ s.seq.state = .decode ∨ s.seq.state = .execute → IsEven s.dp.pc
  pcPrior : s.seq.state = .decode ∨ s.seq.state = .execute → IsEven s.dp.pcPrior
  expected : s.seq.state = .execute → Expected s.seq.irState s.dp.ir

section EvenPc
variable {w : Wiring} {i : Input} {s : CsrCore}

theorem EvenPc.of_reset (hs : s.seq.state = .reset)
    (h1 : s.seq.vectorState = .vector1 → s.dp.pc = w.resetVector)
    (h2 : s.seq.vectorState = .vector2 → IsEven s.dp.storage)
    (h3 : s.seq.vectorState = .vector3 → IsEven s.dp.pc) : EvenPc w s where
  state := .inl hs
  vector1 _ := h1
  vector2 _ := h2
  vector3 _ := h3
  pc h := by simp [hs] at h
  pcPrior h := by simp [hs] at h
  expected h := by simp [hs] at h

theorem EvenPc.of_fetch (hs : s.seq.state = .fetch) (hpc : IsEven s.dp.pc) : EvenPc w s where
  state := .inr (.inl hs)
  vector1 h := by simp [hs] at h
  vector2 h := by simp [hs] at h
  vector3 h := by simp [hs] at h
  pc _ := hpc
  pcPrior h := by simp [hs] at h
  expected h := by simp [hs] at h

theorem EvenPc.of_decode (hs : s.seq.state = .decode) (hpc : IsEven s.dp.pc)
    (hprior : IsEven s.dp.pcPrior) : EvenPc w s where
  state := .inr (.inr (.inl hs))
  vector1 h := by simp [hs] at h
  vector2 h := by simp [hs] at h
  vector3 h := by simp [hs] at h
  pc _ := hpc
  pcPrior _ := hprior
  expected h := by simp [hs] at h

theorem EvenPc.of_execute (hs : s.seq.state = .execute) (hpc : IsEven s.dp.pc)
    (hprior : IsEven s.dp.pcPrior) (hexp : Expected s.seq.irState s.dp.ir) : EvenPc w s where
  state := .inr (.inr (.inr hs))
  vector1 h := by simp [hs] at h
  vector2 h := by simp [hs] at h
  vector3 h := by simp [hs] at h
  pc _ := hpc
  pcPrior _ := hprior
  expected _ := hexp

theorem expected_decodeNext (ir : Word) : Expected (decodeNext (csrSystem ir) ir) ir := by
  unfold decodeNext
  cases ho : irOpcode ir with
  | bType | jType => exact ho
  | iTypeE =>
    unfold csrSystem
    repeat' split
    all_goals trivial
  | _ => trivial

theorem expected_executeNext {st st' : InstructionState} {ir : Word} (h : Expected st ir)
    (hn : executeNext st ir = .next st') : Expected st' ir := by
  unfold executeNext at hn
  repeat' split at hn
  all_goals
    cases hn
    try first | exact h | trivial

/-- Only an odd jalr makes pc odd. -/
theorem EvenPc.exec_pc (h : EvenPc w s) (hs : s.seq.state = .execute) (hj : ¬ OddJalr w s) :
    IsEven (s.dp.exec w s.seq.irState).pc := by
  have hexp := h.expected hs
  have hpc := h.pc (.inr (.inr hs))
  have hprior := h.pcPrior (.inr hs)
  rw [RangerRisc.exec_pc]
  cases hp : s.seq.irState with
  | itJalr =>
    by_contra hodd
    exact hj ⟨hs, hp, hodd⟩
  | jtJal =>
    rw [hp] at hexp
    have himm : s.dp.immExtOut w = immJ s.dp.ir := by
      simp [Datapath.immExtOut, immediate, immSrc, show irOpcode s.dp.ir = .jType from hexp, mux8]
    rw [himm]
    exact hprior.add (isEven_immJ _)
  | btBranch =>
    rw [hp] at hexp
    have himm : s.dp.immExtOut w = immB s.dp.ir := by
      simp [Datapath.immExtOut, immediate, immSrc, show irOpcode s.dp.ir = .bType from hexp, mux8]
    rw [himm]
    dsimp only
    split
    · exact hprior.add (isEven_immB _)
    · exact hpc
  | _ => exact hpc

theorem EvenPc.execute (h : EvenPc w s) (hw : w.SelectsRdCSR) (hmtvec : IsEven s.csrs.mtvec)
    (hj : ¬ OddJalr w s) (hi : i.resetI = true) (hs : s.seq.state = .execute) :
    EvenPc w (stepCSRs w i s) := by
  have hpc := h.pc (.inr (.inr hs))
  have hprior := h.pcPrior (.inr hs)
  have hexp := h.expected hs
  cases executeEdge (w := w) hi hs with
  | next s' hsh hn h' =>
    rw [h']
    refine EvenPc.of_execute rfl (h.exec_pc hs hj) ?_ ?_
    · change IsEven (s.dp.exec w s.seq.irState).pcPrior
      rw [exec_pcPrior]
      exact hprior
    · change Expected s' (s.dp.exec w s.seq.irState).ir
      rw [exec_ir]
      exact expected_executeNext hexp hn
  | done hsh hn h' =>
    rw [h']
    refine EvenPc.of_execute rfl (h.exec_pc hs hj) ?_ trivial
    change IsEven (s.dp.exec w s.seq.irState).pcPrior
    rw [exec_pcPrior]
    exact hprior
  | preFetch _ _ h' | irq2 _ h' | unknown _ _ h' =>
    rw [h']
    exact EvenPc.of_fetch rfl hpc
  | accept _ _ h' | irq0 _ h' | itMretClr _ h' | csrWrite _ _ h' | csrSkip _ _ h' | transfer _ _ h'
  | csrLd _ h' =>
    rw [h']
    exact EvenPc.of_execute rfl hpc hprior trivial
  | irq1 _ h' =>
    rw [h']
    refine EvenPc.of_execute rfl ?_ hprior trivial
    exact (clock_jump hw s.dp _).symm ▸ hmtvec
  | itMret _ h' =>
    rw [h']
    refine EvenPc.of_execute rfl ?_ hprior trivial
    exact (clock_jump hw s.dp _).symm ▸ isEven_mretPc _
  | idle s' hp h' =>
    rw [h']
    refine EvenPc.of_execute rfl hpc hprior ?_
    rcases hp with rfl | ⟨rfl | rfl, -⟩ <;> trivial

/-- From vector state to vector state, and into Fetch. -/
theorem EvenPc.reset (h : EvenPc w s) (hw : w.SelectsResetAdr id)
    (hvector : IsEven (s.dp.mem (Pmmu.wordAddr w.resetVector))) (hi : i.resetI = true)
    (hs : s.seq.state = .reset) : EvenPc w (stepCSRs w i s) := by
  obtain ⟨hseq, hdp⟩ := step_reset (w := w) (i := i) hs
  rw [hi, SeqState.clock_reset .fetch hs rfl] at hseq
  have hpc := (congrArg Datapath.pc hdp).trans (vector_pc s.dp _ addOp 0 hw)
  have hst := (congrArg Datapath.storage hdp).trans (vector_storage s.dp _ addOp 0)
  cases hv : s.seq.vectorState with
  | sync0 =>
    rw [hv] at hseq
    apply EvenPc.of_reset (by rw [hseq]; exact hs) <;>
      exact fun h => by simp [hseq, nextVector] at h
  | vector0 =>
    rw [hv] at hseq hpc
    refine EvenPc.of_reset (by rw [hseq]; exact hs) (fun _ => hpc) ?_ ?_ <;>
      exact fun h => by simp [hseq, nextVector] at h
  | vector1 =>
    rw [hv] at hseq hst
    refine EvenPc.of_reset (by rw [hseq]; exact hs) ?_ (fun _ => ?_) ?_
    · exact fun h => by simp [hseq, nextVector] at h
    · rw [hst, vectorStorage, h.vector1 hs hv]
      exact hvector
    · exact fun h => by simp [hseq, nextVector] at h
  | vector2 =>
    rw [hv] at hseq hpc
    refine EvenPc.of_reset (by rw [hseq]; exact hs) ?_ ?_ (fun _ => ?_)
    · exact fun h => by simp [hseq, nextVector] at h
    · exact fun h => by simp [hseq, nextVector] at h
    · rw [hpc]
      exact h.vector2 hs hv
  | vector3 =>
    rw [hv] at hseq hpc
    refine EvenPc.of_fetch (by rw [hseq]; rfl) ?_
    rw [hpc]
    exact h.vector3 hs hv

/-- **Every edge but an odd jalr keeps it**, if the reset vector and mtvec are even. -/
theorem EvenPc.step (h : EvenPc w s) (hw : w.SelectsRdCSR) (hw' : w.SelectsResetAdr id)
    (hvector : s.seq.state = .reset → IsEven (s.dp.mem (Pmmu.wordAddr w.resetVector)))
    (hmtvec : IsEven s.csrs.mtvec) (hj : ¬ OddJalr w s) : EvenPc w (stepCSRs w i s) := by
  cases hi : i.resetI with
  | false =>
    have hseq : (stepCSRs w i s).seq = { s.seq with state := .reset, vectorState := .sync0 } := by
      simp [stepCSRs, clock, hi, SeqState.clock_low]
    apply EvenPc.of_reset (by rw [hseq]) <;> exact fun hv => by simp [hseq] at hv
  | true =>
    rcases h.state with hs | hs | hs | hs
    · exact h.reset hw' (hvector hs) hi hs
    · rw [step_fetch hi hs]
      exact EvenPc.of_decode rfl (h.pc (.inl hs)) (h.pc (.inl hs))
    · rw [step_decode hi hs]
      refine EvenPc.of_execute rfl ?_ (h.pcPrior (.inl hs)) ?_
      · change IsEven (s.dp.clock w decodeControl).pc
        rw [decode_pc]
        exact (h.pc (.inr (.inl hs))).add rfl
      · change Expected _ (s.dp.clock w decodeControl).ir
        rw [Datapath.clock_ir rfl]
        exact expected_decodeNext _
    · exact h.execute hw hmtvec hj hi hs

end EvenPc

/-- The states that write a link value to rd. -/
def links : InstructionState → Bool
  | .itJalrRtr | .jtJalRtr => true
  | _ => false

/-- The datapath does not see reset. -/
theorem dp_shared {w : Wiring} {i : Input} {s : CsrCore} (hs : s.seq.state = .execute)
    (hsh : shared s.seq.irState) : (stepCSRs w i s).dp = s.dp.exec w s.seq.irState := by
  have hx := execute_shared (m := s.matrix.sample i) (by simpa using hsh) s.dp.ir s.dp.aluFlags
    s.dp.rsa s.dp.pc
  simp only [CsrMatrix.sample_seq] at hx
  simp only [stepCSRs, comb, CsrMatrix.sample_seq, hs, hx]
  cases executeNext s.seq.irState s.dp.ir <;> rfl

theorem EvenPc.link {w : Wiring} {i : Input} {s : CsrCore} (h : EvenPc w s)
    (hs : s.seq.state = .execute) (hl : links s.seq.irState) :
    IsEven ((stepCSRs w i s).dp.bank.read (dstRg s.dp.ir)) := by
  have hprior := h.pcPrior (.inr hs)
  have hbank : (stepCSRs w i s).dp.bank =
      s.dp.bank.write rgLdEnabled (dstRg s.dp.ir) (s.dp.pcPrior + 4) := by
    cases hp : s.seq.irState with
    | itJalrRtr | jtJalRtr => rw [dp_shared hs (by rw [hp]; rfl), exec_bank, hp]
    | _ => exact absurd hl (by rw [hp]; decide)
  rw [hbank, Bank.read]
  split
  · rfl
  · next h0 =>
    simp only [Bank.write, h0, ne_eq, not_false_eq_true, and_self, if_true, Function.update_self]
    exact hprior.add rfl

section Parity
variable {undef resetVector : Word} {s : CsrCore} {inp : ℕ → Input}

theorem evenPc_run (hreset : (inp 0).resetI = false) {n : ℕ} (hn : 0 < n)
    (hvector : ∀ k, 0 < k → k < n →
      (trace (stepCSRs (Wiring.rangerRiscCSRs undef resetVector)) s inp k).seq.state = .reset →
      IsEven ((trace (stepCSRs (Wiring.rangerRiscCSRs undef resetVector)) s inp k).dp.mem
        (Pmmu.wordAddr resetVector)))
    (hmtvec : ∀ k, 0 < k → k < n →
      IsEven (trace (stepCSRs (Wiring.rangerRiscCSRs undef resetVector)) s inp k).csrs.mtvec)
    (hjalr : ∀ k, 0 < k → k < n → ¬ OddJalr (Wiring.rangerRiscCSRs undef resetVector)
      (trace (stepCSRs (Wiring.rangerRiscCSRs undef resetVector)) s inp k)) :
    EvenPc (Wiring.rangerRiscCSRs undef resetVector)
      (trace (stepCSRs (Wiring.rangerRiscCSRs undef resetVector)) s inp n) := by
  have hseq : (trace (stepCSRs (Wiring.rangerRiscCSRs undef resetVector)) s inp 1).seq =
      { s.seq with state := .reset, vectorState := .sync0 } := by
    simp [trace_succ, stepCSRs, clock, hreset, SeqState.clock_low]
  have hstart : EvenPc (Wiring.rangerRiscCSRs undef resetVector)
      (trace (stepCSRs (Wiring.rangerRiscCSRs undef resetVector)) s inp 1) := by
    apply EvenPc.of_reset (by rw [hseq]) <;> exact fun hv => by simp [hseq] at hv
  obtain ⟨m, rfl⟩ : ∃ m, n = 1 + m := ⟨n - 1, by omega⟩
  rw [trace_add]
  apply trace_invariant_until hstart _ m (Nat.le_refl m)
  intro k hk heven
  rw [trace_succ]
  rw [← trace_add] at heven ⊢
  exact heven.step (fun _ _ _ _ => rfl) (fun _ _ _ _ => rfl) (hvector (1 + k) (by omega) (by omega))
    (hmtvec (1 + k) (by omega) (by omega)) (hjalr (1 + k) (by omega) (by omega))

/-- **pc stays even.** From any state, once reset has been sampled, with an even word at the reset
vector and even values in mtvec: as long as no jalr has an odd target, pc is even in Fetch, and
rd is after the state that writes a link value to it. -/
theorem pc_parity (hreset : (inp 0).resetI = false) {n : ℕ} (hn : 0 < n)
    (hvector : ∀ k, 0 < k → k < n →
      (trace (stepCSRs (Wiring.rangerRiscCSRs undef resetVector)) s inp k).seq.state = .reset →
      IsEven ((trace (stepCSRs (Wiring.rangerRiscCSRs undef resetVector)) s inp k).dp.mem
        (Pmmu.wordAddr resetVector)))
    (hmtvec : ∀ k, 0 < k → k < n →
      IsEven (trace (stepCSRs (Wiring.rangerRiscCSRs undef resetVector)) s inp k).csrs.mtvec)
    (hjalr : ∀ k, 0 < k → k < n → ¬ OddJalr (Wiring.rangerRiscCSRs undef resetVector)
      (trace (stepCSRs (Wiring.rangerRiscCSRs undef resetVector)) s inp k)) :
    ((trace (stepCSRs (Wiring.rangerRiscCSRs undef resetVector)) s inp n).seq.state = .fetch →
      IsEven (trace (stepCSRs (Wiring.rangerRiscCSRs undef resetVector)) s inp n).dp.pc) ∧
    ((trace (stepCSRs (Wiring.rangerRiscCSRs undef resetVector)) s inp n).seq.state = .execute →
      links (trace (stepCSRs (Wiring.rangerRiscCSRs undef resetVector)) s inp n).seq.irState →
      IsEven ((trace (stepCSRs (Wiring.rangerRiscCSRs undef resetVector)) s inp
        (n + 1)).dp.bank.read
        (dstRg (trace (stepCSRs (Wiring.rangerRiscCSRs undef resetVector)) s inp n).dp.ir))) := by
  have heven := evenPc_run hreset hn hvector hmtvec hjalr
  constructor
  · intro hs
    exact heven.pc (.inl hs)
  · intro hs hl
    exact heven.link hs hl

end Parity

instance (w : Wiring) : DecidablePred (OddJalr w) := fun _ =>
  inferInstanceAs (Decidable (_ ∧ _ ∧ _))

/-- The reset vector 0 holds 8, all other words are `word`. -/
def programOf (word : Word) : CsrCore :=
  { resting word ⟨false, false, false⟩ with
    dp := { Datapath.filled word with mem := fun a => if a = 0#10 then 8 else word } }

/-- `jalr x1, 4(x1)` everywhere, from address 8 on: to 4 and from there to 16, with the link 8. -/
theorem pc_parity_jalr :
    IsEven ((trace (stepCSRs (Wiring.rangerRiscCSRs 0 0)) (programOf 0x004080E7) resetOnce
        15).dp.bank.read 1) ∧
      (trace (stepCSRs (Wiring.rangerRiscCSRs 0 0)) (programOf 0x004080E7) resetOnce
        15).dp.bank.read 1 = 8 ∧
    IsEven (trace (stepCSRs (Wiring.rangerRiscCSRs 0 0)) (programOf 0x004080E7) resetOnce
        16).dp.pc ∧
      (trace (stepCSRs (Wiring.rangerRiscCSRs 0 0)) (programOf 0x004080E7) resetOnce
        16).dp.pc = 16 := by
  have hreset : (resetOnce 0).resetI = false := rfl
  have hvector : ∀ k < 16, IsEven ((trace (stepCSRs (Wiring.rangerRiscCSRs 0 0))
      (programOf 0x004080E7) resetOnce k).dp.mem (Pmmu.wordAddr 0)) := by decide +kernel
  have hmtvec : ∀ k < 16, IsEven (trace (stepCSRs (Wiring.rangerRiscCSRs 0 0))
      (programOf 0x004080E7) resetOnce k).csrs.mtvec := by decide +kernel
  have hjalr : ∀ k < 16, ¬ OddJalr (Wiring.rangerRiscCSRs 0 0)
      (trace (stepCSRs (Wiring.rangerRiscCSRs 0 0)) (programOf 0x004080E7) resetOnce k) := by
    decide +kernel
  have hrd : dstRg (trace (stepCSRs (Wiring.rangerRiscCSRs 0 0)) (programOf 0x004080E7) resetOnce
      14).dp.ir = 1 := by decide +kernel
  have h14 : 14 < 16 := by decide
  have hlink := (pc_parity hreset (n := 14) (by decide)
    (fun k _ hk _ => hvector k (hk.trans h14)) (fun k _ hk => hmtvec k (hk.trans h14))
    (fun k _ hk => hjalr k (hk.trans h14))).2 (by decide +kernel) (by decide +kernel)
  rw [hrd] at hlink
  have hfetch := (pc_parity hreset (n := 16) (by decide) (fun k _ hk _ => hvector k hk)
    (fun k _ hk => hmtvec k hk) (fun k _ hk => hjalr k hk)).1 (by decide +kernel)
  exact ⟨hlink, by decide +kernel, hfetch, by decide +kernel⟩

/-- `jalr x0, 1(x0)` is followed by a Fetch at 1. -/
theorem pc_odd :
    ¬ ∀ (undef resetVector : Word) (s : CsrCore) (inp : ℕ → Input) (n : ℕ),
      (inp 0).resetI = false → 0 < n →
      (∀ k < n, IsEven ((trace (stepCSRs (Wiring.rangerRiscCSRs undef resetVector)) s inp k).dp.mem
        (Pmmu.wordAddr resetVector))) →
      (∀ k < n,
        IsEven (trace (stepCSRs (Wiring.rangerRiscCSRs undef resetVector)) s inp k).csrs.mtvec) →
      (trace (stepCSRs (Wiring.rangerRiscCSRs undef resetVector)) s inp n).seq.state = .fetch →
      IsEven (trace (stepCSRs (Wiring.rangerRiscCSRs undef resetVector)) s inp n).dp.pc := by
  intro h
  have heven := h 0 0 (programOf 0x00100067) resetOnce 10 rfl (by decide) (by decide +kernel)
    (by decide +kernel) (by decide +kernel)
  exact absurd heven (by decide +kernel)

end ControlMatrixCSRs

end RangerRisc
