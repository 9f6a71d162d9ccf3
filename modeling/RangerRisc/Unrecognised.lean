import RangerRisc.Transfers

/-! What `modules/RangerRiscCSRs.sv` makes of an instruction it does not know. Decode names no
state for it and `next_ir_state` keeps its default, ITLoad: it is executed as a load. -/

namespace RangerRisc

open Clocked
open Rv32i (RegFile)

namespace ControlMatrixCSRs

/-- An opcode that Decode does not list, or SYSTEM with none of the functions it knows. -/
def Unrecognised (ir : Word) : Prop :=
  irOpcode ir = .unknown ∨
    irOpcode ir = .iTypeE ∧ funct3 ir = 0b000#3 ∧ funct12 ir ≠ 0x000#12 ∧ funct12 ir ≠ 0x001#12 ∧
      funct12 ir ≠ 0x302#12

/-- The address that such an instruction reads: `imm_src` selects the zero for an unknown opcode
and the I-type immediate for SYSTEM. -/
def strayAddr (ir : Word) (a : Arch) : Word :=
  if irOpcode ir = .unknown then srcA ir a else srcA ir a + immI ir

/-- What it reads there. -/
def strayData (ir : Word) (a : Arch) : Word :=
  Pmmu.loadData (funct3 ir) (strayAddr ir a) (a.mem (Pmmu.wordAddr (strayAddr ir a)))

section Unrecognised
variable {ir : Word} {a : Arch}

theorem Unrecognised.decodeNext_eq (h : Unrecognised ir) :
    decodeNext (csrSystem ir) ir = .itLoad := by
  unfold decodeNext
  rcases h with ho | ⟨ho, hf, h0, h1, h2⟩
  · rw [ho]
  · simp [ho, csrSystem, isCSRInstr, hf, h0, h1, h2]

theorem Unrecognised.loads (h : Unrecognised ir) : loads ir := by
  rcases h with ho | ⟨ho, -⟩
  · exact .inr (.inl ho)
  · exact .inr (.inr ho)

theorem Unrecognised.effAddr (h : Unrecognised ir) (undef : Word) :
    effAddr undef ir a = strayAddr ir a := by
  rcases h with ho | ⟨ho, -⟩
  · simp [RangerRisc.effAddr, strayAddr, immediate, immSrc, ho, mux8]
  · simp [RangerRisc.effAddr, strayAddr, immediate, immSrc, ho, mux8]

/-- The load that is executed instead. -/
theorem Unrecognised.instrStep_eq (h : Unrecognised ir) (undef : Word) :
    instrStep undef ir a = ⟨a.pc + 4, a.regs.write (dstRg ir) (strayData ir a), a.mem⟩ := by
  have hresult : result undef ir a = strayData ir a := by
    rw [strayData, ← h.effAddr undef]
    rcases h with ho | ⟨ho, -⟩ <;> simp [result, ho]
  rcases h with ho | ⟨ho, -⟩
  · simp [instrStep, nextPc, writesRd, ho, hresult]
  · simp [instrStep, nextPc, writesRd, ho, hresult]

end Unrecognised

/-! ## From boundary to boundary -/

section Boundary
variable {w : Wiring} {s : CsrCore} {inp : ℕ → Input}

theorem unrecognised_chain (hinp : High inp) (hb : AtPreFetch s) (ha : accepts s.matrix = false)
    (hu : Unrecognised s.dp.arch.fetched) :
    ∃ n, FirstReturn (stepCSRs w) AtPreFetch s inp n ∧
      (trace (stepCSRs w) s inp n).dp.arch = instrStep w.undef s.dp.arch.fetched s.dp.arch := by
  have h1 : trace (stepCSRs w) s inp 1 = _ := step_preFetch (hinp 0) hb.1 hb.2 ha
  have h2 : trace (stepCSRs w) s inp 2 = _ :=
    step_fetch (s := trace (stepCSRs w) s inp 1) (hinp 1) (by rw [h1]; rfl)
  have h3 : trace (stepCSRs w) s inp 3 = _ :=
    step_decode (s := trace (stepCSRs w) s inp 2) (hinp 2) (by rw [h2]; rfl)
  have hready : Ready s.dp.arch (trace (stepCSRs w) s inp 1).dp := by
    rw [h1]
    exact ready_preFetch addOp 0
  have hfetched : Fetched s.dp.arch (trace (stepCSRs w) s inp 2).dp := by
    rw [h2]
    exact hready.fetch addOp 0
  have hdecoded : Decoded s.dp.arch.fetched s.dp.arch (trace (stepCSRs w) s inp 3).dp := by
    rw [h3]
    exact hfetched.decode
  have hexec : (trace (stepCSRs w) s inp 3).seq.state = .execute := by
    rw [h3]
    rfl
  have hload : (trace (stepCSRs w) s inp 3).seq.irState = .itLoad := by
    rw [h3, hfetched.ir_eq]
    exact hu.decodeNext_eq
  obtain ⟨l, e, hrun, harch⟩ := completes_itLoad hdecoded hu.loads
  obtain ⟨n, hl, he, hpath⟩ : ∃ n, (trace (stepCSRs w) s inp (3 + n)).seq.irState = l ∧
      (trace (stepCSRs w) s inp (3 + n)).dp = e ∧
      ∀ k ≤ n, (trace (stepCSRs w) s inp (3 + k)).seq.state = .execute ∧
        shared (trace (stepCSRs w) s inp (3 + k)).seq.irState := by
    simp only [trace_add]
    exact (sequences w).execute_chain hrun (hinp.shift 3) hexec hload rfl
  obtain ⟨hlast, hsh⟩ := hpath n (Nat.le_refl n)
  have hdone : executeNext (trace (stepCSRs w) s inp (3 + n)).seq.irState
      (trace (stepCSRs w) s inp (3 + n)).dp.ir = .done := by
    rw [hl, he]
    exact hrun.last_done
  have hend : trace (stepCSRs w) s inp (3 + n + 1) = _ := step_done (hinp (3 + n)) hlast hsh hdone
  have hbusy : ∀ k, 0 < k → k ≤ 3 + n → Busy (trace (stepCSRs w) s inp k) := by
    intro k hk hkn
    obtain rfl | rfl | ⟨j, rfl⟩ : k = 1 ∨ k = 2 ∨ ∃ j, k = 3 + j := by
      rcases Nat.lt_or_ge k 3 with h | h
      · omega
      · exact .inr (.inr ⟨k - 3, by omega⟩)
    · exact .inl (by rw [h1]; rfl)
    · exact .inr (.inl (by rw [h2]; rfl))
    · exact .inr (.inr (hpath j (by omega)))
  refine ⟨3 + n + 1, ⟨by omega, ?_, ?_⟩, ?_⟩
  · rw [hend]
    exact ⟨rfl, rfl⟩
  · intro k hk hkn
    exact (hbusy k hk (by omega)).not_preFetch
  · rw [hend, hl, he]
    exact harch

/-- **An unrecognised instruction is harmless** exactly when the load that is executed in its place
has nowhere to go or brings what its register holds already. pc and memory are never the matter. -/
theorem unrecognised_harmless_iff (hb : AtPreFetch s)
    (hinp : UntilReturn (stepCSRs w) AtPreFetch s inp fun i => i.resetI = true)
    (ha : accepts s.matrix = false) (hu : Unrecognised s.dp.arch.fetched) :
    (∃ n, FirstReturn (stepCSRs w) AtPreFetch s inp n ∧
      (trace (stepCSRs w) s inp n).dp.arch = { s.dp.arch with pc := s.dp.pc + 4 }) ↔
    dstRg s.dp.arch.fetched = 0#5 ∨
      strayData s.dp.arch.fetched s.dp.arch = s.dp.arch.regs (dstRg s.dp.arch.fetched) := by
  obtain ⟨inp', hhigh, hsame⟩ := hinp.exists_always (q := fun i : Input => i.resetI = true)
    ⟨true, false⟩ rfl
  obtain ⟨n, hret, harch⟩ := unrecognised_chain (w := w) hhigh hb ha hu
  have heq := trace_congr (stepCSRs w) s inp' (hsame n hret)
  rw [heq, hu.instrStep_eq] at harch
  have hret' := hret.congr (hsame n hret)
  rw [← RegFile.write_eq_iff]
  constructor
  · rintro ⟨m, hm, hkept⟩
    obtain rfl := hm.unique hret'
    exact congrArg Arch.regs (harch.symm.trans hkept)
  · intro hkept
    rw [hkept] at harch
    exact ⟨n, hret', harch⟩

/-- FENCE (0x0000000F) reads into x0. -/
theorem unrecognised_harmless_fence :
    ∃ n, FirstReturn (stepCSRs (Wiring.rangerRiscCSRs 0 0)) AtPreFetch
        (resting 0x0000000F ⟨false, false, false⟩) (fun _ => ⟨true, false⟩) n ∧
      (trace (stepCSRs (Wiring.rangerRiscCSRs 0 0)) (resting 0x0000000F ⟨false, false, false⟩)
        (fun _ => ⟨true, false⟩) n).dp.arch =
        { (resting 0x0000000F ⟨false, false, false⟩).dp.arch with pc := 0 + 4 } :=
  (unrecognised_harmless_iff ⟨rfl, rfl⟩ (fun _ _ => rfl) rfl (.inl (by decide))).mpr
    (.inl (by decide))

/-- 0x0000008F, FENCE with `rd` = 1, loads the low byte of the word at 0, which is itself. -/
theorem unrecognised_loads :
    ¬ ∀ (w : Wiring) (s : CsrCore) (inp : ℕ → Input), AtPreFetch s →
      UntilReturn (stepCSRs w) AtPreFetch s inp (fun i => i.resetI = true) →
      accepts s.matrix = false → Unrecognised s.dp.arch.fetched →
      ∃ n, FirstReturn (stepCSRs w) AtPreFetch s inp n ∧
        (trace (stepCSRs w) s inp n).dp.arch = { s.dp.arch with pc := s.dp.pc + 4 } := by
  intro h
  have hu : Unrecognised (resting 0x0000008F ⟨false, false, false⟩).dp.arch.fetched :=
    .inl (by decide)
  have hhigh : UntilReturn (stepCSRs (Wiring.rangerRiscCSRs 0 0)) AtPreFetch
      (resting 0x0000008F ⟨false, false, false⟩) (fun _ => ⟨true, false⟩)
      fun i => i.resetI = true := fun _ _ => rfl
  obtain ⟨n, hret, hkept⟩ := h (Wiring.rangerRiscCSRs 0 0) _ _ ⟨rfl, rfl⟩ hhigh rfl hu
  obtain ⟨m, hret', harch⟩ := @unrecognised_chain (Wiring.rangerRiscCSRs 0 0) _
    (fun _ => ⟨true, false⟩) (fun _ => rfl) ⟨rfl, rfl⟩ rfl hu
  obtain rfl := hret.unique hret'
  rw [hkept, hu.instrStep_eq] at harch
  have hreg := congrArg (fun a : Arch => a.regs 1) harch
  exact absurd hreg (by decide)

end Boundary

end ControlMatrixCSRs

end RangerRisc
