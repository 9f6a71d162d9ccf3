import RangerRisc.Transfers
import RangerRisc.Lib.Zicsr

/-! The CSR instructions on `modules/RangerRiscCSRs.sv`, from one boundary to the next. ITCSR
hands the old value to `rd`, ITCSRLd writes the new one; two forms leave one of them out. -/

namespace RangerRisc

open Clocked

/-! ## The CSRs as registers with addresses -/

/-- The CSRs there are. -/
def CsrRegs.implemented (addr : BitVec 12) : Prop :=
  addr = Csr.mstatus ∨ addr = Csr.mie ∨ addr = Csr.mtvec ∨ addr = Csr.mepc ∨ addr = Csr.mip

theorem CsrRegs.read_write_self (r : CsrRegs) {addr : BitVec 12} (h : implemented addr)
    (data : Word) : (r.write addr data).read addr = data := by
  rcases h with rfl | rfl | rfl | rfl | rfl <;> rfl

theorem CsrRegs.read_setMip (r : CsrRegs) {addr : BitVec 12} (h : addr ≠ Csr.mip) (b : Bool) :
    (r.setMip b).read addr = r.read addr := by
  simp only [read, setMip, h, if_false]

/-! ## The fields of a CSR instruction -/

section Fields
variable {ir : Word} {i : Zicsr.Instr}

/-- The slices of the matrices find the parts of the instruction. -/
structure CsrFields (ir : Word) (i : Zicsr.Instr) : Prop where
  opcode : irOpcode ir = .iTypeE
  funct3 : funct3 ir = i.funct3
  dstRg : dstRg ir = i.rd
  rs1 : rs1 ir = i.source
  funct12 : funct12 ir = i.addr

theorem csrFields (h : Zicsr.decode ir = some i) : CsrFields ir i := by
  have hf := Zicsr.decode_funct3 h
  unfold Zicsr.decode at h
  split_ifs at h with hop
  obtain ⟨op, -, rfl⟩ := Option.map_eq_some_iff.mp h
  exact ⟨irOpcode_eq hop, hf, rfl, rfl, rfl⟩

theorem CsrFields.isCSRInstr (h : CsrFields ir i) : isCSRInstr ir := by
  simp [RangerRisc.isCSRInstr, h.opcode, h.funct3, i.funct3_ne_zero]

theorem CsrFields.csrLdData (h : CsrFields ir i) (rsa old : Word) :
    csrLdData ir rsa old =
      i.op.eval old (if i.immediate then i.source.setWidth 32 else rsa) := by
  have himm : csrImmediate ir = i.source.setWidth 32 := congrArg _ h.rs1
  have hcsr := h.isCSRInstr
  have hf := h.funct3
  cases i with
  | mk op immediate rd source addr =>
    cases immediate <;> cases op <;>
      simp_all [RangerRisc.csrLdData, algoData, Zicsr.Instr.funct3, Zicsr.Op.eval, BitVec.or_comm,
        BitVec.and_comm]

/-- csrrw to x0 is the only CSR instruction that does not read. -/
theorem CsrFields.csrDataRead (h : CsrFields ir i) (r : CsrRegs) (rsa : Word) :
    csrDataRead r (RangerRisc.funct12 ir) ir rsa =
      if i.op = .write ∧ i.immediate = false ∧ i.rd = 0#5 then rsa else r.read i.addr := by
  have hf := h.funct3
  rw [RangerRisc.csrDataRead, if_pos h.isCSRInstr, h.dstRg, h.funct12, hf]
  cases i with
  | mk op immediate rd source addr =>
    cases immediate <;> cases op <;> simp [Zicsr.Instr.funct3]

end Fields

namespace ControlMatrixCSRs

section Action
variable {ir : Word} {i : Zicsr.Instr}

theorem CsrFields.action (h : CsrFields ir i) :
    action ir = csrAction (i.rd == 0#5) (i.source == 0#5) i.funct3 := by
  simp [ControlMatrixCSRs.action, h.isCSRInstr, h.dstRg, h.rs1, h.funct3]

/-- With a source ITCSR writes at once or hands the old value over. -/
theorem CsrFields.action_source (h : CsrFields ir i)
    (hsrc : i.op = .write ∨ i.immediate = true ∨ i.source ≠ 0#5) :
    ControlMatrixCSRs.action ir =
      if i.op = .write ∧ i.immediate = false ∧ i.rd = 0#5 then .write else .transfer := by
  rw [CsrFields.action h]
  cases i with
  | mk op immediate rd source addr =>
    cases immediate <;> cases op <;> simp_all [Zicsr.Instr.funct3, csrAction]

/-- The set and clear forms without a source do nothing in ITCSR. -/
theorem CsrFields.action_skip (h : CsrFields ir i) (hop : i.op ≠ .write)
    (himm : i.immediate = false) (hsrc : i.source = 0#5) : ControlMatrixCSRs.action ir = .skip := by
  rw [CsrFields.action h]
  cases i with
  | mk op immediate rd source addr => cases op <;> simp_all [Zicsr.Instr.funct3, csrAction]

end Action

/-! ## The edges -/

/-- The CSRs `r` after an edge, an interrupt that is latched in `m` being pending by then. -/
def latched (m : CsrMatrix) (r : CsrRegs) : CsrRegs := if pends m then r.setMip true else r

theorem read_latched {addr : BitVec 12} (h : addr ≠ Csr.mip) (m : CsrMatrix) (r : CsrRegs) :
    (latched m r).read addr = r.read addr := by
  unfold latched
  split
  · exact r.read_setMip h true
  · rfl

section Edges
variable (undef resetVector : Word) {s : CsrCore} {input : Input} {i : Zicsr.Instr}

/-- ITCSR and ITCSRLd keep RsA, so that ITCSRLd still has what Decode loaded. -/
theorem clock_csrControl (d : Datapath) :
    (d.clock (Wiring.rangerRiscCSRs undef resetVector) csrControl).arch = d.arch ∧
      (d.clock (Wiring.rangerRiscCSRs undef resetVector) csrControl).rsa = d.rsa ∧
      (d.clock (Wiring.rangerRiscCSRs undef resetVector) csrControl).ir = d.ir := by
  simp [Datapath.arch, Datapath.clock, csrControl, Control.idle, register, Wiring.rangerRiscCSRs]

theorem clock_transfer (d : Datapath) (data : Word) :
    (d.clock (Wiring.rangerRiscCSRs undef resetVector) (transferControl data)).arch =
        { d.arch with regs := d.arch.regs.write (dstRg d.ir) data } ∧
      (d.clock (Wiring.rangerRiscCSRs undef resetVector) (transferControl data)).rsa = d.rsa ∧
      (d.clock (Wiring.rangerRiscCSRs undef resetVector) (transferControl data)).ir = d.ir := by
  refine ⟨?_, rfl, rfl⟩
  ext1
  · rfl
  · exact Bank.toRegFile_write d.bank (dstRg d.ir) data
  · rfl

/-- csrrw to x0: ITCSR writes what RsA has. -/
theorem edge_write (hi : input.resetI = true) (hs : s.seq.state = .execute)
    (hp : s.seq.irState = .itCsr) (hf : CsrFields s.dp.ir i)
    (hblind : i.op = .write ∧ i.immediate = false ∧ i.rd = 0#5) :
    AtPreFetch (stepCSRs (Wiring.rangerRiscCSRs undef resetVector) input s) ∧
      (stepCSRs (Wiring.rangerRiscCSRs undef resetVector) input s).dp.arch = s.dp.arch ∧
      (stepCSRs (Wiring.rangerRiscCSRs undef resetVector) input s).csrs =
        latched (s.matrix.sample input) (s.csrs.write i.addr s.dp.rsa) := by
  have hact : action s.dp.ir = .write := by
    rw [CsrFields.action_source hf (.inl hblind.1), if_pos hblind]
  rw [step_itCsr_write hi hs hp hact]
  refine ⟨⟨rfl, rfl⟩, (clock_csrControl undef resetVector s.dp).1, ?_⟩
  rw [csrData, hf.csrDataRead, if_pos hblind, hf.funct12]
  rfl

/-- The other forms: ITCSR hands the old value over, ITCSRLd writes the new one. -/
theorem edge_transfer (hi : input.resetI = true) (hs : s.seq.state = .execute)
    (hp : s.seq.irState = .itCsr) (hf : CsrFields s.dp.ir i)
    (hsrc : i.op = .write ∨ i.immediate = true ∨ i.source ≠ 0#5)
    (hblind : ¬ (i.op = .write ∧ i.immediate = false ∧ i.rd = 0#5)) :
    (stepCSRs (Wiring.rangerRiscCSRs undef resetVector) input s).seq.state = .execute ∧
      (stepCSRs (Wiring.rangerRiscCSRs undef resetVector) input s).seq.irState = .itCsrLd ∧
      (stepCSRs (Wiring.rangerRiscCSRs undef resetVector) input s).dp.arch =
        { s.dp.arch with regs := s.dp.arch.regs.write i.rd (s.csrs.read i.addr) } ∧
      (stepCSRs (Wiring.rangerRiscCSRs undef resetVector) input s).dp.rsa = s.dp.rsa ∧
      (stepCSRs (Wiring.rangerRiscCSRs undef resetVector) input s).dp.ir = s.dp.ir ∧
      MovesOn input s (stepCSRs (Wiring.rangerRiscCSRs undef resetVector) input s) := by
  have hact : action s.dp.ir = .transfer := by
    rw [CsrFields.action_source hf hsrc, if_neg hblind]
  obtain ⟨harch, hrsa, hir⟩ :=
    clock_transfer undef resetVector s.dp (csrData s.matrix s.dp.ir s.dp.rsa)
  rw [csrData, hf.csrDataRead, if_neg hblind, hf.dstRg] at harch
  rw [step_itCsr_transfer hi hs hp hact, csrData, hf.csrDataRead, if_neg hblind]
  exact ⟨rfl, rfl, harch, hrsa, hir, _, _, rfl⟩

theorem edge_csrLd (hi : input.resetI = true) (hs : s.seq.state = .execute)
    (hp : s.seq.irState = .itCsrLd) (hf : CsrFields s.dp.ir i)
    (hblind : ¬ (i.op = .write ∧ i.immediate = false ∧ i.rd = 0#5)) :
    AtPreFetch (stepCSRs (Wiring.rangerRiscCSRs undef resetVector) input s) ∧
      (stepCSRs (Wiring.rangerRiscCSRs undef resetVector) input s).dp.arch = s.dp.arch ∧
      (stepCSRs (Wiring.rangerRiscCSRs undef resetVector) input s).csrs =
        latched (s.matrix.sample input) (s.csrs.write i.addr (i.op.eval (s.csrs.read i.addr)
          (if i.immediate then i.source.setWidth 32 else s.dp.rsa))) := by
  rw [step_itCsrLd hi hs hp]
  refine ⟨⟨rfl, rfl⟩, (clock_csrControl undef resetVector s.dp).1, ?_⟩
  rw [csrData, hf.csrDataRead, if_neg hblind, hf.csrLdData, hf.funct12]
  rfl

/-- Without a source the set and clear forms are over with ITCSR. -/
theorem edge_skip (hi : input.resetI = true) (hs : s.seq.state = .execute)
    (hp : s.seq.irState = .itCsr) (hf : CsrFields s.dp.ir i) (hop : i.op ≠ .write)
    (himm : i.immediate = false) (hsrc : i.source = 0#5) :
    AtPreFetch (stepCSRs (Wiring.rangerRiscCSRs undef resetVector) input s) ∧
      (stepCSRs (Wiring.rangerRiscCSRs undef resetVector) input s).dp.arch = s.dp.arch ∧
      MovesOn input s (stepCSRs (Wiring.rangerRiscCSRs undef resetVector) input s) := by
  rw [step_itCsr_skip hi hs hp (CsrFields.action_skip hf hop himm hsrc)]
  exact ⟨⟨rfl, rfl⟩, (clock_csrControl undef resetVector s.dp).1, _, _, rfl⟩

end Edges

/-! ## From boundary to boundary -/

section Chain
variable (undef resetVector : Word) {s : CsrCore} {inp : ℕ → Input} {i : Zicsr.Instr}

/-- PreFetch, Fetch and Decode lead to ITCSR. -/
theorem to_itCsr {w : Wiring} (hinp : High inp) (hb : AtPreFetch s)
    (ha : accepts s.matrix = false) (h : CsrFields s.dp.arch.fetched i) :
    (trace (stepCSRs w) s inp 3).seq.state = .execute ∧
      (trace (stepCSRs w) s inp 3).seq.irState = .itCsr ∧
      Decoded s.dp.arch.fetched s.dp.arch (trace (stepCSRs w) s inp 3).dp ∧
      (∀ k < 3, MovesOn (inp k) (trace (stepCSRs w) s inp k) (trace (stepCSRs w) s inp (k + 1))) ∧
      ∀ k, 0 < k → k ≤ 3 → ¬ AtPreFetch (trace (stepCSRs w) s inp k) := by
  have h1 : trace (stepCSRs w) s inp 1 = _ := step_preFetch (hinp 0) hb.1 hb.2 ha
  have hs1 : (trace (stepCSRs w) s inp 1).seq.state = .fetch := by rw [h1]; rfl
  have hready : Ready s.dp.arch (trace (stepCSRs w) s inp 1).dp := by
    rw [h1]
    exact ready_preFetch addOp 0
  have h2 : trace (stepCSRs w) s inp 2 = _ := step_fetch (hinp 1) hs1
  have hs2 : (trace (stepCSRs w) s inp 2).seq.state = .decode := by rw [h2]; rfl
  have hfetched : Fetched s.dp.arch (trace (stepCSRs w) s inp 2).dp := by
    rw [h2]
    exact hready.fetch addOp 0
  have h3 : trace (stepCSRs w) s inp 3 = _ := step_decode (hinp 2) hs2
  have hdecoded : Decoded s.dp.arch.fetched s.dp.arch (trace (stepCSRs w) s inp 3).dp := by
    rw [h3]
    exact hfetched.decode
  have hs3 : (trace (stepCSRs w) s inp 3).seq.irState = .itCsr := by
    rw [h3]
    change decodeNext (csrSystem (trace (stepCSRs w) s inp 2).dp.ir)
      (trace (stepCSRs w) s inp 2).dp.ir = .itCsr
    rw [hfetched.ir_eq, decodeNext, h.opcode, csrSystem, if_pos h.isCSRInstr]
  have hs3' : (trace (stepCSRs w) s inp 3).seq.state = .execute := by rw [h3]; rfl
  refine ⟨hs3', hs3, hdecoded, ?_, ?_⟩
  · intro k hk
    obtain rfl | rfl | rfl : k = 0 ∨ k = 1 ∨ k = 2 := by omega
    · exact ⟨_, _, by rw [h1, trace_zero]⟩
    · exact ⟨_, _, by rw [h2]⟩
    · exact ⟨_, _, by rw [h3]⟩
  · rintro k hk hk3 ⟨hexec, hpre⟩
    obtain rfl | rfl | rfl : k = 1 ∨ k = 2 ∨ k = 3 := by omega
    · exact MatrixState.noConfusion (hs1.symm.trans hexec)
    · exact MatrixState.noConfusion (hs2.symm.trans hexec)
    · exact InstructionState.noConfusion (hs3.symm.trans hpre)

/-- A CSR instruction that writes. After `m` edges, on which the matrix has only moved on, the
edge that writes is the last one. -/
theorem csr_chain (hinp : High inp) (hb : AtPreFetch s) (ha : accepts s.matrix = false)
    (h : CsrFields s.dp.arch.fetched i)
    (hsrc : i.op = .write ∨ i.immediate = true ∨ i.source ≠ 0#5) :
    let t := trace (stepCSRs (Wiring.rangerRiscCSRs undef resetVector)) s inp
    ∃ m, 3 ≤ m ∧
      FirstReturn (stepCSRs (Wiring.rangerRiscCSRs undef resetVector)) AtPreFetch s inp (m + 1) ∧
      (∀ k < m, MovesOn (inp k) (t k) (t (k + 1))) ∧
      (t (m + 1)).dp.arch =
        ⟨s.dp.pc + 4, s.dp.arch.regs.write i.rd ((t 3).csrs.read i.addr), s.dp.mem⟩ ∧
      (t (m + 1)).csrs = latched ((t m).matrix.sample (inp m)) ((t m).csrs.write i.addr
        (i.op.eval ((t m).csrs.read i.addr) (i.operand s.dp.arch.regs))) := by
  intro t
  obtain ⟨hs3, hp3, hdec, hmoves, hnot⟩ :=
    to_itCsr (w := Wiring.rangerRiscCSRs undef resetVector) hinp hb ha h
  have harch : (t 3).dp.arch = ⟨s.dp.pc + 4, s.dp.arch.regs, s.dp.mem⟩ := by
    ext1
    · exact hdec.pc
    · exact hdec.regs
    · exact hdec.mem
  have hf : CsrFields (t 3).dp.ir i := by
    rw [hdec.ir_eq]
    exact h
  have hrsa : (t 3).dp.rsa = s.dp.arch.regs i.source := by
    rw [hdec.rsa, srcA, h.rs1]
  by_cases hblind : i.op = .write ∧ i.immediate = false ∧ i.rd = 0#5
  · obtain ⟨hb4, harch4, hcsrs4⟩ := edge_write undef resetVector
      (hinp 3) hs3 hp3 hf hblind
    refine ⟨3, Nat.le_refl 3, ⟨by decide, hb4, fun k hk hk4 => hnot k hk (by omega)⟩,
      hmoves, ?_, ?_⟩
    · rw [hblind.2.2, Rv32i.RegFile.write_zero, ← harch]
      exact harch4
    · have hoperand : i.operand s.dp.arch.regs = (t 3).dp.rsa := by
        rw [hrsa, Zicsr.Instr.operand, hblind.2.1, if_neg Bool.false_ne_true]
      rw [hblind.1, Zicsr.Op.eval, hoperand]
      exact hcsrs4
  · obtain ⟨hs4, hp4, harch4, hrsa4, hir4, hmove4⟩ := edge_transfer undef resetVector
      (hinp 3) hs3 hp3 hf hsrc hblind
    have hf4 : CsrFields (t 4).dp.ir i := by
      change CsrFields (stepCSRs _ (inp 3) (t 3)).dp.ir i
      rw [hir4]
      exact hf
    obtain ⟨hb5, harch5, hcsrs5⟩ := edge_csrLd undef resetVector
      (hinp 4) hs4 hp4 hf4 hblind
    refine ⟨4, by decide, ⟨by decide, hb5, ?_⟩, ?_, ?_, ?_⟩
    · intro k hk hk5
      rcases Nat.lt_or_ge k 4 with hk4 | hk4
      · exact hnot k hk (by omega)
      · obtain rfl : k = 4 := by omega
        rintro ⟨-, hpre⟩
        exact InstructionState.noConfusion (hp4.symm.trans hpre)
    · intro k hk
      rcases Nat.lt_or_ge k 3 with hk3 | hk3
      · exact hmoves k hk3
      · obtain rfl : k = 3 := by omega
        exact hmove4
    · refine (harch5.trans harch4).trans ?_
      change ({ (t 3).dp.arch with
        regs := (t 3).dp.arch.regs.write i.rd ((t 3).csrs.read i.addr) } : Arch) = _
      rw [harch]
    · rw [Zicsr.Instr.operand, ← hrsa, ← hrsa4]
      exact hcsrs5

/-- A set or clear form without a source drops the value it reads. -/
theorem skip_chain (hinp : High inp) (hb : AtPreFetch s) (ha : accepts s.matrix = false)
    (h : CsrFields s.dp.arch.fetched i) (hop : i.op ≠ .write) (himm : i.immediate = false)
    (hsrc : i.source = 0#5) :
    let t := trace (stepCSRs (Wiring.rangerRiscCSRs undef resetVector)) s inp
    FirstReturn (stepCSRs (Wiring.rangerRiscCSRs undef resetVector)) AtPreFetch s inp 4 ∧
      (∀ k < 4, MovesOn (inp k) (t k) (t (k + 1))) ∧
      (t 4).dp.arch = ⟨s.dp.pc + 4, s.dp.arch.regs, s.dp.mem⟩ := by
  intro t
  obtain ⟨hs3, hp3, hdec, hmoves, hnot⟩ :=
    to_itCsr (w := Wiring.rangerRiscCSRs undef resetVector) hinp hb ha h
  have hf : CsrFields (t 3).dp.ir i := by
    rw [hdec.ir_eq]
    exact h
  obtain ⟨hb4, harch4, hmove4⟩ := edge_skip undef resetVector
    (hinp 3) hs3 hp3 hf hop himm hsrc
  refine ⟨⟨by decide, hb4, fun k hk hk4 => hnot k hk (by omega)⟩, ?_, harch4.trans ?_⟩
  · intro k hk
    rcases Nat.lt_or_ge k 3 with hk3 | hk3
    · exact hmoves k hk3
    · obtain rfl : k = 3 := by omega
      exact hmove4
  · ext1
    · exact hdec.pc
    · exact hdec.regs
    · exact hdec.mem

end Chain

/-! ## Without falling edges of `irq_i` -/

/-- The interrupt flags stay while the matrix only moves on. -/
theorem irq_of_moves {step : Input → CsrCore → CsrCore} {s : CsrCore} {inp : ℕ → Input} {n : ℕ}
    (hinp : ∀ k < n, (inp k).irqFalls = false)
    (hmoves : ∀ k < n, MovesOn (inp k) (trace step s inp k) (trace step s inp (k + 1))) :
    ∀ k ≤ n, (trace step s inp k).irq = s.irq := by
  apply trace_invariant_until (p := fun x : CsrCore => x.irq = s.irq) rfl
  intro k hk ih
  obtain ⟨state, irState, h⟩ := hmoves k hk
  rw [CsrCore.irq, h, CsrMatrix.sample, hinp k hk]
  exact ih

section Boundary
variable {undef resetVector : Word} {s : CsrCore} {inp : ℕ → Input} {i : Zicsr.Instr}

theorem csr_calm (undef resetVector : Word)
    (hinp : ∀ k, (inp k).resetI = true ∧ (inp k).irqFalls = false)
    (hb : AtPreFetch s) (ha : accepts s.matrix = false) (h : CsrFields s.dp.arch.fetched i)
    (hsrc : i.op = .write ∨ i.immediate = true ∨ i.source ≠ 0#5) :
    ∃ n, FirstReturn (stepCSRs (Wiring.rangerRiscCSRs undef resetVector)) AtPreFetch s inp n ∧
      (trace (stepCSRs (Wiring.rangerRiscCSRs undef resetVector)) s inp n).dp.arch =
        ⟨s.dp.pc + 4, s.dp.arch.regs.write i.rd ((latched s.matrix s.csrs).read i.addr), s.dp.mem⟩ ∧
      (trace (stepCSRs (Wiring.rangerRiscCSRs undef resetVector)) s inp n).csrs =
        latched s.matrix ((latched s.matrix s.csrs).write i.addr
          (i.op.eval ((latched s.matrix s.csrs).read i.addr) (i.operand s.dp.arch.regs))) := by
  obtain ⟨m, hm, hret, hmoves, harch, hcsrs⟩ := csr_chain undef resetVector
    (fun k => (hinp k).1) hb ha h hsrc
  have hnone : ∀ k < m, (inp k).irqFalls = false := fun k _ => (hinp k).2
  have hsettled : ∀ k < m,
      (trace (stepCSRs (Wiring.rangerRiscCSRs undef resetVector)) s inp (k + 1)).csrs =
        latched s.matrix s.csrs := csrs_of_moves hnone hmoves
  have hirq : (trace (stepCSRs (Wiring.rangerRiscCSRs undef resetVector)) s inp m).matrix.irq =
      s.matrix.irq := irq_of_moves hnone hmoves m (Nat.le_refl m)
  have hlatched : ∀ r, latched
      ((trace (stepCSRs (Wiring.rangerRiscCSRs undef resetVector)) s inp m).matrix.sample (inp m))
      r = latched s.matrix r := by
    intro r
    rw [CsrMatrix.sample_calm _ (hinp m).2, latched, pends, hirq]
    rfl
  obtain ⟨j, rfl⟩ : ∃ j, m = j + 1 := ⟨m - 1, by omega⟩
  rw [hsettled 2 (by omega)] at harch
  rw [hlatched, hsettled j (Nat.lt_succ_self j)] at hcsrs
  exact ⟨j + 1 + 1, hret, harch, hcsrs⟩

/-- **A CSR instruction.** `rd` gets the old value of the CSR and the CSR what the instruction
makes of it. An interrupt that was latched before is pending in mip when the CSR is read, and
again after it is written. -/
theorem csr_boundary (hb : AtPreFetch s)
    (hinp : UntilReturn (stepCSRs (Wiring.rangerRiscCSRs undef resetVector)) AtPreFetch s inp
      fun i => i.resetI = true ∧ i.irqFalls = false)
    (ha : accepts s.matrix = false)
    (hdec : Zicsr.decode (s.dp.mem (Pmmu.wordAddr s.dp.pc)) = some i)
    (hsrc : i.op = .write ∨ i.immediate = true ∨ i.source ≠ 0#5) :
    ∃ n, FirstReturn (stepCSRs (Wiring.rangerRiscCSRs undef resetVector)) AtPreFetch s inp n ∧
      (trace (stepCSRs (Wiring.rangerRiscCSRs undef resetVector)) s inp n).dp.arch =
        ⟨s.dp.pc + 4, s.dp.arch.regs.write i.rd ((latched s.matrix s.csrs).read i.addr), s.dp.mem⟩ ∧
      (trace (stepCSRs (Wiring.rangerRiscCSRs undef resetVector)) s inp n).csrs =
        latched s.matrix ((latched s.matrix s.csrs).write i.addr
          (i.op.eval ((latched s.matrix s.csrs).read i.addr) (i.operand s.dp.arch.regs))) := by
  obtain ⟨inp', hcalm, hsame⟩ := hinp.exists_always
    (q := fun i : Input => i.resetI = true ∧ i.irqFalls = false) ⟨true, false⟩ ⟨rfl, rfl⟩
  obtain ⟨n, hret, harch, hcsrs⟩ := csr_calm undef resetVector
    hcalm hb ha (csrFields hdec) hsrc
  refine ⟨n, hret.congr (hsame n hret), ?_⟩
  rw [← trace_congr _ _ _ (hsame n hret)]
  exact ⟨harch, hcsrs⟩

/-- At `csrrw x1, mstatus, x2`, with registers and CSRs that are not zero. -/
def swapping : CsrCore :=
  { resting 0x300110F3 ⟨false, false, false⟩ with
    matrix := { (resting 0x300110F3 ⟨false, false, false⟩).matrix with
      csrs := { mstatus := 0x1880, mie := 0x800, mip := 0, mepc := 0x40, mtvec := 0x80 } }
    dp := { Datapath.filled 0x300110F3 with bank := fun r => if r = 2 then 8 else 7 } }

theorem csr_boundary_csrrw :
    ∃ n, FirstReturn (stepCSRs (Wiring.rangerRiscCSRs 0 0)) AtPreFetch swapping
        (fun _ => ⟨true, false⟩) n ∧
      (trace (stepCSRs (Wiring.rangerRiscCSRs 0 0)) swapping (fun _ => ⟨true, false⟩)
        n).dp.arch.regs 1 = 0x1880 ∧
      (trace (stepCSRs (Wiring.rangerRiscCSRs 0 0)) swapping (fun _ => ⟨true, false⟩) n).csrs =
        { mstatus := 8, mie := 0x800, mip := 0, mepc := 0x40, mtvec := 0x80 } := by
  have hcalm : UntilReturn (stepCSRs (Wiring.rangerRiscCSRs 0 0)) AtPreFetch swapping
      (fun _ => ⟨true, false⟩) fun i => i.resetI = true ∧ i.irqFalls = false :=
        fun _ _ => ⟨rfl, rfl⟩
  obtain ⟨n, hret, harch, hcsrs⟩ := csr_boundary
    (i := ⟨.write, false, 1, 2, Csr.mstatus⟩) ⟨rfl, rfl⟩ hcalm rfl (by decide) (.inl rfl)
  refine ⟨n, hret, (congrArg (fun a : Arch => a.regs 1) harch).trans ?_, hcsrs.trans ?_⟩
  · decide +kernel
  · decide +kernel

/-- With an interrupt latched before, writing mstatus changes mip too. -/
theorem csr_boundary_latched :
    ¬ ∀ (undef resetVector : Word) (s : CsrCore) (inp : ℕ → Input) (i : Zicsr.Instr),
      AtPreFetch s →
      UntilReturn (stepCSRs (Wiring.rangerRiscCSRs undef resetVector)) AtPreFetch s inp
        (fun i => i.resetI = true ∧ i.irqFalls = false) →
      accepts s.matrix = false →
      Zicsr.decode (s.dp.mem (Pmmu.wordAddr s.dp.pc)) = some i →
      i.op = .write ∨ i.immediate = true ∨ i.source ≠ 0#5 →
      ∃ n, FirstReturn (stepCSRs (Wiring.rangerRiscCSRs undef resetVector)) AtPreFetch s inp n ∧
        (trace (stepCSRs (Wiring.rangerRiscCSRs undef resetVector)) s inp n).dp.arch =
          ⟨s.dp.pc + 4, s.dp.arch.regs.write i.rd (s.csrs.read i.addr), s.dp.mem⟩ ∧
        (trace (stepCSRs (Wiring.rangerRiscCSRs undef resetVector)) s inp n).csrs =
          s.csrs.write i.addr
            (i.op.eval (s.csrs.read i.addr) (i.operand s.dp.arch.regs)) := by
  intro h
  obtain ⟨n, hret, -, hcsrs⟩ := h 0 0 (resting 0x300110F3 ⟨true, false, false⟩)
    (fun _ => ⟨true, false⟩) ⟨.write, false, 1, 2, Csr.mstatus⟩ ⟨rfl, rfl⟩ (fun _ _ => ⟨rfl, rfl⟩)
    rfl (by decide) (.inl rfl)
  have hcalm : ∀ k : ℕ, ((fun _ => ⟨true, false⟩ : ℕ → Input) k).resetI = true ∧
      ((fun _ => ⟨true, false⟩ : ℕ → Input) k).irqFalls = false := fun _ => ⟨rfl, rfl⟩
  obtain ⟨m, hret', -, hmip⟩ := csr_calm 0 0 (s := resting 0x300110F3 ⟨true, false, false⟩)
    (i := ⟨.write, false, 1, 2, Csr.mstatus⟩) hcalm ⟨rfl, rfl⟩ rfl (csrFields (by decide))
    (.inl rfl)
  obtain rfl := hret.unique hret'
  rw [hcsrs] at hmip
  exact absurd hmip (by decide)

/-! ## Write, then read -/

/-- csrrw to x0 leaves its source in the CSR, an interrupt that gets pending touches mip only. -/
theorem write_boundary (undef resetVector : Word) (hb : AtPreFetch s)
    (hinp : UntilReturn (stepCSRs (Wiring.rangerRiscCSRs undef resetVector)) AtPreFetch s inp
      fun i => i.resetI = true)
    (ha : accepts s.matrix = false) {source : BitVec 5} {addr : BitVec 12}
    (hdec : Zicsr.decode (s.dp.mem (Pmmu.wordAddr s.dp.pc)) = some ⟨.write, false, 0, source, addr⟩)
    (haddr : CsrRegs.implemented addr) (hmip : addr ≠ Csr.mip) :
    ∃ n, FirstReturn (stepCSRs (Wiring.rangerRiscCSRs undef resetVector)) AtPreFetch s inp n ∧
      (trace (stepCSRs (Wiring.rangerRiscCSRs undef resetVector)) s inp n).dp.arch =
        ⟨s.dp.pc + 4, s.dp.arch.regs, s.dp.mem⟩ ∧
      (trace (stepCSRs (Wiring.rangerRiscCSRs undef resetVector)) s inp n).csrs.read addr =
        s.dp.arch.regs source := by
  obtain ⟨inp', hhigh, hsame⟩ := hinp.exists_always (q := fun i : Input => i.resetI = true)
    ⟨true, false⟩ rfl
  obtain ⟨m, -, hret, -, harch, hcsrs⟩ := csr_chain undef resetVector hhigh hb ha
    (csrFields hdec) (.inl rfl)
  refine ⟨m + 1, hret.congr (hsame _ hret), ?_⟩
  rw [← trace_congr _ _ _ (hsame _ hret), harch, hcsrs]
  refine ⟨congrArg (Arch.mk _ · _) (Rv32i.RegFile.write_zero _ _), ?_⟩
  rw [read_latched hmip, CsrRegs.read_write_self _ haddr]
  rfl

/-- A set or clear form of x0 changes no register, not even `rd`, and no CSR but mip. -/
theorem skip_boundary (undef resetVector : Word) (hb : AtPreFetch s)
    (hinp : UntilReturn (stepCSRs (Wiring.rangerRiscCSRs undef resetVector)) AtPreFetch s inp
      fun i => i.resetI = true)
    (ha : accepts s.matrix = false)
    (hdec : Zicsr.decode (s.dp.mem (Pmmu.wordAddr s.dp.pc)) = some i) (hop : i.op ≠ .write)
    (himm : i.immediate = false) (hsrc : i.source = 0#5) :
    ∃ n, FirstReturn (stepCSRs (Wiring.rangerRiscCSRs undef resetVector)) AtPreFetch s inp n ∧
      (trace (stepCSRs (Wiring.rangerRiscCSRs undef resetVector)) s inp n).dp.arch =
        ⟨s.dp.pc + 4, s.dp.arch.regs, s.dp.mem⟩ ∧
      ∀ addr ≠ Csr.mip,
        (trace (stepCSRs (Wiring.rangerRiscCSRs undef resetVector)) s inp n).csrs.read addr =
          s.csrs.read addr := by
  obtain ⟨inp', hhigh, hsame⟩ := hinp.exists_always (q := fun i : Input => i.resetI = true)
    ⟨true, false⟩ rfl
  obtain ⟨hret, hmoves, harch⟩ := skip_chain undef resetVector hhigh hb ha (csrFields hdec) hop
    himm hsrc
  refine ⟨4, hret.congr (hsame 4 hret), ?_⟩
  rw [← trace_congr _ _ _ (hsame 4 hret)]
  refine ⟨harch, fun addr hmip => ?_⟩
  rw [csrs_of_pends hmoves]
  split
  · exact CsrRegs.read_setMip _ hmip true
  · rfl

/-- What `csrrs rd, csr, x0` and `csrrc rd, csr, x0` have in common. -/
def readIdiom (op : Zicsr.Op) (rd : BitVec 5) (addr : BitVec 12) : Zicsr.Instr :=
  ⟨op, false, rd, 0, addr⟩

/-- **Write, then read.** After csrrw to x0 the CSR has the value, and still has it after the
read, but the value that is read is dropped: no register changes. -/
theorem write_read_boundary {op : Zicsr.Op} {source rd : BitVec 5} {addr : BitVec 12}
    (hb : AtPreFetch s)
    (hinp : UntilReturn (stepCSRs (Wiring.rangerRiscCSRs undef resetVector)) AtPreFetch s inp
      fun i => i.resetI = true)
    (ha : accepts s.matrix = false)
    (hmid : ∀ m, FirstReturn (stepCSRs (Wiring.rangerRiscCSRs undef resetVector)) AtPreFetch s
        inp m →
      accepts (trace (stepCSRs (Wiring.rangerRiscCSRs undef resetVector)) s inp m).matrix = false ∧
      UntilReturn (stepCSRs (Wiring.rangerRiscCSRs undef resetVector)) AtPreFetch
        (trace (stepCSRs (Wiring.rangerRiscCSRs undef resetVector)) s inp m)
        (fun k => inp (m + k)) fun i => i.resetI = true)
    (hwrite : Zicsr.decode (s.dp.mem (Pmmu.wordAddr s.dp.pc)) =
      some ⟨.write, false, 0, source, addr⟩)
    (hread : Zicsr.decode (s.dp.mem (Pmmu.wordAddr (s.dp.pc + 4))) = some (readIdiom op rd addr))
    (hop : op ≠ .write) (haddr : CsrRegs.implemented addr) (hmip : addr ≠ Csr.mip) :
    ∃ n, Visit (stepCSRs (Wiring.rangerRiscCSRs undef resetVector)) AtPreFetch s inp 2 n ∧
      (trace (stepCSRs (Wiring.rangerRiscCSRs undef resetVector)) s inp n).csrs.read addr =
        s.dp.arch.regs source ∧
      (trace (stepCSRs (Wiring.rangerRiscCSRs undef resetVector)) s inp n).dp.arch =
        ⟨s.dp.pc + 8, s.dp.arch.regs, s.dp.mem⟩ := by
  obtain ⟨m, hret, harch, hcsr⟩ := write_boundary undef resetVector hb hinp ha hwrite haddr hmip
  obtain ⟨ha', hinp'⟩ := hmid m hret
  obtain ⟨hpc, hregs, hmem⟩ := Arch.mk.inj harch
  obtain ⟨n, hret', harch', hcsrs'⟩ := skip_boundary undef resetVector hret.hit hinp' ha'
    (by rw [hpc, hmem]; exact hread) hop rfl rfl
  refine ⟨m + n, ⟨m, n, ⟨0, m, rfl, (Nat.zero_add m).symm, by simpa using hret⟩, rfl,
    hret'⟩, ?_, ?_⟩
  · rw [trace_add, hcsrs' addr hmip]
    exact hcsr
  · rw [trace_add, harch', hpc, hmem, BitVec.add_assoc]
    exact congrArg (Arch.mk _ · _) hregs

/-- `csrrw x0, mstatus, x9` and then `csrrs x2, mstatus, x0`, x9 holds 5. -/
def roundTrip : CsrCore :=
  { resting 0x30002173 ⟨false, false, false⟩ with
    dp := { Datapath.filled 0x30002173 with
      bank := fun r => if r = 9 then 5 else 0
      mem := fun a => if a = 0 then 0x30049073 else 0x30002173 } }

theorem roundTrip_returns : FirstReturn (stepCSRs (Wiring.rangerRiscCSRs 0 0)) AtPreFetch roundTrip
    (fun _ => ⟨true, false⟩) 4 := by
  refine ⟨by decide, ⟨rfl, rfl⟩, ?_⟩
  rintro k hk hk4 ⟨hs, hp⟩
  obtain rfl | rfl | rfl : k = 1 ∨ k = 2 ∨ k = 3 := by omega
  · exact MatrixState.noConfusion hs
  · exact MatrixState.noConfusion hs
  · exact InstructionState.noConfusion hp

theorem roundTrip_middle (m : ℕ) (h : FirstReturn (stepCSRs (Wiring.rangerRiscCSRs 0 0)) AtPreFetch
      roundTrip (fun _ => ⟨true, false⟩) m) :
    accepts (trace (stepCSRs (Wiring.rangerRiscCSRs 0 0)) roundTrip (fun _ => ⟨true, false⟩)
        m).matrix = false ∧
      UntilReturn (stepCSRs (Wiring.rangerRiscCSRs 0 0)) AtPreFetch
        (trace (stepCSRs (Wiring.rangerRiscCSRs 0 0)) roundTrip (fun _ => ⟨true, false⟩) m)
        (fun _ => ⟨true, false⟩) fun i => i.resetI = true := by
  obtain rfl := h.unique roundTrip_returns
  exact ⟨by decide, fun _ _ => rfl⟩

theorem write_read_boundary_mstatus :
    ∃ n, Visit (stepCSRs (Wiring.rangerRiscCSRs 0 0)) AtPreFetch roundTrip (fun _ => ⟨true, false⟩)
        2 n ∧
      (trace (stepCSRs (Wiring.rangerRiscCSRs 0 0)) roundTrip (fun _ => ⟨true, false⟩)
        n).csrs.mstatus = 5 := by
  have hhigh : UntilReturn (stepCSRs (Wiring.rangerRiscCSRs 0 0)) AtPreFetch roundTrip
      (fun _ => ⟨true, false⟩) fun i => i.resetI = true := fun _ _ => rfl
  have hwrite : Zicsr.decode (roundTrip.dp.mem (Pmmu.wordAddr 0)) =
      some ⟨.write, false, 0, 9, Csr.mstatus⟩ := by decide
  have hread : Zicsr.decode (roundTrip.dp.mem (Pmmu.wordAddr (0 + 4))) =
      some (readIdiom .set 2 Csr.mstatus) := by decide
  obtain ⟨n, hvisit, hcsr, -⟩ := write_read_boundary ⟨rfl, rfl⟩ hhigh rfl roundTrip_middle hwrite
    hread (by decide) (.inl rfl) (by decide)
  exact ⟨n, hvisit, hcsr⟩

/-- x2 does not get the value. -/
theorem write_read_boundary_lost :
    ¬ ∀ (undef resetVector : Word) (s : CsrCore) (inp : ℕ → Input) (op : Zicsr.Op)
      (source rd : BitVec 5) (addr : BitVec 12), AtPreFetch s →
      UntilReturn (stepCSRs (Wiring.rangerRiscCSRs undef resetVector)) AtPreFetch s inp
        (fun i => i.resetI = true) →
      accepts s.matrix = false →
      (∀ m, FirstReturn (stepCSRs (Wiring.rangerRiscCSRs undef resetVector)) AtPreFetch s inp m →
        accepts (trace (stepCSRs (Wiring.rangerRiscCSRs undef resetVector)) s inp m).matrix =
            false ∧
          UntilReturn (stepCSRs (Wiring.rangerRiscCSRs undef resetVector)) AtPreFetch
            (trace (stepCSRs (Wiring.rangerRiscCSRs undef resetVector)) s inp m)
            (fun k => inp (m + k)) fun i => i.resetI = true) →
      Zicsr.decode (s.dp.mem (Pmmu.wordAddr s.dp.pc)) = some ⟨.write, false, 0, source, addr⟩ →
      Zicsr.decode (s.dp.mem (Pmmu.wordAddr (s.dp.pc + 4))) = some (readIdiom op rd addr) →
      op ≠ .write → CsrRegs.implemented addr → addr ≠ Csr.mip → source ≠ 0 → rd ≠ 0 →
      ∃ n, Visit (stepCSRs (Wiring.rangerRiscCSRs undef resetVector)) AtPreFetch s inp 2 n ∧
        (trace (stepCSRs (Wiring.rangerRiscCSRs undef resetVector)) s inp n).csrs.read addr =
          s.dp.arch.regs source ∧
        (trace (stepCSRs (Wiring.rangerRiscCSRs undef resetVector)) s inp n).dp.arch.regs rd =
          s.dp.arch.regs source := by
  intro h
  obtain ⟨n, hvisit, -, hrd⟩ := h 0 0 roundTrip (fun _ => ⟨true, false⟩) .set 9 2 Csr.mstatus
    ⟨rfl, rfl⟩ (fun _ _ => rfl) rfl roundTrip_middle (by decide) (by decide) (by decide) (.inl rfl)
    (by decide) (by decide) (by decide)
  have hsecond : FirstReturn (stepCSRs (Wiring.rangerRiscCSRs 0 0)) AtPreFetch
      (trace (stepCSRs (Wiring.rangerRiscCSRs 0 0)) roundTrip (fun _ => ⟨true, false⟩) 4)
      (fun _ => ⟨true, false⟩) 4 := by
    refine ⟨by decide, ⟨rfl, rfl⟩, ?_⟩
    rintro k hk hk4 ⟨hs, hp⟩
    obtain rfl | rfl | rfl : k = 1 ∨ k = 2 ∨ k = 3 := by omega
    · exact MatrixState.noConfusion hs
    · exact MatrixState.noConfusion hs
    · exact InstructionState.noConfusion hp
  have hvisit' : Visit (stepCSRs (Wiring.rangerRiscCSRs 0 0)) AtPreFetch roundTrip
      (fun _ => ⟨true, false⟩) 2 8 := ⟨4, 4, ⟨0, 4, rfl, rfl, roundTrip_returns⟩, rfl, hsecond⟩
  obtain rfl := hvisit.unique hvisit'
  exact absurd hrd (by decide)

end Boundary

end ControlMatrixCSRs

end RangerRisc
