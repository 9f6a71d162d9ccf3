import RangerRisc.Ports

/-! What an instruction leaves in the ports, from PreFetch or IRQ2 to the state after Execute. The
strobes on the way write the register rs2 of this instruction or of the one before it. -/

namespace RangerRisc

open Clocked

namespace SynthesisMatrix

/-! ## SYSTEM instructions -/

section System
variable {w : Wiring} {i : Input} {s : CsrCore}

/-- After ITCSR only ITCSRLd may follow in Execute, and pc stays on the bus. -/
theorem step_itCsr (hi : i.resetI = true) (hs : s.seq.state = .execute)
    (hp : s.seq.irState = .itCsr) (hnext : (stepSynthesis w i s).seq.state = .execute) :
    (stepSynthesis w i s).seq.irState = .itCsrLd ∧ (stepSynthesis w i s).dp.pc = s.dp.pc := by
  have hir := step_ir (w := w) (i := i) hs (.inl hp)
  have hld : (outputsOn i s s.dp).control.pcLd = rgLdDisabled := by
    cases ha : action s.dp.ir <;> simp [comb, main, hs, execute, hp, itCsr, ha] <;> rfl
  refine ⟨?_, by simp [stepSynthesis, Datapath.clock, register, hld]⟩
  rw [step_seq] at hnext ⊢
  cases ha : action s.dp.ir <;>
    simp_all [outputs, comb, main, execute, itCsr, SeqState.clock, quiet, Outputs.noCsr, leaveOut,
      executeOut, Outputs.init]

theorem step_itCsrLd (hi : i.resetI = true) (hs : s.seq.state = .execute)
    (hp : s.seq.irState = .itCsrLd) : (stepSynthesis w i s).seq.state = .preFetch := by
  rw [step_seq]
  simp [outputs, comb, main, hs, execute, hp, SeqState.clock, hi, quiet, Outputs.noCsr, leaveOut,
    Outputs.init]

theorem step_itMret (hi : i.resetI = true) (hs : s.seq.state = .execute)
    (hp : s.seq.irState = .itMret) (hw : w.SelectsRdCSR) :
    (stepSynthesis w i s).seq.state = .execute ∧ (stepSynthesis w i s).seq.irState = .itMretClr ∧
      (stepSynthesis w i s).dp.pc = mretPc s.csrs.mepc := by
  refine ⟨?_, ?_, ?_⟩
  · rw [step_seq]
    simp [outputs, comb, main, hs, execute, hp, SeqState.clock, hi, quiet, Outputs.noCsr,
      executeOut, Outputs.init]
  · rw [step_seq]
    simp [outputs, comb, main, hs, execute, hp, SeqState.clock, hi, quiet, Outputs.noCsr,
      executeOut, Outputs.init]
  · simp [stepSynthesis, comb, main, hs, execute, hp, quiet, Outputs.noCsr, executeOut,
      Outputs.init, rdData, Datapath.clock, register, Datapath.pcSrcOut, hw _ _ _ _]

theorem step_itMretClr (hi : i.resetI = true) (hs : s.seq.state = .execute)
    (hp : s.seq.irState = .itMretClr) : (stepSynthesis w i s).seq.state = .preFetch := by
  rw [step_seq]
  simp [outputs, comb, main, hs, execute, hp, SeqState.clock, hi, quiet, Outputs.noCsr, leaveOut,
    Outputs.init]

/-- ebreak halts. -/
theorem step_itEbreak (hi : i.resetI = true) (hs : s.seq.state = .execute)
    (hp : s.seq.irState = .itEbreak) : (stepSynthesis w i s).seq.state = .halt := by
  rw [step_seq]
  simp [outputs, comb, main, hs, execute, hp, SeqState.clock, hi, quiet, Outputs.noCsr, leaveOut,
    Outputs.init]

/-- ecall waits for ever. -/
theorem step_itECall (hi : i.resetI = true) (hs : s.seq.state = .execute)
    (hp : s.seq.irState = .itECall) : (stepSynthesis w i s).seq.state = .execute ∧
      (stepSynthesis w i s).seq.irState = .itECall := by
  rw [step_seq]
  simp [outputs, comb, main, hs, execute, hp, SeqState.clock, hi, quiet, Outputs.noCsr, executeOut,
    Outputs.init]

end System

/-! ## In Execute -/

/-- The processor leaves Execute after `n` edges. -/
structure LeavesAfter (w : Wiring) (s : CsrCore) (inp : ℕ → Input) (n : ℕ) : Prop where
  pos : 0 < n
  within : ∀ k < n, (trace (stepSynthesis w) s inp k).seq.state = .execute
  left : (trace (stepSynthesis w) s inp n).seq.state ≠ .execute

/-- What the first `n` edges have on the two buses: one data word, and these addresses. -/
structure Strobes (w : Wiring) (s : CsrCore) (inp : ℕ → Input) (n : ℕ) (data : Word)
    (as : List Word) : Prop where
  data : ∀ k < n, (trace (stepSynthesis w) s inp k).dp.rsb = data
  addrs : ∀ x, (∃ k < n, addrMuxToPmmu (inp k) (trace (stepSynthesis w) s inp k) = x) ↔ x ∈ as

section Strobes
variable {w : Wiring} {s : CsrCore} {inp : ℕ → Input} {n : ℕ} {data : Word}

theorem LeavesAfter.unique {m : ℕ} (hm : LeavesAfter w s inp m) (hn : LeavesAfter w s inp n) :
    m = n := by
  rcases Nat.lt_trichotomy m n with h | h | h
  · exact absurd (hn.within m h) hm.left
  · exact h
  · exact absurd (hm.within n h) hn.left

theorem leavesAfter_one (hs : s.seq.state = .execute)
    (hleft : (stepSynthesis w (inp 0) s).seq.state ≠ .execute) : LeavesAfter w s inp 1 where
  pos := Nat.one_pos
  within k hk := by
    obtain rfl := Nat.lt_one_iff.mp hk
    exact hs
  left := hleft

theorem leavesAfter_two (hs : s.seq.state = .execute)
    (hs1 : (stepSynthesis w (inp 0) s).seq.state = .execute)
    (hleft : (trace (stepSynthesis w) s inp 2).seq.state ≠ .execute) : LeavesAfter w s inp 2 where
  pos := Nat.two_pos
  within k hk := by
    obtain rfl | rfl : k = 0 ∨ k = 1 := by omega
    · exact hs
    · exact hs1
  left := hleft

theorem strobes_one (hdata : s.dp.rsb = data) :
    Strobes w s inp 1 data [addrMuxToPmmu (inp 0) s] where
  data k hk := by
    obtain rfl := Nat.lt_one_iff.mp hk
    exact hdata
  addrs x := by simp [eq_comm]

theorem strobes_two (hdata : s.dp.rsb = data) (hdata' : s.dp.rs2Out = data) :
    Strobes w s inp 2 data
      [addrMuxToPmmu (inp 0) s, addrMuxToPmmu (inp 1) (stepSynthesis w (inp 0) s)] where
  data k hk := by
    obtain rfl | rfl : k = 0 ∨ k = 1 := by omega
    · exact hdata
    · exact hdata'
  addrs x := by
    simp only [List.mem_cons, List.not_mem_nil, or_false]
    constructor
    · rintro ⟨k, hk, rfl⟩
      obtain rfl | rfl : k = 0 ∨ k = 1 := by omega
      · exact .inl rfl
      · exact .inr rfl
    · rintro (rfl | rfl)
      · exact ⟨0, by decide, rfl⟩
      · exact ⟨1, by decide, rfl⟩

theorem Drives.leaves {q : InstructionState} {d e : Datapath} {as : List Word}
    (h : Drives w q d as e) (hinp : High inp) (hs : s.seq.state = .execute) (hq : s.seq.irState = q)
    (hd : s.dp = d) (hrsb : d.rsb = data) (hrs2 : d.rs2Out = data) :
    LeavesAfter w s inp as.length ∧ Strobes w s inp as.length data as := by
  obtain ⟨hedges, hpre, -⟩ := h.edges (fun k _ => hinp k) hs hq hd hrsb hrs2
  have hpos : 0 < as.length := by cases h <;> exact Nat.succ_pos _
  refine ⟨⟨hpos, fun k hk => (hedges k hk).1, ?_⟩, fun k hk => (hedges k hk).2.1, fun x => ?_⟩
  · rw [hpre]
    exact MatrixState.noConfusion
  · rw [List.mem_iff_getElem?]
    constructor
    · rintro ⟨k, hk, rfl⟩
      exact ⟨k, (hedges k hk).2.2⟩
    · rintro ⟨k, hk⟩
      have hlt : k < as.length := (List.getElem?_eq_some_iff.mp hk).1
      exact ⟨k, hlt, Option.some.inj ((hedges k hlt).2.2.symm.trans hk)⟩

/-- ecall never leaves Execute. -/
theorem not_leavesAfter_itECall (hinp : High inp) (hs : s.seq.state = .execute)
    (hp : s.seq.irState = .itECall) : ¬ LeavesAfter w s inp n := by
  intro hleave
  have hwaits : ∀ k, (trace (stepSynthesis w) s inp k).seq.state = .execute ∧
      (trace (stepSynthesis w) s inp k).seq.irState = .itECall :=
    trace_invariant (p := fun x : CsrCore => x.seq.state = .execute ∧ x.seq.irState = .itECall)
      ⟨hs, hp⟩ fun k hk => step_itECall (hinp k) hk.1 hk.2
  exact hleave.left (hwaits n).1

/-- What Decode has left in `s` of the instruction `ir` at `a`. -/
structure Started (ir : Word) (a : Arch) (s : CsrCore) : Prop where
  state : s.seq.state = .execute
  irState : s.seq.irState = decodeNext (csrSystem ir) ir
  decoded : Decoded ir a s.dp
  aluOut : s.dp.aluOut = a.pc + 4

variable {ir : Word} {a : Arch}

/-- All but the loads and stores begin with the next pc on the address bus, and stores do too. -/
theorem Started.bus_pc {q : InstructionState} (h : Started ir a s)
    (hq : decodeNext (csrSystem ir) ir = q) (hpc : addrFromAlu q = false) :
    addrMuxToPmmu (inp 0) s = a.pc + 4 := by
  rw [bus_execute h.state, h.irState, hq, hpc, h.decoded.pc]
  rfl

theorem Started.itCsr (h : Started ir a s) (hinp : High inp)
    (hq : decodeNext (csrSystem ir) ir = .itCsr) :
    ∃ n, LeavesAfter w s inp n ∧ Strobes w s inp n (srcB ir a) [a.pc + 4] := by
  have hbus0 : addrMuxToPmmu (inp 0) s = a.pc + 4 := h.bus_pc hq rfl
  by_cases hs1 : (stepSynthesis w (inp 0) s).seq.state = .execute
  · obtain ⟨hp1, hpc1⟩ := step_itCsr (hinp 0) h.state (h.irState.trans hq) hs1
    have hleft : (trace (stepSynthesis w) s inp 2).seq.state = .preFetch :=
      step_itCsrLd (hinp 1) hs1 hp1
    have hbus1 : addrMuxToPmmu (inp 1) (stepSynthesis w (inp 0) s) = a.pc + 4 := by
      rw [bus_execute hs1, hp1, hpc1, h.decoded.pc]
      rfl
    have htwo : Strobes w s inp 2 _ _ := strobes_two h.decoded.rsb h.decoded.rs2Out
    rw [hbus0, hbus1] at htwo
    exact ⟨2, leavesAfter_two h.state hs1 (by rw [hleft]; exact MatrixState.noConfusion),
      htwo.data, fun x => (htwo.addrs x).trans (by simp)⟩
  · have hone : Strobes w s inp 1 _ _ := strobes_one h.decoded.rsb
    rw [hbus0] at hone
    exact ⟨1, leavesAfter_one h.state hs1, hone⟩

theorem Started.itMret (h : Started ir a s) (hw : w.SelectsRdCSR) (hinp : High inp)
    (hq : decodeNext (csrSystem ir) ir = .itMret) :
    ∃ n, LeavesAfter w s inp n ∧
      Strobes w s inp n (srcB ir a) [a.pc + 4, mretPc s.csrs.mepc] := by
  have hbus0 : addrMuxToPmmu (inp 0) s = a.pc + 4 := h.bus_pc hq rfl
  obtain ⟨hs1, hp1, hpc1⟩ := step_itMret (w := w) (hinp 0) h.state (h.irState.trans hq) hw
  have hleft : (trace (stepSynthesis w) s inp 2).seq.state = .preFetch :=
    step_itMretClr (hinp 1) hs1 hp1
  have hbus1 : addrMuxToPmmu (inp 1) (stepSynthesis w (inp 0) s) = mretPc s.csrs.mepc := by
    rw [bus_execute hs1, hp1, hpc1]
    rfl
  have htwo : Strobes w s inp 2 _ _ := strobes_two h.decoded.rsb h.decoded.rs2Out
  rw [hbus0, hbus1] at htwo
  exact ⟨2, leavesAfter_two h.state hs1 (by rw [hleft]; exact MatrixState.noConfusion), htwo⟩

theorem Started.itEbreak (h : Started ir a s) (hinp : High inp)
    (hq : decodeNext (csrSystem ir) ir = .itEbreak) :
    ∃ n, LeavesAfter w s inp n ∧ Strobes w s inp n (srcB ir a) [a.pc + 4] := by
  have hbus0 : addrMuxToPmmu (inp 0) s = a.pc + 4 := h.bus_pc hq rfl
  have hleft : (stepSynthesis w (inp 0) s).seq.state = .halt :=
    step_itEbreak (hinp 0) h.state (h.irState.trans hq)
  have hone : Strobes w s inp 1 _ _ := strobes_one h.decoded.rsb
  rw [hbus0] at hone
  exact ⟨1, leavesAfter_one h.state (by rw [hleft]; exact MatrixState.noConfusion), hone⟩

/-- Decode sends SYSTEM instructions to states of their own, the others to the shared ones. -/
theorem decodeNext_cases (ir : Word) : shared (decodeNext (csrSystem ir) ir) = true ∨
    decodeNext (csrSystem ir) ir = .itCsr ∨ decodeNext (csrSystem ir) ir = .itMret ∨
    decodeNext (csrSystem ir) ir = .itEbreak ∨ decodeNext (csrSystem ir) ir = .itECall := by
  unfold decodeNext
  cases irOpcode ir with
  | iTypeE =>
    unfold csrSystem
    split_ifs <;> simp [shared]
  | _ => exact .inl rfl

/-- **In Execute** the data lines carry the register rs2, the address lines those of
`executeAddrs`, and every instruction but ecall leaves it. -/
theorem Started.leaves (h : Started ir a s) (hw : w.SelectsRdCSR) (hinp : High inp)
    (hne : decodeNext (csrSystem ir) ir ≠ .itECall) :
    ∃ n, LeavesAfter w s inp n ∧
      Strobes w s inp n (srcB ir a) (executeAddrs w.undef ir s.csrs.mepc a) := by
  rcases decodeNext_cases ir with hsh | hq | hq | hq | hq
  · obtain ⟨bs, e, hdrives, hmem⟩ := addresses_decoded s.csrs.mepc h.decoded h.aluOut hsh
    obtain ⟨hleave, hdata, haddrs⟩ := hdrives.leaves hinp h.state h.irState rfl h.decoded.rsb
      h.decoded.rs2Out
    exact ⟨bs.length, hleave, hdata, fun x => (haddrs x).trans (hmem x)⟩
  · rw [executeAddrs, hq]
    exact h.itCsr hinp hq
  · rw [executeAddrs, hq]
    exact h.itMret hw hinp hq
  · rw [executeAddrs, hq]
    exact h.itEbreak hinp hq
  · exact absurd hq hne

theorem Started.strobes (h : Started ir a s) (hw : w.SelectsRdCSR) (hinp : High inp)
    (hleave : LeavesAfter w s inp n) :
    Strobes w s inp n (srcB ir a) (executeAddrs w.undef ir s.csrs.mepc a) := by
  have hne : decodeNext (csrSystem ir) ir ≠ .itECall := fun hq =>
    not_leavesAfter_itECall hinp h.state (h.irState.trans hq) hleave
  obtain ⟨m, hleave', hstrobes⟩ := h.leaves hw hinp hne
  obtain rfl := hleave.unique hleave'
  exact hstrobes

/-- A store that the wiring withholds changes no word of the memory. -/
theorem Started.mem_store (h : Started ir a s) (hinp : High inp) (hleave : LeavesAfter w s inp n)
    (ho : irOpcode ir = .sType) (hw : w.memWr rwActive (effAddr w.undef ir a) = rwInActive) :
    (trace (stepSynthesis w) s inp n).dp.mem = a.mem := by
  obtain ⟨bs, e, hdrives, -, hmem⟩ := drives_stStore (w := w) h.decoded h.aluOut
  have hq : s.seq.irState = .stStore := by rw [h.irState, decodeNext, ho]
  obtain ⟨-, -, he⟩ := hdrives.edges (fun k _ => hinp k) h.state hq rfl h.decoded.rsb
    h.decoded.rs2Out
  obtain ⟨hleave', -⟩ := hdrives.leaves hinp h.state hq rfl h.decoded.rsb h.decoded.rs2Out
  obtain rfl := hleave.unique hleave'
  rw [he, hmem hw]

end Strobes

/-! ## From PreFetch to Execute -/

section Start
variable {w : Wiring} {s : CsrCore} {inp : ℕ → Input}

theorem decode_aluOut (w : Wiring) (d : Datapath) :
    (d.clock w decodeControl).aluOut = d.pc + 4 := by
  simp [Datapath.clock, decodeControl, Control.idle, register, Datapath.aluImmOut,
    Datapath.aMuxOut, Datapath.bMuxOut, mux4]

theorem moved_mepc (i : Input) (m : CsrMatrix) (state : MatrixState) (irState : InstructionState) :
    (moved (m.sample i) state irState).csrs.mepc = m.csrs.mepc := by
  rw [moved, CsrMatrix.sample_csrs]
  split <;> rfl

/-- An instruction begins: PreFetch accepts no interrupt, or IRQ2 reads the first one of the
handler. -/
def Begins (s : CsrCore) : Prop :=
  s.seq.state = .preFetch ∧ accepts s.matrix = false ∨ s.seq.state = .irq2

theorem Begins.ne_execute (h : Begins s) : s.seq.state ≠ .execute := by
  rcases h with ⟨hs, -⟩ | hs <;> exact fun he => MatrixState.noConfusion (hs.symm.trans he)

/-- Both states do the same. -/
theorem Begins.step {i : Input} (h : Begins s) (hi : i.resetI = true) :
    (stepSynthesis w i s).matrix = moved (s.matrix.sample i) .fetch .itLoad ∧
    ∃ op data, (stepSynthesis w i s).dp =
      s.dp.clock w { preFetchControl with aluOp := op, rdData := data } := by
  rcases h with ⟨hs, ha⟩ | hs
  · exact step_preFetch hi hs ha
  · have ho : ∀ d : Datapath, outputsOn i s d =
        separately (s.matrix.sample i) d.ir d.rsa (leaveOut preFetchControl .fetch) := by
      intro d
      simp [comb, main, hs, separately]
    rw [step_plain hi (by simp [plain, hs]) (congrArg (·.control) (ho s.dp)) (ho _) rfl rfl]
    exact ⟨rfl, _, _, rfl⟩

/-- The begin, Fetch and Decode have pc on the address lines; on the data lines is, from Fetch on,
the register rs2 of the instruction before. -/
theorem started (hinp : High inp) (hs : Begins s) :
    Started s.dp.arch.fetched s.dp.arch (trace (stepSynthesis w) s inp 3) ∧
      (trace (stepSynthesis w) s inp 3).csrs.mepc = s.csrs.mepc ∧
      (∀ k < 3, addrMuxToPmmu (inp k) (trace (stepSynthesis w) s inp k) = s.dp.pc) ∧
      ∀ k < 2, (trace (stepSynthesis w) s inp (k + 1)).dp.rsb = s.dp.rs2Out := by
  obtain ⟨hm1, op1, data1, hd1⟩ := hs.step (w := w) (hinp 0)
  have hs1 : (trace (stepSynthesis w) s inp 1).seq.state = .fetch := congrArg (·.seq.state) hm1
  have hready : Ready s.dp.arch (trace (stepSynthesis w) s inp 1).dp := by
    rw [trace_succ, trace_zero, hd1]
    exact ready_preFetch op1 data1
  obtain ⟨op2, data2, h2⟩ := step_fetch (w := w) (hinp 1) hs1
  have hs2 : (trace (stepSynthesis w) s inp 2).seq.state = .decode := by
    rw [trace_succ, h2]
    rfl
  have hp2 : (trace (stepSynthesis w) s inp 2).seq.irState = .itLoad := by
    rw [trace_succ, h2]
    rfl
  have hfetched : Fetched s.dp.arch (trace (stepSynthesis w) s inp 2).dp := by
    rw [trace_succ, h2]
    exact hready.fetch op2 data2
  have h3 := step_decode (w := w) (hinp 2) hs2 hp2
  have hpc1 : (trace (stepSynthesis w) s inp 1).dp.pc = s.dp.pc := congrArg Arch.pc hready.arch
  have hpc2 : (trace (stepSynthesis w) s inp 2).dp.pc = s.dp.pc := congrArg Arch.pc hfetched.arch
  have hmepc1 : (trace (stepSynthesis w) s inp 1).csrs.mepc = s.csrs.mepc :=
    (congrArg (·.csrs.mepc) hm1).trans (moved_mepc _ _ _ _)
  have hmepc2 : (trace (stepSynthesis w) s inp 2).csrs.mepc =
      (trace (stepSynthesis w) s inp 1).csrs.mepc := by
    rw [trace_succ, h2]
    exact moved_mepc _ _ _ _
  refine ⟨⟨?_, ?_, ?_, ?_⟩, ?_, ?_, ?_⟩
  · rw [trace_succ, h3]
    rfl
  · rw [trace_succ, h3, hfetched.ir_eq]
    rfl
  · rw [trace_succ, h3]
    exact hfetched.decode
  · rw [trace_succ, h3]
    exact (decode_aluOut w _).trans (congrArg (· + 4) hpc2)
  · rw [trace_succ, h3]
    exact (moved_mepc _ _ _ _).trans (hmepc2.trans hmepc1)
  · intro k hk
    obtain rfl | rfl | rfl : k = 0 ∨ k = 1 ∨ k = 2 := by omega
    · exact SynthesisMatrix.bus_pc hs.ne_execute
    · rw [SynthesisMatrix.bus_pc (by rw [hs1]; exact MatrixState.noConfusion), hpc1]
    · rw [SynthesisMatrix.bus_pc (by rw [hs2]; exact MatrixState.noConfusion), hpc2]
  · intro k hk
    obtain rfl | rfl : k = 0 ∨ k = 1 := by omega
    · rfl
    · change (stepSynthesis w (inp 0) s).dp.rs2Out = s.dp.rs2Out
      rw [hd1]
      simp [Datapath.rs2Out, Datapath.clock, preFetchControl, Control.idle, register]

/-- The instruction that begins in `s` is in Execute from the third edge on, and is over
after `n` edges. -/
structure EndsAfter (w : Wiring) (s : CsrCore) (inp : ℕ → Input) (n : ℕ) : Prop where
  late : 3 < n
  within : ∀ k, 3 ≤ k → k < n → (trace (stepSynthesis w) s inp k).seq.state = .execute
  left : (trace (stepSynthesis w) s inp n).seq.state ≠ .execute

theorem endsAfter_iff {m : ℕ} : EndsAfter w s inp (3 + m) ↔
    LeavesAfter w (trace (stepSynthesis w) s inp 3) (fun k => inp (3 + k)) m := by
  constructor
  · intro h
    refine ⟨Nat.lt_add_right_iff_pos.mp h.late, ?_, ?_⟩
    · intro k hk
      rw [← trace_add]
      exact h.within _ (Nat.le_add_right 3 k) (Nat.add_lt_add_left hk 3)
    · rw [← trace_add]
      exact h.left
  · intro h
    refine ⟨Nat.lt_add_of_pos_right h.pos, ?_, ?_⟩
    · intro k hk hkm
      obtain ⟨j, rfl⟩ : ∃ j, k = 3 + j := ⟨k - 3, by omega⟩
      rw [trace_add]
      exact h.within j (by omega)
    · rw [trace_add]
      exact h.left

theorem EndsAfter.congr {inp' : ℕ → Input} {n : ℕ} (h : EndsAfter w s inp n)
    (heq : ∀ k < n, inp k = inp' k) : EndsAfter w s inp' n where
  late := h.late
  within k hk hkn := by
    rw [← trace_congr _ _ _ fun j hj => heq j (Nat.lt_trans hj hkn)]
    exact h.within k hk hkn
  left := by
    rw [← trace_congr _ _ _ heq]
    exact h.left

end Start

end SynthesisMatrix

/-! ## The ports over an instruction -/

namespace Board

open SynthesisMatrix

section Frame
variable {undef resetVector : Word} {b : Board} {inp : ℕ → Input} {n : ℕ}

/-- The instruction at `b` stores to the port. -/
def StoresTo (undef : Word) (b : Board) (p : Port) : Prop :=
  irOpcode b.core.dp.arch.fetched = .sType ∧
    p.selected (effAddr undef b.core.dp.arch.fetched b.core.dp.arch)

/-- One of the addresses that the instruction at `b` has on the bus in Execute is the port's. -/
def Strobed (undef : Word) (b : Board) (p : Port) : Prop :=
  ∃ x ∈ executeAddrs undef b.core.dp.arch.fetched b.core.csrs.mepc b.core.dp.arch, p.selected x

instance (undef : Word) (b : Board) (p : Port) : Decidable (StoresTo undef b p) :=
  inferInstanceAs (Decidable (_ ∧ _))

instance (undef : Word) (b : Board) (p : Port) : Decidable (Strobed undef b p) :=
  inferInstanceAs (Decidable (∃ x ∈ _, _))

/-- The byte of the register rs2 of the instruction at `b`. -/
def storeByte (b : Board) : BitVec 8 := lowByte (srcB b.core.dp.arch.fetched b.core.dp.arch)

/-- What the strobes without a store write is in the port already. -/
def Undisturbed (undef : Word) (b : Board) (p : Port) : Prop :=
  StoresTo undef b p ∨
    (Strobed undef b p → storeByte b = p.out b.ports) ∧
    (¬ Strobed undef b p → p.selected b.core.dp.pc → lowByte b.core.dp.rs2Out = p.out b.ports)

theorem StoresTo.strobed {p : Port} (h : StoresTo undef b p) : Strobed undef b p := by
  obtain ⟨ho, hsel⟩ := h
  have hq : decodeNext (csrSystem b.core.dp.arch.fetched) b.core.dp.arch.fetched = .stStore := by
    rw [decodeNext, ho]
  refine ⟨_, ?_, hsel⟩
  rw [executeAddrs, hq]
  exact List.mem_cons_of_mem _ (List.mem_singleton_self _)

/-- What is in a port after an instruction. -/
theorem out_ends (hinp : High inp) (hs : Begins b.core)
    (hend : EndsAfter (Wiring.memoryMapped undef resetVector) b.core inp n) (p : Port) :
    p.out (trace (stepBoard (Wiring.memoryMapped undef resetVector)) b inp n).ports =
      if Strobed undef b p then storeByte b
      else if p.selected b.core.dp.pc then lowByte b.core.dp.rs2Out
      else p.out b.ports := by
  obtain ⟨m, rfl⟩ : ∃ m, n = 3 + m := ⟨n - 3, by have := hend.late; omega⟩
  have hleave := endsAfter_iff.mp hend
  obtain ⟨hstart, hmepc, hbus, hrsb⟩ :=
    started (w := Wiring.memoryMapped undef resetVector) hinp hs
  have hstrobes := hstart.strobes (fun _ _ _ _ => rfl) (hinp.shift 3) hleave
  rw [hmepc, ← trace_core] at hstrobes
  have hdata : ∀ k < m, lowByte (trace (stepSynthesis (Wiring.memoryMapped undef resetVector))
      (trace (stepBoard (Wiring.memoryMapped undef resetVector)) b inp 3).core
      (fun k => inp (3 + k)) k).dp.rsb = storeByte b := fun k hk =>
    congrArg lowByte (hstrobes.data k hk)
  have hsel : (∃ k < m, p.selected (addrMuxToPmmu (inp (3 + k))
      (trace (stepSynthesis (Wiring.memoryMapped undef resetVector))
        (trace (stepBoard (Wiring.memoryMapped undef resetVector)) b inp 3).core
        (fun k => inp (3 + k)) k))) ↔ Strobed undef b p := by
    constructor
    · rintro ⟨k, hk, hsel⟩
      exact ⟨_, (hstrobes.addrs _).mp ⟨k, hk, rfl⟩, hsel⟩
    · rintro ⟨x, hx, hsel⟩
      obtain ⟨k, hk, rfl⟩ := (hstrobes.addrs x).mpr hx
      exact ⟨k, hk, hsel⟩
  have hearly : p.out (trace (stepBoard (Wiring.memoryMapped undef resetVector)) b inp 3).ports =
      if p.selected b.core.dp.pc then lowByte b.core.dp.rs2Out else p.out b.ports := by
    rw [trace_succ, out_step, trace_core, hbus 2 (by decide), hrsb 1 (by decide), trace_succ,
      out_step, trace_core, hbus 1 (by decide), hrsb 0 (by decide), trace_succ, out_step,
      trace_core, hbus 0 (by decide)]
    by_cases hpc : p.selected b.core.dp.pc
    · rw [if_pos hpc, if_pos hpc]
    · rw [if_neg hpc, if_neg hpc, if_neg hpc, if_neg hpc]
      rfl
  rw [trace_add, out_trace p hdata, hearly]
  exact if_congr hsel rfl rfl

/-- A store with address bit 11 set does not reach the memory. -/
theorem mem_ends (hinp : High inp) (hs : Begins b.core)
    (hend : EndsAfter (Wiring.memoryMapped undef resetVector) b.core inp n)
    (ho : irOpcode b.core.dp.arch.fetched = .sType)
    (haddr : (effAddr undef b.core.dp.arch.fetched b.core.dp.arch).getLsbD 11 = true) :
    (trace (stepBoard (Wiring.memoryMapped undef resetVector)) b inp n).core.dp.mem =
      b.core.dp.mem := by
  obtain ⟨m, rfl⟩ : ∃ m, n = 3 + m := ⟨n - 3, by have := hend.late; omega⟩
  obtain ⟨hstart, -⟩ := started (w := Wiring.memoryMapped undef resetVector) hinp hs
  rw [trace_core, trace_add]
  exact hstart.mem_store (hinp.shift 3) (endsAfter_iff.mp hend) ho haddr

/-- **The ports over one instruction.** A port ends up with what a store to it alone would leave
there just when every other strobe of the instruction writes what is there already. -/
theorem port_frame (hs : Begins b.core) :
    (High inp → decodeNext (csrSystem b.core.dp.arch.fetched) b.core.dp.arch.fetched ≠ .itECall →
      ∃ n, EndsAfter (Wiring.memoryMapped undef resetVector) b.core inp n) ∧
    ∀ n, EndsAfter (Wiring.memoryMapped undef resetVector) b.core inp n →
      (∀ k < n, (inp k).resetI = true) →
      (∀ p : Port,
        p.out (trace (stepBoard (Wiring.memoryMapped undef resetVector)) b inp n).ports =
            (if StoresTo undef b p then storeByte b else p.out b.ports) ↔ Undisturbed undef b p) ∧
      (irOpcode b.core.dp.arch.fetched = .sType →
        (effAddr undef b.core.dp.arch.fetched b.core.dp.arch).getLsbD 11 = true →
        (trace (stepBoard (Wiring.memoryMapped undef resetVector)) b inp n).core.dp.mem =
          b.core.dp.mem) := by
  constructor
  · intro hinp hne
    obtain ⟨hstart, -⟩ := started (w := Wiring.memoryMapped undef resetVector) hinp hs
    obtain ⟨m, hleave, -⟩ := hstart.leaves (w := Wiring.memoryMapped undef resetVector)
      (fun _ _ _ _ => rfl) (hinp.shift 3) hne
    exact ⟨3 + m, endsAfter_iff.mpr hleave⟩
  · intro n hend hinp
    obtain ⟨inp', hinp', hsame⟩ := exists_extension (q := fun i : Input => i.resetI = true)
      ⟨true, false⟩ rfl hinp
    have hend' := hend.congr fun k hk => (hsame k hk).symm
    rw [trace_congr _ _ _ fun k hk => (hsame k hk).symm]
    refine ⟨fun p => ?_, mem_ends hinp' hs hend'⟩
    rw [out_ends hinp' hs hend' p, Undisturbed]
    by_cases hstore : StoresTo undef b p
    · simp [hstore, hstore.strobed]
    · by_cases hstrobe : Strobed undef b p
      · simp [hstore, hstrobe]
      · by_cases hpc : p.selected b.core.dp.pc
        · simp [hstore, hstrobe, hpc]
        · simp [hstore, hstrobe, hpc]

/-- At a boundary in front of the instruction `ir`, registers zero and both ports full. -/
def full (ir : Word) : Board where
  core := {
    matrix := {
      seq := { state := .preFetch, vectorState := .sync0, irState := .itLoad }
      csrs := { mstatus := 0, mie := 0, mip := 0, mepc := 0, mtvec := 0 }
      irq := ⟨false, false, false⟩ }
    dp := Datapath.filled ir }
  ports := ⟨0xFF, 0xFF⟩

/-- `sb x0, -2048(x0)` -/
theorem port_frame_sb : ∃ n, EndsAfter (Wiring.memoryMapped 0 0) (full 0x80000023).core
      (fun _ => ⟨true, false⟩) n ∧
    (trace (stepBoard (Wiring.memoryMapped 0 0)) (full 0x80000023) (fun _ => ⟨true, false⟩)
      n).ports.parOut = 0 := by
  obtain ⟨hends, hport⟩ := port_frame (b := full 0x80000023) (.inl ⟨rfl, rfl⟩)
  have hhigh : High fun _ => (⟨true, false⟩ : Input) := fun _ => rfl
  obtain ⟨n, hend⟩ := hends hhigh (by decide)
  exact ⟨n, hend, ((hport n hend fun _ _ => rfl).1 .par).mpr (.inl (by decide))⟩

/-- `lb x1, -2048(x0)` clears the parallel port. -/
theorem port_frame_lb :
    ¬ ∀ (undef resetVector : Word) (b : Board) (inp : ℕ → Input) (n : ℕ),
      b.core.seq.state = .preFetch → accepts b.core.matrix = false →
      EndsAfter (Wiring.memoryMapped undef resetVector) b.core inp n →
      (∀ k < n, (inp k).resetI = true) →
      ∀ p : Port, p.out (trace (stepBoard (Wiring.memoryMapped undef resetVector)) b inp n).ports =
        if StoresTo undef b p then storeByte b else p.out b.ports := by
  intro h
  have hhigh : High fun _ => (⟨true, false⟩ : Input) := fun _ => rfl
  obtain ⟨hstart, -⟩ := started (w := Wiring.memoryMapped 0 0) (s := (full 0x80000083).core) hhigh
    (.inl ⟨rfl, rfl⟩)
  obtain ⟨m, hleave, -⟩ := hstart.leaves (w := Wiring.memoryMapped 0 0) (fun _ _ _ _ => rfl)
    (hhigh.shift 3) (by decide)
  have hend := endsAfter_iff.mpr hleave
  have hout := h 0 0 (full 0x80000083) _ (3 + m) rfl rfl hend (fun _ _ => rfl) .par
  have hstrobe : Strobed 0 (full 0x80000083) .par := by decide +kernel
  have hstore : ¬ StoresTo 0 (full 0x80000083) .par := by decide
  rw [out_ends hhigh (.inl ⟨rfl, rfl⟩) hend, if_pos hstrobe, if_neg hstore] at hout
  exact absurd hout (by decide)

end Frame

end Board

end RangerRisc
