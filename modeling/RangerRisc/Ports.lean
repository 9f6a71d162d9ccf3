import RangerRisc.InterruptProtocol

/-! The two output ports that `Synthesis/ranger_risc/csrs/Top.sv` puts behind the processor. Their
write strobe is decoded from the address bus alone, so that everything on the bus with bit 11 set
reaches a port, be it a store or not. -/

namespace RangerRisc

open Clocked

/-! ## Top.sv -/

/-- The outputs of `DeMux4.sv`. -/
def demux4 {n : ℕ} (select : BitVec 2) (data : BitVec n) (output : BitVec 2) : BitVec n :=
  if output = select then data else 0

/-- `io_wr`, active low. -/
def ioWr (addr : Word) : Bool := !addr.getLsbD 11

/-- `io_addr` -/
def ioAddr (addr : Word) : BitVec 8 := addr.extractLsb' 0 8

/-- The low byte of a register, all that the ports see of it. -/
def lowByte (data : Word) : BitVec 8 := data.extractLsb' 0 8

/-- `par_wr` and `seg_wr`, active low. -/
def portWr (port : BitVec 8) (addr : Word) : Bool := !(!ioWr addr && ioAddr addr == port)

/-- `par_out` and `seg_reg_out` -/
structure Ports where
  parOut : BitVec 8
  segRegOut : BitVec 8
  deriving DecidableEq, Repr

/-- The negative edge of `cpu_clock`. -/
def Ports.clock (addr : Word) (dataOut : BitVec 8) (r : Ports) : Ports where
  parOut := register (portWr 0x00 addr) (demux4 ((ioAddr addr).extractLsb' 0 2) dataOut 0) r.parOut
  segRegOut :=
    register (portWr 0x01 addr) (demux4 ((ioAddr addr).extractLsb' 0 2) dataOut 1) r.segRegOut

/-- The processor with its ports. -/
structure Board where
  core : CsrCore
  ports : Ports

/-- The address bus at the negative edge. -/
def addrMuxToPmmu (i : Input) (s : CsrCore) : Word :=
  s.dp.addrMux (SynthesisMatrix.outputsOn i s s.dp).control

def stepBoard (w : Wiring) (i : Input) (b : Board) : Board where
  core := stepSynthesis w i b.core
  ports := b.ports.clock (addrMuxToPmmu i b.core) (lowByte b.core.dp.rsb)

/-! ## A port by its number -/

inductive Port where
  | par | display
  deriving DecidableEq, Repr

namespace Port

def addr : Port → BitVec 8
  | par => 0x00
  | display => 0x01

def out (r : Ports) : Port → BitVec 8
  | par => r.parOut
  | display => r.segRegOut

/-- The address is an IO address, and that of the port. -/
def selected (p : Port) (a : Word) : Prop := a.getLsbD 11 = true ∧ a.extractLsb' 0 8 = p.addr

instance (p : Port) (a : Word) : Decidable (p.selected a) := inferInstanceAs (Decidable (_ ∧ _))

/-- The data that a port sees is not lost in the demultiplexer. -/
theorem out_clock (p : Port) (a : Word) (data : BitVec 8) (r : Ports) :
    p.out (r.clock a data) = if p.selected a then data else p.out r := by
  have hwr : ∀ port : BitVec 8, portWr port a = false ↔
      a.getLsbD 11 = true ∧ a.extractLsb' 0 8 = port := by
    intro port
    simp [portWr, ioWr, ioAddr]
  by_cases h : p.selected a
  · rw [if_pos h]
    have hwr' : portWr p.addr a = false := (hwr _).mpr h
    have hdata : demux4 ((ioAddr a).extractLsb' 0 2) data (p.addr.extractLsb' 0 2) = data := by
      rw [ioAddr, h.2]
      exact if_pos rfl
    cases p with
    | par => exact (if_pos hwr').trans hdata
    | display => exact (if_pos hwr').trans hdata
  · rw [if_neg h]
    have hwr' : ¬ portWr p.addr a = false := fun hw => h ((hwr _).mp hw)
    cases p with
    | par => exact if_neg hwr'
    | display => exact if_neg hwr'

end Port

section Trace
variable {w : Wiring} {b : Board} {inp : ℕ → Input}

/-- The ports do not act back on the processor. -/
theorem trace_core (n : ℕ) :
    (trace (stepBoard w) b inp n).core = trace (stepSynthesis w) b.core inp n := by
  induction n with
  | zero => rfl
  | succ n ih => rw [trace_succ, trace_succ, ← ih]; rfl

theorem out_step (p : Port) (i : Input) :
    p.out (stepBoard w i b).ports =
      if p.selected (addrMuxToPmmu i b.core) then lowByte b.core.dp.rsb else p.out b.ports :=
  p.out_clock _ _ _

/-- On a stretch of edges at which the same byte is on the data lines, the port has that byte
in the end if one of the addresses selects it. -/
theorem out_trace (p : Port) {n : ℕ} {data : BitVec 8}
    (hdata : ∀ k < n, lowByte (trace (stepSynthesis w) b.core inp k).dp.rsb = data) :
    p.out (trace (stepBoard w) b inp n).ports =
      if ∃ k < n, p.selected (addrMuxToPmmu (inp k) (trace (stepSynthesis w) b.core inp k)) then
        data
      else p.out b.ports := by
  induction n with
  | zero => simp
  | succ n ih =>
    rw [trace_succ, out_step, trace_core, hdata n (Nat.lt_succ_self n),
      ih fun k hk => hdata k (Nat.lt_succ_of_lt hk)]
    by_cases hnow : p.selected (addrMuxToPmmu (inp n) (trace (stepSynthesis w) b.core inp n))
    · rw [if_pos hnow, if_pos ⟨n, Nat.lt_succ_self n, hnow⟩]
    · rw [if_neg hnow]
      congr 1
      ext1
      constructor
      · rintro ⟨k, hk, hsel⟩
        exact ⟨k, Nat.lt_succ_of_lt hk, hsel⟩
      · rintro ⟨k, hk, hsel⟩
        rcases Nat.lt_or_eq_of_le (Nat.le_of_lt_succ hk) with hlt | rfl
        · exact ⟨k, hlt, hsel⟩
        · exact absurd hsel hnow

end Trace

/-! ## What is on the address bus -/

namespace SynthesisMatrix

/-- The instruction states that put ALUOut on the address bus, the others put pc there. -/
def addrFromAlu : InstructionState → Bool
  | .itLdMemAcc | .itLdMemMdr | .stStore | .stMemAcc | .stMemWrt => true
  | _ => false

section Bus
variable {w : Wiring} {i : Input} {s : CsrCore}

theorem addrSrc_shared {q : InstructionState} (ir : Word) (taken : Bool) :
    (executeControl q ir taken).addrSrc = addrFromAlu q := by
  cases q <;> rfl

/-- Outside Execute pc is on the bus. -/
theorem bus_pc (hs : s.seq.state ≠ .execute) : addrMuxToPmmu i s = s.dp.pc := by
  have haddr : (outputsOn i s s.dp).control.addrSrc = false := by
    cases hstate : s.seq.state with
    | reset => cases hv : s.seq.vectorState <;> simp [comb, main, hstate, hv] <;> rfl
    | preFetch => cases ha : accepts s.matrix <;> simp [comb, main, hstate, preFetch, ha] <;> rfl
    | execute => exact absurd hstate hs
    | _ =>
      simp [comb, main, hstate]
      rfl
  rw [addrMuxToPmmu, Datapath.addrMux, haddr]
  rfl

theorem bus_execute (hs : s.seq.state = .execute) : addrMuxToPmmu i s =
    if addrFromAlu s.seq.irState then s.dp.aluOut else s.dp.pc := by
  have haddr : (outputsOn i s s.dp).control.addrSrc = addrFromAlu s.seq.irState := by
    by_cases hsh : shared s.seq.irState
    · rw [outputsOn_shared hs hsh]
      cases executeNext s.seq.irState s.dp.ir with
      | next s' => exact addrSrc_shared _ _
      | done => exact addrSrc_shared _ _
    · cases hp : s.seq.irState with
      | itCsr => cases ha : action s.dp.ir <;> simp [comb, main, hs, execute, hp, itCsr, ha] <;> rfl
      | _ => first
        | exact absurd (by rw [hp]; rfl) hsh
        | (simp [comb, main, hs, execute, hp]; rfl)
  rw [addrMuxToPmmu, Datapath.addrMux, haddr]
  cases addrFromAlu s.seq.irState <;> rfl

end Bus

/-- The addresses that the instruction started in `q` on `d` puts on the bus up to its last
state, and the datapath after that. -/
inductive Drives (w : Wiring) : InstructionState → Datapath → List Word → Datapath → Prop where
  | last {q : InstructionState} {d : Datapath} (hq : shared q) (hd : executeNext q d.ir = .done) :
      Drives w q d [if addrFromAlu q then d.aluOut else d.pc] (d.exec w q)
  | step {q q' : InstructionState} {d e : Datapath} {as : List Word} (hq : shared q)
      (hd : executeNext q d.ir = .next q') (rest : Drives w q' (d.exec w q) as e) :
      Drives w q d ((if addrFromAlu q then d.aluOut else d.pc) :: as) e

/-- Only the last state of an instruction writes a register. -/
theorem exec_bank_next {w : Wiring} {q q' : InstructionState} {d : Datapath}
    (h : executeNext q d.ir = .next q') : (d.exec w q).bank = d.bank := by
  rw [exec_bank]
  cases q <;> first | rfl | exact absurd h.symm Succ.noConfusion

section Drives
variable {w : Wiring} {q : InstructionState} {d e : Datapath} {as : List Word}

/-- The edges at which these addresses are on the bus; what is on the data lines is the register
that Decode has read. -/
theorem Drives.edges (h : Drives w q d as e) {s : CsrCore} {inp : ℕ → Input} {data : Word}
    (hinp : ∀ k < as.length, (inp k).resetI = true) (hs : s.seq.state = .execute)
    (hq : s.seq.irState = q) (hd : s.dp = d) (hrsb : d.rsb = data) (hrs2 : d.rs2Out = data) :
    (∀ k < as.length, (trace (stepSynthesis w) s inp k).seq.state = .execute ∧
      (trace (stepSynthesis w) s inp k).dp.rsb = data ∧
      as[k]? = some (addrMuxToPmmu (inp k) (trace (stepSynthesis w) s inp k))) ∧
    (trace (stepSynthesis w) s inp as.length).seq.state = .preFetch ∧
    (trace (stepSynthesis w) s inp as.length).dp = e := by
  induction h generalizing s inp with
  | last hsh hdone =>
    subst hq hd
    have hstep := step_done (w := w) (hinp 0 Nat.one_pos) hs hsh hdone
    refine ⟨?_, congrArg (fun x : CsrCore => x.seq.state) hstep, congrArg CsrCore.dp hstep⟩
    intro k hk
    obtain rfl : k = 0 := Nat.lt_one_iff.mp hk
    exact ⟨hs, hrsb, congrArg some (bus_execute hs).symm⟩
  | @step q q' d e as hsh hnext _ ih =>
    subst hq hd
    have hstep := step_next (w := w) (hinp 0 (Nat.succ_pos _)) hs hsh hnext
    obtain ⟨hk, hpre, he⟩ := @ih (stepSynthesis w (inp 0) s) (fun k => inp (k + 1))
      (fun k hk => hinp (k + 1) (Nat.succ_lt_succ hk)) (by rw [hstep]; rfl) (by rw [hstep]; rfl)
      (by rw [hstep]) (by rw [exec_rsb, hrs2])
      (by rw [Datapath.rs2Out, exec_ir, exec_bank_next hnext]; exact hrs2)
    refine ⟨?_, ?_, ?_⟩
    · intro k hlt
      cases k with
      | zero => exact ⟨hs, hrsb, congrArg some (bus_execute hs).symm⟩
      | succ k =>
        rw [trace_succ']
        exact hk k (Nat.lt_of_succ_lt_succ hlt)
    · rw [List.length_cons, trace_succ']
      exact hpre
    · rw [List.length_cons, trace_succ']
      exact he

end Drives

/-- The addresses that the instruction `ir` at `a` puts on the bus in Execute: the next pc, that
of a load or store, and where a jump leads if it links, or mret. -/
def executeAddrs (undef ir mepc : Word) (a : Arch) : List Word :=
  (a.pc + 4) ::
    match decodeNext (csrSystem ir) ir with
    | .itLoad | .stStore => [effAddr undef ir a]
    | .itJalr => if dstRg ir = 0#5 then [] else [effAddr undef ir a]
    | .jtJal => if dstRg ir = 0#5 then [] else [a.pc + immediate undef ir]
    | .itMret => [mretPc mepc]
    | _ => []

section First
variable {w : Wiring} {ir : Word} {a : Arch} {d : Datapath}

/-- The instruction started in `q` puts the addresses `as` on the bus, in some order. -/
def Addresses (w : Wiring) (q : InstructionState) (d : Datapath) (as : List Word) : Prop :=
  ∃ bs e, Drives w q d bs e ∧ ∀ x, x ∈ bs ↔ x ∈ as

theorem addresses_alu {q : InstructionState} (h : Decoded ir a d) (hq : q = .rType ∨ q = .itAlu) :
    Addresses w q d [a.pc + 4] := by
  by_cases hd : dstRg ir = 0#5
  · rcases hq with rfl | rfl
    · exact ⟨_, _, .last rfl (by simp [executeNext, h.ir_eq, hd]), by simp [addrFromAlu, h.pc]⟩
    · exact ⟨_, _, .last rfl (by simp [executeNext, h.ir_eq, hd]), by simp [addrFromAlu, h.pc]⟩
  · rcases hq with rfl | rfl
    · exact ⟨_, _, .step rfl (by simp [executeNext, h.ir_eq, hd]; rfl) (.last rfl rfl),
        by simp [addrFromAlu, exec_pc, h.pc]⟩
    · exact ⟨_, _, .step rfl (by simp [executeNext, h.ir_eq, hd]; rfl) (.last rfl rfl),
        by simp [addrFromAlu, exec_pc, h.pc]⟩

theorem addresses_itLoad (h : Decoded ir a d) :
    Addresses w .itLoad d [a.pc + 4, effAddr w.undef ir a] := by
  refine ⟨_, _, .step rfl rfl (.step rfl rfl (.step rfl rfl (.last rfl rfl))), ?_⟩
  intro x
  simp [addrFromAlu, exec_pc, exec_aluOut, h.pc, h.rsa, h.immExtOut, effAddr]
  tauto

/-- STStore still has on the bus what Decode left in ALUOut, the next pc. The memory keeps its
words where the wiring withholds the store. -/
theorem drives_stStore (h : Decoded ir a d) (hout : d.aluOut = a.pc + 4) :
    ∃ bs e, Drives w .stStore d bs e ∧ (∀ x, x ∈ bs ↔ x ∈ [a.pc + 4, effAddr w.undef ir a]) ∧
      (w.memWr rwActive (effAddr w.undef ir a) = rwInActive → e.mem = a.mem) := by
  by_cases hs : Pmmu.isWordSize (funct3 ir)
  · refine ⟨_, _, .step rfl (by simp [executeNext, h.ir_eq, hs]; rfl) (.last rfl rfl), ?_, ?_⟩
    · simp [addrFromAlu, exec_aluOut, hout, h.rsa, h.immExtOut, effAddr]
    · intro hw
      simp only [exec_mem, exec_aluOut, h.rsa, h.immExtOut, h.mem]
      rw [show srcA ir a + immediate w.undef ir = effAddr w.undef ir a from rfl, hw,
        Mem.write_inactive]
  · refine ⟨_, _, .step rfl (by simp [executeNext, h.ir_eq, hs]; rfl)
      (.step rfl rfl (.last rfl rfl)), ?_, ?_⟩
    · simp [addrFromAlu, exec_aluOut, hout, h.rsa, h.immExtOut, effAddr]
    · intro hw
      simp only [exec_mem, exec_aluOut, h.rsa, h.immExtOut, h.mem]
      rw [show srcA ir a + immediate w.undef ir = effAddr w.undef ir a from rfl, hw,
        Mem.write_inactive]

theorem addresses_stStore (h : Decoded ir a d) (hout : d.aluOut = a.pc + 4) :
    Addresses w .stStore d [a.pc + 4, effAddr w.undef ir a] := by
  obtain ⟨bs, e, hdrives, hmem, -⟩ := drives_stStore (w := w) h hout
  exact ⟨bs, e, hdrives, hmem⟩

theorem addresses_bType (h : Decoded ir a d) : Addresses w .bType d [a.pc + 4] :=
  ⟨_, _, .step rfl rfl (.last rfl rfl), by simp [addrFromAlu, exec_pc, h.pc]⟩

theorem addresses_itJalr (h : Decoded ir a d) : Addresses w .itJalr d
    ((a.pc + 4) :: if dstRg ir = 0#5 then [] else [effAddr w.undef ir a]) := by
  by_cases hd : dstRg ir = 0#5
  · exact ⟨_, _, .last rfl (by simp [executeNext, h.ir_eq, hd]), by simp [addrFromAlu, h.pc, hd]⟩
  · exact ⟨_, _, .step rfl (by simp [executeNext, h.ir_eq, hd]; rfl) (.last rfl rfl),
      by simp [addrFromAlu, exec_pc, h.pc, hd, h.rsa, h.immExtOut, effAddr]⟩

theorem addresses_jtJal (h : Decoded ir a d) : Addresses w .jtJal d
    ((a.pc + 4) :: if dstRg ir = 0#5 then [] else [a.pc + immediate w.undef ir]) := by
  by_cases hd : dstRg ir = 0#5
  · exact ⟨_, _, .last rfl (by simp [executeNext, h.ir_eq, hd]), by simp [addrFromAlu, h.pc, hd]⟩
  · exact ⟨_, _, .step rfl (by simp [executeNext, h.ir_eq, hd]; rfl) (.last rfl rfl),
      by simp [addrFromAlu, exec_pc, h.pc, hd, h.pcPrior, h.immExtOut]⟩

theorem addresses_uType {q : InstructionState} (h : Decoded ir a d)
    (hq : q = .uType ∨ q = .uTypeAui) : Addresses w q d [a.pc + 4] := by
  rcases hq with rfl | rfl
  · exact ⟨_, _, .last rfl rfl, by simp [addrFromAlu, h.pc]⟩
  · exact ⟨_, _, .last rfl rfl, by simp [addrFromAlu, h.pc]⟩

/-- Every instruction that Decode sends to a shared state. -/
theorem addresses_decoded (mepc : Word) (h : Decoded ir a d) (hout : d.aluOut = a.pc + 4)
    (hsh : shared (decodeNext (csrSystem ir) ir)) :
    Addresses w (decodeNext (csrSystem ir) ir) d (executeAddrs w.undef ir mepc a) := by
  unfold executeAddrs
  cases ho : irOpcode ir with
  | iTypeE =>
    have hfirst : decodeNext (csrSystem ir) ir = csrSystem ir := by rw [decodeNext, ho]
    rw [hfirst] at hsh ⊢
    have hload : csrSystem ir = .itLoad := by
      revert hsh
      unfold csrSystem
      split_ifs <;> simp [shared]
    rw [hload]
    exact addresses_itLoad h
  | rType =>
    rw [decodeNext, ho]
    exact addresses_alu h (.inl rfl)
  | iType =>
    rw [decodeNext, ho]
    exact addresses_alu h (.inr rfl)
  | iTypeJ =>
    rw [decodeNext, ho]
    exact addresses_itJalr h
  | sType =>
    rw [decodeNext, ho]
    exact addresses_stStore h hout
  | bType =>
    rw [decodeNext, ho]
    exact addresses_bType h
  | jType =>
    rw [decodeNext, ho]
    exact addresses_jtJal h
  | uTypeL =>
    rw [decodeNext, ho]
    exact addresses_uType h (.inl rfl)
  | uTypeA =>
    rw [decodeNext, ho]
    exact addresses_uType h (.inr rfl)
  | iTypeL | unknown =>
    rw [decodeNext, ho]
    exact addresses_itLoad h

end First

end SynthesisMatrix

end RangerRisc
