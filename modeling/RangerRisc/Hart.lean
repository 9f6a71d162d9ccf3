import RangerRisc.CsrInstructions
import RangerRisc.Unrecognised

/-! The processor with CSRs as a program sees it: one step is a trap, an instruction, a CSR
instruction or mret, and `irq_i` may fall at any time. -/

namespace RangerRisc

open BitField

/-! ## The CSRs and the interrupt -/

/-- The CSRs and the flags around them. -/
@[ext] structure TrapState where
  csrs : CsrRegs
  /-- `irq_i` has fallen, and no trap has been entered since. -/
  triggered : Bool
  inProgress : Bool
  deriving DecidableEq, Repr

theorem CsrRegs.setMip_of_MEIP {r : CsrRegs} {b : Bool} (h : r.mip.getLsbD Csr.mipMEIP = b) :
    r.setMip b = r := by
  have hmip : assignBit r.mip Csr.mipMEIP b = r.mip := by
    apply BitVec.eq_of_getLsbD_eq
    intro j _
    rw [getLsbD_assignBit _ _ _ _ (by decide)]
    split
    · next hj => rw [hj, h]
    · rfl
  rw [setMip, hmip]

namespace TrapState
variable (t : TrapState)

def accepts : Bool := t.csrs.irqPending && !t.inProgress

/-- Time passes, in which `irq_i` may fall: what is triggered gets pending, unless a trap is in
progress. -/
def pend (falls : Bool) : TrapState where
  csrs := if (t.triggered || falls) && !t.inProgress then t.csrs.setMip true else t.csrs
  triggered := t.triggered || falls
  inProgress := t.inProgress

/-- Into the handler, from `pc`. -/
def enter (pc : Word) : TrapState where
  csrs := { t.csrs with mstatus := trapStatus t.csrs.mstatus, mepc := pc }
  triggered := false
  inProgress := true

/-- mret. What is triggered outside a trap is still pending. -/
def leave : TrapState where
  csrs := CsrRegs.setMip { t.csrs with mstatus := mretStatus t.csrs.mstatus }
    (t.triggered && !t.inProgress)
  triggered := t.triggered
  inProgress := false

/-- The CSRs after `f`. -/
def edit (f : CsrRegs → CsrRegs) : TrapState := { t with csrs := f t.csrs }

/-- An edit of the CSRs that does not look at MEIP may as well come first. -/
theorem pend_edit {f : CsrRegs → CsrRegs}
    (hf : ∀ r, (f (r.setMip true)).setMip true = (f r).setMip true) (a b : Bool) :
    ((t.pend a).edit f).pend b = (t.edit f).pend (a || b) := by
  cases t with
  | mk csrs triggered inProgress =>
    cases triggered <;> cases inProgress <;> cases a <;> cases b <;> simp [pend, edit, hf]

theorem pend_pend (a b : Bool) : (t.pend a).pend b = t.pend (a || b) :=
  t.pend_edit (f := id) (fun r => r.setMip_setMip true true) a b

@[simp] theorem pend_mepc (falls : Bool) : (t.pend falls).csrs.mepc = t.csrs.mepc := by
  simp only [pend]
  split <;> rfl

theorem pend_MEIP {falls : Bool} (h : (t.triggered || falls) = true) (hin : t.inProgress = false) :
    (t.pend falls).csrs.mip.getLsbD Csr.mipMEIP = true := by
  simp only [pend, h, hin, Bool.not_false, Bool.and_self, if_true]
  exact CsrRegs.setMip_mip_MEIP _ _

/-- mret overwrites MEIP. -/
theorem leave_pend (falls : Bool) : (t.pend falls).leave =
    ⟨CsrRegs.setMip { t.csrs with mstatus := mretStatus t.csrs.mstatus }
      ((t.triggered || falls) && !t.inProgress), t.triggered || falls, false⟩ := by
  simp only [leave, pend]
  congr 1
  split
  · exact CsrRegs.setMip_setMip { t.csrs with mstatus := mretStatus t.csrs.mstatus } true _
  · rfl

end TrapState

/-! ## CSR instructions -/

/-- What the instruction makes of the CSRs. -/
def CsrRegs.perform (i : Zicsr.Instr) (operand : Word) (r : CsrRegs) : CsrRegs :=
  r.write i.addr (i.op.eval (r.read i.addr) operand)

/-- Every bit of the new value comes from the same bit of the old one. -/
theorem eval_assignBit (op : Zicsr.Op) (old operand : Word) {k : ℕ} (hk : k < 32) (b : Bool) :
    assignBit (op.eval (assignBit old k b) operand) k b = assignBit (op.eval old operand) k b := by
  apply BitVec.eq_of_getLsbD_eq
  intro j _
  rw [getLsbD_assignBit _ k j b hk, getLsbD_assignBit _ k j b hk]
  split
  · rfl
  · next hj => cases op <;> simp [Zicsr.Op.eval, getLsbD_assignBit _ k j b hk, hj]

theorem CsrRegs.write_setMip {addr : BitVec 12} (h : addr ≠ Csr.mip) (r : CsrRegs) (b : Bool)
    (data : Word) : (r.setMip b).write addr data = (r.write addr data).setMip b := by
  unfold write
  rw [if_neg h, if_neg h]
  split_ifs <;> rfl

theorem CsrRegs.perform_setMip (i : Zicsr.Instr) (operand : Word) (r : CsrRegs) (b : Bool) :
    ((r.setMip b).perform i operand).setMip b = (r.perform i operand).setMip b := by
  unfold perform
  by_cases h : i.addr = Csr.mip
  · rw [h]
    exact congrArg (CsrRegs.mk _ _ · _ _) (eval_assignBit i.op r.mip operand (by decide) b)
  · rw [read_setMip r h, write_setMip h, setMip_setMip]

/-! ## The steps -/

structure Hart where
  arch : Arch
  traps : TrapState

/-- Whether `irq_i` falls during a step: before a CSR is read, or later. -/
structure Arrival where
  early : Bool
  late : Bool

/-- What Decode makes of a word. -/
inductive Kind where
  | plain | csr (i : Zicsr.Instr) | mret | hangs
  deriving DecidableEq, Repr

/-- ECALL and EBREAK wait for ever; so does SYSTEM with funct3 = 100, which fetches the same
word again and again. What Decode does not know is executed as a load. -/
def kind (ir : Word) : Kind :=
  if irOpcode ir = .iTypeE then
    if funct3 ir = 0b000#3 then
      if funct12 ir = 0x302#12 then .mret
      else if funct12 ir = 0x000#12 ∨ funct12 ir = 0x001#12 then .hangs
      else .plain
    else
      match Zicsr.decode ir with
      | some i => .csr i
      | none => .hangs
  else .plain

namespace Hart
variable (undef : Word) (arr : Arrival) (h : Hart)

def trap : Hart :=
  ⟨{ h.arch with pc := h.traps.csrs.mtvec }, h.traps.enter h.arch.pc⟩

def instr : Hart :=
  ⟨instrStep undef h.arch.fetched h.arch, h.traps.pend (arr.early || arr.late)⟩

/-- The set and clear forms of x0 do nothing. -/
def csrInstr (i : Zicsr.Instr) : Hart :=
  if i.op ≠ .write ∧ i.immediate = false ∧ i.source = 0#5 then
    ⟨{ h.arch with pc := h.arch.pc + 4 }, h.traps.pend (arr.early || arr.late)⟩
  else
    ⟨⟨h.arch.pc + 4, h.arch.regs.write i.rd ((h.traps.pend arr.early).csrs.read i.addr),
        h.arch.mem⟩,
      ((h.traps.pend arr.early).edit (CsrRegs.perform i (i.operand h.arch.regs))).pend arr.late⟩

def mret : Hart :=
  ⟨{ h.arch with pc := mretPc h.traps.csrs.mepc },
    (h.traps.pend (arr.early || arr.late)).leave⟩

/-- One step, if there is one. -/
def step : Option Hart :=
  if h.traps.accepts then some h.trap
  else
    match kind h.arch.fetched with
    | .plain => some (h.instr undef arr)
    | .csr i => some (h.csrInstr arr i)
    | .mret => some (h.mret arr)
    | .hangs => none

variable {undef arr h}

theorem step_of_accepts (ha : h.traps.accepts = true) : h.step undef arr = some h.trap := by
  rw [step, ha, if_pos rfl]

theorem step_of_not_accepts (ha : h.traps.accepts = false) : h.step undef arr =
    match kind h.arch.fetched with
    | .plain => some (h.instr undef arr)
    | .csr i => some (h.csrInstr arr i)
    | .mret => some (h.mret arr)
    | .hangs => none := by
  rw [step, ha, if_neg Bool.false_ne_true]

end Hart

/-! ## What Decode makes of a word -/

section Kind
variable {ir : Word} {i : Zicsr.Instr}

theorem kind_plain (h : kind ir = .plain) :
    irOpcode ir ≠ .iTypeE ∨ ControlMatrixCSRs.Unrecognised ir := by
  unfold kind at h
  split_ifs at h with ho hf hm hw
  · obtain ⟨h0, h1⟩ := not_or.mp hw
    exact .inr (.inr ⟨ho, hf, h0, h1, hm⟩)
  · split at h <;> exact Kind.noConfusion h
  · exact .inl ho

theorem kind_csr (h : kind ir = .csr i) : CsrFields ir i := by
  unfold kind at h
  split_ifs at h with ho hf
  split at h
  · next hdec =>
    obtain rfl := Kind.csr.inj h
    exact csrFields hdec
  · exact Kind.noConfusion h

theorem CsrFields.decodeNext (h : CsrFields ir i) :
    RangerRisc.decodeNext (csrSystem ir) ir = .itCsr := by
  rw [RangerRisc.decodeNext, h.opcode]
  exact if_pos h.isCSRInstr

theorem kind_mret (h : kind ir = .mret) : decodeNext (csrSystem ir) ir = .itMret := by
  unfold kind at h
  split_ifs at h with ho hf hm
  · simp [decodeNext, ho, csrSystem, isCSRInstr, hf, hm]
  · split at h <;> exact Kind.noConfusion h

/-- Zicsr leaves out one value of funct3 alone. -/
theorem decode_system (ho : irOpcode ir = .iTypeE) (hf : funct3 ir ≠ 0b000#3)
    (hdec : Zicsr.decode ir = none) : funct3 ir = 0b100#3 := by
  have hop : ∀ b : BitVec 7, Opcode.ofBits b = .iTypeE → b = 0b1110011#7 := by decide
  have hfunct : ∀ f : BitVec 3, Zicsr.Op.ofBits (f.extractLsb' 0 2) = none →
      f = 0b000#3 ∨ f = 0b100#3 := by decide
  have hlow : (funct3 ir).extractLsb' 0 2 = ir.extractLsb' 12 2 := by
    apply BitVec.eq_of_getLsbD_eq
    intro j hj
    simp only [funct3, BitVec.getLsbD_extractLsb', hj, Nat.zero_add, decide_true, Bool.true_and]
    simp [show j < 3 by omega]
  rw [Zicsr.decode, if_pos (hop _ ho), Option.map_eq_none_iff, ← hlow] at hdec
  exact (hfunct _ hdec).resolve_left hf

theorem kind_hangs (h : kind ir = .hangs) :
    decodeNext (csrSystem ir) ir = .itEbreak ∨ decodeNext (csrSystem ir) ir = .itECall ∨
      decodeNext (csrSystem ir) ir = .itCsr ∧ ControlMatrixCSRs.action ir = .unknown := by
  unfold kind at h
  split_ifs at h with ho hf hm hw
  · rcases hw with hw | hw
    · simp [decodeNext, ho, csrSystem, isCSRInstr, hf, hw]
    · simp [decodeNext, ho, csrSystem, isCSRInstr, hf, hw]
  · split at h
    · exact Kind.noConfusion h
    · next hdec =>
      have hf4 := decode_system ho hf hdec
      refine .inr (.inr ⟨by simp [decodeNext, ho, csrSystem, isCSRInstr, hf], ?_⟩)
      rw [ControlMatrixCSRs.action, hf4]
      rfl

end Kind

end RangerRisc
