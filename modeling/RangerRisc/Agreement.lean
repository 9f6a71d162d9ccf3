import RangerRisc.CsrCore
import RangerRisc.Isa
import RangerRisc.SeqCores
import RangerRisc.SynthesisCore

/-! The four processors agree: from the same architectural state they go through the
same architectural states, instruction by instruction, in different numbers of cycles. -/

namespace RangerRisc

open Clocked

/-! ## What a program must respect -/

/-- The address that a load or a store goes to. -/
def dataAddr (a : Arch) : Rv32i.Instr → Option Word
  | .load _ _ _ rs1 offset | .store _ rs1 _ offset => some (a.regs rs1 + offset)
  | _ => none

/-- The next instruction is legal and stays below the addresses mapped to IO. -/
def Below (a : Arch) : Prop :=
  a.pc.getLsbD 11 = false ∧
    ∃ i, Rv32i.decode a.fetched = some i ∧ ∀ addr ∈ dataAddr a i, addr.getLsbD 11 = false

theorem Below.not_system {a : Arch} (h : Below a) : irOpcode a.fetched ≠ .iTypeE := by
  obtain ⟨-, i, hi, -⟩ := h
  have henc := encodes_of_decode 0 hi
  cases i <;> rw [henc.1] <;> decide

theorem Below.effAddr {a : Arch} (h : Below a) (undef : Word) (hs : irOpcode a.fetched = .sType) :
    (effAddr undef a.fetched a).getLsbD 11 = false := by
  obtain ⟨-, i, hi, haddr⟩ := h
  have henc := encodes_of_decode undef hi
  cases i with
  | store size r1 r2 offset =>
    obtain ⟨-, -, rfl, -, himm⟩ := henc
    rw [RangerRisc.effAddr, himm]
    exact haddr _ rfl
  | _ => exact absurd (henc.1.symm.trans hs) (by decide)

/-! ## One instruction -/

namespace CoreName

variable (name : CoreName) (undef resetVector : Word)

theorem sequences :
    (name.core undef resetVector).Sequences (name.wiring undef resetVector) := by
  cases name with
  | rangerRisc => exact ControlMatrix.sequences _
  | rangerRiscCSRs => exact ControlMatrixCSRs.sequences _
  | rangerRiscProcessor => exact SynthesisMatrix.sequences _
  | rangerRiscMicrocode => exact MicroCodeMatrix.sequences _

theorem returns :
    (name.core undef resetVector).Returns (name.wiring undef resetVector) := by
  cases name with
  | rangerRisc => exact ControlMatrix.returns _
  | rangerRiscCSRs => exact ControlMatrixCSRs.returns _
  | rangerRiscProcessor => exact SynthesisMatrix.returns _
  | rangerRiscMicrocode => exact MicroCodeMatrix.returns _

theorem wiring_undef : (name.wiring undef resetVector).undef = undef := by
  cases name <;> rfl

/-- Every wiring lets through the stores below the mapped IO. -/
theorem storeReaches {a : Arch} (h : Below a) :
    StoreReaches (name.wiring undef resetVector) a.fetched a := by
  intro hs
  have haddr := h.effAddr (name.wiring undef resetVector).undef hs
  cases name with
  | rangerRisc => rfl
  | rangerRiscCSRs => rfl
  | rangerRiscProcessor => simpa [wiring, Wiring.memoryMapped] using haddr
  | rangerRiscMicrocode => simpa [wiring, Wiring.memoryMapped] using haddr

end CoreName

/-- The abstract machine: one instruction a step. -/
def archStep (undef : Word) (a : Arch) : Arch := instrStep undef a.fetched a

theorem archStep_undef {a : Arch} (h : Below a) (u u' : Word) : archStep u a = archStep u' a := by
  obtain ⟨-, i, hi, -⟩ := h
  exact instrStep_undef hi u u'

namespace Core

variable (c : Core)

/-- Between two instructions: in Fetch, the memory output being the word at pc. -/
def AtBoundary (s : c.State) : Prop :=
  c.AtFetch s ∧ (c.dp s).storage = (c.dp s).mem (Pmmu.wordAddr (c.dp s).pc)

/-- At a boundary in the architectural state `a`, no interrupt possible. -/
def Represents (s : c.State) (a : Arch) : Prop :=
  c.AtFetch s ∧ Ready a (c.dp s) ∧ c.interruptsDisabled s

variable {c} {s : c.State}

theorem AtBoundary.represents (h : c.AtBoundary s) (hd : c.interruptsDisabled s) :
    c.Represents s (c.dp s).arch :=
  ⟨h.1, ⟨rfl, h.2⟩, hd⟩

theorem Represents.atBoundary {a : Arch} (h : c.Represents s a) : c.AtBoundary s := by
  obtain ⟨hf, ⟨harch, hst⟩, -⟩ := h
  refine ⟨hf, ?_⟩
  rw [hst, ← harch]
  rfl

end Core

/-- From a boundary every processor gets to the next one as the abstract machine does. -/
theorem CoreName.represents_step (name : CoreName) (undef resetVector v : Word)
    {s : (name.core undef resetVector).State} {inp : ℕ → Input} {a : Arch} (hinp : High inp)
    (h : (name.core undef resetVector).Represents s a) (hok : Below a) :
    ∃ n, FirstReturn (name.core undef resetVector).step (name.core undef resetVector).AtFetch
        s inp n ∧
      (name.core undef resetVector).Represents
        (trace (name.core undef resetVector).step s inp n) (archStep v a) := by
  obtain ⟨hf, hready, hdis⟩ := h
  have hw := name.storeReaches undef resetVector hok
  obtain ⟨n, hret, hready', hdis'⟩ :=
    (name.sequences undef resetVector).instruction (name.returns undef resetVector) hinp hf hready
      hdis hok.not_system hw
  rw [name.wiring_undef] at hready'
  refine ⟨n, hret, hret.hit, ?_, hdis'⟩
  rw [archStep_undef hok v undef]
  exact hready'

/-! ## Any number of instructions -/

section Run
variable {c c' : CoreName} {undef undef' resetVector resetVector' : Word}

/-- The run of a processor follows the abstract machine, as long as the instructions it
comes to are legal and stay below the mapped IO. -/
theorem CoreName.run_represents (v : Word) {s : (c.core undef resetVector).State}
    {inp : ℕ → Input} (hinp : High inp) {a : Arch}
    (h : (c.core undef resetVector).Represents s a) (k : ℕ)
    (hok : ∀ j < k, ∀ n,
      Visit (c.core undef resetVector).step (c.core undef resetVector).AtFetch s inp j n →
      (c.core undef resetVector).Represents
        (trace (c.core undef resetVector).step s inp n) ((archStep v)^[j] a) →
      Below ((archStep v)^[j] a)) :
    ∃ n, Visit (c.core undef resetVector).step (c.core undef resetVector).AtFetch s inp k n ∧
      (c.core undef resetVector).Represents
        (trace (c.core undef resetVector).step s inp n) ((archStep v)^[k] a) :=
  visit_simulates h
    (fun m _ hb hbelow => by
      obtain ⟨n, hret, hrep⟩ := c.represents_step undef resetVector v (hinp.shift m) hb hbelow
      refine ⟨n, hret, ?_⟩
      rw [trace_add]
      exact hrep)
    k hok

/-- **The processors agree.** -/
theorem cores_agree {s : (c.core undef resetVector).State}
    {s' : (c'.core undef' resetVector').State} {inp inp' : ℕ → Input}
    (hinp : High inp) (hinp' : High inp')
    (hs : (c.core undef resetVector).AtBoundary s)
    (hs' : (c'.core undef' resetVector').AtBoundary s')
    (hd : (c.core undef resetVector).interruptsDisabled s)
    (hd' : (c'.core undef' resetVector').interruptsDisabled s')
    (harch : ((c.core undef resetVector).dp s).arch = ((c'.core undef' resetVector').dp s').arch)
    (k : ℕ)
    (hlegal : ∀ j < k, ∀ n,
      Visit (c.core undef resetVector).step (c.core undef resetVector).AtFetch s inp j n →
      Below ((c.core undef resetVector).dp
        (trace (c.core undef resetVector).step s inp n)).arch) :
    ∃ n n',
      Visit (c.core undef resetVector).step (c.core undef resetVector).AtFetch s inp k n ∧
      Visit (c'.core undef' resetVector').step (c'.core undef' resetVector').AtFetch s' inp' k n' ∧
      (c.core undef resetVector).AtBoundary (trace (c.core undef resetVector).step s inp n) ∧
      (c'.core undef' resetVector').AtBoundary
        (trace (c'.core undef' resetVector').step s' inp' n') ∧
      ((c.core undef resetVector).dp (trace (c.core undef resetVector).step s inp n)).arch =
        ((c'.core undef' resetVector').dp
          (trace (c'.core undef' resetVector').step s' inp' n')).arch := by
  have hrep := hs.represents hd
  have hrep' := hs'.represents hd'
  rw [← harch] at hrep'
  have hbelow : ∀ j < k, ∀ n,
      Visit (c.core undef resetVector).step (c.core undef resetVector).AtFetch s inp j n →
      (c.core undef resetVector).Represents (trace (c.core undef resetVector).step s inp n)
        ((archStep 0)^[j] ((c.core undef resetVector).dp s).arch) →
      Below ((archStep 0)^[j] ((c.core undef resetVector).dp s).arch) := by
    intro j hj n hn hr
    rw [← hr.2.1.arch]
    exact hlegal j hj n hn
  obtain ⟨n, hn, hr⟩ := CoreName.run_represents 0 hinp hrep k hbelow
  obtain ⟨n', hn', hr'⟩ := CoreName.run_represents 0 hinp' hrep' k (by
    intro j hj m' _ _
    obtain ⟨m, hm, hrm⟩ := CoreName.run_represents 0 hinp hrep j
      (fun i hi => hbelow i (hi.trans hj))
    exact hbelow j hj m hm hrm)
  exact ⟨n, n', hn, hn', hr.atBoundary, hr'.atBoundary, hr.2.1.arch.trans hr'.2.1.arch.symm⟩

/-- In Fetch, the memory full of nops. -/
def nops : SeqCore := ⟨⟨.fetch, .sync0, .itLoad⟩, Datapath.filled 0x00000013⟩

/-- In Fetch, with `addi x1, x0, 5`, `sw x1, 64(x0)` in the memory. -/
def saving : SeqCore :=
  ⟨⟨.fetch, .sync0, .itLoad⟩, { Datapath.filled 0x00500093 with
    mem := fun a => [0x00500093, 0x04102023].getD a.toNat 0 }⟩

/-- One processor takes nine edges, the other one ten. -/
theorem cores_agree_saving :
    ∃ n n',
      Visit (CoreName.rangerRisc.core 0 0).step (CoreName.rangerRisc.core 0 0).AtFetch saving
        (fun _ => ⟨true, false⟩) 2 n ∧
      Visit (CoreName.rangerRiscMicrocode.core 0 0).step
        (CoreName.rangerRiscMicrocode.core 0 0).AtFetch saving (fun _ => ⟨true, false⟩) 2 n' ∧
      (trace (CoreName.rangerRisc.core 0 0).step saving (fun _ => ⟨true, false⟩) n :
        SeqCore).dp.arch =
        (trace (CoreName.rangerRiscMicrocode.core 0 0).step saving (fun _ => ⟨true, false⟩) n' :
          SeqCore).dp.arch := by
  have hhigh : High fun _ => (⟨true, false⟩ : Input) := fun _ => rfl
  have hs : (CoreName.rangerRisc.core 0 0).AtBoundary saving := ⟨rfl, rfl⟩
  have hs' : (CoreName.rangerRiscMicrocode.core 0 0).AtBoundary saving := ⟨rfl, rfl⟩
  have haddi : Below saving.dp.arch :=
    ⟨rfl, .opImm .add 1 0 5, by decide +kernel, fun _ h => by simp [dataAddr] at h⟩
  have hsw : Below (trace (CoreName.rangerRisc.core 0 0).step saving (fun _ => ⟨true, false⟩) 4 :
      SeqCore).dp.arch := by
    refine ⟨by decide +kernel, .store .word 0 1 64, by decide +kernel, fun addr h => ?_⟩
    obtain rfl := Option.mem_some_iff.mp h
    decide +kernel
  have hearly : ∀ k < 4, 0 < k →
      (trace (CoreName.rangerRisc.core 0 0).step saving (fun _ => ⟨true, false⟩) k :
        SeqCore).seq.state ≠ .fetch := by decide +kernel
  have hfirst : FirstReturn (CoreName.rangerRisc.core 0 0).step
      (CoreName.rangerRisc.core 0 0).AtFetch saving (fun _ => ⟨true, false⟩) 4 :=
    ⟨by decide, rfl, fun k hk hk4 => hearly k hk4 hk⟩
  obtain ⟨n, n', hn, hn', -, -, harch⟩ := cores_agree hhigh hhigh hs hs' trivial trivial rfl 2
    fun j hj n hn => by
      obtain rfl | rfl : j = 0 ∨ j = 1 := by omega
      · rw [show n = 0 from hn]
        exact haddi
      · obtain rfl := hn.unique ⟨0, 4, rfl, (Nat.zero_add 4).symm, hfirst⟩
        exact hsw
  exact ⟨n, n', hn, hn', harch⟩

end Run

end RangerRisc
