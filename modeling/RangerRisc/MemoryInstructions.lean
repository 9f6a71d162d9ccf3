import RangerRisc.Boundary

/-! Loads and stores on `modules/RangerRiscCSRs.sv`: over any sequence of aligned ones the
processor is a little-endian byte memory. -/

namespace RangerRisc

open Clocked

namespace ControlMatrixCSRs

/-- `i` is a load or a store, at an address that is a multiple of its size. -/
def AlignedAccess (a : Arch) : Rv32i.Instr → Prop
  | .load size _ _ rs1 offset | .store size rs1 _ offset => size.Aligned (a.regs rs1 + offset)
  | _ => False

section Access
variable {a : Arch} {i : Rv32i.Instr}

theorem AlignedAccess.agrees (h : AlignedAccess a i) : Agrees a i := by
  cases i with
  | load | store => exact h
  | _ => exact h.elim

theorem AlignedAccess.not_system {undef ir : Word} (h : AlignedAccess a i)
    (henc : Encodes undef ir i) : irOpcode ir ≠ .iTypeE := by
  cases i with
  | load | store => simp [henc.1]
  | _ => exact h.elim

end Access

/-- No interrupt is accepted, and the next instruction is the access `i`. -/
structure AccessAt (s : CsrCore) (i : Rv32i.Instr) : Prop where
  noIrq : accepts s.matrix = false
  decode : Rv32i.decode (s.dp.mem (Pmmu.wordAddr s.dp.pc)) = some i
  aligned : AlignedAccess s.dp.arch i

section Run
variable {undef resetVector : Word} {s : CsrCore} {inp : ℕ → Input}

/-- One access. -/
theorem access_boundary {i : Rv32i.Instr} (hinp : High inp) (hb : AtPreFetch s)
    (hi : AccessAt s i) :
    ∃ n, FirstReturn (stepCSRs (Wiring.rangerRiscCSRs undef resetVector)) AtPreFetch s inp n ∧
      (trace (stepCSRs (Wiring.rangerRiscCSRs undef resetVector)) s inp n).dp.arch.toState =
        Rv32i.exec s.dp.arch.toState i := by
  have henc : Encodes undef s.dp.arch.fetched i := encodes_of_decode undef hi.decode
  obtain ⟨n, hret, harch, -⟩ := boundary_chain (w := Wiring.rangerRiscCSRs undef resetVector)
    hinp hb hi.noIrq (hi.aligned.not_system henc) (fun _ => rfl)
  refine ⟨n, hret, ?_⟩
  rw [harch]
  exact instrStep_exec henc hi.aligned.agrees

/-- **Any sequence of aligned loads and stores.** The registers, pc and the bytes of the
memory are those that the instruction set gives for the sequence. -/
theorem access_run (is : List Rv32i.Instr) (hinp : High inp) (hb : AtPreFetch s)
    (his : ∀ j (hj : j < is.length) n,
      Visit (stepCSRs (Wiring.rangerRiscCSRs undef resetVector)) AtPreFetch s inp j n →
      AccessAt (trace (stepCSRs (Wiring.rangerRiscCSRs undef resetVector)) s inp n) is[j]) :
    ∃ n, Visit (stepCSRs (Wiring.rangerRiscCSRs undef resetVector)) AtPreFetch s inp is.length n ∧
      (trace (stepCSRs (Wiring.rangerRiscCSRs undef resetVector)) s inp n).dp.arch.toState =
        is.foldl Rv32i.exec s.dp.arch.toState := by
  have hprefix : ∀ j ≤ is.length, ∃ n,
      Visit (stepCSRs (Wiring.rangerRiscCSRs undef resetVector)) AtPreFetch s inp j n ∧
      (trace (stepCSRs (Wiring.rangerRiscCSRs undef resetVector)) s inp n).dp.arch.toState =
        (is.take j).foldl Rv32i.exec s.dp.arch.toState := by
    intro j
    induction j with
    | zero => exact fun _ => ⟨0, rfl, rfl⟩
    | succ j ih =>
      intro hj
      obtain ⟨n, hn, hstate⟩ := ih (Nat.le_of_succ_le hj)
      obtain ⟨d, hd, hexec⟩ := access_boundary (hinp.shift n) (hn.hit hb) (his j hj n hn)
      refine ⟨n + d, ⟨n, d, hn, rfl, hd⟩, ?_⟩
      rw [trace_add, hexec, hstate, List.take_succ_eq_append_getElem hj, List.foldl_append]
      rfl
  obtain ⟨n, hn, hstate⟩ := hprefix is.length (Nat.le_refl _)
  rw [List.take_length] at hstate
  exact ⟨n, hn, hstate⟩

/-- `sb x2, 257(x0)`, `lb x1, 257(x0)`, with 0xF5 in x2. -/
def storing : CsrCore :=
  { resting 0 ⟨false, false, false⟩ with
    dp := { Datapath.filled 0 with
      bank := fun r => if r = 2 then 0xF5 else 0
      mem := fun a => [0x102000A3, 0x10100083].getD a.toNat 0 } }

theorem access_run_storing :
    ∃ n, Visit (stepCSRs (Wiring.rangerRiscCSRs 0 0)) AtPreFetch storing
      (fun _ => ⟨true, false⟩) 2 n ∧
      (trace (stepCSRs (Wiring.rangerRiscCSRs 0 0)) storing (fun _ => ⟨true, false⟩)
        n).dp.arch.regs 1 = 0xFFFFFFF5 := by
  have hstore : AccessAt storing (.store .byte 0 2 0x101) :=
    ⟨rfl, by decide +kernel, Nat.mod_one _⟩
  have hload : AccessAt (trace (stepCSRs (Wiring.rangerRiscCSRs 0 0)) storing
      (fun _ => ⟨true, false⟩) 6) (.load .byte true 1 0 0x101) :=
    ⟨by decide +kernel, by decide +kernel, Nat.mod_one _⟩
  have hfirst : FirstReturn (stepCSRs (Wiring.rangerRiscCSRs 0 0)) AtPreFetch storing
      (fun _ => ⟨true, false⟩) 6 := by decide +kernel
  obtain ⟨n, hn, hstate⟩ := @access_run 0 0 storing (fun _ => ⟨true, false⟩)
    [.store .byte 0 2 0x101, .load .byte true 1 0 0x101] (fun _ => rfl) ⟨rfl, rfl⟩
      fun j hj n hn => by
      obtain rfl | rfl : j = 0 ∨ j = 1 := by
        have : j < 2 := hj
        omega
      · rw [show n = 0 from hn]
        exact hstore
      · obtain rfl := hn.unique ⟨0, 6, rfl, (Nat.zero_add 6).symm, hfirst⟩
        exact hload
  exact ⟨n, hn, (congrArg (fun s : Rv32i.State 12 => s.regs 1) hstate).trans (by decide +kernel)⟩

end Run

end ControlMatrixCSRs

end RangerRisc
