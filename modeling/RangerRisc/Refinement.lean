import RangerRisc.Core
import RangerRisc.Instruction

/-! What the four processors have in common, stated once: how each of them steps through
Fetch, Decode and the shared instruction states, and how it gets from the last state of
an instruction back to Fetch. From that, one instruction of any of them is `instrStep`. -/

namespace RangerRisc

open Clocked

/-- `reset_i` stays inactive. -/
def High (inp : ℕ → Input) : Prop := ∀ n, (inp n).resetI = true

theorem High.shift {inp : ℕ → Input} (h : High inp) (m : ℕ) : High (fun k => inp (m + k)) :=
  fun k => h (m + k)

namespace Core

variable (c : Core)

def AtFetch (s : c.State) : Prop := (c.seq s).state = .fetch

/-- In Decode, coming from Fetch. -/
def AtDecode (s : c.State) : Prop := (c.seq s).state = .decode ∧ (c.seq s).irState = .itLoad

/-- In one of the states that all matrices share. -/
def InShared (s : c.State) : Prop := (c.seq s).state = .execute ∧ shared (c.seq s).irState

/-- How a processor goes through an instruction other than SYSTEM. -/
structure Sequences (w : Wiring) : Prop where
  fetch : ∀ i s, i.resetI = true → c.AtFetch s →
    (∃ op data, c.dp (c.step i s) =
      (c.dp s).clock w { fetchControl with aluOp := op, rdData := data }) ∧
    c.AtDecode (c.step i s)
  decode : ∀ i s, i.resetI = true → c.AtDecode s → irOpcode (c.dp s).ir ≠ .iTypeE →
    c.dp (c.step i s) = (c.dp s).clock w decodeControl ∧
    (c.seq (c.step i s)).state = .execute ∧
    (c.seq (c.step i s)).irState = decodeNext .itLoad (c.dp s).ir
  execute : ∀ i s s', i.resetI = true → c.InShared s →
    executeNext (c.seq s).irState (c.dp s).ir = .next s' →
    c.dp (c.step i s) = (c.dp s).exec w (c.seq s).irState ∧
    (c.seq (c.step i s)).state = .execute ∧ (c.seq (c.step i s)).irState = s'

/-- How it gets back to Fetch while interrupts are disabled. -/
structure Returns (w : Wiring) : Prop where
  disabled : ∀ i s, i.resetI = true →
    c.AtFetch s ∨ c.AtDecode s ∨ c.InShared s →
    c.interruptsDisabled s → c.interruptsDisabled (c.step i s)
  leave : ∀ s inp, High inp → c.InShared s →
    executeNext (c.seq s).irState (c.dp s).ir = .done → c.interruptsDisabled s →
    ∃ n, FirstReturn c.step c.AtFetch s inp n ∧
      Ready ((c.dp s).exec w (c.seq s).irState).arch (c.dp (trace c.step s inp n)) ∧
      c.interruptsDisabled (trace c.step s inp n)

variable {c} {w : Wiring}

/-- The instruction states follow one another, one edge each. -/
theorem Sequences.execute_chain (hc : c.Sequences w) {s l : InstructionState} {d e : Datapath}
    (h : Executes w s d l e) {x : c.State} {inp : ℕ → Input} (hinp : High inp)
    (hx : (c.seq x).state = .execute) (hs : (c.seq x).irState = s) (hd : c.dp x = d) :
    ∃ n, (c.seq (trace c.step x inp n)).irState = l ∧ c.dp (trace c.step x inp n) = e ∧
      ∀ k ≤ n, c.InShared (trace c.step x inp k) := by
  induction h generalizing x inp with
  | last hsh _ =>
    refine ⟨0, hs, hd, ?_⟩
    intro k hk
    obtain rfl : k = 0 := by omega
    exact ⟨hx, hs ▸ hsh⟩
  | @step s s' l d e hsh hnext _ ih =>
    have hin : c.InShared x := ⟨hx, hs ▸ hsh⟩
    obtain ⟨hd', hx', hs'⟩ := hc.execute (inp 0) x s' (hinp 0) hin (by rw [hs, hd, hnext])
    obtain ⟨n, hl, he, hpath⟩ :=
      ih (hinp.shift 1) hx' hs' (by rw [hd', hd, hs])
    have hshift : ∀ k, trace c.step x inp (k + 1) =
        trace c.step (c.step (inp 0) x) (fun j => inp (1 + j)) k := by
      intro k
      rw [Nat.add_comm, trace_add]
      rfl
    refine ⟨n + 1, by rw [hshift, hl], by rw [hshift, he], ?_⟩
    intro k hk
    cases k with
    | zero => exact hin
    | succ k =>
      rw [hshift]
      exact hpath k (by omega)

/-- From Fetch to the last state of the instruction. -/
theorem Sequences.instruction_chain (hc : c.Sequences w) {x : c.State} {inp : ℕ → Input} {a : Arch}
    (hinp : High inp) (hx : c.AtFetch x) (hready : Ready a (c.dp x))
    (hsys : irOpcode a.fetched ≠ .iTypeE) (hw : StoreReaches w a.fetched a) :
    ∃ n, c.AtDecode (trace c.step x inp 1) ∧
      (∀ k ≤ n, c.InShared (trace c.step x inp (2 + k))) ∧
      executeNext (c.seq (trace c.step x inp (2 + n))).irState
        (c.dp (trace c.step x inp (2 + n))).ir = .done ∧
      ((c.dp (trace c.step x inp (2 + n))).exec w
        (c.seq (trace c.step x inp (2 + n))).irState).arch = instrStep w.undef a.fetched a := by
  obtain ⟨⟨op, data, hd1⟩, hs1⟩ := hc.fetch (inp 0) x (hinp 0) hx
  have hfetched : Fetched a (c.dp (trace c.step x inp 1)) := by
    rw [trace_succ, trace_zero, hd1]
    exact hready.fetch op data
  obtain ⟨hd2, hs2, hi2⟩ := hc.decode (inp 1) (trace c.step x inp 1) (hinp 1) hs1
    (by rw [hfetched.ir_eq]; exact hsys)
  have hdecoded : Decoded a.fetched a (c.dp (trace c.step x inp 2)) := by
    rw [trace_succ, hd2]
    exact hfetched.decode
  obtain ⟨l, e, hrun, harch⟩ := completes_decoded hdecoded hsys hw .itLoad
  rw [hfetched.ir_eq] at hi2
  obtain ⟨n, hl, he, hpath⟩ := hc.execute_chain (x := trace c.step x inp 2) hrun
    (hinp.shift 2) hs2 hi2 rfl
  refine ⟨n, hs1, ?_, ?_, ?_⟩
  · intro k hk
    rw [trace_add]
    exact hpath k hk
  · rw [trace_add, hl, he]
    exact hrun.last_done
  · rw [trace_add, hl, he]
    exact harch

/-- **One instruction.** From Fetch the processor returns to Fetch, and in between it has
done what `instrStep` says. -/
theorem Sequences.instruction (hc : c.Sequences w) (hr : c.Returns w) {x : c.State}
    {inp : ℕ → Input} {a : Arch} (hinp : High inp) (hx : c.AtFetch x)
    (hready : Ready a (c.dp x)) (hdis : c.interruptsDisabled x)
    (hsys : irOpcode a.fetched ≠ .iTypeE) (hw : StoreReaches w a.fetched a) :
    ∃ n, FirstReturn c.step c.AtFetch x inp n ∧
      Ready (instrStep w.undef a.fetched a) (c.dp (trace c.step x inp n)) ∧
      c.interruptsDisabled (trace c.step x inp n) := by
  obtain ⟨n, hdecode, hpath, hdone, harch⟩ := hc.instruction_chain hinp hx hready hsys hw
  have hbusy : ∀ k, 0 < k → k ≤ 2 + n →
      c.AtDecode (trace c.step x inp k) ∨ c.InShared (trace c.step x inp k) := by
    intro k hk hkn
    rcases Nat.lt_or_ge k 2 with h | h
    · obtain rfl : k = 1 := by omega
      exact .inl hdecode
    · obtain ⟨j, rfl⟩ : ∃ j, k = 2 + j := ⟨k - 2, by omega⟩
      exact .inr (hpath j (by omega))
  have hdis' : c.interruptsDisabled (trace c.step x inp (2 + n)) := by
    apply trace_invariant_until hdis _ (2 + n) (Nat.le_refl _)
    intro k hk hkdis
    apply hr.disabled _ _ (hinp k) _ hkdis
    rcases Nat.eq_zero_or_pos k with rfl | hpos
    · exact .inl hx
    · exact .inr (hbusy k hpos (by omega))
  obtain ⟨m, hret, hready', hdis''⟩ :=
    hr.leave _ _ (hinp.shift (2 + n)) (hpath n (Nat.le_refl n)) hdone hdis'
  refine ⟨2 + n + m, FirstReturn.afterPath ?_ hret, ?_, ?_⟩
  · intro k hk hkn hfetch
    rcases hbusy k hk hkn with h | h
    · rw [AtFetch, h.1] at hfetch
      exact MatrixState.noConfusion hfetch
    · rw [AtFetch, h.1] at hfetch
      exact MatrixState.noConfusion hfetch
  · rw [trace_add, ← harch]
    exact hready'
  · rw [trace_add]
    exact hdis''

end Core

end RangerRisc
