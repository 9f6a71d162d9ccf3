import RangerRisc.BaudTolerance
import RangerRisc.UartLoopback

/-! The loopback as a channel. The host may do with `tx_en` and `tx_byte` what it likes: a byte that
the transmitter takes is shown by the receiver 2141 cycles later, and no other byte is shown. -/

namespace RangerRisc

open Clocked

namespace UARTTx

variable {b : Byte} {t : UARTTx} {inp : ℕ → TxInput}

/-- A transmitter does not take a byte before its frame is over. -/
theorem busy_run (h0 : Frame b 0 0 t) : ∀ n < 2192, (trace clock t inp n).state ≠ .txIdle := by
  have hframe : ∀ n < 2190, Frame b (n / 219) (n % 219) (trace clock t inp n) := by
    intro n hn
    have h := frame_run inp h0 (n / 219) (by omega) (n % 219) (by omega)
    rwa [Nat.div_add_mod] at h
  have hclose : Closing 2 (trace clock t inp 2190) := by
    rw [trace_succ]
    exact (hframe 2189 (by omega)).close _
  have hcomplete : Closing 1 (trace clock t inp 2191) := by
    rw [trace_succ]
    exact hclose.complete _
  intro n hn
  rcases Nat.lt_or_ge n 2190 with hlt | hge
  · rw [(hframe n hlt).state]
    unfold frameState
    split_ifs <;> exact fun h => TxState.noConfusion h
  · obtain rfl | rfl : n = 2190 ∨ n = 2191 := by omega
    · rw [hclose.state]
      exact fun h => TxState.noConfusion h
    · rw [hcomplete.state]
      exact fun h => TxState.noConfusion h

end UARTTx

namespace Loopback

/-- The byte that the transmitter takes in a cycle. -/
def accepted (i : LoopbackInput) (l : Loopback) : List Byte :=
  if l.tx.state = .txIdle ∧ i.txEn = false then [i.txByte] else []

/-- The byte that the receiver shows in a cycle. -/
def shown (l : Loopback) : List Byte := l.rx.pulse.toList

section Run
variable {l : Loopback} {inp : ℕ → LoopbackInput}

theorem shown_of_low (h : l.rx.rxComplete = false) : l.shown = [] := by
  rw [shown, UARTRx.pulse, h]
  rfl

theorem accepted_busy (h : l.Idle) (hen : (inp 0).txEn = false) {n : ℕ} (hn : 0 < n)
    (hn' : n < 2193) : accepted (inp n) (trace clock l inp n) = [] := by
  obtain ⟨m, rfl⟩ : ∃ m, n = m + 1 := ⟨n - 1, by omega⟩
  have hstart := UARTTx.start_frame ⟨(inp 0).txEn, (inp 0).txByte⟩ h.tx h.txComplete hen
  have hbusy := @UARTTx.busy_run _ _ (fun k => ⟨(inp (k + 1)).txEn, (inp (k + 1)).txByte⟩) hstart m
    (by omega)
  refine if_neg fun hidle => hbusy ?_
  rw [trace_tx, trace_succ'] at hidle
  exact hidle.1

/-- What the receiver shows `n` cycles after an idle cycle. -/
theorem Idle.shown_eq (h : l.Idle) (hreset : ∀ n, (inp n).reset = true) (n : ℕ) :
    (trace clock l inp n).shown =
      if n < 2141 then [] else accepted (inp (n - 2141)) (trace clock l inp (n - 2141)) := by
  induction n using Nat.strongRecOn generalizing l inp with
  | _ n ih =>
    cases hen : (inp 0).txEn with
    | true =>
      -- nothing is taken, and the next cycle is idle too
      have hnone : accepted (inp 0) l = [] := if_neg fun h => by rw [hen] at h; cases h.2
      cases n with
      | zero =>
        rw [if_pos (by decide)]
        exact shown_of_low h.rxComplete
      | succ n =>
        have hnext := ih n (Nat.lt_succ_self n) (h.wait (hreset 0) hen) (fun k => hreset (k + 1))
        rw [trace_succ', hnext]
        rcases Nat.lt_trichotomy n 2140 with hlt | rfl | hgt
        · rw [if_pos (by omega), if_pos (by omega)]
        · exact hnone.symm
        · rw [if_neg (by omega), if_neg (by omega), show n + 1 - 2141 = n - 2141 + 1 by omega,
            trace_succ']
    | false =>
      have hframe := delivers hreset h hen
      rcases Nat.lt_or_ge n 2193 with hlt | hge
      · by_cases hn : n = 2141
        · subst hn
          have htaken : accepted (inp 0) l = [(inp 0).txByte] := if_pos ⟨h.tx, hen⟩
          rw [if_neg (Nat.lt_irrefl _), shown, UARTRx.pulse, hframe.rxDone, hframe.rxByte]
          exact htaken.symm
        · rw [shown_of_low (hframe.rxBusy n (by omega) hn)]
          split
          · rfl
          · exact (accepted_busy h hen (by omega) (by omega)).symm
      · obtain ⟨k, rfl⟩ := Nat.exists_eq_add_of_le hge
        have hnext := ih k (by omega) hframe.idle fun j => hreset (2193 + j)
        rw [trace_add, hnext]
        rcases Nat.lt_or_ge k 2141 with hlt | hle
        · rw [if_pos hlt, if_neg (by omega)]
          exact (accepted_busy h hen (by omega) (by omega)).symm
        · rw [if_neg (by omega), if_neg (by omega),
            show 2193 + k - 2141 = 2193 + (k - 2141) by omega, trace_add]

/-- **The loopback is a channel.** At every cycle the bytes that have been shown are those that had
been taken 2141 cycles earlier, in their order: none is lost, doubled, changed or made up. -/
theorem channel (h0 : l.Idle) (hreset : ∀ n, (inp n).reset = true) (n : ℕ) :
    emitted clock l inp (fun _ l => l.shown) (2141 + n) = emitted clock l inp accepted n := by
  have hbefore : ((List.range 2141).flatMap fun k => (trace clock l inp k).shown) = [] := by
    rw [List.flatMap_eq_nil_iff]
    intro k hk
    rw [h0.shown_eq hreset, if_pos (List.mem_range.mp hk)]
  rw [emitted_eq_flatMap, emitted_eq_flatMap, List.range_add, List.flatMap_append, hbefore,
    List.nil_append, List.flatMap_map]
  refine List.flatMap_congr fun k _ => ?_
  rw [h0.shown_eq hreset, if_neg (by omega), Nat.add_sub_cancel_left]

/-- A host that asserts `tx_en` all the time and changes the byte in every cycle. -/
def restless (n : ℕ) : LoopbackInput := ⟨true, false, BitVec.ofNat 8 n⟩

theorem channel_restless : emitted clock idleLine restless (fun _ l => l.shown) (2141 + 10950) =
    emitted clock idleLine restless accepted 10950 :=
  channel idleLine_idle (fun _ => rfl) 10950

end Run

end Loopback

end RangerRisc
