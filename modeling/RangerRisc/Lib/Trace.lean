import Mathlib.Data.Nat.Find
import Mathlib.Logic.Function.Iterate
import Mathlib.Tactic.Common

/-! Runs of a clocked machine that samples one input at every edge: the trace of
states and what its edges give out, the invariant rules, the visits to a set of observed
states, and the simulation of an abstract machine from visit to visit. -/

namespace Clocked

variable {σ ι α β : Type*}

/-- The state after `n` edges, the `k`-th of which samples `inp k`. -/
def trace (step : ι → σ → σ) (s : σ) (inp : ℕ → ι) : ℕ → σ
  | 0 => s
  | n + 1 => step (inp n) (trace step s inp n)

section Trace
variable (step : ι → σ → σ) (s : σ) (inp : ℕ → ι)

@[simp] theorem trace_zero : trace step s inp 0 = s := rfl

theorem trace_succ (n : ℕ) : trace step s inp (n + 1) = step (inp n) (trace step s inp n) := rfl

/-- A trace continues from any of its own states on the inputs that are left. -/
theorem trace_add (m n : ℕ) :
    trace step s inp (m + n) = trace step (trace step s inp m) (fun k => inp (m + k)) n := by
  induction n with
  | zero => rfl
  | succ n ih => rw [← Nat.add_assoc, trace_succ, trace_succ, ih]

theorem trace_succ' (n : ℕ) :
    trace step s inp (n + 1) = trace step (step (inp 0) s) (fun k => inp (k + 1)) n := by
  rw [Nat.add_comm, trace_add]
  simp only [Nat.add_comm 1]
  rfl

/-- A state depends on the inputs before it only. -/
theorem trace_congr {inp' : ℕ → ι} {n : ℕ} (h : ∀ k < n, inp k = inp' k) :
    trace step s inp n = trace step s inp' n := by
  induction n with
  | zero => rfl
  | succ n ih =>
    rw [trace_succ, trace_succ, ih (fun k hk => h k (Nat.lt_succ_of_lt hk)),
      h n (Nat.lt_succ_self n)]

/-- What the first `n` edges give out, `out` being what one edge does. -/
def emitted (out : ι → σ → List β) : ℕ → List β
  | 0 => []
  | n + 1 => emitted out n ++ out (inp n) (trace step s inp n)

variable (out : ι → σ → List β)

theorem emitted_succ (n : ℕ) : emitted step s inp out (n + 1) =
    emitted step s inp out n ++ out (inp n) (trace step s inp n) := rfl

theorem emitted_add (m n : ℕ) : emitted step s inp out (m + n) =
    emitted step s inp out m ++
      emitted step (trace step s inp m) (fun k => inp (m + k)) out n := by
  induction n with
  | zero => exact (List.append_nil _).symm
  | succ n ih => rw [← Nat.add_assoc, emitted_succ, emitted_succ, ih, List.append_assoc, trace_add]

theorem emitted_succ' (n : ℕ) : emitted step s inp out (n + 1) =
    out (inp 0) s ++ emitted step (step (inp 0) s) (fun k => inp (k + 1)) out n := by
  rw [Nat.add_comm, emitted_add]
  simp only [Nat.add_comm 1]
  rfl

theorem emitted_eq_flatMap (n : ℕ) : emitted step s inp out n =
    (List.range n).flatMap fun k => out (inp k) (trace step s inp k) := by
  induction n with
  | zero => rfl
  | succ n ih =>
    rw [emitted_succ, ih, List.range_succ, List.flatMap_append, List.flatMap_singleton]

theorem emitted_congr {inp' : ℕ → ι} {n : ℕ} (h : ∀ k < n, inp k = inp' k) :
    emitted step s inp out n = emitted step s inp' out n := by
  induction n with
  | zero => rfl
  | succ n ih =>
    have hlt : ∀ k < n, inp k = inp' k := fun k hk => h k (Nat.lt_succ_of_lt hk)
    rw [emitted_succ, emitted_succ, ih hlt, trace_congr step s inp hlt, h n (Nat.lt_succ_self n)]

end Trace

/-- Inputs that satisfy `q` at the first `n` edges go on to inputs that always do. -/
theorem exists_extension {q : ι → Prop} {inp : ℕ → ι} {n : ℕ} (calm : ι) (hcalm : q calm)
    (h : ∀ k < n, q (inp k)) : ∃ inp' : ℕ → ι, (∀ k, q (inp' k)) ∧ ∀ k < n, inp' k = inp k := by
  refine ⟨fun k => if k < n then inp k else calm, ?_, fun k hk => if_pos hk⟩
  intro k
  by_cases hk : k < n
  · simpa [hk] using h k hk
  · simpa [hk] using hcalm

section Invariant
variable {step : ι → σ → σ} {s : σ} {inp : ℕ → ι}

/-- A property that holds at the start and is kept by every edge of the run holds
in every state of the run. -/
theorem trace_invariant {p : σ → Prop} (h0 : p s)
    (hstep : ∀ n, p (trace step s inp n) → p (trace step s inp (n + 1))) (n : ℕ) :
    p (trace step s inp n) := by
  induction n with
  | zero => exact h0
  | succ n ih => exact hstep n ih

/-- The same up to a horizon: the edges need only keep the property before it. -/
theorem trace_invariant_until {p : σ → Prop} {n : ℕ} (h0 : p s)
    (hstep : ∀ k < n, p (trace step s inp k) → p (trace step s inp (k + 1))) :
    ∀ k ≤ n, p (trace step s inp k) := by
  intro k
  induction k with
  | zero => exact fun _ => h0
  | succ k ih => exact fun hk => hstep k hk (ih (Nat.le_of_succ_le hk))

/-- A property that a run loses between two points is lost at one of its edges. -/
theorem exists_edge_of_change {p : σ → Prop} {m n : ℕ} (hmn : m ≤ n)
    (hm : p (trace step s inp m)) (hn : ¬ p (trace step s inp n)) :
    ∃ k, m ≤ k ∧ k < n ∧ p (trace step s inp k) ∧ ¬ p (trace step s inp (k + 1)) := by
  induction n with
  | zero =>
    obtain rfl : m = 0 := by omega
    exact absurd hm hn
  | succ n ih =>
    by_cases hp : p (trace step s inp n)
    · rcases Nat.lt_or_ge n m with hlt | hle
      · obtain rfl : m = n + 1 := by omega
        exact absurd hm hn
      · exact ⟨n, hle, Nat.lt_succ_self n, hp, hn⟩
    · rcases Nat.lt_or_ge n m with hlt | hle
      · obtain rfl : m = n + 1 := by omega
        exact absurd hm hn
      · obtain ⟨k, hk, hkn, hpk, hpk'⟩ := ih hle hp
        exact ⟨k, hk, by omega, hpk, hpk'⟩

/-- If every edge gets to `p` or lowers the rank, a run gets to `p`. -/
theorem exists_of_rank {p : σ → Prop} {rank : σ → ℕ}
    (hstep : ∀ k, p (trace step s inp (k + 1)) ∨
      rank (trace step s inp (k + 1)) < rank (trace step s inp k)) :
    ∃ n, n ≤ rank s ∧ p (trace step s inp (n + 1)) := by
  by_contra hno
  have hlower : ∀ k ≤ rank s + 1, rank (trace step s inp k) + k ≤ rank s := by
    intro k
    induction k with
    | zero => exact fun _ => Nat.le_refl _
    | succ k ih =>
      intro hk
      rcases hstep k with hp | hlt
      · exact absurd ⟨k, Nat.le_of_succ_le_succ hk, hp⟩ hno
      · have hle := ih (Nat.le_of_succ_le hk)
        omega
  have hend := hlower (rank s + 1) (Nat.le_refl _)
  omega

end Invariant

/-! ## Visits -/

/-- The run is back in `p` after `n` edges, for the first time. -/
structure FirstReturn (step : ι → σ → σ) (p : σ → Prop) (s : σ) (inp : ℕ → ι) (n : ℕ) : Prop where
  pos : 0 < n
  hit : p (trace step s inp n)
  first : ∀ k, 0 < k → k < n → ¬ p (trace step s inp k)

instance [DecidablePred p] (step : ι → σ → σ) (s : σ) (inp : ℕ → ι) (n : ℕ) :
    Decidable (FirstReturn step p s inp n) :=
  decidable_of_iff (0 < n ∧ p (trace step s inp n) ∧ ∀ k < n, 0 < k → ¬ p (trace step s inp k))
    ⟨fun ⟨h0, h1, h2⟩ => ⟨h0, h1, fun k hk hkn => h2 k hkn hk⟩,
      fun h => ⟨h.pos, h.hit, fun k hkn hk => h.first k hk hkn⟩⟩

/-- The run is in `p` for the `k`-th time after `n` edges, the start being visit 0. -/
def Visit (step : ι → σ → σ) (p : σ → Prop) (s : σ) (inp : ℕ → ι) : ℕ → ℕ → Prop
  | 0, n => n = 0
  | k + 1, n => ∃ m d, Visit step p s inp k m ∧ n = m + d ∧
      FirstReturn step p (trace step s inp m) (fun j => inp (m + j)) d

/-- The inputs satisfy `q` as long as the run has not returned to `p`. -/
def UntilReturn (step : ι → σ → σ) (p : σ → Prop) (s : σ) (inp : ℕ → ι) (q : ι → Prop) : Prop :=
  ∀ k, (∀ j, 0 < j → j ≤ k → ¬ p (trace step s inp j)) → q (inp k)

section Visit
variable {step : ι → σ → σ} {p : σ → Prop} {s : σ} {inp : ℕ → ι}

theorem FirstReturn.unique {m n : ℕ} (hm : FirstReturn step p s inp m)
    (hn : FirstReturn step p s inp n) : m = n := by
  rcases Nat.lt_trichotomy m n with h | h | h
  · exact absurd hm.hit (hn.first m hm.pos h)
  · exact h
  · exact absurd hn.hit (hm.first n hn.pos h)

/-- One edge outside `p`, then a first return. -/
theorem FirstReturn.afterEdge {n : ℕ} (hp : ¬ p (step (inp 0) s))
    (h : FirstReturn step p (step (inp 0) s) (fun k => inp (k + 1)) n) :
    FirstReturn step p s inp (n + 1) := by
  refine ⟨Nat.succ_pos n, by rw [trace_succ']; exact h.hit, ?_⟩
  intro k hk hkn
  obtain ⟨j, rfl⟩ : ∃ j, k = j + 1 := ⟨k - 1, by omega⟩
  rw [trace_succ']
  rcases Nat.eq_zero_or_pos j with rfl | hj
  · exact hp
  · exact h.first j hj (by omega)

/-- A path outside `p`, then a first return. -/
theorem FirstReturn.afterPath {m n : ℕ} (hpath : ∀ k, 0 < k → k ≤ m → ¬ p (trace step s inp k))
    (h : FirstReturn step p (trace step s inp m) (fun k => inp (m + k)) n) :
    FirstReturn step p s inp (m + n) := by
  refine ⟨Nat.add_pos_right m h.pos, by rw [trace_add]; exact h.hit, ?_⟩
  intro k hk hkn
  rcases Nat.lt_or_ge m k with hmk | hkm
  · obtain ⟨j, rfl⟩ : ∃ j, k = m + j := ⟨k - m, by omega⟩
    rw [trace_add]
    exact h.first j (by omega) (by omega)
  · exact hpath k hk hkm

/-- What is left of a path outside `p` after its first `m` edges. -/
theorem FirstReturn.rest {m n : ℕ} (h : FirstReturn step p s inp (m + n)) (hn : 0 < n) :
    FirstReturn step p (trace step s inp m) (fun k => inp (m + k)) n := by
  refine ⟨hn, by rw [← trace_add]; exact h.hit, fun k hk hkn => ?_⟩
  rw [← trace_add]
  exact h.first (m + k) (by omega) (by omega)

/-- The first return is not later than any other. -/
theorem FirstReturn.exists_le {n : ℕ} (hn : 0 < n) (h : p (trace step s inp n)) :
    ∃ d ≤ n, FirstReturn step p s inp d := by
  classical
  have hex : ∃ d, 0 < d ∧ p (trace step s inp d) := ⟨n, hn, h⟩
  obtain ⟨hpos, hit⟩ := Nat.find_spec hex
  exact ⟨Nat.find hex, Nat.find_min' hex ⟨hn, h⟩, hpos, hit,
    fun k hk hlt hp => Nat.find_min hex hlt ⟨hk, hp⟩⟩

theorem FirstReturn.oneEdge (hp : p (step (inp 0) s)) : FirstReturn step p s inp 1 :=
  ⟨Nat.one_pos, hp, fun k hk hk1 => absurd hk1 (by omega)⟩

theorem FirstReturn.congr {inp' : ℕ → ι} {n : ℕ} (h : FirstReturn step p s inp n)
    (heq : ∀ k < n, inp k = inp' k) : FirstReturn step p s inp' n := by
  refine ⟨h.pos, ?_, ?_⟩
  · rw [← trace_congr step s inp heq]
    exact h.hit
  · intro k hk hkn
    rw [← trace_congr step s inp (fun j hj => heq j (Nat.lt_trans hj hkn))]
    exact h.first k hk hkn

/-- For the way back to `p`, inputs that satisfy `q` until then are as good as inputs
that always do. -/
theorem UntilReturn.exists_always {q : ι → Prop} (calm : ι) (hcalm : q calm)
    (h : UntilReturn step p s inp q) :
    ∃ inp' : ℕ → ι, (∀ k, q (inp' k)) ∧
      ∀ n, FirstReturn step p s inp' n → ∀ k < n, inp' k = inp k := by
  classical
  refine ⟨fun k => if q (inp k) then inp k else calm, ?_, ?_⟩
  · intro k
    by_cases hk : q (inp k)
    · simp [hk]
    · simpa [hk] using hcalm
  · intro n hn k
    -- up to `k` the two runs are the same, so the run has not returned and `q` holds
    induction k using Nat.strongRecOn with
    | _ k ih =>
      intro hk
      have hq : q (inp k) := by
        apply h k
        intro j hj hjk
        rw [trace_congr step s inp (fun i hi => (ih i (by omega) (by omega)).symm)]
        exact hn.first j hj (by omega)
      exact if_pos hq

theorem Visit.unique {k m n : ℕ} (hm : Visit step p s inp k m) (hn : Visit step p s inp k n) :
    m = n := by
  induction k generalizing m n with
  | zero => exact hm.trans hn.symm
  | succ k ih =>
    obtain ⟨m', d, hm', rfl, hd⟩ := hm
    obtain ⟨n', e, hn', rfl, he⟩ := hn
    obtain rfl := ih hm' hn'
    rw [hd.unique he]

/-- A first return, and the visits that are counted from there. -/
theorem FirstReturn.visit {d k n : ℕ} (hd : FirstReturn step p s inp d)
    (h : Visit step p (trace step s inp d) (fun j => inp (d + j)) k n) :
    Visit step p s inp (k + 1) (d + n) := by
  induction k generalizing n with
  | zero =>
    obtain rfl : n = 0 := h
    exact ⟨0, d, rfl, Nat.add_comm d 0, by simpa only [Nat.zero_add, trace_zero] using hd⟩
  | succ k ih =>
    obtain ⟨m, e, hm, rfl, he⟩ := h
    refine ⟨d + m, e, ih hm, (Nat.add_assoc d m e).symm, ?_⟩
    rw [trace_add]
    simpa only [Nat.add_assoc] using he

theorem Visit.hit {k n : ℕ} (h0 : p s) (h : Visit step p s inp k n) : p (trace step s inp n) := by
  cases k with
  | zero => rw [show n = 0 from h]; exact h0
  | succ k =>
    obtain ⟨m, d, _, rfl, hd⟩ := h
    rw [trace_add]
    exact hd.hit

/-- A visit comes after all earlier ones. -/
theorem Visit.exists_of_le {j k n : ℕ} (h : Visit step p s inp k n) (hjk : j ≤ k) :
    ∃ m ≤ n, Visit step p s inp j m := by
  induction k generalizing n with
  | zero =>
    obtain rfl : j = 0 := Nat.le_zero.mp hjk
    exact ⟨n, Nat.le_refl n, h⟩
  | succ k ih =>
    rcases Nat.lt_or_eq_of_le hjk with hlt | rfl
    · obtain ⟨m, d, hm, rfl, -⟩ := h
      obtain ⟨l, hl, hv⟩ := ih hm (Nat.le_of_lt_succ hlt)
      exact ⟨l, Nat.le_trans hl (Nat.le_add_right m d), hv⟩
    · exact ⟨n, Nat.le_refl n, h⟩

/-- **Simulation from visit to visit.** If from every related pair the run returns to
`p` in a state related to the abstract successor, the `k`-th visit exists and is
related to the `k`-th abstract state. `ok` is what the abstract run must satisfy, as
far as the visits show it. -/
theorem visit_simulates {next : α → α} {rel : σ → α → Prop} {ok : α → Prop} {a : α}
    (h0 : rel s a)
    (hstep : ∀ m b, rel (trace step s inp m) b → ok b →
      ∃ d, FirstReturn step p (trace step s inp m) (fun j => inp (m + j)) d ∧
        rel (trace step s inp (m + d)) (next b))
    (k : ℕ) (hok : ∀ j < k, ∀ n, Visit step p s inp j n →
      rel (trace step s inp n) (next^[j] a) → ok (next^[j] a)) :
    ∃ n, Visit step p s inp k n ∧ rel (trace step s inp n) (next^[k] a) := by
  induction k with
  | zero => exact ⟨0, rfl, h0⟩
  | succ k ih =>
    obtain ⟨m, hm, hrel⟩ := ih (fun j hj => hok j (Nat.lt_succ_of_lt hj))
    obtain ⟨d, hd, hrel'⟩ := hstep m _ hrel (hok k (Nat.lt_succ_self k) m hm hrel)
    refine ⟨m + d, ⟨m, d, hm, rfl, hd⟩, ?_⟩
    rw [Function.iterate_succ_apply']
    exact hrel'

/-! ## Refinement of a machine that may stop -/

/-- The states of a machine with step `next`, which takes `inputs k` in its `k`-th step. -/
def runs (next : β → α → Option α) (inputs : ℕ → β) (a : α) : ℕ → Option α
  | 0 => some a
  | k + 1 => (runs next inputs a k).bind (next (inputs k))

/-- Where the clocked machine has got to after `k` steps of the abstract one. The input of the
step that follows is read off the edges until the next visit. -/
structure Tracks (step : ι → σ → σ) (p ok : σ → Prop) (abs : σ → α) (seen : (ℕ → ι) → ℕ → β)
    (s : σ) (inp : ℕ → ι) (k : ℕ) (a : α) (b : β) (n : ℕ) : Prop where
  visit : Visit step p s inp k n
  ok : ok (trace step s inp n)
  abs_eq : abs (trace step s inp n) = a
  input : ∀ d, FirstReturn step p (trace step s inp n) (fun j => inp (n + j)) d →
    b = seen (fun j => inp (n + j)) d

/-- From `s` the machine comes back to `p`, having made one step of the abstract machine, or the
abstract machine has stopped and it never comes back. -/
def Steps (step : ι → σ → σ) (p ok : σ → Prop) (abs : σ → α) (next : β → α → Option α)
    (seen : (ℕ → ι) → ℕ → β) (s : σ) (inp : ℕ → ι) : Prop :=
  (∃ d, FirstReturn step p s inp d ∧ ok (trace step s inp d) ∧
    next (seen inp d) (abs s) = some (abs (trace step s inp d))) ∨
  (∀ b, next b (abs s) = none) ∧ ∀ d, ¬ FirstReturn step p s inp d

/-- **Refinement.** If every visit makes a step of the abstract machine or stops with it, the visits
are the states of one run of that machine: the `k`-th visit exists exactly as long as the run
does. -/
theorem visit_refines {ok : σ → Prop} {abs : σ → α} {next : β → α → Option α}
    {seen : (ℕ → ι) → ℕ → β} (h0 : ok s)
    (hstep : ∀ m, ok (trace step s inp m) →
      Steps step p ok abs next seen (trace step s inp m) fun j => inp (m + j)) :
    ∃ inputs : ℕ → β, ∀ k,
      (∀ a, runs next inputs (abs s) k = some a →
        ∃ n, Tracks step p ok abs seen s inp k a (inputs k) n) ∧
      (runs next inputs (abs s) k = none → ∀ n, ¬ Visit step p s inp k n) := by
  classical
  -- the input of a step that is not completed does not matter
  let between : ℕ → ℕ × ℕ → Prop := fun k x => Visit step p s inp k x.1 ∧
    FirstReturn step p (trace step s inp x.1) (fun j => inp (x.1 + j)) x.2
  let inputs : ℕ → β := fun k =>
    if h : ∃ x, between k x then seen (fun j => inp (h.choose.1 + j)) h.choose.2 else seen inp 0
  have hinputs : ∀ {k n d}, Visit step p s inp k n →
      FirstReturn step p (trace step s inp n) (fun j => inp (n + j)) d →
      inputs k = seen (fun j => inp (n + j)) d := by
    intro k n d hn hd
    have h : ∃ x, between k x := ⟨(n, d), hn, hd⟩
    obtain ⟨hv, hr⟩ := h.choose_spec
    have hn' : h.choose.1 = n := hv.unique hn
    rw [hn'] at hr
    have hd' : h.choose.2 = d := hr.unique hd
    change dite _ _ _ = _
    rw [dif_pos h, hd', hn']
  refine ⟨inputs, fun k => ?_⟩
  induction k with
  | zero =>
    refine ⟨?_, fun h => absurd h (Option.some_ne_none _)⟩
    rintro a ha
    obtain rfl : abs s = a := Option.some.inj ha
    exact ⟨0, rfl, h0, rfl, fun d hd => hinputs (k := 0) rfl hd⟩
  | succ k ih =>
    cases hrun : runs next inputs (abs s) k with
    | none =>
      refine ⟨fun a ha => ?_, ?_⟩
      · rw [runs, hrun] at ha
        exact absurd ha.symm (Option.some_ne_none a)
      · rintro - n ⟨m, d, hm, -, -⟩
        exact ih.2 hrun m hm
    | some b =>
      obtain ⟨m, hm⟩ := ih.1 b hrun
      have hnext : runs next inputs (abs s) (k + 1) = next (inputs k) b := by
        rw [runs, hrun, Option.bind_some]
      rcases hstep m hm.ok with ⟨d, hd, hok, hn⟩ | ⟨hstop, hnever⟩
      · rw [hm.abs_eq, ← hm.input d hd, ← trace_add] at hn
        rw [hnext, hn]
        rw [← trace_add] at hok
        have hvisit : Visit step p s inp (k + 1) (m + d) := ⟨m, d, hm.visit, rfl, hd⟩
        refine ⟨?_, fun h => absurd h (Option.some_ne_none _)⟩
        rintro a ha
        obtain rfl := Option.some.inj ha
        exact ⟨m + d, hvisit, hok, rfl, fun e he => hinputs hvisit he⟩
      · rw [hm.abs_eq] at hstop
        rw [hnext, hstop]
        refine ⟨fun a ha => absurd ha.symm (Option.some_ne_none a), ?_⟩
        rintro - n ⟨m', d, hm', -, hd⟩
        obtain rfl := hm'.unique hm.visit
        exact hnever d hd

end Visit

end Clocked
