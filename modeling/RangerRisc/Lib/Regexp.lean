import Mathlib.Data.List.TakeWhile
import Mathlib.Tactic.Common

/-! Regular expressions that are a sequence of repeated character classes, some of them
captured. The match is the leftmost one, and of those the one a backtracking matcher
finds that tries the longest run of each class first. -/

namespace Regexp

abbrev Text := List Char

/-- `cls{min,max}`, without an upper bound if `max` is `none`. -/
structure Item where
  cls : Char → Bool
  min : ℕ
  max : Option ℕ
  group : Bool

abbrev Pattern := List Item

def plus (cls : Char → Bool) : Item := ⟨cls, 1, none, false⟩
def star (cls : Char → Bool) : Item := ⟨cls, 0, none, false⟩
def one (c : Char) : Item := ⟨fun c' => c' == c, 1, some 1, false⟩
def Item.capture (it : Item) : Item := { it with group := true }

/-- The longest run of the class that the item may take. -/
def Item.run (it : Item) (s : Text) : ℕ :=
  let n := (s.takeWhile it.cls).length
  match it.max with
  | none => n
  | some m => Nat.min m n

/-- The runs in the order in which they are tried. -/
def Item.lengths (it : Item) (s : Text) : List ℕ :=
  (List.range (it.run s + 1)).reverse.filter (fun k => it.min ≤ k)

/-- The matched text and the captured parts of it. -/
structure Match where
  text : Text
  groups : List Text
  deriving DecidableEq

def Match.cons (it : Item) (s : Text) (m : Match) : Match where
  text := s ++ m.text
  groups := if it.group then s :: m.groups else m.groups

/-- The match that begins where the text does. -/
def matchAt : Pattern → Text → Option Match
  | [], _ => some ⟨[], []⟩
  | it :: p, s =>
    (it.lengths s).findSome? fun k => (matchAt p (s.drop k)).map (Match.cons it (s.take k))

/-- The leftmost match. -/
def find (p : Pattern) : Text → Option Match
  | [] => matchAt p []
  | c :: s =>
    match matchAt p (c :: s) with
    | some m => some m
    | none => find p s

theorem length_groups_matchAt {p : Pattern} {s : Text} {m : Match} (h : matchAt p s = some m) :
    m.groups.length = (p.filter (·.group)).length := by
  induction p generalizing s m with
  | nil =>
    obtain rfl := Option.some.inj h
    rfl
  | cons it p ih =>
    rw [matchAt] at h
    obtain ⟨k, -, hk⟩ := List.exists_of_findSome?_eq_some h
    obtain ⟨m', hm', rfl⟩ := Option.map_eq_some_iff.mp hk
    have hrest := ih hm'
    cases hg : it.group <;> simp [Match.cons, hg, hrest]

/-- **As many groups as the pattern captures.** -/
theorem length_groups {p : Pattern} {s : Text} {m : Match} (h : find p s = some m) :
    m.groups.length = (p.filter (·.group)).length := by
  induction s with
  | nil => exact length_groups_matchAt h
  | cons c s ih =>
    rw [find] at h
    cases hm : matchAt p (c :: s) with
    | none =>
      rw [hm] at h
      exact ih h
    | some m' =>
      rw [hm] at h
      obtain rfl := Option.some.inj h
      exact length_groups_matchAt hm

/-! ## Texts that leave the matcher no choice -/

/-- A run of the class ends where the text begins. -/
def Stops (cls : Char → Bool) (rest : Text) : Prop := ∀ c ∈ rest.head?, cls c = false

theorem stops_nil (cls : Char → Bool) : Stops cls [] := by simp [Stops]

theorem stops_cons {cls : Char → Bool} {c : Char} {rest : Text} (h : cls c = false) :
    Stops cls (c :: rest) := by
  intro d hd
  obtain rfl : c = d := by simpa using hd
  exact h

theorem stops_append {cls : Char → Bool} {s rest : Text} (hne : s ≠ [])
    (h : ∀ c ∈ s, cls c = false) : Stops cls (s ++ rest) := by
  obtain ⟨c, s, rfl⟩ := List.exists_cons_of_ne_nil hne
  exact stops_cons (h c List.mem_cons_self)

theorem stops_dropWhile (cls : Char → Bool) (s : Text) {rest : Text} (h : Stops cls rest) :
    Stops cls (s.dropWhile cls ++ rest) := by
  have hnot := List.head?_dropWhile_not cls s
  cases hs : s.dropWhile cls with
  | nil => exact h
  | cons c t =>
    rw [hs] at hnot
    exact stops_cons (by simpa using hnot)

theorem dropWhile_append_stops {cls : Char → Bool} {s t : Text} (hs : ∀ c ∈ s, cls c = true)
    (ht : Stops cls t) : (s ++ t).dropWhile cls = t := by
  rw [List.dropWhile_append_of_pos hs]
  cases t with
  | nil => rfl
  | cons c t => simp [ht c rfl]

/-- Before `rest`, the item takes all of `s`: the run can be no longer. -/
structure Item.Takes (it : Item) (s rest : Text) : Prop where
  cls : ∀ c ∈ s, it.cls c = true
  min : it.min ≤ s.length
  max : it.max = some s.length ∨ it.max = none ∧ Stops it.cls rest

theorem takes_one (c : Char) (rest : Text) : (one c).Takes [c] rest where
  cls := by simp [one]
  min := Nat.le_refl 1
  max := .inl rfl

theorem takes_plus {it : Item} {s rest : Text} (hmin : it.min = 1) (hmax : it.max = none)
    (hne : s ≠ []) (hcls : ∀ c ∈ s, it.cls c = true) (hstop : Stops it.cls rest) :
    it.Takes s rest where
  cls := hcls
  min := by
    rw [hmin]
    exact List.length_pos_iff.mpr hne
  max := .inr ⟨hmax, hstop⟩

theorem takes_star {cls : Char → Bool} {s rest : Text} (hcls : ∀ c ∈ s, cls c = true)
    (hstop : Stops cls rest) : (star cls).Takes s rest where
  cls := hcls
  min := Nat.zero_le _
  max := .inr ⟨rfl, hstop⟩

/-- The text falls into pieces, one for each item. -/
def Splits : Pattern → List Text → Text → Prop
  | [], [], _ => True
  | it :: p, s :: ss, rest => it.Takes s (ss.flatten ++ rest) ∧ Splits p ss rest
  | _, _, _ => False

def pieces : Pattern → List Text → Match
  | it :: p, s :: ss => (pieces p ss).cons it s
  | _, _ => ⟨[], []⟩

theorem takeWhile_stop {cls : Char → Bool} {rest : Text} (h : Stops cls rest) :
    rest.takeWhile cls = [] := by
  cases rest with
  | nil => rfl
  | cons c rest => simp [h c rfl]

theorem Item.Takes.run {it : Item} {s rest : Text} (h : it.Takes s rest) :
    it.run (s ++ rest) = s.length := by
  have htake : (s ++ rest).takeWhile it.cls = s ++ rest.takeWhile it.cls :=
    List.takeWhile_append_of_pos h.cls
  unfold Item.run
  rw [htake, List.length_append]
  rcases h.max with hmax | ⟨hmax, hstop⟩
  · rw [hmax]
    exact Nat.min_eq_left (Nat.le_add_right _ _)
  · rw [hmax, takeWhile_stop hstop]
    rfl

theorem Item.Takes.lengths {it : Item} {s rest : Text} (h : it.Takes s rest) :
    ∃ shorter, it.lengths (s ++ rest) = s.length :: shorter := by
  unfold Item.lengths
  rw [h.run, List.range_succ, List.reverse_append, List.reverse_singleton, List.singleton_append,
    List.filter_cons_of_pos (by simpa using h.min)]
  exact ⟨_, rfl⟩

/-- The longest run, if the rest of the pattern matches behind it. -/
theorem matchAt_first {it : Item} {p : Pattern} {s rest : Text} {m : Match} (h : it.Takes s rest)
    (hp : matchAt p rest = some m) : matchAt (it :: p) (s ++ rest) = some (m.cons it s) := by
  obtain ⟨shorter, hlengths⟩ := h.lengths
  rw [matchAt, hlengths, List.findSome?_cons, List.drop_left, List.take_left, hp]
  rfl

/-- **The first try succeeds.** -/
theorem matchAt_of_splits {p : Pattern} {ss : List Text} {rest : Text} (h : Splits p ss rest) :
    matchAt p (ss.flatten ++ rest) = some (pieces p ss) := by
  induction p generalizing ss with
  | nil =>
    cases ss with
    | nil => rfl
    | cons s ss => exact h.elim
  | cons it p ih =>
    cases ss with
    | nil => exact h.elim
    | cons s ss =>
      obtain ⟨htakes, hsplits⟩ := h
      rw [List.flatten_cons, List.append_assoc]
      exact matchAt_first htakes (ih hsplits)

theorem splits_append {p q : Pattern} {ss tt : List Text} {rest : Text}
    (hp : Splits p ss (tt.flatten ++ rest)) (hq : Splits q tt rest) :
    Splits (p ++ q) (ss ++ tt) rest := by
  induction p generalizing ss with
  | nil =>
    cases ss with
    | nil => exact hq
    | cons s ss => exact hp.elim
  | cons it p ih =>
    cases ss with
    | nil => exact hp.elim
    | cons s ss =>
      refine ⟨?_, ih hp.2⟩
      show it.Takes s ((ss ++ tt).flatten ++ rest)
      rw [List.flatten_append, List.append_assoc]
      exact hp.1

theorem Splits.length {p : Pattern} {ss : List Text} {rest : Text} (h : Splits p ss rest) :
    p.length = ss.length := by
  induction p generalizing ss with
  | nil =>
    cases ss with
    | nil => rfl
    | cons s ss => exact h.elim
  | cons it p ih =>
    cases ss with
    | nil => exact h.elim
    | cons s ss => exact congrArg Nat.succ (ih h.2)

theorem groups_pieces_append {p q : Pattern} {ss tt : List Text} (h : p.length = ss.length) :
    (pieces (p ++ q) (ss ++ tt)).groups = (pieces p ss).groups ++ (pieces q tt).groups := by
  induction p generalizing ss with
  | nil =>
    obtain rfl := List.length_eq_zero_iff.mp h.symm
    cases q <;> cases tt <;> rfl
  | cons it p ih =>
    cases ss with
    | nil => cases h
    | cons s ss =>
      have hrest := ih (Nat.succ.inj h)
      cases hg : it.group <;> simp [pieces, Match.cons, hg, hrest]

theorem find_of_matchAt {p : Pattern} {s : Text} {m : Match} (h : matchAt p s = some m) :
    find p s = some m := by
  cases s with
  | nil => exact h
  | cons c s => rw [find, h]

theorem find_of_splits {p : Pattern} {ss : List Text} {rest : Text} (h : Splits p ss rest) :
    find p (ss.flatten ++ rest) = some (pieces p ss) :=
  find_of_matchAt (matchAt_of_splits h)

/-! ## Classes that leave the rest of the pattern no choice -/

/-- The run of a star is the longest one if what follows cannot begin inside the class: any
shorter run leaves a character of the class in front of it. -/
theorem matchAt_star {it : Item} {p : Pattern} {t rest : Text} (hmin : it.min = 0)
    (hmax : it.max = none) (hbars : ∀ c s, it.cls c = true → matchAt p (c :: s) = none)
    (ht : ∀ c ∈ t, it.cls c = true) (hstop : Stops it.cls rest) :
    matchAt (it :: p) (t ++ rest) = (matchAt p rest).map (Match.cons it t) := by
  have hshort : ∀ k < t.length, matchAt p ((t ++ rest).drop k) = none := by
    intro k hk
    rw [List.drop_append_of_le_length (Nat.le_of_lt hk), List.drop_eq_getElem_cons hk]
    exact hbars _ _ (ht _ (List.getElem_mem hk))
  have hrun : it.run (t ++ rest) = t.length :=
    Item.Takes.run ⟨ht, by simp [hmin], .inr ⟨hmax, hstop⟩⟩
  have hlengths : it.lengths (t ++ rest) = t.length :: (List.range t.length).reverse := by
    simp [Item.lengths, hrun, hmin, List.range_succ]
  rw [matchAt, hlengths, List.findSome?_cons, List.drop_left, List.take_left]
  cases hp : matchAt p rest with
  | some m => rfl
  | none =>
    show List.findSome? _ _ = none
    rw [List.findSome?_eq_none_iff]
    intro k hk
    rw [hshort k (by simpa using hk)]
    rfl

/-- A star at the end takes the longest run. -/
theorem matchAt_star_last {it : Item} {t rest : Text} (hmin : it.min = 0) (hmax : it.max = none)
    (ht : ∀ c ∈ t, it.cls c = true) (hstop : Stops it.cls rest) :
    matchAt [it] (t ++ rest) = some (Match.cons it t ⟨[], []⟩) := by
  have hsplits : Splits [it] [t] rest := ⟨⟨ht, by simp [hmin], .inr ⟨hmax, hstop⟩⟩, trivial⟩
  have hmatch := matchAt_of_splits hsplits
  rwa [List.flatten_singleton] at hmatch

/-- The longest run of a class, and what stops it. -/
theorem exists_run (cls : Char → Bool) (s : Text) :
    ∃ t rest, s = t ++ rest ∧ (∀ c ∈ t, cls c = true) ∧ Stops cls rest := by
  induction s with
  | nil => exact ⟨[], [], rfl, by simp, stops_nil cls⟩
  | cons c s ih =>
    by_cases hc : cls c = true
    · obtain ⟨t, rest, rfl, ht, hstop⟩ := ih
      exact ⟨c :: t, rest, rfl, by simpa [hc] using ht, hstop⟩
    · exact ⟨[], c :: s, rfl, by simp, stops_cons (by simpa using hc)⟩

/-- A single item matches as soon as its run is long enough. -/
theorem isSome_matchAt_last (it : Item) (s : Text) :
    (matchAt [it] s).isSome = true ↔ it.min ≤ it.run s := by
  have hsome : (matchAt [it] s).isSome = true ↔ it.lengths s ≠ [] := by
    rw [matchAt]
    cases it.lengths s with
    | nil => simp
    | cons k ks => simp [matchAt]
  rw [hsome, Item.lengths, ne_eq, List.filter_eq_nil_iff]
  constructor
  · intro h
    by_contra hlt
    exact h fun k hk hmin => hlt (Nat.le_trans (by simpa using hmin) (by simp at hk; omega))
  · intro h hall
    exact hall (it.run s) (by simp) (by simpa using h)

theorem mem_lengths {it : Item} {s : Text} {k : ℕ} :
    k ∈ it.lengths s ↔ it.min ≤ k ∧ k ≤ it.run s := by
  rw [Item.lengths, List.mem_filter, List.mem_reverse, List.mem_range, Nat.lt_succ_iff,
    decide_eq_true_eq, and_comm]

/-- A pattern fails where the rest of it fails behind every run of its first class. -/
theorem matchAt_eq_none {it : Item} {p : Pattern} {s : Text}
    (h : ∀ k, it.min ≤ k → k ≤ it.run s → matchAt p (s.drop k) = none) :
    matchAt (it :: p) s = none := by
  rw [matchAt, List.findSome?_eq_none_iff]
  intro k hk
  obtain ⟨hmin, hrun⟩ := mem_lengths.mp hk
  rw [h k hmin hrun]
  rfl

theorem matchAt_single_nil {it : Item} {p : Pattern} (hmin : it.min = 1) :
    matchAt (it :: p) [] = none := by
  have hlengths : it.lengths [] = [] := by
    have hrun : it.run [] = 0 := by
      unfold Item.run
      cases it.max <;> simp
    simp [Item.lengths, hrun, hmin]
  rw [matchAt, hlengths, List.findSome?_nil]

/-- A single character of a class. -/
theorem matchAt_single {it : Item} {p : Pattern} (hmin : it.min = 1) (hmax : it.max = some 1)
    (c : Char) (s : Text) :
    matchAt (it :: p) (c :: s) =
      if it.cls c = true then (matchAt p s).map (Match.cons it [c]) else none := by
  by_cases hc : it.cls c = true
  · have hlengths : it.lengths (c :: s) = [1] := by
      have hrun : it.run (c :: s) = 1 := by
        simp [Item.run, hmax, hc]
      rw [Item.lengths, hrun, hmin]
      rfl
    rw [matchAt, hlengths, if_pos hc, List.findSome?_cons]
    simp only [List.drop_one, List.tail_cons, List.take_succ_cons, List.take_zero,
      List.findSome?_nil]
    cases matchAt p s <;> rfl
  · have hlengths : it.lengths (c :: s) = [] := by
      have hrun : it.run (c :: s) = 0 := by
        simp [Item.run, hmax, hc]
      rw [Item.lengths, hrun, hmin]
      rfl
    rw [matchAt, hlengths, if_neg hc, List.findSome?_nil]

/-! ## Text around the match -/

/-- What stands behind `s` does not change the match: the last star stops there. -/
theorem matchAt_star_last_append {it : Item} {b : Text} (hmin : it.min = 0) (hmax : it.max = none)
    (hb : Stops it.cls b) (s : Text) : matchAt [it] (s ++ b) = matchAt [it] s := by
  obtain ⟨t, rest, rfl, ht, hstop⟩ := exists_run it.cls s
  have hstop' : Stops it.cls (rest ++ b) := by
    cases rest with
    | nil => exact hb
    | cons c rest => exact stops_cons (hstop c rfl)
  rw [List.append_assoc, matchAt_star_last hmin hmax ht hstop',
    matchAt_star_last hmin hmax ht hstop]

theorem matchAt_single_append {it : Item} {p : Pattern} {b : Text} (hmin : it.min = 1)
    (hmax : it.max = some 1) (hp : ∀ s, matchAt p (s ++ b) = matchAt p s)
    (hb : matchAt (it :: p) b = none) (s : Text) :
    matchAt (it :: p) (s ++ b) = matchAt (it :: p) s := by
  cases s with
  | nil => rw [List.nil_append, hb, matchAt_single_nil hmin]
  | cons c s => rw [List.cons_append, matchAt_single hmin hmax, matchAt_single hmin hmax, hp]

theorem matchAt_star_append {it : Item} {p : Pattern} {b : Text} (hmin : it.min = 0)
    (hmax : it.max = none) (hbars : ∀ c s, it.cls c = true → matchAt p (c :: s) = none)
    (hp : ∀ s, matchAt p (s ++ b) = matchAt p s) (hb : Stops it.cls b) (s : Text) :
    matchAt (it :: p) (s ++ b) = matchAt (it :: p) s := by
  obtain ⟨t, rest, rfl, ht, hstop⟩ := exists_run it.cls s
  have hstop' : Stops it.cls (rest ++ b) := by
    cases rest with
    | nil => exact hb
    | cons c rest => exact stops_cons (hstop c rfl)
  rw [List.append_assoc, matchAt_star hmin hmax hbars ht hstop',
    matchAt_star hmin hmax hbars ht hstop, hp]

theorem find_append {p : Pattern} {b : Text} (hp : ∀ s, matchAt p (s ++ b) = matchAt p s)
    (hb : find p b = matchAt p []) (s : Text) : find p (s ++ b) = find p s := by
  induction s with
  | nil => exact hb
  | cons c s ih => rw [List.cons_append, find, find, ih, ← List.cons_append, hp]

/-- No match begins in `b`. -/
theorem find_leading {p : Pattern} {b : Text} (hb : ∀ c ∈ b, ∀ s, matchAt p (c :: s) = none)
    (s : Text) : find p (b ++ s) = find p s := by
  induction b with
  | nil => rfl
  | cons c b ih =>
    rw [List.cons_append, find, hb c List.mem_cons_self]
    exact ih fun c' hc' => hb c' (List.mem_cons_of_mem c hc')

/-! ## What a match is made of -/

structure Item.Fits (it : Item) (s : Text) : Prop where
  cls : ∀ c ∈ s, it.cls c = true
  min : it.min ≤ s.length
  max : ∀ m, it.max = some m → s.length ≤ m

theorem fits_one {c : Char} {s : Text} (h : (one c).Fits s) : s = [c] := by
  obtain ⟨d, rfl⟩ := List.length_eq_one_iff.mp (Nat.le_antisymm (h.max 1 rfl) h.min)
  have hd := h.cls d List.mem_cons_self
  rw [show d = c by simpa [one] using hd]

theorem run_le_length (it : Item) (s : Text) : it.run s ≤ (s.takeWhile it.cls).length := by
  unfold Item.run
  cases it.max with
  | none => exact Nat.le_refl _
  | some m => exact Nat.min_le_right _ _

theorem fits_take {it : Item} {s : Text} {k : ℕ} (h : k ∈ it.lengths s) : it.Fits (s.take k) := by
  obtain ⟨hmin, hrun⟩ := mem_lengths.mp h
  have hlen := Nat.le_trans hrun (run_le_length it s)
  have hprefix := List.takeWhile_prefix (l := s) it.cls
  have htake : s.take k = (s.takeWhile it.cls).take k := by
    conv_lhs => rw [← List.takeWhile_append_dropWhile (p := it.cls) (l := s)]
    exact List.take_append_of_le_length hlen
  have hlength : (s.take k).length = k :=
    List.length_take_of_le (Nat.le_trans hlen hprefix.length_le)
  refine ⟨?_, by rw [hlength]; exact hmin, ?_⟩
  · rw [htake]
    exact fun c hc => List.mem_takeWhile_imp (List.mem_of_mem_take hc)
  · intro m hm
    rw [hlength]
    have hmax : it.run s ≤ m := by
      rw [Item.run, hm]
      exact Nat.min_le_left _ _
    exact Nat.le_trans hrun hmax

theorem exists_pieces_of_matchAt {p : Pattern} {s : Text} {m : Match} (h : matchAt p s = some m) :
    ∃ ss rest, s = ss.flatten ++ rest ∧ List.Forall₂ Item.Fits p ss ∧ m = pieces p ss := by
  induction p generalizing s m with
  | nil =>
    obtain rfl := Option.some.inj h
    exact ⟨[], s, rfl, .nil, rfl⟩
  | cons it p ih =>
    rw [matchAt] at h
    obtain ⟨k, hk, hm⟩ := List.exists_of_findSome?_eq_some h
    obtain ⟨m', hm', rfl⟩ := Option.map_eq_some_iff.mp hm
    obtain ⟨ss, rest, hdrop, hfits, rfl⟩ := ih hm'
    refine ⟨s.take k :: ss, rest, ?_, .cons (fits_take hk) hfits, rfl⟩
    rw [List.flatten_cons, List.append_assoc, ← hdrop, List.take_append_drop]

/-- **A match is a piece for each item**, somewhere in the text. -/
theorem exists_pieces_of_find {p : Pattern} {s : Text} {m : Match} (h : find p s = some m) :
    ∃ pre ss rest, s = pre ++ (ss.flatten ++ rest) ∧ List.Forall₂ Item.Fits p ss ∧
      m = pieces p ss := by
  induction s with
  | nil =>
    obtain ⟨ss, rest, hs, hfits, hm⟩ := exists_pieces_of_matchAt (show matchAt p [] = some m from h)
    exact ⟨[], ss, rest, hs, hfits, hm⟩
  | cons c s ih =>
    rw [find] at h
    cases hm : matchAt p (c :: s) with
    | some m' =>
      rw [hm] at h
      obtain rfl := Option.some.inj h
      obtain ⟨ss, rest, hs, hfits, hm⟩ := exists_pieces_of_matchAt hm
      exact ⟨[], ss, rest, hs, hfits, hm⟩
    | none =>
      rw [hm] at h
      obtain ⟨pre, ss, rest, rfl, hfits, hm⟩ := ih h
      exact ⟨c :: pre, ss, rest, rfl, hfits, hm⟩

/-! ## Text behind blanks -/

def required (p : Pattern) : Bool := p.any fun it => 1 ≤ it.min

/-- What takes a blank leaves something else to be taken. -/
def spaced : Pattern → Bool
  | [] => true
  | it :: p => (!it.cls ' ' || required p) && spaced p

section Blanks
variable {p : Pattern} {r : Text}

theorem takeWhile_blanks {cls : Char → Bool} (hr : Stops cls r) (j : ℕ) :
    (List.replicate j ' ' ++ r).takeWhile cls =
      if cls ' ' = true then List.replicate j ' ' else [] := by
  split_ifs with h
  · rw [List.takeWhile_append_of_pos (by simp [h]), takeWhile_stop hr, List.append_nil]
  · cases j with
    | zero => exact takeWhile_stop hr
    | succ j => simp [List.replicate_succ, h]

theorem drop_blanks {j k : ℕ} (h : k ≤ j) :
    (List.replicate j ' ' ++ r).drop k = List.replicate (j - k) ' ' ++ r := by
  rw [List.drop_append_of_le_length (by simpa using h), List.drop_replicate]

/-- Neither the blanks nor what begins behind them can be all of a match. -/
theorem matchAt_blanks (hp : spaced p = true) (hreq : required p = true)
    (hr : ∀ it ∈ p, Stops it.cls r) (j : ℕ) : matchAt p (List.replicate j ' ' ++ r) = none := by
  induction p generalizing j with
  | nil => exact absurd hreq (by decide)
  | cons it p ih =>
    obtain ⟨hblank, hspaced⟩ := Bool.and_eq_true_iff.mp hp
    have hrest := fun it' hit => hr it' (List.mem_cons_of_mem it hit)
    refine matchAt_eq_none fun k hmin hrun => ?_
    have hlen := Nat.le_trans hrun (run_le_length it _)
    rw [takeWhile_blanks (hr it List.mem_cons_self)] at hlen
    split_ifs at hlen with hcls
    · have hreq' : required p = true := by simpa [hcls] using hblank
      have hk : k ≤ j := by simpa using hlen
      rw [drop_blanks hk]
      exact ih hspaced hreq' hrest (j - k)
    · obtain rfl : k = 0 := by simpa using hlen
      have hreq' : required p = true := by
        have hzero : it.min = 0 := by omega
        simpa [required, hzero] using hreq
      exact ih hspaced hreq' hrest j

/-- The runs over a longer text are those over the text and longer ones. -/
theorem lengths_append (it : Item) {s s' : Text} (h : it.run s ≤ it.run s') :
    ∃ longer, it.lengths s' = longer ++ it.lengths s ∧
      ∀ k ∈ longer, it.run s < k ∧ k ≤ it.run s' := by
  obtain ⟨d, hd⟩ := Nat.exists_eq_add_of_le h
  refine ⟨((List.range d).map fun i => it.run s + 1 + i).reverse.filter
    (fun k => it.min ≤ k), ?_, ?_⟩
  · have hrange : it.run s' + 1 = (it.run s + 1) + d := by omega
    rw [Item.lengths, Item.lengths, hrange, List.range_add, List.reverse_append, List.filter_append]
  · intro k hk
    have hk' := (List.mem_filter.mp hk).1
    simp only [List.mem_reverse, List.mem_map, List.mem_range] at hk'
    obtain ⟨i, hi, rfl⟩ := hk'
    omega

theorem run_append_le (it : Item) (s t : Text) : it.run s ≤ it.run (s ++ t) := by
  have hlen : (s.takeWhile it.cls).length ≤ ((s ++ t).takeWhile it.cls).length := by
    rw [List.takeWhile_append]
    split_ifs with h
    · rw [List.length_append, h]
      exact Nat.le_add_right _ _
    · exact Nat.le_refl _
  unfold Item.run
  cases it.max with
  | none => exact hlen
  | some m => exact Nat.le_min.mpr ⟨Nat.min_le_left _ _, Nat.le_trans (Nat.min_le_right _ _) hlen⟩

/-- A run that is longer for the blanks has taken all of the text before them. -/
theorem run_append_blanks {it : Item} {s : Text} {j k : ℕ} (hr : Stops it.cls r)
    (hlow : it.run s < k) (hhigh : k ≤ it.run (s ++ (List.replicate j ' ' ++ r))) :
    it.cls ' ' = true ∧ s.length ≤ k ∧ k - s.length ≤ j := by
  have htake : (s.takeWhile it.cls).length < k ∧
      k ≤ ((s ++ (List.replicate j ' ' ++ r)).takeWhile it.cls).length := by
    unfold Item.run at hlow hhigh
    cases hmax : it.max with
    | none =>
      simp only [hmax] at hlow hhigh
      exact ⟨hlow, hhigh⟩
    | some m =>
      simp only [hmax] at hlow hhigh
      have hm : k ≤ m := Nat.le_trans hhigh (Nat.min_le_left _ _)
      have hlow : min m (s.takeWhile it.cls).length < k := hlow
      exact ⟨by omega, Nat.le_trans hhigh (Nat.min_le_right _ _)⟩
  rw [List.takeWhile_append, takeWhile_blanks hr] at htake
  split_ifs at htake with hall hcls
  · rw [List.length_append, List.length_replicate] at htake
    exact ⟨hcls, by omega, by omega⟩
  · simp only [List.append_nil] at htake
    omega
  · omega

/-- **Blanks and what stands behind them add nothing to a match.** -/
theorem matchAt_append_blanks (hp : spaced p = true) (hr : ∀ it ∈ p, Stops it.cls r) (j : ℕ)
    (s : Text) : matchAt p (s ++ (List.replicate j ' ' ++ r)) = matchAt p s := by
  induction p generalizing s with
  | nil => rfl
  | cons it p ih =>
    obtain ⟨hblank, hspaced⟩ := Bool.and_eq_true_iff.mp hp
    have hrest := fun it' hit => hr it' (List.mem_cons_of_mem it hit)
    set b := List.replicate j ' ' ++ r with hb
    obtain ⟨longer, hlengths, hlonger⟩ := lengths_append it (run_append_le it s b)
    have hnone : longer.findSome? (fun k =>
        (matchAt p ((s ++ b).drop k)).map (Match.cons it ((s ++ b).take k))) = none := by
      rw [List.findSome?_eq_none_iff]
      intro k hk
      obtain ⟨hlow, hhigh⟩ := hlonger k hk
      obtain ⟨hcls, hlen, hj⟩ := run_append_blanks (hr it List.mem_cons_self) hlow hhigh
      have hreq : required p = true := by simpa [hcls] using hblank
      rw [List.drop_append, List.drop_of_length_le hlen, List.nil_append, hb, drop_blanks hj,
        matchAt_blanks hspaced hreq hrest]
      rfl
    have hsame : ∀ k ∈ it.lengths s,
        (matchAt p ((s ++ b).drop k)).map (Match.cons it ((s ++ b).take k)) =
          (matchAt p (s.drop k)).map (Match.cons it (s.take k)) := by
      intro k hk
      have hlen : k ≤ s.length := Nat.le_trans (mem_lengths.mp hk).2
        (Nat.le_trans (run_le_length it s) (List.takeWhile_prefix _).length_le)
      rw [List.drop_append_of_le_length hlen, List.take_append_of_le_length hlen, ih hspaced hrest]
    rw [matchAt, matchAt, hlengths, List.findSome?_append, hnone, Option.none_or]
    generalize it.lengths s = ks at hsame
    induction ks with
    | nil => rfl
    | cons k ks ihs =>
      rw [List.findSome?_cons, List.findSome?_cons, hsame k List.mem_cons_self,
        ihs fun k' hk' => hsame k' (List.mem_cons_of_mem k hk')]

/-- **The leftmost match** is one in the text before the blanks, or behind them. -/
theorem find_append_blanks (hp : spaced p = true) (hreq : required p = true)
    (hr : ∀ it ∈ p, Stops it.cls r) (j : ℕ) (s : Text) :
    find p (s ++ (List.replicate j ' ' ++ r)) = (find p s).or (find p r) := by
  induction s with
  | nil =>
    have hnil : find p [] = none := matchAt_blanks hp hreq (fun _ _ => stops_nil _) 0
    rw [hnil, Option.none_or, List.nil_append]
    induction j with
    | zero => rfl
    | succ j ih =>
      have hblank := matchAt_blanks hp hreq hr (j + 1)
      rw [List.replicate_succ, List.cons_append] at hblank ⊢
      rw [find, hblank, ih]
  | cons c s ih =>
    have hsame := matchAt_append_blanks hp hr j (c :: s)
    rw [List.cons_append] at hsame ⊢
    rw [find, find, hsame, ih]
    cases matchAt p (c :: s) <;> rfl

end Blanks

end Regexp
