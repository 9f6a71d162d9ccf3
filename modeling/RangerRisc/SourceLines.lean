import RangerRisc.AssemblerPasses

/-! Where the two passes of the assembler divide a file alike: the words that the second pass
puts into a label's section against the addresses that the first pass counts. -/

namespace RangerRisc.Assembler

open Numeral Regexp

/-! ## How the passes read a line -/

/-- Not an empty line and not a comment. -/
def isCounted (line : Text) : Bool := line ≠ [] ∧ isComment line = false

/-- The label line that the first pass sees. It counts a word for any other counted line. -/
def labelOf (line : Text) : Option (Text × Text) :=
  if isCounted line = true then (matchLabel line).toOption else none

/-- The second pass skips the line before it looks at it. -/
def isSkipped (line : Text) : Bool := trim line = [] ∨ ['/', '/'] <+: trim line

/-- Spaces and nothing else. -/
def isSpaces (line : Text) : Bool := line ≠ [] ∧ trim line = []

def isRef (line : Text) : Bool := 0 < (findStringSubmatch addRefExpr line).length

/-- The name of a label line that the second pass sees. It sees data and references first, and
no empty name. -/
def sectionName (line : Text) : Option Text :=
  if isSkipped line = true ∨ (matchRaw (trim line)).isSome ∨ isRef (trim line) = true then none
  else
    (matchLabel (trim line)).toOption.bind fun l => if l.1 = [] then none else some l.1

/-! ## Spaces around a line -/

section Spaces

variable {b : Text}

theorem stops_blank {cls : Char → Bool} (hcls : cls ' ' = false) (hb : ∀ c ∈ b, isBlank c = true) :
    Stops cls b := by
  intro c hc
  have hblank : c = ' ' := by simpa [isBlank] using hb c (List.mem_of_mem_head? hc)
  rw [hblank]
  exact hcls

theorem matchAt_single_blank {i : Item} {p : Pattern} (hmin : i.min = 1) (hmax : i.max = some 1)
    (hcls : i.cls ' ' = false) (hb : ∀ c ∈ b, isBlank c = true) : matchAt (i :: p) b = none := by
  cases b with
  | nil => exact matchAt_single_nil hmin
  | cons c b =>
    have hc : i.cls c = false := stops_blank hcls hb c rfl
    rw [matchAt_single hmin hmax, hc]
    rfl

/-- What follows the name of a label. -/
def labelTail : Pattern := labelExpr.tail

theorem labelTail_bars (c : Char) (s : Text) (hc : c ≠ ':') :
    matchAt labelTail (c :: s) = none := by
  have hcolon : (one ':').cls c = false := by simpa [one] using hc
  show matchAt (one ':' :: _) (c :: s) = none
  rw [matchAt_single rfl rfl, hcolon]
  rfl

theorem matchAt_labelTail_append (hb : ∀ c ∈ b, isBlank c = true) (s : Text) :
    matchAt labelTail (s ++ b) = matchAt labelTail s := by
  let addr : Item := (star isAlnum).capture
  let mark : Item := ⟨isMark, 1, some 1, false⟩
  have haddr : ∀ s, matchAt [addr] (s ++ b) = matchAt [addr] s :=
    matchAt_star_last_append rfl rfl (stops_blank rfl hb)
  have hmark : ∀ s, matchAt [mark, addr] (s ++ b) = matchAt [mark, addr] s :=
    matchAt_single_append rfl rfl haddr (matchAt_single_blank rfl rfl rfl hb)
  have hspace : matchAt [one ' ', mark, addr] b = none := by
    cases b with
    | nil => exact matchAt_single_nil rfl
    | cons c b =>
      rw [matchAt_single rfl rfl,
        matchAt_single_blank rfl rfl rfl fun c' hc' => hb c' (List.mem_cons_of_mem c hc')]
      simp
  exact matchAt_single_append rfl rfl (matchAt_single_append rfl rfl hmark hspace)
    (matchAt_single_blank rfl rfl rfl hb) s

theorem isAlnum_ne {c : Char} (h : isAlnum c = true) : c ≠ ':' := by
  rintro rfl
  exact absurd h (by decide)

theorem matchAt_labelExpr_append (hb : ∀ c ∈ b, isBlank c = true) (s : Text) :
    matchAt labelExpr (s ++ b) = matchAt labelExpr s :=
  matchAt_star_append rfl rfl (fun c s hc => labelTail_bars c s (isAlnum_ne hc))
    (matchAt_labelTail_append hb) (stops_blank rfl hb) s

theorem matchAt_labelExpr_blank {c : Char} (hc : isBlank c = true) (s : Text) :
    matchAt labelExpr (c :: s) = none := by
  obtain rfl : c = ' ' := by simpa [isBlank] using hc
  let name : Item := (star isAlnum).capture
  have hstar : matchAt (name :: labelTail) ([] ++ ' ' :: s) =
      (matchAt labelTail (' ' :: s)).map (Match.cons name []) :=
    matchAt_star rfl rfl (fun c s hc => labelTail_bars c s (isAlnum_ne hc))
      (List.forall_mem_nil _) (stops_cons rfl)
  rw [labelTail_bars _ _ (by decide)] at hstar
  exact hstar

theorem find_labelExpr_spaces {b' : Text} (hb : ∀ c ∈ b, isBlank c = true)
    (hb' : ∀ c ∈ b', isBlank c = true) (s : Text) :
    find labelExpr (b ++ s ++ b') = find labelExpr s := by
  have hend : find labelExpr b' = matchAt labelExpr [] := by
    have hlead := find_leading (fun c hc s => matchAt_labelExpr_blank (hb' c hc) s) []
    rwa [List.append_nil] at hlead
  rw [find_append (matchAt_labelExpr_append hb') hend,
    find_leading fun c hc s => matchAt_labelExpr_blank (hb c hc) s]

/-- A line is its trimmed text with spaces on both sides. -/
theorem exists_trim (line : Text) :
    ∃ b b', line = b ++ trim line ++ b' ∧ (∀ c ∈ b, isBlank c = true) ∧
      (∀ c ∈ b', isBlank c = true) ∧ Stops isBlank (trim line ++ b') := by
  refine ⟨line.takeWhile isBlank, (line.dropWhile isBlank).rtakeWhile isBlank, ?_,
    fun c hc => List.mem_takeWhile_imp hc, fun c hc => List.mem_rtakeWhile_imp hc, ?_⟩
  · rw [trim, List.append_assoc, List.rdropWhile_append_rtakeWhile, List.takeWhile_append_dropWhile]
  · rw [trim, List.rdropWhile_append_rtakeWhile]
    intro c hc
    have hnot := List.head?_dropWhile_not isBlank line
    rw [hc] at hnot
    simpa using hnot

/-- Both passes read the same label and address in a line. -/
theorem matchLabel_trim (line : Text) : matchLabel (trim line) = matchLabel line := by
  obtain ⟨b, b', hline, hb, hb', _⟩ := exists_trim line
  have hfind : find labelExpr line = find labelExpr (trim line) := by
    conv_lhs => rw [hline]
    exact find_labelExpr_spaces hb hb' (trim line)
  rw [matchLabel, matchLabel, findStringSubmatch, findStringSubmatch, hfind]

theorem matchAt_slashes (s : Text) : (matchAt [slashes] s).isSome = true ↔ ['/', '/'] <+: s := by
  rw [isSome_matchAt_last]
  show 2 ≤ min 2 (s.takeWhile fun c => c == '/').length ↔ _
  rw [Nat.le_min]
  match s with
  | [] => decide
  | [c] => by_cases hc : c = '/' <;> simp [hc]
  | c :: c' :: s =>
    rw [List.cons_prefix_cons, List.cons_prefix_cons]
    by_cases hc : c = '/'
    · by_cases hc' : c' = '/'
      · simp [hc, hc']
      · simp [hc, hc', Ne.symm hc']
    · simp [hc, Ne.symm hc]

theorem matchAt_commentLineExp {rest : Text} (hb : ∀ c ∈ b, isBlank c = true)
    (hstop : Stops isBlank rest) :
    (matchAt commentLineExp (b ++ rest)).isSome = (matchAt [slashes] rest).isSome := by
  have hbars : ∀ c s, isBlank c = true → matchAt [slashes] (c :: s) = none := by
    intro c s hc
    obtain rfl : c = ' ' := by simpa [isBlank] using hc
    rw [← Option.not_isSome_iff_eq_none, matchAt_slashes]
    simp
  have hinner : ∀ b : Text, (∀ c ∈ b, isBlank c = true) →
      matchAt [star isBlank, slashes] (b ++ rest) =
        (matchAt [slashes] rest).map (Match.cons (star isBlank) b) :=
    fun b hb => matchAt_star rfl rfl hbars hb hstop
  have htakes : (star isBlank).capture.Takes b rest := ⟨hb, Nat.zero_le _, .inr ⟨rfl, hstop⟩⟩
  cases hs : matchAt [slashes] rest with
  | some m =>
    have hrest := hinner [] (List.forall_mem_nil _)
    rw [hs] at hrest
    rw [commentLineExp, matchAt_first htakes hrest]
    rfl
  | none =>
    rw [commentLineExp, matchAt_eq_none]
    intro k _ hk
    rw [htakes.run] at hk
    rw [List.drop_append_of_le_length hk, hinner _ fun c hc => hb c (List.mem_of_mem_drop hc), hs]
    rfl

/-- The comments of the first pass are those of the second one. -/
theorem isComment_iff (line : Text) : isComment line = true ↔ ['/', '/'] <+: trim line := by
  obtain ⟨b, b', hline, hb, hb', hstop⟩ := exists_trim line
  have hcomment : isComment line = (matchAt [slashes] (trim line ++ b')).isSome := by
    rw [isComment]
    conv_lhs => rw [hline, List.append_assoc]
    exact matchAt_commentLineExp hb hstop
  rw [hcomment, matchAt_slashes]
  constructor
  · intro h
    have hslash : ∀ c ∈ b', c ≠ '/' := by
      rintro c hc rfl
      exact absurd (hb' _ hc) (by decide)
    match trim line, h with
    | [], h => exact absurd rfl (hslash '/' (h.subset (by simp)))
    | [c], h =>
      rw [List.singleton_append, List.cons_prefix_cons] at h
      exact absurd rfl (hslash '/' (h.2.subset (by simp)))
    | c :: c' :: s, h =>
      rw [List.cons_append, List.cons_append, List.cons_prefix_cons, List.cons_prefix_cons] at h
      rw [List.cons_prefix_cons, List.cons_prefix_cons]
      exact ⟨h.1, h.2.1, List.nil_prefix⟩
  · exact fun h => h.trans (List.prefix_append _ _)

end Spaces

/-! ## One reading against the other -/

theorem trim_nil : trim [] = [] := rfl

/-- The second pass skips what the first one does not count, and lines of spaces. -/
theorem isSkipped_eq (line : Text) : isSkipped line = (!isCounted line || isSpaces line) := by
  have hcomment := isComment_iff line
  rw [Bool.eq_iff_iff]
  by_cases hline : line = []
  · simp [isSkipped, isCounted, isSpaces, hline, trim_nil]
  · by_cases htrim : trim line = []
    · simp [isSkipped, isCounted, isSpaces, hline, htrim]
    · simp [isSkipped, isCounted, isSpaces, hline, htrim, hcomment]

theorem isCounted_of_isSpaces {line : Text} (h : isSpaces line = true) : isCounted line = true := by
  obtain ⟨hline, htrim⟩ : line ≠ [] ∧ trim line = [] := by simpa [isSpaces] using h
  have hcomment : isComment line = false := by
    rw [← Bool.not_eq_true, isComment_iff, htrim]
    simp
  simp [isCounted, hline, hcomment]

theorem labelOf_eq_some {line : Text} {l : Text × Text} :
    labelOf line = some l ↔ isCounted line = true ∧ matchLabel line = .ok l := by
  unfold labelOf
  cases hm : matchLabel line <;> simp [Except.toOption]

theorem labelOf_eq_none {line : Text} (h : labelOf line = none) (hcounted : isCounted line = true) :
    ∃ e, matchLabel line = .error e := by
  cases hm : matchLabel line with
  | error e => exact ⟨e, rfl⟩
  | ok l => rw [labelOf_eq_some.mpr ⟨hcounted, hm⟩] at h; exact absurd h (by simp)

theorem isCounted_of_not_skipped {line : Text} (h : isSkipped line = false) :
    isCounted line = true := by
  rw [isSkipped_eq] at h
  simpa using (Bool.or_eq_false_iff.mp h).1

/-- What the second pass reads as a label, the first pass has read as one. -/
theorem labelOf_of_sectionName {line label : Text} (h : sectionName line = some label) :
    ∃ addr, labelOf line = some (label, addr) := by
  unfold sectionName at h
  split_ifs at h with hskip
  rw [matchLabel_trim] at h
  obtain ⟨⟨name, addr⟩, hm, hname⟩ := Option.bind_eq_some_iff.mp h
  have hmatch : matchLabel line = .ok (name, addr) := by
    cases hl : matchLabel line with
    | error e => rw [hl] at hm; exact absurd hm (by simp [Except.toOption])
    | ok l => rw [hl] at hm; simpa [Except.toOption] using hm
  have hcounted : isCounted line = true := by
    refine isCounted_of_not_skipped ?_
    rw [← Bool.not_eq_true]
    exact fun hs => hskip (.inl hs)
  split_ifs at hname with hne
  obtain rfl : name = label := by simpa using hname
  exact ⟨addr, labelOf_eq_some.mpr ⟨hcounted, hmatch⟩⟩

end RangerRisc.Assembler
