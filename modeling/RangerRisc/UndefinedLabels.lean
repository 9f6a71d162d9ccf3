import RangerRisc.MemoryOperands
import RangerRisc.References

/-! Lines that name a label which the first pass has not recorded. Only some of them are refused:
the map of the labels gives an empty value, which the byte addresses take for a zero. -/

namespace RangerRisc.Assembler

open Numeral Regexp

/-! ## Every line is read -/

section Scan
variable {labels : LabelMap} {start stop : Text}

/-- What the second pass has done with a line, whose machine line is among the given ones. -/
def IsRead (labels : LabelMap) (out : List MachineLine) (line : Text) : Prop :=
  ∃ start stop pc a, sectionLine labels start stop (trim line) = .ok a ∧
    ∀ ltype value, a = .emit ltype value → ⟨trim line, ltype, uintToHexString pc false, value⟩ ∈ out

theorem IsRead.mono {out out' : List MachineLine} {line : Text} (h : IsRead labels out line)
    (hsub : out ⊆ out') : IsRead labels out' line := by
  obtain ⟨start, stop, pc, a, ha, hout⟩ := h
  exact ⟨start, stop, pc, a, ha, fun ltype value heq => hsub (hout ltype value heq)⟩

theorem isRead_scanSection {lines left : List Text} {out : List MachineLine} {pc : BitVec 64}
    (h : scanSection labels start stop pc lines = .ok (out, left)) :
    ∃ read, lines = read ++ left ∧ ∀ line ∈ read, IsRead labels out line := by
  induction lines generalizing out pc with
  | nil =>
    cases h
    exact ⟨[], rfl, List.forall_mem_nil _⟩
  | cons line lines ih =>
    rw [scanSection] at h
    obtain ⟨a, ha, h⟩ := bind_eq_ok h
    cases a with
    | skip =>
      obtain ⟨read, rfl, hread⟩ := ih h
      exact ⟨line :: read, rfl, List.forall_mem_cons.mpr
        ⟨⟨start, stop, pc, _, ha, fun _ _ h => by cases h⟩, hread⟩⟩
    | finish =>
      cases h
      exact ⟨[line], rfl, List.forall_mem_singleton.mpr
        ⟨start, stop, pc, _, ha, fun _ _ h => by cases h⟩⟩
    | emit ltype value =>
      obtain ⟨⟨out', left'⟩, hrest, h⟩ := bind_eq_ok h
      cases h
      obtain ⟨read, rfl, hread⟩ := ih hrest
      refine ⟨line :: read, rfl, List.forall_mem_cons.mpr ⟨⟨start, stop, pc, _, ha, ?_⟩, ?_⟩⟩
      · rintro ltype' value' ⟨⟩
        exact List.mem_cons_self
      · exact fun l hl => (hread l hl).mono (List.subset_cons_self _ _)

/-- The last section has no end. -/
theorem scanSection_last {lines left : List Text} {out : List MachineLine} {pc : BitVec 64}
    (h : scanSection labels start [] pc lines = .ok (out, left)) : left = [] := by
  rcases Reads.split ⟨pc, h⟩ with hleft | ⟨mid, line, -, hname⟩
  · exact hleft
  · unfold sectionName at hname
    split_ifs at hname
    obtain ⟨l, -, hl⟩ := Option.bind_eq_some_iff.mp hname
    split_ifs at hl with hne
    exact absurd (Option.some.inj hl) hne

/-- **No line is lost.** -/
theorem isRead_sections {labelNames lines : List Text} {sects : List Section}
    (h : sections labels labelNames lines = .ok sects) :
    ∀ line ∈ lines, IsRead labels (sects.flatMap Section.lines) line := by
  induction labelNames generalizing lines sects with
  | nil => cases h
  | cons start later ih =>
    cases later with
    | nil =>
      obtain ⟨⟨sect, left⟩, hsect, h⟩ := bind_eq_ok h
      obtain ⟨pc, _, hsect⟩ := bind_eq_ok hsect
      obtain ⟨⟨out, left'⟩, hout, hsect⟩ := bind_eq_ok hsect
      cases hsect
      cases h
      obtain ⟨read, rfl, hread⟩ := isRead_scanSection hout
      rw [scanSection_last hout, List.append_nil]
      exact fun line hline => (hread line hline).mono (by simp)
    | cons stop later =>
      obtain ⟨⟨sect, left⟩, hsect, h⟩ := bind_eq_ok h
      obtain ⟨pc, _, hsect⟩ := bind_eq_ok hsect
      obtain ⟨⟨out, left'⟩, hout, hsect⟩ := bind_eq_ok hsect
      obtain ⟨sects', hsects, h⟩ := bind_eq_ok h
      cases hsect
      cases h
      obtain ⟨read, rfl, hread⟩ := isRead_scanSection hout
      intro line hline
      rcases List.mem_append.mp hline with hline | hline
      · exact (hread line hline).mono (by simp)
      · exact (ih hsects line hline).mono (by simp)

end Scan

/-- **Every line of a file that is accepted** adds its words to the RAM file. -/
theorem lineWords_of_assembleFile {file : List Text} {a : Assembly}
    (h : assembleFile file = .ok a) :
    ∀ line ∈ scan file, ∃ start stop pc ws, lineWords a.found.labels start stop pc line = .ok ws ∧
      ws ⊆ a.ramFile := by
  obtain ⟨found, -, h⟩ := bind_eq_ok h
  obtain ⟨sects, hsects, h⟩ := bind_eq_ok h
  obtain ⟨coded, hcoded, h⟩ := bind_eq_ok h
  cases h
  intro line hline
  obtain ⟨start, stop, pc, action, haction, hout⟩ := isRead_sections hsects line hline
  cases action with
  | skip => exact ⟨start, stop, pc, [], by rw [lineWords, haction]; rfl, List.nil_subset _⟩
  | finish => exact ⟨start, stop, pc, [], by rw [lineWords, haction]; rfl, List.nil_subset _⟩
  | emit ltype value =>
    obtain ⟨c, hc, hassemble⟩ := exists_of_mapM hcoded _ (hout ltype value rfl)
    refine ⟨start, stop, pc, [ramWord c], ?_, ?_⟩
    · rw [lineWords, haction, ok_bind]
      show assemble found.labels _ >>= _ = _
      rw [hassemble]
      rfl
    · exact List.cons_subset.mpr ⟨List.mem_map_of_mem hc, List.nil_subset _⟩

/-! ## Labels without a value -/

namespace Reference

/-- Loads and stores name a label behind a mark. -/
def IsMarked : Reference → Prop
  | memory l => l.operand.marked = true
  | _ => True

/-- The line gets a word although the label is missing, with 0 for its address or, if the name has a
`0x` in it, with the number that the name spells. -/
def IsSilent (pc : BitVec 64) : Reference → Prop
  | relative _ => (byteCount pc).number < 2 ^ 63
  | jalr l => contains "0x".toList l.name.text = true ∧ ∃ v, stringHexToInt l.name.text = .ok v
  | memory l => l.IsResolved ∧ l.operand.addend = none
  | data _ _ => False

end Reference

theorem error_map_iff {α β : Type} {x : Except Error α} {f : α → β} :
    (∃ e, x.map f = .error e) ↔ ¬ ∃ a, x = .ok a := by
  cases x with
  | error e => exact iff_of_true ⟨e, rfl⟩ (by simp)
  | ok a => exact iff_of_false (by rintro ⟨e, h⟩; cases h) (by simp)

section Missing
variable {labels : LabelMap} {start stop line : Text} {pc : BitVec 64}

theorem labelValue_missing {label : Text} (h : labels.lookup label = none) :
    labelValue labels label = [] := by
  rw [labelValue, h]
  rfl

variable (hlabels : PlainValues labels)
include hlabels

/-- A distance is known unless an address is too large: the value that does not read as a number
gives a zero. -/
theorem relative_refused {l : RelativeLine} (hmissing : labels.lookup l.name.text = none)
    (hline : trim line = l.text) :
    (∃ e, lineWords labels start stop pc line = .error e) ↔
      ¬ (Reference.relative l).IsSilent pc := by
  have hwords := @lineWords_instruction labels start stop line _ pc hline l.calm_text
    (starts_spacedTwo l.op.name_lower _ _ _ _)
  have hvalue := l.findLabelValue_context labels (uintToHexString pc false)
  rw [labelValue_missing hmissing] at hvalue
  have hpc := l.context_pc labels pc
  have hzero : wordAddrToByteAddrString [] = (HexLiteral.printed 0).text := rfl
  have hdelta : (∃ v, labelDelta (l.context labels (uintToHexString pc false))
      l.name.text = .ok v) ↔ (byteCount pc).number < 2 ^ 63 := by
    by_cases hsmall : (byteCount pc).number < 2 ^ 63
    · exact iff_of_true ⟨_, labelDelta_of_bytes hpc hvalue hzero ⟨hsmall, by decide⟩⟩ hsmall
    · rw [labelDelta_of_large hpc hvalue hzero fun h => hsmall h.1]
      exact iff_of_false (by simp) hsmall
  rw [hwords, error_map_iff, l.assemble_text hlabels]
  refine not_congr ((Iff.trans ?_ (accepts_iff l.op.kind (l.field_label rfl))).trans
    ((and_iff_left (l.registers rfl)).trans hdelta))
  cases l.op.kind.encode (l.context labels (uintToHexString pc false)) <;> simp [Except.map]

/-- Only a name with a `0x` is a number to `jalr`. -/
theorem jalr_refused {l : JalrLine} (hmissing : labels.lookup l.name.text = none)
    (hline : trim line = l.text) :
    (∃ e, lineWords labels start stop pc line = .error e) ↔ ¬ (Reference.jalr l).IsSilent pc := by
  have hwords := @lineWords_instruction labels start stop line _ pc hline l.calm_text
    (starts_spacedTwo ⟨List.cons_ne_nil _ _, List.all_eq_true.mp rfl⟩ _ _ _ _)
  have hoffset := l.jalrOffset_context labels (uintToHexString pc false)
  rw [labelValue_missing hmissing] at hoffset
  rw [hwords, error_map_iff, l.assemble_text hlabels]
  refine not_congr ?_
  show _ ↔ contains "0x".toList l.name.text = true ∧ _
  cases hzero : contains "0x".toList l.name.text with
  | false =>
    rw [hzero] at hoffset
    have herror := l.jalr_error hoffset (show stringHexToInt [] = .error .errSyntax from rfl)
    rw [herror]
    exact iff_of_false (by simp [Except.map]) (by simp)
  | true =>
    rw [hzero, if_pos rfl] at hoffset
    cases hread : stringHexToInt l.name.text with
    | error e =>
      rw [l.jalr_error hoffset hread]
      exact iff_of_false (by simp [Except.map]) (by simp)
    | ok v =>
      have hcode := l.jalr_context hoffset hread (toNat_of_stringHexToInt l.name.isWord hread)
      rw [hcode]
      exact iff_of_true ⟨_, rfl⟩ ⟨rfl, v, rfl⟩

/-- `@L` that `resolveCalc` finds is taken for 0. A sum needs the value. -/
theorem memory_refused {l : MemoryLine} (hmark : l.operand.marked = true)
    (hmissing : labels.lookup l.operand.name.text = none) (hline : trim line = l.text) :
    (∃ e, lineWords labels start stop pc line = .error e) ↔ ¬ (Reference.memory l).IsSilent pc := by
  have hwords := @lineWords_instruction labels start stop line _ pc hline l.calm_text
    (starts_spacedTwo l.op.name_lower _ _ _ _)
  have hmachine : (⟨l.text, .instruction, uintToHexString pc false, []⟩ : MachineLine) =
      l.machineLine (uintToHexString pc false) := rfl
  rw [hwords, error_map_iff, hmachine]
  refine not_congr ?_
  show _ ↔ l.IsResolved ∧ l.operand.addend = none
  by_cases hres : l.IsResolved
  · have hresolve := resolveOperand_resolved labels hres
    rw [Operand.resolve, hmark, labelValue_missing hmissing] at hresolve
    cases hadd : l.operand.addend with
    | none =>
      have hzero : resolveOperand l.text labels = .ok (HexLiteral.printed 0).text := by
        rw [hresolve, hadd]
        rfl
      have hholds : l.op.Holds (assemble labels (l.machineLine (uintToHexString pc false))) 0 :=
        (holds_literal hlabels hzero (show 0 < 2 ^ 12 by decide) (by decide)).mpr rfl
      obtain ⟨coded, word, hok, -⟩ := hholds
      exact iff_of_true ⟨coded, hok⟩ ⟨hres, rfl⟩
    | some n =>
      have herror : resolveOperand l.text labels = .error .errSyntax := by
        rw [hresolve, hadd]
        rfl
      rw [assemble_error _ herror]
      exact iff_of_false (by simp) (by simp)
  · obtain ⟨e, he⟩ := assemble_unresolved (uintToHexString pc false) hlabels hres (.inl hmark)
    rw [he]
    exact iff_of_false (by simp) fun h => hres h.1

omit hlabels in
/-- A `@:` line is looked up. -/
theorem data_refused {name : Name} {remark : Remark} (hmissing : labels.lookup name.text = none)
    (hline : trim line = (Reference.data name remark).text) :
    (∃ e, lineWords labels start stop pc line = .error e) ↔
      ¬ (Reference.data name remark).IsSilent pc := by
  rw [lineWords_data hline, hmissing]
  exact iff_of_true ⟨_, rfl⟩ not_false

end Missing

/-- **A label that is not recorded** is refused in a sum and in a `@:` line, in a load or a store
that `resolveCalc` does not find, and in a `jalr`; `jal` and branches take its address for 0, and so
does `@L`. A line that is refused wherever it stands stops the assembler. -/
theorem undefined_refused_iff {file : List Text} {found : FindLabels}
    (hfound : findLabels (scan file) = .ok found) {r : Reference} (hmark : r.IsMarked)
    (hmissing : found.labels.lookup r.name.text = none) {line : Text} (hline : trim line = r.text) :
    (∀ start stop pc, (∃ e, lineWords found.labels start stop pc line = .error e) ↔
      ¬ r.IsSilent pc) ∧
      (line ∈ scan file → (∀ pc, ¬ r.IsSilent pc) → ∃ e, assembleFile file = .error e) := by
  have hplain := (addresses_findLabels hfound).plain
  have hrefused : ∀ start stop pc,
      (∃ e, lineWords found.labels start stop pc line = .error e) ↔ ¬ r.IsSilent pc := by
    intro start stop pc
    cases r with
    | relative l => exact relative_refused hplain hmissing hline
    | jalr l => exact jalr_refused hplain hmissing hline
    | memory l => exact memory_refused hplain hmark hmissing hline
    | data name remark => exact data_refused hmissing hline
  refine ⟨hrefused, fun hmem hsilent => ?_⟩
  cases hfile : assembleFile file with
  | error e => exact ⟨e, rfl⟩
  | ok a =>
    obtain ⟨found', hfound', h⟩ := bind_eq_ok hfile
    obtain ⟨sects, -, h⟩ := bind_eq_ok h
    obtain ⟨coded, -, h⟩ := bind_eq_ok h
    have hlabels : a.found = found := by
      obtain rfl := Except.ok.inj (hfound'.symm.trans hfound)
      exact congrArg Assembly.found (Except.ok.inj h).symm
    obtain ⟨start, stop, pc, ws, hwords, -⟩ := lineWords_of_assembleFile hfile line hmem
    obtain ⟨e, he⟩ := (hrefused start stop pc).mpr (hsilent pc)
    rw [hlabels, he] at hwords
    cases hwords

/-! ## Sources with a missing label -/

def nowhere : Name := ⟨"Nowhere".toList, by decide, List.all_eq_true.mp (by decide)⟩

/-- `@: Nowhere` -/
theorem nowhere_refused : ∃ e, assembleFile (oneLine "@: Nowhere".toList) = .error e := by
  have hfound : findLabels (scan (oneLine "@: Nowhere".toList)) =
      .ok oneLineFound := by decide +kernel
  let r : Reference := .data nowhere .nothing
  have hmissing : oneLineFound.labels.lookup r.name.text = none := by decide +kernel
  have hline : trim "@: Nowhere".toList = r.text := by decide +kernel
  have hmark : r.IsMarked := trivial
  exact (undefined_refused_iff hfound hmark hmissing hline).2 (by decide +kernel) fun _ => not_false

/-- A jump to a label that is not there is a jump to 0. -/
theorem nowhere_jump :
    ¬ ∀ (file : List Text) (a : Assembly), assembleFile file = .ok a → ∀ line ∈ scan file,
      ∀ r : Reference, r.IsMarked → trim line = r.text →
        a.found.labels.lookup r.name.text ≠ none := by
  intro h
  let mcl : MachineLine := ⟨"jal x0, @Nowhere".toList, .instruction, "00000000".toList, []⟩
  have hfile : assembleFile (oneLine "jal x0, @Nowhere".toList) =
      .ok ⟨oneLineFound, [⟨"Main".toList, [mcl]⟩], [⟨mcl, "0000006F".toList⟩]⟩ := by decide +kernel
  exact h _ _ hfile "jal x0, @Nowhere".toList (by decide +kernel)
    (.relative ⟨.jal (.x 0), nowhere, 0, 1, .nothing⟩) trivial (by decide +kernel)
      (by decide +kernel)

end RangerRisc.Assembler
