import RangerRisc.AssemblerLines
import RangerRisc.SourceLines

/-! The words that the second pass puts into a label's section against the addresses that the
first pass counts. -/

namespace RangerRisc.Assembler

open Numeral Regexp

/-! ## Counts -/

/-- The lines that the second pass does not skip. -/
def words (lines : List Text) : ℕ := lines.countP fun line => !isSkipped line

def spaces (lines : List Text) : ℕ := lines.countP isSpaces

def counted (lines : List Text) : ℕ := lines.countP isCounted

/-- The names of the label lines. -/
def names (lines : List Text) : List Text := lines.filterMap fun line => (labelOf line).map Prod.fst

@[simp] theorem names_append (l l' : List Text) : names (l ++ l') = names l ++ names l' :=
  List.filterMap_append

theorem names_nil : names [] = [] := rfl

theorem names_cons_of_none {line : Text} {lines : List Text} (h : labelOf line = none) :
    names (line :: lines) = names lines := by
  simp [names, h]

theorem names_cons_of_some {line : Text} {lines : List Text} {l : Text × Text}
    (h : labelOf line = some l) : names (line :: lines) = l.1 :: names lines := by
  simp [names, h]

theorem names_eq_nil_iff {lines : List Text} :
    names lines = [] ↔ ∀ line ∈ lines, labelOf line = none := by
  rw [names, List.filterMap_eq_nil_iff]
  simp

/-- The first pass counts the lines of spaces on top of the words. -/
theorem counted_eq (lines : List Text) : counted lines = words lines + spaces lines := by
  induction lines with
  | nil => rfl
  | cons line lines ih =>
    have hskipped := isSkipped_eq line
    have hspaces := @isCounted_of_isSpaces line
    simp only [counted, words, spaces, List.countP_cons] at ih ⊢
    cases hc : isCounted line <;> cases hs : isSpaces line <;> simp_all <;> omega

/-! ## First pass -/

/-- The word address of an unaddressed label that stands at `pc`. -/
def landing (line : Text) (pc : BitVec 64) : BitVec 64 :=
  if contains "$".toList line then BitVec.ofNat 64 (pc.toInt.toNat / 4) else pc

theorem stringHexToInt_printed (v : BitVec 64) :
    stringHexToInt (uintToHexString v false) =
      if v.toNat < 2 ^ 63 then .ok v else .error .errRange := by
  split_ifs with h
  · refine ((HexLiteral.printed v.toNat).stringHexToInt_text h).trans ?_
    congr 1
    show BitVec.ofInt 64 (v.toNat : ℤ) = v
    rw [BitVec.ofInt_natCast, BitVec.ofNat_toNat, BitVec.setWidth_eq]
  · exact (HexLiteral.printed v.toNat).stringHexToInt_large (Nat.le_of_not_lt h)

/-- A fourth of an address that is not negative. -/
theorem sdiv_four {v : BitVec 64} (h : v.toNat < 2 ^ 63) :
    v.sdiv 4 = BitVec.ofNat 64 (v.toNat / 4) := by
  have hmsb : v.msb = false := by
    rw [BitVec.msb_eq_false_iff_two_mul_lt]
    omega
  rw [BitVec.sdiv_eq, hmsb]
  apply BitVec.eq_of_toNat_eq
  show (v / 4#64).toNat = _
  rw [BitVec.toNat_udiv, BitVec.toNat_ofNat]
  exact (Nat.mod_eq_of_lt (Nat.lt_of_le_of_lt (Nat.div_le_self _ _) v.isLt)).symm

/-- The byte address behind a printed `pc`: a negative one does not read back and gives 0. -/
theorem byteAddr_printed (v : BitVec 64) :
    byteAddrToWordAddrString (uintToHexString v false) =
      uintToHexString (BitVec.ofNat 64 (v.toInt.toNat / 4)) false := by
  rw [byteAddrToWordAddrString, stringHexToInt_printed]
  by_cases hlt : v.toNat < 2 ^ 63
  · have hint : v.toInt.toNat = v.toNat := by
      rw [BitVec.toInt_eq_toNat_of_lt (by omega)]
      rfl
    simp only [if_pos hlt, sdiv_four hlt, hint]
  · have hint : v.toInt.toNat = 0 := by
      rw [BitVec.toInt_eq_toNat_cond, if_neg (by omega)]
      have := v.isLt
      omega
    simp only [if_neg hlt, hint]
    rfl

theorem labelAddr_landing {line : Text} {pc v : BitVec 64}
    (h : stringHexToInt (labelAddr line [] pc) = .ok v) : v = landing line pc := by
  have haddr : labelAddr line [] pc = uintToHexString (landing line pc) false := by
    unfold labelAddr landing
    rw [if_pos rfl]
    split_ifs
    · exact byteAddr_printed pc
    · rfl
  rw [haddr, stringHexToInt_printed] at h
  split_ifs at h
  simpa using h.symm

theorem findLabel_label {s : FindLabels} {line label addr : Text}
    (h : labelOf line = some (label, addr)) :
    findLabel s line = (stringHexToInt (labelAddr line addr s.pc)).map fun value =>
      ⟨value, (label, labelAddr line addr s.pc) :: s.labels, s.labelNames ++ [label]⟩ := by
  obtain ⟨hcounted, hmatch⟩ := labelOf_eq_some.mp h
  obtain ⟨hne, hcomment⟩ : line ≠ [] ∧ isComment line = false := by simpa [isCounted] using hcounted
  rw [findLabel, if_neg (by simpa using hne), if_neg (by simp [hcomment]), hmatch]
  show stringHexToInt (labelAddr line addr s.pc) >>= _ = _
  cases stringHexToInt (labelAddr line addr s.pc) <;> rfl

theorem findLabel_word {s : FindLabels} {line : Text} (h : labelOf line = none) :
    findLabel s line = .ok { s with pc := s.pc + BitVec.ofNat 64 (counted [line]) } := by
  unfold findLabel
  cases hcounted : isCounted line with
  | false =>
    have hzero : counted [line] = 0 := by simp [counted, hcounted]
    rw [hzero, BitVec.ofNat_eq_ofNat, BitVec.add_zero]
    have hskip : line = [] ∨ isComment line = true := by
      simpa [isCounted, imp_iff_not_or] using hcounted
    rcases hskip with rfl | hskip
    · rfl
    · simp [hskip]
  | true =>
    have hone : counted [line] = 1 := by simp [counted, hcounted]
    obtain ⟨hne, hcomment⟩ : line ≠ [] ∧ isComment line = false := by
      simpa [isCounted] using hcounted
    obtain ⟨e, hmatch⟩ := labelOf_eq_none h hcounted
    rw [hone, if_neg (by simpa using hne), if_neg (by simp [hcomment]), hmatch]
    rfl

theorem foldlM_words {s : FindLabels} {lines : List Text}
    (h : ∀ line ∈ lines, labelOf line = none) :
    lines.foldlM findLabel s = .ok { s with pc := s.pc + BitVec.ofNat 64 (counted lines) } := by
  induction lines generalizing s with
  | nil =>
    show Except.ok s = .ok { s with pc := s.pc + 0#64 }
    rw [BitVec.add_zero]
  | cons line lines ih =>
    have hcount : counted (line :: lines) = counted [line] + counted lines := by
      rw [counted, counted, counted, ← List.countP_append, List.singleton_append]
    rw [List.foldlM_cons, findLabel_word (h line List.mem_cons_self)]
    refine (ih fun l hl => h l (List.mem_cons_of_mem line hl)).trans ?_
    rw [hcount, BitVec.ofNat_add, BitVec.add_assoc]

/-- What a run of the first pass does to the names and to the labels it does not meet. -/
theorem foldlM_names {s s' : FindLabels} {lines : List Text}
    (h : lines.foldlM findLabel s = .ok s') :
    s'.labelNames = s.labelNames ++ names lines ∧
      ∀ name ∉ names lines, s'.labels.lookup name = s.labels.lookup name := by
  induction lines generalizing s with
  | nil =>
    obtain rfl : s = s' := Except.ok.inj h
    exact ⟨by rw [names_nil, List.append_nil], fun _ _ => rfl⟩
  | cons line lines ih =>
    rw [List.foldlM_cons] at h
    cases hl : labelOf line with
    | none =>
      rw [findLabel_word hl] at h
      rw [names_cons_of_none hl]
      have hrest := ih h
      exact hrest
    | some l =>
      obtain ⟨label, addr⟩ := l
      rw [findLabel_label hl] at h
      rw [names_cons_of_some hl]
      cases hv : stringHexToInt (labelAddr line addr s.pc) with
      | error e => rw [hv] at h; exact absurd h (by simp [Except.map, bind, Except.bind])
      | ok v =>
        rw [hv] at h
        obtain ⟨hnames, hlookup⟩ := ih h
        refine ⟨by rw [hnames, List.append_assoc, List.singleton_append], fun name hname => ?_⟩
        obtain ⟨hne, hrest⟩ : name ≠ label ∧ name ∉ names lines := by
          simpa [not_or] using hname
        rw [hlookup name hrest, List.lookup_cons, beq_eq_false_iff_ne.mpr hne]

section FirstPass

variable {before between after : List Text} {lineL lineM nameL nameM addrL : Text} {s : FindLabels}

/-- **The addresses of two consecutive labels**, the second one without an address of its
own. -/
theorem findLabels_pair (h : findLabels (before ++ lineL :: (between ++ lineM :: after)) = .ok s)
    (hL : labelOf lineL = some (nameL, addrL)) (hM : labelOf lineM = some (nameM, []))
    (hbetween : ∀ line ∈ between, labelOf line = none) (hne : nameL ≠ nameM)
    (hLafter : nameL ∉ names after) (hMafter : nameM ∉ names after) :
    ∃ vL, address s.labels nameL = .ok vL ∧
      address s.labels nameM =
        .ok (landing lineM (vL + BitVec.ofNat 64 (counted between))) := by
  rw [findLabels, List.foldlM_append] at h
  obtain ⟨s₀, _, h⟩ := bind_eq_ok h
  rw [List.foldlM_cons, findLabel_label hL] at h
  obtain ⟨s₁, h₁, h⟩ := bind_eq_ok h
  obtain ⟨vL, hvL, rfl⟩ := map_eq_ok h₁
  rw [List.foldlM_append, foldlM_words hbetween, ok_bind, List.foldlM_cons, findLabel_label hM] at h
  obtain ⟨s₂, h₂, h⟩ := bind_eq_ok h
  obtain ⟨vM, hvM, rfl⟩ := map_eq_ok h₂
  obtain ⟨_, hlookup⟩ := foldlM_names h
  refine ⟨vL, ?_, ?_⟩
  · rw [address, hlookup nameL hLafter, List.lookup_cons, beq_eq_false_iff_ne.mpr hne,
      List.lookup_cons_self]
    exact hvL
  · rw [address, hlookup nameM hMafter, List.lookup_cons_self, ← labelAddr_landing hvM]
    exact hvM

end FirstPass

/-! ## Second pass -/

/-- A section that begins at `start` gets a word for the line. -/
def isEmitted (start line : Text) : Bool := !isSkipped line && sectionName line ≠ some start

theorem isRef_of_matchAddrRef {line v : Text} {labels : LabelMap}
    (h : matchAddrRef line labels = .ok (some v)) : isRef line = true := by
  unfold matchAddrRef at h
  by_cases hfields : 0 < (findStringSubmatch addRefExpr line).length
  · simpa [isRef] using hfields
  · simp [hfields] at h

theorem not_isRef_of_matchAddrRef {line : Text} {labels : LabelMap}
    (h : matchAddrRef line labels = .ok none) : isRef line = false := by
  unfold matchAddrRef at h
  by_cases hfields : 0 < (findStringSubmatch addRefExpr line).length
  · rw [if_pos hfields] at h
    split at h <;> cases h
  · simpa [isRef] using hfields

/-- The last test of a line, once it is neither data nor a reference. -/
theorem sectionName_of_label {line : Text} (hskip : isSkipped line = false)
    (hraw : matchRaw (trim line) = none) (href : isRef (trim line) = false) :
    sectionName line =
      (matchLabel (trim line)).toOption.bind fun l => if l.1 = [] then none else some l.1 := by
  rw [sectionName, if_neg]
  simp [hskip, hraw, href]

theorem sectionName_of_data {line : Text}
    (h : isSkipped line = true ∨ (matchRaw (trim line)).isSome ∨ isRef (trim line) = true) :
    sectionName line = none := if_pos h

/-- Everything the second pass does with a line. -/
theorem sectionLine_cases {labels : LabelMap} {start stop line : Text} {a : Action}
    (h : sectionLine labels start stop (trim line) = .ok a) :
    (isEmitted start line = false ∧ (sectionName line = some stop → stop = start) ∧ a = .skip) ∨
    (sectionName line = some stop ∧ stop ≠ start ∧ a = .finish) ∨
    (isEmitted start line = true ∧ sectionName line ≠ some stop ∧
      ∃ ltype v, a = .emit ltype v) := by
  have hskipped : isSkipped line = true → a = .skip →
      isEmitted start line = false ∧ (sectionName line = some stop → stop = start) ∧
        a = .skip := by
    intro hskip ha
    rw [sectionName_of_data (.inl hskip)]
    exact ⟨by simp [isEmitted, hskip], by simp, ha⟩
  have hunnamed : isSkipped line = false → sectionName line = none →
      isEmitted start line = true ∧ sectionName line ≠ some stop := by
    intro hskip hname
    simp [isEmitted, hskip, hname]
  unfold sectionLine at h
  split_ifs at h with hnil hslash hcomment
  · refine .inl (hskipped ?_ (Except.ok.inj h).symm)
    simpa [isSkipped] using Or.inl (List.length_eq_zero_iff.mp hnil)
  · refine .inl (hskipped ?_ (Except.ok.inj h).symm)
    simpa [isSkipped] using Or.inr hcomment
  · have hskip : isSkipped line = false := by
      simpa [isSkipped, hcomment] using fun h => hnil (List.length_eq_zero_iff.mpr h)
    cases hraw : matchRaw (trim line) with
    | some v =>
      rw [hraw] at h
      obtain ⟨he, hn⟩ := hunnamed hskip (sectionName_of_data (.inr (.inl (by simp [hraw]))))
      exact .inr (.inr ⟨he, hn, _, _, (Except.ok.inj h).symm⟩)
    | none =>
      rw [hraw] at h
      cases href : matchAddrRef (trim line) labels with
      | error e =>
        rw [href] at h
        cases h
      | ok ref =>
        rw [href] at h
        cases ref with
        | some v =>
          have hr := isRef_of_matchAddrRef href
          obtain ⟨he, hn⟩ := hunnamed hskip (sectionName_of_data (.inr (.inr hr)))
          exact .inr (.inr ⟨he, hn, _, _, (Except.ok.inj h).symm⟩)
        | none =>
          have hname := sectionName_of_label hskip hraw (not_isRef_of_matchAddrRef href)
          cases hm : matchLabel (trim line) with
          | error e =>
            rw [hm] at h hname
            obtain ⟨he, hn⟩ := hunnamed hskip hname
            exact .inr (.inr ⟨he, hn, _, _, (Except.ok.inj h).symm⟩)
          | ok l =>
            obtain ⟨label, addr⟩ := l
            rw [hm] at h hname
            by_cases hempty : label = []
            · subst hempty
              obtain ⟨he, hn⟩ := hunnamed hskip hname
              exact .inr (.inr ⟨he, hn, _, _, (Except.ok.inj h).symm⟩)
            · have hlabel : sectionName line = some label := by
                rw [hname]
                exact if_neg hempty
              have htests : (if label ≠ [] ∧ label = start then Except.ok Action.skip
                  else if label ≠ [] ∧ label = stop then .ok .finish
                  else .ok (.emit .instruction [])) = (.ok a : Except Error Action) := h
              simp only [ne_eq, hempty, not_false_eq_true, true_and] at htests
              split_ifs at htests with hstart hstop
              · subst hstart
                exact .inl ⟨by simp [isEmitted, hlabel], by simp [hlabel, eq_comm],
                  (Except.ok.inj htests).symm⟩
              · subst hstop
                exact .inr (.inl ⟨hlabel, hstart, (Except.ok.inj htests).symm⟩)
              · exact .inr (.inr ⟨by simp [isEmitted, hlabel, hskip, hstart],
                  by simp [hlabel, hstop], _, _, (Except.ok.inj htests).symm⟩)

/-- A run of the second pass over the lines of one section. -/
def Reads (labels : LabelMap) (start stop : Text) (lines : List Text) (out : List MachineLine)
    (left : List Text) : Prop :=
  ∃ pc, scanSection labels start stop pc lines = .ok (out, left)

section Reads

variable {labels : LabelMap} {start stop line : Text} {lines rest left : List Text}
  {out : List MachineLine}

theorem Reads.nil (h : Reads labels start stop [] out left) : out = [] ∧ left = [] := by
  obtain ⟨pc, h⟩ := h
  cases h
  exact ⟨rfl, rfl⟩

theorem Reads.finish (h : Reads labels start stop (line :: rest) out left)
    (hname : sectionName line = some stop) (hne : stop ≠ start) : out = [] ∧ left = rest := by
  obtain ⟨pc, h⟩ := h
  rw [scanSection] at h
  obtain ⟨a, ha, h⟩ := bind_eq_ok h
  rcases sectionLine_cases ha with ⟨_, hstop, _⟩ | ⟨_, _, rfl⟩ | ⟨_, hno, _⟩
  · exact absurd (hstop hname) hne
  · cases h
    exact ⟨rfl, rfl⟩
  · exact absurd hname hno

/-- A line that does not end the section is a word of it or not. -/
theorem Reads.step (h : Reads labels start stop (line :: rest) out left)
    (hname : sectionName line = some stop → stop = start) :
    ∃ out', out.length = [line].countP (isEmitted start) + out'.length ∧
      Reads labels start stop rest out' left := by
  obtain ⟨pc, h⟩ := h
  rw [scanSection] at h
  obtain ⟨a, ha, h⟩ := bind_eq_ok h
  rcases sectionLine_cases ha with ⟨he, _, rfl⟩ | ⟨hstop, hne, _⟩ | ⟨he, _, ltype, v, rfl⟩
  · exact ⟨out, by simp [he], pc, h⟩
  · exact absurd (hname hstop) hne
  · obtain ⟨⟨out', left'⟩, hrest, h⟩ := bind_eq_ok h
    cases h
    exact ⟨out', by simp [he, Nat.add_comm], pc + 1, hrest⟩

theorem Reads.append (h : Reads labels start stop (lines ++ rest) out left)
    (hnames : ∀ line ∈ lines, sectionName line = some stop → stop = start) :
    ∃ out', out.length = lines.countP (isEmitted start) + out'.length ∧
      Reads labels start stop rest out' left := by
  induction lines generalizing out with
  | nil => exact ⟨out, by simp, h⟩
  | cons line lines ih =>
    obtain ⟨out₁, hlen₁, h₁⟩ := h.step (hnames line List.mem_cons_self)
    obtain ⟨out₂, hlen₂, h₂⟩ := ih h₁ fun l hl => hnames l (List.mem_cons_of_mem line hl)
    have hcount : (line :: lines).countP (isEmitted start) =
        [line].countP (isEmitted start) + lines.countP (isEmitted start) := by
      rw [← List.countP_append, List.singleton_append]
    exact ⟨out₂, by rw [hlen₁, hlen₂, hcount, Nat.add_assoc], h₂⟩

/-- A section ends at a line that has its end label, or with the file. -/
theorem Reads.split (h : Reads labels start stop lines out left) :
    left = [] ∨ ∃ mid line, lines = mid ++ line :: left ∧ sectionName line = some stop := by
  induction lines generalizing out with
  | nil => exact .inl h.nil.2
  | cons line lines ih =>
    by_cases hname : sectionName line = some stop → stop = start
    · obtain ⟨out', _, h'⟩ := h.step hname
      rcases ih h' with hend | ⟨mid, last, rfl, hlast⟩
      · exact .inl hend
      · exact .inr ⟨line :: mid, last, rfl, hlast⟩
    · obtain ⟨hstop, hne⟩ := Classical.not_imp.mp hname
      exact .inr ⟨[], line, by rw [(h.finish hstop hne).2]; rfl, hstop⟩

end Reads

/-- The second pass over sections that begin at the labels of a list. -/
def Laid (labels : LabelMap) : List Text → List Text → List (List MachineLine) → Prop
  | [], _, outs => outs = []
  | start :: later, lines, outs =>
    ∃ out outs' left, outs = out :: outs' ∧
      Reads labels start (later.headD []) lines out left ∧ Laid labels later left outs'

theorem sections_laid {labels : LabelMap} {labelNames lines : List Text} {sects : List Section}
    (h : sections labels labelNames lines = .ok sects) :
    sects.map Section.label = labelNames ∧
      Laid labels labelNames lines (sects.map Section.lines) := by
  induction labelNames generalizing lines sects with
  | nil => cases h
  | cons start later ih =>
    cases later with
    | nil =>
      obtain ⟨⟨sect, left⟩, hsect, h⟩ := bind_eq_ok h
      obtain ⟨pc, _, hsect⟩ := bind_eq_ok hsect
      obtain ⟨⟨out, left'⟩, hout, hsect⟩ := bind_eq_ok hsect
      cases hsect
      cases h
      exact ⟨rfl, out, [], left, rfl, ⟨pc, hout⟩, rfl⟩
    | cons stop later =>
      obtain ⟨⟨sect, left⟩, hsect, h⟩ := bind_eq_ok h
      obtain ⟨pc, _, hsect⟩ := bind_eq_ok hsect
      obtain ⟨⟨out, left'⟩, hout, hsect⟩ := bind_eq_ok hsect
      obtain ⟨sects', hsects, h⟩ := bind_eq_ok h
      cases hsect
      cases h
      obtain ⟨hnames, hlaid⟩ := ih hsects
      exact ⟨by rw [List.map_cons, hnames], out, _, left, rfl, ⟨pc, hout⟩, hlaid⟩

/-! ## The second pass in step with the first -/

/-- Every label line but the first ends the section of the label line before it. -/
def inStep : Option Text → List Text → Bool
  | _, [] => true
  | prev, line :: lines =>
    match labelOf line with
    | none => inStep prev lines
    | some (label, _) =>
      prev.all (fun name => sectionName line = some label ∧ name ≠ label) &&
        inStep (some label) lines

theorem sectionName_of_none {line : Text} (h : labelOf line = none) : sectionName line = none := by
  cases hname : sectionName line with
  | none => rfl
  | some label =>
    obtain ⟨addr, haddr⟩ := labelOf_of_sectionName hname
    rw [h] at haddr
    exact absurd haddr (by simp)

theorem sectionName_of_some {line label addr name : Text} (h : labelOf line = some (label, addr))
    (hname : sectionName line = some name) : name = label := by
  obtain ⟨addr', haddr⟩ := labelOf_of_sectionName hname
  rw [h] at haddr
  simpa [eq_comm] using congrArg Prod.fst (Option.some.inj haddr)

theorem mem_names {line name : Text} {lines : List Text} (hline : line ∈ lines)
    (hname : sectionName line = some name) : name ∈ names lines := by
  obtain ⟨addr, haddr⟩ := labelOf_of_sectionName hname
  exact List.mem_filterMap.mpr ⟨line, hline, by rw [haddr]; rfl⟩

theorem inStep_cons_none {prev : Option Text} {line : Text} {lines : List Text}
    (h : labelOf line = none) : inStep prev (line :: lines) = inStep prev lines := by
  rw [inStep, h]

theorem inStep_cons_some {n line label addr : Text} {lines : List Text}
    (h : labelOf line = some (label, addr)) :
    inStep (some n) (line :: lines) = true ↔
      (sectionName line = some label ∧ n ≠ label) ∧ inStep (some label) lines = true := by
  simp [inStep, h]

/-- Nothing is asked of the first label line. -/
theorem inStep_first {pre lines : List Text} {line label addr : Text}
    (hpre : ∀ line ∈ pre, labelOf line = none) (h : labelOf line = some (label, addr)) :
    inStep none (pre ++ line :: lines) = inStep (some label) lines := by
  induction pre with
  | nil => simp [inStep, h]
  | cons l pre ih =>
    rw [List.cons_append, inStep_cons_none (hpre l List.mem_cons_self)]
    exact ih fun l' hl' => hpre l' (List.mem_cons_of_mem l hl')

section Laid

variable {labels : LabelMap} {n line lineL nameL addrL : Text} {later mid tail : List Text}
  {outs : List (List MachineLine)}

/-- Lines that do not end the first section. -/
theorem Laid.skip {lines : List Text} (h : Laid labels (n :: later) (lines ++ tail) outs)
    (hnames : ∀ line ∈ lines, sectionName line = some (later.headD []) → later.headD [] = n) :
    ∃ out out' outs', outs = out :: outs' ∧ Laid labels (n :: later) tail (out' :: outs') := by
  obtain ⟨out, outs', left, rfl, hreads, hlater⟩ := h
  obtain ⟨out', _, hreads'⟩ := hreads.append hnames
  exact ⟨out, out', outs', rfl, out', outs', left, rfl, hreads', hlater⟩

theorem Laid.step (h : Laid labels (n :: later) (line :: tail) outs)
    (hname : sectionName line = some (later.headD []) → later.headD [] = n) :
    ∃ out out' outs', outs = out :: outs' ∧ Laid labels (n :: later) tail (out' :: outs') :=
  @Laid.skip labels n later tail outs [line] h (by simpa using hname)

/-- A line that ends it. -/
theorem Laid.finish {stop : Text} (h : Laid labels (n :: stop :: later) (line :: tail) outs)
    (hname : sectionName line = some stop) (hne : n ≠ stop) :
    ∃ out outs', outs = out :: outs' ∧ Laid labels (stop :: later) tail outs' := by
  obtain ⟨out, outs', left, rfl, hreads, hlater⟩ := h
  obtain ⟨_, rfl⟩ := hreads.finish hname (Ne.symm hne)
  exact ⟨out, outs', rfl, hlater⟩

/-- As long as the passes are in step, the section of a label begins behind its line. -/
theorem Laid.follows
    (h : Laid labels (n :: (names mid ++ nameL :: later)) (mid ++ lineL :: tail) outs)
    (hL : labelOf lineL = some (nameL, addrL)) (hin : inStep (some n) (mid ++ [lineL]) = true) :
    Laid labels (nameL :: later) tail (outs.drop ((names mid).length + 1)) := by
  induction mid generalizing n outs with
  | nil =>
    obtain ⟨⟨hname, hne⟩, _⟩ := (inStep_cons_some hL).mp hin
    obtain ⟨out, outs', rfl, hlater⟩ := Laid.finish h hname hne
    exact hlater
  | cons line mid ih =>
    cases hl : labelOf line with
    | none =>
      rw [names_cons_of_none hl] at h ⊢
      rw [List.cons_append, inStep_cons_none hl] at hin
      obtain ⟨out, out', outs', rfl, hrest⟩ :=
        Laid.step h fun hname => absurd hname (by simp [sectionName_of_none hl])
      have hdrop := ih hrest hin
      exact hdrop
    | some l =>
      obtain ⟨label, addr⟩ := l
      rw [names_cons_of_some hl] at h ⊢
      obtain ⟨⟨hname, hne⟩, hin'⟩ := (inStep_cons_some hl).mp hin
      obtain ⟨out, outs', rfl, hrest⟩ := Laid.finish h hname hne
      exact ih hrest hin'

/-- A label whose line comes too early for its section gets no words. -/
theorem Laid.lags {p lines : List Text}
    (h : Laid labels (n :: (p ++ nameL :: later)) lines outs)
    (hlag : ∀ mid line tail, lines = mid ++ line :: tail → sectionName line = some nameL →
      (names mid).length < p.length) : outs[p.length + 1]? = some [] := by
  induction p generalizing n lines outs with
  | nil =>
    obtain ⟨out, outs', left, rfl, hreads, hlater⟩ := h
    rcases hreads.split with rfl | ⟨mid, line, rfl, hname⟩
    · obtain ⟨out', outs'', left, rfl, hreads', _⟩ := hlater
      rw [hreads'.nil.1]
      rfl
    · exact absurd (hlag mid line left rfl hname) (Nat.not_lt_zero _)
  | cons stop p ih =>
    obtain ⟨out, outs', left, rfl, hreads, hlater⟩ := h
    rw [List.length_cons, List.getElem?_cons_succ]
    refine ih hlater fun mid' line' tail' hleft hname' => ?_
    rcases hreads.split with rfl | ⟨mid, line, rfl, hname⟩
    · exact absurd hleft (by simp)
    · obtain ⟨addr, haddr⟩ := labelOf_of_sectionName hname
      have hlt := hlag (mid ++ line :: mid') line' tail' (by rw [hleft]; simp) hname'
      rw [names_append, names_cons_of_some haddr, List.length_append] at hlt
      simp only [List.length_cons] at hlt
      omega

/-- Once they are out of step, no later section is found. -/
theorem Laid.outOfStep
    (h : Laid labels (n :: (names mid ++ nameL :: later)) (mid ++ lineL :: tail) outs)
    (hL : labelOf lineL = some (nameL, addrL)) (htail : nameL ∉ names tail)
    (hin : ¬ inStep (some n) (mid ++ [lineL]) = true) :
    outs[(names mid).length + 1]? = some [] := by
  induction mid generalizing n outs with
  | nil =>
    have hout : sectionName lineL = some nameL → nameL = n := by
      intro hname
      by_contra hne
      exact hin ((inStep_cons_some hL).mpr ⟨⟨hname, Ne.symm hne⟩, rfl⟩)
    obtain ⟨out, out', outs', rfl, hrest⟩ := Laid.step h hout
    have hlags := Laid.lags (p := []) hrest fun mid line tail' htail' hname =>
      absurd (mem_names (by rw [htail']; simp) hname) htail
    exact hlags
  | cons line mid ih =>
    cases hl : labelOf line with
    | none =>
      rw [names_cons_of_none hl] at h ⊢
      rw [List.cons_append, inStep_cons_none hl] at hin
      obtain ⟨out, out', outs', rfl, hrest⟩ :=
        Laid.step h fun hname => absurd hname (by simp [sectionName_of_none hl])
      have hnone := ih hrest hin
      exact hnone
    | some l =>
      obtain ⟨label, addr⟩ := l
      rw [names_cons_of_some hl] at h ⊢
      by_cases hstep : sectionName line = some label ∧ n ≠ label
      · obtain ⟨out, outs', rfl, hrest⟩ := Laid.finish h hstep.1 hstep.2
        exact ih hrest fun hin' => hin ((inStep_cons_some hl).mpr ⟨hstep, hin'⟩)
      · obtain ⟨out, out', outs', rfl, hrest⟩ := Laid.step h fun hname => by
          by_contra hne
          exact hstep ⟨hname, Ne.symm hne⟩
        have hlags := Laid.lags (p := label :: names mid) hrest
          fun mid' line' tail' hlines hname => by
          rcases List.append_eq_append_iff.mp hlines with ⟨a, rfl, ha⟩ | ⟨c, rfl, hc⟩
          · cases a with
            | nil => simp
            | cons l a =>
              obtain ⟨rfl, rfl⟩ := List.cons.inj ha
              exact absurd (mem_names (by simp) hname) htail
          · simp only [names_append, List.length_append, List.length_cons]
            omega
        exact hlags

end Laid

/-! ## The words of a section -/

/-- The words of a label's section that stand before the label does: those of the file's
first lines, and the line of the label itself if it is not read as one. -/
def leadingWords (before : List Text) (lineL : Text) : ℕ :=
  if names before = [] then words before + (if (sectionName lineL).isSome then 0 else 1) else 0

/-- The words behind it: the rest of the file if the next label is not read as one. -/
def runOnWords (lineM : Text) (after : List Text) : ℕ :=
  if (sectionName lineM).isSome then 0 else words (lineM :: after)

/-- The words that the second pass gives to the section of `lineL`. -/
def sectionWords (before : List Text) (lineL : Text) (between : List Text) (lineM : Text)
    (after : List Text) : ℕ :=
  if inStep none (before ++ [lineL]) then
    leadingWords before lineL + words between + runOnWords lineM after
  else 0

theorem not_skipped_of_labelOf {line : Text} {l : Text × Text} (h : labelOf line = some l) :
    isSkipped line = false := by
  obtain ⟨hcounted, hmatch⟩ := labelOf_eq_some.mp h
  have hspaces : isSpaces line = false := by
    rw [← Bool.not_eq_true]
    intro hs
    have htrim : line ≠ [] ∧ trim line = [] := by simpa [isSpaces] using hs
    rw [← matchLabel_trim, htrim.2] at hmatch
    have hempty : (matchLabel []).toOption = none := by decide
    rw [hmatch] at hempty
    cases hempty
  rw [isSkipped_eq, hcounted, hspaces]
  rfl

theorem countP_isEmitted {start : Text} {lines : List Text} (h : start ∉ names lines) :
    lines.countP (isEmitted start) = words lines := by
  refine List.countP_congr fun line hline => ?_
  have hname : sectionName line ≠ some start := fun hname => h (mem_names hline hname)
  simp [isEmitted, hname]

section SecondPass

variable {labels : LabelMap} {before between after left : List Text}
  {lineL lineM nameL nameM addrL addrM : Text} {out : List MachineLine}

/-- The section of a label from behind its line. -/
theorem Reads.body (h : Reads labels nameL nameM (between ++ lineM :: after) out left)
    (hM : labelOf lineM = some (nameM, addrM)) (hbetween : ∀ line ∈ between, labelOf line = none)
    (hne : nameL ≠ nameM) (hL : nameL ∉ names after) (hM' : nameM ∉ names after) :
    out.length = words between + runOnWords lineM after := by
  have hnil := names_eq_nil_iff.mpr hbetween
  obtain ⟨out₁, hlen₁, h₁⟩ := h.append fun line hline hname => by
    rw [sectionName_of_none (hbetween line hline)] at hname
    exact absurd hname (by simp)
  rw [hlen₁, countP_isEmitted (by rw [hnil]; simp)]
  congr 1
  unfold runOnWords
  cases hname : sectionName lineM with
  | some name =>
    obtain rfl := sectionName_of_some hM hname
    rw [(h₁.finish hname (Ne.symm hne)).1]
    rfl
  | none =>
    have hnames : nameL ∉ names (lineM :: after) := by
      rw [names_cons_of_some hM]
      simpa [hne] using hL
    rw [← List.append_nil (lineM :: after)] at h₁
    obtain ⟨out₂, hlen₂, h₂⟩ := h₁.append fun line hline hline' => by
      rcases List.mem_cons.mp hline with rfl | hline
      · rw [hname] at hline'
        exact absurd hline' (by simp)
      · exact absurd (mem_names hline hline') hM'
    rw [hlen₂, h₂.nil.1, countP_isEmitted hnames]
    rfl

/-- The first section reads the lines before its label and the line of the label too. -/
theorem Reads.leading {rest : List Text}
    (h : Reads labels nameL nameM (before ++ lineL :: rest) out left)
    (hL : labelOf lineL = some (nameL, addrL)) (hbefore : names before = []) :
    ∃ out', out.length = leadingWords before lineL + out'.length ∧
      Reads labels nameL nameM rest out' left := by
  have hword : [lineL].countP (isEmitted nameL) = if (sectionName lineL).isSome then 0 else 1 := by
    have hskip := not_skipped_of_labelOf hL
    cases hname : sectionName lineL with
    | none => simp [isEmitted, hskip, hname]
    | some name =>
      obtain rfl := sectionName_of_some hL hname
      simp [isEmitted, hname]
  obtain ⟨out₁, hlen₁, h₁⟩ := h.append fun line hline hname => by
    have hmem := mem_names hline hname
    rw [hbefore] at hmem
    exact absurd hmem (by simp)
  obtain ⟨out₂, hlen₂, h₂⟩ := h₁.step fun hname => sectionName_of_some hL hname
  refine ⟨out₂, ?_, h₂⟩
  rw [hlen₁, hlen₂, hword, leadingWords, if_pos hbefore, countP_isEmitted (by simp [hbefore]),
    Nat.add_assoc]

/-- The first label line of a file. -/
theorem exists_first {lines : List Text} {name : Text} {later : List Text}
    (h : names lines = name :: later) :
    ∃ pre line addr rest, lines = pre ++ line :: rest ∧ (∀ line ∈ pre, labelOf line = none) ∧
      labelOf line = some (name, addr) ∧ names rest = later := by
  induction lines with
  | nil => cases h
  | cons line lines ih =>
    cases hl : labelOf line with
    | none =>
      rw [names_cons_of_none hl] at h
      obtain ⟨pre, first, addr, rest, rfl, hpre, hfirst, hrest⟩ := ih h
      exact ⟨line :: pre, first, addr, rest, rfl, List.forall_mem_cons.mpr ⟨hl, hpre⟩,
        hfirst, hrest⟩
    | some l =>
      rw [names_cons_of_some hl] at h
      obtain ⟨rfl, rfl⟩ := List.cons.inj h
      exact ⟨[], line, l.2, lines, rfl, by simp, hl, rfl⟩

/-- **The words of every section**, whatever the label lines are. -/
theorem Laid.section_words {outs : List (List MachineLine)}
    (h : Laid labels (names before ++ nameL :: nameM :: names after)
      (before ++ lineL :: (between ++ lineM :: after)) outs)
    (hL : labelOf lineL = some (nameL, addrL)) (hM : labelOf lineM = some (nameM, addrM))
    (hbetween : ∀ line ∈ between, labelOf line = none) (hne : nameL ≠ nameM)
    (hLafter : nameL ∉ names after) (hMafter : nameM ∉ names after) :
    ∃ out, outs[(names before).length]? = some out ∧
      out.length = sectionWords before lineL between lineM after := by
  have hbody : ∀ {out left}, Reads labels nameL nameM (between ++ lineM :: after) out left →
      out.length = words between + runOnWords lineM after :=
    fun hreads => Reads.body hreads hM hbetween hne hLafter hMafter
  cases hnames : names before with
  | nil =>
    rw [hnames] at h
    obtain ⟨out, outs', left, rfl, hreads, _⟩ := h
    obtain ⟨out', hlen, hreads'⟩ := Reads.leading hreads hL hnames
    have hin : inStep none (before ++ [lineL]) = true := by
      rw [inStep_first (names_eq_nil_iff.mp hnames) hL]
      rfl
    refine ⟨out, rfl, ?_⟩
    rw [hlen, hbody hreads', sectionWords, if_pos hin, Nat.add_assoc]
  | cons first later =>
    rw [hnames] at h
    obtain ⟨pre, line, addr, mid, rfl, hpre, hfirst, rfl⟩ := exists_first hnames
    have hin : inStep none (pre ++ line :: mid ++ [lineL]) =
        inStep (some first) (mid ++ [lineL]) := by
      rw [List.append_assoc, List.cons_append, inStep_first hpre hfirst]
    have hlead : leadingWords (pre ++ line :: mid) lineL = 0 := by
      rw [leadingWords, if_neg (by rw [hnames]; simp)]
    have hlines : pre ++ line :: mid ++ lineL :: (between ++ lineM :: after) =
        (pre ++ [line]) ++ (mid ++ lineL :: (between ++ lineM :: after)) := by simp
    rw [hlines] at h
    obtain ⟨out, out', outs', rfl, hrest⟩ := Laid.skip h fun l hl hname => by
      rcases List.mem_append.mp hl with hl | hl
      · rw [sectionName_of_none (hpre l hl)] at hname
        exact absurd hname (by simp)
      · obtain rfl := List.mem_singleton.mp hl
        exact sectionName_of_some hfirst hname
    rw [sectionWords, hin, hlead, Nat.zero_add]
    by_cases hstep : inStep (some first) (mid ++ [lineL]) = true
    · obtain ⟨out₁, outs₁, left, hout, hreads, _⟩ := Laid.follows hrest hL hstep
      refine ⟨out₁, ?_, by rw [if_pos hstep]; exact hbody hreads⟩
      rw [List.drop_succ_cons] at hout
      rw [List.length_cons, List.getElem?_cons_succ, ← List.head?_drop, hout]
      rfl
    · have hnone := Laid.outOfStep hrest hL ?_ hstep
      · exact ⟨[], hnone, by rw [if_neg hstep]; rfl⟩
      · rw [names_append, names_eq_nil_iff.mpr hbetween, names_cons_of_some hM]
        simpa [hne] using hLafter

end SecondPass

/-! ## Two consecutive labels -/

/-- A fourth of the word address `v + c` is the address `v + w`. -/
def IsFourth (v : BitVec 64) (c w : ℕ) : Prop :=
  if v.toNat + c + w < 2 ^ 63 then
    3 * v.toNat + 4 * w ≤ c ∧ c ≤ 3 * v.toNat + 4 * w + 3
  else
    BitVec.ofNat 64 ((v + BitVec.ofNat 64 c).toInt.toNat / 4) = v + BitVec.ofNat 64 w

theorem isFourth_iff {v : BitVec 64} {c w : ℕ} :
    IsFourth v c w ↔
      BitVec.ofNat 64 ((v + BitVec.ofNat 64 c).toInt.toNat / 4) = v + BitVec.ofNat 64 w := by
  unfold IsFourth
  split_ifs with hsmall
  · have hc : (v + BitVec.ofNat 64 c).toNat = v.toNat + c := by
      rw [BitVec.toNat_add, BitVec.toNat_ofNat, Nat.add_mod_mod, Nat.mod_eq_of_lt (by omega)]
    have hw : (v + BitVec.ofNat 64 w).toNat = v.toNat + w := by
      rw [BitVec.toNat_add, BitVec.toNat_ofNat, Nat.add_mod_mod, Nat.mod_eq_of_lt (by omega)]
    have hint : (v + BitVec.ofNat 64 c).toInt.toNat = v.toNat + c := by
      rw [BitVec.toInt_eq_toNat_of_lt (by omega), hc]
      rfl
    rw [hint, ← BitVec.toNat_inj, BitVec.toNat_ofNat, hw, Nat.mod_eq_of_lt (by omega)]
    omega
  · rfl

/-- **When the code before `lineM` runs on into it.** As long as the passes are in step, the
lines of spaces between the labels, which only the first pass counts, make up for the words
that only the second pass finds. Once they are not, the section is empty. With a `$` in `lineM`
the address that is reached counts for bytes. -/
def RunsOn (before : List Text) (lineL : Text) (between : List Text) (lineM : Text)
    (after : List Text) (vL : BitVec 64) : Prop :=
  if contains "$".toList lineM then
    IsFourth vL (counted between) (sectionWords before lineL between lineM after)
  else if inStep none (before ++ [lineL]) then
    BitVec.ofNat 64 (spaces between) =
      BitVec.ofNat 64 (leadingWords before lineL + runOnWords lineM after)
  else BitVec.ofNat 64 (counted between) = 0

theorem landing_iff {before between after : List Text} {lineL lineM : Text} {vL : BitVec 64} :
    landing lineM (vL + BitVec.ofNat 64 (counted between)) =
        vL + BitVec.ofNat 64 (sectionWords before lineL between lineM after) ↔
      RunsOn before lineL between lineM after vL := by
  unfold RunsOn landing
  split_ifs with hmark hin
  · exact isFourth_iff.symm
  · have hsum : leadingWords before lineL + words between + runOnWords lineM after =
        words between + (leadingWords before lineL + runOnWords lineM after) := by omega
    rw [sectionWords, if_pos hin, counted_eq, BitVec.add_right_inj, hsum, BitVec.ofNat_add,
      BitVec.ofNat_add (words between), BitVec.add_right_inj]
  · rw [sectionWords, if_neg hin, BitVec.add_right_inj]
    rfl

/-- The address of the second of two consecutive labels, if its line has none, is the address
of the first one plus the words of its section exactly if `RunsOn` holds. A label that is declared
again later on has the later address. -/
theorem runs_on_iff {file before between after : List Text} {lineL lineM nameL nameM addrL : Text}
    {s : FindLabels} {sects : List Section}
    (hfile : scan file = before ++ lineL :: (between ++ lineM :: after))
    (hpass1 : findLabels (scan file) = .ok s)
    (hpass2 : sections s.labels s.labelNames (scan file) = .ok sects)
    (hL : labelOf lineL = some (nameL, addrL)) (hM : labelOf lineM = some (nameM, []))
    (hbetween : ∀ line ∈ between, labelOf line = none) (hne : nameL ≠ nameM)
    (hLafter : nameL ∉ names after) (hMafter : nameM ∉ names after) :
    ∃ vL vM sect, address s.labels nameL = .ok vL ∧ address s.labels nameM = .ok vM ∧
      sects[(names before).length]? = some sect ∧ sect.label = nameL ∧
      (vM = vL + BitVec.ofNat 64 sect.lines.length ↔
        RunsOn before lineL between lineM after vL) := by
  rw [hfile] at hpass1 hpass2
  have hnames : s.labelNames = names before ++ nameL :: nameM :: names after := by
    obtain ⟨hall, _⟩ := foldlM_names hpass1
    rw [hall, List.nil_append, names_append, names_cons_of_some hL, names_append,
      names_eq_nil_iff.mpr hbetween, names_cons_of_some hM]
    rfl
  rw [hnames] at hpass2
  obtain ⟨vL, hvL, hvM⟩ := findLabels_pair hpass1 hL hM hbetween hne hLafter hMafter
  obtain ⟨hlabels, hlaid⟩ := sections_laid hpass2
  obtain ⟨out, hout, hlen⟩ := Laid.section_words hlaid hL hM hbetween hne hLafter hMafter
  rw [List.getElem?_map] at hout
  obtain ⟨sect, hsect, rfl⟩ := Option.map_eq_some_iff.mp hout
  refine ⟨vL, _, sect, hvL, hvM, hsect, ?_, ?_⟩
  · have hlabel := congrArg (fun l => l[(names before).length]?) hlabels
    simpa [hsect] using hlabel
  · rw [hlen]
    exact landing_iff

def nopAt (addr : Text) : MachineLine := ⟨"nop".toList, .instruction, addr, []⟩

/-- `A` is declared twice, and the second one runs on into `B`. -/
def repeatedLabel : List Text :=
  ["A: @0".toList, "nop".toList, "X: @8".toList, "nop".toList] ++
    "A: @4".toList :: (["nop".toList] ++ "B: @".toList :: ["nop".toList])

theorem runs_on_repeatedLabel :
    ∃ vL vM sect, stringHexToInt "4".toList = .ok vL ∧
      stringHexToInt "00000005".toList = .ok vM ∧
      [Section.mk "A".toList [nopAt "00000004".toList], ⟨"X".toList, [nopAt "00000008".toList]⟩,
        ⟨"A".toList, [nopAt "00000004".toList]⟩, ⟨"B".toList, [nopAt "00000005".toList]⟩][2]? =
          some sect ∧
      sect.label = "A".toList ∧
      (vM = vL + BitVec.ofNat 64 sect.lines.length ↔
        RunsOn ["A: @0".toList, "nop".toList, "X: @8".toList, "nop".toList] "A: @4".toList
          ["nop".toList] "B: @".toList ["nop".toList] vL) := by
  let found : FindLabels := ⟨6, [("B".toList, "00000005".toList), ("A".toList, "4".toList),
    ("X".toList, "8".toList), ("A".toList, "0".toList)],
    ["A".toList, "X".toList, "A".toList, "B".toList]⟩
  have hfile : scan repeatedLabel = repeatedLabel := by decide +kernel
  have hpass1 : findLabels (scan repeatedLabel) = .ok found := by decide +kernel
  exact runs_on_iff hfile hpass1 (by decide +kernel)
    (rfl : labelOf "A: @4".toList = some ("A".toList, "4".toList)) rfl (by decide) (by decide)
    (by decide) (by decide)

/-- A file of two sections. -/
def twoSections (between : List Text) : List Text :=
  [] ++ "A: @0".toList :: (between ++ "B: @".toList :: ["nop".toList])

/-- What the first pass makes of it, with `B` at the address that is printed as `addr`. -/
def twoLabels (pc : BitVec 64) (addr : Text) : FindLabels :=
  ⟨pc, [("B".toList, addr), ("A".toList, "0".toList)], ["A".toList, "B".toList]⟩

/-- A line of spaces between the labels: word 1 belongs to no section. -/
theorem runs_on_spaces :
    ∃ s sects sect vL vM,
      scan (twoSections ["nop".toList, "  ".toList]) = twoSections ["nop".toList, "  ".toList] ∧
      findLabels (twoSections ["nop".toList, "  ".toList]) = .ok s ∧
      sections s.labels s.labelNames (twoSections ["nop".toList, "  ".toList]) = .ok sects ∧
      labelOf "A: @0".toList = some ("A".toList, "0".toList) ∧
      labelOf "B: @".toList = some ("B".toList, []) ∧
      address s.labels "A".toList = .ok vL ∧ address s.labels "B".toList = .ok vM ∧
      sects[0]? = some sect ∧ sect.label = "A".toList ∧
      vM ≠ vL + BitVec.ofNat 64 sect.lines.length :=
  ⟨twoLabels 3 "00000002".toList,
    [⟨"A".toList, [nopAt "00000000".toList]⟩, ⟨"B".toList, [nopAt "00000002".toList]⟩],
    ⟨"A".toList, [nopAt "00000000".toList]⟩, 0, 2, by decide +kernel, rfl, rfl, rfl, rfl, rfl, rfl,
    rfl, rfl, by decide⟩

end RangerRisc.Assembler
