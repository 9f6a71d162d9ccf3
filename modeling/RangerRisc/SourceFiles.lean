import RangerRisc.Programs
import RangerRisc.TrailingComments

/-! Source files as programs: a file of labels, statements, data and comments, the addresses that
its words have, and that the assembler accepts it and gives every word its address. -/

namespace RangerRisc.Assembler

open Numeral Regexp

/-! ## Programs -/

/-- One line of a source file. The address of a label may be left out; behind a `$` it counts
bytes. -/
inductive SourceLine where
  | blank
  | comment (indent : ℕ) (remark : Text)
  | label (name : Name) (bytes : Bool) (addr : Option HexLiteral)
  | instruction (indent : ℕ) (stmt : Stmt)
  | data (indent : ℕ) (value : Text)
  | ref (indent : ℕ) (name : Name)

/-- The word address of a label that is reached with this `pc`. -/
def place (bytes : Bool) (addr : Option HexLiteral) (pc : BitVec 64) : BitVec 64 :=
  let v := match addr with
    | some l => BitVec.ofNat 64 l.number
    | none => pc
  if bytes then BitVec.ofNat 64 (v.toNat / 4) else v

namespace SourceLine

def indent : SourceLine → ℕ
  | blank | label _ _ _ => 0
  | comment k _ | instruction k _ | data k _ | ref k _ => k

/-- The line without its indentation. -/
def content : SourceLine → Text
  | blank => []
  | comment _ t => '/' :: '/' :: t
  | label name bytes addr =>
    name.text ++ ':' :: ' ' :: (if bytes then '$' else '@') :: (addr.elim [] HexLiteral.text)
  | instruction _ stmt => stmt.text
  | data _ value => "d: ".toList ++ value
  | ref _ name => "@: ".toList ++ name.text

def text (l : SourceLine) : Text := blanks l.indent ++ l.content

def isWord : SourceLine → Bool
  | instruction _ _ | data _ _ | ref _ _ => true
  | _ => false

/-- The `pc` behind the line. -/
def next (pc : BitVec 64) : SourceLine → BitVec 64
  | blank | comment _ _ => pc
  | label _ bytes addr => place bytes addr pc
  | _ => pc + 1

def labelName : SourceLine → Option Text
  | label name _ _ => some name.text
  | _ => none

end SourceLine

open SourceLine

/-- The words of a file that begins at `pc`, each with its address. -/
def layout : BitVec 64 → List SourceLine → List (BitVec 64 × SourceLine)
  | _, [] => []
  | pc, l :: ls => (if l.isWord then [(pc, l)] else []) ++ layout (l.next pc) ls

/-- The labels of a file that begins at `pc`, each with its address. -/
def places : BitVec 64 → List SourceLine → List (Text × BitVec 64)
  | _, [] => []
  | pc, l :: ls => (l.labelName.map fun name => (name, l.next pc)).toList ++ places (l.next pc) ls

/-- How the address of a label is written down. -/
def entryText (bytes : Bool) (addr : Option HexLiteral) (pc : BitVec 64) : Text :=
  match bytes, addr with
  | false, some l => l.text
  | _, _ => uintToHexString (place bytes addr pc) false

def record (s : FindLabels) : SourceLine → FindLabels
  | label name bytes addr =>
    ⟨place bytes addr s.pc, (name.text, entryText bytes addr s.pc) :: s.labels,
      s.labelNames ++ [name.text]⟩
  | l => { s with pc := l.next s.pc }

/-- The labels of a file as the first pass is to find them. -/
def found (src : List SourceLine) : FindLabels := src.foldl record ⟨0, [], []⟩

/-- A line that the assembler reads as what it is. -/
def SourceLine.IsFormed (labels : LabelMap) (pc : BitVec 64) : SourceLine → Prop
  | blank | comment _ _ => True
  | label name _ addr =>
    (∀ c ∈ name.text, isAlnum c = true) ∧ (addr.elim pc.toNat HexLiteral.number) < 2 ^ 63
  | instruction _ stmt =>
    stmt.InRange labels pc ∧ ∀ c ∈ stmt.text.getLast?, isBlank c = false
  | data _ value => value ≠ [] ∧ ∀ c ∈ value, isRawDigit c = true
  | ref _ name => ∃ v, address labels name.text = .ok v

def Formed (labels : LabelMap) : BitVec 64 → List SourceLine → Prop
  | _, [] => True
  | pc, l :: ls => l.IsFormed labels pc ∧ Formed labels (l.next pc) ls

/-- A file that begins with a label, behind comments at most, and has no label twice. -/
structure IsProgram (src : List SourceLine) : Prop where
  formed : Formed (found src).labels 0 src
  nodup : ((places 0 src).map Prod.fst).Nodup
  first : ∃ header body, src = header ++ body ∧
    (∀ l ∈ header, l.isWord = false ∧ l.labelName = none) ∧
    ∃ name bytes addr rest, body = .label name bytes addr :: rest

/-! ## How a line is read -/

/-- The only colon of a line is the colon that an expression asks for. -/
theorem pieces_at_colon {p q : Pattern} {it : Item} {h t : Text} {m : Match} (hh : ':' ∉ h)
    (ht : ':' ∉ t) (hm : find (p ++ one ':' :: one ' ' :: it :: q)
      (h ++ ':' :: ' ' :: t) = some m) :
    ∃ pre ss s rest, h = pre ++ ss.flatten ∧ List.Forall₂ Item.Fits p ss ∧ t = s ++ rest ∧
      it.Fits s := by
  obtain ⟨pre, ss, rest, htext, hfits, -⟩ := exists_pieces_of_find hm
  have hsplit : ∀ {p : Pattern} {ss : List Text},
      List.Forall₂ Item.Fits (p ++ one ':' :: one ' ' :: it :: q) ss →
        ∃ ss₁ s ss₂, ss = ss₁ ++ [':'] :: [' '] :: s :: ss₂ ∧ List.Forall₂ Item.Fits p ss₁ ∧
          it.Fits s := by
    intro p
    induction p with
    | nil =>
      intro ss hfits
      obtain _ | ⟨hcolon, hfits⟩ := hfits
      obtain _ | ⟨hspace, hfits⟩ := hfits
      obtain _ | ⟨hit, hfits⟩ := hfits
      obtain rfl := fits_one hcolon
      obtain rfl := fits_one hspace
      exact ⟨[], _, _, rfl, .nil, hit⟩
    | cons i p ih =>
      intro ss hfits
      obtain _ | ⟨hi, hfits⟩ := hfits
      obtain ⟨ss₁, s, ss₂, rfl, hp, hit⟩ := ih hfits
      exact ⟨_ :: ss₁, s, ss₂, rfl, .cons hi hp, hit⟩
  obtain ⟨ss₁, s, ss₂, rfl, hp, hit⟩ := hsplit hfits
  have hcolon : h ++ ':' :: (' ' :: t) =
      (pre ++ ss₁.flatten) ++ ':' :: (' ' :: (s ++ (ss₂.flatten ++ rest))) := by
    rw [htext]
    simp
  have htail : ':' ∉ ' ' :: t := by simpa using ht
  obtain ⟨hhead, -, hrest⟩ := (List.append_cons_inj_of_notMem hh htail).mp hcolon
  exact ⟨pre, ss₁, s, _, hhead, hp, (List.cons.inj hrest).2, hit⟩

/-! ### Trimmed lines -/

theorem not_isBlank_of_isRawDigit {c : Char} (h : isRawDigit c = true) : isBlank c = false := by
  rw [← Bool.not_eq_true]
  intro hblank
  obtain rfl : c = ' ' := by simpa [isBlank] using hblank
  cases h

theorem HexLiteral.isAlnum_text (l : HexLiteral) : ∀ c ∈ l.text, isAlnum c = true := by
  intro c hc
  have hword := l.isWord_text c hc
  have hbar : c ≠ '_' := by
    rintro rfl
    exact l.not_mem_text (by decide) (by decide) hc
  unfold isWord at hword
  simpa [isAlnum, hbar] using hword

/-- The slashes of a comment stay. -/
theorem slashes_trim (k : ℕ) (t : Text) : ['/', '/'] <+: trim (blanks k ++ '/' :: '/' :: t) := by
  have hslash : isBlank '/' = false := rfl
  rw [trim, dropWhile_append_stops (isBlank_blanks k) (stops_cons hslash)]
  have hsplit := @List.rdropWhile_append_rtakeWhile _ isBlank ('/' :: '/' :: t)
  have hend : '/' ∉ ('/' :: '/' :: t).rtakeWhile isBlank := by
    intro h
    have hblank := List.mem_rtakeWhile_imp h
    cases hblank
  rcases hd : ('/' :: '/' :: t).rdropWhile isBlank with _ | ⟨c, _ | ⟨d, s⟩⟩
  · rw [hd, List.nil_append] at hsplit
    refine absurd ?_ hend
    rw [hsplit]
    exact List.mem_cons_self
  · rw [hd, List.singleton_append, List.cons.injEq] at hsplit
    refine absurd ?_ hend
    rw [hsplit.2]
    exact List.mem_cons_self
  · rw [hd] at hsplit
    obtain ⟨rfl, hrest⟩ := List.cons.inj hsplit
    obtain ⟨rfl, -⟩ := List.cons.inj hrest
    exact List.prefix_append _ s

section Reading
variable {labels : LabelMap} {pc : BitVec 64} {l : SourceLine}

/-- A word or a label begins and ends with what is no space, and is no comment. -/
theorem content_ends (h : l.IsFormed labels pc) (hl : l.isWord = true ∨ l.labelName.isSome = true) :
    (∃ c t, l.content = c :: t ∧ isBlank c = false ∧ c ≠ '/') ∧
      ∀ c ∈ l.content.getLast?, isBlank c = false := by
  have hslash : ∀ {c}, Assembler.isWord c = true → c ≠ '/' := by
    rintro _ hc rfl
    cases hc
  cases l with
  | blank => simp [SourceLine.isWord, SourceLine.labelName] at hl
  | comment k t => simp [SourceLine.isWord, SourceLine.labelName] at hl
  | label name bytes addr =>
    obtain ⟨c, t, hname⟩ := List.exists_cons_of_ne_nil name.ne_nil
    have hc : Assembler.isWord c = true := name.isWord c (hname ▸ List.mem_cons_self)
    refine ⟨⟨c, _, by rw [content, hname, List.cons_append], isWord_not_blank hc, hslash hc⟩, ?_⟩
    have hmark : ∀ c ∈ (if bytes then '$' else '@') :: (addr.elim [] HexLiteral.text),
        isBlank c = false := by
      intro c hc
      rcases List.mem_cons.mp hc with rfl | hc
      · cases bytes <;> rfl
      · cases addr with
        | none => cases hc
        | some n => exact isWord_not_blank (n.isWord_text c hc)
    have hlast : (content (.label name bytes addr)).getLast? =
        ((if bytes then '$' else '@') :: (addr.elim [] HexLiteral.text)).getLast? := by
      rw [content, List.getLast?_append_of_ne_nil _ (List.cons_ne_nil _ _), List.getLast?_cons_cons,
        List.getLast?_cons_cons]
    intro c hc
    rw [hlast] at hc
    exact hmark c (List.mem_of_getLast? hc)
  | instruction k stmt =>
    obtain ⟨c, t, htext, hc⟩ := Stmt.starts h.1
    have hword := isWord_of_isLower hc
    exact ⟨⟨c, t, htext, isWord_not_blank hword, hslash hword⟩, h.2⟩
  | data k value =>
    refine ⟨⟨'d', _, rfl, rfl, by decide⟩, fun c hc => ?_⟩
    rw [content, List.getLast?_append_of_ne_nil _ h.1] at hc
    exact not_isBlank_of_isRawDigit (h.2 c (List.mem_of_getLast? hc))
  | ref k name =>
    refine ⟨⟨'@', _, rfl, rfl, by decide⟩, fun c hc => ?_⟩
    rw [content, List.getLast?_append_of_ne_nil _ name.ne_nil] at hc
    exact isWord_not_blank (name.isWord c (List.mem_of_getLast? hc))

theorem trim_text (h : l.IsFormed labels pc) (hl : l.isWord = true ∨ l.labelName.isSome = true) :
    trim l.text = l.content := by
  obtain ⟨⟨c, t, hcontent, hblank, -⟩, hlast⟩ := content_ends h hl
  have hfirst : ∀ c ∈ l.content.head?, isBlank c = false := by
    rw [hcontent]
    rintro _ ⟨⟩
    exact hblank
  have hne : l.content ≠ [] := hcontent ▸ List.cons_ne_nil c t
  have htrim := trim_eq (isBlank_blanks l.indent) (List.forall_mem_nil _) hfirst hlast hne
  rwa [List.append_nil] at htrim

/-- It is read on, whichever pass reads it. -/
theorem isCounted_text (h : l.IsFormed labels pc)
    (hl : l.isWord = true ∨ l.labelName.isSome = true) :
    isCounted l.text = true ∧ l.content.length ≠ 0 ∧ l.content ≠ ['/'] ∧
      ¬ ['/', '/'] <+: l.content := by
  obtain ⟨⟨c, t, hcontent, -, hslash⟩, -⟩ := content_ends h hl
  have hprefix : ¬ ['/', '/'] <+: l.content := by
    rw [hcontent, List.cons_prefix_cons]
    exact fun hp => hslash hp.1.symm
  have hcomment : isComment l.text = false := by
    rw [← Bool.not_eq_true, isComment_iff, trim_text h hl]
    exact hprefix
  have hne : l.text ≠ [] := by
    intro hnil
    have htrim := trim_text h hl
    rw [hnil, trim_nil, hcontent] at htrim
    cases htrim
  refine ⟨by simp [isCounted, hne, hcomment], by simp [hcontent], ?_, hprefix⟩
  rw [hcontent]
  exact fun hc => hslash (List.cons.inj hc).1

end Reading

/-! ### The three expressions that look for a colon -/

section Colon
variable {h t : Text}

theorem find_labelExpr_eq_none (hh : ':' ∉ h) (ht : ':' ∉ t)
    (hmark : ∀ c ∈ t.head?, isMark c = false) : find labelExpr (h ++ ':' :: ' ' :: t) = none := by
  cases hm : find labelExpr (h ++ ':' :: ' ' :: t) with
  | none => rfl
  | some m =>
    obtain ⟨-, -, s, rest, -, -, rfl, hs⟩ := @pieces_at_colon [(star isAlnum).capture]
      [(star isAlnum).capture] ⟨isMark, 1, some 1, false⟩ _ _ _ hh ht hm
    obtain ⟨c, s, rfl⟩ := List.exists_cons_of_ne_nil (List.ne_nil_of_length_pos hs.min)
    exact absurd (hs.cls c List.mem_cons_self) (Bool.eq_false_iff.mp (hmark c rfl))

theorem find_rawExpr_eq_none (hh : ':' ∉ h) (ht : ':' ∉ t)
    (hraw : ∀ c ∈ t.head?, isRawDigit c = false) : find rawExpr (h ++ ':' :: ' ' :: t) = none := by
  cases hm : find rawExpr (h ++ ':' :: ' ' :: t) with
  | none => rfl
  | some m =>
    obtain ⟨-, -, s, rest, -, -, rfl, hs⟩ := @pieces_at_colon [(star isBlank).capture, one 'd'] []
      (plus isRawDigit).capture _ _ _ hh ht hm
    obtain ⟨c, s, rfl⟩ := List.exists_cons_of_ne_nil (List.ne_nil_of_length_pos hs.min)
    exact absurd (hs.cls c List.mem_cons_self) (Bool.eq_false_iff.mp (hraw c rfl))

theorem find_addRefExpr_eq_none (hh : ':' ∉ h) (ht : ':' ∉ t) (hat : ∀ c ∈ h.getLast?, c ≠ '@') :
    find addRefExpr (h ++ ':' :: ' ' :: t) = none := by
  cases hm : find addRefExpr (h ++ ':' :: ' ' :: t) with
  | none => rfl
  | some m =>
    obtain ⟨pre, ss, -, -, rfl, hss, -, -⟩ := @pieces_at_colon [(star isBlank).capture, one '@'] []
      word _ _ _ hh ht hm
    obtain _ | ⟨-, hss⟩ := hss
    obtain _ | ⟨hone, hss⟩ := hss
    obtain _ | _ := hss
    next b d =>
    obtain rfl := fits_one hone
    refine absurd rfl (hat '@' ?_)
    simp

end Colon

section Content
variable {labels : LabelMap} {pc : BitVec 64}

theorem matchLabel_of_find {t : Text} (h : find labelExpr t = none) :
    matchLabel t = .error (.message "not a Label line".toList) := by
  rw [matchLabel, findStringSubmatch, h]
  rfl

/-- A word is no label. -/
theorem matchLabel_word {l : SourceLine} (h : l.IsFormed labels pc) (hl : l.isWord = true) :
    matchLabel l.content = .error (.message "not a Label line".toList) := by
  apply matchLabel_of_find
  cases l with
  | instruction k stmt =>
    exact find_eq_none_of_not_mem (c := ':') (by simp [labelExpr]) (Stmt.calm_text h.1).colon
  | data k value =>
    refine find_labelExpr_eq_none (h := ['d']) (by decide) (not_mem_of_class h.2 rfl) fun c hc => ?_
    have hraw := h.2 c (List.mem_of_mem_head? hc)
    rw [← Bool.not_eq_true]
    intro hmark
    obtain rfl | rfl : c = '@' ∨ c = '$' := by simpa [isMark] using hmark
    · cases hraw
    · cases hraw
  | ref k name =>
    refine find_labelExpr_eq_none (h := ['@']) (by decide) (not_mem_of_class name.isWord rfl)
      fun c hc => ?_
    have hword := name.isWord c (List.mem_of_mem_head? hc)
    rw [← Bool.not_eq_true]
    intro hmark
    obtain rfl | rfl : c = '@' ∨ c = '$' := by simpa [isMark] using hmark
    · cases hword
    · cases hword
  | _ => cases hl

section Label
variable {name : Name} {bytes : Bool} {addr : Option HexLiteral}
  (h : (SourceLine.label name bytes addr).IsFormed labels pc)
include h

theorem isAlnum_addr : ∀ c ∈ addr.elim [] HexLiteral.text, isAlnum c = true := by
  cases addr with
  | none => exact List.forall_mem_nil _
  | some n => exact n.isAlnum_text

theorem matchLabel_label :
    matchLabel (SourceLine.label name bytes addr).content =
      .ok (name.text, addr.elim [] HexLiteral.text) := by
  have hsplits : Splits labelExpr [name.text, [':'], [' '], [if bytes then '$' else '@'],
      addr.elim [] HexLiteral.text] [] :=
    ⟨⟨h.1, Nat.zero_le _, .inr ⟨rfl, stops_cons rfl⟩⟩, takes_one ':' _, takes_one ' ' _,
      ⟨by cases bytes <;> simp [isMark], Nat.le_refl 1, .inl rfl⟩,
      ⟨isAlnum_addr h, Nat.zero_le _, .inr ⟨rfl, stops_nil _⟩⟩, trivial⟩
  have hline : (SourceLine.label name bytes addr).content = List.flatten [name.text, [':'], [' '],
      [if bytes then '$' else '@'], addr.elim [] HexLiteral.text] ++ [] := by
    simp [content]
  have hfields := findStringSubmatch_of_splits hsplits hline
  rw [matchLabel, hfields]
  rfl

/-- A label is neither data nor a reference. -/
theorem find_label :
    find rawExpr (SourceLine.label name bytes addr).content = none ∧
      find addRefExpr (SourceLine.label name bytes addr).content = none := by
  have hname : ':' ∉ name.text := not_mem_of_class name.isWord rfl
  have haddr : ':' ∉ (if bytes then '$' else '@') :: addr.elim [] HexLiteral.text := by
    have hdigits : ':' ∉ addr.elim [] HexLiteral.text := not_mem_of_class (isAlnum_addr h) rfl
    cases bytes <;> simpa using hdigits
  constructor
  · refine find_rawExpr_eq_none hname haddr ?_
    rintro _ ⟨⟩
    cases bytes <;> rfl
  · refine find_addRefExpr_eq_none hname haddr fun c hc => ?_
    rintro rfl
    exact absurd (name.isWord _ (List.mem_of_getLast? hc)) (by decide)

end Label

/-! ### The first pass -/

theorem record_pc {s : FindLabels} (l : SourceLine) : (record s l).pc = l.next s.pc := by
  cases l <;> rfl

theorem stringHexToInt_literal {n : HexLiteral} (h : n.number < 2 ^ 63) :
    stringHexToInt n.text = .ok (BitVec.ofNat 64 n.number) := by
  rw [n.stringHexToInt_text h, BitVec.ofInt_natCast]

/-- The `pc`, or the address that the label has, as it is read and as it is written down. -/
theorem stringHexToInt_base {addr : Option HexLiteral}
    (h : addr.elim pc.toNat HexLiteral.number < 2 ^ 63) :
    stringHexToInt (addr.elim (uintToHexString pc false) HexLiteral.text) =
      .ok (place false addr pc) ∧ (place false addr pc).toNat < 2 ^ 63 := by
  cases addr with
  | none => exact ⟨(stringHexToInt_printed pc).trans (if_pos h), h⟩
  | some n =>
    refine ⟨stringHexToInt_literal h, Nat.lt_of_le_of_lt ?_ h⟩
    exact (BitVec.toNat_ofNat n.number 64).trans_le (Nat.mod_le _ _)

theorem stringHexToInt_entryText {bytes : Bool} {addr : Option HexLiteral}
    (h : addr.elim pc.toNat HexLiteral.number < 2 ^ 63) :
    stringHexToInt (entryText bytes addr pc) = .ok (place bytes addr pc) := by
  obtain ⟨hread, hlt⟩ := stringHexToInt_base h
  cases bytes with
  | false => cases addr <;> exact hread
  | true =>
    have hfourth : (place true addr pc).toNat < 2 ^ 63 := by
      show (BitVec.ofNat 64 ((place false addr pc).toNat / 4)).toNat < 2 ^ 63
      rw [BitVec.toNat_ofNat]
      omega
    have hprinted := stringHexToInt_printed (place true addr pc)
    rw [if_pos hfourth] at hprinted
    cases addr <;> exact hprinted

theorem labelAddr_label {name : Name} {bytes : Bool} {addr : Option HexLiteral}
    (h : (SourceLine.label name bytes addr).IsFormed labels pc) :
    labelAddr (SourceLine.label name bytes addr).text (addr.elim [] HexLiteral.text) pc =
      entryText bytes addr pc := by
  obtain ⟨hread, hlt⟩ := stringHexToInt_base h.2
  have hname : '$' ∉ name.text := not_mem_of_class name.isWord rfl
  have hdigits : '$' ∉ addr.elim [] HexLiteral.text := not_mem_of_class (isAlnum_addr h) rfl
  have hmark : contains "$".toList (SourceLine.label name bytes addr).text = bytes := by
    show contains ['$'] _ = _
    rw [contains_singleton]
    cases bytes <;> simp [SourceLine.text, SourceLine.indent, content, blanks, hname, hdigits]
  have hbase : (if addr.elim [] HexLiteral.text = [] then uintToHexString pc false
      else addr.elim [] HexLiteral.text) =
        addr.elim (uintToHexString pc false) HexLiteral.text := by
    cases addr with
    | none => rfl
    | some n => exact if_neg n.text_ne_nil
  unfold labelAddr
  rw [hmark, hbase]
  cases bytes with
  | false => cases addr <;> rfl
  | true =>
    have hentry : entryText true addr pc = uintToHexString (place true addr pc) false := by
      cases addr <;> rfl
    rw [if_pos rfl, byteAddrToWordAddrString, hread, hentry]
    simp only [sdiv_four hlt]
    rfl

/-- **The first pass** does with a line what the layout says. -/
theorem findLabel_text {s : FindLabels} {l : SourceLine} (h : l.IsFormed labels s.pc) :
    findLabel s l.text = .ok (record s l) := by
  have hnext : ∀ {l : SourceLine}, l.IsFormed labels s.pc → l.isWord = true →
      findLabel s l.text = .ok { s with pc := s.pc + 1 } := by
    intro l h hl
    have hnone : labelOf l.text = none := by
      rw [labelOf, ← matchLabel_trim, trim_text h (.inl hl), matchLabel_word h hl]
      split <;> rfl
    rw [findLabel_word hnone, counted, List.countP_singleton, if_pos (isCounted_text h (.inl hl)).1]
    rfl
  cases l with
  | blank => rfl
  | comment k t =>
    have hcomment : isComment (SourceLine.comment k t).text = true :=
      (isComment_iff _).mpr (slashes_trim k t)
    rw [findLabel, if_pos hcomment, ite_self]
    rfl
  | label name bytes addr =>
    have hlabel : labelOf (SourceLine.label name bytes addr).text =
        some (name.text, addr.elim [] HexLiteral.text) := by
      rw [labelOf_eq_some, ← matchLabel_trim, trim_text h (.inr rfl)]
      exact ⟨(isCounted_text h (.inr rfl)).1, matchLabel_label h⟩
    rw [findLabel_label hlabel, labelAddr_label h, stringHexToInt_entryText h.2]
    rfl
  | instruction k stmt => exact hnext h rfl
  | data k value => exact hnext h rfl
  | ref k name => exact hnext h rfl

theorem foldlM_findLabel {s : FindLabels} {src : List SourceLine} (h : Formed labels s.pc src) :
    (src.map SourceLine.text).foldlM findLabel s = .ok (src.foldl record s) := by
  induction src generalizing s with
  | nil => rfl
  | cons l src ih =>
    rw [List.map_cons, List.foldlM_cons, findLabel_text h.1, ok_bind, List.foldl_cons]
    exact ih (record_pc l ▸ h.2)

end Content

/-! ### The second pass -/

namespace SourceLine

def ltype : SourceLine → LineType
  | data _ _ => .data
  | ref _ _ => .addrRef
  | _ => .instruction

/-- The value that the second pass finds in the line. -/
def value (labels : LabelMap) : SourceLine → Text
  | data _ value => value
  | ref _ name => wordAddrToByteAddrString (labelValue labels name.text)
  | _ => []

end SourceLine

def machineLine (labels : LabelMap) (w : BitVec 64 × SourceLine) : MachineLine :=
  ⟨w.2.content, w.2.ltype, uintToHexString w.1 false, w.2.value labels⟩

section SecondPass
variable {labels : LabelMap} {pc : BitVec 64} {start stop : Text}

theorem sectionLine_skipped {l : SourceLine} (hword : l.isWord = false)
    (hname : l.labelName = none) : sectionLine labels start stop (trim l.text) = .ok .skip := by
  cases l with
  | blank => rfl
  | comment k t =>
    have hprefix := slashes_trim k t
    show sectionLine labels start stop (trim (blanks k ++ '/' :: '/' :: t)) = _
    have hlone : trim (blanks k ++ '/' :: '/' :: t) ≠ ['/'] := by
      intro heq
      rw [heq] at hprefix
      exact absurd hprefix.length_le (by decide)
    rw [sectionLine, if_neg hlone, if_pos hprefix, ite_self]
  | label name bytes addr => cases hname
  | _ => cases hword

/-- A word is gathered. -/
theorem sectionLine_word {l : SourceLine} (h : l.IsFormed labels pc) (hl : l.isWord = true) :
    sectionLine labels start stop (trim l.text) = .ok (.emit l.ltype (l.value labels)) := by
  obtain ⟨-, hlen, hlone, hprefix⟩ := isCounted_text h (.inl hl)
  rw [trim_text h (.inl hl)]
  cases l with
  | instruction k stmt => exact sectionLine_instruction (Stmt.calm_text h.1).colon (Stmt.starts h.1)
  | data k value =>
    have hsplits : Splits rawExpr [[], ['d'], [':'], [' '], value] [] :=
      ⟨⟨List.forall_mem_nil _, Nat.zero_le _, .inr ⟨rfl, stops_cons rfl⟩⟩, takes_one 'd' _,
        takes_one ':' _, takes_one ' ' _, takes_plus rfl rfl h.1 h.2 (stops_nil _), trivial⟩
    have hraw : matchRaw (SourceLine.data k value).content = some value := by
      rw [matchRaw, findStringSubmatch_of_splits hsplits (by simp [content])]
      rfl
    rw [sectionLine, if_neg hlen, if_neg hlone, if_neg hprefix, hraw]
    rfl
  | ref k name =>
    obtain ⟨v, hv⟩ := h
    have hlookup : labels.lookup name.text = some (labelValue labels name.text) := by
      unfold address at hv
      unfold labelValue
      cases hl : labels.lookup name.text with
      | none =>
        rw [hl] at hv
        cases hv
      | some addr => rfl
    have hremark : "@: ".toList ++ (name.text ++ Remark.nothing.text) =
        (SourceLine.ref k name).content := by
      rw [show Remark.nothing.text = [] from rfl, List.append_nil]
      rfl
    obtain ⟨whole, hfields⟩ := fields_data name .nothing
    have hnone := findStringSubmatch_data name .nothing
    rw [hremark] at hfields hnone
    have hraw : matchRaw (SourceLine.ref k name).content = none := by
      rw [matchRaw, hnone]
      rfl
    have href : matchAddrRef (SourceLine.ref k name).content labels =
        .ok (some (labelValue labels name.text)) := by
      simp [matchAddrRef, hfields, hlookup]
    rw [sectionLine, if_neg hlen, if_neg hlone, if_neg hprefix, hraw, href]
    rfl
  | _ => cases hl

theorem sectionLine_label {name : Name} {bytes : Bool} {addr : Option HexLiteral}
    (h : (SourceLine.label name bytes addr).IsFormed labels pc) :
    sectionLine labels start stop (trim (SourceLine.label name bytes addr).text) =
      if name.text = start then .ok .skip
      else if name.text = stop then .ok .finish
      else .ok (.emit .instruction []) := by
  obtain ⟨-, hlen, hlone, hprefix⟩ := isCounted_text h (.inr rfl)
  obtain ⟨hraw, href⟩ := find_label h
  have hraw' : matchRaw (SourceLine.label name bytes addr).content = none := by
    rw [matchRaw, findStringSubmatch, hraw]
    rfl
  have href' : matchAddrRef (SourceLine.label name bytes addr).content labels = .ok none := by
    rw [matchAddrRef, findStringSubmatch, href]
    rfl
  rw [trim_text h (.inr rfl), sectionLine, if_neg hlen, if_neg hlone, if_neg hprefix, hraw', href']
  simp only [matchLabel_label h, ne_eq, name.ne_nil, not_false_eq_true, true_and]

/-- The sections that follow a section. -/
def laterSections (labels : LabelMap) : List Text → List Text → Except Error (List Section)
  | [], _ => .ok []
  | name :: names, lines => sections labels (name :: names) lines

theorem sections_cons (start : Text) (names lines : List Text) :
    sections labels (start :: names) lines = (do
      let (sect, left) ← processSection labels start (names.headD []) lines
      let sects ← laterSections labels names left
      .ok (sect :: sects)) := by
  cases names <;> rfl

/-- A word of the layout, or none. -/
theorem layout_cons (l : SourceLine) (ls : List SourceLine) :
    (layout pc (l :: ls)).map (machineLine labels) =
      (if l.isWord then [machineLine labels (pc, l)] else []) ++
        (layout (l.next pc) ls).map (machineLine labels) := by
  rw [layout, List.map_append]
  cases l.isWord <;> rfl

/-- **The second pass** gathers the words of the layout, from anywhere in the section of `start` on.
The induction is on the lines; a label ends the section and begins the next one. -/
theorem scan_source {ls : List SourceLine} (hform : Formed labels pc ls)
    (hstart : start ∉ (places pc ls).map Prod.fst) (hnodup : ((places pc ls).map Prod.fst).Nodup)
    (hplaces : ∀ p ∈ places pc ls, address labels p.1 = .ok p.2) :
    ∃ out left sects,
      scanSection labels start (((places pc ls).map Prod.fst).headD []) pc
        (ls.map SourceLine.text) = .ok (out, left) ∧
      laterSections labels ((places pc ls).map Prod.fst) left = .ok sects ∧
      out ++ sects.flatMap Section.lines = (layout pc ls).map (machineLine labels) := by
  induction ls generalizing pc start with
  | nil => exact ⟨[], [], [], rfl, rfl, rfl⟩
  | cons l ls ih =>
    obtain ⟨hl, hform⟩ := hform
    cases hname : l.labelName with
    | none =>
      have hsame : places pc (l :: ls) = places (l.next pc) ls := by
        rw [places, hname]
        rfl
      rw [hsame] at hstart hnodup hplaces ⊢
      obtain ⟨out, left, sects, hscan, hlater, hout⟩ := ih hform hstart hnodup hplaces
      cases hword : l.isWord with
      | false =>
        have hnext : l.next pc = pc := by
          cases l with
          | blank => rfl
          | comment k t => rfl
          | label name bytes addr => cases hname
          | _ => cases hword
        rw [hnext] at hscan hlater hout
        refine ⟨out, left, sects, ?_, by rw [hnext]; exact hlater, ?_⟩
        · rw [List.map_cons, scanSection, sectionLine_skipped hword hname, ok_bind, hnext]
          exact hscan
        · rw [layout_cons, hword, hnext]
          exact hout
      | true =>
        have hnext : l.next pc = pc + 1 := by
          cases l with
          | instruction k stmt => rfl
          | data k value => rfl
          | ref k name => rfl
          | _ => cases hword
        refine ⟨machineLine labels (pc, l) :: out, left, sects, ?_, hlater, ?_⟩
        · rw [List.map_cons, scanSection, sectionLine_word hl hword, ok_bind]
          rw [hnext] at hscan ⊢
          show (scanSection labels start _ (pc + 1) (ls.map SourceLine.text) >>= _) = _
          rw [hscan, ok_bind, trim_text hl (.inl hword)]
          rfl
        · rw [layout_cons, hword, if_pos rfl, List.cons_append, hout]
          rfl
    | some label =>
      cases l with
      | label name bytes addr =>
        have hsame : places pc (.label name bytes addr :: ls) =
            (name.text, place bytes addr pc) :: places (place bytes addr pc) ls := rfl
        rw [hsame, List.map_cons] at hstart hnodup
        rw [hsame] at hplaces ⊢
        obtain ⟨hne, -⟩ := not_or.mp (mt List.mem_cons.mpr hstart)
        obtain ⟨hfresh, hnodup⟩ := List.nodup_cons.mp hnodup
        obtain ⟨haddr, hplaces⟩ := List.forall_mem_cons.mp hplaces
        obtain ⟨out, left, sects, hscan, hlater, hout⟩ := ih hform hfresh hnodup hplaces
        refine ⟨[], ls.map SourceLine.text, ⟨name.text, out⟩ :: sects, ?_, ?_, ?_⟩
        · show scanSection labels start name.text pc
              (SourceLine.text _ :: ls.map SourceLine.text) = _
          rw [scanSection, sectionLine_label hl, if_neg (Ne.symm hne), if_pos rfl]
          rfl
        · have hsect : processSection labels name.text
              (((places (place bytes addr pc) ls).map Prod.fst).headD []) (ls.map SourceLine.text) =
                .ok (⟨name.text, out⟩, left) := by
            rw [processSection, haddr, ok_bind]
            show (scanSection labels name.text _ (place bytes addr pc) _ >>= _) = _
            rw [show place bytes addr pc = (SourceLine.label name bytes addr).next pc
              from rfl, hscan]
            rfl
          show sections labels (name.text :: (places (place bytes addr pc) ls).map Prod.fst) _ = _
          rw [sections_cons, hsect]
          show (laterSections labels _ left >>= _) = _
          rw [show place bytes addr pc = (SourceLine.label name bytes addr).next pc
            from rfl, hlater]
          rfl
        · rw [layout_cons]
          exact hout
      | _ => cases hname

end SecondPass

/-! ## What the assembler makes of a program -/

section Found
variable {labels : LabelMap} {s : FindLabels} {src : List SourceLine}

theorem labelNames_record :
    (src.foldl record s).labelNames = s.labelNames ++ (places s.pc src).map Prod.fst := by
  induction src generalizing s with
  | nil => exact (List.append_nil _).symm
  | cons l src ih =>
    rw [List.foldl_cons, ih]
    cases l with
    | label name bytes addr =>
      show s.labelNames ++ [name.text] ++ _ = s.labelNames ++ name.text :: _
      rw [List.append_assoc, List.singleton_append]
      rfl
    | _ => rfl

theorem lookup_record {name : Text} (h : name ∉ (places s.pc src).map Prod.fst) :
    (src.foldl record s).labels.lookup name = s.labels.lookup name := by
  induction src generalizing s with
  | nil => rfl
  | cons l src ih =>
    rw [List.foldl_cons]
    cases l with
    | label name' bytes addr =>
      obtain ⟨hne, hrest⟩ := not_or.mp (mt List.mem_cons.mpr h)
      rw [ih (s := record s (.label name' bytes addr)) hrest]
      show ((name'.text, _) :: s.labels).lookup name = _
      rw [List.lookup_cons, beq_eq_false_iff_ne.mpr hne]
    | _ => exact ih h

/-- Every label gets its address. -/
theorem address_record (hform : Formed labels s.pc src)
    (hnodup : ((places s.pc src).map Prod.fst).Nodup) :
    ∀ p ∈ places s.pc src, address (src.foldl record s).labels p.1 = .ok p.2 := by
  induction src generalizing s with
  | nil => exact List.forall_mem_nil _
  | cons l src ih =>
    obtain ⟨hl, hform⟩ := hform
    rw [← record_pc] at hform
    rw [List.foldl_cons]
    cases l with
    | label name bytes addr =>
      obtain ⟨hfresh, hnodup⟩ := List.nodup_cons.mp hnodup
      refine List.forall_mem_cons.mpr ⟨?_, ih hform hnodup⟩
      rw [address, lookup_record hfresh]
      show stringHexToInt ((((name.text, _) :: s.labels).lookup name.text).getD []) = _
      rw [List.lookup_cons_self]
      exact stringHexToInt_entryText hl.2
    | _ => exact ih hform hnodup

end Found

/-- The address and the word of the RAM file that a word of the layout asks for. -/
def HasWord (labels : LabelMap) (p : BitVec 64 × SourceLine) (w : Text × Text) : Prop :=
  w.1 = uintToHexString p.1 false ∧
    match p.2 with
    | .instruction _ stmt =>
      ∃ x, IsCode w.2 ∧ readWord w.2 = some x ∧ Rv32i.decode x = some (stmt.instr labels p.1)
    | .data _ v => w.2 = v
    | .ref _ name => ∃ v, address labels name.text = .ok v ∧ w.2 = uintToHexString (v * 4) false
    | _ => False

theorem exists_mapM {α β : Type} {f : α → Except Error β} {R : α → β → Prop} {xs : List α}
    (h : ∀ x ∈ xs, ∃ y, f x = .ok y ∧ R x y) : ∃ ys, xs.mapM f = .ok ys ∧ List.Forall₂ R xs ys := by
  induction xs with
  | nil => exact ⟨[], rfl, .nil⟩
  | cons x xs ih =>
    obtain ⟨⟨y, hy, hR⟩, h⟩ := List.forall_mem_cons.mp h
    obtain ⟨ys, hys, hRs⟩ := ih h
    refine ⟨y :: ys, ?_, .cons hR hRs⟩
    rw [List.mapM_cons, hy, ok_bind, hys]
    rfl

section Words
variable {labels : LabelMap} {pc : BitVec 64} {src : List SourceLine}

theorem formed_of_mem (h : Formed labels pc src) :
    ∀ w ∈ layout pc src, w.2.IsFormed labels w.1 ∧ w.2.isWord = true := by
  induction src generalizing pc with
  | nil => exact List.forall_mem_nil _
  | cons l src ih =>
    rw [layout]
    intro w hw
    rcases List.mem_append.mp hw with hw | hw
    · split at hw
      · next hword =>
        obtain rfl := List.mem_singleton.mp hw
        exact ⟨h.1, hword⟩
      · cases hw
    · exact ih h.2 w hw

theorem assemble_word (hlabels : Addresses labels) {w : BitVec 64 × SourceLine}
    (h : w.2.IsFormed labels w.1 ∧ w.2.isWord = true) :
    ∃ c, assemble labels (machineLine labels w) = .ok c ∧ HasWord labels w (ramWord c) := by
  obtain ⟨pc, l⟩ := w
  obtain ⟨h, hword⟩ := h
  cases l with
  | instruction k stmt =>
    obtain ⟨c, x, hassemble, hw, hcode, hread, hdecode⟩ := Stmt.coded hlabels h.1
    refine ⟨c, hassemble, ?_⟩
    rw [hw]
    exact ⟨rfl, x, hcode, hread, hdecode⟩
  | data k v => exact ⟨_, rfl, rfl, rfl⟩
  | ref k name =>
    obtain ⟨v, hv⟩ := h
    refine ⟨_, rfl, rfl, v, hv, ?_⟩
    show wordAddrToByteAddrString (labelValue labels name.text) = _
    have hread : stringHexToInt (labelValue labels name.text) = .ok v := hv
    rw [wordAddrToByteAddrString, hread]
  | _ => cases hword

end Words

section Header
variable {labels : LabelMap} {pc : BitVec 64} {start stop : Text} {header body : List SourceLine}
  (h : ∀ l ∈ header, l.isWord = false ∧ l.labelName = none)
include h

theorem next_header {l : SourceLine} (hl : l ∈ header) : l.next pc = pc := by
  obtain ⟨hword, hname⟩ := h l hl
  cases l with
  | blank => rfl
  | comment k t => rfl
  | label name bytes addr => cases hname
  | _ => cases hword

theorem places_header : places pc (header ++ body) = places pc body ∧
    layout pc (header ++ body) = layout pc body := by
  induction header with
  | nil => exact ⟨rfl, rfl⟩
  | cons l header ih =>
    obtain ⟨⟨hword, hname⟩, hrest⟩ := List.forall_mem_cons.mp h
    have hnext : l.next pc = pc := next_header h List.mem_cons_self
    rw [List.cons_append, places, layout, hname, hword, hnext]
    exact ih hrest

theorem formed_header (hform : Formed labels pc (header ++ body)) : Formed labels pc body := by
  induction header with
  | nil => exact hform
  | cons l header ih =>
    have hnext : l.next pc = pc := next_header h List.mem_cons_self
    exact ih (List.forall_mem_cons.mp h).2 (hnext ▸ hform.2)

theorem scanSection_header (lines : List Text) :
    scanSection labels start stop pc (header.map SourceLine.text ++ lines) =
      scanSection labels start stop pc lines := by
  induction header with
  | nil => rfl
  | cons l header ih =>
    obtain ⟨⟨hword, hname⟩, hrest⟩ := List.forall_mem_cons.mp h
    rw [List.map_cons, List.cons_append, scanSection, sectionLine_skipped hword hname, ok_bind]
    exact ih hrest

end Header

/-- **The sections of a program** are its words, at the addresses of the layout. -/
theorem sections_source {src : List SourceLine} (h : IsProgram src) :
    ∃ sects, sections (found src).labels (found src).labelNames
      (src.map SourceLine.text) = .ok sects ∧
      sects.flatMap Section.lines = (layout 0 src).map (machineLine (found src).labels) := by
  obtain ⟨hform, hnodup, header, body, hsrc, hheader, name, bytes, addr, rest, rfl⟩ := h
  have hplaces : ∀ p ∈ places 0 src, address (found src).labels p.1 = .ok p.2 :=
    address_record (s := ⟨0, [], []⟩) hform hnodup
  have hnames : (found src).labelNames = (places 0 src).map Prod.fst :=
    labelNames_record (s := ⟨0, [], []⟩)
  generalize (found src).labels = labels at hform hplaces ⊢
  rw [hnames]
  obtain ⟨hsame, hlayout⟩ := @places_header 0 header (.label name bytes addr :: rest) hheader
  have hcons : places 0 src = (name.text, place bytes addr 0) ::
      places (place bytes addr 0) rest := by
    rw [hsrc, hsame]
    rfl
  obtain ⟨hl, hform⟩ := formed_header hheader (hsrc ▸ hform)
  rw [hcons] at hnodup hplaces ⊢
  obtain ⟨hfresh, hnodup⟩ := List.nodup_cons.mp hnodup
  obtain ⟨haddr, hplaces⟩ := List.forall_mem_cons.mp hplaces
  obtain ⟨out, left, sects, hscan, hlater, hout⟩ := scan_source hform hfresh hnodup hplaces
  have hsect : processSection labels name.text
      (((places (place bytes addr 0) rest).map Prod.fst).headD []) (src.map SourceLine.text) =
        .ok (⟨name.text, out⟩, left) := by
    rw [processSection, haddr, ok_bind, hsrc, List.map_append]
    show (scanSection labels name.text _ (place bytes addr 0) _ >>= _) = _
    rw [scanSection_header hheader, List.map_cons, scanSection, sectionLine_label hl, if_pos rfl,
      ok_bind]
    show (scanSection labels name.text _ (place bytes addr 0) _ >>= _) = _
    rw [show place bytes addr 0 = (SourceLine.label name bytes addr).next 0 from rfl, hscan]
    rfl
  refine ⟨⟨name.text, out⟩ :: sects, ?_, ?_⟩
  · show sections labels (name.text :: (places (place bytes addr 0) rest).map Prod.fst) _ = _
    rw [sections_cons, hsect]
    show (laterSections labels _ left >>= _) = _
    rw [show place bytes addr 0 = (SourceLine.label name bytes addr).next 0 from rfl, hlater]
    rfl
  · rw [hsrc, hlayout, layout_cons]
    exact hout

/-- **A program is assembled**: a file from which the scanner gets its lines is accepted, every
label gets its address, and the RAM file has the words of the layout in their order, each at its
address. -/
theorem assembles_source {src : List SourceLine} {file : List Text} (h : IsProgram src)
    (hfile : scan file = src.map SourceLine.text) :
    ∃ a, assembleFile file = .ok a ∧
      (∀ p ∈ places 0 src, address a.found.labels p.1 = .ok p.2) ∧
      (∀ pc k stmt, (pc, .instruction k stmt) ∈ layout 0 src → a.At pc stmt) ∧
      List.Forall₂ (HasWord a.found.labels) (layout 0 src) a.ramFile := by
  have hfound : findLabels (src.map SourceLine.text) = .ok (found src) :=
    foldlM_findLabel (s := ⟨0, [], []⟩) h.formed
  obtain ⟨sects, hsects, hlines⟩ := sections_source h
  obtain ⟨coded, hcoded, hencodes⟩ := exists_mapM fun w hw =>
    assemble_word (addresses_findLabels hfound) (formed_of_mem h.formed w hw)
  refine ⟨⟨found src, sects, coded⟩, ?_, address_record (s := ⟨0, [], []⟩) h.formed h.nodup, ?_, ?_⟩
  · rw [assembleFile, hfile, assembleLines, hfound, ok_bind, hsects, ok_bind, hlines, List.mapM_map]
    show ((layout 0 src).mapM (fun w => assemble (found src).labels (machineLine _ w)) >>= _) = _
    rw [hcoded]
    rfl
  · intro pc k stmt hmem
    show (⟨stmt.text, .instruction, uintToHexString pc false, []⟩ : MachineLine) ∈
      sects.flatMap Section.lines
    rw [hlines]
    exact List.mem_map_of_mem (f := machineLine (found src).labels) hmem
  · rw [Assembly.ramFile, List.forall₂_map_right_iff]
    exact hencodes

end RangerRisc.Assembler

namespace RangerRisc

open Assembler

namespace Count

/-- The program that counts, line by line. -/
def source : List SourceLine := [
  .label main false (some ⟨false, "0".toList, 0, by decide⟩), .instruction 2 add,
  .instruction 2 save,
  .instruction 2 again, .label data false (some ⟨false, "10".toList, 16, by decide⟩),
  .data 2 "0000002A".toList]

example : source.map SourceLine.text = lines := by decide +kernel

theorem last_of_all {t : Text} (h : (t.getLast?.all fun c => !isBlank c) = true) :
    ∀ c ∈ t.getLast?, isBlank c = false := by
  intro c hc
  rw [Option.mem_def.mp hc, Option.all_some, Bool.not_eq_true'] at h
  exact h

theorem isProgram : IsProgram source where
  formed := ⟨⟨List.all_eq_true.mp (by decide), by decide⟩,
    ⟨add_inRange, last_of_all (by decide +kernel)⟩, ⟨save_inRange, last_of_all (by decide +kernel)⟩,
    ⟨again_inRange, last_of_all (by decide +kernel)⟩,
    ⟨List.all_eq_true.mp (by decide), by decide⟩,
    ⟨by decide, List.all_eq_true.mp (by decide)⟩, trivial⟩
  nodup := by decide
  first := ⟨[], source, rfl, List.forall_mem_nil _, _, _, _, _, rfl⟩

end Count

/-- The program that counts is assembled. -/
theorem assembles_source_count :
    ∃ a, assembleFile Count.lines = .ok a ∧
      (∀ p ∈ places 0 Count.source, address a.found.labels p.1 = .ok p.2) ∧
      (∀ pc k stmt, (pc, .instruction k stmt) ∈ layout 0 Count.source → a.At pc stmt) ∧
      List.Forall₂ (HasWord a.found.labels) (layout 0 Count.source) a.ramFile :=
  assembles_source Count.isProgram (by decide +kernel)

end RangerRisc
