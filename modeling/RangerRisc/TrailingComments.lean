import RangerRisc.LabelAddresses
import RangerRisc.Lib.TwoRuns

/-! A line with a comment behind it. Nothing takes a comment off a line: both passes and every
encoder look for their expressions in the whole of it, and it is put into the context as it is. -/

namespace RangerRisc.Assembler

open Numeral Regexp TwoRuns

/-- What is appended, from the slashes on. -/
def note (c : Text) : Text := '/' :: '/' :: ' ' :: c

def commented (line c : Text) : Text := line ++ " // ".toList ++ c

/-- An expression is found in front of the comment, or not in it. -/
def Keeps (p : Pattern) (s c : Text) : Prop := find p s ≠ none ∨ find p (note c) = none

/-! ## Expressions -/

/-- A match is not empty, does not end with spaces and has no slash. -/
def isBounded (p : Pattern) : Bool := spaced p && required p && p.all fun it => !it.cls '/'

section Find
variable {p : Pattern} {s c : Text}

theorem stops_of_isBounded (hp : isBounded p = true) (r : Text) :
    ∀ it ∈ p, Stops it.cls ('/' :: r) := by
  obtain ⟨-, hall⟩ := Bool.and_eq_true_iff.mp hp
  intro it hit
  exact stops_cons (by simpa using List.all_eq_true.mp hall it hit)

theorem find_slashes (hp : isBounded p = true) (j : ℕ) (s r : Text) :
    find p (s ++ (blanks j ++ '/' :: r)) = (find p s).or (find p ('/' :: r)) := by
  obtain ⟨hboth, -⟩ := Bool.and_eq_true_iff.mp hp
  obtain ⟨hspaced, hreq⟩ := Bool.and_eq_true_iff.mp hboth
  exact find_append_blanks hspaced hreq (stops_of_isBounded hp r) j s

theorem find_blanks (hp : isBounded p = true) (j : ℕ) (s : Text) :
    find p (s ++ blanks j) = find p s := by
  obtain ⟨hboth, -⟩ := Bool.and_eq_true_iff.mp hp
  obtain ⟨hspaced, hreq⟩ := Bool.and_eq_true_iff.mp hboth
  have hnil : find p [] = none := matchAt_blanks hspaced hreq (fun _ _ => stops_nil _) 0
  have hend := find_append_blanks hspaced hreq (fun _ _ => stops_nil _) j s
  rw [List.append_nil, hnil, Option.or_none] at hend
  exact hend

theorem commented_eq (line c : Text) : commented line c = line ++ (blanks 1 ++ note c) := by
  simp [commented, note, blanks]

theorem find_commented (hp : isBounded p = true) (h : Keeps p s c) :
    find p (commented s c) = find p s := by
  rw [commented_eq, note, find_slashes hp]
  rcases h with hs | hc
  · obtain ⟨m, hm⟩ := Option.ne_none_iff_exists'.mp hs
    rw [hm]
    rfl
  · rw [← note, hc, Option.or_none]

end Find

/-! ## Trimmed lines -/

theorem eq_blanks {b : Text} (h : ∀ c ∈ b, isBlank c = true) : b = blanks b.length :=
  List.eq_replicate_of_mem fun c hc => by simpa [isBlank] using h c hc

/-- The text between the spaces. -/
theorem trim_eq {b t b' : Text} (hb : ∀ c ∈ b, isBlank c = true) (hb' : ∀ c ∈ b', isBlank c = true)
    (hfirst : ∀ c ∈ t.head?, isBlank c = false) (hlast : ∀ c ∈ t.getLast?, isBlank c = false)
    (hne : t ≠ []) : trim (b ++ (t ++ b')) = t := by
  obtain ⟨d, s, rfl⟩ := List.exists_cons_of_ne_nil hne
  have hstop : Stops isBlank (d :: s ++ b') := stops_cons (hfirst d rfl)
  have hend : Stops isBlank (d :: s).reverse := by
    intro c hc
    rw [List.head?_reverse] at hc
    exact hlast c hc
  rw [trim, dropWhile_append_stops hb hstop, List.rdropWhile, List.reverse_append,
    dropWhile_append_stops (fun c hc => hb' c (List.mem_reverse.mp hc)) hend, List.reverse_reverse]

/-- The comment without the spaces at its end. -/
theorem exists_note (c : Text) :
    ∃ d j, note c = '/' :: '/' :: d ++ blanks j ∧
      ∀ x ∈ ('/' :: '/' :: d).getLast?, isBlank x = false := by
  have hsplit := @List.rdropWhile_append_rtakeWhile _ isBlank (note c)
  have hblank : ∀ x ∈ (note c).rtakeWhile isBlank, isBlank x = true :=
    fun x hx => List.mem_rtakeWhile_imp hx
  have hslash : '/' ∉ (note c).rtakeWhile isBlank := fun h => absurd (hblank _ h) (by decide)
  have hlast : ∀ x ∈ ((note c).rdropWhile isBlank).getLast?, isBlank x = false := by
    intro x hx
    have hne : (note c).rdropWhile isBlank ≠ [] := by
      intro hnil
      rw [hnil] at hx
      cases hx
    have hnot := List.rdropWhile_last_not isBlank (note c) hne
    rw [List.getLast?_eq_some_getLast hne] at hx
    obtain rfl := Option.some.inj hx
    simpa using hnot
  generalize (note c).rdropWhile isBlank = d, (note c).rtakeWhile isBlank = e at *
  cases d with
  | nil =>
    rw [List.nil_append] at hsplit
    exact absurd (hsplit ▸ List.mem_cons_self) hslash
  | cons x d =>
    have hfirst : x :: (d ++ e) = '/' :: '/' :: ' ' :: c := hsplit
    obtain ⟨rfl, hrest⟩ := List.cons.inj hfirst
    cases d with
    | nil =>
      rw [List.nil_append] at hrest
      exact absurd (hrest ▸ List.mem_cons_self) hslash
    | cons y d =>
      have hsecond : y :: (d ++ e) = '/' :: ' ' :: c := hrest
      obtain ⟨hy, htail⟩ := List.cons.inj hsecond
      rw [hy] at hlast
      refine ⟨d, e.length, ?_, hlast⟩
      rw [← eq_blanks hblank, note, ← htail]
      rfl

section Trim
variable {line c : Text}

theorem trim_ne_nil (hskip : isSkipped line = false) : trim line ≠ [] := by
  intro hnil
  simp [isSkipped, hnil] at hskip

/-- **The comment stays behind the trimmed line**, without the spaces at its end. -/
theorem exists_trim_commented (hskip : isSkipped line = false) (c : Text) :
    ∃ k d j, trim (commented line c) = trim line ++ (blanks (k + 1) ++ '/' :: '/' :: d) ∧
      note c = '/' :: '/' :: d ++ blanks j := by
  obtain ⟨b, b', hline, hb, hb', hstop⟩ := exists_trim line
  obtain ⟨d, j, hnote, hlast⟩ := exists_note c
  have hne := trim_ne_nil hskip
  have hfirst : ∀ x ∈ (trim line ++ (b' ++ ' ' :: '/' :: '/' :: d)).head?, isBlank x = false := by
    obtain ⟨x, t, ht⟩ := List.exists_cons_of_ne_nil hne
    rw [ht] at hstop ⊢
    exact hstop
  have htext : commented line c =
      b ++ ((trim line ++ (b' ++ ' ' :: '/' :: '/' :: d)) ++ blanks j) := by
    rw [commented_eq, hnote]
    conv_lhs => rw [hline]
    simp [blanks]
  have htrim : trim (commented line c) = trim line ++ (b' ++ ' ' :: '/' :: '/' :: d) := by
    rw [htext]
    refine trim_eq hb (isBlank_blanks j) hfirst ?_ (List.append_ne_nil_of_left_ne_nil hne _)
    have hassoc : trim line ++ (b' ++ ' ' :: '/' :: '/' :: d) =
        (trim line ++ b' ++ [' ']) ++ '/' :: '/' :: d := by simp
    rw [hassoc, List.getLast?_append_of_ne_nil _ (List.cons_ne_nil _ _)]
    exact hlast
  refine ⟨b'.length, d, j, ?_, hnote⟩
  rw [htrim, eq_blanks hb']
  simp [blanks, List.replicate_succ']

theorem find_trim_commented {p : Pattern} (hp : isBounded p = true) (hskip : isSkipped line = false)
    (h : Keeps p (trim line) c) : find p (trim (commented line c)) = find p (trim line) := by
  obtain ⟨k, d, j, htrim, hnote⟩ := exists_trim_commented hskip c
  rw [htrim, find_slashes hp]
  rcases h with hs | hc
  · obtain ⟨m, hm⟩ := Option.ne_none_iff_exists'.mp hs
    rw [hm]
    rfl
  · rw [hnote, find_blanks hp] at hc
    rw [hc, Option.or_none]

theorem fields_trim_commented {p : Pattern} (hp : isBounded p = true)
    (hskip : isSkipped line = false) (h : Keeps p (trim line) c) :
    findStringSubmatch p (trim (commented line c)) = findStringSubmatch p (trim line) := by
  rw [findStringSubmatch, findStringSubmatch, find_trim_commented hp hskip h]

/-- A comment does not turn a line into one. -/
theorem not_isComment_commented (hskip : isSkipped line = false) :
    ¬ ['/', '/'] <+: trim (commented line c) := by
  obtain ⟨k, d, j, htrim, -⟩ := exists_trim_commented hskip c
  have hno : ¬ ['/', '/'] <+: trim line := fun h => by simp [isSkipped, h] at hskip
  have hne := trim_ne_nil hskip
  rw [htrim]
  generalize trim line = t at hno hne
  intro h
  cases t with
  | nil => exact hne rfl
  | cons x t =>
    obtain ⟨hx, hrest⟩ := List.cons_prefix_cons.mp h
    cases t with
    | nil => exact absurd (List.cons_prefix_cons.mp hrest).1 (by decide)
    | cons y t =>
      have hy := (List.cons_prefix_cons.mp hrest).1
      exact hno (List.cons_prefix_cons.mpr ⟨hx, List.cons_prefix_cons.mpr ⟨hy, List.nil_prefix⟩⟩)

theorem plain_trim_commented (hskip : isSkipped line = false) (hline : Plain (trim line))
    (hc : Plain c) : Plain (trim (commented line c)) := by
  obtain ⟨k, d, j, htrim, hnote⟩ := exists_trim_commented hskip c
  have hplain : Plain (note c) :=
    List.forall_mem_cons.mpr ⟨rfl,
      List.forall_mem_cons.mpr ⟨rfl, List.forall_mem_cons.mpr ⟨rfl, hc⟩⟩⟩
  rw [hnote] at hplain
  rw [htrim]
  exact plain_append hline (plain_append (calm_blanks _).plain
    fun x hx => hplain x (List.mem_append_left _ hx))

end Trim

/-! ## First pass -/

section FirstPass
variable {line c : Text}

theorem matchLabel_commented (h : Keeps labelExpr line c) :
    matchLabel (commented line c) = matchLabel line := by
  rw [matchLabel, matchLabel, findStringSubmatch, findStringSubmatch,
    find_commented (by decide) h]

theorem findLabel_commented (hskip : isSkipped line = false) (hlabel : Keeps labelExpr line c)
    (hdollar : find labelExpr line ≠ none → '$' ∈ line ∨ '$' ∉ c) (s : FindLabels) :
    findLabel s (commented line c) = findLabel s line := by
  have hline : line ≠ [] := by
    rintro rfl
    exact trim_ne_nil hskip trim_nil
  have hcomment : isComment line = false := by
    rw [← Bool.not_eq_true, isComment_iff]
    exact fun h => by simp [isSkipped, h] at hskip
  have hcomment' : isComment (commented line c) = false := by
    rw [← Bool.not_eq_true, isComment_iff]
    exact not_isComment_commented hskip
  have hne : commented line c ≠ [] :=
    List.append_ne_nil_of_left_ne_nil (List.append_ne_nil_of_left_ne_nil hline _) _
  have haddr : ∀ l addr, matchLabel line = .ok (l, addr) →
      labelAddr (commented line c) addr s.pc = labelAddr line addr s.pc := by
    intro l addr hmatch
    have hfind : find labelExpr line ≠ none := by
      intro hnone
      rw [matchLabel, findStringSubmatch, hnone] at hmatch
      cases hmatch
    have hcontains : contains "$".toList (commented line c) = contains "$".toList line := by
      have hsingle : "$".toList = ['$'] := by decide
      rw [hsingle, contains_singleton, contains_singleton]
      rcases hdollar hfind with h | h <;> simp [commented, h]
    rw [labelAddr, labelAddr, hcontains]
  simp only [findLabel, List.length_eq_zero_iff, hne, hline, if_false, hcomment, hcomment',
    Bool.false_eq_true, matchLabel_commented hlabel]
  cases hm : matchLabel line with
  | error e => rfl
  | ok l => simp only [haddr l.1 l.2 hm]

end FirstPass

/-! ## Second pass -/

section SecondPass
variable {line c : Text} {labels : LabelMap}

theorem sectionLine_commented (hskip : isSkipped line = false) (hslash : trim line ≠ ['/'])
    (hlabel : Keeps labelExpr line c) (hdata : Keeps rawExpr (trim line) c)
    (href : find rawExpr (trim line) = none → Keeps addRefExpr (trim line) c) (start stop : Text) :
    sectionLine labels start stop (trim (commented line c)) =
      sectionLine labels start stop (trim line) := by
  have hne := trim_ne_nil hskip
  have hcomment : ¬ ['/', '/'] <+: trim line := fun h => by simp [isSkipped, h] at hskip
  have hcomment' := @not_isComment_commented line c hskip
  obtain ⟨k, d, j, htrim, -⟩ := exists_trim_commented hskip c
  have hne' : trim (commented line c) ≠ [] := by
    rw [htrim]
    exact List.append_ne_nil_of_left_ne_nil hne _
  have hslash' : trim (commented line c) ≠ ['/'] := by
    rw [htrim]
    intro h
    have hlength := congrArg List.length h
    simp at hlength
    omega
  have hraw : matchRaw (trim (commented line c)) = matchRaw (trim line) := by
    rw [matchRaw, matchRaw, fields_trim_commented (by decide) hskip hdata]
  have hmatch : matchLabel (trim (commented line c)) = matchLabel (trim line) := by
    rw [matchLabel_trim, matchLabel_trim, matchLabel_commented hlabel]
  simp only [sectionLine, List.length_eq_zero_iff, hne, hne', hslash, hslash', hcomment, hcomment',
    if_false, hraw, hmatch]
  cases hr : matchRaw (trim line) with
  | some v => rfl
  | none =>
    have hnone : find rawExpr (trim line) = none := by
      cases hf : find rawExpr (trim line) with
      | none => rfl
      | some m =>
        rw [matchRaw, findStringSubmatch, hf] at hr
        simp at hr
    have hrefs : matchAddrRef (trim (commented line c)) labels =
        matchAddrRef (trim line) labels := by
      rw [matchAddrRef, matchAddrRef, fields_trim_commented (by decide) hskip (href hnone)]
    rw [hrefs]

/-- The line of a source with the comment and without it. -/
def SameLine (line c x y : Text) : Prop := y = x ∨ x = line ∧ y = commented line c

/-- The same for what is gathered of it. -/
def SameMachineLine (line c : Text) (l m : MachineLine) : Prop :=
  m = l ∨ l.line = trim line ∧ m = { l with line := trim (commented line c) }

variable (hsame : ∀ start stop, sectionLine labels start stop (trim (commented line c)) =
  sectionLine labels start stop (trim line))
include hsame

theorem alike_scanSection {lines lines' : List Text}
    (h : List.Forall₂ (SameLine line c) lines lines') (start stop : Text) (pc : BitVec 64) :
    Alike (fun o o' => List.Forall₂ (SameMachineLine line c) o.1 o'.1 ∧
        List.Forall₂ (SameLine line c) o.2 o'.2)
      (scanSection labels start stop pc lines) (scanSection labels start stop pc lines') := by
  induction h generalizing pc with
  | nil => exact alike_ok ⟨.nil, .nil⟩
  | @cons x y xs ys hxy hrest ih =>
    have haction : sectionLine labels start stop (trim y) =
        sectionLine labels start stop (trim x) := by
      rcases hxy with rfl | ⟨rfl, rfl⟩
      · rfl
      · exact hsame start stop
    rw [scanSection, scanSection, haction]
    cases ha : sectionLine labels start stop (trim x) with
    | error e => exact alike_error e
    | ok a =>
      rw [ok_bind, ok_bind]
      cases a with
      | skip => exact ih pc
      | finish => exact alike_ok ⟨.nil, hrest⟩
      | emit ltype value =>
        refine (ih (pc + 1)).bind fun o o' _ hout => alike_ok ⟨.cons ?_ hout.1, hout.2⟩
        rcases hxy with rfl | ⟨rfl, rfl⟩
        · exact .inl rfl
        · exact .inr ⟨rfl, rfl⟩

theorem alike_sections {labelNames lines lines' : List Text}
    (h : List.Forall₂ (SameLine line c) lines lines') :
    Alike (List.Forall₂ fun s s' : Section =>
      List.Forall₂ (SameMachineLine line c) s.lines s'.lines)
      (sections labels labelNames lines) (sections labels labelNames lines') := by
  have hsection : ∀ {lines lines'}, List.Forall₂ (SameLine line c) lines lines' → ∀ start stop,
      Alike (fun s s' : Section × List Text =>
          List.Forall₂ (SameMachineLine line c) s.1.lines s'.1.lines ∧
            List.Forall₂ (SameLine line c) s.2 s'.2)
        (processSection labels start stop lines) (processSection labels start stop lines') := by
    intro lines lines' h start stop
    refine (alike_refl (fun pc => Eq.refl pc) (address labels start)).bind fun pc pc' _ hpc => ?_
    obtain rfl := hpc
    exact (alike_scanSection hsame h start stop pc).bind fun o o' _ hout => alike_ok hout
  induction labelNames generalizing lines lines' with
  | nil => exact alike_error _
  | cons start later ih =>
    cases later with
    | nil => exact (hsection h start []).bind fun s s' _ hs => alike_ok (.cons hs.1 .nil)
    | cons stop later =>
      refine (hsection h start stop).bind fun s s' _ hs => ?_
      exact (ih hs.2).bind fun sects sects' _ hsects => alike_ok (.cons hs.1 hsects)

end SecondPass

/-! ## Assembling -/

/-- The expression of an encoder, for the instructions that have operands. -/
def encoderExpr (instruction : Text) : Option Pattern :=
  match String.ofList instruction with
  | "jal" => some jalExpr
  | "jalr" => some jalrExpr
  | "lui" | "auipc" => some utypeExpr
  | "lb" | "lh" | "lw" | "lbu" | "lhu" => some loadsExpr
  | "sb" | "sh" | "sw" => some storesExpr
  | "add" | "sub" | "xor" | "or" | "and" | "sll" | "srl" | "sra" | "slt" | "sltu" => some rtypeExpr
  | "addi" | "xori" | "ori" | "andi" | "slli" | "srli" | "srai" | "slti" | "sltiu" => some itypeExpr
  | "beq" | "bne" | "blt" | "bge" | "bltu" | "bgeu" => some branchExpr
  | "csrrw" | "csrrs" | "csrrc" | "csrrwi" | "csrrsi" | "csrrci" => some csrExpr
  | _ => none

/-- The instructions whose operand `rewrite` may replace. -/
def isMemoryName (instruction : Text) : Bool :=
  match String.ofList instruction with
  | "lb" | "lh" | "lw" | "lbu" | "lhu" | "sb" | "sh" | "sw" => true
  | _ => false

section Names
variable {instruction : Text}

theorem eq_toList_of_ofList {t : Text} {s : String} (h : String.ofList t = s) : t = s.toList := by
  rw [← h, String.toList_ofList]

theorem isBounded_encoderExpr {p : Pattern} (h : encoderExpr instruction = some p) :
    isBounded p = true := by
  unfold encoderExpr at h
  split at h
  all_goals first
    | (obtain rfl := Option.some.inj h; decide)
    | cases h

theorem rewrite_of_memory (h : isMemoryName instruction = true) (ass : Text) (labels : LabelMap) :
    rewrite instruction ass labels = resolveOperand ass labels >>= replaceOperand ass := by
  unfold isMemoryName at h
  split at h
  case h_9 => cases h
  all_goals
    next hname =>
    obtain rfl := eq_toList_of_ofList hname
    rfl

theorem encoderExpr_of_memory (h : isMemoryName instruction = true) :
    encoderExpr instruction ≠ none := by
  unfold isMemoryName at h
  split at h
  case h_9 => cases h
  all_goals
    next hname =>
    obtain rfl := eq_toList_of_ofList hname
    exact Option.some_ne_none _

theorem rewrite_of_not_memory (h : isMemoryName instruction = false) (ass : Text)
    (labels : LabelMap) : rewrite instruction ass labels = .ok ass := by
  unfold rewrite
  split
  case h_9 => rfl
  all_goals
    next hname =>
    rw [isMemoryName, hname] at h
    cases h

/-- Without operands the context is not read. -/
theorem dispatch_of_none (h : encoderExpr instruction = none) (ctx ctx' : Context) :
    dispatch instruction ctx = dispatch instruction ctx' := by
  unfold dispatch
  split
  all_goals first
    | rfl
    | (next hname => rw [encoderExpr, hname] at h; cases h)

theorem getFields_congr {ass ass' : Text}
    (h : ∀ p, encoderExpr instruction = some p →
      findStringSubmatch p ass' = findStringSubmatch p ass) :
    getFields instruction ass' = getFields instruction ass := by
  unfold getFields
  split
  case h_14 => rfl
  all_goals
    next hname =>
    refine h _ ?_
    obtain rfl := eq_toList_of_ofList hname
    rfl

section Encoders
variable {ass ass' pc : Text} {labels : Labels}

/-- An encoder reads the assembly through its expression alone. -/
def ReadsThrough (encode : Context → Except Error Text) (p : Pattern) : Prop :=
  ∀ ass ass' pc labels, findStringSubmatch p ass' = findStringSubmatch p ass →
    encode ⟨ass', pc, labels⟩ = encode ⟨ass, pc, labels⟩

theorem readsThrough_jal : ReadsThrough jal jalExpr := by
  intro ass ass' pc labels h
  rw [jal, h]
  rfl

theorem readsThrough_jalr : ReadsThrough jalr jalrExpr := by
  intro ass ass' pc labels h
  rw [jalr, h]
  rfl

theorem readsThrough_utype (opcode : BitVec 7) : ReadsThrough (utype opcode) utypeExpr := by
  intro ass ass' pc labels h
  rw [utype, h]
  rfl

theorem readsThrough_loads : ReadsThrough loads loadsExpr := by
  intro ass ass' pc labels h
  rw [loads, h]
  rfl

theorem readsThrough_stores : ReadsThrough stores storesExpr := by
  intro ass ass' pc labels h
  rw [stores, h]
  rfl

theorem readsThrough_rtypeAlu : ReadsThrough rtypeAlu rtypeExpr := by
  intro ass ass' pc labels h
  rw [rtypeAlu, h]
  rfl

theorem readsThrough_itypeAlu : ReadsThrough itypeAlu itypeExpr := by
  intro ass ass' pc labels h
  rw [itypeAlu, h]
  rfl

theorem readsThrough_btypeBranch : ReadsThrough btypeBranch branchExpr := by
  intro ass ass' pc labels h
  rw [btypeBranch, h]
  rfl

theorem readsThrough_itypeCSR : ReadsThrough itypeCSR csrExpr := by
  intro ass ass' pc labels h
  rw [itypeCSR, h]
  rfl

theorem ReadsThrough.dispatch {encode : Context → Except Error Text} {p q : Pattern} {s : String}
    (he : ReadsThrough encode q) (hname : String.ofList instruction = s)
    (hs : encoderExpr s.toList = some q) (hp : encoderExpr instruction = some p)
    (h : findStringSubmatch p ass' = findStringSubmatch p ass) :
    encode ⟨ass', pc, labels⟩ = encode ⟨ass, pc, labels⟩ := by
  obtain rfl := eq_toList_of_ofList hname
  obtain rfl := Option.some.inj (hp.symm.trans hs)
  exact he _ _ _ _ h

theorem dispatch_congr {p : Pattern} (hp : encoderExpr instruction = some p)
    (h : findStringSubmatch p ass' = findStringSubmatch p ass) :
    dispatch instruction ⟨ass', pc, labels⟩ = dispatch instruction ⟨ass, pc, labels⟩ := by
  unfold Assembler.dispatch
  split
  · next hname => exact readsThrough_jal.dispatch hname rfl hp h
  · next hname => exact readsThrough_jalr.dispatch hname rfl hp h
  · next hname => exact (readsThrough_utype _).dispatch hname rfl hp h
  · next hname => exact (readsThrough_utype _).dispatch hname rfl hp h
  · rfl
  iterate 5 focus next hname => exact readsThrough_loads.dispatch hname rfl hp h
  iterate 3 focus next hname => exact readsThrough_stores.dispatch hname rfl hp h
  iterate 10 focus next hname => exact readsThrough_rtypeAlu.dispatch hname rfl hp h
  iterate 9 focus next hname => exact readsThrough_itypeAlu.dispatch hname rfl hp h
  iterate 6 focus next hname => exact readsThrough_btypeBranch.dispatch hname rfl hp h
  iterate 6 focus next hname => exact readsThrough_itypeCSR.dispatch hname rfl hp h
  · rfl
  · rfl

end Encoders

end Names

/-- A line that goes to its encoder as it stands, comment and all, through a string in the
context. -/
structure KeepsLine (p : Pattern) (t c : Text) : Prop where
  line : Plain t
  comment : Plain c
  fields : Keeps p t c

/-- The expressions of `resolveCalc`, as far as it tries them. -/
structure KeepsOperand (t c : Text) : Prop where
  whole : Keeps calcExpr t c
  base : find calcExpr t ≠ none → Keeps baseExpr t c
  ref : find calcExpr t ≠ none → find baseExpr t = none → Keeps refExpr t c

/-- A load or a store, which is written anew if its operand is replaced. -/
structure KeepsMemory (labels : LabelMap) (p : Pattern) (t c : Text) : Prop where
  operand : KeepsOperand t c
  replaced : ∀ v, resolveOperand t labels = .ok v → v ≠ [] → Keeps loadsExpr t c
  kept : resolveOperand t labels = .ok [] → KeepsLine p t c

structure KeepsInstruction (labels : LabelMap) (t c : Text) : Prop where
  mnemonic : Keeps instrExpr t c
  operands : ∀ instruction p, field (findStringSubmatch instrExpr t) 1 = .ok instruction →
    encoderExpr instruction = some p →
      if isMemoryName instruction = true then KeepsMemory labels p t c else KeepsLine p t c

section Assemble
variable {line c : Text} {labels : LabelMap}

theorem resolveOperand_commented (hskip : isSkipped line = false) (h : KeepsOperand (trim line) c) :
    resolveOperand (trim (commented line c)) labels = resolveOperand (trim line) labels := by
  have hwhole := fields_trim_commented (by decide) hskip h.whole
  cases hc : find calcExpr (trim line) with
  | none =>
    have hnil : findStringSubmatch calcExpr (trim line) = [] := by rw [findStringSubmatch, hc]
    rw [resolveOperand, resolveOperand, hwhole, hnil]
    rfl
  | some m =>
    have hsome : find calcExpr (trim line) ≠ none := by simp [hc]
    have hbase := fields_trim_commented (by decide) hskip (h.base hsome)
    cases hb : find baseExpr (trim line) with
    | none =>
      have href := fields_trim_commented (by decide) hskip (h.ref hsome hb)
      rw [resolveOperand, resolveOperand, hwhole, hbase, href]
    | some m' =>
      have hlength : 0 < (findStringSubmatch baseExpr (trim line)).length := by
        rw [findStringSubmatch, hb]
        exact Nat.succ_pos _
      simp only [resolveOperand, hwhole, hbase, if_pos hlength]

theorem labelRef_congr {instruction ass ass' : Text}
    (h : getFields instruction ass' = getFields instruction ass) :
    labelRef instruction ass' labels = labelRef instruction ass labels := by
  rw [labelRef, labelRef, getLabelRef, getLabelRef, getLabel, getLabel, h]

theorem assemble_of_rewrite {t text instruction addr value : Text}
    (hinstruction : field (findStringSubmatch instrExpr t) 1 = .ok instruction)
    (hrewrite : rewrite instruction t labels = .ok text) :
    assemble labels ⟨t, .instruction, addr, value⟩ =
      (dispatch instruction (createContext text (wordAddrToByteAddrString addr)
        (labelRef instruction text labels).1 (labelRef instruction text labels).2)).map
          fun code => ⟨⟨text, .instruction, addr, value⟩, code⟩ := by
  rw [assemble]
  simp only [hinstruction, hrewrite, ok_bind]
  rfl

/-- The text of the line is not in the RAM file. -/
theorem alike_coded (x : Except Error Text) (text text' addr value : Text) :
    Alike (fun r r' : CodedLine => ramWord r' = ramWord r)
      (x.map fun code => ⟨⟨text, .instruction, addr, value⟩, code⟩)
      (x.map fun code => ⟨⟨text', .instruction, addr, value⟩, code⟩) := by
  cases x with
  | error e => exact alike_error e
  | ok code => exact alike_ok rfl

/-- Two lines whose fields the encoder reads alike. -/
theorem alike_plain {t t' instruction addr value : Text} {p : Pattern}
    (hlabels : PlainValues labels)
    (hinstruction : field (findStringSubmatch instrExpr t) 1 = .ok instruction)
    (hinstruction' : field (findStringSubmatch instrExpr t') 1 = .ok instruction)
    (hrewrite : rewrite instruction t labels = .ok t)
    (hrewrite' : rewrite instruction t' labels = .ok t')
    (ht : Plain t) (ht' : Plain t') (hp : encoderExpr instruction = some p)
    (hfields : findStringSubmatch p t' = findStringSubmatch p t) :
    Alike (fun r r' : CodedLine => ramWord r' = ramWord r)
      (assemble labels ⟨t, .instruction, addr, value⟩)
      (assemble labels ⟨t', .instruction, addr, value⟩) := by
  have hall : ∀ q, encoderExpr instruction = some q →
      findStringSubmatch q t' = findStringSubmatch q t := by
    intro q hq
    obtain rfl := Option.some.inj (hp.symm.trans hq)
    exact hfields
  have hassemble := @assemble_plain labels ⟨t, .instruction, addr, value⟩ instruction t rfl
    hinstruction hrewrite ht hlabels
  have hassemble' := @assemble_plain labels ⟨t', .instruction, addr, value⟩ instruction t' rfl
    hinstruction' hrewrite' ht' hlabels
  rw [labelRef_congr (getFields_congr hall), dispatch_congr hp hfields] at hassemble'
  rw [hassemble, hassemble']
  exact alike_coded _ t t' addr value

theorem alike_memory {instruction addr value : Text} {p : Pattern} (hlabels : PlainValues labels)
    (hskip : isSkipped line = false)
    (hinstruction : field (findStringSubmatch instrExpr (trim line)) 1 = .ok instruction)
    (hinstruction' : field (findStringSubmatch instrExpr (trim (commented line c))) 1 =
      .ok instruction)
    (hp : encoderExpr instruction = some p) (hmemory : isMemoryName instruction = true)
    (h : KeepsMemory labels p (trim line) c) :
    Alike (fun r r' : CodedLine => ramWord r' = ramWord r)
      (assemble labels ⟨trim line, .instruction, addr, value⟩)
      (assemble labels ⟨trim (commented line c), .instruction, addr, value⟩) := by
  have hresolve := @resolveOperand_commented line c labels hskip h.operand
  have hrewrite := rewrite_of_memory hmemory (trim line) labels
  have hrewrite' := rewrite_of_memory hmemory (trim (commented line c)) labels
  rw [hresolve] at hrewrite'
  cases hv : resolveOperand (trim line) labels with
  | error e =>
    rw [hv] at hrewrite hrewrite'
    have herror : ∀ t, field (findStringSubmatch instrExpr t) 1 = .ok instruction →
        rewrite instruction t labels = .error e →
          assemble labels ⟨t, .instruction, addr, value⟩ = .error e := by
      intro t ht hr
      rw [assemble]
      simp only [ht, ok_bind, hr]
      rfl
    rw [herror _ hinstruction hrewrite, herror _ hinstruction' hrewrite']
    exact alike_error e
  | ok v =>
    rw [hv, ok_bind] at hrewrite hrewrite'
    by_cases hnil : v = []
    · subst hnil
      have hkept := h.kept hv
      have hfields := fields_trim_commented (isBounded_encoderExpr hp) hskip hkept.fields
      exact alike_plain hlabels hinstruction hinstruction' hrewrite hrewrite' hkept.line
        (plain_trim_commented hskip hkept.line hkept.comment) hp hfields
    · -- from here on the two lines are one text
      have hloads := fields_trim_commented (by decide) hskip (h.replaced v hv hnil)
      have hreplace : replaceOperand (trim (commented line c)) v =
          replaceOperand (trim line) v := by
        rw [replaceOperand, replaceOperand, hloads]
        simp only [if_neg hnil]
      rw [hreplace] at hrewrite'
      cases htext : replaceOperand (trim line) v with
      | error e =>
        rw [htext] at hrewrite hrewrite'
        rw [assemble, assemble]
        simp only [hinstruction, hinstruction', ok_bind, hrewrite, hrewrite']
        exact alike_error e
      | ok text =>
        rw [htext] at hrewrite hrewrite'
        rw [assemble_of_rewrite hinstruction hrewrite, assemble_of_rewrite hinstruction' hrewrite']
        exact alike_coded _ text text addr value

theorem alike_assemble (hlabels : PlainValues labels) (hskip : isSkipped line = false)
    (h : KeepsInstruction labels (trim line) c) (addr value : Text) :
    Alike (fun r r' : CodedLine => ramWord r' = ramWord r)
      (assemble labels ⟨trim line, .instruction, addr, value⟩)
      (assemble labels ⟨trim (commented line c), .instruction, addr, value⟩) := by
  have hmnemonic := fields_trim_commented (by decide) hskip h.mnemonic
  cases hinstruction : field (findStringSubmatch instrExpr (trim line)) 1 with
  | error e =>
    rw [assemble, assemble]
    simp only [hmnemonic, hinstruction]
    exact alike_error e
  | ok instruction =>
    have hinstruction' : field (findStringSubmatch instrExpr (trim (commented line c))) 1 =
        .ok instruction := by rw [hmnemonic, hinstruction]
    cases hmemory : isMemoryName instruction with
    | true =>
      cases hp : encoderExpr instruction with
      | none => exact absurd hp (encoderExpr_of_memory hmemory)
      | some p =>
        have hkeeps := h.operands instruction p hinstruction hp
        rw [if_pos hmemory] at hkeeps
        exact alike_memory hlabels hskip hinstruction hinstruction' hp hmemory hkeeps
    | false =>
      have hrewrite := fun t => rewrite_of_not_memory hmemory t labels
      cases hp : encoderExpr instruction with
      | none =>
        rw [assemble_of_rewrite hinstruction (hrewrite _),
          assemble_of_rewrite hinstruction' (hrewrite _), dispatch_of_none hp _ ⟨[], [], []⟩]
        nth_rewrite 2 [dispatch_of_none hp _ ⟨[], [], []⟩]
        exact alike_coded _ _ _ addr value
      | some p =>
        have hkeeps := h.operands instruction p hinstruction hp
        rw [hmemory, if_neg (by decide)] at hkeeps
        have hfields := fields_trim_commented (isBounded_encoderExpr hp) hskip hkeeps.fields
        exact alike_plain hlabels hinstruction hinstruction' (hrewrite _) (hrewrite _) hkeeps.line
          (plain_trim_commented hskip hkeeps.line hkeeps.comment) hp hfields

end Assemble

/-! ## Files -/

/-- When a comment behind one of the lines is inert. -/
structure IsInert (lines : List Text) (line c : Text) : Prop where
  /-- Both passes look for a label in the whole line, -/
  label : Keeps labelExpr line c
  /-- and for a dollar sign once they have one. -/
  dollar : find labelExpr line ≠ none → '$' ∈ line ∨ '$' ∉ c
  data : Keeps rawExpr (trim line) c
  ref : find rawExpr (trim line) = none → Keeps addRefExpr (trim line) c
  /-- A line that the second pass takes for an instruction is read by its encoder. -/
  instruction : ∀ found sects, findLabels lines = .ok found →
    sections found.labels found.labelNames lines = .ok sects →
      ∀ l ∈ sects.flatMap Section.lines, l.ltype = .instruction → l.line = trim line →
        KeepsInstruction found.labels (trim line) c

/-- The labels with their addresses, and the words with theirs. -/
def Assembly.output (a : Assembly) : FindLabels × List (Text × Text) := (a.found, a.ramFile)

theorem findLabels_commented {before after : List Text} {line c : Text}
    (hskip : isSkipped line = false) (hlabel : Keeps labelExpr line c)
    (hdollar : find labelExpr line ≠ none → '$' ∈ line ∨ '$' ∉ c) :
    findLabels (before ++ commented line c :: after) = findLabels (before ++ line :: after) := by
  rw [findLabels, findLabels, List.foldlM_append, List.foldlM_append]
  simp only [List.foldlM_cons, findLabel_commented hskip hlabel hdollar]

/-- The two runs over the lines that are delivered. -/
theorem assembleLines_commented {before after : List Text} {line c : Text}
    (hskip : isSkipped line = false) (hslash : trim line ≠ ['/'])
    (h : IsInert (before ++ line :: after) line c) :
    (assembleLines (before ++ commented line c :: after)).map Assembly.output =
      (assembleLines (before ++ line :: after)).map Assembly.output := by
  have hlabels := @findLabels_commented before after line c hskip h.label h.dollar
  rw [assembleLines, assembleLines, hlabels]
  cases hfound : findLabels (before ++ line :: after) with
  | error e => rfl
  | ok found =>
    rw [ok_bind, ok_bind]
    have hfile : List.Forall₂ (SameLine line c) (before ++ line :: after)
        (before ++ commented line c :: after) := by
      have hrefl : ∀ lines, List.Forall₂ (SameLine line c) lines lines :=
        fun lines => List.forall₂_same.mpr fun x _ => .inl rfl
      exact List.rel_append (hrefl before) (.cons (.inr ⟨rfl, rfl⟩) (hrefl after))
    have hsects := @alike_sections line c found.labels
      (sectionLine_commented hskip hslash h.label h.data h.ref) found.labelNames _ _ hfile
    refine (Alike.map_eq (hsects.bind fun sects sects' hok hsame => ?_) fun a b hab => hab).symm
    have hlines := List.rel_flatMap hsame fun (s s' : Section) hs => hs
    have hcoded : Alike (List.Forall₂ fun r r' : CodedLine => ramWord r' = ramWord r)
        ((sects.flatMap Section.lines).mapM (assemble found.labels))
        ((sects'.flatMap Section.lines).mapM (assemble found.labels)) := by
      refine alike_mapM hlines fun l hl m hlm => ?_
      rcases hlm with rfl | ⟨hline, rfl⟩
      · exact alike_refl (fun r : CodedLine => Eq.refl (ramWord r)) _
      · obtain ⟨text, ltype, addr, value⟩ := l
        obtain rfl : text = trim line := hline
        cases ltype with
        | data => exact alike_ok rfl
        | addrRef => exact alike_ok rfl
        | instruction =>
          exact alike_assemble (addresses_findLabels hfound).plain hskip
            (h.instruction found sects hfound hok _ hl rfl rfl) addr value
    refine hcoded.bind fun coded coded' _ hrows => alike_ok ?_
    have hram : List.Forall₂ (fun w w' => w = w') (coded.map ramWord) (coded'.map ramWord) :=
      List.forall₂_map_left_iff.mpr (List.forall₂_map_right_iff.mpr
        (hrows.imp fun r r' hr => hr.symm))
    rw [List.forall₂_eq_eq_eq] at hram
    exact congrArg (Prod.mk found) hram

/-! ### What is delivered -/

theorem scan_cons (line : Text) (file : List Text) :
    scan (line :: file) = if Fits line then dropCR line :: scan file else [] := by
  by_cases h : Fits line <;> simp [scan, h]

theorem scan_append_of_fits {before : List Text} (h : ∀ l ∈ before, Fits l) (file : List Text) :
    scan (before ++ file) = before.map dropCR ++ scan file := by
  induction before with
  | nil => rfl
  | cons l before ih =>
    obtain ⟨hl, hbefore⟩ := List.forall_mem_cons.mp h
    rw [List.cons_append, scan_cons, if_pos hl, ih hbefore, List.map_cons, List.cons_append]

/-- Nothing is delivered from a line on that does not fit. -/
theorem scan_append_of_long {before : List Text} (h : ¬ ∀ l ∈ before, Fits l) (file : List Text) :
    scan (before ++ file) = scan before := by
  induction before with
  | nil => exact absurd (List.forall_mem_nil _) h
  | cons l before ih =>
    rw [List.cons_append, scan_cons, scan_cons]
    by_cases hl : Fits l
    · rw [if_pos hl, if_pos hl, ih fun hbefore => h (List.forall_mem_cons.mpr ⟨hl, hbefore⟩)]
    · rw [if_neg hl, if_neg hl]

theorem byteLength_append (s t : Text) : byteLength (s ++ t) = byteLength s + byteLength t := by
  simp [byteLength]

/-- A carriage return at the end is one of the comment. -/
theorem dropCR_commented (line c : Text) : dropCR (commented line c) =
    commented line (dropCR c) := by
  rcases List.eq_nil_or_concat c with rfl | ⟨t, last, rfl⟩
  · simp [dropCR, commented]
  · unfold dropCR commented
    by_cases hlast : last = '\r' <;> simp [hlast, ← List.append_assoc]

/-- **A comment behind a line changes nothing**: a source is accepted with it or refused with it as
it is without, and the labels, their addresses and the words are the same. `eol` is the carriage
return of the line, if it has one. -/
theorem output_commented {before after : List Text} {line eol c : Text}
    (heol : dropCR (line ++ eol) = line) (hskip : isSkipped line = false)
    (hslash : trim line ≠ ['/'])
    (h : (∀ l ∈ before ++ [line ++ eol], Fits l) →
      Fits (commented line (c ++ eol)) ∧
        IsInert (scan (before ++ (line ++ eol) :: after)) line (dropCR (c ++ eol))) :
    (assembleFile (before ++ commented line (c ++ eol) :: after)).map Assembly.output =
      (assembleFile (before ++ (line ++ eol) :: after)).map Assembly.output := by
  rw [assembleFile, assembleFile]
  by_cases hbefore : ∀ l ∈ before, Fits l
  · rw [scan_append_of_fits hbefore, scan_append_of_fits hbefore, scan_cons, scan_cons]
    by_cases hline : Fits (line ++ eol)
    · obtain ⟨hfits, hinert⟩ := h (List.forall_mem_append.mpr ⟨hbefore, by simpa using hline⟩)
      rw [scan_append_of_fits hbefore, scan_cons, if_pos hline, heol] at hinert
      rw [if_pos hline, if_pos hfits, heol, dropCR_commented]
      exact assembleLines_commented hskip hslash hinert
    · -- the line is not delivered, and neither is the longer one
      have hlong : ¬ Fits (commented line (c ++ eol)) := by
        intro hfits
        unfold Fits at hfits hline
        simp only [commented, byteLength_append] at hfits hline
        omega
      rw [if_neg hline, if_neg hlong]
  · rw [scan_append_of_long hbefore, scan_append_of_long hbefore]

/-- A comment behind an instruction whose line ends with a carriage return. -/
theorem add_commented :
    (assembleFile ["Main: @0".toList, commented "add x1, x2, x3".toList
        ("sum".toList ++ ['\r'])]).map Assembly.output =
      (assembleFile (oneLine ("add x1, x2, x3".toList ++ ['\r']))).map Assembly.output := by
  have hinstr : field (findStringSubmatch instrExpr (trim "add x1, x2, x3".toList)) 1 =
      .ok "add".toList := by decide +kernel
  have hkeeps : KeepsLine rtypeExpr (trim "add x1, x2, x3".toList) "sum".toList :=
    ⟨List.all_eq_true.mp (by decide +kernel), List.all_eq_true.mp (by decide +kernel),
      .inl (by decide +kernel)⟩
  have hcomment : dropCR ("sum".toList ++ ['\r']) = "sum".toList := by decide
  refine @output_commented ["Main: @0".toList] [] "add x1, x2, x3".toList ['\r'] "sum".toList
    (by decide) (by decide +kernel) (by decide +kernel) fun _ => ⟨by decide +kernel, ?_⟩
  rw [hcomment]
  refine ⟨.inr (by decide +kernel), fun _ => .inr (by decide), .inr (by decide +kernel),
    fun _ => .inr (by decide +kernel), ?_⟩
  intro found sects _ _ l _ _ _
  refine ⟨.inl (by decide +kernel), fun instruction p hi hp => ?_⟩
  obtain rfl := Except.ok.inj (hi.symm.trans hinstr)
  obtain rfl := Option.some.inj (hp.symm.trans (rfl : encoderExpr "add".toList = some rtypeExpr))
  exact hkeeps

/-- A price behind a label makes the label a byte address. -/
theorem price_moves :
    ¬ ∀ (before after : List Text) (line c : Text), isSkipped line = false → '\n' ∉ c →
      (assembleFile (before ++ commented line c :: after)).map Assembly.output =
        (assembleFile (before ++ line :: after)).map Assembly.output := by
  intro h
  have heq := h [] ["d: 7".toList] "Data: @10".toList "$5".toList (by decide +kernel) (by decide)
  revert heq
  decide +kernel

end RangerRisc.Assembler
