import RangerRisc.AssemblerMain
import RangerRisc.AssemblerWords

/-! Loads and stores with any spacing, as they are rewritten and encoded. Of the expressions that
look for their operand, those of `resolveCalc` ask for exactly one space behind the mnemonic and
for a register without an `a`. -/

namespace RangerRisc.Assembler

open Numeral Regexp Rv32i

/-- `[\w]+` -/
structure Name where
  text : Text
  ne_nil : text ≠ []
  isWord : ∀ c ∈ text, Assembler.isWord c = true

/-- What may stand behind the operands: nothing that looks like a further operand, a label or the
end of the string in the context. -/
structure Remark where
  text : Text
  quiet : ∀ c ∈ text, Json.isPlain c = true ∧ c ≠ ',' ∧ c ≠ ':'
  stops : Stops isWord text

def Remark.nothing : Remark := ⟨[], List.forall_mem_nil _, stops_nil _⟩

inductive MemoryOp where
  | load (size : Size) (signed : Bool)
  | store (size : Size)

def MemoryOp.name : MemoryOp → Text
  | load size signed => loadName size signed
  | store size => storeName size

/-- `H`, `@L`, and either of them with `+n` behind it. Without a mark the name may be a number or
a label. -/
structure Operand where
  marked : Bool
  name : Name
  addend : Option HexLiteral

namespace Operand

def addendText (o : Operand) : Text :=
  match o.addend with
  | none => []
  | some n => '+' :: n.text

def text (o : Operand) : Text :=
  (if o.marked then ['@'] else []) ++ (o.name.text ++ o.addendText)

end Operand

structure MemoryLine where
  op : MemoryOp
  reg : Register
  operand : Operand
  base : Register
  /-- The spaces behind the mnemonic, but one. -/
  gap : ℕ
  commaGap : ℕ
  parenGap : ℕ
  remark : Remark

namespace MemoryLine

def text (l : MemoryLine) : Text :=
  spacedTwo l.op.name l.gap l.reg.text l.commaGap
    (offsetOperand l.operand.text l.parenGap l.base.text l.remark.text)

/-- `resolveCalc` finds the operand. -/
def IsResolved (l : MemoryLine) : Prop := l.gap = 0 ∧ ∃ n, l.reg = .x n

end MemoryLine

/-! ## Texts -/

theorem not_mem_of_class {cls : Char → Bool} {t : Text} {c : Char} (h : ∀ x ∈ t, cls x = true)
    (hc : cls c = false) : c ∉ t := by
  intro hmem
  rw [h c hmem] at hc
  cases hc

theorem isPlain_of_isWord {c : Char} (h : isWord c = true) : Json.isPlain c = true := by
  have hquote : c ≠ '"' := by
    rintro rfl
    exact absurd h (by decide)
  have hslash : c ≠ '\\' := by
    rintro rfl
    exact absurd h (by decide)
  have hlow : 32 ≤ c.toNat := by
    unfold isWord isDecimal isLower at h
    simp only [Bool.or_eq_true, Bool.and_eq_true, decide_eq_true_eq, beq_iff_eq] at h
    rcases h with ((⟨h, -⟩ | ⟨h, -⟩) | ⟨h, -⟩) | rfl
    · exact Nat.le_trans (by decide) (UInt32.le_iff_toNat_le.mp h)
    · exact Nat.le_trans (by decide) (UInt32.le_iff_toNat_le.mp h)
    · exact Nat.le_trans (by decide) (UInt32.le_iff_toNat_le.mp h)
    · decide
  simp [Json.isPlain, hquote, hslash, hlow]

theorem isWord_of_isRegister {c : Char} (h : isRegister c = true) : isWord c = true := by
  unfold isRegister at h
  simp only [Bool.or_eq_true, beq_iff_eq] at h
  rcases h with (rfl | rfl) | h
  · rfl
  · rfl
  · simp [isWord, h]

theorem Register.isWord_text (r : Register) : ∀ c ∈ r.text, isWord c = true :=
  fun c hc => isWord_of_isRegister (r.isRegister_text c hc)

theorem MemoryOp.name_lower (op : MemoryOp) :
    op.name ≠ [] ∧ ∀ c ∈ op.name, isLower c = true := by
  cases op with
  | load size signed => exact loadName_lower size signed
  | store size => exact storeName_lower size

theorem isWord_of_isLower {c : Char} (h : isLower c = true) : isWord c = true := by
  simp [isWord, h]

theorem MemoryOp.isWord_name (op : MemoryOp) : ∀ c ∈ op.name, isWord c = true :=
  fun c hc => isWord_of_isLower (op.name_lower.2 c hc)

/-- `[@+\w]` -/
def isOperand (c : Char) : Bool := c == '@' || c == '+' || isWord c

theorem isOperand_of_isWord {c : Char} (h : isWord c = true) : isOperand c = true := by
  simp [isOperand, h]

theorem Operand.isOperand_addendText (o : Operand) : ∀ c ∈ o.addendText, isOperand c = true := by
  unfold addendText
  cases o.addend with
  | none => exact List.forall_mem_nil _
  | some n =>
    exact List.forall_mem_cons.mpr ⟨rfl, fun c hc => isOperand_of_isWord (n.isWord_text c hc)⟩

theorem Operand.isOperand_text (o : Operand) : ∀ c ∈ o.text, isOperand c = true := by
  intro c hc
  rcases List.mem_append.mp hc with hc | hc
  · cases hm : o.marked with
    | false => simp [hm] at hc
    | true =>
      obtain rfl : c = '@' := by simpa [hm] using hc
      rfl
  · rcases List.mem_append.mp hc with hc | hc
    · exact isOperand_of_isWord (o.name.isWord c hc)
    · exact o.isOperand_addendText c hc

theorem Operand.text_ne_nil (o : Operand) : o.text ≠ [] :=
  List.append_ne_nil_of_right_ne_nil _ (List.append_ne_nil_of_left_ne_nil o.name.ne_nil _)

theorem isOperand_not_blank {c : Char} (h : isOperand c = true) : isBlank c = false := by
  cases hb : isBlank c with
  | false => rfl
  | true =>
    obtain rfl : c = ' ' := by simpa [isBlank] using hb
    exact absurd h (by decide)

theorem isPlain_of_isOperand {c : Char} (h : isOperand c = true) : Json.isPlain c = true := by
  unfold isOperand at h
  simp only [Bool.or_eq_true, beq_iff_eq] at h
  rcases h with (rfl | rfl) | h
  · rfl
  · rfl
  · exact isPlain_of_isWord h

theorem plain_of_isWord {t : Text} (h : ∀ c ∈ t, isWord c = true) : Plain t :=
  fun c hc => isPlain_of_isWord (h c hc)

/-- Neither the context nor the kind of the line can be mistaken. -/
def Calm (t : Text) : Prop := ∀ c ∈ t, Json.isPlain c = true ∧ c ≠ ':'

theorem calm_append {s t : Text} (hs : Calm s) (ht : Calm t) : Calm (s ++ t) := by
  intro c hc
  rcases List.mem_append.mp hc with h | h
  · exact hs c h
  · exact ht c h

theorem calm_cons {c : Char} {t : Text} (hc : Json.isPlain c = true) (hcolon : c ≠ ':')
    (ht : Calm t) : Calm (c :: t) :=
  List.forall_mem_cons.mpr ⟨⟨hc, hcolon⟩, ht⟩

theorem calm_blanks (n : ℕ) : Calm (blanks n) := by
  intro c hc
  obtain rfl := List.eq_of_mem_replicate hc
  decide

theorem calm_of_isOperand {t : Text} (h : ∀ c ∈ t, isOperand c = true) : Calm t := by
  intro c hc
  refine ⟨isPlain_of_isOperand (h c hc), ?_⟩
  rintro rfl
  exact absurd (h ':' hc) (by decide)

theorem calm_of_isWord {t : Text} (h : ∀ c ∈ t, isWord c = true) : Calm t :=
  calm_of_isOperand fun c hc => isOperand_of_isWord (h c hc)

theorem Remark.calm (r : Remark) : Calm r.text := fun c hc => ⟨(r.quiet c hc).1, (r.quiet c hc).2.2⟩

theorem Calm.plain {t : Text} (h : Calm t) : Plain t := fun c hc => (h c hc).1

theorem Calm.colon {t : Text} (h : Calm t) : ':' ∉ t := fun hc => (h ':' hc).2 rfl

theorem calm_spacedTwo {op a b : Text} (hop : ∀ c ∈ op, isWord c = true)
    (ha : ∀ c ∈ a, isWord c = true) (hb : Calm b) (k j : ℕ) : Calm (spacedTwo op k a j b) :=
  calm_append (calm_append (calm_append (calm_of_isWord hop) (calm_blanks _)) (calm_of_isWord ha))
    (calm_cons rfl (by decide) (calm_append (calm_blanks _) hb))

theorem calm_offsetOperand {off b rest : Text} (hoff : ∀ c ∈ off, isOperand c = true)
    (hb : ∀ c ∈ b, isWord c = true) (hrest : Calm rest) (i : ℕ) :
    Calm (offsetOperand off i b rest) :=
  calm_append (calm_of_isOperand hoff) (calm_append (calm_blanks _) (calm_cons rfl (by decide)
    (calm_append (calm_of_isWord hb) (calm_cons rfl (by decide) hrest))))

namespace MemoryLine
variable (l : MemoryLine)

/-- What stands before the comma. -/
def head : Text := l.op.name ++ blanks (l.gap + 1) ++ l.reg.text

/-- And behind it. -/
def rest : Text :=
  blanks l.commaGap ++ offsetOperand l.operand.text l.parenGap l.base.text l.remark.text

theorem text_eq : l.text = l.head ++ ',' :: l.rest := rfl

theorem calm_text : Calm l.text :=
  calm_spacedTwo l.op.isWord_name l.reg.isWord_text
    (calm_offsetOperand l.operand.isOperand_text l.base.isWord_text l.remark.calm _) _ _

theorem plain_text : Plain l.text := l.calm_text.plain

/-- There is one comma. -/
theorem comma_not_mem : ',' ∉ l.head ∧ ',' ∉ l.rest := by
  have hblanks : ∀ n, ',' ∉ blanks n := fun n => not_mem_of_class (isBlank_blanks n) rfl
  have hop := not_mem_of_class (c := ',') l.op.isWord_name rfl
  have hreg := not_mem_of_class (c := ',') l.reg.isWord_text rfl
  have hbase := not_mem_of_class (c := ',') l.base.isWord_text rfl
  have hoperand := not_mem_of_class (c := ',') l.operand.isOperand_text rfl
  have hremark : ',' ∉ l.remark.text := fun h => (l.remark.quiet _ h).2.1 rfl
  constructor
  · simp [head, hblanks, hop, hreg]
  · simp [rest, offsetOperand, hblanks, hbase, hoperand, hremark]

end MemoryLine

/-! ## What `resolveCalc` finds -/

theorem append_cons_inj_last {α : Type} {a : α} {x x' z z' : List α} (hz : a ∉ z) (hz' : a ∉ z')
    (h : x ++ a :: z = x' ++ a :: z') : x = x' ∧ z = z' := by
  rcases List.append_eq_append_iff.mp h with ⟨c, rfl, hc⟩ | ⟨c, rfl, hc⟩
  · cases c with
    | nil => exact ⟨(List.append_nil x).symm, (List.cons.inj hc).2⟩
    | cons d c =>
      obtain ⟨rfl, rfl⟩ := List.cons.inj hc
      exact absurd (List.mem_append_right c List.mem_cons_self) hz
  · cases c with
    | nil => exact ⟨List.append_nil x', (List.cons.inj hc).2.symm⟩
    | cons d c =>
      obtain ⟨rfl, rfl⟩ := List.cons.inj hc
      exact absurd (List.mem_append_right c List.mem_cons_self) hz'

/-- The pieces of a match of one of the expressions. -/
theorem pieces_operandExpr {operand : Pattern} {ss : List Text}
    (h : List.Forall₂ Item.Fits (operandExpr operand) ss) :
    ∃ w r s ss', ss = w :: [' '] :: r :: [','] :: s :: ss' ∧ (w ≠ [] ∧ ∀ c ∈ w, isWord c = true) ∧
      (∀ c ∈ r, isNumbered c = true) ∧ (∀ c ∈ s, isBlank c = true) ∧
      List.Forall₂ Item.Fits
        (operand ++ [(star fun c => c == '+').capture, (star isDecimal).capture]) ss' := by
  obtain _ | ⟨hw, h⟩ := h
  obtain _ | ⟨hspace, h⟩ := h
  obtain _ | ⟨hr, h⟩ := h
  obtain _ | ⟨hcomma, h⟩ := h
  obtain _ | ⟨hs, h⟩ := h
  obtain rfl := fits_one hspace
  obtain rfl := fits_one hcomma
  exact ⟨_, _, _, _, rfl, ⟨List.ne_nil_of_length_pos hw.min, hw.cls⟩, hr.cls, hs.cls, h⟩

namespace MemoryLine
variable (l : MemoryLine)

/-- Where an expression finds an operand, it finds it behind the comma of the line. -/
theorem pieces_of_match {operand : Pattern} {m : Match}
    (h : find (operandExpr operand) l.text = some m) :
    l.IsResolved ∧ ∃ s ss after, l.rest = s ++ (ss.flatten ++ after) ∧ (∀ c ∈ s, isBlank c = true) ∧
      List.Forall₂ Item.Fits
        (operand ++ [(star fun c => c == '+').capture, (star isDecimal).capture]) ss := by
  obtain ⟨pre, ss, after, htext, hfits, -⟩ := exists_pieces_of_find h
  obtain ⟨w, r, s, ss, rfl, ⟨hne, hw⟩, hr, hs, hfits⟩ := pieces_operandExpr hfits
  have hsplit : pre ++ w ++ ' ' :: r ++ ',' :: (s ++ (ss.flatten ++ after)) =
      l.head ++ ',' :: l.rest := by
    rw [← text_eq, htext]
    simp
  obtain ⟨hhead, -, hrest⟩ := (List.append_cons_inj_of_notMem l.comma_not_mem.1
    l.comma_not_mem.2).mp hsplit.symm
  refine ⟨?_, s, ss, after, hrest, hs, hfits⟩
  have hlast : (l.op.name ++ blanks l.gap) ++ ' ' :: l.reg.text = (pre ++ w) ++ ' ' :: r := by
    rw [← hhead, head, blanks, blanks, List.replicate_succ']
    simp
  obtain ⟨hgap, hreg⟩ := append_cons_inj_last (not_mem_of_class l.reg.isWord_text rfl)
    (not_mem_of_class hr rfl) hlast
  constructor
  · -- a second space would stand where the word ends
    cases hg : l.gap with
    | zero => rfl
    | succ g =>
      obtain ⟨w', c, rfl⟩ := (List.eq_nil_or_concat' w).resolve_left hne
      rw [hg, blanks, List.replicate_succ', ← List.append_assoc, ← List.append_assoc] at hgap
      obtain ⟨-, hc⟩ := List.append_inj' hgap rfl
      have hblank := hw c (by simp)
      rw [← List.singleton_inj.mp hc] at hblank
      cases hblank
  · cases hx : l.reg with
    | x n => exact ⟨n, rfl⟩
    | a n =>
      rw [hx] at hreg
      have ha := hr 'a' (hreg ▸ List.mem_cons_self)
      exact absurd ha (by decide)

end MemoryLine

namespace Operand
variable (o : Operand)

/-- The second and the third group of the operand: the plus sign and the decimal digits that the
addend begins with. -/
def plus : Text := if o.addend.isSome then ['+'] else []

def digits : Text :=
  match o.addend with
  | none => []
  | some n => n.text.takeWhile isDecimal

/-- What no group takes. -/
def leftover : Text :=
  match o.addend with
  | none => []
  | some n => n.text.dropWhile isDecimal

theorem addendText_eq : o.addendText = o.plus ++ (o.digits ++ o.leftover) := by
  unfold addendText plus digits leftover
  cases o.addend with
  | none => rfl
  | some n =>
    rw [List.takeWhile_append_dropWhile]
    rfl

/-- The groups behind the name. -/
theorem splits_addend {after : Text} (hplus : Stops (fun c => c == '+') after)
    (hdigit : Stops isDecimal after) :
    Splits [(star fun c => c == '+').capture, (star isDecimal).capture] [o.plus, o.digits]
      (o.leftover ++ after) := by
  unfold plus digits leftover
  cases o.addend with
  | none =>
    exact ⟨⟨List.forall_mem_nil _, Nat.zero_le _, .inr ⟨rfl, hplus⟩⟩,
      ⟨List.forall_mem_nil _, Nat.zero_le _, .inr ⟨rfl, hdigit⟩⟩, trivial⟩
  | some n =>
    have hword : Stops (fun c => c == '+') (n.text ++ after) :=
      stops_append n.text_ne_nil fun c hc => by
        have hc := n.isWord_text c hc
        by_contra hplus
        obtain rfl : c = '+' := by simpa using hplus
        exact absurd hc (by decide)
    refine ⟨⟨List.all_eq_true.mp rfl, Nat.zero_le _, .inr ⟨rfl, ?_⟩⟩,
      ⟨fun c hc => List.mem_takeWhile_imp hc, Nat.zero_le _, .inr ⟨rfl, ?_⟩⟩, trivial⟩
    · rw [List.flatten_singleton, ← List.append_assoc, List.takeWhile_append_dropWhile]
      exact hword
    · exact stops_dropWhile isDecimal n.text hdigit

/-- The name ends at the plus sign or at the end of the operand. -/
theorem stops_addendText {cls : Char → Bool} {after : Text} (hplus : cls '+' = false)
    (hafter : Stops cls after) : Stops cls (o.addendText ++ after) := by
  unfold addendText
  cases o.addend with
  | none => exact hafter
  | some n => exact stops_cons hplus

end Operand

namespace MemoryLine
variable (l : MemoryLine)

def afterOperand : Text := blanks l.parenGap ++ '(' :: (l.base.text ++ ')' :: l.remark.text)

theorem rest_eq : l.rest = blanks l.commaGap ++ (l.operand.text ++ l.afterOperand) := rfl

theorem stops_afterOperand {cls : Char → Bool} (hspace : cls ' ' = false)
    (hparen : cls '(' = false) : Stops cls l.afterOperand := by
  unfold afterOperand
  cases l.parenGap with
  | zero => exact stops_cons hparen
  | succ i => exact stops_cons hspace

/-- The groups behind the name, in front of the parenthesis. -/
theorem splits_addend :
    Splits [(star fun c => c == '+').capture, (star isDecimal).capture]
      [l.operand.plus, l.operand.digits] (l.operand.leftover ++ l.afterOperand) :=
  l.operand.splits_addend (l.stops_afterOperand rfl rfl) (l.stops_afterOperand rfl rfl)

variable {l}

theorem isNumbered_x (n : Fin 32) : ∀ c ∈ (Register.x n).text, isNumbered c = true := by
  have hall : ∀ n, (Register.x n).text.all isNumbered = true := by decide +kernel
  exact List.all_eq_true.mp (hall n)

/-- An expression finds the operand that it splits, if it finds one at all. -/
theorem fields_operandExpr (hres : l.IsResolved) (p : Pattern) (ss : List Text)
    (hp : Splits p ss (l.operand.addendText ++ l.afterOperand))
    (htext : l.operand.text = ss.flatten ++ l.operand.addendText) :
    ∃ whole, findStringSubmatch (operandExpr p) l.text =
      whole :: l.op.name :: l.reg.text :: ((pieces p ss).groups ++
        [l.operand.plus, l.operand.digits]) := by
  obtain ⟨hgap, n, hreg⟩ := hres
  obtain ⟨hne, hlower⟩ := l.op.name_lower
  have hhead : ∀ rest, Splits [word, one ' ', (plus isNumbered).capture]
      [l.op.name, [' '], l.reg.text] (',' :: rest) := by
    intro rest
    refine ⟨takes_plus rfl rfl hne l.op.isWord_name (stops_cons (by decide)), takes_one ' ' _,
      takes_plus rfl rfl l.reg.text_ne_nil ?_ (stops_cons (by decide)), trivial⟩
    rw [hreg]
    exact isNumbered_x n
  have hblank : Stops isBlank (ss.flatten ++ (l.operand.addendText ++ l.afterOperand)) := by
    rw [← List.append_assoc, ← htext]
    exact stops_append l.operand.text_ne_nil
      fun c hc => isOperand_not_blank (l.operand.isOperand_text c hc)
  have hfront := splits_append (splits_append (hhead _) (splits_comma l.commaGap hblank)) hp
  have haddend : l.operand.addendText ++ l.afterOperand =
      [l.operand.plus, l.operand.digits].flatten ++ (l.operand.leftover ++ l.afterOperand) := by
    simp [Operand.addendText_eq]
  rw [haddend] at hfront
  have hall := splits_append hfront l.splits_addend
  have hline : l.text = ([l.op.name, [' '], l.reg.text] ++ [[','], blanks l.commaGap] ++ ss ++
      [l.operand.plus, l.operand.digits]).flatten ++ (l.operand.leftover ++ l.afterOperand) := by
    rw [text_eq, head, hgap, rest_eq, htext, Operand.addendText_eq]
    simp [blanks]
  have hfields := findStringSubmatch_of_splits hall hline
  rw [groups_pieces_append hfront.length, groups_pieces_append rfl] at hfields
  exact ⟨_, hfields⟩

theorem stops_name {cls : Char → Bool} (hplus : cls '+' = false) (hspace : cls ' ' = false)
    (hparen : cls '(' = false) : Stops cls (l.operand.addendText ++ l.afterOperand) :=
  l.operand.stops_addendText hplus (l.stops_afterOperand hspace hparen)

theorem fields_baseExpr (hres : l.IsResolved) (hmark : l.operand.marked = false) :
    ∃ whole, findStringSubmatch baseExpr l.text =
      [whole, l.op.name, l.reg.text, l.operand.name.text, l.operand.plus, l.operand.digits] :=
  fields_operandExpr hres [word] [l.operand.name.text]
    ⟨takes_plus rfl rfl l.operand.name.ne_nil l.operand.name.isWord
      (by simpa using stops_name rfl rfl rfl), trivial⟩
    (by simp [Operand.text, hmark])

theorem fields_refExpr (hres : l.IsResolved) (hmark : l.operand.marked = true) :
    ∃ whole, findStringSubmatch refExpr l.text =
      [whole, l.op.name, l.reg.text, l.operand.name.text, l.operand.plus, l.operand.digits] :=
  fields_operandExpr hres [one '@', word] [['@'], l.operand.name.text]
    ⟨takes_one '@' _, takes_plus rfl rfl l.operand.name.ne_nil l.operand.name.isWord
      (by simpa using stops_name rfl rfl rfl), trivial⟩
    (by simp [Operand.text, hmark])

theorem fields_calcExpr (hres : l.IsResolved) :
    ∃ t ts, findStringSubmatch calcExpr l.text = t :: ts := by
  let mark : Text := if l.operand.marked then ['@'] else []
  have hmark : ∀ c ∈ mark, c = '@' := by
    intro c hc
    cases hm : l.operand.marked <;> simp_all [mark]
  obtain ⟨whole, hfields⟩ := fields_operandExpr hres
    [(plus fun c => isWord c || c == '@').capture] [mark ++ l.operand.name.text]
    ⟨takes_plus rfl rfl (List.append_ne_nil_of_right_ne_nil _ l.operand.name.ne_nil)
      (fun c hc => by
        rcases List.mem_append.mp hc with hc | hc
        · rw [hmark c hc]
          rfl
        · exact Bool.or_eq_true_iff.mpr (.inl (l.operand.name.isWord c hc)))
      (by simpa using stops_name rfl rfl rfl), trivial⟩
    (by simp [Operand.text, mark])
  exact ⟨_, _, hfields⟩

/-- A mark is no beginning of a number. -/
theorem fields_baseExpr_marked (hmark : l.operand.marked = true) :
    findStringSubmatch baseExpr l.text = [] := by
  unfold findStringSubmatch
  cases hm : find baseExpr l.text with
  | none => rfl
  | some m =>
    obtain ⟨-, s, ss, after, hrest, hs, hfits⟩ := pieces_of_match l hm
    obtain _ | ⟨hw, -⟩ := hfits
    next w ss =>
    obtain ⟨c, w, rfl⟩ := List.exists_cons_of_length_pos hw.min
    have hc : isWord c = true := hw.cls c List.mem_cons_self
    rw [List.flatten_cons, List.cons_append, List.cons_append] at hrest
    have hdrop := congrArg (List.dropWhile isBlank) hrest
    rw [rest_eq, dropWhile_append_stops (isBlank_blanks _) (stops_append l.operand.text_ne_nil
      fun c hc => isOperand_not_blank (l.operand.isOperand_text c hc)), dropWhile_append_stops hs
      (stops_cons (isWord_not_blank hc))] at hdrop
    have hat : '@' = c := by
      have hhead := congrArg List.head? hdrop
      simpa [Operand.text, hmark] using hhead
    rw [← hat] at hc
    cases hc

theorem fields_unresolved (hres : ¬ l.IsResolved) (p : Pattern) :
    findStringSubmatch (operandExpr p) l.text = [] := by
  unfold findStringSubmatch
  cases hm : find (operandExpr p) l.text with
  | none => rfl
  | some m => exact absurd (pieces_of_match l hm).1 hres

end MemoryLine

/-- The operand that the line is rewritten with, empty if the name is no label. -/
def Operand.resolve (o : Operand) (labels : LabelMap) : Except Error Text :=
  match o.marked, o.addend with
  | false, none => .ok (labelValue labels o.name.text)
  | false, some _ => calcSum o.name.text o.digits
  | true, none => .ok (wordAddrToByteAddrString (labelValue labels o.name.text))
  | true, some _ =>
    (calcSum (labelValue labels o.name.text) o.digits).map wordAddrToByteAddrString

section Resolve
variable {l : MemoryLine} (labels : LabelMap)

theorem resolveOperand_unresolved (hres : ¬ l.IsResolved) :
    resolveOperand l.text labels = .ok [] := by
  have hcalc : findStringSubmatch calcExpr l.text = [] := l.fields_unresolved hres _
  rw [resolveOperand, hcalc]
  rfl

theorem resolveOperand_resolved (hres : l.IsResolved) :
    resolveOperand l.text labels = l.operand.resolve labels := by
  obtain ⟨t, ts, hcalc⟩ := MemoryLine.fields_calcExpr hres
  unfold resolveOperand
  rw [hcalc]
  cases hmark : l.operand.marked with
  | false =>
    obtain ⟨whole, hbase⟩ := MemoryLine.fields_baseExpr hres hmark
    simp only [hbase, field_zero, field_succ, ok_bind]
    cases hadd : l.operand.addend with
    | none =>
      simp only [Operand.resolve, Operand.plus, hmark, hadd]
      rfl
    | some n => simp [Operand.resolve, Operand.plus, hmark, hadd]
  | true =>
    obtain ⟨whole, href⟩ := MemoryLine.fields_refExpr hres hmark
    simp only [MemoryLine.fields_baseExpr_marked hmark, href, field_zero, field_succ, ok_bind]
    cases hadd : l.operand.addend with
    | none =>
      simp only [Operand.resolve, Operand.plus, hmark, hadd]
      rfl
    | some n =>
      simp only [Operand.resolve, Operand.plus, hmark, hadd]
      rfl

end Resolve

/-! ## Plain lines -/

theorem plain_print (n : ℕ) : Plain (print 16 8 n) :=
  plain_of_isWord fun c hc =>
    HexLiteral.isWord_of_digit ((HexLiteral.printed n).isDigit c hc)

theorem plain_wordAddrToByteAddrString (t : Text) : Plain (wordAddrToByteAddrString t) :=
  plain_print _

theorem mem_groups {p : Pattern} {ss : List Text} {t : Text} (h : t ∈ (pieces p ss).groups) :
    t ∈ ss := by
  induction p generalizing ss with
  | nil => cases ss <;> simp [pieces] at h
  | cons it p ih =>
    cases ss with
    | nil => simp [pieces] at h
    | cons s ss =>
      cases hg : it.group with
      | false =>
        have hrest : t ∈ (pieces p ss).groups := by simpa [pieces, Match.cons, hg] using h
        exact List.mem_cons_of_mem s (ih hrest)
      | true =>
        have hcases : t = s ∨ t ∈ (pieces p ss).groups := by simpa [pieces, Match.cons, hg] using h
        rcases hcases with rfl | hrest
        · exact List.mem_cons_self
        · exact List.mem_cons_of_mem s (ih hrest)

/-- The fields of a plain line are plain. -/
theorem plain_field {ass t : Text} {p : Pattern} {i : ℕ} (hass : Plain ass)
    (h : field (findStringSubmatch p ass) (i + 1) = .ok t) : Plain t := by
  unfold findStringSubmatch at h
  cases hm : find p ass with
  | none =>
    rw [hm] at h
    cases h
  | some m =>
    obtain ⟨pre, ss, rest, rfl, -, rfl⟩ := exists_pieces_of_find hm
    rw [hm] at h
    have hmem : t ∈ (pieces p ss).groups := by
      have h : field (pieces p ss).groups i = .ok t := h
      unfold field at h
      split at h
      · next t' ht =>
        obtain rfl := Except.ok.inj h
        exact List.mem_of_getElem? ht
      · cases h
    intro c hc
    exact hass c (by simp [List.mem_flatten]; exact .inr (.inl ⟨t, mem_groups hmem, hc⟩))

/-- The values of the labels are plain. -/
def PlainValues (labels : LabelMap) : Prop := ∀ entry ∈ labels, Plain entry.2

theorem plain_labelValue {labels : LabelMap} (h : PlainValues labels) (label : Text) :
    Plain (labelValue labels label) := by
  unfold labelValue
  cases hl : labels.lookup label with
  | none => exact List.forall_mem_nil _
  | some value =>
    obtain ⟨before, after, rfl, -⟩ := List.lookup_eq_some_iff.mp hl
    exact h (label, value) (by simp)

theorem field_of_getLabel {instruction ass label : Text}
    (h : getLabel instruction ass = .ok label) :
    ∃ p i, field (findStringSubmatch p ass) (i + 1) = .ok label := by
  have hfields : getFields instruction ass = [] ∨
      ∃ p, getFields instruction ass = findStringSubmatch p ass := by
    unfold getFields
    split
    all_goals first
      | exact .inr ⟨_, rfl⟩
      | exact .inl rfl
  unfold getLabel at h
  rcases hfields with hnil | ⟨p, hp⟩
  · rw [hnil] at h
    cases h
  · rw [hp] at h
    refine ⟨p, ?_⟩
    simp only at h
    split_ifs at h
    split at h
    all_goals first
      | exact ⟨_, h⟩
      | cases h

theorem plain_labelRef {instruction ass : Text} {labels : LabelMap} (hass : Plain ass)
    (hlabels : PlainValues labels) :
    Plain (labelRef instruction ass labels).1 ∧ Plain (labelRef instruction ass labels).2 := by
  unfold labelRef getLabelRef
  cases hl : getLabel instruction ass with
  | error e => exact ⟨List.forall_mem_nil _, List.forall_mem_nil _⟩
  | ok label =>
    obtain ⟨p, i, hfield⟩ := field_of_getLabel hl
    exact ⟨plain_field hass hfield, plain_labelValue hlabels label⟩

/-- **A plain instruction** goes to its encoder with the label that it names. -/
theorem assemble_plain {labels : LabelMap} {l : MachineLine} {instruction line : Text}
    (htype : l.ltype = .instruction)
    (hinstruction : field (findStringSubmatch instrExpr l.line) 1 = .ok instruction)
    (hrewrite : rewrite instruction l.line labels = .ok line) (hline : Plain line)
    (hlabels : PlainValues labels) :
    assemble labels l =
      (dispatch instruction ⟨line, wordAddrToByteAddrString l.addr,
        [[labelRef instruction line labels]]⟩).map fun code => ⟨{ l with line := line }, code⟩ := by
  obtain ⟨hlabel, hvalue⟩ := @plain_labelRef instruction line labels hline hlabels
  have hcontext := createContext_plain hline (plain_wordAddrToByteAddrString l.addr) hlabel hvalue
  rw [assemble, htype]
  simp only [hinstruction, hrewrite, ok_bind, hcontext]
  rfl

theorem instruction_of_spacedTwo {op : Text} (hne : op ≠ []) (hop : ∀ c ∈ op, isLower c = true)
    (k : ℕ) (a : Text) (j : ℕ) (b : Text) :
    field (findStringSubmatch instrExpr (spacedTwo op k a j b)) 1 = .ok op := by
  have hsplits : Splits instrExpr [op] (blanks (k + 1) ++ a ++ ',' :: (blanks j ++ b)) :=
    ⟨takes_plus rfl rfl hne hop (by
      rw [List.flatten_nil, List.nil_append, blanks, List.replicate_succ]
      exact stops_cons (by decide)), trivial⟩
  rw [findStringSubmatch_of_splits hsplits (by simp [spacedTwo])]
  rfl

end RangerRisc.Assembler
