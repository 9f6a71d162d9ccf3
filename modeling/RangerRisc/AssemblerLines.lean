import RangerRisc.Assemblers

/-! The operands of an assembly line as text, and what the encoders read from them. -/

namespace RangerRisc.Assembler

open Numeral Regexp

/-! ## Fields -/

@[simp] theorem field_zero (t : Text) (fields : List Text) : field (t :: fields) 0 = .ok t := rfl

@[simp] theorem field_succ (t : Text) (fields : List Text) (i : ℕ) :
    field (t :: fields) (i + 1) = field fields i := rfl

/-- A line that matches has the whole match and every group of the expression as fields. -/
theorem length_fields {expr : Pattern} {ass t : Text} {i : ℕ}
    (h : field (findStringSubmatch expr ass) i = .ok t) :
    (findStringSubmatch expr ass).length = (expr.filter (·.group)).length + 1 := by
  rw [findStringSubmatch] at h ⊢
  cases hm : find expr ass with
  | none =>
    rw [hm] at h
    cases h
  | some m => rw [List.length_cons, length_groups hm]

@[simp] theorem ok_bind {α β : Type} (a : α) (f : α → Except Error β) : (.ok a >>= f) = f a := rfl

theorem bind_eq_ok {α β : Type} {x : Except Error α} {f : α → Except Error β} {b : β}
    (h : (x >>= f) = .ok b) : ∃ a, x = .ok a ∧ f a = .ok b := by
  cases x with
  | error e => cases h
  | ok a => exact ⟨a, rfl, h⟩

theorem map_eq_ok {α β : Type} {x : Except Error α} {f : α → β} {b : β}
    (h : x.map f = .ok b) : ∃ a, x = .ok a ∧ b = f a := by
  cases x with
  | error e => cases h
  | ok a => exact ⟨a, rfl, (Except.ok.inj h).symm⟩

theorem forall₂_of_mapM {α β : Type} {f : α → Except Error β} {xs : List α} {ys : List β}
    (h : xs.mapM f = .ok ys) : List.Forall₂ (fun x y => f x = .ok y) xs ys := by
  induction xs generalizing ys with
  | nil =>
    obtain rfl := Except.ok.inj h
    exact .nil
  | cons x xs ih =>
    rw [List.mapM_cons] at h
    obtain ⟨y, hy, h⟩ := bind_eq_ok h
    obtain ⟨ys', hys, h⟩ := bind_eq_ok h
    obtain rfl := Except.ok.inj h
    exact .cons hy (ih hys)

theorem exists_of_mapM {α β : Type} {f : α → Except Error β} {xs : List α} {ys : List β}
    (h : xs.mapM f = .ok ys) : ∀ x ∈ xs, ∃ y ∈ ys, f x = .ok y := by
  have hpairs := forall₂_of_mapM h
  clear h
  induction hpairs with
  | nil => exact List.forall_mem_nil _
  | cons hxy _ ih =>
    refine List.forall_mem_cons.mpr ⟨⟨_, List.mem_cons_self, hxy⟩, fun x hx => ?_⟩
    obtain ⟨y, hy, hxy⟩ := ih x hx
    exact ⟨y, List.mem_cons_of_mem _ hy, hxy⟩

/-! ## Registers -/

/-- A register by its number or by its argument name. -/
inductive Register where
  | x (n : Fin 32)
  | a (n : Fin 8)
  deriving DecidableEq

namespace Register

def text : Register → Text
  | x n => 'x' :: print 10 1 n
  | a n => 'a' :: print 10 1 n

def number : Register → BitVec 5
  | x n => BitVec.ofNat 5 n
  | a n => BitVec.ofNat 5 (n + 10)

@[simp] theorem stringRegToInt_text (r : Register) :
    stringRegToInt r.text = .ok (r.number.setWidth 64) := by
  have hx : ∀ n, stringRegToInt (x n).text = .ok ((x n).number.setWidth 64) := by decide +kernel
  have ha : ∀ n, stringRegToInt (a n).text = .ok ((a n).number.setWidth 64) := by decide +kernel
  cases r with
  | x n => exact hx n
  | a n => exact ha n

theorem isRegister_text (r : Register) : ∀ c ∈ r.text, isRegister c = true := by
  have hx : ∀ n, (x n).text.all isRegister = true := by decide +kernel
  have ha : ∀ n, (a n).text.all isRegister = true := by decide +kernel
  cases r with
  | x n => exact List.all_eq_true.mp (hx n)
  | a n => exact List.all_eq_true.mp (ha n)

theorem text_ne_nil (r : Register) : r.text ≠ [] := by
  cases r <;> exact List.cons_ne_nil _ _

end Register

/-! ## Numbers -/

/-- A number has no sign. -/
theorem parseInt_unsigned {b n : ℕ} {s : Text} (h : value b s = some n) :
    parseInt b s = parseUnsigned b s := by
  have hdigits := (digits_of_value h).2
  have hminus : digit b '-' = none := rfl
  have hplus : digit b '+' = none := rfl
  unfold parseInt
  split
  · have := hdigits '-' List.mem_cons_self
    rw [hminus] at this
    exact absurd this (by decide)
  · have := hdigits '+' List.mem_cons_self
    rw [hplus] at this
    exact absurd this (by decide)
  · rfl

theorem parseInt_of_value {b n : ℕ} {s : Text} (h : value b s = some n) (hn : n < 2 ^ 63) :
    parseInt b s = .ok (BitVec.ofInt 64 n) := by
  have hlt : n < 2 ^ 64 := by omega
  have hmod : (BitVec.ofNat 64 n).toNat = n := by
    rw [BitVec.toNat_ofNat, Nat.mod_eq_of_lt hlt]
  have hparse : parseUint b s = .ok (BitVec.ofNat 64 n) := by
    rw [parseUint, h]
    exact if_pos hlt
  rw [parseInt_unsigned h, parseUnsigned, hparse, BitVec.ofInt_natCast]
  show (if 2 ^ 63 ≤ (BitVec.ofNat 64 n).toNat then _ else _) = _
  rw [hmod, if_neg (by omega)]

theorem parseInt_of_large {b n : ℕ} {s : Text} (h : value b s = some n) (hn : 2 ^ 63 ≤ n) :
    parseInt b s = .error .errRange := by
  rw [parseInt_unsigned h, parseUnsigned, parseUint, h]
  show (if n < 2 ^ 64 then Except.ok (BitVec.ofNat 64 n) else .error Error.errRange) >>= _ = _
  split_ifs with hlt
  · show (if 2 ^ 63 ≤ (BitVec.ofNat 64 n).toNat then _ else _) = _
    rw [BitVec.toNat_ofNat, Nat.mod_eq_of_lt hlt, if_pos hn]
  · rfl

theorem parseInt_neg {b n : ℕ} {s : Text} (h : value b s = some n) (hn : n ≤ 2 ^ 63) :
    parseInt b ('-' :: s) = .ok (BitVec.ofInt 64 (-n)) := by
  have hlt : n < 2 ^ 64 := by omega
  have hmod : (BitVec.ofNat 64 n).toNat = n := by
    rw [BitVec.toNat_ofNat, Nat.mod_eq_of_lt hlt]
  have hparse : parseUint b s = .ok (BitVec.ofNat 64 n) := by
    rw [parseUint, h]
    exact if_pos hlt
  rw [parseInt, hparse, BitVec.ofInt_neg, BitVec.ofInt_natCast]
  show (if 2 ^ 63 < (BitVec.ofNat 64 n).toNat then _ else _) = _
  rw [hmod, if_neg (by omega)]

/-- A text without one of the characters of `old` is left alone. -/
theorem replaceOnce_of_not_mem {old new s : Text} {c : Char} (hold : c ∈ old) (hs : c ∉ s) :
    replaceOnce old new s = s := by
  induction s with
  | nil => rfl
  | cons d s ih =>
    have hno : ¬ old.isPrefixOf (d :: s) = true := by
      intro h
      exact hs ((List.isPrefixOf_iff_prefix.mp h).subset hold)
    rw [replaceOnce, if_neg hno, ih (fun h => hs (List.mem_cons_of_mem d h))]

theorem contains_of_not_mem {sub s : Text} {c : Char} (hsub : c ∈ sub) (hs : c ∉ s) :
    contains sub s = false := by
  induction s with
  | nil => rfl
  | cons d s ih =>
    have hno : sub.isPrefixOf (d :: s) = false := by
      apply Bool.eq_false_iff.mpr
      intro h
      exact hs ((List.isPrefixOf_iff_prefix.mp h).subset hsub)
    rw [contains, hno, ih (fun h => hs (List.mem_cons_of_mem d h)), Bool.false_or]

theorem isPrefixOf_singleton (c d : Char) (s : Text) : [c].isPrefixOf (d :: s) = (c == d) := by
  simp [List.isPrefixOf]

theorem replaceOnce_singleton (c : Char) (s : Text) : replaceOnce [c] [] s = s.erase c := by
  induction s with
  | nil => rfl
  | cons d s ih =>
    rw [replaceOnce, isPrefixOf_singleton, ih, List.erase_cons]
    by_cases h : c = d
    · simp [h]
    · simp [h, Ne.symm h]

theorem contains_singleton (c : Char) (s : Text) : contains [c] s = decide (c ∈ s) := by
  induction s with
  | nil => rfl
  | cons d s ih =>
    rw [contains, isPrefixOf_singleton, ih]
    by_cases h : c = d <;> simp [h]

theorem mem_replaceOnce {old s : Text} {c : Char} (h : c ∈ replaceOnce old [] s) : c ∈ s := by
  induction s with
  | nil => exact h
  | cons d s ih =>
    rw [replaceOnce] at h
    split_ifs at h with hprefix
    · exact List.mem_of_mem_drop h
    · rcases List.mem_cons.mp h with rfl | h
      · exact List.mem_cons_self
      · exact List.mem_cons_of_mem d (ih h)

/-- What is not in the text that is taken out stays. -/
theorem mem_replaceOnce_of_mem {old s : Text} {c : Char} (hold : c ∉ old) (h : c ∈ s) :
    c ∈ replaceOnce old [] s := by
  induction s with
  | nil => exact h
  | cons d s ih =>
    rw [replaceOnce]
    split_ifs with hprefix
    · obtain ⟨t, ht⟩ := List.isPrefixOf_iff_prefix.mp hprefix
      rw [← ht, List.drop_left]
      rw [← ht] at h
      exact (List.mem_append.mp h).resolve_left hold
    · rcases List.mem_cons.mp h with rfl | h
      · exact List.mem_cons_self
      · exact List.mem_cons_of_mem d (ih h)

/-- A text with a character that is no digit is no number, unless that is a sign in front. -/
theorem parseInt_of_not_digit {b : ℕ} {s : Text} {c : Char} (hc : digit b c = none) (h : c ∈ s)
    (hhead : c = '-' ∨ c = '+' → s.head? ≠ some c) : ∃ e, parseInt b s = .error e := by
  have hnone : ∀ s, c ∈ s → value b s = none := by
    intro s hs
    cases hv : value b s with
    | none => rfl
    | some n =>
      have hdigit := (digits_of_value hv).2 c hs
      rw [hc] at hdigit
      cases hdigit
  have huint : ∀ s, c ∈ s → ∃ e, parseUint b s = .error e := by
    intro s hs
    rw [parseUint, hnone s hs]
    exact ⟨_, rfl⟩
  have hunsigned : ∀ s, c ∈ s → ∃ e, parseUnsigned b s = .error e := by
    intro s hs
    obtain ⟨e, he⟩ := huint s hs
    rw [parseUnsigned, he]
    exact ⟨e, rfl⟩
  have htail : ∀ d s, c ∈ d :: s → (d = '-' ∨ d = '+') → (c = '-' ∨ c = '+' → d ≠ c) → c ∈ s := by
    intro d s hs hd hne
    rcases List.mem_cons.mp hs with rfl | hs
    · exact absurd rfl (hne hd)
    · exact hs
  unfold parseInt
  split
  · next s =>
    obtain ⟨e, he⟩ := huint s (htail _ _ h (.inl rfl) (by simpa using hhead))
    rw [he]
    exact ⟨e, rfl⟩
  · next s => exact hunsigned s (htail _ _ h (.inr rfl) (by simpa using hhead))
  · exact hunsigned _ h

/-- A hexadecimal number, with or without `0x`. -/
structure HexLiteral where
  zeroX : Bool
  digits : Text
  number : ℕ
  spells : value 16 digits = some number

namespace HexLiteral

def text (l : HexLiteral) : Text := (if l.zeroX then "0x".toList else []) ++ l.digits

theorem not_mem_digits (l : HexLiteral) {c : Char} (hc : digit 16 c = none) : c ∉ l.digits := by
  intro h
  have := (digits_of_value l.spells).2 c h
  rw [hc] at this
  exact absurd this (by decide)

theorem not_mem_text (l : HexLiteral) {c : Char} (hc : digit 16 c = none) (hx : c ≠ 'x') :
    c ∉ l.text := by
  have hzero : c ≠ '0' := by
    rintro rfl
    exact absurd hc (by decide)
  have hd := l.not_mem_digits hc
  cases l with
  | mk zeroX digits number spells => cases zeroX <;> simp_all [text]

/-- A minus sign in front is kept, `0x` is taken out. -/
theorem replaceOnce_text (l : HexLiteral) (sign : Text) (hsign : sign = [] ∨ sign = ['-']) :
    replaceOnce "WA:".toList [] (replaceOnce "0x".toList [] (sign ++ l.text)) =
      sign ++ l.digits := by
  have hx : 'x' ∉ sign ++ l.digits := by
    have := l.not_mem_digits (c := 'x') rfl
    rcases hsign with rfl | rfl <;> simp [this]
  have hW : 'W' ∉ sign ++ l.digits := by
    have := l.not_mem_digits (c := 'W') rfl
    rcases hsign with rfl | rfl <;> simp [this]
  have hzero : replaceOnce "0x".toList [] (sign ++ l.text) = sign ++ l.digits := by
    cases hl : l.zeroX with
    | false =>
      have htext : l.text = l.digits := by simp [text, hl]
      rw [htext]
      exact replaceOnce_of_not_mem (c := 'x') (by decide) hx
    | true =>
      have htext : l.text = '0' :: 'x' :: l.digits := by simp [text, hl]
      rw [htext]
      rcases hsign with rfl | rfl <;> simp [replaceOnce, List.isPrefixOf]
  rw [hzero]
  exact replaceOnce_of_not_mem (c := 'W') (by decide) hW

theorem stringHexToInt_text (l : HexLiteral) (h : l.number < 2 ^ 63) :
    stringHexToInt l.text = .ok (BitVec.ofInt 64 l.number) := by
  have hreplace := l.replaceOnce_text [] (.inl rfl)
  rw [List.nil_append, List.nil_append] at hreplace
  rw [stringHexToInt, hreplace]
  exact parseInt_of_value l.spells h

theorem stringHexToInt_large (l : HexLiteral) (h : 2 ^ 63 ≤ l.number) :
    stringHexToInt l.text = .error .errRange := by
  have hreplace := l.replaceOnce_text [] (.inl rfl)
  rw [List.nil_append, List.nil_append] at hreplace
  rw [stringHexToInt, hreplace]
  exact parseInt_of_large l.spells h

theorem stringHexToInt_minus (l : HexLiteral) (h : l.number ≤ 2 ^ 63) :
    stringHexToInt ('-' :: l.text) = .ok (BitVec.ofInt 64 (-l.number)) := by
  have hreplace := l.replaceOnce_text ['-'] (.inr rfl)
  rw [List.singleton_append, List.singleton_append] at hreplace
  rw [stringHexToInt, hreplace]
  exact parseInt_neg l.spells h

theorem isDigit (l : HexLiteral) : ∀ c ∈ l.digits, (digit 16 c).isSome :=
  (digits_of_value l.spells).2

theorem isWord_of_digit {c : Char} (h : (digit 16 c).isSome) : isWord c = true := by
  have hvalue : (digitValue c).isSome := by
    unfold digit at h
    cases hd : digitValue c with
    | none => rw [hd] at h; exact h
    | some d => rfl
  unfold digitValue at hvalue
  unfold isWord isDecimal isLower
  split at hvalue
  · next hc => simp [hc]
  · split at hvalue
    · next hc => simp [hc]
    · split at hvalue
      · next hc => simp [hc]
      · exact absurd hvalue (by decide)

theorem isWord_text (l : HexLiteral) : ∀ c ∈ l.text, isWord c = true := by
  have hdigits : ∀ c ∈ l.digits, isWord c = true :=
    fun c hc => isWord_of_digit ((digits_of_value l.spells).2 c hc)
  intro c hc
  rcases List.mem_append.mp hc with h | h
  · cases hl : l.zeroX with
    | false => simp [hl] at h
    | true =>
      rw [hl, if_pos rfl] at h
      exact List.all_eq_true.mp (show "0x".toList.all isWord = true by decide) c h
  · exact hdigits c h

theorem text_ne_nil (l : HexLiteral) : l.text ≠ [] :=
  List.append_ne_nil_of_right_ne_nil _ (digits_of_value l.spells).1

/-- The number as `%08X` writes it. -/
def printed (n : ℕ) : HexLiteral := ⟨false, print 16 8 n, n,
    value_print n (by decide) (by decide) (by decide)⟩

end HexLiteral

/-- A hexadecimal number with or without a minus sign. -/
structure SignedLiteral where
  neg : Bool
  literal : HexLiteral

namespace SignedLiteral

def text (l : SignedLiteral) : Text := (if l.neg then ['-'] else []) ++ l.literal.text

def number (l : SignedLiteral) : ℤ := if l.neg then -l.literal.number else l.literal.number

theorem natAbs_number (l : SignedLiteral) : l.number.natAbs = l.literal.number := by
  unfold number
  split
  · rw [Int.natAbs_neg, Int.natAbs_natCast]
  · rw [Int.natAbs_natCast]

theorem not_mem_text (l : SignedLiteral) {c : Char} (hc : digit 16 c = none) (hx : c ≠ 'x')
    (hminus : c ≠ '-') : c ∉ l.text := by
  obtain ⟨neg, literal⟩ := l
  have := literal.not_mem_text hc hx
  cases neg <;> simp_all [text]

theorem text_ne_nil (l : SignedLiteral) : l.text ≠ [] :=
  List.append_ne_nil_of_right_ne_nil _ l.literal.text_ne_nil

theorem isWord_or_minus_text (l : SignedLiteral) :
    ∀ c ∈ l.text, (isWord c || c == '-') = true := by
  intro c hc
  obtain ⟨neg, literal⟩ := l
  rcases List.mem_append.mp hc with h | h
  · cases neg with
    | false => simp at h
    | true => simp_all
  · rw [literal.isWord_text c h, Bool.true_or]

theorem stringHexToInt_text (l : SignedLiteral) (h : l.literal.number < 2 ^ 63) :
    stringHexToInt l.text = .ok (BitVec.ofInt 64 l.number) := by
  obtain ⟨neg, literal⟩ := l
  cases neg with
  | false => exact literal.stringHexToInt_text h
  | true => exact literal.stringHexToInt_minus (Nat.le_of_lt h)

end SignedLiteral

/-- No number is marked as one of words. -/
theorem immediateInt_text {t : Text} {v : BitVec 64} (hW : 'W' ∉ t) (h : stringHexToInt t = .ok v) :
    immediateInt t = .ok v := by
  have hmark : contains "WA:".toList t = false := contains_of_not_mem (c := 'W') (by decide) hW
  rw [immediateInt, h, hmark]
  rfl

/-! ## Labels -/

theorem wordAddrToByteAddrString_text (l : HexLiteral) (h : 4 * l.number < 2 ^ 63) :
    wordAddrToByteAddrString l.text = (HexLiteral.printed (4 * l.number)).text := by
  have hmul : (BitVec.ofInt 64 (l.number : ℤ) * 4).toNat = 4 * l.number := by
    rw [BitVec.ofInt_natCast, BitVec.toNat_mul, BitVec.toNat_ofNat]
    show l.number % 2 ^ 64 * 4 % 2 ^ 64 = _
    omega
  rw [wordAddrToByteAddrString, l.stringHexToInt_text (by omega)]
  show uintToHexString (BitVec.ofInt 64 (l.number : ℤ) * 4) false = _
  rw [uintToHexString, hmul]
  rfl

/-- **The distance to a label**, whose address is one of words. -/
theorem labelDelta_text {ctx : Context} {label : Text} {pc target : HexLiteral}
    (hpc : ctx.pc = pc.text) (htarget : findLabelValue ctx.labels label = .ok target.text)
    (hpc' : pc.number < 2 ^ 63) (htarget' : 4 * target.number < 2 ^ 63) :
    labelDelta ctx label = .ok (BitVec.ofInt 64 (4 * target.number - pc.number)) := by
  have hbytes := (HexLiteral.printed (4 * target.number)).stringHexToInt_text htarget'
  rw [labelDelta, hpc, pc.stringHexToInt_text hpc', htarget]
  show (do
    let targetInt ← stringHexToInt (wordAddrToByteAddrString target.text)
    return targetInt - BitVec.ofInt 64 (pc.number : ℤ)) = _
  rw [wordAddrToByteAddrString_text target htarget', hbytes, Int.sub_eq_add_neg, BitVec.ofInt_add,
    BitVec.ofInt_neg, ← BitVec.sub_eq_add_neg]
  rfl

/-! ## Lines -/

theorem isRegister_not_blank {c : Char} (h : isRegister c = true) : isBlank c = false := by
  cases hb : isBlank c with
  | false => rfl
  | true =>
    obtain rfl : c = ' ' := by simpa [isBlank] using hb
    exact absurd h (by decide)

theorem isWord_not_blank {c : Char} (h : isWord c = true) : isBlank c = false := by
  cases hb : isBlank c with
  | false => rfl
  | true =>
    obtain rfl : c = ' ' := by simpa [isBlank] using hb
    exact absurd h (by decide)

theorem HexLiteral.not_blank (l : HexLiteral) : ∀ c ∈ l.text, isBlank c = false :=
  fun c hc => isWord_not_blank (l.isWord_text c hc)

theorem Register.not_blank (r : Register) : ∀ c ∈ r.text, isBlank c = false :=
  fun c hc => isRegister_not_blank (r.isRegister_text c hc)

section Lines
variable {op : Text} (hne : op ≠ []) (hop : ∀ c ∈ op, isLower c = true)

theorem takes_register (r : Register) {rest : Text} (h : Stops isRegister rest) :
    register.Takes r.text rest :=
  takes_plus rfl rfl r.text_ne_nil r.isRegister_text h

def blanks (n : ℕ) : Text := List.replicate n ' '

theorem isBlank_blanks (n : ℕ) : ∀ c ∈ blanks n, isBlank c = true := by
  intro c hc
  obtain rfl := List.eq_of_mem_replicate hc
  rfl

/-- A comma and spaces, before something else than a space. -/
theorem splits_comma (j : ℕ) {rest : Text} (h : Stops isBlank rest) :
    Splits comma [[','], blanks j] rest :=
  ⟨takes_one ',' _, takes_star (isBlank_blanks j)
    (by rwa [List.flatten_nil, List.nil_append]), trivial⟩

include hne hop

/-- A mnemonic, spaces, and a register up to the comma. -/
theorem splits_head (k : ℕ) (r : Register) {rest : Text} :
    Splits [mnemonic, plus isBlank, register] [op, blanks (k + 1), r.text] (',' :: rest) := by
  refine ⟨takes_plus rfl rfl hne hop ?_,
    takes_plus rfl rfl (List.cons_ne_nil _ _) (isBlank_blanks _) ?_,
    takes_register r (stops_cons (by decide)), trivial⟩
  · exact stops_cons (by decide)
  · simp only [List.flatten_cons, List.append_assoc]
    exact stops_append r.text_ne_nil r.not_blank

/-- `op ra, ` and a last operand. -/
theorem splits_two (k j : ℕ) (ra : Register) {p : Pattern} {ss : List Text} {rest : Text}
    (hblank : Stops isBlank (ss.flatten ++ rest)) (hp : Splits p ss rest) :
    Splits ([mnemonic, plus isBlank, register] ++ comma ++ p)
      ([op, blanks (k + 1), ra.text] ++ [[','], blanks j] ++ ss) rest :=
  splits_append (splits_append (splits_head hne hop k ra) (splits_comma j hblank)) hp

/-- `op ra, rb, ` and a last operand. -/
theorem splits_three (k j j' : ℕ) (ra rb : Register) {p : Pattern} {ss : List Text} {rest : Text}
    (hblank : Stops isBlank (ss.flatten ++ rest)) (hp : Splits p ss rest) :
    Splits ([mnemonic, plus isBlank, register] ++ comma ++ [register] ++ comma ++ p)
      ([op, blanks (k + 1), ra.text] ++ [[','], blanks j] ++ [rb.text] ++ [[','], blanks j'] ++ ss)
      rest := by
  refine splits_append (splits_append (splits_append (splits_append (splits_head hne hop k ra)
    (splits_comma j ?_)) ⟨takes_register rb (stops_cons (by decide)), trivial⟩)
    (splits_comma j' hblank)) hp
  simp only [List.flatten_cons, List.append_assoc]
  exact stops_append rb.text_ne_nil rb.not_blank

/-- `op ra, off(rb)` -/
theorem splits_offset (k j i : ℕ) (ra rb : Register) {cls : Char → Bool} {off rest : Text}
    (hoff : off ≠ []) (hcls : ∀ c ∈ off, cls c = true) (hblank : ∀ c ∈ off, isBlank c = false)
    (hspace : cls ' ' = false) (hparen : cls '(' = false) :
    Splits (offsetExpr cls) ([op, blanks (k + 1), ra.text] ++ [[','], blanks j] ++
      [off, blanks i, ['('], rb.text, [')']]) rest := by
  have hstop : Stops cls (blanks i ++ '(' :: (rb.text ++ ')' :: rest)) := by
    cases i with
    | zero => exact stops_cons hparen
    | succ i => exact stops_cons hspace
  refine splits_two hne hop k j ra ?_ ⟨takes_plus rfl rfl hoff hcls ?_,
    takes_star (isBlank_blanks i) (stops_cons (by decide)), takes_one '(' _,
    takes_register rb (stops_cons (by decide)), takes_one ')' _, trivial⟩
  · rw [List.flatten_cons, List.append_assoc]
    exact stops_append hoff hblank
  · simp only [List.flatten_cons, List.flatten_nil, List.append_assoc, List.append_nil,
      List.cons_append, List.nil_append]
    exact hstop

/-- `op ra, imm` with exactly one space after the mnemonic. -/
theorem splits_utype (ra : Register) {imm : Text} (himm : imm ≠ [])
    (hword : ∀ c ∈ imm, isWord c = true) :
    Splits utypeExpr ([op, [' '], ra.text] ++ [[','], [' ']] ++ [imm]) [] := by
  refine splits_append (splits_append ⟨takes_plus rfl rfl hne hop (stops_cons (by decide)),
    takes_one ' ' _, takes_register ra (stops_cons (by decide)), trivial⟩ (splits_comma 1 ?_))
    ⟨takes_plus rfl rfl himm hword (stops_nil _), trivial⟩
  simp only [List.flatten_cons, List.append_assoc]
  exact stops_append himm (fun c hc => isWord_not_blank (hword c hc))

omit hne hop in
/-- The fields of a match are its captured pieces. -/
theorem findStringSubmatch_of_splits {p : Pattern} {ss : List Text} {line rest : Text}
    (h : Splits p ss rest) (hline : line = ss.flatten ++ rest) :
    findStringSubmatch p line = (pieces p ss).text :: (pieces p ss).groups := by
  have hfind := find_of_splits h
  rw [← hline] at hfind
  rw [findStringSubmatch, hfind]

def lineTwo (op a b : Text) : Text := op ++ " ".toList ++ a ++ ", ".toList ++ b

def lineThree (op a b c : Text) : Text := lineTwo op a b ++ ", ".toList ++ c

def lineOffset (op a off b : Text) : Text := lineTwo op a off ++ "(".toList ++ b ++ ")".toList

/-- `op a,b`, with spaces behind the mnemonic and behind the comma. -/
def spacedTwo (op : Text) (k : ℕ) (a : Text) (j : ℕ) (b : Text) : Text :=
  op ++ blanks (k + 1) ++ a ++ ',' :: (blanks j ++ b)

theorem fields_spacedTwo (k j : ℕ) (ra : Register) (p : Pattern) (ss : List Text) {rest : Text}
    (hblank : Stops isBlank (ss.flatten ++ rest)) (hp : Splits p ss rest) :
    ∃ whole, findStringSubmatch ([mnemonic, plus isBlank, register] ++ comma ++ p)
      (spacedTwo op k ra.text j (ss.flatten ++ rest)) =
        whole :: op :: ra.text :: (pieces p ss).groups :=
  ⟨_, findStringSubmatch_of_splits (splits_two hne hop k j ra hblank hp) (by simp [spacedTwo])⟩

theorem fields_spacedThree (k j j' : ℕ) (ra rb : Register) (p : Pattern) (ss : List Text)
    {rest : Text} (hblank : Stops isBlank (ss.flatten ++ rest)) (hp : Splits p ss rest) :
    ∃ whole, findStringSubmatch
      ([mnemonic, plus isBlank, register] ++ comma ++ [register] ++ comma ++ p)
      (spacedTwo op k ra.text j (rb.text ++ ',' :: (blanks j' ++ (ss.flatten ++ rest)))) =
        whole :: op :: ra.text :: rb.text :: (pieces p ss).groups :=
  ⟨_, findStringSubmatch_of_splits (splits_three hne hop k j j' ra rb hblank hp)
    (by simp [spacedTwo])⟩

/-- The operand of a load or a store, in front of whatever is left of the line. -/
def offsetOperand (off : Text) (i : ℕ) (b : Text) (rest : Text) : Text :=
  off ++ (blanks i ++ '(' :: (b ++ ')' :: rest))

theorem fields_spacedOffset (k j i : ℕ) (ra rb : Register) (cls : Char → Bool) {off : Text}
    (rest : Text) (hoff : off ≠ []) (hcls : ∀ c ∈ off, cls c = true)
    (hblank : ∀ c ∈ off, isBlank c = false) (hspace : cls ' ' = false) (hparen : cls '(' = false) :
    ∃ whole, findStringSubmatch (offsetExpr cls)
      (spacedTwo op k ra.text j (offsetOperand off i rb.text rest)) =
        [whole, op, ra.text, off, rb.text] :=
  ⟨_, findStringSubmatch_of_splits
    (show Splits _ _ rest from splits_offset hne hop k j i ra rb hoff hcls hblank hspace hparen)
    (by simp [spacedTwo, offsetOperand])⟩

omit hne hop in
theorem lineTwo_eq (a b : Text) : lineTwo op a b = spacedTwo op 0 a 1 b := by
  simp [lineTwo, spacedTwo, blanks]

theorem fields_two (ra : Register) (p : Pattern) (ss : List Text)
    (hblank : Stops isBlank ss.flatten) (hp : Splits p ss []) :
    ∃ whole, findStringSubmatch ([mnemonic, plus isBlank, register] ++ comma ++ p)
      (lineTwo op ra.text ss.flatten) = whole :: op :: ra.text :: (pieces p ss).groups := by
  have hfields := fields_spacedTwo hne hop 0 1 ra p ss (by rwa [List.append_nil]) hp
  rwa [List.append_nil, ← lineTwo_eq] at hfields

theorem fields_three (ra rb : Register) (p : Pattern) (ss : List Text)
    (hblank : Stops isBlank ss.flatten) (hp : Splits p ss []) :
    ∃ whole, findStringSubmatch
      ([mnemonic, plus isBlank, register] ++ comma ++ [register] ++ comma ++ p)
      (lineThree op ra.text rb.text ss.flatten) =
        whole :: op :: ra.text :: rb.text :: (pieces p ss).groups := by
  have hfields := fields_spacedThree hne hop 0 1 1 ra rb p ss (by rwa [List.append_nil]) hp
  have hline : lineThree op ra.text rb.text ss.flatten =
      spacedTwo op 0 ra.text 1 (rb.text ++ ',' :: (blanks 1 ++ (ss.flatten ++ []))) := by
    simp [lineThree, lineTwo, spacedTwo, blanks]
  rwa [← hline] at hfields

theorem fields_offset (ra rb : Register) (cls : Char → Bool) {off : Text} (hoff : off ≠ [])
    (hcls : ∀ c ∈ off, cls c = true) (hblank : ∀ c ∈ off, isBlank c = false)
    (hspace : cls ' ' = false) (hparen : cls '(' = false) :
    ∃ whole, findStringSubmatch (offsetExpr cls) (lineOffset op ra.text off rb.text) =
      [whole, op, ra.text, off, rb.text] := by
  have hfields := fields_spacedOffset hne hop 0 1 0 ra rb cls [] hoff hcls hblank hspace hparen
  have hline : lineOffset op ra.text off rb.text =
      spacedTwo op 0 ra.text 1 (offsetOperand off 0 rb.text []) := by
    simp [lineOffset, lineTwo, spacedTwo, offsetOperand, blanks]
  rwa [← hline] at hfields

theorem fields_utype (ra : Register) {imm : Text} (himm : imm ≠ [])
    (hword : ∀ c ∈ imm, isWord c = true) :
    ∃ whole, findStringSubmatch utypeExpr (lineTwo op ra.text imm) = [whole, op, ra.text, imm] :=
  ⟨_, findStringSubmatch_of_splits (show Splits _ _ [] from splits_utype hne hop ra himm hword)
    (by simp [lineTwo])⟩

end Lines

end RangerRisc.Assembler
