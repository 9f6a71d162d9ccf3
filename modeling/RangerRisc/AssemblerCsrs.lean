import RangerRisc.AssemblerWords
import RangerRisc.CsrInstructions

/-! The CSR instructions of the assembler against the slices of the CSR matrices. The immediate
forms read their hexadecimal operand as the name of a register. -/

namespace RangerRisc.Assembler

open Numeral Regexp Rv32i

/-! ## The lines -/

/-- The CSRs that have a name. -/
inductive CsrName where
  | mstatus | mie | mtvec | mscratch | mepc | mcause | mtval | mip
  deriving DecidableEq

namespace CsrName

def text : CsrName → Text
  | mstatus => "mstatus".toList
  | mie => "mie".toList
  | mtvec => "mtvec".toList
  | mscratch => "mscratch".toList
  | mepc => "mepc".toList
  | mcause => "mcause".toList
  | mtval => "mtval".toList
  | mip => "mip".toList

def addr : CsrName → ℕ
  | mstatus => 0x300
  | mie => 0x304
  | mtvec => 0x305
  | mscratch => 0x340
  | mepc => 0x341
  | mcause => 0x342
  | mtval => 0x343
  | mip => 0x344

end CsrName

/-- A CSR by its name or by its address. -/
inductive CsrOperand where
  | name (c : CsrName)
  | number (l : HexLiteral) (fits : l.number < 4096)

namespace CsrOperand

def text : CsrOperand → Text
  | name c => c.text
  | number l _ => l.text

def addr : CsrOperand → ℕ
  | name c => c.addr
  | number l _ => l.number

end CsrOperand

/-- rs1, or an immediate of five bits. -/
inductive CsrSource where
  | register (r : Register)
  | immediate (l : HexLiteral) (zeroX : l.zeroX = true) (fits : l.number < 32)

namespace CsrSource

def text : CsrSource → Text
  | register r => r.text
  | immediate l _ _ => l.text

def number : CsrSource → BitVec 5
  | register r => r.number
  | immediate l _ _ => BitVec.ofNat 5 l.number

def isImmediate : CsrSource → Bool
  | register _ => false
  | immediate .. => true

/-- The decimal digits of one place and the lower-case ten, on which both readings agree. -/
def Readable : CsrSource → Prop
  | register _ => True
  | immediate l _ _ => l.number ≤ 9 ∨ l.number = 10 ∧ 'a' ∈ l.digits

end CsrSource

structure CsrLine where
  op : Zicsr.Op
  rd : Register
  csr : CsrOperand
  source : CsrSource

def csrMnemonic : Zicsr.Op → Bool → Text
  | .write, false => "csrrw".toList
  | .set, false => "csrrs".toList
  | .clear, false => "csrrc".toList
  | .write, true => "csrrwi".toList
  | .set, true => "csrrsi".toList
  | .clear, true => "csrrci".toList

namespace CsrLine

def mnemonic (line : CsrLine) : Text := csrMnemonic line.op line.source.isImmediate

def text (line : CsrLine) : Text :=
  lineThree line.mnemonic line.rd.text line.csr.text line.source.text

/-- The instruction that the line asks for. -/
def instr (line : CsrLine) : Zicsr.Instr where
  op := line.op
  immediate := line.source.isImmediate
  rd := line.rd.number
  source := line.source.number
  addr := BitVec.ofNat 12 line.csr.addr

end CsrLine

/-! ## What is read of an operand -/

theorem stringRegToInt_eq (reg : Text) : stringRegToInt reg =
    (parseInt 10 ((reg.erase 'x').erase 'a')).map fun v => if 'a' ∈ reg then v + 10 else v := by
  have hx : replaceOnce "x".toList [] reg = reg.erase 'x' := replaceOnce_singleton 'x' reg
  have ha : replaceOnce "a".toList [] (reg.erase 'x') = (reg.erase 'x').erase 'a' :=
    replaceOnce_singleton 'a' _
  have habi : contains "a".toList reg = decide ('a' ∈ reg) := contains_singleton 'a' reg
  rw [stringRegToInt, hx, ha, habi]
  cases parseInt 10 ((reg.erase 'x').erase 'a') with
  | error e => rfl
  | ok v => simp [Except.map]

def hexDigits : Text := "0123456789abcdefABCDEF".toList

theorem mem_hexDigits {c : Char} {d : ℕ} (h : digit 16 c = some d) : c ∈ hexDigits := by
  obtain ⟨hvalue, hlt⟩ := Option.filter_eq_some_iff.mp h
  have hd : d < 16 := by simpa using hlt
  have hc : c = Char.ofNat c.toNat := (Char.ofNat_toNat c).symm
  have hle : ∀ a b : Char, a ≤ b → a.toNat ≤ b.toNat := fun _ _ => UInt32.le_iff_toNat_le.mp
  unfold digitValue at hvalue
  rw [hc]
  split_ifs at hvalue with h0 ha hA
  · have hlow := hle _ _ h0.1
    have hhigh := hle _ _ h0.2
    simp only [Char.reduceToNat] at hlow hhigh
    interval_cases c.toNat <;> decide
  · have hlow := hle _ _ ha.1
    have hhigh : c.toNat - 97 + 10 = d := Option.some.inj hvalue
    simp only [Char.reduceToNat] at hlow
    have hupper : c.toNat ≤ 102 := by omega
    interval_cases c.toNat <;> decide
  · have hlow := hle _ _ hA.1
    have hhigh : c.toNat - 65 + 10 = d := Option.some.inj hvalue
    simp only [Char.reduceToNat] at hlow
    have hupper : c.toNat ≤ 70 := by omega
    interval_cases c.toNat <;> decide

/-- The classes of a hexadecimal digit. -/
theorem hexDigit_cases {c : Char} {d : ℕ} (h : digit 16 c = some d) :
    (isRegister c = true ∧ c ≠ 'a' ∧ digit 10 c = some d ∧ d ≤ 9) ∨ (c = 'a' ∧ d = 10) ∨
      (isRegister c = false ∧ c ≠ 'a' ∧ 10 ≤ d) := by
  have hall : hexDigits.all (fun c => decide (∀ d ∈ digit 16 c,
      (isRegister c = true ∧ c ≠ 'a' ∧ digit 10 c = some d ∧ d ≤ 9) ∨ (c = 'a' ∧ d = 10) ∨
        (isRegister c = false ∧ c ≠ 'a' ∧ 10 ≤ d))) = true := by decide
  exact of_decide_eq_true (List.all_eq_true.mp hall c (mem_hexDigits h)) d h

theorem eq_one_of_digit {c : Char} (h : digit 16 c = some 1) : c = '1' := by
  have hall : hexDigits.all (fun c => decide (digit 16 c = some 1 → c = '1')) = true := by decide
  exact of_decide_eq_true (List.all_eq_true.mp hall c (mem_hexDigits h)) h

/-- A number below 32: zeros, perhaps a one, and the last digit. -/
theorem HexLiteral.digits_small (l : HexLiteral) (h : l.number < 32) :
    ∃ k lead c d, l.digits = List.replicate k '0' ++ (lead ++ [c]) ∧ digit 16 c = some d ∧
      (lead = [] ∧ l.number = d ∨ lead = ['1'] ∧ l.number = 16 + d) := by
  have hspells := l.spells
  rcases List.eq_nil_or_concat' l.digits with hnil | ⟨s, c, hs⟩
  · exact absurd hnil (digits_of_value hspells).1
  · rw [hs] at hspells ⊢
    by_cases hne : s = []
    · subst hne
      rw [List.nil_append, value_singleton] at hspells
      exact ⟨0, [], c, l.number, rfl, hspells, .inl ⟨rfl, rfl⟩⟩
    · rw [value_concat hne] at hspells
      obtain ⟨m, hm, hspells⟩ := Option.bind_eq_some_iff.mp hspells
      obtain ⟨d, hd, hsum⟩ := Option.map_eq_some_iff.mp hspells
      obtain rfl | rfl : m = 0 ∨ m = 1 := by omega
      · refine ⟨s.length, [], c, d, ?_, hd, .inl ⟨rfl, by omega⟩⟩
        rw [List.nil_append, ← eq_zeros_of_value hm (by decide)]
      · rcases List.eq_nil_or_concat' s with rfl | ⟨t, c', rfl⟩
        · exact absurd rfl hne
        · have hone : c' = '1' ∧ t = List.replicate t.length '0' := by
            by_cases ht : t = []
            · subst ht
              rw [List.nil_append, value_singleton] at hm
              exact ⟨eq_one_of_digit hm, rfl⟩
            · rw [value_concat ht] at hm
              obtain ⟨m', hm', hm⟩ := Option.bind_eq_some_iff.mp hm
              obtain ⟨d', hd', hsum'⟩ := Option.map_eq_some_iff.mp hm
              obtain ⟨rfl, rfl⟩ : m' = 0 ∧ d' = 1 := by omega
              exact ⟨eq_one_of_digit hd', eq_zeros_of_value hm' (by decide)⟩
          obtain ⟨rfl, ht⟩ := hone
          refine ⟨t.length, ['1'], c, d, ?_, hd, .inr ⟨rfl, by omega⟩⟩
          rw [← List.append_assoc, ← ht]

/-- What a register number after `0x` and zeros is read as. -/
theorem stringRegToInt_zeros (k : ℕ) {t : Text} {n : ℕ}
    (h : value 10 (t.erase 'a') = some n ∨ t.erase 'a' = [] ∧ n = 0) (hn : n < 2 ^ 62) :
    stringRegToInt ('0' :: 'x' :: (List.replicate k '0' ++ t)) =
      .ok (BitVec.ofInt 64 ((if 'a' ∈ t then n + 10 else n : ℕ) : ℤ)) := by
  have hzeros : 'a' ∉ '0' :: List.replicate k '0' := by simp
  have herase : (('0' :: 'x' :: (List.replicate k '0' ++ t)).erase 'x').erase 'a' =
      List.replicate (k + 1) '0' ++ t.erase 'a' := by
    have hfirst : ('0' :: 'x' :: (List.replicate k '0' ++ t)).erase 'x' =
        ('0' :: List.replicate k '0') ++ t := by simp
    rw [hfirst, List.erase_append_right _ hzeros, List.replicate_succ]
  have hvalue : value 10 (List.replicate (k + 1) '0' ++ t.erase 'a') = some n := by
    rcases h with h | ⟨h, rfl⟩
    · rw [value_zeros (by decide) _ (digits_of_value h).1, h]
    · rw [h, List.append_nil, List.replicate_succ', value_zeros (by decide) _ (by simp)]
      rfl
  have habi : 'a' ∈ '0' :: 'x' :: (List.replicate k '0' ++ t) ↔ 'a' ∈ t := by simp
  rw [stringRegToInt_eq, herase, parseInt_of_value hvalue (by omega)]
  simp only [habi, Except.map]
  split
  · rw [Nat.cast_add, BitVec.ofInt_add]
    rfl
  · rfl

/-- **An immediate is read as the name of a register**: up to the first digit that no such name
has, in decimal, and ten more if there is an `a`. -/
theorem immediate_read (l : HexLiteral) (zeroX : l.zeroX = true) (fits : l.number < 32) :
    ∃ pre rest n, l.text = pre ++ rest ∧ (pre ≠ [] ∧ ∀ c ∈ pre, isRegister c = true) ∧
      Stops isRegister rest ∧ stringRegToInt pre = .ok (BitVec.ofInt 64 ((n : ℕ) : ℤ)) ∧ n < 32 ∧
      (n = l.number ↔ l.number ≤ 9 ∨ l.number = 10 ∧ 'a' ∈ l.digits) := by
  obtain ⟨k, lead, c, d, hdigits, hc, hnumber⟩ := l.digits_small fits
  have htext : l.text = '0' :: 'x' :: (List.replicate k '0' ++ (lead ++ [c])) := by
    simp [HexLiteral.text, zeroX, hdigits]
  have hlead : ∀ c ∈ lead, c = '1' := by rcases hnumber with ⟨rfl, -⟩ | ⟨rfl, -⟩ <;> simp
  have hclass : ∀ t : Text, (∀ c ∈ t, isRegister c = true) →
      ∀ c ∈ '0' :: 'x' :: (List.replicate k '0' ++ (lead ++ t)), isRegister c = true := by
    intro t ht c hc
    simp only [List.mem_cons, List.mem_append, List.mem_replicate] at hc
    rcases hc with rfl | rfl | ⟨-, rfl⟩ | hc | hc
    · rfl
    · rfl
    · rfl
    · rw [hlead c hc]
      rfl
    · exact ht c hc
  have hmem : 'a' ∈ l.digits ↔ c = 'a' := by
    rw [hdigits]
    rcases hnumber with ⟨rfl, -⟩ | ⟨rfl, -⟩ <;> simp [eq_comm]
  rcases hexDigit_cases hc with ⟨hreg, hne, hten, hnine⟩ | ⟨rfl, rfl⟩ | ⟨hreg, hne, hten⟩
  · -- a decimal digit: all of the text, in decimal
    have hx : c ≠ 'x' := by
      rintro rfl
      have hnone : digit 16 'x' = none := rfl
      rw [hnone] at hc
      cases hc
    refine ⟨l.text, [], (if lead = [] then d else 10 + d), (List.append_nil _).symm,
      ⟨l.text_ne_nil, ?_⟩, stops_nil _, ?_, ?_, ?_⟩
    · rw [htext]
      exact hclass [c] (by simpa using hreg)
    · rw [htext, stringRegToInt_zeros k (n := if lead = [] then d else 10 + d)]
      · have ha : 'a' ∉ lead ++ [c] := by
          rcases hnumber with ⟨rfl, -⟩ | ⟨rfl, -⟩ <;> simp [hne.symm]
        rw [if_neg ha]
      · left
        rcases hnumber with ⟨rfl, -⟩ | ⟨rfl, -⟩
        · rw [List.nil_append, List.erase_of_not_mem (by simpa using hne.symm),
            value_singleton, hten]
          rfl
        · have ha : 'a' ∉ ['1'] ++ [c] := by simpa using hne.symm
          rw [List.erase_of_not_mem ha, value_concat (by simp), hten]
          rfl
      · split <;> omega
    · split <;> omega
    · rcases hnumber with ⟨rfl, hl⟩ | ⟨rfl, hl⟩
      · simp [hl, hnine]
      · simp [hl]
        omega
  · -- an `a`: ten more than what stands before it
    refine ⟨l.text, [], (if lead = [] then 10 else 11), (List.append_nil _).symm,
      ⟨l.text_ne_nil, ?_⟩, stops_nil _, ?_, ?_, ?_⟩
    · rw [htext]
      exact hclass ['a'] (List.all_eq_true.mp rfl)
    · rw [htext, stringRegToInt_zeros k (n := if lead = [] then 0 else 1)]
      · rw [if_pos (by simp)]
        split <;> rfl
      · rcases hnumber with ⟨rfl, -⟩ | ⟨rfl, -⟩
        · exact .inr ⟨rfl, rfl⟩
        · exact .inl rfl
      · split <;> omega
    · split <;> omega
    · rcases hnumber with ⟨rfl, hl⟩ | ⟨rfl, hl⟩
      · simp [hl, hmem]
      · simp [hl]
  · -- any other digit ends the operand
    refine ⟨'0' :: 'x' :: (List.replicate k '0' ++ lead), [c], (if lead = [] then 0 else 1), ?_,
      ⟨by simp, ?_⟩, stops_cons hreg, ?_, ?_, ?_⟩
    · rw [htext]
      simp
    · have hpre := hclass [] (by simp)
      rwa [List.append_nil] at hpre
    · rw [stringRegToInt_zeros k (n := if lead = [] then 0 else 1)]
      · rw [if_neg (by rcases hnumber with ⟨rfl, -⟩ | ⟨rfl, -⟩ <;> simp)]
      · rcases hnumber with ⟨rfl, -⟩ | ⟨rfl, -⟩
        · exact .inr ⟨rfl, rfl⟩
        · exact .inl rfl
      · split <;> omega
    · split <;> omega
    · rcases hnumber with ⟨rfl, hl⟩ | ⟨rfl, hl⟩
      · simp [hl, hmem, hne]
        omega
      · simp [hl]
        omega

/-! ## The encoder -/

theorem csrAddress_literal (l : HexLiteral) : csrAddress l.text = l.text := by
  have hm : ∀ name : CsrName, String.ofList l.text ≠ String.ofList name.text := by
    intro name h
    have htext : l.text = name.text := String.ofList_injective h
    have hmem : 'm' ∈ l.text := by
      rw [htext]
      cases name <;> decide
    exact l.not_mem_text rfl (by decide) hmem
  unfold csrAddress
  split
  all_goals first | rfl | skip
  · next h => exact absurd h (hm .mstatus)
  · next h => exact absurd h (hm .mie)
  · next h => exact absurd h (hm .mtvec)
  · next h => exact absurd h (hm .mscratch)
  · next h => exact absurd h (hm .mepc)
  · next h => exact absurd h (hm .mcause)
  · next h => exact absurd h (hm .mtval)
  · next h => exact absurd h (hm .mip)

theorem CsrOperand.read (csr : CsrOperand) :
    stringHexToInt (csrAddress csr.text) = .ok (BitVec.ofInt 64 (csr.addr : ℤ)) ∧
      csr.addr < 4096 ∧ csr.text ≠ [] ∧ ∀ c ∈ csr.text, isWord c = true := by
  cases csr with
  | name c =>
    have hword : ∀ c : CsrName, c.text ≠ [] ∧ c.text.all isWord = true := by
      intro c
      cases c <;> decide
    refine ⟨?_, ?_, (hword c).1, List.all_eq_true.mp (hword c).2⟩
    · cases c <;> decide +kernel
    · cases c <;> decide
  | number l fits =>
    refine ⟨?_, fits, l.text_ne_nil, l.isWord_text⟩
    show stringHexToInt (csrAddress l.text) = .ok (BitVec.ofInt 64 (l.number : ℤ))
    rw [csrAddress_literal]
    exact l.stringHexToInt_text (by omega)

/-- The operand is read up to `rest`. -/
theorem CsrSource.read (source : CsrSource) :
    ∃ pre rest n, source.text = pre ++ rest ∧ (pre ≠ [] ∧ ∀ c ∈ pre, isRegister c = true) ∧
      Stops isRegister rest ∧ stringRegToInt pre = .ok (BitVec.ofInt 64 ((n : ℕ) : ℤ)) ∧ n < 32 ∧
      (BitVec.ofNat 5 n = source.number ↔ source.Readable) := by
  cases source with
  | register r =>
    refine ⟨r.text, [], r.number.toNat, (List.append_nil _).symm,
      ⟨r.text_ne_nil, r.isRegister_text⟩, stops_nil _, ?_, r.number.isLt, ?_⟩
    · rw [r.stringRegToInt_text, BitVec.ofInt_natCast, BitVec.ofNat_toNat]
    · simp [number, Readable]
  | immediate l zeroX fits =>
    obtain ⟨pre, rest, n, htext, hpre, hrest, hread, hn, hiff⟩ := immediate_read l zeroX fits
    refine ⟨pre, rest, n, htext, hpre, hrest, hread, hn, ?_⟩
    rw [Readable, ← hiff]
    constructor
    · intro h
      have hnat := congrArg BitVec.toNat h
      rwa [number, BitVec.toNat_ofNat, BitVec.toNat_ofNat, Nat.mod_eq_of_lt hn,
        Nat.mod_eq_of_lt fits] at hnat
    · rintro rfl
      rfl

theorem csrMnemonic_class (op : Zicsr.Op) (imm : Bool) : csrMnemonic op imm ≠ [] ∧
    ∀ c ∈ csrMnemonic op imm, "csrwi".toList.contains c = true := by
  cases op <;> cases imm <;> exact ⟨List.cons_ne_nil _ _, List.all_eq_true.mp rfl⟩

/-- `pick` on the reversed array, which the encoder of this format uses. -/
theorem pick_reverse (x : Word) {n : ℕ} (hn : n ≤ 32) :
    pick (wordBits x).reverse (List.range n).reverse = wordBits (x.extractLsb' 0 n) := by
  rw [pick, wordBits, wordBits, bits, bits]
  apply List.map_congr_left
  intro i hi
  have hlt : i < n := by simpa using hi
  have hbit := getD_reverse_wordBits x (i := i) (by omega)
  rw [wordBits, bits] at hbit
  rw [hbit]
  show x.getLsbD i = (x.extractLsb' 0 n).getLsbD i
  rw [BitVec.getLsbD_extractLsb', decide_eq_true hlt, Bool.true_and, Nat.zero_add]

/-- A field of the word, from a number that fits it. -/
theorem pick_number {m k : ℕ} (hm : m < 2 ^ 31) (hk : k ≤ 32) :
    pick (intToBinaryArray (BitVec.ofInt 64 (m : ℤ))).reverse (List.range k).reverse =
      wordBits (BitVec.ofNat k m) := by
  rw [intToBinaryArray_ofInt (by omega) (by omega), pick_reverse _ hk, extractLsb'_ofInt _ hk,
    BitVec.ofInt_natCast]

section Encoder
variable {ctx : Context} {line : CsrLine}

theorem fields_csr {pre rest : Text} (hpre : pre ≠ [] ∧ ∀ c ∈ pre, isRegister c = true)
    (hrest : Stops isRegister rest) (hsource : line.source.text = pre ++ rest) :
    ∃ whole, findStringSubmatch csrExpr line.text =
      [whole, line.mnemonic, line.rd.text, line.csr.text, pre] := by
  obtain ⟨hop, hclass⟩ := csrMnemonic_class line.op line.source.isImmediate
  obtain ⟨-, -, hcsr, hword⟩ := line.csr.read
  have hblank : ∀ c ∈ line.csr.text, isBlank c = false := fun c hc => isWord_not_blank (hword c hc)
  have hblank' : ∀ c ∈ pre, isBlank c = false := fun c hc => isRegister_not_blank (hpre.2 c hc)
  have hhead : ∀ rest : Text,
      Splits [(plus fun c => "csrwi".toList.contains c).capture, plus isBlank, register]
        [line.mnemonic, [' '], line.rd.text] (',' :: rest) := by
    intro rest
    refine ⟨takes_plus rfl rfl hop hclass (stops_cons (by decide)),
      takes_plus rfl rfl (List.cons_ne_nil _ _) (List.all_eq_true.mp rfl) ?_,
      takes_register line.rd (stops_cons (by decide)), trivial⟩
    simp only [List.flatten_cons, List.append_assoc]
    exact stops_append line.rd.text_ne_nil line.rd.not_blank
  have hsplits : Splits csrExpr ([line.mnemonic, [' '], line.rd.text] ++ [[','], [' ']] ++
      [line.csr.text] ++ [[','], [' ']] ++ [pre]) rest := by
    refine splits_append (splits_append (splits_append (splits_append (hhead _) (splits_comma 1 ?_))
      ⟨takes_plus rfl rfl hcsr hword (stops_cons (by decide)), trivial⟩) (splits_comma 1 ?_))
      ⟨takes_plus rfl rfl hpre.1 hpre.2 hrest, trivial⟩
    · simp only [List.flatten_cons, List.append_assoc]
      exact stops_append hcsr hblank
    · simp only [List.flatten_cons, List.append_assoc]
      exact stops_append hpre.1 hblank'
  have hline : line.text = ([line.mnemonic, [' '], line.rd.text] ++ [[','], [' ']] ++
      [line.csr.text] ++ [[','], [' ']] ++ [pre]).flatten ++ rest := by
    simp [CsrLine.text, lineThree, lineTwo, hsource]
  have hfind := find_of_splits hsplits
  rw [← hline] at hfind
  rw [findStringSubmatch, hfind]
  exact ⟨_, rfl⟩

/-- The word of a line, with the number that is read for its last operand. -/
theorem itypeCSR_text (h : ctx.assembly = line.text) :
    ∃ n, itypeCSR ctx = .ok (machineCode (wordBits (iFormat (BitVec.ofNat 12 line.csr.addr)
        (BitVec.ofNat 5 n) (csrFunct3 line.mnemonic) line.rd.number 0b1110011#7))) ∧
      (BitVec.ofNat 5 n = line.source.number ↔ line.source.Readable) := by
  obtain ⟨pre, rest, n, hsource, hpre, hrest, hread, hn, hiff⟩ := line.source.read
  obtain ⟨hcsr, haddr, -, -⟩ := line.csr.read
  obtain ⟨whole, hfields⟩ := fields_csr hpre hrest hsource
  rw [← h] at hfields
  have hrd : line.rd.number.setWidth 64 = BitVec.ofInt 64 (line.rd.number.toNat : ℤ) := by
    rw [BitVec.ofInt_natCast, BitVec.ofNat_toNat]
  have hcsrBits : pick (intToBinaryArray (BitVec.ofInt 64 (line.csr.addr : ℤ))).reverse
      [11, 10, 9, 8, 7, 6, 5, 4, 3, 2, 1, 0] = wordBits (BitVec.ofNat 12 line.csr.addr) :=
    pick_number (k := 12) (by omega) (by decide)
  have hsourceBits : pick (intToBinaryArray (BitVec.ofInt 64 (n : ℤ))).reverse [4, 3, 2, 1, 0] =
      wordBits (BitVec.ofNat 5 n) := pick_number (k := 5) (by omega) (by decide)
  have hrdBits : pick (intToBinaryArray (line.rd.number.setWidth 64)).reverse [4, 3, 2, 1, 0] =
      wordBits line.rd.number := by
    have hlt := line.rd.number.isLt
    have hpick := pick_number (m := line.rd.number.toNat) (k := 5) (by omega) (by decide)
    rw [BitVec.ofNat_toNat, BitVec.setWidth_eq] at hpick
    rw [hrd]
    exact hpick
  refine ⟨n, ?_, hiff⟩
  simp only [itypeCSR, hfields, field_zero, field_succ, ok_bind, hcsr, hread,
    Register.stringRegToInt_text, hcsrBits, hsourceBits, hrdBits, wordBits_append]
  rfl

end Encoder

/-- **A CSR line** is encoded as the word of its operands exactly if it names a register, or an
immediate that reads the same as a register number. -/
theorem csr_encodes_iff (line : CsrLine) (pc : Text) (labels : Labels) :
    (∃ code w, itypeCSR ⟨line.text, pc, labels⟩ = .ok code ∧ readWord code = some w ∧
      CsrFields w line.instr) ↔ line.source.Readable := by
  have hassembly : (⟨line.text, pc, labels⟩ : Context).assembly = line.text := rfl
  obtain ⟨n, hcode, hiff⟩ := itypeCSR_text hassembly
  rw [← hiff]
  set w : Word := iFormat (BitVec.ofNat 12 line.csr.addr) (BitVec.ofNat 5 n)
    (csrFunct3 line.mnemonic) line.rd.number 0b1110011#7 with hw
  have hfields := iFormat_fields (BitVec.ofNat 5 n) line.rd.number (csrFunct3 line.mnemonic)
    0b1110011#7 (BitVec.ofNat 12 line.csr.addr)
  rw [← hw] at hfields
  constructor
  · rintro ⟨code, w', hcode', hword, hw'⟩
    rw [hcode] at hcode'
    obtain rfl := Except.ok.inj hcode'
    rw [readWord_machineCode] at hword
    obtain rfl := Option.some.inj hword
    exact hfields.rs1.symm.trans hw'.rs1
  · intro hn
    refine ⟨_, w, hcode, readWord_machineCode w, ?_, ?_, hfields.rd, hfields.rs1.trans hn, ?_⟩
    · rw [irOpcode, hfields.opcode]
      rfl
    · rw [RangerRisc.funct3, hfields.funct3]
      obtain ⟨op, rd, csr, source⟩ := line
      cases source <;> cases op <;> rfl
    · rw [funct12, hw, iFormat_imm]
      rfl

/-- `csrrwi x3, mie, 0x1F` sets the bits of 1, not of 31. -/
theorem csr_immediate_misread :
    ¬ ∀ (line : CsrLine) (pc : Text) (labels : Labels),
      ∃ code w, itypeCSR ⟨line.text, pc, labels⟩ = .ok code ∧ readWord code = some w ∧
        CsrFields w line.instr := by
  intro h
  let line : CsrLine :=
    ⟨.write, .x 3, .name .mie, .immediate ⟨true, "1F".toList, 31, by decide⟩ rfl (by decide)⟩
  obtain ⟨code, w, hcode, hword, hfields⟩ := h line [] []
  have hread : (itypeCSR ⟨line.text, [], []⟩).toOption.bind readWord = some 0x3040D1F3 := by
    decide +kernel
  rw [hcode] at hread
  obtain rfl : w = 0x3040D1F3 := Option.some.inj (hword.symm.trans hread)
  exact absurd hfields.rs1 (by decide +kernel)

end RangerRisc.Assembler
