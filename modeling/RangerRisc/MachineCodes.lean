import RangerRisc.AssemblerMain
import RangerRisc.AssemblerWords

/-! Which instructions get a machine code: every encoder gives one or fails, and `Dispatch` lets
through, without a code, what it has no encoder for. -/

namespace RangerRisc.Assembler

open Numeral Regexp Rv32i

/-- Eight hexadecimal digits. -/
def IsCode (code : Text) : Prop := code.length = 8 ∧ ∀ c ∈ code, (digit 16 c).isSome

instance (code : Text) : Decidable (IsCode code) := inferInstanceAs (Decidable (_ ∧ _))

/-- The instructions of `Dispatch`. -/
def mnemonics : List String :=
  ["jal", "jalr", "lui", "auipc", "ebreak", "lb", "lh", "lw", "lbu", "lhu", "sb", "sh", "sw", "add",
    "sub", "xor", "or", "and", "sll", "srl", "sra", "slt", "sltu", "addi", "xori", "ori", "andi",
    "slli", "srli", "srai", "slti", "sltiu", "beq", "bne", "blt", "bge", "bltu", "bgeu", "csrrw",
    "csrrs", "csrrc", "csrrwi", "csrrsi", "csrrci", "mret"]

def IsListed (instruction : Text) : Prop := String.ofList instruction ∈ mnemonics

instance (instruction : Text) : Decidable (IsListed instruction) :=
  inferInstanceAs (Decidable (_ ∈ _))

/-- What `assemble` takes for the instruction: the first run of lower-case letters. -/
def instructionOf (line : Text) : Text := (findStringSubmatch instrExpr line).getD 1 []

/-! ## Codes -/

theorem isCode_print {n : ℕ} (h : n < 2 ^ 32) : IsCode (print 16 8 n) := by
  refine ⟨?_, (digits_of_value (value_print n (by decide) (by decide) (by decide))).2⟩
  rw [print, List.length_map, List.length_reverse, Nat.length_digitsAppend (by decide) 8 (by omega)]

/-- Bits above the word leave the code as it is, if they are not set. -/
theorem machineCode_zeros (k : ℕ) {l : List Bool} (hl : l ≠ []) :
    machineCode (List.replicate k false ++ l) = machineCode l := by
  have htext : ∀ l : List Bool,
      binaryArrayToString l.reverse true = l.map fun b => digitChar b.toNat := by
    intro l
    rw [binaryArrayToString, if_pos rfl, List.reverse_reverse]
  have hzeros : (List.replicate k false).map (fun b => digitChar b.toNat) =
      List.replicate k '0' := by
    rw [List.map_replicate]
    rfl
  have hbit : ∀ d ∈ l.map Bool.toNat, d < 2 := by
    intro d hd
    obtain ⟨b, -, rfl⟩ := List.mem_map.mp hd
    exact Bool.toNat_lt b
  have hvalue : value 2 (l.map fun b => digitChar b.toNat) =
      some (Nat.ofDigits 2 (l.map Bool.toNat).reverse) := by
    rw [← value_map_digitChar (by decide) hbit (by simpa using hl), List.map_map]
    rfl
  rw [machineCode, machineCode, htext, htext, List.map_append, hzeros, binaryStringToHexString,
    binaryStringToHexString, parseUint, parseUint, value_zeros (by decide) k (by simpa using hl),
    hvalue]

theorem isCode_machineCode {l : List Bool} (h : l.length = 32) (k : ℕ) :
    IsCode (machineCode (List.replicate k false ++ l)) := by
  obtain ⟨x, rfl⟩ := exists_wordBits_of_length h
  have hne : wordBits x ≠ [] := by
    intro hnil
    rw [hnil] at h
    cases h
  rw [machineCode_zeros k hne, machineCode_wordBits]
  exact isCode_print x.isLt

/-! ## Encoders -/

/-- A machine code, or an error. -/
def Codes (r : Except Error Text) : Prop := ∀ code, r = .ok code → IsCode code

theorem Codes.bind {α : Type} {x : Except Error α} {f : α → Except Error Text}
    (h : ∀ a, Codes (f a)) : Codes (x >>= f) := by
  cases x with
  | error e =>
    intro code hcode
    cases hcode
  | ok a => exact h a

theorem Codes.pure {l : List Bool} (h : l.length = 32) : Codes (.ok (machineCode l)) := by
  intro code hcode
  obtain rfl := Except.ok.inj hcode
  exact isCode_machineCode h 0

@[simp] theorem length_pick (arr : List Bool) (is : List ℕ) : (pick arr is).length = is.length :=
  List.length_map _

@[simp] theorem length_regBits (r : BitVec 64) : (regBits r).length = 5 := length_pick _ _

section Encoders
variable (ctx : Context)

theorem codes_rtypeAlu : Codes (rtypeAlu ctx) := by
  unfold rtypeAlu
  repeat refine Codes.bind fun _ => ?_
  exact Codes.pure (by simp)

theorem codes_itypeAlu : Codes (itypeAlu ctx) := by
  unfold itypeAlu
  repeat refine Codes.bind fun _ => ?_
  refine Codes.pure ?_
  split_ifs <;> simp

theorem codes_loads : Codes (loads ctx) := by
  unfold loads
  repeat refine Codes.bind fun _ => ?_
  exact Codes.pure (by simp)

theorem codes_stores : Codes (stores ctx) := by
  unfold stores
  repeat refine Codes.bind fun _ => ?_
  exact Codes.pure (by simp)

theorem codes_btypeBranch : Codes (btypeBranch ctx) := by
  unfold btypeBranch
  repeat refine Codes.bind fun _ => ?_
  exact Codes.pure (by simp)

theorem codes_jal : Codes (jal ctx) := by
  unfold jal
  repeat refine Codes.bind fun _ => ?_
  intro code hcode
  obtain rfl := Except.ok.inj hcode
  simp only [List.append_assoc]
  exact isCode_machineCode (by simp) _

theorem codes_jalr : Codes (jalr ctx) := by
  unfold jalr
  repeat refine Codes.bind fun _ => ?_
  exact Codes.pure (by simp)

theorem codes_utype (opcode : BitVec 7) : Codes (utype opcode ctx) := by
  unfold utype
  repeat refine Codes.bind fun _ => ?_
  exact Codes.pure (by simp)

theorem codes_itypeCSR : Codes (itypeCSR ctx) := by
  unfold itypeCSR
  repeat refine Codes.bind fun _ => ?_
  exact Codes.pure (by simp)

end Encoders

/-! ## `Dispatch` -/

theorem codes_dispatch {instruction : Text} (h : IsListed instruction) (ctx : Context) :
    Codes (dispatch instruction ctx) := by
  unfold dispatch
  split
  all_goals first
    | exact codes_jal ctx
    | exact codes_jalr ctx
    | exact codes_utype ctx _
    | exact codes_loads ctx
    | exact codes_stores ctx
    | exact codes_rtypeAlu ctx
    | exact codes_itypeAlu ctx
    | exact codes_btypeBranch ctx
    | exact codes_itypeCSR ctx
    | exact Codes.pure (by simp)
    | simp_all [IsListed, mnemonics]

/-- The `switch` has no default. -/
theorem dispatch_unlisted {instruction : Text} (h : ¬ IsListed instruction) (ctx : Context) :
    dispatch instruction ctx = .ok [] := by
  unfold dispatch
  split
  all_goals first
    | rfl
    | simp_all [IsListed, mnemonics]

theorem codes_dispatch_iff (instruction : Text) :
    (∀ ctx, Codes (dispatch instruction ctx)) ↔ IsListed instruction := by
  constructor
  · intro hcodes
    by_contra hunlisted
    have hcode := hcodes ⟨[], [], []⟩ [] (dispatch_unlisted hunlisted _)
    exact absurd hcode.1 (by decide)
  · exact fun h ctx => codes_dispatch h ctx

/-! ## The lines of a file -/

/-- An instruction has the code that `Dispatch` gave to its first run of letters. -/
theorem assemble_instruction {labels : LabelMap} {l : MachineLine} {c : CodedLine}
    (htype : l.ltype = .instruction) (h : assemble labels l = .ok c) :
    c.line.ltype = .instruction ∧ ∃ ctx, dispatch (instructionOf l.line) ctx = .ok c.code := by
  rw [assemble, htype] at h
  obtain ⟨instruction, hinstruction, h⟩ := bind_eq_ok h
  obtain ⟨line, -, h⟩ := bind_eq_ok h
  obtain ⟨macCode, hdispatch, h⟩ := bind_eq_ok h
  obtain rfl := Except.ok.inj h
  have hname : instructionOf l.line = instruction := by
    unfold field at hinstruction
    unfold instructionOf
    split at hinstruction
    · next t ht =>
      obtain rfl := Except.ok.inj hinstruction
      rw [List.getD_eq_getElem?_getD, ht]
      rfl
    · cases hinstruction
  rw [hname]
  exact ⟨rfl, _, hdispatch⟩

theorem isCode_ramWord_iff {labels : LabelMap} {l : MachineLine} {c : CodedLine}
    (h : assemble labels l = .ok c) :
    (c.line.ltype = .instruction → IsCode (ramWord c).2) ↔
      (l.ltype = .instruction → IsListed (instructionOf l.line)) := by
  by_cases htype : l.ltype = .instruction
  · obtain ⟨hc, ctx, hdispatch⟩ := assemble_instruction htype h
    have hword : (ramWord c).2 = c.code := by rw [ramWord, hc]
    rw [forall_prop_of_true hc, forall_prop_of_true htype, hword]
    constructor
    · intro hcode
      by_contra hunlisted
      rw [dispatch_unlisted hunlisted] at hdispatch
      rw [← Except.ok.inj hdispatch] at hcode
      exact absurd hcode.1 (by decide)
    · exact fun hlisted => codes_dispatch hlisted ctx _ hdispatch
  · have hc : c.line = l := by
      cases hl : l.ltype with
      | instruction => exact absurd hl htype
      | data | addrRef =>
        rw [assemble, hl] at h
        obtain rfl := Except.ok.inj h
        rfl
    rw [hc]
    simp [htype]

section File
variable {file : List Text} {found : FindLabels} {sects : List Section} {coded : List CodedLine}

/-- **Which instructions end up without a code**: `Dispatch` has a code or an error for what it
lists and only for that, and so has the RAM file of a source that is accepted. -/
theorem coded_iff_listed (hfound : findLabels (scan file) = .ok found)
    (hsects : sections found.labels found.labelNames (scan file) = .ok sects)
    (hcoded : (sects.flatMap Section.lines).mapM (assemble found.labels) = .ok coded) :
    (∀ instruction, (∀ ctx code, dispatch instruction ctx = .ok code → IsCode code) ↔
        IsListed instruction) ∧
      assembleFile file = .ok ⟨found, sects, coded⟩ ∧
      ((∀ c ∈ coded, c.line.ltype = .instruction → IsCode (ramWord c).2) ↔
        ∀ l ∈ sects.flatMap Section.lines, l.ltype = .instruction →
          IsListed (instructionOf l.line)) := by
  refine ⟨codes_dispatch_iff, ?_, ?_⟩
  · rw [assembleFile, assembleLines, hfound, ok_bind, hsects, ok_bind, hcoded]
    rfl
  · have hpairs := forall₂_of_mapM hcoded
    clear hcoded hsects
    generalize sects.flatMap Section.lines = ls at hpairs
    induction hpairs with
    | nil => simp
    | cons hline _ ih =>
      rw [List.forall_mem_cons, List.forall_mem_cons]
      exact and_congr (isCode_ramWord_iff hline) ih

end File

theorem coded_add :
    ∃ coded, assembleFile (oneLine "add x1, x2, x3".toList) =
        .ok ⟨oneLineFound, [⟨"Main".toList,
          [⟨"add x1, x2, x3".toList, .instruction, "00000000".toList, []⟩]⟩], coded⟩ ∧
      ∀ c ∈ coded, c.line.ltype = .instruction → IsCode (ramWord c).2 := by
  let mcl : MachineLine := ⟨"add x1, x2, x3".toList, .instruction, "00000000".toList, []⟩
  have hcoded : (([⟨"Main".toList, [mcl]⟩] : List Section).flatMap Section.lines).mapM
      (assemble oneLineFound.labels) = .ok [⟨mcl, "003100B3".toList⟩] := by decide +kernel
  have hfound : findLabels (scan (oneLine "add x1, x2, x3".toList)) = .ok oneLineFound := by
    decide +kernel
  have hsects : sections oneLineFound.labels oneLineFound.labelNames
      (scan (oneLine "add x1, x2, x3".toList)) = .ok [⟨"Main".toList, [mcl]⟩] := by decide +kernel
  have hall := coded_iff_listed hfound hsects hcoded
  exact ⟨_, hall.2.1, hall.2.2.mpr (by decide +kernel)⟩

/-- `nop` is accepted, and the RAM file has an address without a word. -/
theorem nop_uncoded :
    ¬ ∀ (file : List Text) (a : Assembly), assembleFile file = .ok a →
      ∀ c ∈ a.lines, c.line.ltype = .instruction → IsCode (ramWord c).2 := by
  intro h
  let mcl : MachineLine := ⟨"nop".toList, .instruction, "00000000".toList, []⟩
  have hfile : assembleFile (oneLine "nop".toList) =
      .ok ⟨oneLineFound, [⟨"Main".toList, [mcl]⟩], [⟨mcl, []⟩]⟩ := by decide +kernel
  exact absurd (h _ _ hfile ⟨mcl, []⟩ List.mem_cons_self rfl).1 (by decide)

end RangerRisc.Assembler
