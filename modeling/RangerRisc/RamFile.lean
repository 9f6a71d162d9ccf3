import RangerRisc.ConsoleMemory
import RangerRisc.MachineCodes
import RangerRisc.SectionOverlap

/-! The RAM file, from `writeRamFile` of the assembler to `LoadProg` of the console and to
`$readmemh` of `modules/Memory.sv`: what the memory holds when a file that the assembler has written
is loaded. -/

namespace RangerRisc

open Numeral Regexp

/-! ## Writes to distinct places -/

section Writes
variable {α β : Type} [DecidableEq α]

/-- The writes of a list, one after the other. Where there is no value nothing is written. -/
def writes (ws : List (α × Option β)) (f : α → β) : α → β :=
  ws.foldl (fun f w => match w.2 with
    | some v => Function.update f w.1 v
    | none => f) f

variable {ws : List (α × Option β)} {f : α → β} {a : α}

theorem writes_cons (w : α × Option β) (ws : List (α × Option β)) (f : α → β) :
    writes (w :: ws) f = writes ws (Function.update f w.1 (w.2.getD (f w.1))) := by
  unfold writes
  rw [List.foldl_cons]
  cases w.2 with
  | none => rw [Option.getD_none, Function.update_eq_self]
  | some v => rfl

theorem writes_of_not_mem (h : a ∉ ws.map Prod.fst) : writes ws f a = f a := by
  induction ws generalizing f with
  | nil => rfl
  | cons w ws ih =>
    rw [List.map_cons, List.mem_cons, not_or] at h
    rw [writes_cons, ih h.2, Function.update_of_ne h.1]

theorem writes_of_mem (hnodup : (ws.map Prod.fst).Nodup) {w : α × Option β} (hw : w ∈ ws) :
    writes ws f w.1 = w.2.getD (f w.1) := by
  induction ws generalizing f with
  | nil => exact absurd hw List.not_mem_nil
  | cons w' ws ih =>
    obtain ⟨hfresh, hnodup⟩ := List.nodup_cons.mp hnodup
    rw [writes_cons]
    rcases List.mem_cons.mp hw with rfl | hw
    · rw [writes_of_not_mem hfresh, Function.update_self]
    · have hne : w.1 ≠ w'.1 := fun h => hfresh (h ▸ List.mem_map_of_mem hw)
      rw [ih hnodup hw, Function.update_of_ne hne]

end Writes

/-! ## The text of the file -/

namespace Assembler

def writeRamFile (a : Assembly) : Text :=
  a.ramFile.flatMap fun w => Console.ramLine w.1 w.2 ++ ['\n']

theorem isRawDigit_of_isHex {c : Char} (h : Console.isHex c = true) : isRawDigit c = true := by
  have htrans : ∀ {b d : Char}, c ≤ b → b ≤ d → c ≤ d := fun hb hd => Nat.le_trans hb hd
  simp only [Console.isHex, Bool.or_eq_true, decide_eq_true_eq] at h
  rcases h with (⟨hlow, hhigh⟩ | ⟨hlow, hhigh⟩) | ⟨hlow, hhigh⟩
  · have hz : c ≤ 'z' := htrans hhigh (by decide)
    simp [isRawDigit, isLower, hlow, hz]
  · have hz : c ≤ 'z' := htrans hhigh (by decide)
    simp [isRawDigit, hlow, hz]
  · simp [isRawDigit, isDecimal, hlow, hhigh]

theorem isRawDigit_of_value {s : Text} {n : ℕ} (h : value 16 s = some n) :
    ∀ c ∈ s, isRawDigit c = true :=
  fun c hc => isRawDigit_of_isHex (Console.isHex_of_digit ((digits_of_value h).2 c hc))

theorem value_uintToHexString (v : BitVec 64) : value 16 (uintToHexString v false) = some v.toNat :=
  value_print v.toNat (by decide) (by decide) (by decide)

theorem isRawDigit_of_matchRaw {line v : Text} (h : matchRaw line = some v) :
    ∀ c ∈ v, isRawDigit c = true := by
  unfold matchRaw findStringSubmatch at h
  cases hm : find rawExpr line with
  | none =>
    rw [hm] at h
    cases h
  | some m =>
    obtain ⟨pre, ss, rest, -, hfits, rfl⟩ := exists_pieces_of_find hm
    obtain _ | ⟨-, hfits⟩ := hfits
    obtain _ | ⟨-, hfits⟩ := hfits
    obtain _ | ⟨-, hfits⟩ := hfits
    obtain _ | ⟨-, hfits⟩ := hfits
    obtain _ | ⟨hword, hfits⟩ := hfits
    obtain _ | _ := hfits
    rw [hm] at h
    cases h
    exact hword.cls

section File
variable {labels : LabelMap} {start stop : Text}

/-- The source line that a machine line comes from. -/
def ComesFrom (labels : LabelMap) (m : MachineLine) : Prop :=
  ∃ start stop pc line ltype value, sectionLine labels start stop (trim line) =
    .ok (.emit ltype value) ∧ m = ⟨trim line, ltype, uintToHexString pc false, value⟩

theorem comesFrom_scanSection {lines left : List Text} {out : List MachineLine} {pc : BitVec 64}
    (h : scanSection labels start stop pc lines = .ok (out, left)) :
    ∀ m ∈ out, ComesFrom labels m := by
  induction lines generalizing out pc with
  | nil =>
    cases h
    exact List.forall_mem_nil _
  | cons line lines ih =>
    rw [scanSection] at h
    obtain ⟨a, ha, h⟩ := bind_eq_ok h
    cases a with
    | skip => exact ih h
    | finish =>
      cases h
      exact List.forall_mem_nil _
    | emit ltype value =>
      obtain ⟨⟨out', left'⟩, hrest, h⟩ := bind_eq_ok h
      cases h
      exact List.forall_mem_cons.mpr ⟨⟨start, stop, pc, line, ltype, value, ha, rfl⟩, ih hrest⟩

theorem comesFrom_processSection {lines left : List Text} {sect : Section}
    (h : processSection labels start stop lines = .ok (sect, left)) :
    ∀ m ∈ sect.lines, ComesFrom labels m := by
  obtain ⟨pc, -, h⟩ := bind_eq_ok h
  obtain ⟨⟨out, left'⟩, hout, h⟩ := bind_eq_ok h
  cases h
  exact comesFrom_scanSection hout

/-- **No line is made up.** -/
theorem comesFrom_sections {labelNames lines : List Text} {sects : List Section}
    (h : sections labels labelNames lines = .ok sects) :
    ∀ m ∈ sects.flatMap Section.lines, ComesFrom labels m := by
  induction labelNames generalizing lines sects with
  | nil => cases h
  | cons start later ih =>
    cases later with
    | nil =>
      obtain ⟨⟨sect, left⟩, hsect, h⟩ := bind_eq_ok h
      cases h
      simpa using comesFrom_processSection hsect
    | cons stop later =>
      obtain ⟨⟨sect, left⟩, hsect, h⟩ := bind_eq_ok h
      obtain ⟨sects', hsects, h⟩ := bind_eq_ok h
      cases h
      rw [List.flatMap_cons, List.forall_mem_append]
      exact ⟨comesFrom_processSection hsect, ih hsects⟩

theorem isRawDigit_of_sectionLine {line v : Text} {ltype : LineType}
    (h : sectionLine labels start stop line = .ok (.emit ltype v)) :
    ∀ c ∈ v, isRawDigit c = true := by
  unfold sectionLine at h
  split at h
  · cases h
  split at h
  · cases h
  split at h
  · cases h
  split at h
  · next hraw =>
    cases h
    exact isRawDigit_of_matchRaw hraw
  · split at h
    · cases h
    · cases h
      exact isRawDigit_of_value (value_uintToHexString _)
    · dsimp only at h
      split_ifs at h <;> cases h
      exact List.forall_mem_nil _

/-- The address and the word of a line have nothing but letters, digits and what stands between the
upper and the lower case. -/
theorem isRawDigit_of_assemble {m : MachineLine} {c : CodedLine} (hm : ComesFrom labels m)
    (h : assemble labels m = .ok c) :
    (∀ x ∈ (ramWord c).1, isRawDigit x = true) ∧ ∀ x ∈ (ramWord c).2, isRawDigit x = true := by
  obtain ⟨start, stop, pc, line, ltype, v, hline, rfl⟩ := hm
  refine ⟨?_, ?_⟩
  · rw [ramWord_of_assemble h]
    exact isRawDigit_of_value (value_uintToHexString pc)
  · cases ltype with
    | data | addrRef =>
      obtain rfl := Except.ok.inj h
      exact isRawDigit_of_sectionLine hline
    | instruction =>
      obtain ⟨hc, ctx, hdispatch⟩ := assemble_instruction rfl h
      have hword : (ramWord c).2 = c.code := by rw [ramWord, hc]
      rw [hword]
      by_cases hlisted : IsListed (instructionOf (trim line))
      · have hcode := codes_dispatch hlisted ctx _ hdispatch
        exact fun x hx => isRawDigit_of_isHex (Console.isHex_of_digit (hcode.2 x hx))
      · rw [dispatch_unlisted hlisted] at hdispatch
        rw [← Except.ok.inj hdispatch]
        exact List.forall_mem_nil _

theorem isRawDigit_of_mapM {ms : List MachineLine} {coded : List CodedLine}
    (hms : ∀ m ∈ ms, ComesFrom labels m) (h : ms.mapM (assemble labels) = .ok coded) :
    ∀ w ∈ coded.map ramWord,
      (∀ x ∈ w.1, isRawDigit x = true) ∧ ∀ x ∈ w.2, isRawDigit x = true := by
  have hpairs := forall₂_of_mapM h
  clear h
  induction hpairs with
  | nil => exact List.forall_mem_nil _
  | cons hc _ ih =>
    obtain ⟨hm, hms⟩ := List.forall_mem_cons.mp hms
    rw [List.map_cons, List.forall_mem_cons]
    exact ⟨isRawDigit_of_assemble hm hc, ih hms⟩

theorem isRawDigit_ramFile {file : List Text} {a : Assembly} (h : assembleFile file = .ok a) :
    ∀ w ∈ a.ramFile, (∀ x ∈ w.1, isRawDigit x = true) ∧ ∀ x ∈ w.2, isRawDigit x = true := by
  obtain ⟨found, -, h⟩ := bind_eq_ok h
  obtain ⟨sects, hsects, h⟩ := bind_eq_ok h
  obtain ⟨coded, hcoded, h⟩ := bind_eq_ok h
  cases h
  exact isRawDigit_of_mapM (comesFrom_sections hsects) hcoded

end File

end Assembler

/-! ## Reading it back -/

namespace Console

open Assembler (IsCode readWord)

/-- The lines that `getline` finds. -/
def getLines (file : Text) : List Text :=
  let lines := file.splitOnP (· == '\n')
  if lines.getLast? = some [] then lines.dropLast else lines

theorem getLines_cons {line : Text} (h : '\n' ∉ line) (file : Text) :
    getLines (line ++ '\n' :: file) = line :: getLines file := by
  have hcalm : ∀ c ∈ line, (c == '\n') = false := by
    intro c hc
    rw [beq_eq_false_iff_ne]
    rintro rfl
    exact h hc
  have hne : file.splitOnP (· == '\n') ≠ [] := List.splitOnP_ne_nil _ _
  unfold getLines
  rw [List.splitOnP_append_cons_of_forall_mem hcalm _ (by decide)]
  obtain ⟨l, ls, hls⟩ := List.exists_cons_of_ne_nil hne
  rw [hls]
  simp only [List.getLast?_cons_cons, List.dropLast_cons_cons]
  split <;> rfl

theorem getLines_flatMap {lines : List Text} (h : ∀ line ∈ lines, '\n' ∉ line) :
    getLines (lines.flatMap (· ++ ['\n'])) = lines := by
  induction lines with
  | nil => rfl
  | cons line lines ih =>
    obtain ⟨hline, hlines⟩ := List.forall_mem_cons.mp h
    rw [List.flatMap_cons, List.append_assoc, List.singleton_append, getLines_cons hline, ih hlines]

/-- The word that the expression finds in a line: eight digits, and what follows them is left. -/
def loadedWord (w : Text) : Option Word :=
  let word := w.take 8
  if word.length = 8 ∧ word.all isHex then readWord word else none

theorem digit_of_isHex {c : Char} (h : isHex c = true) : (digit 16 c).isSome = true := by
  have hle : ∀ a b : Char, a ≤ b ↔ a.toNat ≤ b.toNat := fun _ _ => Iff.rfl
  have hdigit : ∃ d < 16, digitValue c = some d := by
    simp only [isHex, Bool.or_eq_true, decide_eq_true_eq, hle] at h
    simp only [digitValue, hle]
    have h0 : '0'.toNat = 48 ∧ '9'.toNat = 57 ∧ 'a'.toNat = 97 ∧ 'f'.toNat = 102 ∧ 'A'.toNat = 65 ∧
      'F'.toNat = 70 ∧ 'z'.toNat = 122 ∧ 'Z'.toNat = 90 := by decide
    split_ifs
    · exact ⟨_, by omega, rfl⟩
    · exact ⟨_, by omega, rfl⟩
    · exact ⟨_, by omega, rfl⟩
    · omega
  obtain ⟨d, hd, hvalue⟩ := hdigit
  rw [digit, hvalue, Option.filter_some, if_pos (decide_eq_true hd)]
  rfl

theorem isCode_iff {w : Text} : IsCode w ↔ w.length = 8 ∧ w.all isHex = true := by
  rw [IsCode, List.all_eq_true]
  exact and_congr_right fun _ =>
    forall₂_congr fun c _ => ⟨fun h => isHex_of_digit h, fun h => digit_of_isHex h⟩

theorem loadedWord_of_take {w : Text} (h : IsCode (w.take 8)) :
    loadedWord w = readWord (w.take 8) :=
  if_pos (isCode_iff.mp h)

theorem loadedWord_eq_none {w : Text} (h : ¬ IsCode (w.take 8)) : loadedWord w = none :=
  if_neg fun hw => h (isCode_iff.mpr hw)

/-- A word of eight digits is read as it stands. -/
theorem loadedWord_of_isCode {w : Text} (h : IsCode w) : loadedWord w = readWord w := by
  have htake : w.take 8 = w := List.take_of_length_le (Nat.le_of_eq h.1)
  rw [loadedWord_of_take (htake.symm ▸ h), htake]

theorem value_of_isCode {w : Text} (h : IsCode w) : ∃ v : Word, value 16 w = some v.toNat := by
  obtain ⟨hlen, hdigits⟩ := h
  obtain ⟨n, hn, hvalue⟩ := exists_value (List.ne_nil_of_length_pos (by omega)) hdigits
  rw [hlen] at hn
  refine ⟨BitVec.ofNat 32 n, ?_⟩
  rw [hvalue, BitVec.toNat_ofNat, Nat.mod_eq_of_lt (by omega)]

section Lines
variable {mem : Mem} {k : BitVec 10} {sa sv : Text}

/-- A line with a word is loaded. -/
theorem loadLine_loaded (hsa : value 16 sa = some k.toNat) (hsv : IsCode (sv.take 8)) :
    ∃ v, loadedWord sv = some v ∧ loadLine mem (ramLine sa sv) =
      some (Function.update mem k v) := by
  obtain ⟨v, hv⟩ := value_of_isCode hsv
  have hk := k.isLt
  have hread : loadedWord sv = some v := by
    rw [loadedWord_of_take hsv, readWord, hv, Option.map_some, BitVec.ofNat_toNat,
      BitVec.setWidth_eq]
  have hsplits : Splits memRegex [['@'], sa, [' '], sv.take 8] (sv.drop 8) :=
    ⟨takes_one '@' _,
      takes_plus rfl rfl (digits_of_value hsa).1
        (fun c hc => isHex_of_digit ((digits_of_value hsa).2 c hc)) (stops_cons (by decide)),
      takes_one ' ' _,
      ⟨fun c hc => isHex_of_digit (hsv.2 c hc), Nat.le_of_eq hsv.1.symm, .inl (by rw [hsv.1])⟩,
      trivial⟩
  have hfind := find_of_splits hsplits
  have hline : [['@'], sa, [' '], sv.take 8].flatten ++ sv.drop 8 = ramLine sa sv := by
    simp [ramLine, List.take_append_drop]
  rw [hline] at hfind
  have hgroups : (pieces memRegex [['@'], sa, [' '], sv.take 8]).groups = [sa, sv.take 8] := rfl
  refine ⟨v, hread, ?_⟩
  rw [loadLine, hfind]
  simp only [hgroups, List.getD_cons_zero, List.getD_cons_succ]
  rw [hexStringToInt_digits hsa (by omega), hexStringToInt_digits hv v.isLt, store_word,
    BitVec.ofNat_toNat, BitVec.setWidth_eq]

/-- **A line whose word is too short is passed over.** -/
theorem loadLine_skipped (hsa : value 16 sa = some k.toNat) (hmark : '@' ∉ sv)
    (hsv : ¬ IsCode (sv.take 8)) : loadLine mem (ramLine sa sv) = some mem := by
  rw [loadLine]
  cases hm : find memRegex (ramLine sa sv) with
  | none => rfl
  | some m =>
    obtain ⟨pre, ss, rest, htext, hfits, -⟩ := exists_pieces_of_find hm
    obtain _ | ⟨hat, hfits⟩ := hfits
    obtain _ | ⟨haddr, hfits⟩ := hfits
    obtain _ | ⟨hspace, hfits⟩ := hfits
    obtain _ | ⟨hword, hfits⟩ := hfits
    obtain _ | _ := hfits
    next at' addr space word =>
    obtain rfl := fits_one hat
    obtain rfl := fits_one hspace
    have hhex : ∀ {t : Text} {c : Char}, (∀ x ∈ t, isHex x = true) → isHex c = false → c ∉ t := by
      intro t c ht hc hmem
      rw [ht c hmem] at hc
      cases hc
    have hsplit : pre ++ '@' :: (addr ++ ' ' :: (word ++ rest)) =
        [] ++ '@' :: (sa ++ ' ' :: sv) := by
      rw [List.nil_append, ← List.cons_append]
      simpa [ramLine] using htext.symm
    have hrest : '@' ∉ sa ++ ' ' :: sv := by
      have hsa' : '@' ∉ sa := hhex
        (fun c hc => isHex_of_digit ((digits_of_value hsa).2 c hc)) (by decide)
      simp [hsa', hmark]
    obtain ⟨-, -, hrest⟩ := (List.append_cons_inj_of_notMem (List.not_mem_nil) hrest).mp hsplit.symm
    have haddr : ∀ c ∈ addr, isHex c = true := haddr.cls
    have hfrom := congrArg (List.dropWhile isHex) hrest
    rw [dropWhile_append_stops (fun c hc => isHex_of_digit ((digits_of_value hsa).2 c hc))
      (stops_cons rfl), dropWhile_append_stops haddr (stops_cons rfl)] at hfrom
    have hlen : word.length = 8 := Nat.le_antisymm (hword.max 8 rfl) hword.min
    have htake : sv.take 8 = word := by
      rw [(List.cons.inj hfrom).2, ← hlen, List.take_left]
    exact absurd (htake ▸ ⟨hlen, fun c hc => digit_of_isHex (hword.cls c hc)⟩) hsv

end Lines

/-! ## The whole file -/

/-- The place in the memory of an address. -/
def wordIndex (addr : Text) : BitVec 10 := BitVec.ofNat 10 ((value 16 addr).getD 0)

/-- An address of one of the 1024 words. -/
def IsIndex (addr : Text) : Prop := ∃ k : BitVec 10, value 16 addr = some k.toNat

theorem IsIndex.value_eq {addr : Text} (h : IsIndex addr) :
    value 16 addr = some (wordIndex addr).toNat := by
  obtain ⟨k, hk⟩ := h
  rw [wordIndex, hk, Option.getD_some, BitVec.ofNat_toNat, BitVec.setWidth_eq]

theorem loadProg_ramLines {ws : List (Text × Text)} (hindex : ∀ w ∈ ws, IsIndex w.1)
    (hmark : ∀ w ∈ ws, '@' ∉ w.2) (mem : Mem) :
    loadProg (ws.map fun w => ramLine w.1 w.2) mem =
      some (writes (ws.map fun w => (wordIndex w.1, loadedWord w.2)) mem) := by
  induction ws generalizing mem with
  | nil => rfl
  | cons w ws ih =>
    obtain ⟨hw, hindex⟩ := List.forall_mem_cons.mp hindex
    obtain ⟨hw', hmark⟩ := List.forall_mem_cons.mp hmark
    have hline : loadLine mem (ramLine w.1 w.2) = some (Function.update mem (wordIndex w.1)
        ((loadedWord w.2).getD (mem (wordIndex w.1)))) := by
      by_cases hcode : IsCode (w.2.take 8)
      · obtain ⟨v, hv, hload⟩ := @loadLine_loaded mem _ _ _ hw.value_eq hcode
        rw [hload, hv, Option.getD_some]
      · have hnone : loadedWord w.2 = none := loadedWord_eq_none hcode
        rw [loadLine_skipped hw.value_eq hw' hcode, hnone, Option.getD_none,
          Function.update_eq_self]
    rw [List.map_cons, List.map_cons, loadProg, List.foldlM_cons, hline, writes_cons]
    exact ih hindex hmark _

/-- The addresses of a file that repeats none are different places. -/
theorem nodup_wordIndex {file : List Text} {a : Assembler.Assembly}
    (h : Assembler.assembleFile file = .ok a) (hindex : ∀ w ∈ a.ramFile, IsIndex w.1)
    (hnodup : (a.ramFile.map Prod.fst).Nodup) :
    (a.ramFile.map fun w => wordIndex w.1).Nodup := by
  have hinj : ∀ s ∈ a.ramFile.map Prod.fst, ∀ t ∈ a.ramFile.map Prod.fst,
      wordIndex s = wordIndex t → s = t := by
    intro s hs t ht heq
    have hindex' : ∀ r ∈ a.ramFile.map Prod.fst, IsIndex r := List.forall_mem_map.mpr hindex
    have hvalue : value 16 s = value 16 t := by
      rw [(hindex' s hs).value_eq, (hindex' t ht).value_eq, heq]
    rw [Assembler.addresses_assembleFile h] at hs ht
    obtain ⟨u, -, rfl⟩ := List.mem_map.mp hs
    obtain ⟨v, -, rfl⟩ := List.mem_map.mp ht
    rw [Assembler.value_uintToHexString, Assembler.value_uintToHexString] at hvalue
    rw [BitVec.eq_of_toNat_eq (Option.some.inj hvalue)]
  have hmap := List.Nodup.map_on hinj hnodup
  rwa [List.map_map] at hmap

theorem not_mem_of_isRawDigit {t : Text} {c : Char} (h : ∀ x ∈ t, Assembler.isRawDigit x = true)
    (hc : Assembler.isRawDigit c = false) : c ∉ t := by
  intro hmem
  rw [h c hmem] at hc
  cases hc

/-- `getline` finds the lines that were written. -/
theorem getLines_writeRamFile {file : List Text} {a : Assembler.Assembly}
    (h : Assembler.assembleFile file = .ok a) :
    getLines (Assembler.writeRamFile a) = a.ramFile.map fun w => ramLine w.1 w.2 := by
  have hcalm : ∀ line ∈ a.ramFile.map fun w => ramLine w.1 w.2, '\n' ∉ line := by
    rw [List.forall_mem_map]
    intro w hw hmem
    obtain ⟨haddr, hword⟩ := Assembler.isRawDigit_ramFile h w hw
    have h1 : '\n' ∉ w.1 := not_mem_of_isRawDigit haddr (by decide)
    have h2 : '\n' ∉ w.2 := not_mem_of_isRawDigit hword (by decide)
    simp [ramLine, h1, h2] at hmem
  rw [← getLines_flatMap hcalm, List.flatMap_map]
  rfl

theorem loadProg_writeRamFile {file : List Text} {a : Assembler.Assembly}
    (h : Assembler.assembleFile file = .ok a) (hindex : ∀ w ∈ a.ramFile, IsIndex w.1) (mem : Mem) :
    loadProg (getLines (Assembler.writeRamFile a)) mem =
      some (writes (a.ramFile.map fun w => (wordIndex w.1, loadedWord w.2)) mem) := by
  rw [getLines_writeRamFile h]
  exact loadProg_ramLines hindex (fun w hw =>
    not_mem_of_isRawDigit (Assembler.isRawDigit_ramFile h w hw).2 (by decide)) mem

section Loaded
variable {file : List Text} {a : Assembler.Assembly} {mem mem' : Mem}
  (h : Assembler.assembleFile file = .ok a) (hindex : ∀ w ∈ a.ramFile, IsIndex w.1)
  (hload : loadProg (getLines (Assembler.writeRamFile a)) mem = some mem')
include h hindex hload

theorem loaded_of_mem (hnodup : (a.ramFile.map Prod.fst).Nodup) {w : Text × Text}
    (hw : w ∈ a.ramFile) :
    mem' (wordIndex w.1) = (loadedWord w.2).getD (mem (wordIndex w.1)) := by
  have hfst : (a.ramFile.map fun w => (wordIndex w.1, loadedWord w.2)).map Prod.fst =
      a.ramFile.map fun w => wordIndex w.1 := by
    rw [List.map_map]
    rfl
  obtain rfl := Option.some.inj ((loadProg_writeRamFile h hindex mem).symm.trans hload)
  exact writes_of_mem (hfst ▸ nodup_wordIndex h hindex hnodup) (List.mem_map_of_mem hw)

theorem loaded_elsewhere {k : BitVec 10} (hk : k ∉ a.ramFile.map fun w => wordIndex w.1) :
    mem' k = mem k := by
  have hfst : (a.ramFile.map fun w => (wordIndex w.1, loadedWord w.2)).map Prod.fst =
      a.ramFile.map fun w => wordIndex w.1 := by
    rw [List.map_map]
    rfl
  obtain rfl := Option.some.inj ((loadProg_writeRamFile h hindex mem).symm.trans hload)
  exact writes_of_not_mem (hfst ▸ hk)

end Loaded

end Console

/-! ## The ROM -/

namespace Memory

open Console (IsIndex ramLine splitString isSpace wordIndex)
open Assembler (IsCode)

/-- One token for `$readmemh`: an address, or a word for the address that has been reached. -/
def readToken (s : ℕ × Mem) (token : List Char) : Option (ℕ × Mem) :=
  match token with
  | '@' :: t => (value 16 t).map fun n => (n, s.2)
  | t => (value 16 t).bind fun v =>
    if s.1 < 1024 then
      some (s.1 + 1, Function.update s.2 (BitVec.ofNat 10 s.1) (BitVec.ofNat 32 v))
    else none

/-- `$readmemh (file, mem)` -/
def readmemh (file : List Char) (mem : Mem) : Option Mem :=
  ((splitString file).foldlM readToken (0, mem)).map Prod.snd

section Tokens
variable {sa sv : List Char} {file : List Char}

theorem splitString_line (hsa : ∀ c ∈ '@' :: sa, isSpace c = false)
    (hsv : ∀ c ∈ sv, isSpace c = false) (hne : sv ≠ []) :
    splitString (ramLine sa sv ++ '\n' :: file) = ('@' :: sa) :: sv :: splitString file := by
  have hsplit : (ramLine sa sv ++ '\n' :: file).splitOnP isSpace =
      ('@' :: sa) :: sv :: file.splitOnP isSpace := by
    have hline : ramLine sa sv ++ '\n' :: file = ('@' :: sa) ++ ' ' :: (sv ++ '\n' :: file) := by
      simp [ramLine]
    rw [hline, List.splitOnP_append_cons_of_forall_mem hsa _ (by decide),
      List.splitOnP_append_cons_of_forall_mem hsv _ (by decide)]
  rw [splitString, hsplit]
  simp [splitString, hne]

/-- The two tokens of a line are one write. -/
theorem readToken_line (hsa : IsIndex sa) (hsv : IsCode sv) (s : ℕ × Mem) :
    (readToken s ('@' :: sa) >>= fun s => readToken s sv) =
      some ((wordIndex sa).toNat + 1, Function.update s.2 (wordIndex sa)
        ((Console.loadedWord sv).getD (s.2 (wordIndex sa)))) := by
  obtain ⟨v, hv⟩ := Console.value_of_isCode hsv
  have hword : ∀ {t : List Char}, IsCode t → ∀ s, readToken s t = (value 16 t).bind fun v =>
      if s.1 < 1024 then
        some (s.1 + 1, Function.update s.2 (BitVec.ofNat 10 s.1) (BitVec.ofNat 32 v))
      else none := by
    intro t ht s
    unfold readToken
    split
    · exact absurd (ht.2 '@' List.mem_cons_self) (by decide)
    · rfl
  have hlt : (wordIndex sa).toNat < 1024 := (wordIndex sa).isLt
  have haddr : readToken s ('@' :: sa) = some ((wordIndex sa).toNat, s.2) := by
    rw [readToken, hsa.value_eq]
    rfl
  rw [haddr, Console.loadedWord_of_isCode hsv, Assembler.readWord, hv]
  show readToken _ sv = _
  rw [hword hsv, hv, Option.bind_some, if_pos hlt, Option.map_some, Option.getD_some,
    BitVec.ofNat_toNat, BitVec.setWidth_eq]

end Tokens

theorem foldlM_readToken {ws : List (List Char × List Char)} (hindex : ∀ w ∈ ws, IsIndex w.1)
    (hcode : ∀ w ∈ ws, IsCode w.2) (s : ℕ × Mem) :
    ((splitString (ws.flatMap fun w => ramLine w.1 w.2 ++ ['\n'])).foldlM readToken
      s).map Prod.snd =
      some (writes (ws.map fun w => (wordIndex w.1, Console.loadedWord w.2)) s.2) := by
  induction ws generalizing s with
  | nil => rfl
  | cons w ws ih =>
    obtain ⟨hw, hindex⟩ := List.forall_mem_cons.mp hindex
    obtain ⟨hw', hcode⟩ := List.forall_mem_cons.mp hcode
    have hsa : ∀ c ∈ '@' :: w.1, isSpace c = false := by
      refine List.forall_mem_cons.mpr ⟨by decide, fun c hc => ?_⟩
      exact Console.not_isSpace_of_digit ((digits_of_value hw.value_eq).2 c hc)
    have hsv : ∀ c ∈ w.2, isSpace c = false := fun c hc =>
      Console.not_isSpace_of_digit (hw'.2 c hc)
    have hne : w.2 ≠ [] := List.ne_nil_of_length_pos (by rw [hw'.1]; decide)
    rw [List.flatMap_cons, List.append_assoc, List.singleton_append, splitString_line hsa hsv hne,
      List.map_cons, writes_cons]
    have hbind : ∀ tokens : List (List Char),
        (('@' :: w.1) :: w.2 :: tokens).foldlM readToken s =
          (readToken s ('@' :: w.1) >>= fun s => readToken s w.2) >>= fun s =>
            tokens.foldlM readToken s := by
      intro tokens
      rw [List.foldlM_cons, bind_assoc]
      simp only [List.foldlM_cons]
    rw [hbind, readToken_line hw hw' s]
    exact ih hindex hcode _

/-- The ROM and the console have the same memory, if every word has eight digits. -/
theorem readmemh_eq_loadProg {file : List (List Char)} {a : Assembler.Assembly}
    (h : Assembler.assembleFile file = .ok a) (hindex : ∀ w ∈ a.ramFile, IsIndex w.1)
    (hcode : ∀ w ∈ a.ramFile, IsCode w.2) (mem : Mem) :
    readmemh (Assembler.writeRamFile a) mem =
      Console.loadProg (Console.getLines (Assembler.writeRamFile a)) mem := by
  rw [Console.loadProg_writeRamFile h hindex]
  exact foldlM_readToken hindex hcode (0, mem)

end Memory

/-- **A RAM file is loaded as it was written.** For the console every word of eight digits is at its
address, a shorter one is passed over, and the rest of the memory is as it was. `$readmemh` leaves
the same memory if no word is short. -/
theorem load_ramFile {file : List (List Char)} {a : Assembler.Assembly}
    (h : Assembler.assembleFile file = .ok a) (hindex : ∀ w ∈ a.ramFile, Console.IsIndex w.1)
    (hnodup : (a.ramFile.map Prod.fst).Nodup) (mem : Mem) :
    ∃ mem', Console.loadProg (Console.getLines (Assembler.writeRamFile a)) mem = some mem' ∧
      (∀ w ∈ a.ramFile, mem' (Console.wordIndex w.1) =
        (Console.loadedWord w.2).getD (mem (Console.wordIndex w.1))) ∧
      (∀ k, k ∉ a.ramFile.map (fun w => Console.wordIndex w.1) → mem' k = mem k) ∧
      ((∀ w ∈ a.ramFile, Assembler.IsCode w.2) →
        Memory.readmemh (Assembler.writeRamFile a) mem = some mem') := by
  have hload := Console.loadProg_writeRamFile h hindex mem
  refine ⟨_, hload, fun w hw => Console.loaded_of_mem h hindex hload hnodup hw,
    fun k hk => Console.loaded_elsewhere h hindex hload hk, fun hcode => ?_⟩
  rw [Memory.readmemh_eq_loadProg h hindex hcode, hload]

/-! ## A program that counts in memory -/

namespace Count

open Assembler

def lines : List (List Char) :=
  ["Main: @0".toList, "  addi x1, x1, 0x5".toList, "  sw x1, @Data(x0)".toList,
    "  jal x0, @Main".toList, "Data: @10".toList, "  d: 0000002A".toList]

def machineLine (text addr : String) : MachineLine := ⟨text.toList, .instruction, addr.toList, []⟩

def assembly : Assembly where
  found := ⟨17, [("Data".toList, "10".toList), ("Main".toList, "0".toList)],
    ["Main".toList, "Data".toList]⟩
  sections := [
    ⟨"Main".toList, [machineLine "addi x1, x1, 0x5" "00000000",
      machineLine "sw x1, @Data(x0)" "00000001", machineLine "jal x0, @Main" "00000002"]⟩,
    ⟨"Data".toList, [⟨"d: 0000002A".toList, .data, "00000010".toList, "0000002A".toList⟩]⟩]
  lines := [
    ⟨machineLine "addi x1, x1, 0x5" "00000000", "00508093".toList⟩,
    ⟨machineLine "sw x1, 00000040(x0)" "00000001", "04102023".toList⟩,
    ⟨machineLine "jal x0, @Main" "00000002", "FF9FF06F".toList⟩,
    ⟨⟨"d: 0000002A".toList, .data, "00000010".toList, "0000002A".toList⟩, []⟩]

theorem assembleFile_lines : assembleFile lines = .ok assembly := by decide +kernel

theorem isIndex : ∀ w ∈ assembly.ramFile, Console.IsIndex w.1 := by
  have hread : ∀ w ∈ assembly.ramFile, value 16 w.1 = some (Console.wordIndex w.1).toNat := by
    decide +kernel
  exact fun w hw => ⟨_, hread w hw⟩

end Count

/-- Four words, over a memory of zeros. -/
theorem load_ramFile_count :
    ∃ mem', Console.loadProg (Console.getLines (Assembler.writeRamFile Count.assembly))
        (fun _ => 0) = some mem' ∧
      (∀ w ∈ Count.assembly.ramFile, mem' (Console.wordIndex w.1) =
        (Console.loadedWord w.2).getD 0) ∧
      (∀ k, k ∉ Count.assembly.ramFile.map (fun w => Console.wordIndex w.1) → mem' k = 0) ∧
      ((∀ w ∈ Count.assembly.ramFile, Assembler.IsCode w.2) →
        Memory.readmemh (Assembler.writeRamFile Count.assembly) (fun _ => 0) = some mem') :=
  load_ramFile Count.assembleFile_lines Count.isIndex (by decide +kernel) fun _ => 0

end RangerRisc
