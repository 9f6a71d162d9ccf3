import RangerRisc.AssemblerMain
import RangerRisc.AssemblerSections
import RangerRisc.Lib.Blocks

/-! The addresses of a RAM file. Each section counts up from the address of its label, and nothing
compares it with where another section begins. -/

namespace RangerRisc.Assembler

open Numeral Blocks

/-! ## The lines of a section -/

def endsSection (start stop line : Text) : Bool := sectionName line = some stop ∧ stop ≠ start

/-- The words of a section: its lines up to the one with the end label. -/
def sectionSize (start stop : Text) (lines : List Text) : ℕ :=
  (lines.takeWhile fun line => !endsSection start stop line).countP (isEmitted start)

/-- What is left for the next section. -/
def sectionRest (start stop : Text) (lines : List Text) : List Text :=
  (lines.dropWhile fun line => !endsSection start stop line).tail

/-- Where a section begins. -/
def sectionStart (labels : LabelMap) (label : Text) : BitVec 64 :=
  match address labels label with
  | .ok pc => pc
  | .error _ => 0

/-- The start and the size of each section. -/
def extents (labels : LabelMap) : List Text → List Text → List (BitVec 64 × ℕ)
  | [], _ => []
  | start :: later, lines =>
    (sectionStart labels start, sectionSize start (later.headD []) lines) ::
      extents labels later (sectionRest start (later.headD []) lines)

section Scan
variable {labels : LabelMap} {start stop : Text} {lines left : List Text} {out : List MachineLine}
  {pc : BitVec 64}

theorem scanSection_addrs (h : scanSection labels start stop pc lines = .ok (out, left)) :
    out.map MachineLine.addr =
        (block pc (sectionSize start stop lines)).map (uintToHexString · false) ∧
      left = sectionRest start stop lines := by
  induction lines generalizing pc out with
  | nil =>
    cases h
    exact ⟨rfl, rfl⟩
  | cons line lines ih =>
    rw [scanSection] at h
    obtain ⟨a, ha, h⟩ := bind_eq_ok h
    rcases sectionLine_cases ha with ⟨he, hstop, rfl⟩ | ⟨hstop, hne, rfl⟩ | ⟨he, hno, ltype, v, rfl⟩
    · have hends : endsSection start stop line = false := by simpa [endsSection] using hstop
      obtain ⟨haddrs, hleft⟩ := ih h
      simp only [sectionSize, sectionRest, List.takeWhile_cons, List.dropWhile_cons, hends,
        Bool.not_false, if_true, List.countP_cons, he]
      exact ⟨haddrs, hleft⟩
    · have hends : endsSection start stop line = true := by simp [endsSection, hstop, hne]
      cases h
      simp only [sectionSize, sectionRest, List.takeWhile_cons, List.dropWhile_cons, hends]
      exact ⟨rfl, rfl⟩
    · have hends : endsSection start stop line = false := by simp [endsSection, hno]
      obtain ⟨⟨out', left'⟩, hrest, h⟩ := bind_eq_ok h
      cases h
      obtain ⟨haddrs, hleft⟩ := ih hrest
      simp only [sectionSize, sectionRest, List.takeWhile_cons, List.dropWhile_cons, hends,
        Bool.not_false, if_true, List.countP_cons, he]
      rw [block_succ, List.map_cons, List.map_cons, haddrs]
      exact ⟨rfl, hleft⟩

end Scan

theorem processSection_addrs {labels : LabelMap} {start stop : Text} {lines left : List Text}
    {sect : Section} (h : processSection labels start stop lines = .ok (sect, left)) :
    sect.lines.map MachineLine.addr =
        (block (sectionStart labels start) (sectionSize start stop lines)).map
          (uintToHexString · false) ∧
      left = sectionRest start stop lines := by
  obtain ⟨pc, hpc, h⟩ := bind_eq_ok h
  obtain ⟨⟨out, left'⟩, hout, h⟩ := bind_eq_ok h
  cases h
  have hstart : sectionStart labels start = pc := by rw [sectionStart, hpc]
  rw [hstart]
  exact scanSection_addrs hout

theorem sections_addrs {labels : LabelMap} {labelNames lines : List Text} {sects : List Section}
    (h : sections labels labelNames lines = .ok sects) :
    (sects.flatMap Section.lines).map MachineLine.addr =
      ((extents labels labelNames lines).flatMap fun b => block b.1 b.2).map
        (uintToHexString · false) := by
  induction labelNames generalizing lines sects with
  | nil => cases h
  | cons start later ih =>
    cases later with
    | nil =>
      obtain ⟨⟨sect, left⟩, hsect, h⟩ := bind_eq_ok h
      cases h
      have haddrs := (processSection_addrs hsect).1
      simpa [extents] using haddrs
    | cons stop later =>
      obtain ⟨⟨sect, left⟩, hsect, h⟩ := bind_eq_ok h
      obtain ⟨sects', hsects, h⟩ := bind_eq_ok h
      cases h
      obtain ⟨haddrs, rfl⟩ := processSection_addrs hsect
      have hrest := ih hsects
      rw [extents, List.flatMap_cons, List.flatMap_cons, List.map_append, List.map_append, hrest,
        haddrs]
      rfl

/-! ## The RAM file -/

theorem ramWord_of_assemble {labels : LabelMap} {l : MachineLine} {c : CodedLine}
    (h : assemble labels l = .ok c) : (ramWord c).1 = l.addr := by
  have hline : c.line.addr = l.addr := by
    unfold assemble at h
    split at h
    · cases h
      rfl
    · cases h
      rfl
    · obtain ⟨_, _, h⟩ := bind_eq_ok h
      obtain ⟨_, _, h⟩ := bind_eq_ok h
      obtain ⟨_, _, h⟩ := bind_eq_ok h
      cases h
      rfl
  rw [← hline, ramWord]
  split <;> rfl

theorem map_addr_of_mapM {labels : LabelMap} {ls : List MachineLine} {coded : List CodedLine}
    (h : ls.mapM (assemble labels) = .ok coded) :
    (coded.map ramWord).map Prod.fst = ls.map MachineLine.addr := by
  have hpairs := forall₂_of_mapM h
  clear h
  induction hpairs with
  | nil => rfl
  | cons hc _ ih =>
    rw [List.map_cons, List.map_cons, List.map_cons, ih, ramWord_of_assemble hc]

theorem uintToHexString_injective : Function.Injective fun v => uintToHexString v false := by
  intro v v' h
  have hvalue : ∀ u : BitVec 64, value 16 (uintToHexString u false) = some u.toNat :=
    fun u => value_print u.toNat (by decide) (by decide) (by decide)
  have hsome := (hvalue v).symm.trans ((congrArg (value 16) h).trans (hvalue v'))
  exact BitVec.eq_of_toNat_eq (Option.some.inj hsome)

section File
variable {file : List Text} {a : Assembly}

theorem addresses_assembleFile (h : assembleFile file = .ok a) :
    a.ramFile.map Prod.fst =
      ((extents a.found.labels a.found.labelNames (scan file)).flatMap fun b => block b.1 b.2).map
        (uintToHexString · false) := by
  obtain ⟨found, hfound, h⟩ := bind_eq_ok h
  obtain ⟨sects, hsects, h⟩ := bind_eq_ok h
  obtain ⟨coded, hcoded, h⟩ := bind_eq_ok h
  cases h
  rw [← sections_addrs hsects]
  exact map_addr_of_mapM hcoded

/-- **Addresses repeat exactly if two sections overlap** (or one is longer than the address space):
the words of a section count up from its label, wherever another section begins. -/
theorem nodup_addresses_iff (h : assembleFile file = .ok a) :
    let sects := extents a.found.labels a.found.labelNames (scan file)
    a.ramFile.map Prod.fst =
        (sects.flatMap fun b => block b.1 b.2).map (uintToHexString · false) ∧
      ((a.ramFile.map Prod.fst).Nodup ↔ (∀ b ∈ sects, b.2 ≤ 2 ^ 64) ∧ sects.Pairwise Apart) := by
  have haddrs := addresses_assembleFile h
  refine ⟨haddrs, ?_⟩
  rw [haddrs, List.nodup_map_iff uintToHexString_injective, nodup_blocks]

end File

/-- Two words at 0 and what stands behind the label `Data`. -/
def dataAt (label : String) : List Text :=
  ["Main: @0".toList, "d: 1".toList, "d: 2".toList, label.toList, "d: 3".toList]

def wordLine (addr value : String) : CodedLine :=
  ⟨⟨"d: ".toList ++ value.toList, .data, addr.toList, value.toList⟩, []⟩

theorem nodup_dataAt :
    ∃ a, assembleFile (dataAt "Data: @4") = .ok a ∧ (a.ramFile.map Prod.fst).Nodup := by
  let first := [wordLine "00000000" "1", wordLine "00000001" "2"]
  let second := [wordLine "00000004" "3"]
  have hfile : assembleFile (dataAt "Data: @4") =
      .ok ⟨⟨5, [("Data".toList, "4".toList), ("Main".toList, "0".toList)],
        ["Main".toList, "Data".toList]⟩,
        [⟨"Main".toList, first.map CodedLine.line⟩, ⟨"Data".toList, second.map CodedLine.line⟩],
        first ++ second⟩ := by decide +kernel
  exact ⟨_, hfile, (nodup_addresses_iff hfile).2.mpr (by decide +kernel)⟩

/-- The second section begins at a word of the first one. -/
theorem dataAt_overlaps :
    ¬ ∀ (file : List Text) (a : Assembly), assembleFile file = .ok a →
      (a.ramFile.map Prod.fst).Nodup := by
  intro h
  let first := [wordLine "00000000" "1", wordLine "00000001" "2"]
  let second := [wordLine "00000001" "3"]
  have hfile : assembleFile (dataAt "Data: @1") =
      .ok ⟨⟨2, [("Data".toList, "1".toList), ("Main".toList, "0".toList)],
        ["Main".toList, "Data".toList]⟩,
        [⟨"Main".toList, first.map CodedLine.line⟩, ⟨"Data".toList, second.map CodedLine.line⟩],
        first ++ second⟩ := by decide +kernel
  have hnodup := h _ _ hfile
  revert hnodup
  decide +kernel

end RangerRisc.Assembler
