import DeliceOS.Elf.Flatten

/-!
# Elf.Coverage

What of the file ends up in the image, and what of it `main` touches. Both depend on the one
section taken for the last: the first in table order with the greatest offset, whatever its type.

* `flat_complete_iff`: when the image is written and holds the contents of every section.
* `main_congr`, `main_fault`: the bytes `main` depends on, and why it faults.
* `reads_inside_iff`: when `main` reads nothing behind the end of the file.
-/

namespace DeliceOS
namespace Elf

open Base

/-- The sections with bytes in the file between its header and the section header table. -/
def contents (faddr : Mem) : List Shdr :=
  (sections faddr).filter fun s =>
    decide (s.HasContents ∧ 0 < s.shOffset.toNat ∧ s.fileEnd ≤ (eShoff faddr).toNat)

/-- `flat` holds each of them, the one with the smallest offset at its beginning. -/
def Holds (faddr : Mem) (flat : List (BitVec 8)) : Prop :=
  ∀ least ∈ (contents faddr).argmin (·.shOffset.toNat), ∀ s ∈ contents faddr,
    ∀ k < s.shSize.toNat, flat[s.shOffset.toNat - least.shOffset.toNat + k]? =
      some (faddr (s.shOffset.toNat + k))

/-- The last section visited ends in the mapping and behind all of them, and the first one visited
is the first of them, or the file repeats itself at that distance. -/
def Covered (fsize : Nat) (faddr : Mem) : Prop :=
  ∃ first last, first ∈ (visited faddr).argmin (·.shOffset.toNat) ∧
    last ∈ (visited faddr).argmax (·.shOffset.toNat) ∧
    last.fileEnd % 2 ^ 32 ≤ mapped fsize ∧
    ∀ least ∈ (contents faddr).argmin (·.shOffset.toNat), ∀ s ∈ contents faddr,
      s.shSize.toNat ≠ 0 →
        first.shOffset.toNat + (s.shOffset.toNat - least.shOffset.toNat) + s.shSize.toNat ≤
          last.fileEnd % 2 ^ 32 ∧
        (first.shOffset = least.shOffset ∨ ∀ k < s.shSize.toNat,
          faddr (first.shOffset.toNat + (s.shOffset.toNat - least.shOffset.toNat) + k) =
            faddr (s.shOffset.toNat + k))

variable {fsize : Nat} {faddr : Mem} {flat : List (BitVec 8)}

theorem visited_inImage {s : Shdr} (h : s ∈ visited faddr) :
    0 < s.shOffset.toNat ∧ s.shOffset.toNat < (eShoff faddr).toNat := by
  have hin := (List.mem_filter.mp h).2
  simpa [inImage, BitVec.lt_def] using hin

theorem WellFormed.visited_lt (hwf : WellFormed fsize faddr) {s : Shdr} (h : s ∈ visited faddr) :
    s.shOffset.toNat < fsize := by
  have hin := (visited_inImage h).2
  have htable := hwf.table.2
  omega

theorem le_mapped (fsize : Nat) : fsize ≤ mapped fsize := by
  unfold mapped pageSize
  omega

theorem shdrReadEnd_le (faddr : Mem) (shOff : BitVec 64) (a : Nat) :
    shdrReadEnd faddr shOff a ≤ a + shdrSize := by
  unfold shdrReadEnd shdrSize
  split <;> omega

theorem entry_le {n ii : Nat}
    (htable : (eShoff faddr).toNat + shdrSize * (eShnum faddr).toNat ≤ n)
    (h : ii < (eShnum faddr).toNat) : (eShoff faddr).toNat + shdrSize * ii + shdrSize ≤ n := by
  have hmul : shdrSize * (ii + 1) ≤ shdrSize * (eShnum faddr).toNat := Nat.mul_le_mul_left _ h
  rw [Nat.mul_add] at hmul
  omega

theorem headersMapped_of_table
    (htable : (eShoff faddr).toNat + shdrSize * (eShnum faddr).toNat ≤ mapped fsize) :
    headersMapped fsize faddr (eShoff faddr) ((eShnum faddr).setWidth 8) := by
  refine List.all_eq_true.mpr fun ii hii => decide_eq_true ?_
  rw [List.mem_range, entrySh_toNat] at hii
  have hentry := entry_le htable (show ii < (eShnum faddr).toNat by omega)
  have hend := shdrReadEnd_le faddr (eShoff faddr) ((eShoff faddr).toNat + shdrSize * ii)
  omega

theorem WellFormed.headersMapped (hwf : WellFormed fsize faddr) :
    headersMapped fsize faddr (eShoff faddr) ((eShnum faddr).setWidth 8) :=
  headersMapped_of_table (Nat.le_trans hwf.table.2 (le_mapped fsize))

theorem WellFormed.ehdr_mapped (hwf : WellFormed fsize faddr) : ehdrSize ≤ mapped fsize := by
  have htable := hwf.table
  have hmapped := le_mapped fsize
  unfold ehdrSize
  omega

/-- With a section visited, the tests of `main` are passed. -/
theorem WellFormed.tested (hwf : WellFormed fsize faddr) {s : Shdr} (h : s ∈ visited faddr) :
    Tested fsize faddr := by
  obtain ⟨-, h1, h2, h3, -⟩ := hwf.ident
  refine ⟨hwf.ehdr_mapped, ⟨h1, h2, h3⟩, ?_, hwf.headersMapped⟩
  refine Nat.pos_of_ne_zero fun h0 => ?_
  simp [visited, h0] at h

/-- `main` gets to the image once it has visited a section. -/
theorem WellFormed.main_eq (hwf : WellFormed fsize faddr)
    (hsmall : ∀ s ∈ visited faddr, s.shOffset.toNat < 2 ^ 32) {first last : Shdr}
    (hfirst : first ∈ (visited faddr).argmin (·.shOffset.toNat))
    (hlast : last ∈ (visited faddr).argmax (·.shOffset.toNat)) :
    main fsize faddr = writeImage fsize faddr ((header first).offset.setWidth 64)
      (((header last).offset + (header last).size).setWidth 64) := by
  rw [(hwf.tested (List.argmin_mem hfirst)).main_eq, fheaders_eq, minElement_header hsmall,
    maxElement_header hsmall, hfirst, hlast]
  rfl

theorem imageBytes_getElem? (lo hi : BitVec 64) (i : Nat) :
    (imageBytes faddr lo hi)[i]? =
      if lo.toNat + i < hi.toNat then some (faddr (lo.toNat + i)) else none := by
  rw [imageBytes, List.getElem?_map]
  by_cases h : lo.toNat + i < hi.toNat
  · rw [if_pos h, List.getElem?_range' (by omega)]
    simp
  · rw [if_neg h, List.getElem?_eq_none (by simp only [List.length_range']; omega)]
    rfl

/-! ## Completeness -/

/-- A section lies in the image where it should if and only if the image reaches that far and
has its bytes there. -/
theorem section_held_iff {lo hi : BitVec 64} {s : Shdr} {i : Nat} :
    (∀ k < s.shSize.toNat, (imageBytes faddr lo hi)[i + k]? = some (faddr (s.shOffset.toNat + k))) ↔
      (s.shSize.toNat ≠ 0 → lo.toNat + i + s.shSize.toNat ≤ hi.toNat ∧
        ∀ k < s.shSize.toNat, faddr (lo.toNat + i + k) = faddr (s.shOffset.toNat + k)) := by
  simp only [imageBytes_getElem?, ← Nat.add_assoc]
  constructor
  · intro h hne
    refine ⟨?_, fun k hk => ?_⟩
    · by_contra hlt
      have hlast := h (s.shSize.toNat - 1) (by omega)
      rw [if_neg (by omega)] at hlast
      cases hlast
    · have hbyte := h k hk
      split at hbyte
      · exact Option.some.inj hbyte
      · cases hbyte
  · intro h k hk
    obtain ⟨hend, hbytes⟩ := h (by omega)
    rw [if_pos (by omega), hbytes k hk]

/-- For a well-formed file below 4 GiB, `main` writes an image with the contents of all sections if
and only if they are covered by what it visits. -/
theorem flat_complete_iff (hwf : WellFormed fsize faddr) (hsize : fsize < 2 ^ 32) :
    (∃ flat, main fsize faddr = .ok flat ∧ Holds faddr flat) ↔ Covered fsize faddr := by
  have hsmall : ∀ s ∈ visited faddr, s.shOffset.toNat < 2 ^ 32 := fun s hs =>
    Nat.lt_trans (hwf.visited_lt hs) hsize
  constructor
  · rintro ⟨flat, hmain, hholds⟩
    obtain ⟨first, last, lo, hi, hfirst, hlast, hflat, hlo, hhi⟩ := main_visited hsmall hmain
    obtain ⟨rfl, hmapped⟩ := writeImage_ok hflat
    rw [hlo, hhi] at hmapped
    refine ⟨first, last, hfirst, hlast, ?_, fun least hleast s hs hne => ?_⟩
    · -- an empty image ends before the first section, which is in the file
      have hstart := hwf.visited_lt (List.argmin_mem hfirst)
      have hle := le_mapped fsize
      omega
    · obtain ⟨hend, hbytes⟩ := section_held_iff.mp (hholds least hleast s hs) hne
      rw [hlo] at hend hbytes
      rw [hhi] at hend
      exact ⟨hend, .inr hbytes⟩
  · rintro ⟨first, last, hfirst, hlast, hmapped, hcover⟩
    obtain ⟨hlo, hhi⟩ := image_bounds (hsmall first (List.argmin_mem hfirst))
      (hsmall last (List.argmax_mem hlast))
    refine ⟨_, (hwf.main_eq hsmall hfirst hlast).trans (if_neg fun hfault => ?_),
      fun least hleast s hs => section_held_iff.mpr fun hne => ?_⟩
    · rw [hhi] at hfault
      exact absurd hmapped (Nat.not_le.mpr hfault.2)
    · obtain ⟨hend, hbytes⟩ := hcover least hleast s hs hne
      rw [hlo, hhi]
      refine ⟨hend, ?_⟩
      rcases hbytes with heq | hbytes
      · intro k _
        have hle := List.le_of_mem_argmin hs hleast
        congr 1
        rw [heq]
        omega
      · exact hbytes

/-! ## Reads -/

/-- The bytes of the section headers `main` looks at. -/
def headerReads (faddr : Mem) : List Nat :=
  (List.range ((eShnum faddr).setWidth 8 : BitVec 8).toNat).flatMap fun ii =>
    List.range' ((eShoff faddr).toNat + shdrSize * ii) shdrSize

/-- The bytes it copies. -/
def copyReads (faddr : Mem) : List Nat :=
  let fheader := fheaders faddr (eShoff faddr) ((eShnum faddr).setWidth 8)
  match minElement comparator fheader, maxElement comparator fheader with
  | some minoffset, some maxoffset =>
    let imageBase : BitVec 64 := minoffset.offset.setWidth 64
    let imageEnd : BitVec 64 := (maxoffset.offset + maxoffset.size).setWidth 64
    List.range' imageBase.toNat (imageEnd.toNat - imageBase.toNat)
  | _, _ => []

theorem mem_copyReads {lo hi : FileHeader} {a : Nat}
    (hlo : minElement comparator
      (fheaders faddr (eShoff faddr) ((eShnum faddr).setWidth 8)) = some lo)
    (hhi : maxElement comparator
      (fheaders faddr (eShoff faddr) ((eShnum faddr).setWidth 8)) = some hi) :
    a ∈ copyReads faddr ↔ (lo.offset.setWidth 64).toNat ≤ a ∧
      a < ((hi.offset + hi.size).setWidth 64).toNat := by
  simp only [copyReads, hlo, hhi, List.mem_range'_1]
  omega

theorem shdrAt_congr {m m' : Mem} {a : Nat}
    (h : ∀ x, a ≤ x → x < a + shdrSize → m x = m' x) : shdrAt m a = shdrAt m' a := by
  unfold shdrSize at h
  simp only [shdrAt]
  rw [Mem.read32_congr fun x _ _ => h x (by omega) (by omega),
    Mem.read64_congr (a := a + 8) fun x _ _ => h x (by omega) (by omega),
    Mem.read64_congr (a := a + 16) fun x _ _ => h x (by omega) (by omega),
    Mem.read64_congr (a := a + 24) fun x _ _ => h x (by omega) (by omega),
    Mem.read64_congr (a := a + 32) fun x _ _ => h x (by omega) (by omega)]

/-- `main` depends on the ELF header and on these bytes only. -/
theorem main_congr {faddr' : Mem} (h : ∀ a, a < ehdrSize ∨ a ∈ headerReads faddr ∨
    a ∈ copyReads faddr → faddr a = faddr' a) : main fsize faddr = main fsize faddr' := by
  unfold ehdrSize at h
  have hident : ∀ i < 64, eIdent faddr i = eIdent faddr' i := fun i hi => h i (.inl hi)
  have hshoff : eShoff faddr = eShoff faddr' :=
    Mem.read64_congr fun x _ _ => h x (.inl (by omega))
  have hshnum : eShnum faddr = eShnum faddr' :=
    Mem.read16_congr fun x _ _ => h x (.inl (by omega))
  have hshdr : ∀ ii ∈ List.range ((eShnum faddr).setWidth 8 : BitVec 8).toNat,
      shdrAt faddr ((eShoff faddr).toNat + shdrSize * ii) =
        shdrAt faddr' ((eShoff faddr).toNat + shdrSize * ii) := by
    intro ii hii
    refine shdrAt_congr fun x hx hx' => h x (.inr (.inl ?_))
    exact List.mem_flatMap.mpr ⟨ii, hii, List.mem_range'_1.mpr ⟨hx, hx'⟩⟩
  have hfheaders : fheaders faddr (eShoff faddr) ((eShnum faddr).setWidth 8) =
      fheaders faddr' (eShoff faddr) ((eShnum faddr).setWidth 8) := by
    unfold fheaders
    rw [List.map_congr_left hshdr]
  have hmapped : headersMapped fsize faddr (eShoff faddr) ((eShnum faddr).setWidth 8) =
      headersMapped fsize faddr' (eShoff faddr) ((eShnum faddr).setWidth 8) := by
    unfold headersMapped shdrReadEnd
    rw [Bool.eq_iff_iff, List.all_eq_true, List.all_eq_true]
    exact forall₂_congr fun ii hii => by rw [hshdr ii hii]
  unfold main
  dsimp only
  rw [← hident 1 (by decide), ← hident 2 (by decide), ← hident 3 (by decide), ← hshoff, ← hshnum,
    ← hfheaders, ← hmapped]
  cases hlo : minElement comparator (fheaders faddr (eShoff faddr) ((eShnum faddr).setWidth 8)) with
  | none => rfl
  | some lo =>
    cases hhi : maxElement comparator
      (fheaders faddr (eShoff faddr) ((eShnum faddr).setWidth 8)) with
    | none => rfl
    | some hi =>
      have hbytes : imageBytes faddr (lo.offset.setWidth 64) ((hi.offset + hi.size).setWidth 64) =
          imageBytes faddr' (lo.offset.setWidth 64) ((hi.offset + hi.size).setWidth 64) := by
        refine List.map_congr_left fun a ha => h a (.inr (.inr ((mem_copyReads hlo hhi).mpr ?_)))
        rw [List.mem_range'_1] at ha
        omega
      simp only [writeImage, hbytes]

/-- A fault is a read behind the mapping. -/
theorem main_fault (h : main fsize faddr = .error .fault) :
    ∃ a, (a < ehdrSize ∨ a ∈ headerReads faddr ∨ a ∈ copyReads faddr) ∧ mapped fsize ≤ a := by
  rcases main_cases fsize faddr with htested | ⟨message, hexit⟩ | ⟨-, hpage | hheaders⟩
  · rw [htested.main_eq] at h
    split at h
    · rename_i lo hi hlo hhi
      unfold writeImage at h
      split at h
      · rename_i hfault
        obtain ⟨hlt, hend⟩ := hfault
        rw [BitVec.lt_def] at hlt
        exact ⟨_, .inr (.inr ((mem_copyReads hlo hhi).mpr ⟨Nat.le_sub_one_of_lt hlt, by omega⟩)),
          Nat.le_sub_one_of_lt hend⟩
      · cases h
    · cases h
  · cases hexit.symm.trans h
  · exact ⟨mapped fsize, .inl hpage, Nat.le_refl _⟩
  · simp only [headersMapped, List.all_eq_true, decide_eq_true_eq, not_forall] at hheaders
    obtain ⟨ii, hii, hlt⟩ := hheaders
    have hend := shdrReadEnd_le faddr (eShoff faddr) ((eShoff faddr).toNat + shdrSize * ii)
    refine ⟨(eShoff faddr).toNat + shdrSize * ii + shdrSize - 1, .inr (.inl ?_), by omega⟩
    exact List.mem_flatMap.mpr ⟨ii, hii, List.mem_range'_1.mpr (by unfold shdrSize; omega)⟩

/-- With an image written, what was copied lies in the mapping. -/
theorem main_copies (h : main fsize faddr = .ok flat) :
    flat = (copyReads faddr).map faddr ∧ ∀ a ∈ copyReads faddr, a < mapped fsize := by
  obtain ⟨lo, hi, hlo, hhi, hflat⟩ := main_ok h
  obtain ⟨rfl, hmapped⟩ := writeImage_ok hflat
  refine ⟨by simp only [copyReads, hlo, hhi]; rfl, fun a ha => ?_⟩
  obtain ⟨hstart, hend⟩ := (mem_copyReads hlo hhi).mp ha
  exact Nat.lt_of_lt_of_le hend (hmapped (Nat.lt_of_le_of_lt hstart hend))

theorem WellFormed.headerReads_lt (hwf : WellFormed fsize faddr) :
    ∀ a ∈ headerReads faddr, a < fsize := by
  intro a ha
  obtain ⟨ii, hii, ha⟩ := List.mem_flatMap.mp ha
  rw [List.mem_range, entrySh_toNat] at hii
  have hentry := entry_le hwf.table.2 (show ii < (eShnum faddr).toNat by omega)
  have hmem := List.mem_range'_1.mp ha
  omega

/-- `main` does not reject the file. It may still fault on its way through it. -/
def Accepts (fsize : Nat) (faddr : Mem) : Prop :=
  ∀ stop, main fsize faddr = .error stop → stop = .fault

/-- The loop over the section headers of a file that is not rejected finds one to keep. -/
theorem WellFormed.image_chosen (hwf : WellFormed fsize faddr) (hacc : Accepts fsize faddr) :
    ∃ lo hi,
      minElement comparator (fheaders faddr (eShoff faddr) ((eShnum faddr).setWidth 8)) = some lo ∧
      maxElement comparator (fheaders faddr (eShoff faddr) ((eShnum faddr).setWidth 8)) =
        some hi := by
  rcases main_cases fsize faddr with htested | ⟨message, hexit⟩ | ⟨-, hpage | hheaders⟩
  · have hmain := htested.main_eq
    split at hmain
    · rename_i lo hi hlo hhi
      exact ⟨lo, hi, hlo, hhi⟩
    · cases hacc _ hmain
  · cases hacc _ hexit
  · exact absurd hwf.ehdr_mapped (Nat.not_le.mpr hpage)
  · exact absurd hwf.headersMapped hheaders

/-- A file that is not rejected is read only within its `fsize` bytes if and only if it has 4 GiB or
the section taken for the last ends, modulo `2 ^ 32`, inside it. -/
theorem reads_inside_iff (hwf : WellFormed fsize faddr) (hacc : Accepts fsize faddr) :
    (∀ a ∈ headerReads faddr ++ copyReads faddr, a < fsize) ↔
      2 ^ 32 ≤ fsize ∨ ∀ last ∈ (visited faddr).argmax (·.shOffset.toNat),
        last.fileEnd % 2 ^ 32 ≤ fsize := by
  obtain ⟨lo, hi, hlo, hhi⟩ := hwf.image_chosen hacc
  by_cases hsize : 2 ^ 32 ≤ fsize
  · -- the end of the image is a 32-bit number
    refine ⟨fun _ => .inl hsize, fun _ a ha => ?_⟩
    rcases List.mem_append.mp ha with ha | ha
    · exact hwf.headerReads_lt a ha
    · obtain ⟨-, hend⟩ := (mem_copyReads hlo hhi).mp ha
      have hlt := (hi.offset + hi.size).isLt
      rw [BitVec.toNat_setWidth, Nat.mod_eq_of_lt (by omega)] at hend
      omega
  · have hsmall : ∀ s ∈ visited faddr, s.shOffset.toNat < 2 ^ 32 := by
      intro s hs
      have hlt := hwf.visited_lt hs
      omega
    obtain ⟨first, hfirst, last, hlast, rfl, rfl⟩ := chosen hsmall hlo hhi
    have hstart := hwf.visited_lt (List.argmin_mem hfirst)
    obtain ⟨hbase, hend⟩ := image_bounds (hsmall first (List.argmin_mem hfirst))
      (hsmall last (List.argmax_mem hlast))
    constructor
    · intro hreads
      refine .inr fun last' hlast' => ?_
      cases Option.mem_unique hlast hlast'
      by_contra hlt
      have hread := hreads fsize (List.mem_append_right _ ((mem_copyReads hlo hhi).mpr
        ⟨by rw [hbase]; omega, by rw [hend]; omega⟩))
      omega
    · rintro (hbig | hinside) a ha
      · exact absurd hbig hsize
      · rcases List.mem_append.mp ha with ha | ha
        · exact hwf.headerReads_lt a ha
        · obtain ⟨-, hlt⟩ := (mem_copyReads hlo hhi).mp ha
          have hle := hinside last hlast
          omega

/-! ## Small files

The bytes `0x40` to `0x4b` are their own positions; the section header table is at `0x50`. -/

def placeHeaders : Nat → List Shdr → Mem → Mem
  | _, [], m => m
  | a, s :: l, m =>
    let m := ((m.write32 (a + 4) s.shType).write64 (a + 8) s.shFlags).write64 (a + 16) s.shAddr
    placeHeaders (a + shdrSize) l ((m.write64 (a + 24) s.shOffset).write64 (a + 32) s.shSize)

def smallElf (l : List Shdr) : Mem :=
  let m : Mem := fun x => if 0x40 ≤ x ∧ x < 0x4c then BitVec.ofNat 8 x else 0
  let m := ((m.write64 0 0x10102464c457f).write64 16 0x1003e0002).write64 24 0x8100
  let m := ((m.write64 40 0x50).write64 48 0x4000000000).write64 56 0x400000
  placeHeaders 0x50 l (m.write32 60 (BitVec.ofNat 32 l.length))

def nullSection : Shdr := ⟨0, 0, 0, 0, 0⟩
def textSection : Shdr := ⟨1, 2, 0x8100, 0x40, 4⟩
def dataSection : Shdr := ⟨1, 3, 0x8104, 0x44, 8⟩

/-- An empty section where `dataSection` begins. -/
def emptySection : Shdr := ⟨1, 3, 0x8104, 0x44, 0⟩

/-- Uninitialised data behind the text. -/
def bssSection : Shdr := ⟨8, 3, 0x8104, 0x44, 0x200⟩

theorem smallElf_wellFormed {l : List Shdr} {n : Nat} (hs : sections (smallElf l) = l)
    (hid : eIdent (smallElf l) 0 = 0x7f ∧ eIdent (smallElf l) 1 = 0x45 ∧
      eIdent (smallElf l) 2 = 0x4c ∧ eIdent (smallElf l) 3 = 0x46 ∧ eIdent (smallElf l) 4 = 2 ∧
      eIdent (smallElf l) 5 = 1 ∧ eIdent (smallElf l) 6 = 1)
    (hentry : (smallElf l).read16 58 = BitVec.ofNat 16 shdrSize)
    (htable : 64 ≤ (eShoff (smallElf l)).toNat ∧
      (eShoff (smallElf l)).toNat + shdrSize * (eShnum (smallElf l)).toNat ≤ n)
    (hcontents : ∀ s ∈ l, s.HasContents → s.fileEnd ≤ n) : WellFormed n (smallElf l) :=
  ⟨hid, hentry, htable, by rwa [hs]⟩

def plainElf : Mem := smallElf [nullSection, textSection, dataSection]

theorem plainElf_wellFormed : WellFormed 272 plainElf :=
  smallElf_wellFormed rfl (by decide) (by decide) (by decide) (by decide)

theorem plainElf_main : main 272 plainElf =
    .ok [0x40, 0x41, 0x42, 0x43, 0x44, 0x45, 0x46, 0x47, 0x48, 0x49, 0x4a, 0x4b] := rfl

theorem flat_complete_plain : ∃ flat, main 272 plainElf = .ok flat ∧ Holds plainElf flat := by
  refine (flat_complete_iff plainElf_wellFormed (by decide)).mpr
    ⟨textSection, dataSection, rfl, rfl, by decide +kernel, ?_⟩
  have hcontents : contents plainElf = [textSection, dataSection] := by decide +kernel
  rw [hcontents]
  intro least hleast s hs _
  cases Option.mem_unique hleast (show textSection ∈ _ from rfl)
  refine ⟨?_, .inl rfl⟩
  rcases List.mem_pair.mp hs with rfl | rfl
  · decide +kernel
  · decide +kernel

theorem reads_inside_plain : Accepts 272 plainElf ∧
    ∀ a ∈ headerReads plainElf ++ copyReads plainElf, a < 272 := by
  have haccepts : Accepts 272 plainElf := fun stop hstop => by cases plainElf_main.symm.trans hstop
  refine ⟨haccepts, (reads_inside_iff plainElf_wellFormed haccepts).mpr (.inr ?_)⟩
  intro last hlast
  cases Option.mem_unique hlast (show dataSection ∈ (visited plainElf).argmax _ from rfl)
  decide +kernel

/-- The empty section is taken for the last one, and the data that begin where it does are lost. -/
theorem shared_offset_lost : ¬ ∀ (fsize : Nat) (faddr : Mem), WellFormed fsize faddr →
    fsize < 2 ^ 32 → 0 < (eShnum faddr).toNat → contents faddr ≠ [] →
    ∃ flat, main fsize faddr = .ok flat ∧ Holds faddr flat := by
  intro h
  obtain ⟨flat, hmain, hholds⟩ := h 336
    (smallElf [nullSection, textSection, emptySection, dataSection])
    (smallElf_wellFormed rfl (by decide) (by decide) (by decide) (by decide)) (by decide)
    (by decide +kernel) (by decide +kernel)
  have himage : main 336 (smallElf [nullSection, textSection, emptySection, dataSection]) =
    .ok [0x40, 0x41, 0x42, 0x43] := rfl
  rw [himage] at hmain
  cases hmain
  have hbyte := hholds textSection rfl dataSection (by decide +kernel) 0 (by decide)
  revert hbyte
  decide +kernel

/-- The image would reach to the end of the uninitialised data, which are not in the file. -/
theorem nobits_read : ¬ ∀ (fsize : Nat) (faddr : Mem), WellFormed fsize faddr →
    (∃ flat, main fsize faddr = .ok flat) → ∀ a ∈ headerReads faddr ++ copyReads faddr, a < fsize := by
  intro h
  have hwf : WellFormed 272 (smallElf [nullSection, textSection, bssSection]) :=
    smallElf_wellFormed rfl (by decide) (by decide) (by decide) (by decide)
  have hread := h 272 _ hwf ⟨_, rfl⟩ 272 (by decide +kernel)
  exact absurd hread (Nat.lt_irrefl _)

end Elf
end DeliceOS
