import DeliceOS.Base.Mem
import DeliceOS.Base.Extremum

/-!
# Elf.Flatten

The flattener: `main` takes the linked kernel apart by its section headers and writes `flat.bin`,
which the boot loader places at `0x8100`.

`faddr` is what the mapping of the input reads as: the `fsize` bytes of the file, then zeros to the
end of the page. A read behind the last page is a fault. The section header count is narrowed to
8 bits, offsets and sizes to 32.

* `main_ok`: the image is one piece of the file, from the first section by offset to the end of
  the last one.
* `flat_placement`: a section's bytes land at its distance, in the file, from the first section,
  and so at its link address if that is the distance it is linked at.
* `placement_by_offset`: link addresses alone do not decide where a section ends up.
-/

namespace DeliceOS
namespace Elf

open Base

/-! ## The file -/

def pageSize : Nat := 4096

/-- `openfile` maps `fsize` bytes, which takes whole pages. -/
def mapped (fsize : Nat) : Nat := (fsize + (pageSize - 1)) / pageSize * pageSize

def ehdrSize : Nat := 64

def eIdent (faddr : Mem) (i : Nat) : BitVec 8 := faddr i
def eShoff (faddr : Mem) : BitVec 64 := faddr.read64 40
def eShnum (faddr : Mem) : BitVec 16 := faddr.read16 60

/-- `Elf64_Shdr`: the fields the flattener or the format's rules look at. -/
structure Shdr where
  shType : BitVec 32
  shFlags : BitVec 64
  shAddr : BitVec 64
  shOffset : BitVec 64
  shSize : BitVec 64
  deriving DecidableEq

def shdrSize : Nat := 64

/-- `(Elf64_Shdr*)(faddr + a)`. -/
def shdrAt (faddr : Mem) (a : Nat) : Shdr where
  shType := faddr.read32 (a + 4)
  shFlags := faddr.read64 (a + 8)
  shAddr := faddr.read64 (a + 16)
  shOffset := faddr.read64 (a + 24)
  shSize := faddr.read64 (a + 32)

/-! ## The flattener -/

structure FileHeader where
  offset : BitVec 32
  size : BitVec 32
  deriving DecidableEq

/-- The constructor narrows both arguments to `uint32_t`. -/
def initheader (offset size : BitVec 64) : FileHeader := ⟨offset.setWidth 32, size.setWidth 32⟩

def comparator (s1 s2 : FileHeader) : Bool := s1.offset < s2.offset

/-- How `main` ends without an image. -/
inductive Stop where
  | exit (message : String)
  | assertion
  | fault
  deriving DecidableEq

/-- The test on a section header in the first loop. -/
def inImage (shOff : BitVec 64) (s : Shdr) : Bool := 0 < s.shOffset && s.shOffset < shOff

/-- The first loop: `fheader` after `entrySh` headers. -/
def fheaders (faddr : Mem) (shOff : BitVec 64) (entrySh : BitVec 8) : List FileHeader :=
  (((List.range entrySh.toNat).map fun ii => shdrAt faddr (shOff.toNat + shdrSize * ii)).filter
    (inImage shOff)).map fun s => initheader s.shOffset s.shSize

/-- The end of what the first loop reads of the section header at `a`: `sh_offset`, and `sh_size`
if the header passes the test. -/
def shdrReadEnd (faddr : Mem) (shOff : BitVec 64) (a : Nat) : Nat :=
  if inImage shOff (shdrAt faddr a) then a + 40 else a + 32

/-- The first loop reads nothing behind the mapping. -/
def headersMapped (fsize : Nat) (faddr : Mem) (shOff : BitVec 64) (entrySh : BitVec 8) : Bool :=
  (List.range entrySh.toNat).all fun ii =>
    decide (shdrReadEnd faddr shOff (shOff.toNat + shdrSize * ii) ≤ mapped fsize)

/-- The bytes from `imageBase` to `imageEnd`. -/
def imageBytes (faddr : Mem) (imageBase imageEnd : BitVec 64) : List (BitVec 8) :=
  (List.range' imageBase.toNat (imageEnd.toNat - imageBase.toNat)).map faddr

/-- `for(ii = image_base; ii < image_end; ii++)`, one `writefile` for each. -/
def writeImage (fsize : Nat) (faddr : Mem) (imageBase imageEnd : BitVec 64) :
    Except Stop (List (BitVec 8)) :=
  if imageBase < imageEnd ∧ mapped fsize < imageEnd.toNat then .error .fault
  else .ok (imageBytes faddr imageBase imageEnd)

/-- What `main` writes to `flat.bin`. -/
def main (fsize : Nat) (faddr : Mem) : Except Stop (List (BitVec 8)) :=
  if mapped fsize < ehdrSize then
    .error .fault
  else if eIdent faddr 1 ≠ 0x45 ∨ eIdent faddr 2 ≠ 0x4c ∨ eIdent faddr 3 ≠ 0x46 then
    .error (.exit "Failed to parse ELF file (file signature has corrupted)\n")
  else
    let shOff := eShoff faddr
    let entrySh : BitVec 8 := (eShnum faddr).setWidth 8
    if ¬ 0 < entrySh then
      .error (.exit "There is no any entry in the section header table\n")
    else if ¬ headersMapped fsize faddr shOff entrySh then
      .error .fault
    else
      let fheader := fheaders faddr shOff entrySh
      match minElement comparator fheader, maxElement comparator fheader with
      | some minoffset, some maxoffset =>
        writeImage fsize faddr (minoffset.offset.setWidth 64)
          ((maxoffset.offset + maxoffset.size).setWidth 64)
      | _, _ => .error .assertion

/-! ## The format -/

def shtNull : BitVec 32 := 0
def shtNobits : BitVec 32 := 8
def shfAlloc : BitVec 64 := 2

/-- The section header table, with the count as the file has it. -/
def sections (faddr : Mem) : List Shdr :=
  (List.range (eShnum faddr).toNat).map fun ii =>
    shdrAt faddr ((eShoff faddr).toNat + shdrSize * ii)

namespace Shdr

def Alloc (s : Shdr) : Prop := s.shFlags &&& shfAlloc ≠ 0

/-- The section has bytes in the file. -/
def HasContents (s : Shdr) : Prop := s.shType ≠ shtNull ∧ s.shType ≠ shtNobits

instance (s : Shdr) : Decidable s.Alloc := inferInstanceAs (Decidable (_ ≠ _))
instance (s : Shdr) : Decidable s.HasContents := inferInstanceAs (Decidable (_ ∧ _))

def fileEnd (s : Shdr) : Nat := s.shOffset.toNat + s.shSize.toNat

end Shdr

/-- A little-endian ELF64 file of `fsize` bytes with its tables and contents inside the file. -/
structure WellFormed (fsize : Nat) (faddr : Mem) : Prop where
  ident : eIdent faddr 0 = 0x7f ∧ eIdent faddr 1 = 0x45 ∧ eIdent faddr 2 = 0x4c ∧
    eIdent faddr 3 = 0x46 ∧ eIdent faddr 4 = 2 ∧ eIdent faddr 5 = 1 ∧ eIdent faddr 6 = 1
  entrySize : faddr.read16 58 = BitVec.ofNat 16 shdrSize
  table : 64 ≤ (eShoff faddr).toNat ∧
    (eShoff faddr).toNat + shdrSize * (eShnum faddr).toNat ≤ fsize
  contents : ∀ s ∈ sections faddr, s.HasContents → s.fileEnd ≤ fsize

/-- The lowest address an allocated section is linked at. -/
def LinkedFrom (faddr : Mem) (a : Nat) : Prop :=
  IsLeast {x | ∃ s ∈ sections faddr, s.Alloc ∧ s.shAddr.toNat = x} a

def loadAddr : Nat := 0x8100

/-- `flat` lies at `a` in memory, as `incbin` puts it at `entry_p`. -/
def Placed (m : Mem) (a : Nat) (flat : List (BitVec 8)) : Prop :=
  ∀ i (h : i < flat.length), m (a + i) = flat[i]

/-- The bytes of the section are at its link address. -/
def AtLinkAddress (faddr m : Mem) (s : Shdr) : Prop :=
  ∀ k < s.shSize.toNat, m (s.shAddr.toNat + k) = faddr (s.shOffset.toNat + k)

/-! ## What the image is -/

variable {fsize : Nat} {faddr : Mem} {flat : List (BitVec 8)}

/-- What `main` has tested before it looks for the first and the last section. -/
structure Tested (fsize : Nat) (faddr : Mem) : Prop where
  page : ehdrSize ≤ mapped fsize
  ident : eIdent faddr 1 = 0x45 ∧ eIdent faddr 2 = 0x4c ∧ eIdent faddr 3 = 0x46
  count : 0 < (eShnum faddr).toNat % 256
  headers : headersMapped fsize faddr (eShoff faddr) ((eShnum faddr).setWidth 8)

theorem entrySh_toNat (faddr : Mem) :
    ((eShnum faddr).setWidth 8).toNat = (eShnum faddr).toNat % 256 := BitVec.toNat_setWidth ..

/-- After the tests `main` takes the image from the first section to the end of the last. -/
theorem Tested.main_eq (h : Tested fsize faddr) : main fsize faddr =
    match minElement comparator (fheaders faddr (eShoff faddr) ((eShnum faddr).setWidth 8)),
      maxElement comparator (fheaders faddr (eShoff faddr) ((eShnum faddr).setWidth 8)) with
    | some lo, some hi =>
      writeImage fsize faddr (lo.offset.setWidth 64) ((hi.offset + hi.size).setWidth 64)
    | _, _ => .error .assertion := by
  obtain ⟨h1, h2, h3⟩ := h.ident
  have hcount : 0 < (eShnum faddr).setWidth 8 := by
    rw [BitVec.lt_def, entrySh_toNat]
    exact h.count
  rw [main, if_neg (Nat.not_lt.mpr h.page), if_neg (by simp [h1, h2, h3])]
  dsimp only
  rw [if_neg (fun hzero => hzero hcount), if_neg (fun hfault => hfault h.headers)]

/-- `main` stops before, or its tests were passed. -/
theorem main_cases (fsize : Nat) (faddr : Mem) : Tested fsize faddr ∨
    (∃ message, main fsize faddr = .error (.exit message)) ∨
    main fsize faddr = .error .fault ∧ (mapped fsize < ehdrSize ∨
      ¬ headersMapped fsize faddr (eShoff faddr) ((eShnum faddr).setWidth 8)) := by
  unfold main
  split
  · rename_i hpage
    exact .inr (.inr ⟨rfl, .inl hpage⟩)
  · rename_i hpage
    split
    · exact .inr (.inl ⟨_, rfl⟩)
    · rename_i hident
      dsimp only
      split
      · exact .inr (.inl ⟨_, rfl⟩)
      · rename_i hcount
        split
        · rename_i hheaders
          exact .inr (.inr ⟨rfl, .inr hheaders⟩)
        · rename_i hheaders
          refine .inl ⟨Nat.not_lt.mp hpage, by tauto, ?_, not_not.mp hheaders⟩
          rw [not_not, BitVec.lt_def, entrySh_toNat] at hcount
          exact hcount

theorem writeImage_ok {lo hi : BitVec 64} (h : writeImage fsize faddr lo hi = .ok flat) :
    flat = imageBytes faddr lo hi ∧ (lo.toNat < hi.toNat → hi.toNat ≤ mapped fsize) := by
  unfold writeImage at h
  split at h
  · cases h
  · rename_i hmapped
    cases h
    exact ⟨rfl, fun hlt => Nat.not_lt.mp fun hfault => hmapped ⟨hlt, hfault⟩⟩

theorem main_tested (h : main fsize faddr = .ok flat) : Tested fsize faddr := by
  rcases main_cases fsize faddr with htested | ⟨message, hexit⟩ | ⟨hfault, -⟩
  · exact htested
  · cases hexit.symm.trans h
  · cases hfault.symm.trans h

theorem main_ok (h : main fsize faddr = .ok flat) :
    ∃ lo hi,
      minElement comparator (fheaders faddr (eShoff faddr) ((eShnum faddr).setWidth 8)) = some lo ∧
      maxElement comparator (fheaders faddr (eShoff faddr) ((eShnum faddr).setWidth 8)) = some hi ∧
      writeImage fsize faddr (lo.offset.setWidth 64) ((hi.offset + hi.size).setWidth 64) =
        .ok flat := by
  rw [(main_tested h).main_eq] at h
  split at h
  · rename_i lo hi hlo hhi
    exact ⟨lo, hi, hlo, hhi, h⟩
  · cases h

theorem imageBytes_placed {m : Mem} {a : Nat} {lo hi : BitVec 64}
    (h : Placed m a (imageBytes faddr lo hi)) {x : Nat} (hlo : lo.toNat ≤ x) (hhi : x < hi.toNat) :
    m (a + (x - lo.toNat)) = faddr x := by
  have hlen : x - lo.toNat < (imageBytes faddr lo hi).length := by
    simp only [imageBytes, List.length_map, List.length_range']
    omega
  rw [h _ hlen]
  simp only [imageBytes, List.getElem_map, List.getElem_range']
  congr 1
  omega

/-- The sections of the table whose headers would pass the test of the first loop. -/
def kept (faddr : Mem) : List Shdr := (sections faddr).filter (inImage (eShoff faddr))

/-- Those that do: the first loop only sees the count modulo 256. -/
def visited (faddr : Mem) : List Shdr :=
  ((List.range ((eShnum faddr).toNat % 256)).map fun ii =>
    shdrAt faddr ((eShoff faddr).toNat + shdrSize * ii)).filter (inImage (eShoff faddr))

theorem visited_eq_kept (hn : (eShnum faddr).toNat < 256) :
    visited faddr = kept faddr := by
  rw [visited, Nat.mod_eq_of_lt hn]
  rfl

def header (s : Shdr) : FileHeader := initheader s.shOffset s.shSize

theorem fheaders_eq (faddr : Mem) :
    fheaders faddr (eShoff faddr) ((eShnum faddr).setWidth 8) = (visited faddr).map header := by
  rw [fheaders, entrySh_toNat]
  rfl

theorem comparator_header {s t : Shdr} (hs : s.shOffset.toNat < 2 ^ 32)
    (ht : t.shOffset.toNat < 2 ^ 32) :
    comparator (header s) (header t) = decide (s.shOffset.toNat < t.shOffset.toNat) := by
  simp only [comparator, header, initheader, BitVec.lt_def, BitVec.toNat_setWidth]
  rw [Nat.mod_eq_of_lt hs, Nat.mod_eq_of_lt ht]

theorem minElement_header {l : List Shdr} (h : ∀ s ∈ l, s.shOffset.toNat < 2 ^ 32) :
    minElement comparator (l.map header) = (l.argmin (·.shOffset.toNat)).map header := by
  rw [minElement, select_map, select_congr fun a ha b hb => comparator_header (h a ha) (h b hb),
    ← minElement_eq_argmin]
  rfl

theorem maxElement_header {l : List Shdr} (h : ∀ s ∈ l, s.shOffset.toNat < 2 ^ 32) :
    maxElement comparator (l.map header) = (l.argmax (·.shOffset.toNat)).map header := by
  rw [maxElement, select_map, select_congr fun a ha b hb => comparator_header (h b hb) (h a ha),
    ← maxElement_eq_argmax]
  rfl

/-- The bounds `main` takes from the first and the last section it visits. -/
theorem image_bounds {first last : Shdr} (hfirst : first.shOffset.toNat < 2 ^ 32)
    (hlast : last.shOffset.toNat < 2 ^ 32) :
    ((header first).offset.setWidth 64).toNat = first.shOffset.toNat ∧
      (((header last).offset + (header last).size).setWidth 64).toNat = last.fileEnd % 2 ^ 32 := by
  constructor
  · simp only [header, initheader, BitVec.toNat_setWidth]
    rw [Nat.mod_eq_of_lt hfirst, Nat.mod_eq_of_lt (by omega)]
  · simp only [header, initheader, BitVec.toNat_setWidth, BitVec.toNat_add, Shdr.fileEnd]
    rw [Nat.mod_eq_of_lt hlast, Nat.add_mod_mod]
    exact Nat.mod_eq_of_lt (Nat.lt_of_lt_of_le (Nat.mod_lt _ (by decide)) (by decide))

/-- With no offset narrowed, the headers found are those of the first and the last section
visited. -/
theorem chosen (hsmall : ∀ s ∈ visited faddr, s.shOffset.toNat < 2 ^ 32) {lo hi : FileHeader}
    (hlo : minElement comparator
      (fheaders faddr (eShoff faddr) ((eShnum faddr).setWidth 8)) = some lo)
    (hhi : maxElement comparator
      (fheaders faddr (eShoff faddr) ((eShnum faddr).setWidth 8)) = some hi) :
    ∃ first ∈ (visited faddr).argmin (·.shOffset.toNat),
      ∃ last ∈ (visited faddr).argmax (·.shOffset.toNat), header first = lo ∧ header last = hi := by
  rw [fheaders_eq, minElement_header hsmall, Option.map_eq_some_iff] at hlo
  rw [fheaders_eq, maxElement_header hsmall, Option.map_eq_some_iff] at hhi
  obtain ⟨first, hfirst, hfirst'⟩ := hlo
  obtain ⟨last, hlast, hlast'⟩ := hhi
  exact ⟨first, hfirst, last, hlast, hfirst', hlast'⟩

/-- The image reaches from the first section to the end of the last, taken modulo `2 ^ 32`. -/
theorem main_visited
    (hsmall : ∀ s ∈ visited faddr, s.shOffset.toNat < 2 ^ 32) (h : main fsize faddr = .ok flat) :
    ∃ first last lo hi, first ∈ (visited faddr).argmin (·.shOffset.toNat) ∧
      last ∈ (visited faddr).argmax (·.shOffset.toNat) ∧
      writeImage fsize faddr lo hi = .ok flat ∧
      lo.toNat = first.shOffset.toNat ∧ hi.toNat = last.fileEnd % 2 ^ 32 := by
  obtain ⟨_, _, hlo, hhi, hflat⟩ := main_ok h
  obtain ⟨first, hfirst, last, hlast, rfl, rfl⟩ := chosen hsmall hlo hhi
  obtain ⟨h1, h2⟩ := image_bounds (hsmall first (List.argmin_mem hfirst))
    (hsmall last (List.argmax_mem hlast))
  exact ⟨first, last, _, _, hfirst, hlast, hflat, h1, h2⟩

/-- With no field narrowed, the image reaches from the first section to the end of the last. -/
theorem main_range {first last : Shdr}
    (hn : (eShnum faddr).toNat < 256) (h : main fsize faddr = .ok flat)
    (hfirst : first ∈ (kept faddr).argmin (·.shOffset.toNat))
    (hlast : last ∈ (kept faddr).argmax (·.shOffset.toNat)) (hend : last.fileEnd < 2 ^ 32) :
    ∃ lo hi, flat = imageBytes faddr lo hi ∧ lo.toNat = first.shOffset.toNat ∧
      hi.toNat = last.fileEnd := by
  rw [← visited_eq_kept hn] at hfirst hlast
  have hsmall : ∀ s ∈ visited faddr, s.shOffset.toNat < 2 ^ 32 := by
    intro s hs
    have hle := List.le_of_mem_argmax hs hlast
    unfold Shdr.fileEnd at hend
    omega
  obtain ⟨first', last', lo, hi, hfirst', hlast', hflat, hlo, hhi⟩ := main_visited hsmall h
  cases Option.mem_unique hfirst hfirst'
  cases Option.mem_unique hlast hlast'
  exact ⟨lo, hi, (writeImage_ok hflat).1, hlo, by rw [hhi, Nat.mod_eq_of_lt hend]⟩

/-! ## Where a section lands -/

/-- The bytes of every section that ends no later than the last one are found behind the load
address at the section's distance from the first. If that is the distance it is linked at, they
are at its link address. -/
theorem flat_placement {m : Mem} {first last : Shdr}
    (hn : (eShnum faddr).toNat < 256) (h : main fsize faddr = .ok flat)
    (hfirst : first ∈ (kept faddr).argmin (·.shOffset.toNat))
    (hlast : last ∈ (kept faddr).argmax (·.shOffset.toNat)) (hend : last.fileEnd < 2 ^ 32)
    (hm : Placed m loadAddr flat) :
    ∀ s ∈ kept faddr, s.fileEnd ≤ last.fileEnd →
      (∀ k < s.shSize.toNat, m (loadAddr + (s.shOffset.toNat - first.shOffset.toNat) + k) =
        faddr (s.shOffset.toNat + k)) ∧
      (s.shAddr.toNat = loadAddr + (s.shOffset.toNat - first.shOffset.toNat) →
        AtLinkAddress faddr m s) := by
  intro s hs hcover
  obtain ⟨lo, hi, hflat, hlo, hhi⟩ := main_range hn h hfirst hlast hend
  rw [hflat] at hm
  have hge := List.le_of_mem_argmin hs hfirst
  have hbytes : ∀ k < s.shSize.toNat,
      m (loadAddr + (s.shOffset.toNat - first.shOffset.toNat) + k) =
        faddr (s.shOffset.toNat + k) := by
    intro k hk
    rw [← imageBytes_placed hm (x := s.shOffset.toNat + k) (by omega)
      (by unfold Shdr.fileEnd at hcover hhi; omega)]
    congr 1
    omega
  exact ⟨hbytes, fun haddr k hk => by rw [haddr]; exact hbytes k hk⟩

/-! ## Two sections with a gap between their addresses -/

/-- An ELF file of `.text` (4 bytes at `0x40`, linked at `0x8100`) and `.data` (8 bytes at `0x44`,
linked at `dataAddr`), its section header table at `0x50`. -/
def twoSections (dataAddr : BitVec 64) : Mem :=
  let m : Mem := fun x => if 0x40 ≤ x ∧ x < 0x4c then BitVec.ofNat 8 x else 0
  let m := ((m.write64 0 0x10102464c457f).write64 16 0x1003e0002).write64 24 0x8100
  let m := ((m.write64 40 0x50).write64 48 0x4000000000).write64 56 0x300400000
  let m := ((m.write64 0x90 0x100000000).write64 0x98 2).write64 0xa0 0x8100
  let m := (m.write64 0xa8 0x40).write64 0xb0 4
  let m := ((m.write64 0xd0 0x100000000).write64 0xd8 3).write64 0xe0 dataAddr
  (m.write64 0xe8 0x44).write64 0xf0 8

def twoSectionsFlat : List (BitVec 8) :=
  [0x40, 0x41, 0x42, 0x43, 0x44, 0x45, 0x46, 0x47, 0x48, 0x49, 0x4a, 0x4b]

/-- Memory with `twoSectionsFlat` at the load address. -/
def twoSectionsMem : Mem := fun x => twoSectionsFlat.getD (x - loadAddr) 0

theorem twoSectionsMem_placed : Placed twoSectionsMem loadAddr twoSectionsFlat := by
  intro i hi
  simp [twoSectionsMem, hi]

/-- Linked at the distance of the file offsets, both sections are where they are linked. -/
theorem flat_placement_two : main 272 (twoSections 0x8104) = .ok twoSectionsFlat ∧
    ∀ s ∈ kept (twoSections 0x8104), AtLinkAddress (twoSections 0x8104) twoSectionsMem s := by
  have hkept : kept (twoSections 0x8104) = [⟨1, 2, 0x8100, 0x40, 4⟩, ⟨1, 3, 0x8104, 0x44, 8⟩] := rfl
  have hfirst : (⟨1, 2, 0x8100, 0x40, 4⟩ : Shdr) ∈
    (kept (twoSections 0x8104)).argmin (·.shOffset.toNat) := rfl
  have hlast : (⟨1, 3, 0x8104, 0x44, 8⟩ : Shdr) ∈
    (kept (twoSections 0x8104)).argmax (·.shOffset.toNat) := rfl
  have hmain : main 272 (twoSections 0x8104) = .ok twoSectionsFlat := rfl
  have hplace := flat_placement (by decide) hmain hfirst hlast (by decide) twoSectionsMem_placed
  refine ⟨hmain, fun s hs => ?_⟩
  rw [hkept] at hs
  rcases List.mem_pair.mp hs with rfl | rfl
  · exact (hplace _ (by rw [hkept]; simp) (by decide)).2 (by decide)
  · exact (hplace _ (by rw [hkept]; simp) (by decide)).2 (by decide)

/-- Linked four bytes further on, `.data` is a well-formed section that ends up elsewhere. -/
theorem placement_by_offset : ¬ ∀ (fsize : Nat) (faddr m : Mem) (flat : List (BitVec 8)),
    WellFormed fsize faddr → LinkedFrom faddr loadAddr → main fsize faddr = .ok flat →
    Placed m loadAddr flat →
    ∀ s ∈ sections faddr, s.Alloc → s.shType ≠ shtNobits → AtLinkAddress faddr m s := by
  intro h
  have hsections : sections (twoSections 0x8108) =
    [⟨0, 0, 0, 0, 0⟩, ⟨1, 2, 0x8100, 0x40, 4⟩, ⟨1, 3, 0x8108, 0x44, 8⟩] := rfl
  have hwf : WellFormed 272 (twoSections 0x8108) := by
    refine ⟨by decide, by decide, by decide, ?_⟩
    rw [hsections]
    decide
  have hlinked : LinkedFrom (twoSections 0x8108) loadAddr := by
    refine ⟨⟨⟨1, 2, 0x8100, 0x40, 4⟩, ?_⟩, ?_⟩
    · rw [hsections]
      decide
    · rintro x ⟨s, hs, ha, rfl⟩
      rw [hsections] at hs
      revert s
      decide
  have hdata := h 272 _ twoSectionsMem twoSectionsFlat hwf hlinked rfl twoSectionsMem_placed
    ⟨1, 3, 0x8108, 0x44, 8⟩ (by rw [hsections]; simp) (by decide) (by decide) 0 (by decide)
  exact absurd hdata (by decide)

end Elf
end DeliceOS
