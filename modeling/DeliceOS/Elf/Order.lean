import DeliceOS.Elf.Coverage
import Mathlib.Data.List.Nodup
import Mathlib.Logic.Equiv.Basic

/-!
# Elf.Order

The image and the order of the section header table. `main` compares the sections by offset only,
so of several with the greatest offset the order of the table picks the one that ends the image.

* `main_kept`: the image of a file with at most 255 sections.
* `Permuted.sameImage_iff`: when two files with their tables in different orders have the same
  image.
* `order_irrelevant_iff`: when a file and every file with its table in another order do.
-/

namespace DeliceOS
namespace Elf

open Base

/-! ## The image -/

/-- The offset that `comparator` sees. -/
def offset32 (s : Shdr) : Nat := s.shOffset.toNat % 2 ^ 32

/-- The image that begins at the offset of `first` and ends where `last` does. -/
def imageSize (first last : Shdr) : Nat := last.fileEnd % 2 ^ 32 - offset32 first

variable {fsize : Nat} {faddr faddr' : Mem} {flat : List (BitVec 8)}

theorem comparator_offset32 (s t : Shdr) :
    comparator (header s) (header t) = decide (offset32 s < offset32 t) := by
  rw [comparator, decide_eq_decide]
  simp only [header, initheader, BitVec.lt_def, BitVec.toNat_setWidth, offset32]

theorem minElement_offset32 (l : List Shdr) :
    minElement comparator (l.map header) = (l.argmin offset32).map header := by
  rw [minElement, select_map, ← minElement_eq_argmin]
  simp only [comparator_offset32]
  rfl

theorem maxElement_offset32 (l : List Shdr) :
    maxElement comparator (l.map header) = (l.argmax offset32).map header := by
  rw [maxElement, select_map, ← maxElement_eq_argmax]
  simp only [comparator_offset32]
  rfl

theorem writeImage_header (fsize : Nat) (faddr : Mem) (first last : Shdr) :
    writeImage fsize faddr ((header first).offset.setWidth 64)
        (((header last).offset + (header last).size).setWidth 64) =
      if 0 < imageSize first last ∧ mapped fsize < last.fileEnd % 2 ^ 32 then .error .fault
      else .ok ((List.range' (offset32 first) (imageSize first last)).map faddr) := by
  have hlo : ((header first).offset.setWidth 64).toNat = offset32 first := by
    simp only [header, initheader, BitVec.toNat_setWidth, offset32]
    omega
  have hhi : (((header last).offset + (header last).size).setWidth 64).toNat =
      last.fileEnd % 2 ^ 32 := by
    simp only [header, initheader, BitVec.toNat_setWidth, BitVec.toNat_add, Shdr.fileEnd]
    omega
  simp only [writeImage, imageBytes, BitVec.lt_def, hlo, hhi, imageSize, Nat.sub_pos_iff_lt]

/-- The sections of the table that are kept decide the range of the file that is written. -/
theorem main_kept (hn : (eShnum faddr).toNat < 256) (h : main fsize faddr = .ok flat) :
    ∃ first ∈ (kept faddr).argmin offset32, ∃ last ∈ (kept faddr).argmax offset32,
      flat = (List.range' (offset32 first) (imageSize first last)).map faddr ∧
      (0 < imageSize first last → last.fileEnd % 2 ^ 32 ≤ mapped fsize) := by
  obtain ⟨lo, hi, hlo, hhi, hflat⟩ := main_ok h
  rw [fheaders_eq, visited_eq_kept hn, minElement_offset32, Option.map_eq_some_iff] at hlo
  rw [fheaders_eq, visited_eq_kept hn, maxElement_offset32, Option.map_eq_some_iff] at hhi
  obtain ⟨first, hfirst, rfl⟩ := hlo
  obtain ⟨last, hlast, rfl⟩ := hhi
  rw [writeImage_header] at hflat
  split at hflat
  · cases hflat
  · rename_i hmapped
    cases hflat
    exact ⟨first, hfirst, last, hlast, rfl, fun hpos => by omega⟩

/-- A file whose tests are passed has the image of its first and its last section, or faults. -/
theorem Tested.image (h : Tested fsize faddr) (hn : (eShnum faddr).toNat < 256)
    {first last : Shdr} (hfirst : first ∈ (kept faddr).argmin offset32)
    (hlast : last ∈ (kept faddr).argmax offset32) :
    main fsize faddr =
      if 0 < imageSize first last ∧ mapped fsize < last.fileEnd % 2 ^ 32 then .error .fault
      else .ok ((List.range' (offset32 first) (imageSize first last)).map faddr) := by
  rw [h.main_eq, fheaders_eq, visited_eq_kept hn, minElement_offset32, maxElement_offset32, hfirst,
    hlast]
  exact writeImage_header fsize faddr first last

/-! ## The table in another order -/

/-- The bytes of section header `ii`. -/
def entryBytes (faddr : Mem) (ii : Nat) : List (BitVec 8) :=
  (List.range shdrSize).map fun k => faddr ((eShoff faddr).toNat + shdrSize * ii + k)

/-- The section header table. -/
def table (faddr : Mem) : List (List (BitVec 8)) :=
  (List.range (eShnum faddr).toNat).map (entryBytes faddr)

/-- The table of `faddr'` has the entries of that of `faddr` in some order; all other bytes are the
same. -/
structure Permuted (faddr faddr' : Mem) : Prop where
  entries : (table faddr').Perm (table faddr)
  others : ∀ x, x < (eShoff faddr).toNat ∨
    (eShoff faddr).toNat + shdrSize * (eShnum faddr).toNat ≤ x → faddr' x = faddr x

/-- The image holds the same range of both files. -/
def SameImage (fsize : Nat) (faddr faddr' : Mem) : Prop :=
  ∃ lo n, main fsize faddr = .ok ((List.range' lo n).map faddr) ∧
    main fsize faddr' = .ok ((List.range' lo n).map faddr')

/-- No kept section has a greater offset. -/
def IsLast (faddr : Mem) (s : Shdr) : Prop :=
  s ∈ kept faddr ∧ ∀ t ∈ kept faddr, offset32 t ≤ offset32 s

/-- The section header in the bytes of an entry. -/
def ofBytes (b : List (BitVec 8)) : Shdr := shdrAt (fun x => b.getD x 0) 0

theorem shdrAt_entryBytes (faddr : Mem) (ii : Nat) :
    shdrAt faddr ((eShoff faddr).toNat + shdrSize * ii) = ofBytes (entryBytes faddr ii) := by
  have hread : ∀ i n, i + n ≤ shdrSize →
      faddr.readLE ((eShoff faddr).toNat + shdrSize * ii + i) n =
        Mem.readLE (fun x => (entryBytes faddr ii).getD x 0) (0 + i) n := by
    intro i n hi
    apply Mem.readLE_shift
    intro k hk
    rw [List.getD_eq_getElem?_getD, entryBytes, List.getElem?_map, List.getElem?_range (by omega),
      Option.map_some, Option.getD_some, Nat.zero_add, Nat.add_assoc]
  simp only [ofBytes, shdrAt, Mem.read32, Mem.read64, hread 4 4 (by decide),
    hread 8 8 (by decide), hread 16 8 (by decide), hread 24 8 (by decide), hread 32 8 (by decide)]

theorem sections_table (faddr : Mem) : sections faddr = (table faddr).map ofBytes := by
  rw [sections, table, List.map_map]
  exact List.map_congr_left fun ii _ => shdrAt_entryBytes faddr ii

namespace Permuted

variable (h : Permuted faddr faddr') (htable : 64 ≤ (eShoff faddr).toNat)

include h htable

theorem eShoff_eq : eShoff faddr' = eShoff faddr :=
  Mem.read64_congr fun x _ _ => h.others x (.inl (by omega))

theorem eShnum_eq : eShnum faddr' = eShnum faddr :=
  Mem.read16_congr fun x _ _ => h.others x (.inl (by omega))

theorem eIdent_eq {i : Nat} (hi : i < 64) : eIdent faddr' i = eIdent faddr i :=
  h.others i (.inl (by omega))

theorem kept_perm : (kept faddr').Perm (kept faddr) := by
  rw [kept, kept, h.eShoff_eq htable, sections_table, sections_table]
  exact (h.entries.map ofBytes).filter _

theorem tested (hend : (eShoff faddr).toNat + shdrSize * (eShnum faddr).toNat ≤ mapped fsize)
    (ht : Tested fsize faddr) : Tested fsize faddr' := by
  have hshnum := h.eShnum_eq htable
  refine ⟨ht.page, ?_, by rw [hshnum]; exact ht.count, ?_⟩
  · rw [h.eIdent_eq htable (by decide), h.eIdent_eq htable (by decide),
      h.eIdent_eq htable (by decide)]
    exact ht.ident
  · exact headersMapped_of_table (by rwa [h.eShoff_eq htable, hshnum])

end Permuted

/-- The section taken for the last one is one of those with the greatest offset. -/
theorem isLast_of_argmax (hperm : (kept faddr').Perm (kept faddr)) {last : Shdr}
    (h : last ∈ (kept faddr').argmax offset32) : IsLast faddr last :=
  ⟨hperm.mem_iff.mp (List.argmax_mem h), fun _ ht =>
    List.le_of_mem_argmax (hperm.mem_iff.mpr ht) h⟩

/-! ## Each of the last sections can be the first of them -/

/-- The file with the entries of its table moved by `σ`. -/
def reorder (faddr : Mem) (σ : Nat → Nat) : Mem := fun x =>
  let a := (eShoff faddr).toNat
  if a ≤ x ∧ x < a + shdrSize * (eShnum faddr).toNat then
    faddr (a + shdrSize * σ ((x - a) / shdrSize) + (x - a) % shdrSize)
  else faddr x

theorem reorder_out {σ : Nat → Nat} {x : Nat} (h : x < (eShoff faddr).toNat ∨
    (eShoff faddr).toNat + shdrSize * (eShnum faddr).toNat ≤ x) : reorder faddr σ x = faddr x := by
  rw [reorder]
  exact if_neg (by omega)

theorem reorder_in {σ : Nat → Nat} {ii k : Nat} (hii : ii < (eShnum faddr).toNat)
    (hk : k < shdrSize) : reorder faddr σ ((eShoff faddr).toNat + shdrSize * ii + k) =
      faddr ((eShoff faddr).toNat + shdrSize * σ ii + k) := by
  have hbound : shdrSize * ii + k < shdrSize * (eShnum faddr).toNat := by
    unfold shdrSize at hk ⊢
    omega
  have hoff : (eShoff faddr).toNat + shdrSize * ii + k - (eShoff faddr).toNat =
      shdrSize * ii + k := by omega
  have hdiv : (shdrSize * ii + k) / shdrSize = ii := by
    rw [Nat.mul_add_div (by decide), Nat.div_eq_of_lt hk, Nat.add_zero]
  have hmod : (shdrSize * ii + k) % shdrSize = k := by
    rw [Nat.mul_add_mod, Nat.mod_eq_of_lt hk]
  rw [reorder]
  simp only [hoff, hdiv, hmod]
  exact if_pos (by omega)

theorem table_reorder (σ : Nat → Nat) (htable : 64 ≤ (eShoff faddr).toNat) :
    table (reorder faddr σ) =
      ((List.range (eShnum faddr).toNat).map σ).map (entryBytes faddr) := by
  have hshoff : eShoff (reorder faddr σ) = eShoff faddr :=
    Mem.read64_congr fun x _ _ => reorder_out (.inl (by omega))
  have hshnum : eShnum (reorder faddr σ) = eShnum faddr :=
    Mem.read16_congr fun x _ _ => reorder_out (.inl (by omega))
  rw [table, hshnum, List.map_map]
  refine List.map_congr_left fun ii hii => ?_
  simp only [entryBytes, hshoff, Function.comp]
  refine List.map_congr_left fun k hk => ?_
  exact reorder_in (List.mem_range.mp hii) (List.mem_range.mp hk)

theorem swap_perm {i j n : Nat} (hi : i < n) (hj : j < n) :
    ((List.range n).map (Equiv.swap i j)).Perm (List.range n) := by
  have hlt : ∀ k, Equiv.swap i j k < n ↔ k < n := by
    intro k
    rw [Equiv.swap_apply_def]
    split
    · omega
    · split <;> omega
  refine (List.perm_ext_iff_of_nodup (List.Nodup.map (Equiv.injective _) List.nodup_range)
    List.nodup_range).mpr fun x => ?_
  rw [List.mem_map, List.mem_range]
  constructor
  · intro ⟨k, hk, hx⟩
    rw [← hx]
    exact (hlt k).mpr (List.mem_range.mp hk)
  · intro hx
    exact ⟨Equiv.swap i j x, List.mem_range.mpr ((hlt x).mpr hx), Equiv.swap_apply_self i j x⟩

theorem swap_permuted (htable : 64 ≤ (eShoff faddr).toNat) {i j : Nat}
    (hi : i < (eShnum faddr).toNat) (hj : j < (eShnum faddr).toNat) :
    Permuted faddr (reorder faddr (Equiv.swap i j)) := by
  refine ⟨?_, fun x hx => reorder_out hx⟩
  rw [table_reorder _ htable]
  exact (swap_perm hi hj).map _

/-- With its entry exchanged for the first of the table, a last section is the one found. -/
theorem IsLast.exists_first (htable : 64 ≤ (eShoff faddr).toNat) {t : Shdr} (h : IsLast faddr t) :
    ∃ faddr', Permuted faddr faddr' ∧ t ∈ (kept faddr').argmax offset32 := by
  obtain ⟨hmem, hin⟩ := List.mem_filter.mp h.1
  rw [sections_table, table, List.map_map, List.mem_map] at hmem
  obtain ⟨j, hj, rfl⟩ := hmem
  have hjn := List.mem_range.mp hj
  have hperm := swap_permuted htable (show 0 < (eShnum faddr).toNat by omega) hjn
  have hsections : sections (reorder faddr (Equiv.swap 0 j)) =
      (List.range (eShnum faddr).toNat).map fun ii =>
        ofBytes (entryBytes faddr (Equiv.swap 0 j ii)) := by
    rw [sections_table, table_reorder _ htable, List.map_map, List.map_map]
    rfl
  obtain ⟨n, hn⟩ := Nat.exists_eq_succ_of_ne_zero (show (eShnum faddr).toNat ≠ 0 by omega)
  rw [hn, List.range_succ_eq_map, List.map_cons, Equiv.swap_apply_left] at hsections
  have hkept := hperm.kept_perm htable
  refine ⟨_, hperm, ?_⟩
  simp only [Function.comp] at h hin ⊢
  rw [kept, hperm.eShoff_eq htable, hsections, List.filter_cons_of_pos hin] at hkept ⊢
  exact argmax_cons_of_le fun s hs => h.2 s (hkept.mem_iff.mp (List.mem_cons_of_mem _ hs))

/-! ## When the order is irrelevant -/

/-- Two files with their tables in different orders. The first section is at the same offset in
both, so the images hold the same range if and only if the last sections found make them of the
same size. -/
theorem Permuted.sameImage_iff (h : Permuted faddr faddr') (htable : 64 ≤ (eShoff faddr).toNat)
    (hend : (eShoff faddr).toNat + shdrSize * (eShnum faddr).toNat ≤ mapped fsize)
    (hn : (eShnum faddr).toNat < 256) (hacc : ∃ flat, main fsize faddr = .ok flat)
    {first last last' : Shdr} (hfirst : first ∈ (kept faddr).argmin offset32)
    (hlast : last ∈ (kept faddr).argmax offset32) (hlast' : last' ∈ (kept faddr').argmax offset32) :
    SameImage fsize faddr faddr' ↔ imageSize first last = imageSize first last' := by
  obtain ⟨flat, hmain⟩ := hacc
  obtain ⟨first₁, hfirst₁, last₁, hlast₁, rfl, hmapped⟩ := main_kept hn hmain
  cases Option.mem_unique hfirst hfirst₁
  cases Option.mem_unique hlast hlast₁
  obtain ⟨first', hfirst'⟩ := exists_argmin offset32 (List.ne_nil_of_mem (List.argmax_mem hlast'))
  have hmain' := (h.tested htable hend (main_tested hmain)).image
    (by rwa [h.eShnum_eq htable]) hfirst' hlast'
  have hbase : offset32 first' = offset32 first := argmin_perm (h.kept_perm htable) hfirst hfirst'
  rw [imageSize, hbase, ← imageSize] at hmain'
  constructor
  · intro ⟨lo, n, heq, heq'⟩
    rw [hmain'] at heq'
    split at heq'
    · cases heq'
    · have hlen := congrArg List.length (Except.ok.inj (hmain.symm.trans heq))
      have hlen' := congrArg List.length (Except.ok.inj heq')
      simp only [List.length_map, List.length_range'] at hlen hlen'
      omega
  · intro heq
    refine ⟨offset32 first, imageSize first last, hmain, ?_⟩
    rw [hmain', if_neg, heq]
    -- of the same positive size, both images end at the same place
    rintro ⟨hpos, hfault⟩
    have hle := hmapped (heq ▸ hpos)
    unfold imageSize at heq hpos
    omega

/-- For every file that `main` accepts, with at most 255 sections and its table in the file behind
the ELF header: the range written does not depend on the order of the table if and only if all
sections with the greatest offset end the image at the same place. -/
theorem order_irrelevant_iff (htable : 64 ≤ (eShoff faddr).toNat)
    (hend : (eShoff faddr).toNat + shdrSize * (eShnum faddr).toNat ≤ mapped fsize)
    (hn : (eShnum faddr).toNat < 256) (hacc : ∃ flat, main fsize faddr = .ok flat) :
    (∀ faddr', Permuted faddr faddr' → SameImage fsize faddr faddr') ↔
      ∀ first ∈ (kept faddr).argmin offset32, ∀ s t, IsLast faddr s → IsLast faddr t →
        imageSize first s = imageSize first t := by
  obtain ⟨flat, hmain⟩ := hacc
  obtain ⟨first, hfirst, last, hlast, -⟩ := main_kept hn hmain
  constructor
  · intro hsame first₁ hfirst₁ s t hs ht
    cases Option.mem_unique hfirst hfirst₁
    have hthis : ∀ s, IsLast faddr s → imageSize first last = imageSize first s := by
      intro s hs
      obtain ⟨faddr', hperm, hlast'⟩ := hs.exists_first htable
      exact (hperm.sameImage_iff htable hend hn ⟨flat, hmain⟩ hfirst hlast hlast').mp
        (hsame _ hperm)
    rw [← hthis s hs, hthis t ht]
  · intro hsize faddr' hperm
    have hkept := hperm.kept_perm htable
    obtain ⟨last', hlast'⟩ := exists_argmax offset32
      (List.ne_nil_of_mem (hkept.mem_iff.mpr (List.argmax_mem hlast)))
    refine (hperm.sameImage_iff htable hend hn ⟨flat, hmain⟩ hfirst hlast hlast').mpr ?_
    exact hsize first hfirst last last' (isLast_of_argmax (List.Perm.refl _) hlast)
      (isLast_of_argmax hkept hlast')

theorem order_irrelevant_plain : (∃ flat, main 272 plainElf = .ok flat) ∧
    ∀ faddr', Permuted plainElf faddr' → SameImage 272 plainElf faddr' := by
  have haccepts : ∃ flat, main 272 plainElf = .ok flat := ⟨_, plainElf_main⟩
  have hkept : kept plainElf = [textSection, dataSection] := rfl
  refine ⟨haccepts, (order_irrelevant_iff (by decide) (by decide) (by decide) haccepts).mpr ?_⟩
  have hlast : ∀ s, IsLast plainElf s → s = dataSection := by
    intro s ⟨hmem, hle⟩
    rw [hkept] at hmem hle
    rcases List.mem_pair.mp hmem with rfl | rfl
    · exact absurd (hle dataSection (by simp)) (by decide)
    · rfl
  intro first _ s t hs ht
  rw [hlast s hs, hlast t ht]

/-- An empty section behind the data in the file that begins where they do. -/
def tiedElf : Mem := smallElf [nullSection, textSection, dataSection, emptySection]

/-- With the entries of the data and of the empty section exchanged, the data are lost. -/
theorem order_matters : WellFormed 336 tiedElf ∧
    Permuted tiedElf (reorder tiedElf (Equiv.swap 2 3)) ∧
      ¬ SameImage 336 tiedElf (reorder tiedElf (Equiv.swap 2 3)) := by
  refine ⟨smallElf_wellFormed rfl (by decide) (by decide) (by decide) (by decide),
    swap_permuted (by decide) (by decide) (by decide), ?_⟩
  intro ⟨lo, n, h, h'⟩
  have hflat : main 336 tiedElf =
    .ok [0x40, 0x41, 0x42, 0x43, 0x44, 0x45, 0x46, 0x47, 0x48, 0x49, 0x4a, 0x4b] := rfl
  have hflat' : main 336 (reorder tiedElf (Equiv.swap 2 3)) = .ok [0x40, 0x41, 0x42, 0x43] := by
    decide +kernel
  have hlen := congrArg List.length (Except.ok.inj (hflat.symm.trans h))
  have hlen' := congrArg List.length (Except.ok.inj (hflat'.symm.trans h'))
  simp only [List.length_map, List.length_range', List.length_cons, List.length_nil] at hlen hlen'
  omega

end Elf
end DeliceOS
