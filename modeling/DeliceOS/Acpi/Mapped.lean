import DeliceOS.Acpi.Madt
import DeliceOS.Paging.MapAddr

/-!
# Acpi.Mapped

The search of the RSDT under the page tables of the kernel. `iterate_check` follows 32-bit physical
addresses as pointers, and of these the tables map the first GiB only.

* `KernelTables.walk`: the translation of every address below 512 GiB.
* `searchReads_congr`: the bytes listed in `searchReads` decide what the search finds.
* `searchReads_mapped_iff`: when each of them translates to itself.
-/

namespace DeliceOS
namespace Acpi

open Base Paging

/-! ## The page tables -/

/-- The frames that hold the tables of the kernel. -/
def InFrames (x : Nat) : Prop :=
  (APIC_PDPTE ≤ x ∧ x < APIC_PDE + 4096) ∨ (FIRST_PML4_BASE ≤ x ∧ x < 0x36000)

/-- The frames of the page tables are as `early_page` and then `start_kernel`'s call of `map_addr`
left them, but for the accessed and dirty bits; everything else in memory is arbitrary. -/
def KernelTables (m : Mem) : Prop :=
  ∃ m0, ∀ x, InFrames x → Walk.SameByte x (m x) (mapAddr apicCall (earlyPage m0) x)

section

variable {m m0 : Mem} (hm : ∀ x, InFrames x → m x = mapAddr apicCall (earlyPage m0) x)

include hm

theorem identity_of_frames : IdentityTables m := by
  have htables : IdentityTables (mapAddr apicCall (earlyPage m0)) := by
    rw [← mapAddrs_singleton]
    exact (earlyPage_tables m0).toIdentityTables.mapAddrs [apicCall]
  refine htables.congr fun x hx hx' => hm x (.inr ⟨?_, hx'⟩)
  simp only [FIRST_PML4_BASE, FIRST_PDPT_BASE] at hx ⊢
  omega

/-- The entry of the PML4 that `apicCall` does not touch. -/
theorem pml4_of_frames {va : Nat} (hva : va < 2 ^ 39) :
    Walk.entry m FIRST_PML4_BASE 3 va = 0x33003#64 := by
  have hindex : Walk.index 3 va = 0 := by simp only [Walk.index]; omega
  have hcall : (0 : Nat) ≠ apicCall.index 3 := by decide
  have hframe : m.read64 (FIRST_PML4_BASE + 8 * 0) =
      (mapAddr apicCall (earlyPage m0)).read64 (FIRST_PML4_BASE + 8 * 0) := by
    refine Mem.read64_congr fun x hx hx' => hm x (.inr ?_)
    simp only [FIRST_PML4_BASE] at hx hx' ⊢
    omega
  rw [Walk.entry, hindex, hframe, mapAddr_pml4 apicCall _ (by decide), if_neg hcall]
  exact (earlyPage_tables m0).pml4_zero

end

variable {m m' : Mem}

/-- Of the addresses below 512 GiB those of the first GiB are mapped, to themselves. -/
theorem KernelTables.walk (h : KernelTables m) {va : Nat} (hva : va < 2 ^ 39) :
    Walk.walk m FIRST_PML4_BASE va = if va < 2 ^ 30 then some (Paging.identity va) else none := by
  obtain ⟨m0, hm⟩ := h
  obtain ⟨clean, hsame, hclean⟩ := Walk.exists_sameTables hm
  rw [Walk.walk_sameTables hsame (by decide),
    (identity_of_frames hclean).walk (pml4_of_frames hclean hva)]
  by_cases hlow : va < 2 ^ 30
  · rw [if_pos hlow, if_pos (by simp only [Walk.index]; omega), Nat.mod_eq_of_lt hlow]
  · rw [if_neg hlow, if_neg (by simp only [Walk.index]; omega)]

/-- `va` translates to itself. -/
def Mapped (m : Mem) (va : Nat) : Prop :=
  ∃ t, Walk.walk m FIRST_PML4_BASE va = some t ∧ t.phys = va

theorem KernelTables.mapped_iff (h : KernelTables m) {va : Nat} (hva : va < 2 ^ 39) :
    Mapped m va ↔ va < 2 ^ 30 := by
  rw [Mapped, h.walk hva]
  constructor
  · intro ⟨t, ht, _⟩
    by_contra hge
    rw [if_neg hge] at ht
    cases ht
  · intro hlt
    exact ⟨_, if_pos hlt, rfl⟩

/-! ## What the search reads -/

/-- The bytes read for entry `ii` of the RSDT: the entry and the signature of its table. -/
def entryReads (m : Mem) (rsdtHdr ii : Nat) : List Nat :=
  let acpiPtr := entry m rsdtHdr ii
  List.range' (rsdtHdr + sdtSize + 4 * ii) 4 ++
    (memcmpReads (ptr m acpiPtr) (literal apic) 0 4).map (acpiPtr + ·)

/-- The bytes `iterate_check` reads while it goes through the RSDT for tables with signature
"APIC": the length of the RSDT, then entry after entry. -/
def searchReads (m : Mem) (rsdtHdr : Nat) : List Nat :=
  List.range' (rsdtHdr + 4) 4 ++
    (List.range (entries (sdtLength m rsdtHdr)).toInt.toNat).flatMap (entryReads m rsdtHdr)

/-- Byte `k` of the table at `t` is looked at: those before it are as in "APIC". -/
def Looked (m : Mem) (t k : Nat) : Prop := k ≤ 4 ∧ ∀ j < k, m (t + j) = literal apic j

theorem mem_entryReads {rsdt ii a : Nat} :
    a ∈ entryReads m rsdt ii ↔
      (rsdt + sdtSize + 4 * ii ≤ a ∧ a < rsdt + sdtSize + 4 * ii + 4) ∨
        ∃ k, Looked m (entry m rsdt ii) k ∧ a = entry m rsdt ii + k := by
  rw [entryReads, List.mem_append, List.mem_range'_1, List.mem_map]
  refine or_congr Iff.rfl ⟨?_, ?_⟩
  · intro ⟨k, hk, ha⟩
    obtain ⟨j, hj, rfl, hall⟩ := mem_memcmpReads.mp hk
    simp only [Nat.zero_add] at hall ha
    exact ⟨j, ⟨Nat.le_of_lt_succ hj, hall⟩, ha.symm⟩
  · intro ⟨k, ⟨hk, hall⟩, ha⟩
    refine ⟨k, mem_memcmpReads.mpr ⟨k, Nat.lt_succ_of_le hk, (Nat.zero_add k).symm, fun l hl => ?_⟩, ha.symm⟩
    rw [Nat.zero_add]
    exact hall l hl

theorem mem_searchReads {rsdt a : Nat} :
    a ∈ searchReads m rsdt ↔ (rsdt + 4 ≤ a ∧ a < rsdt + 8) ∨
      ∃ ii < ((sdtLength m rsdt).toNat - sdtSize) / 4, a ∈ entryReads m rsdt ii := by
  rw [searchReads, List.mem_append, List.mem_range'_1, List.mem_flatMap, entries_toNat]
  simp only [List.mem_range, Nat.add_assoc]

/-- Whether a table has the signature depends on the bytes looked at. -/
theorem hasSignature_congr {t : Nat} (h : ∀ k, Looked m t k → m' (t + k) = m (t + k)) :
    HasSignature m' apic t ↔ HasSignature m apic t := by
  constructor
  · intro hsig k
    induction k using Nat.strong_induction_on with
    | _ k ih =>
      intro hk
      have hlooked : Looked m t k := ⟨Nat.le_of_lt hk, fun j hj => ih j hj (Nat.lt_trans hj hk)⟩
      rw [← h k hlooked]
      exact hsig k hk
  · intro hsig k hk
    rw [h k ⟨Nat.le_of_lt hk, fun j hj => hsig j (Nat.lt_trans hj hk)⟩]
    exact hsig k hk

/-- The bytes read decide which tables are found. -/
theorem searchReads_congr {rsdt : Nat} (h : ∀ a ∈ searchReads m rsdt, m' a = m a) :
    listed m' rsdt = listed m rsdt ∧
      (listed m' rsdt).filter (HasSignature m' apic ·) =
        (listed m rsdt).filter (HasSignature m apic ·) := by
  have hlength : sdtLength m' rsdt = sdtLength m rsdt :=
    Mem.read32_congr fun x hx hx' => h x (mem_searchReads.mpr (.inl ⟨hx, by omega⟩))
  have hentry : ∀ ii < ((sdtLength m rsdt).toNat - sdtSize) / 4,
      entry m' rsdt ii = entry m rsdt ii := by
    intro ii hii
    rw [entry, entry]
    congr 1
    exact Mem.read32_congr fun x hx hx' => h x (mem_searchReads.mpr
      (.inr ⟨ii, hii, mem_entryReads.mpr (.inl ⟨hx, hx'⟩)⟩))
  have hlisted : listed m' rsdt = listed m rsdt := by
    rw [listed, listed, hlength]
    exact List.map_congr_left fun ii hii => hentry ii (List.mem_range.mp hii)
  refine ⟨hlisted, ?_⟩
  rw [hlisted]
  refine List.filter_congr fun t ht => ?_
  obtain ⟨ii, hii, rfl⟩ := List.mem_map.mp ht
  rw [decide_eq_decide]
  exact hasSignature_congr fun k hk => h _ (mem_searchReads.mpr
    (.inr ⟨ii, List.mem_range.mp hii, mem_entryReads.mpr (.inr ⟨k, hk, rfl⟩)⟩))

/-! ## Where they are mapped -/

/-- What the search looks at lies in the first GiB. -/
structure InFirstGiB (m : Mem) (rsdt : Nat) : Prop where
  length : rsdt + 8 ≤ 2 ^ 30
  entries : ∀ ii < ((sdtLength m rsdt).toNat - sdtSize) / 4, rsdt + sdtSize + 4 * ii + 4 ≤ 2 ^ 30
  signatures : ∀ t ∈ listed m rsdt, ∀ k, Looked m t k → t + k < 2 ^ 30

theorem entry_lt (m : Mem) (rsdt ii : Nat) : entry m rsdt ii < 2 ^ 32 := (m.read32 _).isLt

theorem searchReads_lt {rsdt : BitVec 32} : ∀ a ∈ searchReads m rsdt.toNat, a < 2 ^ 39 := by
  intro a ha
  have hrsdt := rsdt.isLt
  have hlength := (sdtLength m rsdt.toNat).isLt
  rcases mem_searchReads.mp ha with h | ⟨ii, hii, h⟩
  · omega
  · rcases mem_entryReads.mp h with h | ⟨k, hk, h⟩
    · simp only [sdtSize] at hii h
      omega
    · have hentry := entry_lt m rsdt.toNat ii
      have hk4 := hk.1
      omega

theorem searchReads_low_iff {rsdt : Nat} :
    (∀ a ∈ searchReads m rsdt, a < 2 ^ 30) ↔ InFirstGiB m rsdt := by
  constructor
  · intro h
    constructor
    · have hlast := h (rsdt + 7) (mem_searchReads.mpr (.inl ⟨by omega, by omega⟩))
      omega
    · intro ii hii
      have hlast := h (rsdt + sdtSize + 4 * ii + 3)
        (mem_searchReads.mpr (.inr ⟨ii, hii, mem_entryReads.mpr (.inl ⟨by omega, by omega⟩)⟩))
      omega
    · intro t ht k hk
      obtain ⟨ii, hii, rfl⟩ := List.mem_map.mp ht
      exact h _ (mem_searchReads.mpr
        (.inr ⟨ii, List.mem_range.mp hii, mem_entryReads.mpr (.inr ⟨k, hk, rfl⟩)⟩))
  · intro h a ha
    rcases mem_searchReads.mp ha with ha | ⟨ii, hii, ha⟩
    · have hlength := h.length
      omega
    · rcases mem_entryReads.mp ha with ha | ⟨k, hk, rfl⟩
      · have hentry := h.entries ii hii
        omega
      · exact h.signatures _ (List.mem_map_of_mem (List.mem_range.mpr hii)) k hk

/-- Wherever the firmware put its tables, what the search reads translates to itself if and only if
it lies in the first GiB. -/
theorem searchReads_mapped_iff (h : KernelTables m) (rsdt : BitVec 32) :
    (∀ a ∈ searchReads m rsdt.toNat, Mapped m a) ↔ InFirstGiB m rsdt.toNat := by
  rw [← searchReads_low_iff]
  exact forall₂_congr fun a ha => h.mapped_iff (searchReads_lt a ha)

/-- Wholly below 4 GiB. -/
def Below4GiB (m : Mem) (rsdt : Nat) : Prop :=
  tableEnd m rsdt ≤ 2 ^ 32 ∧ ∀ t ∈ listed m rsdt, tableEnd m t ≤ 2 ^ 32

/-- An RSDT of 40 bytes at `rsdt` that lists a table of 44 bytes with signature "APIC" at `table`,
above the page tables. -/
def placed (rsdt table : BitVec 32) : Mem := fun x =>
  if x < 0x36000 then mapAddr apicCall (earlyPage fun _ => 0) x
  else
    let m : Mem := (Mem.write32 (fun _ => 0) (rsdt.toNat + 4) 40).write32 (rsdt.toNat + 36) table
    (m.write32 table.toNat 0x43495041).write32 (table.toNat + 4) 44 x

theorem placed_kernelTables (rsdt table : BitVec 32) : KernelTables (placed rsdt table) := by
  refine ⟨fun _ => 0, fun x hx => .inl (if_pos ?_)⟩
  simp only [InFrames, APIC_PDPTE, APIC_PDE, FIRST_PML4_BASE] at hx
  omega

theorem searchReads_mapped_low :
    listed (placed 0x3ffe0000 0x3ffe1000) 0x3ffe0000 = [0x3ffe1000] ∧
      ∀ a ∈ searchReads (placed 0x3ffe0000 0x3ffe1000) 0x3ffe0000,
        Mapped (placed 0x3ffe0000 0x3ffe1000) a := by
  have hlisted : listed (placed 0x3ffe0000 0x3ffe1000) 0x3ffe0000 = [0x3ffe1000] := by
    decide +kernel
  refine ⟨hlisted, ?_⟩
  refine (searchReads_mapped_iff (placed_kernelTables _ _) 0x3ffe0000).mpr ⟨by decide, ?_, ?_⟩
  · decide +kernel
  · intro t ht k hk
    rw [show (0x3ffe0000 : BitVec 32).toNat = 0x3ffe0000 by decide, hlisted] at ht
    cases List.mem_singleton.mp ht
    have hk4 := hk.1
    omega

/-- Just below 2 GiB the length of the RSDT is not mapped. -/
theorem rsdt_unmapped :
    ¬ ∀ (m : Mem) (rsdt : BitVec 32), KernelTables m → Below4GiB m rsdt.toNat →
      ∀ a ∈ searchReads m rsdt.toNat, Mapped m a := by
  intro h
  have htables := placed_kernelTables 0x7ffe0000 0x7ffe1000
  have hlisted : listed (placed 0x7ffe0000 0x7ffe1000) 0x7ffe0000 = [0x7ffe1000] := by
    decide +kernel
  have hbelow : Below4GiB (placed 0x7ffe0000 0x7ffe1000) 0x7ffe0000 := by
    refine ⟨by decide +kernel, fun t ht => ?_⟩
    rw [hlisted] at ht
    cases List.mem_singleton.mp ht
    decide +kernel
  have hmapped := h _ 0x7ffe0000 htables hbelow 0x7ffe0004
    (mem_searchReads.mpr (.inl ⟨by decide, by decide⟩))
  have hlow := (htables.mapped_iff (by decide)).mp hmapped
  omega

end Acpi
end DeliceOS
