import DeliceOS.Paging.EarlyPage

/-!
# Paging.MapAddr

`map_addr` of `paging.cc` on the tables `early_page` has built. Each call writes one entry of the
PML4, one of the frame `APIC_PDPTE` and one of the frame `APIC_PDE`, whatever the address, so
all calls share one PDPT and one page directory and nothing clears what these frames held before.
Loads and stores are at physical addresses.

* `mapAddr_read64`: what one call does to every entry.
* `mapAddr_establishes`: the mapping one call makes, over any memory.
* `mapAddrs_walk`: the walk of every address after any sequence of calls.
* `mapAddrs_alias`: two calls can share an entry of the page directory.
-/

namespace DeliceOS
namespace Paging

open Base Base.Store

def APIC_PDPTE : Nat := 0x22000
def APIC_PDE : Nat := 0x23000
def PAGE_SIZE_2MB : BitVec 32 := 1 <<< 7
def PAGE_UC : BitVec 32 := 1 <<< 4

/-- The arguments of a call of `map_addr`. -/
structure Call where
  vaddr : BitVec 64
  phys : BitVec 64
  flags : BitVec 64
  deriving DecidableEq, Repr

def indicies (vaddr : BitVec 64) : Fin 4 → BitVec 64
  | 0 => (vaddr >>> 39) &&& 0x1ff
  | 1 => (vaddr >>> 30) &&& 0x1ff
  | 2 => (vaddr >>> 21) &&& 0x1ff
  | 3 => (vaddr >>> 12) &&& 0x1ff

/-- An entry is cleared with `memset` and then stored. -/
def setEntry (addr : Nat) (v : BitVec 64) : List Store := clear addr 0 8 ++ [⟨addr, 8, v.toNat⟩]

/-- The entry a call leaves in the page directory. -/
def Call.pde (c : Call) : BitVec 64 := c.flags ||| PAGE_SIZE_2MB.setWidth 64 ||| c.phys

def mapAddrStores (c : Call) : List Store :=
  setEntry (FIRST_PML4_BASE + 8 * (indicies c.vaddr 0).toNat)
    ((PAGE_PRESENT ||| PAGE_WRITE ||| BitVec.ofNat 32 APIC_PDPTE).setWidth 64) ++
  setEntry (APIC_PDPTE + 8 * (indicies c.vaddr 1).toNat)
    ((PAGE_PRESENT ||| PAGE_WRITE ||| BitVec.ofNat 32 APIC_PDE).setWidth 64) ++
  setEntry (APIC_PDE + 8 * (indicies c.vaddr 2).toNat) c.pde

def mapAddr (c : Call) (m : Mem) : Mem := run (mapAddrStores c) m

def mapAddrs (calls : List Call) (m : Mem) : Mem := calls.foldl (fun m c => mapAddr c m) m

/-! ## One call -/

namespace Call

/-- The index of the call at a level of the walk. -/
def index (c : Call) (level : Nat) : Nat := Walk.index level c.vaddr.toNat

theorem index_lt (c : Call) (level : Nat) : c.index level < 512 := Walk.index_lt level _

theorem shift_and (v : BitVec 64) (n : Nat) : ((v >>> n) &&& 0x1ff).toNat = v.toNat / 2 ^ n % 512 := by
  rw [BitVec.toNat_and, BitVec.toNat_ushiftRight, Nat.shiftRight_eq_div_pow]
  exact Nat.and_two_pow_sub_one_eq_mod _ 9

theorem indicies_zero (c : Call) : (indicies c.vaddr 0).toNat = c.index 3 := shift_and c.vaddr 39
theorem indicies_one (c : Call) : (indicies c.vaddr 1).toNat = c.index 2 := shift_and c.vaddr 30
theorem indicies_two (c : Call) : (indicies c.vaddr 2).toNat = c.index 1 := shift_and c.vaddr 21

end Call

theorem run_setEntry (m : Mem) (addr : Nat) (v : BitVec 64) :
    run (setEntry addr v) m = m.write64 addr v := run_clear_store m addr 0 v

theorem pml4_value :
    (PAGE_PRESENT ||| PAGE_WRITE ||| BitVec.ofNat 32 APIC_PDPTE).setWidth 64 = 0x22003#64 := by
  decide

theorem pdpt_value :
    (PAGE_PRESENT ||| PAGE_WRITE ||| BitVec.ofNat 32 APIC_PDE).setWidth 64 = 0x23003#64 := by
  decide

theorem mapAddr_eq (c : Call) (m : Mem) :
    mapAddr c m = ((m.write64 (FIRST_PML4_BASE + 8 * c.index 3) 0x22003#64).write64
      (APIC_PDPTE + 8 * c.index 2) 0x23003#64).write64 (APIC_PDE + 8 * c.index 1) c.pde := by
  rw [mapAddr, mapAddrStores, run_append, run_append, run_setEntry, run_setEntry, run_setEntry,
    pml4_value, pdpt_value, c.indicies_zero, c.indicies_one, c.indicies_two]

/-- What one call leaves in each aligned quadword. -/
theorem mapAddr_read64 (c : Call) (m : Mem) {a : Nat} (ha : a % 8 = 0) :
    (mapAddr c m).read64 a =
      if a = APIC_PDE + 8 * c.index 1 then c.pde
      else if a = APIC_PDPTE + 8 * c.index 2 then 0x23003#64
      else if a = FIRST_PML4_BASE + 8 * c.index 3 then 0x22003#64
      else m.read64 a := by
  rw [mapAddr_eq, Mem.read64_write64_aligned (by simp only [APIC_PDE]; omega),
    Mem.read64_write64_aligned (by simp only [APIC_PDPTE]; omega),
    Mem.read64_write64_aligned (by simp only [FIRST_PML4_BASE]; omega)]

/-- Outside the three frames a call stores nothing. -/
theorem mapAddr_out (c : Call) (m : Mem) {x : Nat}
    (h : x < APIC_PDPTE ∨ APIC_PDE + 4096 ≤ x) (h' : x < FIRST_PML4_BASE ∨ FIRST_PML4_BASE + 4096 ≤ x) :
    mapAddr c m x = m x := by
  have h1 := c.index_lt 1
  have h2 := c.index_lt 2
  have h3 := c.index_lt 3
  simp only [APIC_PDPTE, APIC_PDE, FIRST_PML4_BASE] at h h'
  rw [mapAddr_eq, Mem.write64, Mem.writeLE_out (by simp only [APIC_PDE]; omega), Mem.write64,
    Mem.writeLE_out (by simp only [APIC_PDPTE]; omega), Mem.write64,
    Mem.writeLE_out (by simp only [FIRST_PML4_BASE]; omega)]

/-! ## Sequences of calls -/

theorem mapAddrs_singleton (c : Call) (m : Mem) : mapAddrs [c] m = mapAddr c m := by
  rw [mapAddrs, List.foldl_cons, List.foldl_nil]

theorem mapAddrs_snoc (calls : List Call) (c : Call) (m : Mem) :
    mapAddrs (calls ++ [c]) m = mapAddr c (mapAddrs calls m) := by
  simp [mapAddrs]

variable {m : Mem} {calls : List Call}

theorem mapAddrs_out {x : Nat} (h : x < APIC_PDPTE ∨ APIC_PDE + 4096 ≤ x)
    (h' : x < FIRST_PML4_BASE ∨ FIRST_PML4_BASE + 4096 ≤ x) : mapAddrs calls m x = m x := by
  induction calls using List.reverseRecOn with
  | nil => rfl
  | append_singleton calls c ih => rw [mapAddrs_snoc, mapAddr_out c _ h h', ih]

theorem mapAddr_pml4 (c : Call) (m : Mem) {i : Nat} (hi : i < 512) :
    (mapAddr c m).read64 (FIRST_PML4_BASE + 8 * i) =
      if i = c.index 3 then 0x22003#64 else m.read64 (FIRST_PML4_BASE + 8 * i) := by
  have h1 := c.index_lt 1
  have h2 := c.index_lt 2
  have ha : (FIRST_PML4_BASE + 8 * i) % 8 = 0 := by simp only [FIRST_PML4_BASE]; omega
  rw [mapAddr_read64 c m ha, if_neg (by simp only [FIRST_PML4_BASE, APIC_PDE]; omega),
    if_neg (by simp only [FIRST_PML4_BASE, APIC_PDPTE]; omega)]
  simp only [Nat.add_left_cancel_iff, Nat.mul_left_cancel_iff (show 0 < 8 by omega)]

theorem mapAddr_pdpt (c : Call) (m : Mem) {i : Nat} (hi : i < 512) :
    (mapAddr c m).read64 (APIC_PDPTE + 8 * i) =
      if i = c.index 2 then 0x23003#64 else m.read64 (APIC_PDPTE + 8 * i) := by
  have h1 := c.index_lt 1
  have h3 := c.index_lt 3
  have ha : (APIC_PDPTE + 8 * i) % 8 = 0 := by simp only [APIC_PDPTE]; omega
  rw [mapAddr_read64 c m ha, if_neg (by simp only [APIC_PDPTE, APIC_PDE]; omega)]
  have hne : ¬ APIC_PDPTE + 8 * i = FIRST_PML4_BASE + 8 * c.index 3 := by
    simp only [FIRST_PML4_BASE, APIC_PDPTE]; omega
  simp only [Nat.add_left_cancel_iff, Nat.mul_left_cancel_iff (show 0 < 8 by omega), if_neg hne]

theorem mapAddr_pd (c : Call) (m : Mem) {i : Nat} (hi : i < 512) :
    (mapAddr c m).read64 (APIC_PDE + 8 * i) =
      if i = c.index 1 then c.pde else m.read64 (APIC_PDE + 8 * i) := by
  have h2 := c.index_lt 2
  have h3 := c.index_lt 3
  have ha : (APIC_PDE + 8 * i) % 8 = 0 := by simp only [APIC_PDE]; omega
  have hne : ¬ APIC_PDE + 8 * i = FIRST_PML4_BASE + 8 * c.index 3 := by
    simp only [FIRST_PML4_BASE, APIC_PDE]; omega
  have hne' : ¬ APIC_PDE + 8 * i = APIC_PDPTE + 8 * c.index 2 := by
    simp only [APIC_PDPTE, APIC_PDE]; omega
  rw [mapAddr_read64 c m ha]
  simp only [Nat.add_left_cancel_iff, Nat.mul_left_cancel_iff (show 0 < 8 by omega), if_neg hne,
    if_neg hne']

/-- After the calls, the PML4 entries the calls name lead to `APIC_PDPTE`. -/
theorem mapAddrs_pml4 {i : Nat} (hi : i < 512) :
    (mapAddrs calls m).read64 (FIRST_PML4_BASE + 8 * i) =
      if ∃ c ∈ calls, i = c.index 3 then 0x22003#64 else m.read64 (FIRST_PML4_BASE + 8 * i) := by
  induction calls using List.reverseRecOn with
  | nil => simp [mapAddrs]
  | append_singleton calls c ih =>
    rw [mapAddrs_snoc, mapAddr_pml4 c _ hi, ih]
    by_cases h : i = c.index 3 <;> simp [h]

theorem mapAddrs_pdpt {i : Nat} (hi : i < 512) :
    (mapAddrs calls m).read64 (APIC_PDPTE + 8 * i) =
      if ∃ c ∈ calls, i = c.index 2 then 0x23003#64 else m.read64 (APIC_PDPTE + 8 * i) := by
  induction calls using List.reverseRecOn with
  | nil => simp [mapAddrs]
  | append_singleton calls c ih =>
    rw [mapAddrs_snoc, mapAddr_pdpt c _ hi, ih]
    by_cases h : i = c.index 2 <;> simp [h]

theorem mapAddrs_pd_out {i : Nat} (hi : i < 512) (h : ∀ c ∈ calls, i ≠ c.index 1) :
    (mapAddrs calls m).read64 (APIC_PDE + 8 * i) = m.read64 (APIC_PDE + 8 * i) := by
  induction calls using List.reverseRecOn with
  | nil => rfl
  | append_singleton calls c ih =>
    rw [mapAddrs_snoc, mapAddr_pd c _ hi, if_neg (h c (by simp)), ih fun c hc => h c (by simp [hc])]

/-- The entry of the page directory is that of the last call with its index. -/
theorem mapAddrs_pd_last {i : Nat} (hi : i < 512) {pre post : List Call} {c : Call}
    (hc : i = c.index 1) (hpost : ∀ d ∈ post, i ≠ d.index 1) :
    (mapAddrs (pre ++ c :: post) m).read64 (APIC_PDE + 8 * i) = c.pde := by
  have happ : mapAddrs (pre ++ c :: post) m = mapAddrs post (mapAddr c (mapAddrs pre m)) := by
    simp [mapAddrs]
  rw [happ, mapAddrs_pd_out hi hpost, mapAddr_pd c _ hi, if_pos hc]

/-! ## The walk -/

/-- The arguments `map_addr` is meant for: a lower-half address, a physical address aligned to
2 MiB, and flags among those of the header with `PAGE_PRESENT`. -/
structure Call.Valid (c : Call) : Prop where
  vaddr : c.vaddr.toNat < 2 ^ 47
  phys : c.phys.toNat % 2 ^ 21 = 0
  flags : c.flags ∈ [0x1#64, 0x3#64, 0x11#64, 0x13#64]

/-- What the call sets for `va`: `phys`, plus the offset in the page. -/
def Call.translation (c : Call) (va : Nat) : Walk.Translation where
  phys := c.phys.toNat % 2 ^ 52 + va % 2 ^ 21
  pageBits := 21
  writable := Walk.bit c.flags 1
  user := false
  writeThrough := false
  cacheDisable := Walk.bit c.flags 4
  noExecute := Walk.bit c.phys 63

theorem Call.Valid.pde_toNat {c : Call} (h : c.Valid) :
    c.pde.toNat = c.phys.toNat + (c.flags.toNat + 0x80) := by
  obtain ⟨q, hq⟩ := Nat.dvd_of_mod_eq_zero h.phys
  have hor : ∀ f, f < 2 ^ 21 → 2 ^ 21 * q + f = 2 ^ 21 * q ||| f :=
    fun f hf => Nat.two_pow_add_eq_or_of_lt hf q
  have hf := h.flags
  rw [Call.pde, BitVec.toNat_or, hq, Nat.or_comm, ← hor]
  · simp only [List.mem_cons, List.not_mem_nil, or_false] at hf
    rcases hf with hf | hf | hf | hf <;> rw [hf] <;> rfl
  · simp only [List.mem_cons, List.not_mem_nil, or_false] at hf
    rcases hf with hf | hf | hf | hf <;> rw [hf] <;> decide

theorem Call.Valid.flags_toNat {c : Call} (h : c.Valid) :
    c.flags.toNat = 0x1 ∨ c.flags.toNat = 0x3 ∨ c.flags.toNat = 0x11 ∨ c.flags.toNat = 0x13 := by
  have hf := h.flags
  simp only [List.mem_cons, List.not_mem_nil, or_false] at hf
  rcases hf with hf | hf | hf | hf <;> rw [hf] <;> decide

theorem Call.Valid.leaf {c : Call} (h : c.Valid) (va : Nat) :
    Walk.leaf ⟨true, false, false⟩ c.pde 21 va = some (c.translation va) := by
  have he := h.pde_toNat
  have hf := h.flags_toNat
  have hp := h.phys
  have h1 : Walk.bit c.pde 1 = Walk.bit c.flags 1 := by
    apply Walk.bit_congr; omega
  have h2 : Walk.bit c.pde 2 = false := by
    simp only [Walk.bit, he, beq_eq_false_iff_ne]; omega
  have h3 : Walk.bit c.pde 3 = false := by
    simp only [Walk.bit, he, beq_eq_false_iff_ne]; omega
  have h4 : Walk.bit c.pde 4 = Walk.bit c.flags 4 := by
    apply Walk.bit_congr; omega
  have h63 : Walk.bit c.pde 63 = Walk.bit c.phys 63 := by
    apply Walk.bit_congr; omega
  have hframe : Walk.frame c.pde 21 = c.phys.toNat % 2 ^ 52 := by
    simp only [Walk.frame, he]; omega
  rw [Walk.leaf, if_neg (by rw [he]; omega)]
  simp only [Walk.Rights.step, h1, h2, h3, h4, h63, hframe, Call.translation, Bool.true_and,
    Bool.and_self, Bool.false_or]

/-! The walk through the shared tables, level by level. -/

theorem walk_pml4 {va : Nat} (h : Walk.entry m FIRST_PML4_BASE 3 va = 0x22003#64) :
    Walk.walk m FIRST_PML4_BASE va = Walk.walkFrom m va 2 APIC_PDPTE ⟨true, false, false⟩ := by
  rw [Walk.walk, Walk.walkFrom_next (by rw [h]; decide) (by rw [h]; decide), h]
  rfl

theorem walkFrom_pdpt {va : Nat} (h : Walk.entry m APIC_PDPTE 2 va = 0x23003#64) :
    Walk.walkFrom m va 2 APIC_PDPTE ⟨true, false, false⟩ =
      Walk.walkFrom m va 1 APIC_PDE ⟨true, false, false⟩ := by
  rw [Walk.walkFrom_next (by rw [h]; decide) (by rw [h]; decide), h]
  rfl

theorem walkFrom_pd {va : Nat} {c : Call} (hv : c.Valid)
    (h : Walk.entry m APIC_PDE 1 va = c.pde) :
    Walk.walkFrom m va 1 APIC_PDE ⟨true, false, false⟩ = some (c.translation va) := by
  have hp := hv.pde_toNat
  have hf := hv.flags_toNat
  have ha := hv.phys
  have h0 : Walk.bit c.pde 0 = true := by simp only [Walk.bit, hp, beq_iff_eq]; omega
  have h7 : Walk.bit c.pde 7 = true := by simp only [Walk.bit, hp, beq_iff_eq]; omega
  rw [Walk.walkFrom_large (by rw [h]; exact h0) (by rw [h]; exact h7) (by omega), h]
  exact hv.leaf va

/-! ## One call, whatever was in memory -/

/-- The call's flags contain `flag`. -/
def Call.Has (c : Call) (flag : BitVec 32) : Prop := c.flags &&& flag.setWidth 64 ≠ 0

instance (c : Call) (flag : BitVec 32) : Decidable (c.Has flag) :=
  inferInstanceAs (Decidable (_ ≠ _))

theorem Call.Valid.flag_bits {c : Call} (h : c.Valid) :
    (Walk.bit c.flags 1 = true ↔ c.Has PAGE_WRITE) ∧ (Walk.bit c.flags 4 = true ↔ c.Has PAGE_UC) := by
  have hf := h.flags
  simp only [List.mem_cons, List.not_mem_nil, or_false] at hf
  unfold Call.Has
  rcases hf with hf | hf | hf | hf <;> rw [hf] <;> decide

/-- Addresses in the page of the call have its indices at the three upper levels. -/
theorem Call.index_eq {c : Call} {a level : Nat} (h : a / 2 ^ 21 = c.vaddr.toNat / 2 ^ 21)
    (hl : 1 ≤ level) : Walk.index level a = c.index level := by
  have hpow : 2 ^ (12 + 9 * level) = 2 ^ 21 * 2 ^ (9 * (level - 1)) := by
    rw [← Nat.pow_add]
    congr 1
    omega
  rw [Call.index, Walk.index, Walk.index, hpow, ← Nat.div_div_eq_div_mul, h,
    Nat.div_div_eq_div_mul]

theorem mapAddr_walk {c : Call} (hv : c.Valid) (m : Mem) {a : Nat}
    (ha : a / 2 ^ 21 = c.vaddr.toNat / 2 ^ 21) :
    Walk.walk (mapAddr c m) FIRST_PML4_BASE a = some (c.translation a) := by
  rw [walk_pml4, walkFrom_pdpt, walkFrom_pd hv]
  · rw [Walk.entry, mapAddr_pd c m (Walk.index_lt 1 a), if_pos (Call.index_eq ha (by decide))]
  · rw [Walk.entry, mapAddr_pdpt c m (Walk.index_lt 2 a), if_pos (Call.index_eq ha (by decide))]
  · rw [Walk.entry, mapAddr_pml4 c m (Walk.index_lt 3 a), if_pos (Call.index_eq ha (by decide))]

/-- The addresses of the three entries a call writes. -/
def Call.entries (c : Call) : List Nat :=
  [FIRST_PML4_BASE + 8 * c.index 3, APIC_PDPTE + 8 * c.index 2, APIC_PDE + 8 * c.index 1]

theorem mapAddr_bytes (c : Call) (m : Mem) {x : Nat}
    (h : ∀ e ∈ c.entries, x < e ∨ e + 8 ≤ x) : mapAddr c m x = m x := by
  simp only [Call.entries, List.mem_cons, List.not_mem_nil, or_false, forall_eq_or_imp,
    forall_eq] at h
  obtain ⟨h3, h2, h1⟩ := h
  rw [mapAddr_eq, Mem.write64, Mem.writeLE_out h1, Mem.write64, Mem.writeLE_out h2, Mem.write64,
    Mem.writeLE_out h3]

/-- Whatever was in memory, a call maps the page of 2 MiB that contains `vaddr` to `phys` with the
rights and the caching its flags ask for, and changes no byte outside the three entries. -/
theorem mapAddr_establishes {c : Call} (hv : c.Valid) (hp : c.phys.toNat < 2 ^ 52) (m : Mem) :
    (∀ a, a / 2 ^ 21 = c.vaddr.toNat / 2 ^ 21 →
      ∃ t, Walk.walk (mapAddr c m) FIRST_PML4_BASE a = some t ∧ t.pageBits = 21 ∧
        t.phys = c.phys.toNat + a % 2 ^ 21 ∧ t.user = false ∧
        (t.writable = true ↔ c.Has PAGE_WRITE) ∧ (t.cacheDisable = true ↔ c.Has PAGE_UC)) ∧
    ∀ x, mapAddr c m x ≠ m x → ∃ e ∈ c.entries, e ≤ x ∧ x < e + 8 := by
  constructor
  · intro a ha
    obtain ⟨hw, hu⟩ := hv.flag_bits
    refine ⟨c.translation a, mapAddr_walk hv m ha, rfl, ?_, rfl, hw, hu⟩
    rw [Call.translation, Nat.mod_eq_of_lt hp]
  · intro x hx
    by_contra hout
    refine hx (mapAddr_bytes c m fun e he => ?_)
    by_contra hbyte
    exact hout ⟨e, he, by omega⟩

/-! ## Any sequence of calls -/

/-- An address whose PML4 index is in some call is walked through the shared PDPT. -/
theorem mapAddrs_walk_pdpt {va : Nat} (h : ∃ c ∈ calls, Walk.index 3 va = c.index 3) :
    Walk.walk (mapAddrs calls m) FIRST_PML4_BASE va =
      Walk.walkFrom (mapAddrs calls m) va 2 APIC_PDPTE ⟨true, false, false⟩ :=
  walk_pml4 (by rw [Walk.entry, mapAddrs_pml4 (Walk.index_lt 3 va), if_pos h])

/-- An address whose PDPT index is in some call, too, is walked through the shared directory. -/
theorem mapAddrs_walk_pd {va : Nat} (h : ∃ c ∈ calls, Walk.index 2 va = c.index 2) :
    Walk.walkFrom (mapAddrs calls m) va 2 APIC_PDPTE ⟨true, false, false⟩ =
      Walk.walkFrom (mapAddrs calls m) va 1 APIC_PDE ⟨true, false, false⟩ :=
  walkFrom_pdpt (by rw [Walk.entry, mapAddrs_pdpt (Walk.index_lt 2 va), if_pos h])

theorem mapAddrs_walk_leaf {va : Nat} {pre post : List Call} {c : Call} (hv : c.Valid)
    (hc : Walk.index 1 va = c.index 1) (hpost : ∀ d ∈ post, Walk.index 1 va ≠ d.index 1) :
    Walk.walkFrom (mapAddrs (pre ++ c :: post) m) va 1 APIC_PDE ⟨true, false, false⟩ =
      some (c.translation va) :=
  walkFrom_pd hv (by rw [Walk.entry, mapAddrs_pd_last (Walk.index_lt 1 va) hc hpost])

/-- The tables `early_page` built below the PML4 survive all calls. -/
theorem IdentityTables.mapAddrs (h : IdentityTables m) (calls : List Call) :
    IdentityTables (Paging.mapAddrs calls m) := by
  refine h.congr fun x hx _ => ?_
  simp only [FIRST_PDPT_BASE] at hx
  exact mapAddrs_out (by simp only [APIC_PDE]; omega) (by simp only [FIRST_PML4_BASE]; omega)

theorem EarlyTables.mapAddrs_walk_out (h : EarlyTables m) {va : Nat}
    (hva : ∀ c ∈ calls, Walk.index 3 va ≠ c.index 3) :
    Walk.walk (Paging.mapAddrs calls m) FIRST_PML4_BASE va = Walk.walk m FIRST_PML4_BASE va := by
  have he : Walk.entry (Paging.mapAddrs calls m) FIRST_PML4_BASE 3 va =
      Walk.entry m FIRST_PML4_BASE 3 va := by
    rw [Walk.entry, mapAddrs_pml4 (Walk.index_lt 3 va), if_neg, Walk.entry]
    rintro ⟨c, hc, heq⟩
    exact hva c hc heq
  by_cases h0 : Walk.index 3 va = 0
  · have hpml4 : Walk.entry m FIRST_PML4_BASE 3 va = 0x33003#64 := by
      rw [Walk.entry, h0]; exact h.pml4_zero
    rw [(h.toIdentityTables.mapAddrs calls).walk (he.trans hpml4), h.toIdentityTables.walk hpml4]
  · have hpml4 : Walk.entry m FIRST_PML4_BASE 3 va = 0#64 :=
      h.pml4 _ (by omega) (Walk.index_lt 3 va)
    rw [Walk.walk, Walk.walkFrom_absent (by rw [he, hpml4]; decide), Walk.walk,
      Walk.walkFrom_absent (by rw [hpml4]; decide)]

/-- Bits 21 to 47 of `va` are those of the call: `va` is in the 2 MiB page the call names. -/
def Call.Names (c : Call) (va : Nat) : Prop := va / 2 ^ 21 % 2 ^ 27 = c.vaddr.toNat / 2 ^ 21 % 2 ^ 27

instance (c : Call) (va : Nat) : Decidable (c.Names va) := inferInstanceAs (Decidable (_ = _))

/-- After any sequence of calls an address all of whose indices are named, each by some call, goes
where the last call with its directory index says; an address with a PML4 index no call names is
where it was; any other one depends on what the two frames held. -/
theorem mapAddrs_walk (m : Mem) (calls : List Call) (hv : ∀ c ∈ calls, c.Valid) (va : Nat) :
    (∀ pre c post, calls = pre ++ c :: post → Walk.index 1 va = c.index 1 →
      (∀ d ∈ post, Walk.index 1 va ≠ d.index 1) → (∃ d ∈ calls, Walk.index 2 va = d.index 2) →
      (∃ d ∈ calls, Walk.index 3 va = d.index 3) →
      Walk.walk (mapAddrs calls (earlyPage m)) FIRST_PML4_BASE va = some (c.translation va)) ∧
    ((∀ d ∈ calls, Walk.index 3 va ≠ d.index 3) →
      Walk.walk (mapAddrs calls (earlyPage m)) FIRST_PML4_BASE va =
        Walk.walk (earlyPage m) FIRST_PML4_BASE va) ∧
    ((∃ d ∈ calls, Walk.index 3 va = d.index 3) → (∀ d ∈ calls, Walk.index 2 va ≠ d.index 2) →
      Walk.bit (Walk.entry m APIC_PDPTE 2 va) 0 = false →
      Walk.walk (mapAddrs calls (earlyPage m)) FIRST_PML4_BASE va = none) ∧
    ((∃ d ∈ calls, Walk.index 3 va = d.index 3) → (∃ d ∈ calls, Walk.index 2 va = d.index 2) →
      (∀ d ∈ calls, Walk.index 1 va ≠ d.index 1) →
      Walk.bit (Walk.entry m APIC_PDE 1 va) 0 = false →
      Walk.walk (mapAddrs calls (earlyPage m)) FIRST_PML4_BASE va = none) := by
  refine ⟨?_, ?_, ?_, ?_⟩
  · rintro pre c post rfl h1 hpost h2 h3
    rw [mapAddrs_walk_pdpt h3, mapAddrs_walk_pd h2, mapAddrs_walk_leaf (hv c (by simp)) h1 hpost]
  · exact (earlyPage_tables m).mapAddrs_walk_out
  · intro h3 h2 h0
    have he : Walk.entry (mapAddrs calls (earlyPage m)) APIC_PDPTE 2 va =
        Walk.entry m APIC_PDPTE 2 va := by
      rw [Walk.entry, mapAddrs_pdpt (Walk.index_lt 2 va), if_neg (by simpa using h2),
        earlyPage_read64_below]
      · rfl
      · have := Walk.index_lt 2 va
        simp only [APIC_PDPTE, FIRST_PML4_BASE]; omega
    rw [mapAddrs_walk_pdpt h3, Walk.walkFrom_absent (by rw [he]; exact h0)]
  · intro h3 h2 h1 h0
    have he : Walk.entry (mapAddrs calls (earlyPage m)) APIC_PDE 1 va =
        Walk.entry m APIC_PDE 1 va := by
      rw [Walk.entry, mapAddrs_pd_out (Walk.index_lt 1 va) h1, earlyPage_read64_below]
      · rfl
      · have := Walk.index_lt 1 va
        simp only [APIC_PDE, FIRST_PML4_BASE]; omega
    rw [mapAddrs_walk_pdpt h3, mapAddrs_walk_pd h2, Walk.walkFrom_absent (by rw [he]; exact h0)]

/-- The call of `start_kernel`. -/
def apicCall : Call := ⟨0x13370000000, 0xfee00000, 0x13⟩

theorem apicCall_valid : apicCall.Valid := ⟨by decide, by decide, by decide⟩

theorem mapAddr_establishes_apic : ∃ t,
    Walk.walk (mapAddr apicCall fun _ => 0xff) FIRST_PML4_BASE 0x13370000020 = some t ∧
      t.phys = 0xfee00020 := by
  obtain ⟨t, hwalk, -, hphys, -⟩ :=
    (mapAddr_establishes apicCall_valid (by decide) fun _ => 0xff).1 0x13370000020 (by decide)
  exact ⟨t, hwalk, hphys⟩

/-- The same page-directory index as `apicCall`, the next PDPT index. -/
def aliasCall : Call := ⟨0x133b0000000, 0x200000, 0x3⟩

theorem aliasCall_valid : aliasCall.Valid := ⟨by decide, by decide, by decide⟩

/-- The second of two calls decides where the addresses of both go. -/
theorem mapAddrs_walk_apic :
    let m := mapAddrs [apicCall, aliasCall] (earlyPage fun _ => 0)
    Walk.walk m FIRST_PML4_BASE 0x13370000020 = some (aliasCall.translation 0x13370000020) ∧
      Walk.walk m FIRST_PML4_BASE 0x133b0000020 = some (aliasCall.translation 0x133b0000020) := by
  have hwalk (va : Nat) := (mapAddrs_walk (fun _ => 0) [apicCall, aliasCall]
    (by simp [apicCall_valid, aliasCall_valid]) va).1 [apicCall] aliasCall [] rfl
  constructor
  · exact hwalk _ (by decide) (by simp) (by decide) (by decide)
  · exact hwalk _ (by decide) (by simp) (by decide) (by decide)

theorem aliasCall_walk (m : Mem) :
    Walk.walk (mapAddrs [apicCall, aliasCall] m) FIRST_PML4_BASE 0x13370000000 =
      some (aliasCall.translation 0x13370000000) := by
  rw [mapAddrs_walk_pdpt (by decide), mapAddrs_walk_pd (by decide)]
  have hlast : Walk.walkFrom (mapAddrs ([apicCall] ++ aliasCall :: []) m) 0x13370000000 1 APIC_PDE
      ⟨true, false, false⟩ = some (aliasCall.translation 0x13370000000) :=
    mapAddrs_walk_leaf aliasCall_valid (by decide) (by simp)
  exact hlast

/-- Two calls for different pages with one page-directory index: the second one takes over the
page of the first. -/
theorem mapAddrs_alias :
    ¬ ∀ (m : Mem) (calls : List Call), (∀ c ∈ calls, c.Valid) →
      (∀ pre c post va, calls = pre ++ c :: post → c.Names va → (∀ d ∈ post, ¬ d.Names va) →
        Walk.walk (mapAddrs calls (earlyPage m)) FIRST_PML4_BASE va = some (c.translation va)) ∧
      (∀ va, (∀ c ∈ calls, ¬ c.Names va) →
        Walk.walk (mapAddrs calls (earlyPage m)) FIRST_PML4_BASE va =
          Walk.walk (earlyPage m) FIRST_PML4_BASE va) := by
  intro h
  have hclaim := (h (fun _ => 0) [apicCall, aliasCall]
    (by simp [apicCall_valid, aliasCall_valid])).1 [] apicCall [aliasCall] 0x13370000000 rfl
    (by decide) (by decide)
  rw [aliasCall_walk] at hclaim
  exact absurd hclaim (by decide)

end Paging
end DeliceOS
