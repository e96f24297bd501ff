import DeliceOS.Base.Store
import DeliceOS.Base.Walk
import Mathlib.Data.BitVec
import Mathlib.Tactic.Ring

/-!
# Paging.EarlyPage

`early_page` of `bootloader.s`: it clears four frames from `0x32000`, links the PML4 to the PDPT
and the PDPT to the page directory, and `fill_pd` fills the directory with 512 pages of 2 MiB.
Every instruction that touches memory is a store, so the routine is the list of its stores.

* `earlyPage_tables`: the entries of the three tables afterwards, whatever memory held before.
* `earlyPage_exact`: the walk of every address, and what `early_page` leaves alone.
-/

namespace DeliceOS
namespace Paging

open Base Base.Store

def FIRST_PML4_BASE : Nat := 0x32000
def FIRST_PDPT_BASE : Nat := 0x33000
def FIRST_PD_BASE : Nat := 0x34000
def PAGE_PRESENT : BitVec 32 := 1 <<< 0
def PAGE_WRITE : BitVec 32 := 1 <<< 1
def PAGE_SIZE : BitVec 32 := 1 <<< 7

/-- `rep stosd` with the direction flag clear: `ecx` doublewords of value `eax` from `edi`. -/
def repStosd (eax : BitVec 32) : Nat → Nat → List Store
  | 0, _ => []
  | ecx + 1, edi => ⟨edi, 4, eax.toNat⟩ :: repStosd eax ecx (edi + 4)

def doMemsetZero (ecx edi : Nat) : List Store := repStosd 0 ecx edi

/-- `ecx` rounds of the loop at `fill_pd`. -/
def fillPd : Nat → Nat → BitVec 32 → List Store
  | 0, _, _ => []
  | ecx + 1, edi, ebx =>
    ⟨edi, 4, ((PAGE_PRESENT ||| PAGE_WRITE ||| PAGE_SIZE) ||| ebx).toNat⟩ ::
      fillPd ecx (edi + 8) (ebx + 0x200000#32)

def earlyPageStores : List Store :=
  doMemsetZero 4096 FIRST_PML4_BASE ++
  [⟨FIRST_PML4_BASE, 4, ((PAGE_PRESENT ||| PAGE_WRITE) ||| BitVec.ofNat 32 FIRST_PDPT_BASE).toNat⟩,
   ⟨FIRST_PDPT_BASE, 4, ((PAGE_PRESENT ||| PAGE_WRITE) ||| BitVec.ofNat 32 FIRST_PD_BASE).toNat⟩] ++
  fillPd 512 FIRST_PD_BASE 0

def earlyPage (m : Mem) : Mem := run earlyPageStores m

/-- The same with the return addresses its two `call`s push at `esp`. -/
def earlyPageCode (esp ret ret' : Nat) : List Store :=
  ⟨esp, 4, ret⟩ :: (doMemsetZero 4096 FIRST_PML4_BASE ++
  [⟨FIRST_PML4_BASE, 4, ((PAGE_PRESENT ||| PAGE_WRITE) ||| BitVec.ofNat 32 FIRST_PDPT_BASE).toNat⟩,
   ⟨FIRST_PDPT_BASE, 4, ((PAGE_PRESENT ||| PAGE_WRITE) ||| BitVec.ofNat 32 FIRST_PD_BASE).toNat⟩] ++
  ⟨esp, 4, ret'⟩ :: fillPd 512 FIRST_PD_BASE 0)

/-! ## The loops -/

theorem repStosd_eq (eax : BitVec 32) (ecx : Nat) : ∀ edi,
    repStosd eax ecx edi = (List.range ecx).map fun k => ⟨edi + 4 * k, 4, eax.toNat⟩ := by
  induction ecx with
  | zero => intro edi; rfl
  | succ n ih =>
    intro edi
    rw [repStosd, ih, List.range_succ_eq_map, List.map_cons, List.map_map]
    congr 1
    apply List.map_congr_left
    intro k _
    simp only [Function.comp]
    congr 1
    omega

theorem repStosd_addr {eax : BitVec 32} {ecx edi : Nat} {s : Store}
    (h : s ∈ repStosd eax ecx edi) : edi ≤ s.addr := by
  rw [repStosd_eq, List.mem_map] at h
  obtain ⟨k, _, rfl⟩ := h
  exact Nat.le_add_right edi (4 * k)

theorem run_doMemsetZero (ecx edi : Nat) (m : Mem) (x : Nat) :
    run (doMemsetZero ecx edi) m x = if edi ≤ x ∧ x < edi + 4 * ecx then 0 else m x := by
  have hzero : ∀ s ∈ doMemsetZero ecx edi, s.val = 0 := by
    intro s hs
    rw [doMemsetZero, repStosd_eq, List.mem_map] at hs
    obtain ⟨k, _, rfl⟩ := hs
    rfl
  rw [run_zero hzero]
  refine if_congr ?_ rfl rfl
  simp only [doMemsetZero, repStosd_eq, List.mem_map, List.mem_range, Misses]
  constructor
  · rintro ⟨_, ⟨k, hk, rfl⟩, hx⟩
    simp only at hx
    omega
  · intro hx
    refine ⟨_, ⟨(x - edi) / 4, by omega, rfl⟩, ?_⟩
    simp only
    omega

theorem fillPd_mem {ecx : Nat} : ∀ {edi : Nat} {ebx : BitVec 32} {s : Store},
    s ∈ fillPd ecx edi ebx → ∃ k, k < ecx ∧ s.addr = edi + 8 * k ∧ s.size = 4 := by
  induction ecx with
  | zero => intro edi ebx s h; simp [fillPd] at h
  | succ n ih =>
    intro edi ebx s h
    rcases List.mem_cons.mp h with rfl | h
    · exact ⟨0, by omega, by simp, rfl⟩
    · obtain ⟨k, hk, ha, hs⟩ := ih h
      exact ⟨k + 1, by omega, by omega, hs⟩

theorem ebx_step (ebx step : BitVec 32) (k : Nat) :
    ebx + step + BitVec.ofNat 32 k * step = ebx + BitVec.ofNat 32 (k + 1) * step := by
  rw [BitVec.ofNat_add, show BitVec.ofNat 32 1 = 1 from rfl]
  ring

/-- Entry `k` of the directory, low half. -/
theorem run_fillPd_low (ecx : Nat) : ∀ (edi : Nat) (ebx : BitVec 32) (m : Mem) (k : Nat), k < ecx →
    (run (fillPd ecx edi ebx) m).read32 (edi + 8 * k) =
      (PAGE_PRESENT ||| PAGE_WRITE ||| PAGE_SIZE) ||| (ebx + BitVec.ofNat 32 k * 0x200000#32) := by
  induction ecx with
  | zero => intro _ _ _ k hk; omega
  | succ n ih =>
    intro edi ebx m k hk
    rw [fillPd, run_cons]
    cases k with
    | zero =>
      have hrest : ∀ m : Mem, (run (fillPd n (edi + 8) (ebx + 0x200000#32)) m).read32 edi =
          m.read32 edi := by
        intro m
        refine Mem.read32_congr fun x hx hx' => run_out (fun s hs => ?_) m
        obtain ⟨j, _, ha, hsz⟩ := fillPd_mem hs
        simp only [Misses]
        omega
      rw [show edi + 8 * 0 = edi from rfl, hrest, BitVec.zero_mul, BitVec.add_zero]
      exact Mem.read32_write32 m edi _
    | succ k =>
      rw [show edi + 8 * (k + 1) = edi + 8 + 8 * k by omega, ih _ _ _ k (by omega), ebx_step]

/-- What `fill_pd` leaves alone: everything but the low half of each entry. -/
theorem run_fillPd_out {ecx edi : Nat} {ebx : BitVec 32} {x : Nat}
    (h : x < edi ∨ edi + 8 * ecx ≤ x ∨ 4 ≤ (x - edi) % 8) (m : Mem) :
    run (fillPd ecx edi ebx) m x = m x := by
  refine run_out (fun s hs => ?_) m
  obtain ⟨k, hk, ha, hsz⟩ := fillPd_mem hs
  simp only [Misses]
  omega

/-! ## The tables -/

/-- The PDPT and the page directory after `early_page`: 512 pages of 2 MiB, reached through
entry 0 of the PDPT. -/
structure IdentityTables (m : Mem) : Prop where
  pdpt_zero : m.read64 FIRST_PDPT_BASE = 0x34003#64
  pdpt : ∀ i, 0 < i → i < 512 → m.read64 (FIRST_PDPT_BASE + 8 * i) = 0#64
  pd : ∀ k, k < 512 → (m.read64 (FIRST_PD_BASE + 8 * k)).toNat = 0x200000 * k + 0x83

structure EarlyTables (m : Mem) : Prop extends IdentityTables m where
  pml4_zero : m.read64 FIRST_PML4_BASE = 0x33003#64
  pml4 : ∀ i, 0 < i → i < 512 → m.read64 (FIRST_PML4_BASE + 8 * i) = 0#64

theorem pml4_word : (PAGE_PRESENT ||| PAGE_WRITE) ||| BitVec.ofNat 32 FIRST_PDPT_BASE = 0x33003#32 := by
  decide

theorem pdpt_word : (PAGE_PRESENT ||| PAGE_WRITE) ||| BitVec.ofNat 32 FIRST_PD_BASE = 0x34003#32 := by
  decide

/-- Memory after the clearing and the two links, before `fill_pd`. -/
def linked (m : Mem) : Mem :=
  ((run (doMemsetZero 4096 FIRST_PML4_BASE) m).write32 FIRST_PML4_BASE 0x33003#32).write32
    FIRST_PDPT_BASE 0x34003#32

theorem earlyPage_eq (m : Mem) : earlyPage m = run (fillPd 512 FIRST_PD_BASE 0#32) (linked m) := by
  rw [earlyPage, earlyPageStores, run_append, run_append, pml4_word, pdpt_word, run_cons, run_cons,
    run_nil, linked, Mem.write32, Mem.write32]
  rfl

theorem linked_out (m : Mem) {x : Nat} (h4 : x < FIRST_PML4_BASE ∨ FIRST_PML4_BASE + 4 ≤ x)
    (h3 : x < FIRST_PDPT_BASE ∨ FIRST_PDPT_BASE + 4 ≤ x) :
    linked m x = if FIRST_PML4_BASE ≤ x ∧ x < FIRST_PML4_BASE + 4 * 4096 then 0 else m x := by
  rw [linked, Mem.write32, Mem.writeLE_out h3, Mem.write32, Mem.writeLE_out h4, run_doMemsetZero]

/-- A frame of the four that `early_page` clears, away from the doublewords it then stores. -/
theorem earlyPage_zero (m : Mem) {x : Nat} (h : 0x32000 ≤ x) (h' : x < 0x36000)
    (h4 : x < 0x32000 ∨ 0x32004 ≤ x) (h3 : x < 0x33000 ∨ 0x33004 ≤ x)
    (h2 : x < 0x34000 ∨ 0x35000 ≤ x ∨ 4 ≤ (x - 0x34000) % 8) : earlyPage m x = 0 := by
  rw [earlyPage_eq, run_fillPd_out (by simpa [FIRST_PD_BASE] using h2), linked_out m h4 h3,
    if_pos (by simp only [FIRST_PML4_BASE]; omega)]

/-- `early_page` stores nothing outside the four frames. -/
theorem earlyPage_out (m : Mem) {x : Nat} (h : x < FIRST_PML4_BASE ∨ 0x36000 ≤ x) :
    earlyPage m x = m x := by
  simp only [FIRST_PML4_BASE] at h
  rw [earlyPage_eq, run_fillPd_out (by simp only [FIRST_PD_BASE]; omega),
    linked_out m (by simp only [FIRST_PML4_BASE]; omega) (by simp only [FIRST_PDPT_BASE]; omega),
    if_neg (by simp only [FIRST_PML4_BASE]; omega)]

theorem earlyPage_read64_below (m : Mem) {a : Nat} (h : a + 8 ≤ FIRST_PML4_BASE) :
    (earlyPage m).read64 a = m.read64 a :=
  Mem.read64_congr fun _ _ hx => earlyPage_out m (.inl (by omega))

/-- An entry whose high half is clear. -/
theorem read64_of_high_zero {m : Mem} {a : Nat} (h : ∀ x, a + 4 ≤ x → x < a + 8 → m x = 0) :
    (m.read64 a).toNat = (m.read32 a).toNat := by
  rw [Mem.read64_toNat, Mem.read32_zero fun x hx hx' => h x hx (by omega)]
  rfl

/-- `fill_pd` writes nothing below the directory. -/
theorem earlyPage_read32_below (m : Mem) {a : Nat} (h : a + 4 ≤ FIRST_PD_BASE) :
    (earlyPage m).read32 a = (linked m).read32 a := by
  rw [earlyPage_eq]
  exact Mem.read32_congr fun x _ hx => run_fillPd_out (.inl (by omega)) _

theorem earlyPage_low_pml4 (m : Mem) : (earlyPage m).read32 FIRST_PML4_BASE = 0x33003#32 := by
  rw [earlyPage_read32_below m (by decide), linked, Mem.read32_write32_disjoint (.inl (by decide)),
    Mem.read32_write32]

theorem earlyPage_low_pdpt (m : Mem) : (earlyPage m).read32 FIRST_PDPT_BASE = 0x34003#32 := by
  rw [earlyPage_read32_below m (by decide), linked, Mem.read32_write32]

theorem earlyPage_low_pd (m : Mem) {k : Nat} (hk : k < 512) :
    ((earlyPage m).read32 (FIRST_PD_BASE + 8 * k)).toNat = 0x200000 * k + 0x83 := by
  rw [earlyPage_eq, run_fillPd_low 512 _ _ _ k hk]
  have hlt : k * 2 ^ 21 < 2 ^ 32 := by omega
  have hv : (0#32 + BitVec.ofNat 32 k * 0x200000#32).toNat = 2 ^ 21 * k := by
    rw [BitVec.zero_add, ← BitVec.ofNat_mul, BitVec.toNat_ofNat]
    exact (Nat.mod_eq_of_lt hlt).trans (Nat.mul_comm ..)
  have hor := Nat.two_pow_add_eq_or_of_lt (show 0x83 < 2 ^ 21 by omega) k
  have hflags : (PAGE_PRESENT ||| PAGE_WRITE ||| PAGE_SIZE).toNat = 0x83 := by decide
  rw [BitVec.toNat_or, hv, Nat.or_comm, hflags]
  omega

theorem earlyPage_tables (m : Mem) : EarlyTables (earlyPage m) where
  pml4_zero := by
    apply BitVec.eq_of_toNat_eq
    rw [read64_of_high_zero, earlyPage_low_pml4]
    · decide
    · intro x hx hx'
      simp only [FIRST_PML4_BASE] at hx hx'
      exact earlyPage_zero m (by omega) (by omega) (by omega) (by omega) (by omega)
  pml4 i hi hi' := Mem.read64_zero fun x hx hx' => by
    simp only [FIRST_PML4_BASE] at hx hx'
    exact earlyPage_zero m (by omega) (by omega) (by omega) (by omega) (by omega)
  pdpt_zero := by
    apply BitVec.eq_of_toNat_eq
    rw [read64_of_high_zero, earlyPage_low_pdpt]
    · decide
    · intro x hx hx'
      simp only [FIRST_PDPT_BASE] at hx hx'
      exact earlyPage_zero m (by omega) (by omega) (by omega) (by omega) (by omega)
  pdpt i hi hi' := Mem.read64_zero fun x hx hx' => by
    simp only [FIRST_PDPT_BASE] at hx hx'
    exact earlyPage_zero m (by omega) (by omega) (by omega) (by omega) (by omega)
  pd k hk := by
    rw [read64_of_high_zero, earlyPage_low_pd m hk]
    intro x hx hx'
    simp only [FIRST_PD_BASE] at hx hx'
    exact earlyPage_zero m (by omega) (by omega) (by omega) (by omega) (by omega)

/-! ## The walk -/

/-- The translation of `va` to itself, by a page of 2 MiB. -/
def identity (va : Nat) : Walk.Translation where
  phys := va
  pageBits := 21
  writable := true
  user := false
  writeThrough := false
  cacheDisable := false
  noExecute := false

theorem leaf_identity {e : BitVec 64} {k va : Nat} (hk : k < 512)
    (he : e.toNat = 0x200000 * k + 0x83) (hva : Walk.index 1 va = k) :
    Walk.leaf ⟨true, false, false⟩ e 21 va = some (identity (va % 2 ^ 30)) := by
  have h1 : Walk.bit e 1 = true := by simp only [Walk.bit, he, beq_iff_eq]; omega
  have h2 : Walk.bit e 2 = false := by simp only [Walk.bit, he, beq_eq_false_iff_ne]; omega
  have h3 : Walk.bit e 3 = false := by simp only [Walk.bit, he, beq_eq_false_iff_ne]; omega
  have h4 : Walk.bit e 4 = false := by simp only [Walk.bit, he, beq_eq_false_iff_ne]; omega
  have h63 : Walk.bit e 63 = false := by simp only [Walk.bit, he, beq_eq_false_iff_ne]; omega
  have hframe : Walk.frame e 21 = k * 2 ^ 21 := by simp only [Walk.frame, he]; omega
  have hphys : va % 2 ^ 30 = k * 2 ^ 21 + va % 2 ^ 21 := by simp only [Walk.index] at hva; omega
  rw [Walk.leaf, if_neg (by rw [he]; omega)]
  simp only [Walk.Rights.step, h1, h2, h3, h4, h63, hframe, identity, hphys, Bool.and_self,
    Bool.or_self]

/-- Below the PML4, `early_page` maps the first GiB of each 512 GiB to physical memory. -/
theorem IdentityTables.walkFrom {m : Mem} (h : IdentityTables m) (va : Nat) :
    Walk.walkFrom m va 2 FIRST_PDPT_BASE ⟨true, false, false⟩ =
      if Walk.index 2 va = 0 then some (identity (va % 2 ^ 30)) else none := by
  have hi := Walk.index_lt 2 va
  have hk := Walk.index_lt 1 va
  by_cases h0 : Walk.index 2 va = 0
  · have hpdpt : Walk.entry m FIRST_PDPT_BASE 2 va = 0x34003#64 := by
      rw [Walk.entry, h0]; exact h.pdpt_zero
    have hpd : (Walk.entry m FIRST_PD_BASE 1 va).toNat = 0x200000 * Walk.index 1 va + 0x83 :=
      h.pd _ hk
    have hp : Walk.bit (Walk.entry m FIRST_PD_BASE 1 va) 0 = true := by
      simp only [Walk.bit, hpd, beq_iff_eq]; omega
    have hps : Walk.bit (Walk.entry m FIRST_PD_BASE 1 va) 7 = true := by
      simp only [Walk.bit, hpd, beq_iff_eq]; omega
    rw [if_pos h0, Walk.walkFrom_next (by rw [hpdpt]; decide) (by rw [hpdpt]; decide), hpdpt,
      show Walk.frame 0x34003#64 12 = FIRST_PD_BASE by decide, Walk.walkFrom_large hp hps (by omega)]
    exact leaf_identity hk hpd rfl
  · have hpdpt : Walk.entry m FIRST_PDPT_BASE 2 va = 0#64 := h.pdpt _ (by omega) hi
    rw [if_neg h0, Walk.walkFrom_absent (by rw [hpdpt]; decide)]

theorem IdentityTables.walk {m : Mem} (h : IdentityTables m) {va : Nat}
    (hpml4 : Walk.entry m FIRST_PML4_BASE 3 va = 0x33003#64) :
    Walk.walk m FIRST_PML4_BASE va =
      if Walk.index 2 va = 0 then some (identity (va % 2 ^ 30)) else none := by
  rw [Walk.walk, Walk.walkFrom_next (by rw [hpml4]; decide) (by rw [hpml4]; decide), hpml4,
    show Walk.frame 0x33003#64 12 = FIRST_PDPT_BASE by decide,
    show Walk.Rights.all.step 0x33003#64 = ⟨true, false, false⟩ by decide, h.walkFrom]

/-- `early_page` maps the first GiB to itself and nothing else. -/
theorem EarlyTables.walk {m : Mem} (h : EarlyTables m) (va : Nat) :
    Walk.walk m FIRST_PML4_BASE va =
      if Walk.index 3 va = 0 ∧ Walk.index 2 va = 0 then some (identity (va % 2 ^ 30)) else none := by
  have hi := Walk.index_lt 3 va
  by_cases h0 : Walk.index 3 va = 0
  · have hpml4 : Walk.entry m FIRST_PML4_BASE 3 va = 0x33003#64 := by
      rw [Walk.entry, h0]; exact h.pml4_zero
    rw [h.toIdentityTables.walk hpml4]
    simp [h0]
  · have hpml4 : Walk.entry m FIRST_PML4_BASE 3 va = 0#64 := h.pml4 _ (by omega) hi
    rw [Walk.walk, Walk.walkFrom_absent (by rw [hpml4]; decide), if_neg fun h => h0 h.1]

/-! ## With the stack -/

/-- Away from the stack slot the pushes make no difference. -/
theorem run_earlyPageCode (m : Mem) {esp : Nat} (ret ret' : Nat) {x : Nat} (h : x < esp ∨ esp + 4 ≤ x) :
    run (earlyPageCode esp ret ret') m x = earlyPage m x := by
  have hpush : ∀ (v : Nat) (m : Mem), apply ⟨esp, 4, v⟩ m x = m x :=
    fun v m => apply_out (by simp only [Misses]; omega)
  rw [earlyPageCode, earlyPage, earlyPageStores, run_cons, run_append, run_append, run_append,
    run_append, run_cons]
  refine run_congr _ ?_
  rw [hpush]
  refine run_congr _ ?_
  exact run_congr _ (hpush ret m)

theorem IdentityTables.congr {m m' : Mem} (h : IdentityTables m)
    (hm : ∀ x, FIRST_PDPT_BASE ≤ x → x < 0x36000 → m' x = m x) : IdentityTables m' := by
  have hread : ∀ a, FIRST_PDPT_BASE ≤ a → a + 8 ≤ 0x36000 → m'.read64 a = m.read64 a :=
    fun a ha ha' => Mem.read64_congr fun x hx hx' => hm x (by omega) (by omega)
  simp only [FIRST_PDPT_BASE] at hread
  constructor
  · rw [hread _ (by decide) (by decide)]; exact h.pdpt_zero
  · intro i hi hi'
    rw [hread _ (by simp only [FIRST_PDPT_BASE]; omega) (by simp only [FIRST_PDPT_BASE]; omega)]
    exact h.pdpt i hi hi'
  · intro k hk
    rw [hread _ (by simp only [FIRST_PD_BASE]; omega) (by simp only [FIRST_PD_BASE]; omega)]
    exact h.pd k hk

theorem EarlyTables.congr {m m' : Mem} (h : EarlyTables m)
    (hm : ∀ x, FIRST_PML4_BASE ≤ x → x < 0x36000 → m' x = m x) : EarlyTables m' := by
  have hread : ∀ a, FIRST_PML4_BASE ≤ a → a + 8 ≤ 0x36000 → m'.read64 a = m.read64 a :=
    fun a ha ha' => Mem.read64_congr fun x hx hx' => hm x (by omega) (by omega)
  simp only [FIRST_PML4_BASE] at hread hm
  refine ⟨h.toIdentityTables.congr fun x hx => hm x ?_, ?_, fun i hi hi' => ?_⟩
  · simp only [FIRST_PDPT_BASE] at hx
    omega
  · rw [hread _ (by decide) (by decide)]; exact h.pml4_zero
  · rw [hread _ (by simp only [FIRST_PML4_BASE]; omega) (by simp only [FIRST_PML4_BASE]; omega)]
    exact h.pml4 i hi hi'

/-- With its stack slot away from the tables, `early_page` maps the first GiB to itself by
writable supervisor pages of 2 MiB and no other 48-bit address, and stores only to the four
frames and that slot. -/
theorem earlyPage_exact (m : Mem) {esp : Nat} (ret ret' : Nat)
    (h : esp + 4 ≤ FIRST_PML4_BASE ∨ 0x36000 ≤ esp) :
    (∀ va, va < 2 ^ 30 →
      Walk.walk (run (earlyPageCode esp ret ret') m) FIRST_PML4_BASE va = some (identity va)) ∧
    (∀ va, 2 ^ 30 ≤ va → va < 2 ^ 48 →
      Walk.walk (run (earlyPageCode esp ret ret') m) FIRST_PML4_BASE va = none) ∧
    ∀ x, x < FIRST_PML4_BASE ∨ 0x36000 ≤ x → x < esp ∨ esp + 4 ≤ x →
      run (earlyPageCode esp ret ret') m x = m x := by
  have htables : EarlyTables (run (earlyPageCode esp ret ret') m) :=
    (earlyPage_tables m).congr fun x hx hx' => run_earlyPageCode m ret ret' (by omega)
  refine ⟨fun va hva => ?_, fun va hva hva' => ?_, fun x hx hs => ?_⟩
  · rw [htables.walk, if_pos (by simp only [Walk.index]; omega), Nat.mod_eq_of_lt hva]
  · rw [htables.walk, if_neg (by simp only [Walk.index]; omega)]
  · rw [run_earlyPageCode m ret ret' hs, earlyPage_out m hx]

/-- On the stack of the boot code, where `esp` is `0x7c00` before the call of `early_page`. -/
theorem earlyPage_exact_boot :
    Walk.walk (run (earlyPageCode 0x7bf8 0x7d00 0x7d40) fun _ => 0xff) FIRST_PML4_BASE 0x12345678 =
      some (identity 0x12345678) :=
  (earlyPage_exact (fun _ => 0xff) 0x7d00 0x7d40 (.inl (by decide))).1 0x12345678 (by decide)

end Paging
end DeliceOS
