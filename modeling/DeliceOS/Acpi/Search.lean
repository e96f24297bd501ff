import DeliceOS.Base.CInt
import DeliceOS.Base.Extremum
import DeliceOS.Base.Mem

/-!
# Acpi.Search

`memcmp` and the search for the RSDP. Loads are at physical addresses.

* `memcmp_eq_zero_iff`: `memcmp` answers 0 exactly if the bytes agree.
* `memcmp_contract_iff`: when it also keeps to the rest of the contract of the C function.
* `checkRsdtLoop_eq_find?`: the search finds the first signature among the addresses it steps
  through.
* `checkRsdtReads_congr`: the bytes listed in `checkRsdtReads` decide what it finds.
* `checkRsdt_scan`: what the search finds and which bytes it reads.
-/

namespace DeliceOS
namespace Acpi

open Base

/-! ## Comparing -/

/-- The loop of `memcmp`: the index where it stops and the count left. With the count at 0 it
still looks at the bytes before it stops. -/
def memcmpLoop (src dest : Mem) : Nat → Nat → Nat × Nat
  | i, 0 => (i, 0)
  | i, size + 1 => if src i = dest i then memcmpLoop src dest (i + 1) size else (i, size + 1)

/-- `char` is signed here. -/
def memcmp (src dest : Mem) (size : Nat) : Int :=
  let r := memcmpLoop src dest 0 size
  if r.2 = 0 then 0 else (src r.1).toInt - (dest r.1).toInt

/-- The bytes of `src` that `memcmp` looks at. -/
def memcmpReads (src dest : Mem) : Nat → Nat → List Nat
  | i, 0 => [i]
  | i, size + 1 => if src i = dest i then i :: memcmpReads src dest (i + 1) size else [i]

/-- A string literal: its bytes and the NUL behind them. -/
def literal (s : List (BitVec 8)) : Mem := fun i => s.getD i 0

/-- `"RSD PTR "`. -/
def rsdPtr : List (BitVec 8) := [0x52, 0x53, 0x44, 0x20, 0x50, 0x54, 0x52, 0x20]

/-- `"APIC"`. -/
def apic : List (BitVec 8) := [0x41, 0x50, 0x49, 0x43]

/-- What a `char*` to address `a` reads. -/
def ptr (m : Mem) (a : Nat) : Mem := fun i => m (a + i)

def HasSignature (m : Mem) (s : List (BitVec 8)) (a : Nat) : Prop :=
  ∀ k < s.length, m (a + k) = s.getD k 0

instance (m : Mem) (s : List (BitVec 8)) (a : Nat) : Decidable (HasSignature m s a) :=
  inferInstanceAs (Decidable (∀ k < s.length, _))

/-- Byte `k` is the first in which the buffers differ. -/
structure DiffersFirst (src dest : Mem) (k : Nat) : Prop where
  before : ∀ j < k, src j = dest j
  ne : src k ≠ dest k

theorem agree_succ {src dest : Mem} {i n : Nat} :
    (∀ k < n + 1, src (i + k) = dest (i + k)) ↔
      src i = dest i ∧ ∀ k < n, src (i + 1 + k) = dest (i + 1 + k) := by
  rw [Nat.forall_lt_succ_left]
  simp only [Nat.add_zero, Nat.add_right_comm i 1, Nat.add_assoc]

/-- The loop goes through buffers that agree. -/
theorem memcmpLoop_agree {src dest : Mem} {size : Nat} : ∀ {i : Nat},
    (∀ k < size, src (i + k) = dest (i + k)) → memcmpLoop src dest i size = (i + size, 0) := by
  induction size with
  | zero => intro i _; rfl
  | succ size ih =>
    intro i h
    obtain ⟨hhere, hrest⟩ := agree_succ.mp h
    rw [memcmpLoop, if_pos hhere, ih hrest, Nat.add_right_comm, Nat.add_assoc]

theorem DiffersFirst.unique {src dest : Mem} {k k' : Nat} (h : DiffersFirst src dest k)
    (h' : DiffersFirst src dest k') : k = k' := by
  rcases Nat.lt_trichotomy k k' with hlt | heq | hgt
  · exact absurd (h'.before k hlt) h.ne
  · exact heq
  · exact absurd (h.before k' hgt) h'.ne

theorem exists_differsFirst {src dest : Mem} {size : Nat} (h : ¬ ∀ k < size, src k = dest k) :
    ∃ k < size, DiffersFirst src dest k := by
  have hex : ∃ k, k < size ∧ src k ≠ dest k := by
    by_contra hall
    exact h fun k hk => by_contra fun hne => hall ⟨k, hk, hne⟩
  obtain ⟨hlt, hne⟩ := Nat.find_spec hex
  refine ⟨Nat.find hex, hlt, fun j hj => ?_, hne⟩
  by_contra hj'
  exact Nat.find_min hex hj ⟨Nat.lt_trans hj hlt, hj'⟩

/-- The loop stops at the first difference. -/
theorem memcmpLoop_stops {src dest : Mem} {k size : Nat} (hk : k < size) :
    ∀ {i : Nat}, (∀ j < k, src (i + j) = dest (i + j)) → src (i + k) ≠ dest (i + k) →
      memcmpLoop src dest i size = (i + k, size - k) := by
  induction size generalizing k with
  | zero => omega
  | succ size ih =>
    intro i hbefore hne
    cases k with
    | zero => exact if_neg hne
    | succ k =>
      obtain ⟨hhere, hrest⟩ := agree_succ.mp hbefore
      have hnext : i + (k + 1) = i + 1 + k := by omega
      rw [hnext] at hne
      rw [memcmpLoop, if_pos hhere, ih (by omega) hrest hne, hnext, Nat.add_sub_add_right]

theorem DiffersFirst.memcmp_eq {src dest : Mem} {k size : Nat} (h : DiffersFirst src dest k)
    (hk : k < size) : memcmp src dest size = (src k).toInt - (dest k).toInt := by
  have hloop : memcmpLoop src dest 0 size = (0 + k, size - k) :=
    memcmpLoop_stops hk (by simpa only [Nat.zero_add] using h.before)
      (by simpa only [Nat.zero_add] using h.ne)
  simp only [memcmp, hloop, Nat.zero_add]
  rw [if_neg (by omega)]

theorem memcmp_eq_zero_iff (src dest : Mem) (size : Nat) :
    memcmp src dest size = 0 ↔ ∀ k < size, src k = dest k := by
  constructor
  · intro h
    by_contra hdiffer
    obtain ⟨k, hk, hdiff⟩ := exists_differsFirst hdiffer
    rw [hdiff.memcmp_eq hk] at h
    exact hdiff.ne (BitVec.eq_of_toInt_eq (by omega))
  · intro h
    have hloop : memcmpLoop src dest 0 size = (0 + size, 0) :=
      memcmpLoop_agree (by simpa only [Nat.zero_add] using h)
    simp only [memcmp, hloop]
    rfl

theorem memcmp_literal (m : Mem) (s : List (BitVec 8)) (a : Nat) :
    memcmp (ptr m a) (literal s) s.length = 0 ↔ HasSignature m s a := memcmp_eq_zero_iff _ _ _

theorem memcmp_rsdPtr (m : Mem) (a : Nat) :
    memcmp (ptr m a) (literal rsdPtr) 8 = 0 ↔ HasSignature m rsdPtr a := memcmp_literal m rsdPtr a

theorem memcmp_apic (m : Mem) (a : Nat) :
    memcmp (ptr m a) (literal apic) 4 = 0 ↔ HasSignature m apic a := memcmp_literal m apic a

/-- `memcmp` looks at byte `j` if it finds those before it equal. -/
theorem mem_memcmpReads {src dest : Mem} {size : Nat} : ∀ {i k : Nat},
    k ∈ memcmpReads src dest i size ↔
      ∃ j < size + 1, k = i + j ∧ ∀ l < j, src (i + l) = dest (i + l) := by
  induction size with
  | zero => intro i k; simp [memcmpReads]
  | succ size ih =>
    intro i k
    rw [Nat.exists_lt_succ_left, memcmpReads]
    simp only [agree_succ]
    split
    · rename_i heq
      rw [List.mem_cons, ih]
      simp [heq, Nat.add_right_comm i 1, Nat.add_assoc]
    · rename_i hne
      simp [hne]

/-! ## The contract of the C function -/

/-- The indices of the bytes that `memcmp` reads of both buffers: those of the loop and, where the
result is a difference, that of the two bytes again. -/
def memcmpIndices (src dest : Mem) (size : Nat) : List Nat :=
  let r := memcmpLoop src dest 0 size
  memcmpReads src dest 0 size ++ if r.2 = 0 then [] else [r.1]

/-- What the C function promises for `size` bytes. -/
structure MemcmpContract (src dest : Mem) (size : Nat) : Prop where
  zero : memcmp src dest size = 0 ↔ ∀ k < size, src k = dest k
  sign : ∀ k < size, DiffersFirst src dest k →
    (memcmp src dest size).sign = (((src k).toNat : Int) - (dest k).toNat).sign
  reads : ∀ k ∈ memcmpIndices src dest size, k < size

theorem memcmpLoop_mem_reads (src dest : Mem) (size : Nat) :
    ∀ i, (memcmpLoop src dest i size).1 ∈ memcmpReads src dest i size := by
  induction size with
  | zero => intro i; simp [memcmpLoop, memcmpReads]
  | succ size ih =>
    intro i
    simp only [memcmpLoop, memcmpReads]
    split
    · exact List.mem_cons_of_mem _ (ih (i + 1))
    · exact List.mem_singleton_self i

theorem memcmpLoop_congr {src src' dest : Mem} {size : Nat} : ∀ {i : Nat},
    (∀ k ∈ memcmpReads src dest i size, src' k = src k) →
      memcmpLoop src' dest i size = memcmpLoop src dest i size := by
  induction size with
  | zero => intro i _; rfl
  | succ size ih =>
    intro i h
    rw [memcmpReads] at h
    rw [memcmpLoop, memcmpLoop]
    by_cases heq : src i = dest i
    · rw [if_pos heq] at h
      have hhere : src' i = src i := h i List.mem_cons_self
      rw [hhere, if_pos heq, if_pos heq]
      exact ih fun k hk => h k (List.mem_cons_of_mem i hk)
    · rw [if_neg heq] at h
      have hhere : src' i = src i := h i List.mem_cons_self
      rw [hhere, if_neg heq, if_neg heq]

/-- The bytes read decide what `memcmp` answers. -/
theorem memcmpReads_congr {src src' dest : Mem} {size : Nat}
    (h : ∀ k ∈ memcmpReads src dest 0 size, src' k = src k) :
    memcmp src' dest size = memcmp src dest size := by
  have hlast : src' (memcmpLoop src dest 0 size).1 = src (memcmpLoop src dest 0 size).1 :=
    h _ (memcmpLoop_mem_reads src dest size 0)
  simp only [memcmp, memcmpLoop_congr h, hlast]

theorem mem_memcmpIndices {src dest : Mem} {k size : Nat} :
    k ∈ memcmpIndices src dest size ↔ k ≤ size ∧ ∀ j < k, src j = dest j := by
  have hreads : k ∈ memcmpReads src dest 0 size ↔ k ≤ size ∧ ∀ j < k, src j = dest j := by
    simp only [mem_memcmpReads, Nat.zero_add]
    constructor
    · rintro ⟨j, hj, rfl, hbefore⟩
      exact ⟨by omega, hbefore⟩
    · intro ⟨hk, hbefore⟩
      exact ⟨k, by omega, rfl, hbefore⟩
  have hagain : k ∈ (if (memcmpLoop src dest 0 size).2 = 0 then []
      else [(memcmpLoop src dest 0 size).1]) → k ∈ memcmpReads src dest 0 size := by
    split
    · exact fun h => absurd h List.not_mem_nil
    · intro h
      rw [List.mem_singleton.mp h]
      exact memcmpLoop_mem_reads src dest size 0
  rw [memcmpIndices, List.mem_append, or_iff_left_of_imp hagain, hreads]

/-- The byte behind the buffers is read if they agree, and only then. -/
theorem memcmpIndices_inside_iff {src dest : Mem} {size : Nat} :
    (∀ k ∈ memcmpIndices src dest size, k < size) ↔ ∃ k < size, DiffersFirst src dest k := by
  constructor
  · intro h
    refine exists_differsFirst fun hall => ?_
    exact Nat.lt_irrefl size (h size (mem_memcmpIndices.mpr ⟨Nat.le_refl size, hall⟩))
  · rintro ⟨d, hd, hdiff⟩ k hk
    obtain ⟨hle, hbefore⟩ := mem_memcmpIndices.mp hk
    by_contra hge
    exact hdiff.ne (hbefore d (by omega))

/-- `memcmp` keeps to the contract exactly for buffers that differ, and that first differ in two
bytes of which both are ASCII or neither is. -/
theorem memcmp_contract_iff (src dest : Mem) (size : Nat) :
    MemcmpContract src dest size ↔
      ∃ k < size, DiffersFirst src dest k ∧ (src k).msb = (dest k).msb := by
  constructor
  · intro h
    obtain ⟨k, hk, hdiff⟩ := memcmpIndices_inside_iff.mp h.reads
    have hsign := h.sign k hk hdiff
    rw [hdiff.memcmp_eq hk] at hsign
    exact ⟨k, hk, hdiff, CInt.sign_sub_eq_iff.mp hsign⟩
  · rintro ⟨k, hk, hdiff, hmsb⟩
    refine ⟨memcmp_eq_zero_iff src dest size, fun k' _ hdiff' => ?_,
      memcmpIndices_inside_iff.mpr ⟨k, hk, hdiff⟩⟩
    cases hdiff.unique hdiff'
    rw [hdiff.memcmp_eq hk]
    exact CInt.sign_sub_eq_iff.mpr hmsb

/-- A byte from 0x80 on comes before the others, and of empty buffers the first byte is read. -/
theorem memcmp_contract_fails :
    ¬ MemcmpContract (literal [0x80]) (literal [0x01]) 1 ∧
      ¬ MemcmpContract (literal []) (literal []) 0 := by
  constructor
  · intro h
    have hdiff : DiffersFirst (literal [0x80]) (literal [0x01]) 0 := ⟨by omega, by decide⟩
    have hsign := h.sign 0 (by omega) hdiff
    exact absurd hsign (by decide)
  · intro h
    exact absurd (h.reads 0 (by decide)) (by omega)

/-! ## The search -/

def checkRsdtLoop (m : Mem) (high ii : Nat) : Option Nat :=
  if ii < high then
    if memcmp (ptr m ii) (literal rsdPtr) 8 = 0 then some ii
    else checkRsdtLoop m high (ii + 16)
  else none
termination_by high - ii

def checkRsdt (m : Mem) (low high : BitVec 32) : Option Nat :=
  checkRsdtLoop m high.toNat low.toNat

/-- The bytes of memory that the loop reads. -/
def checkRsdtReads (m : Mem) (high ii : Nat) : List Nat :=
  if ii < high then
    (memcmpReads (ptr m ii) (literal rsdPtr) 0 8).map (ii + ·) ++
      if memcmp (ptr m ii) (literal rsdPtr) 8 = 0 then [] else checkRsdtReads m high (ii + 16)
  else []
termination_by high - ii

/-- The addresses from `low` on, 16 apart, that lie below `high`. -/
def steps (low high : Nat) : List Nat := List.range' low ((high - low + 15) / 16) 16

theorem steps_of_lt {low high : Nat} (h : low < high) :
    steps low high = low :: steps (low + 16) high := by
  rw [steps, show (high - low + 15) / 16 = (high - (low + 16) + 15) / 16 + 1 by omega,
    List.range'_succ]
  rfl

theorem checkRsdtLoop_of_lt {m : Mem} {high ii : Nat} (hlt : ii < high) :
    checkRsdtLoop m high ii = if memcmp (ptr m ii) (literal rsdPtr) 8 = 0 then some ii
      else checkRsdtLoop m high (ii + 16) := by
  rw [checkRsdtLoop, if_pos hlt]

theorem checkRsdtLoop_eq_find? (m : Mem) (high ii : Nat) :
    checkRsdtLoop m high ii = (steps ii high).find? (HasSignature m rsdPtr ·) := by
  induction ii using checkRsdtLoop.induct m high with
  | case1 ii hlt hsig =>
    have hhere : HasSignature m rsdPtr ii := (memcmp_rsdPtr m ii).mp hsig
    rw [checkRsdtLoop_of_lt hlt, if_pos hsig, steps_of_lt hlt,
      List.find?_cons_of_pos (by simpa using hhere)]
  | case2 ii hlt hsig ih =>
    have hhere : ¬ HasSignature m rsdPtr ii := fun h => hsig ((memcmp_rsdPtr m ii).mpr h)
    rw [checkRsdtLoop_of_lt hlt, if_neg hsig, steps_of_lt hlt,
      List.find?_cons_of_neg (by simpa using hhere), ih]
  | case3 ii hge =>
    rw [checkRsdtLoop, if_neg hge, steps, show (high - ii + 15) / 16 = 0 by omega]
    rfl

theorem mem_steps {low high a : Nat} : a ∈ steps low high ↔ ∃ k, a = low + 16 * k ∧ a < high := by
  rw [steps, List.mem_range']
  constructor
  · intro ⟨k, hk, ha⟩
    exact ⟨k, ha, by omega⟩
  · intro ⟨k, ha, hlt⟩
    exact ⟨k, by omega, ha⟩

/-- The lowest of the addresses from `low` on, 16 apart, that lie below `high` and have the
signature. -/
def IsLowestRsdp (m : Mem) (low high a : Nat) : Prop :=
  IsLeast {a | (∃ k, a = low + 16 * k ∧ a < high) ∧ HasSignature m rsdPtr a} a

theorem checkRsdt_eq_some_iff {m : Mem} {low high : BitVec 32} {a : Nat} :
    checkRsdt m low high = some a ↔ IsLowestRsdp m low.toNat high.toNat a := by
  have hsorted : (steps low.toNat high.toNat).Pairwise (· < ·) :=
    List.pairwise_lt_range' 16
  rw [checkRsdt, checkRsdtLoop_eq_find?, find?_eq_some_iff_isLeast hsorted, IsLowestRsdp]
  simp only [mem_steps, decide_eq_true_eq]

theorem checkRsdt_eq_none_iff {m : Mem} {low high : BitVec 32} : checkRsdt m low high = none ↔
    ∀ k, low.toNat + 16 * k < high.toNat → ¬ HasSignature m rsdPtr (low.toNat + 16 * k) := by
  rw [checkRsdt, checkRsdtLoop_eq_find?, List.find?_eq_none]
  simp only [mem_steps, decide_eq_true_eq]
  constructor
  · intro h k hk
    exact h _ ⟨k, rfl, hk⟩
  · intro h a ⟨k, ha, hlt⟩
    subst ha
    exact h k hlt

/-- `memcmp` looks at 9 bytes at most, of the 16 that are left. -/
theorem checkRsdtReads_inside {m : Mem} {high ii : Nat} (h : 16 ∣ high - ii) :
    ∀ a ∈ checkRsdtReads m high ii, ii ≤ a ∧ a < high := by
  induction ii using checkRsdtReads.induct high with
  | case1 ii hlt ih =>
    intro a ha
    rw [checkRsdtReads, if_pos hlt, List.mem_append, List.mem_map] at ha
    rcases ha with ⟨k, hk, rfl⟩ | ha
    · obtain ⟨j, hj, rfl, _⟩ := mem_memcmpReads.mp hk
      omega
    · split at ha
      · cases ha
      · have := ih (by omega) a ha
        omega
  | case2 ii hge =>
    intro a ha
    rw [checkRsdtReads, if_neg hge] at ha
    cases ha

/-- The bytes read decide what the search finds. -/
theorem checkRsdtReads_congr {m m' : Mem} {high ii : Nat}
    (h : ∀ a ∈ checkRsdtReads m high ii, m' a = m a) :
    checkRsdtLoop m' high ii = checkRsdtLoop m high ii := by
  induction ii using checkRsdtReads.induct high with
  | case1 ii hlt ih =>
    rw [checkRsdtReads, if_pos hlt] at h
    have hcmp : memcmp (ptr m' ii) (literal rsdPtr) 8 = memcmp (ptr m ii) (literal rsdPtr) 8 :=
      memcmpReads_congr fun k hk => h _ (List.mem_append_left _ (List.mem_map_of_mem hk))
    rw [checkRsdtLoop_of_lt hlt, checkRsdtLoop_of_lt hlt, hcmp]
    by_cases hsig : memcmp (ptr m ii) (literal rsdPtr) 8 = 0
    · rw [if_pos hsig, if_pos hsig]
    · rw [if_neg hsig] at h
      rw [if_neg hsig, if_neg hsig, ih fun a ha => h a (List.mem_append_right _ ha)]
  | case2 ii hge =>
    rw [checkRsdtLoop, if_neg hge]
    rw [checkRsdtLoop, if_neg hge]

/-- The search over a range of a length divisible by 16. -/
theorem checkRsdt_scan {low high : BitVec 32} (h : 16 ∣ high.toNat - low.toNat) (m : Mem) :
    (∀ a, checkRsdt m low high = some a ↔ IsLowestRsdp m low.toNat high.toNat a) ∧
    (checkRsdt m low high = none ↔
      ∀ k, low.toNat + 16 * k < high.toNat → ¬ HasSignature m rsdPtr (low.toNat + 16 * k)) ∧
    ∀ a ∈ checkRsdtReads m high.toNat low.toNat, low.toNat ≤ a ∧ a < high.toNat :=
  ⟨fun _ => checkRsdt_eq_some_iff, checkRsdt_eq_none_iff, checkRsdtReads_inside h⟩

/-- In the BIOS area, with the RSDP in its last 16 bytes. -/
theorem checkRsdt_scan_last :
    let m := Mem.write64 (fun _ => 0) 0xffff0 0x2052545020445352
    16 ∣ (0x100000#32).toNat - (0xe0000#32).toNat ∧ HasSignature m rsdPtr 0xffff0 ∧
      (∀ a, checkRsdt m 0xe0000#32 0x100000#32 = some a ↔ IsLowestRsdp m 0xe0000 0x100000 a) ∧
      ∀ a ∈ checkRsdtReads m 0x100000 0xe0000, 0xe0000 ≤ a ∧ a < 0x100000 := by
  have hlen : 16 ∣ (0x100000#32).toNat - (0xe0000#32).toNat := by decide
  have h := checkRsdt_scan hlen (Mem.write64 (fun _ => 0) 0xffff0 0x2052545020445352)
  exact ⟨hlen, by decide, h.1, h.2.2⟩

end Acpi
end DeliceOS
