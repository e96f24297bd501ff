import DeliceOS.Base.Mem
import Mathlib.Data.List.GetD

/-!
# Boot.E820

The memory map on its way from the BIOS to the kernel. `get_physical` calls INT 15h/E820 until
EBX comes back 0, counts the calls in EBP and steps EDI by 24; it then stores the count at
`ES:0x4000 + 0x200`. `start_kernel` reads the low byte of the count, subtracts one and visits
that many 24-byte records from `0x14000`.

The BIOS is the list of its answers to the successive calls; each leaves EBP and EDI alone, writes
at most one record at ES:DI, and sets EBX and the carry flag. `get_physical` never looks at carry.

* `getPhysical_count`, `getPhysical_records`: what the loop leaves behind, by induction on the
  answers.
* `handOver_carry_iff`: when the BIOS ends with an extra call, the kernel sees the map exactly if
  it has at most 21 records, or at most 255 of which record 21, whose length lies under the count
  word, has that count as the low half of its length.
* `handOver_depends_on_ending`: the two ways to end the enumeration never give the same map.
-/

namespace DeliceOS
namespace Boot

open Base

structure Descriptor where
  addr : BitVec 64
  len : BitVec 64
  type : BitVec 32
  attr : BitVec 32
  deriving DecidableEq

/-- What the BIOS does on one INT 15h/E820 call. -/
structure Answer where
  record : Option Descriptor
  ebx : BitVec 32
  carry : Bool

/-- The 24-byte record at linear address `a`. -/
def Descriptor.store (d : Descriptor) (a : Nat) (m : Mem) : Mem :=
  (((m.write64 a d.addr).write64 (a + 8) d.len).write32 (a + 16) d.type).write32 (a + 20) d.attr

def Answer.store (r : Answer) (a : Nat) (m : Mem) : Mem :=
  match r.record with
  | some d => d.store a m
  | none => m

/-- `ES:off` with ES = 0x1000. -/
def esLinear (off : Nat) : Nat := 0x1000 * 16 + off

/-- The loop at `L1`. `none`: the BIOS never returned EBX = 0. -/
def getPhysicalLoop : List Answer → BitVec 32 → BitVec 32 → Mem → Option (BitVec 32 × Mem)
  | [], _, _, _ => none
  | r :: rest, ebp, edi, m =>
    let m := r.store (esLinear (edi.toNat % 2 ^ 16)) m
    if r.ebx = 0 then some (ebp + 1, m)
    else getPhysicalLoop rest (ebp + 1) (edi + 24) m

def e820Addr : BitVec 32 := 0x4000

def getPhysical (bios : List Answer) (m : Mem) : Option Mem :=
  match getPhysicalLoop bios 0 e820Addr m with
  | some (ebp, m) => some (m.write32 (esLinear (0x4000 + 0x200)) ebp)
  | none => none

/-- `cpu::e20_entry`, the fields `start_kernel` reads. -/
structure Entry where
  addr : BitVec 64
  len : BitVec 64
  type : BitVec 32
  deriving DecidableEq

def e20Addr : Nat := 0x14000

def entryAt (m : Mem) (a : Nat) : Entry := ⟨m.read64 a, m.read64 (a + 8), m.read32 (a + 16)⟩

def entryCount (m : Mem) : BitVec 8 := m (e20Addr + 0x200) - 1

/-- `for(uint8_t ii = 0; ii < entry_count; ii++)` over the records. -/
def visited (m : Mem) : List Entry :=
  (List.range (entryCount m).toNat).map fun ii => entryAt m (e20Addr + 24 * ii)

def handOver (bios : List Answer) (m : Mem) : Option (List Entry) :=
  (getPhysical bios m).map visited

/-! ## The two endings of the enumeration

The input is the list of descriptors, each with the continuation value the BIOS returns as long
as there is more to come. -/

def endCarry : List (Descriptor × BitVec 32) → List Answer
  | [] => [⟨none, 0, true⟩]
  | (d, ebx) :: l => ⟨some d, ebx, false⟩ :: endCarry l

def endLast : List (Descriptor × BitVec 32) → List Answer
  | [] => []
  | [(d, _)] => [⟨some d, 0, false⟩]
  | (d, ebx) :: l => ⟨some d, ebx, false⟩ :: endLast l

def Descriptor.entry (d : Descriptor) : Entry := ⟨d.addr, d.len, d.type⟩

/-! ## The loop -/

theorem store_below {d : Descriptor} {a x : Nat} {m : Mem} (h : x < a) : d.store a m x = m x := by
  simp only [Descriptor.store, Mem.write32, Mem.write64]
  rw [Mem.writeLE_out (by omega), Mem.writeLE_out (by omega), Mem.writeLE_out (by omega),
    Mem.writeLE_out (by omega)]

theorem entryAt_store (d : Descriptor) (a : Nat) (m : Mem) : entryAt (d.store a m) a = d.entry := by
  have h1 : (d.store a m).read64 a = d.addr := by
    rw [← Mem.read64_write64 m a d.addr]
    refine Mem.read64_congr fun x hx hx' => ?_
    simp only [Descriptor.store, Mem.write32, Mem.write64]
    rw [Mem.writeLE_out (by omega), Mem.writeLE_out (by omega), Mem.writeLE_out (by omega)]
  have h2 : (d.store a m).read64 (a + 8) = d.len := by
    rw [← Mem.read64_write64 (m.write64 a d.addr) (a + 8) d.len]
    refine Mem.read64_congr fun x hx hx' => ?_
    simp only [Descriptor.store, Mem.write32]
    rw [Mem.writeLE_out (by omega), Mem.writeLE_out (by omega)]
  have h3 : (d.store a m).read32 (a + 16) = d.type := by
    rw [← Mem.read32_write32 ((m.write64 a d.addr).write64 (a + 8) d.len) (a + 16) d.type]
    refine Mem.read32_congr fun x hx hx' => ?_
    simp only [Descriptor.store]
    rw [Mem.write32, Mem.writeLE_out (by omega)]
  rw [entryAt, h1, h2, h3]; rfl

theorem entryAt_congr {m m' : Mem} {a : Nat} (h : ∀ x, a ≤ x → x < a + 24 → m x = m' x) :
    entryAt m a = entryAt m' a := by
  simp only [entryAt]
  rw [Mem.read64_congr fun x _ _ => h x (by omega) (by omega),
    Mem.read64_congr fun x _ _ => h x (by omega) (by omega),
    Mem.read32_congr fun x _ _ => h x (by omega) (by omega)]

/-- The number of calls, for any number of descriptors. -/
theorem getPhysicalLoop_count (l : List (Descriptor × BitVec 32)) (hl : ∀ p ∈ l, p.2 ≠ 0) :
    ∀ ebp edi m, ∃ m', getPhysicalLoop (endCarry l) ebp edi m =
      some (ebp + BitVec.ofNat 32 (l.length + 1), m') := by
  induction l with
  | nil => intro ebp edi m; exact ⟨m, rfl⟩
  | cons p l ih =>
    intro ebp edi m
    obtain ⟨d, ebx⟩ := p
    have hne : ebx ≠ 0 := hl (d, ebx) (by simp)
    obtain ⟨m', h⟩ := ih (fun p hp => hl p (List.mem_cons_of_mem _ hp)) (ebp + 1) (edi + 24)
      (d.store (esLinear (edi.toNat % 2 ^ 16)) m)
    refine ⟨m', ?_⟩
    simp only [endCarry, getPhysicalLoop, if_neg hne, Answer.store]
    rw [h, List.length_cons, Nat.add_comm (l.length + 1) 1, BitVec.ofNat_add 1, ← BitVec.add_assoc]
    rfl

theorem getPhysicalLoop_count_last (l : List (Descriptor × BitVec 32)) (hl : ∀ p ∈ l, p.2 ≠ 0)
    (hne : l ≠ []) : ∀ ebp edi m, ∃ m', getPhysicalLoop (endLast l) ebp edi m =
      some (ebp + BitVec.ofNat 32 l.length, m') := by
  induction l with
  | nil => exact absurd rfl hne
  | cons p l ih =>
    intro ebp edi m
    obtain ⟨d, ebx⟩ := p
    have hp : ebx ≠ 0 := hl (d, ebx) (by simp)
    cases l with
    | nil => exact ⟨d.store (esLinear (edi.toNat % 2 ^ 16)) m, rfl⟩
    | cons p' l =>
      obtain ⟨m', h⟩ := ih (fun p hp => hl p (List.mem_cons_of_mem _ hp)) (List.cons_ne_nil _ _)
        (ebp + 1) (edi + 24) (d.store (esLinear (edi.toNat % 2 ^ 16)) m)
      refine ⟨m', ?_⟩
      simp only [endLast, getPhysicalLoop, if_neg hp, Answer.store]
      rw [h, List.length_cons (a := (d, ebx)), Nat.add_comm _ 1, BitVec.ofNat_add 1,
        ← BitVec.add_assoc]
      rfl

/-- What the calls leave in memory while DI does not wrap: the records in order, and nothing
below the first one changed. -/
theorem getPhysicalLoop_records (l : List (Descriptor × BitVec 32)) (hl : ∀ p ∈ l, p.2 ≠ 0) :
    ∀ ebp edi m m' n, edi.toNat + 24 * l.length < 2 ^ 16 →
      getPhysicalLoop (endCarry l) ebp edi m = some (n, m') →
      (∀ i (hi : i < l.length), entryAt m' (esLinear edi.toNat + 24 * i) = l[i].1.entry) ∧
        ∀ x, x < esLinear edi.toNat → m' x = m x := by
  induction l with
  | nil =>
    intro ebp edi m m' n _ h
    obtain ⟨-, rfl⟩ : _ ∧ m = m' := by simpa [endCarry, getPhysicalLoop, Answer.store] using h
    exact ⟨fun i hi => absurd hi (Nat.not_lt_zero i), fun _ _ => rfl⟩
  | cons p l ih =>
    intro ebp edi m m' n hlt h
    obtain ⟨d, ebx⟩ := p
    have hne : ebx ≠ 0 := hl (d, ebx) (by simp)
    rw [List.length_cons] at hlt
    have hmod : edi.toNat % 2 ^ 16 = edi.toNat := Nat.mod_eq_of_lt (by omega)
    have hedi : (edi + 24).toNat = edi.toNat + 24 := by
      rw [BitVec.toNat_add]; exact Nat.mod_eq_of_lt (by simp; omega)
    simp only [endCarry, getPhysicalLoop, if_neg hne, Answer.store, hmod] at h
    obtain ⟨hrec, hbelow⟩ := ih (fun p hp => hl p (List.mem_cons_of_mem _ hp)) _ _ _ _ _
      (by rw [hedi]; omega) h
    rw [hedi] at hrec hbelow
    simp only [esLinear] at hrec hbelow ⊢
    constructor
    · intro i hi
      cases i with
      | zero =>
        rw [entryAt_congr fun x hx hx' => hbelow x (by omega)]
        exact entryAt_store d _ m
      | succ i =>
        have := hrec i (by simpa using hi)
        rw [show 0x1000 * 16 + edi.toNat + 24 * (i + 1) = 0x1000 * 16 + (edi.toNat + 24) + 24 * i by omega]
        simpa using this
    · intro x hx
      rw [hbelow x (by omega), store_below hx]

/-! ## What the kernel sees -/

theorem entryCount_write (m : Mem) (k : Nat) :
    (entryCount (m.write32 (esLinear (0x4000 + 0x200)) (BitVec.ofNat 32 (k + 1)))).toNat = k % 256 := by
  have hb : (m.write32 (esLinear (0x4000 + 0x200)) (BitVec.ofNat 32 (k + 1))) (e20Addr + 0x200) =
      BitVec.ofNat 8 (k + 1) := by
    rw [Mem.write32, Mem.writeLE_in (by simp [esLinear, e20Addr]) (by simp [esLinear, e20Addr])]
    apply BitVec.eq_of_toNat_eq
    simp [esLinear, e20Addr]
  rw [entryCount, hb, BitVec.toNat_sub]
  simp
  omega

theorem visited_length (m : Mem) : (visited m).length = (entryCount m).toNat := by
  simp [visited]

/-- The kernel's list after an enumeration that ends with an extra call. -/
theorem handOver_carry (l : List (Descriptor × BitVec 32)) (hl : ∀ p ∈ l, p.2 ≠ 0) (m : Mem) :
    ∃ m', getPhysicalLoop (endCarry l) 0 e820Addr m =
        some (BitVec.ofNat 32 (l.length + 1), m') ∧
      handOver (endCarry l) m =
        some (visited (m'.write32 (esLinear (0x4000 + 0x200)) (BitVec.ofNat 32 (l.length + 1)))) := by
  obtain ⟨m', h⟩ := getPhysicalLoop_count l hl 0 e820Addr m
  rw [show (0 : BitVec 32) + BitVec.ofNat 32 (l.length + 1) = _ from BitVec.zero_add _] at h
  refine ⟨m', h, ?_⟩
  simp only [handOver, getPhysical, h, Option.map_some]

/-- The count word lies over the length of record 21 and over no other record. -/
theorem entryAt_under_count (m : Mem) (v : BitVec 32) (i : Nat) :
    entryAt (m.write32 (esLinear (0x4000 + 0x200)) v) (e20Addr + 24 * i) =
        entryAt m (e20Addr + 24 * i) ↔
      (i = 21 → (entryAt m (e20Addr + 24 * i)).len.setWidth 32 = v) := by
  by_cases hi : i = 21
  · subst hi
    have haddr : (m.write32 (esLinear (0x4000 + 0x200)) v).read64 (e20Addr + 24 * 21) =
        m.read64 (e20Addr + 24 * 21) :=
      Mem.read64_congr fun x _ hx => Mem.writeLE_out (.inl (by simp [esLinear, e20Addr] at *; omega))
    have htype : (m.write32 (esLinear (0x4000 + 0x200)) v).read32 (e20Addr + 24 * 21 + 16) =
        m.read32 (e20Addr + 24 * 21 + 16) :=
      Mem.read32_congr fun x hx _ => Mem.writeLE_out (.inr (by simp [esLinear, e20Addr] at *; omega))
    simp only [entryAt, haddr, htype, Entry.mk.injEq, true_and, and_true, forall_const]
    exact Mem.read64_write32_eq_iff m (e20Addr + 24 * 21 + 8) v
  · refine iff_of_true (entryAt_congr fun x hx hx' => Mem.writeLE_out ?_) fun h => absurd h hi
    simp only [esLinear, e20Addr] at *
    omega

/-- The kernel visits exactly the reported descriptors if and only if there are at most 255 of
them and record 21, if there is one, has the count word as the low half of its length. -/
theorem handOver_carry_iff (l : List (Descriptor × BitVec 32)) (hl : ∀ p ∈ l, p.2 ≠ 0) (m : Mem) :
    handOver (endCarry l) m = some (l.map fun p => p.1.entry) ↔
      l.length < 256 ∧
        ∀ h : 21 < l.length, l[21].1.len.setWidth 32 = BitVec.ofNat 32 (l.length + 1) := by
  obtain ⟨m', hloop, hh⟩ := handOver_carry l hl m
  have hcount := entryCount_write m' l.length
  rw [hh, Option.some.injEq]
  by_cases hn : l.length < 256
  · obtain ⟨hrec, -⟩ := getPhysicalLoop_records l hl _ _ _ _ _ (by simp [e820Addr]; omega) hloop
    have hrec' : ∀ i (hi : i < l.length), entryAt m' (e20Addr + 24 * i) = l[i].1.entry := hrec
    rw [Nat.mod_eq_of_lt hn] at hcount
    have hel : ∀ i (hi : i < l.length),
        entryAt (m'.write32 (esLinear (0x4000 + 0x200)) (BitVec.ofNat 32 (l.length + 1)))
            (e20Addr + 24 * i) = l[i].1.entry ↔
          (i = 21 → l[i].1.len.setWidth 32 = BitVec.ofNat 32 (l.length + 1)) := by
      intro i hi
      have := entryAt_under_count m' (BitVec.ofNat 32 (l.length + 1)) i
      rw [hrec' i hi] at this
      exact this
    constructor
    · intro h
      refine ⟨hn, fun h21 => (hel 21 h21).mp ?_ rfl⟩
      have := congrArg (fun es => es[21]?) h
      simpa [visited, hcount, h21] using this
    · rintro ⟨-, h21⟩
      refine List.ext_getElem (by simp [visited, hcount]) fun i h1 h2 => ?_
      simp only [visited, List.getElem_map, List.getElem_range]
      rw [List.length_map] at h2
      refine (hel i h2).mpr ?_
      rintro rfl
      exact h21 h2
  · refine iff_of_false (fun h => hn ?_) fun h => hn h.1
    have := congrArg List.length h
    rw [visited_length, hcount, List.length_map] at this
    omega

theorem handOver_carry_iff_two :
    handOver (endCarry [(⟨0, 0x9fc00, 1, 1⟩, 1), (⟨0x100000, 0x7ee0000, 1, 1⟩, 2)]) (fun _ => 0) =
      some [⟨0, 0x9fc00, 1⟩, ⟨0x100000, 0x7ee0000, 1⟩] :=
  (handOver_carry_iff [(⟨0, 0x9fc00, 1, 1⟩, 1), (⟨0x100000, 0x7ee0000, 1, 1⟩, 2)] (by decide)
    fun _ => 0).mpr ⟨by decide, fun h => absurd h (by decide)⟩

/-- With 22 descriptors the count word falls on the length of the last one. -/
theorem count_word_over_record :
    ¬ ∀ (l : List (Descriptor × BitVec 32)) (m : Mem), 1 ≤ l.length → (∀ p ∈ l, p.2 ≠ 0) →
      handOver (endCarry l) m = some (l.map fun p => p.1.entry) := by
  intro h
  have := h (List.replicate 22 (⟨0x100000, 0x1000, 1, 1⟩, 1)) (fun _ => 0) (by decide) (by decide)
  revert this
  decide +kernel

/-- Ending the enumeration with the last descriptor loses one more descriptor than ending it
with an extra call, whatever the map. -/
theorem handOver_depends_on_ending (l : List (Descriptor × BitVec 32)) (hne : l ≠ [])
    (hl : ∀ p ∈ l, p.2 ≠ 0) (m : Mem) :
    ∃ a b, handOver (endLast l) m = some a ∧ handOver (endCarry l) m = some b ∧ a ≠ b := by
  obtain ⟨m1, -, h1⟩ := handOver_carry l hl m
  obtain ⟨m2, h2⟩ := getPhysicalLoop_count_last l hl hne 0 e820Addr m
  obtain ⟨k, hk⟩ := Nat.exists_eq_succ_of_ne_zero (mt List.length_eq_zero_iff.mp hne)
  rw [show (0 : BitVec 32) + BitVec.ofNat 32 l.length = _ from BitVec.zero_add _, hk] at h2
  rw [hk] at h1
  refine ⟨visited (m2.write32 (esLinear (0x4000 + 0x200)) (BitVec.ofNat 32 (k + 1))), _,
    by simp only [handOver, getPhysical, h2, Option.map_some], h1, fun h => ?_⟩
  -- the counts differ by one, also modulo 256
  have := congrArg List.length h
  rw [visited_length, visited_length, entryCount_write, entryCount_write] at this
  omega

theorem handOver_depends_on_ending_one :
    ∃ a b, handOver (endLast [(⟨0, 0x9fc00, 1, 1⟩, 1)]) (fun _ => 0) = some a ∧
      handOver (endCarry [(⟨0, 0x9fc00, 1, 1⟩, 1)]) (fun _ => 0) = some b ∧ a ≠ b :=
  handOver_depends_on_ending [(⟨0, 0x9fc00, 1, 1⟩, 1)] (by decide) (by decide) fun _ => 0

/-- One descriptor: the kernel sees it, or an empty map, depending on the ending. -/
theorem one_descriptor_lost :
    ¬ ∀ (l : List (Descriptor × BitVec 32)) (m : Mem), l ≠ [] → (∀ p ∈ l, p.2 ≠ 0) →
      handOver (endLast l) m = handOver (endCarry l) m := by
  intro h
  have := h [(⟨0, 0x9fc00, 1, 1⟩, 1)] (fun _ => 0) (by decide) (by decide)
  revert this
  decide +kernel

end Boot
end DeliceOS
