import DeliceOS.Base.Mem

/-!
# Base.Walk

The four-level page-table walk of AMD64 long mode, on physical memory. Level 3 is the PML4, level
0 the page table of 4 KiB pages. An entry is read as a number and its fields by division.

A walk fails at an entry that is not present or has a reserved bit set: the page-size bit of a
PML4 entry, or the address bits of a large page below its size (bit 12, PAT, apart). Write and
user rights must be given at every level; the cache bits are those of the entry the walk ends at.

* `walk_sameTables`: the accessed and dirty bits, which the processor sets as it walks, have no part
  in a translation.
-/

namespace Base
namespace Walk

structure Translation where
  phys : Nat
  pageBits : Nat
  writable : Bool
  user : Bool
  writeThrough : Bool
  cacheDisable : Bool
  noExecute : Bool
  deriving DecidableEq, Repr

/-- The rights the entries on the way have left. -/
structure Rights where
  writable : Bool
  user : Bool
  noExecute : Bool
  deriving DecidableEq, Repr

def Rights.all : Rights := ⟨true, true, false⟩

/-- Bit `i` of an entry. -/
def bit (e : BitVec 64) (i : Nat) : Bool := e.toNat / 2 ^ i % 2 == 1

theorem bit_congr {e e' : BitVec 64} {i : Nat} (h : e.toNat / 2 ^ i % 2 = e'.toNat / 2 ^ i % 2) :
    bit e i = bit e' i := by
  rw [bit, h, bit]

/-- The physical address in an entry, for a frame of `2 ^ n` bytes. -/
def frame (e : BitVec 64) (n : Nat) : Nat := e.toNat / 2 ^ n % 2 ^ (52 - n) * 2 ^ n

def Rights.step (r : Rights) (e : BitVec 64) : Rights :=
  ⟨r.writable && bit e 1, r.user && bit e 2, r.noExecute || bit e 63⟩

def index (level va : Nat) : Nat := va / 2 ^ (12 + 9 * level) % 512

def entry (m : Mem) (table level va : Nat) : BitVec 64 := m.read64 (table + 8 * index level va)

/-- The translation of `va` by the entry `e` that maps `2 ^ n` bytes. -/
def leaf (r : Rights) (e : BitVec 64) (n va : Nat) : Option Translation :=
  if e.toNat / 2 ^ 13 % 2 ^ (n - 13) ≠ 0 then none
  else
    some {
      phys := frame e n + va % 2 ^ n
      pageBits := n
      writable := (r.step e).writable
      user := (r.step e).user
      writeThrough := bit e 3
      cacheDisable := bit e 4
      noExecute := (r.step e).noExecute }

def walkFrom (m : Mem) (va : Nat) : Nat → Nat → Rights → Option Translation
  | 0, table, r =>
    let e := entry m table 0 va
    if bit e 0 then leaf r e 12 va else none
  | level + 1, table, r =>
    let e := entry m table (level + 1) va
    if bit e 0 = false then none
    else if bit e 7 then
      if level + 1 = 3 then none else leaf r e (12 + 9 * (level + 1)) va
    else walkFrom m va level (frame e 12) (r.step e)

/-- The walk from the PML4 at `cr3`. -/
def walk (m : Mem) (cr3 va : Nat) : Option Translation := walkFrom m va 3 cr3 .all

variable {m : Mem} {va level table : Nat} {r : Rights}

theorem walkFrom_absent (h : bit (entry m table (level + 1) va) 0 = false) :
    walkFrom m va (level + 1) table r = none := by
  simp [walkFrom, h]

theorem walkFrom_next (h : bit (entry m table (level + 1) va) 0 = true)
    (h7 : bit (entry m table (level + 1) va) 7 = false) :
    walkFrom m va (level + 1) table r =
      walkFrom m va level (frame (entry m table (level + 1) va) 12)
        (r.step (entry m table (level + 1) va)) := by
  simp [walkFrom, h, h7]

theorem walkFrom_large (h : bit (entry m table (level + 1) va) 0 = true)
    (h7 : bit (entry m table (level + 1) va) 7 = true) (hl : level + 1 ≠ 3) :
    walkFrom m va (level + 1) table r =
      leaf r (entry m table (level + 1) va) (12 + 9 * (level + 1)) va := by
  have h3 : ¬ level = 2 := by omega
  simp [walkFrom, h, h7, h3]

theorem index_lt (level va : Nat) : index level va < 512 := Nat.mod_lt _ (by omega)

/-! ## Accessed and dirty bits -/

/-- The same entry, but for bits 5 and 6. -/
def SameEntry (e e' : BitVec 64) : Prop := e ||| 0x60 = e' ||| 0x60

/-- The same byte of a table: the bits are in the first byte of an entry. -/
def SameByte (x : Nat) (b b' : BitVec 8) : Prop := b = b' ∨ x % 8 = 0 ∧ b ||| 0x60 = b' ||| 0x60

def SameTables (m m' : Mem) : Prop := ∀ x, SameByte x (m x) (m' x)

section

variable {e e' : BitVec 64} {m' : Mem}

theorem SameEntry.getLsbD (h : SameEntry e e') {i : Nat} (h5 : i ≠ 5) (h6 : i ≠ 6) :
    e.getLsbD i = e'.getLsbD i := by
  have hbit := congrArg (·.getLsbD i) h
  have hmask : (0x60#64).getLsbD i = false := by
    rw [show 0x60#64 = BitVec.twoPow 64 5 ||| BitVec.twoPow 64 6 from rfl, BitVec.getLsbD_or,
      BitVec.getLsbD_twoPow, BitVec.getLsbD_twoPow]
    simp [Ne.symm h5, Ne.symm h6]
  have hor : ∀ e : BitVec 64, (e ||| 0x60#64).getLsbD i = e.getLsbD i := by
    intro e
    rw [BitVec.getLsbD_or, hmask, Bool.or_false]
  exact (hor e).symm.trans (hbit.trans (hor e'))

theorem SameEntry.bit (h : SameEntry e e') {i : Nat} (h5 : i ≠ 5) (h6 : i ≠ 6) :
    bit e i = bit e' i := by
  have hbit : ∀ e : BitVec 64, Walk.bit e i = e.getLsbD i := by
    intro e
    rw [Walk.bit, BitVec.getLsbD, Nat.testBit_eq_decide_div_mod_eq]
    rfl
  rw [hbit, hbit, h.getLsbD h5 h6]

theorem SameEntry.div (h : SameEntry e e') {n : Nat} (hn : 7 ≤ n) :
    e.toNat / 2 ^ n = e'.toNat / 2 ^ n := by
  refine Nat.eq_of_testBit_eq fun i => ?_
  rw [Nat.testBit_div_two_pow, Nat.testBit_div_two_pow]
  exact h.getLsbD (by omega) (by omega)

theorem SameEntry.frame (h : SameEntry e e') {n : Nat} (hn : 7 ≤ n) : frame e n = frame e' n := by
  rw [Walk.frame, Walk.frame, h.div hn]

theorem SameEntry.step (h : SameEntry e e') (r : Rights) : r.step e = r.step e' := by
  rw [Rights.step, Rights.step, h.bit (by decide) (by decide), h.bit (by decide) (by decide),
    h.bit (by decide) (by decide)]

theorem SameEntry.leaf (h : SameEntry e e') (r : Rights) {n : Nat} (hn : 7 ≤ n) (va : Nat) :
    leaf r e n va = leaf r e' n va := by
  unfold Walk.leaf
  rw [h.div (by decide), h.frame hn, h.step r, h.bit (by decide) (by decide),
    h.bit (by decide) (by decide)]

theorem SameTables.entry (h : SameTables m m') (htable : table % 8 = 0) (level va : Nat) :
    SameEntry (entry m table level va) (entry m' table level va) := by
  apply BitVec.eq_of_getLsbD_eq
  intro i hi
  rw [BitVec.getLsbD_or, BitVec.getLsbD_or, Walk.entry, Walk.entry, Mem.getLsbD_read64 _ _ hi,
    Mem.getLsbD_read64 _ _ hi]
  generalize ha : table + 8 * index level va = a
  rcases h (a + i / 8) with heq | ⟨halign, hor⟩
  · rw [heq]
  · -- the first byte of the entry
    have hfirst : i % 8 = i := by omega
    have hmask : (0x60#64).getLsbD i = (0x60#8).getLsbD i := by
      rw [show 0x60#64 = (0x60#8).setWidth 64 from rfl, BitVec.getLsbD_setWidth,
        decide_eq_true hi, Bool.true_and]
    have hbit : (m (a + i / 8) ||| 0x60#8).getLsbD i = (m' (a + i / 8) ||| 0x60#8).getLsbD i :=
      congrArg (·.getLsbD i) hor
    rw [BitVec.getLsbD_or, BitVec.getLsbD_or, ← hmask] at hbit
    rw [hfirst]
    exact hbit

theorem walkFrom_sameTables (h : SameTables m m') (va level : Nat) :
    ∀ table r, table % 8 = 0 → walkFrom m va level table r = walkFrom m' va level table r := by
  induction level with
  | zero =>
    intro table r htable
    have he := h.entry htable 0 va
    simp only [walkFrom]
    rw [he.bit (by decide) (by decide), he.leaf r (by decide)]
  | succ level ih =>
    intro table r htable
    have he := h.entry htable (level + 1) va
    have hframe : Walk.frame (Walk.entry m' table (level + 1) va) 12 % 8 = 0 := by
      unfold Walk.frame
      omega
    simp only [walkFrom]
    rw [he.bit (by decide) (by decide), he.bit (by decide) (by decide), he.leaf r (by omega),
      he.frame (by decide), he.step r, ih _ _ hframe]

/-- The accessed and dirty bits have no part in a walk. -/
theorem walk_sameTables (h : SameTables m m') {cr3 : Nat} (hcr3 : cr3 % 8 = 0) (va : Nat) :
    walk m cr3 va = walk m' cr3 va :=
  walkFrom_sameTables h va 3 cr3 .all hcr3

/-- Of tables known but for these bits, a memory with the bits as known. -/
theorem exists_sameTables {frames : Nat → Prop} {t : Mem}
    (h : ∀ x, frames x → SameByte x (m x) (t x)) :
    ∃ clean, SameTables m clean ∧ ∀ x, frames x → clean x = t x := by
  classical
  refine ⟨fun x => if frames x then t x else m x, fun x => ?_, fun x hx => if_pos hx⟩
  by_cases hx : frames x
  · simpa only [if_pos hx] using h x hx
  · exact .inl (if_neg hx).symm

end

end Walk
end Base
