import Mathlib.Data.Nat.Basic
import Mathlib.Logic.Function.Basic
import Mathlib.Tactic.Ring

/-!
# Base.Mem

Byte-addressed memory with little-endian reads and writes of any width.

* `readLE_writeLE`: what was written is read back.
* `readLE_writeLE_disjoint`, `writeLE_out`: a write leaves every other byte alone.
* `testBit_readLE`: the bits of what is read are those of the bytes.
* `read8` to `read64`, `write32`, `write64`: the widths the machine uses, as bit vectors.
-/

namespace Base

abbrev Mem := Nat → BitVec 8

namespace Mem

/-- The `n` bytes at `a`, the lowest first. -/
def readLE (m : Mem) (a : Nat) : Nat → Nat
  | 0 => 0
  | n + 1 => (m a).toNat + 256 * readLE m (a + 1) n

/-- `v` stored in the `n` bytes at `a`. -/
def writeLE (m : Mem) (a n v : Nat) : Mem :=
  fun x => if a ≤ x ∧ x < a + n then BitVec.ofNat 8 (v / 256 ^ (x - a)) else m x

theorem readLE_congr {m m' : Mem} {n : Nat} :
    ∀ {a : Nat}, (∀ x, a ≤ x → x < a + n → m x = m' x) → readLE m a n = readLE m' a n := by
  induction n with
  | zero => intro a _; rfl
  | succ n ih =>
    intro a h
    simp only [readLE]
    rw [h a (Nat.le_refl _) (by omega), ih fun x hx hx' => h x (by omega) (by omega)]

/-- The same bytes at another address. -/
theorem readLE_shift {m m' : Mem} {n : Nat} :
    ∀ {a b : Nat}, (∀ k < n, m (a + k) = m' (b + k)) → readLE m a n = readLE m' b n := by
  induction n with
  | zero => intro a b _; rfl
  | succ n ih =>
    intro a b h
    have hhead : m a = m' b := h 0 (Nat.succ_pos n)
    have htail : readLE m (a + 1) n = readLE m' (b + 1) n := by
      apply ih
      intro k hk
      rw [Nat.add_assoc, Nat.add_assoc, Nat.add_comm 1 k]
      exact h (k + 1) (by omega)
    simp only [readLE]
    rw [hhead, htail]

theorem readLE_lt (m : Mem) (n : Nat) : ∀ a, readLE m a n < 256 ^ n := by
  induction n with
  | zero => intro a; simp [readLE]
  | succ n ih =>
    intro a
    have h1 := ih (a + 1)
    have h2 := (m a).isLt
    simp only [readLE, Nat.pow_succ]
    omega

theorem readLE_add (m : Mem) (n k : Nat) :
    ∀ a, readLE m a (n + k) = readLE m a n + 256 ^ n * readLE m (a + n) k := by
  induction n with
  | zero => intro a; simp [readLE]
  | succ n ih =>
    intro a
    rw [show n + 1 + k = (n + k) + 1 by omega]
    simp only [readLE]
    rw [ih, show a + 1 + n = a + (n + 1) by omega]
    ring

theorem writeLE_out {m : Mem} {a n v x : Nat} (h : x < a ∨ a + n ≤ x) : writeLE m a n v x = m x := by
  unfold writeLE
  rw [if_neg (by omega)]

theorem writeLE_in {m : Mem} {a n v x : Nat} (h : a ≤ x) (h' : x < a + n) :
    writeLE m a n v x = BitVec.ofNat 8 (v / 256 ^ (x - a)) := by
  unfold writeLE
  rw [if_pos ⟨h, h'⟩]

theorem readLE_writeLE (m : Mem) (n : Nat) :
    ∀ a v, readLE (writeLE m a n v) a n = v % 256 ^ n := by
  induction n with
  | zero => intro a v; simp [readLE, Nat.mod_one]
  | succ n ih =>
    intro a v
    have htail : readLE (writeLE m a (n + 1) v) (a + 1) n =
        readLE (writeLE m (a + 1) n (v / 256)) (a + 1) n := by
      apply readLE_congr
      intro x hx hx'
      rw [writeLE_in (by omega) (by omega), writeLE_in hx hx', Nat.div_div_eq_div_mul,
        ← Nat.pow_succ', show (x - (a + 1)).succ = x - a by omega]
    simp only [readLE]
    rw [htail, ih, writeLE_in (Nat.le_refl _) (by omega), Nat.pow_succ', Nat.mod_mul]
    simp

theorem readLE_writeLE_disjoint {m : Mem} {a n v b k : Nat} (h : b + k ≤ a ∨ a + n ≤ b) :
    readLE (writeLE m a n v) b k = readLE m b k :=
  readLE_congr fun _ _ _ => writeLE_out (by omega)

/-- The bits of what is read are those of the bytes. -/
theorem testBit_readLE (m : Mem) (n : Nat) :
    ∀ a i, i < 8 * n → (readLE m a n).testBit i = (m (a + i / 8)).getLsbD (i % 8) := by
  induction n with
  | zero => intro a i hi; omega
  | succ n ih =>
    intro a i hi
    rw [readLE, Nat.add_comm, show 256 = 2 ^ 8 from rfl,
      Nat.testBit_two_pow_mul_add _ (m a).isLt]
    split
    · rename_i hlow
      rw [Nat.div_eq_of_lt hlow, Nat.mod_eq_of_lt hlow]
      rfl
    · rename_i hhigh
      rw [ih _ _ (by omega), Nat.add_assoc, show 1 + (i - 8) / 8 = i / 8 by omega,
        show (i - 8) % 8 = i % 8 by omega]

/-! ## The widths of the machine -/

def read16 (m : Mem) (a : Nat) : BitVec 16 := BitVec.ofNat 16 (readLE m a 2)
def read32 (m : Mem) (a : Nat) : BitVec 32 := BitVec.ofNat 32 (readLE m a 4)
def read64 (m : Mem) (a : Nat) : BitVec 64 := BitVec.ofNat 64 (readLE m a 8)
def write8 (m : Mem) (a : Nat) (v : BitVec 8) : Mem := writeLE m a 1 v.toNat
def write16 (m : Mem) (a : Nat) (v : BitVec 16) : Mem := writeLE m a 2 v.toNat
def write32 (m : Mem) (a : Nat) (v : BitVec 32) : Mem := writeLE m a 4 v.toNat
def write64 (m : Mem) (a : Nat) (v : BitVec 64) : Mem := writeLE m a 8 v.toNat

theorem getLsbD_read64 (m : Mem) (a : Nat) {i : Nat} (hi : i < 64) :
    (m.read64 a).getLsbD i = (m (a + i / 8)).getLsbD (i % 8) := by
  rw [read64, BitVec.getLsbD_ofNat, testBit_readLE m 8 a i (by omega)]
  simp [hi]

theorem write8_eq (m : Mem) (a : Nat) (v : BitVec 8) : m.write8 a v = Function.update m a v := by
  funext x
  simp only [write8, writeLE, Function.update_apply]
  by_cases hx : x = a
  · rw [if_pos (by omega), if_pos hx, hx]; simp
  · rw [if_neg (by omega), if_neg hx]

theorem read16_congr {m m' : Mem} {a : Nat} (h : ∀ x, a ≤ x → x < a + 2 → m x = m' x) :
    m.read16 a = m'.read16 a := by rw [read16, read16, readLE_congr h]

theorem read32_congr {m m' : Mem} {a : Nat} (h : ∀ x, a ≤ x → x < a + 4 → m x = m' x) :
    m.read32 a = m'.read32 a := by rw [read32, read32, readLE_congr h]

theorem read64_congr {m m' : Mem} {a : Nat} (h : ∀ x, a ≤ x → x < a + 8 → m x = m' x) :
    m.read64 a = m'.read64 a := by rw [read64, read64, readLE_congr h]

theorem readLE_zero {m : Mem} {n : Nat} :
    ∀ {a : Nat}, (∀ x, a ≤ x → x < a + n → m x = 0) → readLE m a n = 0 := by
  induction n with
  | zero => intro a _; rfl
  | succ n ih =>
    intro a h
    simp only [readLE]
    rw [h a (Nat.le_refl _) (by omega), ih fun x hx hx' => h x (by omega) (by omega)]
    rfl

theorem read16_zero {m : Mem} {a : Nat} (h : ∀ x, a ≤ x → x < a + 2 → m x = 0) :
    m.read16 a = 0#16 := by rw [read16, readLE_zero h]

theorem read32_zero {m : Mem} {a : Nat} (h : ∀ x, a ≤ x → x < a + 4 → m x = 0) :
    m.read32 a = 0#32 := by rw [read32, readLE_zero h]

theorem read64_zero {m : Mem} {a : Nat} (h : ∀ x, a ≤ x → x < a + 8 → m x = 0) :
    m.read64 a = 0#64 := by rw [read64, readLE_zero h]

@[simp] theorem read16_write16 (m : Mem) (a : Nat) (v : BitVec 16) :
    (m.write16 a v).read16 a = v := by
  have hv : v.toNat < 256 ^ 2 := v.isLt
  rw [read16, write16, readLE_writeLE, Nat.mod_eq_of_lt hv, BitVec.ofNat_toNat, BitVec.setWidth_eq]

@[simp] theorem read32_write32 (m : Mem) (a : Nat) (v : BitVec 32) :
    (m.write32 a v).read32 a = v := by
  have hv : v.toNat < 256 ^ 4 := v.isLt
  rw [read32, write32, readLE_writeLE, Nat.mod_eq_of_lt hv, BitVec.ofNat_toNat, BitVec.setWidth_eq]

@[simp] theorem read64_write64 (m : Mem) (a : Nat) (v : BitVec 64) :
    (m.write64 a v).read64 a = v := by
  have hv : v.toNat < 256 ^ 8 := v.isLt
  rw [read64, write64, readLE_writeLE, Nat.mod_eq_of_lt hv, BitVec.ofNat_toNat, BitVec.setWidth_eq]

theorem read16_write16_disjoint {m : Mem} {a b : Nat} {v : BitVec 16} (h : b + 2 ≤ a ∨ a + 2 ≤ b) :
    (m.write16 a v).read16 b = m.read16 b := by
  rw [read16, write16, readLE_writeLE_disjoint h, read16]

theorem read16_write32_disjoint {m : Mem} {a b : Nat} {v : BitVec 32} (h : b + 2 ≤ a ∨ a + 4 ≤ b) :
    (m.write32 a v).read16 b = m.read16 b := by
  rw [read16, write32, readLE_writeLE_disjoint h, read16]

theorem read16_write64_disjoint {m : Mem} {a b : Nat} {v : BitVec 64} (h : b + 2 ≤ a ∨ a + 8 ≤ b) :
    (m.write64 a v).read16 b = m.read16 b := by
  rw [read16, write64, readLE_writeLE_disjoint h, read16]

theorem read32_write32_disjoint {m : Mem} {a b : Nat} {v : BitVec 32} (h : b + 4 ≤ a ∨ a + 4 ≤ b) :
    (m.write32 a v).read32 b = m.read32 b := by
  rw [read32, write32, readLE_writeLE_disjoint h, read32]

theorem read64_write64_disjoint {m : Mem} {a b : Nat} {v : BitVec 64} (h : b + 8 ≤ a ∨ a + 8 ≤ b) :
    (m.write64 a v).read64 b = m.read64 b := by
  rw [read64, write64, readLE_writeLE_disjoint h, read64]

/-- Two quadwords of equal alignment are the same one or do not meet. -/
theorem read64_write64_aligned {m : Mem} {a b : Nat} {v : BitVec 64} (h : a % 8 = b % 8) :
    (m.write64 a v).read64 b = if b = a then v else m.read64 b := by
  by_cases hab : b = a
  · rw [if_pos hab, hab, read64_write64]
  · rw [if_neg hab, read64_write64_disjoint (by omega)]

/-- A quadword is its two doublewords. -/
theorem read64_toNat (m : Mem) (a : Nat) :
    (m.read64 a).toNat = (m.read32 a).toNat + 2 ^ 32 * (m.read32 (a + 4)).toNat := by
  have h8 : readLE m a 8 < 256 ^ 8 := readLE_lt m 8 a
  have h4 : readLE m a 4 < 256 ^ 4 := readLE_lt m 4 a
  have h4' : readLE m (a + 4) 4 < 256 ^ 4 := readLE_lt m 4 (a + 4)
  have h : readLE m a 8 = readLE m a 4 + 256 ^ 4 * readLE m (a + 4) 4 := readLE_add m 4 4 a
  simp only [read32, read64, BitVec.toNat_ofNat]
  omega

theorem read32_eq_setWidth (m : Mem) (a : Nat) : m.read32 a = (m.read64 a).setWidth 32 := by
  apply BitVec.eq_of_toNat_eq
  have h := read64_toNat m a
  have h1 := (m.read32 a).isLt
  rw [BitVec.toNat_setWidth]
  omega

/-- Storing a doubleword over the low half of a quadword keeps the quadword only if that is what
its low half was. -/
theorem read64_write32_eq_iff (m : Mem) (a : Nat) (v : BitVec 32) :
    (m.write32 a v).read64 a = m.read64 a ↔ (m.read64 a).setWidth 32 = v := by
  constructor
  · intro h
    rw [← h, ← read32_eq_setWidth, read32_write32]
  · intro h
    have hhigh : (m.write32 a v).read32 (a + 4) = m.read32 (a + 4) :=
      read32_congr fun x _ _ => writeLE_out (by omega)
    apply BitVec.eq_of_toNat_eq
    rw [read64_toNat, read64_toNat, read32_write32, read32_eq_setWidth m a, h, hhigh]

end Mem
end Base
