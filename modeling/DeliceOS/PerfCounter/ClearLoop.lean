import DeliceOS.Base.Store
import Mathlib.Data.BitVec

/-!
# PerfCounter.ClearLoop

The loop of `unoptimized_function2`, whose instructions are counted: it stores quadwords of zero
and counts them in `ecx`, the low half of the register that holds the 64-bit count.

* `clearLoop_eq`: the stores, one for each round.
* `unoptimizedFunction2_clears_iff`: when they are those asked for.
-/

namespace DeliceOS
namespace PerfCounter

open Base Store

/-- From label 0 on, with the count in `rcx` and the address in `rdi`. Writing `ecx` clears the
high half of `rcx`. -/
def clearLoop (rcx rdi : BitVec 64) : List Store :=
  let ecx : BitVec 32 := rcx.setWidth 32 - 1
  ⟨rdi.toNat, 8, 0⟩ :: if ecx = 0 then [] else clearLoop (ecx.setWidth 64) (rdi + 8)
termination_by (rcx.setWidth 32 - 1 : BitVec 32).toNat
decreasing_by
  rename_i hne
  have hpos : (rcx.setWidth 32 - 1 : BitVec 32).toNat ≠ 0 := fun h => hne (BitVec.eq_of_toNat_eq h)
  rw [BitVec.setWidth_setWidth_of_le _ (by decide), BitVec.setWidth_eq]
  bv_omega

def unoptimizedFunction2 (addr size : BitVec 64) : List Store := clearLoop (size / 8) addr

/-- The test comes after the body, so a count of 0 is decremented to the largest. -/
def rounds (rcx : BitVec 64) : Nat := (rcx.setWidth 32 - 1 : BitVec 32).toNat + 1

theorem rounds_of_ne {rcx : BitVec 64} (h : (rcx.setWidth 32 - 1 : BitVec 32) ≠ 0) :
    rounds rcx = rounds ((rcx.setWidth 32 - 1 : BitVec 32).setWidth 64) + 1 := by
  have hpos : (rcx.setWidth 32 - 1 : BitVec 32).toNat ≠ 0 := fun h' => h (BitVec.eq_of_toNat_eq h')
  rw [rounds, rounds, BitVec.setWidth_setWidth_of_le _ (by decide), BitVec.setWidth_eq]
  bv_omega

theorem rounds_eq {rcx : BitVec 64} (h : 0 < rcx.toNat) (h' : rcx.toNat ≤ 2 ^ 32) :
    rounds rcx = rcx.toNat := by
  rw [rounds]
  bv_omega

theorem rounds_le (rcx : BitVec 64) : rounds rcx ≤ 2 ^ 32 := by
  rw [rounds]
  exact BitVec.isLt _

theorem clearLoop_eq (rcx rdi : BitVec 64) :
    clearLoop rcx rdi =
      (List.range (rounds rcx)).map fun k => ⟨(rdi + 8 * BitVec.ofNat 64 k).toNat, 8, 0⟩ := by
  induction rcx, rdi using clearLoop.induct with
  | case1 rcx rdi ecx ih =>
    rw [clearLoop]
    by_cases h : (rcx.setWidth 32 - 1 : BitVec 32) = 0
    · rw [if_pos h, rounds, h]
      simp [Nat.mod_eq_of_lt rdi.isLt]
    · rw [if_neg h, ih h, rounds_of_ne h, List.range_succ_eq_map, List.map_cons, List.map_map]
      congr 1
      · simp
      · apply List.map_congr_left
        intro k _
        simp only [Function.comp]
        congr 2
        bv_omega

/-- The quadwords of `[addr, addr + size)` are zero, and no other byte has changed. -/
def Clears (addr size : BitVec 64) : Prop :=
  ∀ (m : Mem) (x : Nat), run (unoptimizedFunction2 addr size) m x =
    if addr.toNat ≤ x ∧ x < addr.toNat + 8 * (size.toNat / 8) then 0 else m x

theorem unoptimizedFunction2_run (addr size : BitVec 64) (m : Mem) (x : Nat) :
    run (unoptimizedFunction2 addr size) m x =
      if ∃ k < rounds (size / 8), (addr + 8 * BitVec.ofNat 64 k).toNat ≤ x ∧
        x < (addr + 8 * BitVec.ofNat 64 k).toNat + 8 then 0 else m x := by
  have hzero : ∀ s ∈ unoptimizedFunction2 addr size, s.val = 0 := by
    intro s hs
    rw [unoptimizedFunction2, clearLoop_eq] at hs
    obtain ⟨k, _, rfl⟩ := List.mem_map.mp hs
    rfl
  rw [run_zero hzero, unoptimizedFunction2, clearLoop_eq]
  simp [Misses]

theorem quadword_toNat {addr size : BitVec 64} (hfit : addr.toNat + size.toNat ≤ 2 ^ 64) {k : Nat}
    (h : 8 * k < size.toNat) : (addr + 8 * BitVec.ofNat 64 k).toNat = addr.toNat + 8 * k := by
  have hlt := size.isLt
  have h8 : (8 : BitVec 64).toNat = 8 := rfl
  simp only [BitVec.toNat_add, BitVec.toNat_mul, BitVec.toNat_ofNat, h8]
  omega

theorem clears_of {addr size : BitVec 64} (hfit : addr.toNat + size.toNat ≤ 2 ^ 64)
    (h : 8 ≤ size.toNat) (h' : size.toNat / 8 ≤ 2 ^ 32) : Clears addr size := by
  intro m x
  have hq : (size / 8).toNat = size.toNat / 8 := rfl
  rw [unoptimizedFunction2_run, rounds_eq (by omega) (by omega), hq]
  refine if_congr ⟨?_, ?_⟩ rfl rfl
  · rintro ⟨k, hk, hx⟩
    rw [quadword_toNat hfit (by omega)] at hx
    omega
  · intro hx
    refine ⟨(x - addr.toNat) / 8, by omega, ?_⟩
    rw [quadword_toNat hfit (by omega)]
    omega

/-- With nothing to clear, the first round still clears the quadword at `addr`. -/
theorem not_clears_of_lt {addr size : BitVec 64} (h : size.toNat < 8) : ¬ Clears addr size := by
  intro hc
  have := hc (fun _ => 1) addr.toNat
  rw [unoptimizedFunction2_run, if_pos ⟨0, by simp [rounds], by simp⟩, if_neg (by omega)] at this
  exact absurd this (by decide)

/-- The high half of the count is lost in the first round, and the last quadwords are left. -/
theorem not_clears_of_gt {addr size : BitVec 64} (hfit : addr.toNat + size.toNat ≤ 2 ^ 64)
    (h : 2 ^ 32 < size.toNat / 8) : ¬ Clears addr size := by
  intro hc
  have hle := rounds_le (size / 8)
  have := hc (fun _ => 1) (addr.toNat + 8 * rounds (size / 8))
  rw [unoptimizedFunction2_run, if_neg, if_pos (by omega)] at this
  · exact absurd this (by decide)
  · rintro ⟨k, hk, hx⟩
    rw [quadword_toNat hfit (by omega)] at hx
    omega

/-- The loop clears what it is asked to exactly for a count that is not 0 and that `ecx` can
count down. -/
theorem unoptimizedFunction2_clears_iff {addr size : BitVec 64}
    (hfit : addr.toNat + size.toNat ≤ 2 ^ 64) :
    Clears addr size ↔ 8 ≤ size.toNat ∧ size.toNat / 8 ≤ 2 ^ 32 := by
  constructor
  · intro hc
    refine ⟨?_, ?_⟩
    · by_contra h
      exact not_clears_of_lt (by omega) hc
    · by_contra h
      exact not_clears_of_gt hfit (by omega) hc
  · intro h
    exact clears_of hfit h.1 h.2

/-- `BUF_SIZE`, the size that `start_kernel` passes. -/
theorem unoptimizedFunction2_clears_buf :
    (0x200000#64).toNat + (0x10000#64).toNat ≤ 2 ^ 64 ∧ Clears 0x200000#64 0x10000#64 :=
  ⟨by decide, (unoptimizedFunction2_clears_iff (by decide)).mpr (by decide)⟩

theorem unoptimizedFunction2_empty_buffer :
    (0x200000#64).toNat + (0#64).toNat ≤ 2 ^ 64 ∧ ¬ Clears 0x200000#64 0#64 :=
  ⟨by decide, not_clears_of_lt (by decide)⟩

end PerfCounter
end DeliceOS
