import DeliceOS.Base.CInt
import DeliceOS.Base.Copy

/-!
# Memlib.Memmove

`memmove` of memlib, which counts with an `int`. An `int` expression that overflows is `none`.

* `memmove_of_lt`: below `2 ^ 31` the `int` holds the size, and the copy is right under any
  overlap.
* `memmove_moves_iff`: what is left of that for larger sizes.
-/

namespace DeliceOS
namespace Memlib

open Base

/-- The address of `p[i]`. -/
def elemAddr (p : BitVec 64) (i : Int) : Nat := (p + CInt.toSize i).toNat

/-- The loop that copies backward. -/
def copyBackward (dst src : BitVec 64) (m : Mem) (i : Int) : Option Mem :=
  if i ≠ 0 then
    if CInt.Fits (i - 1) then
      copyBackward dst src (m.write8 (elemAddr dst (i - 1)) (m (elemAddr src (i - 1)))) (i - 1)
    else none
  else some m
termination_by (i + 2 ^ 31).toNat
decreasing_by
  simp only [CInt.Fits] at *
  omega

/-- The loop that copies forward. -/
def copyForward (dst src size : BitVec 64) (m : Mem) (i : Int) : Option Mem :=
  if CInt.toSize i < size then
    let m' := m.write8 (elemAddr dst i) (m (elemAddr src i))
    if CInt.Fits (i + 1) then copyForward dst src size m' (i + 1) else none
  else some m
termination_by (2 ^ 31 - i).toNat
decreasing_by
  simp only [CInt.Fits] at *
  omega

def memmove (dst src size : BitVec 64) (m : Mem) : Option Mem :=
  let i := CInt.ofSize size
  if src < dst then copyBackward dst src m i else copyForward dst src size m 0

variable {dst src size : BitVec 64} {m : Mem}

theorem elemAddr_eq {p : BitVec 64} {k : Nat} (h : p.toNat + k < 2 ^ 64) :
    elemAddr p k = p.toNat + k := CInt.add_toSize_toNat h

/-! ## The loops -/

/-- Down to index `k`, the bytes from `k` on have been copied. -/
theorem copyBackward_eq {n : Nat} (hsrc : src ≤ dst) (hfit : dst.toNat + n ≤ 2 ^ 64)
    (hn : n < 2 ^ 31) : ∀ k ≤ n, copyBackward dst src (m.copy dst.toNat src.toNat k n) k =
      some (m.copy dst.toNat src.toNat 0 n) := by
  have hle : src.toNat ≤ dst.toNat := hsrc
  intro k
  induction k with
  | zero =>
    intro _
    rw [copyBackward, if_neg (by simp)]
  | succ k ih =>
    intro hk
    have hpred : ((k + 1 : Nat) : Int) - 1 = k := by omega
    rw [copyBackward, if_pos (by omega), hpred, if_pos (CInt.Fits.of_nat (by omega)),
      elemAddr_eq (by omega), elemAddr_eq (by omega), Mem.copy_backward m hle (by omega)]
    exact ih (by omega)

/-- From a negative index the loop runs on to the overflow. -/
theorem copyBackward_neg {i : Int} (hi : i < 0) : copyBackward dst src m i = none := by
  fun_induction copyBackward dst src m i with
  | case1 m i _ _ ih => exact ih (by omega)
  | case2 => rfl
  | case3 m i h => omega

/-- Up to index `k`, the bytes before `k` have been copied. -/
theorem copyForward_eq (hsrc : dst ≤ src) (hfit : src.toNat + size.toNat ≤ 2 ^ 64)
    (hn : size.toNat < 2 ^ 31) (k : Nat) (hk : k ≤ size.toNat) :
    copyForward dst src size (m.copy dst.toNat src.toNat 0 k) k =
      some (m.copy dst.toNat src.toNat 0 size.toNat) := by
  have hle : dst.toNat ≤ src.toNat := hsrc
  induction hk using Nat.decreasingInduction with
  | self =>
    rw [copyForward, if_neg]
    rw [BitVec.lt_def, CInt.toSize_toNat (by omega)]
    exact Nat.lt_irrefl _
  | of_succ k hk ih =>
    have hlt : CInt.toSize k < size := by rwa [BitVec.lt_def, CInt.toSize_toNat (by omega)]
    have hsucc : (k : Int) + 1 = ((k + 1 : Nat) : Int) := rfl
    rw [copyForward, if_pos hlt]
    simp only [hsucc]
    rw [if_pos (CInt.Fits.of_nat (by omega)), elemAddr_eq (by omega), elemAddr_eq (by omega),
      Mem.copy_forward m k hle]
    exact ih

/-- With a size that no `int` reaches the loop runs on to the overflow. -/
theorem copyForward_ge (hn : 2 ^ 31 ≤ size.toNat) {i : Int} (hi : 0 ≤ i) (hi' : i < 2 ^ 31) :
    copyForward dst src size m i = none := by
  fun_induction copyForward dst src size m i with
  | case1 m i hlt m' hfits ih => exact ih (by omega) hfits.2
  | case2 => rfl
  | case3 m i hlt =>
    obtain ⟨k, rfl⟩ := Int.eq_ofNat_of_zero_le hi
    rw [BitVec.lt_def, CInt.toSize_toNat (by omega)] at hlt
    omega

/-! ## The copy -/

theorem memmove_of_lt (hdst : dst.toNat + size.toNat ≤ 2 ^ 64)
    (hsrc : src.toNat + size.toNat ≤ 2 ^ 64) (hn : size.toNat < 2 ^ 31) :
    memmove dst src size m = some (m.copy dst.toNat src.toNat 0 size.toNat) := by
  have hmod : size.toNat % 2 ^ 32 = size.toNat := Nat.mod_eq_of_lt (by omega)
  rw [memmove]
  by_cases hlt : src < dst
  · have h := copyBackward_eq (m := m) (BitVec.le_of_lt hlt) hdst hn _ (Nat.le_refl _)
    rw [Mem.copy_empty] at h
    simp only [if_pos hlt]
    rw [CInt.ofSize_of_lt (by omega), hmod, h]
  · have h := copyForward_eq (m := m) (BitVec.not_lt.mp hlt) hsrc hn 0 (Nat.zero_le _)
    rw [Mem.copy_empty] at h
    simp only [if_neg hlt]
    exact h

/-- A backward copy of a size that is too large takes its low half for the size. -/
theorem memmove_backward (hdst : dst.toNat + size.toNat ≤ 2 ^ 64) (hlt : src < dst)
    (hlow : size.toNat % 2 ^ 32 < 2 ^ 31) : memmove dst src size m =
      some (m.copy dst.toNat src.toNat 0 (size.toNat % 2 ^ 32)) := by
  have hle := Nat.mod_le size.toNat (2 ^ 32)
  have h := copyBackward_eq (m := m) (BitVec.le_of_lt hlt) (by omega) hlow _ (Nat.le_refl _)
  rw [Mem.copy_empty] at h
  simp only [memmove, if_pos hlt]
  rw [CInt.ofSize_of_lt hlow, h]

/-- Every other size that is too large ends in an overflow. -/
theorem memmove_overflow (hn : 2 ^ 31 ≤ size.toNat)
    (h : ¬ src < dst ∨ 2 ^ 31 ≤ size.toNat % 2 ^ 32) : memmove dst src size m = none := by
  rw [memmove]
  by_cases hlt : src < dst
  · have hlow : 2 ^ 31 ≤ size.toNat % 2 ^ 32 := by
      rcases h with h | h
      · exact absurd hlt h
      · exact h
    simp only [if_pos hlt]
    exact copyBackward_neg (CInt.ofSize_of_ge hlow).1
  · simp only [if_neg hlt]
    exact copyForward_ge hn (by omega) (by omega)

/-- What a caller of `memmove` expects of the memory afterwards. -/
structure Moved (dst src size : BitVec 64) (m m' : Mem) : Prop where
  copied : ∀ k < size.toNat, m' (dst.toNat + k) = m (src.toNat + k)
  frame : ∀ x, x < dst.toNat ∨ dst.toNat + size.toNat ≤ x → m' x = m x

/-- Copying the first `n` bytes of a range is enough if the others are the same already. -/
theorem moved_copy_iff {n : Nat} (hn : n ≤ size.toNat) :
    Moved dst src size m (m.copy dst.toNat src.toNat 0 n) ↔
      ∀ k, n ≤ k → k < size.toNat → m (dst.toNat + k) = m (src.toNat + k) := by
  constructor
  · intro h k hk hk'
    rw [← h.copied k hk', Mem.copy_out (by omega)]
  · intro h
    refine ⟨?_, ?_⟩
    · intro k hk
      by_cases hkn : k < n
      · rw [Mem.copy_in (by omega) (by omega), Nat.add_sub_cancel_left]
      · rw [Mem.copy_out (by omega)]
        exact h k (by omega) hk
    · intro x hx
      exact Mem.copy_out (by omega)

/-- Any size below `2 ^ 31` is copied right. Of the others only a backward copy can end, and it
leaves the bytes from the low half of the size on as they were. -/
theorem memmove_moves_iff (hdst : dst.toNat + size.toNat ≤ 2 ^ 64)
    (hsrc : src.toNat + size.toNat ≤ 2 ^ 64) :
    (∃ m', memmove dst src size m = some m' ∧ Moved dst src size m m') ↔
      size.toNat < 2 ^ 31 ∨ src < dst ∧ size.toNat % 2 ^ 32 < 2 ^ 31 ∧
        ∀ k, size.toNat % 2 ^ 32 ≤ k → k < size.toNat →
          m (dst.toNat + k) = m (src.toNat + k) := by
  by_cases hn : size.toNat < 2 ^ 31
  · refine iff_of_true ⟨_, memmove_of_lt hdst hsrc hn, ?_⟩ (.inl hn)
    exact (moved_copy_iff (Nat.le_refl _)).mpr (by omega)
  · rw [or_iff_right hn]
    by_cases h : src < dst ∧ size.toNat % 2 ^ 32 < 2 ^ 31
    · rw [memmove_backward hdst h.1 h.2]
      simp only [Option.some.injEq, exists_eq_left', h, true_and]
      exact moved_copy_iff (Nat.mod_le _ _)
    · have hover : memmove dst src size m = none := by
        refine memmove_overflow (by omega) ?_
        by_cases hlt : src < dst
        · exact .inr (Nat.not_lt.mp fun hlow => h ⟨hlt, hlow⟩)
        · exact .inl hlt
      rw [hover]
      refine iff_of_false (by simp) ?_
      intro hc
      exact h ⟨hc.1, hc.2.1⟩

/-- A move by one byte within a string. -/
theorem memmove_moves_overlap :
    (0x1001#64).toNat + (5#64).toNat ≤ 2 ^ 64 ∧ (0x1000#64).toNat + (5#64).toNat ≤ 2 ^ 64 ∧
      ∀ m, ∃ m', memmove 0x1001#64 0x1000#64 5#64 m = some m' ∧
        Moved 0x1001#64 0x1000#64 5#64 m m' :=
  ⟨by decide, by decide,
    fun _ => (memmove_moves_iff (by decide) (by decide)).mpr (.inl (by decide))⟩

/-- Of `2 ^ 32` bytes none is copied. -/
theorem memmove_moves_nothing :
    let size := 0x100000000#64
    let m : Mem := fun x => if x = 0 then 1 else 0
    (0x100000000#64).toNat + size.toNat ≤ 2 ^ 64 ∧ (0#64).toNat + size.toNat ≤ 2 ^ 64 ∧
      ¬ ∃ m', memmove 0x100000000#64 0#64 size m = some m' ∧
        Moved 0x100000000#64 0#64 size m m' := by
  refine ⟨by decide, by decide, ?_⟩
  intro h
  obtain ⟨m', hrun, hmoved⟩ := h
  rw [memmove_backward (by decide) (by decide) (by decide), Option.some.injEq] at hrun
  have hcopied := (moved_copy_iff (by decide)).mp (hrun ▸ hmoved) 0 (by decide) (by decide)
  exact absurd hcopied (by decide)

end Memlib
end DeliceOS
