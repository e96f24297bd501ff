import DeliceOS.Base.Mem

/-!
# Base.Copy

Memory with a range of bytes copied, and the copy built up byte by byte.

* `copy_forward`, `copy_backward`: one more byte, read from the memory as it is by then. Which of
  the two is right depends on which of the ranges comes first.
-/

namespace Base
namespace Mem

/-- Bytes `lo` to `hi` of the range at `s` copied to the range at `d`. -/
def copy (m : Mem) (d s lo hi : Nat) : Mem :=
  fun x => if d + lo ≤ x ∧ x < d + hi then m (s + (x - d)) else m x

variable {m : Mem} {d s lo hi k n x : Nat}

theorem copy_in (h : d + lo ≤ x) (h' : x < d + hi) : m.copy d s lo hi x = m (s + (x - d)) := by
  rw [copy, if_pos ⟨h, h'⟩]

theorem copy_out (h : x < d + lo ∨ d + hi ≤ x) : m.copy d s lo hi x = m x := by
  rw [copy, if_neg (by omega)]

theorem copy_empty (m : Mem) (d s k : Nat) : m.copy d s k k = m := by
  funext x
  exact copy_out (by omega)

/-- One more byte next to those copied, from a source byte that is as it was. -/
theorem copy_write8 {lo' hi' : Nat} (hread : m.copy d s lo hi (s + k) = m (s + k))
    (hk : lo' ≤ k) (hk' : k < hi') (h : ∀ i, i ≠ k → (lo ≤ i ∧ i < hi ↔ lo' ≤ i ∧ i < hi')) :
    (m.copy d s lo hi).write8 (d + k) (m.copy d s lo hi (s + k)) = m.copy d s lo' hi' := by
  funext x
  rw [write8_eq, Function.update_apply, hread]
  by_cases hx : x = d + k
  · rw [if_pos hx, copy_in (by omega) (by omega), hx, Nat.add_sub_cancel_left]
  · rw [if_neg hx, copy, copy]
    refine if_congr ?_ rfl rfl
    have := h (x - d)
    omega

/-- Upwards, a source that does not start below the destination has not been overwritten yet. -/
theorem copy_forward (m : Mem) (k : Nat) (h : d ≤ s) :
    (m.copy d s 0 k).write8 (d + k) (m.copy d s 0 k (s + k)) = m.copy d s 0 (k + 1) :=
  copy_write8 (copy_out (by omega)) (Nat.zero_le k) (by omega) (by omega)

/-- Downwards, a source that does not start above the destination. -/
theorem copy_backward (m : Mem) (h : s ≤ d) (hk : k < n) :
    (m.copy d s (k + 1) n).write8 (d + k) (m.copy d s (k + 1) n (s + k)) = m.copy d s k n :=
  copy_write8 (copy_out (by omega)) (Nat.le_refl k) hk (by omega)

end Mem
end Base
