import DeliceOS.Interrupt.Idt
import DeliceOS.Memlib.Memmove

/-!
# Memlib.Memset

`memset` of memlib next to `memset` of the kernel.

* `Stdlib.memset_filled`: the kernel's sets every byte of the range and no other.
* `Stdlib.memset_eq_idt`: it is the `memset` that clears the interrupt gates.
* `memset_agree_iff`: memlib's sets the first byte only, and agrees if the others hold the value
  already.
-/

namespace DeliceOS

open Base

/-- What a caller of `memset` expects: the bytes `dst[k]` hold the value, no other has changed. -/
structure Filled (dst : BitVec 64) (byte : BitVec 8) (size : BitVec 64) (m m' : Mem) : Prop where
  filled : ∀ k < size, m' (dst + k).toNat = byte
  frame : ∀ x, (∀ k < size, x ≠ (dst + k).toNat) → m' x = m x

variable {dst size i k : BitVec 64} {byte : BitVec 8} {m m' m'' : Mem} {x : Nat}

theorem Filled.unique (h : Filled dst byte size m m') (h' : Filled dst byte size m m'') :
    m' = m'' := by
  funext x
  by_cases hx : ∃ k < size, x = (dst + k).toNat
  · obtain ⟨k, hk, rfl⟩ := hx
    rw [h.filled k hk, h'.filled k hk]
  · have hout : ∀ k < size, x ≠ (dst + k).toNat := fun k hk heq => hx ⟨k, hk, heq⟩
    rw [h.frame x hout, h'.frame x hout]

/-- Where the range does not wrap around, it is that from `dst` to `dst + size`. -/
theorem inside_iff (hfit : dst.toNat + size.toNat ≤ 2 ^ 64) :
    (∃ k < size, x = (dst + k).toNat) ↔ dst.toNat ≤ x ∧ x < dst.toNat + size.toNat := by
  constructor
  · rintro ⟨k, hk, rfl⟩
    rw [BitVec.lt_def] at hk
    rw [BitVec.toNat_add, Nat.mod_eq_of_lt (by omega)]
    omega
  · intro ⟨hle, hlt⟩
    have hoff : (BitVec.ofNat 64 (x - dst.toNat)).toNat = x - dst.toNat := by
      rw [BitVec.toNat_ofNat, Nat.mod_eq_of_lt (by omega)]
    refine ⟨BitVec.ofNat 64 (x - dst.toNat), ?_, ?_⟩
    · rw [BitVec.lt_def, hoff]
      omega
    · rw [BitVec.toNat_add, hoff, Nat.mod_eq_of_lt (by omega)]
      omega

/-! ## The kernel -/

namespace Stdlib

/-- The `for` loop of `memset`, from index `i` on. -/
def memsetLoop (ptr : BitVec 64) (byte : BitVec 8) (size : BitVec 64) (m : Mem) (i : BitVec 64) :
    Mem :=
  if i < size then memsetLoop ptr byte size (m.write8 (ptr + i).toNat byte) (i + 1) else m
termination_by (size - i).toNat
decreasing_by bv_omega

/-- `memset` of `stdlib.cc`, which stands in `interrupt.cc` a second time. -/
def memset (dst : BitVec 64) (byte : BitVec 8) (size : BitVec 64) (m : Mem) : Mem :=
  memsetLoop dst byte size m 0

theorem memsetLoop_out (h : ∀ k, i ≤ k → k < size → x ≠ (dst + k).toNat) :
    memsetLoop dst byte size m i x = m x := by
  fun_induction memsetLoop dst byte size m i with
  | case1 m i hi ih =>
    have hstep : ∀ k, i + 1 ≤ k → k < size → x ≠ (dst + k).toNat :=
      fun k hk => h k (by bv_omega)
    rw [ih hstep, Mem.write8_eq, Function.update_of_ne (h i (BitVec.le_refl i) hi)]
  | case2 m i hi => rfl

theorem memsetLoop_in (hi : i ≤ k) (hk : k < size) :
    memsetLoop dst byte size m i (dst + k).toNat = byte := by
  fun_induction memsetLoop dst byte size m i with
  | case1 m i hlt ih =>
    by_cases hik : i = k
    · subst hik
      have hlater : ∀ j, i + 1 ≤ j → j < size → (dst + i).toNat ≠ (dst + j).toNat := by
        intro j hj hj' heq
        have hij : i = j := add_left_cancel (BitVec.eq_of_toNat_eq heq)
        bv_omega
      rw [memsetLoop_out hlater, Mem.write8_eq, Function.update_self]
    · exact ih (by bv_omega)
  | case2 m i hge => exact absurd (show i < size by bv_omega) hge

theorem memset_filled (dst : BitVec 64) (byte : BitVec 8) (size : BitVec 64) (m : Mem) :
    Filled dst byte size m (memset dst byte size m) where
  filled k hk := memsetLoop_in (by bv_omega) hk
  frame x hx := memsetLoop_out fun k _ hk => hx k hk

/-- The page tables and the interrupt gates are cleared with it. -/
theorem memset_eq_idt (hfit : dst.toNat + size.toNat ≤ 2 ^ 64) :
    memset dst byte size m = Idt.memset dst.toNat byte.toNat size.toNat m := by
  refine (memset_filled dst byte size m).unique ⟨?_, ?_⟩
  · intro k hk
    rw [Idt.memset, Store.run_clear, if_pos ((inside_iff hfit).mp ⟨k, hk, rfl⟩),
      BitVec.ofNat_toNat, BitVec.setWidth_eq]
  · intro x hx
    rw [Idt.memset, Store.run_clear, if_neg]
    intro hin
    obtain ⟨k, hk, heq⟩ := (inside_iff hfit).mpr hin
    exact hx k hk heq

end Stdlib

/-! ## memlib -/

namespace Memlib

/-- `memset` of memlib. -/
def memset (dst : BitVec 64) (byte : BitVec 8) (size : BitVec 64) (m : Mem) : Mem :=
  let i : Int := 0
  if CInt.toSize i < size then m.write8 (elemAddr dst i) byte else m

/-- The implementations leave the same memory, with the range filled. -/
structure Agree (dst : BitVec 64) (byte : BitVec 8) (size : BitVec 64) (m : Mem) : Prop where
  same : memset dst byte size m = Stdlib.memset dst byte size m
  filled : Filled dst byte size m (Stdlib.memset dst byte size m)

theorem memset_eq : memset dst byte size m = if 0 < size then m.write8 dst.toNat byte else m := by
  have haddr : elemAddr dst 0 = dst.toNat := elemAddr_eq (k := 0) (by omega)
  rw [memset]
  simp only [haddr]
  rfl

theorem memset_first (h : 0 < size) : memset dst byte size m (dst + 0).toNat = byte := by
  rw [memset_eq, if_pos h, add_zero, Mem.write8_eq, Function.update_self]

theorem memset_rest (h : x ≠ dst.toNat) : memset dst byte size m x = m x := by
  rw [memset_eq]
  split
  · rw [Mem.write8_eq, Function.update_of_ne h]
  · rfl

theorem add_ne (hk : 0 < k) : (dst + k).toNat ≠ dst.toNat := by
  bv_omega

/-- The implementations agree exactly where the bytes from the second on need not be set. -/
theorem memset_agree_iff (dst : BitVec 64) (byte : BitVec 8) (size : BitVec 64) (m : Mem) :
    Agree dst byte size m ↔ ∀ k, 0 < k → k < size → m (dst + k).toNat = byte := by
  have hkernel := Stdlib.memset_filled dst byte size m
  constructor
  · intro h k hk hlt
    rw [← hkernel.filled k hlt, ← h.same, memset_rest (add_ne hk)]
  · intro h
    refine ⟨Filled.unique ⟨fun k hk => ?_, fun x hx => ?_⟩ hkernel, hkernel⟩
    · by_cases hzero : k = 0
      · subst hzero
        exact memset_first hk
      · rw [memset_rest (add_ne (by bv_omega))]
        exact h k (by bv_omega) hk
    · rw [memset_eq]
      split
      · rename_i hpos
        have hne := hx 0 hpos
        rw [add_zero] at hne
        rw [Mem.write8_eq, Function.update_of_ne hne]
      · rfl

/-- Of two bytes the second is not set. -/
theorem memset_two : ¬ Agree 0x1000 1 2 (fun _ => 0) := by
  intro h
  have hsecond := (memset_agree_iff _ _ _ _).mp h 1 (by decide) (by decide)
  exact absurd hsecond (by decide)

end Memlib
end DeliceOS
