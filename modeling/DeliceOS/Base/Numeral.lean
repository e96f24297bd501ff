import Mathlib.Data.List.Basic
import Mathlib.Logic.Function.Basic
import Mathlib.Data.Nat.Init
import Mathlib.Algebra.Group.Nat.Defs

/-!
# Base.Numeral

Numbers as text. `Nat.toDigits` is the unsigned form in any base, `decimal` the signed one.

* `toDigits_injective`, `decimal_injective`: the text determines the number.
* `notMem_toDigits`, `notMem_decimal`: a character that can separate numbers.
* `append_sep_inj`: a separator that is not in the fields separates them.
* `fixed_eq_iff`, `fixed_drop`: the last digits of a number determine it up to a power of the base.
-/

namespace Base
namespace Numeral

/-- The signed decimal form. -/
def decimal : Int → List Char
  | .ofNat n => Nat.toDigits 10 n
  | .negSucc n => '-' :: Nat.toDigits 10 (n + 1)

theorem digitChar_inj {c d : Nat} (hc : c < 16) (hd : d < 16) (h : c.digitChar = d.digitChar) :
    c = d := by
  have hall : ∀ c < 16, ∀ d < 16, c.digitChar = d.digitChar → c = d := by decide
  exact hall c hc d hd h

variable {b : Nat}

theorem mem_toDigits (hb : 1 < b) {c : Char} (n : Nat) (h : c ∈ Nat.toDigits b n) :
    ∃ d < b, c = d.digitChar := by
  induction n using Nat.strong_induction_on with
  | _ n ih =>
    rw [Nat.toDigits_eq_if hb] at h
    by_cases hn : n < b
    · rw [if_pos hn, List.mem_singleton] at h
      exact ⟨n, hn, h⟩
    · rw [if_neg hn, List.mem_append, List.mem_singleton] at h
      rcases h with h | h
      · exact ih _ (Nat.div_lt_self (by omega) hb) h
      · exact ⟨n % b, Nat.mod_lt n (by omega), h⟩

/-- Digits up to base 16 are none of the characters that separate numbers. -/
theorem notMem_toDigits (hb : 1 < b) (hb' : b ≤ 16) {c : Char}
    (hc : ∀ d < 16, c ≠ d.digitChar) (n : Nat) : c ∉ Nat.toDigits b n := by
  intro h
  obtain ⟨d, hd, rfl⟩ := mem_toDigits hb n h
  exact hc d (by omega) rfl

theorem notMem_decimal {c : Char} (hc : ∀ d < 16, c ≠ d.digitChar) (hneg : c ≠ '-') (i : Int) :
    c ∉ decimal i := by
  cases i with
  | ofNat n => exact notMem_toDigits (by decide) (by decide) hc n
  | negSucc n =>
    rw [decimal, List.mem_cons, not_or]
    exact ⟨hneg, notMem_toDigits (by decide) (by decide) hc (n + 1)⟩

/-- A number of one digit has a shorter text than one of more. -/
theorem toDigits_ne (hb : 1 < b) {n k : Nat} (hn : n < b) (hk : b ≤ k) :
    Nat.toDigits b n ≠ Nat.toDigits b k := by
  intro h
  have hlen := congrArg List.length h
  have hpos : 0 < (Nat.toDigits b (k / b)).length := Nat.length_toDigits_pos
  rw [Nat.toDigits_of_lt_base hn, Nat.toDigits_of_base_le hb hk, List.length_append] at hlen
  simp only [List.length_singleton] at hlen
  omega

theorem toDigits_injective (hb : 1 < b) (hb' : b ≤ 16) :
    Function.Injective (Nat.toDigits b) := by
  have hmod_lt : ∀ n, n % b < 16 := fun n => Nat.lt_of_lt_of_le (Nat.mod_lt n (by omega)) hb'
  intro n
  induction n using Nat.strong_induction_on with
  | _ n ih =>
    intro k h
    by_cases hn : n < b
    · by_cases hk : k < b
      · rw [Nat.toDigits_of_lt_base hn, Nat.toDigits_of_lt_base hk, List.singleton_inj] at h
        exact digitChar_inj (by omega) (by omega) h
      · exact absurd h (toDigits_ne hb hn (by omega))
    · by_cases hk : k < b
      · exact absurd h.symm (toDigits_ne hb hk (by omega))
      · rw [Nat.toDigits_of_base_le hb (Nat.not_lt.mp hn),
          Nat.toDigits_of_base_le hb (Nat.not_lt.mp hk)] at h
        obtain ⟨hdiv, hmod⟩ := List.append_inj' h rfl
        have hq := ih _ (Nat.div_lt_self (by omega) hb) hdiv
        have hr : n % b = k % b :=
          digitChar_inj (hmod_lt n) (hmod_lt k) (List.singleton_inj.mp hmod)
        rw [← Nat.div_add_mod n b, hq, hr, Nat.div_add_mod]

theorem decimal_injective : Function.Injective decimal := by
  have hsign : ∀ n k, Nat.toDigits 10 n ≠ '-' :: Nat.toDigits 10 k := by
    intro n k h
    exact notMem_toDigits (by decide) (by decide) (by decide) n (h ▸ List.mem_cons_self)
  have hinj := toDigits_injective (b := 10) (by decide) (by decide)
  intro i j h
  cases i with
  | ofNat n =>
    cases j with
    | ofNat k => rw [hinj h]
    | negSucc k => exact absurd h (hsign n _)
  | negSucc n =>
    cases j with
    | ofNat k => exact absurd h.symm (hsign k _)
    | negSucc k =>
      have := hinj (List.cons.inj h).2
      rw [Int.negSucc.injEq]
      omega

theorem append_sep_inj {α : Type} {sep : α} {xs ys as bs : List α} (hx : sep ∉ xs)
    (hy : sep ∉ ys) : xs ++ sep :: as = ys ++ sep :: bs ↔ xs = ys ∧ as = bs := by
  induction xs generalizing ys with
  | nil =>
    cases ys with
    | nil => simp
    | cons y ys =>
      have hne : sep ≠ y := fun h => hy (h ▸ List.mem_cons_self)
      simp [hne]
  | cons x xs ih =>
    cases ys with
    | nil =>
      have hne : x ≠ sep := fun h => hx (h ▸ List.mem_cons_self)
      simp [hne]
    | cons y ys =>
      rw [List.mem_cons, not_or] at hx hy
      rw [List.cons_append, List.cons_append, List.cons.injEq, ih hx.2 hy.2, List.cons.injEq,
        and_assoc]

/-! ## The last digits of a number -/

/-- The last `k` digits of `n`, for digits written by `g`. -/
def fixed (g : Nat → Char) (b : Nat) : Nat → Nat → List Char
  | 0, _ => []
  | k + 1, n => fixed g b k (n / b) ++ [g (n % b)]

variable {g : Nat → Char}

theorem fixed_length (k n : Nat) : (fixed g b k n).length = k := by
  induction k generalizing n with
  | zero => rfl
  | succ k ih => rw [fixed, List.length_append, ih, List.length_singleton]

theorem fixed_map (f : Char → Char) (k n : Nat) :
    (fixed g b k n).map f = fixed (f ∘ g) b k n := by
  induction k generalizing n with
  | zero => rfl
  | succ k ih => rw [fixed, List.map_append, ih, List.map_singleton, fixed, Function.comp_apply]

theorem fixed_zero (k : Nat) : fixed g b k 0 = List.replicate k (g 0) := by
  induction k with
  | zero => rfl
  | succ k ih => rw [fixed, Nat.zero_div, Nat.zero_mod, ih, List.replicate_succ']

theorem fixed_add (j k n : Nat) : fixed g b (j + k) n = fixed g b j (n / b ^ k) ++ fixed g b k n := by
  induction k generalizing n with
  | zero => rw [Nat.add_zero, Nat.pow_zero, Nat.div_one, fixed, List.append_nil]
  | succ k ih =>
    rw [← Nat.add_assoc, fixed, ih, fixed, Nat.div_div_eq_div_mul, ← Nat.pow_succ',
      List.append_assoc]

theorem fixed_drop (j k n : Nat) : (fixed g b (j + k) n).drop j = fixed g b k n := by
  rw [fixed_add, List.drop_left' (fixed_length j _)]

theorem fixed_eq_iff (hb : 0 < b) (hg : ∀ c < b, ∀ d < b, g c = g d → c = d) (k n m : Nat) :
    fixed g b k n = fixed g b k m ↔ n % b ^ k = m % b ^ k := by
  induction k generalizing n m with
  | zero => simp [fixed, Nat.mod_one]
  | succ k ih =>
    have hmod : ∀ n, n % b ^ (k + 1) = n % b + b * (n / b % b ^ k) := fun n => by
      rw [Nat.pow_succ', Nat.mod_mul]
    rw [fixed, fixed, hmod, hmod]
    constructor
    · intro h
      obtain ⟨hhigh, hlow⟩ := List.append_inj' h rfl
      have hdigit := hg _ (Nat.mod_lt n hb) _ (Nat.mod_lt m hb) (List.singleton_inj.mp hlow)
      rw [(ih _ _).mp hhigh, hdigit]
    · intro h
      have hdigit : n % b = m % b := by
        have := congrArg (· % b) h
        simpa using this
      have hhigh : n / b % b ^ k = m / b % b ^ k := by
        rw [hdigit] at h
        exact Nat.eq_of_mul_eq_mul_left hb (Nat.add_left_cancel h)
      rw [(ih _ _).mpr hhigh, hdigit]

/-- The digits of a number with zeros in front. -/
theorem fixed_eq_toDigits (hb : 1 < b) (hg : ∀ d < b, g d = d.digitChar) {k n : Nat} (hk : 0 < k)
    (hn : n < b ^ k) :
    fixed g b k n =
      List.replicate (k - (Nat.toDigits b n).length) '0' ++ Nat.toDigits b n := by
  induction k generalizing n with
  | zero => omega
  | succ k ih =>
    have hlast : g (n % b) = (n % b).digitChar := hg _ (Nat.mod_lt n (by omega))
    have hzero : g 0 = '0' := hg 0 (by omega)
    by_cases hlt : n < b
    · rw [fixed, Nat.div_eq_of_lt hlt, fixed_zero, hzero, hlast, Nat.mod_eq_of_lt hlt,
        Nat.toDigits_of_lt_base hlt, List.length_singleton, Nat.add_sub_cancel]
    · have hk' : 0 < k := by
        rcases Nat.eq_zero_or_pos k with rfl | h
        · rw [Nat.zero_add, Nat.pow_one] at hn
          exact absurd hn hlt
        · exact h
      have hdiv : n / b < b ^ k := Nat.div_lt_of_lt_mul (by rwa [← Nat.pow_succ'])
      rw [fixed, ih hk' hdiv, Nat.toDigits_of_base_le hb (Nat.not_lt.mp hlt), List.length_append,
        List.length_singleton, Nat.add_sub_add_right, hlast, List.append_assoc]

end Numeral
end Base
