import Mathlib.Data.BitVec
import Mathlib.Data.Int.Basic
import Mathlib.Algebra.Group.Nat.Defs
import Mathlib.Algebra.Ring.Int.Defs

/-!
# Base.CInt

The 32-bit `int` of C next to the 64-bit `size_t`. An `int` is an integer in range; an expression
that leaves the range is undefined, a `size_t` is narrowed to an `int` modulo `2 ^ 32`, and an
`int` compared with a `size_t` is converted to one first.

* `sign_sub_eq_iff`: the order of two bytes as plain `char` and as `unsigned char`.
-/

namespace Base
namespace CInt

/-- The range of `int`. -/
def Fits (x : Int) : Prop := -2 ^ 31 ≤ x ∧ x < 2 ^ 31

instance (x : Int) : Decidable (Fits x) := inferInstanceAs (Decidable (_ ∧ _))

theorem Fits.of_nat {n : Nat} (h : n < 2 ^ 31) : Fits n := by
  unfold Fits
  omega

/-- A `size_t` assigned to an `int`. -/
def ofSize (size : BitVec 64) : Int := (size.setWidth 32).toInt

/-- An `int` converted to `size_t`. -/
def toSize (i : Int) : BitVec 64 := BitVec.ofInt 64 i

theorem ofSize_of_lt {size : BitVec 64} (h : size.toNat % 2 ^ 32 < 2 ^ 31) :
    ofSize size = ((size.toNat % 2 ^ 32 : Nat) : Int) := by
  rw [ofSize, BitVec.toInt_eq_toNat_cond, BitVec.toNat_setWidth, if_pos (by omega)]

theorem ofSize_of_ge {size : BitVec 64} (h : 2 ^ 31 ≤ size.toNat % 2 ^ 32) :
    ofSize size < 0 ∧ Fits (ofSize size) := by
  rw [ofSize, BitVec.toInt_eq_toNat_cond, BitVec.toNat_setWidth, if_neg (by omega), Fits]
  omega

theorem toSize_toNat {k : Nat} (h : k < 2 ^ 64) : (toSize k).toNat = k := by
  rw [toSize, BitVec.ofInt_natCast, BitVec.toNat_ofNat, Nat.mod_eq_of_lt h]

/-- An array element at an index that is not negative. -/
theorem add_toSize_toNat {p : BitVec 64} {k : Nat} (h : p.toNat + k < 2 ^ 64) :
    (p + toSize k).toNat = p.toNat + k := by
  rw [BitVec.toNat_add, toSize_toNat (by omega), Nat.mod_eq_of_lt h]

theorem toInt_of_msb {w : Nat} {a : BitVec w} (h : a.msb = true) :
    a.toInt = a.toNat - (2 ^ w : Nat) := by
  rw [BitVec.toInt_eq_msb_cond, if_pos h]

/-- A negative byte is below the others as a signed one and above them as an unsigned one. -/
theorem sign_sub_of_msb {w : Nat} {a b : BitVec w} (ha : a.msb = true) (hb : b.msb = false) :
    (a.toInt - b.toInt).sign = -1 ∧ ((a.toNat : Int) - b.toNat).sign = 1 := by
  have hlt := a.isLt
  have hge := BitVec.msb_eq_true_iff_two_mul_ge.mp ha
  have hlow := BitVec.msb_eq_false_iff_two_mul_lt.mp hb
  rw [toInt_of_msb ha, BitVec.toInt_eq_toNat_of_msb hb, Int.sign_eq_neg_one_iff_neg,
    Int.sign_eq_one_iff_pos]
  omega

/-- Signed and unsigned differences have the same sign unless just one of the two is negative. -/
theorem sign_sub_eq_iff {w : Nat} {a b : BitVec w} :
    (a.toInt - b.toInt).sign = ((a.toNat : Int) - b.toNat).sign ↔ a.msb = b.msb := by
  cases ha : a.msb with
  | false =>
    cases hb : b.msb with
    | false =>
      rw [BitVec.toInt_eq_toNat_of_msb ha, BitVec.toInt_eq_toNat_of_msb hb]
      exact iff_of_true rfl rfl
    | true =>
      obtain ⟨hsigned, hunsigned⟩ := sign_sub_of_msb hb ha
      rw [← Int.neg_sub, ← Int.neg_sub (b.toNat : Int), Int.sign_neg, Int.sign_neg, hsigned,
        hunsigned]
      decide
  | true =>
    cases hb : b.msb with
    | false =>
      obtain ⟨hsigned, hunsigned⟩ := sign_sub_of_msb ha hb
      rw [hsigned, hunsigned]
      decide
    | true =>
      rw [toInt_of_msb ha, toInt_of_msb hb]
      exact iff_of_true (congrArg Int.sign (by omega)) rfl

end CInt
end Base
