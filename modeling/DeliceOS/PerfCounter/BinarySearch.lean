import DeliceOS.Base.CInt
import Mathlib.Data.Int.ConditionallyCompleteOrder
import Mathlib.Data.List.Sort
import Mathlib.Order.ConditionallyCompleteLattice.Basic

/-!
# PerfCounter.BinarySearch

`binarySearch` and `search` of `perfctr.cc`. An array is the list of its elements. An `int`
expression that overflows and an index outside the array are faults.

* `Bracket`: where the element is, if it is anywhere.
* `binarySearch_refines_search`: on a sorted array the two agree.
-/

namespace DeliceOS
namespace PerfCounter

open Base

inductive Fault where
  | overflow
  | outside (index : Int)
  deriving DecidableEq

/-- `arr[i]`. -/
def elem? (arr : List Int) (i : Int) : Option Int := if 0 ≤ i then arr[i.toNat]? else none

def binarySearch (arr : List Int) (l r x : Int) : Except Fault Int :=
  if r ≥ l then
    let mid := l + (r - l).tdiv 2
    if CInt.Fits (r - l) ∧ CInt.Fits mid then
      match elem? arr mid with
      | none => .error (.outside mid)
      | some v =>
        if v = x then .ok mid
        else if v > x then
          if CInt.Fits (mid - 1) then binarySearch arr l (mid - 1) x else .error .overflow
        else
          if CInt.Fits (mid + 1) then binarySearch arr (mid + 1) r x else .error .overflow
    else .error .overflow
  else .ok (-1)
termination_by (r - l + 1).toNat
decreasing_by
  · have hdiv : (r - l).tdiv 2 = (r - l) / 2 := Int.tdiv_eq_ediv_of_nonneg (by omega)
    omega
  · have hdiv : (r - l).tdiv 2 = (r - l) / 2 := Int.tdiv_eq_ediv_of_nonneg (by omega)
    omega

/-- The `for` loop of `search`. -/
def searchLoop (arr : List Int) (n x i : Int) : Except Fault Int :=
  if i < n then
    match elem? arr i with
    | none => .error (.outside i)
    | some v =>
      if v = x then .ok i
      else if CInt.Fits (i + 1) then searchLoop arr n x (i + 1) else .error .overflow
  else .ok (-1)
termination_by (n - i).toNat

def search (arr : List Int) (n x : Int) : Except Fault Int := searchLoop arr n x 0

variable {arr : List Int} {l r x : Int}

theorem elem?_eq {k : Nat} (h : k < arr.length) : elem? arr k = some arr[k] := by
  rw [elem?, if_pos (Int.natCast_nonneg k), Int.toNat_natCast, List.getElem?_eq_getElem h]

/-- What both functions are to return: -1 for an element that is not there, else an index of it. -/
def Result (arr : List Int) (x b : Int) : Prop :=
  b = -1 ∧ x ∉ arr ∨ ∃ k : Nat, ∃ h : k < arr.length, b = k ∧ arr[k] = x

/-! ## The bracket -/

/-- If `x` is in the array, then from index `l` to index `r`. -/
structure Bracket (arr : List Int) (l r x : Int) : Prop where
  nonneg : 0 ≤ l
  lt : r < arr.length
  le : l ≤ r + 1
  mem : ∀ k (h : k < arr.length), arr[k] = x → l ≤ k ∧ k ≤ r

theorem Bracket.start (arr : List Int) (x : Int) : Bracket arr 0 (arr.length - 1) x where
  nonneg := Int.le_refl 0
  lt := by omega
  le := by omega
  mem k h _ := by omega

/-- Everything from an element above `x` on is above `x`. -/
theorem Bracket.left (h : Bracket arr l r x) (hs : arr.SortedLE) {mid : Nat}
    (hmid : mid < arr.length) (hl : l ≤ mid) (hv : x < arr[mid]) :
    Bracket arr l (mid - 1) x where
  nonneg := h.nonneg
  lt := by omega
  le := by omega
  mem k hk he := by
    obtain ⟨hlk, -⟩ := h.mem k hk he
    refine ⟨hlk, ?_⟩
    by_contra hle
    have hmk : arr[mid] ≤ arr[k] := hs.getElem_le_getElem_of_le (by omega)
    omega

/-- Everything up to an element below `x` is below `x`. -/
theorem Bracket.right (h : Bracket arr l r x) (hs : arr.SortedLE) {mid : Nat}
    (hmid : mid < arr.length) (hr : mid ≤ r) (hv : arr[mid] < x) :
    Bracket arr (mid + 1) r x where
  nonneg := by omega
  lt := h.lt
  le := by omega
  mem k hk he := by
    obtain ⟨-, hkr⟩ := h.mem k hk he
    refine ⟨?_, hkr⟩
    by_contra hle
    have hkm : arr[k] ≤ arr[mid] := hs.getElem_le_getElem_of_le (by omega)
    omega

/-- The middle of a bracket that is not empty, without overflow. -/
theorem Bracket.middle (h : Bracket arr l r x) (hlen : arr.length < 2 ^ 31) (hlr : l ≤ r) :
    ∃ mid : Nat, l + (r - l).tdiv 2 = mid ∧ mid < arr.length ∧ l ≤ mid ∧ mid ≤ r ∧
      CInt.Fits (r - l) ∧ CInt.Fits mid ∧ CInt.Fits (mid - 1) ∧ CInt.Fits (mid + 1) := by
  have hdiv : (r - l).tdiv 2 = (r - l) / 2 := Int.tdiv_eq_ediv_of_nonneg (by omega)
  have hl := h.nonneg
  have hr := h.lt
  refine ⟨(l + (r - l) / 2).toNat, by rw [hdiv]; omega, by omega, by omega, by omega, ?_⟩
  simp only [CInt.Fits]
  omega

/-- Within a bracket the search ends, without a fault, with the right result. -/
theorem binarySearch_spec (hlen : arr.length < 2 ^ 31) (hs : arr.SortedLE)
    (h : Bracket arr l r x) : ∃ b, binarySearch arr l r x = .ok b ∧ Result arr x b := by
  generalize hn : (r - l + 1).toNat = n
  induction n using Nat.strong_induction_on generalizing l r with
  | _ n ih =>
    rw [binarySearch]
    by_cases hlr : r ≥ l
    · obtain ⟨mid, hmid, hlt, hl, hr, hf1, hf2, hf3, hf4⟩ := h.middle hlen hlr
      simp only [if_pos hlr, hmid, if_pos (And.intro hf1 hf2), elem?_eq hlt]
      by_cases heq : arr[mid] = x
      · rw [if_pos heq]
        exact ⟨mid, rfl, .inr ⟨mid, hlt, rfl, heq⟩⟩
      · rw [if_neg heq]
        by_cases hgt : arr[mid] > x
        · rw [if_pos hgt, if_pos hf3]
          exact ih _ (by omega) (h.left hs hlt hl hgt) rfl
        · rw [if_neg hgt, if_pos hf4]
          exact ih _ (by omega) (h.right hs hlt hr (by omega)) rfl
    · rw [if_neg hlr]
      refine ⟨-1, rfl, .inl ⟨rfl, fun hx => ?_⟩⟩
      obtain ⟨k, hk, he⟩ := List.getElem_of_mem hx
      have hin := h.mem k hk he
      omega

/-- `search` ends with the first index of `x`. -/
theorem searchLoop_spec (hlen : arr.length < 2 ^ 31) {i : Nat} (hi : i ≤ arr.length)
    (hno : ∀ j (h : j < arr.length), j < i → arr[j] ≠ x) :
    ∃ s, searchLoop arr arr.length x i = .ok s ∧ Result arr x s ∧
      ∀ k : Nat, s = k → ∀ j (h : j < arr.length), j < k → arr[j] ≠ x := by
  generalize hn : arr.length - i = n
  induction n generalizing i with
  | zero =>
    rw [searchLoop, if_neg (by omega)]
    refine ⟨-1, rfl, .inl ⟨rfl, fun hx => ?_⟩, fun k hk => by omega⟩
    obtain ⟨k, hk, he⟩ := List.getElem_of_mem hx
    exact hno k hk (by omega) he
  | succ n ih =>
    have hlt : i < arr.length := by omega
    rw [searchLoop, if_pos (by omega), elem?_eq hlt]
    by_cases heq : arr[i] = x
    · simp only [if_pos heq]
      refine ⟨i, rfl, .inr ⟨i, hlt, rfl, heq⟩, fun k hk j hj hjk => hno j hj ?_⟩
      omega
    · have hf : CInt.Fits (i + 1) := CInt.Fits.of_nat (n := i + 1) (by omega)
      simp only [if_neg heq, if_pos hf]
      refine ih (i := i + 1) hlt (fun j hj hji => ?_) (by omega)
      by_cases hje : j = i
      · subst hje
        exact heq
      · exact hno j hj (by omega)

/-- On a sorted array `binarySearch` ends, with all indices in bounds and no overflow. It returns
-1 exactly when `search` does, otherwise an index of `x`, and that of `search` if no element
occurs twice. -/
theorem binarySearch_refines_search (hlen : arr.length ≤ 2 ^ 31 - 1) (hs : arr.SortedLE) (x : Int) :
    ∃ b s, binarySearch arr 0 (arr.length - 1) x = .ok b ∧ search arr arr.length x = .ok s ∧
      (b = -1 ↔ s = -1) ∧ (b ≠ -1 → ∃ k : Nat, ∃ h : k < arr.length, b = k ∧ arr[k] = x) ∧
      (arr.SortedLT → b = s) := by
  obtain ⟨b, hb, hbr⟩ := binarySearch_spec (by omega) hs (Bracket.start arr x)
  obtain ⟨s, hsr, hsres, -⟩ := searchLoop_spec (x := x) (i := 0) (show arr.length < 2 ^ 31 by omega)
    (Nat.zero_le _) (fun j _ hj => absurd hj (Nat.not_lt_zero j))
  refine ⟨b, s, hb, hsr, ?_, ?_, ?_⟩
  · rcases hbr with ⟨rfl, hx⟩ | ⟨k, hk, rfl, he⟩
    · rcases hsres with ⟨rfl, -⟩ | ⟨j, hj, rfl, he⟩
      · exact Iff.rfl
      · exact absurd (he ▸ List.getElem_mem hj) hx
    · rcases hsres with ⟨rfl, hx⟩ | ⟨j, hj, rfl, -⟩
      · exact absurd (he ▸ List.getElem_mem hk) hx
      · omega
  · intro hne
    rcases hbr with ⟨rfl, -⟩ | hk
    · exact absurd rfl hne
    · exact hk
  · intro hlt
    rcases hbr with ⟨rfl, hx⟩ | ⟨k, hk, rfl, he⟩
    · rcases hsres with ⟨rfl, -⟩ | ⟨j, hj, rfl, he⟩
      · rfl
      · exact absurd (he ▸ List.getElem_mem hj) hx
    · rcases hsres with ⟨rfl, hx⟩ | ⟨j, hj, rfl, he'⟩
      · exact absurd (he ▸ List.getElem_mem hk) hx
      · have hkj : k = j := (hlt.nodup.getElem_inj_iff).mp (he.trans he'.symm)
        rw [hkj]

theorem binarySearch_refines_search_twice :
    ∃ b s, binarySearch [1, 3, 3, 8] 0 3 3 = .ok b ∧ search [1, 3, 3, 8] 4 3 = .ok s ∧
      (b = -1 ↔ s = -1) := by
  have hs : List.SortedLE [1, 3, 3, (8 : Int)] := List.Pairwise.sortedLE (by decide)
  obtain ⟨b, s, hb, hsr, hiff, -⟩ := binarySearch_refines_search (by decide) hs 3
  exact ⟨b, s, hb, hsr, hiff⟩

end PerfCounter
end DeliceOS
