import Mathlib.Data.List.MinMax
import Mathlib.Order.Bounds.Basic

/-!
# Base.Extremum

`std::min_element` and `std::max_element`: one pass that keeps the best element so far and moves
only to a strictly better one, so that of equal elements the first is found.

* `minElement_eq_argmin`, `maxElement_eq_argmax`: under a comparison of keys they are Mathlib's
  `argmin` and `argmax`.
* `select_map`, `select_congr`: the comparison may be taken to another type of elements.
* `find?_eq_some_iff_isLeast`: in an increasing list the first match is the least.
-/

namespace Base

variable {α β κ : Type*}

/-- The loop of both: `y` replaces the best element so far if it is better. -/
def select (better : α → α → Bool) : List α → Option α
  | [] => none
  | x :: l => some (l.foldl (fun best y => if better y best then y else best) x)

def minElement (less : α → α → Bool) (l : List α) : Option α := select less l

def maxElement (less : α → α → Bool) (l : List α) : Option α :=
  select (fun y best => less best y) l

theorem select_eq_foldl (better : α → α → Bool) (l : List α) :
    select better l = l.foldl (List.argAux fun y best => better y best = true) none := by
  cases l with
  | nil => rfl
  | cons x l =>
    simp only [select, List.foldl_cons, List.argAux]
    induction l generalizing x with
    | nil => rfl
    | cons y l ih =>
      simp only [List.foldl_cons]
      rw [ih]
      congr 1
      by_cases h : better y x = true <;> simp [List.argAux, h]

theorem select_map (better : β → β → Bool) (g : α → β) (l : List α) :
    select better (l.map g) = (select (fun a b => better (g a) (g b)) l).map g := by
  cases l with
  | nil => rfl
  | cons x l =>
    simp only [select, List.map_cons, Option.map_some, Option.some.injEq]
    induction l generalizing x with
    | nil => rfl
    | cons y l ih =>
      simp only [List.map_cons, List.foldl_cons]
      rw [← ih, apply_ite g]

theorem select_congr {better better' : α → α → Bool} {l : List α}
    (h : ∀ a ∈ l, ∀ b ∈ l, better a b = better' a b) : select better l = select better' l := by
  cases l with
  | nil => rfl
  | cons x l =>
    simp only [select, Option.some.injEq]
    induction l generalizing x with
    | nil => rfl
    | cons y l ih =>
      simp only [List.foldl_cons]
      rw [h y (by simp) x (by simp)]
      refine ih _ fun a ha b hb => h a ?_ b ?_
      · rcases List.mem_cons.mp ha with rfl | ha
        · split <;> simp
        · simp [ha]
      · rcases List.mem_cons.mp hb with rfl | hb
        · split <;> simp
        · simp [hb]

theorem minElement_eq_argmin [LinearOrder κ] (f : α → κ) (l : List α) :
    minElement (fun a b => decide (f a < f b)) l = l.argmin f := by
  rw [minElement, select_eq_foldl]
  show _ = l.foldl (List.argAux fun a b => f a < f b) none
  congr 1
  funext best y
  cases best with
  | none => rfl
  | some x => simp only [List.argAux, decide_eq_true_eq]

theorem maxElement_eq_argmax [LinearOrder κ] (f : α → κ) (l : List α) :
    maxElement (fun a b => decide (f a < f b)) l = l.argmax f := by
  rw [maxElement, select_eq_foldl]
  show _ = l.foldl (List.argAux fun a b => f b < f a) none
  congr 1
  funext best y
  cases best with
  | none => rfl
  | some x => simp only [List.argAux, decide_eq_true_eq]

theorem exists_argmin [LinearOrder κ] (f : α → κ) {l : List α} (h : l ≠ []) :
    ∃ a, a ∈ l.argmin f :=
  Option.ne_none_iff_exists'.mp (mt List.argmin_eq_none.mp h)

theorem exists_argmax [LinearOrder κ] (f : α → κ) {l : List α} (h : l ≠ []) :
    ∃ a, a ∈ l.argmax f :=
  Option.ne_none_iff_exists'.mp (mt List.argmax_eq_none.mp h)

/-- Of the greatest elements the first is found. -/
theorem argmax_cons_of_le [LinearOrder κ] {f : α → κ} {a : α} {l : List α}
    (h : ∀ b ∈ l, f b ≤ f a) : (a :: l).argmax f = some a := by
  classical
  refine List.argmax_eq_some_iff.mpr ⟨List.mem_cons_self, ?_, ?_⟩
  · intro b hb
    rcases List.mem_cons.mp hb with heq | hmem
    · exact (congrArg f heq).le
    · exact h b hmem
  · intro b _ _
    rw [List.idxOf_cons_self]
    exact Nat.zero_le _

/-- In whatever order the elements come, the least has the same key. -/
theorem argmin_perm [LinearOrder κ] {f : α → κ} {l l' : List α} (h : l'.Perm l) {a b : α}
    (ha : a ∈ l.argmin f) (hb : b ∈ l'.argmin f) : f b = f a := by
  refine le_antisymm ?_ ?_
  · exact List.le_of_mem_argmin (h.mem_iff.mpr (List.argmin_mem ha)) hb
  · exact List.le_of_mem_argmin (h.mem_iff.mp (List.argmin_mem hb)) ha

theorem find?_eq_some_iff_isLeast [PartialOrder α] {l : List α} (h : l.Pairwise (· < ·))
    {p : α → Bool} {a : α} : l.find? p = some a ↔ IsLeast {x | x ∈ l ∧ p x = true} a := by
  induction l with
  | nil => simp [IsLeast]
  | cons x l ih =>
    rw [List.pairwise_cons] at h
    by_cases hx : p x = true
    · have hleast : IsLeast {y | y ∈ x :: l ∧ p y = true} x := by
        refine ⟨⟨List.mem_cons_self, hx⟩, ?_⟩
        intro y hy
        rcases List.mem_cons.mp hy.1 with heq | hmem
        · exact heq.ge
        · exact (h.1 y hmem).le
      rw [List.find?_cons_of_pos hx, Option.some.injEq]
      constructor
      · intro heq
        exact heq ▸ hleast
      · intro ha
        exact hleast.unique ha
    · have hset : {y | y ∈ x :: l ∧ p y = true} = {y | y ∈ l ∧ p y = true} := by
        ext y
        rw [Set.mem_ofPred_eq, Set.mem_ofPred_eq, List.mem_cons, or_and_right, or_iff_right]
        intro hy
        exact hx (hy.1 ▸ hy.2)
      rw [List.find?_cons_of_neg hx, ih h.2, hset]

end Base
