import Mathlib.Data.List.Basic

/-!
# Base.Records

Records of varying size laid one behind the other, each giving its own size. `size p` is the size
the record at `p` states.

* `Tiles`: the records from `p` on fill the space up to `e` exactly.
* `Records`: the records from `p` on that start before `stop`; the last may reach over it.
* `Reached`: the same records one by one.
* `exists_records_iff`: there are finitely many of them exactly if none states size 0.
* `reached_tiles_iff`: past the end of a tiled space the records are those that happen to follow.
-/

namespace Base

variable {size : Nat → Nat}

inductive Tiles (size : Nat → Nat) (e : Nat) : Nat → List Nat → Prop
  | nil : Tiles size e e []
  | cons {p : Nat} {l : List Nat} (hs : 0 < size p) (h : Tiles size e (p + size p) l) :
      Tiles size e p (p :: l)

inductive Records (size : Nat → Nat) (stop : Nat) : Nat → List Nat → Prop
  | nil {p : Nat} (hp : stop ≤ p) : Records size stop p []
  | cons {p : Nat} {l : List Nat} (hp : p < stop) (hs : 0 < size p)
      (h : Records size stop (p + size p) l) : Records size stop p (p :: l)

theorem Tiles.le {e p : Nat} {l : List Nat} (h : Tiles size e p l) : p ≤ e := by
  induction h with
  | nil => exact Nat.le_refl _
  | cons hs _ ih => omega

theorem Tiles.split {e stop p : Nat} {l l' : List Nat} (ht : Tiles size e p l)
    (h : Records size stop p l') (he : e ≤ stop) : ∃ t, l' = l ++ t ∧ Records size stop e t := by
  induction ht generalizing l' with
  | nil => exact ⟨l', rfl, h⟩
  | cons hs ht ih =>
    have hle := ht.le
    cases h with
    | nil hp => omega
    | cons _ _ h =>
      obtain ⟨t, rfl, hr⟩ := ih h
      exact ⟨t, rfl, hr⟩

/-- The record at `r` is one of those from `p` on that start before `stop`. -/
inductive Reached (size : Nat → Nat) (stop p : Nat) : Nat → Prop
  | first (hp : p < stop) : Reached size stop p p
  | next {r : Nat} (h : Reached size stop p r) (hr : r + size r < stop) :
      Reached size stop p (r + size r)

namespace Reached

variable {stop p r : Nat} {l : List Nat}

theorem lt (h : Reached size stop p r) : r < stop := by
  cases h with
  | first hp => exact hp
  | next _ hr => exact hr

theorem le (h : Reached size stop p r) : p ≤ r := by
  induction h with
  | first => exact Nat.le_refl _
  | next _ _ ih => exact Nat.le_trans ih (Nat.le_add_right ..)

/-- From `p` on means `p` itself or from the record behind it on. -/
theorem cons_iff (hp : p < stop) :
    Reached size stop p r ↔ r = p ∨ Reached size stop (p + size p) r := by
  constructor
  · intro h
    induction h with
    | first => exact .inl rfl
    | next _ hr ih =>
      rcases ih with rfl | ih
      · exact .inr (.first hr)
      · exact .inr (ih.next hr)
  · rintro (rfl | h)
    · exact .first hp
    · induction h with
      | first hlt => exact .next (.first hp) hlt
      | next _ hr ih => exact ih.next hr

theorem mem_iff (h : Records size stop p l) : Reached size stop p r ↔ r ∈ l := by
  induction h with
  | nil hp =>
    constructor
    · intro hr
      have hle := hr.le
      have hlt := hr.lt
      omega
    · intro hr; simp at hr
  | cons hp _ _ ih => rw [cons_iff hp, ih, List.mem_cons]

end Reached

theorem exists_records_iff {stop p : Nat} :
    (∃ l, Records size stop p l) ↔ ∀ r, Reached size stop p r → 0 < size r := by
  constructor
  · rintro ⟨l, h⟩
    induction h with
    | nil hp =>
      intro r hr
      have hle := hr.le
      have hlt := hr.lt
      omega
    | cons hp hs _ ih =>
      intro r hr
      rcases (Reached.cons_iff hp).mp hr with rfl | hr
      · exact hs
      · exact ih r hr
  · intro h
    -- the distance to `stop` shrinks with every record
    induction hd : stop - p using Nat.strongRecOn generalizing p with
    | ind d ih =>
      by_cases hp : p < stop
      · have hs := h p (.first hp)
        obtain ⟨l, hl⟩ := ih (stop - (p + size p)) (by omega)
          (fun r hr => h r ((Reached.cons_iff hp).mpr (.inr hr))) rfl
        exact ⟨p :: l, .cons hp hs hl⟩
      · exact ⟨[], .nil (by omega)⟩

/-- Past a tiled space come the records that happen to follow it. -/
theorem reached_tiles_iff {e stop p r : Nat} {l : List Nat} (ht : Tiles size e p l) (he : e ≤ stop) :
    Reached size stop p r ↔ r ∈ l ∨ Reached size stop e r := by
  induction ht with
  | nil => simp
  | cons hs ht ih =>
    have hle := ht.le
    rw [Reached.cons_iff (by omega), ih, List.mem_cons, or_assoc]

end Base
