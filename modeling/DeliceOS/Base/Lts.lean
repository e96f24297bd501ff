import Mathlib.Data.List.Basic
import Mathlib.Logic.Relation

/-!
# Base.Lts

Labelled transition systems with their traces.

* `Run T tr s`: the system reaches `s` from an initial state and the events on the way are `tr`.
* `Run.invariant`: the invariant rule; the invariant may talk about the trace.
* `Sim`: a forward simulation. The concrete events are abstracted by `lab`; an event with
  `lab e = none` is a stuttering step of the abstract system.
* `Sim.run`: along a simulation every run has an abstract run whose trace is the abstraction of
  the concrete trace.
-/

namespace Base

structure Lts (σ ε : Type*) where
  init : σ → Prop
  step : σ → ε → σ → Prop

namespace Lts

variable {σ ε α β : Type*} {T : Lts σ ε} {A : Lts α β}

inductive Run (T : Lts σ ε) : List ε → σ → Prop where
  | init {s : σ} : T.init s → Run T [] s
  | step {tr : List ε} {s s' : σ} {e : ε} : Run T tr s → T.step s e s' → Run T (tr ++ [e]) s'

/-- An invariant of state and history: it holds initially and each step keeps it. -/
theorem Run.invariant {I : List ε → σ → Prop} (h0 : ∀ s, T.init s → I [] s)
    (hs : ∀ tr s e s', I tr s → T.step s e s' → I (tr ++ [e]) s') {tr : List ε} {s : σ}
    (h : T.Run tr s) : I tr s := by
  induction h with
  | init h => exact h0 _ h
  | step _ h ih => exact hs _ _ _ _ ih h

theorem Run.state_invariant {I : σ → Prop} (h0 : ∀ s, T.init s → I s)
    (hs : ∀ s e s', I s → T.step s e s' → I s') {tr : List ε} {s : σ} (h : T.Run tr s) : I s :=
  Run.invariant (I := fun _ s => I s) h0 (fun _ => hs) h

/-- `s'` can be reached from `s`, by any events. -/
def Reaches (T : Lts σ ε) : σ → σ → Prop := Relation.ReflTransGen fun s s' => ∃ e, T.step s e s'

/-- The same system with only the steps that satisfy `g`. -/
def guard (T : Lts σ ε) (g : σ → ε → Prop) : Lts σ ε where
  init := T.init
  step s e s' := g s e ∧ T.step s e s'

theorem Run.of_guard {g : σ → ε → Prop} {tr : List ε} {s : σ} (h : (T.guard g).Run tr s) :
    T.Run tr s := by
  induction h with
  | init h => exact .init h
  | step _ h ih => exact .step ih h.2

theorem Run.step_guard {g : σ → ε → Prop} {tr : List ε} {s s' : σ} {e : ε}
    (h : (T.guard g).Run tr s) (hs : T.step s e s') (hg : g s e) :
    (T.guard g).Run (tr ++ [e]) s' := h.step ⟨hg, hs⟩

/-- The abstract system answers the event `o` from `a` and ends where `P` holds; on `none` it
stays. -/
def Follows (A : Lts α β) (P : α → Prop) (a : α) : Option β → Prop
  | some b => ∃ a', A.step a b a' ∧ P a'
  | none => P a

/-- `R` is a forward simulation of `T` by `A`, with events abstracted by `lab`. -/
structure Sim (T : Lts σ ε) (A : Lts α β) (lab : ε → Option β) (R : σ → α → Prop) : Prop where
  init : ∀ s, T.init s → ∃ a, A.init a ∧ R s a
  step : ∀ s e s' a, R s a → T.step s e s' → A.Follows (R s') a (lab e)

theorem Sim.run {lab : ε → Option β} {R : σ → α → Prop} (hR : Sim T A lab R) {tr : List ε} {s : σ}
    (h : T.Run tr s) : ∃ a, A.Run (tr.filterMap lab) a ∧ R s a := by
  induction h with
  | init h =>
    obtain ⟨a, ha, hr⟩ := hR.init _ h
    exact ⟨a, .init ha, hr⟩
  | @step tr s s' e _ h ih =>
    obtain ⟨a, ha, hr⟩ := ih
    have hst := hR.step s e s' a hr h
    rw [List.filterMap_append]
    cases hl : lab e with
    | some b =>
      rw [hl] at hst
      obtain ⟨a', hb, hr'⟩ := hst
      exact ⟨a', by simpa [hl] using ha.step hb, hr'⟩
    | none =>
      rw [hl] at hst
      exact ⟨a, by simpa [hl] using ha, hst⟩

end Lts
end Base
