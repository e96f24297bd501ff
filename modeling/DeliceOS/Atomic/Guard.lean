import DeliceOS.Base.Lts
import Mathlib.Algebra.Group.Nat.Defs
import Mathlib.Logic.Function.Basic
import Mathlib.Data.List.Nodup
import Mathlib.Data.List.Count

/-!
# Atomic.Guard

The life of the `Guard` objects of one `Lock`. `lock()` returns a guard; its move constructor is
defaulted, so a guard made from a live one has the same pointer to the lock and leaves the source
as it was; the destructor of each of them adds one to `release`.

The counters are the numbers of increments so far; the variables hold them modulo `2 ^ 32`.

* `Inv.step`: without moves each outstanding ticket has one owner, a waiting call or a guard.
* `guard_releases_once`: then every ticket is released exactly once and exclusion holds.
* `move_releases_twice`: after a move both guards release the same ticket.
-/

namespace DeliceOS
namespace Atomic

open Base

/-- A live `Guard`: the context that has it and the ticket it descends from. -/
structure GuardObj (κ : Type) where
  context : κ
  ticket : Nat
  deriving DecidableEq

structure GuardState (κ : Type) where
  acquire : Nat
  calls : κ → Option Nat   -- the ticket of a context in the loop of `lock()`
  guards : List (GuardObj κ)
  released : List Nat      -- the ticket behind each increment of `release`, the last one first

inductive GuardEvent (κ : Type) where
  | fetchAdd (c : κ)
  | retry (c : κ)
  | grant (c : κ)
  | move (g : GuardObj κ) (d : κ)
  | destroy (g : GuardObj κ)

namespace GuardState

variable {κ : Type}

def init : GuardState κ := ⟨0, fun _ => none, [], []⟩

/-- The increments of `release`. -/
def release (s : GuardState κ) : Nat := s.released.length

inductive Step [DecidableEq κ] : GuardState κ → GuardEvent κ → GuardState κ → Prop
  | fetchAdd {s : GuardState κ} {c : κ} (h : s.calls c = none) :
      Step s (.fetchAdd c)
        { s with acquire := s.acquire + 1, calls := Function.update s.calls c (some s.acquire) }
  | retry {s : GuardState κ} {c : κ} {t : Nat} (h : s.calls c = some t)
      (ht : s.release % 2 ^ 32 ≠ t % 2 ^ 32) : Step s (.retry c) s
  | grant {s : GuardState κ} {c : κ} {t : Nat} (h : s.calls c = some t)
      (ht : s.release % 2 ^ 32 = t % 2 ^ 32) :
      Step s (.grant c)
        { s with calls := Function.update s.calls c none, guards := ⟨c, t⟩ :: s.guards }
  | move {s : GuardState κ} {g : GuardObj κ} {d : κ} (h : g ∈ s.guards) :
      Step s (.move g d) { s with guards := ⟨d, g.ticket⟩ :: s.guards }
  | destroy {s : GuardState κ} {g : GuardObj κ} {l r : List (GuardObj κ)}
      (h : s.guards = l ++ g :: r) :
      Step s (.destroy g) { s with guards := l ++ r, released := g.ticket :: s.released }

/-- Each ticket is released once its guards are gone and never more than once, and one context at
most has a guard. -/
structure Exact (s : GuardState κ) : Prop where
  release_le : s.release ≤ s.acquire
  once : ∀ t, t < s.acquire → (∀ c, s.calls c ≠ some t) → (∀ g ∈ s.guards, g.ticket ≠ t) →
    s.released.count t = 1
  not_twice : ∀ t, s.released.count t ≤ 1
  exclusive : ∀ g ∈ s.guards, ∀ g' ∈ s.guards, g.context = g'.context

end GuardState

def guardLts (κ : Type) [DecidableEq κ] : Lts (GuardState κ) (GuardEvent κ) where
  init s := s = .init
  step := GuardState.Step

/-- No guard is moved, and no ticket is taken while `2 ^ 32` are outstanding. -/
def NoMove {κ : Type} (s : GuardState κ) : GuardEvent κ → Prop
  | .fetchAdd _ => s.acquire < s.release + 2 ^ 32
  | .move _ _ => False
  | _ => True

namespace GuardState

variable {κ : Type} {s s' : GuardState κ}

/-- Without moves: the tickets below `release` are released, the one at `release` may have a
guard, and those from there on are waiting. -/
structure Inv (s : GuardState κ) : Prop where
  bound : s.acquire ≤ s.release + 2 ^ 32
  released : s.released = (List.range s.release).reverse
  waiting : ∀ c t, s.calls c = some t → s.release + s.guards.length ≤ t ∧ t < s.acquire
  guards : ∀ g ∈ s.guards, g.ticket = s.release
  single : s.guards.length ≤ 1
  guarded : s.release + s.guards.length ≤ s.acquire
  owned : ∀ t, s.release + s.guards.length ≤ t → t < s.acquire → ∃ c, s.calls c = some t
  apart : ∀ c d t, s.calls c = some t → s.calls d = some t → c = d

theorem Inv.init : Inv (init : GuardState κ) where
  bound := Nat.zero_le _
  released := rfl
  waiting := nofun
  guards := nofun
  single := Nat.zero_le _
  guarded := Nat.le_refl _
  owned t _ h := absurd h (Nat.not_lt_zero t)
  apart := nofun

/-- The granted ticket is the one `release` counts: no other is a multiple of `2 ^ 32` away. -/
theorem Inv.grant_ticket (h : Inv s) {c : κ} {t : Nat} (hc : s.calls c = some t)
    (ht : s.release % 2 ^ 32 = t % 2 ^ 32) : t = s.release ∧ s.guards = [] := by
  have hb := h.bound
  obtain ⟨hlo, hhi⟩ := h.waiting c t hc
  have heq : t = s.release := by omega
  refine ⟨heq, List.eq_nil_of_length_eq_zero ?_⟩
  omega

/-- Destroying a guard leaves none. -/
theorem Inv.guards_eq (h : Inv s) {g : GuardObj κ} {l r : List (GuardObj κ)}
    (hg : s.guards = l ++ g :: r) : l = [] ∧ r = [] ∧ g.ticket = s.release := by
  have hlen := h.single
  rw [hg, List.length_append, List.length_cons] at hlen
  refine ⟨List.eq_nil_of_length_eq_zero (by omega), List.eq_nil_of_length_eq_zero (by omega), ?_⟩
  exact h.guards g (by simp [hg])

theorem Inv.destroy (h : Inv s) {g : GuardObj κ} {l r : List (GuardObj κ)}
    (hg : s.guards = l ++ g :: r) :
    Inv { s with guards := l ++ r, released := g.ticket :: s.released } := by
  obtain ⟨rfl, rfl, hticket⟩ := h.guards_eq hg
  have hb := h.bound
  have hgd := h.guarded
  simp only [hg, List.nil_append, List.length_cons, List.length_nil] at hgd
  simp only [release] at hb hgd
  refine ⟨?_, ?_, ?_, by simp, by simp, ?_, ?_, h.apart⟩
  · simp only [release, List.length_cons]
    omega
  · simp only [release, List.length_cons, List.range_succ, List.reverse_append, List.reverse_cons,
      List.reverse_nil, List.nil_append, List.singleton_append]
    rw [hticket]
    exact congrArg _ h.released
  · intro c t hc
    have hw := h.waiting c t hc
    simpa [hg, release] using hw
  · simpa [release] using hgd
  · intro t hlo hhi
    refine h.owned t ?_ hhi
    simpa [hg, release] using hlo

theorem Inv.exact (h : Inv s) : Exact s := by
  have hguarded := h.guarded
  refine ⟨by omega, ?_, ?_, ?_⟩
  · intro t ht hcalls hguards
    -- a ticket nobody waits with and no guard has is below `release`
    have hlt : t < s.release := by
      by_contra hge
      by_cases hlo : s.release + s.guards.length ≤ t
      · obtain ⟨c, hc⟩ := h.owned t hlo ht
        exact hcalls c hc
      · obtain ⟨g, hg⟩ := List.exists_mem_of_length_pos (show 0 < s.guards.length by omega)
        have hsingle := h.single
        have hticket := h.guards g hg
        exact hguards g hg (by omega)
    rw [h.released, List.count_reverse]
    exact List.count_eq_one_of_mem List.nodup_range (List.mem_range.mpr hlt)
  · rw [← List.nodup_iff_count_le_one, h.released, List.nodup_reverse]
    exact List.nodup_range
  · intro g hg g' hg'
    obtain ⟨l, r, hsplit⟩ := List.append_of_mem hg
    obtain ⟨rfl, rfl, -⟩ := h.guards_eq hsplit
    rw [hsplit, List.nil_append, List.mem_singleton] at hg'
    rw [hg']

variable [DecidableEq κ]

theorem update_eq_some {calls : κ → Option Nat} {c d : κ} {o : Option Nat} {t : Nat} :
    Function.update calls c o d = some t ↔ d = c ∧ o = some t ∨ d ≠ c ∧ calls d = some t := by
  by_cases hdc : d = c
  · simp [hdc]
  · simp [hdc]

theorem Inv.fetchAdd (h : Inv s) {c : κ} (hc : s.calls c = none)
    (hb : s.acquire < s.release + 2 ^ 32) :
    Inv { s with acquire := s.acquire + 1, calls := Function.update s.calls c (some s.acquire) } := by
  have hg := h.guarded
  refine ⟨hb, h.released, ?_, h.guards, h.single, Nat.le_succ_of_le hg, ?_, ?_⟩
  · intro d t hd
    rcases update_eq_some.mp hd with ⟨-, ht⟩ | ⟨-, hd⟩
    · cases ht
      exact ⟨hg, Nat.lt_succ_self _⟩
    · obtain ⟨hlo, hhi⟩ := h.waiting d t hd
      exact ⟨hlo, Nat.lt_succ_of_lt hhi⟩
  · intro t hlo hhi
    by_cases ht : t = s.acquire
    · exact ⟨c, update_eq_some.mpr (.inl ⟨rfl, by rw [ht]⟩)⟩
    · obtain ⟨d, hd⟩ := h.owned t hlo (Nat.lt_of_le_of_ne (Nat.le_of_lt_succ hhi) ht)
      have hdc : d ≠ c := by
        intro hdc
        rw [hdc, hc] at hd
        cases hd
      exact ⟨d, update_eq_some.mpr (.inr ⟨hdc, hd⟩)⟩
  · intro d d' t hd hd'
    -- the new ticket is larger than all waiting ones
    have hnew : ∀ e, s.calls e ≠ some s.acquire := by
      intro e he
      exact Nat.lt_irrefl _ (h.waiting e _ he).2
    rcases update_eq_some.mp hd with ⟨hdc, ht⟩ | ⟨-, hd⟩
    · cases ht
      rcases update_eq_some.mp hd' with ⟨hdc', -⟩ | ⟨-, hd'⟩
      · rw [hdc, hdc']
      · exact absurd hd' (hnew d')
    · rcases update_eq_some.mp hd' with ⟨-, ht⟩ | ⟨-, hd'⟩
      · cases ht
        exact absurd hd (hnew d)
      · exact h.apart d d' t hd hd'

theorem Inv.grant (h : Inv s) {c : κ} {t : Nat} (hc : s.calls c = some t)
    (ht : s.release % 2 ^ 32 = t % 2 ^ 32) :
    Inv { s with calls := Function.update s.calls c none, guards := ⟨c, t⟩ :: s.guards } := by
  obtain ⟨rfl, hnil⟩ := h.grant_ticket hc ht
  obtain ⟨-, hlt⟩ := h.waiting c _ hc
  -- the other calls wait for later tickets
  have hother : ∀ d t, Function.update s.calls c none d = some t → d ≠ c ∧ s.calls d = some t := by
    intro d t hd
    rcases update_eq_some.mp hd with ⟨-, hnone⟩ | hd
    · cases hnone
    · exact hd
  refine ⟨h.bound, h.released, ?_, ?_, ?_, ?_, ?_, ?_⟩
  · intro d t hd
    obtain ⟨hdc, hd⟩ := hother d t hd
    obtain ⟨hlo, hhi⟩ := h.waiting d t hd
    have hne : t ≠ s.release := by
      intro ht
      rw [ht] at hd
      exact hdc (h.apart d c _ hd hc)
    simp only [hnil, release, List.length_cons, List.length_nil] at hlo hne ⊢
    omega
  · simp [hnil, release]
  · simp [hnil]
  · simp only [hnil, release, List.length_cons, List.length_nil] at hlt ⊢
    omega
  · intro t hlo hhi
    simp only [hnil, release, List.length_cons, List.length_nil] at hlo
    obtain ⟨d, hd⟩ := h.owned t (by simp only [hnil, release, List.length_nil]; omega) hhi
    have hdc : d ≠ c := by
      intro hdc
      rw [hdc, hc] at hd
      cases hd
      simp only [release] at hlo
      omega
    exact ⟨d, update_eq_some.mpr (.inr ⟨hdc, hd⟩)⟩
  · intro d d' t hd hd'
    exact h.apart d d' t (hother d t hd).2 (hother d' t hd').2

theorem Inv.step (h : Inv s) {e : GuardEvent κ} (hg : NoMove s e) (hs : Step s e s') : Inv s' := by
  cases hs with
  | fetchAdd hc => exact h.fetchAdd hc hg
  | retry => exact h
  | grant hc ht => exact h.grant hc ht
  | move => exact absurd hg id
  | destroy hd => exact h.destroy hd

theorem Inv.run {tr : List (GuardEvent κ)} (h : ((guardLts κ).guard NoMove).Run tr s) : Inv s := by
  refine Lts.Run.state_invariant ?_ ?_ h
  · rintro _ rfl
    exact .init
  · rintro s e s' hi ⟨hg, hs⟩
    exact hi.step hg hs

/-- As long as no guard is moved and at most `2 ^ 32` tickets are outstanding, every ticket is
released exactly once and at most one context has a guard. -/
theorem guard_releases_once {tr : List (GuardEvent κ)}
    (h : ((guardLts κ).guard NoMove).Run tr s) : Exact s := (Inv.run h).exact

theorem guard_releases_once_one : ∃ (tr : List (GuardEvent (Fin 2))) (s : GuardState (Fin 2)),
    ((guardLts (Fin 2)).guard NoMove).Run tr s ∧ s.released = [0] ∧ Exact s := by
  have h0 : ((guardLts (Fin 2)).guard NoMove).Run [] .init := .init rfl
  have h1 := h0.step_guard (.fetchAdd (c := 0) rfl) (show 0 < 0 + 2 ^ 32 by decide)
  have h2 := h1.step_guard (.grant (c := 0) (t := 0) rfl rfl) trivial
  have h := h2.step_guard (.destroy (g := ⟨0, 0⟩) (l := []) (r := []) rfl) trivial
  exact ⟨_, _, h, rfl, guard_releases_once h⟩

/-- Whatever has happened without moves: once a guard is moved, its ticket can be released
twice. -/
theorem move_releases_twice {tr : List (GuardEvent κ)}
    (h : ((guardLts κ).guard NoMove).Run tr s) {g : GuardObj κ} (hg : g ∈ s.guards) (d : κ) :
    ∃ s', (guardLts κ).Run
        (tr ++ [.move g d] ++ [.destroy ⟨d, g.ticket⟩] ++ [.destroy g]) s' ∧
      s'.released.count g.ticket = 2 := by
  have hi := Inv.run h
  obtain ⟨l, r, hsplit⟩ := List.append_of_mem hg
  obtain ⟨rfl, rfl, hticket⟩ := hi.guards_eq hsplit
  have h1 := h.of_guard.step (.move (d := d) hg)
  have h2 := h1.step (.destroy (l := []) (r := [g]) (congrArg _ hsplit))
  have h3 := h2.step (.destroy (g := g) (l := []) (r := []) rfl)
  refine ⟨_, h3, ?_⟩
  have hnone : s.released.count g.ticket = 0 := by
    rw [hi.released, List.count_reverse, hticket]
    exact List.count_eq_zero_of_not_mem (by simp)
  simp [hnone]

/-- One context moves its guard and destroys both. -/
theorem release_without_acquire :
    ¬ ∀ (tr : List (GuardEvent (Fin 1))) (s : GuardState (Fin 1)),
      (guardLts (Fin 1)).Run tr s → Exact s := by
  intro h
  have h0 : (guardLts (Fin 1)).Run [] .init := .init rfl
  have h1 := h0.step (.fetchAdd (c := 0) rfl)
  have h2 := h1.step (.grant (c := 0) (t := 0) rfl rfl)
  have h3 := h2.step (.move (g := ⟨0, 0⟩) (d := 0) (by simp))
  have h4 := h3.step (.destroy (g := ⟨0, 0⟩) (l := []) (r := [⟨0, 0⟩]) rfl)
  have h5 := h4.step (.destroy (g := ⟨0, 0⟩) (l := []) (r := []) rfl)
  have hle := (h _ _ h5).release_le
  revert hle
  decide

end GuardState
end Atomic
end DeliceOS
