import DeliceOS.Base.FifoLock
import Mathlib.Data.Fintype.Card
import Mathlib.Data.Fintype.EquivFin
import Mathlib.Data.BitVec
import Mathlib.Logic.Function.Basic

/-!
# Atomic.Lock

The ticket lock of `atomic.h`: `Lock<T>::lock` takes a ticket from `acquire` and spins until
`release` shows it; the destructor of the returned `Guard` adds one to `release`. Both counters
are 32-bit and wrap. A guard is not moved here, so it is destroyed by the context it was returned
to.

The atomic steps of one context are `fetch_add` on `acquire`, one load of `release`, and
`fetch_add` on `release`; `LockState.step s c` is the next atomic step of context `c`. Contexts
interleave freely.

* `Abs`: the counters and the private tickets represent a `FifoLock.Line`.
* `Abs.step`: each atomic step is a step of the abstract lock, or changes nothing in it (a failed
  load). This is the only place where the width of the counters matters: the line must not be
  longer than `2 ^ 32`.
* `lock_exclusive_fifo`: mutual exclusion, the meaning of `acquire - release`, and the order of
  granting, over runs of any length.
-/

namespace DeliceOS
namespace Atomic

open Base

inductive Pc where
  | out
  | spin (ticket : BitVec 32)     -- after `acquire.fetch_add`, in the `while` loop
  | guarded (ticket : BitVec 32)  -- `lock` has returned and the `Guard` is alive
  deriving DecidableEq, Repr

structure LockState (κ : Type) where
  acquire : BitVec 32
  release : BitVec 32
  pc : κ → Pc

inductive Event (κ : Type) where
  | fetchAdd (c : κ)
  | retry (c : κ)    -- a load of `release` that does not show the ticket of `c`
  | grant (c : κ)    -- the load of `release` that ends the loop of `c`
  | destroy (c : κ)  -- `~Guard`

namespace LockState

variable {κ : Type}

def init : LockState κ := ⟨0, 0, fun _ => .out⟩

variable [DecidableEq κ]

/-- The next atomic step of context `c`. -/
def step (s : LockState κ) (c : κ) : Event κ × LockState κ :=
  match s.pc c with
  | .out =>
    (.fetchAdd c, { s with acquire := s.acquire + 1, pc := Function.update s.pc c (.spin s.acquire) })
  | .spin ticket =>
    if s.release ≠ ticket then (.retry c, s)
    else (.grant c, { s with pc := Function.update s.pc c (.guarded ticket) })
  | .guarded _ =>
    (.destroy c, { s with release := s.release + 1, pc := Function.update s.pc c .out })

theorem step_out {s : LockState κ} {c : κ} (h : s.pc c = .out) :
    s.step c = (.fetchAdd c,
      { s with acquire := s.acquire + 1, pc := Function.update s.pc c (.spin s.acquire) }) := by
  simp [step, h]

theorem step_retry {s : LockState κ} {c : κ} {t : BitVec 32} (h : s.pc c = .spin t)
    (ht : s.release ≠ t) : s.step c = (.retry c, s) := by
  simp [step, h, ht]

theorem step_grant {s : LockState κ} {c : κ} (h : s.pc c = .spin s.release) :
    s.step c = (.grant c, { s with pc := Function.update s.pc c (.guarded s.release) }) := by
  simp [step, h]

theorem step_guarded {s : LockState κ} {c : κ} {t : BitVec 32} (h : s.pc c = .guarded t) :
    s.step c = (.destroy c,
      { s with release := s.release + 1, pc := Function.update s.pc c .out }) := by
  simp [step, h]

/-- A step of `c` moves no other context. -/
theorem step_pc_of_ne (s : LockState κ) {c d : κ} (h : d ≠ c) : (s.step c).2.pc d = s.pc d := by
  unfold step
  split
  · simp [Function.update_of_ne h]
  · split <;> simp [Function.update_of_ne h]
  · simp [Function.update_of_ne h]

end LockState

def lockLts (κ : Type) [DecidableEq κ] : Lts (LockState κ) (Event κ) where
  init s := s = .init
  step s e s' := ∃ c, s.step c = (e, s')

def Event.abs {κ : Type} : Event κ → Option (FifoLock.Event κ)
  | .fetchAdd c => some (.enter c)
  | .retry _ => none
  | .grant c => some (.grant c)
  | .destroy c => some (.leave c)

/-- The counters and tickets of `s` represent the line `q`: the holder has the ticket `release`
shows, the waiting contexts have the tickets after it in order, and `acquire` is the next one. -/
structure Abs {κ : Type} (s : LockState κ) (q : FifoLock.Line κ) : Prop where
  nodup : q.queue.Nodup
  acquire : s.acquire = s.release + BitVec.ofNat 32 q.queue.length
  holder : ∀ c, q.holder = some c → s.pc c = .guarded s.release
  waiting : ∀ i (hi : i < q.waiting.length),
    s.pc q.waiting[i] = .spin (s.release + BitVec.ofNat 32 (q.holder.toList.length + i))
  out : ∀ c, c ∉ q.queue → s.pc c = .out

/-- Counters less than one turn apart are equal only when nothing was added. -/
theorem eq_zero_of_add_ofNat {x : BitVec 32} {n : Nat} (hn : n < 2 ^ 32)
    (h : x = x + BitVec.ofNat 32 n) : n = 0 := by
  have := congrArg BitVec.toNat h
  simp only [BitVec.toNat_add, BitVec.toNat_ofNat] at this
  omega

section Refinement

variable {κ : Type} {s : LockState κ} {q : FifoLock.Line κ} {c : κ}

theorem Abs.init : Abs (LockState.init : LockState κ) ⟨none, []⟩ :=
  ⟨by simp, rfl, by simp, by simp, fun _ _ => rfl⟩

theorem Abs.pc_ne_out (h : Abs s q) (hc : c ∈ q.queue) : s.pc c ≠ .out := by
  rcases List.mem_append.mp hc with hc | hc
  · rw [h.holder c (by simpa using hc)]; exact Pc.noConfusion
  · obtain ⟨i, hi, rfl⟩ := List.getElem_of_mem hc
    rw [h.waiting i hi]; exact Pc.noConfusion

theorem Abs.mem_queue (h : Abs s q) : c ∈ q.queue ↔ s.pc c ≠ .out :=
  ⟨h.pc_ne_out, fun hc => by by_contra hn; exact hc (h.out c hn)⟩

theorem Abs.guarded (h : Abs s q) {t : BitVec 32} (hc : s.pc c = .guarded t) :
    q.holder = some c := by
  have hq : c ∈ q.queue := h.mem_queue.mpr (by simp [hc])
  rcases List.mem_append.mp hq with hq | hq
  · simpa using hq
  · obtain ⟨i, hi, rfl⟩ := List.getElem_of_mem hq
    rw [h.waiting i hi] at hc; cases hc

theorem Abs.spin (h : Abs s q) {t : BitVec 32} (hc : s.pc c = .spin t) :
    ∃ i, ∃ hi : i < q.waiting.length, q.waiting[i] = c ∧
      t = s.release + BitVec.ofNat 32 (q.holder.toList.length + i) := by
  have hq : c ∈ q.queue := h.mem_queue.mpr (by simp [hc])
  rcases List.mem_append.mp hq with hq | hq
  · rw [h.holder c (by simpa using hq)] at hc; cases hc
  · obtain ⟨i, hi, rfl⟩ := List.getElem_of_mem hq
    rw [h.waiting i hi] at hc; cases hc
    exact ⟨i, hi, rfl, rfl⟩

/-- A load that shows the ticket of `c`: `c` is first in line. -/
theorem Abs.first (h : Abs s q) (hlen : q.queue.length ≤ 2 ^ 32) (hc : s.pc c = .spin s.release) :
    ∃ w, q = ⟨none, c :: w⟩ := by
  obtain ⟨i, hi, hic, ht⟩ := h.spin hc
  obtain ⟨holder, w⟩ := q
  simp only [FifoLock.Line.queue, List.length_append] at hlen hi
  have h1 : holder.toList.length + i = 0 := eq_zero_of_add_ofNat (by omega) ht
  cases holder with
  | some d => simp at h1
  | none =>
    obtain rfl : i = 0 := by omega
    cases w with
    | nil => simp at hi
    | cons d w => exact ⟨w, by simpa using hic⟩

variable [DecidableEq κ]

theorem Abs.fetchAdd (h : Abs s q) (hc : s.pc c = .out) :
    ∃ q', FifoLock.Step q (.enter c) q' ∧ Abs (s.step c).2 q' := by
  have hn : c ∉ q.queue := fun hm => h.pc_ne_out hm hc
  obtain ⟨holder, w⟩ := q
  have hq : (⟨holder, w ++ [c]⟩ : FifoLock.Line κ).queue = (⟨holder, w⟩ : FifoLock.Line κ).queue ++ [c] := by
    simp [FifoLock.Line.queue]
  rw [LockState.step_out hc]
  refine ⟨_, .enter hn, ?_, ?_, ?_, ?_, ?_⟩
  · rw [hq]; exact List.nodup_append.mpr ⟨h.nodup, by simp, by
      intro a ha b hb hab; simp only [List.mem_singleton] at hb; subst hab hb; exact hn ha⟩
  · rw [hq, List.length_append, List.length_singleton, BitVec.ofNat_add, ← BitVec.add_assoc, ← h.acquire]
    rfl
  · intro d hd
    have hdc : d ≠ c := by
      rintro rfl; exact hn (List.mem_append_left _ (Option.mem_toList.mpr hd))
    simpa [Function.update_of_ne hdc] using h.holder d hd
  · intro i hi
    simp only [List.length_append, List.length_singleton] at hi
    by_cases hiw : i < w.length
    · have hne : w[i] ≠ c := by
        rintro rfl; exact hn (List.mem_append_right _ (List.getElem_mem hiw))
      simpa [List.getElem_append_left hiw, Function.update_of_ne hne] using h.waiting i hiw
    · obtain rfl : i = w.length := by omega
      simp only [List.getElem_append_right (Nat.le_refl _), Nat.sub_self, List.getElem_singleton,
        Function.update_self]
      rw [h.acquire, FifoLock.Line.queue, List.length_append]
  · intro d hd
    rw [hq, List.mem_append, List.mem_singleton, not_or] at hd
    simpa [Function.update_of_ne hd.2] using h.out d hd.1

theorem Abs.grant {w : List κ} (h : Abs s ⟨none, c :: w⟩) :
    Abs (s.step c).2 ⟨some c, w⟩ := by
  have hc : s.pc c = .spin s.release := by
    have : s.pc c = .spin (s.release + BitVec.ofNat 32 0) := h.waiting 0 (Nat.zero_lt_succ _)
    simpa using this
  have hnd : c ∉ w ∧ w.Nodup := by simpa using h.nodup
  rw [LockState.step_grant hc]
  refine ⟨h.nodup, h.acquire, ?_, ?_, ?_⟩
  · rintro d hd
    obtain rfl : c = d := by simpa using hd
    simp
  · intro i hi
    have hne : w[i] ≠ c := fun e => hnd.1 (e ▸ List.getElem_mem hi)
    have := h.waiting (i + 1) (by simpa using hi)
    simpa [Function.update_of_ne hne, Nat.add_comm] using this
  · intro d hd
    have hdc : d ≠ c := by rintro rfl; simp at hd
    simpa [Function.update_of_ne hdc] using h.out d hd

theorem Abs.destroy {w : List κ} (h : Abs s ⟨some c, w⟩) :
    Abs (s.step c).2 ⟨none, w⟩ := by
  have hc : s.pc c = .guarded s.release := h.holder c rfl
  have hnd : c ∉ w ∧ w.Nodup := by simpa using h.nodup
  rw [LockState.step_guarded hc]
  refine ⟨hnd.2, ?_, by simp, ?_, ?_⟩
  · rw [h.acquire]
    simp only [FifoLock.Line.queue_some, FifoLock.Line.queue_none, List.length_cons, Nat.add_comm w.length 1]
    rw [BitVec.ofNat_add, ← BitVec.add_assoc]
    rfl
  · intro i hi
    have hne : w[i] ≠ c := fun e => hnd.1 (e ▸ List.getElem_mem hi)
    have := h.waiting i hi
    simp only [Option.toList_some, List.length_singleton] at this
    simp only [Function.update_of_ne hne, this, Option.toList_none, List.length_nil, Nat.zero_add]
    rw [BitVec.ofNat_add, ← BitVec.add_assoc]
    rfl
  · intro d hd
    by_cases hdc : d = c
    · subst hdc; simp
    · simpa [Function.update_of_ne hdc] using h.out d (by simpa [hdc] using hd)

/-- One atomic step of any context is a step of the abstract lock or a failed load. -/
theorem Abs.step (h : Abs s q) (hlen : q.queue.length ≤ 2 ^ 32) (c : κ) :
    (FifoLock.lts κ).Follows (Abs (s.step c).2) q (s.step c).1.abs := by
  cases hc : s.pc c with
  | out =>
    have := h.fetchAdd hc
    rw [LockState.step_out hc] at this ⊢
    exact this
  | spin t =>
    by_cases ht : s.release = t
    · subst ht
      obtain ⟨w, rfl⟩ := h.first hlen hc
      have := h.grant
      rw [LockState.step_grant hc] at this ⊢
      exact ⟨_, .grant, this⟩
    · rw [LockState.step_retry hc ht]; exact h
  | guarded t =>
    have hh := h.guarded hc
    obtain ⟨holder, w⟩ := q
    obtain rfl : holder = some c := hh
    have := h.destroy
    rw [LockState.step_guarded hc] at this ⊢
    exact ⟨_, .leave, this⟩

end Refinement

/-! ## Runs of the lock -/

def taken {κ : Type} (tr : List (Event κ)) : List κ :=
  tr.filterMap fun | .fetchAdd c => some c | _ => none

def granted {κ : Type} (tr : List (Event κ)) : List κ :=
  tr.filterMap fun | .grant c => some c | _ => none

theorem taken_eq_entered {κ : Type} (tr : List (Event κ)) :
    taken tr = FifoLock.entered (tr.filterMap Event.abs) := by
  rw [FifoLock.entered, List.filterMap_filterMap, taken]
  congr 1; funext e; cases e <;> rfl

theorem granted_eq_granted {κ : Type} (tr : List (Event κ)) :
    granted tr = FifoLock.granted (tr.filterMap Event.abs) := by
  rw [FifoLock.granted, List.filterMap_filterMap, granted]
  congr 1; funext e; cases e <;> rfl

section Runs

variable {κ : Type} [Fintype κ] [DecidableEq κ]

def LockState.outstanding (s : LockState κ) : Finset κ := Finset.univ.filter fun c => s.pc c ≠ .out

theorem Abs.card_outstanding {s : LockState κ} {q : FifoLock.Line κ} (h : Abs s q) :
    s.outstanding.card = q.queue.length := by
  have : s.outstanding = q.queue.toFinset := by
    ext c; simp [LockState.outstanding, h.mem_queue]
  rw [this, List.toFinset_card_of_nodup h.nodup]

/-- With at most `2 ^ 32` contexts the ticket lock refines the abstract lock. -/
theorem lock_refines_fifo (hN : Fintype.card κ ≤ 2 ^ 32) :
    Lts.Sim (lockLts κ) (FifoLock.lts κ) Event.abs Abs where
  init s hs := ⟨_, rfl, hs ▸ Abs.init⟩
  step s e s' q h hst := by
    obtain ⟨c, hc⟩ := hst
    have := h.step (h.nodup.length_le_card.trans hN) c
    rw [hc] at this
    exact this

/-- Mutual exclusion and first-come-first-served order, for any number of contexts below `2 ^ 32`,
every interleaving and runs of any length, so also after any number of wraps of the counters. -/
theorem lock_exclusive_fifo (hN : Fintype.card κ < 2 ^ 32) {tr : List (Event κ)} {s : LockState κ}
    (h : (lockLts κ).Run tr s) :
    (∀ c c' t t', s.pc c = .guarded t → s.pc c' = .guarded t' → c = c') ∧
      (s.acquire - s.release).toNat = s.outstanding.card ∧
      granted tr <+: taken tr := by
  obtain ⟨q, hq, ha⟩ := (lock_refines_fifo hN.le).run h
  refine ⟨?_, ?_, ?_⟩
  · intro c c' t t' hc hc'
    have := (ha.guarded hc).symm.trans (ha.guarded hc')
    exact Option.some.inj this
  · have hlen : q.queue.length < 2 ^ 32 := lt_of_le_of_lt ha.nodup.length_le_card hN
    rw [ha.card_outstanding, ha.acquire, add_sub_cancel_left, BitVec.toNat_ofNat,
      Nat.mod_eq_of_lt hlen]
  · rw [taken_eq_entered, granted_eq_granted]
    exact FifoLock.Run.granted_prefix hq

theorem lock_exclusive_fifo_two : ∃ (tr : List (Event (Fin 2))) (s : LockState (Fin 2)),
    (lockLts (Fin 2)).Run tr s ∧ taken tr = [0, 1] ∧ granted tr = [0] ∧
      (∀ c c' t t', s.pc c = .guarded t → s.pc c' = .guarded t' → c = c') ∧
      (s.acquire - s.release).toNat = s.outstanding.card ∧ granted tr <+: taken tr := by
  have h : (lockLts (Fin 2)).Run _ _ :=
    .step (.step (.step (.init rfl) ⟨0, rfl⟩) ⟨1, rfl⟩) ⟨0, rfl⟩
  exact ⟨_, _, h, rfl, rfl, lock_exclusive_fifo (by simp) h⟩

end Runs

end Atomic
end DeliceOS
