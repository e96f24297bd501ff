import DeliceOS.Atomic.Lock
import Mathlib.Data.Fin.Basic

/-!
# Printf.Reentry

`printf_` under interrupts. `printf_` holds the lock `spin` for the whole call, and
`interrupt_handler` itself calls `printf_`. A core is a stack of contexts: the running one and,
below it, the contexts it interrupted, which do not move until the ones above have returned. The
context at height `i` of core `c` is `(c, i)`.

An interrupt (an exception or an NMI, so `cli` does not hold it back) may arrive in any state.
The handler calls `printf_` once, or twice for the vectors 2, 13 and 14, and returns unless the
vector is 13 or 14, for which it loops for ever.

* `Deadlocked`: the next ticket to be served belongs to a context that is suspended beneath one
  that spins in `lock`, on the same core.
* `deadlock_on_nmi`: one core and one NMI inside `printf_` are enough to reach such a state.
* `no_deadlock_outside_lock`: when no interrupt lands between a context's `fetch_add` on `acquire`
  and its `fetch_add` on `release`, no reachable state is deadlocked.
* `deadlock_after_interrupt_in_lock`: the condition cannot be weakened. The first interrupt that
  lands there leads to a deadlocked state, whatever the other cores were doing.
-/

namespace DeliceOS
namespace Printf

open Base Atomic

/-- What a context runs: kernel code, or `interrupt_handler` after `printed` calls of `printf_`. -/
inductive Task where
  | kernel
  | handler (vector : Fin 32) (printed : Nat)
  deriving DecidableEq

/-- The number of `printf_` calls `interrupt_handler` makes for a vector. -/
def handlerPrints (vector : Fin 32) : Nat :=
  match vector.val with
  | 0xe => 2  -- PAGE_FAULT
  | 0xd => 2  -- GP_FAULT
  | 0x2 => 2  -- PMI_VEC
  | _ => 1

theorem handlerPrints_pos (vector : Fin 32) : 0 < handlerPrints vector := by
  unfold handlerPrints; split <;> omega

/-- `interrupt_handler` ends in `while(1)` for page faults and general protection faults. -/
def handlerReturns (vector : Fin 32) : Bool := vector.val != 0xe && vector.val != 0xd

namespace Task

def mayPrint : Task → Bool
  | .kernel => true
  | .handler v n => n < handlerPrints v

def mayReturn : Task → Bool
  | .kernel => false
  | .handler v n => n == handlerPrints v && handlerReturns v

/-- A `printf_` call ends when its guard is destroyed. -/
def after {κ : Type} (t : Task) (e : Atomic.Event κ) : Task :=
  match t, e with
  | .handler v n, .destroy _ => .handler v (n + 1)
  | t, _ => t

end Task

/-- The lock `spin` and, for each core, its contexts, the running one first. -/
structure System (Core : Type) where
  spin : LockState (Core × Nat)
  stack : Core → List Task

inductive Event (Core : Type) where
  | lock (e : Atomic.Event (Core × Nat))
  | interrupt (c : Core) (vector : Fin 32)
  | iretq (c : Core)

section

variable {Core : Type}

/-- The ticket a context took and has not given back. -/
def ticketOf : Pc → Option (BitVec 32)
  | .out => none
  | .spin t => some t
  | .guarded t => some t

def Deadlocked (s : System Core) : Prop :=
  ∃ c i j t, i < j ∧ j < (s.stack c).length ∧ s.spin.pc (c, j) = .spin t ∧
    ticketOf (s.spin.pc (c, i)) = some s.spin.release

/-- The interrupted context is not between its two `fetch_add`s. -/
def OutsideLock (s : System Core) : Event Core → Prop
  | .interrupt c _ => s.spin.pc (c, (s.stack c).length - 1) = .out
  | _ => True

/-- Only running contexts are in the lock. -/
def TopOnly (s : System Core) : Prop :=
  ∀ c i, s.spin.pc (c, i) ≠ .out → i + 1 = (s.stack c).length

theorem TopOnly.not_deadlocked {s : System Core} (h : TopOnly s) : ¬ Deadlocked s := by
  rintro ⟨c, i, j, t, hij, hj, -, hi⟩
  have : s.spin.pc (c, i) ≠ .out := by
    intro ho; rw [ho] at hi; cases hi
  have := h c i this
  omega

variable [DecidableEq Core]

inductive Step (s : System Core) : Event Core → System Core → Prop where
  | lock {c : Core} {t : Task} {rest : List Task} :
      s.stack c = t :: rest → (s.spin.pc (c, rest.length) = .out → t.mayPrint = true) →
      Step s (.lock (s.spin.step (c, rest.length)).1)
        { spin := (s.spin.step (c, rest.length)).2
          stack := Function.update s.stack c
            (t.after (s.spin.step (c, rest.length)).1 :: rest) }
  | interrupt {c : Core} {t : Task} {rest : List Task} (v : Fin 32) : s.stack c = t :: rest →
      Step s (.interrupt c v)
        { s with stack := Function.update s.stack c (.handler v 0 :: t :: rest) }
  | iretq {c : Core} {t : Task} {rest : List Task} : s.stack c = t :: rest →
      s.spin.pc (c, rest.length) = .out → t.mayReturn = true →
      Step s (.iretq c) { s with stack := Function.update s.stack c rest }

def systemLts (Core : Type) [DecidableEq Core] : Lts (System Core) (Event Core) where
  init s := s = ⟨.init, fun _ => [.kernel]⟩
  step := Step

theorem TopOnly.step {s s' : System Core} {e : Event Core} (h : TopOnly s) (hg : OutsideLock s e)
    (hs : Step s e s') : TopOnly s' := by
  intro d i hd
  cases hs with
  | @lock c t rest hc _ =>
    by_cases hx : (d, i) = (c, rest.length)
    · obtain ⟨rfl, rfl⟩ := Prod.mk.inj hx
      simp
    · rw [LockState.step_pc_of_ne _ hx] at hd
      have hi := h d i hd
      by_cases hdc : d = c
      · subst hdc; simpa [hc] using hi
      · simpa [Function.update_of_ne hdc] using hi
  | @interrupt c t rest v hc =>
    have hi := h d i hd
    by_cases hdc : d = c
    · subst hdc
      obtain rfl : i = (s.stack d).length - 1 := by omega
      exact absurd hg hd
    · simpa [Function.update_of_ne hdc] using hi
  | @iretq c t rest hc hpc _ =>
    have hi := h d i hd
    by_cases hdc : d = c
    · subst hdc
      obtain rfl : i = rest.length := by simpa [hc] using hi
      exact absurd hpc hd
    · simpa [Function.update_of_ne hdc] using hi

/-- When no interrupt lands inside the lock's code, `printf_` never deadlocks with itself. -/
theorem no_deadlock_outside_lock {tr : List (Event Core)} {s : System Core}
    (h : ((systemLts Core).guard OutsideLock).Run tr s) : ¬ Deadlocked s := by
  refine TopOnly.not_deadlocked (Lts.Run.state_invariant ?_ ?_ h)
  · rintro _ rfl c i hi; exact absurd rfl hi
  · rintro s e s' hi ⟨hg, hs⟩; exact hi.step hg hs

theorem no_deadlock_outside_lock_one : ∃ (tr : List (Event (Fin 1))) (s : System (Fin 1)),
    ((systemLts (Fin 1)).guard OutsideLock).Run tr s ∧ s.spin.pc (0, 1) = .spin 1 ∧
      ¬ Deadlocked s := by
  have h0 : ((systemLts (Fin 1)).guard OutsideLock).Run _ _ := .init rfl
  have h1 := h0.step_guard (.lock (c := 0) rfl fun _ => rfl) trivial
  have h2 := h1.step_guard (.lock (c := 0) rfl fun h => Pc.noConfusion h) trivial
  have h3 := h2.step_guard (.lock (c := 0) rfl fun h => Pc.noConfusion h) trivial
  have h4 := h3.step_guard (.interrupt (c := 0) 2 rfl) rfl
  have h := h4.step_guard (.lock (c := 0) rfl fun _ => rfl) trivial
  exact ⟨_, _, h, rfl, no_deadlock_outside_lock h⟩

/-- One core, one NMI: it arrives while `printf_` holds the lock, and its handler calls
`printf_`. -/
theorem deadlock_on_nmi :
    ¬ ∀ (tr : List (Event (Fin 1))) (s : System (Fin 1)),
      (systemLts (Fin 1)).Run tr s → ¬ Deadlocked s := by
  intro hall
  have h : (systemLts (Fin 1)).Run _ _ :=
    .step (.step (.step (.step (.init rfl)
      (.lock (c := 0) rfl fun _ => rfl))
      (.lock (c := 0) rfl fun h => Pc.noConfusion h))
      (.interrupt (c := 0) 2 rfl))
      (.lock (c := 0) rfl fun _ => rfl)
  exact hall _ _ h ⟨0, 0, 1, 1, by decide, by decide, rfl, rfl⟩

/-! ## An interrupt inside the lock's code -/

theorem Abs.head_ticket {κ : Type} {s : LockState κ} {q : FifoLock.Line κ} {x : κ} {w : List κ}
    (h : Abs s q) (hq : q.queue = x :: w) : ticketOf (s.pc x) = some s.release := by
  obtain ⟨holder, waiting⟩ := q
  cases holder with
  | some y =>
    obtain ⟨rfl, -⟩ := List.cons.inj hq
    rw [h.holder y rfl]; rfl
  | none =>
    obtain rfl : waiting = x :: w := hq
    have : s.pc x = .spin (s.release + BitVec.ofNat 32 0) := h.waiting 0 (Nat.zero_lt_succ _)
    rw [this]; simp [ticketOf]

/-- A running context takes its next atomic step in the lock. -/
theorem lockStep {s : System Core} {z : Core × Nat} (hz : z.2 + 1 = (s.stack z.1).length)
    (hp : s.spin.pc z = .out → ∃ v, (s.stack z.1).head? = some (.handler v 0)) :
    ∃ s', (systemLts Core).Reaches s s' ∧ s'.spin = (s.spin.step z).2 ∧
      ∀ c, (s'.stack c).length = (s.stack c).length := by
  obtain ⟨c, i⟩ := z
  cases hs : s.stack c with
  | nil => simp [hs] at hz
  | cons t rest =>
    obtain rfl : i = rest.length := by simpa [hs] using hz
    refine ⟨_, .single ⟨_, .lock hs fun ho => ?_⟩, rfl, fun d => ?_⟩
    · obtain ⟨v, hv⟩ := hp ho
      obtain rfl : t = .handler v 0 := by simpa [hs] using hv
      exact decide_eq_true (handlerPrints_pos v)
    · by_cases hd : d = c
      · subst hd; simp [hs]
      · simp [Function.update_of_ne hd]

/-- A running context at the head of the line gets through the lock. -/
theorem serve {s : System Core} {q : FifoLock.Line (Core × Nat)} {z : Core × Nat}
    {w : List (Core × Nat)} (h : Abs s.spin q) (hq : q.queue = z :: w)
    (hz : z.2 + 1 = (s.stack z.1).length) :
    ∃ s', (systemLts Core).Reaches s s' ∧ Abs s'.spin ⟨none, w⟩ ∧
      (∀ d, d ≠ z → s'.spin.pc d = s.spin.pc d) ∧
      ∀ c, (s'.stack c).length = (s.stack c).length := by
  have hne : s.spin.pc z ≠ .out := h.pc_ne_out (by simp [hq])
  obtain ⟨holder, waiting⟩ := q
  cases holder with
  | some y =>
    obtain ⟨rfl, rfl⟩ := List.cons.inj hq
    obtain ⟨s1, r1, e1, l1⟩ := lockStep hz fun ho => absurd ho hne
    refine ⟨s1, r1, e1 ▸ h.destroy, fun d hd => ?_, l1⟩
    rw [e1, LockState.step_pc_of_ne _ hd]
  | none =>
    obtain rfl : waiting = z :: w := hq
    obtain ⟨s1, r1, e1, l1⟩ := lockStep hz fun ho => absurd ho hne
    have h1 : Abs s1.spin ⟨some z, w⟩ := e1 ▸ h.grant
    have hne1 : s1.spin.pc z ≠ .out := h1.pc_ne_out (by simp)
    obtain ⟨s2, r2, e2, l2⟩ := lockStep (s := s1) (by rw [l1, hz]) fun ho => absurd ho hne1
    refine ⟨s2, r1.trans r2, e2 ▸ h1.destroy, fun d hd => ?_, fun c => (l2 c).trans (l1 c)⟩
    rw [e2, LockState.step_pc_of_ne _ hd, e1, LockState.step_pc_of_ne _ hd]

/-- When all contexts ahead of `x` are running, they can all get through the lock. -/
theorem drain (x : Core × Nat) (post : List (Core × Nat)) :
    ∀ (pre : List (Core × Nat)) {s : System Core} {q : FifoLock.Line (Core × Nat)},
      Abs s.spin q → q.queue = pre ++ x :: post → (∀ z ∈ pre, z.2 + 1 = (s.stack z.1).length) →
      ∃ s' q', (systemLts Core).Reaches s s' ∧ Abs s'.spin q' ∧ q'.queue = x :: post ∧
        (∀ d, d ∉ pre → s'.spin.pc d = s.spin.pc d) ∧
        ∀ c, (s'.stack c).length = (s.stack c).length := by
  intro pre
  induction pre with
  | nil => intro s q h hq _; exact ⟨s, q, .refl, h, hq, fun _ _ => rfl, fun _ => rfl⟩
  | cons z pre ih =>
    intro s q h hq hrun
    obtain ⟨s1, r1, h1, p1, l1⟩ := serve h hq (hrun z (by simp))
    obtain ⟨s2, q2, r2, h2, hq2, p2, l2⟩ := ih h1 rfl fun y hy => by
      rw [l1]; exact hrun y (List.mem_cons_of_mem _ hy)
    refine ⟨s2, q2, r1.trans r2, h2, hq2, fun d hd => ?_, fun c => (l2 c).trans (l1 c)⟩
    rw [List.mem_cons, not_or] at hd
    rw [p2 d hd.2, p1 d hd.1]

variable [Fintype Core]

omit [DecidableEq Core] in
/-- With at most one context of each core in the lock, the line is not longer than the number of
cores. -/
theorem TopOnly.queue_length {s : System Core} {q : FifoLock.Line (Core × Nat)} (h : TopOnly s)
    (ha : Abs s.spin q) : q.queue.length ≤ Fintype.card Core := by
  have hnd : (q.queue.map Prod.fst).Nodup := by
    refine List.Nodup.map_on ?_ ha.nodup
    rintro ⟨c, i⟩ hi ⟨d, j⟩ hj (rfl : c = d)
    have h1 := h c i (ha.pc_ne_out hi)
    have h2 := h c j (ha.pc_ne_out hj)
    obtain rfl : i = j := by omega
    rfl
  simpa using hnd.length_le_card

theorem guarded_run_abs (hN : Fintype.card Core ≤ 2 ^ 32) {tr : List (Event Core)}
    {s : System Core} (h : ((systemLts Core).guard OutsideLock).Run tr s) :
    TopOnly s ∧ ∃ q, Abs s.spin q := by
  refine Lts.Run.state_invariant (I := fun s => TopOnly s ∧ ∃ q, Abs s.spin q) ?_ ?_ h
  · rintro _ rfl
    exact ⟨fun c i hi => absurd rfl hi, _, Abs.init⟩
  · rintro s e s' ⟨ht, q, ha⟩ ⟨hg, hs⟩
    refine ⟨ht.step hg hs, ?_⟩
    cases hs with
    | @lock c t rest hc hp =>
      have := ha.step ((ht.queue_length ha).trans hN) (c, rest.length)
      cases hab : (s.spin.step (c, rest.length)).1.abs with
      | none => rw [hab] at this; exact ⟨q, this⟩
      | some b => rw [hab] at this; obtain ⟨q', -, ha'⟩ := this; exact ⟨q', ha'⟩
    | interrupt => exact ⟨q, ha⟩
    | iretq => exact ⟨q, ha⟩

/-- An interrupt that does land inside the lock's code, the first one in the run, leads to a
deadlock: its handler queues up behind the context it suspends. -/
theorem deadlock_after_interrupt_in_lock (hN : Fintype.card Core ≤ 2 ^ 32) {tr : List (Event Core)}
    {s s' : System Core} (h : ((systemLts Core).guard OutsideLock).Run tr s) {c : Core} {v : Fin 32}
    (hs : Step s (.interrupt c v) s') (hin : ¬ OutsideLock s (.interrupt c v)) :
    ∃ s'', (systemLts Core).Reaches s' s'' ∧ Deadlocked s'' := by
  obtain ⟨ht, q, ha⟩ := guarded_run_abs hN h
  cases hs with
  | @interrupt _ t rest _ hc =>
    have hx : s.spin.pc (c, rest.length) ≠ .out := by simpa [OutsideLock, hc] using hin
    have hy : s.spin.pc (c, rest.length + 1) = .out := by
      by_contra hn
      have := ht c _ hn
      simp [hc] at this
    let s1 : System Core := ⟨s.spin, Function.update s.stack c (.handler v 0 :: t :: rest)⟩
    -- the handler takes its ticket
    obtain ⟨s2, r2, e2, l2⟩ := lockStep (s := s1) (z := (c, rest.length + 1)) (by simp [s1])
      fun _ => ⟨v, by simp [s1]⟩
    obtain ⟨q2, hq2, ha2⟩ := ha.fetchAdd hy
    obtain ⟨holder, w⟩ := q
    cases hq2 with
    | enter hn =>
      have hq : (⟨holder, w ++ [(c, rest.length + 1)]⟩ : FifoLock.Line (Core × Nat)).queue =
          (⟨holder, w⟩ : FifoLock.Line (Core × Nat)).queue ++ [(c, rest.length + 1)] := by
        simp [FifoLock.Line.queue]
      obtain ⟨pre, post, hsplit⟩ := List.append_of_mem (ha.mem_queue.mpr hx)
      have hnd := ha.nodup
      rw [hsplit] at hnd
      -- the contexts ahead of the suspended one run on other cores
      have hpre : ∀ z ∈ pre, z.1 ≠ c ∧ z.2 + 1 = (s2.stack z.1).length := by
        rintro ⟨d, i⟩ hz
        have hi := ht d i (ha.pc_ne_out (by rw [hsplit]; simp [hz]))
        have hd : d ≠ c := by
          rintro rfl
          obtain rfl : i = rest.length := by simpa [hc] using hi
          exact (List.nodup_append.mp hnd).2.2 _ hz _ (List.mem_cons_self) rfl
        refine ⟨hd, ?_⟩
        rw [l2]; simpa [s1, Function.update_of_ne hd] using hi
      obtain ⟨s3, q3, r3, ha3, hq3, p3, l3⟩ := drain (c, rest.length)
        (post ++ [(c, rest.length + 1)]) pre (s := s2) (e2 ▸ ha2) (by rw [hq, hsplit]; simp)
        fun z hz => (hpre z hz).2
      refine ⟨s3, r2.trans r3, c, rest.length, rest.length + 1, s.spin.acquire, by omega, ?_, ?_,
        Abs.head_ticket ha3 hq3⟩
      · rw [l3, l2]; simp [s1]
      · rw [p3 _ fun hm => (hpre _ hm).1 rfl, e2]
        simp [s1, LockState.step_out hy]

end

end Printf
end DeliceOS
