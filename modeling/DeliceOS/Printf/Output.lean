import DeliceOS.Atomic.Lock
import DeliceOS.Serial.Uart

/-!
# Printf.Output

The bytes `printf_` sends. A call takes the lock `spin`, and under its guard `_vsnprintf` hands
the characters of the message to `_out_char` one by one; NUL characters are skipped, any other one
goes to `ComDevices::write`, which runs over the four slots. For a newline it first sends a
carriage return, without waiting; it skips an absent device, waits until the transmit FIFO is
empty, and sends the character. Cores interleave at every access to the lock or to a port, and the
ports send the bytes of their FIFOs at any time.

* `Job.emitted`: how much of its message a call has sent to a port.
* `Inv.step`: the bytes of each port are those of the finished calls and of the call that holds
  the lock, and no FIFO holds more than two bytes.
* `output_in_order`: what has left a port, in every reachable state.
-/

namespace DeliceOS
namespace Output

open Base Atomic Serial

abbrev Msg := List (BitVec 8)

def CR : BitVec 8 := 0x0d
def LF : BitVec 8 := 0x0a

inductive Pos where
  | next             -- in `_vsnprintf`, before the next character
  | slot (i : Nat)   -- at the top of the loop over `device`
  | poll (i : Fin 4) -- before `io::inb(dev + 5)`
  | put (i : Fin 4)  -- before `io::outb(dev, byte)`
  deriving DecidableEq

/-- A call of `printf_`: its characters, the index of the next one, and where it is. -/
structure Job where
  msg : Msg
  idx : Nat
  pos : Pos

namespace Job

def byte (j : Job) : BitVec 8 := j.msg.getD j.idx 0

/-- The next step of the call under the guard, none when `_vsnprintf` returns. -/
def step (d : ComDevices) (control : Nat → BitVec 8 → Uart → Uart) (j : Job) (us : Fin 4 → Uart) :
    Option (Job × (Fin 4 → Uart)) :=
  match j.pos with
  | .next =>
    if j.idx < j.msg.length then
      if j.byte = 0 then some ({ j with idx := j.idx + 1 }, us) else some ({ j with pos := .slot 0 }, us)
    else none
  | .slot i =>
    if h : i < 4 then
      let us' := if j.byte = LF then d.outb control (d.device ⟨i, h⟩) CR us else us
      if d.device ⟨i, h⟩ = 0 then some ({ j with pos := .slot (i + 1) }, us')
      else some ({ j with pos := .poll ⟨i, h⟩ }, us')
    else some ({ j with idx := j.idx + 1, pos := .next }, us)
  | .poll i =>
    if d.ready (d.device i + 5) us then some ({ j with pos := .put i }, us) else some (j, us)
  | .put i =>
    some ({ j with pos := .slot (i + 1) }, d.outb control (d.device i) j.byte us)

end Job

structure System (Core : Type) where
  spin : LockState Core
  job : Core → Job
  port : Fin 4 → Uart

inductive Event (Core : Type) where
  | call (c : Core) (msg : Msg) -- `acquire.fetch_add` of a new call
  | load (c : Core)             -- a load of `release`
  | work (c : Core)             -- a step under the guard
  | ret (c : Core)              -- `~Guard`
  | drain (i : Fin 4)

section

variable {Core : Type} [DecidableEq Core]
variable (d : ComDevices) (control : Nat → BitVec 8 → Uart → Uart)

inductive Step (s : System Core) : Event Core → System Core → Prop where
  | call {c : Core} (msg : Msg) : s.spin.pc c = .out →
      Step s (.call c msg)
        { s with spin := (s.spin.step c).2, job := Function.update s.job c ⟨msg, 0, .next⟩ }
  | load {c : Core} {t : BitVec 32} : s.spin.pc c = .spin t →
      Step s (.load c) { s with spin := (s.spin.step c).2 }
  | work {c : Core} {t : BitVec 32} {j : Job} {us : Fin 4 → Uart} : s.spin.pc c = .guarded t →
      (s.job c).step d control s.port = some (j, us) →
      Step s (.work c) { s with job := Function.update s.job c j, port := us }
  | ret {c : Core} {t : BitVec 32} : s.spin.pc c = .guarded t →
      (s.job c).step d control s.port = none →
      Step s (.ret c) { s with spin := (s.spin.step c).2 }
  | drain {i : Fin 4} {b : BitVec 8} {rest : List (BitVec 8)} : (s.port i).fifo = b :: rest →
      Step s (.drain i) { s with port := Function.update s.port i ⟨rest, (s.port i).sent ++ [b]⟩ }

def outputLts : Lts (System Core) (Event Core) where
  init s := s.spin = .init ∧ ∀ i, s.port i = ⟨[], []⟩
  step := Step d control

end

/-! ## What a message becomes on the wire -/

def cr (b : BitVec 8) : Msg := if b = LF then [CR] else []

def crlf (b : BitVec 8) : Msg := cr b ++ [b]

/-- The whole output of a call: no NULs, and a carriage return before each newline. -/
def expand (msg : Msg) : Msg := msg.flatMap fun b => if b = 0 then [] else crlf b

/-- The messages of the calls of a run, in the order they took their tickets. -/
def messages {Core : Type} (tr : List (Event Core)) : List Msg :=
  tr.filterMap fun | .call _ msg => some msg | _ => none

namespace Job

/-- What is sent of the current character to port `i`. -/
def sending (j : Job) (i : Fin 4) : Msg :=
  match j.pos with
  | .next => []
  | .slot k => if i < k then crlf j.byte else []
  | .poll k | .put k => if i < k then crlf j.byte else if i = k then cr j.byte else []

/-- What the call has sent to port `i`. -/
def emitted (j : Job) (i : Fin 4) : Msg := expand (j.msg.take j.idx) ++ j.sending i

/-- Between two characters, or at one that exists and is not NUL; only present ports are waited
for. -/
structure Ok (d : ComDevices) (j : Job) : Prop where
  byte : j.pos ≠ .next → j.idx < j.msg.length ∧ j.byte ≠ 0
  slot : ∀ k, j.pos = .slot k → k ≤ 4
  port : ∀ k, j.pos = .poll k ∨ j.pos = .put k → d.device k ≠ 0

/-- The bytes the FIFO of port `i` may hold. -/
def bound (j : Job) (i : Fin 4) : Nat :=
  match j.pos with
  | .poll k => if i = k then 2 else 1
  | .put k => if i = k then 0 else 1
  | _ => 1

theorem expand_take_succ {j : Job} (h : j.idx < j.msg.length) :
    expand (j.msg.take (j.idx + 1)) =
      expand (j.msg.take j.idx) ++ if j.byte = 0 then [] else crlf j.byte := by
  have hb : j.byte = j.msg[j.idx] := by rw [byte, List.getD_eq_getElem?_getD, List.getElem?_eq_getElem h]; rfl
  rw [List.take_succ_eq_append_getElem h, expand, List.flatMap_append, ← hb]
  simp [expand]

/-- What one step does for port `i`: `w` went into the port. -/
structure Sends (j j' : Job) (u u' : Uart) (i : Fin 4) (w : Msg) : Prop where
  fifo : u'.fifo.length ≤ j'.bound i
  stream : u'.stream = u.stream ++ w
  emitted : j'.emitted i = j.emitted i ++ w

variable {d : ComDevices} {control : Nat → BitVec 8 → Uart → Uart} {j j' : Job}
variable {us us' : Fin 4 → Uart}

/-- At the top of the loop: a carriage return for a newline, whatever the FIFO holds. -/
theorem sends_slot {k : Fin 4} (hp : j.pos = .slot k) (hk : d.device k ≠ 0) {i : Fin 4}
    (hb : (us i).fifo.length ≤ j.bound i) :
    Sends j { j with pos := .poll k } (us i)
      ((if j.byte = LF then d.outb control (d.device k) CR us else us) i) i
      (if i = k then cr j.byte else []) := by
  have hb1 : (us i).fifo.length ≤ 1 := by simpa [bound, hp] using hb
  have hlt : (us i).fifo.length < 16 := by omega
  by_cases hik : i = k
  · subst hik
    by_cases hlf : j.byte = LF
    · rw [if_pos hlf, ComDevices.outb_base control hk, if_pos rfl, if_pos rfl]
      refine ⟨?_, ?_, ?_⟩
      · rw [Uart.transmit_fifo hlt]; simp [bound]; omega
      · rw [Uart.transmit_stream hlt, cr, if_pos hlf]
      · simp [emitted, sending, hp, byte]
    · rw [if_neg hlf, if_pos rfl]
      refine ⟨?_, ?_, ?_⟩
      · simp [bound]; omega
      · rw [cr, if_neg hlf, List.append_nil]
      · simp [emitted, sending, hp, byte]
  · have hsame : (if j.byte = LF then d.outb control (d.device k) CR us else us) i = us i := by
      by_cases hlf : j.byte = LF
      · rw [if_pos hlf, ComDevices.outb_base control hk, if_neg hik]
      · rw [if_neg hlf]
    rw [hsame, if_neg hik]
    refine ⟨?_, by simp, ?_⟩
    · simp [bound, hik]; omega
    · simp [emitted, sending, hp, byte, hik]

/-- A step that touches no port. -/
theorem sends_nil {i : Fin 4} (hf : (us i).fifo.length ≤ j'.bound i)
    (he : j'.emitted i = j.emitted i) : Sends j j' (us i) (us i) i [] :=
  ⟨hf, by simp, by simp [he]⟩

/-- The character itself is sent when the FIFO was empty. -/
theorem sends_put {k : Fin 4} (hp : j.pos = .put k) (hk : d.device k ≠ 0) {i : Fin 4}
    (hb : (us i).fifo.length ≤ j.bound i) :
    Sends j { j with pos := .slot (k + 1) } (us i) (d.outb control (d.device k) j.byte us i) i
      (if i = k then [j.byte] else []) := by
  rw [ComDevices.outb_base control hk]
  by_cases hik : i = k
  · subst hik
    have hz : (us i).fifo.length = 0 := by simpa [bound, hp] using hb
    have hlt : (us i).fifo.length < 16 := by omega
    rw [if_pos rfl, if_pos rfl]
    refine ⟨?_, Uart.transmit_stream hlt _, ?_⟩
    · rw [Uart.transmit_fifo hlt, hz]; simp [bound]
    · simp [emitted, sending, hp, byte, crlf]
  · have hb1 : (us i).fifo.length ≤ 1 := by simpa [bound, hp, hik] using hb
    rw [if_neg hik, if_neg hik]
    refine sends_nil (by simpa [bound] using hb1) ?_
    have hlt : (i : Nat) < k + 1 ↔ (i : Nat) < k := by
      have : (i : Nat) ≠ k := fun h => hik (Fin.ext h)
      omega
    simp [emitted, sending, hp, byte, hlt, hik]

theorem ok_next (hp : j.pos = .next) : j.Ok d where
  byte hn := absurd hp hn
  slot k hk := by rw [hp] at hk; cases hk
  port k hk := by rw [hp] at hk; rcases hk with hk | hk <;> cases hk

/-- What one step does for every present port. -/
structure Advance (d : ComDevices) (j j' : Job) (us us' : Fin 4 → Uart) : Prop where
  ok : j'.Ok d
  msg : j'.msg = j.msg
  sends : ∀ i, d.device i ≠ 0 → ∃ w, Sends j j' (us i) (us' i) i w

theorem step_next (hp : j.pos = .next) (hb : ∀ i, d.device i ≠ 0 → (us i).fifo.length ≤ j.bound i)
    (h : j.step d control us = some (j', us')) : Advance d j j' us us' := by
  have hb1 : ∀ i, d.device i ≠ 0 → (us i).fifo.length ≤ 1 := by simpa [bound, hp] using hb
  simp only [step, hp] at h
  by_cases hlen : j.idx < j.msg.length
  · rw [if_pos hlen] at h
    by_cases hz : j.byte = 0
    · rw [if_pos hz] at h
      cases h
      refine ⟨ok_next rfl, rfl, fun i hi => ⟨_, sends_nil (hb1 i hi) ?_⟩⟩
      simp [emitted, sending, hp, expand_take_succ hlen, hz]
    · rw [if_neg hz] at h
      cases h
      refine ⟨⟨fun _ => ⟨hlen, hz⟩, ?_, by rintro k (h | h) <;> cases h⟩, rfl, fun i hi => ?_⟩
      · intro k hk; cases hk; omega
      · exact ⟨_, sends_nil (hb1 i hi) (by simp [emitted, sending, hp])⟩
  · rw [if_neg hlen] at h; cases h

theorem step_slot {k : Nat} (hp : j.pos = .slot k) (hok : j.Ok d)
    (hb : ∀ i, d.device i ≠ 0 → (us i).fifo.length ≤ j.bound i)
    (h : j.step d control us = some (j', us')) : Advance d j j' us us' := by
  have hb1 : ∀ i, d.device i ≠ 0 → (us i).fifo.length ≤ 1 := by simpa [bound, hp] using hb
  obtain ⟨hlen, hz⟩ := hok.byte (by rw [hp]; nofun)
  have hk4 := hok.slot k hp
  simp only [step, hp] at h
  by_cases hk : k < 4
  · rw [dif_pos hk] at h
    by_cases hd : d.device ⟨k, hk⟩ = 0
    · -- the carriage return for an absent device goes to address 0
      have habs : (if j.byte = LF then d.outb control (d.device ⟨k, hk⟩) CR us else us) = us := by
        rw [hd, ComDevices.outb_absent, ite_self]
      rw [if_pos hd, habs] at h
      cases h
      refine ⟨⟨fun _ => ⟨hlen, hz⟩, ?_, by rintro k (h | h) <;> cases h⟩, rfl, fun i hi => ?_⟩
      · intro k' hk'; cases hk'; omega
      · refine ⟨_, sends_nil (hb1 i hi) ?_⟩
        have hik : (i : Nat) ≠ k := by rintro rfl; exact hi hd
        have hlt : (i : Nat) < k + 1 ↔ (i : Nat) < k := by omega
        simp [emitted, sending, hp, byte, hlt]
    · rw [if_neg hd] at h
      cases h
      refine ⟨⟨fun _ => ⟨hlen, hz⟩, nofun, ?_⟩, rfl, fun i hi => ?_⟩
      · rintro k' (h | h) <;> cases h; exact hd
      · exact ⟨_, sends_slot hp hd (hb i hi)⟩
  · rw [dif_neg hk] at h
    cases h
    refine ⟨ok_next rfl, rfl, fun i hi => ⟨_, sends_nil (hb1 i hi) ?_⟩⟩
    have hik : (i : Nat) < k := by omega
    simp only [emitted, sending, hp, expand_take_succ hlen, if_neg hz, if_pos hik, List.append_nil]

theorem step_poll {k : Fin 4} (hp : j.pos = .poll k) (hok : j.Ok d)
    (hb : ∀ i, d.device i ≠ 0 → (us i).fifo.length ≤ j.bound i)
    (h : j.step d control us = some (j', us')) : Advance d j j' us us' := by
  have hd := hok.port k (.inl hp)
  simp only [step, hp] at h
  by_cases hr : d.ready (d.device k + 5) us = true
  · rw [if_pos hr] at h
    cases h
    have hempty := (ComDevices.ready_base hd us).mp hr
    refine ⟨⟨fun _ => hok.byte (by rw [hp]; nofun), nofun, ?_⟩, rfl, fun i hi => ?_⟩
    · rintro k' (h | h) <;> cases h; exact hd
    · refine ⟨_, sends_nil ?_ (by simp [emitted, sending, hp, byte])⟩
      have hbi := hb i hi
      by_cases hik : i = k
      · subst hik; simp [hempty]
      · simpa [bound, hp, hik] using hbi
  · rw [if_neg hr] at h
    cases h
    exact ⟨hok, rfl, fun i hi => ⟨_, sends_nil (hb i hi) rfl⟩⟩

theorem step_put {k : Fin 4} (hp : j.pos = .put k) (hok : j.Ok d)
    (hb : ∀ i, d.device i ≠ 0 → (us i).fifo.length ≤ j.bound i)
    (h : j.step d control us = some (j', us')) : Advance d j j' us us' := by
  simp only [step, hp] at h
  cases h
  refine ⟨⟨fun _ => hok.byte (by rw [hp]; nofun), ?_, by rintro k (h | h) <;> cases h⟩, rfl,
    fun i hi => ⟨_, sends_put hp (hok.port k (.inr hp)) (hb i hi)⟩⟩
  intro k' hk'; cases hk'; omega

/-- A step of a call under the guard loses no byte and sends the next ones of its message. -/
theorem Ok.step (hok : j.Ok d) (hb : ∀ i, d.device i ≠ 0 → (us i).fifo.length ≤ j.bound i)
    (h : j.step d control us = some (j', us')) : Advance d j j' us us' := by
  cases hp : j.pos with
  | next => exact step_next hp hb h
  | slot k => exact step_slot hp hok hb h
  | poll k => exact step_poll hp hok hb h
  | put k => exact step_put hp hok hb h

/-- `_vsnprintf` returns when all characters are sent. -/
theorem step_none (h : j.step d control us = none) (i : Fin 4) :
    j.emitted i = expand j.msg ∧ j.bound i = 1 := by
  cases hp : j.pos with
  | next =>
    simp only [Job.step, hp] at h
    by_cases hlen : j.idx < j.msg.length
    · rw [if_pos hlen] at h
      by_cases hz : j.byte = 0
      · rw [if_pos hz] at h; cases h
      · rw [if_neg hz] at h; cases h
    · rw [emitted, sending, hp, List.take_of_length_le (by omega), List.append_nil]
      exact ⟨rfl, by simp [bound, hp]⟩
  | slot k =>
    simp only [Job.step, hp] at h
    split at h
    · split at h <;> cases h
    · cases h
  | poll k =>
    simp only [Job.step, hp] at h
    split at h <;> cases h
  | put k => simp only [Job.step, hp] at h; cases h

theorem sending_isPrefix (j : Job) (i : Fin 4) : j.sending i <+: crlf j.byte := by
  unfold sending
  split
  · exact List.nil_prefix
  · split
    · exact List.prefix_refl _
    · exact List.nil_prefix
  all_goals
    split
    · exact List.prefix_refl _
    · split
      · exact List.prefix_append _ _
      · exact List.nil_prefix

theorem Ok.emitted_isPrefix (hok : j.Ok d) (i : Fin 4) : j.emitted i <+: expand j.msg := by
  have hpre : ∀ n, expand (j.msg.take n) <+: expand j.msg := fun n => by
    rw [← List.take_append_drop n j.msg, expand, expand, List.flatMap_append,
      List.take_append_drop]
    exact List.prefix_append _ _
  by_cases hp : j.pos = .next
  · rw [emitted, sending, hp, List.append_nil]; exact hpre _
  · obtain ⟨hlen, hz⟩ := hok.byte hp
    refine List.IsPrefix.trans ?_ (hpre (j.idx + 1))
    rw [expand_take_succ hlen, if_neg hz]
    exact List.prefix_append_right_inj _ |>.mpr (j.sending_isPrefix i)

end Job

/-! ## The invariant -/

section Invariant

variable {Core : Type} {d : ComDevices} {control : Nat → BitVec 8 → Uart → Uart}

/-- What the call that holds the lock has sent to port `i`. -/
def System.current (s : System Core) (q : FifoLock.Line Core) (i : Fin 4) : Msg :=
  q.holder.elim [] fun c => (s.job c).emitted i

def System.bound (s : System Core) (q : FifoLock.Line Core) (i : Fin 4) : Nat :=
  q.holder.elim 1 fun c => (s.job c).bound i

/-- The line of calls is `q`, and the calls that have returned had the messages `done`. -/
structure Inv (d : ComDevices) (tr : List (Event Core)) (s : System Core) (q : FifoLock.Line Core)
    (done : List Msg) : Prop where
  lock : Abs s.spin q
  log : messages tr = done ++ q.queue.map fun c => (s.job c).msg
  holder : ∀ c, q.holder = some c → (s.job c).Ok d
  waiting : ∀ c ∈ q.waiting, (s.job c).idx = 0 ∧ (s.job c).pos = .next
  stream : ∀ i, d.device i ≠ 0 → (s.port i).stream = done.flatMap expand ++ s.current q i
  fifo : ∀ i, d.device i ≠ 0 → (s.port i).fifo.length ≤ s.bound q i

theorem messages_append (tr : List (Event Core)) (e : Event Core) :
    messages (tr ++ [e]) = messages tr ++ messages [e] := List.filterMap_append

variable {tr : List (Event Core)} {s : System Core} {q : FifoLock.Line Core} {done : List Msg}

theorem Inv.init (h : s.spin = .init ∧ ∀ i, s.port i = ⟨[], []⟩) : Inv d [] s ⟨none, []⟩ [] where
  lock := by rw [h.1]; exact Abs.init
  log := rfl
  holder := nofun
  waiting := nofun
  stream i _ := by rw [h.2 i]; rfl
  fifo i _ := by rw [h.2 i]; simp

theorem Inv.idle (h : Inv d tr s q done) (hout : ∀ c, s.spin.pc c = .out) :
    q.queue = [] ∧ q.holder = none := by
  have hq : q.queue = [] :=
    List.eq_nil_iff_forall_not_mem.mpr fun c hc => h.lock.mem_queue.mp hc (hout c)
  exact ⟨hq, by simpa using (List.append_eq_nil_iff.mp hq).1⟩

variable [DecidableEq Core]

theorem Inv.call {c : Core} (h : Inv d tr s q done) (msg : Msg) (hc : s.spin.pc c = .out) :
    ∃ w, Inv d (tr ++ [.call c msg])
      { s with spin := (s.spin.step c).2, job := Function.update s.job c ⟨msg, 0, .next⟩ }
      ⟨q.holder, w⟩ done := by
  have hn : c ∉ q.queue := fun hm => h.lock.mem_queue.mp hm hc
  obtain ⟨q', hs, hl⟩ := h.lock.fetchAdd hc
  cases hs with
  | @enter holder w c _ =>
    have hw : ∀ x ∈ w, x ≠ c := fun x hx hxc => hn (hxc ▸ List.mem_append_right _ hx)
    have hh : ∀ x, holder = some x → x ≠ c := fun x hx hxc =>
      hn (List.mem_append_left _ (by simp [hx, hxc]))
    have hjob : ∀ x ∈ (⟨holder, w⟩ : FifoLock.Line Core).queue,
        Function.update s.job c ⟨msg, 0, .next⟩ x = s.job x :=
      fun x hx => Function.update_of_ne (by rintro rfl; exact hn hx) _ _
    have hq : (⟨holder, w ++ [c]⟩ : FifoLock.Line Core).queue =
        (⟨holder, w⟩ : FifoLock.Line Core).queue ++ [c] := by simp [FifoLock.Line.queue]
    refine ⟨_, hl, ?_, ?_, ?_, ?_, ?_⟩
    · rw [messages_append, h.log, hq, List.map_append, List.append_assoc]
      rw [List.map_congr_left fun x hx => congrArg Job.msg (hjob x hx)]
      simp [messages]
    · intro x hx
      simpa [Function.update_of_ne (hh x hx)] using h.holder x hx
    · intro x hx
      rcases List.mem_append.mp hx with hx | hx
      · simpa [Function.update_of_ne (hw x hx)] using h.waiting x hx
      · obtain rfl := List.mem_singleton.mp hx
        simp
    · intro i hi
      rw [h.stream i hi]
      cases holder with
      | none => rfl
      | some x => simp [System.current, Function.update_of_ne (hh x rfl)]
    · intro i hi
      have := h.fifo i hi
      cases holder with
      | none => exact this
      | some x => simpa [System.bound, Function.update_of_ne (hh x rfl)] using this

theorem Inv.load {c : Core} (h : Inv d tr s q done) (hlen : q.queue.length ≤ 2 ^ 32)
    {t : BitVec 32} (hc : s.spin.pc c = .spin t) :
    ∃ q', Inv d (tr ++ [.load c]) { s with spin := (s.spin.step c).2 } q' done ∧
      (q'.holder = q.holder ∨ q.holder = none ∧ q'.holder = some c ∧
        (s.job c).idx = 0 ∧ (s.job c).pos = .next) := by
  have hlog : messages (tr ++ [.load c]) = messages tr := by
    rw [messages_append]; exact List.append_nil _
  by_cases ht : s.spin.release = t
  · subst ht
    obtain ⟨w, rfl⟩ := h.lock.first hlen hc
    have hj := h.waiting c (List.mem_cons_self ..)
    refine ⟨_, ⟨h.lock.grant, hlog.trans h.log, ?_, ?_, ?_, ?_⟩, .inr ⟨rfl, rfl, hj⟩⟩
    · intro x hx
      obtain rfl : c = x := by simpa using hx
      exact Job.ok_next hj.2
    · exact fun x hx => h.waiting x (List.mem_cons_of_mem _ hx)
    · intro i hi
      rw [h.stream i hi]
      simp [System.current, Job.emitted, Job.sending, hj.1, hj.2, expand]
    · intro i hi
      simpa [System.bound, Job.bound, hj.2] using h.fifo i hi
  · rw [LockState.step_retry hc ht]
    exact ⟨q, ⟨h.lock, hlog.trans h.log, h.holder, h.waiting, h.stream, h.fifo⟩, .inl rfl⟩

theorem Inv.work {c : Core} {t : BitVec 32} {j : Job} {us : Fin 4 → Uart} (h : Inv d tr s q done)
    (hc : s.spin.pc c = .guarded t) (hj : (s.job c).step d control s.port = some (j, us)) :
    Inv d (tr ++ [.work c]) { s with job := Function.update s.job c j, port := us } q done := by
  have hlog : messages (tr ++ [.work c]) = messages tr := by
    rw [messages_append]; exact List.append_nil _
  have hh := h.lock.guarded hc
  obtain ⟨holder, w⟩ := q
  obtain rfl : holder = some c := hh
  have hb : ∀ i, d.device i ≠ 0 → (s.port i).fifo.length ≤ (s.job c).bound i :=
    fun i hi => h.fifo i hi
  have ha := (h.holder c rfl).step hb hj
  have hw : ∀ x ∈ w, Function.update s.job c j x = s.job x := by
    have hnd : c ∉ w ∧ w.Nodup := by simpa using h.lock.nodup
    intro x hx
    exact Function.update_of_ne (by rintro rfl; exact hnd.1 hx) _ _
  refine ⟨h.lock, ?_, ?_, ?_, ?_, ?_⟩
  · rw [hlog, h.log]
    simp only [FifoLock.Line.queue_some, List.map_cons, Function.update_self, ha.msg]
    rw [List.map_congr_left fun x hx => congrArg Job.msg (hw x hx)]
  · intro x hx
    obtain rfl : c = x := by simpa using hx
    simpa using ha.ok
  · intro x hx
    simpa only [hw x hx] using h.waiting x hx
  · intro i hi
    obtain ⟨o, hs⟩ := ha.sends i hi
    have hst := h.stream i hi
    simp only [System.current, Option.elim_some] at hst
    simp only [System.current, Option.elim_some, Function.update_self]
    rw [hs.stream, hst, hs.emitted, List.append_assoc]
  · intro i hi
    obtain ⟨o, hs⟩ := ha.sends i hi
    simpa [System.bound] using hs.fifo

theorem Inv.ret {c : Core} {t : BitVec 32} (h : Inv d tr s q done)
    (hc : s.spin.pc c = .guarded t) (hj : (s.job c).step d control s.port = none) :
    ∃ w, Inv d (tr ++ [.ret c]) { s with spin := (s.spin.step c).2 } ⟨none, w⟩
      (done ++ [(s.job c).msg]) := by
  have hlog : messages (tr ++ [.ret c]) = messages tr := by
    rw [messages_append]; exact List.append_nil _
  have hh := h.lock.guarded hc
  obtain ⟨holder, w⟩ := q
  obtain rfl : holder = some c := hh
  refine ⟨w, h.lock.destroy, ?_, nofun, h.waiting, ?_, ?_⟩
  · rw [hlog, h.log]
    simp
  · intro i hi
    rw [h.stream i hi]
    simp [System.current, (Job.step_none hj i).1]
  · intro i hi
    have := h.fifo i hi
    simp only [System.bound, Option.elim_some, (Job.step_none hj i).2] at this
    exact this

omit [DecidableEq Core] in
theorem Inv.drain {i : Fin 4} {b : BitVec 8} {rest : List (BitVec 8)} (h : Inv d tr s q done)
    (hf : (s.port i).fifo = b :: rest) :
    Inv d (tr ++ [.drain i])
      { s with port := Function.update s.port i ⟨rest, (s.port i).sent ++ [b]⟩ } q done := by
  have hlog : messages (tr ++ [.drain i]) = messages tr := by
    rw [messages_append]; exact List.append_nil _
  refine ⟨h.lock, hlog.trans h.log, h.holder, h.waiting, fun k hk => ?_, fun k hk => ?_⟩
  · have hst := h.stream k hk
    by_cases hki : k = i
    · subst hki
      simp only [Uart.stream, hf] at hst
      simp only [Function.update_self, Uart.stream, List.append_assoc, List.singleton_append]
      exact hst
    · simpa [Function.update_of_ne hki, System.current] using hst
  · have hfi := h.fifo k hk
    by_cases hki : k = i
    · subst hki
      rw [hf, List.length_cons] at hfi
      simp only [Function.update_self]
      exact Nat.le_of_succ_le hfi
    · simpa [Function.update_of_ne hki, System.bound] using hfi

/-- Each step keeps the invariant, as long as the line is not longer than `2 ^ 32`. -/
theorem Inv.step {s' : System Core} {e : Event Core} (h : Inv d tr s q done)
    (hlen : q.queue.length ≤ 2 ^ 32) (hs : Step d control s e s') :
    ∃ q' done', Inv d (tr ++ [e]) s' q' done' := by
  cases hs with
  | call msg hc =>
    obtain ⟨w, h'⟩ := h.call msg hc
    exact ⟨_, done, h'⟩
  | load hc =>
    obtain ⟨q', h', -⟩ := h.load hlen hc
    exact ⟨q', done, h'⟩
  | work hc hj => exact ⟨q, done, h.work hc hj⟩
  | ret hc hj =>
    obtain ⟨w, h'⟩ := h.ret hc hj
    exact ⟨_, _, h'⟩
  | drain hf => exact ⟨q, done, h.drain hf⟩

theorem Run.inv [Fintype Core] (hcard : Fintype.card Core ≤ 2 ^ 32)
    (h : (outputLts d control).Run tr s) : ∃ q done, Inv d tr s q done := by
  refine h.invariant (I := fun tr s => ∃ q done, Inv d tr s q done)
    (fun s hs => ⟨_, _, Inv.init hs⟩) ?_
  rintro tr s e s' ⟨q, done, hi⟩ hs
  exact hi.step (hi.lock.nodup.length_le_card.trans hcard) hs

omit [DecidableEq Core] in
/-- As many cores as there are identifiers. -/
theorem card_le [Fintype Core] (apicId : Core ↪ BitVec 32) : Fintype.card Core ≤ 2 ^ 32 := by
  have hinj : Function.Injective fun c => (apicId c).toFin :=
    fun a b hab => apicId.injective (BitVec.toFin_inj.mp hab)
  simpa using Fintype.card_le_of_injective _ hinj

/-- For any number of cores, each with its own 32-bit APIC identifier, any interleaving of their
calls and any schedule of the ports: what has left a present port is a prefix of the complete
outputs of the calls in the order of their tickets, and all of it once the calls have returned and
the FIFO is empty. -/
theorem output_in_order [Fintype Core] (apicId : Core ↪ BitVec 32)
    (h : (outputLts d control).Run tr s) {i : Fin 4} (hi : d.device i ≠ 0) :
    (s.port i).sent <+: (messages tr).flatMap expand ∧
      ((∀ c, s.spin.pc c = .out) → (s.port i).fifo = [] →
        (s.port i).sent = (messages tr).flatMap expand) := by
  have hcard := card_le apicId
  obtain ⟨⟨holder, w⟩, done, hinv⟩ := Run.inv hcard h
  have hst := hinv.stream i hi
  constructor
  · have hsent : (s.port i).sent <+: done.flatMap expand ++ s.current ⟨holder, w⟩ i := by
      rw [← hst]; exact List.prefix_append _ _
    refine hsent.trans ?_
    rw [hinv.log, List.flatMap_append]
    refine (List.prefix_append_right_inj _).mpr ?_
    cases holder with
    | none => exact List.nil_prefix
    | some c =>
      have hpre := (hinv.holder c rfl).emitted_isPrefix i
      simp only [FifoLock.Line.queue_some, List.map_cons, List.flatMap_cons]
      exact hpre.trans (List.prefix_append _ _)
  · intro hout hempty
    obtain ⟨hq, hholder⟩ := hinv.idle hout
    obtain rfl : holder = none := hholder
    rw [hinv.log, hq, List.map_nil, List.append_nil]
    simpa [Uart.stream, hempty, System.current] using hst

end Invariant

/-- One port, at the usual address of COM1. -/
def com1 : ComDevices where
  device i := if i.val = 0 then 0x3f8 else 0
  fits := by decide
  disjoint := by decide

/-- Two cores on COM1; the second waits while the first prints a newline. -/
theorem finished_two : ∃ (tr : List (Event (Fin 2))) (s : System (Fin 2)),
    (outputLts com1 fun _ _ u => u).Run tr s ∧ (∀ c, s.spin.pc c = .out) ∧
      messages tr = [[LF], [0x41]] ∧ (s.port 0).fifo = [] ∧
      (s.port 0).stream = [CR, LF, 0x41] := by
  have h0 : (outputLts com1 fun _ _ u => u).Run []
      ⟨LockState.init, fun _ : Fin 2 => ⟨[], 0, .next⟩, fun _ => ⟨[], []⟩⟩ :=
    .init ⟨rfl, fun _ => rfl⟩
  have h1 := h0.step (.call (c := 0) [LF] rfl)
  have h2 := h1.step (.call (c := 1) [0x41] rfl)
  have h3 := h2.step (.load (c := 0) rfl)
  have h4 := h3.step (.load (c := 1) rfl)
  have h5 := h4.step (.work (c := 0) rfl rfl)
  have h6 := h5.step (.work (c := 0) rfl rfl)
  have h7 := h6.step (.drain (i := 0) rfl)
  have h8 := h7.step (.work (c := 0) rfl rfl)
  have h9 := h8.step (.work (c := 0) rfl rfl)
  have h10 := h9.step (.work (c := 0) rfl rfl)
  have h11 := h10.step (.work (c := 0) rfl rfl)
  have h12 := h11.step (.work (c := 0) rfl rfl)
  have h13 := h12.step (.work (c := 0) rfl rfl)
  have h14 := h13.step (.ret (c := 0) rfl rfl)
  have h15 := h14.step (.load (c := 1) rfl)
  have h16 := h15.step (.work (c := 1) rfl rfl)
  have h17 := h16.step (.work (c := 1) rfl rfl)
  have h18 := h17.step (.drain (i := 0) rfl)
  have h19 := h18.step (.work (c := 1) rfl rfl)
  have h20 := h19.step (.work (c := 1) rfl rfl)
  have h21 := h20.step (.work (c := 1) rfl rfl)
  have h22 := h21.step (.work (c := 1) rfl rfl)
  have h23 := h22.step (.work (c := 1) rfl rfl)
  have h24 := h23.step (.work (c := 1) rfl rfl)
  have h25 := h24.step (.ret (c := 1) rfl rfl)
  have h26 := h25.step (.drain (i := 0) rfl)
  exact ⟨_, _, h26, by decide, rfl, rfl, rfl⟩

theorem output_in_order_two : ∃ (tr : List (Event (Fin 2))) (s : System (Fin 2)),
    (outputLts com1 fun _ _ u => u).Run tr s ∧ messages tr = [[LF], [0x41]] ∧
      (s.port 0).sent <+: [CR, LF, 0x41] ∧ (s.port 0).sent = [CR, LF, 0x41] := by
  obtain ⟨tr, s, hrun, hout, hmsg, hfifo, -⟩ := finished_two
  have apicId : Fin 2 ↪ BitVec 32 := ⟨fun c => BitVec.ofNat 32 c.val, by decide⟩
  obtain ⟨hpre, heq⟩ := output_in_order (i := 0) apicId hrun (by decide)
  have hexpand : (messages tr).flatMap expand = [CR, LF, 0x41] := by rw [hmsg]; rfl
  rw [hexpand] at hpre heq
  exact ⟨tr, s, hrun, hmsg, hpre, heq hout hfifo⟩

end Output
end DeliceOS
