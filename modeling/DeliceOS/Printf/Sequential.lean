import DeliceOS.Printf.Output
import DeliceOS.Serial.Language

/-!
# Printf.Sequential

The port accesses of the console, in order of time. The calls that the lock puts in a row make the
accesses of one core that calls `ComDevices::write` for one character after the other.

* `remaining_step`: a step of a call takes its access off the word that is still to come.
* `accesses_sequential`: however the cores interleave, their accesses are those of one sequence of
  calls.
* `console_respects`: so the cores together keep to the protocol of the ports where one does.
* `port_stream`: and a port sends what they output to it.
-/

namespace DeliceOS
namespace Output

open Base Serial

namespace Job

/-- The accesses of a step, `v` being the answer to a read. -/
def accesses (d : ComDevices) (j : Job) (v : BitVec 8) : List Access :=
  match j.pos with
  | .next => []
  | .slot i => if h : i < 4 then if j.byte = LF then [.outb (d.device ⟨i, h⟩) CR] else [] else []
  | .poll i => [.inb (d.device i + 5) v]
  | .put i => [.outb (d.device i) j.byte]

/-- `v` is an answer of the ports `us`. -/
def Shows (d : ComDevices) (j : Job) (us : Fin 4 → Uart) (v : BitVec 8) : Prop :=
  ∀ i, j.pos = .poll i → (Ready v ↔ d.ready (d.device i + 5) us = true)

/-- What is still to be done from character `k` on. -/
def rest (d : ComDevices) (j : Job) (k : Nat) : Language Access :=
  writings (List.ofFn d.device) ((j.msg.drop k).filter (· ≠ 0))

/-- What is still to be done from slot `k` on. -/
def slots (d : ComDevices) (j : Job) (k : Nat) : Language Access :=
  writing ((List.ofFn d.device).drop k) j.byte * j.rest d (j.idx + 1)

def remaining (d : ComDevices) (j : Job) : Language Access :=
  match j.pos with
  | .next => j.rest d j.idx
  | .slot k => j.slots d k
  | .poll k => polling (d.device k + 5) * (output (d.device k) j.byte * j.slots d (k + 1))
  | .put k => output (d.device k) j.byte * j.slots d (k + 1)

end Job

section

variable {Core : Type} [DecidableEq Core]

/-- The accesses of an event. -/
def Event.accesses (d : ComDevices) (s : System Core) (v : BitVec 8) : Event Core → List Access
  | .work c => (s.job c).accesses d v
  | .call _ _ | .load _ | .ret _ | .drain _ => []

/-- The console with its port accesses in order of time, whichever core makes them. -/
def accessLts (d : ComDevices) (control : Nat → BitVec 8 → Uart → Uart) :
    Lts (System Core × List Access) (Event Core) where
  init p := (outputLts d control).init p.1 ∧ p.2 = []
  step p e p' := Step d control p.1 e p'.1 ∧ ∃ v,
    (∀ c, e = .work c → (p.1.job c).Shows d p.1.port v) ∧ p'.2 = p.2 ++ e.accesses d p.1 v

end

section

variable {d : ComDevices} {control : Nat → BitVec 8 → Uart → Uart} {j j' : Job}
variable {us us' : Fin 4 → Uart} {v : BitVec 8} {t : List Access}

theorem rest_end (h : ¬ j.idx < j.msg.length) : j.rest d j.idx = 1 := by
  rw [Job.rest, List.drop_of_length_le (by omega)]
  rfl

theorem rest_succ (h : j.idx < j.msg.length) :
    j.rest d j.idx =
      if j.byte = 0 then j.rest d (j.idx + 1) else j.slots d 0 := by
  have hbyte : j.byte = j.msg[j.idx] := by
    rw [Job.byte, List.getD_eq_getElem?_getD, List.getElem?_eq_getElem h]
    rfl
  rw [Job.slots, Job.rest, List.drop_eq_getElem_cons h, ← hbyte]
  by_cases hz : j.byte = 0
  · rw [if_pos hz, List.filter_cons_of_neg (by simpa using hz)]
    rfl
  · rw [if_neg hz, List.filter_cons_of_pos (by simpa using hz), writings, List.map_cons,
      List.prod_cons]
    rfl

theorem slots_end {k : Nat} (h : ¬ k < 4) : j.slots d k = j.rest d (j.idx + 1) := by
  rw [Job.slots, List.drop_of_length_le (by simp; omega), writing, List.map_nil, List.prod_nil,
    one_mul]

theorem slots_succ (k : Fin 4) :
    j.slots d k = (if j.byte = LF then output (d.device k) CR else 1) *
      if d.device k = 0 then j.slots d (k + 1)
      else polling (d.device k + 5) * (output (d.device k) j.byte * j.slots d (k + 1)) := by
  have hlen : (k : Nat) < (List.ofFn d.device).length := by simp
  rw [Job.slots, List.drop_eq_getElem_cons hlen, writing, List.map_cons, List.prod_cons,
    List.getElem_ofFn, sending, mul_assoc, mul_assoc]
  congr 1
  by_cases hd : d.device k = 0
  · rw [if_pos hd, if_pos hd, one_mul]
    rfl
  · rw [if_neg hd, if_neg hd, mul_assoc]
    rfl

/-- What a step does comes off what is to be done. -/
theorem remaining_step (hv : j.Shows d us v) (h : j.step d control us = some (j', us'))
    (ht : t ∈ j'.remaining d) : j.accesses d v ++ t ∈ j.remaining d := by
  obtain ⟨msg, idx, pos⟩ := j
  cases pos with
  | next =>
    simp only [Job.step] at h
    split at h
    case isFalse => cases h
    case isTrue hlen =>
      have hrest := rest_succ (d := d) (j := ⟨msg, idx, .next⟩) hlen
      rw [Job.remaining, Job.accesses, List.nil_append]
      dsimp only at hrest ⊢
      rw [hrest]
      split at h
      case isTrue hz =>
        cases h
        rw [if_pos hz]
        exact ht
      case isFalse hz =>
        cases h
        rw [if_neg hz]
        exact ht
  | slot k =>
    simp only [Job.step] at h
    rw [Job.remaining, Job.accesses]
    dsimp only
    split at h
    case isFalse hk =>
      cases h
      rw [dif_neg hk, slots_end hk]
      exact ht
    case isTrue hk =>
      rw [dif_pos hk, slots_succ ⟨k, hk⟩]
      have hcr : (if Job.byte ⟨msg, idx, .slot k⟩ = LF then
            [Access.outb (d.device ⟨k, hk⟩) CR] else []) ∈
          if Job.byte ⟨msg, idx, .slot k⟩ = LF then output (d.device ⟨k, hk⟩) CR else 1 := by
        by_cases hlf : Job.byte ⟨msg, idx, .slot k⟩ = LF
        · rw [if_pos hlf, if_pos hlf]
          rfl
        · rw [if_neg hlf, if_neg hlf]
          rfl
      refine Language.append_mem_mul hcr ?_
      split at h
      case isTrue hd =>
        cases h
        rw [if_pos hd]
        exact ht
      case isFalse hd =>
        cases h
        rw [if_neg hd]
        exact ht
  | poll k =>
    simp only [Job.step] at h
    rw [Job.remaining, Job.accesses]
    have hready : Ready v ↔ d.ready (d.device k + 5) us = true := hv k rfl
    split at h
    case isTrue hr =>
      cases h
      exact Language.append_mem_mul (mem_polling.mpr (.inl ⟨v, hready.mpr hr, rfl⟩)) ht
    case isFalse hr =>
      cases h
      obtain ⟨t₁, h₁, t₂, h₂, rfl⟩ := Language.mem_mul.mp ht
      rw [← List.append_assoc]
      exact Language.append_mem_mul
        (mem_polling.mpr (.inr ⟨v, t₁, fun h => hr (hready.mp h), h₁, rfl⟩)) h₂
  | put k =>
    simp only [Job.step] at h
    cases h
    exact Language.append_mem_mul (Set.mem_singleton _) ht

theorem pos_of_step_none (h : j.step d control us = none) :
    j.pos = .next ∧ ¬ j.idx < j.msg.length := by
  obtain ⟨msg, idx, pos⟩ := j
  cases pos with
  | next =>
    simp only [Job.step] at h
    refine ⟨rfl, fun hlen => ?_⟩
    dsimp only at hlen
    rw [if_pos hlen] at h
    split at h <;> cases h
  | slot k =>
    simp only [Job.step] at h
    split at h
    · split at h <;> cases h
    · cases h
  | poll k =>
    simp only [Job.step] at h
    split at h <;> cases h
  | put k =>
    simp only [Job.step] at h
    cases h

theorem remaining_done (h : j.step d control us = none) : j.remaining d = 1 := by
  obtain ⟨hpos, hlen⟩ := pos_of_step_none h
  rw [Job.remaining, hpos]
  exact rest_end hlen

/-! ## What goes into a port -/

theorem bound_le (j : Job) (i : Fin 4) : j.bound i ≤ 2 := by
  unfold Job.bound
  split
  · split <;> omega
  · split <;> omega
  · omega

theorem outb_stream {i : Fin 4} (hi : d.device i ≠ 0) (hlen : (us i).fifo.length < 16) (k : Fin 4)
    (b : BitVec 8) : (d.outb control (d.device k) b us i).stream =
      (us i).stream ++ received (d.device i) [.outb (d.device k) b] := by
  by_cases hk : d.device k = 0
  · rw [hk, ComDevices.outb_absent, received_outb, if_neg (Ne.symm hi), List.append_nil]
  · rw [ComDevices.outb_base control hk]
    by_cases hik : i = k
    · rw [if_pos hik, Uart.transmit_stream hlen, received_outb, hik, if_pos rfl]
    · have hne := (ComDevices.base_not_in_range (Ne.symm hik) hk hi).1
      rw [if_neg hik, received_outb, if_neg hne, List.append_nil]

/-- A FIFO that is not full loses nothing of what a step outputs. -/
theorem step_stream {i : Fin 4} (hi : d.device i ≠ 0) (hlen : (us i).fifo.length < 16)
    (h : j.step d control us = some (j', us')) (v : BitVec 8) :
    (us' i).stream = (us i).stream ++ received (d.device i) (j.accesses d v) := by
  obtain ⟨msg, idx, pos⟩ := j
  cases pos with
  | next =>
    simp only [Job.step] at h
    split at h
    case isFalse => cases h
    case isTrue =>
      split at h <;>
        · cases h
          exact (List.append_nil _).symm
  | slot k =>
    simp only [Job.step] at h
    rw [Job.accesses]
    split at h
    case isFalse hk =>
      cases h
      dsimp only
      rw [dif_neg hk]
      exact (List.append_nil _).symm
    case isTrue hk =>
      obtain rfl : us' = if Job.byte ⟨msg, idx, .slot k⟩ = LF then
          d.outb control (d.device ⟨k, hk⟩) CR us else us := by
        split at h <;>
          · cases h
            rfl
      dsimp only
      rw [dif_pos hk]
      by_cases hlf : Job.byte ⟨msg, idx, .slot k⟩ = LF
      · rw [if_pos hlf, if_pos hlf]
        exact outb_stream hi hlen _ _
      · rw [if_neg hlf, if_neg hlf]
        exact (List.append_nil _).symm
  | poll k =>
    simp only [Job.step] at h
    split at h <;>
      · cases h
        exact (List.append_nil _).symm
  | put k =>
    simp only [Job.step] at h
    cases h
    exact outb_stream hi hlen k _

end

/-- Every call can still be finished. -/
theorem remaining_inhabited (d : ComDevices) (j : Job) : ∃ t, t ∈ j.remaining d := by
  have hslots : ∀ k, ∃ t, t ∈ j.slots d k := by
    intro k
    obtain ⟨t, ht⟩ := writing_inhabited ((List.ofFn d.device).drop k) j.byte
    obtain ⟨t', ht'⟩ := writings_inhabited (List.ofFn d.device)
      ((j.msg.drop (j.idx + 1)).filter (· ≠ 0))
    exact ⟨t ++ t', Language.append_mem_mul ht ht'⟩
  have hput : ∀ k : Fin 4, ∃ t, t ∈ output (d.device k) j.byte * j.slots d (k + 1) := by
    intro k
    obtain ⟨t, ht⟩ := hslots (k + 1)
    exact ⟨[.outb (d.device k) j.byte] ++ t, Language.append_mem_mul (Set.mem_singleton _) ht⟩
  obtain ⟨msg, idx, pos⟩ := j
  cases pos with
  | next => exact writings_inhabited _ _
  | slot k => exact hslots k
  | poll k =>
    obtain ⟨t, ht⟩ := polling_inhabited (d.device k + 5)
    obtain ⟨t', ht'⟩ := hput k
    exact ⟨t ++ t', Language.append_mem_mul ht ht'⟩
  | put k => exact hput k

/-! ## Runs -/

/-- What successive calls do. -/
def calls (d : ComDevices) (msgs : List Msg) : Language Access :=
  writings (List.ofFn d.device) (msgs.flatten.filter (· ≠ 0))

theorem calls_append (d : ComDevices) (msgs msgs' : List Msg) :
    calls d (msgs ++ msgs') = calls d msgs * calls d msgs' := by
  simp only [calls, writings, List.flatten_append, List.filter_append, List.map_append,
    List.prod_append]

theorem remaining_start {d : ComDevices} {j : Job} (hidx : j.idx = 0) (hpos : j.pos = .next) :
    j.remaining d = calls d [j.msg] := by
  rw [Job.remaining, hpos, Job.rest, hidx, List.drop_zero, calls, List.flatten_singleton]

section

variable {Core : Type} {d : ComDevices} {control : Nat → BitVec 8 → Uart → Uart}
variable {tr : List (Event Core)} {s : System Core} {q : FifoLock.Line Core} {done : List Msg}
variable {ts : List Access}

/-- What the call that holds the lock still has to do. -/
def System.remaining (d : ComDevices) (s : System Core) (q : FifoLock.Line Core) :
    Language Access :=
  q.holder.elim 1 fun c => (s.job c).remaining d

/-- The messages of the calls that have got the lock. -/
def System.started (s : System Core) (q : FifoLock.Line Core) (done : List Msg) : List Msg :=
  done ++ q.holder.toList.map fun c => (s.job c).msg

/-- With what remains of the current call the accesses are those of the calls that have begun. -/
def Sequential (d : ComDevices) (s : System Core) (q : FifoLock.Line Core) (done : List Msg)
    (ts : List Access) : Prop :=
  ∀ t ∈ s.remaining d q, ts ++ t ∈ calls d (s.started q done)

theorem Inv.messages_eq (h : Inv d tr s q done) :
    messages tr = s.started q done ++ q.waiting.map fun c => (s.job c).msg := by
  rw [h.log, System.started, FifoLock.Line.queue, List.map_append, List.append_assoc]

theorem remaining_exists (d : ComDevices) (s : System Core) (q : FifoLock.Line Core) :
    ∃ t, t ∈ s.remaining d q := by
  obtain ⟨holder, w⟩ := q
  cases holder with
  | none => exact ⟨[], rfl⟩
  | some c => exact remaining_inhabited d (s.job c)

theorem Sequential.init (s : System Core) : Sequential d s ⟨none, []⟩ [] [] := by
  rintro t ht
  exact ht

/-- Where the lock and the call that holds it stay, nothing changes. -/
theorem Sequential.frame {s' : System Core} {q' : FifoLock.Line Core}
    (h : Sequential d s q done ts) (hq : q'.holder = q.holder)
    (hjob : ∀ c, q.holder = some c → s'.job c = s.job c) : Sequential d s' q' done ts := by
  intro t ht
  obtain ⟨holder, w⟩ := q
  obtain ⟨holder', w'⟩ := q'
  obtain rfl : holder' = holder := hq
  cases holder' with
  | none => exact h t ht
  | some c =>
    have hc := hjob c rfl
    have hrem : s'.remaining d ⟨some c, w'⟩ = s.remaining d ⟨some c, w⟩ := by
      simp only [System.remaining, Option.elim_some, hc]
    have hstart : s'.started ⟨some c, w'⟩ done = s.started ⟨some c, w⟩ done := by
      simp only [System.started, Option.toList_some, List.map_cons, List.map_nil, hc]
    rw [hstart]
    exact h t (hrem ▸ ht)

theorem Sequential.grant {c : Core} {w w' : List Core} (h : Sequential d s ⟨none, w⟩ done ts)
    {s' : System Core} (hjob : s'.job c = s.job c)
    (hj : (s.job c).idx = 0 ∧ (s.job c).pos = .next) : Sequential d s' ⟨some c, w'⟩ done ts := by
  intro t ht
  have hdone : ts ∈ calls d done := by
    simpa [System.remaining, System.started] using h [] rfl
  have ht' : t ∈ calls d [(s.job c).msg] := by
    rw [← remaining_start hj.1 hj.2, ← hjob]
    exact ht
  have hstart : s'.started ⟨some c, w'⟩ done = done ++ [(s.job c).msg] := by
    simp only [System.started, Option.toList_some, List.map_cons, List.map_nil, hjob]
  rw [hstart, calls_append]
  exact Language.append_mem_mul hdone ht'

theorem Sequential.work [DecidableEq Core] {c : Core} {w : List Core} {j : Job} {us : Fin 4 → Uart}
    {v : BitVec 8} (h : Sequential d s ⟨some c, w⟩ done ts) (hv : (s.job c).Shows d s.port v)
    (hj : (s.job c).step d control s.port = some (j, us)) (hmsg : j.msg = (s.job c).msg) :
    Sequential d { s with job := Function.update s.job c j, port := us } ⟨some c, w⟩ done
      (ts ++ (s.job c).accesses d v) := by
  intro t ht
  have ht' : t ∈ j.remaining d := by
    simpa only [System.remaining, Option.elim_some, Function.update_self] using ht
  have hword := h _ (remaining_step hv hj ht')
  rw [List.append_assoc]
  simpa only [System.started, Option.toList_some, List.map_cons, List.map_nil,
    Function.update_self, hmsg] using hword

theorem Sequential.ret {c : Core} {w w' : List Core} (h : Sequential d s ⟨some c, w⟩ done ts)
    (hj : (s.job c).step d control s.port = none) (s' : System Core) :
    Sequential d s' ⟨none, w'⟩ (done ++ [(s.job c).msg]) ts := by
  intro t ht
  obtain rfl : t = [] := ht
  have hnil : [] ∈ (s.job c).remaining d := by
    rw [remaining_done hj]
    rfl
  simpa [System.started] using h [] hnil

variable [DecidableEq Core]

theorem Sequential.step {s' : System Core} {e : Event Core} {v : BitVec 8}
    (hinv : Inv d tr s q done) (h : Sequential d s q done ts) (hlen : q.queue.length ≤ 2 ^ 32)
    (hs : Step d control s e s') (hv : ∀ c, e = .work c → (s.job c).Shows d s.port v) :
    ∃ q' done', Inv d (tr ++ [e]) s' q' done' ∧
      Sequential d s' q' done' (ts ++ e.accesses d s v) := by
  cases hs with
  | @call c msg hc =>
    obtain ⟨w, hinv'⟩ := hinv.call msg hc
    refine ⟨_, done, hinv', ?_⟩
    rw [Event.accesses, List.append_nil]
    refine h.frame rfl fun x hx => Function.update_of_ne ?_ _ _
    rintro rfl
    have hx' := hinv.lock.holder x hx
    rw [hc] at hx'
    cases hx'
  | @load c t hc =>
    obtain ⟨q', hinv', hq⟩ := hinv.load hlen hc
    refine ⟨q', done, hinv', ?_⟩
    rw [Event.accesses, List.append_nil]
    rcases hq with hq | ⟨hnone, hsome, hj⟩
    · exact h.frame hq fun x _ => rfl
    · obtain ⟨holder, w⟩ := q
      obtain ⟨holder', w'⟩ := q'
      obtain rfl : holder = none := hnone
      obtain rfl : holder' = some c := hsome
      exact h.grant rfl hj
  | @work c t j us hc hj =>
    refine ⟨q, done, hinv.work hc hj, ?_⟩
    have hholder := hinv.lock.guarded hc
    obtain ⟨holder, w⟩ := q
    obtain rfl : holder = some c := hholder
    have hadv := (hinv.holder c rfl).step (fun i hi => hinv.fifo i hi) hj
    exact h.work (hv c rfl) hj hadv.msg
  | @ret c t hc hj =>
    obtain ⟨w', hinv'⟩ := hinv.ret hc hj
    refine ⟨_, _, hinv', ?_⟩
    rw [Event.accesses, List.append_nil]
    have hholder := hinv.lock.guarded hc
    obtain ⟨holder, w⟩ := q
    obtain rfl : holder = some c := hholder
    exact h.ret hj _
  | @drain i b rest hf =>
    refine ⟨q, done, hinv.drain hf, ?_⟩
    rw [Event.accesses, List.append_nil]
    exact h.frame rfl fun x _ => rfl

theorem Run.sequential [Fintype Core] (hcard : Fintype.card Core ≤ 2 ^ 32)
    (h : (accessLts d control).Run tr (s, ts)) :
    ∃ q done, Inv d tr s q done ∧ Sequential d s q done ts := by
  refine h.invariant (I := fun tr p => ∃ q done, Inv d tr p.1 q done ∧ Sequential d p.1 q done p.2)
    ?_ ?_
  · rintro ⟨s, ts⟩ ⟨hs, hts⟩
    obtain rfl : ts = [] := hts
    exact ⟨_, _, Inv.init hs, .init s⟩
  · rintro tr ⟨s, ts⟩ e ⟨s', ts'⟩ ⟨q, done, hinv, hseq⟩ ⟨hs, v, hv, hts⟩
    obtain rfl : ts' = ts ++ e.accesses d s v := hts
    exact hseq.step hinv (hinv.lock.nodup.length_le_card.trans hcard) hs hv

/-- A port that is polled has an answer. -/
theorem exists_shows (d : ComDevices) (j : Job) (us : Fin 4 → Uart) : ∃ v, j.Shows d us v := by
  cases hpos : j.pos with
  | poll i =>
    refine ⟨if d.ready (d.device i + 5) us then 0x20 else 0, fun k hk => ?_⟩
    obtain rfl : i = k := by
      rw [hpos] at hk
      exact Pos.poll.inj hk
    split
    case isTrue hr => exact iff_of_true (by decide) hr
    case isFalse hr => exact iff_of_false (by decide) hr
  | _ =>
    refine ⟨0, fun k hk => ?_⟩
    rw [hpos] at hk
    cases hk

/-- The record of the accesses is no part of the console: every run of it has one. -/
theorem exists_accesses (h : (outputLts d control).Run tr s) :
    ∃ ts, (accessLts d control).Run tr (s, ts) := by
  induction h with
  | init hs => exact ⟨[], .init ⟨hs, rfl⟩⟩
  | @step tr s s' e _ hs ih =>
    obtain ⟨ts, hrun⟩ := ih
    have hv : ∃ v, ∀ c, e = .work c → (s.job c).Shows d s.port v := by
      cases e with
      | work c =>
        obtain ⟨v, hv⟩ := exists_shows d (s.job c) s.port
        refine ⟨v, fun c' hc' => ?_⟩
        obtain rfl := Event.work.inj hc'
        exact hv
      | _ => exact ⟨0, nofun⟩
    obtain ⟨v, hv⟩ := hv
    exact ⟨_, hrun.step ⟨hs, v, hv, rfl⟩⟩

theorem run_two : ∃ (tr : List (Event (Fin 2))) (s : System (Fin 2)) (ts : List Access),
    (accessLts com1 fun _ _ u => u).Run tr (s, ts) ∧ (∀ c, s.spin.pc c = .out) ∧
      messages tr = [[LF], [0x41]] ∧ (s.port 0).stream = [CR, LF, 0x41] := by
  obtain ⟨tr, s, hrun, hout, hmsg, -, hstream⟩ := finished_two
  obtain ⟨ts, haccess⟩ := exists_accesses hrun
  exact ⟨tr, s, ts, haccess, hout, hmsg, hstream⟩

/-- The accesses so far begin the trace of a finished sequence of calls. -/
theorem Run.calls_prefix [Fintype Core] (apicId : Core ↪ BitVec 32)
    (h : (accessLts d control).Run tr (s, ts)) :
    (∃ t, ts ++ t ∈ calls d (messages tr)) ∧
      ((∀ c, s.spin.pc c = .out) → ts ∈ calls d (messages tr)) := by
  have hcard := card_le apicId
  obtain ⟨q, done, hinv, hseq⟩ := Run.sequential hcard h
  have hmsgs := hinv.messages_eq
  constructor
  · obtain ⟨t, ht⟩ := remaining_exists d s q
    obtain ⟨t', ht'⟩ : ∃ t', t' ∈ calls d (q.waiting.map fun c => (s.job c).msg) :=
      writings_inhabited _ _
    refine ⟨t ++ t', ?_⟩
    rw [hmsgs, calls_append, ← List.append_assoc]
    exact Language.append_mem_mul (hseq t ht) ht'
  · intro hout
    obtain ⟨hq, hholder⟩ := hinv.idle hout
    obtain ⟨holder, w⟩ := q
    obtain rfl : holder = none := hholder
    obtain rfl : w = [] := hq
    have hword : ts ++ [] ∈ calls d (messages tr) := by
      rw [hmsgs, List.map_nil, List.append_nil]
      exact hseq [] rfl
    rwa [List.append_nil] at hword

/-- However the cores interleave and whatever the ports do, all accesses together are a beginning
of one finished sequence of calls of `ComDevices::write`, with the characters of the messages in
the order of their tickets; when no call is under way they are all of it. -/
theorem accesses_sequential [Fintype Core] (apicId : Core ↪ BitVec 32)
    (h : (accessLts d control).Run tr (s, ts)) :
    let bytes := (messages tr).flatten.filter (· ≠ 0)
    (∃ fuel status t n', writes fuel status d.device bytes 0 = (ts ++ t, some n')) ∧
      ((∀ c, s.spin.pc c = .out) →
        ∃ fuel status n', writes fuel status d.device bytes 0 = (ts, some n')) := by
  obtain ⟨⟨t, ht⟩, hwhole⟩ := Run.calls_prefix apicId h
  constructor
  · obtain ⟨fuel, status, n', heq⟩ := (mem_writings_iff _ _ _).mp ht
    exact ⟨fuel, status, t, n', heq⟩
  · exact fun hout => (mem_writings_iff _ _ _).mp (hwhole hout)

theorem accesses_sequential_two :
    ∃ (tr : List (Event (Fin 2))) (s : System (Fin 2)) (ts : List Access),
      (accessLts com1 fun _ _ u => u).Run tr (s, ts) ∧
        ∃ fuel status n', writes fuel status com1.device [LF, 0x41] 0 = (ts, some n') := by
  obtain ⟨tr, s, ts, hrun, hout, hmsg, -⟩ := run_two
  have apicId : Fin 2 ↪ BitVec 32 := ⟨fun c => BitVec.ofNat 32 c.val, by decide⟩
  have hseq := (accesses_sequential apicId hrun).2 hout
  rw [hmsg] at hseq
  exact ⟨tr, s, ts, hrun, hseq⟩

omit [DecidableEq Core] in
theorem System.bound_le (s : System Core) (q : FifoLock.Line Core) (i : Fin 4) :
    s.bound q i ≤ 2 := by
  obtain ⟨holder, w⟩ := q
  cases holder with
  | none => exact Nat.le_succ 1
  | some c => exact Output.bound_le (s.job c) i

/-- A port has sent or still holds what has been output to it: its FIFO is never full, and no core
breaks into what another one sends. -/
theorem port_stream [Fintype Core] (apicId : Core ↪ BitVec 32)
    (h : (accessLts d control).Run tr (s, ts)) {i : Fin 4} (hi : d.device i ≠ 0) :
    (s.port i).stream = received (d.device i) ts := by
  suffices hrun : ∀ p, (accessLts d control).Run tr p →
      (p.1.port i).stream = received (d.device i) p.2 from hrun _ h
  clear h
  intro p hrun
  induction hrun with
  | @init p hp => rw [hp.1.2 i, hp.2]; rfl
  | @step tr p p' e hrun hp ih =>
    obtain ⟨s, ts⟩ := p
    obtain ⟨s', ts'⟩ := p'
    obtain ⟨hs, v, -, hts⟩ := hp
    obtain rfl : ts' = ts ++ e.accesses d s v := hts
    dsimp only at hs ih ⊢
    rw [received_append]
    cases hs with
    | @work c t j us hc hj =>
      obtain ⟨q, done, hinv, -⟩ := Run.sequential (card_le apicId) hrun
      have hfifo := (hinv.fifo i hi).trans (System.bound_le s q i)
      rw [← ih]
      exact step_stream hi (by omega) hj v
    | @drain k b rest hf =>
      refine Eq.trans ?_ (ih.trans (List.append_nil _).symm)
      dsimp only
      by_cases hik : i = k
      · subst hik
        rw [Function.update_self, Uart.stream, Uart.stream, hf, List.append_assoc]
        rfl
      · rw [Function.update_of_ne hik]
    | call => exact ih.trans (List.append_nil _).symm
    | load => exact ih.trans (List.append_nil _).symm
    | ret => exact ih.trans (List.append_nil _).symm

theorem port_stream_two :
    ∃ (tr : List (Event (Fin 2))) (s : System (Fin 2)) (ts : List Access),
      (accessLts com1 fun _ _ u => u).Run tr (s, ts) ∧ received 0x3f8 ts = [CR, LF, 0x41] := by
  obtain ⟨tr, s, ts, hrun, -, -, hstream⟩ := run_two
  have apicId : Fin 2 ↪ BitVec 32 := ⟨fun c => BitVec.ofNat 32 c.val, by decide⟩
  exact ⟨tr, s, ts, hrun, (port_stream (i := 0) apicId hrun (by decide)).symm.trans hstream⟩

theorem newline_mem_iff (msgs : List Msg) :
    LF ∈ msgs.flatten.filter (· ≠ 0) ↔ LF ∈ msgs.flatten := by
  rw [List.mem_filter]
  exact and_iff_left (by decide)

/-- Without newlines the cores together respect the protocol of the ports at every moment. When the
calls have returned and a message had a newline, they have not. -/
theorem console_respects [Fintype Core] (apicId : Core ↪ BitVec 32)
    (h : (accessLts d control).Run tr (s, ts)) :
    (LF ∉ (messages tr).flatten → Respects (List.ofFn d.device) ts) ∧
      ((∀ c, s.spin.pc c = .out) → Respects (List.ofFn d.device) ts →
        LF ∉ (messages tr).flatten) := by
  obtain ⟨⟨t, ht⟩, hwhole⟩ := Run.calls_prefix apicId h
  constructor
  · intro hnl
    obtain ⟨fuel, status, n', heq⟩ := (mem_writings_iff _ _ _).mp ht
    have hsends : Sends fuel status (List.ofFn d.device) _ (writes fuel status d.device _) :=
      sends_writes fun hmem => hnl ((newline_mem_iff _).mp hmem)
    have hall := hsends.respects 0
    rw [heq] at hall
    exact hall.left
  · intro hout hres hnl
    obtain ⟨fuel, status, n', heq⟩ := (mem_writings_iff _ _ _).mp (hwhole hout)
    -- up to the first newline everything is used up
    obtain ⟨pre, post, hbytes, hpre⟩ :=
      List.eq_append_cons_of_mem ((newline_mem_iff _).mpr hnl)
    have hsends : Sends fuel status (List.ofFn d.device) _ (writes fuel status d.device pre) :=
      sends_writes hpre
    rw [hbytes, writes_append] at heq
    cases hn : (writes fuel status d.device pre 0).2 with
    | none =>
      rw [Routine.seq_none hn] at heq
      rw [heq] at hn
      cases hn
    | some n =>
      obtain ⟨more, hmore⟩ := Routine.seq_fst (write fuel status d.device LF)
        (writes fuel status d.device post) n
      rw [Routine.seq_some hn, writes, hmore, Prod.mk.injEq] at heq
      rw [← heq.1] at hres
      exact not_respects_newline (hsends.answered 0 n hn).1 hres

/-- The carriage return of the first core does not wait. -/
theorem console_respects_two :
    ∃ (tr : List (Event (Fin 2))) (s : System (Fin 2)) (ts : List Access),
      (accessLts com1 fun _ _ u => u).Run tr (s, ts) ∧ ¬ Respects (List.ofFn com1.device) ts := by
  obtain ⟨tr, s, ts, hrun, hout, hmsg, -⟩ := run_two
  have apicId : Fin 2 ↪ BitVec 32 := ⟨fun c => BitVec.ofNat 32 c.val, by decide⟩
  refine ⟨tr, s, ts, hrun, fun hres => ?_⟩
  have hnl := (console_respects apicId hrun).2 hout hres
  rw [hmsg] at hnl
  exact hnl (List.mem_cons_self ..)

end

end Output
end DeliceOS
