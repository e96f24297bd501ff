import DeliceOS.Printf.Output
import DeliceOS.Serial.Init

/-!
# Serial.Restart

Cores that start one after the other, each of which sets the ports up again before it prints. When
it does, no other core is in `printf_`, and the ports may not have sent all they were given. Each
of them also calls `static_init`, which constructs `spin` again, its counters at zero. That is left
out here: with no call under way the two counters are equal before and after it, and the calls that
follow only compare them.

* `Shadow.step`: such a system does what one without restarts does in which the ports have sent
  what a restart throws away.
* `output_with_restarts`: what leaves a port, in every reachable state.
-/

namespace DeliceOS
namespace Output

open Base Serial

section

variable {Core : Type} [DecidableEq Core]
variable (d : ComDevices) (control : Nat → BitVec 8 → Uart → Uart) (m : Mem)

/-- A step of `printf_`, or `ComDevices::init` by a core while none is in `printf_`. -/
inductive ConsoleStep (s : System Core) : Option (Event Core) → System Core → Prop where
  | print {e : Event Core} {s' : System Core} : Step d control s e s' → ConsoleStep s (some e) s'
  | init {rs : Fin 4 → Registers} : (∀ c, s.spin.pc c = .out) → (∀ i, (rs i).line = s.port i) →
      ConsoleStep s none { s with port := fun i => (d.exec (Serial.init m).2 rs i).line }

def consoleLts : Lts (System Core) (Option (Event Core)) where
  init s := s.spin = .init ∧ ∀ i, s.port i = ⟨[], []⟩
  step := ConsoleStep d control m

end

/-- The ports `us` hold the same as `us'`, and have sent a part of what these have sent, all but `k`
bytes. -/
structure Behind (k : Nat) (us us' : Fin 4 → Uart) : Prop where
  fifo : ∀ i, (us i).fifo = (us' i).fifo
  sent : ∀ i, (us i).sent.Sublist (us' i).sent
  lost : ∀ i, (us' i).sent.length ≤ (us i).sent.length + k

section

variable {d : ComDevices} {control : Nat → BitVec 8 → Uart → Uart} {k : Nat}
variable {us us' vs : Fin 4 → Uart}

theorem Behind.refl (us : Fin 4 → Uart) : Behind 0 us us :=
  ⟨fun _ => rfl, fun _ => List.Sublist.refl _, fun _ => Nat.le_refl _⟩

theorem Behind.transmit (h : Behind k us us') (i : Fin 4) (v : BitVec 8) :
    Behind k (fun j => if j = i then (us j).transmit v else us j)
      fun j => if j = i then (us' j).transmit v else us' j := by
  refine ⟨fun j => ?_, fun j => ?_, fun j => ?_⟩
  · by_cases hj : j = i
    · simp only [if_pos hj, Uart.transmit, h.fifo j]
    · simpa only [if_neg hj] using h.fifo j
  · by_cases hj : j = i
    · simpa only [if_pos hj, Uart.transmit] using h.sent j
    · simpa only [if_neg hj] using h.sent j
  · by_cases hj : j = i
    · simpa only [if_pos hj, Uart.transmit] using h.lost j
    · simpa only [if_neg hj] using h.lost j

theorem Behind.outb (h : Behind k us us') (i : Fin 4) (v : BitVec 8) :
    Behind k (d.outb control (d.device i) v us) (d.outb control (d.device i) v us') := by
  by_cases hi : d.device i = 0
  · rw [hi, ComDevices.outb_absent, ComDevices.outb_absent]
    exact h
  · have hout : ∀ us, d.outb control (d.device i) v us =
        fun j => if j = i then (us j).transmit v else us j :=
      fun us => funext fun j => ComDevices.outb_base control hi v us j
    rw [hout, hout]
    exact h.transmit i v

theorem Behind.ready (h : Behind k us us') (port : BitVec 16) :
    d.ready port us = d.ready port us' := by
  unfold ComDevices.ready
  simp only [h.fifo]

/-- A call under the guard cannot tell the ports apart. -/
theorem Behind.step (h : Behind k us us') (j : Job) :
    (j.step d control us = none ∧ j.step d control us' = none) ∨
      ∃ j' vs vs', j.step d control us = some (j', vs) ∧ j.step d control us' = some (j', vs') ∧
        Behind k vs vs' := by
  unfold Job.step
  cases j.pos with
  | next =>
    dsimp only
    split
    · split
      · exact .inr ⟨_, _, _, rfl, rfl, h⟩
      · exact .inr ⟨_, _, _, rfl, rfl, h⟩
    · exact .inl ⟨rfl, rfl⟩
  | slot i =>
    dsimp only
    split
    · rename_i hi
      have hcr : Behind k (if j.byte = LF then d.outb control (d.device ⟨i, hi⟩) CR us else us)
          (if j.byte = LF then d.outb control (d.device ⟨i, hi⟩) CR us' else us') := by
        split
        · exact h.outb _ _
        · exact h
      split
      · exact .inr ⟨_, _, _, rfl, rfl, hcr⟩
      · exact .inr ⟨_, _, _, rfl, rfl, hcr⟩
    · exact .inr ⟨_, _, _, rfl, rfl, h⟩
  | poll i =>
    dsimp only
    rw [h.ready]
    split
    · exact .inr ⟨_, _, _, rfl, rfl, h⟩
    · exact .inr ⟨_, _, _, rfl, rfl, h⟩
  | put i => exact .inr ⟨_, _, _, rfl, rfl, h.outb _ _⟩

/-! ## Steps -/

variable {Core : Type} {s s' s₀ : System Core} {tr : List (Event Core)}

/-- `s₀` is where `s` would be had its ports sent what they lost. -/
structure Shadow (k : Nat) (s s₀ : System Core) : Prop where
  spin : s.spin = s₀.spin
  job : s.job = s₀.job
  port : Behind k s.port s₀.port

theorem Behind.drain (h : Behind k us us') {i : Fin 4} {b : BitVec 8} {rest : List (BitVec 8)} :
    Behind k (Function.update us i ⟨rest, (us i).sent ++ [b]⟩)
      (Function.update us' i ⟨rest, (us' i).sent ++ [b]⟩) := by
  refine ⟨fun j => ?_, fun j => ?_, fun j => ?_⟩
  · by_cases hj : j = i
    · rw [hj, Function.update_self, Function.update_self]
    · rw [Function.update_of_ne hj, Function.update_of_ne hj]
      exact h.fifo j
  · by_cases hj : j = i
    · rw [hj, Function.update_self, Function.update_self]
      exact (h.sent i).append (List.Sublist.refl _)
    · rw [Function.update_of_ne hj, Function.update_of_ne hj]
      exact h.sent j
  · by_cases hj : j = i
    · rw [hj, Function.update_self, Function.update_self, List.length_append, List.length_append]
      have := h.lost i
      omega
    · rw [Function.update_of_ne hj, Function.update_of_ne hj]
      exact h.lost j

variable [DecidableEq Core]

theorem Shadow.step {e : Event Core} (h : Shadow k s s₀) (hs : Step d control s e s') :
    ∃ s₁, Step d control s₀ e s₁ ∧ Shadow k s' s₁ := by
  obtain ⟨spin, job, port⟩ := s
  obtain ⟨spin₀, job₀, port₀⟩ := s₀
  obtain ⟨rfl, rfl, hport⟩ := h
  cases hs with
  | call msg hc => exact ⟨_, .call msg hc, rfl, rfl, hport⟩
  | load hc => exact ⟨_, .load hc, rfl, rfl, hport⟩
  | @work c t j us hc hj =>
    rcases hport.step (job c) with ⟨hnone, -⟩ | ⟨j', vs, vs', hvs, hvs', hbehind⟩
    · rw [hnone] at hj
      cases hj
    · rw [hvs] at hj
      cases hj
      exact ⟨_, .work hc hvs', rfl, rfl, hbehind⟩
  | @ret c t hc hj =>
    rcases hport.step (job c) with ⟨-, hnone⟩ | ⟨j', vs, vs', hvs, -⟩
    · exact ⟨_, .ret hc hnone, rfl, rfl, hport⟩
    · rw [hvs] at hj
      cases hj
  | drain hf => exact ⟨_, .drain ((hport.fifo _).symm.trans hf), rfl, rfl, hport.drain⟩

/-! ## Restarts -/

def flush (u : Uart) : Uart := ⟨[], u.sent ++ u.fifo⟩

theorem flush_flush (u : Uart) : flush (flush u) = flush u := by
  rw [flush, flush, List.append_nil]

/-- A port may send all it holds. -/
theorem run_drain (i : Fin 4) (h : (outputLts d control).Run tr s) :
    ∃ tr', (outputLts d control).Run (tr ++ tr')
        { s with port := Function.update s.port i (flush (s.port i)) } ∧ messages tr' = [] := by
  generalize hf : (s.port i).fifo = fifo
  induction fifo generalizing tr s with
  | nil =>
    have hsame : Function.update s.port i (flush (s.port i)) = s.port := by
      rw [Function.update_eq_self_iff, flush, hf, List.append_nil, ← hf]
    exact ⟨[], by rwa [hsame, List.append_nil], rfl⟩
  | cons b rest ih =>
    obtain ⟨tr', hrun, hmsg⟩ := ih (h.step (.drain hf)) (by simp)
    refine ⟨.drain i :: tr', ?_, by simpa [messages] using hmsg⟩
    rw [List.append_cons]
    convert hrun using 2
    simp [flush, hf]

theorem run_drains (slots : List (Fin 4)) (h : (outputLts d control).Run tr s) :
    ∃ tr', (outputLts d control).Run (tr ++ tr')
        { s with port := fun i => if i ∈ slots then flush (s.port i) else s.port i } ∧
      messages tr' = [] := by
  induction slots generalizing tr s with
  | nil => exact ⟨[], by simpa using h, rfl⟩
  | cons i slots ih =>
    obtain ⟨tr₁, h₁, hmsg₁⟩ := run_drain i h
    obtain ⟨tr₂, h₂, hmsg₂⟩ := ih h₁
    have hmsg : messages (tr₁ ++ tr₂) = [] := by
      rw [messages, List.filterMap_append]
      exact List.append_eq_nil_iff.mpr ⟨hmsg₁, hmsg₂⟩
    refine ⟨tr₁ ++ tr₂, ?_, hmsg⟩
    rw [← List.append_assoc]
    convert h₂ using 2
    funext j
    by_cases hj : j = i
    · simp [hj, flush_flush]
    · simp [hj]

/-- Between the calls a port holds one byte at most. -/
theorem fifo_le_one [Fintype Core] (hcard : Fintype.card Core ≤ 2 ^ 32)
    (h : (outputLts d control).Run tr s) (hout : ∀ c, s.spin.pc c = .out) {i : Fin 4}
    (hi : d.device i ≠ 0) : (s.port i).fifo.length ≤ 1 := by
  obtain ⟨q, done, hinv⟩ := Run.inv hcard h
  have hfifo := hinv.fifo i hi
  rwa [System.bound, (hinv.idle hout).2] at hfifo

/-- The lines after `ComDevices::init`. -/
theorem init_line {m : Mem} (hm : ∀ i, comPort m i = d.device i) (rs : Fin 4 → Registers) (i : Fin 4) :
    (d.exec (Serial.init m).2 rs i).line =
      if d.device i ≠ 0 then ⟨[], (rs i).line.sent⟩ else (rs i).line := by
  rw [(ComDevices.exec_init hm rs).2 i]
  split
  · rfl
  · rfl

theorem Behind.init {us₀ : Fin 4 → Uart} (h : Behind k us us₀)
    (hle : ∀ i, d.device i ≠ 0 → (us₀ i).fifo.length ≤ 1) :
    Behind (k + 1) (fun i => if d.device i ≠ 0 then ⟨[], (us i).sent⟩ else us i)
      fun i => if d.device i ≠ 0 then flush (us₀ i) else us₀ i := by
  refine ⟨fun i => ?_, fun i => ?_, fun i => ?_⟩
  · by_cases hi : d.device i ≠ 0
    · simp only [if_pos hi, flush]
    · simpa only [if_neg hi] using h.fifo i
  · by_cases hi : d.device i ≠ 0
    · simpa only [if_pos hi, flush] using (h.sent i).trans (List.sublist_append_left _ _)
    · simpa only [if_neg hi] using h.sent i
  · have hlost := h.lost i
    by_cases hi : d.device i ≠ 0
    · have hone := hle i hi
      simp only [if_pos hi, flush, List.length_append]
      omega
    · simp only [if_neg hi]
      omega

/-- Every run with restarts has a run without any, of the same calls. -/
theorem Shadow.run [Fintype Core] (hcard : Fintype.card Core ≤ 2 ^ 32) {m : Mem}
    (hm : ∀ i, comPort m i = d.device i) {tr : List (Option (Event Core))}
    (h : (consoleLts d control m).Run tr s) :
    ∃ tr' s', (outputLts d control).Run tr' s' ∧ messages tr' = messages (tr.filterMap id) ∧
      Shadow (tr.countP Option.isNone) s s' := by
  induction h with
  | @init s hs => exact ⟨[], s, .init hs, rfl, rfl, rfl, .refl _⟩
  | @step tr s s' e _ hs ih =>
    obtain ⟨tr', s₀, hrun, hmsg, hshadow⟩ := ih
    cases hs with
    | @print e _ hs =>
      obtain ⟨s₁, hs₁, hshadow'⟩ := hshadow.step hs
      refine ⟨tr' ++ [e], s₁, hrun.step hs₁, ?_, ?_⟩
      · rw [messages_append, hmsg, List.filterMap_append]
        exact (messages_append _ e).symm
      · simpa using hshadow'
    | @init rs hout hrs =>
      obtain ⟨tr₁, hrun₁, hmsg₁⟩ := run_drains ((List.finRange 4).filter (d.device · ≠ 0)) hrun
      refine ⟨tr' ++ tr₁, _, hrun₁, ?_, hshadow.spin, hshadow.job, ?_⟩
      · have happend : messages (tr' ++ tr₁) = messages tr' ++ messages tr₁ := List.filterMap_append
        rw [happend, hmsg, hmsg₁, List.append_nil, List.filterMap_append]
        exact congrArg messages (List.append_nil _).symm
      · have hone : ∀ i, d.device i ≠ 0 → (s₀.port i).fifo.length ≤ 1 := fun i hi =>
          fifo_le_one hcard hrun (fun c => hshadow.spin ▸ hout c) hi
        have hcount : (tr ++ [none]).countP Option.isNone = tr.countP Option.isNone + 1 := by
          simp
        have hlines : (fun i => (d.exec (Serial.init m).2 rs i).line) = fun i =>
            if d.device i ≠ 0 then ⟨[], (s.port i).sent⟩ else s.port i := by
          funext i
          rw [init_line hm, hrs]
        have hflush : (fun i => if i ∈ (List.finRange 4).filter (d.device · ≠ 0) then
            flush (s₀.port i) else s₀.port i) = fun i =>
            if d.device i ≠ 0 then flush (s₀.port i) else s₀.port i := by
          funext i
          simp
        rw [hcount, hlines, hflush]
        exact hshadow.port.init hone

/-- Without restarts every byte that went into a port is there. -/
theorem stream_isPrefix [Fintype Core] (hcard : Fintype.card Core ≤ 2 ^ 32)
    (h : (outputLts d control).Run tr s) {i : Fin 4} (hi : d.device i ≠ 0) :
    (s.port i).stream <+: (messages tr).flatMap expand ∧
      ((∀ c, s.spin.pc c = .out) → (s.port i).stream = (messages tr).flatMap expand) := by
  obtain ⟨⟨holder, w⟩, done, hinv⟩ := Run.inv hcard h
  rw [hinv.stream i hi, hinv.log, List.flatMap_append]
  constructor
  · refine (List.prefix_append_right_inj _).mpr ?_
    cases holder with
    | none => exact List.nil_prefix
    | some c =>
      have hpre := (hinv.holder c rfl).emitted_isPrefix i
      rw [FifoLock.Line.queue_some, List.map_cons, List.flatMap_cons]
      exact hpre.trans (List.prefix_append _ _)
  · intro hout
    obtain ⟨hq, hholder⟩ := hinv.idle hout
    rw [hq, System.current, hholder]
    rfl

/-- What goes into a port is the output of the calls in the order of their tickets, without some of
its bytes. Each start of a core costs a port at most one. -/
theorem output_with_restarts [Fintype Core] (apicId : Core ↪ BitVec 32) {m : Mem}
    (hm : ∀ i, comPort m i = d.device i) {tr : List (Option (Event Core))}
    (h : (consoleLts d control m).Run tr s) {i : Fin 4} (hi : d.device i ≠ 0) :
    let output := (messages (tr.filterMap id)).flatMap expand
    (s.port i).stream.Sublist output ∧
      ((∀ c, s.spin.pc c = .out) →
        output.length ≤ (s.port i).stream.length + tr.countP Option.isNone) := by
  have hcard := card_le apicId
  obtain ⟨tr', s₀, hrun, hmsg, hshadow⟩ := Shadow.run hcard hm h
  obtain ⟨hpre, hwhole⟩ := stream_isPrefix hcard hrun hi
  have hsub : (s.port i).stream.Sublist (s₀.port i).stream :=
    (hshadow.port.sent i).append (hshadow.port.fifo i ▸ List.Sublist.refl _)
  dsimp only
  rw [← hmsg]
  refine ⟨hsub.trans hpre.sublist, fun hout => ?_⟩
  have hlost := hshadow.port.lost i
  have hfifo := congrArg List.length (hshadow.port.fifo i)
  rw [← hwhole fun c => hshadow.spin ▸ hout c, Uart.stream, Uart.stream, List.length_append,
    List.length_append]
  omega

end

/-- A newline, the second byte of which has not left COM1 when another core starts. -/
theorem output_with_restarts_newline :
    let m : Mem := fun x => if x = 0x400 then 0xf8 else if x = 0x401 then 0x03 else 0
    ∃ (tr : List (Option (Event (Fin 2)))) (s : System (Fin 2)),
      (consoleLts com1 (fun _ _ u => u) m).Run tr s ∧ (s.port 0).stream = [CR] ∧
        (s.port 0).stream.Sublist ((messages (tr.filterMap id)).flatMap expand) := by
  intro m
  have hm : ∀ i, comPort m i = com1.device i := by decide
  clear_value m
  have h0 : (consoleLts com1 (fun _ _ u => u) m).Run []
      ⟨Atomic.LockState.init, fun _ : Fin 2 => ⟨[], 0, .next⟩, fun _ => ⟨[], []⟩⟩ :=
    .init ⟨rfl, fun _ => rfl⟩
  have h1 := h0.step (.print (.call (c := 0) [LF] rfl))
  have h2 := h1.step (.print (.load (c := 0) rfl))
  have h3 := h2.step (.print (.work (c := 0) rfl rfl))
  have h4 := h3.step (.print (.work (c := 0) rfl rfl))
  have h5 := h4.step (.print (.drain (i := 0) rfl))
  have h6 := h5.step (.print (.work (c := 0) rfl rfl))
  have h7 := h6.step (.print (.work (c := 0) rfl rfl))
  have h8 := h7.step (.print (.work (c := 0) rfl rfl))
  have h9 := h8.step (.print (.work (c := 0) rfl rfl))
  have h10 := h9.step (.print (.work (c := 0) rfl rfl))
  have h11 := h10.step (.print (.work (c := 0) rfl rfl))
  have h12 := h11.step (.print (.ret (c := 0) rfl rfl))
  obtain ⟨tr, s, hrun, hout, hsent⟩ : ∃ tr s, (consoleLts com1 (fun _ _ u => u) m).Run tr s ∧
      (∀ c : Fin 2, s.spin.pc c = .out) ∧ (s.port 0).sent = [CR] := ⟨_, _, h12, by decide, rfl⟩
  obtain ⟨rs, hrs⟩ : ∃ rs : Fin 4 → Registers, ∀ i, (rs i).line = s.port i :=
    ⟨fun i => ⟨s.port i, 0, 0xC7, 0x03, 0x0B, 0x01, 0⟩, fun _ => rfl⟩
  have hinit := hrun.step (.init hout hrs)
  have apicId : Fin 2 ↪ BitVec 32 := ⟨fun c => BitVec.ofNat 32 c.val, by decide⟩
  have hline : (com1.exec (Serial.init m).2 rs 0).line.stream = (s.port 0).sent := by
    rw [init_line hm, if_pos (by decide), Uart.stream, List.append_nil, hrs]
  exact ⟨_, _, hinit, hline.trans hsent,
    (output_with_restarts (i := 0) apicId hm hinit (by decide)).1⟩

end Output
end DeliceOS
