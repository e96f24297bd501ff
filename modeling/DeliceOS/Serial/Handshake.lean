import Mathlib.Data.BitVec
import Mathlib.Data.Nat.Count

/-!
# Serial.Handshake

The port accesses of `ComDevices::write`, one byte after the other. The devices answer the reads
of their line status as they like; a polling loop is cut off after `fuel` reads.

* `Sends`: what a piece of code does to the ports, and how many times it has to be told that a
  transmitter is empty.
* `writes_respect_iff`: when every byte output waits for its port.
-/

namespace DeliceOS
namespace Serial

inductive Access where
  | inb (port : BitVec 16) (v : BitVec 8)
  | outb (port : BitVec 16) (v : BitVec 8)
  deriving DecidableEq

def Access.port : Access → BitVec 16
  | .inb port _ => port
  | .outb port _ => port

/-- Code that accesses ports: from the number of reads so far to the accesses and, unless it is
still polling, the number of reads after them. -/
abbrev Routine := Nat → List Access × Option Nat

namespace Routine

def skip : Routine := fun n => ([], some n)

def outb (port : BitVec 16) (v : BitVec 8) : Routine := fun n => ([.outb port v], some n)

def seq (r r' : Routine) : Routine := fun n =>
  match (r n).2 with
  | some n' => ((r n).1 ++ (r' n').1, (r' n').2)
  | none => r n

end Routine

section

-- `status n` is what read `n` returns
variable (fuel : Nat) (status : Nat → BitVec 8)

/-- `while((io::inb(port) & 0x20) == 0);` -/
def poll (port : BitVec 16) : Nat → Routine
  | 0, _ => ([], none)
  | fuel + 1, n =>
    if status n &&& 0x20 = 0 then
      let r := poll port fuel (n + 1)
      (.inb port (status n) :: r.1, r.2)
    else ([.inb port (status n)], some (n + 1))

/-- One round of the loop over `device`. -/
def writeTo (dev : BitVec 16) (byte : BitVec 8) : Routine :=
  .seq (if byte = 0x0a then .outb dev 0x0d else .skip)
    (if dev = 0 then .skip else .seq (poll status (dev + 5) fuel) (.outb dev byte))

def writeLoop : List (BitVec 16) → BitVec 8 → Routine
  | [], _ => .skip
  | dev :: rest, byte => .seq (writeTo fuel status dev byte) (writeLoop rest byte)

/-- `ComDevices::write`. -/
def write (device : Fin 4 → BitVec 16) (byte : BitVec 8) : Routine :=
  writeLoop fuel status (List.ofFn device) byte

/-- Successive calls of it. -/
def writes (device : Fin 4 → BitVec 16) : List (BitVec 8) → Routine
  | [] => .skip
  | byte :: bytes => .seq (write fuel status device byte) (writes device bytes)

end

/-! ## The protocol -/

/-- Bit 5 of a line status: the transmitter is empty. -/
def Ready (v : BitVec 8) : Prop := v &&& 0x20 ≠ 0

instance : DecidablePred Ready := fun _ => inferInstanceAs (Decidable (_ ≠ _))

/-- A register of a present port is accessed, and a byte is only output to a port after a read of
its line status that shows it ready, with no output to it in between. -/
structure Respects (device : List (BitVec 16)) (t : List Access) : Prop where
  register : ∀ a ∈ t, ∃ dev ∈ device, dev ≠ 0 ∧ ∃ k < 8, a.port = dev + BitVec.ofNat 16 k
  ready : ∀ pre dev v post, t = pre ++ .outb dev v :: post → dev ∈ device → dev ≠ 0 →
    ∃ before s since, pre = before ++ .inb (dev + 5) s :: since ∧ Ready s ∧
      ∀ v', .outb dev v' ∉ since

/-- Every answer that a port is ready has been made use of. -/
def Answered (t : List Access) : Prop :=
  ∀ pre dev s post, t = pre ++ .inb (dev + 5) s :: post → Ready s → ∃ v, .outb dev v ∈ post

/-- Polling that has not met with success. -/
def Waiting (port : BitVec 16) (t : List Access) : Prop := ∀ a ∈ t, ∃ s, a = .inb port s ∧ ¬ Ready s

variable {device : List (BitVec 16)} {t t' : List Access}

theorem Respects.nil : Respects device [] where
  register := nofun
  ready pre dev v post h := absurd h (by simp)

/-- An element of `t ++ t'` is one of `t'` or one of `t`. -/
theorem split_append {pre post : List Access} {a : Access} (h : t ++ t' = pre ++ a :: post) :
    (∃ mid, pre = t ++ mid ∧ t' = mid ++ a :: post) ∨
      ∃ mid, t = pre ++ a :: mid ∧ post = mid ++ t' := by
  rcases List.append_eq_append_iff.mp h with ⟨mid, hpre, ht'⟩ | ⟨mid, ht, hpost⟩
  · exact .inl ⟨mid, hpre, ht'⟩
  · cases mid with
    | nil => exact .inl ⟨[], by rw [ht]; simp, hpost.symm⟩
    | cons b mid =>
      rw [List.cons_append, List.cons.injEq] at hpost
      exact .inr ⟨mid, hpost.1 ▸ ht, hpost.2⟩

theorem Respects.append (h : Respects device t) (h' : Respects device t') :
    Respects device (t ++ t') where
  register a ha := (List.mem_append.mp ha).elim (h.register a) (h'.register a)
  ready pre dev v post heq hdev hne := by
    rcases split_append heq with ⟨mid, rfl, ht'⟩ | ⟨mid, ht, -⟩
    · obtain ⟨before, s, since, rfl, hs, hsince⟩ := h'.ready mid dev v post ht' hdev hne
      exact ⟨t ++ before, s, since, by simp, hs, hsince⟩
    · exact h.ready pre dev v mid ht hdev hne

theorem Respects.left (h : Respects device (t ++ t')) : Respects device t where
  register a ha := h.register a (List.mem_append_left _ ha)
  ready pre dev v post heq := h.ready pre dev v (post ++ t') (by rw [heq]; simp)

theorem Answered.nil : Answered [] := fun _ _ _ _ h => absurd h (by simp)

theorem Answered.append (h : Answered t) (h' : Answered t') : Answered (t ++ t') := by
  intro pre dev s post heq hs
  rcases split_append heq with ⟨mid, -, ht'⟩ | ⟨mid, ht, rfl⟩
  · exact h' mid dev s post ht' hs
  · obtain ⟨v, hv⟩ := h pre dev s mid ht hs
    exact ⟨v, List.mem_append_left _ hv⟩

theorem Waiting.respects {dev : BitVec 16} (h : Waiting (dev + 5) t) (hdev : dev ∈ device)
    (hne : dev ≠ 0) : Respects device t where
  register a ha := by
    obtain ⟨s, rfl, _⟩ := h a ha
    exact ⟨dev, hdev, hne, 5, by decide, rfl⟩
  ready pre dev' v post heq := by
    obtain ⟨s, hs, _⟩ := h (.outb dev' v) (by rw [heq]; simp)
    cases hs

theorem Waiting.answered {port : BitVec 16} (h : Waiting port t) : Answered t := by
  intro pre dev s post heq hs
  obtain ⟨s', heq', hs'⟩ := h (.inb (dev + 5) s) (by rw [heq]; simp)
  cases heq'
  exact absurd hs hs'

/-- The read that ends the polling, and the output. -/
theorem respects_output {dev : BitVec 16} {s : BitVec 8} (hdev : dev ∈ device) (hne : dev ≠ 0)
    (hs : Ready s) (v : BitVec 8) : Respects device [.inb (dev + 5) s, .outb dev v] where
  register a ha := by
    rcases List.mem_pair.mp ha with rfl | rfl
    · exact ⟨dev, hdev, hne, 5, by decide, rfl⟩
    · exact ⟨dev, hdev, hne, 0, by decide, by simp [Access.port]⟩
  ready pre dev' v' post heq _ _ := by
    rcases pre with _ | ⟨x, _ | ⟨y, pre⟩⟩
    · simp at heq
    · simp only [List.cons_append, List.nil_append, List.cons.injEq, Access.outb.injEq] at heq
      obtain ⟨rfl, ⟨rfl, rfl⟩, rfl⟩ := heq
      exact ⟨[], s, [], rfl, hs, by simp⟩
    · simp at heq

theorem answered_output {dev : BitVec 16} {s v : BitVec 8} :
    Answered [.inb (dev + 5) s, .outb dev v] := by
  intro pre dev' s' post heq _
  rcases pre with _ | ⟨x, _ | ⟨y, pre⟩⟩
  · simp only [List.nil_append, List.cons.injEq, Access.inb.injEq] at heq
    obtain ⟨⟨hdev, rfl⟩, rfl⟩ := heq
    rw [add_right_cancel hdev]
    exact ⟨v, by simp⟩
  · simp at heq
  · simp at heq

/-! ## The code -/

variable {fuel : Nat} {status : Nat → BitVec 8} {r r' : Routine} {n n' : Nat}

theorem Routine.seq_none (h : (r n).2 = none) : r.seq r' n = r n := by
  rw [Routine.seq, h]

theorem Routine.seq_some (h : (r n).2 = some n') :
    r.seq r' n = ((r n).1 ++ (r' n').1, (r' n').2) := by
  rw [Routine.seq, h]

/-- How many of the first `n` reads show a port ready. -/
def readies (status : Nat → BitVec 8) (n : Nat) : Nat := Nat.count (fun k => Ready (status k)) n

/-- `r` respects the protocol; it ends once it has been told `k` times that a port is ready, and has
then made use of that. -/
structure Sends (fuel : Nat) (status : Nat → BitVec 8) (device : List (BitVec 16)) (k : Nat)
    (r : Routine) : Prop where
  respects : ∀ n, Respects device (r n).1
  answered : ∀ n n', (r n).2 = some n' →
    Answered (r n).1 ∧ readies status n' = readies status n + k
  ends : ∀ n N, N ≤ fuel → readies status n + k ≤ readies status N → ∃ n', (r n).2 = some n'

theorem Sends.skip : Sends fuel status device 0 .skip where
  respects n := .nil
  answered n n' h := by
    cases h
    exact ⟨.nil, rfl⟩
  ends n N _ _ := ⟨n, rfl⟩

theorem Sends.seq {k k' : Nat} (h : Sends fuel status device k r)
    (h' : Sends fuel status device k' r') : Sends fuel status device (k + k') (r.seq r') where
  respects n := by
    cases hr : (r n).2 with
    | none =>
      rw [Routine.seq_none hr]
      exact h.respects n
    | some n' =>
      rw [Routine.seq_some hr]
      exact (h.respects n).append (h'.respects n')
  answered n n'' hn := by
    cases hr : (r n).2 with
    | none =>
      rw [Routine.seq_none hr, hr] at hn
      cases hn
    | some n' =>
      rw [Routine.seq_some hr] at hn ⊢
      obtain ⟨hans, hk⟩ := h.answered n n' hr
      obtain ⟨hans', hk'⟩ := h'.answered n' n'' hn
      exact ⟨hans.append hans', by omega⟩
  ends n N hN hk := by
    obtain ⟨n', hr⟩ := h.ends n N hN (by omega)
    have hk' := (h.answered n n' hr).2
    rw [Routine.seq_some hr]
    exact h'.ends n' N hN (by omega)

/-- The polling meets with success at the next answer that shows the port ready. -/
theorem poll_spec (status : Nat → BitVec 8) (port : BitVec 16) (fuel n : Nat) :
    ((poll status port fuel n).2 = none ∧ Waiting port (poll status port fuel n).1 ∧
        readies status (n + fuel) = readies status n) ∨
      ∃ n' t s, poll status port fuel n = (t ++ [.inb port s], some n') ∧ Waiting port t ∧
        Ready s ∧ readies status n' = readies status n + 1 := by
  induction fuel generalizing n with
  | zero => exact .inl ⟨rfl, nofun, rfl⟩
  | succ fuel ih =>
    have hsucc : readies status (n + 1) = readies status n + if Ready (status n) then 1 else 0 :=
      Nat.count_succ _ _
    by_cases hs : Ready (status n)
    · refine .inr ⟨n + 1, [], status n, ?_, nofun, hs, ?_⟩
      · rw [poll, if_neg hs]
        rfl
      · rw [hsucc, if_pos hs]
    · have hsame : readies status (n + 1) = readies status n := by
        rw [hsucc, if_neg hs]
        rfl
      have hwait : ∀ t, Waiting port t → Waiting port (.inb port (status n) :: t) := by
        intro t ht a ha
        rcases List.mem_cons.mp ha with rfl | ha
        · exact ⟨_, rfl, hs⟩
        · exact ht a ha
      rw [poll, if_pos (not_not.mp hs)]
      rcases ih (n + 1) with ⟨hnone, ht, hcount⟩ | ⟨n', t, s, heq, ht, hs', hcount⟩
      · refine .inl ⟨hnone, hwait _ ht, ?_⟩
        rw [← hsame, ← hcount, Nat.add_right_comm, Nat.add_assoc]
      · refine .inr ⟨n', _, s, ?_, hwait _ ht, hs', by omega⟩
        rw [heq]
        rfl

theorem readies_mono (status : Nat → BitVec 8) : Monotone (readies status) := Nat.count_monotone _

theorem readies_const {v : BitVec 8} (hv : Ready v) (n : Nat) : readies (fun _ => v) n = n :=
  Nat.count_iff_forall.mpr fun _ _ => hv

/-- Polling a port and sending it the byte. -/
theorem sends_output {dev : BitVec 16} (hdev : dev ∈ device) (hne : dev ≠ 0) (byte : BitVec 8) :
    Sends fuel status device 1 (.seq (poll status (dev + 5) fuel) (.outb dev byte)) := by
  have hcases : ∀ n, let r := Routine.seq (poll status (dev + 5) fuel) (.outb dev byte) n
      (r.2 = none ∧ Waiting (dev + 5) r.1 ∧ readies status (n + fuel) = readies status n) ∨
        ∃ n' t s, r = (t ++ [.inb (dev + 5) s, .outb dev byte], some n') ∧ Waiting (dev + 5) t ∧
          Ready s ∧ readies status n' = readies status n + 1 := by
    intro n
    rcases poll_spec status (dev + 5) fuel n with ⟨hnone, hwait⟩ | ⟨n', t, s, heq, hrest⟩
    · rw [Routine.seq_none hnone]
      exact .inl ⟨hnone, hwait⟩
    · rw [Routine.seq_some (congrArg Prod.snd heq), heq]
      refine .inr ⟨n', t, s, ?_, hrest⟩
      simp [Routine.outb]
  refine ⟨fun n => ?_, fun n n' hn => ?_, fun n N hN hk => ?_⟩
  · rcases hcases n with ⟨_, hwait, _⟩ | ⟨n', t, s, heq, hwait, hs, _⟩
    · exact hwait.respects hdev hne
    · rw [heq]
      exact (hwait.respects hdev hne).append (respects_output hdev hne hs byte)
  · rcases hcases n with ⟨hnone, _⟩ | ⟨n'', t, s, heq, hwait, _, hcount⟩
    · rw [hnone] at hn
      cases hn
    · rw [heq] at hn ⊢
      cases hn
      exact ⟨hwait.answered.append answered_output, hcount⟩
  · rcases hcases n with ⟨_, _, hcount⟩ | ⟨n', t, s, heq, _⟩
    · have hmono := readies_mono status (show N ≤ n + fuel by omega)
      omega
    · exact ⟨n', by rw [heq]⟩

/-- How many slots hold a port. -/
def present (device : List (BitVec 16)) : Nat := device.countP (· ≠ 0)

/-- Any byte but a newline waits for each port. -/
theorem sends_writeLoop {byte : BitVec 8} (hbyte : byte ≠ 0x0a) (devs : List (BitVec 16))
    (h : ∀ dev ∈ devs, dev ∈ device) :
    Sends fuel status device (present devs) (writeLoop fuel status devs byte) := by
  induction devs with
  | nil => exact .skip
  | cons dev devs ih =>
    have hrest := ih fun dev hdev => h dev (List.mem_cons_of_mem _ hdev)
    rw [writeLoop, writeTo, if_neg hbyte]
    by_cases hne : dev = 0
    · have hcount : present (dev :: devs) = 0 + 0 + present devs := by simp [present, hne]
      rw [if_pos hne, hcount]
      exact .seq (.seq .skip .skip) hrest
    · have hcount : present (dev :: devs) = 0 + 1 + present devs := by
        rw [present, List.countP_cons_of_pos (by simpa using hne), present]
        omega
      rw [if_neg hne, hcount]
      exact .seq (.seq .skip (sends_output (h dev List.mem_cons_self) hne byte)) hrest

theorem sends_writes {device : Fin 4 → BitVec 16} {bytes : List (BitVec 8)}
    (h : (0x0a : BitVec 8) ∉ bytes) : Sends fuel status (List.ofFn device)
      (present (List.ofFn device) * bytes.length) (writes fuel status device bytes) := by
  induction bytes with
  | nil => exact .skip
  | cons byte bytes ih =>
    rw [List.mem_cons, not_or] at h
    rw [writes, List.length_cons, Nat.mul_succ, Nat.add_comm]
    exact .seq (sends_writeLoop (Ne.symm h.1) _ fun _ hdev => hdev) (ih h.2)

/-! ## Newlines -/

theorem Routine.seq_fst (r r' : Routine) (n : Nat) : ∃ more, (r.seq r' n).1 = (r n).1 ++ more := by
  cases hr : (r n).2 with
  | none => exact ⟨[], by rw [Routine.seq_none hr, List.append_nil]⟩
  | some n' => exact ⟨_, by rw [Routine.seq_some hr]⟩

theorem Routine.skip_seq (r : Routine) : Routine.seq .skip r = r := by
  funext n
  rw [Routine.seq_some (show (Routine.skip n).2 = some n from rfl)]
  rfl

theorem Routine.seq_assoc (r r' r'' : Routine) : (r.seq r').seq r'' = r.seq (r'.seq r'') := by
  funext n
  cases hr : (r n).2 with
  | none => rw [Routine.seq_none hr, Routine.seq_none (by rw [Routine.seq_none hr]; exact hr),
      Routine.seq_none hr]
  | some n' =>
    have hseq : r.seq r' n = ((r n).1 ++ (r' n').1, (r' n').2) := Routine.seq_some hr
    cases hr' : (r' n').2 with
    | none =>
      rw [Routine.seq_some hr, Routine.seq_none hr', Routine.seq_none (by rw [hseq]; exact hr'), hseq]
    | some n'' =>
      rw [Routine.seq_some hr, Routine.seq_some hr', Routine.seq_some (by rw [hseq]; exact hr'), hseq]
      simp

theorem writes_append (fuel : Nat) (status : Nat → BitVec 8) (device : Fin 4 → BitVec 16)
    (bytes bytes' : List (BitVec 8)) : writes fuel status device (bytes ++ bytes') =
      .seq (writes fuel status device bytes) (writes fuel status device bytes') := by
  induction bytes with
  | nil => rw [writes, Routine.skip_seq, List.nil_append]
  | cons byte bytes ih => rw [List.cons_append, writes, writes, ih, Routine.seq_assoc]

theorem writeLoop_starts (fuel : Nat) (status : Nat → BitVec 8) (n : Nat) (dev : BitVec 16)
    (devs : List (BitVec 16)) : ∃ more,
      (writeLoop fuel status (dev :: devs) 0x0a n).1 = .outb dev 0x0d :: more := by
  obtain ⟨more, hmore⟩ := Routine.seq_fst (writeTo fuel status dev 0x0a)
    (writeLoop fuel status devs 0x0a) n
  obtain ⟨more', hmore'⟩ := Routine.seq_fst (.outb dev 0x0d)
    (if dev = 0 then .skip else .seq (poll status (dev + 5) fuel) (.outb dev 0x0a)) n
  refine ⟨more' ++ more, ?_⟩
  rw [writeLoop, hmore, writeTo, if_pos rfl, hmore']
  rfl

/-- The carriage return goes to port 0 as long as the slots are empty, and then to the first port
without a wait. -/
theorem writeLoop_newline (fuel : Nat) (status : Nat → BitVec 8) (n : Nat)
    {devs : List (BitVec 16)} (h : ∃ dev ∈ devs, dev ≠ 0) :
    ∃ k first rest, first ∈ devs ∧ first ≠ 0 ∧ (writeLoop fuel status devs 0x0a n).1 =
      List.replicate k (.outb 0 0x0d) ++ .outb first 0x0d :: rest := by
  induction devs with
  | nil => simp at h
  | cons dev devs ih =>
    by_cases hne : dev = 0
    · obtain ⟨dev', hmem, hne'⟩ := h
      have htail : dev' ∈ devs :=
        (List.mem_cons.mp hmem).resolve_left fun heq => hne' (heq.trans hne)
      obtain ⟨k, first, rest, hfirst, hnz, heq⟩ := ih ⟨dev', htail, hne'⟩
      have hskip : (writeLoop fuel status (dev :: devs) 0x0a n).1 =
          .outb 0 0x0d :: (writeLoop fuel status devs 0x0a n).1 := by
        simp [writeLoop, writeTo, Routine.seq, Routine.outb, Routine.skip, hne]
      refine ⟨k + 1, first, rest, List.mem_cons_of_mem _ hfirst, hnz, ?_⟩
      rw [hskip, heq]
      rfl
    · obtain ⟨more, hmore⟩ := writeLoop_starts fuel status n dev devs
      exact ⟨0, dev, more, List.mem_cons_self, hne, hmore⟩

/-- What comes before the carriage return leaves no answer to use for it. -/
theorem not_respects_newline {more : List Access} {device : Fin 4 → BitVec 16} {n : Nat}
    (h : Answered t) :
    ¬ Respects (List.ofFn device) (t ++ ((write fuel status device 0x0a n).1 ++ more)) := by
  intro hr
  by_cases hport : ∃ dev ∈ List.ofFn device, dev ≠ 0
  · obtain ⟨k, first, rest, hfirst, hnz, heq⟩ := writeLoop_newline fuel status n hport
    have hzeros : Answered (List.replicate k (.outb 0 0x0d)) := by
      intro pre dev s post hpre _
      have hmem : Access.inb (dev + 5) s ∈ List.replicate k (Access.outb 0 0x0d) := by
        rw [hpre]
        simp
      cases List.eq_of_mem_replicate hmem
    obtain ⟨before, s, since, hpre, hs, hsince⟩ :=
      hr.ready (t ++ List.replicate k (.outb 0 0x0d)) first 0x0d (rest ++ more)
        (by rw [write, heq]; simp) hfirst hnz
    obtain ⟨v, hv⟩ := h.append hzeros before first s since hpre hs
    exact hsince v hv
  · obtain ⟨dev, devs, hcons⟩ := List.exists_cons_of_ne_nil (show List.ofFn device ≠ [] by simp)
    obtain ⟨rest, hrest⟩ := writeLoop_starts fuel status n dev devs
    obtain ⟨dev', hdev', hne, _⟩ := hr.register (.outb dev 0x0d) (by rw [write, hcons, hrest]; simp)
    exact hport ⟨dev', hdev', hne⟩

theorem exists_first_newline (pre post : List (BitVec 8)) (x : BitVec 8) :
    ∃ pre' post', pre ++ x :: post = pre' ++ x :: post' ∧ x ∉ pre' ∧ pre'.length ≤ pre.length := by
  by_cases h : x ∈ pre
  · obtain ⟨pre', mid, rfl, hx⟩ := List.eq_append_cons_of_mem h
    exact ⟨pre', mid ++ x :: post, by simp, hx, by simp⟩
  · exact ⟨pre, post, rfl, h, Nat.le_refl _⟩

/-- The protocol is respected, whatever is written, until a newline is reached. It is not reached
exactly if the ports are not ready once for each byte before it. -/
theorem writes_respect_iff (device : Fin 4 → BitVec 16) (bytes : List (BitVec 8))
    (status : Nat → BitVec 8) :
    (∀ fuel, Respects (List.ofFn device) (writes fuel status device bytes 0).1) ↔
      ∀ pre post, bytes = pre ++ 0x0a :: post →
        ∀ n, readies status n < present (List.ofFn device) * pre.length := by
  constructor
  · intro hr pre post hbytes n
    obtain ⟨pre', post', hfirst, hnl, hle⟩ := exists_first_newline pre post 0x0a
    by_contra hlt
    have hpre : Sends n status (List.ofFn device) _ (writes n status device pre') :=
      sends_writes hnl
    have hneed := Nat.mul_le_mul_left (present (List.ofFn device)) hle
    have hzero : readies status 0 = 0 := Nat.count_zero _
    obtain ⟨n', hn'⟩ := hpre.ends 0 n (Nat.le_refl _) (by omega)
    obtain ⟨more, hmore⟩ := Routine.seq_fst (write n status device 0x0a)
      (writes n status device post') n'
    have hrun := hr n
    rw [hbytes, hfirst, writes_append, Routine.seq_some hn', writes, hmore] at hrun
    exact not_respects_newline (hpre.answered 0 n' hn').1 hrun
  · intro h fuel
    by_cases hnl : (0x0a : BitVec 8) ∈ bytes
    · obtain ⟨pre, post, rfl, hpre⟩ := List.eq_append_cons_of_mem hnl
      have hsends : Sends fuel status (List.ofFn device) _ (writes fuel status device pre) :=
        sends_writes hpre
      cases hn : (writes fuel status device pre 0).2 with
      | none =>
        rw [writes_append, Routine.seq_none hn]
        exact hsends.respects 0
      | some n =>
        have hcount := (hsends.answered 0 n hn).2
        have hzero : readies status 0 = 0 := Nat.count_zero _
        have hfew := h pre post rfl n
        omega
    · exact (sends_writes hnl).respects 0

/-- With COM1 alone the carriage return is output before the first read of a line status. -/
theorem newline_absent :
    let device : Fin 4 → BitVec 16 := fun i => if i.val = 0 then 0x3f8 else 0
    ¬ ∀ fuel, Respects (List.ofFn device) (writes fuel (fun _ => 0x60) device [0x0a] 0).1 := by
  intro device h
  obtain ⟨more, hmore⟩ := Routine.seq_fst (write 1 (fun _ => 0x60) device 0x0a)
    (writes 1 (fun _ => 0x60) device []) 0
  have hrun := h 1
  rw [writes, hmore, ← List.nil_append ((write _ _ _ _ _).1 ++ more)] at hrun
  exact not_respects_newline .nil hrun

end Serial
end DeliceOS
