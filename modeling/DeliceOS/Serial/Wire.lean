import DeliceOS.Printf.Output
import DeliceOS.Serial.Handshake

/-!
# Serial.Wire

What a port receives of the bytes given to `ComDevices::write`, in terms of the port accesses, and
when a call returns. Here a newline counts like any other byte: its carriage return does not wait,
the byte itself does.

* `Transmits`: the bytes a piece of code outputs to a port, all of them if it ends.
* `transmits_writes`: each byte as often as the port is in the table.
* `writes_ends_iff`: when a call returns.
* `crlf_injective`: the bytes can be read off what the port receives.
-/

namespace DeliceOS
namespace Serial

open Output (crlf cr CR LF)

/-- The accesses so far and, unless a call is still polling, the number of reads so far. -/
abbrev Trace := List Access × Option Nat

def Routine.run (r : Routine) (s : Trace) : Trace :=
  match s.2 with
  | none => s
  | some n => (s.1 ++ (r n).1, (r n).2)

/-- The bytes output to the port `dev`, in order. -/
def received (dev : BitVec 16) (t : List Access) : List (BitVec 8) :=
  t.filterMap fun
    | .outb port v => if port = dev then some v else none
    | .inb _ _ => none

/-- `r` outputs the bytes `bs` to the port `dev`, and has output a part of them when it is cut off. -/
structure Transmits (dev : BitVec 16) (bs : List (BitVec 8)) (r : Routine) : Prop where
  part : ∀ n, received dev (r n).1 <+: bs
  whole : ∀ n n', (r n).2 = some n' → received dev (r n).1 = bs

/-- `r` ends once it has been told `k` times that a port is ready. -/
structure Waits (fuel : Nat) (status : Nat → BitVec 8) (k : Nat) (r : Routine) : Prop where
  count : ∀ n n', (r n).2 = some n' → readies status n' = readies status n + k
  ends : ∀ n N, N ≤ fuel → readies status n + k ≤ readies status N → ∃ n', (r n).2 = some n'

section

variable {fuel k k' : Nat} {status : Nat → BitVec 8} {r r' : Routine} {s : Trace}
variable {dev port : BitVec 16} {bs bs' : List (BitVec 8)} {t t' : List Access}

/-! ## Composition -/

theorem run_seq (r r' : Routine) (s : Trace) : (r.seq r').run s = r'.run (r.run s) := by
  obtain ⟨acc, left⟩ := s
  cases left with
  | none => rfl
  | some n =>
    cases hr : (r n).2 with
    | none =>
      simp only [Routine.run, Routine.seq_none hr, hr]
    | some n' =>
      simp only [Routine.run, Routine.seq_some hr, hr, List.append_assoc]

theorem received_append (dev : BitVec 16) (t t' : List Access) :
    received dev (t ++ t') = received dev t ++ received dev t' := List.filterMap_append

theorem received_outb (port : BitVec 16) (v : BitVec 8) :
    received dev [.outb port v] = if port = dev then [v] else [] := by
  by_cases hp : port = dev
  · simp [received, hp]
  · simp [received, hp]

theorem Transmits.skip : Transmits dev [] .skip where
  part _ := List.nil_prefix
  whole _ _ _ := rfl

theorem Transmits.seq (h : Transmits dev bs r) (h' : Transmits dev bs' r') :
    Transmits dev (bs ++ bs') (r.seq r') where
  part n := by
    cases hr : (r n).2 with
    | none =>
      rw [Routine.seq_none hr]
      exact (h.part n).trans (List.prefix_append _ _)
    | some n' =>
      rw [Routine.seq_some hr, received_append, h.whole n n' hr]
      exact (List.prefix_append_right_inj bs).mpr (h'.part n')
  whole n n'' hn := by
    cases hr : (r n).2 with
    | none =>
      rw [Routine.seq_none hr, hr] at hn
      cases hn
    | some n' =>
      rw [Routine.seq_some hr] at hn ⊢
      rw [received_append, h.whole n n' hr, h'.whole n' n'' hn]

theorem transmits_outb (port : BitVec 16) (v : BitVec 8) :
    Transmits dev (if port = dev then [v] else []) (.outb port v) :=
  ⟨fun _ => received_outb port v ▸ List.prefix_rfl, fun _ _ _ => received_outb port v⟩

theorem Waits.skip : Waits fuel status 0 .skip where
  count n n' h := by
    cases h
    rfl
  ends n N _ _ := ⟨n, rfl⟩

theorem Waits.outb (port : BitVec 16) (v : BitVec 8) : Waits fuel status 0 (.outb port v) where
  count n n' h := by
    cases h
    rfl
  ends n N _ _ := ⟨n, rfl⟩

theorem Waits.seq (h : Waits fuel status k r) (h' : Waits fuel status k' r') :
    Waits fuel status (k + k') (r.seq r') where
  count n n'' hn := by
    cases hr : (r n).2 with
    | none =>
      rw [Routine.seq_none hr, hr] at hn
      cases hn
    | some n' =>
      rw [Routine.seq_some hr] at hn
      have hk := h.count n n' hr
      have hk' := h'.count n' n'' hn
      omega
  ends n N hN hk := by
    obtain ⟨n', hr⟩ := h.ends n N hN (by omega)
    have hcount := h.count n n' hr
    rw [Routine.seq_some hr]
    exact h'.ends n' N hN (by omega)

/-! ## The code -/

/-- Polling outputs nothing. -/
theorem received_waiting (h : Waiting port t) : received dev t = [] := by
  rw [received, List.filterMap_eq_nil_iff]
  intro a ha
  obtain ⟨s, rfl, -⟩ := h a ha
  rfl

theorem transmits_poll (port : BitVec 16) : Transmits dev [] (poll status port fuel) := by
  have hnil : ∀ n, received dev (poll status port fuel n).1 = [] := by
    intro n
    rcases poll_spec status port fuel n with ⟨-, hwait, -⟩ | ⟨n', t, s, heq, hwait, -⟩
    · exact received_waiting hwait
    · rw [heq, received_append, received_waiting hwait]
      rfl
  exact ⟨fun n => hnil n ▸ List.prefix_rfl, fun n n' _ => hnil n⟩

theorem waits_poll (port : BitVec 16) : Waits fuel status 1 (poll status port fuel) where
  count n n' hn := by
    rcases poll_spec status port fuel n with ⟨hnone, -⟩ | ⟨n'', t, s, heq, -, -, hcount⟩
    · rw [hnone] at hn
      cases hn
    · rw [heq] at hn
      cases hn
      exact hcount
  ends n N hN hk := by
    rcases poll_spec status port fuel n with ⟨-, -, hcount⟩ | ⟨n', t, s, heq, -⟩
    · have hmono := readies_mono status (show N ≤ n + fuel by omega)
      omega
    · exact ⟨n', by rw [heq]⟩

/-- A round of the loop sends the byte to its own port. -/
theorem transmits_writeTo (hdev : dev ≠ 0) (port : BitVec 16) (byte : BitVec 8) :
    Transmits dev (if port = dev then crlf byte else []) (writeTo fuel status port byte) := by
  have hcr : Transmits dev (if port = dev then cr byte else [])
      (if byte = LF then .outb port CR else .skip) := by
    by_cases hlf : byte = LF
    · simpa only [cr, hlf, if_true] using transmits_outb port CR
    · rw [if_neg hlf, cr, if_neg hlf, ite_self]
      exact .skip
  have hout : Transmits dev (if port = dev then [byte] else [])
      (if port = 0 then .skip else .seq (poll status (port + 5) fuel) (.outb port byte)) := by
    by_cases hz : port = 0
    · have hne : port ≠ dev := fun h => hdev (h.symm.trans hz)
      rw [if_pos hz, if_neg hne]
      exact .skip
    · rw [if_neg hz]
      exact .seq (transmits_poll _) (transmits_outb port byte)
  have happend : (if port = dev then crlf byte else []) =
      (if port = dev then cr byte else []) ++ if port = dev then [byte] else [] := by
    split
    · rfl
    · rfl
  rw [happend]
  exact .seq hcr hout

theorem waits_writeTo (port : BitVec 16) (byte : BitVec 8) :
    Waits fuel status (if port ≠ 0 then 1 else 0) (writeTo fuel status port byte) := by
  have hcr : Waits fuel status 0 (if byte = 0x0a then .outb port 0x0d else .skip) := by
    split
    · exact .outb _ _
    · exact .skip
  rw [← Nat.zero_add (if port ≠ 0 then 1 else 0)]
  refine .seq hcr ?_
  by_cases hz : port = 0
  · rw [if_pos hz, if_neg (not_not_intro hz)]
    exact .skip
  · rw [if_neg hz, if_pos hz]
    exact .seq (waits_poll _) (.outb _ _)

theorem transmits_writeLoop (hdev : dev ≠ 0) (devs : List (BitVec 16)) (byte : BitVec 8) :
    Transmits dev (List.replicate (devs.count dev) (crlf byte)).flatten
      (writeLoop fuel status devs byte) := by
  induction devs with
  | nil => exact .skip
  | cons port devs ih =>
    have hround : Transmits dev _ (writeTo fuel status port byte) := transmits_writeTo hdev port byte
    have hcount : (List.replicate ((port :: devs).count dev) (crlf byte)).flatten =
        (if port = dev then crlf byte else []) ++
          (List.replicate (devs.count dev) (crlf byte)).flatten := by
      by_cases hp : port = dev
      · simp [hp, List.replicate_succ]
      · simp [hp]
    rw [hcount]
    exact hround.seq ih

theorem waits_writeLoop (devs : List (BitVec 16)) (byte : BitVec 8) :
    Waits fuel status (present devs) (writeLoop fuel status devs byte) := by
  induction devs with
  | nil => exact .skip
  | cons port devs ih =>
    have hround := Waits.seq (waits_writeTo port byte) ih
    have hcount : present (port :: devs) = (if port ≠ 0 then 1 else 0) + present devs := by
      rw [present, present, List.countP_cons, Nat.add_comm]
      simp
    rwa [hcount]

variable {device : Fin 4 → BitVec 16}

/-- Every byte reaches the port as often as the table has it. -/
theorem transmits_writes (hdev : dev ≠ 0) (bytes : List (BitVec 8)) :
    Transmits dev
      (bytes.flatMap fun b => (List.replicate ((List.ofFn device).count dev) (crlf b)).flatten)
      (writes fuel status device bytes) := by
  induction bytes with
  | nil => exact .skip
  | cons byte bytes ih => exact .seq (transmits_writeLoop hdev _ byte) ih

theorem waits_writes (bytes : List (BitVec 8)) :
    Waits fuel status (present (List.ofFn device) * bytes.length)
      (writes fuel status device bytes) := by
  induction bytes with
  | nil => exact .skip
  | cons byte bytes ih =>
    rw [List.length_cons, Nat.mul_succ, Nat.add_comm]
    exact .seq (waits_writeLoop _ byte) ih

/-- Calls return exactly if the ports are ready often enough: once for each byte and port. -/
theorem writes_ends_iff (bytes : List (BitVec 8)) (n : Nat) :
    (∃ fuel n', (writes fuel status device bytes n).2 = some n') ↔
      ∃ N, readies status n + present (List.ofFn device) * bytes.length ≤ readies status N := by
  constructor
  · rintro ⟨fuel, n', h⟩
    exact ⟨n', Nat.le_of_eq ((waits_writes bytes).count n n' h).symm⟩
  · rintro ⟨N, hN⟩
    exact ⟨N, (waits_writes bytes).ends n N (Nat.le_refl N) hN⟩

/-! ## Reading the bytes back -/

theorem crlf_append (bs : List (BitVec 8)) (b : BitVec 8) :
    (bs ++ [b]).flatMap crlf = bs.flatMap crlf ++ cr b ++ [b] := by
  simp [crlf]

/-- From the last byte back: it stands there itself, and a newline has its carriage return. -/
theorem crlf_injective : Function.Injective fun bs : List (BitVec 8) => bs.flatMap crlf := by
  intro bs
  dsimp only
  induction bs using List.reverseRecOn with
  | nil =>
    intro bs' h
    cases bs' using List.reverseRecOn with
    | nil => rfl
    | append_singleton bs' b' =>
      rw [crlf_append] at h
      simp at h
  | append_singleton bs b ih =>
    intro bs' h
    cases bs' using List.reverseRecOn with
    | nil =>
      rw [crlf_append] at h
      simp at h
    | append_singleton bs' b' =>
      rw [crlf_append, crlf_append] at h
      obtain ⟨hfront, hlast⟩ := List.append_inj' h rfl
      obtain rfl : b = b' := List.singleton_inj.mp hlast
      rw [List.append_cancel_right_eq] at hfront
      rw [ih hfront]

end

end Serial
end DeliceOS
