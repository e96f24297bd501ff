import DeliceOS.Printf.Plain
import DeliceOS.Serial.Wire

/-!
# Boot.Console

The console from end to end: `printf_` on top of `_putchar_serial`, and the memory map from the
answers of the BIOS to the bytes a port receives.

* `putcharSerial_fold`: the characters of a text are the bytes of successive calls of
  `ComDevices::write`.
* `printf_on_wire`: what a port receives of a call of `printf_`, and when the call returns.
* `bootLog_eq_iff`: what the log on a serial line tells about the map of the BIOS.
-/

namespace DeliceOS
namespace Console

open Base Numeral Boot Format Serial
open Output (crlf)

/-- A `char` of a text as a byte. -/
def byteOf (c : Char) : BitVec 8 := BitVec.ofNat 8 c.toNat

/-- The bytes `_out_char` passes on. -/
def bytes (t : List Char) : List (BitVec 8) := (t.filter (· != NUL)).map byteOf

/-- What a port receives of a text. -/
def wire (t : List Char) : List (BitVec 8) := (bytes t).flatMap crlf

/-- `_putchar_serial` -/
def putcharSerial (fuel : Nat) (status : Nat → BitVec 8) (device : Fin 4 → BitVec 16) (byte : Char)
    (s : Trace) : Trace :=
  (write fuel status device (byteOf byte)).run s

section

variable {fuel : Nat} {status : Nat → BitVec 8} {device : Fin 4 → BitVec 16} {dev : BitVec 16}
variable {env : Env} {format t t' : List Char} {va va' : Va}

theorem run_skip (s : Trace) : Routine.run .skip s = s := by
  obtain ⟨acc, left⟩ := s
  cases left with
  | none => rfl
  | some n => simp [Routine.run, Routine.skip]

theorem putcharSerial_fold (cs : List Char) (s : Trace) :
    cs.foldl (fun s c => putcharSerial fuel status device c s) s =
      (writes fuel status device (cs.map byteOf)).run s := by
  induction cs generalizing s with
  | nil => exact (run_skip s).symm
  | cons c cs ih =>
    rw [List.foldl_cons, ih, List.map_cons, writes, run_seq]
    rfl

/-- In a table that has the port once. -/
theorem transmits_bytes (hdev : dev ≠ 0) (hone : (List.ofFn device).count dev = 1)
    (bs : List (BitVec 8)) : Transmits dev (bs.flatMap crlf) (writes fuel status device bs) := by
  have hall : Transmits dev _ (writes fuel status device bs) := transmits_writes hdev bs
  have hcrlf : (fun b => (List.replicate 1 (crlf b)).flatten) = crlf := by
    funext b
    simp
  rwa [hone, hcrlf] at hall

/-- A record with the fields the kernel does not read left out. -/
def record (e : Entry) : Descriptor := ⟨e.addr, e.len, e.type, 0⟩

/-- The loop of `start_kernel` over the map `get_physical` has left. -/
def bootLog {σ : Type} (env : Env) (putcharSerial : Char → σ → σ) (bios : List Answer) (m : Mem)
    (s : σ) : Option σ :=
  (handOver bios m).bind fun es => printLog env putcharSerial (es.map record) s

/-- A `char` that is not NUL. -/
def IsChar (c : Char) : Prop := c ≠ NUL ∧ c.toNat < 256

instance : DecidablePred IsChar := fun _ => inferInstanceAs (Decidable (_ ∧ _))

theorem bytes_eq (h : ∀ c ∈ t, IsChar c) : bytes t = t.map byteOf := by
  rw [bytes, List.filter_eq_self.mpr]
  intro c hc
  simpa using (h c hc).1

theorem bytes_inj (h : ∀ c ∈ t, IsChar c) (h' : ∀ c ∈ t', IsChar c) (heq : bytes t = bytes t') :
    t = t' := by
  have hback : ∀ {t : List Char}, (∀ c ∈ t, IsChar c) →
      (bytes t).map (fun b => Char.ofNat b.toNat) = t := by
    intro t ht
    rw [bytes_eq ht, List.map_map]
    refine (List.map_congr_left fun c hc => ?_).trans (List.map_id t)
    have hlt : (byteOf c).toNat = c.toNat := by
      rw [byteOf, BitVec.toNat_ofNat]
      exact Nat.mod_eq_of_lt (ht c hc).2
    rw [Function.comp_apply, hlt, Char.ofNat_toNat, id]
  rw [← hback h, heq, hback h']

theorem isChar_digit : ∀ d < 16, IsChar d.digitChar := by decide

theorem isChar_text : ∀ c ∈ "e820 entry addr entry ".toList, IsChar c := by
  simp [IsChar, NUL]

theorem isChar_log (ds : List Descriptor) : ∀ c ∈ log ds, IsChar c := by
  intro c hc
  by_contra hno
  have hne : ∀ d < 16, c ≠ d.digitChar := fun d hd h => hno (h ▸ isChar_digit d hd)
  have hminus : c ≠ '-' := fun h => hno (h ▸ by decide)
  have hspace : c ≠ ' ' := fun h => hno (h ▸ by decide)
  have hnewline : c ≠ '\n' := fun h => hno (h ▸ by decide)
  obtain ⟨d, -, hline⟩ := List.mem_flatMap.mp hc
  rw [line_eq] at hline
  unfold body at hline
  simp only [List.mem_append, List.mem_cons, List.not_mem_nil, or_false, hspace, hnewline,
    false_or] at hline
  rcases hline with h | h | h | h
  · exact hno (isChar_text c h)
  · exact notMem_toDigits (by decide) (by decide) hne _ h
  · exact notMem_toDigits (by decide) (by decide) hne _ h
  · exact notMem_decimal hne hminus _ h

/-- What a port has received of the finished log. -/
theorem bootLog_received {bios : List Answer} {m : Mem} {es : List Entry} {acc : List Access} {n : Nat}
    (hover : handOver bios m = some es) (hdev : dev ≠ 0) (hone : (List.ofFn device).count dev = 1)
    (h : bootLog env (putcharSerial fuel status device) bios m ([], some 0) = some (acc, some n)) :
    received dev acc = wire (log (es.map record)) := by
  rw [bootLog, hover, Option.bind_some, printLog_eq, Option.some.injEq, putcharSerial_fold,
    ← bytes_eq (isChar_log _)] at h
  have htrans : Transmits dev _ (writes fuel status device (bytes (log (es.map record)))) :=
    transmits_bytes hdev hone _
  have hwrites : writes fuel status device (bytes (log (es.map record))) 0 = (acc, some n) := h
  have hwhole := htrans.whole 0 n (congrArg Prod.snd hwrites)
  rwa [hwrites] at hwhole

theorem bootLog_ends {bios : List Answer} {m : Mem} {es : List Entry} (hover : handOver bios m = some es)
    (hready : present (List.ofFn device) * (bytes (log (es.map record))).length ≤
      readies status fuel) :
    ∃ acc n, bootLog env (putcharSerial fuel status device) bios m ([], some 0) =
      some (acc, some n) := by
  have hzero : readies status 0 = 0 := Nat.count_zero _
  have hwaits : Waits fuel status _ (writes fuel status device (bytes (log (es.map record)))) :=
    waits_writes _
  obtain ⟨n, hn⟩ := hwaits.ends 0 fuel (Nat.le_refl fuel) (by rwa [hzero, Nat.zero_add])
  refine ⟨(writes fuel status device (bytes (log (es.map record))) 0).1, n, ?_⟩
  rw [bootLog, hover, Option.bind_some, printLog_eq, putcharSerial_fold, ← bytes_eq (isChar_log _),
    ← hn]
  rfl

/-- Up to 21 records lie below the count, and the kernel gets them all. -/
theorem handOver_short {l : List (Descriptor × BitVec 32)} (hl : ∀ p ∈ l, p.2 ≠ 0)
    (hlen : l.length ≤ 21) (m : Mem) :
    handOver (endCarry l) m = some (l.map fun p => p.1.entry) := by
  obtain ⟨m', hloop, hover⟩ := handOver_carry l hl m
  obtain ⟨hrec, -⟩ := getPhysicalLoop_records l hl _ _ _ _ _ (by simp [e820Addr]; omega) hloop
  have hcount := entryCount_write m' l.length
  rw [Nat.mod_eq_of_lt (by omega)] at hcount
  rw [hover, Option.some.injEq]
  refine List.ext_getElem (by simp [visited, hcount]) fun i h h' => ?_
  rw [List.length_map] at h'
  simp only [visited, List.getElem_map, List.getElem_range]
  rw [(entryAt_under_count m' _ i).mpr fun hi => absurd hi (by omega)]
  exact hrec i h'

theorem log_record (l : List (Descriptor × BitVec 32)) :
    log ((l.map fun p => p.1.entry).map record) = log (l.map Prod.fst) := by
  simp only [log, List.map_map, List.flatMap_map]
  rfl

variable {dev' : BitVec 16} {status' : Nat → BitVec 8} {device' : Fin 4 → BitVec 16} {fuel' : Nat}

/-- Two machines have the same log on a serial line exactly if their maps agree in the addresses,
the types and the low halves of the lengths. -/
theorem bootLog_eq_iff {l l' : List (Descriptor × BitVec 32)} {m m' : Mem}
    {acc acc' : List Access} {n n' : Nat}
    (hl : (∀ p ∈ l, p.2 ≠ 0) ∧ l.length ≤ 21) (hl' : (∀ p ∈ l', p.2 ≠ 0) ∧ l'.length ≤ 21)
    (hdev : dev ≠ 0 ∧ (List.ofFn device).count dev = 1)
    (hdev' : dev' ≠ 0 ∧ (List.ofFn device').count dev' = 1)
    (h : bootLog env (putcharSerial fuel status device) (endCarry l) m ([], some 0) =
      some (acc, some n))
    (h' : bootLog env (putcharSerial fuel' status' device') (endCarry l') m' ([], some 0) =
      some (acc', some n')) :
    received dev acc = received dev' acc' ↔
      List.Forall₂ SameText (l.map Prod.fst) (l'.map Prod.fst) := by
  rw [bootLog_received (handOver_short hl.1 hl.2 m) hdev.1 hdev.2 h,
    bootLog_received (handOver_short hl'.1 hl'.2 m') hdev'.1 hdev'.2 h', log_record,
    log_record, ← log_eq_iff]
  constructor
  · exact fun heq => bytes_inj (isChar_log _) (isChar_log _) (crlf_injective heq)
  · exact fun heq => congrArg wire heq

/-- Two maps that differ in the high half of a length, on COM1 alone. -/
theorem bootLog_lengths :
    let env : Env := ⟨fun _ => [NUL], fun _ _ _ _ => [], fun _ _ _ _ => []⟩
    let device : Fin 4 → BitVec 16 := fun i => if i.val = 0 then 0x3f8 else 0
    let d : Descriptor := ⟨0x100000000, 0x100000000, 1, 1⟩
    let d' : Descriptor := ⟨0x100000000, 0x300000000, 1, 1⟩
    ∃ acc acc' n n',
      bootLog env (putcharSerial 100 (fun _ => 0x60) device) (endCarry [(d, 1)]) (fun _ => 0)
          ([], some 0) = some (acc, some n) ∧
        bootLog env (putcharSerial 100 (fun _ => 0x60) device) (endCarry [(d', 1)]) (fun _ => 0)
          ([], some 0) = some (acc', some n') ∧
        received 0x3f8 acc = received 0x3f8 acc' := by
  intro env device d d'
  have hready : readies (fun _ => 0x60) 100 = 100 := readies_const (by decide) 100
  have hshort : ∀ d : Descriptor, (∀ p ∈ [(d, 1#32)], p.2 ≠ 0) ∧ [(d, 1#32)].length ≤ 21 :=
    fun _ => ⟨by simp, by simp⟩
  have hdev : 0x3f8#16 ≠ 0 ∧ (List.ofFn device).count 0x3f8#16 = 1 := ⟨by decide, by decide⟩
  obtain ⟨acc, n, h⟩ : ∃ acc n, bootLog env (putcharSerial 100 (fun _ => 0x60) device)
      (endCarry [(d, 1)]) (fun _ => 0) ([], some 0) = some (acc, some n) :=
    bootLog_ends (handOver_short (hshort d).1 (hshort d).2 _) (by rw [hready]; decide +kernel)
  obtain ⟨acc', n', h'⟩ : ∃ acc n, bootLog env (putcharSerial 100 (fun _ => 0x60) device)
      (endCarry [(d', 1)]) (fun _ => 0) ([], some 0) = some (acc, some n) :=
    bootLog_ends (handOver_short (hshort d').1 (hshort d').2 _) (by rw [hready]; decide +kernel)
  refine ⟨acc, acc', n, n', h, h', ?_⟩
  exact (bootLog_eq_iff (hshort d) (hshort d') hdev hdev h h').mpr (.cons (by decide) .nil)

end

end Console
end DeliceOS
