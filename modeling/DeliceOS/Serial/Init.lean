import DeliceOS.Base.Mem
import DeliceOS.Serial.Handshake
import DeliceOS.Serial.Uart

/-!
# Serial.Init

`ComDevices::init`, down to the registers of the ports. The first two registers of a port are the
divisor latch while bit 7 of the line control register is set, and a write to the FIFO control
register may empty the transmit FIFO.

* `exec_init`: what every port holds afterwards, whatever it held before.
* `exec_outputs`: the accesses of `ComDevices::write` send bytes from then on, as `Serial.Uart` has
  it, and change no other register.
* `init_then_write`: both together.
-/

namespace DeliceOS
namespace Serial

open Base

/-- A port. The registers hold what was written to them last. -/
structure Registers where
  line : Uart
  ier : BitVec 8
  fcr : BitVec 8
  lcr : BitVec 8
  mcr : BitVec 8
  dll : BitVec 8
  dlm : BitVec 8

namespace Registers

def dlab (r : Registers) : Bool := r.lcr.getLsbD 7

/-- The transmit FIFO is emptied on request, and when the FIFOs are turned on or off. -/
def empties (r : Registers) (v : BitVec 8) : Bool :=
  v.getLsbD 2 || v.getLsbD 0 != r.fcr.getLsbD 0

def write (r : Registers) (k : Nat) (v : BitVec 8) : Registers :=
  match k with
  | 0 => if r.dlab then { r with dll := v } else { r with line := r.line.transmit v }
  | 1 => if r.dlab then { r with dlm := v } else { r with ier := v }
  | 2 => { r with fcr := v, line := if r.empties v then { r.line with fifo := [] } else r.line }
  | 3 => { r with lcr := v }
  | 4 => { r with mcr := v }
  | _ => r

/-- After `ComDevices::init`. -/
def initialised (r : Registers) : Registers :=
  ⟨{ r.line with fifo := [] }, if r.dlab then r.ier else 0x00, 0xC7, 0x03, 0x0B, 0x01, 0x00⟩

/-- The writes for a port. The first one meets the divisor latch if it was open, and then leaves the
interrupts as they were. -/
theorem write_init (r : Registers) :
    ((((((r.write 1 0x00).write 3 0x80).write 0 0x01).write 1 0x00).write 2 0xC7).write 3 0x03).write
      4 0x0B = r.initialised := by
  have hopen : ∀ l i f m a b, (⟨l, i, f, 0x80#8, m, a, b⟩ : Registers).dlab = true := by
    intros
    show (0x80#8).getLsbD 7 = true
    decide
  cases h : r.dlab with
  | true => simp [write, initialised, h, hopen, empties]
  | false => simp [write, initialised, h, hopen, empties]

end Registers

/-! ## The code -/

/-- The accesses for a port, in a round of the loop over `device`. -/
def initPort (port : BitVec 16) : List Access :=
  [.outb (port + 1) 0x00, .outb (port + 3) 0x80, .outb (port + 0) 0x01, .outb (port + 1) 0x00,
    .outb (port + 2) 0xC7, .outb (port + 3) 0x03, .outb (port + 4) 0x0B]

/-- One round: the entry of the table, and the accesses. -/
def initSlot (port : BitVec 16) : BitVec 16 × List Access :=
  if port = 0 then (0, []) else (port, initPort port)

/-- The word of the BIOS data area for slot `i`. -/
def comPort (m : Mem) (i : Fin 4) : BitVec 16 := m.read16 (0x0400 + 2 * i.val)

/-- `ComDevices::init` -/
def init (m : Mem) : (Fin 4 → BitVec 16) × List Access :=
  (fun i => (initSlot (comPort m i)).1,
    (List.finRange 4).flatMap fun i => (initSlot (comPort m i)).2)

namespace ComDevices

variable (d : ComDevices)

/-- The effect of an access on the port in slot `i`. -/
def accessAt (a : Access) (i : Fin 4) (r : Registers) : Registers :=
  match a with
  | .outb port v =>
    if d.device i ≠ 0 ∧ (port - d.device i).toNat < 8 then r.write (port - d.device i).toNat v else r
  | .inb _ _ => r

def exec (t : List Access) (rs : Fin 4 → Registers) : Fin 4 → Registers :=
  t.foldl (fun rs a i => d.accessAt a i (rs i)) rs

variable {d}

theorem exec_cons (a : Access) (t : List Access) (rs : Fin 4 → Registers) :
    d.exec (a :: t) rs = d.exec t fun i => d.accessAt a i (rs i) := rfl

theorem exec_append (t t' : List Access) (rs : Fin 4 → Registers) :
    d.exec (t ++ t') rs = d.exec t' (d.exec t rs) := List.foldl_append

/-- A register of a port is in the range of that port only. -/
theorem register_in_range {i : Fin 4} (hi : d.device i ≠ 0) {k : Nat} (hk : k < 8) (j : Fin 4)
    (hj : d.device j ≠ 0) :
    (d.device i + BitVec.ofNat 16 k - d.device j).toNat < 8 ↔ j = i := by
  have hfi := d.fits i hi
  have hfj := d.fits j hj
  have hsub := BitVec.toNat_sub (d.device i + BitVec.ofNat 16 k) (d.device j)
  have hadd := BitVec.toNat_add (d.device i) (BitVec.ofNat 16 k)
  have hk' : (BitVec.ofNat 16 k).toNat = k := by
    rw [BitVec.toNat_ofNat]
    omega
  constructor
  · intro h
    by_contra hij
    have hd := d.disjoint i j (Ne.symm hij) hi hj
    omega
  · rintro rfl
    omega

theorem register_offset {i : Fin 4} {k : Nat} (hk : k < 8) :
    (d.device i + BitVec.ofNat 16 k - d.device i).toNat = k := by
  rw [BitVec.add_comm, BitVec.add_sub_cancel, BitVec.toNat_ofNat]
  omega

/-- Writing register `k` of the port in slot `i`. -/
theorem exec_outb {i : Fin 4} (hi : d.device i ≠ 0) {k : Nat} (hk : k < 8) (v : BitVec 8)
    (t : List Access) (rs : Fin 4 → Registers) :
    d.exec (.outb (d.device i + BitVec.ofNat 16 k) v :: t) rs =
      d.exec t (Function.update rs i ((rs i).write k v)) := by
  rw [exec_cons]
  congr 1
  funext j
  by_cases hij : j = i
  · rw [hij, Function.update_self, accessAt, if_pos ⟨hi, (register_in_range hi hk i hi).mpr rfl⟩,
      register_offset hk]
  · rw [Function.update_of_ne hij, accessAt, if_neg]
    rintro ⟨hj, hlt⟩
    exact hij ((register_in_range hi hk j hj).mp hlt)

/-- What the writes for a port leave in it. -/
theorem exec_initPort {i : Fin 4} (hi : d.device i ≠ 0) (rs : Fin 4 → Registers) :
    d.exec (initPort (d.device i)) rs = Function.update rs i (rs i).initialised := by
  have haccess : initPort (d.device i) =
      [.outb (d.device i + BitVec.ofNat 16 1) 0x00, .outb (d.device i + BitVec.ofNat 16 3) 0x80,
        .outb (d.device i + BitVec.ofNat 16 0) 0x01, .outb (d.device i + BitVec.ofNat 16 1) 0x00,
        .outb (d.device i + BitVec.ofNat 16 2) 0xC7, .outb (d.device i + BitVec.ofNat 16 3) 0x03,
        .outb (d.device i + BitVec.ofNat 16 4) 0x0B] := rfl
  rw [haccess, ← Registers.write_init]
  repeat rw [exec_outb hi (by decide)]
  simp only [Function.update_self, Function.update_idem]
  rfl

/-- A round for each slot of a list. -/
theorem exec_slots {slots : List (Fin 4)} (hnodup : slots.Nodup) (rs : Fin 4 → Registers)
    (j : Fin 4) :
    d.exec (slots.flatMap fun i => (initSlot (d.device i)).2) rs j =
      if j ∈ slots ∧ d.device j ≠ 0 then (rs j).initialised else rs j := by
  induction slots generalizing rs with
  | nil => simp [exec]
  | cons i slots ih =>
    obtain ⟨hi, hslots⟩ := List.nodup_cons.mp hnodup
    rw [List.flatMap_cons, exec_append, ih hslots]
    by_cases hdev : d.device i = 0
    · have hnone : d.exec (initSlot (d.device i)).2 rs = rs := by
        rw [initSlot, if_pos hdev]
        rfl
      have hmem : j ∈ i :: slots ∧ d.device j ≠ 0 ↔ j ∈ slots ∧ d.device j ≠ 0 := by
        rw [List.mem_cons]
        refine and_congr_left fun hj => or_iff_right fun hij => hj ?_
        rw [hij, hdev]
      rw [hnone]
      simp only [hmem]
    · have hsome : d.exec (initSlot (d.device i)).2 rs =
          Function.update rs i (rs i).initialised := by
        rw [initSlot, if_neg hdev, exec_initPort hdev]
      rw [hsome]
      by_cases hij : j = i
      · rw [hij, if_neg (fun h => hi h.1), if_pos ⟨List.mem_cons_self, hdev⟩, Function.update_self]
      · rw [Function.update_of_ne hij]
        simp only [List.mem_cons, hij, false_or]

/-- Whatever the ports held, those of the table are set up and the others left alone. Nothing is
sent. -/
theorem exec_init {m : Mem} (hm : ∀ i, comPort m i = d.device i) (rs : Fin 4 → Registers) :
    (init m).1 = d.device ∧
      ∀ i, d.exec (init m).2 rs i =
        if d.device i ≠ 0 then (rs i).initialised else rs i := by
  have hinit : init m = (fun i => (initSlot (d.device i)).1,
      (List.finRange 4).flatMap fun i => (initSlot (d.device i)).2) := by
    unfold init
    simp only [hm]
  rw [hinit]
  constructor
  · funext i
    show (initSlot (d.device i)).1 = d.device i
    by_cases h : d.device i = 0
    · rw [initSlot, if_pos h, h]
    · rw [initSlot, if_neg h]
  · intro i
    rw [exec_slots (List.nodup_finRange 4)]
    simp only [List.mem_finRange, true_and]

/-! ## Output to initialised ports -/

/-- What an access does to the lines, as the driver's ports have it. -/
def lineAccess (control : Nat → BitVec 8 → Uart → Uart) (us : Fin 4 → Uart) : Access → Fin 4 → Uart
  | .outb port v => d.outb control port v us
  | .inb _ _ => us

variable {control : Nat → BitVec 8 → Uart → Uart}

theorem dlab_initialised (r : Registers) : r.initialised.dlab = false := by
  show (0x03#8).getLsbD 7 = false
  decide

/-- A byte for an entry of the table is sent while the divisor latch is closed. -/
theorem registers_outb {rs : Fin 4 → Registers} (hclosed : ∀ i, d.device i ≠ 0 → (rs i).dlab = false)
    (k : Fin 4) (v : BitVec 8) (i : Fin 4) :
    d.accessAt (.outb (d.device k) v) i (rs i) =
      { rs i with line := d.outb control (d.device k) v (fun j => (rs j).line) i } := by
  by_cases hk : d.device k = 0
  · have hout : ¬ (d.device i ≠ 0 ∧ (0 - d.device i).toNat < 8) := by
      rintro ⟨hi, hlt⟩
      have hf := d.fits i hi
      have hsub := BitVec.toNat_sub 0 (d.device i)
      have hpos : (d.device i).toNat ≠ 0 := fun h => hi (BitVec.eq_of_toNat_eq h)
      have hz : (0 : BitVec 16).toNat = 0 := rfl
      omega
    rw [hk, outb_absent, accessAt, if_neg hout]
  · rw [outb_base control hk]
    by_cases hik : i = k
    · have hzero : (d.device k - d.device k).toNat = 0 := by rw [BitVec.sub_self]; rfl
      rw [hik, if_pos rfl, accessAt, hzero, if_pos ⟨hk, by decide⟩, Registers.write,
        hclosed k hk]
      rfl
    · rw [if_neg hik, accessAt, if_neg]
      rintro ⟨hi, hlt⟩
      exact (base_not_in_range (Ne.symm hik) hk hi).2 hlt

/-- `ComDevices::write` reads, and outputs to the entries of the table. -/
def Outputs (device : Fin 4 → BitVec 16) (a : Access) : Prop :=
  (∃ port s, a = .inb port s) ∨ ∃ i v, a = .outb (device i) v

/-- Accesses of that kind change the lines of closed ports and nothing else. -/
theorem exec_outputs {t : List Access} (ht : ∀ a ∈ t, Outputs d.device a)
    (rs : Fin 4 → Registers) (hclosed : ∀ i, d.device i ≠ 0 → (rs i).dlab = false) (i : Fin 4) :
    d.exec t rs i =
      { rs i with line := t.foldl (d.lineAccess control) (fun j => (rs j).line) i } := by
  induction t generalizing rs with
  | nil => rfl
  | cons a t ih =>
    have ht' : ∀ a ∈ t, Outputs d.device a := fun a ha => ht a (List.mem_cons_of_mem _ ha)
    rw [exec_cons, List.foldl_cons]
    rcases ht a List.mem_cons_self with ⟨port, s, rfl⟩ | ⟨k, v, rfl⟩
    · exact ih ht' rs hclosed
    · have hstep : (fun i => d.accessAt (.outb (d.device k) v) i (rs i)) = fun i =>
          { rs i with line := d.outb control (d.device k) v (fun j => (rs j).line) i } :=
        funext fun i => registers_outb hclosed k v i
      rw [hstep]
      exact ih ht' _ fun i hi => hclosed i hi

section

variable {fuel : Nat} {status : Nat → BitVec 8} {device : Fin 4 → BitVec 16} {r r' : Routine}

theorem outputs_seq (h : ∀ n, ∀ a ∈ (r n).1, Outputs device a)
    (h' : ∀ n, ∀ a ∈ (r' n).1, Outputs device a) : ∀ n, ∀ a ∈ (r.seq r' n).1, Outputs device a := by
  intro n a ha
  cases hr : (r n).2 with
  | none =>
    rw [Routine.seq_none hr] at ha
    exact h n a ha
  | some n' =>
    rw [Routine.seq_some hr] at ha
    exact (List.mem_append.mp ha).elim (h n a) (h' n' a)

theorem outputs_skip : ∀ n, ∀ a ∈ (Routine.skip n).1, Outputs device a := fun _ _ ha => by cases ha

theorem outputs_outb (i : Fin 4) (v : BitVec 8) :
    ∀ n, ∀ a ∈ (Routine.outb (device i) v n).1, Outputs device a := by
  intro n a ha
  exact .inr ⟨i, v, List.mem_singleton.mp ha⟩

theorem outputs_poll (port : BitVec 16) :
    ∀ n, ∀ a ∈ (poll status port fuel n).1, Outputs device a := by
  intro n a ha
  rcases poll_spec status port fuel n with ⟨-, hwait, -⟩ | ⟨n', t, s, heq, hwait, -⟩
  · obtain ⟨s, rfl, -⟩ := hwait a ha
    exact .inl ⟨port, s, rfl⟩
  · rw [heq] at ha
    rcases List.mem_append.mp ha with ha | ha
    · obtain ⟨s, rfl, -⟩ := hwait a ha
      exact .inl ⟨port, s, rfl⟩
    · exact .inl ⟨port, s, List.mem_singleton.mp ha⟩

theorem outputs_writeLoop (slots : List (Fin 4)) (byte : BitVec 8) :
    ∀ n, ∀ a ∈ (writeLoop fuel status (slots.map device) byte n).1, Outputs device a := by
  induction slots with
  | nil => exact outputs_skip
  | cons i slots ih =>
    refine outputs_seq (outputs_seq ?_ ?_) ih
    · split
      · exact outputs_outb i 0x0d
      · exact outputs_skip
    · split
      · exact outputs_skip
      · exact outputs_seq (outputs_poll _) (outputs_outb i byte)

theorem outputs_writes (bytes : List (BitVec 8)) :
    ∀ n, ∀ a ∈ (writes fuel status device bytes n).1, Outputs device a := by
  induction bytes with
  | nil => exact outputs_skip
  | cons byte bytes ih =>
    have hslots : List.ofFn device = (List.finRange 4).map device := List.ofFn_eq_map
    refine outputs_seq ?_ ih
    rw [write, hslots]
    exact outputs_writeLoop _ byte

end

/-- A core that sets the ports up and then prints: the table is that of the BIOS, every port of it
has its settings, and only its line changes after that. -/
theorem init_then_write {m : Mem} (hm : ∀ i, comPort m i = d.device i) (rs : Fin 4 → Registers)
    (fuel : Nat) (status : Nat → BitVec 8) (bytes : List (BitVec 8)) {i : Fin 4}
    (hi : d.device i ≠ 0) :
    let rs' := d.exec (init m).2 rs
    let t := (writes fuel status (init m).1 bytes 0).1
    (init m).1 = d.device ∧ rs' i = (rs i).initialised ∧
      d.exec t rs' i =
        { rs' i with line := t.foldl (d.lineAccess control) (fun j => (rs' j).line) i } := by
  obtain ⟨htable, hregs⟩ := exec_init hm rs
  dsimp only
  rw [htable]
  refine ⟨rfl, by rw [hregs, if_pos hi], ?_⟩
  refine exec_outputs (outputs_writes bytes 0) _ (fun i hi => ?_) i
  rw [hregs, if_pos hi]
  exact dlab_initialised _

/-- COM1 with its divisor latch open and a byte in its FIFO. -/
theorem init_then_write_com1 :
    let d : ComDevices := ⟨fun i => if i.val = 0 then 0x3f8 else 0, by decide, by decide⟩
    let m : Mem := fun x => if x = 0x400 then 0xf8 else if x = 0x401 then 0x03 else 0
    let r : Registers := ⟨⟨[0x41], []⟩, 0x0f, 0x01, 0x83, 0x00, 0x0c, 0x00⟩
    let rs' := d.exec (init m).2 fun _ => r
    let t := (writes 1 (fun _ => 0x60) (init m).1 [0x42] 0).1
    (init m).1 = d.device ∧ rs' 0 = r.initialised ∧
      d.exec t rs' 0 =
        { rs' 0 with line := t.foldl (d.lineAccess fun _ _ u => u) (fun j => (rs' j).line) 0 } := by
  intro d m r
  have hm : ∀ i, comPort m i = d.device i := by decide
  exact init_then_write hm (fun _ => r) 1 (fun _ => 0x60) [0x42] (by decide)

end ComDevices
end Serial
end DeliceOS
