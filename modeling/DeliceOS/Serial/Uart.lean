import Mathlib.Data.BitVec
import Mathlib.Data.Fin.Basic
import Mathlib.Logic.Function.Basic

/-!
# Serial.Uart

The COM ports as the I/O instructions see them. A present port answers at eight consecutive
addresses; writing its first register puts a byte in the transmit FIFO of 16 bytes, and bit 5 of
its line status register is set exactly when that FIFO is empty. A byte written to a full FIFO is
lost. What writes to the other registers do is left open (`control`).

* `ComDevices.outb_base`, `ComDevices.ready_base`: with disjoint register ranges an access to one
  port is an access to that port only.
-/

namespace DeliceOS
namespace Serial

structure Uart where
  fifo : List (BitVec 8)
  sent : List (BitVec 8)

namespace Uart

/-- A write to the transmit holding register. -/
def transmit (u : Uart) (v : BitVec 8) : Uart :=
  { u with fifo := if u.fifo.length < 16 then u.fifo ++ [v] else u.fifo }

/-- All bytes that went into the port and were not lost. -/
def stream (u : Uart) : List (BitVec 8) := u.sent ++ u.fifo

theorem transmit_stream {u : Uart} (h : u.fifo.length < 16) (v : BitVec 8) :
    (u.transmit v).stream = u.stream ++ [v] := by
  simp [transmit, stream, h]

theorem transmit_fifo {u : Uart} (h : u.fifo.length < 16) (v : BitVec 8) :
    (u.transmit v).fifo.length = u.fifo.length + 1 := by
  simp [transmit, h]

end Uart

/-- The ports `ComDevices::init` found, by slot, zero where there is none. -/
structure ComDevices where
  device : Fin 4 → BitVec 16
  fits : ∀ i, device i ≠ 0 → (device i).toNat + 8 ≤ 2 ^ 16
  disjoint : ∀ i j, i ≠ j → device i ≠ 0 → device j ≠ 0 →
    (device i).toNat + 8 ≤ (device j).toNat ∨ (device j).toNat + 8 ≤ (device i).toNat

namespace ComDevices

variable (d : ComDevices) (control : Nat → BitVec 8 → Uart → Uart)

/-- The effect of `outb` on the port in slot `i`. -/
def outbAt (port : BitVec 16) (v : BitVec 8) (i : Fin 4) (u : Uart) : Uart :=
  if d.device i = 0 then u
  else if port = d.device i then u.transmit v
  else if (port - d.device i).toNat < 8 then control (port - d.device i).toNat v u
  else u

def outb (port : BitVec 16) (v : BitVec 8) (us : Fin 4 → Uart) : Fin 4 → Uart :=
  fun i => d.outbAt control port v i (us i)

/-- Bit 5 of what `inb` reads from the line status register at `port`. -/
def ready (port : BitVec 16) (us : Fin 4 → Uart) : Bool :=
  decide (∃ i, d.device i ≠ 0 ∧ port = d.device i + 5 ∧ (us i).fifo = [])

variable {d}

/-- Distinct present ports are at distinct addresses, and neither is in the range of the other. -/
theorem base_not_in_range {i j : Fin 4} (hij : i ≠ j) (hi : d.device i ≠ 0) (hj : d.device j ≠ 0) :
    d.device i ≠ d.device j ∧ ¬ (d.device i - d.device j).toNat < 8 := by
  have h := d.disjoint i j hij hi hj
  have hfi := d.fits i hi
  have hfj := d.fits j hj
  have hsub := BitVec.toNat_sub (d.device i) (d.device j)
  constructor
  · intro he; rw [he] at h; omega
  · omega

/-- A byte for the transmit register of a present port goes to that port. -/
theorem outb_base {i : Fin 4} (hi : d.device i ≠ 0) (v : BitVec 8) (us : Fin 4 → Uart) (j : Fin 4) :
    d.outb control (d.device i) v us j = if j = i then (us j).transmit v else us j := by
  by_cases hj : d.device j = 0
  · have hji : j ≠ i := by rintro rfl; exact hi hj
    rw [outb, outbAt, if_pos hj, if_neg hji]
  · rw [outb, outbAt, if_neg hj]
    by_cases hji : j = i
    · rw [if_pos (by rw [hji]), if_pos hji]
    · obtain ⟨hne, hr⟩ := base_not_in_range (Ne.symm hji) hi hj
      rw [if_neg hne, if_neg hr, if_neg hji]

/-- An absent device has address 0, which is in no port's range. -/
theorem outb_absent (v : BitVec 8) (us : Fin 4 → Uart) : d.outb control 0 v us = us := by
  funext j
  rw [outb, outbAt]
  by_cases hj : d.device j = 0
  · rw [if_pos hj]
  · have hf := d.fits j hj
    have hsub := BitVec.toNat_sub 0 (d.device j)
    have hz : (0 : BitVec 16).toNat = 0 := rfl
    have hpos : (d.device j).toNat ≠ 0 := fun h => hj (BitVec.eq_of_toNat_eq h)
    rw [if_neg hj, if_neg (Ne.symm hj), if_neg (by omega)]

theorem ready_base {i : Fin 4} (hi : d.device i ≠ 0) (us : Fin 4 → Uart) :
    d.ready (d.device i + 5) us = true ↔ (us i).fifo = [] := by
  rw [ready, decide_eq_true_eq]
  constructor
  · rintro ⟨j, hj, hp, hf⟩
    by_cases hij : i = j
    · rw [hij]; exact hf
    · exact absurd (add_right_cancel hp) (base_not_in_range hij hi hj).1
  · intro h; exact ⟨i, hi, rfl, h⟩

end ComDevices
end Serial
end DeliceOS
