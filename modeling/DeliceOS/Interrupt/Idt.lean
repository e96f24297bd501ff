import DeliceOS.Base.Store
import Mathlib.Data.BitVec

/-!
# Interrupt.Idt

`load_idt` of `interrupt.cc`: `set_interrupt_gate` fills one 16-byte descriptor, two loops fill
256 of them in a table declared with 255, and the limit given to `lidt` is that of the declared
table.

* `gateAt_setInterruptGate`: a descriptor decodes to the gate it was set for.
* `loadIdt_gate`, `loadIdt_out`: what the loops leave in memory.
* `loadIdt_dispatch`: every vector but 255 is dispatched; the 256th descriptor lies behind the
  table.
-/

namespace DeliceOS
namespace Idt

open Base

def interruptGate : BitVec 8 := 0xe
def trapGate : BitVec 8 := 0xf

/-- `sizeof(struct IDT_Desc)`. -/
def descSize : Nat := 16

/-- A store to the bit-field of `width` bits from bit `lo` on in the `uint16_t` at `a`. -/
def storeBits (m : Mem) (a lo width : Nat) (v : BitVec 16) : Mem :=
  let mask : BitVec 16 := BitVec.ofNat 16 (2 ^ width - 1)
  m.write16 a ((m.read16 a &&& ~~~(mask <<< lo)) ||| ((v &&& mask) <<< lo))

/-- `memset(dst, byte, size)`. -/
def memset (dst byte size : Nat) (m : Mem) : Mem := Store.run (Store.clear dst byte size) m

def setInterruptGate (table : Nat) (vector type : BitVec 8) (handler : BitVec 64) (m : Mem) : Mem :=
  let idesc := table + descSize * vector.toNat
  let m := memset idesc 0 descSize m
  let m := m.write16 (idesc + 2) 0x08
  let m := storeBits m (idesc + 4) 0 3 0
  let m := storeBits m (idesc + 4) 8 4 (type.setWidth 16)
  let m := storeBits m (idesc + 4) 13 2 0
  let m := storeBits m (idesc + 4) 15 1 1
  let m := m.write16 idesc (handler.setWidth 16)
  let m := m.write16 (idesc + 6) ((handler >>> 16).setWidth 16)
  m.write32 (idesc + 8) ((handler >>> 32).setWidth 32)

/-- Where the linker has put `interrupt_desc_table` and `idt`. -/
structure Layout where
  table : Nat
  idt : Nat
  fits : table + 4096 ≤ 2 ^ 64
  disjoint : idt + 10 ≤ table ∨ table + 4080 ≤ idt

/-- `sizeof(interrupt_desc_table)`. -/
def tableSize : Nat := 255 * descSize

/-- `n` rounds of a loop of `load_idt`, from `ii` on. -/
def fillGates (table : Nat) (type : BitVec 8) (handler : Nat → BitVec 64) :
    Nat → Nat → Mem → Mem
  | 0, _, m => m
  | n + 1, ii, m =>
    fillGates table type handler n (ii + 1)
      (setInterruptGate table (BitVec.ofNat 8 ii) type (handler ii) m)

/-- `load_idt` up to `lidt`. -/
def loadIdt (L : Layout) (exHandlers : Fin 32 → BitVec 64) (defaultTrapHandler : BitVec 64)
    (m : Mem) : Mem :=
  let exHandler (ii : Nat) : BitVec 64 := if h : ii < 32 then exHandlers ⟨ii, h⟩ else 0
  let m := fillGates L.table interruptGate exHandler 32 0 m
  let m := fillGates L.table trapGate (fun _ => defaultTrapHandler) 224 32 m
  let m := m.write16 L.idt (BitVec.ofNat 16 (tableSize - 1))
  m.write64 (L.idt + 2) (BitVec.ofNat 64 L.table)

/-! ## The processor's view -/

/-- A 64-bit gate. -/
structure Gate where
  offset : BitVec 64
  selector : BitVec 16
  ist : Nat
  type : Nat
  system : Nat
  dpl : Nat
  present : Nat
  deriving DecidableEq

def gateAt (m : Mem) (a : Nat) : Gate :=
  let attr := (m.read16 (a + 4)).toNat
  { offset := m.read32 (a + 8) ++ m.read16 (a + 6) ++ m.read16 a
    selector := m.read16 (a + 2)
    ist := attr % 8
    type := attr / 2 ^ 8 % 16
    system := attr / 2 ^ 12 % 2
    dpl := attr / 2 ^ 13 % 4
    present := attr / 2 ^ 15 % 2 }

/-- The gate a kernel wants: present, for ring 0, on the interrupted stack, in the code segment. -/
def kernelGate (type : BitVec 8) (handler : BitVec 64) : Gate :=
  ⟨handler, 0x08, 0, type.toNat, 0, 0, 1⟩

/-- With the register `lidt` loads from `idt`, vector `v` goes to `handler` by a gate of `type`. -/
def Dispatches (L : Layout) (m : Mem) (v : Nat) (type : BitVec 8) (handler : BitVec 64) : Prop :=
  descSize * v + (descSize - 1) ≤ (m.read16 L.idt).toNat ∧
    gateAt m ((m.read64 (L.idt + 2)).toNat + descSize * v) = kernelGate type handler

/-! ## One descriptor -/

variable {m m' : Mem} {a x : Nat}

theorem memset_zero {dst n : Nat} {m : Mem} {x : Nat} (hx : dst ≤ x) (hx' : x < dst + n) :
    memset dst 0 n m x = 0 := by
  rw [memset, Store.run_clear, if_pos ⟨hx, hx'⟩]
  rfl

/-- The attribute word of a descriptor after the stores to its bit-fields. -/
def attrWord (type : BitVec 8) : BitVec 16 :=
  let set (w : BitVec 16) (lo width : Nat) (v : BitVec 16) : BitVec 16 :=
    (w &&& ~~~(BitVec.ofNat 16 (2 ^ width - 1) <<< lo)) |||
      ((v &&& BitVec.ofNat 16 (2 ^ width - 1)) <<< lo)
  set (set (set (set 0 0 3 0) 8 4 (type.setWidth 16)) 13 2 0) 15 1 1

theorem join_split (h : BitVec 64) :
    ((h >>> 32).setWidth 32 ++ (h >>> 16).setWidth 16 ++ h.setWidth 16 : BitVec 64) = h := by
  apply BitVec.eq_of_getLsbD_eq
  intro i hi
  simp only [BitVec.getLsbD_append, BitVec.getLsbD_setWidth, BitVec.getLsbD_ushiftRight]
  by_cases h16 : i < 16
  · simp [h16]
  · by_cases h32 : i - 16 < 16
    · simp [h16, h32, show 16 + (i - 16) = i by omega]
    · simp [h16, h32, show 32 + (i - 16 - 16) = i by omega, show i - 16 - 16 < 32 by omega]

section Descriptor

variable (table : Nat) (vector type : BitVec 8) (handler : BitVec 64) (m : Mem)

theorem setInterruptGate_out
    (h : x < table + descSize * vector.toNat ∨ table + descSize * vector.toNat + descSize ≤ x) :
    setInterruptGate table vector type handler m x = m x := by
  simp only [descSize] at h
  simp only [setInterruptGate, storeBits, Mem.write16, Mem.write32, descSize]
  rw [Mem.writeLE_out (by omega), Mem.writeLE_out (by omega), Mem.writeLE_out (by omega),
    Mem.writeLE_out (by omega), Mem.writeLE_out (by omega), Mem.writeLE_out (by omega),
    Mem.writeLE_out (by omega), Mem.writeLE_out (by omega), memset,
    Store.run_out (Store.clear_misses h)]

theorem setInterruptGate_attr :
    (setInterruptGate table vector type handler m).read16 (table + descSize * vector.toNat + 4) =
      attrWord type := by
  have hzero : ∀ d, (memset d 0 16 m).read16 (d + 4) = 0 := fun d =>
    Mem.read16_zero fun x hx hx' => memset_zero (by omega) (by omega)
  simp only [setInterruptGate, descSize]
  rw [Mem.read16_write32_disjoint (.inl (by omega)), Mem.read16_write16_disjoint (.inl (by omega)),
    Mem.read16_write16_disjoint (.inr (by omega))]
  simp only [storeBits, Mem.read16_write16]
  rw [Mem.read16_write16_disjoint (.inr (by omega)), hzero]
  rfl

theorem setInterruptGate_selector :
    (setInterruptGate table vector type handler m).read16 (table + descSize * vector.toNat + 2) =
      0x08 := by
  simp only [setInterruptGate, storeBits, descSize]
  rw [Mem.read16_write32_disjoint (.inl (by omega)), Mem.read16_write16_disjoint (.inl (by omega)),
    Mem.read16_write16_disjoint (.inr (by omega)), Mem.read16_write16_disjoint (.inl (by omega)),
    Mem.read16_write16_disjoint (.inl (by omega)), Mem.read16_write16_disjoint (.inl (by omega)),
    Mem.read16_write16_disjoint (.inl (by omega)), Mem.read16_write16]

theorem gateAt_setInterruptGate (ht : type = interruptGate ∨ type = trapGate) :
    gateAt (setInterruptGate table vector type handler m) (table + descSize * vector.toNat) =
      kernelGate type handler := by
  have hlow : (setInterruptGate table vector type handler m).read16
      (table + descSize * vector.toNat) = handler.setWidth 16 := by
    simp only [setInterruptGate, descSize]
    rw [Mem.read16_write32_disjoint (.inl (by omega)),
      Mem.read16_write16_disjoint (.inl (by omega)), Mem.read16_write16]
  have hmid : (setInterruptGate table vector type handler m).read16
      (table + descSize * vector.toNat + 6) = (handler >>> 16).setWidth 16 := by
    simp only [setInterruptGate, descSize]
    rw [Mem.read16_write32_disjoint (.inl (by omega)), Mem.read16_write16]
  have hhigh : (setInterruptGate table vector type handler m).read32
      (table + descSize * vector.toNat + 8) = (handler >>> 32).setWidth 32 := by
    simp only [setInterruptGate, descSize]
    exact Mem.read32_write32 _ _ _
  simp only [gateAt, setInterruptGate_attr, setInterruptGate_selector, hlow, hmid, hhigh,
    join_split, kernelGate]
  rcases ht with rfl | rfl
  · rfl
  · rfl

end Descriptor

theorem gateAt_congr (h : ∀ x, a ≤ x → x < a + descSize → m x = m' x) : gateAt m a = gateAt m' a := by
  simp only [descSize] at h
  have h16 : ∀ d, d + 2 ≤ 16 → m.read16 (a + d) = m'.read16 (a + d) := fun d hd =>
    Mem.read16_congr fun x hx hx' => h x (by omega) (by omega)
  have h32 : m.read32 (a + 8) = m'.read32 (a + 8) :=
    Mem.read32_congr fun x hx hx' => h x (by omega) (by omega)
  have h0 : m.read16 a = m'.read16 a := h16 0 (by omega)
  simp only [gateAt, h0, h16 2 (by omega), h16 4 (by omega), h16 6 (by omega), h32]

/-! ## The loops -/

theorem fillGates_out (table : Nat) (type : BitVec 8) (handler : Nat → BitVec 64) (n : Nat) :
    ∀ (ii : Nat) (m : Mem), ii + n ≤ 256 →
      x < table + descSize * ii ∨ table + descSize * (ii + n) ≤ x →
      fillGates table type handler n ii m x = m x := by
  induction n with
  | zero => intro ii m _ _; rfl
  | succ n ih =>
    intro ii m hn hx
    have hii : (BitVec.ofNat 8 ii).toNat = ii := Nat.mod_eq_of_lt (show ii < 2 ^ 8 by omega)
    simp only [descSize] at hx
    rw [fillGates, ih _ _ (by omega) (by simp only [descSize]; omega), setInterruptGate_out]
    simp only [hii, descSize]
    omega

theorem fillGates_gate (table : Nat) {type : BitVec 8} (handler : Nat → BitVec 64) {v : Nat}
    (ht : type = interruptGate ∨ type = trapGate) (n : Nat) : ∀ (ii : Nat) (m : Mem),
    ii + n ≤ 256 → ii ≤ v → v < ii + n →
      gateAt (fillGates table type handler n ii m) (table + descSize * v) =
        kernelGate type (handler v) := by
  induction n with
  | zero => intro ii m _ hlo hhi; omega
  | succ n ih =>
    intro ii m hn hlo hhi
    rw [fillGates]
    by_cases hv : v = ii
    · subst hv
      have hii : (BitVec.ofNat 8 v).toNat = v := Nat.mod_eq_of_lt (show v < 2 ^ 8 by omega)
      have hgate := gateAt_setInterruptGate table (BitVec.ofNat 8 v) type (handler v) m ht
      rw [hii] at hgate
      rw [← hgate]
      refine gateAt_congr fun x hx hx' => fillGates_out table type handler n _ _ (by omega) (.inl ?_)
      simp only [descSize] at hx' ⊢
      omega
    · exact ih _ _ (by omega) (by omega) (by omega)

section Load

variable (L : Layout) (exHandlers : Fin 32 → BitVec 64) (defaultTrapHandler : BitVec 64)

def gateType (v : Nat) : BitVec 8 := if v < 32 then interruptGate else trapGate

def handlerOf (v : Nat) : BitVec 64 :=
  if h : v < 32 then exHandlers ⟨v, h⟩ else defaultTrapHandler

/-- Beyond the 256 descriptors and the register, memory stays. -/
theorem loadIdt_out (m : Mem) (ht : x < L.table ∨ L.table + 256 * descSize ≤ x)
    (hi : x < L.idt ∨ L.idt + 10 ≤ x) : loadIdt L exHandlers defaultTrapHandler m x = m x := by
  simp only [descSize] at ht
  simp only [loadIdt, Mem.write64, Mem.write16]
  rw [Mem.writeLE_out (by omega), Mem.writeLE_out (by omega),
    fillGates_out _ _ _ _ _ _ (by omega) (by simp only [descSize]; omega),
    fillGates_out _ _ _ _ _ _ (by omega) (by simp only [descSize]; omega)]

theorem loadIdt_limit (m : Mem) :
    ((loadIdt L exHandlers defaultTrapHandler m).read16 L.idt).toNat = tableSize - 1 := by
  simp only [loadIdt]
  rw [Mem.read16_write64_disjoint (.inl (by omega)), Mem.read16_write16]
  rfl

theorem loadIdt_base (m : Mem) :
    ((loadIdt L exHandlers defaultTrapHandler m).read64 (L.idt + 2)).toNat = L.table := by
  have hfits := L.fits
  simp only [loadIdt, Mem.read64_write64]
  exact Nat.mod_eq_of_lt (show L.table < 2 ^ 64 by omega)

theorem loadIdt_gate (m : Mem) {v : Nat} (hv : v < 255) :
    gateAt (loadIdt L exHandlers defaultTrapHandler m) (L.table + descSize * v) =
      kernelGate (gateType v) (handlerOf exHandlers defaultTrapHandler v) := by
  have hdisj := L.disjoint
  -- the stores to `idt` come last and do not reach the declared table
  have hidt : ∀ (m : Mem) (w : BitVec 16) (w' : BitVec 64),
      gateAt ((m.write16 L.idt w).write64 (L.idt + 2) w') (L.table + descSize * v) =
        gateAt m (L.table + descSize * v) := by
    intro m w w'
    refine gateAt_congr fun x hx hx' => ?_
    simp only [descSize] at hx hx'
    rw [Mem.write64, Mem.writeLE_out (by omega), Mem.write16, Mem.writeLE_out (by omega)]
  simp only [loadIdt, hidt]
  by_cases h32 : v < 32
  · rw [gateAt_congr fun x _ hx' => fillGates_out L.table trapGate _ 224 32 _ (by omega) (.inl ?_),
      fillGates_gate _ _ (.inl rfl) _ _ _ (by omega) (by omega) (by omega)]
    · simp [gateType, handlerOf, h32]
    · simp only [descSize] at hx' ⊢
      omega
  · rw [fillGates_gate _ _ (.inr rfl) _ _ _ (by omega) (by omega) (by omega)]
    simp [gateType, handlerOf, h32]

/-- The table works for the vectors that fit into it. -/
theorem dispatches_iff (m : Mem) {v : Nat} (hv : v < 256) :
    Dispatches L (loadIdt L exHandlers defaultTrapHandler m) v (gateType v)
      (handlerOf exHandlers defaultTrapHandler v) ↔ v ≠ 255 := by
  unfold Dispatches
  rw [loadIdt_limit, loadIdt_base]
  constructor
  · rintro ⟨hlimit, -⟩ rfl
    revert hlimit
    decide
  · intro hne
    refine ⟨?_, loadIdt_gate L exHandlers defaultTrapHandler m (by omega)⟩
    simp only [descSize, tableSize]
    omega

/-- What `load_idt` is for: every vector is dispatched, and nothing but the declared table and
the register is written. -/
def Loads (m : Mem) : Prop :=
  (∀ v, v < 256 → Dispatches L (loadIdt L exHandlers defaultTrapHandler m) v (gateType v)
    (handlerOf exHandlers defaultTrapHandler v)) ∧
  ∀ x, x < L.table ∨ L.table + tableSize ≤ x → x < L.idt ∨ L.idt + 10 ≤ x →
    loadIdt L exHandlers defaultTrapHandler m x = m x

/-- For all handlers and memories, vectors 0 to 254 are dispatched and 255 is not; what is written
outside the table and the register are the 16 bytes of a 256th descriptor. -/
theorem loadIdt_dispatch (m : Mem) :
    (∀ v, v < 256 → (Dispatches L (loadIdt L exHandlers defaultTrapHandler m) v (gateType v)
      (handlerOf exHandlers defaultTrapHandler v) ↔ v ≠ 255)) ∧
    (∀ x, x < L.table ∨ L.table + tableSize + descSize ≤ x → x < L.idt ∨ L.idt + 10 ≤ x →
      loadIdt L exHandlers defaultTrapHandler m x = m x) ∧
    ¬ Loads L exHandlers defaultTrapHandler m := by
  refine ⟨fun v hv => dispatches_iff L exHandlers defaultTrapHandler m hv, fun x hx hi => ?_, ?_⟩
  · exact loadIdt_out L exHandlers defaultTrapHandler m hx hi
  · rintro ⟨hall, -⟩
    exact (dispatches_iff L exHandlers defaultTrapHandler m (by decide)).mp (hall 255 (by decide)) rfl

end Load

def sampleLayout : Layout := ⟨0x9000, 0xa000, by decide, by decide⟩

/-- The spurious vector `0xff` lies outside the limit. -/
theorem spurious_vector_outside : ¬ ∀ (L : Layout) (exHandlers : Fin 32 → BitVec 64)
    (defaultTrapHandler : BitVec 64) (m : Mem), Loads L exHandlers defaultTrapHandler m := by
  intro h
  have hlimit := ((h sampleLayout (fun _ => 0x8200) 0x8300 fun _ => 0).1 0xff (by decide)).1
  rw [loadIdt_limit] at hlimit
  revert hlimit
  decide

end Idt
end DeliceOS
