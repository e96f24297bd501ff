import DeliceOS.Boot.HandOff

/-!
# Boot.LongMode

The way of `bootloader.s` from real mode to `enter_long`, on the parts of a processor it uses: the
control registers, EFER, the hidden parts of the segment registers and the register of the GDT. An
exception on the way ends a run, and so does an instruction whose address paging moves.

General registers are their low 32 bits. What the code has no use for ends a run as well: paging
without long mode, data segments that are read-only or for other privilege levels, other MSRs, the
direction flag set. Loading a segment marks its descriptor in memory as accessed. The accessed and
dirty bits of the page tables are left out: no translation depends on them (`walk_sameTables`).

* `exec`: what the instructions do.
* `protectedMode_run`, `setupLm_run`: the two halves.
* `boot_run`: from any start in real mode the code arrives in 64-bit mode, and leaves the boot
  sector ready for the next core.
* `boot_stacks`: the stacks it gives to the cores.
-/

namespace DeliceOS
namespace LongMode

open Base Paging

inductive Reg where
  | eax | ecx | edx | ebx | esp | ebp | esi | edi
  deriving DecidableEq, Repr

inductive Sreg where
  | es | ss | ds | fs | gs
  deriving DecidableEq, Repr

/-- The L and D bits of CS. -/
structure Code where
  long : Bool
  big : Bool
  deriving DecidableEq, Repr

structure Gdtr where
  limit : BitVec 16
  base : BitVec 32
  deriving DecidableEq, Repr

structure Cpu where
  gpr : Reg → BitVec 32
  base : Sreg → BitVec 32
  cs : Code
  cr0 : BitVec 32
  cr3 : BitVec 32
  cr4 : BitVec 32
  efer : BitVec 32
  gdtr : Gdtr
  df : Bool -- the direction flag

structure Machine where
  cpu : Cpu
  mem : Mem

inductive Mode where
  | real | protected16 | protected32 | compatibility | long
  deriving DecidableEq, Repr

namespace Cpu

variable (c : Cpu)

def pe : Bool := c.cr0.getLsbD 0
def paging : Bool := c.cr0.getLsbD 31
def lma : Bool := c.efer.getLsbD 10

def mode : Mode :=
  if !c.pe then .real
  else if c.lma then (if c.cs.long then .long else .compatibility)
  else if c.cs.big then .protected32 else .protected16

def set (r : Reg) (v : BitVec 32) : Cpu := { c with gpr := Function.update c.gpr r v }

/-- A write to the low half of a register. -/
def set16 (r : Reg) (v : BitVec 16) : Cpu :=
  c.set r ((c.gpr r &&& 0xffff0000#32) ||| v.setWidth 32)

def translate (m : Mem) (va : Nat) : Option Nat :=
  if !c.paging then some va
  else if c.lma then (Walk.walk m c.cr3.toNat va).map Walk.Translation.phys
  else none

/-- Where the entry of the GDT lies that a selector names. -/
def descriptor (m : Mem) (sel : BitVec 16) : Option Nat :=
  let i := sel.toNat / 8 * 8
  if sel.getLsbD 2 ∨ c.gdtr.limit.toNat < i + 7 then none
  else c.translate m (c.gdtr.base.toNat + i)

end Cpu

/-! ## Descriptors -/

def descriptorBase (e : BitVec 64) : BitVec 32 :=
  (e >>> 16).setWidth 32 &&& 0xffffff#32 ||| (e >>> 32).setWidth 32 &&& 0xff000000#32

/-- A present code or data segment of privilege level 0. -/
def usable (e : BitVec 64) : Bool :=
  e.getLsbD 47 && e.getLsbD 44 && !e.getLsbD 45 && !e.getLsbD 46

def isCode (e : BitVec 64) : Bool := usable e && e.getLsbD 43

def isWritable (e : BitVec 64) : Bool := usable e && !e.getLsbD 43 && e.getLsbD 41

/-- The bit of a descriptor that the processor sets when it loads it. -/
def accessed : BitVec 64 := 1 <<< 40

/-- The descriptor at `p` with this bit set. -/
def markAccessed (m : Mem) (p : Nat) : Mem := Function.update m (p + 5) (m (p + 5) ||| 1)

/-! ## Instructions

As 16-bit and 32-bit code has them: what comes after the jump into long mode is `enterLong`. -/

inductive Instr where
  | mov (r : Reg) (v : BitVec 32)
  | movReg (r s : Reg)
  | mov16 (r : Reg) (v : BitVec 16)  -- also `xor r, r`
  | movAl (v : BitVec 8)
  | or (r : Reg) (v : BitVec 32)
  | shr (r : Reg) (n : Nat)
  | load (r s : Reg)                 -- `mov r, dword[s]`
  | out (port : BitVec 8)
  | movSeg (s : Sreg) (r : Reg)
  | lgdt (a : BitVec 32)
  | lidt                             -- nothing here reads the IDT
  | readCr0 (r : Reg)
  | writeCr0 (r : Reg)
  | writeCr3 (r : Reg)
  | readCr4 (r : Reg)
  | writeCr4 (r : Reg)
  | wrmsr
  | jmpFar (sel : BitVec 16)
  | callEarlyPage (ret ret' ret'' : Nat)  -- the return addresses of the three calls
  deriving DecidableEq, Repr

namespace Cpu

variable (c : Cpu)

def movSeg (m : Mem) (s : Sreg) (sel : BitVec 16) : Option Machine :=
  if !c.pe then some ⟨{ c with base := Function.update c.base s (sel.setWidth 32 <<< 4) }, m⟩
  else
    match c.descriptor m sel with
    | some p =>
      let e := m.read64 p
      if isWritable e then
        some ⟨{ c with base := Function.update c.base s (descriptorBase e) }, markAccessed m p⟩
      else none
    | none => none

/-- In a 16-bit segment the base has 24 bits. -/
def lgdt (m : Mem) (a : BitVec 32) : Option Cpu :=
  (c.translate m (c.base .ds + a).toNat).map fun p =>
    let base := m.read32 (p + 2)
    { c with
      gdtr := ⟨m.read16 p, if c.cs.big then base else base &&& 0xffffff⟩ }

/-- Turning paging on makes long mode active if it is enabled, and then wants PAE and a code
segment of another mode. -/
def writeCr0 (v : BitVec 32) : Option Cpu :=
  if v.getLsbD 31 ∧ !v.getLsbD 0 ∨ v.getLsbD 29 ∧ !v.getLsbD 30 then none
  else if v.getLsbD 31 ∧ !c.paging ∧ c.efer.getLsbD 8 then
    if c.cr4.getLsbD 5 ∧ !c.cs.long then some { c with cr0 := v, efer := c.efer ||| 0x400 }
    else none
  else if !v.getLsbD 31 then some { c with cr0 := v, efer := c.efer &&& ~~~0x400 }
  else some { c with cr0 := v }

def writeCr4 (v : BitVec 32) : Option Cpu :=
  if c.lma ∧ !v.getLsbD 5 then none else some { c with cr4 := v }

/-- EFER only: SCE, LME and NXE can be written, LME not under paging. -/
def wrmsr : Option Cpu :=
  let v := c.gpr .eax
  if c.gpr .ecx ≠ 0xc0000080 ∨ c.gpr .edx ≠ 0 ∨ v &&& ~~~0xd01 ≠ 0 then none
  else if c.paging ∧ v.getLsbD 8 ≠ c.efer.getLsbD 8 then none
  else some { c with efer := v &&& ~~~0x400 ||| c.efer &&& 0x400 }

/-- A code segment of long mode must not be a 32-bit one as well. -/
def jmpFar (m : Mem) (sel : BitVec 16) : Option Machine :=
  if !c.pe then some ⟨{ c with cs := ⟨false, false⟩ }, m⟩
  else
    match c.descriptor m sel with
    | some p =>
      let e := m.read64 p
      if !isCode e ∨ c.lma ∧ e.getLsbD 53 ∧ e.getLsbD 54 then none
      else some ⟨{ c with cs := ⟨c.lma && e.getLsbD 53, e.getLsbD 54⟩ }, markAccessed m p⟩
    | none => none

/-- The registers `early_page` returns with. -/
def earlyPageRegs : Cpu :=
  (((c.set .eax 0x3fe00083).set .ebx 0x40000000).set .ecx 0).set .edi 0x35000

end Cpu

/-- What `call early_page` stores. -/
def callStores (esp ret ret' ret'' : Nat) : List Store :=
  ⟨esp - 4, 4, ret⟩ :: earlyPageCode (esp - 8) ret' ret''

def exec (i : Instr) (s : Machine) : Option Machine :=
  let c := s.cpu
  match i with
  | .mov r v => some { s with cpu := c.set r v }
  | .movReg r r' => some { s with cpu := c.set r (c.gpr r') }
  | .mov16 r v => some { s with cpu := c.set16 r v }
  | .movAl v => some { s with cpu := c.set .eax ((c.gpr .eax &&& 0xffffff00#32) ||| v.setWidth 32) }
  | .or r v => some { s with cpu := c.set r (c.gpr r ||| v) }
  | .shr r n => some { s with cpu := c.set r (c.gpr r >>> n) }
  | .load r r' =>
    (c.translate s.mem (c.base .ds + c.gpr r').toNat).map fun p =>
      { s with cpu := c.set r (s.mem.read32 p) }
  | .out _ => some s
  | .movSeg sr r => c.movSeg s.mem sr ((c.gpr r).setWidth 16)
  | .lgdt a => (c.lgdt s.mem a).map fun c => { s with cpu := c }
  | .lidt => some s
  | .readCr0 r => some { s with cpu := c.set r c.cr0 }
  | .writeCr0 r => (c.writeCr0 (c.gpr r)).map fun c => { s with cpu := c }
  | .writeCr3 r => some { s with cpu := { c with cr3 := c.gpr r } }
  | .readCr4 r => some { s with cpu := c.set r c.cr4 }
  | .writeCr4 r => (c.writeCr4 (c.gpr r)).map fun c => { s with cpu := c }
  | .wrmsr => c.wrmsr.map fun c => { s with cpu := c }
  | .jmpFar sel => c.jmpFar s.mem sel
  | .callEarlyPage ret ret' ret'' =>
    -- flat segments, no paging, and `rep stosd` upwards
    if c.paging ∨ c.df ∨ c.base .es ≠ 0 ∨ c.base .ss ≠ 0 ∨ c.base .ds ≠ 0 then none
    else
      some ⟨c.earlyPageRegs, Store.run (callStores (c.gpr .esp).toNat ret ret' ret'') s.mem⟩

/-- `addr n` is where instruction `n` lies. -/
def run (addr : Nat → Nat) : List Instr → Nat → Machine → Option Machine
  | [], _, s => some s
  | i :: is, n, s =>
    if s.cpu.translate s.mem (addr n) = some (addr n) then (exec i s).bind (run addr is (n + 1))
    else none

/-! ## The code -/

/-- Where the assembler puts things. -/
structure Layout where
  addr : Nat → Nat          -- of the instructions
  ret : Nat                 -- the return addresses of the three calls
  ret' : Nat
  ret'' : Nat
  gdtDesc : Nat
  gdtBase : Nat
  lmgdt : Nat
  lmgdtBase : Nat
  code : ∀ n, addr n < 0x7e00
  inside : ∀ a ∈ [gdtDesc, gdtBase, lmgdt, lmgdtBase], 0x7c00 ≤ a ∧ a + 24 ≤ 0x7e00
  order : gdtBase + 24 ≤ gdtDesc ∧ gdtDesc + 6 ≤ lmgdtBase ∧ lmgdtBase + 24 ≤ lmgdt

/-- From `Load GDTR` to the jump into protected mode. -/
def protectedMode (l : Layout) : List Instr :=
  [.mov16 .eax 0, .movSeg .ds .eax, .lgdt (BitVec.ofNat 32 l.gdtDesc),
    .readCr0 .eax, .or .eax (0x1#32 <<< 0), .writeCr0 .eax,
    .mov16 .edx 0, .mov16 .edx 0x10, .movSeg .ds .edx, .movSeg .ss .edx, .movSeg .es .edx,
    .movSeg .fs .edx, .movSeg .gs .edx, .jmpFar 0x0008]

/-- From `entry` to the jump into long mode. -/
def setupLm (l : Layout) : List Instr :=
  [.callEarlyPage l.ret l.ret' l.ret'', .mov .edi 0xfee00020, .load .eax .edi, .shr .eax 24,
    .movReg .ebp .eax, .movAl 0xFF, .out 0xA1, .out 0x21, .lidt,
    .readCr4 .eax, .or .eax (1#32 <<< 5), .writeCr4 .eax,
    .mov .esi (BitVec.ofNat 32 FIRST_PML4_BASE), .writeCr3 .esi,
    .mov .edx 0, .mov .eax 0x00000900, .mov .ecx 0xc0000080, .wrmsr,
    .readCr0 .eax, .or .eax (1#32 <<< 31), .writeCr0 .eax,
    .lgdt (BitVec.ofNat 32 l.lmgdt), .jmpFar 0x0008]

/-- The entries of the two GDTs. -/
def codeEntry : BitVec 64 := 0x00cf9a000000ffff
def dataEntry : BitVec 64 := 0x00cf92000000ffff
def longEntry : BitVec 64 := 0x00209a0000000000

/-- `e`, as assembled or as it is after it was loaded. -/
def SameDescriptor (e e' : BitVec 64) : Prop := e' = e ∨ e' = e ||| accessed

/-- The GDTs in the boot sector, for the first core or a later one. -/
structure Image (l : Layout) (m : Mem) : Prop where
  gdtLimit : m.read16 l.gdtDesc = 23#16
  gdtBase : m.read32 (l.gdtDesc + 2) = BitVec.ofNat 32 l.gdtBase
  code : SameDescriptor codeEntry (m.read64 (l.gdtBase + 8))
  data : SameDescriptor dataEntry (m.read64 (l.gdtBase + 16))
  lmLimit : m.read16 l.lmgdt = 23#16
  lmBase : m.read32 (l.lmgdt + 2) = BitVec.ofNat 32 l.lmgdtBase
  lmCode : SameDescriptor longEntry (m.read64 (l.lmgdtBase + 8))

/-! ## Instructions that may fault -/

section

variable {c : Cpu} {m : Mem} {l : Layout} {addr : Nat → Nat} {i : Instr} {is : List Instr} {n : Nat}
variable {s' : Machine} {r r' : Reg} {x : BitVec 32} {e : BitVec 64} {sel : BitVec 16}

/-- One instruction of a run, and the rest. -/
theorem run_cons {o : Option Machine} (hfetch : c.translate m (addr n) = some (addr n))
    (h : exec i ⟨c, m⟩ = some s') (hrest : run addr is (n + 1) s' = o) :
    run addr (i :: is) n ⟨c, m⟩ = o := by
  rw [run, if_pos hfetch, h, Option.bind_some, hrest]

/-! The instructions that cannot fault. -/

theorem exec_mov (v : BitVec 32) : exec (.mov r v) ⟨c, m⟩ = some ⟨c.set r v, m⟩ := rfl

theorem exec_mov16 (v : BitVec 16) : exec (.mov16 r v) ⟨c, m⟩ = some ⟨c.set16 r v, m⟩ := rfl

theorem exec_or (v : BitVec 32) (hx : c.gpr r = x) :
    exec (.or r v) ⟨c, m⟩ = some ⟨c.set r (x ||| v), m⟩ := hx ▸ rfl

theorem exec_movReg (hx : c.gpr r' = x) : exec (.movReg r r') ⟨c, m⟩ = some ⟨c.set r x, m⟩ :=
  hx ▸ rfl

theorem exec_movAl (v : BitVec 8) (hx : c.gpr .eax = x) : exec (.movAl v) ⟨c, m⟩ =
    some ⟨c.set .eax ((x &&& 0xffffff00#32) ||| v.setWidth 32), m⟩ := hx ▸ rfl

theorem exec_shr (k : Nat) (hx : c.gpr r = x) :
    exec (.shr r k) ⟨c, m⟩ = some ⟨c.set r (x >>> k), m⟩ := hx ▸ rfl

theorem exec_out (port : BitVec 8) : exec (.out port) ⟨c, m⟩ = some ⟨c, m⟩ := rfl

theorem exec_lidt : exec .lidt ⟨c, m⟩ = some ⟨c, m⟩ := rfl

theorem exec_readCr0 (hx : c.cr0 = x) : exec (.readCr0 r) ⟨c, m⟩ = some ⟨c.set r x, m⟩ :=
  hx ▸ rfl

theorem exec_readCr4 (hx : c.cr4 = x) : exec (.readCr4 r) ⟨c, m⟩ = some ⟨c.set r x, m⟩ :=
  hx ▸ rfl

theorem exec_writeCr3 (hx : c.gpr r = x) :
    exec (.writeCr3 r) ⟨c, m⟩ = some ⟨{ c with cr3 := x }, m⟩ := hx ▸ rfl

theorem translate_unpaged {va : Nat} (h : c.paging = false) : c.translate m va = some va := by
  simp [Cpu.translate, h]

@[simp] theorem set_gpr (c : Cpu) (r : Reg) (v : BitVec 32) : (c.set r v).gpr r = v :=
  Function.update_self ..

theorem low_set16 (c : Cpu) (r : Reg) (v : BitVec 16) :
    ((c.set16 r v).gpr r).setWidth 16 = v := by
  rw [Cpu.set16, set_gpr]
  apply BitVec.eq_of_getLsbD_eq
  intro i hi
  simp [hi]

/-! The accessed bit. -/

theorem markAccessed_out {p a : Nat} (h : a ≠ p + 5) : markAccessed m p a = m a :=
  Function.update_of_ne h ..

theorem read64_markAccessed (m : Mem) (p : Nat) :
    (markAccessed m p).read64 p = m.read64 p ||| accessed := by
  apply BitVec.eq_of_getLsbD_eq
  intro i hi
  have hbit : accessed.getLsbD i = decide (i = 40) := by
    rw [show accessed = BitVec.twoPow 64 40 from rfl, BitVec.getLsbD_twoPow]
    simp [eq_comm]
  rw [BitVec.getLsbD_or, Mem.getLsbD_read64 _ _ hi, Mem.getLsbD_read64 _ _ hi, hbit]
  by_cases hbyte : i / 8 = 5
  · rw [hbyte, markAccessed, Function.update_self, BitVec.getLsbD_or]
    congr 1
    have hlow : i % 8 = 0 ↔ i = 40 := by omega
    show (1#8).getLsbD (i % 8) = _
    rw [BitVec.getLsbD_one]
    simp [hlow]
  · rw [markAccessed_out (by omega), decide_eq_false (by omega), Bool.or_false]

/-- Setting it twice is setting it once. -/
theorem markAccessed_idem (m : Mem) (p : Nat) :
    markAccessed (markAccessed m p) p = markAccessed m p := by
  have hor : ∀ b : BitVec 8, b ||| 1 ||| 1 = b ||| 1 := by
    intro b
    rw [BitVec.or_assoc]
    rfl
  simp only [markAccessed, Function.update_self, Function.update_idem, hor]

theorem SameDescriptor.mark {p : Nat} (h : SameDescriptor e (m.read64 p)) :
    SameDescriptor e ((markAccessed m p).read64 p) := by
  rw [read64_markAccessed]
  rcases h with h | h
  · exact .inr (by rw [h])
  · refine .inr ?_
    rw [h, BitVec.or_assoc, BitVec.or_self]

/-- Whether a descriptor was loaded before makes no difference to loading it. -/
theorem SameDescriptor.eq_of {α : Type} {f : BitVec 64 → α} {e' : BitVec 64}
    (h : SameDescriptor e e') (hf : f (e ||| accessed) = f e) : f e' = f e := by
  rcases h with rfl | rfl
  · rfl
  · exact hf

/-- An entry of a GDT of three entries. -/
theorem descriptor_eq {b : Nat} (hg : c.gdtr = ⟨23, BitVec.ofNat 32 b⟩) (hb : b < 2 ^ 32)
    (hsel : sel = 8 ∨ sel = 16) (ht : c.translate m (b + sel.toNat) = some (b + sel.toNat)) :
    c.descriptor m sel = some (b + sel.toNat) := by
  have hbase : c.gdtr.base.toNat = b := by
    rw [hg, BitVec.toNat_ofNat]
    exact Nat.mod_eq_of_lt hb
  have hlimit : c.gdtr.limit.toNat = 23 := by rw [hg]; rfl
  have hi : sel.toNat / 8 * 8 = sel.toNat ∧ ¬ (sel.getLsbD 2 ∨ 23 < sel.toNat + 7) := by
    rcases hsel with rfl | rfl
    · decide
    · decide
  unfold Cpu.descriptor
  dsimp only
  rw [hbase, hlimit, hi.1, if_neg hi.2, ht]

theorem exec_load {v : BitVec 32} (hds : c.base .ds = 0#32) (hx : c.gpr r' = x)
    (ht : c.translate m x.toNat = some x.toNat) (hv : m.read32 x.toNat = v) :
    exec (.load r r') ⟨c, m⟩ = some ⟨c.set r v, m⟩ := by
  simp [exec, hds, hx, ht, hv]

theorem exec_movSeg_real {sr : Sreg} {v : BitVec 16} (hreal : c.pe = false)
    (hv : (c.gpr r).setWidth 16 = v) :
    exec (.movSeg sr r) ⟨c, m⟩ =
      some ⟨{ c with base := Function.update c.base sr (v.setWidth 32 <<< 4) }, m⟩ := by
  simp [exec, Cpu.movSeg, hreal, hv]

theorem exec_movSeg_data {sr : Sreg} {p : Nat} (hpe : c.pe = true)
    (hdesc : c.descriptor m ((c.gpr r).setWidth 16) = some p)
    (he : SameDescriptor dataEntry (m.read64 p)) :
    exec (.movSeg sr r) ⟨c, m⟩ =
      some ⟨{ c with base := Function.update c.base sr 0 }, markAccessed m p⟩ := by
  have hwritable : isWritable (m.read64 p) = true := he.eq_of (by decide)
  have hbase : descriptorBase (m.read64 p) = 0 := he.eq_of (by decide)
  simp [exec, Cpu.movSeg, hpe, hdesc, hwritable, hbase]

theorem exec_lgdt {a base : Nat} {limit : BitVec 16} (hds : c.base .ds = 0#32) (ha : a < 2 ^ 32)
    (ht : c.translate m a = some a) (hlimit : m.read16 a = limit)
    (hbase : m.read32 (a + 2) = BitVec.ofNat 32 base) (hsmall : base < 2 ^ 24) :
    exec (.lgdt (BitVec.ofNat 32 a)) ⟨c, m⟩ =
      some ⟨{ c with gdtr := ⟨limit, BitVec.ofNat 32 base⟩ }, m⟩ := by
  have haddr : (c.base .ds + BitVec.ofNat 32 a).toNat = a := by
    rw [hds, BitVec.zero_add, BitVec.toNat_ofNat]
    exact Nat.mod_eq_of_lt ha
  have hmask : BitVec.ofNat 32 base &&& 0xffffff#32 = BitVec.ofNat 32 base := by
    apply BitVec.eq_of_toNat_eq
    have hlow : base &&& 0xffffff = base % 2 ^ 24 := Nat.and_two_pow_sub_one_eq_mod base 24
    have hbig : base < 2 ^ 32 := by omega
    rw [BitVec.toNat_and, BitVec.toNat_ofNat, Nat.mod_eq_of_lt hbig]
    exact hlow.trans (Nat.mod_eq_of_lt hsmall)
  simp only [exec, Cpu.lgdt, haddr, ht, Option.map_some, hlimit, hbase]
  split
  · rfl
  · rw [show BitVec.ofNat 32 base &&& 16777215 = _ from hmask]

/-- Into protected mode, without paging. -/
theorem exec_writeCr0_pe (hx : c.gpr r = x) (hpaging : x.getLsbD 31 = false)
    (hcd : x.getLsbD 29 = true → x.getLsbD 30 = true) :
    exec (.writeCr0 r) ⟨c, m⟩ = some ⟨{ c with cr0 := x, efer := c.efer &&& ~~~0x400 }, m⟩ := by
  have hlegal : ¬ (x.getLsbD 29 = true ∧ (!x.getLsbD 30) = true) := by
    rintro ⟨h29, h30⟩
    rw [hcd h29] at h30
    cases h30
  simp only [exec, Cpu.writeCr0, hx, hpaging, Bool.false_eq_true, false_and, false_or, hlegal,
    if_false, Bool.not_false, if_true, Option.map_some]

/-- Long mode becomes active. -/
theorem exec_writeCr0_pg (hx : c.gpr r = x) (hpg : x.getLsbD 31 = true) (hpe : x.getLsbD 0 = true)
    (hcd : x.getLsbD 29 = true → x.getLsbD 30 = true) (hpaging : c.paging = false)
    (hlme : c.efer.getLsbD 8 = true) (hpae : c.cr4.getLsbD 5 = true) (hcs : c.cs.long = false) :
    exec (.writeCr0 r) ⟨c, m⟩ = some ⟨{ c with cr0 := x, efer := c.efer ||| 0x400 }, m⟩ := by
  simpa [exec, Cpu.writeCr0, hx, hpg, hpe, hpaging, hlme, hpae, hcs] using hcd

theorem exec_writeCr4 (hx : c.gpr r = x) (hlma : c.lma = false) :
    exec (.writeCr4 r) ⟨c, m⟩ = some ⟨{ c with cr4 := x }, m⟩ := by
  simp [exec, Cpu.writeCr4, hx, hlma]

theorem exec_jmpFar {cs : Code} {p : Nat} (hpe : c.pe = true)
    (hdesc : c.descriptor m sel = some p) (he : m.read64 p = e) (hcode : isCode e = true)
    (hmode : ¬ (c.lma = true ∧ e.getLsbD 53 = true ∧ e.getLsbD 54 = true))
    (hcs : ⟨c.lma && e.getLsbD 53, e.getLsbD 54⟩ = cs) :
    exec (.jmpFar sel) ⟨c, m⟩ = some ⟨{ c with cs := cs }, markAccessed m p⟩ := by
  have hlegal : ¬ ((!isCode e) = true ∨
      c.lma = true ∧ e.getLsbD 53 = true ∧ e.getLsbD 54 = true) := by
    rw [hcode]
    rintro (h | h)
    · cases h
    · exact hmode h
  simp only [exec, Cpu.jmpFar, hpe, Bool.not_true, Bool.false_eq_true, if_false, hdesc, he, hlegal,
    hcs]

/-- A data segment for each register of a list, after one was loaded. -/
theorem run_movSegs {o : Option Machine} {p : Nat} (srs : List Sreg) (hpe : c.pe = true)
    (hpaging : c.paging = false) (hdesc : ∀ m, c.descriptor m ((c.gpr r).setWidth 16) = some p)
    (he : SameDescriptor dataEntry (m.read64 p)) (hmark : markAccessed m p = m)
    (hrest : run addr is (n + srs.length)
      ⟨{ c with base := fun sr => if sr ∈ srs then 0 else c.base sr }, m⟩ = o) :
    run addr (srs.map (fun sr => .movSeg sr r) ++ is) n ⟨c, m⟩ = o := by
  induction srs generalizing c n with
  | nil => simpa using hrest
  | cons sr srs ih =>
    refine run_cons (translate_unpaged hpaging) (exec_movSeg_data hpe (hdesc m) he) ?_
    rw [hmark]
    refine ih hpe hpaging hdesc ?_
    rw [← hrest, List.length_cons, Nat.add_assoc, Nat.add_comm 1]
    congr 4
    funext x
    by_cases hx : x = sr
    · simp [hx]
    · simp [hx]

/-- The five data segments, of which the first load marks the descriptor. -/
theorem run_dataSegs {o : Option Machine} {p : Nat} (hpe : c.pe = true) (hpaging : c.paging = false)
    (hdesc : ∀ m, c.descriptor m ((c.gpr r).setWidth 16) = some p)
    (he : SameDescriptor dataEntry (m.read64 p))
    (hrest : run addr is (n + 5) ⟨{ c with base := fun _ => 0 }, markAccessed m p⟩ = o) :
    run addr (.movSeg .ds r :: .movSeg .ss r :: .movSeg .es r :: .movSeg .fs r :: .movSeg .gs r :: is)
      n ⟨c, m⟩ = o := by
  refine run_cons (translate_unpaged hpaging) (exec_movSeg_data hpe (hdesc m) he) ?_
  refine run_movSegs [.ss, .es, .fs, .gs] hpe hpaging hdesc he.mark (markAccessed_idem m p) ?_
  have hbase : (fun sr => if sr ∈ [Sreg.ss, .es, .fs, .gs] then 0 else
      Function.update c.base .ds 0 sr) = fun _ => 0 := by
    funext sr
    cases sr <;> rfl
  rw [← hrest]
  exact congrArg (fun base => run addr is (n + 5) ⟨{ c with base := base }, markAccessed m p⟩) hbase

/-! ## Protected mode -/

/-- The code loads from the boot sector only. -/
theorem Layout.lt (l : Layout) {a : Nat} (ha : a ∈ [l.gdtDesc, l.gdtBase, l.lmgdt, l.lmgdtBase]) :
    a < 2 ^ 24 := by
  have := (l.inside a ha).2
  omega

/-- The processor as the code leaves it in protected mode. -/
def protectedCpu (c : Cpu) (l : Layout) : Cpu :=
  { (((((c.set16 .eax 0).set .eax c.cr0).set .eax (c.cr0 ||| 1)).set16 .edx 0).set16 .edx 0x10) with
    base := fun _ => 0
    cs := ⟨false, true⟩
    cr0 := c.cr0 ||| 1
    efer := c.efer &&& ~~~0x400
    gdtr := ⟨23, BitVec.ofNat 32 l.gdtBase⟩ }

/-- Memory with the two descriptors of the first GDT marked. -/
def protectedMem (l : Layout) (m : Mem) : Mem :=
  markAccessed (markAccessed m (l.gdtBase + 16)) (l.gdtBase + 8)

theorem protectedMode_run (hm : Image l m) (hreal : c.pe = false) (hpaging : c.paging = false)
    (hcd : c.cr0.getLsbD 29 = true → c.cr0.getLsbD 30 = true) :
    run addr (protectedMode l) n ⟨c, m⟩ = some ⟨protectedCpu c l, protectedMem l m⟩ := by
  have hf : ∀ {c : Cpu} {m : Mem} {n}, c.paging = false →
      c.translate m (addr n) = some (addr n) := fun h => translate_unpaged h
  have h31 : (c.cr0 ||| 1#32).getLsbD 31 = false := by simpa [Cpu.paging] using hpaging
  have h29 : (c.cr0 ||| 1#32).getLsbD 29 = true → (c.cr0 ||| 1#32).getLsbD 30 = true := by
    simpa using hcd
  have h0 : (c.cr0 ||| 1#32).getLsbD 0 = true := by simp
  have hlma : (c.efer &&& ~~~0x400#32).getLsbD 10 = false := by simp
  have hcodeEq : (markAccessed m (l.gdtBase + 16)).read64 (l.gdtBase + 8) =
      m.read64 (l.gdtBase + 8) := Mem.read64_congr fun x _ hx => markAccessed_out (by omega)
  have hcode : isCode (m.read64 (l.gdtBase + 8)) = true := hm.code.eq_of (by decide)
  have h53 : (m.read64 (l.gdtBase + 8)).getLsbD 53 = false :=
    hm.code.eq_of (f := (·.getLsbD 53)) (by decide)
  have h54 : (m.read64 (l.gdtBase + 8)).getLsbD 54 = true :=
    hm.code.eq_of (f := (·.getLsbD 54)) (by decide)
  have hbits : ∀ b : Bool, (⟨b && (m.read64 (l.gdtBase + 8)).getLsbD 53,
      (m.read64 (l.gdtBase + 8)).getLsbD 54⟩ : Code) = ⟨false, true⟩ := by
    intro b
    rw [h53, h54, Bool.and_false]
  have hlt := l.lt (a := l.gdtDesc) (by simp)
  have hlt' := l.lt (a := l.gdtBase) (by simp)
  unfold protectedMode
  refine run_cons (hf hpaging) (exec_mov16 _) ?_
  refine run_cons (hf hpaging) (exec_movSeg_real hreal (low_set16 c .eax 0)) ?_
  refine run_cons (hf hpaging) (exec_lgdt rfl (by omega) (translate_unpaged hpaging)
    hm.gdtLimit hm.gdtBase hlt') ?_
  refine run_cons (hf hpaging) (exec_readCr0 (x := c.cr0) rfl) ?_
  refine run_cons (hf hpaging) (exec_or _ (set_gpr ..)) ?_
  refine run_cons (hf hpaging) (exec_writeCr0_pe (set_gpr ..) h31 h29) ?_
  refine run_cons (hf h31) (exec_mov16 _) ?_
  refine run_cons (hf h31) (exec_mov16 _) ?_
  refine run_dataSegs h0 h31 (p := l.gdtBase + 16) ?_ hm.data ?_
  · intro m
    rw [low_set16]
    exact descriptor_eq rfl (by omega) (.inr rfl) (translate_unpaged h31)
  refine run_cons (hf h31) (exec_jmpFar h0 (p := l.gdtBase + 8) ?_ hcodeEq hcode ?_ (hbits _)) ?_
  · exact descriptor_eq rfl (by omega) (.inl rfl) (translate_unpaged h31)
  · rintro ⟨h, -⟩
    exact absurd (hlma.symm.trans h) Bool.false_ne_true
  · rfl

/-! ## Long mode -/

theorem exec_callEarlyPage {ret ret' ret'' : Nat} (hpaging : c.paging = false) (hdf : c.df = false)
    (hbase : c.base = fun _ => 0) :
    exec (.callEarlyPage ret ret' ret'') ⟨c, m⟩ =
      some ⟨c.earlyPageRegs, Store.run (callStores (c.gpr .esp).toNat ret ret' ret'') m⟩ := by
  simp [exec, hpaging, hdf, hbase]

/-- The call stores to the tables and to eight bytes of the stack. -/
theorem run_callStores {esp ret ret' ret'' x : Nat} (hsp : 8 ≤ esp)
    (hx : x < FIRST_PML4_BASE ∨ 0x36000 ≤ x) (hstack : x < esp - 8 ∨ esp ≤ x) :
    Store.run (callStores esp ret ret' ret'') m x = m x := by
  rw [callStores, Store.run_cons, run_earlyPageCode _ _ _ (by omega), earlyPage_out _ hx]
  exact Store.apply_out (by simp only [Store.Misses]; omega)

theorem callStores_tables {esp ret ret' ret'' : Nat} (hsp : 8 ≤ esp) (hsp' : esp ≤ 0x7c00) :
    EarlyTables (Store.run (callStores esp ret ret' ret'') m) := by
  rw [callStores, Store.run_cons]
  refine (earlyPage_tables _).congr fun x hx _ => run_earlyPageCode _ _ _ ?_
  simp only [FIRST_PML4_BASE] at hx
  omega

/-- An image is what these reads make of memory. -/
theorem Image.of_reads {m' : Mem} (h : Image l m)
    (h16 : ∀ a ∈ [l.gdtDesc, l.lmgdt], m'.read16 a = m.read16 a)
    (h32 : ∀ a ∈ [l.gdtDesc, l.lmgdt], m'.read32 (a + 2) = m.read32 (a + 2))
    (h64 : ∀ a ∈ [l.gdtBase + 8, l.gdtBase + 16, l.lmgdtBase + 8], ∀ e,
      SameDescriptor e (m.read64 a) → SameDescriptor e (m'.read64 a)) : Image l m' where
  gdtLimit := by rw [h16 _ (by simp), h.gdtLimit]
  gdtBase := by rw [h32 _ (by simp), h.gdtBase]
  code := h64 _ (by simp) _ h.code
  data := h64 _ (by simp) _ h.data
  lmLimit := by rw [h16 _ (by simp), h.lmLimit]
  lmBase := by rw [h32 _ (by simp), h.lmBase]
  lmCode := h64 _ (by simp) _ h.lmCode

theorem Image.congr {m' : Mem} (h : Image l m) (hx : ∀ x, 0x7c00 ≤ x → x < 0x7e00 → m' x = m x) :
    Image l m' := by
  have hinside := l.inside
  simp only [List.mem_cons, List.not_mem_nil, or_false, forall_eq_or_imp, forall_eq] at hinside
  refine h.of_reads (fun a ha => ?_) (fun a ha => ?_) fun a ha e he => ?_
  · simp only [List.mem_cons, List.not_mem_nil, or_false] at ha
    exact Mem.read16_congr fun x hx' hx'' => hx x (by omega) (by omega)
  · simp only [List.mem_cons, List.not_mem_nil, or_false] at ha
    exact Mem.read32_congr fun x hx' hx'' => hx x (by omega) (by omega)
  · simp only [List.mem_cons, List.not_mem_nil, or_false] at ha
    have hsame : m'.read64 a = m.read64 a :=
      Mem.read64_congr fun x hx' hx'' => hx x (by omega) (by omega)
    rwa [hsame]

/-- Marking a descriptor of the image leaves an image. -/
theorem Image.mark (h : Image l m) {p : Nat}
    (hp : p ∈ [l.gdtBase + 8, l.gdtBase + 16, l.lmgdtBase + 8]) : Image l (markAccessed m p) := by
  have horder := l.order
  simp only [List.mem_cons, List.not_mem_nil, or_false] at hp
  refine h.of_reads (fun a ha => ?_) (fun a ha => ?_) fun a ha e he => ?_
  · simp only [List.mem_cons, List.not_mem_nil, or_false] at ha
    exact Mem.read16_congr fun x hx hx' => markAccessed_out (by omega)
  · simp only [List.mem_cons, List.not_mem_nil, or_false] at ha
    exact Mem.read32_congr fun x hx hx' => markAccessed_out (by omega)
  · simp only [List.mem_cons, List.not_mem_nil, or_false] at ha
    by_cases hap : a = p
    · subst hap
      exact he.mark
    · have hsame : (markAccessed m p).read64 a = m.read64 a :=
        Mem.read64_congr fun x hx hx' => markAccessed_out (by omega)
      rwa [hsame]

theorem translate_walk {va : Nat} (hpaging : c.paging = true) (hlma : c.lma = true)
    (hcr3 : c.cr3 = BitVec.ofNat 32 FIRST_PML4_BASE) :
    c.translate m va = (Walk.walk m FIRST_PML4_BASE va).map Walk.Translation.phys := by
  have hbase : c.cr3.toNat = FIRST_PML4_BASE := by
    rw [hcr3]
    rfl
  simp [Cpu.translate, hpaging, hlma, hbase]

/-- Under the tables of `early_page` the first GiB is where it was. -/
theorem translate_early {va : Nat} (hpaging : c.paging = true) (hlma : c.lma = true)
    (hcr3 : c.cr3 = BitVec.ofNat 32 FIRST_PML4_BASE) (h : EarlyTables m) (hva : va < 2 ^ 30) :
    c.translate m va = some va := by
  rw [translate_walk hpaging hlma hcr3, h.walk, if_pos (by simp only [Walk.index]; omega),
    Nat.mod_eq_of_lt hva]
  rfl

/-- EFER with NXE and LME. -/
theorem exec_wrmsr (hecx : c.gpr .ecx = 0xc0000080) (hedx : c.gpr .edx = 0)
    (heax : c.gpr .eax = 0x900) (hpaging : c.paging = false) (hlma : c.lma = false) :
    exec .wrmsr ⟨c, m⟩ = some ⟨{ c with efer := 0x900 }, m⟩ := by
  have hold : c.efer &&& 0x400#32 = 0#32 := by
    apply BitVec.eq_of_getLsbD_eq
    intro i hi
    have hbit : c.efer.getLsbD 10 = false := hlma
    rw [show 0x400#32 = BitVec.twoPow 32 10 from rfl, BitVec.getLsbD_and, BitVec.getLsbD_twoPow]
    by_cases h : i = 10
    · rw [h, hbit, Bool.false_and]
      rfl
    · simp [Ne.symm h]
  simp [exec, Cpu.wrmsr, hecx, hedx, heax, hpaging, hold]

/-- The processor as the code leaves it in long mode, with `id` read from the APIC. -/
def longCpu (c : Cpu) (l : Layout) (id : BitVec 32) : Cpu :=
  { (((((((((((((c.earlyPageRegs.set .edi 0xfee00020).set .eax id).set .eax (id >>> 24)).set .ebp
      (id >>> 24)).set .eax ((id >>> 24) &&& 0xffffff00#32 ||| (0xff#8).setWidth 32)).set .eax
      c.cr4).set .eax (c.cr4 ||| 1#32 <<< 5)).set .esi (BitVec.ofNat 32 FIRST_PML4_BASE)).set .edx
      0).set .eax 0x900).set .ecx 0xc0000080).set .eax c.cr0).set .eax (c.cr0 ||| 1#32 <<< 31)) with
    cs := ⟨true, false⟩
    cr0 := c.cr0 ||| 1#32 <<< 31
    cr3 := BitVec.ofNat 32 FIRST_PML4_BASE
    cr4 := c.cr4 ||| 1#32 <<< 5
    efer := 0x900 ||| 0x400
    gdtr := ⟨23, BitVec.ofNat 32 l.lmgdtBase⟩ }

theorem setupLm_run (hm : Image l m) (hpe : c.pe = true) (hdf : c.df = false)
    (hpaging : c.paging = false) (hlma : c.lma = false) (hbase : c.base = fun _ => 0)
    (hcs : c.cs.long = false) (hcd : c.cr0.getLsbD 29 = true → c.cr0.getLsbD 30 = true)
    (hsp : c.gpr .esp = 0x7c00) :
    run l.addr (setupLm l) n ⟨c, m⟩ =
      some ⟨longCpu c l (m.read32 0xfee00020),
        markAccessed (Store.run (callStores 0x7c00 l.ret l.ret' l.ret'') m) (l.lmgdtBase + 8)⟩ := by
  have hesp : (c.gpr .esp).toNat = 0x7c00 := by rw [hsp]; rfl
  have hf : ∀ {c : Cpu} {m : Mem} {n}, c.paging = false →
      c.translate m (l.addr n) = some (l.addr n) := fun h => translate_unpaged h
  generalize hm' : Store.run (callStores 0x7c00 l.ret l.ret' l.ret'') m = m'
  have hout : ∀ x, x < FIRST_PML4_BASE ∨ 0x36000 ≤ x → 0x7c00 ≤ x → m' x = m x :=
    fun x hx hx' => hm' ▸ run_callStores (by omega) hx (.inr (by omega))
  have htables : EarlyTables m' := hm' ▸ callStores_tables (by omega) (by omega)
  have hid : m'.read32 (0xfee00020 : BitVec 32).toNat = m.read32 0xfee00020 := by
    rw [show (0xfee00020 : BitVec 32).toNat = 0xfee00020 from rfl]
    exact Mem.read32_congr fun x hx _ => hout x (.inr (by omega)) (by omega)
  have himage : Image l m' :=
    hm.congr fun x hx hx' => hout x (.inl (by simp only [FIRST_PML4_BASE]; omega)) hx
  have hlt := l.lt (a := l.lmgdt) (by simp)
  have hlt' := l.lt (a := l.lmgdtBase) (by simp)
  have hcode : isCode (m'.read64 (l.lmgdtBase + 8)) = true := himage.lmCode.eq_of (by decide)
  have h53 : (m'.read64 (l.lmgdtBase + 8)).getLsbD 53 = true :=
    himage.lmCode.eq_of (f := (·.getLsbD 53)) (by decide)
  have h54 : (m'.read64 (l.lmgdtBase + 8)).getLsbD 54 = false :=
    himage.lmCode.eq_of (f := (·.getLsbD 54)) (by decide)
  have h31 : (c.cr0 ||| 1#32 <<< 31).getLsbD 31 = true := by simp
  have h0 : (c.cr0 ||| 1#32 <<< 31).getLsbD 0 = true := by simpa [Cpu.pe] using hpe
  have h29 : (c.cr0 ||| 1#32 <<< 31).getLsbD 29 = true →
      (c.cr0 ||| 1#32 <<< 31).getLsbD 30 = true := by simpa using hcd
  have hpae : (c.cr4 ||| 1#32 <<< 5).getLsbD 5 = true := by simp
  have hlme : (0x900#32).getLsbD 8 = true := by decide
  have hactive : (0x900#32 ||| 0x400#32).getLsbD 10 = true := by decide
  have hbits : (⟨(0x900#32 ||| 0x400#32).getLsbD 10 && (m'.read64 (l.lmgdtBase + 8)).getLsbD 53,
      (m'.read64 (l.lmgdtBase + 8)).getLsbD 54⟩ : Code) = ⟨true, false⟩ := by
    rw [hactive, h53, h54]
    rfl
  have hfetch : ∀ {c : Cpu} {n}, c.paging = true → c.lma = true →
      c.cr3 = BitVec.ofNat 32 FIRST_PML4_BASE → c.translate m' (l.addr n) = some (l.addr n) :=
    fun h h' h'' => translate_early h h' h'' htables ((l.code _).trans (by omega))
  unfold setupLm
  refine run_cons (hf hpaging) (exec_callEarlyPage hpaging hdf hbase) ?_
  rw [hesp, hm']
  refine run_cons (hf hpaging) (exec_mov _) ?_
  refine run_cons (hf hpaging) (exec_load (congrFun hbase _) (set_gpr ..)
    (translate_unpaged hpaging) hid) ?_
  refine run_cons (hf hpaging) (exec_shr _ (set_gpr ..)) ?_
  refine run_cons (hf hpaging) (exec_movReg (set_gpr ..)) ?_
  refine run_cons (hf hpaging) (exec_movAl (x := m.read32 0xfee00020 >>> 24) _ rfl) ?_
  refine run_cons (hf hpaging) (exec_out _) ?_
  refine run_cons (hf hpaging) (exec_out _) ?_
  refine run_cons (hf hpaging) exec_lidt ?_
  refine run_cons (hf hpaging) (exec_readCr4 (x := c.cr4) rfl) ?_
  refine run_cons (hf hpaging) (exec_or _ (set_gpr ..)) ?_
  refine run_cons (hf hpaging) (exec_writeCr4 (set_gpr ..) hlma) ?_
  refine run_cons (hf hpaging) (exec_mov _) ?_
  refine run_cons (hf hpaging) (exec_writeCr3 (set_gpr ..)) ?_
  refine run_cons (hf hpaging) (exec_mov _) ?_
  refine run_cons (hf hpaging) (exec_mov _) ?_
  refine run_cons (hf hpaging) (exec_mov _) ?_
  refine run_cons (hf hpaging) (exec_wrmsr rfl rfl rfl hpaging hlma) ?_
  refine run_cons (hf hpaging) (exec_readCr0 (x := c.cr0) rfl) ?_
  refine run_cons (hf hpaging) (exec_or _ (set_gpr ..)) ?_
  refine run_cons (hf hpaging) (exec_writeCr0_pg (set_gpr ..) h31 h0 h29 hpaging hlme hpae hcs) ?_
  refine run_cons (hfetch h31 hactive rfl) (exec_lgdt (congrFun hbase _) (by omega)
    (translate_early h31 hactive rfl htables (by omega)) himage.lmLimit himage.lmBase hlt') ?_
  refine run_cons (hfetch h31 hactive rfl) (exec_jmpFar h0 (p := l.lmgdtBase + 8) ?_ rfl hcode ?_
    hbits) ?_
  · have hsel : l.lmgdtBase + (8#16).toNat < 2 ^ 30 := by
      rw [show (8#16).toNat = 8 from rfl]
      omega
    exact descriptor_eq rfl (by omega) (.inl rfl) (translate_early h31 hactive rfl htables hsel)
  · rw [h54]
    rintro ⟨-, -, h⟩
    cases h
  · rfl

/-! ## Both halves -/

theorem run_append (is is' : List Instr) {n : Nat} {s : Machine} :
    run addr (is ++ is') n s = (run addr is n s).bind (run addr is' (n + is.length)) := by
  induction is generalizing n s with
  | nil => rfl
  | cons i is ih =>
    have hrest : ∀ s', run addr (is ++ is') (n + 1) s' =
        (run addr is (n + 1) s').bind (run addr is' (n + (is.length + 1))) := by
      intro s'
      rw [ih, Nat.add_assoc, Nat.add_comm 1]
    rw [List.cons_append, List.length_cons, run, run]
    split
    · rw [Option.bind_assoc]
      congr 1
      funext s'
      exact hrest s'
    · rfl

/-- From `mov esp, 0x40000` to the jump to `entry_p`. In 64-bit mode a write to a 32-bit register
clears the rest of it. -/
def enterLong (c : Cpu) : Cpu :=
  let c := c.set .esp 0x40000
  if ((c.gpr .ebp).setWidth 16).slt 0x1 then c.set16 .ecx 0x0
  else
    let c := (c.set .edx 0x4000).set .eax (c.gpr .ebp)
    let product := (c.gpr .eax).toNat * (c.gpr .edx).toNat
    let c := (c.set .eax (BitVec.ofNat 32 product)).set .edx (BitVec.ofNat 32 (product / 2 ^ 32))
    let c := c.set .esp (c.gpr .esp + c.gpr .eax)
    c.set16 .ecx ((c.gpr .ebp).setWidth 16)

theorem bp_slt {id : Nat} (hid : id < 256) :
    ((BitVec.ofNat 32 id).setWidth 16).slt 0x1 = decide (id = 0) := by
  have hbp : ((BitVec.ofNat 32 id).setWidth 16).toNat = id := by
    rw [BitVec.toNat_setWidth, BitVec.toNat_ofNat]
    omega
  have hint : ((BitVec.ofNat 32 id).setWidth 16).toInt = id := by
    rw [BitVec.toInt_eq_toNat_of_lt (by omega), hbp]
  rw [BitVec.slt, hint, show (0x1 : BitVec 16).toInt = 1 from rfl]
  exact decide_eq_decide.2 (by omega)

theorem enterLong_esp {id : Nat} (h : c.gpr .ebp = BitVec.ofNat 32 id) (hid : id < 256) :
    ((enterLong c).gpr .esp).toNat = 0x40000 + 0x4000 * id := by
  have hebp : (c.set .esp 0x40000).gpr .ebp = BitVec.ofNat 32 id := h
  rw [enterLong, hebp, bp_slt hid]
  by_cases h0 : id = 0
  · rw [if_pos (by simpa using h0), h0]
    rfl
  · rw [if_neg (by simpa using h0)]
    have hmul : (BitVec.ofNat 32 id).toNat * (0x4000#32).toNat = id * 0x4000 := by
      rw [BitVec.toNat_ofNat, Nat.mod_eq_of_lt (by omega)]
      rfl
    show (0x40000#32 + BitVec.ofNat 32 ((BitVec.ofNat 32 id).toNat * (0x4000#32).toNat)).toNat = _
    rw [hmul, BitVec.toNat_add, BitVec.toNat_ofNat, BitVec.toNat_ofNat]
    omega

theorem enterLong_cx {id : Nat} (h : c.gpr .ebp = BitVec.ofNat 32 id) (hid : id < 256) :
    ((enterLong c).gpr .ecx).setWidth 16 = BitVec.ofNat 16 id := by
  have hebp : (c.set .esp 0x40000).gpr .ebp = BitVec.ofNat 32 id := h
  have hbp : (BitVec.ofNat 32 id).setWidth 16 = BitVec.ofNat 16 id := by
    apply BitVec.eq_of_toNat_eq
    rw [BitVec.toNat_setWidth, BitVec.toNat_ofNat, BitVec.toNat_ofNat]
    omega
  rw [enterLong, hebp, bp_slt hid]
  by_cases h0 : id = 0
  · rw [if_pos (by simpa using h0), h0]
    exact low_set16 _ _ _
  · rw [if_neg (by simpa using h0)]
    refine (low_set16 _ _ _).trans ?_
    exact (congrArg (BitVec.setWidth 16) h).trans hbp

/-- The number of a core, as the code reads it from the APIC. -/
def apicId (m : Mem) : Nat := (m.read32 0xfee00020).toNat / 2 ^ 24

/-- In real mode, with paging off, the direction flag clear and the stack at `0x7c00`. -/
structure Start (l : Layout) (c : Cpu) (m : Mem) : Prop where
  image : Image l m
  real : c.pe = false
  unpaged : c.paging = false
  upwards : c.df = false
  cache : c.cr0.getLsbD 29 = true → c.cr0.getLsbD 30 = true
  esp : c.gpr .esp = 0x7c00

/-- Memory as the code leaves it. -/
def bootedMem (l : Layout) (m : Mem) : Mem :=
  markAccessed (Store.run (callStores 0x7c00 l.ret l.ret' l.ret'') (protectedMem l m))
    (l.lmgdtBase + 8)

/-- The bytes of the boot sector with the accessed bits of the three descriptors that are loaded. -/
def Layout.Loaded (l : Layout) (x : Nat) : Prop :=
  x = l.gdtBase + 8 + 5 ∨ x = l.gdtBase + 16 + 5 ∨ x = l.lmgdtBase + 8 + 5

instance (l : Layout) (x : Nat) : Decidable (l.Loaded x) := inferInstanceAs (Decidable (_ ∨ _))

/-- They are in the boot sector. -/
theorem Layout.Loaded.sector {x : Nat} (h : l.Loaded x) : 0x7c00 ≤ x ∧ x < 0x7e00 := by
  have hg := l.inside l.gdtBase (by simp)
  have hl := l.inside l.lmgdtBase (by simp)
  rcases h with rfl | rfl | rfl
  · omega
  · omega
  · omega

/-- Outside the tables and the stack only accessed bits have changed. -/
theorem bootedMem_out {x : Nat} (hx : x < FIRST_PML4_BASE ∨ 0x36000 ≤ x)
    (hstack : x < 0x7bf8 ∨ 0x7c00 ≤ x) :
    bootedMem l m x = if l.Loaded x then m x ||| 1 else m x := by
  have horder := l.order
  have hcall : Store.run (callStores 0x7c00 l.ret l.ret' l.ret'') (protectedMem l m) x =
      protectedMem l m x := run_callStores (by omega) hx (by omega)
  unfold bootedMem
  by_cases hlm : x = l.lmgdtBase + 8 + 5
  · rw [if_pos (.inr (.inr hlm)), hlm, markAccessed, Function.update_self, ← hlm, hcall, protectedMem,
      markAccessed_out (by omega), markAccessed_out (by omega)]
  · rw [markAccessed_out hlm, hcall, protectedMem]
    by_cases hcode : x = l.gdtBase + 8 + 5
    · rw [if_pos (.inl hcode), hcode, markAccessed, Function.update_self, markAccessed_out (by omega)]
    · rw [markAccessed_out hcode]
      by_cases hdata : x = l.gdtBase + 16 + 5
      · rw [if_pos (.inr (.inl hdata)), hdata, markAccessed, Function.update_self]
      · rw [markAccessed_out hdata, if_neg]
        rintro (h | h | h)
        · exact hcode h
        · exact hdata h
        · exact hlm h

theorem bootedMem_tables : EarlyTables (bootedMem l m) := by
  have hinside := l.inside l.lmgdtBase (by simp)
  refine (callStores_tables (by omega) (by omega)).congr fun x hx _ => markAccessed_out ?_
  simp only [FIRST_PML4_BASE] at hx
  omega

theorem protectedMem_image (h : Image l m) : Image l (protectedMem l m) :=
  (h.mark (by simp)).mark (by simp)

/-- A later core finds the image it needs. -/
theorem bootedMem_image (h : Image l m) : Image l (bootedMem l m) := by
  refine Image.mark ((protectedMem_image h).congr fun x hx hx' => ?_) (by simp)
  exact run_callStores (by omega) (.inl (by simp only [FIRST_PML4_BASE]; omega)) (.inr hx)

theorem Start.run_eq (h : Start l c m) :
    run l.addr (protectedMode l ++ setupLm l) 0 ⟨c, m⟩ =
      some ⟨longCpu (protectedCpu c l) l (m.read32 0xfee00020), bootedMem l m⟩ := by
  have hcd : (protectedCpu c l).cr0.getLsbD 29 = true →
      (protectedCpu c l).cr0.getLsbD 30 = true := by simpa [protectedCpu] using h.cache
  have hpe : (protectedCpu c l).pe = true := by simp [protectedCpu, Cpu.pe]
  have hpaging : (protectedCpu c l).paging = false := by
    simpa [protectedCpu, Cpu.paging] using h.unpaged
  have hlma : (protectedCpu c l).lma = false := by simp [protectedCpu, Cpu.lma]
  have hid : (protectedMem l m).read32 0xfee00020 = m.read32 0xfee00020 := by
    have hinside := l.inside l.gdtBase (by simp)
    refine Mem.read32_congr fun x hx _ => ?_
    rw [protectedMem, markAccessed_out (by omega), markAccessed_out (by omega)]
  rw [run_append, protectedMode_run h.image h.real h.unpaged h.cache, Option.bind_some,
    setupLm_run (protectedMem_image h.image) hpe h.upwards hpaging hlma rfl rfl hcd h.esp, hid]
  rfl

theorem apicId_lt : apicId m < 256 := by
  have := (m.read32 0xfee00020).isLt
  rw [apicId]
  omega

theorem longCpu_paging {id : BitVec 32} : (longCpu c l id).paging = true := by
  simp [longCpu, Cpu.paging]

theorem longCpu_lma {id : BitVec 32} : (longCpu c l id).lma = true := by
  simp [longCpu, Cpu.lma]

theorem longCpu_mode {id : BitVec 32} : (longCpu (protectedCpu c l) l id).mode = .long := by
  have hpe : (longCpu (protectedCpu c l) l id).pe = true := by simp [longCpu, protectedCpu, Cpu.pe]
  have hcs : (longCpu (protectedCpu c l) l id).cs.long = true := rfl
  simp [Cpu.mode, hpe, hcs, longCpu_lma]

theorem longCpu_ebp :
    (longCpu c l (m.read32 0xfee00020)).gpr .ebp = BitVec.ofNat 32 (apicId m) := by
  show m.read32 0xfee00020 >>> 24 = _
  apply BitVec.eq_of_toNat_eq
  rw [apicId, BitVec.toNat_ushiftRight, Nat.shiftRight_eq_div_pow, BitVec.toNat_ofNat]
  exact (Nat.mod_eq_of_lt (apicId_lt.trans (by omega))).symm

/-! ## A boot sector -/

def bootLayout : Layout where
  addr n := 0x7c80 + 4 * (n % 40)
  ret := 0x7ce0
  ret' := 0x7d50
  ret'' := 0x7d78
  gdtDesc := 0x7d98
  gdtBase := 0x7d80
  lmgdt := 0x7db8
  lmgdtBase := 0x7da0
  code n := by omega
  inside := by decide
  order := by decide

def bootBytes : List Nat :=
  [0, 0, 0, 0, 0, 0, 0, 0, 0xff, 0xff, 0, 0, 0, 0x9a, 0xcf, 0, 0xff, 0xff, 0, 0, 0, 0x92, 0xcf, 0,
    23, 0, 0x80, 0x7d, 0, 0, 0, 0, 0, 0, 0, 0, 0, 0, 0, 0, 0, 0, 0, 0, 0, 0x9a, 0x20, 0,
    0, 0, 0, 0, 0, 0x92, 0, 0, 23, 0, 0xa0, 0x7d]

def bootSector : Mem := fun x => BitVec.ofNat 8 (bootBytes.getD (x - 0x7d80) 0)

/-- Memory with the sector, seen by the core of the given APIC ID. -/
def bootMem (id : BitVec 8) : Mem := Function.update bootSector 0xfee00023 id

/-- As after a reset, with the stack in place. -/
def bootCpu : Cpu where
  gpr := Function.update (fun _ => 0) .esp 0x7c00
  base _ := 0
  cs := ⟨false, false⟩
  cr0 := 0x60000010
  cr3 := 0
  cr4 := 0
  efer := 0
  gdtr := ⟨0xffff, 0⟩
  df := false

theorem bootSector_image : Image bootLayout bootSector := by
  constructor
  · decide
  · decide
  · exact .inl (by decide)
  · exact .inl (by decide)
  · decide
  · decide
  · exact .inl (by decide)

theorem start_of_image (h : Image bootLayout m) : Start bootLayout bootCpu m where
  image := h
  real := rfl
  unpaged := rfl
  upwards := rfl
  cache _ := rfl
  esp := rfl

theorem boot_start (id : BitVec 8) : Start bootLayout bootCpu (bootMem id) :=
  start_of_image (bootSector_image.congr fun _ _ _ => Function.update_of_ne (by omega) ..)

theorem apicId_update (m : Mem) (id : BitVec 8) :
    apicId (Function.update m 0xfee00023 id) = id.toNat := by
  have hbyte : Function.update m 0xfee00023 id (0xfee00020 + 3) = id := Function.update_self ..
  generalize Function.update m 0xfee00023 id = m at hbyte ⊢
  have hsplit : Mem.readLE m 0xfee00020 4 =
      Mem.readLE m 0xfee00020 3 + 256 ^ 3 * Mem.readLE m (0xfee00020 + 3) 1 :=
    Mem.readLE_add _ 3 1 _
  have hlow := Mem.readLE_lt m 3 0xfee00020
  have hhigh : Mem.readLE m (0xfee00020 + 3) 1 = id.toNat := by
    rw [Mem.readLE, Mem.readLE, hbyte]
    omega
  rw [apicId, Mem.read32, BitVec.toNat_ofNat, hsplit, hhigh]
  omega

/-! ## The whole run -/

/-- From any start, whatever the other registers and the rest of memory hold, the code arrives in
64-bit mode, with the first GiB mapped to itself and nothing else, and with a stack by its APIC ID.
It stores to the tables and to eight bytes below `0x7c00`, and marks the descriptors it loads, which
leaves the boot sector as the next core needs it. -/
theorem boot_run (h : Start l c m) :
    ∃ s, run l.addr (protectedMode l ++ setupLm l) 0 ⟨c, m⟩ = some s ∧
      s.cpu.mode = .long ∧
      (∀ va, va < 2 ^ 48 → s.cpu.translate s.mem va = if va < 2 ^ 30 then some va else none) ∧
      (∀ x, x < FIRST_PML4_BASE ∨ 0x36000 ≤ x → x < 0x7bf8 ∨ 0x7c00 ≤ x →
        s.mem x = if l.Loaded x then m x ||| 1 else m x) ∧
      Image l s.mem ∧
      ((enterLong s.cpu).gpr .esp).toNat = 0x40000 + 0x4000 * apicId m ∧
      ((enterLong s.cpu).gpr .ecx).setWidth 16 = BitVec.ofNat 16 (apicId m) := by
  have hebp := longCpu_ebp (c := protectedCpu c l) (l := l) (m := m)
  refine ⟨_, h.run_eq, longCpu_mode, fun va hva => ?_, fun x hx hx' => bootedMem_out hx hx',
    bootedMem_image h.image, enterLong_esp hebp apicId_lt, enterLong_cx hebp apicId_lt⟩
  split_ifs with hlt
  · exact translate_early longCpu_paging longCpu_lma rfl bootedMem_tables hlt
  · rw [translate_walk longCpu_paging longCpu_lma rfl, bootedMem_tables.walk,
      if_neg (by simp only [Walk.index]; omega), Option.map_none]

theorem boot_run_three : ∃ s,
    run bootLayout.addr (protectedMode bootLayout ++ setupLm bootLayout) 0 ⟨bootCpu, bootMem 3⟩ =
      some s ∧ s.cpu.mode = .long ∧ ((enterLong s.cpu).gpr .esp).toNat = 0x4c000 := by
  obtain ⟨s, hrun, hmode, -, -, -, hesp, -⟩ := boot_run (boot_start 3)
  rw [bootMem, apicId_update] at hesp
  exact ⟨s, hrun, hmode, hesp⟩

/-! ## Stacks -/

/-- The 16 KiB that a core may push to before it comes to the stack below. -/
def Stack (c : Cpu) (x : Nat) : Prop := x < (c.gpr .esp).toNat ∧ (c.gpr .esp).toNat ≤ x + 0x4000

theorem Start.stack (h : Start l c m) {s : Machine}
    (hrun : run l.addr (protectedMode l ++ setupLm l) 0 ⟨c, m⟩ = some s) (x : Nat) :
    Stack (enterLong s.cpu) x ↔
      0x3c000 + 0x4000 * apicId m ≤ x ∧ x < 0x40000 + 0x4000 * apicId m := by
  obtain rfl := Option.some.inj (h.run_eq.symm.trans hrun)
  rw [Stack, enterLong_esp longCpu_ebp apicId_lt]
  omega

/-- What a core of the kernel stores on its stack is a step of the hand-off, away from the stack
of a core with another APIC ID. The stack ends below 640 KiB for the first 25 numbers only. -/
theorem boot_stacks {Core : Type} [DecidableEq Core] {l' : Layout} {c' : Cpu} {m' : Mem}
    {s s' : Machine} {b : HandOff.State Core} {core : Core} {st : Store} (h : Start l c m)
    (h' : Start l' c' m') (hrun : run l.addr (protectedMode l ++ setupLm l) 0 ⟨c, m⟩ = some s)
    (hrun' : run l'.addr (protectedMode l' ++ setupLm l') 0 ⟨c', m'⟩ = some s')
    (hne : apicId m ≠ apicId m') (hcore : (b.stage core).inKernel = true)
    (hst : ∀ x, st.addr ≤ x → x < st.addr + st.size → Stack (enterLong s.cpu) x) :
    HandOff.Step b (.other core) { b with mem := st.apply b.mem } ∧
      (∀ x, Stack (enterLong s'.cpu) x → st.Misses x) ∧
      ((∀ x, Stack (enterLong s.cpu) x → x < 0xa0000) ↔ apicId m ≤ 24) := by
  have hin : ∀ x, ¬ st.Misses x →
      0x3c000 + 0x4000 * apicId m ≤ x ∧ x < 0x40000 + 0x4000 * apicId m := by
    intro x hx
    simp only [Store.Misses, not_or, Nat.not_lt, Nat.not_le] at hx
    exact (h.stack hrun x).1 (hst x hx.1 hx.2)
  refine ⟨.kernelStore hcore ?_ fun x hx => ?_, fun x hx => ?_, fun hlow => ?_, fun hid x hx => ?_⟩
  · by_contra hno
    have := hin _ hno
    simp only [HandOff.stackWait] at this
    omega
  · by_contra hno
    have := hin x hno
    simp only [HandOff.InTables] at hx
    omega
  · by_contra hno
    have := hin x hno
    have := (h'.stack hrun' x).1 hx
    omega
  · have := hlow (0x3ffff + 0x4000 * apicId m) ((h.stack hrun _).2 (by omega))
    omega
  · have := (h.stack hrun x).1 hx
    omega

/-- Core 0, and then a core whose stack lies in the memory of the screen. The second one starts from
the memory that the first one left. -/
theorem boot_stacks_two : ∃ (s s' : Machine) (b : HandOff.State (Fin 2)),
    run bootLayout.addr (protectedMode bootLayout ++ setupLm bootLayout) 0 ⟨bootCpu, bootMem 0⟩ =
      some s ∧
    run bootLayout.addr (protectedMode bootLayout ++ setupLm bootLayout) 0
      ⟨bootCpu, Function.update s.mem 0xfee00023 25⟩ = some s' ∧
    HandOff.Step b (.other 0) { b with mem := (Store.mk 0x3fff8 8 7).apply b.mem } ∧
    (∀ x, Stack (enterLong s'.cpu) x → (Store.mk 0x3fff8 8 7).Misses x) ∧
    ((∀ x, Stack (enterLong s.cpu) x → x < 0xa0000) ↔ apicId (bootMem 0) ≤ 24) := by
  obtain ⟨s, hrun, -, -, -, himage, -⟩ := boot_run (boot_start 0)
  have hnext : Start bootLayout bootCpu (Function.update s.mem 0xfee00023 25) :=
    start_of_image (himage.congr fun _ _ _ => Function.update_of_ne (by omega) ..)
  have hid : apicId (bootMem 0) = 0 := apicId_update bootSector 0
  have hne : apicId (bootMem 0) ≠ apicId (Function.update s.mem 0xfee00023 25) := by
    rw [hid, apicId_update]
    decide
  refine ⟨s, _, ⟨fun _ => 0, .init, fun _ => .kernel⟩, hrun, hnext.run_eq,
    boot_stacks (boot_start 0) hnext hrun hnext.run_eq hne rfl
      fun x hx hx' => ((boot_start 0).stack hrun x).2 ?_⟩
  rw [hid]
  dsimp only at hx hx'
  omega

end

end LongMode
end DeliceOS
