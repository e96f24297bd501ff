import DeliceOS.Base.Mem
import Mathlib.Data.BitVec

/-!
# Interrupt.Machine

The part of a processor that the entry code of `interrupt.s` uses, and that code. Instructions
are fetched from a code map that gives the decoded instruction at an address and the address of
the next one. A push without room below the stack pointer faults, and so does not complete.

* `deliver`: what the processor does when an interrupt arrives.
* `exceptionHandler`, `entryVectorPush`, `entryVectorPop`: the code.
* `Layout`: the addresses of the code.
-/

namespace DeliceOS
namespace Interrupt

open Base

inductive Reg where
  | rax | rbx | rcx | rdx | rsi | rdi | rbp | rsp
  | r8 | r9 | r10 | r11 | r12 | r13 | r14 | r15
  deriving DecidableEq, Repr

inductive Seg where
  | ds | es | fs | gs
  deriving DecidableEq, Repr

@[ext] structure Regs where
  gpr : Reg → BitVec 64
  seg : Seg → BitVec 16
  cs : BitVec 16
  ss : BitVec 16
  rflags : BitVec 64

def Regs.set (r : Regs) (x : Reg) (v : BitVec 64) : Regs :=
  { r with gpr := Function.update r.gpr x v }

@[ext] structure Cpu where
  rip : BitVec 64
  regs : Regs

inductive Instr where
  | cli
  | pushByte (n : BitVec 8)
  | push (x : Reg)
  | pop (x : Reg)
  | movFromSeg (x : Reg) (s : Seg)
  | movToSeg (s : Seg) (x : Reg)
  | loadDword (x : Reg) (disp : Nat)  -- `mov x, dword[rsp + disp]`
  | mov (x y : Reg)
  | leaRsp (x : Reg) (disp : Nat)     -- `lea x, [rsp + disp]`
  | addRsp (n : Nat)
  | jmpEntryVector
  | callInterruptHandler
  | iretq
  deriving DecidableEq, Repr

/-! ## The code -/

/-- `EXCEPTION_ENTRY`. -/
def exceptionEntry (v : Fin 32) : List Instr :=
  [.cli, .pushByte 0, .pushByte (BitVec.ofNat 8 v), .jmpEntryVector]

/-- `EXCEPTION_ENTRY_ERROR_CODE`. -/
def exceptionEntryErrorCode (v : Fin 32) : List Instr :=
  [.cli, .pushByte (BitVec.ofNat 8 v), .jmpEntryVector]

/-- The vectors `interrupt.s` expands with `EXCEPTION_ENTRY_ERROR_CODE`. -/
def errorCodeEntries : List (Fin 32) := [8, 10, 11, 12, 13, 14, 17]

def exceptionHandler (v : Fin 32) : List Instr :=
  if v ∈ errorCodeEntries then exceptionEntryErrorCode v else exceptionEntry v

def pushRegs : List Reg :=
  [.rax, .rbx, .rcx, .rdx, .rsi, .rdi, .rbp, .r15, .r14, .r13, .r12, .r11, .r10, .r9, .r8]

def popRegs : List Reg :=
  [.r8, .r9, .r10, .r11, .r12, .r13, .r14, .r15, .rbp, .rdi, .rsi, .rdx, .rcx, .rbx, .rax]

def pushSegs : List Seg := [.gs, .fs, .es, .ds]

def popSegs : List Seg := [.ds, .es, .fs, .gs]

def callArgs : List Instr :=
  [.loadDword .rdi 152, .loadDword .rdx 160, .mov .rcx .rsp, .leaRsp .rsi 168]

/-- `entry_vector` up to the call. -/
def entryVectorPush : List Instr :=
  pushRegs.map .push ++ pushSegs.flatMap (fun s => [.movFromSeg .rax s, .push .rax]) ++ callArgs

/-- `entry_vector` from the return of `interrupt_handler` to the `iretq`. -/
def entryVectorPop : List Instr :=
  .mov .rsp .rax :: (popSegs.flatMap (fun s => [.pop .rax, .movToSeg s .rax]) ++
    (popRegs.map .pop ++ [.addRsp 16]))

def entryVector : List Instr :=
  entryVectorPush ++ .callInterruptHandler :: (entryVectorPop ++ [.iretq])

/-- The instructions `is` stand one after the other from `a` on. -/
def placed (code : BitVec 64 → Option (Instr × BitVec 64)) : BitVec 64 → List Instr → Bool
  | _, [] => true
  | a, i :: is =>
    match code a with
    | some (j, next) => j == i && placed code next is
    | none => false

structure Layout where
  code : BitVec 64 → Option (Instr × BitVec 64)
  exception : Fin 32 → BitVec 64     -- `ex_handlers`
  entryVector : BitVec 64
  interruptHandler : BitVec 64
  exception_placed : ∀ v, placed code (exception v) (exceptionHandler v) = true
  entryVector_placed : placed code entryVector Interrupt.entryVector = true

/-! ## The processor -/

def pushWord (v : BitVec 64) (r : Regs) (m : Mem) : Option (Regs × Mem) :=
  if (r.gpr .rsp).toNat < 8 then none
  else some (r.set .rsp (r.gpr .rsp - 8), m.write64 (r.gpr .rsp - 8).toNat v)

/-- The status flags CF, PF, AF, ZF, SF and OF of `a + b`, the others as in `f`. -/
def addFlags (a b f : BitVec 64) : BitVec 64 :=
  let s := a + b
  let parity := ((List.range 8).countP fun i => s.getLsbD i) % 2 == 0
  let flag (i : Nat) (p : Bool) : BitVec 64 := if p then 1 <<< i else 0
  (f &&& ~~~0x8d5#64) ||| flag 0 (s.toNat < a.toNat) ||| flag 2 parity |||
    flag 4 (s.toNat % 16 < a.toNat % 16) ||| flag 6 (s == 0) ||| flag 7 s.msb |||
    flag 11 (a.msb == b.msb && s.msb != a.msb)

def exec (lay : Layout) (i : Instr) (next : BitVec 64) (r : Regs) (m : Mem) : Option (Cpu × Mem) :=
  let rsp := r.gpr .rsp
  match i with
  | .cli => some (⟨next, { r with rflags := r.rflags &&& ~~~0x200#64 }⟩, m)
  | .pushByte n => (pushWord (n.signExtend 64) r m).map fun (r, m) => (⟨next, r⟩, m)
  | .push x => (pushWord (r.gpr x) r m).map fun (r, m) => (⟨next, r⟩, m)
  | .pop x => some (⟨next, (r.set .rsp (rsp + 8)).set x (m.read64 rsp.toNat)⟩, m)
  | .movFromSeg x s => some (⟨next, r.set x ((r.seg s).setWidth 64)⟩, m)
  | .movToSeg s x =>
    some (⟨next, { r with seg := Function.update r.seg s ((r.gpr x).setWidth 16) }⟩, m)
  | .loadDword x disp =>
    some (⟨next, r.set x ((m.read32 (rsp + BitVec.ofNat 64 disp).toNat).setWidth 64)⟩, m)
  | .mov x y => some (⟨next, r.set x (r.gpr y)⟩, m)
  | .leaRsp x disp => some (⟨next, r.set x (rsp + BitVec.ofNat 64 disp)⟩, m)
  | .addRsp n =>
    some (⟨next, { r.set .rsp (rsp + BitVec.ofNat 64 n) with
      rflags := addFlags rsp (BitVec.ofNat 64 n) r.rflags }⟩, m)
  | .jmpEntryVector => some (⟨lay.entryVector, r⟩, m)
  | .callInterruptHandler =>
    (pushWord next r m).map fun (r, m) => (⟨lay.interruptHandler, r⟩, m)
  | .iretq =>
    some (⟨m.read64 rsp.toNat,
      { r.set .rsp (m.read64 (rsp + 24).toNat) with
        cs := (m.read64 (rsp + 8).toNat).setWidth 16
        rflags := m.read64 (rsp + 16).toNat
        ss := (m.read64 (rsp + 32).toNat).setWidth 16 }⟩, m)

/-- The vectors for which the processor pushes an error code. -/
def pushesErrorCode (v : Fin 32) : Bool :=
  v.val == 8 || (10 ≤ v.val && v.val ≤ 14) || v.val == 17

/-- What the processor pushes, in this order. RFLAGS is pushed as it is: the RF that the processor
sets in the image of a fault is left out. -/
def delivered (v : Fin 32) (error : BitVec 32) (c : Cpu) : List (BitVec 64) :=
  [c.regs.ss.setWidth 64, c.regs.gpr .rsp, c.regs.rflags, c.regs.cs.setWidth 64, c.rip] ++
    if pushesErrorCode v then [error.setWidth 64] else []

def pushWords : List (BitVec 64) → Regs → Mem → Option (Regs × Mem)
  | [], r, m => some (r, m)
  | v :: vs, r, m => (pushWord v r m).bind fun (r, m) => pushWords vs r m

/-- The state an interrupt gate starts in: IF, TF, NT, RF and VM clear, the code segment of the
gate. -/
def Regs.gate (r : Regs) : Regs := { r with rflags := r.rflags &&& ~~~0x34300#64, cs := 0x08 }

def deliver (lay : Layout) (v : Fin 32) (error : BitVec 32) (c : Cpu) (m : Mem) :
    Option (Cpu × Mem) :=
  (pushWords (delivered v error c)
    (c.regs.set .rsp (c.regs.gpr .rsp &&& ~~~0xf#64)) m).map
    fun (r, m) => (⟨lay.exception v, r.gate⟩, m)

end Interrupt
end DeliceOS
