import DeliceOS.Interrupt.Nesting

/-!
# Interrupt.Registers

The saved state as `interrupt_handler` reads it. Its last argument points to a `cpu::registers`,
which begins with `r8`; `entry_vector` has pushed four segment registers behind that, and has
`rsi` and `rdi` in the other order.

* `handler_sees_iff`: when each field holds its register all the same.
-/

namespace DeliceOS
namespace Interrupt

open Base

/-- The fields of `cpu::registers`, eight bytes each. -/
def registers : List Reg :=
  [.r8, .r9, .r10, .r11, .r12, .r13, .r14, .r15, .rbp, .rsi, .rdi, .rdx, .rcx, .rbx, .rax]

/-- Each field, read through the state pointer, is the register at the interruption. -/
def SeesRegisters (l : Level) (c : Cpu) (m : Mem) : Prop :=
  ∀ i (h : i < registers.length),
    m.read64 ((c.regs.gpr .rcx).toNat + 8 * i) = l.saved.regs.gpr registers[i]

/-- Each field holds its register although it is read from the slot of another one: `r8` from that
of `ds`, `r12` from that of `r8`, and so on. -/
structure Coincide (r : Regs) : Prop where
  ds : ∀ x ∈ [Reg.r8, .r12, .rbp, .rcx], r.gpr x = (r.seg .ds).setWidth 64
  es : ∀ x ∈ [Reg.r9, .r13, .rsi, .rax], r.gpr x = (r.seg .es).setWidth 64
  fs : ∀ x ∈ [Reg.r10, .r14, .rdi, .rbx], r.gpr x = (r.seg .fs).setWidth 64
  gs : ∀ x ∈ [Reg.r11, .r15, .rdx], r.gpr x = (r.seg .gs).setWidth 64

variable {lay : Layout} {tr : List Event} {s s' : State} {l : Level} {rest : List Level}

/-- What is read are the words pushed last. -/
theorem sees_iff_words {c : Cpu} {m : Mem} (h : CallArgs l c m) :
    SeesRegisters l c m ↔
      (savedRegs l.saved.regs).take registers.length = registers.map l.saved.regs.gpr := by
  have hlen : (savedRegs l.saved.regs).length = 19 := rfl
  have hregs : registers.length = 15 := rfl
  rw [List.ext_getElem_iff]
  simp only [List.length_take, List.length_map, List.getElem_take, List.getElem_map]
  constructor
  · intro hsees
    refine ⟨by omega, fun i hi hi' => ?_⟩
    rw [← h.state i (by omega)]
    exact hsees i hi'
  · intro hwords i hi
    rw [h.state i (by omega)]
    exact hwords.2 i (by omega) hi

theorem words_iff_coincide (r : Regs) :
    (savedRegs r).take registers.length = registers.map r.gpr ↔ Coincide r := by
  have hwords : (savedRegs r).take registers.length =
      [(r.seg .ds).setWidth 64, (r.seg .es).setWidth 64, (r.seg .fs).setWidth 64,
        (r.seg .gs).setWidth 64, r.gpr .r8, r.gpr .r9, r.gpr .r10, r.gpr .r11, r.gpr .r12,
        r.gpr .r13, r.gpr .r14, r.gpr .r15, r.gpr .rbp, r.gpr .rdi, r.gpr .rsi] := rfl
  rw [hwords]
  constructor
  · intro h
    simp only [registers, List.map_cons, List.cons.injEq] at h
    constructor <;> grind
  · intro h
    have hds := h.ds
    have hes := h.es
    have hfs := h.fs
    have hgs := h.gs
    simp only [List.forall_mem_cons] at hds hes hfs hgs
    simp only [registers, List.map_cons, List.map_nil, hds, hes, hfs, hgs]

/-- At every call, at any depth of nesting: the handler sees the interrupted registers through its
state pointer if and only if those that it takes for each other are equal. -/
theorem handler_sees_iff (h : (interruptLts lay).Run tr s) (hl : s.levels = l :: rest)
    (hs : Step lay s (.exec .callInterruptHandler) s') :
    SeesRegisters l s.cpu s.mem ↔ Coincide l.saved.regs := by
  rw [sees_iff_words (Run.callArgs h hl hs), words_iff_coincide]

/-- `sampleCpu` with all general registers as the segment registers. -/
def uniformCpu : Cpu :=
  { sampleCpu with regs := { sampleCpu.regs with gpr := fun x => if x = .rsp then 0x40008 else 0x10 } }

theorem uniformCpu_coincide : Coincide uniformCpu.regs := by
  constructor <;> decide

theorem handler_sees_uniform :
    ∃ (tr : List Event) (s s' : State) (l : Level), (interruptLts sampleLayout).Run tr s ∧
      s.levels = [l] ∧ l.vector = 3 ∧ l.saved = uniformCpu ∧
      Step sampleLayout s (.exec .callInterruptHandler) s' ∧ SeesRegisters l s.cpu s.mem := by
  have h0 : (interruptLts sampleLayout).Run [] ⟨uniformCpu, fun _ => 0, []⟩ := .init rfl
  have hb : 512 ≤ Level.base ⟨3, 0, uniformCpu, none⟩ := by decide
  obtain ⟨tr, s, c, m, h, hl, hs, -⟩ := Run.reaches_call h0 hb
  exact ⟨tr, s, _, _, h, hl, rfl, rfl, hs, (handler_sees_iff h hl hs).mpr uniformCpu_coincide⟩

/-- A breakpoint with 7 in every register: the handler reads the data segment for `r8`. -/
theorem handler_reads_segment :
    ∃ (tr : List Event) (s s' : State) (l : Level), (interruptLts sampleLayout).Run tr s ∧
      s.levels = [l] ∧ l.vector = 3 ∧ l.saved = sampleCpu ∧
      Step sampleLayout s (.exec .callInterruptHandler) s' ∧ ¬ SeesRegisters l s.cpu s.mem := by
  have h0 : (interruptLts sampleLayout).Run [] ⟨sampleCpu, fun _ => 0, []⟩ := .init rfl
  have hb : 512 ≤ Level.base ⟨3, 0, sampleCpu, none⟩ := by decide
  obtain ⟨tr, s, c, m, h, hl, hs, -⟩ := Run.reaches_call h0 hb
  refine ⟨tr, s, _, _, h, hl, rfl, rfl, hs, fun hsees => ?_⟩
  have hwords := (sees_iff_words (Run.callArgs h hl hs)).mp hsees
  have hr8 := ((words_iff_coincide _).mp hwords).ds .r8 (by simp)
  exact absurd hr8 (by decide)

end Interrupt
end DeliceOS
