import DeliceOS.Base.Lts
import DeliceOS.Interrupt.Frame

/-!
# Interrupt.Nesting

Interrupts that nest. A level is an interrupt in progress: the state it interrupted and, while
`interrupt_handler` runs, the registers with which that was entered. An interrupt may arrive
between any two instructions of the entry code or of the handler, at any depth.

Of `interrupt_handler` nothing is fixed but what the System V ABI demands: it keeps its stack
pointer at or below the one it was entered with, changes no memory from there on, and returns, to
the address on the stack, its fourth argument.

* `Inv.step`: every level, running or suspended, is somewhere on its way through the entry code,
  with its frame intact.
* `interrupt_transparent`: the arguments at every call and the state after every `iretq`.
* `interrupt_returns`: an interrupt that is left alone does return.
-/

namespace DeliceOS
namespace Interrupt

open Base

structure Level where
  vector : Fin 32
  error : BitVec 32
  saved : Cpu
  handler : Option Regs

structure State where
  cpu : Cpu
  mem : Mem
  levels : List Level

inductive Event where
  | program
  | interrupt (v : Fin 32) (error : BitVec 32)
  | exec (i : Instr)
  | handler
  | ret

/-- The levels after an instruction of the innermost one. -/
def advance (i : Instr) (l : Level) (rest : List Level) (r : Regs) : List Level :=
  match i with
  | .callInterruptHandler => { l with handler := some r } :: rest
  | .iretq => rest
  | _ => l :: rest

theorem advance_of_ne {i : Instr} (h1 : i ≠ .callInterruptHandler) (h2 : i ≠ .iretq) (l : Level)
    (rest : List Level) (r : Regs) : advance i l rest r = l :: rest := by
  cases i with
  | callInterruptHandler => exact absurd rfl h1
  | iretq => exact absurd rfl h2
  | _ => rfl

inductive Step (lay : Layout) (s : State) : Event → State → Prop where
  | program (c : Cpu) (m : Mem) : s.levels = [] → Step lay s .program ⟨c, m, []⟩
  | interrupt {v : Fin 32} {error : BitVec 32} {c : Cpu} {m : Mem} :
      deliver lay v error s.cpu s.mem = some (c, m) →
      Step lay s (.interrupt v error) ⟨c, m, ⟨v, error, s.cpu, none⟩ :: s.levels⟩
  | exec {l : Level} {rest : List Level} {i : Instr} {next : BitVec 64} {c : Cpu} {m : Mem} :
      s.levels = l :: rest → l.handler = none → lay.code s.cpu.rip = some (i, next) →
      Interrupt.exec lay i next s.cpu.regs s.mem = some (c, m) →
      Step lay s (.exec i) ⟨c, m, advance i l rest c.regs⟩
  | handler {l : Level} {rest : List Level} {entry : Regs} {c : Cpu} {m : Mem} :
      s.levels = l :: rest → l.handler = some entry →
      (c.regs.gpr .rsp).toNat ≤ (entry.gpr .rsp).toNat →
      (∀ x, (entry.gpr .rsp).toNat ≤ x → m x = s.mem x) →
      Step lay s .handler ⟨c, m, s.levels⟩
  | ret {l : Level} {rest : List Level} {entry r : Regs} :
      s.levels = l :: rest → l.handler = some entry →
      r.gpr .rsp = entry.gpr .rsp + 8 → r.gpr .rax = entry.gpr .rcx →
      Step lay s .ret ⟨⟨s.mem.read64 (entry.gpr .rsp).toNat, r⟩, s.mem,
        { l with handler := none } :: rest⟩

def interruptLts (lay : Layout) : Lts State Event where
  init s := s.levels = []
  step := Step lay

/-! ## Where a level is -/

/-- Executed from `a` on, the instructions `is` follow each other. -/
def Flow (lay : Layout) : BitVec 64 → List Instr → Prop
  | _, [] => True
  | a, i :: is => ∃ next, lay.code a = some (i, next) ∧ Flow lay (after lay i next) is

/-- What does not jump is executed in the order it is placed in. -/
theorem flow_append {lay : Layout} (is : List Instr) {js : List Instr} (ks : List Instr) (h : .jmpEntryVector ∉ is)
    (hj : ∀ a, placed lay.code a js = true → Flow lay a ks) :
    ∀ {a : BitVec 64}, placed lay.code a (is ++ js) = true → Flow lay a (is ++ ks) := by
  induction is with
  | nil => intro a hp; exact hj a hp
  | cons i is ih =>
    intro a hp
    obtain ⟨hne, hn⟩ := List.ne_and_not_mem_of_not_mem_cons h
    simp only [List.cons_append, placed] at hp
    cases hc : lay.code a with
    | none => rw [hc] at hp; cases hp
    | some p =>
      obtain ⟨j, next⟩ := p
      rw [hc] at hp
      simp only [Bool.and_eq_true, beq_iff_eq] at hp
      obtain ⟨rfl, hp⟩ := hp
      exact ⟨next, hc, by rw [after, if_neg (Ne.symm hne)]; exact ih hn hp⟩

theorem flow_jmp {lay : Layout} {a : BitVec 64} {ks : List Instr} (hk : Flow lay lay.entryVector ks)
    (h : placed lay.code a [.jmpEntryVector] = true) : Flow lay a (.jmpEntryVector :: ks) := by
  simp only [placed] at h
  cases hc : lay.code a with
  | none => rw [hc] at h; cases h
  | some p =>
    obtain ⟨j, next⟩ := p
    rw [hc] at h
    simp only [Bool.and_true, beq_iff_eq] at h
    subst h
    exact ⟨next, hc, by rw [after, if_pos rfl]; exact hk⟩

/-- At the address a way begins there is an instruction. -/
theorem flow_next {lay : Layout} {a : BitVec 64} {is js : List Instr} (h : Flow lay a (is ++ js))
    (hj : js ≠ []) : ∃ i next, lay.code a = some (i, next) := by
  cases hi : is ++ js with
  | nil => exact absurd (List.append_eq_nil_iff.mp hi).2 hj
  | cons i is =>
    rw [hi] at h
    obtain ⟨next, hc, -⟩ := h
    exact ⟨i, next, hc⟩

theorem flow_exception (lay : Layout) (v : Fin 32) :
    Flow lay (lay.exception v) (exceptionHandler v ++ entryVector) := by
  have hentry : Flow lay lay.entryVector entryVector := by
    exact flow_append entryVector [] (by decide) (fun _ _ => trivial) lay.entryVector_placed
  have hv := lay.exception_placed v
  unfold exceptionHandler at hv ⊢
  by_cases hm : v ∈ errorCodeEntries
  · rw [if_pos hm] at hv ⊢
    exact flow_append [.cli, .pushByte (BitVec.ofNat 8 v)] _ (by simp)
      (fun _ => flow_jmp hentry) hv
  · rw [if_neg hm] at hv ⊢
    exact flow_append [.cli, .pushByte 0, .pushByte (BitVec.ofNat 8 v)] _ (by simp)
      (fun _ => flow_jmp hentry) hv

namespace Level

/-- The stack pointer the processor aligned. -/
def base (l : Level) : Nat := (l.saved.regs.gpr .rsp &&& ~~~0xf#64).toNat

def frame (l : Level) : List (BitVec 64) := Interrupt.frame l.vector l.error l.saved

/-- What the processor starts the level with. -/
def start (l : Level) : Abstract :=
  ((l.saved.regs.set .rsp (sp l.base (delivered l.vector l.error l.saved).reverse)).gate,
    (delivered l.vector l.error l.saved).reverse)

/-- Before the call, with the instructions `todo` still to come. -/
def Pushing (lay : Layout) (l : Level) (c : Cpu) (m : Mem) (todo : List Instr) : Prop :=
  ∃ done st, exceptionHandler l.vector ++ entryVectorPush = done ++ todo ∧
    arun l.base done l.start = some (c.regs, st) ∧
    Flow lay c.rip (todo ++ .callInterruptHandler :: (entryVectorPop ++ [.iretq])) ∧
    Rep l.base st c.regs m

/-- After the return. -/
def Popping (lay : Layout) (l : Level) (c : Cpu) (m : Mem) (todo : List Instr) : Prop :=
  ∃ r done st, entryVectorPop = done ++ todo ∧ r.gpr .rax = r.gpr .rsp ∧
    arun l.base done (r, l.frame) = some (c.regs, st) ∧ Flow lay c.rip (todo ++ [.iretq]) ∧
    Rep l.base st c.regs m

/-- In `interrupt_handler`, which was entered with the registers `entry`. -/
structure Calling (lay : Layout) (l : Level) (entry : Regs) (c : Cpu) (m : Mem) : Prop where
  ret : ∃ ret, Flow lay ret (entryVectorPop ++ [.iretq]) ∧ Rep l.base (ret :: l.frame) entry m
  rcx : entry.gpr .rcx = sp l.base l.frame
  rsp : (c.regs.gpr .rsp).toNat ≤ (entry.gpr .rsp).toNat

def Ok (lay : Layout) (l : Level) (c : Cpu) (m : Mem) : Prop :=
  match l.handler with
  | none => (∃ todo, l.Pushing lay c m todo) ∨ ∃ todo, l.Popping lay c m todo
  | some entry => l.Calling lay entry c m

variable {lay : Layout} {l : Level} {c c' : Cpu} {m m' : Mem} {i : Instr} {next : BitVec 64}

theorem base_lt (l : Level) : l.base < 2 ^ 64 := (l.saved.regs.gpr .rsp &&& ~~~0xf#64).isLt

theorem base_le (l : Level) : l.base ≤ (l.saved.regs.gpr .rsp).toNat := by
  rw [base, BitVec.toNat_and]; exact Nat.and_le_left

theorem base_aligned (l : Level) : l.base % 16 = 0 := by
  have h : (l.saved.regs.gpr .rsp &&& ~~~0xf#64) &&& 0xf#64 = 0#64 := by
    rw [BitVec.and_assoc, show ~~~0xf#64 &&& 0xf#64 = 0#64 by decide, BitVec.and_zero]
  have h' := congrArg BitVec.toNat h
  rw [BitVec.toNat_and] at h'
  exact (Nat.and_two_pow_sub_one_eq_mod _ 4).symm.trans h'

/-- The whole run before the call. -/
theorem arun_pushing (l : Level) :
    ∃ r, arun l.base (exceptionHandler l.vector ++ entryVectorPush) l.start = some (r, l.frame) ∧
      r.gpr .rsp = sp l.base l.frame ∧ r.gpr .rcx = r.gpr .rsp ∧
      r.gpr .rdi = BitVec.ofNat 64 l.vector ∧ r.gpr .rdx = errorWord l.vector l.error ∧
      r.gpr .rsi = r.gpr .rsp + 168 := by
  obtain ⟨r, hr, hsp, hcx, hdi, hdx, hsi⟩ := arun_entryVectorPush l.base
    { l.start.1.set .rsp (sp l.base (BitVec.ofNat 64 l.vector ::
      errorWord l.vector l.error :: returnFrame l.saved)) with
        rflags := l.start.1.rflags &&& ~~~0x200#64 }
    (BitVec.ofNat 64 l.vector) (errorWord l.vector l.error) (returnFrame l.saved)
    (by simp [Regs.set])
  have hsaved : savedRegs { l.start.1.set .rsp (sp l.base (BitVec.ofNat 64 l.vector ::
      errorWord l.vector l.error :: returnFrame l.saved)) with
        rflags := l.start.1.rflags &&& ~~~0x200#64 } = savedRegs l.saved.regs :=
    savedRegs_congr (fun x hx => by simp [start, Regs.set, Regs.gate, hx]) rfl
  rw [hsaved] at hr hsp
  have hstub := arun_stub l.base l.vector l.error l.saved l.start.1
  refine ⟨r, ?_, hsp, hcx, ?_, ?_, hsi⟩
  · rw [arun_append, show l.start = (l.start.1, (delivered l.vector l.error l.saved).reverse) from
      rfl, hstub, Option.bind_some]
    exact hr
  · rw [hdi, vector_setWidth]
  · rw [hdx, errorWord_setWidth]

/-- One more instruction of a run that is known to go through. -/
theorem exec_next {base : Nat} {prog done todo : List Instr} {a f : Abstract}
    {st : List (BitVec 64)} (hp : prog = done ++ i :: todo) (hfull : arun base prog a = some f)
    (hdone : arun base done a = some (c.regs, st)) (hrep : Rep base st c.regs m)
    (he : exec lay i next c.regs m = some (c', m')) :
    ∃ st', arun base (done ++ [i]) a = some (c'.regs, st') ∧ c'.rip = after lay i next ∧
      Rep base st' c'.regs m' ∧ ∀ x, base ≤ x → m' x = m x := by
  rw [hp, arun_append, hdone, Option.bind_some, arun, Option.bind_eq_some_iff] at hfull
  obtain ⟨⟨r', st'⟩, ha, -⟩ := hfull
  obtain ⟨rfl, hrep', hm⟩ := exec_sim hrep ha he
  refine ⟨st', ?_, rfl, hrep', hm⟩
  rw [arun_append, hdone, Option.bind_some, arun, ha]
  rfl

theorem not_mem_pushing (v : Fin 32) :
    .callInterruptHandler ∉ exceptionHandler v ++ entryVectorPush ∧
      .iretq ∉ exceptionHandler v ++ entryVectorPush := by
  revert v; decide

/-- A step before the call executes the next instruction of the entry code. -/
theorem Pushing.exec {j : Instr} {todo : List Instr} (h : l.Pushing lay c m (j :: todo))
    (hc : lay.code c.rip = some (i, next))
    (he : Interrupt.exec lay i next c.regs m = some (c', m')) :
    i ≠ .callInterruptHandler ∧ i ≠ .iretq ∧ l.Pushing lay c' m' todo ∧
      ∀ x, l.base ≤ x → m' x = m x := by
  obtain ⟨done, st, hp, hdone, hflow, hrep⟩ := h
  obtain ⟨r, hfull, -⟩ := l.arun_pushing
  obtain ⟨next', hc', hflow⟩ := hflow
  rw [hc] at hc'
  cases hc'
  have hmem : i ∈ exceptionHandler l.vector ++ entryVectorPush := by rw [hp]; simp
  obtain ⟨st', hdone', hrip, hrep', hm⟩ := exec_next hp hfull hdone hrep he
  refine ⟨?_, ?_, ⟨done ++ [i], st', by simp [hp], hdone', ?_, hrep'⟩, hm⟩
  · rintro rfl; exact (not_mem_pushing _).1 hmem
  · rintro rfl; exact (not_mem_pushing _).2 hmem
  · rw [hrip]; exact hflow

/-- Then comes the call. -/
theorem Pushing.call (h : l.Pushing lay c m []) (hc : lay.code c.rip = some (i, next))
    (he : Interrupt.exec lay i next c.regs m = some (c', m')) :
    i = .callInterruptHandler ∧ l.Calling lay c'.regs c' m' ∧ ∀ x, l.base ≤ x → m' x = m x := by
  obtain ⟨done, st, hp, hdone, hflow, hrep⟩ := h
  obtain ⟨r, hfull, hsp, hcx, -⟩ := l.arun_pushing
  obtain ⟨next', hc', hflow⟩ := hflow
  rw [hc] at hc'
  cases hc'
  rw [List.append_nil] at hp
  rw [← hp, hfull] at hdone
  cases hdone
  simp only [Interrupt.exec, Option.map_eq_some_iff] at he
  obtain ⟨⟨r', m1⟩, hpush, he⟩ := he
  cases he
  obtain ⟨rfl, hrep', hm⟩ := pushWord_sim hrep hpush
  refine ⟨rfl, ⟨⟨next, hflow, hrep'⟩, ?_, Nat.le_refl _⟩, hm⟩
  rw [Regs.set_gpr_of_ne _ (by decide), hcx, hsp]

/-- What `interrupt_handler` is called with. -/
theorem Pushing.args {todo : List Instr} (h : l.Pushing lay c m todo)
    (hc : lay.code c.rip = some (.callInterruptHandler, next)) :
    Rep l.base l.frame c.regs m ∧ c.regs.gpr .rcx = c.regs.gpr .rsp ∧
      c.regs.gpr .rdi = BitVec.ofNat 64 l.vector ∧
      c.regs.gpr .rdx = errorWord l.vector l.error ∧
      c.regs.gpr .rsi = c.regs.gpr .rsp + 168 := by
  obtain ⟨done, st, hp, hdone, hflow, hrep⟩ := h
  obtain ⟨r, hfull, -, hcx, hdi, hdx, hsi⟩ := l.arun_pushing
  obtain rfl : todo = [] := by
    cases todo with
    | nil => rfl
    | cons j todo =>
      obtain ⟨next', hc', -⟩ := hflow
      rw [hc] at hc'
      cases hc'
      exact absurd (by rw [hp]; simp) (not_mem_pushing l.vector).1
  rw [List.append_nil] at hp
  rw [← hp, hfull] at hdone
  cases hdone
  exact ⟨hrep, hcx, hdi, hdx, hsi⟩

/-- The return frame of a level brings back the state it interrupted. -/
theorem iretq_saved (hrep : Rep l.base (returnFrame l.saved) c.regs m)
    (hgpr : ∀ x, x ≠ .rsp → c.regs.gpr x = l.saved.regs.gpr x) (hseg : c.regs.seg = l.saved.regs.seg)
    (he : Interrupt.exec lay .iretq next c.regs m = some (c', m')) : c' = l.saved ∧ m' = m := by
  have h0 : m.read64 (c.regs.gpr .rsp).toNat = l.saved.rip := hrep.pop.2.2
  have h1 : m.read64 (c.regs.gpr .rsp + 8).toNat = l.saved.regs.cs.setWidth 64 :=
    hrep.read (i := 1) (by simp [returnFrame])
  have h2 : m.read64 (c.regs.gpr .rsp + 16).toNat = l.saved.regs.rflags :=
    hrep.read (i := 2) (by simp [returnFrame])
  have h3 : m.read64 (c.regs.gpr .rsp + 24).toNat = l.saved.regs.gpr .rsp :=
    hrep.read (i := 3) (by simp [returnFrame])
  have h4 : m.read64 (c.regs.gpr .rsp + 32).toNat = l.saved.regs.ss.setWidth 64 :=
    hrep.read (i := 4) (by simp [returnFrame])
  simp only [Interrupt.exec, h0, h1, h2, h3, h4, Option.some.injEq, Prod.mk.injEq] at he
  obtain ⟨rfl, rfl⟩ := he
  refine ⟨?_, rfl⟩
  ext1
  · rfl
  · ext1
    · funext x
      by_cases hx : x = .rsp
      · subst hx; exact Regs.set_rsp c.regs _
      · exact (Regs.set_gpr_of_ne _ hx _).trans (hgpr x hx)
    · exact hseg
    · simp
    · simp
    · rfl

/-- A step after the return executes the next instruction of the entry code. -/
theorem Popping.exec {j : Instr} {todo : List Instr} (h : l.Popping lay c m (j :: todo))
    (hc : lay.code c.rip = some (i, next))
    (he : Interrupt.exec lay i next c.regs m = some (c', m')) :
    i ≠ .callInterruptHandler ∧ i ≠ .iretq ∧ l.Popping lay c' m' todo ∧
      ∀ x, l.base ≤ x → m' x = m x := by
  obtain ⟨r, done, st, hp, hrax, hdone, hflow, hrep⟩ := h
  obtain ⟨r', hfull, -⟩ := arun_entryVectorPop l.base r l.saved.regs
    (BitVec.ofNat 64 l.vector) (errorWord l.vector l.error) (returnFrame l.saved) hrax
  obtain ⟨next', hc', hflow⟩ := hflow
  rw [hc] at hc'
  cases hc'
  have hmem : i ∈ entryVectorPop := by rw [hp]; simp
  obtain ⟨st', hdone', hrip, hrep', hm⟩ := exec_next hp hfull hdone hrep he
  refine ⟨?_, ?_, ⟨r, done ++ [i], st', by simp [hp], hrax, hdone', ?_, hrep'⟩, hm⟩
  · rintro rfl; exact absurd hmem (by decide)
  · rintro rfl; exact absurd hmem (by decide)
  · rw [hrip]; exact hflow

/-- Then comes the `iretq`. -/
theorem Popping.iretq (h : l.Popping lay c m []) (hc : lay.code c.rip = some (i, next))
    (he : Interrupt.exec lay i next c.regs m = some (c', m')) :
    i = .iretq ∧ c' = l.saved ∧ m' = m := by
  obtain ⟨r, done, st, hp, hrax, hdone, hflow, hrep⟩ := h
  obtain ⟨r', hfull, hgpr, hseg⟩ := arun_entryVectorPop l.base r l.saved.regs
    (BitVec.ofNat 64 l.vector) (errorWord l.vector l.error) (returnFrame l.saved) hrax
  obtain ⟨next', hc', -⟩ := hflow
  rw [hc] at hc'
  cases hc'
  rw [List.append_nil] at hp
  rw [← hp] at hdone
  cases hdone.symm.trans hfull
  exact ⟨rfl, iretq_saved hrep hgpr hseg he⟩

theorem rep_rsp_le {base : Nat} {st : List (BitVec 64)} {r : Regs} (h : Rep base st r m) :
    (r.gpr .rsp).toNat ≤ base := by
  rw [h.rsp_toNat]; exact WordStack.top_le _ _

/-- A level keeps its stack pointer below its base, and so below the one it saved. -/
theorem Ok.rsp_le (h : l.Ok lay c m) : (c.regs.gpr .rsp).toNat ≤ l.base := by
  unfold Ok at h
  cases hh : l.handler with
  | none =>
    rw [hh] at h
    rcases h with ⟨todo, done, st, -, -, -, hrep⟩ | ⟨todo, r, done, st, -, -, -, -, hrep⟩
    · exact rep_rsp_le hrep
    · exact rep_rsp_le hrep
  | some entry =>
    rw [hh] at h
    obtain ⟨ret, -, hrep⟩ := h.ret
    exact h.rsp.trans (rep_rsp_le hrep)

/-- What is stored below the stack pointer does not concern the level. -/
theorem Ok.congr (h : l.Ok lay c m) (hm : ∀ x, (c.regs.gpr .rsp).toNat ≤ x → m' x = m x) :
    l.Ok lay c m' := by
  unfold Ok at h ⊢
  cases hh : l.handler with
  | none =>
    rw [hh] at h
    rcases h with ⟨todo, done, st, hp, hd, hf, hrep⟩ | ⟨todo, r, done, st, hp, hr, hd, hf, hrep⟩
    · exact .inl ⟨todo, done, st, hp, hd, hf, hrep.congr hm⟩
    · exact .inr ⟨todo, r, done, st, hp, hr, hd, hf, hrep.congr hm⟩
  | some entry =>
    rw [hh] at h
    obtain ⟨ret, hf, hrep⟩ := h.ret
    exact ⟨⟨ret, hf, hrep.congr fun x hx => hm x (h.rsp.trans hx)⟩, h.rcx, h.rsp⟩

theorem Ok.of_none (h : l.Ok lay c m) (hh : l.handler = none) :
    (∃ todo, l.Pushing lay c m todo) ∨ ∃ todo, l.Popping lay c m todo := by
  unfold Ok at h; rw [hh] at h; exact h

theorem Ok.of_some {entry : Regs} (h : l.Ok lay c m) (hh : l.handler = some entry) :
    l.Calling lay entry c m := by
  unfold Ok at h; rw [hh] at h; exact h

end Level

/-- The innermost level has the registers of the processor, each other one those the level inside
it saved. -/
def LevelsOk (lay : Layout) (m : Mem) : List Level → Cpu → Prop
  | [], _ => True
  | l :: rest, c => l.Ok lay c m ∧ LevelsOk lay m rest l.saved

def Inv (lay : Layout) (s : State) : Prop := LevelsOk lay s.mem s.levels s.cpu

theorem LevelsOk.congr {lay : Layout} {m m' : Mem} {ls : List Level} :
    ∀ {c : Cpu}, LevelsOk lay m ls c → (∀ x, (c.regs.gpr .rsp).toNat ≤ x → m' x = m x) →
      LevelsOk lay m' ls c := by
  induction ls with
  | nil => intro c _ _; trivial
  | cons l rest ih =>
    intro c h hm
    refine ⟨h.1.congr hm, ih h.2 fun x hx => hm x ?_⟩
    exact (h.1.rsp_le.trans l.base_le).trans hx

section Steps

variable {lay : Layout} {s s' : State} {l : Level} {rest : List Level}

/-- What happens below the base of a level does not concern the levels around it. -/
theorem LevelsOk.outer {m m' : Mem} (h : LevelsOk lay m rest l.saved)
    (hm : ∀ x, l.base ≤ x → m' x = m x) : LevelsOk lay m' rest l.saved :=
  h.congr fun x hx => hm x (l.base_le.trans hx)

/-- A level starts with its whole way before it. -/
theorem Level.pushing_of_deliver {v : Fin 32} {error : BitVec 32} {c c' : Cpu} {m m' : Mem}
    (hd : deliver lay v error c m = some (c', m')) :
    Level.Pushing lay ⟨v, error, c, none⟩ c' m' (exceptionHandler v ++ entryVectorPush) ∧
      ∀ x, Level.base ⟨v, error, c, none⟩ ≤ x → m' x = m x := by
  unfold deliver at hd
  rw [Option.map_eq_some_iff] at hd
  obtain ⟨⟨r, m1⟩, hpush, heq⟩ := hd
  cases heq
  have hrep : Rep (Level.base ⟨v, error, c, none⟩) []
      (c.regs.set .rsp (c.regs.gpr .rsp &&& ~~~0xf#64)) m :=
    ⟨Level.base_lt _, by simp [sp, WordStack.top, Level.base], WordStack.nil⟩
  obtain ⟨hr, hrep', hm⟩ := pushWords_sim _ hrep hpush
  rw [List.append_nil] at hr hrep'
  refine ⟨⟨[], _, rfl, ?_, ?_, ⟨hrep'.base_lt, hrep'.rsp, hrep'.stack⟩⟩, hm⟩
  · rw [arun, hr, Level.start]
    simp [Regs.set]
  · have hflow := flow_exception lay v
    rw [entryVector, ← List.append_assoc] at hflow
    exact hflow

/-- The return of `interrupt_handler` leads to the code after the call. -/
theorem Level.Calling.popping {entry r : Regs} {c : Cpu} {m : Mem} (h : l.Calling lay entry c m)
    (hsp : r.gpr .rsp = entry.gpr .rsp + 8) (hax : r.gpr .rax = entry.gpr .rcx) :
    l.Popping lay ⟨m.read64 (entry.gpr .rsp).toNat, r⟩ m entryVectorPop := by
  obtain ⟨ret, hf, hrep⟩ := h.ret
  obtain ⟨hpop, hnext, hret⟩ := hrep.pop
  rw [hnext] at hsp
  refine ⟨r, [], _, rfl, ?_, rfl, ?_, ⟨hrep.base_lt, hsp, hpop.stack⟩⟩
  · rw [hax, hsp, h.rcx]
  · rw [hret]; exact hf

theorem Inv.interrupt {v : Fin 32} {error : BitVec 32} {c : Cpu} {m : Mem} (h : Inv lay s)
    (hd : deliver lay v error s.cpu s.mem = some (c, m)) :
    Inv lay ⟨c, m, ⟨v, error, s.cpu, none⟩ :: s.levels⟩ := by
  obtain ⟨hp, hm⟩ := Level.pushing_of_deliver hd
  exact ⟨.inl ⟨_, hp⟩, LevelsOk.outer (l := ⟨v, error, s.cpu, none⟩) h hm⟩

theorem Inv.exec {i : Instr} {next : BitVec 64} {c : Cpu} {m : Mem} (h : Inv lay s)
    (hl : s.levels = l :: rest) (hh : l.handler = none) (hc : lay.code s.cpu.rip = some (i, next))
    (he : Interrupt.exec lay i next s.cpu.regs s.mem = some (c, m)) :
    Inv lay ⟨c, m, advance i l rest c.regs⟩ := by
  rw [Inv, hl] at h
  obtain ⟨hok, houter⟩ := h
  have hsame : i ≠ .callInterruptHandler → i ≠ .iretq → l.Ok lay c m →
      (∀ x, l.base ≤ x → m x = s.mem x) → Inv lay ⟨c, m, advance i l rest c.regs⟩ := by
    intro h1 h2 hok' hm
    rw [Inv, advance_of_ne h1 h2]
    exact ⟨hok', houter.outer hm⟩
  have hok' : (∃ todo, l.Pushing lay c m todo) ∨ (∃ todo, l.Popping lay c m todo) →
      l.Ok lay c m := by
    intro hp; rw [Level.Ok, hh]; exact hp
  rcases Level.Ok.of_none hok hh with ⟨todo, hp⟩ | ⟨todo, hp⟩
  · cases todo with
    | cons j todo =>
      obtain ⟨h1, h2, hp', hm⟩ := hp.exec hc he
      exact hsame h1 h2 (hok' (.inl ⟨todo, hp'⟩)) hm
    | nil =>
      obtain ⟨rfl, hcall, hm⟩ := hp.call hc he
      exact ⟨⟨hcall.ret, hcall.rcx, hcall.rsp⟩, houter.outer hm⟩
  · cases todo with
    | cons j todo =>
      obtain ⟨h1, h2, hp', hm⟩ := hp.exec hc he
      exact hsame h1 h2 (hok' (.inr ⟨todo, hp'⟩)) hm
    | nil =>
      obtain ⟨rfl, rfl, rfl⟩ := hp.iretq hc he
      exact houter

theorem Inv.handler {entry : Regs} {c : Cpu} {m : Mem} (h : Inv lay s)
    (hl : s.levels = l :: rest) (hh : l.handler = some entry)
    (hsp : (c.regs.gpr .rsp).toNat ≤ (entry.gpr .rsp).toNat)
    (hm : ∀ x, (entry.gpr .rsp).toNat ≤ x → m x = s.mem x) : Inv lay ⟨c, m, s.levels⟩ := by
  rw [Inv, hl] at h ⊢
  obtain ⟨hok, houter⟩ := h
  have hcall := Level.Ok.of_some hok hh
  obtain ⟨ret, hf, hrep⟩ := hcall.ret
  refine ⟨?_, houter.outer fun x hx => hm x ((Level.rep_rsp_le hrep).trans hx)⟩
  rw [Level.Ok, hh]
  exact ⟨⟨ret, hf, hrep.congr hm⟩, hcall.rcx, hsp⟩

theorem Inv.ret {entry r : Regs} (h : Inv lay s) (hl : s.levels = l :: rest)
    (hh : l.handler = some entry) (hsp : r.gpr .rsp = entry.gpr .rsp + 8)
    (hax : r.gpr .rax = entry.gpr .rcx) :
    Inv lay ⟨⟨s.mem.read64 (entry.gpr .rsp).toNat, r⟩, s.mem,
      { l with handler := none } :: rest⟩ := by
  rw [Inv, hl] at h
  obtain ⟨hok, houter⟩ := h
  obtain ⟨r, done, st, hp⟩ := (Level.Ok.of_some hok hh).popping hsp hax
  exact ⟨.inr ⟨_, r, done, st, hp⟩, houter⟩

theorem Inv.step {e : Event} (h : Inv lay s) (hs : Step lay s e s') : Inv lay s' := by
  cases hs with
  | program c m hl => trivial
  | interrupt hd => exact h.interrupt hd
  | exec hl hh hc he => exact h.exec hl hh hc he
  | handler hl hh hsp hm => exact h.handler hl hh hsp hm
  | ret hl hh hsp hax => exact h.ret hl hh hsp hax

theorem Run.inv {tr : List Event} (h : (interruptLts lay).Run tr s) : Inv lay s := by
  refine h.state_invariant (fun s hs => ?_) fun _ _ _ hi hst => hi.step hst
  have hl : s.levels = [] := hs
  rw [Inv, hl]; trivial

theorem Level.Pushing.next {c : Cpu} {m : Mem} {todo : List Instr} (h : l.Pushing lay c m todo) :
    ∃ i next, lay.code c.rip = some (i, next) := by
  obtain ⟨done, st, -, -, hflow, -⟩ := h
  exact flow_next hflow (by simp)

theorem Level.Popping.next {c : Cpu} {m : Mem} {todo : List Instr} (h : l.Popping lay c m todo) :
    ∃ i next, lay.code c.rip = some (i, next) := by
  obtain ⟨r, done, st, -, -, -, hflow, -⟩ := h
  exact flow_next hflow (by simp)

theorem exec_step {i : Instr} {next : BitVec 64} (hl : s.levels = l :: rest) (hh : l.handler = none)
    (hc : lay.code s.cpu.rip = some (i, next)) (h8 : 8 ≤ (s.cpu.regs.gpr .rsp).toNat) :
    ∃ c m, Interrupt.exec lay i next s.cpu.regs s.mem = some (c, m) ∧
      Step lay s (.exec i) ⟨c, m, advance i l rest c.regs⟩ := by
  have hsome : (Interrupt.exec lay i next s.cpu.regs s.mem).isSome := exec_isSome h8
  obtain ⟨⟨c, m⟩, he⟩ := Option.isSome_iff_exists.mp hsome
  exact ⟨c, m, he, .exec hl hh hc he⟩

end Steps

/-! ## An interrupt that is left alone -/

section Returns

variable {lay : Layout} {tr : List Event} {s : State} {l : Level} {rest : List Level}

theorem delivered_length_le (v : Fin 32) (error : BitVec 32) (c : Cpu) :
    (delivered v error c).length ≤ 6 := by
  simp only [delivered]; split <;> simp

theorem Level.Pushing.room {c : Cpu} {m : Mem} {todo : List Instr} (h : l.Pushing lay c m todo)
    (hb : 512 ≤ l.base) : 8 ≤ (c.regs.gpr .rsp).toNat := by
  obtain ⟨done, st, hp, hdone, -, hrep⟩ := h
  have hst : st.length ≤ l.start.2.length + done.length := arun_length hdone
  have hstart : l.start.2.length ≤ 6 := by
    rw [Level.start, List.length_reverse]
    exact delivered_length_le _ _ _
  have hprog : (exceptionHandler l.vector ++ entryVectorPush).length ≤ 31 := by
    generalize l.vector = v; revert v; decide
  rw [hp, List.length_append] at hprog
  rw [hrep.rsp_toNat, WordStack.top]
  omega

theorem Level.Popping.room {c : Cpu} {m : Mem} {todo : List Instr} (h : l.Popping lay c m todo)
    (hb : 512 ≤ l.base) : 8 ≤ (c.regs.gpr .rsp).toNat := by
  obtain ⟨r, done, st, hp, -, hdone, -, hrep⟩ := h
  have hst : st.length ≤ l.frame.length + done.length := arun_length hdone
  have hstart : l.frame.length = 26 := rfl
  have hprog : entryVectorPop.length = 25 := rfl
  rw [hp, List.length_append] at hprog
  rw [hrep.rsp_toNat, WordStack.top]
  omega

/-- The entry code reaches the call. -/
theorem Run.to_call (hh : l.handler = none) (hb : 512 ≤ l.base) (todo : List Instr) :
    ∀ {tr : List Event} {s : State}, (interruptLts lay).Run tr s → s.levels = l :: rest →
      l.Pushing lay s.cpu s.mem todo →
      ∃ tr' s', (interruptLts lay).Run tr' s' ∧ s'.levels = l :: rest ∧
        l.Pushing lay s'.cpu s'.mem [] := by
  induction todo with
  | nil => intro tr s h hl hp; exact ⟨tr, s, h, hl, hp⟩
  | cons j todo ih =>
    intro tr s h hl hp
    obtain ⟨i, next, hc⟩ := hp.next
    obtain ⟨c, m, he, hs⟩ := exec_step hl hh hc (hp.room hb)
    obtain ⟨h1, h2, hp', -⟩ := hp.exec hc he
    exact ih (h.step hs) (advance_of_ne h1 h2 l rest c.regs) hp'

/-- And after the return, the `iretq`. -/
theorem Run.to_iretq (hh : l.handler = none) (hb : 512 ≤ l.base) (todo : List Instr) :
    ∀ {tr : List Event} {s : State}, (interruptLts lay).Run tr s → s.levels = l :: rest →
      l.Popping lay s.cpu s.mem todo →
      ∃ tr' s' s'', (interruptLts lay).Run tr' s' ∧ s'.levels = l :: rest ∧
        Step lay s' (.exec .iretq) s'' ∧ s''.cpu = l.saved ∧ s''.levels = rest := by
  induction todo with
  | nil =>
    intro tr s h hl hp
    obtain ⟨i, next, hc⟩ := hp.next
    obtain ⟨c, m, he, hs⟩ := exec_step hl hh hc (hp.room hb)
    obtain ⟨rfl, hsaved, -⟩ := hp.iretq hc he
    exact ⟨tr, s, _, h, hl, hs, hsaved, rfl⟩
  | cons j todo ih =>
    intro tr s h hl hp
    obtain ⟨i, next, hc⟩ := hp.next
    obtain ⟨c, m, he, hs⟩ := exec_step hl hh hc (hp.room hb)
    obtain ⟨h1, h2, hp', -⟩ := hp.exec hc he
    exact ih (h.step hs) (advance_of_ne h1 h2 l rest c.regs) hp'

theorem pushWords_isSome (vs : List (BitVec 64)) : ∀ {r : Regs} {m : Mem},
    8 * vs.length ≤ (r.gpr .rsp).toNat → (pushWords vs r m).isSome := by
  induction vs with
  | nil => intro r m _; rfl
  | cons v vs ih =>
    intro r m h
    rw [List.length_cons] at h
    rw [pushWords, pushWord, if_neg (by omega)]
    refine ih ?_
    rw [Regs.set_rsp, BitVec.toNat_sub, show (8 : BitVec 64).toNat = 8 from rfl]
    have := (r.gpr .rsp).isLt
    omega

theorem deliver_isSome (lay : Layout) {v : Fin 32} {error : BitVec 32} {c : Cpu} (m : Mem)
    (hb : 512 ≤ Level.base ⟨v, error, c, none⟩) : ∃ c' m', deliver lay v error c m = some (c', m') := by
  have hlen := delivered_length_le v error c
  have hroom : (pushWords (delivered v error c)
      (c.regs.set .rsp (c.regs.gpr .rsp &&& ~~~0xf#64)) m).isSome := by
    refine pushWords_isSome _ ?_
    rw [Regs.set_rsp]
    exact Nat.le_trans (by omega) hb
  obtain ⟨⟨r, m'⟩, hpush⟩ := Option.isSome_iff_exists.mp hroom
  exact ⟨⟨lay.exception v, r.gate⟩, m', by rw [deliver, hpush]; rfl⟩

/-- An interrupt that finds room on the stack and is not interrupted itself reaches the call. -/
theorem Run.reaches_call (h : (interruptLts lay).Run tr s) {v : Fin 32} {error : BitVec 32}
    (hb : 512 ≤ Level.base ⟨v, error, s.cpu, none⟩) :
    ∃ tr' s' c m, (interruptLts lay).Run tr' s' ∧
      s'.levels = ⟨v, error, s.cpu, none⟩ :: s.levels ∧
      Step lay s' (.exec .callInterruptHandler)
        ⟨c, m, ⟨v, error, s.cpu, some c.regs⟩ :: s.levels⟩ ∧
      Level.Calling lay ⟨v, error, s.cpu, none⟩ c.regs c m := by
  obtain ⟨c0, m0, hd⟩ := deliver_isSome lay s.mem hb
  obtain ⟨tr', s', h', hl, hp⟩ := Run.to_call rfl hb _ (h.step (.interrupt hd)) rfl
    (Level.pushing_of_deliver hd).1
  obtain ⟨i, next, hc⟩ := hp.next
  obtain ⟨c, m, he, hs⟩ := exec_step hl rfl hc (hp.room hb)
  obtain ⟨rfl, hcall, -⟩ := hp.call hc he
  exact ⟨tr', s', c, m, h', hl, hs, hcall⟩

/-- When its handler returns, it reaches the `iretq`. -/
theorem Run.reaches_iretq (h : (interruptLts lay).Run tr s) {v : Fin 32} {error : BitVec 32}
    (hb : 512 ≤ Level.base ⟨v, error, s.cpu, none⟩) :
    ∃ tr' s' s'', (interruptLts lay).Run tr' s' ∧
      s'.levels = ⟨v, error, s.cpu, none⟩ :: s.levels ∧
      Step lay s' (.exec .iretq) s'' ∧ s''.cpu = s.cpu ∧ s''.levels = s.levels := by
  obtain ⟨tr1, s1, c, m, h1, hl1, hs, hcall⟩ := Run.reaches_call h hb
  have h2 := h1.step hs
  -- the handler returns at once
  have h3 := h2.step (.ret (r := (c.regs.set .rsp (c.regs.gpr .rsp + 8)).set .rax
    (c.regs.gpr .rcx)) rfl rfl (by simp [Regs.set]) (by simp [Regs.set]))
  exact Run.to_iretq rfl hb _ h3 rfl
    (hcall.popping (by simp [Regs.set]) (by simp [Regs.set]))

/-- An interrupt that finds room on the stack, is not interrupted itself and whose handler returns
does come back. -/
theorem interrupt_returns (h : (interruptLts lay).Run tr s) (v : Fin 32) (error : BitVec 32)
    (hb : 512 ≤ Level.base ⟨v, error, s.cpu, none⟩) :
    ∃ tr' s', (interruptLts lay).Run tr' s' ∧ s'.cpu = s.cpu ∧ s'.levels = s.levels := by
  obtain ⟨tr', s', s'', h', -, hs, hcpu, hlevels⟩ := Run.reaches_iretq h hb
  exact ⟨_, s'', h'.step hs, hcpu, hlevels⟩

end Returns

/-! ## The results -/

/-- The arguments of a call of `interrupt_handler`, for the level `l` that makes it. -/
structure CallArgs (l : Level) (c : Cpu) (m : Mem) : Prop where
  aligned : (c.regs.gpr .rsp).toNat % 16 = 0
  vector : c.regs.gpr .rdi = BitVec.ofNat 64 l.vector
  frame_address : (c.regs.gpr .rsi).toNat + 40 = l.base
  frame : ∀ i (h : i < (returnFrame l.saved).length),
    m.read64 ((c.regs.gpr .rsi).toNat + 8 * i) = (returnFrame l.saved)[i]
  error : c.regs.gpr .rdx = if pushesErrorCode l.vector then l.error.setWidth 64 else 0
  state : ∀ i (h : i < (savedRegs l.saved.regs).length),
    m.read64 ((c.regs.gpr .rcx).toNat + 8 * i) = (savedRegs l.saved.regs)[i]

theorem Level.Pushing.callArgs {lay : Layout} {l : Level} {c : Cpu} {m : Mem} {todo : List Instr}
    {next : BitVec 64} (h : l.Pushing lay c m todo)
    (hc : lay.code c.rip = some (.callInterruptHandler, next)) : CallArgs l c m := by
  obtain ⟨hrep, hcx, hdi, hdx, hsi⟩ := h.args hc
  have hlen : l.frame.length = 26 := rfl
  have hroom := hrep.stack.room
  have htop : WordStack.top l.base l.frame = l.base - 208 := rfl
  have hrsp : (c.regs.gpr .rsp).toNat = l.base - 208 := hrep.rsp_toNat
  have hrsi : (c.regs.gpr .rsi).toNat = l.base - 208 + 168 := by
    rw [hsi]; exact hrep.word_address (i := 21) (by omega)
  have halign := l.base_aligned
  refine ⟨by omega, hdi, by omega, fun i hi => ?_, hdx, fun i hi => ?_⟩
  · have hi5 : i < 5 := hi
    have hw := hrep.stack.words (i + 21) (by omega)
    rw [htop] at hw
    rw [hrsi, show l.base - 208 + 168 + 8 * i = l.base - 208 + 8 * (i + 21) by omega, hw]
    exact (List.getElem_append_right' (savedRegs l.saved.regs ++
      [BitVec.ofNat 64 l.vector, errorWord l.vector l.error]) hi).symm
  · have hi19 : i < 19 := hi
    have hw := hrep.stack.words i (by omega)
    rw [hcx, hrsp, ← htop, hw]
    exact List.getElem_append_left hi

theorem Run.callArgs {lay : Layout} {tr : List Event} {s s' : State} {l : Level}
    {rest : List Level} (h : (interruptLts lay).Run tr s) (hl : s.levels = l :: rest)
    (hs : Step lay s (.exec .callInterruptHandler) s') : CallArgs l s.cpu s.mem := by
  have hi := Run.inv h
  rw [Inv, hl] at hi
  obtain ⟨hok, -⟩ := hi
  cases hs with
  | exec hl' hh hc he =>
    cases hl.symm.trans hl'
    rcases Level.Ok.of_none hok hh with ⟨todo, hp⟩ | ⟨todo, hp⟩
    · exact hp.callArgs hc
    · cases todo with
      | cons j todo => exact absurd rfl (hp.exec hc he).1
      | nil => exact absurd (hp.iretq hc he).1 (by decide)

/-- For every layout of the code, every interrupted state, every vector and error code, and any
nesting of interrupts: `interrupt_handler` is called as the ABI demands, with the vector, the
frame, the error code and the saved registers of its own level; `iretq` brings back the state that
level interrupted; and the entry code only stops for want of stack. -/
theorem interrupt_transparent {lay : Layout} {tr : List Event} {s : State} {l : Level}
    {rest : List Level} (h : (interruptLts lay).Run tr s) (hl : s.levels = l :: rest) :
    (∀ s', Step lay s (.exec .callInterruptHandler) s' → CallArgs l s.cpu s.mem) ∧
      (∀ s', Step lay s (.exec .iretq) s' → s'.cpu = l.saved ∧ s'.levels = rest) ∧
      (l.handler = none → 8 ≤ (s.cpu.regs.gpr .rsp).toNat → ∃ i s', Step lay s (.exec i) s') := by
  have hi := Run.inv h
  rw [Inv, hl] at hi
  obtain ⟨hok, -⟩ := hi
  refine ⟨fun _ hs => Run.callArgs h hl hs, fun s' hs => ?_, fun hh h8 => ?_⟩
  · cases hs with
    | exec hl' hh hc he =>
      cases hl.symm.trans hl'
      rcases Level.Ok.of_none hok hh with ⟨todo, hp⟩ | ⟨todo, hp⟩
      · cases todo with
        | cons j todo => exact absurd rfl (hp.exec hc he).2.1
        | nil => exact absurd (hp.call hc he).1 (by decide)
      · cases todo with
        | cons j todo => exact absurd rfl (hp.exec hc he).2.1
        | nil => exact ⟨(hp.iretq hc he).2.1, rfl⟩
  · have hnext : ∃ i next, lay.code s.cpu.rip = some (i, next) := by
      rcases Level.Ok.of_none hok hh with ⟨todo, hp⟩ | ⟨todo, hp⟩
      · exact hp.next
      · exact hp.next
    obtain ⟨i, next, hc⟩ := hnext
    obtain ⟨c, m, -, hs⟩ := exec_step hl hh hc h8
    exact ⟨i, _, hs⟩

/-- A layout with one address for each instruction. -/
def sampleCode (a : BitVec 64) : Option (Instr × BitVec 64) :=
  let i :=
    if a.toNat < 64 then entryVector[a.toNat]?
    else if h : (a.toNat - 64) / 4 < 32 then (exceptionHandler ⟨_, h⟩)[a.toNat % 4]?
    else none
  i.map (·, a + 1)

def sampleLayout : Layout where
  code := sampleCode
  exception v := BitVec.ofNat 64 (64 + 4 * v)
  entryVector := 0
  interruptHandler := 0x1000
  exception_placed := by decide
  entryVector_placed := by decide

def sampleCpu : Cpu where
  rip := 0x8100
  regs := {
    gpr := fun x => if x = .rsp then 0x40008 else 7
    seg := fun _ => 0x10
    cs := 8
    ss := 0x10
    rflags := 0x202 }

/-- A page fault and, in its handler, an NMI: the two calls, and the `iretq` of the inner one. -/
theorem interrupt_transparent_nested :
    ∃ (outer inner : Level) (tr₁ tr₂ tr₃ : List Event) (s₁ s₁' s₂ s₂' s₃ s₃' : State),
      (outer.vector = 14 ∧ outer.saved = sampleCpu ∧ inner.vector = 2 ∧ inner.saved = s₁'.cpu) ∧
      ((interruptLts sampleLayout).Run tr₁ s₁ ∧ s₁.levels = [outer] ∧
        Step sampleLayout s₁ (.exec .callInterruptHandler) s₁' ∧ CallArgs outer s₁.cpu s₁.mem) ∧
      ((interruptLts sampleLayout).Run tr₂ s₂ ∧ s₂.levels = inner :: s₁'.levels ∧
        Step sampleLayout s₂ (.exec .callInterruptHandler) s₂' ∧ CallArgs inner s₂.cpu s₂.mem) ∧
      (interruptLts sampleLayout).Run tr₃ s₃ ∧ s₃.levels = inner :: s₁'.levels ∧
        Step sampleLayout s₃ (.exec .iretq) s₃' ∧ s₃'.cpu = inner.saved ∧
        s₃'.levels = s₁'.levels := by
  have h0 : (interruptLts sampleLayout).Run [] ⟨sampleCpu, fun _ => 0, []⟩ := .init rfl
  have hb : 512 ≤ Level.base ⟨14, 2, sampleCpu, none⟩ := by decide
  obtain ⟨tr₁, s₁, c, m, h₁, hl₁, hs₁, hcall⟩ := Run.reaches_call h0 hb
  have h1 := h₁.step hs₁
  obtain ⟨ret, -, hrep⟩ := hcall.ret
  have hbase : Level.base ⟨14, 2, sampleCpu, none⟩ = 0x40000 := by decide
  have hrsp : c.regs.gpr .rsp = 0x3ff28#64 := by
    refine BitVec.eq_of_toNat_eq (hrep.rsp_toNat.trans ?_)
    rw [hbase]
    rfl
  have hb' : 512 ≤ Level.base ⟨2, 0, c, none⟩ := by
    rw [Level.base, hrsp]
    decide
  obtain ⟨tr₂, s₂, c₂, m₂, h₂, hl₂, hs₂, -⟩ := Run.reaches_call h1 hb'
  obtain ⟨tr₃, s₃, s₃', h₃, hl₃, hs₃, -⟩ := Run.reaches_iretq h1 hb'
  obtain ⟨hcpu, hlevels⟩ := (interrupt_transparent h₃ hl₃).2.1 _ hs₃
  exact ⟨_, _, tr₁, tr₂, tr₃, s₁, _, s₂, _, s₃, s₃', ⟨rfl, rfl, rfl, rfl⟩,
    ⟨h₁, hl₁, hs₁, (interrupt_transparent h₁ hl₁).1 _ hs₁⟩,
    ⟨h₂, hl₂, hs₂, (interrupt_transparent h₂ hl₂).1 _ hs₂⟩, h₃, hl₃, hs₃, hcpu, hlevels⟩

end Interrupt
end DeliceOS
