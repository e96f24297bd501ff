import DeliceOS.Atomic.Lock
import DeliceOS.Base.Token
import DeliceOS.Paging.MapAddr

/-!
# Boot.HandOff

The way of a core from `_start` to the end of `start_kernel`. Cores interleave at every store. The
byte `stack_wait` lets one core at a time in: `_start` exchanges it with zero until it was not
zero, and `start_kernel` stores one at its end.

Memory is physical memory, and the lock `spin` of `printf_` stands beside it. What a core stores
apart from the page tables, `stack_wait` and the lock is arbitrary, within these bounds: in real
mode (its own code and the BIOS) everything but `stack_wait`, then only the shared stack below
`0x7c00`, and in the kernel everything but `stack_wait` and the page-table frames. In real mode
the counters of the lock may be overwritten too, since its records are stored over low memory.

* `handOff_refines_token`: the byte and the cores inside are a token and its holders.
* `Inv.step`: what every step keeps.
* `handOff_safe`: the consequences for every run.
-/

namespace DeliceOS
namespace HandOff

open Base Paging

def stackWait : Nat := 0x7e00

/-- Where a core is. The number of a stage counts the stores done. -/
inductive Stage where
  | off
  | waiting             -- `.wait_for_stack`
  | realMode            -- after the exchange, on the shared stack
  | earlyPage (k : Nat)
  | longMode            -- from the return of `early_page` to `mov esp` in `enter_long`
  | startKernel         -- on its own stack
  | staticInit
  | kernelInit          -- from the return of `static_init` to the call of `map_addr`
  | mapAddr (k : Nat)
  | kernel              -- from the return of `map_addr` to the store of one
  | halted
  deriving DecidableEq, Repr

namespace Stage

/-- Between the successful `xchg` and the store of one. -/
def inside : Stage → Bool
  | off | waiting | halted => false
  | _ => true

def sharedStack : Stage → Bool
  | realMode | earlyPage _ | longMode => true
  | _ => false

def inKernel : Stage → Bool
  | startKernel | staticInit | kernelInit | mapAddr _ | kernel => true
  | _ => false

theorem inside_of_sharedStack {st : Stage} (h : st.sharedStack = true) : st.inside = true := by
  cases st <;> simp [sharedStack, inside] at *

theorem inside_of_inKernel {st : Stage} (h : st.inKernel = true) : st.inside = true := by
  cases st <;> simp [inKernel, inside] at *

end Stage

structure State (Core : Type) where
  mem : Mem
  spin : Atomic.LockState Core
  stage : Core → Stage

inductive Event (Core : Type) where
  | start (c : Core)
  | wait (c : Core)       -- an `xchg` that returned zero
  | take (c : Core)       -- an `xchg` that did not
  | give (c : Core)       -- `*stack_wait = 0x1`
  | construct (c : Core)  -- the constructor of `spin`, called by `static_init`
  | print (c : Core)      -- an atomic step of the lock in `printf_`
  | other (c : Core)

/-- A frame of the page tables. -/
def InTables (x : Nat) : Prop :=
  (0x22000 ≤ x ∧ x < 0x24000) ∨ (0x32000 ≤ x ∧ x < 0x36000)

section

variable {Core : Type} [DecidableEq Core]

/-- Core `c` moves on to stage `st`. -/
def State.goto (s : State Core) (c : Core) (st : Stage) : State Core :=
  { s with stage := Function.update s.stage c st }

inductive Step (s : State Core) : Event Core → State Core → Prop where
  | start {c : Core} : s.stage c = .off ∨ s.stage c = .halted → Step s (.start c) (s.goto c .waiting)
  | wait {c : Core} : s.stage c = .waiting → s.mem stackWait = 0 →
      Step s (.wait c) { s with mem := s.mem.write8 stackWait 0 }
  | take {c : Core} : s.stage c = .waiting → s.mem stackWait ≠ 0 →
      Step s (.take c) { s.goto c .realMode with mem := s.mem.write8 stackWait 0 }
  | realStore {c : Core} {st : Store} (acquire release : BitVec 32) : s.stage c = .realMode →
      st.Misses stackWait →
      Step s (.other c)
        { s with mem := st.apply s.mem, spin := { s.spin with acquire := acquire, release := release } }
  | stackStore {c : Core} {st : Store} : (s.stage c).sharedStack = true →
      st.addr + st.size ≤ 0x7c00 → Step s (.other c) { s with mem := st.apply s.mem }
  | callEarlyPage {c : Core} : s.stage c = .realMode → Step s (.other c) (s.goto c (.earlyPage 0))
  | earlyPage {c : Core} {k : Nat} (h : k < earlyPageStores.length) : s.stage c = .earlyPage k →
      Step s (.other c) { s.goto c (.earlyPage (k + 1)) with mem := earlyPageStores[k].apply s.mem }
  | retEarlyPage {c : Core} : s.stage c = .earlyPage earlyPageStores.length →
      Step s (.other c) (s.goto c .longMode)
  | enterLong {c : Core} : s.stage c = .longMode → Step s (.other c) (s.goto c .startKernel)
  | callStaticInit {c : Core} : s.stage c = .startKernel → Step s (.other c) (s.goto c .staticInit)
  | construct {c : Core} : s.stage c = .staticInit →
      Step s (.construct c) { s with spin := { s.spin with acquire := 0, release := 0 } }
  | retStaticInit {c : Core} : s.stage c = .staticInit → Step s (.other c) (s.goto c .kernelInit)
  | callMapAddr {c : Core} : s.stage c = .kernelInit → Step s (.other c) (s.goto c (.mapAddr 0))
  | mapAddr {c : Core} {k : Nat} (h : k < (mapAddrStores apicCall).length) :
      s.stage c = .mapAddr k →
      Step s (.other c)
        { s.goto c (.mapAddr (k + 1)) with mem := (mapAddrStores apicCall)[k].apply s.mem }
  | retMapAddr {c : Core} : s.stage c = .mapAddr (mapAddrStores apicCall).length →
      Step s (.other c) (s.goto c .kernel)
  | kernelStore {c : Core} {st : Store} : (s.stage c).inKernel = true → st.Misses stackWait →
      (∀ x, InTables x → st.Misses x) → Step s (.other c) { s with mem := st.apply s.mem }
  | print {c : Core} : s.stage c = .kernel →
      Step s (.print c) { s with spin := (s.spin.step c).2 }
  | give {c : Core} : s.stage c = .kernel → s.spin.pc c = .out →
      Step s (.give c) { s.goto c .halted with mem := s.mem.write8 stackWait 1 }

def bootLts (Core : Type) [DecidableEq Core] : Lts (State Core) (Event Core) where
  init s := s.mem stackWait = 1 ∧ (∀ c, s.spin.pc c = .out) ∧ ∀ c, s.stage c = .off
  step := Step

/-! ## What a step changes -/

theorem earlyPageStores_misses {x : Nat} (h : x < FIRST_PML4_BASE) :
    ∀ st ∈ earlyPageStores, st.Misses x := by
  intro st hst
  simp only [FIRST_PML4_BASE] at h
  rcases List.mem_append.mp hst with hst | hst
  · rcases List.mem_append.mp hst with hst | hst
    · exact .inl (lt_of_lt_of_le h (repStosd_addr hst))
    · simp only [List.mem_cons, List.not_mem_nil, or_false] at hst
      rcases hst with rfl | rfl
      · simp only [Store.Misses, FIRST_PML4_BASE]; omega
      · simp only [Store.Misses, FIRST_PDPT_BASE]; omega
  · obtain ⟨k, -, ha, -⟩ := fillPd_mem hst
    simp only [FIRST_PD_BASE] at ha
    simp only [Store.Misses]; omega

theorem mapAddrStores_misses {c : Call} {x : Nat} (h : x < APIC_PDPTE) :
    ∀ st ∈ mapAddrStores c, st.Misses x := by
  have hset : ∀ a v, x < a → ∀ st ∈ setEntry a v, st.Misses x := by
    intro a v ha st hst
    rcases List.mem_append.mp hst with hst | hst
    · exact Store.clear_misses (.inl ha) st hst
    · simp only [List.mem_cons, List.not_mem_nil, or_false] at hst
      rw [hst]; exact .inl ha
  intro st hst
  simp only [APIC_PDPTE] at h
  rcases List.mem_append.mp hst with hst | hst
  · rcases List.mem_append.mp hst with hst | hst
    · exact hset _ _ (by simp only [FIRST_PML4_BASE]; omega) st hst
    · exact hset _ _ (by simp only [APIC_PDPTE]; omega) st hst
  · exact hset _ _ (by simp only [APIC_PDE]; omega) st hst

/-- What a step inside the critical region leaves alone. -/
structure Local (s : State Core) (c : Core) (s' : State Core) : Prop where
  stage : ∀ d, d ≠ c → s'.stage d = s.stage d
  inside : (s.stage c).inside = true
  inside' : (s'.stage c).inside = true
  kernel : s.stage c = .kernel → s'.stage c = .kernel
  mem : s'.mem stackWait = s.mem stackWait
  pc : s'.spin.pc = s.spin.pc

theorem Local.goto_store {s : State Core} {c : Core} {st : Stage} {m : Mem}
    (h : (s.stage c).inside = true) (hk : s.stage c ≠ .kernel) (h' : st.inside = true)
    (hm : m stackWait = s.mem stackWait) : Local s c { s.goto c st with mem := m } :=
  ⟨fun _ hd => Function.update_of_ne hd _ _, h, by simpa [State.goto] using h',
    fun he => absurd he hk, hm, rfl⟩

theorem Local.goto {s : State Core} {c : Core} {st : Stage} (h : (s.stage c).inside = true)
    (hk : s.stage c ≠ .kernel) (h' : st.inside = true) : Local s c (s.goto c st) :=
  .goto_store h hk h' rfl

omit [DecidableEq Core] in
theorem Local.store {s : State Core} {c : Core} {st : Store} (h : (s.stage c).inside = true)
    (hm : st.Misses stackWait) : Local s c { s with mem := st.apply s.mem } :=
  ⟨fun _ _ => rfl, h, h, id, Store.apply_out hm, rfl⟩

theorem Step.local {s s' : State Core} {c : Core} (h : Step s (.other c) s') : Local s c s' := by
  cases h with
  | realStore a r hs hm =>
    exact ⟨fun _ _ => rfl, by rw [hs]; rfl, by rw [hs]; rfl, id, Store.apply_out hm, rfl⟩
  | stackStore hs hm =>
    exact .store (Stage.inside_of_sharedStack hs) (.inr (by simp only [stackWait]; omega))
  | callEarlyPage hs => exact .goto (by rw [hs]; rfl) (by simp [hs]) rfl
  | earlyPage hk hs =>
    exact .goto_store (by rw [hs]; rfl) (by simp [hs]) rfl
      (Store.apply_out (earlyPageStores_misses (by decide) _ (List.getElem_mem hk)))
  | retEarlyPage hs => exact .goto (by rw [hs]; rfl) (by simp [hs]) rfl
  | enterLong hs => exact .goto (by rw [hs]; rfl) (by simp [hs]) rfl
  | callStaticInit hs => exact .goto (by rw [hs]; rfl) (by simp [hs]) rfl
  | retStaticInit hs => exact .goto (by rw [hs]; rfl) (by simp [hs]) rfl
  | callMapAddr hs => exact .goto (by rw [hs]; rfl) (by simp [hs]) rfl
  | mapAddr hk hs =>
    exact .goto_store (by rw [hs]; rfl) (by simp [hs]) rfl
      (Store.apply_out (mapAddrStores_misses (by decide) _ (List.getElem_mem hk)))
  | retMapAddr hs => exact .goto (by rw [hs]; rfl) (by simp [hs]) rfl
  | kernelStore hs hm _ => exact .store (Stage.inside_of_inKernel hs) hm

/-! ## The token -/

section Token

variable [Fintype Core]

def State.inside (s : State Core) : Finset Core := Finset.univ.filter fun c => (s.stage c).inside

def State.token (s : State Core) : Token Core := ⟨(s.mem stackWait).toNat, s.inside⟩

def Event.token : Event Core → Option (Token.Event Core)
  | .take c => some (.take c)
  | .give c => some (.give c)
  | _ => none

omit [DecidableEq Core] in
theorem State.mem_inside {s : State Core} {c : Core} :
    c ∈ s.inside ↔ (s.stage c).inside = true := by
  simp [State.inside]

theorem State.inside_goto {s : State Core} {c : Core} {st : Stage}
    (h : st.inside = (s.stage c).inside) : (s.goto c st).inside = s.inside := by
  ext d
  rw [State.mem_inside, State.mem_inside, State.goto]
  by_cases hd : d = c
  · subst hd; simp [h]
  · simp [Function.update_of_ne hd]


theorem Local.token {s s' : State Core} {c : Core} (h : Local s c s') : s.token = s'.token := by
  have hin : s.inside = s'.inside := by
    ext d
    rw [State.mem_inside, State.mem_inside]
    by_cases hd : d = c
    · rw [hd, h.inside, h.inside']
    · rw [h.stage d hd]
  rw [State.token, State.token, h.mem, hin]

theorem State.inside_take (s : State Core) {c : Core} :
    (s.goto c .realMode).inside = insert c s.inside := by
  ext d
  rw [State.mem_inside, Finset.mem_insert, State.mem_inside, State.goto]
  by_cases hd : d = c
  · subst hd; simp [Stage.inside]
  · simp [hd]

theorem State.inside_give (s : State Core) {c : Core} :
    (s.goto c .halted).inside = s.inside.erase c := by
  ext d
  rw [State.mem_inside, Finset.mem_erase, State.mem_inside, State.goto]
  by_cases hd : d = c
  · subst hd; simp [Stage.inside]
  · simp [hd]

/-- `stack_wait` is a token, held by the cores inside. -/
theorem handOff_refines_token :
    Lts.Sim (bootLts Core) (Token.lts Core) Event.token (fun s t => t = s.token) where
  init s hs := by
    obtain ⟨hm, -, hst⟩ := hs
    have hin : s.inside = ∅ := by ext c; simp [State.mem_inside, hst c, Stage.inside]
    exact ⟨_, rfl, by rw [State.token, hm, hin]; rfl⟩
  step := by
    rintro s e s' t rfl h
    have hwrite : ∀ v, (s.mem.write8 stackWait v) stackWait = v := by
      intro v; rw [Mem.write8_eq, Function.update_self]
    cases e with
    | other c => exact h.local.token
    | start c =>
      cases h with
      | start hs =>
        have hin : (s.goto c .waiting).inside = s.inside := State.inside_goto (by
          rcases hs with hs | hs <;> rw [hs] <;> rfl)
        simp only [Event.token, Lts.Follows, State.token, hin]
        rfl
    | wait c =>
      cases h with
      | wait hs hm => simp [Event.token, Lts.Follows, State.token, State.inside, hwrite, hm]
    | take c =>
      cases h with
      | take hs hm =>
        refine ⟨_, .take (fun h => hm (BitVec.eq_of_toNat_eq h)) ?_, ?_⟩
        · rw [State.token, State.mem_inside, hs]; decide
        · have hin := s.inside_take (c := c)
          simp only [State.token, hwrite, ← hin]; rfl
    | give c =>
      cases h with
      | give hs hp =>
        refine ⟨_, .give (by rw [State.token, State.mem_inside, hs]; rfl), ?_⟩
        have hin := s.inside_give (c := c)
        simp only [State.token, hwrite, ← hin]; rfl
    | construct c => cases h with | construct hs => rfl
    | print c => cases h with | print hs => rfl

end Token

/-! ## The page tables -/

/-- The entries the walk of `0x13370000000 + r` reads. -/
structure ApicTables (m : Mem) : Prop where
  pml4 : m.read64 (FIRST_PML4_BASE + 8 * apicCall.index 3) = 0x22003#64
  pdpt : m.read64 (APIC_PDPTE + 8 * apicCall.index 2) = 0x23003#64
  pd : m.read64 (APIC_PDE + 8 * apicCall.index 1) = apicCall.pde

theorem apicTables_mapAddr (m : Mem) : ApicTables (mapAddr apicCall m) where
  pml4 := by rw [mapAddr_pml4 _ _ (apicCall.index_lt 3), if_pos rfl]
  pdpt := by rw [mapAddr_pdpt _ _ (apicCall.index_lt 2), if_pos rfl]
  pd := by rw [mapAddr_pd _ _ (apicCall.index_lt 1), if_pos rfl]

theorem read64_congr_tables {m m' : Mem} (h : ∀ x, InTables x → m' x = m x) {table i : Nat}
    (ht : table = FIRST_PML4_BASE ∨ table = APIC_PDPTE ∨ table = APIC_PDE) (hi : i < 512) :
    m'.read64 (table + 8 * i) = m.read64 (table + 8 * i) := by
  refine Mem.read64_congr fun x hx hx' => h x ?_
  simp only [InTables]
  rcases ht with rfl | rfl | rfl
  · simp only [FIRST_PML4_BASE] at hx hx'; omega
  · simp only [APIC_PDPTE] at hx hx'; omega
  · simp only [APIC_PDE] at hx hx'; omega

theorem ApicTables.congr {m m' : Mem} (h : ApicTables m) (hx : ∀ x, InTables x → m' x = m x) :
    ApicTables m' where
  pml4 := by rw [read64_congr_tables hx (.inl rfl) (apicCall.index_lt 3)]; exact h.pml4
  pdpt := by rw [read64_congr_tables hx (.inr (.inl rfl)) (apicCall.index_lt 2)]; exact h.pdpt
  pd := by rw [read64_congr_tables hx (.inr (.inr rfl)) (apicCall.index_lt 1)]; exact h.pd

theorem apicCall_index {r : Nat} (hr : r < 2 ^ 21) :
    Walk.index 3 (0x13370000000 + r) = apicCall.index 3 ∧
      Walk.index 2 (0x13370000000 + r) = apicCall.index 2 ∧
      Walk.index 1 (0x13370000000 + r) = apicCall.index 1 := by
  have hv : apicCall.vaddr.toNat = 0x13370000000 := by decide
  simp only [Call.index, Walk.index, hv]
  omega

theorem ApicTables.walk {m : Mem} (h : ApicTables m) {r : Nat} (hr : r < 2 ^ 21) :
    (Walk.walk m FIRST_PML4_BASE (0x13370000000 + r)).map (·.phys) = some (0xfee00000 + r) := by
  obtain ⟨h3, h2, h1⟩ := apicCall_index hr
  have hp : apicCall.phys.toNat = 0xfee00000 := by decide
  rw [walk_pml4 (by rw [Walk.entry, h3]; exact h.pml4),
    walkFrom_pdpt (by rw [Walk.entry, h2]; exact h.pdpt),
    walkFrom_pd apicCall_valid (by rw [Walk.entry, h1]; exact h.pd)]
  simp only [Call.translation, hp, Option.map_some, Option.some.injEq]
  omega

/-- How far the tables are at a stage. Only the bytes of the tables count: in between, the core
also stores elsewhere, and other cores exchange `stack_wait`. -/
def Built (m : Mem) : Stage → Prop
  | .mapAddr k => ∃ m0, ∀ x, InTables x →
      m x = Store.run ((mapAddrStores apicCall).take k) m0 x
  | .kernel => ApicTables m
  | _ => True

theorem Built.congr {m m' : Mem} {st : Stage} (h : Built m st) (hx : ∀ x, InTables x → m' x = m x) :
    Built m' st := by
  cases st with
  | mapAddr k =>
    obtain ⟨m0, hm⟩ := h
    exact ⟨m0, fun x hi => (hx x hi).trans (hm x hi)⟩
  | kernel => exact ApicTables.congr h hx
  | _ => trivial

theorem Built.outside {m : Mem} {st : Stage} (h : st.inside = false) : Built m st := by
  cases st <;> trivial

theorem Built.step {s s' : State Core} {c : Core} (h : Step s (.other c) s')
    (hb : Built s.mem (s.stage c)) : Built s'.mem (s'.stage c) := by
  cases h with
  | realStore a r hs hm => simp only [hs]; trivial
  | @stackStore _ st hs hm =>
    refine hb.congr fun x hx => Store.apply_out (.inr ?_)
    simp only [InTables] at hx; omega
  | callEarlyPage hs => simp [State.goto, Built]
  | earlyPage hk hs => simp [State.goto, Built]
  | retEarlyPage hs => simp [State.goto, Built]
  | enterLong hs => simp [State.goto, Built]
  | callStaticInit hs => simp [State.goto, Built]
  | retStaticInit hs => simp [State.goto, Built]
  | callMapAddr hs => exact (by simpa [State.goto, Built] using ⟨s.mem, fun _ _ => rfl⟩)
  | @mapAddr _ k hk hs =>
    rw [hs] at hb
    obtain ⟨m0, hm⟩ := hb
    simp only [State.goto, Function.update_self, Built]
    refine ⟨m0, fun x hx => ?_⟩
    rw [Store.run_take_succ hk]
    exact Store.apply_congr (hm x hx)
  | retMapAddr hs =>
    rw [hs] at hb
    obtain ⟨m0, hm⟩ := hb
    rw [List.take_length] at hm
    simp only [State.goto, Function.update_self, Built]
    exact (apicTables_mapAddr m0).congr hm
  | kernelStore hs hm ht => exact hb.congr fun x hx => Store.apply_out (ht x hx)

/-! ## Every reachable state -/

section Invariant

variable [Fintype Core]

structure Inv (s : State Core) : Prop where
  token : s.token.Conserved
  quiet : ∀ c, s.stage c ≠ .kernel → s.spin.pc c = .out
  built : ∀ c, Built s.mem (s.stage c)

omit [DecidableEq Core] in
theorem Inv.unique {s : State Core} (h : Inv s) {c d : Core} (hc : (s.stage c).inside = true)
    (hd : (s.stage d).inside = true) : c = d :=
  h.token.unique (State.mem_inside.mpr hc) (State.mem_inside.mpr hd)

omit [DecidableEq Core] in
/-- No core is inside when `stack_wait` is not zero. -/
theorem Inv.outside {s : State Core} (h : Inv s) (hm : s.mem stackWait ≠ 0) (c : Core) :
    (s.stage c).inside = false := by
  by_contra hc
  have hpos := Finset.card_pos.mpr ⟨c, State.mem_inside.mpr (Bool.eq_true_of_not_eq_false hc)⟩
  have hone := h.token
  simp only [Token.Conserved, State.token] at hone
  exact hm (BitVec.eq_of_toNat_eq (show _ = 0 by omega))

omit [DecidableEq Core] in
/-- In a stage other than `kernel` every core but the one inside is out, and so is that one. -/
theorem Inv.pc_out {s : State Core} (h : Inv s) {c : Core} (hc : (s.stage c).inside = true)
    (hk : s.stage c ≠ .kernel) (d : Core) : s.spin.pc d = .out := by
  refine h.quiet d fun hd => hk ?_
  rw [h.unique hc (show (s.stage d).inside = true by rw [hd]; rfl), hd]

theorem write8_stackWait (m : Mem) (v : BitVec 8) {x : Nat} (hx : InTables x) :
    m.write8 stackWait v x = m x := by
  rw [Mem.write8_eq, Function.update_of_ne]
  simp only [InTables] at hx
  simp only [stackWait]; omega

omit [Fintype Core] in
/-- Of the stages only that of `c` changes. -/
theorem State.goto_stage (s : State Core) (c d : Core) (st : Stage) :
    (s.goto c st).stage d = if d = c then st else s.stage d :=
  Function.update_apply s.stage c st d

/-- A core that goes to another stage outside of `printf_` keeps quiet there. -/
theorem Inv.goto_quiet {s : State Core} (h : Inv s) {c : Core} (hc : s.spin.pc c = .out) {st : Stage}
    {d : Core} (hd : (s.goto c st).stage d ≠ .kernel) : s.spin.pc d = .out := by
  rw [State.goto_stage] at hd
  by_cases hdc : d = c
  · rw [hdc, hc]
  · rw [if_neg hdc] at hd
    exact h.quiet d hd

omit [Fintype Core] in
theorem State.goto_built {s : State Core} {m : Mem} {c : Core} {st : Stage} (hc : Built m st)
    (hother : ∀ d, d ≠ c → Built m (s.stage d)) (d : Core) : Built m ((s.goto c st).stage d) := by
  rw [State.goto_stage]
  by_cases hdc : d = c
  · rwa [if_pos hdc]
  · rw [if_neg hdc]
    exact hother d hdc

omit [DecidableEq Core] in
/-- A store of `stack_wait` leaves what is built alone. -/
theorem Inv.built_write8 {s : State Core} (h : Inv s) (v : BitVec 8) (d : Core) :
    Built (s.mem.write8 stackWait v) (s.stage d) :=
  (h.built d).congr fun _ => write8_stackWait _ _

/-- A step of one core between the hand-overs. -/
theorem Inv.other {s s' : State Core} {c : Core} (h : Inv s) (hs : Step s (.other c) s')
    (htoken : s'.token.Conserved) : Inv s' := by
  have hl := hs.local
  refine ⟨htoken, fun d hd => ?_, fun d => ?_⟩
  · rw [hl.pc]
    refine h.quiet d fun hk => hd ?_
    by_cases hdc : d = c
    · subst hdc; exact hl.kernel hk
    · rw [hl.stage d hdc]; exact hk
  · by_cases hdc : d = c
    · subst hdc; exact Built.step hs (h.built d)
    · rw [hl.stage d hdc]
      refine Built.outside ?_
      by_contra hd
      exact hdc (h.unique (Bool.eq_true_of_not_eq_false hd) hl.inside)

theorem Inv.step {s s' : State Core} {e : Event Core} (h : Inv s) (hs : Step s e s') : Inv s' := by
  have htoken : s'.token.Conserved := by
    obtain ⟨t, ht, rfl⟩ := h.token.follows (handOff_refines_token.step s e s' _ rfl hs)
    exact ht
  cases e with
  | other c => exact h.other hs htoken
  | start c =>
    cases hs with
    | start hc =>
      have hpc : s.spin.pc c = .out := h.quiet c (by rcases hc with hc | hc <;> rw [hc] <;> decide)
      exact ⟨htoken, fun _ => h.goto_quiet hpc,
        State.goto_built (Built.outside rfl) fun d _ => h.built d⟩
  | wait c =>
    cases hs with
    | wait hc hm => exact ⟨htoken, h.quiet, h.built_write8 0⟩
  | take c =>
    cases hs with
    | take hc hm =>
      have hpc : s.spin.pc c = .out := h.quiet c (by rw [hc]; decide)
      exact ⟨htoken, fun _ => h.goto_quiet hpc,
        State.goto_built trivial fun d _ => Built.outside (h.outside hm d)⟩
  | give c =>
    cases hs with
    | give hc hp =>
      exact ⟨htoken, fun _ => h.goto_quiet hp,
        State.goto_built (Built.outside rfl) fun d _ => h.built_write8 1 d⟩
  | construct c =>
    cases hs with
    | construct hc => exact ⟨htoken, h.quiet, h.built⟩
  | print c =>
    cases hs with
    | print hc =>
      refine ⟨htoken, fun d hd => ?_, h.built⟩
      have hdc : d ≠ c := by
        intro hdc
        exact hd (hdc ▸ hc)
      simpa [Atomic.LockState.step_pc_of_ne s.spin hdc] using h.quiet d hd

theorem Inv.init {s : State Core} (h : (bootLts Core).init s) : Inv s := by
  obtain ⟨t, ht, he⟩ := handOff_refines_token.init s h
  refine ⟨?_, fun c _ => h.2.1 c, fun c => ?_⟩
  · rw [← he, ht]; rfl
  · rw [h.2.2 c]; trivial

theorem Run.inv {tr : List (Event Core)} {s : State Core} (h : (bootLts Core).Run tr s) : Inv s :=
  h.state_invariant (fun _ => Inv.init) fun _ _ _ hi hs => hi.step hs

/-- Core `c` uses the shared stack (in `early_page`, too), or is in `map_addr`, `static_init` or
`printf_`. -/
def State.Busy (s : State Core) (c : Core) : Prop :=
  (s.stage c).sharedStack = true ∨ (∃ k, s.stage c = .mapAddr k) ∨ s.stage c = .staticInit ∨
    s.spin.pc c ≠ .out

omit [DecidableEq Core] in
theorem Inv.inside_of_busy {s : State Core} (h : Inv s) {c : Core} (hc : s.Busy c) :
    (s.stage c).inside = true := by
  rcases hc with hc | ⟨k, hc⟩ | hc | hc
  · exact Stage.inside_of_sharedStack hc
  · rw [hc]; rfl
  · rw [hc]; rfl
  · by_contra hin
    exact hc (h.quiet c fun hk => hin (by rw [hk]; rfl))

end Invariant

/-! ## A core that got in reaches the kernel -/

/-- Running through a stage that counts its stores. -/
theorem Run.stores {F : Nat → Stage} {n : Nat} {c : Core}
    (hstep : ∀ (s : State Core) k, k < n → s.stage c = F k →
      ∃ m, Step s (.other c) { s.goto c (F (k + 1)) with mem := m })
    {tr : List (Event Core)} {s : State Core} (h : (bootLts Core).Run tr s) (hs : s.stage c = F 0) :
    ∀ k, k ≤ n → ∃ tr' s', (bootLts Core).Run tr' s' ∧
      s'.stage = Function.update s.stage c (F k) := by
  intro k
  induction k with
  | zero => intro _; exact ⟨tr, s, h, by rw [← hs, Function.update_eq_self]⟩
  | succ k ih =>
    intro hk
    obtain ⟨tr', s', h', hst⟩ := ih (by omega)
    obtain ⟨m, hm⟩ := hstep s' k (by omega) (by rw [hst, Function.update_self])
    exact ⟨_, _, h'.step hm, by simp [State.goto, hst]⟩

theorem Run.to_kernel {tr : List (Event Core)} {s : State Core} {c : Core}
    (h : (bootLts Core).Run tr s) (hs : s.stage c = .realMode) :
    ∃ tr' s', (bootLts Core).Run tr' s' ∧ s'.stage = Function.update s.stage c .kernel := by
  have h1 := h.step (.callEarlyPage hs)
  obtain ⟨tr2, s2, h2, hs2⟩ := Run.stores (F := .earlyPage) (c := c)
    (fun _ _ hk hst => ⟨_, .earlyPage hk hst⟩) h1 (by simp [State.goto]) _ (Nat.le_refl _)
  have h3 := h2.step (.retEarlyPage (c := c) (by rw [hs2, Function.update_self]))
  have h4 := h3.step (.enterLong (c := c) (by simp [State.goto]))
  have h5 := h4.step (.callStaticInit (c := c) (by simp [State.goto]))
  have h6 := h5.step (.construct (c := c) (by simp [State.goto]))
  have h7 := h6.step (.retStaticInit (c := c) (by simp [State.goto]))
  have h8 := h7.step (.callMapAddr (c := c) (by simp [State.goto]))
  obtain ⟨tr9, s9, h9, hs9⟩ := Run.stores (F := .mapAddr) (c := c)
    (fun _ _ hk hst => ⟨_, .mapAddr hk hst⟩) h8 (by simp [State.goto]) _ (Nat.le_refl _)
  have h10 := h9.step (.retMapAddr (c := c) (by rw [hs9, Function.update_self]))
  exact ⟨_, _, h10, by simp [State.goto, hs9, hs2]⟩


/-- In every reachable state, for any number of cores: the byte and the cores inside add up to
one, one core at a time is busy, the lock is only constructed while no ticket is out, and a core
in the kernel finds the APIC page where it mapped it. -/
theorem handOff_safe [Fintype Core] {tr : List (Event Core)} {s : State Core} (h : (bootLts Core).Run tr s) :
    (s.mem stackWait).toNat + s.inside.card = 1 ∧
      (∀ c d, s.Busy c → s.Busy d → c = d) ∧
      (∀ c s', Step s (.construct c) s' → ∀ d, s.spin.pc d = .out) ∧
      ∀ c, s.stage c = .kernel → ∀ r, r < 2 ^ 21 →
        (Walk.walk s.mem FIRST_PML4_BASE (0x13370000000 + r)).map (·.phys) =
          some (0xfee00000 + r) := by
  have hi := Run.inv h
  refine ⟨hi.token, fun c d hc hd => ?_, fun c s' hs => ?_, fun c hc r hr => ?_⟩
  · exact hi.unique (hi.inside_of_busy hc) (hi.inside_of_busy hd)
  · cases hs with
    | construct hc => exact hi.pc_out (by rw [hc]; rfl) (by rw [hc]; decide)
  · have hb := hi.built c
    rw [hc] at hb
    exact ApicTables.walk hb hr

theorem handOff_safe_two : ∃ (tr : List (Event (Fin 2))) (s : State (Fin 2)),
    (bootLts (Fin 2)).Run tr s ∧ s.stage 0 = .kernel ∧ s.stage 1 = .waiting ∧
      (s.mem stackWait).toNat + s.inside.card = 1 ∧
      (∀ c d, s.Busy c → s.Busy d → c = d) ∧
      (∀ c s', Step s (.construct c) s' → ∀ d, s.spin.pc d = .out) ∧
      ∀ c, s.stage c = .kernel → ∀ r, r < 2 ^ 21 →
        (Walk.walk s.mem FIRST_PML4_BASE (0x13370000000 + r)).map (·.phys) =
          some (0xfee00000 + r) := by
  have h0 : (bootLts (Fin 2)).Run []
      ⟨Function.update (fun _ => 0) stackWait 1, .init, fun _ => .off⟩ :=
    .init ⟨by simp, fun _ => rfl, fun _ => rfl⟩
  have h1 := h0.step (.start (c := 0) (.inl rfl))
  have h2 := h1.step (.start (c := 1) (.inl rfl))
  have h3 := h2.step (.take (c := 0) rfl (by simp [State.goto]))
  obtain ⟨tr, s, h, hs⟩ := Run.to_kernel (c := 0) h3 rfl
  exact ⟨tr, s, h, by rw [hs]; rfl, by rw [hs]; rfl, handOff_safe h⟩

end

end HandOff
end DeliceOS
