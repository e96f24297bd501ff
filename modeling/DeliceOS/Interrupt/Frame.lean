import DeliceOS.Base.WordStack
import DeliceOS.Interrupt.Machine

/-!
# Interrupt.Frame

The entry code on an abstract machine whose stack is the list of the words pushed since the
interrupt. The stack pointer is determined by the base of the frame and the length of the list.

* `Rep`, `exec_sim`: an instruction of the real machine does what it does on the list, and
  changes no memory from the base of the frame on.
* `arun_push`, `arun_pop`: the run up to the call of `interrupt_handler`, and the run from its
  return to the `iretq`.
-/

namespace DeliceOS
namespace Interrupt

open Base

/-! ## The abstract machine -/

/-- The stack pointer when the words `st` are pushed on `base`. -/
def sp (base : Nat) (st : List (BitVec 64)) : BitVec 64 := BitVec.ofNat 64 (WordStack.top base st)

abbrev Abstract := Regs × List (BitVec 64)

def setReg (x : Reg) (v : BitVec 64) (a : Abstract) : Option Abstract :=
  if x = .rsp then none else some (a.1.set x v, a.2)

def aexec (base : Nat) (i : Instr) (a : Abstract) : Option Abstract :=
  let push (v : BitVec 64) : Abstract := (a.1.set .rsp (sp base (v :: a.2)), v :: a.2)
  match i with
  | .cli => some ({ a.1 with rflags := a.1.rflags &&& ~~~0x200#64 }, a.2)
  | .pushByte n => some (push (n.signExtend 64))
  | .push x => some (push (a.1.gpr x))
  | .pop x =>
    match a.2 with
    | v :: st => setReg x v (a.1.set .rsp (sp base st), st)
    | [] => none
  | .movFromSeg x s => setReg x ((a.1.seg s).setWidth 64) a
  | .movToSeg s x =>
    some ({ a.1 with seg := Function.update a.1.seg s ((a.1.gpr x).setWidth 16) }, a.2)
  | .loadDword x disp =>
    if disp % 8 = 0 then
      (a.2[disp / 8]?).bind fun v => setReg x ((v.setWidth 32).setWidth 64) a
    else none
  | .mov x y =>
    -- the stack pointer may only be set to what it is
    if x = .rsp then if a.1.gpr y = a.1.gpr .rsp then some a else none
    else some (a.1.set x (a.1.gpr y), a.2)
  | .leaRsp x disp => setReg x (a.1.gpr .rsp + BitVec.ofNat 64 disp) a
  | .addRsp n =>
    match a.2 with
    | _ :: _ :: st =>
      if n = 16 then
        some ({ a.1.set .rsp (sp base st) with rflags := addFlags (a.1.gpr .rsp) 16 a.1.rflags }, st)
      else none
    | _ => none
  | .jmpEntryVector => some a
  | .callInterruptHandler => none
  | .iretq => none

def arun (base : Nat) : List Instr → Abstract → Option Abstract
  | [], a => some a
  | i :: is, a => (aexec base i a).bind (arun base is)

theorem arun_append (base : Nat) (is js : List Instr) :
    ∀ a, arun base (is ++ js) a = (arun base is a).bind (arun base js) := by
  induction is with
  | nil => intro a; rfl
  | cons i is ih =>
    intro a
    simp only [List.cons_append, arun, ih, Option.bind_assoc]

theorem setReg_some {x : Reg} {v : BitVec 64} {a a' : Abstract} (h : setReg x v a = some a') :
    x ≠ .rsp ∧ a' = (a.1.set x v, a.2) := by
  unfold setReg at h
  by_cases hx : x = .rsp
  · rw [if_pos hx] at h; cases h
  · rw [if_neg hx] at h; cases h; exact ⟨hx, rfl⟩

/-! What the instructions that may get stuck do where they do not. -/

section

variable {base disp n : Nat} {x y : Reg} {a a' : Abstract}

theorem aexec_loadDword (h : aexec base (.loadDword x disp) a = some a') :
    ∃ i, ∃ hi : i < a.2.length, disp = 8 * i ∧ x ≠ .rsp ∧
      a' = (a.1.set x ((a.2[i].setWidth 32).setWidth 64), a.2) := by
  simp only [aexec] at h
  by_cases h8 : disp % 8 = 0
  · rw [if_pos h8, Option.bind_eq_some_iff] at h
    obtain ⟨v, hv, h⟩ := h
    obtain ⟨hi, rfl⟩ := List.getElem?_eq_some_iff.mp hv
    obtain ⟨hx, rfl⟩ := setReg_some h
    exact ⟨disp / 8, hi, by omega, hx, rfl⟩
  · rw [if_neg h8] at h
    cases h

theorem aexec_mov (h : aexec base (.mov x y) a = some a') :
    (x = .rsp → a.1.gpr y = a.1.gpr .rsp) ∧ a' = (a.1.set x (a.1.gpr y), a.2) := by
  simp only [aexec] at h
  by_cases hx : x = .rsp
  · rw [if_pos hx] at h
    by_cases hy : a.1.gpr y = a.1.gpr .rsp
    · rw [if_pos hy] at h
      cases h
      refine ⟨fun _ => hy, ?_⟩
      rw [hx, hy, Regs.set, Function.update_eq_self]
    · rw [if_neg hy] at h
      cases h
  · rw [if_neg hx] at h
    cases h
    exact ⟨fun hrsp => absurd hrsp hx, rfl⟩

theorem aexec_addRsp (h : aexec base (.addRsp n) a = some a') :
    ∃ v w st, a.2 = v :: w :: st ∧ n = 16 ∧
      a' = ({ a.1.set .rsp (sp base st) with rflags := addFlags (a.1.gpr .rsp) 16 a.1.rflags },
        st) := by
  obtain ⟨r, st⟩ := a
  rcases st with _ | ⟨v, _ | ⟨w, st⟩⟩
  · cases h
  · cases h
  · simp only [aexec] at h
    by_cases hn : n = 16
    · rw [if_pos hn] at h
      cases h
      exact ⟨v, w, st, rfl, hn, rfl⟩
    · rw [if_neg hn] at h
      cases h

end

theorem aexec_length {base : Nat} {i : Instr} {a a' : Abstract} (h : aexec base i a = some a') :
    a'.2.length ≤ a.2.length + 1 := by
  obtain ⟨r, st⟩ := a
  have hset : ∀ {x : Reg} {v : BitVec 64} {b : Abstract}, setReg x v b = some a' →
      a'.2.length = b.2.length := by
    intro x v b hb; rw [(setReg_some hb).2]
  cases i with
  | pop x =>
    cases st with
    | nil => cases h
    | cons v st =>
      have := hset h
      simp only [List.length_cons] at this ⊢
      omega
  | movFromSeg x s => exact (hset h).le.trans (Nat.le_succ _)
  | leaRsp x disp => exact (hset h).le.trans (Nat.le_succ _)
  | loadDword x disp =>
    obtain ⟨i, hi, -, -, rfl⟩ := aexec_loadDword h
    exact Nat.le_succ _
  | mov x y =>
    obtain ⟨-, rfl⟩ := aexec_mov h
    exact Nat.le_succ _
  | addRsp n =>
    obtain ⟨v, w, st', hst, -, rfl⟩ := aexec_addRsp h
    rw [hst]
    simp only [List.length_cons]
    omega
  | callInterruptHandler => cases h
  | iretq => cases h
  | _ => cases h; simp

theorem arun_length {base : Nat} {is : List Instr} :
    ∀ {a a' : Abstract}, arun base is a = some a' → a'.2.length ≤ a.2.length + is.length := by
  induction is with
  | nil => intro a a' h; cases h; simp
  | cons i is ih =>
    intro a a' h
    rw [arun, Option.bind_eq_some_iff] at h
    obtain ⟨b, hb, h⟩ := h
    have h1 := aexec_length hb
    have h2 := ih h
    rw [List.length_cons]
    omega

/-! ## The real machine follows -/

/-- The registers and memory of the real machine, with the words `st` pushed on `base`. -/
structure Rep (base : Nat) (st : List (BitVec 64)) (r : Regs) (m : Mem) : Prop where
  base_lt : base < 2 ^ 64
  rsp : r.gpr .rsp = sp base st
  stack : WordStack base st m

theorem sp_toNat {base : Nat} {st : List (BitVec 64)} (h : base < 2 ^ 64) :
    (sp base st).toNat = WordStack.top base st := by
  have := WordStack.top_le base st
  rw [sp, BitVec.toNat_ofNat, Nat.mod_eq_of_lt (by omega)]

theorem Rep.rsp_toNat {base : Nat} {st : List (BitVec 64)} {r : Regs} {m : Mem}
    (h : Rep base st r m) : (r.gpr .rsp).toNat = WordStack.top base st := by
  rw [h.rsp, sp_toNat h.base_lt]

@[simp] theorem Regs.set_rsp (r : Regs) (v : BitVec 64) : (r.set .rsp v).gpr .rsp = v := by
  simp [Regs.set]

theorem Regs.set_gpr_of_ne (r : Regs) {x y : Reg} (h : y ≠ x) (v : BitVec 64) :
    (r.set x v).gpr y = r.gpr y := by
  simp [Regs.set, Function.update_of_ne h]

variable {base : Nat} {st : List (BitVec 64)} {r r' : Regs} {m m' : Mem}

theorem Rep.set (h : Rep base st r m) {x : Reg} (hx : x ≠ .rsp) (v : BitVec 64) :
    Rep base st (r.set x v) m :=
  ⟨h.base_lt, by rw [Regs.set_gpr_of_ne _ (Ne.symm hx)]; exact h.rsp, h.stack⟩

/-- The stack pointer may be set to what it is. -/
theorem Rep.set_same (h : Rep base st r m) {x : Reg} {v : BitVec 64} (hv : x = .rsp → v = r.gpr .rsp) :
    Rep base st (r.set x v) m := by
  by_cases hx : x = .rsp
  · rw [hx, hv hx, Regs.set, Function.update_eq_self]
    exact h
  · exact h.set hx v

theorem Rep.congr (h : Rep base st r m) (hm : ∀ x, (r.gpr .rsp).toNat ≤ x → m' x = m x) :
    Rep base st r m' :=
  ⟨h.base_lt, h.rsp, h.stack.congr fun x hx _ => hm x (by rw [h.rsp_toNat]; exact hx)⟩

/-- A push that completes had room. -/
theorem pushWord_sim {v : BitVec 64} (h : Rep base st r m) (hp : pushWord v r m = some (r', m')) :
    r' = r.set .rsp (sp base (v :: st)) ∧ Rep base (v :: st) r' m' ∧ ∀ x, base ≤ x → m' x = m x := by
  have hsp := h.rsp_toNat
  have hroom := h.stack.room
  unfold pushWord at hp
  by_cases h8 : (r.gpr .rsp).toNat < 8
  · rw [if_pos h8] at hp; cases hp
  rw [if_neg h8] at hp
  cases hp
  have hr : 8 * (st.length + 1) ≤ base := by
    rw [hsp] at h8; simp only [WordStack.top] at h8; omega
  have htop := WordStack.top_cons (v := v) hr
  have hnew : r.gpr .rsp - 8 = sp base (v :: st) := by
    apply BitVec.eq_of_toNat_eq
    rw [sp_toNat h.base_lt, BitVec.toNat_sub, hsp, show (8 : BitVec 64).toNat = 8 from rfl]
    have := WordStack.top_le base st
    have := h.base_lt
    omega
  rw [hnew, sp_toNat h.base_lt]
  refine ⟨rfl, ⟨h.base_lt, by simp, h.stack.push hr⟩, fun x hx => ?_⟩
  refine Mem.writeLE_out (.inr ?_)
  have := WordStack.top_le base st
  omega

theorem pushWord_isSome {v : BitVec 64} (h : 8 ≤ (r.gpr .rsp).toNat) : (pushWord v r m).isSome := by
  rw [pushWord, if_neg (by omega)]; rfl

theorem pushWords_sim (vs : List (BitVec 64)) : ∀ {st : List (BitVec 64)} {r : Regs} {m : Mem},
    Rep base st r m → pushWords vs r m = some (r', m') →
      r' = r.set .rsp (sp base (vs.reverse ++ st)) ∧ Rep base (vs.reverse ++ st) r' m' ∧
        ∀ x, base ≤ x → m' x = m x := by
  induction vs with
  | nil =>
    intro st r m h hp
    cases hp
    refine ⟨?_, h, fun _ _ => rfl⟩
    rw [List.reverse_nil, List.nil_append, ← h.rsp, Regs.set, Function.update_eq_self]
  | cons v vs ih =>
    intro st r m h hp
    rw [pushWords, Option.bind_eq_some_iff] at hp
    obtain ⟨⟨r1, m1⟩, h1, h2⟩ := hp
    obtain ⟨hr1, hrep1, hm1⟩ := pushWord_sim h h1
    obtain ⟨hr2, hrep2, hm2⟩ := ih hrep1 h2
    rw [List.reverse_cons, List.append_assoc, List.singleton_append]
    refine ⟨?_, hrep2, fun x hx => (hm2 x hx).trans (hm1 x hx)⟩
    rw [hr2, hr1]
    simp [Regs.set]

/-- The word at a displacement from the stack pointer. -/
theorem Rep.word_address (h : Rep base st r m) {i : Nat} (hi : i < st.length) :
    (r.gpr .rsp + BitVec.ofNat 64 (8 * i)).toNat = WordStack.top base st + 8 * i := by
  have hroom := h.stack.room
  have hb := h.base_lt
  rw [BitVec.toNat_add, h.rsp_toNat, BitVec.toNat_ofNat]
  simp only [WordStack.top]
  omega

theorem Rep.read (h : Rep base st r m) {i : Nat} (hi : i < st.length) :
    m.read64 (r.gpr .rsp + BitVec.ofNat 64 (8 * i)).toNat = st[i] := by
  rw [h.word_address hi]; exact h.stack.words i hi

theorem Rep.pop {v : BitVec 64} (h : Rep base (v :: st) r m) :
    Rep base st (r.set .rsp (sp base st)) m ∧ r.gpr .rsp + 8 = sp base st ∧
      m.read64 (r.gpr .rsp).toNat = v := by
  have hroom := h.stack.room
  rw [List.length_cons] at hroom
  refine ⟨⟨h.base_lt, by simp, h.stack.pop⟩, ?_, ?_⟩
  · apply BitVec.eq_of_toNat_eq
    have htop := WordStack.top_cons (v := v) hroom
    have := WordStack.top_le base st
    have := h.base_lt
    rw [BitVec.toNat_add, h.rsp_toNat, sp_toNat h.base_lt, show (8 : BitVec 64).toNat = 8 from rfl]
    omega
  · rw [h.rsp_toNat]; exact h.stack.head

theorem Rep.pop_two {v w : BitVec 64} (h : Rep base (v :: w :: st) r m) :
    Rep base st (r.set .rsp (sp base st)) m ∧ r.gpr .rsp + 16 = sp base st := by
  obtain ⟨hrep, hsp, -⟩ := h.pop
  obtain ⟨hrep', hsp', -⟩ := hrep.pop
  rw [Regs.set_rsp] at hsp'
  refine ⟨⟨h.base_lt, by simp, hrep'.stack⟩, ?_⟩
  rw [← hsp', ← hsp, BitVec.add_assoc]
  rfl

/-- Where the processor goes on after an instruction of the entry code. -/
def after (lay : Layout) (i : Instr) (next : BitVec 64) : BitVec 64 :=
  if i = .jmpEntryVector then lay.entryVector else next

theorem exec_sim {lay : Layout} {i : Instr} {next : BitVec 64} {c' : Cpu}
    {st' : List (BitVec 64)} (h : Rep base st r m) (ha : aexec base i (r, st) = some (r', st'))
    (he : exec lay i next r m = some (c', m')) :
    c' = ⟨after lay i next, r'⟩ ∧ Rep base st' r' m' ∧ ∀ x, base ≤ x → m' x = m x := by
  have hpush : ∀ v, (pushWord v r m).map (fun p => ((⟨next, p.1⟩ : Cpu), p.2)) = some (c', m') →
      c' = ⟨next, r.set .rsp (sp base (v :: st))⟩ ∧
        Rep base (v :: st) (r.set .rsp (sp base (v :: st))) m' ∧ ∀ x, base ≤ x → m' x = m x := by
    intro v hv
    rw [Option.map_eq_some_iff] at hv
    obtain ⟨⟨r1, m1⟩, h1, h2⟩ := hv
    cases h2
    obtain ⟨rfl, hrep, hm⟩ := pushWord_sim h h1
    exact ⟨rfl, hrep, hm⟩
  cases i with
  | cli => cases ha; cases he; exact ⟨rfl, ⟨h.base_lt, h.rsp, h.stack⟩, fun _ _ => rfl⟩
  | pushByte n => cases ha; exact hpush _ he
  | push x => cases ha; exact hpush _ he
  | pop x =>
    cases st with
    | nil => cases ha
    | cons v st =>
      obtain ⟨hx, ha⟩ := setReg_some ha
      obtain ⟨hrep, hsp, hv⟩ := h.pop
      cases ha
      cases he
      rw [hsp, hv]
      exact ⟨rfl, hrep.set hx v, fun _ _ => rfl⟩
  | movFromSeg x s =>
    obtain ⟨hx, ha⟩ := setReg_some ha
    cases ha
    cases he
    exact ⟨rfl, h.set hx _, fun _ _ => rfl⟩
  | movToSeg s x => cases ha; cases he; exact ⟨rfl, ⟨h.base_lt, h.rsp, h.stack⟩, fun _ _ => rfl⟩
  | loadDword x disp =>
    obtain ⟨i, hi, rfl, hx, ha⟩ := aexec_loadDword ha
    cases ha
    cases he
    rw [Mem.read32_eq_setWidth, h.read hi]
    exact ⟨rfl, h.set hx _, fun _ _ => rfl⟩
  | mov x y =>
    obtain ⟨hx, ha⟩ := aexec_mov ha
    cases ha
    cases he
    exact ⟨rfl, h.set_same hx, fun _ _ => rfl⟩
  | leaRsp x disp =>
    obtain ⟨hx, ha⟩ := setReg_some ha
    cases ha
    cases he
    exact ⟨rfl, h.set hx _, fun _ _ => rfl⟩
  | addRsp n =>
    obtain ⟨v, w, st, hst, rfl, ha⟩ := aexec_addRsp ha
    cases hst
    cases ha
    cases he
    obtain ⟨hrep, h16⟩ := h.pop_two
    rw [show BitVec.ofNat 64 16 = 16 from rfl, h16]
    exact ⟨rfl, ⟨h.base_lt, by simp, hrep.stack⟩, fun _ _ => rfl⟩
  | jmpEntryVector => cases ha; cases he; exact ⟨rfl, h, fun _ _ => rfl⟩
  | callInterruptHandler => cases ha
  | iretq => cases ha

/-- The only way for an instruction not to complete is a push without room. -/
theorem exec_isSome {lay : Layout} {i : Instr} {next : BitVec 64} (h : 8 ≤ (r.gpr .rsp).toNat) :
    (exec lay i next r m).isSome := by
  cases i <;> simp [exec, pushWord_isSome h]

/-! ## The runs of the entry code -/

/-- The word above the vector: the error code, or the 0 of the stub. -/
def errorWord (v : Fin 32) (error : BitVec 32) : BitVec 64 :=
  if pushesErrorCode v then error.setWidth 64 else 0

/-- What `iretq` pops. -/
def returnFrame (c : Cpu) : List (BitVec 64) :=
  [c.rip, c.regs.cs.setWidth 64, c.regs.rflags, c.regs.gpr .rsp, c.regs.ss.setWidth 64]

/-- `cpu::registers`. -/
def savedRegs (r : Regs) : List (BitVec 64) :=
  popSegs.map (fun s => (r.seg s).setWidth 64) ++ popRegs.map r.gpr

def frame (v : Fin 32) (error : BitVec 32) (c : Cpu) : List (BitVec 64) :=
  savedRegs c.regs ++ BitVec.ofNat 64 v :: errorWord v error :: returnFrame c

theorem savedRegs_congr {r r' : Regs} (h : ∀ x, x ≠ .rsp → r.gpr x = r'.gpr x)
    (hs : r.seg = r'.seg) : savedRegs r = savedRegs r' := by
  rw [savedRegs, savedRegs, hs]
  refine congrArg _ (List.map_congr_left fun x hx => h x ?_)
  rintro rfl
  exact absurd hx (by decide)

/-! The arguments are loaded as doublewords, and lose nothing. -/

theorem vector_setWidth (v : Fin 32) :
    ((BitVec.ofNat 64 v).setWidth 32).setWidth 64 = BitVec.ofNat 64 v := by
  revert v; decide

theorem errorWord_setWidth (v : Fin 32) (error : BitVec 32) :
    ((errorWord v error).setWidth 32).setWidth 64 = errorWord v error := by
  unfold errorWord
  split
  · simp
  · rfl

/-- The assembler file and the processor agree on the vectors with an error code. -/
theorem pushesErrorCode_iff (v : Fin 32) : pushesErrorCode v = true ↔ v ∈ errorCodeEntries := by
  revert v; decide

theorem arun_stub (base : Nat) (v : Fin 32) (error : BitVec 32) (c : Cpu) (r : Regs) :
    arun base (exceptionHandler v) (r, (delivered v error c).reverse) =
      some ({ r.set .rsp (sp base (BitVec.ofNat 64 v :: errorWord v error :: returnFrame c)) with
        rflags := r.rflags &&& ~~~0x200#64 },
        BitVec.ofNat 64 v :: errorWord v error :: returnFrame c) := by
  have hv : (BitVec.ofNat 8 v.val).signExtend 64 = BitVec.ofNat 64 v.val := by revert v; decide
  by_cases he : pushesErrorCode v = true
  · have hm := (pushesErrorCode_iff v).mp he
    rw [exceptionHandler, if_pos hm, delivered, if_pos he, errorWord, if_pos he]
    simp [exceptionEntryErrorCode, arun, aexec, hv, returnFrame, Regs.set]
  · have hm := mt (pushesErrorCode_iff v).mpr he
    rw [exceptionHandler, if_neg hm, delivered, if_neg he, errorWord, if_neg he]
    simp [exceptionEntry, arun, aexec, hv, returnFrame, Regs.set]

theorem arun_pushRegs (base : Nat) (xs : List Reg) (hx : Reg.rsp ∉ xs) (is : List Instr) :
    ∀ (r : Regs) (st : List (BitVec 64)), r.gpr .rsp = sp base st →
      ∃ r', arun base (xs.map .push ++ is) (r, st) =
          arun base is (r', (xs.map r.gpr).reverse ++ st) ∧
        r'.gpr .rsp = sp base ((xs.map r.gpr).reverse ++ st) ∧ r'.seg = r.seg := by
  induction xs with
  | nil => intro r st h; exact ⟨r, rfl, h, rfl⟩
  | cons x xs ih =>
    intro r st _
    obtain ⟨hne, hx'⟩ := List.ne_and_not_mem_of_not_mem_cons hx
    obtain ⟨r', hr, hsp, hseg⟩ :=
      ih hx' (r.set .rsp (sp base (r.gpr x :: st))) (r.gpr x :: st) (by simp)
    have hmap : xs.map (r.set .rsp (sp base (r.gpr x :: st))).gpr = xs.map r.gpr :=
      List.map_congr_left fun y hy => Regs.set_gpr_of_ne r (by rintro rfl; exact hx' hy) _
    rw [hmap] at hr hsp
    have hlist : (List.map r.gpr (x :: xs)).reverse ++ st =
        (xs.map r.gpr).reverse ++ r.gpr x :: st := by simp
    rw [hlist]
    exact ⟨r', hr, hsp, hseg⟩

theorem arun_pushSegs (base : Nat) (ss : List Seg) (is : List Instr) :
    ∀ (r : Regs) (st : List (BitVec 64)), r.gpr .rsp = sp base st →
      ∃ r', arun base (ss.flatMap (fun s => [.movFromSeg .rax s, .push .rax]) ++ is) (r, st) =
          arun base is (r', (ss.map fun s => (r.seg s).setWidth 64).reverse ++ st) ∧
        r'.gpr .rsp = sp base ((ss.map fun s => (r.seg s).setWidth 64).reverse ++ st) := by
  induction ss with
  | nil => intro r st h; exact ⟨r, rfl, h⟩
  | cons s ss ih =>
    intro r st _
    obtain ⟨r', hr, hsp⟩ := ih
      ((r.set .rax ((r.seg s).setWidth 64)).set .rsp (sp base ((r.seg s).setWidth 64 :: st)))
      ((r.seg s).setWidth 64 :: st) (by simp)
    have hlist : ((s :: ss).map fun s => (r.seg s).setWidth 64).reverse ++ st =
        (ss.map fun s => (r.seg s).setWidth 64).reverse ++ (r.seg s).setWidth 64 :: st := by simp
    rw [hlist]
    refine ⟨r', ?_, hsp⟩
    simp only [List.flatMap_cons, List.cons_append, List.nil_append, arun, aexec, setReg,
      Option.bind_some, reduceCtorEq, if_false]
    exact hr

/-- At the call: the whole frame is on the stack and the arguments are in place. -/
theorem arun_entryVectorPush (base : Nat) (r : Regs) (v e : BitVec 64) (ret : List (BitVec 64))
    (hrsp : r.gpr .rsp = sp base (v :: e :: ret)) :
    ∃ r', arun base entryVectorPush (r, v :: e :: ret) =
        some (r', savedRegs r ++ v :: e :: ret) ∧
      r'.gpr .rsp = sp base (savedRegs r ++ v :: e :: ret) ∧ r'.gpr .rcx = r'.gpr .rsp ∧
      r'.gpr .rdi = (v.setWidth 32).setWidth 64 ∧ r'.gpr .rdx = (e.setWidth 32).setWidth 64 ∧
      r'.gpr .rsi = r'.gpr .rsp + 168 := by
  obtain ⟨r1, h1, hsp1, hseg1⟩ := arun_pushRegs base pushRegs (by decide)
    (pushSegs.flatMap (fun s => [.movFromSeg .rax s, .push .rax]) ++ callArgs) r _ hrsp
  obtain ⟨r2, h2, hsp2⟩ := arun_pushSegs base pushSegs callArgs r1 _ hsp1
  rw [entryVectorPush, List.append_assoc, h1, h2, hseg1]
  have hst : (pushSegs.map fun s => (r.seg s).setWidth 64).reverse ++
      ((pushRegs.map r.gpr).reverse ++ v :: e :: ret) = savedRegs r ++ v :: e :: ret := by
    simp [pushSegs, pushRegs, savedRegs, popSegs, popRegs]
  rw [hseg1, hst] at hsp2
  rw [hst]
  have hvec : (savedRegs r ++ v :: e :: ret)[19]? = some v := rfl
  have herr : (savedRegs r ++ v :: e :: ret)[20]? = some e := rfl
  simp [callArgs, arun, aexec, setReg, Regs.set, hvec, herr, hsp2]

theorem arun_popRegs (base : Nat) (xs : List Reg) (hx : Reg.rsp ∉ xs) (hnd : xs.Nodup) (f : Reg → BitVec 64)
    (is : List Instr) : ∀ (r : Regs) (st : List (BitVec 64)),
      ∃ r', arun base (xs.map .pop ++ is) (r, xs.map f ++ st) = arun base is (r', st) ∧
        (∀ x ∈ xs, r'.gpr x = f x) ∧ (∀ x, x ∉ xs → x ≠ .rsp → r'.gpr x = r.gpr x) ∧
        r'.seg = r.seg := by
  induction xs with
  | nil => intro r st; exact ⟨r, rfl, nofun, fun _ _ _ => rfl, rfl⟩
  | cons x xs ih =>
    intro r st
    obtain ⟨hne, hx'⟩ := List.ne_and_not_mem_of_not_mem_cons hx
    obtain ⟨hxs, hnd'⟩ := List.nodup_cons.mp hnd
    have hstep : aexec base (.pop x) (r, f x :: (xs.map f ++ st)) =
        some ((r.set .rsp (sp base (xs.map f ++ st))).set x (f x), xs.map f ++ st) := by
      simp only [aexec, setReg, if_neg (Ne.symm hne)]
    obtain ⟨r', hr, hin, hout, hseg⟩ :=
      ih hx' hnd' ((r.set .rsp (sp base (xs.map f ++ st))).set x (f x)) st
    refine ⟨r', ?_, ?_, ?_, hseg⟩
    · simp only [List.map_cons, List.cons_append, arun, hstep, Option.bind_some, hr]
    · intro y hy
      rcases List.mem_cons.mp hy with rfl | hy
      · rw [hout y hxs (Ne.symm hne)]; simp [Regs.set]
      · exact hin y hy
    · intro y hy hyr
      obtain ⟨hyx, hy⟩ := List.ne_and_not_mem_of_not_mem_cons hy
      rw [hout y hy hyr, Regs.set_gpr_of_ne _ hyx, Regs.set_gpr_of_ne _ hyr]

theorem arun_popSegs (base : Nat) (ss : List Seg) (hnd : ss.Nodup) (f : Seg → BitVec 16) (is : List Instr) :
    ∀ (r : Regs) (st : List (BitVec 64)),
      ∃ r', arun base (ss.flatMap (fun s => [.pop .rax, .movToSeg s .rax]) ++ is)
          (r, ss.map (fun s => (f s).setWidth 64) ++ st) = arun base is (r', st) ∧
        (∀ s ∈ ss, r'.seg s = f s) ∧ (∀ s, s ∉ ss → r'.seg s = r.seg s) := by
  induction ss with
  | nil => intro r st; exact ⟨r, rfl, nofun, fun _ _ => rfl⟩
  | cons s ss ih =>
    intro r st
    obtain ⟨hss, hnd'⟩ := List.nodup_cons.mp hnd
    obtain ⟨r', hr, hin, hout⟩ := ih hnd' _ st
    refine ⟨r', ?_, ?_, ?_⟩
    · simp only [List.flatMap_cons, List.map_cons, List.cons_append, List.nil_append, arun, aexec,
        setReg, Option.bind_some, reduceCtorEq, if_false]
      exact hr
    · intro t ht
      rcases List.mem_cons.mp ht with rfl | ht
      · rw [hout t hss]; simp [Regs.set]
      · exact hin t ht
    · intro t ht
      obtain ⟨hts, ht⟩ := List.ne_and_not_mem_of_not_mem_cons ht
      rw [hout t ht]
      simp [Function.update_of_ne hts, Regs.set]

/-- At the `iretq`: the saved registers are back and the return frame is left. -/
theorem arun_entryVectorPop (base : Nat) (r saved : Regs) (v e : BitVec 64) (ret : List (BitVec 64))
    (hrax : r.gpr .rax = r.gpr .rsp) :
    ∃ r', arun base entryVectorPop (r, savedRegs saved ++ v :: e :: ret) = some (r', ret) ∧
      (∀ x, x ≠ .rsp → r'.gpr x = saved.gpr x) ∧ r'.seg = saved.seg := by
  obtain ⟨r1, h1, hin1, -⟩ := arun_popSegs base popSegs (by decide) saved.seg
    (popRegs.map .pop ++ [.addRsp 16]) r (popRegs.map saved.gpr ++ v :: e :: ret)
  obtain ⟨r2, h2, hin2, -, hseg2⟩ := arun_popRegs base popRegs (by decide)
    (by decide) saved.gpr [.addRsp 16] r1 (v :: e :: ret)
  have hmov : aexec base (.mov .rsp .rax) (r, savedRegs saved ++ v :: e :: ret) =
      some (r, savedRegs saved ++ v :: e :: ret) := by
    simp only [aexec, if_true, hrax]
  rw [entryVectorPop, arun, hmov, Option.bind_some, savedRegs, List.append_assoc, h1, h2]
  refine ⟨_, rfl, fun x hx => ?_, ?_⟩
  · have hmem : x ∈ popRegs := by cases x <;> first | exact absurd rfl hx | decide
    rw [← hin2 x hmem]
    exact Regs.set_gpr_of_ne r2 hx _
  · funext s
    have hmem : s ∈ popSegs := by cases s <;> decide
    rw [← hin1 s hmem, ← hseg2]
    rfl

end Interrupt
end DeliceOS
