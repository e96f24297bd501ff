import DeliceOS.Serial.Wire
import Mathlib.Computability.Language

/-!
# Serial.Language

The port accesses of `ComDevices::write` as a regular language, which says what the driver does
apart from what the devices answer.

* `Denotes`: the finished runs of a routine, over all answers, are the words of a language.
* `mem_writings_iff`: the words for the bytes of successive calls.
-/

namespace DeliceOS
namespace Serial

open Computability
open Output (CR LF)

/-- The answers in a trace. -/
def answers (t : List Access) : List (BitVec 8) :=
  t.filterMap fun
    | .inb _ v => some v
    | .outb _ _ => none

/-- From read `n` on the devices answer as in `t`. -/
def Answers (status : Nat → BitVec 8) (n : Nat) (t : List Access) : Prop :=
  ∀ k v, (answers t)[k]? = some v → status (n + k) = v

/-! ## The language -/

/-- Reads of a status with property `p`. -/
def inbs (port : BitVec 16) (p : BitVec 8 → Prop) : Language Access :=
  {t | ∃ v, p v ∧ t = [.inb port v]}

/-- Up to the first answer that shows the port ready. -/
def polling (port : BitVec 16) : Language Access := (inbs port (¬ Ready ·))∗ * inbs port Ready

def output (dev : BitVec 16) (v : BitVec 8) : Language Access := {[.outb dev v]}

/-- A carriage return for a newline, and the byte to a port that is there. -/
def sending (byte : BitVec 8) (dev : BitVec 16) : Language Access :=
  (if byte = LF then output dev CR else 1) *
    if dev = 0 then 1 else polling (dev + 5) * output dev byte

def writing (device : List (BitVec 16)) (byte : BitVec 8) : Language Access :=
  (device.map (sending byte)).prod

def writings (device : List (BitVec 16)) (bytes : List (BitVec 8)) : Language Access :=
  (bytes.map (writing device)).prod

theorem polling_eq (port : BitVec 16) :
    polling port = inbs port Ready + inbs port (¬ Ready ·) * polling port := by
  have hstar := Language.one_add_self_mul_kstar_eq_kstar (inbs port (¬ Ready ·))
  calc
    polling port = (1 + inbs port (¬ Ready ·) * (inbs port (¬ Ready ·))∗) * inbs port Ready := by
        rw [hstar, polling]
    _ = inbs port Ready + inbs port (¬ Ready ·) * polling port := by
        rw [add_mul, one_mul, mul_assoc, polling]

theorem mem_polling {port : BitVec 16} {t : List Access} :
    t ∈ polling port ↔ (∃ v, Ready v ∧ t = [.inb port v]) ∨
      ∃ v t', ¬ Ready v ∧ t' ∈ polling port ∧ t = .inb port v :: t' := by
  have hsplit : t ∈ polling port ↔
      t ∈ inbs port Ready ∨ t ∈ inbs port (¬ Ready ·) * polling port := by
    conv_lhs => rw [polling_eq, Language.add_def]
    exact Iff.rfl
  rw [hsplit, Language.mem_mul]
  refine or_congr Iff.rfl ⟨?_, ?_⟩
  · rintro ⟨_, ⟨v, hv, rfl⟩, t', ht', rfl⟩
    exact ⟨v, t', hv, ht', rfl⟩
  · rintro ⟨v, t', hv, ht', rfl⟩
    exact ⟨_, ⟨v, hv, rfl⟩, t', ht', rfl⟩

/-! ## Routines -/

/-- The words of `L` are the traces of the finished runs of `r`, over all answers. -/
structure Denotes (L : Language Access) (r : Nat → (Nat → BitVec 8) → Routine) : Prop where
  sound : ∀ fuel status n n', (r fuel status n).2 = some n' →
    (r fuel status n).1 ∈ L ∧ n' = n + (answers (r fuel status n).1).length
  complete : ∀ t ∈ L, ∀ fuel status n, t.length ≤ fuel → Answers status n t →
    r fuel status n = (t, some (n + (answers t).length))

section

variable {L L' : Language Access} {r r' : Nat → (Nat → BitVec 8) → Routine}
variable {status : Nat → BitVec 8} {n : Nat} {t t' : List Access}

theorem answers_append (t t' : List Access) : answers (t ++ t') = answers t ++ answers t' :=
  List.filterMap_append

theorem Answers.left (h : Answers status n (t ++ t')) : Answers status n t := by
  intro k v hk
  refine h k v ?_
  rw [answers_append, List.getElem?_append_left (List.getElem?_eq_some_iff.mp hk).1, hk]

theorem Answers.right (h : Answers status n (t ++ t')) :
    Answers status (n + (answers t).length) t' := by
  intro k v hk
  rw [Nat.add_assoc]
  refine h _ v ?_
  rw [answers_append, List.getElem?_append_right (Nat.le_add_right _ _), Nat.add_sub_cancel_left,
    hk]

theorem Denotes.skip : Denotes 1 fun _ _ => .skip where
  sound fuel status n n' h := by
    cases h
    exact ⟨rfl, rfl⟩
  complete t ht fuel status n _ _ := by
    rw [Language.mem_one] at ht
    subst ht
    rfl

theorem Denotes.outb (dev : BitVec 16) (v : BitVec 8) :
    Denotes (output dev v) fun _ _ => .outb dev v where
  sound fuel status n n' h := by
    cases h
    exact ⟨rfl, rfl⟩
  complete t ht fuel status n _ _ := by
    cases ht
    rfl

theorem Denotes.seq (h : Denotes L r) (h' : Denotes L' r') :
    Denotes (L * L') fun fuel status => (r fuel status).seq (r' fuel status) where
  sound fuel status n n'' hn := by
    cases hr : (r fuel status n).2 with
    | none =>
      rw [Routine.seq_none hr, hr] at hn
      cases hn
    | some n' =>
      rw [Routine.seq_some hr] at hn ⊢
      obtain ⟨hmem, hn'⟩ := h.sound fuel status n n' hr
      obtain ⟨hmem', hn''⟩ := h'.sound fuel status n' n'' hn
      refine ⟨Language.append_mem_mul hmem hmem', ?_⟩
      rw [answers_append, List.length_append, hn'', hn', Nat.add_assoc]
  complete t ht fuel status n hlen hans := by
    obtain ⟨t₁, h₁, t₂, h₂, rfl⟩ := Language.mem_mul.mp ht
    rw [List.length_append] at hlen
    have hr := h.complete t₁ h₁ fuel status n (by omega) hans.left
    have hr' := h'.complete t₂ h₂ fuel status _ (by omega) hans.right
    rw [Routine.seq_some (congrArg Prod.snd hr), hr, hr', answers_append, List.length_append,
      Nat.add_assoc]

theorem Denotes.poll (port : BitVec 16) :
    Denotes (polling port) fun fuel status => poll status port fuel where
  sound fuel status n n' h := by
    induction fuel generalizing n with
    | zero => cases h
    | succ fuel ih =>
      rw [Serial.poll] at h ⊢
      by_cases hs : status n &&& 0x20 = 0
      · rw [if_pos hs] at h ⊢
        obtain ⟨hmem, hn⟩ := ih (n + 1) h
        refine ⟨mem_polling.mpr (.inr ⟨status n, _, not_not.mpr hs, hmem, rfl⟩), ?_⟩
        rw [hn]
        simp [answers]
        omega
      · rw [if_neg hs] at h ⊢
        cases h
        exact ⟨mem_polling.mpr (.inl ⟨status n, hs, rfl⟩), rfl⟩
  complete t ht fuel status n hlen hans := by
    induction t generalizing fuel n with
    | nil => rcases mem_polling.mp ht with ⟨v, -, h⟩ | ⟨v, t', -, -, h⟩ <;> cases h
    | cons a t ih =>
      rw [List.length_cons] at hlen
      obtain ⟨fuel, rfl⟩ : ∃ k, fuel = k + 1 := ⟨fuel - 1, by omega⟩
      rcases mem_polling.mp ht with ⟨v, hv, h⟩ | ⟨v, t', hv, ht', h⟩
      · cases h
        have hstatus : status n = v := hans 0 v rfl
        rw [Serial.poll, hstatus, if_neg hv]
        rfl
      · cases h
        have hstatus : status n = v := hans 0 v rfl
        have hrest := ih ht' fuel (n + 1) (by omega) (hans.right (t := [.inb port v]))
        rw [Serial.poll, hstatus, if_pos (not_not.mp hv), hrest]
        simp [answers]
        omega

theorem denotes_writeTo (dev : BitVec 16) (byte : BitVec 8) :
    Denotes (sending byte dev) fun fuel status => writeTo fuel status dev byte := by
  have hcr : Denotes (if byte = LF then output dev CR else 1)
      fun _ _ => if byte = 0x0a then .outb dev 0x0d else .skip := by
    by_cases hb : byte = LF
    · rw [if_pos hb]
      simp only [show byte = 0x0a from hb, if_true]
      exact .outb dev CR
    · rw [if_neg hb]
      simp only [show ¬ byte = 0x0a from hb, if_false]
      exact .skip
  have hput : Denotes (if dev = 0 then 1 else polling (dev + 5) * output dev byte)
      fun fuel status => if dev = 0 then .skip
        else .seq (poll status (dev + 5) fuel) (.outb dev byte) := by
    by_cases hdev : dev = 0
    · simpa only [hdev, if_true] using Denotes.skip
    · simpa only [hdev, if_false] using (Denotes.poll (dev + 5)).seq (.outb dev byte)
  exact hcr.seq hput

theorem denotes_writeLoop (devs : List (BitVec 16)) (byte : BitVec 8) :
    Denotes (writing devs byte) fun fuel status => writeLoop fuel status devs byte := by
  induction devs with
  | nil => exact .skip
  | cons dev devs ih =>
    rw [writing, List.map_cons, List.prod_cons]
    exact (denotes_writeTo dev byte).seq ih

theorem denotes_writes (device : Fin 4 → BitVec 16) (bytes : List (BitVec 8)) :
    Denotes (writings (List.ofFn device) bytes)
      fun fuel status => writes fuel status device bytes := by
  induction bytes with
  | nil => exact .skip
  | cons byte bytes ih =>
    rw [writings, List.map_cons, List.prod_cons]
    exact (denotes_writeLoop (List.ofFn device) byte).seq ih

/-- The words of the language are the traces of the calls that return. -/
theorem mem_writings_iff (device : Fin 4 → BitVec 16) (bytes : List (BitVec 8))
    (t : List Access) :
    t ∈ writings (List.ofFn device) bytes ↔
      ∃ fuel status n', writes fuel status device bytes 0 = (t, some n') := by
  have hwrites := denotes_writes device bytes
  constructor
  · intro ht
    refine ⟨t.length, fun k => (answers t).getD k 0, _, hwrites.complete t ht _ _ 0 le_rfl ?_⟩
    intro k v hk
    dsimp only
    rw [Nat.zero_add, List.getD_eq_getElem?_getD, hk, Option.getD_some]
  · rintro ⟨fuel, status, n', heq⟩
    have hmem := (hwrites.sound fuel status 0 n' (congrArg Prod.snd heq)).1
    rwa [heq] at hmem

end

/-! ## Some word -/

theorem prod_inhabited {Ls : List (Language Access)} (h : ∀ L ∈ Ls, ∃ t, t ∈ L) :
    ∃ t, t ∈ Ls.prod := by
  induction Ls with
  | nil => exact ⟨[], rfl⟩
  | cons L Ls ih =>
    obtain ⟨t, ht⟩ := h L (List.mem_cons_self ..)
    obtain ⟨t', ht'⟩ := ih fun L' hL' => h L' (List.mem_cons_of_mem _ hL')
    rw [List.prod_cons]
    exact ⟨t ++ t', Language.append_mem_mul ht ht'⟩

theorem polling_inhabited (port : BitVec 16) : ∃ t, t ∈ polling port :=
  ⟨[.inb port 0x20], mem_polling.mpr (.inl ⟨0x20, by decide, rfl⟩)⟩

theorem sending_inhabited (byte : BitVec 8) (dev : BitVec 16) : ∃ t, t ∈ sending byte dev := by
  have hcr : ∃ t, t ∈ if byte = LF then output dev CR else 1 := by
    split
    · exact ⟨_, rfl⟩
    · exact ⟨[], rfl⟩
  have hput : ∃ t, t ∈ if dev = 0 then 1 else polling (dev + 5) * output dev byte := by
    split
    · exact ⟨[], rfl⟩
    · obtain ⟨t, ht⟩ := polling_inhabited (dev + 5)
      exact ⟨t ++ [.outb dev byte], Language.append_mem_mul ht (Set.mem_singleton _)⟩
  obtain ⟨t, ht⟩ := hcr
  obtain ⟨t', ht'⟩ := hput
  exact ⟨t ++ t', Language.append_mem_mul ht ht'⟩

theorem writing_inhabited (devs : List (BitVec 16)) (byte : BitVec 8) :
    ∃ t, t ∈ writing devs byte := by
  refine prod_inhabited fun L hL => ?_
  obtain ⟨dev, -, rfl⟩ := List.mem_map.mp hL
  exact sending_inhabited byte dev

theorem writings_inhabited (devs : List (BitVec 16)) (bytes : List (BitVec 8)) :
    ∃ t, t ∈ writings devs bytes := by
  refine prod_inhabited fun L hL => ?_
  obtain ⟨byte, -, rfl⟩ := List.mem_map.mp hL
  exact writing_inhabited devs byte

end Serial
end DeliceOS
