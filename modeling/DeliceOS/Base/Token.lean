import DeliceOS.Base.Lts
import Mathlib.Data.Finset.Card

/-!
# Base.Token

One token passed between parties: a party takes it when it is there and puts it back later. The
number of tokens lying there plus the number of parties that hold one stays one.
-/

namespace Base

structure Token (κ : Type*) where
  free : Nat
  holders : Finset κ

namespace Token

inductive Event (κ : Type*) where
  | take (c : κ)
  | give (c : κ)

variable {κ : Type*} [DecidableEq κ]

inductive Step : Token κ → Event κ → Token κ → Prop where
  | take {t : Token κ} {c : κ} : t.free ≠ 0 → c ∉ t.holders →
      Step t (.take c) ⟨0, insert c t.holders⟩
  | give {t : Token κ} {c : κ} : c ∈ t.holders → Step t (.give c) ⟨1, t.holders.erase c⟩

def lts (κ : Type*) [DecidableEq κ] : Lts (Token κ) (Event κ) where
  init t := t = ⟨1, ∅⟩
  step := Step

/-- One token in all. -/
def Conserved (t : Token κ) : Prop := t.free + t.holders.card = 1

theorem Conserved.step {t t' : Token κ} {e : Event κ} (h : t.Conserved) (hs : Step t e t') :
    t'.Conserved := by
  unfold Conserved at h
  cases hs with
  | take hf hc =>
    simp only [Conserved, Finset.card_insert_of_notMem hc]
    omega
  | give hc =>
    have := Finset.card_pos.mpr ⟨_, hc⟩
    simp only [Conserved, Finset.card_erase_of_mem hc]
    omega

theorem Conserved.follows {t : Token κ} {P : Token κ → Prop} {o : Option (Event κ)}
    (h : t.Conserved) (hf : (lts κ).Follows P t o) : ∃ t' : Token κ, t'.Conserved ∧ P t' := by
  cases o with
  | none => exact ⟨t, h, hf⟩
  | some e =>
    obtain ⟨t', hs, hp⟩ := hf
    exact ⟨t', h.step hs, hp⟩

omit [DecidableEq κ] in
theorem Conserved.unique {t : Token κ} {c d : κ} (h : t.Conserved) (hc : c ∈ t.holders)
    (hd : d ∈ t.holders) : c = d := by
  unfold Conserved at h
  exact Finset.card_le_one.mp (by omega) c hc d hd

end Token
end Base
