import DeliceOS.Base.Mem

/-!
# Base.WordStack

A stack of quadwords in memory that grows down from a base address. The list has the top of the
stack first; the word at its head is at the lowest address.

* `push`, `pop`: the stack operations, on the list and in memory.
* `congr`: only the bytes from the top to the base count.
-/

namespace Base

/-- The address of the top of the stack `ws`. -/
def WordStack.top (base : Nat) (ws : List (BitVec 64)) : Nat := base - 8 * ws.length

structure WordStack (base : Nat) (ws : List (BitVec 64)) (m : Mem) : Prop where
  room : 8 * ws.length ≤ base
  words : ∀ i (h : i < ws.length), m.read64 (WordStack.top base ws + 8 * i) = ws[i]

namespace WordStack

variable {base : Nat} {ws : List (BitVec 64)} {m m' : Mem} {v : BitVec 64}

theorem nil : WordStack base [] m := ⟨by simp, nofun⟩

theorem top_le (base : Nat) (ws : List (BitVec 64)) : top base ws ≤ base := Nat.sub_le _ _

theorem top_cons (h : 8 * (ws.length + 1) ≤ base) : top base (v :: ws) + 8 = top base ws := by
  simp only [top, List.length_cons]
  omega

theorem congr (h : WordStack base ws m) (hm : ∀ x, top base ws ≤ x → x < base → m' x = m x) :
    WordStack base ws m' := by
  refine ⟨h.room, fun i hi => ?_⟩
  rw [← h.words i hi]
  have hr := h.room
  refine Mem.read64_congr fun x hx hx' => hm x (by omega) ?_
  simp only [top] at hx'
  omega

theorem push (h : WordStack base ws m) (hr : 8 * (ws.length + 1) ≤ base) :
    WordStack base (v :: ws) (m.write64 (top base (v :: ws)) v) := by
  refine ⟨hr, fun i hi => ?_⟩
  cases i with
  | zero => exact Mem.read64_write64 m _ v
  | succ i =>
    have htop := top_cons (v := v) hr
    have hi' : i < ws.length := by simpa using hi
    rw [Mem.read64_write64_disjoint (.inr (by omega)),
      show top base (v :: ws) + 8 * (i + 1) = top base ws + 8 * i by omega, h.words i hi']
    rfl

theorem pop (h : WordStack base (v :: ws) m) : WordStack base ws m := by
  have hr := h.room
  rw [List.length_cons] at hr
  refine ⟨by omega, fun i hi => ?_⟩
  have htop := top_cons (v := v) hr
  have hw := h.words (i + 1) (by simpa using hi)
  rw [show top base (v :: ws) + 8 * (i + 1) = top base ws + 8 * i by omega] at hw
  exact hw

theorem head (h : WordStack base (v :: ws) m) : m.read64 (top base (v :: ws)) = v :=
  h.words 0 (by simp)

end WordStack
end Base
