import DeliceOS.Base.Mem

/-!
# Base.Store

Sequences of stores in program order. Code that only stores (clearing loops, filling a table) is
the list of its stores, so that it can also be interleaved with other code store by store.

* `run_out`: a byte no store touches keeps its value.
* `run_zero`: stores of zeros, in any order and with overlaps.
* `run_clear`: bytes stored one at a time.
* `run_append`, `run_take`: a run cut into pieces.
-/

namespace Base

/-- Store the low `size` bytes of `val` at `addr`. -/
structure Store where
  addr : Nat
  size : Nat
  val : Nat
  deriving DecidableEq, Repr

namespace Store

def apply (s : Store) (m : Mem) : Mem := m.writeLE s.addr s.size s.val

def run (ss : List Store) (m : Mem) : Mem := ss.foldl (fun m s => s.apply m) m

/-- `s` does not touch byte `x`. -/
def Misses (s : Store) (x : Nat) : Prop := x < s.addr ∨ s.addr + s.size ≤ x

@[simp] theorem run_nil (m : Mem) : run [] m = m := rfl

@[simp] theorem run_cons (s : Store) (ss : List Store) (m : Mem) :
    run (s :: ss) m = run ss (s.apply m) := rfl

theorem run_append (ss ss' : List Store) (m : Mem) : run (ss ++ ss') m = run ss' (run ss m) :=
  List.foldl_append

theorem apply_out {s : Store} {m : Mem} {x : Nat} (h : s.Misses x) : s.apply m x = m x :=
  Mem.writeLE_out h

/-- A store computes each byte from what the byte was. -/
theorem apply_congr {s : Store} {m m' : Mem} {x : Nat} (h : m x = m' x) :
    s.apply m x = s.apply m' x := by
  simp only [apply, Mem.writeLE, h]

theorem run_congr (ss : List Store) {x : Nat} : ∀ {m m' : Mem}, m x = m' x →
    run ss m x = run ss m' x := by
  induction ss with
  | nil => intro m m' h; exact h
  | cons s ss ih => intro m m' h; exact ih (apply_congr h)

theorem run_out {ss : List Store} {x : Nat} (h : ∀ s ∈ ss, s.Misses x) :
    ∀ m : Mem, run ss m x = m x := by
  induction ss with
  | nil => intro m; rfl
  | cons s ss ih =>
    intro m
    rw [run_cons, ih fun s hs => h s (List.mem_cons_of_mem _ hs), apply_out (h s (by simp))]

instance (s : Store) (x : Nat) : Decidable (s.Misses x) := inferInstanceAs (Decidable (_ ∨ _))

/-- Of stores of zeros it only matters which bytes they touch. -/
theorem run_zero {ss : List Store} {x : Nat} (h : ∀ s ∈ ss, s.val = 0) :
    ∀ m : Mem, run ss m x = if ∃ s ∈ ss, ¬ s.Misses x then 0 else m x := by
  induction ss with
  | nil => intro m; simp
  | cons s ss ih =>
    intro m
    rw [run_cons, ih fun s hs => h s (List.mem_cons_of_mem _ hs)]
    by_cases hrest : ∃ s ∈ ss, ¬ s.Misses x
    · rw [if_pos hrest, if_pos (by simp [hrest])]
    · rw [if_neg hrest]
      by_cases hs : s.Misses x
      · rw [apply_out hs, if_neg (by simpa [hs] using hrest)]
      · rw [if_pos ⟨s, by simp, hs⟩]
        simp only [Misses, not_or, Nat.not_lt, Nat.not_le] at hs
        rw [apply, Mem.writeLE_in hs.1 hs.2, h s (by simp), Nat.zero_div]
        rfl

/-- The stores of `n` bytes of value `byte`, one at a time, upwards from `dst`. -/
def clear (dst byte n : Nat) : List Store := (List.range n).map fun i => ⟨dst + i, 1, byte⟩

theorem clear_misses {dst byte n x : Nat} (h : x < dst ∨ dst + n ≤ x) :
    ∀ s ∈ clear dst byte n, s.Misses x := by
  intro s hs
  obtain ⟨i, hi, rfl⟩ := List.mem_map.mp hs
  have := List.mem_range.mp hi
  simp only [Misses]
  omega

theorem run_clear (dst byte n : Nat) (m : Mem) (x : Nat) :
    run (clear dst byte n) m x =
      if dst ≤ x ∧ x < dst + n then BitVec.ofNat 8 byte else m x := by
  induction n with
  | zero => rw [if_neg (by omega)]; rfl
  | succ n ih =>
    rw [clear, List.range_succ, List.map_append, run_append, List.map_singleton, run_cons, run_nil]
    by_cases hlast : x = dst + n
    · rw [apply, Mem.writeLE_in (by simp only; omega) (by simp only; omega), if_pos (by omega), hlast,
        Nat.sub_self, Nat.pow_zero, Nat.div_one]
    · have hmiss : Misses ⟨dst + n, 1, byte⟩ x := by
        simp only [Misses]
        omega
      rw [apply_out hmiss]
      exact ih.trans (if_congr (by omega) rfl rfl)

/-- Clearing a quadword byte by byte before storing it makes no difference. -/
theorem run_clear_store (m : Mem) (dst byte : Nat) (v : BitVec 64) :
    run (clear dst byte 8 ++ [⟨dst, 8, v.toNat⟩]) m = m.write64 dst v := by
  funext x
  rw [run_append, run_cons, run_nil, apply, Mem.write64]
  by_cases hx : dst ≤ x ∧ x < dst + 8
  · rw [Mem.writeLE_in hx.1 hx.2, Mem.writeLE_in hx.1 hx.2]
  · have h : x < dst ∨ dst + 8 ≤ x := by omega
    rw [Mem.writeLE_out h, Mem.writeLE_out h, run_out (clear_misses h)]

/-- Running one more store of a list. -/
theorem run_take_succ {ss : List Store} {k : Nat} (h : k < ss.length) (m : Mem) :
    run (ss.take (k + 1)) m = ss[k].apply (run (ss.take k) m) := by
  rw [List.take_succ_eq_append_getElem h, run_append]; rfl

end Store
end Base
