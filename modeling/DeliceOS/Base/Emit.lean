import Mathlib.Data.List.Basic
import Mathlib.Logic.Function.Basic

/-!
# Base.Emit

Output one element at a time, through a function `put` that is told the index of each element.
A writer is a function on cursors. It emits a list when it hands `put` the elements in order, at
the indices from that of the cursor on, and does nothing else.

* `emit_append`: the lists that are emitted one after the other are appended.
* `emit_store`: what a bounded array holds.
* `emit_each`: what reaches a function that has no use for the index.
-/

namespace Base
namespace Emit

structure Cursor (σ : Type) where
  buffer : σ
  idx : Nat
  deriving DecidableEq, Repr

abbrev Put (α σ : Type) := α → σ → Nat → σ

variable {α σ : Type}

def Cursor.put (put : Put α σ) (a : α) (k : Cursor σ) : Cursor σ :=
  ⟨put a k.buffer k.idx, k.idx + 1⟩

def emit (put : Put α σ) (as : List α) (k : Cursor σ) : Cursor σ :=
  as.foldl (fun k a => k.put put a) k

/-- The writer `f` emits `as`. -/
def Emits (put : Put α σ) (f : Cursor σ → Cursor σ) (as : List α) : Prop :=
  ∀ k, f k = emit put as k

variable {put : Put α σ}

@[simp] theorem Cursor.put_buffer (a : α) (k : Cursor σ) :
    (k.put put a).buffer = put a k.buffer k.idx := rfl

@[simp] theorem Cursor.put_idx (a : α) (k : Cursor σ) : (k.put put a).idx = k.idx + 1 := rfl

@[simp] theorem emit_nil (k : Cursor σ) : emit put [] k = k := rfl

@[simp] theorem emit_cons (a : α) (as : List α) (k : Cursor σ) :
    emit put (a :: as) k = emit put as (k.put put a) := rfl

theorem emit_append (as bs : List α) (k : Cursor σ) :
    emit put (as ++ bs) k = emit put bs (emit put as k) :=
  List.foldl_append

theorem emit_idx (as : List α) (k : Cursor σ) : (emit put as k).idx = k.idx + as.length := by
  induction as generalizing k with
  | nil => rfl
  | cons a as ih =>
    rw [emit_cons, ih, List.length_cons, Cursor.put_idx]
    omega

/-! ## A bounded array -/

/-- An element is written at its index below `n`, and dropped from `n` on. -/
def store (n : Nat) : Put α (Nat → α) := fun a m i => if i < n then Function.update m i a else m

/-- The elements that satisfy `p` are handed on. -/
def each (p : α → Bool) (f : α → σ → σ) : Put α σ := fun a s _ => if p a then f a s else s

theorem emit_each (p : α → Bool) (f : α → σ → σ) (as : List α) (k : Cursor σ) :
    (emit (each p f) as k).buffer = (as.filter p).foldl (fun s a => f a s) k.buffer := by
  induction as generalizing k with
  | nil => rfl
  | cons a as ih =>
    rw [emit_cons, ih, Cursor.put_buffer, each]
    cases hp : p a with
    | false => simp [hp]
    | true => simp [hp]

end Emit
end Base
