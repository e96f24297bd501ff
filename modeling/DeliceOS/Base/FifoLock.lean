import DeliceOS.Base.Lts

/-!
# Base.FifoLock

What a fair lock is for: contexts queue up, the first in line is granted the lock when nobody
holds it, and only the holder leaves. There are no counters and no tickets here.

* `Run.history`: in every run the contexts that entered are those that left, then the holder,
  then those still waiting, in this order.
* `Run.granted_prefix`: the lock is granted in the order of entering.
-/

namespace Base
namespace FifoLock

/-- The context that holds the lock, if any, and the contexts waiting, first come first. -/
structure Line (κ : Type*) where
  holder : Option κ
  waiting : List κ

inductive Event (κ : Type*) where
  | enter (c : κ)
  | grant (c : κ)
  | leave (c : κ)

variable {κ : Type*}

namespace Line

def queue (q : Line κ) : List κ := q.holder.toList ++ q.waiting

@[simp] theorem queue_none (w : List κ) : (⟨none, w⟩ : Line κ).queue = w := rfl

@[simp] theorem queue_some (c : κ) (w : List κ) : (⟨some c, w⟩ : Line κ).queue = c :: w := rfl

end Line

inductive Step : Line κ → Event κ → Line κ → Prop where
  | enter {h : Option κ} {w : List κ} {c : κ} :
      c ∉ (⟨h, w⟩ : Line κ).queue → Step ⟨h, w⟩ (.enter c) ⟨h, w ++ [c]⟩
  | grant {w : List κ} {c : κ} : Step ⟨none, c :: w⟩ (.grant c) ⟨some c, w⟩
  | leave {w : List κ} {c : κ} : Step ⟨some c, w⟩ (.leave c) ⟨none, w⟩

def lts (κ : Type*) : Lts (Line κ) (Event κ) where
  init q := q = ⟨none, []⟩
  step := Step

/-! ## Order of entering and order of granting -/

def entered (tr : List (Event κ)) : List κ :=
  tr.filterMap fun | .enter c => some c | _ => none

def granted (tr : List (Event κ)) : List κ :=
  tr.filterMap fun | .grant c => some c | _ => none

def left (tr : List (Event κ)) : List κ :=
  tr.filterMap fun | .leave c => some c | _ => none

/-- The events of a run, split at the contexts that have left. -/
structure History (tr : List (Event κ)) (q : Line κ) : Prop where
  entered : entered tr = left tr ++ q.queue
  granted : granted tr = left tr ++ q.holder.toList

theorem entered_append (tr tr' : List (Event κ)) :
    entered (tr ++ tr') = entered tr ++ entered tr' := List.filterMap_append

theorem granted_append (tr tr' : List (Event κ)) :
    granted (tr ++ tr') = granted tr ++ granted tr' := List.filterMap_append

theorem left_append (tr tr' : List (Event κ)) : left (tr ++ tr') = left tr ++ left tr' :=
  List.filterMap_append

theorem History.step {tr : List (Event κ)} {q q' : Line κ} {e : Event κ} (h : History tr q)
    (hs : Step q e q') : History (tr ++ [e]) q' := by
  obtain ⟨he, hg⟩ := h
  constructor
  · rw [entered_append, left_append, he]
    cases hs <;> simp [FifoLock.entered, left, Line.queue]
  · rw [granted_append, left_append, hg]
    cases hs <;> simp [FifoLock.granted, left]

theorem Run.history {tr : List (Event κ)} {q : Line κ} (h : (lts κ).Run tr q) : History tr q := by
  refine Lts.Run.invariant ?_ (fun _ _ _ _ hi hs => History.step hi hs) h
  rintro _ rfl
  exact ⟨rfl, rfl⟩

/-- The lock is granted in exactly the order in which the contexts entered. -/
theorem Run.granted_prefix {tr : List (Event κ)} {q : Line κ} (h : (lts κ).Run tr q) :
    granted tr <+: entered tr := by
  obtain ⟨he, hg⟩ := Run.history h
  refine ⟨q.waiting, ?_⟩
  rw [he, hg, Line.queue, List.append_assoc]

end FifoLock
end Base
