import DeliceOS.Base.Numeral
import DeliceOS.Boot.E820
import Mathlib.Data.List.Forall2

/-!
# Boot.Log

The lines `start_kernel` prints for the records of the memory map. Of the vendored `printf` the
conversions of these lines matter: `%lx` takes 64 bits of its argument, `%x` and `%d` the low 32.

* `line_eq_iff`: when two records have the same line. The length is printed by `%x`.
* `log_eq_iff`: when two memory maps have the same lines.
-/

namespace DeliceOS
namespace Boot

open Base Numeral

def printf : List Char → List (BitVec 64) → List Char
  | '%' :: 'l' :: 'x' :: format, v :: va => Nat.toDigits 16 v.toNat ++ printf format va
  | '%' :: 'x' :: format, v :: va => Nat.toDigits 16 (v.setWidth 32).toNat ++ printf format va
  | '%' :: 'd' :: format, v :: va => decimal (v.setWidth 32).toInt ++ printf format va
  | c :: format, va => c :: printf format va
  | [], _ => []

/-- What `start_kernel` prints for an entry of the map. -/
def line (d : Descriptor) : List Char :=
  printf "e820 entry addr entry %lx %x %d\n".toList [d.addr, d.len, d.type.setWidth 64]

/-- The lines of the loop over the map. -/
def log (ds : List Descriptor) : List Char := ds.flatMap line

/-- A line without its newline. -/
def body (d : Descriptor) : List Char :=
  "e820 entry addr entry ".toList ++ (Nat.toDigits 16 d.addr.toNat ++
    ' ' :: (Nat.toDigits 16 (d.len.setWidth 32).toNat ++ ' ' :: decimal d.type.toInt))

variable (d d' : Descriptor)

theorem line_eq : line d = body d ++ ['\n'] := by
  unfold body
  simp [line, printf]

/-- What of a record can be read off its line. -/
def SameText : Prop :=
  d.addr = d'.addr ∧ d.len.setWidth 32 = d'.len.setWidth 32 ∧ d.type = d'.type

instance : Decidable (SameText d d') := inferInstanceAs (Decidable (_ ∧ _))

/-- The fields are separated by spaces, and no number has a space in its text. -/
theorem body_eq_iff : body d = body d' ↔ SameText d d' := by
  have hspace : ∀ n, ' ' ∉ Nat.toDigits 16 n :=
    notMem_toDigits (by decide) (by decide) (by decide)
  have hhex : Function.Injective (Nat.toDigits 16) := toDigits_injective (by decide) (by decide)
  unfold body
  rw [List.append_cancel_left_eq,
    append_sep_inj (hspace _) (hspace _), append_sep_inj (hspace _) (hspace _), hhex.eq_iff, hhex.eq_iff,
    decimal_injective.eq_iff, BitVec.toNat_inj, BitVec.toNat_inj, BitVec.toInt_inj]
  rfl

theorem line_eq_iff : line d = line d' ↔ SameText d d' := by
  rw [line_eq, line_eq, List.append_cancel_right_eq, body_eq_iff]

theorem newline_notMem_body : '\n' ∉ body d := by
  have hhex : ∀ n, '\n' ∉ Nat.toDigits 16 n :=
    notMem_toDigits (by decide) (by decide) (by decide)
  have hdec : '\n' ∉ decimal d.type.toInt := notMem_decimal (by decide) (by decide) _
  unfold body
  simp [hhex, hdec]

/-- The newlines separate the records of the map. -/
theorem log_eq_iff (ds ds' : List Descriptor) :
    log ds = log ds' ↔ List.Forall₂ SameText ds ds' := by
  have hcons : ∀ d ds, log (d :: ds) = body d ++ '\n' :: log ds := by
    intro d ds
    simp [log, line_eq]
  induction ds generalizing ds' with
  | nil =>
    cases ds' with
    | nil => simp [log]
    | cons d' ds' => simp [hcons, show log [] = [] from rfl]
  | cons d ds ih =>
    cases ds' with
    | nil => simp [hcons, show log [] = [] from rfl]
    | cons d' ds' =>
      rw [hcons, hcons, append_sep_inj (newline_notMem_body d) (newline_notMem_body d'),
        body_eq_iff, List.forall₂_cons]
      exact and_congr_right fun _ => ih ds'

/-- Records that differ have different lines, except for those that differ only in the high half
of the length. -/
theorem line_ne_iff :
    (d.addr ≠ d'.addr ∨ d.len ≠ d'.len ∨ d.type ≠ d'.type → line d ≠ line d') ↔
      (d.addr = d'.addr → d.type = d'.type → d.len.setWidth 32 = d'.len.setWidth 32 →
        d.len = d'.len) := by
  have hline : line d ≠ line d' ↔ ¬ SameText d d' := not_congr (line_eq_iff d d')
  rw [hline, SameText]
  constructor
  · intro h haddr htype hlow
    by_contra hlen
    exact h (.inr (.inl hlen)) ⟨haddr, hlow, htype⟩
  · intro h hne hsame
    rcases hne with haddr | hlen | htype
    · exact haddr hsame.1
    · exact hlen (h hsame.1 hsame.2.2 hsame.2.1)
    · exact htype hsame.2.2

/-- Memory above 4 GiB of a length that is a multiple of 4 GiB, whatever the multiple. -/
theorem line_of_large_memory :
    let d : Descriptor := ⟨0x100000000, 0x100000000, 1, 1⟩
    let d' : Descriptor := ⟨0x100000000, 0x300000000, 1, 1⟩
    d.len ≠ d'.len ∧ line d = line d' :=
  ⟨by decide, (line_eq_iff _ _).mpr (by decide)⟩

end Boot
end DeliceOS
