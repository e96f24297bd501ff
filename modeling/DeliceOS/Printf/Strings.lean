import DeliceOS.Printf.Grammar

/-!
# Printf.Strings

The conversion `%s`. Both of its loops look at a character before they look at the precision, so
a precision does not keep them inside an array that has no NUL. A negative precision cuts off all
of the string.

* `strnlenS_eq`, `stringText_precision`, `stringText_plain`: what the two loops read.
* `stringText_standard_iff`: when `%s` does what the C standard asks for.
-/

namespace DeliceOS
namespace Format

/-- The characters before the first NUL. -/
def word (p : List Char) : List Char := p.takeWhile (· != NUL)

/-- The characters `%s` prints of the array `p`. -/
def Directive.stringOf (d : Directive) (p : List Char) : Option (List Char) :=
  (stringLength d.flags d.precision p).bind fun l =>
    (stringText d.flags p d.precision).map fun t => inField t l d.width d.flags

/-- `%s` of the C standard: with a precision the array needs no NUL, if it has enough
characters. -/
def Directive.standardString (s : Directive) (p : List Char) : Option (List Char) :=
  let t := if s.flags.precision then (word p).take s.precision else word p
  if NUL ∈ p ∨ s.flags.precision ∧ s.precision ≤ p.length then
    some (inField t t.length s.width s.flags)
  else none

section

variable {flags : Flags} {d : Directive} {env : Env} {va : Va}

theorem word_cons {c : Char} (h : c ≠ NUL) (p : List Char) : word (c :: p) = c :: word p := by
  simp [word, h]

theorem word_length_le (p : List Char) : (word p).length ≤ p.length :=
  (List.takeWhile_sublist _).length_le

/-- The loop reads up to the first NUL, and no more than one character past its bound. -/
theorem strnlenS_eq (p : List Char) (maxsize : Nat) :
    strnlenS p maxsize =
      if NUL ∈ p ∨ maxsize < p.length then some (min (word p).length maxsize) else none := by
  induction p generalizing maxsize with
  | nil => rfl
  | cons c p ih =>
    rw [strnlenS]
    by_cases hc : c = NUL
    · simp [hc, word]
    · have hmem : NUL ∈ c :: p ↔ NUL ∈ p := by simp [Ne.symm hc]
      rw [if_neg hc, word_cons hc, List.length_cons, List.length_cons]
      simp only [hmem]
      by_cases hzero : maxsize = 0
      · simp [hzero]
      · have hiff : maxsize - 1 < p.length ↔ maxsize < p.length + 1 := by omega
        have hmin : min (word p).length (maxsize - 1) + 1 = min ((word p).length + 1) maxsize := by omega
        rw [if_neg hzero, ih]
        simp only [hiff]
        split
        · rw [Option.map_some, hmin]
        · rfl

theorem stringText_precision (hp : flags.precision = true) (p : List Char) (n : Nat) :
    stringText flags p n =
      if NUL ∈ p ∨ n < p.length then some ((word p).take n) else none := by
  induction p generalizing n with
  | nil => rfl
  | cons c p ih =>
    rw [stringText]
    by_cases hc : c = NUL
    · simp [hc, word]
    · have hmem : NUL ∈ c :: p ↔ NUL ∈ p := by simp [Ne.symm hc]
      rw [if_neg hc, word_cons hc, List.length_cons]
      simp only [hmem]
      cases n with
      | zero => simp [hp]
      | succ n =>
        rw [if_neg (by simp), Nat.add_sub_cancel, ih, List.take_succ_cons]
        simp only [Nat.add_lt_add_iff_right]
        split
        · rfl
        · rfl

theorem stringText_plain (hp : flags.precision = false) (p : List Char) (n : Nat) :
    stringText flags p n = if NUL ∈ p then some (word p) else none := by
  induction p generalizing n with
  | nil => rfl
  | cons c p ih =>
    rw [stringText]
    by_cases hc : c = NUL
    · simp [hc, word]
    · have hmem : NUL ∈ c :: p ↔ NUL ∈ p := by simp [Ne.symm hc]
      rw [if_neg hc, if_neg (by simp [hp]), ih, word_cons hc]
      simp only [hmem]
      split
      · rfl
      · rfl

theorem text_string (hconv : conversion d.specifier = .string) (arg : BitVec 64) :
    d.text env (.int arg :: va) = (d.stringOf (env.str arg)).map (·, va) := by
  unfold Directive.text Directive.stringOf
  rw [hconv]
  simp [Va.int, Option.map_bind, Function.comp_def]

theorem text_string_iff (hconv : conversion d.specifier = .string) (arg : BitVec 64)
    (t : Option (List Char)) :
    d.text env (.int arg :: va) = t.map (·, va) ↔ d.stringOf (env.str arg) = t := by
  have hinj : Function.Injective (Option.map fun t : List Char => (t, va)) :=
    Option.map_injective fun _ _ h => (Prod.mk.inj h).1
  rw [text_string hconv]
  exact hinj.eq_iff

/-- With the precision that is meant, the code differs on an array without a NUL that the precision
covers exactly, or that a precision of zero should keep it from. -/
theorem stringOf_standard_iff {p : List Char} (hprec : d.flags.precision = false → d.precision = 0)
    (hlen : p.length < 2 ^ 32) :
    d.stringOf p = d.standardString p ↔
      ¬ (d.flags.precision = true ∧ NUL ∉ p ∧ (d.precision = p.length ∨ d.precision = 0)) := by
  have hword := word_length_le p
  have hmax : p.length < sizeMax := Nat.lt_trans hlen (by decide)
  unfold Directive.stringOf stringLength Directive.standardString
  rw [strnlenS_eq]
  cases hp : d.flags.precision with
  | false =>
    rw [stringText_plain hp, hprec hp]
    have hl : min (word p).length sizeMax % 2 ^ 32 = (word p).length := by omega
    by_cases hnul : NUL ∈ p
    · simp only [hnul, true_or, ne_eq, not_true_eq_false, if_false, if_true, Option.map_some,
        Option.bind_some, hl, Bool.false_eq_true, false_and, not_false_eq_true]
    · have hnot : ¬ sizeMax < p.length := by omega
      simp only [hnul, false_or, hnot, ne_eq, not_true_eq_false, if_false, Option.map_none,
        Option.bind_none, Bool.false_eq_true, false_and, not_false_eq_true]
  | true =>
    rw [stringText_precision hp]
    by_cases hnul : NUL ∈ p
    · -- the bound is the precision, or none for a precision of zero
      have hl : min (min (word p).length (if d.precision ≠ 0 then d.precision else sizeMax) %
          2 ^ 32) d.precision = ((word p).take d.precision).length := by
        rw [List.length_take]
        split <;> omega
      simp only [hnul, true_or, if_true, Option.map_some, Option.bind_some, hl, not_true_eq_false,
        false_and, and_false, not_false_eq_true]
    · simp only [hnul, false_or, true_and, not_false_eq_true, if_true]
      by_cases hzero : d.precision = 0
      · have hnot : ¬ sizeMax < p.length := by omega
        simp [hzero, hnot]
      · have hl : min (min (word p).length d.precision % 2 ^ 32) d.precision =
            ((word p).take d.precision).length := by
          rw [List.length_take]
          omega
        rcases Nat.lt_trichotomy d.precision p.length with hlt | heq | hgt
        · simp only [hzero, not_false_eq_true, ne_eq, if_true, hlt, Option.map_some, hl,
            Option.bind_some, Nat.le_of_lt hlt, Nat.ne_of_lt hlt, or_self]
        · simp [heq]
        · have hlt : ¬ d.precision < p.length := by omega
          have hle : ¬ d.precision ≤ p.length := by omega
          simp [hzero, hlt, hle, Nat.ne_of_gt hgt]

/-- A field of spaces is the string in its field if and only if the string is spaces that fit. -/
theorem spaces_eq_inField_iff (t : List Char) (width : Nat) (flags : Flags) :
    List.replicate width ' ' = inField t t.length width flags ↔
      (∀ c ∈ t, c = ' ') ∧ t.length ≤ width := by
  constructor
  · intro h
    have hlen := congrArg List.length h
    have hmem : ∀ c ∈ t, c ∈ List.replicate width ' ' := by
      intro c hc
      rw [h, inField]
      split
      · exact List.mem_append_left _ hc
      · exact List.mem_append_right _ hc
    refine ⟨fun c hc => List.eq_of_mem_replicate (hmem c hc), ?_⟩
    rw [List.length_replicate, inField] at hlen
    split at hlen <;> rw [List.length_append, List.length_replicate] at hlen <;> omega
  · rintro ⟨hspace, hle⟩
    obtain ⟨k, rfl⟩ := Nat.exists_eq_add_of_le hle
    have ht : t = List.replicate t.length ' ' := List.eq_replicate_of_mem hspace
    rw [inField, Nat.add_sub_cancel_left]
    generalize t.length = n at ht ⊢
    split
    · rw [ht, List.replicate_append_replicate]
    · rw [ht, List.replicate_append_replicate, Nat.add_comm]

/-- With a precision of 0 read where the standard omits it, nothing of the string is printed. -/
theorem stringOf_omitted_iff {s : Directive} {p : List Char} (hp : s.flags.precision = false)
    (hprec : s.precision = 0) (hlen : p.length < 2 ^ 32) :
    Directive.stringOf { s with flags := { s.flags with precision := true } } p =
        s.standardString p ↔
      (NUL ∈ p → (∀ c ∈ word p, c = ' ') ∧ (word p).length ≤ s.width) := by
  have hmax : ¬ sizeMax < p.length := by
    unfold sizeMax
    omega
  unfold Directive.stringOf stringLength Directive.standardString
  rw [strnlenS_eq, stringText_precision rfl, hp, hprec]
  by_cases hnul : NUL ∈ p
  · have hiff := spaces_eq_inField_iff (word p) s.width s.flags
    simp only [hnul, true_or, if_true, ne_eq, not_true_eq_false, if_false, Option.map_some,
      Option.bind_some, Nat.min_zero, List.take_zero, Bool.false_eq_true, Option.some.injEq,
      forall_const]
    rw [← hiff]
    unfold inField
    simp
  · simp [hnul, hmax]

variable {w : Written} {rest : List Char} {va₀ : Va} {s : Directive}

/-- When `%s` does what the standard asks for. -/
theorem stringText_standard_iff (hw : w.Ok) (hsmall : w.Small) {arg : BitVec 64}
    (h : directive (w.render ++ rest) va₀ = some (d, rest, .int arg :: va))
    (hs : w.standard va₀ = some (s, .int arg :: va)) (hconv : conversion s.specifier = .string)
    (hlen : (env.str arg).length < 2 ^ 32) :
    d.text env (.int arg :: va) = (s.standardString (env.str arg)).map (·, va) ↔
      ¬ (s.flags.precision = true ∧ NUL ∉ env.str arg ∧
        (s.precision = (env.str arg).length ∨ s.precision = 0)) ∧
      (Omitted d s → NUL ∈ env.str arg →
        (∀ c ∈ word (env.str arg), c = ' ') ∧ (word (env.str arg)).length ≤ s.width) := by
  obtain ⟨s', hs', hread⟩ := directive_standard hw hsmall h
  cases hs.symm.trans hs'
  cases hread with
  | same =>
    rw [text_string_iff hconv, stringOf_standard_iff (directive_precision h) hlen]
    exact (and_iff_left fun ho => absurd ho (not_omitted_self d)).symm
  | omitted hp hprec =>
    have homitted : Omitted { s with flags := { s.flags with precision := true } } s := ⟨rfl, hp⟩
    have hconv' : conversion (Directive.specifier
        { s with flags := { s.flags with precision := true } }) = .string := hconv
    have hnot : ¬ (s.flags.precision = true ∧ NUL ∉ env.str arg ∧
        (s.precision = (env.str arg).length ∨ s.precision = 0)) := by
      rw [hp]
      rintro ⟨hfalse, -⟩
      cases hfalse
    rw [text_string_iff hconv', stringOf_omitted_iff hp hprec hlen, and_iff_right hnot,
      imp_iff_right homitted]

/-- Two characters of an array of two. -/
theorem stringText_exact :
    Directive.text ⟨fun _ => ['a', 'b'], fun _ _ _ _ => [], fun _ _ _ _ => []⟩
        ⟨{ precision := true }, 0, 2, 's'⟩ [.int 0] ≠
      (Directive.standardString ⟨{ precision := true }, 0, 2, 's'⟩ ['a', 'b']).map (·, []) := by
  have hw : Written.Ok ⟨[], .none, some (.digits ['2']), .int, 's'⟩ :=
    ⟨⟨List.all_eq_true.mp rfl, stops_cons.mpr rfl⟩, ⟨trivial, stops_cons.mpr rfl⟩,
      ⟨⟨by decide, List.all_eq_true.mp rfl⟩, stops_cons.mpr rfl⟩, rfl⟩
  have hsmall : Written.Small ⟨[], .none, some (.digits ['2']), .int, 's'⟩ := by
    refine ⟨trivial, fun a ha => ?_⟩
    cases ha
    exact show numberOf ['2'] < 2 ^ 32 by decide
  have hread : directive (Written.render ⟨[], .none, some (.digits ['2']), .int, 's'⟩ ++ [NUL])
      [.int 0] = some (⟨{ precision := true }, 0, 2, 's'⟩, [NUL], [.int 0]) := rfl
  intro heq
  exact ((stringText_standard_iff hw hsmall hread rfl rfl (by decide)).mp heq).1
    ⟨rfl, by decide, .inl rfl⟩

end

end Format
end DeliceOS
