import DeliceOS.Printf.Format

/-!
# Printf.Text

What a format means: the text of a directive, and of a format the texts of its characters and
directives in order. The text does not depend on where it goes.

* `convert_eq`: a conversion emits the text of its directive.
* `Prints.append`: the texts of the parts of a format are appended.
* `formatLoop_eq_some_iff`: the loop emits the text of its format, and faults when there is none.
* `vsnprintf_eq_some_iff`: the same of a whole call, with the terminator and the return value.
-/

namespace DeliceOS
namespace Format

open Base Emit

/-- The characters `outString` sends. -/
def stringText (flags : Flags) : List Char → Nat → Option (List Char)
  | [], _ => none
  | c :: p, precision =>
    if c = NUL then some []
    else if flags.precision ∧ precision = 0 then some []
    else (stringText flags p (precision - 1)).map (c :: ·)

/-- `t` in a field of spaces for a length of `l`. -/
def inField (t : List Char) (l width : Nat) (flags : Flags) : List Char :=
  if flags.left then t ++ List.replicate (width - l) ' ' else List.replicate (width - l) ' ' ++ t

namespace Directive

def integerText (d : Directive) (w : BitVec 64) : List Char :=
  let flags := integerFlags d.specifier d.flags
  let v := integerValue d.specifier flags w
  numberText v.1 v.2 (integerBase d.specifier) d.precision d.width flags

def pointerText (d : Directive) (w : BitVec 64) : List Char :=
  numberText w false 16 d.precision pointerWidth (pointerFlags d.flags)

/-- The flags of the floating-point specifiers. -/
def doubleFlags (d : Directive) : Flags :=
  match conversion d.specifier with
  | .fixed => { d.flags with uppercase := d.flags.uppercase || d.specifier == 'F' }
  | _ =>
    { d.flags with
      adaptExp := d.flags.adaptExp || (d.specifier == 'g' || d.specifier == 'G')
      uppercase := d.flags.uppercase || (d.specifier == 'E' || d.specifier == 'G') }

/-- The text of a directive, and the arguments it leaves. -/
def text (env : Env) (d : Directive) (va : Va) : Option (List Char × Va) :=
  match conversion d.specifier with
  | .integer => va.int.map fun p => (d.integerText p.1, p.2)
  | .fixed => va.double.map fun p => (env.ftoa p.1 d.precision d.width d.doubleFlags, p.2)
  | .exponential => va.double.map fun p => (env.etoa p.1 d.precision d.width d.doubleFlags, p.2)
  | .char =>
    va.int.map fun p => (inField [Char.ofNat (p.1.setWidth 8).toNat] 1 d.width d.flags, p.2)
  | .string =>
    va.int.bind fun p =>
      (stringLength d.flags d.precision (env.str p.1)).bind fun l =>
        (stringText d.flags (env.str p.1) d.precision).map fun t =>
          (inField t l d.width d.flags, p.2)
  | .pointer => va.int.map fun p => (d.pointerText p.1, p.2)
  | .percent => some (['%'], va)
  | .other => some ([d.specifier], va)

end Directive

/-- `Prints env format va t va'`: the format read from `format` on has the text `t`, and leaves
the arguments `va'`. -/
inductive Prints (env : Env) : List Char → Va → List Char → Va → Prop where
  | done {format va} : Prints env (NUL :: format) va [] va
  | plain {c format va t va'} : c ≠ NUL → c ≠ '%' → Prints env format va t va' →
      Prints env (c :: format) va (c :: t) va'
  | directive {format rest d va va₁ va₂ va' t₁ t} : directive format va = some (d, rest, va₁) →
      d.text env va₁ = some (t₁, va₂) → Prints env rest va₂ t va' →
      Prints env ('%' :: format) va (t₁ ++ t) va'

theorem percent_ne_NUL : '%' ≠ NUL := by decide

section

variable {σ : Type} {put : Put Char σ} {env : Env} {d : Directive} {va va' : Va} {k k' : Cursor σ}
variable {format rest : List Char}

/-! ## A conversion emits the text of its directive -/

theorem outString_eq (flags : Flags) (p : List Char) (precision : Nat) (k : Cursor σ) :
    outString put flags p precision k = (stringText flags p precision).map (emit put · k) := by
  induction p generalizing precision k with
  | nil => rfl
  | cons c p ih =>
    rw [outString, stringText]
    by_cases hc : c = NUL
    · simp [hc]
    · by_cases hp : flags.precision ∧ precision = 0
      · simp [hc, hp]
      · rw [if_neg hc, if_neg hp, if_neg hc, if_neg hp, ih, Option.map_map]
        rfl

/-- The spaces before and after are those of the field. -/
theorem inField_emit (t : List Char) (l width : Nat) (flags : Flags) (k : Cursor σ) :
    emit put (inField t l width flags) k =
      (let k := emit put t (if !flags.left then spaces put (width - l) k else k)
       if flags.left then spaces put (width - l) k else k) := by
  unfold inField
  cases flags.left with
  | true => simp [emit_append, spaces_put]
  | false => simp [emit_append, spaces_put]

theorem integerBase_gt (c : Char) : 1 < integerBase c := by
  unfold integerBase
  grind

theorem integerBase_le (c : Char) : integerBase c ≤ 16 := by
  unfold integerBase
  grind

/-- The two functions for the two sizes of `long` have one body. -/
theorem ntoa_of_size (b : Bool) : (if b then ntoaLongLong put else ntoaLong put) = ntoa put :=
  ite_self _

theorem convertInteger_eq :
    convertInteger put d va k = va.int.map fun p => (emit put (d.integerText p.1) k, p.2) := by
  unfold convertInteger
  cases va.int with
  | none => rfl
  | some p =>
    have hbase := And.intro (integerBase_gt d.specifier) (integerBase_le d.specifier)
    dsimp only
    rw [ntoa_of_size, ntoa_emits _ _ hbase.1 hbase.2]
    rfl

theorem convertPointer_eq :
    convertPointer put d va k = va.int.map fun p => (emit put (d.pointerText p.1) k, p.2) := by
  unfold convertPointer
  cases va.int with
  | none => rfl
  | some p =>
    have hbase : 1 < 16 ∧ 16 ≤ 16 := by decide
    show (ntoa put p.1 false 16 d.precision pointerWidth (pointerFlags d.flags) k).map (·, p.2) = _
    rw [ntoa_emits _ _ hbase.1 hbase.2]
    rfl

theorem convertChar_eq :
    convertChar put d va k = va.int.map fun p =>
      (emit put (inField [Char.ofNat (p.1.setWidth 8).toNat] 1 d.width d.flags) k, p.2) := by
  unfold convertChar
  cases va.int with
  | none => rfl
  | some p =>
    rw [Option.map_some, inField_emit]
    rfl

theorem convertString_eq :
    convertString put env d va k = va.int.bind fun p =>
      (stringLength d.flags d.precision (env.str p.1)).bind fun l =>
        (stringText d.flags (env.str p.1) d.precision).map fun t =>
          (emit put (inField t l d.width d.flags) k, p.2) := by
  unfold convertString
  cases va.int with
  | none => rfl
  | some p =>
    simp only [Option.bind_some]
    cases stringLength d.flags d.precision (env.str p.1) with
    | none => rfl
    | some l =>
      simp only [Option.bind_some, outString_eq]
      cases stringText d.flags (env.str p.1) d.precision with
      | none => rfl
      | some t =>
        rw [Option.map_some, Option.map_some, inField_emit]

theorem convert_eq :
    convert put env d va k = (d.text env va).map fun p => (emit put p.1 k, p.2) := by
  unfold convert Directive.text Directive.doubleFlags
  cases conversion d.specifier with
  | integer => simp [convertInteger_eq, Function.comp_def]
  | fixed => cases h : va.double <;> simp [convertDouble, h]
  | exponential => cases h : va.double <;> simp [convertDouble, h]
  | char => simp [convertChar_eq, Function.comp_def]
  | string => simp [convertString_eq, Option.map_bind, Function.comp_def]
  | pointer => simp [convertPointer_eq, Function.comp_def]
  | percent => rfl
  | other => rfl

/-! ## Reading a directive -/

theorem atoiFrom_length (i : Nat) (str : List Char) : (atoiFrom i str).2.length ≤ str.length := by
  induction str generalizing i with
  | nil => exact Nat.le_refl _
  | cons c str ih =>
    rw [atoiFrom]
    split
    · exact Nat.le_succ_of_le (ih _)
    · exact Nat.le_refl _

theorem evalFlags_length (flags : Flags) (format : List Char) :
    (evalFlags flags format).2.length ≤ format.length := by
  fun_induction evalFlags flags format with
  | case1 _ _ ih => exact Nat.le_succ_of_le ih
  | case2 _ _ ih => exact Nat.le_succ_of_le ih
  | case3 _ _ ih => exact Nat.le_succ_of_le ih
  | case4 _ _ ih => exact Nat.le_succ_of_le ih
  | case5 _ _ ih => exact Nat.le_succ_of_le ih
  | case6 => exact Nat.le_refl _

theorem evalWidth_length {flags : Flags} {f : Fields} (h : evalWidth flags format va = some f) :
    f.format.length ≤ format.length := by
  unfold evalWidth at h
  split at h
  · split at h
    · cases h
    · dsimp only at h
      split at h
      · cases h; exact Nat.le_succ _
      · cases h; exact Nat.le_succ _
  · split at h
    · cases h; exact atoiFrom_length _ _
    · cases h; exact Nat.le_refl _
  · cases h

theorem evalPrecision_length {f f' : Fields} (h : evalPrecision f = some f') :
    f'.format.length ≤ f.format.length := by
  unfold evalPrecision at h
  split at h
  · rename_i hf
    split at h
    · cases h
    · cases h
      rw [hf]
      exact Nat.le_succ_of_le (Nat.le_succ _)
  · rename_i hf
    cases h
    rw [hf]
    exact Nat.le_succ_of_le (atoiFrom_length _ _)
  · cases h
    exact Nat.le_refl _

theorem evalLength_length (flags : Flags) (format : List Char) :
    (evalLength flags format).2.length ≤ format.length := by
  unfold evalLength
  split <;> simp only [List.length_cons] <;> omega

theorem evalSpecifier_length {f : Fields} (h : evalSpecifier f = some (d, rest, va')) :
    rest.length < f.format.length := by
  unfold evalSpecifier at h
  split at h
  · cases h
  · rename_i c rest' hlen
    cases h
    have hle := evalLength_length f.flags f.format
    rw [hlen, List.length_cons] at hle
    omega

theorem directive_length (h : directive format va = some (d, rest, va')) :
    rest.length < format.length := by
  unfold directive at h
  rw [Option.bind_eq_some_iff] at h
  obtain ⟨f, hf, hspec⟩ := h
  rw [Option.bind_eq_some_iff] at hf
  obtain ⟨f₀, hwidth, hprec⟩ := hf
  have h₁ := evalFlags_length {} format
  have h₂ := evalWidth_length hwidth
  have h₃ := evalPrecision_length hprec
  have h₄ := evalSpecifier_length hspec
  omega

/-! ## Runs of the loop -/

theorem formatLoop_of_prints {t : List Char} (h : Prints env format va t va') :
    ∀ (fuel : Nat) (k : Cursor σ), format.length ≤ fuel →
      formatLoop put env fuel format va k = some (emit put t k, va') := by
  induction h with
  | done =>
    intro fuel k hfuel
    cases fuel with
    | zero => exact absurd hfuel (by simp)
    | succ fuel => rw [formatLoop, if_pos rfl, emit_nil]
  | plain hnul hpercent _ ih =>
    intro fuel k hfuel
    cases fuel with
    | zero => exact absurd hfuel (by simp)
    | succ fuel =>
      rw [formatLoop, if_neg hnul, if_pos hpercent, ih fuel _ (Nat.le_of_succ_le_succ hfuel), emit_cons]
  | directive hdir htext _ ih =>
    intro fuel k hfuel
    cases fuel with
    | zero => exact absurd hfuel (by simp)
    | succ fuel =>
      have hlen := directive_length hdir
      rw [List.length_cons] at hfuel
      rw [formatLoop, if_neg percent_ne_NUL, if_neg (not_not_intro rfl), hdir]
      dsimp only
      rw [convert_eq, htext, Option.map_some]
      dsimp only
      rw [ih fuel _ (by omega), emit_append]

theorem prints_of_formatLoop (fuel : Nat) (format : List Char) (va : Va) (k : Cursor σ)
    (h : formatLoop put env fuel format va k = some (k', va')) :
    ∃ t, Prints env format va t va' ∧ k' = emit put t k := by
  induction fuel generalizing format va k with
  | zero => cases h
  | succ fuel ih =>
    cases format with
    | nil => cases h
    | cons c format =>
      rw [formatLoop] at h
      by_cases hnul : c = NUL
      · rw [if_pos hnul] at h
        cases h
        exact ⟨[], hnul ▸ .done, rfl⟩
      · rw [if_neg hnul] at h
        by_cases hpercent : c = '%'
        · rw [if_neg (not_not_intro hpercent)] at h
          split at h
          · cases h
          · rename_i d rest va₁ hdir
            split at h
            · cases h
            · rename_i k₁ va₂ hconv
              rw [convert_eq, Option.map_eq_some_iff] at hconv
              obtain ⟨⟨t₁, va₃⟩, htext, hk⟩ := hconv
              cases hk
              obtain ⟨t, ht, hk'⟩ := ih rest _ _ h
              rw [← emit_append] at hk'
              exact ⟨t₁ ++ t, hpercent ▸ .directive hdir htext ht, hk'⟩
        · rw [if_pos hpercent] at h
          obtain ⟨t, ht, rfl⟩ := ih format va _ h
          exact ⟨c :: t, .plain hnul hpercent ht, rfl⟩

/-- What the output function makes of a text and of the terminator. -/
def terminated (out : Out σ) (maxlen : Nat) (buffer : σ) (t : List Char) : σ :=
  out NUL (emit (fun c b i => out c b i maxlen) t ⟨buffer, 0⟩).buffer
    (if t.length < maxlen then t.length else sizeSub maxlen 1) maxlen

/-- `(int)idx` -/
def returned (t : List Char) : Int := (BitVec.ofNat 32 t.length).toInt

theorem vsnprintf_eq_some_iff {out : Out σ} {null : Bool} {buffer s : σ} {maxlen : Nat} {r : Int} :
    vsnprintf env out null buffer maxlen format va = some (r, s) ↔
      ∃ t va', Prints env format va t va' ∧ r = returned t ∧
        s = terminated (if null then outNull else out) maxlen buffer t := by
  unfold vsnprintf terminated
  dsimp only
  generalize (if null then outNull else out) = out'
  constructor
  · intro h
    split at h
    · cases h
    · rename_i k va' hloop
      obtain ⟨t, ht, rfl⟩ := prints_of_formatLoop _ _ _ _ hloop
      rw [emit_idx, Nat.zero_add] at h
      cases h
      exact ⟨t, va', ht, rfl, rfl⟩
  · rintro ⟨t, va', ht, rfl, rfl⟩
    rw [formatLoop_of_prints ht _ _ (Nat.le_refl _)]
    dsimp only
    rw [emit_idx, Nat.zero_add]
    rfl

end

end Format
end DeliceOS
