import DeliceOS.Printf.Text

/-!
# Printf.Grammar

The directives as they are written: `%[flags][width][.precision][length]specifier`. Every field is
as long as it can be, so a character behind it must not continue it.

* `directive_iff`: a directive is read exactly from its written form, and nothing behind the
  specifier is looked at.
* `directive_local`: what follows a directive has no part in reading it.
* `directive_precision`: a precision is set with its flag.
* `directive_standard`: what is read is what the C standard has a directive mean, but for a negative
  precision, which the standard leaves out and the code takes for 0.
-/

namespace DeliceOS
namespace Format

/-! ## The written form -/

def isFlag (c : Char) : Bool := c == '0' || c == '-' || c == '+' || c == ' ' || c == '#'

def setFlag (flags : Flags) (c : Char) : Flags :=
  if c = '0' then { flags with zeropad := true }
  else if c = '-' then { flags with left := true }
  else if c = '+' then { flags with plus := true }
  else if c = ' ' then { flags with space := true }
  else if c = '#' then { flags with hash := true }
  else flags

/-- A width, or a precision behind its point. -/
inductive Amount where
  | none
  | digits (ds : List Char)
  | star
  deriving DecidableEq, Repr

inductive Size where
  | int | long | longLong | short | char | ptrdiff | intmax | size
  deriving DecidableEq, Repr

structure Written where
  flags : List Char
  width : Amount
  precision : Option Amount -- none without a point
  size : Size
  specifier : Char
  deriving DecidableEq, Repr

def Amount.render : Amount → List Char
  | .none => []
  | .digits ds => ds
  | .star => ['*']

/-- The characters that would continue an amount. -/
def Amount.continued : Amount → Char → Bool
  | .none, c => isDigit c || c == '*'
  | .digits _, c => isDigit c
  | .star, _ => false

def Amount.Ok : Amount → Prop
  | .digits ds => ds ≠ [] ∧ ∀ c ∈ ds, isDigit c
  | _ => True

def Size.render : Size → List Char
  | .int => []
  | .long => ['l']
  | .longLong => ['l', 'l']
  | .short => ['h']
  | .char => ['h', 'h']
  | .ptrdiff => ['t']
  | .intmax => ['j']
  | .size => ['z']

def Size.continued : Size → Char → Bool
  | .int, c => c == 'l' || c == 'h' || c == 't' || c == 'j' || c == 'z'
  | .long, c => c == 'l'
  | .short, c => c == 'h'
  | _, _ => false

def Size.apply (flags : Flags) : Size → Flags
  | .int => flags
  | .long | .ptrdiff | .intmax | .size => { flags with long := true }
  | .longLong => { flags with long := true, longLong := true }
  | .short => { flags with short := true }
  | .char => { flags with short := true, char := true }

/-- The text does not start with a character that `p` holds of. -/
def Stops (p : Char → Bool) (s : List Char) : Prop := ∀ c t, s = c :: t → p c = false

namespace Written

variable (w : Written)

def afterPrecision : List Char := w.size.render ++ [w.specifier]

def afterWidth : List Char :=
  match w.precision with
  | none => w.afterPrecision
  | some a => '.' :: (a.render ++ w.afterPrecision)

def afterFlags : List Char := w.width.render ++ w.afterWidth

def render : List Char := w.flags ++ w.afterFlags

/-- Each field is well formed and ends where the next one starts. -/
structure Ok : Prop where
  flags : (∀ c ∈ w.flags, isFlag c) ∧ Stops isFlag w.afterFlags
  width : w.width.Ok ∧ Stops w.width.continued w.afterWidth
  precision :
    match w.precision with
    | none => Stops (· == '.') w.afterPrecision
    | some a => a.Ok ∧ Stops a.continued w.afterPrecision
  size : w.size.continued w.specifier = false

/-- The width and the flags a written width stands for. -/
def widthOf (flags : Flags) (va : Va) : Amount → Option (Flags × Nat × Va)
  | .none => some (flags, 0, va)
  | .digits ds => some (flags, (atoi ds).1, va)
  | .star =>
    va.int.map fun p =>
      let w := p.1.setWidth 32
      if w.slt 0 then ({ flags with left := true }, (0 - w).toNat, p.2) else (flags, w.toNat, p.2)

def precisionOf (va : Va) : Amount → Option (Nat × Va)
  | .none => some (0, va)
  | .digits ds => some ((atoi ds).1, va)
  | .star =>
    va.int.map fun p =>
      let prec := p.1.setWidth 32
      (if (0#32).slt prec then prec.toNat else 0, p.2)

/-- What a written directive stands for. -/
def denote (va : Va) : Option (Directive × Va) :=
  (widthOf (w.flags.foldl setFlag {}) va w.width).bind fun p =>
    match w.precision with
    | none => some (⟨w.size.apply p.1, p.2.1, 0, w.specifier⟩, p.2.2)
    | some a =>
      (precisionOf p.2.2 a).map fun q =>
        (⟨w.size.apply { p.1 with precision := true }, p.2.1, q.1, w.specifier⟩, q.2)

end Written

/-! ## The fields one by one -/

section

variable {p : Char → Bool} {s t ds format rest : List Char} {flags : Flags} {va va' : Va} {c : Char}

theorem stops_cons : Stops p (c :: s) ↔ p c = false := by
  constructor
  · exact fun h => h c s rfl
  · rintro h c' t' heq
    cases heq
    exact h

theorem stops_append (hs : s ≠ []) : Stops p (s ++ t) ↔ Stops p s := by
  cases s with
  | nil => exact absurd rfl hs
  | cons c s => rw [List.cons_append, stops_cons, stops_cons]

theorem dot_of_not_stops (h : ¬ Stops (· == '.') s) : ∃ t, s = '.' :: t := by
  cases s with
  | nil => exact absurd (fun _ _ h => by cases h) h
  | cons c s =>
    rw [stops_cons] at h
    exact ⟨s, by simpa using h⟩

theorem evalFlags_cons (flags : Flags) (c : Char) (s : List Char) :
    evalFlags flags (c :: s) = if isFlag c then evalFlags (setFlag flags c) s else (flags, c :: s) := by
  unfold isFlag setFlag
  conv_lhs => unfold evalFlags
  split <;> simp_all

theorem evalFlags_render (hds : ∀ c ∈ ds, isFlag c) (hs : Stops isFlag s) (flags : Flags) :
    evalFlags flags (ds ++ s) = (ds.foldl setFlag flags, s) := by
  induction ds generalizing flags with
  | nil =>
    cases s with
    | nil => rfl
    | cons c s =>
      rw [List.nil_append, evalFlags_cons, if_neg (by simp [stops_cons.mp hs]), List.foldl_nil]
  | cons c ds ih =>
    rw [List.cons_append, evalFlags_cons, if_pos (hds c List.mem_cons_self),
      ih (fun c hc => hds c (List.mem_cons_of_mem _ hc)), List.foldl_cons]

theorem atoiFrom_render (ds : List Char) (hds : ∀ c ∈ ds, isDigit c) (hs : Stops isDigit s) (i : Nat) :
    atoiFrom i (ds ++ s) = ((atoiFrom i ds).1, s) := by
  induction ds generalizing i with
  | nil =>
    cases s with
    | nil => rfl
    | cons c s =>
      show atoiFrom i (c :: s) = (i, c :: s)
      rw [atoiFrom, if_neg (by simp [stops_cons.mp hs])]
  | cons c ds ih =>
    have hc := hds c List.mem_cons_self
    rw [List.cons_append, atoiFrom, if_pos hc, ih (fun c hc => hds c (List.mem_cons_of_mem _ hc)),
      atoiFrom, if_pos hc]

theorem isDigit_ne_star (h : isDigit c) : c ≠ '*' := by
  rintro rfl
  exact absurd h (by decide)

/-- A text is a run of characters that `p` holds of, and a rest. -/
theorem run_written (p : Char → Bool) (format : List Char) :
    ∃ ds s, format = ds ++ s ∧ (∀ c ∈ ds, p c) ∧ Stops p s := by
  induction format with
  | nil => exact ⟨[], [], rfl, by simp, by simp [Stops]⟩
  | cons c format ih =>
    obtain ⟨ds, s, rfl, hds, hs⟩ := ih
    cases hc : p c with
    | true => exact ⟨c :: ds, s, rfl, by simpa [hc] using hds, hs⟩
    | false => exact ⟨[], c :: (ds ++ s), rfl, by simp, stops_cons.mpr hc⟩

/-- Every text starts with an amount. -/
theorem amount_written (format : List Char) :
    ∃ a s, format = Amount.render a ++ s ∧ a.Ok ∧ Stops a.continued s := by
  cases format with
  | nil => exact ⟨.none, [], rfl, trivial, by simp [Stops]⟩
  | cons c format =>
    by_cases hstar : c = '*'
    · exact ⟨.star, format, by rw [hstar]; rfl, trivial, fun _ _ _ => rfl⟩
    · obtain ⟨ds, s, heq, hds, hs⟩ := run_written isDigit (c :: format)
      by_cases hnil : ds = []
      · refine ⟨.none, c :: format, rfl, trivial, stops_cons.mpr ?_⟩
        rw [hnil, List.nil_append] at heq
        rw [← heq] at hs
        simp [Amount.continued, stops_cons.mp hs, hstar]
      · exact ⟨.digits ds, s, heq, ⟨hnil, hds⟩, hs⟩

theorem evalWidth_render {a : Amount} (ha : a.Ok) (hs : Stops a.continued s)
    (hne : a = .none → s ≠ []) (flags : Flags) (va : Va) :
    evalWidth flags (a.render ++ s) va =
      (Written.widthOf flags va a).map fun p => ⟨p.1, p.2.1, 0, s, p.2.2⟩ := by
  cases a with
  | none =>
    cases s with
    | nil => exact absurd rfl (hne rfl)
    | cons c s =>
      have hc := stops_cons.mp hs
      simp only [Amount.continued, Bool.or_eq_false_iff, beq_eq_false_iff_ne] at hc
      simp [Amount.render, evalWidth, Written.widthOf, hc]
  | digits ds =>
    cases ds with
    | nil => exact absurd rfl ha.1
    | cons c ds =>
      have hc := ha.2 c List.mem_cons_self
      have hstar := isDigit_ne_star hc
      have hatoi : atoi (c :: (ds ++ s)) = ((atoi (c :: ds)).1, s) :=
        atoiFrom_render (c :: ds) ha.2 hs 0
      simp [Amount.render, evalWidth, Written.widthOf, hc, hatoi]
  | star =>
    unfold evalWidth Written.widthOf
    cases va.int with
    | none => rfl
    | some p =>
      simp only [Amount.render, List.cons_append, List.nil_append, Option.map_some]
      split <;> rfl

/-- A precision that is no star. -/
theorem evalPrecision_atoi {f : Fields} (hf : f.format = '.' :: s) (hs : Stops (· == '*') s) :
    evalPrecision f = some { f with
      flags := { f.flags with precision := true }
      precision := (atoi s).1
      format := (atoi s).2 } := by
  unfold evalPrecision
  rw [hf]
  split
  · rename_i h
    rw [List.cons.injEq] at h
    exact absurd (hs _ _ h.2) (by decide)
  · rename_i h
    rw [List.cons.injEq] at h
    rw [h.2]
  · rename_i h
    exact absurd rfl (h s)

theorem evalPrecision_render {a : Amount} {f : Fields} (ha : a.Ok) (hs : Stops a.continued s)
    (hf : f.format = '.' :: (a.render ++ s)) :
    evalPrecision f =
      (Written.precisionOf f.va a).map fun p =>
        ⟨{ f.flags with precision := true }, f.width, p.1, s, p.2⟩ := by
  cases a with
  | none =>
    have hs' : Stops isDigit s ∧ Stops (· == '*') s := by
      constructor
      · intro c t h
        exact (Bool.or_eq_false_iff.mp (hs c t h)).1
      · intro c t h
        exact (Bool.or_eq_false_iff.mp (hs c t h)).2
    have hatoi : atoi s = (0, s) := atoiFrom_render [] (by simp) hs'.1 0
    rw [evalPrecision_atoi hf hs'.2]
    simp [Written.precisionOf, Amount.render, hatoi]
  | digits ds =>
    cases ds with
    | nil => exact absurd rfl ha.1
    | cons c ds =>
      have hstar := isDigit_ne_star (ha.2 c List.mem_cons_self)
      have hatoi : atoi (c :: (ds ++ s)) = ((atoi (c :: ds)).1, s) :=
        atoiFrom_render (c :: ds) ha.2 hs 0
      rw [evalPrecision_atoi hf (stops_cons.mpr (by simpa using hstar))]
      simp [Written.precisionOf, Amount.render, hatoi]
  | star =>
    unfold evalPrecision Written.precisionOf
    rw [hf]
    simp only [Amount.render, List.cons_append, List.nil_append]
    cases f.va.int with
    | none => rfl
    | some p => rfl

theorem evalPrecision_none {f : Fields} (hs : Stops (· == '.') f.format) :
    evalPrecision f = some f := by
  unfold evalPrecision
  split
  · rename_i h
    exact absurd (hs _ _ h) (by decide)
  · rename_i h
    exact absurd (hs _ _ h) (by decide)
  · rfl

theorem evalLength_render {z : Size} (hc : z.continued c = false) (flags : Flags) (rest : List Char) :
    evalLength flags (z.render ++ c :: rest) = (z.apply flags, c :: rest) := by
  cases z with
  | int =>
    simp only [Size.continued, Bool.or_eq_false_iff, beq_eq_false_iff_ne] at hc
    unfold evalLength
    split <;> simp_all [Size.render, Size.apply]
  | long =>
    simp only [Size.continued, beq_eq_false_iff_ne] at hc
    unfold evalLength
    split <;> simp_all [Size.render, Size.apply]
  | short =>
    simp only [Size.continued, beq_eq_false_iff_ne] at hc
    unfold evalLength
    split <;> simp_all [Size.render, Size.apply]
  | longLong => rfl
  | char => rfl
  | ptrdiff => rfl
  | intmax => rfl
  | size => rfl

/-- Every text that has a character behind its size starts with a size. -/
theorem size_written (h : (evalLength flags format).2 = c :: rest) :
    ∃ z : Size, format = z.render ++ c :: rest ∧ z.continued c = false := by
  unfold evalLength at h
  split at h
  · exact ⟨.longLong, by rw [← h]; rfl, rfl⟩
  · rename_i rest' hne
    refine ⟨.long, by rw [← h]; rfl, ?_⟩
    simpa [Size.continued] using fun hc : c = 'l' => hne rest (by rw [← hc]; exact h)
  · exact ⟨.char, by rw [← h]; rfl, rfl⟩
  · rename_i rest' hne
    refine ⟨.short, by rw [← h]; rfl, ?_⟩
    simpa [Size.continued] using fun hc : c = 'h' => hne rest (by rw [← hc]; exact h)
  · exact ⟨.ptrdiff, by rw [← h]; rfl, rfl⟩
  · exact ⟨.intmax, by rw [← h]; rfl, rfl⟩
  · exact ⟨.size, by rw [← h]; rfl, rfl⟩
  · rename_i hl hl' hh hh' ht hj hz
    refine ⟨.int, h, ?_⟩
    have hne : ∀ x : Char, (∀ t, format = x :: t → False) → c ≠ x := by
      rintro x hx rfl
      exact hx rest h
    simp [Size.continued, hne 'l' hl', hne 'h' hh', hne 't' ht, hne 'j' hj, hne 'z' hz]

/-! ## The whole directive -/

theorem directive_eq (hds : ∀ c ∈ ds, isFlag c) (hs : Stops isFlag s) (va : Va) :
    directive (ds ++ s) va =
      ((evalWidth (ds.foldl setFlag {}) s va).bind evalPrecision).bind evalSpecifier := by
  simp only [directive, evalFlags_render hds hs]

/-- The last step of reading a directive, from its size on. -/
theorem evalSpecifier_render {f : Fields} {z : Size} (hc : z.continued c = false)
    (hf : f.format = z.render ++ c :: rest) :
    evalSpecifier f = some (⟨z.apply f.flags, f.width, f.precision, c⟩, rest, f.va) := by
  unfold evalSpecifier
  rw [hf, evalLength_render hc]

theorem specifier_written {f : Fields} {d : Directive} (h : evalSpecifier f = some (d, rest, va')) :
    ∃ (z : Size) (c : Char), f.format = z.render ++ c :: rest ∧ z.continued c = false := by
  unfold evalSpecifier at h
  split at h
  · cases h
  · rename_i c format hlen
    cases h
    obtain ⟨z, hz, hcont⟩ := size_written (congrArg Prod.snd hlen)
    exact ⟨z, c, hz, hcont⟩

theorem afterPrecision_ne (w : Written) : w.afterPrecision ≠ [] := by
  simp [Written.afterPrecision]

theorem afterWidth_ne (w : Written) : w.afterWidth ≠ [] := by
  unfold Written.afterWidth
  split
  · exact afterPrecision_ne w
  · exact List.cons_ne_nil _ _

theorem afterFlags_ne (w : Written) : w.afterFlags ≠ [] := by
  simp [Written.afterFlags, afterWidth_ne]

theorem directive_render {w : Written} (hw : w.Ok) (va : Va) (rest : List Char) :
    directive (w.render ++ rest) va = (w.denote va).map fun p => (p.1, rest, p.2) := by
  have hflags : Stops isFlag (w.afterFlags ++ rest) := (stops_append (afterFlags_ne w)).mpr hw.flags.2
  have hwidth : Stops w.width.continued (w.afterWidth ++ rest) :=
    (stops_append (afterWidth_ne w)).mpr hw.width.2
  have hsize : w.afterPrecision ++ rest = w.size.render ++ w.specifier :: rest := by
    simp [Written.afterPrecision]
  have hne : w.width = .none → w.afterWidth ++ rest ≠ [] := fun _ h =>
    afterWidth_ne w (List.append_eq_nil_iff.mp h).1
  rw [Written.render, List.append_assoc, directive_eq hw.flags.1 hflags, Written.afterFlags,
    List.append_assoc, evalWidth_render hw.width.1 hwidth hne, Written.denote]
  cases Written.widthOf (w.flags.foldl setFlag {}) va w.width with
  | none => rfl
  | some p =>
    simp only [Option.map_some, Option.bind_some]
    have hprec := hw.precision
    cases hp : w.precision with
    | none =>
      rw [hp] at hprec
      have hstop : Stops (· == '.') (w.afterPrecision ++ rest) :=
        (stops_append (afterPrecision_ne w)).mpr hprec
      have hafter : w.afterWidth = w.afterPrecision := by rw [Written.afterWidth, hp]
      rw [hafter, evalPrecision_none hstop, Option.bind_some, evalSpecifier_render hw.size hsize]
      rfl
    | some a =>
      rw [hp] at hprec
      have hstop : Stops a.continued (w.afterPrecision ++ rest) :=
        (stops_append (afterPrecision_ne w)).mpr hprec.2
      have hafter : w.afterWidth ++ rest = '.' :: (a.render ++ (w.afterPrecision ++ rest)) := by
        simp [Written.afterWidth, hp]
      rw [hafter, evalPrecision_render hprec.1 hstop rfl]
      cases hq : Written.precisionOf p.2.2 a with
      | none => simp [hq]
      | some q =>
        simp only [hq, Option.map_some, Option.bind_some]
        exact evalSpecifier_render hw.size hsize

theorem directive_written {d : Directive} (h : directive format va = some (d, rest, va')) :
    ∃ w : Written, w.Ok ∧ format = w.render ++ rest := by
  obtain ⟨fl, s₁, rfl, hfl, hstop₁⟩ := run_written isFlag format
  obtain ⟨a, s₂, rfl, ha, hstop₂⟩ := amount_written s₁
  rw [directive_eq hfl hstop₁, Option.bind_eq_some_iff] at h
  obtain ⟨f, hf, hspec⟩ := h
  rw [Option.bind_eq_some_iff] at hf
  obtain ⟨f₁, hwidth, hprec⟩ := hf
  obtain ⟨z, c, hz, hcont⟩ := specifier_written hspec
  have hne : a = .none → s₂ ≠ [] := by
    rintro rfl rfl
    cases hwidth
  rw [evalWidth_render ha hstop₂ hne, Option.map_eq_some_iff] at hwidth
  obtain ⟨p, -, rfl⟩ := hwidth
  by_cases hdot : Stops (· == '.') s₂
  · rw [evalPrecision_none hdot] at hprec
    cases hprec
    have hs₂ : s₂ = (z.render ++ [c]) ++ rest := by simpa using hz
    rw [hs₂, ← List.append_assoc] at hstop₁
    rw [hs₂] at hstop₂ hdot ⊢
    have hafter : z.render ++ [c] ≠ [] := by simp
    refine ⟨⟨fl, a, none, z, c⟩, ⟨⟨hfl, ?_⟩, ⟨ha, ?_⟩, ?_, hcont⟩, ?_⟩
    · exact (stops_append (t := rest) (afterFlags_ne ⟨fl, a, none, z, c⟩)).mp hstop₁
    · exact (stops_append hafter).mp hstop₂
    · exact (stops_append hafter).mp hdot
    · simp [Written.render, Written.afterFlags, Written.afterWidth, Written.afterPrecision]
  · obtain ⟨s₃, rfl⟩ := dot_of_not_stops hdot
    obtain ⟨b, s₄, rfl, hb, hstop₃⟩ := amount_written s₃
    rw [evalPrecision_render hb hstop₃ rfl, Option.map_eq_some_iff] at hprec
    obtain ⟨q, -, rfl⟩ := hprec
    have hs₄ : s₄ = (z.render ++ [c]) ++ rest := by simpa using hz
    rw [hs₄] at hstop₁ hstop₂ hstop₃ ⊢
    have hafter : z.render ++ [c] ≠ [] := by simp
    refine ⟨⟨fl, a, some b, z, c⟩, ⟨⟨hfl, ?_⟩, ⟨ha, stops_cons.mpr (stops_cons.mp hstop₂)⟩,
      ⟨hb, (stops_append hafter).mp hstop₃⟩, hcont⟩, ?_⟩
    · refine (stops_append (t := rest) (afterFlags_ne _)).mp ?_
      simpa [Written.afterFlags, Written.afterWidth, Written.afterPrecision] using hstop₁
    · simp [Written.render, Written.afterFlags, Written.afterWidth, Written.afterPrecision]

theorem directive_denote {d : Directive} (h : directive format va = some (d, rest, va')) :
    ∃ w : Written, w.Ok ∧ format = w.render ++ rest ∧ w.denote va = some (d, va') := by
  obtain ⟨w, hw, rfl⟩ := directive_written h
  rw [directive_render hw, Option.map_eq_some_iff] at h
  obtain ⟨q, hq, heq⟩ := h
  cases heq
  exact ⟨w, hw, rfl, hq⟩

/-- A directive is read exactly from its written form, whatever follows. -/
theorem directive_iff {d : Directive} :
    directive format va = some (d, rest, va') ↔
      ∃ w : Written, w.Ok ∧ format = w.render ++ rest ∧ w.denote va = some (d, va') := by
  constructor
  · exact directive_denote
  · rintro ⟨w, hw, rfl, hdenote⟩
    rw [directive_render hw, hdenote, Option.map_some]

theorem denote_specifier {w : Written} {d : Directive} (h : w.denote va = some (d, va')) :
    d.specifier = w.specifier := by
  unfold Written.denote at h
  rw [Option.bind_eq_some_iff] at h
  obtain ⟨p, -, h⟩ := h
  split at h
  · cases h
    rfl
  · rw [Option.map_eq_some_iff] at h
    obtain ⟨q, -, h⟩ := h
    cases h
    rfl

/-- Nothing behind the specifier has a part in reading a directive. -/
theorem directive_local {d : Directive} (h : directive format va = some (d, rest, va')) :
    ∃ w : Written, w.Ok ∧ format = w.render ++ rest ∧ w.specifier = d.specifier ∧
      ∀ rest', directive (w.render ++ rest') va = some (d, rest', va') := by
  obtain ⟨w, hw, rfl, hdenote⟩ := directive_denote h
  refine ⟨w, hw, rfl, (denote_specifier hdenote).symm, fun rest' => ?_⟩
  rw [directive_render hw, hdenote, Option.map_some]

theorem apply_precision (flags : Flags) (z : Size) :
    (z.apply flags).precision = flags.precision := by
  cases z <;> rfl

/-- A directive has a precision only with the flag of one. -/
theorem directive_precision {d : Directive} (h : directive format va = some (d, rest, va'))
    (hp : d.flags.precision = false) : d.precision = 0 := by
  obtain ⟨w, -, -, hdenote⟩ := directive_denote h
  unfold Written.denote at hdenote
  rw [Option.bind_eq_some_iff] at hdenote
  obtain ⟨p, -, hdenote⟩ := hdenote
  split at hdenote
  · cases hdenote
    rfl
  · rw [Option.map_eq_some_iff] at hdenote
    obtain ⟨q, -, hdenote⟩ := hdenote
    cases hdenote
    rw [apply_precision] at hp
    cases hp

end

/-! ## As the C standard has it -/

/-- The number that digits write. -/
def numberOf (ds : List Char) : Nat := ds.foldl (fun i c => i * 10 + (c.toNat - '0'.toNat)) 0

/-- A number that is written fits in an `unsigned int`. -/
def Amount.Small : Amount → Prop
  | .digits ds => numberOf ds < 2 ^ 32
  | _ => True

namespace Written

variable (w : Written)

structure Small : Prop where
  width : w.width.Small
  precision : ∀ a ∈ w.precision, a.Small

/-- A negative `*` is a `-` and a width. -/
def standardWidth (flags : Flags) (va : Va) : Amount → Option (Flags × Nat × Va)
  | .none => some (flags, 0, va)
  | .digits ds => some (flags, numberOf ds, va)
  | .star =>
    va.int.map fun p =>
      let i := (p.1.setWidth 32).toInt
      if i < 0 then ({ flags with left := true }, (-i).toNat, p.2) else (flags, i.toNat, p.2)

/-- A negative `*` is no precision. -/
def standardPrecision (va : Va) : Amount → Option (Option Nat × Va)
  | .none => some (some 0, va)
  | .digits ds => some (some (numberOf ds), va)
  | .star =>
    va.int.map fun p =>
      let i := (p.1.setWidth 32).toInt
      (if i < 0 then none else some i.toNat, p.2)

/-- What the standard has a written directive stand for. -/
def standard (va : Va) : Option (Directive × Va) :=
  (standardWidth (w.flags.foldl setFlag {}) va w.width).bind fun p =>
    match w.precision with
    | none => some (⟨w.size.apply p.1, p.2.1, 0, w.specifier⟩, p.2.2)
    | some a =>
      (standardPrecision p.2.2 a).map fun q =>
        match q.1 with
        | none => (⟨w.size.apply p.1, p.2.1, 0, w.specifier⟩, q.2)
        | some precision =>
          (⟨w.size.apply { p.1 with precision := true }, p.2.1, precision, w.specifier⟩, q.2)

end Written

/-- `d` is what the code reads where `s` is meant. -/
inductive ReadFor (s : Directive) : Directive → Prop where
  | same : ReadFor s s
  | omitted : s.flags.precision = false → s.precision = 0 →
      ReadFor s { s with flags := { s.flags with precision := true } }

/-- The precision of `d` is one that the standard omits: its `*` is negative. -/
def Omitted (d s : Directive) : Prop := d.flags.precision = true ∧ s.flags.precision = false

section

variable {ds : List Char} {a : Amount} {w : Written} {va va' : Va} {d : Directive}

theorem not_omitted_self (d : Directive) : ¬ Omitted d d := by
  rintro ⟨hp, hp'⟩
  rw [hp] at hp'
  cases hp'

theorem atoiFrom_digits (hds : ∀ c ∈ ds, isDigit c) (i : Nat) :
    (atoiFrom (i % 2 ^ 32) ds).1 =
      ds.foldl (fun i c => i * 10 + (c.toNat - '0'.toNat)) i % 2 ^ 32 := by
  induction ds generalizing i with
  | nil => rfl
  | cons c ds ih =>
    rw [atoiFrom, if_pos (hds c List.mem_cons_self), List.foldl_cons,
      ← ih fun c hc => hds c (List.mem_cons_of_mem _ hc)]
    congr 2
    omega

theorem atoi_digits (hds : ∀ c ∈ ds, isDigit c) (hsmall : numberOf ds < 2 ^ 32) :
    (atoi ds).1 = numberOf ds := by
  have h := atoiFrom_digits hds 0
  rwa [Nat.zero_mod, ← numberOf, Nat.mod_eq_of_lt hsmall] at h

theorem toNat_of_nonneg {i : BitVec 32} (h : ¬ i.toInt < 0) : i.toNat = i.toInt.toNat := by
  have hcond := BitVec.toInt_eq_toNat_cond i
  split at hcond <;> omega

theorem toNat_neg {i : BitVec 32} (h : i.toInt < 0) : (0 - i).toNat = (-i.toInt).toNat := by
  have hcond := BitVec.toInt_eq_toNat_cond i
  have hsub : (0 - i).toNat = (2 ^ 32 - i.toNat + 0) % 2 ^ 32 := BitVec.toNat_sub 0 i
  have hlt := i.isLt
  rw [hsub]
  split at hcond <;> omega

theorem widthOf_eq (ha : a.Ok) (hsmall : a.Small) (flags : Flags) (va : Va) :
    Written.widthOf flags va a = Written.standardWidth flags va a := by
  cases a with
  | none => rfl
  | digits ds => rw [Written.widthOf, Written.standardWidth, atoi_digits ha.2 hsmall]
  | star =>
    unfold Written.widthOf Written.standardWidth
    cases va.int with
    | none => rfl
    | some p =>
      have hslt : ((p.1.setWidth 32).slt 0 = true) = ((p.1.setWidth 32).toInt < 0) := by
        rw [BitVec.slt_eq_decide, decide_eq_true_eq]
        rfl
      simp only [Option.map_some, hslt]
      split
      · rename_i hneg
        rw [toNat_neg hneg]
      · rename_i hpos
        rw [toNat_of_nonneg hpos]

theorem precisionOf_eq (ha : a.Ok) (hsmall : a.Small) (va : Va) :
    Written.precisionOf va a = (Written.standardPrecision va a).map fun p => (p.1.getD 0, p.2) := by
  cases a with
  | none => rfl
  | digits ds => rw [Written.precisionOf, Written.standardPrecision, atoi_digits ha.2 hsmall]; rfl
  | star =>
    unfold Written.precisionOf Written.standardPrecision
    cases va.int with
    | none => rfl
    | some p =>
      have hslt : ((0#32).slt (p.1.setWidth 32) = true) = (0 < (p.1.setWidth 32).toInt) := by
        rw [BitVec.slt_eq_decide, decide_eq_true_eq]
        rfl
      simp only [Option.map_some, hslt]
      by_cases hneg : (p.1.setWidth 32).toInt < 0
      · rw [if_neg (by omega), if_pos hneg, Option.getD_none]
      · have hnat := toNat_of_nonneg hneg
        rw [if_neg hneg, Option.getD_some, ← hnat]
        split
        · rfl
        · congr 2
          omega

theorem foldl_setFlag_precision (ds : List Char) (flags : Flags) :
    (ds.foldl setFlag flags).precision = flags.precision := by
  induction ds generalizing flags with
  | nil => rfl
  | cons c ds ih =>
    rw [List.foldl_cons, ih]
    unfold setFlag
    repeat' split
    all_goals rfl

theorem standardWidth_precision {flags : Flags} {p : Flags × Nat × Va}
    (h : Written.standardWidth flags va a = some p) : p.1.precision = flags.precision := by
  cases a with
  | none => cases h; rfl
  | digits ds => cases h; rfl
  | star =>
    obtain ⟨q, -, rfl⟩ := Option.map_eq_some_iff.mp h
    dsimp only
    split <;> rfl

theorem apply_set_precision (flags : Flags) (z : Size) :
    z.apply { flags with precision := true } = { z.apply flags with precision := true } := by
  cases z <;> rfl

/-- A directive is read for what the standard has it mean, and takes the same arguments. -/
theorem directive_standard (hw : w.Ok) (hsmall : w.Small) {rest : List Char}
    (h : directive (w.render ++ rest) va = some (d, rest, va')) :
    ∃ s, w.standard va = some (s, va') ∧ ReadFor s d := by
  rw [directive_render hw, Option.map_eq_some_iff] at h
  obtain ⟨⟨d', va₁⟩, hdenote, heq⟩ := h
  cases heq
  unfold Written.denote at hdenote
  rw [widthOf_eq hw.width.1 hsmall.width, Option.bind_eq_some_iff] at hdenote
  obtain ⟨p, hp, hdenote⟩ := hdenote
  have hnone : (w.size.apply p.1).precision = false := by
    rw [apply_precision, standardWidth_precision hp, foldl_setFlag_precision]
  unfold Written.standard
  rw [hp, Option.bind_some]
  have hprec := hw.precision
  cases hwp : w.precision with
  | none =>
    rw [hwp] at hdenote
    cases hdenote
    exact ⟨_, rfl, .same⟩
  | some a =>
    rw [hwp] at hdenote hprec
    dsimp only at hdenote hprec ⊢
    rw [precisionOf_eq hprec.1 (hsmall.precision a hwp), Option.map_eq_some_iff] at hdenote
    obtain ⟨_, hq, heq⟩ := hdenote
    cases heq
    obtain ⟨⟨precision, va₂⟩, hstd, rfl⟩ := Option.map_eq_some_iff.mp hq
    rw [hstd, Option.map_some]
    cases precision with
    | none =>
      refine ⟨_, rfl, ?_⟩
      rw [apply_set_precision]
      exact .omitted hnone rfl
    | some precision => exact ⟨_, rfl, .same⟩

end

end Format
end DeliceOS
