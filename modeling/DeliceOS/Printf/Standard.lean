import DeliceOS.Printf.Grammar

/-!
# Printf.Standard

The integer conversions beside those of the C standard. The array of 32 characters, the missing
zeros of a left-aligned precision and a negative precision that is read as 0 are where they differ.

* `numberText_eq`: the text of a conversion without `#`, sign, zeros and digits apart.
* `numberText_standard_iff`: when it is the text of the standard.
* `numberText_omitted_iff`: when it is, for a precision that the standard omits.
* `integerText_standard_iff`: when a directive without `#` has the text of the standard.
-/

namespace DeliceOS
namespace Format

/-- The digits of a value. A value of zero with a precision has none of its own. -/
def plainDigits (value : BitVec 64) (base : Nat) (flags : Flags) : List Char :=
  if flags.precision && value = 0 then [] else numeral flags.uppercase base value.toNat

/-- At least as many digits as the precision asks for. -/
def standardDigits (value : BitVec 64) (base prec : Nat) (flags : Flags) : List Char :=
  let ds := plainDigits value base flags
  if flags.precision then List.replicate (prec - ds.length) '0' ++ ds else ds

/-- `before` is the sign or the mark of `#`. The zeros of a field come after it. -/
def standardField (before ds : List Char) (width : Nat) (flags : Flags) : List Char :=
  let room := width - (before.length + ds.length)
  if flags.left then before ++ ds ++ List.replicate room ' '
  else if flags.zeropad && !flags.precision then before ++ (List.replicate room '0' ++ ds)
  else List.replicate room ' ' ++ (before ++ ds)

def standardText (value : BitVec 64) (negative : Bool) (base prec width : Nat) (flags : Flags) :
    List Char :=
  standardField (sign negative flags) (standardDigits value base prec flags) width flags

/-- The text of an integer directive without `#`. -/
def Directive.standardInteger (s : Directive) (arg : BitVec 64) : List Char :=
  let flags := integerFlags s.specifier s.flags
  let v := integerValue s.specifier flags arg
  standardText v.1 v.2 (integerBase s.specifier) s.precision s.width flags

/-- What every directive that is read satisfies: a precision is set with its flag. -/
structure Flags.Fits (flags : Flags) (prec : Nat) : Prop where
  precision : flags.precision = false → prec = 0
  zeropad : flags.precision = true → flags.zeropad = false

/-- `n` digits of the value and its sign, in an array of 32 characters. -/
structure Conforms (n : Nat) (sign : List Char) (prec width : Nat) (flags : Flags) : Prop where
  left : flags.left = true → prec ≤ n
  zeropad : flags.left = false → flags.zeropad = true → width ≤ ntoaBufferSize
  digits : max n prec ≤ ntoaBufferSize
  sign : max n prec = ntoaBufferSize → sign = [] ∨
    sign = [' '] ∧ ntoaBufferSize < width ∧ flags.left = false ∧ flags.zeropad = false

section

variable {value : BitVec 64} {negative : Bool} {base prec width : Nat} {flags : Flags}

/-! ## The text of a conversion, taken apart -/

theorem sign_length (negative : Bool) (flags : Flags) :
    (sign negative flags).length = if negative || (flags.plus || flags.space) then 1 else 0 := by
  unfold sign
  cases negative with
  | true => rfl
  | false =>
    cases flags.plus with
    | true => rfl
    | false =>
      cases flags.space with
      | true => rfl
      | false => rfl

theorem digitWidth_eq (negative : Bool) (width : Nat) (flags : Flags) :
    digitWidth negative width flags =
      if flags.left = false ∧ flags.zeropad = true then width - (sign negative flags).length
      else width := by
  rw [digitWidth, sign_length]
  cases flags.left with
  | true => simp
  | false =>
    cases flags.zeropad with
    | false => simp
    | true =>
      cases negative || (flags.plus || flags.space) with
      | false => simp
      | true =>
        by_cases hw : width = 0
        · simp [hw]
        · simp [hw]

/-- The leading zeros in the array. -/
def zeroCount (n prec width : Nat) (flags : Flags) : Nat :=
  if flags.left then 0
  else if flags.zeropad then max (min prec ntoaBufferSize) (min width ntoaBufferSize) - n
  else min prec ntoaBufferSize - n

theorem padded_eq (buf : List Char) (prec width : Nat) (flags : Flags) :
    padded buf prec width flags =
      buf ++ List.replicate (zeroCount buf.length prec width flags) '0' := by
  unfold padded zeroCount padZeros
  cases flags.left with
  | true => simp
  | false =>
    cases flags.zeropad with
    | false => simp
    | true =>
      simp only [Bool.false_eq_true, if_false, if_true, List.append_assoc, List.length_append,
        List.length_replicate, List.replicate_append_replicate]
      congr 2
      omega

theorem rawDigits_eq (value : BitVec 64) (base : Nat) (flags : Flags) :
    rawDigits value base flags = (plainDigits value base flags).reverse.take ntoaBufferSize := by
  unfold rawDigits plainDigits
  split <;> rfl

/-- The sign, if there is room for it. -/
def signIn (len : Nat) (negative : Bool) (flags : Flags) : List Char :=
  if len < ntoaBufferSize then sign negative flags else []

theorem take_append_sign {buf : List Char} (h : buf.length ≤ ntoaBufferSize) (negative : Bool)
    (flags : Flags) :
    (buf ++ sign negative flags).take ntoaBufferSize = buf ++ signIn buf.length negative flags := by
  have hsign := sign_length negative flags
  unfold signIn
  split
  · rw [List.take_of_length_le]
    rw [List.length_append, hsign]
    split <;> omega
  · rw [List.append_nil, List.take_append_of_le_length (by omega), List.take_of_length_le h]

theorem signIn_reverse (len : Nat) (negative : Bool) (flags : Flags) :
    (signIn len negative flags).reverse = signIn len negative flags := by
  unfold signIn sign
  grind

theorem numberFlags_of_hash (h : flags.hash = false) : numberFlags value flags = flags := by
  unfold numberFlags
  split
  · rw [← h]
  · rfl

theorem numberText_eq (hhash : flags.hash = false) :
    numberText value negative base prec width flags =
      let raw := rawDigits value base flags
      let w := digitWidth negative width flags
      let z := zeroCount raw.length prec w flags
      field (signIn (raw.length + z) negative flags ++ (List.replicate z '0' ++ raw.reverse)) w flags := by
  have hraw : (rawDigits value base flags).length ≤ ntoaBufferSize := by
    rw [rawDigits_eq]
    exact List.length_take_le _ _
  have hlen := padded_length hraw prec (digitWidth negative width flags) flags
  unfold numberText formatBuf
  rw [numberFlags_of_hash hhash]
  simp only [hhash, Bool.false_eq_true, if_false]
  rw [take_append_sign hlen]
  rw [padded_eq, List.length_append, List.length_replicate, List.reverse_append, signIn_reverse,
    List.reverse_append, List.reverse_replicate]

/-! ## The characters that are no spaces -/

/-- How many characters of a text are no spaces. -/
def solid (t : List Char) : Nat := t.countP (· != ' ')

@[simp] theorem solid_nil : solid [] = 0 := rfl

@[simp] theorem solid_append (t t' : List Char) : solid (t ++ t') = solid t + solid t' :=
  List.countP_append

@[simp] theorem solid_spaces (n : Nat) : solid (List.replicate n ' ') = 0 := by
  rw [solid, List.countP_replicate]
  rfl

@[simp] theorem solid_zeros (n : Nat) : solid (List.replicate n '0') = n := by
  rw [solid, List.countP_replicate]
  rfl

theorem solid_eq_length {t : List Char} (h : ' ' ∉ t) : solid t = t.length := by
  rw [solid, List.countP_eq_length]
  intro c hc
  simpa using fun heq : c = ' ' => h (heq ▸ hc)

theorem space_notMem_numeral (uppercase : Bool) (hb : 1 < base) (hb' : base ≤ 16) (n : Nat) :
    ' ' ∉ numeral uppercase base n := by
  intro h
  have hall : ∀ d < 16, (if uppercase then Char.toUpper else id) (Nat.digitChar d) ≠ ' ' := by
    cases uppercase with
    | true => decide
    | false => decide
  rw [numeral, List.mem_map] at h
  obtain ⟨c, hc, hspace⟩ := h
  obtain ⟨d, hd, rfl⟩ := Base.Numeral.mem_toDigits hb n hc
  exact hall d (Nat.lt_of_lt_of_le hd hb') hspace

theorem space_notMem_plainDigits (hb : 1 < base) (hb' : base ≤ 16) :
    ' ' ∉ plainDigits value base flags := by
  unfold plainDigits
  split
  · exact List.not_mem_nil
  · exact space_notMem_numeral _ hb hb' _

theorem solid_field (t : List Char) (width : Nat) (flags : Flags) :
    solid (field t width flags) = solid t := by
  unfold field
  split
  · simp
  · split <;> simp

theorem solid_standardField (before ds : List Char) (width : Nat) (flags : Flags) :
    solid (standardField before ds width flags) = solid before + solid ds +
      if flags.left = false ∧ flags.zeropad = true ∧ flags.precision = false then
        width - (before.length + ds.length) else 0 := by
  unfold standardField
  dsimp only
  cases flags.left with
  | true => simp
  | false =>
    cases flags.zeropad with
    | false => simp
    | true =>
      cases flags.precision with
      | true => simp
      | false =>
        simp
        omega

/-- A sign that does not count is missing or a space. -/
theorem sign_of_solid (h : solid (sign negative flags) = 0) :
    sign negative flags = [] ∨ sign negative flags = [' '] := by
  unfold sign at h ⊢
  grind [solid]

theorem solid_signIn_le (len : Nat) (negative : Bool) (flags : Flags) :
    solid (signIn len negative flags) ≤ solid (sign negative flags) := by
  unfold signIn
  split
  · exact Nat.le_refl _
  · exact Nat.zero_le _

theorem solid_signIn_full {len : Nat} (h : ntoaBufferSize ≤ len) :
    solid (signIn len negative flags) = 0 := by
  rw [signIn, if_neg (by omega), solid_nil]

/-! ## Beside the standard -/

theorem standardDigits_length (hfits : flags.Fits prec) :
    (standardDigits value base prec flags).length = max (plainDigits value base flags).length prec := by
  unfold standardDigits
  cases hp : flags.precision with
  | true =>
    simp only [if_true, List.length_append, List.length_replicate]
    omega
  | false =>
    have := hfits.precision hp
    simp only [Bool.false_eq_true, if_false]
    omega

theorem solid_standardDigits (hb : 1 < base) (hb' : base ≤ 16) (hfits : flags.Fits prec) :
    solid (standardDigits value base prec flags) =
      max (plainDigits value base flags).length prec := by
  rw [← standardDigits_length hfits, solid_eq_length]
  unfold standardDigits
  split
  · simpa using space_notMem_plainDigits hb hb'
  · exact space_notMem_plainDigits hb hb'

theorem solid_standardText (hb : 1 < base) (hb' : base ≤ 16) (hfits : flags.Fits prec) :
    solid (standardText value negative base prec width flags) =
      solid (sign negative flags) + (max (plainDigits value base flags).length prec +
        if flags.left = false ∧ flags.zeropad = true then
          width - ((sign negative flags).length + (plainDigits value base flags).length) else 0) := by
  rw [standardText, solid_standardField, solid_standardDigits hb hb' hfits, standardDigits_length hfits]
  cases hp : flags.precision with
  | true =>
    have := hfits.zeropad hp
    simp [this]
  | false =>
    have := hfits.precision hp
    simp [this]
    omega

theorem solid_numberText (hb : 1 < base) (hb' : base ≤ 16) (hhash : flags.hash = false) :
    let n := min ntoaBufferSize (plainDigits value base flags).length
    let z := zeroCount n prec (digitWidth negative width flags) flags
    solid (numberText value negative base prec width flags) =
      solid (signIn (n + z) negative flags) + (z + n) := by
  have hspace : ' ' ∉ (rawDigits value base flags).reverse := by
    rw [rawDigits_eq, List.mem_reverse]
    intro h
    exact space_notMem_plainDigits hb hb' (List.mem_reverse.mp (List.mem_of_mem_take h))
  have hlen : (rawDigits value base flags).length =
      min ntoaBufferSize (plainDigits value base flags).length := by
    rw [rawDigits_eq, List.length_take, List.length_reverse]
  rw [numberText_eq hhash]
  dsimp only
  rw [solid_field, solid_append, solid_append, solid_zeros, solid_eq_length hspace,
    List.length_reverse, hlen]

/-! ## Without `#` -/

theorem standardDigits_eq (hfits : flags.Fits prec) :
    standardDigits value base prec flags =
      List.replicate (prec - (plainDigits value base flags).length) '0' ++
        plainDigits value base flags := by
  unfold standardDigits
  cases hp : flags.precision with
  | true => rfl
  | false => simp [hfits.precision hp]

theorem signIn_eq {len : Nat} (h : len < ntoaBufferSize ∨ sign negative flags = []) :
    signIn len negative flags = sign negative flags := by
  unfold signIn
  split
  · rfl
  · rename_i hlen
    rcases h with h | h
    · exact absurd h hlen
    · exact h.symm

theorem rawDigits_reverse (h : (plainDigits value base flags).length ≤ ntoaBufferSize) :
    (rawDigits value base flags).reverse = plainDigits value base flags := by
  rw [rawDigits_eq, List.take_of_length_le (by rwa [List.length_reverse]), List.reverse_reverse]

variable {n : Nat} {ds : List Char}

theorem numberText_of_digits (hhash : flags.hash = false) (hds : plainDigits value base flags = ds)
    (hlen : ds.length ≤ ntoaBufferSize) :
    numberText value negative base prec width flags =
      let w := digitWidth negative width flags
      let z := zeroCount ds.length prec w flags
      field (signIn (ds.length + z) negative flags ++ (List.replicate z '0' ++ ds)) w flags := by
  have hraw : (rawDigits value base flags).reverse = plainDigits value base flags :=
    rawDigits_reverse (by rwa [hds])
  have hrawlen : (rawDigits value base flags).length = ds.length := by
    rw [← List.length_reverse, hraw, hds]
  rw [numberText_eq hhash]
  dsimp only
  rw [hraw, hrawlen, hds]

/-- The sign is in the array, or there is none. -/
theorem room_of_conforms (h : Conforms n (sign negative flags) prec width flags)
    (hfield : flags.left = true ∨ flags.zeropad = true) :
    n < ntoaBufferSize ∨ sign negative flags = [] := by
  have hle := h.digits
  by_cases hfull : n = ntoaBufferSize
  · rcases h.sign (by omega) with hs | hs
    · exact .inr hs
    · rcases hfield with hl | hz
      · rw [hs.2.2.1] at hl
        cases hl
      · rw [hs.2.2.2] at hz
        cases hz
  · exact .inl (by omega)

theorem text_of_conforms_left (hl : flags.left = true) (hhash : flags.hash = false)
    (hfits : flags.Fits prec) (hds : plainDigits value base flags = ds)
    (h : Conforms ds.length (sign negative flags) prec width flags) :
    numberText value negative base prec width flags =
      standardText value negative base prec width flags := by
  have hle := h.digits
  have hprec := h.left hl
  have hin := room_of_conforms h (.inl hl)
  have hzero : prec - ds.length = 0 := by omega
  rw [numberText_of_digits hhash hds (by omega), standardText, standardDigits_eq hfits, hds]
  simp [field, standardField, digitWidth_eq, zeroCount, hl, signIn_eq hin, hzero]

theorem text_of_conforms_zeropad (hl : flags.left = false) (hz : flags.zeropad = true)
    (hhash : flags.hash = false) (hfits : flags.Fits prec) (hds : plainDigits value base flags = ds)
    (h : Conforms ds.length (sign negative flags) prec width flags) :
    numberText value negative base prec width flags =
      standardText value negative base prec width flags := by
  have hle := h.digits
  have hwidth := h.zeropad hl hz
  have hp : flags.precision = false := by
    cases hp : flags.precision with
    | false => rfl
    | true => rw [hfits.zeropad hp] at hz; cases hz
  obtain rfl : prec = 0 := hfits.precision hp
  have hcount : max (min 0 ntoaBufferSize)
      (min (width - (sign negative flags).length) ntoaBufferSize) - ds.length =
      width - ((sign negative flags).length + ds.length) := by omega
  have hin : ds.length + (width - ((sign negative flags).length + ds.length)) < ntoaBufferSize ∨
      sign negative flags = [] := by
    by_cases hs : sign negative flags = []
    · exact .inr hs
    · have hpos := List.length_pos_iff.mpr hs
      rcases room_of_conforms h (.inr hz) with hroom | hroom
      · exact .inl (by omega)
      · exact .inr hroom
  rw [numberText_of_digits hhash hds (by omega), standardText, standardDigits_eq hfits, hds]
  simp only [field, standardField, digitWidth_eq, zeroCount, hl, hz, hp, and_self, if_true,
    Bool.false_eq_true, if_false, hcount, signIn_eq hin, Bool.not_false, Bool.and_self, Nat.zero_sub,
    List.replicate_zero, List.nil_append]

theorem text_of_conforms_right (hl : flags.left = false) (hz : flags.zeropad = false)
    (hhash : flags.hash = false) (hfits : flags.Fits prec) (hds : plainDigits value base flags = ds)
    (h : Conforms ds.length (sign negative flags) prec width flags) :
    numberText value negative base prec width flags =
      standardText value negative base prec width flags := by
  have hle := h.digits
  have hcount : min prec ntoaBufferSize - ds.length = prec - ds.length := by omega
  rw [numberText_of_digits hhash hds (by omega), standardText, standardDigits_eq hfits, hds]
  simp only [field, standardField, digitWidth_eq, zeroCount, hl, hz, Bool.false_eq_true, if_false,
    and_false, hcount, Bool.false_and]
  by_cases hroom : ds.length + (prec - ds.length) < ntoaBufferSize ∨ sign negative flags = []
  · simp [signIn_eq hroom]
  · rw [not_or] at hroom
    rcases h.sign (by omega) with hs | hs
    · exact absurd hs hroom.2
    · -- the space of the sign is one of the field
      have hnone : signIn (ds.length + (prec - ds.length)) negative flags = [] := if_neg hroom.1
      have hlen : (List.replicate (prec - ds.length) '0' ++ ds).length = ntoaBufferSize := by
        rw [List.length_append, List.length_replicate]
        omega
      have hwidth : width - ntoaBufferSize = width - (1 + ntoaBufferSize) + 1 := by omega
      rw [hnone, hs.1, List.nil_append, hlen, List.length_singleton, hwidth, List.replicate_succ',
        List.append_assoc]

theorem text_of_conforms (hhash : flags.hash = false) (hfits : flags.Fits prec)
    (h : Conforms (plainDigits value base flags).length (sign negative flags) prec width flags) :
    numberText value negative base prec width flags =
      standardText value negative base prec width flags := by
  cases hl : flags.left with
  | true => exact text_of_conforms_left hl hhash hfits rfl h
  | false =>
    cases hz : flags.zeropad with
    | true => exact text_of_conforms_zeropad hl hz hhash hfits rfl h
    | false => exact text_of_conforms_right hl hz hhash hfits rfl h

theorem append_ne_space {t : List Char} (hspace : ' ' ∉ t) (hpos : t ≠ []) (x y : List Char) :
    t ++ x ≠ ' ' :: y := by
  cases t with
  | nil => exact absurd rfl hpos
  | cons c t =>
    intro h
    rw [List.cons_append, List.cons.injEq] at h
    exact hspace (h.1 ▸ List.mem_cons_self)

theorem space_notMem_zeros (z : Nat) (h : ' ' ∉ ds) : ' ' ∉ List.replicate z '0' ++ ds := by
  rw [List.mem_append, not_or]
  exact ⟨fun hmem => absurd (List.eq_of_mem_replicate hmem) (by decide), h⟩

/-- A full array leaves the sign out: only a space may be missing, and only in front of spaces. -/
theorem sign_of_full (hhash : flags.hash = false) (hfits : flags.Fits prec)
    (hds : plainDigits value base flags = ds) (hspace : ' ' ∉ ds) (hlen : ds.length ≤ ntoaBufferSize)
    (hfull : ds.length + zeroCount ds.length prec (digitWidth negative width flags) flags =
      ntoaBufferSize)
    (hsolid : solid (sign negative flags) = 0)
    (h : numberText value negative base prec width flags =
      standardText value negative base prec width flags) :
    sign negative flags = [] ∨
      sign negative flags = [' '] ∧ ntoaBufferSize < width ∧ flags.left = false ∧
        flags.zeropad = false := by
  rcases sign_of_solid hsolid with hs | hs
  · exact .inl hs
  · have hnone : signIn ntoaBufferSize negative flags = [] := if_neg (by omega)
    rw [numberText_of_digits hhash hds hlen, standardText, standardDigits_eq hfits, hds] at h
    dsimp only at h
    rw [hfull, hnone, List.nil_append, hs] at h
    generalize hz : zeroCount ds.length prec (digitWidth negative width flags) flags = z at h hfull
    have hnum := space_notMem_zeros z hspace
    have hnumLen : (List.replicate z '0' ++ ds).length = ntoaBufferSize := by
      rw [List.length_append, List.length_replicate]
      omega
    have hpos : List.replicate z '0' ++ ds ≠ [] := by
      intro hnil
      rw [hnil] at hnumLen
      cases hnumLen
    cases hl : flags.left with
    | true =>
      simp only [field, standardField, hl, if_true, List.append_assoc, List.singleton_append] at h
      rw [← List.append_assoc] at h
      exact absurd h (append_ne_space hnum hpos _ _)
    | false =>
      cases hzero : flags.zeropad with
      | true =>
        have hp : flags.precision = false := by
          cases hp : flags.precision with
          | false => rfl
          | true => rw [hfits.zeropad hp] at hzero; cases hzero
        simp only [field, standardField, hl, hzero, hp, Bool.false_eq_true, if_false, if_true,
          Bool.not_false, Bool.and_self, List.singleton_append] at h
        rw [← List.append_nil (List.replicate z '0' ++ ds)] at h
        exact absurd h (append_ne_space hnum hpos _ _)
      | false =>
        refine .inr ⟨hs, ?_, rfl, rfl⟩
        have hlength := congrArg List.length h
        simp only [field, standardField, hl, hzero, Bool.false_eq_true, if_false, Bool.false_and,
          List.length_append, List.length_replicate, List.length_singleton,
          digitWidth_eq, and_false] at hlength
        have hcount : min prec ntoaBufferSize - ds.length = z := by
          rw [← hz]
          simp [zeroCount, hl, hzero]
        omega

theorem zeroCount_le {n : Nat} (h : n ≤ ntoaBufferSize) (prec width : Nat) (flags : Flags) :
    n + zeroCount n prec width flags ≤ ntoaBufferSize := by
  unfold zeroCount
  split
  · exact h
  · split <;> omega

/-- What equal texts say of the numbers of digits, zeros and signs in them. -/
theorem solid_of_text (hb : 1 < base) (hb' : base ≤ 16) (hhash : flags.hash = false)
    (hfits : flags.Fits prec) (hn : (plainDigits value base flags).length = n)
    (h : numberText value negative base prec width flags =
      standardText value negative base prec width flags) :
    let z := zeroCount n prec (digitWidth negative width flags) flags
    let all := max n prec +
      if flags.left = false ∧ flags.zeropad = true then
        width - ((sign negative flags).length + n) else 0
    n ≤ ntoaBufferSize ∧ all ≤ n + z ∧ n + z ≤ ntoaBufferSize ∧
      (n + z = ntoaBufferSize → ntoaBufferSize ≤ all → solid (sign negative flags) = 0) := by
  have hsolid := congrArg solid h
  rw [solid_numberText hb hb' hhash, solid_standardText hb hb' hfits, hn] at hsolid
  have hle := zeroCount_le (Nat.min_le_left ntoaBufferSize n) prec
    (digitWidth negative width flags) flags
  have hsign := solid_signIn_le (min ntoaBufferSize n +
    zeroCount (min ntoaBufferSize n) prec (digitWidth negative width flags) flags) negative flags
  have hlen : n ≤ ntoaBufferSize := by omega
  rw [Nat.min_eq_right hlen] at hsolid hle hsign
  refine ⟨hlen, by omega, hle, fun hfull hall => ?_⟩
  rw [solid_signIn_full (Nat.le_of_eq hfull.symm)] at hsolid
  omega

theorem conforms_of_text (hb : 1 < base) (hb' : base ≤ 16) (hhash : flags.hash = false)
    (hfits : flags.Fits prec)
    (h : numberText value negative base prec width flags =
      standardText value negative base prec width flags) :
    Conforms (plainDigits value base flags).length (sign negative flags) prec width flags := by
  obtain ⟨hlen, hall, hle, hsolid⟩ := solid_of_text hb hb' hhash hfits rfl h
  have hfull := fun hroom hcount => sign_of_full hhash hfits rfl (space_notMem_plainDigits hb hb')
    hlen hroom (hsolid hroom hcount) h
  have hsignLen : (sign negative flags).length ≤ 1 := by
    rw [sign_length]
    split
    · exact Nat.le_refl _
    · exact Nat.zero_le _
  have hprec : flags.zeropad = true → prec = 0 := by
    intro hz
    cases hp : flags.precision with
    | false => exact hfits.precision hp
    | true => rw [hfits.zeropad hp] at hz; cases hz
  rw [digitWidth_eq] at *
  generalize (plainDigits value base flags).length = n at *
  constructor
  · intro hl
    simp only [zeroCount, hl, if_true] at hall
    omega
  · intro hl hz
    have hzero := hprec hz
    rw [zeroCount, hl, hz] at hall hle hfull
    simp only [and_self, if_true, Bool.false_eq_true, if_false] at hall hle hfull
    by_contra hwide
    -- one character too many is the sign
    rcases hfull (by omega) (by omega) with hs | hs
    · rw [hs, List.length_nil] at hall hle
      omega
    · exact absurd hs.2.2.2 (by decide)
  · omega
  · intro hmax
    refine hfull ?_ (by omega)
    unfold zeroCount at hall hle ⊢
    cases hl : flags.left with
    | true =>
      simp only [hl, if_true] at hall ⊢
      omega
    | false =>
      cases hz : flags.zeropad with
      | true =>
        have hzero := hprec hz
        simp only [hl, hz, and_self, if_true, Bool.false_eq_true, if_false] at hall hle ⊢
        omega
      | false =>
        simp only [Bool.false_eq_true, if_false]
        omega

/-- A conversion without `#` has the text of the standard exactly when all of it fits. -/
theorem numberText_standard_iff (hb : 1 < base) (hb' : base ≤ 16) (hhash : flags.hash = false)
    (hfits : flags.Fits prec) :
    numberText value negative base prec width flags =
        standardText value negative base prec width flags ↔
      Conforms (plainDigits value base flags).length (sign negative flags) prec width flags :=
  ⟨conforms_of_text hb hb' hhash hfits, text_of_conforms hhash hfits⟩

/-! ## A precision that the standard omits -/

/-- The flags of an integer conversion that has read a precision. -/
def Flags.omitted (flags : Flags) : Flags := { flags with precision := true, zeropad := false }

theorem plainDigits_omitted (hp : flags.precision = false) (hv : value ≠ 0#64) :
    plainDigits value base flags.omitted = plainDigits value base flags := by
  simp [plainDigits, Flags.omitted, hp, hv]

/-- Without the zeros of a field nothing is left of the difference. -/
theorem standardText_omitted (hp : flags.precision = false) (hv : value ≠ 0#64)
    (hroom : flags.left = false → flags.zeropad = true →
      width ≤ (sign negative flags).length + (plainDigits value base flags).length) :
    standardText value negative base 0 width flags.omitted =
      standardText value negative base 0 width flags := by
  have hds : standardDigits value base 0 flags.omitted = standardDigits value base 0 flags := by
    rw [standardDigits, standardDigits, plainDigits_omitted hp hv]
    simp [Flags.omitted, hp]
  have hlen : (standardDigits value base 0 flags).length = (plainDigits value base flags).length := by
    simp [standardDigits, hp]
  have hsign : sign negative flags.omitted = sign negative flags := rfl
  have hleft : flags.omitted.left = flags.left := rfl
  have hzero : flags.omitted.zeropad = false := rfl
  rw [standardText, standardText, hds, hsign]
  unfold standardField
  rw [hleft, hzero, hp]
  cases hl : flags.left with
  | true => rfl
  | false =>
    cases hz : flags.zeropad with
    | false => rfl
    | true =>
      have hnone : width - ((sign negative flags).length +
          (standardDigits value base 0 flags).length) = 0 := by
        have := hroom hl hz
        omega
      simp only [hnone, List.replicate_zero, List.nil_append, Bool.false_and, Bool.not_false,
        Bool.and_self, Bool.false_eq_true, if_false, if_true]

/-- A value of zero loses its digit, and a field its zeros. -/
theorem room_of_text (hb : 1 < base) (hb' : base ≤ 16) (hp : flags.precision = false)
    (hhash : flags.hash = false)
    (h : numberText value negative base 0 width flags.omitted =
      standardText value negative base 0 width flags) :
    value ≠ 0#64 ∧ (flags.left = false → flags.zeropad = true →
      width ≤ (sign negative flags).length + (plainDigits value base flags).length) := by
  have hfits : flags.Fits 0 := ⟨fun _ => rfl, fun hp' => by rw [hp] at hp'; cases hp'⟩
  have hhash' : flags.omitted.hash = false := hhash
  have hsolid := congrArg solid h
  rw [solid_numberText hb hb' hhash', solid_standardText hb hb' hfits] at hsolid
  have hzero : ∀ n w, zeroCount n 0 w flags.omitted = 0 := by
    intro n w
    simp [zeroCount, Flags.omitted]
  simp only [hzero, Nat.add_zero, Nat.zero_add] at hsolid
  have hsign : sign negative flags.omitted = sign negative flags := rfl
  have hle := solid_signIn_le
    (min ntoaBufferSize (plainDigits value base flags.omitted).length) negative flags.omitted
  rw [hsign] at hle
  have hpos : 0 < (plainDigits value base flags).length := by
    rw [plainDigits, hp, Bool.false_and, if_neg Bool.false_ne_true, numeral, List.length_map]
    exact Nat.length_toDigits_pos
  have hv : value ≠ 0#64 := by
    rintro rfl
    have hnil : plainDigits 0#64 base flags.omitted = [] := rfl
    rw [hnil, List.length_nil] at hsolid hle
    omega
  refine ⟨hv, fun hl hz => ?_⟩
  rw [plainDigits_omitted hp hv] at hsolid hle
  rw [if_pos ⟨hl, hz⟩] at hsolid
  omega

/-- A conversion that has read a precision of 0 where the standard omits it. -/
theorem numberText_omitted_iff (hb : 1 < base) (hb' : base ≤ 16) (hp : flags.precision = false)
    (hhash : flags.hash = false) :
    numberText value negative base 0 width flags.omitted =
        standardText value negative base 0 width flags ↔
      Conforms (plainDigits value base flags).length (sign negative flags) 0 width flags.omitted ∧
        value ≠ 0#64 ∧ (flags.left = false → flags.zeropad = true →
          width ≤ (sign negative flags).length + (plainDigits value base flags).length) := by
  have hfits : flags.omitted.Fits 0 := ⟨fun _ => rfl, fun _ => rfl⟩
  have hhash' : flags.omitted.hash = false := hhash
  constructor
  · intro h
    obtain ⟨hv, hroom⟩ := room_of_text hb hb' hp hhash h
    rw [← standardText_omitted hp hv hroom] at h
    have hconforms := conforms_of_text hb hb' hhash' hfits h
    rw [plainDigits_omitted hp hv] at hconforms
    exact ⟨hconforms, hv, hroom⟩
  · rintro ⟨hconforms, hv, hroom⟩
    rw [← plainDigits_omitted hp hv] at hconforms
    rw [text_of_conforms hhash' hfits hconforms, standardText_omitted hp hv hroom]

/-! ## Directives -/

variable {w : Written} {rest : List Char} {va va' : Va} {d s : Directive}

theorem integerFlags_fits {format : List Char} (h : directive format va = some (d, rest, va')) :
    (integerFlags d.specifier d.flags).Fits d.precision := by
  refine ⟨directive_precision h, fun hp => ?_⟩
  have hp' : d.flags.precision = true := hp
  simp [integerFlags, hp']

/-- When an integer directive without the effect of `#` has the text of the standard, for a value
of `n` digits. -/
theorem integerText_standard_iff (hw : w.Ok) (hsmall : w.Small)
    (h : directive (w.render ++ rest) va = some (d, rest, va')) (hs : w.standard va = some (s, va'))
    (hhash : (integerFlags s.specifier s.flags).hash = false) (arg : BitVec 64) :
    let flags := integerFlags s.specifier s.flags
    let v := integerValue s.specifier flags arg
    let n := (plainDigits v.1 (integerBase s.specifier) flags).length
    d.integerText arg = s.standardInteger arg ↔
      Conforms n (sign v.2 flags) s.precision s.width (integerFlags d.specifier d.flags) ∧
        (Omitted d s → v.1 ≠ 0#64 ∧ (flags.left = false → flags.zeropad = true →
          s.width ≤ (sign v.2 flags).length + n)) := by
  obtain ⟨s', hs', hread⟩ := directive_standard hw hsmall h
  cases hs.symm.trans hs'
  have hb := integerBase_gt s.specifier
  have hb' := integerBase_le s.specifier
  cases hread with
  | same =>
    exact (numberText_standard_iff hb hb' hhash (integerFlags_fits h)).trans
      (and_iff_left fun ho => absurd ho (not_omitted_self d)).symm
  | omitted hp hprec =>
    have hflags : integerFlags s.specifier { s.flags with precision := true } =
        (integerFlags s.specifier s.flags).omitted := by
      simp [integerFlags, Flags.omitted]
    have hp' : (integerFlags s.specifier s.flags).precision = false := hp
    have homitted : Omitted { s with flags := { s.flags with precision := true } } s := ⟨rfl, hp⟩
    dsimp only [Directive.integerText, Directive.standardInteger]
    rw [hflags, hprec]
    exact (numberText_omitted_iff hb hb' hp' hhash).trans
      (and_congr_right fun _ => (imp_iff_right homitted).symm)

/-- Zeros to a width that the array has no room for, and zeros that a negative precision takes
away. -/
theorem integerText_width :
    Directive.integerText ⟨{ zeropad := true }, 33, 0, 'd'⟩ 7 ≠
        Directive.standardInteger ⟨{ zeropad := true }, 33, 0, 'd'⟩ 7 ∧
      Directive.integerText ⟨{ zeropad := true, precision := true }, 5, 0, 'd'⟩ 7 ≠
        Directive.standardInteger ⟨{ zeropad := true }, 5, 0, 'd'⟩ 7 := by
  constructor
  · intro heq
    have hw : Written.Ok ⟨['0'], .digits ['3', '3'], none, .int, 'd'⟩ :=
      ⟨⟨List.all_eq_true.mp rfl, stops_cons.mpr rfl⟩,
        ⟨⟨by decide, List.all_eq_true.mp rfl⟩, stops_cons.mpr rfl⟩, stops_cons.mpr rfl, rfl⟩
    have hsmall : Written.Small ⟨['0'], .digits ['3', '3'], none, .int, 'd'⟩ :=
      ⟨show numberOf ['3', '3'] < 2 ^ 32 by decide, fun a ha => by cases ha⟩
    have hread : directive (Written.render ⟨['0'], .digits ['3', '3'], none, .int, 'd'⟩ ++ [NUL])
        [] = some (⟨{ zeropad := true }, 33, 0, 'd'⟩, [NUL], []) := rfl
    have hiff := integerText_standard_iff hw hsmall hread rfl rfl 7
    exact absurd ((hiff.mp heq).1.zeropad rfl rfl) (by decide)
  · intro heq
    have hw : Written.Ok ⟨['0'], .digits ['5'], some .star, .int, 'd'⟩ :=
      ⟨⟨List.all_eq_true.mp rfl, stops_cons.mpr rfl⟩,
        ⟨⟨by decide, List.all_eq_true.mp rfl⟩, stops_cons.mpr rfl⟩, ⟨trivial, stops_cons.mpr rfl⟩, rfl⟩
    have hsmall : Written.Small ⟨['0'], .digits ['5'], some .star, .int, 'd'⟩ :=
      ⟨show numberOf ['5'] < 2 ^ 32 by decide, fun a ha => by cases ha; trivial⟩
    have hread : directive (Written.render ⟨['0'], .digits ['5'], some .star, .int, 'd'⟩ ++ [NUL])
        [.int (-1)] = some (⟨{ zeropad := true, precision := true }, 5, 0, 'd'⟩, [NUL], []) := rfl
    have hiff := integerText_standard_iff hw hsmall hread rfl rfl 7
    exact absurd (((hiff.mp heq).2 ⟨rfl, rfl⟩).2 rfl rfl) (by decide)

end

end Format
end DeliceOS
