import DeliceOS.Printf.Standard

/-!
# Printf.Alternate

The alternate form of the hexadecimal conversions, `#`. The mark takes the place of the last two
characters of a full field, whether they are zeros or digits.

* `hashText_eq`: the text of a conversion with `#`.
* `hexText_standard_iff`: when it is the text of the C standard.
* `pointerText_eq_iff`: the pointers that `%p` and `%#p` tell apart.
-/

namespace DeliceOS
namespace Format

/-- What `#` puts before the digits of a value other than zero. -/
def hexMark (flags : Flags) : List Char := ['0', if flags.uppercase then 'X' else 'x']

/-- The text of a hexadecimal directive with `#`, for a value other than zero. -/
def Directive.standardHex (s : Directive) (arg : BitVec 64) : List Char :=
  let flags := integerFlags s.specifier s.flags
  let v := (integerValue s.specifier flags arg).1
  standardField (hexMark flags) (standardDigits v 16 s.precision flags) s.width flags

/-- `n` hexadecimal digits behind the mark of `#`. -/
structure HexConforms (n prec width : Nat) (flags : Flags) : Prop where
  left : flags.left = true → prec ≤ n
  zeropad : flags.left = false → flags.zeropad = true → width ≤ ntoaBufferSize
  digits : max n prec + 2 ≤ ntoaBufferSize
  kept : flags.precision = false →
    width ≠ n ∧ (flags.left = false → flags.zeropad = true → width ≠ n + 1)

section

variable {value : BitVec 64} {prec width : Nat} {flags : Flags}

theorem numeral_length_le (uppercase : Bool) (value : BitVec 64) :
    (numeral uppercase 16 value.toNat).length ≤ 16 := by
  have hlt : value.toNat < 16 ^ 16 := by
    have := value.isLt
    omega
  rw [numeral, List.length_map]
  exact (Nat.length_toDigits_le_iff (by decide) (by decide)).mpr hlt

theorem numeral_length_pos (uppercase : Bool) (base n : Nat) :
    0 < (numeral uppercase base n).length := by
  rw [numeral, List.length_map]
  exact Nat.length_toDigits_pos

theorem plainDigits_of_ne (hv : value ≠ 0#64) (base : Nat) (flags : Flags) :
    plainDigits value base flags = numeral flags.uppercase base value.toNat := by
  simp [plainDigits, hv]

theorem digitWidth_of_sign (hsign : sign false flags = []) :
    digitWidth false width flags = width := by
  rw [digitWidth_eq, hsign]
  simp

theorem hashText_eq (hhash : flags.hash = true) (hv : value ≠ 0#64) (hsign : sign false flags = []) :
    numberText value false 16 prec width flags =
      let ds := numeral flags.uppercase 16 value.toNat
      let z := zeroCount ds.length prec width flags
      field ((giveUp (ds.reverse ++ List.replicate z '0') 16 prec width flags ++
        (hexMark flags).reverse).take ntoaBufferSize).reverse width flags := by
  have hlen := numeral_length_le flags.uppercase value
  have hraw : rawDigits value 16 flags = (numeral flags.uppercase 16 value.toNat).reverse := by
    rw [rawDigits_eq, plainDigits_of_ne hv, List.take_of_length_le]
    rw [List.length_reverse]
    exact Nat.le_trans hlen (by decide)
  have hflags : numberFlags value flags = flags := if_neg hv
  have hmark : hashMark 16 flags = (hexMark flags).reverse := rfl
  unfold numberText formatBuf
  simp only [hflags, digitWidth_of_sign hsign, hraw, hmark, hhash, if_true, padded_eq, hsign,
    List.append_nil, List.length_reverse]

theorem giveUp_eq {buf : List Char}
    (h : flags.precision = true ∨ buf.length ≠ prec ∧ buf.length ≠ width) (base : Nat) :
    giveUp buf base prec width flags = buf := by
  unfold giveUp
  rcases h with hp | ⟨hprec, hwidth⟩
  · simp [hp]
  · simp [hprec, hwidth]

/-- A full field without a precision gives up its last two characters. -/
theorem giveUp_full {buf : List Char} (hp : flags.precision = false) (hlen : buf.length = width)
    (hwidth : 1 < width) : giveUp buf 16 prec width flags = buf.dropLast.dropLast := by
  have hne : width ≠ 0 := by omega
  have hne' : width - 1 ≠ 0 := by omega
  simp [giveUp, hp, hlen, hne, hne']

theorem giveUp_zeros {buf : List Char} {z : Nat} (hp : flags.precision = false)
    (hwidth : (buf ++ List.replicate (z + 2) '0').length = width) :
    giveUp (buf ++ List.replicate (z + 2) '0') 16 prec width flags = buf ++ List.replicate z '0' := by
  have hlen : (buf ++ List.replicate (z + 2) '0').length = buf.length + z + 2 := by simp [Nat.add_assoc]
  rw [giveUp_full hp hwidth (by omega), List.replicate_succ', ← List.append_assoc, List.dropLast_concat,
    List.replicate_succ', ← List.append_assoc, List.dropLast_concat]

variable {ds : List Char}

/-- The array back to front, when the mark fits behind the digits and their zeros. -/
theorem hexBuf_reverse {z : Nat} (hz : z + ds.length + 2 ≤ ntoaBufferSize) (flags : Flags) :
    ((ds.reverse ++ List.replicate z '0' ++ (hexMark flags).reverse).take ntoaBufferSize).reverse =
      hexMark flags ++ (List.replicate z '0' ++ ds) := by
  have hmark : (hexMark flags).length = 2 := rfl
  have hlen : (ds.reverse ++ List.replicate z '0' ++ (hexMark flags).reverse).length ≤
      ntoaBufferSize := by
    simp only [List.length_append, List.length_reverse, List.length_replicate, hmark]
    omega
  rw [List.take_of_length_le hlen, List.reverse_append, List.reverse_append, List.reverse_reverse,
    List.reverse_reverse, List.reverse_replicate]

/-- The text behind the mark, without the zeros of a field. -/
theorem hexField_plain {z : Nat} (hpad : flags.left = true ∨ flags.zeropad = false)
    (hz : z + ds.length + 2 ≤ ntoaBufferSize)
    (hkept : flags.precision = true ∨ z + ds.length ≠ prec ∧ z + ds.length ≠ width) :
    field ((giveUp (ds.reverse ++ List.replicate z '0') 16 prec width flags ++
        (hexMark flags).reverse).take ntoaBufferSize).reverse width flags =
      standardField (hexMark flags) (List.replicate z '0' ++ ds) width flags := by
  have hlen : (ds.reverse ++ List.replicate z '0').length = z + ds.length := by
    simp [Nat.add_comm]
  rw [giveUp_eq (by rwa [hlen]), hexBuf_reverse hz]
  unfold field standardField
  rcases hpad with hl | hzero
  · simp [hl]
  · cases flags.left with
    | true => simp
    | false => simp [hzero]

theorem hexText_of_conforms (hhash : flags.hash = true) (hv : value ≠ 0#64)
    (hsign : sign false flags = []) (hfits : flags.Fits prec)
    (h : HexConforms (numeral flags.uppercase 16 value.toNat).length prec width flags) :
    numberText value false 16 prec width flags =
      standardField (hexMark flags) (standardDigits value 16 prec flags) width flags := by
  have hpos := numeral_length_pos flags.uppercase 16 value.toNat
  have hdigits := h.digits
  rw [hashText_eq hhash hv hsign, standardDigits_eq hfits, plainDigits_of_ne hv]
  generalize numeral flags.uppercase 16 value.toNat = ds at h hpos hdigits ⊢
  dsimp only
  have hkept : prec - ds.length = 0 → flags.precision = true ∨
      prec - ds.length + ds.length ≠ prec ∧ prec - ds.length + ds.length ≠ width := by
    intro hzero
    cases hp : flags.precision with
    | true => exact .inl rfl
    | false =>
      have hprec := hfits.precision hp
      have hwidth := (h.kept hp).1
      exact .inr (by omega)
  cases hl : flags.left with
  | true =>
    have hprec := h.left hl
    have hcount : zeroCount ds.length prec width flags = prec - ds.length := by
      rw [zeroCount, if_pos hl]
      omega
    rw [hcount]
    exact hexField_plain (.inl hl) (by omega) (hkept (by omega))
  | false =>
    cases hz : flags.zeropad with
    | false =>
      have hcount : zeroCount ds.length prec width flags = prec - ds.length := by
        simp only [zeroCount, hl, hz, Bool.false_eq_true, if_false]
        omega
      rw [hcount]
      refine hexField_plain (.inr hz) (by omega) ?_
      cases hp : flags.precision with
      | true => exact .inl rfl
      | false =>
        have hprec := hfits.precision hp
        rw [← hp]
        exact hkept (by omega)
    | true =>
      have hp : flags.precision = false := by
        cases hp : flags.precision with
        | false => rfl
        | true => rw [hfits.zeropad hp] at hz; cases hz
      obtain rfl : prec = 0 := hfits.precision hp
      have hwidth := h.zeropad hl hz
      obtain ⟨hne, hne'⟩ := h.kept hp
      have hnext := hne' hl hz
      have hcount : zeroCount ds.length 0 width flags = width - ds.length := by
        simp only [zeroCount, hl, hz, Bool.false_eq_true, if_false, if_true]
        omega
      rw [hcount]
      by_cases hroom : ds.length < width
      · -- the mark takes the place of two zeros
        obtain ⟨z, hzero⟩ : ∃ z, width - ds.length = z + 2 := ⟨width - ds.length - 2, by omega⟩
        have hroom' : width - (2 + ds.length) = z := by omega
        have hmark : (hexMark flags).length = 2 := rfl
        rw [hzero, giveUp_zeros hp (by simp; omega), hexBuf_reverse (by omega)]
        simp [field, standardField, hl, hz, hp, hmark, hroom']
      · have hzero : width - ds.length = 0 := by omega
        have hroom' : width - (2 + ds.length) = 0 := by omega
        have hmark : (hexMark flags).length = 2 := rfl
        have hlen : (ds.reverse ++ List.replicate 0 '0').length = ds.length := by simp
        have hkeep : giveUp (ds.reverse ++ List.replicate 0 '0') 16 0 width flags =
            ds.reverse ++ List.replicate 0 '0' := giveUp_eq (.inr (by rw [hlen]; omega)) 16
        rw [hzero, hkeep, hexBuf_reverse (by omega)]
        simp [field, standardField, hl, hz, hp, hmark, hroom']

/-! ## Where the text is another one -/

theorem giveUp_notMem {c : Char} {buf : List Char} (h : c ∉ buf) (base prec width : Nat)
    (flags : Flags) :
    c ∉ giveUp buf base prec width flags := by
  have hsub : ∀ buf : List Char, buf.dropLast.Sublist buf := List.dropLast_sublist
  unfold giveUp
  dsimp only
  split
  · split
    · exact fun hc => h ((hsub _).subset ((hsub _).subset hc))
    · exact fun hc => h ((hsub _).subset hc)
  · exact h

theorem solid_hashText (hhash : flags.hash = true) (hv : value ≠ 0#64)
    (hsign : sign false flags = []) :
    let ds := numeral flags.uppercase 16 value.toNat
    let z := zeroCount ds.length prec width flags
    solid (numberText value false 16 prec width flags) =
      min ntoaBufferSize
        ((giveUp (ds.reverse ++ List.replicate z '0') 16 prec width flags).length + 2) := by
  have hspace : ' ' ∉ numeral flags.uppercase 16 value.toNat :=
    space_notMem_numeral _ (by decide) (by decide) _
  have hmark : ' ' ∉ (hexMark flags).reverse ∧ (hexMark flags).reverse.length = 2 := by
    unfold hexMark
    cases flags.uppercase with
    | true => decide
    | false => decide
  rw [hashText_eq hhash hv hsign]
  dsimp only
  generalize numeral flags.uppercase 16 value.toNat = ds at hspace ⊢
  generalize zeroCount ds.length prec width flags = z
  have hbuf : ' ' ∉ ds.reverse ++ List.replicate z '0' := by
    intro h
    rw [List.mem_append, List.mem_reverse] at h
    rcases h with h | h
    · exact hspace h
    · exact absurd (List.eq_of_mem_replicate h) (by decide)
  have hcut := giveUp_notMem hbuf 16 prec width flags
  generalize giveUp (ds.reverse ++ List.replicate z '0') 16 prec width flags = cut at hcut ⊢
  have htake : ' ' ∉ ((cut ++ (hexMark flags).reverse).take ntoaBufferSize).reverse := by
    rw [List.mem_reverse]
    intro h
    rcases List.mem_append.mp (List.mem_of_mem_take h) with h | h
    · exact hcut h
    · exact hmark.1 h
  rw [solid_field, solid_eq_length htake, List.length_reverse, List.length_take, List.length_append,
    hmark.2]

theorem giveUp_length_eq (buf : List Char) (prec width : Nat) (flags : Flags) :
    (giveUp buf 16 prec width flags).length =
      if flags.precision = false ∧ buf.length ≠ 0 ∧ (buf.length = prec ∨ buf.length = width) then
        buf.length - 2
      else buf.length := by
  have hiff : (!flags.precision && decide (buf.length ≠ 0) &&
      (decide (buf.length = prec) || decide (buf.length = width))) = true ↔
      flags.precision = false ∧ buf.length ≠ 0 ∧ (buf.length = prec ∨ buf.length = width) := by
    simp [and_assoc]
  unfold giveUp
  split
  · rename_i hfull
    rw [if_pos (hiff.mp hfull)]
    dsimp only
    split
    · rw [List.length_dropLast, List.length_dropLast]
      omega
    · rename_i hone
      simp only [List.length_dropLast, Bool.and_eq_true, decide_eq_true_eq, and_true] at hone
      rw [List.length_dropLast]
      omega
  · rename_i hfull
    rw [if_neg (fun h => hfull (hiff.mpr h))]

theorem hexConforms_of_text (hhash : flags.hash = true) (hv : value ≠ 0#64)
    (hsign : sign false flags = []) (hfits : flags.Fits prec)
    (h : numberText value false 16 prec width flags =
      standardField (hexMark flags) (standardDigits value 16 prec flags) width flags) :
    HexConforms (numeral flags.uppercase 16 value.toNat).length prec width flags := by
  have hmark : (hexMark flags).length = 2 ∧ solid (hexMark flags) = 2 := by
    unfold hexMark
    cases flags.uppercase with
    | true => decide
    | false => decide
  have hlen := numeral_length_le flags.uppercase value
  have hpos := numeral_length_pos flags.uppercase 16 value.toNat
  have hsolid := congrArg solid h
  have hprec : flags.zeropad = true → flags.precision = false := by
    intro hz
    cases hp : flags.precision with
    | false => rfl
    | true => rw [hfits.zeropad hp] at hz; cases hz
  rw [solid_hashText hhash hv hsign, solid_standardField,
    solid_standardDigits (by decide) (by decide) hfits, standardDigits_length hfits,
    plainDigits_of_ne hv, hmark.1, hmark.2] at hsolid
  rw [giveUp_length_eq, List.length_append, List.length_reverse, List.length_replicate] at hsolid
  generalize (numeral flags.uppercase 16 value.toNat).length = n at *
  have hzero := hfits.precision
  constructor
  · intro hl
    simp only [zeroCount, hl, if_true] at hsolid
    grind
  · intro hl hz
    simp only [hl, hz, hprec hz, and_self, if_true] at hsolid
    omega
  · omega
  · intro hp
    have hp0 := hzero hp
    constructor
    · intro hw
      have hz : zeroCount n prec width flags = 0 := by
        unfold zeroCount
        split
        · rfl
        · split <;> omega
      rw [hz, if_pos ⟨hp, by omega, .inr (by omega)⟩] at hsolid
      omega
    · intro hl hz hw
      have hcount : zeroCount n prec width flags = 1 := by
        simp only [zeroCount, hl, hz, Bool.false_eq_true, if_false, if_true]
        omega
      rw [hcount, if_pos ⟨hp, by omega, .inr (by omega)⟩] at hsolid
      omega

/-- A hexadecimal conversion with `#` has the text of the standard exactly when the mark fits and
takes the place of zeros only. -/
theorem hexText_standard_iff (hhash : flags.hash = true) (hv : value ≠ 0#64)
    (hsign : sign false flags = []) (hfits : flags.Fits prec) :
    numberText value false 16 prec width flags =
        standardField (hexMark flags) (standardDigits value 16 prec flags) width flags ↔
      HexConforms (numeral flags.uppercase 16 value.toNat).length prec width flags :=
  ⟨hexConforms_of_text hhash hv hsign hfits, hexText_of_conforms hhash hv hsign hfits⟩

/-! ## A precision that the standard omits -/

theorem hexDigits_eq (hv : value ≠ 0#64) (hp : flags.precision = false) :
    standardDigits value 16 0 flags = numeral flags.uppercase 16 value.toNat ∧
      standardDigits value 16 0 flags.omitted = numeral flags.uppercase 16 value.toNat := by
  have hds := plainDigits_of_ne hv 16 flags
  constructor
  · rw [standardDigits, hds, hp]
    rfl
  · rw [standardDigits, plainDigits_omitted hp hv, hds]
    simp [Flags.omitted]

/-- With a precision of 0 read where the standard omits it, the mark takes no digit, and the zeros
of a field are missing. -/
theorem hexText_omitted_iff (hhash : flags.hash = true) (hv : value ≠ 0#64)
    (hsign : sign false flags = []) (hp : flags.precision = false) :
    numberText value false 16 0 width flags.omitted =
        standardField (hexMark flags) (standardDigits value 16 0 flags) width flags ↔
      HexConforms (numeral flags.uppercase 16 value.toNat).length 0 width flags.omitted ∧
        (flags.left = false → flags.zeropad = true →
          width ≤ 2 + (numeral flags.uppercase 16 value.toNat).length) := by
  have hhash' : flags.omitted.hash = true := hhash
  have hsign' : sign false flags.omitted = [] := hsign
  have hfits : flags.omitted.Fits 0 := ⟨fun _ => rfl, fun _ => rfl⟩
  have hmark : hexMark flags.omitted = hexMark flags := rfl
  have hmarkLen : (hexMark flags).length = 2 := rfl
  obtain ⟨hds, hds'⟩ := hexDigits_eq hv hp
  have hlen := numeral_length_le flags.uppercase value
  have hconforms : HexConforms (numeral flags.uppercase 16 value.toNat).length 0 width
      flags.omitted := by
    have hroom : max (numeral flags.uppercase 16 value.toNat).length 0 + 2 ≤ ntoaBufferSize := by
      unfold ntoaBufferSize
      omega
    exact ⟨fun _ => Nat.zero_le _, fun _ hz => absurd hz Bool.false_ne_true, hroom,
      fun hp' => absurd hp'.symm Bool.false_ne_true⟩
  rw [(hexText_standard_iff hhash' hv hsign' hfits).mpr hconforms, hmark, hds, hds']
  generalize numeral flags.uppercase 16 value.toNat = ds at hconforms ⊢
  rw [and_iff_right hconforms]
  have hleft : flags.omitted.left = flags.left := rfl
  have hzero : flags.omitted.zeropad = false := rfl
  unfold standardField
  rw [hleft, hzero, hp, hmarkLen]
  cases hl : flags.left with
  | true => simp
  | false =>
    cases hz : flags.zeropad with
    | false => simp
    | true =>
      simp only [Bool.false_and, Bool.not_false, Bool.and_self, Bool.false_eq_true, if_false, if_true,
        forall_const]
      constructor
      · intro htext
        by_contra hroom
        obtain ⟨z, hz'⟩ : ∃ z, width - (2 + ds.length) = z + 1 :=
          ⟨width - (2 + ds.length) - 1, by omega⟩
        -- a space where the standard has the mark
        rw [hz', List.replicate_succ, List.cons_append, hexMark, List.cons_append] at htext
        exact absurd (List.cons.inj htext).1 (by decide)
      · intro hroom
        have hnone : width - (2 + ds.length) = 0 := by omega
        rw [hnone]
        rfl

/-! ## Directives -/

variable {w : Written} {rest : List Char} {va va' : Va} {d s : Directive}

/-- No sign goes before hexadecimal digits. -/
theorem hexFlags_sign (hbase : integerBase s.specifier = 16) (arg : BitVec 64) :
    sign false (integerFlags s.specifier s.flags) = [] ∧
      (integerValue s.specifier (integerFlags s.specifier s.flags) arg).2 = false := by
  have hsigned : isSigned s.specifier = false := by
    cases hs : isSigned s.specifier with
    | false => rfl
    | true =>
      have hspec : s.specifier = 'i' ∨ s.specifier = 'd' := by simpa [isSigned] using hs
      rcases hspec with hspec | hspec
      · rw [hspec] at hbase
        exact absurd hbase (by decide)
      · rw [hspec] at hbase
        exact absurd hbase (by decide)
  exact ⟨by simp [sign, integerFlags, hsigned], by simp [integerValue, hsigned]⟩

/-- When a hexadecimal directive with `#` has the text of the standard, for a value other than
zero. -/
theorem hexDirective_standard_iff (hw : w.Ok) (hsmall : w.Small)
    (h : directive (w.render ++ rest) va = some (d, rest, va')) (hs : w.standard va = some (s, va'))
    (hbase : integerBase s.specifier = 16) (hhash : s.flags.hash = true) (arg : BitVec 64) :
    let flags := integerFlags s.specifier s.flags
    let v := (integerValue s.specifier flags arg).1
    let n := (numeral flags.uppercase 16 v.toNat).length
    v ≠ 0#64 →
      (d.integerText arg = s.standardHex arg ↔
        HexConforms n s.precision s.width (integerFlags d.specifier d.flags) ∧
          (Omitted d s → flags.left = false → flags.zeropad = true → s.width ≤ 2 + n)) := by
  intro flags v n hv
  obtain ⟨s', hs', hread⟩ := directive_standard hw hsmall h
  cases hs.symm.trans hs'
  have hflag : flags.hash = true := by simp [flags, integerFlags, hhash, hbase]
  obtain ⟨hsign, hneg⟩ := hexFlags_sign hbase arg
  cases hread with
  | same =>
    have htext : d.integerText arg = numberText v false 16 d.precision d.width flags := by
      rw [← hneg, ← hbase]
      rfl
    rw [htext]
    exact (hexText_standard_iff hflag hv hsign (integerFlags_fits h)).trans
      (and_iff_left fun ho => absurd ho (not_omitted_self d)).symm
  | omitted hp hprec =>
    have hp' : flags.precision = false := hp
    have hflags : integerFlags s.specifier { s.flags with precision := true } = flags.omitted := by
      simp [flags, integerFlags, Flags.omitted]
    have hvalue : (integerValue s.specifier flags.omitted arg) = (v, false) := by
      rw [← hneg]
      rfl
    have homitted : Omitted { s with flags := { s.flags with precision := true } } s := ⟨rfl, hp⟩
    dsimp only [Directive.integerText, Directive.standardHex]
    rw [hflags, hprec, hvalue, hbase]
    exact (hexText_omitted_iff hflag hv hsign hp').trans
      (and_congr_right fun _ => (imp_iff_right homitted).symm)

theorem hexDirective_width : Directive.integerText ⟨{ hash := true }, 2, 0, 'x'⟩ 255 ≠
    Directive.standardHex ⟨{ hash := true }, 2, 0, 'x'⟩ 255 := by
  have hw : Written.Ok ⟨['#'], .digits ['2'], none, .int, 'x'⟩ :=
    ⟨⟨List.all_eq_true.mp rfl, stops_cons.mpr rfl⟩,
      ⟨⟨by decide, List.all_eq_true.mp rfl⟩, stops_cons.mpr rfl⟩, stops_cons.mpr rfl, rfl⟩
  have hsmall : Written.Small ⟨['#'], .digits ['2'], none, .int, 'x'⟩ :=
    ⟨show numberOf ['2'] < 2 ^ 32 by decide, fun a ha => by cases ha⟩
  have hread : directive (Written.render ⟨['#'], .digits ['2'], none, .int, 'x'⟩ ++ [NUL]) [] =
      some (⟨{ hash := true }, 2, 0, 'x'⟩, [NUL], []) := rfl
  intro heq
  have hiff := hexDirective_standard_iff hw hsmall hread rfl rfl rfl 255 (by decide)
  exact absurd rfl ((hiff.mp heq).1.kept rfl).1

end

/-! ## Pointers -/

/-- A pointer directive with no flags but `0` and `#`, and no precision. -/
structure Directive.Bare (d : Directive) : Prop where
  left : d.flags.left = false
  plus : d.flags.plus = false
  space : d.flags.space = false
  noPrecision : d.flags.precision = false
  precision : d.precision = 0

/-- The digits `%p` writes. -/
def hexDigit (d : Nat) : Char := d.digitChar.toUpper

theorem hexDigit_inj : ∀ c < 16, ∀ d < 16, hexDigit c = hexDigit d → c = d := by decide

open Base Numeral

theorem pointerDigits (w : BitVec 64) :
    List.replicate (16 - (numeral true 16 w.toNat).length) '0' ++ numeral true 16 w.toNat =
      fixed hexDigit 16 16 w.toNat := by
  have hlt : w.toNat < 16 ^ 16 := by
    have := w.isLt
    omega
  have hmap := fixed_map (g := Nat.digitChar) (b := 16) Char.toUpper 16 w.toNat
  rw [fixed_eq_toDigits (by decide) (fun _ _ => rfl) (by decide) hlt, List.map_append,
    List.map_replicate] at hmap
  rw [numeral, List.length_map]
  exact hmap

variable {d : Directive}

theorem pointerText_plain (hd : d.Bare) (hhash : d.flags.hash = false) (w : BitVec 64) :
    d.pointerText w = fixed hexDigit 16 16 w.toNat := by
  have hhash' : (pointerFlags d.flags).hash = false := hhash
  have hfits : (pointerFlags d.flags).Fits d.precision :=
    ⟨fun _ => hd.precision, fun h => absurd (hd.noPrecision.symm.trans h) (by decide)⟩
  have hsign : sign false (pointerFlags d.flags) = [] := by
    simp [sign, pointerFlags, hd.plus, hd.space]
  have hds : plainDigits w 16 (pointerFlags d.flags) = numeral true 16 w.toNat := by
    simp [plainDigits, pointerFlags, hd.noPrecision]
  have hlen := numeral_length_le true w
  have hconforms : Conforms (plainDigits w 16 (pointerFlags d.flags)).length
      (sign false (pointerFlags d.flags)) d.precision pointerWidth (pointerFlags d.flags) := by
    rw [hds, hsign, hd.precision]
    exact ⟨fun _ => Nat.zero_le _, fun _ _ => by decide, by
      rw [Nat.max_eq_left (Nat.zero_le _)]
      exact Nat.le_trans hlen (by decide), fun _ => .inl rfl⟩
  rw [Directive.pointerText,
    (numberText_standard_iff (by decide) (by decide) hhash' hfits).mpr hconforms, standardText,
    standardDigits_eq hfits, hds, hsign, hd.precision, ← pointerDigits]
  simp [standardField, pointerFlags, pointerWidth, hd.left, hd.noPrecision]

/-- The mark takes the place of the two highest digits. -/
theorem pointerText_hash (hd : d.Bare) (hhash : d.flags.hash = true) {w : BitVec 64} (hw : w ≠ 0#64) :
    d.pointerText w = ['0', 'X'] ++ fixed hexDigit 16 14 w.toNat := by
  have hhash' : (pointerFlags d.flags).hash = true := hhash
  have hsign : sign false (pointerFlags d.flags) = [] := by
    simp [sign, pointerFlags, hd.plus, hd.space]
  have hlen := numeral_length_le true w
  have hdigits := pointerDigits w
  have hupper : (pointerFlags d.flags).uppercase = true := rfl
  have hcount : zeroCount (numeral true 16 w.toNat).length d.precision pointerWidth
      (pointerFlags d.flags) = 16 - (numeral true 16 w.toNat).length := by
    simp [zeroCount, pointerFlags, hd.left, hd.precision, pointerWidth, ntoaBufferSize]
  rw [Directive.pointerText, hashText_eq hhash' hw hsign, hupper]
  dsimp only
  rw [hcount]
  generalize numeral true 16 w.toNat = ds at hlen hdigits ⊢
  -- the array back to front
  have hrev : (ds.reverse ++ List.replicate (16 - ds.length) '0').reverse =
      fixed hexDigit 16 16 w.toNat := by
    rw [List.reverse_append, List.reverse_reverse, List.reverse_replicate, hdigits]
  generalize ds.reverse ++ List.replicate (16 - ds.length) '0' = buf at hrev ⊢
  have hbuf : buf.length = pointerWidth := by
    rw [← List.length_reverse, hrev, fixed_length, pointerWidth]
  have hp : (pointerFlags d.flags).precision = false := hd.noPrecision
  have hcut : buf.dropLast.dropLast.reverse = fixed hexDigit 16 14 w.toNat := by
    rw [← List.tail_reverse, ← List.tail_reverse, hrev, ← fixed_drop 2 14, ← List.drop_one,
      ← List.drop_one, List.drop_drop]
  have hmark : (hexMark (pointerFlags d.flags)).length = 2 := rfl
  rw [giveUp_full hp hbuf (by decide), List.take_of_length_le, List.reverse_append,
    List.reverse_reverse, hcut]
  · simp [field, pointerFlags, hd.left, hexMark]
  · simp [hmark, hbuf, ntoaBufferSize, pointerWidth]

/-- A null pointer has no mark. -/
theorem pointerText_zero (hd : d.Bare) : d.pointerText 0#64 = List.replicate 16 '0' := by
  let d' : Directive := { d with flags := { d.flags with hash := false } }
  have hd' : d'.Bare := ⟨hd.left, hd.plus, hd.space, hd.noPrecision, hd.precision⟩
  have hsame : d.pointerText 0#64 = d'.pointerText 0#64 := rfl
  rw [hsame, pointerText_plain hd' rfl]
  exact fixed_zero 16

/-- `%p` tells all pointers apart, `%#p` the null pointer and the pointers that differ below bit
56. -/
theorem pointerText_eq_iff (hd : d.Bare) (w w' : BitVec 64) :
    d.pointerText w = d.pointerText w' ↔
      w = w' ∨ d.flags.hash = true ∧ w ≠ 0#64 ∧ w' ≠ 0#64 ∧ w.setWidth 56 = w'.setWidth 56 := by
  have hlow : fixed hexDigit 16 14 w.toNat = fixed hexDigit 16 14 w'.toNat ↔
      w.setWidth 56 = w'.setWidth 56 := by
    have hpow : 16 ^ 14 = 2 ^ 56 := by decide
    have hset : ∀ w : BitVec 64, (w.setWidth 56).toNat = w.toNat % 2 ^ 56 := fun _ =>
      BitVec.toNat_setWidth _ _
    rw [fixed_eq_iff (by decide) hexDigit_inj, ← BitVec.toNat_inj, hset, hset, hpow]
  cases hhash : d.flags.hash with
  | false =>
    have hall : ∀ w : BitVec 64, w.toNat % 16 ^ 16 = w.toNat := fun w =>
      Nat.mod_eq_of_lt (by have := w.isLt; omega)
    rw [pointerText_plain hd hhash, pointerText_plain hd hhash, fixed_eq_iff (by decide) hexDigit_inj,
      hall, hall, BitVec.toNat_inj]
    simp
  | true =>
    have hzero : ∀ {w : BitVec 64}, w ≠ 0#64 → d.pointerText w ≠ d.pointerText 0#64 := by
      intro w hw
      rw [pointerText_hash hd hhash hw, pointerText_zero hd]
      intro h
      cases h
    by_cases hw : w = 0#64
    · by_cases hw' : w' = 0#64
      · simp [hw, hw']
      · simpa [hw, Ne.symm hw'] using (hzero hw').symm
    · by_cases hw' : w' = 0#64
      · simpa [hw, hw'] using hzero hw
      · rw [pointerText_hash hd hhash hw, pointerText_hash hd hhash hw', List.append_cancel_left_eq,
          hlow]
        constructor
        · exact fun h => .inr ⟨rfl, hw, hw', h⟩
        · rintro (h | h)
          · rw [h]
          · exact h.2.2.2

theorem pointerText_high :
    Directive.pointerText ⟨{ hash := true }, 0, 0, 'p'⟩ 0x0100000000000001 =
      Directive.pointerText ⟨{ hash := true }, 0, 0, 'p'⟩ 1 :=
  (pointerText_eq_iff ⟨rfl, rfl, rfl, rfl, rfl⟩ _ _).mpr (.inr ⟨rfl, by decide, by decide, rfl⟩)

end Format
end DeliceOS
