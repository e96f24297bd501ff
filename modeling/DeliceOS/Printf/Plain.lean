import DeliceOS.Boot.Log
import DeliceOS.Printf.Entry
import DeliceOS.Printf.Grammar
import DeliceOS.Printf.Standard

/-!
# Printf.Plain

Integer directives without a field: the numbers as they are. `atoi`, which reads the numbers in a
format, reads them back.

* `integerText_signed`, `integerText_unsigned`: the text of such a directive.
* `atoi_numeral`: a decimal number is read back modulo `2 ^ 32`.
* `prints_simple`: formats of plain characters and of `%lx`, `%x` and `%d`.
* `printLog_eq`: what the loop over the memory map prints.
-/

namespace DeliceOS
namespace Format

open Base Emit Numeral

/-- An integer directive with no flags, no width and no precision. -/
structure Directive.Plain (d : Directive) : Prop where
  integer : conversion d.specifier = .integer
  left : d.flags.left = false
  zeropad : d.flags.zeropad = false
  hash : d.flags.hash = false
  plus : d.flags.plus = false
  space : d.flags.space = false
  uppercase : d.flags.uppercase = false
  noPrecision : d.flags.precision = false
  width : d.width = 0
  precision : d.precision = 0

section

variable {d : Directive}

theorem numeral_lower (base n : Nat) : numeral false base n = Nat.toDigits base n := by
  simp [numeral]

/-- Digits that leave room for a sign. -/
theorem numberText_plain {value : BitVec 64} {negative : Bool} {base : Nat} {flags : Flags}
    (hb : 1 < base) (hb' : base ≤ 16) (hl : flags.left = false) (hz : flags.zeropad = false)
    (hhash : flags.hash = false) (hp : flags.precision = false)
    (hlen : (numeral flags.uppercase base value.toNat).length < ntoaBufferSize) :
    numberText value negative base 0 0 flags =
      sign negative flags ++ numeral flags.uppercase base value.toNat := by
  have hfits : flags.Fits 0 := ⟨fun _ => rfl, fun h => by rw [hp] at h; cases h⟩
  have hds : plainDigits value base flags = numeral flags.uppercase base value.toNat := by
    simp [plainDigits, hp]
  have hconforms : Conforms (plainDigits value base flags).length (sign negative flags) 0 0 flags := by
    rw [hds]
    refine ⟨fun _ => Nat.zero_le _, fun _ _ => Nat.zero_le _, ?_, ?_⟩
    · rw [Nat.max_eq_left (Nat.zero_le _)]
      exact Nat.le_of_lt hlen
    · intro h
      rw [Nat.max_eq_left (Nat.zero_le _)] at h
      omega
  rw [(numberText_standard_iff hb hb' hhash hfits).mpr hconforms, standardText,
    standardDigits_eq hfits, hds]
  simp [standardField, hl, hz]

theorem numeral_length_lt (uppercase : Bool) {base : Nat} (hb : 8 ≤ base) (value : BitVec 64) :
    (numeral uppercase base value.toNat).length < ntoaBufferSize := by
  have hlt : value.toNat < base ^ 22 :=
    Nat.lt_of_lt_of_le (by have := value.isLt; omega) (Nat.pow_le_pow_left hb 22)
  have hle := (Nat.length_toDigits_le_iff (n := value.toNat) (b := base) (by omega) (by decide)).mpr hlt
  rw [numeral, List.length_map]
  exact Nat.lt_of_le_of_lt hle (by decide)

theorem Directive.Plain.flags (h : d.Plain) :
    let f := integerFlags d.specifier d.flags
    f.left = false ∧ f.zeropad = false ∧ f.hash = false ∧ f.precision = false ∧
      ∀ negative, sign negative f = if negative then ['-'] else [] := by
  simp [integerFlags, h.left, h.zeropad, h.hash, h.noPrecision, h.plus, h.space, sign]

theorem integerText_unsigned (h : d.Plain) (hsigned : isSigned d.specifier = false)
    (hbase : 8 ≤ integerBase d.specifier) (w : BitVec 64) :
    d.integerText w = numeral (d.specifier == 'X') (integerBase d.specifier)
      (unsignedArg (integerFlags d.specifier d.flags) w).toNat := by
  obtain ⟨hl, hz, hhash, hp, hsign⟩ := h.flags
  have hupper : (integerFlags d.specifier d.flags).uppercase = (d.specifier == 'X') := by
    simp [integerFlags, h.uppercase]
  rw [Directive.integerText, h.precision, h.width, integerValue, hsigned]
  simp only [Bool.false_eq_true, if_false]
  rw [numberText_plain (integerBase_gt _) (integerBase_le _) hl hz hhash hp
    (numeral_length_lt _ hbase _), hsign, hupper]
  simp

theorem slt_zero_iff (v : BitVec 64) : v.slt 0 = true ↔ v.toInt < 0 := by
  rw [BitVec.slt_iff_toInt_lt]
  rfl

/-- The magnitude is right for the least value too. -/
theorem toNat_magnitude (v : BitVec 64) : (magnitude v).toNat = v.toInt.natAbs := by
  have hlt := v.isLt
  have hpos : (0#64).slt v = true ↔ 0 < v.toInt := by
    rw [BitVec.slt_iff_toInt_lt]
    rfl
  have hint := BitVec.toInt_eq_toNat_cond v
  unfold magnitude
  split
  · rename_i h
    have := hpos.mp h
    split at hint <;> omega
  · rename_i h
    have : ¬ 0 < v.toInt := fun h' => h (hpos.mpr h')
    rw [BitVec.toNat_sub]
    split at hint <;> simp <;> omega

theorem decimal_eq (i : Int) :
    decimal i = (if i < 0 then ['-'] else []) ++ Nat.toDigits 10 i.natAbs := by
  cases i with
  | ofNat n =>
    have hpos : ¬ Int.ofNat n < 0 := Int.not_lt.mpr (Int.natCast_nonneg n)
    rw [if_neg hpos, List.nil_append]
    rfl
  | negSucc n =>
    rw [if_pos (Int.negSucc_lt_zero n)]
    rfl

theorem integerText_signed (h : d.Plain) (hsigned : isSigned d.specifier = true) (w : BitVec 64) :
    d.integerText w = decimal (signedArg (integerFlags d.specifier d.flags) w).toInt := by
  obtain ⟨hl, hz, hhash, hp, hsign⟩ := h.flags
  have hspec : d.specifier = 'i' ∨ d.specifier = 'd' := by simpa [isSigned] using hsigned
  have hbase : integerBase d.specifier = 10 := by
    rcases hspec with h | h <;> rw [h] <;> rfl
  have hupper : (integerFlags d.specifier d.flags).uppercase = false := by
    rcases hspec with h' | h' <;> simp [integerFlags, h.uppercase, h']
  rw [Directive.integerText, h.precision, h.width, integerValue, hsigned, hbase]
  simp only [if_true]
  rw [numberText_plain (by decide) (by decide) hl hz hhash hp (numeral_length_lt _ (by decide) _),
    hsign, hupper, numeral_lower, toNat_magnitude, decimal_eq]
  simp only [slt_zero_iff]

end

/-! ## Reading a number back -/

theorem atoiFrom_append (ds : List Char) (hds : ∀ c ∈ ds, isDigit c) (i : Nat) (s : List Char) :
    atoiFrom i (ds ++ s) = atoiFrom (atoiFrom i ds).1 s := by
  induction ds generalizing i with
  | nil => rfl
  | cons c ds ih =>
    have hc := hds c List.mem_cons_self
    rw [List.cons_append, atoiFrom, if_pos hc, ih (fun c hc => hds c (List.mem_cons_of_mem _ hc)),
      atoiFrom, if_pos hc]

theorem digitChar_decimal :
    ∀ d < 10, isDigit d.digitChar = true ∧ d.digitChar.toNat - '0'.toNat = d := by decide

theorem isDigit_toDigits (n : Nat) : ∀ c ∈ Nat.toDigits 10 n, isDigit c := by
  intro c hc
  obtain ⟨d, hd, rfl⟩ := mem_toDigits (by decide) n hc
  exact (digitChar_decimal d hd).1

theorem atoiFrom_digit {d : Nat} (hd : d < 10) (i : Nat) :
    atoiFrom i [d.digitChar] = ((i * 10 + d) % 2 ^ 32, []) := by
  rw [atoiFrom, if_pos (digitChar_decimal d hd).1, (digitChar_decimal d hd).2]
  rfl

theorem atoiFrom_toDigits (n : Nat) : (atoiFrom 0 (Nat.toDigits 10 n)).1 = n % 2 ^ 32 := by
  induction n using Nat.strong_induction_on with
  | _ n ih =>
    by_cases hn : n < 10
    · rw [Nat.toDigits_of_lt_base hn, atoiFrom_digit hn]
      omega
    · rw [Nat.toDigits_of_base_le (by decide) (Nat.not_lt.mp hn),
        atoiFrom_append _ (isDigit_toDigits _), ih (n / 10) (by omega),
        atoiFrom_digit (Nat.mod_lt n (by decide))]
      omega

theorem atoi_numeral (n : Nat) {rest : List Char} (h : Stops isDigit rest) :
    atoi (Nat.toDigits 10 n ++ rest) = (n % 2 ^ 32, rest) := by
  rw [atoi, atoiFrom_render _ (isDigit_toDigits n) h, atoiFrom_toDigits]

/-- What `%u` and its longer forms print is read back modulo `2 ^ 32`. -/
theorem atoi_integerText {d : Directive} (h : d.Plain) (hspec : d.specifier = 'u') (w : BitVec 64)
    {rest : List Char} (hrest : Stops isDigit rest) :
    atoi (d.integerText w ++ rest) =
      ((unsignedArg (integerFlags d.specifier d.flags) w).toNat % 2 ^ 32, rest) := by
  have hbase : integerBase d.specifier = 10 := by rw [hspec]; rfl
  have htext := integerText_unsigned h (by rw [hspec]; rfl) (by rw [hbase]; decide) w
  rw [hbase, hspec] at htext
  rw [htext, hspec, show ('u' == 'X') = false from rfl, numeral_lower, atoi_numeral _ hrest]

theorem atoi_integerText_long :
    atoi (Directive.integerText ⟨{ long := true }, 0, 0, 'u'⟩ 0x100000007 ++ [NUL]) = (7, [NUL]) :=
  atoi_integerText ⟨rfl, rfl, rfl, rfl, rfl, rfl, rfl, rfl, rfl, rfl⟩ rfl _ (stops_cons.mpr rfl)

/-! ## The formats of the boot log -/

/-- A format of `n` directives out of `%lx`, `%x` and `%d`. -/
inductive Simple : List Char → Nat → Prop where
  | nil : Simple [] 0
  | plain {c f n} : c ≠ NUL → c ≠ '%' → Simple f n → Simple (c :: f) n
  | longHex {f n} : Simple f n → Simple ('%' :: 'l' :: 'x' :: f) (n + 1)
  | hex {f n} : Simple f n → Simple ('%' :: 'x' :: f) (n + 1)
  | int {f n} : Simple f n → Simple ('%' :: 'd' :: f) (n + 1)

theorem bootPrintf_plain {c : Char} (hc : c ≠ '%') (f : List Char) (args : List (BitVec 64)) :
    Boot.printf (c :: f) args = c :: Boot.printf f args := by
  rw [Boot.printf]
  · intros
    contradiction
  · intros
    contradiction
  · intros
    contradiction

section

variable {env : Env} {va : Va} {f : List Char}

theorem text_longHex (w : BitVec 64) :
    Directive.text env ⟨{ long := true }, 0, 0, 'x'⟩ (.int w :: va) =
      some (Nat.toDigits 16 w.toNat, va) := by
  have hplain : Directive.Plain ⟨{ long := true }, 0, 0, 'x'⟩ :=
    ⟨rfl, rfl, rfl, rfl, rfl, rfl, rfl, rfl, rfl, rfl⟩
  have htext := integerText_unsigned hplain rfl (by decide) w
  rw [show (_ == 'X') = false from rfl, numeral_lower] at htext
  show some (_, va) = _
  rw [htext]
  rfl

theorem text_hex (w : BitVec 64) :
    Directive.text env ⟨{}, 0, 0, 'x'⟩ (.int w :: va) =
      some (Nat.toDigits 16 (w.setWidth 32).toNat, va) := by
  have hplain : Directive.Plain ⟨{}, 0, 0, 'x'⟩ := ⟨rfl, rfl, rfl, rfl, rfl, rfl, rfl, rfl, rfl, rfl⟩
  have htext := integerText_unsigned hplain rfl (by decide) w
  have hval : unsignedArg (integerFlags 'x' {}) w = (w.setWidth 32).setWidth 64 := rfl
  have hnat : ((w.setWidth 32).setWidth 64).toNat = (w.setWidth 32).toNat := by
    simp only [BitVec.toNat_setWidth]
    omega
  rw [show (_ == 'X') = false from rfl, numeral_lower, hval, hnat] at htext
  show some (_, va) = _
  rw [htext]
  rfl

theorem text_int (w : BitVec 64) :
    Directive.text env ⟨{}, 0, 0, 'd'⟩ (.int w :: va) =
      some (decimal (w.setWidth 32).toInt, va) := by
  have hplain : Directive.Plain ⟨{}, 0, 0, 'd'⟩ := ⟨rfl, rfl, rfl, rfl, rfl, rfl, rfl, rfl, rfl, rfl⟩
  have htext := integerText_signed hplain rfl w
  have hval : signedArg (integerFlags 'd' {}) w = (w.setWidth 32).signExtend 64 := rfl
  rw [hval, BitVec.toInt_signExtend_of_le (by decide)] at htext
  show some (_, va) = _
  rw [htext]

/-- The plain reading of a format and the real one print the same text. -/
theorem prints_simple {n : Nat} (h : Simple f n) (rest : List Char) :
    ∀ args : List (BitVec 64), args.length = n → ∀ va : Va,
      Prints env (f ++ NUL :: rest) (args.map .int ++ va) (Boot.printf f args) va := by
  induction h with
  | nil =>
    intro args hargs va
    obtain rfl := List.length_eq_zero_iff.mp hargs
    exact .done
  | plain hnul hpercent _ ih =>
    intro args hargs va
    rw [bootPrintf_plain hpercent]
    exact .plain hnul hpercent (ih args hargs va)
  | longHex _ ih =>
    intro args hargs va
    cases args with
    | nil => cases hargs
    | cons w args => exact .directive rfl (text_longHex w) (ih args (Nat.succ.inj hargs) va)
  | hex _ ih =>
    intro args hargs va
    cases args with
    | nil => cases hargs
    | cons w args => exact .directive rfl (text_hex w) (ih args (Nat.succ.inj hargs) va)
  | int _ ih =>
    intro args hargs va
    cases args with
    | nil => cases hargs
    | cons w args => exact .directive rfl (text_int w) (ih args (Nat.succ.inj hargs) va)

end

/-- The format of the loop over the memory map. -/
def e820Format : List Char := "e820 entry addr entry %lx %x %d\n".toList

theorem simple_e820Format : Simple e820Format 3 := by
  unfold e820Format
  simp only [String.toList]
  repeat first
    | exact .nil
    | refine .longHex ?_
    | refine .hex ?_
    | refine .int ?_
    | refine .plain (by decide) (by decide) ?_

/-- The calls of `printf_` in the loop of `start_kernel` over the map. -/
def printLog {σ : Type} (env : Env) (putcharSerial : Char → σ → σ) :
    List Boot.Descriptor → σ → Option σ
  | [], s => some s
  | e :: es, s =>
    match printf env putcharSerial s (e820Format ++ [NUL])
      [.int e.addr, .int e.len, .int (e.type.setWidth 64)] with
    | none => none
    | some (_, s) => printLog env putcharSerial es s

theorem NUL_notMem_line (e : Boot.Descriptor) : NUL ∉ Boot.line e := by
  have hhex : ∀ n, NUL ∉ Nat.toDigits 16 n := notMem_toDigits (by decide) (by decide) (by decide)
  have hdec : ∀ i, NUL ∉ decimal i := notMem_decimal (by decide) (by decide)
  have hstr : NUL ∉ "e820 entry addr entry ".toList := by decide
  rw [Boot.line_eq]
  unfold Boot.body
  simp only [List.mem_append, List.mem_cons, not_or]
  exact ⟨⟨hstr, hhex _, by decide, hhex _, by decide, hdec _⟩, by decide⟩

/-- The loop sends the lines of the map, whatever the serial port does with them. -/
theorem printLog_eq {σ : Type} (env : Env) (putcharSerial : Char → σ → σ) (es : List Boot.Descriptor)
    (s : σ) :
    printLog env putcharSerial es s =
      some ((Boot.log es).foldl (fun s c => putcharSerial c s) s) := by
  induction es generalizing s with
  | nil => rfl
  | cons e es ih =>
    have hprints : Prints env (e820Format ++ [NUL])
        [.int e.addr, .int e.len, .int (e.type.setWidth 64)] (Boot.line e) [] :=
      prints_simple simple_e820Format [] [e.addr, e.len, e.type.setWidth 64] rfl []
    have hfilter : (Boot.line e).filter (· != NUL) = Boot.line e := by
      rw [List.filter_eq_self]
      intro c hc
      simpa using fun h : c = NUL => NUL_notMem_line e (h ▸ hc)
    have hcall : printf env putcharSerial s (e820Format ++ [NUL])
        [.int e.addr, .int e.len, .int (e.type.setWidth 64)] =
        some (returned (Boot.line e), (Boot.line e).foldl (fun s c => putcharSerial c s) s) := by
      rw [printf_of_prints hprints, sent, hfilter]
    rw [printLog, hcall]
    dsimp only
    rw [ih, ← List.foldl_append]
    rfl

end Format
end DeliceOS
