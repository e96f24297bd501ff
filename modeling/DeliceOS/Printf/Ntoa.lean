import DeliceOS.Base.Emit
import DeliceOS.Base.Numeral
import Mathlib.Data.List.Basic
import Mathlib.Algebra.Group.Nat.Defs

/-!
# Printf.Ntoa

The integer conversions of `printf.cc`. The digits go into an array of 32 characters on the stack,
the lowest first, and after them the leading zeros, the mark of `#` and the sign; `_out_rev` sends
the array back to front, in a field of spaces. A write past the array is a fault, `none`.

* `fill_eq`, `pushHash_eq`, `pushSign_eq`, `digits_eq`: what each part leaves in the array.
* `ntoa_emits`: the text a conversion sends, whatever the output function. No write is past the
  array.
-/

namespace DeliceOS
namespace Format

open Base Emit

structure Flags where
  zeropad : Bool := false
  left : Bool := false
  plus : Bool := false
  space : Bool := false
  hash : Bool := false
  uppercase : Bool := false
  char : Bool := false
  short : Bool := false
  long : Bool := false
  longLong : Bool := false
  precision : Bool := false
  adaptExp : Bool := false
  deriving DecidableEq, Repr

/-- `PRINTF_NTOA_BUFFER_SIZE` -/
def ntoaBufferSize : Nat := 32

/-- `buf[len++] = c` -/
def push (buf : List Char) (c : Char) : Option (List Char) :=
  if buf.length < ntoaBufferSize then some (buf ++ [c]) else none

section

variable {σ : Type} (put : Put Char σ)

/-- `n` calls of `out(' ', buffer, idx++, maxlen)` -/
def spaces : Nat → Cursor σ → Cursor σ
  | 0, k => k
  | n + 1, k => spaces n (k.put put ' ')

def outRev (buf : List Char) (width : Nat) (flags : Flags) (k : Cursor σ) : Cursor σ :=
  let k₁ := if !flags.left && !flags.zeropad then spaces put (width - buf.length) k else k
  -- the characters from the last to the first
  let k₂ := buf.foldr (fun c k => k.put put c) k₁
  if flags.left then spaces put (width - (k₂.idx - k.idx)) k₂ else k₂

/-- `while (len < stop && len < PRINTF_NTOA_BUFFER_SIZE) buf[len++] = '0'` -/
def fill (stop : Nat) : Nat → List Char → Option (List Char)
  | 0, _ => none
  | fuel + 1, buf =>
    if buf.length < stop ∧ buf.length < ntoaBufferSize then
      (push buf '0').bind (fill stop fuel)
    else some buf

/-- One or two characters of a full field are given up for the mark of `#`. -/
def giveUp (buf : List Char) (base prec width : Nat) (flags : Flags) : List Char :=
  if !flags.precision && buf.length ≠ 0 && (buf.length = prec || buf.length = width) then
    let buf := buf.dropLast
    if buf.length ≠ 0 && base = 16 then buf.dropLast else buf
  else buf

def pushLetter (buf : List Char) (base : Nat) (flags : Flags) : Option (List Char) :=
  if base = 16 ∧ !flags.uppercase ∧ buf.length < ntoaBufferSize then push buf 'x'
  else if base = 16 ∧ flags.uppercase ∧ buf.length < ntoaBufferSize then push buf 'X'
  else if base = 2 ∧ buf.length < ntoaBufferSize then push buf 'b'
  else some buf

def pushHash (buf : List Char) (base prec width : Nat) (flags : Flags) : Option (List Char) :=
  (pushLetter (giveUp buf base prec width flags) base flags).bind fun buf =>
    if buf.length < ntoaBufferSize then push buf '0' else some buf

def pushSign (buf : List Char) (negative : Bool) (flags : Flags) : Option (List Char) :=
  if buf.length < ntoaBufferSize then
    if negative then push buf '-'
    else if flags.plus then push buf '+'
    else if flags.space then push buf ' '
    else some buf
  else some buf

/-- The width the zeros fill: one place of it is the sign's. -/
def digitWidth (negative : Bool) (width : Nat) (flags : Flags) : Nat :=
  if !flags.left && (width ≠ 0 && flags.zeropad && (negative || (flags.plus || flags.space))) then
    width - 1
  else width

/-- `pad leading zeros` -/
def pushZeros (buf : List Char) (prec width : Nat) (flags : Flags) : Option (List Char) :=
  if flags.left then some buf
  else
    (fill prec (ntoaBufferSize + 1) buf).bind fun buf =>
      if flags.zeropad then fill width (ntoaBufferSize + 1) buf else some buf

def ntoaFormat (buf : List Char) (negative : Bool) (base prec width : Nat) (flags : Flags)
    (k : Cursor σ) : Option (Cursor σ) :=
  let width := digitWidth negative width flags
  (pushZeros buf prec width flags).bind fun buf =>
    (if flags.hash then pushHash buf base prec width flags else some buf).bind fun buf =>
      (pushSign buf negative flags).map fun buf => outRev put buf width flags k

def digit (uppercase : Bool) (d : Nat) : Char :=
  if d < 10 then Char.ofNat ('0'.toNat + d)
  else Char.ofNat ((if uppercase then 'A' else 'a').toNat + d - 10)

/-- `do … while (value && len < PRINTF_NTOA_BUFFER_SIZE)` -/
def digits (base : Nat) (uppercase : Bool) : Nat → Nat → List Char → Option (List Char)
  | 0, _, _ => none
  | fuel + 1, value, buf =>
    (push buf (digit uppercase (value % base))).bind fun buf =>
      if value / base ≠ 0 ∧ buf.length < ntoaBufferSize then
        digits base uppercase fuel (value / base) buf
      else some buf

/-- No `#` for a value of zero. -/
def numberFlags (value : BitVec 64) (flags : Flags) : Flags :=
  if value = 0 then { flags with hash := false } else flags

/-- The body that `_ntoa_long` and `_ntoa_long_long` share. -/
def ntoa (value : BitVec 64) (negative : Bool) (base prec width : Nat) (flags : Flags)
    (k : Cursor σ) : Option (Cursor σ) :=
  let flags := numberFlags value flags
  (if !flags.precision ∨ value ≠ 0 then
      digits base flags.uppercase ntoaBufferSize value.toNat []
    else some []).bind fun buf => ntoaFormat put buf negative base prec width flags k

def ntoaLong : BitVec 64 → Bool → Nat → Nat → Nat → Flags → Cursor σ → Option (Cursor σ) :=
  ntoa put

def ntoaLongLong : BitVec 64 → Bool → Nat → Nat → Nat → Flags → Cursor σ → Option (Cursor σ) :=
  ntoa put

end

/-! ## The text of a conversion -/

/-- A text in a field of spaces. The zeros of a field are part of its text. -/
def field (text : List Char) (width : Nat) (flags : Flags) : List Char :=
  if flags.left then text ++ List.replicate (width - text.length) ' '
  else if flags.zeropad then text
  else List.replicate (width - text.length) ' ' ++ text

def numeral (uppercase : Bool) (base n : Nat) : List Char :=
  (Nat.toDigits base n).map (if uppercase then Char.toUpper else id)

/-- The digits in the array, the lowest first. -/
def rawDigits (value : BitVec 64) (base : Nat) (flags : Flags) : List Char :=
  if flags.precision && value = 0 then []
  else (numeral flags.uppercase base value.toNat).reverse.take ntoaBufferSize

def padZeros (buf : List Char) (stop : Nat) : List Char :=
  buf ++ List.replicate (min stop ntoaBufferSize - buf.length) '0'

def padded (buf : List Char) (prec width : Nat) (flags : Flags) : List Char :=
  if flags.left then buf
  else if flags.zeropad then padZeros (padZeros buf prec) width
  else padZeros buf prec

/-- The mark of `#` as it lies in the array. -/
def hashMark (base : Nat) (flags : Flags) : List Char :=
  (if base = 16 then [if flags.uppercase then 'X' else 'x']
    else if base = 2 then ['b'] else []) ++ ['0']

def sign (negative : Bool) (flags : Flags) : List Char :=
  if negative then ['-'] else if flags.plus then ['+'] else if flags.space then [' '] else []

def formatBuf (buf : List Char) (negative : Bool) (base prec width : Nat) (flags : Flags) :
    List Char :=
  let width := digitWidth negative width flags
  let buf := padded buf prec width flags
  let buf := if flags.hash then giveUp buf base prec width flags ++ hashMark base flags else buf
  (buf ++ sign negative flags).take ntoaBufferSize

def numberText (value : BitVec 64) (negative : Bool) (base prec width : Nat) (flags : Flags) :
    List Char :=
  let flags := numberFlags value flags
  let buf := formatBuf (rawDigits value base flags) negative base prec width flags
  field buf.reverse (digitWidth negative width flags) flags

section

variable {σ : Type} {put : Put Char σ} {buf : List Char} {flags : Flags} {width : Nat}

theorem spaces_emits (n : Nat) : Emits put (spaces put n) (List.replicate n ' ') := by
  intro k
  induction n generalizing k with
  | zero => rfl
  | succ n ih =>
    rw [spaces, ih, List.replicate_succ, emit_cons]

theorem spaces_put (n : Nat) (k : Cursor σ) :
    spaces put n k = emit put (List.replicate n ' ') k := spaces_emits n k

theorem foldr_put (buf : List Char) (k : Cursor σ) :
    buf.foldr (fun c k => k.put put c) k = emit put buf.reverse k := by
  rw [emit, List.foldl_reverse]

theorem outRev_emits (buf : List Char) (width : Nat) (flags : Flags) :
    Emits put (outRev put buf width flags) (field buf.reverse width flags) := by
  intro k
  unfold outRev field
  cases hl : flags.left with
  | true =>
    have hidx : (emit put buf.reverse k).idx - k.idx = buf.reverse.length := by
      rw [emit_idx]
      omega
    simp only [Bool.not_true, Bool.false_and, Bool.false_eq_true, if_false, if_true]
    rw [foldr_put, hidx, spaces_emits, emit_append]
  | false =>
    cases hz : flags.zeropad with
    | true => simpa using foldr_put buf k
    | false =>
      simp only [Bool.not_false, Bool.and_self, if_true, Bool.false_eq_true, if_false]
      rw [spaces_emits, foldr_put, emit_append, List.length_reverse]

/-! ### The array -/

theorem push_of_lt {c : Char} (h : buf.length < ntoaBufferSize) : push buf c = some (buf ++ [c]) :=
  if_pos h

/-- A push under the test for room. -/
theorem push_guarded (c : Char) (h : buf.length ≤ ntoaBufferSize) :
    (if buf.length < ntoaBufferSize then push buf c else some buf) =
      some ((buf ++ [c]).take ntoaBufferSize) := by
  split
  · rename_i hlt
    rw [push_of_lt hlt, List.take_of_length_le]
    rw [List.length_append, List.length_singleton]
    omega
  · rw [List.take_append_of_le_length (by omega), List.take_of_length_le h]

theorem take_take_append (as bs : List Char) (n : Nat) :
    ((as.take n) ++ bs).take n = (as ++ bs).take n := by
  by_cases h : as.length ≤ n
  · rw [List.take_of_length_le h]
  · have hlen : (as.take n).length = n := by rw [List.length_take]; omega
    rw [List.take_append_of_le_length (by omega), List.take_append_of_le_length (by omega),
      List.take_take, Nat.min_self]

theorem padZeros_length (h : buf.length ≤ ntoaBufferSize) (stop : Nat) :
    (padZeros buf stop).length ≤ ntoaBufferSize := by
  rw [padZeros, List.length_append, List.length_replicate]
  omega

theorem fill_eq {stop fuel : Nat} (h : buf.length ≤ ntoaBufferSize)
    (hfuel : ntoaBufferSize < fuel + buf.length) : fill stop fuel buf = some (padZeros buf stop) := by
  induction fuel generalizing buf with
  | zero => omega
  | succ fuel ih =>
    rw [fill]
    by_cases hroom : buf.length < stop ∧ buf.length < ntoaBufferSize
    · have hlen : (buf ++ ['0']).length = buf.length + 1 := by simp
      have hcount : min stop ntoaBufferSize - buf.length =
          min stop ntoaBufferSize - (buf ++ ['0']).length + 1 := by omega
      rw [if_pos hroom, push_of_lt hroom.2, Option.bind_some, ih (by omega) (by omega), padZeros,
        padZeros, hcount, List.replicate_succ, List.append_assoc, List.singleton_append]
    · have hnone : min stop ntoaBufferSize - buf.length = 0 := by omega
      rw [if_neg hroom, padZeros, hnone, List.replicate_zero, List.append_nil]

theorem giveUp_length (h : buf.length ≤ ntoaBufferSize) (base prec width : Nat) (flags : Flags) :
    (giveUp buf base prec width flags).length ≤ ntoaBufferSize := by
  unfold giveUp
  split
  · dsimp only
    split
    · simp only [List.length_dropLast]
      omega
    · simp only [List.length_dropLast]
      omega
  · exact h

theorem pushLetter_eq (h : buf.length ≤ ntoaBufferSize) (base : Nat) (flags : Flags) :
    ∃ letter, hashMark base flags = letter ++ ['0'] ∧
      pushLetter buf base flags = some ((buf ++ letter).take ntoaBufferSize) := by
  have hnone : some buf = some ((buf ++ []).take ntoaBufferSize) := by
    rw [List.append_nil, List.take_of_length_le h]
  unfold hashMark pushLetter
  by_cases h16 : base = 16
  · cases hu : flags.uppercase with
    | true => exact ⟨['X'], by simp [h16], by simpa [h16] using push_guarded 'X' h⟩
    | false => exact ⟨['x'], by simp [h16], by simpa [h16] using push_guarded 'x' h⟩
  · by_cases h2 : base = 2
    · exact ⟨['b'], by simp [h2], by simpa [h2] using push_guarded 'b' h⟩
    · exact ⟨[], by simp [h16, h2], by simpa [h16, h2] using hnone⟩

theorem pushHash_eq (h : buf.length ≤ ntoaBufferSize) (base prec width : Nat) (flags : Flags) :
    pushHash buf base prec width flags =
      some ((giveUp buf base prec width flags ++ hashMark base flags).take ntoaBufferSize) := by
  obtain ⟨letter, hmark, hletter⟩ :=
    pushLetter_eq (giveUp_length h base prec width flags) base flags
  rw [pushHash, hletter, Option.bind_some, push_guarded '0' (List.length_take_le _ _),
    take_take_append, hmark, List.append_assoc]

theorem pushSign_eq (h : buf.length ≤ ntoaBufferSize) (negative : Bool) (flags : Flags) :
    pushSign buf negative flags = some ((buf ++ sign negative flags).take ntoaBufferSize) := by
  have hnil : some buf = some ((buf ++ []).take ntoaBufferSize) := by
    rw [List.append_nil, List.take_of_length_le h]
  have hsign : ∀ c : Char, (if buf.length < ntoaBufferSize then push buf c else some buf) =
      some ((buf ++ [c]).take ntoaBufferSize) := fun c => push_guarded c h
  unfold pushSign sign
  cases negative with
  | true => simpa using hsign '-'
  | false =>
    cases hp : flags.plus with
    | true => simpa using hsign '+'
    | false =>
      cases hs : flags.space with
      | true => simpa using hsign ' '
      | false => simpa using hnil

theorem padded_length (h : buf.length ≤ ntoaBufferSize) (prec width : Nat) (flags : Flags) :
    (padded buf prec width flags).length ≤ ntoaBufferSize := by
  unfold padded
  split
  · exact h
  · split
    · exact padZeros_length (padZeros_length h _) _
    · exact padZeros_length h _

theorem pushZeros_eq (h : buf.length ≤ ntoaBufferSize) (prec width : Nat) (flags : Flags) :
    pushZeros buf prec width flags = some (padded buf prec width flags) := by
  unfold pushZeros padded
  cases flags.left with
  | true => rfl
  | false =>
    have hprec := padZeros_length h prec
    simp only [Bool.false_eq_true, if_false]
    rw [fill_eq h (by omega), Option.bind_some]
    cases flags.zeropad with
    | true => exact fill_eq hprec (by omega)
    | false => rfl

theorem ntoaFormat_emits (h : buf.length ≤ ntoaBufferSize) (negative : Bool) (base prec width : Nat)
    (flags : Flags) (k : Cursor σ) :
    ntoaFormat put buf negative base prec width flags k =
      some (emit put (field (formatBuf buf negative base prec width flags).reverse
        (digitWidth negative width flags) flags) k) := by
  unfold ntoaFormat formatBuf
  generalize digitWidth negative width flags = w
  have hlen := padded_length h prec w flags
  dsimp only
  rw [pushZeros_eq h, Option.bind_some]
  cases flags.hash with
  | true =>
    simp only [if_true]
    rw [pushHash_eq hlen, Option.bind_some, pushSign_eq (List.length_take_le _ _), Option.map_some,
      outRev_emits, take_take_append]
  | false =>
    simp only [Bool.false_eq_true, if_false]
    rw [Option.bind_some, pushSign_eq hlen, Option.map_some, outRev_emits]

theorem digit_eq (uppercase : Bool) {d : Nat} (h : d < 16) :
    digit uppercase d = (if uppercase then Char.toUpper else id) d.digitChar := by
  have hall : ∀ d < 16, digit true d = d.digitChar.toUpper ∧ digit false d = d.digitChar := by decide
  cases uppercase with
  | true => exact (hall d h).1
  | false => exact (hall d h).2

theorem digits_eq {base : Nat} (hb : 1 < base) (hb' : base ≤ 16) (uppercase : Bool) {fuel : Nat}
    (value : Nat) (hroom : buf.length < ntoaBufferSize)
    (hfuel : ntoaBufferSize ≤ fuel + buf.length) :
    digits base uppercase fuel value buf =
      some ((buf ++ (numeral uppercase base value).reverse).take ntoaBufferSize) := by
  induction fuel generalizing value buf with
  | zero => omega
  | succ fuel ih =>
    have hdigit : digit uppercase (value % base) =
        (if uppercase then Char.toUpper else id) (value % base).digitChar :=
      digit_eq uppercase (Nat.lt_of_lt_of_le (Nat.mod_lt _ (by omega)) hb')
    have hlen : (buf ++ [digit uppercase (value % base)]).length = buf.length + 1 := by simp
    rw [digits, push_of_lt hroom, Option.bind_some]
    by_cases hlast : value < base
    · have hdiv : value / base = 0 := Nat.div_eq_of_lt hlast
      rw [if_neg (by simp [hdiv]), numeral, Nat.toDigits_of_lt_base hlast, List.map_singleton,
        List.reverse_singleton, hdigit, Nat.mod_eq_of_lt hlast, List.take_of_length_le]
      rw [List.length_append, List.length_singleton]
      omega
    · have hdiv : value / base ≠ 0 := by
        rw [Nat.div_ne_zero_iff]
        omega
      have hrec : buf ++ (numeral uppercase base value).reverse =
          (buf ++ [digit uppercase (value % base)]) ++
            (numeral uppercase base (value / base)).reverse := by
        rw [numeral, Nat.toDigits_of_base_le hb (Nat.not_lt.mp hlast), List.map_append,
          List.reverse_append, List.map_singleton, List.reverse_singleton, hdigit, ← List.append_assoc]
        rfl
      rw [hrec]
      by_cases hmore : (buf ++ [digit uppercase (value % base)]).length < ntoaBufferSize
      · rw [if_pos ⟨hdiv, hmore⟩, ih _ hmore (by omega)]
      · rw [if_neg (fun h => hmore h.2), List.take_append_of_le_length (by omega),
          List.take_of_length_le (by omega)]

/-- A conversion writes its text, and never past the array. -/
theorem ntoa_emits (value : BitVec 64) (negative : Bool) {base : Nat} (hb : 1 < base)
    (hb' : base ≤ 16) (prec width : Nat) (flags : Flags) (k : Cursor σ) :
    ntoa put value negative base prec width flags k =
      some (emit put (numberText value negative base prec width flags) k) := by
  have hraw : (if !(numberFlags value flags).precision ∨ value ≠ 0 then
        digits base (numberFlags value flags).uppercase ntoaBufferSize value.toNat []
      else some []) = some (rawDigits value base (numberFlags value flags)) := by
    rw [digits_eq hb hb' _ _ (by decide) (by simp), List.nil_append, rawDigits]
    by_cases hv : value = 0#64
    · cases (numberFlags value flags).precision with
      | true => simp [hv]
      | false => simp
    · simp [hv]
  have hlen : (rawDigits value base (numberFlags value flags)).length ≤ ntoaBufferSize := by
    unfold rawDigits
    split
    · exact Nat.zero_le _
    · exact List.length_take_le _ _
  unfold ntoa numberText
  dsimp only
  rw [hraw, Option.bind_some, ntoaFormat_emits hlen]

end

end Format
end DeliceOS
