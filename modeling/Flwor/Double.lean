/-
  This file defines double-precision numbers as 64-bit
  words, the exact rational number that a word stands for,
  and arithmetic as the exact operation followed by one
  rounding to the nearest word, ties to the even one.

  Key definitions include:
    * `Double`
    * `Double.Reading`
    * `Double.read`
    * `Number`
    * `Number.compare`
    * `Double.number?`
    * `Double.ofMagnitude`
    * `Double.ofRat`
    * `Double.ofInt`
    * `Double.ofDecimal`
    * `Double.add`, `Double.mul`, `Double.div`, `Double.rem`
    * `Double.truncate?`
    * `Double.floor`
-/

------------------------------------------------------------
-- Words and Their Readings
------------------------------------------------------------

namespace Flwor

/- A double-precision number, given by its 64 bits. -/
structure Double where
  bits : UInt64
deriving DecidableEq, Hashable, Repr, Inhabited

namespace Double

/-
  What a word says: not a number, an infinity, or a signed
  significand scaled by a power of two.
-/
inductive Reading where
  | nan
  | infinite (negative : Bool)
  | finite
      (negative : Bool)
      (significand : Nat)
      (exponent : Int)
deriving DecidableEq, Repr

/-
  Read a word: one sign bit, eleven exponent bits and
  fifty-two fraction bits.
-/
def read
    (x : Double) : Reading :=
  let word := x.bits.toNat
  let negative := decide (Nat.pow 2 63 ≤ word)
  let field : Nat := word / Nat.pow 2 52 % Nat.pow 2 11
  let fraction : Nat := word % Nat.pow 2 52
  if field = 2047 then
    if fraction = 0 then .infinite negative else .nan
  else if field = 0 then
    .finite negative fraction (-1074)
  else
    .finite negative (Nat.pow 2 52 + fraction)
      ((field : Int) - 1075)

/- The word with the given sign and magnitude bits. -/
def ofSigned
    (negative : Bool)
    (magnitude : Nat) : Double :=
  ⟨UInt64.ofNat
    (if negative then Nat.pow 2 63 + magnitude else magnitude)⟩

/- The word that stands for no number. -/
def nan : Double :=
  ofSigned false (2047 * Nat.pow 2 52 + Nat.pow 2 51)

/- The infinity of the given sign. -/
def infinite
    (negative : Bool) : Double :=
  ofSigned negative (2047 * Nat.pow 2 52)

/- The zero of the given sign. -/
def zero
    (negative : Bool) : Double :=
  ofSigned negative 0

/- Whether the word stands for no number. -/
def isNaN
    (x : Double) : Bool :=
  x.read = .nan

/- Whether the word stands for a finite number. -/
def isFinite
    (x : Double) : Bool :=
  match x.read with
  | .finite .. => true
  | _ => false

/- Whether the sign bit is set. -/
def isNegative
    (x : Double) : Bool :=
  decide (Nat.pow 2 63 ≤ x.bits.toNat)

/- The word with the other sign. -/
def neg
    (x : Double) : Double :=
  ⟨x.bits ^^^ 0x8000000000000000⟩

end Double

end Flwor

------------------------------------------------------------
-- Exact Values
------------------------------------------------------------

namespace Flwor

/-
  The exact number behind a numeric value, with the two
  infinities at the ends of the line.
-/
inductive Number where
  | negInfinity
  | finite (value : Rat)
  | infinity
deriving DecidableEq

namespace Number

/- Order two exact numbers. -/
def compare : Number → Number → Ordering
  | .negInfinity, .negInfinity => .eq
  | .negInfinity, _ => .lt
  | _, .negInfinity => .gt
  | .infinity, .infinity => .eq
  | .infinity, _ => .gt
  | _, .infinity => .lt
  | .finite a, .finite b =>
      if a < b then .lt
      else if b < a then .gt
      else .eq

instance : Hashable Number where
  hash
    | .negInfinity => 11
    | .finite q => mixHash (hash q.num) (hash q.den)
    | .infinity => 13

end Number

namespace Double

/- A signed significand scaled by a power of two. -/
def scaled
    (negative : Bool)
    (significand : Nat)
    (exponent : Int) : Rat :=
  let m : Int :=
    if negative then -significand else significand
  if 0 ≤ exponent then
    ((m * Int.pow 2 exponent.toNat : Int) : Rat)
  else
    mkRat m (Nat.pow 2 (-exponent).toNat)

/- The exact number behind a word, if it has one. -/
def number?
    (x : Double) : Option Number :=
  match x.read with
  | .nan => none
  | .infinite true => some .negInfinity
  | .infinite false => some .infinity
  | .finite s m e => some (.finite (scaled s m e))

/- Whether the word is one of the two zeros. -/
def isZero
    (x : Double) : Bool :=
  x.number? = some (.finite 0)

/- Numeric order; a word without a number has none. -/
def compare?
    (x y : Double) : Option Ordering :=
  match x.number?, y.number? with
  | some a, some b => some (a.compare b)
  | _, _ => none

/-
  Numeric equality: the two zeros are equal and a word
  without a number equals nothing.
-/
def numericEq
    (x y : Double) : Bool :=
  x.compare? y = some .eq

end Double

end Flwor

------------------------------------------------------------
-- Rounding
------------------------------------------------------------

namespace Flwor

namespace Double

/- Round a quotient to the nearest natural, ties to even. -/
def roundHalfEven
    (num den : Nat) : Nat :=
  let q := num / den
  let r := num % den
  if 2 * r < den then q
  else if den < 2 * r then q + 1
  else q + q % 2

/-
  The exponent of the grid on which a positive quotient is
  rounded: the one that leaves 53 bits before the point, or
  the least exponent for quotients below that.
-/
def gridExponent
    (num den : Nat) : Int :=
  let low : Int :=
    (Nat.log2 num : Int) - (Nat.log2 den : Int) - 53
  let fits : Bool :=
    if 0 ≤ low then
      num / (den * Nat.pow 2 low.toNat) < Nat.pow 2 53
    else
      num * Nat.pow 2 (-low).toNat / den < Nat.pow 2 53
  max (if fits then low else low + 1) (-1074)

/-
  The magnitude bits of the word nearest to a quotient.
  A carry out of the fraction moves to the next exponent,
  and everything beyond the largest word is infinite.
-/
def ofMagnitude
    (num den : Nat) : Nat :=
  if num = 0 then 0
  else
    let e := gridExponent num den
    let q :=
      if 0 ≤ e then
        roundHalfEven num (den * Nat.pow 2 e.toNat)
      else
        roundHalfEven (num * Nat.pow 2 (-e).toNat) den
    min ((e + 1074).toNat * Nat.pow 2 52 + q)
      (2047 * Nat.pow 2 52)

/-
  The word nearest to a rational.  A result of zero takes
  the sign that the caller determined.
-/
def ofRat
    (negativeZero : Bool)
    (q : Rat) : Double :=
  if q = 0 then zero negativeZero
  else ofSigned (q < 0) (ofMagnitude q.num.natAbs q.den)

/- The word nearest to an integer. -/
def ofInt
    (n : Int) : Double :=
  ofRat false n

/-
  The word nearest to `digits * 10 ^ exponent`.  Values that
  are beyond every word, or below half of the least one, are
  settled without computing the power.
-/
def ofDecimal
    (negative : Bool)
    (digits : Nat)
    (exponent : Int) : Double :=
  let size : Int := (Nat.toDigits 10 digits).length
  if digits = 0 then zero negative
  else if size + exponent > 400 then infinite negative
  else if size + exponent < -400 then zero negative
  else if 0 ≤ exponent then
    ofSigned negative
      (ofMagnitude (digits * Nat.pow 10 exponent.toNat) 1)
  else
    ofSigned negative
      (ofMagnitude digits (Nat.pow 10 (-exponent).toNat))

end Double

end Flwor

------------------------------------------------------------
-- Arithmetic
------------------------------------------------------------

namespace Flwor

namespace Double

/-
  Sum of two words.  A sum of zero is positive unless both
  operands carry the minus sign.
-/
def add
    (x y : Double) : Double :=
  match x.read, y.read with
  | .nan, _ => nan
  | _, .nan => nan
  | .infinite s, .infinite t =>
      if s = t then infinite s else nan
  | .infinite s, .finite .. => infinite s
  | .finite .., .infinite t => infinite t
  | .finite s m e, .finite t n f =>
      ofRat (s && t) (scaled s m e + scaled t n f)

/- Difference of two words. -/
def sub
    (x y : Double) : Double :=
  add x (neg y)

/- Product of two words. -/
def mul
    (x y : Double) : Double :=
  match x.read, y.read with
  | .nan, _ => nan
  | _, .nan => nan
  | .infinite s, .infinite t => infinite (s != t)
  | .infinite s, .finite t n _ =>
      if n = 0 then nan else infinite (s != t)
  | .finite s m _, .infinite t =>
      if m = 0 then nan else infinite (s != t)
  | .finite s m e, .finite t n f =>
      ofRat (s != t) (scaled s m e * scaled t n f)

/- Quotient of two words. -/
def div
    (x y : Double) : Double :=
  match x.read, y.read with
  | .nan, _ => nan
  | _, .nan => nan
  | .infinite _, .infinite _ => nan
  | .infinite s, .finite t _ _ => infinite (s != t)
  | .finite s _ _, .infinite t => zero (s != t)
  | .finite s m e, .finite t n f =>
      if n = 0 then
        if m = 0 then nan else infinite (s != t)
      else
        ofRat (s != t) (scaled s m e / scaled t n f)

/-
  Remainder of the division that truncates, with the sign
  of the dividend.  It is always exact.
-/
def rem
    (x y : Double) : Double :=
  match x.read, y.read with
  | .nan, _ => nan
  | _, .nan => nan
  | .infinite _, _ => nan
  | .finite .., .infinite _ => x
  | .finite s m e, .finite _ n f =>
      if n = 0 then nan
      else
        let low := min e f
        let a := m * Nat.pow 2 (e - low).toNat
        let b := n * Nat.pow 2 (f - low).toNat
        ofRat s (scaled s (a % b) low)

/- The integer part of a finite word, rounded to zero. -/
def truncate?
    (x : Double) : Option Int :=
  match x.number? with
  | some (.finite q) => some (q.num.tdiv q.den)
  | _ => none

/- The largest integer at most a finite word, as a word. -/
def floor
    (x : Double) : Double :=
  match x.number? with
  | some (.finite q) => ofRat x.isNegative (q.floor : Int)
  | _ => x

/-
  The larger of two words; a word without a number gives
  way to the other.
-/
def max
    (x y : Double) : Double :=
  match x.compare? y with
  | some .lt => y
  | some _ => x
  | none => if x.isNaN then y else x

/-
  The smaller of two words; a word without a number gives
  way to the other.
-/
def min
    (x y : Double) : Double :=
  match x.compare? y with
  | some .gt => y
  | some _ => x
  | none => if x.isNaN then y else x

end Double

end Flwor
