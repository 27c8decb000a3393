import Flwor.Double

/-
  This file writes a double with the fewest decimal digits
  that read back to the same word.

  Among the decimal grids that hold a point reading back to
  the word, the coarsest is taken; of its two points next
  to the exact value the nearer one, and the larger of two
  equally near.  `Double.plain` never uses an exponent,
  `Double.detailed` does for very large and small values.

  Key definitions include:
    * `Double.shortest`
    * `Double.plain`
    * `Double.detailed`
-/

------------------------------------------------------------
-- Shortest Digits
------------------------------------------------------------

namespace Flwor

namespace Double

/-
  The interval of rationals that round to a positive finite
  word, and whether its ends belong to it.
-/
structure Interval where
  low : Rat
  high : Rat
  closed : Bool

namespace Interval

/- Whether a rational rounds to the interval's word. -/
def contains
    (i : Interval)
    (q : Rat) : Bool :=
  if i.closed then i.low ≤ q && q ≤ i.high
  else i.low < q && q < i.high

end Interval

/-
  The gap below a word is half the gap above it where the
  exponent changes.
-/
def interval
    (significand : Nat)
    (exponent : Int) : Interval :=
  let fine := exponent - 2
  let below :=
    if significand = Nat.pow 2 52 ∧ -1074 < exponent then 1
    else 2
  { low := scaled false (4 * significand - below) fine
    high := scaled false (4 * significand + 2) fine
    closed := significand % 2 = 0 }

/- Ten to an integer power. -/
def powTen
    (k : Int) : Rat :=
  if 0 ≤ k then ((Nat.pow 10 k.toNat : Nat) : Rat)
  else mkRat 1 (Nat.pow 10 (-k).toNat)

/-
  The point of the grid of multiples of `10 ^ k` that stands
  for the value, if one of its two neighbours does.
-/
def gridPoint?
    (i : Interval)
    (value : Rat)
    (k : Int) : Option Nat :=
  let unit := powTen k
  let below := (value / unit).floor.toNat
  let low : Rat := below * unit
  let high : Rat := (below + 1) * unit
  match i.contains low, i.contains high with
  | true, true =>
      if value - low < high - value then some below
      else some (below + 1)
  | true, false => some below
  | false, true => some (below + 1)
  | false, false => none

/-
  Try the grids from coarse to fine.  Seventeen digits always
  suffice, so the search needs no more steps than that plus
  the slack of the estimate it starts from.
-/
def search
    (i : Interval)
    (value : Rat) : Nat → Int → Nat × Int
  | 0, k => ((value / powTen k).floor.toNat, k)
  | steps + 1, k =>
      match gridPoint? i value k with
      | some n => (n, k)
      | none => search i value steps (k - 1)

/- Drop the trailing zeros of a decimal. -/
def trimZeros : Nat → Nat × Int → Nat × Int
  | 0, d => d
  | steps + 1, (n, k) =>
      if n ≠ 0 ∧ n % 10 = 0 then
        trimZeros steps (n / 10, k + 1)
      else (n, k)

/-
  The shortest decimal `n * 10 ^ k` of a positive finite word
  with the given significand and exponent.
-/
def shortest
    (significand : Nat)
    (exponent : Int) : Nat × Int :=
  let size : Int := Nat.log2 significand + exponent + 1
  let start := Int.fdiv (size * 30103) 100000 + 1
  trimZeros 20
    (search
      (interval significand exponent)
      (scaled false significand exponent)
      24 start)

end Double

end Flwor

------------------------------------------------------------
-- Written Forms
------------------------------------------------------------

namespace Flwor

namespace Double

/- Digits with a point after the given number of them. -/
def positional
    (digits : String)
    (k : Int) : String :=
  if 0 ≤ k then
    digits ++ String.ofList (List.replicate k.toNat '0')
  else
    let places := (-k).toNat
    let cs := digits.toList
    if places < cs.length then
      let whole := cs.take (cs.length - places)
      let part := cs.drop (cs.length - places)
      String.ofList whole ++ "." ++ String.ofList part
    else
      "0."
        ++ String.ofList
            (List.replicate (places - cs.length) '0')
        ++ digits

/- Digits with one before the point, and an exponent. -/
def scientific
    (digits : String)
    (k : Int) : String :=
  let cs := digits.toList
  let power : Int := k + cs.length - 1
  let tail := cs.drop 1
  let mantissa :=
    if tail.isEmpty then digits
    else
      String.ofList (cs.take 1) ++ "."
        ++ String.ofList tail
  mantissa ++ "e" ++ toString power

/- The sign of a written number. -/
def signText
    (negative : Bool) : String :=
  if negative then "-" else ""

/-
  Positional form: no exponent, and no fraction for whole
  numbers.
-/
def plain
    (x : Double) : String :=
  match x.read with
  | .nan => "NaN"
  | .infinite s => signText s ++ "inf"
  | .finite s m e =>
      if m = 0 then signText s ++ "0"
      else
        let (n, k) := shortest m e
        signText s ++ positional (toString n) k

/-
  Detailed form: at least one fraction digit, and an exponent
  for magnitudes below `10 ^ -4` or from `10 ^ 16` on.
-/
def detailed
    (x : Double) : String :=
  match x.read with
  | .nan => "NaN"
  | .infinite s => signText s ++ "inf"
  | .finite s m e =>
      if m = 0 then signText s ++ "0.0"
      else
        let (n, k) := shortest m e
        let digits := toString n
        let power : Int := k + digits.length - 1
        if power < -4 ∨ 16 ≤ power then
          signText s ++ scientific digits k
        else if 0 ≤ k then
          signText s ++ positional digits k ++ ".0"
        else
          signText s ++ positional digits k

end Double

end Flwor
