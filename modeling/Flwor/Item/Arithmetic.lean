import Flwor.Failure

/-
  This file defines arithmetic on items.

  Two integers combine exactly: a result that leaves the
  64-bit range is an error, and `div` gives a double where
  the quotient is not whole.  As soon as one operand is a
  double, both are taken as doubles.

  Key definitions include:
    * `Integer.inRange`
    * `Integer.narrow`
    * `ArithmeticOp.onIntegers`
    * `ArithmeticOp.onDoubles`
    * `ArithmeticOp.apply`
-/

------------------------------------------------------------
-- Integers
------------------------------------------------------------

namespace Flwor

namespace Integer

/- The least 64-bit integer. -/
def least : Int :=
  -Int.pow 2 63

/- The greatest 64-bit integer. -/
def greatest : Int :=
  Int.pow 2 63 - 1

/- Whether an integer fits in 64 bits. -/
def inRange
    (n : Int) : Bool :=
  least ≤ n && n ≤ greatest

/- An integer item, if the integer fits. -/
def narrow
    (place : String)
    (n : Int) : Except EvaluationError Item :=
  if inRange n then .ok (.int n)
  else .error (.overflow place)

end Integer

namespace ArithmeticOp

/-
  Combine two integers.  Division refuses a divisor of zero.
  The remainder by minus one of the least integer is refused
  together with its quotient, which does not fit.
-/
def onIntegers
    (op : ArithmeticOp)
    (a b : Int) : Except EvaluationError Item :=
  match op with
  | .add => Integer.narrow op.symbol (a + b)
  | .sub => Integer.narrow op.symbol (a - b)
  | .mul => Integer.narrow op.symbol (a * b)
  | .div =>
      if b = 0 then .error .divisionByZero
      else if a.tmod b = 0 then
        Integer.narrow op.symbol (a.tdiv b)
      else
        .ok (.dbl ((Double.ofInt a).div (Double.ofInt b)))
  | .idiv =>
      if b = 0 then .error .divisionByZero
      else Integer.narrow op.symbol (a.tdiv b)
  | .mod =>
      if b = 0 then .error .divisionByZero
      else do
        let _ ← Integer.narrow op.symbol (a.tdiv b)
        .ok (.int (a.tmod b))

end ArithmeticOp

end Flwor

------------------------------------------------------------
-- Doubles
------------------------------------------------------------

namespace Flwor

namespace ArithmeticOp

/-
  The integer quotient of two doubles.  A quotient above the
  range test, which admits `2 ^ 63` itself, is an overflow;
  an admitted one is brought down to the greatest integer.
-/
def wholeQuotient
    (x y : Double) : Except EvaluationError Item :=
  if y.isZero then .error .divisionByZero
  else
    match (x.div y).truncate? with
    | none => .error (.overflow "idiv")
    | some q =>
        if q < Integer.least ∨ Int.pow 2 63 < q then
          .error (.overflow "idiv")
        else .ok (.int (min q Integer.greatest))

/- Combine two doubles. -/
def onDoubles
    (op : ArithmeticOp)
    (x y : Double) : Except EvaluationError Item :=
  match op with
  | .add => .ok (.dbl (x.add y))
  | .sub => .ok (.dbl (x.sub y))
  | .mul => .ok (.dbl (x.mul y))
  | .div => .ok (.dbl (x.div y))
  | .mod => .ok (.dbl (x.rem y))
  | .idiv => wholeQuotient x y

/- Combine two items. -/
def apply
    (op : ArithmeticOp)
    (a b : Item) : Except EvaluationError Item :=
  match a, b with
  | .int m, .int n => op.onIntegers m n
  | _, _ =>
      match a.toDouble?, b.toDouble? with
      | some x, some y => op.onDoubles x y
      | _, _ =>
          .error (.mismatch (.arithmetic op a.type b.type))

end ArithmeticOp

end Flwor
