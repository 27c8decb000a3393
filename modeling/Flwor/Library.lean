import Flwor.Buckets
import Flwor.Sequence

/-
  This file defines the functions that a query may call and
  the library in which calls are looked up by name and
  number of arguments.

  Key definitions include:
    * `QueryFunction`
    * `Library`
    * `Library.register`
    * `Library.resolve`
    * `Library.names`
    * `Library.standard`
-/

------------------------------------------------------------
-- Functions and Libraries
------------------------------------------------------------

namespace Flwor

/-
  A named function on sequences that takes between
  `minArity` and `maxArity` arguments.
-/
structure QueryFunction where
  name : String
  minArity : Nat
  maxArity : Nat
  apply :
    List Sequence → Except EvaluationError Sequence

namespace QueryFunction

/- Whether the function takes this many arguments. -/
def accepts
    (f : QueryFunction)
    (arity : Nat) : Bool :=
  f.minArity ≤ arity && arity ≤ f.maxArity

/- The function with the range of its arity. -/
def signature
    (f : QueryFunction) : String :=
  f.name ++ "#" ++ toString f.minArity ++ ".."
    ++ toString f.maxArity

end QueryFunction

/- Functions in the order in which they were registered. -/
abbrev Library :=
  List QueryFunction

namespace Library

/- A function name without its optional namespace. -/
def localName
    (name : String) : String :=
  match name.toList with
  | 'f' :: 'n' :: ':' :: rest => String.ofList rest
  | _ => name

/-
  Add a function, stored under its local name.  It hides the
  earlier functions of that name where it accepts the same
  number of arguments.
-/
def register
    (library : Library)
    (f : QueryFunction) : Library :=
  library ++ [{ f with name := localName f.name }]

/- The latest function of a name that takes the arguments. -/
def resolve
    (library : Library)
    (name : String)
    (arity : Nat) : Except EvaluationError QueryFunction :=
  match library.reverse.find?
      (fun f =>
        f.name == localName name && f.accepts arity) with
  | some f => .ok f
  | none => .error (.unknownFunction name arity)

/- The registered names, each once, sorted. -/
def names
    (library : Library) : List String :=
  ((library.map QueryFunction.name).mergeSort
    (fun a b => a ≤ b)).eraseReps

end Library

end Flwor

------------------------------------------------------------
-- Aggregates
------------------------------------------------------------

namespace Flwor

namespace Library

/- The number of items. -/
def countItems
    (s : Sequence) : Except EvaluationError Sequence :=
  .ok [.int s.length]

/- Add the items to a running total. -/
def addItems :
    Item → List Item → Except EvaluationError Item
  | total, [] => .ok total
  | total, a :: rest => do
      if a.toDouble?.isNone then
        throw (.mismatch (.sum a.type))
      addItems (← ArithmeticOp.add.apply total a) rest

/- The sum of the items, or the default for none. -/
def sum
    (s : Sequence)
    (default : Sequence) :
    Except EvaluationError Sequence :=
  match s with
  | [] => .ok default
  | a :: rest =>
      if a.toDouble?.isNone then
        .error (.mismatch (.sum a.type))
      else
        (addItems a rest).map (fun total => [total])

/-
  The extreme item met so far, taken over the rest.  An item
  replaces it only where it comes strictly before, and an
  item that is no number ends the search.
-/
def extremum
    (function : String)
    (wanted : Ordering) :
    Option Item → List Item →
      Except EvaluationError (Option Item)
  | best, [] => .ok best
  | best, a :: rest =>
      if a.isNaN then .ok (some a)
      else
        match best with
        | none => extremum function wanted (some a) rest
        | some b =>
            match a.atomicCompare b with
            | .error _ =>
                .error
                  (.mixedExtremum function a.type b.type)
            | .ok order =>
                extremum function wanted
                  (some (if order = wanted then a else b))
                  rest

/-
  The first item of each class of equal items.  Items that
  are no number form one class.
-/
def distinctItems
    (s : Sequence) : Sequence :=
  (Buckets.firsts (s.map (fun a => (a.key?, a)))).map
    Prod.snd

end Library

end Flwor

------------------------------------------------------------
-- Strings
------------------------------------------------------------

namespace Flwor

namespace Library

/- The texts of the items with a separator between them. -/
def joinTexts
    (s : Sequence)
    (separator : Option Sequence) :
    Except EvaluationError Sequence := do
  let between ←
    match separator with
    | none => pure ""
    | some t =>
        let item ← Sequence.single? "string-join" t
        pure ((item.map Item.text).getD "")
  return [.str (between.intercalate (s.map Item.text))]

/- Round a double to a whole number, halves upwards. -/
def roundHalfUp
    (x : Double) : Double :=
  if x.isFinite then
    (x.add (Double.ofDecimal false 5 (-1))).floor
  else x

/- A position argument as a rounded double. -/
def position
    (arg : Sequence) : Except EvaluationError Double := do
  match ← Sequence.single? "substring" arg with
  | none => throw (.badPosition none)
  | some a =>
      match a.toDouble? with
      | some x => return roundHalfUp x
      | none => throw (.badPosition (some a.type))

/-
  The characters from a start position on, at most as many
  as the length asks for.  Positions count from one and may
  lie outside of the text.
-/
def slice
    (cs : List Char)
    (start length : Double) : List Char :=
  let one := Double.ofInt 1
  let size := Double.ofInt cs.length
  if start.isNaN || length.isNaN
      || (start == Double.infinite true
        && length == Double.infinite false) then []
  else
    let from' := (start.max one).sub one
    let upTo := ((start.add length).sub one).min size
    if upTo.compare? from' == some .gt then
      match from'.truncate?, upTo.truncate? with
      | some i, some j =>
          (cs.take j.toNat).drop i.toNat
      | _, _ => []
    else []

/-
  The part of a text that a start position and an optional
  length select.
-/
def substring
    (text start : Sequence)
    (length : Option Sequence) :
    Except EvaluationError Sequence := do
  match ← Sequence.single? "substring" text with
  | none => return [.str ""]
  | some (.str s) =>
      let cs := s.toList
      let first ← position start
      let size ←
        match length with
        | some l => position l
        | none => pure (Double.ofInt cs.length)
      return [.str (String.ofList (slice cs first size))]
  | some a => throw (.mismatch (.substring a.type))

end Library

end Flwor

------------------------------------------------------------
-- The Standard Library
------------------------------------------------------------

namespace Flwor

namespace Library

/- The argument at a position; a missing one is empty. -/
def argument
    (args : List Sequence)
    (index : Nat) : Sequence :=
  (args[index]?).getD []

/- A function of exactly one argument. -/
def unary
    (name : String)
    (apply : Sequence → Except EvaluationError Sequence) :
    QueryFunction :=
  ⟨name, 1, 1, fun args => apply (argument args 0)⟩

/- A function that answers a question about its argument. -/
def predicate
    (name : String)
    (test : Sequence → Except EvaluationError Bool) :
    QueryFunction :=
  unary name (fun s => (test s).map (fun b => [.bool b]))

/- A function that picks an extreme item. -/
def extreme
    (name : String)
    (wanted : Ordering) : QueryFunction :=
  unary name
    (fun s =>
      (extremum name wanted none s).map Option.toList)

/- The functions that every query may call. -/
def standard : Library :=
  [unary "count" countItems,
   ⟨"sum", 1, 2, fun args =>
      sum (argument args 0) ((args[1]?).getD [.int 0])⟩,
   extreme "min" .lt,
   extreme "max" .gt,
   predicate "empty" (fun s => .ok s.isEmpty),
   predicate "exists" (fun s => .ok (!s.isEmpty)),
   predicate "not" (fun s =>
      s.booleanValue.map (fun b => !b)),
   predicate "boolean" Sequence.booleanValue,
   unary "distinct-values" (fun s => .ok (distinctItems s)),
   unary "distinct" (fun s => .ok (distinctItems s)),
   unary "reverse" (fun s => .ok s.reverse),
   ⟨"string-join", 1, 2, fun args =>
      joinTexts (argument args 0) args[1]?⟩,
   ⟨"substring", 2, 3, fun args =>
      substring (argument args 0) (argument args 1)
        args[2]?⟩]

end Library

end Flwor
