import Flwor.Sequence

/-
  This file defines the rows that flow between operators and
  the layouts that name their slots.

  The first slots of a row are the context: the row that the
  enclosing expression handed to the pipeline.  A pipeline
  only rearranges the slots after them.

  Key definitions include:
    * `Row`
    * `Row.slot`
    * `Layout`
    * `Layout.slot?`
    * `Layout.locals`
    * `Layout.select`
    * `Layout.withLocals`
-/

------------------------------------------------------------
-- Rows
------------------------------------------------------------

namespace Flwor

/- The values of a row, by slot. -/
abbrev Row :=
  List Sequence

namespace Row

/- The value of a slot that a layout promises. -/
def slot
    (row : Row)
    (index : Nat) : Except Failure Sequence :=
  match row[index]? with
  | some value => .ok value
  | none => .error (.malformed .rowTooShort)

/- The values of several slots, in the given order. -/
def slots
    (row : Row)
    (indices : List Nat) :
    Except Failure (List Sequence) :=
  indices.mapM row.slot

/- Slot by slot identity of two rows. -/
def identical
    (r s : Row) : Bool :=
  r.length == s.length
    && (r.zip s).all (fun p => Sequence.identical p.1 p.2)

end Row

end Flwor

------------------------------------------------------------
-- Layouts
------------------------------------------------------------

namespace Flwor

/-
  The variable names of a row's slots and the number of
  slots that belong to the context.
-/
structure Layout where
  names : List String
  context : Nat
deriving DecidableEq, Repr

namespace Layout

/- A layout that is nothing but context. -/
def ofContext
    (names : List String) : Layout :=
  ⟨names, names.length⟩

/- The number of slots. -/
def width
    (layout : Layout) : Nat :=
  layout.names.length

/- The slot of the latest binding of a name. -/
def slot?
    (layout : Layout)
    (name : String) : Option Nat :=
  (layout.names.reverse.findIdx? (fun n => n == name)).map
    (fun i => layout.width - 1 - i)

/- The layout with one more slot. -/
def push
    (layout : Layout)
    (name : String) : Layout :=
  { layout with names := layout.names ++ [name] }

/- The layout with several more slots. -/
def pushAll
    (layout : Layout)
    (names : List String) : Layout :=
  { layout with names := layout.names ++ names }

/- The names of the context slots. -/
def contextNames
    (layout : Layout) : List String :=
  layout.names.take layout.context

/- The names of the slots after the context. -/
def locals
    (layout : Layout) : List String :=
  layout.names.drop layout.context

/- The context followed by other slots. -/
def withLocals
    (layout : Layout)
    (names : List String) : Layout :=
  { layout with names := layout.contextNames ++ names }

/- The context followed by chosen slots of the layout. -/
def select
    (layout : Layout)
    (indices : List Nat) : Layout :=
  layout.withLocals
    (indices.filterMap (fun i => layout.names[i]?))

end Layout

end Flwor
