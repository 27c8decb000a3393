import Flwor.Cursor
import Flwor.Operator.Arrange
import Flwor.Operator.Join
import Flwor.Operator.Syntax

/-
  This file defines the meaning of compiled expressions and
  operators: an expression answers a sequence on a row, an
  operator gives the tape of a raw cursor over the rows that
  it produces from a context row.

  Key definitions include:
    * `Expr.eval`
    * `Expr.evalItem`
    * `Operator.tape`
    * `Operator.cursor`
-/

------------------------------------------------------------
-- Parts of the Meaning
------------------------------------------------------------

namespace Flwor

namespace Slot

/- The value of a variable that a row is expected to hold. -/
def read
    (slot : Slot)
    (row : Row) : Except Failure Sequence :=
  match row[slot.index]? with
  | some value => .ok value
  | none =>
      .error (.malformed
        (.slotOutOfRow slot.name slot.index row.length))

end Slot

/- At most one item of a value. -/
def atMostOne
    (value : Sequence) : Answer (Option Item) :=
  Answer.ofEvaluation
    (Sequence.single? "singleton operand" value)

/- The bound of a range as an integer. -/
def rangeBound :
    Option Item → Answer (Option Int)
  | none => return none
  | some (.int n) => return some n
  | some a =>
      Answer.ofEvaluation
        (.error (.mismatch (.range a.type)))

/- The integers from a low to a high bound. -/
def integersBetween
    (low high : Int) : Sequence :=
  (List.range (high + 1 - low).toNat).map
    (fun (i : Nat) => .int (low + i))

/- Bind each item, and its position where one is asked for. -/
def bindItems
    (row : Row)
    (position : Bool)
    (items : Sequence) : List Row :=
  items.zipIdx.map (fun p =>
    row ++ [[p.1]]
      ++ (if position then [[.int (p.2 + 1)]] else []))

/- Bind nothing to the variables of a `for`. -/
def bindNothing
    (row : Row)
    (position : Bool) : Row :=
  row ++ [[]] ++ (if position then [[]] else [])

/- Whether a check is present and its slot is empty. -/
def disabled
    (check : Option Slot)
    (row : Row) : Answer Bool :=
  match check with
  | none => return false
  | some slot => do
      let value ← Answer.ofExcept (row.slot slot.index)
      return value.isEmpty

/- Keep the context and chosen slots of a row. -/
def projectRow
    (context : Nat)
    (keep : List Slot)
    (row : Row) : Except Failure Row := do
  let kept ← row.slots (keep.map Slot.index)
  return row.take context ++ kept

end Flwor

------------------------------------------------------------
-- Expressions and Operators
------------------------------------------------------------

namespace Flwor

mutual

/- The value of an expression on a row. -/
def Expr.eval : Expr → Row → Answer Sequence
  | .literal value, _ => return value
  | .variable slot, row => Answer.ofExcept (slot.read row)
  | .concat parts, row => do
      let values ← Expr.evalAll parts row
      return values.flatten
  | .range low high, row => do
      let low ← rangeBound
        (← atMostOne (← Expr.eval low row))
      let high ← rangeBound
        (← atMostOne (← Expr.eval high row))
      match low, high with
      | some a, some b => return integersBetween a b
      | _, _ => return []
  | .arithmetic op left right, row => do
      let a ← atMostOne (← Expr.eval left row)
      let b ← atMostOne (← Expr.eval right row)
      match a, b with
      | some a, some b =>
          let c ← Answer.ofEvaluation (op.apply a b)
          return [c]
      | _, _ => return []
  | .comparison c left right, row => do
      let s ← Expr.eval left row
      let t ← Expr.eval right row
      let answer ← Answer.ofEvaluation (c.apply s t)
      return (answer.map Item.bool).toList
  | .and left right, row => do
      let s ← Expr.eval left row
      if ← Answer.ofEvaluation s.booleanValue then
        let t ← Expr.eval right row
        let b ← Answer.ofEvaluation t.booleanValue
        return [.bool b]
      else return [.bool false]
  | .or left right, row => do
      let s ← Expr.eval left row
      if ← Answer.ofEvaluation s.booleanValue then
        return [.bool true]
      else
        let t ← Expr.eval right row
        let b ← Answer.ofEvaluation t.booleanValue
        return [.bool b]
  | .cond condition yes no, row => do
      let s ← Expr.eval condition row
      if ← Answer.ofEvaluation s.booleanValue then
        Expr.eval yes row
      else Expr.eval no row
  | .call function arguments, row => do
      let args ← Expr.evalAll arguments row
      Answer.ofEvaluation (function.apply args)
  | .pipeline tail result, row =>
      let cursor := Cursor.create (Operator.tape tail row)
      let each (values : List Sequence) (r : Row) :
          Answer (List Sequence) := do
        Answer.count .row
        let value ← Expr.eval result r
        return value :: values
      let (values, answer, _) := cursor.forEach each []
      (answer.bind (fun _ =>
        return values.reverse.flatten)).relocate .nested

/- The values of several expressions on a row. -/
def Expr.evalAll :
    List Expr → Row → Answer (List Sequence)
  | [], _ => return []
  | e :: rest, row => do
      let value ← Expr.eval e row
      let values ← Expr.evalAll rest row
      return value :: values

/- The sort keys of a row, each at most one item. -/
def SortKey.evalAll :
    List SortKey → Row → Answer (List (Option Item))
  | [], _ => return []
  | .mk e _ :: rest, row => do
      let key ← atMostOne (← Expr.eval e row)
      let keys ← SortKey.evalAll rest row
      return key :: keys

/- The value that a `let` binds. -/
def Expr.evalBinding :
    Option Expr → Option Slot → Row → Answer Sequence
  | none, _, _ => do
      Answer.count .letSkipped
      return []
  | some e, check, row => do
      if ← disabled check row then return []
      else
        Answer.count .letEvaluated
        Expr.eval e row

/- The raw cursor of an operator on a context row. -/
def Operator.tape : Operator → Row → Tape
  | .start, context => (Tape.ofRows [context]).recorded
  | .forBind input _ position source check, context =>
      let each (row : Row) : Answer (List Row) := do
        if ← disabled check row then
          return [bindNothing row position.isSome]
        else
          let items ← Expr.eval source row
          return bindItems row position.isSome items
      (((Operator.tape input context).asInput .left).expand
        each).recorded
  | .letBind input _ value check, context =>
      let each (row : Row) : Answer (List Row) := do
        let bound ← Expr.evalBinding value check row
        return [row ++ [bound]]
      (((Operator.tape input context).asInput .left).expand
        each).recorded
  | .select input predicate, context =>
      let each (row : Row) : Answer (List Row) := do
        let s ← Expr.eval predicate row
        let holds ← Answer.ofEvaluation s.booleanValue
        return if holds then [row] else []
      (((Operator.tape input context).asInput .left).expand
        each).recorded
  | .orderBy input keys, context =>
      let produce (rows : List Row) : Answer (List Row) := do
        let keyed ← Answer.sequence (rows.map (fun row => do
          let values ← SortKey.evalAll keys row
          return (values, row)))
        return sortRows (keys.map SortKey.order) keyed
      (((Operator.tape input context).asInput .left).buffered
        produce).recorded
  | .groupBy input keys aggregates, context =>
      let produce (rows : List Row) : Answer (List Row) :=
        Answer.ofExcept
          (groupRows context (keys.map Slot.index)
            (aggregates.map Slot.index) rows)
      (((Operator.tape input context).asInput .left).buffered
        produce).recorded
  | .count input _, context =>
      ((Operator.tape input context).asInput
        .left).numbered.recorded
  | .project input width keep, context =>
      let each (row : Row) : Answer (List Row) := do
        let kept ←
          Answer.ofExcept (projectRow width keep row)
        return [kept]
      (((Operator.tape input context).asInput .left).expand
        each).recorded
  | .join left right leftKey rightKey comparison leftJoin
      skipSort width rightWidth, context =>
      let lefts := (Operator.tape left context).asInput .left
      let rights :=
        (Operator.tape right context).asInput .right
      let reading : Answer (List Row) := do
        lefts.opening
        rights.readAll
      let filled :
          Answer (Probe × Array (List Sequence)) := do
        let rows ← reading
        rights.closing
        let keys ← Answer.sequence
          (rows.map (Expr.eval rightKey))
        let strategy := JoinStrategy.ofComparison comparison
        Answer.count (.joined strategy)
        return (Probe.build strategy keys,
          (rows.map (fun row => row.drop width)).toArray)
      let each (row : Row) : Answer (List Row) :=
        match filled.result with
        | .error _ =>
            Answer.fail (.cursor .joinReadBeforeOpen)
        | .ok (probe, others) => do
            let key ← Expr.eval leftKey row
            Answer.ofEvaluation
              (probe.joinRow comparison leftJoin skipSort
                rightWidth others row key)
      let joined := lefts.expand each
      let unread := lefts.opening.isOk && !reading.isOk
      { joined with
        opening := filled.bind (fun _ => return ())
        closing :=
          if unread then lefts.closing.both rights.closing
          else lefts.closing : Tape }.recorded

end

namespace Expr

/- The value of an expression, at most one item. -/
def evalItem
    (e : Expr)
    (row : Row) : Answer (Option Item) := do
  atMostOne (← e.eval row)

end Expr

namespace Operator

/- The cursor of an operator on a context row. -/
def cursor
    (op : Operator)
    (context : Row) : Cursor :=
  Cursor.create (op.tape context)

end Operator

end Flwor
