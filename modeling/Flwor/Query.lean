import Flwor.Compile
import Flwor.Explain
import Flwor.Operator.Evaluate

/-
  This file defines executable queries: a compiled plan, the
  variables that its caller has to supply, and its
  explanation.

  Key definitions include:
    * `Query`
    * `Query.ofPlan`
    * `Query.checksum`
    * `Query.evaluate`
-/

------------------------------------------------------------
-- Queries
------------------------------------------------------------

namespace Flwor

/- A compiled plan. -/
structure Query where
  root : Expr
  externals : List String
  explain : Explain
  fingerprint : UInt64

/- The values of external variables. -/
abbrev Bindings :=
  List (String × Sequence)

namespace Query

/-
  The checksum of a plan and its explanation, which is the
  same in every run.
-/
def checksum
    (plan : Plan)
    (explain : Explain) : UInt64 :=
  let logical := Checksum.ofText plan.render
  let physical := Checksum.ofBytes explain.bytes
  Checksum.ofBytes
    (Checksum.littleEndian logical
      ++ Checksum.littleEndian physical)

/- Compile the root of a plan and explain the result. -/
def compileRoot
    (library : Library)
    (root : Tree)
    (externals : List String) :
    Except Failure (Expr × Explain) := do
  let layout := Layout.ofContext externals
  let detail (e : Expr) : Detail := .literal "expr" e.text
  if root.kind = .pipeExpr then
    let (tail, result) ←
      Compile.pipeline library root.children layout
    return (.pipeline tail result,
      .node "Return" [detail result] [tail.explain])
  else
    let e ← Compile.expr library root layout
    return (e, .node "Expr" [detail e] [])

/- Compile a plan whose caller supplies the externals. -/
def ofPlan
    (library : Library)
    (plan : Plan)
    (externals : List String) : Except Failure Query := do
  let (root, explain) ←
    compileRoot library plan.rootTree externals
  return { root, externals, explain,
           fingerprint := checksum plan explain }

/- The context row that bindings supply. -/
def contextRow
    (externals : List String)
    (bindings : Bindings) : Except Failure Row :=
  externals.mapM (fun name =>
    match bindings.lookup name with
    | some value => .ok value
    | none =>
        .error (.evaluation (.undefinedVariable name)))

/- Evaluate a query with values for its externals. -/
def evaluate
    (query : Query)
    (bindings : Bindings) : Answer Sequence := do
  let row ← Answer.ofExcept
    (contextRow query.externals bindings)
  query.root.eval row

end Query

end Flwor
