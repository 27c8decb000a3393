import Flwor.Failure

/-
  This file defines the scopes in which the analysis of live
  bindings looks names up.

  A scope knows which of its bindings were read and which
  names were looked up through it.  A look-up ends at the
  scope that binds the name, and in any case at a speculative
  scope, which only collects what would be needed.

  Key definitions include:
    * `Scope`
    * `ScopeStack`
    * `ScopeStack.openScope`
    * `ScopeStack.bind`
    * `ScopeStack.resolve`
    * `ScopeStack.close`
    * `ScopeStack.isCommitted`
    * `ClosedScope`
    * `ClosedScope.demand`
-/

------------------------------------------------------------
-- Scopes
------------------------------------------------------------

namespace Flwor

/- A binding and whether it was read. -/
structure Local where
  name : String
  isRead : Bool
deriving DecidableEq, Repr

/- A scope: its bindings, and the names that crossed it. -/
structure Scope where
  speculative : Bool
  locals : List Local
  externals : List String
deriving DecidableEq, Repr

namespace Scope

/- A scope without bindings. -/
def empty
    (speculative : Bool) : Scope :=
  ⟨speculative, [], []⟩

/- Whether the scope binds a name. -/
def binds
    (scope : Scope)
    (name : String) : Bool :=
  scope.locals.any (fun l => l.name == name)

/- Mark the first binding of a name as read. -/
def markFirst
    (name : String) : List Local → List Local
  | [] => []
  | l :: rest =>
      if l.name = name then { l with isRead := true } :: rest
      else l :: markFirst name rest

/- Mark the latest binding of a name as read. -/
def markLatest
    (scope : Scope)
    (name : String) : Scope :=
  { scope with
    locals :=
      (markFirst name scope.locals.reverse).reverse }

end Scope

/- The open scopes, the innermost one first. -/
abbrev ScopeStack :=
  List Scope

namespace ScopeStack

/- Open a scope. -/
def openScope
    (stack : ScopeStack)
    (speculative : Bool) : ScopeStack :=
  Scope.empty speculative :: stack

/- Bind a name in the innermost scope. -/
def bind
    (stack : ScopeStack)
    (name : String) : Except Failure ScopeStack :=
  match stack with
  | [] => .error (.malformed .bindingOutsideScope)
  | scope :: rest =>
      .ok ({ scope with
        locals := scope.locals ++ [⟨name, false⟩] } :: rest)

/-
  Look a name up.  A scope that it already crossed has told
  the scopes around it.
-/
def resolve
    (name : String) : ScopeStack → ScopeStack
  | [] => []
  | scope :: rest =>
      if scope.binds name then
        scope.markLatest name :: rest
      else if scope.externals.contains name then
        scope :: rest
      else
        let crossed : Scope :=
          { scope with externals := scope.externals ++ [name] }
        if scope.speculative then crossed :: rest
        else crossed :: resolve name rest

/- Whether no open scope is speculative. -/
def isCommitted
    (stack : ScopeStack) : Bool :=
  stack.all (fun scope => !scope.speculative)

end ScopeStack

end Flwor

------------------------------------------------------------
-- Closed Scopes
------------------------------------------------------------

namespace Flwor

/- What a scope knew when it was closed. -/
structure ClosedScope where
  used : List String
  externals : List String
deriving DecidableEq, Repr

namespace ClosedScope

/- What was read: bindings of the scope, then other names. -/
def demand
    (closed : ClosedScope) : List String :=
  (closed.used ++ closed.externals).eraseDups

end ClosedScope

namespace ScopeStack

/- Close the innermost scope. -/
def close
    (stack : ScopeStack) :
    Except Failure (ClosedScope × ScopeStack) :=
  match stack with
  | [] => .error (.malformed .closingUnopenedScope)
  | scope :: rest =>
      let used := scope.locals.filter Local.isRead
      .ok (⟨used.map Local.name, scope.externals⟩, rest)

end ScopeStack

end Flwor
