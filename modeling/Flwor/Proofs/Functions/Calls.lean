import Mathlib.Data.List.Nodup
import Flwor.Library

/-
  Calls of library functions.

  If no two functions of a library have the same name, then a
  call is answered by the function of its name.  The standard
  library is of this kind, so its functions can be called with
  and without the namespace.

  Key definitions include:
    * `Library.call`

  Key theorems include:
    * `Library.resolve_of_mem`
    * `Library.call_standard`
-/

namespace Flwor

namespace Library

variable {library : Library}
variable {f : QueryFunction}
variable {name : String}

/- The function that a call names, applied to arguments. -/
def call
    (library : Library)
    (name : String)
    (args : List Sequence) :
    Except EvaluationError Sequence := do
  let f ← library.resolve name args.length
  f.apply args

/- A name that occurs once is resolved to its function. -/
theorem resolve_of_mem
    {arity : Nat}
    (hNodup : (library.map QueryFunction.name).Nodup)
    (hMem : f ∈ library)
    (hName : localName name = f.name)
    (hAccepts : f.accepts arity = true) :
    library.resolve name arity = .ok f := by
  have hHere : (f.name == localName name
      && f.accepts arity) = true := by
    rw [hName, hAccepts, beq_self_eq_true, Bool.and_self]
  rw [resolve]
  split
  next g hFind =>
    have hThere := List.find?_some hFind
    rw [Bool.and_eq_true, beq_iff_eq, hName] at hThere
    have hG : g ∈ library :=
      List.mem_reverse.mp (List.mem_of_find?_eq_some hFind)
    rw [List.inj_on_of_nodup_map hNodup hG hMem hThere.1]
  next hNone =>
    have hNot := List.find?_eq_none.mp hNone f
      (List.mem_reverse.mpr hMem)
    exact absurd hHere hNot

/- Standard functions are called by their names. -/
theorem call_standard
    {args : List Sequence}
    (hMem : f ∈ standard)
    (hName : localName name = f.name)
    (hAccepts : f.accepts args.length = true) :
    standard.call name args = f.apply args := by
  have hNodup : (standard.map QueryFunction.name).Nodup := by
    decide
  rw [call, resolve_of_mem hNodup hMem hName hAccepts]
  rfl

end Library

end Flwor
