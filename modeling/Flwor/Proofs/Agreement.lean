import Mathlib.Data.Set.Basic
import Flwor.Proofs.Collecting
import Flwor.Proofs.Meeting
import Flwor.Proofs.Scoping

/-
  When one tree in one environment means what another one
  means in another environment.

  There is one lemma for each kind of node: the nodes mean
  the same if their parts do.  How the rows of the inputs
  and of the stages correspond is left open; above all they
  may agree on the names that are handed on.  A tree that
  follows the scoping rules means the same wherever the
  names that it reads do.

  Key definitions include:
    * `Env.AgreeOn`
    * `Tree.SameValue`
    * `Tree.SameRows`

  Key theorems include:
    * `Tree.ReadsFrom.sameValue`
    * `Tree.Supplies.sameRows`
-/

------------------------------------------------------------
-- Environments
------------------------------------------------------------

namespace Flwor

namespace Env

/- Environments that hold the same under some names. -/
def AgreeOn
    (names : Set String)
    (env env' : Env) : Prop :=
  ∀ name ∈ names, env name = env' name

namespace AgreeOn

variable {names handed : Set String}
variable {env env' : Env}

theorem refl
    (names : Set String)
    (env : Env) :
    AgreeOn names env env :=
  fun _ _ => rfl

theorem mono
    (hAgree : AgreeOn names env env')
    (hSubset : handed ⊆ names) :
    AgreeOn handed env env' :=
  fun name hName => hAgree name (hSubset hName)

/- The same name gets the same value in both. -/
theorem bind
    {var : String}
    (hHanded : ∀ name ∈ handed, name ≠ var →
      env name = env' name)
    (value : Sequence) :
    AgreeOn handed (env.bind var value)
      (env'.bind var value) := by
  intro name hName
  rw [bind_apply, bind_apply]
  by_cases hVar : name = var
  · rw [if_pos hVar, if_pos hVar]
  · rw [if_neg hVar, if_neg hVar]
    exact hHanded name hName hVar

theorem bindOption
    {var : Option String}
    (hHanded : ∀ name ∈ handed, name ∉ var.toList →
      env name = env' name)
    (value : Sequence) :
    AgreeOn handed (env.bindOption var value)
      (env'.bindOption var value) := by
  cases var with
  | none => exact fun name hName => hHanded name hName (by simp)
  | some var =>
      exact bind (fun name hName hVar =>
        hHanded name hName (by simpa using hVar)) value

/- A variable and perhaps a position are bound in both. -/
theorem bindFor
    {var : String}
    {position : Option String}
    (hHanded : ∀ name ∈ handed,
      name ∉ var :: position.toList → env name = env' name)
    (value place : Sequence) :
    AgreeOn handed
      ((env.bind var value).bindOption position place)
      ((env'.bind var value).bindOption position place) := by
  refine bindOption (fun name hName hPosition => ?_) place
  rw [bind_apply, bind_apply]
  by_cases hVar : name = var
  · rw [if_pos hVar, if_pos hVar]
  · rw [if_neg hVar, if_neg hVar]
    exact hHanded name hName (by simp [hVar, hPosition])

/- Names are bound to the same values in both. -/
theorem bindAll
    (bindings : List (String × Sequence))
    (hHanded : ∀ name ∈ handed,
      name ∉ bindings.map Prod.fst → env name = env' name) :
    AgreeOn handed (env.bindAll bindings)
      (env'.bindAll bindings) := by
  induction bindings generalizing env env' with
  | nil => exact fun name hName => hHanded name hName (by simp)
  | cons b rest ih =>
      rw [bindAll_cons, bindAll_cons]
      refine ih (fun name hName hRest => ?_)
      rw [bind_apply, bind_apply]
      by_cases hVar : name = b.1
      · rw [if_pos hVar, if_pos hVar]
      · rw [if_neg hVar, if_neg hVar]
        exact hHanded name hName (by simp [hVar, hRest])

/- What two rows have in common if they are joined. -/
theorem under
    {others others' : List String}
    {other other' : Env}
    (hOthers : ∀ name ∈ handed,
      name ∈ others ↔ name ∈ others')
    (hRight : ∀ name ∈ handed, name ∈ others →
      other name = other' name)
    (hLeft : ∀ name ∈ handed, name ∉ others →
      env name = env' name) :
    AgreeOn handed (env.under others other)
      (env'.under others' other') := by
  intro name hName
  unfold Env.under
  by_cases hOther : name ∈ others
  · rw [if_pos hOther,
      if_pos ((hOthers name hName).mp hOther)]
    exact hRight name hName hOther
  · rw [if_neg hOther,
      if_neg (fun h => hOther ((hOthers name hName).mpr h))]
    exact hLeft name hName hOther

theorem padded
    {others others' : List String}
    (hOthers : ∀ name ∈ handed,
      name ∈ others ↔ name ∈ others')
    (hLeft : ∀ name ∈ handed, name ∉ others →
      env name = env' name) :
    AgreeOn handed (env.padded others)
      (env'.padded others') := by
  have hEmpty (e : Env) (names : List String) :
      e.padded names = e.under names (fun _ => some []) :=
    rfl
  rw [hEmpty, hEmpty]
  exact under hOthers (fun _ _ _ => rfl) hLeft

end AgreeOn

/- A binding changes nothing but its name. -/
theorem agreeOn_bind
    (env : Env)
    (var : String)
    (value : Sequence) :
    AgreeOn {n | n ≠ var} (env.bind var value) env := by
  intro name hName
  rw [bind_apply, if_neg hName]

theorem agreeOn_bindFor
    (env : Env)
    (var : String)
    (position : Option String)
    (value place : Sequence) :
    AgreeOn {n | n ∉ var :: position.toList}
      ((env.bind var value).bindOption position place)
      env := by
  intro name hName
  rw [Set.mem_ofPred_eq, List.mem_cons, not_or] at hName
  cases position with
  | none => exact agreeOn_bind env var value name hName.1
  | some other =>
      have hOther : name ≠ other := by simpa using hName.2
      exact (agreeOn_bind _ other place name hOther).trans
        (agreeOn_bind env var value name hName.1)

theorem agreeOn_bindAll
    (env : Env)
    (bindings : List (String × Sequence)) :
    AgreeOn {n | n ∉ bindings.map Prod.fst}
      (env.bindAll bindings) env := by
  induction bindings generalizing env with
  | nil => exact .refl _ _
  | cons b rest ih =>
      intro name hName
      rw [Set.mem_ofPred_eq, List.map_cons, List.mem_cons,
        not_or] at hName
      rw [bindAll_cons]
      exact (ih _ name hName.2).trans
        (agreeOn_bind env b.1 b.2 name hName.1)

end Env

end Flwor

------------------------------------------------------------
-- Expressions
------------------------------------------------------------

namespace Flwor

namespace Tree

variable (library : Library)
variable (lax : Leeway)

/-
  An expression in one environment has the value of another
  expression in another environment.
-/
def SameValue
    (t : Tree)
    (env : Env)
    (t' : Tree)
    (env' : Env) : Prop :=
  Meets lax Eq (t.value library env)
    (t'.value library env')

/- The rows of two stages in two contexts correspond. -/
def SameRows
    (R : Env → Env → Prop)
    (t : Tree)
    (context : Env)
    (t' : Tree)
    (context' : Env) : Prop :=
  Meets lax (List.Forall₂ R) (t.rows library context)
    (t'.rows library context')

section

variable {library : Library}
variable {lax : Leeway}
variable {env env' : Env}
variable {i i' : NodeId}
variable {p : Payload}
variable {ps ps' : Properties}
variable {cs cs' : List Tree}

attribute [local simp] value rows

/- What holds with the parts of a node also holds after it. -/
theorem sameValue_at
    {t t' : Tree}
    (index : Nat)
    (hChild : cs[index]? = some t)
    (hChild' : cs'[index]? = some t')
    (hSame : SameValue library lax t env t' env') :
    Meets lax Eq (valueAt library index cs env)
      (valueAt library index cs' env') := by
  rw [valueAt_eq, valueAt_eq, hChild, hChild']
  exact hSame

theorem sameValue_literal
    {p' : Payload}
    (hItem : p.item? = p'.item?) :
    SameValue library lax (.node i .literal p ps cs) env
      (.node i' .literal p' ps' cs') env' := by
  rw [SameValue, value, value, hItem]
  exact .refl _

theorem sameValue_emptySequence
    {p' : Payload} :
    SameValue library lax
      (.node i .emptySequence p ps cs) env
      (.node i' .emptySequence p' ps' cs') env' := by
  rw [SameValue, value, value]
  exact .refl _

/- Expressions that are evaluated one by one. -/
theorem sameValue_all
    (hParts : List.Forall₂ (fun c c' =>
      SameValue library lax c env c' env') cs cs') :
    Meets lax Eq (values library cs env)
      (values library cs' env') := by
  rw [values_eq, values_eq]
  refine (Meets.mapM (S := Eq) hParts ?_).mono ?_
  · exact fun _ _ hSame => hSame
  · intro parts parts' hEq
    rwa [List.forall₂_eq_eq_eq] at hEq

theorem sameValue_sequence
    {p' : Payload}
    (hParts : List.Forall₂ (fun c c' =>
      SameValue library lax c env c' env') cs cs') :
    SameValue library lax
      (.node i .sequenceExpr p ps cs) env
      (.node i' .sequenceExpr p' ps' cs') env' := by
  rw [SameValue, value, value]
  refine (sameValue_all hParts).bind ?_
  rintro parts _ rfl
  exact .refl _

theorem sameValue_call
    (hParts : List.Forall₂ (fun c c' =>
      SameValue library lax c env c' env') cs cs') :
    SameValue library lax
      (.node i .functionCall p ps cs) env
      (.node i' .functionCall p ps' cs') env' := by
  rw [SameValue, value, value]
  refine (Meets.refl p.label?).bind ?_
  rintro name _ rfl
  refine (sameValue_all hParts).bind ?_
  rintro arguments _ rfl
  rw [hParts.length_eq]
  exact .refl _

theorem sameValue_variableRef
    (hName : ∀ name, p.var? = some name →
      env name = env' name) :
    SameValue library lax
      (.node i .variableRef p ps cs) env
      (.node i' .variableRef p ps' cs') env' := by
  rw [SameValue, value, value]
  cases hVar : p.var? with
  | none => exact .refl _
  | some name =>
      simp only [Option.bind_eq_bind, Option.bind_some]
      rw [hName name hVar]
      exact .refl _

theorem sameValue_binary
    {k : Kind}
    {left left' right right' : Tree}
    (hKind : Binary k p)
    (hLeft : cs[0]? = some left)
    (hLeft' : cs'[0]? = some left')
    (hRight : cs[1]? = some right)
    (hRight' : cs'[1]? = some right')
    (hSameLeft :
      SameValue library lax left env left' env')
    (hSameRight :
      SameValue library lax right env right' env') :
    SameValue library lax (.node i k p ps cs) env
      (.node i' k p ps' cs') env' := by
  have hFirst := sameValue_at 0 hLeft hLeft' hSameLeft
  have hSecond := sameValue_at 1 hRight hRight' hSameRight
  rw [SameValue]
  cases k <;> try exact hKind.elim
  case rangeExpr =>
    rw [value, value]
    exact hFirst.both hSecond _
  case arithmeticExpr =>
    rw [value, value]
    refine (Meets.refl p.arithmetic?).bind ?_
    rintro op _ rfl
    exact hFirst.both hSecond _
  case comparisonExpr =>
    rw [value, value]
    refine (Meets.refl p.comparison?).bind ?_
    rintro c _ rfl
    exact hFirst.both hSecond _
  case andExpr =>
    rw [value, value]
    refine hFirst.bind ?_
    rintro s _ rfl
    refine (Meets.refl s.truth?).bind ?_
    rintro holds _ rfl
    cases holds with
    | false => exact .refl _
    | true =>
        refine hSecond.bind ?_
        rintro t _ rfl
        exact .refl _
  case orExpr =>
    rw [value, value]
    refine hFirst.bind ?_
    rintro s _ rfl
    refine (Meets.refl s.truth?).bind ?_
    rintro holds _ rfl
    cases holds with
    | true => exact .refl _
    | false =>
        refine hSecond.bind ?_
        rintro t _ rfl
        exact .refl _

theorem sameValue_cond
    {p' : Payload}
    {condition condition' yes yes' no no' : Tree}
    (hCondition : cs[0]? = some condition)
    (hCondition' : cs'[0]? = some condition')
    (hYes : cs[1]? = some yes)
    (hYes' : cs'[1]? = some yes')
    (hNo : cs[2]? = some no)
    (hNo' : cs'[2]? = some no')
    (hSameCondition :
      SameValue library lax condition env condition' env')
    (hSameYes : SameValue library lax yes env yes' env')
    (hSameNo : SameValue library lax no env no' env') :
    SameValue library lax (.node i .ifExpr p ps cs) env
      (.node i' .ifExpr p' ps' cs') env' := by
  rw [SameValue, value, value]
  refine (sameValue_at 0 hCondition hCondition'
    hSameCondition).bind ?_
  rintro s _ rfl
  refine (Meets.refl s.truth?).bind ?_
  rintro holds _ rfl
  cases holds with
  | true => exact sameValue_at 1 hYes hYes' hSameYes
  | false => exact sameValue_at 2 hNo hNo' hSameNo

/- A pipeline, whose result is evaluated on each row. -/
theorem sameValue_pipe
    {p' q q' : Payload}
    {j j' : NodeId}
    {qs qs' : Properties}
    {tail tail' result result' : Tree}
    {rest rest' more more' : List Tree}
    {R : Env → Env → Prop}
    (hTail : SameRows library lax R tail env tail' env')
    (hResult : ∀ row row', R row row' →
      SameValue library lax result row result' row') :
    SameValue library lax
      (.node i .pipeExpr p ps
        (.node j .finish q qs (tail :: result :: rest)
          :: more)) env
      (.node i' .pipeExpr p' ps'
        (.node j' .finish q' qs' (tail' :: result' :: rest')
          :: more')) env' := by
  rw [SameValue, value, value, pipelineValue, pipelineValue,
    headRows, headRows]
  refine Meets.bind hTail ?_
  intro rows rows' hRows
  refine Meets.bind (Meets.mapM (S := Eq) hRows ?_) ?_
  · intro row row' hRow
    exact sameValue_at 1 rfl rfl
      (hResult row row' hRow)
  · intro parts parts' hSame
    rw [List.forall₂_eq_eq_eq] at hSame
    rw [hSame]
    exact .refl _

end

end Tree

end Flwor

------------------------------------------------------------
-- Stages
------------------------------------------------------------

namespace Flwor

/- The names that are wanted and not bound anew. -/
def kept
    (handed : Set String)
    (bound : List String) : Set String :=
  {n | n ∈ handed ∧ n ∉ bound}

namespace Tree

variable {library : Library}
variable {lax : Leeway}
variable {R Q : Env → Env → Prop}
variable {handed : Set String}
variable {context context' : Env}
variable {i i' : NodeId}
variable {p p' : Payload}
variable {ps ps' : Properties}
variable {cs cs' : List Tree}

theorem sameRows_start
    (hContext : Q context context') :
    SameRows library lax Q
      (.node i .start p ps cs) context
      (.node i' .start p' ps' cs') context' := by
  rw [SameRows, rows, rows]
  exact .value (.cons hContext .nil)

theorem sameRows_forBind_of_bind
    (hInput : Meets lax (List.Forall₂ R)
      (headRows library cs context)
      (headRows library cs' context'))
    (hBinding : binding? (.node i' .forBind p' ps' cs') =
      binding? (.node i .forBind p ps cs))
    (hPosition : position? (.node i' .forBind p' ps' cs') =
      position? (.node i .forBind p ps cs))
    (hCheck : ∀ row row', R row row' →
      row.disabled? ps = row'.disabled? ps')
    (hSource : ∀ row row', R row row' →
      Meets lax Eq (lastValue library cs row)
        (lastValue library cs' row'))
    (hBind : ∀ var,
      binding? (.node i .forBind p ps cs) = some var →
        ∀ row row', R row row' → ∀ value place : Sequence,
          Q ((row.bind var value).bindOption
              (position? (.node i .forBind p ps cs)) place)
            ((row'.bind var value).bindOption
              (position? (.node i .forBind p ps cs)) place)) :
    SameRows library lax Q
      (.node i .forBind p ps cs) context
      (.node i' .forBind p' ps' cs') context' := by
  rw [SameRows, rows, rows]
  refine hInput.bind ?_
  intro inputs inputs' hRows
  rw [hBinding, hPosition]
  cases hVar : binding? (.node i .forBind p ps cs) with
  | none => exact .failure
  | some var =>
      simp only [Option.bind_eq_bind, Option.bind_some]
      refine Meets.bind (Meets.mapM
        (S := List.Forall₂ Q) hRows ?_) ?_
      · intro row row' hRow
        rw [hCheck row row' hRow]
        refine (Meets.refl (row'.disabled? ps')).bind ?_
        rintro skipped _ rfl
        cases skipped with
        | true =>
            exact .value (.cons
              (hBind var hVar row row' hRow [] []) .nil)
        | false =>
            rw [if_neg (by simp), if_neg (by simp)]
            refine (hSource row row' hRow).bind ?_
            rintro items _ rfl
            refine .value ?_
            rw [Env.bindItems, Env.bindItems,
              List.forall₂_map_left_iff,
              List.forall₂_map_right_iff, List.forall₂_same]
            intro entry _
            exact hBind var hVar row row' hRow _ _
      · intro rowss rowss' hLists
        exact .value (List.rel_flatten hLists)

theorem sameRows_forBind
    (hInput : Meets lax (List.Forall₂ R)
      (headRows library cs context)
      (headRows library cs' context'))
    (hBinding : binding? (.node i' .forBind p' ps' cs') =
      binding? (.node i .forBind p ps cs))
    (hPosition : position? (.node i' .forBind p' ps' cs') =
      position? (.node i .forBind p ps cs))
    (hCheck : ∀ row row', R row row' →
      row.disabled? ps = row'.disabled? ps')
    (hSource : ∀ row row', R row row' →
      Meets lax Eq (lastValue library cs row)
        (lastValue library cs' row'))
    (hHanded : ∀ row row', R row row' →
      Env.AgreeOn
        (kept handed (bound (.node i .forBind p ps cs)))
        row row') :
    SameRows library lax (Env.AgreeOn handed)
      (.node i .forBind p ps cs) context
      (.node i' .forBind p' ps' cs') context' := by
  refine sameRows_forBind_of_bind hInput hBinding hPosition
    hCheck hSource (fun var hVar row row' hRow value place =>
      .bindFor (fun name hName hNew => ?_) value place)
  refine hHanded row row' hRow name ⟨hName, ?_⟩
  simpa [bound, kind, hVar] using hNew

theorem sameRows_letBind_of_bind
    (hInput : Meets lax (List.Forall₂ R)
      (headRows library cs context)
      (headRows library cs' context'))
    (hBinding : binding? (.node i' .letBind p' ps' cs') =
      binding? (.node i .letBind p ps cs))
    (hCheck : ∀ row row', R row row' →
      row.disabled? ps = row'.disabled? ps')
    (hValue : ∀ row row', R row row' →
      Meets lax Eq (valueAt library 2 cs row)
        (valueAt library 2 cs' row'))
    (hBind : ∀ var,
      binding? (.node i .letBind p ps cs) = some var →
        ∀ row row', R row row' → ∀ value : Sequence,
          Q (row.bind var value) (row'.bind var value)) :
    SameRows library lax Q
      (.node i .letBind p ps cs) context
      (.node i' .letBind p' ps' cs') context' := by
  rw [SameRows, rows, rows]
  refine hInput.bind ?_
  intro inputs inputs' hRows
  rw [hBinding]
  cases hVar : binding? (.node i .letBind p ps cs) with
  | none => exact .failure
  | some var =>
      simp only [Option.bind_eq_bind, Option.bind_some]
      refine Meets.mapM hRows ?_
      intro row row' hRow
      rw [hCheck row row' hRow]
      refine (Meets.refl (row'.disabled? ps')).bind ?_
      rintro skipped _ rfl
      cases skipped with
      | true => exact .value (hBind var hVar row row' hRow [])
      | false =>
          rw [if_neg (by simp), if_neg (by simp)]
          refine (hValue row row' hRow).bind ?_
          rintro s _ rfl
          exact .value (hBind var hVar row row' hRow s)

theorem sameRows_letBind
    (hInput : Meets lax (List.Forall₂ R)
      (headRows library cs context)
      (headRows library cs' context'))
    (hBinding : binding? (.node i' .letBind p' ps' cs') =
      binding? (.node i .letBind p ps cs))
    (hCheck : ∀ row row', R row row' →
      row.disabled? ps = row'.disabled? ps')
    (hValue : ∀ row row', R row row' →
      Meets lax Eq (valueAt library 2 cs row)
        (valueAt library 2 cs' row'))
    (hHanded : ∀ row row', R row row' →
      Env.AgreeOn
        (kept handed (bound (.node i .letBind p ps cs)))
        row row') :
    SameRows library lax (Env.AgreeOn handed)
      (.node i .letBind p ps cs) context
      (.node i' .letBind p' ps' cs') context' := by
  refine sameRows_letBind_of_bind hInput hBinding hCheck
    hValue (fun var hVar row row' hRow value =>
      .bind (fun name hName hNew => ?_) value)
  refine hHanded row row' hRow name ⟨hName, ?_⟩
  simpa [bound, kind, hVar] using hNew

theorem sameRows_selection
    (hInput : Meets lax (List.Forall₂ R)
      (headRows library cs context)
      (headRows library cs' context'))
    (hPredicate : ∀ row row', R row row' →
      Meets lax Eq (valueAt library 1 cs row)
        (valueAt library 1 cs' row'))
    (hHanded : ∀ row row', R row row' → Q row row') :
    SameRows library lax Q
      (.node i .selection p ps cs) context
      (.node i' .selection p' ps' cs') context' := by
  rw [SameRows, rows, rows]
  refine hInput.bind ?_
  intro inputs inputs' hRows
  refine Meets.bind (Meets.mapM
    (S := List.Forall₂ Q) hRows ?_) ?_
  · intro row row' hRow
    refine (hPredicate row row' hRow).bind ?_
    rintro s _ rfl
    refine (Meets.refl s.truth?).bind ?_
    rintro holds _ rfl
    cases holds with
    | false => exact .value .nil
    | true => exact .value (.cons (hHanded row row' hRow) .nil)
  · intro rowss rowss' hLists
    exact .value (List.rel_flatten hLists)

theorem sameRows_count_of_bind
    (hInput : Meets lax (List.Forall₂ R)
      (headRows library cs context)
      (headRows library cs' context'))
    (hBinding : binding? (.node i' .count p' ps' cs') =
      binding? (.node i .count p ps cs))
    (hBind : ∀ var,
      binding? (.node i .count p ps cs) = some var →
        ∀ row row', R row row' → ∀ value : Sequence,
          Q (row.bind var value) (row'.bind var value)) :
    SameRows library lax Q
      (.node i .count p ps cs) context
      (.node i' .count p' ps' cs') context' := by
  rw [SameRows, rows, rows]
  refine hInput.bind ?_
  intro inputs inputs' hRows
  rw [hBinding]
  cases hVar : binding? (.node i .count p ps cs) with
  | none => exact .failure
  | some var =>
      refine .value ?_
      have hNumbered (first : Nat) :
          List.Forall₂ Q
            ((inputs.zipIdx first).map (fun e =>
              e.1.bind var [.int e.2]))
            ((inputs'.zipIdx first).map (fun e =>
              e.1.bind var [.int e.2])) := by
        induction hRows generalizing first with
        | nil => exact .nil
        | cons hRow _ ih =>
            exact .cons (hBind var hVar _ _ hRow _) (ih _)
      exact hNumbered 1

theorem sameRows_count
    (hInput : Meets lax (List.Forall₂ R)
      (headRows library cs context)
      (headRows library cs' context'))
    (hBinding : binding? (.node i' .count p' ps' cs') =
      binding? (.node i .count p ps cs))
    (hHanded : ∀ row row', R row row' →
      Env.AgreeOn
        (kept handed (bound (.node i .count p ps cs)))
        row row') :
    SameRows library lax (Env.AgreeOn handed)
      (.node i .count p ps cs) context
      (.node i' .count p' ps' cs') context' := by
  refine sameRows_count_of_bind hInput hBinding
    (fun var hVar row row' hRow value =>
      .bind (fun name hName hNew => ?_) value)
  refine hHanded row row' hRow name ⟨hName, ?_⟩
  simpa [bound, kind, hVar] using hNew

end Tree

end Flwor

------------------------------------------------------------
-- Sorted and Grouped Rows
------------------------------------------------------------

namespace Flwor

namespace Tree

variable {library : Library}
variable {lax : Leeway}
variable {R Q : Env → Env → Prop}
variable {handed : Set String}
variable {context context' : Env}
variable {i i' : NodeId}
variable {p p' : Payload}
variable {ps ps' : Properties}

/- Specs whose keys have the same values, one by one. -/
theorem meets_sortValues
    {row row' : Env}
    {specs specs' : List Tree}
    (hSpecs : List.Forall₂ (fun spec spec' =>
      Meets lax Eq (spec.sortValue library row)
        (spec'.sortValue library row')) specs specs') :
    Meets lax Eq (sortValues library specs row)
      (sortValues library specs' row') := by
  rw [sortValues_eq, sortValues_eq]
  refine (Meets.mapM (S := Eq) hSpecs ?_).mono ?_
  · exact fun _ _ hSame => hSame
  · intro keys keys' hEq
    rwa [List.forall₂_eq_eq_eq] at hEq

/- The key of a spec is the value of its first child. -/
theorem meets_sortValue
    {row row' : Env}
    {spec spec' : Tree}
    (hKey : Meets lax Eq
      (spec.children[0]?.bind (fun t => t.value library row))
      (spec'.children[0]?.bind (fun t =>
        t.value library row'))) :
    Meets lax Eq (spec.sortValue library row)
      (spec'.sortValue library row') := by
  unfold sortValue
  refine hKey.bind ?_
  rintro s _ rfl
  exact .refl _

theorem sameRows_orderBy
    {input input' : Tree}
    {specs specs' : List Tree}
    (hInput : SameRows library lax R input context
      input' context')
    (hOrders : specs.mapM (fun spec => spec.payload.order?) =
      specs'.mapM (fun spec => spec.payload.order?))
    (hKeys : ∀ row row', R row row' →
      Meets lax Eq (sortValues library specs row)
        (sortValues library specs' row'))
    (hHanded : ∀ row row', R row row' → Q row row') :
    SameRows library lax Q
      (.node i .orderBy p ps (input :: specs)) context
      (.node i' .orderBy p' ps' (input' :: specs'))
        context' := by
  rw [SameRows, rows, rows]
  refine Meets.bind hInput ?_
  intro inputs inputs' hRows
  simp only [List.drop_one, List.tail_cons, hOrders,
    tailSortValues]
  refine (Meets.refl
    (specs'.mapM (fun spec => spec.payload.order?))).bind ?_
  rintro orders _ rfl
  refine Meets.bind (Meets.mapM
    (S := fun x y => x.1 = y.1 ∧ Q x.2 y.2) hRows ?_) ?_
  · intro row row' hRow
    refine (hKeys row row' hRow).map ?_
    rintro keys _ rfl
    exact ⟨rfl, hHanded row row' hRow⟩
  · intro keyed keyed' hKeyed
    exact .value (forall₂_sortKeyed orders hKeyed)

/- A row of a group binds the same names in both contexts. -/
theorem agreeOn_group
    {keys targets : List String}
    {group : GroupEntry}
    (hKeys : group.keys.length = keys.length)
    (hTargets : group.values.length = targets.length)
    (hContext : Env.AgreeOn (kept handed (keys ++ targets))
      context context') :
    Env.AgreeOn handed
      ((context.bindAll (keys.zip group.keys)).bindAll
        (targets.zip group.values))
      ((context'.bindAll (keys.zip group.keys)).bindAll
        (targets.zip group.values)) := by
  have hFirst : (keys.zip group.keys).map Prod.fst = keys :=
    List.map_fst_zip hKeys.ge
  have hSecond :
      (targets.zip group.values).map Prod.fst = targets :=
    List.map_fst_zip hTargets.ge
  have hKept : Env.AgreeOn (kept handed targets)
      (context.bindAll (keys.zip group.keys))
      (context'.bindAll (keys.zip group.keys)) := by
    refine .bindAll _ (fun name hName hKey => ?_)
    rw [hFirst] at hKey
    exact hContext name
      ⟨hName.1, by simp [hKey, hName.2]⟩
  refine .bindAll _ (fun name hName hTarget => ?_)
  rw [hSecond] at hTarget
  exact hKept name ⟨hName, hTarget⟩

/- Values that two rows hold under the same names. -/
theorem meets_named
    {α : Type}
    {row row' : Env}
    (label : α → String)
    (wanted : List α)
    (hSame : ∀ a ∈ wanted, row (label a) = row' (label a)) :
    Meets lax
      (fun vs vs' => vs = vs' ∧ vs.length = wanted.length)
      (wanted.mapM (fun a => row (label a)))
      (wanted.mapM (fun a => row' (label a))) := by
  induction wanted with
  | nil => exact .value ⟨rfl, rfl⟩
  | cons a rest ih =>
      rw [List.mapM_cons, List.mapM_cons, hSame a (by simp)]
      refine (Meets.refl (row' (label a))).bind ?_
      rintro v _ rfl
      refine (ih (fun b hB => hSame b (by simp [hB]))).bind ?_
      rintro vs _ ⟨rfl, hLength⟩
      exact .value ⟨rfl, by simp [hLength]⟩

theorem sameRows_groupBy_of_bindAll
    {cs cs' : List Tree}
    (hInput : Meets lax (List.Forall₂ R)
      (headRows library cs context)
      (headRows library cs' context'))
    (hKeys : groupKeys (.node i' .groupBy p' ps' cs') =
      groupKeys (.node i .groupBy p ps cs))
    (hAggregates :
      groupAggregates (.node i' .groupBy p' ps' cs') =
        groupAggregates (.node i .groupBy p ps cs))
    (hReadKeys : ∀ row row', R row row' →
      ∀ name ∈ groupKeys (.node i .groupBy p ps cs),
        row name = row' name)
    (hReadSources : ∀ row row', R row row' →
      ∀ aggregate ∈
        groupAggregates (.node i .groupBy p ps cs),
        row aggregate.2 = row' aggregate.2)
    (hGroup : ∀ group : GroupEntry,
      group.keys.length =
          (groupKeys (.node i .groupBy p ps cs)).length →
        group.values.length =
          (groupAggregates
            (.node i .groupBy p ps cs)).length →
        Q ((context.bindAll
            ((groupKeys (.node i .groupBy p ps cs)).zip
              group.keys)).bindAll
            (((groupAggregates
              (.node i .groupBy p ps cs)).map Prod.fst).zip
                group.values))
          ((context'.bindAll
            ((groupKeys (.node i .groupBy p ps cs)).zip
              group.keys)).bindAll
            (((groupAggregates
              (.node i .groupBy p ps cs)).map Prod.fst).zip
                group.values))) :
    SameRows library lax Q
      (.node i .groupBy p ps cs) context
      (.node i' .groupBy p' ps' cs') context' := by
  rw [SameRows, rows, rows]
  refine hInput.bind ?_
  intro inputs inputs' hRows
  rw [hKeys, hAggregates]
  let keys := groupKeys (.node i .groupBy p ps cs)
  let aggregates := groupAggregates (.node i .groupBy p ps cs)
  -- The entries of both are the same.
  refine Meets.bind (Meets.mapM
    (S := fun e e' => e = e' ∧ e.keys.length = keys.length)
    hRows ?_) ?_
  · intro row row' hRow
    refine (meets_named (fun name => name) keys
      (hReadKeys row row' hRow)).bind ?_
    rintro ks _ ⟨rfl, hLength⟩
    refine (meets_named Prod.snd aggregates
      (hReadSources row row' hRow)).bind ?_
    rintro vs _ ⟨rfl, _⟩
    exact .value ⟨rfl, hLength⟩
  · intro entries entries' hSame
    have hEq : entries = entries' :=
      List.forall₂_eq_eq_eq ▸ hSame.imp (fun _ _ h => h.1)
    subst hEq
    have hWidths : ∀ e ∈ entries,
        e.keys.length = keys.length := by
      rw [List.forall₂_same] at hSame
      exact fun e hMem => (hSame e hMem).2
    refine .value ?_
    rw [List.forall₂_map_left_iff,
      List.forall₂_map_right_iff, List.forall₂_same]
    intro group hMem
    rcases length_of_mem_mergeGroups hMem with
      ⟨hValuesLength, first, hFirst, hKeysEq⟩
    refine hGroup group ?_ hValuesLength
    rw [hKeysEq, hWidths first hFirst]

theorem sameRows_groupBy
    {cs cs' : List Tree}
    (hInput : Meets lax (List.Forall₂ R)
      (headRows library cs context)
      (headRows library cs' context'))
    (hKeys : groupKeys (.node i' .groupBy p' ps' cs') =
      groupKeys (.node i .groupBy p ps cs))
    (hAggregates :
      groupAggregates (.node i' .groupBy p' ps' cs') =
        groupAggregates (.node i .groupBy p ps cs))
    (hReadKeys : ∀ row row', R row row' →
      ∀ name ∈ groupKeys (.node i .groupBy p ps cs),
        row name = row' name)
    (hReadSources : ∀ row row', R row row' →
      ∀ aggregate ∈
        groupAggregates (.node i .groupBy p ps cs),
        row aggregate.2 = row' aggregate.2)
    (hContext : Env.AgreeOn
      (kept handed (bound (.node i .groupBy p ps cs)))
      context context') :
    SameRows library lax (Env.AgreeOn handed)
      (.node i .groupBy p ps cs) context
      (.node i' .groupBy p' ps' cs') context' :=
  sameRows_groupBy_of_bindAll hInput hKeys hAggregates
    hReadKeys hReadSources (fun group hKeys hValues =>
      agreeOn_group hKeys (by simpa using hValues) hContext)

end Tree

end Flwor

------------------------------------------------------------
-- Joined Rows
------------------------------------------------------------

namespace Flwor

namespace Tree

variable {library : Library}
variable {lax : Leeway}
variable {S T Q : Env → Env → Prop}
variable {context context' : Env}
variable {i i' j j' : NodeId}
variable {k k' : Kind}
variable {p p' q q' : Payload}
variable {ps ps' qs qs' : Properties}

/- The right rows with their keys. -/
theorem meets_keyed
    {keys keys' : List Tree}
    (hKey : ∀ row row', T row row' →
      Meets lax Eq (valueAt library 1 keys row)
        (valueAt library 1 keys' row'))
    {rights rights' : List Env}
    (hRows : List.Forall₂ T rights rights') :
    Meets lax
      (List.Forall₂ (fun x y => x.1 = y.1 ∧ T x.2 y.2))
      (rights.mapM (fun right =>
        (valueAt library 1 keys right).map (fun key =>
          (key, right))))
      (rights'.mapM (fun right =>
        (valueAt library 1 keys' right).map (fun key =>
          (key, right)))) := by
  refine Meets.mapM hRows ?_
  intro row row' hRow
  refine (hKey row row' hRow).map ?_
  rintro key _ rfl
  exact ⟨rfl, hRow⟩

/-
  Joined rows agree if the bindings of the right row and the
  rest of the left row do; whether a row is padded depends
  on the keys alone.
-/
theorem sameRows_join
    {left left' right right' : Tree}
    {keys keys' : List Tree}
    (hLeft : SameRows library lax S left context
      left' context')
    (hRight : SameRows library lax T right context
      right' context')
    (hComparison : q.comparison? = q'.comparison?)
    (hLeftJoin : ps.flag Properties.leftJoin =
      ps'.flag Properties.leftJoin)
    (hSkipSort : ps.flag Properties.skipSort =
      ps'.flag Properties.skipSort)
    (hLeftKey : ∀ row row', S row row' →
      Meets lax Eq (valueAt library 0 keys row)
        (valueAt library 0 keys' row'))
    (hRightKey : ∀ row row', T row row' →
      Meets lax Eq (valueAt library 1 keys row)
        (valueAt library 1 keys' row'))
    (hJoined : ∀ row row' other other', S row row' →
      T other other' →
        Q (row.under right.visible other)
          (row'.under right'.visible other'))
    (hPadded : ∀ row row', S row row' →
      ps'.flag Properties.leftJoin = true →
        Q (row.padded right.visible)
          (row'.padded right'.visible)) :
    SameRows library lax Q
      (.node i .join p ps [left, .node j k q qs keys, right])
      context
      (.node i' .join p' ps'
        [left', .node j' k' q' qs' keys', right'])
      context' := by
  rw [SameRows, rows, rows, joinRows, joinRows, hComparison,
    hLeftJoin, hSkipSort]
  refine (Meets.refl q'.comparison?).bind ?_
  rintro comparison _ rfl
  refine Meets.bind hLeft ?_
  intro lefts lefts' hLefts
  refine Meets.bind hRight ?_
  intro rights rights' hRights
  refine (meets_keyed hRightKey hRights).bind ?_
  intro keyed keyed' hKeyed
  refine Meets.bind (Meets.mapM
    (S := List.Forall₂ Q) hLefts ?_) ?_
  · intro row row' hRow
    refine (hLeftKey row row' hRow).bind ?_
    rintro key _ rfl
    refine Meets.bind
      (refines_found? comparison _ key hKeyed).meets ?_
    intro found found' hFound
    have hEmpty : found.isEmpty = found'.isEmpty := by
      cases hFound <;> rfl
    rw [hEmpty]
    split
    next hPad =>
      rw [Bool.and_eq_true] at hPad
      exact .value (.cons (hPadded row row' hRow hPad.2) .nil)
    next =>
      refine .value ?_
      rw [List.forall₂_map_left_iff,
        List.forall₂_map_right_iff]
      exact hFound.imp (fun other other' hOther =>
        hJoined row row' other other' hRow hOther)
  · intro rowss rowss' hLists
    exact .value (List.rel_flatten hLists)

end Tree

end Flwor

------------------------------------------------------------
-- Trees That Follow the Rules
------------------------------------------------------------

namespace Flwor

namespace Tree

variable {library : Library}
variable {lax : Leeway}

/- The variable that a stage checks is as empty in both. -/
theorem disabled?_eq
    {read : Set String}
    {ps : Properties}
    (hCheck : ∀ name,
      ps.var? Properties.check = some name → name ∈ read)
    {row row' : Env}
    (hAgree : Env.AgreeOn read row row') :
    row.disabled? ps = row'.disabled? ps := by
  unfold Env.disabled?
  cases hName : ps.var? Properties.check with
  | none => rfl
  | some name =>
      simp only
      rw [hAgree name (hCheck name hName)]

/- What is handed on and not bound anew comes from a row. -/
theorem agreeOn_kept
    {read handed : Set String}
    {bound : List String}
    (hHanded : ∀ name ∈ handed, name ∉ bound → name ∈ read)
    {row row' : Env}
    (hAgree : Env.AgreeOn read row row') :
    Env.AgreeOn (kept handed bound) row row' :=
  fun name hName => hAgree name (hHanded name hName.1 hName.2)

mutual

/-
  The value of an expression is the same wherever the names
  that it reads are.
-/
theorem ReadsFrom.sameValue
    {names : Set String}
    {t : Tree}
    (hReads : ReadsFrom library False names t)
    {env env' : Env}
    (hAgree : Env.AgreeOn names env env') :
    SameValue library lax t env t env' := by
  match hReads with
  | .literal _ => exact sameValue_literal rfl
  | .emptySequence => exact sameValue_emptySequence
  | .sequence hParts =>
      refine sameValue_sequence (List.forall₂_same.mpr ?_)
      exact fun c hC => (hParts c hC).sameValue hAgree
  | .binary hKind hLeft hRight hReadsLeft hReadsRight =>
      exact sameValue_binary hKind hLeft hLeft hRight hRight
        (hReadsLeft.sameValue hAgree)
        (hReadsRight.sameValue hAgree)
  | .cond hCondition hYes hNo hReadsCondition hReadsYes
      hReadsNo =>
      exact sameValue_cond hCondition hCondition hYes hYes
        hNo hNo (hReadsCondition.sameValue hAgree)
        (hReadsYes.sameValue hAgree)
        (hReadsNo.sameValue hAgree)
  | .call _ _ hArguments =>
      refine sameValue_call (List.forall₂_same.mpr ?_)
      exact fun c hC => (hArguments c hC).sameValue hAgree
  | .variableRef hName hMem =>
      refine sameValue_variableRef (fun name hVar => ?_)
      rw [hName] at hVar
      cases hVar
      exact hAgree _ hMem
  | .pipe hTail hResult =>
      exact sameValue_pipe (hTail.sameRows hAgree)
        (fun row row' hRow => hResult.sameValue hRow)

/-
  The rows of a stage agree on the names that it supplies
  wherever its contexts agree.
-/
theorem Supplies.sameRows
    {context handed : Set String}
    {t : Tree}
    (hSupplies : Supplies library False context handed t)
    {env env' : Env}
    (hAgree : Env.AgreeOn context env env') :
    SameRows library lax (Env.AgreeOn handed) t env
      t env' := by
  match hSupplies with
  | .start hHanded =>
      exact sameRows_start (hAgree.mono hHanded)
  | .forBind hInput hSource hReads hCheck _ hHanded =>
      refine sameRows_forBind (hInput.sameRows hAgree) rfl
        rfl (fun _ _ => disabled?_eq hCheck) ?_
        (fun _ _ => agreeOn_kept hHanded)
      intro row row' hRow
      rw [lastValue_eq, lastValue_eq, hSource]
      exact hReads.sameValue hRow
  | .letBind hInput hVar _ hValue hReads hCheck hHanded =>
      refine sameRows_letBind (hInput.sameRows hAgree) rfl
        (fun _ _ => disabled?_eq hCheck) ?_
        (fun _ _ => agreeOn_kept ?_)
      · exact fun row row' hRow =>
          sameValue_at 2 hValue hValue (hReads.sameValue hRow)
      · intro name hName hNew
        refine hHanded name hName (fun hEq => hNew ?_)
        simp [bound, kind, hVar, hEq]
  | .deadLet _ _ _ hLenient _ _ => exact hLenient.elim
  | .selection hInput hPredicate hReads hHanded =>
      refine sameRows_selection (hInput.sameRows hAgree) ?_
        (fun _ _ hRow => hRow.mono hHanded)
      exact fun row row' hRow => sameValue_at 1 hPredicate
        hPredicate (hReads.sameValue hRow)
  | .orderBy hInput _ _ hKeys _ hHanded =>
      refine sameRows_orderBy (hInput.sameRows hAgree) rfl ?_
        (fun _ _ hRow => hRow.mono hHanded)
      intro row row' hRow
      refine meets_sortValues (List.forall₂_same.mpr ?_)
      intro spec hSpec
      refine meets_sortValue ?_
      cases hKey : spec.children[0]? with
      | none => exact .failure
      | some key =>
          exact (hKeys spec hSpec key hKey).sameValue hRow
  | .groupBy hInput hKeys hSources hHanded =>
      exact sameRows_groupBy (hInput.sameRows hAgree) rfl rfl
        (fun _ _ hRow name hName =>
          hRow name (hKeys name hName))
        (fun _ _ hRow aggregate hMem =>
          hRow _ (hSources aggregate hMem))
        (agreeOn_kept hHanded hAgree)
  | .count hInput hVar hHanded =>
      refine sameRows_count (hInput.sameRows hAgree) rfl
        (fun _ _ => agreeOn_kept ?_)
      intro name hName hNew
      refine hHanded name hName (fun hEq => hNew ?_)
      simp [bound, kind, hVar, hEq]
  | .join hLeft hRight _ _ _ hLeftKey hRightKey hReadsLeft
      hReadsRight hHandedLeft hHandedRight =>
      refine sameRows_join (hLeft.sameRows hAgree)
        (hRight.sameRows hAgree) rfl rfl rfl ?_ ?_ ?_ ?_
      · exact fun row row' hRow => sameValue_at 0 hLeftKey
          hLeftKey (hReadsLeft.sameValue hRow)
      · exact fun row row' hRow => sameValue_at 1 hRightKey
          hRightKey (hReadsRight.sameValue hRow)
      · intro row row' other other' hRow hOther
        exact .under (fun _ _ => Iff.rfl)
          (fun name hName hMem =>
            hOther name (hHandedRight name hName hMem))
          (fun name hName hNot =>
            hRow name (hHandedLeft name hName hNot))
      · intro row row' hRow _
        exact .padded (fun _ _ => Iff.rfl)
          (fun name hName hNot =>
            hRow name (hHandedLeft name hName hNot))

end

end Tree

end Flwor
