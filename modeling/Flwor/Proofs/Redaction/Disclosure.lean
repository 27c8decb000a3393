import Mathlib.Control.Monad.Basic
import Flwor.Command.Report
import Flwor.Proofs.Redaction.Compiling
import Flwor.Proofs.Redaction.Liveness

/-
  What a redacted explanation discloses.

  Two documents that differ in their literals are the same
  document behind the veil.  So are their plans after all
  passes, with and without projection, and their queries;
  and what is shown of a query, it shows behind the veil.

  Key definitions include:
    * `Document.SameButLiterals`
    * `Prepared.disclosed`

  Key theorems include:
    * `Document.veil_eq_of_same`
    * `Plan.prepare_veil`
    * `Plan.prepare_disclosed`
-/

------------------------------------------------------------
-- Documents that Differ in Literals
------------------------------------------------------------

namespace Flwor

namespace Document

/-
  Whether two payloads are the same, or both items of
  literals.
-/
def SamePayload
    (kind : Kind)
    (p q : Payload) : Prop :=
  p = q ∨
    kind = .literal ∧ p.item?.isSome ∧ q.item?.isSome

mutual

/- Whether documents differ at most in items of literals. -/
def SameButLiterals : Document → Document → Prop
  | .node k p cs ps, .node l q ds qs =>
      k = l ∧ SamePayload k p q ∧ ps = qs ∧
        SameButLiteralsAll cs ds

/- The same, of lists of documents. -/
def SameButLiteralsAll :
    List Document → List Document → Prop
  | [], [] => True
  | d :: ds, e :: es =>
      SameButLiterals d e ∧ SameButLiteralsAll ds es
  | [], _ :: _ => False
  | _ :: _, [] => False

end

/- A veil hides which item a literal has. -/
theorem veil_eq_of_samePayload
    {kind : Kind}
    {p q : Payload}
    (hSame : SamePayload kind p q) :
    p.veil = q.veil := by
  rcases hSame with rfl | ⟨_, hItem, hOther⟩
  · rfl
  · have hVeiled (r : Payload) (hR : r.item?.isSome) :
        r.veil = .bool false := by
      cases r <;> first | rfl | cases hR
    rw [hVeiled p hItem, hVeiled q hOther]

mutual

/- A veil hides the literals of documents. -/
theorem veil_eq_of_same :
    ∀ d e : Document, SameButLiterals d e → d.veil = e.veil
  | .node k p cs ps, .node l q ds qs, hSame => by
      rw [SameButLiterals] at hSame
      rcases hSame with ⟨rfl, hPayload, rfl, hChildren⟩
      rw [veil, veil, veil_eq_of_samePayload hPayload,
        veilAll_eq_of_same cs ds hChildren]

theorem veilAll_eq_of_same :
    ∀ ds es : List Document,
      SameButLiteralsAll ds es → veilAll ds = veilAll es
  | [], [], _ => rfl
  | d :: ds, e :: es, hSame => by
      rw [SameButLiteralsAll] at hSame
      rw [veilAll, veilAll, veil_eq_of_same d e hSame.1,
        veilAll_eq_of_same ds es hSame.2]
  | [], _ :: _, hSame => by
      rw [SameButLiteralsAll] at hSame
      exact hSame.elim
  | _ :: _, [], hSame => by
      rw [SameButLiteralsAll] at hSame
      exact hSame.elim

end

end Document

namespace Plan

/- A veil may be drawn before a plan is made, or after. -/
theorem ofDocument_veil
    (d : Document) :
    ofDocument d.veil = (ofDocument d).map veil := by
  have hEmpty : empty.veil = empty := by
    simp [veil, empty]
  have hRun :
      (Edit.install d.veil).run empty.veil =
        (((Edit.install d).run empty).1,
          ((Edit.install d).run empty).2.veil) :=
    Edit.mirrors_install d empty
  rw [hEmpty] at hRun
  unfold ofDocument
  rw [hRun]
  rcases (Edit.install d).run empty with ⟨e | root, plan⟩
  · rfl
  · rfl

theorem ofValidDocument_veil
    (d : Document) :
    ofValidDocument d.veil =
      (ofValidDocument d).map veil := by
  unfold ofValidDocument
  rw [ofDocument_veil]
  cases ofDocument d with
  | error e => rfl
  | ok plan =>
      change (plan.veil.validate.bind fun _ =>
        .ok plan.veil) =
          (plan.validate.bind fun _ => .ok plan).map veil
      rw [validate_veil]
      cases plan.validate <;> rfl

end Plan

end Flwor

------------------------------------------------------------
-- Disclosures
------------------------------------------------------------

namespace Flwor

namespace Prepared

/-
  What is shown of a prepared plan when literals are to be
  hidden: the reports of the passes, the operators as text
  and the operators as a value.
-/
def disclosed
    (prepared : Prepared) :
    List WalkReport × String × Json :=
  (prepared.reports, prepared.query.explain.render true 0,
    Encode.explain true prepared.query.explain)

/- The text is what stands below the checksum. -/
theorem operators_eq_disclosed
    (prepared : Prepared) :
    Report.operators true prepared.query =
      "plan_hash=" ++ Checksum.hex prepared.query.fingerprint
        ++ "\n" ++ prepared.disclosed.2.1 :=
  rfl

end Prepared

namespace Plan

theorem projectIf_veil
    (plan : Plan)
    (wanted : Bool) :
    plan.veil.projectIf wanted =
      (plan.projectIf wanted).map (fun r =>
        (r.1, r.2.veil)) := by
  unfold projectIf
  rw [project_veil]
  cases wanted with
  | false => rfl
  | true =>
      rcases plan.project with ⟨e | count, projected⟩
      · rfl
      · rfl

/- What is disclosed of a query depends on what is shown. -/
theorem ofPlan_veil
    (library : Library)
    (plan : Plan)
    (externals : List String) :
    (Query.ofPlan library plan.veil externals).map
        (fun query => query.explain.redacted) =
      (Query.ofPlan library plan externals).map
        (fun query => query.explain.redacted) := by
  have hRoot := Query.compileRoot_veil library plan.rootTree
    externals
  unfold Query.ofPlan
  rw [rootTree_veil]
  cases hVeiled : Query.compileRoot library
      plan.rootTree.veil externals with
  | error e =>
      cases hPlain : Query.compileRoot library
          plan.rootTree externals with
      | error e' =>
          rw [hVeiled, hPlain] at hRoot
          exact congrArg Except.error
            (Except.error.inj hRoot)
      | ok q =>
          rw [hVeiled, hPlain] at hRoot
          cases hRoot
  | ok q =>
      cases hPlain : Query.compileRoot library
          plan.rootTree externals with
      | error e' =>
          rw [hVeiled, hPlain] at hRoot
          cases hRoot
      | ok q' =>
          rw [hVeiled, hPlain] at hRoot
          exact congrArg Except.ok (Except.ok.inj hRoot)

theorem prepare_eq
    (plan : Plan)
    (settings : Settings)
    (library : Library)
    (externals : List String) :
    (plan.prepare settings library externals).map
        Prepared.disclosed =
      (optimize settings plan).bind (fun r =>
        r.2.validate.bind (fun _ =>
          (r.2.projectIf settings.projection).bind (fun p =>
            ((Query.ofPlan library p.2 externals).map
              (fun query => query.explain.redacted)).map
                (fun shown =>
                  (r.1, shown.render false 0,
                    Encode.explain false shown))))) := by
  have hShown (reports : List WalkReport) (count : Nat)
      (plan : Plan) (query : Query) :
      Prepared.disclosed ⟨plan, reports, count, query⟩ =
        (reports, query.explain.redacted.render false 0,
          Encode.explain false query.explain.redacted) := by
    rw [Explain.render_redacted, Encode.explain_redacted,
      Prepared.disclosed]
  unfold prepare
  simp only [bind, Except.bind]
  cases optimize settings plan with
  | error e => rfl
  | ok r =>
      simp only
      cases r.2.validate with
      | error e => rfl
      | ok u =>
          simp only
          cases r.2.projectIf settings.projection with
          | error e => rfl
          | ok p =>
              simp only
              cases Query.ofPlan library p.2 externals with
              | error e => rfl
              | ok query =>
                  exact congrArg Except.ok
                    (hShown r.1 p.1 p.2 query)

/- What is disclosed of a plan, it discloses behind the veil. -/
theorem prepare_veil
    (plan : Plan)
    (settings : Settings)
    (library : Library)
    (externals : List String) :
    (plan.veil.prepare settings library externals).map
        Prepared.disclosed =
      (plan.prepare settings library externals).map
        Prepared.disclosed := by
  rw [prepare_eq, prepare_eq, optimize_veil]
  rcases optimize settings plan with e | ⟨reports, plan⟩
  · rfl
  · change plan.veil.validate.bind _ =
      plan.validate.bind _
    rw [validate_veil, projectIf_veil]
    cases plan.validate with
    | error e => rfl
    | ok u =>
        change ((plan.projectIf settings.projection).map
            _).bind _ =
          (plan.projectIf settings.projection).bind _
        rcases plan.projectIf settings.projection with
          e | ⟨count, projected⟩
        · rfl
        · exact congrArg (Except.map _)
            (ofPlan_veil library projected externals)

/-
  Plans whose documents differ only in the items of literals
  are both prepared, with the same reports and the same
  redacted explanations, or both fail with the same error.
-/
theorem prepare_disclosed
    {d e : Document}
    (hSame : d.SameButLiterals e)
    {plan other : Plan}
    (hPlan : ofValidDocument d = .ok plan)
    (hOther : ofValidDocument e = .ok other)
    (settings : Settings)
    (library : Library)
    (externals : List String) :
    (plan.prepare settings library externals).map
        Prepared.disclosed =
      (other.prepare settings library externals).map
        Prepared.disclosed := by
  have hVeil : plan.veil = other.veil := by
    have hVeiled := ofValidDocument_veil d
    rw [Document.veil_eq_of_same d e hSame,
      ofValidDocument_veil e, hPlan, hOther] at hVeiled
    exact (Except.ok.inj hVeiled).symm
  rw [← prepare_veil plan, hVeil, prepare_veil other]

/- A query that looks for a literal. -/
def searching
    (payload : Payload) : Document :=
  .branch .pipeExpr
    [.branch .finish
      [.branch .selection
        [.branch .forBind
          [.leaf .start,
           .carrying .variable (.var "x"),
           .carrying .variableRef (.var "in")],
         .node .comparisonExpr (.cmp (.general .eq))
          [.carrying .variableRef (.var "x"),
           .carrying .literal payload] []],
       .carrying .variableRef (.var "x")]]

/- The plan of the query. -/
def searchingPlan
    (payload : Payload) : Plan :=
  ((Edit.install (searching payload)).run empty).2

theorem prepare_disclosed_searching :
    ∃ shown,
      ((searchingPlan (.int 42)).prepare Settings.standard
          Library.standard ["in"]).map Prepared.disclosed =
        .ok shown ∧
      ((searchingPlan (.str "secret")).prepare
          Settings.standard Library.standard ["in"]).map
          Prepared.disclosed =
        .ok shown ∧
      shown.2.1 =
        "Return expr=<redacted>\n"
          ++ "  Select predicate=<redacted>\n"
          ++ "    ForBind var=$x in=<redacted>\n"
          ++ "      Start\n" := by
  have hSame : (searching (.int 42)).SameButLiterals
      (searching (.str "secret")) := by
    simp [searching, Document.branch, Document.leaf,
      Document.carrying, Document.SameButLiterals,
      Document.SameButLiteralsAll, Document.SamePayload,
      Payload.item?]
  have hPlan : ofValidDocument (searching (.int 42)) =
      .ok (searchingPlan (.int 42)) := by
    decide +kernel
  have hOther : ofValidDocument (searching (.str "secret")) =
      .ok (searchingPlan (.str "secret")) := by
    decide +kernel
  have hDisclosed := prepare_disclosed hSame hPlan hOther
    Settings.standard Library.standard ["in"]
  have hText :
      (((searchingPlan (.int 42)).prepare Settings.standard
          Library.standard ["in"]).map
            Prepared.disclosed).toOption.map
              (fun shown => shown.2.1) =
        some ("Return expr=<redacted>\n"
          ++ "  Select predicate=<redacted>\n"
          ++ "    ForBind var=$x in=<redacted>\n"
          ++ "      Start\n") := by
    decide +kernel
  rw [← hDisclosed]
  cases hShown : ((searchingPlan (.int 42)).prepare
      Settings.standard Library.standard ["in"]).map
        Prepared.disclosed with
  | error e =>
      rw [hShown] at hText
      cases hText
  | ok shown =>
      rw [hShown] at hText
      exact ⟨shown, rfl, rfl, Option.some.inj hText⟩

end Plan

end Flwor
