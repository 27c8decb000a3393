import Flwor.Proofs.Hoisting.Stages
import Flwor.Proofs.Liveness.LiveStages
import Flwor.Proofs.MatchOrder.Blurring
import Flwor.Proofs.NestedLoops

/-
  What becomes of blurred rows in the stages of a pipeline.

  A left join that may give its matches in any order yields
  its rows in blocks, whose members the names of the right
  input tell apart.  Stages that bind names add to those
  that do so.  A grouping by other names takes the
  difference away, but for the order of what it collects.

  Key definitions include:
    * `Tree.spread`
    * `Tree.blurredAfter?`

  Key theorems include:
    * `Tree.mixes_after`
    * `Tree.blocks_join`
    * `Tree.sameRows_grouped`
-/

------------------------------------------------------------
-- Stages on Blurred Rows
------------------------------------------------------------

namespace Flwor

namespace Tree

variable (library : Library)

/- What a loop, a `let` or a selection makes of one row. -/
def spread : Tree → Env → Option (List Env)
  | .node i k p ps cs, row =>
      let self := Tree.node i k p ps cs
      match k with
      | .forBind => do
          let var ← self.binding?
          if ← row.disabled? ps then
            return [row.bindNothing var self.position?]
          else
            let items ← lastValue library cs row
            return row.bindItems var self.position? items
      | .letBind => do
          let var ← self.binding?
          if ← row.disabled? ps then
            return [row.bind var []]
          else
            let s ← valueAt library 2 cs row
            return [row.bind var s]
      | .selection => do
          let s ← valueAt library 1 cs row
          return if ← s.truth? then [row] else []
      | _ => none

variable {library : Library}
variable {names : List String}
variable {i : NodeId}
variable {k : Kind}
variable {p : Payload}
variable {ps : Properties}
variable {input input' : Tree}
variable {rest : List Tree}
variable {context : Env}

/- One by one, and in lists of one element each. -/
theorem mapM_eq_spreadAll
    {step : Env → Option Env}
    {steps : Env → Option (List Env)}
    (hSteps : ∀ row, steps row =
      (step row).map (fun made => [made]))
    (rows : List Env) :
    rows.mapM step = Env.spreadAll steps rows := by
  have hStep : steps = fun row =>
      (step row).bind (fun made => some [made]) :=
    funext (fun row => by rw [hSteps, Option.map_eq_bind]; rfl)
  have hAll := mapM_singletons step (fun _ made => made) rows
  rw [Env.spreadAll, hStep, ← hAll]
  simp

/- The stages that make rows of each row of their input. -/
def Spreading
    (k : Kind)
    (t : Tree) : Prop :=
  k = .selection ∨
    (k = .forBind ∨ k = .letBind) ∧
      ∃ var, t.binding? = some var

/- The rows of such a stage are made of those of its input. -/
theorem rows_spread
    (hSpreading : Spreading k (.node i k p ps (input :: rest))) :
    rows library (.node i k p ps (input :: rest)) context =
      (input.rows library context).bind (Env.spreadAll
        (spread library
          (.node i k p ps (input :: rest)))) := by
  rcases hSpreading with rfl | ⟨rfl | rfl, var, hVar⟩
  · rw [rows, headRows]
    refine congrArg (Option.bind _) (funext fun inputs => ?_)
    rw [Env.spreadAll, Option.map_eq_bind]
    refine congrArg (Option.bind · _)
      (congrArg (List.mapM · inputs) (funext fun row => ?_))
    rw [spread]
  · rw [rows, headRows]
    simp only [hVar, Option.bind_eq_bind, Option.bind_some]
    refine congrArg (Option.bind _) (funext fun inputs => ?_)
    rw [Env.spreadAll, Option.map_eq_bind]
    refine congrArg (Option.bind · _)
      (congrArg (List.mapM · inputs) (funext fun row => ?_))
    rw [spread, hVar]
    rfl
  · rw [rows, headRows]
    simp only [hVar, Option.bind_eq_bind, Option.bind_some]
    refine congrArg (Option.bind _) (funext fun inputs => ?_)
    refine mapM_eq_spreadAll (fun row => ?_) inputs
    rw [spread, hVar]
    cases row.disabled? ps with
    | none => rfl
    | some skipped =>
        cases skipped with
        | true => rfl
        | false =>
            cases valueAt library 2 (input :: rest) row <;>
              simp

/- What is made of a row differs from it in new names only. -/
theorem varies_of_spread
    {t : Tree}
    {row one : Env}
    {made : List Env}
    (hMade : spread library t row = some made)
    (hOne : one ∈ made) :
    Env.Varies .any t.bound one row := by
  have hVaries {new : List String} {env : Env}
      (hAgree : Env.AgreeOn {n | n ∉ new} env row) :
      Env.Varies .any new env row := by
    intro name
    by_cases hName : name ∈ new
    · exact .inr ⟨hName, trivial⟩
    · exact .inl (hAgree name hName)
  rcases t with ⟨i, k, p, ps, cs⟩
  cases k <;> simp only [spread, Option.bind_eq_bind,
    Option.bind_eq_some_iff, reduceCtorEq] at hMade
  case forBind =>
    rcases hMade with ⟨var, hVar, skipped, _, hMade⟩
    have hBound : bound (.node i .forBind p ps cs) =
        var :: (position?
          (.node i .forBind p ps cs)).toList := by
      simp [bound, hVar]
    rw [hBound]
    cases skipped with
    | true =>
        cases hMade
        cases List.mem_singleton.mp hOne
        exact hVaries (Env.agreeOn_bindFor _ _ _ _ _)
    | false =>
        simp only [Bool.false_eq_true, if_false,
          Option.bind_eq_some_iff] at hMade
        rcases hMade with ⟨items, _, hMade⟩
        cases hMade
        rw [Env.bindItems, List.mem_map] at hOne
        rcases hOne with ⟨entry, _, rfl⟩
        exact hVaries (Env.agreeOn_bindFor _ _ _ _ _)
  case letBind =>
    rcases hMade with ⟨var, hVar, skipped, _, hMade⟩
    have hBound : bound (.node i .letBind p ps cs) = [var] := by
      simp [bound, hVar]
    have hSingle {value : Sequence}
        (hOne : one = row.bind var value) :
        Env.Varies .any [var] one row := by
      rw [hOne]
      exact hVaries (fun name hName =>
        Env.agreeOn_bind row var value name (by simpa using hName))
    rw [hBound]
    cases skipped with
    | true =>
        cases hMade
        exact hSingle (List.mem_singleton.mp hOne)
    | false =>
        simp only [Bool.false_eq_true, if_false,
          Option.bind_eq_some_iff] at hMade
        rcases hMade with ⟨s, _, hMade⟩
        cases hMade
        exact hSingle (List.mem_singleton.mp hOne)
  case selection =>
    rcases hMade with ⟨s, _, holds, _, hMade⟩
    cases hMade
    cases holds with
    | true =>
        cases List.mem_singleton.mp hOne
        exact .refl _
    | false => cases hOne

/- So it can be told from its fellows by these names only. -/
theorem spreads_spread
    (t : Tree) :
    Env.Spreads names (names ++ t.bound)
      (spread library t) := by
  intro row row' hRow made made' hMade hMade' one hOne other
    hOther
  have hWide := hRow.mono (List.subset_append_left names t.bound)
  have hHere := (varies_of_spread hMade hOne).mono
    (List.subset_append_right names t.bound)
  have hThere := (varies_of_spread hMade' hOther).mono
    (List.subset_append_right names t.bound)
  exact (hHere.any_trans hWide).any_trans hThere.any_symm

end Tree

end Flwor

------------------------------------------------------------
-- What Is Left of the Blocks
------------------------------------------------------------

namespace Flwor

namespace Tree

/- Whether a stage reads one of some names, or has a check. -/
def dependsOn
    (names : List String)
    (t : Tree) : Bool :=
  (t.properties.get? Properties.check).isSome
    || t.stageReads.any names.contains

/-
  What is known of the rows of a stage if the rows of its
  input are blurred: whether they still come in blocks, and
  which names tell them apart.
-/
def blurredAfter?
    (even : Bool)
    (names : List String)
    (t : Tree) : Option (Bool × List String) :=
  match t.kind with
  | .letBind => some (even, names ++ t.derived names)
  | .forBind =>
      if !t.dependsOn names then some (false, names)
      else if even then some (true, names ++ t.derived names)
      else none
  | .selection =>
      if even || !t.dependsOn names then some (even, names)
      else none
  | .orderBy =>
      if t.dependsOn names then none else some (false, names)
  | _ => none

end Tree

/- Rows that are blurred, in blocks or not. -/
def Env.Mixes
    (even : Bool)
    (names : List String)
    (rows rows' : List Env) : Prop :=
  if even then Blocks names rows rows'
  else Blurs names rows rows'

namespace Env.Mixes

variable {even : Bool}
variable {names wider : List String}
variable {rows rows' : List Env}
variable {step : Env → Option (List Env)}

theorem blurs
    (hMixes : Mixes even names rows rows') :
    Blurs names rows rows' := by
  cases even with
  | true => exact Blocks.blurs hMixes
  | false => exact hMixes

/- A step that keeps blocks, and treats rows alike. -/
theorem spread
    (hMixes : Mixes even names rows rows')
    (hSpreads : even = true → Spreads names wider step)
    (hAligns : even = false → Aligns names wider step) :
    Meets False (Mixes even wider) (spreadAll step rows)
      (spreadAll step rows') := by
  cases even with
  | true => exact Blocks.spread hMixes (hSpreads rfl)
  | false => exact Blurs.spread hMixes (hAligns rfl)

end Env.Mixes

namespace Tree

variable {library : Library}
variable {even even' : Bool}
variable {names names' : List String}
variable {i : NodeId}
variable {k : Kind}
variable {p : Payload}
variable {ps : Properties}
variable {context : Env}

section Independent

variable {t : Tree}
variable (hNot : t.dependsOn names = false)

include hNot

theorem unchecked_of_independent :
    t.properties.get? Properties.check = none := by
  simp only [dependsOn, Bool.or_eq_false_iff] at hNot
  simpa using hNot.1

theorem derived_of_independent :
    t.derived names = [] := by
  unfold derived
  rw [if_neg (by rw [← dependsOn]; simp [hNot])]

/- The expressions of a stage that does not read the names. -/
theorem steady_of_independent
    {e : Tree}
    (hShaped : e.Shaped)
    (hE : e ∈ t.ownExpressions) :
    e.Steady library .any names := by
  refine (overlooks_of_unread hShaped
    (fun name hName hMem => ?_)).steady
  simp only [dependsOn, Bool.or_eq_false_iff,
    List.any_eq_false] at hNot
  refine hNot.2 name ?_ (by simpa using hMem)
  simp only [stageReads, List.mem_append, List.mem_flatMap]
  exact .inl (.inl ⟨e, hE, hName⟩)

end Independent

/- A `let` makes one row of each. -/
theorem single_of_letBind
    {cs : List Tree}
    {row : Env}
    {made : List Env}
    (hMade : spread library (.node i .letBind p ps cs) row =
      some made) :
    ∃ one, made = [one] := by
  simp only [spread, Option.bind_eq_bind,
    Option.bind_eq_some_iff] at hMade
  rcases hMade with ⟨var, _, skipped, _, hMade⟩
  cases skipped with
  | true =>
      cases hMade
      exact ⟨_, rfl⟩
  | false =>
      simp only [Bool.false_eq_true, if_false,
        Option.bind_eq_some_iff] at hMade
      rcases hMade with ⟨s, _, hMade⟩
      cases hMade
      exact ⟨_, rfl⟩

/- A stage that does not read the names treats rows alike. -/
theorem aligns_of_independent
    {cs : List Tree}
    (hShaped : (Tree.node i k p ps cs).Shaped)
    (hNot : dependsOn names (.node i k p ps cs) = false)
    (hKind : k = .forBind ∨ k = .letBind ∨ k = .selection) :
    Env.Aligns names names
      (spread library (.node i k p ps cs)) := by
  have hUnchecked : ps.get? Properties.check = none :=
    unchecked_of_independent hNot
  have hSteady {e : Tree} (hChild : e ∈ cs) (hE : e ∈
      ownExpressions (.node i k p ps cs)) :
      e.Steady library .any names :=
    steady_of_independent hNot (hShaped.child hChild) hE
  intro row row' hRow made made' hMade hMade'
  rcases hKind with rfl | rfl | rfl
  · rcases hShaped.forBind with ⟨input, leaves, e, rfl, _⟩
    have hLast :
        (input :: (leaves ++ [e])).getLast? = some e := by
      rw [← List.cons_append, List.getLast?_concat]
    have hSame := (hSteady (List.mem_of_getLast? hLast)
      (by simp [ownExpressions, hLast])).value row row' hRow
    simp only [spread, disabled?_unchecked hUnchecked,
      lastValue_eq, hLast, Option.bind_eq_bind,
      Option.bind_some, Bool.false_eq_true, if_false,
      Option.bind_eq_some_iff] at hMade hMade'
    rcases hMade with ⟨var, hVar, items, hItems, hMade⟩
    rcases hMade' with ⟨_, hVar', _, hItems', hMade'⟩
    cases hVar.symm.trans hVar'
    cases (hItems.symm.trans hSame).trans hItems'
    cases hMade
    cases hMade'
    rw [Env.bindItems, Env.bindItems,
      List.forall₂_map_left_iff, List.forall₂_map_right_iff,
      List.forall₂_same]
    exact fun _ _ => (hRow.bind _ _).bindOption _ _
  · rcases hShaped.letBind with ⟨input, v, e, rfl, _⟩
    have hSame := (hSteady (e := e) (by simp)
      (by simp [ownExpressions])).value row row' hRow
    simp only [spread, disabled?_unchecked hUnchecked, valueAt,
      Option.bind_eq_bind, Option.bind_some,
      Bool.false_eq_true, if_false,
      Option.bind_eq_some_iff] at hMade hMade'
    rcases hMade with ⟨var, hVar, s, hS, hMade⟩
    rcases hMade' with ⟨_, hVar', _, hS', hMade'⟩
    cases hVar.symm.trans hVar'
    cases (hS.symm.trans hSame).trans hS'
    cases hMade
    cases hMade'
    exact .cons (hRow.bind _ _) .nil
  · rcases hShaped.selection with ⟨input, e, rfl, _⟩
    have hSame := (hSteady (e := e) (by simp)
      (by simp [ownExpressions])).value row row' hRow
    simp only [spread, valueAt, Option.bind_eq_bind,
      Option.bind_eq_some_iff] at hMade hMade'
    rcases hMade with ⟨s, hS, holds, hHolds, hMade⟩
    rcases hMade' with ⟨_, hS', _, hHolds', hMade'⟩
    cases (hS.symm.trans hSame).trans hS'
    cases hHolds.symm.trans hHolds'
    cases hMade
    cases hMade'
    cases holds with
    | true => exact .cons hRow .nil
    | false => exact .nil

/- A `let` keeps blocks, and treats rows in one place alike. -/
theorem keeps_letBind
    {cs : List Tree}
    (hShaped : (Tree.node i .letBind p ps cs).Shaped) :
    let t := Tree.node i .letBind p ps cs
    Env.Spreads names (names ++ t.derived names)
        (spread library t) ∧
      Env.Aligns names (names ++ t.derived names)
        (spread library t) := by
  intro t
  cases hDepends : t.dependsOn names with
  | true =>
      have hDerived : t.derived names = t.bound := by
        unfold derived
        rw [← dependsOn, if_pos hDepends]
      rw [hDerived]
      refine ⟨spreads_spread t,
        fun row row' hRow made made' hMade hMade' => ?_⟩
      rcases single_of_letBind hMade with ⟨one, rfl⟩
      rcases single_of_letBind hMade' with ⟨other, rfl⟩
      exact .cons (spreads_spread t row row' hRow _ _ hMade
        hMade' one (by simp) other (by simp)) .nil
  | false =>
      have hAligns :
          Env.Aligns names names (spread library t) :=
        aligns_of_independent hShaped hDepends (by simp)
      rw [derived_of_independent hDepends, List.append_nil]
      refine ⟨fun row row' hRow made made' hMade hMade'
        one hOne other hOther => ?_, hAligns⟩
      have hBoth := hAligns row row' hRow _ _ hMade hMade'
      rcases single_of_letBind hMade with ⟨_, rfl⟩
      rcases single_of_letBind hMade' with ⟨_, rfl⟩
      cases List.mem_singleton.mp hOne
      cases List.mem_singleton.mp hOther
      cases hBoth with
      | cons hHead _ => exact hHead

variable {input input' : Tree}
variable {rest : List Tree}

/- A stage that makes rows of each row of a blurred input. -/
theorem mixes_spread
    {wider : List String}
    (hShaped : (Tree.node i k p ps (input :: rest)).Shaped)
    (hKind : k = .forBind ∨ k = .letBind ∨ k = .selection)
    (hInput : Meets False (Env.Mixes even names)
      (input.rows library context)
      (input'.rows library context))
    (hSpreads : even = true → Env.Spreads names wider
      (spread library (.node i k p ps (input :: rest))))
    (hAligns : even = false → Env.Aligns names wider
      (spread library (.node i k p ps (input :: rest)))) :
    Meets False (Env.Mixes even wider)
      (rows library (.node i k p ps (input :: rest)) context)
      (rows library (.node i k p ps (input' :: rest))
        context) := by
  have hHasInput : k.hasInput := by
    rcases hKind with rfl | rfl | rfl <;> rfl
  rcases hShaped.input hHasInput with
    ⟨_, first, more, hChildren, _⟩
  cases hChildren
  -- The step does not depend on what comes in.
  have hSame : spread library
        (.node i k p ps (input' :: first :: more)) =
      spread library
        (.node i k p ps (input :: first :: more)) := by
    rcases hKind with rfl | rfl | rfl <;> rfl
  have hBoth : Spreading k
        (.node i k p ps (input :: first :: more)) ∧
      Spreading k
        (.node i k p ps (input' :: first :: more)) := by
    rcases hKind with rfl | rfl | rfl
    · have hVar := hShaped.exists_binding (.inr rfl)
      exact ⟨.inr ⟨.inl rfl, hVar⟩, .inr ⟨.inl rfl, hVar⟩⟩
    · have hVar := hShaped.exists_binding (.inl rfl)
      exact ⟨.inr ⟨.inr rfl, hVar⟩, .inr ⟨.inr rfl, hVar⟩⟩
    · exact ⟨.inl rfl, .inl rfl⟩
  rw [rows_spread hBoth.1, rows_spread hBoth.2, hSame]
  exact hInput.bind (fun _ _ hMixes =>
    hMixes.spread hSpreads hAligns)

/- A sort by keys that do not read the names. -/
theorem blurs_orderBy
    (hShaped :
      (Tree.node i .orderBy p ps (input :: rest)).Shaped)
    (hNot : dependsOn names
      (.node i .orderBy p ps (input :: rest)) = false)
    (hInput : Meets False (Env.Blurs names)
      (input.rows library context)
      (input'.rows library context)) :
    Meets False (Env.Blurs names)
      (rows library
        (.node i .orderBy p ps (input :: rest)) context)
      (rows library
        (.node i .orderBy p ps (input' :: rest)) context) := by
  rw [rows, rows]
  refine hInput.bind (fun inputs inputs' hBlurs => ?_)
  simp only [List.drop_one, List.tail_cons, tailSortValues]
  refine (Meets.refl
    (rest.mapM (fun spec => spec.payload.order?))).bind ?_
  rintro orders _ rfl
  have hKeys (row row' : Env)
      (hRow : Env.Varies .any names row row') :
      sortValues library rest row =
        sortValues library rest row' := by
    refine sortValues_steady (fun spec hSpec c hC => ?_) hRow
    have hSpecShaped := hShaped.child
      (List.mem_cons_of_mem input hSpec)
    have hKind := hShaped.orderSpec hSpec
    rcases spec with ⟨j, kind, q, qs, parts⟩
    cases hKind
    rcases List.length_eq_one_iff.mp
        (hSpecShaped.length_eq rfl) with ⟨key, rfl⟩
    cases List.mem_singleton.mp hC
    refine steady_of_independent hNot (hSpecShaped.child hC) ?_
    simp only [ownExpressions, kind_node, children_node,
      List.drop_one, List.tail_cons, List.mem_filterMap]
    exact ⟨_, hSpec, rfl⟩
  have hSorted := hBlurs.sorted orders hKeys
  rw [Option.map_eq_bind, Option.map_eq_bind] at hSorted
  exact hSorted

/-
  A stage whose input is blurred hands blurred rows on, in
  the way that it says.
-/
theorem mixes_after
    (hShaped : (Tree.node i k p ps (input :: rest)).Shaped)
    (hAfter : blurredAfter? even names
      (.node i k p ps (input :: rest)) = some (even', names'))
    (hInput : Meets False (Env.Mixes even names)
      (input.rows library context)
      (input'.rows library context)) :
    Meets False (Env.Mixes even' names')
      (rows library (.node i k p ps (input :: rest)) context)
      (rows library (.node i k p ps (input' :: rest))
        context) := by
  have hBlurs : Meets False (Env.Mixes false names)
      (input.rows library context)
      (input'.rows library context) :=
    hInput.mono (fun _ _ hMixes => hMixes.blurs)
  cases k <;> simp only [blurredAfter?, kind_node,
    reduceCtorEq] at hAfter
  case letBind =>
    cases hAfter
    exact mixes_spread hShaped (by simp) hInput
      (fun _ => (keeps_letBind hShaped).1)
      (fun _ => (keeps_letBind hShaped).2)
  case forBind =>
    cases hDepends : dependsOn names
        (.node i .forBind p ps (input :: rest)) with
    | false =>
        rw [hDepends] at hAfter
        cases hAfter
        exact mixes_spread hShaped (by simp) hBlurs nofun
          (fun _ => aligns_of_independent hShaped hDepends
            (by simp))
    | true =>
        rw [hDepends] at hAfter
        cases even with
        | false => cases hAfter
        | true =>
            cases hAfter
            have hDerived : derived names
                  (.node i .forBind p ps (input :: rest)) =
                bound (.node i .forBind p ps (input :: rest)) := by
              unfold derived
              rw [← dependsOn, if_pos hDepends]
            refine mixes_spread hShaped (by simp) hInput
              (fun _ => ?_) nofun
            rw [hDerived]
            exact spreads_spread _
  case selection =>
    split at hAfter
    next hEither =>
      cases hAfter
      refine mixes_spread hShaped (by simp) hInput
        (fun _ => ?_) (fun hEven => ?_)
      · let t := Tree.node i .selection p ps (input :: rest)
        have hSpreads : Env.Spreads names (names ++ t.bound)
            (spread library t) :=
          spreads_spread t
        have hNone : bound
            (.node i .selection p ps (input :: rest)) = [] :=
          rfl
        rwa [hNone, List.append_nil] at hSpreads
      · rw [hEven] at hEither
        exact aligns_of_independent hShaped
          (by simpa using hEither) (by simp)
    next => cases hAfter
  case orderBy =>
    split at hAfter
    next => cases hAfter
    next hNot =>
      cases hAfter
      exact blurs_orderBy hShaped (by simpa using hNot) hBlurs

end Tree

end Flwor

------------------------------------------------------------
-- Joins and Groupings
------------------------------------------------------------

namespace Flwor

/- The look-up structures find the same entries. -/
theorem Comparison.meets_found
    {α : Type}
    (comparison : Comparison)
    (key : Sequence)
    (keyed : List (Sequence × α)) :
    Meets False List.Perm (comparison.found? false key keyed)
      (comparison.found? true key keyed) := by
  have hZip : keyed =
      (keyed.map Prod.fst).zip (keyed.map Prod.snd) :=
    List.zip_of_prod rfl rfl
  have hRows (skipSort : Bool) :=
    Probe.matching_rows comparison skipSort
      (keyed.map Prod.fst) (keyed.map Prod.snd) (by simp) key
  rw [← hZip] at hRows
  rw [← hRows, ← hRows]
  unfold Probe.matching
  cases Probe.candidates _ comparison key with
  | error e => exact .failure
  | ok found =>
      exact .value ((Probe.arrange_perm found).symm.filterMap _)

namespace Tree

variable {library : Library}
variable {names : List String}
variable {i j : NodeId}
variable {k : Kind}
variable {p q : Payload}
variable {ps ps' qs : Properties}
variable {context : Env}

/- The lists that many blocks are put into. -/
theorem blocks_flatten
    {parts parts' : List (List Env)}
    (hParts : List.Forall₂ (fun block block' =>
      block.Perm block' ∧ ∀ row ∈ block, ∀ other ∈ block,
        Env.Varies .any names row other) parts parts') :
    Env.Blocks names parts.flatten parts'.flatten := by
  induction hParts with
  | nil => exact .nil
  | cons hHead _ ih => exact .cons hHead.1 hHead.2 ih

/- A left join whose matches come in any order. -/
theorem blocks_join
    {left right : Tree}
    {keys : List Tree}
    (hLeftJoin : ps'.flag Properties.leftJoin =
      ps.flag Properties.leftJoin)
    (hUnmarked : ps.flag Properties.skipSort = false)
    (hMarked : ps'.flag Properties.skipSort = true) :
    Meets False (Env.Blocks right.visible)
      (rows library (.node i .join p ps
        [left, .node j k q qs keys, right]) context)
      (rows library (.node i .join p ps'
        [left, .node j k q qs keys, right]) context) := by
  rw [rows, rows, joinRows, joinRows, hUnmarked, hMarked,
    hLeftJoin]
  refine (Meets.refl q.comparison?).bind ?_
  rintro comparison _ rfl
  refine (Meets.refl (left.rows library context)).bind ?_
  rintro lefts _ rfl
  refine (Meets.refl (right.rows library context)).bind ?_
  rintro rights _ rfl
  refine (Meets.refl (rights.mapM (fun right =>
    (valueAt library 1 keys right).map (fun key =>
      (key, right))))).bind ?_
  rintro keyed _ rfl
  refine (Meets.mapM (S := fun block block' =>
    block.Perm block' ∧ ∀ row ∈ block, ∀ other ∈ block,
      Env.Varies .any right.visible row other)
    (List.forall₂_same.mpr (fun _ _ => rfl)) ?_).bind
      (fun parts parts' hParts => .value (blocks_flatten hParts))
  rintro row _ rfl
  refine (Meets.refl (valueAt library 0 keys row)).bind ?_
  rintro key _ rfl
  refine (comparison.meets_found key keyed).bind
    (fun found found' hFound => ?_)
  rw [hFound.isEmpty_eq]
  split
  · refine .value ⟨.refl _, fun one hOne other hOther => ?_⟩
    cases List.mem_singleton.mp hOne
    cases List.mem_singleton.mp hOther
    exact .refl _
  · refine .value ⟨hFound.map _,
      fun one hOne other hOther => ?_⟩
    rcases List.mem_map.mp hOne with ⟨entry, _, rfl⟩
    rcases List.mem_map.mp hOther with ⟨entry', _, rfl⟩
    intro name
    unfold Env.under
    split
    next hName => exact .inr ⟨hName, trivial⟩
    next => exact .inl rfl

variable {input input' : Tree}
variable {rest : List Tree}

/-
  A grouping of blurred rows by keys that do not tell them
  apart makes the same groups, with reordered collections.
-/
theorem sameRows_grouped
    (hKeys : ∀ name ∈
      groupKeys (.node i .groupBy p ps (input :: rest)),
        name ∉ names)
    (hInput : Meets False (Env.Blurs names)
      (input.rows library context)
      (input'.rows library context)) :
    SameRows library False
      (Env.Varies .reordered (GroupEntry.collected names
        (groupAggregates
          (.node i .groupBy p ps (input :: rest)))))
      (.node i .groupBy p ps (input :: rest)) context
      (.node i .groupBy p ps (input' :: rest)) context := by
  rw [SameRows, rows, rows]
  refine hInput.bind (fun inputs inputs' hBlurs => ?_)
  refine (hBlurs.entries hKeys).bind ?_
  rintro entries entries' ⟨hPerm, hDiffer⟩
  refine .value ?_
  rw [List.forall₂_map_left_iff, List.forall₂_map_right_iff]
  refine (GroupEntry.forall₂_mergeGroups hPerm
    hDiffer).imp ?_
  rintro group group' ⟨hSame, hValues⟩
  rw [hSame]
  exact (Env.Varies.refl _).bindAllTo hValues

end Tree

end Flwor
