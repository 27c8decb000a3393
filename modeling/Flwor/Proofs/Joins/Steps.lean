import Flwor.Pass.Unnest
import Flwor.Proofs.Rescoping

/-
  Stages that evaluate one expression on each row of their
  input, and make rows of its value: the stages that a
  nested pipeline may consist of.

  Such a stage does not care which stage feeds it.  If its
  expression has the same value on two rows, then it makes
  the same bindings on both of them.

  Key definitions include:
    * `Tree.Aside`
    * `Tree.Step`

  Key theorems include:
    * `Tree.Aside.exists_step`
    * `Tree.Step.rows_filtered`
-/

------------------------------------------------------------
-- Kept Elements
------------------------------------------------------------

namespace Flwor

variable {α β γ : Type}

/-
  Elements that are replaced by several ones each, before
  and after some of them are left out.  What replaces an
  element is left out if the element is.
-/
theorem flatten_filtered
    {xs : List α}
    {keep : α → Bool}
    {u : α → β}
    {v : α → γ}
    {f : α → Option (List α)}
    {g : β → Option (List γ)}
    {yss : List (List α)}
    {zss : List (List γ)}
    (hKept : ∀ x ∈ xs, ∀ ys, f x = some ys →
      ∀ y ∈ ys, keep y = keep x)
    (hSame : ∀ x ∈ xs, ∀ ys zs, f x = some ys →
      g (u x) = some zs → zs = ys.map v)
    (hAll : xs.mapM f = some yss)
    (hSome : ((xs.filter keep).map u).mapM g = some zss) :
    zss.flatten = (yss.flatten.filter keep).map v := by
  induction xs generalizing yss zss with
  | nil =>
      cases hAll
      cases hSome
      rfl
  | cons x rest ih =>
      rw [List.forall_mem_cons] at hKept hSame
      rw [List.mapM_cons] at hAll
      simp only [Option.bind_eq_bind,
        Option.bind_eq_some_iff] at hAll
      rcases hAll with ⟨ys, hYs, more, hMore, hEq⟩
      cases hEq
      have hFirst := hKept.1 ys hYs
      rw [List.flatten_cons, List.filter_append,
        List.map_append]
      cases hKeep : keep x with
      | false =>
          rw [List.filter_cons, if_neg (by simp [hKeep])]
            at hSome
          have hNone : ys.filter keep = [] := by
            rw [List.filter_eq_nil_iff]
            intro y hY
            rw [hFirst y hY, hKeep]
            simp
          rw [hNone]
          exact ih hKept.2 hSame.2 hMore hSome
      | true =>
          rw [List.filter_cons, if_pos hKeep, List.map_cons,
            List.mapM_cons] at hSome
          simp only [Option.bind_eq_bind,
            Option.bind_eq_some_iff] at hSome
          rcases hSome with ⟨zs, hZs, others, hOthers, hEq⟩
          cases hEq
          have hEvery : ys.filter keep = ys := by
            rw [List.filter_eq_self]
            intro y hY
            rw [hFirst y hY, hKeep]
          rw [hEvery, List.flatten_cons,
            ih hKept.2 hSame.2 hMore hOthers,
            hSame.1 ys zs hYs hZs]

/- Each element stays as it is or is left out. -/
theorem flatten_chosen
    {xs : List α}
    {keep : α → Bool}
    {u : α → β}
    {g : β → Option (List β)}
    {yss : List (List β)}
    (hEach : ∀ x ∈ xs, ∀ ys, g (u x) = some ys →
      ys = if keep x then [u x] else [])
    (hAll : (xs.map u).mapM g = some yss) :
    yss.flatten = (xs.filter keep).map u := by
  induction xs generalizing yss with
  | nil =>
      cases hAll
      rfl
  | cons x rest ih =>
      rw [List.forall_mem_cons] at hEach
      rw [List.map_cons, List.mapM_cons] at hAll
      simp only [Option.bind_eq_bind,
        Option.bind_eq_some_iff] at hAll
      rcases hAll with ⟨ys, hYs, more, hMore, hEq⟩
      cases hEq
      rw [List.flatten_cons, ih hEach.2 hMore,
        hEach.1 ys hYs, List.filter_cons]
      cases keep x with
      | false => rfl
      | true => rfl

/- One by one, and in lists of one element each. -/
theorem mapM_singletons
    (f : α → Option β)
    (g : α → β → γ)
    (xs : List α) :
    xs.mapM (fun x => (f x).bind (fun y => some (g x y))) =
      (xs.mapM (fun x =>
        (f x).bind (fun y => some [g x y]))).map
          List.flatten := by
  induction xs with
  | nil => rfl
  | cons x rest ih =>
      rw [List.mapM_cons, List.mapM_cons, ih]
      cases f x with
      | none => rfl
      | some y =>
          simp only [Option.bind_eq_bind, Option.bind_some]
          cases rest.mapM (fun x =>
            (f x).bind (fun y => some [g x y])) with
          | none => rfl
          | some more => rfl

end Flwor

------------------------------------------------------------
-- Steps
------------------------------------------------------------

namespace Flwor

namespace Env

/- A row below another one that binds one more name. -/
theorem bind_under
    (left row : Env)
    (names : List String)
    (var : String)
    (value : Sequence) :
    (left.under names row).bind var value =
      left.under (names ++ [var]) (row.bind var value) := by
  funext name
  simp only [bind_apply, under, List.mem_append,
    List.mem_singleton]
  by_cases hVar : name = var
  · simp [hVar]
  · simp [hVar]

theorem bindOption_under
    (left row : Env)
    (names : List String)
    (var : Option String)
    (value : Sequence) :
    (left.under names row).bindOption var value =
      left.under (names ++ var.toList)
        (row.bindOption var value) := by
  cases var with
  | none => simp [bindOption]
  | some var => exact bind_under left row names var value

theorem under_nil
    (left row : Env) :
    left.under [] row = left := by
  funext name
  simp [under]

end Env

namespace Tree

variable (library : Library)

/-
  A stage without the stage that feeds it: the names that it
  binds, the expression that it evaluates, and the rows that
  it makes of a row and a value.
-/
structure Step
    (stage : Tree → Tree)
    (new : List String)
    (e : Tree)
    (grow : Env → Sequence → Option (List Env)) : Prop where
  visible : ∀ input,
    (stage input).visible = input.visible ++ new
  supplies : ∀ {context handed read input},
    Supplies library False context read input →
      ReadsFrom library False read e →
        (∀ name ∈ handed, name ∉ new → name ∈ read) →
          Supplies library False context handed (stage input)
  rows : ∀ input env,
    (stage input).rows library env =
      (input.rows library env).bind (fun inputs =>
        (inputs.mapM (fun row =>
          (e.value library row).bind (grow row))).map
            List.flatten)
  kept : ∀ {row s more}, grow row s = some more →
    ∀ other ∈ more,
      Env.AgreeOn {n | n ∉ new} other row
  under : ∀ {row s more}, grow row s = some more →
    ∀ (left : Env) (names : List String),
      grow (left.under names row) s =
        some (more.map (left.under (names ++ new)))

/-
  A stage of a nested pipeline that does not depend on the
  rows outside: it reads no outer variable and binds no
  variable again.
-/
structure Aside
    (outer names : List String)
    (stage : Tree) : Prop where
  admitted : stage.kind = .forBind ∨ stage.kind = .letBind ∨
    stage.kind = .selection
  unchecked : stage.properties.get? Properties.check = none
  unread : ∀ name ∈ stage.stageReads, name ∉ outer
  new : ∀ name ∈ stage.bound, name ∉ names
  nodup : stage.bound.Nodup

section

variable {library : Library}
variable {i : NodeId}
variable {p : Payload}
variable {ps : Properties}
variable {input : Tree}
variable {rest : List Tree}
variable {var : String}
variable (hUnchecked : ps.get? Properties.check = none)

include hUnchecked

omit hUnchecked in
theorem var?_eq_none_of_get?
    {key : String}
    (hNone : ps.get? key = none) :
    ps.var? key = none := by
  simp [Properties.var?, hNone]

/- A stage without a check is disabled on no row. -/
theorem disabled?_unchecked
    (row : Env) :
    row.disabled? ps = some false := by
  rw [Env.disabled?, var?_eq_none_of_get? hUnchecked]

/- A loop over the items of an expression. -/
theorem step_forBind
    {source : Tree}
    (hSource : rest.getLast? = some source)
    (hVar : binding?
      (.node i .forBind p ps (input :: rest)) = some var) :
    Step library
      (fun t => .node i .forBind p ps (t :: rest))
      (bound (.node i .forBind p ps (input :: rest))) source
      (fun row s => some (row.bindItems var
        (position? (.node i .forBind p ps (input :: rest)))
        s)) := by
  have hLast (t : Tree) :
      (t :: rest).getLast? = some source := by
    rw [List.getLast?_cons, hSource]
    rfl
  have hBound :
      bound (.node i .forBind p ps (input :: rest)) =
        var :: (position?
          (.node i .forBind p ps (input :: rest))).toList := by
    simp [bound, kind, hVar]
  refine ⟨fun t => visible_input rfl (by simp),
    fun hSupplies hReads hHanded => ?_, fun t env => ?_,
    fun hGrow => ?_, fun hGrow left names => ?_⟩
  · refine .forBind hSupplies (hLast _) hReads ?_ hVar hHanded
    intro name hName
    rw [var?_eq_none_of_get? hUnchecked] at hName
    cases hName
  · have hVar' : binding? (.node i .forBind p ps (t :: rest)) =
        some var := hVar
    rw [rows, headRows]
    simp only [hVar', disabled?_unchecked hUnchecked,
      lastValue_eq, hLast, Option.bind_eq_bind,
      Option.bind_some, Option.pure_def, Bool.false_eq_true,
      if_false]
    apply congrArg (Option.bind (t.rows library env))
    funext inputs
    rw [Option.map_eq_bind]
    rfl
  · cases hGrow
    intro other hOther
    rw [Env.bindItems, List.mem_map] at hOther
    rcases hOther with ⟨entry, _, rfl⟩
    rw [hBound]
    exact Env.agreeOn_bindFor _ _ _ _ _
  · cases hGrow
    apply congrArg some
    rw [Env.bindItems, Env.bindItems, List.map_map, hBound]
    refine List.map_congr_left (fun entry _ => ?_)
    rw [Function.comp, Env.bind_under, Env.bindOption_under,
      List.append_assoc]
    rfl

/- A binding of the value of an expression. -/
theorem step_letBind
    {value : Tree}
    (hLive : Compile.isLive ps var)
    (hValue : rest[1]? = some value)
    (hVar : binding?
      (.node i .letBind p ps (input :: rest)) = some var) :
    Step library
      (fun t => .node i .letBind p ps (t :: rest))
      (bound (.node i .letBind p ps (input :: rest))) value
      (fun row s => some [row.bind var s]) := by
  have hBound :
      bound (.node i .letBind p ps (input :: rest)) =
        [var] := by
    simp [bound, kind, hVar]
  refine ⟨fun t => visible_input rfl (by simp),
    fun hSupplies hReads hHanded => ?_, fun t env => ?_,
    fun hGrow => ?_, fun hGrow left names => ?_⟩
  · refine .letBind hSupplies hVar hLive hValue hReads ?_ ?_
    · intro name hName
      rw [var?_eq_none_of_get? hUnchecked] at hName
      cases hName
    · intro name hName hNew
      exact hHanded name hName (by simpa [hBound] using hNew)
  · have hVar' : binding? (.node i .letBind p ps (t :: rest)) =
        some var := hVar
    have hValue' : (t :: rest)[2]? = some value := hValue
    rw [rows, headRows]
    simp only [hVar', disabled?_unchecked hUnchecked,
      valueAt_eq, hValue', Option.bind_eq_bind,
      Option.bind_some, Option.pure_def, Bool.false_eq_true,
      if_false]
    apply congrArg (Option.bind (t.rows library env))
    funext inputs
    exact mapM_singletons _ _ inputs
  · cases hGrow
    intro other hOther
    rw [List.mem_singleton] at hOther
    rw [hOther, hBound]
    simpa using Env.agreeOn_bind _ var _
  · cases hGrow
    rw [hBound, List.map_singleton, Env.bind_under]

omit hUnchecked in
/- A choice of rows by the truth of an expression. -/
theorem step_selection
    {predicate : Tree}
    (hPredicate : rest[0]? = some predicate) :
    Step library
      (fun t => .node i .selection p ps (t :: rest))
      (bound (.node i .selection p ps (input :: rest)))
      predicate
      (fun row s => s.truth?.map (fun holds =>
        if holds then [row] else [])) := by
  refine ⟨fun t => visible_input rfl (by simp),
    fun hSupplies hReads hHanded => ?_, fun t env => ?_,
    fun hGrow => ?_, fun hGrow left names => ?_⟩
  · exact .selection hSupplies hPredicate hReads
      (fun name hName =>
        hHanded name hName (by simp [bound]))
  · have hPredicate' : (t :: rest)[1]? = some predicate :=
      hPredicate
    rw [rows, headRows]
    simp only [valueAt_eq, hPredicate', Option.bind_eq_bind,
      Option.bind_some, Option.pure_def]
    apply congrArg (Option.bind (t.rows library env))
    funext inputs
    simp only [Option.map_eq_bind]
    rfl
  · rw [Option.map_eq_some_iff] at hGrow
    rcases hGrow with ⟨holds, _, rfl⟩
    cases holds with
    | false => simp
    | true => simp [Env.AgreeOn.refl]
  · rw [Option.map_eq_some_iff] at hGrow
    rcases hGrow with ⟨holds, hTruth, rfl⟩
    rw [hTruth]
    cases holds with
    | false => rfl
    | true => simp [bound]

end

end Tree

end Flwor

------------------------------------------------------------
-- Independent Steps
------------------------------------------------------------

namespace Flwor

namespace Tree

variable {library : Library}
variable {outer names new : List String}
variable {i : NodeId}
variable {k : Kind}
variable {p : Payload}
variable {ps : Properties}
variable {input e : Tree}
variable {rest : List Tree}

theorem mem_stageReads
    {t : Tree}
    {name : String}
    (hOwn : e ∈ t.ownExpressions)
    (hName : name ∈ e.references) :
    name ∈ t.stageReads := by
  simp only [stageReads, List.append_assoc, List.mem_append,
    List.mem_flatMap]
  exact .inl ⟨e, hOwn, hName⟩

/- The value that a `let` binds is its last child. -/
theorem Shaped.getLast?_letBind
    {cs : List Tree}
    (hShaped : (Tree.node i .letBind p ps cs).Shaped) :
    cs.getLast? = cs[2]? := by
  rcases hShaped.self with ⟨place, hRule⟩
  simp only [brokenRule?, kind_node, children_node,
    Option.orElse_eq_orElse, Option.orElse_eq_or,
    Option.or_eq_none_iff, ShapeRule.countIn_eq_none,
    List.mem_singleton] at hRule
  rw [List.getLast?_eq_getElem?, hRule.1]

/-
  A stage that does not depend on the rows outside makes a
  step, by an expression that does not either.
-/
theorem Aside.exists_step
    {context handed : Set String}
    (hAside :
      Aside outer names (.node i k p ps (input :: rest)))
    (hTree : Rescopable ∅ (.node i k p ps (input :: rest)))
    (hSupplies : Supplies library False context handed
      (.node i k p ps (input :: rest))) :
    ∃ read e grow,
      Step library (fun t => .node i k p ps (t :: rest))
          (bound (.node i k p ps (input :: rest))) e grow ∧
        Supplies library False context read input ∧
        ReadsFrom library False read e ∧
        e.Rescopable {n | n ∈ outer} ∧
        ∀ name ∈ handed,
          name ∉ bound (.node i k p ps (input :: rest)) →
            name ∈ read := by
  have hRescopable {e : Tree}
      (hChild : e ∈ input :: rest)
      (hOwn : e ∈
        ownExpressions (.node i k p ps (input :: rest))) :
      e.Rescopable {n | n ∈ outer} :=
    { shaped := hTree.shaped.child hChild
      lacks := hTree.lacks.child hChild
      unread := fun name hName =>
        hAside.unread name (mem_stageReads hOwn hName) }
  cases hSupplies with
  | forBind hInput hSource hReads _ hVar hHanded =>
      rcases hTree.shaped.input rfl with
        ⟨_, first, more, hChildren, _⟩
      cases hChildren
      have hLast := hSource
      rw [List.getLast?_cons_cons] at hLast
      exact ⟨_, _, _,
        step_forBind hAside.unchecked hLast hVar, hInput,
        hReads,
        hRescopable (List.mem_of_getLast? hSource)
          (by simp [ownExpressions, hSource]), hHanded⟩
  | letBind hInput hVar hLive hValue hReads _ hHanded =>
      refine ⟨_, _, _,
        step_letBind hAside.unchecked hLive hValue hVar,
        hInput, hReads,
        hRescopable (List.mem_of_getElem? hValue) ?_,
        fun name hName hNew => hHanded name hName ?_⟩
      · simp only [ownExpressions, kind_node, children_node]
        rw [hTree.shaped.getLast?_letBind, hValue]
        exact List.mem_singleton_self _
      · rintro rfl
        exact hNew (by simp [bound, kind, hVar])
  | selection hInput hPredicate hReads hHanded =>
      exact ⟨_, _, _, step_selection hPredicate, hInput,
        hReads,
        hRescopable (List.mem_of_getElem? hPredicate)
          (by simp [ownExpressions, hPredicate]),
        fun name hName _ => hHanded hName⟩
  | deadLet _ _ _ hLenient _ _ => exact hLenient.elim
  | start | orderBy | groupBy | count | join =>
      rcases hAside.admitted with hKind | hKind | hKind <;>
        cases hKind

/-
  A row of a stage, put below a row that differs from the
  context in the outer names only, differs in these only.
-/
theorem agreeOn_under
    {row env x : Env}
    (hRow : Env.AgreeOn {n | n ∉ outer} row env)
    {inputs : List Env}
    (hInputs : input.rows library env = some inputs)
    (hX : x ∈ inputs) :
    Env.AgreeOn {n | n ∉ outer}
      (row.under input.visible x) x := by
  intro name hName
  have hContext :=
    agreeOn_context library input hInputs hX name
  by_cases hMem : name ∈ input.visible
  · simp [Env.under, hMem]
  · simpa [Env.under, hMem, hContext hMem] using
      hRow name hName

/-
  The rows that a step makes of some of the rows of another
  context are some of the rows that it makes there.  The
  step chooses none of them by itself, as it does not look
  at the outer names.
-/
theorem Step.rows_filtered
    {stage : Tree → Tree}
    {grow : Env → Sequence → Option (List Env)}
    {read : Set String}
    (hStep : Step library stage new e grow)
    (hReads : ReadsFrom library False read e)
    (hE : e.Rescopable {n | n ∈ outer})
    {row env : Env}
    (hRow : Env.AgreeOn {n | n ∉ outer} row env)
    (keep : Env → Bool)
    (hKeep : ∀ a b, Env.AgreeOn {n | n ∉ new} a b →
      keep a = keep b)
    {input input' : Tree}
    (hBefore : ∀ inputs inputs',
      input.rows library row = some inputs →
        input'.rows library env = some inputs' →
          inputs = (inputs'.filter keep).map
            (row.under input'.visible))
    {after after' : List Env}
    (hAfter : (stage input).rows library row = some after)
    (hAfter' :
      (stage input').rows library env = some after') :
    after = (after'.filter keep).map
      (row.under (input'.visible ++ new)) := by
  rw [hStep.rows, Option.bind_eq_some_iff] at hAfter hAfter'
  rcases hAfter with ⟨inputs, hInputs, hAfter⟩
  rcases hAfter' with ⟨inputs', hInputs', hAfter'⟩
  rw [Option.map_eq_some_iff] at hAfter hAfter'
  rcases hAfter with ⟨rowss, hRowss, rfl⟩
  rcases hAfter' with ⟨rowss', hRowss', rfl⟩
  rw [hBefore inputs inputs' hInputs hInputs'] at hRowss
  refine flatten_filtered ?_ ?_ hRowss' hRowss
  · intro x _ ys hYs y hY
    rw [Option.bind_eq_some_iff] at hYs
    rcases hYs with ⟨s, _, hGrow⟩
    exact hKeep y x (hStep.kept hGrow y hY)
  · intro x hX ys zs hYs hZs
    have hSame : SameValue library False e
        (row.under input'.visible x) e x :=
      (hReads.without hE).sameValue
        ((agreeOn_under hRow hInputs' hX).mono
          (fun name hName => hName.2))
    rw [hSame.eq_of_strict, Option.bind_eq_some_iff] at hZs
    rw [Option.bind_eq_some_iff] at hYs
    rcases hYs with ⟨s, hS, hGrow⟩
    rcases hZs with ⟨s', hS', hGrow'⟩
    rw [hS] at hS'
    cases hS'
    rw [hStep.under hGrow row input'.visible] at hGrow'
    exact (Option.some.inj hGrow').symm

end Tree

end Flwor
