import Flwor.Proofs.Convergence.Lifting

/-
  A binding hops over a stage of its pipeline.

  Behind the stage it is evaluated on the rows that the stage
  makes, and before it on those that come in.  As neither
  reads what the other one binds, the rows are the same.  But
  a loop may make no row, and then an expression is evaluated
  that was not: the plan after may fail where the one before
  does not.

  Key definitions include:
    * `Tree.Relies`

  Key theorems include:
    * `Tree.Supplies.exists_relies`
    * `Tree.Slotted.replaces_swapped`
    * `Tree.Inserts.replaces`
-/

------------------------------------------------------------
-- Lists of Lists
------------------------------------------------------------

namespace Flwor

variable {α β γ : Type}

theorem flatten_mapM_cons
    (g : α → Option (List β))
    (x : α)
    (xs : List α) :
    ((x :: xs).mapM g).map List.flatten =
      (g x).bind (fun ys =>
        ((xs.mapM g).map List.flatten).map
          (fun zs => ys ++ zs)) := by
  rw [List.mapM_cons]
  cases g x with
  | none => rfl
  | some ys => cases xs.mapM g <;> rfl

theorem flatten_mapM_singleton
    (g : α → Option (List β))
    (x : α) :
    ([x].mapM g).map List.flatten = g x := by
  rw [flatten_mapM_cons]
  cases g x <;> simp

theorem flatten_mapM_append
    (g : α → Option (List β))
    (xs xs' : List α) :
    ((xs ++ xs').mapM g).map List.flatten =
      ((xs.mapM g).map List.flatten).bind (fun ys =>
        ((xs'.mapM g).map List.flatten).map
          (fun zs => ys ++ zs)) := by
  rw [List.mapM_append]
  cases xs.mapM g with
  | none => rfl
  | some yss => cases xs'.mapM g <;> simp

/- What is made of what was made of the elements of a list. -/
theorem bind_flatten_mapM
    (f : α → Option (List β))
    (g : β → Option (List γ))
    (xs : List α) :
    ((xs.mapM f).map List.flatten).bind (fun ys =>
        (ys.mapM g).map List.flatten) =
      (xs.mapM (fun x => (f x).bind (fun ys =>
        (ys.mapM g).map List.flatten))).map
          List.flatten := by
  induction xs with
  | nil => rfl
  | cons x rest ih =>
      rw [flatten_mapM_cons, flatten_mapM_cons, ← ih]
      cases f x with
      | none => rfl
      | some ys =>
          rw [Option.bind_some, Option.bind_some]
          cases (rest.mapM f).map List.flatten with
          | none =>
              cases (ys.mapM g).map List.flatten <;> rfl
          | some zs => exact flatten_mapM_append g ys zs

end Flwor

------------------------------------------------------------
-- Stages and Their Inputs
------------------------------------------------------------

namespace Flwor

namespace Tree

variable (library : Library)

/-
  A stage that relies on certain names of its input, however
  the input gets hold of them.
-/
structure Relies
    (context handed read : Set String)
    (stage : Tree → Tree) : Prop where
  supplies : ∀ {context' handed' read' input'},
    context ⊆ context' → read ⊆ read' →
      input'.properties.get? Properties.project = none →
        Supplies library False context' read' input' →
          (∀ name ∈ handed', name ∈ handed ∨
            name ∈ context' ∧ name ∈ read') →
            Supplies library False context' handed'
              (stage input')
  same : ∀ {lax input input' env env'},
    Env.AgreeOn context env' env →
      SameRows library lax (Env.AgreeOn read) input' env'
        input env →
        SameRows library lax (Env.AgreeOn handed)
          (stage input') env' (stage input) env

variable {library : Library}
variable {i : NodeId}
variable {k : Kind}
variable {p : Payload}
variable {ps : Properties}
variable {input : Tree}
variable {rest : List Tree}
variable {context handed : Set String}

theorem keeps_of_get?
    (hNone : ps.get? Properties.project = none)
    (wanted : Set String)
    (bindings : List String) :
    ps.Keeps wanted bindings := by
  intro names hNames
  rw [Properties.vars?, hNone] at hNames
  cases hNames

theorem ne_of_not_mem_bound
    {t : Tree}
    {var name : String}
    (hBound : t.bound = t.binding?.toList)
    (hVar : t.binding? = some var)
    (hNew : name ∉ t.bound) :
    name ≠ var := by
  rintro rfl
  exact hNew (by simp [hBound, hVar])

/- A stage in scope relies on what is read of its input. -/
theorem Supplies.exists_relies
    (hKind : k.hasInput)
    (hRest : ∀ c ∈ rest, c.Rescopable ∅)
    (hSupplies : Supplies library False context handed
      (.node i k p ps (input :: rest))) :
    ∃ read, Supplies library False context read input ∧
      Relies library context handed read
        (fun t => .node i k p ps (t :: rest)) := by
  -- What is handed on then is still read, or comes along.
  have hKept {context' handed' read read' : Set String}
      (hRead : read ⊆ read')
      {IsOld : String → Prop}
      (hHanded : ∀ name ∈ handed, IsOld name → name ∈ read)
      (hHanded' : ∀ name ∈ handed', name ∈ handed ∨
        name ∈ context' ∧ name ∈ read')
      (name : String)
      (hName : name ∈ handed')
      (hNew : IsOld name) :
      name ∈ read' :=
    (hHanded' name hName).elim
      (fun h => hRead (hHanded name h hNew)) And.right
  cases hSupplies with
  | forBind hInput hSource hReads hCheck hVar hHanded =>
      obtain ⟨first, more, rfl⟩ : ∃ c cs, rest = c :: cs := by
        rcases rest with _ | ⟨c, cs⟩
        · cases hVar
        · exact ⟨c, cs, rfl⟩
      have hLast (t : Tree) :
          (t :: first :: more).getLast? =
            (first :: more).getLast? :=
        List.getLast?_cons_cons
      rw [hLast] at hSource
      have hPart := hRest _ (List.mem_of_getLast? hSource)
      refine ⟨_, hInput, fun hContext hRead _ hInput' hAll =>
        .forBind hInput' ((hLast _).trans hSource)
          (hReads.wider hPart hRead)
          (fun name hName => hRead (hCheck name hName)) hVar
          (hKept hRead hHanded hAll),
        fun hAgree hSame => sameRows_forBind hSame rfl rfl
          (fun _ _ => disabled?_eq hCheck) ?_
          (fun _ _ => agreeOn_kept hHanded)⟩
      intro row row' hRow
      rw [lastValue_eq, lastValue_eq, hLast, hLast, hSource]
      exact hReads.sameValue hRow
  | letBind hInput hVar hLive hValue hReads hCheck hHanded =>
      have hPart := hRest _
        (List.mem_of_getElem? (i := 1) hValue)
      refine ⟨_, hInput, fun hContext hRead _ hInput' hAll =>
        .letBind hInput' hVar hLive hValue
          (hReads.wider hPart hRead)
          (fun name hName => hRead (hCheck name hName))
          (hKept hRead hHanded hAll),
        fun hAgree hSame => sameRows_letBind hSame rfl
          (fun _ _ => disabled?_eq hCheck)
          (fun row row' hRow => sameValue_at 2 hValue hValue
            (hReads.sameValue hRow))
          (fun _ _ => agreeOn_kept (fun name hName hNew =>
            hHanded name hName
              (ne_of_not_mem_bound rfl hVar hNew)))⟩
  | deadLet _ _ _ hLenient _ _ => exact hLenient.elim
  | selection hInput hPredicate hReads hHanded =>
      have hPart := hRest _
        (List.mem_of_getElem? (i := 0) hPredicate)
      exact ⟨_, hInput, fun hContext hRead _ hInput' hAll =>
        .selection hInput' hPredicate
          (hReads.wider hPart hRead)
          (fun name hName => (hAll name hName).elim
            (fun h => hRead (hHanded h)) And.right),
        fun hAgree hSame => sameRows_selection hSame
          (fun row row' hRow => sameValue_at 1 hPredicate
            hPredicate (hReads.sameValue hRow))
          (fun _ _ hRow => hRow.mono hHanded)⟩
  | orderBy hInput hKeeps hOrders hKeys hPresent hHanded =>
      refine ⟨_, hInput,
        fun hContext hRead hBare hInput' hAll =>
        .orderBy hInput' (keeps_of_get? hBare _ _) hOrders
          (fun spec hSpec key hKey =>
            (hKeys spec hSpec key hKey).wider
              ((hRest spec hSpec).childAt hKey) hRead)
          hPresent
          (fun name hName => (hAll name hName).elim
            (fun h => hRead (hHanded h)) And.right),
        fun hAgree hSame => sameRows_orderBy hSame rfl ?_
          (fun _ _ hRow => hRow.mono hHanded)⟩
      intro row row' hRow
      refine meets_sortValues (List.forall₂_same.mpr ?_)
      intro spec hSpec
      refine meets_sortValue ?_
      cases hKey : spec.children[0]? with
      | none => exact .failure
      | some key =>
          exact (hKeys spec hSpec key hKey).sameValue hRow
  | groupBy hInput hKeys hSources hHanded =>
      exact ⟨_, hInput, fun hContext hRead _ hInput' hAll =>
        .groupBy hInput'
          (fun name hName => hRead (hKeys name hName))
          (fun aggregate hMem =>
            hRead (hSources aggregate hMem))
          (fun name hName hNot => (hAll name hName).elim
            (fun h => hContext (hHanded name h hNot))
            And.left),
        fun hAgree hSame => sameRows_groupBy hSame rfl rfl
          (fun _ _ hRow name hName =>
            hRow name (hKeys name hName))
          (fun _ _ hRow aggregate hMem =>
            hRow _ (hSources aggregate hMem))
          (agreeOn_kept hHanded hAgree)⟩
  | count hInput hVar hHanded =>
      refine ⟨_, hInput, fun hContext hRead _ hInput' hAll =>
        .count hInput' hVar
          (hKept hRead hHanded hAll),
        fun hAgree hSame => sameRows_count hSame rfl
          (fun _ _ => agreeOn_kept (fun name hName hNew =>
            hHanded name hName
              (ne_of_not_mem_bound rfl hVar hNew)))⟩
  | start | join => cases hKind

end Tree

end Flwor

------------------------------------------------------------
-- Two Stages
------------------------------------------------------------

namespace Flwor

namespace Tree

variable {library : Library}
variable {stage bind : Tree → Tree}
variable {new : List String}
variable {e value feeder : Tree}
variable {grow : Env → Sequence → Option (List Env)}
variable {name : String}
variable {context handed : Set String}

/- One value is bound in each of the rows of a stage. -/
theorem Step.grow_bind
    (hStep : Step library stage new e grow)
    (hName : name ∉ new)
    {row : Env}
    {t : Sequence}
    {more : List Env}
    (hGrow : grow row t = some more)
    (s : Sequence) :
    grow (row.bind name s) t =
      some (more.map (fun other => other.bind name s)) := by
  have hUnder := hStep.under hGrow (row.bind name s) []
  rw [Env.under_nil] at hUnder
  rw [hUnder, List.nil_append]
  refine congrArg some (List.map_congr_left ?_)
  intro other hOther
  funext n
  rw [Env.under, Env.bind_apply, Env.bind_apply]
  by_cases hN : n = name
  · rw [if_pos hN, if_pos hN, if_neg (hN ▸ hName)]
  · rw [if_neg hN, if_neg hN]
    split
    next => rfl
    next hNew => exact (hStep.kept hGrow other hOther n hNew).symm

/-
  What a stage makes of a row to which a value is bound, and
  that value bound to what it makes of the row.
-/
theorem Step.meets_swapped
    (hStep : Step library stage new e grow)
    (hName : name ∉ new)
    {row : Env}
    (hE : ∀ s, e.value library (row.bind name s) =
      e.value library row)
    (hValue : ∀ other : Env,
      Env.AgreeOn {n | n ∉ new} other row →
        value.value library other = value.value library row) :
    Meets .onlyRight Eq
      ((value.value library row).bind (fun s =>
        (e.value library (row.bind name s)).bind
          (grow (row.bind name s))))
      (((e.value library row).bind (grow row)).bind
        (fun more => more.mapM (fun other =>
          (value.value library other).bind (fun s =>
            some (other.bind name s))))) := by
  simp only [hE]
  cases hT : e.value library row with
  | none => cases value.value library row <;> exact .failure
  | some t =>
      simp only [Option.bind_some]
      cases hGrow : grow row t with
      | none =>
          have hNone (s : Sequence) :
              grow (row.bind name s) t = none := by
            cases hBound : grow (row.bind name s) t with
            | none => rfl
            | some more =>
                have hUnder := hStep.under hBound row []
                rw [Env.under_nil, hGrow] at hUnder
                cases hUnder
          cases value.value library row with
          | none => exact .failure
          | some s =>
              rw [Option.bind_some, hNone s]
              exact .failure
      | some more =>
          have hMore (other : Env) (hOther : other ∈ more) :
              value.value library other =
                value.value library row :=
            hValue other (hStep.kept hGrow other hOther)
          cases hS : value.value library row with
          | none => exact Meets.none_left trivial _
          | some s =>
              rw [Option.bind_some, Option.bind_some,
                hStep.grow_bind hName hGrow]
              have hAll : more.mapM (fun other =>
                  (value.value library other).bind (fun s =>
                    some (other.bind name s))) =
                  some (more.map (fun other =>
                    other.bind name s)) := by
                refine (mapM_congr_left (fun other hOther => ?_)
                  ).trans List.mapM_pure
                rw [hMore other hOther, hS]
                rfl
              exact hAll ▸ .refl _

/- The rows of both stages, one before and after the other. -/
theorem Slotted.meets_hop
    (hStage : Slotted library stage new e grow)
    (hBind : Slotted library bind [name] value
      (fun row s => some [row.bind name s]))
    (hName : name ∉ new)
    (hE : ∀ (row : Env) (s : Sequence),
      e.value library (row.bind name s) =
        e.value library row)
    (hValue : ∀ row other : Env,
      Env.AgreeOn {n | n ∉ new} other row →
        value.value library other = value.value library row)
    (env : Env) :
    Meets .onlyRight Eq
      ((stage (bind feeder)).rows library env)
      ((bind (stage feeder)).rows library env) := by
  rw [hStage.rows, hBind.rows, hBind.rows, hStage.rows,
    Option.bind_assoc, Option.bind_assoc]
  refine (Meets.refl _).bind ?_
  rintro rows _ rfl
  rw [bind_flatten_mapM, bind_flatten_mapM]
  refine Meets.map (R := List.Forall₂ Eq)
    (Meets.mapM (R := Eq)
      (List.forall₂_same.mpr (fun _ _ => rfl)) ?_)
    (fun _ _ hRows =>
      congrArg List.flatten (List.forall₂_eq_eq_eq ▸ hRows))
  rintro row _ rfl
  have hBoth := hStage.meets_swapped hName (hE row)
    (hValue row)
  rw [Option.bind_assoc]
  simp only [Option.bind_some, flatten_mapM_singleton,
    ← mapM_singletons]
  exact hBoth

/- A value that does not depend on certain names. -/
theorem ReadsFrom.value_eq
    {names lost : Set String}
    (hReads : ReadsFrom library False names e)
    (hTree : e.Rescopable lost)
    {env env' : Env}
    (hAgree : ∀ n, n ∉ lost → env n = env' n) :
    e.value library env = e.value library env' := by
  have hSame : SameValue library False e env e env' :=
    (hReads.without hTree).sameValue
      (fun n hN => hAgree n hN.2)
  exact hSame.eq_of_strict

/- A binding and a stage that do not see each other. -/
theorem Slotted.replaces_swapped
    (hStage : Slotted library stage new e grow)
    (hBind : Slotted library bind [name] value
      (fun row s => some [row.bind name s]))
    (hName : name ∉ new)
    (hE : e.Rescopable {n | n = name})
    (hValue : value.Rescopable {n | n ∈ new})
    (hIsStage : (bind (stage feeder)).kind.isStage) :
    Replaces library .onlyRight ∅ (bind (stage feeder))
      (stage (bind feeder)) := by
  refine .of_stage hIsStage
    (fun context handed _ _ hSupplies => ?_)
  rcases hBind.reads hSupplies with
    ⟨read, hBelow, hReadsValue, hHanded⟩
  rcases hStage.reads hBelow with
    ⟨read', hFeeder, hReadsE, hRead⟩
  have hBare {t : Tree} {lost : Set String}
      (hT : t.Rescopable lost) : t.Rescopable ∅ :=
    .of_shaped hT.shaped hT.lacks
  have hBound := hBind.supplies_bound hFeeder
    ((hReadsValue.without hValue).wider (hBare hValue)
      (fun n hN => hRead n hN.1 hN.2))
  refine .of_meets (hStage.supplies hBound
    (hReadsE.wider (hBare hE) Set.subset_union_left)
    (fun n hN hNew => ?_)) (fun n _ => ?_) (fun env => ?_)
  · by_cases hEq : n = name
    · exact .inr hEq
    · exact .inl (hRead n
        (hHanded n hN (by simpa using hEq)) hNew)
  · rw [hStage.visible, hBind.visible, hBind.visible,
      hStage.visible]
    simp only [List.mem_append]
    tauto
  · refine (hStage.meets_hop hBind hName (fun row s => ?_)
      (fun row other hAgree => ?_) env).mono ?_
    · exact hReadsE.value_eq hE (fun n hN => if_neg hN)
    · exact hReadsValue.value_eq hValue
        (fun n hN => hAgree n hN)
    · rintro rows _ rfl
      exact List.forall₂_same.mpr (fun row _ => .refl _ row)

end Tree

end Flwor

------------------------------------------------------------
-- Several Stages
------------------------------------------------------------

namespace Flwor

namespace Tree

variable {library : Library}
variable {lax : Leeway}
variable {t u w : Tree}

/- Two replacements, one after the other. -/
theorem Replaces.trans
    (hStrict : ¬ lax.left)
    (hFirst : Replaces library lax ∅ t u)
    (hSecond : Replaces library lax ∅ u w) :
    Replaces library lax ∅ t w := by
  have hEmpty (names : Set String) : Disjoint names ∅ :=
    Set.disjoint_empty names
  refine ⟨fun names _ hReads => ?_,
    fun context handed _ _ hSupplies => ?_⟩
  · have hU := hFirst.expr names (hEmpty _) hReads
    have hW := hSecond.expr names (hEmpty _) hU.reads
    refine ⟨hW.reads, fun env env' hAgree => ?_⟩
    exact (hW.same env' env' (.refl _ _)).trans hStrict
      (hU.same env env' hAgree) (fun _ _ _ => Eq.trans)
  · have hU := hFirst.stage context handed (hEmpty _)
      (hEmpty _) hSupplies
    have hW := hSecond.stage context handed (hEmpty _)
      (hEmpty _) hU.supplies
    refine ⟨hW.supplies, fun n hN =>
      (hW.visible n hN).trans (hU.visible n hN),
      fun env env' hAgree => ?_⟩
    refine (hW.same env' env' (.refl _ _)).trans hStrict
      (hU.same env env' hAgree) ?_
    intro rows rows' rows'' hRows hRows'
    refine forall₂_trans hRows hRows' ?_
    exact fun _ _ _ hRow hRow' n hN =>
      (hRow n hN).trans (hRow' n hN)

/- What feeds a stage is replaced. -/
theorem Replaces.input
    {i : NodeId}
    {k : Kind}
    {p : Payload}
    {ps : Properties}
    {rest : List Tree}
    (hReplaces : Replaces library lax ∅ t u)
    (hKind : k.hasInput)
    (hRest : ∀ c ∈ rest, c.Rescopable ∅)
    (hBare : u.properties.get? Properties.project = none) :
    Replaces library lax ∅ (.node i k p ps (t :: rest))
      (.node i k p ps (u :: rest)) := by
  have hStage : k.isStage := by
    cases k <;> first | rfl | cases hKind
  refine .of_stage hStage
    (fun context handed _ _ hSupplies => ?_)
  rcases hSupplies.exists_relies hKind hRest with
    ⟨read, hInput, hRelies⟩
  have hFeeds := hReplaces.stage context read
    (Set.disjoint_empty _) (Set.disjoint_empty _) hInput
  refine ⟨hRelies.supplies subset_rfl subset_rfl hBare
      hFeeds.supplies (fun _ hName => .inl hName),
    fun name hName => ?_, fun env env' hAgree =>
      hRelies.same hAgree (hFeeds.same env env' hAgree)⟩
  by_cases hGroup : k = .groupBy
  · subst hGroup
    rw [visible_groupBy, visible_groupBy]
    rfl
  · rw [visible_input hKind hGroup, visible_input hKind hGroup,
      List.mem_append, List.mem_append,
      hFeeds.visible name hName]
    cases k <;> rfl

variable {i b : NodeId}
variable {k : Kind}
variable {p q : Payload}
variable {ps qs : Properties}
variable {input feeder value : Tree}
variable {cs rest : List Tree}
variable {name : String}
variable {reads : List String}

/- A stage that lets bindings pass evaluates its last child. -/
theorem exists_slotted_of_passes
    (library : Library)
    (hTree : (Tree.node i k p ps (input :: rest)).Rescopable ∅)
    (hPasses : (Tree.node i k p ps
      (input :: rest)).letsPass name reads) :
    ∃ e grow, Slotted library
        (fun t => .node i k p ps (t :: rest))
        (bound (.node i k p ps (input :: rest))) e grow ∧
      e ∈ rest ∧
      e ∈ ownExpressions (.node i k p ps (input :: rest)) := by
  have hPassable : Passable k ps := passable_of_letsPass hPasses
  rcases hPassable with ⟨hKind, hOpen⟩
  have hShaped := hTree.shaped
  rcases hShaped.exists_binding hKind.symm with ⟨var, hVar⟩
  rcases hShaped.input (by rcases hKind with rfl | rfl <;> rfl)
    with ⟨_, first, more, hChildren, _⟩
  cases hChildren
  obtain ⟨e, hLast⟩ : ∃ e,
      (first :: more).getLast? = some e :=
    ⟨_, List.getLast?_eq_some_getLast (by simp)⟩
  have hOwn : e ∈ (Tree.node i k p ps
      (input :: first :: more)).children.getLast?.toList := by
    rw [children_node, List.getLast?_cons_cons, hLast]
    exact List.mem_singleton_self e
  refine ⟨e, ?_⟩
  rcases hKind with rfl | rfl
  · exact ⟨_, slotted_forBind hOpen hLast hVar,
      List.mem_of_getLast? hLast, hOwn⟩
  · refine ⟨_, slotted_letBind (hTree.lacks.isLive var) hOpen
      ?_ hVar, List.mem_of_getLast? hLast, hOwn⟩
    have hSame := hShaped.getLast?_letBind
    rw [List.getLast?_cons_cons, hLast] at hSame
    exact hSame.symm

/- A binding without a check is a stage with a slot. -/
theorem slotted_binding
    (hLive : Compile.isLive ps name)
    (hOpen : ps.get? Properties.check = none)
    (hName : binding?
      (.node b .letBind q ps (input :: rest)) = some name)
    (hValue : rest[1]? = some value) :
    Slotted library (fun t => .node b .letBind q ps (t :: rest))
      [name] value (fun row s => some [row.bind name s]) := by
  have hBound :
      bound (.node b .letBind q ps (input :: rest)) =
        [name] := by
    simp [bound, hName]
  exact hBound ▸ slotted_letBind hLive hOpen hValue hName

/- What does not refer to some names keeps without them. -/
theorem Rescopable.of_unread
    {lost : Set String}
    (hTree : t.Rescopable ∅)
    (hUnread : ∀ n ∈ t.references, n ∉ lost) :
    t.Rescopable lost :=
  ⟨hTree.shaped, hTree.lacks, hUnread⟩

/- A binding hops a stage that lets it pass. -/
theorem replaces_hopped
    (library : Library)
    (hTree : (Tree.node i k p qs (feeder :: cs)).Rescopable ∅)
    (hValue : value.Rescopable ∅)
    (hBind : Slotted library
      (fun t => .node b .letBind q ps (t :: rest)) [name]
      value (fun row s => some [row.bind name s]))
    (hPasses : (Tree.node i k p qs
      (feeder :: cs)).letsPass name value.references) :
    Replaces library .onlyRight ∅
      (.node b .letBind q ps
        (.node i k p qs (feeder :: cs) :: rest))
      (.node i k p qs
        (.node b .letBind q ps (feeder :: rest) :: cs)) := by
  rcases exists_slotted_of_passes library hTree hPasses with
    ⟨e, grow, hStage, hE, hOwn⟩
  have hPart := hTree.child (List.mem_cons_of_mem _ hE)
  simp only [letsPass, Bool.and_eq_true, List.all_eq_true,
    bne_iff_ne, Bool.not_eq_true', List.contains_eq_mem,
    decide_eq_false_iff_not] at hPasses
  refine hStage.replaces_swapped hBind
    (fun hNew => (hPasses.1.2 name hNew).1 rfl)
    (hPart.of_unread ?_) (hValue.of_unread ?_) rfl
  · rintro n hN rfl
    exact hPasses.2 (mem_stageReads hOwn hN)
  · exact fun n hN hNew => (hPasses.1.2 n hNew).2 hN

/- A binding hops as far as the stages let it pass. -/
theorem Inserts.replaces
    (hInserts : Inserts name value.references b q ps feeder
      rest t u)
    (library : Library)
    (hTree : t.Rescopable ∅)
    (hValue : value.Rescopable ∅)
    (hBind : Slotted library
      (fun t => .node b .letBind q ps (t :: rest)) [name]
      value (fun row s => some [row.bind name s])) :
    Replaces library .onlyRight ∅
        (.node b .letBind q ps (t :: rest)) u := by
  induction hInserts with
  | here hPasses =>
      exact replaces_hopped library hTree hValue hBind hPasses
  | hop hPasses hInserts ih =>
      refine (replaces_hopped library hTree hValue hBind
        hPasses).trans (fun hLeft => hLeft) ((ih (hTree.child
          List.mem_cons_self)).input ?_ ?_ ?_)
      · rcases (passable_of_letsPass hPasses).1 with hKind | hKind
        all_goals
          rw [kind_node] at hKind
          rw [hKind]
          rfl
      · exact fun c hC =>
          hTree.child (List.mem_cons_of_mem _ hC)
      · have hBelow := hTree.lacks _ (mem_subtrees_of_child
          List.mem_cons_self (mem_subtrees_self _))
        cases hInserts <;> exact hBelow

end Tree

end Flwor
