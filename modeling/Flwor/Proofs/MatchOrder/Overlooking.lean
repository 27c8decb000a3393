import Flwor.Pass.MatchOrder
import Flwor.Proofs.Rescoping

/-
  Trees that cannot tell similar values of some names apart.

  Such a tree reads these names only as the argument of
  functions that treat similar values alike, and in checks
  that do so.  Then its value is the same in environments
  that hold similar values under the names, and so are its
  rows, but for the names themselves.

  Which values are similar is left open.  If all are, the
  tree must not refer to the names at all.

  Key definitions include:
    * `Env.Varies`
    * `Tree.Overlooks`
    * `Tree.Steady`

  Key theorems include:
    * `Tree.Overlooks.steady`
    * `Tree.sameRows_input`, `Tree.sameRows_joined`
-/

------------------------------------------------------------
-- Environments That Vary
------------------------------------------------------------

namespace Flwor

/- A relation between what a name may hold. -/
abbrev Likeness :=
  Option Sequence → Option Sequence → Prop

namespace Env

/-
  Environments that hold the same, but for some names, under
  which they hold similar values.
-/
def Varies
    (similar : Likeness)
    (names : List String)
    (env env' : Env) : Prop :=
  ∀ name, env name = env' name ∨
    name ∈ names ∧ similar (env name) (env' name)

namespace Varies

variable {similar : Likeness}
variable {names wider : List String}
variable {env env' other other' : Env}

theorem refl
    (env : Env) :
    Varies similar names env env :=
  fun _ => .inl rfl

theorem mono
    (hVaries : Varies similar names env env')
    (hSubset : names ⊆ wider) :
    Varies similar wider env env' :=
  fun name => (hVaries name).imp_right
    (fun h => ⟨hSubset h.1, h.2⟩)

theorem eq_of_not_mem
    (hVaries : Varies similar names env env')
    {name : String}
    (hName : name ∉ names) :
    env name = env' name :=
  (hVaries name).resolve_right (fun h => hName h.1)

/- A name is bound to values that may be similar. -/
theorem bindTo
    (hVaries : Varies similar names env env')
    {var : String}
    {value value' : Sequence}
    (hValues : value = value' ∨
      var ∈ names ∧ similar (some value) (some value')) :
    Varies similar names (env.bind var value)
      (env'.bind var value') := by
  intro name
  rw [bind_apply, bind_apply]
  by_cases hVar : name = var
  · rw [if_pos hVar, if_pos hVar, hVar]
    exact hValues.imp_left (congrArg some)
  · rw [if_neg hVar, if_neg hVar]
    exact hVaries name

theorem bind
    (hVaries : Varies similar names env env')
    (var : String)
    (value : Sequence) :
    Varies similar names (env.bind var value)
      (env'.bind var value) :=
  hVaries.bindTo (.inl rfl)

theorem bindOption
    (hVaries : Varies similar names env env')
    (var : Option String)
    (value : Sequence) :
    Varies similar names (env.bindOption var value)
      (env'.bindOption var value) := by
  cases var with
  | none => exact hVaries
  | some var => exact hVaries.bind var value

/- Names are bound one by one to values that may be similar. -/
theorem bindAllTo
    (hVaries : Varies similar names env env')
    {bindings bindings' : List (String × Sequence)}
    (hBindings : List.Forall₂ (fun b b' =>
      b.1 = b'.1 ∧ (b.2 = b'.2 ∨
        b.1 ∈ names ∧ similar (some b.2) (some b'.2)))
      bindings bindings') :
    Varies similar names (env.bindAll bindings)
      (env'.bindAll bindings') := by
  induction hBindings generalizing env env' with
  | nil => exact hVaries
  | @cons b b' _ _ hHead _ ih =>
      rcases b with ⟨name, value⟩
      rcases b' with ⟨name', value'⟩
      rcases hHead with ⟨rfl, hValues⟩
      rw [bindAll_cons, bindAll_cons]
      exact ih (hVaries.bindTo hValues)

theorem bindAll
    (hVaries : Varies similar names env env')
    (bindings : List (String × Sequence)) :
    Varies similar names (env.bindAll bindings)
      (env'.bindAll bindings) :=
  hVaries.bindAllTo (List.forall₂_same.mpr
    (fun _ _ => ⟨rfl, .inl rfl⟩))

theorem under
    (hVaries : Varies similar names env env')
    (hOther : Varies similar names other other')
    (inner : List String) :
    Varies similar names (env.under inner other)
      (env'.under inner other') := by
  intro name
  unfold Env.under
  split
  · exact hOther name
  · exact hVaries name

theorem padded
    (hVaries : Varies similar names env env')
    (inner : List String) :
    Varies similar names (env.padded inner)
      (env'.padded inner) := by
  intro name
  unfold Env.padded
  split
  · exact .inl rfl
  · exact hVaries name

end Varies

end Env

end Flwor

------------------------------------------------------------
-- Reading in Order
------------------------------------------------------------

namespace Flwor

namespace Tree

variable {blind : OrderBlind}
variable {names : List String}

theorem readsOrderAny_eq_false_iff
    {shielded : Bool}
    {ts : List Tree} :
    readsOrderAny blind names shielded ts = false ↔
      ∀ t ∈ ts, t.readsOrder blind names shielded = false := by
  induction ts with
  | nil => simp [readsOrderAny]
  | cons t rest ih => simp [readsOrderAny, ih]

/-
  Whether a node shields its argument: it calls a function
  that ignores the order of its only argument.
-/
def shields
    (blind : OrderBlind)
    (t : Tree) : Bool :=
  t.kind = .functionCall && t.children.length = 1
    && (t.payload.label?.map blind.holds).getD false

/- Whether a node is a reference to one of some names. -/
def readsOneOf
    (names : List String)
    (t : Tree) : Bool :=
  t.kind = .variableRef
    && (t.payload.var?.map names.contains).getD false

theorem readsOneOf_node
    (i : NodeId)
    (k : Kind)
    (p : Payload)
    (ps : Properties)
    (cs : List Tree) :
    readsOneOf names (.node i k p ps cs) =
      (k = .variableRef
        && (p.var?.map names.contains).getD false) :=
  rfl

theorem readsOrder_eq_false_iff
    {shielded : Bool}
    {t : Tree} :
    t.readsOrder blind names shielded = false ↔
      (t.readsOneOf names → shielded) ∧
        ∀ c ∈ t.children,
          c.readsOrder blind names (t.shields blind) =
            false := by
  rcases t with ⟨i, k, p, ps, cs⟩
  rw [readsOrder, Bool.or_eq_false_iff,
    readsOrderAny_eq_false_iff]
  refine and_congr ?_ Iff.rfl
  rw [readsOneOf_node]
  cases shielded <;> simp

/- Who reads nothing in the shade reads nothing in the light. -/
theorem readsOrder_of_shielded
    {t : Tree}
    (hReads : t.readsOrder blind names true = false)
    (hNot : t.readsOneOf names = false) :
    t.readsOrder blind names false = false := by
  rw [readsOrder_eq_false_iff] at hReads ⊢
  exact ⟨by simp [hNot], hReads.2⟩

/- The spec of a grouping reads its key or its source. -/
theorem readsOrder_of_childVar
    {shielded : Bool}
    {spec : Tree}
    {index : Nat}
    {name : String}
    (hKind : spec.kind ≠ .functionCall)
    (hChild : ∃ c, spec.children[index]? = some c ∧
      c.kind = .variableRef)
    (hVar : spec.childVar? index = some name)
    (hName : name ∈ names) :
    spec.readsOrder blind names shielded ≠ false := by
  rcases hChild with ⟨c, hC, hRef⟩
  rw [childVar?, hC, Option.bind_some] at hVar
  rw [Ne, readsOrder_eq_false_iff, not_and]
  intro _ hAll
  have hShade := readsOrder_eq_false_iff.mp
    (hAll c (List.mem_of_getElem? hC))
  have hHere : c.readsOneOf names := by
    change c.payload.var? = some name at hVar
    simp [readsOneOf, hRef, hVar, hName]
  have hShields : spec.shields blind = false := by
    simp [shields, hKind]
  rw [hShields] at hShade
  exact Bool.false_ne_true (hShade.1 hHere)

section Grouping

variable {t : Tree}
variable (hShaped : t.Shaped)
variable (hSpecs : ∀ spec ∈ t.children.drop 1,
  spec.readsOrder blind names false = false)

include hShaped hSpecs

/- Where the specs read none of the names, no key is one. -/
theorem not_mem_of_groupKey
    {name : String}
    (hKey : name ∈ t.groupKeys) :
    name ∉ names := by
  intro hName
  rw [groupKeys, List.mem_filterMap] at hKey
  rcases hKey with ⟨spec, hSpec, hVar⟩
  rw [List.mem_filter, decide_eq_true_eq] at hSpec
  have hChild := List.mem_of_mem_drop hSpec.1
  refine readsOrder_of_childVar ?_
    ((hShaped.child hChild).groupSpec hSpec.2) hVar hName
    (hSpecs spec hSpec.1)
  rw [hSpec.2]
  simp

/- The same is true of the sources of aggregates. -/
theorem not_mem_of_aggregate
    {aggregate : String × String}
    (hAggregate : aggregate ∈ t.groupAggregates) :
    aggregate.2 ∉ names := by
  intro hName
  rw [groupAggregates, List.mem_filterMap] at hAggregate
  rcases hAggregate with ⟨spec, hSpec, hVars⟩
  rw [List.mem_filter, decide_eq_true_eq] at hSpec
  have hChild := List.mem_of_mem_drop hSpec.1
  have hSource :
      spec.childVar? 1 = some aggregate.2 := by
    cases hFirst : spec.childVar? 0 with
    | none => simp [hFirst] at hVars
    | some target =>
        cases hSecond : spec.childVar? 1 with
        | none => simp [hFirst, hSecond] at hVars
        | some source =>
            simp only [hFirst, hSecond,
              Option.some.injEq] at hVars
            rw [← hVars]
  refine readsOrder_of_childVar ?_
    ((hShaped.child hChild).aggregateSpec hSpec.2).2 hSource
    hName (hSpecs spec hSpec.1)
  rw [hSpec.2]
  simp

end Grouping

end Tree

end Flwor

------------------------------------------------------------
-- Trees That Overlook Differences
------------------------------------------------------------

namespace Flwor

/- Similar values are empty at the same time. -/
def Likeness.KeepsEmptiness
    (similar : Likeness) : Prop :=
  ∀ x y, similar x y →
    x.map List.isEmpty = y.map List.isEmpty

/- A function has the same outcome on similar arguments. -/
def QueryFunction.TreatsAlike
    (similar : Likeness)
    (f : QueryFunction) : Prop :=
  ∀ x y, similar x y →
    x.bind (fun s => (f.apply [s]).toOption) =
      y.bind (fun s => (f.apply [s]).toOption)

namespace Tree

variable (library : Library)
variable (blind : OrderBlind)
variable (similar : Likeness)
variable (names : List String)

/-
  The calls in a tree that shield their argument have the
  same outcome on similar arguments.
-/
def CallsAlike
    (t : Tree) : Prop :=
  ∀ s ∈ t.subtrees, s.shields blind →
    ∀ label f, s.payload.label? = some label →
      library.resolve label 1 = .ok f →
        f.TreatsAlike similar

/-
  A tree that cannot tell similar values of some names
  apart.
-/
structure Overlooks
    (t : Tree) : Prop where
  shaped : t.Shaped
  unread : t.readsOrder blind names false = false
  checks : ∀ s ∈ t.subtrees, ∀ name ∈ names,
    s.properties.var? Properties.check = some name →
      similar.KeepsEmptiness
  calls : t.CallsAlike library blind similar

/-
  A tree whose value does not depend on which of the similar
  values some names hold, and whose rows hold others under
  these names only.
-/
structure Steady
    (t : Tree) : Prop where
  value : ∀ env env', Env.Varies similar names env env' →
    t.value library env = t.value library env'
  rows : ∀ context context',
    Env.Varies similar names context context' →
      SameRows library False (Env.Varies similar names)
        t context t context'

variable {library : Library}
variable {blind : OrderBlind}
variable {similar : Likeness}
variable {names : List String}
variable {i : NodeId}
variable {k : Kind}
variable {p : Payload}
variable {ps : Properties}
variable {cs : List Tree}

/- A tree that does not refer to the names overlooks them. -/
theorem overlooks_of_unread
    {t : Tree}
    (hShaped : t.Shaped)
    (hUnread : ∀ name ∈ t.references, name ∉ names) :
    t.Overlooks library [] similar names := by
  have hSubtree (s : Tree) (hS : s ∈ t.subtrees)
      {name : String} (hName : name ∈ s.references) :
      name ∉ names := by
    refine hUnread name ?_
    induction t using Tree.induction with
    | node i k p ps cs ih =>
        rw [subtrees, List.mem_cons, mem_subtreesAll_iff]
          at hS
        rcases hS with rfl | ⟨c, hC, hS⟩
        · exact hName
        · exact mem_references_of_child hC
            (ih c hC (hShaped.child hC) (fun n hN =>
              hUnread n (mem_references_of_child hC hN)) hS)
  refine ⟨hShaped, ?_, fun s hS name hName hCheck => ?_,
    fun s _ hShields => ?_⟩
  · clear hSubtree
    induction t using Tree.induction with
    | node i k p ps cs ih =>
        rw [readsOrder_eq_false_iff]
        refine ⟨fun hReads => ?_, fun c hC => ?_⟩
        · rw [readsOneOf_node, Bool.and_eq_true,
            decide_eq_true_eq] at hReads
          rcases hReads with ⟨rfl, hReads⟩
          cases hVar : p.var? with
          | none => simp [hVar] at hReads
          | some name =>
              refine (hUnread name
                (mem_references_of_variableRef rfl hVar)
                ?_).elim
              simpa [hVar] using hReads
        · have hShields :
              (Tree.node i k p ps cs).shields [] = false := by
            cases hLabel : p.label? <;>
              simp [shields, OrderBlind.holds, payload, hLabel]
          rw [hShields]
          exact ih c hC (hShaped.child hC) (fun n hN =>
            hUnread n (mem_references_of_child hC hN))
  · exact (hSubtree s hS (mem_references_of_check hCheck)
      hName).elim
  · cases hLabel : s.payload.label? <;>
      simp [shields, OrderBlind.holds, hLabel] at hShields

namespace Overlooks

theorem child
    {c : Tree}
    (hOverlooks : Overlooks library blind similar names
      (.node i k p ps cs))
    (hShields : shields blind (.node i k p ps cs) = false)
    (hC : c ∈ cs) :
    c.Overlooks library blind similar names where
  shaped := hOverlooks.shaped.child hC
  unread := by
    have hAll := (readsOrder_eq_false_iff.mp
      hOverlooks.unread).2 c hC
    rwa [hShields] at hAll
  checks s hS :=
    hOverlooks.checks s (mem_subtrees_of_child hC hS)
  calls s hS :=
    hOverlooks.calls s (mem_subtrees_of_child hC hS)

/- The argument of a shielding call, unless it is a name. -/
theorem argument
    {c : Tree}
    (hOverlooks : Overlooks library blind similar names
      (.node i k p ps cs))
    (hShields : shields blind (.node i k p ps cs))
    (hNot : c.readsOneOf names = false)
    (hC : c ∈ cs) :
    c.Overlooks library blind similar names where
  shaped := hOverlooks.shaped.child hC
  unread := by
    have hAll := (readsOrder_eq_false_iff.mp
      hOverlooks.unread).2 c hC
    rw [hShields] at hAll
    exact readsOrder_of_shielded hAll hNot
  checks s hS :=
    hOverlooks.checks s (mem_subtrees_of_child hC hS)
  calls s hS :=
    hOverlooks.calls s (mem_subtrees_of_child hC hS)

end Overlooks

end Tree

end Flwor

------------------------------------------------------------
-- Stages on Rows That Vary
------------------------------------------------------------

namespace Flwor

/- What a stage checks is as empty in both environments. -/
theorem Env.Varies.disabled?_eq
    {similar : Likeness}
    {names : List String}
    {env env' : Env}
    {ps : Properties}
    (hVaries : Varies similar names env env')
    (hCheck : ∀ name ∈ names,
      ps.var? Properties.check = some name →
        similar.KeepsEmptiness) :
    env.disabled? ps = env'.disabled? ps := by
  unfold disabled?
  cases hName : ps.var? Properties.check with
  | none => rfl
  | some name =>
      change (env name).map List.isEmpty =
        (env' name).map List.isEmpty
      rcases hVaries name with hEq | ⟨hMem, hSimilar⟩
      · rw [hEq]
      · exact hCheck name hMem hName _ _ hSimilar

namespace Tree

variable {library : Library}
variable {blind : OrderBlind}
variable {similar : Likeness}
variable {names : List String}
variable {i : NodeId}
variable {k : Kind}
variable {p : Payload}
variable {ps : Properties}
variable {env env' context context' : Env}

section Parts

variable {cs : List Tree}
variable (hSteady : ∀ c ∈ cs, c.Steady library similar names)
variable (hVaries : Env.Varies similar names env env')

include hSteady hVaries

theorem valueAt_steady
    (index : Nat) :
    valueAt library index cs env =
      valueAt library index cs env' := by
  rw [valueAt_eq, valueAt_eq]
  cases hC : cs[index]? with
  | none => rfl
  | some c =>
      exact (hSteady c (List.mem_of_getElem? hC)).value
        env env' hVaries

theorem lastValue_steady :
    lastValue library cs env = lastValue library cs env' := by
  rw [lastValue_eq, lastValue_eq]
  cases hC : cs.getLast? with
  | none => rfl
  | some c =>
      exact (hSteady c (List.mem_of_getLast? hC)).value
        env env' hVaries

theorem values_steady :
    values library cs env = values library cs env' := by
  induction cs with
  | nil => simp [values]
  | cons c rest ih =>
      rw [List.forall_mem_cons] at hSteady
      rw [values, values, ih hSteady.2,
        hSteady.1.value env env' hVaries]

end Parts

theorem sortValues_steady
    {specs : List Tree}
    (hSteady : ∀ spec ∈ specs, ∀ c ∈ spec.children,
      c.Steady library similar names)
    (hVaries : Env.Varies similar names env env') :
    sortValues library specs env =
      sortValues library specs env' := by
  induction specs with
  | nil => simp [sortValues]
  | cons spec rest ih =>
      rw [List.forall_mem_cons] at hSteady
      rcases spec with ⟨i, k, p, ps, cs⟩
      have hKey : valueAt library 0 cs env =
          valueAt library 0 cs env' :=
        valueAt_steady hSteady.1 hVaries 0
      rw [sortValues, sortValues, ih hSteady.2, hKey]

/-
  A stage whose input varies, and nothing else of which can
  tell the difference.
-/
theorem sameRows_input
    {input input' : Tree}
    {rest : List Tree}
    (hKind : k.hasInput)
    (hShaped : (Tree.node i k p ps (input :: rest)).Shaped)
    (hUnread : ∀ c ∈ rest,
      c.readsOrder blind names false = false)
    (hCheck : ∀ name ∈ names,
      ps.var? Properties.check = some name →
        similar.KeepsEmptiness)
    (hSteady : ∀ c ∈ rest, c.Steady library similar names)
    (hDeep : ∀ c ∈ rest, ∀ d ∈ c.children,
      k = .orderBy → d.Steady library similar names)
    (hContext : Env.Varies similar names context context')
    (hInput : SameRows library False
      (Env.Varies similar names) input context
      input' context') :
    SameRows library False (Env.Varies similar names)
      (.node i k p ps (input :: rest)) context
      (.node i k p ps (input' :: rest)) context' := by
  rcases hShaped.input hKind with
    ⟨_, first, more, hChildren, _⟩
  cases hChildren
  have hDisabled (row row' : Env)
      (hRow : Env.Varies similar names row row') :
      row.disabled? ps = row'.disabled? ps :=
    hRow.disabled?_eq hCheck
  rcases Kind.eq_of_hasInput hKind with
    rfl | rfl | rfl | rfl | rfl | rfl
  case inl =>
    refine sameRows_forBind_of_bind hInput rfl rfl hDisabled
      (fun row row' hRow => ?_)
      (fun var _ row row' hRow value place =>
        (hRow.bind var value).bindOption _ place)
    rw [lastValue, lastValue, lastValue_steady hSteady hRow]
    exact .refl _
  case inr.inl =>
    refine sameRows_letBind_of_bind hInput rfl hDisabled
      (fun row row' hRow => ?_)
      (fun var _ row row' hRow value => hRow.bind var value)
    change Meets False Eq
      (valueAt library 1 (first :: more) row)
      (valueAt library 1 (first :: more) row')
    rw [valueAt_steady hSteady hRow]
    exact .refl _
  case inr.inr.inl =>
    refine sameRows_selection hInput (fun row row' hRow => ?_)
      (fun _ _ hRow => hRow)
    change Meets False Eq
      (valueAt library 0 (first :: more) row)
      (valueAt library 0 (first :: more) row')
    rw [valueAt_steady hSteady hRow]
    exact .refl _
  case inr.inr.inr.inl =>
    refine sameRows_orderBy hInput rfl (fun row row' hRow => ?_)
      (fun _ _ hRow => hRow)
    rw [sortValues_steady (fun c hC d hD =>
      hDeep c hC d hD rfl) hRow]
    exact .refl _
  case inr.inr.inr.inr.inl =>
    refine sameRows_groupBy_of_bindAll hInput rfl rfl
      (fun row row' hRow name hName => hRow.eq_of_not_mem
        (not_mem_of_groupKey hShaped hUnread hName))
      (fun row row' hRow aggregate hMem => hRow.eq_of_not_mem
        (not_mem_of_aggregate hShaped hUnread hMem))
      (fun group _ _ =>
        (hContext.bindAll _).bindAll _)
  case inr.inr.inr.inr.inr =>
    exact sameRows_count_of_bind hInput rfl
      (fun var _ row row' hRow value => hRow.bind var value)

/- A join whose inputs vary, but not its keys. -/
theorem sameRows_joined
    {left left' right right' : Tree}
    {j : NodeId}
    {kind : Kind}
    {q : Payload}
    {qs : Properties}
    {keys : List Tree}
    (hSteady : ∀ c ∈ keys, c.Steady library similar names)
    (hVisible : right'.visible = right.visible)
    (hLeft : SameRows library False
      (Env.Varies similar names) left context left' context')
    (hRight : SameRows library False
      (Env.Varies similar names) right context
      right' context') :
    SameRows library False (Env.Varies similar names)
      (.node i .join p ps
        [left, .node j kind q qs keys, right]) context
      (.node i .join p ps
        [left', .node j kind q qs keys, right']) context' := by
  refine sameRows_join hLeft hRight rfl rfl rfl
    (fun row row' hRow => ?_) (fun row row' hRow => ?_)
    (fun row row' other other' hRow hOther => ?_)
    (fun row row' hRow _ => ?_)
  · rw [valueAt_steady hSteady hRow]
    exact .refl _
  · rw [valueAt_steady hSteady hRow]
    exact .refl _
  · rw [hVisible]
    exact hRow.under hOther _
  · rw [hVisible]
    exact hRow.padded _

/- A pipeline whose rows vary, but not its result. -/
theorem pipelineValue_steady
    {tail tail' : Tree}
    {j : NodeId}
    {q : Payload}
    {qs : Properties}
    {rest more : List Tree}
    (hSteady : ∀ c ∈ rest, c.Steady library similar names)
    (hTail : SameRows library False
      (Env.Varies similar names) tail context
      tail' context') :
    pipelineValue library
        (.node j .finish q qs (tail :: rest) :: more) context =
      pipelineValue library
        (.node j .finish q qs (tail' :: rest) :: more)
        context' := by
  refine Meets.eq_of_strict ?_
  rw [pipelineValue, pipelineValue, headRows, headRows]
  refine Meets.bind hTail (fun rows rows' hRows => ?_)
  refine (Meets.mapM (S := Eq) hRows
    (fun row row' hRow => ?_)).bind (fun parts parts' hParts => ?_)
  · rw [valueAt, valueAt, valueAt_steady hSteady hRow]
    exact .refl _
  · rw [List.forall₂_eq_eq_eq] at hParts
    rw [hParts]
    exact .refl _

end Tree

end Flwor

------------------------------------------------------------
-- Trees That Overlook Differences Are Steady
------------------------------------------------------------

namespace Flwor

namespace Tree

variable {library : Library}
variable {blind : OrderBlind}
variable {similar : Likeness}
variable {names : List String}
variable {i : NodeId}
variable {k : Kind}
variable {p : Payload}
variable {ps : Properties}
variable {cs : List Tree}
variable {env env' context context' : Env}

theorem shields_node :
    shields blind (.node i k p ps cs) =
      (k = .functionCall && cs.length = 1
        && (p.label?.map blind.holds).getD false) :=
  rfl

theorem shields_eq_false
    (hKind : k ≠ .functionCall) :
    shields blind (.node i k p ps cs) = false := by
  simp [shields, hKind]

/- An expression whose parts have the same values. -/
theorem value_steady
    (hPipe : k ≠ .pipeExpr)
    (hSteady : ∀ c ∈ cs, c.Steady library similar names)
    (hVaries : Env.Varies similar names env env')
    (hVar : k = .variableRef → ∀ name, p.var? = some name →
      env name = env' name) :
    value library (.node i k p ps cs) env =
      value library (.node i k p ps cs) env' := by
  cases k
  case pipeExpr => exact (hPipe rfl).elim
  case variableRef =>
    rw [value, value]
    cases hName : p.var? with
    | none => rfl
    | some name => exact hVar rfl name hName
  all_goals
    simp only [value, valueAt_steady hSteady hVaries,
      values_steady hSteady hVaries]

/- A call that treats similar values of a name alike. -/
theorem value_shielded
    {c : Tree}
    (hOverlooks : Overlooks library blind similar names
      (.node i .functionCall p ps [c]))
    (hShields : shields blind
      (.node i .functionCall p ps [c]))
    (hReads : c.readsOneOf names)
    (hVaries : Env.Varies similar names env env') :
    value library (.node i .functionCall p ps [c]) env =
      value library (.node i .functionCall p ps [c]) env' := by
  rcases c with ⟨j, kind, q, qs, cs⟩
  rw [readsOneOf_node, Bool.and_eq_true, decide_eq_true_eq]
    at hReads
  rcases hReads with ⟨rfl, hReads⟩
  cases hVar : q.var? with
  | none => simp [hVar] at hReads
  | some name =>
      have hValue (e : Env) :
          value library (.node j .variableRef q qs cs) e =
            e name := by
        rw [value, hVar]
        rfl
      cases hLabel : p.label? with
      | none => simp [value, hLabel]
      | some label =>
          have hCall (e : Env) :
              value library (.node i .functionCall p ps
                [.node j .variableRef q qs cs]) e =
                  (e name).bind (fun s =>
                    (library.resolve label 1).toOption.bind
                      (fun f => (f.apply [s]).toOption)) := by
            rw [value, hLabel, values, values, hValue]
            cases e name <;> rfl
          rw [hCall, hCall]
          cases hFunction : library.resolve label 1 with
          | error e =>
              cases env name <;> cases env' name <;> rfl
          | ok f =>
              rcases hVaries name with hEq | ⟨_, hSimilar⟩
              · rw [hEq]
              · exact hOverlooks.calls _ (mem_subtrees_self _)
                  hShields label f hLabel hFunction _ _
                  hSimilar

/-
  A tree that overlooks the difference of similar values is
  steady: neither its value nor the other names in its rows
  depend on them.
-/
theorem Overlooks.steady
    {t : Tree}
    (hOverlooks : t.Overlooks library blind similar names) :
    t.Steady library similar names := by
  induction t using Tree.inductDeep with
  | node i k p ps cs ih ihDeep =>
      have hPart (hKind : k ≠ .functionCall) (c : Tree)
          (hC : c ∈ cs) :=
        hOverlooks.child (shields_eq_false hKind) hC
      have hSteady (hKind : k ≠ .functionCall) (c : Tree)
          (hC : c ∈ cs) :=
        ih c hC (hPart hKind c hC)
      have hOwn := (readsOrder_eq_false_iff.mp
        hOverlooks.unread).1
      have hCheck := hOverlooks.checks _ (mem_subtrees_self _)
      refine ⟨fun env env' hVaries => ?_,
        fun context context' hContext => ?_⟩
      · by_cases hPipe : k = .pipeExpr
        · subst hPipe
          rcases hOverlooks.shaped.pipe with
            ⟨j, q, qs, tail, rest, rfl, _⟩
          have hFinish := hPart (by simp) _ List.mem_cons_self
          have hBelow (c : Tree) (hC : c ∈ tail :: rest) :=
            ihDeep _ List.mem_cons_self c hC
              (hFinish.child (shields_eq_false (by simp)) hC)
          rw [value, value]
          exact pipelineValue_steady
            (fun c hC => hBelow c (List.mem_cons_of_mem _ hC))
            ((hBelow tail List.mem_cons_self).rows _ _ hVaries)
        have hVar : k = .variableRef →
            ∀ name, p.var? = some name →
              env name = env' name := by
          rintro rfl name hName
          refine hVaries.eq_of_not_mem (fun hMem => ?_)
          rw [readsOneOf_node, hName] at hOwn
          simp [hMem] at hOwn
        cases hShields : shields blind (.node i k p ps cs) with
        | false =>
            refine value_steady hPipe (fun c hC =>
              ih c hC (hOverlooks.child hShields hC)) hVaries hVar
        | true =>
            have hCall := hShields
            rw [shields_node, Bool.and_eq_true,
              Bool.and_eq_true, decide_eq_true_eq,
              decide_eq_true_eq] at hCall
            rcases hCall with ⟨⟨rfl, hLength⟩, _⟩
            rcases List.length_eq_one_iff.mp hLength with
              ⟨c, hC⟩
            cases hC
            cases hReads : c.readsOneOf names with
            | true =>
                exact value_shielded hOverlooks hShields hReads
                  hVaries
            | false =>
                refine value_steady hPipe (fun d hD => ?_) hVaries
                  hVar
                cases List.mem_singleton.mp hD
                exact ih _ hD
                  (hOverlooks.argument hShields hReads hD)
      · by_cases hKind : k.hasInput
        · have hCall : k ≠ .functionCall := by
            rintro rfl
            cases hKind
          rcases hOverlooks.shaped.input hKind with
            ⟨input, first, rest, rfl, _⟩
          refine sameRows_input hKind hOverlooks.shaped
            (fun c hC => (hPart hCall c
              (List.mem_cons_of_mem _ hC)).unread) hCheck
            (fun c hC => hSteady hCall c
              (List.mem_cons_of_mem _ hC)) ?_ hContext
            ((hSteady hCall input List.mem_cons_self).rows _ _
              hContext)
          rintro c hC d hD rfl
          have hMem := List.mem_cons_of_mem input hC
          refine ihDeep c hMem d hD ?_
          have hSpec := hOverlooks.shaped.orderSpec hC
          have hHere := hPart hCall c hMem
          rcases c with ⟨j, kind, q, qs, parts⟩
          refine hHere.child (shields_eq_false ?_) hD
          rintro rfl
          cases hSpec
        · cases k <;> try exact (hKind rfl).elim
          case start => exact sameRows_start hContext
          case join =>
            rcases hOverlooks.shaped.join with
              ⟨left, j, q, qs, leftKey, rightKey, right, rfl, _⟩
            have hMiddle : Tree.node j .joinExpr q qs
                [leftKey, rightKey] ∈ [left, .node j .joinExpr
                  q qs [leftKey, rightKey], right] := by
              simp
            have hKeys (c : Tree) (hC : c ∈ [leftKey, rightKey]) :
                c.Steady library similar names :=
              ihDeep _ hMiddle c hC
                ((hPart (by simp) _ hMiddle).child
                  (shields_eq_false (by simp)) hC)
            exact sameRows_joined hKeys rfl
              ((hSteady (by simp) left (by simp)).rows _ _
                hContext)
              ((hSteady (by simp) right (by simp)).rows _ _
                hContext)
          all_goals
            simp only [SameRows, rows]
            exact .failure

end Tree

end Flwor
