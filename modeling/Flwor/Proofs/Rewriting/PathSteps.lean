import Mathlib.Algebra.BigOperators.Group.List.Basic
import Mathlib.Algebra.Order.BigOperators.Group.List
import Flwor.Proofs.Rewriting.Copies

/-
  The canonical form of a document, in which no two steps of
  a path can be merged any more.

  What two neighbors merge to is no part of another pair, and
  what is merged below a step leaves its axis and the kind of
  its test alone.  So a merge takes one pair away and leaves
  the canonical form as it is, wherever it takes place.

  Key definitions include:
    * `Document.mergedStep?`
    * `Document.mergeablePairs`
    * `Document.merged`
    * `Document.hasLeafTests`
    * `Document.Merges`

  Key theorems include:
    * `Document.Merges.merged_eq`
    * `Document.Merges.mergeablePairs_eq`
    * `Document.Merges.hasLeafTests`
    * `Document.merged_eq_self`
-/

------------------------------------------------------------
-- Canonical Documents
------------------------------------------------------------

namespace Flwor

namespace Document

/- Whether a step without predicates moves along an axis. -/
def stepsAlong
    (axis : Axis)
    (step : Document) : Bool :=
  step.kind = .stepExpr
    && step.children.length = 2
    && ((step.children[0]?).map (fun spec =>
          spec.kind = .axisSpec
            && spec.payload = .axis axis)).getD false

/- Whether a step is `descendant-or-self::node()`. -/
def isAnyDescendantStep
    (step : Document) : Bool :=
  step.stepsAlong .descendantOrSelf
    && ((step.children[1]?).map (fun test =>
          decide (test.kind = .kindTestAnyKind))).getD false

/- Whether a step goes to children, without predicates. -/
def isChildStep
    (step : Document) : Bool :=
  step.stepsAlong .child

/- The step to the descendants of which a test holds. -/
def descendantStep
    (test : Document) : Document :=
  .branch .stepExpr
    [.carrying .axisSpec (.axis .descendant), test]

/- What two steps that follow each other merge to. -/
def mergedStep?
    (first second : Document) : Option Document :=
  if first.isAnyDescendantStep && second.isChildStep then
    second.children[1]?.map descendantStep
  else none

/- The number of neighbors that can be merged. -/
def neighborPairs
    (steps : List Document) : Nat :=
  (steps.zip (steps.drop 1)).countP (fun p =>
    p.1.isAnyDescendantStep && p.2.isChildStep)

/- Neighbors are merged where they can be. -/
def mergeNeighbors : List Document → List Document
  | first :: second :: rest =>
      match mergedStep? first second with
      | some step => step :: mergeNeighbors rest
      | none => first :: mergeNeighbors (second :: rest)
  | steps => steps

mutual

/- The pairs of steps in all paths that can be merged. -/
def mergeablePairs : Document → Nat
  | .node k _ ds _ =>
      (if k = .pathExpr then neighborPairs ds else 0)
        + mergeablePairsAll ds

/- The same, for several documents. -/
def mergeablePairsAll : List Document → Nat
  | [] => 0
  | d :: ds => mergeablePairs d + mergeablePairsAll ds

end

mutual

/- The document with each pair in all paths merged. -/
def merged : Document → Document
  | .node k p ds ps =>
      .node k p
        (if k = .pathExpr then mergeNeighbors (mergedAll ds)
          else mergedAll ds) ps

/- The same, for several documents. -/
def mergedAll : List Document → List Document
  | [] => []
  | d :: ds => merged d :: mergedAll ds

end

/- Whether nothing stands below the axis and `node()`. -/
def leafTests
    (step : Document) : Bool :=
  (step.children[0]?).all (fun spec => spec.children.isEmpty)
    && (step.children[1]?).all (fun test =>
      test.kind ≠ .kindTestAnyKind || test.children.isEmpty)

mutual

/- Whether that is so in all steps. -/
def hasLeafTests : Document → Bool
  | .node k p ds ps =>
      (k ≠ .stepExpr || leafTests (.node k p ds ps))
        && hasLeafTestsAll ds

/- The same, for several documents. -/
def hasLeafTestsAll : List Document → Bool
  | [] => true
  | d :: ds => hasLeafTests d && hasLeafTestsAll ds

end

variable {k : Kind}
variable {p : Payload}
variable {ds before after rest : List Document}
variable {ps : Properties}
variable {d e first second step test : Document}

@[simp] theorem kind_node :
    (Document.node k p ds ps).kind = k :=
  rfl

@[simp] theorem children_node :
    (Document.node k p ds ps).children = ds :=
  rfl

theorem mergeablePairsAll_eq_sum
    (ds : List Document) :
    mergeablePairsAll ds = (ds.map mergeablePairs).sum := by
  induction ds with
  | nil => rfl
  | cons d rest ih =>
      rw [mergeablePairsAll, ih, List.map_cons, List.sum_cons]

theorem mergedAll_eq_map
    (ds : List Document) :
    mergedAll ds = ds.map merged := by
  induction ds with
  | nil => rfl
  | cons d rest ih => rw [mergedAll, ih, List.map_cons]

theorem hasLeafTestsAll_iff :
    hasLeafTestsAll ds ↔ ∀ d ∈ ds, d.hasLeafTests := by
  induction ds with
  | nil => simp [hasLeafTestsAll]
  | cons d rest ih =>
      rw [hasLeafTestsAll, Bool.and_eq_true, ih,
        List.forall_mem_cons]

end Document

end Flwor

------------------------------------------------------------
-- Pairs of Steps
------------------------------------------------------------

namespace Flwor

namespace Document

variable {axis axis' : Axis}
variable {before after rest : List Document}
variable {d e first second step test : Document}

theorem stepsAlong_iff :
    d.stepsAlong axis ↔
      ∃ q spec test ps,
        d = .node .stepExpr q [spec, test] ps ∧
          spec.kind = .axisSpec ∧
          spec.payload = .axis axis := by
  rcases d with ⟨k, q, cs, ps⟩
  constructor
  · intro hAlong
    rw [stepsAlong, Bool.and_eq_true, Bool.and_eq_true,
      decide_eq_true_iff, decide_eq_true_iff] at hAlong
    rcases hAlong with ⟨⟨hKind, hLength⟩, hSpec⟩
    cases hKind
    rcases List.length_eq_two.mp hLength with
      ⟨spec, test, hPair⟩
    cases hPair
    exact ⟨q, spec, test, ps, rfl, by simpa using hSpec⟩
  · rintro ⟨_, spec, test, _, ⟨⟩, hKind, hPayload⟩
    simp [stepsAlong, hKind, hPayload]

theorem isAnyDescendantStep_iff :
    d.isAnyDescendantStep ↔
      ∃ q spec test ps,
        d = .node .stepExpr q [spec, test] ps ∧
          spec.kind = .axisSpec ∧
          spec.payload = .axis .descendantOrSelf ∧
          test.kind = .kindTestAnyKind := by
  rw [isAnyDescendantStep, Bool.and_eq_true, stepsAlong_iff]
  constructor
  · rintro ⟨⟨q, spec, test, ps, rfl, hKind, hPayload⟩, hTest⟩
    exact ⟨q, spec, test, ps, rfl, hKind, hPayload,
      of_decide_eq_true hTest⟩
  · rintro ⟨q, spec, test, ps, rfl, hKind, hPayload, hTest⟩
    exact ⟨⟨q, spec, test, ps, rfl, hKind, hPayload⟩,
      decide_eq_true hTest⟩

/- A step moves along one axis. -/
theorem axis_eq_of_stepsAlong
    (hAlong : d.stepsAlong axis)
    (hAlong' : d.stepsAlong axis') :
    axis = axis' := by
  rcases stepsAlong_iff.mp hAlong with
    ⟨q, spec, test, ps, rfl, _, hPayload⟩
  rcases stepsAlong_iff.mp hAlong' with
    ⟨_, _, _, _, hEq, _, hPayload'⟩
  cases hEq
  rw [hPayload] at hPayload'
  cases hPayload'
  rfl

theorem isChildStep_of_any
    (hAny : d.isAnyDescendantStep) :
    d.isChildStep = false := by
  by_contra hChild
  rw [isAnyDescendantStep, Bool.and_eq_true] at hAny
  cases axis_eq_of_stepsAlong hAny.1
    (Bool.eq_true_of_not_eq_false hChild)

theorem isAnyDescendantStep_of_child
    (hChild : d.isChildStep) :
    d.isAnyDescendantStep = false := by
  by_contra hAny
  rw [isChildStep_of_any
    (Bool.eq_true_of_not_eq_false hAny)] at hChild
  cases hChild

/- What two steps merge to is in no other pair. -/
@[simp] theorem isChildStep_descendantStep :
    (descendantStep test).isChildStep = false :=
  rfl

@[simp] theorem isAnyDescendantStep_descendantStep :
    (descendantStep test).isAnyDescendantStep = false :=
  rfl

theorem mergedStep?_eq_some_iff :
    mergedStep? first second = some step ↔
      first.isAnyDescendantStep ∧ second.isChildStep ∧
        ∃ test, second.children[1]? = some test ∧
          step = descendantStep test := by
  rw [mergedStep?]
  split
  · next hBoth =>
      rw [Bool.and_eq_true] at hBoth
      simp only [hBoth, Option.map_eq_some_iff, true_and]
      exact exists_congr (fun _ => and_congr_right'
        eq_comm)
  · next hNot =>
      rw [Bool.and_eq_true] at hNot
      simp only [reduceCtorEq, false_iff]
      exact fun hAll => hNot ⟨hAll.1, hAll.2.1⟩

/- Two steps that do not merge are no pair. -/
theorem mergedStep?_eq_none_iff :
    mergedStep? first second = none ↔
      (first.isAnyDescendantStep && second.isChildStep) =
        false := by
  rw [mergedStep?]
  split
  · next hBoth =>
      rw [Bool.and_eq_true] at hBoth
      rcases stepsAlong_iff.mp hBoth.2 with
        ⟨q, spec, test, ps, rfl, _⟩
      simp [hBoth.1, hBoth.2]
  · next hNot => simpa using hNot

end Document

end Flwor

------------------------------------------------------------
-- Lists of Steps
------------------------------------------------------------

namespace Flwor

namespace Document

variable {before rest : List Document}
variable {d e first second step : Document}

theorem neighborPairs_cons_cons
    (first second : Document)
    (rest : List Document) :
    neighborPairs (first :: second :: rest) =
      neighborPairs (second :: rest)
        + if first.isAnyDescendantStep && second.isChildStep
          then 1 else 0 := by
  rw [neighborPairs, neighborPairs, List.drop_one,
    List.drop_one, List.tail_cons, List.tail_cons,
    List.zip_cons_cons, List.countP_cons]

/- A step that is no child step ends no pair. -/
theorem neighborPairs_append
    (hChild : d.isChildStep = false)
    (before rest : List Document) :
    neighborPairs (before ++ d :: rest) =
      neighborPairs before + neighborPairs (d :: rest) := by
  induction before with
  | nil => exact (Nat.zero_add _).symm
  | cons b before ih =>
      rcases before with _ | ⟨c, before⟩
      · rw [List.singleton_append, neighborPairs_cons_cons,
          hChild, Bool.and_false]
        exact (Nat.zero_add _).symm
      · rw [List.cons_append, List.cons_append,
          neighborPairs_cons_cons, ← List.cons_append, ih,
          neighborPairs_cons_cons]
        omega

/- Other steps than to all descendants start none. -/
theorem neighborPairs_cons
    (hAny : d.isAnyDescendantStep = false)
    (rest : List Document) :
    neighborPairs (d :: rest) = neighborPairs rest := by
  rcases rest with _ | ⟨e, rest⟩
  · rfl
  · rw [neighborPairs_cons_cons, hAny]
    rfl

/- Where two steps merge there is one pair less. -/
theorem neighborPairs_merged
    (hMerged : mergedStep? first second = some step)
    (before rest : List Document) :
    neighborPairs (before ++ first :: second :: rest) =
      neighborPairs (before ++ step :: rest) + 1 := by
  rcases mergedStep?_eq_some_iff.mp hMerged with
    ⟨hAny, hChild, test, _, rfl⟩
  rw [neighborPairs_append (isChildStep_of_any hAny),
    neighborPairs_append isChildStep_descendantStep,
    neighborPairs_cons isAnyDescendantStep_descendantStep,
    neighborPairs_cons_cons, neighborPairs_cons
      (isAnyDescendantStep_of_child hChild), hAny, hChild]
  rfl

theorem neighborPairs_congr
    (hAny : d.isAnyDescendantStep = e.isAnyDescendantStep)
    (hChild : d.isChildStep = e.isChildStep)
    (before rest : List Document) :
    neighborPairs (before ++ d :: rest) =
      neighborPairs (before ++ e :: rest) := by
  induction before with
  | nil =>
      rcases rest with _ | ⟨c, rest⟩
      · rfl
      · rw [List.nil_append, List.nil_append,
          neighborPairs_cons_cons, neighborPairs_cons_cons,
          hAny]
  | cons b before ih =>
      rcases before with _ | ⟨c, before⟩
      · rw [List.nil_append, List.nil_append] at ih
        rw [List.singleton_append, List.singleton_append,
          neighborPairs_cons_cons, neighborPairs_cons_cons,
          ih, hChild]
      · rw [List.cons_append, List.cons_append] at ih
        simp only [List.cons_append, neighborPairs_cons_cons,
          ih]

/- Steps before one that ends no pair merge by themselves. -/
theorem mergeNeighbors_append
    (hChild : d.isChildStep = false)
    (before rest : List Document) :
    mergeNeighbors (before ++ d :: rest) =
      mergeNeighbors before
        ++ mergeNeighbors (d :: rest) := by
  induction before using mergeNeighbors.induct with
  | case1 first second before step hMerged ih =>
      rw [List.cons_append, List.cons_append, mergeNeighbors,
        mergeNeighbors]
      simp only [hMerged, ih, List.cons_append]
  | case2 first second before hNone ih =>
      rw [List.cons_append, List.cons_append, mergeNeighbors,
        mergeNeighbors]
      simp only [hNone, ← List.cons_append, ih]
  | case3 before hFew =>
      rcases before with _ | ⟨b, _ | ⟨c, before⟩⟩
      · rfl
      · have hNone : mergedStep? b d = none := by
          rw [mergedStep?_eq_none_iff, hChild,
            Bool.and_false]
        rw [List.singleton_append, mergeNeighbors]
        simp only [hNone, mergeNeighbors,
          List.singleton_append]
      · exact (hFew b c before rfl).elim

theorem mergeNeighbors_cons
    (hAny : d.isAnyDescendantStep = false)
    (rest : List Document) :
    mergeNeighbors (d :: rest) =
      d :: mergeNeighbors rest := by
  rcases rest with _ | ⟨e, rest⟩
  · rfl
  · have hNone : mergedStep? d e = none := by
      rw [mergedStep?_eq_none_iff, hAny, Bool.false_and]
    rw [mergeNeighbors]
    simp only [hNone]

/- It does not matter whether two steps are merged before. -/
theorem mergeNeighbors_merged
    (hMerged : mergedStep? first second = some step)
    (before rest : List Document) :
    mergeNeighbors (before ++ first :: second :: rest) =
      mergeNeighbors (before ++ step :: rest) := by
  rcases mergedStep?_eq_some_iff.mp hMerged with
    ⟨hAny, _, test, _, rfl⟩
  rw [mergeNeighbors_append (isChildStep_of_any hAny),
    mergeNeighbors_append isChildStep_descendantStep,
    mergeNeighbors_cons isAnyDescendantStep_descendantStep,
    mergeNeighbors]
  simp only [hMerged]

/- Without a pair nothing is merged. -/
theorem mergeNeighbors_eq_self
    (hNone : neighborPairs rest = 0) :
    mergeNeighbors rest = rest := by
  induction rest with
  | nil => rfl
  | cons first rest ih =>
      rcases rest with _ | ⟨second, rest⟩
      · rfl
      · rw [neighborPairs_cons_cons, Nat.add_eq_zero_iff]
          at hNone
        have hApart : mergedStep? first second = none := by
          rw [mergedStep?_eq_none_iff]
          simpa using hNone.2
        rw [mergeNeighbors]
        simp only [hApart, ih hNone.1]

end Document

end Flwor

------------------------------------------------------------
-- Merges
------------------------------------------------------------

namespace Flwor

namespace Document

/- A step takes the place of a pair somewhere in a document. -/
inductive Merges : Document → Document → Prop where
  | here
      {p : Payload}
      {ps : Properties}
      {first second step : Document}
      (before rest : List Document)
      (hMerged : mergedStep? first second = some step) :
      Merges
        (.node .pathExpr p (before ++ first :: second :: rest)
          ps)
        (.node .pathExpr p (before ++ step :: rest) ps)
  | inside
      {k : Kind}
      {p : Payload}
      {ps : Properties}
      {d e : Document}
      (before rest : List Document)
      (hMerges : Merges d e) :
      Merges (.node k p (before ++ d :: rest) ps)
        (.node k p (before ++ e :: rest) ps)

/- What a node tells about itself to the step above it. -/
def head
    (d : Document) : Kind × Payload :=
  (d.kind, d.payload)

/-
  Documents that no step above them tells apart: what is a
  pair depends on a step and the heads of its children only.
-/
structure Resembles
    (d e : Document) : Prop where
  head : d.head = e.head
  heads : d.kind = .stepExpr →
    d.children.map Document.head =
      e.children.map Document.head

variable {d e : Document}

theorem Resembles.kind
    (hResembles : d.Resembles e) :
    d.kind = e.kind :=
  congrArg Prod.fst hResembles.head

/- A step along an axis resembles only such steps. -/
theorem Resembles.stepsAlong
    {axis : Axis}
    (hResembles : d.Resembles e)
    (hAlong : d.stepsAlong axis) :
    e.stepsAlong axis := by
  rcases stepsAlong_iff.mp hAlong with
    ⟨q, spec, test, ps, rfl, hKind, hPayload⟩
  rcases e with ⟨k, p, cs, qs⟩
  have hStep := hResembles.kind
  have hHeads := hResembles.heads rfl
  rcases cs with _ | ⟨a, _ | ⟨b, _ | ⟨c, cs⟩⟩⟩ <;>
    simp only [children_node, List.map_cons, List.map_nil,
      List.cons.injEq, reduceCtorEq, and_false] at hHeads
  refine stepsAlong_iff.mpr ⟨p, a, b, qs, ?_, ?_, ?_⟩
  · rw [kind_node, kind_node] at hStep
    rw [hStep]
  · rw [← hKind]
    exact (congrArg Prod.fst hHeads.1).symm
  · rw [← hPayload]
    exact (congrArg Prod.snd hHeads.1).symm

theorem Resembles.symm
    (hResembles : d.Resembles e) :
    e.Resembles d :=
  ⟨hResembles.head.symm, fun hKind =>
    (hResembles.heads (hResembles.kind.trans hKind)).symm⟩

theorem Resembles.isChildStep_eq
    (hResembles : d.Resembles e) :
    d.isChildStep = e.isChildStep :=
  Bool.eq_iff_iff.mpr
    ⟨hResembles.stepsAlong, hResembles.symm.stepsAlong⟩

theorem Resembles.isAnyDescendantStep
    (hResembles : d.Resembles e)
    (hAny : d.isAnyDescendantStep) :
    e.isAnyDescendantStep := by
  rcases isAnyDescendantStep_iff.mp hAny with
    ⟨q, spec, test, ps, rfl, hSpec, hPayload, hTest⟩
  rw [Document.isAnyDescendantStep, Bool.and_eq_true] at hAny
  have hAlong := hResembles.stepsAlong hAny.1
  rcases stepsAlong_iff.mp hAlong with
    ⟨q, spec', test', ps, rfl, _⟩
  have hHeads := hResembles.heads rfl
  simp only [children_node, List.map_cons, List.map_nil,
    List.cons.injEq, and_true] at hHeads
  rw [Document.isAnyDescendantStep, Bool.and_eq_true]
  refine ⟨hAlong, decide_eq_true ?_⟩
  rw [← hTest]
  exact (congrArg Prod.fst hHeads.2).symm

theorem Resembles.isAnyDescendantStep_eq
    (hResembles : d.Resembles e) :
    d.isAnyDescendantStep = e.isAnyDescendantStep :=
  Bool.eq_iff_iff.mpr
    ⟨hResembles.isAnyDescendantStep,
      hResembles.symm.isAnyDescendantStep⟩

end Document

end Flwor

------------------------------------------------------------
-- Canonical Forms After Merges
------------------------------------------------------------

namespace Flwor

namespace Document

variable {k : Kind}
variable {p : Payload}
variable {ps : Properties}
variable {ds : List Document}
variable {d e first second step test : Document}

theorem head_merged
    (d : Document) :
    d.merged.head = d.head := by
  rcases d with ⟨k, p, ds, ps⟩
  rw [merged]
  rfl

theorem resembles_merged
    (d : Document) :
    d.Resembles d.merged := by
  refine ⟨(head_merged d).symm, fun hKind => ?_⟩
  rcases d with ⟨k, p, ds, ps⟩
  cases hKind
  rw [merged, children_node, children_node,
    if_neg (by decide), mergedAll_eq_map, List.map_map]
  exact List.map_congr_left
    (fun c _ => (head_merged c).symm)

/- Below a step that stays alone everything is merged. -/
theorem merged_descendantStep :
    (descendantStep test).merged =
      descendantStep test.merged := by
  simp [descendantStep, branch, carrying, merged, mergedAll]

/- Steps merge after what is below them as they did before. -/
theorem mergedStep?_merged
    (hMerged : mergedStep? first second = some step) :
    mergedStep? first.merged second.merged =
      some step.merged := by
  rcases mergedStep?_eq_some_iff.mp hMerged with
    ⟨hAny, hChild, test, hTest, rfl⟩
  rw [mergedStep?_eq_some_iff,
    ← (resembles_merged first).isAnyDescendantStep_eq,
    ← (resembles_merged second).isChildStep_eq]
  refine ⟨hAny, hChild, test.merged, ?_,
    merged_descendantStep⟩
  rcases stepsAlong_iff.mp hChild with
    ⟨q, spec, tested, ps, rfl, _⟩
  cases hTest
  simp [merged, mergedAll]

/- A merge leaves the canonical form as it is. -/
theorem Merges.merged_eq
    (hMerges : d.Merges e) :
    d.merged = e.merged := by
  induction hMerges with
  | here before rest hMerged =>
      simp only [merged, if_true, mergedAll_eq_map,
        List.map_append, List.map_cons]
      rw [mergeNeighbors_merged (mergedStep?_merged hMerged)]
  | inside before rest hMerges ih =>
      simp only [merged, mergedAll_eq_map, List.map_append,
        List.map_cons, ih]

namespace Merges

theorem head_eq
    (hMerges : d.Merges e) :
    d.head = e.head := by
  cases hMerges <;> rfl

theorem resembles
    (hMerges : d.Merges e) :
    d.Resembles e := by
  refine ⟨hMerges.head_eq, fun hKind => ?_⟩
  cases hMerges with
  | here => cases hKind
  | inside before rest hMerges =>
      simp only [children_node, List.map_append,
        List.map_cons, hMerges.head_eq]

/- There is nothing to merge below a leaf. -/
theorem children_ne_nil
    (hMerges : d.Merges e) :
    d.children ≠ [] := by
  cases hMerges <;> simp

end Merges

theorem children_of_hasLeafTests
    {spec : Document}
    (hLeaves : (Document.node .stepExpr p [spec, test]
      ps).hasLeafTests) :
    spec.children = [] ∧
      (test.kind = .kindTestAnyKind →
        test.children = []) := by
  simp only [hasLeafTests, ne_eq, not_true_eq_false,
    decide_false, Bool.false_or, Bool.and_eq_true, leafTests,
    children_node, List.getElem?_cons_zero,
    List.getElem?_cons_succ, Option.all_some,
    List.isEmpty_iff, Bool.or_eq_true, decide_eq_true_eq]
    at hLeaves
  exact ⟨hLeaves.1.1, fun hKind =>
    hLeaves.1.2.resolve_left (fun hNe => hNe hKind)⟩

theorem mergeablePairs_of_leaf
    (hLeaf : d.children = []) :
    d.mergeablePairs = 0 := by
  rcases d with ⟨k, p, ds, ps⟩
  cases hLeaf
  simp [mergeablePairs, mergeablePairsAll, neighborPairs]

/- Only what the second step tests can hold more pairs. -/
theorem mergeablePairs_mergedStep
    (hFirst : first.hasLeafTests)
    (hSecond : second.hasLeafTests)
    (hMerged : mergedStep? first second = some step) :
    first.mergeablePairs = 0 ∧
      second.mergeablePairs = step.mergeablePairs := by
  rcases mergedStep?_eq_some_iff.mp hMerged with
    ⟨hAny, hChild, test, hTest, rfl⟩
  rcases isAnyDescendantStep_iff.mp hAny with
    ⟨q, spec, node, ps, rfl, _, _, hNode⟩
  rcases stepsAlong_iff.mp hChild with
    ⟨q, spec', test', ps, rfl, _⟩
  cases hTest
  have hAxis := children_of_hasLeafTests hFirst
  have hAxis' := children_of_hasLeafTests hSecond
  simp [mergeablePairs, mergeablePairsAll, descendantStep,
    branch, carrying, mergeablePairs_of_leaf hAxis.1,
    mergeablePairs_of_leaf (hAxis.2 hNode),
    mergeablePairs_of_leaf hAxis'.1]

/- A merge takes one pair away. -/
theorem Merges.mergeablePairs_eq
    (hMerges : d.Merges e)
    (hLeaves : d.hasLeafTests) :
    d.mergeablePairs = e.mergeablePairs + 1 := by
  induction hMerges with
  | here before rest hMerged =>
      rw [hasLeafTests, Bool.and_eq_true,
        hasLeafTestsAll_iff] at hLeaves
      have hPairs := mergeablePairs_mergedStep
        (hLeaves.2 _ (by simp)) (hLeaves.2 _ (by simp))
        hMerged
      simp only [mergeablePairs, if_true,
        mergeablePairsAll_eq_sum, List.map_append,
        List.map_cons, List.sum_append, List.sum_cons,
        neighborPairs_merged hMerged, hPairs]
      omega
  | @inside k p ps d e before rest hMerges ih =>
      rw [hasLeafTests, Bool.and_eq_true,
        hasLeafTestsAll_iff] at hLeaves
      have hPairs := ih (hLeaves.2 d (by simp))
      have hSame := neighborPairs_congr
        hMerges.resembles.isAnyDescendantStep_eq
        hMerges.resembles.isChildStep_eq before rest
      simp only [mergeablePairs, mergeablePairsAll_eq_sum,
        List.map_append, List.map_cons, List.sum_append,
        List.sum_cons, hSame]
      omega

/- What stands below an axis or `node()` is no path. -/
theorem Merges.leafTests
    {before rest : List Document}
    (hMerges : d.Merges e)
    (hLeaf : (Document.node k p (before ++ d :: rest)
      ps).leafTests) :
    (Document.node k p (before ++ e :: rest)
      ps).leafTests := by
  have hKind : e.kind = d.kind :=
    hMerges.resembles.kind.symm
  have hInner : d.children.isEmpty = false := by
    rw [List.isEmpty_eq_false_iff]
    exact hMerges.children_ne_nil
  rcases before with _ | ⟨a, _ | ⟨b, before⟩⟩
  · simp [Document.leafTests, hInner] at hLeaf
  · simp [Document.leafTests, hInner, hKind] at hLeaf ⊢
    exact ⟨hLeaf.1, .inl hLeaf.2⟩
  · simpa [Document.leafTests] using hLeaf

theorem hasLeafTests_descendantStep
    (hTest : test.hasLeafTests)
    (hLeaf : test.kind = .kindTestAnyKind →
      test.children = []) :
    (descendantStep test).hasLeafTests := by
  simp [descendantStep, branch, carrying, hasLeafTests,
    hasLeafTestsAll, Document.leafTests, hTest]
  exact or_iff_not_imp_left.mpr (fun hKind =>
    hLeaf (not_not.mp hKind))

/- Merged steps test what was tested. -/
theorem Merges.hasLeafTests
    (hMerges : d.Merges e)
    (hLeaves : d.hasLeafTests) :
    e.hasLeafTests := by
  induction hMerges with
  | @here p ps first second step before rest hMerged =>
      rw [Document.hasLeafTests, Bool.and_eq_true,
        hasLeafTestsAll_iff] at hLeaves ⊢
      refine ⟨rfl, fun c hC => ?_⟩
      rcases mergedStep?_eq_some_iff.mp hMerged with
        ⟨_, hChild, test, hTest, rfl⟩
      rcases stepsAlong_iff.mp hChild with
        ⟨q, spec, tested, qs, rfl, _⟩
      cases hTest
      have hSecond := hLeaves.2
        (.node .stepExpr q [spec, test] qs) (by simp)
      have hLeaf := children_of_hasLeafTests hSecond
      rw [Document.hasLeafTests, Bool.and_eq_true,
        hasLeafTestsAll_iff] at hSecond
      rcases List.mem_append.mp hC with hC | hC
      · exact hLeaves.2 c (by simp [hC])
      rcases List.mem_cons.mp hC with rfl | hC
      · exact hasLeafTests_descendantStep
          (hSecond.2 test (by simp)) hLeaf.2
      · exact hLeaves.2 c (by simp [hC])
  | @inside k p ps d e before rest hMerges ih =>
      rw [Document.hasLeafTests, Bool.and_eq_true,
        hasLeafTestsAll_iff, Bool.or_eq_true] at hLeaves ⊢
      refine ⟨hLeaves.1.imp_right hMerges.leafTests,
        fun c hC => ?_⟩
      rcases List.mem_append.mp hC with hC | hC
      · exact hLeaves.2 c (by simp [hC])
      rcases List.mem_cons.mp hC with rfl | hC
      · exact ih (hLeaves.2 d (by simp))
      · exact hLeaves.2 c (by simp [hC])

/- Where nothing can be merged nothing is. -/
theorem merged_eq_self
    (hNone : d.mergeablePairs = 0) :
    d.merged = d := by
  induction d using Document.induction with
  | node k p ds ps ih =>
      rw [mergeablePairs, Nat.add_eq_zero_iff,
        mergeablePairsAll_eq_sum, List.sum_eq_zero_iff,
        List.forall_mem_map] at hNone
      have hAll : mergedAll ds = ds := by
        rw [mergedAll_eq_map]
        exact (List.map_congr_left (fun d hD =>
          ih d hD (hNone.2 d hD))).trans (List.map_id ds)
      rw [merged, hAll]
      split
      · next hPath =>
          rw [if_pos hPath] at hNone
          rw [mergeNeighbors_eq_self hNone.1]
      · rfl

end Document

end Flwor
