import Mathlib.Data.Option.Basic
import Flwor.Pass.Grouping
import Flwor.Pass.LetLift
import Flwor.Pass.MatchOrder
import Flwor.Pass.Steps
import Flwor.Pass.Unnest
import Flwor.Validity

/-
  Plans behind a veil: each literal is replaced by the same
  one.

  Whatever is read off a tree, except for the values of its
  literals, is the same behind the veil.

  Key definitions include:
    * `Payload.veil`
    * `Tree.veil`, `Document.veil`
    * `Candidate.veil`

  Key theorems include:
    * `Tree.visible_veil`, `Tree.references_veil`
    * `Tree.candidate?_veil`
    * `Tree.firstDefect?_veil`
-/

------------------------------------------------------------
-- Payloads and Documents
------------------------------------------------------------

namespace Flwor

namespace Payload

/- A payload, with the value of a literal left out. -/
def veil : Payload → Payload
  | .int _ => .bool false
  | .dbl _ => .bool false
  | .str _ => .bool false
  | .bool _ => .bool false
  | p => p

@[simp] theorem isSome_item?_veil
    (p : Payload) :
    p.veil.item?.isSome = p.item?.isSome := by
  cases p <;> rfl

@[simp] theorem var?_veil
    (p : Payload) :
    p.veil.var? = p.var? := by
  cases p <;> rfl

@[simp] theorem label?_veil
    (p : Payload) :
    p.veil.label? = p.label? := by
  cases p <;> rfl

@[simp] theorem comparison?_veil
    (p : Payload) :
    p.veil.comparison? = p.comparison? := by
  cases p <;> rfl

@[simp] theorem order?_veil
    (p : Payload) :
    p.veil.order? = p.order? := by
  cases p <;> rfl

@[simp] theorem arithmetic?_veil
    (p : Payload) :
    p.veil.arithmetic? = p.arithmetic? := by
  cases p <;> rfl

@[simp] theorem axis?_veil
    (p : Payload) :
    p.veil.axis? = p.axis? := by
  cases p <;> rfl

/- A veil covers literals only. -/
@[simp] theorem veil_eq_axis_iff
    (p : Payload)
    (a : Axis) :
    p.veil = .axis a ↔ p = .axis a := by
  cases p <;> simp [veil]

end Payload

namespace Document

mutual

/- A document without the values of its literals. -/
def veil : Document → Document
  | .node k p cs ps => .node k p.veil (veilAll cs) ps

/- Documents without the values of their literals. -/
def veilAll : List Document → List Document
  | [] => []
  | d :: ds => veil d :: veilAll ds

end

end Document

end Flwor

------------------------------------------------------------
-- Trees
------------------------------------------------------------

namespace Flwor

namespace Tree

mutual

/- A tree without the values of its literals. -/
def veil : Tree → Tree
  | .node i k p ps cs => .node i k p.veil ps (veilAll cs)

/- Trees without the values of their literals. -/
def veilAll : List Tree → List Tree
  | [] => []
  | t :: ts => veil t :: veilAll ts

end

theorem veilAll_eq
    (ts : List Tree) :
    veilAll ts = ts.map veil := by
  induction ts with
  | nil => rfl
  | cons t rest ih => rw [veilAll, ih, List.map_cons]

@[simp] theorem id_veil
    (t : Tree) :
    t.veil.id = t.id := by
  rcases t with ⟨i, k, p, ps, cs⟩
  rfl

@[simp] theorem kind_veil
    (t : Tree) :
    t.veil.kind = t.kind := by
  rcases t with ⟨i, k, p, ps, cs⟩
  rfl

@[simp] theorem payload_veil
    (t : Tree) :
    t.veil.payload = t.payload.veil := by
  rcases t with ⟨i, k, p, ps, cs⟩
  rfl

@[simp] theorem properties_veil
    (t : Tree) :
    t.veil.properties = t.properties := by
  rcases t with ⟨i, k, p, ps, cs⟩
  rfl

@[simp] theorem children_veil
    (t : Tree) :
    t.veil.children = t.children.map veil := by
  rcases t with ⟨i, k, p, ps, cs⟩
  exact veilAll_eq cs

end Tree

end Flwor

------------------------------------------------------------
-- Bindings
------------------------------------------------------------

namespace Flwor

namespace Tree

@[simp] theorem var?_veil
    (t : Tree) :
    t.veil.var? = t.var? := by
  rw [var?, var?, payload_veil, Payload.var?_veil]

@[simp] theorem childVar?_veil
    (t : Tree)
    (index : Nat) :
    t.veil.childVar? index = t.childVar? index := by
  rw [childVar?, childVar?, children_veil,
    List.getElem?_map]
  cases t.children[index]? <;> simp

@[simp] theorem binding?_veil
    (t : Tree) :
    t.veil.binding? = t.binding? := by
  simp [binding?]

@[simp] theorem position?_veil
    (t : Tree) :
    t.veil.position? = t.position? := by
  simp only [position?, kind_veil, children_veil,
    List.getElem?_map, Option.filter_map,
    Option.bind_map, Function.comp_def, var?_veil]

@[simp] theorem groupKeys_veil
    (t : Tree) :
    t.veil.groupKeys = t.groupKeys := by
  simp [groupKeys, ← List.map_tail, List.filter_map,
    List.filterMap_map, Function.comp_def]

@[simp] theorem groupAggregates_veil
    (t : Tree) :
    t.veil.groupAggregates = t.groupAggregates := by
  simp [groupAggregates, ← List.map_tail, List.filter_map,
    List.filterMap_map, Function.comp_def]

@[simp] theorem bound_veil
    (t : Tree) :
    t.veil.bound = t.bound := by
  simp [bound]

mutual

@[simp] theorem visible_veil :
    ∀ t : Tree, t.veil.visible = t.visible
  | .node i k p ps cs => by
      have hBound := bound_veil (.node i k p ps cs)
      rw [veil] at hBound ⊢
      cases k <;>
        simp [visible, hBound, visibleHead_veilAll cs,
          visibleLast_veilAll cs]

theorem visibleHead_veilAll :
    ∀ ts : List Tree,
      visibleHead (veilAll ts) = visibleHead ts
  | [] => rfl
  | t :: ts => by
      rw [veilAll, visibleHead, visibleHead, visible_veil t]

theorem visibleLast_veilAll :
    ∀ ts : List Tree,
      visibleLast (veilAll ts) = visibleLast ts
  | [] => rfl
  | [t] => by
      rw [veilAll, veilAll, visibleLast, visibleLast,
        visible_veil t]
  | t :: u :: ts => by
      have hRest := visibleLast_veilAll (u :: ts)
      rw [veilAll] at hRest ⊢
      rw [veilAll, visibleLast, hRest, visibleLast]

end

end Tree

end Flwor

------------------------------------------------------------
-- Chains, Subtrees and References
------------------------------------------------------------

namespace Flwor

namespace Tree

@[simp] theorem input?_veil
    (t : Tree) :
    t.veil.input? = t.input?.map veil := by
  simp only [input?, kind_veil, children_veil,
    List.head?_map]
  split <;> rfl

@[simp] theorem finish?_veil
    (t : Tree) :
    t.veil.finish? = t.finish?.map veil := by
  simp [finish?, Option.filter_map, Function.comp_def]

@[simp] theorem stages_veil :
    ∀ t : Tree, t.veil.stages = t.stages.map veil
  | .node i k p ps [] => by
      simp [veil, veilAll, stages, stagesHead]
  | .node i k p ps (c :: cs) => by
      rw [veil, veilAll, stages, stages, List.map_cons,
        veil, veilAll]
      split
      · rfl
      · rw [stagesHead, stagesHead, stages_veil c]

mutual

@[simp] theorem ids_veil :
    ∀ t : Tree, t.veil.ids = t.ids
  | .node i k p ps cs => by
      rw [veil, ids, ids, idsAll_veilAll cs]

theorem idsAll_veilAll :
    ∀ ts : List Tree, idsAll (veilAll ts) = idsAll ts
  | [] => rfl
  | t :: ts => by
      rw [veilAll, idsAll, idsAll, ids_veil t,
        idsAll_veilAll ts]

end

mutual

@[simp] theorem subtrees_veil :
    ∀ t : Tree, t.veil.subtrees = t.subtrees.map veil
  | .node i k p ps cs => by
      rw [veil, subtrees, subtreesAll_veilAll cs, subtrees,
        List.map_cons, veil]

theorem subtreesAll_veilAll :
    ∀ ts : List Tree,
      subtreesAll (veilAll ts) = (subtreesAll ts).map veil
  | [] => rfl
  | t :: ts => by
      rw [veilAll, subtreesAll, subtrees_veil t,
        subtreesAll_veilAll ts, subtreesAll, List.map_append]

end

mutual

@[simp] theorem document_veil :
    ∀ t : Tree, t.veil.document = t.document.veil
  | .node i k p ps cs => by
      rw [veil, document, documentAll_veilAll cs, document,
        Document.veil]

theorem documentAll_veilAll :
    ∀ ts : List Tree,
      documentAll (veilAll ts) =
        Document.veilAll (documentAll ts)
  | [] => rfl
  | t :: ts => by
      rw [veilAll, documentAll, document_veil t,
        documentAll_veilAll ts, documentAll,
        Document.veilAll]

end

@[simp] theorem nodeReferences_veil
    (k : Kind)
    (p : Payload)
    (ps : Properties) :
    nodeReferences k p.veil ps = nodeReferences k p ps := by
  simp [nodeReferences]

mutual

@[simp] theorem references_veil :
    ∀ t : Tree, t.veil.references = t.references
  | .node i k p ps cs => by
      rw [veil, references, nodeReferences_veil,
        referencesAll_veilAll cs, references]

theorem referencesAll_veilAll :
    ∀ ts : List Tree,
      referencesAll (veilAll ts) = referencesAll ts
  | [] => rfl
  | t :: ts => by
      rw [veilAll, referencesAll, references_veil t,
        referencesAll_veilAll ts, referencesAll]

end

mutual

@[simp] theorem referencesOutside_veil
    (excluded : NodeId) :
    ∀ t : Tree,
      t.veil.referencesOutside excluded =
        t.referencesOutside excluded
  | .node i k p ps cs => by
      rw [veil, referencesOutside, referencesOutside,
        nodeReferences_veil,
        referencesOutsideAll_veilAll excluded cs]

theorem referencesOutsideAll_veilAll
    (excluded : NodeId) :
    ∀ ts : List Tree,
      referencesOutsideAll excluded (veilAll ts) =
        referencesOutsideAll excluded ts
  | [] => rfl
  | t :: ts => by
      rw [veilAll, referencesOutsideAll,
        referencesOutside_veil excluded t,
        referencesOutsideAll_veilAll excluded ts,
        referencesOutsideAll]

end

theorem ownExpressions_veil
    (t : Tree) :
    t.veil.ownExpressions = t.ownExpressions.map veil := by
  have hOption (o : Option Tree) :
      (o.map veil).toList = o.toList.map veil := by
    cases o <;> rfl
  have hSpecs :
      ((t.children.map veil).drop 1).filterMap (fun spec =>
          spec.children.head?) =
        ((t.children.drop 1).filterMap (fun spec =>
          spec.children.head?)).map veil := by
    rw [← List.map_drop, List.filterMap_map,
      List.map_filterMap]
    simp [Function.comp_def]
  unfold ownExpressions
  rw [kind_veil, children_veil, List.getLast?_map,
    List.getElem?_map, hOption, hOption, hSpecs]
  cases t.kind <;> try rfl
  cases t.children[1]? with
  | none => rfl
  | some keys => exact children_veil keys

@[simp] theorem stageReads_veil
    (t : Tree) :
    t.veil.stageReads = t.stageReads := by
  simp [stageReads, ownExpressions_veil, List.flatMap_map]

mutual

@[simp] theorem eagerPipes_veil :
    ∀ t : Tree, t.veil.eagerPipes = t.eagerPipes
  | .node i k p ps cs => by
      rw [veil, eagerPipes, eagerPipes,
        eagerPipesAll_veilAll cs]

theorem eagerPipesAll_veilAll :
    ∀ ts : List Tree,
      eagerPipesAll (veilAll ts) = eagerPipesAll ts
  | [] => rfl
  | t :: ts => by
      rw [veilAll, eagerPipesAll, eagerPipes_veil t,
        eagerPipesAll_veilAll ts, eagerPipesAll]

end

mutual

@[simp] theorem readsOrder_veil
    (blind : OrderBlind)
    (names : List String) :
    ∀ (shielded : Bool) (t : Tree),
      t.veil.readsOrder blind names shielded =
        t.readsOrder blind names shielded
  | shielded, .node i k p ps cs => by
      have hLength : (veilAll cs).length = cs.length := by
        rw [veilAll_eq, List.length_map]
      simp only [veil, readsOrder, Payload.var?_veil,
        Payload.label?_veil, hLength,
        readsOrderAny_veilAll blind names _ cs]

theorem readsOrderAny_veilAll
    (blind : OrderBlind)
    (names : List String) :
    ∀ (shielded : Bool) (ts : List Tree),
      readsOrderAny blind names shielded (veilAll ts) =
        readsOrderAny blind names shielded ts
  | shielded, [] => rfl
  | shielded, t :: ts => by
      rw [veilAll, readsOrderAny,
        readsOrder_veil blind names shielded t,
        readsOrderAny_veilAll blind names shielded ts,
        readsOrderAny]

end

@[simp] theorem derived_veil
    (dependents : List String)
    (t : Tree) :
    t.veil.derived dependents = t.derived dependents := by
  simp [derived]

@[simp] theorem isPendingJoin_veil
    (t : Tree) :
    t.veil.isPendingJoin = t.isPendingJoin := by
  simp [isPendingJoin]

@[simp] theorem letsPass_veil
    (name : String)
    (reads : List String)
    (t : Tree) :
    t.veil.letsPass name reads = t.letsPass name reads := by
  simp [letsPass]

@[simp] theorem loopExit?_veil
    (name : String)
    (reads : List String)
    (t : Tree) :
    t.veil.loopExit? name reads = t.loopExit? name reads := by
  have hHopped :
      ((t.stages.map veil).drop 1).takeWhile
          (letsPass name reads) =
        ((t.stages.drop 1).takeWhile
          (letsPass name reads)).map veil := by
    rw [← List.map_drop, List.takeWhile_map]
    simp [Function.comp_def]
  unfold loopExit?
  rw [stages_veil, hHopped]
  simp [Function.comp_def]

end Tree

end Flwor

------------------------------------------------------------
-- Candidates
------------------------------------------------------------

namespace Flwor

namespace Correlation

/- A correlation in a plan behind the veil. -/
def veil
    (c : Correlation) : Correlation :=
  { c with innerKey := c.innerKey.veil }

end Correlation

namespace Candidate

/- A candidate in a plan behind the veil. -/
def veil
    (c : Candidate) : Candidate :=
  { c with correlation := c.correlation.veil }

end Candidate

namespace Tree

@[simp] theorem readsOnly_veil
    (outer : List String)
    (t : Tree) :
    t.veil.readsOnly outer = t.readsOnly outer := by
  rw [readsOnly, readsOnly, references_veil]

@[simp] theorem readsNone_veil
    (outer : List String)
    (t : Tree) :
    t.veil.readsNone outer = t.readsNone outer := by
  rw [readsNone, readsNone, references_veil]

@[simp] theorem correlation?_veil
    (outer bound : List String)
    (t : Tree) :
    t.veil.correlation? outer bound =
      (t.correlation? outer bound).map Correlation.veil := by
  unfold correlation?
  rw [children_veil, List.getElem?_map, id_veil]
  rcases t.children[1]? with
    _ | ⟨i, k, p, ps, _ | ⟨left, _ | ⟨right, rest⟩⟩⟩
  · rfl
  · cases k <;> try rfl
    cases p <;> try rfl
    rename_i c
    cases c <;> rfl
  · cases k <;> try rfl
    cases p <;> try rfl
    rename_i c
    cases c <;> rfl
  · cases k <;> try rfl
    cases p <;> try rfl
    rename_i c
    cases c <;> try rfl
    simp only [Option.map_some, veil, veilAll, Payload.veil,
      readsOnly_veil, readsNone_veil]
    split
    · rfl
    · split <;> rfl

theorem scanStages_veil
    (outer : List String)
    (bound : List String)
    (found : Option Correlation)
    (stages : List Tree) :
    scanStages outer bound (found.map Correlation.veil)
        (stages.map veil) =
      (scanStages outer bound found stages).map (fun r =>
        (r.1, r.2.map Correlation.veil)) := by
  induction stages generalizing bound found with
  | nil => rfl
  | cons stage rest ih =>
      rw [List.map_cons, scanStages, scanStages]
      simp only [kind_veil, properties_veil, bound_veil,
        stageReads_veil, correlation?_veil,
        Option.isNone_map]
      have hNext :
          (if stage.stageReads.any outer.contains
              || !Names.disjoint stage.bound bound
              || stage.bound.eraseDups.length ≠
                stage.bound.length then none
            else scanStages outer (bound ++ stage.bound)
              (found.map Correlation.veil)
              (rest.map veil)) =
            (if stage.stageReads.any outer.contains
              || !Names.disjoint stage.bound bound
              || stage.bound.eraseDups.length ≠
                stage.bound.length then none
            else scanStages outer (bound ++ stage.bound)
              found rest).map (fun r =>
                (r.1, r.2.map Correlation.veil)) := by
        split
        · rfl
        · exact ih _ found
      split
      · rfl
      · by_cases hFree :
            (found.isNone && stage.kind = .selection) = true
        · rw [if_pos hFree, if_pos hFree]
          cases stage.correlation? outer bound with
          | none => exact hNext
          | some c => exact ih bound (some c)
        · rw [if_neg hFree, if_neg hFree]
          exact hNext

@[simp] theorem candidate?_veil
    (outer : List String)
    (t : Tree) :
    t.veil.candidate? outer =
      (t.candidate? outer).map Candidate.veil := by
  unfold candidate?
  simp only [kind_veil, finish?_veil, Option.bind_eq_bind,
    Option.map_bind, Option.bind_map, children_veil,
    List.length_map, List.head?_map, stages_veil,
    Function.comp_def, ← List.map_reverse]
  congr 1
  funext _
  congr 1
  funext finish
  congr 1
  funext _
  congr 1
  funext tail
  rcases tail.stages.reverse with
    _ | ⟨start, _ | ⟨first, _ | ⟨second, rest⟩⟩⟩
  · rfl
  · rfl
  · rfl
  · have hScan := scanStages_veil outer [] none
      (first :: second :: rest)
    rw [Option.map_none, List.map_cons, List.map_cons]
      at hScan
    simp only [List.map_cons, kind_veil, hScan,
      Option.bind_map, Option.map_bind, Function.comp_def,
      binding?_veil, Correlation.veil, references_veil,
      id_veil]
    rfl

end Tree

end Flwor

------------------------------------------------------------
-- Defects
------------------------------------------------------------

namespace Flwor

namespace ShapeRule

@[simp] theorem countIn_veil
    (allowed : List Nat)
    (cs : List Tree) :
    countIn allowed (cs.map Tree.veil) =
      countIn allowed cs := by
  rw [countIn, countIn, List.length_map]

@[simp] theorem kindAt_veil
    (cs : List Tree)
    (index : Nat)
    (kind : Kind) :
    kindAt (cs.map Tree.veil) index kind =
      kindAt cs index kind := by
  simp [kindAt, Function.comp_def]

@[simp] theorem stageAt_veil
    (cs : List Tree)
    (index : Nat) :
    stageAt (cs.map Tree.veil) index = stageAt cs index := by
  simp [stageAt, Function.comp_def]

@[simp] theorem orderSpecs_veil
    (cs : List Tree) :
    orderSpecs (cs.map Tree.veil) = orderSpecs cs := by
  simp [orderSpecs]

end ShapeRule

namespace Tree

@[simp] theorem brokenRule?_veil
    (site : Option Site)
    (t : Tree) :
    t.veil.brokenRule? site = t.brokenRule? site := by
  have hKinds :
      ((t.children.map veil).drop 1).map kind =
        (t.children.drop 1).map kind := by
    rw [← List.map_drop, List.map_map]
    simp [Function.comp_def]
  simp only [brokenRule?, kind_veil, payload_veil,
    children_veil, List.length_map, hKinds,
    ShapeRule.countIn_veil, ShapeRule.kindAt_veil,
    ShapeRule.stageAt_veil, ShapeRule.orderSpecs_veil,
    Payload.order?_veil, Payload.var?_veil,
    Payload.comparison?_veil, Payload.arithmetic?_veil,
    Payload.label?_veil, Payload.axis?_veil]

@[simp] theorem ownDefect?_veil
    (site : Option Site)
    (t : Tree) :
    t.veil.ownDefect? site = t.ownDefect? site := by
  simp only [ownDefect?, brokenRule?_veil, kind_veil,
    id_veil]

mutual

@[simp] theorem firstDefect?_veil :
    ∀ (site : Option Site) (t : Tree),
      t.veil.firstDefect? site = t.firstDefect? site
  | site, .node i k p ps cs => by
      have hOwn := ownDefect?_veil site (.node i k p ps cs)
      have hLength : (veilAll cs).length = cs.length := by
        rw [veilAll_eq, List.length_map]
      rw [veil] at hOwn ⊢
      rw [firstDefect?, hOwn, hLength,
        firstDefectAll?_veilAll _ cs, firstDefect?]

theorem firstDefectAll?_veilAll :
    ∀ (site : Site) (ts : List Tree),
      firstDefectAll? site (veilAll ts) =
        firstDefectAll? site ts
  | site, [] => rfl
  | site, t :: ts => by
      rw [veilAll, firstDefectAll?,
        firstDefect?_veil (some site) t,
        firstDefectAll?_veilAll _ ts, firstDefectAll?]

end

end Tree

end Flwor
