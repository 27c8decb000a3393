import Flwor.Proofs.Arena.Insertions
import Flwor.Proofs.Convergence.Marks
import Flwor.Proofs.Liveness.LiveStages
import Flwor.Proofs.Scoping

/-
  What the marks of joins have no influence on.

  A mark is read when a join is evaluated, and nowhere else:
  trees that differ in marks only show the same names, pass
  the same checks and follow the same scoping rules.

  Key definitions include:
    * `Tree.SameButMarks`

  Key theorems include:
    * `Tree.SameButMarks.reads`
    * `Plan.MarkedFrom.validate`
-/

------------------------------------------------------------
-- Trees That Differ in Marks
------------------------------------------------------------

namespace Flwor

namespace Properties

/- Annotations that differ in the mark only. -/
theorem get?_of_unmark
    {ps ps' : Properties}
    {key : String}
    (hSame : ps'.unmark = ps.unmark)
    (hKey : key ≠ skipSort) :
    ps'.get? key = ps.get? key := by
  rw [← get?_unmark ps hKey, ← hSame, get?_unmark ps' hKey]

theorem var?_of_unmark
    {ps ps' : Properties}
    {key : String}
    (hSame : ps'.unmark = ps.unmark)
    (hKey : key ≠ skipSort) :
    ps'.var? key = ps.var? key := by
  rw [var?, var?, get?_of_unmark hSame hKey]

theorem vars?_of_unmark
    {ps ps' : Properties}
    {key : String}
    (hSame : ps'.unmark = ps.unmark)
    (hKey : key ≠ skipSort) :
    ps'.vars? key = ps.vars? key := by
  rw [vars?, vars?, get?_of_unmark hSame hKey]

end Properties

namespace Tree

/- Trees that differ in the marks of their joins only. -/
def SameButMarks
    (t t' : Tree) : Prop :=
  t'.unmark = t.unmark

namespace SameButMarks

variable {t t' : Tree}
variable {i : NodeId}
variable {k : Kind}
variable {p : Payload}
variable {ps : Properties}
variable {cs cs' : List Tree}

/- Whatever does not depend on marks is the same. -/
theorem congr
    {α : Type}
    {f : Tree → α}
    (hSame : SameButMarks t t')
    (hF : ∀ t, f t.unmark = f t) :
    f t' = f t := by
  rw [← hF t', hSame, hF t]

theorem symm
    (hSame : SameButMarks t t') :
    SameButMarks t' t :=
  Eq.symm hSame

theorem symms
    (hAll : List.Forall₂ SameButMarks cs cs') :
    List.Forall₂ SameButMarks cs' cs :=
  hAll.flip.imp (fun _ _ hSame => Eq.symm hSame)

theorem node
    (hSame : SameButMarks (.node i k p ps cs) t') :
    ∃ ps' cs', t' = .node i k p ps' cs' ∧
      ps'.unmark = ps.unmark ∧
        List.Forall₂ SameButMarks cs cs' := by
  rcases t' with ⟨i', k', p', ps', cs'⟩
  rw [SameButMarks, unmark, unmark, unmarkAll_eq,
    unmarkAll_eq, Tree.node.injEq] at hSame
  rcases hSame with ⟨rfl, rfl, rfl, hProperties, hChildren⟩
  refine ⟨ps', cs', rfl, hProperties, ?_⟩
  rw [← List.forall₂_eq_eq_eq, List.forall₂_map_left_iff,
    List.forall₂_map_right_iff] at hChildren
  exact hChildren.flip

/- One of several trees, and the one in its place. -/
theorem getElem?
    {index : Nat}
    (hAll : List.Forall₂ SameButMarks cs cs')
    (hT : cs[index]? = some t) :
    ∃ t', cs'[index]? = some t' ∧ SameButMarks t t' := by
  induction hAll generalizing index with
  | nil => cases hT
  | cons hHead _ ih =>
      cases index with
      | zero =>
          cases hT
          exact ⟨_, rfl, hHead⟩
      | succ index => exact ih hT

theorem getLast?
    (hAll : List.Forall₂ SameButMarks cs cs')
    (hT : cs.getLast? = some t) :
    ∃ t', cs'.getLast? = some t' ∧ SameButMarks t t' := by
  rw [List.getLast?_eq_getElem?, ← hAll.length_eq]
  rw [List.getLast?_eq_getElem?] at hT
  exact getElem? hAll hT

theorem withInput
    {input : Tree}
    {rest : List Tree}
    (hSame :
      SameButMarks (.node i k p ps (input :: rest)) t') :
    ∃ ps' input' rest',
      t' = .node i k p ps' (input' :: rest') ∧
        ps'.unmark = ps.unmark ∧
          SameButMarks input input' ∧
            List.Forall₂ SameButMarks rest rest' := by
  rcases hSame.node with ⟨ps', cs', rfl, hPs, hAll⟩
  cases hAll with
  | cons hFirst hRest =>
      exact ⟨ps', _, _, rfl, hPs, hFirst, hRest⟩

theorem exists_of_mem
    (hAll : List.Forall₂ SameButMarks cs cs')
    (hT : t' ∈ cs') :
    ∃ t ∈ cs, SameButMarks t t' := by
  induction hAll with
  | nil => cases hT
  | cons hHead _ ih =>
      rcases List.mem_cons.mp hT with rfl | hT
      · exact ⟨_, List.mem_cons_self, hHead⟩
      · rcases ih hT with ⟨t, hMem, hSame⟩
        exact ⟨t, List.mem_cons_of_mem _ hMem, hSame⟩

/- The part of a tree that one with other marks has. -/
theorem exists_of_subtree
    {s' : Tree}
    (hSame : SameButMarks t t')
    (hS : s' ∈ t'.subtrees) :
    ∃ s ∈ t.subtrees, SameButMarks s s' := by
  induction t using Tree.induction generalizing t' with
  | node i k p ps cs ih =>
      rcases hSame.node with ⟨ps', cs', rfl, _, hAll⟩
      rw [subtrees, List.mem_cons, mem_subtreesAll_iff] at hS
      rcases hS with rfl | ⟨c', hC', hS⟩
      · exact ⟨_, mem_subtrees_self _, hSame⟩
      · rcases exists_of_mem hAll hC' with ⟨c, hC, hPart⟩
        rcases ih c hC hPart hS with ⟨s, hMem, hSub⟩
        exact ⟨s, mem_subtrees_of_child hC hMem, hSub⟩

/- All annotations but the mark are the same. -/
theorem lacks
    {key : String}
    (hSame : SameButMarks t t')
    (hKey : key ≠ Properties.skipSort)
    (hLacks : t.Lacks key) :
    t'.Lacks key := by
  intro s' hS'
  rcases hSame.exists_of_subtree hS' with
    ⟨⟨i, k, p, ps, cs⟩, hS, hPart⟩
  rcases hPart.node with ⟨ps', cs', rfl, hPs, _⟩
  exact (Properties.get?_of_unmark hPs hKey).trans
    (hLacks _ hS)

end SameButMarks

end Tree

end Flwor

------------------------------------------------------------
-- Scoping Rules
------------------------------------------------------------

namespace Flwor

namespace Tree

namespace SameButMarks

variable {t t' : Tree}

/- What a projection keeps is told by its annotation. -/
theorem keeps
    {wanted : Set String}
    (hSame : SameButMarks t t')
    (hKeeps : t.properties.Keeps wanted t.visible) :
    t'.properties.Keeps wanted t'.visible := by
  have hVisible := hSame.congr visible_unmark
  rcases t with ⟨i, k, p, ps, cs⟩
  rcases hSame.node with ⟨ps', cs', rfl, hPs, _⟩
  intro names hNames
  rw [hVisible]
  refine hKeeps names ?_
  exact (Properties.vars?_of_unmark hPs
    (by decide)).symm.trans hNames

end SameButMarks

variable {library : Library}

mutual

/- The scoping rules of expressions do not know marks. -/
theorem ReadsFrom.remark
    {names : Set String}
    {t t' : Tree}
    (hReads : ReadsFrom library False names t)
    (hSame : SameButMarks t t') :
    ReadsFrom library False names t' := by
  match hReads with
  | .literal hItem =>
      rcases hSame.node with ⟨ps', cs', rfl, _, _⟩
      exact .literal hItem
  | .emptySequence =>
      rcases hSame.node with ⟨ps', cs', rfl, _, _⟩
      exact .emptySequence
  | .sequence hParts =>
      rcases hSame.node with ⟨ps', cs', rfl, _, hAll⟩
      refine .sequence (fun c' hC' => ?_)
      rcases SameButMarks.exists_of_mem hAll hC' with
        ⟨c, hC, hPart⟩
      exact (hParts c hC).remark hPart
  | .binary hKind hLeft hRight hReadsLeft hReadsRight =>
      rcases hSame.node with ⟨ps', cs', rfl, _, hAll⟩
      rcases SameButMarks.getElem? hAll hLeft with
        ⟨left', hLeft', hSameLeft⟩
      rcases SameButMarks.getElem? hAll hRight with
        ⟨right', hRight', hSameRight⟩
      exact .binary hKind hLeft' hRight'
        (hReadsLeft.remark hSameLeft)
        (hReadsRight.remark hSameRight)
  | .cond hCondition hYes hNo hReadsCondition hReadsYes
      hReadsNo =>
      rcases hSame.node with ⟨ps', cs', rfl, _, hAll⟩
      rcases SameButMarks.getElem? hAll hCondition with
        ⟨condition', hCondition', hSameCondition⟩
      rcases SameButMarks.getElem? hAll hYes with
        ⟨yes', hYes', hSameYes⟩
      rcases SameButMarks.getElem? hAll hNo with
        ⟨no', hNo', hSameNo⟩
      exact .cond hCondition' hYes' hNo'
        (hReadsCondition.remark hSameCondition)
        (hReadsYes.remark hSameYes)
        (hReadsNo.remark hSameNo)
  | .call hName hFunction hArguments =>
      rcases hSame.node with ⟨ps', cs', rfl, _, hAll⟩
      refine .call hName (hAll.length_eq ▸ hFunction)
        (fun c' hC' => ?_)
      rcases SameButMarks.exists_of_mem hAll hC' with
        ⟨c, hC, hPart⟩
      exact (hArguments c hC).remark hPart
  | .variableRef hName hMem =>
      rcases hSame.node with ⟨ps', cs', rfl, _, _⟩
      exact .variableRef hName hMem
  | .pipe hTail hResult =>
      rcases hSame.node with ⟨_, _, rfl, _, hAll⟩
      cases hAll with
      | cons hFinish hMore =>
      rcases hFinish.node with ⟨_, _, rfl, _, hParts⟩
      cases hParts with
      | cons hSameTail hRest =>
      cases hRest with
      | cons hSameResult _ =>
      exact .pipe (hTail.remark hSameTail)
        (hResult.remark hSameResult)

/- Nor do those of stages. -/
theorem Supplies.remark
    {context handed : Set String}
    {t t' : Tree}
    (hSupplies : Supplies library False context handed t)
    (hSame : SameButMarks t t') :
    Supplies library False context handed t' := by
  have hBound := hSame.congr bound_unmark
  have hBinding := hSame.congr binding?_unmark
  have hGroupKeys := hSame.congr groupKeys_unmark
  have hAggregates := hSame.congr groupAggregates_unmark
  match hSupplies with
  | .start hHanded =>
      rcases hSame.node with ⟨_, _, rfl, _, _⟩
      exact .start hHanded
  | .forBind hInput hSource hReads hCheck hVar hHanded =>
      rcases hSame.withInput with
        ⟨ps', input', rest', rfl, hPs, hFirst, hRest⟩
      rcases SameButMarks.getLast? (.cons hFirst hRest)
        hSource with ⟨source', hSource', hSameSource⟩
      refine .forBind (hInput.remark hFirst) hSource'
        (hReads.remark hSameSource) (fun name hName => ?_)
        (hBinding.trans hVar) (by rwa [hBound])
      rw [Properties.var?_of_unmark hPs (by decide)] at hName
      exact hCheck name hName
  | .letBind hInput hVar hLive hValue hReads hCheck
      hHanded =>
      rcases hSame.withInput with
        ⟨ps', input', rest', rfl, hPs, hFirst, hRest⟩
      rcases SameButMarks.getElem? (.cons hFirst hRest)
        hValue with ⟨value', hValue', hSameValue⟩
      refine .letBind (hInput.remark hFirst)
        (hBinding.trans hVar) ?_ hValue'
        (hReads.remark hSameValue) (fun name hName => ?_)
        hHanded
      · rw [Compile.isLive,
          Properties.vars?_of_unmark hPs (by decide)]
        exact hLive
      · rw [Properties.var?_of_unmark hPs (by decide)]
          at hName
        exact hCheck name hName
  | .deadLet _ _ _ hLenient _ _ => exact hLenient.elim
  | .selection hInput hPredicate hReads hHanded =>
      rcases hSame.withInput with
        ⟨ps', input', rest', rfl, _, hFirst, hRest⟩
      rcases SameButMarks.getElem? (.cons hFirst hRest)
        hPredicate with
        ⟨predicate', hPredicate', hSamePredicate⟩
      exact .selection (hInput.remark hFirst) hPredicate'
        (hReads.remark hSamePredicate) hHanded
  | .orderBy hInput hKeeps hOrders hKeys hPresent hHanded =>
      rcases hSame.withInput with
        ⟨ps', input', specs', rfl, _, hFirst, hRest⟩
      have hParts (spec' : Tree) (hSpec' : spec' ∈ specs') :=
        SameButMarks.exists_of_mem hRest hSpec'
      refine .orderBy (hInput.remark hFirst)
        (hFirst.keeps hKeeps) (fun spec' hSpec' => ?_)
        (fun spec' hSpec' key' hKey' => ?_)
        (fun spec' hSpec' hEmpty => ?_) hHanded
      · rcases hParts spec' hSpec' with
          ⟨⟨j, _, _, _, _⟩, hSpec, hSameSpec⟩
        have hOrder := hOrders _ hSpec
        rcases hSameSpec.node with ⟨_, _, rfl, _, _⟩
        exact hOrder
      · rcases hParts spec' hSpec' with
          ⟨⟨j, _, _, _, parts⟩, hSpec, hSameSpec⟩
        rcases hSameSpec.node with ⟨_, parts', rfl, _, hAll⟩
        rcases SameButMarks.getElem? (SameButMarks.symms hAll)
          hKey' with ⟨key, hAt, hSameKey⟩
        exact (hKeys _ hSpec key hAt).remark hSameKey.symm
      · rcases hParts spec' hSpec' with
          ⟨⟨j, _, _, _, parts⟩, hSpec, hSameSpec⟩
        have hSome := hPresent _ hSpec
        rcases hSameSpec.node with ⟨_, parts', rfl, _, hAll⟩
        cases hEmpty
        cases hAll
        exact hSome rfl
  | .groupBy hInput hKeys hSources hHanded =>
      rcases hSame.withInput with
        ⟨ps', input', specs', rfl, _, hFirst, hRest⟩
      exact .groupBy (hInput.remark hFirst)
        (by rwa [hGroupKeys]) (by rwa [hAggregates])
        (by rwa [hBound])
  | .count hInput hVar hHanded =>
      rcases hSame.withInput with
        ⟨ps', input', rest', rfl, _, hFirst, hRest⟩
      exact .count (hInput.remark hFirst)
        (hBinding.trans hVar) hHanded
  | .join hLeft hRight hKeepsLeft hKeepsRight hComparison
      hLeftKey hRightKey hReadsLeft hReadsRight hHandedLeft
      hHandedRight =>
      rcases hSame.node with ⟨_, _, rfl, _, hAll⟩
      cases hAll with
      | cons hSameLeft hMore =>
      cases hMore with
      | cons hMiddle hMore =>
      cases hMore with
      | cons hSameRight hMore =>
      cases hMore
      rcases hMiddle.node with ⟨_, keys', rfl, _, hKeys⟩
      rcases SameButMarks.getElem? hKeys hLeftKey with
        ⟨leftKey', hLeftKey', hSameLeftKey⟩
      rcases SameButMarks.getElem? hKeys hRightKey with
        ⟨rightKey', hRightKey', hSameRightKey⟩
      have hVisible := hSameRight.congr visible_unmark
      exact .join (hLeft.remark hSameLeft)
        (hRight.remark hSameRight)
        (hSameLeft.keeps hKeepsLeft)
        (hSameRight.keeps hKeepsRight) hComparison hLeftKey'
        hRightKey' (hReadsLeft.remark hSameLeftKey)
        (hReadsRight.remark hSameRightKey)
        (by rwa [hVisible]) (by rwa [hVisible])

end

end Tree

end Flwor

------------------------------------------------------------
-- Checks
------------------------------------------------------------

namespace Flwor

namespace Tree

/- The check of a plan does not know marks. -/
theorem firstDefect?_of_marks
    {t t' : Tree}
    {site : Option Site}
    (hSame : SameButMarks t t')
    (hNone : t.firstDefect? site = none) :
    t'.firstDefect? site = none := by
  induction t using Tree.induction generalizing t' site with
  | node i k p ps cs ih =>
      rcases hSame.node with ⟨ps', cs', rfl, _, hAll⟩
      have hKinds : cs'.map kind = cs.map kind := by
        rw [← List.forall₂_eq_eq_eq,
          List.forall₂_map_left_iff,
          List.forall₂_map_right_iff]
        exact (SameButMarks.symms hAll).imp
          (fun _ _ hPart => hPart.symm.congr kind_unmark)
      rw [firstDefect?_eq_none_iff, ownDefect?_eq_none_iff,
        brokenRule?_eq_none_iff] at hNone ⊢
      refine ⟨⟨⟨?_, hNone.1.1.2⟩, hNone.1.2⟩,
        fun j c' hC' => ?_⟩
      · rw [children_node, hKinds]
        exact hNone.1.1.1
      · rcases SameButMarks.getElem?
            (SameButMarks.symms hAll) hC' with ⟨c, hC, hPart⟩
        refine ih c (List.mem_of_getElem? hC) hPart.symm ?_
        rw [children_node, ← hAll.length_eq]
        exact hNone.2 j c hC

end Tree

namespace Plan

namespace MarkedFrom

variable {before after : Plan}
variable (hMarked : before.MarkedFrom after)

include hMarked

theorem tree
    (id : NodeId) :
    Tree.SameButMarks (before.tree id) (after.tree id) := by
  rw [Tree.SameButMarks, ← tree_unmark, hMarked.unmark,
    tree_unmark]

theorem rootTree :
    Tree.SameButMarks before.rootTree after.rootTree := by
  rw [Plan.rootTree, Plan.rootTree, hMarked.root]
  exact hMarked.tree before.root

theorem validate
    (hValid : before.validate = .ok ()) :
    after.validate = .ok () := by
  have hNone := firstDefect?_of_validate hValid
  unfold Plan.validate
  rw [Tree.firstDefect?_of_marks hMarked.rootTree hNone]

end MarkedFrom

end Plan

end Flwor
