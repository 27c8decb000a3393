import Flwor.Proofs.Convergence.Retention
import Flwor.Proofs.Regroupings.Labels

/-
  A pending regrouping is left alone until it is emitted.

  A step of unnesting adds the labels of the nodes it makes,
  and one that moves a binding adds none.  So the label of a
  join stays the same from the step that has made the join.

  Key definitions include:
    * `Label.Created`
    * `Plan.Orderly`, `Plan.Awaits`

  Key theorems include:
    * `Tree.Unnested.labels_subset`
    * `Tree.Lifted.labels_subset`
    * `Pass.awaits_of_unnested`
    * `Pass.preserves_unnest`
    * `Pass.preserves_letLift`
-/

------------------------------------------------------------
-- Labels of Nested Pipelines
------------------------------------------------------------

namespace Flwor

namespace Tree

variable {outer names : List String}
variable {run : String}
variable {tie : Tie outer}
variable {known : Set Label}
variable {t t' x y : Tree}

/- An operand gives its place to one without labels. -/
theorem Buries.labels_subset
    (hBuries : Buries x y t t')
    (hTidy : t.Tidy)
    (hY : ∀ known, y.labels ⊆ known) :
    t'.labels ⊆ t.labels := by
  induction hBuries with
  | here => exact hY _
  | @inside i k p ps before c c' after hEager _ ih =>
      have hPlain : ¬ (Tree.node i k p ps
          (before ++ c :: after)).label.Marked := by
        refine hTidy.not_marked ?_ ?_ <;> rintro rfl <;>
          cases hEager
      refine labels_plain_subset hPlain (fun d hD => ?_)
      rcases List.mem_append.mp hD with hD | hD
      · exact labels_child_subset (by simp [hD])
      rcases List.mem_cons.mp hD with rfl | hD
      · exact (ih (hTidy.child (by simp))).trans
          (labels_child_subset (by simp))
      · exact labels_child_subset (by simp [hD])

/- The keys and the other stages have labels of the whole. -/
theorem Correlated.labels_subset
    (hCorrelated : Correlated outer run tie names t t')
    (hTidy : t.Tidy) :
    t'.labels ⊆ t.labels ∧
      tie.outerKey.labels ⊆ t.labels ∧
        tie.innerKey.labels ⊆ t.labels := by
  induction hCorrelated with
  | @here p ps input predicate rest _ hStated =>
      have hPart (c : Tree) (hC : c ∈ predicate.children) :
          c.labels ⊆ (Tree.node tie.selection .selection p ps
            (input :: predicate :: rest)).labels :=
        (labels_child_subset hC).trans
          (labels_child_subset (by simp))
      exact ⟨labels_child_subset List.mem_cons_self,
        hPart _ hStated.mem_children.1,
        hPart _ hStated.mem_children.2⟩
  | @after names i k p ps input input' rest _ hStage ih =>
      have hPlain : ¬ (Tree.node i k p ps
          (input :: rest)).label.Marked := by
        refine hTidy.not_marked ?_ (fun _ => hStage.unchecked)
        rintro rfl
        exact absurd hStage.admitted (by simp)
      have hInput : input.labels ⊆
          (Tree.node i k p ps (input :: rest)).labels :=
        labels_child_subset List.mem_cons_self
      rcases ih (hTidy.child List.mem_cons_self) with
        ⟨hStages, hOuter, hInner⟩
      refine ⟨labels_plain_subset hPlain ?_,
        hOuter.trans hInput, hInner.trans hInput⟩
      rw [List.forall_mem_cons]
      exact ⟨hStages.trans hInput, fun c hC =>
        labels_child_subset (List.mem_cons_of_mem _ hC)⟩

/- A join has the labels of its parts, and its own. -/
theorem labels_join_subset
    {j k : NodeId}
    {qs : Properties}
    {left right : Tree}
    (hSelf : (tie.join j k qs left right).label ∈ known)
    (hLeft : left.labels ⊆ known)
    (hOuter : tie.outerKey.labels ⊆ known)
    (hInner : tie.innerKey.labels ⊆ known)
    (hRight : right.labels ⊆ known) :
    (tie.join j k qs left right).labels ⊆ known := by
  refine labels_node_subset (fun _ => hSelf) ?_
  refine forall_mem_triple hLeft ?_ hRight
  exact labels_new_subset (by decide)
    (forall_mem_pair hOuter hInner)

namespace Nested

variable {pipe : Tree}
variable {candidate : Candidate}
variable (nested : Nested outer candidate pipe)

/- What is left of a pipeline has labels of the pipeline. -/
theorem labels_subset
    (hTidy : pipe.Tidy)
    (hOld : pipe.labels ⊆ known) :
    nested.stripped.labels ⊆ known ∧
      nested.tie.outerKey.labels ⊆ known ∧
      nested.tie.innerKey.labels ⊆ known ∧
      nested.result.labels ⊆ known := by
  let finish : Tree := .node candidate.finish .finish nested.q
    nested.qs (nested.tail :: nested.result :: nested.rest)
  have hFinish : finish ∈ pipe.children := by
    have hChildren := congrArg children nested.pipe_eq
    simp [hChildren, finish]
  have hWhole : finish.labels ⊆ known :=
    (labels_child_subset hFinish).trans hOld
  have hTail : nested.tail.labels ⊆ known :=
    (labels_child_subset List.mem_cons_self).trans hWhole
  rcases nested.correlated.labels_subset
      ((hTidy.child hFinish).child List.mem_cons_self) with
    ⟨hStripped, hOuter, hInner⟩
  exact ⟨hStripped.trans hTail, hOuter.trans hTail,
    hInner.trans hTail,
    (labels_child_subset (List.mem_cons_of_mem _
      List.mem_cons_self)).trans hWhole⟩

end Nested

end Tree

end Flwor

------------------------------------------------------------
-- Created Labels
------------------------------------------------------------

namespace Flwor

namespace Label

/-
  The label of a join that waits for its regrouping.  It
  collects a source for the variable of a `let`, and its left
  input numbers the rows.
-/
def awaiting
    (j : NodeId)
    (target source : String)
    (c : NodeId)
    (number : String) : Label where
  id := j
  kind := .join
  properties := [(Properties.leftJoin, .flag true),
    (Properties.regroup, .vars [target, source])]
  input := some (c, .count, some number)

/-
  The labels of the nodes that a step of unnesting makes in
  the place of a stage.
-/
inductive Created
    (plan : Plan)
    (s : Tree) : Label → Prop where
  | joined
      {j : NodeId}
      (hStage : s.kind = .forBind)
      (hNew : plan.size ≤ j) :
      Created plan s ⟨j, .join, [], none⟩
  | awaiting
      {j c : NodeId}
      {target source number : String}
      (hNew : plan.size ≤ j)
      (hTarget : s.binding? = some target) :
      Created plan s (awaiting j target source c number)
  | guarded
      {i j : NodeId}
      {run : String} :
      Created plan s
        ⟨i, .letBind, [(Properties.check, .var run)],
          some (j, .join, none)⟩

variable {plan : Plan}
variable {s t : Tree}
variable {l : Label}

/- A join that waits numbers the rows of its left input. -/
theorem exists_of_awaiting
    {j c : NodeId}
    {target source number : String}
    (hLabel : t.label =
      .awaiting j target source c number) :
    ∃ left, t.children.head? = some left ∧ left.id = c ∧
      left.kind = .count ∧ left.binding? = some number := by
  have hAnnotated : t.label.Annotated := by
    rw [hLabel]
    exact .inr (Option.some_ne_none _)
  have hInput := congrArg Label.input hLabel
  rw [Tree.input_of_annotated hAnnotated] at hInput
  rcases Option.map_eq_some_iff.mp hInput with
    ⟨left, hLeft, hEq⟩
  simp only [Prod.mk.injEq] at hEq
  exact ⟨left, hLeft, hEq⟩

/- What is created is in its place. -/
theorem Created.tidy
    (hCreated : Created plan s l) :
    l.Tidy := by
  cases hCreated with
  | joined =>
      refine tidy_of_not_annotated ?_
      rintro (h | h)
      · exact h rfl
      · exact h rfl
  | awaiting =>
      exact ⟨fun _ => rfl, fun _ => rfl,
        fun _ => ⟨_, _, rfl⟩, fun _ => ⟨_, _, rfl⟩,
        fun h => (h rfl).elim, fun h => (h rfl).elim⟩
  | guarded =>
      exact ⟨fun h => (h rfl).elim, fun h => (h rfl).elim,
        fun h => (h rfl).elim, fun h => (h rfl).elim,
        fun _ => rfl, fun _ => ⟨_, rfl⟩⟩

end Label

namespace Tree

variable {plan : Plan}
variable {s u : Tree}

/- An unchecked slot is not marked. -/
theorem OpenSlot.not_marked
    {i : NodeId}
    {k : Kind}
    {p : Payload}
    {ps : Properties}
    {cs : List Tree}
    (hOpen : OpenSlot k ps)
    (hTidy : (Tree.node i k p ps cs).Tidy) :
    ¬ (Tree.node i k p ps cs).label.Marked := by
  refine hTidy.not_marked ?_ (fun _ => hOpen.2)
  rcases hOpen.1 with rfl | rfl | rfl | rfl <;> simp

section

variable {outer : List String}
variable {tie : Tie outer}
variable {i j k c v : NodeId}
variable {target source number run : String}
variable {left right value : Tree}

/- The label of a left join whose regrouping is pending. -/
theorem label_awaiting :
    (tie.join j k [(Properties.leftJoin, .flag true),
      (Properties.regroup, .vars [target, source])]
      (counter c v number left) right).label =
        .awaiting j target source c number :=
  Label.ext rfl rfl rfl
    (input_of_annotated (.inr (Option.some_ne_none _)))

/- The label of a binding that is guarded by a check. -/
theorem label_guarded
    {qs : Properties} :
    (binder .letBind i c [(Properties.check, .var run)] source
      (tie.join j k qs left right) value).label =
        ⟨i, .letBind, [(Properties.check, .var run)],
          some (j, .join, none)⟩ :=
  Label.ext rfl rfl rfl
    (input_of_annotated (.inl (Option.some_ne_none _)))

end

/- A step of unnesting adds the labels that it creates. -/
theorem Unnested.labels_subset
    {known : Set Label}
    (hUnnested : Unnested plan s u)
    (hTidy : s.Tidy)
    (hOld : s.labels ⊆ known)
    (hNew : ∀ l, Label.Created plan s l → l ∈ known) :
    u.labels ⊆ known := by
  have hPart (c : Tree) (hC : c ∈ s.children) :
      c.labels ⊆ known :=
    (labels_child_subset hC).trans hOld
  cases hUnnested with
  | @extracted i k p ps feeder mid slot slot' x b d j name
      hOpen _ _ hX hBuries =>
      have hPlain := hOpen.not_marked hTidy
      have hSlot : slot.labels ⊆ known := hPart slot (by simp)
      refine labels_plain_subset hPlain
        (List.forall_mem_cons.mpr ⟨?_,
          List.forall_mem_append.mpr ⟨fun c hC =>
            hPart c (by simp [hC]),
            List.forall_mem_singleton.mpr ?_⟩⟩)
      · exact labels_new_subset (by decide) (forall_mem_triple
          (hPart feeder List.mem_cons_self)
          (labels_leaf_subset (by decide))
          ((labels_subset_of_mem hX).trans hSlot))
      · exact (hBuries.labels_subset (hTidy.child (by simp))
          (fun _ => labels_leaf_subset (by decide))).trans hSlot
  | @looped i p ps feeder mid pipe _ _ nested _ _ j _ _ hSize =>
      rcases nested.labels_subset (hTidy.child (by simp))
          (hPart pipe (by simp)) with
        ⟨hStripped, hOuter, hInner, hResult⟩
      refine labels_new_subset (by decide) (forall_mem_triple
        (labels_join_subset ?_ (hPart feeder
          List.mem_cons_self) hOuter hInner hStripped)
        (labels_leaf_subset (by decide)) hResult)
      exact hNew _ (.joined rfl hSize)
  | @collected i p ps feeder x pipe more _ number source target
      nested c v j k last _ hTarget hPending =>
      rcases nested.labels_subset (hTidy.child (by simp))
          (hPart pipe (by simp)) with
        ⟨hStripped, hOuter, hInner, hResult⟩
      have hJoined : (nested.joined number c v j k
          [(Properties.leftJoin, .flag true),
            (Properties.regroup,
              .vars [target, source])]).labels ⊆ known := by
        refine labels_join_subset ?_ (labels_new_subset
          (by decide) (forall_mem_pair (hPart feeder
            List.mem_cons_self) (labels_leaf_subset
              (by decide)))) hOuter hInner hStripped
        exact Set.mem_of_eq_of_mem label_awaiting
          (hNew _ (.awaiting hPending.joinNew hTarget))
      rcases hPending.collector with _ | _
      · exact hJoined
      · refine labels_node_subset (fun _ => ?_)
          (forall_mem_triple hJoined
            (labels_leaf_subset (by decide)) hResult)
        exact Set.mem_of_eq_of_mem label_guarded
          (hNew _ .guarded)

end Tree

end Flwor

------------------------------------------------------------
-- Labels of Moved Bindings
------------------------------------------------------------

namespace Flwor

namespace Tree

variable {name : String}
variable {reads : List String}
variable {b : NodeId}
variable {q : Payload}
variable {ps : Properties}
variable {feeder s t u : Tree}
variable {rest : List Tree}
variable {known : Set Label}

/- What feeds the binding fed another stage before. -/
theorem Inserts.feeder_mem
    (hInserts : Inserts name reads b q ps feeder rest t u) :
    feeder ∈ t.subtrees := by
  induction hInserts with
  | here =>
      exact mem_subtrees_of_child List.mem_cons_self
        (mem_subtrees_self feeder)
  | hop _ _ ih =>
      exact mem_subtrees_of_child List.mem_cons_self ih

/- What a binding may hop is not marked. -/
theorem Passable.not_marked
    {i : NodeId}
    {k : Kind}
    {p : Payload}
    {cs : List Tree}
    (hKind : Passable k ps)
    (hTidy : (Tree.node i k p ps cs).Tidy) :
    ¬ (Tree.node i k p ps cs).label.Marked := by
  refine hTidy.not_marked ?_ (fun _ => hKind.2)
  rcases hKind.1 with rfl | rfl <;> simp

/- A binding behind other stages leaves them as they are. -/
theorem Inserts.labels_subset
    (hInserts : Inserts name reads b q ps feeder rest t u)
    (hTidy : t.Tidy)
    (hOld : t.labels ⊆ known)
    (hBind : (Tree.node b .letBind q ps
      (feeder :: rest)).labels ⊆ known) :
    u.labels ⊆ known := by
  induction hInserts with
  | here hPasses =>
      have hPlain :=
        (passable_of_letsPass hPasses).not_marked hTidy
      refine labels_plain_subset hPlain
        (List.forall_mem_cons.mpr ⟨hBind, fun c hC => ?_⟩)
      exact (labels_child_subset
        (List.mem_cons_of_mem _ hC)).trans hOld
  | hop hPasses _ ih =>
      have hPlain :=
        (passable_of_letsPass hPasses).not_marked hTidy
      refine labels_plain_subset hPlain
        (List.forall_mem_cons.mpr ⟨?_, fun c hC => ?_⟩)
      · exact ih (hTidy.child List.mem_cons_self)
          ((labels_child_subset List.mem_cons_self).trans hOld)
      · exact (labels_child_subset
          (List.mem_cons_of_mem _ hC)).trans hOld

/-
  A subtree that feeds no annotated node is replaced, and all
  labels around it stay.
-/
theorem labels_mapAt_subset
    (hShaped : t.Shaped)
    (hNodup : t.ids.Nodup)
    (hTidy : t.Tidy)
    (hS : s ∈ t.subtrees)
    (hKind : s.kind ≠ .variable ∧ s.kind ≠ .join ∧
      s.kind ≠ .count)
    (hOld : t.labels ⊆ known)
    (hNew : u.labels ⊆ known) :
    (t.mapAt s.id (fun _ => u)).labels ⊆ known := by
  intro l hL
  refine (labels_mapAt (fun r hR => ?_) hL).elim
    (fun hL => hOld hL) (fun hL => hNew hL)
  exact label_mapAt hShaped hNodup hTidy hS hKind.1
    (fun r hR hAnnotated hHead => (head_ne_of_kind hTidy
      hKind.2.1 hKind.2.2 hR hAnnotated hHead).elim) hR

/- A binding that is put in takes nothing away. -/
theorem Inserts.ids_subset
    (hInserts : Inserts name reads b q ps feeder rest t u) :
    ∀ x, x ∈ t.ids ∨ x ∈ b :: idsAll rest → x ∈ u.ids := by
  induction hInserts with
  | here =>
      intro x hX
      simp only [ids, idsAll, List.mem_cons,
        List.mem_append] at hX ⊢
      tauto
  | hop _ _ ih =>
      intro x hX
      have hBelow := ih x
      simp only [ids, idsAll, List.mem_cons,
        List.mem_append] at hX hBelow ⊢
      tauto

/- No node is lost when a binding is moved. -/
theorem Lifted.ids_subset
    (hLifted : Lifted s u)
    (hNodup : s.ids.Nodup) :
    ∀ x ∈ s.ids, x ∈ u.ids := by
  cases hLifted with
  | hopped _ _ _ hInserts _ =>
      intro x hX
      refine hInserts.ids_subset x ?_
      simp only [ids, idsAll, List.mem_cons,
        List.mem_append] at hX ⊢
      tauto
  | @outward o l p qs feeder mid slot pipe b q ps input rest
      _ _ _ _ _ cs _ _ _ _ _ _ hBuries hEnd hChild hStaged =>
      rcases mem_slot hBuries hEnd hChild hStaged with
        ⟨hFinish, hBind⟩
      have hBindMem := mem_subtrees_of_all hFinish hBind
      have hSlot : slot.ids.Nodup :=
        nodup_ids_of_mem (List.nodup_cons.mp hNodup).2 (by simp)
      let moved : Tree := .node b .letBind q ps (feeder :: rest)
      let cut : Tree := slot.mapAt b (fun _ => input)
      have hPart {c : Tree}
          (hC : c ∈ moved :: (mid ++ [cut])) :
          ∀ x ∈ c.ids, x ∈ (Tree.node o l p qs
            (moved :: (mid ++ [cut]))).ids :=
        ids_subset
          (mem_subtrees_of_child hC (mem_subtrees_self c))
      have hMoved := hPart (c := moved) List.mem_cons_self
      have hCut := hPart (c := cut) (by simp)
      intro x hX
      rcases List.mem_cons.mp hX with rfl | hX
      · exact List.mem_cons_self
      rcases mem_idsAll_iff.mp hX with ⟨c, hC, hXC⟩
      rcases List.mem_cons.mp hC with rfl | hC
      · exact hMoved x (List.mem_cons_of_mem _
          (List.mem_append_left _ hXC))
      rcases List.mem_append.mp hC with hC | hC
      · exact hPart (by simp [hC]) x hXC
      cases List.mem_singleton.mp hC
      rcases mem_ids_mapAt hSlot hBindMem hXC with hX | hXBind
      · exact hCut x hX
      rcases List.mem_cons.mp hXBind with rfl | hXBelow
      · exact hMoved _ List.mem_cons_self
      rcases List.mem_append.mp hXBelow with hX | hX
      · exact hCut x (ids_subset (mem_subtrees_mapAt
          (mem_ids_iff.mpr ⟨_, hBindMem, rfl⟩)) x hX)
      · exact hMoved x (List.mem_cons_of_mem _
          (List.mem_append_right _ hX))

/- A step that moves a binding adds no label. -/
theorem Lifted.labels_subset
    (hLifted : Lifted s u)
    (hShaped : s.Shaped)
    (hNodup : s.ids.Nodup)
    (hTidy : s.Tidy) :
    u.labels ⊆ s.labels := by
  cases hLifted with
  | @hopped b q ps input rest feeder u _ _ hOpen _ _ hInserts
      _ =>
      have hInput : input.labels ⊆
          (Tree.node b .letBind q ps (input :: rest)).labels :=
        labels_child_subset List.mem_cons_self
      have hPlain : ¬ (Tree.node b .letBind q ps
          (input :: rest)).label.Marked :=
        hTidy.not_marked (by simp) (fun _ => hOpen)
      refine hInserts.labels_subset
        (hTidy.child List.mem_cons_self) hInput
        (labels_plain_subset hPlain
          (List.forall_mem_cons.mpr ⟨?_, fun c hC =>
            labels_child_subset (List.mem_cons_of_mem _ hC)⟩))
      exact (labels_subset_of_mem
        hInserts.feeder_mem).trans hInput
  | @outward o l p qs feeder mid slot pipe b q ps input rest
      _ _ _ _ _ cs _ hOpen _ _ hOwner _ hBuries hEnd hChild
      hStaged =>
      rcases mem_slot hBuries hEnd hChild hStaged with
        ⟨hFinish, hBind⟩
      have hBindMem := mem_subtrees_of_all hFinish hBind
      have hSlot : slot ∈ (Tree.node o l p qs
          (feeder :: (mid ++ [slot]))).children := by simp
      have hSlotMem := mem_subtrees_of_child hSlot
        (mem_subtrees_self slot)
      have hSlotLabels := labels_subset_of_mem hSlotMem
      have hPart (c : Tree) (hC : c ∈ input :: rest) :=
        (labels_child_subset hC).trans
          ((labels_subset_of_mem hBindMem).trans hSlotLabels)
      have hPlain := hOwner.not_marked hTidy
      have hBindPlain : ¬ (Tree.node b .letBind q ps
          (input :: rest)).label.Marked :=
        (hTidy.subtree (mem_subtrees_trans hBindMem
          hSlotMem)).not_marked (by simp) (fun _ => hOpen)
      refine labels_plain_subset hPlain
        (List.forall_mem_cons.mpr ⟨?_,
          List.forall_mem_append.mpr ⟨fun c hC =>
            labels_child_subset (by simp [hC]),
            List.forall_mem_singleton.mpr ?_⟩⟩)
      · refine labels_plain_subset hBindPlain
          (List.forall_mem_cons.mpr ⟨?_, fun c hC =>
            hPart c (List.mem_cons_of_mem _ hC)⟩)
        exact labels_child_subset List.mem_cons_self
      · exact labels_mapAt_subset
          (hShaped.subtree hSlotMem)
          (nodup_ids_of_subtree hNodup hSlotMem)
          (hTidy.subtree hSlotMem) hBindMem (by simp)
          hSlotLabels (hPart input List.mem_cons_self)

end Tree

end Flwor

------------------------------------------------------------
-- Orderly Plans
------------------------------------------------------------

namespace Flwor

namespace Plan

/- A plan in shape with all annotations in their places. -/
structure Orderly
    (plan : Plan) : Prop where
  straight : plan.Straight
  tidy : plan.rootTree.Tidy

/- A node is a join, and has this label while it is reached. -/
structure Awaits
    (l : Label)
    (plan : Plan) : Prop where
  lt : l.id < plan.size
  kind : plan.kind l.id = .join
  only : ∀ l' ∈ plan.rootTree.labels, l'.kind = .join →
    l'.id = l.id → l' = l

variable {plan after : Plan}
variable {s u : Tree}
variable {l : Label}

/- The join itself is kept anyway. -/
theorem Awaits.of_retains
    (hAwaits : plan.Awaits l)
    (hRetains : plan.Retains after)
    (hOnly : ∀ l' ∈ after.rootTree.labels, l'.kind = .join →
      l'.id = l.id → l' = l) :
    after.Awaits l :=
  ⟨hAwaits.lt.trans_le hRetains.size,
    (hRetains.kind _ hAwaits.lt).trans hAwaits.kind, hOnly⟩

namespace Orderly

/- A plan that is accepted without annotations is orderly. -/
theorem of_validate
    (hLinked : plan.Linked)
    (hValid : plan.validate = .ok ())
    (hPlain : plan.Plain) :
    plan.Orderly where
  straight := ⟨⟨hLinked, root_lt_of_validate hValid⟩,
    shaped_of_validate hValid⟩
  tidy := Tree.tidy_of_lacks hPlain.check hPlain.regroup

variable (hOrderly : plan.Orderly)

include hOrderly

theorem tidy_subtree
    (hS : s ∈ plan.rootTree.subtrees) :
    s.Tidy :=
  hOrderly.tidy.subtree hS

/- A subtree gives its place to one with tidy labels. -/
theorem of_mapAt
    (hAfter : after.Sound)
    (hS : s ∈ plan.rootTree.subtrees)
    (hRole : s.SameRole u)
    (hShaped : u.Shaped)
    (hTree : after.rootTree =
      plan.rootTree.mapAt s.id (fun _ => u))
    (hTidy : ∀ l ∈ after.rootTree.labels, l.Tidy) :
    after.Orderly :=
  ⟨hOrderly.straight.of_mapAt hAfter hS hRole hShaped hTree,
    Tree.tidy_iff.mpr hTidy⟩

/- No node is lost where a subtree is replaced by more. -/
theorem reaches_of_mapAt
    {id : NodeId}
    (hAfter : after.Sound)
    (hS : s ∈ plan.rootTree.subtrees)
    (hIds : ∀ x ∈ s.ids, x ∈ u.ids)
    (hTree : after.rootTree =
      plan.rootTree.mapAt s.id (fun _ => u))
    (hReach : plan.Reaches id) :
    after.Reaches id := by
  have hSound := hOrderly.straight.sound
  rcases hSound.exists_of_reaches hReach with ⟨r, hR, rfl⟩
  have hNew : r.id ∈ after.rootTree.ids := by
    rw [hTree]
    rcases Tree.mem_ids_mapAt hSound.holds_rootTree.2.2 hS
        (Tree.mem_ids_iff.mpr ⟨r, hR, rfl⟩) with hX | hX
    · exact hX
    · exact Tree.ids_subset (Tree.mem_subtrees_mapAt
        (Tree.mem_ids_iff.mpr ⟨s, hS, rfl⟩)) _ (hIds _ hX)
  rcases Tree.mem_ids_iff.mp hNew with ⟨r', hR', hId⟩
  exact hId ▸ hAfter.reaches_of_subtree hR'

/- The labels of a plan where a subtree is replaced. -/
theorem labels_subset
    {known : Set Label}
    (hS : s ∈ plan.rootTree.subtrees)
    (hKind : s.kind ≠ .variable ∧ s.kind ≠ .join ∧
      s.kind ≠ .count)
    (hTree : after.rootTree =
      plan.rootTree.mapAt s.id (fun _ => u))
    (hOld : plan.rootTree.labels ⊆ known)
    (hNew : u.labels ⊆ known) :
    after.rootTree.labels ⊆ known := by
  rw [hTree]
  exact Tree.labels_mapAt_subset hOrderly.straight.shaped
    hOrderly.straight.sound.holds_rootTree.2.2 hOrderly.tidy
    hS hKind hOld hNew

end Orderly

end Plan

namespace Tree

variable {plan : Plan}
variable {s u : Tree}

theorem OpenSlot.kind_ne
    {k : Kind}
    {ps : Properties}
    (hOpen : OpenSlot k ps) :
    k ≠ .variable ∧ k ≠ .join ∧ k ≠ .count := by
  rcases hOpen.1 with rfl | rfl | rfl | rfl <;> simp

theorem Unnested.kind_ne
    (hUnnested : Unnested plan s u) :
    s.kind ≠ .variable ∧ s.kind ≠ .join ∧
      s.kind ≠ .count := by
  cases hUnnested with
  | extracted hOpen => exact hOpen.kind_ne
  | collected => simp
  | looped => simp

theorem Lifted.kind_ne
    (hLifted : Lifted s u) :
    s.kind ≠ .variable ∧ s.kind ≠ .join ∧
      s.kind ≠ .count := by
  cases hLifted with
  | hopped => simp
  | outward _ _ _ hOwner => exact hOwner.kind_ne

end Tree

namespace Pass

open Plan

variable {plan middle next after : Plan}
variable {stage join : NodeId}
variable {l : Label}

/-
  A step of unnesting keeps the plan orderly, and adds only
  the labels of what it creates at the stage.
-/
theorem ensures_unnest_labels
    (hOrderly : plan.Orderly)
    (hReach : plan.Reaches stage) :
    (unnestStage stage).Ensures plan (fun done after =>
      (done = false → after = plan) ∧
        (done = true → after.Orderly ∧ ∃ s ∈
          plan.rootTree.subtrees, s.id = stage ∧
            ∀ l ∈ after.rootTree.labels,
              l ∈ plan.rootTree.labels ∨
                Label.Created plan s l)) := by
  refine (ensures_unnested hOrderly.straight hReach).mono ?_
  intro done after hSwaps
  refine ⟨hSwaps.kept, fun hDone => ?_⟩
  rcases hSwaps.swapped hDone with
    ⟨s, u, hS, ⟨hId, hUnnested⟩, hAfter, hTree⟩
  have hShaped := hOrderly.straight.shaped_subtree hS
  have hLabels : after.rootTree.labels ⊆
      plan.rootTree.labels ∪ {l | Label.Created plan s l} :=
    hOrderly.labels_subset hS hUnnested.kind_ne hTree
      Set.subset_union_left
      (hUnnested.labels_subset (hOrderly.tidy_subtree hS)
        ((Tree.labels_subset_of_mem hS).trans
          Set.subset_union_left)
        (fun l hL => .inr hL))
  refine ⟨hOrderly.of_mapAt hAfter hS
    (hUnnested.sameRole hShaped) (hUnnested.shaped hShaped)
    hTree (fun l hL => ?_), s, hS, hId, hLabels⟩
  rcases hLabels hL with hL | hL
  · exact Tree.tidy_iff.mp hOrderly.tidy l hL
  · exact hL.tidy

/-
  A step that moves a binding adds no label to the plan, and
  loses no node.
-/
theorem ensures_lift_labels
    (hOrderly : plan.Orderly)
    (hReach : plan.Reaches stage) :
    (liftBinding stage).Ensures plan (fun done after =>
      (done = false → after = plan) ∧
        (done = true → after.Orderly ∧
          after.rootTree.labels ⊆ plan.rootTree.labels ∧
          ∀ id, plan.Reaches id → after.Reaches id)) := by
  refine (achieves_lifted hOrderly.straight
    hReach).ensures.mono ?_
  intro done after hSwaps
  refine ⟨hSwaps.kept, fun hDone => ?_⟩
  rcases hSwaps.swapped hDone with
    ⟨s, u, hS, ⟨hLifted, hNew⟩, hAfter, hTree⟩
  have hShaped := hOrderly.straight.shaped_subtree hS
  have hNodup := Tree.nodup_ids_of_subtree
    hOrderly.straight.sound.holds_rootTree.2.2 hS
  have hLabels := hOrderly.labels_subset hS hLifted.kind_ne
    hTree le_rfl ((hLifted.labels_subset hShaped hNodup
      (hOrderly.tidy_subtree hS)).trans
        (Tree.labels_subset_of_mem hS))
  exact ⟨hOrderly.of_mapAt hAfter hS
    (hLifted.sameRole hShaped) hNew hTree
    (fun l hL => Tree.tidy_iff.mp hOrderly.tidy l (hLabels hL)),
    hLabels, fun _ => hOrderly.reaches_of_mapAt hAfter hS
      (hLifted.ids_subset hNodup) hTree⟩

theorem preserves_unnest_orderly :
    unnest.Preserves Orderly :=
  fun _ _ hOrderly hReach =>
    (ensures_unnest_labels hOrderly hReach).mono
      (fun _ _ hAfter => ⟨hAfter.1,
        fun hDone => (hAfter.2 hDone).1⟩)

/-
  The join that a step makes of a `let` waits for a regrouping
  that collects for its variable.
-/
theorem awaits_of_unnested
    {target : String}
    (hOrderly : plan.Orderly)
    (hReach : plan.Reaches stage)
    (hKind : plan.kind stage = .letBind)
    (hTarget : (plan.tree stage).binding? = some target)
    (hRun : (unnest.transform stage).run plan =
      (.ok true, after))
    (hOld : ¬ plan.Reaches join)
    (hNew : after.Reaches join)
    (hJoin : after.kind join = .join) :
    ∃ source c number,
      .awaiting join target source c number ∈
          after.rootTree.labels ∧
        after.Awaits
          (.awaiting join target source c number) := by
  have hSound := hOrderly.straight.sound
  rcases (ensures_unnest_labels hOrderly hReach true after
      hRun).2 rfl with ⟨hAfter, s, hS, rfl, hLabels⟩
  have hAfterSound := hAfter.straight.sound
  rcases hSound.holds_rootTree with ⟨hTop, hHolds, hNodup⟩
  rcases hAfterSound.holds_rootTree with
    ⟨_, hAfterHolds, hAfterNodup⟩
  rcases hAfterSound.exists_of_reaches hNew with
    ⟨r, hR, rfl⟩
  have hLabel : r.label ∈ after.rootTree.labels :=
    ⟨.inl ((hAfterHolds r hR).kind.symm.trans hJoin), r, hR,
      rfl⟩
  have hTree := hHolds.tree_eq hSound.linked hTop hS
  have hLet : s.kind = .letBind :=
    (hHolds s hS).kind.symm.trans hKind
  have hCreated : Label.Created plan s r.label := by
    refine (hLabels _ hLabel).resolve_left ?_
    rintro ⟨_, s', hS', hEq⟩
    have hId : s'.id = r.id := congrArg Label.id hEq
    exact hOld (hId ▸ hSound.reaches_of_subtree hS')
  have hOnly (source : String) (c : NodeId) (number : String)
      (hEq : r.label =
        .awaiting r.id target source c number) :
      after.Awaits (.awaiting r.id target source c number) := by
    refine ⟨(hAfterHolds r hR).lt, hJoin, ?_⟩
    rintro _ ⟨_, r', hR', rfl⟩ _ hId
    rw [Tree.eq_of_id_eq hAfterNodup hR' hR hId]
    exact hEq
  rw [hTree] at hTarget
  generalize hEq : r.label = l at hCreated
  have hId : r.id = l.id := congrArg Label.id hEq
  have hLabelKind : r.kind = l.kind := congrArg Label.kind hEq
  cases hCreated with
  | joined hFor => cases hLet.symm.trans hFor
  | @awaiting j c target' source number _ hTarget' =>
      cases hTarget.symm.trans hTarget'
      cases hId
      exact ⟨source, c, number, hEq ▸ hLabel,
        hOnly source c number hEq⟩
  | guarded =>
      cases ((hAfterHolds r hR).kind.symm.trans
        hJoin).symm.trans hLabelKind

/- While plans are orderly a label that waits stays. -/
theorem preserves_unnest
    (l : Label) :
    unnest.Preserves
      (fun plan => plan.Orderly ∧ plan.Awaits l) := by
  intro plan stage ⟨hOrderly, hAwaits⟩ hReach done after hRun
  rcases ensures_unnest_labels hOrderly hReach done after hRun
    with ⟨hSame, hDone⟩
  refine ⟨hSame, fun hTrue => ?_⟩
  subst hTrue
  rcases hDone rfl with ⟨hAfter, s, _, _, hLabels⟩
  refine ⟨hAfter, hAwaits.of_retains
    (retains_unnest ⟨stage, hReach, hRun⟩) ?_⟩
  intro l' hL' hKind hId
  rcases hLabels l' hL' with hOld | hCreated
  · exact hAwaits.only l' hOld hKind hId
  -- A join that is new has another name.
  have hLt := hAwaits.lt
  rw [← hId] at hLt
  cases hCreated with
  | joined _ hNew => exact absurd hNew (not_le.mpr hLt)
  | awaiting hNew _ => exact absurd hNew (not_le.mpr hLt)
  | guarded => cases hKind

theorem preserves_letLift_orderly :
    letLift.Preserves Orderly :=
  fun _ _ hOrderly hReach =>
    (ensures_lift_labels hOrderly hReach).mono
      (fun _ _ hAfter => ⟨hAfter.1,
        fun hDone => (hAfter.2 hDone).1⟩)

theorem preserves_letLift
    (l : Label) :
    letLift.Preserves (fun plan => plan.Orderly ∧
      plan.Awaits l ∧ plan.Reaches l.id) := by
  intro plan stage ⟨hOrderly, hAwaits, hJoin⟩ hReach done
    after hRun
  rcases ensures_lift_labels hOrderly hReach done after hRun
    with ⟨hSame, hDone⟩
  refine ⟨hSame, fun hTrue => ?_⟩
  subst hTrue
  rcases hDone rfl with ⟨hAfter, hLabels, hKept⟩
  exact ⟨hAfter, hAwaits.of_retains
    (retains_letLift ⟨stage, hReach, hRun⟩)
    (fun l' hL' => hAwaits.only l' (hLabels hL')),
    hKept _ hJoin⟩

end Pass

end Flwor
