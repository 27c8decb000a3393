import Flwor.Proofs.Arena.Descent

/-
  Nodes that lie below themselves.

  A call checks that a node that it attaches has no parent,
  and not where the new parent lies.  If that is the node
  itself, or lies below it, the two close a cycle, which is
  detached from the root; going down from its nodes does not
  come to an end.

  These are the only cycles: a plan without them has one
  after a call if and only if the call attaches a node to
  one that is under it.

  Key definitions include:
    * `Plan.Acyclic`
    * `Plan.Outside`
    * `Plan.looped`

  Key theorems include:
    * `Plan.acyclic_iff_unfolds`
    * `Plan.Moves.acyclic`
    * `PlanCall.acyclic_run_iff`
    * `Plan.Built.acyclic_of_outside`
-/

------------------------------------------------------------
-- One More Link
------------------------------------------------------------

namespace Flwor

section Link

variable {α : Type}
variable {r r' : α → α → Prop}
variable {a b c p : α}

/- A way that may use a new link either does or does not. -/
theorem reflTransGen_of_link
    (hLink : ∀ a b, r' a b → r a b ∨ (a = c ∧ b = p))
    (hOutside : ¬ Relation.ReflTransGen r p c)
    (hWay : Relation.ReflTransGen r' a b) :
    Relation.ReflTransGen r a b ∨
      (Relation.ReflTransGen r a c ∧
        Relation.ReflTransGen r p b) := by
  induction hWay with
  | refl => exact .inl .refl
  | tail _ hStep ih =>
      rcases hLink _ _ hStep with hOld | ⟨rfl, rfl⟩
      · rcases ih with hWay | ⟨hFirst, hSecond⟩
        · exact .inl (hWay.tail hOld)
        · exact .inr ⟨hFirst, hSecond.tail hOld⟩
      · rcases ih with hWay | ⟨_, hSecond⟩
        · exact .inr ⟨hWay, .refl⟩
        · exact (hOutside hSecond).elim

/- A new link closes a cycle only if its ends are linked. -/
theorem not_transGen_of_link
    (hLink : ∀ a b, r' a b → r a b ∨ (a = c ∧ b = p))
    (hOutside : ¬ Relation.ReflTransGen r p c)
    (hAcyclic : ∀ a, ¬ Relation.TransGen r a a)
    (a : α) :
    ¬ Relation.TransGen r' a a := by
  intro hCycle
  rcases Relation.TransGen.head'_iff.mp hCycle with
    ⟨b, hStep, hBack⟩
  have hWay := reflTransGen_of_link hLink hOutside hBack
  rcases hLink _ _ hStep with hOld | ⟨rfl, rfl⟩
  · rcases hWay with hBack | ⟨hFirst, hSecond⟩
    · exact hAcyclic a (Relation.TransGen.head' hOld hBack)
    · exact hOutside (hSecond.trans
        (Relation.ReflTransGen.head hOld hFirst))
  · rcases hWay with hBack | ⟨_, hSecond⟩
    · exact hOutside hBack
    · exact hOutside hSecond

end Link

end Flwor

------------------------------------------------------------
-- Arenas Without Cycles
------------------------------------------------------------

namespace Flwor

namespace Plan

/- No node lies below itself. -/
def Acyclic
    (plan : Plan) : Prop :=
  ∀ x, ¬ plan.Beneath x x

/- A parent that is not under its new child. -/
def Outside
    (plan : Plan)
    (p c : NodeId) : Prop :=
  ¬ plan.Under p c

variable {plan after : Plan}
variable {x p q c old : NodeId}
variable {index : Nat}
variable {t : Tree}

/- A recursion that ends meets no cycle. -/
theorem Unfolds.not_below_self
    (hLinked : plan.Linked)
    (hUnfolds : plan.Unfolds x t) :
    ¬ plan.Beneath x x := by
  induction hUnfolds with
  | node id below hBelow ih =>
      intro hCycle
      rcases Relation.TransGen.tail'_iff.mp hCycle with
        ⟨c, hUnder, hUp⟩
      have hMem := hLinked.up_iff.mp hUp
      exact ih c hMem (Relation.TransGen.head' hUp hUnder)

/- What is listed from a stack can be unfolded. -/
theorem Lists.exists_unfolds
    {stack listed : List NodeId}
    (hLists : plan.Lists stack listed) :
    ∀ x ∈ stack, ∃ t, plan.Unfolds x t := by
  induction hLists with
  | done => exact List.forall_mem_nil _
  | @visit id stack listed _ ih =>
      rw [List.forall_mem_append] at ih
      refine List.forall_mem_cons.mpr ⟨?_, ih.2⟩
      choose! below hBelow using ih.1
      exact ⟨_, .node id below hBelow⟩

/- Without cycles, and only then, every recursion ends. -/
theorem acyclic_iff_unfolds
    (hLinked : plan.Linked) :
    plan.Acyclic ↔ ∀ x, plan.Unfolds x (plan.tree x) := by
  constructor
  · intro hAcyclic x
    exact unfolds_tree hLinked (fun y _ => hAcyclic y)
  · intro hAll x
    exact (hAll x).not_below_self hLinked

/- A node without a parent is under itself only. -/
theorem outside_of_top
    (hTop : plan.parent? p = none)
    (hNe : p ≠ c) :
    plan.Outside p c := by
  intro hUnder
  rcases Relation.ReflTransGen.cases_head hUnder with
    hEq | ⟨q, hUp, _⟩
  · exact hNe hEq
  · rw [Up, hTop] at hUp
    cases hUp

theorem fitsTop_outside :
    FitsTop Outside := by
  intro plan p c hTop hNe
  exact outside_of_top hTop hNe

/- A link to a child from outside closes no cycle. -/
theorem Acyclic.of_link
    (hAcyclic : plan.Acyclic)
    (hOutside : plan.Outside p c)
    (hLink : ∀ x q, after.Up x q →
      plan.Up x q ∨ (x = c ∧ q = p)) :
    after.Acyclic :=
  not_transGen_of_link hLink hOutside hAcyclic

/- Without new links there are no new cycles. -/
theorem Acyclic.of_sub
    (hAcyclic : plan.Acyclic)
    (hSub : ∀ x q, after.Up x q → plan.Up x q) :
    after.Acyclic := by
  intro x hCycle
  exact hAcyclic x (Relation.TransGen.mono hSub x x hCycle)

/- A plan of one node has no links. -/
theorem acyclic_grow_empty
    (k : Kind)
    (payload : Payload)
    (properties : Properties) :
    (empty.grow k payload properties).Acyclic := by
  intro x hCycle
  rcases Relation.TransGen.head'_iff.mp hCycle with
    ⟨q, hUp, _⟩
  unfold Up at hUp
  rw [parent?_grow, parent?,
    node_of_size_le (Nat.zero_le x)] at hUp
  cases hUp

/- The links of an arena after each change. -/
theorem up_grow
    {k : Kind}
    {payload : Payload}
    {properties : Properties} :
    (plan.grow k payload properties).Up x q ↔
      plan.Up x q := by
  unfold Up
  rw [parent?_grow]

theorem up_attach
    (hDetached : plan.Detached c) :
    (plan.attach p index c).Up x q ↔
      plan.Up x q ∨ (x = c ∧ q = p) := by
  unfold Up
  rw [parent?_attach hDetached]
  by_cases hX : x = c
  · rw [if_pos hX, hX, hDetached.parent]
    simp [eq_comm]
  · simp [hX]

theorem up_detach
    (hLinked : plan.Linked)
    (hChild : plan.child? p index = some c) :
    (plan.detach p index c).Up x q ↔
      plan.Up x q ∧ x ≠ c := by
  unfold Up
  rw [parent?_detach hLinked hChild]
  by_cases hX : x = c
  · simp [hX]
  · simp [hX]

theorem up_exchange
    (hLinked : plan.Linked)
    (hChild : plan.child? p index = some old)
    (hDetached : plan.Detached c) :
    (plan.exchange p index old c).Up x q ↔
      (plan.Up x q ∧ x ≠ old) ∨ (x = c ∧ q = p) := by
  have hNe : c ≠ old := by
    rintro rfl
    have hParent := hLinked.parent?_of_child? hChild
    rw [hDetached.parent] at hParent
    cases hParent
  unfold Up
  rw [parent?_exchange hLinked hChild hDetached]
  by_cases hOld : x = old
  · simp [hOld, hNe.symm]
  · rw [if_neg hOld]
    by_cases hX : x = c
    · rw [if_pos hX, hX, hDetached.parent]
      simp [eq_comm]
    · simp [hX, hOld]

/- Each change keeps the arena free of cycles. -/
theorem Move.acyclic
    (hMove : Move Outside plan after)
    (hLinked : plan.Linked)
    (hAcyclic : plan.Acyclic) :
    after.Acyclic := by
  cases hMove with
  | grow k payload properties =>
      exact hAcyclic.of_sub (fun x q hUp => up_grow.mp hUp)
  | attach hDetached hP hIndex hFit =>
      exact hAcyclic.of_link hFit
        (fun x q hUp => (up_attach hDetached).mp hUp)
  | detach hChild =>
      exact hAcyclic.of_sub (fun x q hUp =>
        ((up_detach hLinked hChild).mp hUp).1)
  | exchange hChild hDetached hFit =>
      apply hAcyclic.of_link hFit
      intro x q hUp
      rcases (up_exchange hLinked hChild hDetached).mp hUp
        with hOld | hNew
      · exact .inl hOld.1
      · exact .inr hNew
  | reroot hDetached => exact hAcyclic

theorem Moves.acyclic
    (hMoves : Moves Outside plan after)
    (hSound : plan.Sound)
    (hAcyclic : plan.Acyclic) :
    after.Acyclic := by
  induction hMoves with
  | refl => exact hAcyclic
  | tail hFirst hMove ih =>
      have hMiddle := Moves.sound hFirst hSound
      exact hMove.acyclic hMiddle.linked ih

/-
  A link to a child that the parent is under closes a cycle.
  The way up from the parent is still there, because no link
  to the parent lies on it.
-/
theorem Acyclic.below_self_of_link
    (hAcyclic : plan.Acyclic)
    (hUnder : plan.Under p c)
    (hLink : after.Up c p)
    (hKept : ∀ x q, plan.Up x q → q ≠ p → after.Up x q) :
    after.Beneath c c := by
  have hStill
      {b : NodeId}
      (hWay : plan.Under p b) :
      after.Under p b := by
    induction hWay with
    | refl => exact .refl
    | @tail a b hWay hUp ih =>
        refine ih.tail (hKept a b hUp ?_)
        rintro rfl
        exact hAcyclic b (Relation.TransGen.tail' hWay hUp)
  exact Relation.TransGen.head' hLink (hStill hUnder)

end Plan

end Flwor

------------------------------------------------------------
-- Calls That Close Cycles
------------------------------------------------------------

namespace Flwor

open Plan

namespace PlanCall

variable {plan : Plan}
variable {call : PlanCall}
variable {p c : NodeId}

/-
  A call that succeeds makes the link that it asks for: its
  child was detached, and comes among the children of the
  parent, or takes the place of one of them.
-/
theorem run_of_link?
    (hLinked : plan.Linked)
    (hIds : ∀ id ∈ call.ids, id < plan.size)
    (hDone : (call.run plan).1 = none)
    (hLink : call.link? plan = some (p, c)) :
    plan.Detached c ∧
      ((∃ index,
        (call.run plan).2 = plan.attach p index c) ∨
      ∃ index old, plan.child? p index = some old ∧
        (call.run plan).2 = plan.exchange p index old c) := by
  cases call with
  | append q d =>
      cases hLink
      rcases Edit.append_cases p
          (hIds c (by simp [ids])) with
        ⟨e, hRun⟩ | ⟨hDetached, hRun⟩
      · exact (Edit.failed_of_error hRun hDone).elim
      · exact ⟨hDetached,
          .inl ⟨_, Edit.snd_outcome_of_ok hRun⟩⟩
  | insert q index d =>
      cases hLink
      rcases Edit.insert_cases p index
          (hIds c (by simp [ids])) with
        ⟨e, hRun⟩ | ⟨hDetached, _, hRun⟩
      · exact (Edit.failed_of_error hRun hDone).elim
      · exact ⟨hDetached,
          .inl ⟨_, Edit.snd_outcome_of_ok hRun⟩⟩
  | replaceChild q index new =>
      cases hLink
      rcases Edit.replaceChild_cases p index
          (hIds c (by simp [ids])) with
        ⟨e, hRun⟩ | ⟨old, hChild, hDetached, hRun⟩
      · exact (Edit.failed_of_error hRun hDone).elim
      · exact ⟨hDetached, .inr ⟨_, old, hChild,
          Edit.snd_outcome_of_ok hRun⟩⟩
  | replace old new =>
      rcases Option.map_eq_some_iff.mp hLink with
        ⟨q, hParent, hPair⟩
      cases hPair
      rcases Edit.replace_cases hLinked old
          (hIds c (by simp [ids])) with
        ⟨e, hRun⟩ | ⟨hNone, _, _⟩ |
          ⟨q, index, hQ, hChild, hDetached, hRun⟩
      · exact (Edit.failed_of_error hRun hDone).elim
      · rw [hParent] at hNone
        cases hNone
      · rw [hParent] at hQ
        cases hQ
        exact ⟨hDetached, .inr ⟨index, old, hChild,
          Edit.snd_outcome_of_ok hRun⟩⟩
  | add k payload => cases hLink
  | addWith k payload cs => cases hLink
  | remove q index => cases hLink
  | copy id => cases hLink
  | install d => cases hLink

/-
  A call that succeeds closes a cycle if and only if it
  attaches a node to one that is under it.
-/
theorem acyclic_run_iff
    (hSound : plan.Sound)
    (hAcyclic : plan.Acyclic)
    (hIds : ∀ id ∈ call.ids, id < plan.size)
    (hDone : (call.run plan).1 = none) :
    (call.run plan).2.Acyclic ↔ call.Fits Outside plan := by
  have hLinked := hSound.linked
  constructor
  · intro hAfter p c hLink hUnder
    rcases run_of_link? hLinked hIds hDone hLink with
      ⟨hDetached, ⟨index, hRun⟩ |
        ⟨index, old, hChild, hRun⟩⟩
    · rw [hRun] at hAfter
      refine hAfter c (hAcyclic.below_self_of_link hUnder
        ((up_attach hDetached).mpr (.inr ⟨rfl, rfl⟩)) ?_)
      intro x q hUp _
      exact (up_attach hDetached).mpr (.inl hUp)
    · rw [hRun] at hAfter
      have hUp {x q : NodeId} :=
        up_exchange (x := x) (q := q) hLinked hChild
          hDetached
      refine hAfter c (hAcyclic.below_self_of_link hUnder
        (hUp.mpr (.inr ⟨rfl, rfl⟩)) ?_)
      intro x q hOld hNe
      refine hUp.mpr (.inl ⟨hOld, ?_⟩)
      rintro rfl
      exact hNe (up_unique hOld
        (hLinked.parent?_of_child? hChild))
  · intro hFits
    exact (call.moves_run fitsTop_outside hSound hIds
      (fun _ => hFits)).acyclic hSound hAcyclic

end PlanCall

namespace Plan

variable {plan : Plan}

/-
  If no call attaches a node to one that is under it, then
  no node lies below itself, and going down comes to an end
  from every node of the arena.  The condition is exact: any
  further call that succeeds keeps the arena free of cycles
  if and only if it is such a call.
-/
theorem Built.acyclic_of_outside
    (hBuilt : plan.Built (fun plan call =>
      call.Fits Outside plan)) :
    plan.Acyclic ∧
    (∀ id, plan.Unfolds id (plan.tree id)) ∧
    (∀ id, plan.Lists [id] (plan.subtree id)) ∧
    ∀ call : PlanCall,
      (∀ id ∈ call.ids, id < plan.size) →
      (call.run plan).1 = none →
        ((call.run plan).2.Acyclic ↔
          call.Fits Outside plan) := by
  have hSound := hBuilt.sound
  have hAcyclic : plan.Acyclic := by
    rcases hBuilt.exists_moves fitsTop_outside
        (fun _ _ hFits => hFits) with
      ⟨k, p, ps, hMoves⟩
    exact hMoves.acyclic (sound_grow_empty k p ps)
      (acyclic_grow_empty k p ps)
  have hUnfolds :=
    (acyclic_iff_unfolds hSound.linked).mp hAcyclic
  refine ⟨hAcyclic, hUnfolds,
    fun id => (hUnfolds id).lists, ?_⟩
  intro call hIds hDone
  exact PlanCall.acyclic_run_iff hSound hAcyclic hIds hDone

/- Two nodes beside the root, one below the other. -/
def chained : Plan :=
  PlanCall.runAll
    [.add .sequenceExpr .none, .add .emptySequence .none,
      .append 1 2]
    (ofNode .sequenceExpr .none)

theorem built_chained :
    chained.Built (fun plan call =>
      call.Fits Outside plan) := by
  apply Built.call _ (.append 1 2) (by decide)
  · intro _ p c hLink
    cases hLink
    exact outside_of_top rfl (by decide)
  apply Built.call _ (.add .emptySequence .none) (by decide)
    (by simp [PlanCall.Fits, PlanCall.link?])
  apply Built.call _ (.add .sequenceExpr .none) (by decide)
    (by simp [PlanCall.Fits, PlanCall.link?])
  exact .ofNode .sequenceExpr .none

/- The upper one, attached to the lower one, closes a cycle. -/
theorem acyclic_chained :
    chained.Built (fun plan call =>
        call.Fits Outside plan) ∧
      chained.Acyclic ∧
      ¬ ((PlanCall.append 2 1).run chained).2.Acyclic := by
  have hTree := Built.acyclic_of_outside built_chained
  have hExact := hTree.2.2.2 (.append 2 1) (by decide) rfl
  refine ⟨built_chained, hTree.1, ?_⟩
  intro hAfter
  exact hExact.mp hAfter 2 1 rfl (.single rfl)

/- A node that is attached to itself. -/
def looped : Plan :=
  PlanCall.runAll [.add .sequenceExpr .none, .append 1 1]
    (ofNode .sequenceExpr .none)

/-
  Both calls succeed, the node lies below itself, and a list
  of the nodes below it never comes to an end.
-/
theorem looped_not_acyclic :
    looped.Built (fun _ _ => True) ∧
      looped.Beneath 1 1 ∧
      ¬ ∃ listed, looped.Lists [1] listed := by
  have hBuilt : looped.Built (fun _ _ => True) := by
    apply Built.call _ (.append 1 1) (by decide) (by simp)
    apply Built.call _ (.add .sequenceExpr .none)
      (by decide) (by simp)
    exact .ofNode .sequenceExpr .none
  have hCycle : looped.Beneath 1 1 :=
    .single (show looped.Up 1 1 by rfl)
  refine ⟨hBuilt, hCycle, ?_⟩
  rintro ⟨listed, hLists⟩
  rcases hLists.exists_unfolds 1 (by simp) with
    ⟨t, hUnfolds⟩
  exact hUnfolds.not_below_self hBuilt.sound.linked hCycle

end Plan

end Flwor
