import Mathlib.Logic.Relation
import Flwor.Proofs.Rewriting.Copies

/-
  The calls that change the shape of a plan, and the moves
  that they are made of.

  A call adds nodes, attaches or detaches a node, exchanges
  one child for another, or makes another node the root.
  Each call on a plan whose links are in order makes moves
  only, and a call that fails makes none, except that of a
  node with children: it may fail at a later child.

  What holds of all plans that calls lead to is therefore
  shown for single moves.

  Key definitions include:
    * `PlanCall`
    * `PlanCall.run`
    * `PlanCall.link?`
    * `Plan.Sound`
    * `Plan.Move`, `Plan.Moves`
    * `Plan.Built`

  Key theorems include:
    * `PlanCall.moves_run`
    * `PlanCall.run_eq_of_failed`
    * `Plan.Moves.sound`
    * `Plan.Built.exists_moves`
-/

------------------------------------------------------------
-- Calls
------------------------------------------------------------

namespace Flwor

/- What is left of an edit: whether it failed, and a plan. -/
def Edit.outcome
    {α : Type}
    (edit : Edit α)
    (plan : Plan) : Option Failure × Plan :=
  match edit.run plan with
  | (.ok _, after) => (none, after)
  | (.error e, after) => (some e, after)

/- The calls that change the shape of a plan. -/
inductive PlanCall where
  | add
      (kind : Kind)
      (payload : Payload)
  | addWith
      (kind : Kind)
      (payload : Payload)
      (children : List NodeId)
  | append (parent child : NodeId)
  | insert
      (parent : NodeId)
      (index : Nat)
      (child : NodeId)
  | remove
      (parent : NodeId)
      (index : Nat)
  | replaceChild
      (parent : NodeId)
      (index : Nat)
      (new : NodeId)
  | replace (old new : NodeId)
  | copy (id : NodeId)
  | install (document : Document)

namespace PlanCall

/- The failure of a call, if it fails, and what it leaves. -/
def run : PlanCall → Plan → Option Failure × Plan
  | .add kind payload =>
      (Edit.add kind payload []).outcome
  | .addWith kind payload children =>
      (Edit.addWith kind payload children).outcome
  | .append parent child =>
      (Edit.append parent child).outcome
  | .insert parent index child =>
      (Edit.insert parent index child).outcome
  | .remove parent index =>
      (Edit.remove parent index).outcome
  | .replaceChild parent index new =>
      (Edit.replaceChild parent index new).outcome
  | .replace old new => (Edit.replace old new).outcome
  | .copy id => (Edit.copy id).outcome
  | .install document => (Edit.install document).outcome

/- What one call after the other leaves. -/
def runAll
    (calls : List PlanCall)
    (plan : Plan) : Plan :=
  calls.foldl (fun plan call => (call.run plan).2) plan

/- The nodes that a call names. -/
def ids : PlanCall → List NodeId
  | .add _ _ => []
  | .addWith _ _ children => children
  | .append parent child => [parent, child]
  | .insert parent _ child => [parent, child]
  | .remove parent _ => [parent]
  | .replaceChild parent _ new => [parent, new]
  | .replace old new => [old, new]
  | .copy id => [id]
  | .install _ => []

/- A call for one more node with given children. -/
def isAddWith : PlanCall → Bool
  | .addWith _ _ _ => true
  | _ => false

/-
  The link that a call makes among the nodes that it names:
  the parent, and the node that becomes its child.
-/
def link?
    (plan : Plan) : PlanCall → Option (NodeId × NodeId)
  | .append parent child => some (parent, child)
  | .insert parent _ child => some (parent, child)
  | .replaceChild parent _ new => some (parent, new)
  | .replace old new =>
      (plan.parent? old).map (fun parent => (parent, new))
  | _ => none

end PlanCall

end Flwor

------------------------------------------------------------
-- Moves
------------------------------------------------------------

namespace Flwor

namespace Plan

/- The links are in order, and the root lies in the arena. -/
structure Sound
    (plan : Plan) : Prop where
  linked : plan.Linked
  root_lt : plan.root < plan.size

/-
  One change of an arena.  A link between a parent and a new
  child must be fit to be made.
-/
inductive Move
    (fit : Plan → NodeId → NodeId → Prop) :
    Plan → Plan → Prop where
  | grow
      (plan : Plan)
      (kind : Kind)
      (payload : Payload)
      (properties : Properties) :
      Move fit plan (plan.grow kind payload properties)
  | attach
      {plan : Plan}
      {p c : NodeId}
      {index : Nat}
      (hDetached : plan.Detached c)
      (hP : p < plan.size)
      (hIndex : index ≤ (plan.children p).length)
      (hFit : fit plan p c) :
      Move fit plan (plan.attach p index c)
  | detach
      {plan : Plan}
      {p c : NodeId}
      {index : Nat}
      (hChild : plan.child? p index = some c) :
      Move fit plan (plan.detach p index c)
  | exchange
      {plan : Plan}
      {p old new : NodeId}
      {index : Nat}
      (hChild : plan.child? p index = some old)
      (hDetached : plan.Detached new)
      (hFit : fit plan p new) :
      Move fit plan (plan.exchange p index old new)
  | reroot
      {plan : Plan}
      {new : NodeId}
      (hDetached : plan.Detached new) :
      Move fit plan { plan with root := new }

/- Any number of changes. -/
abbrev Moves
    (fit : Plan → NodeId → NodeId → Prop) :
    Plan → Plan → Prop :=
  Relation.ReflTransGen (Move fit)

variable {plan after : Plan}
variable {fit : Plan → NodeId → NodeId → Prop}

/- Edits leave the root where it is. -/
theorem Edited.root_lt
    {touched moved : Set NodeId}
    (hEdited : plan.Edited touched moved after)
    (hRoot : plan.root < plan.size) :
    after.root < after.size := by
  rw [hEdited.root]
  exact hEdited.lt hRoot

/- All new links below topmost nodes are fit. -/
def FitsTop
    (fit : Plan → NodeId → NodeId → Prop) : Prop :=
  ∀ plan p c, plan.parent? p = none → p ≠ c → fit plan p c

theorem fitsTop_true :
    FitsTop (fun _ _ _ => True) := by
  intro plan p c hTop hNe
  trivial

/- A detached node can be the root. -/
theorem Linked.reroot
    (hLinked : plan.Linked)
    {new : NodeId}
    (hDetached : plan.Detached new) :
    ({ plan with root := new } : Plan).Linked :=
  ⟨hLinked.mem_children_iff, hLinked.nodup,
    hDetached.parent⟩

/- Each change keeps the links in order. -/
theorem Move.sound
    (hMove : Move fit plan after)
    (hSound : plan.Sound) :
    after.Sound := by
  rcases hSound with ⟨hLinked, hRoot⟩
  cases hMove with
  | grow k payload properties =>
      constructor
      · exact hLinked.grow k payload properties
      · exact (edited_grow plan k payload
          properties).root_lt hRoot
  | attach hDetached hP hIndex hFit =>
      constructor
      · exact hLinked.attach hDetached hP hIndex
      · exact (edited_attach hDetached hP).root_lt hRoot
  | detach hChild =>
      constructor
      · exact hLinked.detach hChild
      · exact (edited_detach hLinked hChild).root_lt hRoot
  | exchange hChild hDetached hFit =>
      constructor
      · exact hLinked.exchange hChild hDetached
      · exact (edited_exchange hLinked hChild
          hDetached).root_lt hRoot
  | reroot hDetached =>
      exact ⟨hLinked.reroot hDetached, hDetached.lt⟩

theorem Moves.sound
    (hMoves : Moves fit plan after)
    (hSound : plan.Sound) :
    after.Sound := by
  induction hMoves with
  | refl => exact hSound
  | tail _ hMove ih => exact hMove.sound ih

end Plan

end Flwor

------------------------------------------------------------
-- Calls That Make One Link
------------------------------------------------------------

/-
  Either the call fails and changes nothing, or it makes one
  move, whose conditions are those that it has checked.
-/

namespace Flwor

namespace Edit

open Plan

variable {plan : Plan}
variable {p c old new : NodeId}
variable {index : Nat}

/- One edit after another, where the first one succeeds. -/
theorem run_bind_of_ok
    {α β : Type}
    {edit : Edit α}
    {next : α → Edit β}
    {x : α}
    {middle : Plan}
    (hRun : edit.run plan = (.ok x, middle)) :
    (edit >>= next).run plan = (next x).run middle := by
  unfold run at hRun ⊢
  rw [ExceptT.run_bind, StateT.run_bind, hRun]
  rfl

/- One edit after another, where the first one fails. -/
theorem run_bind_of_error
    {α β : Type}
    {edit : Edit α}
    {next : α → Edit β}
    {e : Failure}
    {middle : Plan}
    (hRun : edit.run plan = (.error e, middle)) :
    (edit >>= next).run plan = (.error e, middle) := by
  unfold run at hRun ⊢
  rw [ExceptT.run_bind, StateT.run_bind, hRun]
  rfl

/- An edit that looks at the plan first. -/
theorem run_get_bind
    {α : Type}
    (next : Plan → Edit α) :
    Edit.run (get >>= next) plan = (next plan).run plan :=
  rfl

theorem requireDetached_cases
    (hC : c < plan.size) :
    (∃ e, (requireDetached c).run plan = (.error e, plan)) ∨
      plan.Detached c ∧
        (requireDetached c).run plan = (.ok (), plan) := by
  cases hAttached : plan.isAttached c with
  | true =>
      refine .inl ⟨.malformed
        (.alreadyAttached (plan.kind c) c), ?_⟩
      unfold requireDetached
      rw [run_get_bind, if_pos hAttached]
      rfl
  | false =>
      have hDetached : plan.Detached c := by
        unfold isAttached at hAttached
        rw [Bool.or_eq_false_iff] at hAttached
        refine ⟨hC, ?_, ?_⟩
        · simpa using hAttached.1
        · simpa using hAttached.2
      rcases achieves_requireDetached hDetached with
        ⟨_, _, hRun, rfl⟩
      exact .inr ⟨hDetached, hRun⟩

theorem insert_cases
    (p : NodeId)
    (index : Nat)
    (hC : c < plan.size) :
    (∃ e, (insert p index c).run plan = (.error e, plan)) ∨
      plan.Detached c ∧
        index ≤ (plan.children p).length ∧
        (insert p index c).run plan =
          (.ok (), plan.attach p index c) := by
  unfold insert
  rcases requireDetached_cases hC with
    ⟨e, hRun⟩ | ⟨hDetached, hRun⟩
  · exact .inl ⟨e, run_bind_of_error hRun⟩
  · rw [run_bind_of_ok hRun, run_get_bind]
    by_cases hIndex : (plan.children p).length < index
    · rw [if_pos hIndex]
      exact .inl ⟨.malformed .childIndex, rfl⟩
    · rw [if_neg hIndex]
      exact .inr ⟨hDetached, Nat.not_lt.mp hIndex, rfl⟩

theorem append_cases
    (p : NodeId)
    (hC : c < plan.size) :
    (∃ e, (append p c).run plan = (.error e, plan)) ∨
      plan.Detached c ∧
        (append p c).run plan =
          (.ok (),
            plan.attach p (plan.children p).length c) := by
  unfold append
  rw [run_get_bind]
  rcases insert_cases p (plan.children p).length hC with
    hFailed | ⟨hDetached, _, hRun⟩
  · exact .inl hFailed
  · exact .inr ⟨hDetached, hRun⟩

theorem remove_cases
    (plan : Plan)
    (p : NodeId)
    (index : Nat) :
    (∃ e, (remove p index).run plan = (.error e, plan)) ∨
      ∃ c, plan.child? p index = some c ∧
        (remove p index).run plan =
          (.ok c, plan.detach p index c) := by
  cases hChild : plan.child? p index with
  | none =>
      refine .inl ⟨.malformed .childIndex, ?_⟩
      unfold remove
      rw [run_get_bind, hChild]
      rfl
  | some c =>
      rcases achieves_remove hChild with
        ⟨_, _, hRun, rfl, rfl⟩
      exact .inr ⟨c, rfl, hRun⟩

theorem replaceChild_cases
    (p : NodeId)
    (index : Nat)
    (hNew : new < plan.size) :
    (∃ e, (replaceChild p index new).run plan =
        (.error e, plan)) ∨
      ∃ old, plan.child? p index = some old ∧
        plan.Detached new ∧
        (replaceChild p index new).run plan =
          (.ok old, plan.exchange p index old new) := by
  unfold replaceChild
  rcases requireDetached_cases hNew with
    ⟨e, hRun⟩ | ⟨hDetached, hRun⟩
  · exact .inl ⟨e, run_bind_of_error hRun⟩
  · rw [run_bind_of_ok hRun, run_get_bind]
    cases hChild : plan.child? p index with
    | none => exact .inl ⟨.malformed .childIndex, rfl⟩
    | some old => exact .inr ⟨old, rfl, hDetached, rfl⟩

theorem replace_cases
    (hLinked : plan.Linked)
    (old : NodeId)
    (hNew : new < plan.size) :
    (∃ e, (replace old new).run plan = (.error e, plan)) ∨
      (plan.parent? old = none ∧ plan.Detached new ∧
        (replace old new).run plan =
          (.ok (), { plan with root := new })) ∨
      ∃ p index, plan.parent? old = some p ∧
        plan.child? p index = some old ∧
        plan.Detached new ∧
        (replace old new).run plan =
          (.ok (), plan.exchange p index old new) := by
  unfold replace
  rw [run_get_bind]
  by_cases hRoot : old = plan.root
  · rw [if_pos hRoot]
    rcases requireDetached_cases hNew with
      ⟨e, hRun⟩ | ⟨hDetached, hRun⟩
    · exact .inl ⟨e, run_bind_of_error hRun⟩
    · refine .inr (.inl ⟨?_, hDetached, ?_⟩)
      · rw [hRoot]
        exact hLinked.root
      · rw [run_bind_of_ok hRun]
        rfl
  · rw [if_neg hRoot]
    cases hParent : plan.parent? old with
    | none =>
        exact .inl ⟨.malformed .replacingDetached, rfl⟩
    | some p =>
        rcases hLinked.exists_indexInParent? hParent with
          ⟨index, hIndex, hChild⟩
        simp only [hIndex]
        rcases replaceChild_cases p index hNew with
          ⟨e, hRun⟩ | ⟨c, hC, hDetached, hRun⟩
        · exact .inl ⟨e, run_bind_of_error hRun⟩
        · rw [hChild] at hC
          cases hC
          refine .inr (.inr ⟨p, index, rfl, hChild,
            hDetached, ?_⟩)
          rw [run_bind_of_ok hRun]
          rfl

end Edit

end Flwor

------------------------------------------------------------
-- Calls That Make Many Links
------------------------------------------------------------

/-
  Nodes with children, documents and copies take new nodes
  as parents, which have no parent themselves at that time.
-/

namespace Flwor

/- An action does one thing only. -/
theorem Achieves.and
    {σ α : Type}
    {action : ExceptT Failure (StateM σ) α}
    {s : σ}
    {post post' : α → σ → Prop}
    (hFirst : Achieves action s post)
    (hSecond : Achieves action s post') :
    Achieves action s
      (fun x after => post x after ∧ post' x after) := by
  rcases hFirst with ⟨x, after, hRun, hPost⟩
  rcases hSecond with ⟨y, _, hRun', hPost'⟩
  rw [hRun] at hRun'
  cases hRun'
  exact ⟨x, after, hRun, hPost, hPost'⟩

namespace Edit

open Plan

variable {fit : Plan → NodeId → NodeId → Prop}
variable (hTop : FitsTop fit)
variable {plan : Plan}
variable {id : NodeId}

include hTop

/- A topmost node that takes a child remains topmost. -/
theorem move_attach
    {c : NodeId}
    (hDetached : plan.Detached c)
    (hId : id < plan.size)
    (hParent : plan.parent? id = none)
    (hNe : id ≠ c) :
    Move fit plan
        (plan.attach id (plan.children id).length c) ∧
      (plan.attach id (plan.children id).length
        c).parent? id = none := by
  constructor
  · exact .attach hDetached hId (Nat.le_refl _)
      (hTop plan id c hParent hNe)
  · rw [parent?_attach hDetached, if_neg hNe]
    exact hParent

/- Children are attached to a node that has no parent. -/
theorem moves_forM_append
    (hSound : plan.Sound)
    (hId : id < plan.size)
    (hParent : plan.parent? id = none)
    {cs : List NodeId}
    (hCs : ∀ c ∈ cs, c < plan.size ∧ id ≠ c) :
    plan.Moves fit ((cs.forM (append id)).run plan).2 := by
  induction cs generalizing plan with
  | nil => exact .refl
  | cons c rest ih =>
      rw [List.forall_mem_cons] at hCs
      rcases hCs with ⟨⟨hC, hNe⟩, hRest⟩
      change plan.Moves fit
        ((append id c >>= fun _ =>
          rest.forM (append id)).run plan).2
      rcases append_cases id hC with
        ⟨e, hRun⟩ | ⟨hDetached, hRun⟩
      · rw [run_bind_of_error hRun]
      · rw [run_bind_of_ok hRun]
        rcases move_attach hTop hDetached hId hParent hNe with
          ⟨hMove, hTopmost⟩
        have hEdited : plan.Edited {id} {c}
            (plan.attach id (plan.children id).length c) :=
          edited_attach hDetached hId
        apply Relation.ReflTransGen.head hMove
        apply ih (hMove.sound hSound) (hEdited.lt hId)
        · exact hTopmost
        · intro d hD
          exact ⟨hEdited.lt (hRest d hD).1, (hRest d hD).2⟩

/- Documents are attached to a node that has no parent. -/
theorem moves_installAll
    {ds : List Document}
    (hEach : ∀ d ∈ ds, ∀ plan : Plan, plan.Sound →
      (install d).Achieves plan
        (fun _ after => plan.Moves fit after))
    (hSound : plan.Sound)
    (hId : id < plan.size)
    (hParent : plan.parent? id = none) :
    (installAll id ds).Achieves plan
      (fun _ after => plan.Moves fit after) := by
  induction ds generalizing plan with
  | nil =>
      rw [installAll]
      exact achieves_return .refl
  | cons d ds ih =>
      rw [List.forall_mem_cons] at hEach
      rw [installAll]
      refine ((hEach.1 plan hSound).and
        (achieves_install d hSound.linked
          (Nat.le_of_lt hSound.root_lt))).bind ?_
      rintro c middle ⟨hMoves, hFirst⟩
      have hMiddle := hMoves.sound hSound
      have hNe : id ≠ c := by
        rw [hFirst.fresh]
        exact Nat.ne_of_lt hId
      have hDetached : middle.Detached c := by
        refine ⟨hFirst.lt, hFirst.parent, ?_⟩
        rw [hFirst.fresh, hFirst.edited.root]
        exact hSound.root_lt.ne'
      have hIdLt := hFirst.edited.lt hId
      have hParentMid : middle.parent? id = none := by
        rw [hFirst.edited.parent id hId (by simp)]
        exact hParent
      rcases move_attach hTop hDetached hIdLt hParentMid
          hNe with
        ⟨hMove, hTopmost⟩
      refine (achieves_append hDetached).bind ?_
      rintro _ _ rfl
      apply (ih hEach.2 (hMove.sound hMiddle)
        ((edited_attach hDetached hIdLt).lt hIdLt)
        hTopmost).mono
      intro _ after hRest
      exact hMoves.trans (.head hMove hRest)

/- The topmost node of a document is new. -/
theorem moves_install_node
    {k : Kind}
    {p : Payload}
    {ds : List Document}
    {ps : Properties}
    (hEach : ∀ d ∈ ds, ∀ plan : Plan, plan.Sound →
      (install d).Achieves plan
        (fun _ after => plan.Moves fit after))
    (hSound : (plan.grow k p ps).Sound) :
    (install (.node k p ds ps)).Achieves plan
      (fun _ after => (plan.grow k p ps).Moves fit after) := by
  rw [install]
  refine (achieves_add k p ps).bind ?_
  rintro _ _ ⟨rfl, rfl⟩
  have hLt : plan.size < (plan.grow k p ps).size := by
    rw [size_grow]
    exact Nat.lt_succ_self _
  have hParent :
      (plan.grow k p ps).parent? plan.size = none := by
    rw [parent?_grow, parent?,
      node_of_size_le (Nat.le_refl _)]
    rfl
  refine (moves_installAll hTop hEach hSound hLt
    hParent).bind ?_
  intro _ after hMoves
  exact achieves_return hMoves

theorem moves_install
    (d : Document)
    (hSound : plan.Sound) :
    (install d).Achieves plan
      (fun _ after => plan.Moves fit after) := by
  induction d using Document.induction generalizing plan with
  | node k p ds ps ih =>
      have hMove : Move fit plan (plan.grow k p ps) :=
        .grow plan k p ps
      refine (moves_install_node hTop
        (fun d hD plan hPlan => ih d hD hPlan)
        (hMove.sound hSound)).mono ?_
      intro _ after hMoves
      exact .head hMove hMoves

end Edit

end Flwor

------------------------------------------------------------
-- Calls as Moves
------------------------------------------------------------

namespace Flwor

namespace Edit

variable {plan : Plan}
variable {α : Type}
variable {edit : Edit α}

/- The outcome of an edit that is known to run so. -/
theorem outcome_of_ok
    {x : α}
    {after : Plan}
    (hRun : edit.run plan = (.ok x, after)) :
    edit.outcome plan = (none, after) := by
  unfold outcome
  rw [hRun]

theorem outcome_of_error
    {e : Failure}
    {after : Plan}
    (hRun : edit.run plan = (.error e, after)) :
    edit.outcome plan = (some e, after) := by
  unfold outcome
  rw [hRun]

theorem failed_of_error
    {e : Failure}
    {after : Plan}
    (hRun : edit.run plan = (.error e, after)) :
    (edit.outcome plan).1 ≠ none := by
  rw [outcome_of_error hRun]
  exact Option.some_ne_none e

theorem snd_outcome_of_ok
    {x : α}
    {after : Plan}
    (hRun : edit.run plan = (.ok x, after)) :
    (edit.outcome plan).2 = after := by
  rw [outcome_of_ok hRun]

theorem outcome_of_achieves
    {post : α → Plan → Prop}
    (hEdit : edit.Achieves plan post) :
    ∃ x after, edit.outcome plan = (none, after) ∧
      post x after := by
  rcases hEdit with ⟨x, after, hRun, hPost⟩
  exact ⟨x, after, outcome_of_ok hRun, hPost⟩

theorem snd_outcome :
    (edit.outcome plan).2 = (edit.run plan).2 := by
  unfold outcome
  rcases edit.run plan with ⟨_ | _, after⟩ <;> rfl

end Edit

namespace PlanCall

open Plan

variable {plan : Plan}
variable {fit : Plan → NodeId → NodeId → Prop}
variable {call : PlanCall}

/- The link that a call makes among its nodes is fit. -/
def Fits
    (fit : Plan → NodeId → NodeId → Prop)
    (plan : Plan)
    (call : PlanCall) : Prop :=
  ∀ p c, call.link? plan = some (p, c) → fit plan p c

variable (hTop : FitsTop fit)

include hTop

/- Installing a document makes moves only. -/
theorem outcome_install
    (hSound : plan.Sound)
    (d : Document) :
    ∃ after, (Edit.install d).outcome plan = (none, after) ∧
      plan.Moves fit after := by
  rcases Edit.outcome_of_achieves
      (Edit.moves_install hTop d hSound) with
    ⟨_, after, hRun, hMoves⟩
  exact ⟨after, hRun, hMoves⟩

/-
  Either a call fails and changes nothing, or it succeeds
  and makes moves only.
-/
theorem run_cases
    (hSound : plan.Sound)
    (hIds : ∀ id ∈ call.ids, id < plan.size)
    (hNot : call.isAddWith = false) :
    (∃ e, call.run plan = (some e, plan)) ∨
      ∃ after, call.run plan = (none, after) ∧
        (call.Fits fit plan → plan.Moves fit after) := by
  cases call with
  | add k p =>
      have hAdd : (Edit.add k p []).Achieves plan _ :=
        Edit.achieves_add k p []
      rcases Edit.outcome_of_achieves hAdd with
        ⟨_, _, hRun, _, rfl⟩
      exact .inr ⟨_, hRun, fun _ =>
        .single (.grow plan k p [])⟩
  | addWith k p cs => cases hNot
  | append p c =>
      rcases Edit.append_cases p
          (hIds c (by simp [ids])) with
        ⟨e, hRun⟩ | ⟨hDetached, hRun⟩
      · exact .inl ⟨e, Edit.outcome_of_error hRun⟩
      · refine .inr ⟨_, Edit.outcome_of_ok hRun, ?_⟩
        intro hFit
        exact .single (.attach hDetached
          (hIds p (by simp [ids])) (Nat.le_refl _)
          (hFit p c rfl))
  | insert p index c =>
      rcases Edit.insert_cases p index
          (hIds c (by simp [ids])) with
        ⟨e, hRun⟩ | ⟨hDetached, hIndex, hRun⟩
      · exact .inl ⟨e, Edit.outcome_of_error hRun⟩
      · refine .inr ⟨_, Edit.outcome_of_ok hRun, ?_⟩
        intro hFit
        exact .single (.attach hDetached
          (hIds p (by simp [ids])) hIndex (hFit p c rfl))
  | remove p index =>
      rcases Edit.remove_cases plan p index with
        ⟨e, hRun⟩ | ⟨c, hChild, hRun⟩
      · exact .inl ⟨e, Edit.outcome_of_error hRun⟩
      · exact .inr ⟨_, Edit.outcome_of_ok hRun,
          fun _ => .single (.detach hChild)⟩
  | replaceChild p index new =>
      rcases Edit.replaceChild_cases p index
          (hIds new (by simp [ids])) with
        ⟨e, hRun⟩ | ⟨old, hChild, hDetached, hRun⟩
      · exact .inl ⟨e, Edit.outcome_of_error hRun⟩
      · refine .inr ⟨_, Edit.outcome_of_ok hRun, ?_⟩
        intro hFit
        exact .single (.exchange hChild hDetached
          (hFit p new rfl))
  | replace old new =>
      rcases Edit.replace_cases hSound.linked old
          (hIds new (by simp [ids])) with
        ⟨e, hRun⟩ | ⟨_, hDetached, hRun⟩ |
          ⟨p, index, hParent, hChild, hDetached, hRun⟩
      · exact .inl ⟨e, Edit.outcome_of_error hRun⟩
      · exact .inr ⟨_, Edit.outcome_of_ok hRun,
          fun _ => .single (.reroot hDetached)⟩
      · refine .inr ⟨_, Edit.outcome_of_ok hRun, ?_⟩
        intro hFit
        have hLink : link? plan (.replace old new) =
            some (p, new) := by
          simp only [link?, hParent, Option.map_some]
        exact .single (.exchange hChild hDetached
          (hFit p new hLink))
  | copy id =>
      rcases outcome_install hTop hSound
          (plan.document id) with ⟨after, hRun, hMoves⟩
      exact .inr ⟨after, hRun, fun _ => hMoves⟩
  | install d =>
      rcases outcome_install hTop hSound d with
        ⟨after, hRun, hMoves⟩
      exact .inr ⟨after, hRun, fun _ => hMoves⟩

/- A new node and links below it are moves. -/
theorem moves_addWith
    (hSound : plan.Sound)
    (k : Kind)
    (p : Payload)
    {cs : List NodeId}
    (hCs : ∀ c ∈ cs, c < plan.size) :
    plan.Moves fit
      ((Edit.addWith k p cs).outcome plan).2 := by
  have hMove : Move fit plan (plan.grow k p []) :=
    .grow plan k p []
  have hDetached := detached_grow hSound.root_lt k p []
  have hEdited := edited_grow plan k p []
  have hOthers :
      ∀ c ∈ cs, c < (plan.grow k p []).size ∧
        plan.size ≠ c := by
    intro c hC
    exact ⟨hEdited.lt (hCs c hC), (hCs c hC).ne'⟩
  have hMoves := Edit.moves_forM_append hTop
    (hMove.sound hSound) hDetached.lt hDetached.parent
    hOthers
  have hGrow : (Edit.add k p []).Achieves plan _ :=
    Edit.achieves_add k p []
  rcases hGrow with ⟨_, _, hAdd, rfl, rfl⟩
  rw [Edit.snd_outcome]
  unfold Edit.addWith
  rw [Edit.run_bind_of_ok hAdd]
  apply Relation.ReflTransGen.head hMove
  rcases hAppend : (cs.forM (Edit.append plan.size)).run
      (plan.grow k p []) with ⟨e | u, after⟩
  · rw [hAppend] at hMoves
    rw [Edit.run_bind_of_error hAppend]
    exact hMoves
  · rw [hAppend] at hMoves
    rw [Edit.run_bind_of_ok hAppend]
    exact hMoves

/- Every call makes moves only. -/
theorem moves_run
    (hSound : plan.Sound)
    (hIds : ∀ id ∈ call.ids, id < plan.size)
    (hFits : (call.run plan).1 = none →
      call.Fits fit plan) :
    plan.Moves fit (call.run plan).2 := by
  cases hAddWith : call.isAddWith with
  | true =>
      cases call with
      | addWith k p cs =>
          exact moves_addWith hTop hSound k p hIds
      | _ => cases hAddWith
  | false =>
      rcases run_cases hTop hSound hIds hAddWith with
        ⟨e, hRun⟩ | ⟨after, hRun, hMoves⟩
      · rw [hRun]
      · rw [hRun] at hFits ⊢
        exact hMoves (hFits rfl)

omit hTop in
/-
  A call that fails leaves the plan as it was, unless it
  added a node first.
-/
theorem run_eq_of_failed
    (hSound : plan.Sound)
    (hIds : ∀ id ∈ call.ids, id < plan.size)
    (hNot : call.isAddWith = false)
    (hFailed : (call.run plan).1 ≠ none) :
    (call.run plan).2 = plan := by
  rcases run_cases fitsTop_true hSound hIds hNot with
    ⟨e, hRun⟩ | ⟨after, hRun, _⟩
  · rw [hRun]
  · rw [hRun] at hFailed
    exact (hFailed rfl).elim

end PlanCall

end Flwor

------------------------------------------------------------
-- Plans That Calls Lead To
------------------------------------------------------------

namespace Flwor

namespace Plan

/-
  Plans of one node, plans of documents, and what calls make
  of them.  A call names nodes of the arena; if it succeeds,
  it is one of those that are allowed.
-/
inductive Built
    (allowed : Plan → PlanCall → Prop) : Plan → Prop where
  | ofNode
      (kind : Kind)
      (payload : Payload) :
      Built allowed (ofNode kind payload)
  | ofDocument
      {document : Document}
      {plan : Plan}
      (hPlan : ofDocument document = .ok plan) :
      Built allowed plan
  | call
      {plan : Plan}
      (hBuilt : Built allowed plan)
      (call : PlanCall)
      (hIds : ∀ id ∈ call.ids, id < plan.size)
      (hAllowed : (call.run plan).1 = none →
        allowed plan call) :
      Built allowed (call.run plan).2

variable {plan : Plan}

/- A plan of one node. -/
theorem sound_grow_empty
    (k : Kind)
    (p : Payload)
    (ps : Properties) :
    (empty.grow k p ps).Sound := by
  constructor
  · exact linked_empty.grow k p ps
  · rw [size_grow]
    exact Nat.zero_lt_succ _

/- A plan of a document comes from its topmost node. -/
theorem exists_moves_of_ofDocument
    {fit : Plan → NodeId → NodeId → Prop}
    (hTop : FitsTop fit)
    {d : Document}
    (hPlan : ofDocument d = .ok plan) :
    ∃ k p ps, (empty.grow k p ps).Moves fit plan := by
  rcases d with ⟨k, p, ds, ps⟩
  rcases (Edit.achieves_install (.node k p ds ps)
      linked_empty (Nat.le_refl _)).and
    (Edit.moves_install_node hTop
      (fun d _ _ hSound => Edit.moves_install hTop d hSound)
      (sound_grow_empty k p ps)) with
    ⟨root, after, hRun, hInstalled, hMoves⟩
  rw [ofDocument_of_installed hRun hInstalled] at hPlan
  cases hPlan
  exact ⟨k, p, ps, hMoves⟩

/- All plans come from a plan of one node by moves. -/
theorem Built.exists_moves
    {allowed : Plan → PlanCall → Prop}
    {fit : Plan → NodeId → NodeId → Prop}
    (hTop : FitsTop fit)
    (hFits : ∀ plan call, allowed plan call →
      call.Fits fit plan)
    (hBuilt : plan.Built allowed) :
    ∃ k p ps, (empty.grow k p ps).Moves fit plan := by
  induction hBuilt with
  | ofNode k p => exact ⟨k, p, [], .refl⟩
  | ofDocument hPlan =>
      exact exists_moves_of_ofDocument hTop hPlan
  | call _ call hIds hAllowed ih =>
      rcases ih with ⟨k, p, ps, hMoves⟩
      have hSound := hMoves.sound (sound_grow_empty k p ps)
      have hCall := call.moves_run hTop hSound hIds
        (fun hDone => hFits _ _ (hAllowed hDone))
      exact ⟨k, p, ps, hMoves.trans hCall⟩

theorem Built.sound
    {allowed : Plan → PlanCall → Prop}
    (hBuilt : plan.Built allowed) :
    plan.Sound := by
  rcases hBuilt.exists_moves fitsTop_true
      (fun _ _ _ _ _ _ => trivial) with
    ⟨k, p, ps, hMoves⟩
  exact hMoves.sound (sound_grow_empty k p ps)

end Plan

end Flwor
