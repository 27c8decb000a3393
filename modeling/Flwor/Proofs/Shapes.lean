import Mathlib.Data.List.Basic
import Mathlib.Tactic.Tauto
import Flwor.Proofs.Meaning
import Flwor.Validity

/-
  The shapes of the nodes of a valid tree.

  Validation looks at every node of a tree.  What it checks
  is stated here kind by kind, in the form in which proofs
  about pipelines take a node apart.

  Key definitions include:
    * `Kind.hasInput`
    * `Tree.Shaped`

  Key theorems include:
    * `Tree.inductDeep`
    * `Tree.Shaped.input`
    * `Tree.Shaped.join`
    * `Tree.Shaped.pipe`
    * `Plan.shaped_of_validate`
-/

------------------------------------------------------------
-- Subtrees
------------------------------------------------------------

namespace Flwor

namespace Tree

theorem mem_subtreesAll_iff
    {s : Tree}
    {ts : List Tree} :
    s ∈ subtreesAll ts ↔ ∃ t ∈ ts, s ∈ t.subtrees := by
  induction ts with
  | nil => simp [subtreesAll]
  | cons t rest ih => simp [subtreesAll, ih]

theorem mem_subtrees_self
    (t : Tree) :
    t ∈ t.subtrees := by
  rcases t with ⟨i, k, p, ps, cs⟩
  simp [subtrees]

theorem mem_subtrees_of_child
    {t c s : Tree}
    (hChild : c ∈ t.children)
    (hMem : s ∈ c.subtrees) :
    s ∈ t.subtrees := by
  rcases t with ⟨i, k, p, ps, cs⟩
  rw [subtrees, List.mem_cons, mem_subtreesAll_iff]
  exact .inr ⟨c, hChild, hMem⟩

/- Subtrees of subtrees are subtrees. -/
theorem mem_subtrees_trans
    {r s t : Tree}
    (hR : r ∈ s.subtrees)
    (hS : s ∈ t.subtrees) :
    r ∈ t.subtrees := by
  induction t using Tree.induction with
  | node i k p ps cs ih =>
      rw [subtrees, List.mem_cons, mem_subtreesAll_iff] at hS
      rcases hS with rfl | ⟨c, hC, hS⟩
      · exact hR
      · exact mem_subtrees_of_child hC (ih c hC hS)

/-
  What holds of a node if it holds of its children and of
  theirs.
-/
theorem inductDeep
    {motive : Tree → Prop}
    (node :
      ∀ i k p ps cs, (∀ c ∈ cs, motive c) →
        (∀ c ∈ cs, ∀ d ∈ c.children, motive d) →
          motive (.node i k p ps cs))
    (t : Tree) :
    motive t := by
  have hBoth :
      motive t ∧ ∀ c ∈ t.children, motive c := by
    induction t using Tree.induction with
    | node i k p ps cs ih =>
        exact ⟨node i k p ps cs
            (fun c hC => (ih c hC).1)
            (fun c hC => (ih c hC).2),
          fun c hC => (ih c hC).1⟩
  exact hBoth.1

end Tree

end Flwor

------------------------------------------------------------
-- Valid Trees
------------------------------------------------------------

namespace Flwor

namespace Tree

mutual

/- A tree without a defect has no node with one. -/
theorem ownDefect?_of_firstDefect?
    {site : Option Site} :
    ∀ {t : Tree}, t.firstDefect? site = none →
      ∀ s ∈ t.subtrees, ∃ place, s.ownDefect? place = none
  | .node i k p ps cs, hValid, s, hMem => by
      rw [firstDefect?] at hValid
      rw [subtrees, List.mem_cons] at hMem
      cases hOwn : ownDefect? site (.node i k p ps cs) with
      | some d =>
          rw [hOwn] at hValid
          cases hValid
      | none =>
          rw [hOwn] at hValid
          rcases hMem with rfl | hMem
          · exact ⟨site, hOwn⟩
          · exact ownDefect?_of_firstDefectAll? hValid s hMem

theorem ownDefect?_of_firstDefectAll?
    {site : Site} :
    ∀ {ts : List Tree}, firstDefectAll? site ts = none →
      ∀ s ∈ subtreesAll ts, ∃ place,
        s.ownDefect? place = none
  | [], _, s, hMem => by
      rw [subtreesAll] at hMem
      cases hMem
  | t :: ts, hValid, s, hMem => by
      rw [firstDefectAll?] at hValid
      rw [subtreesAll, List.mem_append] at hMem
      cases hFirst : t.firstDefect? (some site) with
      | some d =>
          rw [hFirst] at hValid
          cases hValid
      | none =>
          rw [hFirst] at hValid
          rcases hMem with hMem | hMem
          · exact ownDefect?_of_firstDefect? hFirst s hMem
          · exact ownDefect?_of_firstDefectAll? hValid s hMem

end

/- A valid node breaks no rule of its kind. -/
theorem brokenRule?_of_ownDefect?
    {t : Tree}
    {place : Option Site}
    (hOwn : t.ownDefect? place = none) :
    t.brokenRule? place = none := by
  cases hRule : t.brokenRule? place with
  | none => rfl
  | some rule => simp [ownDefect?, hRule] at hOwn

/- No node of a tree breaks a rule of its kind. -/
def Shaped
    (t : Tree) : Prop :=
  ∀ s ∈ t.subtrees, ∃ place, s.brokenRule? place = none

theorem Shaped.child
    {t c : Tree}
    (hShaped : t.Shaped)
    (hChild : c ∈ t.children) :
    c.Shaped :=
  fun s hMem => hShaped s (mem_subtrees_of_child hChild hMem)

theorem Shaped.subtree
    {t s : Tree}
    (hShaped : t.Shaped)
    (hS : s ∈ t.subtrees) :
    s.Shaped :=
  fun r hR => hShaped r (mem_subtrees_trans hR hS)

theorem Shaped.self
    {t : Tree}
    (hShaped : t.Shaped) :
    ∃ place, t.brokenRule? place = none :=
  hShaped t (mem_subtrees_self t)

theorem shaped_of_valid
    {t : Tree}
    (hValid : t.firstDefect? none = none) :
    t.Shaped := by
  intro s hMem
  rcases ownDefect?_of_firstDefect? hValid s hMem with
    ⟨place, hOwn⟩
  exact ⟨place, brokenRule?_of_ownDefect? hOwn⟩

end Tree

/- The tree of a valid plan is in shape. -/
theorem Plan.shaped_of_validate
    {plan : Plan}
    (hValid : plan.validate = .ok ()) :
    plan.rootTree.Shaped := by
  apply Tree.shaped_of_valid
  rw [Plan.validate] at hValid
  cases hDefect : plan.rootTree.firstDefect? none with
  | none => rfl
  | some d =>
      rw [hDefect] at hValid
      cases hValid

end Flwor

------------------------------------------------------------
-- Shapes of Stages
------------------------------------------------------------

namespace Flwor

/- Stages that read the rows of a single input. -/
def Kind.hasInput : Kind → Bool
  | .forBind => true
  | .letBind => true
  | .selection => true
  | .orderBy => true
  | .groupBy => true
  | .count => true
  | _ => false

theorem Kind.eq_of_hasInput
    {k : Kind}
    (hInput : k.hasInput) :
    k = .forBind ∨ k = .letBind ∨ k = .selection ∨
      k = .orderBy ∨ k = .groupBy ∨ k = .count := by
  cases k <;> simp [hasInput] at hInput ⊢

namespace ShapeRule

@[simp] theorem brokenUnless_eq_none
    (rule : ShapeRule)
    (condition : Bool) :
    rule.brokenUnless condition = none ↔
      condition = true := by
  cases condition <;> simp [brokenUnless]

@[simp] theorem countIn_eq_none
    (allowed : List Nat)
    (cs : List Tree) :
    countIn allowed cs = none ↔ cs.length ∈ allowed := by
  simp [countIn]

@[simp] theorem stageAt_eq_none
    (cs : List Tree)
    (index : Nat) :
    stageAt cs index = none ↔
      ∃ t, cs[index]? = some t ∧ t.kind.isStage := by
  cases hChild : cs[index]? with
  | none => simp [stageAt, hChild]
  | some t => simp [stageAt, hChild]

@[simp] theorem kindAt_eq_none
    (cs : List Tree)
    (index : Nat)
    (k : Kind) :
    kindAt cs index k = none ↔
      ∃ t, cs[index]? = some t ∧ t.kind = k := by
  simp [kindAt]

end ShapeRule

namespace Tree

variable {i : NodeId}
variable {k : Kind}
variable {p : Payload}
variable {ps : Properties}
variable {cs : List Tree}

@[simp] theorem kind_node :
    (Tree.node i k p ps cs).kind = k :=
  rfl

@[simp] theorem children_node :
    (Tree.node i k p ps cs).children = cs :=
  rfl

/- A stage with an input has it first, and something after. -/
theorem Shaped.input
    (hShaped : (Tree.node i k p ps cs).Shaped)
    (hKind : k.hasInput) :
    ∃ source first rest, cs = source :: first :: rest ∧
      source.kind.isStage := by
  rcases hShaped.self with ⟨place, hRule⟩
  have hBoth : 2 ≤ cs.length ∧
      ∃ t, cs[0]? = some t ∧ t.kind.isStage := by
    rcases Kind.eq_of_hasInput hKind with
      rfl | rfl | rfl | rfl | rfl | rfl <;>
    · simp only [brokenRule?, kind_node, children_node,
        Option.orElse_eq_orElse, Option.orElse_eq_or,
        Option.or_eq_none_iff, ShapeRule.countIn_eq_none,
        ShapeRule.stageAt_eq_none,
        ShapeRule.brokenUnless_eq_none, List.mem_cons,
        List.not_mem_nil, or_false] at hRule
      refine ⟨?_, by tauto⟩
      first
      | omega
      | exact of_decide_eq_true hRule.1
      | exact of_decide_eq_true hRule.2.2
  rcases hBoth with ⟨hLength, t, hFirst, hStage⟩
  rcases cs with _ | ⟨source, _ | ⟨first, rest⟩⟩
  · simp at hLength
  · simp at hLength
  · cases hFirst
    exact ⟨t, first, rest, rfl, hStage⟩

/- A join has two stages and two keys. -/
theorem Shaped.join
    (hShaped : (Tree.node i .join p ps cs).Shaped) :
    ∃ left j q qs leftKey rightKey right,
      cs = [left, .node j .joinExpr q qs [leftKey, rightKey],
        right] ∧
        left.kind.isStage ∧ right.kind.isStage := by
  rcases hShaped.self with ⟨place, hRule⟩
  simp only [brokenRule?, kind_node, children_node,
    Option.orElse_eq_orElse, Option.orElse_eq_or,
    Option.or_eq_none_iff, ShapeRule.countIn_eq_none,
    ShapeRule.stageAt_eq_none, ShapeRule.kindAt_eq_none,
    List.mem_singleton] at hRule
  rcases hRule with ⟨hLength, ⟨left, hLeft, hLeftStage⟩,
    ⟨keys, hKeys, hKind⟩, right, hRight, hRightStage⟩
  rcases List.length_eq_three.mp hLength with
    ⟨first, second, third, rfl⟩
  cases hLeft
  cases hKeys
  cases hRight
  rcases keys with ⟨j, k, q, qs, parts⟩
  subst hKind
  have hKeysShaped : (Tree.node j .joinExpr q qs parts).Shaped :=
    hShaped.child (by simp [children])
  rcases hKeysShaped.self with ⟨place, hRule⟩
  simp only [brokenRule?, kind_node, children_node,
    Option.orElse_eq_orElse, Option.orElse_eq_or,
    Option.or_eq_none_iff, ShapeRule.countIn_eq_none,
    List.mem_singleton] at hRule
  rcases List.length_eq_two.mp hRule.1 with
    ⟨leftKey, rightKey, rfl⟩
  exact ⟨left, j, q, qs, leftKey, rightKey, right, rfl,
    hLeftStage, hRightStage⟩

/- A nested pipeline has an end, which has a tail. -/
theorem Shaped.pipe
    (hShaped : (Tree.node i .pipeExpr p ps cs).Shaped) :
    ∃ j q qs tail rest,
      cs = [.node j .finish q qs (tail :: rest)] ∧
        tail.kind.isStage := by
  rcases hShaped.self with ⟨place, hRule⟩
  simp only [brokenRule?, kind_node, children_node,
    Option.orElse_eq_orElse, Option.orElse_eq_or,
    Option.or_eq_none_iff, ShapeRule.countIn_eq_none,
    ShapeRule.kindAt_eq_none, List.mem_singleton] at hRule
  rcases hRule with ⟨hLength, finish, hFinish, hKind⟩
  rcases List.length_eq_one_iff.mp hLength with ⟨c, rfl⟩
  cases hFinish
  rcases finish with ⟨j, k, q, qs, parts⟩
  subst hKind
  have hFinishShaped : (Tree.node j .finish q qs parts).Shaped :=
    hShaped.child (by simp [children])
  rcases hFinishShaped.self with ⟨place, hRule⟩
  simp only [brokenRule?, kind_node, children_node,
    Option.orElse_eq_orElse, Option.orElse_eq_or,
    Option.or_eq_none_iff, ShapeRule.stageAt_eq_none]
    at hRule
  rcases hRule.2.1 with ⟨tail, hTail, hStage⟩
  rcases parts with _ | ⟨first, rest⟩
  · cases hTail
  · cases hTail
    exact ⟨j, q, qs, tail, rest, rfl, hStage⟩

/- All stages but groupings and joins add to what is visible. -/
theorem visible_input
    {input : Tree}
    {rest : List Tree}
    (hKind : k.hasInput)
    (hGroup : k ≠ .groupBy) :
    visible (.node i k p ps (input :: rest)) =
      input.visible
        ++ bound (.node i k p ps (input :: rest)) := by
  rcases Kind.eq_of_hasInput hKind with
    rfl | rfl | rfl | rfl | rfl | rfl <;>
    first
    | exact (hGroup rfl).elim
    | simp [visible, visibleHead]

theorem visible_groupBy :
    visible (.node i .groupBy p ps cs) =
      bound (.node i .groupBy p ps cs) := by
  simp [visible]

theorem visible_join
    {left keys right : Tree} :
    visible (.node i .join p ps [left, keys, right]) =
      left.visible ++ right.visible := by
  simp [visible, visibleHead, visibleLast]

end Tree

end Flwor
