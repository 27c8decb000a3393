import Mathlib.Order.Monotone.Basic
import Flwor.Proofs.Arena.Insertions
import Flwor.Proofs.Hoisting.Buried

/-
  Numbers of a tree that go down when one of its subtrees is
  replaced by a smaller one.

  The passes count the nodes that they remove.  Nested
  pipelines count twice, but once where a `let` binds them:
  extracting one is a step of its own.  A `let` binding
  counts as much as there are pipelines and loops around it.

  Key definitions include:
    * `Tree.Congruent`
    * `Tree.tally`
    * `Tree.pipeWork`
    * `Tree.loops`, `Tree.load`
    * `Tree.Sheds`

  Key theorems include:
    * `Tree.Congruent.mapAt`
    * `Tree.congruent_tally`
    * `Tree.congruent_pipeWork`
    * `Tree.Sheds.node`
    * `Tree.congruent_sheds`
-/

------------------------------------------------------------
-- Relations Below Any Node
------------------------------------------------------------

namespace Flwor

namespace Tree

/- A relation that goes from one child to the whole node. -/
def Congruent
    (related : Tree → Tree → Prop) : Prop :=
  ∀ i k p ps before after c d, related c d →
    related (.node i k p ps (before ++ c :: after))
      (.node i k p ps (before ++ d :: after))

/- It goes from any subtree to the whole tree. -/
theorem Congruent.mapAt
    {related : Tree → Tree → Prop}
    {s t u : Tree}
    (hCongruent : Congruent related)
    (hNodup : t.ids.Nodup)
    (hS : s ∈ t.subtrees)
    (hHere : related s u) :
    related t (t.mapAt s.id (fun _ => u)) := by
  induction t using Tree.induction with
  | node i k p ps cs ih =>
      rw [subtrees, List.mem_cons, mem_subtreesAll_iff] at hS
      rcases hS with rfl | ⟨c, hC, hS⟩
      · rw [mapAt_id]
        exact hHere
      rcases List.append_of_mem hC with ⟨before, after, rfl⟩
      have hBelow := nodup_ids_of_mem
        (List.nodup_cons.mp hNodup).2 hC
      rw [mapAt_of_child hNodup
        (mem_ids_iff.mpr ⟨s, hS, rfl⟩)]
      exact hCongruent i k p ps before after _ _
        (ih c hC hBelow hS)

end Tree

end Flwor

------------------------------------------------------------
-- Counted Nodes
------------------------------------------------------------

namespace Flwor

namespace Tree

variable {counts : Kind → Properties → Bool}
variable {i : NodeId}
variable {k : Kind}
variable {p : Payload}
variable {ps : Properties}
variable {cs : List Tree}

/- The number of nodes of which something holds. -/
def tally
    (counts : Kind → Properties → Bool)
    (t : Tree) : Nat :=
  t.subtrees.countP (fun s => counts s.kind s.properties)

theorem subtreesAll_eq_flatMap
    (ts : List Tree) :
    subtreesAll ts = ts.flatMap subtrees := by
  induction ts with
  | nil => rfl
  | cons t rest ih =>
      rw [subtreesAll, ih, List.flatMap_cons]

theorem tally_node :
    tally counts (.node i k p ps cs) =
      (cs.map (tally counts)).sum
        + if counts k ps then 1 else 0 := by
  rw [tally, subtrees, List.countP_cons,
    subtreesAll_eq_flatMap, List.countP_flatMap]
  rfl

theorem congruent_tally :
    Congruent (fun t u =>
      tally counts u < tally counts t) := by
  intro i k p ps before after c d hLess
  simp only [tally_node, List.map_append, List.map_cons,
    List.sum_append, List.sum_cons]
  omega

/- Copies have as many nodes of a kind. -/
theorem tally_eq_of_document
    {t u : Tree}
    (hSame : t.document = u.document) :
    tally counts t = tally counts u := by
  induction t using Tree.induction generalizing u with
  | node i k p ps cs ih =>
      rcases u with ⟨j, l, q, qs, ds⟩
      rw [document, document, Document.node.injEq] at hSame
      rcases hSame with ⟨rfl, rfl, hAll, rfl⟩
      rw [tally_node, tally_node]
      congr 2
      induction cs generalizing ds with
      | nil =>
          rcases ds with _ | ⟨d, ds⟩
          · rfl
          · cases hAll
      | cons c cs ihAll =>
          rcases ds with _ | ⟨d, ds⟩
          · cases hAll
          rw [documentAll, documentAll, List.cons.injEq]
            at hAll
          rw [List.map_cons, List.map_cons,
            ih c List.mem_cons_self hAll.1,
            ihAll (fun e hE => ih e
              (List.mem_cons_of_mem _ hE)) _ hAll.2]

end Tree

end Flwor

------------------------------------------------------------
-- Nested Pipelines
------------------------------------------------------------

namespace Flwor

/- What a pipeline counts for at a place below a node. -/
def Kind.pipeCost
    (k : Kind)
    (index : Nat) : Nat :=
  if k = .letBind ∧ index = 2 then 1 else 2

namespace Tree

mutual

/-
  The changes that nested pipelines can be worth: one to be
  extracted into a `let` and one to become a join.
-/
def pipeWork
    (cost : Nat) : Tree → Nat
  | .node _ k _ _ cs =>
      (if k = .pipeExpr then cost else 0)
        + pipeWorkAll k 0 cs

/- The same, for the children of a node from a place on. -/
def pipeWorkAll
    (k : Kind)
    (index : Nat) : List Tree → Nat
  | [] => 0
  | t :: ts =>
      pipeWork (k.pipeCost index) t
        + pipeWorkAll k (index + 1) ts

end

variable {k : Kind}
variable {index : Nat}

theorem pipeWorkAll_append
    (before after : List Tree) :
    pipeWorkAll k index (before ++ after) =
      pipeWorkAll k index before
        + pipeWorkAll k (index + before.length) after := by
  induction before generalizing index with
  | nil => simp [pipeWorkAll]
  | cons t rest ih =>
      rw [List.cons_append, pipeWorkAll, pipeWorkAll, ih,
        List.length_cons, Nat.add_assoc, Nat.add_assoc,
        Nat.add_comm 1]

/- What is no pipeline counts the same everywhere. -/
theorem pipeWork_eq_of_ne
    {t : Tree}
    (hKind : t.kind ≠ .pipeExpr)
    (cost cost' : Nat) :
    pipeWork cost t = pipeWork cost' t := by
  rcases t with ⟨i, k, p, ps, cs⟩
  rw [kind_node] at hKind
  rw [pipeWork, pipeWork, if_neg hKind, if_neg hKind]

theorem congruent_pipeWork :
    Congruent (fun t u =>
      ∀ cost, pipeWork cost u < pipeWork cost t) := by
  intro i k p ps before after c d hLess cost
  have hHere := hLess (k.pipeCost (0 + before.length))
  simp only [pipeWork, pipeWorkAll_append, pipeWorkAll]
  omega

theorem pipeCost_le
    (k : Kind)
    (index : Nat) :
    k.pipeCost index ≤ 2 := by
  unfold Kind.pipeCost
  split <;> omega

mutual

theorem pipeWork_le
    {cost : Nat}
    (hCost : cost ≤ 2) :
    ∀ t : Tree, pipeWork cost t ≤
      2 * t.tally (fun k _ => k = .pipeExpr)
  | .node i k p ps cs => by
      have hRest := pipeWorkAll_le k 0 cs
      rw [pipeWork, tally_node]
      by_cases hKind : k = .pipeExpr
      · simp only [hKind, decide_true, if_true] at hRest ⊢
        omega
      · simp only [hKind, decide_false, if_false,
          Bool.false_eq_true]
        omega

theorem pipeWorkAll_le
    (k : Kind)
    (index : Nat) :
    ∀ ts : List Tree, pipeWorkAll k index ts ≤
      2 * (ts.map (tally (fun k _ => k = .pipeExpr))).sum
  | [] => by simp [pipeWorkAll]
  | t :: ts => by
      have hHead := pipeWork_le (pipeCost_le k index) t
      have hRest := pipeWorkAll_le k (index + 1) ts
      rw [pipeWorkAll, List.map_cons, List.sum_cons]
      omega

end

end Tree

end Flwor

------------------------------------------------------------
-- Bindings in Loops
------------------------------------------------------------

namespace Flwor

namespace Tree

/- The loops among the stages from a tail back to the start. -/
def loops
    (t : Tree) : Nat :=
  t.stages.countP (fun s => s.kind = .forBind)

/- The loops before the first of several trees. -/
def loopsHead : List Tree → Nat
  | [] => 0
  | t :: _ => t.loops

mutual

/-
  The number of pipelines and loops around each `let`, all
  of them together, given those around the tree.
-/
def load
    (around : Nat) : Tree → Nat
  | .node _ k _ _ cs =>
      (if k = .letBind then around + loopsHead cs else 0)
        + loadHead
          (if k = .finish then around + 1 else around) cs

/- All but the first of several trees are in its loops. -/
def loadHead
    (around : Nat) : List Tree → Nat
  | [] => 0
  | t :: ts =>
      load around t + loadAll (around + t.loops) ts

/- The number for several trees in the same loops. -/
def loadAll
    (around : Nat) : List Tree → Nat
  | [] => 0
  | t :: ts => load around t + loadAll around ts

end

variable {i : NodeId}
variable {k : Kind}
variable {p : Payload}
variable {ps : Properties}
variable {cs : List Tree}

theorem loops_node :
    loops (.node i k p ps cs) =
      (if k = .start then 0 else loopsHead cs)
        + if k = .forBind then 1 else 0 := by
  rw [loops, stages, List.countP_cons]
  congr 1
  · split
    · rfl
    · rcases cs with _ | ⟨c, cs⟩ <;> rfl
  · by_cases hFor : k = .forBind <;> simp [hFor]

theorem loadAll_append
    (around : Nat)
    (before after : List Tree) :
    loadAll around (before ++ after) =
      loadAll around before + loadAll around after := by
  induction before with
  | nil => simp [loadAll]
  | cons t rest ih =>
      rw [List.cons_append, loadAll, loadAll, ih,
        Nat.add_assoc]

mutual

theorem load_mono
    {m n : Nat}
    (hLe : m ≤ n) :
    ∀ t : Tree, load m t ≤ load n t
  | .node i k p ps cs => by
      rw [load, load]
      refine Nat.add_le_add ?_ (loadHead_mono ?_ cs)
      · split
        · exact Nat.add_le_add_right hLe _
        · exact le_rfl
      · split
        · exact Nat.add_le_add_right hLe _
        · exact hLe

theorem loadHead_mono
    {m n : Nat}
    (hLe : m ≤ n) :
    ∀ ts : List Tree, loadHead m ts ≤ loadHead n ts
  | [] => le_rfl
  | t :: ts => by
      rw [loadHead, loadHead]
      exact Nat.add_le_add (load_mono hLe t)
        (loadAll_mono (Nat.add_le_add_right hLe _) ts)

theorem loadAll_mono
    {m n : Nat}
    (hLe : m ≤ n) :
    ∀ ts : List Tree, loadAll m ts ≤ loadAll n ts
  | [] => le_rfl
  | t :: ts => by
      rw [loadAll, loadAll]
      exact Nat.add_le_add (load_mono hLe t)
        (loadAll_mono hLe ts)

end

/-
  One tree in place of another one: no loop is lost, and the
  number goes down by what depends on the place.
-/
structure Sheds
    (amount : Nat → Nat)
    (t u : Tree) : Prop where
  loops : u.loops = t.loops
  load : ∀ around, load around u + amount around ≤
    load around t

namespace Sheds

variable {amount amount' : Nat → Nat}
variable {c d : Tree}
variable {before after : List Tree}

theorem weaken
    (hSheds : Sheds amount c d)
    (hLe : ∀ around, amount' around ≤ amount around) :
    Sheds amount' c d :=
  ⟨hSheds.loops, fun around =>
    (Nat.add_le_add_left (hLe around) _).trans
      (hSheds.load around)⟩

/- Below an end there is one more pipeline around. -/
theorem node
    (hAmount : Monotone amount)
    (hSheds : Sheds amount c d) :
    Sheds (fun around =>
        amount (if k = .finish then around + 1 else around))
      (.node i k p ps (before ++ c :: after))
      (.node i k p ps (before ++ d :: after)) := by
  rcases hSheds with ⟨hLoops, hLoad⟩
  rcases before with _ | ⟨b, before⟩
  · refine ⟨?_, fun around => ?_⟩
    · simp [loops_node, loopsHead, hLoops]
    · have hHere := hLoad
        (if k = .finish then around + 1 else around)
      simp only [List.nil_append, Tree.load, loadHead,
        loopsHead, hLoops]
      omega
  · refine ⟨?_, fun around => ?_⟩
    · simp [loops_node, loopsHead]
    · have hHere := hLoad
        ((if k = .finish then around + 1 else around)
          + b.loops)
      have hPlace := hAmount (Nat.le_add_right
        (if k = .finish then around + 1 else around) b.loops)
      simp only [List.cons_append, Tree.load, loadHead,
        loopsHead, loadAll_append, loadAll]
      omega

end Sheds

theorem congruent_sheds
    {amount : Nat → Nat}
    (hAmount : Monotone amount) :
    Congruent (Sheds amount) := by
  intro i k p ps before after c d hSheds
  refine (hSheds.node hAmount).weaken (fun around => ?_)
  refine hAmount ?_
  split
  · exact Nat.le_succ around
  · exact le_rfl

end Tree

end Flwor
