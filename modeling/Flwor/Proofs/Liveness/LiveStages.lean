import Flwor.Compile
import Flwor.Proofs.Arena.Holding
import Flwor.Proofs.Liveness.Annotated

/-
  The stages of a tree that can be evaluated.

  A `let` whose annotation lacks its variable is compiled
  without its expression, so no stage in there is ever
  evaluated.  All other stages are live.

  Key definitions include:
    * `Tree.keepsBinding`
    * `Tree.IsLive`
    * `Tree.liveStages`, `Tree.liveUnder`
    * `Tree.slots`
    * `Tree.KeepsSlots`
    * `Kind.childCounts`

  Key theorems include:
    * `Tree.mem_liveStages_iff`
    * `Kind.isCompiled_iff`
    * `Tree.Shaped.length_mem`
-/

------------------------------------------------------------
-- Live Stages
------------------------------------------------------------

namespace Flwor

namespace Tree

/- Whether the annotation of a stage has its variable. -/
def keepsBinding
    (t : Tree) : Bool :=
  match t.binding?,
    t.properties.vars? Properties.project with
  | some name, some names => names.contains name
  | _, _ => false

/-
  A node is a stage of a tree, and each `let` that has it in
  its expression keeps its variable.
-/
structure IsLive
    (t : Tree)
    (id : NodeId) : Prop where
  stage : ∃ s ∈ t.subtrees, s.id = id ∧ s.kind.isStage
  kept :
    ∀ l ∈ t.subtrees, l.kind = .letBind →
      ∀ e, l.children[2]? = some e → id ∈ e.ids →
        l.keepsBinding

mutual

/- The live stages, each before those below it. -/
def liveStages : Tree → List NodeId
  | .node i k p ps cs =>
      (if k.isStage then [i] else [])
        ++ (if k = .letBind ∧
              keepsBinding (.node i k p ps cs) = false
            then liveStagesExcept 2 cs
            else liveStagesAll cs)

/- The live stages of several trees. -/
def liveStagesAll : List Tree → List NodeId
  | [] => []
  | t :: ts => liveStages t ++ liveStagesAll ts

/- The live stages of all trees but the one at a place. -/
def liveStagesExcept : Nat → List Tree → List NodeId
  | _, [] => []
  | 0, _ :: ts => liveStagesAll ts
  | place + 1, t :: ts =>
      liveStages t ++ liveStagesExcept place ts

end

variable {id : NodeId}
variable {t c : Tree}
variable {ts cs : List Tree}
variable {i : NodeId}
variable {k : Kind}
variable {p : Payload}
variable {ps : Properties}

theorem mem_liveStagesAll_iff :
    id ∈ liveStagesAll ts ↔ ∃ t ∈ ts, id ∈ t.liveStages := by
  induction ts with
  | nil => simp [liveStagesAll]
  | cons t rest ih => simp [liveStagesAll, ih]

theorem mem_liveStagesAll_of_except
    (place : Nat)
    (hId : id ∈ liveStagesExcept place ts) :
    id ∈ liveStagesAll ts := by
  induction ts generalizing place with
  | nil => exact hId
  | cons t rest ih =>
      rw [liveStagesAll, List.mem_append]
      cases place with
      | zero => exact .inr hId
      | succ place =>
          rw [liveStagesExcept, List.mem_append] at hId
          exact hId.imp_right (ih place)

/- A tree that is left out has none of the others' stages. -/
theorem mem_liveStagesExcept_iff
    (hInside : ∀ t ∈ ts, ∀ id ∈ t.liveStages, id ∈ t.ids)
    (hNodup : (idsAll ts).Nodup)
    (place : Nat) :
    id ∈ liveStagesExcept place ts ↔
      ∃ t ∈ ts, id ∈ t.liveStages ∧
        ∀ e, ts[place]? = some e → id ∉ e.ids := by
  induction ts generalizing place with
  | nil => simp [liveStagesExcept]
  | cons t rest ih =>
      rw [List.forall_mem_cons] at hInside
      rw [idsAll, List.nodup_append'] at hNodup
      have hApart (s : Tree) (hS : s ∈ rest)
          (hHere : id ∈ t.ids) : id ∉ s.ids :=
        fun hThere => hNodup.2.2 hHere
          (mem_idsAll_iff.mpr ⟨s, hS, hThere⟩)
      cases place with
      | zero =>
          rw [liveStagesExcept, mem_liveStagesAll_iff]
          simp only [List.getElem?_cons_zero,
            Option.some.injEq, forall_eq']
          constructor
          · rintro ⟨s, hS, hId⟩
            exact ⟨s, List.mem_cons_of_mem t hS, hId,
              fun hHere => hApart s hS hHere
                (hInside.2 s hS id hId)⟩
          · rintro ⟨s, hS, hId, hNot⟩
            rcases List.mem_cons.mp hS with rfl | hS
            · exact (hNot (hInside.1 id hId)).elim
            · exact ⟨s, hS, hId⟩
      | succ place =>
          rw [liveStagesExcept, List.mem_append,
            ih hInside.2 hNodup.2.1 place,
            List.getElem?_cons_succ]
          constructor
          · rintro (hId | ⟨s, hS, hId, hNot⟩)
            · exact ⟨t, List.mem_cons_self, hId,
                fun e hE => hApart e
                  (List.mem_of_getElem? hE)
                  (hInside.1 id hId)⟩
            · exact ⟨s, List.mem_cons_of_mem t hS, hId,
                hNot⟩
          · rintro ⟨s, hS, hId, hNot⟩
            rcases List.mem_cons.mp hS with rfl | hS
            · exact .inl hId
            · exact .inr ⟨s, hS, hId, hNot⟩

/- Where no index occurs twice, a node is itself only. -/
theorem isLive_self
    (hNodup : (Tree.node i k p ps cs).ids.Nodup) :
    IsLive (.node i k p ps cs) i ↔ k.isStage := by
  rw [ids, List.nodup_cons, mem_idsAll_iff] at hNodup
  have hBelow {c e l : Tree} (hC : c ∈ cs)
      (hL : l ∈ c.subtrees) (hE : e ∈ l.subtrees) :
      i ∉ e.ids :=
    fun hId => hNodup.1 ⟨c, hC,
      ids_subset (mem_subtrees_trans hE hL) i hId⟩
  have hChild {e l : Tree} {place : Nat}
      (hE : l.children[place]? = some e) :
      e ∈ l.subtrees :=
    mem_subtrees_of_child (List.mem_of_getElem? hE)
      (mem_subtrees_self e)
  constructor
  · rintro ⟨⟨s, hS, hId, hStage⟩, _⟩
    rw [subtrees, List.mem_cons, mem_subtreesAll_iff] at hS
    rcases hS with rfl | ⟨c, hC, hS⟩
    · exact hStage
    · exact (hBelow hC hS (mem_subtrees_self s)
        (hId ▸ id_mem_ids s)).elim
  · intro hStage
    refine ⟨⟨_, mem_subtrees_self _, rfl, hStage⟩, ?_⟩
    intro l hL _ e hE hId
    rw [subtrees, List.mem_cons, mem_subtreesAll_iff] at hL
    rcases hL with rfl | ⟨c, hC, hL⟩
    · exact (hBelow (List.mem_of_getElem? hE)
        (mem_subtrees_self e) (mem_subtrees_self e)
        hId).elim
    · exact (hBelow hC hL (hChild hE) hId).elim

/- A node below a child is live where the child is. -/
theorem isLive_child
    (hNodup : (Tree.node i k p ps cs).ids.Nodup)
    (hC : c ∈ cs)
    (hId : id ∈ c.ids) :
    IsLive (.node i k p ps cs) id ↔
      c.IsLive id ∧ (k = .letBind → ∀ e,
        cs[2]? = some e → id ∈ e.ids →
          keepsBinding (.node i k p ps cs)) := by
  rw [ids, List.nodup_cons, mem_idsAll_iff] at hNodup
  have hSame {d : Tree} (hD : d ∈ cs) (hId' : id ∈ d.ids) :
      d = c :=
    eq_of_mem_ids hNodup.2 hD hC hId' hId
  constructor
  · rintro ⟨⟨s, hS, hHere, hStage⟩, hKept⟩
    refine ⟨⟨?_, fun l hL => hKept l
      (mem_subtrees_of_child hC hL)⟩,
      hKept _ (mem_subtrees_self _)⟩
    rw [subtrees, List.mem_cons, mem_subtreesAll_iff] at hS
    rcases hS with rfl | ⟨d, hD, hS⟩
    · cases hHere
      exact (hNodup.1 ⟨c, hC, hId⟩).elim
    · have hMem : id ∈ d.ids :=
        mem_ids_iff.mpr ⟨s, hS, hHere⟩
      exact ⟨s, hSame hD hMem ▸ hS, hHere, hStage⟩
  · rintro ⟨⟨⟨s, hS, hHere, hStage⟩, hBelow⟩, hSelf⟩
    refine ⟨⟨s, mem_subtrees_of_child hC hS, hHere, hStage⟩,
      ?_⟩
    intro l hL hKind e hE hMem
    rw [subtrees, List.mem_cons, mem_subtreesAll_iff] at hL
    rcases hL with rfl | ⟨d, hD, hL⟩
    · exact hSelf hKind e hE hMem
    · have hPart : e ∈ d.subtrees :=
        mem_subtrees_trans (mem_subtrees_of_child
          (List.mem_of_getElem? hE) (mem_subtrees_self e)) hL
      rw [hSame hD (ids_subset hPart id hMem)] at hL
      exact hBelow l hL hKind e hE hMem

/- A live stage is a node of the tree. -/
theorem mem_ids_of_liveStages
    (hId : id ∈ t.liveStages) :
    id ∈ t.ids := by
  induction t using Tree.induction with
  | node i k p ps cs ih =>
      rw [ids, List.mem_cons, mem_idsAll_iff]
      rw [liveStages, List.mem_append] at hId
      rcases hId with hSelf | hBelow
      · left
        split at hSelf
        · exact List.mem_singleton.mp hSelf
        · cases hSelf
      · have hAll : id ∈ liveStagesAll cs := by
          split at hBelow
          · exact mem_liveStagesAll_of_except 2 hBelow
          · exact hBelow
        rcases mem_liveStagesAll_iff.mp hAll with
          ⟨c, hC, hId⟩
        exact .inr ⟨c, hC, ih c hC hId⟩

/- Below a stage, only a `let` that drops hides a child. -/
theorem mem_liveStages_node
    (hNodup : (idsAll cs).Nodup) :
    id ∈ liveStages (.node i k p ps cs) ↔
      k.isStage ∧ id = i ∨
        ∃ c ∈ cs, id ∈ c.liveStages ∧
          (k = .letBind → ∀ e, cs[2]? = some e →
            id ∈ e.ids →
              keepsBinding (.node i k p ps cs)) := by
  have hInside (c : Tree) (_ : c ∈ cs) (x : NodeId)
      (hX : x ∈ c.liveStages) : x ∈ c.ids :=
    mem_ids_of_liveStages hX
  rw [liveStages, List.mem_append]
  refine or_congr ?_ ?_
  · cases k.isStage <;> simp
  · split
    next hDrops =>
      rcases hDrops with ⟨rfl, hDrops⟩
      rw [mem_liveStagesExcept_iff hInside hNodup]
      simp only [hDrops, Bool.false_eq_true, forall_const]
    next hKeeps =>
      rw [mem_liveStagesAll_iff]
      have hAlways (hKind : k = .letBind) :
          keepsBinding (.node i k p ps cs) := by
        simpa [hKind] using hKeeps
      exact exists_congr (fun c => and_congr_right
        (fun _ => (and_iff_left
          (fun hKind _ _ _ => hAlways hKind)).symm))

/- The list has the live stages and nothing else. -/
theorem mem_liveStages_iff
    (hNodup : t.ids.Nodup) :
    id ∈ t.liveStages ↔ t.IsLive id := by
  induction t using Tree.induction with
  | node i k p ps cs ih =>
      have hParts := hNodup
      rw [ids, List.nodup_cons, mem_idsAll_iff] at hParts
      have hEach (c : Tree) (hC : c ∈ cs) :=
        ih c hC (nodup_ids_of_mem hParts.2 hC)
      rw [mem_liveStages_node hParts.2]
      constructor
      · rintro (⟨hStage, rfl⟩ | ⟨c, hC, hLive, hKept⟩)
        · exact (isLive_self hNodup).mpr hStage
        · exact (isLive_child hNodup hC
            (mem_ids_of_liveStages hLive)).mpr
              ⟨(hEach c hC).mp hLive, hKept⟩
      · intro hLive
        rcases hLive.stage with ⟨s, hS, hHere, _⟩
        have hMem := mem_ids_iff.mpr ⟨s, hS, hHere⟩
        rw [ids, List.mem_cons, mem_idsAll_iff] at hMem
        rcases hMem with rfl | ⟨c, hC, hMem⟩
        · exact .inl ⟨(isLive_self hNodup).mp hLive, rfl⟩
        · rcases (isLive_child hNodup hC hMem).mp hLive with
            ⟨hBelow, hKept⟩
          exact .inr ⟨c, hC, (hEach c hC).mpr hBelow, hKept⟩

end Tree

end Flwor

------------------------------------------------------------
-- Annotated Trees
------------------------------------------------------------

namespace Flwor

namespace Tree

variable (notes : Notes)

@[simp] theorem ids_annotate
    (t : Tree) :
    (t.annotate notes).ids = t.ids := by
  induction t using Tree.induction with
  | node i k p ps cs ih =>
      have hAll : idsAll (annotateAll notes cs) =
          idsAll cs := by
        induction cs with
        | nil => rfl
        | cons c rest ihRest =>
            rw [List.forall_mem_cons] at ih
            rw [annotateAll, idsAll, idsAll, ih.1,
              ihRest ih.2]
      rw [annotate, ids, ids, hAll]

/- What is noted of a stage decides about its binding. -/
theorem keepsBinding_annotate
    {t : Tree}
    {names : List String}
    (hNoted : notes t.id = some names) :
    (t.annotate notes).keepsBinding =
      (t.binding?.map names.contains).getD false := by
  rw [keepsBinding, binding?_annotate, properties_annotate,
    hNoted, Properties.vars?_annotate]
  cases t.binding? <;> rfl

/- The live stages, where the notes say what is annotated. -/
def liveUnder
    (t : Tree)
    (notes : Notes) : List NodeId :=
  (t.annotate notes).liveStages

/- The same, for several trees. -/
def liveUnderAll
    (ts : List Tree)
    (notes : Notes) : List NodeId :=
  liveStagesAll (annotateAll notes ts)

@[simp] theorem liveUnderAll_nil :
    liveUnderAll [] notes = [] :=
  rfl

@[simp] theorem liveUnderAll_cons
    (t : Tree)
    (ts : List Tree) :
    liveUnderAll (t :: ts) notes =
      t.liveUnder notes ++ liveUnderAll ts notes :=
  rfl

variable {i : NodeId}
variable {k : Kind}
variable {p : Payload}
variable {ps : Properties}
variable {cs : List Tree}

/- Only a `let` has a child that may be left out. -/
theorem liveUnder_node
    (hKind : k ≠ .letBind) :
    liveUnder (.node i k p ps cs) notes =
      (if k.isStage then [i] else [])
        ++ liveUnderAll cs notes := by
  have hNot (names : Prop) : ¬ (k = .letBind ∧ names) :=
    fun hBoth => hKind hBoth.1
  rw [liveUnder, annotate, liveStages, if_neg (hNot _),
    liveUnderAll]

theorem liveUnder_of_not_stage
    (hKind : k.isStage = false) :
    liveUnder (.node i k p ps cs) notes =
      liveUnderAll cs notes := by
  have hLet : k ≠ .letBind := by
    rintro rfl
    cases hKind
  rw [liveUnder_node notes hLet, hKind,
    if_neg Bool.false_ne_true, List.nil_append]

/- A `let` that drops its variable has no live value. -/
theorem liveUnder_letBind
    (source v e : Tree) :
    liveUnder (.node i .letBind p ps [source, v, e]) notes =
      i :: (source.liveUnder notes ++ (v.liveUnder notes ++
        (if keepsBinding (annotate notes
            (.node i .letBind p ps [source, v, e])) then
          e.liveUnder notes
        else []))) := by
  cases hKeeps : keepsBinding (annotate notes
      (.node i .letBind p ps [source, v, e])) <;>
  · simp only [annotate, annotateAll] at hKeeps
    simp [liveUnder, annotate, annotateAll, liveStages,
      liveStagesAll, liveStagesExcept, Kind.isStage, hKeeps]

end Tree

end Flwor

------------------------------------------------------------
-- Expression Slots
------------------------------------------------------------

namespace Flwor

namespace Kind

/- The kinds of expressions that are compiled. -/
def isCompiled : Kind → Bool
  | .literal => true
  | .emptySequence => true
  | .variableRef => true
  | .pipeExpr => true
  | k => k.hasOperands

theorem isStage_of_isCompiled
    {k : Kind}
    (hCompiled : k.isCompiled) :
    k.isStage = false := by
  cases k <;> first | rfl | cases hCompiled

/- A kind is compiled if it is not turned down as such. -/
theorem isCompiled_iff
    (library : Library)
    (k : Kind)
    (i : NodeId)
    (p : Payload)
    (ps : Properties)
    (layout : Layout) :
    k.isCompiled ↔
      Compile.expr library (.node i k p ps []) layout ≠
        .error (.unsupported (Compile.unsupported k)) := by
  cases k
  case literal =>
    refine iff_of_true rfl ?_
    rw [Compile.expr]
    cases p.item? <;> rintro ⟨⟩
  case arithmeticExpr =>
    refine iff_of_true rfl ?_
    rw [Compile.expr]
    cases p.arithmetic? <;> rintro ⟨⟩
  case comparisonExpr =>
    refine iff_of_true rfl ?_
    rw [Compile.expr]
    cases p.comparison? <;> rintro ⟨⟩
  case functionCall =>
    refine iff_of_true rfl ?_
    rw [Compile.expr]
    cases p.label? with
    | none => rintro ⟨⟩
    | some name =>
        change (((library.resolve name 0).mapError
          Failure.evaluation) >>= fun f =>
            pure (Expr.call f [])) ≠ _
        cases library.resolve name 0 <;> rintro ⟨⟩
  case variableRef =>
    refine iff_of_true rfl ?_
    rw [Compile.expr]
    cases p.var? with
    | none => rintro ⟨⟩
    | some name =>
        change (Compile.slotFor layout name >>= fun slot =>
          pure (Expr.variable slot)) ≠ _
        rw [Compile.slotFor]
        cases layout.slot? name <;> rintro ⟨⟩
  all_goals
    first
    | exact iff_of_true rfl (by
        rw [Compile.expr]
        rintro ⟨⟩)
    | exact iff_of_false Bool.false_ne_true
        (fun hOther => hOther (by simp [Compile.expr]))

/- Nodes that name a variable or a value. -/
def isLeaf : Kind → Bool
  | .variable => true
  | .posVariable => true
  | .variableRef => true
  | .literal => true
  | _ => false

end Kind

namespace Tree

/-
  The expressions directly below a node: the operands of an
  expression, or what a stage or an end evaluates.
-/
def slots
    (t : Tree) : List Tree :=
  if t.kind.isCompiled ∧ t.kind ≠ .pipeExpr then t.children
  else t.ownExpressions

/-
  Expressions of a tree are of kinds that are compiled, and
  what names a variable or a value is a leaf.
-/
def KeepsSlots
    (t : Tree) : Prop :=
  ∀ s ∈ t.subtrees,
    (∀ e ∈ s.slots, e.kind.isCompiled) ∧
      (s.kind.isLeaf → s.children = [])

instance
    (t : Tree) :
    Decidable t.KeepsSlots :=
  inferInstanceAs (Decidable (∀ s ∈ t.subtrees,
    (∀ e ∈ s.slots, e.kind.isCompiled) ∧
      (s.kind.isLeaf → s.children = [])))

theorem KeepsSlots.child
    {t c : Tree}
    (hSlots : t.KeepsSlots)
    (hChild : c ∈ t.children) :
    c.KeepsSlots :=
  fun s hMem => hSlots s (mem_subtrees_of_child hChild hMem)

variable {t e : Tree}

theorem KeepsSlots.operand
    (hSlots : t.KeepsSlots)
    (hKind : t.kind.isCompiled)
    (hPipe : t.kind ≠ .pipeExpr)
    (hE : e ∈ t.children) :
    e.kind.isCompiled := by
  refine (hSlots t (mem_subtrees_self t)).1 e ?_
  rw [slots, if_pos ⟨hKind, hPipe⟩]
  exact hE

theorem KeepsSlots.own
    (hSlots : t.KeepsSlots)
    (hKind : t.kind.isCompiled = false)
    (hE : e ∈ t.ownExpressions) :
    e.kind.isCompiled := by
  refine (hSlots t (mem_subtrees_self t)).1 e ?_
  rw [slots, hKind, if_neg (by simp)]
  exact hE

theorem KeepsSlots.leaf
    (hSlots : t.KeepsSlots)
    (hLeaf : t.kind.isLeaf) :
    t.children = [] :=
  (hSlots t (mem_subtrees_self t)).2 hLeaf

end Tree

end Flwor

------------------------------------------------------------
-- Shapes of Stages
------------------------------------------------------------

namespace Flwor

/- How many children a node may have, where that is fixed. -/
def Kind.childCounts : Kind → List Nat
  | .start => [0]
  | .pipeExpr => [1]
  | .orderSpec => [1]
  | .groupSpec => [1]
  | .finish => [1, 2]
  | .selection => [2]
  | .count => [2]
  | .aggregateSpec => [2]
  | .joinExpr => [2]
  | .letBind => [3]
  | .join => [3]
  | .forBind => [3, 4]
  | _ => []

namespace Tree

variable {i : NodeId}
variable {k : Kind}
variable {p : Payload}
variable {ps : Properties}
variable {cs : List Tree}

theorem Shaped.length_mem
    (hShaped : (Tree.node i k p ps cs).Shaped)
    (hCounts : k.childCounts ≠ []) :
    cs.length ∈ k.childCounts := by
  rcases hShaped.self with ⟨place, hRule⟩
  cases k
  case start =>
    simp only [brokenRule?, kind_node, children_node,
      ShapeRule.countIn_eq_none] at hRule
    exact hRule
  all_goals
    first
    | exact (hCounts rfl).elim
    | simp only [brokenRule?, kind_node, children_node,
        Option.orElse_eq_orElse, Option.orElse_eq_or,
        Option.or_eq_none_iff,
        ShapeRule.countIn_eq_none] at hRule
      exact hRule.1

/- Some kinds of nodes have one number of children only. -/
theorem Shaped.length_eq
    {n : Nat}
    (hShaped : (Tree.node i k p ps cs).Shaped)
    (hCount : k.childCounts = [n]) :
    cs.length = n := by
  have hMem :=
    hShaped.length_mem (hCount ▸ List.cons_ne_nil n [])
  rwa [hCount, List.mem_singleton] at hMem

/- A start has nothing before it. -/
theorem Shaped.start
    (hShaped : (Tree.node i .start p ps cs).Shaped) :
    cs = [] :=
  List.eq_nil_of_length_eq_zero (hShaped.length_eq rfl)

/- An order spec has one key. -/
theorem Shaped.sortKey
    (hShaped : (Tree.node i .orderSpec p ps cs).Shaped) :
    ∃ e, cs = [e] :=
  List.length_eq_one_iff.mp (hShaped.length_eq rfl)

/- A filter has an input and a predicate. -/
theorem Shaped.selection
    (hShaped : (Tree.node i .selection p ps cs).Shaped) :
    ∃ input e, cs = [input, e] ∧ input.kind.isStage := by
  rcases hShaped.input rfl with ⟨input, e, rest, rfl, hStage⟩
  rcases List.length_eq_two.mp (hShaped.length_eq rfl) with
    ⟨_, _, hCs⟩
  cases hCs
  exact ⟨input, e, rfl, hStage⟩

/- A count has an input and a variable. -/
theorem Shaped.count
    (hShaped : (Tree.node i .count p ps cs).Shaped) :
    ∃ input v, cs = [input, v] ∧ input.kind.isStage ∧
      v.kind = .variable := by
  rcases hShaped.input rfl with ⟨input, v, rest, rfl, hStage⟩
  rcases List.length_eq_two.mp (hShaped.length_eq rfl) with
    ⟨_, _, hCs⟩
  cases hCs
  rcases hShaped.variable (by tauto) with ⟨_, hV, hVariable⟩
  cases hV
  exact ⟨input, v, rfl, hStage, hVariable⟩

/- A `let` has a variable and an expression. -/
theorem Shaped.letBind
    (hShaped : (Tree.node i .letBind p ps cs).Shaped) :
    ∃ input v e, cs = [input, v, e] ∧
      input.kind.isStage ∧ v.kind = .variable := by
  rcases hShaped.input rfl with ⟨input, v, rest, rfl, hStage⟩
  rcases List.length_eq_three.mp (hShaped.length_eq rfl) with
    ⟨_, _, e, hCs⟩
  cases hCs
  rcases hShaped.variable (by tauto) with ⟨_, hV, hVariable⟩
  cases hV
  exact ⟨input, v, e, rfl, hStage, hVariable⟩

/- The third of four children of a loop is a position. -/
theorem Shaped.posVariable
    {input v position e : Tree}
    (hShaped : (Tree.node i .forBind p ps
      [input, v, position, e]).Shaped) :
    position.kind = .posVariable := by
  rcases hShaped.self with ⟨place, hRule⟩
  simp only [brokenRule?, kind_node, children_node,
    Option.orElse_eq_orElse, Option.orElse_eq_or,
    Option.or_eq_none_iff, List.length_cons, List.length_nil,
    if_pos, ShapeRule.kindAt_eq_none] at hRule
  rcases hRule.2.2.2 with ⟨_, hHere, hKind⟩
  cases hHere
  exact hKind

/- A loop has its variables between its input and its source. -/
theorem Shaped.forBind
    (hShaped : (Tree.node i .forBind p ps cs).Shaped) :
    ∃ input leaves e, cs = input :: (leaves ++ [e]) ∧
      input.kind.isStage ∧ ∀ l ∈ leaves, l.kind.isLeaf := by
  rcases hShaped.input rfl with ⟨input, v, rest, rfl, hStage⟩
  rcases hShaped.variable (by tauto) with ⟨_, hV, hVariable⟩
  cases hV
  have hLeaf : v.kind.isLeaf := by rw [hVariable]; rfl
  have hCount := hShaped.length_mem (List.cons_ne_nil 3 [4])
  rcases rest with _ | ⟨e, _ | ⟨e', _ | ⟨_, _⟩⟩⟩
  · simp [Kind.childCounts] at hCount
  · exact ⟨input, [v], e, rfl, hStage,
      List.forall_mem_singleton.mpr hLeaf⟩
  · have hPosition : e.kind.isLeaf := by
      rw [hShaped.posVariable]; rfl
    exact ⟨input, [v, e], e', rfl, hStage,
      forall_mem_pair hLeaf hPosition⟩
  · simp [Kind.childCounts] at hCount

/- What a grouping has besides its input. -/
theorem kind_of_specsInOrder
    {seen : Bool}
    {kinds : List Kind}
    (hOrder : ShapeRule.specsInOrder seen kinds) :
    ∀ k ∈ kinds, k = .groupSpec ∨ k = .aggregateSpec := by
  induction kinds generalizing seen with
  | nil => exact List.forall_mem_nil _
  | cons k rest ih =>
      cases k <;>
        simp only [ShapeRule.specsInOrder, Bool.and_eq_true,
          Bool.false_eq_true] at hOrder
      · exact List.forall_mem_cons.mpr
          ⟨.inl rfl, ih hOrder.2⟩
      · exact List.forall_mem_cons.mpr ⟨.inr rfl, ih hOrder⟩

/- The specs of a grouping have leaves only. -/
theorem Shaped.groupBy
    {input : Tree}
    {specs : List Tree}
    (hShaped : (Tree.node i .groupBy p ps
      (input :: specs)).Shaped) :
    ∀ spec ∈ specs, spec.kind.isStage = false ∧
      ∀ c ∈ spec.children, c.kind.isLeaf := by
  rcases hShaped.self with ⟨place, hRule⟩
  simp only [brokenRule?, kind_node, children_node,
    Option.orElse_eq_orElse, Option.orElse_eq_or,
    Option.or_eq_none_iff, ShapeRule.brokenUnless_eq_none,
    List.drop_one, List.tail_cons] at hRule
  intro spec hSpec
  have hKind := kind_of_specsInOrder hRule.2.1 spec.kind
    (List.mem_map_of_mem hSpec)
  have hChild := hShaped.child
    (List.mem_cons_of_mem input hSpec)
  rcases spec with ⟨j, k, q, qs, parts⟩
  rcases hKind with rfl | rfl
  · rcases List.length_eq_one_iff.mp
      (hChild.length_eq rfl) with ⟨c, rfl⟩
    rcases hChild.groupSpec rfl with ⟨_, hC, hKey⟩
    cases hC
    exact ⟨rfl, List.forall_mem_singleton.mpr
      (by rw [hKey]; rfl)⟩
  · rcases List.length_eq_two.mp
      (hChild.length_eq rfl) with ⟨c, d, rfl⟩
    rcases hChild.aggregateSpec rfl with
      ⟨⟨_, hC, hTarget⟩, _, hD, hSource⟩
    cases hC
    cases hD
    exact ⟨rfl, forall_mem_pair (by rw [hTarget]; rfl)
      (by rw [hSource]; rfl)⟩

/- An end has an input, and at most a result. -/
theorem Shaped.finish
    {input : Tree}
    {rest : List Tree}
    (hShaped : (Tree.node i .finish p ps
      (input :: rest)).Shaped) :
    rest.length ≤ 1 := by
  have hCount := hShaped.length_mem (List.cons_ne_nil 1 [2])
  simp only [Kind.childCounts, List.length_cons,
    List.mem_cons, List.not_mem_nil, or_false] at hCount
  omega

end Tree

end Flwor
