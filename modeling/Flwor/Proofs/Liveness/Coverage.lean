import Flwor.Proofs.Liveness.Annotated
import Flwor.Proofs.Scoping

/-
  Projections that keep what the analysis looked up keep
  everything that is read.

  The analysis goes by names.  It is right as long as each
  wanted name comes from where the analysis looks for it: a
  grouping must not drop a binding that hides a variable of
  the context, and a join must take a name from the input
  that has it.  A tree without projections that follows the
  scoping rules then follows them with the projections, for
  the names that are wanted.

  Key definitions include:
    * `Notes.Records`
    * `Tree.Traced`
    * `Tree.handedOn`

  Key theorems include:
    * `Tree.covered`
-/

------------------------------------------------------------
-- Wanted Names
------------------------------------------------------------

namespace Flwor

/- A stage is annotated with the wanted names. -/
def Notes.Records
    (notes : Notes)
    (stage : NodeId)
    (wanted : Set String) : Prop :=
  ∃ names, notes stage = some names ∧
    ∀ name, name ∈ names ↔ name ∈ wanted

namespace Tree

/-
  Wanted names come from the right input of a join if they
  are visible there, and the analysis sees this.  A name that
  the right key reads, but that the right input does not
  have, must not be one that only the left input has.
-/
def JoinTraced
    (wanted : Set String)
    (left leftKey right rightKey : Tree) : Prop :=
  let missing := right.lookups
    {n | n ∈ wanted ∨ n ∈ rightKey.reads}
  ∀ name ∈ wanted,
    if name ∈ right.visible then
      name ∈ rightKey.reads ∨ name ∉ missing
    else
      name ∈ missing ∧
        (name ∈ rightKey.reads →
          name ∈ leftKey.reads ∨ name ∉ left.visible)

/-
  Wanted names come from where the analysis looks for them:
  what a grouping does not bind is looked up in the context.
-/
def Traced
    (wanted : Set String) : Tree → Prop
  | .node i .groupBy p ps cs =>
      ∀ name ∈ wanted,
        name ∉ bound (.node i .groupBy p ps cs) →
          name ∈ lookups (.node i .groupBy p ps cs) wanted
  | .node _ .join _ _
      [left, .node _ _ _ _ (leftKey :: rightKey :: _),
        right] =>
      JoinTraced wanted left leftKey right rightKey
  | _ => True

/- What a demand asks for, of the notes and of the tree. -/
structure Served
    (notes : Notes)
    (s : Tree)
    (demand : Set String) : Prop where
  records : notes.Records s.id demand
  traced : s.Traced demand

/- The demands on the stages in an expression are met. -/
def ExprServed
    (notes : Notes)
    (t : Tree) : Prop :=
  ∀ s demand, t.ExprDemands s demand → s.Served notes demand

/- The demands on a stage and on those before it are met. -/
def StageServed
    (notes : Notes)
    (wanted : Set String)
    (t : Tree) : Prop :=
  ∀ s demand, t.StageDemands wanted s demand →
    s.Served notes demand

/-
  What a stage hands on where some names are wanted and the
  context keeps some: what is wanted, and what it takes from
  the context.
-/
def handedOn
    (t : Tree)
    (context wanted kept : Set String) : Set String :=
  {n | (n ∈ context ∨ n ∈ t.visible) ∧
    (n ∈ wanted ∨ n ∈ kept ∧ n ∉ t.visible)}

end Tree

end Flwor

------------------------------------------------------------
-- Looked Up Names
------------------------------------------------------------

namespace Flwor

namespace Tree

theorem mem_readsAll
    {cs : List Tree}
    {c : Tree}
    (hC : c ∈ cs)
    {name : String}
    (hName : name ∈ c.reads) :
    name ∈ readsAll cs := by
  induction cs with
  | nil => cases hC
  | cons d rest ih =>
      rw [readsAll]
      rcases List.mem_cons.mp hC with rfl | hC
      · exact .inl hName
      · exact .inr (ih hC)

theorem readsAt_eq
    {cs : List Tree}
    {index : Nat}
    {c : Tree}
    (hC : cs[index]? = some c) :
    readsAt index cs = c.reads := by
  induction cs generalizing index with
  | nil => cases hC
  | cons d rest ih =>
      cases index with
      | zero =>
          cases hC
          rw [readsAt]
      | succ index =>
          rw [readsAt]
          exact ih hC

theorem lastReads_eq
    {cs : List Tree}
    {c : Tree}
    (hC : cs.getLast? = some c) :
    lastReads cs = c.reads := by
  induction cs with
  | nil => cases hC
  | cons d rest ih =>
      cases rest with
      | nil =>
          rw [List.getLast?_singleton] at hC
          cases hC
          rw [lastReads]
      | cons e more =>
          rw [lastReads]
          exact ih hC

theorem mem_sortReads
    {specs : List Tree}
    {spec key : Tree}
    (hSpec : spec ∈ specs)
    (hKey : spec.children[0]? = some key)
    {name : String}
    (hName : name ∈ key.reads) :
    name ∈ sortReads specs := by
  induction specs with
  | nil => cases hSpec
  | cons d rest ih =>
      rcases d with ⟨i, k, p, ps, cs⟩
      rw [sortReads]
      rcases List.mem_cons.mp hSpec with rfl | hSpec
      · rw [children] at hKey
        rw [← readsAt_eq hKey] at hName
        exact .inl hName
      · exact .inr (ih hSpec)

/- What a stage evaluates, it reads. -/
theorem mem_wants_of_evaluates
    {wanted : Set String}
    {t c : Tree}
    (hOwn : Evaluates wanted t c)
    {name : String}
    (hName : name ∈ c.reads) :
    name ∈ t.wants wanted := by
  rcases t with ⟨i, k, p, ps, cs⟩
  right
  cases k <;>
    first
    | exact hOwn.elim
    | skip
  case forBind =>
    rw [← lastReads_eq hOwn] at hName
    exact .inl hName
  case letBind =>
    rw [← readsAt_eq hOwn.2] at hName
    exact ⟨hOwn.1, .inl hName⟩
  case selection =>
    rw [← readsAt_eq hOwn] at hName
    exact hName
  case orderBy =>
    rcases hOwn with ⟨spec, hSpec, hKey⟩
    cases cs with
    | nil => cases hSpec
    | cons input specs =>
        simp only [ownReads, kind_node, children_node,
          tailSortReads]
        exact mem_sortReads hSpec hKey hName

/- What is supplied comes from the context or is visible. -/
theorem Supplies.subset
    {library : Library}
    {lenient : Prop}
    (t : Tree)
    {context handed : Set String}
    (hSupplies : Supplies library lenient context handed t)
    {name : String}
    (hName : name ∈ handed) :
    name ∈ context ∨ name ∈ t.visible := by
  induction t using Tree.induction generalizing handed with
  | node i k p ps cs ih =>
      -- What is not bound by the stage comes from its input.
      have hFrom {input : Tree} {rest : List Tree}
          {read : Set String}
          (hKind : k.hasInput) (hGroup : k ≠ .groupBy)
          (hCs : cs = input :: rest)
          (hInput : Supplies library lenient context read
            input)
          (hHanded : name ∉ bound (.node i k p ps cs) →
            name ∈ read) :
          name ∈ context ∨
            name ∈ visible (.node i k p ps cs) := by
        subst hCs
        rw [visible_input hKind hGroup, List.mem_append]
        by_cases hOwn : name ∈
            bound (.node i k p ps (input :: rest))
        · exact .inr (.inr hOwn)
        · exact (ih input (by simp) hInput
            (hHanded hOwn)).imp_right .inl
      cases hSupplies with
      | start hHanded => exact .inl (hHanded hName)
      | forBind hInput _ _ _ _ hHanded =>
          exact hFrom rfl (by simp) rfl hInput
            (hHanded name hName)
      | letBind hInput hVar _ _ _ _ hHanded =>
          refine hFrom rfl (by simp) rfl hInput
            (fun hOwn => ?_)
          refine hHanded name hName (fun hEq => hOwn ?_)
          simp [bound, kind, hVar, hEq]
      | deadLet hInput _ _ _ _ hHanded =>
          exact hFrom rfl (by simp) rfl hInput
            (fun _ => hHanded name hName)
      | selection hInput _ _ hHanded =>
          exact hFrom rfl (by simp) rfl hInput
            (fun _ => hHanded hName)
      | orderBy hInput _ _ _ _ hHanded =>
          exact hFrom rfl (by simp) rfl hInput
            (fun _ => hHanded hName)
      | groupBy _ _ _ hHanded =>
          rw [visible_groupBy]
          by_contra hNot
          rw [not_or] at hNot
          exact hNot.1 (hHanded name hName hNot.2)
      | count hInput hVar hHanded =>
          refine hFrom rfl (by simp) rfl hInput
            (fun hOwn => ?_)
          refine hHanded name hName (fun hEq => hOwn ?_)
          simp [bound, kind, hVar, hEq]
      | join hLeft _ _ _ _ _ _ _ _ hHandedLeft _ =>
          rw [visible_join, List.mem_append]
          by_contra hNot
          rw [not_or, not_or] at hNot
          have hRead := hHandedLeft name hName hNot.2.2
          rcases ih _ (by simp) hLeft hRead with
            hContext | hVisible
          · exact hNot.1 hContext
          · exact hNot.2.1 hVisible

end Tree

end Flwor

------------------------------------------------------------
-- Coverage
------------------------------------------------------------

namespace Flwor

namespace Tree

variable (library : Library)
variable (notes : Notes)

/-
  With projections, an expression reads what it looks up of
  what it read.
-/
def ExprCovered
    (t : Tree) : Prop :=
  ∀ (context names : Set String),
    ReadsFrom library False context t →
      ExprServed notes t →
        (∀ name ∈ t.reads, name ∈ context → name ∈ names) →
          ReadsFrom library True names (t.annotate notes)

/- With projections, a stage supplies what is wanted of it. -/
def StageCovered
    (t : Tree) : Prop :=
  ∀ (context handed wanted kept : Set String),
    Supplies library False context handed t →
      StageServed notes wanted t →
        (∀ name ∈ t.lookups wanted,
          name ∈ context → name ∈ kept) →
          Supplies library True kept
            (t.handedOn context wanted kept)
              (t.annotate notes)

variable {library : Library}
variable {notes : Notes}
variable {i : NodeId}
variable {k : Kind}
variable {p : Payload}
variable {ps : Properties}
variable {cs : List Tree}

theorem hasOperands_of_binary
    (hBinary : Binary k p) :
    k.hasOperands := by
  cases k <;> first | exact hBinary.elim | rfl

/- An operand of an expression is covered with it. -/
theorem ExprCovered.operand
    {c : Tree}
    (hCovered : ExprCovered library notes c)
    {context names : Set String}
    (hReads : ReadsFrom library False context c)
    (hKind : k.hasOperands)
    (hServed : ExprServed notes (.node i k p ps cs))
    (hNames : ∀ name ∈ readsAll cs,
      name ∈ context → name ∈ names)
    (hChild : c ∈ cs) :
    ReadsFrom library True names (c.annotate notes) :=
  hCovered context names hReads
    (fun s demand hDemand => hServed s demand
      (.operand hKind hChild hDemand))
    (fun name hName => hNames name (mem_readsAll hChild hName))

theorem getElem?_annotateAll
    {index : Nat}
    {c : Tree}
    (hC : cs[index]? = some c) :
    (annotateAll notes cs)[index]? =
      some (c.annotate notes) := by
  rw [annotateAll_eq, List.getElem?_map, hC, Option.map_some]

/- Every expression but a nested pipeline. -/
theorem exprCovered_node
    (hPipe : k = .pipeExpr →
      ExprCovered library notes (.node i k p ps cs))
    (hCs : ∀ c ∈ cs, ExprCovered library notes c) :
    ExprCovered library notes (.node i k p ps cs) := by
  intro context names hReads hServed hNames
  cases hReads with
  | literal hItem => exact .literal hItem
  | emptySequence => exact .emptySequence
  | sequence hParts =>
      rw [reads_of_hasOperands rfl] at hNames
      rw [annotate]
      refine .sequence (fun c hC => ?_)
      rw [annotateAll_eq, List.mem_map] at hC
      rcases hC with ⟨d, hD, rfl⟩
      exact (hCs d hD).operand (hParts d hD) rfl hServed
        hNames hD
  | binary hKind hLeft hRight hReadsLeft hReadsRight =>
      rw [reads_of_hasOperands (hasOperands_of_binary hKind)]
        at hNames
      have hLeftMem := List.mem_of_getElem? hLeft
      have hRightMem := List.mem_of_getElem? hRight
      exact .binary hKind (getElem?_annotateAll hLeft)
        (getElem?_annotateAll hRight)
        ((hCs _ hLeftMem).operand hReadsLeft
          (hasOperands_of_binary hKind) hServed hNames
            hLeftMem)
        ((hCs _ hRightMem).operand hReadsRight
          (hasOperands_of_binary hKind) hServed hNames
            hRightMem)
  | cond hCondition hYes hNo hReadsCondition hReadsYes
      hReadsNo =>
      rw [reads_of_hasOperands rfl] at hNames
      have hConditionMem := List.mem_of_getElem? hCondition
      have hYesMem := List.mem_of_getElem? hYes
      have hNoMem := List.mem_of_getElem? hNo
      exact .cond (getElem?_annotateAll hCondition)
        (getElem?_annotateAll hYes)
        (getElem?_annotateAll hNo)
        ((hCs _ hConditionMem).operand hReadsCondition rfl
          hServed hNames hConditionMem)
        ((hCs _ hYesMem).operand hReadsYes rfl hServed
          hNames hYesMem)
        ((hCs _ hNoMem).operand hReadsNo rfl hServed hNames
          hNoMem)
  | call hName hFunction hArguments =>
      rw [reads_of_hasOperands rfl] at hNames
      have hLength : (annotateAll notes cs).length =
          cs.length := by
        rw [annotateAll_eq, List.length_map]
      rw [← hLength] at hFunction
      rw [annotate]
      refine .call hName hFunction (fun c hC => ?_)
      rw [annotateAll_eq, List.mem_map] at hC
      rcases hC with ⟨d, hD, rfl⟩
      exact (hCs d hD).operand (hArguments d hD) rfl hServed
        hNames hD
  | variableRef hName hMem =>
      refine .variableRef hName (hNames _ ?_ hMem)
      rw [reads]
      exact hName
  | pipe hTail hResult =>
      exact hPipe rfl context names (.pipe hTail hResult)
        hServed hNames

variable {input : Tree}
variable {rest : List Tree}
variable {context read handed wanted kept : Set String}

/- What is wanted of the input is supplied by it. -/
theorem StageCovered.ofInput
    (hCovered : StageCovered library notes input)
    (hKind : k.hasInput)
    (hInput : Supplies library False context read input)
    (hServed : StageServed notes wanted
      (.node i k p ps (input :: rest)))
    (hKept : ∀ name ∈
      lookups (.node i k p ps (input :: rest)) wanted,
        name ∈ context → name ∈ kept) :
    Supplies library True kept
      (input.handedOn context
        (wants (.node i k p ps (input :: rest)) wanted) kept)
          (input.annotate notes) := by
  rw [lookups_input hKind] at hKept
  exact hCovered context read _ kept hInput
    (fun s demand hDemand => hServed s demand
      (.input hKind hDemand)) hKept

/- What a stage reads is supplied by its input. -/
theorem mem_handedOn_input
    {t : Tree}
    (hInput : Supplies library False context read input)
    {name : String}
    (hWants : name ∈ t.wants wanted)
    (hRead : name ∈ read) :
    name ∈ input.handedOn context (t.wants wanted) kept :=
  ⟨Supplies.subset input hInput hRead, .inl hWants⟩

/- What a stage evaluates is covered with it. -/
theorem ExprCovered.own
    {t c : Tree}
    (hCovered : ExprCovered library notes c)
    (hOwn : Evaluates wanted t c)
    (hInput : Supplies library False context read input)
    (hReads : ReadsFrom library False read c)
    (hServed : StageServed notes wanted t) :
    ReadsFrom library True
      (input.handedOn context (t.wants wanted) kept)
        (c.annotate notes) :=
  hCovered read _ hReads
    (fun s demand hDemand => hServed s demand
      (.own hOwn hDemand))
    (fun _ hName hRead => mem_handedOn_input hInput
      (mem_wants_of_evaluates hOwn hName) hRead)

/- What a stage does not bind is handed on by its input. -/
theorem handedOn_input
    (hKind : k.hasInput)
    (hGroup : k ≠ .groupBy)
    {name : String}
    (hName : name ∈
      handedOn (.node i k p ps (input :: rest)) context wanted
        kept)
    (hBound : name ∉ bound (.node i k p ps (input :: rest))) :
    name ∈ input.handedOn context
      (wants (.node i k p ps (input :: rest)) wanted)
        kept := by
  unfold handedOn at hName ⊢
  rw [visible_input hKind hGroup] at hName
  rcases hName with ⟨hScope, hWanted⟩
  rw [List.mem_append] at hScope hWanted
  refine ⟨?_, ?_⟩
  · exact hScope.imp_right (fun h => h.resolve_right hBound)
  · rcases hWanted with hWanted | ⟨hKept, hNot⟩
    · exact .inl (.inl ⟨hWanted, hBound⟩)
    · exact .inr ⟨hKept, fun h => hNot (.inl h)⟩

theorem getLast?_annotateAll
    {c : Tree}
    (hC : cs.getLast? = some c) :
    (annotateAll notes cs).getLast? =
      some (c.annotate notes) := by
  rw [annotateAll_eq, List.getLast?_map, hC, Option.map_some]

theorem stageCovered_start :
    StageCovered library notes (.node i .start p ps cs) := by
  intro context handed wanted kept hSupplies hServed hKept
  refine .start (fun name hName => ?_)
  rcases hName with ⟨hScope, hWanted | ⟨hName, _⟩⟩
  · refine hKept name (by simpa [lookups] using hWanted) ?_
    simpa [visible] using hScope
  · exact hName

/- The same bindings, in the form of an annotated node. -/
theorem binding?_annotated
    {var : String}
    (hVar : binding? (.node i k p ps (input :: rest)) =
      some var) :
    binding? (.node i k p (ps.annotate (notes i))
      (input.annotate notes :: annotateAll notes rest)) =
        some var := by
  rw [← hVar]
  exact binding?_annotate notes (.node i k p ps (input :: rest))

theorem bound_annotated :
    bound (.node i k p (ps.annotate (notes i))
      (input.annotate notes :: annotateAll notes rest)) =
        bound (.node i k p ps (input :: rest)) :=
  bound_annotate notes (.node i k p ps (input :: rest))

theorem stageCovered_forBind
    (hStage : StageCovered library notes input)
    (hExprs : ∀ c ∈ input :: rest,
      ExprCovered library notes c) :
    StageCovered library notes
      (.node i .forBind p ps (input :: rest)) := by
  intro context handed wanted kept hSupplies hServed hKept
  cases hSupplies with
  | forBind hInput hSource hReads hCheck hVar hHanded =>
      have hOwn : Evaluates wanted
          (.node i .forBind p ps (input :: rest)) _ :=
        hSource
      have hSourceMem := List.mem_of_getLast? hSource
      refine .forBind (hStage.ofInput rfl hInput hServed hKept)
        (getLast?_annotateAll hSource)
        ((hExprs _ hSourceMem).own hOwn hInput hReads hServed)
        (fun name hName => ?_) (binding?_annotated hVar)
        (fun name hName hNot => ?_)
      · rw [Properties.check_annotate] at hName
        exact mem_handedOn_input hInput
          (.inr (.inr hName)) (hCheck name hName)
      · rw [bound_annotated] at hNot
        exact handedOn_input rfl (by simp) hName hNot

/- A `let` that is wanted keeps its value. -/
theorem stageCovered_letBind
    (hStage : StageCovered library notes input)
    (hExprs : ∀ c ∈ input :: rest,
      ExprCovered library notes c) :
    StageCovered library notes
      (.node i .letBind p ps (input :: rest)) := by
  intro context handed wanted kept hSupplies hServed hKept
  rcases (hServed _ _ .self).records with
    ⟨names, hNames, hRecorded⟩
  simp only [id] at hNames
  have hLive (var : String) :
      Compile.isLive (ps.annotate (notes i)) var ↔
        var ∈ wanted := by
    rw [Compile.isLive, hNames, Properties.vars?_annotate,
      ← hRecorded]
    simp
  have hUnbound {var name : String}
      (hVar : binding?
        (.node i .letBind p ps (input :: rest)) = some var)
      (hName : name ≠ var) :
      name ∉ bound (.node i .letBind p ps (input :: rest)) := by
    simp [bound, kind, hVar, hName]
  cases hSupplies with
  | letBind hInput hVar hWasLive hValue hReads hCheck
      hHanded =>
      rename_i read value var
      by_cases hWanted : var ∈ wanted
      · have hIsWanted : IsWanted
            (.node i .letBind p ps (input :: rest)) wanted :=
          ⟨var, hWanted, hVar⟩
        have hOwn : Evaluates wanted
            (.node i .letBind p ps (input :: rest)) value :=
          ⟨hIsWanted, hValue⟩
        have hValueMem := List.mem_of_getElem? hValue
        refine .letBind
          (hStage.ofInput rfl hInput hServed hKept)
          (binding?_annotated hVar) ((hLive var).mpr hWanted)
          (getElem?_annotateAll hValue)
          ((hExprs _ hValueMem).own hOwn hInput hReads
            hServed)
          (fun name hName => ?_) (fun name hName hNot => ?_)
        · rw [Properties.check_annotate] at hName
          exact mem_handedOn_input hInput
            (.inr ⟨hIsWanted, .inr hName⟩)
            (hCheck name hName)
        · exact handedOn_input rfl (by simp) hName
            (hUnbound hVar hNot)
      · have hUnread (name : String)
            (hName : name ∈ handedOn
              (.node i .letBind p ps (input :: rest)) context
                wanted kept) :
            name ≠ var := by
          rintro rfl
          rcases hName.2 with hName | ⟨_, hName⟩
          · exact hWanted hName
          · apply hName
            rw [visible_input rfl (by simp),
              List.mem_append]
            exact .inr (by simp [bound, kind, hVar])
        exact .deadLet
          (hStage.ofInput rfl hInput hServed hKept)
          (binding?_annotated hVar)
          (fun h => hWanted ((hLive var).mp h)) trivial
          (fun h => hUnread var h rfl)
          (fun name hName => handedOn_input rfl (by simp)
            hName (hUnbound hVar (hUnread name hName)))
  | deadLet _ _ _ hLenient _ _ => exact hLenient.elim

theorem stageCovered_selection
    (hStage : StageCovered library notes input)
    (hExprs : ∀ c ∈ input :: rest,
      ExprCovered library notes c) :
    StageCovered library notes
      (.node i .selection p ps (input :: rest)) := by
  intro context handed wanted kept hSupplies hServed hKept
  cases hSupplies with
  | selection hInput hPredicate hReads hHanded =>
      have hOwn : Evaluates wanted
          (.node i .selection p ps (input :: rest)) _ :=
        hPredicate
      have hPredicateMem := List.mem_of_getElem? hPredicate
      exact .selection
        (hStage.ofInput rfl hInput hServed hKept)
        (getElem?_annotateAll hPredicate)
        ((hExprs _ hPredicateMem).own hOwn hInput hReads
          hServed)
        (fun name hName => handedOn_input rfl (by simp)
          hName (by simp [bound, kind]))

theorem stageCovered_count
    (hStage : StageCovered library notes input) :
    StageCovered library notes
      (.node i .count p ps (input :: rest)) := by
  intro context handed wanted kept hSupplies hServed hKept
  cases hSupplies with
  | count hInput hVar hHanded =>
      refine .count
        (hStage.ofInput rfl hInput hServed hKept)
        (binding?_annotated hVar)
        (fun name hName hNot => ?_)
      exact handedOn_input rfl (by simp) hName
        (by simp [bound, kind, hVar, hNot])

/- The projection of an input keeps what is read of it. -/
theorem keeps_annotate
    (hServed : StageServed notes wanted input) :
    (input.annotate notes).properties.Keeps
      (input.handedOn context wanted kept)
        (input.annotate notes).visible := by
  rcases (hServed _ _ .self).records with
    ⟨names, hNames, hRecorded⟩
  intro kept hKept name hName hVisible
  rw [properties_annotate, hNames,
    Properties.vars?_annotate] at hKept
  cases hKept
  rw [visible_annotate] at hVisible
  rcases hName.2 with hWanted | ⟨_, hNot⟩
  · exact (hRecorded name).mpr hWanted
  · exact (hNot hVisible).elim

theorem stageCovered_orderBy
    {specs : List Tree}
    (hStage : StageCovered library notes input)
    (hKeys : ∀ spec ∈ specs, ∀ key ∈ spec.children,
      ExprCovered library notes key) :
    StageCovered library notes
      (.node i .orderBy p ps (input :: specs)) := by
  intro context handed wanted kept hSupplies hServed hKept
  cases hSupplies with
  | orderBy hInput _ hOrders hReads hPresent hHanded =>
      have hInputServed : StageServed notes
          (wants (.node i .orderBy p ps (input :: specs))
            wanted) input :=
        fun s demand hDemand => hServed s demand
          (.input rfl hDemand)
      have hSpec {spec : Tree}
          (hMem : spec ∈ annotateAll notes specs) :
          ∃ d ∈ specs, d.annotate notes = spec := by
        rw [annotateAll_eq, List.mem_map] at hMem
        exact hMem
      refine .orderBy
        (hStage.ofInput rfl hInput hServed hKept)
        (keeps_annotate hInputServed)
        (fun spec hMem => ?_) (fun spec hMem key hKey => ?_)
        (fun spec hMem => ?_)
        (fun name hName => handedOn_input rfl (by simp)
          hName (by simp [bound, kind]))
      · rcases hSpec hMem with ⟨d, hD, rfl⟩
        rw [payload_annotate]
        exact hOrders d hD
      · rcases hSpec hMem with ⟨d, hD, rfl⟩
        rw [children_annotate, List.getElem?_map] at hKey
        rcases Option.map_eq_some_iff.mp hKey with
          ⟨c, hC, rfl⟩
        have hOwn : Evaluates wanted
            (.node i .orderBy p ps (input :: specs)) c :=
          ⟨d, hD, hC⟩
        exact (hKeys d hD c (List.mem_of_getElem? hC)).own
          hOwn hInput (hReads d hD c hC) hServed
      · rcases hSpec hMem with ⟨d, hD, rfl⟩
        rw [children_annotate]
        simpa using hPresent d hD

/- What a grouping does not bind comes from the context. -/
theorem stageCovered_groupBy
    (hStage : StageCovered library notes input) :
    StageCovered library notes
      (.node i .groupBy p ps (input :: rest)) := by
  intro context handed wanted kept hSupplies hServed hKept
  have hTraced := (hServed _ _ .self).traced
  cases hSupplies with
  | groupBy hInput hKeys hSources hHanded =>
      have hGroupKeys := groupKeys_annotate notes
        (.node i .groupBy p ps (input :: rest))
      have hAggregates := groupAggregates_annotate notes
        (.node i .groupBy p ps (input :: rest))
      rw [annotate, annotateAll] at hGroupKeys hAggregates
      refine .groupBy
        (hStage.ofInput rfl hInput hServed hKept)
        (fun name hName => ?_) (fun aggregate hMem => ?_)
        (fun name hName hNot => ?_)
      · rw [hGroupKeys] at hName
        exact mem_handedOn_input hInput
          (.inr (.inl hName)) (hKeys name hName)
      · rw [hAggregates] at hMem
        exact mem_handedOn_input hInput
          (.inr (.inr (List.mem_map_of_mem hMem)))
          (hSources aggregate hMem)
      · rw [bound_annotated] at hNot
        rcases hName with ⟨hScope, hWanted⟩
        rw [visible_groupBy] at hScope
        rcases hWanted with hWanted | ⟨hName, _⟩
        · exact hKept name (hTraced name hWanted hNot)
            (hScope.resolve_right hNot)
        · exact hName

/-
  Each input of a join supplies its share of the wanted
  names.
-/
theorem stageCovered_join
    {left right leftKey rightKey : Tree}
    {j : NodeId}
    {k : Kind}
    {q : Payload}
    {qs : Properties}
    (hLeftStage : StageCovered library notes left)
    (hRightStage : StageCovered library notes right)
    (hLeftExpr : ExprCovered library notes leftKey)
    (hRightExpr : ExprCovered library notes rightKey) :
    StageCovered library notes
      (.node i .join p ps
        [left, .node j k q qs [leftKey, rightKey],
          right]) := by
  intro context handed wanted kept hSupplies hServed hKept
  let missing :=
    right.lookups {n | n ∈ wanted ∨ n ∈ rightKey.reads}
  let toRight := rightWants right rightKey wanted
  let toLeft := leftWants leftKey right rightKey wanted
  have hTraced : JoinTraced wanted left leftKey right
      rightKey :=
    (hServed _ _ .self).traced
  have hLeftServed : StageServed notes toLeft left :=
    fun s demand hDemand => hServed s demand (.left hDemand)
  have hRightServed : StageServed notes toRight right :=
    fun s demand hDemand => hServed s demand (.right hDemand)
  have hLeftKeyServed : ExprServed notes leftKey :=
    fun s demand hDemand => hServed s demand
      (.joinKey (.inl rfl) hDemand)
  have hRightKeyServed : ExprServed notes rightKey :=
    fun s demand hDemand => hServed s demand
      (.joinKey (.inr rfl) hDemand)
  rw [lookups, joinLookups] at hKept
  cases hSupplies with
  | join hLeft hRight _ _ hComparison hLeftKey hRightKey
      hReadsLeft hReadsRight hHandedLeft hHandedRight =>
      cases hLeftKey
      cases hRightKey
      refine .join
        (hLeftStage context _ toLeft kept hLeft hLeftServed
          (fun name hName => hKept name (.inl hName)))
        (hRightStage context _ toRight kept hRight
          hRightServed
          (fun name hName => hKept name (.inr (.inl hName))))
        (keeps_annotate hLeftServed)
        (keeps_annotate hRightServed) hComparison rfl rfl
        (hLeftExpr _ _ hReadsLeft hLeftKeyServed
          (fun name hName hRead =>
            ⟨Supplies.subset left hLeft hRead,
              .inl (.inl hName)⟩))
        (hRightExpr _ _ hReadsRight hRightKeyServed
          (fun name hName hRead =>
            ⟨Supplies.subset right hRight hRead,
              .inl (.inl hName)⟩))
        (fun name hName hNot => ?_)
        (fun name hName hVisible => ?_)
      · rw [visible_annotate] at hNot
        rcases hName with ⟨hScope, hWanted⟩
        rw [visible_join, List.mem_append] at hScope hWanted
        have hLeftScope : name ∈ context ∨
            name ∈ left.visible :=
          hScope.imp_right (fun h => h.resolve_right hNot)
        refine ⟨hLeftScope, ?_⟩
        rcases hWanted with hWanted | ⟨hName, hUnseen⟩
        · have hSource := hTraced name hWanted
          rw [if_neg hNot] at hSource
          by_cases hToLeft : name ∈ toLeft
          · exact .inl hToLeft
          · have hRightReads : name ∈ rightKey.reads := by
              by_contra hUnread
              refine hToLeft (.inr ⟨hWanted, ?_⟩)
              rintro (h | ⟨_, h⟩)
              · exact hUnread h
              · exact h hSource.1
            have hUnseen : name ∉ left.visible :=
              (hSource.2 hRightReads).resolve_left
                (fun h => hToLeft (.inl h))
            refine .inr ⟨hKept name (.inr (.inr
              ⟨.inr (.inl hRightReads), ?_, ?_⟩)) ?_, hUnseen⟩
            · exact fun h => hToLeft h.1
            · exact fun h => h.2 hSource.1
            · exact hLeftScope.resolve_right hUnseen
        · exact .inr ⟨hName, fun h => hUnseen (.inl h)⟩
      · rw [visible_annotate] at hVisible
        refine ⟨.inr hVisible, .inl ?_⟩
        rcases hName.2 with hWanted | ⟨_, hUnseen⟩
        · have hSource := hTraced name hWanted
          rw [if_pos hVisible] at hSource
          exact hSource.imp_right (fun h => ⟨hWanted, h⟩)
        · rw [visible_join, List.mem_append] at hUnseen
          exact (hUnseen (.inr hVisible)).elim

theorem exprCovered_pipe
    {j : NodeId}
    {q : Payload}
    {qs : Properties}
    {tail : Tree}
    {more : List Tree}
    (hTail : StageCovered library notes tail)
    (hRest : ∀ c ∈ rest, ExprCovered library notes c) :
    ExprCovered library notes
      (.node i .pipeExpr p ps
        (.node j .finish q qs (tail :: rest) :: more)) := by
  intro context names hReads hServed hNames
  rw [reads, pipeReads] at hNames
  cases hReads with
  | pipe hSupplies hResult =>
      rename_i result rest handed
      have hTailServed : StageServed notes
          (readsAt 0 (result :: rest)) tail :=
        fun s demand hDemand => hServed s demand
          (.tail hDemand)
      have hResultServed : ExprServed notes result :=
        fun s demand hDemand => hServed s demand
          (.result rfl hDemand)
      exact .pipe
        (hTail context handed _ names hSupplies hTailServed
          hNames)
        (hRest result (by simp) handed _ hResult
          hResultServed
          (fun name hName hHanded =>
            ⟨Supplies.subset tail hSupplies hHanded,
              .inl (by rwa [readsAt])⟩))
  | binary hKind _ _ _ _ => exact hKind.elim

/-
  Where every demand is met, projections keep to the scoping
  rules.
-/
theorem covered
    (t : Tree)
    (hShaped : t.Shaped) :
    ExprCovered library notes t ∧
      StageCovered library notes t := by
  induction t using Tree.inductDeep with
  | node i k p ps cs ih ihDeep =>
      have hBoth (c : Tree) (hC : c ∈ cs) :=
        ih c hC (hShaped.child hC)
      have hDeep (c : Tree) (hC : c ∈ cs) (d : Tree)
          (hD : d ∈ c.children) :=
        ihDeep c hC d hD ((hShaped.child hC).child hD)
      have hExpr (c : Tree) (hC : c ∈ cs) := (hBoth c hC).1
      refine ⟨exprCovered_node (fun hPipe => ?_) hExpr, ?_⟩
      · subst hPipe
        rcases hShaped.pipe with
          ⟨j, q, qs, tail, rest, rfl, _⟩
        have hFinish (d : Tree) (hD : d ∈ tail :: rest) :=
          hDeep (.node j .finish q qs (tail :: rest))
            (by simp) d hD
        exact exprCovered_pipe (hFinish tail (by simp)).2
          (fun c hC => (hFinish c (by simp [hC])).1)
      · by_cases hKind : k.hasInput
        · rcases hShaped.input hKind with
            ⟨source, first, rest, rfl, _⟩
          have hSource := (hBoth source (by simp)).2
          rcases Kind.eq_of_hasInput hKind with
            rfl | rfl | rfl | rfl | rfl | rfl
          · exact stageCovered_forBind hSource hExpr
          · exact stageCovered_letBind hSource hExpr
          · exact stageCovered_selection hSource hExpr
          · exact stageCovered_orderBy hSource
              (fun spec hSpec key hKey =>
                (hDeep spec (List.mem_cons_of_mem _ hSpec)
                  key hKey).1)
          · exact stageCovered_groupBy hSource
          · exact stageCovered_count hSource
        · cases k
          case start => exact stageCovered_start
          case join =>
            rcases hShaped.join with ⟨left, j, q, qs,
              leftKey, rightKey, right, rfl, _, _⟩
            have hKeys (d : Tree)
                (hD : d ∈ [leftKey, rightKey]) :=
              hDeep (.node j .joinExpr q qs
                [leftKey, rightKey]) (by simp) d hD
            exact stageCovered_join
              (hBoth left (by simp)).2
              (hBoth right (by simp)).2
              (hKeys leftKey (by simp)).1
              (hKeys rightKey (by simp)).1
          all_goals
            first
            | exact (hKind rfl).elim
            | (intro context handed wanted kept hSupplies
               cases hSupplies)

end Tree

end Flwor
