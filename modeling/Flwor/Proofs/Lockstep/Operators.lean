import Flwor.Proofs.Collecting
import Flwor.Proofs.Lockstep.Tapes
import Flwor.Proofs.Safety.Operators

/-
  Expressions and operators in step with each other.

  One pipeline may run below two contexts.  Its rows then
  stand beside each other: they begin with their own context
  and share what follows.  An operator keeps them so if what
  it evaluates has the same values on both sides.

  Key definitions include:
    * `Row.Beside`
    * `Slot.InStep`, `Expr.InStep`
    * `Operator.InStep`

  Key theorems include:
    * `Expr.InStep.pipeline`
    * `Operator.InStep.groupBy`
    * `Operator.InStep.join`
-/

------------------------------------------------------------
-- Rows Beside Each Other
------------------------------------------------------------

namespace Flwor

namespace Row

/- Two contexts, followed by the same values. -/
def Beside
    (context context' : Row)
    (width : Nat)
    (row row' : Row) : Prop :=
  ∃ locals : Row, locals.length = width ∧
    row = context ++ locals ∧ row' = context' ++ locals

variable {context context' : Row}
variable {width : Nat}
variable {row row' : Row}

theorem beside_contexts :
    Beside context context' 0 context context' :=
  ⟨[], rfl, by simp, by simp⟩

theorem Beside.append
    (hRows : Beside context context' width row row')
    {values : Row}
    {wider : Nat}
    (hWider : wider = width + values.length) :
    Beside context context' wider (row ++ values)
      (row' ++ values) := by
  rcases hRows with ⟨locals, hLength, rfl, rfl⟩
  exact ⟨locals ++ values, by simp [hLength, hWider],
    by simp, by simp⟩

/- What follows the contexts is the same. -/
theorem Beside.drop
    (hRows : Beside context context' width row row') :
    row.drop context.length = row'.drop context'.length ∧
      (row.drop context.length).length = width := by
  rcases hRows with ⟨locals, hLength, rfl, rfl⟩
  simp [hLength]

end Row

end Flwor

------------------------------------------------------------
-- Slots
------------------------------------------------------------

namespace Flwor

/- Two slots that hold one value on related rows. -/
def Slot.InStep
    (R : Row → Row → Prop)
    (slot slot' : Slot) : Prop :=
  ∀ row row', R row row' →
    ∃ value, row[slot.index]? = some value ∧
      row'[slot'.index]? = some value

variable {R : Row → Row → Prop}
variable {slot slot' : Slot}
variable {row row' : Row}

theorem Slot.InStep.held
    (hSlot : Slot.InStep R slot slot')
    (hRows : R row row') :
    ∃ value, row.slot slot.index = .ok value ∧
      row'.slot slot'.index = .ok value := by
  rcases hSlot _ _ hRows with ⟨value, hValue, hValue'⟩
  exact ⟨value, by rw [Row.slot, hValue],
    by rw [Row.slot, hValue']⟩

theorem Slot.InStep.read
    (hSlot : Slot.InStep R slot slot')
    (hRows : R row row') :
    slot.read row = slot'.read row' := by
  rcases hSlot _ _ hRows with ⟨value, hValue, hValue'⟩
  rw [Slot.read, Slot.read, hValue, hValue']

theorem Row.slots_inStep
    {slots slots' : List Slot}
    (hSlots : List.Forall₂ (Slot.InStep R) slots slots')
    (hRows : R row row') :
    ∃ values, row.slots (slots.map Slot.index) = .ok values ∧
      row'.slots (slots'.map Slot.index) = .ok values ∧
        values.length = slots.length := by
  induction hSlots with
  | nil => exact ⟨[], rfl, rfl, rfl⟩
  | cons hHead _ ih =>
      rcases hHead.held hRows with ⟨value, hValue, hValue'⟩
      rcases ih with ⟨values, hRest, hRest', hLength⟩
      rw [Row.slots] at hRest hRest'
      refine ⟨value :: values, ?_, ?_, by simp [hLength]⟩
      · rw [Row.slots, List.map_cons, List.mapM_cons, hValue,
          hRest]
        rfl
      · rw [Row.slots, List.map_cons, List.mapM_cons, hValue',
          hRest']
        rfl

theorem disabled_inStep
    {check check' : Option Slot}
    (hCheck : Option.Rel (Slot.InStep R) check check')
    (hRows : R row row') :
    disabled check row = disabled check' row' := by
  cases hCheck with
  | none => rfl
  | some hSlot =>
      rcases hSlot.held hRows with ⟨value, hValue, hValue'⟩
      rw [disabled, disabled, hValue, hValue']

end Flwor

------------------------------------------------------------
-- Expressions
------------------------------------------------------------

namespace Flwor

/- Two expressions that answer the same on related rows. -/
def Expr.InStep
    (R : Row → Row → Prop)
    (e e' : Expr) : Prop :=
  ∀ row row', R row row' → e.eval row = e'.eval row'

/- Sort keys of one direction, in step. -/
inductive SortKey.InStep
    (R : Row → Row → Prop) :
    SortKey → SortKey → Prop where
  | mk
      {e e' : Expr}
      (order : SortOrder)
      (hKey : e.InStep R e') :
      SortKey.InStep R (.mk e order) (.mk e' order)

namespace Expr

namespace InStep

variable {R : Row → Row → Prop}
variable {e e' l l' r r' : Expr}
variable {es es' : List Expr}

theorem literal
    (value : Sequence) :
    InStep R (.literal value) (.literal value) := by
  intro row row' _
  rw [Expr.eval, Expr.eval]

theorem reference
    {slot slot' : Slot}
    (hSlot : Slot.InStep R slot slot') :
    InStep R (.variable slot) (.variable slot') := by
  intro row row' hRows
  rw [Expr.eval, Expr.eval, hSlot.read hRows]

theorem evalAll
    (hParts : List.Forall₂ (InStep R) es es')
    {row row' : Row}
    (hRows : R row row') :
    Expr.evalAll es row = Expr.evalAll es' row' := by
  induction hParts with
  | nil => rw [Expr.evalAll, Expr.evalAll]
  | cons hHead _ ih =>
      rw [Expr.evalAll, Expr.evalAll, hHead _ _ hRows, ih]

theorem concat
    (hParts : List.Forall₂ (InStep R) es es') :
    InStep R (.concat es) (.concat es') := by
  intro row row' hRows
  rw [Expr.eval, Expr.eval, evalAll hParts hRows]

theorem call
    (f : QueryFunction)
    (hParts : List.Forall₂ (InStep R) es es') :
    InStep R (.call f es) (.call f es') := by
  intro row row' hRows
  rw [Expr.eval, Expr.eval, evalAll hParts hRows]

theorem range
    (hLeft : InStep R l l')
    (hRight : InStep R r r') :
    InStep R (.range l r) (.range l' r') := by
  intro row row' hRows
  rw [Expr.eval, Expr.eval, hLeft _ _ hRows,
    hRight _ _ hRows]

theorem arithmetic
    (op : ArithmeticOp)
    (hLeft : InStep R l l')
    (hRight : InStep R r r') :
    InStep R (.arithmetic op l r) (.arithmetic op l' r') := by
  intro row row' hRows
  rw [Expr.eval, Expr.eval, hLeft _ _ hRows,
    hRight _ _ hRows]

theorem comparison
    (c : Comparison)
    (hLeft : InStep R l l')
    (hRight : InStep R r r') :
    InStep R (.comparison c l r) (.comparison c l' r') := by
  intro row row' hRows
  rw [Expr.eval, Expr.eval, hLeft _ _ hRows,
    hRight _ _ hRows]

theorem and
    (hLeft : InStep R l l')
    (hRight : InStep R r r') :
    InStep R (.and l r) (.and l' r') := by
  intro row row' hRows
  rw [Expr.eval, Expr.eval, hLeft _ _ hRows,
    hRight _ _ hRows]

theorem or
    (hLeft : InStep R l l')
    (hRight : InStep R r r') :
    InStep R (.or l r) (.or l' r') := by
  intro row row' hRows
  rw [Expr.eval, Expr.eval, hLeft _ _ hRows,
    hRight _ _ hRows]

theorem cond
    (hCondition : InStep R e e')
    (hYes : InStep R l l')
    (hNo : InStep R r r') :
    InStep R (.cond e l r) (.cond e' l' r') := by
  intro row row' hRows
  rw [Expr.eval, Expr.eval, hCondition _ _ hRows,
    hYes _ _ hRows, hNo _ _ hRows]

/-
  A pipeline reads its rows on the spot, so that it only
  matters what its result makes of them.
-/
theorem pipeline
    {tail tail' : Operator}
    (hTails : ∀ context context', R context context' →
      ∃ S, Tape.InStep S (tail.tape context)
          (tail'.tape context') ∧
        InStep S e e') :
    InStep R (.pipeline tail e) (.pipeline tail' e') := by
  intro context context' hContexts
  rcases hTails _ _ hContexts with ⟨S, hTape, hResult⟩
  have hEach (values : List Sequence) (row row' : Row)
      (hRows : S row row') :
      (do
        Answer.count .row
        let value ← e.eval row
        return value :: values : Answer (List Sequence)) =
      (do
        Answer.count .row
        let value ← e'.eval row'
        return value :: values) := by
    rw [hResult _ _ hRows]
  rcases Cursor.forEach_inStep hTape hEach [] with
    ⟨hValues, hAnswer⟩
  rw [Expr.eval, Expr.eval]
  dsimp only
  rw [hValues, hAnswer]

end InStep

/- What a binding takes on. -/
theorem evalBinding_inStep
    {R : Row → Row → Prop}
    {value value' : Option Expr}
    {check check' : Option Slot}
    (hValue : Option.Rel (InStep R) value value')
    (hCheck : Option.Rel (Slot.InStep R) check check')
    {row row' : Row}
    (hRows : R row row') :
    evalBinding value check row =
      evalBinding value' check' row' := by
  cases hValue with
  | none => rw [evalBinding, evalBinding]
  | some hValue =>
      rw [evalBinding, evalBinding,
        disabled_inStep hCheck hRows, hValue _ _ hRows]

end Expr

namespace SortKey

variable {R : Row → Row → Prop}
variable {keys keys' : List SortKey}

theorem evalAll_inStep
    (hKeys : List.Forall₂ (InStep R) keys keys')
    {row row' : Row}
    (hRows : R row row') :
    SortKey.evalAll keys row =
      SortKey.evalAll keys' row' := by
  induction hKeys with
  | nil => rw [SortKey.evalAll, SortKey.evalAll]
  | cons hHead _ ih =>
      cases hHead with
      | mk order hKey =>
          rw [SortKey.evalAll, SortKey.evalAll,
            hKey _ _ hRows, ih]

theorem order_inStep
    (hKeys : List.Forall₂ (InStep R) keys keys') :
    keys.map SortKey.order = keys'.map SortKey.order := by
  induction hKeys with
  | nil => rfl
  | cons hHead _ ih =>
      cases hHead with
      | mk order _ => rw [List.map_cons, List.map_cons, ih]; rfl

end SortKey

end Flwor

------------------------------------------------------------
-- Parts of Operators
------------------------------------------------------------

namespace Flwor

variable {context context' : Row}
variable {width : Nat}
variable {row row' : Row}

theorem bindItems_inStep
    (hRows : Row.Beside context context' width row row')
    (position : Option String)
    (items : Sequence) :
    List.Forall₂
      (Row.Beside context context'
        (width + (1 + position.toList.length)))
      (bindItems row position.isSome items)
      (bindItems row' position.isSome items) := by
  rw [bindItems, bindItems, List.forall₂_map_left_iff,
    List.forall₂_map_right_iff, List.forall₂_same]
  intro p _
  rw [List.append_assoc, List.append_assoc]
  refine hRows.append ?_
  cases position <;> rfl

theorem bindNothing_inStep
    (hRows : Row.Beside context context' width row row')
    (position : Option String) :
    Row.Beside context context'
      (width + (1 + position.toList.length))
      (bindNothing row position.isSome)
      (bindNothing row' position.isSome) := by
  rw [bindNothing, bindNothing, List.append_assoc,
    List.append_assoc]
  refine hRows.append ?_
  cases position <;> rfl

theorem projectRow_inStep
    {keep keep' : List Slot}
    (hKeep : List.Forall₂
      (Slot.InStep (Row.Beside context context' width))
      keep keep')
    (hRows : Row.Beside context context' width row row') :
    InStep (Row.Beside context context' keep.length)
      (projectRow context.length keep row)
      (projectRow context'.length keep' row') := by
  rcases Row.slots_inStep hKeep hRows with
    ⟨values, hValues, hValues', hLength⟩
  rw [projectRow, projectRow, hValues, hValues']
  rcases hRows with ⟨locals, _, rfl, rfl⟩
  refine .ok ⟨values, hLength, ?_, ?_⟩
  · simp
  · simp

/- Groups only depend on what is read from the rows. -/
theorem groupRows_inStep
    {R : Row → Row → Prop}
    {keys keys' values values' : List Slot}
    (hKeys : List.Forall₂ (Slot.InStep R) keys keys')
    (hValues : List.Forall₂ (Slot.InStep R) values values')
    {rows rows' : List Row}
    (hRows : List.Forall₂ R rows rows') :
    InStep
      (List.Forall₂ (Row.Beside context context'
        (keys.length + values.length)))
      (groupRows context (keys.map Slot.index)
        (values.map Slot.index) rows)
      (groupRows context' (keys'.map Slot.index)
        (values'.map Slot.index) rows') := by
  have hEntries : ∃ entries,
      rows.mapM (GroupEntry.ofRow (keys.map Slot.index)
          (values.map Slot.index)) = .ok entries ∧
        rows'.mapM (GroupEntry.ofRow (keys'.map Slot.index)
          (values'.map Slot.index)) = .ok entries ∧
        ∀ entry ∈ entries,
          entry.keys.length = keys.length := by
    induction hRows with
    | nil => exact ⟨[], rfl, rfl, nofun⟩
    | cons hHead _ ih =>
        rcases ih with ⟨entries, hRest, hRest', hAll⟩
        rcases Row.slots_inStep hKeys hHead with
          ⟨ks, hKs, hKs', hLength⟩
        rcases Row.slots_inStep hValues hHead with
          ⟨vs, hVs, hVs', _⟩
        refine ⟨⟨ks, vs⟩ :: entries, ?_, ?_,
          List.forall_mem_cons.mpr ⟨hLength, hAll⟩⟩
        · rw [List.mapM_cons, GroupEntry.ofRow, hKs, hVs,
            hRest]
          rfl
        · rw [List.mapM_cons, GroupEntry.ofRow, hKs', hVs',
            hRest']
          rfl
  rcases hEntries with ⟨entries, hOfRows, hOfRows', hAll⟩
  rw [groupRows, groupRows, hOfRows, hOfRows',
    List.length_map, List.length_map, ← hValues.length_eq]
  refine .ok ?_
  rw [groupEntries, groupEntries,
    List.forall₂_map_left_iff, List.forall₂_map_right_iff,
    List.forall₂_same]
  intro first hFirst
  rcases List.mem_map.mp
      (Buckets.mem_of_mem_firstsAfter hFirst) with
    ⟨entry, hEntry, rfl⟩
  rw [groupRow, groupRow, List.append_assoc,
    List.append_assoc]
  exact ⟨_, by simp [hAll entry hEntry], rfl, rfl⟩

/- A left row is joined to the same values. -/
theorem joinRow_inStep
    {rightWidth : Nat}
    {others : Array (List Sequence)}
    (hOthers : ∀ other ∈ others, other.length = rightWidth)
    (hRows : Row.Beside context context' width row row')
    (probe : Probe)
    (c : Comparison)
    (leftJoin skipSort : Bool)
    (key : Sequence) :
    InStep
      (List.Forall₂ (Row.Beside context context'
        (width + rightWidth)))
      (probe.joinRow c leftJoin skipSort rightWidth others
        row key)
      (probe.joinRow c leftJoin skipSort rightWidth others
        row' key) := by
  have hJoined (indices : List Nat) :
      List.Forall₂
        (Row.Beside context context' (width + rightWidth))
        (indices.filterMap (fun i =>
          others[i]?.map (fun right => row ++ right)))
        (indices.filterMap (fun i =>
          others[i]?.map (fun right => row' ++ right))) := by
    induction indices with
    | nil => exact .nil
    | cons i rest ih =>
        cases hOther : others[i]? with
        | none => simpa [hOther] using ih
        | some other =>
            have hLength :=
              hOthers _ (Array.mem_of_getElem? hOther)
            simpa [hOther] using
              ⟨hRows.append (by rw [hLength]), ih⟩
  rw [Probe.joinRow, Probe.joinRow]
  refine .bind_same _ (fun indices => ?_)
  split
  · exact .ok (.cons (hRows.append (by simp)) .nil)
  · exact .ok (hJoined indices)

end Flwor

------------------------------------------------------------
-- Operators
------------------------------------------------------------

namespace Flwor

namespace Operator

/- Two operators on contexts, with rows beside each other. -/
def InStep
    (context context' : Row)
    (width : Nat)
    (op op' : Operator) : Prop :=
  Tape.InStep (Row.Beside context context' width)
    (op.tape context) (op'.tape context')

namespace InStep

variable {context context' : Row}
variable {width : Nat}
variable {input input' : Operator}

theorem start :
    InStep context context' 0 .start .start := by
  rw [InStep, tape, tape]
  exact (Tape.InStep.ofRow Row.beside_contexts).recorded

theorem forBind
    {source source' : Expr}
    {check check' : Option Slot}
    (hInput : InStep context context' width input input')
    (hSource : source.InStep
      (Row.Beside context context' width) source')
    (hCheck : Option.Rel
      (Slot.InStep (Row.Beside context context' width))
      check check')
    (var : String)
    (position : Option String) :
    InStep context context'
      (width + (var :: position.toList).length)
      (.forBind input var position source check)
      (.forBind input' var position source' check') := by
  rw [InStep, tape, tape, List.length_cons,
    Nat.add_comm _ 1]
  refine ((Tape.InStep.asInput hInput .left).expand
    (fun row row' hRows => ?_)).recorded
  rw [disabled_inStep hCheck hRows]
  refine (Answer.InStep.refl _).bind ?_
  rintro isDisabled _ rfl
  cases isDisabled with
  | true =>
      exact .pure (.cons (bindNothing_inStep hRows position)
        .nil)
  | false =>
      rw [if_neg nofun, if_neg nofun, hSource _ _ hRows]
      refine (Answer.InStep.refl _).bind ?_
      rintro items _ rfl
      exact .pure (bindItems_inStep hRows position items)

theorem letBind
    {value value' : Option Expr}
    {check check' : Option Slot}
    (hInput : InStep context context' width input input')
    (hValue : Option.Rel
      (Expr.InStep (Row.Beside context context' width))
      value value')
    (hCheck : Option.Rel
      (Slot.InStep (Row.Beside context context' width))
      check check')
    (var : String) :
    InStep context context' (width + 1)
      (.letBind input var value check)
      (.letBind input' var value' check') := by
  rw [InStep, tape, tape]
  refine ((Tape.InStep.asInput hInput .left).expand
    (fun row row' hRows => ?_)).recorded
  rw [Expr.evalBinding_inStep hValue hCheck hRows]
  refine (Answer.InStep.refl _).bind ?_
  rintro bound _ rfl
  exact .pure (.cons (hRows.append rfl) .nil)

theorem select
    {predicate predicate' : Expr}
    (hInput : InStep context context' width input input')
    (hPredicate : predicate.InStep
      (Row.Beside context context' width) predicate') :
    InStep context context' width
      (.select input predicate)
      (.select input' predicate') := by
  rw [InStep, tape, tape]
  refine ((Tape.InStep.asInput hInput .left).expand
    (fun row row' hRows => ?_)).recorded
  rw [hPredicate _ _ hRows]
  refine (Answer.InStep.refl _).bind ?_
  rintro items _ rfl
  refine (Answer.InStep.refl _).bind ?_
  rintro holds _ rfl
  refine .pure ?_
  cases holds with
  | true => exact .cons hRows .nil
  | false => exact .nil

theorem orderBy
    {keys keys' : List SortKey}
    (hInput : InStep context context' width input input')
    (hKeys : List.Forall₂
      (SortKey.InStep (Row.Beside context context' width))
      keys keys') :
    InStep context context' width
      (.orderBy input keys) (.orderBy input' keys') := by
  rw [InStep, tape, tape]
  refine ((Tape.InStep.asInput hInput .left).buffered
    (fun rows rows' hRows => ?_)).recorded
  rw [SortKey.order_inStep hKeys]
  refine (Answer.InStep.sequence (R := fun x y =>
    x.1 = y.1 ∧ Row.Beside context context' width x.2 y.2)
    ?_).bind (fun keyed keyed' hKeyed => ?_)
  · refine List.rel_map (fun row row' hRow => ?_) hRows
    rw [SortKey.evalAll_inStep hKeys hRow]
    refine (Answer.InStep.refl _).bind ?_
    rintro values _ rfl
    exact .pure ⟨rfl, hRow⟩
  · exact .pure (forall₂_sortKeyed _ hKeyed)

theorem groupBy
    {keys keys' aggregates aggregates' : List Slot}
    (hInput : InStep context context' width input input')
    (hKeys : List.Forall₂
      (Slot.InStep (Row.Beside context context' width))
      keys keys')
    (hAggregates : List.Forall₂
      (Slot.InStep (Row.Beside context context' width))
      aggregates aggregates') :
    InStep context context'
      (keys.length + aggregates.length)
      (.groupBy input keys aggregates)
      (.groupBy input' keys' aggregates') := by
  rw [InStep, tape, tape]
  exact ((Tape.InStep.asInput hInput .left).buffered
    (fun rows rows' hRows => .ofExcept
      (groupRows_inStep hKeys hAggregates hRows))).recorded

theorem count
    (hInput : InStep context context' width input input')
    (var : String) :
    InStep context context' (width + 1)
      (.count input var) (.count input' var) := by
  rw [InStep, tape, tape]
  exact ((Tape.InStep.asInput hInput .left).numbered
    (fun row row' n hRows => hRows.append rfl)).recorded

theorem project
    {keep keep' : List Slot}
    (hInput : InStep context context' width input input')
    (hKeep : List.Forall₂
      (Slot.InStep (Row.Beside context context' width))
      keep keep') :
    InStep context context' keep.length
      (.project input context.length keep)
      (.project input' context'.length keep') := by
  rw [InStep, tape, tape]
  refine ((Tape.InStep.asInput hInput .left).expand
    (fun row row' hRows => ?_)).recorded
  refine (Answer.InStep.ofExcept
    (projectRow_inStep hKeep hRows)).bind
      (fun kept kept' hKept => ?_)
  exact .pure (.cons hKept .nil)

/-
  What a join prepares: the right keys, and the right rows
  without their context.
-/
theorem filled
    {reading reading' : Answer (List Row)}
    {rightKey rightKey' : Expr}
    (hReading : Answer.InStep
      (List.Forall₂ (Row.Beside context context' width))
      reading reading')
    (closing : Answer Unit)
    (hRightKey : rightKey.InStep
      (Row.Beside context context' width) rightKey')
    (strategy : JoinStrategy) :
    Answer.InStep
      (fun p p' : Probe × Array (List Sequence) =>
        p = p' ∧ ∀ other ∈ p.2, other.length = width)
      (do
        let rows ← reading
        closing
        let keys ← Answer.sequence
          (rows.map (Expr.eval rightKey))
        Answer.count (.joined strategy)
        return (Probe.build strategy keys,
          (rows.map (fun row =>
            row.drop context.length)).toArray))
      (do
        let rows ← reading'
        closing
        let keys ← Answer.sequence
          (rows.map (Expr.eval rightKey'))
        Answer.count (.joined strategy)
        return (Probe.build strategy keys,
          (rows.map (fun row =>
            row.drop context'.length)).toArray)) := by
  refine hReading.bind (fun rows rows' hRows => ?_)
  have hKeys : rows.map (Expr.eval rightKey) =
      rows'.map (Expr.eval rightKey') :=
    List.forall₂_eq_eq_eq ▸ List.rel_map
      (fun _ _ hRow => hRightKey _ _ hRow) hRows
  have hOthers :
      rows.map (fun row => row.drop context.length) =
        rows'.map (fun row => row.drop context'.length) :=
    List.forall₂_eq_eq_eq ▸ List.rel_map
      (fun _ _ hRow => hRow.drop.1) hRows
  rw [hKeys, hOthers]
  refine (Answer.InStep.refl _).bind (fun _ _ _ => ?_)
  refine (Answer.InStep.refl _).bind ?_
  rintro keys _ rfl
  refine (Answer.InStep.refl _).bind (fun _ _ _ => ?_)
  refine .pure ⟨rfl, ?_⟩
  dsimp only
  rw [← hOthers]
  intro other hOther
  rw [List.mem_toArray, List.mem_map] at hOther
  rcases hOther with ⟨row, hRow, rfl⟩
  rcases List.forall₂_iff_get.mp hRows with ⟨hLength, hEach⟩
  rcases List.mem_iff_get.mp hRow with ⟨n, rfl⟩
  exact (hEach n n.isLt (hLength ▸ n.isLt)).drop.2

/- What a join does with a left row. -/
theorem probed
    {leftKey leftKey' : Expr}
    {rightWidth : Nat}
    {row row' : Row}
    (hLeftKey : leftKey.InStep
      (Row.Beside context context' width) leftKey')
    (hRows : Row.Beside context context' width row row')
    (c : Comparison)
    (leftJoin skipSort : Bool)
    {filled filled' :
      Except Failure (Probe × Array (List Sequence))} :
    Flwor.InStep
        (fun p p' =>
          p = p' ∧ ∀ other ∈ p.2, other.length = rightWidth)
        filled filled' →
      Answer.InStep
        (List.Forall₂ (Row.Beside context context'
          (width + rightWidth)))
        (match filled with
        | .error _ =>
            Answer.fail (.cursor .joinReadBeforeOpen)
        | .ok (probe, others) => do
            let key ← Expr.eval leftKey row
            Answer.ofEvaluation
              (probe.joinRow c leftJoin skipSort rightWidth
                others row key))
        (match filled' with
        | .error _ =>
            Answer.fail (.cursor .joinReadBeforeOpen)
        | .ok (probe, others) => do
            let key ← Expr.eval leftKey' row'
            Answer.ofEvaluation
              (probe.joinRow c leftJoin skipSort rightWidth
                others row' key)) := by
  intro hFilled
  cases hFilled with
  | error e => exact .error [] _
  | @ok p p' hBoth =>
      rcases p with ⟨probe, others⟩
      rcases hBoth with ⟨rfl, hOthers⟩
      dsimp only
      rw [hLeftKey _ _ hRows]
      refine (Answer.InStep.refl _).bind ?_
      rintro key _ rfl
      exact .ofEvaluation (joinRow_inStep hOthers hRows probe
        c leftJoin skipSort key)

theorem join
    {left left' right right' : Operator}
    {leftKey leftKey' rightKey rightKey' : Expr}
    {rightWidth : Nat}
    (hLeft : InStep context context' width left left')
    (hRight :
      InStep context context' rightWidth right right')
    (hLeftKey : leftKey.InStep
      (Row.Beside context context' width) leftKey')
    (hRightKey : rightKey.InStep
      (Row.Beside context context' rightWidth) rightKey')
    (c : Comparison)
    (leftJoin skipSort : Bool) :
    InStep context context' (width + rightWidth)
      (.join left right leftKey rightKey c leftJoin skipSort
        context.length rightWidth)
      (.join left' right' leftKey' rightKey' c leftJoin
        skipSort context'.length rightWidth) := by
  have hLefts := Tape.InStep.asInput hLeft .left
  have hRights := Tape.InStep.asInput hRight .right
  rw [InStep, tape, tape]
  dsimp only
  rw [hLefts.opening, hRights.closing, hLefts.closing]
  have hReading := (Answer.InStep.refl
    ((left'.tape context').asInput .left).opening).bind
      (fun _ _ _ => hRights.readAll)
  have hFilled := filled hReading
    ((right'.tape context').asInput .right).closing hRightKey
    (JoinStrategy.ofComparison c)
  have hJoined := hLefts.expand (fun row row' hRows =>
    probed hLeftKey hRows c leftJoin skipSort
      hFilled.result)
  refine Tape.InStep.recorded
    ⟨?_, hJoined.rows, hJoined.ending, hJoined.spent, ?_⟩
  · exact (hFilled.bind' (S := Eq)
      (fun _ _ _ => .ok [] rfl)).eq
  · dsimp only
    rw [hReading.isOk]

end InStep

end Operator

end Flwor
