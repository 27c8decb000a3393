import Flwor.Proofs.CompileForms
import Flwor.Proofs.RowMeaning
import Flwor.Proofs.Safety.Tapes

/-
  Expressions and operators that do not go wrong on rows of
  a width, one lemma for each form.

  Safety is what an expression or an operator does, whatever
  it was compiled from: the lemmas say how wide the rows of
  an operator are and which slots its parts may read.

  Key definitions include:
    * `Expr.SafeOn`
    * `Operator.SafeOn`
    * `CheckFits`

  Key theorems include:
    * `Expr.SafeOn.pipeline`
    * `Operator.SafeOn.groupBy`
    * `Operator.SafeOn.project`
    * `Operator.SafeOn.join`
-/

------------------------------------------------------------
-- Reading Slots
------------------------------------------------------------

namespace Flwor

/- Steps that all succeed succeed together. -/
theorem exists_mapM_eq_ok
    {ε α β : Type}
    {P : β → Prop}
    {f : α → Except ε β}
    {as : List α}
    (hEach : ∀ a ∈ as, ∃ b, f a = .ok b ∧ P b) :
    ∃ bs, as.mapM f = .ok bs ∧ bs.length = as.length ∧
      ∀ b ∈ bs, P b := by
  induction as with
  | nil => exact ⟨[], rfl, rfl, by simp⟩
  | cons a rest ih =>
      rcases hEach a List.mem_cons_self with ⟨b, hB, hP⟩
      rcases ih (fun c hC =>
          hEach c (List.mem_cons_of_mem _ hC)) with
        ⟨bs, hRest, hLength, hAll⟩
      refine ⟨b :: bs, ?_, by simp [hLength],
        List.forall_mem_cons.mpr ⟨hP, hAll⟩⟩
      rw [List.mapM_cons, hB, hRest]
      rfl

namespace Row

theorem exists_slot
    {row : Row}
    {index : Nat}
    (hBound : index < row.length) :
    ∃ value, row.slot index = .ok value := by
  refine ⟨row[index], ?_⟩
  rw [slot, List.getElem?_eq_getElem hBound]

theorem exists_slots
    {row : Row}
    {indices : List Nat}
    (hBound : ∀ index ∈ indices, index < row.length) :
    ∃ values, row.slots indices = .ok values ∧
      values.length = indices.length := by
  have hEach (index : Nat) (hMem : index ∈ indices) :
      ∃ value, row.slot index = .ok value ∧ True := by
    rcases exists_slot (hBound index hMem) with
      ⟨value, hValue⟩
    exact ⟨value, hValue, trivial⟩
  rcases exists_mapM_eq_ok hEach with
    ⟨values, hValues, hLength, _⟩
  exact ⟨values, hValues, hLength⟩

end Row

/- A check reads a slot of the rows. -/
def CheckFits
    (width : Nat)
    (check : Option Slot) : Prop :=
  ∀ slot, check = some slot → slot.index < width

theorem safe_disabled
    {width : Nat}
    {check : Option Slot}
    (hCheck : CheckFits width check)
    {row : Row}
    (hRow : row.length = width) :
    (disabled check row).Safe (fun _ => True) := by
  cases check with
  | none => exact Answer.safe_return trivial
  | some slot =>
      have hBound : slot.index < row.length := by
        rw [hRow]
        exact hCheck slot rfl
      rcases Row.exists_slot hBound with ⟨value, hValue⟩
      have hRead :
          (Answer.ofExcept (row.slot slot.index)).Safe
            (fun _ => True) :=
        Answer.safe_ofExcept hValue trivial
      exact hRead.bind
        (fun _ _ => Answer.safe_return trivial)

end Flwor

------------------------------------------------------------
-- Expressions
------------------------------------------------------------

namespace Flwor

/- The expression is safe on the rows of a width. -/
def Expr.SafeOn
    (width : Nat)
    (e : Expr) : Prop :=
  ∀ row : Row, row.length = width →
    (e.eval row).Safe (fun _ => True)

/-
  On a context of one width the operator yields rows of
  another.
-/
def Operator.SafeOn
    (context width : Nat)
    (op : Operator) : Prop :=
  ∀ row : Row, row.length = context →
    (op.tape row).Yields width

/- Raising nothing but errors about values is safe. -/
theorem safe_raising
    {α : Type}
    {result : Except EvaluationError α}
    (hResult : RaisesOnly result) :
    (Answer.ofEvaluation result).Safe (fun _ => True) :=
  Answer.safe_ofEvaluation hResult (fun _ _ => trivial)

theorem safe_atMostOne
    (value : Sequence) :
    (atMostOne value).Safe (fun _ => True) :=
  safe_raising (Sequence.raisesOnly_single? _ value)

theorem safe_rangeBound
    (item : Option Item) :
    (rangeBound item).Safe (fun _ => True) := by
  unfold rangeBound
  split <;> trivial

theorem safe_booleanValue
    (value : Sequence) :
    (Answer.ofEvaluation value.booleanValue).Safe
      (fun _ => True) :=
  safe_raising (Sequence.raisesOnly_booleanValue value)

namespace Expr

variable {width : Nat}

theorem safe_evalAll
    {es : List Expr}
    (hSafe : ∀ e ∈ es, e.SafeOn width)
    {row : Row}
    (hRow : row.length = width) :
    (evalAll es row).Safe (fun _ => True) := by
  induction es with
  | nil =>
      rw [evalAll]
      exact Answer.safe_return trivial
  | cons e rest ih =>
      have hRest :=
        ih (fun f hF => hSafe f (List.mem_cons_of_mem _ hF))
      rw [evalAll]
      refine (hSafe e List.mem_cons_self row hRow).bind
        (fun value _ => ?_)
      exact hRest.bind
        (fun _ _ => Answer.safe_return trivial)

namespace SafeOn

theorem literal
    (value : Sequence) :
    (Expr.literal value).SafeOn width := by
  intro row hRow
  rw [eval]
  exact Answer.safe_return trivial

theorem read
    {slot : Slot}
    (hBound : slot.index < width) :
    (Expr.variable slot).SafeOn width := by
  intro row hRow
  rw [eval]
  refine Answer.safe_ofExcept (x := row[slot.index]) ?_ trivial
  rw [Slot.read, List.getElem?_eq_getElem]

theorem concat
    {parts : List Expr}
    (hParts : ∀ e ∈ parts, e.SafeOn width) :
    (Expr.concat parts).SafeOn width := by
  intro row hRow
  rw [eval]
  exact (safe_evalAll hParts hRow).bind
    (fun _ _ => Answer.safe_return trivial)

theorem range
    {low high : Expr}
    (hLow : low.SafeOn width)
    (hHigh : high.SafeOn width) :
    (Expr.range low high).SafeOn width := by
  intro row hRow
  rw [eval]
  refine (hLow row hRow).bind (fun s _ => ?_)
  refine (safe_atMostOne s).bind (fun a _ => ?_)
  refine (safe_rangeBound a).bind (fun lowest _ => ?_)
  refine (hHigh row hRow).bind (fun t _ => ?_)
  refine (safe_atMostOne t).bind (fun b _ => ?_)
  refine (safe_rangeBound b).bind (fun highest _ => ?_)
  split <;> exact Answer.safe_return trivial

theorem arithmetic
    (op : ArithmeticOp)
    {left right : Expr}
    (hLeft : left.SafeOn width)
    (hRight : right.SafeOn width) :
    (Expr.arithmetic op left right).SafeOn width := by
  intro row hRow
  rw [eval]
  refine (hLeft row hRow).bind (fun s _ => ?_)
  refine (safe_atMostOne s).bind (fun a _ => ?_)
  refine (hRight row hRow).bind (fun t _ => ?_)
  refine (safe_atMostOne t).bind (fun b _ => ?_)
  split
  · next a b =>
      exact (safe_raising (op.raisesOnly_apply a b)).bind
        (fun _ _ => Answer.safe_return trivial)
  · exact Answer.safe_return trivial

theorem comparison
    (c : Comparison)
    {left right : Expr}
    (hLeft : left.SafeOn width)
    (hRight : right.SafeOn width) :
    (Expr.comparison c left right).SafeOn width := by
  intro row hRow
  rw [eval]
  refine (hLeft row hRow).bind (fun s _ => ?_)
  refine (hRight row hRow).bind (fun t _ => ?_)
  exact (safe_raising (c.raisesOnly_apply s t)).bind
    (fun _ _ => Answer.safe_return trivial)

/- The truth of an operand that is evaluated last. -/
theorem safe_truth
    {e : Expr}
    (hSafe : e.SafeOn width)
    {row : Row}
    (hRow : row.length = width) :
    (do
      let s ← e.eval row
      let b ← Answer.ofEvaluation s.booleanValue
      return [.bool b] : Answer Sequence).Safe
        (fun _ => True) := by
  refine (hSafe row hRow).bind (fun s _ => ?_)
  exact (safe_booleanValue s).bind
    (fun _ _ => Answer.safe_return trivial)

theorem and
    {left right : Expr}
    (hLeft : left.SafeOn width)
    (hRight : right.SafeOn width) :
    (Expr.and left right).SafeOn width := by
  intro row hRow
  rw [eval]
  refine (hLeft row hRow).bind (fun s _ => ?_)
  refine (safe_booleanValue s).bind (fun b _ => ?_)
  split
  · exact safe_truth hRight hRow
  · exact Answer.safe_return trivial

theorem or
    {left right : Expr}
    (hLeft : left.SafeOn width)
    (hRight : right.SafeOn width) :
    (Expr.or left right).SafeOn width := by
  intro row hRow
  rw [eval]
  refine (hLeft row hRow).bind (fun s _ => ?_)
  refine (safe_booleanValue s).bind (fun b _ => ?_)
  split
  · exact Answer.safe_return trivial
  · exact safe_truth hRight hRow

theorem cond
    {condition yes no : Expr}
    (hCondition : condition.SafeOn width)
    (hYes : yes.SafeOn width)
    (hNo : no.SafeOn width) :
    (Expr.cond condition yes no).SafeOn width := by
  intro row hRow
  rw [eval]
  refine (hCondition row hRow).bind (fun s _ => ?_)
  refine (safe_booleanValue s).bind (fun b _ => ?_)
  split
  · exact hYes row hRow
  · exact hNo row hRow

theorem call
    {f : QueryFunction}
    (hF : f.IsSafe)
    {arguments : List Expr}
    (hArguments : ∀ e ∈ arguments, e.SafeOn width) :
    (Expr.call f arguments).SafeOn width := by
  intro row hRow
  rw [eval]
  exact (safe_evalAll hArguments hRow).bind
    (fun args _ => safe_raising (hF args))

/- A nested pipeline takes the whole row as its context. -/
theorem pipeline
    {wide : Nat}
    {tail : Operator}
    {result : Expr}
    (hTail : tail.SafeOn width wide)
    (hResult : result.SafeOn wide) :
    (Expr.pipeline tail result).SafeOn width := by
  intro row hRow
  rw [eval]
  let each (values : List Sequence) (r : Row) :
      Answer (List Sequence) := do
    Answer.count .row
    let value ← result.eval r
    return value :: values
  have hEach (values : List Sequence) (r : Row)
      (hR : r.length = wide) :
      (each values r).Safe (fun _ => True) := by
    refine (Answer.safe_count .row).bind (fun _ _ => ?_)
    exact (hResult r hR).bind
      (fun _ _ => Answer.safe_return trivial)
  have hAnswer := Cursor.safe_forEach (hTail row hRow)
    (tail.tape_settles row) hEach []
  exact hAnswer.bind (fun _ _ => Answer.safe_return trivial)

end SafeOn

end Expr

end Flwor

------------------------------------------------------------
-- Operators
------------------------------------------------------------

namespace Flwor

theorem length_bindItems
    (row : Row)
    (position : Bool)
    (items : Sequence) :
    ∀ r ∈ bindItems row position items,
      r.length = row.length + 1 + position.toNat := by
  intro r hMem
  rcases List.mem_map.mp hMem with ⟨p, _, rfl⟩
  cases position <;> simp

theorem length_bindNothing
    (row : Row)
    (position : Bool) :
    (bindNothing row position).length =
      row.length + 1 + position.toNat := by
  cases position <;> simp [bindNothing]

theorem length_projectRow
    {width context : Nat}
    {keep : List Slot}
    (hContext : context ≤ width)
    (hKeep : ∀ slot ∈ keep, slot.index < width)
    {row : Row}
    (hRow : row.length = width) :
    ∃ kept, projectRow context keep row = .ok kept ∧
      kept.length = context + keep.length := by
  have hBound :
      ∀ index ∈ keep.map Slot.index, index < row.length := by
    rw [hRow, List.forall_mem_map]
    exact hKeep
  rcases Row.exists_slots hBound with
    ⟨values, hValues, hLength⟩
  refine ⟨row.take context ++ values, ?_, ?_⟩
  · rw [projectRow, hValues]
    rfl
  · rw [List.length_append, List.length_take, hLength,
      List.length_map]
    omega

namespace GroupEntry

theorem exists_ofRow
    {width : Nat}
    {keys values : List Nat}
    (hKeys : ∀ index ∈ keys, index < width)
    (hValues : ∀ index ∈ values, index < width)
    {row : Row}
    (hRow : row.length = width) :
    ∃ entry, ofRow keys values row = .ok entry ∧
      entry.keys.length = keys.length := by
  rw [← hRow] at hKeys hValues
  rcases Row.exists_slots hKeys with ⟨ks, hKs, hLength⟩
  rcases Row.exists_slots hValues with ⟨vs, hVs, _⟩
  refine ⟨⟨ks, vs⟩, ?_, hLength⟩
  rw [ofRow, hKs, hVs]
  rfl

end GroupEntry

namespace Buckets

variable {κ α : Type}
variable [BEq κ] [Hashable κ]

theorem mem_of_mem_firstsAfter
    {seen : Std.HashSet κ}
    {entries : List (κ × α)}
    {e : κ × α}
    (hMem : e ∈ firstsAfter seen entries) :
    e ∈ entries := by
  induction entries generalizing seen with
  | nil => simp [firstsAfter] at hMem
  | cons f rest ih =>
      rw [firstsAfter] at hMem
      split at hMem
      · exact List.mem_cons_of_mem _ (ih hMem)
      · rcases List.mem_cons.mp hMem with rfl | hRest
        · exact List.mem_cons_self
        · exact List.mem_cons_of_mem _ (ih hRest)

end Buckets

theorem exists_groupRows
    {width : Nat}
    {keys values : List Nat}
    (hKeys : ∀ index ∈ keys, index < width)
    (hValues : ∀ index ∈ values, index < width)
    {rows : List Row}
    (hRows : ∀ row ∈ rows, row.length = width)
    (context : Row) :
    ∃ grouped, groupRows context keys values rows =
        .ok grouped ∧
      ∀ row ∈ grouped, row.length =
        context.length + keys.length + values.length := by
  have hEach (row : Row) (hMem : row ∈ rows) :=
    GroupEntry.exists_ofRow hKeys hValues (hRows row hMem)
  rcases exists_mapM_eq_ok hEach with
    ⟨entries, hEntries, _, hAll⟩
  refine ⟨groupEntries context values.length entries, ?_, ?_⟩
  · rw [groupRows, hEntries]
    rfl
  · intro row hMem
    rcases List.mem_map.mp hMem with ⟨first, hFirst, rfl⟩
    rcases List.mem_map.mp
        (Buckets.mem_of_mem_firstsAfter hFirst) with
      ⟨entry, hEntry, rfl⟩
    simp [groupRow, hAll entry hEntry, Nat.add_assoc]

/- A joined row is as wide as both of its parts. -/
theorem length_joinRow
    {probe : Probe}
    {comparison : Comparison}
    {leftJoin skipSort : Bool}
    {rightWidth : Nat}
    {others : Array (List Sequence)}
    (hOthers : ∀ other ∈ others, other.length = rightWidth)
    {left : Row}
    {key : Sequence}
    {rows : List Row}
    (hJoin : probe.joinRow comparison leftJoin skipSort
      rightWidth others left key = .ok rows) :
    ∀ row ∈ rows, row.length = left.length + rightWidth := by
  rw [Probe.joinRow, except_bind_eq_ok_iff] at hJoin
  rcases hJoin with ⟨indices, _, hRows⟩
  split at hRows
  · cases hRows
    simp
  · cases hRows
    intro row hMem
    rcases List.mem_filterMap.mp hMem with ⟨i, _, hRow⟩
    rcases Option.map_eq_some_iff.mp hRow with
      ⟨other, hOther, rfl⟩
    rw [List.length_append,
      hOthers other (Array.mem_of_getElem? hOther)]

namespace Operator

namespace SafeOn

variable {context width : Nat}
variable {input : Operator}

theorem start :
    Operator.start.SafeOn context context := by
  intro row hRow
  rw [tape]
  refine Tape.Yields.recorded (Tape.yields_ofRows ?_)
  simpa using hRow

/- An operator that replaces the rows of its input. -/
theorem expand
    (hInput : input.SafeOn context width)
    {row : Row}
    (hRow : row.length = context)
    {wider : Nat}
    {f : Row → Answer (List Row)}
    (hF : ∀ row, row.length = width →
      (f row).Safe
        (fun rows => ∀ row ∈ rows, row.length = wider)) :
    (((input.tape row).asInput
      .left).expand f).recorded.Yields wider :=
  (((hInput row hRow).asInput .left).expand hF).recorded

/- An operator that reads its whole input at first. -/
theorem buffered
    (hInput : input.SafeOn context width)
    {row : Row}
    (hRow : row.length = context)
    {wider : Nat}
    {produce : List Row → Answer (List Row)}
    (hProduce : ∀ rows,
      (∀ row ∈ rows, row.length = width) →
        (produce rows).Safe
          (fun rows => ∀ row ∈ rows, row.length = wider)) :
    (((input.tape row).asInput
      .left).buffered produce).recorded.Yields wider :=
  (((hInput row hRow).asInput .left).buffered
    ((input.tape_settles row).asInput .left)
    hProduce).recorded

theorem forBind
    (hInput : input.SafeOn context width)
    (var : String)
    (position : Option String)
    {source : Expr}
    (hSource : source.SafeOn width)
    {check : Option Slot}
    (hCheck : CheckFits width check) :
    (Operator.forBind input var position source check).SafeOn
      context (width + 1 + position.isSome.toNat) := by
  intro row hRow
  rw [tape]
  refine hInput.expand hRow (fun r hR => ?_)
  refine (safe_disabled hCheck hR).bind (fun skipped _ => ?_)
  split
  · refine Answer.safe_return ?_
    simp [length_bindNothing, hR]
  · refine (hSource r hR).bind (fun items _ => ?_)
    refine Answer.safe_return (fun bound hMem => ?_)
    rw [length_bindItems r _ items bound hMem, hR]

theorem letBind
    (hInput : input.SafeOn context width)
    (var : String)
    {value : Option Expr}
    (hValue : ∀ e, value = some e → e.SafeOn width)
    {check : Option Slot}
    (hCheck : CheckFits width check) :
    (Operator.letBind input var value check).SafeOn
      context (width + 1) := by
  intro row hRow
  rw [tape]
  refine hInput.expand hRow (fun r hR => ?_)
  have hBinding :
      (Expr.evalBinding value check r).Safe
        (fun _ => True) := by
    cases value with
    | none =>
        rw [Expr.evalBinding]
        exact (Answer.safe_count .letSkipped).bind
          (fun _ _ => Answer.safe_return trivial)
    | some e =>
        rw [Expr.evalBinding]
        refine (safe_disabled hCheck hR).bind
          (fun skipped _ => ?_)
        split
        · exact Answer.safe_return trivial
        · exact (Answer.safe_count .letEvaluated).bind
            (fun _ _ => hValue e rfl r hR)
  refine hBinding.bind (fun bound _ => ?_)
  exact Answer.safe_return (by simp [hR])

theorem select
    (hInput : input.SafeOn context width)
    {predicate : Expr}
    (hPredicate : predicate.SafeOn width) :
    (Operator.select input predicate).SafeOn
      context width := by
  intro row hRow
  rw [tape]
  refine hInput.expand hRow (fun r hR => ?_)
  refine (hPredicate r hR).bind (fun s _ => ?_)
  refine (safe_booleanValue s).bind (fun holds _ => ?_)
  refine Answer.safe_return ?_
  cases holds with
  | true => simpa using hR
  | false => simp

theorem safe_evalAll
    {keys : List SortKey}
    (hKeys : ∀ e order, SortKey.mk e order ∈ keys →
      e.SafeOn width)
    {row : Row}
    (hRow : row.length = width) :
    (SortKey.evalAll keys row).Safe (fun _ => True) := by
  induction keys with
  | nil =>
      rw [SortKey.evalAll]
      exact Answer.safe_return trivial
  | cons key rest ih =>
      rcases key with ⟨e, order⟩
      have hRest := ih (fun e o hMem =>
        hKeys e o (List.mem_cons_of_mem _ hMem))
      have hKey := hKeys e order List.mem_cons_self
      rw [SortKey.evalAll]
      refine (hKey row hRow).bind (fun s _ => ?_)
      refine (safe_atMostOne s).bind (fun item _ => ?_)
      exact hRest.bind
        (fun _ _ => Answer.safe_return trivial)

theorem orderBy
    (hInput : input.SafeOn context width)
    {keys : List SortKey}
    (hKeys : ∀ e order, SortKey.mk e order ∈ keys →
      e.SafeOn width) :
    (Operator.orderBy input keys).SafeOn context width := by
  intro row hRow
  rw [tape]
  refine hInput.buffered hRow (fun rows hRows => ?_)
  have hKeyed : (Answer.sequence (rows.map (fun row => (do
        let values ← SortKey.evalAll keys row
        return (values, row) :
          Answer (List (Option Item) × Row))))).Safe
      (fun keyed => ∀ pair ∈ keyed,
        pair.2.length = width) := by
    refine Answer.safe_sequence ?_
    rw [List.forall_mem_map]
    intro r hMem
    exact (safe_evalAll hKeys (hRows r hMem)).bind
      (fun _ _ => Answer.safe_return (hRows r hMem))
  refine hKeyed.bind (fun keyed hAll => ?_)
  refine Answer.safe_return (fun r hMem => ?_)
  rcases List.mem_map.mp hMem with ⟨pair, hPair, rfl⟩
  exact hAll pair (List.mem_mergeSort.mp hPair)

theorem groupBy
    (hInput : input.SafeOn context width)
    {keys aggregates : List Slot}
    (hKeys : ∀ slot ∈ keys, slot.index < width)
    (hAggregates : ∀ slot ∈ aggregates,
      slot.index < width) :
    (Operator.groupBy input keys aggregates).SafeOn context
      (context + keys.length + aggregates.length) := by
  intro row hRow
  rw [tape]
  refine hInput.buffered hRow (fun rows hRows => ?_)
  have hIndices {slots : List Slot}
      (hSlots : ∀ slot ∈ slots, slot.index < width) :
      ∀ index ∈ slots.map Slot.index, index < width :=
    List.forall_mem_map.mpr hSlots
  rcases exists_groupRows (hIndices hKeys)
      (hIndices hAggregates) hRows row with
    ⟨grouped, hGrouped, hLength⟩
  refine Answer.safe_ofExcept hGrouped (fun r hMem => ?_)
  rw [hLength r hMem, hRow, List.length_map,
    List.length_map]

theorem count
    (hInput : input.SafeOn context width)
    (var : String) :
    (Operator.count input var).SafeOn
      context (width + 1) := by
  intro row hRow
  rw [tape]
  exact ((hInput row hRow).asInput .left).numbered.recorded

theorem project
    (hInput : input.SafeOn context width)
    (hContext : context ≤ width)
    {keep : List Slot}
    (hKeep : ∀ slot ∈ keep, slot.index < width) :
    (Operator.project input context keep).SafeOn
      context (context + keep.length) := by
  intro row hRow
  rw [tape]
  refine hInput.expand hRow (fun r hR => ?_)
  rcases length_projectRow hContext hKeep hR with
    ⟨kept, hKept, hLength⟩
  have hSafe :
      (Answer.ofExcept (projectRow context keep r)).Safe
        (fun kept =>
          kept.length = context + keep.length) :=
    Answer.safe_ofExcept hKept hLength
  refine hSafe.bind (fun kept hLength => ?_)
  exact Answer.safe_return (by simpa using hLength)

/-
  A join is asked for rows only once it is open, and then its
  right input has been read.
-/
theorem join
    {leftWidth rightWidth : Nat}
    {left right : Operator}
    (hLeft : left.SafeOn context leftWidth)
    (hRight : right.SafeOn context rightWidth)
    {leftKey rightKey : Expr}
    (hLeftKey : leftKey.SafeOn leftWidth)
    (hRightKey : rightKey.SafeOn rightWidth)
    (comparison : Comparison)
    (leftJoin skipSort : Bool) :
    (Operator.join left right leftKey rightKey comparison
        leftJoin skipSort context
        (rightWidth - context)).SafeOn context
      (leftWidth + (rightWidth - context)) := by
  intro row hRow
  have hLefts := (hLeft row hRow).asInput .left
  have hRights := (hRight row hRow).asInput .right
  have hSettles := (right.tape_settles row).asInput .right
  rw [tape]
  refine Tape.Yields.recorded ?_
  dsimp only
  -- What the right input was turned into, once it is read.
  generalize hFilled :
    ((do
      let rows ← (do
        ((left.tape row).asInput .left).opening
        ((right.tape row).asInput .right).readAll :
          Answer (List Row))
      ((right.tape row).asInput .right).closing
      let keys ← Answer.sequence
        (rows.map (Expr.eval rightKey))
      Answer.count
        (.joined (JoinStrategy.ofComparison comparison))
      return (Probe.build
          (JoinStrategy.ofComparison comparison) keys,
        (rows.map (fun row => row.drop context)).toArray)) :
      Answer (Probe × Array (List Sequence))) = filled
  have hSafe : filled.Safe (fun built =>
      ((left.tape row).asInput .left).opening.isOk = true ∧
        ∀ other ∈ built.2,
          other.length = rightWidth - context) := by
    subst hFilled
    have hReading := hLefts.opening.bind'
      (Q := fun rows =>
        ((left.tape row).asInput .left).opening.isOk =
            true ∧
          ∀ row ∈ rows, row.length = rightWidth)
      (fun u hOpen _ => (hRights.readAll hSettles).mono
        (fun rows hRows =>
          ⟨Answer.isOk_iff.mpr ⟨u, hOpen⟩, hRows⟩))
    refine hReading.bind (fun rows ⟨hOpen, hRows⟩ => ?_)
    have hClosing := Answer.safe_of_value?
      (P := fun _ => True) hSettles.closing trivial
    refine hClosing.bind (fun _ _ => ?_)
    have hKeys : ∀ a ∈ rows.map (Expr.eval rightKey),
        a.Safe (fun _ => True) :=
      List.forall_mem_map.mpr
        (fun r hMem => hRightKey r (hRows r hMem))
    refine (Answer.safe_sequence hKeys).bind
      (fun keys _ => ?_)
    refine (Answer.safe_count _).bind (fun _ _ => ?_)
    refine Answer.safe_return ⟨hOpen, fun other hMem => ?_⟩
    rcases List.mem_map.mp (List.mem_toArray.mp hMem) with
      ⟨r, hR, rfl⟩
    rw [List.length_drop, hRows r hR]
  refine ⟨?_, fun hOpen => ?_⟩
  · exact hSafe.bind' (fun _ _ _ => Answer.safe_pure trivial)
  · rcases Answer.isOk_iff.mp hOpen with ⟨u, hOpening⟩
    rw [Answer.bind_result_eq_ok_iff] at hOpening
    rcases hOpening with ⟨⟨probe, others⟩, hResult, _⟩
    rcases hSafe.of_ok hResult with ⟨hLeftOpen, hOthers⟩
    refine Tape.safe_expandRows (fun r hR => ?_) [] _
      (hLefts.rows hLeftOpen)
    rw [hResult]
    dsimp only
    refine (hLeftKey r hR).bind (fun key _ => ?_)
    refine Answer.safe_ofEvaluation
      (Probe.raisesOnly_joinRow _ _ _ _ _ _ _ _)
      (fun rows hJoin => ?_)
    rw [← hR]
    exact length_joinRow hOthers hJoin

end SafeOn

end Operator

end Flwor
