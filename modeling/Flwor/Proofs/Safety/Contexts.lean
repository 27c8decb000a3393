import Flwor.Proofs.Compilation
import Flwor.Proofs.Protocol.Sessions
import Flwor.Proofs.Safety.Compiled

/-
  The names that a compiled stage hands on are those that are
  visible after it, and its rows have a slot for each.

  Every row that an operator shows extends the context row of
  its cursor: the first slots are the context, and a width
  says how many slots there are.  No function of a library
  has to be trusted for that, and no cursor has to be opened
  with success, as a failure shows no row.

  Key definitions include:
    * `Row.Extends`
    * `Tape.Shows`
    * `Operator.Fills`
    * `Tree.StageFurnished`

  Key theorems include:
    * `Operator.Fills.groupBy`
    * `Operator.Fills.join`
    * `Tree.furnished_of_compiled`
    * `Plan.stage_fills_layout`
-/

------------------------------------------------------------
-- Answers With a Value
------------------------------------------------------------

namespace Flwor

namespace Answer

variable {α β : Type}
variable {P P' : α → Prop}
variable {Q : β → Prop}

/- The value of an answer, if it has one, has a property. -/
def Only
    (P : α → Prop)
    (a : Answer α) : Prop :=
  ∀ x, a.result = .ok x → P x

theorem only_pure
    {x : α}
    (hX : P x) :
    (pure x).Only P := by
  rintro _ ⟨⟩
  exact hX

theorem only_fail
    (e : Failure) :
    (fail e : Answer α).Only P := by
  rintro _ ⟨⟩

theorem only_ofEvaluation
    {result : Except EvaluationError α}
    (hP : ∀ x, result = .ok x → P x) :
    (ofEvaluation result).Only P := by
  intro x hX
  exact hP x (except_mapError_eq_ok_iff.mp hX)

theorem Only.bind'
    {a : Answer α}
    {f : α → Answer β}
    (hNext : ∀ x, a.result = .ok x → (f x).Only Q) :
    (a.bind f).Only Q := by
  intro y hY
  rcases bind_result_eq_ok_iff.mp hY with ⟨x, hX, hY⟩
  exact hNext x hX y hY

theorem Only.bind
    {a : Answer α}
    {f : α → Answer β}
    (hOnly : a.Only P)
    (hNext : ∀ x, P x → (f x).Only Q) :
    (a >>= f).Only Q :=
  Only.bind' (fun x hX => hNext x (hOnly x hX))

theorem Only.map
    {a : Answer α}
    {f : α → β}
    (hOnly : a.Only P)
    (hMap : ∀ x, P x → Q (f x)) :
    (a.map f).Only Q := by
  intro y hY
  rcases except_map_eq_ok_iff.mp hY with ⟨x, hX, rfl⟩
  exact hMap x (hOnly x hX)

/- What an answer that is not looked at leads to. -/
theorem only_after
    {a : Answer α}
    {f : α → Answer β}
    (hNext : ∀ x, (f x).Only Q) :
    (a >>= f).Only Q :=
  Only.bind' (fun x _ => hNext x)

theorem only_sequence
    {as : List (Answer α)}
    (hOnly : ∀ a ∈ as, a.Only P) :
    (sequence as).Only (fun xs => ∀ x ∈ xs, P x) := by
  induction as with
  | nil => exact only_pure (List.forall_mem_nil _)
  | cons a rest ih =>
      rw [List.forall_mem_cons] at hOnly
      refine Only.bind' (fun x hX => ?_)
      exact (ih hOnly.2).map (fun xs hXs =>
        List.forall_mem_cons.mpr ⟨hOnly.1 x hX, hXs⟩)

end Answer

end Flwor

------------------------------------------------------------
-- Tapes That Show Rows
------------------------------------------------------------

namespace Flwor

namespace Tape

variable {P Q : Row → Prop}
variable {tape : Tape}

/- Each row that a tape shows has a property. -/
def Shows
    (P : Row → Prop)
    (tape : Tape) : Prop :=
  ∀ a ∈ tape.rows, a.Only P

theorem Shows.recorded
    (hShows : tape.Shows P) :
    tape.recorded.Shows P :=
  List.forall_mem_map.mpr hShows

theorem Shows.asInput
    (hShows : tape.Shows P)
    (side : Side) :
    (tape.asInput side).Shows P :=
  List.forall_mem_map.mpr hShows

theorem Shows.readAll
    (hShows : tape.Shows P) :
    tape.readAll.Only (fun rows => ∀ row ∈ rows, P row) :=
  Answer.only_after (fun _ =>
    (Answer.only_sequence hShows).bind (fun _ hRows =>
      Answer.only_after (fun _ => Answer.only_pure hRows)))

theorem only_expandRows
    {f : Row → Answer (List Row)}
    (hF : ∀ row, P row →
      (f row).Only (fun rows => ∀ row ∈ rows, Q row))
    (carry : Journal)
    (answers : List (Answer Row))
    (hAnswers : ∀ a ∈ answers, a.Only P) :
    ∀ a ∈ (expandRows f carry answers).1, a.Only Q := by
  induction answers generalizing carry with
  | nil => simp [expandRows]
  | cons a rest ih =>
      rw [List.forall_mem_cons] at hAnswers
      have hStep : (a.bind f).Only
          (fun rows => ∀ row ∈ rows, Q row) :=
        hAnswers.1.bind hF
      rw [expandRows]
      dsimp only
      split
      · refine List.forall_mem_cons.mpr
          ⟨?_, ih [] hAnswers.2⟩
        rintro _ ⟨⟩
      · exact ih _ hAnswers.2
      · next row more hResult =>
          have hRows := List.forall_mem_cons.mp
            (hStep _ hResult)
          refine List.forall_mem_cons.mpr ⟨?_, ?_⟩
          · rintro _ ⟨⟩
            exact hRows.1
          · rw [List.forall_mem_append]
            refine ⟨?_, ih [] hAnswers.2⟩
            exact List.forall_mem_map.mpr (fun r hR =>
              Answer.only_pure (hRows.2 r hR))

theorem Shows.expand
    (hShows : tape.Shows P)
    {f : Row → Answer (List Row)}
    (hF : ∀ row, P row →
      (f row).Only (fun rows => ∀ row ∈ rows, Q row)) :
    (tape.expand f).Shows Q :=
  only_expandRows hF [] tape.rows hShows

theorem only_numberRows
    (hAppend : ∀ row value, P row → Q (row ++ [value]))
    (n : Nat)
    (answers : List (Answer Row))
    (hAnswers : ∀ a ∈ answers, a.Only P) :
    ∀ a ∈ numberRows n answers, a.Only Q := by
  induction answers generalizing n with
  | nil => simp [numberRows]
  | cons a rest ih =>
      rw [List.forall_mem_cons] at hAnswers
      rw [numberRows]
      split
      · refine List.forall_mem_cons.mpr
          ⟨?_, ih n hAnswers.2⟩
        rintro _ ⟨⟩
      · next row hResult =>
          refine List.forall_mem_cons.mpr
            ⟨?_, ih (n + 1) hAnswers.2⟩
          rintro _ ⟨⟩
          exact hAppend row _ (hAnswers.1 row hResult)

theorem Shows.numbered
    (hShows : tape.Shows P)
    (hAppend : ∀ row value, P row → Q (row ++ [value])) :
    tape.numbered.Shows Q :=
  only_numberRows hAppend 1 tape.rows hShows

theorem Shows.buffered
    (hShows : tape.Shows P)
    {produce : List Row → Answer (List Row)}
    (hProduce : ∀ rows, (∀ row ∈ rows, P row) →
      (produce rows).Only (fun rows => ∀ row ∈ rows, Q row)) :
    (tape.buffered produce).Shows Q := by
  have hFilled : (do
      let rows ← tape.readAll
      tape.closing
      produce rows : Answer (List Row)).Only
        (fun rows => ∀ row ∈ rows, Q row) :=
    hShows.readAll.bind (fun rows hRows =>
      Answer.only_after (fun _ => hProduce rows hRows))
  intro a hA
  unfold Tape.buffered at hA
  dsimp only at hA
  split at hA
  · next rows hResult =>
      rcases List.mem_map.mp hA with ⟨row, hMem, rfl⟩
      exact Answer.only_pure (hFilled rows hResult row hMem)
  · cases hA

/- A row that is answered stands on the tape. -/
theorem Shows.advance
    (hShows : tape.Shows P) :
    tape.advance.1.Only (fun row => ∀ r ∈ row, P r) ∧
      tape.advance.2.Shows P := by
  unfold Tape.advance
  split
  · next a rest hRows =>
      rw [Shows, hRows, List.forall_mem_cons] at hShows
      refine ⟨?_, hShows.2⟩
      refine Answer.Only.bind' (fun row hRow => ?_)
      refine Answer.only_pure ?_
      rintro _ ⟨⟩
      exact hShows.1 row hRow
  · exact ⟨Answer.only_after (fun _ =>
      Answer.only_pure (by simp)), hShows⟩

end Tape

namespace Cursor

variable {P : Row → Prop}

/- Whatever is asked, no other rows come onto the tape. -/
theorem shows_session
    (requests : List CursorRequest)
    (cursor : Cursor)
    (hShows : cursor.tape.Shows P) :
    (cursor.session requests).2.tape.Shows P := by
  induction requests generalizing cursor with
  | nil => exact hShows
  | cons request rest ih =>
      refine ih _ ?_
      cases request with
      | openUp =>
          change cursor.openUp.2.tape.Shows P
          unfold openUp
          cases cursor.phase <;> exact hShows
      | next =>
          change cursor.next.2.tape.Shows P
          unfold next
          cases cursor.phase with
          | opened => exact hShows.advance.2
          | created => exact hShows
          | closed => exact hShows
      | close =>
          change cursor.close.2.tape.Shows P
          unfold close
          cases cursor.phase <;> exact List.forall_mem_nil _

/- A cursor answers rows of its tape. -/
theorem only_next
    {cursor : Cursor}
    (hShows : cursor.tape.Shows P) :
    cursor.next.1.Only (fun row => ∀ r ∈ row, P r) := by
  unfold Cursor.next
  split
  · exact hShows.advance.1
  · exact Answer.only_fail _
  · exact Answer.only_fail _

end Cursor

end Flwor

------------------------------------------------------------
-- Operators That Fill Rows
------------------------------------------------------------

namespace Flwor

/- A row of a width that starts with a context row. -/
structure Row.Extends
    (context : Row)
    (width : Nat)
    (row : Row) : Prop where
  length : row.length = width
  starts : context <+: row

namespace Row.Extends

variable {context row : Row}
variable {width : Nat}

theorem append
    (hRow : Row.Extends context width row)
    (more : List Sequence) :
    Row.Extends context (width + more.length)
      (row ++ more) :=
  ⟨by rw [List.length_append, hRow.length],
    hRow.starts.trans (List.prefix_append _ _)⟩

end Row.Extends

namespace Probe

/- A joined row is the left row and more. -/
theorem exists_append_of_joinRow
    {probe : Probe}
    {comparison : Comparison}
    {leftJoin skipSort : Bool}
    {rightWidth : Nat}
    {others : Array (List Sequence)}
    {left : Row}
    {key : Sequence}
    {rows : List Row}
    (hOthers : ∀ other ∈ others, other.length = rightWidth)
    (hJoin : probe.joinRow comparison leftJoin skipSort
      rightWidth others left key = .ok rows) :
    ∀ row ∈ rows, ∃ more,
      row = left ++ more ∧ more.length = rightWidth := by
  rw [Probe.joinRow, except_bind_eq_ok_iff] at hJoin
  rcases hJoin with ⟨indices, _, hRows⟩
  split at hRows
  · cases hRows
    refine List.forall_mem_singleton.mpr ⟨_, rfl, ?_⟩
    exact List.length_replicate
  · cases hRows
    intro row hMem
    rcases List.mem_filterMap.mp hMem with ⟨i, _, hRow⟩
    rcases Option.map_eq_some_iff.mp hRow with
      ⟨other, hOther, rfl⟩
    exact ⟨other, rfl,
      hOthers other (Array.mem_of_getElem? hOther)⟩

end Probe

theorem Row.length_slots
    {row : Row}
    {indices : List Nat}
    {values : List Sequence}
    (hSlots : row.slots indices = .ok values) :
    values.length = indices.length :=
  (except_mapM_eq_ok_iff.mp hSlots).length_eq.symm

/- A grouped row is the context, the keys and the values. -/
theorem extends_of_groupRows
    {context : Row}
    {keys values : List Nat}
    {rows grouped : List Row}
    (hGroup : groupRows context keys values rows =
      .ok grouped) :
    ∀ row ∈ grouped, Row.Extends context
      (context.length + keys.length + values.length)
      row := by
  rw [groupRows, except_bind_eq_ok_iff] at hGroup
  rcases hGroup with ⟨entries, hEntries, hGrouped⟩
  cases hGrouped
  have hKeys : ∀ entry ∈ entries,
      entry.keys.length = keys.length := by
    refine forall_mem_of_forall₂
      (except_mapM_eq_ok_iff.mp hEntries) ?_
    intro row _ entry hEntry
    rw [GroupEntry.ofRow, except_bind_eq_ok_iff] at hEntry
    rcases hEntry with ⟨ks, hKs, hEntry⟩
    rw [except_bind_eq_ok_iff] at hEntry
    rcases hEntry with ⟨vs, _, hEntry⟩
    cases hEntry
    exact Row.length_slots hKs
  intro row hMem
  rcases List.mem_map.mp hMem with ⟨first, hFirst, rfl⟩
  rcases List.mem_map.mp
      (Buckets.mem_of_mem_firstsAfter hFirst) with
    ⟨entry, hEntry, rfl⟩
  refine ⟨?_, ?_⟩
  · simp [groupRow, hKeys entry hEntry, Nat.add_assoc]
  · rw [groupRow, List.append_assoc]
    exact List.prefix_append _ _

namespace Operator

/-
  On a context row of a width, the rows of an operator extend
  the context row to another width.
-/
def Fills
    (context width : Nat)
    (op : Operator) : Prop :=
  ∀ row : Row, row.length = context →
    (op.tape row).Shows (Row.Extends row width)

namespace Fills

variable {context width : Nat}
variable {input : Operator}

theorem start :
    Operator.start.Fills context context := by
  intro row hRow
  rw [tape]
  refine Tape.Shows.recorded ?_
  exact List.forall_mem_singleton.mpr
    (Answer.only_pure ⟨hRow, List.prefix_refl row⟩)

/- An operator that appends slots to the rows of its input. -/
theorem expand
    (hInput : input.Fills context width)
    {row : Row}
    (hRow : row.length = context)
    (more : Nat)
    {f : Row → Answer (List Row)}
    (hF : ∀ r, (f r).Only (fun rows => ∀ wide ∈ rows,
      ∃ values : List Sequence,
        wide = r ++ values ∧ values.length = more)) :
    (((input.tape row).asInput
      .left).expand f).recorded.Shows
        (Row.Extends row (width + more)) := by
  refine Tape.Shows.recorded ?_
  refine ((hInput row hRow).asInput .left).expand ?_
  intro r hR rows hRows wide hMem
  rcases hF r rows hRows wide hMem with ⟨values, rfl, rfl⟩
  exact hR.append values

theorem forBind
    (hInput : input.Fills context width)
    (var : String)
    (position : Option String)
    (source : Expr)
    (check : Option Slot) :
    (Operator.forBind input var position source check).Fills
      context (width + (1 + position.toList.length)) := by
  intro row hRow
  rw [tape]
  refine hInput.expand hRow _ (fun r => ?_)
  refine Answer.only_after (fun skipped => ?_)
  cases skipped with
  | true =>
      refine Answer.only_pure ?_
      refine List.forall_mem_singleton.mpr ⟨[] ::
        (if position.isSome then [[]] else []), ?_, ?_⟩
      · rw [bindNothing, List.append_assoc]
        rfl
      · cases position <;> rfl
  | false =>
      refine Answer.only_after (fun items => ?_)
      refine Answer.only_pure ?_
      refine List.forall_mem_map.mpr (fun p _ => ?_)
      refine ⟨[p.1] :: (if position.isSome then
        [[.int (p.2 + 1)]] else []), ?_, ?_⟩
      · rw [List.append_assoc]
        rfl
      · cases position <;> rfl

theorem letBind
    (hInput : input.Fills context width)
    (var : String)
    (value : Option Expr)
    (check : Option Slot) :
    (Operator.letBind input var value check).Fills
      context (width + 1) := by
  intro row hRow
  rw [tape]
  refine hInput.expand hRow _ (fun r => ?_)
  refine Answer.only_after (fun bound => ?_)
  exact Answer.only_pure
    (List.forall_mem_singleton.mpr ⟨[bound], rfl, rfl⟩)

theorem select
    (hInput : input.Fills context width)
    (predicate : Expr) :
    (Operator.select input predicate).Fills
      context width := by
  intro row hRow
  rw [tape]
  refine hInput.expand hRow 0 (fun r => ?_)
  refine Answer.only_after (fun s => ?_)
  refine Answer.only_after (fun holds => ?_)
  refine Answer.only_pure ?_
  cases holds with
  | true =>
      exact List.forall_mem_singleton.mpr
        ⟨[], (List.append_nil r).symm, rfl⟩
  | false => exact List.forall_mem_nil _

theorem orderBy
    (hInput : input.Fills context width)
    (keys : List SortKey) :
    (Operator.orderBy input keys).Fills context width := by
  intro row hRow
  rw [tape]
  refine Tape.Shows.recorded ?_
  refine ((hInput row hRow).asInput .left).buffered ?_
  intro rows hRows
  have hKeyed : (Answer.sequence (rows.map (fun row => (do
        let values ← SortKey.evalAll keys row
        return (values, row) :
          Answer (List (Option Item) × Row))))).Only
      (fun keyed => ∀ pair ∈ keyed,
        Row.Extends row width pair.2) := by
    refine Answer.only_sequence (List.forall_mem_map.mpr ?_)
    exact fun r hMem => Answer.only_after
      (fun _ => Answer.only_pure (hRows r hMem))
  refine hKeyed.bind (fun keyed hAll => ?_)
  refine Answer.only_pure (List.forall_mem_map.mpr ?_)
  exact fun pair hPair =>
    hAll pair (List.mem_mergeSort.mp hPair)

/- Groups start with the context row, whatever was read. -/
theorem groupBy
    (hInput : input.Fills context width)
    (keys aggregates : List Slot) :
    (Operator.groupBy input keys aggregates).Fills context
      (context + (keys ++ aggregates).length) := by
  intro row hRow
  rw [tape]
  refine Tape.Shows.recorded ?_
  refine ((hInput row hRow).asInput .left).buffered ?_
  intro rows _ grouped hGrouped
  have hAll := extends_of_groupRows hGrouped
  rw [hRow, List.length_map, List.length_map,
    Nat.add_assoc, ← List.length_append] at hAll
  exact hAll

theorem count
    (hInput : input.Fills context width)
    (var : String) :
    (Operator.count input var).Fills
      context (width + 1) := by
  intro row hRow
  rw [tape]
  refine Tape.Shows.recorded ?_
  exact ((hInput row hRow).asInput .left).numbered
    (fun r value hR => hR.append [value])

/- A projected row keeps the context and chosen slots. -/
theorem project
    (hInput : input.Fills context width)
    (keep : List Slot) :
    (Operator.project input context keep).Fills context
      (context + keep.length) := by
  intro row hRow
  rw [tape]
  refine Tape.Shows.recorded ?_
  refine ((hInput row hRow).asInput .left).expand ?_
  intro r hR
  refine Answer.Only.bind (P := fun kept =>
    Row.Extends row (context + keep.length) kept) ?_
    (fun kept hKept => Answer.only_pure
      (List.forall_mem_singleton.mpr hKept))
  intro kept hProject
  change projectRow context keep r = .ok kept at hProject
  rw [projectRow, except_bind_eq_ok_iff] at hProject
  rcases hProject with ⟨values, hValues, hEq⟩
  cases hEq
  have hTake : r.take context = row := by
    rw [← hRow]
    exact (List.prefix_iff_eq_take.mp hR.starts).symm
  rw [hTake]
  refine ⟨?_, List.prefix_append _ _⟩
  rw [List.length_append, hRow, Row.length_slots hValues,
    List.length_map]

/-
  Joined rows are left rows and what the right rows, which
  start with the same context row, hold after it.
-/
theorem join
    {left right : Operator}
    {rightWidth : Nat}
    (hLeft : left.Fills context width)
    (hRight : right.Fills context (context + rightWidth))
    (leftKey rightKey : Expr)
    (comparison : Comparison)
    (leftJoin skipSort : Bool) :
    (Operator.join left right leftKey rightKey comparison
        leftJoin skipSort context rightWidth).Fills context
      (width + rightWidth) := by
  intro row hRow
  rw [tape]
  refine Tape.Shows.recorded ?_
  dsimp only
  -- What the right input was turned into, once it is read.
  generalize hFilled :
    ((do
      let rows ← (do
        ((left.tape row).asInput .left).opening
        ((right.tape row).asInput .right).readAll :
          Answer (List Row))
      ((right.tape row).asInput .right).closing
      let keys ← Answer.sequence
        (rows.map (Expr.eval rightKey))
      Answer.count
        (.joined (JoinStrategy.ofComparison comparison))
      return (Probe.build
          (JoinStrategy.ofComparison comparison) keys,
        (rows.map (fun row => row.drop context)).toArray)) :
      Answer (Probe × Array (List Sequence))) = filled
  have hOthers : filled.Only (fun built =>
      ∀ other ∈ built.2, other.length = rightWidth) := by
    subst hFilled
    have hReading : (do
        ((left.tape row).asInput .left).opening
        ((right.tape row).asInput .right).readAll :
          Answer (List Row)).Only (fun rows =>
            ∀ r ∈ rows,
              Row.Extends row (context + rightWidth) r) :=
      Answer.only_after (fun _ =>
        ((hRight row hRow).asInput .right).readAll)
    refine hReading.bind (fun rows hRows => ?_)
    refine Answer.only_after (fun _ => ?_)
    refine Answer.only_after (fun keys => ?_)
    refine Answer.only_after (fun _ => ?_)
    refine Answer.only_pure (fun other hMem => ?_)
    rcases List.mem_map.mp (List.mem_toArray.mp hMem) with
      ⟨r, hR, rfl⟩
    rw [List.length_drop, (hRows r hR).length,
      Nat.add_sub_cancel_left]
  refine ((hLeft row hRow).asInput .left).expand ?_
  intro r hR
  split
  · exact Answer.only_fail _
  · next probe others hResult =>
      refine Answer.only_after (fun key => ?_)
      refine Answer.only_ofEvaluation (fun rows hJoin => ?_)
      intro wide hMem
      rcases Probe.exists_append_of_joinRow
          (hOthers _ hResult) hJoin wide hMem with
        ⟨more, rfl, rfl⟩
      exact hR.append more

end Fills

end Operator

end Flwor

------------------------------------------------------------
-- Compiled Stages
------------------------------------------------------------

namespace Flwor

namespace Tree

/- An operator whose rows have a slot per name of a layout. -/
structure Furnished
    (context : Nat)
    (op : Operator)
    (layout : Layout) : Prop where
  fills : op.Fills context layout.width
  layout : layout.OnContext context

namespace Furnished

variable {context : Nat}
variable {op input : Operator}
variable {layout before : Layout}

/- Slots that are appended get the names that are pushed. -/
theorem pushAll
    (hInput : Furnished context input before)
    (names : List String)
    (hFills : op.Fills context
      (before.width + names.length)) :
    Furnished context op (before.pushAll names) := by
  refine ⟨?_, hInput.layout.pushAll names⟩
  rw [Layout.width, Layout.pushAll, List.length_append]
  exact hFills

/- Slots after the context get the names that replace all. -/
theorem withLocals
    (hInput : Furnished context input before)
    (names : List String)
    (hFills : op.Fills context (context + names.length)) :
    Furnished context op (before.withLocals names) := by
  refine ⟨?_, hInput.layout.withLocals names⟩
  rw [hInput.layout.width_withLocals]
  exact hFills

/- Trimming changes rows and layout together. -/
theorem trim
    (hFilled : Furnished context op layout)
    (properties : Properties) :
    Furnished context (Compile.trim properties op layout).1
      (Compile.trim properties op layout).2 := by
  rw [Compile.trim]
  split
  · exact hFilled
  · next wanted _ =>
      dsimp only
      split
      · exact hFilled
      · have hLayout := hFilled.layout
        have hWidth :
            (layout.select
              ((Compile.keptSlots layout wanted).map
                Slot.index)).width =
              context
                + (Compile.keptSlots layout wanted).length := by
          rw [Layout.width, Layout.names_select_keptSlots,
            List.length_append, List.length_map,
            hLayout.length_contextNames]
        refine ⟨?_, hLayout.withLocals _⟩
        rw [hWidth, hLayout.context]
        exact hFilled.fills.project _

end Furnished

variable (library : Library)

/- The tree compiles to an operator that fills its layout. -/
def StageFurnished
    (t : Tree) : Prop :=
  ∀ names op layout,
    Compile.stage library t (Layout.ofContext names) =
        .ok (op, layout) →
      Furnished names.length op layout

variable {library : Library}
variable {i : NodeId}
variable {p : Payload}
variable {ps : Properties}
variable {cs : List Tree}

/- A stage whose input was compiled. -/
theorem furnished_of_stageHead
    (hCs : ∀ c ∈ cs, StageFurnished library c)
    {names : List String}
    {kind : Kind}
    {id : NodeId}
    {op : Operator}
    {layout : Layout}
    (hHead : Compile.stageHead library kind id cs
      (Layout.ofContext names) = .ok (op, layout)) :
    Furnished names.length op layout := by
  rw [Compile.stageHead_eq_ok_iff] at hHead
  rcases hHead with ⟨input, hInput, hStage⟩
  exact hCs input (List.mem_of_head? hInput) names op layout
    hStage

theorem stageFurnished_start :
    StageFurnished library (.node i .start p ps cs) := by
  intro names op layout hCompile
  simp only [Compile.stage] at hCompile
  cases hCompile
  exact ⟨.start, Layout.onContext_ofContext names⟩

theorem stageFurnished_forBind
    (hStages : ∀ c ∈ cs, StageFurnished library c) :
    StageFurnished library (.node i .forBind p ps cs) := by
  intro names op layout hCompile
  simp only [Compile.stage, except_bind_eq_ok_iff]
    at hCompile
  rcases hCompile with ⟨⟨input, before⟩, hHead, source, _,
    check, _, var, _, hEq⟩
  cases hEq
  have hInput := furnished_of_stageHead hStages hHead
  refine hInput.pushAll _ ?_
  rw [List.length_cons, Nat.add_comm _ 1]
  exact hInput.fills.forBind var _ source check

/- A `let` fills its slot, whether it is live or not. -/
theorem stageFurnished_letBind
    (hStages : ∀ c ∈ cs, StageFurnished library c) :
    StageFurnished library (.node i .letBind p ps cs) := by
  intro names op layout hCompile
  simp only [Compile.stage, except_bind_eq_ok_iff]
    at hCompile
  rcases hCompile with ⟨⟨input, before⟩, hHead, var, _,
    hBind⟩
  have hInput := furnished_of_stageHead hStages hHead
  split at hBind
  · simp only [except_bind_eq_ok_iff] at hBind
    rcases hBind with ⟨value, _, check, _, hEq⟩
    cases hEq
    exact hInput.pushAll [var]
      (hInput.fills.letBind var (some value) check)
  · cases hBind
    exact hInput.pushAll [var]
      (hInput.fills.letBind var none none)

theorem stageFurnished_selection
    (hStages : ∀ c ∈ cs, StageFurnished library c) :
    StageFurnished library (.node i .selection p ps cs) := by
  intro names op layout hCompile
  simp only [Compile.stage, except_bind_eq_ok_iff]
    at hCompile
  rcases hCompile with ⟨⟨input, before⟩, hHead, predicate,
    _, hEq⟩
  cases hEq
  have hInput := furnished_of_stageHead hStages hHead
  exact ⟨hInput.fills.select predicate, hInput.layout⟩

theorem stageFurnished_orderBy
    (hStages : ∀ c ∈ cs, StageFurnished library c) :
    StageFurnished library (.node i .orderBy p ps cs) := by
  intro names op layout hCompile
  simp only [Compile.stage, except_bind_eq_ok_iff,
    Compile.trimmedHead_eq_ok_iff] at hCompile
  rcases hCompile with ⟨⟨input, before⟩,
    ⟨t, hHead, wide, wider, hStage, hTrim⟩, keys, _, hEq⟩
  cases hEq
  have hInput := (hStages t (List.mem_of_head? hHead) names
    wide wider hStage).trim t.properties
  rw [hTrim] at hInput
  exact ⟨hInput.fills.orderBy keys, hInput.layout⟩

theorem stageFurnished_groupBy
    (hStages : ∀ c ∈ cs, StageFurnished library c) :
    StageFurnished library (.node i .groupBy p ps cs) := by
  intro names op layout hCompile
  simp only [Compile.stage, except_bind_eq_ok_iff]
    at hCompile
  rcases hCompile with ⟨⟨input, before⟩, hHead, keys, _,
    aggregates, _, hEq⟩
  cases hEq
  have hInput := furnished_of_stageHead hStages hHead
  refine hInput.withLocals _ ?_
  rw [List.length_map]
  exact hInput.fills.groupBy keys aggregates

theorem stageFurnished_count
    (hStages : ∀ c ∈ cs, StageFurnished library c) :
    StageFurnished library (.node i .count p ps cs) := by
  intro names op layout hCompile
  simp only [Compile.stage, except_bind_eq_ok_iff]
    at hCompile
  rcases hCompile with ⟨⟨input, before⟩, hHead, var, _, hEq⟩
  cases hEq
  have hInput := furnished_of_stageHead hStages hHead
  exact hInput.pushAll [var] (hInput.fills.count var)

/- The right side gives its slots and names after the context. -/
theorem stageFurnished_join
    (hStages : ∀ c ∈ cs, StageFurnished library c) :
    StageFurnished library (.node i .join p ps cs) := by
  intro names op layout hCompile
  rcases cs with _ | ⟨l, _ | ⟨⟨j, k, q, qs, keys⟩,
    _ | ⟨r, rest⟩⟩⟩
  · simp only [Compile.stage, Compile.join] at hCompile
    cases hCompile
  · simp only [Compile.stage, Compile.join] at hCompile
    cases hCompile
  · simp only [Compile.stage, Compile.join] at hCompile
    cases hCompile
  · simp only [Compile.stage, Compile.join,
      except_bind_eq_ok_iff] at hCompile
    rcases hCompile with ⟨comparison, _,
      ⟨wideLeft, widerLeft⟩, hStageLeft,
      ⟨wideRight, widerRight⟩, hStageRight,
      leftKey, _, rightKey, _, hEq⟩
    cases hEq
    have hLeft := (hStages l (by simp) names _ _
      hStageLeft).trim l.properties
    have hRight := (hStages r (by simp) names _ _
      hStageRight).trim r.properties
    refine hLeft.pushAll _ ?_
    refine hLeft.fills.join ?_ leftKey rightKey comparison
      (ps.flag Properties.leftJoin)
      (ps.flag Properties.skipSort)
    rw [hRight.layout.length_locals,
      Nat.add_sub_cancel' hRight.layout.fits]
    exact hRight.fills

/- What compiles fills the layout that it hands on. -/
theorem furnished_of_compiled
    (t : Tree) :
    StageFurnished library t := by
  induction t using Tree.induction with
  | node i k p ps cs ih =>
      cases k
      case start => exact stageFurnished_start
      case forBind => exact stageFurnished_forBind ih
      case letBind => exact stageFurnished_letBind ih
      case selection => exact stageFurnished_selection ih
      case orderBy => exact stageFurnished_orderBy ih
      case groupBy => exact stageFurnished_groupBy ih
      case count => exact stageFurnished_count ih
      case join => exact stageFurnished_join ih
      all_goals
        intro names op layout hCompile
        simp only [Compile.stage] at hCompile
        cases hCompile

end Tree

end Flwor

------------------------------------------------------------
-- Stages of Plans
------------------------------------------------------------

namespace Flwor

namespace Plan

/-
  The rows of a compiled stage are what the bindings say:
  its layout names the context and then the bindings that
  are visible after it, and whatever is asked of a cursor, it
  answers rows with a slot for each name that start with the
  row it was created with.
-/
theorem stage_fills_layout
    {library : Library}
    {plan : Plan}
    {t : Tree}
    {names : List String}
    {op : Operator}
    {layout : Layout}
    (hValid : plan.validate = .ok ())
    (hLacks : plan.rootTree.Lacks Properties.project)
    (hStage : t ∈ plan.rootTree.subtrees)
    (hCompile : Compile.stage library t
      (Layout.ofContext names) = .ok (op, layout)) :
    layout.names = names ++ t.visible ∧
      ∀ context : Row, context.length = names.length →
        ∀ requests row,
          ((op.cursor context).session
              requests).2.next.1.result = .ok (some row) →
            row.length = layout.names.length ∧
              context <+: row := by
  have hLacksStage : t.Lacks Properties.project :=
    fun s hMem => hLacks s
      (Tree.mem_subtrees_trans hMem hStage)
  have hShaped : t.Shaped := fun s hMem =>
    shaped_of_validate hValid s
      (Tree.mem_subtrees_trans hMem hStage)
  have hFilled :=
    Tree.furnished_of_compiled t names op layout hCompile
  refine ⟨?_, ?_⟩
  · rw [((Tree.scoped_of_compiled t hLacksStage hShaped).2
      names op layout hCompile).1]
    rfl
  · intro context hContext requests row hNext
    have hExtends : Row.Extends context layout.width row :=
      Cursor.only_next (Cursor.shows_session requests _
        (hFilled.fills context hContext)) (some row) hNext
        row rfl
    exact ⟨hExtends.length, hExtends.starts⟩

/-
  A plan with a position, padded rows and groups:
  `for $x at $i in $in left join for $y in $in on $x lt $y
    group by $x collecting $y into $g return $g`.
-/
def paddingPlan : Plan where
  nodes := #[
    ⟨.pipeExpr, .none, none, [1], []⟩,
    ⟨.finish, .none, some 0, [2, 21], []⟩,
    ⟨.groupBy, .none, some 1, [3, 16, 18], []⟩,
    ⟨.join, .none, some 2, [4, 9, 12],
      [(Properties.leftJoin, .flag true)]⟩,
    ⟨.forBind, .none, some 3, [5, 6, 7, 8], []⟩,
    ⟨.start, .none, some 4, [], []⟩,
    ⟨.variable, .var "x", some 4, [], []⟩,
    ⟨.posVariable, .var "i", some 4, [], []⟩,
    ⟨.variableRef, .var "in", some 4, [], []⟩,
    ⟨.joinExpr, .cmp (.value .lt), some 3, [10, 11], []⟩,
    ⟨.variableRef, .var "x", some 9, [], []⟩,
    ⟨.variableRef, .var "y", some 9, [], []⟩,
    ⟨.forBind, .none, some 3, [13, 14, 15], []⟩,
    ⟨.start, .none, some 12, [], []⟩,
    ⟨.variable, .var "y", some 12, [], []⟩,
    ⟨.variableRef, .var "in", some 12, [], []⟩,
    ⟨.groupSpec, .none, some 2, [17], []⟩,
    ⟨.variableRef, .var "x", some 16, [], []⟩,
    ⟨.aggregateSpec, .none, some 2, [19, 20], []⟩,
    ⟨.variable, .var "g", some 18, [], []⟩,
    ⟨.variableRef, .var "y", some 18, [], []⟩,
    ⟨.variableRef, .var "g", some 1, [], []⟩]
  root := 0
  counter := 0

/- The padded row of the join has all four of its slots. -/
theorem fills_paddingPlan :
    ∃ op layout,
      Compile.stage Library.standard
          (paddingPlan.treeWithin 19 3)
          (Layout.ofContext ["in"]) = .ok (op, layout) ∧
        layout.names = ["in", "x", "i", "y"] ∧
        ((op.cursor [[.int 1, .int 2]]).session
          [.openUp, .next]).2.next.1.result.toOption =
            some (some
              [[.int 1, .int 2], [.int 2], [.int 2], []]) ∧
        ∀ requests row,
          ((op.cursor [[.int 1, .int 2]]).session
              requests).2.next.1.result = .ok (some row) →
            row.length = layout.names.length ∧
              [[.int 1, .int 2]] <+: row := by
  have hStage : paddingPlan.treeWithin 19 3 ∈
      paddingPlan.rootTree.subtrees :=
    List.mem_of_getElem? (i := 3) rfl
  have hShown :
      (match Compile.stage Library.standard
          (paddingPlan.treeWithin 19 3)
          (Layout.ofContext ["in"]) with
        | .ok (op, _) =>
            ((op.cursor [[.int 1, .int 2]]).session
              [.openUp, .next]).2.next.1.result.toOption
        | .error _ => none) =
      some (some
        [[.int 1, .int 2], [.int 2], [.int 2], []]) := by
    decide +kernel
  cases hCompile : Compile.stage Library.standard
      (paddingPlan.treeWithin 19 3)
      (Layout.ofContext ["in"]) with
  | error failure =>
      rw [hCompile] at hShown
      cases hShown
  | ok compiled =>
      rcases compiled with ⟨op, layout⟩
      rw [hCompile] at hShown
      have hFills := stage_fills_layout rfl (by decide)
        hStage hCompile
      exact ⟨op, layout, rfl, hFills.1, hShown,
        hFills.2 [[.int 1, .int 2]] rfl⟩

end Plan

end Flwor
