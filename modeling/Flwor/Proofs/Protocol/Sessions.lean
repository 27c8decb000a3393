import Flwor.Proofs.Protocol.Evaluation

/-
  Clients of the cursor of an operator.

  A client may ask a cursor for anything at any time.  The
  journals of all answers, joined, tell every raw cursor's
  life: it is opened at most once, read only while it is
  open, and closed at most once, and after a request to
  close none is left open.  A request out of order fails and
  changes nothing.

  Key definitions include:
    * `CursorRequest`
    * `Cursor.session`
    * `Tape.Told`

  Key theorems include:
    * `Cursor.phase_session`
    * `Tape.Told.session`
    * `Operator.session_in_order`
-/

------------------------------------------------------------
-- Sessions
------------------------------------------------------------

namespace Flwor

/- What a client may ask a cursor for. -/
inductive CursorRequest where
  | openUp
  | next
  | close
deriving DecidableEq, Repr

/- The phase after a request. -/
def Phase.after : Phase → CursorRequest → Phase
  | .created, .openUp => .opened
  | phase, .openUp => phase
  | phase, .next => phase
  | _, .close => .closed

namespace Cursor

/- What the answer to a request tells, and what is left. -/
def answer
    (cursor : Cursor) : CursorRequest → Journal × Cursor
  | .openUp => (cursor.openUp.1.journal, cursor.openUp.2)
  | .next => (cursor.next.1.journal, cursor.next.2)
  | .close => (cursor.close.1.journal, cursor.close.2)

/- Ask for one thing after the other. -/
def session : List CursorRequest → Cursor → Journal × Cursor
  | [], cursor => ([], cursor)
  | request :: rest, cursor =>
      let (told, cursor) := cursor.answer request
      let (more, cursor) := session rest cursor
      (told ++ more, cursor)

/- Each request leads to a phase. -/
theorem phase_answer
    (cursor : Cursor)
    (request : CursorRequest) :
    (cursor.answer request).2.phase =
      cursor.phase.after request := by
  unfold answer openUp next close
  cases request <;> cases hPhase : cursor.phase <;>
    simp [Phase.after, hPhase]

/- The phase of a session is decided by what was asked. -/
theorem phase_session
    (requests : List CursorRequest)
    (cursor : Cursor) :
    (cursor.session requests).2.phase =
      if .close ∈ requests ∨ cursor.phase = .closed then
        .closed
      else if .openUp ∈ requests ∨ cursor.phase = .opened then
        .opened
      else .created := by
  induction requests generalizing cursor with
  | nil =>
      cases hPhase : cursor.phase <;> simp [session, hPhase]
  | cons request rest ih =>
      unfold session
      dsimp only
      rw [ih, phase_answer]
      cases request <;> cases cursor.phase <;>
        simp [Phase.after]

end Cursor

end Flwor

------------------------------------------------------------
-- What a Session Tells
------------------------------------------------------------

namespace Flwor

open Journal

namespace Tape

variable {tape : Tape}
variable {O P C : Journal → Prop}

/- What has been told of a tape when it is in a phase. -/
inductive Told
    (O P C : Journal → Prop) : Phase → Journal → Prop where
  | created : Told O P C .created []
  | opened
      {first more : Journal}
      (hFirst : O first)
      (hMore : P more) :
      Told O P C .opened (first ++ more)
  | unopened : Told O P C .closed []
  | closed
      {first more last : Journal}
      (hFirst : O first)
      (hMore : P more)
      (hLast : C last) :
      Told O P C .closed (first ++ more ++ last)

/- An answer to a call for a row leaves a tape like before. -/
theorem Keeps.advance
    (hKeeps : tape.Keeps O P C) :
    P tape.advance.1.journal ∧ tape.advance.2.Keeps O P C := by
  have hRows := hKeeps.rows
  unfold Tape.advance
  split
  · next a rest hEq =>
      rw [hEq, List.forall_mem_cons] at hRows
      dsimp only
      rw [Answer.journal_bind_pure]
      exact ⟨hRows.1, { hKeeps with rows := hRows.2 }⟩
  · dsimp only
    rw [Answer.journal_bind_pure]
    exact ⟨hKeeps.ending,
      { hKeeps with ending := hKeeps.spent }⟩

/- So does the answer to any request. -/
theorem Told.answer
    (hP : Tolerant P)
    {cursor : Cursor}
    {told : Journal}
    (hTold : Told O P C cursor.phase told)
    (hKeeps : cursor.tape.Keeps O P C)
    (request : CursorRequest) :
    Told O P C (cursor.answer request).2.phase
        (told ++ (cursor.answer request).1) ∧
      (cursor.answer request).2.tape.Keeps O P C := by
  rcases cursor with ⟨tape, phase⟩
  have hAdvance := hKeeps.advance
  have hExhausted : tape.exhausted.Keeps O P C :=
    { hKeeps with
      rows := List.forall_mem_nil _
      ending := hKeeps.spent }
  cases hTold with
  | created =>
      cases request with
      | openUp =>
          have hOpened :=
            Told.opened (C := C) hKeeps.opening hP.nil
          rw [List.append_nil] at hOpened
          exact ⟨hOpened, hKeeps⟩
      | next => exact ⟨.created, hKeeps⟩
      | close => exact ⟨.unopened, hExhausted⟩
  | opened hFirst hMore =>
      cases request with
      | openUp =>
          exact ⟨(List.append_nil _).symm ▸
            .opened hFirst hMore, hKeeps⟩
      | next =>
          refine ⟨?_, hAdvance.2⟩
          rw [List.append_assoc]
          exact .opened hFirst (hP.append hMore hAdvance.1)
      | close =>
          exact ⟨.closed hFirst hMore hKeeps.closing,
            hExhausted⟩
  | unopened =>
      cases request with
      | openUp => exact ⟨.unopened, hKeeps⟩
      | next => exact ⟨.unopened, hKeeps⟩
      | close => exact ⟨.unopened, hExhausted⟩
  | closed hFirst hMore hLast =>
      have hSame := Told.closed hFirst hMore hLast
      cases request with
      | openUp =>
          exact ⟨(List.append_nil _).symm ▸ hSame, hKeeps⟩
      | next =>
          exact ⟨(List.append_nil _).symm ▸ hSame, hKeeps⟩
      | close =>
          exact ⟨(List.append_nil _).symm ▸ hSame,
            hExhausted⟩

/- And so do the answers of a session. -/
theorem Told.session
    (hP : Tolerant P)
    {told : Journal}
    (cursor : Cursor)
    (hTold : Told O P C cursor.phase told)
    (hKeeps : cursor.tape.Keeps O P C)
    (requests : List CursorRequest) :
    Told O P C (cursor.session requests).2.phase
      (told ++ (cursor.session requests).1) := by
  induction requests generalizing cursor told with
  | nil =>
      unfold Cursor.session
      rw [List.append_nil]
      exact hTold
  | cons request rest ih =>
      have hStep := hTold.answer hP hKeeps request
      unfold Cursor.session
      dsimp only
      rw [← List.append_assoc]
      exact ih _ hStep.1 hStep.2

/- What a session tells of the end of a path is a life. -/
theorem Told.exists_life
    {phase at' : Phase}
    {sides : List Side}
    {told : Journal}
    (hTold : Told
      (fun journal => Life phase (journal.inside sides).calls)
      (ReadsOnly phase sides)
      (fun journal =>
        (journal.inside sides).calls = phase.closing)
      at' told) :
    ∃ reached, (at' = .closed → reached ≠ .opened) ∧
      Life reached (told.inside sides).calls := by
  cases hTold with
  | created =>
      rw [inside_nil]
      exact ⟨.created, by simp, .created⟩
  | opened hFirst hMore =>
      rw [inside_append, calls_append]
      exact ⟨phase, by simp, hFirst.read hMore⟩
  | unopened =>
      rw [inside_nil]
      exact ⟨.created, by simp, .created⟩
  | closed hFirst hMore hLast =>
      rw [inside_append, inside_append, calls_append,
        calls_append, hLast]
      exact ⟨phase.ended, fun _ => phase.ended_ne_opened,
        (hFirst.read hMore).close⟩

theorem Told.tolerated
    (hP : Tolerant P)
    {phase : Phase}
    {told : Journal}
    (hTold : Told P P P phase told) :
    P told := by
  cases hTold with
  | created => exact hP.nil
  | opened hFirst hMore => exact hP.append hFirst hMore
  | unopened => exact hP.nil
  | closed hFirst hMore hLast =>
      exact hP.append (hP.append hFirst hMore) hLast

/- A session with an ordered tape, on all paths. -/
theorem Ordered.exists_life_session
    (hOrdered : tape.Ordered)
    (requests : List CursorRequest)
    (path : List Journal.Step) :
    let done := (Cursor.create tape).session requests
    ∃ phase, (done.2.phase = .closed → phase ≠ .opened) ∧
      Life phase (done.1.below path).calls := by
  intro done
  apply exists_life_below
  · intro phase hPhase _
    exact hPhase
  · intro sides
    rcases hOrdered.lives sides with ⟨phase, hLives⟩
    exact (Told.session (tolerant_readsOnly phase sides)
      (Cursor.create tape) .created hLives
      requests).exists_life
  · exact (Told.session tolerant_runsSettled
      (Cursor.create tape) .created hOrdered.runs
      requests).tolerated tolerant_runsSettled

end Tape

end Flwor

------------------------------------------------------------
-- Sessions with Operators
------------------------------------------------------------

namespace Flwor

namespace Cursor

/- What the cursor answers to being closed never changes. -/
theorem closing_session
    (requests : List CursorRequest)
    (cursor : Cursor) :
    (cursor.session requests).2.tape.closing =
      cursor.tape.closing := by
  induction requests generalizing cursor with
  | nil => rfl
  | cons request rest ih =>
      unfold session
      dsimp only
      rw [ih]
      unfold answer openUp next close Tape.advance
      cases request with
      | openUp => cases cursor.phase <;> rfl
      | next =>
          cases cursor.phase <;> cases cursor.tape.rows <;> rfl
      | close => cases cursor.phase <;> rfl

end Cursor

namespace Operator

/-
  Whatever a client asks, every raw cursor that is created on
  the way is opened at most once, read only while it is open,
  and closed at most once, and none is open after a request
  to close.  Requests out of order fail and change nothing;
  closing never fails.
-/
theorem session_in_order
    (op : Operator)
    (context : Row)
    (requests : List CursorRequest) :
    let done := (op.cursor context).session requests
    (∀ path, ∃ phase,
      Life phase (done.1.below path).calls ∧
        (.close ∈ requests → phase ≠ .opened)) ∧
    (.close ∈ requests →
      done.2.openUp =
        (Answer.fail (.cursor .openedAfterClose), done.2)) ∧
    (.close ∈ requests →
      done.2.next =
        (Answer.fail (.cursor .readAfterClose), done.2)) ∧
    (.close ∉ requests → .openUp ∈ requests →
      done.2.openUp =
        (Answer.fail (.cursor .openedTwice), done.2)) ∧
    (.close ∉ requests → .openUp ∉ requests →
      done.2.next =
        (Answer.fail (.cursor .readBeforeOpen), done.2)) ∧
    done.2.close.1.result = .ok () := by
  intro done
  have hPhase := Cursor.phase_session requests
    (op.cursor context)
  have hCreated : (op.cursor context).phase = .created := rfl
  rw [hCreated] at hPhase
  refine ⟨?_, ?_, ?_, ?_, ?_, ?_⟩
  · intro path
    rcases (op.tape_ordered context).exists_life_session
        requests path with ⟨phase, hClosed, hLife⟩
    refine ⟨phase, hLife, fun hAsked => hClosed ?_⟩
    rw [if_pos (.inl hAsked)] at hPhase
    exact hPhase
  · intro hAsked
    rw [if_pos (.inl hAsked)] at hPhase
    unfold Cursor.openUp
    rw [show done.2.phase = .closed from hPhase]
  · intro hAsked
    rw [if_pos (.inl hAsked)] at hPhase
    unfold Cursor.next
    rw [show done.2.phase = .closed from hPhase]
  · intro hNot hAsked
    rw [if_neg (by simp [hNot]), if_pos (.inl hAsked)]
      at hPhase
    unfold Cursor.openUp
    rw [show done.2.phase = .opened from hPhase]
  · intro hNot hNever
    rw [if_neg (by simp [hNot]), if_neg (by simp [hNever])]
      at hPhase
    unfold Cursor.next
    rw [show done.2.phase = .created from hPhase]
  · have hClosing : done.2.tape.closing =
        (op.tape context).closing :=
      Cursor.closing_session requests (op.cursor context)
    have hOk := Answer.result_eq_ok_of_value?
      (op.tape_settles context).closing
    unfold Cursor.close
    dsimp only
    split
    · rw [hClosing]
      exact hOk
    · rfl

/-
  The right input of a join is closed although its rows could
  not be read, and although the client only opened and closed
  the join.
-/
example :
    let unbound := Expr.variable ⟨"x", 7⟩
    let right := Operator.select .start unbound
    let join := Operator.join .start right unbound unbound
      (.general .eq) false false 0 0
    let done :=
      (join.cursor []).session [.openUp, .close]
    (done.1.below [.input .right]).calls =
      [.opened, .advanced, .closed] := by
  rfl

end Operator

end Flwor
