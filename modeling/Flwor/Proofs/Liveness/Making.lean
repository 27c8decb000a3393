import Mathlib.Data.List.Perm.Basic
import Flwor.Proofs.Liveness.Annotated
import Flwor.Proofs.Liveness.Effects
import Flwor.Proofs.Liveness.Lookups

/-
  Which annotations a step of the analysis of live bindings
  makes, whatever names it looks up.

  A step that ends leaves as many scopes open as before.  Its
  annotations count only if none of these is speculative:
  what a speculative walk makes is dropped.

  Key definitions include:
    * `AnalysisState.Adds`
    * `Analysis.Makes`
    * `Analysis.Marks`, `Analysis.MarksWith`

  Key theorems include:
    * `Analysis.Makes.bind`
    * `Analysis.Makes.within`
    * `Analysis.Makes.speculate`
    * `Analysis.Marks.append`
-/

------------------------------------------------------------
-- Open Scopes
------------------------------------------------------------

namespace Flwor

namespace ScopeStack

theorem map_speculative_resolveAll
    (names : List String)
    (stack : ScopeStack) :
    (resolveAll names stack).map Scope.speculative =
      stack.map Scope.speculative := by
  induction names generalizing stack with
  | nil => rfl
  | cons name rest ih =>
      rw [resolveAll_cons, ih, map_speculative_resolve]

/- Only which scopes are speculative matters. -/
theorem isCommitted_congr
    {stack other : ScopeStack}
    (hSame : stack.map Scope.speculative =
      other.map Scope.speculative) :
    stack.isCommitted = other.isCommitted := by
  have hAll (s : ScopeStack) :
      s.isCommitted =
        (s.map Scope.speculative).all Bool.not := by
    rw [isCommitted, List.all_map]
    rfl
  rw [hAll, hAll, hSame]

end ScopeStack

/-
  The same scopes are open, and notes are added if none of
  them is speculative.
-/
structure AnalysisState.Adds
    (s ending : AnalysisState)
    (notes : List Annotation) : Prop where
  scopes :
    ending.scopes.map Scope.speculative =
      s.scopes.map Scope.speculative
  annotations :
    ending.annotations =
      s.annotations
        ++ (if s.scopes.isCommitted then notes else [])

namespace AnalysisState

theorem adds_after
    (s : AnalysisState)
    (names : List String)
    (notes : List Annotation) :
    s.Adds (s.after names notes) notes where
  scopes :=
    ScopeStack.map_speculative_resolveAll names s.scopes
  annotations := rfl

theorem Adds.trans
    {s middle ending : AnalysisState}
    {notes others : List Annotation}
    (hFirst : s.Adds middle notes)
    (hSecond : middle.Adds ending others) :
    s.Adds ending (notes ++ others) where
  scopes := hSecond.scopes.trans hFirst.scopes
  annotations := by
    rw [hSecond.annotations, hFirst.annotations,
      ScopeStack.isCommitted_congr hFirst.scopes]
    cases s.scopes.isCommitted <;> simp

end AnalysisState

end Flwor

------------------------------------------------------------
-- Steps
------------------------------------------------------------

namespace Flwor

namespace Analysis

variable {α β : Type}
variable {Made Made' : List Annotation → Prop}

/- A step that ends, with annotations of some kind. -/
def Makes
    (step : Analysis α)
    (Made : List Annotation → Prop) : Prop :=
  ∀ s, ∃ x notes ending,
    Made notes ∧ s.Adds ending notes ∧ Ends step s x ending

theorem Makes.mono
    {step : Analysis α}
    (hMakes : Makes step Made)
    (hMade : ∀ notes, Made notes → Made' notes) :
    Makes step Made' := by
  intro s
  rcases hMakes s with
    ⟨x, notes, ending, hNotes, hAdds, hEnds⟩
  exact ⟨x, notes, ending, hMade notes hNotes, hAdds, hEnds⟩

/- What is looked up does not matter. -/
theorem Does.makes
    {step : Analysis Unit}
    {names : Set String}
    (hDoes : Does step names Made) :
    Makes step Made := by
  intro s
  rcases hDoes s with ⟨looked, notes, _, hNotes, hEnds⟩
  exact ⟨(), notes, _, hNotes, s.adds_after looked notes,
    hEnds⟩

/- Two steps, one after the other. -/
theorem Makes.bind
    {step : Analysis α}
    {next : α → Analysis β}
    (hStep : Makes step Made)
    (hNext : ∀ x, Makes (next x) Made') :
    Makes (step >>= next) (fun notes => ∃ first second,
      notes = first ++ second ∧ Made first ∧
        Made' second) := by
  intro s
  rcases hStep s with
    ⟨x, first, middle, hFirst, hAdds, hEnds⟩
  rcases hNext x middle with
    ⟨y, second, ending, hSecond, hMore, hEndsNext⟩
  exact ⟨y, first ++ second, ending,
    ⟨first, second, rfl, hFirst, hSecond⟩,
    hAdds.trans hMore, hEnds.bind hEndsNext⟩

/-
  What is done in a new scope ends with the scope on top; it
  is closed again.
-/
theorem Makes.ends_scoped
    {body : Analysis Unit}
    (hBody : Makes body Made)
    (scope : Scope)
    (rest : ScopeStack)
    (annotations : List Annotation) :
    ∃ closed notes ending,
      Made notes ∧
        ending.scopes.map Scope.speculative =
          rest.map Scope.speculative ∧
        ending.annotations =
          annotations
            ++ (if ScopeStack.isCommitted (scope :: rest)
                then notes else []) ∧
        Ends (body >>= fun _ => close)
          ⟨scope :: rest, annotations⟩ closed ending := by
  rcases hBody ⟨scope :: rest, annotations⟩ with
    ⟨_, notes, ⟨scopes, _⟩, hNotes, ⟨hScopes, rfl⟩, hEnds⟩
  cases scopes with
  | nil => cases hScopes
  | cons after outer =>
      rw [List.map_cons, List.map_cons] at hScopes
      exact ⟨_, notes, ⟨outer, _⟩, hNotes,
        (List.cons.inj hScopes).2, rfl, hEnds.bind rfl⟩

/- The names that a scope binds can be bound in two parts. -/
theorem within_append
    (names more : List String)
    (body : Analysis Unit) :
    Analysis.within (names ++ more) body =
      openScope false >>= fun _ =>
        names.forM bindName >>= fun _ =>
          more.forM bindName >>= fun _ =>
            body >>= fun _ => close := by
  have hBoth : (names ++ more).forM bindName =
      names.forM bindName >>= fun _ =>
        more.forM bindName :=
    List.forM_append
  rw [Analysis.within, hBoth, bind_assoc]

/- What is done inside of a scope that binds names. -/
theorem Makes.within
    {body : Analysis Unit}
    (hBody : Makes body Made)
    (bound : List String) :
    Makes (Analysis.within bound body) Made := by
  intro s
  let scope : Scope :=
    { Scope.empty false with
      locals := bound.map (fun name => ⟨name, false⟩) }
  rcases hBody.ends_scoped scope s.scopes s.annotations with
    ⟨closed, notes, ending, hNotes, hScopes, hAdded, hEnds⟩
  have hOpen : Ends (openScope false) s ()
      ⟨Scope.empty false :: s.scopes, s.annotations⟩ :=
    ends_modify _ s
  have hBind := ends_bindNames bound (Scope.empty false)
    s.scopes s.annotations
  rw [isCommitted_cons (show scope.speculative = false
    from rfl)] at hAdded
  exact ⟨closed, notes, ending, hNotes, ⟨hScopes, hAdded⟩,
    hOpen.bind (hBind.bind hEnds)⟩

/- What is walked speculatively is not annotated. -/
theorem Makes.speculate
    {body : Analysis Unit}
    (hBody : Makes body Made) :
    Makes (Analysis.speculate body)
      (fun notes => notes = []) := by
  intro s
  rcases hBody.ends_scoped (Scope.empty true) s.scopes
      s.annotations with
    ⟨closed, notes, ending, _, hScopes, hAdded, hEnds⟩
  have hOpen : Ends (openScope true) s ()
      ⟨Scope.empty true :: s.scopes, s.annotations⟩ :=
    ends_modify _ s
  have hSpeculative : ScopeStack.isCommitted
      (Scope.empty true :: s.scopes) = false := by
    simp [ScopeStack.isCommitted, Scope.empty]
  rw [hSpeculative] at hAdded
  refine ⟨closed.externals, [], ending, rfl,
    ⟨hScopes, ?_⟩, ?_⟩
  · simpa using hAdded
  · have hClosed : Ends
        (openScope true >>= fun _ => body >>= fun _ => close)
        s closed ending :=
      hOpen.bind hEnds
    have hAll : Ends
        ((openScope true >>= fun _ =>
          body >>= fun _ => close) >>= fun closed =>
            pure closed.externals)
        s closed.externals ending :=
      hClosed.bind (ends_pure _ ending)
    simpa only [Analysis.speculate, bind_assoc] using hAll

/- A speculative walk, and what is done with its names. -/
theorem Makes.speculate_bind
    {body : Analysis Unit}
    {next : List String → Analysis α}
    (hBody : Makes body Made)
    (hNext : ∀ names, Makes (next names) Made') :
    Makes (Analysis.speculate body >>= next) Made' := by
  refine (hBody.speculate.bind hNext).mono ?_
  rintro _ ⟨_, notes, rfl, rfl, hNotes⟩
  exact hNotes

end Analysis

end Flwor

------------------------------------------------------------
-- Marked Stages
------------------------------------------------------------

namespace Flwor

/- Every annotation is noted. -/
def Notes.Agrees
    (notes : Notes)
    (annotations : List Annotation) : Prop :=
  ∀ a ∈ annotations, notes a.stage = some a.names

namespace Analysis

/-
  Annotations of some nodes, one for each live stage.  Which
  stages are live depends on the notes themselves.
-/
structure Marks
    (ids : List NodeId)
    (live : Notes → List NodeId)
    (annotations : List Annotation) : Prop where
  inside :
    ∀ id, (annotations.map Annotation.stage).count id ≤
      ids.count id
  stages :
    ∀ notes : Notes, notes.Agrees annotations →
      (annotations.map Annotation.stage).Perm (live notes)

/- The annotations include those of a step that came later. -/
def MarksWith
    (ids : List NodeId)
    (live : Notes → List NodeId)
    (Later : List Annotation → Prop)
    (annotations : List Annotation) : Prop :=
  ∃ own later, annotations.Perm (own ++ later) ∧
    Later later ∧ Marks ids live own

variable {α β : Type}
variable {ids others : List NodeId}
variable {live live' : Notes → List NodeId}
variable {annotations further : List Annotation}
variable {Later : List Annotation → Prop}

namespace Marks

theorem nil
    (ids : List NodeId) :
    Marks ids (fun _ => []) [] where
  inside := by simp
  stages := by simp

theorem single
    (a : Annotation) :
    Marks [a.stage] (fun _ => [a.stage]) [a] where
  inside := by simp
  stages := by simp

theorem mono
    (hMarks : Marks ids live annotations)
    (hIds : ∀ id, ids.count id ≤ others.count id)
    (hLive : ∀ notes : Notes, notes.Agrees annotations →
      (live notes).Perm (live' notes)) :
    Marks others live' annotations where
  inside := fun id => (hMarks.inside id).trans (hIds id)
  stages := fun notes hAgrees =>
    (hMarks.stages notes hAgrees).trans
      (hLive notes hAgrees)

theorem append
    (hMarks : Marks ids live annotations)
    (hFurther : Marks others live' further) :
    Marks (ids ++ others)
      (fun notes => live notes ++ live' notes)
      (annotations ++ further) where
  inside := by
    intro id
    rw [List.map_append, List.count_append,
      List.count_append]
    exact Nat.add_le_add (hMarks.inside id)
      (hFurther.inside id)
  stages := by
    intro notes hAgrees
    rw [Notes.Agrees, List.forall_mem_append] at hAgrees
    rw [List.map_append]
    exact (hMarks.stages notes hAgrees.1).append
      (hFurther.stages notes hAgrees.2)

theorem perm
    (hMarks : Marks ids live annotations)
    (hPerm : further.Perm annotations) :
    Marks ids live further where
  inside := by
    intro id
    rw [(hPerm.map Annotation.stage).count_eq]
    exact hMarks.inside id
  stages := by
    intro notes hAgrees
    exact (hPerm.map Annotation.stage).trans
      (hMarks.stages notes
        (fun a hA => hAgrees a (hPerm.mem_iff.mpr hA)))

end Marks

/- Nothing is noted. -/
theorem Makes.marks_nil
    {step : Analysis α}
    (hMakes : Makes step (fun notes => notes = []))
    (ids : List NodeId) :
    Makes step (Marks ids (fun _ => [])) := by
  refine hMakes.mono ?_
  rintro _ rfl
  exact .nil ids

theorem makes_nothing
    (ids : List NodeId) :
    Makes (pure ()) (Marks ids (fun _ => [])) :=
  does_nothing.makes.marks_nil ids

theorem makes_resolveAll
    (names : List String)
    (ids : List NodeId) :
    Makes (resolveAll names) (Marks ids (fun _ => [])) :=
  (does_resolveAll names).makes.marks_nil ids

theorem makes_annotate
    (stage : NodeId)
    (names : List String) :
    Makes (annotate stage names)
      (fun notes => notes = [⟨stage, names⟩]) :=
  (does_annotate stage names).makes

/- Two steps, each with stages of its own. -/
theorem Makes.seq
    {step : Analysis α}
    {next : Analysis β}
    (hStep : Makes step (Marks ids live))
    (hNext : Makes next (Marks others live')) :
    Makes (step >>= fun _ => next)
      (Marks (ids ++ others)
        (fun notes => live notes ++ live' notes)) := by
  refine (hStep.bind (fun _ => hNext)).mono ?_
  rintro _ ⟨first, second, rfl, hFirst, hSecond⟩
  exact hFirst.append hSecond

/- A step in front of one that ends with what comes later. -/
theorem Makes.before
    {step : Analysis α}
    {next : Analysis β}
    (hStep : Makes step (Marks ids live))
    (hNext : Makes next (MarksWith others live' Later)) :
    Makes (step >>= fun _ => next)
      (MarksWith (ids ++ others)
        (fun notes => live notes ++ live' notes) Later) := by
  refine (hStep.bind (fun _ => hNext)).mono ?_
  rintro _ ⟨first, _, rfl, hFirst, own, later, hPerm,
    hLater, hOwn⟩
  refine ⟨first ++ own, later, ?_, hLater,
    hFirst.append hOwn⟩
  rw [List.append_assoc]
  exact hPerm.append_left first

/- What comes later, in a scope, and what is noted of it. -/
theorem Makes.within_marked
    {body : Analysis Unit}
    {next : ClosedScope → Analysis α}
    (bound : List String)
    (hBody : Makes body Later)
    (hNext : ∀ closed, Makes (next closed) (Marks ids live)) :
    Makes (Analysis.within bound body >>= next)
      (MarksWith ids live Later) := by
  refine ((hBody.within bound).bind hNext).mono ?_
  rintro _ ⟨later, own, rfl, hLater, hOwn⟩
  exact ⟨own, later, List.perm_append_comm, hLater, hOwn⟩

theorem MarksWith.mono
    (hMarks : MarksWith ids live Later annotations)
    (hIds : ∀ id, ids.count id ≤ others.count id)
    (hLive : ∀ notes,
      (live notes).Perm (live' notes)) :
    MarksWith others live' Later annotations := by
  rcases hMarks with ⟨own, later, hPerm, hLater, hOwn⟩
  exact ⟨own, later, hPerm, hLater,
    hOwn.mono hIds (fun notes _ => hLive notes)⟩

end Analysis

end Flwor
