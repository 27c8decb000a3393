import Mathlib.Data.Set.Basic
import Flwor.Liveness.Analysis

/-
  What a step of the analysis of live bindings does to its
  state: it looks up names, and it makes annotations unless a
  speculative scope is open.

  Which names are looked up is stated as a set.  A scope
  passes on those that it does not bind, a speculative scope
  passes on none.

  Key definitions include:
    * `AnalysisState.after`
    * `Analysis.Ends`
    * `Analysis.Does`

  Key theorems include:
    * `Analysis.Does.seq`
    * `Analysis.Does.within`
    * `Analysis.Does.speculate`
-/

------------------------------------------------------------
-- Stacks
------------------------------------------------------------

namespace Flwor

namespace ScopeStack

/- Look several names up, one after the other. -/
def resolveAll
    (names : List String)
    (stack : ScopeStack) : ScopeStack :=
  names.foldl (fun s name => resolve name s) stack

@[simp] theorem resolveAll_nil
    (stack : ScopeStack) :
    resolveAll [] stack = stack :=
  rfl

@[simp] theorem resolveAll_cons
    (name : String)
    (names : List String)
    (stack : ScopeStack) :
    resolveAll (name :: names) stack =
      resolveAll names (resolve name stack) :=
  rfl

theorem resolveAll_append
    (names more : List String)
    (stack : ScopeStack) :
    resolveAll (names ++ more) stack =
      resolveAll more (resolveAll names stack) :=
  List.foldl_append ..

theorem isCommitted_resolve
    (name : String)
    (stack : ScopeStack) :
    isCommitted (resolve name stack) = isCommitted stack := by
  induction stack with
  | nil => rfl
  | cons scope rest ih =>
      unfold resolve
      split
      · rfl
      · split
        · rfl
        · dsimp only
          split
          · rfl
          · simp only [isCommitted, List.all_cons] at ih ⊢
            rw [ih]

theorem isCommitted_resolveAll
    (names : List String)
    (stack : ScopeStack) :
    isCommitted (resolveAll names stack) =
      isCommitted stack := by
  induction names generalizing stack with
  | nil => rfl
  | cons name rest ih =>
      rw [resolveAll_cons, ih, isCommitted_resolve]

/-
  What a scope, that is not speculative, has learned: its
  bindings that were read, and the names it passed on.
-/
structure Passed
    (scope after : Scope)
    (names passed : List String) : Prop where
  speculative : after.speculative = scope.speculative
  bound :
    after.locals.map Local.name =
      scope.locals.map Local.name
  externals : after.externals = scope.externals ++ passed
  mem_passed :
    ∀ name, name ∈ passed ↔
      name ∈ names ∧ name ∉ scope.locals.map Local.name ∧
        name ∉ scope.externals
  mem_used :
    ∀ name, name ∈ (after.locals.filter
        Local.isRead).map Local.name ↔
      name ∈ (scope.locals.filter
          Local.isRead).map Local.name ∨
        name ∈ names ∧ name ∈ scope.locals.map Local.name

theorem map_name_markFirst
    (name : String)
    (locals : List Local) :
    (Scope.markFirst name locals).map Local.name =
      locals.map Local.name := by
  induction locals with
  | nil => rfl
  | cons l rest ih =>
      rw [Scope.markFirst]
      split
      · rfl
      · rw [List.map_cons, List.map_cons, ih]

/- A bound name that is looked up counts as read. -/
theorem mem_used_markFirst
    (name other : String)
    (locals : List Local) :
    other ∈ ((Scope.markFirst name locals).filter
        Local.isRead).map Local.name ↔
      other ∈ (locals.filter Local.isRead).map Local.name ∨
        other = name ∧ name ∈ locals.map Local.name := by
  induction locals with
  | nil => simp [Scope.markFirst]
  | cons l rest ih =>
      rw [Scope.markFirst]
      by_cases hName : l.name = name
      · rw [if_pos hName]
        cases hRead : l.isRead with
        | true =>
            simp only [List.filter_cons, hRead, if_true,
              List.map_cons, List.mem_cons, hName]
            constructor
            · exact .inl
            · rintro (h | ⟨h, _⟩)
              · exact h
              · exact .inl h
        | false =>
            simp only [List.filter_cons, hRead, if_true,
              Bool.false_eq_true, if_false, List.map_cons,
              List.mem_cons, hName, true_or, and_true]
            exact or_comm
      · rw [if_neg hName]
        cases hRead : l.isRead with
        | true =>
            simp only [List.filter_cons, hRead, if_true,
              List.map_cons, List.mem_cons, ih,
              Ne.symm hName, false_or]
            exact or_assoc.symm
        | false =>
            simp only [List.filter_cons, hRead,
              Bool.false_eq_true, if_false, List.map_cons,
              List.mem_cons, ih, Ne.symm hName, false_or]

/- Looking names up through a scope that is committed. -/
theorem exists_passed
    (names : List String)
    {scope : Scope}
    (hCommitted : scope.speculative = false)
    (rest : ScopeStack) :
    ∃ after passed,
      resolveAll names (scope :: rest) =
          after :: resolveAll passed rest ∧
        Passed scope after names passed := by
  induction names generalizing scope rest with
  | nil =>
      exact ⟨scope, [], rfl, rfl, rfl, by simp, by simp,
        by simp⟩
  | cons name more ih =>
      rw [resolveAll_cons, resolve]
      by_cases hBound : scope.binds name = true
      · rw [if_pos hBound]
        have hMem : name ∈ scope.locals.map Local.name := by
          simpa [Scope.binds] using hBound
        have hMarked :
            (scope.markLatest name).speculative = false :=
          hCommitted
        rcases ih hMarked rest with
          ⟨after, passed, hRun, hPassed⟩
        have hNames :
            (scope.markLatest name).locals.map Local.name =
              scope.locals.map Local.name := by
          rw [Scope.markLatest, List.map_reverse,
            map_name_markFirst, ← List.map_reverse,
            List.reverse_reverse]
        refine ⟨after, passed, hRun,
          hPassed.speculative, ?_, hPassed.externals, ?_, ?_⟩
        · rw [hPassed.bound, hNames]
        · intro other
          rw [hPassed.mem_passed, hNames]
          constructor
          · rintro ⟨hOther, hRest⟩
            exact ⟨by simp [hOther], hRest⟩
          · rintro ⟨hOther, hNot, hRest⟩
            refine ⟨?_, hNot, hRest⟩
            rcases List.mem_cons.mp hOther with rfl | hOther
            · exact (hNot hMem).elim
            · exact hOther
        · intro other
          rw [hPassed.mem_used, hNames, Scope.markLatest]
          dsimp only
          rw [List.filter_reverse, List.map_reverse,
            List.mem_reverse, mem_used_markFirst,
            List.filter_reverse, List.map_reverse,
            List.mem_reverse, List.map_reverse,
            List.mem_reverse, List.mem_cons]
          constructor
          · rintro ((h | ⟨rfl, h⟩) | ⟨h, hOther⟩)
            · exact .inl h
            · exact .inr ⟨.inl rfl, h⟩
            · exact .inr ⟨.inr h, hOther⟩
          · rintro (h | ⟨rfl | h, hOther⟩)
            · exact .inl (.inl h)
            · exact .inl (.inr ⟨rfl, hOther⟩)
            · exact .inr ⟨h, hOther⟩
      · rw [if_neg hBound]
        have hNot : name ∉ scope.locals.map Local.name := by
          simpa [Scope.binds] using hBound
        by_cases hCrossed :
            scope.externals.contains name = true
        · rw [if_pos hCrossed]
          have hMem : name ∈ scope.externals := by
            simpa using hCrossed
          rcases ih hCommitted rest with
            ⟨after, passed, hRun, hPassed⟩
          refine ⟨after, passed, hRun, hPassed.speculative,
            hPassed.bound, hPassed.externals, ?_, ?_⟩
          · intro other
            rw [hPassed.mem_passed, List.mem_cons]
            constructor
            · rintro ⟨h, hRest⟩
              exact ⟨.inr h, hRest⟩
            · rintro ⟨rfl | h, hOther, hNew⟩
              · exact (hNew hMem).elim
              · exact ⟨h, hOther, hNew⟩
          · intro other
            rw [hPassed.mem_used, List.mem_cons]
            constructor
            · rintro (h | ⟨h, hOther⟩)
              · exact .inl h
              · exact .inr ⟨.inr h, hOther⟩
            · rintro (h | ⟨rfl | h, hOther⟩)
              · exact .inl h
              · exact (hNot hOther).elim
              · exact .inr ⟨h, hOther⟩
        · rw [if_neg hCrossed]
          have hNew : name ∉ scope.externals := by
            simpa using hCrossed
          dsimp only
          rw [if_neg (by simp [hCommitted])]
          let crossed : Scope :=
            { scope with
              externals := scope.externals ++ [name] }
          have hCrossed : crossed.speculative = false :=
            hCommitted
          rcases ih hCrossed (resolve name rest) with
            ⟨after, passed, hRun, hPassed⟩
          refine ⟨after, name :: passed, hRun,
            hPassed.speculative, hPassed.bound, ?_, ?_, ?_⟩
          · rw [hPassed.externals]
            simp [crossed]
          · intro other
            rw [List.mem_cons, hPassed.mem_passed,
              List.mem_cons]
            by_cases hOther : other = name
            · simp [hOther, hNot, hNew]
            · simp [hOther, crossed]
          · intro other
            rw [hPassed.mem_used, List.mem_cons]
            by_cases hOther : other = name
            · simp [hOther, hNot, crossed]
            · simp [hOther, crossed]

/- Looking names up in a speculative scope. -/
theorem exists_collected
    (names : List String)
    {scope : Scope}
    (hSpeculative : scope.speculative = true)
    (hUnbound : scope.locals = [])
    (rest : ScopeStack) :
    ∃ after,
      resolveAll names (scope :: rest) = after :: rest ∧
        ∀ name, name ∈ after.externals ↔
          name ∈ scope.externals ∨ name ∈ names := by
  induction names generalizing scope with
  | nil => exact ⟨scope, rfl, by simp⟩
  | cons name more ih =>
      have hBinds : scope.binds name = false := by
        simp [Scope.binds, hUnbound]
      rw [resolveAll_cons, resolve, hBinds,
        if_neg (by simp)]
      by_cases hCrossed :
          scope.externals.contains name = true
      · rw [if_pos hCrossed]
        have hMem : name ∈ scope.externals := by
          simpa using hCrossed
        rcases ih hSpeculative hUnbound with
          ⟨after, hRun, hExternals⟩
        refine ⟨after, hRun, fun other => ?_⟩
        rw [hExternals, List.mem_cons]
        by_cases hOther : other = name
        · simp [hOther, hMem]
        · simp [hOther]
      · rw [if_neg hCrossed]
        dsimp only
        rw [if_pos hSpeculative]
        let crossed : Scope :=
          { scope with
            externals := scope.externals ++ [name] }
        have hCrossed : crossed.speculative = true :=
          hSpeculative
        have hLocals : crossed.locals = [] := hUnbound
        rcases ih hCrossed hLocals with
          ⟨after, hRun, hExternals⟩
        refine ⟨after, hRun, fun other => ?_⟩
        rw [hExternals]
        simp only [crossed, List.mem_append, List.mem_cons,
          List.not_mem_nil, or_false]
        exact or_assoc

end ScopeStack

end Flwor

------------------------------------------------------------
-- Steps
------------------------------------------------------------

namespace Flwor

/- The state after names are looked up and notes are made. -/
def AnalysisState.after
    (s : AnalysisState)
    (names : List String)
    (notes : List Annotation) : AnalysisState where
  scopes := ScopeStack.resolveAll names s.scopes
  annotations :=
    s.annotations
      ++ (if s.scopes.isCommitted then notes else [])

namespace AnalysisState

@[simp] theorem after_nil
    (s : AnalysisState) :
    s.after [] [] = s := by
  simp [after]

theorem after_after
    (s : AnalysisState)
    (names more : List String)
    (notes others : List Annotation) :
    (s.after names notes).after more others =
      s.after (names ++ more) (notes ++ others) := by
  simp only [after, ScopeStack.resolveAll_append,
    ScopeStack.isCommitted_resolveAll,
    AnalysisState.mk.injEq, true_and]
  cases s.scopes.isCommitted <;> simp

end AnalysisState

namespace Analysis

variable {α β : Type}

/- A step ends in a state with an answer. -/
def Ends
    (step : Analysis α)
    (s : AnalysisState)
    (answer : α)
    (ending : AnalysisState) : Prop :=
  StateT.run (ExceptT.run step) s = (.ok answer, ending)

theorem ends_pure
    (x : α)
    (s : AnalysisState) :
    Ends (pure x) s x s :=
  rfl

theorem Ends.bind
    {step : Analysis α}
    {next : α → Analysis β}
    {s middle ending : AnalysisState}
    {x : α}
    {y : β}
    (hStep : Ends step s x middle)
    (hNext : Ends (next x) middle y ending) :
    Ends (step >>= next) s y ending := by
  unfold Ends at *
  simp only [ExceptT.run_bind, StateT.run_bind, hStep]
  exact hNext

theorem ends_modify
    (f : AnalysisState → AnalysisState)
    (s : AnalysisState) :
    Ends (modify f) s PUnit.unit (f s) :=
  rfl

/-
  A step that looks up a set of names, whatever is open, and
  makes notes of some kind.
-/
def Does
    (step : Analysis Unit)
    (names : Set String)
    (Noted : List Annotation → Prop) : Prop :=
  ∀ s, ∃ looked notes,
    (∀ name, name ∈ looked ↔ name ∈ names) ∧ Noted notes ∧
      Ends step s () (s.after looked notes)

theorem Does.mono
    {step : Analysis Unit}
    {names others : Set String}
    {Noted Noted' : List Annotation → Prop}
    (hDoes : Does step names Noted)
    (hNames : ∀ name, name ∈ names ↔ name ∈ others)
    (hNoted : ∀ notes, Noted notes → Noted' notes) :
    Does step others Noted' := by
  intro s
  rcases hDoes s with ⟨looked, notes, hLooked, hNotes, hEnds⟩
  exact ⟨looked, notes,
    fun name => (hLooked name).trans (hNames name),
    hNoted notes hNotes, hEnds⟩

/- Nothing is done. -/
theorem does_nothing :
    Does (pure ()) ∅ (fun notes => notes = []) := by
  intro s
  refine ⟨[], [], by simp, rfl, ?_⟩
  rw [AnalysisState.after_nil]
  exact ends_pure () s

theorem ends_resolve
    (name : String)
    (s : AnalysisState) :
    Ends (resolve name) s () (s.after [name] []) := by
  have hAfter : s.after [name] [] =
      { s with
        scopes := ScopeStack.resolve name s.scopes } := by
    simp [AnalysisState.after]
  rw [hAfter]
  exact ends_modify _ s

theorem does_resolve
    (name : String) :
    Does (resolve name) {n | n = name}
      (fun notes => notes = []) :=
  fun s => ⟨[name], [], by simp, rfl, ends_resolve name s⟩

/- Two steps, one after the other. -/
theorem Does.seq
    {step next : Analysis Unit}
    {names others : Set String}
    {Noted Noted' : List Annotation → Prop}
    (hStep : Does step names Noted)
    (hNext : Does next others Noted') :
    Does (step >>= fun _ => next)
      {n | n ∈ names ∨ n ∈ others}
      (fun notes => ∃ first second,
        notes = first ++ second ∧ Noted first ∧
          Noted' second) := by
  intro s
  rcases hStep s with ⟨looked, notes, hLooked, hNotes, hEnds⟩
  rcases hNext (s.after looked notes) with
    ⟨more, others, hMore, hOthers, hEndsNext⟩
  refine ⟨looked ++ more, notes ++ others, ?_,
    ⟨notes, others, rfl, hNotes, hOthers⟩, ?_⟩
  · intro name
    rw [List.mem_append, hLooked, hMore]
    rfl
  · rw [← AnalysisState.after_after]
    exact hEnds.bind hEndsNext

/- Looking up a list of names. -/
theorem does_resolveAll
    (names : List String) :
    Does (resolveAll names) {n | n ∈ names}
      (fun notes => notes = []) := by
  intro s
  refine ⟨names, [], fun _ => Iff.rfl, rfl, ?_⟩
  unfold resolveAll
  induction names generalizing s with
  | nil =>
      rw [AnalysisState.after_nil]
      exact ends_pure () s
  | cons name rest ih =>
      have hSplit : s.after (name :: rest) [] =
          (s.after [name] []).after rest [] := by
        rw [AnalysisState.after_after]
        rfl
      rw [hSplit]
      exact (ends_resolve name s).bind (ih _)

/- Scopes are opened on top and filled with bindings. -/
theorem ends_bindNames
    (names : List String)
    (scope : Scope)
    (rest : ScopeStack)
    (annotations : List Annotation) :
    Ends (names.forM bindName)
      ⟨scope :: rest, annotations⟩ ()
      ⟨{ scope with
          locals := scope.locals
            ++ names.map (fun name => ⟨name, false⟩) }
          :: rest, annotations⟩ := by
  induction names generalizing scope with
  | nil =>
      simp only [List.map_nil, List.append_nil]
      exact ends_pure () _
  | cons name more ih =>
      have hMore := ih { scope with
        locals := scope.locals ++ [⟨name, false⟩] }
      simp only [List.append_assoc, List.singleton_append]
        at hMore
      have hBind : Ends (bindName name)
          ⟨scope :: rest, annotations⟩ ()
          ⟨{ scope with
              locals := scope.locals ++ [⟨name, false⟩] }
              :: rest, annotations⟩ :=
        rfl
      exact hBind.bind hMore

/-
  What is done inside of a scope: what was looked up is
  known when the scope is closed, and what the scope does not
  bind was looked up outside as well.
-/
theorem Does.within
    {step : Analysis Unit}
    {names : Set String}
    {Noted : List Annotation → Prop}
    (hDoes : Does step names Noted)
    (bound : List String)
    (s : AnalysisState) :
    ∃ closed notes,
      (∀ name, name ∈ closed.demand ↔ name ∈ names) ∧
        (∀ name, name ∈ closed.externals ↔
          name ∈ names ∧ name ∉ bound) ∧
          Noted notes ∧
            Ends (Analysis.within bound step) s closed
              (s.after closed.externals notes) := by
  let scope : Scope :=
    { Scope.empty false with
      locals := bound.map (fun name => ⟨name, false⟩) }
  let inside : AnalysisState :=
    ⟨scope :: s.scopes, s.annotations⟩
  rcases hDoes inside with
    ⟨looked, notes, hLooked, hNotes, hEnds⟩
  rcases ScopeStack.exists_passed looked
      (show scope.speculative = false from rfl) s.scopes with
    ⟨after, passed, hRun, hPassed⟩
  have hNames : scope.locals.map Local.name = bound := by
    simp [scope, Function.comp_def]
  have hExternals : after.externals = passed := by
    rw [hPassed.externals]
    rfl
  have hUsed (name : String) :
      name ∈ (after.locals.filter
          Local.isRead).map Local.name ↔
        name ∈ names ∧ name ∈ bound := by
    rw [hPassed.mem_used, hNames, hLooked]
    simp [scope, List.filter_map, Function.comp_def]
  have hOutside (name : String) :
      name ∈ after.externals ↔
        name ∈ names ∧ name ∉ bound := by
    rw [hExternals, hPassed.mem_passed, hNames, hLooked]
    simp [scope, Scope.empty]
  refine ⟨⟨(after.locals.filter Local.isRead).map Local.name,
      after.externals⟩, notes, ?_, hOutside, hNotes, ?_⟩
  · intro name
    rw [ClosedScope.demand, List.mem_eraseDups,
      List.mem_append, hUsed, hOutside]
    by_cases hBound : name ∈ bound
    · simp [hBound]
    · simp [hBound]
  · have hOpen : Ends (openScope false) s ()
        ⟨Scope.empty false :: s.scopes, s.annotations⟩ :=
      ends_modify _ s
    have hBind := ends_bindNames bound (Scope.empty false)
      s.scopes s.annotations
    have hCommitted :
        inside.scopes.isCommitted = s.scopes.isCommitted := by
      simp [inside, scope, ScopeStack.isCommitted,
        Scope.empty]
    have hInside : inside.after looked notes =
        ⟨after :: ScopeStack.resolveAll after.externals
            s.scopes,
          s.annotations
            ++ (if s.scopes.isCommitted then notes
                else [])⟩ := by
      rw [AnalysisState.after, hCommitted, hExternals]
      simp only [inside, hRun]
    rw [hInside] at hEnds
    refine hOpen.bind (hBind.bind (hEnds.bind ?_))
    rfl

/- What a speculative walk would look up. -/
theorem Does.speculate
    {step : Analysis Unit}
    {names : Set String}
    {Noted : List Annotation → Prop}
    (hDoes : Does step names Noted)
    (s : AnalysisState) :
    ∃ outside,
      (∀ name, name ∈ outside ↔ name ∈ names) ∧
        Ends (Analysis.speculate step) s outside s := by
  let inside : AnalysisState :=
    ⟨Scope.empty true :: s.scopes, s.annotations⟩
  rcases hDoes inside with
    ⟨looked, notes, hLooked, _, hEnds⟩
  have hOpen : Ends (openScope true) s () inside :=
    ends_modify _ s
  rcases ScopeStack.exists_collected looked
      (show (Scope.empty true).speculative = true from rfl)
      rfl s.scopes with ⟨after, hRun, hExternals⟩
  have hInside : inside.after looked notes =
      ⟨after :: s.scopes, s.annotations⟩ := by
    have hCommitted :
        inside.scopes.isCommitted = false := by
      simp [inside, ScopeStack.isCommitted, Scope.empty]
    rw [AnalysisState.after, hCommitted]
    simp [inside, hRun]
  rw [hInside] at hEnds
  refine ⟨after.externals, fun name => ?_,
    hOpen.bind (hEnds.bind ?_)⟩
  · rw [hExternals, hLooked]
    simp [Scope.empty]
  · rfl

/- A note is made of a stage. -/
theorem does_annotate
    (stage : NodeId)
    (names : List String) :
    Does (annotate stage names) ∅
      (fun notes => notes = [⟨stage, names⟩]) := by
  intro s
  refine ⟨[], [⟨stage, names⟩], by simp, rfl, ?_⟩
  have hAfter : s.after [] [⟨stage, names⟩] =
      if s.scopes.isCommitted then
        { s with
          annotations := s.annotations
            ++ [⟨stage, names⟩] }
      else s := by
    unfold AnalysisState.after
    cases s.scopes.isCommitted <;> simp
  rw [hAfter]
  exact ends_modify _ s

/- A step inside of a scope, and what is done with it. -/
theorem Does.within_bind
    {step : Analysis Unit}
    {names more : Set String}
    {Noted Noted' : List Annotation → Prop}
    {next : ClosedScope → Analysis Unit}
    (bound : List String)
    (hDoes : Does step names Noted)
    (hNext : ∀ closed : ClosedScope,
      (∀ name, name ∈ closed.demand ↔ name ∈ names) →
      (∀ name, name ∈ closed.externals ↔
        name ∈ names ∧ name ∉ bound) →
      Does (next closed) more Noted') :
    Does (Analysis.within bound step >>= next)
      {n | n ∈ names ∧ n ∉ bound ∨ n ∈ more}
      (fun notes => ∃ first second,
        notes = first ++ second ∧ Noted first ∧
          Noted' second) := by
  intro s
  rcases hDoes.within bound s with
    ⟨closed, notes, hDemand, hExternals, hNotes, hEnds⟩
  rcases hNext closed hDemand hExternals
      (s.after closed.externals notes) with
    ⟨looked, others, hLooked, hOthers, hEndsNext⟩
  refine ⟨closed.externals ++ looked, notes ++ others, ?_,
    ⟨notes, others, rfl, hNotes, hOthers⟩, ?_⟩
  · intro name
    rw [List.mem_append, hExternals, hLooked]
    rfl
  · rw [← AnalysisState.after_after]
    exact hEnds.bind hEndsNext

/- A speculative walk, and what is done with its names. -/
theorem Does.speculate_bind
    {step : Analysis Unit}
    {names more : Set String}
    {Noted Noted' : List Annotation → Prop}
    {next : List String → Analysis Unit}
    (hDoes : Does step names Noted)
    (hNext : ∀ outside : List String,
      (∀ name, name ∈ outside ↔ name ∈ names) →
      Does (next outside) more Noted') :
    Does (Analysis.speculate step >>= next) more Noted' := by
  intro s
  rcases hDoes.speculate s with ⟨outside, hOutside, hEnds⟩
  rcases hNext outside hOutside s with
    ⟨looked, notes, hLooked, hNotes, hEndsNext⟩
  exact ⟨looked, notes, hLooked, hNotes,
    hEnds.bind hEndsNext⟩

end Analysis

end Flwor

------------------------------------------------------------
-- Steps Inside of a Scope
------------------------------------------------------------

namespace Flwor

namespace Analysis

/-
  A step that adds bindings to the innermost scope.  The
  names that it looks up and that are not yet bound cross
  the scope.
-/
def DoesInside
    (step : Analysis Unit)
    (bound added : List String)
    (names : Set String)
    (Noted : List Annotation → Prop) : Prop :=
  ∀ (scope : Scope) (rest : ScopeStack)
    (annotations : List Annotation),
    scope.speculative = false →
    scope.locals.map Local.name = bound →
      ∃ (after : Scope) (passed : List String)
        (notes : List Annotation),
        after.speculative = false ∧
          after.locals.map Local.name = bound ++ added ∧
          after.externals = scope.externals ++ passed ∧
          (∀ name, name ∈ passed ↔
            name ∈ names ∧ name ∉ scope.externals) ∧
          Noted notes ∧
          Ends step ⟨scope :: rest, annotations⟩ ()
            ⟨after :: ScopeStack.resolveAll passed rest,
              annotations
                ++ (if rest.isCommitted then notes
                    else [])⟩

theorem isCommitted_cons
    {scope : Scope}
    (hScope : scope.speculative = false)
    (rest : ScopeStack) :
    ScopeStack.isCommitted (scope :: rest) =
      rest.isCommitted := by
  simp [ScopeStack.isCommitted, hScope]

/- A step that leaves the bindings as they are. -/
theorem Does.inside
    {step : Analysis Unit}
    {names : Set String}
    {Noted : List Annotation → Prop}
    (hDoes : Does step names Noted)
    (bound : List String) :
    DoesInside step bound [] {n | n ∈ names ∧ n ∉ bound}
      Noted := by
  intro scope rest annotations hScope hBound
  rcases hDoes ⟨scope :: rest, annotations⟩ with
    ⟨looked, notes, hLooked, hNotes, hEnds⟩
  rcases ScopeStack.exists_passed looked hScope rest with
    ⟨after, passed, hRun, hPassed⟩
  refine ⟨after, passed, notes,
    hPassed.speculative.trans hScope, ?_,
    hPassed.externals, ?_, hNotes, ?_⟩
  · rw [hPassed.bound, hBound, List.append_nil]
  · intro name
    rw [hPassed.mem_passed, hLooked, hBound]
    exact and_assoc.symm
  · rw [AnalysisState.after, hRun,
      isCommitted_cons hScope] at hEnds
    exact hEnds

/- Names are bound. -/
theorem doesInside_bindNames
    (names bound : List String) :
    DoesInside (names.forM bindName) bound names ∅
      (fun notes => notes = []) := by
  intro scope rest annotations hScope hBound
  let after : Scope :=
    { scope with
      locals := scope.locals
        ++ names.map (fun name => ⟨name, false⟩) }
  have hEnds : Ends (names.forM bindName)
      ⟨scope :: rest, annotations⟩ ()
      ⟨after :: rest, annotations⟩ :=
    ends_bindNames names scope rest annotations
  refine ⟨after, [], [], hScope, ?_, ?_, by simp, rfl, ?_⟩
  · simp [after, hBound, Function.comp_def]
  · simp [after]
  · simpa using hEnds

/- Two steps inside of the same scope. -/
theorem DoesInside.seq
    {step next : Analysis Unit}
    {bound added middle more : List String}
    {names others : Set String}
    {Noted Noted' : List Annotation → Prop}
    (hStep : DoesInside step bound added names Noted)
    (hNext : DoesInside next middle more others Noted')
    (hMiddle : bound ++ added = middle) :
    DoesInside (step >>= fun _ => next) bound
      (added ++ more) {n | n ∈ names ∨ n ∈ others}
      (fun notes => ∃ first second,
        notes = first ++ second ∧ Noted first ∧
          Noted' second) := by
  intro scope rest annotations hScope hBound
  rcases hStep scope rest annotations hScope hBound with
    ⟨inner, passed, notes, hInner, hAdded, hExternals,
      hPassed, hNotes, hEnds⟩
  rcases hNext inner (ScopeStack.resolveAll passed rest)
      (annotations
        ++ (if rest.isCommitted then notes else []))
      hInner (hAdded.trans hMiddle) with
    ⟨after, passedNext, notesNext, hAfter, hMore,
      hExternalsNext, hPassedNext, hNotesNext, hEndsNext⟩
  refine ⟨after, passed ++ passedNext, notes ++ notesNext,
    hAfter, ?_, ?_, ?_,
    ⟨notes, notesNext, rfl, hNotes, hNotesNext⟩, ?_⟩
  · rw [hMore, ← hMiddle, List.append_assoc]
  · rw [hExternalsNext, hExternals, List.append_assoc]
  · intro name
    rw [List.mem_append, hPassed, hPassedNext, hExternals,
      List.mem_append, hPassed]
    by_cases hOld : name ∈ scope.externals
    · simp [hOld]
    · by_cases hNames : name ∈ names
      · simp [hOld, hNames]
      · simp [hOld, hNames]
  · rw [ScopeStack.isCommitted_resolveAll,
      ← ScopeStack.resolveAll_append,
      List.append_assoc] at hEndsNext
    have hBoth :
        (if rest.isCommitted then notes else [])
            ++ (if rest.isCommitted then notesNext else []) =
          if rest.isCommitted then notes ++ notesNext
          else [] := by
      cases rest.isCommitted <;> simp
    rw [hBoth] at hEndsNext
    exact hEnds.bind hEndsNext

theorem DoesInside.mono
    {step : Analysis Unit}
    {bound added : List String}
    {names others : Set String}
    {Noted Noted' : List Annotation → Prop}
    (hDoes : DoesInside step bound added names Noted)
    (hNames : ∀ name, name ∈ names ↔ name ∈ others)
    (hNoted : ∀ notes, Noted notes → Noted' notes) :
    DoesInside step bound added others Noted' := by
  intro scope rest annotations hScope hBound
  rcases hDoes scope rest annotations hScope hBound with
    ⟨after, passed, notes, hAfter, hAdded, hExternals,
      hPassed, hNotes, hEnds⟩
  exact ⟨after, passed, notes, hAfter, hAdded, hExternals,
    fun name => (hPassed name).trans
      (and_congr_left' (hNames name)),
    hNoted notes hNotes, hEnds⟩

/- A whole scope, from its opening to its end. -/
theorem DoesInside.scoped
    {step : Analysis Unit}
    {added : List String}
    {names : Set String}
    {Noted : List Annotation → Prop}
    (hDoes : DoesInside step [] added names Noted) :
    Does
      (openScope false >>= fun _ =>
        step >>= fun _ => close >>= fun _ => pure ())
      names Noted := by
  intro s
  rcases hDoes (Scope.empty false) s.scopes s.annotations
      rfl rfl with
    ⟨after, passed, notes, _, _, _, hPassed, hNotes, hEnds⟩
  refine ⟨passed, notes, ?_, hNotes, ?_⟩
  · intro name
    rw [hPassed]
    simp [Scope.empty]
  · have hOpen : Ends (openScope false) s ()
        ⟨Scope.empty false :: s.scopes, s.annotations⟩ :=
      ends_modify _ s
    refine hOpen.bind (hEnds.bind ?_)
    rfl

end Analysis

end Flwor
