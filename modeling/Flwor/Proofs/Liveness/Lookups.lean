import Mathlib.Data.List.Basic
import Flwor.Liveness.Scopes

/-
  Looking a name up in a stack of scopes is lexical look-up.

  A ledger tells what happened to each open scope: what it
  binds, at which binding each look-up ended that ended in
  the scope, and which look-ups crossed it.  It writes every
  look-up down in all scopes that it gets to, whereas a stack
  stops where the name has crossed before.  The stack shows
  what the ledger tells, because the scopes around a scope
  gain no binding while it is open.

  Key definitions include:
    * `ScopeCall`
    * `ScopeStack.answer`
    * `Frame`
    * `Ledger.lookUp`
    * `Ledger.Told`

  Key theorems include:
    * `Frame.scope_lookedUp`
    * `Ledger.Told.resolve`
    * `ScopeStack.lookups_lexical`
-/

------------------------------------------------------------
-- Calls
------------------------------------------------------------

namespace Flwor

/- What can be done to a stack of scopes. -/
inductive ScopeCall where
  | openScope (speculative : Bool)
  | bind (name : String)
  | resolve (name : String)
  | close
deriving DecidableEq, Repr

namespace ScopeStack

/-
  The answer to a call, which for closing is what the scope
  knew, and the scopes after it.
-/
def answer
    (stack : ScopeStack) :
    ScopeCall →
      Except Failure (Option ClosedScope) × ScopeStack
  | .openScope speculative =>
      (.ok none, stack.openScope speculative)
  | .bind name =>
      match stack.bind name with
      | .ok after => (.ok none, after)
      | .error e => (.error e, stack)
  | .resolve name => (.ok none, resolve name stack)
  | .close =>
      match stack.close with
      | .ok (closed, after) => (.ok (some closed), after)
      | .error e => (.error e, stack)

/- The scopes after some calls, of which some may fail. -/
def ofCalls
    (calls : List ScopeCall) : ScopeStack :=
  calls.foldl (fun stack call => (answer stack call).2) []

/-
  A count of the speculative scopes: one more when one is
  opened, one less when one is closed.
-/
def recount
    (stack : ScopeStack)
    (count : Nat) : ScopeCall → Nat
  | .openScope speculative =>
      if speculative then count + 1 else count
  | .close =>
      if (stack.head?.map Scope.speculative).getD false then
        count - 1
      else count
  | _ => count

/- The count after some calls. -/
def countOfCalls
    (calls : List ScopeCall) : Nat :=
  (calls.foldl
    (fun (stack, count) call =>
      ((answer stack call).2, recount stack count call))
    ([], 0)).2

end ScopeStack

end Flwor

------------------------------------------------------------
-- Ledgers
------------------------------------------------------------

namespace Flwor

/-
  The history of an open scope: its bindings, the places of
  those at which look-ups ended, and the names of the
  look-ups that crossed it.  Every look-up is noted, in the
  order in which they were made.
-/
structure Frame where
  speculative : Bool
  bindings : List String
  endings : List Nat
  crossings : List String
deriving DecidableEq, Repr

namespace Frame

/- The place of the latest binding of a name. -/
def latest
    (frame : Frame)
    (name : String) : Nat :=
  frame.bindings.length - 1
    - frame.bindings.reverse.idxOf name

/- Whether a look-up goes on to the scope around. -/
def passes
    (frame : Frame)
    (name : String) : Bool :=
  !frame.speculative && !frame.bindings.contains name

/-
  Note a look-up: it ends at the latest binding of the name,
  or crosses the scope.
-/
def lookedUp
    (frame : Frame)
    (name : String) : Frame :=
  if name ∈ frame.bindings then
    { frame with
      endings := frame.endings ++ [frame.latest name] }
  else
    { frame with crossings := frame.crossings ++ [name] }

/- The bindings at which look-ups ended, in binding order. -/
def used
    (frame : Frame) : List String :=
  (frame.bindings.zipIdx.filter
    (fun p => p.2 ∈ frame.endings)).map Prod.fst

/- What a scope with this history knows. -/
def scope
    (frame : Frame) : Scope where
  speculative := frame.speculative
  locals := frame.bindings.zipIdx.map
    (fun p => ⟨p.1, p.2 ∈ frame.endings⟩)
  externals := frame.crossings.eraseDups

end Frame

/- The histories of the open scopes, innermost first. -/
abbrev Ledger :=
  List Frame

namespace Ledger

/-
  Note a look-up in each scope that it gets to: those inside
  neither bind the name nor are speculative.
-/
def lookUp
    (name : String)
    (ledger : Ledger) : Ledger :=
  ledger.mapIdx (fun depth frame =>
    if (ledger.take depth).all (fun f => f.passes name) then
      frame.lookedUp name
    else frame)

/- Note a call. -/
def note : Ledger → ScopeCall → Ledger
  | ledger, .openScope speculative =>
      ⟨speculative, [], [], []⟩ :: ledger
  | frame :: rest, .bind name =>
      { frame with bindings := frame.bindings ++ [name] }
        :: rest
  | ledger, .resolve name => ledger.lookUp name
  | _ :: rest, .close => rest
  | [], _ => []

/- The ledger of some calls. -/
def ofCalls
    (calls : List ScopeCall) : Ledger :=
  calls.foldl note []

end Ledger

end Flwor

------------------------------------------------------------
-- One Scope
------------------------------------------------------------

namespace Flwor

namespace Scope

/- The first binding of a name is marked, and no other. -/
theorem markFirst_eq_modify
    (name : String)
    (locals : List Local) :
    markFirst name locals =
      locals.modify ((locals.map Local.name).idxOf name)
        (fun l => { l with isRead := true }) := by
  induction locals with
  | nil => rfl
  | cons l rest ih =>
      rw [markFirst, List.map_cons, List.idxOf_cons]
      by_cases hName : l.name = name
      · simp [hName]
      · rw [if_neg hName, ih, beq_false_of_ne hName,
          cond_false, List.modify_succ_cons]

end Scope

namespace Frame

variable {frame : Frame}
variable {name : String}

theorem idxOf_lt
    (hBound : name ∈ frame.bindings) :
    frame.bindings.reverse.idxOf name <
      frame.bindings.length := by
  rw [← List.length_reverse]
  exact List.idxOf_lt_length_of_mem
    (List.mem_reverse.mpr hBound)

/- A bound name is bound at its latest place. -/
theorem getElem?_latest
    (hBound : name ∈ frame.bindings) :
    frame.bindings[frame.latest name]? = some name := by
  have hLt := idxOf_lt hBound
  rw [latest, ← List.getElem?_reverse hLt]
  exact List.getElem?_idxOf (List.mem_reverse.mpr hBound)

/- After its latest place a name is not bound. -/
theorem getElem?_ne_of_latest_lt
    {place : Nat}
    (hLater : frame.latest name < place) :
    frame.bindings[place]? ≠ some name := by
  intro hPlace
  have hLt : place < frame.bindings.length :=
    (List.getElem?_eq_some_iff.mp hPlace).1
  have hBefore : frame.bindings.length - 1 - place <
      frame.bindings.reverse.idxOf name := by
    rw [latest] at hLater
    omega
  have hMirrored :
      frame.bindings.reverse[
        frame.bindings.length - 1 - place]? = some name := by
    rw [List.getElem?_reverse (by omega), ← hPlace]
    congr 1
    omega
  rcases List.getElem?_eq_some_iff.mp hMirrored with
    ⟨hIndex, hEq⟩
  have hFirst := List.not_of_lt_findIdx hBefore
  simp [hEq] at hFirst

theorem length_locals :
    frame.scope.locals.length = frame.bindings.length := by
  simp [scope]

theorem getElem?_locals
    (place : Nat) :
    frame.scope.locals[place]? =
      frame.bindings[place]?.map
        (fun n => ⟨n, place ∈ frame.endings⟩) := by
  simp [scope, List.getElem?_zipIdx, Option.map_map,
    Function.comp_def]

theorem map_name_locals :
    frame.scope.locals.map Local.name = frame.bindings := by
  refine List.ext_getElem? (fun place => ?_)
  rw [List.getElem?_map, getElem?_locals, Option.map_map]
  exact congrFun Option.map_id _

theorem binds_scope :
    frame.scope.binds name = frame.bindings.contains name := by
  rw [Scope.binds, Bool.eq_iff_iff, List.any_eq_true,
    List.contains_iff_mem]
  constructor
  · rintro ⟨l, hMem, hName⟩
    rw [← map_name_locals, ← eq_of_beq hName]
    exact List.mem_map_of_mem hMem
  · intro hMem
    rw [← map_name_locals] at hMem
    rcases List.mem_map.mp hMem with ⟨l, hL, rfl⟩
    exact ⟨l, hL, beq_self_eq_true _⟩

theorem contains_externals :
    frame.scope.externals.contains name =
      frame.crossings.contains name := by
  rw [Bool.eq_iff_iff, List.contains_iff_mem,
    List.contains_iff_mem, scope, List.mem_eraseDups]

/- The bindings that were read are those of the ledger. -/
theorem used_scope :
    (frame.scope.locals.filter Local.isRead).map Local.name =
      frame.used := by
  rw [scope, used, List.filter_map, List.map_map]
  rfl

/- A further binding is unread. -/
theorem locals_bind
    (hUnread : frame.bindings.length ∉ frame.endings)
    (name : String) :
    frame.scope.locals ++ [⟨name, false⟩] =
      (scope { frame with
        bindings := frame.bindings ++ [name] }).locals := by
  simp [scope, List.zipIdx_append, hUnread]

/- A scope marks the binding at which the look-up ends. -/
theorem scope_lookedUp
    (hBound : name ∈ frame.bindings) :
    (frame.lookedUp name).scope =
      frame.scope.markLatest name := by
  have hLt := idxOf_lt hBound
  have hLocals : (frame.lookedUp name).scope.locals =
      (frame.scope.markLatest name).locals := by
    rw [lookedUp, if_pos hBound]
    refine List.ext_getElem? (fun place => ?_)
    rw [getElem?_locals, Scope.markLatest,
      Scope.markFirst_eq_modify, List.map_reverse,
      map_name_locals]
    by_cases hPlace : place < frame.bindings.length
    · rw [List.getElem?_reverse
          (by simpa [length_locals] using hPlace),
        List.getElem?_modify, List.length_modify,
        List.length_reverse, length_locals,
        List.getElem?_reverse (by rw [length_locals]; omega),
        length_locals,
        show frame.bindings.length - 1
          - (frame.bindings.length - 1 - place) = place by
            omega,
        getElem?_locals]
      have hSame :
          frame.bindings.reverse.idxOf name =
            frame.bindings.length - 1 - place ↔
          place = frame.latest name := by
        rw [latest]
        omega
      by_cases hLatest : place = frame.latest name
      · simp only [if_pos (hSame.mpr hLatest)]
        simp [hLatest, Function.comp_def]
      · simp only [if_neg (fun h => hLatest (hSame.mp h))]
        simp [hLatest]
    · rw [List.getElem?_eq_none (Nat.not_lt.mp hPlace),
        List.getElem?_eq_none (by
          simpa [length_locals] using hPlace)]
      rfl
  rw [Scope.markLatest] at hLocals ⊢
  rw [lookedUp, if_pos hBound] at hLocals ⊢
  simpa [scope] using hLocals

/- A name that crosses again is not collected again. -/
theorem scope_lookedUp_of_crossed
    (hFree : name ∉ frame.bindings)
    (hCrossed : name ∈ frame.crossings) :
    (frame.lookedUp name).scope = frame.scope := by
  rw [lookedUp, if_neg hFree, scope, scope,
    List.eraseDups_append]
  simp [List.removeAll, hCrossed]

theorem scope_lookedUp_of_new
    (hFree : name ∉ frame.bindings)
    (hNew : name ∉ frame.crossings) :
    (frame.lookedUp name).scope =
      { frame.scope with
        externals := frame.scope.externals ++ [name] } := by
  rw [lookedUp, if_neg hFree, scope, scope,
    List.eraseDups_append]
  simp [List.removeAll, hNew, List.eraseDups_cons]

/- Where a look-up ended before, another changes nothing. -/
theorem scope_lookedUp_of_ended
    (hBound : name ∈ frame.bindings)
    (hEnded : frame.latest name ∈ frame.endings) :
    (frame.lookedUp name).scope = frame.scope := by
  have hSame (place : Nat) :
      place ∈ frame.endings ++ [frame.latest name] ↔
        place ∈ frame.endings := by
    rw [List.mem_append, List.mem_singleton]
    exact or_iff_left_of_imp (fun h => h ▸ hEnded)
  rw [lookedUp, if_pos hBound]
  simp only [scope, hSame]

end Frame

end Flwor

------------------------------------------------------------
-- Ledgers That Have Told
------------------------------------------------------------

namespace Flwor

namespace Ledger

variable {ledger rest : Ledger}
variable {frame : Frame}
variable {name other : String}

/- A look-up is noted from the innermost scope on. -/
theorem lookUp_cons
    (name : String)
    (frame : Frame)
    (rest : Ledger) :
    lookUp name (frame :: rest) =
      frame.lookedUp name ::
        (if frame.passes name then lookUp name rest
         else rest) := by
  rw [lookUp, List.mapIdx_cons]
  refine congrArg₂ _ (by simp) ?_
  cases hPasses : frame.passes name with
  | true =>
      rw [if_pos rfl, lookUp]
      simp [hPasses]
  | false =>
      rw [if_neg Bool.false_ne_true]
      simp only [List.take_succ_cons, List.all_cons, hPasses,
        Bool.false_and, if_neg Bool.false_ne_true]
      exact List.mapIdx_eq_iff.mpr (fun _ => by simp)

/-
  A look-up of the name has been noted wherever it would get
  to.
-/
def Knows
    (name : String) : Ledger → Prop
  | [] => True
  | frame :: rest =>
      (name ∈ frame.bindings →
          frame.latest name ∈ frame.endings) ∧
        (name ∉ frame.bindings → name ∈ frame.crossings) ∧
          (frame.passes name = true → Knows name rest)

/-
  What crossed a scope that is not speculative is known to
  the scopes around it, and look-ups ended at bindings.
-/
def Told : Ledger → Prop
  | [] => True
  | frame :: rest =>
      (∀ place ∈ frame.endings,
          place < frame.bindings.length) ∧
        (frame.speculative = false →
          ∀ name ∈ frame.crossings, Knows name rest) ∧
        Told rest

@[simp] theorem bindings_lookedUp :
    (frame.lookedUp name).bindings = frame.bindings := by
  unfold Frame.lookedUp
  split <;> rfl

@[simp] theorem speculative_lookedUp :
    (frame.lookedUp name).speculative =
      frame.speculative := by
  unfold Frame.lookedUp
  split <;> rfl

@[simp] theorem latest_lookedUp :
    (frame.lookedUp name).latest other =
      frame.latest other := by
  rw [Frame.latest, Frame.latest, bindings_lookedUp]

@[simp] theorem passes_lookedUp :
    (frame.lookedUp name).passes other =
      frame.passes other := by
  rw [Frame.passes, Frame.passes, bindings_lookedUp,
    speculative_lookedUp]

theorem endings_subset_lookedUp :
    frame.endings ⊆ (frame.lookedUp name).endings := by
  unfold Frame.lookedUp
  split
  · exact List.subset_append_left _ _
  · exact List.Subset.refl _

theorem crossings_subset_lookedUp :
    frame.crossings ⊆ (frame.lookedUp name).crossings := by
  unfold Frame.lookedUp
  split
  · exact List.Subset.refl _
  · exact List.subset_append_left _ _

/- A look-up ends at a binding. -/
theorem places_lookedUp
    (hPlaces : ∀ place ∈ frame.endings,
      place < frame.bindings.length) :
    ∀ place ∈ (frame.lookedUp name).endings,
      place < frame.bindings.length := by
  unfold Frame.lookedUp
  split
  · next hBound =>
      rw [List.forall_mem_append]
      refine ⟨hPlaces, List.forall_mem_singleton.mpr ?_⟩
      exact (List.getElem?_eq_some_iff.mp
        (Frame.getElem?_latest hBound)).1
  · exact hPlaces

/- Nothing new is shown if a known name is looked up. -/
theorem Knows.map_scope_lookUp
    (hKnows : Knows name ledger) :
    (ledger.lookUp name).map Frame.scope =
      ledger.map Frame.scope := by
  induction ledger with
  | nil => rfl
  | cons frame rest ih =>
      rcases hKnows with ⟨hEnded, hCrossed, hRest⟩
      have hFrame :
          (frame.lookedUp name).scope = frame.scope := by
        by_cases hBound : name ∈ frame.bindings
        · exact Frame.scope_lookedUp_of_ended hBound
            (hEnded hBound)
        · exact Frame.scope_lookedUp_of_crossed hBound
            (hCrossed hBound)
      rw [lookUp_cons, List.map_cons, List.map_cons, hFrame]
      split
      · next hPasses => rw [ih (hRest hPasses)]
      · rfl

/- A name that was looked up is known. -/
theorem knows_lookUp
    (name : String)
    (ledger : Ledger) :
    Knows name (ledger.lookUp name) := by
  induction ledger with
  | nil => trivial
  | cons frame rest ih =>
      rw [lookUp_cons]
      refine ⟨fun hBound => ?_, fun hFree => ?_, ?_⟩
      · rw [bindings_lookedUp] at hBound
        rw [latest_lookedUp, Frame.lookedUp, if_pos hBound]
        exact List.mem_append_right _ List.mem_cons_self
      · rw [bindings_lookedUp] at hFree
        rw [Frame.lookedUp, if_neg hFree]
        exact List.mem_append_right _ List.mem_cons_self
      · intro hPasses
        rw [passes_lookedUp] at hPasses
        rw [if_pos hPasses]
        exact ih

/- A known name stays known when others are looked up. -/
theorem Knows.lookUp
    (hKnows : Knows other ledger)
    (name : String) :
    Knows other (ledger.lookUp name) := by
  induction ledger with
  | nil => trivial
  | cons frame rest ih =>
      rcases hKnows with ⟨hEnded, hCrossed, hRest⟩
      rw [lookUp_cons]
      refine ⟨fun hBound => ?_, fun hFree => ?_, ?_⟩
      · rw [bindings_lookedUp] at hBound
        rw [latest_lookedUp]
        exact endings_subset_lookedUp (hEnded hBound)
      · rw [bindings_lookedUp] at hFree
        exact crossings_subset_lookedUp (hCrossed hFree)
      · intro hPasses
        rw [passes_lookedUp] at hPasses
        split
        · exact ih (hRest hPasses)
        · exact hRest hPasses

/-
  Looking up in a stack shows what is noted in the ledger.
  Where the stack stops early, the scopes around know the
  name already.
-/
theorem Told.resolve
    (hTold : Told ledger)
    (name : String) :
    ScopeStack.resolve name (ledger.map Frame.scope) =
      (ledger.lookUp name).map Frame.scope := by
  induction ledger with
  | nil => rfl
  | cons frame rest ih =>
      rcases hTold with ⟨_, hCrossings, hRest⟩
      rw [List.map_cons, ScopeStack.resolve,
        Frame.binds_scope, Frame.contains_externals,
        lookUp_cons, List.map_cons]
      by_cases hBound : name ∈ frame.bindings
      · have hStops : frame.passes name = false := by
          simp [Frame.passes, hBound]
        rw [if_pos (List.contains_iff_mem.mpr hBound), hStops,
          if_neg Bool.false_ne_true,
          Frame.scope_lookedUp hBound]
      rw [if_neg (fun h =>
        hBound (List.contains_iff_mem.mp h))]
      have hPasses :
          frame.passes name = !frame.speculative := by
        simp [Frame.passes, hBound]
      by_cases hCrossed : name ∈ frame.crossings
      · rw [if_pos (List.contains_iff_mem.mpr hCrossed),
          Frame.scope_lookedUp_of_crossed hBound hCrossed]
        split
        · next hGoesOn =>
            rw [hPasses, Bool.not_eq_true'] at hGoesOn
            rw [(hCrossings hGoesOn name
              hCrossed).map_scope_lookUp]
        · rfl
      · rw [if_neg (fun h =>
            hCrossed (List.contains_iff_mem.mp h)),
          Frame.scope_lookedUp_of_new hBound hCrossed, hPasses]
        dsimp only
        cases hSpeculative : frame.speculative with
        | true =>
            rw [if_pos (by exact hSpeculative)]
            rfl
        | false =>
            rw [if_neg (by
              rw [Frame.scope, hSpeculative]
              exact Bool.false_ne_true), ih hRest]
            rfl

/- Looking up keeps the scopes around informed. -/
theorem Told.lookUp
    (hTold : Told ledger)
    (name : String) :
    Told (ledger.lookUp name) := by
  induction ledger with
  | nil => trivial
  | cons frame rest ih =>
      rcases hTold with ⟨hPlaces, hCrossings, hRest⟩
      rw [lookUp_cons]
      refine ⟨?_, fun hCommitted crossed hMem => ?_, ?_⟩
      · rw [bindings_lookedUp]
        exact places_lookedUp hPlaces
      · rw [speculative_lookedUp] at hCommitted
        by_cases hOld : crossed ∈ frame.crossings
        · have hKnown := hCrossings hCommitted crossed hOld
          split
          · exact hKnown.lookUp name
          · exact hKnown
        · by_cases hBound : name ∈ frame.bindings
          · rw [Frame.lookedUp, if_pos hBound] at hMem
            exact (hOld hMem).elim
          · rw [Frame.lookedUp, if_neg hBound] at hMem
            rcases List.mem_append.mp hMem with hMem | hMem
            · exact (hOld hMem).elim
            · cases List.mem_singleton.mp hMem
              rw [if_pos (by
                simp [Frame.passes, hCommitted, hBound])]
              exact knows_lookUp name rest
      · split
        · exact ih hRest
        · exact hRest

/- So does every call, as it binds in the innermost scope. -/
theorem Told.note
    (hTold : Told ledger)
    (call : ScopeCall) :
    Told (ledger.note call) := by
  cases call with
  | openScope speculative =>
      exact ⟨List.forall_mem_nil _,
        fun _ => List.forall_mem_nil _, hTold⟩
  | bind name =>
      cases ledger with
      | nil => trivial
      | cons frame rest =>
          refine ⟨fun place hMem => ?_, hTold.2⟩
          rw [List.length_append]
          exact Nat.lt_add_right _ (hTold.1 place hMem)
  | resolve name =>
      cases ledger <;> exact hTold.lookUp name
  | close =>
      cases ledger with
      | nil => trivial
      | cons frame rest => exact hTold.2.2

/- A call does to the stack what is noted in the ledger. -/
theorem Told.snd_answer
    (hTold : Told ledger)
    (call : ScopeCall) :
    (ScopeStack.answer (ledger.map Frame.scope) call).2 =
      (ledger.note call).map Frame.scope := by
  cases call with
  | openScope speculative => cases ledger <;> rfl
  | bind name =>
      cases ledger with
      | nil => rfl
      | cons frame rest =>
          have hUnread :
              frame.bindings.length ∉ frame.endings :=
            fun hMem => Nat.lt_irrefl _ (hTold.1 _ hMem)
          have hLocals := Frame.locals_bind hUnread name
          exact congrArg (· :: rest.map Frame.scope)
            (congrArg (fun locals =>
              { frame.scope with locals := locals }) hLocals)
  | resolve name =>
      cases ledger <;> exact hTold.resolve name
  | close => cases ledger <;> rfl

/- And so do many calls, one after the other. -/
theorem Told.foldl
    (hTold : Told ledger)
    (calls : List ScopeCall) :
    calls.foldl
        (fun stack call => (ScopeStack.answer stack call).2)
        (ledger.map Frame.scope) =
      (calls.foldl Ledger.note ledger).map Frame.scope := by
  induction calls generalizing ledger with
  | nil => rfl
  | cons call rest ih =>
      rw [List.foldl_cons, List.foldl_cons,
        hTold.snd_answer, ih (hTold.note call)]

end Ledger

end Flwor

------------------------------------------------------------
-- Stacks After Calls
------------------------------------------------------------

namespace Flwor

namespace ScopeStack

/- Looking up changes no scope into a speculative one. -/
theorem map_speculative_resolve
    (name : String)
    (stack : ScopeStack) :
    (resolve name stack).map Scope.speculative =
      stack.map Scope.speculative := by
  induction stack with
  | nil => rfl
  | cons scope rest ih =>
      rw [resolve]
      split
      · rfl
      split
      · rfl
      dsimp only
      split
      · rfl
      · rw [List.map_cons, List.map_cons, ih]

/- The number of speculative scopes. -/
def speculations
    (stack : ScopeStack) : Nat :=
  (stack.map Scope.speculative).count true

theorem isCommitted_iff
    {stack : ScopeStack} :
    stack.isCommitted = true ↔ stack.speculations = 0 := by
  rw [speculations, List.count_eq_zero, isCommitted,
    List.all_eq_true, List.mem_map]
  simp

/- One call keeps the count of the speculative scopes. -/
theorem recount_speculations
    (stack : ScopeStack)
    (call : ScopeCall) :
    stack.recount stack.speculations call =
      speculations (stack.answer call).2 := by
  cases call with
  | openScope speculative =>
      cases speculative <;>
        simp [recount, answer, openScope, speculations,
          Scope.empty]
  | bind name =>
      cases stack <;> rfl
  | resolve name =>
      exact congrArg (List.count true)
        (map_speculative_resolve name stack).symm
  | close =>
      cases stack with
      | nil => rfl
      | cons scope rest =>
          cases hScope : scope.speculative <;>
            simp [recount, answer, close, speculations,
              hScope]

/- So do many calls, one after the other. -/
theorem countOfCalls_eq
    (calls : List ScopeCall) :
    countOfCalls calls = (ofCalls calls).speculations := by
  have hRun (stack : ScopeStack) :
      calls.foldl (fun (stack, count) call =>
          ((answer stack call).2, recount stack count call))
        (stack, stack.speculations) =
      (calls.foldl (fun stack call => (answer stack call).2)
          stack,
        speculations (calls.foldl
          (fun stack call => (answer stack call).2)
            stack)) := by
    induction calls generalizing stack with
    | nil => rfl
    | cons call rest ih =>
        rw [List.foldl_cons, List.foldl_cons]
        dsimp only
        rw [recount_speculations, ih]
  exact congrArg Prod.snd (hRun [])

/-
  Whatever is called, the scopes show what the ledger of the
  calls tells: a look-up marks the latest binding of the name
  in the innermost scope that binds it, unless a speculative
  scope lies inside, it is collected once in each scope that
  it crosses up to the first speculative one, and nothing
  else is marked or collected.  A closed scope tells its
  marked bindings in binding order and what crossed it in the
  order of the first look-ups.  No annotation is held back
  exactly if no open scope is speculative, which a count
  decides as well, and a call that fails changes nothing.
-/
theorem lookups_lexical
    (calls : List ScopeCall) :
    ofCalls calls =
        (Ledger.ofCalls calls).map Frame.scope ∧
      (∀ frame rest, Ledger.ofCalls calls = frame :: rest →
        answer (ofCalls calls) .close =
          (.ok (some
            ⟨frame.used, frame.crossings.eraseDups⟩),
            rest.map Frame.scope)) ∧
      ((ofCalls calls).isCommitted = true ↔
        ∀ frame ∈ Ledger.ofCalls calls,
          frame.speculative = false) ∧
      ((ofCalls calls).isCommitted = true ↔
        countOfCalls calls = 0) ∧
      ∀ call,
        ((∃ e, (answer (ofCalls calls) call).1 = .error e) ↔
          Ledger.ofCalls calls = [] ∧
            (call = .close ∨ ∃ name, call = .bind name)) ∧
        ∀ e, (answer (ofCalls calls) call).1 = .error e →
          (answer (ofCalls calls) call).2 =
            ofCalls calls := by
  have hShown : ofCalls calls =
      (Ledger.ofCalls calls).map Frame.scope := by
    have hNone : Ledger.Told [] := trivial
    exact hNone.foldl calls
  refine ⟨hShown, fun frame rest hLedger => ?_, ?_, ?_,
    fun call => ?_⟩
  · rw [hShown, hLedger, ← Frame.used_scope]
    rfl
  · rw [hShown, isCommitted, List.all_eq_true,
      List.forall_mem_map]
    simp [Frame.scope]
  · rw [isCommitted_iff, countOfCalls_eq]
  · have hEmpty :
        ofCalls calls = [] ↔ Ledger.ofCalls calls = [] := by
      rw [hShown, List.map_eq_nil_iff]
    rw [← hEmpty]
    cases call <;> cases ofCalls calls <;>
      simp [answer, ScopeStack.bind, ScopeStack.close]

end ScopeStack

end Flwor
