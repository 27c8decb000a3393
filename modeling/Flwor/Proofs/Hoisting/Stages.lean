import Flwor.Proofs.Hoisting.Buried
import Flwor.Proofs.Joins.Enclosure
import Flwor.Proofs.Joins.Loops

/-
  A stage before and after an expression is hoisted out of
  the slot that it evaluates for each row.

  The expression is bound below the stage, once for each row
  that comes into it.  As the stage evaluates its slot on
  just these rows, it fails on the same inputs as before, and
  otherwise hands on the same rows.

  Key definitions include:
    * `Tree.Slotted`
    * `Tree.hoisted`

  Key theorems include:
    * `Tree.exists_slotted`
    * `Tree.Slotted.replaces_hoisted`
-/

------------------------------------------------------------
-- Stages with a Slot
------------------------------------------------------------

namespace Flwor

namespace Tree

variable (library : Library)

/-
  A stage as a step from the rows that feed it, in scope if
  and only if its input and its slot are.
-/
structure Slotted
    (stage : Tree → Tree)
    (new : List String)
    (e : Tree)
    (grow : Env → Sequence → Option (List Env)) : Prop
    extends Step library stage new e grow where
  reads : ∀ {context handed input},
    Supplies library False context handed (stage input) →
      ∃ read, Supplies library False context read input ∧
        ReadsFrom library False read e ∧
          ∀ name ∈ handed, name ∉ new → name ∈ read

variable {library : Library}
variable {i : NodeId}
variable {k : Kind}
variable {p : Payload}
variable {ps : Properties}
variable {input slot e : Tree}
variable {mid : List Tree}

section

variable (input input' : Tree)
variable (hSlot : slot.kind ≠ .posVariable)
variable (hE : e.kind ≠ .posVariable)

/- What a stage binds does not stand in its slot. -/
theorem binding?_slot
    {c : Tree}
    {rest : List Tree}
    (hMid : mid = c :: rest) :
    binding? (.node i k p ps (input' :: (mid ++ [e]))) =
      binding? (.node i k p ps (input :: (mid ++ [slot])))
        := by
  subst hMid
  cases k <;> rfl

include hSlot hE

theorem position?_slot :
    position? (.node i k p ps (input' :: (mid ++ [e]))) =
      position? (.node i k p ps (input :: (mid ++ [slot])))
        := by
  rcases mid with _ | ⟨c, _ | ⟨d, rest⟩⟩
  · simp [position?]
  · simp [position?, Option.filter, hSlot, hE]
  · simp [position?]

theorem bound_slot
    {c : Tree}
    {rest : List Tree}
    (hKind : k = .letBind ∨ k = .forBind)
    (hMid : mid = c :: rest) :
    bound (.node i k p ps (input' :: (mid ++ [e]))) =
      bound (.node i k p ps (input :: (mid ++ [slot]))) := by
  have hBinding :
      binding? (.node i k p ps (input' :: (mid ++ [e]))) =
        binding? (.node i k p ps (input :: (mid ++ [slot]))) :=
    binding?_slot input input' hMid
  have hPosition :
      position? (.node i k p ps (input' :: (mid ++ [e]))) =
        position?
          (.node i k p ps (input :: (mid ++ [slot]))) :=
    position?_slot input input' hSlot hE
  rcases hKind with rfl | rfl <;>
    simp only [bound, kind_node, hBinding, hPosition]

end

/- What a loop or a `let` binds has a name. -/
theorem Shaped.exists_binding
    {cs : List Tree}
    (hShaped : (Tree.node i k p ps cs).Shaped)
    (hKind : k = .letBind ∨ k = .forBind) :
    ∃ name, binding? (.node i k p ps cs) = some name := by
  rcases hShaped.variable (by tauto) with ⟨c, hC, hVariable⟩
  have hChild := hShaped.child (List.mem_of_getElem? hC)
  rcases hChild.self with ⟨place, hRule⟩
  rw [brokenRule?, hVariable] at hRule
  rw [ShapeRule.brokenUnless_eq_none] at hRule
  rcases Option.isSome_iff_exists.mp hRule with ⟨name, hName⟩
  have hVar : childVar? (.node i k p ps cs) 1 = some name := by
    rw [childVar?, children_node, hC]
    exact hName
  rcases hKind with rfl | rfl
  · exact ⟨name, hVar⟩
  · exact ⟨name, hVar⟩

theorem slotted_selection
    (e : Tree) :
    Slotted library
      (fun t => .node i .selection p ps [t, e]) [] e
      (fun row s => s.truth?.map (fun holds =>
        if holds then [row] else [])) where
  toStep := @step_selection library i p ps e [e] e rfl
  reads hSupplies := by
    cases hSupplies with
    | selection hInput hPredicate hReads hHanded =>
        cases hPredicate
        exact ⟨_, hInput, hReads,
          fun name hName _ => hHanded hName⟩

theorem slotted_letBind
    {rest : List Tree}
    {var : String}
    (hLive : Compile.isLive ps var)
    (hUnchecked : ps.get? Properties.check = none)
    (hValue : rest[1]? = some e)
    (hVar : binding? (.node i .letBind p ps (input :: rest)) =
      some var) :
    Slotted library
      (fun t => .node i .letBind p ps (t :: rest))
      (bound (.node i .letBind p ps (input :: rest))) e
      (fun row s => some [row.bind var s]) where
  toStep := step_letBind hUnchecked hLive hValue hVar
  reads hSupplies := by
    cases hSupplies with
    | letBind hInput hVar' _ hValue' hReads _ hHanded =>
        cases hValue.symm.trans hValue'
        cases hVar.symm.trans hVar'
        refine ⟨_, hInput, hReads,
          fun name hName hNew => hHanded name hName ?_⟩
        rintro rfl
        exact hNew (by simp [bound, hVar])
    | deadLet _ _ _ hLenient _ _ => exact hLenient.elim

theorem slotted_forBind
    {rest : List Tree}
    {var : String}
    (hUnchecked : ps.get? Properties.check = none)
    (hLast : rest.getLast? = some e)
    (hVar : binding? (.node i .forBind p ps (input :: rest)) =
      some var) :
    Slotted library
      (fun t => .node i .forBind p ps (t :: rest))
      (bound (.node i .forBind p ps (input :: rest))) e
      (fun row s => some (row.bindItems var
        (position? (.node i .forBind p ps (input :: rest)))
        s)) where
  toStep := step_forBind hUnchecked hLast hVar
  reads hSupplies := by
    cases hSupplies with
    | forBind hInput hSource hReads _ _ hHanded =>
        rw [List.getLast?_cons, hLast] at hSource
        cases hSource
        exact ⟨_, hInput, hReads, hHanded⟩

/-
  A selection, a `let` or a loop without a check is a stage
  with a slot, whatever expression stands there.
-/
theorem exists_slotted
    (hShaped : (Tree.node i k p ps
      (input :: (mid ++ [slot]))).Shaped)
    (hLacks : (Tree.node i k p ps
      (input :: (mid ++ [slot]))).Lacks Properties.project)
    (hUnchecked : ps.get? Properties.check = none)
    (hKind : k = .selection ∨ k = .letBind ∨ k = .forBind)
    (hSlot : slot.kind ≠ .posVariable) :
    ∃ new grow, ∀ e : Tree, e.kind ≠ .posVariable →
      Slotted library
        (fun t => .node i k p ps (t :: (mid ++ [e])))
        new e grow := by
  rcases hShaped.self with ⟨place, hRule⟩
  rcases hKind with rfl | hKind
  · simp only [brokenRule?, kind_node, children_node,
      Option.orElse_eq_orElse, Option.orElse_eq_or,
      Option.or_eq_none_iff, ShapeRule.countIn_eq_none,
      List.length_cons, List.length_append, List.mem_singleton]
      at hRule
    have hMid : mid = [] :=
      List.eq_nil_of_length_eq_zero (by simpa using hRule.1)
    subst hMid
    exact ⟨_, _, fun e _ => slotted_selection e⟩
  rcases hShaped.exists_binding hKind with ⟨var, hVar⟩
  rcases hKind with rfl | rfl <;>
    simp only [brokenRule?, kind_node, children_node,
      Option.orElse_eq_orElse, Option.orElse_eq_or,
      Option.or_eq_none_iff, ShapeRule.countIn_eq_none,
      List.length_cons, List.length_append, List.mem_cons,
      List.not_mem_nil, or_false] at hRule
  · obtain ⟨v, rfl⟩ := List.length_eq_one_iff.mp
      (by simpa using hRule.1 : mid.length = 1)
    refine ⟨bound
        (.node i .letBind p ps (input :: ([v] ++ [slot]))),
      fun row s => some [row.bind var s], fun e hE => ?_⟩
    rw [← bound_slot input input hSlot hE (.inl rfl) rfl]
    refine slotted_letBind (hLacks.isLive var) hUnchecked rfl ?_
    exact (binding?_slot input input rfl).trans hVar
  · obtain ⟨c, rest, rfl⟩ := List.exists_cons_of_length_pos
      (by simp at hRule; omega : 0 < mid.length)
    refine ⟨bound (.node i .forBind p ps
        (input :: (c :: rest ++ [slot]))),
      fun row s => some (row.bindItems var (position?
        (.node i .forBind p ps
          (input :: (c :: rest ++ [slot])))) s),
      fun e hE => ?_⟩
    rw [← bound_slot input input hSlot hE (.inr rfl) rfl,
      ← position?_slot input input hSlot hE]
    refine slotted_forBind hUnchecked List.getLast?_concat ?_
    exact (binding?_slot input input rfl).trans hVar

end Tree

end Flwor

------------------------------------------------------------
-- Hoisted Expressions
------------------------------------------------------------

namespace Flwor

namespace Tree

variable {library : Library}
variable {name : String}
variable {b d j : NodeId}
variable {feeder x : Tree}

/- Each row is extended by the value of an expression. -/
theorem rows_letBinder
    (env : Env) :
    (binder .letBind b d [] name feeder x).rows library env =
      (feeder.rows library env).bind (fun rows =>
        rows.mapM (fun row =>
          (x.value library row).map (row.bind name))) := by
  have hUnchecked (row : Env) :
      row.disabled? [] = some false := rfl
  rw [binder, rows, headRows]
  simp only [binding?, childVar?, kind_node, children_node,
    List.getElem?_cons_succ, List.getElem?_cons_zero,
    Option.bind_some, var?, payload, Payload.var?,
    hUnchecked, valueAt_eq, Option.bind_eq_bind,
    Option.pure_def, Bool.false_eq_true, if_false,
    Option.map_eq_bind]
  rfl

/-
  What is made of the rows above the binding is made of those
  below it.
-/
theorem flatten_rows_letBinder
    {α : Type}
    (g : Env → Option (List α))
    (env : Env) :
    ((binder .letBind b d [] name feeder x).rows library
        env).bind (fun rows =>
          (rows.mapM g).map List.flatten) =
      (feeder.rows library env).bind (fun rows =>
        (rows.mapM (fun row => (x.value library row).bind
          (fun s => g (row.bind name s)))).map
            List.flatten) := by
  rw [rows_letBinder, Option.bind_assoc]
  apply congrArg
  funext rows
  have hBoth := mapM_option_bind (fun row =>
    (x.value library row).map (row.bind name)) g rows
  simp only [Option.bind_map] at hBoth
  exact ((congrArg (Option.map List.flatten) hBoth).trans
    (Option.map_bind ..)).symm

variable {stage stage' : Tree → Tree}
variable {new : List String}
variable {e e' : Tree}
variable {grow : Env → Sequence → Option (List Env)}
variable {names context handed : Set String}

/-
  A stage makes the same of two rows that agree on what is
  handed on.
-/
theorem Step.meets_grow
    {lax : Leeway}
    (hStep : Step library stage new e grow)
    {row row' : Env}
    (hAgree : ∀ n ∈ handed, n ∉ new → row' n = row n)
    (s : Sequence) :
    Meets lax (List.Forall₂ (Env.AgreeOn handed))
      (grow row' s) (grow row s) := by
  cases hGrow : grow row' s with
  | none =>
      cases hPlain : grow row s with
      | none => exact .failure
      | some more =>
          have hUnder := hStep.under hPlain row' []
          rw [Env.under_nil, hGrow] at hUnder
          cases hUnder
  | some more =>
      have hUnder := hStep.under hGrow row []
      rw [Env.under_nil] at hUnder
      rw [hUnder]
      refine .value ?_
      rw [List.forall₂_map_right_iff, List.forall₂_same]
      intro other hOther n hN
      by_cases hNew : n ∈ new
      · simp [Env.under, hNew]
      · have hKept := hStep.kept hGrow other hOther n hNew
        simp [Env.under, hNew, hKept, hAgree n hN hNew]

/- The rows of a stage before and after. -/
theorem Slotted.meets_hoisted
    (hStep : Slotted library stage new e grow)
    (hStep' : Slotted library stage' new e' grow)
    (hHoists : Hoists name x (reference j name) e e')
    (hReads : ReadsFrom library False names e)
    (hName : name ∉ handed)
    (env : Env) :
    Meets False (List.Forall₂ (Env.AgreeOn handed))
      ((stage' (binder .letBind b d [] name feeder x)).rows
        library env)
      ((stage feeder).rows library env) := by
  rw [hStep'.rows, hStep.rows, flatten_rows_letBinder]
  refine (Meets.refl _).bind ?_
  rintro rows _ rfl
  refine Meets.map (R := List.Forall₂
    (List.Forall₂ (Env.AgreeOn handed)))
    (Meets.mapM (R := Eq) (List.forall₂_same.mpr
      (fun _ _ => rfl)) ?_)
    (fun _ _ hRows => List.rel_flatten hRows)
  rintro row _ rfl
  rw [← hHoists.value_eq hReads row, Option.bind_assoc]
  refine (Meets.refl _).bind ?_
  rintro v _ rfl
  refine (Meets.refl _).bind ?_
  rintro s _ rfl
  refine hStep.meets_grow (fun n hN _ => ?_) s
  have hNe : n ≠ name := fun hEq => hName (hEq ▸ hN)
  rw [Env.bind_apply, if_neg hNe]

variable (library) in
/- The binding is a stage with a slot itself. -/
theorem slotted_letBinder
    (b d : NodeId)
    (name : String)
    (x : Tree) :
    Slotted library
      (fun t => binder .letBind b d [] name t x) [name] x
      (fun row s => some [row.bind name s]) :=
  @slotted_letBind library b .none [] x x
    [.node d .variable (.var name) [] [], x] name rfl rfl rfl
    rfl

/- What a stage binds comes in scope with what feeds it. -/
theorem Slotted.supplies_bound
    {bind : Tree → Tree}
    {value : Tree}
    {read : Set String}
    (hBind : Slotted library bind [name] value grow)
    (hFeeder : Supplies library False context read feeder)
    (hReads : ReadsFrom library False read value) :
    Supplies library False context (read ∪ {name})
      (bind feeder) := by
  refine hBind.supplies hFeeder hReads ?_
  rintro n (hN | hN) hNew
  · exact hN
  · exact (hNew (List.mem_singleton.mpr hN)).elim

/- With the binding below, the new variable is in scope. -/
theorem Hoists.supplies
    {read : Set String}
    (hHoists : Hoists name x (reference j name) e e')
    (hFeeder : Supplies library False context read feeder)
    (hReads : ReadsFrom library False read e)
    (b d : NodeId) :
    Supplies library False context (read ∪ {n | n = name})
        (binder .letBind b d [] name feeder x) ∧
      ReadsFrom library False (read ∪ {n | n = name}) e' :=
  ⟨(slotted_letBinder library b d name x).supplies_bound
    hFeeder (hHoists.reads_buried hReads),
    hHoists.reads hReads
      (Set.sdiff_subset.trans Set.subset_union_left)
      (.variableRef rfl (.inr rfl))⟩

/- Without the binding it is not needed. -/
theorem Hoists.supplied
    {read : Set String}
    (hHoists : Hoists name x (reference j name) e e')
    (hBound : Supplies library False context read
      (binder .letBind b d [] name feeder x))
    (hReads : ReadsFrom library False read e') :
    ∃ read', Supplies library False context read' feeder ∧
      ReadsFrom library False read' e ∧
        ∀ n ∈ read, n ≠ name → n ∈ read' := by
  rcases (slotted_letBinder library b d name x).reads hBound
    with ⟨read', hFeeder, hBuried, hMore⟩
  have hKept (n : String) (hN : n ∈ read) (hNe : n ≠ name) :
      n ∈ read' :=
    hMore n hN (by simpa using hNe)
  exact ⟨read', hFeeder, hHoists.symm.reads hReads
    (fun n hN => hKept n hN.1 hN.2) hBuried, hKept⟩

/- The stage after can replace the one before. -/
theorem Slotted.replaces_hoisted
    (hStep : Slotted library stage new e grow)
    (hStep' : Slotted library stage' new e' grow)
    (hHoists : Hoists name x (reference j name) e e')
    (hStage : (stage feeder).kind.isStage) :
    Replaces library False {n | n = name} (stage feeder)
      (stage' (binder .letBind b d [] name feeder x)) := by
  have hBinder := slotted_letBinder library b d name x
  refine .of_stage hStage
    (fun context handed _ hDisjoint hSupplies => ?_)
  rcases hStep.reads hSupplies with
    ⟨read, hFeeder, hReads, hHanded⟩
  rcases hHoists.supplies hFeeder hReads b d with
    ⟨hBound, hSlot⟩
  refine .of_meets (hStep'.supplies hBound hSlot
    (fun n hN hNew => .inl (hHanded n hN hNew)))
    (fun n hN => ?_)
    (hStep.meets_hoisted hStep' hHoists hReads
      (fun hMem => Set.disjoint_left.mp hDisjoint hMem rfl))
  rw [hStep'.visible, hStep.visible, hBinder.visible]
  simp only [List.mem_append, List.mem_singleton]
  tauto

/- The stage before can replace the one after. -/
theorem Slotted.replaces_restored
    (hStep : Slotted library stage new e grow)
    (hStep' : Slotted library stage' new e' grow)
    (hHoists : Hoists name x (reference j name) e e')
    (hStage : (stage'
      (binder .letBind b d [] name feeder x)).kind.isStage) :
    Replaces library False {n | n = name}
      (stage' (binder .letBind b d [] name feeder x))
      (stage feeder) := by
  have hBinder := slotted_letBinder library b d name x
  refine .of_stage hStage
    (fun context handed _ hDisjoint hSupplies => ?_)
  rcases hStep'.reads hSupplies with
    ⟨read, hBound, hSlot, hHanded⟩
  rcases hHoists.supplied hBound hSlot with
    ⟨read', hFeeder, hReads, hKept⟩
  have hName : name ∉ handed :=
    fun hMem => Set.disjoint_left.mp hDisjoint hMem rfl
  refine .of_meets (hStep.supplies hFeeder hReads
    (fun n hN hNew => hKept n (hHanded n hN hNew)
      (fun hEq => hName (hEq ▸ hN))))
    (fun n hN => ?_)
    (fun env => (hStep.meets_hoisted hStep' hHoists hReads
      hName env).symm (fun _ _ hRows =>
        (List.Forall₂.flip hRows).imp
          (fun _ _ hRow n hN => (hRow n hN).symm)))
  rw [hStep'.visible, hStep.visible, hBinder.visible]
  simp only [List.mem_append, List.mem_singleton]
  tauto

end Tree

end Flwor
