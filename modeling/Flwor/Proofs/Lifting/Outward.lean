import Flwor.Proofs.Lifting.Releases

/-
  A binding leaves its pipeline for the one outside.

  It comes to stand before the stage in whose expression its
  pipeline is, and is evaluated once for each row there.  The
  expression releases it, and finds its value in the row.

  Key theorems include:
    * `Tree.Slotted.replaces_released`
    * `Tree.replaces_released_result`
    * `Plan.Sound.releases_slot`
-/

------------------------------------------------------------
-- Before a Stage
------------------------------------------------------------

namespace Flwor

namespace Tree

variable {library : Library}
variable {stage stage' bind : Tree → Tree}
variable {new : List String}
variable {slot slot' value feeder : Tree}
variable {grow : Env → Sequence → Option (List Env)}
variable {name : String}
variable {context handed : Set String}

/-
  What is made of each row by an expression, and by what is
  left of it once the value of a binding is in the row.
-/
theorem Slotted.meets_released
    {α : Type}
    {R : α → α → Prop}
    {read : Set String}
    (hBind : Slotted library bind [name] value
      (fun row s => some [row.bind name s]))
    (hSlot : ReleasesValue library name value slot slot')
    (hReads : ReadsFrom library False read slot)
    (hName : name ∉ read)
    {f : Env → Sequence → Option (List α)}
    (hEach : ∀ (row : Env) (s t : Sequence),
      Meets .onlyRight (List.Forall₂ R)
        (f (row.bind name s) t) (f row t))
    (env : Env) :
    Meets .onlyRight (List.Forall₂ R)
      (((bind feeder).rows library env).bind (fun rows =>
        (rows.mapM (fun row =>
          (slot'.value library row).bind (f row))).map
            List.flatten))
      ((feeder.rows library env).bind (fun rows =>
        (rows.mapM (fun row =>
          (slot.value library row).bind (f row))).map
            List.flatten)) := by
  rw [hBind.rows, Option.bind_assoc]
  refine (Meets.refl _).bind ?_
  rintro rows _ rfl
  rw [bind_flatten_mapM]
  refine Meets.map (R := List.Forall₂ (List.Forall₂ R))
    (Meets.mapM (R := Eq) (List.forall₂_same.mpr
      (fun _ _ => rfl)) ?_)
    (fun _ _ hRows => List.rel_flatten hRows)
  rintro row _ rfl
  cases hValue : value.value library row with
  | none => exact Meets.none_left trivial _
  | some s =>
      have hSame : SameValue library False slot'
          (row.bind name s) slot row := by
        refine hSlot.same hName hReads (fun n hN => ?_)
          (if_pos rfl) hValue
        exact Env.agreeOn_bind row name s n
          (fun hEq : n = name => hName (hEq ▸ hN))
      rw [Option.bind_some, Option.bind_some,
        flatten_mapM_singleton, hSame.eq_of_strict]
      refine (Meets.refl _).bind ?_
      rintro t _ rfl
      exact hEach row s t

/- A name that is nowhere in scope cannot be read. -/
theorem Supplies.not_mem
    (hSupplies : Supplies library False context handed feeder)
    (hContext : name ∉ context)
    (hHidden : name ∉ feeder.visible) :
    name ∉ handed :=
  fun hName => hContext (hSupplies.mem_context hName hHidden)

/- A binding leaves the expression of a stage. -/
theorem Slotted.replaces_released
    (hStep : Slotted library stage new slot grow)
    (hStep' : Slotted library stage' new slot' grow)
    (hBind : Slotted library bind [name] value
      (fun row s => some [row.bind name s]))
    (hSlot : ReleasesValue library name value slot slot')
    (hHidden : name ∉ feeder.visible)
    (hStage : (stage feeder).kind.isStage) :
    Replaces library .onlyRight ⟨{name}, {name}⟩
      (stage feeder) (stage' (bind feeder)) := by
  refine .of_stage hStage
    (fun context handed hContext hDisjoint hSupplies => ?_)
  rw [Set.disjoint_singleton_right] at hContext hDisjoint
  rcases hStep.reads hSupplies with
    ⟨read, hFeeder, hReads, hHanded⟩
  have hName := hFeeder.not_mem hContext hHidden
  refine .of_meets (hStep'.supplies
    (hBind.supplies_bound hFeeder (hSlot.scope hReads))
    (hSlot.reads hName hReads)
    (fun n hN hNew => .inl (hHanded n hN hNew)))
    (fun n hN => ?_) (fun env => ?_)
  · have hNe : n ≠ name := hN
    rw [hStep'.visible, hStep.visible, hBind.visible]
    simp [hNe]
  · rw [hStep'.rows, hStep.rows]
    refine hBind.meets_released hSlot hReads hName
      (fun row s t => hStep.meets_grow (fun n hN _ => ?_) t)
      env
    exact Env.agreeOn_bind row name s n
      (fun hEq : n = name => hDisjoint (hEq ▸ hN))

/- Expressions in scope whose values meet everywhere. -/
theorem Serves.of_meets
    {lax : Leeway}
    {names : Set String}
    {t t' : Tree}
    (hReads : ReadsFrom library False names t')
    (hValue : ∀ env, Meets lax Eq
      (t'.value library env) (t.value library env)) :
    Serves library lax names t t' :=
  ⟨hReads, fun env _ hAgree =>
    (hReads.sameValue hAgree).trans_lax (hValue env)
      (fun _ _ _ => Eq.trans)⟩

/- A binding leaves the result of a pipeline. -/
theorem replaces_released_result
    {i j : NodeId}
    {p q : Payload}
    {ps qs : Properties}
    (hBind : Slotted library bind [name] value
      (fun row s => some [row.bind name s]))
    (hSlot : ReleasesValue library name value slot slot')
    (hHidden : name ∉ feeder.visible) :
    Replaces library .onlyRight ⟨{name}, {name}⟩
      (.node i .pipeExpr p ps
        [.node j .finish q qs [feeder, slot]])
      (.node i .pipeExpr p ps
        [.node j .finish q qs [bind feeder, slot']]) := by
  refine ⟨fun names hNames hReads => ?_,
    fun _ _ _ _ hSupplies => nomatch hSupplies⟩
  rw [Set.disjoint_singleton_right] at hNames
  cases hReads with
  | binary hKind => exact hKind.elim
  | pipe hSupplies hResult =>
      have hName := hSupplies.not_mem hNames hHidden
      refine .of_meets (.pipe
        (hBind.supplies_bound hSupplies (hSlot.scope hResult))
        (hSlot.reads hName hResult)) (fun env => ?_)
      rw [value_pipeline, value_pipeline]
      refine Meets.mono (R := List.Forall₂ Eq) ?_
        (fun _ _ hRows => List.forall₂_eq_eq_eq ▸ hRows)
      simpa only [Option.bind_fun_some] using
        hBind.meets_released (R := Eq) (f := fun _ s => some s)
          hSlot hResult hName (fun _ _ t => .value
            (List.forall₂_same.mpr (fun _ _ => rfl))) env

end Tree

end Flwor

------------------------------------------------------------
-- The Pipeline in Its Plan
------------------------------------------------------------

namespace Flwor

namespace Plan

variable {plan : Plan}
variable {library : Library}
variable {name : String}
variable {b : NodeId}
variable {q : Payload}
variable {ps : Properties}
variable {rest cs : List Tree}
variable {s t value start pipe slot c : Tree}

/- What hangs below stages of a valid plan feeds them. -/
theorem Sound.feeding_of_staged
    (hSound : plan.Sound)
    (hValid : plan.validate = .ok ())
    (hStaged : Tree.Staged s t)
    (hStage : s.kind.isStage)
    (hT : t ∈ plan.rootTree.subtrees) :
    t.kind.isStage ∧ s.Feeding t := by
  induction hStaged with
  | here => exact ⟨hStage, .here⟩
  | under hAbove hChild _ ih =>
      have hBelow := ih (Tree.mem_subtrees_trans
        (Tree.mem_subtrees_of_child hChild
          (Tree.mem_subtrees_self _)) hT)
      exact ⟨hAbove, feeding_of_child hSound hValid hT hAbove
        hChild hBelow.1 hBelow.2⟩

/-
  The pipeline of a binding releases it, and so does the
  expression in which the pipeline is evaluated once.
-/
theorem Sound.releases_slot
    {f : NodeId}
    {p : Payload}
    {qs : Properties}
    (hSound : plan.Sound)
    (hValid : plan.validate = .ok ())
    (hLacks : plan.rootTree.Lacks Properties.project)
    (hSole : Tree.SoleBinder name b plan.rootTree)
    (hSlot : slot ∈ plan.rootTree.subtrees)
    (hBind : Tree.Slotted library
      (fun t => .node b .letBind q ps (t :: rest)) [name]
      value (fun row s => some [row.bind name s]))
    (hValue : rest[1]? = some value)
    (hStart : start.kind = .start)
    (hBuries : ∀ y, Tree.Buries pipe y slot
      (slot.mapAt pipe.id (fun _ => y)))
    (hFinish : .node f .finish p qs cs ∈ pipe.children)
    (hPart : c ∈ cs)
    (hStaged : Tree.Staged
      (.node b .letBind q ps (start :: rest)) c) :
    Tree.ReleasesValue library name value slot
      (slot.mapAt b (fun _ => start)) := by
  have hNodup := hSound.holds_rootTree.2.2
  have hRescopable {t : Tree}
      (hT : t ∈ plan.rootTree.subtrees) : t.Rescopable ∅ :=
    .of_shaped ((shaped_of_validate hValid).subtree hT)
      (hLacks.subtree hT)
  have hPipe := (hBuries pipe).mem
  have hPipeMem := Tree.mem_subtrees_trans hPipe hSlot
  have hPipeNodup := Tree.nodup_ids_of_subtree hNodup hPipeMem
  have hPipeTree := hRescopable hPipeMem
  rcases hSound.pipeline_of_child hValid hPipeMem hFinish with
    ⟨i, p', ps', tail, more, rfl, rfl⟩
  have hFinishTree := hPipeTree.child hFinish
  have hFinishNodup := Tree.nodup_ids_of_child hPipeNodup hFinish
  have hPartMem := Tree.mem_subtrees_trans
    (Tree.mem_subtrees_of_child hFinish
      (Tree.mem_subtrees_of_child hPart
        (Tree.mem_subtrees_self c))) hPipeMem
  rcases hSound.feeding_of_staged hValid hStaged rfl hPartMem
    with ⟨hStage, hFeeding⟩
  have hBelow : b ∈ c.ids :=
    Tree.mem_ids_iff.mpr ⟨_, hStaged.mem, rfl⟩
  have hPartIds : b ∈ (Tree.node f .finish p qs
      (tail :: more)).ids :=
    List.mem_cons_of_mem _
      (Tree.mem_idsAll_iff.mpr ⟨c, hPart, hBelow⟩)
  have hIds : b ∈ (Tree.node i .pipeExpr p' ps'
      [.node f .finish p qs (tail :: more)]).ids :=
    List.mem_cons_of_mem _ (Tree.mem_idsAll_iff.mpr
      ⟨_, List.mem_cons_self, hPartIds⟩)
  rw [Tree.mapAt_of_below
    (Tree.nodup_ids_of_subtree hNodup hSlot) hPipe hIds]
  refine (hBuries _).releases ?_ (hRescopable hSlot)
  rcases List.mem_cons.mp hPart with rfl | hRest
  · rw [Tree.mapAt_of_first hPipeNodup hPartIds,
      Tree.mapAt_of_first hFinishNodup hBelow]
    have hBindTree := hRescopable
      (Tree.mem_subtrees_trans hStaged.mem hPartMem)
    refine Tree.ReleasesRows.pipeline
      (hFeeding.releases hBind hStart
        (hBindTree.child (List.mem_cons_of_mem _
          (List.mem_of_getElem? hValue)))
        (Tree.nodup_ids_of_child hFinishNodup hPart)
        (hFinishTree.child hPart) (hSole.subtree hPartMem))
      (fun d hD => hFinishTree.child
        (List.mem_cons_of_mem _ hD))
  · have hNot (names : Set String) :
        ¬ Tree.ReadsFrom library False names
          (.node i .pipeExpr p' ps'
            [.node f .finish p qs (tail :: more)]) :=
      hPipeTree.shaped.not_reads_of_stage hRest hStage
    exact ⟨fun hReads => (hNot _ hReads).elim,
      fun _ hReads => (hNot _ hReads).elim,
      fun _ hReads => (hNot _ hReads).elim⟩

end Plan

end Flwor
