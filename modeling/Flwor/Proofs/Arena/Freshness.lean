import Flwor.Proofs.Arena.Alterations

/-
  Generated names are fresh.

  One of the candidates is free, since there are more of
  them than nodes.  A name that no node has is neither read
  nor bound in any tree that stands in the arena.

  Key definitions include:
    * `Tree.Mentions`
    * `Plan.Fresh`

  Key theorems include:
    * `Plan.generatedName_not_mem`
    * `Edit.ensures_fresh`
-/

------------------------------------------------------------
-- Free Candidates
------------------------------------------------------------

namespace Flwor

namespace Plan

theorem generatedName_injective
    (hint : String) :
    Function.Injective (generatedName hint) := by
  intro m n hEq
  have hList := congrArg String.toList hEq
  simp only [generatedName, String.toList_append] at hList
  have hDigits := List.append_cancel_left hList
  have hNumber :=
    congrArg (fun ds => Nat.ofDigitChars 10 ds 0) hDigits
  simpa [Nat.toString_eq_ofList_toDigits] using hNumber

/- What the payload of a node names is in use. -/
theorem mem_usedNames_of_var?
    {plan : Plan}
    {id : NodeId}
    {name : String}
    (hId : id < plan.size)
    (hVar : plan.var? id = some name) :
    name ∈ plan.usedNames := by
  refine List.mem_filterMap.mpr ⟨plan.node id, ?_, hVar⟩
  rw [node, Array.getD_eq_getD_getElem?,
    Array.getElem?_eq_getElem hId, Option.getD_some]
  exact Array.getElem_mem_toList hId

/- Among more candidates than used names one is free. -/
theorem generatedName_not_mem
    (plan : Plan)
    (hint : String) :
    generatedName hint (plan.freshNumber hint) ∉
      plan.usedNames := by
  cases hFind : (List.range' (plan.counter + 1)
      (plan.size + 1)).find? (fun k =>
        !plan.usedNames.contains (generatedName hint k)) with
  | some k =>
      have hFree := List.find?_some hFind
      rw [freshNumber, hFind, Option.getD_some]
      simpa using hFree
  | none =>
      have hAll : (List.range' (plan.counter + 1)
          (plan.size + 1)).map (generatedName hint) ⊆
            plan.usedNames := by
        intro name hName
        rcases List.mem_map.mp hName with ⟨k, hK, rfl⟩
        simpa using List.find?_eq_none.mp hFind k hK
      have hDistinct : ((List.range' (plan.counter + 1)
          (plan.size + 1)).map (generatedName hint)).Nodup :=
        List.Nodup.map (generatedName_injective hint)
          List.nodup_range'
      have hMore :=
        (List.subperm_of_subset hDistinct hAll).length_le
      have hUsed : plan.usedNames.length ≤ plan.size := by
        unfold usedNames size
        rw [← Array.length_toList]
        exact List.length_filterMap_le _ _
      rw [List.length_map, List.length_range'] at hMore
      omega

end Plan

end Flwor

------------------------------------------------------------
-- Mentioned Names
------------------------------------------------------------

namespace Flwor

namespace Tree

variable {name : String}
variable {t : Tree}

/- Whether a node of a tree has a name. -/
def Mentions
    (name : String)
    (t : Tree) : Prop :=
  ∃ s ∈ t.subtrees, s.payload.var? = some name

theorem Mentions.of_subtree
    {s : Tree}
    (hMentions : s.Mentions name)
    (hS : s ∈ t.subtrees) :
    t.Mentions name := by
  rcases hMentions with ⟨r, hR, hVar⟩
  exact ⟨r, mem_subtrees_trans hR hS, hVar⟩

theorem Mentions.of_child
    {c : Tree}
    (hMentions : c.Mentions name)
    (hC : c ∈ t.children) :
    t.Mentions name :=
  hMentions.of_subtree
    (mem_subtrees_of_child hC (mem_subtrees_self _))

theorem mentions_of_childVar?
    {index : Nat}
    (hVar : t.childVar? index = some name) :
    t.Mentions name := by
  rcases Option.bind_eq_some_iff.mp hVar with ⟨c, hC, hVar⟩
  exact Mentions.of_child ⟨c, mem_subtrees_self _, hVar⟩
    (List.mem_of_getElem? hC)

/- What a stage binds is mentioned in it. -/
theorem mentions_of_bound
    (hName : name ∈ t.bound) :
    t.Mentions name := by
  have hBinding (hName : name ∈ t.binding?.toList) :
      t.Mentions name := by
    have hVar := Option.mem_toList.mp hName
    unfold binding? at hVar
    split at hVar
    · exact mentions_of_childVar? hVar
    · exact mentions_of_childVar? hVar
    · exact mentions_of_childVar? hVar
    · cases hVar
  have hPosition (hName : name ∈ t.position?.toList) :
      t.Mentions name := by
    have hVar := Option.mem_toList.mp hName
    unfold position? at hVar
    split at hVar
    · rcases Option.bind_eq_some_iff.mp hVar with
        ⟨c, hC, hVar⟩
      have hChild := (Option.filter_eq_some_iff.mp hC).1
      exact mentions_of_childVar?
        (Option.bind_eq_some_iff.mpr ⟨c, hChild, hVar⟩)
    · cases hVar
  unfold bound at hName
  split at hName
  · exact (List.mem_append.mp hName).elim hBinding hPosition
  · exact hBinding hName
  · exact hBinding hName
  · rcases List.mem_append.mp hName with hName | hName
    · unfold groupKeys at hName
      rcases List.mem_filterMap.mp hName with
        ⟨spec, hSpec, hVar⟩
      exact (mentions_of_childVar? hVar).of_child
        (List.mem_of_mem_drop (List.mem_of_mem_filter hSpec))
    · rcases List.mem_map.mp hName with
        ⟨⟨target, source⟩, hMem, rfl⟩
      unfold groupAggregates at hMem
      rcases List.mem_filterMap.mp hMem with
        ⟨spec, hSpec, hVars⟩
      split at hVars
      next hTarget _ =>
        cases hVars
        exact (mentions_of_childVar? hTarget).of_child
          (List.mem_of_mem_drop
            (List.mem_of_mem_filter hSpec))
      next => cases hVars
  · cases hName

theorem exists_of_mem_visibleLast
    {cs : List Tree}
    (hName : name ∈ visibleLast cs) :
    ∃ c ∈ cs, name ∈ c.visible := by
  induction cs with
  | nil => cases hName
  | cons c rest ih =>
      cases rest with
      | nil => exact ⟨c, List.mem_cons_self, hName⟩
      | cons d rest =>
          rcases ih hName with ⟨e, hE, hName⟩
          exact ⟨e, List.mem_cons_of_mem _ hE, hName⟩

theorem mentions_of_visible
    (hName : name ∈ t.visible) :
    t.Mentions name := by
  induction t using Tree.induction with
  | node i k p ps cs ih =>
      have hHead (hName : name ∈ visibleHead cs) :
          (node i k p ps cs).Mentions name := by
        cases cs with
        | nil => cases hName
        | cons c rest =>
            exact (ih c List.mem_cons_self hName).of_child
              List.mem_cons_self
      have hLast (hName : name ∈ visibleLast cs) :
          (node i k p ps cs).Mentions name := by
        rcases exists_of_mem_visibleLast hName with
          ⟨c, hC, hName⟩
        exact (ih c hC hName).of_child hC
      unfold visible at hName
      split at hName
      · cases hName
      · exact mentions_of_bound hName
      · exact (List.mem_append.mp hName).elim hHead hLast
      · exact (List.mem_append.mp hName).elim hHead
          mentions_of_bound

/- What is read is mentioned, if no check reads it. -/
theorem mentions_of_references
    (hLacks : t.Lacks Properties.check)
    (hName : name ∈ t.references) :
    t.Mentions name := by
  induction t using Tree.induction with
  | node i k p ps cs ih =>
      rw [references, List.mem_append, nodeReferences,
        List.mem_append, Properties.var?,
        show ps.get? Properties.check = none from
          hLacks _ (mem_subtrees_self _),
        mem_referencesAll_iff] at hName
      rcases hName with (hName | hName) | ⟨c, hC, hName⟩
      · split at hName
        · exact ⟨_, mem_subtrees_self _,
            Option.mem_toList.mp hName⟩
        · cases hName
      · cases hName
      · exact (ih c hC (hLacks.child hC) hName).of_child hC

end Tree

namespace Plan

variable {plan : Plan}
variable {name : String}
variable {t : Tree}

/- A name that no node of the arena has. -/
def Fresh
    (plan : Plan)
    (name : String) : Prop :=
  ∀ t, plan.Stands t → t.payload.var? ≠ some name

/- No tree in the arena mentions a fresh name. -/
theorem Fresh.not_mentions
    (hFresh : plan.Fresh name)
    (hHolds : plan.Holds t) :
    ¬ t.Mentions name := by
  rintro ⟨s, hS, hVar⟩
  exact hFresh s (hHolds s hS) hVar

theorem fresh_of_not_mem
    (hName : name ∉ plan.usedNames) :
    plan.Fresh name := by
  intro t hStands hVar
  refine hName (mem_usedNames_of_var? hStands.lt ?_)
  rw [var?, hStands.payload, hVar]

/- A name was fresh before a node got other children. -/
theorem Fresh.of_removed
    {after : Plan}
    {i : NodeId}
    {k : Kind}
    {p : Payload}
    {ps : Properties}
    {cs cs' : List Tree}
    (hFresh : after.Fresh name)
    (hAlters : plan.Alters {i} after)
    (hBefore : plan.Stands (.node i k p ps cs))
    (hAfter : after.Stands (.node i k p ps cs')) :
    plan.Fresh name := by
  intro t hStands
  by_cases hId : t.id = i
  · have hPayload : t.payload = p := by
      rw [← hStands.payload, hId]
      exact hBefore.payload
    rw [hPayload]
    exact hFresh _ hAfter
  · exact hFresh t (hAlters.spared t hId hStands)

end Plan

end Flwor

------------------------------------------------------------
-- The Edit
------------------------------------------------------------

namespace Flwor

namespace Edit

open Plan

variable {plan : Plan}

/- A generated name is one that no node has. -/
theorem ensures_fresh
    (hSound : plan.Sound)
    (hint : String) :
    (fresh hint).Ensures plan (fun name after =>
      plan.Alters ∅ after ∧ after.size = plan.size ∧
        plan.Fresh name) := by
  have hSame :
      plan.SameLinks
        { plan with counter := plan.freshNumber hint } :=
    ⟨rfl, rfl, fun _ => rfl, fun _ => rfl, fun _ => rfl,
      fun _ => rfl⟩
  refine ensures_of_cases (.inr rfl)
    ⟨⟨⟨hSame.linked hSound.linked, hSound.root_lt⟩, rfl,
      le_rfl, ?_⟩, rfl,
      fresh_of_not_mem (plan.generatedName_not_mem hint)⟩
  exact fun t _ h =>
    ⟨h.lt, h.kind, h.payload, h.properties, h.children⟩

end Edit

end Flwor
