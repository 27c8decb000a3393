import Flwor.Proofs.Lifting.Outward
import Flwor.Proofs.Lifting.Places

/-
  Moving one binding keeps what a plan means.

  A binding that hops loops finds the same rows before them,
  and one that leaves an expression has a name of its own, so
  that nothing around the stage reads or hides it.  Neither
  brings a name to a place that is worse.

  Key definitions include:
    * `Tree.Turns`

  Key theorems include:
    * `Tree.SoleBinder.hidden_outside`
    * `Plan.Sound.replaces_root`
    * `Plan.Sound.settles_lifted`
    * `Plan.Sound.serves_lifted`
-/

------------------------------------------------------------
-- Hidden Names
------------------------------------------------------------

namespace Flwor

namespace Tree

variable {name : String}
variable {b : NodeId}
variable {r s t : Tree}

/- What is not part of a subtree contains it or is apart. -/
theorem apart_of_around
    (hNodup : t.ids.Nodup)
    (hS : s ∈ t.subtrees)
    (hR : r ∈ t.around s.id) :
    s ∈ r.subtrees ∨ r.ids.Disjoint s.ids := by
  induction t using Tree.induction with
  | node i k p ps cs ih =>
      rcases mem_around_node.mp hR with ⟨hNe, rfl | hR⟩
      · exact .inl hS
      rcases hR with ⟨c, hC, hR⟩
      rw [subtrees, List.mem_cons, mem_subtreesAll_iff] at hS
      rcases hS with rfl | ⟨d, hD, hS⟩
      · exact (hNe rfl).elim
      have hParts := (List.nodup_cons.mp hNodup).2
      by_cases hHere : s ∈ c.subtrees
      · exact ih c hC (nodup_ids_of_mem hParts hC) hHere hR
      · refine .inr (fun x hX hX' => hHere ?_)
        have hEq := eq_of_mem_ids hParts hC hD
          (ids_subset (around_subset hR) x hX)
          (ids_subset hS x hX')
        exact hEq ▸ hS

/-
  If a stage hides the only binding of a name that is below
  it, then so does all that is around the stage.
-/
theorem SoleBinder.hidden
    (hSole : SoleBinder name b t)
    (hNodup : t.ids.Nodup)
    (hS : s ∈ t.subtrees)
    (hB : b ∈ s.ids)
    (hNe : s.id ≠ b)
    (hHidden : name ∉ s.visible) :
    name ∉ t.visible := by
  induction t using Tree.induction with
  | node i k p ps cs ih =>
      rw [subtrees, List.mem_cons, mem_subtreesAll_iff] at hS
      rcases hS with rfl | ⟨d, hD, hS⟩
      · exact hHidden
      have hParts := List.nodup_cons.mp hNodup
      have hBelow : b ∈ d.ids := ids_subset hS b hB
      intro hName
      rcases mem_visible hName with hBound | ⟨c, hC, hName⟩
      · have hEq : i = b :=
          hSole.single _ (mem_subtrees_self _) hBound
        exact hParts.1 (mem_idsAll_iff.mpr ⟨d, hD, hEq ▸ hBelow⟩)
      by_cases hHere : b ∈ c.ids
      · cases eq_of_mem_ids hParts.2 hC hD hHere hBelow
        exact ih d hD (hSole.child hD)
          (nodup_ids_of_mem hParts.2 hD) hS hName
      · exact (hSole.child hC).not_visible hHere hName

/- Neither does anything apart from the stage show it. -/
theorem SoleBinder.hidden_outside
    (hSole : SoleBinder name b t)
    (hNodup : t.ids.Nodup)
    (hB : b ∈ s.ids)
    (hNe : s.id ≠ b)
    (hHidden : name ∉ s.visible)
    (hR : r ∈ t.subtrees)
    (hPlace : s ∈ r.subtrees ∨ r.ids.Disjoint s.ids) :
    name ∉ r.visible := by
  have hHere := hSole.subtree hR
  rcases hPlace with hS | hApart
  · exact hHere.hidden (nodup_ids_of_subtree hNodup hR) hS hB
      hNe hHidden
  · exact hHere.not_visible (fun hMem => hApart hMem hB)

end Tree

end Flwor

------------------------------------------------------------
-- Moved Bindings
------------------------------------------------------------

namespace Flwor

namespace Tree

variable {key name : String}
variable {reads : List String}
variable {b : NodeId}
variable {q : Payload}
variable {ps : Properties}
variable {feeder t u s : Tree}
variable {rest : List Tree}

theorem Inserts.lacks
    (hInserts :
      Inserts name reads b q ps feeder rest t u)
    (hLacks : (node b .letBind q ps (t :: rest)).Lacks key) :
    u.Lacks key := by
  have hBare : ps.get? key = none :=
    hLacks _ (mem_subtrees_self _)
  have hRest (c : Tree) (hC : c ∈ rest) : c.Lacks key :=
    hLacks.child (List.mem_cons_of_mem _ hC)
  have hT : t.Lacks key := hLacks.child List.mem_cons_self
  clear hLacks
  induction hInserts with
  | here _ =>
      refine lacks_node (hT _ (mem_subtrees_self _))
        (List.forall_mem_cons.mpr ⟨lacks_node hBare
          (List.forall_mem_cons.mpr
            ⟨hT.child List.mem_cons_self, hRest⟩), ?_⟩)
      exact fun c hC => hT.child (List.mem_cons_of_mem _ hC)
  | hop _ _ ih =>
      refine lacks_node (hT _ (mem_subtrees_self _))
        (List.forall_mem_cons.mpr
          ⟨ih (hT.child List.mem_cons_self), ?_⟩)
      exact fun c hC => hT.child (List.mem_cons_of_mem _ hC)

/- A moved binding brings no annotations. -/
theorem Lifted.lacks
    (hLifted : Lifted s u)
    (hLacks : s.Lacks key) :
    u.Lacks key := by
  cases hLifted with
  | hopped _ _ _ hInserts _ => exact hInserts.lacks hLacks
  | @outward o l p qs feeder mid slot pipe b q ps input rest
      _ _ f p' qs' cs c _ _ _ _ _ hBuries hFinish hPart
      hStaged =>
      have hSlot : slot.Lacks key := hLacks.child (by simp)
      rcases mem_slot hBuries hFinish hPart hStaged with
        ⟨hEnd, hBelow⟩
      have hBind := hSlot.subtree
        (mem_subtrees_of_all hEnd hBelow)
      have hSlot' :
          (slot.mapAt b (fun _ => input)).Lacks key :=
        lacks_mapAt hSlot
          (fun _ _ _ => hBind.child List.mem_cons_self)
      refine lacks_node (hLacks _ (mem_subtrees_self _)) ?_
      intro d hD
      rcases List.mem_cons.mp hD with rfl | hD
      · refine lacks_node (hBind _ (mem_subtrees_self _))
          (List.forall_mem_cons.mpr
            ⟨hLacks.child List.mem_cons_self, ?_⟩)
        exact fun e hE =>
          hBind.child (List.mem_cons_of_mem _ hE)
      rcases List.mem_append.mp hD with hD | hD
      · exact hLacks.child (by simp [hD])
      · exact List.mem_singleton.mp hD ▸ hSlot'

/- An expression with a pipeline buried in it is no stage. -/
theorem Buries.plain
    {x y t' : Tree}
    (hBuries : Buries x y t t')
    (hPipe : x.kind = .pipeExpr) :
    t.kind.isStage = false ∧ t.kind ≠ .posVariable := by
  refine ⟨?_, hBuries.kind_ne rfl (by simp [hPipe])⟩
  rw [← Bool.not_eq_true]
  intro hStage
  refine hBuries.kind_ne (k := t.kind) ?_ ?_ rfl
  · generalize t.kind = k at hStage
    cases k <;> first | rfl | cases hStage
  · rintro hEq
    rw [← hEq, hPipe] at hStage
    cases hStage

/- Below its top a tree keeps its kind. -/
theorem kind_mapAt_of_ne
    {f : Tree → Tree}
    (hNe : t.id ≠ b) :
    (t.mapAt b f).kind = t.kind := by
  rcases t with ⟨i, k, p, ps, cs⟩
  change i ≠ b at hNe
  rw [mapAt_of_ne hNe]
  rfl

/- A binding is moved to a stage or to an end. -/
theorem Lifted.kinds
    (hLifted : Lifted s u)
    (hShaped : s.Shaped) :
    s.kind.isStage ∧ u.kind.isStage ∨
      s.kind = .finish ∧ u.kind = .finish := by
  cases hLifted with
  | hopped _ _ _ hInserts _ =>
      refine .inl ⟨rfl, ?_⟩
      rw [hInserts.kind_eq]
      exact hShaped.isStage_first (.inr (.inr (.inl rfl)))
  | outward _ _ _ hOwner =>
      rcases hOwner.1 with rfl | rfl | rfl | rfl
      · exact .inr ⟨rfl, rfl⟩
      all_goals exact .inl ⟨rfl, rfl⟩

/- The last part of a node of a tree. -/
theorem mem_subtrees_last
    {i : NodeId}
    {k : Kind}
    {p : Payload}
    {c : Tree}
    {mid : List Tree}
    (hS : .node i k p ps (feeder :: (mid ++ [c])) ∈
      t.subtrees) :
    c ∈ t.subtrees :=
  mem_subtrees_trans (mem_subtrees_of_child (by simp)
    (mem_subtrees_self c)) hS

/- After a stage with a slot its input's names are visible. -/
theorem mem_visible_first
    {i : NodeId}
    {k : Kind}
    {p : Payload}
    {cs : List Tree}
    (hKind : k = .finish ∨ k = .selection ∨ k = .letBind ∨
      k = .forBind)
    (hName : name ∈ visible (.node i k p ps (feeder :: cs))) :
    name ∈ feeder.visible ∨
      name ∈ bound (.node i k p ps (feeder :: cs)) := by
  rcases hKind with rfl | rfl | rfl | rfl <;>
    exact List.mem_append.mp hName

/- So a stage shows no name that only a node below it binds. -/
theorem SoleBinder.hidden_owner
    {i : NodeId}
    {k : Kind}
    {p : Payload}
    {cs : List Tree}
    (hSole : SoleBinder name b t)
    (hKind : k = .finish ∨ k = .selection ∨ k = .letBind ∨
      k = .forBind)
    (hS : .node i k p ps (feeder :: cs) ∈ t.subtrees)
    (hNe : i ≠ b)
    (hHidden : name ∉ feeder.visible) :
    name ∉ visible (.node i k p ps (feeder :: cs)) := by
  intro hName
  rcases mem_visible_first hKind hName with hName | hBound
  · exact hHidden hName
  · exact hNe (hSole.single _ hS hBound)

/-
  What is replaced along with a stage or an end: the stage
  itself, or the pipeline of the end.
-/
inductive Turns
    (s u : Tree) : Tree → Tree → Prop where
  | stage
      (hStage : s.kind.isStage)
      (hStage' : u.kind.isStage) :
      Turns s u s u
  | pipe
      (i : NodeId)
      (p : Payload)
      (ps : Properties)
      (hFinish : s.kind = .finish) :
      Turns s u (.node i .pipeExpr p ps [s])
        (.node i .pipeExpr p ps [u])

namespace Turns

variable {r r' : Tree}

theorem kinds
    (hTurns : Turns s u r r') :
    r.kind.isStage ∧ r'.kind.isStage ∨
      r.kind = .pipeExpr ∧ r'.kind = .pipeExpr := by
  cases hTurns with
  | stage hStage hStage' => exact .inl ⟨hStage, hStage'⟩
  | pipe => exact .inr ⟨rfl, rfl⟩

theorem mem
    (hTurns : Turns s u r r') :
    s ∈ r.subtrees := by
  cases hTurns with
  | stage => exact mem_subtrees_self s
  | pipe =>
      exact mem_subtrees_of_child List.mem_cons_self
        (mem_subtrees_self s)

theorem id_ne
    (hTurns : Turns s u r r')
    (hNodup : r.ids.Nodup)
    (hB : b ∈ s.ids)
    (hNe : s.id ≠ b) :
    r.id ≠ b := by
  cases hTurns with
  | stage => exact hNe
  | pipe =>
      rintro rfl
      exact (List.nodup_cons.mp hNodup).1 (mem_idsAll_iff.mpr
        ⟨s, List.mem_cons_self, hB⟩)

theorem lacks
    (hTurns : Turns s u r r')
    (hLacks : r.Lacks key)
    (hAfter : u.Lacks key) :
    r'.Lacks key := by
  cases hTurns with
  | stage => exact hAfter
  | pipe =>
      refine lacks_node (hLacks _ (mem_subtrees_self _)) ?_
      intro c hC
      exact List.mem_singleton.mp hC ▸ hAfter

theorem settles
    (hTurns : Turns s u r r')
    (hRole : s.kind.isStage = u.kind.isStage)
    (hSettles : s.Settles u) :
    r.Settles r' := by
  cases hTurns with
  | stage => exact hSettles
  | pipe =>
      refine settles_node rfl (fun index d hD => ?_)
      rcases index with _ | index
      · cases hD
        exact ⟨s, rfl, hRole, hSettles⟩
      · cases hD

/- Outside of a pipeline nothing is visible of its rows. -/
theorem not_visible
    (hTurns : Turns s u r r')
    (hHidden : name ∉ s.visible) :
    name ∉ r.visible := by
  cases hTurns with
  | stage => exact hHidden
  | pipe => simpa [visible, visibleHead, bound] using hHidden

end Turns

end Tree

namespace Plan

variable {plan : Plan}
variable {library : Library}
variable {s u : Tree}

/- A stage or a pipeline gives its place to one of its kind. -/
theorem Sound.exchanges
    (hSound : plan.Sound)
    (hS : s ∈ plan.rootTree.subtrees)
    (hKinds : s.kind.isStage ∧ u.kind.isStage ∨
      s.kind = .pipeExpr ∧ u.kind = .pipeExpr) :
    Tree.Exchanges s.id (fun _ => u) plan.rootTree := by
  have hSame {r : Tree} (hR : r ∈ plan.rootTree.subtrees)
      (hId : r.id = s.id) : r = s :=
    Tree.eq_of_id_eq hSound.holds_rootTree.2.2 hR hS hId
  refine ⟨fun r hR hId => ?_, fun r hR hId => ?_⟩
  · exact hSame hR hId ▸ hKinds.imp And.left And.left
  · rw [hSame hR hId]
    exact hKinds.imp_right (fun h => h.1.trans h.2.symm)

/- A stage or a pipeline is replaced in the tree of a plan. -/
theorem Sound.replaces_root
    {lax : Leeway}
    {out : Exclusions}
    (hSound : plan.Sound)
    (hValid : plan.validate = .ok ())
    (hLacks : plan.rootTree.Lacks Properties.project)
    (hS : s ∈ plan.rootTree.subtrees)
    (hKinds : s.kind.isStage ∧ u.kind.isStage ∨
      s.kind = .pipeExpr ∧ u.kind = .pipeExpr)
    (hAfter : u.Lacks Properties.project)
    (hLost : out.lost ⊆ out.absent)
    (hHidden : ∀ r ∈ plan.rootTree.subtrees,
      s ∈ r.subtrees ∨ r.ids.Disjoint s.ids →
        ∀ name ∈ r.visible, name ∉ out.absent)
    (hReplaces : Tree.Replaces library lax out s u) :
    Tree.Replaces library lax out plan.rootTree
      (plan.rootTree.mapAt s.id (fun _ => u)) := by
  have hNodup := hSound.holds_rootTree.2.2
  have hSame {r : Tree} (hR : r ∈ plan.rootTree.subtrees)
      (hId : r.id = s.id) : r = s :=
    Tree.eq_of_id_eq hNodup hR hS hId
  have hHosts : Tree.Hosts out s.id (fun _ => u)
      plan.rootTree := by
    refine ⟨shaped_of_validate hValid, hLacks,
      Tree.lacks_mapAt hLacks (fun _ _ _ => hAfter),
      hSound.exchanges hS hKinds,
      fun name _ hName => hName.2 (hLost hName.1),
      fun r hR hPlace => ?_⟩
    refine hHidden r hR ?_
    rcases hPlace with hId | hAround
    · exact .inl (hSame hR hId ▸ Tree.mem_subtrees_self r)
    · exact Tree.apart_of_around hNodup hS hAround
  exact Tree.replaces_mapAt hHosts
    (fun r hR hId => hSame hR hId ▸ hReplaces)

/- The expression that a binding leaves is no stage. -/
theorem Sound.plain_slot
    {slot pipe bind c : Tree}
    {f : NodeId}
    {p : Payload}
    {ps : Properties}
    {cs : List Tree}
    (hSound : plan.Sound)
    (hValid : plan.validate = .ok ())
    (hSlot : slot ∈ plan.rootTree.subtrees)
    (hStage : bind.kind.isStage)
    (hBuries : ∀ y, Tree.Buries pipe y slot
      (slot.mapAt pipe.id (fun _ => y)))
    (hFinish : .node f .finish p ps cs ∈ pipe.children)
    (hPart : c ∈ cs)
    (hStaged : Tree.Staged bind c) :
    slot.kind.isStage = false ∧ slot.kind ≠ .posVariable ∧
      bind ∈ slot.subtrees ∧ slot.id ≠ bind.id := by
  have hPipe := Tree.mem_subtrees_trans (hBuries pipe).mem hSlot
  rcases hSound.pipeline_of_child hValid hPipe hFinish with
    ⟨i, p', ps', tail, rest, _, rfl⟩
  rcases (hBuries slot).plain rfl with ⟨hPlain, hNoPos⟩
  rcases Tree.mem_slot hBuries hFinish hPart hStaged with
    ⟨hEnd, hBelow⟩
  have hBind := Tree.mem_subtrees_of_all hEnd hBelow
  refine ⟨hPlain, hNoPos, hBind, fun hEq => ?_⟩
  have hSame := Tree.eq_of_id_eq
    (Tree.nodup_ids_of_subtree hSound.holds_rootTree.2.2 hSlot)
    (Tree.mem_subtrees_self slot) hBind hEq
  rw [hSame, hStage] at hPlain
  cases hPlain

/- The tree to replace if a stage or an end changes. -/
theorem Sound.exists_turned
    (hSound : plan.Sound)
    (hValid : plan.validate = .ok ())
    (hS : s ∈ plan.rootTree.subtrees)
    (hKinds : s.kind.isStage ∧ u.kind.isStage ∨
      s.kind = .finish) :
    ∃ r ∈ plan.rootTree.subtrees, ∃ r', Tree.Turns s u r r' ∧
      plan.rootTree.mapAt s.id (fun _ => u) =
        plan.rootTree.mapAt r.id (fun _ => r') := by
  rcases hKinds with hStages | hFinish
  · exact ⟨s, hS, u, .stage hStages.1 hStages.2, rfl⟩
  have hNodup := hSound.holds_rootTree.2.2
  rcases s with ⟨j, k, q, qs, cs⟩
  cases hFinish
  rcases hSound.pipeline_of_finish hValid hS with
    ⟨i, p, ps, tail, rest, rfl, hPipe⟩
  refine ⟨_, hPipe, _, .pipe i p ps rfl, ?_⟩
  have hId : j ∈ (Tree.node j .finish q qs
      (tail :: rest)).ids :=
    List.mem_cons_self
  rw [Tree.id, Tree.mapAt_of_below hNodup hPipe
    (List.mem_cons_of_mem _ (Tree.mem_idsAll_iff.mpr
      ⟨_, List.mem_cons_self, hId⟩)),
    Tree.mapAt_of_first
      (Tree.nodup_ids_of_subtree hNodup hPipe) hId,
    Tree.mapAt_self]

/- A moved binding brings no name to a worse place. -/
theorem Sound.settles_lifted
    (hSound : plan.Sound)
    (hValid : plan.validate = .ok ())
    (hS : s ∈ plan.rootTree.subtrees)
    (hLifted : Tree.Lifted s u) :
    plan.rootTree.Settles
      (plan.rootTree.mapAt s.id (fun _ => u)) := by
  have hNodup := hSound.holds_rootTree.2.2
  have hShaped := shaped_of_validate hValid
  have hShapedS := hShaped.subtree hS
  have hKinds := hLifted.kinds hShapedS
  have hSettles : s.Settles u := by
    cases hLifted with
    | @hopped b q ps input rest feeder u name value
        hOpen hName hValue hInserts hLoops =>
        exact hInserts.settles
          (hShapedS.child List.mem_cons_self)
    | @outward o l p qs feeder mid slot pipe b q ps input rest
        name value f p' qs' cs c hOpen hName hValue hOwner
        hStart hBuries hFinish hPart hStaged =>
        have hSlot := Tree.mem_subtrees_last hS
        rcases hSound.plain_slot hValid hSlot rfl hBuries
            hFinish hPart hStaged with
          ⟨_, hNoPos, hBind, hNe⟩
        have hKind : (slot.mapAt b (fun _ => input)).kind =
            slot.kind :=
          Tree.kind_mapAt_of_ne hNe
        refine Tree.settles_outward hShapedS hOwner.1 hBind
          (Tree.settles_cut (hShaped.subtree hSlot)
            (Tree.nodup_ids_of_subtree hNodup hSlot)
            hBind (hStart ▸ rfl)) ?_ hNoPos ?_
        · rw [hKind]
        · rwa [hKind]
  rcases hSound.exists_turned hValid hS
      (hKinds.imp_right And.left) with
    ⟨r, hR, r', hTurns, hEq⟩
  rw [hEq]
  refine Tree.settles_mapAt hShaped
    (hSound.exchanges hR hTurns.kinds) (fun d hD hId => ?_)
  rw [Tree.eq_of_id_eq hNodup hD hR hId]
  refine hTurns.settles ?_ hSettles
  rcases hKinds with ⟨hFirst, hSecond⟩ | ⟨hFirst, hSecond⟩ <;>
    rw [hFirst, hSecond]

/- A binding leaves the expression of a stage or an end. -/
theorem Sound.replaces_outward
    {name : String}
    {b o f : NodeId}
    {l : Kind}
    {p p' q : Payload}
    {ps qs qs' : Properties}
    {feeder slot pipe input value c r r' : Tree}
    {mid rest cs : List Tree}
    (library : Library)
    (hSound : plan.Sound)
    (hValid : plan.validate = .ok ())
    (hLacks : plan.rootTree.Lacks Properties.project)
    (hS : .node o l p qs (feeder :: (mid ++ [slot])) ∈
      plan.rootTree.subtrees)
    (hOwner : Tree.OpenSlot l qs)
    (hSole : Tree.SoleBinder name b plan.rootTree)
    (hHidden : name ∉ feeder.visible)
    (hOpen : ps.get? Properties.check = none)
    (hName : Tree.binding?
      (.node b .letBind q ps (input :: rest)) = some name)
    (hValue : rest[1]? = some value)
    (hStart : input.kind = .start)
    (hBuries : ∀ y, Tree.Buries pipe y slot
      (slot.mapAt pipe.id (fun _ => y)))
    (hFinish : .node f .finish p' qs' cs ∈ pipe.children)
    (hPart : c ∈ cs)
    (hStaged : Tree.Staged
      (.node b .letBind q ps (input :: rest)) c)
    (hTurns : Tree.Turns
      (.node o l p qs (feeder :: (mid ++ [slot])))
      (.node o l p qs (.node b .letBind q ps (feeder :: rest)
        :: (mid ++ [slot.mapAt b (fun _ => input)]))) r r') :
    Tree.Replaces library .onlyRight ⟨{name}, {name}⟩ r r' := by
  have hSlot := Tree.mem_subtrees_last hS
  rcases hSound.plain_slot hValid hSlot rfl hBuries hFinish
      hPart hStaged with ⟨_, hNoPos, hBindMem, hNe⟩
  have hLacksB := (hLacks.subtree hSlot).subtree hBindMem
  have hBind : Tree.Slotted library
      (fun t => .node b .letBind q ps (t :: rest)) [name]
      value (fun row s => some [row.bind name s]) :=
    Tree.slotted_binding (hLacksB.isLive name) hOpen hName
      hValue
  have hReleases := hSound.releases_slot hValid hLacks hSole
    hSlot hBind hValue hStart hBuries hFinish hPart hStaged
  have hShapedS := (shaped_of_validate hValid).subtree hS
  have hLacksS := hLacks.subtree hS
  cases hTurns with
  | stage hStage _ =>
      have hKind : l = .selection ∨ l = .letBind ∨
          l = .forBind := by
        refine hOwner.1.resolve_left ?_
        rintro rfl
        cases hStage
      have hSame : (slot.mapAt b (fun _ => input)).kind =
          slot.kind :=
        Tree.kind_mapAt_of_ne hNe
      rcases Tree.exists_slotted hShapedS hLacksS hOwner.2 hKind
          hNoPos with ⟨new, grow, hSlotted⟩
      exact (hSlotted slot hNoPos).replaces_released
        (hSlotted _ (hSame ▸ hNoPos)) hBind hReleases hHidden
        hStage
  | pipe i p' ps' hEnd =>
      cases hEnd
      have hMid : mid = [] := by
        rcases hShapedS.self with ⟨place, hRule⟩
        simp [Tree.brokenRule?] at hRule
        tauto
      subst hMid
      exact Tree.replaces_released_result hBind hReleases
        hHidden

/- A binding that leaves an expression has its own name. -/
theorem Sound.safe_outward
    {externals : List String}
    {name : String}
    {b o f : NodeId}
    {l : Kind}
    {p p' q : Payload}
    {ps qs qs' : Properties}
    {feeder slot pipe input c : Tree}
    {mid rest cs : List Tree}
    (hSound : plan.Sound)
    (hValid : plan.validate = .ok ())
    (hLiftable : plan.rootTree.Liftable externals)
    (hS : .node o l p qs (feeder :: (mid ++ [slot])) ∈
      plan.rootTree.subtrees)
    (hKind : l = .finish ∨ l = .selection ∨ l = .letBind ∨
      l = .forBind)
    (hName : Tree.binding?
      (.node b .letBind q ps (input :: rest)) = some name)
    (hBuries : ∀ y, Tree.Buries pipe y slot
      (slot.mapAt pipe.id (fun _ => y)))
    (hFinish : .node f .finish p' qs' cs ∈ pipe.children)
    (hPart : c ∈ cs)
    (hStaged : Tree.Staged
      (.node b .letBind q ps (input :: rest)) c) :
    name ∉ externals ∧
      Tree.SoleBinder name b plan.rootTree ∧
      name ∉ feeder.visible ∧
      b ∈ Tree.idsAll (feeder :: (mid ++ [slot])) := by
  have hNodup := hSound.holds_rootTree.2.2
  have hSlot := Tree.mem_subtrees_last hS
  rcases hSound.plain_slot hValid hSlot rfl hBuries hFinish
      hPart hStaged with ⟨hPlain, _, hBind, _⟩
  have hBelow : b ∈ slot.ids :=
    Tree.mem_ids_iff.mpr ⟨_, hBind, rfl⟩
  have hBound : name ∈ Tree.bound (.node b .letBind q ps
      (input :: rest)) := by
    simp [Tree.bound, hName]
  have hInner : l = .finish ∨ l.isStage := by
    rcases hKind with rfl | rfl | rfl | rfl <;> simp [Kind.isStage]
  rcases hLiftable.soleBinder hNodup hS hInner (by simp) hPlain
      hBind rfl hBound with ⟨hExternal, hSole⟩
  refine ⟨hExternal, hSole, ?_,
    Tree.mem_idsAll_iff.mpr ⟨slot, by simp, hBelow⟩⟩
  have hFeeder := Tree.mem_subtrees_trans
    (Tree.mem_subtrees_of_child List.mem_cons_self
      (Tree.mem_subtrees_self feeder)) hS
  refine (hSole.subtree hFeeder).not_visible (fun hMem => ?_)
  have hParts := (List.nodup_cons.mp
    (Tree.nodup_ids_of_subtree hNodup hS)).2
  rw [Tree.idsAll, List.nodup_append'] at hParts
  exact hParts.2.2 hMem
    (Tree.mem_idsAll_iff.mpr ⟨slot, by simp, hBelow⟩)

/- Moving a binding that is safe keeps what a plan means. -/
theorem Sound.serves_lifted
    {externals : List String}
    (library : Library)
    (hSound : plan.Sound)
    (hValid : plan.validate = .ok ())
    (hLacks : plan.rootTree.Lacks Properties.project)
    (hLiftable : plan.rootTree.Liftable externals)
    (hS : s ∈ plan.rootTree.subtrees)
    (hLifted : Tree.Lifted s u)
    (hReads : Tree.ReadsFrom library False
      {n | n ∈ externals} plan.rootTree) :
    Tree.Serves library .onlyRight {n | n ∈ externals}
      plan.rootTree
      (plan.rootTree.mapAt s.id (fun _ => u)) := by
  have hNodup := hSound.holds_rootTree.2.2
  have hShaped := shaped_of_validate hValid
  have hShapedS := hShaped.subtree hS
  have hLacksS := hLacks.subtree hS
  have hAfter := hLifted.lacks hLacksS
  have hKinds := hLifted.kinds hShapedS
  rcases hSound.exists_turned hValid hS
      (hKinds.imp_right And.left) with
    ⟨r, hR, r', hTurns, hEq⟩
  have hLacksR : r'.Lacks Properties.project :=
    hTurns.lacks (hLacks.subtree hR) hAfter
  rw [hEq]
  cases hLifted with
  | @hopped b q ps input rest feeder u name value
      hOpen hName hValue hInserts hLoops =>
      cases hTurns with
      | pipe _ _ _ hEnd => cases hEnd
      | stage hStage hStage' =>
      have hTree (c : Tree) (hC : c ∈ input :: rest) :
          c.Rescopable ∅ :=
        .of_shaped (hShapedS.child hC) (hLacksS.child hC)
      have hReplaces := hInserts.replaces library
        (hTree input List.mem_cons_self)
        (hTree value (List.mem_cons_of_mem _
          (List.mem_of_getElem? hValue)))
        (Tree.slotted_binding (hLacksS.isLive name) hOpen
          hName hValue)
      refine (hSound.replaces_root hValid hLacks hR
        (.inl ⟨hStage, hStage'⟩) hLacksR (fun _ h => h) ?_
        hReplaces).expr _ (Set.disjoint_empty _) hReads
      exact fun _ _ _ _ _ => Set.notMem_empty _
  | @outward o l p qs feeder mid slot pipe b q ps input rest
      name value f p' qs' cs c hOpen hName hValue hOwner
      hStart hBuries hFinish hPart hStaged =>
      rcases hSound.safe_outward hValid hLiftable hS hOwner.1
          hName hBuries hFinish hPart hStaged with
        ⟨hExternal, hSole, hHidden, hBelow⟩
      have hNe : o ≠ b := by
        rintro rfl
        exact (List.nodup_cons.mp
          (Tree.nodup_ids_of_subtree hNodup hS)).1 hBelow
      have hInS : b ∈ (Tree.node o l p qs
          (feeder :: (mid ++ [slot]))).ids :=
        List.mem_cons_of_mem _ hBelow
      have hAbove :=
        hSole.hidden_owner hOwner.1 hS hNe hHidden
      have hReplaces := hSound.replaces_outward library hValid
        hLacks hS hOwner hSole hHidden hOpen hName hValue
        hStart hBuries hFinish hPart hStaged hTurns
      refine (hSound.replaces_root hValid hLacks hR hTurns.kinds
        hLacksR (fun _ h => h) ?_ hReplaces).expr _ ?_ hReads
      · rintro d hD hPlace n hN rfl
        exact hSole.hidden_outside hNodup
          (Tree.ids_subset hTurns.mem _ hInS)
          (hTurns.id_ne (Tree.nodup_ids_of_subtree hNodup hR)
            hInS hNe)
          (hTurns.not_visible hAbove) hD hPlace hN
      · exact Set.disjoint_singleton_right.mpr hExternal

end Plan

end Flwor
