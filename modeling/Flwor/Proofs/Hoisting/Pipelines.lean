import Flwor.Proofs.Hoisting.Stages

/-
  A pipeline before and after an expression is hoisted out of
  a slot of it.

  Outside of the pipeline nothing sees the new variable, and
  inside of it nothing but the slot reads it.  So each of the
  two pipelines can take the place of the other one.

  Key definitions include:
    * `Tree.Swaps`

  Key theorems include:
    * `Tree.swaps_result`
    * `Tree.Encloses.swaps`
    * `Tree.Swaps.above`
-/

------------------------------------------------------------
-- The Result of a Pipeline
------------------------------------------------------------

namespace Flwor

namespace Tree

variable {library : Library}

/- Each of two expressions does what the other one does. -/
structure Swaps
    (library : Library)
    (t t' : Tree) : Prop where
  forth : ∀ names, ReadsFrom library False names t →
    Serves library False names t t'
  back : ∀ names, ReadsFrom library False names t' →
    Serves library False names t' t

/- Neither of two stages is an expression. -/
theorem swaps_of_isStage
    {t t' : Tree}
    (hStage : t.kind.isStage)
    (hStage' : t'.kind.isStage) :
    Swaps library t t' := by
  refine ⟨fun names hReads => ?_, fun names hReads => ?_⟩
  · rw [hReads.isStage_eq] at hStage
    cases hStage
  · rw [hReads.isStage_eq] at hStage'
    cases hStage'

variable {name : String}
variable {names handed : Set String}
variable {i j b d m : NodeId}
variable {p q : Payload}
variable {ps qs : Properties}
variable {tail x e e' : Tree}

/- A pipeline in scope in which another one has its values. -/
theorem Serves.of_value_eq
    {t t' : Tree}
    (hReads : ReadsFrom library False names t')
    (hValue : ∀ env,
      t'.value library env = t.value library env) :
    Serves library False names t t' := by
  refine ⟨hReads, fun env env' hAgree => ?_⟩
  have hSame : SameValue library False t' env' t' env :=
    hReads.sameValue hAgree
  rw [SameValue] at hSame ⊢
  rwa [← hValue env]

/- The value of the pipeline before and after. -/
theorem value_hoisted
    (hHoists : Hoists name x (reference m name) e e')
    (hReads : ReadsFrom library False handed e)
    (env : Env) :
    value library (.node i .pipeExpr p ps
        [.node j .finish q qs
          [binder .letBind b d [] name tail x, e']]) env =
      value library (.node i .pipeExpr p ps
        [.node j .finish q qs [tail, e]]) env := by
  rw [value_pipeline, value_pipeline, flatten_rows_letBinder]
  simp only [hHoists.value_eq hReads]

/- An expression is hoisted out of the result. -/
theorem swaps_result
    (hHoists : Hoists name x (reference m name) e e') :
    Swaps library
      (.node i .pipeExpr p ps
        [.node j .finish q qs [tail, e]])
      (.node i .pipeExpr p ps [.node j .finish q qs
        [binder .letBind b d [] name tail x, e']]) := by
  refine ⟨fun names hReads => ?_, fun names hReads => ?_⟩
  · cases hReads with
    | binary hKind => exact hKind.elim
    | pipe hTail hResult =>
        rcases hHoists.supplies hTail hResult b d with
          ⟨hBound, hSlot⟩
        exact .of_value_eq (.pipe hBound hSlot)
          (value_hoisted hHoists hResult)
  · cases hReads with
    | binary hKind => exact hKind.elim
    | pipe hTail hResult =>
        rcases hHoists.supplied hTail hResult with
          ⟨read, hInput, hSlot, _⟩
        exact .of_value_eq (.pipe hInput hSlot)
          (fun env => (value_hoisted hHoists hSlot env).symm)

end Tree

end Flwor

------------------------------------------------------------
-- A Stage of a Pipeline
------------------------------------------------------------

namespace Flwor

namespace Tree

section

variable {i : NodeId}
variable {k : Kind}
variable {p : Payload}
variable {ps : Properties}
variable {f : Tree → Tree}
variable {s t input : Tree}
variable {rest : List Tree}

theorem nodup_ids_of_child
    {c : Tree}
    (hNodup : t.ids.Nodup)
    (hC : c ∈ t.children) :
    c.ids.Nodup :=
  nodup_ids_of_subtree hNodup
    (mem_subtrees_of_child hC (mem_subtrees_self c))

/- A replaced stage feeds what the old one fed. -/
theorem Feeding.mapAt
    (hFeeding : Feeding s t)
    (hNodup : t.ids.Nodup) :
    Feeding (f s) (t.mapAt s.id f) := by
  induction hFeeding with
  | here =>
      rw [mapAt_id]
      exact .here
  | input hKind hInput ih =>
      rw [mapAt_of_first hNodup
        (mem_ids_iff.mpr ⟨s, hInput.mem, rfl⟩)]
      exact .input hKind
        (ih (nodup_ids_of_child hNodup (by simp)))
  | left hLeft ih =>
      rw [mapAt_of_first hNodup
        (mem_ids_iff.mpr ⟨s, hLeft.mem, rfl⟩)]
      exact .left (ih (nodup_ids_of_child hNodup (by simp)))
  | right hRight ih =>
      rw [mapAt_of_third hNodup
        (mem_ids_iff.mpr ⟨s, hRight.mem, rfl⟩)]
      exact .right (ih (nodup_ids_of_child hNodup (by simp)))

theorem offSpine_self
    {id : NodeId}
    (hId : t.id = id) :
    t.offSpine id = [] := by
  rcases t with ⟨i, k, p, ps, cs⟩
  rw [offSpine]
  exact if_pos hId

/- What is read beside the first child stays the same. -/
theorem offSpine_first
    {id : NodeId}
    (hSpine : k.hasSpine)
    (hJoin : k ≠ .join)
    (hNodup : (Tree.node i k p ps (input :: rest)).ids.Nodup)
    (hMem : id ∈ input.ids)
    (hInput : (input.mapAt id f).offSpine id =
      input.offSpine id) :
    (mapAt id f (.node i k p ps (input :: rest))).offSpine
        id =
      (Tree.node i k p ps (input :: rest)).offSpine id := by
  rw [mapAt_of_first hNodup hMem, offSpine, offSpine,
    if_neg hJoin, if_neg hJoin, if_pos hSpine, if_pos hSpine,
    offSpineHead, offSpineHead, hInput]

/- What is read off the spine stays the same. -/
theorem Feeding.offSpine_mapAt
    (hFeeding : Feeding s t)
    (hNodup : t.ids.Nodup)
    (hId : (f s).id = s.id) :
    (t.mapAt s.id f).offSpine s.id = t.offSpine s.id := by
  induction hFeeding with
  | here =>
      rw [mapAt_id, offSpine_self hId, offSpine_self rfl]
  | input hKind hInput ih =>
      have hSpine := Kind.hasSpine_of_hasInput hKind
      exact offSpine_first hSpine.1 hSpine.2 hNodup
        (mem_ids_iff.mpr ⟨s, hInput.mem, rfl⟩)
        (ih (nodup_ids_of_child hNodup (by simp)))
  | left hLeft ih =>
      have hBelow := ih (nodup_ids_of_child hNodup (by simp))
      rw [mapAt_of_first hNodup
          (mem_ids_iff.mpr ⟨s, hLeft.mem, rfl⟩),
        offSpine, offSpine, if_pos rfl, if_pos rfl,
        offSpineJoin, offSpineJoin, hBelow]
  | right hRight ih =>
      have hBelow := ih (nodup_ids_of_child hNodup (by simp))
      rw [mapAt_of_third hNodup
          (mem_ids_iff.mpr ⟨s, hRight.mem, rfl⟩),
        offSpine, offSpine, if_pos rfl, if_pos rfl,
        offSpineJoin, offSpineJoin, hBelow]

end

/- The same up to a whole pipeline. -/
theorem offSpine_pipeline_mapAt
    {i j : NodeId}
    {p q : Payload}
    {ps qs : Properties}
    {tail : Tree}
    (hNodup : (Tree.node i .pipeExpr p ps
      [.node j .finish q qs (tail :: rest)]).ids.Nodup)
    (hFeeding : Feeding s tail)
    (hId : (f s).id = s.id) :
    (mapAt s.id f (.node i .pipeExpr p ps
        [.node j .finish q qs (tail :: rest)])).offSpine
          s.id =
      (Tree.node i .pipeExpr p ps
        [.node j .finish q qs (tail :: rest)]).offSpine
          s.id := by
  have hTail := mem_ids_iff.mpr ⟨s, hFeeding.mem, rfl⟩
  have hBelow := nodup_ids_of_child hNodup List.mem_cons_self
  have hFinish : s.id ∈
      (Tree.node j .finish q qs (tail :: rest)).ids := by
    rw [ids, idsAll]
    exact List.mem_cons_of_mem _
      (List.mem_append_left _ hTail)
  exact offSpine_first rfl (by simp) hNodup hFinish
    (offSpine_first rfl (by simp) hBelow hTail
      (hFeeding.offSpine_mapAt
        (nodup_ids_of_child hBelow List.mem_cons_self) hId))

/- Putting the old tree back undoes a replacement. -/
theorem mapAt_eq_self
    {id : NodeId}
    {f : Tree → Tree}
    {t : Tree}
    (hSame : ∀ r ∈ t.subtrees, r.id = id → f r = r) :
    t.mapAt id f = t := by
  induction t using Tree.induction with
  | node i k p ps cs ih =>
      by_cases hId : i = id
      · subst hId
        rw [mapAt_self]
        exact hSame _ (mem_subtrees_self _) rfl
      · have hParts (c : Tree) (hC : c ∈ cs) :
            c.mapAt id f = c :=
          ih c hC (fun r hR =>
            hSame r (mem_subtrees_of_child hC hR))
        rw [mapAt_of_ne hId, List.map_congr_left hParts,
          List.map_id']

theorem mapAt_restored
    {s u t : Tree}
    (hNodup : t.ids.Nodup)
    (hS : s ∈ t.subtrees)
    (hId : u.id = s.id) :
    (t.mapAt s.id (fun _ => u)).mapAt u.id (fun _ => s) =
      t := by
  rw [mapAt_mapAt (fun r hR => hId ▸ around_ne hR), mapAt_id]
  exact mapAt_eq_self (fun r hR hSame =>
    (eq_of_id_eq hNodup hR hS hSame).symm)

variable {library : Library}
variable {lost : Set String}
variable {s s' u : Tree}

/- A pipeline around a stage is one around a replaced one. -/
theorem Encloses.mapAt
    (hEncloses : Encloses lost s u)
    (hIsStage : s.kind.isStage ∧ s'.kind.isStage)
    (hId : s'.id = s.id)
    (hShaped : s'.Shaped)
    (hLacks : s'.Lacks Properties.project)
    (hNodup : (u.mapAt s.id (fun _ => s')).ids.Nodup) :
    Encloses lost s' (u.mapAt s.id (fun _ => s')) := by
  have hSame (r : Tree) (hR : r ∈ u.subtrees)
      (hSelf : r.id = s.id) : r = s :=
    eq_of_id_eq hEncloses.nodup hR hEncloses.mem hSelf
  have hNe (r : Tree) (hR : r ∈ u.subtrees)
      (hStage : r.kind.isStage = false) : r.id ≠ s.id := by
    intro hSelf
    rw [hSame r hR hSelf, hIsStage.1] at hStage
    cases hStage
  have hRole (r : Tree) (hR : r ∈ u.subtrees)
      (hSelf : r.id = s.id) : r.SameRole s' := by
    rw [hSame r hR hSelf]
    exact .inl hIsStage
  refine ⟨shaped_mapAt hEncloses.shaped hRole
      (fun _ _ _ => hShaped),
    lacks_mapAt hEncloses.lacks (fun _ _ _ => hLacks), hNodup,
    mem_subtrees_mapAt (mem_ids_iff.mpr
      ⟨s, hEncloses.mem, rfl⟩), ?_⟩
  rcases hEncloses.parts with
    ⟨i, p, ps, j, q, qs, tail, rest, rfl, hParts⟩
  have hPipe : i ≠ s.id := hNe _ (mem_subtrees_self _) rfl
  have hFinish : j ≠ s.id := hNe _ (mem_subtrees_of_child
    List.mem_cons_self (mem_subtrees_self _)) rfl
  refine ⟨i, p, ps, j, q, qs, tail.mapAt s.id (fun _ => s'),
    rest.map (Tree.mapAt s.id (fun _ => s')), ?_, ?_⟩
  · rw [mapAt_of_ne hPipe, List.map_singleton,
      mapAt_of_ne hFinish, List.map_cons]
  rcases hParts with ⟨hFeeding, hUnread⟩ | ⟨t, hT, hStage⟩
  · have hBelow := nodup_ids_of_child hEncloses.nodup
      List.mem_cons_self
    refine .inl ⟨hFeeding.mapAt (f := fun _ => s')
      (nodup_ids_of_child hBelow List.mem_cons_self), ?_⟩
    rw [hId, offSpine_pipeline_mapAt hEncloses.nodup hFeeding
      hId]
    exact hUnread
  · refine .inr ⟨_, List.mem_map_of_mem hT, ?_⟩
    refine (sameRole_mapAt (fun r hR => hRole r ?_)).isStage
      hStage
    exact mem_subtrees_of_child List.mem_cons_self
      (mem_subtrees_of_child (List.mem_cons_of_mem _ hT) hR)

/-
  If two stages can replace each other but for names that are
  not read around them, then so can their pipelines.
-/
theorem Encloses.swaps
    (hEncloses : Encloses lost s u)
    (hIsStage : s.kind.isStage ∧ s'.kind.isStage)
    (hId : s'.id = s.id)
    (hShaped : s'.Shaped)
    (hLacks : s'.Lacks Properties.project)
    (hNodup : (u.mapAt s.id (fun _ => s')).ids.Nodup)
    (hForth : Replaces library False lost s s')
    (hBack : Replaces library False lost s' s) :
    Swaps library u (u.mapAt s.id (fun _ => s')) := by
  have hAfter := hEncloses.mapAt hIsStage hId hShaped hLacks
    hNodup
  have hRestored :=
    mapAt_restored hEncloses.nodup hEncloses.mem hId
  have hReplaces := hAfter.replaces hIsStage.symm
    (by rw [hRestored]; exact hEncloses.lacks) hBack
  rw [hRestored] at hReplaces
  exact ⟨(hEncloses.replaces hIsStage hAfter.lacks
    hForth).serves, hReplaces.serves⟩

/- A pipeline takes the place of another one as a tree. -/
theorem Replaces.of_serves
    {pipe pipe' : Tree}
    (hKind : pipe.kind = .pipeExpr)
    (hServes : ∀ names, ReadsFrom library False names pipe →
      Serves library False names pipe pipe') :
    Replaces library False ∅ pipe pipe' := by
  refine ⟨fun names _ => hServes names,
    fun _ _ _ _ hSupplies => ?_⟩
  rcases pipe with ⟨i, k, p, ps, cs⟩
  cases hKind
  cases hSupplies

/- The trees around two pipelines. -/
theorem Swaps.above
    {pipe pipe' : Tree}
    (hSwaps : Swaps library pipe pipe')
    (hShaped : u.Shaped)
    (hLacks : u.Lacks Properties.project)
    (hNodup : u.ids.Nodup)
    (hPipe : pipe ∈ u.subtrees)
    (hKind : pipe.kind = .pipeExpr)
    (hKind' : pipe'.kind = .pipeExpr)
    (hId : pipe'.id = pipe.id)
    (hShaped' : pipe'.Shaped)
    (hLacks' : pipe'.Lacks Properties.project)
    (hNodup' :
      (u.mapAt pipe.id (fun _ => pipe')).ids.Nodup) :
    Swaps library u (u.mapAt pipe.id (fun _ => pipe')) := by
  have hRole (r : Tree) (hR : r ∈ u.subtrees)
      (hSelf : r.id = pipe.id) : r.SameRole pipe' := by
    rw [eq_of_id_eq hNodup hR hPipe hSelf]
    exact .inr (hKind.trans hKind'.symm)
  have hBack := Replaces.above
    (shaped_mapAt hShaped hRole (fun _ _ _ => hShaped'))
    (lacks_mapAt hLacks (fun _ _ _ => hLacks')) hNodup'
    (mem_subtrees_mapAt (mem_ids_iff.mpr ⟨pipe, hPipe, rfl⟩))
    hKind' hKind (hLacks.subtree hPipe)
    (.of_serves hKind' hSwaps.back)
  rw [mapAt_restored hNodup hPipe hId] at hBack
  exact ⟨(Replaces.above hShaped hLacks hNodup hPipe hKind
    hKind' hLacks' (.of_serves hKind hSwaps.forth)).serves,
    hBack.serves⟩

end Tree

end Flwor
