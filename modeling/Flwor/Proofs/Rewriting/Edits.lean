import Flwor.Proofs.Rewriting.Links
import Flwor.Walk

/-
  What each edit achieves where it is in place: that it
  succeeds, and the plan that it leaves.

  Key definitions include:
    * `Achieves`, `Edit.Achieves`, `Walk.Achieves`
    * `Plan.Grown`

  Key theorems include:
    * `Achieves.bind`
    * `Edit.achieves_insert`, `Edit.achieves_remove`,
      `Edit.achieves_replace`
    * `Edit.achieves_addWith`
-/

------------------------------------------------------------
-- Successful Actions
------------------------------------------------------------

namespace Flwor

variable {σ α β : Type}
variable {s : σ}

/- An action succeeds, with an answer and a state as stated. -/
def Achieves
    (action : ExceptT Failure (StateM σ) α)
    (before : σ)
    (post : α → σ → Prop) : Prop :=
  ∃ x after,
    StateT.run (ExceptT.run action) before =
      (.ok x, after) ∧ post x after

/- The same, for edits of a plan. -/
abbrev Edit.Achieves
    (edit : Edit α)
    (before : Plan)
    (post : α → Plan → Prop) : Prop :=
  Flwor.Achieves edit before post

/- The same, for steps of a walk. -/
abbrev Walk.Achieves
    (walk : Walk σ α)
    (before : WalkState σ)
    (post : α → WalkState σ → Prop) : Prop :=
  Flwor.Achieves walk before post

namespace Achieves

variable {action : ExceptT Failure (StateM σ) α}
variable {post : α → σ → Prop}

theorem mono
    {post' : α → σ → Prop}
    (hAction : Achieves action s post)
    (hMono : ∀ x after, post x after → post' x after) :
    Achieves action s post' := by
  rcases hAction with ⟨x, after, hRun, hPost⟩
  exact ⟨x, after, hRun, hMono x after hPost⟩

/- One action after the other. -/
theorem bind
    {next : α → ExceptT Failure (StateM σ) β}
    {post' : β → σ → Prop}
    (hAction : Achieves action s post)
    (hNext : ∀ x middle, post x middle →
      Achieves (next x) middle post') :
    Achieves (action >>= next) s post' := by
  rcases hAction with ⟨x, middle, hRun, hPost⟩
  rcases hNext x middle hPost with ⟨y, after, hRun', hPost'⟩
  refine ⟨y, after, ?_, hPost'⟩
  rw [ExceptT.run_bind, StateT.run_bind, hRun]
  exact hRun'

end Achieves

theorem achieves_return
    {x : α}
    {post : α → σ → Prop}
    (hPost : post x s) :
    Achieves (pure x : ExceptT Failure (StateM σ) α) s
      post :=
  ⟨x, s, rfl, hPost⟩

theorem achieves_modify
    {change : σ → σ}
    {post : Unit → σ → Prop}
    (hPost : post () (change s)) :
    Achieves
      (modify change : ExceptT Failure (StateM σ) Unit) s
      post :=
  ⟨(), change s, rfl, hPost⟩

theorem achieves_set
    {next : σ}
    {post : Unit → σ → Prop}
    (hPost : post () next) :
    Achieves (set next : ExceptT Failure (StateM σ) Unit) s
      post :=
  ⟨(), next, rfl, hPost⟩

/- Actions that do something simple first. -/
theorem achieves_return_bind
    {x : α}
    {next : α → ExceptT Failure (StateM σ) β}
    {post : β → σ → Prop}
    (hNext : Achieves (next x) s post) :
    Achieves (pure x >>= next) s post := by
  rw [pure_bind]
  exact hNext

theorem achieves_modify_bind
    {change : σ → σ}
    {next : Unit → ExceptT Failure (StateM σ) α}
    {post : α → σ → Prop}
    (hNext : Achieves (next ()) (change s) post) :
    Achieves (modify change >>= next) s post := by
  have hModify : Achieves
      (modify change : ExceptT Failure (StateM σ) Unit) s
      (fun _ after => after = change s) :=
    achieves_modify rfl
  refine hModify.bind ?_
  rintro _ _ rfl
  exact hNext

theorem achieves_set_bind
    {middle : σ}
    {next : Unit → ExceptT Failure (StateM σ) α}
    {post : α → σ → Prop}
    (hNext : Achieves (next ()) middle post) :
    Achieves (set middle >>= next) s post := by
  have hSet : Achieves
      (set middle : ExceptT Failure (StateM σ) Unit) s
      (fun _ after => after = middle) :=
    achieves_set rfl
  refine hSet.bind ?_
  rintro _ _ rfl
  exact hNext

/- Actions that look at the state first. -/
theorem achieves_get_bind
    {next : σ → ExceptT Failure (StateM σ) α}
    {post : α → σ → Prop}
    (hNext : Achieves (next s) s post) :
    Achieves (get >>= next) s post := by
  have hGet : Achieves
      (get : ExceptT Failure (StateM σ) σ) s
      (fun x after => x = s ∧ after = s) :=
    ⟨s, s, rfl, rfl, rfl⟩
  refine hGet.bind ?_
  rintro x middle ⟨rfl, rfl⟩
  exact hNext

end Flwor

------------------------------------------------------------
-- Single Edits
------------------------------------------------------------

namespace Flwor

namespace Edit

variable {plan : Plan}
variable {p c old new : NodeId}
variable {index : Nat}

theorem achieves_add
    (kind : Kind)
    (payload : Payload)
    (properties : Properties) :
    (add kind payload properties).Achieves plan
      (fun id after => id = plan.size ∧
        after = plan.grow kind payload properties) := by
  refine achieves_get_bind ?_
  exact achieves_set_bind (achieves_return ⟨rfl, rfl⟩)

theorem achieves_requireDetached
    (hDetached : plan.Detached c) :
    (requireDetached c).Achieves plan
      (fun _ after => after = plan) := by
  refine achieves_get_bind ?_
  have hAttached : plan.isAttached c = false := by
    rw [Plan.isAttached, hDetached.parent]
    simpa using hDetached.root
  rw [hAttached, if_neg (by simp)]
  exact achieves_return rfl

theorem achieves_insert
    (hDetached : plan.Detached c)
    (hIndex : index ≤ (plan.children p).length) :
    (insert p index c).Achieves plan
      (fun _ after => after = plan.attach p index c) := by
  refine (achieves_requireDetached hDetached).bind ?_
  rintro _ _ rfl
  refine achieves_get_bind ?_
  rw [if_neg (Nat.not_lt.mpr hIndex)]
  exact achieves_set rfl

theorem achieves_append
    (hDetached : plan.Detached c) :
    (append p c).Achieves plan
      (fun _ after =>
        after =
          plan.attach p (plan.children p).length c) :=
  achieves_get_bind
    (achieves_insert hDetached (Nat.le_refl _))

theorem achieves_remove
    (hChild : plan.child? p index = some c) :
    (remove p index).Achieves plan
      (fun removed after => c = removed ∧
        after = plan.detach p index c) := by
  refine achieves_get_bind ?_
  rw [hChild]
  exact achieves_set_bind (achieves_return ⟨rfl, rfl⟩)

theorem achieves_replaceChild
    (hChild : plan.child? p index = some old)
    (hDetached : plan.Detached new) :
    (replaceChild p index new).Achieves plan
      (fun removed after => old = removed ∧
        after = plan.exchange p index old new) := by
  refine (achieves_requireDetached hDetached).bind ?_
  rintro _ _ rfl
  refine achieves_get_bind ?_
  rw [hChild]
  exact achieves_set_bind (achieves_return ⟨rfl, rfl⟩)

/- A node with a parent is replaced among its siblings. -/
theorem achieves_replace
    (hLinked : plan.Linked)
    (hParent : plan.parent? old = some p)
    (hDetached : plan.Detached new) :
    ∃ index, plan.child? p index = some old ∧
      (replace old new).Achieves plan
        (fun _ after =>
          after = plan.exchange p index old new) := by
  rcases hLinked.exists_indexInParent? hParent with
    ⟨index, hIndex, hChild⟩
  refine ⟨index, hChild, achieves_get_bind ?_⟩
  rw [if_neg (hLinked.ne_root_of_parent? hParent), hParent,
    hIndex]
  refine (achieves_replaceChild hChild hDetached).bind ?_
  rintro _ _ ⟨_, rfl⟩
  exact achieves_return rfl

/- Changes of annotations leave the links alone. -/
theorem sameLinks_setProperty
    (plan : Plan)
    (id : NodeId)
    (key : String)
    (value : Property) :
    plan.SameLinks (plan.setProperty id key value) := by
  have hNode (x : NodeId) :
      (plan.setProperty id key value).node x =
        plan.node x ∨
      (plan.setProperty id key value).node x =
        { plan.node x with
          properties := Properties.put key value
            (plan.node x).properties } := by
    rw [Plan.setProperty, Plan.node_modify]
    split
    · exact .inr rfl
    · exact .inl rfl
  refine ⟨rfl, Plan.size_modify .., fun x => ?_,
    fun x => ?_, fun x => ?_, fun x => ?_⟩
  · rcases hNode x with h | h <;> rw [Plan.kind, h] <;> rfl
  · rcases hNode x with h | h <;>
      rw [Plan.payload, h] <;> rfl
  · rcases hNode x with h | h <;>
      rw [Plan.children, h] <;> rfl
  · rcases hNode x with h | h <;>
      rw [Plan.parent?, h] <;> rfl

theorem sameLinks_eraseProperty
    (plan : Plan)
    (id : NodeId)
    (key : String) :
    plan.SameLinks (plan.eraseProperty id key) := by
  have hNode (x : NodeId) :
      (plan.eraseProperty id key).node x = plan.node x ∨
      (plan.eraseProperty id key).node x =
        { plan.node x with
          properties :=
            (plan.node x).properties.erase key } := by
    rw [Plan.eraseProperty, Plan.node_modify]
    split
    · exact .inr rfl
    · exact .inl rfl
  refine ⟨rfl, Plan.size_modify .., fun x => ?_,
    fun x => ?_, fun x => ?_, fun x => ?_⟩
  · rcases hNode x with h | h <;> rw [Plan.kind, h] <;> rfl
  · rcases hNode x with h | h <;>
      rw [Plan.payload, h] <;> rfl
  · rcases hNode x with h | h <;>
      rw [Plan.children, h] <;> rfl
  · rcases hNode x with h | h <;>
      rw [Plan.parent?, h] <;> rfl

theorem achieves_setProperty
    (id : NodeId)
    (key : String)
    (value : Property) :
    (setProperty id key value).Achieves plan
      (fun _ after => plan.SameLinks after) :=
  achieves_modify (sameLinks_setProperty plan id key value)

theorem achieves_eraseProperty
    (id : NodeId)
    (key : String) :
    (eraseProperty id key).Achieves plan
      (fun _ after => plan.SameLinks after) :=
  achieves_modify (sameLinks_eraseProperty plan id key)

theorem achieves_fresh
    (hint : String) :
    (fresh hint).Achieves plan
      (fun _ after => plan.SameLinks after) := by
  refine achieves_get_bind ?_
  have hSame : plan.SameLinks
      { plan with counter := plan.freshNumber hint } :=
    ⟨rfl, rfl, fun _ => rfl, fun _ => rfl, fun _ => rfl,
      fun _ => rfl⟩
  exact achieves_set_bind (achieves_return hSame)

end Edit

end Flwor

------------------------------------------------------------
-- New Nodes With Children
------------------------------------------------------------

namespace Flwor

namespace Plan

/- A plan with one more node, which took some children. -/
structure Grown
    (before : Plan)
    (k : Kind)
    (payload : Payload)
    (cs : List NodeId)
    (id : NodeId)
    (after : Plan) : Prop where
  linked : after.Linked
  edited : before.Edited ∅ {c | c ∈ cs} after
  fresh : id = before.size
  size : after.size = before.size + 1
  kind : after.kind id = k
  payload : after.payload id = payload
  children : after.children id = cs
  detached : after.Detached id
  adopted : ∀ c ∈ cs, after.parent? c = some id

namespace Grown

variable {start before middle after : Plan}
variable {touched moved : Set NodeId}
variable {k : Kind}
variable {payload : Payload}
variable {cs : List NodeId}
variable {id x : NodeId}

theorem size_le
    (hGrown : before.Grown k payload cs id after) :
    before.size ≤ id :=
  hGrown.fresh.ge

/- The new node is none of those from before. -/
theorem ne_of_lt
    (hGrown : before.Grown k payload cs id after)
    (hX : x < before.size) :
    x ≠ id :=
  (Nat.lt_of_lt_of_le hX hGrown.size_le).ne

/- Of the children only those from before have moved. -/
theorem edited_of
    (hGrown : middle.Grown k payload cs id after)
    (hEdited : start.Edited touched moved middle)
    (hTaken : ∀ c ∈ cs, c < start.size → c ∈ moved) :
    start.Edited touched moved after := by
  refine (hEdited.trans hGrown.edited).narrow ?_ ?_
  · rintro x (hX | hX) _
    · exact hX
    · exact hX.elim
  · rintro x (hX | hX) hOld
    · exact hX
    · exact hTaken x hX hOld

end Grown

/- A node without children. -/
theorem grown_grow
    {plan : Plan}
    (hLinked : plan.Linked)
    (hRoot : plan.root < plan.size)
    (k : Kind)
    (payload : Payload)
    (properties : Properties) :
    plan.Grown k payload [] plan.size
      (plan.grow k payload properties) := by
  refine ⟨hLinked.grow k payload properties, ?_, rfl,
    size_grow .., kind_grow .., payload_grow .., ?_,
    detached_grow hRoot k payload properties, by simp⟩
  · exact (edited_grow plan k payload properties).mono
      (by simp) (by simp)
  · rw [children_grow, children,
      node_of_size_le (Nat.le_refl _)]
    rfl

/- A new node takes one more child. -/
theorem Grown.append
    {before plan : Plan}
    {k : Kind}
    {payload : Payload}
    {cs : List NodeId}
    {id c : NodeId}
    (hGrown : before.Grown k payload cs id plan)
    (hDetached : before.Detached c)
    (hNew : c ∉ cs) :
    before.Grown k payload (cs ++ [c]) id
      (plan.attach id (plan.children id).length c) := by
  have hC : c < before.size := hDetached.lt
  have hNe : c ≠ id := hGrown.ne_of_lt hC
  have hStill : plan.Detached c :=
    hGrown.edited.detached hDetached hNew
  have hId : id < plan.size := hGrown.detached.lt
  have hStep : plan.Edited {id} {c}
      (plan.attach id (plan.children id).length c) :=
    edited_attach hStill hId
  refine ⟨hGrown.linked.attach hStill hId (Nat.le_refl _),
    ?_, hGrown.fresh, ?_, ?_, ?_, ?_, ?_, ?_⟩
  · refine ⟨hStep.root.trans hGrown.edited.root,
      Nat.le_trans hGrown.edited.size hStep.size,
      fun x hX => ?_, fun x hX => ?_, fun x hX _ => ?_,
      fun x hX hNot => ?_⟩
    all_goals
      have hX' : x < plan.size := hGrown.edited.lt hX
      have hXId : x ≠ id := hGrown.ne_of_lt hX
    · rw [hStep.kind x hX', hGrown.edited.kind x hX]
    · rw [hStep.payload x hX', hGrown.edited.payload x hX]
    · rw [hStep.children x hX' (by simpa using hXId),
        hGrown.edited.children x hX (by simp)]
    · simp only [Set.mem_ofPred_eq, List.mem_append,
        List.mem_singleton, not_or] at hNot
      rw [hStep.parent x hX' (by simpa using hNot.2),
        hGrown.edited.parent x hX hNot.1]
  · rw [attach, size_setParent, size_setChildren,
      hGrown.size]
  · rw [hStep.kind id hId, hGrown.kind]
  · rw [hStep.payload id hId, hGrown.payload]
  · rw [children_attach hId, if_pos rfl, hGrown.children]
    exact List.insertIdx_length_self
  · refine ⟨by simpa [attach] using hId, ?_,
      hGrown.detached.root⟩
    rw [parent?_attach hStill, if_neg (Ne.symm hNe)]
    exact hGrown.detached.parent
  · intro d hD
    rw [parent?_attach hStill]
    rcases List.mem_append.mp hD with hD | hD
    · split
      · rfl
      · exact hGrown.adopted d hD
    · rw [if_pos (by simpa using hD)]

end Plan

namespace Edit

variable {plan : Plan}

theorem achieves_forM_append
    {before : Plan}
    {k : Kind}
    {payload : Payload}
    {done : List NodeId}
    {id : NodeId}
    (hGrown : before.Grown k payload done id plan)
    (cs : List NodeId)
    (hDetached : ∀ c ∈ cs, before.Detached c)
    (hNodup : (done ++ cs).Nodup) :
    (cs.forM (append id)).Achieves plan
      (fun _ after =>
        before.Grown k payload (done ++ cs) id after) := by
  induction cs generalizing done plan with
  | nil =>
      rw [List.append_nil]
      exact achieves_return hGrown
  | cons c rest ih =>
      have hC := hDetached c List.mem_cons_self
      have hNew : c ∉ done := by
        intro hMem
        exact (List.nodup_append.mp hNodup).2.2 c hMem c
          List.mem_cons_self rfl
      have hNext := hGrown.append hC hNew
      have hStill : plan.Detached c :=
        hGrown.edited.detached hC hNew
      change (append id c >>= fun _ =>
        rest.forM (append id)).Achieves plan _
      refine (achieves_append hStill).bind ?_
      rintro _ _ rfl
      have hRest := ih hNext
        (fun d hD => hDetached d (List.mem_cons_of_mem _ hD))
        (by simpa using hNodup)
      simpa using hRest

/- A new node takes over detached nodes. -/
theorem achieves_addWith
    (hLinked : plan.Linked)
    (hRoot : plan.root < plan.size)
    (k : Kind)
    (payload : Payload)
    (cs : List NodeId)
    (hDetached : ∀ c ∈ cs, plan.Detached c)
    (hNodup : cs.Nodup) :
    (addWith k payload cs).Achieves plan
      (fun id after => plan.Grown k payload cs id after) := by
  refine (achieves_add k payload []).bind ?_
  rintro _ _ ⟨rfl, rfl⟩
  have hGrown := Plan.grown_grow hLinked hRoot k payload []
  refine (achieves_forM_append hGrown cs hDetached
    hNodup).bind ?_
  exact fun _ after hAfter => achieves_return hAfter

end Edit

end Flwor
