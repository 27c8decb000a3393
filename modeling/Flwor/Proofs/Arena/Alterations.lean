import Flwor.Proofs.Arena.Holding

/-
  What successful edits do to the trees in an arena.

  An edit that leaves the nodes of a tree alone leaves the
  tree in place.  One that puts a node in another's place
  replaces the tree below it.  Nothing is said about edits
  that fail.

  Key definitions include:
    * `Plan.Alters`
    * `Edit.Ensures`

  Key theorems include:
    * `Plan.Sound.holds_exchange`
    * `Edit.ensures_addWith`
-/

------------------------------------------------------------
-- Altered Plans
------------------------------------------------------------

namespace Flwor

namespace Plan

@[simp] theorem properties_setParent
    (plan : Plan)
    (id x : NodeId)
    (parent : Option NodeId) :
    (plan.setParent id parent).properties x =
      plan.properties x := by
  unfold properties setParent
  rw [node_modify]
  split <;> rfl

@[simp] theorem properties_setChildren
    (plan : Plan)
    (id x : NodeId)
    (children : List NodeId) :
    (plan.setChildren id children).properties x =
      plan.properties x := by
  unfold properties setChildren
  rw [node_modify]
  split <;> rfl

/- A plan in which only some nodes have been changed. -/
structure Alters
    (before : Plan)
    (touched : Set NodeId)
    (after : Plan) : Prop where
  sound : after.Sound
  root : after.root = before.root
  size : before.size ≤ after.size
  spared : ∀ t, t.id ∉ touched → before.Stands t →
    after.Stands t

namespace Alters

variable {before middle after : Plan}
variable {touched touched' : Set NodeId}

theorem trans
    (hFirst : before.Alters touched middle)
    (hSecond : middle.Alters touched' after) :
    before.Alters (touched ∪ touched') after where
  sound := hSecond.sound
  root := hSecond.root.trans hFirst.root
  size := hFirst.size.trans hSecond.size
  spared t hNot hStands :=
    hSecond.spared t (fun hMem => hNot (.inr hMem))
      (hFirst.spared t (fun hMem => hNot (.inl hMem))
        hStands)

/- Nodes that are new have not been changed. -/
theorem narrow
    (hAlters : before.Alters touched after)
    (hTouched : ∀ x ∈ touched, x < before.size →
      x ∈ touched') :
    before.Alters touched' after where
  sound := hAlters.sound
  root := hAlters.root
  size := hAlters.size
  spared t hNot hStands :=
    hAlters.spared t
      (fun hMem => hNot (hTouched _ hMem hStands.lt)) hStands

/- A tree without changed nodes stays in place. -/
theorem holds
    {t : Tree}
    (hAlters : before.Alters touched after)
    (hHolds : before.Holds t)
    (hNot : ∀ x ∈ t.ids, x ∉ touched) :
    after.Holds t := by
  intro s hS
  exact hAlters.spared s
    (hNot _ (Tree.mem_ids_iff.mpr ⟨s, hS, rfl⟩))
    (hHolds s hS)

/- A node keeps its parent if the parent is not changed. -/
theorem parent?_eq
    {p x : NodeId}
    (hAlters : before.Alters touched after)
    (hLinked : before.Linked)
    (hUp : before.parent? x = some p)
    (hNot : p ∉ touched) :
    after.parent? x = some p := by
  have hMem := (hLinked.mem_children_iff p x).mpr hUp
  have hStands : before.Stands (.node p (before.kind p)
      (before.payload p) (before.properties p)
      ((before.children p).map
        (fun c => .node c .start .none [] []))) := by
    refine ⟨lt_size_of_mem_children hMem, rfl, rfl, rfl, ?_⟩
    simp [Tree.children, Tree.id, Function.comp_def]
  have hKept : after.children p = _ :=
    (hAlters.spared (.node p _ _ _ _) hNot hStands).children
  refine hAlters.sound.linked.parent?_of_mem ?_
  rw [hKept]
  simpa [Tree.children, Tree.id, Function.comp_def] using hMem

end Alters

variable {plan : Plan}
variable {p c old new i : NodeId}
variable {index : Nat}
variable {k : Kind}
variable {q : Payload}
variable {ps : Properties}
variable {cs : List Tree}

theorem Stands.links
    (hStands : plan.Stands (.node i k q ps cs)) :
    plan.children i = cs.map Tree.id :=
  hStands.children

/- A node with other children is as it was otherwise. -/
theorem Stands.edited
    {after : Plan}
    {touched moved : Set NodeId}
    {cs' : List Tree}
    (hStands : plan.Stands (.node i k q ps cs))
    (hEdited : plan.Edited touched moved after)
    (hProperties : after.properties i = plan.properties i)
    (hChildren : after.children i = cs'.map Tree.id) :
    after.Stands (.node i k q ps cs') where
  lt := hEdited.lt hStands.lt
  kind := (hEdited.kind i hStands.lt).trans hStands.kind
  payload :=
    (hEdited.payload i hStands.lt).trans hStands.payload
  properties := hProperties.trans hStands.properties
  children := hChildren

theorem properties_grow
    (x : NodeId)
    (hX : x < plan.size) :
    (plan.grow k q ps).properties x = plan.properties x := by
  unfold properties
  rw [node_grow, if_neg (Nat.ne_of_lt hX)]

theorem Sound.alters_grow
    (hSound : plan.Sound)
    (k : Kind)
    (q : Payload)
    (ps : Properties) :
    plan.Alters ∅ (plan.grow k q ps) ∧
      (plan.grow k q ps).Stands
        (.node plan.size k q ps []) := by
  have hEdited := edited_grow plan k q ps
  refine ⟨⟨?_, rfl, hEdited.size, ?_⟩, ?_⟩
  · exact (Move.grow plan k q ps :
      Move (fun _ _ _ => True) _ _).sound hSound
  · rintro ⟨i, k', q', ps', cs⟩ _ hStands
    refine hStands.edited hEdited
      (properties_grow i hStands.lt) ?_
    rw [children_grow]
    exact hStands.children
  · refine ⟨?_, kind_grow .., payload_grow .., ?_, ?_⟩
    · rw [size_grow]
      exact Nat.lt_succ_self _
    · unfold properties
      rw [Tree.id, node_grow, if_pos rfl]
      rfl
    · rw [children_grow, children, Tree.id,
        node_of_size_le le_rfl]
      rfl

theorem Sound.alters_detach
    (hSound : plan.Sound)
    (hChild : plan.child? p index = some c) :
    plan.Alters {p} (plan.detach p index c) ∧
      ∀ k q ps cs, plan.Stands (.node p k q ps cs) →
        (plan.detach p index c).Stands
          (.node p k q ps (cs.eraseIdx index)) := by
  have hEdited := edited_detach hSound.linked hChild
  refine ⟨⟨?_, rfl, hEdited.size, ?_⟩, ?_⟩
  · exact (Move.detach hChild :
      Move (fun _ _ _ => True) _ _).sound hSound
  · rintro ⟨i, k, q, ps, cs⟩ hNot hStands
    refine hStands.edited hEdited (by simp [detach]) ?_
    rw [hEdited.children i hStands.lt hNot]
    exact hStands.children
  · intro k q ps cs hStands
    refine hStands.edited hEdited (by simp [detach]) ?_
    rw [children_detach hChild, if_pos rfl, hStands.links,
      List.eraseIdx_map]

theorem Sound.alters_attach
    (hSound : plan.Sound)
    (hDetached : plan.Detached c)
    (hP : p < plan.size)
    (hIndex : index ≤ (plan.children p).length) :
    plan.Alters {p} (plan.attach p index c) ∧
      ∀ k q ps cs t, t.id = c →
        plan.Stands (.node p k q ps cs) →
        (plan.attach p index c).Stands
          (.node p k q ps (cs.insertIdx index t)) := by
  have hEdited :
      plan.Edited {p} {c} (plan.attach p index c) :=
    edited_attach hDetached hP
  refine ⟨⟨?_, rfl, hEdited.size, ?_⟩, ?_⟩
  · exact (Move.attach hDetached hP hIndex trivial :
      Move (fun _ _ _ => True) _ _).sound hSound
  · rintro ⟨i, k, q, ps, cs⟩ hNot hStands
    refine hStands.edited hEdited (by simp [attach]) ?_
    rw [hEdited.children i hStands.lt hNot]
    exact hStands.children
  · rintro k q ps cs t rfl hStands
    refine hStands.edited hEdited (by simp [attach]) ?_
    rw [children_attach hP, if_pos rfl, hStands.links,
      List.map_insertIdx]

/- A node with other annotations is as it was otherwise. -/
theorem SameLinks.alters
    {after : Plan}
    {ps' : Properties}
    (hSame : plan.SameLinks after)
    (hSound : plan.Sound)
    (hStands : plan.Stands (.node i k q ps cs))
    (hHere : after.properties i = ps')
    (hOthers : ∀ x ≠ i,
      after.properties x = plan.properties x) :
    plan.Alters {i} after ∧
      after.Stands (.node i k q ps' cs) := by
  refine ⟨⟨⟨hSame.linked hSound.linked, ?_⟩, hSame.root,
    hSame.size.ge, fun t hNot hT => ?_⟩, ?_⟩
  · rw [hSame.root, hSame.size]
    exact hSound.root_lt
  · exact ⟨hSame.size.symm ▸ hT.lt,
      (hSame.kind _).trans hT.kind,
      (hSame.payload _).trans hT.payload,
      (hOthers _ hNot).trans hT.properties,
      (hSame.children _).trans hT.children⟩
  · exact ⟨hSame.size.symm ▸ hStands.lt,
      (hSame.kind _).trans hStands.kind,
      (hSame.payload _).trans hStands.payload, hHere,
      (hSame.children _).trans hStands.children⟩

/- Whoever had a child has the one in its place. -/
theorem Sound.stands_exchange
    (hSound : plan.Sound)
    (hChild : plan.child? p index = some old)
    (hDetached : plan.Detached new) :
    (plan.exchange p index old new).Sound ∧
      ∀ i k q ps cs cs', plan.Stands (.node i k q ps cs) →
        cs'.map Tree.id = (cs.map Tree.id).map
          (fun c => if c = old then new else c) →
        (plan.exchange p index old new).Stands
          (.node i k q ps cs') := by
  constructor
  · exact (Move.exchange hChild hDetached trivial :
      Move (fun _ _ _ => True) _ _).sound hSound
  · intro i k q ps cs cs' hStands hChildren
    refine hStands.edited
      (edited_exchange hSound.linked hChild hDetached)
      (by simp [exchange]) ?_
    rw [children_exchange_eq_map hSound.linked hChild,
      hChildren]
    exact congrArg _ hStands.children

theorem Sound.alters_exchange
    (hSound : plan.Sound)
    (hChild : plan.child? p index = some old)
    (hDetached : plan.Detached new) :
    plan.Alters {p} (plan.exchange p index old new) := by
  have hEdited :=
    edited_exchange hSound.linked hChild hDetached
  refine ⟨(hSound.stands_exchange hChild hDetached).1, rfl,
    hEdited.size, ?_⟩
  rintro ⟨i, k, q, ps, cs⟩ hNot hStands
  refine hStands.edited hEdited (by simp [exchange]) ?_
  rw [hEdited.children i hStands.lt hNot]
  exact hStands.children

/- A tree without the old child stays in place. -/
theorem Sound.spared_exchange
    {t : Tree}
    (hSound : plan.Sound)
    (hChild : plan.child? p index = some old)
    (hDetached : plan.Detached new)
    (hHolds : plan.Holds t)
    (hOld : old ∉ t.ids) :
    (plan.exchange p index old new).Holds t := by
  rintro ⟨i, k, q, ps, cs⟩ hS
  refine (hSound.stands_exchange hChild hDetached).2 i k q ps
    cs cs (hHolds _ hS) ?_
  have hKept (x : NodeId) (hX : x ∈ cs.map Tree.id) :
      (if x = old then new else x) = x := by
    rcases List.mem_map.mp hX with ⟨c, hC, rfl⟩
    rw [if_neg]
    rintro rfl
    refine hOld (Tree.ids_subset hS _ ?_)
    rw [Tree.ids, List.mem_cons, Tree.mem_idsAll_iff]
    exact .inr ⟨c, hC, c.id_mem_ids⟩
  exact ((List.map_congr_left hKept).trans
    (List.map_id' _)).symm

/- The tree below the new child takes the old one's place. -/
theorem Sound.holds_exchange
    {t u : Tree}
    (hSound : plan.Sound)
    (hChild : plan.child? p index = some old)
    (hDetached : plan.Detached u.id)
    (hAround : ∀ r ∈ t.around old, plan.Stands r)
    (hNew : plan.Holds u)
    (hOld : old ∉ u.ids) :
    (plan.exchange p index old u.id).Holds
      (t.mapAt old (fun _ => u)) := by
  refine holds_mapAt ?_
    (hSound.spared_exchange hChild hDetached hNew hOld)
  rintro ⟨i, k, q, ps, cs⟩ hR
  refine (hSound.stands_exchange hChild hDetached).2 i k q ps
    cs _ (hAround _ hR) ?_
  rw [List.map_map, List.map_map]
  exact List.map_congr_left (fun c _ => Tree.id_mapAt u)

end Plan

end Flwor

------------------------------------------------------------
-- Successful Edits
------------------------------------------------------------

namespace Flwor

namespace Edit

open Plan

/- What holds of the answer and the plan after success. -/
def Ensures
    {α : Type}
    (edit : Edit α)
    (before : Plan)
    (post : α → Plan → Prop) : Prop :=
  ∀ x after, edit.run before = (.ok x, after) → post x after

section Rules

variable {α β : Type}
variable {edit : Edit α}
variable {plan : Plan}
variable {post : α → Plan → Prop}

theorem Ensures.mono
    {post' : α → Plan → Prop}
    (hEdit : edit.Ensures plan post)
    (hMono : ∀ x after, post x after → post' x after) :
    edit.Ensures plan post' :=
  fun x after hRun => hMono x after (hEdit x after hRun)

theorem Ensures.bind
    {next : α → Edit β}
    {post' : β → Plan → Prop}
    (hEdit : edit.Ensures plan post)
    (hNext : ∀ x middle, post x middle →
      (next x).Ensures middle post') :
    (edit >>= next).Ensures plan post' := by
  intro y after hRun
  cases hFirst : edit.run plan with
  | mk answer middle =>
      cases answer with
      | error e =>
          rw [run_bind_of_error hFirst] at hRun
          cases hRun
      | ok x =>
          rw [run_bind_of_ok hFirst] at hRun
          exact hNext x middle (hEdit x middle hFirst) y after
            hRun

theorem ensures_get_bind
    {next : Plan → Edit α}
    (hNext : (next plan).Ensures plan post) :
    Edit.Ensures (get >>= next) plan post :=
  hNext

theorem ensures_return
    {x : α}
    (hPost : post x plan) :
    Edit.Ensures (pure x) plan post := by
  rintro _ _ ⟨⟩
  exact hPost

/- An edit answers whether it has changed the plan. -/
theorem ensures_unchanged
    {post : Plan → Prop} :
    Edit.Ensures (pure false) plan (fun done after =>
      (done = false → after = plan) ∧
        (done = true → post after)) :=
  ensures_return ⟨fun _ => rfl, Bool.noConfusion⟩

theorem ensures_fail
    (d : Defect) :
    Edit.Ensures (fail d : Edit α) plan post := by
  rintro x after ⟨⟩

/- An edit that runs in one way only, if it does not fail. -/
theorem ensures_of_cases
    {x : α}
    {after : Plan}
    (hCases : (∃ e, edit.run plan = (.error e, plan)) ∨
      edit.run plan = (.ok x, after))
    (hPost : post x after) :
    edit.Ensures plan post := by
  rintro x' after' hRun
  rcases hCases with ⟨e, hFailed⟩ | hDone
  · rw [hFailed] at hRun
    cases hRun
  · rw [hDone] at hRun
    cases hRun
    exact hPost

/- An edit that succeeds does so in one way only. -/
theorem Achieves.ensures
    (hAchieves : edit.Achieves plan post) :
    edit.Ensures plan post := by
  rcases hAchieves with ⟨x, after, hRun, hPost⟩
  exact ensures_of_cases (.inr hRun) hPost

/- An edit succeeds, and what it ensures on success holds. -/
theorem Achieves.ensuring
    {post' : α → Plan → Prop}
    (hAchieves : edit.Achieves plan post)
    (hEnsures : edit.Ensures plan post') :
    edit.Achieves plan (fun x after =>
      post x after ∧ post' x after) := by
  rcases hAchieves with ⟨x, after, hRun, hPost⟩
  exact ⟨x, after, hRun, hPost, hEnsures x after hRun⟩

end Rules

variable {plan : Plan}
variable {p : NodeId}
variable {index : Nat}
variable {k : Kind}
variable {q : Payload}
variable {ps : Properties}
variable {cs : List Tree}
variable {t : Tree}

theorem ensures_add
    (hSound : plan.Sound)
    (k : Kind)
    (q : Payload)
    (ps : Properties) :
    (add k q ps).Ensures plan (fun id after =>
      id = plan.size ∧ plan.Alters ∅ after ∧
        after.size = plan.size + 1 ∧
        after.Stands (.node plan.size k q ps [])) := by
  have hGrown := hSound.alters_grow k q ps
  exact ensures_of_cases (.inr rfl)
    ⟨rfl, hGrown.1, size_grow .., hGrown.2⟩

theorem ensures_remove
    (hSound : plan.Sound)
    (hStands : plan.Stands (.node p k q ps cs))
    (hChild : cs[index]? = some t) :
    (remove p index).Ensures plan (fun c after =>
      c = t.id ∧ plan.Alters {p} after ∧
        after.size = plan.size ∧
        after.Stands
          (.node p k q ps (cs.eraseIdx index))) := by
  have hPlace : plan.child? p index = some t.id := by
    rw [child?, hStands.links, List.getElem?_map, hChild]
    rfl
  have hDetach := hSound.alters_detach hPlace
  have hCases :
      (∃ e, (remove p index).run plan = (.error e, plan)) ∨
        (remove p index).run plan =
          (.ok t.id, plan.detach p index t.id) := by
    refine (remove_cases plan p index).imp_right ?_
    rintro ⟨c, hC, hRun⟩
    rw [hPlace] at hC
    cases hC
    exact hRun
  exact ensures_of_cases hCases
    ⟨rfl, hDetach.1, by simp [detach],
      hDetach.2 _ _ _ _ hStands⟩

theorem ensures_append
    (hSound : plan.Sound)
    (hStands : plan.Stands (.node p k q ps cs))
    (hT : t.id < plan.size) :
    (append p t.id).Ensures plan (fun _ after =>
      plan.Alters {p} after ∧ after.size = plan.size ∧
        after.Stands (.node p k q ps (cs ++ [t]))) := by
  have hP : p < plan.size := hStands.lt
  have hLength : (plan.children p).length = cs.length := by
    rw [hStands.links, List.length_map]
  intro x after hRun
  rcases append_cases p hT with
    ⟨e, hFailed⟩ | ⟨hDetached, hDone⟩
  · rw [hFailed] at hRun
    cases hRun
  · rw [hDone] at hRun
    cases hRun
    have hAttach := hSound.alters_attach hDetached hP le_rfl
    have hHere := hAttach.2 k q ps cs t rfl hStands
    rw [hLength, List.insertIdx_length_self, ← hLength]
      at hHere
    exact ⟨hAttach.1, by simp [attach], hHere⟩

/- An edit that changes the annotations of a node only. -/
theorem ensures_modify
    {change : Properties → Properties}
    (hSound : plan.Sound)
    (hStands : plan.Stands (.node p k q ps cs))
    (hSame : plan.SameLinks (plan.modify p (fun n =>
      { n with properties := change n.properties }))) :
    Edit.Ensures (modify (fun plan =>
        plan.modify p (fun n =>
          { n with properties := change n.properties })))
      plan (fun _ after =>
        plan.Alters {p} after ∧ after.size = plan.size ∧
          after.Stands (.node p k q (change ps) cs)) := by
  have hNode (x : NodeId) :
      (plan.modify p (fun n =>
        { n with
          properties := change n.properties })).properties x =
        if p = x ∧ x < plan.size then
          change (plan.properties x)
        else plan.properties x := by
    rw [properties, node_modify]
    split <;> rfl
  have hHere := hNode p
  rw [if_pos ⟨rfl, hStands.lt⟩] at hHere
  have hChanged := hSame.alters hSound hStands
    (hHere.trans (congrArg change hStands.properties))
    (fun x hX =>
      (hNode x).trans (if_neg (fun h => hX h.1.symm)))
  exact ensures_of_cases (.inr rfl)
    ⟨hChanged.1, hSame.size, hChanged.2⟩

theorem ensures_setProperty
    (hSound : plan.Sound)
    (hStands : plan.Stands (.node p k q ps cs))
    (key : String)
    (value : Property) :
    (setProperty p key value).Ensures plan (fun _ after =>
      plan.Alters {p} after ∧ after.size = plan.size ∧
        after.Stands (.node p k q
          (Properties.put key value ps) cs)) :=
  ensures_modify hSound hStands
    (sameLinks_setProperty plan p key value)

/- The tree below a node with a new annotation. -/
theorem ensures_setProperty_holds
    (hSound : plan.Sound)
    (hHolds : plan.Holds (.node p k q ps cs))
    (hApart : p ∉ Tree.idsAll cs)
    (key : String)
    (value : Property) :
    (setProperty p key value).Ensures plan (fun _ after =>
      plan.Alters {p} after ∧ after.size = plan.size ∧
        after.Holds (.node p k q
          (Properties.put key value ps) cs)) := by
  refine (ensures_setProperty hSound hHolds.self key
    value).mono ?_
  rintro _ after ⟨hAlters, hSize, hStands⟩
  refine ⟨hAlters, hSize, holds_node hStands
    (fun t hT => hAlters.holds (hHolds.child hT) ?_)⟩
  rintro x hX rfl
  exact hApart (Tree.mem_idsAll_iff.mpr ⟨t, hT, hX⟩)

theorem ensures_eraseProperty
    (hSound : plan.Sound)
    (hStands : plan.Stands (.node p k q ps cs))
    (key : String) :
    (eraseProperty p key).Ensures plan (fun _ after =>
      plan.Alters {p} after ∧ after.size = plan.size ∧
        after.Stands (.node p k q (ps.erase key) cs)) :=
  ensures_modify hSound hStands
    (sameLinks_eraseProperty plan p key)

/- Children are appended one after the other. -/
theorem ensures_forM_append
    (hSound : plan.Sound)
    (hStands : plan.Stands (.node p k q ps cs))
    (more : List Tree)
    (hMore : ∀ t ∈ more, t.id < plan.size) :
    ((more.map Tree.id).forM (append p)).Ensures plan
      (fun _ after =>
        plan.Alters {p} after ∧ after.size = plan.size ∧
          after.Stands (.node p k q ps (cs ++ more))) := by
  induction more generalizing plan cs with
  | nil =>
      refine ensures_return ⟨?_, rfl, ?_⟩
      · exact ⟨hSound, rfl, le_rfl, fun _ _ h => h⟩
      · rw [List.append_nil]
        exact hStands
  | cons t rest ih =>
      rw [List.forall_mem_cons] at hMore
      rw [List.map_cons]
      refine (ensures_append hSound hStands hMore.1).bind ?_
      rintro _ middle ⟨hAlters, hSize, hHere⟩
      refine (ih hAlters.sound hHere ?_).mono ?_
      · rw [hSize]
        exact hMore.2
      · rintro _ after ⟨hAlters', hSize', hDone⟩
        rw [List.append_assoc] at hDone
        refine ⟨?_, hSize'.trans hSize, hDone⟩
        exact (hAlters.trans hAlters').narrow
          (fun x hX _ => by simpa using hX)

/- A new node takes trees as its children. -/
theorem ensures_addWith
    {ids : List NodeId}
    (hSound : plan.Sound)
    (k : Kind)
    (q : Payload)
    (hHolds : ∀ t ∈ cs, plan.Holds t)
    (hIds : cs.map Tree.id = ids) :
    (addWith k q ids).Ensures plan
      (fun id after =>
        id = plan.size ∧ plan.Alters ∅ after ∧
          after.size = plan.size + 1 ∧
          after.Holds (.node plan.size k q [] cs)) := by
  subst hIds
  refine (ensures_add hSound k q []).bind ?_
  rintro _ middle ⟨rfl, hGrown, hSize, hNew⟩
  have hLt : ∀ t ∈ cs, t.id < middle.size := by
    intro t hT
    exact (hHolds t hT).self.lt.trans_le hGrown.size
  refine (ensures_forM_append hGrown.sound hNew cs hLt).bind
    ?_
  rintro _ after ⟨hAlters, hSize', hHere⟩
  refine ensures_return ⟨rfl, ?_, by omega, ?_⟩
  · exact (hGrown.trans hAlters).narrow (fun x hX hLt => by
      rcases hX with hX | rfl
      · exact hX
      · exact (Nat.lt_irrefl _ hLt).elim)
  · refine holds_node hHere (fun t hT => ?_)
    refine hAlters.holds (hGrown.holds (hHolds t hT)
      (fun _ _ => id)) (fun x hX hNew => ?_)
    cases hNew
    exact Nat.lt_irrefl _ ((hHolds t hT).lt_of_mem hX)

/- The way in which a node is replaced. -/
theorem ensures_exchange
    {old new : NodeId}
    (hSound : plan.Sound)
    (hNew : new < plan.size)
    (hOld : old ≠ plan.root) :
    (replace old new).Ensures plan (fun _ after =>
      ∃ p index, plan.parent? old = some p ∧
        plan.child? p index = some old ∧
        plan.Detached new ∧
        after = plan.exchange p index old new) := by
  intro x after hRun
  rcases replace_cases hSound.linked old hNew with
    ⟨e, hFailed⟩ | ⟨hNone, _, _⟩ |
      ⟨p, index, hParent, hChild, hDetached, hDone⟩
  · rw [hFailed] at hRun
    cases hRun
  · unfold replace at hRun
    rw [run_get_bind, if_neg hOld, hNone] at hRun
    cases hRun
  · rw [hDone] at hRun
    cases hRun
    exact ⟨p, index, hParent, hChild, hDetached, rfl⟩

/-
  The tree below the new node takes the place of the old one
  in the whole tree.
-/
theorem ensures_replace
    {old : NodeId}
    {u : Tree}
    (hSound : plan.Sound)
    (hRoot : t.id = plan.root)
    (hAround : ∀ r ∈ t.around old, plan.Stands r)
    (hNew : plan.Holds u)
    (hOld : old ∉ u.ids) :
    (replace old u.id).Ensures plan (fun _ after =>
      after.Sound ∧ after.size = plan.size ∧
        after.Holds (t.mapAt old (fun _ => u)) ∧
        (t.mapAt old (fun _ => u)).id = after.root) := by
  by_cases hTop : old = plan.root
  case pos =>
    intro x after hRun
    rcases replace_cases hSound.linked old hNew.self.lt with
      ⟨e, hFailed⟩ | ⟨_, hDetached, hDone⟩ |
        ⟨p, index, hParent, _, _, _⟩
    · rw [hFailed] at hRun
      cases hRun
    · rw [hDone] at hRun
      cases hRun
      have hMapped : t.mapAt old (fun _ => u) = u := by
        rcases t with ⟨i, k, q, ps, cs⟩
        cases hRoot.trans hTop.symm
        exact Tree.mapAt_self
      rw [hMapped]
      refine ⟨⟨hSound.linked.reroot hDetached,
        hDetached.lt⟩, rfl, fun s hS => ?_, rfl⟩
      have hHere := hNew s hS
      exact ⟨hHere.lt, hHere.kind, hHere.payload,
        hHere.properties, hHere.children⟩
    · rw [hTop, hSound.linked.root] at hParent
      cases hParent
  case neg =>
    refine (ensures_exchange hSound hNew.self.lt hTop).mono ?_
    rintro _ after ⟨p, index, hParent, hChild, hDetached, rfl⟩
    refine ⟨(hSound.stands_exchange hChild hDetached).1,
      by simp [exchange],
      hSound.holds_exchange hChild hDetached hAround hNew
        hOld, ?_⟩
    rw [Tree.id_mapAt, if_neg (hRoot ▸ Ne.symm hTop)]
    exact hRoot

/-
  The plan has the tree below the new node in the place of
  one that had been changed before.
-/
theorem ensures_replace_tree
    {middle : Plan}
    {s u : Tree}
    (hSound : plan.Sound)
    (hS : s ∈ plan.rootTree.subtrees)
    (hAlters : plan.Alters {x | x ∈ s.ids} middle)
    (hNew : middle.Holds u)
    (hOld : s.id ∉ u.ids) :
    (replace s.id u.id).Ensures middle (fun _ after =>
      after.Sound ∧ after.size = middle.size ∧
        after.rootTree =
          plan.rootTree.mapAt s.id (fun _ => u)) := by
  rcases hSound.holds_rootTree with ⟨hRoot, hHolds, hNodup⟩
  refine (ensures_replace hAlters.sound
    (hRoot.trans hAlters.root.symm) ?_ hNew hOld).mono ?_
  · intro r hR
    exact hAlters.spared r
      (Tree.not_mem_of_around hNodup hS hR)
      (hHolds r (Tree.around_subset hR))
  · rintro _ after ⟨hAfter, hSize, hTree, hTop⟩
    refine ⟨hAfter, hSize, ?_⟩
    have hEq := hTree.tree_eq hAfter.linked hTop
      (Tree.mem_subtrees_self _)
    rw [hTop] at hEq
    exact hEq

end Edit

end Flwor
