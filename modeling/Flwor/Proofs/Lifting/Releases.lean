import Flwor.Proofs.Lifting.Hops

/-
  A pipeline releases the binding that heads it.

  Where the variable is in the environment already, the
  pipeline does without its own binding, if nothing else
  there binds the name.  What can tell the difference is a
  left join that pads a row: it clears what its right input
  binds, but not what the environment holds.

  Key definitions include:
    * `Tree.ReleasesRows`, `Tree.ReleasesValue`

  Key theorems include:
    * `Tree.Feeding.releases`
    * `Tree.Buries.releases`
-/

------------------------------------------------------------
-- Wider Scopes
------------------------------------------------------------

namespace Flwor

namespace Tree

variable {library : Library}
variable {lax : Leeway}
variable {names context handed more : Set String}
variable {t t' : Tree}
variable {env env' : Env}

/- A stage hands on what its scope holds besides. -/
theorem Supplies.besides
    (hSupplies : Supplies library False context handed t)
    (hTree : t.Rescopable ∅)
    (more : Set String) :
    Supplies library False (context ∪ more)
      (handed ∪ more) t := by
  have hEq (names : Set String) :
      rescoped ∅ more names = names ∪ more := by
    ext name
    simp [rescoped]
  have hRescoped : Supplies library False
      (rescoped ∅ more context) (rescoped ∅ more handed) t :=
    hSupplies.rescope hTree
  rwa [hEq, hEq] at hRescoped

/- Rows hold what their context does, under hidden names. -/
theorem SameRows.recalling
    {R : Env → Env → Prop}
    {name : String}
    (hSame : SameRows library lax R t' env' t env)
    (hName : name ∉ t'.visible) :
    SameRows library lax (fun row' row =>
      row' name = env' name ∧ R row' row) t' env' t env := by
  have hContext : Meets True (fun rows' _ =>
      ∀ row' ∈ rows', row' name = env' name)
      (t'.rows library env') (t.rows library env) :=
    .of_values (fun rows' _ hRows' _ row' hRow' =>
      agreeOn_context library t' hRows' hRow' name hName)
  refine (hSame.and hContext).mono ?_
  rintro rows' rows ⟨hRows, hAll⟩
  exact (List.forall₂_and_left ..).mpr ⟨hAll, hRows⟩

end Tree

end Flwor

------------------------------------------------------------
-- Stages
------------------------------------------------------------

namespace Flwor

namespace Tree

variable (library : Library)
variable (name : String)
variable (value : Tree)

/-
  What is left of a stage without the binding of an
  expression, in an environment that holds its value.
-/
structure ReleasesRows
    (t t' : Tree) : Prop where
  bare : t'.properties.get? Properties.project = none
  scope : ∀ {context handed : Set String},
    Supplies library False context handed t →
      ReadsFrom library False context value
  visible : ∀ n, n ∈ t'.visible ↔ n ∈ t.visible ∧ n ≠ name
  supplies : ∀ {context handed : Set String},
    name ∉ context →
      Supplies library False context handed t →
        Supplies library False (context ∪ {name})
          (handed ∪ {name}) t'
  same : ∀ {context handed : Set String}, name ∉ context →
    Supplies library False context handed t →
      ∀ {env env' : Env} {s : Sequence},
        Env.AgreeOn context env' env → env' name = some s →
          value.value library env = some s →
            SameRows library False (Env.AgreeOn handed)
              t' env' t env

/- The same for an expression with the binding inside. -/
structure ReleasesValue
    (t t' : Tree) : Prop where
  scope : ∀ {names : Set String},
    ReadsFrom library False names t →
      ReadsFrom library False names value
  reads : ∀ {names : Set String}, name ∉ names →
    ReadsFrom library False names t →
      ReadsFrom library False (names ∪ {name}) t'
  same : ∀ {names : Set String}, name ∉ names →
    ReadsFrom library False names t →
      ∀ {env env' : Env} {s : Sequence},
        Env.AgreeOn names env' env → env' name = some s →
          value.value library env = some s →
            SameValue library False t' env' t env

/-
  A tree in which one node alone binds a name, and does not
  feed what a left join may have to pad.
-/
structure SoleBinder
    (b : NodeId)
    (t : Tree) : Prop where
  single : ∀ r ∈ t.subtrees, name ∈ r.bound → r.id = b
  unpadded : ∀ i p ps left keys right,
    .node i .join p ps [left, keys, right] ∈ t.subtrees →
      ps.flag Properties.leftJoin = true → b ∉ right.ids

variable {library : Library}
variable {name : String}
variable {value : Tree}
variable {b i : NodeId}
variable {k : Kind}
variable {p q : Payload}
variable {ps qs : Properties}
variable {rest cs : List Tree}
variable {start t t' : Tree}

theorem SoleBinder.subtree
    (hSole : SoleBinder name b t)
    (hT : t' ∈ t.subtrees) :
    SoleBinder name b t' where
  single r hR := hSole.single r (mem_subtrees_trans hR hT)
  unpadded i p ps left keys right hJoin :=
    hSole.unpadded i p ps left keys right
      (mem_subtrees_trans hJoin hT)

theorem SoleBinder.child
    {c : Tree}
    (hSole : SoleBinder name b (.node i k p ps cs))
    (hChild : c ∈ cs) :
    SoleBinder name b c :=
  hSole.subtree (mem_subtrees_of_child hChild
    (mem_subtrees_self c))

/- What is visible after a node is bound there or below. -/
theorem mem_visible
    (hName : name ∈ visible (.node i k p ps cs)) :
    name ∈ bound (.node i k p ps cs) ∨
      ∃ c ∈ cs, name ∈ c.visible := by
  have hHead (hName : name ∈ visibleHead cs) :
      ∃ c ∈ cs, name ∈ c.visible := by
    rcases cs with _ | ⟨c, cs⟩
    · cases hName
    · exact ⟨c, List.mem_cons_self, hName⟩
  unfold visible at hName
  split at hName
  · cases hName
  · exact .inl hName
  · exact .inr ((List.mem_append.mp hName).elim hHead
      exists_of_mem_visibleLast)
  · exact (List.mem_append.mp hName).symm.imp_right hHead

/- Apart from the node that binds it, a name is not visible. -/
theorem SoleBinder.not_visible
    (hSole : SoleBinder name b t)
    (hB : b ∉ t.ids) :
    name ∉ t.visible := by
  induction t using Tree.induction with
  | node i k p ps cs ih =>
      intro hName
      rcases mem_visible hName with hBound | ⟨c, hC, hName⟩
      · exact hB (hSole.single _ (mem_subtrees_self _) hBound ▸
          List.mem_cons_self)
      · exact ih c hC (hSole.child hC) (fun hMem => hB
          (List.mem_cons_of_mem _
            (mem_idsAll_iff.mpr ⟨c, hC, hMem⟩))) hName

/- Nothing is left of a binding but the start before it. -/
theorem releases_letBind
    (hBind : Slotted library
      (fun t => .node b .letBind q ps (t :: rest)) [name]
      value (fun row s => some [row.bind name s]))
    (hStart : start.kind = .start)
    (hBare : start.properties.get? Properties.project = none)
    (hValue : value.Rescopable ∅) :
    ReleasesRows library name value
      (.node b .letBind q ps (start :: rest)) start := by
  rcases start with ⟨i, k, p, qs, cs⟩
  cases hStart
  have hScope {context handed : Set String}
      (hSupplies : Supplies library False context handed
        (.node b .letBind q ps
          (.node i .start p qs cs :: rest))) :
      ReadsFrom library False context value ∧
        ∀ n ∈ handed, n ≠ name → n ∈ context := by
    rcases hBind.reads hSupplies with
      ⟨read, hStart, hReads, hMore⟩
    cases hStart with
    | start hRead =>
        exact ⟨hReads.wider hValue hRead, fun n hN hNe =>
          hRead (hMore n hN (by simpa using hNe))⟩
  have hHanded {context handed : Set String}
      (hSupplies : Supplies library False context handed
        (.node b .letBind q ps
          (.node i .start p qs cs :: rest))) :=
    (hScope hSupplies).2
  refine ⟨hBare, fun hSupplies => (hScope hSupplies).1,
    fun n => ?_, fun _ hSupplies => ?_,
    fun hName hSupplies env env' s hAgree hS hValue => ?_⟩
  · have hVisible := hBind.visible (.node i .start p qs cs)
    have hNone : (Tree.node i .start p qs cs).visible = [] := by
      simp [visible]
    rw [hVisible, hNone]
    simp
  · refine .start ?_
    rintro n (hN | hN)
    · by_cases hEq : n = name
      · exact .inr hEq
      · exact .inl (hHanded hSupplies n hN hEq)
    · exact .inr hN
  · have hRows := hBind.rows (.node i .start p qs cs) env
    rw [SameRows, hRows, rows, rows, Option.bind_some,
      List.mapM_cons, hValue]
    refine .value (.cons (fun n hN => ?_) .nil)
    rw [Env.bind_apply]
    split
    next hEq => rw [hEq, hS]
    next hEq => exact hAgree n (hHanded hSupplies n hN hEq)

/- A stage releases what its input releases. -/
theorem ReleasesRows.input
    (hInput : ReleasesRows library name value t t')
    (hKind : k.hasInput)
    (hRest : ∀ c ∈ rest, c.Rescopable ∅)
    (hBare : ps.get? Properties.project = none)
    (hNew : name ∉ bound (.node i k p ps (t :: rest))) :
    ReleasesRows library name value (.node i k p ps (t :: rest))
      (.node i k p ps (t' :: rest)) := by
  refine ⟨hBare, fun hSupplies => ?_, fun n => ?_,
    fun hName hSupplies => ?_,
    fun hName hSupplies env env' s hAgree hS hValue => ?_⟩
  · rcases hSupplies.exists_relies hKind hRest with
      ⟨read, hBelow, _⟩
    exact hInput.scope hBelow
  · have hBound : bound (.node i k p ps (t' :: rest)) =
        bound (.node i k p ps (t :: rest)) := by
      cases k <;> rfl
    by_cases hGroup : k = .groupBy
    · subst hGroup
      rw [visible_groupBy, visible_groupBy, hBound]
      exact ⟨fun hN => ⟨hN, fun hEq => hNew (hEq ▸ hN)⟩,
        And.left⟩
    · rw [visible_input hKind hGroup,
        visible_input hKind hGroup, hBound, List.mem_append,
        List.mem_append, hInput.visible n]
      have hNe (hN : n ∈ bound (.node i k p ps (t :: rest))) :
          n ≠ name :=
        fun hEq => hNew (hEq ▸ hN)
      tauto
  · rcases hSupplies.exists_relies hKind hRest with
      ⟨read, hBelow, hRelies⟩
    refine hRelies.supplies Set.subset_union_left
      Set.subset_union_left hInput.bare
      (hInput.supplies hName hBelow) ?_
    rintro n (hN | hN)
    · exact .inl hN
    · exact .inr ⟨.inr hN, .inr hN⟩
  · rcases hSupplies.exists_relies hKind hRest with
      ⟨read, hBelow, hRelies⟩
    exact hRelies.same hAgree
      (hInput.same hName hBelow hAgree hS hValue)

section Joins

variable {j : NodeId}
variable {l : Kind}
variable {left right keys : Tree}

/- A join releases what its left input releases. -/
theorem ReleasesRows.joinLeft
    (hLeft : ReleasesRows library name value t t')
    (hRight : right.Rescopable ∅)
    (hKeys : keys.Rescopable ∅)
    (hBare : ps.get? Properties.project = none)
    (hNew : name ∉ right.visible) :
    ReleasesRows library name value
      (.node i .join p ps [t, keys, right])
      (.node i .join p ps [t', keys, right]) := by
  refine ⟨hBare, fun hSupplies => ?_, fun n => ?_,
    fun hName hSupplies => ?_,
    fun hName hSupplies env env' s hAgree hS hValue => ?_⟩
  · cases hSupplies with
    | join hFirst => exact hLeft.scope hFirst
  · rw [visible_join, visible_join, List.mem_append,
      List.mem_append, hLeft.visible n]
    have hNe (hN : n ∈ right.visible) : n ≠ name :=
      fun hEq => hNew (hEq ▸ hN)
    tauto
  · cases hSupplies with
    | join hFirst hSecond hKeepsLeft hKeepsRight hComparison
        hLeftKey hRightKey hReadsLeft hReadsRight hHandedLeft
        hHandedRight =>
        refine .join (hLeft.supplies hName hFirst)
          (hSecond.besides hRight {name})
          (keeps_of_get? hLeft.bare _ _)
          (hRight.lacks.keeps _ _) hComparison hLeftKey
          hRightKey
          (hReadsLeft.wider (hKeys.childAt hLeftKey)
            Set.subset_union_left)
          (hReadsRight.wider (hKeys.childAt hRightKey)
            Set.subset_union_left) ?_ ?_
        · rintro n (hN | hN) hNot
          · exact .inl (hHandedLeft n hN hNot)
          · exact .inr hN
        · rintro n (hN | hN) hMem
          · exact .inl (hHandedRight n hN hMem)
          · exact .inr hN
  · cases hSupplies with
    | join hFirst hSecond _ _ _ hLeftKey hRightKey hReadsLeft
        hReadsRight hHandedLeft hHandedRight =>
        refine sameRows_join
          (hLeft.same hName hFirst hAgree hS hValue)
          (hSecond.sameRows hAgree) rfl rfl rfl ?_ ?_ ?_ ?_
        · exact fun row row' hRow => sameValue_at 0 hLeftKey
            hLeftKey (hReadsLeft.sameValue hRow)
        · exact fun row row' hRow => sameValue_at 1 hRightKey
            hRightKey (hReadsRight.sameValue hRow)
        · intro row row' other other' hRow hOther
          exact .under (fun _ _ => Iff.rfl)
            (fun n hN hMem =>
              hOther n (hHandedRight n hN hMem))
            (fun n hN hNot =>
              hRow n (hHandedLeft n hN hNot))
        · intro row row' hRow _
          exact .padded (fun _ _ => Iff.rfl)
            (fun n hN hNot =>
              hRow n (hHandedLeft n hN hNot))

/- An inner join releases what its right input releases. -/
theorem ReleasesRows.joinRight
    (hRight : ReleasesRows library name value t t')
    (hLeft : left.Rescopable ∅)
    (hKeys : keys.Rescopable ∅)
    (hBare : ps.get? Properties.project = none)
    (hInner : ps.flag Properties.leftJoin = false)
    (hNew : name ∉ left.visible) :
    ReleasesRows library name value
      (.node i .join p ps [left, keys, t])
      (.node i .join p ps [left, keys, t']) := by
  refine ⟨hBare, fun hSupplies => ?_, fun n => ?_,
    fun hName hSupplies => ?_,
    fun hName hSupplies env env' s hAgree hS hValue => ?_⟩
  · cases hSupplies with
    | join _ hSecond => exact hRight.scope hSecond
  · rw [visible_join, visible_join, List.mem_append,
      List.mem_append, hRight.visible n]
    have hNe (hN : n ∈ left.visible) : n ≠ name :=
      fun hEq => hNew (hEq ▸ hN)
    tauto
  · cases hSupplies with
    | join hFirst hSecond hKeepsLeft hKeepsRight hComparison
        hLeftKey hRightKey hReadsLeft hReadsRight hHandedLeft
        hHandedRight =>
        refine .join (hFirst.besides hLeft {name})
          (hRight.supplies hName hSecond)
          (hLeft.lacks.keeps _ _)
          (keeps_of_get? hRight.bare _ _) hComparison hLeftKey
          hRightKey
          (hReadsLeft.wider (hKeys.childAt hLeftKey)
            Set.subset_union_left)
          (hReadsRight.wider (hKeys.childAt hRightKey)
            Set.subset_union_left) ?_ ?_
        · rintro n (hN | hN) hNot
          · by_cases hEq : n = name
            · exact .inr hEq
            · exact .inl (hHandedLeft n hN (fun hMem =>
                hNot ((hRight.visible n).mpr ⟨hMem, hEq⟩)))
          · exact .inr hN
        · rintro n (hN | hN) hMem
          · exact .inl (hHandedRight n hN
              ((hRight.visible n).mp hMem).1)
          · exact .inr hN
  · cases hSupplies with
    | join hFirst hSecond _ _ _ hLeftKey hRightKey hReadsLeft
        hReadsRight hHandedLeft hHandedRight =>
        have hOld : name ∉ t'.visible :=
          fun hMem => ((hRight.visible name).mp hMem).2 rfl
        refine sameRows_join
          ((hFirst.sameRows hAgree).recalling hNew)
          ((hRight.same hName hSecond hAgree hS
            hValue).recalling hOld) rfl rfl rfl ?_ ?_ ?_ ?_
        · exact fun row row' hRow => sameValue_at 0 hLeftKey
            hLeftKey (hReadsLeft.sameValue hRow.2)
        · exact fun row row' hRow => sameValue_at 1 hRightKey
            hRightKey (hReadsRight.sameValue hRow.2)
        · intro row row' other other' hRow hOther n hN
          have hLeftRow (hNot : n ∉ t.visible) :
              row n = row' n :=
            hRow.2 n (hHandedLeft n hN hNot)
          have hRightRow (hMem : n ∈ t.visible) :
              other n = other' n :=
            hOther.2 n (hHandedRight n hN hMem)
          rw [Env.under, Env.under]
          by_cases hMem : n ∈ t.visible
          · rw [if_pos hMem, ← hRightRow hMem]
            split
            next => rfl
            next hNot =>
              -- Only the name itself is not visible any more.
              have hEq : n = name := by
                by_contra hNe
                exact hNot ((hRight.visible n).mpr ⟨hMem, hNe⟩)
              rw [hEq, hRow.1, hOther.1]
          · rw [if_neg hMem, if_neg (fun h =>
              hMem ((hRight.visible n).mp h).1), hLeftRow hMem]
        · intro row row' _ hLeftJoin
          rw [hInner] at hLeftJoin
          cases hLeftJoin

end Joins

/- The inputs of a join have no node in common. -/
theorem disjoint_inputs
    {left keys right : Tree}
    (hNodup :
      (Tree.node i k p ps [left, keys, right]).ids.Nodup) :
    left.ids.Disjoint right.ids := by
  rw [ids, idsAll, idsAll, idsAll, idsAll, List.append_nil,
    List.nodup_cons, List.nodup_append'] at hNodup
  exact fun _ hLeft hRight => hNodup.2.2.2 hLeft
    (List.mem_append_right _ hRight)

/- A tail releases the only binding of a name that feeds it. -/
theorem Feeding.releases
    (hFeeding :
      Feeding (.node b .letBind q ps (start :: rest)) t)
    (hBind : Slotted library
      (fun t => .node b .letBind q ps (t :: rest)) [name]
      value (fun row s => some [row.bind name s]))
    (hStart : start.kind = .start)
    (hValue : value.Rescopable ∅)
    (hNodup : t.ids.Nodup)
    (hTree : t.Rescopable ∅)
    (hSole : SoleBinder name b t) :
    ReleasesRows library name value t
      (t.mapAt b (fun _ => start)) := by
  induction hFeeding with
  | here =>
      rw [mapAt_self]
      exact releases_letBind hBind hStart
        (hTree.lacks _ (mem_subtrees_of_child
          List.mem_cons_self (mem_subtrees_self _))) hValue
  | @input i k p qs input more hKind hInput ih =>
      have hBelow : b ∈ input.ids :=
        mem_ids_iff.mpr ⟨_, hInput.mem, rfl⟩
      rw [mapAt_of_first hNodup hBelow]
      refine (ih (nodup_ids_of_child hNodup (by simp))
        (hTree.child (by simp))
        (hSole.child (by simp))).input hKind
          (fun c hC => hTree.child (List.mem_cons_of_mem _ hC))
          (hTree.lacks _ (mem_subtrees_self _))
          (fun hName => ?_)
      have hEq : i = b :=
        hSole.single _ (mem_subtrees_self _) hName
      exact (List.nodup_cons.mp hNodup).1
        (hEq ▸ List.mem_append_left _ hBelow)
  | @left i p qs left keys right hLeft ih =>
      have hBelow : b ∈ left.ids :=
        mem_ids_iff.mpr ⟨_, hLeft.mem, rfl⟩
      rw [mapAt_of_first hNodup hBelow]
      exact (ih (nodup_ids_of_child hNodup (by simp))
        (hTree.child (by simp))
        (hSole.child (by simp))).joinLeft
          (hTree.child (by simp)) (hTree.child (by simp))
          (hTree.lacks _ (mem_subtrees_self _))
          ((hSole.child (by simp)).not_visible
            (disjoint_inputs hNodup hBelow))
  | @right i p qs left keys right hRight ih =>
      have hBelow : b ∈ right.ids :=
        mem_ids_iff.mpr ⟨_, hRight.mem, rfl⟩
      rw [mapAt_of_third hNodup hBelow]
      refine (ih (nodup_ids_of_child hNodup (by simp))
        (hTree.child (by simp))
        (hSole.child (by simp))).joinRight
          (hTree.child (by simp)) (hTree.child (by simp))
          (hTree.lacks _ (mem_subtrees_self _)) ?_
          ((hSole.child (by simp)).not_visible
            (fun hMem => disjoint_inputs hNodup hMem hBelow))
      rw [← Bool.not_eq_true]
      exact fun hPad => hSole.unpadded i p qs left keys right
        (mem_subtrees_self _) hPad hBelow

end Tree

end Flwor

------------------------------------------------------------
-- Expressions
------------------------------------------------------------

namespace Flwor

namespace Tree

variable {library : Library}
variable {name : String}
variable {value : Tree}
variable {i j : NodeId}
variable {p q : Payload}
variable {ps qs : Properties}
variable {tail tail' pipe pipe' slot slot' : Tree}
variable {rest : List Tree}

/- A pipeline releases what its tail does. -/
theorem ReleasesRows.pipeline
    (hTail : ReleasesRows library name value tail tail')
    (hRest : ∀ c ∈ rest, c.Rescopable ∅) :
    ReleasesValue library name value
      (.node i .pipeExpr p ps
        [.node j .finish q qs (tail :: rest)])
      (.node i .pipeExpr p ps
        [.node j .finish q qs (tail' :: rest)]) := by
  refine ⟨fun hReads => ?_, fun hName hReads => ?_,
    fun hName hReads env env' s hAgree hS hValue => ?_⟩
  · cases hReads with
    | binary hKind => exact hKind.elim
    | pipe hSupplies _ => exact hTail.scope hSupplies
  · cases hReads with
    | binary hKind => exact hKind.elim
    | pipe hSupplies hResult =>
        exact .pipe (hTail.supplies hName hSupplies)
          (hResult.wider (hRest _ List.mem_cons_self)
            Set.subset_union_left)
  · cases hReads with
    | binary hKind => exact hKind.elim
    | pipe hSupplies hResult =>
        exact sameValue_pipe
          (hTail.same hName hSupplies hAgree hS hValue)
          (fun row row' hRow => hResult.sameValue hRow)

/- An expression releases what is buried in it. -/
theorem Buries.releases
    (hBuries : Buries pipe pipe' slot slot')
    (hPipe : ReleasesValue library name value pipe pipe')
    (hTree : slot.Rescopable ∅) :
    ReleasesValue library name value slot slot' := by
  induction hBuries with
  | here => exact hPipe
  | @inside i k p ps before c c' after hEager _ ih =>
      have hPart := ih (hTree.child (by simp))
      have hFilled := hTree.shaped.filled
      have hBeside {d : Tree} (hD : d ∈ before ++ after) :
          d.Rescopable ∅ :=
        hTree.child (List.mem_append.mpr
          ((List.mem_append.mp hD).imp_right
            (List.mem_cons_of_mem _)))
      refine ⟨fun hReads => hPart.scope
          (hReads.operand hEager hFilled (by simp)),
        fun hName hReads => ?_,
        fun hName hReads env env' s hAgree hS hValue => ?_⟩
      · refine hReads.operands hEager (by simp) ?_
        have hOther {d : Tree} (hD : d ∈ before ++ after) :=
          (hReads.beside hEager hFilled hD).wider (hBeside hD)
            (Set.subset_union_left (t := {name}))
        intro d hD
        rcases List.mem_append.mp hD with hD | hD
        · exact hOther (List.mem_append_left _ hD)
        rcases List.mem_cons.mp hD with rfl | hD
        · exact hPart.reads hName
            (hReads.operand hEager hFilled (by simp))
        · exact hOther (List.mem_append_right _ hD)
      · rcases @exists_combine library i k p ps _ hEager
          hFilled with ⟨combine, hCombine⟩
        have hOther {d : Tree} (hD : d ∈ before ++ after) :
            d.value library env' = d.value library env := by
          have hSame : SameValue library False d env' d env :=
            (hReads.beside hEager hFilled hD).sameValue hAgree
          exact hSame.eq_of_strict
        have hHere : c'.value library env' =
            c.value library env :=
          (hPart.same hName (hReads.operand hEager hFilled
            (by simp)) hAgree hS hValue).eq_of_strict
        rw [SameValue, hCombine _ (by simp), hCombine _ rfl]
        simp only [List.mapM_append, List.mapM_cons, hHere,
          mapM_congr_left (fun d hD =>
            hOther (d := d) (List.mem_append_left _ hD)),
          mapM_congr_left (fun d hD =>
            hOther (d := d) (List.mem_append_right _ hD))]
        exact .refl _

end Tree

end Flwor
