import Mathlib.Data.List.Nodup
import Flwor.Proofs.Liveness.Demand
import Flwor.Proofs.Liveness.Effects
import Flwor.Proofs.Shapes

/-
  The analysis of live bindings annotates every stage with
  the names that are looked up after it.

  The walk of a tree is described by the names that it looks
  up and by the notes that it makes.  It is the same for an
  expression and for a stage with what comes after it.

  Key definitions include:
    * `Analysis.Noted`
    * `Tree.ExprNoted`
    * `Tree.StageNoted`

  Key theorems include:
    * `Tree.walked_of_shaped`
-/

------------------------------------------------------------
-- Notes
------------------------------------------------------------

namespace Flwor

/- Stages, each with the names that are read after it. -/
abbrev Demands :=
  NodeId → Set String → Prop

namespace Tree

/- The demands on the stages in an expression. -/
def exprDemands
    (t : Tree) : Demands :=
  fun id demand => ∃ s : Tree,
    s.id = id ∧ t.ExprDemands s demand

/- The demands on a stage and on those before it. -/
def stageDemands
    (wanted : Set String)
    (t : Tree) : Demands :=
  fun id demand => ∃ s : Tree,
    s.id = id ∧ t.StageDemands wanted s demand

end Tree

namespace Analysis

/-
  Annotations of some nodes that meet demands.  Where no
  node stands twice, a stage with a demand is annotated with
  nothing else.
-/
structure Noted
    (ids : List NodeId)
    (demands : Demands)
    (annotations : List Annotation) : Prop where
  inside :
    ∀ a ∈ annotations, a.stage ∈ ids
  complete :
    ∀ id demand, demands id demand →
      ∃ a ∈ annotations, a.stage = id
  right :
    ids.Nodup → ∀ a ∈ annotations, ∀ demand,
      demands a.stage demand →
        ∀ name, name ∈ a.names ↔ name ∈ demand

/- The annotations include those of a step that came later. -/
def NotedWith
    (ids : List NodeId)
    (demands : Demands)
    (Later : List Annotation → Prop)
    (annotations : List Annotation) : Prop :=
  ∃ own later, annotations.Perm (own ++ later) ∧
    Later later ∧ Noted ids demands own

namespace Noted

variable {ids others : List NodeId}
variable {demands demands' : Demands}
variable {annotations further : List Annotation}

theorem nil
    (hDemands : ∀ id demand, ¬demands id demand) :
    Noted ids demands [] where
  inside := by simp
  complete := fun id demand hDemand =>
    (hDemands id demand hDemand).elim
  right := by simp

theorem mono
    (hNoted : Noted ids demands annotations)
    (hIds : ∀ id, ids.count id ≤ others.count id)
    (hDemands : ∀ id demand,
      demands' id demand → demands id demand) :
    Noted others demands' annotations where
  inside := by
    intro a hA
    have hCount := List.count_pos_iff.mpr (hNoted.inside a hA)
    exact List.count_pos_iff.mp
      (Nat.lt_of_lt_of_le hCount (hIds a.stage))
  complete := fun id demand hDemand =>
    hNoted.complete id demand (hDemands id demand hDemand)
  right := by
    intro hNodup a hA demand hDemand
    refine hNoted.right ?_ a hA demand
      (hDemands _ demand hDemand)
    rw [List.nodup_iff_count_le_one] at hNodup ⊢
    exact fun id => (hIds id).trans (hNodup id)

/- Where nothing is demanded, a stage may be noted twice. -/
theorem plain
    (hNoted : Noted ids demands annotations)
    (hIds : ∀ id ∈ ids, id ∈ others) :
    Noted others (fun _ _ => False) annotations where
  inside := fun a hA => hIds _ (hNoted.inside a hA)
  complete := fun _ _ hDemand => hDemand.elim
  right := fun _ _ _ _ hDemand => hDemand.elim

theorem mem_ids
    (hNoted : Noted ids demands annotations)
    {id : NodeId}
    {demand : Set String}
    (hDemand : demands id demand) :
    id ∈ ids := by
  rcases hNoted.complete id demand hDemand with ⟨a, hA, rfl⟩
  exact hNoted.inside a hA

theorem append
    (hNoted : Noted ids demands annotations)
    (hFurther : Noted others demands' further) :
    Noted (ids ++ others)
      (fun id demand => demands id demand ∨ demands' id demand)
      (annotations ++ further) where
  inside := by
    intro a hA
    rw [List.mem_append] at hA ⊢
    exact hA.imp (hNoted.inside a) (hFurther.inside a)
  complete := by
    rintro id demand (hDemand | hDemand)
    · rcases hNoted.complete id demand hDemand with
        ⟨a, hA, hId⟩
      exact ⟨a, List.mem_append_left _ hA, hId⟩
    · rcases hFurther.complete id demand hDemand with
        ⟨a, hA, hId⟩
      exact ⟨a, List.mem_append_right _ hA, hId⟩
  right := by
    intro hNodup a hA demand hDemand
    rcases List.nodup_append.mp hNodup with
      ⟨hIds, hOthers, hDisjoint⟩
    rcases List.mem_append.mp hA with hA | hA
    · rcases hDemand with hDemand | hDemand
      · exact hNoted.right hIds a hA demand hDemand
      · exact (hDisjoint _ (hNoted.inside a hA) _
          (hFurther.mem_ids hDemand) rfl).elim
    · rcases hDemand with hDemand | hDemand
      · exact (hDisjoint _ (hNoted.mem_ids hDemand) _
          (hFurther.inside a hA) rfl).elim
      · exact hFurther.right hOthers a hA demand hDemand

theorem perm
    (hNoted : Noted ids demands annotations)
    (hPerm : further.Perm annotations) :
    Noted ids demands further where
  inside := fun a hA =>
    hNoted.inside a (hPerm.mem_iff.mp hA)
  complete := by
    intro id demand hDemand
    rcases hNoted.complete id demand hDemand with
      ⟨a, hA, hId⟩
    exact ⟨a, hPerm.mem_iff.mpr hA, hId⟩
  right := fun hNodup a hA =>
    hNoted.right hNodup a (hPerm.mem_iff.mp hA)

theorem single
    {stage : NodeId}
    {names : List String}
    {wanted : Set String}
    (hNames : ∀ name, name ∈ names ↔ name ∈ wanted) :
    Noted [stage]
      (fun id demand => id = stage ∧ demand = wanted)
      [⟨stage, names⟩] where
  inside := by simp
  complete := by
    rintro id demand ⟨rfl, rfl⟩
    exact ⟨⟨id, names⟩, by simp, rfl⟩
  right := by
    intro _ a hA demand hDemand
    rw [List.mem_singleton] at hA
    subst hA
    rw [hDemand.2]
    exact hNames

/- The notes of a part are notes of the whole. -/
theorem part
    {part : List NodeId}
    (hNoted : Noted part demands annotations)
    (before after : List NodeId)
    (hIds : ids = before ++ (part ++ after))
    (hDemands : ∀ id demand,
      demands' id demand → demands id demand) :
    Noted ids demands' annotations := by
  refine hNoted.mono (fun id => ?_) hDemands
  rw [hIds, List.count_append, List.count_append]
  omega

end Noted

end Analysis

end Flwor

------------------------------------------------------------
-- Several Expressions
------------------------------------------------------------

namespace Flwor

namespace Tree

/- What the walk of an expression does. -/
def ExprWalked
    (t : Tree) : Prop :=
  Analysis.Does (Analysis.expr t) t.reads
    (Analysis.Noted t.ids t.exprDemands)

end Tree

namespace Analysis

theorem does_exprs
    {ts : List Tree}
    (hTs : ∀ t ∈ ts, t.ExprWalked) :
    Does (exprs ts) (Tree.readsAll ts)
      (Noted (Tree.idsAll ts)
        (fun id demand => ∃ t ∈ ts, t.exprDemands id demand)) := by
  induction ts with
  | nil =>
      rw [exprs, Tree.readsAll]
      refine does_nothing.mono (fun _ => Iff.rfl) ?_
      rintro _ rfl
      exact .nil (by simp)
  | cons t rest ih =>
      rw [exprs, Tree.readsAll, Tree.idsAll]
      have hRest := ih (fun t hT => hTs t (by simp [hT]))
      refine ((hTs t (by simp)).seq hRest).mono
        (fun _ => Iff.rfl) ?_
      rintro _ ⟨first, second, rfl, hFirst, hSecond⟩
      exact (hFirst.append hSecond).mono (fun _ => le_rfl)
        (fun id demand hBoth => by
          simpa using hBoth)

theorem does_exprsFrom
    {ts : List Tree}
    (hTs : ∀ t ∈ ts, t.ExprWalked)
    (skip : Nat) :
    Does (exprsFrom skip ts) (Tree.readsFrom skip ts)
      (Noted (Tree.idsAll ts) (fun _ _ => False)) := by
  induction ts generalizing skip with
  | nil =>
      cases skip <;>
      · rw [exprsFrom, Tree.readsFrom]
        refine does_nothing.mono (fun _ => Iff.rfl) ?_
        rintro _ rfl
        exact .nil (by simp)
  | cons t rest ih =>
      have hRest := ih (fun t hT => hTs t (by simp [hT]))
      cases skip with
      | zero =>
          rw [exprsFrom, Tree.readsFrom, Tree.idsAll]
          refine ((hTs t (by simp)).seq (hRest 0)).mono
            (fun _ => Iff.rfl) ?_
          rintro _ ⟨first, second, rfl, hFirst, hSecond⟩
          exact (hFirst.append hSecond).mono
            (fun _ => le_rfl) (fun _ _ hNone => hNone.elim)
      | succ skip =>
          rw [exprsFrom, Tree.readsFrom, Tree.idsAll]
          refine (hRest skip).mono (fun _ => Iff.rfl) ?_
          intro notes hNotes
          exact hNotes.part t.ids [] (by simp)
            (fun _ _ hNone => hNone.elim)

theorem does_exprAt
    {ts : List Tree}
    (hTs : ∀ t ∈ ts, t.ExprWalked)
    (index : Nat) :
    Does (exprAt index ts) (Tree.readsAt index ts)
      (Noted (Tree.idsAll ts)
        (fun id demand => ∃ t, ts[index]? = some t ∧
          t.exprDemands id demand)) := by
  induction ts generalizing index with
  | nil =>
      cases index <;>
      · rw [exprAt, Tree.readsAt]
        refine does_nothing.mono (fun _ => Iff.rfl) ?_
        rintro _ rfl
        exact .nil (by simp)
  | cons t rest ih =>
      cases index with
      | zero =>
          rw [exprAt, Tree.readsAt, Tree.idsAll]
          refine (hTs t (by simp)).mono
            (fun _ => Iff.rfl) (fun notes hNotes => ?_)
          exact hNotes.part [] (Tree.idsAll rest)
            (by simp) (fun _ _ hDemand => by simpa using hDemand)
      | succ index =>
          rw [exprAt, Tree.readsAt, Tree.idsAll]
          refine (ih (fun t hT => hTs t (by simp [hT]))
            index).mono
            (fun _ => Iff.rfl) (fun notes hNotes => ?_)
          exact hNotes.part t.ids []
            (by simp) (fun _ _ hDemand => by simpa using hDemand)

theorem does_lastExpr
    {ts : List Tree}
    (hTs : ∀ t ∈ ts, t.ExprWalked) :
    Does (lastExpr ts) (Tree.lastReads ts)
      (Noted (Tree.idsAll ts)
        (fun id demand => ∃ t, ts.getLast? = some t ∧
          t.exprDemands id demand)) := by
  induction ts with
  | nil =>
      rw [lastExpr, Tree.lastReads]
      refine does_nothing.mono (fun _ => Iff.rfl) ?_
      rintro _ rfl
      exact .nil (by simp)
  | cons t rest ih =>
      cases rest with
      | nil =>
          rw [lastExpr, Tree.lastReads]
          refine (hTs t (by simp)).mono
            (fun _ => Iff.rfl) (fun notes hNotes => ?_)
          exact hNotes.part [] []
            (by simp [Tree.idsAll])
            (fun _ _ hDemand => by simpa using hDemand)
      | cons next more =>
          rw [lastExpr, Tree.lastReads]
          refine (ih (fun t hT => hTs t (by simp [hT]))).mono
            (fun _ => Iff.rfl) (fun notes hNotes => ?_)
          exact hNotes.part t.ids []
            (by simp [Tree.idsAll])
            (fun _ _ hDemand => by simpa using hDemand)

end Analysis

end Flwor

------------------------------------------------------------
-- Expressions With Bindings of Their Own
------------------------------------------------------------

namespace Flwor

namespace Analysis

/- Two steps, each with notes of its own. -/
theorem Does.seq_noted
    {step next : Analysis Unit}
    {names more : Set String}
    {ids others : List NodeId}
    {demands demands' : Demands}
    (hStep : Does step names (Noted ids demands))
    (hNext : Does next more (Noted others demands')) :
    Does (step >>= fun _ => next)
      {n | n ∈ names ∨ n ∈ more}
      (Noted (ids ++ others)
        (fun id demand =>
          demands id demand ∨ demands' id demand)) := by
  refine (hStep.seq hNext).mono (fun _ => Iff.rfl) ?_
  rintro _ ⟨first, second, rfl, hFirst, hSecond⟩
  exact hFirst.append hSecond

/- Two steps whose notes meet no demand. -/
theorem Does.seq_plain
    {step next : Analysis Unit}
    {names more : Set String}
    {ids others : List NodeId}
    {demands : Demands}
    (hStep : Does step names (Noted ids demands))
    (hNext : Does next more (Noted others (fun _ _ => False))) :
    Does (step >>= fun _ => next)
      {n | n ∈ names ∨ n ∈ more}
      (Noted (ids ++ others) (fun _ _ => False)) := by
  exact (hStep.seq_noted hNext).mono (fun _ => Iff.rfl)
    (fun _ hNotes => hNotes.plain (fun _ hId => hId))

/- The same, where the first step has a scope of its own. -/
theorem Does.within_plain
    {step next : Analysis Unit}
    {names more : Set String}
    {ids others : List NodeId}
    {demands : Demands}
    (bound : List String)
    (hStep : Does step names (Noted ids demands))
    (hNext : Does next more (Noted others (fun _ _ => False))) :
    Does (Analysis.within bound step >>= fun _ => next)
      {n | n ∈ names ∧ n ∉ bound ∨ n ∈ more}
      (Noted (ids ++ others) (fun _ _ => False)) := by
  refine (hStep.within_bind bound
    (fun _ _ _ => hNext)).mono
    (fun _ => Iff.rfl) ?_
  rintro _ ⟨first, second, rfl, hFirst, hSecond⟩
  exact (hFirst.append hSecond).mono (fun _ => le_rfl)
    (fun _ _ hNone => hNone.elim)

/- Nothing is looked up and nothing is noted. -/
theorem does_nothing_plain :
    Does (pure ()) ∅ (Noted [] (fun _ _ => False)) := by
  refine does_nothing.mono (fun _ => Iff.rfl) ?_
  rintro _ rfl
  exact .nil (by simp)

theorem Does.weaken
    {step : Analysis Unit}
    {names more : Set String}
    {ids others : List NodeId}
    {demands : Demands}
    (hDoes : Does step names (Noted ids demands))
    (hNames : ∀ name, name ∈ names ↔ name ∈ more)
    (hIds : ∀ id ∈ ids, id ∈ others) :
    Does step more (Noted others (fun _ _ => False)) :=
  hDoes.mono hNames (fun _ hNotes => hNotes.plain hIds)

theorem does_pathSteps
    {ts : List Tree}
    (hTs : ∀ t ∈ ts, ∀ c ∈ t.children, c.ExprWalked) :
    Does (pathSteps ts) (Tree.stepReads ts)
      (Noted (Tree.idsAll ts) (fun _ _ => False)) := by
  induction ts with
  | nil =>
      rw [pathSteps, Tree.stepReads, Tree.idsAll]
      exact does_nothing_plain
  | cons t rest ih =>
      rcases t with ⟨i, k, p, ps, parts⟩
      rw [pathSteps, Tree.stepReads]
      have hRest := ih (fun t hT => hTs t (by simp [hT]))
      have hParts := does_exprsFrom
        (hTs (.node i k p ps parts) (by simp)) 2
      refine (hParts.within_plain [contextItem]
        hRest).weaken (fun _ => Iff.rfl) (fun id hId => ?_)
      simp only [Tree.children, List.mem_append] at hId
      simp only [Tree.idsAll, Tree.ids, List.mem_append,
        List.mem_cons]
      exact hId.imp_left .inr

theorem does_path
    {ts : List Tree}
    (hTs : ∀ t ∈ ts, t.ExprWalked)
    (hDeep : ∀ t ∈ ts, ∀ c ∈ t.children, c.ExprWalked) :
    Does (path ts) (Tree.pathReads ts)
      (Noted (Tree.idsAll ts) (fun _ _ => False)) := by
  cases ts with
  | nil =>
      rw [path, Tree.pathReads, Tree.idsAll]
      exact does_nothing_plain
  | cons base steps =>
      rw [path, Tree.pathReads, Tree.idsAll]
      have hSteps (t : Tree) (hT : t ∈ steps) :=
        hDeep t (List.mem_cons_of_mem base hT)
      exact (hTs base (by simp)).seq_plain
        (does_pathSteps hSteps)

theorem does_filter
    {ts : List Tree}
    (hTs : ∀ t ∈ ts, t.ExprWalked) :
    Does (filter ts) (Tree.filterReads ts)
      (Noted (Tree.idsAll ts) (fun _ _ => False)) := by
  cases ts with
  | nil =>
      rw [filter, Tree.filterReads, Tree.idsAll]
      refine (does_nothing_plain.within_plain focus
        does_nothing_plain).weaken (fun _ => ?_)
        (fun _ hId => hId)
      simp
  | cons base predicates =>
      rw [filter, Tree.filterReads, Tree.idsAll]
      have hPredicates (t : Tree) (hT : t ∈ predicates) :=
        hTs t (List.mem_cons_of_mem base hT)
      refine ((hTs base (by simp)).seq_plain
        ((does_exprs hPredicates).within_plain focus
          does_nothing_plain)).weaken (fun _ => ?_)
        (fun _ hId => by simpa using hId)
      simp

theorem does_quantified :
    ∀ {ts : List Tree}, (∀ t ∈ ts, t.ExprWalked) →
      Does (quantified ts) (Tree.quantifiedReads ts)
        (Noted (Tree.idsAll ts) (fun _ _ => False))
  | [], _ => by
      rw [quantified, Tree.quantifiedReads, Tree.idsAll]
      exact does_nothing_plain
  | [condition], hTs => by
      rw [quantified, Tree.quantifiedReads]
      exact (hTs condition (by simp)).weaken
        (fun _ => Iff.rfl)
        (fun _ hId => by simp [Tree.idsAll, hId])
  | [declaration, condition], hTs => by
      rw [quantified, Tree.quantifiedReads]
      exact (hTs condition (by simp)).weaken
        (fun _ => Iff.rfl)
        (fun _ hId => by simp [Tree.idsAll, hId])
  | declaration :: source :: t :: rest, hTs => by
      rw [quantified, Tree.quantifiedReads]
      have hRest (s : Tree) (hS : s ∈ t :: rest) :=
        hTs s (List.mem_cons_of_mem declaration
          (List.mem_cons_of_mem source hS))
      refine ((hTs source (by simp)).seq_plain
        ((does_quantified hRest).within_plain declaration.var?.toList
          does_nothing_plain)).weaken (fun _ => ?_)
        (fun id hId => ?_)
      · simp
      · simp only [List.append_nil, List.mem_append] at hId
        rw [Tree.idsAll, Tree.idsAll, List.mem_append,
          List.mem_append]
        exact .inr hId

theorem does_caseBodies
    {ts : List Tree}
    (hTs : ∀ t ∈ ts, ∀ c ∈ t.children, c.ExprWalked) :
    Does (caseBodies ts) (Tree.bodyReads ts)
      (Noted (Tree.idsAll ts) (fun _ _ => False)) := by
  induction ts with
  | nil =>
      rw [caseBodies, Tree.bodyReads, Tree.idsAll]
      exact does_nothing_plain
  | cons t rest ih =>
      rcases t with ⟨i, k, p, ps, parts⟩
      rw [caseBodies, Tree.bodyReads]
      have hRest := ih (fun t hT => hTs t (by simp [hT]))
      have hBody := does_lastExpr
        (hTs (.node i k p ps parts) (by simp))
      refine (hBody.within_plain (declared parts)
        hRest).weaken (fun _ => Iff.rfl) (fun id hId => ?_)
      simp only [Tree.children, List.mem_append] at hId
      simp only [Tree.idsAll, Tree.ids, List.mem_append,
        List.mem_cons]
      exact hId.imp_left .inr

theorem does_cases
    {ts : List Tree}
    (hTs : ∀ t ∈ ts, t.ExprWalked)
    (hDeep : ∀ t ∈ ts, ∀ c ∈ t.children, c.ExprWalked) :
    Does (cases ts) (Tree.caseReads ts)
      (Noted (Tree.idsAll ts) (fun _ _ => False)) := by
  cases ts with
  | nil =>
      rw [cases, Tree.caseReads, Tree.idsAll]
      exact does_nothing_plain
  | cons operand rest =>
      rw [cases, Tree.caseReads, Tree.idsAll]
      have hRest (t : Tree) (hT : t ∈ rest) :=
        hDeep t (List.mem_cons_of_mem operand hT)
      exact (hTs operand (by simp)).seq_plain
        (does_caseBodies hRest)

/-
  Copies and what follows them.  Each copy is bound in the
  scope that all of them share.
-/
theorem doesInside_copies
    {ts : List Tree}
    {body : Analysis Unit}
    {after : Set String}
    {ids : List NodeId}
    (hTs : ∀ t ∈ ts, ∀ c ∈ t.children, c.ExprWalked)
    (hBody : Does body after (Noted ids (fun _ _ => False)))
    (bound : List String) :
    ∃ added,
      DoesInside (copies ts >>= fun _ => body) bound added
        {n | n ∈ Tree.copyReads after ts ∧ n ∉ bound}
        (Noted (Tree.idsAll ts ++ ids)
          (fun _ _ => False)) := by
  induction ts generalizing bound with
  | nil =>
      refine ⟨[], ?_⟩
      rw [copies, Tree.copyReads, Tree.idsAll, pure_bind]
      exact hBody.inside bound
  | cons t rest ih =>
      rcases t with ⟨i, k, p, ps, parts⟩
      have hRest := ih (fun t hT => hTs t (by simp [hT]))
      rw [copies, Tree.copyReads]
      by_cases hKind : k = .copyBinding
      · subst hKind
        let names := (parts.head?.bind Tree.var?).toList
        rcases hRest (bound ++ names) with ⟨added, hRest⟩
        have hSource := (does_exprAt
          (hTs (.node i .copyBinding p ps parts) (by simp))
            1).inside bound
        have hBind := (doesInside_bindNames names bound).seq
          hRest rfl
        refine ⟨[] ++ (names ++ added), ?_⟩
        simp only [if_true, bind_assoc]
        refine (hSource.seq hBind
          (List.append_nil bound)).mono (fun name => ?_) ?_
        · simp only [Set.mem_ofPred_eq, List.mem_append,
            Set.mem_empty_iff_false, false_or, not_or,
            Tree.children, names]
          constructor
          · rintro (⟨hReads, hNot⟩ | ⟨hLater, hNot, hNew⟩)
            · exact ⟨.inl hReads, hNot⟩
            · exact ⟨.inr ⟨hLater, hNew⟩, hNot⟩
          · rintro ⟨hReads | ⟨hLater, hNew⟩, hNot⟩
            · exact .inl ⟨hReads, hNot⟩
            · exact .inr ⟨hLater, hNot, hNew⟩
        · rintro _ ⟨first, _, rfl, hFirst,
            _, last, rfl, rfl, hLast⟩
          refine (hFirst.append hLast).mono
            (fun id => ?_) (fun _ _ hNone => hNone.elim)
          simp only [Tree.children, Tree.idsAll, Tree.ids,
            List.cons_append, List.count_append,
            List.count_cons]
          omega
      · rcases hRest bound with ⟨added, hRest⟩
        refine ⟨added, ?_⟩
        simp only [if_neg hKind]
        refine hRest.mono (fun _ => Iff.rfl)
          (fun notes hNotes => hNotes.mono (fun id => ?_)
            (fun _ _ hNone => hNone.elim))
        simp only [Tree.idsAll, List.append_assoc,
          List.count_append]
        omega

end Analysis

end Flwor

------------------------------------------------------------
-- Expressions
------------------------------------------------------------

namespace Flwor

namespace Tree

/-
  What the walk up to a stage does, in terms of what is done
  after it.
-/
def StageWalked
    (t : Tree) : Prop :=
  ∀ (wanted : List String) (next : Analysis Unit)
    (names : Set String) (Later : List Annotation → Prop),
    t.kind.isStage → Analysis.Does next names Later →
      Analysis.Does (Analysis.input t wanted next)
        (t.lookups names)
        (Analysis.NotedWith t.ids (t.stageDemands names)
          Later)

variable {i : NodeId}
variable {k : Kind}
variable {p : Payload}
variable {ps : Properties}
variable {cs : List Tree}

/- The demands on an expression are those on its parts. -/
theorem exprDemands_of_plain
    (hPipe : k ≠ .pipeExpr)
    {id : NodeId}
    {demand : Set String}
    (hDemand : (Tree.node i k p ps cs).exprDemands id demand) :
    k.hasOperands ∧ ∃ c ∈ cs, c.exprDemands id demand := by
  rcases hDemand with ⟨s, hId, hDemand⟩
  cases hDemand with
  | operand hKind hChild hBelow =>
      exact ⟨hKind, _, hChild, s, hId, hBelow⟩
  | tail _ => exact (hPipe rfl).elim
  | result _ _ => exact (hPipe rfl).elim

/- The notes of the parts are notes of the expression. -/
theorem exprWalked_of_parts
    {step : Analysis Unit}
    {names : Set String}
    {demands : Demands}
    (hStep : Analysis.expr (.node i k p ps cs) = step)
    (hReads : reads (.node i k p ps cs) = names)
    (hDoes : Analysis.Does step names
      (Analysis.Noted (idsAll cs) demands))
    (hDemands : ∀ id demand,
      (Tree.node i k p ps cs).exprDemands id demand →
        demands id demand) :
    (Tree.node i k p ps cs).ExprWalked := by
  rw [ExprWalked, hStep, hReads]
  exact hDoes.mono (fun _ => Iff.rfl)
    (fun _ hNotes => hNotes.part [i] []
      (by simp [Tree.ids]) hDemands)

theorem does_returned
    (hCs : ∀ c ∈ cs, c.ExprWalked) :
    Analysis.Does (Analysis.returned [] cs) (readsAt 0 cs)
      (Analysis.Noted (idsAll cs)
        (fun id demand => ∃ c, cs[0]? = some c ∧
          c.exprDemands id demand)) := by
  have hAt := Analysis.does_exprAt hCs 0
  cases cs with
  | nil =>
      rw [Analysis.exprAt] at hAt
      exact hAt
  | cons c rest =>
      rw [Analysis.exprAt] at hAt
      exact hAt

/- A nested pipeline: its stages, then its result. -/
theorem exprWalked_pipe
    {j : NodeId}
    {q : Payload}
    {qs : Properties}
    {tail : Tree}
    {rest : List Tree}
    (hStage : tail.kind.isStage)
    (hTail : tail.StageWalked)
    (hRest : ∀ c ∈ rest, c.ExprWalked) :
    (Tree.node i .pipeExpr p ps
      [.node j .finish q qs (tail :: rest)]).ExprWalked := by
  have hBoth := hTail [] _ _ _ hStage (does_returned hRest)
  have hScoped := hBoth.within_bind []
    (fun _ _ _ => Analysis.does_nothing)
  have hDoes :
      Analysis.Does
        (Analysis.pipe [.node j .finish q qs (tail :: rest)])
        (pipeReads [.node j .finish q qs (tail :: rest)])
        (Analysis.Noted
          (idsAll [.node j .finish q qs (tail :: rest)])
          (Tree.node i .pipeExpr p ps
            [.node j .finish q qs
              (tail :: rest)]).exprDemands) := by
    rw [Analysis.pipe, pipeReads]
    refine hScoped.mono (fun _ => by simp) ?_
    rintro _ ⟨_, _, rfl, ⟨own, later, hPerm, hLater, hOwn⟩,
      rfl⟩
    rw [List.append_nil]
    refine ((hOwn.append hLater).perm hPerm).part
      [j] [] (by simp [Tree.ids, idsAll]) ?_
    rintro id demand ⟨s, hId, hDemand⟩
    cases hDemand with
    | operand hKind _ _ => cases hKind
    | tail hBelow => exact .inl ⟨s, hId, hBelow⟩
    | result hFirst hBelow =>
        exact .inr ⟨_, hFirst, s, hId, hBelow⟩
  exact exprWalked_of_parts (by simp [Analysis.expr])
    (by simp [reads]) hDoes (fun _ _ hDemand => hDemand)

/- A transformation: its copies, then the rest. -/
theorem does_transform
    (hCs : ∀ c ∈ cs, c.ExprWalked)
    (hDeep : ∀ c ∈ cs, ∀ d ∈ c.children, d.ExprWalked) :
    Analysis.Does
      (Analysis.expr (.node i .transformExpr p ps cs))
      (reads (.node i .transformExpr p ps cs))
      (Analysis.Noted (idsAll cs) (fun _ _ => False)) := by
  let copied := (cs.filter (fun c =>
    c.kind = .copyBinding)).length
  rcases Analysis.doesInside_copies hDeep
      (Analysis.does_exprsFrom hCs copied) [] with
    ⟨added, hInside⟩
  have hScoped := hInside.scoped
  rw [Analysis.expr, reads]
  simp only [bind_assoc] at hScoped ⊢
  refine hScoped.weaken (fun _ => by simp [copied]) ?_
  intro id hId
  simpa using hId

/- Every expression, given what stands below it. -/
theorem exprWalked_node
    (hPipe : k = .pipeExpr →
      (Tree.node i k p ps cs).ExprWalked)
    (hCs : ∀ c ∈ cs, c.ExprWalked)
    (hDeep : ∀ c ∈ cs, ∀ d ∈ c.children, d.ExprWalked) :
    (Tree.node i k p ps cs).ExprWalked := by
  have hPlain {k : Kind}
      {step : Analysis Unit}
      {names : Set String}
      (hKind : k ≠ .pipeExpr)
      (hOperands : k.hasOperands = false)
      (hStep : Analysis.expr (.node i k p ps cs) = step)
      (hReads : reads (.node i k p ps cs) = names)
      (hDoes : Analysis.Does step names
        (Analysis.Noted (idsAll cs) (fun _ _ => False))) :
      (Tree.node i k p ps cs).ExprWalked := by
    refine exprWalked_of_parts hStep hReads hDoes ?_
    intro id demand hDemand
    have hSome := (exprDemands_of_plain hKind hDemand).1
    rw [hOperands] at hSome
    cases hSome
  have hNone (annotations : List Annotation)
      (hNil : annotations = []) :
      Analysis.Noted (idsAll cs) (fun _ _ => False)
        annotations := by
    rw [hNil]
    exact .nil (by simp)
  cases k
  case pipeExpr => exact hPipe rfl
  case variableRef =>
    refine hPlain (by simp) rfl (by simp [Analysis.expr])
      rfl
      ((Analysis.does_resolveAll p.var?.toList).mono
        (fun _ => ?_) hNone)
    simp [reads]
  case contextItemExpr =>
    refine hPlain (by simp) rfl
      (show _ = Analysis.resolve Analysis.contextItem by
        simp [Analysis.expr])
      rfl
      ((Analysis.does_resolve Analysis.contextItem).mono
        (fun _ => ?_) hNone)
    simp [reads]
  case pathExpr =>
    exact hPlain (by simp) rfl (by simp [Analysis.expr])
      (by simp [reads]) (Analysis.does_path hCs hDeep)
  case filterExpr =>
    exact hPlain (by simp) rfl (by simp [Analysis.expr])
      (by simp [reads]) (Analysis.does_filter hCs)
  case quantifiedExpr =>
    exact hPlain (by simp) rfl (by simp [Analysis.expr])
      (by simp [reads]) (Analysis.does_quantified hCs)
  case typeSwitch =>
    exact hPlain (by simp) rfl (by simp [Analysis.expr])
      (by simp [reads]) (Analysis.does_cases hCs hDeep)
  case tryCatchExpr =>
    exact hPlain (by simp) rfl (by simp [Analysis.expr])
      (by simp [reads]) (Analysis.does_cases hCs hDeep)
  case transformExpr =>
    exact hPlain (by simp) rfl rfl rfl
      (does_transform hCs hDeep)
  all_goals
    refine exprWalked_of_parts (by simp [Analysis.expr])
      (by simp [reads]) (Analysis.does_exprs hCs) ?_
    intro id demand hDemand
    exact (exprDemands_of_plain (by simp) hDemand).2

end Tree

end Flwor

------------------------------------------------------------
-- Stages
------------------------------------------------------------

namespace Flwor

namespace Analysis

variable {ids others : List NodeId}
variable {demands demands' : Demands}
variable {Later : List Annotation → Prop}

theorem NotedWith.mono
    {annotations : List Annotation}
    (hNoted : NotedWith ids demands Later annotations)
    (hIds : ∀ id, ids.count id ≤ others.count id)
    (hDemands : ∀ id demand,
      demands' id demand → demands id demand) :
    NotedWith others demands' Later annotations := by
  rcases hNoted with ⟨own, later, hPerm, hLater, hOwn⟩
  exact ⟨own, later, hPerm, hLater, hOwn.mono hIds hDemands⟩

/- A step in front of one that ends with what comes later. -/
theorem Does.before
    {step next : Analysis Unit}
    {names more : Set String}
    (hStep : Does step names (Noted ids demands))
    (hNext : Does next more
      (NotedWith others demands' Later)) :
    Does (step >>= fun _ => next)
      {n | n ∈ names ∨ n ∈ more}
      (NotedWith (ids ++ others)
        (fun id demand =>
          demands id demand ∨ demands' id demand) Later) := by
  refine (hStep.seq hNext).mono (fun _ => Iff.rfl) ?_
  rintro _ ⟨first, second, rfl, hFirst,
    own, later, hPerm, hLater, hOwn⟩
  refine ⟨first ++ own, later, ?_, hLater,
    hFirst.append hOwn⟩
  rw [List.append_assoc]
  exact hPerm.append_left first

/- What comes later, in a scope, and what is noted of it. -/
theorem Does.within_noted
    {step : Analysis Unit}
    {names more : Set String}
    {next : ClosedScope → Analysis Unit}
    (bound : List String)
    (hDoes : Does step names Later)
    (hNext : ∀ closed : ClosedScope,
      (∀ name, name ∈ closed.demand ↔ name ∈ names) →
      (∀ name, name ∈ closed.externals ↔
        name ∈ names ∧ name ∉ bound) →
        Does (next closed) more (Noted ids demands)) :
    Does (Analysis.within bound step >>= next)
      {n | n ∈ names ∧ n ∉ bound ∨ n ∈ more}
      (NotedWith ids demands Later) := by
  refine (hDoes.within_bind bound hNext).mono
    (fun _ => Iff.rfl) ?_
  rintro _ ⟨later, own, rfl, hLater, hOwn⟩
  exact ⟨own, later, List.perm_append_comm, hLater, hOwn⟩

theorem does_annotate_noted
    (stage : NodeId)
    {names : List String}
    {wanted : Set String}
    (hNames : ∀ name, name ∈ names ↔ name ∈ wanted) :
    Does (annotate stage names) ∅
      (Noted [stage]
        (fun id demand => id = stage ∧ demand = wanted)) := by
  refine (does_annotate stage names).mono
    (fun _ => Iff.rfl) ?_
  rintro _ rfl
  exact .single hNames

theorem does_resolveAll_noted
    (names : List String) :
    Does (resolveAll names) {n | n ∈ names}
      (Noted [] (fun _ _ => False)) := by
  refine (does_resolveAll names).mono (fun _ => Iff.rfl) ?_
  rintro _ rfl
  exact .nil (by simp)

theorem does_readCheck_noted
    (ps : Properties) :
    Does (readCheck ps)
      {n | ps.var? Properties.check = some n}
      (Noted [] (fun _ _ => False)) := by
  unfold readCheck
  exact (does_resolveAll_noted _).mono
    (fun _ => Option.mem_toList) (fun _ hNotes => hNotes)

theorem does_sortKeys
    {ts : List Tree}
    (hTs : ∀ t ∈ ts, ∀ c ∈ t.children, c.ExprWalked) :
    Does (sortKeys ts) (Tree.sortReads ts)
      (Noted (Tree.idsAll ts)
        (fun id demand => ∃ t ∈ ts, ∃ c,
          t.children[0]? = some c ∧
            c.exprDemands id demand)) := by
  induction ts with
  | nil =>
      rw [sortKeys, Tree.sortReads]
      refine does_nothing.mono (fun _ => Iff.rfl) ?_
      rintro _ rfl
      exact .nil (by simp)
  | cons t rest ih =>
      rcases t with ⟨i, k, p, ps, parts⟩
      rw [sortKeys, Tree.sortReads, Tree.idsAll, Tree.ids]
      have hRest := ih (fun t hT => hTs t (by simp [hT]))
      have hKey := does_exprAt
        (hTs (.node i k p ps parts) (by simp)) 0
      refine (hKey.seq hRest).mono (fun _ => Iff.rfl) ?_
      rintro _ ⟨first, second, rfl, hFirst, hSecond⟩
      refine (hFirst.append hSecond).part [i] [] (by simp) ?_
      intro id demand hDemand
      simpa using hDemand

/- The walk of a stage, whatever its kind is. -/
alias input_eq := input.eq_def

end Analysis

namespace Tree

variable {i : NodeId}
variable {k : Kind}
variable {p : Payload}
variable {ps : Properties}
variable {source first : Tree}
variable {rest : List Tree}

/- The demands on a stage and on what it evaluates. -/
def ownDemands
    (wanted : Set String)
    (t : Tree) : Demands :=
  fun id demand => id = t.id ∧ demand = wanted ∨
    ∃ c, Evaluates wanted t c ∧ c.exprDemands id demand

/-
  The demands on a stage with an input are its own and those
  on its input.
-/
theorem stageDemands_cases
    (hKind : k.hasInput)
    {wanted : Set String}
    {id : NodeId}
    {demand : Set String}
    (hDemand : stageDemands wanted
      (.node i k p ps (source :: rest)) id demand) :
    source.stageDemands
        (wants (.node i k p ps (source :: rest)) wanted)
          id demand ∨
      ownDemands wanted (.node i k p ps (source :: rest))
        id demand := by
  rcases hDemand with ⟨s, rfl, hDemand⟩
  cases hDemand with
  | self => exact .inr (.inl ⟨rfl, rfl⟩)
  | input _ hBelow => exact .inl ⟨s, rfl, hBelow⟩
  | own hOwn hBelow =>
      exact .inr (.inr ⟨_, hOwn, s, rfl, hBelow⟩)
  | left _ => cases hKind
  | right _ => cases hKind
  | joinKey _ _ => cases hKind

/-
  A stage with an input: what it does is done after the
  input, before what comes later.
-/
theorem stageWalked_input
    (hStage : source.kind.isStage)
    (hSource : source.StageWalked)
    (hKind : k.hasInput)
    (hBody : ∀ next names Later,
      Analysis.Does next names Later →
        ∃ body,
          (∀ wanted,
            Analysis.input (.node i k p ps (source :: rest))
                wanted next =
              Analysis.input source wanted body) ∧
            Analysis.Does body
              (wants (.node i k p ps (source :: rest)) names)
              (Analysis.NotedWith (i :: idsAll rest)
                (ownDemands names
                  (.node i k p ps (source :: rest)))
                Later)) :
    StageWalked (.node i k p ps (source :: rest)) := by
  intro wanted next names Later _ hNext
  rcases hBody next names Later hNext with
    ⟨body, hInput, hDoes⟩
  rw [hInput, lookups_input hKind]
  refine (hSource wanted body _ _ hStage hDoes).mono
    (fun _ => Iff.rfl) ?_
  rintro annotations ⟨before, after, hPerm,
    ⟨own, later, hPermAfter, hLater, hNoted⟩, hBefore⟩
  refine ⟨before ++ own, later, ?_, hLater, ?_⟩
  · rw [List.append_assoc]
    exact hPerm.trans (hPermAfter.append_left before)
  · refine (hBefore.append hNoted).mono (fun id => ?_)
      (fun id demand => stageDemands_cases hKind)
    simp only [ids, idsAll, List.count_append,
      List.count_cons]
    omega

theorem stageWalked_forBind
    (hStage : source.kind.isStage)
    (hSource : source.StageWalked)
    (hRest : ∀ c ∈ first :: rest, c.ExprWalked) :
    StageWalked
      (.node i .forBind p ps (source :: first :: rest)) := by
  refine stageWalked_input hStage hSource rfl ?_
  intro next names Later hNext
  let self :=
    Tree.node i .forBind p ps (source :: first :: rest)
  have hAfter := hNext.within_noted self.bound
    (fun closed hDemand _ =>
      Analysis.does_annotate_noted i hDemand)
  have hBody := (Analysis.does_lastExpr hRest).before
    ((Analysis.does_readCheck_noted ps).before hAfter)
  refine ⟨_, fun wanted => ?_, hBody.mono (fun name => ?_)
    (fun _ hNotes => hNotes.mono (fun id => ?_) ?_)⟩
  · rw [Analysis.input_eq]
    cases rest <;> simp [Kind.isStage, Analysis.lastExpr, self]
  · simp only [wants, ownReads, kind_node, children_node,
      properties, lastReads, Set.mem_ofPred_eq, self,
      Set.mem_empty_iff_false, or_false]
    tauto
  · simp only [List.count_append, List.count_cons,
      List.count_nil]
    omega
  · rintro id demand (hSelf | ⟨c, hOwn, hBelow⟩)
    · exact .inr (.inr hSelf)
    · simp only [Evaluates, kind_node, children_node,
        List.getLast?_cons_cons] at hOwn
      exact .inl ⟨c, hOwn, hBelow⟩

theorem stageWalked_selection
    (hStage : source.kind.isStage)
    (hSource : source.StageWalked)
    (hRest : ∀ c ∈ first :: rest, c.ExprWalked) :
    StageWalked
      (.node i .selection p ps (source :: first :: rest)) := by
  refine stageWalked_input hStage hSource rfl ?_
  intro next names Later hNext
  let self :=
    Tree.node i .selection p ps (source :: first :: rest)
  have hAfter := hNext.within_noted self.bound
    (fun closed hDemand _ =>
      Analysis.does_annotate_noted i hDemand)
  have hBody := (Analysis.does_exprAt hRest 0).before hAfter
  refine ⟨_, fun wanted => ?_, hBody.mono (fun name => ?_)
    (fun _ hNotes => hNotes.mono (fun id => ?_) ?_)⟩
  · rw [Analysis.input_eq]
    simp [Kind.isStage, Analysis.exprAt, self]
  · simp only [wants, ownReads, kind_node, children_node,
      readsAt, Set.mem_ofPred_eq, self,
      Set.mem_empty_iff_false, or_false]
    tauto
  · simp only [List.count_append, List.count_cons,
      List.count_nil]
    omega
  · rintro id demand (hSelf | ⟨c, hOwn, hBelow⟩)
    · exact .inr hSelf
    · simp only [Evaluates, kind_node, children_node,
        List.getElem?_cons_succ] at hOwn
      exact .inl ⟨c, hOwn, hBelow⟩

theorem stageWalked_orderBy
    (hStage : source.kind.isStage)
    (hSource : source.StageWalked)
    (hRest : ∀ c ∈ first :: rest, ∀ d ∈ c.children,
      d.ExprWalked) :
    StageWalked
      (.node i .orderBy p ps (source :: first :: rest)) := by
  refine stageWalked_input hStage hSource rfl ?_
  intro next names Later hNext
  let self :=
    Tree.node i .orderBy p ps (source :: first :: rest)
  have hAfter := hNext.within_noted self.bound
    (fun closed hDemand _ =>
      Analysis.does_annotate_noted i hDemand)
  have hBody := (Analysis.does_sortKeys hRest).before hAfter
  refine ⟨_, fun wanted => ?_, hBody.mono (fun name => ?_)
    (fun _ hNotes => hNotes.mono (fun id => ?_) ?_)⟩
  · rw [Analysis.input_eq]
    simp [Kind.isStage, Analysis.sortKeysTail, self]
  · simp only [wants, ownReads, kind_node, children_node,
      tailSortReads, Set.mem_ofPred_eq, self,
      Set.mem_empty_iff_false, or_false]
    tauto
  · simp only [List.count_append, List.count_cons,
      List.count_nil]
    omega
  · rintro id demand (hSelf | ⟨c, ⟨spec, hSpec, hKey⟩,
      hBelow⟩)
    · exact .inr hSelf
    · exact .inl ⟨spec, hSpec, c, hKey, hBelow⟩

theorem stageWalked_groupBy
    (hStage : source.kind.isStage)
    (hSource : source.StageWalked) :
    StageWalked
      (.node i .groupBy p ps (source :: first :: rest)) := by
  refine stageWalked_input hStage hSource rfl ?_
  intro next names Later hNext
  let self :=
    Tree.node i .groupBy p ps (source :: first :: rest)
  have hAfter := hNext.within_noted self.bound
    (fun closed hDemand _ =>
      Analysis.does_annotate_noted i hDemand)
  have hSources := (Analysis.does_resolveAll_noted
    (self.groupAggregates.map Prod.snd)).before hAfter
  have hBody := (Analysis.does_resolveAll_noted
    self.groupKeys).before hSources
  refine ⟨_, fun wanted => ?_, hBody.mono (fun name => ?_)
    (fun _ hNotes => hNotes.mono (fun id => ?_) ?_)⟩
  · rw [Analysis.input_eq]
    simp [Kind.isStage, self]
  · simp only [wants, ownReads, kind_node,
      Set.mem_ofPred_eq, self, Set.mem_empty_iff_false,
      or_false]
    tauto
  · simp only [List.count_append, List.count_cons,
      List.count_nil]
    omega
  · rintro id demand (hSelf | ⟨c, hOwn, hBelow⟩)
    · exact .inr (.inr hSelf)
    · exact hOwn.elim

theorem stageWalked_count
    (hStage : source.kind.isStage)
    (hSource : source.StageWalked) :
    StageWalked
      (.node i .count p ps (source :: first :: rest)) := by
  refine stageWalked_input hStage hSource rfl ?_
  intro next names Later hNext
  let self :=
    Tree.node i .count p ps (source :: first :: rest)
  have hBody := hNext.within_noted self.bound
    (fun closed hDemand _ =>
      Analysis.does_annotate_noted i hDemand)
  refine ⟨_, fun wanted => ?_, hBody.mono (fun name => ?_)
    (fun _ hNotes => hNotes.mono (fun id => ?_) ?_)⟩
  · rw [Analysis.input_eq]
    simp [Kind.isStage, self]
  · simp only [wants, ownReads, kind_node, self]
  · simp only [List.count_cons, List.count_nil]
    omega
  · rintro id demand (hSelf | ⟨c, hOwn, hBelow⟩)
    · exact hSelf
    · exact hOwn.elim

/- The value of a `let` is walked if its variable is read. -/
theorem stageWalked_letBind
    (hStage : source.kind.isStage)
    (hSource : source.StageWalked)
    (hRest : ∀ c ∈ first :: rest, c.ExprWalked) :
    StageWalked
      (.node i .letBind p ps (source :: first :: rest)) := by
  refine stageWalked_input hStage hSource rfl ?_
  intro next names Later hNext
  let self :=
    Tree.node i .letBind p ps (source :: first :: rest)
  have hNote (closed : ClosedScope)
      (hDemand : ∀ name,
        name ∈ closed.demand ↔ name ∈ names) :
      Analysis.Does
        (if (self.binding?.map
            closed.demand.contains).getD false then
          Analysis.exprAt 2 (source :: first :: rest) >>=
            fun _ => Analysis.readCheck ps >>= fun _ =>
              Analysis.annotate i closed.demand
        else Analysis.annotate i closed.demand)
        (self.ownReads names)
        (Analysis.Noted (i :: idsAll (first :: rest))
          (ownDemands names self)) := by
    have hLive :
        (self.binding?.map closed.demand.contains).getD
            false = true ↔ self.IsWanted names := by
      unfold IsWanted
      cases self.binding? with
      | none => simp
      | some var => simp [hDemand]
    have hNote := Analysis.does_annotate_noted i hDemand
    by_cases hWanted : self.IsWanted names
    · rw [if_pos (hLive.mpr hWanted)]
      have hValue := (Analysis.does_exprAt hRest 1).seq_noted
        ((Analysis.does_readCheck_noted ps).seq_noted hNote)
      rw [Analysis.exprAt]
      refine hValue.mono (fun name => ?_)
        (fun _ hNotes => hNotes.mono (fun id => ?_) ?_)
      · simp [ownReads, self, hWanted, readsAt, properties]
      · simp only [List.count_append, List.count_cons,
          List.count_nil]
        omega
      · rintro id demand (hSelf | ⟨c, ⟨_, hOwn⟩, hBelow⟩)
        · exact .inr (.inr hSelf)
        · simp only [self, children_node,
            List.getElem?_cons_succ] at hOwn
          exact .inl ⟨c, hOwn, hBelow⟩
    · rw [if_neg (fun h => hWanted (hLive.mp h))]
      refine hNote.mono (fun name => ?_)
        (fun _ hNotes => hNotes.mono (fun id => ?_) ?_)
      · simp [ownReads, self, hWanted]
      · simp only [List.count_cons, List.count_nil]
        omega
      · rintro id demand (hSelf | ⟨c, hOwn, hBelow⟩)
        · exact hSelf
        · exact (hWanted hOwn.1).elim
  refine ⟨_, fun wanted => ?_,
    hNext.within_noted self.bound
      (fun closed hDemand _ => hNote closed hDemand)⟩
  rw [Analysis.input_eq]
  simp [Kind.isStage, self]

theorem stageWalked_start
    {cs : List Tree} :
    StageWalked (.node i .start p ps cs) := by
  intro wanted next names Later _ hNext
  let self := Tree.node i .start p ps cs
  have hBody := hNext.within_noted self.bound
    (fun closed hDemand _ =>
      Analysis.does_annotate_noted i hDemand)
  have hInput :
      Analysis.input (.node i .start p ps cs) wanted next =
        Analysis.within self.bound next >>= fun closed =>
          Analysis.annotate i closed.demand := by
    rw [Analysis.input_eq]
    simp [self]
  rw [hInput]
  refine hBody.mono (fun name => ?_)
    (fun _ hNotes => hNotes.mono (fun id => ?_) ?_)
  · simp [self, bound, lookups]
  · simp only [ids, List.count_cons, List.count_nil]
    omega
  · rintro id demand ⟨s, rfl, hDemand⟩
    cases hDemand with
    | self => exact ⟨rfl, rfl⟩
    | input hKind _ => cases hKind
    | own hOwn _ => exact hOwn.elim

/-
  The keys of a join and what comes later, in the scope of
  the names that the inputs provide.
-/
theorem does_joinScope
    {leftKey rightKey : Tree}
    {next : Analysis Unit}
    {names : Set String}
    {Later : List Annotation → Prop}
    (hLeftKey : leftKey.ExprWalked)
    (hRightKey : rightKey.ExprWalked)
    (hNext : Analysis.Does next names Later)
    (boundLeft boundRight : List String) :
    Analysis.Does
      (Analysis.openScope false >>= fun _ =>
        boundLeft.forM Analysis.bindName >>= fun _ =>
          boundRight.forM Analysis.bindName >>= fun _ =>
            Analysis.expr leftKey >>= fun _ =>
              Analysis.expr rightKey >>= fun _ =>
                Analysis.within [] next >>= fun closed =>
                  Analysis.annotate i closed.externals >>=
                    fun _ => Analysis.close >>=
                      fun _ => pure ())
      {n | (n ∈ leftKey.reads ∨ n ∈ rightKey.reads ∨
        n ∈ names) ∧ n ∉ boundLeft ∧ n ∉ boundRight}
      (Analysis.NotedWith
        (leftKey.ids ++ (rightKey.ids ++ [i]))
        (fun id demand => leftKey.exprDemands id demand ∨
          rightKey.exprDemands id demand ∨
            id = i ∧ demand = names) Later) := by
  have hNote (closed : ClosedScope)
      (hExternals : ∀ name, name ∈ closed.externals ↔
        name ∈ names ∧ name ∉ ([] : List String)) :
      Analysis.Does (Analysis.annotate i closed.externals) ∅
        (Analysis.Noted [i]
          (fun id demand => id = i ∧ demand = names)) :=
    Analysis.does_annotate_noted i
      (fun name => (hExternals name).trans (by simp))
  have hLater := hNext.within_noted []
    (fun closed _ hExternals => hNote closed hExternals)
  have hBody := hLeftKey.before (hRightKey.before hLater)
  have hInside :=
    (Analysis.doesInside_bindNames boundLeft []).seq
      ((Analysis.doesInside_bindNames boundRight
        boundLeft).seq
          (hBody.inside (boundLeft ++ boundRight)) rfl) rfl
  have hScoped := hInside.scoped
  simp only [bind_assoc] at hScoped
  refine hScoped.mono (fun name => ?_) ?_
  · simp only [Set.mem_ofPred_eq, Set.mem_empty_iff_false,
      List.mem_append, List.not_mem_nil]
    tauto
  · rintro _ ⟨_, _, rfl, rfl, _, _, rfl, rfl, hNotes⟩
    exact hNotes

/- The shares of a join are sets of the names in its lists. -/
theorem mem_splitDemand
    {outside leftReads rightReads rightMissing : List String}
    {wanted leftNames rightNames missing : Set String}
    (hOutside : ∀ n, n ∈ outside ↔ n ∈ wanted)
    (hLeft : ∀ n, n ∈ leftReads ↔ n ∈ leftNames)
    (hRight : ∀ n, n ∈ rightReads ↔ n ∈ rightNames)
    (hMissing : ∀ n, n ∈ rightMissing ↔ n ∈ missing)
    (name : String) :
    (name ∈ (Analysis.splitDemand outside leftReads
        rightReads rightMissing).left ↔
      name ∈ leftShare leftNames wanted
        (rightShare rightNames wanted missing)) ∧
    (name ∈ (Analysis.splitDemand outside leftReads
        rightReads rightMissing).right ↔
      name ∈ rightShare rightNames wanted missing) := by
  simp [Analysis.splitDemand, leftShare, rightShare,
    hOutside, hLeft, hRight, hMissing]

theorem stageWalked_join
    {left right leftKey rightKey : Tree}
    {j : NodeId}
    {q : Payload}
    {qs : Properties}
    (hLeftStage : left.kind.isStage)
    (hRightStage : right.kind.isStage)
    (hLeft : left.StageWalked)
    (hRight : right.StageWalked)
    (hLeftKey : leftKey.ExprWalked)
    (hRightKey : rightKey.ExprWalked) :
    StageWalked (.node i .join p ps
      [left, .node j .joinExpr q qs [leftKey, rightKey],
        right]) := by
  intro wanted next names Later _ hNext
  let leftMissing :=
    left.lookups {n | n ∈ names ∨ n ∈ leftKey.reads}
  let rightMissing :=
    right.lookups {n | n ∈ names ∨ n ∈ rightKey.reads}
  let toRight := rightShare rightKey.reads names rightMissing
  let toLeft := leftShare leftKey.reads names toRight
  have hInput (t : Tree) (hStage : t.kind.isStage)
      (hWalked : t.StageWalked)
      (asked : List String)
      {askedNames : Set String}
      (hAsked : ∀ n, n ∈ asked ↔ n ∈ askedNames) :
      Analysis.Does
        (Analysis.input t asked (Analysis.resolveAll asked))
        (t.lookups askedNames)
        (Analysis.Noted t.ids
          (t.stageDemands askedNames)) := by
    have hNext : Analysis.Does (Analysis.resolveAll asked)
        askedNames (fun notes => notes = []) :=
      (Analysis.does_resolveAll asked).mono hAsked
        (fun _ hNotes => hNotes)
    refine (hWalked asked _ _ _ hStage hNext).mono
      (fun _ => Iff.rfl) ?_
    rintro annotations ⟨own, _, hPerm, rfl, hOwn⟩
    rw [List.append_nil] at hPerm
    exact hOwn.perm hPerm
  have hWants (first second : List String)
      {names others : Set String}
      (hFirst : ∀ n, n ∈ first ↔ n ∈ names)
      (hSecond : ∀ n, n ∈ second ↔ n ∈ others) (n : String) :
      n ∈ (first ++ second).eraseDups ↔
        n ∈ {n | n ∈ names ∨ n ∈ others} := by
    simp [hFirst, hSecond]
  rw [Analysis.input_eq]
  simp only [if_true, Analysis.join, List.isEmpty_nil,
    reduceCtorEq, or_true]
  refine hNext.speculate_bind (fun outside hOutside => ?_)
  refine hLeftKey.speculate_bind (fun leftReads hLeftReads => ?_)
  refine hRightKey.speculate_bind
    (fun rightReads hRightReads => ?_)
  refine (hInput left hLeftStage hLeft _
    (hWants _ _ hOutside hLeftReads)).speculate_bind
      (fun leftLooked hLeftLooked => ?_)
  refine (hInput right hRightStage hRight _
    (hWants _ _ hOutside hRightReads)).speculate_bind
      (fun rightLooked hRightLooked => ?_)
  have hSplit := mem_splitDemand hOutside hLeftReads
    hRightReads hRightLooked
  let split := Analysis.splitDemand outside leftReads
    rightReads rightLooked
  have hScope := does_joinScope (i := i) hLeftKey hRightKey
    hNext
    (split.left.filter (fun n => !leftLooked.contains n))
    (split.right.filter (fun n => !rightLooked.contains n))
  have hBoth := (hInput left hLeftStage hLeft split.left
    (fun n => (hSplit n).1)).before
      ((hInput right hRightStage hRight split.right
        (fun n => (hSplit n).2)).before hScope)
  refine hBoth.mono (fun name => ?_)
    (fun _ hNotes => hNotes.mono (fun id => ?_) ?_)
  · simp only [lookups, joinLookups, unprovided,
      Set.mem_ofPred_eq, List.mem_filter, hSplit, split,
      Bool.not_eq_true', List.contains_eq_mem,
      decide_eq_false_iff_not, hLeftLooked, hRightLooked,
      not_and, not_not]
  · simp only [ids, idsAll, List.count_append,
      List.count_cons, List.count_nil]
    omega
  · rintro id demand ⟨s, rfl, hDemand⟩
    cases hDemand with
    | self => exact .inr (.inr (.inr (.inr ⟨rfl, rfl⟩)))
    | input hKind _ => cases hKind
    | own hOwn _ => exact hOwn.elim
    | left hBelow => exact .inl ⟨s, rfl, hBelow⟩
    | right hBelow => exact .inr (.inl ⟨s, rfl, hBelow⟩)
    | joinKey hKey hBelow =>
        rcases hKey with rfl | rfl
        · exact .inr (.inr (.inl ⟨s, rfl, hBelow⟩))
        · exact .inr (.inr (.inr (.inl ⟨s, rfl, hBelow⟩)))

end Tree

end Flwor

------------------------------------------------------------
-- Whole Trees
------------------------------------------------------------

namespace Flwor

namespace Tree

/- A tree in shape is walked without a failure. -/
theorem walked_of_shaped
    (t : Tree)
    (hShaped : t.Shaped) :
    t.ExprWalked ∧ t.StageWalked := by
  induction t using Tree.inductDeep with
  | node i k p ps cs ih ihDeep =>
      have hBoth (c : Tree) (hC : c ∈ cs) :=
        ih c hC (hShaped.child hC)
      have hDeep (c : Tree) (hC : c ∈ cs) (d : Tree)
          (hD : d ∈ c.children) :=
        ihDeep c hC d hD ((hShaped.child hC).child hD)
      have hExpr (c : Tree) (hC : c ∈ cs) := (hBoth c hC).1
      have hExprDeep (c : Tree) (hC : c ∈ cs) (d : Tree)
          (hD : d ∈ c.children) :=
        (hDeep c hC d hD).1
      refine ⟨exprWalked_node (fun hPipe => ?_) hExpr
        hExprDeep, ?_⟩
      · subst hPipe
        rcases hShaped.pipe with
          ⟨j, q, qs, tail, rest, rfl, hStage⟩
        have hFinish (d : Tree) (hD : d ∈ tail :: rest) :=
          hDeep (.node j .finish q qs (tail :: rest))
            (by simp) d hD
        exact exprWalked_pipe hStage
          (hFinish tail (by simp)).2
          (fun c hC => (hFinish c (by simp [hC])).1)
      · by_cases hKind : k.hasInput
        · rcases hShaped.input hKind with
            ⟨source, first, rest, rfl, hStage⟩
          have hSource := (hBoth source (by simp)).2
          have hRest (c : Tree) (hC : c ∈ first :: rest) :=
            hExpr c (List.mem_cons_of_mem source hC)
          rcases Kind.eq_of_hasInput hKind with
            rfl | rfl | rfl | rfl | rfl | rfl
          · exact stageWalked_forBind hStage hSource hRest
          · exact stageWalked_letBind hStage hSource hRest
          · exact stageWalked_selection hStage hSource hRest
          · exact stageWalked_orderBy hStage hSource
              (fun c hC => hExprDeep c
                (List.mem_cons_of_mem source hC))
          · exact stageWalked_groupBy hStage hSource
          · exact stageWalked_count hStage hSource
        · cases k
          case start => exact stageWalked_start
          case join =>
            rcases hShaped.join with ⟨left, j, q, qs,
              leftKey, rightKey, right, rfl, hLeft, hRight⟩
            have hKeys (d : Tree)
                (hD : d ∈ [leftKey, rightKey]) :=
              hExprDeep (.node j .joinExpr q qs
                [leftKey, rightKey]) (by simp) d hD
            exact stageWalked_join hLeft hRight
              (hBoth left (by simp)).2
              (hBoth right (by simp)).2
              (hKeys leftKey (by simp))
              (hKeys rightKey (by simp))
          all_goals
            first
            | exact (hKind rfl).elim
            | (intro _ _ _ _ hStage
               cases hStage)

mutual

/- The outermost pipelines of a tree, one after the other. -/
theorem does_outermost :
    ∀ {t : Tree}, t.Shaped →
      ∃ names, Analysis.Does (Analysis.outermost t) names
        (Analysis.Noted t.ids t.exprDemands)
  | .node i k p ps cs, hShaped => by
      by_cases hPipe : k = .pipeExpr
      · subst hPipe
        have hWalked := (walked_of_shaped _ hShaped).1
        refine ⟨reads (.node i .pipeExpr p ps cs), ?_⟩
        rw [Analysis.outermost, if_pos rfl]
        rw [ExprWalked] at hWalked
        simp only [Analysis.expr] at hWalked
        exact hWalked
      · rcases does_outermostAll
            (fun c hC => hShaped.child hC) with
          ⟨names, hDoes⟩
        refine ⟨names, ?_⟩
        rw [Analysis.outermost, if_neg hPipe]
        refine hDoes.mono (fun _ => Iff.rfl)
          (fun _ hNotes => hNotes.part [i] []
            (by simp [ids]) ?_)
        intro id demand hDemand
        exact (exprDemands_of_plain hPipe hDemand).2

theorem does_outermostAll :
    ∀ {ts : List Tree}, (∀ t ∈ ts, t.Shaped) →
      ∃ names, Analysis.Does (Analysis.outermostAll ts) names
        (Analysis.Noted (idsAll ts)
          (fun id demand =>
            ∃ t ∈ ts, t.exprDemands id demand))
  | [], _ => by
      refine ⟨∅, ?_⟩
      rw [Analysis.outermostAll]
      refine Analysis.does_nothing.mono
        (fun _ => Iff.rfl) ?_
      rintro _ rfl
      exact .nil (by simp)
  | t :: ts, hShaped => by
      rcases does_outermost (hShaped t (by simp)) with
        ⟨first, hFirst⟩
      have hRest (s : Tree) (hS : s ∈ ts) : s.Shaped :=
        hShaped s (by simp [hS])
      rcases does_outermostAll hRest with
        ⟨second, hSecond⟩
      refine ⟨{n | n ∈ first ∨ n ∈ second}, ?_⟩
      rw [Analysis.outermostAll, idsAll]
      refine (hFirst.seq_noted hSecond).mono
        (fun _ => Iff.rfl) (fun _ hNotes =>
          hNotes.mono (fun _ => le_rfl) ?_)
      intro id demand hDemand
      simpa using hDemand

end

end Tree

end Flwor
