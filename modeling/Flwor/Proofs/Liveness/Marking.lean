import Flwor.Proofs.Liveness.LiveStages
import Flwor.Proofs.Liveness.Making
import Flwor.Proofs.Liveness.Walks
import Flwor.Proofs.Substitution

/-
  The walk of a tree marks each of its live stages once.

  The walk of an expression marks the live stages in it.  The
  walk of a stage marks it, those before it and those in its
  expressions, besides what is made of its rows afterwards.
  A join walks its parts more than once, but all walks except
  for one are speculative.

  Key definitions include:
    * `Tree.Stageless`
    * `Tree.ExprMarked`, `Tree.StageMarked`, `Tree.Marked`

  Key theorems include:
    * `Tree.stageMarked_letBind`
    * `Tree.stageMarked_join`
    * `Tree.marked_of_shaped`
    * `Tree.makes_outermost`
-/

------------------------------------------------------------
-- Several Expressions
------------------------------------------------------------

namespace Flwor

namespace Tree

/- No stage is in the tree, or none is ever live. -/
def Stageless
    (t : Tree) : Prop :=
  ∀ notes, t.liveUnder notes = []

/- The walk of an expression marks the stages in it. -/
def ExprMarked
    (t : Tree) : Prop :=
  Analysis.Makes (Analysis.expr t)
    (Analysis.Marks t.ids t.liveUnder)

/-
  The walk of a stage marks it and the stages before it,
  besides what is made of its rows.
-/
def StageMarked
    (t : Tree) : Prop :=
  t.kind.isStage →
    ∀ (wanted : List String) (next : Analysis Unit)
      (Later : List Annotation → Prop),
      Analysis.Makes next Later →
        Analysis.Makes (Analysis.input t wanted next)
          (Analysis.MarksWith t.ids t.liveUnder Later)

theorem liveUnderAll_of_stageless
    {ts : List Tree}
    (hTs : ∀ t ∈ ts, t.Stageless)
    (notes : Notes) :
    liveUnderAll ts notes = [] := by
  induction ts with
  | nil => rfl
  | cons t rest ih =>
      rw [List.forall_mem_cons] at hTs
      rw [liveUnderAll_cons, hTs.1 notes, ih hTs.2,
        List.append_nil]

theorem stageless_node
    {i : NodeId}
    {k : Kind}
    {p : Payload}
    {ps : Properties}
    {cs : List Tree}
    (hKind : k.isStage = false)
    (hCs : ∀ c ∈ cs, c.Stageless) :
    Stageless (.node i k p ps cs) := by
  intro notes
  rw [liveUnder_of_not_stage notes hKind]
  exact liveUnderAll_of_stageless hCs notes

/- What names a variable or a value has no stages. -/
theorem KeepsSlots.stageless
    {t : Tree}
    (hSlots : t.KeepsSlots)
    (hLeaf : t.kind.isLeaf) :
    t.Stageless := by
  have hChildren := hSlots.leaf hLeaf
  rcases t with ⟨i, k, p, ps, cs⟩
  cases hChildren
  refine stageless_node ?_ (List.forall_mem_nil _)
  cases k <;> first | rfl | cases hLeaf

end Tree

namespace Analysis

theorem makes_exprs
    {ts : List Tree}
    (hTs : ∀ t ∈ ts, t.ExprMarked) :
    Makes (exprs ts)
      (Marks (Tree.idsAll ts) (Tree.liveUnderAll ts)) := by
  induction ts with
  | nil =>
      rw [exprs]
      exact makes_nothing []
  | cons t rest ih =>
      rw [List.forall_mem_cons] at hTs
      rw [exprs]
      exact hTs.1.seq (ih hTs.2)

/- The last expression, if no other one has stages. -/
theorem makes_lastExpr
    {leaves : List Tree}
    {e : Tree}
    (hLeaves : ∀ t ∈ leaves, t.Stageless)
    (hE : e.ExprMarked) :
    Makes (lastExpr (leaves ++ [e]))
      (Marks (Tree.idsAll (leaves ++ [e]))
        (Tree.liveUnderAll (leaves ++ [e]))) := by
  induction leaves with
  | nil =>
      rw [List.nil_append, lastExpr]
      refine hE.mono (fun _ hMarks => hMarks.mono ?_ ?_)
      · simp [Tree.idsAll]
      · simp
  | cons t rest ih =>
      rw [List.forall_mem_cons] at hLeaves
      have hLast : lastExpr (t :: rest ++ [e]) =
          lastExpr (rest ++ [e]) := by
        cases rest <;> rfl
      rw [hLast]
      refine (ih hLeaves.2).mono
        (fun _ hMarks => hMarks.mono ?_ ?_)
      · intro id
        rw [List.cons_append, Tree.idsAll, List.count_append]
        exact Nat.le_add_left _ _
      · intro notes _
        rw [List.cons_append, Tree.liveUnderAll_cons,
          hLeaves.1 notes, List.nil_append]

/- The keys of a sort, one for each order spec. -/
theorem makes_sortKeys
    {specs : List Tree}
    (hSpecs : ∀ spec ∈ specs,
      ∃ i k p ps e, spec = .node i k p ps [e] ∧
        k.isStage = false ∧ e.ExprMarked) :
    Makes (sortKeys specs)
      (Marks (Tree.idsAll specs) (Tree.liveUnderAll specs)) := by
  induction specs with
  | nil =>
      rw [sortKeys]
      exact makes_nothing []
  | cons spec rest ih =>
      rw [List.forall_mem_cons] at hSpecs
      rcases hSpecs.1 with ⟨i, k, p, ps, e, rfl, hKind, hE⟩
      rw [sortKeys, exprAt]
      refine (hE.seq (ih hSpecs.2)).mono
        (fun _ hMarks => hMarks.mono ?_ ?_)
      · intro id
        simp only [Tree.idsAll, Tree.ids, List.count_append,
          List.count_cons, List.append_nil]
        omega
      · intro notes _
        rw [Tree.liveUnderAll_cons,
          Tree.liveUnder_of_not_stage notes hKind,
          Tree.liveUnderAll_cons, Tree.liveUnderAll_nil,
          List.append_nil]

/- What has no stages is left unmarked. -/
theorem Makes.marks_stageless
    {step : Analysis Unit}
    {ts : List Tree}
    (hMakes : Makes step (fun notes => notes = []))
    (hTs : ∀ t ∈ ts, t.Stageless) :
    Makes step
      (Marks (Tree.idsAll ts) (Tree.liveUnderAll ts)) := by
  refine (hMakes.marks_nil _).mono (fun _ hMarks =>
    hMarks.mono (fun _ => le_rfl) (fun notes _ => ?_))
  rw [Tree.liveUnderAll_of_stageless hTs]

/- The stages of a step and of what came after it. -/
theorem MarksWith.marks
    {ids others : List NodeId}
    {live live' : Notes → List NodeId}
    {annotations : List Annotation}
    (hMarks : MarksWith ids live (Marks others live')
      annotations) :
    Marks (ids ++ others)
      (fun notes => live notes ++ live' notes)
      annotations := by
  rcases hMarks with ⟨own, later, hPerm, hLater, hOwn⟩
  exact (hOwn.append hLater).perm hPerm

end Analysis

end Flwor

------------------------------------------------------------
-- Expressions
------------------------------------------------------------

namespace Flwor

namespace Tree

variable {i : NodeId}
variable {k : Kind}
variable {p : Payload}
variable {ps : Properties}
variable {cs : List Tree}

/- An expression without a pipeline of its own. -/
theorem exprMarked_node
    (hCompiled : k.isCompiled)
    (hPipe : k ≠ .pipeExpr)
    (hReference : k = .variableRef → cs = [])
    (hCs : ∀ c ∈ cs, c.ExprMarked) :
    ExprMarked (.node i k p ps cs) := by
  have hStage := Kind.isStage_of_isCompiled hCompiled
  have hWalk : Analysis.Makes
      (Analysis.expr (.node i k p ps cs))
      (Analysis.Marks (idsAll cs) (liveUnderAll cs)) := by
    by_cases hKind : k = .variableRef
    · subst hKind
      rw [hReference rfl, Analysis.expr]
      exact Analysis.makes_resolveAll _ _
    · have hAll : Analysis.expr (.node i k p ps cs) =
          Analysis.exprs cs := by
        cases k <;>
          first
          | exact (hPipe rfl).elim
          | exact (hKind rfl).elim
          | (cases hCompiled
             done)
          | simp [Analysis.expr]
      rw [hAll]
      exact Analysis.makes_exprs hCs
  refine hWalk.mono (fun _ hMarks => hMarks.mono ?_ ?_)
  · intro id
    rw [ids, List.count_cons]
    exact Nat.le_add_right _ _
  · intro notes _
    rw [liveUnder_of_not_stage notes hStage]

/- A nested pipeline, with a result or without one. -/
theorem exprMarked_pipe
    {j : NodeId}
    {q : Payload}
    {qs : Properties}
    {tail : Tree}
    {rest : List Tree}
    (hStage : tail.kind.isStage)
    (hCount : rest.length ≤ 1)
    (hTail : tail.StageMarked)
    (hRest : ∀ c ∈ rest, c.ExprMarked) :
    ExprMarked (.node i .pipeExpr p ps
      [.node j .finish q qs (tail :: rest)]) := by
  have hResult : Analysis.Makes (Analysis.returned [] rest)
      (Analysis.Marks (idsAll rest) (liveUnderAll rest)) := by
    rcases rest with _ | ⟨result, _ | ⟨_, _⟩⟩
    · rw [Analysis.returned]
      exact Analysis.makes_resolveAll [] []
    · rw [Analysis.returned]
      have hOne := Analysis.makes_lastExpr
        (List.forall_mem_nil _) (hRest result (by simp))
      rw [List.nil_append, Analysis.lastExpr] at hOne
      exact hOne
    · simp at hCount
  have hInput := (hTail hStage [] _ _ hResult).mono
    (fun _ hMarks => hMarks.marks)
  have hWalk := (hInput.within []).seq
    (Analysis.makes_nothing [])
  rw [ExprMarked, Analysis.expr]
  refine hWalk.mono (fun _ hMarks => hMarks.mono ?_ ?_)
  · intro id
    simp only [ids, idsAll, List.count_append,
      List.count_cons, List.count_nil]
    omega
  · intro notes _
    simp [liveUnder_of_not_stage notes
      (show Kind.pipeExpr.isStage = false from rfl),
      liveUnder_of_not_stage notes
        (show Kind.finish.isStage = false from rfl)]

end Tree

end Flwor

------------------------------------------------------------
-- Stages
------------------------------------------------------------

namespace Flwor

namespace Analysis

variable {ids : List NodeId}
variable {live live' : Notes → List NodeId}

/- A step, and then a stage is annotated. -/
theorem Makes.annotated
    {step : Analysis Unit}
    {stage : NodeId}
    {names : List String}
    (hStep : Makes step (Marks ids live))
    (hLive : ∀ notes : Notes, notes stage = some names →
      (live notes ++ [stage]).Perm (live' notes)) :
    Makes (step >>= fun _ => annotate stage names)
      (Marks (ids ++ [stage]) live') := by
  refine (hStep.bind (fun _ =>
    makes_annotate stage names)).mono ?_
  rintro _ ⟨first, _, rfl, hFirst, rfl⟩
  refine (hFirst.append (.single ⟨stage, names⟩)).mono
    (fun _ => le_rfl) ?_
  intro notes hAgrees
  exact hLive notes (hAgrees ⟨stage, names⟩ (by simp))

end Analysis

namespace Tree

variable {i : NodeId}
variable {k : Kind}
variable {p : Payload}
variable {ps : Properties}
variable {source : Tree}
variable {rest : List Tree}

/-
  A stage with an input: what it does is done after the
  input, before what comes later.
-/
theorem stageMarked_input
    {own : Notes → List NodeId}
    (hSource : source.StageMarked)
    (hStage : source.kind.isStage)
    (hOwn : ∀ notes,
      (source.liveUnder notes ++ own notes).Perm
        (liveUnder (.node i k p ps (source :: rest)) notes))
    (hBody : ∀ next Later, Analysis.Makes next Later →
      ∃ body,
        (∀ wanted,
          Analysis.input (.node i k p ps (source :: rest))
              wanted next =
            Analysis.input source wanted body) ∧
          Analysis.Makes body
            (Analysis.MarksWith (i :: idsAll rest) own
              Later)) :
    StageMarked (.node i k p ps (source :: rest)) := by
  intro _ wanted next Later hNext
  rcases hBody next Later hNext with ⟨body, hInput, hMakes⟩
  rw [hInput]
  refine (hSource hStage wanted body _ hMakes).mono ?_
  rintro annotations ⟨before, after, hPerm,
    ⟨inner, later, hPermAfter, hLater, hInner⟩, hBefore⟩
  refine ⟨before ++ inner, later, ?_, hLater, ?_⟩
  · rw [List.append_assoc]
    exact hPerm.trans (hPermAfter.append_left before)
  · refine (hBefore.append hInner).mono (fun id => ?_)
      (fun notes _ => hOwn notes)
    simp only [ids, idsAll, List.count_append,
      List.count_cons]
    omega

/- A stage that has read what it needs binds its names. -/
theorem makes_bound
    {reads next : Analysis Unit}
    {Later : List Annotation → Prop}
    (bound : List String)
    (hReads : Analysis.Makes reads
      (Analysis.Marks (idsAll rest) (liveUnderAll rest)))
    (hNext : Analysis.Makes next Later) :
    Analysis.Makes
      (reads >>= fun _ =>
        Analysis.within bound next >>= fun closed =>
          Analysis.annotate i closed.demand)
      (Analysis.MarksWith (i :: idsAll rest)
        (fun notes => i :: liveUnderAll rest notes)
        Later) := by
  have hNoted (closed : ClosedScope) :
      Analysis.Makes (Analysis.annotate i closed.demand)
        (Analysis.Marks [i] (fun _ => [i])) := by
    refine (Analysis.makes_annotate i _).mono ?_
    rintro _ rfl
    exact .single ⟨i, closed.demand⟩
  refine (hReads.before
    (hNext.within_marked bound hNoted)).mono
      (fun _ hMarks => hMarks.mono ?_ ?_)
  · intro id
    simp only [List.count_append, List.count_cons,
      List.count_nil]
    omega
  · exact fun notes => List.perm_append_comm

/- A stage that evaluates all expressions on its input. -/
theorem stageMarked_plain
    {reads : Analysis Unit}
    (hSource : source.StageMarked)
    (hStage : source.kind.isStage)
    (hSelf : k.isStage)
    (hLet : k ≠ .letBind)
    (hReads : Analysis.Makes reads
      (Analysis.Marks (idsAll rest) (liveUnderAll rest)))
    (hInput : ∀ wanted next,
      Analysis.input (.node i k p ps (source :: rest))
          wanted next =
        Analysis.input source wanted
          (reads >>= fun _ =>
            Analysis.within
                (bound (.node i k p ps (source :: rest)))
                next >>= fun closed =>
              Analysis.annotate i closed.demand)) :
    StageMarked (.node i k p ps (source :: rest)) := by
  refine stageMarked_input hSource hStage (fun notes => ?_)
    (fun next Later hNext => ⟨_, fun wanted =>
      hInput wanted next, makes_bound _ hReads hNext⟩)
  rw [liveUnder_node notes hLet, hSelf, if_pos rfl]
  exact List.perm_middle

end Tree

end Flwor

------------------------------------------------------------
-- Stages of Each Kind
------------------------------------------------------------

namespace Flwor

namespace Tree

variable {i : NodeId}
variable {p : Payload}
variable {ps : Properties}
variable {source e : Tree}
variable {leaves rest : List Tree}

theorem stageMarked_start :
    StageMarked (.node i .start p ps []) := by
  intro _ wanted next Later hNext
  have hReads : Analysis.Makes (pure ())
      (Analysis.Marks (idsAll []) (liveUnderAll [])) :=
    Analysis.does_nothing.makes.marks_stageless
      (List.forall_mem_nil _)
  have hInput :
      Analysis.input (.node i .start p ps []) wanted next =
        pure () >>= fun _ =>
          Analysis.within (bound (.node i .start p ps []))
              next >>= fun closed =>
            Analysis.annotate i closed.demand := by
    rw [Analysis.input_eq]
    simp
  rw [hInput]
  exact makes_bound _ hReads hNext

theorem stageMarked_forBind
    (hSource : source.StageMarked)
    (hStage : source.kind.isStage)
    (hLeaves : ∀ l ∈ leaves, l.Stageless)
    (hE : e.ExprMarked) :
    StageMarked
      (.node i .forBind p ps (source :: (leaves ++ [e]))) := by
  have hReads :=
    (Analysis.makes_lastExpr hLeaves hE).seq
      (Analysis.makes_resolveAll
        (ps.var? Properties.check).toList [])
  simp only [List.append_nil] at hReads
  refine stageMarked_plain hSource hStage rfl (by simp)
    hReads (fun wanted next => ?_)
  rw [Analysis.input_eq]
  cases leaves <;>
    simp [Kind.isStage, Analysis.lastExpr,
      Analysis.readCheck]

theorem stageMarked_selection
    (hSource : source.StageMarked)
    (hStage : source.kind.isStage)
    (hE : e.ExprMarked) :
    StageMarked (.node i .selection p ps [source, e]) := by
  have hReads := Analysis.makes_lastExpr
    (List.forall_mem_nil _) hE
  refine stageMarked_plain hSource hStage rfl (by simp)
    hReads (fun wanted next => ?_)
  rw [Analysis.input_eq]
  simp [Kind.isStage, Analysis.exprAt, Analysis.lastExpr]

theorem stageMarked_orderBy
    (hSource : source.StageMarked)
    (hStage : source.kind.isStage)
    (hSpecs : ∀ spec ∈ rest,
      ∃ i k p ps e, spec = .node i k p ps [e] ∧
        k.isStage = false ∧ e.ExprMarked)
    (hRest : rest ≠ []) :
    StageMarked (.node i .orderBy p ps (source :: rest)) := by
  refine stageMarked_plain hSource hStage rfl (by simp)
    (Analysis.makes_sortKeys hSpecs) (fun wanted next => ?_)
  rw [Analysis.input_eq]
  cases rest with
  | nil => exact (hRest rfl).elim
  | cons spec more =>
      simp [Kind.isStage, Analysis.sortKeysTail]

/- A grouping only looks names up. -/
theorem stageMarked_groupBy
    (hSource : source.StageMarked)
    (hStage : source.kind.isStage)
    (hSpecs : ∀ spec ∈ rest, spec.Stageless)
    (hRest : rest ≠ []) :
    StageMarked (.node i .groupBy p ps (source :: rest)) := by
  let self := Tree.node i .groupBy p ps (source :: rest)
  have hReads : Analysis.Makes
      (Analysis.resolveAll self.groupKeys >>= fun _ =>
        Analysis.resolveAll
          (self.groupAggregates.map Prod.snd))
      (fun notes => notes = []) := by
    refine ((Analysis.does_resolveAll _).seq
      (Analysis.does_resolveAll _)).makes.mono ?_
    rintro _ ⟨_, _, rfl, rfl, rfl⟩
    rfl
  refine stageMarked_plain hSource hStage rfl (by simp)
    (hReads.marks_stageless hSpecs) (fun wanted next => ?_)
  rw [Analysis.input_eq]
  cases rest with
  | nil => exact (hRest rfl).elim
  | cons spec more => simp [Kind.isStage, self]

theorem stageMarked_count
    (hSource : source.StageMarked)
    (hStage : source.kind.isStage)
    (hE : e.Stageless) :
    StageMarked (.node i .count p ps [source, e]) := by
  have hReads :=
    Analysis.does_nothing.makes.marks_stageless
      (List.forall_mem_singleton.mpr hE)
  refine stageMarked_plain hSource hStage rfl (by simp)
    hReads (fun wanted next => ?_)
  rw [Analysis.input_eq]
  simp [Kind.isStage]

/-
  The expression of a `let` is walked, and its stages are
  live, if what is noted of the `let` has its variable.
-/
theorem makes_letBind
    (i : NodeId)
    (p : Payload)
    (ps : Properties)
    (source v : Tree)
    (hE : e.ExprMarked)
    (names : List String) :
    Analysis.Makes
      (if ((binding? (.node i .letBind p ps
          [source, v, e])).map names.contains).getD false then
        Analysis.exprAt 2 [source, v, e] >>= fun _ =>
          Analysis.readCheck ps >>= fun _ =>
            Analysis.annotate i names
      else Analysis.annotate i names)
      (Analysis.Marks (i :: idsAll [v, e])
        (fun notes => i ::
          (if keepsBinding (annotate notes
              (.node i .letBind p ps [source, v, e])) then
            e.liveUnder notes
          else []))) := by
  let self := Tree.node i .letBind p ps [source, v, e]
  have hKeeps (notes : Notes)
      (hNoted : notes i = some names) :
      (self.annotate notes).keepsBinding =
        (self.binding?.map names.contains).getD false :=
    keepsBinding_annotate notes hNoted
  cases hLive :
      (self.binding?.map names.contains).getD false with
  | true =>
      rw [if_pos rfl, Analysis.exprAt, Analysis.exprAt,
        Analysis.exprAt]
      have hReads := hE.seq (Analysis.makes_resolveAll
        (ps.var? Properties.check).toList [])
      simp only [List.append_nil] at hReads
      have hNote : Analysis.Makes
          ((Analysis.expr e >>= fun _ =>
            Analysis.readCheck ps) >>= fun _ =>
              Analysis.annotate i names)
          (Analysis.Marks (e.ids ++ [i])
            (fun notes => i ::
              (if keepsBinding (annotate notes self) then
                e.liveUnder notes
              else []))) := by
        refine hReads.annotated (fun notes hNoted => ?_)
        rw [hKeeps notes hNoted, hLive, if_pos rfl]
        exact List.perm_append_comm
      rw [bind_assoc] at hNote
      refine hNote.mono (fun _ hMarks =>
        hMarks.mono (fun id => ?_) (fun _ _ => .refl _))
      simp only [idsAll, List.count_append,
        List.count_cons, List.count_nil, List.append_nil]
      omega
  | false =>
      rw [if_neg Bool.false_ne_true]
      refine (Analysis.makes_annotate i names).mono ?_
      rintro _ rfl
      refine (Analysis.Marks.single ⟨i, names⟩).mono
        (fun id => ?_) (fun notes hAgrees => ?_)
      · simp only [List.count_cons, List.count_nil]
        omega
      · have hHere := hKeeps notes
          (hAgrees ⟨i, names⟩ (by simp))
        rw [hHere, hLive, if_neg Bool.false_ne_true]

theorem stageMarked_letBind
    {v : Tree}
    (hSource : source.StageMarked)
    (hStage : source.kind.isStage)
    (hV : v.Stageless)
    (hE : e.ExprMarked) :
    StageMarked (.node i .letBind p ps [source, v, e]) := by
  refine stageMarked_input hSource hStage (fun notes => ?_)
    (fun next Later hNext => ⟨_, fun wanted => ?_,
      hNext.within_marked
        (bound (.node i .letBind p ps [source, v, e]))
        (fun closed => makes_letBind i p ps source v hE
          closed.demand)⟩)
  · rw [liveUnder_letBind, hV notes, List.nil_append]
    exact List.perm_middle
  · rw [Analysis.input_eq]
    simp [Kind.isStage]

end Tree

end Flwor

------------------------------------------------------------
-- Joins
------------------------------------------------------------

namespace Flwor

namespace Tree

variable {i j : NodeId}
variable {p q : Payload}
variable {ps qs : Properties}
variable {left right leftKey rightKey : Tree}

/- The rows of an input are only looked up by name. -/
theorem StageMarked.makes_asked
    (hMarked : left.StageMarked)
    (hStage : left.kind.isStage)
    (names : List String) :
    Analysis.Makes
      (Analysis.input left names
        (Analysis.resolveAll names))
      (Analysis.Marks left.ids left.liveUnder) := by
  refine (hMarked hStage names _ _
    (Analysis.makes_resolveAll names [])).mono ?_
  intro annotations hMarks
  have hAll := hMarks.marks
  simp only [List.append_nil] at hAll
  exact hAll

/-
  The keys of a join and what comes later, in the scope of
  the names that the inputs provide.
-/
theorem makes_joinScope
    {next : Analysis Unit}
    {Later : List Annotation → Prop}
    (hLeftKey : leftKey.ExprMarked)
    (hRightKey : rightKey.ExprMarked)
    (hNext : Analysis.Makes next Later)
    (i : NodeId)
    (boundLeft boundRight : List String) :
    Analysis.Makes
      (Analysis.openScope false >>= fun _ =>
        boundLeft.forM Analysis.bindName >>= fun _ =>
          boundRight.forM Analysis.bindName >>= fun _ =>
            Analysis.expr leftKey >>= fun _ =>
              Analysis.expr rightKey >>= fun _ =>
                Analysis.within [] next >>= fun closed =>
                  Analysis.annotate i closed.externals >>=
                    fun _ => Analysis.close >>=
                      fun _ => pure ())
      (Analysis.MarksWith
        (leftKey.ids ++ (rightKey.ids ++ [i]))
        (fun notes => leftKey.liveUnder notes
          ++ (rightKey.liveUnder notes ++ [i])) Later) := by
  have hNoted (closed : ClosedScope) :
      Analysis.Makes (Analysis.annotate i closed.externals)
        (Analysis.Marks [i] (fun _ => [i])) := by
    refine (Analysis.makes_annotate i _).mono ?_
    rintro _ rfl
    exact .single ⟨i, closed.externals⟩
  have hBody := hLeftKey.before (hRightKey.before
    (hNext.within_marked [] hNoted))
  have hWithin := (hBody.within (boundLeft ++ boundRight)).bind
    (fun _ => Analysis.does_nothing.makes)
  rw [Analysis.within_append] at hWithin
  simp only [bind_assoc] at hWithin
  refine hWithin.mono ?_
  rintro _ ⟨own, _, rfl, hOwn, rfl⟩
  rw [List.append_nil]
  exact hOwn

/-
  A join walks its parts to learn what they look up, which
  marks nothing, and then each of them once more.
-/
theorem stageMarked_join
    (hLeftStage : left.kind.isStage)
    (hRightStage : right.kind.isStage)
    (hLeft : left.StageMarked)
    (hRight : right.StageMarked)
    (hLeftKey : leftKey.ExprMarked)
    (hRightKey : rightKey.ExprMarked) :
    StageMarked (.node i .join p ps
      [left, .node j .joinExpr q qs [leftKey, rightKey],
        right]) := by
  intro _ wanted next Later hNext
  rw [Analysis.input_eq]
  simp only [if_true, Analysis.join, List.isEmpty_nil,
    reduceCtorEq, or_true]
  refine hNext.speculate_bind (fun outside => ?_)
  refine hLeftKey.speculate_bind (fun leftReads => ?_)
  refine hRightKey.speculate_bind (fun rightReads => ?_)
  refine (hLeft.makes_asked hLeftStage _).speculate_bind
    (fun leftMissing => ?_)
  refine (hRight.makes_asked hRightStage _).speculate_bind
    (fun rightMissing => ?_)
  -- The walks up to here were speculative; these are not.
  refine ((hLeft.makes_asked hLeftStage _).before
    ((hRight.makes_asked hRightStage _).before
      (makes_joinScope hLeftKey hRightKey hNext i _ _))).mono
        (fun _ hMarks =>
          hMarks.mono (fun id => ?_) (fun notes => ?_))
  · simp only [ids, idsAll, List.count_append,
      List.count_cons, List.count_nil]
    omega
  · rw [List.perm_iff_count]
    intro id
    simp only [liveUnder_node notes
        (show Kind.join ≠ .letBind by simp),
      liveUnder_of_not_stage notes
        (show Kind.joinExpr.isStage = false from rfl),
      liveUnderAll_cons, liveUnderAll_nil, Kind.isStage,
      if_true, List.count_append, List.count_cons,
      List.count_nil]
    omega

end Tree

end Flwor

------------------------------------------------------------
-- Whole Trees
------------------------------------------------------------

namespace Flwor

namespace Tree

/-
  A tree marks its stages where it is walked: as an
  expression, or as a stage.
-/
structure Marked
    (t : Tree) : Prop where
  expr : t.kind.isCompiled → t.ExprMarked
  stage : t.StageMarked

section

variable {i : NodeId}
variable {k : Kind}
variable {p : Payload}
variable {ps : Properties}
variable {cs : List Tree}
variable (hShaped : (Tree.node i k p ps cs).Shaped)
variable (hSlots : (Tree.node i k p ps cs).KeepsSlots)
variable (hParts : ∀ c ∈ cs, c.Marked)
variable (hDeep : ∀ c ∈ cs, ∀ d ∈ c.children, d.Marked)

include hShaped hSlots hParts hDeep

theorem exprMarked_of_parts
    (hCompiled : k.isCompiled) :
    ExprMarked (.node i k p ps cs) := by
  by_cases hPipe : k = .pipeExpr
  · subst hPipe
    rcases hShaped.pipe with
      ⟨j, q, qs, tail, rest, rfl, hStage⟩
    have hEnd : Tree.node j .finish q qs (tail :: rest) ∈
        [Tree.node j .finish q qs (tail :: rest)] :=
      List.mem_singleton_self _
    have hCount := (hShaped.child hEnd).finish
    refine exprMarked_pipe hStage hCount
      (hDeep _ hEnd tail List.mem_cons_self).stage
      (fun c hC => (hDeep _ hEnd c
        (List.mem_cons_of_mem _ hC)).expr
          ((hSlots.child hEnd).own rfl ?_))
    rcases rest with _ | ⟨result, _ | ⟨_, _⟩⟩
    · cases hC
    · simpa [ownExpressions, eq_comm] using hC
    · simp at hCount
  · refine exprMarked_node hCompiled hPipe ?_
      (fun c hC => (hParts c hC).expr
        (hSlots.operand hCompiled hPipe hC))
    rintro rfl
    exact hSlots.leaf rfl

theorem stageMarked_of_parts :
    StageMarked (.node i k p ps cs) := by
  have hLeaf (c : Tree) (hC : c ∈ cs)
      (hKind : c.kind.isLeaf) : c.Stageless :=
    (hSlots.child hC).stageless hKind
  cases k
  case start =>
    cases hShaped.start
    exact stageMarked_start
  case forBind =>
    rcases hShaped.forBind with
      ⟨input, leaves, e, rfl, hStage, hLeaves⟩
    exact stageMarked_forBind
      (hParts input List.mem_cons_self).stage hStage
      (fun l hL => hLeaf l (by simp [hL]) (hLeaves l hL))
      ((hParts e (by simp)).expr (hSlots.own rfl (by
        simp [ownExpressions, List.getLast?_cons])))
  case letBind =>
    rcases hShaped.letBind with
      ⟨input, v, e, rfl, hStage, hVariable⟩
    exact stageMarked_letBind
      (hParts input List.mem_cons_self).stage hStage
      (hLeaf v (by simp) (by rw [hVariable]; rfl))
      ((hParts e (by simp)).expr
        (hSlots.own rfl (by simp [ownExpressions])))
  case selection =>
    rcases hShaped.selection with ⟨input, e, rfl, hStage⟩
    exact stageMarked_selection
      (hParts input List.mem_cons_self).stage hStage
      ((hParts e (by simp)).expr
        (hSlots.own rfl (by simp [ownExpressions])))
  case count =>
    rcases hShaped.count with
      ⟨input, v, rfl, hStage, hVariable⟩
    exact stageMarked_count
      (hParts input List.mem_cons_self).stage hStage
      (hLeaf v (by simp) (by rw [hVariable]; rfl))
  case orderBy =>
    rcases hShaped.input rfl with
      ⟨input, first, rest, rfl, hStage⟩
    refine stageMarked_orderBy
      (hParts input List.mem_cons_self).stage hStage
      (fun spec hSpec => ?_) (by simp)
    have hChild : spec ∈ input :: first :: rest :=
      List.mem_cons_of_mem _ hSpec
    have hKind := hShaped.orderSpec hSpec
    rcases spec with ⟨j, k, q, qs, parts⟩
    cases hKind
    rcases (hShaped.child hChild).sortKey with ⟨e, rfl⟩
    have hOwn : e ∈ ownExpressions (.node i .orderBy p
        ps (input :: first :: rest)) :=
      List.mem_filterMap.mpr ⟨_, hSpec, rfl⟩
    exact ⟨j, .orderSpec, q, qs, e, rfl, rfl,
      (hDeep _ hChild e List.mem_cons_self).expr
        (hSlots.own rfl hOwn)⟩
  case groupBy =>
    rcases hShaped.input rfl with
      ⟨input, first, rest, rfl, hStage⟩
    refine stageMarked_groupBy
      (hParts input List.mem_cons_self).stage hStage
      (fun spec hSpec => ?_) (by simp)
    have hChild : spec ∈ input :: first :: rest :=
      List.mem_cons_of_mem _ hSpec
    rcases hShaped.groupBy spec hSpec with ⟨hKind, hLeaves⟩
    rcases spec with ⟨j, k, q, qs, parts⟩
    exact stageless_node hKind (fun c hC =>
      ((hSlots.child hChild).child hC).stageless
        (hLeaves c hC))
  case join =>
    rcases hShaped.join with ⟨left, j, q, qs, leftKey,
      rightKey, right, rfl, hLeft, hRight⟩
    have hKey (d : Tree) (hD : d ∈ [leftKey, rightKey]) :
        d.ExprMarked :=
      (hDeep (.node j .joinExpr q qs [leftKey, rightKey])
        (by simp) d hD).expr (hSlots.own rfl hD)
    exact stageMarked_join hLeft hRight
      (hParts left (by simp)).stage
      (hParts right (by simp)).stage
      (hKey leftKey (by simp)) (hKey rightKey (by simp))
  all_goals rintro ⟨⟩

end

/-
  A tree in shape, with compiled expressions in its slots, is
  walked without a failure, and its live stages are marked.
-/
theorem marked_of_shaped
    (t : Tree)
    (hShaped : t.Shaped)
    (hSlots : t.KeepsSlots) :
    t.Marked := by
  induction t using Tree.inductDeep with
  | node i k p ps cs ih ihDeep =>
      have hParts (c : Tree) (hC : c ∈ cs) : c.Marked :=
        ih c hC (hShaped.child hC) (hSlots.child hC)
      have hDeep (c : Tree) (hC : c ∈ cs) (d : Tree)
          (hD : d ∈ c.children) : d.Marked :=
        ihDeep c hC d hD ((hShaped.child hC).child hD)
          ((hSlots.child hC).child hD)
      exact ⟨exprMarked_of_parts hShaped hSlots hParts hDeep,
        stageMarked_of_parts hShaped hSlots hParts hDeep⟩

theorem makes_outermostAll
    {ts : List Tree}
    (hTs : ∀ t ∈ ts, Analysis.Makes (Analysis.outermost t)
      (Analysis.Marks t.ids t.liveUnder)) :
    Analysis.Makes (Analysis.outermostAll ts)
      (Analysis.Marks (idsAll ts) (liveUnderAll ts)) := by
  induction ts with
  | nil =>
      rw [Analysis.outermostAll]
      exact Analysis.makes_nothing []
  | cons t rest ih =>
      rw [List.forall_mem_cons] at hTs
      rw [Analysis.outermostAll]
      exact hTs.1.seq (ih hTs.2)

/- The outermost pipelines of an expression. -/
theorem makes_outermost
    (t : Tree)
    (hShaped : t.Shaped)
    (hSlots : t.KeepsSlots)
    (hCompiled : t.kind.isCompiled) :
    Analysis.Makes (Analysis.outermost t)
      (Analysis.Marks t.ids t.liveUnder) := by
  induction t using Tree.induction with
  | node i k p ps cs ih =>
      by_cases hPipe : k = .pipeExpr
      · subst hPipe
        have hMarked :=
          (marked_of_shaped _ hShaped hSlots).expr rfl
        rw [ExprMarked, Analysis.expr] at hMarked
        rw [Analysis.outermost, if_pos rfl]
        exact hMarked
      · have hStage : k.isStage = false :=
          Kind.isStage_of_isCompiled hCompiled
        have hEach (c : Tree) (hC : c ∈ cs) :=
          ih c hC (hShaped.child hC) (hSlots.child hC)
            (hSlots.operand hCompiled hPipe hC)
        rw [Analysis.outermost, if_neg hPipe]
        refine (makes_outermostAll hEach).mono
          (fun _ hMarks =>
            hMarks.mono (fun id => ?_) (fun notes _ => ?_))
        · rw [ids, List.count_cons]
          exact Nat.le_add_right _ _
        · rw [liveUnder_of_not_stage notes hStage]

end Tree

end Flwor
