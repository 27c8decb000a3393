import Flwor.Proofs.Joins.Chains

/-
  What the scan of a nested pipeline finds.

  The scan goes through the stages from the first one on,
  while the pipeline is stored with its last stage on top:
  the scan ends with the stage that the induction over the
  tree begins with.

  Key definitions include:
    * `Tree.Nested`

  Key theorems include:
    * `Tree.scanStages_concat`
    * `Tree.nonempty_nested`
-/

------------------------------------------------------------
-- One Stage of a Scan
------------------------------------------------------------

namespace Flwor

theorem nodup_of_length_eraseDups
    {α : Type}
    [BEq α] [LawfulBEq α]
    {as : List α}
    (hLength : as.eraseDups.length = as.length) :
    as.Nodup := by
  have hSubperm : as.eraseDups.Subperm as :=
    List.subperm_of_subset (nodup_eraseDups as)
      (fun a hA => List.mem_eraseDups.mp hA)
  exact (hSubperm.perm_of_length_le hLength.ge).nodup_iff.mp
    (nodup_eraseDups as)

theorem of_guard
    {p : Prop}
    [Decidable p]
    {u : Unit}
    (hGuard : (guard p : Option Unit) = some u) :
    p := by
  by_contra hNot
  rw [guard, if_neg hNot] at hGuard
  cases hGuard

theorem Names.not_mem_of_disjoint
    {a b : List String}
    (hDisjoint : Names.disjoint a b = true)
    {name : String}
    (hName : name ∈ a) :
    name ∉ b := by
  rw [Names.disjoint, List.all_eq_true] at hDisjoint
  simpa using hDisjoint name hName

namespace Tree

variable {outer bound names : List String}
variable {found found' : Option Correlation}
variable {t s : Tree}

/- The last stage is scanned after all others. -/
theorem scanStages_concat
    (stages : List Tree)
    (s : Tree) :
    scanStages outer bound found (stages ++ [s]) =
      (scanStages outer bound found stages).bind
        (fun p => scanStages outer p.1 p.2 [s]) := by
  induction stages generalizing bound found with
  | nil => rfl
  | cons stage rest ih =>
      rw [List.cons_append, scanStages, scanStages]
      dsimp only
      split
      · rfl
      · split
        · exact ih
        · split
          · rfl
          · exact ih

/-
  A stage that is scanned states the correlation, or it does
  not depend on the rows outside.
-/
theorem scanStages_singleton
    (hScan : scanStages outer bound found [s] =
      some (names, found')) :
    (s.kind = .selection ∧ names = bound ∧
        ∃ c, s.correlation? outer bound = some c ∧
          found = none ∧ found' = some c) ∨
      (Aside outer bound s ∧ names = bound ++ s.bound ∧
        found' = found) := by
  rw [scanStages] at hScan
  dsimp only at hScan
  split at hScan
  · cases hScan
  next hAdmitted =>
  simp only [Bool.or_eq_true, not_or, Bool.not_eq_true,
    Bool.not_eq_false', decide_eq_true_eq,
    Option.isSome_eq_false_iff, Option.isNone_iff_eq_none]
    at hAdmitted
  split at hScan
  · next c hCorrelation =>
    split at hCorrelation
    · next hHere =>
      rw [Bool.and_eq_true, Option.isNone_iff_eq_none,
        decide_eq_true_eq] at hHere
      rw [scanStages] at hScan
      cases hScan
      exact .inl ⟨hHere.2, rfl, c, hCorrelation, hHere.1,
        rfl⟩
    · cases hCorrelation
  · split at hScan
    · cases hScan
    next hFree =>
    simp only [Bool.or_eq_true, not_or, Bool.not_eq_true,
      Bool.not_eq_false', decide_eq_true_eq, not_not]
      at hFree
    rw [scanStages] at hScan
    cases hScan
    refine .inr ⟨⟨?_, hAdmitted.2, ?_, ?_, ?_⟩, rfl, rfl⟩
    · simpa [or_assoc] using hAdmitted.1
    · have hUnread := hFree.1.1
      rw [List.any_eq_false] at hUnread
      intro name hName
      simpa using hUnread name hName
    · exact fun name hName =>
        Names.not_mem_of_disjoint hFree.1.2 hName
    · exact nodup_of_length_eraseDups hFree.2

/- The keys of a correlation make up a tie. -/
theorem exists_tie
    {c : Correlation}
    (hCorrelation : s.correlation? outer bound = some c) :
    ∃ tie : Tie outer, ∃ predicate,
      tie.toCorrelation = c ∧ c.selection = s.id ∧
        c.boundBefore = bound ∧
        s.children[1]? = some predicate ∧
        tie.Stated predicate := by
  have hOnly {e : Tree} (hReads : e.readsOnly outer) :
      ∀ name ∈ e.references, name ∈ outer := by
    rw [readsOnly, Bool.and_eq_true, List.all_eq_true]
      at hReads
    intro name hName
    simpa using hReads.2 name hName
  have hNone {e : Tree} (hReads : e.readsNone outer) :
      ∀ name ∈ e.references, name ∉ outer := by
    rw [readsNone, List.all_eq_true] at hReads
    intro name hName
    simpa using hReads name hName
  unfold correlation? at hCorrelation
  split at hCorrelation
  next i relation ps left right more hPredicate =>
    split at hCorrelation
    · next hSides =>
      rw [Bool.and_eq_true] at hSides
      cases hCorrelation
      exact ⟨⟨⟨s.id, 0, relation, right, bound⟩, left,
          hOnly hSides.1, hNone hSides.2⟩, _, rfl, rfl, rfl,
        hPredicate, rfl, rfl, .inl ⟨rfl, more, rfl⟩⟩
    · split at hCorrelation
      · next hSides =>
        rw [Bool.and_eq_true] at hSides
        cases hCorrelation
        exact ⟨⟨⟨s.id, 1, relation, left, bound⟩, right,
            hOnly hSides.1, hNone hSides.2⟩, _, rfl, rfl, rfl,
          hPredicate, rfl, rfl, .inr ⟨rfl, more, rfl⟩⟩
      · cases hCorrelation
  next => cases hCorrelation

end Tree

end Flwor

------------------------------------------------------------
-- All Stages
------------------------------------------------------------

namespace Flwor

namespace Tree

variable {outer names : List String}
variable {run : String}
variable {found : Option Correlation}
variable {t start first : Tree}
variable {rest : List Tree}

/- The stages below a stage are those of its input. -/
theorem stages_reverse_eq
    {i : NodeId}
    {k : Kind}
    {p : Payload}
    {ps : Properties}
    {cs : List Tree}
    (hStages : (stages (.node i k p ps cs)).reverse =
      start :: first :: rest) :
    ∃ input more scanned, cs = input :: more ∧
      input.stages.reverse = start :: scanned ∧
      first :: rest = scanned ++ [.node i k p ps cs] := by
  rw [stages, List.reverse_cons] at hStages
  by_cases hStart : k = .start
  · simp [hStart] at hStages
  rw [if_neg hStart] at hStages
  cases cs with
  | nil => simp [stagesHead] at hStages
  | cons input more =>
      rw [stagesHead] at hStages
      cases hReverse : input.stages.reverse with
      | nil =>
          rcases input with ⟨j, l, q, qs, ds⟩
          simp [stages] at hReverse
      | cons s scanned =>
          rw [hReverse, List.cons_append,
            List.cons.injEq] at hStages
          exact ⟨input, more, scanned, rfl,
            by rw [hReverse, hStages.1], hStages.2.symm⟩

/- Where no stage is below a stage, it is all there is. -/
theorem eq_of_stages_reverse
    (hStages : t.stages.reverse = [start]) :
    t = start := by
  rcases t with ⟨i, k, p, ps, cs⟩
  rw [stages, List.reverse_cons,
    List.append_eq_singleton_iff] at hStages
  rcases hStages with ⟨_, hEq⟩ | ⟨_, hEq⟩
  · exact (List.cons.inj hEq).1
  · cases hEq

/-
  The scanned stages do not depend on the rows outside, or
  only by the correlation that is found.
-/
theorem chain_of_scanStages
    (hStages : t.stages.reverse = start :: first :: rest)
    (hStart : start.kind = .start)
    (hFirst : first.kind = .forBind)
    (hRun : first.binding? = some run)
    (hScan : scanStages outer [] none (first :: rest) =
      some (names, found)) :
    (found = none → Chain outer run names t) ∧
      ∀ c, found = some c → ∃ tie : Tie outer, ∃ t',
        tie.toCorrelation = c ∧
          Correlated outer run tie names t t' := by
  induction t using Tree.induction
    generalizing rest names found with
  | node i k p ps cs ih =>
      rcases stages_reverse_eq hStages with
        ⟨input, more, scanned, rfl, hInput, hAll⟩
      cases scanned with
      | nil =>
          rw [List.nil_append, List.cons.injEq] at hAll
          rcases hAll with ⟨rfl, rfl⟩
          rw [eq_of_stages_reverse hInput] at *
          rcases start with ⟨j, l, q, qs, ds⟩
          cases hStart
          cases hFirst
          rcases scanStages_singleton hScan with
            ⟨hKind, _⟩ | ⟨hAside, rfl, rfl⟩
          · cases hKind
          · exact ⟨fun _ => .first hAside hRun, nofun⟩
      | cons s scanned =>
          rw [List.cons_append, List.cons.injEq] at hAll
          rcases hAll with ⟨rfl, rfl⟩
          rw [← List.cons_append, scanStages_concat,
            Option.bind_eq_some_iff] at hScan
          rcases hScan with ⟨⟨before, found'⟩, hBefore, hScan⟩
          have hBelow := ih input List.mem_cons_self hInput
            hBefore
          rcases scanStages_singleton hScan with
            ⟨hKind, rfl, c, hCorrelation, rfl, rfl⟩ |
              ⟨hAside, rfl, rfl⟩
          · cases hKind
            refine ⟨nofun, fun c' hFound => ?_⟩
            cases hFound
            rcases exists_tie hCorrelation with
              ⟨tie, predicate, rfl, hId, rfl, hPredicate,
                hStated⟩
            cases more with
            | nil => cases hPredicate
            | cons first' more =>
                cases hPredicate
                cases hId
                exact ⟨tie, input, rfl,
                  .here (hBelow.1 rfl) hStated⟩
          · refine ⟨fun hFound => (hBelow.1 hFound).stage
              hAside, fun c hFound => ?_⟩
            rcases hBelow.2 c hFound with
              ⟨tie, input', rfl, hCorrelated⟩
            exact ⟨tie, _, rfl, hCorrelated.after hAside⟩

/-
  The parts of a nested pipeline that can become a join with
  rows of some outer names.
-/
structure Nested
    (outer : List String)
    (candidate : Candidate)
    (pipe : Tree) where
  i : NodeId
  p : Payload
  ps : Properties
  q : Payload
  qs : Properties
  tail : Tree
  result : Tree
  rest : List Tree
  more : List Tree
  tie : Tie outer
  stripped : Tree
  pipe_eq :
    pipe = .node i .pipeExpr p ps
      (.node candidate.finish .finish q qs
        (tail :: result :: rest) :: more)
  tie_eq : tie.toCorrelation = candidate.correlation
  correlated :
    Correlated outer candidate.run tie candidate.bound tail
      stripped
  disjoint : ∀ name ∈ candidate.bound, name ∉ outer
  before :
    ∀ name ∈ tie.innerKey.references,
      name ∈ candidate.bound → name ∈ tie.boundBefore

/- A replaceable pipeline has these parts. -/
theorem nonempty_nested
    {candidate : Candidate}
    {pipe : Tree}
    (hCandidate : pipe.candidate? outer = some candidate) :
    Nonempty (Nested outer candidate pipe) := by
  simp only [candidate?, Option.bind_eq_bind,
    Option.bind_eq_some_iff, Option.pure_def]
    at hCandidate
  rcases hCandidate with
    ⟨_, hKind, finish, hFinish, _, hLength, tail, hTail,
      hRest⟩
  split at hRest
  case h_2 => cases hRest
  next start first second others hStages =>
  simp only [Option.bind_eq_some_iff] at hRest
  rcases hRest with
    ⟨_, hStart, _, hFirst, ⟨bound, found⟩, hScan, c, hFound,
      _, hDisjoint, _, hBefore, run, hRun, hEq⟩
  cases hEq
  dsimp only at hFound hDisjoint hBefore
  subst hFound
  replace hKind := of_guard hKind
  replace hLength := of_guard hLength
  rcases (chain_of_scanStages hStages (of_guard hStart)
      (of_guard hFirst) hRun hScan).2 c rfl with
    ⟨tie, stripped, rfl, hCorrelated⟩
  rcases pipe with ⟨i, k, p, ps, cs⟩
  rcases finish with ⟨j, l, q, qs, ds⟩
  simp only [finish?, children_node,
    Option.filter_eq_some_iff, kind_node]
    at hFinish hKind hLength hTail
  rcases hFinish with ⟨hHead, hFinishKind⟩
  cases of_decide_eq_true hFinishKind
  subst hKind
  rcases cs with _ | ⟨c, more⟩
  · cases hHead
  cases hHead
  rcases ds with _ | ⟨d, _ | ⟨result, rest⟩⟩
  · cases hTail
  · simp at hLength
  cases hTail
  exact ⟨{
    i := i, p := p, ps := ps, q := q, qs := qs
    tail := tail, result := result, rest := rest, more := more
    tie := tie, stripped := stripped
    pipe_eq := rfl
    tie_eq := rfl
    correlated := hCorrelated
    disjoint := fun name hName =>
      Names.not_mem_of_disjoint (of_guard hDisjoint) hName
    before := by
      intro name hName hBound
      have hAll := of_guard hBefore
      rw [List.all_eq_true] at hAll
      simpa [hBound] using hAll name hName }⟩

end Tree

end Flwor
