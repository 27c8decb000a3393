import Mathlib.Data.List.Forall2
import Flwor.Proofs.Shapes

/-
  The rules of one node, stated for the kinds of its children
  and with the places of stages decided by their parent.

  A node is proper if its kind admits its payload and its
  children, and if no stage and no end stands where an
  expression is expected.  Unlike the check of a plan, the
  return slot of an end counts as such a place.

  Key definitions include:
    * `Kind.isPlain`
    * `Kind.Admits`
    * `Kind.Proper`
    * `Kind.Alike`

  Key theorems include:
    * `Tree.brokenRule?_eq_none_iff`
    * `Kind.Proper.alike`
-/

------------------------------------------------------------
-- Rules
------------------------------------------------------------

namespace Flwor

namespace Kind

/- Neither a stage nor the end of a pipeline. -/
def isPlain
    (k : Kind) : Bool :=
  !k.isStage && k != .finish

/- The children and the payload that a kind asks for. -/
def Admits
    (k : Kind)
    (p : Payload)
    (ks : List Kind) : Prop :=
  match k with
  | .pipeExpr => ks = [.finish]
  | .finish =>
      ∃ s rest, ks = s :: rest ∧ s.isStage ∧
        rest.length ≤ 1
  | .start => ks = []
  | .forBind =>
      ∃ s, s.isStage ∧
        ((∃ v, ks = [s, .variable, v]) ∨
          ∃ v, ks = [s, .variable, .posVariable, v])
  | .letBind => ∃ s v, ks = [s, .variable, v] ∧ s.isStage
  | .selection => ∃ s v, ks = [s, v] ∧ s.isStage
  | .orderBy =>
      ∃ s spec specs, ks = s :: spec :: specs ∧ s.isStage ∧
        ∀ c ∈ spec :: specs, c = .orderSpec
  | .orderSpec => (∃ v, ks = [v]) ∧ p.order?.isSome
  | .groupBy =>
      ∃ s spec specs, ks = s :: spec :: specs ∧ s.isStage ∧
        ShapeRule.specsInOrder false (spec :: specs)
  | .groupSpec => ks = [.variableRef]
  | .aggregateSpec => ks = [.variable, .variableRef]
  | .count => ∃ s, ks = [s, .variable] ∧ s.isStage
  | .join =>
      ∃ l r, ks = [l, .joinExpr, r] ∧ l.isStage ∧ r.isStage
  | .joinExpr => (∃ l r, ks = [l, r]) ∧ p.comparison?.isSome
  | .variable => p.var?.isSome
  | .posVariable => p.var?.isSome
  | .variableRef => p.var?.isSome
  | .comparisonExpr =>
      (∃ l r, ks = [l, r]) ∧ p.comparison?.isSome
  | .arithmeticExpr =>
      (∃ l r, ks = [l, r]) ∧ p.arithmetic?.isSome
  | .functionCall => p.label?.isSome
  | .stepExpr => ∃ v rest, ks = .axisSpec :: v :: rest
  | .axisSpec => p.axis?.isSome
  | _ => True

/-
  The children from which no rows are read; those of a join
  and of a pipeline are settled by what their kind admits.
-/
def operands
    (k : Kind)
    (ks : List Kind) : List Kind :=
  match k with
  | .pipeExpr => []
  | .join => []
  | .finish => ks.drop 1
  | k => if k.isStage then ks.drop 1 else ks

/- The rules of one node. -/
structure Proper
    (k : Kind)
    (p : Payload)
    (ks : List Kind) : Prop where
  admits : k.Admits p ks
  plain : ∀ c ∈ k.operands ks, c.isPlain

/- A node without children has nothing out of place. -/
theorem Proper.leaf
    {k : Kind}
    {p : Payload}
    (hAdmits : k.Admits p []) :
    k.Proper p [] := by
  have hNone : k.operands [] = [] := by
    unfold operands
    split <;> simp
  refine ⟨hAdmits, ?_⟩
  rw [hNone]
  exact List.forall_mem_nil _

theorem proper_variable
    (name : String) :
    variable.Proper (.var name) [] :=
  .leaf rfl

theorem proper_variableRef
    (name : String) :
    variableRef.Proper (.var name) [] :=
  .leaf rfl

theorem isPlain_iff
    (k : Kind) :
    k.isPlain = true ↔ k.isStage = false ∧ k ≠ .finish := by
  simp [isPlain]

theorem isStage_of_isPlain
    {k : Kind}
    (hPlain : k.isPlain) :
    k.isStage = false :=
  ((isPlain_iff k).mp hPlain).1

theorem ne_finish_of_isStage
    {k : Kind}
    (hStage : k.isStage) :
    k ≠ .finish := by
  rintro rfl
  cases hStage

end Kind

end Flwor

------------------------------------------------------------
-- Rules as Checked
------------------------------------------------------------

namespace Flwor

namespace Tree

variable {i : NodeId}
variable {p : Payload}
variable {ps : Properties}
variable {cs : List Tree}
variable {site : Option Site}

/- All children after the first have to be order keys. -/
theorem orderSpecs_eq_none
    (a : Tree)
    (rest : List Tree) :
    ShapeRule.orderSpecs (a :: rest) = none ↔
      ∀ c ∈ rest.map kind, c = .orderSpec := by
  rw [ShapeRule.orderSpecs, List.findSome?_eq_none_iff,
    List.forall_mem_map]
  constructor
  · intro hAll t hT
    rcases List.mem_iff_getElem?.mp hT with ⟨j, hJ⟩
    have hBound : j < rest.length :=
      (List.getElem?_eq_some_iff.mp hJ).1
    have hHere := hAll (j + 1) (by
      rw [List.mem_range'_1, List.length_cons]
      omega)
    rw [ShapeRule.kindAt_eq_none, List.getElem?_cons_succ,
      hJ] at hHere
    rcases hHere with ⟨_, hEq, hKind⟩
    cases hEq
    exact hKind
  · intro hAll j hJ
    rw [List.mem_range'_1, List.length_cons] at hJ
    rcases j with _ | j
    · omega
    · have hBound : j < rest.length := by omega
      rw [ShapeRule.kindAt_eq_none, List.getElem?_cons_succ]
      exact ⟨_, List.getElem?_eq_getElem hBound,
        hAll _ (List.getElem_mem hBound)⟩

/- The rules of a node that the check takes apart. -/
theorem brokenRule?_node_iff
    (k : Kind) :
    brokenRule? site (.node i k p ps cs) = none ↔
      k.Admits p (cs.map kind) ∧
        (k = .finish →
          site.map Site.kind = some .pipeExpr) := by
  cases k
  case forBind =>
    rcases cs with
      _ | ⟨a, _ | ⟨b, _ | ⟨c, _ | ⟨d, _ | ⟨e, rest⟩⟩⟩⟩⟩ <;>
      simp [brokenRule?, Kind.Admits, and_comm]
  case orderBy =>
    rcases cs with _ | ⟨a, _ | ⟨b, rest⟩⟩
    · simp [brokenRule?, Kind.Admits]
    · simp [brokenRule?, Kind.Admits]
    · simp only [brokenRule?, kind_node, children_node,
        Option.orElse_eq_orElse, Option.orElse_eq_or,
        Option.or_eq_none_iff, orderSpecs_eq_none]
      simp [Kind.Admits]
  case groupBy =>
    rcases cs with _ | ⟨a, _ | ⟨b, rest⟩⟩ <;>
      simp [brokenRule?, Kind.Admits]
  case stepExpr =>
    rcases cs with _ | ⟨a, _ | ⟨b, rest⟩⟩ <;>
      simp [brokenRule?, Kind.Admits]
  case finish =>
    rcases cs with _ | ⟨a, _ | ⟨b, _ | ⟨c, rest⟩⟩⟩ <;>
      simp [brokenRule?, Kind.Admits]
  case letBind | count =>
    rcases cs with
      _ | ⟨a, _ | ⟨b, _ | ⟨c, _ | ⟨d, rest⟩⟩⟩⟩ <;>
      simp [brokenRule?, Kind.Admits, and_comm]
  case join =>
    rcases cs with
      _ | ⟨a, _ | ⟨b, _ | ⟨c, _ | ⟨d, rest⟩⟩⟩⟩ <;>
      simp [brokenRule?, Kind.Admits, and_left_comm]
  case pipeExpr | start | selection | orderSpec | groupSpec |
      aggregateSpec | joinExpr | comparisonExpr |
      arithmeticExpr =>
    rcases cs with
      _ | ⟨a, _ | ⟨b, _ | ⟨c, rest⟩⟩⟩ <;>
      simp [brokenRule?, Kind.Admits, payload]
  all_goals simp [brokenRule?, Kind.Admits, payload]

theorem brokenRule?_eq_none_iff
    {t : Tree} :
    t.brokenRule? site = none ↔
      t.kind.Admits t.payload (t.children.map kind) ∧
        (t.kind = .finish →
          site.map Site.kind = some .pipeExpr) := by
  rcases t with ⟨i, k, p, ps, cs⟩
  exact brokenRule?_node_iff k

end Tree

end Flwor

------------------------------------------------------------
-- Places as Checked
------------------------------------------------------------

namespace Flwor

namespace Kind

/- What the check asks of a child at a place. -/
def Places
    (k : Kind)
    (id : NodeId)
    (ks : List Kind) : Prop :=
  ∀ j c, ks[j]? = some c →
    (c = .finish → k = .pipeExpr) ∧
      (c.isStage → Site.readsRows ⟨k, id, j, ks.length⟩)

variable {k : Kind}
variable {p : Payload}
variable {ks : List Kind}

/- All but ends and joins read rows from child 0 at most. -/
theorem readsRows_eq
    (hFinish : k ≠ .finish)
    (hJoin : k ≠ .join)
    (id : NodeId)
    (index count : Nat) :
    Site.readsRows ⟨k, id, index, count⟩ =
      (k.isStage && index == 0) := by
  unfold Site.readsRows
  split
  · next hKind => exact (hFinish hKind).elim
  · next hKind => exact (hJoin hKind).elim
  · rfl

theorem isPlain_of_place
    {id : NodeId}
    (hPlaces : k.Places id ks)
    {j : Nat}
    {c : Kind}
    (hChild : ks[j]? = some c)
    (hKind : k ≠ .pipeExpr)
    (hStage : c.isStage →
      Site.readsRows ⟨k, id, j, ks.length⟩ = false) :
    c.isPlain := by
  rw [isPlain_iff]
  rcases hPlaces j c hChild with ⟨hFinish, hReads⟩
  refine ⟨?_, fun hC => hKind (hFinish hC)⟩
  by_contra hC
  rw [Bool.not_eq_false] at hC
  have hBoth := hReads hC
  rw [hStage hC] at hBoth
  cases hBoth

/- Children that pass the check are plain where needed. -/
theorem Proper.of_places
    {id : NodeId}
    (hAdmits : k.Admits p ks)
    (hPlaces : k.Places id ks)
    (hReturn : k = .finish →
      ∀ c ∈ ks.drop 1, c.isStage = false) :
    k.Proper p ks := by
  refine ⟨hAdmits, fun c hC => ?_⟩
  unfold operands at hC
  split at hC
  · cases hC
  · cases hC
  · have hReads := hReturn rfl c hC
    rcases List.mem_iff_getElem?.mp hC with ⟨j, hJ⟩
    rw [List.getElem?_drop] at hJ
    refine isPlain_of_place hPlaces hJ (by simp) ?_
    intro hStage
    rw [hReads] at hStage
    cases hStage
  · next hPipe hJoin hFinish =>
      split at hC
      · rcases List.mem_iff_getElem?.mp hC with ⟨j, hJ⟩
        rw [List.getElem?_drop] at hJ
        refine isPlain_of_place hPlaces hJ hPipe ?_
        intro _
        rw [readsRows_eq hFinish hJoin]
        simp
      · next hStage =>
          rcases List.mem_iff_getElem?.mp hC with ⟨j, hJ⟩
          refine isPlain_of_place hPlaces hJ hPipe ?_
          intro _
          rw [readsRows_eq hFinish hJoin]
          simp [hStage]

/- The first child of what reads rows is a stage. -/
theorem Admits.head
    (hAdmits : k.Admits p ks)
    (hReads : k = .finish ∨ k.isStage)
    (hStart : k ≠ .start) :
    ∃ s rest, ks = s :: rest ∧ s.isStage := by
  cases k <;> simp [isStage] at hReads hStart
  case finish =>
    rcases hAdmits with ⟨s, rest, rfl, hStage, _⟩
    exact ⟨s, rest, rfl, hStage⟩
  case forBind =>
    rcases hAdmits with ⟨s, hStage, ⟨v, rfl⟩ | ⟨v, rfl⟩⟩
    · exact ⟨s, _, rfl, hStage⟩
    · exact ⟨s, _, rfl, hStage⟩
  case letBind | selection =>
    rcases hAdmits with ⟨s, v, rfl, hStage⟩
    exact ⟨s, _, rfl, hStage⟩
  case orderBy | groupBy =>
    rcases hAdmits with ⟨s, spec, specs, rfl, hStage, _⟩
    exact ⟨s, _, rfl, hStage⟩
  case count =>
    rcases hAdmits with ⟨s, rfl, hStage⟩
    exact ⟨s, _, rfl, hStage⟩
  case join =>
    rcases hAdmits with ⟨l, r, rfl, hLeft, _⟩
    exact ⟨l, _, rfl, hLeft⟩

/- The children of a proper node pass the check. -/
theorem Proper.places
    (hProper : k.Proper p ks)
    (id : NodeId) :
    k.Places id ks := by
  intro j c hChild
  have hPlain (hMem : c ∈ k.operands ks) :
      (c = .finish → k = .pipeExpr) ∧
        (c.isStage → Site.readsRows
          ⟨k, id, j, ks.length⟩) := by
    rcases (isPlain_iff c).mp (hProper.plain c hMem) with
      ⟨hStage, hFinish⟩
    exact ⟨fun hC => (hFinish hC).elim,
      fun hC => by simp [hStage] at hC⟩
  have hHead (hReads : k = .finish ∨ k.isStage)
      (hJoin : k ≠ .join) (hZero : j = 0) :
      (c = .finish → k = .pipeExpr) ∧
        (c.isStage → Site.readsRows
          ⟨k, id, j, ks.length⟩) := by
    subst hZero
    by_cases hStart : k = .start
    · subst hStart
      have hNil : ks = [] := hProper.admits
      rw [hNil] at hChild
      cases hChild
    · rcases hProper.admits.head hReads hStart with
        ⟨s, rest, rfl, hStage⟩
      cases hChild
      refine ⟨fun hC => ?_, fun _ => ?_⟩
      · exact (ne_finish_of_isStage hStage hC).elim
      · by_cases hFinish : k = .finish
        · subst hFinish
          rfl
        · rw [readsRows_eq hFinish hJoin,
            hReads.resolve_left hFinish]
          rfl
  have hRest (hJ : j ≠ 0) : c ∈ ks.drop 1 := by
    refine List.mem_iff_getElem?.mpr ⟨j - 1, ?_⟩
    rw [List.getElem?_drop, show 1 + (j - 1) = j by omega]
    exact hChild
  by_cases hPipe : k = .pipeExpr
  · subst hPipe
    have hOnly : ks = [.finish] := hProper.admits
    rw [hOnly] at hChild
    have hC : c = .finish := by
      have hMem := List.mem_of_getElem? hChild
      simpa using hMem
    subst hC
    exact ⟨fun _ => rfl, fun hStage => by cases hStage⟩
  by_cases hJoin : k = .join
  · subst hJoin
    rcases hProper.admits with ⟨l, r, rfl, hLeft, hRight⟩
    rcases j with _ | _ | _ | j
    · cases hChild
      exact ⟨fun hC =>
        (ne_finish_of_isStage hLeft hC).elim, fun _ => rfl⟩
    · cases hChild
      exact ⟨(by simp), (by simp [isStage])⟩
    · cases hChild
      exact ⟨fun hC =>
        (ne_finish_of_isStage hRight hC).elim, fun _ => rfl⟩
    · cases hChild
  by_cases hReads : k = .finish ∨ k.isStage
  · by_cases hZero : j = 0
    · exact hHead hReads hJoin hZero
    · refine hPlain ?_
      unfold operands
      split
      · exact (hPipe rfl).elim
      · exact (hJoin rfl).elim
      · exact hRest hZero
      · next hFinish _ _ =>
          rw [if_pos (hReads.resolve_left (by assumption))]
          exact hRest hZero
  · rw [not_or] at hReads
    refine hPlain ?_
    unfold operands
    split
    · exact (hPipe rfl).elim
    · exact (hJoin rfl).elim
    · exact (hReads.1 rfl).elim
    · rw [if_neg hReads.2]
      exact List.mem_of_getElem? hChild

end Kind

end Flwor

------------------------------------------------------------
-- Children in Place of Others
------------------------------------------------------------

namespace Flwor

namespace Kind

/- A kind of child that may stand where another one does. -/
inductive Alike : Kind → Kind → Prop where
  | same (k : Kind) : Alike k k
  | stage {a b : Kind} :
      a.isStage → b.isStage → Alike a b
  | pipe : Alike .pipeExpr .variableRef

namespace Alike

variable {a b : Kind}

theorem isStage
    (hAlike : a.Alike b)
    (hStage : a.isStage) :
    b.isStage := by
  cases hAlike with
  | same => exact hStage
  | stage _ hB => exact hB
  | pipe => cases hStage

theorem isPlain
    (hAlike : a.Alike b)
    (hPlain : a.isPlain) :
    b.isPlain := by
  cases hAlike with
  | same => exact hPlain
  | stage hA _ => simp [Kind.isPlain, hA] at hPlain
  | pipe => rfl

/- A kind that rules ask for by name stays as it is. -/
theorem eq_of_named
    (hAlike : a.Alike b)
    (hStage : a.isStage = false)
    (hPipe : a ≠ .pipeExpr) :
    b = a := by
  cases hAlike with
  | same => rfl
  | stage hA _ =>
      rw [hStage] at hA
      cases hA
  | pipe => exact (hPipe rfl).elim

end Alike

variable {k : Kind}
variable {p : Payload}
variable {ks ks' : List Kind}

theorem specsInOrder_alike
    (hAlike : List.Forall₂ Alike ks ks')
    {seen : Bool}
    (hSpecs : ShapeRule.specsInOrder seen ks = true) :
    ShapeRule.specsInOrder seen ks' = true := by
  induction hAlike generalizing seen with
  | nil => rfl
  | @cons a b as bs hHead _ ih =>
      cases a <;> rw [ShapeRule.specsInOrder] at hSpecs <;>
        try cases hSpecs
      case groupSpec =>
        rw [hHead.eq_of_named rfl (by simp),
          ShapeRule.specsInOrder]
        rw [Bool.and_eq_true] at hSpecs ⊢
        exact ⟨hSpecs.1, ih hSpecs.2⟩
      case aggregateSpec =>
        rw [hHead.eq_of_named rfl (by simp),
          ShapeRule.specsInOrder]
        exact ih hSpecs

theorem Admits.alike
    (hAdmits : k.Admits p ks)
    (hAlike : List.Forall₂ Alike ks ks') :
    k.Admits p ks' := by
  cases k
  case pipeExpr =>
    cases hAdmits
    rcases hAlike with _ | ⟨hHead, _ | _⟩
    exact congrArg (fun c => [c])
      (hHead.eq_of_named rfl (by simp))
  case start =>
    cases hAdmits
    cases hAlike
    rfl
  case finish =>
    rcases hAdmits with ⟨s, rest, rfl, hStage, hLength⟩
    rcases hAlike with _ | ⟨hHead, hRest⟩
    refine ⟨_, _, rfl, hHead.isStage hStage, ?_⟩
    rwa [← hRest.length_eq]
  case forBind =>
    rcases hAdmits with ⟨s, hStage, ⟨v, rfl⟩ | ⟨v, rfl⟩⟩
    · rcases hAlike with
        _ | ⟨hHead, _ | ⟨hVar, _ | ⟨_, _ | _⟩⟩⟩
      rw [hVar.eq_of_named rfl (by simp)]
      exact ⟨_, hHead.isStage hStage, .inl ⟨_, rfl⟩⟩
    · rcases hAlike with
        _ | ⟨hHead, _ | ⟨hVar, _ | ⟨hPos, _ | ⟨_, _ | _⟩⟩⟩⟩
      rw [hVar.eq_of_named rfl (by simp),
        hPos.eq_of_named rfl (by simp)]
      exact ⟨_, hHead.isStage hStage, .inr ⟨_, rfl⟩⟩
  case letBind =>
    rcases hAdmits with ⟨s, v, rfl, hStage⟩
    rcases hAlike with
      _ | ⟨hHead, _ | ⟨hVar, _ | ⟨_, _ | _⟩⟩⟩
    rw [hVar.eq_of_named rfl (by simp)]
    exact ⟨_, _, rfl, hHead.isStage hStage⟩
  case selection =>
    rcases hAdmits with ⟨s, v, rfl, hStage⟩
    rcases hAlike with _ | ⟨hHead, _ | ⟨_, _ | _⟩⟩
    exact ⟨_, _, rfl, hHead.isStage hStage⟩
  case orderBy =>
    rcases hAdmits with ⟨s, spec, specs, rfl, hStage, hAll⟩
    rcases hAlike with _ | ⟨hHead, hRest⟩
    have hSpecs : ∀ as bs, List.Forall₂ Alike as bs →
        (∀ c ∈ as, c = orderSpec) →
          ∀ c ∈ bs, c = orderSpec := by
      intro as bs hBoth
      induction hBoth with
      | nil => simp
      | cons h _ ih =>
          intro hNamed
          rw [List.forall_mem_cons] at hNamed ⊢
          rcases hNamed with ⟨rfl, hMore⟩
          exact ⟨h.eq_of_named rfl (by simp), ih hMore⟩
    have hNamed := hSpecs _ _ hRest hAll
    rcases hRest with _ | ⟨_, _⟩
    exact ⟨_, _, _, rfl, hHead.isStage hStage, hNamed⟩
  case orderSpec =>
    rcases hAdmits with ⟨⟨v, rfl⟩, hOrder⟩
    rcases hAlike with _ | ⟨_, _ | _⟩
    exact ⟨⟨_, rfl⟩, hOrder⟩
  case groupBy =>
    rcases hAdmits with
      ⟨s, spec, specs, rfl, hStage, hSpecs⟩
    rcases hAlike with _ | ⟨hHead, hRest⟩
    have hNamed := specsInOrder_alike hRest hSpecs
    rcases hRest with _ | ⟨_, _⟩
    exact ⟨_, _, _, rfl, hHead.isStage hStage, hNamed⟩
  case groupSpec =>
    cases hAdmits
    rcases hAlike with _ | ⟨hHead, _ | _⟩
    exact congrArg (fun c => [c])
      (hHead.eq_of_named rfl (by simp))
  case aggregateSpec =>
    cases hAdmits
    rcases hAlike with _ | ⟨hVar, _ | ⟨hRef, _ | _⟩⟩
    rw [hVar.eq_of_named rfl (by simp),
      hRef.eq_of_named rfl (by simp)]
    rfl
  case count =>
    rcases hAdmits with ⟨s, rfl, hStage⟩
    rcases hAlike with _ | ⟨hHead, _ | ⟨hVar, _ | _⟩⟩
    rw [hVar.eq_of_named rfl (by simp)]
    exact ⟨_, rfl, hHead.isStage hStage⟩
  case join =>
    rcases hAdmits with ⟨l, r, rfl, hLeft, hRight⟩
    rcases hAlike with
      _ | ⟨hL, _ | ⟨hKeys, _ | ⟨hR, _ | _⟩⟩⟩
    rw [hKeys.eq_of_named rfl (by simp)]
    exact ⟨_, _, rfl, hL.isStage hLeft, hR.isStage hRight⟩
  case joinExpr | comparisonExpr | arithmeticExpr =>
    rcases hAdmits with ⟨⟨l, r, rfl⟩, hPayload⟩
    rcases hAlike with _ | ⟨_, _ | ⟨_, _ | _⟩⟩
    exact ⟨⟨_, _, rfl⟩, hPayload⟩
  case stepExpr =>
    rcases hAdmits with ⟨v, rest, rfl⟩
    rcases hAlike with _ | ⟨hAxis, _ | ⟨_, _⟩⟩
    rw [hAxis.eq_of_named rfl (by simp)]
    exact ⟨_, _, rfl⟩
  all_goals exact hAdmits

theorem forall_isPlain_alike
    (hAlike : List.Forall₂ Alike ks ks')
    (hPlain : ∀ c ∈ ks, c.isPlain) :
    ∀ c ∈ ks', c.isPlain := by
  induction hAlike with
  | nil => simp
  | cons hHead _ ih =>
      rw [List.forall_mem_cons] at hPlain ⊢
      exact ⟨hHead.isPlain hPlain.1, ih hPlain.2⟩

/- Rules are kept when a child is exchanged for one alike. -/
theorem Proper.alike
    (hProper : k.Proper p ks)
    (hAlike : List.Forall₂ Alike ks ks') :
    k.Proper p ks' := by
  refine ⟨hProper.admits.alike hAlike, ?_⟩
  refine forall_isPlain_alike ?_ hProper.plain
  have hDrop : List.Forall₂ Alike (ks.drop 1) (ks'.drop 1) :=
    List.forall₂_drop 1 hAlike
  unfold operands
  split
  · exact .nil
  · exact .nil
  · exact hDrop
  · split
    · exact hDrop
    · exact hAlike

end Kind

end Flwor
