import Flwor.Proofs.Arena.Holding
import Flwor.Proofs.Rewriting.Candidates

/-
  Expressions in which one buried expression is replaced by
  another one.

  The buried expression is reached through nodes that
  evaluate every operand exactly once.  Whenever it has no
  value, the whole expression has none; otherwise it can be
  evaluated before, and its value bound to a name that the
  rest of the expression does not read.

  Key definitions include:
    * `Tree.reference`
    * `Tree.Buries`, `Tree.Hoists`

  Key theorems include:
    * `Tree.exists_hoists`
    * `Tree.Hoists.reads`
    * `Tree.Hoists.value_eq`
-/

------------------------------------------------------------
-- Eager Nodes
------------------------------------------------------------

namespace Flwor

namespace Tree

variable {library : Library}
variable {i : NodeId}
variable {k : Kind}
variable {p : Payload}
variable {ps : Properties}
variable {cs cs' : List Tree}

/- An eager node with two operands, if it needs as many. -/
def Filled
    (k : Kind)
    (cs : List Tree) : Prop :=
  k = .arithmeticExpr ∨ k = .comparisonExpr → cs.length = 2

theorem Shaped.filled
    (hShaped : (Tree.node i k p ps cs).Shaped) :
    Filled k cs := by
  rcases hShaped.self with ⟨place, hRule⟩
  rintro (rfl | rfl) <;>
    simp only [brokenRule?, kind_node, children_node,
      Option.orElse_eq_orElse, Option.orElse_eq_or,
      Option.or_eq_none_iff, ShapeRule.countIn_eq_none,
      List.mem_singleton] at hRule <;>
    exact hRule.1

/- An eager node in scope has all its operands in scope. -/
theorem ReadsFrom.operand
    {names : Set String}
    {c : Tree}
    (hReads :
      ReadsFrom library False names (.node i k p ps cs))
    (hEager : k.isEager)
    (hFilled : Filled k cs)
    (hC : c ∈ cs) :
    ReadsFrom library False names c := by
  cases hReads with
  | sequence hParts => exact hParts c hC
  | call _ _ hArguments => exact hArguments c hC
  | binary hKind hLeft hRight hReadsLeft hReadsRight =>
      have hTwo : cs.length = 2 := by
        cases k <;>
          first
          | exact hFilled (.inl rfl)
          | exact hFilled (.inr rfl)
          | exact hKind.elim
          | exact Bool.noConfusion hEager
      obtain ⟨a, b, rfl⟩ := List.length_eq_two.mp hTwo
      cases hLeft
      cases hRight
      rcases List.mem_pair.mp hC with rfl | rfl
      · exact hReadsLeft
      · exact hReadsRight
  | _ => cases hEager

theorem ReadsFrom.beside
    {names : Set String}
    {before after : List Tree}
    {c d : Tree}
    (hReads : ReadsFrom library False names
      (.node i k p ps (before ++ c :: after)))
    (hEager : k.isEager)
    (hFilled : Filled k (before ++ c :: after))
    (hD : d ∈ before ++ after) :
    ReadsFrom library False names d :=
  hReads.operand hEager hFilled (List.mem_append.mpr
    ((List.mem_append.mp hD).imp_right
      (List.mem_cons_of_mem c)))

/- It stays in scope with other operands in scope. -/
theorem ReadsFrom.operands
    {names names' : Set String}
    (hReads :
      ReadsFrom library False names (.node i k p ps cs))
    (hEager : k.isEager)
    (hLength : cs'.length = cs.length)
    (hParts : ∀ c ∈ cs', ReadsFrom library False names' c) :
    ReadsFrom library False names' (.node i k p ps cs') := by
  have hAt {index : Nat} {c : Tree}
      (hChild : cs[index]? = some c) :
      ∃ c', cs'[index]? = some c' ∧
        ReadsFrom library False names' c' := by
    have hIndex := (List.getElem?_eq_some_iff.mp hChild).1
    rw [← hLength] at hIndex
    exact ⟨_, List.getElem?_eq_getElem hIndex,
      hParts _ (List.getElem_mem hIndex)⟩
  cases hReads with
  | sequence _ => exact .sequence hParts
  | call hName hFunction _ =>
      exact .call hName (hLength ▸ hFunction) hParts
  | binary hKind hLeft hRight _ _ =>
      rcases hAt hLeft with ⟨left, hLeft', hReadsLeft⟩
      rcases hAt hRight with ⟨right, hRight', hReadsRight⟩
      exact .binary hKind hLeft' hRight' hReadsLeft
        hReadsRight
  | _ => cases hEager

/- What an eager node makes of the values of its operands. -/
theorem exists_combine
    (hEager : k.isEager)
    (hFilled : Filled k cs) :
    ∃ combine : List Sequence → Option Sequence,
      ∀ cs' : List Tree, cs'.length = cs.length → ∀ env,
        value library (.node i k p ps cs') env =
          (cs'.mapM (fun c : Tree =>
            c.value library env)).bind combine := by
  cases k <;> try cases hEager
  case sequenceExpr =>
    refine ⟨fun parts => some parts.flatten,
      fun cs' _ env => ?_⟩
    rw [value, values_eq]
    rfl
  case functionCall =>
    refine ⟨fun arguments => p.label?.bind (fun name =>
      (library.resolve name cs.length).toOption.bind
        (fun f => (f.apply arguments).toOption)),
      fun cs' hLength env => ?_⟩
    rw [value, values_eq, hLength]
    cases p.label? with
    | none => simp
    | some name => rfl
  case arithmeticExpr =>
    have hTwo := hFilled (by simp)
    refine ⟨fun operands => p.arithmetic?.bind (fun op =>
      operands[0]?.bind (fun s => operands[1]?.bind (fun t =>
        Sequence.arithmetic? op s t))),
      fun cs' hLength env => ?_⟩
    obtain ⟨a, b, rfl⟩ :=
      List.length_eq_two.mp (hLength.trans hTwo)
    rw [value]
    cases p.arithmetic? with
    | none => simp
    | some op => simp [valueAt, Option.bind_assoc]
  case comparisonExpr =>
    have hTwo := hFilled (by simp)
    refine ⟨fun operands => p.comparison?.bind (fun c =>
      operands[0]?.bind (fun s => operands[1]?.bind (fun t =>
        c.value? s t))), fun cs' hLength env => ?_⟩
    obtain ⟨a, b, rfl⟩ :=
      List.length_eq_two.mp (hLength.trans hTwo)
    rw [value]
    cases p.comparison? with
    | none => simp
    | some c => simp [valueAt, Option.bind_assoc]

end Tree

end Flwor

------------------------------------------------------------
-- Buried Expressions
------------------------------------------------------------

namespace Flwor

namespace Tree

/- A reference to a variable. -/
def reference
    (i : NodeId)
    (name : String) : Tree :=
  .node i .variableRef (.var name) [] []

/-
  Two expressions that are the same but for one operand deep
  inside, reached through eager nodes only.
-/
inductive Buries
    (x y : Tree) : Tree → Tree → Prop where
  | here : Buries x y x y
  | inside
      {i k p ps before c c' after}
      (hEager : k.isEager)
      (hPart : Buries x y c c') :
      Buries x y (.node i k p ps (before ++ c :: after))
        (.node i k p ps (before ++ c' :: after))

/-
  The same, where nothing beside the way to this operand
  reads a certain name.
-/
inductive Hoists
    (name : String)
    (x y : Tree) : Tree → Tree → Prop where
  | here : Hoists name x y x y
  | inside
      {i k p ps before c c' after}
      (hEager : k.isEager)
      (hFilled : Filled k (before ++ c :: after))
      (hBeside : ∀ d ∈ before ++ after,
        d.Rescopable {n | n = name})
      (hPart : Hoists name x y c c') :
      Hoists name x y (.node i k p ps (before ++ c :: after))
        (.node i k p ps (before ++ c' :: after))

variable {library : Library}
variable {name : String}
variable {x y t t' : Tree}
variable {names names' : Set String}

/- An expression with another one buried stays in shape. -/
theorem Buries.shaped
    (hBuries : Buries x y t t')
    (hShaped : t.Shaped)
    (hNew : y.Shaped) :
    t'.Shaped := by
  induction hBuries with
  | here => exact hNew
  | @inside i k p ps before c c' after hEager _ ih =>
      have hPart := ih (hShaped.child (by simp))
      refine shaped_node ?_ (fun d hD => ?_)
      · rcases hShaped.self with ⟨place, hRule⟩
        refine ⟨place, ?_⟩
        cases k <;> first
          | exact Bool.noConfusion hEager
          | exact hRule
          | simpa only [brokenRule?, kind_node, children_node,
              payload, ShapeRule.countIn, List.length_append,
              List.length_cons] using hRule
      · rcases List.mem_append.mp hD with hD | hD
        · exact hShaped.child (by simp [hD])
        rcases List.mem_cons.mp hD with rfl | hD
        · exact hPart
        · exact hShaped.child (by simp [hD])

/- A nested pipeline that an expression evaluates once. -/
theorem exists_buries
    {pipe : NodeId}
    (hNodup : t.ids.Nodup)
    (hPipe : pipe ∈ t.eagerPipes) :
    ∃ x ∈ t.subtrees, x.id = pipe ∧ x.kind = .pipeExpr ∧
      ∀ y, Buries x y t (t.mapAt pipe (fun _ => y)) := by
  induction t using Tree.induction with
  | node i k p ps cs ih =>
      rw [eagerPipes] at hPipe
      split at hPipe
      next hKind =>
        cases List.mem_singleton.mp hPipe
        refine ⟨_, mem_subtrees_self _, rfl, hKind,
          fun y => ?_⟩
        rw [mapAt_self]
        exact .here
      split at hPipe
      next hEager =>
        rw [mem_eagerPipesAll_iff] at hPipe
        rcases hPipe with ⟨c, hC, hPipe⟩
        rcases ih c hC (nodup_ids_of_mem
            (List.nodup_cons.mp hNodup).2 hC) hPipe with
          ⟨x, hX, rfl, hKind, hBuries⟩
        refine ⟨x, mem_subtrees_of_child hC hX, rfl, hKind,
          fun y => ?_⟩
        obtain ⟨before, after, rfl⟩ := List.append_of_mem hC
        rw [mapAt_of_child hNodup
          (mem_ids_iff.mpr ⟨x, hX, rfl⟩)]
        exact .inside hEager (hBuries y)
      next => cases hPipe

/- What an expression is buried in is eager, or itself. -/
theorem Buries.kind_ne
    {k : Kind}
    (hBuries : Buries x y t t')
    (hNot : k.isEager = false)
    (hBuried : x.kind ≠ k) :
    t.kind ≠ k := by
  cases hBuries with
  | here => exact hBuried
  | inside hEager _ =>
      intro hEq
      rw [kind_node] at hEq
      rw [hEq, hNot] at hEager
      cases hEager

namespace Hoists

theorem buries
    (hHoists : Hoists name x y t t') :
    Buries x y t t' := by
  induction hHoists with
  | here => exact .here
  | inside hEager _ _ _ ih => exact .inside hEager ih

theorem symm
    (hHoists : Hoists name x y t t') :
    Hoists name y x t' t := by
  induction hHoists with
  | here => exact .here
  | inside hEager hFilled hBeside _ ih =>
      refine .inside hEager ?_ hBeside ih
      simpa [Filled] using hFilled

/- What is buried in an expression in scope is in scope. -/
theorem reads_buried
    (hHoists : Hoists name x y t t')
    (hReads : ReadsFrom library False names t) :
    ReadsFrom library False names x := by
  induction hHoists with
  | here => exact hReads
  | inside hEager hFilled _ _ ih =>
      exact ih (hReads.operand hEager hFilled (by simp))

/-
  The other expression is in a scope that holds all names
  but the new one, if what is buried in it is.
-/
theorem reads
    (hHoists : Hoists name x y t t')
    (hReads : ReadsFrom library False names t)
    (hSubset : names \ {n | n = name} ⊆ names')
    (hNew : ReadsFrom library False names' y) :
    ReadsFrom library False names' t' := by
  induction hHoists with
  | here => exact hNew
  | @inside i k p ps before c c' after hEager hFilled hBeside
      _ ih =>
      refine hReads.operands hEager (by simp) ?_
      have hOther (d : Tree) (hD : d ∈ before ++ after) :
          ReadsFrom library False names' d :=
        ((hReads.beside hEager hFilled hD).without
          (hBeside d hD)).wider
            ⟨(hBeside d hD).shaped, (hBeside d hD).lacks,
              fun _ _ => nofun⟩ hSubset
      intro d hD
      rcases List.mem_append.mp hD with hD | hD
      · exact hOther d (List.mem_append_left _ hD)
      rcases List.mem_cons.mp hD with rfl | hD
      · exact ih (hReads.operand hEager hFilled (by simp))
      · exact hOther d (List.mem_append_right _ hD)

/-
  A buried expression can be evaluated before, and what it
  is worth be looked up where it was buried.
-/
theorem value_eq
    {j : NodeId}
    (hHoists : Hoists name x (reference j name) t t')
    (hReads : ReadsFrom library False names t)
    (env : Env) :
    (x.value library env).bind (fun s =>
        t'.value library (env.bind name s)) =
      t.value library env := by
  induction hHoists with
  | here =>
      cases x.value library env with
      | none => rfl
      | some s => simp [reference, value, Payload.var?]
  | @inside i k p ps before c c' after hEager hFilled hBeside
      _ ih =>
      rcases @exists_combine library i k p ps _ hEager hFilled
        with ⟨combine, hCombine⟩
      have ih := ih (hReads.operand hEager hFilled (by simp))
      rw [hCombine _ rfl]
      cases hX : x.value library env with
      | none =>
          -- Without the buried value there is no other one.
          rw [hX] at ih
          simp [← ih]
      | some s =>
          rw [hX, Option.bind_some] at ih
          have hOther (d : Tree) (hD : d ∈ before ++ after) :
              d.value library (env.bind name s) =
                d.value library env := by
            refine (ReadsFrom.sameValue
              ((hReads.beside hEager hFilled hD).without
                (hBeside d hD)) ?_).eq_of_strict
            exact fun n hN => Env.agreeOn_bind env name s n
              hN.2
          rw [Option.bind_some, hCombine _ (by simp)]
          simp only [List.mapM_append, List.mapM_cons, ih,
            mapM_congr_left (fun d hD =>
              hOther d (List.mem_append_left _ hD)),
            mapM_congr_left (fun d hD =>
              hOther d (List.mem_append_right _ hD))]

end Hoists

/- In an expression in scope nothing else reads the name. -/
theorem Buries.hoists
    (hBuries : Buries x y t t')
    (hTree : t.Rescopable {n | n = name}) :
    Hoists name x y t t' := by
  induction hBuries with
  | here => exact .here
  | inside hEager _ ih =>
      refine .inside hEager hTree.shaped.filled
        (fun d hD => hTree.child ?_) (ih (hTree.child (by simp)))
      exact List.mem_append.mpr
        ((List.mem_append.mp hD).imp_right
          (List.mem_cons_of_mem _))

/-
  A nested pipeline that an expression evaluates exactly once
  can be hoisted out of it.
-/
theorem exists_hoists
    {pipe : NodeId}
    (hTree : t.Rescopable {n | n = name})
    (hNodup : t.ids.Nodup)
    (hPipe : pipe ∈ t.eagerPipes) :
    ∃ x ∈ t.subtrees, x.id = pipe ∧ x.kind = .pipeExpr ∧
      ∀ y, Hoists name x y t
        (t.mapAt pipe (fun _ => y)) := by
  rcases exists_buries hNodup hPipe with
    ⟨x, hX, hId, hKind, hBuries⟩
  exact ⟨x, hX, hId, hKind,
    fun y => (hBuries y).hoists hTree⟩

end Tree

end Flwor
