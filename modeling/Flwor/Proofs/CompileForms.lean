import Mathlib.Data.List.Forall2
import Flwor.Compile

/-
  When compiling succeeds, part by part: each helper that
  walks over the children of a node is stated as what it
  does with the child it looks for.

  Key theorems include:
    * `Compile.operand_eq_ok_iff`
    * `Compile.exprs_eq_ok_iff`
    * `Compile.sortKeys_eq_ok_iff`
    * `Compile.slotFor_eq_ok_iff`
-/

------------------------------------------------------------
-- Results
------------------------------------------------------------

namespace Flwor

variable {ε α β : Type}

theorem except_bind_eq_ok_iff
    {x : Except ε α}
    {f : α → Except ε β}
    {b : β} :
    (x >>= f) = .ok b ↔
      ∃ a, x = .ok a ∧ f a = .ok b := by
  cases x with
  | error e =>
      constructor
      · intro h
        cases h
      · rintro ⟨a, h, _⟩
        cases h
  | ok a =>
      constructor
      · intro h
        exact ⟨a, rfl, h⟩
      · rintro ⟨a', h, hf⟩
        cases h
        exact hf

theorem except_map_eq_ok_iff
    {x : Except ε α}
    {f : α → β}
    {b : β} :
    x.map f = .ok b ↔
      ∃ a, x = .ok a ∧ f a = b := by
  cases x with
  | error e => simp [Except.map]
  | ok a => simp [Except.map]

theorem except_mapError_eq_ok_iff
    {ε' : Type}
    {x : Except ε α}
    {f : ε → ε'}
    {a : α} :
    x.mapError f = .ok a ↔ x = .ok a := by
  cases x with
  | error e => simp [Except.mapError]
  | ok b => simp [Except.mapError]

/- Steps over a list succeed if each of them does. -/
theorem except_mapM_eq_ok_iff
    {f : α → Except ε β}
    {as : List α}
    {bs : List β} :
    as.mapM f = .ok bs ↔
      List.Forall₂ (fun a b => f a = .ok b) as bs := by
  induction as generalizing bs with
  | nil =>
      rw [List.forall₂_nil_left_iff]
      constructor
      · intro h
        cases h
        rfl
      · rintro rfl
        rfl
  | cons a rest ih =>
      simp only [List.mapM_cons, except_bind_eq_ok_iff, ih,
        List.forall₂_cons_left_iff]
      constructor
      · rintro ⟨b, hHead, more, hRest, hEq⟩
        cases hEq
        exact ⟨b, more, hHead, hRest, rfl⟩
      · rintro ⟨b, more, hHead, hRest, rfl⟩
        exact ⟨b, hHead, more, hRest, rfl⟩

/- What steps over a list yield, without their error. -/
theorem except_toOption_eq_some_iff
    {result : Except ε α}
    {x : α} :
    result.toOption = some x ↔ result = .ok x := by
  cases result with
  | error e => simp [Except.toOption]
  | ok y => simp [Except.toOption]

theorem except_toOption_mapM
    (f : α → Except ε β)
    (as : List α) :
    (as.mapM f).toOption = as.mapM (fun a => (f a).toOption) := by
  induction as with
  | nil => rfl
  | cons a rest ih =>
      rw [List.mapM_cons, List.mapM_cons, ← ih]
      cases f a with
      | error e => rfl
      | ok b => cases rest.mapM f <;> rfl

end Flwor

------------------------------------------------------------
-- Parts
------------------------------------------------------------

namespace Flwor

namespace Compile

theorem require_eq_ok_iff
    {α : Type}
    {d : Defect}
    {value : Option α}
    {x : α} :
    require d value = .ok x ↔ value = some x := by
  cases value with
  | none => simp [require, malformed]
  | some y => simp [require]

theorem slotFor_eq_ok_iff
    {layout : Layout}
    {name : String}
    {slot : Slot} :
    slotFor layout name = .ok slot ↔
      ∃ index, layout.slot? name = some index ∧
        slot = ⟨name, index⟩ := by
  unfold slotFor
  cases layout.slot? name with
  | none => simp
  | some index => simp [eq_comm]

variable (library : Library)

theorem operand_eq_ok_iff
    {kind : Kind}
    {id : NodeId}
    {index skip : Nat}
    {cs : List Tree}
    {layout : Layout}
    {e : Expr} :
    operand library kind id index skip cs layout = .ok e ↔
      ∃ t, cs[skip]? = some t ∧
        expr library t layout = .ok e := by
  induction cs generalizing skip with
  | nil => simp [operand, malformed]
  | cons c rest ih =>
      cases skip with
      | zero => simp [operand]
      | succ skip => simp [operand, ih]

theorem lastExpr_eq_ok_iff
    {missing : Defect}
    {cs : List Tree}
    {layout : Layout}
    {e : Expr} :
    lastExpr library missing cs layout = .ok e ↔
      ∃ t, cs.getLast? = some t ∧
        expr library t layout = .ok e := by
  induction cs with
  | nil => simp [lastExpr, malformed]
  | cons c rest ih =>
      cases rest with
      | nil => simp [lastExpr]
      | cons d more => simpa [lastExpr] using ih

theorem exprs_eq_ok_iff
    {cs : List Tree}
    {layout : Layout}
    {es : List Expr} :
    exprs library cs layout = .ok es ↔
      List.Forall₂
        (fun t e => expr library t layout = .ok e)
        cs es := by
  induction cs generalizing es with
  | nil =>
      rw [exprs, List.forall₂_nil_left_iff]
      constructor
      · intro h
        cases h
        rfl
      · rintro rfl
        rfl
  | cons c rest ih =>
      simp only [exprs, except_bind_eq_ok_iff, ih,
        List.forall₂_cons_left_iff]
      constructor
      · rintro ⟨e, hHead, more, hRest, hEq⟩
        cases hEq
        exact ⟨e, more, hHead, hRest, rfl⟩
      · rintro ⟨e, more, hHead, hRest, rfl⟩
        exact ⟨e, hHead, more, hRest, rfl⟩

theorem returned_eq_ok_iff
    {cs : List Tree}
    {layout : Layout}
    {e : Expr} :
    returned library cs layout = .ok e ↔
      ∃ t, cs[1]? = some t ∧
        expr library t layout = .ok e := by
  rcases cs with _ | ⟨c, _ | ⟨d, more⟩⟩
  · simp [returned, malformed]
  · simp [returned, malformed]
  · simp [returned]

theorem stageHead_eq_ok_iff
    {kind : Kind}
    {id : NodeId}
    {cs : List Tree}
    {context : Layout}
    {compiled : Operator × Layout} :
    stageHead library kind id cs context = .ok compiled ↔
      ∃ t, cs.head? = some t ∧
        stage library t context = .ok compiled := by
  cases cs with
  | nil => simp [stageHead, malformed]
  | cons c rest => simp [stageHead]

theorem trimmedHead_eq_ok_iff
    {kind : Kind}
    {id : NodeId}
    {cs : List Tree}
    {context : Layout}
    {compiled : Operator × Layout} :
    trimmedHead library kind id cs context = .ok compiled ↔
      ∃ t, cs.head? = some t ∧
        ∃ op layout,
          stage library t context = .ok (op, layout) ∧
            trim t.properties op layout = compiled := by
  cases cs with
  | nil => simp [trimmedHead, malformed]
  | cons c rest =>
      simp only [trimmedHead, except_bind_eq_ok_iff,
        List.head?_cons, Option.some.injEq]
      constructor
      · rintro ⟨⟨op, layout⟩, hStage, hTrim⟩
        cases hTrim
        exact ⟨c, rfl, op, layout, hStage, rfl⟩
      · rintro ⟨t, rfl, op, layout, hStage, rfl⟩
        exact ⟨(op, layout), hStage, rfl⟩

/- When one sort key is compiled. -/
def SortKeyOf
    (layout : Layout)
    (spec : Tree)
    (key : SortKey) : Prop :=
  ∃ order t e, spec.payload.order? = some order ∧
    spec.children[0]? = some t ∧
      expr library t layout = .ok e ∧ key = .mk e order

theorem sortKeys_eq_ok_iff
    {specs : List Tree}
    {layout : Layout}
    {keys : List SortKey} :
    sortKeys library specs layout = .ok keys ↔
      List.Forall₂ (SortKeyOf library layout)
        specs keys := by
  induction specs generalizing keys with
  | nil =>
      rw [sortKeys, List.forall₂_nil_left_iff]
      constructor
      · intro h
        cases h
        rfl
      · rintro rfl
        rfl
  | cons spec rest ih =>
      rcases spec with ⟨i, k, p, ps, cs⟩
      simp only [sortKeys, except_bind_eq_ok_iff, ih,
        require_eq_ok_iff, operand_eq_ok_iff,
        List.forall₂_cons_left_iff, SortKeyOf,
        Tree.payload, Tree.children]
      constructor
      · rintro ⟨o, hOrder, e, ⟨t, hChild, hExpr⟩, more,
          hRest, hEq⟩
        cases hEq
        exact ⟨.mk e o, more,
          ⟨o, t, e, hOrder, hChild, hExpr, rfl⟩, hRest, rfl⟩
      · rintro ⟨key, more, ⟨o, t, e, hOrder, hChild, hExpr,
          rfl⟩, hRest, rfl⟩
        exact ⟨o, hOrder, e, ⟨t, hChild, hExpr⟩, more,
          hRest, rfl⟩

theorem sortKeysTail_eq_ok_iff
    {cs : List Tree}
    {layout : Layout}
    {keys : List SortKey} :
    sortKeysTail library cs layout = .ok keys ↔
      List.Forall₂ (SortKeyOf library layout)
        (cs.drop 1) keys := by
  cases cs with
  | nil =>
      rw [sortKeysTail, List.drop_nil,
        List.forall₂_nil_left_iff]
      constructor
      · intro h
        cases h
        rfl
      · rintro rfl
        rfl
  | cons c rest =>
      simp [sortKeysTail, sortKeys_eq_ok_iff]

end Compile

end Flwor
