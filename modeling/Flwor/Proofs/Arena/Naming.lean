import Flwor.Proofs.Arena.Freshness
import Flwor.Proofs.Arena.Operations

/-
  Generated names, one after the other.

  The search for a name counts up to the first number whose
  name no node has.  It ends within 32 bits if the counter
  has more numbers left than there are nodes.

  No operation sets the counter back, so a later name has a
  larger number.  A hint that does not end in a digit can be
  told from the number after it.  Names for such hints are
  therefore different, also those that no node ever gets.

  Key definitions include:
    * `Plan.endsInDigit`
    * `Plan.Searches`
    * `Edit.Advances`
    * `PlanOperation.generatedAll`

  Key theorems include:
    * `Plan.generatedName_inj`
    * `Plan.searches_iff`
    * `PlanOperation.le_counter_run`
    * `PlanOperation.pairwise_generatedAll`
    * `Plan.generatedNames_fresh`
-/

------------------------------------------------------------
-- Hints and Numbers
------------------------------------------------------------

namespace Flwor

namespace Plan

/- Whether the last character of a hint is a digit. -/
def endsInDigit
    (hint : String) : Bool :=
  hint.toList.getLast?.any Char.isDigit

theorem isDigit_of_mem_toString
    {c : Char}
    {number : Nat}
    (hC : c ∈ (toString number).toList) :
    c.isDigit = true := by
  rw [Nat.toString_eq_ofList_toDigits,
    String.toList_ofList] at hC
  exact Nat.isDigit_of_mem_toDigits (by decide) (by decide) hC

/- A text that ends in no digit has no digits at its end. -/
theorem eq_nil_of_digits
    {stem digits : List Char}
    (hDigits : ∀ c ∈ digits, c.isDigit = true)
    (hLast :
      (stem ++ digits).getLast?.any Char.isDigit = false) :
    digits = [] := by
  by_contra hNe
  rw [List.getLast?_append_of_ne_nil stem hNe,
    List.getLast?_eq_some_getLast hNe, Option.any_some,
    hDigits _ (List.getLast_mem hNe)] at hLast
  cases hLast

/- The digits at the end of a text are determined by it. -/
theorem digits_unique
    {stem other digits more : List Char}
    (hStem : stem.getLast?.any Char.isDigit = false)
    (hOther : other.getLast?.any Char.isDigit = false)
    (hDigits : ∀ c ∈ digits, c.isDigit = true)
    (hMore : ∀ c ∈ more, c.isDigit = true)
    (hEq : stem ++ digits = other ++ more) :
    stem = other ∧ digits = more := by
  rcases List.append_eq_append_iff.mp hEq with
    ⟨between, rfl, rfl⟩ | ⟨between, rfl, rfl⟩
  · have hNil := eq_nil_of_digits
      (fun c hC => hDigits c (List.mem_append_left _ hC))
      hOther
    simp [hNil]
  · have hNil := eq_nil_of_digits
      (fun c hC => hMore c (List.mem_append_left _ hC))
      hStem
    simp [hNil]

/-
  A generated name tells its hint and its number, if the
  hint does not end in a digit.
-/
theorem generatedName_inj
    {hint other : String}
    {m n : Nat}
    (hHint : endsInDigit hint = false)
    (hOther : endsInDigit other = false)
    (hEq : generatedName hint m = generatedName other n) :
    hint = other ∧ m = n := by
  have hList := congrArg String.toList hEq
  simp only [generatedName, String.toList_append,
    List.append_assoc] at hList
  have hText := List.append_cancel_left hList
  have hBoth := digits_unique hHint hOther
    (fun c hC => isDigit_of_mem_toString hC)
    (fun c hC => isDigit_of_mem_toString hC) hText
  have hSame : hint = other :=
    String.toList_injective hBoth.1
  rw [← hSame] at hEq
  exact ⟨hSame, generatedName_injective hint hEq⟩

/- A digit at the end of a hint is taken for the number. -/
example :
    generatedName "t1" 1 = generatedName "t" 11 := by
  decide

end Plan

end Flwor

------------------------------------------------------------
-- The Search
------------------------------------------------------------

namespace Flwor

namespace Plan

/-
  The search for a free number, as a loop without a bound on
  its rounds.  Each round counts up and tries the number; a
  count that leaves 32 bits is no round.  The search leads
  to a number only if the loop comes to an end.
-/
inductive Searches
    (plan : Plan)
    (hint : String) : Nat → Nat → Prop where
  | free
      {count : Nat}
      (hCount : count + 1 < UInt32.size)
      (hFree : generatedName hint (count + 1) ∉
        plan.usedNames) :
      Searches plan hint count (count + 1)
  | taken
      {count number : Nat}
      (hCount : count + 1 < UInt32.size)
      (hTaken : generatedName hint (count + 1) ∈
        plan.usedNames)
      (hRest : Searches plan hint (count + 1) number) :
      Searches plan hint count number

/- How many numbers a counter of 32 bits has left. -/
def numbersLeft
    (plan : Plan) : Nat :=
  UInt32.size - 1 - plan.counter

/- The first number after a count whose name is free. -/
structure IsFirstFree
    (plan : Plan)
    (hint : String)
    (count number : Nat) : Prop where
  lt : count < number
  free : generatedName hint number ∉ plan.usedNames
  taken : ∀ k, count < k → k < number →
    generatedName hint k ∈ plan.usedNames

variable {plan : Plan}
variable {hint : String}
variable {count number other : Nat}

theorem IsFirstFree.unique
    (hNumber : plan.IsFirstFree hint count number)
    (hOther : plan.IsFirstFree hint count other) :
    number = other := by
  rcases Nat.lt_trichotomy number other with
    hLt | hEq | hGt
  · exact (hNumber.free
      (hOther.taken number hNumber.lt hLt)).elim
  · exact hEq
  · exact (hOther.free
      (hNumber.taken other hOther.lt hGt)).elim

/- A round that finds its number taken passes over it. -/
theorem IsFirstFree.round
    (hTaken : generatedName hint (count + 1) ∈
      plan.usedNames) :
    plan.IsFirstFree hint count number ↔
      plan.IsFirstFree hint (count + 1) number := by
  constructor
  · rintro ⟨hLt, hFree, hBetween⟩
    have hNe : number ≠ count + 1 := by
      intro hEq
      rw [hEq] at hFree
      exact hFree hTaken
    refine ⟨by omega, hFree, ?_⟩
    intro k hK hKLt
    exact hBetween k (Nat.lt_of_succ_lt hK) hKLt
  · rintro ⟨hLt, hFree, hBetween⟩
    refine ⟨Nat.lt_of_succ_lt hLt, hFree, ?_⟩
    intro k hK hKLt
    rcases Nat.eq_or_lt_of_le (Nat.succ_le_of_lt hK) with
      hEq | hLater
    · rw [← hEq]
      exact hTaken
    · exact hBetween k hLater hKLt

theorem Searches.isFirstFree
    (hSearch : plan.Searches hint count number) :
    plan.IsFirstFree hint count number ∧
      number < UInt32.size := by
  induction hSearch with
  | free hCount hFree =>
      refine ⟨⟨Nat.lt_succ_self _, hFree, ?_⟩, hCount⟩
      intro k hK hKLt
      omega
  | taken _ hTaken _ ih =>
      exact ⟨(IsFirstFree.round hTaken).mpr ih.1, ih.2⟩

/- The search comes to an end at each number that fits. -/
theorem IsFirstFree.searches
    (hFirst : plan.IsFirstFree hint count number)
    (hFits : number < UInt32.size) :
    plan.Searches hint count number := by
  -- The induction is on the rounds that are still to come.
  obtain ⟨rounds, hRounds⟩ :=
    Nat.exists_eq_add_of_lt hFirst.lt
  induction rounds generalizing count with
  | zero =>
      subst hRounds
      exact .free hFits hFirst.free
  | succ rounds ih =>
      have hTaken := hFirst.taken (count + 1)
        (Nat.lt_succ_self count) (by omega)
      have hRest := ih
        ((IsFirstFree.round hTaken).mp hFirst) (by omega)
      exact .taken (by omega) hTaken hRest

/- The number that is generated is the first free one. -/
theorem isFirstFree_freshNumber
    (plan : Plan)
    (hint : String) :
    plan.IsFirstFree hint plan.counter
        (plan.freshNumber hint) ∧
      plan.freshNumber hint ≤
        plan.counter + plan.size + 1 := by
  have hFree := plan.generatedName_not_mem hint
  cases hFind : (List.range' (plan.counter + 1)
      (plan.size + 1)).find? (fun k =>
        !plan.usedNames.contains (generatedName hint k)) with
  | none =>
      -- The number that stands in is a candidate itself.
      have hLast : plan.freshNumber hint =
          plan.counter + plan.size + 1 := by
        rw [freshNumber, hFind, Option.getD_none]
      have hMem : plan.freshNumber hint ∈
          List.range' (plan.counter + 1)
            (plan.size + 1) := by
        rw [hLast, List.mem_range'_1]
        omega
      have hTaken :=
        List.find?_eq_none.mp hFind _ hMem
      simp [hFree] at hTaken
  | some k =>
      have hNumber : plan.freshNumber hint = k := by
        rw [freshNumber, hFind, Option.getD_some]
      rw [hNumber] at hFree ⊢
      rcases List.find?_range'_eq_some.mp hFind with
        ⟨_, hMem, hBefore⟩
      rw [List.mem_range'_1] at hMem
      refine ⟨⟨by omega, hFree, ?_⟩, by omega⟩
      intro j hJ hJK
      simpa using hBefore j hJ hJK

/-
  The loop ends at the generated number, provided that it
  fits, and nowhere else.
-/
theorem searches_iff :
    plan.Searches hint plan.counter number ↔
      number = plan.freshNumber hint ∧
        number < UInt32.size := by
  have hFirst := (plan.isFirstFree_freshNumber hint).1
  constructor
  · intro hSearch
    rcases hSearch.isFirstFree with ⟨hNumber, hFits⟩
    exact ⟨hNumber.unique hFirst, hFits⟩
  · rintro ⟨rfl, hFits⟩
    exact hFirst.searches hFits

/- With more numbers left than nodes there is one that fits. -/
theorem freshNumber_lt
    (hLeft : plan.size < plan.numbersLeft) :
    plan.freshNumber hint < UInt32.size := by
  have hLe := (plan.isFirstFree_freshNumber hint).2
  unfold numbersLeft at hLeft
  omega

end Plan

end Flwor

------------------------------------------------------------
-- The Counter
------------------------------------------------------------

namespace Flwor

namespace Edit

variable {α β : Type}

/- An edit that, even if it fails, sets no counter back. -/
def Advances
    (edit : Edit α) : Prop :=
  ∀ plan, plan.counter ≤ (edit.run plan).2.counter

theorem advances_bind
    {edit : Edit α}
    {next : α → Edit β}
    (hEdit : edit.Advances)
    (hNext : ∀ x, (next x).Advances) :
    (edit >>= next).Advances := by
  intro plan
  have hFirst := hEdit plan
  rcases hRun : edit.run plan with ⟨e | x, middle⟩
  · rw [run_bind_of_error hRun]
    rwa [hRun] at hFirst
  · rw [run_bind_of_ok hRun]
    rw [hRun] at hFirst
    exact hFirst.trans (hNext x middle)

theorem advances_return
    (x : α) :
    Advances (pure x : Edit α) :=
  fun _ => le_rfl

theorem advances_get_bind
    {next : Plan → Edit α}
    (hNext : ∀ plan, (next plan).Advances) :
    Advances (get >>= next) :=
  fun plan => hNext plan plan

theorem advances_add
    (kind : Kind)
    (payload : Payload)
    (properties : Properties) :
    (add kind payload properties).Advances :=
  fun _ => le_rfl

theorem advances_requireDetached
    (id : NodeId) :
    (requireDetached id).Advances := by
  intro plan
  unfold requireDetached
  rw [run_get_bind]
  split <;> exact le_rfl

theorem advances_insert
    (parent : NodeId)
    (index : Nat)
    (child : NodeId) :
    (insert parent index child).Advances := by
  refine advances_bind (advances_requireDetached child)
    (fun _ plan => ?_)
  rw [run_get_bind]
  dsimp only
  split <;> exact le_rfl

theorem advances_append
    (parent child : NodeId) :
    (append parent child).Advances :=
  advances_get_bind (fun _ => advances_insert parent _ child)

theorem advances_remove
    (parent : NodeId)
    (index : Nat) :
    (remove parent index).Advances := by
  intro plan
  unfold remove
  rw [run_get_bind]
  split <;> exact le_rfl

theorem advances_replaceChild
    (parent : NodeId)
    (index : Nat)
    (new : NodeId) :
    (replaceChild parent index new).Advances := by
  refine advances_bind (advances_requireDetached new)
    (fun _ plan => ?_)
  rw [run_get_bind]
  split <;> exact le_rfl

theorem advances_replace
    (old new : NodeId) :
    (replace old new).Advances := by
  intro plan
  unfold replace
  rw [run_get_bind]
  split
  · have hChecked := advances_requireDetached new plan
    rcases hRun : (requireDetached new).run plan with
      ⟨e | u, middle⟩
    · rw [run_bind_of_error hRun]
      rwa [hRun] at hChecked
    · rw [run_bind_of_ok hRun]
      exact le_rfl
  split
  · exact le_rfl
  split
  · exact le_rfl
  · exact advances_bind (advances_replaceChild _ _ new)
      (fun _ => advances_return _) plan

theorem advances_forM
    {next : α → Edit Unit}
    (hNext : ∀ x, (next x).Advances)
    (xs : List α) :
    Advances (xs.forM next) := by
  induction xs with
  | nil => exact advances_return ()
  | cons x rest ih =>
      rw [List.forM]
      exact advances_bind (hNext x) (fun _ => ih)

theorem advances_addWith
    (kind : Kind)
    (payload : Payload)
    (children : List NodeId) :
    (addWith kind payload children).Advances :=
  advances_bind (advances_add kind payload []) (fun id =>
    advances_bind (advances_forM (advances_append id) children)
      (fun _ => advances_return id))

theorem advances_installAll
    {ds : List Document}
    (hEach : ∀ d ∈ ds, (install d).Advances)
    (parent : NodeId) :
    (installAll parent ds).Advances := by
  induction ds with
  | nil =>
      rw [installAll]
      exact advances_return ()
  | cons d ds ih =>
      rw [List.forall_mem_cons] at hEach
      rw [installAll]
      exact advances_bind hEach.1 (fun child =>
        advances_bind (advances_append parent child)
          (fun _ => ih hEach.2))

theorem advances_install
    (d : Document) :
    (install d).Advances := by
  induction d using Document.induction with
  | node k p ds ps ih =>
      rw [install]
      exact advances_bind (advances_add k p ps) (fun id =>
        advances_bind (advances_installAll ih id)
          (fun _ => advances_return id))

theorem run_fresh
    (hint : String)
    (plan : Plan) :
    (fresh hint).run plan =
      (.ok (Plan.generatedName hint (plan.freshNumber hint)),
        { plan with counter := plan.freshNumber hint }) :=
  rfl

theorem Advances.outcome
    {edit : Edit α}
    (hEdit : edit.Advances)
    (plan : Plan) :
    plan.counter ≤ (edit.outcome plan).2.counter := by
  rw [snd_outcome]
  exact hEdit plan

end Edit

namespace PlanOperation

open Edit

/- No operation sets the counter back. -/
theorem le_counter_run
    (operation : PlanOperation)
    (plan : Plan) :
    plan.counter ≤ (operation.run plan).counter := by
  cases operation with
  | call step =>
      cases step with
      | add k p => exact (advances_add k p []).outcome plan
      | addWith k p cs =>
          exact (advances_addWith k p cs).outcome plan
      | append p c => exact (advances_append p c).outcome plan
      | insert p index c =>
          exact (advances_insert p index c).outcome plan
      | remove p index =>
          exact (advances_remove p index).outcome plan
      | replaceChild p index new =>
          exact (advances_replaceChild p index new).outcome
            plan
      | replace old new =>
          exact (advances_replace old new).outcome plan
      | copy id =>
          exact (advances_get_bind (fun plan =>
            advances_install (plan.document id))).outcome plan
      | install d => exact (advances_install d).outcome plan
  | setPayload id payload => exact le_rfl
  | setProperty id key value => exact le_rfl
  | eraseProperty id key => exact le_rfl
  | fresh hint =>
      exact (plan.isFirstFree_freshNumber hint).1.lt.le

end PlanOperation

end Flwor

------------------------------------------------------------
-- Histories
------------------------------------------------------------

namespace Flwor

namespace PlanOperation

open Plan

/- The hint and the name, if an operation generates one. -/
def generated? :
    PlanOperation → Plan → Option (String × String)
  | .fresh hint, plan =>
      match ((Edit.fresh hint).run plan).1 with
      | .ok name => some (hint, name)
      | .error _ => none
  | _, _ => none

/-
  The hints and names that one operation after the other
  generates, whether or not their numbers fit in 32 bits.
-/
def generatedAll :
    List PlanOperation → Plan → List (String × String)
  | [], _ => []
  | operation :: rest, plan =>
      (operation.generated? plan).toList ++
        generatedAll rest (operation.run plan)

variable {plan : Plan}
variable {operation : PlanOperation}
variable {operations : List PlanOperation}
variable {entry : String × String}

/- The number of a name is where the counter is put. -/
theorem numbered_of_generated?
    (hEntry : operation.generated? plan = some entry) :
    plan.counter < (operation.run plan).counter ∧
      entry.2 = generatedName entry.1
        (operation.run plan).counter := by
  cases operation with
  | fresh hint =>
      rw [generated?, Edit.run_fresh] at hEntry
      cases hEntry
      exact ⟨(plan.isFirstFree_freshNumber hint).1.lt, rfl⟩
  | call step => cases hEntry
  | setPayload id payload => cases hEntry
  | setProperty id key value => cases hEntry
  | eraseProperty id key => cases hEntry

/- All numbers are new ones. -/
theorem exists_number_of_mem
    (hEntry : entry ∈ generatedAll operations plan) :
    ∃ number, plan.counter < number ∧
      entry.2 = generatedName entry.1 number := by
  induction operations generalizing plan with
  | nil => cases hEntry
  | cons operation rest ih =>
      rw [generatedAll, List.mem_append,
        Option.mem_toList] at hEntry
      rcases hEntry with hHere | hLater
      · exact ⟨_, numbered_of_generated? hHere⟩
      · rcases ih hLater with ⟨number, hLt, hName⟩
        exact ⟨number,
          (operation.le_counter_run plan).trans_lt hLt, hName⟩

/- Names of hints that do not end in digits are different. -/
theorem pairwise_generatedAll
    (operations : List PlanOperation)
    (plan : Plan) :
    (generatedAll operations plan).Pairwise (fun a b =>
      endsInDigit a.1 = false → endsInDigit b.1 = false →
        a.2 ≠ b.2) := by
  induction operations generalizing plan with
  | nil => exact .nil
  | cons operation rest ih =>
      rw [generatedAll, List.pairwise_append]
      refine ⟨?_, ih _, ?_⟩
      · cases operation.generated? plan with
        | none => exact .nil
        | some entry => exact List.pairwise_singleton _ _
      · intro a hA b hB hHintA hHintB hEq
        have hFirst := numbered_of_generated?
          (Option.mem_toList.mp hA)
        rcases exists_number_of_mem hB with
          ⟨number, hLt, hName⟩
        rw [hFirst.2, hName] at hEq
        have hSame := (generatedName_inj hHintA hHintB hEq).2
        exact hLt.ne hSame

end PlanOperation

end Flwor

------------------------------------------------------------
-- Fresh Names
------------------------------------------------------------

namespace Flwor

namespace Plan

/-
  Within 32 bits, the loop ends at a number exactly if that
  number is generated.  It does end if the counter has more
  numbers left than there are nodes, after one more round
  than nodes at the latest, and no node has the name, be it
  detached or not.  Whatever operations follow each other,
  the names that they generate for hints that do not end in
  a digit are pairwise different.
-/
theorem generatedNames_fresh
    (plan : Plan) :
    (∀ hint number,
      plan.Searches hint plan.counter number ↔
        number < UInt32.size ∧
          (Edit.fresh hint).run plan =
            (.ok (generatedName hint number),
              { plan with counter := number })) ∧
    (∀ hint, plan.size < plan.numbersLeft →
      ∃ number,
        plan.Searches hint plan.counter number ∧
        number ≤ plan.counter + plan.size + 1 ∧
        (generatedName hint number).toList.head? =
          some '#' ∧
        ∀ id < plan.size,
          plan.var? id ≠ some (generatedName hint number)) ∧
    ∀ operations,
      (PlanOperation.generatedAll operations plan).Pairwise
        (fun a b => endsInDigit a.1 = false →
          endsInDigit b.1 = false → a.2 ≠ b.2) := by
  refine ⟨fun hint number => ?_, fun hint hLeft => ?_,
    fun operations =>
      PlanOperation.pairwise_generatedAll operations plan⟩
  · rw [searches_iff, Edit.run_fresh]
    constructor
    · rintro ⟨rfl, hFits⟩
      exact ⟨hFits, rfl⟩
    · rintro ⟨hFits, hRun⟩
      have hCounter := congrArg (fun r => r.2.counter) hRun
      exact ⟨hCounter.symm, hFits⟩
  · refine ⟨plan.freshNumber hint,
      searches_iff.mpr ⟨rfl, freshNumber_lt hLeft⟩,
      (plan.isFirstFree_freshNumber hint).2, ?_, ?_⟩
    · rw [generatedName, String.toList_append,
        String.toList_append]
      rfl
    · intro id hId hVar
      exact plan.generatedName_not_mem hint
        (mem_usedNames_of_var? hId hVar)

/-
  The names of the first two numbers are those of the root
  and of a detached node.
-/
def twoNamed : Plan :=
  PlanOperation.run (.call (.add .variable (.var "#t2")))
    (ofNode .variableRef (.var "#t1"))

theorem generatedNames_fresh_twoNamed :
    twoNamed.size < twoNamed.numbersLeft ∧
      twoNamed.Searches "t" twoNamed.counter 3 ∧
      (∀ id < twoNamed.size,
        twoNamed.var? id ≠ some "#t3") ∧
      PlanOperation.generatedAll
          [.fresh "t", .fresh "t1", .fresh "t"] twoNamed =
        [("t", "#t3"), ("t1", "#t14"), ("t", "#t5")] := by
  have hLeft : twoNamed.size < twoNamed.numbersLeft := by
    decide
  have hFresh := generatedNames_fresh twoNamed
  rcases hFresh.2.1 "t" hLeft with
    ⟨number, hSearch, _, _, hFree⟩
  have hRun := ((hFresh.1 "t" number).mp hSearch).2
  have hNumber : 3 = number :=
    congrArg (fun r => r.2.counter) hRun
  subst hNumber
  exact ⟨hLeft, hSearch, hFree, by decide⟩

end Plan

end Flwor
