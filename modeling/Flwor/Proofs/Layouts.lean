import Mathlib.Data.List.Forall2
import Mathlib.Data.Set.Basic
import Flwor.Compile
import Flwor.Operator.Evaluate
import Flwor.Proofs.Meaning

/-
  What a row says under the names of its layout, and when it
  agrees with an environment.

  Agreement is stated for the names that matter: a projected
  row need not hold the others.

  Key definitions include:
    * `Row.value?`
    * `Layout.Agrees`

  Key theorems include:
    * `Row.value?_append`
    * `Layout.Agrees.push`
    * `Layout.Agrees.projectRow`
-/

------------------------------------------------------------
-- Slots of Names
------------------------------------------------------------

namespace Flwor

namespace Layout

/- A slot holds the name that it was found for. -/
theorem getElem?_of_slot?
    {layout : Layout}
    {name : String}
    {index : Nat}
    (hSlot : layout.slot? name = some index) :
    layout.names[index]? = some name := by
  rw [slot?, Option.map_eq_some_iff] at hSlot
  rcases hSlot with ⟨i, hFind, rfl⟩
  rw [List.findIdx?_eq_some_iff_getElem] at hFind
  rcases hFind with ⟨hBound, hName, _⟩
  rw [List.length_reverse] at hBound
  rw [List.getElem_reverse] at hName
  rw [width, List.getElem?_eq_getElem (by omega)]
  simpa using hName

theorem slot?_eq_none_iff
    {layout : Layout}
    {name : String} :
    layout.slot? name = none ↔ name ∉ layout.names := by
  rw [slot?, Option.map_eq_none_iff,
    List.findIdx?_eq_none_iff]
  constructor
  · intro hAll hMem
    simpa using hAll name (by simpa using hMem)
  · intro hNot n hMem
    rw [List.mem_reverse] at hMem
    rw [beq_eq_false_iff_ne]
    rintro rfl
    exact hNot hMem

theorem slot?_append
    (names others : List String)
    (context : Nat)
    (name : String) :
    (Layout.mk (names ++ others) context).slot? name =
      if name ∈ others then
        ((Layout.mk others context).slot? name).map
          (fun index => names.length + index)
      else (Layout.mk names context).slot? name := by
  have hOthers :=
    @slot?_eq_none_iff ⟨others, context⟩ name
  simp only [slot?, width, List.reverse_append,
    List.findIdx?_append, List.length_append,
    Option.map_eq_none_iff] at hOthers ⊢
  cases hFind : others.reverse.findIdx?
      (fun n => n == name) with
  | none =>
      rw [if_neg (hOthers.mp hFind)]
      simp only [Option.none_or, Option.map_map,
        List.length_reverse]
      cases hLeft : names.reverse.findIdx?
          (fun n => n == name) with
      | none => rfl
      | some i =>
          simp only [Option.map_some, Function.comp_apply,
            Option.some.injEq]
          omega
  | some i =>
      have hMem : name ∈ others := by
        by_contra hNot
        rw [hOthers.mpr hNot] at hFind
        cases hFind
      have hBound : i < others.length := by
        have h := List.findIdx?_eq_some_iff_getElem.mp hFind
        rcases h with ⟨h, _⟩
        simpa using h
      rw [if_pos hMem]
      simp only [Option.some_or, Option.map_some,
        Option.some.injEq]
      omega

end Layout

end Flwor

------------------------------------------------------------
-- Values of Names
------------------------------------------------------------

namespace Flwor

namespace Row

/- The value that a row holds under a name. -/
def value?
    (row : Row)
    (names : List String)
    (name : String) : Option Sequence :=
  ((Layout.mk names 0).slot? name).bind (fun index =>
    row[index]?)

theorem value?_of_slot?
    {layout : Layout}
    {name : String}
    {index : Nat}
    (hSlot : layout.slot? name = some index)
    (row : Row) :
    row.value? layout.names name = row[index]? := by
  have hSame :
      (Layout.mk layout.names 0).slot? name = some index :=
    hSlot
  rw [value?, hSame, Option.bind_some]

theorem value?_eq_none
    {names : List String}
    {name : String}
    (hNot : name ∉ names)
    (row : Row) :
    row.value? names name = none := by
  have hSlot : (Layout.mk names 0).slot? name = none :=
    Layout.slot?_eq_none_iff.mpr hNot
  rw [value?, hSlot, Option.bind_none]

/- The latest binding of a name is the one that counts. -/
theorem value?_append
    {names : List String}
    {row : Row}
    (hLength : row.length = names.length)
    (others : List String)
    (more : Row)
    (name : String) :
    Row.value? (row ++ more) (names ++ others) name =
      if name ∈ others then more.value? others name
      else row.value? names name := by
  rw [value?, Layout.slot?_append]
  by_cases hMem : name ∈ others
  · rw [if_pos hMem, if_pos hMem, value?,
      Option.bind_map]
    refine Option.bind_congr (fun index _ => ?_)
    rw [Function.comp_apply, ← hLength,
      List.getElem?_append_right (by omega)]
    congr 1
    omega
  · rw [if_neg hMem, if_neg hMem, value?]
    refine Option.bind_congr (fun index hSlot => ?_)
    have hName := Layout.getElem?_of_slot? hSlot
    rw [List.getElem?_eq_some_iff] at hName
    rcases hName with ⟨hBound, _⟩
    rw [List.getElem?_append_left (by
      simpa [hLength] using hBound)]

theorem value?_singleton
    (name other : String)
    (value : Sequence) :
    Row.value? [value] [name] other =
      if other = name then some value else none := by
  by_cases hEq : other = name
  · subst hEq
    simp [value?, Layout.slot?, Layout.width]
  · rw [if_neg hEq]
    exact value?_eq_none (by simpa using hEq) _

/- A value under a name that determines its value. -/
theorem value?_of_forall₂
    {names : List String}
    {row : Row}
    {f : String → Option Sequence}
    (hBoth : List.Forall₂ (fun name value =>
      f name = some value) names row)
    {name : String}
    (hMem : name ∈ names) :
    row.value? names name = f name := by
  cases hSlot : (Layout.mk names 0).slot? name with
  | none =>
      exact (Layout.slot?_eq_none_iff.mp hSlot hMem).elim
  | some index =>
      have hName := Layout.getElem?_of_slot? hSlot
      rw [value?, hSlot, Option.bind_some]
      have hLength := hBoth.length_eq
      rw [List.getElem?_eq_some_iff] at hName
      rcases hName with ⟨hBound, hName⟩
      have hValue := hBoth.get (i := index) hBound
        (by simpa [← hLength] using hBound)
      simp only [List.get_eq_getElem] at hValue
      rw [List.getElem?_eq_getElem (by
        simpa [← hLength] using hBound), ← hValue]
      exact congrArg f hName

end Row

end Flwor

------------------------------------------------------------
-- Bindings
------------------------------------------------------------

namespace Flwor

namespace Env

/- Names bound in order hold what a row of values holds. -/
theorem bindAll_zip
    (env : Env)
    {names : List String}
    {values : Row}
    (hLength : values.length = names.length)
    (name : String) :
    env.bindAll (names.zip values) name =
      if name ∈ names then values.value? names name
      else env name := by
  induction names generalizing env values with
  | nil => simp [bindAll]
  | cons first rest ih =>
      cases values with
      | nil => simp at hLength
      | cons value more =>
          have hMore : more.length = rest.length := by
            simpa using hLength
          have hFirst : [value].length = [first].length :=
            rfl
          have hRest := ih (env.bind first value) hMore
          have hValue :=
            Row.value?_append hFirst rest more name
          rw [List.singleton_append, List.singleton_append]
            at hValue
          rw [List.zip_cons_cons, bindAll_cons, hRest,
            hValue, bind_apply, Row.value?_singleton]
          by_cases hMem : name ∈ rest
          · simp [hMem]
          · by_cases hEq : name = first
            · simp [hEq]
            · simp [hMem, hEq]

end Env

end Flwor

------------------------------------------------------------
-- Agreement
------------------------------------------------------------

namespace Flwor

namespace Layout

/-
  A row holds what an environment says about some names.  It
  has a slot for each name of its layout.
-/
structure Agrees
    (layout : Layout)
    (relevant : Set String)
    (row : Row)
    (env : Env) : Prop where
  length : row.length = layout.names.length
  values :
    ∀ name ∈ relevant, row.value? layout.names name = env name

variable {layout : Layout}
variable {relevant wanted : Set String}
variable {row : Row}
variable {env : Env}

/- The slot of a relevant name holds its value. -/
theorem Agrees.getElem?
    (hAgrees : layout.Agrees relevant row env)
    {name : String}
    (hName : name ∈ relevant)
    {index : Nat}
    (hSlot : layout.slot? name = some index) :
    row[index]? = env name := by
  rw [← hAgrees.values name hName,
    Row.value?_of_slot? hSlot]

theorem Agrees.mono
    (hAgrees : layout.Agrees relevant row env)
    (hSubset : wanted ⊆ relevant) :
    layout.Agrees wanted row env :=
  ⟨hAgrees.length, fun name hName =>
    hAgrees.values name (hSubset hName)⟩

/- Further slots, which hide those of the same names. -/
theorem Agrees.pushAll
    (hAgrees : layout.Agrees relevant row env)
    {names : List String}
    {values : Row}
    (hLength : values.length = names.length)
    {extended : Env}
    (hNew : ∀ name ∈ wanted, name ∈ names →
      values.value? names name = extended name)
    (hOld : ∀ name ∈ wanted, name ∉ names →
      name ∈ relevant ∧ env name = extended name) :
    (layout.pushAll names).Agrees wanted (row ++ values)
      extended := by
  refine ⟨?_, fun name hName => ?_⟩
  · simp [Layout.pushAll, hAgrees.length, hLength]
  · rw [Layout.pushAll, Row.value?_append hAgrees.length]
    by_cases hMem : name ∈ names
    · rw [if_pos hMem, hNew name hName hMem]
    · rw [if_neg hMem]
      rcases hOld name hName hMem with ⟨hRelevant, hSame⟩
      rw [hAgrees.values name hRelevant, hSame]

/- One more slot for a name that is bound. -/
theorem Agrees.push
    (hAgrees : layout.Agrees relevant row env)
    {var : String}
    (hWanted : ∀ name ∈ wanted,
      name = var ∨ name ∈ relevant)
    (value : Sequence) :
    (layout.push var).Agrees wanted (row ++ [value])
      (env.bind var value) := by
  have hLength : [value].length = [var].length := rfl
  refine hAgrees.pushAll hLength ?_ ?_
  · intro name _ hMem
    rw [List.mem_singleton] at hMem
    rw [Row.value?_singleton, Env.bind_apply]
    simp [hMem]
  · intro name hName hMem
    rw [List.mem_singleton] at hMem
    refine ⟨(hWanted name hName).resolve_left hMem, ?_⟩
    rw [Env.bind_apply, if_neg hMem]

end Layout

end Flwor

------------------------------------------------------------
-- Projection
------------------------------------------------------------

namespace Flwor

namespace Layout

variable {layout : Layout}
variable {relevant : Set String}
variable {names : List String}

/- The names of a layout, context first. -/
theorem contextNames_append_locals
    (layout : Layout) :
    layout.contextNames ++ layout.locals = layout.names :=
  List.take_append_drop _ _

/- A kept slot is the latest one of its name. -/
theorem mem_keptSlots
    {slot : Slot}
    (hMem : slot ∈ Compile.keptSlots layout names) :
    slot.name ∈ names ∧ slot.name ∈ layout.locals ∧
      layout.slot? slot.name = some slot.index := by
  simp only [Compile.keptSlots, List.mem_filter,
    List.mem_map, Bool.and_eq_true, List.contains_iff_mem,
    beq_iff_eq] at hMem
  rcases hMem with ⟨⟨p, hLocal, rfl⟩, hName, hSlot⟩
  exact ⟨hName, List.fst_mem_of_mem_zipIdx hLocal, hSlot⟩

/- The projection keeps the latest slot of a listed name. -/
theorem exists_mem_keptSlots
    (hContext : layout.context ≤ layout.names.length)
    {name : String}
    (hLocal : name ∈ layout.locals)
    (hName : name ∈ names) :
    ∃ slot ∈ Compile.keptSlots layout names,
      slot.name = name := by
  have hAppend := slot?_append layout.contextNames
    layout.locals layout.context name
  rw [contextNames_append_locals, if_pos hLocal] at hAppend
  have hLength :
      layout.contextNames.length = layout.context := by
    simpa [contextNames] using hContext
  cases hSlot :
      (Layout.mk layout.locals layout.context).slot?
        name with
  | none =>
      exact (slot?_eq_none_iff.mp hSlot hLocal).elim
  | some index =>
      rw [hSlot, Option.map_some, hLength] at hAppend
      refine ⟨⟨name, layout.context + index⟩, ?_, rfl⟩
      simp only [Compile.keptSlots, List.mem_filter,
        List.mem_map, Bool.and_eq_true,
        List.contains_iff_mem, beq_iff_eq]
      refine ⟨⟨(name, index), ?_, rfl⟩, hName, hAppend⟩
      rw [List.mem_zipIdx_iff_getElem?]
      exact getElem?_of_slot? hSlot

theorem names_select_keptSlots
    (layout : Layout)
    (names : List String) :
    (layout.select
        ((Compile.keptSlots layout names).map
          Slot.index)).names =
      layout.contextNames
        ++ (Compile.keptSlots layout names).map
          Slot.name := by
  rw [Layout.select, Layout.withLocals,
    List.filterMap_map]
  dsimp only
  congr 1
  rw [← List.filterMap_eq_map]
  refine List.filterMap_congr (fun slot hMem => ?_)
  exact getElem?_of_slot? (mem_keptSlots hMem).2.2

/- A projected row still agrees on what it had to keep. -/
theorem Agrees.projectRow
    (hContext : layout.context ≤ layout.names.length)
    (hKeeps : ∀ name ∈ relevant,
      name ∈ layout.locals → name ∈ names)
    {row : Row}
    {env : Env}
    (hAgrees : layout.Agrees relevant row env) :
    ∃ kept,
      projectRow layout.context
        (Compile.keptSlots layout names) row = .ok kept ∧
      (layout.select
        ((Compile.keptSlots layout names).map
          Slot.index)).Agrees relevant kept env := by
  let slots := Compile.keptSlots layout names
  let values : Row :=
    slots.map (fun slot => (row[slot.index]?).getD [])
  -- Every kept slot lies inside of the row.
  have hValue (slot : Slot) (hMem : slot ∈ slots) :
      row[slot.index]? =
        some ((row[slot.index]?).getD []) := by
    have hName :=
      getElem?_of_slot? (mem_keptSlots hMem).2.2
    rw [List.getElem?_eq_some_iff] at hName
    rcases hName with ⟨hBound, _⟩
    rw [← hAgrees.length] at hBound
    rw [List.getElem?_eq_getElem hBound, Option.getD_some]
  have hSlots :
      row.slots (slots.map Slot.index) = .ok values := by
    rw [Row.slots, List.mapM_map]
    have hAll (more : List Slot)
        (hMore : ∀ slot ∈ more, slot ∈ slots) :
        more.mapM (row.slot ∘ Slot.index) =
          .ok (more.map (fun slot =>
            (row[slot.index]?).getD [])) := by
      induction more with
      | nil => rfl
      | cons slot rest ih =>
          rw [List.mapM_cons,
            ih (fun s hS => hMore s (by simp [hS])),
            Function.comp_apply, Row.slot,
            hValue slot (hMore slot (by simp))]
          rfl
    exact hAll slots (fun _ hMem => hMem)
  have hTaken :
      (row.take layout.context).length =
        layout.contextNames.length := by
    simp [contextNames, hAgrees.length]
  refine ⟨row.take layout.context ++ values, ?_, ?_, ?_⟩
  · rw [Flwor.projectRow, hSlots]
    rfl
  · rw [names_select_keptSlots]
    simp [hTaken, values, slots]
  · intro name hName
    rw [names_select_keptSlots, Row.value?_append hTaken,
      ← hAgrees.values name hName]
    by_cases hKept : name ∈ slots.map Slot.name
    · rw [if_pos hKept]
      refine Row.value?_of_forall₂ ?_ hKept
      rw [List.forall₂_map_left_iff,
        List.forall₂_map_right_iff, List.forall₂_same]
      intro slot hMem
      rw [Row.value?_of_slot? (mem_keptSlots hMem).2.2]
      exact hValue slot hMem
    · rw [if_neg hKept]
      have hLocal : name ∉ layout.locals := by
        intro hLocal
        rcases exists_mem_keptSlots hContext hLocal
            (hKeeps name hName hLocal) with
          ⟨slot, hMem, rfl⟩
        exact hKept (List.mem_map_of_mem hMem)
      have hSplit := Row.value?_append hTaken layout.locals
        (row.drop layout.context) name
      rw [List.take_append_drop,
        contextNames_append_locals, if_neg hLocal] at hSplit
      exact hSplit.symm

end Layout

end Flwor
