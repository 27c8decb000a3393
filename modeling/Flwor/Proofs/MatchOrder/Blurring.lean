import Flwor.Proofs.Joins.Groups
import Flwor.Proofs.MatchOrder.Overlooking

/-
  Rows of which it is blurred which one stands where.

  After a join whose matches come in any order, the rows of
  one left row form a block: within it they differ only in
  what depends on the right input.  As long as each stage
  treats a block as a whole there are blocks; and at least
  rows in the same place differ in nothing else.  A grouping
  that has no key among these names makes the same groups,
  whose collected values are reordered.

  Key definitions include:
    * `Env.Blurs`, `Env.Blocks`
    * `Env.Spreads`, `Env.Aligns`
    * `GroupEntry.Reordered`

  Key theorems include:
    * `Env.Blocks.spread`, `Env.Blurs.spread`
    * `Env.Blurs.sorted`
    * `GroupEntry.forall₂_mergeGroups`
-/

------------------------------------------------------------
-- Lists in Another Order
------------------------------------------------------------

namespace Flwor

variable {α β : Type}

/- A partial step on elements in another order. -/
theorem meets_mapM_perm
    {as bs : List α}
    (hPerm : as.Perm bs)
    (f : α → Option β) :
    Meets False List.Perm (as.mapM f) (bs.mapM f) := by
  induction hPerm with
  | nil => exact .value .nil
  | cons a _ ih =>
      rw [List.mapM_cons, List.mapM_cons]
      refine (Meets.refl (f a)).bind ?_
      rintro b _ rfl
      exact ih.bind (fun _ _ hRest => .value (hRest.cons b))
  | swap a b rest =>
      simp only [List.mapM_cons]
      cases f a with
      | none => cases f b <;> exact .failure
      | some x =>
          cases f b with
          | none => exact .failure
          | some y =>
              cases rest.mapM f with
              | none => exact .failure
              | some zs => exact .value (.swap x y zs)
  | trans _ _ ihFirst ihSecond =>
      exact ihFirst.trans_lax ihSecond
        (fun _ _ _ hFirst hSecond => hFirst.trans hSecond)

/- Lists of one length all of whose elements correspond. -/
theorem forall₂_of_forall
    {R : α → β → Prop}
    {as : List α}
    {bs : List β}
    (hLength : as.length = bs.length)
    (hAll : ∀ a ∈ as, ∀ b ∈ bs, R a b) :
    List.Forall₂ R as bs := by
  rw [List.forall₂_iff_zip]
  exact ⟨hLength, fun hMem =>
    hAll _ (List.of_mem_zip hMem).1 _ (List.of_mem_zip hMem).2⟩

end Flwor

------------------------------------------------------------
-- Rows in Another Order
------------------------------------------------------------

namespace Flwor

/- Whatever two names hold, it counts as similar. -/
abbrev Likeness.any : Likeness :=
  fun _ _ => True

/- Values with the same items in another order. -/
abbrev Likeness.reordered : Likeness :=
  Option.Rel List.Perm

theorem Likeness.keepsEmptiness_reordered :
    KeepsEmptiness .reordered := by
  rintro _ _ (hPerm | _)
  · exact congrArg some hPerm.isEmpty_eq
  · rfl

namespace Env

variable {names wider : List String}
variable {rows rows' : List Env}

/- Whatever is similar is so if everything is. -/
theorem Varies.any
    {similar : Likeness}
    {env env' : Env}
    (hVaries : Varies similar names env env') :
    Varies .any names env env' :=
  fun name => (hVaries name).imp_right (fun h => ⟨h.1, trivial⟩)

theorem Varies.any_symm
    {env env' : Env}
    (hVaries : Varies .any names env env') :
    Varies .any names env' env :=
  fun name => (hVaries name).imp Eq.symm id

theorem Varies.any_trans
    {env env' env'' : Env}
    (hFirst : Varies .any names env env')
    (hSecond : Varies .any names env' env'') :
    Varies .any names env env'' := by
  intro name
  rcases hFirst name with hEq | hMem
  · rw [hEq]
    exact hSecond name
  · exact .inr hMem

/-
  The same rows in another order; which row stands where can
  be told by some names only.
-/
structure Blurs
    (names : List String)
    (rows rows' : List Env) : Prop where
  perm : rows.Perm rows'
  alike : List.Forall₂ (Varies .any names) rows rows'

/-
  Blocks of rows that come in another order within their
  block; which row of a block it is can be told by some names
  only.
-/
inductive Blocks
    (names : List String) :
    List Env → List Env → Prop where
  | nil : Blocks names [] []
  | cons
      {block block' rest rest'}
      (hPerm : block.Perm block')
      (hAlike : ∀ row ∈ block, ∀ other ∈ block,
        Varies .any names row other)
      (hRest : Blocks names rest rest') :
      Blocks names (block ++ rest) (block' ++ rest')

theorem Blocks.blurs
    (hBlocks : Blocks names rows rows') :
    Blurs names rows rows' := by
  induction hBlocks with
  | nil => exact ⟨.nil, .nil⟩
  | cons hPerm hAlike _ ih =>
      refine ⟨hPerm.append ih.perm, ?_⟩
      refine List.rel_append ?_ ih.alike
      exact forall₂_of_forall hPerm.length_eq
        (fun row hRow other hOther => hAlike row hRow other
          (hPerm.mem_iff.mpr hOther))

theorem Blocks.mono
    (hBlocks : Blocks names rows rows')
    (hSubset : names ⊆ wider) :
    Blocks wider rows rows' := by
  induction hBlocks with
  | nil => exact .nil
  | cons hPerm hAlike _ ih =>
      exact .cons hPerm (fun row hRow other hOther =>
        (hAlike row hRow other hOther).mono hSubset) ih

/-
  A step that makes rows of one row: of rows that differ in
  some names only, all that it makes differ in some only.
-/
def Spreads
    (names wider : List String)
    (step : Env → Option (List Env)) : Prop :=
  ∀ row row', Varies .any names row row' →
    ∀ made made', step row = some made →
      step row' = some made' →
        ∀ one ∈ made, ∀ other ∈ made',
          Varies .any wider one other

/- A step that makes such rows in the same places. -/
def Aligns
    (names wider : List String)
    (step : Env → Option (List Env)) : Prop :=
  ∀ row row', Varies .any names row row' →
    ∀ made made', step row = some made →
      step row' = some made' →
        List.Forall₂ (Varies .any wider) made made'

/- Make rows of each row, and put them in a line. -/
def spreadAll
    (step : Env → Option (List Env))
    (rows : List Env) : Option (List Env) :=
  (rows.mapM step).map List.flatten

variable {step : Env → Option (List Env)}

theorem spreadAll_append
    (rows rows' : List Env) :
    spreadAll step (rows ++ rows') =
      (spreadAll step rows).bind (fun made =>
        (spreadAll step rows').map (made ++ ·)) := by
  unfold spreadAll
  rw [List.mapM_append]
  cases rows.mapM step with
  | none => rfl
  | some made =>
      cases rows'.mapM step with
      | none => rfl
      | some made' => simp

theorem meets_spreadAll_perm
    (hPerm : rows.Perm rows') :
    Meets False List.Perm (spreadAll step rows)
      (spreadAll step rows') :=
  (meets_mapM_perm hPerm step).map (fun _ _ h => h.flatten)

/- What a step makes of a block is a block again. -/
theorem Spreads.block
    {made : List Env}
    (hSpreads : Spreads names wider step)
    (hAlike : ∀ row ∈ rows, ∀ other ∈ rows,
      Varies .any names row other)
    (hMade : spreadAll step rows = some made) :
    ∀ one ∈ made, ∀ other ∈ made,
      Varies .any wider one other := by
  rw [spreadAll, Option.map_eq_some_iff] at hMade
  rcases hMade with ⟨parts, hParts, rfl⟩
  intro one hOne other hOther
  rcases exists_of_mem_flatten hParts hOne with
    ⟨row, hRow, ones, hStep, hOne⟩
  rcases exists_of_mem_flatten hParts hOther with
    ⟨row', hRow', others, hStep', hOther⟩
  exact hSpreads row row' (hAlike row hRow row' hRow') ones
    others hStep hStep' one hOne other hOther

/- A step that treats each block as a whole. -/
theorem Blocks.spread
    (hBlocks : Blocks names rows rows')
    (hSpreads : Spreads names wider step) :
    Meets False (Blocks wider) (spreadAll step rows)
      (spreadAll step rows') := by
  induction hBlocks with
  | nil => exact .value .nil
  | @cons block block' rest rest' hPerm hAlike _ ih =>
      rw [spreadAll_append, spreadAll_append]
      refine Meets.bind ((meets_spreadAll_perm hPerm).and
        (.of_values (R := fun made _ => ∀ one ∈ made,
          ∀ other ∈ made, Varies .any wider one other)
            (fun made _ hMade _ =>
              hSpreads.block hAlike hMade))) ?_
      rintro made made' ⟨hMade, hAll⟩
      exact ih.map (fun _ _ hMore => .cons hMade hAll hMore)

/- A step that treats rows in one place alike. -/
theorem Blurs.spread
    (hBlurs : Blurs names rows rows')
    (hAligns : Aligns names wider step) :
    Meets False (Blurs wider) (spreadAll step rows)
      (spreadAll step rows') := by
  refine ((meets_spreadAll_perm hBlurs.perm).and
    ((Meets.mapM hBlurs.alike (fun row row' hRow =>
      .of_values (hAligns row row' hRow))).map
        (fun _ _ hMade => List.rel_flatten hMade))).mono ?_
  exact fun _ _ h => ⟨h.1, h.2⟩

/- Rows that are sorted by keys that do not tell them apart. -/
theorem Blurs.sorted
    (hBlurs : Blurs names rows rows')
    (orders : List SortOrder)
    {keysOf : Env → Option (List (Option Item))}
    (hKeys : ∀ row row', Varies .any names row row' →
      keysOf row = keysOf row') :
    Meets False (Blurs names)
      ((rows.mapM (fun row =>
        (keysOf row).map (fun keys => (keys, row)))).map
          (sortKeyed orders))
      ((rows'.mapM (fun row =>
        (keysOf row).map (fun keys => (keys, row)))).map
          (sortKeyed orders)) := by
  have hAlike : Meets True
      (List.Forall₂ (fun x y =>
        x.1 = y.1 ∧ Varies .any names x.2 y.2))
      (rows.mapM (fun row =>
        (keysOf row).map (fun keys => (keys, row))))
      (rows'.mapM (fun row =>
        (keysOf row).map (fun keys => (keys, row)))) := by
    refine Meets.mapM hBlurs.alike (fun row row' hRow => ?_)
    rw [hKeys row row' hRow]
    refine (Meets.refl (keysOf row')).map ?_
    rintro keys _ rfl
    exact ⟨rfl, hRow⟩
  refine ((meets_mapM_perm hBlurs.perm _).and hAlike).map ?_
  rintro keyed keyed' ⟨hPerm, hKeyed⟩
  refine ⟨List.Perm.map _ ?_, forall₂_sortKeyed orders hKeyed⟩
  exact (List.mergeSort_perm _ _).trans
    (hPerm.trans (List.mergeSort_perm _ _).symm)

end Env

end Flwor

------------------------------------------------------------
-- Grouping Blurred Rows
------------------------------------------------------------

namespace Flwor

/- Names with values by column, side by side. -/
theorem zip_columns
    {α : Type}
    (targets : List String)
    (column : Nat → α) :
    targets.zip ((List.range targets.length).map column) =
      targets.zipIdx.map (fun e => (e.1, column e.2)) :=
  List.ext_getElem (by simp) (fun _ _ _ => by simp)

namespace GroupEntry

/- What the keys and aggregates of a grouping read of a row. -/
def ofEnv
    (keys : List String)
    (aggregates : List (String × String))
    (row : Env) : Option GroupEntry := do
  let ks ← keys.mapM row
  let vs ← aggregates.mapM (fun a => row a.2)
  return ⟨ks, vs⟩

/- Entries that differ only in columns with certain sources. -/
def DiffersIn
    (names : List String)
    (aggregates : List (String × String))
    (e e' : GroupEntry) : Prop :=
  e.keys = e'.keys ∧ ∀ (column : Nat) (a : String × String),
    aggregates[column]? = some a → a.2 ∉ names →
      e.values[column]? = e'.values[column]?

end GroupEntry

namespace Env

variable {names : List String}
variable {keys : List String}
variable {aggregates : List (String × String)}
variable {rows rows' : List Env}

/- The entry of a row in place of that of another one. -/
theorem Varies.differsIn
    {row row' : Env}
    {e e' : GroupEntry}
    (hVaries : Varies .any names row row')
    (hKeys : ∀ name ∈ keys, name ∉ names)
    (hEntry : GroupEntry.ofEnv keys aggregates row = some e)
    (hEntry' :
      GroupEntry.ofEnv keys aggregates row' = some e') :
    e.DiffersIn names aggregates e' := by
  simp only [GroupEntry.ofEnv, Option.bind_eq_bind,
    Option.bind_eq_some_iff] at hEntry hEntry'
  rcases hEntry with ⟨ks, hKs, vs, hVs, hEq⟩
  rcases hEntry' with ⟨ks', hKs', vs', hVs', hEq'⟩
  cases hEq
  cases hEq'
  refine ⟨List.ext_getElem? (fun index => ?_),
    fun column a hA hSource => ?_⟩
  · change ks[index]? = ks'[index]?
    rw [getElem?_mapM hKs, getElem?_mapM hKs']
    cases hKey : keys[index]? with
    | none => rfl
    | some key =>
        exact hVaries.eq_of_not_mem
          (hKeys key (List.mem_of_getElem? hKey))
  · change vs[column]? = vs'[column]?
    rw [getElem?_mapM hVs, getElem?_mapM hVs', hA]
    exact hVaries.eq_of_not_mem hSource

theorem Blurs.entries
    (hBlurs : Blurs names rows rows')
    (hKeys : ∀ name ∈ keys, name ∉ names) :
    Meets False (fun entries entries' =>
        entries.Perm entries' ∧ List.Forall₂
          (GroupEntry.DiffersIn names aggregates) entries
            entries')
      (rows.mapM (GroupEntry.ofEnv keys aggregates))
      (rows'.mapM (GroupEntry.ofEnv keys aggregates)) :=
  (meets_mapM_perm hBlurs.perm _).and
    (Meets.mapM hBlurs.alike (fun _ _ hRow =>
      .of_values (fun _ _ hEntry hEntry' =>
        hRow.differsIn hKeys hEntry hEntry')))

end Env

namespace GroupEntry

variable {names : List String}
variable {aggregates : List (String × String)}

/- The targets of the aggregates with certain sources. -/
def collected
    (names : List String)
    (aggregates : List (String × String)) : List String :=
  (aggregates.filter (fun a =>
    names.contains a.2)).map Prod.fst

/- A group collects the same values, some in another order. -/
theorem gather_perm
    {group group' : List GroupEntry}
    (hPerm : group.Perm group')
    (hDiffer : List.Forall₂ (DiffersIn names aggregates)
      group group')
    {column : Nat}
    {a : String × String}
    (hA : aggregates[column]? = some a) :
    gather group column = gather group' column ∨
      a.1 ∈ collected names aggregates ∧
        (gather group column).Perm (gather group' column) := by
  by_cases hSource : a.2 ∈ names
  · refine .inr ⟨List.mem_map.mpr ⟨a, ?_, rfl⟩,
      hPerm.flatMap_right _⟩
    rw [List.mem_filter]
    exact ⟨List.mem_of_getElem? hA, by simpa using hSource⟩
  · left
    unfold gather
    rw [List.flatMap_def, List.flatMap_def]
    congr 1
    rw [← List.forall₂_eq_eq_eq, List.forall₂_map_left_iff,
      List.forall₂_map_right_iff]
    refine hDiffer.imp (fun e e' h => ?_)
    rw [h.2 column a hA hSource]

/- Groups with the same keys, and values in another order. -/
def Reordered
    (names : List String)
    (aggregates : List (String × String))
    (group group' : GroupEntry) : Prop :=
  group.keys = group'.keys ∧
    List.Forall₂ (fun b b' : String × Sequence =>
      b.1 = b'.1 ∧ (b.2 = b'.2 ∨
        b.1 ∈ collected names aggregates ∧
          Likeness.reordered (some b.2) (some b'.2)))
      ((aggregates.map Prod.fst).zip group.values)
      ((aggregates.map Prod.fst).zip group'.values)

theorem identity_congr
    {e e' : GroupEntry}
    (hKeys : e.keys = e'.keys) :
    e.identity = e'.identity := by
  rw [identity, identity, hKeys]

/-
  Entries in another order that differ in columns only make
  the same groups; only what is collected is reordered.
-/
theorem forall₂_mergeGroups
    {entries entries' : List GroupEntry}
    (hPerm : entries.Perm entries')
    (hDiffer : List.Forall₂ (DiffersIn names aggregates)
      entries entries') :
    List.Forall₂ (Reordered names aggregates)
      (mergeGroups aggregates.length entries)
      (mergeGroups aggregates.length entries') := by
  have hIdentities : entries.map identity =
      entries'.map identity := by
    rw [← List.forall₂_eq_eq_eq, List.forall₂_map_left_iff,
      List.forall₂_map_right_iff]
    exact hDiffer.imp (fun _ _ h => identity_congr h.1)
  unfold mergeGroups
  rw [hIdentities]
  refine List.rel_filterMap (R := Eq) ?_
    (List.forall₂_same.mpr (fun _ _ => rfl))
  rintro id _ rfl
  have hGroup : List.Forall₂ (DiffersIn names aggregates)
      (entries.filter (fun e => e.identity == id))
      (entries'.filter (fun e => e.identity == id)) := by
    refine List.rel_filter (fun e e' h => ?_) hDiffer
    simp only [identity_congr h.1]
  have hSame := hPerm.filter (fun e => e.identity == id)
  dsimp only
  generalize entries.filter (fun e =>
    e.identity == id) = group at hGroup hSame
  generalize entries'.filter (fun e =>
    e.identity == id) = group' at hGroup hSame
  cases hGroup with
  | nil => exact .none
  | cons hFirst hMore =>
      refine .some ⟨hFirst.1, ?_⟩
      have hWidth : aggregates.length =
          (aggregates.map Prod.fst).length := by
        rw [List.length_map]
      dsimp only
      rw [hWidth, zip_columns, zip_columns,
        List.forall₂_map_left_iff, List.forall₂_map_right_iff,
        List.forall₂_same]
      rintro ⟨target, column⟩ hMem
      rw [List.mem_zipIdx_iff_getElem?, List.getElem?_map,
        Option.map_eq_some_iff] at hMem
      rcases hMem with ⟨a, hA, rfl⟩
      exact ⟨rfl, (gather_perm hSame (.cons hFirst hMore)
        hA).imp_right (fun h => ⟨h.1, .some h.2⟩)⟩

end GroupEntry

end Flwor
