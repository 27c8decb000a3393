import Mathlib.Algebra.Order.Ring.Unbundled.Rat
import Mathlib.Data.List.Sort
import Flwor.Operator.Join
import Flwor.Proofs.Meaning

/-
  What the look-up structures of a join find.

  Whatever the strategy, the matching rows of a left key are
  those whose key compares true with it, each once and by
  index: a hash table finds them because equal items share a
  key, the sorted entries because the sorting order agrees
  with the comparison on comparable items.

  Key theorems include:
    * `Item.satisfies_eq_iff`
    * `Buckets.lookup_ofList`
    * `Probe.mem_candidates_iff`
    * `Probe.matching_build`
    * `Probe.joinRow_build`
-/

------------------------------------------------------------
-- Equal Items
------------------------------------------------------------

namespace Flwor

namespace Number

/- Numbers that compare equal are equal. -/
theorem compare_eq_eq_iff
    (x y : Number) :
    x.compare y = .eq ↔ x = y := by
  cases x with
  | negInfinity => cases y <;> simp [Number.compare]
  | infinity => cases y <;> simp [Number.compare]
  | finite a =>
      cases y with
      | negInfinity => simp [Number.compare]
      | infinity => simp [Number.compare]
      | finite b =>
          rw [Number.compare, Number.finite.injEq]
          rcases lt_trichotomy a b with h | h | h
          · simp [h, h.ne]
          · simp [h]
          · simp [h, h.not_gt, h.ne']

end Number

namespace Item

/- Doubles that are no number are those without one. -/
theorem isNaN_eq_true_iff
    (a : Item) :
    a.isNaN = true ↔
      a.family = .numeric ∧ a.number? = none := by
  cases a with
  | bool b => simp [isNaN, family]
  | str s => simp [isNaN, family]
  | int n => simp [isNaN, family, number?]
  | dbl x =>
      simp only [isNaN, family, number?, Double.isNaN,
        Double.number?, true_and, decide_eq_true_eq]
      cases x.read with
      | nan => simp
      | infinite negative => cases negative <;> simp
      | finite s m e => simp

/-
  A relation holds between comparable items whose order it
  admits; of items that are no number only `ne` holds.
-/
theorem satisfies_eq
    (relation : Relation)
    (a b : Item) :
    a.satisfies relation b =
      (a.comparable b
        && (if a.isNaN || b.isNaN then decide (relation = .ne)
            else relation.holds (a.sortCompare b))) := by
  unfold satisfies compare
  cases a.comparable b with
  | false => rfl
  | true =>
      cases a.isNaN || b.isNaN with
      | true =>
          by_cases hNe : relation = .ne
          · simp [hNe]
          · simp [hNe]
      | false =>
          cases relation.holds (a.sortCompare b)
          · simp
          · simp

/- Numbers are equal if they stand for the same number. -/
theorem satisfies_eq_iff_number?
    {a b : Item}
    (ha : a.family = .numeric)
    (hb : b.family = .numeric) :
    a.satisfies .eq b = true ↔
      ∃ x, a.number? = some x ∧ b.number? = some x := by
  have hSort : a.sortCompare b = compareNumbers a b := by
    cases a <;> simp [family] at ha <;>
      cases b <;> simp [family] at hb <;>
      simp [sortCompare, family]
  have hNaN (c : Item) (hc : c.family = .numeric) :
      c.isNaN = true ↔ c.number? = none := by
    simp [isNaN_eq_true_iff, hc]
  rw [satisfies_eq, comparable, ha, hb, hSort,
    compareNumbers]
  cases hx : a.number? with
  | none => simp [(hNaN a ha).mpr hx]
  | some x =>
      cases hy : b.number? with
      | none => simp [(hNaN b hb).mpr hy]
      | some y =>
          have haNaN : a.isNaN = false := by
            rw [← Bool.not_eq_true, hNaN a ha, hx]
            simp
          have hbNaN : b.isNaN = false := by
            rw [← Bool.not_eq_true, hNaN b hb, hy]
            simp
          have hHolds :
              Relation.eq.holds (x.compare y) = true ↔
                x = y := by
            rw [← Number.compare_eq_eq_iff]
            cases x.compare y <;> simp [Relation.holds]
          simp only [haNaN, hbNaN, decide_true,
            Bool.true_and, Bool.or_self, Bool.false_eq_true,
            if_false, hHolds, Option.some.injEq]
          constructor
          · rintro rfl
            exact ⟨x, rfl, rfl⟩
          · rintro ⟨z, rfl, rfl⟩
            rfl

/- Items that share a key belong to one family. -/
theorem family_eq_of_key?
    {a b : Item}
    {key : Key}
    (ha : a.key? = some key)
    (hb : b.key? = some key) :
    a.family = b.family := by
  have hClass (c : Item) (hc : c.key? = some key) :
      (c.family = .boolean ↔ ∃ x, key = .bool x) ∧
        (c.family = .textual ↔ ∃ s, key = .str s) := by
    cases c <;> simp [key?, family] at hc ⊢
    all_goals first
      | subst hc; simp
      | (rcases hc with ⟨x, _, rfl⟩; simp)
  have hBool := (hClass a ha).1.trans (hClass b hb).1.symm
  have hText := (hClass a ha).2.trans (hClass b hb).2.symm
  cases ha : a.family <;> cases hb : b.family <;>
    simp [ha, hb] at hBool hText ⊢

/- Items are equal exactly if they share a key. -/
theorem satisfies_eq_iff
    (a b : Item) :
    a.satisfies .eq b = true ↔
      ∃ key, a.key? = some key ∧ b.key? = some key := by
  by_cases hFamily : a.family = b.family
  · cases hClass : a.family with
    | boolean =>
        have hBoth := And.intro hClass (hFamily ▸ hClass)
        cases a <;> simp [family] at hBoth
        cases b <;> simp at hBoth
        rename_i x y
        rw [satisfies_eq]
        cases x <;> cases y <;>
          simp [comparable, family, isNaN, sortCompare,
            Relation.holds, key?]
    | numeric =>
        have hKey (c : Item) (hc : c.family = .numeric) :
            c.key? = c.number?.map Key.number := by
          cases c <;> simp_all [family, key?]
        have hb : b.family = .numeric := hFamily ▸ hClass
        rw [satisfies_eq_iff_number? hClass hb,
          hKey a hClass, hKey b hb]
        cases a.number? <;> cases b.number? <;> simp
    | textual =>
        have hBoth := And.intro hClass (hFamily ▸ hClass)
        cases a <;> simp [family] at hBoth
        cases b <;> simp at hBoth
        rename_i s t
        rw [satisfies_eq]
        simp only [comparable, family, isNaN, sortCompare,
          Relation.holds, key?, decide_true, Bool.true_and,
          Bool.or_self, Bool.false_eq_true, if_false,
          Option.some.injEq, exists_eq_left', beq_iff_eq,
          Key.str.injEq, Std.compare_eq_iff_eq]
        exact eq_comm
  · constructor
    · intro hSatisfies
      rw [satisfies_eq, comparable, decide_eq_false hFamily]
        at hSatisfies
      simp at hSatisfies
    · rintro ⟨key, ha, hb⟩
      exact (hFamily (family_eq_of_key? ha hb)).elim

end Item

end Flwor

------------------------------------------------------------
-- Buckets
------------------------------------------------------------

namespace Flwor

namespace Buckets

variable {κ α : Type}
variable [BEq κ] [LawfulBEq κ]
variable [Hashable κ] [LawfulHashable κ]

/- A bucket holds the values listed with its key. -/
theorem lookup_ofList
    (entries : List (κ × α))
    (key : κ) :
    (ofList entries).lookup key =
      (entries.filter (fun e => e.1 == key)).map
        Prod.snd := by
  induction entries with
  | nil =>
      simp [ofList, empty, lookup]
  | cons e rest ih =>
      have hStep :
          (ofList (e :: rest)).lookup key =
            if e.1 == key
            then e.2 :: (ofList rest).lookup e.1
            else (ofList rest).lookup key := by
        simp only [ofList, List.foldr_cons, lookup, insert,
          Std.HashMap.getD_insert]
      rw [hStep]
      by_cases hKey : e.1 = key
      · subst hKey
        simp [ih]
      · simp [hKey, ih]

theorem firstsAfter_eq
    (seen : Std.HashSet κ)
    (entries : List (κ × α)) :
    firstsAfter seen entries =
      ((entries.map Prod.fst).filter (fun key =>
        !seen.contains key)).eraseDups.filterMap (fun key =>
          entries.find? (fun e => e.1 == key)) := by
  induction entries generalizing seen with
  | nil => simp [firstsAfter]
  | cons e rest ih =>
      -- The first entry of another key is one of the rest.
      have hOther
          (keys : List κ)
          (hKeys : ∀ key ∈ keys, key ≠ e.1) :
          keys.filterMap (fun key =>
              (e :: rest).find? (fun e => e.1 == key)) =
            keys.filterMap (fun key =>
              rest.find? (fun e => e.1 == key)) := by
        refine List.filterMap_congr (fun key hKey => ?_)
        simp [(hKeys key hKey).symm]
      cases hSeen : seen.contains e.1 with
      | true =>
          rw [firstsAfter, hSeen, if_pos rfl, ih,
            List.map_cons,
            List.filter_cons_of_neg (by simp [hSeen]),
            hOther]
          intro key hKey hEq
          rw [List.mem_eraseDups, List.mem_filter] at hKey
          simp [hEq, hSeen] at hKey
      | false =>
          have hRest :
              (rest.map Prod.fst).filter (fun key =>
                  !(seen.insert e.1).contains key) =
                ((rest.map Prod.fst).filter (fun key =>
                    !seen.contains key)).filter (fun key =>
                  !key == e.1) := by
            rw [List.filter_filter]
            refine List.filter_congr (fun key _ => ?_)
            simp [Std.HashSet.contains_insert,
              Bool.beq_comm]
          rw [firstsAfter, hSeen, if_neg (by simp), ih,
            hRest, List.map_cons,
            List.filter_cons_of_pos (by simp [hSeen]),
            List.eraseDups_cons, List.filterMap_cons,
            hOther]
          · simp
          · intro key hKey hEq
            simp [hEq] at hKey

/- The first entry of each key, key by key. -/
theorem firsts_eq
    (entries : List (κ × α)) :
    firsts entries =
      (entries.map Prod.fst).eraseDups.filterMap
        (fun key =>
          entries.find? (fun e => e.1 == key)) := by
  rw [firsts, firstsAfter_eq]
  simp

end Buckets

end Flwor

------------------------------------------------------------
-- Candidates
------------------------------------------------------------

namespace Flwor

namespace Probe

theorem mem_keyItems_iff
    (keys : List Sequence)
    (item : Item)
    (index : Nat) :
    (item, index) ∈ keyItems keys ↔
      ∃ key, keys[index]? = some key ∧ item ∈ key := by
  simp only [keyItems, List.mem_flatMap, List.mem_map,
    Prod.exists, Prod.mk.injEq,
    List.mem_zipIdx_iff_getElem?]
  constructor
  · rintro ⟨key, i, hKey, a, hMem, rfl, rfl⟩
    exact ⟨key, hKey, hMem⟩
  · rintro ⟨key, hKey, hMem⟩
    exact ⟨key, index, hKey, item, hMem, rfl, rfl⟩

/- A bucket of the hash table holds the equal items. -/
theorem mem_bucket_iff
    (entries : List (Item × Nat))
    (item : Item)
    (index : Nat) :
    index ∈ bucket (hashTable entries) item ↔
      ∃ other, (other, index) ∈ entries ∧
        item.satisfies .eq other = true := by
  simp only [Item.satisfies_eq_iff]
  unfold bucket
  cases hKey : item.key? with
  | none => simp
  | some key =>
      simp only [hashTable, Buckets.lookup_ofList,
        List.mem_map, List.mem_filter, List.mem_filterMap,
        Option.map_eq_some_iff, Prod.exists, beq_iff_eq]
      constructor
      · rintro ⟨k, i, ⟨⟨other, j, hMem, k', hOther, hEq⟩,
          rfl⟩, rfl⟩
        cases hEq
        exact ⟨other, hMem, k, rfl, hOther⟩
      · rintro ⟨other, hMem, k, hEq, hOther⟩
        cases hEq
        exact ⟨key, index,
          ⟨⟨other, index, hMem, key, hOther, rfl⟩, rfl⟩,
          rfl⟩

/- The sorted entries are searched for related items. -/
theorem mem_related_iff
    (entries : List (Item × Nat))
    {relation : Relation}
    (hRelation : relation ≠ .ne)
    (item : Item)
    (index : Nat) :
    index ∈ related (sortedEntries entries) relation item ↔
      ∃ other, (other, index) ∈ entries ∧
        item.satisfies relation other = true := by
  unfold related
  simp only [Item.satisfies_eq]
  cases hNaN : item.isNaN with
  | true => simp [hRelation]
  | false =>
      simp only [Bool.false_eq_true, if_false,
        sortedEntries, List.mem_map, List.mem_filter,
        List.mem_mergeSort, Prod.exists, Bool.and_eq_true,
        Bool.false_or]
      constructor
      · rintro ⟨other, i, ⟨⟨hMem, hOther⟩, hSide, hHolds⟩,
          rfl⟩
        refine ⟨other, hMem, ?_, ?_⟩
        · simpa [Item.comparable, eq_comm] using hSide
        · simp only [Bool.not_eq_true'] at hOther
          simp [hOther, hHolds]
      · rintro ⟨other, hMem, hSide, hHolds⟩
        cases hOther : other.isNaN with
        | true => simp [hOther, hRelation] at hHolds
        | false =>
            refine ⟨other, index, ⟨⟨hMem, ?_⟩, ?_, ?_⟩, rfl⟩
            · simp [hOther]
            · simpa [Item.comparable, eq_comm] using hSide
            · simpa [hOther] using hHolds

/- Some pair of items of two keys is related. -/
theorem exists_satisfies_iff
    (keys : List Sequence)
    (relation : Relation)
    (key : Sequence)
    (index : Nat) :
    (∃ item ∈ key, ∃ other,
        (other, index) ∈ keyItems keys ∧
          item.satisfies relation other = true) ↔
      ∃ right, keys[index]? = some right ∧
        key.generalCompare relation right = true := by
  simp only [mem_keyItems_iff, Sequence.generalCompare,
    List.any_eq_true]
  constructor
  · rintro ⟨item, hItem, other, ⟨right, hRight, hOther⟩,
      hSatisfies⟩
    exact ⟨right, hRight, item, hItem, other, hOther,
      hSatisfies⟩
  · rintro ⟨right, hRight, item, hItem, other, hOther,
      hSatisfies⟩
    exact ⟨item, hItem, other, ⟨right, hRight, hOther⟩,
      hSatisfies⟩

/- The look-up structures name exactly the matching rows. -/
theorem mem_candidates_iff
    {relation : Relation}
    {strategy : JoinStrategy}
    (hStrategy :
      (strategy = .hash ∧ relation = .eq) ∨
        (strategy = .sortMerge ∧ relation ≠ .ne))
    (keys : List Sequence)
    (key : Sequence) :
    ∃ found,
      (build strategy keys).candidates (.general relation)
          key = .ok found ∧
        ∀ index, index ∈ found ↔
          ∃ right, keys[index]? = some right ∧
            key.generalCompare relation right = true := by
  rcases hStrategy with ⟨rfl, rfl⟩ | ⟨rfl, hRelation⟩
  · refine ⟨_, rfl, fun index => ?_⟩
    rw [List.mem_flatMap, ← exists_satisfies_iff]
    simp only [mem_bucket_iff]
  · refine ⟨_, rfl, fun index => ?_⟩
    rw [List.mem_flatMap, ← exists_satisfies_iff]
    simp only [Comparison.relation,
      mem_related_iff _ hRelation]

end Probe

end Flwor

------------------------------------------------------------
-- Arrangement
------------------------------------------------------------

namespace Flwor

namespace Probe

theorem eraseRepsBy_loop_eq
    (a : Nat)
    (rest kept : List Nat) :
    List.eraseRepsBy.loop (fun x y => x == y) a rest kept =
      kept.reverse
        ++ List.eraseRepsBy.loop (fun x y => x == y) a rest
          [] := by
  induction rest generalizing a kept with
  | nil => simp [List.eraseRepsBy.loop]
  | cons b more ih =>
      simp only [List.eraseRepsBy.loop]
      cases a == b with
      | true => exact ih a kept
      | false =>
          simp only
          rw [ih b (a :: kept), ih b [a]]
          simp

/- Erasing the repetitions of a sorted list. -/
theorem eraseReps_cons
    (a b : Nat)
    (rest : List Nat) :
    (a :: b :: rest).eraseReps =
      if a = b then (a :: rest).eraseReps
      else a :: (b :: rest).eraseReps := by
  unfold List.eraseReps List.eraseRepsBy
  simp only [List.eraseRepsBy.loop]
  by_cases hEq : a = b
  · simp [hEq]
  · simp only [hEq, beq_eq_false_iff_ne.mpr hEq, if_false]
    rw [eraseRepsBy_loop_eq]
    rfl

theorem mem_eraseReps_iff
    (rows : List Nat)
    (index : Nat) :
    index ∈ rows.eraseReps ↔ index ∈ rows := by
  match rows with
  | [] => rfl
  | [a] => rfl
  | a :: b :: rest =>
      rw [eraseReps_cons]
      by_cases hEq : a = b
      · subst hEq
        simp [mem_eraseReps_iff (a :: rest)]
      · simp [hEq, mem_eraseReps_iff (b :: rest)]

/- Sorted without repetitions is strictly increasing. -/
theorem pairwise_eraseReps
    (rows : List Nat)
    (hSorted : rows.Pairwise (fun a b => a ≤ b)) :
    rows.eraseReps.Pairwise (fun a b => a < b) := by
  match rows with
  | [] => exact List.Pairwise.nil
  | [a] => exact List.pairwise_singleton _ a
  | a :: b :: rest =>
      rw [List.pairwise_cons] at hSorted
      have hRest := pairwise_eraseReps (b :: rest) hSorted.2
      rw [eraseReps_cons]
      by_cases hEq : a = b
      · subst hEq
        simpa using hRest
      · rw [if_neg hEq, List.pairwise_cons]
        refine ⟨fun index hMem => ?_, hRest⟩
        rw [mem_eraseReps_iff, List.mem_cons] at hMem
        have hAB := hSorted.1 b (by simp)
        have hBIndex : b ≤ index := by
          rcases hMem with rfl | hMem
          · exact le_rfl
          · exact (List.pairwise_cons.mp hSorted.2).1
              index hMem
        omega

/- Sorting rows by index. -/
theorem pairwise_sorted
    (found : List Nat) :
    (found.mergeSort (fun a b => a ≤ b)).Pairwise
      (fun a b => a ≤ b) := by
  let le (a b : Nat) : Bool := decide (a ≤ b)
  have hTrans (a b c : Nat) :
      le a b = true → le b c = true → le a c = true := by
    simp only [le, decide_eq_true_eq]
    omega
  have hTotal (a b : Nat) : (le a b || le b a) = true := by
    simp only [le, Bool.or_eq_true, decide_eq_true_eq]
    omega
  simpa [le] using
    List.pairwise_mergeSort hTrans hTotal found

/- Rows by index, whatever the structure named them. -/
theorem arrange_eq
    {found rows : List Nat}
    (hRows : rows.Pairwise (fun a b => a < b))
    (hMem : ∀ index, index ∈ found ↔ index ∈ rows) :
    arrange false found = rows := by
  refine (pairwise_eraseReps _
    (pairwise_sorted found)).eq_of_mem_iff hRows
      (fun index => ?_)
  rw [mem_eraseReps_iff, List.mem_mergeSort, hMem]

end Probe

end Flwor

------------------------------------------------------------
-- Matching Rows
------------------------------------------------------------

namespace Flwor

namespace Probe

/- A scan names rows with their own index, in order. -/
theorem scan_sublist
    {comparison : Comparison}
    {key : Sequence}
    {entries : List (Sequence × Nat)}
    {found : List Nat}
    (hScan : scan comparison key entries = .ok found) :
    found.Sublist (entries.map Prod.snd) := by
  induction entries generalizing found with
  | nil =>
      cases hScan
      exact List.Sublist.slnil
  | cons entry rest ih =>
      rcases entry with ⟨right, index⟩
      rw [scan] at hScan
      cases hApply : comparison.apply key right with
      | error e =>
          rw [hApply] at hScan
          cases hScan
      | ok answer =>
          cases hMore : scan comparison key rest with
          | error e =>
              rw [hApply, hMore] at hScan
              cases hScan
          | ok more =>
              rw [hApply, hMore] at hScan
              have hSub := ih hMore
              cases hScan
              by_cases hTrue : answer = some true
              · simpa [hTrue] using hSub.cons_cons index
              · simpa [hTrue] using hSub.cons index

/- A general comparison is tried without an error. -/
theorem scan_general
    (relation : Relation)
    (key : Sequence)
    (entries : List (Sequence × Nat)) :
    scan (.general relation) key entries =
      .ok ((entries.filter (fun e =>
        key.generalCompare relation e.1)).map Prod.snd) := by
  induction entries with
  | nil => rfl
  | cons entry rest ih =>
      rcases entry with ⟨right, index⟩
      rw [scan, ih]
      cases hHolds : key.generalCompare relation right with
      | true => simp [Comparison.apply, hHolds]; rfl
      | false => simp [Comparison.apply, hHolds]; rfl

theorem pairwise_indices
    (keys : List Sequence) :
    (keys.zipIdx.map Prod.snd).Pairwise
      (fun a b => a < b) := by
  rw [List.zipIdx_map_snd]
  exact List.pairwise_lt_range'

/-
  The matching rows are those a scan finds, whatever the
  strategy.
-/
theorem matching_build
    (comparison : Comparison)
    (keys : List Sequence)
    (key : Sequence) :
    (build (JoinStrategy.ofComparison comparison)
        keys).matching comparison false key =
      scan comparison key keys.zipIdx := by
  have hScanned :
      (scanned keys).matching comparison false key =
        scan comparison key keys.zipIdx := by
    rw [matching, candidates]
    cases hScan : scan comparison key keys.zipIdx with
    | error e => rfl
    | ok found =>
        have hFound :=
          (pairwise_indices keys).sublist
            (scan_sublist hScan)
        exact congrArg Except.ok
          (arrange_eq hFound (fun _ => Iff.rfl))
  have hProbed
      (relation : Relation)
      (strategy : JoinStrategy)
      (hStrategy :
        (strategy = .hash ∧ relation = .eq) ∨
          (strategy = .sortMerge ∧ relation ≠ .ne)) :
      (build strategy keys).matching (.general relation)
          false key =
        scan (.general relation) key keys.zipIdx := by
    have hScan := scan_general relation key keys.zipIdx
    rcases mem_candidates_iff hStrategy keys key with
      ⟨found, hFound, hMem⟩
    rw [matching, hFound, hScan]
    refine congrArg Except.ok (arrange_eq
      ((pairwise_indices keys).sublist
        (scan_sublist hScan)) (fun index => ?_))
    simp [hMem, List.mem_zipIdx_iff_getElem?]
  cases comparison with
  | value relation => exact hScanned
  | general relation =>
      cases relation with
      | eq => exact hProbed .eq .hash (by simp)
      | ne => exact hScanned
      | lt => exact hProbed .lt .sortMerge (by simp)
      | le => exact hProbed .le .sortMerge (by simp)
      | gt => exact hProbed .gt .sortMerge (by simp)
      | ge => exact hProbed .ge .sortMerge (by simp)

end Probe

end Flwor

------------------------------------------------------------
-- Joined Rows
------------------------------------------------------------

namespace Flwor

namespace Comparison

theorem matched?_cons
    {α : Type}
    (comparison : Comparison)
    (key : Sequence)
    (entry : Sequence × α)
    (rest : List (Sequence × α)) :
    comparison.matched? key (entry :: rest) =
      (comparison.matches? key entry.1).bind (fun holds =>
        (comparison.matched? key rest).map (fun more =>
          if holds then entry.2 :: more else more)) := by
  simp only [matched?, List.mapM_cons]
  cases comparison.matches? key entry.1 with
  | none => rfl
  | some holds =>
      cases rest.mapM (fun entry =>
          (comparison.matches? key entry.1).map
            (fun holds =>
              if holds then [entry.2] else [])) with
      | none => rfl
      | some more => cases holds <;> rfl

end Comparison

namespace Probe

/- The rows found by index are those of the entries. -/
theorem scan_rows
    {α : Type}
    (comparison : Comparison)
    (key : Sequence)
    (all : Array α)
    (start : Nat)
    (keys : List Sequence)
    (rights : List α)
    (hLength : keys.length = rights.length)
    (hRights : ∀ i, all[start + i]? = rights[i]?) :
    (scan comparison key
        (keys.zipIdx start)).toOption.map (fun rows =>
          rows.filterMap (fun i => all[i]?)) =
      comparison.matched? key (keys.zip rights) := by
  induction keys generalizing start rights with
  | nil => rfl
  | cons right rest ih =>
      cases rights with
      | nil => simp at hLength
      | cons row rows =>
          have hRow : all[start]? = some row := by
            simpa using hRights 0
          have hRest (i : Nat) :
              all[start + 1 + i]? = rows[i]? := by
            simpa [Nat.add_assoc, Nat.add_comm 1 i] using
              hRights (i + 1)
          have hMore :=
            ih (start + 1) rows (by simpa using hLength) hRest
          rw [List.zip_cons_cons,
            Comparison.matched?_cons, ← hMore,
            List.zipIdx_cons, scan, Comparison.matches?]
          cases comparison.apply key right with
          | error e => rfl
          | ok answer =>
              cases scan comparison key
                  (rest.zipIdx (start + 1)) with
              | error e => rfl
              | ok found =>
                  change
                    some ((if answer = some true
                      then start :: found
                      else found).filterMap
                        (fun i => all[i]?)) = _
                  by_cases hTrue : answer = some true
                  · simp [hTrue, hRow, Except.toOption]
                  · simp [hTrue, Except.toOption]

theorem mem_arrange_iff
    (skipSort : Bool)
    (found : List Nat)
    (index : Nat) :
    index ∈ arrange skipSort found ↔ index ∈ found := by
  cases skipSort with
  | false =>
      simp only [arrange, Bool.false_eq_true, if_false]
      rw [mem_eraseReps_iff, List.mem_mergeSort]
  | true =>
      simp only [arrange, if_true, Buckets.firsts_eq,
        List.map_map, List.map_filterMap, List.mem_filterMap,
        List.mem_eraseDups, Option.map_eq_some_iff]
      constructor
      · rintro ⟨key, hKey, e, hFind, rfl⟩
        have hMem := List.mem_of_find?_eq_some hFind
        rcases List.mem_map.mp hMem with ⟨i, hI, rfl⟩
        exact hI
      · intro hMem
        have hSome :
            ((found.map (fun i => (i, ()))).find? (fun e =>
              e.1 == index)).isSome := by
          simpa using hMem
        rcases Option.isSome_iff_exists.mp hSome with
          ⟨e, hFind⟩
        have hEq := List.find?_some hFind
        refine ⟨index, by simpa using hMem, e, hFind, ?_⟩
        simpa using hEq

/- Only right rows are found. -/
theorem lt_length_of_mem_matching
    {comparison : Comparison}
    {skipSort : Bool}
    {keys : List Sequence}
    {key : Sequence}
    {rows : List Nat}
    (hMatching :
      (build (JoinStrategy.ofComparison comparison)
        keys).matching comparison skipSort key = .ok rows)
    {index : Nat}
    (hMem : index ∈ rows) :
    index < keys.length := by
  have hUnsorted :
      (build (JoinStrategy.ofComparison comparison)
        keys).matching comparison false key =
          scan comparison key keys.zipIdx :=
    matching_build comparison keys key
  rw [matching] at hMatching hUnsorted
  cases hFound :
      (build (JoinStrategy.ofComparison comparison)
        keys).candidates comparison key with
  | error e =>
      rw [hFound] at hMatching
      cases hMatching
  | ok found =>
      rw [hFound] at hMatching hUnsorted
      cases hMatching
      rw [mem_arrange_iff, ← mem_arrange_iff false] at hMem
      have hIndex :=
        (scan_sublist hUnsorted.symm).subset hMem
      rw [List.zipIdx_map_snd, List.mem_range'] at hIndex
      omega

/- What a join finds by index are the entries it pairs. -/
theorem matching_rows
    {α : Type}
    (comparison : Comparison)
    (skipSort : Bool)
    (keys : List Sequence)
    (rights : List α)
    (hLength : keys.length = rights.length)
    (key : Sequence) :
    ((build (JoinStrategy.ofComparison comparison)
        keys).matching comparison skipSort
          key).toOption.map (fun rows =>
            rows.filterMap (fun i =>
              rights.toArray[i]?)) =
      comparison.found? skipSort key (keys.zip rights) := by
  cases skipSort with
  | false =>
      simp only [Comparison.found?, Bool.false_eq_true,
        if_false]
      rw [matching_build]
      exact scan_rows comparison key rights.toArray 0 keys
        rights hLength (by simp)
  | true =>
      simp only [Comparison.found?, if_true,
        List.map_fst_zip hLength.le,
        List.map_snd_zip hLength.ge]
      simp

/-
  The rows that a left row is joined to: those with a right
  row of a matching key, or padded.
-/
theorem joinRow_build
    (comparison : Comparison)
    (leftJoin skipSort : Bool)
    (rightWidth : Nat)
    (keys : List Sequence)
    (rights : List (List Sequence))
    (hLength : keys.length = rights.length)
    (left : Row)
    (key : Sequence) :
    ((build (JoinStrategy.ofComparison comparison)
        keys).joinRow comparison leftJoin skipSort rightWidth
          rights.toArray left key).toOption =
      (comparison.found? skipSort key
        (keys.zip rights)).map (fun found =>
          if found.isEmpty && leftJoin then
            [left ++ List.replicate rightWidth []]
          else found.map (fun right => left ++ right)) := by
  rw [joinRow, ← matching_rows comparison skipSort keys
    rights hLength key]
  cases hRows : (build (JoinStrategy.ofComparison comparison)
      keys).matching comparison skipSort key with
  | error e => rfl
  | ok rows =>
      have hEmpty :
          (rows.filterMap (fun i =>
            rights.toArray[i]?)).isEmpty = rows.isEmpty := by
        cases rows with
        | nil => rfl
        | cons i rest =>
            have hIndex : i < rights.length := by
              have hMem : i ∈ i :: rest := by simp
              have hKey := lt_length_of_mem_matching hRows hMem
              omega
            simp [hIndex]
      simp only [Except.toOption, Option.map_some, hEmpty]
      by_cases hPadded : (rows.isEmpty && leftJoin) = true
      · simp [bind, Except.bind, hPadded, pure, Except.pure]
      · simp [bind, Except.bind, hPadded, pure, Except.pure,
          List.map_filterMap]

end Probe

end Flwor
