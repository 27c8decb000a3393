import Flwor.Proofs.Items.Places
import Flwor.Proofs.NestedLoops

/-
  Sorting is stable, in the order of the places of the keys.

  The keys of a row put it at a list of places, where a key
  without an item lies lowest.  Lists of places are ordered
  by the first key that tells them apart, in its direction.
  One arrangement of the rows is in this order and keeps the
  order of rows at the same places.

  Key definitions include:
    * `SortKey.place?`, `SortKey.places?`
    * `Earlier`
    * `Arranged`

  Key theorems include:
    * `compareKeys_eq_lt_iff`
    * `compareKeys_trans`
    * `Arranged.unique`
    * `Operator.rows?_orderBy_arranged`
-/

------------------------------------------------------------
-- Stable Sorting
------------------------------------------------------------

namespace Flwor

variable {α κ : Type}

/- Sorting keeps the order of what is tied in it. -/
theorem filter_mergeSort
    {le : α → α → Bool}
    (hTrans : ∀ a b c, le a b = true → le b c = true →
      le a c = true)
    (hTotal : ∀ a b, (le a b || le b a) = true)
    {tied : α → Bool}
    (hTied : ∀ a b, tied a = true → tied b = true →
      le a b = true)
    (items : List α) :
    (items.mergeSort le).filter tied = items.filter tied := by
  have hClass :
      (items.filter tied).Pairwise
        (fun a b => le a b = true) := by
    refine List.pairwise_iff_forall_sublist.mpr ?_
    intro a b hSub
    have hA := hSub.subset (List.mem_cons_self)
    have hB := hSub.subset
      (List.mem_cons_of_mem a List.mem_cons_self)
    exact hTied a b (List.mem_filter.mp hA).2
      (List.mem_filter.mp hB).2
  have hSub :
      ((items.filter tied).filter tied).Sublist
        ((items.mergeSort le).filter tied) :=
    (List.sublist_mergeSort hTrans hTotal hClass
      List.filter_sublist).filter tied
  simp only [List.filter_filter, Bool.and_self] at hSub
  exact (hSub.eq_of_length
    ((List.mergeSort_perm items le).filter
      tied).length_eq.symm).symm

/- What the classes of one list hold is in the other. -/
theorem mem_of_filter_eq
    [DecidableEq κ]
    {key : α → κ}
    {items others : List α}
    (hFilter : ∀ k,
      items.filter (fun a => decide (key a = k)) =
        others.filter (fun a => decide (key a = k)))
    {a : α}
    (hMem : a ∈ items) :
    a ∈ others := by
  have hClass :
      a ∈ items.filter (fun b => decide (key b = key a)) :=
    List.mem_filter.mpr ⟨hMem, decide_eq_true rfl⟩
  rw [hFilter] at hClass
  exact (List.mem_filter.mp hClass).1

/-
  Two lists are equal if both are in order and the items with
  the same key are the same in both.
-/
theorem eq_of_filter_eq
    [DecidableEq κ]
    {key : α → κ}
    {R : α → α → Prop}
    (hAnti : ∀ a b, R a b → R b a → key a = key b)
    {items others : List α}
    (hItems : items.Pairwise R)
    (hOthers : others.Pairwise R)
    (hFilter : ∀ k,
      items.filter (fun a => decide (key a = k)) =
        others.filter (fun a => decide (key a = k))) :
    items = others := by
  have hBack k := (hFilter k).symm
  induction items generalizing others with
  | nil =>
      cases others with
      | nil => rfl
      | cons b more =>
          cases mem_of_filter_eq hBack List.mem_cons_self
  | cons a rest ih =>
      cases others with
      | nil =>
          cases mem_of_filter_eq hFilter List.mem_cons_self
      | cons b more =>
          have hA := mem_of_filter_eq hFilter
            (List.mem_cons_self (a := a) (l := rest))
          have hB := mem_of_filter_eq hBack
            (List.mem_cons_self (a := b) (l := more))
          rw [List.pairwise_cons] at hItems hOthers
          -- The heads are tied, so their class begins alike.
          have hKey : key b = key a := by
            rcases List.mem_cons.mp hA with rfl | hA
            · rfl
            · rcases List.mem_cons.mp hB with rfl | hB
              · rfl
              · exact hAnti b a (hOthers.1 a hA)
                  (hItems.1 b hB)
          have hHead := hFilter (key a)
          rw [List.filter_cons_of_pos (by simp),
            List.filter_cons_of_pos (by simp [hKey])]
            at hHead
          rcases List.cons.inj hHead with ⟨rfl, -⟩
          have hTails k :
              rest.filter (fun b => decide (key b = k)) =
                more.filter (fun b => decide (key b = k)) := by
            have hBoth := hFilter k
            rw [List.filter_cons, List.filter_cons] at hBoth
            split at hBoth
            · exact (List.cons.inj hBoth).2
            · exact hBoth
          rw [ih hItems.2 hOthers.2 hTails
            (fun k => (hTails k).symm)]

end Flwor

------------------------------------------------------------
-- Places of Rows
------------------------------------------------------------

namespace Flwor

/- The place of a key, lowest if there is no item. -/
def keyPlace
    (item : Option Item) : WithBot Item.Place :=
  item.map Item.place

namespace SortKey

/- The expression of a sort key. -/
def expr : SortKey → Expr
  | .mk e _ => e

/- Where a key puts a row, if it has at most one item. -/
def place?
    (key : SortKey)
    (row : Row) : Option (WithBot Item.Place) :=
  (key.expr.eval row).value?.bind (fun value =>
    match value with
    | [] => some ⊥
    | [item] => some item.place
    | _ => none)

/- Where the keys put a row. -/
def places?
    (keys : List SortKey)
    (row : Row) : Option (List (WithBot Item.Place)) :=
  keys.mapM (fun key => key.place? row)

/- A key has no place if it fails or has many items. -/
theorem place?_eq_none_iff
    {key : SortKey}
    {row : Row} :
    key.place? row = none ↔
      (key.expr.eval row).value? = none ∨
        ∃ value, (key.expr.eval row).value? = some value ∧
          1 < value.length := by
  unfold place?
  cases (key.expr.eval row).value? with
  | none => simp
  | some value =>
      rcases value with _ | ⟨a, _ | ⟨b, rest⟩⟩ <;> simp

/- The values that are sorted by have these places. -/
theorem places?_eq
    (keys : List SortKey)
    (row : Row) :
    places? keys row =
      (Operator.sortKeys? keys row).map
        (List.map keyPlace) := by
  induction keys with
  | nil =>
      rw [Operator.sortKeys?, SortKey.evalAll]
      rfl
  | cons key rest ih =>
      rcases key with ⟨e, order⟩
      have hPlace :
          (SortKey.mk e order).place? row =
            ((e.eval row).value?.bind
              Sequence.atMostOne?).map keyPlace := by
        unfold place?
        change (e.eval row).value?.bind _ = _
        rw [Option.map_bind]
        congr 1
        funext value
        rcases value with _ | ⟨a, _ | ⟨b, more⟩⟩ <;> rfl
      have hValues :
          Operator.sortKeys? (.mk e order :: rest) row =
            ((e.eval row).value?.bind
              Sequence.atMostOne?).bind (fun item =>
                (Operator.sortKeys? rest row).bind
                  (fun items => some (item :: items))) := by
        rw [Operator.sortKeys?, SortKey.evalAll]
        simp only [Answer.value?_bind, value?_atMostOne,
          Answer.value?_pure, Option.bind_assoc]
        rfl
      rw [places?] at ih
      rw [places?, List.mapM_cons, ih, hPlace, hValues]
      cases (e.eval row).value?.bind Sequence.atMostOne? with
      | none => rfl
      | some item =>
          cases Operator.sortKeys? rest row <;> rfl

end SortKey

end Flwor

------------------------------------------------------------
-- The Order of Places
------------------------------------------------------------

namespace Flwor

namespace SortOrder

/- Whether a place lies before another in a direction. -/
def Before :
    SortOrder → WithBot Item.Place →
      WithBot Item.Place → Prop
  | .ascending, p, q => p < q
  | .descending, p, q => q < p

theorem Before.trans
    {order : SortOrder}
    {p q r : WithBot Item.Place}
    (hFirst : order.Before p q)
    (hSecond : order.Before q r) :
    order.Before p r := by
  cases order with
  | ascending => exact lt_trans hFirst hSecond
  | descending => exact lt_trans hSecond hFirst

theorem Before.ne
    {order : SortOrder}
    {p q : WithBot Item.Place}
    (hBefore : order.Before p q) :
    p ≠ q := by
  cases order with
  | ascending => exact ne_of_lt hBefore
  | descending => exact ne_of_gt hBefore

end SortOrder

/-
  One list of places lies before another: up to a key they
  are the same, and this key puts the first one before.
-/
inductive Earlier :
    List SortOrder → List (WithBot Item.Place) →
      List (WithBot Item.Place) → Prop where
  | here
      {order orders p q ps qs}
      (hBefore : order.Before p q) :
      Earlier (order :: orders) (p :: ps) (q :: qs)
  | there
      {order orders p ps qs}
      (hRest : Earlier orders ps qs) :
      Earlier (order :: orders) (p :: ps) (p :: qs)

theorem Earlier.trans
    {orders : List SortOrder}
    {ps qs rs : List (WithBot Item.Place)}
    (hFirst : Earlier orders ps qs)
    (hSecond : Earlier orders qs rs) :
    Earlier orders ps rs := by
  induction hFirst generalizing rs with
  | here hBefore =>
      cases hSecond with
      | here hNext => exact .here (hBefore.trans hNext)
      | there _ => exact .here hBefore
  | there _ ih =>
      cases hSecond with
      | here hNext => exact .here hNext
      | there hRest => exact .there (ih hRest)

theorem Earlier.ne
    {orders : List SortOrder}
    {ps qs : List (WithBot Item.Place)}
    (hEarlier : Earlier orders ps qs) :
    ps ≠ qs := by
  induction hEarlier with
  | here hBefore =>
      exact fun hEq => hBefore.ne (List.cons.inj hEq).1
  | there _ ih =>
      exact fun hEq => ih (List.cons.inj hEq).2

end Flwor

------------------------------------------------------------
-- The Comparison of Keys
------------------------------------------------------------

namespace Flwor

variable {orders : List SortOrder}
variable {as bs cs : List (Option Item)}

/- Keys compare as their places. -/
theorem compareKey_eq_cmp
    (a b : Option Item) :
    compareKey a b = cmp (keyPlace a) (keyPlace b) := by
  cases a with
  | none =>
      cases b with
      | none => exact (cmp_self_eq_eq _).symm
      | some b =>
          exact ((cmp_eq_lt_iff _ _).mpr
            (WithBot.bot_lt_coe b.place)).symm
  | some a =>
      cases b with
      | none =>
          exact ((cmp_eq_gt_iff _ _).mpr
            (WithBot.bot_lt_coe a.place)).symm
      | some b =>
          exact (a.sortCompare_eq_cmp b).trans
            (WithBot.coe_strictMono.cmp_map_eq
              a.place b.place).symm

theorem compareKey_swap
    (order : SortOrder)
    (a b : Option Item) :
    (order.apply (compareKey a b)).swap =
      order.apply (compareKey b a) := by
  rw [compareKey_eq_cmp, compareKey_eq_cmp,
    ← cmp_swap (keyPlace a) (keyPlace b)]
  cases order <;> rfl

theorem apply_compareKey_eq_lt_iff
    (order : SortOrder)
    (a b : Option Item) :
    order.apply (compareKey a b) = .lt ↔
      order.Before (keyPlace a) (keyPlace b) := by
  rw [compareKey_eq_cmp]
  cases order with
  | ascending => exact cmp_eq_lt_iff _ _
  | descending =>
      rw [SortOrder.apply, cmp_swap]
      exact cmp_eq_lt_iff _ _

theorem apply_compareKey_eq_eq_iff
    (order : SortOrder)
    (a b : Option Item) :
    order.apply (compareKey a b) = .eq ↔
      keyPlace a = keyPlace b := by
  rw [compareKey_eq_cmp]
  cases order with
  | ascending => exact cmp_eq_eq_iff _ _
  | descending =>
      rw [SortOrder.apply, cmp_swap, eq_comm (a := keyPlace a)]
      exact cmp_eq_eq_iff _ _

theorem compareKeys_swap
    (orders : List SortOrder)
    (as bs : List (Option Item)) :
    (compareKeys orders as bs).swap =
      compareKeys orders bs as := by
  fun_induction compareKeys orders as bs with
  | case1 order orders a as b bs ih =>
      rw [Ordering.swap_then, ih, compareKey_swap]
      rfl
  | case2 orders as bs hApart =>
      rw [compareKeys]
      · rfl
      · intro order orders b bs a as hO hB hA
        exact hApart order orders a as b bs hO hA hB

/- Lists of keys compare as their places lie. -/
theorem compareKeys_eq_lt_iff :
    compareKeys orders as bs = .lt ↔
      Earlier orders (as.map keyPlace)
        (bs.map keyPlace) := by
  fun_induction compareKeys orders as bs with
  | case1 order orders a as b bs ih =>
      rw [Ordering.then_eq_lt, apply_compareKey_eq_lt_iff,
        apply_compareKey_eq_eq_iff, ih, List.map_cons,
        List.map_cons]
      constructor
      · rintro (hBefore | ⟨hSame, hRest⟩)
        · exact .here hBefore
        · rw [hSame]
          exact .there hRest
      · generalize keyPlace a = p
        generalize keyPlace b = q
        intro hEarlier
        cases hEarlier with
        | here hBefore => exact .inl hBefore
        | there hRest => exact .inr ⟨rfl, hRest⟩
  | case2 orders as bs hApart =>
      constructor
      · intro hEq
        cases hEq
      · intro hEarlier
        cases as with
        | nil => cases hEarlier
        | cons a as =>
            cases bs with
            | nil => cases hEarlier
            | cons b bs =>
                cases orders with
                | nil => cases hEarlier
                | cons order orders =>
                    exact (hApart order orders a as b bs
                      rfl rfl rfl).elim

/- With a key for each spec, ties are at the same places. -/
theorem compareKeys_eq_eq_iff
    (hLeft : as.length = orders.length)
    (hRight : bs.length = orders.length) :
    compareKeys orders as bs = .eq ↔
      as.map keyPlace = bs.map keyPlace := by
  induction orders generalizing as bs with
  | nil =>
      rw [List.eq_nil_of_length_eq_zero hLeft,
        List.eq_nil_of_length_eq_zero hRight]
      exact iff_of_true rfl rfl
  | cons order orders ih =>
      rcases List.exists_cons_of_length_eq_add_one hLeft with
        ⟨a, as, rfl⟩
      rcases List.exists_cons_of_length_eq_add_one hRight with
        ⟨b, bs, rfl⟩
      rw [compareKeys, Ordering.then_eq_eq,
        apply_compareKey_eq_eq_iff,
        ih (Nat.succ.inj hLeft) (Nat.succ.inj hRight),
        List.map_cons, List.map_cons, List.cons.injEq]

/- A list of keys is tied with or before another one. -/
theorem compareKeys_ne_gt_iff
    (hLeft : as.length = orders.length)
    (hRight : bs.length = orders.length) :
    compareKeys orders as bs ≠ .gt ↔
      as.map keyPlace = bs.map keyPlace ∨
        Earlier orders (as.map keyPlace)
          (bs.map keyPlace) := by
  rw [← compareKeys_eq_eq_iff hLeft hRight,
    ← compareKeys_eq_lt_iff]
  cases compareKeys orders as bs <;> decide

theorem compareKeys_self
    (hLength : as.length = orders.length) :
    compareKeys orders as as = .eq :=
  (compareKeys_eq_eq_iff hLength hLength).mpr rfl

theorem compareKeys_trans
    (hFirst : as.length = orders.length)
    (hSecond : bs.length = orders.length)
    (hThird : cs.length = orders.length)
    (hLeft : compareKeys orders as bs ≠ .gt)
    (hRight : compareKeys orders bs cs ≠ .gt) :
    compareKeys orders as cs ≠ .gt := by
  rw [compareKeys_ne_gt_iff hFirst hSecond] at hLeft
  rw [compareKeys_ne_gt_iff hSecond hThird] at hRight
  rw [compareKeys_ne_gt_iff hFirst hThird]
  rcases hLeft with hSame | hLeft
  · rw [hSame]
    exact hRight
  · rcases hRight with hSame | hRight
    · rw [← hSame]
      exact .inr hLeft
    · exact .inr (hLeft.trans hRight)

end Flwor

------------------------------------------------------------
-- Arrangements
------------------------------------------------------------

namespace Flwor

/- The keys put a row at the same places or before another. -/
def SortKey.InOrder
    (keys : List SortKey)
    (row other : Row) : Prop :=
  ∃ ps qs, places? keys row = some ps ∧
    places? keys other = some qs ∧
      (ps = qs ∨ Earlier (keys.map order) ps qs)

/- Two rows in order both ways are at the same places. -/
theorem SortKey.InOrder.antisymm
    {keys : List SortKey}
    {row other : Row}
    (hThere : InOrder keys row other)
    (hBack : InOrder keys other row) :
    places? keys row = places? keys other := by
  rcases hThere with ⟨ps, qs, hRow, hOther, hThere⟩
  rcases hBack with ⟨qs', ps', hOther', hRow', hBack⟩
  rw [hOther] at hOther'
  rw [hRow] at hRow'
  cases hOther'
  cases hRow'
  rw [hRow, hOther]
  rcases hThere with rfl | hThere
  · rfl
  · rcases hBack with rfl | hBack
    · rfl
    · exact ((hThere.trans hBack).ne rfl).elim

instance : DecidableEq (WithBot Item.Place) :=
  inferInstance

/-
  Rows arranged by their keys: all of them, in order, and
  those at the same places in the order they had.
-/
structure Arranged
    (keys : List SortKey)
    (rows arranged : List Row) : Prop where
  perm : arranged.Perm rows
  inOrder : arranged.Pairwise (SortKey.InOrder keys)
  stable : ∀ places,
    arranged.filter (fun row =>
        decide (SortKey.places? keys row = places)) =
      rows.filter (fun row =>
        decide (SortKey.places? keys row = places))

theorem Arranged.unique
    {keys : List SortKey}
    {rows arranged other : List Row}
    (hArranged : Arranged keys rows arranged)
    (hOther : Arranged keys rows other) :
    other = arranged :=
  eq_of_filter_eq
    (fun _ _ hThere hBack => hThere.antisymm hBack)
    hOther.inOrder hArranged.inOrder (fun places =>
      (hOther.stable places).trans
        (hArranged.stable places).symm)

/- A row with the values that its keys have on it. -/
structure Keyed
    (keys : List SortKey) where
  values : List (Option Item)
  row : Row
  keyed : Operator.sortKeys? keys row = some values

namespace Keyed

variable {keys : List SortKey}

/- The values and the row of an entry. -/
def pair
    (entry : Keyed keys) : List (Option Item) × Row :=
  (entry.values, entry.row)

theorem places?_row
    (entry : Keyed keys) :
    SortKey.places? keys entry.row =
      some (entry.values.map keyPlace) := by
  rw [SortKey.places?_eq, entry.keyed]
  rfl

theorem length_values
    (entry : Keyed keys) :
    entry.values.length =
      (keys.map SortKey.order).length := by
  have hPlaces := entry.places?_row
  rw [SortKey.places?] at hPlaces
  have hLength := length_of_mapM hPlaces
  rw [List.length_map] at hLength ⊢
  exact hLength

/- Whether an entry is sorted before another one. -/
def before
    (entry other : Keyed keys) : Bool :=
  compareKeys (keys.map SortKey.order) entry.values
    other.values != .gt

theorem before_iff
    {entry other : Keyed keys} :
    entry.before other = true ↔
      SortKey.InOrder keys entry.row other.row := by
  rw [before, bne_iff_ne, compareKeys_ne_gt_iff
    entry.length_values other.length_values]
  constructor
  · intro hOrder
    exact ⟨_, _, entry.places?_row, other.places?_row, hOrder⟩
  · rintro ⟨ps, qs, hEntry, hOther, hOrder⟩
    cases entry.places?_row.symm.trans hEntry
    cases other.places?_row.symm.trans hOther
    exact hOrder

theorem before_trans
    (a b c : Keyed keys)
    (hFirst : a.before b = true)
    (hSecond : b.before c = true) :
    a.before c = true :=
  bne_iff_ne.mpr
    (compareKeys_trans a.length_values b.length_values
      c.length_values (bne_iff_ne.mp hFirst)
      (bne_iff_ne.mp hSecond))

theorem before_total
    (a b : Keyed keys) :
    (a.before b || b.before a) = true := by
  rw [before, before, ← compareKeys_swap _ a.values]
  cases compareKeys (keys.map SortKey.order) a.values
    b.values <;> rfl

/- Sorting arranges the rows of the entries. -/
theorem arranged_mergeSort
    (entries : List (Keyed keys)) :
    Arranged keys (entries.map row)
      ((entries.mergeSort before).map row) where
  perm := (List.mergeSort_perm entries before).map row
  inOrder :=
    (List.pairwise_mergeSort before_trans before_total
      entries).map row (fun _ _ => before_iff.mp)
  stable := by
    intro places
    rw [List.filter_map, List.filter_map]
    congr 1
    refine filter_mergeSort before_trans before_total
      (fun a b hA hB => before_iff.mpr ?_) entries
    have hPlaces := (of_decide_eq_true hA).trans
      (of_decide_eq_true hB).symm
    refine ⟨_, _, a.places?_row, b.places?_row, .inl ?_⟩
    rw [a.places?_row, b.places?_row] at hPlaces
    exact Option.some.inj hPlaces

/- Rows whose keys all have values are made entries. -/
theorem exists_entries
    {rows : List Row}
    {keyed : List (List (Option Item) × Row)}
    (hKeyed : rows.mapM (fun row =>
      (Operator.sortKeys? keys row).map (fun values =>
        (values, row))) = some keyed) :
    ∃ entries : List (Keyed keys),
      entries.map pair = keyed ∧
        entries.map row = rows := by
  induction rows generalizing keyed with
  | nil =>
      cases hKeyed
      exact ⟨[], rfl, rfl⟩
  | cons row rest ih =>
      simp only [List.mapM_cons, Option.bind_eq_bind,
        Option.bind_eq_some_iff, Option.map_eq_some_iff]
        at hKeyed
      rcases hKeyed with
        ⟨_, ⟨values, hValues, rfl⟩, more, hMore, hEq⟩
      cases hEq
      rcases ih hMore with ⟨entries, rfl, rfl⟩
      exact ⟨⟨values, row, hValues⟩ :: entries, rfl, rfl⟩

/- The rows of entries are sorted with them. -/
theorem sortRows_entries
    (entries : List (Keyed keys)) :
    sortRows (keys.map SortKey.order)
        (entries.map pair) =
      (entries.mergeSort before).map row := by
  have hPairs :
      (entries.mergeSort before).map pair =
        (entries.map pair).mergeSort (fun a b =>
          compareKeys (keys.map SortKey.order) a.1 b.1
            != .gt) :=
    List.map_mergeSort (fun _ _ _ _ => rfl)
  rw [sortRows, ← hPairs, List.map_map]
  rfl

end Keyed

/- Rows fail to be sorted if a key has no place for one. -/
theorem Operator.rows?_orderBy_eq_none_iff
    {input : Operator}
    {keys : List SortKey}
    {context : Row}
    {rows : List Row}
    (hRows : input.rows? context = some rows) :
    rows? (.orderBy input keys) context = none ↔
      ∃ row ∈ rows, ∃ key ∈ keys,
        key.place? row = none := by
  rw [rows?_orderBy, hRows, Option.bind_some,
    Option.map_eq_none_iff, mapM_eq_none_iff]
  refine exists_congr (fun row => and_congr_right ?_)
  intro _
  rw [← mapM_eq_none_iff, Option.map_eq_none_iff]
  have hPlaces := SortKey.places?_eq keys row
  rw [SortKey.places?] at hPlaces
  rw [hPlaces, Option.map_eq_none_iff]

/-
  Sorting fails if the expression of some key fails or has
  several items on some row.  Otherwise it gives the one
  arrangement of the rows by their keys.  The comparison of
  keys is reflexive, total and transitive in any directions.
-/
theorem Operator.rows?_orderBy_arranged
    {input : Operator}
    {context : Row}
    {rows : List Row}
    (hRows : input.rows? context = some rows)
    (keys : List SortKey) :
    let sorted := rows? (.orderBy input keys) context
    let compare := compareKeys (keys.map SortKey.order)
    (sorted = none ↔
        ∃ row ∈ rows, ∃ key ∈ keys,
          (key.expr.eval row).value? = none ∨
            ∃ value, (key.expr.eval row).value? = some value ∧
              1 < value.length) ∧
      (∀ arranged, sorted = some arranged →
        Arranged keys rows arranged ∧
          ∀ other, Arranged keys rows other →
            other = arranged) ∧
      ∀ as bs cs : List (Option Item),
        as.length = keys.length → bs.length = keys.length →
          cs.length = keys.length →
            compare as as = .eq ∧
              (compare as bs ≠ .gt ∨ compare bs as ≠ .gt) ∧
              (compare as bs ≠ .gt → compare bs cs ≠ .gt →
                compare as cs ≠ .gt) := by
  intro sorted compare
  refine ⟨?_, ?_, ?_⟩
  · refine (rows?_orderBy_eq_none_iff hRows).trans ?_
    refine exists_congr (fun row => and_congr_right ?_)
    intro _
    refine exists_congr (fun key => and_congr_right ?_)
    intro _
    exact SortKey.place?_eq_none_iff
  · intro arranged hSorted
    have hKeyed : (rows.mapM (fun row =>
        (sortKeys? keys row).map (fun values =>
          (values, row)))).map
            (sortRows (keys.map SortKey.order)) =
        some arranged := by
      rw [← hSorted]
      exact ((rows?_orderBy input keys context).trans
        (by rw [hRows, Option.bind_some])).symm
    rcases Option.map_eq_some_iff.mp hKeyed with
      ⟨keyed, hMade, rfl⟩
    rcases Keyed.exists_entries hMade with
      ⟨entries, rfl, rfl⟩
    rw [Keyed.sortRows_entries]
    have hArranged := Keyed.arranged_mergeSort entries
    exact ⟨hArranged, fun other => hArranged.unique⟩
  · intro as bs cs hA hB hC
    rw [← List.length_map SortKey.order] at hA hB hC
    refine ⟨compareKeys_self hA, ?_,
      compareKeys_trans hA hB hC⟩
    change compareKeys _ as bs ≠ .gt ∨
      compareKeys _ bs as ≠ .gt
    rw [← compareKeys_swap _ as]
    cases compareKeys (keys.map SortKey.order) as bs <;>
      decide

/-
  Strings come first and NaN last among numbers if the order
  is descending.
-/
theorem Operator.rows?_orderBy_mixedItems :
    let keys : List SortKey :=
      [.mk (.variable ⟨"x", 1⟩) .descending]
    let arranged : List Row :=
      [[[.bool true], [.str "b"]],
        [[.bool true], [.dbl (.ofInt 2)]],
        [[.bool true], [.int 1]],
        [[.bool true], [.dbl .nan]]]
    rows? (.orderBy mixedItems keys) [[.bool true]] =
        some arranged ∧
      ∀ other,
        Arranged keys
          [[[.bool true], [.int 1]],
            [[.bool true], [.dbl .nan]],
            [[.bool true], [.dbl (.ofInt 2)]],
            [[.bool true], [.str "b"]]] other →
        other = arranged := by
  intro keys arranged
  have hRows :
      mixedItems.rows? [[.bool true]] =
        some [[[.bool true], [.int 1]],
          [[.bool true], [.dbl .nan]],
          [[.bool true], [.dbl (.ofInt 2)]],
          [[.bool true], [.str "b"]]] := by
    decide +kernel
  have hSorted :
      rows? (.orderBy mixedItems keys) [[.bool true]] =
        some arranged := by
    have hFour {α : Type} (le : α → α → Bool)
        (a b c d : α)
        (hHigh : le a b = true)
        (hLow : le c d = false)
        (hFirst : le a d = false)
        (hSecond : le a c = false) :
        [a, b, c, d].mergeSort le = [d, c, a, b] := by
      simp [List.mergeSort,
        List.MergeSort.Internal.splitInTwo,
        hHigh, hLow, hFirst, hSecond]
    rw [rows?_orderBy, hRows, Option.bind_some]
    simp only [List.mapM_cons, List.mapM_nil]
    refine congrArg some ?_
    simp only [sortRows]
    rw [hFour] <;> decide +kernel
  exact ⟨hSorted,
    ((rows?_orderBy_arranged hRows keys).2.1 arranged
      hSorted).2⟩

end Flwor
