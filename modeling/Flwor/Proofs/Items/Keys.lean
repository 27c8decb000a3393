import Flwor.Proofs.Items.Truncation
import Flwor.Proofs.Items.Words
import Flwor.Proofs.Partition

/-
  Items share a key exactly if they are equal.

  The key of a number is its exact value.  It can be held in
  a machine word as well: a double with a whole value that is
  an integer of 64 bits is encoded as this integer, and any
  other double by its own bits.

  Key definitions include:
    * `Item.Code`
    * `Item.code?`

  Key theorems include:
    * `Item.key_eq_iff`
    * `Item.keys_coincide`
-/

------------------------------------------------------------
-- Codes
------------------------------------------------------------

namespace Flwor

namespace Item

/- Keys of which all but the strings fit in a word. -/
inductive Code where
  | bool (value : Bool)
  | int (value : Int)
  | word (bits : UInt64)
  | str (value : String)
deriving DecidableEq

/- The code of a double that stands for a number. -/
def Code.ofNumber
    (bits : UInt64) : Number → Code
  | .finite q =>
      if q.den = 1 ∧ -2 ^ 63 ≤ q ∧ q < 2 ^ 63 then
        .int q.num
      else .word bits
  | .negInfinity => .word bits
  | .infinity => .word bits

/- The code of an item; what is no number has none. -/
def code? : Item → Option Code
  | .bool b => some (.bool b)
  | .int n => some (.int n)
  | .str s => some (.str s)
  | .dbl x => x.number?.map (Code.ofNumber x.bits)

/- Whether an integer fits in 64 bits, if the item is one. -/
def fits : Item → Bool
  | .int n => Integer.inRange n
  | _ => true

/- The codes of items with the keys that they stand for. -/
inductive Encodes : Item → Code → Key → Prop where
  | bool {a b} : Encodes a (.bool b) (.bool b)
  | str {a s} : Encodes a (.str s) (.str s)
  | int
      {a n}
      (hFits : Integer.inRange n = true) :
      Encodes a (.int n) (.number (.finite n))
  | word
      {x r}
      (hNumber : x.number? = some r)
      (hApart : ∀ n : Int, r = .finite n →
        Integer.inRange n = false) :
      Encodes (.dbl x) (.word x.bits) (.number r)

/- The code of a double stands for its number. -/
theorem encodes_ofNumber
    {x : Double}
    {r : Number}
    (hNumber : x.number? = some r) :
    Encodes (.dbl x) (.ofNumber x.bits r) (.number r) := by
  cases r with
  | negInfinity => exact .word hNumber nofun
  | infinity => exact .word hNumber nofun
  | finite q =>
      rw [Code.ofNumber]
      split
      next hWhole =>
        obtain ⟨hDen, hBounds⟩ := hWhole
        obtain ⟨n, rfl⟩ : ∃ n : ℤ, q = n :=
          ⟨q.num, (Rat.coe_int_num_of_den_eq_one hDen).symm⟩
        exact .int ((Integer.inRange_iff n).mpr hBounds)
      next hOther =>
        refine .word hNumber (fun n hN => ?_)
        cases hN
        rw [← Bool.not_eq_true, Integer.inRange_iff]
        exact fun hBounds => hOther ⟨rfl, hBounds⟩

/- An item that fits has a key if and only if it has a code. -/
theorem exists_encodes
    {a : Item}
    {k : Code}
    (hFits : a.fits = true)
    (hCode : a.code? = some k) :
    ∃ key, a.key? = some key ∧ Encodes a k key := by
  cases a with
  | bool b =>
      cases hCode
      exact ⟨_, rfl, .bool⟩
  | str s =>
      cases hCode
      exact ⟨_, rfl, .str⟩
  | int n =>
      cases hCode
      exact ⟨_, rfl, .int hFits⟩
  | dbl x =>
      rw [code?, Option.map_eq_some_iff] at hCode
      rcases hCode with ⟨r, hNumber, rfl⟩
      exact ⟨.number r, congrArg (Option.map _) hNumber,
        encodes_ofNumber hNumber⟩

theorem code?_eq_none_iff
    (a : Item) :
    a.code? = none ↔ a.isNaN = true := by
  rw [isNaN_eq_true_iff]
  cases a <;> simp [code?, family, number?]

/- Codes are the same if and only if they stand for one key. -/
theorem Encodes.eq_iff
    {a b : Item}
    {k l : Code}
    {key key' : Key}
    (hK : Encodes a k key)
    (hL : Encodes b l key') :
    k = l ↔ key = key' := by
  cases hK with
  | bool => cases hL <;> simp
  | str => cases hL <;> simp
  | int hFits =>
      cases hL with
      | bool | str => simp
      | int => simp
      | word hNumber hApart =>
          simp only [reduceCtorEq, Key.number.injEq, false_iff]
          rintro rfl
          exact Bool.false_ne_true
            ((hApart _ rfl).symm.trans hFits)
  | @word x r hNumber hApart =>
      cases hL with
      | bool | str => simp
      | int hFits =>
          simp only [reduceCtorEq, Key.number.injEq, false_iff]
          rintro rfl
          exact Bool.false_ne_true
            ((hApart _ rfl).symm.trans hFits)
      | @word y r' hOther =>
          rw [Code.word.injEq, Key.number.injEq]
          constructor
          · intro hBits
            obtain rfl : x = y := congrArg Double.mk hBits
            exact Option.some.inj (hNumber.symm.trans hOther)
          · rintro rfl
            -- Zero is whole, so it has no word for a code.
            have hNe : r ≠ .finite 0 := fun hZero =>
              Bool.false_ne_true ((hApart 0 hZero).symm.trans
                (by decide))
            rw [Double.eq_of_number? hNumber hOther hNe]

end Item

end Flwor

------------------------------------------------------------
-- Equality
------------------------------------------------------------

namespace Flwor

namespace Item

variable {a b : Item}

/- Items that compare equal are those that satisfy equality. -/
theorem satisfies_eq_true_iff
    (relation : Relation) :
    a.satisfies relation b = true ↔
      a.comparable b = true ∧
        a.compare relation b = .ok (some true) := by
  unfold satisfies
  constructor
  · intro hHolds
    split at hHolds
    next hTrue =>
      refine ⟨?_, hTrue⟩
      unfold compare at hTrue
      split at hTrue
      next hComparable => exact hComparable
      next => cases hTrue
    next => cases hHolds
  · rintro ⟨_, hTrue⟩
    rw [hTrue]

/- Items have one key exactly if they compare equal. -/
theorem key_eq_iff
    {key key' : Key}
    (hA : a.key? = some key)
    (hB : b.key? = some key') :
    key = key' ↔
      a.comparable b = true ∧
        a.compare .eq b = .ok (some true) := by
  rw [← satisfies_eq_true_iff, satisfies_eq_iff, hA, hB]
  simp [eq_comm]

/-
  Only what is no number has no key, and keys are the same if
  and only if the items compare equal.  The same holds of the
  codes, if all integers fit in 64 bits.
-/
theorem keys_coincide
    (a b : Item) :
    (a.key? = none ↔ a.isNaN = true) ∧
      (∀ key key', a.key? = some key → b.key? = some key' →
        (key = key' ↔
          a.comparable b = true ∧
            a.compare .eq b = .ok (some true))) ∧
      (a.code? = none ↔ a.isNaN = true) ∧
      (a.fits = true → b.fits = true →
        ∀ k l, a.code? = some k → b.code? = some l →
          (k = l ↔
            a.comparable b = true ∧
              a.compare .eq b = .ok (some true))) := by
  refine ⟨key?_eq_none_iff a, fun key key' => key_eq_iff,
    code?_eq_none_iff a, fun hA hB k l hK hL => ?_⟩
  rcases exists_encodes hA hK with ⟨key, hKey, hHere⟩
  rcases exists_encodes hB hL with ⟨key', hKey', hThere⟩
  rw [hHere.eq_iff hThere]
  exact key_eq_iff hKey hKey'

/-
  The least integer is also a double, with the same code; the
  double next to the greatest integer keeps its word, and the
  zero with a minus sign is the integer zero.
-/
theorem keys_coincide_bounds :
    let low : Double := .ofSigned true (1086 * 2 ^ 52)
    let high : Double := .ofSigned false (1086 * 2 ^ 52)
    let least : Item := .int Integer.least
    let greatest : Item := .int Integer.greatest
    (Item.dbl low).code? = some (.int Integer.least) ∧
      least.compare .eq (.dbl low) = .ok (some true) ∧
      (Item.dbl high).code? = some (.word high.bits) ∧
      greatest.compare .eq (.dbl high) ≠ .ok (some true) ∧
      (Item.int 0).compare .eq (.dbl (.zero true)) =
        .ok (some true) := by
  intro low high least greatest
  have hLow : (Item.dbl low).code? =
      some (.int Integer.least) := by
    decide +kernel
  have hHigh : (Item.dbl high).code? =
      some (.word high.bits) := by
    decide +kernel
  have hZero : (Item.dbl (.zero true)).code? =
      some (.int 0) := by
    decide +kernel
  rcases keys_coincide least (.dbl low) with ⟨_, _, _, hLeast⟩
  rcases keys_coincide greatest (.dbl high) with
    ⟨_, _, _, hGreatest⟩
  rcases keys_coincide (.int 0) (.dbl (.zero true)) with
    ⟨_, _, _, hSame⟩
  have hLess := (hLeast (by decide) rfl _ _ rfl hLow).mp rfl
  have hMore := hGreatest (by decide) rfl _ _ rfl hHigh
  refine ⟨hLow, hLess.2, hHigh, fun hEq => ?_,
    ((hSame (by decide) rfl _ _ rfl hZero).mp rfl).2⟩
  cases hMore.mpr ⟨rfl, hEq⟩

end Item

end Flwor
