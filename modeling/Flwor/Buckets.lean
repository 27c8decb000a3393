import Std.Data.HashMap
import Std.Data.HashSet

/-
  This file defines how values are found by a key.

  A bucket holds the values of one key in the order in which
  they were listed; the first value of each bucket stands
  for its key.

  Key definitions include:
    * `Buckets`
    * `Buckets.ofList`
    * `Buckets.lookup`
    * `Buckets.firsts`
-/

------------------------------------------------------------
-- Buckets
------------------------------------------------------------

namespace Flwor

/- Values by key. -/
structure Buckets
    (κ α : Type)
    [BEq κ] [Hashable κ] where
  map : Std.HashMap κ (List α)

namespace Buckets

variable {κ α : Type}
variable [BEq κ] [Hashable κ]

/- No values. -/
def empty : Buckets κ α where
  map := ∅

/- The values of a key. -/
def lookup
    (buckets : Buckets κ α)
    (key : κ) : List α :=
  buckets.map.getD key []

/- Add a value in front of its bucket. -/
def insert
    (key : κ)
    (x : α)
    (buckets : Buckets κ α) : Buckets κ α where
  map := buckets.map.insert key (x :: buckets.lookup key)

/- The buckets of listed values. -/
def ofList
    (entries : List (κ × α)) : Buckets κ α :=
  entries.foldr (fun e b => b.insert e.1 e.2) empty

end Buckets

end Flwor

------------------------------------------------------------
-- First Values
------------------------------------------------------------

namespace Flwor

namespace Buckets

variable {κ α : Type}
variable [BEq κ] [Hashable κ]

/- The entries with a new key, after some keys were seen. -/
def firstsAfter :
    Std.HashSet κ → List (κ × α) → List (κ × α)
  | _, [] => []
  | seen, e :: rest =>
      if seen.contains e.1 then firstsAfter seen rest
      else e :: firstsAfter (seen.insert e.1) rest

/- The first entry of each key, in the order of the list. -/
def firsts
    (entries : List (κ × α)) : List (κ × α) :=
  firstsAfter ∅ entries

end Buckets

end Flwor
