import Flwor.Json

/-
  This file defines the tables of a TOML document and how
  its headers and its pairs add to them.

  A table is opened once by a header.  Tables that only
  stand on the way to another one may still be opened later,
  and a table made by a dotted key grows by dotted keys
  alone.

  Key definitions include:
    * `TomlKey`
    * `TomlTable`
    * `TomlTable.fill`
    * `TomlTable.openOne`, `TomlTable.openNext`
    * `TomlTable.json`
-/

------------------------------------------------------------
-- Tables
------------------------------------------------------------

namespace Flwor

/- A dotted key: the tables on the way and the last name. -/
structure TomlKey where
  way : List String
  name : String
deriving DecidableEq, Repr

/- What made a table. -/
inductive TomlOrigin where
  | header
  | way
  | dotted
deriving DecidableEq, Repr

/-
  What stands under a name: a value that is complete, a
  table, or several tables of which the last one is open.
-/
inductive TomlEntry where
  | value (json : Json)
  | table
      (origin : TomlOrigin)
      (entries : List (String × TomlEntry))
  | tables
      (earlier : List (List (String × TomlEntry)))
      (last : List (String × TomlEntry))

/- The entries of a table in the order of their arrival. -/
abbrev TomlTable :=
  List (String × TomlEntry)

/- A key with its value. -/
abbrev TomlPair :=
  TomlKey × Json

namespace TomlTable

/- Put an entry in the place of the one of its name. -/
def replace
    (name : String)
    (entry : TomlEntry)
    (table : TomlTable) : TomlTable :=
  table.map (fun e => if e.1 == name then (name, entry) else e)

/- Add an entry whose name must be new. -/
def add
    (name : String)
    (entry : TomlEntry)
    (table : TomlTable) : Option TomlTable :=
  if (table.lookup name).isSome then none
  else some (table ++ [(name, entry)])

/-
  Change the table at the end of a way, of which the change
  may depend on the origin.  Tables that are missing are
  made; a dotted way does not lead through a table that has
  a header.
-/
def changeAt
    (dotted : Bool)
    (change : TomlOrigin → TomlTable → Option TomlTable) :
    List String → TomlOrigin → TomlTable →
      Option TomlTable
  | [], origin, table => change origin table
  | name :: way, _, table =>
      match table.lookup name with
      | none => do
          let origin : TomlOrigin :=
            if dotted then .dotted else .way
          let inner ← changeAt dotted change way origin []
          return table ++ [(name, .table origin inner)]
      | some (.value _) => none
      | some (.table origin inner) => do
          guard !(dotted && origin = .header)
          let inner ← changeAt dotted change way origin inner
          return replace name (.table origin inner) table
      | some (.tables earlier last) => do
          let last ← changeAt dotted change way .header last
          return replace name (.tables earlier last) table

/- Add a pair to a table, or to one that it leads to. -/
def put
    (pair : TomlPair)
    (table : TomlTable) : Option TomlTable :=
  let (key, value) := pair
  let change (origin : TomlOrigin) (inner : TomlTable) :
      Option TomlTable := do
    guard (key.way.isEmpty || origin = .dotted)
    add key.name (.value value) inner
  changeAt true change key.way .header table

/- Add pairs to a table, one after the other. -/
def fill
    (pairs : List TomlPair)
    (table : TomlTable) : Option TomlTable :=
  pairs.foldlM (fun t p => put p t) table

/-
  Open the table of a header and add its pairs.  It must be
  new, or have stood on the way to another one.
-/
def openOne
    (key : TomlKey)
    (pairs : List TomlPair)
    (table : TomlTable) : Option TomlTable :=
  let change (_ : TomlOrigin) (inner : TomlTable) :
      Option TomlTable :=
    match inner.lookup key.name with
    | none => do
        let made ← fill pairs []
        return inner ++ [(key.name, .table .header made)]
    | some (.table .way held) => do
        let made ← fill pairs held
        return replace key.name (.table .header made) inner
    | some _ => none
  changeAt false change key.way .header table

/- Open one more of several tables and add its pairs. -/
def openNext
    (key : TomlKey)
    (pairs : List TomlPair)
    (table : TomlTable) : Option TomlTable :=
  let change (_ : TomlOrigin) (inner : TomlTable) :
      Option TomlTable := do
    let made ← fill pairs []
    match inner.lookup key.name with
    | none => return inner ++ [(key.name, .tables [] made)]
    | some (.tables earlier last) =>
        return replace key.name
          (.tables (earlier ++ [last]) made) inner
    | some _ => none
  changeAt false change key.way .header table

end TomlTable

end Flwor

------------------------------------------------------------
-- Values of Tables
------------------------------------------------------------

namespace Flwor

mutual

/- The value that an entry stands for. -/
def TomlEntry.json : TomlEntry → Json
  | .value j => j
  | .table _ entries => .obj (TomlTable.fields entries)
  | .tables earlier last =>
      .arr (TomlTable.objects earlier
        ++ [.obj (TomlTable.fields last)])

/- The fields of a table. -/
def TomlTable.fields :
    List (String × TomlEntry) → List (String × Json)
  | [] => []
  | (name, entry) :: rest =>
      (name, entry.json) :: TomlTable.fields rest

/- The objects of several tables. -/
def TomlTable.objects :
    List (List (String × TomlEntry)) → List Json
  | [] => []
  | table :: rest =>
      .obj (TomlTable.fields table) :: TomlTable.objects rest

end

namespace TomlTable

/- The object that a table stands for. -/
def json
    (table : TomlTable) : Json :=
  .obj (fields table)

end TomlTable

end Flwor
