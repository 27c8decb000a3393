import Flwor.Item.Arithmetic
import Flwor.Toml.Table

/-
  This file defines how a TOML document is read as a JSON
  object.

  Integers have 64 bits.  A number that is not finite reads
  as null, and a date or a time as an object of its own, so
  that neither is taken for a text.

  Key definitions include:
    * `Toml.key`
    * `Toml.value`
    * `Toml.statement`
    * `Toml.parse?`
-/

------------------------------------------------------------
-- Blanks and Comments
------------------------------------------------------------

namespace Flwor

namespace Toml

/- A reader takes a part off the front of a text. -/
abbrev Reader (α : Type) :=
  Json.Reader α

/- Whether a character separates words on a line. -/
def isSpace
    (c : Char) : Bool :=
  c = ' ' || c = '\t'

/- Whether a character may stand in comments and texts. -/
def isPlain
    (c : Char) : Bool :=
  c = '\t' || (32 ≤ c.toNat && c.toNat != 127)

/- Skip spaces. -/
def skipSpaces
    (cs : List Char) : List Char :=
  cs.dropWhile isSpace

/- Skip a comment, if there is one. -/
def skipComment : List Char → List Char
  | '#' :: rest => rest.dropWhile isPlain
  | cs => cs

/- The end of a line. -/
def newline : Reader Unit
  | '\n' :: rest => some ((), rest)
  | '\r' :: '\n' :: rest => some ((), rest)
  | _ => none

/- What may follow a statement on its line. -/
def lineEnd
    (cs : List Char) : Option (List Char) :=
  match skipComment (skipSpaces cs) with
  | [] => some []
  | rest => (newline rest).map Prod.snd

/-
  Skip spaces, line ends and, if wanted, comments.  The
  number bounds the lines.
-/
def skipLines
    (comments : Bool) : Nat → List Char → List Char
  | 0, cs => cs
  | lines + 1, cs =>
      let rest := skipSpaces cs
      match newline
          (if comments then skipComment rest else rest) with
      | some ((), rest) => skipLines comments lines rest
      | none => rest

/- Skip what may stand between the items of an array. -/
def skipFiller
    (cs : List Char) : List Char :=
  skipLines true cs.length cs

end Toml

end Flwor

------------------------------------------------------------
-- Texts
------------------------------------------------------------

namespace Flwor

namespace Toml

/- The number that some hexadecimal digits spell. -/
def hexNumber : Nat → Nat → Reader Nat
  | 0, n, cs => some (n, cs)
  | _ + 1, _, [] => none
  | count + 1, n, c :: rest => do
      let d ← Json.hexValue? c
      hexNumber count (n * 16 + d) rest

/- The character that some hexadecimal digits number. -/
def hexChar
    (count : Nat) : Reader Char
  | cs => do
      let (n, rest) ← hexNumber count 0 cs
      guard (n.isValidChar)
      return (Char.ofNat n, rest)

/- The character that is written after a backslash. -/
def escaped : Reader Char
  | 'b' :: rest => some (Char.ofNat 8, rest)
  | 't' :: rest => some ('\t', rest)
  | 'n' :: rest => some ('\n', rest)
  | 'f' :: rest => some (Char.ofNat 12, rest)
  | 'r' :: rest => some ('\r', rest)
  | '"' :: rest => some ('"', rest)
  | '\\' :: rest => some ('\\', rest)
  | 'u' :: rest => hexChar 4 rest
  | 'U' :: rest => hexChar 8 rest
  | _ => none

/-
  The characters up to a closing quote on the same line.
  The number bounds the characters.
-/
def lineText
    (quote : Char)
    (escapes : Bool) : Nat → List Char → Reader String
  | 0, _, _ => none
  | _ + 1, _, [] => none
  | fuel + 1, done, c :: rest =>
      if c = quote then
        some (String.ofList done.reverse, rest)
      else if escapes && c = '\\' then do
        let (e, rest) ← escaped rest
        lineText quote escapes fuel (e :: done) rest
      else if isPlain c then
        lineText quote escapes fuel (c :: done) rest
      else none

/-
  The line break that a backslash hides, with the blanks
  after it.
-/
def hiddenBreak
    (cs : List Char) : Option (List Char) :=
  (newline (skipSpaces cs)).map
    (fun r => skipLines false r.2.length r.2)

/-
  The characters up to three closing quotes.  One or two
  quotes are part of the text, also right before the closing
  ones.  The number bounds the characters.
-/
def blockText
    (quote : Char)
    (escapes : Bool) : Nat → List Char → Reader String
  | 0, _, _ => none
  | _ + 1, _, [] => none
  | fuel + 1, done, c :: rest =>
      let quotes := ((c :: rest).takeWhile (· = quote)).length
      if 5 < quotes then none
      else if 3 ≤ quotes then
        let held := List.replicate (quotes - 3) quote
        some (String.ofList (done.reverse ++ held),
          (c :: rest).drop quotes)
      else if escapes && c = '\\' then
        match hiddenBreak rest with
        | some rest => blockText quote escapes fuel done rest
        | none => do
            let (e, rest) ← escaped rest
            blockText quote escapes fuel (e :: done) rest
      else
        match newline (c :: rest) with
        | some ((), rest) =>
            blockText quote escapes fuel ('\n' :: done) rest
        | none =>
            if isPlain c then
              blockText quote escapes fuel (c :: done) rest
            else none

/- Leave out the line break that opens a block of lines. -/
def skipNewline
    (cs : List Char) : List Char :=
  match newline cs with
  | some ((), rest) => rest
  | none => cs

/- A text in one of the two quotes, on one line or more. -/
def text : Reader String
  | c :: rest =>
      if c = '"' || c = '\'' then
        let escapes : Bool := c = '"'
        if rest.take 2 = [c, c] then
          blockText c escapes (rest.length + 1) []
            (skipNewline (rest.drop 2))
        else lineText c escapes (rest.length + 1) [] rest
      else none
  | [] => none

end Toml

end Flwor

------------------------------------------------------------
-- Keys
------------------------------------------------------------

namespace Flwor

namespace Toml

/- Whether a character may stand in a name without quotes. -/
def isBare
    (c : Char) : Bool :=
  c.isAlphanum || c = '_' || c = '-'

/- A name, in quotes on one line or without them. -/
def name : Reader String
  | c :: rest =>
      if c = '"' || c = '\'' then
        lineText c (c = '"') (rest.length + 1) [] rest
      else if isBare c then
        some (String.ofList ((c :: rest).takeWhile isBare),
          (c :: rest).dropWhile isBare)
      else none
  | [] => none

/- Names with points between; the number bounds them. -/
def names : Nat → Reader (List String)
  | 0, _ => none
  | count + 1, cs => do
      let (n, rest) ← name (skipSpaces cs)
      match skipSpaces rest with
      | '.' :: rest =>
          let (more, rest) ← names count rest
          return (n :: more, rest)
      | rest => return ([n], rest)

/- The largest number of names in a key. -/
def maxNames : Nat :=
  79

/- A key and the spaces after it. -/
def key : Reader TomlKey
  | cs => do
      let (ns, rest) ← names maxNames cs
      let last ← ns.getLast?
      return (⟨ns.dropLast, last⟩, rest)

end Toml

end Flwor

------------------------------------------------------------
-- Numbers
------------------------------------------------------------

namespace Flwor

namespace Toml

/- Digits after the first one, with single bars between. -/
def moreDigits
    (base : Nat) : Reader (List Nat)
  | [] => some ([], [])
  | ['_'] => none
  | '_' :: c :: rest => do
      let d ← (Json.hexValue? c).filter (· < base)
      let (ds, rest) ← moreDigits base rest
      return (d :: ds, rest)
  | c :: rest =>
      match (Json.hexValue? c).filter (· < base) with
      | some d => do
          let (ds, rest) ← moreDigits base rest
          return (d :: ds, rest)
      | none => some ([], c :: rest)

/- Digits of a base, at least one. -/
def digits
    (base : Nat) : Reader (List Nat)
  | [] => none
  | c :: rest => do
      let d ← (Json.hexValue? c).filter (· < base)
      let (ds, rest) ← moreDigits base rest
      return (d :: ds, rest)

/- The number that digits spell. -/
def spelled
    (base : Nat)
    (ds : List Nat) : Nat :=
  ds.foldl (fun n d => n * base + d) 0

/- A sign, if there is one; whether it is a minus. -/
def sign : List Char → Bool × List Char
  | '-' :: rest => (true, rest)
  | '+' :: rest => (false, rest)
  | cs => (false, cs)

/- A 64-bit integer. -/
def integer?
    (negative : Bool)
    (n : Nat) : Option Json :=
  let value : Int := if negative then -n else n
  if Integer.inRange value then some (.int value) else none

/- An integer of a base that is a power of two. -/
def basedInteger
    (base : Nat) : Reader Json
  | cs => do
      let (ds, rest) ← digits base cs
      return (← integer? false (spelled base ds), rest)

/- The digits after a point, if there is one. -/
def fraction : Reader (Option (List Nat))
  | '.' :: rest => do
      let (ds, rest) ← digits 10 rest
      return (some ds, rest)
  | cs => some (none, cs)

/- An exponent, if there is one. -/
def exponent : Reader (Option Int)
  | c :: rest =>
      if c = 'e' || c = 'E' then do
        let (negative, rest) := sign rest
        let (ds, rest) ← digits 10 rest
        let n : Int := spelled 10 ds
        return (some (if negative then -n else n), rest)
      else some (none, c :: rest)
  | [] => some (none, [])

/-
  A number that is not an integer.  One that is too large
  is refused, and one that is too small is infinite.
-/
def decimal?
    (negative : Bool)
    (n : Nat)
    (e : Int) : Option Json :=
  let number := JsonNumber.decimal negative n [] e
  if number.double.isFinite then some (.num number)
  else if negative then some .null
  else none

/- A decimal number without its sign. -/
def magnitude
    (negative : Bool) : Reader Json
  | cs => do
      let (ds, rest) ←
        match cs with
        | '0' :: rest => some ([0], rest)
        | _ => digits 10 cs
      let (part, rest) ← fraction rest
      let (power, rest) ← exponent rest
      let n := spelled 10 (ds ++ part.getD [])
      match part, power with
      | none, none => return (← integer? negative n, rest)
      | _, _ =>
          let places := (part.getD []).length
          let e : Int := power.getD 0 - places
          return (← decimal? negative n e, rest)

/- A number. -/
def number : Reader Json
  | '0' :: 'x' :: rest => basedInteger 16 rest
  | '0' :: 'o' :: rest => basedInteger 8 rest
  | '0' :: 'b' :: rest => basedInteger 2 rest
  | cs =>
      match sign cs with
      | (_, 'i' :: 'n' :: 'f' :: rest) => some (.null, rest)
      | (_, 'n' :: 'a' :: 'n' :: rest) => some (.null, rest)
      | (negative, rest) => magnitude negative rest

end Toml

end Flwor

------------------------------------------------------------
-- Dates and Times
------------------------------------------------------------

namespace Flwor

namespace Toml

/- A number of exactly so many digits, within bounds. -/
def field
    (count low high : Nat) : Reader Nat
  | cs => do
      let ds := cs.take count
      guard (ds.length = count && ds.all Char.isDigit)
      let n := ds.foldl
        (fun n c => n * 10 + (c.toNat - 48)) 0
      guard (low ≤ n && n ≤ high)
      return (n, cs.drop count)

/- One given character. -/
def mark
    (c : Char) : Reader Unit
  | [] => none
  | d :: rest => if d = c then some ((), rest) else none

/- The days of a month. -/
def daysOf
    (year month : Nat) : Nat :=
  if month = 2 then
    if year % 4 = 0
        ∧ (year % 100 ≠ 0 ∨ year % 400 = 0) then
      29
    else 28
  else if month ∈ [4, 6, 9, 11] then 30
  else 31

/- A day of the calendar. -/
def date : Reader Unit
  | cs => do
      let (year, rest) ← field 4 0 9999 cs
      let ((), rest) ← mark '-' rest
      let (month, rest) ← field 2 1 12 rest
      let ((), rest) ← mark '-' rest
      let (_, rest) ← field 2 1 (daysOf year month) rest
      return ((), rest)

/- A time of the day, with a fraction of a second. -/
def time : Reader Unit
  | cs => do
      let (_, rest) ← field 2 0 23 cs
      let ((), rest) ← mark ':' rest
      let (_, rest) ← field 2 0 59 rest
      let ((), rest) ← mark ':' rest
      let (_, rest) ← field 2 0 60 rest
      match rest with
      | '.' :: c :: more =>
          if c.isDigit then
            return ((), more.dropWhile Char.isDigit)
          else return ((), rest)
      | _ => return ((), rest)

/- Skip the distance to universal time, if it is there. -/
def skipOffset : List Char → List Char
  | [] => []
  | c :: rest =>
      if c = 'Z' || c = 'z' then rest
      else if c = '+' || c = '-' then
        let offset : Option (List Char) := do
          let (_, rest) ← field 2 0 23 rest
          let ((), rest) ← mark ':' rest
          let (_, rest) ← field 2 0 59 rest
          return rest
        offset.getD (c :: rest)
      else c :: rest

/- Skip the time after a date, if it is there. -/
def skipTime : List Char → List Char
  | [] => []
  | c :: rest =>
      if c = 'T' || c = 't' || c = ' ' then
        match time rest with
        | some ((), rest) => skipOffset rest
        | none => c :: rest
      else c :: rest

/- A date, a time, or both. -/
def moment : Reader Json
  | cs => do
      let rest ←
        match date cs with
        | some ((), rest) => some (skipTime rest)
        | none => (time cs).map Prod.snd
      let written := cs.take (cs.length - rest.length)
      return (.obj [("moment", .str (String.ofList written))],
        rest)

end Toml

end Flwor

------------------------------------------------------------
-- Values
------------------------------------------------------------

namespace Flwor

namespace Toml

/- A value that holds no other one. -/
def scalar : Reader Json
  | cs =>
      match cs with
      | 't' :: rest =>
          Json.word (.bool true) ['r', 'u', 'e'] rest
      | 'f' :: rest =>
          Json.word (.bool false) ['a', 'l', 's', 'e'] rest
      | '"' :: _ => (text cs).map (fun r => (.str r.1, r.2))
      | '\'' :: _ => (text cs).map (fun r => (.str r.1, r.2))
      | _ => (moment cs).orElse (fun _ => number cs)

/- A key, its value and the spaces after it. -/
def pair
    (read : Reader Json) : Reader TomlPair
  | cs => do
      let (k, rest) ← key cs
      let ((), rest) ← mark '=' rest
      let (j, rest) ← read (skipSpaces rest)
      return ((k, j), skipSpaces rest)

/-
  The items of an array up to its end; a comma may follow
  the last one.  The number bounds the items.
-/
def arrayItems
    (read : Reader Json) : Nat → Reader (List Json)
  | 0, _ => none
  | fuel + 1, cs =>
      match skipFiller cs with
      | ']' :: rest => some ([], rest)
      | cs => do
          let (j, rest) ← read cs
          match skipFiller rest with
          | ']' :: rest => return ([j], rest)
          | ',' :: rest =>
              let (more, rest) ← arrayItems read fuel rest
              return (j :: more, rest)
          | _ => none

/-
  The pairs of a table on one line up to its end.  The
  number bounds the pairs.
-/
def tablePairs
    (read : Reader Json) : Nat → Reader (List TomlPair)
  | 0, _ => none
  | fuel + 1, cs => do
      let (p, rest) ← pair read cs
      match rest with
      | '\x7d' :: rest => return ([p], rest)
      | ',' :: rest =>
          let (more, rest) ← tablePairs read fuel rest
          return (p :: more, rest)
      | _ => none

/- A table on one line, after its opening brace. -/
def lineTable
    (read : Reader Json) : Reader Json
  | cs =>
      match skipSpaces cs with
      | '\x7d' :: rest => some (.obj [], rest)
      | cs => do
          let (ps, rest) ← tablePairs read cs.length.succ cs
          let table ← TomlTable.fill ps []
          return (table.json, rest)

/- A value in which values are nested up to a depth. -/
def value : Nat → Reader Json
  | 0 => scalar
  | depth + 1 => fun cs =>
      match cs with
      | '[' :: rest => do
          let (items, rest) ←
            arrayItems (value depth) cs.length rest
          return (.arr items, rest)
      | '\x7b' :: rest => lineTable (value depth) rest
      | _ => scalar cs

/- The greatest depth of nested values. -/
def maxDepth : Nat :=
  79

end Toml

end Flwor

------------------------------------------------------------
-- Documents
------------------------------------------------------------

namespace Flwor

namespace Toml

/- What a line of a document says. -/
inductive Statement where
  | pair (pair : TomlPair)
  | one (key : TomlKey)
  | next (key : TomlKey)

/- A statement without the end of its line. -/
def statement : Reader Statement
  | '[' :: '[' :: rest => do
      let (k, rest) ← key rest
      let ((), rest) ← mark ']' rest
      let ((), rest) ← mark ']' rest
      return (.next k, rest)
  | '[' :: rest => do
      let (k, rest) ← key rest
      let ((), rest) ← mark ']' rest
      return (.one k, rest)
  | cs => do
      let (p, rest) ← pair (value maxDepth) cs
      return (.pair p, rest)

/- The statements of a text; the number bounds them. -/
def statements : Nat → List Char → Option (List Statement)
  | 0, _ => none
  | fuel + 1, cs =>
      match skipFiller cs with
      | [] => some []
      | '#' :: rest => do
          guard (rest.all isPlain)
          return []
      | cs => do
          let (s, rest) ← statement cs
          let rest ← lineEnd rest
          let more ← statements fuel rest
          return s :: more

/- A header with the pairs below it. -/
structure Part where
  header : Statement
  pairs : List TomlPair

/- The pairs before the first header, and the parts. -/
def parts : List Statement → List TomlPair × List Part
  | [] => ([], [])
  | .pair p :: rest =>
      let (ps, more) := parts rest
      (p :: ps, more)
  | header :: rest =>
      let (ps, more) := parts rest
      ([], ⟨header, ps⟩ :: more)

/- Add a part to the table of the document. -/
def Part.addTo
    (part : Part)
    (table : TomlTable) : Option TomlTable :=
  match part.header with
  | .pair p => TomlTable.fill (p :: part.pairs) table
  | .one k => TomlTable.openOne k part.pairs table
  | .next k => TomlTable.openNext k part.pairs table

/- Leave out a mark of the byte order. -/
def skipOrderMark : List Char → List Char
  | c :: rest => if c.toNat = 0xFEFF then rest else c :: rest
  | [] => []

/- Read a document. -/
def parse?
    (text : String) : Option Json := do
  let cs := skipOrderMark text.toList
  let lines ← statements cs.length.succ cs
  let (pairs, rest) := parts lines
  let root ← TomlTable.fill pairs []
  let table ← rest.foldlM (fun t p => p.addTo t) root
  return table.json

end Toml

end Flwor
