import Flwor.Double.Text

/-
  This file defines JSON values, their reader and their
  printers.

  A number keeps the digits it was written with, so that the
  caller decides whether it is an integer or a double, and
  how it is rounded.  The caller also says which fields are
  asked for; all others are only skipped.

  Key definitions include:
    * `JsonNumber`
    * `JsonNumber.int?`, `JsonNumber.double`
    * `JsonNumber.scaledDouble?`
    * `Json`
    * `Json.Outline`
    * `Json.read?`, `Json.parse?`
    * `Json.compact`
    * `Json.pretty`
    * `Json.depth`
-/

------------------------------------------------------------
-- Numbers
------------------------------------------------------------

namespace Flwor

/-
  A number as written: an integer, or digits before and
  after a point, scaled by a power of ten.
-/
inductive JsonNumber where
  | integer
      (negative : Bool)
      (magnitude : Nat)
  | decimal
      (negative : Bool)
      (whole : Nat)
      (fraction : List Nat)
      (exponent : Int)
deriving DecidableEq, Repr, Inhabited

namespace JsonNumber

/- An integer as a number. -/
def ofInt
    (n : Int) : JsonNumber :=
  .integer (n < 0) n.natAbs

/- The integer that is written without point or exponent. -/
def int? : JsonNumber → Option Int
  | .integer negative n =>
      some (if negative then -n else n)
  | .decimal .. => none

/- The number that more digits make of a number. -/
def appendAll
    (n : Nat)
    (ds : List Nat) : Nat :=
  ds.foldl (fun n d => n * 10 + d) n

/- The double nearest to the number. -/
def double : JsonNumber → Double
  | .integer negative n =>
      Double.ofDecimal (negative && n != 0) n 0
  | .decimal negative n ds e =>
      Double.ofDecimal negative (appendAll n ds)
        (e - ds.length)

/- Drop digits until the rest fits in 64 bits. -/
def dropDigits : Nat → Nat × Int → Nat × Int
  | 0, d => d
  | steps + 1, (n, e) =>
      if n < Nat.pow 2 64 then (n, e)
      else dropDigits steps (n / 10, e + 1)

/- Append digits as long as the number fits in 64 bits. -/
def appendDigits : Nat × Int → List Nat → Nat × Int
  | d, [] => d
  | (n, e), c :: rest =>
      if n * 10 + c < Nat.pow 2 64 then
        appendDigits (n * 10 + c, e - 1) rest
      else (n, e)

/-
  Scale a double by a power of ten, in steps of at most 308
  decimal places.  A result that is too large is none.
-/
def scaleDouble? : Nat → Double → Int → Option Double
  | 0, x, _ => some x
  | steps + 1, x, e =>
      if e.natAbs ≤ 308 then
        let power := Double.ofDecimal false 1 e.natAbs
        if 0 ≤ e then
          let y := x.mul power
          if y.isFinite then some y else none
        else some (x.div power)
      else if x.isZero then some x
      else if 0 ≤ e then none
      else
        scaleDouble? steps
          (x.div (Double.ofDecimal false 1 308)) (e + 308)

/-
  Scale the leading digits before and after a point and put
  the sign in front.
-/
def scaled?
    (negative : Bool)
    (n : Nat)
    (ds : List Nat)
    (e : Int) : Option Double :=
  let size := (Nat.toDigits 10 n).length
  let (m, k) := appendDigits (dropDigits size (n, e)) ds
  (scaleDouble? 5 (Double.ofInt m) k).map (fun x =>
    if negative then x.neg else x)

/-
  The double obtained by scaling the leading digits, which
  may differ from the nearest one in the last place.
-/
def scaledDouble? : JsonNumber → Option Double
  | .integer negative n => scaled? negative n [] 0
  | .decimal negative n ds e => scaled? negative n ds e

/- A double as a number; only finite ones have digits. -/
def ofDouble?
    (x : Double) : Option JsonNumber :=
  match x.read with
  | .finite negative m e =>
      if m = 0 then some (.decimal negative 0 [] 0)
      else
        let (n, k) := Double.shortest m e
        some (.decimal negative n [] k)
  | _ => none

/-
  The text of a number.  A double is positional from
  `10 ^ -5` up to `10 ^ 16` and always has a point there.
-/
def text : JsonNumber → String
  | .integer negative n => Double.signText negative
      ++ toString n
  | .decimal negative whole ds e =>
      let n := appendAll whole ds
      let k : Int := e - ds.length
      let digits := toString n
      let power : Int := k + digits.length - 1
      Double.signText negative
        ++ (if n = 0 then "0.0"
            else if power < -5 ∨ 16 ≤ power then
              Double.scientific digits k
            else if 0 ≤ k then
              Double.positional digits k ++ ".0"
            else Double.positional digits k)

end JsonNumber

end Flwor

------------------------------------------------------------
-- Values
------------------------------------------------------------

namespace Flwor

/- A JSON value; the fields of an object are in order. -/
inductive Json where
  | null
  | bool (value : Bool)
  | num (value : JsonNumber)
  | str (value : String)
  | arr (items : List Json)
  | obj (fields : List (String × Json))
deriving Inhabited

namespace Json

/- An integer. -/
def int
    (n : Int) : Json :=
  .num (JsonNumber.ofInt n)

/- A natural number. -/
def nat
    (n : Nat) : Json :=
  int n

/- A double, or null where it has no digits. -/
def double
    (x : Double) : Json :=
  match JsonNumber.ofDouble? x with
  | some n => .num n
  | none => .null

/- The last value of a field of an object. -/
def field?
    (key : String) : Json → Option Json
  | .obj fields => fields.reverse.lookup key
  | _ => none

mutual

/- The number of nested arrays and objects. -/
def depth : Json → Nat
  | .arr items => depthItems items + 1
  | .obj fields => depthFields fields + 1
  | _ => 0

/- The depth of the deepest of several values. -/
def depthItems : List Json → Nat
  | [] => 0
  | j :: rest => max (depth j) (depthItems rest)

/- The depth of the deepest of several fields. -/
def depthFields : List (String × Json) → Nat
  | [] => 0
  | (_, j) :: rest => max (depth j) (depthFields rest)

end

end Json

end Flwor

------------------------------------------------------------
-- Printing
------------------------------------------------------------

namespace Flwor

namespace Json

/- A hexadecimal digit. -/
def hexDigit
    (n : Nat) : Char :=
  (Nat.toDigits 16 n).headD '0'

/- A character inside of quotes. -/
def escape
    (c : Char) : List Char :=
  if c = '"' then ['\\', '"']
  else if c = '\\' then ['\\', '\\']
  else if c = '\n' then ['\\', 'n']
  else if c = '\r' then ['\\', 'r']
  else if c = '\t' then ['\\', 't']
  else if c.toNat = 8 then ['\\', 'b']
  else if c.toNat = 12 then ['\\', 'f']
  else if c.toNat < 32 then
    ['\\', 'u', '0', '0', hexDigit (c.toNat / 16),
     hexDigit (c.toNat % 16)]
  else [c]

/- A text in quotes. -/
def quote
    (s : String) : String :=
  "\"" ++ String.ofList (s.toList.flatMap escape) ++ "\""

mutual

/- The text of a value without any space. -/
def compact : Json → String
  | .null => "null"
  | .bool b => toString b
  | .num n => n.text
  | .str s => quote s
  | .arr items =>
      "[" ++ ",".intercalate (compactItems items) ++ "]"
  | .obj fields =>
      "\x7b" ++ ",".intercalate (compactFields fields)
        ++ "\x7d"

/- The texts of several values. -/
def compactItems : List Json → List String
  | [] => []
  | j :: rest => compact j :: compactItems rest

/- The texts of several fields. -/
def compactFields : List (String × Json) → List String
  | [] => []
  | (k, j) :: rest =>
      (quote k ++ ":" ++ compact j) :: compactFields rest

end

/- A line break and the indentation of a depth. -/
def lineBreak
    (depth : Nat) : String :=
  "\n" ++ String.ofList (List.replicate (2 * depth) ' ')

/- Entries on lines of their own between two brackets. -/
def block
    (depth : Nat)
    (left right : String)
    (entries : List String) : String :=
  if entries.isEmpty then left ++ right
  else
    left ++ lineBreak (depth + 1)
      ++ ("," ++ lineBreak (depth + 1)).intercalate entries
      ++ lineBreak depth ++ right

mutual

/- The text of a value with one entry on each line. -/
def prettyAt
    (depth : Nat) : Json → String
  | .arr items =>
      block depth "[" "]" (prettyItems (depth + 1) items)
  | .obj fields =>
      block depth "\x7b" "\x7d"
        (prettyFields (depth + 1) fields)
  | .null => "null"
  | .bool b => toString b
  | .num n => n.text
  | .str s => quote s

/- The texts of several values. -/
def prettyItems
    (depth : Nat) : List Json → List String
  | [] => []
  | j :: rest => prettyAt depth j :: prettyItems depth rest

/- The texts of several fields. -/
def prettyFields
    (depth : Nat) : List (String × Json) → List String
  | [] => []
  | (k, j) :: rest =>
      (quote k ++ ": " ++ prettyAt depth j)
        :: prettyFields depth rest

end

/- The text of a value with one entry on each line. -/
def pretty
    (j : Json) : String :=
  prettyAt 0 j

end Json

end Flwor

------------------------------------------------------------
-- Reading
------------------------------------------------------------

namespace Flwor

namespace Json

/-
  What is asked for in a value, part by part.  A field that
  is not asked for is skipped: however deep it is, and
  whatever surrogates its texts hold, it leaves no trace.
-/
structure Outline (σ : Type) where
  field : σ → String → Option σ
  item : σ → Nat → σ

namespace Outline

/- Everything is asked for. -/
def everything : Outline Unit where
  field _ _ := some ()
  item _ _ := ()

end Outline

/- A reader takes a part off the front of a text. -/
abbrev Reader (α : Type) :=
  List Char → Option (α × List Char)

/- Whether a character may stand between tokens. -/
def isBlank
    (c : Char) : Bool :=
  c = ' ' || c = '\n' || c = '\r' || c = '\t'

/- Skip blanks. -/
def skipBlanks
    (cs : List Char) : List Char :=
  cs.dropWhile isBlank

/- The value of a hexadecimal digit. -/
def hexValue?
    (c : Char) : Option Nat :=
  if '0' ≤ c ∧ c ≤ '9' then some (c.toNat - 48)
  else if 'a' ≤ c ∧ c ≤ 'f' then some (c.toNat - 87)
  else if 'A' ≤ c ∧ c ≤ 'F' then some (c.toNat - 55)
  else none

/- Four hexadecimal digits. -/
def hexWord : Reader Nat
  | a :: b :: c :: d :: rest => do
      let a ← hexValue? a
      let b ← hexValue? b
      let c ← hexValue? c
      let d ← hexValue? d
      return (((a * 16 + b) * 16 + c) * 16 + d, rest)
  | _ => none

/- The character that stands after a backslash. -/
def simpleEscape?
    (c : Char) : Option Char :=
  if c = '"' then some '"'
  else if c = '\\' then some '\\'
  else if c = '/' then some '/'
  else if c = 'b' then some (Char.ofNat 8)
  else if c = 'f' then some (Char.ofNat 12)
  else if c = 'n' then some '\n'
  else if c = 'r' then some '\r'
  else if c = 't' then some '\t'
  else none

/-
  The character of a numeric escape.  A character beyond
  the basic plane is written as a pair of surrogates, and
  half of a pair is no character, which goes unnoticed in a
  text that is only skipped.
-/
def numericEscape
    (skipped : Bool) : Reader Char
  | cs => do
      let (n, rest) ← hexWord cs
      if skipped || n < 0xD800 || 0xE000 ≤ n then
        return (Char.ofNat n, rest)
      else if 0xDC00 ≤ n then none
      else
        match rest with
        | '\\' :: 'u' :: more =>
            let (m, rest) ← hexWord more
            if 0xDC00 ≤ m ∧ m < 0xE000 then
              let code :=
                0x10000 + (n - 0xD800) * 0x400 + (m - 0xDC00)
              return (Char.ofNat code, rest)
            else none
        | _ => none

/-
  The characters up to the closing quote.  The number bounds
  the characters.
-/
def stringBody
    (skipped : Bool) : Nat → List Char → Reader String
  | 0, _, _ => none
  | fuel + 1, done, cs =>
      match cs with
      | [] => none
      | '"' :: rest =>
          some (String.ofList done.reverse, rest)
      | '\\' :: 'u' :: rest => do
          let (c, rest) ← numericEscape skipped rest
          stringBody skipped fuel (c :: done) rest
      | '\\' :: c :: rest => do
          let c ← simpleEscape? c
          stringBody skipped fuel (c :: done) rest
      | c :: rest =>
          if c.toNat < 32 then none
          else stringBody skipped fuel (c :: done) rest

/- Some digits, as the number they spell and their count. -/
def digits
    (cs : List Char) : Nat × Nat × List Char :=
  let ds := cs.takeWhile Char.isDigit
  (ds.foldl (fun n c => n * 10 + (c.toNat - 48)) 0,
   ds.length, cs.dropWhile Char.isDigit)

/- An exponent, if there is one. -/
def exponent : Reader (Option Int)
  | c :: rest =>
      if c = 'e' ∨ c = 'E' then
        let (negative, more) : Bool × List Char :=
          match rest with
          | '-' :: more => (true, more)
          | '+' :: more => (false, more)
          | _ => (false, rest)
        let (n, count, left) := digits more
        if count = 0 then none
        else
          some (some (if negative then -(n : Int) else n),
            left)
      else some (none, c :: rest)
  | [] => some (none, [])

/- The digits after a point, if there is one. -/
def fraction : Reader (Option (List Nat))
  | '.' :: rest =>
      let ds := rest.takeWhile Char.isDigit
      if ds.isEmpty then none
      else
        some (some (ds.map (fun c => c.toNat - 48)),
          rest.dropWhile Char.isDigit)
  | cs => some (none, cs)

/- A number without its sign. -/
def magnitude
    (negative : Bool) : Reader JsonNumber
  | cs => do
      let (n, count, rest) := digits cs
      guard (count ≠ 0)
      guard (count = 1 ∨ cs.head? ≠ some '0')
      let (part, rest) ← fraction rest
      let (power, rest) ← exponent rest
      match part, power with
      | none, none => return (.integer negative n, rest)
      | _, _ =>
          return (.decimal negative n (part.getD [])
            (power.getD 0), rest)

/- A number. -/
def number : Reader JsonNumber
  | '-' :: rest => magnitude true rest
  | cs => magnitude false cs

/- A given word. -/
def word
    (value : Json) : List Char → Reader Json
  | [], rest => some (value, rest)
  | w :: ws, c :: rest =>
      if w = c then word value ws rest else none
  | _ :: _, [] => none

variable {σ : Type}

/- A text that stands for a part, after its opening quote. -/
def quoted
    (part : Option σ) : Reader String
  | cs => stringBody part.isNone (cs.length + 1) [] cs

mutual

/-
  The value of a part, after blanks; without a part it is
  only skipped.  The number bounds the calls.
-/
def value
    (outline : Outline σ) : Nat → Option σ → Reader Json
  | 0, _, _ => none
  | fuel + 1, part, cs =>
      match skipBlanks cs with
      | '"' :: rest => do
          let (s, rest) ← quoted part rest
          return (.str s, rest)
      | '[' :: rest =>
          match skipBlanks rest with
          | ']' :: rest => some (.arr [], rest)
          | rest => do
              let (items, rest) ←
                items outline fuel part 0 rest
              return (.arr items, rest)
      | '\x7b' :: rest =>
          match skipBlanks rest with
          | '\x7d' :: rest => some (.obj [], rest)
          | rest => do
              let (fields, rest) ←
                fields outline fuel part rest
              return (.obj fields, rest)
      | 'n' :: rest => word .null ['u', 'l', 'l'] rest
      | 't' :: rest => word (.bool true) ['r', 'u', 'e'] rest
      | 'f' :: rest =>
          word (.bool false) ['a', 'l', 's', 'e'] rest
      | cs => do
          let (n, rest) ← number cs
          return (.num n, rest)

/- The items of an array from a place on, at least one. -/
def items
    (outline : Outline σ) :
    Nat → Option σ → Nat → Reader (List Json)
  | 0, _, _, _ => none
  | fuel + 1, part, place, cs => do
      let inner := part.map (fun p => outline.item p place)
      let (j, rest) ← value outline fuel inner cs
      match skipBlanks rest with
      | ',' :: rest =>
          let (more, rest) ←
            items outline fuel part (place + 1) rest
          return (j :: more, rest)
      | ']' :: rest => return ([j], rest)
      | _ => none

/-
  The fields of an object that is not empty, without those
  that are skipped.
-/
def fields
    (outline : Outline σ) :
    Nat → Option σ → Reader (List (String × Json))
  | 0, _, _ => none
  | fuel + 1, part, cs =>
      match skipBlanks cs with
      | '"' :: rest => do
          let (k, rest) ← quoted part rest
          let inner := part.bind (fun p => outline.field p k)
          match skipBlanks rest with
          | ':' :: rest =>
              let (j, rest) ← value outline fuel inner rest
              let kept := if inner.isSome then [(k, j)] else []
              match skipBlanks rest with
              | ',' :: rest =>
                  let (more, rest) ←
                    fields outline fuel part rest
                  return (kept ++ more, rest)
              | '\x7d' :: rest => return (kept, rest)
              | _ => none
          | _ => none
      | _ => none

end

/-
  Read what is asked for in a text that is a single value.
  Each call takes at least one character, or is the last of
  its value.
-/
def read?
    (outline : Outline σ)
    (start : σ)
    (text : String) : Option Json :=
  let cs := text.toList
  match value outline (2 * cs.length + 2) (some start) cs with
  | some (j, rest) =>
      if (skipBlanks rest).isEmpty then some j else none
  | none => none

/- Read a text that is a single value. -/
def parse?
    (text : String) : Option Json :=
  read? Outline.everything () text

end Json

end Flwor
