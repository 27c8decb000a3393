/-
  This file defines the 64-bit XXH64 checksum, with seed
  zero, of a list of bytes.

  The bytes are absorbed in stripes of 32 by four lanes; the
  lanes are merged, the remaining bytes are mixed in, and the
  bits of the result are spread.

  Key definitions include:
    * `Checksum.ofBytes`
    * `Checksum.littleEndian`
    * `Checksum.hex`
-/

------------------------------------------------------------
-- Words
------------------------------------------------------------

namespace Flwor

namespace Checksum

/- The multipliers of the checksum. -/
def prime1 : UInt64 :=
  0x9E3779B185EBCA87

def prime2 : UInt64 :=
  0xC2B2AE3D27D4EB4F

def prime3 : UInt64 :=
  0x165667B19E3779F9

def prime4 : UInt64 :=
  0x85EBCA77C2B2AE63

def prime5 : UInt64 :=
  0x27D4EB2F165667C5

/- Rotate a word to the left, by less than its width. -/
def rotate
    (word amount : UInt64) : UInt64 :=
  (word <<< amount) ||| (word >>> (64 - amount))

/- The word that bytes spell, least significant first. -/
def word
    (bytes : List UInt8) : UInt64 :=
  bytes.foldr (fun b w => (w <<< 8) ||| b.toUInt64) 0

/- The bytes of a word, least significant first. -/
def littleEndian
    (w : UInt64) : List UInt8 :=
  (List.range 8).map
    (fun i => (w >>> (8 * UInt64.ofNat i)).toUInt8)

end Checksum

end Flwor

------------------------------------------------------------
-- Lanes
------------------------------------------------------------

namespace Flwor

namespace Checksum

/- The state of the four lanes. -/
structure Lanes where
  a : UInt64
  b : UInt64
  c : UInt64
  d : UInt64

/- The lanes before any stripe. -/
def Lanes.start : Lanes :=
  ⟨prime1 + prime2, prime2, 0, 0 - prime1⟩

/- Absorb one word into a lane. -/
def round
    (lane input : UInt64) : UInt64 :=
  rotate (lane + input * prime2) 31 * prime1

/- Absorb a stripe of 32 bytes. -/
def Lanes.absorb
    (lanes : Lanes)
    (stripe : List UInt8) : Lanes :=
  let at' (i : Nat) := word ((stripe.drop (8 * i)).take 8)
  { a := round lanes.a (at' 0)
    b := round lanes.b (at' 1)
    c := round lanes.c (at' 2)
    d := round lanes.d (at' 3) }

/- Absorb a number of stripes; the rest is left over. -/
def Lanes.absorbAll :
    Nat → Lanes → List UInt8 → Lanes × List UInt8
  | 0, lanes, bytes => (lanes, bytes)
  | stripes + 1, lanes, bytes =>
      absorbAll stripes (lanes.absorb (bytes.take 32))
        (bytes.drop 32)

/- Merge one lane into the checksum. -/
def mergeLane
    (hash lane : UInt64) : UInt64 :=
  (hash ^^^ round 0 lane) * prime1 + prime4

/- Merge the four lanes. -/
def Lanes.merge
    (lanes : Lanes) : UInt64 :=
  let sum :=
    rotate lanes.a 1 + rotate lanes.b 7
      + rotate lanes.c 12 + rotate lanes.d 18
  mergeLane
    (mergeLane
      (mergeLane (mergeLane sum lanes.a) lanes.b)
      lanes.c)
    lanes.d

end Checksum

end Flwor

------------------------------------------------------------
-- The Checksum
------------------------------------------------------------

namespace Flwor

namespace Checksum

/- Mix a number of whole words of eight bytes in. -/
def mixWords :
    Nat → UInt64 → List UInt8 → UInt64 × List UInt8
  | 0, hash, bytes => (hash, bytes)
  | words + 1, hash, bytes =>
      let mixed := hash ^^^ round 0 (word (bytes.take 8))
      mixWords words (rotate mixed 27 * prime1 + prime4)
        (bytes.drop 8)

/- Mix a half word of four bytes in, if there is one. -/
def mixHalf
    (hash : UInt64)
    (bytes : List UInt8) : UInt64 × List UInt8 :=
  if 4 ≤ bytes.length then
    let mixed := hash ^^^ (word (bytes.take 4) * prime1)
    (rotate mixed 23 * prime2 + prime3, bytes.drop 4)
  else (hash, bytes)

/- Mix a single byte in. -/
def mixByte
    (hash : UInt64)
    (byte : UInt8) : UInt64 :=
  rotate (hash ^^^ (byte.toUInt64 * prime5)) 11 * prime1

/- Spread the bits of a checksum. -/
def spread
    (hash : UInt64) : UInt64 :=
  let x := (hash ^^^ (hash >>> 33)) * prime2
  let y := (x ^^^ (x >>> 29)) * prime3
  y ^^^ (y >>> 32)

/- The checksum of a list of bytes. -/
def ofBytes
    (bytes : List UInt8) : UInt64 :=
  let size := bytes.length
  let (merged, rest) : UInt64 × List UInt8 :=
    if size < 32 then (prime5, bytes)
    else
      let (lanes, rest) :=
        Lanes.absorbAll (size / 32) Lanes.start bytes
      (lanes.merge, rest)
  let sized := merged + UInt64.ofNat size
  let (mixed, rest) := mixWords (rest.length / 8) sized rest
  let (halved, rest) := mixHalf mixed rest
  spread (rest.foldl mixByte halved)

/- The checksum of the bytes of a text. -/
def ofText
    (text : String) : UInt64 :=
  ofBytes text.toUTF8.toList

/- Sixteen hexadecimal digits. -/
def hex
    (w : UInt64) : String :=
  let digits := Nat.toDigits 16 w.toNat
  String.ofList
    (List.replicate (16 - digits.length) '0' ++ digits)

end Checksum

end Flwor
