import ScriptLang.Value

/-!
# A hash of strings

SipHash with one round for each word and three at the end, with the key zero, of the bytes of a string in UTF-8 and
a last byte `0xff`. It is the hash that programs run with. No statement about programs depends on it, except where
one is made of certain strings.
-/

namespace ScriptLang

/-- What SipHash works on. -/
structure SipHash where
  v0 : UInt64
  v1 : UInt64
  v2 : UInt64
  v3 : UInt64

namespace SipHash

/-- The start with the key zero. -/
def start : SipHash := ⟨0x736f6d6570736575, 0x646f72616e646f6d, 0x6c7967656e657261, 0x7465646279746573⟩

/-- Rotates the bits of a word to the left. -/
def rotate (word count : UInt64) : UInt64 := (word <<< count) ||| (word >>> (64 - count))

/-- One round. -/
def round (s : SipHash) : SipHash :=
  let v0 := s.v0 + s.v1
  let v2 := s.v2 + s.v3
  let v1 := rotate s.v1 13 ^^^ v0
  let v3 := rotate s.v3 16 ^^^ v2
  let v0 := rotate v0 32 + v3
  let v2 := v2 + v1
  ⟨v0, rotate v1 17 ^^^ v2, rotate v2 32, rotate v3 21 ^^^ v0⟩

/-- Takes in a word. -/
def absorb (s : SipHash) (word : UInt64) : SipHash :=
  let s := round { s with v3 := s.v3 ^^^ word }
  { s with v0 := s.v0 ^^^ word }

/-- The word of some bytes, the lowest byte first. -/
def wordOf (bytes : List UInt8) : UInt64 := bytes.foldr (fun byte word => word <<< 8 ||| byte.toUInt64) 0

/-- Takes in some bytes, eight at a time, and the number of all bytes in the highest byte of the last word. -/
def absorbAll (count : UInt64) (s : SipHash) : List UInt8 → SipHash
  | b0 :: b1 :: b2 :: b3 :: b4 :: b5 :: b6 :: b7 :: bytes =>
    absorbAll count (s.absorb (wordOf [b0, b1, b2, b3, b4, b5, b6, b7])) bytes
  | bytes => s.absorb (wordOf bytes ||| count <<< 56)

/-- The hash of some bytes. -/
def ofBytes (bytes : List UInt8) : UInt64 :=
  let s := absorbAll (UInt64.ofNat bytes.length) start bytes
  let s := { s with v2 := s.v2 ^^^ 0xff }.round.round.round
  s.v0 ^^^ s.v1 ^^^ s.v2 ^^^ s.v3

end SipHash

instance : StringHash := ⟨fun s => SipHash.ofBytes (s.toList.flatMap String.utf8EncodeChar ++ [0xff])⟩

end ScriptLang
