/-!
# SHA-256

The digest of 256 bits of that name, for the bytes of a text. A message is
padded to whole blocks of sixteen words, each block is spread out to a schedule
of 64 words, and 64 rounds mix each schedule into the eight words of the state.
-/

namespace ConceptLang

namespace Sha256

/-- The constants of the rounds: the first 32 bits of the fractional parts of
the cube roots of the first 64 primes. -/
def roundConstants : List UInt32 := [
  0x428a2f98, 0x71374491, 0xb5c0fbcf, 0xe9b5dba5,
  0x3956c25b, 0x59f111f1, 0x923f82a4, 0xab1c5ed5,
  0xd807aa98, 0x12835b01, 0x243185be, 0x550c7dc3,
  0x72be5d74, 0x80deb1fe, 0x9bdc06a7, 0xc19bf174,
  0xe49b69c1, 0xefbe4786, 0x0fc19dc6, 0x240ca1cc,
  0x2de92c6f, 0x4a7484aa, 0x5cb0a9dc, 0x76f988da,
  0x983e5152, 0xa831c66d, 0xb00327c8, 0xbf597fc7,
  0xc6e00bf3, 0xd5a79147, 0x06ca6351, 0x14292967,
  0x27b70a85, 0x2e1b2138, 0x4d2c6dfc, 0x53380d13,
  0x650a7354, 0x766a0abb, 0x81c2c92e, 0x92722c85,
  0xa2bfe8a1, 0xa81a664b, 0xc24b8b70, 0xc76c51a3,
  0xd192e819, 0xd6990624, 0xf40e3585, 0x106aa070,
  0x19a4c116, 0x1e376c08, 0x2748774c, 0x34b0bcb5,
  0x391c0cb3, 0x4ed8aa4a, 0x5b9cca4f, 0x682e6ff3,
  0x748f82ee, 0x78a5636f, 0x84c87814, 0x8cc70208,
  0x90befffa, 0xa4506ceb, 0xbef9a3f7, 0xc67178f2]

/-- The eight words of the state. -/
structure State where
  a : UInt32
  b : UInt32
  c : UInt32
  d : UInt32
  e : UInt32
  f : UInt32
  g : UInt32
  h : UInt32
deriving DecidableEq, Repr, Inhabited

namespace State

/-- The first state: the first 32 bits of the fractional parts of the square
roots of the first eight primes. -/
def initial : State :=
  ⟨0x6a09e667, 0xbb67ae85, 0x3c6ef372, 0xa54ff53a,
    0x510e527f, 0x9b05688c, 0x1f83d9ab, 0x5be0cd19⟩

/-- The sum of two states, word by word. -/
def add (s t : State) : State :=
  ⟨s.a + t.a, s.b + t.b, s.c + t.c, s.d + t.d,
    s.e + t.e, s.f + t.f, s.g + t.g, s.h + t.h⟩

/-- The words of a state in order. -/
def words (s : State) : List UInt32 :=
  [s.a, s.b, s.c, s.d, s.e, s.f, s.g, s.h]

end State

/-- The word with its bits turned to the right. -/
def rotateRight (word n : UInt32) : UInt32 :=
  (word >>> n) ||| (word <<< (32 - n))

/-- The first mixing function of the schedule. -/
def smallSigma0 (w : UInt32) : UInt32 :=
  rotateRight w 7 ^^^ rotateRight w 18 ^^^ (w >>> 3)

/-- The second mixing function of the schedule. -/
def smallSigma1 (w : UInt32) : UInt32 :=
  rotateRight w 17 ^^^ rotateRight w 19 ^^^ (w >>> 10)

/-- The first mixing function of the rounds. -/
def bigSigma0 (w : UInt32) : UInt32 :=
  rotateRight w 2 ^^^ rotateRight w 13 ^^^ rotateRight w 22

/-- The second mixing function of the rounds. -/
def bigSigma1 (w : UInt32) : UInt32 :=
  rotateRight w 6 ^^^ rotateRight w 11 ^^^ rotateRight w 25

/-- Takes each bit from `y` where `x` has a one, and from `z` elsewhere. -/
def choose (x y z : UInt32) : UInt32 :=
  (x &&& y) ^^^ (~~~x &&& z)

/-- Takes each bit as most of the three words have it. -/
def majority (x y z : UInt32) : UInt32 :=
  (x &&& y) ^^^ (x &&& z) ^^^ (y &&& z)

/-- One round. -/
def round (s : State) (constant word : UInt32) : State :=
  let t1 := s.h + bigSigma1 s.e + choose s.e s.f s.g + constant + word
  let t2 := bigSigma0 s.a + majority s.a s.b s.c
  ⟨t1 + t2, s.a, s.b, s.c, s.d + t1, s.e, s.f, s.g⟩

/-- Extends a schedule by one word, from the words 16, 15, 7 and 2 places before
it. -/
def extendSchedule (schedule : Array UInt32) : Array UInt32 :=
  let back (n : Nat) : UInt32 := schedule.getD (schedule.size - n) 0
  schedule.push (smallSigma1 (back 2) + back 7 + smallSigma0 (back 15) +
    back 16)

/-- The schedule of a block: its sixteen words and 48 more. -/
def schedule (block : List UInt32) : List UInt32 :=
  (Nat.repeat extendSchedule 48 block.toArray).toList

/-- The state after a block. -/
def compress (state : State) (block : List UInt32) : State :=
  let rounds := roundConstants.zip (schedule block)
  state.add (rounds.foldl (fun s round => Sha256.round s round.1 round.2) state)

/-- The `count` lowest bytes of a number, the highest of them first. -/
def bigEndian (count n : Nat) : List UInt8 :=
  (List.range count).reverse.map fun i => UInt8.ofNat (n >>> (8 * i))

/-- A message filled up to whole blocks of 64 bytes: a byte with its highest bit
set, zeros, and the length of the message in bits. -/
def pad (message : List UInt8) : List UInt8 :=
  let zeros := (119 - message.length % 64) % 64
  message ++ 0x80 :: List.replicate zeros 0 ++ bigEndian 8 (8 * message.length)

/-- The words that bytes say, four bytes each. -/
def wordsOfBytes : List UInt8 → List UInt32
  | a :: b :: c :: d :: rest =>
    (a.toUInt32 <<< 24 ||| b.toUInt32 <<< 16 ||| c.toUInt32 <<< 8 |||
      d.toUInt32) :: wordsOfBytes rest
  | _ => []

/-- The state after all blocks of a padded message. -/
def compressAll (state : State) (words : List UInt32) : State :=
  if words.isEmpty then state
  else compressAll (compress state (words.take 16)) (words.drop 16)
termination_by words.length
decreasing_by
  cases words with
  | nil => contradiction
  | cons w ws =>
      rw [List.length_drop, List.length_cons]
      omega

/-- The digest of a message. -/
def digest (message : List UInt8) : List UInt8 :=
  (compressAll .initial (wordsOfBytes (pad message))).words.flatMap fun w =>
    bigEndian 4 w.toNat

/-- A byte as two hexadecimal digits in lower case. -/
def hexByte (byte : UInt8) : List Char :=
  [Nat.digitChar (byte.toNat / 16), Nat.digitChar (byte.toNat % 16)]

/-- The digest of a text in UTF-8, in hexadecimal digits. -/
def hexDigest (text : String) : String :=
  String.ofList ((digest text.toUTF8.toList).flatMap hexByte)

end Sha256

end ConceptLang
