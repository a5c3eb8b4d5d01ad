/-!
# SipHash

The keyed hash SipHash with one compression round for each word and three final rounds,
under the zero key. A message is cut into 64-bit words, low byte first; the last word holds
the bytes left over and, in its highest byte, the length of the message modulo 256.
-/

namespace ConfigLedger

namespace Sip

/-- The four words of the hash state. -/
structure State where
  v0 : UInt64
  v1 : UInt64
  v2 : UInt64
  v3 : UInt64

/-- The state before a message, under the zero key. -/
def initial : State :=
  ⟨0x736f6d6570736575, 0x646f72616e646f6d, 0x6c7967656e657261, 0x7465646279746573⟩

/-- Rotates a word to the left. -/
private def rotate (x amount : UInt64) : UInt64 :=
  (x <<< amount) ||| (x >>> (64 - amount))

/-- One round of mixing. -/
def round (s : State) : State :=
  let v0 := s.v0 + s.v1
  let v1 := rotate s.v1 13 ^^^ v0
  let v0 := rotate v0 32
  let v2 := s.v2 + s.v3
  let v3 := rotate s.v3 16 ^^^ v2
  let v0 := v0 + v3
  let v3 := rotate v3 21 ^^^ v0
  let v2 := v2 + v1
  let v1 := rotate v1 17 ^^^ v2
  let v2 := rotate v2 32
  ⟨v0, v1, v2, v3⟩

/-- Mixes one word of the message in. -/
def absorb (s : State) (word : UInt64) : State :=
  let s := round { s with v3 := s.v3 ^^^ word }
  { s with v0 := s.v0 ^^^ word }

/-- The hash value of a state after the last word. -/
def finish (s : State) : UInt64 :=
  let s := round (round (round { s with v2 := s.v2 ^^^ 0xff }))
  s.v0 ^^^ s.v1 ^^^ s.v2 ^^^ s.v3

/-- The word of at most eight bytes, low byte first. -/
def word : List UInt8 → UInt64
  | [] => 0
  | b :: rest => b.toUInt64 ||| (word rest <<< 8)

/-- Mixes the bytes of a message in, the length of the whole message being given. -/
def absorbAll (length : Nat) (s : State) : List UInt8 → State
  | b0 :: b1 :: b2 :: b3 :: b4 :: b5 :: b6 :: b7 :: rest =>
    absorbAll length (absorb s (word [b0, b1, b2, b3, b4, b5, b6, b7])) rest
  | rest => absorb s (word rest ||| (UInt64.ofNat length <<< 56))

/-- The hash of a message. -/
def hash (message : List UInt8) : UInt64 :=
  finish (absorbAll message.length initial message)

/-- The hash of a text: of its bytes, and of one byte more that occurs in no text. -/
def hashText (s : String) : UInt64 :=
  hash (s.toUTF8.toList ++ [0xff])

end Sip

end ConfigLedger
