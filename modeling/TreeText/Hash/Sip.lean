/-!
# SipHash

SipHash turns a list of bytes into a 64-bit number. Its state is four words. The bytes are taken
eight at a time as little-endian words; the last word holds the remaining bytes and, in its top
byte, the number of all bytes modulo 256. How many rounds of mixing follow a word, and how many end
the computation, are the two parameters of the family.
-/

namespace TreeText

/-- The state of four words. -/
structure Sip where
  v0 : UInt64
  v1 : UInt64
  v2 : UInt64
  v3 : UInt64
  deriving DecidableEq, Repr

namespace Sip

/-- The word with its bits moved up by `n` places, those that leave at the top coming back below. -/
def rotate (x : UInt64) (n : UInt64) : UInt64 := (x <<< n) ||| (x >>> (64 - n))

/-- The state at the start, for a key of two words. -/
def init (k0 k1 : UInt64) : Sip where
  v0 := k0 ^^^ 0x736f6d6570736575
  v1 := k1 ^^^ 0x646f72616e646f6d
  v2 := k0 ^^^ 0x6c7967656e657261
  v3 := k1 ^^^ 0x7465646279746573

/-- One round of mixing. -/
def round (s : Sip) : Sip :=
  let v0 := s.v0 + s.v1
  let v1 := rotate s.v1 13 ^^^ v0
  let v0 := rotate v0 32
  let v2 := s.v2 + s.v3
  let v3 := rotate s.v3 16 ^^^ v2
  let v0 := v0 + v3
  let v3 := rotate v3 21 ^^^ v0
  let v2 := v2 + v1
  let v1 := rotate v1 17 ^^^ v2
  let v2 := rotate v2 32
  ⟨v0, v1, v2, v3⟩

/-- `n` rounds of mixing. -/
def rounds : Nat → Sip → Sip
  | 0, s => s
  | n + 1, s => rounds n s.round

/-- Takes in one word, with `c` rounds. -/
def absorb (s : Sip) (c : Nat) (m : UInt64) : Sip :=
  let s := rounds c { s with v3 := s.v3 ^^^ m }
  { s with v0 := s.v0 ^^^ m }

/-- The result, after `d` last rounds. -/
def finish (s : Sip) (d : Nat) : UInt64 :=
  let s := rounds d { s with v2 := s.v2 ^^^ 0xff }
  s.v0 ^^^ s.v1 ^^^ s.v2 ^^^ s.v3

/-- The word whose bytes, the lowest first, are those of the list. -/
def word : List UInt8 → UInt64
  | [] => 0
  | b :: bs => b.toUInt64 ||| (word bs <<< 8)

/-- The last word: the bytes that are left, fewer than eight, below the number of all bytes. -/
def lastWord (length : Nat) (bs : List UInt8) : UInt64 :=
  word bs ||| ((length % 256).toUInt64 <<< 56)

/-- Takes in a list of bytes, with `c` rounds for each word; `length` is the number of all bytes. -/
def absorbAll (c length : Nat) (s : Sip) : List UInt8 → Sip
  | b0 :: b1 :: b2 :: b3 :: b4 :: b5 :: b6 :: b7 :: bs =>
    absorbAll c length (s.absorb c (word [b0, b1, b2, b3, b4, b5, b6, b7])) bs
  | bs => s.absorb c (lastWord length bs)

/-- The hash of a list of bytes with `c` rounds for each word and `d` at the end. -/
def hash (c d : Nat) (k0 k1 : UInt64) (bytes : List UInt8) : UInt64 :=
  (absorbAll c bytes.length (init k0 k1) bytes).finish d

end Sip

end TreeText
