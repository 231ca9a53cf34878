import Mathlib.Data.Nat.Notation

/-!
# `hashmap_sip`

SipHash-2-4 as `SIP64` of `hashmap.c` computes it, which `tag_hash` calls on the bytes of a key.
-/

set_option autoImplicit false

namespace TagAos.Hashmap

/-- `ROTL`. -/
def rotl (x b : UInt64) : UInt64 := x <<< b ||| x >>> (64 - b)

/-- The four words that `SIP64` works on. -/
structure SipState where
  v0 : UInt64
  v1 : UInt64
  v2 : UInt64
  v3 : UInt64

/-- `SIPROUND`. -/
def sipRound (s : SipState) : SipState :=
  let v0 := s.v0 + s.v1
  let v1 := rotl s.v1 13 ^^^ v0
  let v0 := rotl v0 32
  let v2 := s.v2 + s.v3
  let v3 := rotl s.v3 16 ^^^ v2
  let v0 := v0 + v3
  let v3 := rotl v3 21 ^^^ v0
  let v2 := v2 + v1
  let v1 := rotl v1 17 ^^^ v2
  ⟨v0, v1, rotl v2 32, v3⟩

/-- What `SIP64` does with the word `m`. -/
def sipWord (s : SipState) (m : UInt64) : SipState :=
  let s := sipRound (sipRound { s with v3 := s.v3 ^^^ m })
  { s with v0 := s.v0 ^^^ m }

/-- Bytes as a number, the least significant first. -/
def littleEndian : List UInt8 → UInt64
  | [] => 0
  | b :: bs => b.toUInt64 ||| littleEndian bs <<< 8

/-- The loop of `SIP64` over whole words, and the bytes it leaves. -/
def sipWords (s : SipState) : List UInt8 → SipState × List UInt8
  | b0 :: b1 :: b2 :: b3 :: b4 :: b5 :: b6 :: b7 :: bs =>
    sipWords (sipWord s (littleEndian [b0, b1, b2, b3, b4, b5, b6, b7])) bs
  | bs => (s, bs)

/-- `SIP64`, that is `hashmap_sip`. -/
def sip64 (bytes : List UInt8) (seed0 seed1 : UInt64) : UInt64 :=
  let r := sipWords ⟨0x736f6d6570736575 ^^^ seed0, 0x646f72616e646f6d ^^^ seed1,
    0x6c7967656e657261 ^^^ seed0, 0x7465646279746573 ^^^ seed1⟩ bytes
  -- the bytes that are left, below the length
  let s := sipWord r.1 (UInt64.ofNat bytes.length <<< 56 ||| littleEndian r.2)
  let s := sipRound (sipRound (sipRound (sipRound { s with v2 := s.v2 ^^^ 0xff })))
  s.v0 ^^^ s.v1 ^^^ s.v2 ^^^ s.v3

-- the known value for fifteen bytes 00 .. 0e under the key 00 .. 0f
example : sip64 [0, 1, 2, 3, 4, 5, 6, 7, 8, 9, 10, 11, 12, 13, 14] 0x0706050403020100
    0x0f0e0d0c0b0a0908 = 0xa129ca6149be45e5 := by decide +kernel

end TagAos.Hashmap
