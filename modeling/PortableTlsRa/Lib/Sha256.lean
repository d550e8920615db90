import PortableTlsRa.Lib.Bytes

/-!
# SHA-256

An executable SHA-256 on byte lists.  The round loop carries the window of the sixteen schedule words that are next
in use, so that it is one recursion over the list of round constants.
-/

namespace Sha256

open CSem

/-- The round constants. -/
def roundConstants : List UInt32 := [
  0x428a2f98, 0x71374491, 0xb5c0fbcf, 0xe9b5dba5, 0x3956c25b, 0x59f111f1, 0x923f82a4, 0xab1c5ed5,
  0xd807aa98, 0x12835b01, 0x243185be, 0x550c7dc3, 0x72be5d74, 0x80deb1fe, 0x9bdc06a7, 0xc19bf174,
  0xe49b69c1, 0xefbe4786, 0x0fc19dc6, 0x240ca1cc, 0x2de92c6f, 0x4a7484aa, 0x5cb0a9dc, 0x76f988da,
  0x983e5152, 0xa831c66d, 0xb00327c8, 0xbf597fc7, 0xc6e00bf3, 0xd5a79147, 0x06ca6351, 0x14292967,
  0x27b70a85, 0x2e1b2138, 0x4d2c6dfc, 0x53380d13, 0x650a7354, 0x766a0abb, 0x81c2c92e, 0x92722c85,
  0xa2bfe8a1, 0xa81a664b, 0xc24b8b70, 0xc76c51a3, 0xd192e819, 0xd6990624, 0xf40e3585, 0x106aa070,
  0x19a4c116, 0x1e376c08, 0x2748774c, 0x34b0bcb5, 0x391c0cb3, 0x4ed8aa4a, 0x5b9cca4f, 0x682e6ff3,
  0x748f82ee, 0x78a5636f, 0x84c87814, 0x8cc70208, 0x90befffa, 0xa4506ceb, 0xbef9a3f7, 0xc67178f2]

def rotr (x n : UInt32) : UInt32 := (x >>> n) ||| (x <<< (32 - n))

/-- The eight chaining words. -/
structure State where
  a : UInt32
  b : UInt32
  c : UInt32
  d : UInt32
  e : UInt32
  f : UInt32
  g : UInt32
  h : UInt32

namespace State

def initial : State :=
  ⟨0x6a09e667, 0xbb67ae85, 0x3c6ef372, 0xa54ff53a, 0x510e527f, 0x9b05688c, 0x1f83d9ab, 0x5be0cd19⟩

def add (s t : State) : State :=
  ⟨s.a + t.a, s.b + t.b, s.c + t.c, s.d + t.d, s.e + t.e, s.f + t.f, s.g + t.g, s.h + t.h⟩

/-- One round, on the sum of its constant and its schedule word. -/
def round (s : State) (kw : UInt32) : State :=
  let t1 := s.h + (rotr s.e 6 ^^^ rotr s.e 11 ^^^ rotr s.e 25) + ((s.e &&& s.f) ^^^ (~~~s.e &&& s.g)) + kw
  let t2 := (rotr s.a 2 ^^^ rotr s.a 13 ^^^ rotr s.a 22) + ((s.a &&& s.b) ^^^ (s.a &&& s.c) ^^^ (s.b &&& s.c))
  ⟨t1 + t2, s.a, s.b, s.c, s.d + t1, s.e, s.f, s.g⟩

def words (s : State) : List UInt32 := [s.a, s.b, s.c, s.d, s.e, s.f, s.g, s.h]

end State

/-- The schedule word sixteen places after the first of the window. -/
def scheduleNext (w : UInt32) (ws : List UInt32) : UInt32 :=
  let w1 := ws.getD 0 0
  let w14 := ws.getD 13 0
  let s0 := rotr w1 7 ^^^ rotr w1 18 ^^^ (w1 >>> 3)
  let s1 := rotr w14 17 ^^^ rotr w14 19 ^^^ (w14 >>> 10)
  s1 + ws.getD 8 0 + s0 + w

/-- The rounds of one block: a round for every constant, the window sliding by one word. -/
def rounds : List UInt32 → List UInt32 → State → State
  | k :: ks, w :: ws, s => rounds ks (ws ++ [scheduleNext w ws]) (s.round (k + w))
  | _, _, s => s

def compress (s : State) (block : List UInt32) : State := s.add (rounds roundConstants block s)

def wordBE (a b c d : UInt8) : UInt32 :=
  (a.toUInt32 <<< 24) ||| (b.toUInt32 <<< 16) ||| (c.toUInt32 <<< 8) ||| d.toUInt32

def wordsBE : Bytes → List UInt32
  | a :: b :: c :: d :: r => wordBE a b c d :: wordsBE r
  | _ => []

def bytesBE (w : UInt32) : Bytes := [(w >>> 24).toUInt8, (w >>> 16).toUInt8, (w >>> 8).toUInt8, w.toUInt8]

/-- Compress `n` blocks of sixteen words. -/
def blocks : Nat → List UInt32 → State → State
  | 0, _, s => s
  | n + 1, ws, s => blocks n (ws.drop 16) (compress s (ws.take 16))

/-- The number of zero bytes between the delimiter and the length. -/
def paddingZeros (size : Nat) : Nat := (119 - size % 64) % 64

def pad (message : Bytes) : Bytes :=
  message ++ 0x80 :: List.replicate (paddingZeros message.length) 0 ++
    (List.range 8).map fun i => UInt8.ofNat (8 * message.length / 256 ^ (7 - i))

def digest (message : Bytes) : Bytes :=
  let padded := pad message
  (blocks (padded.length / 64) (wordsBE padded) State.initial).words.flatMap bytesBE

@[simp] theorem digest_length (message : Bytes) : (digest message).length = 32 := by
  simp [digest, State.words, bytesBE]

/-- SHA-256 of a message. -/
def hash (message : Bytes) : ByteBuf 32 := ⟨digest message, digest_length message⟩

set_option maxRecDepth 20000 in
example : hash (lit "abc") = ⟨[
    0xba, 0x78, 0x16, 0xbf, 0x8f, 0x01, 0xcf, 0xea, 0x41, 0x41, 0x40, 0xde, 0x5d, 0xae, 0x22, 0x23,
    0xb0, 0x03, 0x61, 0xa3, 0x96, 0x17, 0x7a, 0x9c, 0xb4, 0x10, 0xff, 0x61, 0xf2, 0x00, 0x15, 0xad], rfl⟩ := by
  decide +kernel

end Sha256
