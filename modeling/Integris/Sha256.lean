import Integris.Bytes

/-! SHA-256 as an executable function on byte strings. Words are naturals below
`2 ^ 32`; a block is consumed together with a sliding window of the message
schedule. Proofs elsewhere never look inside `sha256`. -/
namespace Integris

abbrev Digest := Fixed 32

namespace Sha256

def word (n : Nat) : Nat := n % 2 ^ 32
def rotr (x n : Nat) : Nat := word (x >>> n ||| x <<< (32 - n))
def bigSigma0 (x : Nat) : Nat := rotr x 2 ^^^ rotr x 13 ^^^ rotr x 22
def bigSigma1 (x : Nat) : Nat := rotr x 6 ^^^ rotr x 11 ^^^ rotr x 25
def smallSigma0 (x : Nat) : Nat := rotr x 7 ^^^ rotr x 18 ^^^ (x >>> 3)
def smallSigma1 (x : Nat) : Nat := rotr x 17 ^^^ rotr x 19 ^^^ (x >>> 10)
def choose (x y z : Nat) : Nat := (x &&& y) ^^^ ((x ^^^ (2 ^ 32 - 1)) &&& z)
def majority (x y z : Nat) : Nat := (x &&& y) ^^^ (x &&& z) ^^^ (y &&& z)

def constants : List Nat := [
  0x428a2f98, 0x71374491, 0xb5c0fbcf, 0xe9b5dba5, 0x3956c25b, 0x59f111f1, 0x923f82a4, 0xab1c5ed5,
  0xd807aa98, 0x12835b01, 0x243185be, 0x550c7dc3, 0x72be5d74, 0x80deb1fe, 0x9bdc06a7, 0xc19bf174,
  0xe49b69c1, 0xefbe4786, 0x0fc19dc6, 0x240ca1cc, 0x2de92c6f, 0x4a7484aa, 0x5cb0a9dc, 0x76f988da,
  0x983e5152, 0xa831c66d, 0xb00327c8, 0xbf597fc7, 0xc6e00bf3, 0xd5a79147, 0x06ca6351, 0x14292967,
  0x27b70a85, 0x2e1b2138, 0x4d2c6dfc, 0x53380d13, 0x650a7354, 0x766a0abb, 0x81c2c92e, 0x92722c85,
  0xa2bfe8a1, 0xa81a664b, 0xc24b8b70, 0xc76c51a3, 0xd192e819, 0xd6990624, 0xf40e3585, 0x106aa070,
  0x19a4c116, 0x1e376c08, 0x2748774c, 0x34b0bcb5, 0x391c0cb3, 0x4ed8aa4a, 0x5b9cca4f, 0x682e6ff3,
  0x748f82ee, 0x78a5636f, 0x84c87814, 0x8cc70208, 0x90befffa, 0xa4506ceb, 0xbef9a3f7, 0xc67178f2]

structure State where
  (a b c d e f g h : Nat)
  deriving DecidableEq, Repr

def start : State :=
  ⟨0x6a09e667, 0xbb67ae85, 0x3c6ef372, 0xa54ff53a, 0x510e527f, 0x9b05688c, 0x1f83d9ab, 0x5be0cd19⟩

def round (s : State) (k w : Nat) : State :=
  let t1 := s.h + bigSigma1 s.e + choose s.e s.f s.g + k + w
  let t2 := bigSigma0 s.a + majority s.a s.b s.c
  ⟨word (t1 + t2), s.a, s.b, s.c, word (s.d + t1), s.e, s.f, s.g⟩

/-- One step per constant. `recent` holds the last sixteen schedule words, newest
first; once the block's own words are used up the next one comes from them. -/
def rounds : List Nat → List Nat → List Nat → State → State
  | [], _, _, s => s
  | k :: ks, w :: ws, recent, s => rounds ks ws (w :: recent.take 15) (round s k w)
  | k :: ks, [], recent, s =>
    let w := word (smallSigma1 (recent.getD 1 0) + recent.getD 6 0 +
      smallSigma0 (recent.getD 14 0) + recent.getD 15 0)
    rounds ks [] (w :: recent.take 15) (round s k w)

def words : Bytes → List Nat
  | a :: b :: c :: d :: rest => beNat [a, b, c, d] :: words rest
  | _ => []

def compress (s : State) (block : Bytes) : State :=
  let t := rounds constants (words block) [] s
  ⟨word (s.a + t.a), word (s.b + t.b), word (s.c + t.c), word (s.d + t.d),
    word (s.e + t.e), word (s.f + t.f), word (s.g + t.g), word (s.h + t.h)⟩

def blocks : Nat → Bytes → State → State
  | 0, _, s => s
  | n + 1, b, s => blocks n (b.drop 64) (compress s (b.take 64))

def pad (m : Bytes) : Bytes :=
  m ++ 0x80 :: List.replicate ((119 - m.length % 64) % 64) 0 ++ beBytes 8 (8 * m.length)

def final (s : State) : Bytes :=
  beBytes 4 s.a ++ beBytes 4 s.b ++ beBytes 4 s.c ++ beBytes 4 s.d ++
    beBytes 4 s.e ++ beBytes 4 s.f ++ beBytes 4 s.g ++ beBytes 4 s.h

end Sha256

/-- `codec.SHA256`. -/
def sha256 (data : Bytes) : Digest :=
  let p := Sha256.pad data
  ⟨Sha256.final (Sha256.blocks (p.length / 64) p Sha256.start), by simp [Sha256.final]⟩

example : (sha256 (ascii "abc")).val.take 4 = [0xba, 0x78, 0x16, 0xbf] := by decide +kernel

/-- `codec.GenesisCommitment`: the zero digest. -/
def genesisCommitment : Digest := Fixed.zero 32

end Integris
