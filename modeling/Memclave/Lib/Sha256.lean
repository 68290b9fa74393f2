/-
SHA-256 on byte strings, with its digest as the eight words
that a little-endian reader finds.
-/
import Memclave.Lib.Bytes

namespace Sha256

open Words

/-- The first 32 bits of the fractional parts of the square roots of the first 8 primes. -/
def initial : List Word :=
  [0x6a09e667, 0xbb67ae85, 0x3c6ef372, 0xa54ff53a, 0x510e527f, 0x9b05688c, 0x1f83d9ab, 0x5be0cd19]

/-- And of the cube roots of the first 64. -/
def constants : List Word := [
  0x428a2f98, 0x71374491, 0xb5c0fbcf, 0xe9b5dba5, 0x3956c25b, 0x59f111f1, 0x923f82a4, 0xab1c5ed5,
  0xd807aa98, 0x12835b01, 0x243185be, 0x550c7dc3, 0x72be5d74, 0x80deb1fe, 0x9bdc06a7, 0xc19bf174,
  0xe49b69c1, 0xefbe4786, 0x0fc19dc6, 0x240ca1cc, 0x2de92c6f, 0x4a7484aa, 0x5cb0a9dc, 0x76f988da,
  0x983e5152, 0xa831c66d, 0xb00327c8, 0xbf597fc7, 0xc6e00bf3, 0xd5a79147, 0x06ca6351, 0x14292967,
  0x27b70a85, 0x2e1b2138, 0x4d2c6dfc, 0x53380d13, 0x650a7354, 0x766a0abb, 0x81c2c92e, 0x92722c85,
  0xa2bfe8a1, 0xa81a664b, 0xc24b8b70, 0xc76c51a3, 0xd192e819, 0xd6990624, 0xf40e3585, 0x106aa070,
  0x19a4c116, 0x1e376c08, 0x2748774c, 0x34b0bcb5, 0x391c0cb3, 0x4ed8aa4a, 0x5b9cca4f, 0x682e6ff3,
  0x748f82ee, 0x78a5636f, 0x84c87814, 0x8cc70208, 0x90befffa, 0xa4506ceb, 0xbef9a3f7, 0xc67178f2]

/-- The next word of the schedule, from the words before it, the latest first. -/
def nextWord (w : List Word) : Word :=
  let a := w.getD 1 0
  let b := w.getD 14 0
  (a.rotateRight 17 ^^^ a.rotateRight 19 ^^^ (a >>> 10)) + w.getD 6 0 +
    (b.rotateRight 7 ^^^ b.rotateRight 18 ^^^ (b >>> 3)) + w.getD 15 0

def schedule (block : List Word) : List Word :=
  ((List.range 48).foldl (fun w _ => nextWord w :: w) block.reverse).reverse

/-- A round, with the word of the schedule and its constant added. -/
def round (v : List Word) (kw : Word) : List Word :=
  let e := v.getD 4 0
  let a := v.getD 0 0
  let t1 := v.getD 7 0 + (e.rotateRight 6 ^^^ e.rotateRight 11 ^^^ e.rotateRight 25) +
    ((e &&& v.getD 5 0) ^^^ (~~~e &&& v.getD 6 0)) + kw
  let t2 := (a.rotateRight 2 ^^^ a.rotateRight 13 ^^^ a.rotateRight 22) +
    ((a &&& v.getD 1 0) ^^^ (a &&& v.getD 2 0) ^^^ (v.getD 1 0 &&& v.getD 2 0))
  [t1 + t2, a, v.getD 1 0, v.getD 2 0, v.getD 3 0 + t1, e, v.getD 5 0, v.getD 6 0]

def compress (h block : List Word) : List Word :=
  List.zipWith (· + ·) h ((List.zipWith (· + ·) constants (schedule block)).foldl round h)

/-- The bytes of a word in the other order. -/
def swap (w : Word) : Word := byteAt w 0 ++ byteAt w 1 ++ byteAt w 2 ++ byteAt w 3

/-- The string with a one, zeros and its length in bits. -/
def pad (b : Bytes) : Bytes :=
  b ++ [0x80] ++ zeros ((119 - b.length % 64) % 64) ++
    (List.range 8).map fun i => BitVec.ofNat 8 (8 * b.length / 2 ^ (8 * (7 - i)))

def digest (b : Bytes) : Fin 8 → Word :=
  let w := (wordsOf (pad b)).map swap
  let h := (List.range (w.length / 16)).foldl (fun h i => compress h ((w.drop (16 * i)).take 16)) initial
  fun i => swap (h.getD i 0)

/-- Of `abc`. -/
example : List.ofFn (digest [0x61, 0x62, 0x63]) =
    [0xba7816bf, 0x8f01cfea, 0x414140de, 0x5dae2223, 0xb00361a3, 0x96177a9c, 0xb410ff61, 0xf20015ad].map swap := by
  decide +kernel

end Sha256
