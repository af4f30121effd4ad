/-!
# A seeded 64-bit hash of bytes

`Hash.digest` mixes a string of bytes and a seed into one 64-bit word. The bytes are consumed
in blocks of 32 through four lanes, and what is left in words of 8, 4 and 1 byte; all arithmetic
is modulo 2^64 and words are read with the low byte first.
-/

namespace ExprLowering.Hash

/-- The first mixing constant. -/
def prime1 : UInt64 := 0x9E3779B185EBCA87

/-- The second mixing constant. -/
def prime2 : UInt64 := 0xC2B2AE3D27D4EB4F

/-- The third mixing constant. -/
def prime3 : UInt64 := 0x165667B19E3779F9

/-- The fourth mixing constant. -/
def prime4 : UInt64 := 0x85EBCA77C2B2AE63

/-- The fifth mixing constant. -/
def prime5 : UInt64 := 0x27D4EB2F165667C5

/-- Rotates a word to the left by `n` bits, for `0 < n < 64`. -/
def rotate (w : UInt64) (n : UInt64) : UInt64 := (w <<< n) ||| (w >>> (64 - n))

/-- The word that the bytes spell, low byte first. -/
def word (bytes : List UInt8) : UInt64 :=
  bytes.foldr (fun b acc => (acc <<< 8) ||| b.toUInt64) 0

/-- Takes one word into a lane. -/
def round (lane input : UInt64) : UInt64 := rotate (lane + input * prime2) 31 * prime1

/-- The four lanes that long inputs run through. -/
structure Lanes where
  a : UInt64
  b : UInt64
  c : UInt64
  d : UInt64

namespace Lanes

/-- The lanes before any input. -/
def start (seed : UInt64) : Lanes :=
  ⟨seed + prime1 + prime2, seed + prime2, seed, seed - prime1⟩

/-- Takes a block of 32 bytes into the lanes, eight bytes for each. -/
def absorb (l : Lanes) (block : List UInt8) : Lanes where
  a := round l.a (word (block.take 8))
  b := round l.b (word ((block.drop 8).take 8))
  c := round l.c (word ((block.drop 16).take 8))
  d := round l.d (word ((block.drop 24).take 8))

/-- Folds one lane into the accumulator. -/
def fold (acc lane : UInt64) : UInt64 := (acc ^^^ round 0 lane) * prime1 + prime4

/-- Combines the four lanes into one accumulator. -/
def combine (l : Lanes) : UInt64 :=
  [l.a, l.b, l.c, l.d].foldl fold
    (rotate l.a 1 + rotate l.b 7 + rotate l.c 12 + rotate l.d 18)

end Lanes

/-- Runs all whole blocks through the lanes; what is left is shorter than a block. -/
def blocks (lanes : Lanes) (bytes : List UInt8) : Lanes × List UInt8 :=
  if bytes.length < 32 then (lanes, bytes)
  else blocks (lanes.absorb (bytes.take 32)) (bytes.drop 32)
termination_by bytes.length
decreasing_by simp only [List.length_drop]; omega

/-- Takes the bytes that no block covers: words of eight bytes, one of four, then single bytes. -/
def tail (acc : UInt64) : List UInt8 → UInt64
  | b0 :: b1 :: b2 :: b3 :: b4 :: b5 :: b6 :: b7 :: rest =>
    let acc := acc ^^^ round 0 (word [b0, b1, b2, b3, b4, b5, b6, b7])
    tail (rotate acc 27 * prime1 + prime4) rest
  | b0 :: b1 :: b2 :: b3 :: rest =>
    let acc := acc ^^^ (word [b0, b1, b2, b3] * prime1)
    tail (rotate acc 23 * prime2 + prime3) rest
  | b :: rest => tail (rotate (acc ^^^ (b.toUInt64 * prime5)) 11 * prime1) rest
  | [] => acc

/-- The last scrambling of the accumulator. -/
def avalanche (acc : UInt64) : UInt64 :=
  let acc := (acc ^^^ (acc >>> 33)) * prime2
  let acc := (acc ^^^ (acc >>> 29)) * prime3
  acc ^^^ (acc >>> 32)

/-- The hash of `bytes` under `seed`. -/
def digest (seed : UInt64) (bytes : List UInt8) : UInt64 :=
  let (acc, rest) :=
    if bytes.length < 32 then (seed + prime5, bytes)
    else
      let (lanes, rest) := blocks (Lanes.start seed) bytes
      (lanes.combine, rest)
  avalanche (tail (acc + UInt64.ofNat bytes.length) rest)

end ExprLowering.Hash
