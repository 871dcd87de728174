/-!
# A 64-bit digest of bytes

A multiplicative digest: the bytes are read as little-endian words into two lanes, the lanes are folded through a
128-bit product, and the result is spread by one multiplication and a rotation.  It is no cryptographic hash; two
texts may share a digest.

* `digest` : the 64-bit digest.
* `checksum` : its two halves combined into 32 bits.
-/

namespace BoundSql.Digest

/-- Little-endian number of the first `count` bytes. -/
def littleEndian (count : Nat) (bytes : List UInt8) : UInt64 :=
  (bytes.take count).foldr (fun b n => n <<< 8 ||| b.toUInt64) 0

/-- Low half of the 128-bit product, combined with its high half. -/
def mix (x y : UInt64) : UInt64 :=
  let product := x.toNat * y.toNat
  UInt64.ofNat product ^^^ UInt64.ofNat (product >>> 64)

/-- Fractional bits of pi that the lanes start from, and that keep zeros in a chunk from cancelling the product. -/
def seed0 : UInt64 := 0x243f6a8885a308d3
def seed1 : UInt64 := 0x13198a2e03707344
def guardWord : UInt64 := 0xa4093822299f31d0

/-- Odd factor of the last multiplication. -/
def factor : UInt64 := 0xf1357aea2e62a9c5

/-- Lanes after every full chunk of sixteen bytes that at least one byte follows. -/
def foldChunks (bytes : List UInt8) (lanes : UInt64 × UInt64) : UInt64 × UInt64 :=
  if 16 < bytes.length then
    let next := mix (lanes.1 ^^^ littleEndian 8 bytes) (guardWord ^^^ littleEndian 8 (bytes.drop 8))
    foldChunks (bytes.drop 16) (lanes.2, next)
  else lanes
termination_by bytes.length
decreasing_by simp; omega

/-- Lanes of at most sixteen bytes, the first and the last words of which may overlap. -/
def shortLanes (bytes : List UInt8) : UInt64 × UInt64 :=
  let n := bytes.length
  if 8 ≤ n then (seed0 ^^^ littleEndian 8 bytes, seed1 ^^^ littleEndian 8 (bytes.drop (n - 8)))
  else if 4 ≤ n then (seed0 ^^^ littleEndian 4 bytes, seed1 ^^^ littleEndian 4 (bytes.drop (n - 4)))
  else if 0 < n then
    (seed0 ^^^ littleEndian 1 bytes,
      seed1 ^^^ (littleEndian 1 (bytes.drop (n - 1)) <<< 8 ||| littleEndian 1 (bytes.drop (n / 2))))
  else (seed0, seed1)

/-- Lanes of more than sixteen bytes: the chunks, then the last sixteen bytes. -/
def longLanes (bytes : List UInt8) : UInt64 × UInt64 :=
  let (s0, s1) := foldChunks bytes (seed0, seed1)
  let tail := bytes.drop (bytes.length - 16)
  (s0 ^^^ littleEndian 8 tail, s1 ^^^ littleEndian 8 (tail.drop 8))

/-- Digest of a sequence of bytes. -/
def digest (bytes : List UInt8) : UInt64 :=
  let (s0, s1) := if bytes.length ≤ 16 then shortLanes bytes else longLanes bytes
  let spread := (mix s0 s1 ^^^ UInt64.ofNat bytes.length) * factor
  spread <<< 26 ||| spread >>> 38

/-- Both halves of a text's digest, combined. -/
def checksum (text : String) : UInt32 :=
  let d := digest text.toUTF8.data.toList
  (d ^^^ d >>> 32).toUInt32

end BoundSql.Digest
