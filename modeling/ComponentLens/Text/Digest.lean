/-
# Content digests

The 64-bit XXH3 digest with seed zero. Two texts with different digests differ; a build cache takes
equal digests as a sign of equal texts.

The input is read as little-endian words. Four schemes share the work by length: up to 16 bytes,
up to 128, up to 240, and blocks of 1024 bytes for anything longer.
-/

namespace ComponentLens.Digest

/-! ## 1. Constants -/

/-- The fixed key material, eight bytes to a word, lowest byte first. -/
def secretWords : List UInt64 :=
  [0xbe4ba423396cfeb8, 0x1cad21f72c81017c, 0xdb979083e96dd4de, 0x1f67b3b7a4a44072,
   0x78e5c0cc4ee679cb, 0x2172ffcc7dd05a82, 0x8e2443f7744608b8, 0x4c263a81e69035e0,
   0xcb00c391bb52283c, 0xa32e531b8b65d088, 0x4ef90da297486471, 0xd8acdea946ef1938,
   0x3f349ce33f76faa8, 0x1d4f0bc7c7bbdcf9, 0x3159b4cd4be0518a, 0x647378d9c97e9fc8,
   0xc3ebd33483acc5ea, 0xeb6313faffa081c5, 0x49daf0b751dd0d17, 0x9e68d429265516d3,
   0xfca1477d58be162b, 0xce31d07ad1b8f88f, 0x280416958f3acb45, 0x7e404bbbcafbd7af]

def prime32a : UInt64 := 0x9E3779B1
def prime32b : UInt64 := 0x85EBCA77
def prime32c : UInt64 := 0xC2B2AE3D
def prime64a : UInt64 := 0x9E3779B185EBCA87
def prime64b : UInt64 := 0xC2B2AE3D27D4EB4F
def prime64c : UInt64 := 0x165667B19E3779F9
def prime64d : UInt64 := 0x85EBCA77C2B2AE63
def prime64e : UInt64 := 0x27D4EB2F165667C5
def mixPrimeA : UInt64 := 0x165667919E3779F9
def mixPrimeB : UInt64 := 0x9FB21C651E98DF25

/-! ## 2. Reading words -/

/-- The byte at an index, zero past the end. -/
def byteAt (data : ByteArray) (i : Nat) : UInt64 := (data.data[i]?.getD 0).toUInt64

/-- The `n` bytes from index `i` on as a number, lowest byte first. -/
def wordAt (data : ByteArray) (i : Nat) : Nat → UInt64
  | 0 => 0
  | n + 1 => byteAt data i ||| (wordAt data (i + 1) n <<< 8)

/-- Eight bytes of the input. -/
def read64 (data : ByteArray) (i : Nat) : UInt64 := wordAt data i 8

/-- Four bytes of the input. -/
def read32 (data : ByteArray) (i : Nat) : UInt64 := wordAt data i 4

/-- The key material as bytes. -/
def secret : ByteArray :=
  ⟨(secretWords.flatMap fun w => (List.range 8).map fun k => (w >>> (8 * k).toUInt64).toUInt8).toArray⟩

/-- Eight bytes of the key material. -/
def key64 (i : Nat) : UInt64 := read64 secret i

/-! ## 3. Mixing -/

/-- A rotation to the left. -/
def rotateLeft (x n : UInt64) : UInt64 := (x <<< n) ||| (x >>> (64 - n))

/-- The bytes of a word in the opposite order. -/
def swapBytes (x : UInt64) : UInt64 :=
  (List.range 8).foldl (fun acc k => (acc <<< 8) ||| ((x >>> (8 * k).toUInt64) &&& 0xFF)) 0

/-- The two halves of the 128-bit product, combined. -/
def foldProduct (x y : UInt64) : UInt64 :=
  let product := x.toNat * y.toNat
  product.toUInt64 ^^^ (product >>> 64).toUInt64

/-- The final mix of the longer schemes. -/
def avalanche (h : UInt64) : UInt64 :=
  let h := h ^^^ (h >>> 37)
  let h := h * mixPrimeA
  h ^^^ (h >>> 32)

/-- The final mix of the shortest schemes. -/
def shortAvalanche (h : UInt64) : UInt64 :=
  let h := (h ^^^ (h >>> 33)) * prime64b
  let h := (h ^^^ (h >>> 29)) * prime64c
  h ^^^ (h >>> 32)

/-- Sixteen bytes of input under sixteen bytes of key. -/
def mix16 (data : ByteArray) (i k : Nat) : UInt64 :=
  foldProduct (read64 data i ^^^ key64 k) (read64 data (i + 8) ^^^ key64 (k + 8))

/-! ## 4. The four schemes -/

/-- At most sixteen bytes. -/
def short (data : ByteArray) (len : Nat) : UInt64 :=
  if len = 0 then shortAvalanche (key64 56 ^^^ key64 64)
  else if len ≤ 3 then
    let combined := (byteAt data 0 <<< 16) ||| (byteAt data (len / 2) <<< 24) |||
      byteAt data (len - 1) ||| (len.toUInt64 <<< 8)
    shortAvalanche (combined ^^^ (read32 secret 0 ^^^ read32 secret 4))
  else if len ≤ 8 then
    let input := read32 data (len - 4) + (read32 data 0 <<< 32)
    let h := input ^^^ (key64 8 ^^^ key64 16)
    let h := h ^^^ (rotateLeft h 49 ^^^ rotateLeft h 24)
    let h := h * mixPrimeB
    let h := h ^^^ ((h >>> 35) + len.toUInt64)
    let h := h * mixPrimeB
    h ^^^ (h >>> 28)
  else
    let low := read64 data 0 ^^^ (key64 24 ^^^ key64 32)
    let high := read64 data (len - 8) ^^^ (key64 40 ^^^ key64 48)
    avalanche (len.toUInt64 + swapBytes low + high + foldProduct low high)

/-- From 17 to 128 bytes: pairs of sixteen bytes from both ends inwards. -/
def medium (data : ByteArray) (len : Nat) : UInt64 :=
  let pairs := (len + 31) / 32
  avalanche <| (List.range pairs).foldl
    (fun acc k =>
      acc + mix16 data (16 * k) (32 * k) + mix16 data (len - 16 * (k + 1)) (32 * k + 16))
    (len.toUInt64 * prime64a)

/-- From 129 to 240 bytes: sixteen bytes at a time, the key starting over after eight. -/
def long (data : ByteArray) (len : Nat) : UInt64 :=
  let first := (List.range 8).foldl (fun acc k => acc + mix16 data (16 * k) (16 * k))
    (len.toUInt64 * prime64a)
  let rest := (List.range (len / 16 - 8)).foldl
    (fun acc k => acc + mix16 data (16 * (k + 8)) (16 * k + 3)) (avalanche first)
  avalanche (rest + mix16 data (len - 16) 119)

/-- The eight running sums before the first stripe. -/
def initialSums : List UInt64 :=
  [prime32c, prime64a, prime64b, prime64c, prime64d, prime32b, prime64e, prime32a]

/-- Adds a stripe of 64 bytes: each word goes to its neighbour's sum, and the product of the halves
of the keyed word to its own. -/
def addStripe (data : ByteArray) (i k : Nat) (sums : List UInt64) : List UInt64 :=
  sums.mapIdx fun (lane : Nat) (sum : UInt64) =>
    let keyed : UInt64 := read64 data (i + 8 * lane) ^^^ key64 (k + 8 * lane)
    sum + read64 data (i + 8 * (lane ^^^ 1)) + (keyed &&& (0xFFFFFFFF : UInt64)) * (keyed >>> 32)

/-- Stirs the sums at the end of a block. -/
def scramble (sums : List UInt64) : List UInt64 :=
  sums.mapIdx fun (lane : Nat) (sum : UInt64) => (sum ^^^ (sum >>> 47) ^^^ key64 (128 + 8 * lane)) * prime32a

/-- The sums in neighbouring pairs, each folded under its key. -/
def mergeSums (k : Nat) : List UInt64 → UInt64
  | x :: y :: rest => foldProduct (x ^^^ key64 k) (y ^^^ key64 (k + 8)) + mergeSums (k + 16) rest
  | _ => 0

/-- More than 240 bytes: blocks of sixteen stripes, what is left of the last block, and the last
64 bytes once more. -/
def streamed (data : ByteArray) (len : Nat) : UInt64 :=
  let blocks := (len - 1) / 1024
  let sums := (List.range blocks).foldl
    (fun sums b => scramble <|
      (List.range 16).foldl (fun sums s => addStripe data (1024 * b + 64 * s) (8 * s) sums) sums)
    initialSums
  let sums := (List.range ((len - 1 - 1024 * blocks) / 64)).foldl
    (fun sums s => addStripe data (1024 * blocks + 64 * s) (8 * s) sums) sums
  let sums := addStripe data (len - 64) 121 sums
  avalanche (len.toUInt64 * prime64a + mergeSums 11 sums)

/-- The digest of a text, over its UTF-8 bytes. -/
def ofString (text : String) : UInt64 :=
  let data := text.toUTF8
  let len := data.size
  if len ≤ 16 then short data len
  else if len ≤ 128 then medium data len
  else if len ≤ 240 then long data len
  else streamed data len

end ComponentLens.Digest
