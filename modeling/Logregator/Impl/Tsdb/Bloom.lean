import Logregator.Framework.Bytes
import Logregator.Framework.Outcome
import Mathlib.Data.List.Basic

/-!
# Bloom filter (`bloom.rs`)

A filter over stream ids: `insert` sets the bits at an id's positions,
`mayContain` asks for them. Positions are double hashes modulo the number of
bits. A filter without bits, or with a bitmap that is too short, panics
(`none`). Hashes and the floating-point sizing are taken from outside
(`Externals`).
-/

namespace LG.Impl.Tsdb

/-- What the engine takes from other crates and from floating point:
`crc32fast::hash`, the FNV hash of the bytes written to a hasher, and the
`n_bits` and `n_hashes` computed in `BloomFilter::new` for a number of
records at the rate 0.01. -/
structure Externals where
  crc : List UInt8 → UInt32
  fnv : List UInt8 → UInt64
  bloomSize : Nat → UInt64 × UInt64

/-- Constant hashes and a filter of eight bits. -/
def zeroHashes : Externals :=
  { crc := fun _ => 0, fnv := fun _ => 0, bloomSize := fun _ => (8, 1) }

/-- `bloom::BloomFilter`. -/
structure BloomFilter where
  bitmap : List UInt8
  nBits : UInt64
  nHashes : UInt64
  deriving DecidableEq, Repr

namespace BloomFilter

variable (x : Externals)

/-- `BloomFilter::SALT1`. -/
def salt1 : List UInt8 := "bloom_salt_1".toUTF8.toList
/-- `BloomFilter::SALT2`. -/
def salt2 : List UInt8 := "bloom_salt_2".toUTF8.toList

/-- `hash_with_salt`. -/
def hashWithSalt (data salt : List UInt8) : UInt64 := x.fnv (data ++ salt)

/-- `BloomFilter::new`. -/
def new (n : Nat) : BloomFilter :=
  let (m, k) := x.bloomSize n
  { bitmap := List.replicate ((m.toNat + 7) / 8) 0, nBits := m, nHashes := max k 1 }

/-- `BloomFilter::set_bit`. -/
def setBit (bitmap : List UInt8) (pos : Nat) : Option (List UInt8) := do
  let b ← bitmap[pos / 8]?
  return bitmap.set (pos / 8) (b ||| (1 <<< UInt8.ofNat (pos % 8)))

/-- `BloomFilter::get_bit`. -/
def getBit (bitmap : List UInt8) (pos : Nat) : Option Bool := do
  let b ← bitmap[pos / 8]?
  return (b >>> UInt8.ofNat (pos % 8)) &&& 1 == 1

/-- `BloomFilter::positions`: no bits is a remainder by zero. -/
def positions (f : BloomFilter) (streamId : UInt64) : Option (List Nat) :=
  let bytes := beBytes 8 streamId.toNat
  let h1 := hashWithSalt x bytes salt1
  let h2 := hashWithSalt x bytes salt2
  if f.nBits = 0 ∧ f.nHashes ≠ 0 then none
  else some ((List.range f.nHashes.toNat).map fun i =>
    ((h1 + UInt64.ofNat i * h2) % f.nBits).toNat)

/-- `all` over the positions: stops at the first bit that is not set. -/
def allSet (bitmap : List UInt8) : List Nat → Option Bool
  | [] => some true
  | p :: ps => do
    if ← getBit bitmap p then allSet bitmap ps else return false

/-- `BloomFilter::may_contain`. -/
def mayContain (f : BloomFilter) (streamId : UInt64) : Option Bool := do
  allSet f.bitmap (← f.positions x streamId)

/-- `BloomFilter::insert`. -/
def insert (f : BloomFilter) (streamId : UInt64) : Option BloomFilter := do
  let ps ← f.positions x streamId
  let bitmap ← ps.foldlM setBit f.bitmap
  return { f with bitmap := bitmap }

/-- `BloomFilter::wire_len`: `n_bits`, `n_hashes`, the length of the bitmap,
and the bitmap. -/
def wireLen (f : BloomFilter) : Nat := 8 + 8 + 4 + f.bitmap.length

end BloomFilter

end LG.Impl.Tsdb
