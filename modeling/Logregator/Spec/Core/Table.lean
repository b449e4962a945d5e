import Logregator.Impl.Core.SSTable

/-!
# What tables are

The bytes of records in a WAL or table file (`walBytes`), and what is known of
the SSTable code (`Stores`, `Lawful`).
-/

namespace LG.Spec.Core

open LG.Impl.Core

/-- Records in their frames. -/
def walBytes (recs : List Record) : List UInt8 := frames (recs.map Record.bytes)

/-- Records in strictly ascending order. -/
def Ascending (recs : List Record) : Prop := recs.Pairwise fun a b => a.orderKey < b.orderKey

/-- The fields that tell records apart: source, time, sequence number and
key. -/
def identity (r : Record) : Int64 × Int64 × UInt64 × List UInt8 :=
  (i64At r.bytes 0, i64At r.bytes 8, u64At r.bytes 16, r.extractKey.toOption.getD [])

/-- A record that the engine made: from parts whose lengths fit. -/
def Made (r : Record) : Prop :=
  ∃ s ts seq k v, r = .fromRawParts s ts seq k v ∧ k.length < 2 ^ 32 ∧ v.length < 2 ^ 32

/-- A record before a source and time. -/
def Before (r : Record) (s ts : Int64) : Prop :=
  toLex (r.bytes.take 8, (r.bytes.drop 8).take 8) < toLex (i64Bytes s, i64Bytes ts)

/-- What is known of the files that the SSTable code writes: a file has the
records it was given, in order, up to the index. -/
structure Stores (c : SSTableCode) : Prop where
  id : ∀ id recs hint, (c.writeToFile id recs hint).2.id = id
  records : ∀ id recs hint, ∃ tail, (c.writeToFile id recs hint).1 = walBytes recs ++ tail ∧
    (c.writeToFile id recs hint).2.indexOffset = (walBytes recs).length

/-- What is known of the SSTable code: also, the filter has the sources and keys
of the records, and the index leads to a record with only records of an
earlier source and time before it. -/
structure Lawful (c : SSTableCode) : Prop extends Stores c where
  bloom : ∀ id recs hint, ∀ s ts seq k v, k.length < 2 ^ 32 →
    Record.fromRawParts s ts seq k v ∈ recs →
    c.contains (c.writeToFile id recs hint).2.bloom s k = true
  seek : ∀ id recs hint, Ascending recs → (∀ r ∈ recs, Made r) → ∀ s ts k,
    ∃ as bs, recs = as ++ bs ∧ (∀ r ∈ as, Before r s ts) ∧
      c.binarySeek (c.writeToFile id recs hint).2.index (.fromRawParts s ts 0 k []) =
        (walBytes as).length

/-- SSTable code without a filter or an index. -/
def plainCode : SSTableCode where
  Bloom := Unit
  Index := Unit
  contains _ _ _ := true
  binarySeek _ _ := 0
  writeToFile id recs _ :=
    let size := (walBytes recs).length
    (walBytes recs, { id, bloom := (), bloomOffset := size, index := (), indexOffset := size
                      numRecords := recs.length, fileSize := size })
  readTail file := .ok ((), file.length, (), file.length)

theorem lawful_plainCode : Lawful plainCode where
  id _ _ _ := rfl
  records _ recs _ := ⟨[], (List.append_nil _).symm, rfl⟩
  bloom _ _ _ _ _ _ _ _ _ _ := rfl
  seek _ recs _ _ _ _ _ _ := ⟨[], recs, rfl, by simp, rfl⟩

end LG.Spec.Core
