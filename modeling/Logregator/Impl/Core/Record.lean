import Logregator.Framework.Bytes
import Logregator.Framework.OrdSet
import Mathlib.Data.List.Lex
import Mathlib.Data.Prod.Lex

/-!
# Records of the core engine (`storage/record.rs`)

A record is one byte string: source, time and sequence number in eight
big-endian bytes each, then key and value behind their lengths in four. Records
are ordered by these bytes: source, time, sequence number and key, in this
order. Comparing a record that is too short for its key panics, so sets of
records panic on such a record (`RecordSet.insert`).
-/

namespace LG.Impl.Core

/-- `record::Record`. -/
structure Record where
  bytes : List UInt8
  deriving DecidableEq, Repr

/-- `i64::to_be_bytes`. -/
def i64Bytes (x : Int64) : List UInt8 := beBytes 8 x.toUInt64.toNat

/-- `u64::to_be_bytes`. -/
def u64Bytes (x : UInt64) : List UInt8 := beBytes 8 x.toNat

/-- `u64::from_be_bytes` of the eight bytes at `i`. -/
def u64At (bs : List UInt8) (i : Nat) : UInt64 := UInt64.ofNat (ofBe ((bs.drop i).take 8))

/-- `i64::from_be_bytes` of the eight bytes at `i`. -/
def i64At (bs : List UInt8) (i : Nat) : Int64 := (u64At bs i).toInt64

/-- `u32::from_be_bytes` of the four bytes at `i`. -/
def u32At (bs : List UInt8) (i : Nat) : Nat := ofBe ((bs.drop i).take 4)

/-- `Ord::cmp` of a linear order; of `[u8]` it is the lexicographic one. -/
def ordCmp {κ : Type} [LinearOrder κ] (a b : κ) : Ordering := compareOfLessAndEq a b

namespace Record

/-- `Record::len`. -/
def len (r : Record) : Nat := r.bytes.length

/-- `Record::from_raw_parts`: the lengths are cut to four bytes. -/
def fromRawParts (sourceId timestamp : Int64) (seqNum : UInt64) (key value : List UInt8) : Record :=
  ⟨i64Bytes sourceId ++ i64Bytes timestamp ++ u64Bytes seqNum ++ beBytes 4 key.length ++ key ++
    beBytes 4 value.length ++ value⟩

/-- `Record::extract_seq_num`. -/
def extractSeqNum (r : Record) : Except String UInt64 :=
  if r.bytes.length < 24 then .error "record.extract: not enough bytes for seq_num"
  else .ok (u64At r.bytes 16)

/-- `Record::extract_key`. -/
def extractKey (r : Record) : Except String (List UInt8) :=
  if r.bytes.length < 28 then .error "record.extract: not enough bytes for key length"
  else if r.bytes.length < 28 + u32At r.bytes 24 then
    .error "record.extract: not enough bytes for key contents"
  else .ok ((r.bytes.drop 28).take (u32At r.bytes 24))

/-- What `Record::extract_all_fields_ref` returns. -/
structure Fields where
  sourceId : Int64
  timestamp : Int64
  seqNum : UInt64
  key : List UInt8
  value : List UInt8
  deriving DecidableEq

/-- `Record::extract_all_fields_ref`. -/
def extractAllFieldsRef (r : Record) : Except String Fields :=
  if r.bytes.length < 24 then .error "record.extract_all: not enough bytes for integer fields"
  else if r.bytes.length < 28 then .error "record.extract_all: not enough bytes for key length"
  else
    let keyLen := u32At r.bytes 24
    if r.bytes.length < 28 + keyLen then
      .error "record.extract_all: not enough bytes for key contents"
    else if r.bytes.length < 32 + keyLen then
      .error "record.extract_all: not enough bytes for value length"
    else
      let valueLen := u32At r.bytes (28 + keyLen)
      if r.bytes.length < 32 + keyLen + valueLen then
        .error "record.extract_all: not enough bytes for value contents"
      else .ok
        { sourceId := i64At r.bytes 0
          timestamp := i64At r.bytes 8
          seqNum := u64At r.bytes 16
          key := (r.bytes.drop 28).take keyLen
          value := (r.bytes.drop (32 + keyLen)).take valueLen }

/-- `Record::cmp`: `none` is its panic. The key is extracted even where the
bytes before it differ. -/
def cmp (a b : Record) : Option Ordering := do
  let a₀ ← slice a.bytes 0 8
  let b₀ ← slice b.bytes 0 8
  let a₁ ← slice a.bytes 8 16
  let b₁ ← slice b.bytes 8 16
  let a₂ ← slice a.bytes 16 24
  let b₂ ← slice b.bytes 16 24
  let aKey ← a.extractKey.toOption
  let bKey ← b.extractKey.toOption
  return (ordCmp a₀ b₀).then ((ordCmp a₁ b₁).then ((ordCmp a₂ b₂).then (ordCmp aKey bKey)))

/-- A record that `cmp` does not panic on. -/
def Comparable (r : Record) : Prop := r.extractKey.toOption.isSome = true

instance (r : Record) : Decidable r.Comparable := inferInstanceAs (Decidable (_ = true))

/-- What `cmp` looks at: the bytes of source, time and sequence number, and
the key. -/
abbrev OrderKey := List UInt8 ×ₗ List UInt8 ×ₗ List UInt8 ×ₗ List UInt8

/-- What `cmp` looks at in a record. -/
def orderKey (r : Record) : OrderKey :=
  toLex (r.bytes.take 8, toLex ((r.bytes.drop 8).take 8, toLex ((r.bytes.drop 16).take 8,
    r.extractKey.toOption.getD [])))

end Record

/-- `BTreeSet<Record>`. -/
abbrev RecordSet := OrdSet Record.orderKey

namespace RecordSet

/-- `BTreeSet::insert`: nothing is compared with an empty set, and otherwise
comparing with a record that is too short panics (`none`). -/
def insert (s : RecordSet) (r : Record) : Option RecordSet :=
  if s.elems = [] ∨ r.Comparable ∧ ∀ q ∈ s.elems, q.Comparable then some (OrdSet.insert s r)
  else none

/-- `BTreeSet::extend`. -/
def extend (s : RecordSet) : List Record → Option RecordSet
  | [] => some s
  | r :: rs => do extend (← insert s r) rs

/-- `BTreeSet::range` from one record to before another: `none` is a
panic. -/
def range (s : RecordSet) (start stop : Record) : Option (List Record) :=
  if ∀ r ∈ s.elems, r.Comparable then
    OrdSet.range s (.included start.orderKey) (.excluded stop.orderKey)
  else none

end RecordSet

end LG.Impl.Core
