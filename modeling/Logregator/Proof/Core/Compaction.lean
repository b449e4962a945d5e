import Logregator.Proof.Core.Run

/-!
# Compactions whose reads fail

A table that a compaction cannot open is left out, and a read that fails ends
the table's iterator as its end does. The result tells to remove all tables
nevertheless: a record that could not be read is lost, unless another table has
it (`compaction_carries_iff`).
-/

namespace LG.Proof.Core

open LG.Impl.Core LG.Spec.Core

variable {c : SSTableCode}

/-- The files of tables as a task finds them: of each as many bytes as come
before the first read that fails; `none` if it cannot be opened. -/
def Seen (tables : List c.Meta) (reach : Nat → Option Nat) (disk seen : Disk) : Prop :=
  ∀ t ∈ tables, seen.ssts.lookup t.id =
    (reach t.id).bind fun n => (disk.ssts.lookup t.id).map (List.take n)

instance instDecidableSeen (tables : List c.Meta) (reach : Nat → Option Nat) (disk seen : Disk) :
    Decidable (Seen tables reach disk seen) :=
  inferInstanceAs (Decidable (∀ t ∈ tables, _))

/-- The records of a table that can be read. -/
def readable (reach : Option Nat) (recs : List Record) : List Record :=
  reach.elim [] (wholeRecords recs)

/-- Every record of the tables can be read in one of them, and different ones
do not compare equal. -/
structure Carried (tables : List c.Meta) (contents : c.Meta → List Record)
    (reach : Nat → Option Nat) : Prop where
  read : ∀ t ∈ tables, ∀ r ∈ contents t, ∃ t' ∈ tables, r ∈ readable (reach t'.id) (contents t')
  keys : ∀ t ∈ tables, ∀ t' ∈ tables, ∀ r ∈ contents t, ∀ r' ∈ contents t',
    r.orderKey = r'.orderKey → r = r'

theorem readable_sublist (reach : Option Nat) (recs : List Record) :
    (readable reach recs).Sublist recs := by
  cases reach with
  | none => exact List.nil_sublist _
  | some n => exact wholeRecords_sublist recs n

/-- A compaction reads the records that can be read. -/
theorem IsTable.scans_seen (hl : Stores c) {reach : Nat → Option Nat} {disk seen : Disk}
    {tables : List c.Meta} (hseen : Seen tables reach disk seen) {table : c.Meta}
    (htable : table ∈ tables) {recs : List Record} (ht : IsTable c disk.ssts table recs) :
    Scans c seen table (readable (reach table.id) recs) := by
  obtain ⟨tail, hfile, hindex⟩ := ht.bytes hl
  have hlookup := hseen table htable
  cases hreach : reach table.id with
  | none =>
    rw [hreach] at hlookup
    exact .inl ⟨hlookup, rfl⟩
  | some n =>
    rw [hreach, hfile] at hlookup
    exact .inr ⟨_, hlookup, yields_take tail (fun r hr => (ht.logged r hr).short) rfl
      (hindex.trans (Nat.zero_add _).symm)⟩

/-- A compaction has a result, whatever can be read of its tables, and all of
them are to be removed. The new table has every record of theirs if and only
if each can be read in one of them, and different ones do not compare equal. -/
theorem compaction_carries_iff (hl : Stores c) (hp : RecordHeap) {reach : Nat → Option Nat}
    {disk seen : Disk} {tables : List c.Meta} (hseen : Seen tables reach disk seen)
    {contents : c.Meta → List Record} (ht : ∀ t ∈ tables, IsTable c disk.ssts t (contents t))
    (fileId : Nat) :
    ∃ file newMeta out,
      System.runTask hp seen (.compactSSTables tables fileId) =
        some (fileId, file, .compaction newMeta (tables.map fun t => t.id)) ∧
      IsTable c (disk.ssts.upsert fileId file) newMeta out ∧
      ((∀ t ∈ tables, ∀ r ∈ contents t, r ∈ out) ↔ Carried tables contents reach) := by
  have hsub (t : c.Meta) : (readable (reach t.id) (contents t)).Sublist (contents t) :=
    readable_sublist _ _
  obtain ⟨out, hout, hasc, hfrom, hall⟩ := compactedRecords_scans hp
    (fun t htable => (ht t htable).scans_seen hl hseen htable)
    (fun t htable => List.Pairwise.sublist (hsub t) (ht t htable).ascending)
    fun t htable r hr => ((ht t htable).logged r ((hsub t).mem hr)).comparable
  have hlog (r : Record) (hr : r ∈ out) : Logged r := by
    obtain ⟨t, htable, hr⟩ := hfrom r hr
    exact (ht t htable).logged r ((hsub t).mem hr)
  obtain ⟨-, htable⟩ := isTable_written hl disk.ssts hasc hlog
    (rfl : c.writeToFile fileId out (tables.map fun table => table.numRecords).sum = _)
  refine ⟨_, _, out, ?_, htable, fun hcarried => ⟨fun t ht r hr => ?_, ?_⟩, fun hcarried t ht r hr => ?_⟩
  · rw [System.runTask, hout]
    rfl
  · exact hfrom r (hcarried t ht r hr)
  · -- Both records are in the new table, which has one record for a key.
    intro t ht t' ht' r hr r' hr' heq
    exact ascending_inj hasc (hcarried t ht r hr) (hcarried t' ht' r' hr') heq
  · obtain ⟨t', ht', hread⟩ := hcarried.read t ht r hr
    obtain ⟨r', hr', heq⟩ := hall t' ht' r hread
    obtain ⟨t'', ht'', hr''⟩ := hfrom r' hr'
    exact hcarried.keys t'' ht'' t ht r' ((hsub t'').mem hr'') r hr heq ▸ hr'

/-- A table of one record. -/
def oneRecord (id : Nat) (i : Insert) : List UInt8 × plainCode.Meta :=
  plainCode.writeToFile id [Engine.recordOf id i] 1

theorem isTable_oneRecord {ssts : OrdMap Nat (List UInt8)} {id : Nat} {i : Insert}
    (h : (id, (oneRecord id i).1) ∈ ssts.elems) :
    IsTable plainCode ssts (oneRecord id i).2 [Engine.recordOf id i] where
  written := ⟨1, _, h, rfl⟩
  ascending := List.pairwise_singleton _ _
  logged _ hr := ⟨id, i, List.mem_singleton.mp hr⟩

/-- The table with id 2. -/
def laterTable : OrdMap Nat (List UInt8) :=
  OrdMap.upsert (.empty _) 2 (oneRecord 2 (oneByte 1 3 107 98)).1

/-- The tables with ids 1 and 2. -/
def twoTables : OrdMap Nat (List UInt8) := laterTable.upsert 1 (oneRecord 1 (oneByte 1 5 107 97)).1

/-- The metadata of both. -/
def bothTables : List plainCode.Meta :=
  [(oneRecord 1 (oneByte 1 5 107 97)).2, (oneRecord 2 (oneByte 1 3 107 98)).2]

/-- The record of each. -/
def oneContent (table : plainCode.Meta) : List Record :=
  if table.id = 1 then [Engine.recordOf 1 (oneByte 1 5 107 97)]
  else [Engine.recordOf 2 (oneByte 1 3 107 98)]

theorem isTable_twoTables : ∀ t ∈ bothTables, IsTable plainCode twoTables t (oneContent t) := by
  refine List.forall_mem_cons.mpr ⟨?_, List.forall_mem_singleton.mpr ?_⟩
  · exact isTable_oneRecord (by decide +kernel)
  · exact isTable_oneRecord (by decide +kernel)

/-- Where all can be read, the new table has both records. -/
theorem compaction_carries_two : ∃ file newMeta out,
    System.runTask (MinHeap.sortedList _ _) ⟨[], .empty _, twoTables⟩ (.compactSSTables bothTables 3) =
        some (3, file, .compaction newMeta [1, 2]) ∧
      IsTable plainCode (twoTables.upsert 3 file) newMeta out ∧
      ∀ t ∈ bothTables, ∀ r ∈ oneContent t, r ∈ out := by
  have hseen : Seen bothTables (fun _ => some 1000) ⟨[], .empty _, twoTables⟩
      ⟨[], .empty _, twoTables⟩ := by decide +kernel
  obtain ⟨file, newMeta, out, hrun, htable, hiff⟩ := compaction_carries_iff lawful_plainCode.toStores
    (MinHeap.sortedList _ _) hseen isTable_twoTables 3
  exact ⟨file, newMeta, out, hrun, htable, hiff.mpr ⟨by decide +kernel, by decide +kernel⟩⟩

/-- Where the first cannot be opened, both are to be removed, and the new table
has the record of the second only. -/
theorem compaction_loses :
    (∀ t ∈ bothTables, IsTable plainCode twoTables t (oneContent t)) ∧
      Seen bothTables (fun id => if id = 1 then none else some 1000) ⟨[], .empty _, twoTables⟩
        ⟨[], .empty _, laterTable⟩ ∧
      System.runTask (MinHeap.sortedList _ _) ⟨[], .empty _, laterTable⟩
          (.compactSSTables bothTables 3) =
        some (3, walBytes [Engine.recordOf 2 (oneByte 1 3 107 98)],
          .compaction (plainCode.writeToFile 3 [Engine.recordOf 2 (oneByte 1 3 107 98)] 2).2 [1, 2]) := by
  refine ⟨isTable_twoTables, by decide +kernel, ?_⟩
  have hout : System.compactedRecords (MinHeap.sortedList _ _) ⟨[], .empty _, laterTable⟩ bothTables =
      some [Engine.recordOf 2 (oneByte 1 3 107 98)] := by decide +kernel
  rw [System.runTask, hout]
  rfl

end LG.Proof.Core
