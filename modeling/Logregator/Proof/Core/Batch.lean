import Logregator.Proof.Core.Wal
import Logregator.Spec.Core.Batch

/-!
# Batches

A batch numbers its records, logs them and then inserts them, and so does what
inserting its elements one by one does (`batchLogged_cons`). The memtable's size
only grows, so that the last flag of the inserts is their disjunction
(`insertEach_flags`).
-/

namespace LG.Proof.Core

open LG.Impl.Core LG.Spec.Core

variable {c : SSTableCode}

/-- The first insert of a batch, and the rest of it. -/
theorem batchLogged_cons (e : Engine c) (w : Wal) (i : Insert) (inserts : List Insert) :
    batchLogged e w (i :: inserts) =
      (insertLogged e w i).bind fun first =>
        (batchLogged first.2.1 first.2.2 inserts).map fun rest => (first.1 || rest.1, rest.2) := by
  simp only [batchLogged, insertLogged, Engine.batchInsertRecords, Engine.insertRecord,
    Engine.numberInserts, Option.bind_eq_bind]
  cases hseq : incU64 e.seqCounter with
  | none => cases e.memtable.insert (Engine.recordOf e.seqCounter i) <;> rfl
  | some next =>
    cases hm : e.memtable.insert (Engine.recordOf e.seqCounter i) with
    | none =>
      cases hrecs : Engine.numberInserts next inserts with
      | none => simp [hrecs]
      | some recs => simp [hrecs, Engine.insertAll, hm]
    | some first =>
      cases hrecs : Engine.numberInserts next inserts with
      | none => simp [hrecs]
      | some recs =>
        cases hall : Engine.insertAll first.2 recs.1 with
        | none => simp [hrecs, hall, Engine.insertAll, hm]
        | some rest => simp [hrecs, hall, Engine.insertAll, hm, writeMany_cons]

/-- The memtable is past its limit. -/
def past (m : MemTable) : Bool := m.sz > m.limit

/-- A memtable says whether it is past its limit, which it stays. -/
theorem insert_past {m m' : MemTable} {r : Record} {full : Bool}
    (h : m.insert r = some (full, m')) : full = past m' ∧ (past m → past m') := by
  obtain ⟨bset, -, h⟩ := Option.bind_eq_some_iff.mp h
  cases h
  refine ⟨rfl, fun hpast => ?_⟩
  rw [past, decide_eq_true_eq] at hpast ⊢
  exact Nat.lt_add_right _ hpast

theorem insertLogged_past {e e' : Engine c} {w w' : Wal} {i : Insert} {flag : Bool}
    (h : insertLogged e w i = some (flag, e', w')) :
    flag = past e'.memtable ∧ (past e.memtable → past e'.memtable) := by
  obtain ⟨⟨flag₁, e₁⟩, hinsert, h⟩ := Option.bind_eq_some_iff.mp h
  cases h
  obtain ⟨⟨flag₂, m⟩, hm, hinsert⟩ := Option.bind_eq_some_iff.mp hinsert
  obtain ⟨seq, -, hinsert⟩ := Option.bind_eq_some_iff.mp hinsert
  cases hinsert
  exact insert_past hm

/-- The flags of inserts one by one: the last says whether any is set. -/
theorem insertEach_flags {e e' : Engine c} {w w' : Wal} {inserts : List Insert} {flags : List Bool}
    (h : insertEach e w inserts = some (flags, e', w')) :
    flags.length = inserts.length ∧ (past e.memtable → past e'.memtable) ∧
      (inserts ≠ [] → flags.getLast? = some (past e'.memtable) ∧
        flags.any id = past e'.memtable) := by
  induction inserts generalizing e w flags with
  | nil =>
    cases h
    exact ⟨rfl, id, fun hne => absurd rfl hne⟩
  | cons i inserts ih =>
    obtain ⟨⟨flag, e₁, w₁⟩, hfirst, h⟩ := Option.bind_eq_some_iff.mp h
    obtain ⟨⟨flags', out⟩, hrest, h⟩ := Option.bind_eq_some_iff.mp h
    cases h
    obtain ⟨rfl, hmono⟩ := insertLogged_past hfirst
    obtain ⟨hlen, hmono', hlast⟩ := ih hrest
    refine ⟨by simp [hlen], fun hpast => hmono' (hmono hpast), fun _ => ?_⟩
    cases inserts with
    | nil =>
      cases hrest
      simp
    | cons j inserts =>
      obtain ⟨hlast, hany⟩ := hlast (by simp)
      refine ⟨?_, ?_⟩
      · rw [List.getLast?_cons, hlast]
        rfl
      · rw [List.any_cons, hany, Bool.or_eq_right_iff_imp]
        exact hmono'

/-- A batch does what inserting its elements in turn does, to the engine and to
the bytes of the WAL; its flag is set when one of theirs is, and that is what
the last one says. -/
theorem batch_insert_eq_each (e : Engine c) (w : Wal) (inserts : List Insert) :
    batchLogged e w inserts =
      (insertEach e w inserts).map (fun out => (out.1.any id, out.2)) ∧
    ∀ flags out, insertEach e w inserts = some (flags, out) →
      flags.length = inserts.length ∧
        (inserts ≠ [] → flags.getLast? = some (flags.any id)) := by
  refine ⟨?_, fun flags out h => ?_⟩
  · induction inserts generalizing e w with
    | nil => simp [batchLogged, insertEach, Engine.numberInserts, Engine.batchInsertRecords,
        Engine.insertAll, Wal.writeMany]
    | cons i inserts ih =>
      rw [batchLogged_cons, insertEach]
      cases insertLogged e w i with
      | none => rfl
      | some first =>
        rw [Option.bind_some, ih]
        cases hrest : insertEach first.2.1 first.2.2 inserts with
        | none => simp [hrest]
        | some rest => simp [hrest]
  · obtain ⟨e', w'⟩ := out
    obtain ⟨hlen, -, hlast⟩ := insertEach_flags h
    refine ⟨hlen, fun hne => ?_⟩
    obtain ⟨hlast, hany⟩ := hlast hne
    rw [hlast, hany]

end LG.Proof.Core
