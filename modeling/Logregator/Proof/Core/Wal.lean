import Logregator.Impl.Core.Wal
import Logregator.Proof.Core.Record
import Logregator.Spec.Core.Table

/-!
# Recovering a WAL file that was cut off

A file written by `write_one` and `write_many` is the frames of its records
(`file_writes`). Cut off anywhere, `recover_all` gives the records that are
whole, unless the cut is inside a record's bytes: then `recover_file` fails,
and with it every record of the file is lost (`recoverAll_cut_iff`).
-/

namespace LG.Proof.Core

open LG.Impl.Core LG.Spec.Core

/-- A call that writes to the WAL. -/
inductive WalWrite where
  | one (rec : Record)
  | many (recs : List Record)

namespace WalWrite

/-- The records of a call. -/
def recs : WalWrite → List Record
  | one rec => [rec]
  | many recs => recs

/-- The call. -/
def run (w : Wal) : WalWrite → Wal
  | one rec => w.writeOne rec
  | many recs => w.writeMany recs

end WalWrite

theorem walBytes_append (as bs : List Record) :
    walBytes (as ++ bs) = walBytes as ++ walBytes bs := by
  rw [walBytes, List.map_append, frames_append]
  rfl

/-- `write_many` does what `write_one` does with each record. -/
theorem writeMany_cons (w : Wal) (r : Record) (recs : List Record) :
    w.writeMany (r :: recs) = (w.writeOne r).writeMany recs := rfl

theorem writeMany_eq : ∀ (recs : List Record) (w : Wal),
    w.writeMany recs = { w with buffer := w.buffer ++ walBytes recs }
  | [], w => by simp [Wal.writeMany, walBytes]
  | r :: recs, w => by
    rw [writeMany_cons, writeMany_eq recs]
    simp [Wal.writeOne, walBytes, frame, Record.len]

theorem run_eq (w : Wal) (call : WalWrite) :
    call.run w = { w with buffer := w.buffer ++ walBytes call.recs } := by
  cases call with
  | one rec => exact writeMany_eq [rec] w
  | many recs => exact writeMany_eq recs w

theorem foldl_run : ∀ (calls : List WalWrite) (w : Wal),
    calls.foldl WalWrite.run w =
      { w with buffer := w.buffer ++ walBytes (calls.flatMap WalWrite.recs) }
  | [], w => by simp [walBytes]
  | call :: calls, w => by
    rw [List.foldl_cons, foldl_run calls, run_eq, List.flatMap_cons, walBytes_append]
    simp only [List.append_assoc]

/-- The file after any calls and a flush of the buffer. -/
theorem file_writes (calls : List WalWrite) :
    (calls.foldl WalWrite.run Wal.openActive).flushBuffer.file =
      walBytes (calls.flatMap WalWrite.recs) := by
  rw [foldl_run]
  rfl

/-! ## Files cut off -/

/-- The records that lie inside the first `n` bytes of the file. -/
def wholeRecords : List Record → Nat → List Record
  | [], _ => []
  | r :: rs, n => if 8 + r.len ≤ n then r :: wholeRecords rs (n - (8 + r.len)) else []

theorem wholeFrames_bytes : ∀ (recs : List Record) (n : Nat),
    wholeFrames (recs.map Record.bytes) n = (wholeRecords recs n).map Record.bytes
  | [], _ => rfl
  | r :: rs, n => by
    rw [List.map_cons, wholeFrames, wholeRecords, Record.len]
    split
    · rw [wholeFrames_bytes rs, List.map_cons]
    · rfl

theorem wholeRecords_sublist : ∀ (recs : List Record) (n : Nat), (wholeRecords recs n).Sublist recs
  | [], _ => .refl _
  | r :: rs, n => by
    unfold wholeRecords
    split
    · exact (wholeRecords_sublist rs _).cons_cons r
    · exact List.nil_sublist _

theorem wholeRecords_of_le : ∀ {recs : List Record} {n : Nat}, (walBytes recs).length ≤ n →
    wholeRecords recs n = recs
  | [], _, _ => rfl
  | r :: rs, n, h => by
    have hlen : (walBytes (r :: rs)).length = 8 + r.len + (walBytes rs).length := by
      simp [walBytes, Record.len]
    rw [hlen] at h
    rw [wholeRecords, if_pos (by omega), wholeRecords_of_le (by omega)]

/-- Before a cut inside a record the records before it are whole. -/
theorem wholeRecords_append : ∀ {as bs : List Record} {r : Record} {n : Nat},
    (walBytes as).length ≤ n → n < (walBytes as).length + 8 + r.len →
    wholeRecords (as ++ r :: bs) n = as
  | [], bs, r, n, h₁, h₂ => by
    simp only [walBytes, List.map_nil, frames_nil, List.length_nil] at h₂
    rw [List.nil_append, wholeRecords, if_neg (by omega)]
  | a :: as, bs, r, n, h₁, h₂ => by
    simp only [walBytes, List.map_cons, frames_cons, List.length_append, length_frame] at h₁ h₂
    rw [List.cons_append, wholeRecords, Record.len, if_pos (by omega), wholeRecords_append]
    · unfold walBytes
      omega
    · unfold walBytes
      omega

/-- The first `n` bytes end inside the bytes of a record that is not the
file's first: after its length, before its end. -/
def CutsLaterRecord (recs : List Record) (n : Nat) : Prop :=
  ∃ as r bs, recs = as ++ r :: bs ∧ as ≠ [] ∧ (walBytes as).length + 8 ≤ n ∧
    n < (walBytes as).length + 8 + r.len

theorem cutsBody_bytes {recs : List Record} {n : Nat} :
    CutsBody (recs.map Record.bytes) n ↔ ∃ as r bs, recs = as ++ r :: bs ∧
      (walBytes as).length + 8 ≤ n ∧ n < (walBytes as).length + 8 + r.len := by
  constructor
  · intro ⟨as, b, bs, h, h₁, h₂⟩
    obtain ⟨as', rest, rfl, rfl, hrest⟩ := List.map_eq_append_iff.mp h
    obtain ⟨r, bs', rfl, rfl, rfl⟩ := List.map_eq_cons_iff.mp hrest
    exact ⟨as', r, bs', rfl, h₁, h₂⟩
  · rintro ⟨as, r, bs, rfl, h₁, h₂⟩
    exact ⟨as.map Record.bytes, r.bytes, bs.map Record.bytes, by simp, h₁, h₂⟩

/-- The recovery of a directory with one file. -/
theorem recoverAll_one {file : List UInt8} {bodies : List (List UInt8)}
    (h : readFrames isizeMax file = .ok bodies) (hc : ∀ b ∈ bodies, (Record.mk b).Comparable) :
    Wal.recoverAll [⟨true, file⟩] =
      some (OrdSet.extend (.empty Record.orderKey) (bodies.map Record.mk)).elems := by
  have hext : RecordSet.extend (.empty _) (bodies.map Record.mk) = some _ :=
    extend_comparable (by simp) (List.forall_mem_map.mpr hc)
  have hfile : Wal.recoverFile file = .ok (bodies.map Record.mk) := by
    rw [Wal.recoverFile, h]
    rfl
  rw [Wal.recoverAll, Wal.recoverEntries, Wal.recoverEntry, if_pos rfl, hfile]
  simp only [hext]
  rfl

/-- A directory whose file cannot be read. -/
theorem recoverAll_torn {file : List UInt8} (h : readFrames isizeMax file = .err ()) :
    Wal.recoverAll [⟨true, file⟩] = some [] := by
  have hfile : Wal.recoverFile file = .err "wal.recover: failed to read record buffer" := by
    rw [Wal.recoverFile, h]
    rfl
  rw [Wal.recoverAll, Wal.recoverEntries, Wal.recoverEntry, if_pos rfl, hfile]
  rfl

/-- Cut off at any length, a WAL file is recovered up to its last whole
record, exactly if the cut is not inside a record after the first. -/
theorem recoverAll_cut_iff (calls : List WalWrite)
    (hc : ∀ r ∈ calls.flatMap WalWrite.recs, r.Comparable)
    (hlen : ∀ r ∈ calls.flatMap WalWrite.recs, r.len ≤ isizeMax) (n : Nat) :
    Wal.recoverAll
        [⟨true, (calls.foldl WalWrite.run Wal.openActive).flushBuffer.file.take n⟩] =
      some (OrdSet.extend (.empty Record.orderKey)
        (wholeRecords (calls.flatMap WalWrite.recs) n)).elems ↔
      ¬ CutsLaterRecord (calls.flatMap WalWrite.recs) n := by
  rw [file_writes]
  generalize calls.flatMap WalWrite.recs = recs at hc hlen ⊢
  obtain ⟨htorn, hwhole⟩ := readFrames_take isizeMax_lt n (List.forall_mem_map.mpr hlen)
  by_cases hcut : CutsBody (recs.map Record.bytes) n
  · -- The file is left out: nothing was whole only if the cut is in its first record.
    rw [walBytes, recoverAll_torn (htorn hcut)]
    obtain ⟨as, r, bs, rfl, h₁, h₂⟩ := cutsBody_bytes.mp hcut
    rw [wholeRecords_append (by omega) h₂]
    cases as with
    | nil =>
      apply iff_of_true rfl
      intro ⟨as', r', bs', he, hne, h₁', h₂'⟩
      cases as' with
      | nil => exact hne rfl
      | cons a as' =>
        cases he
        simp only [walBytes, List.map_nil, frames_nil, List.length_nil, List.map_cons, frames_cons,
          List.length_append, length_frame, Record.len] at h₁' h₂
        omega
    | cons a as =>
      refine iff_of_false (fun h => ?_) (not_not.mpr ⟨a :: as, r, bs, rfl, by simp, h₁, h₂⟩)
      have hkey := OrdSet.key_mem_extend (l := a :: as) (s := .empty Record.orderKey)
        |>.mpr (.inr ⟨a, List.mem_cons_self, rfl⟩)
      rw [← Option.some.inj h] at hkey
      simp at hkey
  · have hsub := wholeRecords_sublist recs n
    refine iff_of_true ?_ fun ⟨as, r, bs, he, _, h⟩ => hcut (cutsBody_bytes.mpr ⟨as, r, bs, he, h⟩)
    rw [walBytes, recoverAll_one (hwhole hcut), wholeFrames_bytes]
    · rw [List.map_map, show Record.mk ∘ Record.bytes = id from rfl, List.map_id]
    · rw [wholeFrames_bytes]
      exact List.forall_mem_map.mpr fun r hr => hc r (hsub.mem hr)

/-- A file with three records, cut in the length of the third. -/
theorem recoverAll_cut_iff_three :
    let a := Record.fromRawParts 1 1 1 [97] [98]
    let b := Record.fromRawParts 1 2 2 [97] [98]
    let c := Record.fromRawParts 1 3 3 [97] [98]
    wholeRecords [a, b, c] 89 = [a, b] ∧
      (Wal.recoverAll [⟨true, ([WalWrite.one a, .many [b, c]].foldl WalWrite.run
          Wal.openActive).flushBuffer.file.take 89⟩] =
        some (OrdSet.extend (.empty Record.orderKey) (wholeRecords [a, b, c] 89)).elems ↔
      ¬ CutsLaterRecord [a, b, c] 89) :=
  ⟨by decide, recoverAll_cut_iff [.one (.fromRawParts 1 1 1 [97] [98]),
    .many [.fromRawParts 1 2 2 [97] [98], .fromRawParts 1 3 3 [97] [98]]] (by decide) (by decide) 89⟩

/-- Two records of 42 bytes, cut after the length prefix of the second: the
first is whole, and is not recovered. -/
theorem recoverAll_loses_whole_record :
    wholeRecords [.fromRawParts 1 1 1 [97] [98], .fromRawParts 1 2 2 [97] [98]] 50 =
        [.fromRawParts 1 1 1 [97] [98]] ∧
      Wal.recoverAll [⟨true, ([WalWrite.one (.fromRawParts 1 1 1 [97] [98]),
        .one (.fromRawParts 1 2 2 [97] [98])].foldl WalWrite.run
          Wal.openActive).flushBuffer.file.take 50⟩] = some [] := by
  decide +kernel

end LG.Proof.Core
