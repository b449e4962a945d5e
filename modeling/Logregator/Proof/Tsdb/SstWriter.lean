import Logregator.Proof.Tsdb.Table

/-!
# The recursion of the SST writer

`HashedWriterState::write` calls itself after it has written out a full block
(`Recurses`). A fresh block may be too small for the record as well, but then
`flush_blocks` refuses it because it is empty, so the nested call is the last
one (`nestedCalls_le`) and the depth of the model's recursion does not matter
(`writeNested_depth`).
-/

namespace LG.Proof.Tsdb

open LG.Impl.Tsdb LG.Impl.Tsdb.HashedWriterState LG.Spec.Tsdb

/-- `write` calls itself, in the state `t`: the block is full and was written
out. -/
structure Recurses (x : Externals) (r : Record) (st t : HashedWriterState) : Prop where
  open_ : ¬ maxSstSize ≤ st.blockBytesWritten
  full : (st.blockWriter.write r).1 = .ok .full
  flushed : flushBlocks x { st with blockWriter := (st.blockWriter.write r).2 } = (.ok (), t)

/-- A call of `write` makes `n` nested calls. -/
inductive NestedCalls (x : Externals) (r : Record) : HashedWriterState → Nat → Prop
  | last {st} (h : ∀ t, ¬ Recurses x r st t) : NestedCalls x r st 0
  | nested {st t n} (h : Recurses x r st t) (hn : NestedCalls x r t n) : NestedCalls x r st (n + 1)

section

variable {x : Externals} {r : Record} {st t : HashedWriterState}

/-- `write` of a record that the current block is full for. -/
theorem writeNested_full {blockWriter : BlockWriter} (hmax : ¬ maxSstSize ≤ st.blockBytesWritten)
    (hout : st.blockWriter.write r = (.ok .full, blockWriter)) (depth : Nat) :
    writeNested x (depth + 1) r st =
      (do flushBlocks x; writeNested x depth r : Action HashedWriterState SstError Unit)
        { st with blockWriter := blockWriter } := by
  rw [writeNested, Action.get_bind]
  simp only [if_neg hmax, hout, Action.modify_bind]

theorem writeNested_of_recurses (h : Recurses x r st t) (depth : Nat) :
    writeNested x (depth + 1) r st = writeNested x depth r t := by
  rw [writeNested_full h.open_ (Prod.ext h.full rfl)]
  exact Action.bind_of_ok h.flushed

/-- A call that does not recurse is the same at every depth. -/
theorem writeNested_of_not_recurses (h : ∀ t, ¬ Recurses x r st t) (depth depth' : Nat) :
    writeNested x (depth + 1) r st = writeNested x (depth' + 1) r st := by
  by_cases hmax : maxSstSize ≤ st.blockBytesWritten
  · rw [writeNested, writeNested, Action.get_bind, Action.get_bind, if_pos hmax, if_pos hmax]
  rcases hout : (st.blockWriter.write r).1 with e | ⟨⟨⟩⟩
  · rw [writeNested, writeNested, Action.get_bind, Action.get_bind]
    simp only [if_neg hmax, hout]
  · rw [writeNested, writeNested, Action.get_bind, Action.get_bind]
    simp only [if_neg hmax, hout]
  · rw [writeNested_full hmax (Prod.ext hout rfl), writeNested_full hmax (Prod.ext hout rfl)]
    exact Action.bind_of_ne_ok fun _ t hflushed => h t ⟨hmax, hout, hflushed⟩

variable {limit : Nat} {done : List (List Record)} {cur : List Record}
  (hw : Wrote x limit done cur st)
include hw

theorem Recurses.wrote (h : Recurses x r st t) : cur ≠ [] ∧ Wrote x limit (done ++ [cur]) [] t := by
  have hwrite := write_writerOf limit cur r
  rw [← hw.blockWriter] at hwrite
  have hfull := h.full
  have hflushed := h.flushed
  by_cases hf : Full limit cur r
  · rw [if_pos hf] at hwrite
    rw [hwrite] at hflushed
    exact flushBlocks_wrote hw hflushed
  · rw [if_neg hf] at hwrite
    rw [hwrite] at hfull
    split at hfull <;> cases hfull

/-- The nested call is the last. -/
theorem Recurses.last (h : Recurses x r st t) : ∀ u, ¬ Recurses x r t u :=
  fun _ hu => (hu.wrote (h.wrote hw).2).1 rfl

theorem nestedCalls_le (r : Record) : ∃ n ≤ 1, NestedCalls x r st n := by
  by_cases h : ∃ t, Recurses x r st t
  · obtain ⟨t, ht⟩ := h
    exact ⟨1, le_rfl, .nested ht (.last (ht.last hw))⟩
  · exact ⟨0, Nat.zero_le 1, .last (not_exists.mp h)⟩

theorem writeNested_depth (r : Record) (depth : Nat) :
    writeNested x (depth + 2) r st = write x r st := by
  by_cases h : ∃ t, Recurses x r st t
  · obtain ⟨t, ht⟩ := h
    rw [write, writeNested_of_recurses ht, writeNested_of_recurses ht]
    exact writeNested_of_not_recurses (ht.last hw) depth 0
  · exact writeNested_of_not_recurses (not_exists.mp h) (depth + 1) 1

end

/-- Any call of `write` after successful writes: it makes at most one nested
call, so its result is the same at every depth of recursion that has room for
one, and if it succeeds the writer holds the record after those written before,
in the blocks written out and the current one. -/
theorem write_terminates_and_appends {x : Externals} {blockLimit : Option Nat} {count : Nat}
    {recs : List Record} {st₀ st : HashedWriterState}
    (hnew : HashedWriterState.new x blockLimit count = .ok st₀)
    (hrun : writeAll x recs st₀ = (.ok (), st)) (r : Record) :
    (∃ n ≤ 1, NestedCalls x r st n) ∧
    (∀ depth, writeNested x (depth + 2) r st = write x r st) ∧
    ∃ done cur, Wrote x (blockLimit.getD defaultBlockSize) done cur st ∧
      done.flatten ++ cur = recs ∧
      ∀ st', write x r st = (.ok (), st') → ∃ done' cur',
        Wrote x (blockLimit.getD defaultBlockSize) done' cur' st' ∧
        done'.flatten ++ cur' = recs ++ [r] := by
  have hw := writeAll_wrote (p := ([], [])) (wrote_new hnew) hrun
  have hflat := foldl_place_flatten (blockLimit.getD defaultBlockSize) recs ([], [])
  simp only [List.flatten_nil, List.nil_append] at hflat
  refine ⟨nestedCalls_le hw r, writeNested_depth hw r, _, _, hw, hflat, fun st' hst' => ?_⟩
  refine ⟨_, _, write_wrote hw hst', ?_⟩
  rw [place_flatten, hflat]

/-- A record that goes to a second block. -/
theorem write_terminates_and_appends_two_blocks :
    ∃ st₀ st st', HashedWriterState.new zeroHashes (some 0) 2 = .ok st₀ ∧
      writeAll zeroHashes [shortRecord 1 1] st₀ = (.ok (), st) ∧
      write zeroHashes (shortRecord 1 2) st = (.ok (), st') ∧
      (∃ n ≤ 1, NestedCalls zeroHashes (shortRecord 1 2) st n) ∧
      ∃ done cur, Wrote zeroHashes 0 done cur st' ∧
        done.flatten ++ cur = [shortRecord 1 1, shortRecord 1 2] := by
  have hok : (writeBlocks zeroHashes (some 0) 2
      [shortRecord 1 1, shortRecord 1 2]).isOk = true := by decide
  obtain ⟨_, hrun⟩ := Outcome.isOk_iff.mp hok
  obtain ⟨st₀, hnew, hrun⟩ := Outcome.bind_eq_ok.mp hrun
  rw [Outcome.mapErr_eq_ok, Outcome.ofExcept_eq_ok] at hnew
  obtain ⟨⟨⟩, hrun, -⟩ := Outcome.bind_eq_ok.mp hrun
  obtain ⟨⟨⟩, _, hwrites, -⟩ := Action.bind_eq_ok.mp (Prod.ext hrun rfl)
  obtain ⟨⟨⟩, st, hfirst, hwrites⟩ := Action.bind_eq_ok.mp hwrites
  obtain ⟨⟨⟩, st', hsecond, -⟩ := Action.bind_eq_ok.mp hwrites
  have hst : writeAll zeroHashes [shortRecord 1 1] st₀ = (.ok (), st) :=
    Action.bind_eq_ok.mpr ⟨(), st, hfirst, rfl⟩
  obtain ⟨hcalls, -, -, -, -, -, happends⟩ :=
    write_terminates_and_appends hnew hst (shortRecord 1 2)
  exact ⟨st₀, st, st', hnew, hst, hsecond, hcalls, happends st' hsecond⟩

end LG.Proof.Tsdb
