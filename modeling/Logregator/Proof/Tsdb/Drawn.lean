import Logregator.Framework.Draws
import Logregator.Proof.Tsdb.MergeIter

/-!
# What a merge draws from a table

`SstCursor::new` leaves a cursor on its first record, and `fill_from_single`
advances a cursor before it takes the record. So a merge draws from a cursor
what its successive `next` calls present (`presents_drawnFrom`), and never
the record that the cursor was opened on (`draws_all_iff_not_positioned`).
-/

namespace LG.Proof.Tsdb

open LG.Impl.Tsdb

/-- A call of `next`, and the record the cursor shows after it. -/
def advance (x : Externals) (h : SstHandle) (c : SstCursor) : Option (Option Record × SstCursor) :=
  (c.next x h).map fun c => (c.currentRecord, c)

/-- The records that successive `next` calls present, up to a call that
presents none. -/
def Presents (x : Externals) (h : SstHandle) : SstCursor → List Record → Prop :=
  Drains (advance x h)

/-- `fill_from_single` on a cursor alone: it is advanced, and its record
taken. -/
def refill (x : Externals) : SstHandle × SstCursor → Option (Option Record × SstHandle × SstCursor)
  | (h, c) => do
    let c ← c.next x h
    let (rec, c) := c.takeCurrent
    return (rec, h, c)

/-- A run of a merge, from `fill_from_all` until `next` returns `None`, draws
the records. -/
structure Drew (x : Externals) {hp : RecordHeap} (s : Sources) (m : MergeIter hp)
    (ds : List (Record × Source)) : Prop where
  built : MergeIter.fillFromAll x ⟨s, hp.empty⟩ = some m
  draws : ∃ later, Merge.Draws (Sources.draw x) m later ∧
    ds = Merge.fillAllDrawn (Sources.draw x) s.all (⟨s, hp.empty⟩ : MergeIter hp) ++ later

/-- A merge that is drained drew some records. -/
theorem exists_drew {x : Externals} {hp : RecordHeap} {s : Sources} {m : MergeIter hp}
    (hfill : MergeIter.fillFromAll x ⟨s, hp.empty⟩ = some m) {out : List Record}
    (hd : Drains (MergeIter.next x) m out) : ∃ ds, Drew x s m ds := by
  obtain ⟨later, hlater⟩ := Merge.exists_draws hd
  exact ⟨_, hfill, later, hlater, rfl⟩

/-! ## Cursors -/

theorem currentRecord_takeCurrent (c : SstCursor) : c.takeCurrent.1 = c.currentRecord := by
  unfold SstCursor.takeCurrent SstCursor.currentRecord
  cases c.blockCursor <;> rfl

/-- Taking the record does not change where the cursor goes next. -/
theorem next_takeCurrent (x : Externals) (h : SstHandle) (c : SstCursor) :
    c.takeCurrent.2.next x h = c.next x h := by
  unfold SstCursor.takeCurrent
  cases hc : c.blockCursor with
  | error e => rfl
  | ok bc =>
    simp only [SstCursor.next, hc, BlockCursor.takeCurrent, BlockCursor.next,
      BlockCursor.updateCurrent]

/-- Refilling from a cursor gives what its `next` calls present. -/
theorem presents_of_drains {x : Externals} {h : SstHandle} {hc : SstHandle × SstCursor}
    {recs : List Record} (hd : Drains (refill x) hc recs) (hh : hc.1 = h) :
    ∀ {c : SstCursor}, c.next x h = hc.2.next x h → Presents x h c recs := by
  induction hd with
  | @done hc hc' hstep =>
    intro c hnext
    obtain ⟨h', c'⟩ := hc
    cases hh
    simp only [refill, Option.bind_eq_bind, Option.bind_eq_some_iff, Option.pure_def,
      Option.some.injEq, Prod.mk.injEq] at hstep
    obtain ⟨c₁, hc₁, hrec, -⟩ := hstep
    rw [currentRecord_takeCurrent] at hrec
    have hstep : advance x h' c = some (none, c₁) := by
      rw [advance, hnext, hc₁]
      simp [hrec]
    exact .done hstep
  | @step hc hc' r recs hstep hd ih =>
    intro c hnext
    obtain ⟨h', c'⟩ := hc
    cases hh
    simp only [refill, Option.bind_eq_bind, Option.bind_eq_some_iff, Option.pure_def,
      Option.some.injEq, Prod.mk.injEq] at hstep
    obtain ⟨c₁, hc₁, hrec, hc'⟩ := hstep
    subst hc'
    rw [currentRecord_takeCurrent] at hrec
    have hstep : advance x h' c = some (some r, c₁) := by
      rw [advance, hnext, hc₁]
      simp [hrec]
    exact .step hstep (ih rfl (next_takeCurrent x h' c₁).symm)

/-! ## Sources -/

theorem nodup_all (s : Sources) : s.all.Nodup := by
  refine List.nodup_append.mpr ⟨List.nodup_range.map ?_, List.nodup_range.map ?_, ?_⟩
  · exact fun _ _ h => by cases h; rfl
  · exact fun _ _ h => by cases h; rfl
  · intro a ha b hb
    obtain ⟨i, -, rfl⟩ := List.mem_map.mp ha
    obtain ⟨j, -, rfl⟩ := List.mem_map.mp hb
    exact fun h => by cases h

/-- A cursor is a source of its own. -/
theorem viewed_sst (x : Externals) (i : Nat) :
    Viewed (Sources.draw x) (.sst i) (refill x) fun s => s.cursors[i]? where
  self := by
    rintro s s' ⟨h, c⟩ a hc hdraw
    simp only [Sources.draw, hc, Option.bind_eq_bind, Option.bind_some, Option.bind_eq_some_iff,
      Option.pure_def, Option.some.injEq, Prod.mk.injEq] at hdraw
    obtain ⟨c₁, hnext, rfl, rfl⟩ := hdraw
    refine ⟨(h, c₁.takeCurrent.2), by simp [refill, hnext], ?_⟩
    rw [List.getElem?_set_self (List.getElem?_eq_some_iff.mp hc).1]
  other := by
    intro s s' a j hj hdraw
    cases j with
    | memtable k =>
      simp only [Sources.draw, Option.bind_eq_bind, Option.bind_eq_some_iff] at hdraw
      obtain ⟨recs, -, hdraw⟩ := hdraw
      cases recs <;> cases hdraw <;> rfl
    | sst k =>
      have hne : k ≠ i := fun h => hj (h ▸ rfl)
      simp only [Sources.draw, Option.bind_eq_bind, Option.bind_eq_some_iff, Option.pure_def,
        Option.some.injEq, Prod.mk.injEq] at hdraw
      obtain ⟨⟨h, c⟩, -, c₁, -, -, rfl⟩ := hdraw
      exact List.getElem?_set_ne hne

/-- A merge draws from a cursor what its `next` calls present. -/
theorem presents_drawnFrom {x : Externals} {hp : RecordHeap} {s : Sources} {m : MergeIter hp}
    {ds : List (Record × Source)} (hrun : Drew x s m ds) {i : Nat} {h : SstHandle} {c : SstCursor}
    (hc : s.cursors[i]? = some (h, c)) : Presents x h c (drawnFrom (.sst i) ds) := by
  obtain ⟨later, hlater, rfl⟩ := hrun.draws
  have hi : Source.sst i ∈ s.all := by
    refine List.mem_append_right _ (List.mem_map_of_mem (List.mem_range.mpr ?_))
    exact (List.getElem?_eq_some_iff.mp hc).1
  exact presents_of_drains ((viewed_sst x i).drains_drawnFrom (nodup_all s) hi hc hrun.built hlater)
    rfl rfl

/-- What a merge drew from the cursor is the record it was opened on and all
that its `next` calls present. -/
def DrawsAll (x : Externals) (h : SstHandle) (c : SstCursor) (recs : List Record) : Prop :=
  ∀ r, c.currentRecord = some r → ∀ later, Presents x h c later → recs = r :: later

/-- A merge draws all of a cursor's records only where the cursor was opened
on none: the draws are what `next` presents, without the first record. -/
theorem draws_all_iff_not_positioned {x : Externals} {hp : RecordHeap} {s : Sources}
    {m : MergeIter hp} {ds : List (Record × Source)} (hrun : Drew x s m ds) {i : Nat}
    {h : SstHandle} {c : SstCursor} (hc : s.cursors[i]? = some (h, c)) :
    DrawsAll x h c (drawnFrom (.sst i) ds) ↔ c.currentRecord = none := by
  have hpresents := presents_drawnFrom hrun hc
  constructor
  · intro hall
    by_contra hne
    obtain ⟨r, hr⟩ := Option.ne_none_iff_exists'.mp hne
    exact absurd (congrArg List.length (hall r hr _ hpresents)) (by simp)
  · intro hnone r hr
    rw [hnone] at hr
    cases hr

/-- The keys of a stream, as `LsmTree::range` bounds them. -/
def streamBounds (s : UInt64) : Bound Key × Bound Key :=
  (.included ⟨s, 0, 0, 0⟩, .included ⟨s, 100, 100, 100⟩)

/-- A table with the records of stream 1 at the times 1 and 2. -/
def twoRecordTable : Outcome SstError SstHandle := do
  let st ← writeBlocks zeroHashes none 2 [⟨⟨1, 1, 0, 0⟩, [0, 0]⟩, ⟨⟨1, 2, 0, 0⟩, [0, 0]⟩]
  return st.handle 0 []

/-- The merge over that table, for its stream. -/
def twoRecordMerge (h : SstHandle) : Outcome SstError (MergeIter (.sortedList _ _)) :=
  MergeIter.new zeroHashes _ (.withSizeLimit 0 0) [] [h] (streamBounds 1).1 (streamBounds 1).2

/-- The cursor is opened on the first record, and the merge ends. -/
theorem drew_twoRecordMerge : ∃ h m s c ds, twoRecordTable = .ok h ∧ twoRecordMerge h = .ok m ∧
    Drew zeroHashes s m ds ∧ s.cursors[0]? = some (h, c) ∧
    c.currentRecord = some ⟨⟨1, 1, 0, 0⟩, [0, 0]⟩ ∧
    Presents zeroHashes h c [⟨⟨1, 2, 0, 0⟩, [0, 0]⟩] := by
  have hrun : (do
      let h ← twoRecordTable
      let m ← twoRecordMerge h
      let cs ← MergeIter.openCursors zeroHashes (streamBounds 1).1 (streamBounds 1).2 [h]
      .expect (do
        let (h', c) ← cs[0]?
        let out ← collect (MergeIter.next zeroHashes) 2 m
        let later ← collect (advance zeroHashes h) 2 c
        return (decide (h' = h), c.currentRecord, out.length, later)) : Outcome SstError _) =
      .ok (true, some ⟨⟨1, 1, 0, 0⟩, [0, 0]⟩, 1, [⟨⟨1, 2, 0, 0⟩, [0, 0]⟩]) := by decide +kernel
  obtain ⟨h, hh, hrun⟩ := Outcome.bind_eq_ok.mp hrun
  obtain ⟨m, hm, hrun⟩ := Outcome.bind_eq_ok.mp hrun
  obtain ⟨cs, hcs, hrun⟩ := Outcome.bind_eq_ok.mp hrun
  have hrun := Outcome.expect_eq_ok.mp hrun
  simp only [Option.bind_eq_bind, Option.bind_eq_some_iff, Option.pure_def, Option.some.injEq,
    Prod.mk.injEq, decide_eq_true_eq] at hrun
  obtain ⟨⟨h', c⟩, hc, out, hout, later, hlater, rfl, hrec, -, rfl⟩ := hrun
  obtain ⟨cs', memtables, hopen, -, hfill⟩ := mergeNew_eq_ok hm
  rw [hcs] at hopen
  cases hopen
  obtain ⟨ds, hdrew⟩ := exists_drew hfill (drains_of_collect hout)
  exact ⟨h', m, _, c, ds, hh, hm, hdrew, hc, hrec, drains_of_collect hlater⟩

theorem draws_all_iff_not_positioned_two : ∃ h m s c ds, twoRecordTable = .ok h ∧
    twoRecordMerge h = .ok m ∧ Drew zeroHashes s m ds ∧ s.cursors[0]? = some (h, c) ∧
    (DrawsAll zeroHashes h c (drawnFrom (.sst 0) ds) ↔ c.currentRecord = none) := by
  obtain ⟨h, m, s, c, ds, hh, hm, hdrew, hc, -⟩ := drew_twoRecordMerge
  exact ⟨h, m, s, c, ds, hh, hm, hdrew, hc, draws_all_iff_not_positioned hdrew hc⟩

/-- The cursor is on the first record and then presents the second; the merge
draws the second only. -/
theorem merge_skips_first_record : ∃ h m s c ds, twoRecordTable = .ok h ∧
    twoRecordMerge h = .ok m ∧ Drew zeroHashes s m ds ∧ s.cursors[0]? = some (h, c) ∧
    c.currentRecord = some ⟨⟨1, 1, 0, 0⟩, [0, 0]⟩ ∧
    drawnFrom (.sst 0) ds = [⟨⟨1, 2, 0, 0⟩, [0, 0]⟩] ∧
    ¬ DrawsAll zeroHashes h c (drawnFrom (.sst 0) ds) := by
  obtain ⟨h, m, s, c, ds, hh, hm, hdrew, hc, hrec, hlater⟩ := drew_twoRecordMerge
  have hdrawn := (presents_drawnFrom hdrew hc).unique hlater
  refine ⟨h, m, s, c, ds, hh, hm, hdrew, hc, hrec, hdrawn, fun hall => ?_⟩
  rw [hdrawn] at hall
  exact absurd (hall _ hrec _ hlater) (by simp)

end LG.Proof.Tsdb
