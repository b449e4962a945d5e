import Logregator.Proof.Tsdb.Drawn
import Logregator.Proof.Tsdb.Table

/-!
# The merge of any sources

Each source of a `MergeIter` gives a sequence of records when it is drawn by
`fill_from_single`, and then none; a cursor might give records again after
that, but it is not drawn again. Where the sequences ascend, the merge yields
their union in ascending order, and the records of each source in its order
(`merge_union`).
-/

namespace LG.Proof.Tsdb

open LG.Impl.Tsdb

/-- What a source gives: what a memtable's range still has, or what refilling
from a cursor gives. -/
def Gives (x : Externals) (s : Sources) : Source → List Record → Prop
  | .memtable idx, recs => s.memtables[idx]? = some recs
  | .sst idx, recs => ∃ hc, s.cursors[idx]? = some hc ∧ Drains (refill x) hc recs

section

variable {x : Externals} {s : Sources}

theorem draw_memtable {idx : Nat} {recs : List Record} (h : s.memtables[idx]? = some recs) :
    s.draw x (.memtable idx) =
      some (recs.head?, { s with memtables := s.memtables.set idx recs.tail }) := by
  cases recs with
  | nil =>
    have hset : s.memtables.set idx [] = s.memtables := by
      obtain ⟨hlt, hget⟩ := List.getElem?_eq_some_iff.mp h
      rw [← hget, List.set_getElem_self hlt]
    simp [Sources.draw, h, hset]
  | cons r recs => simp [Sources.draw, h]

theorem draw_sst {idx : Nat} {hc hc' : SstHandle × SstCursor} {r : Option Record}
    (h : s.cursors[idx]? = some hc) (hrefill : refill x hc = some (r, hc')) :
    s.draw x (.sst idx) = some (r, { s with cursors := s.cursors.set idx hc' }) := by
  obtain ⟨handle, c⟩ := hc
  simp only [refill, Option.bind_eq_bind, Option.bind_eq_some_iff, Option.pure_def,
    Option.some.injEq, Prod.mk.injEq] at hrefill
  obtain ⟨c₁, hnext, rfl, rfl⟩ := hrefill
  simp [Sources.draw, h, hnext]

theorem feeds_sources (x : Externals) (s₀ : Sources) :
    Feeds (Sources.draw x) s₀.all (Gives x) where
  nodup := nodup_all s₀
  draw := by
    intro s i recs _ hgives
    cases i with
    | memtable idx =>
      refine ⟨_, draw_memtable hgives, fun _ => ?_, fun j hj recs' hj' => ?_⟩
      · exact List.getElem?_set_self (List.getElem?_eq_some_iff.mp hgives).1
      · cases j with
        | memtable k =>
          have hne : idx ≠ k := fun h => hj (h ▸ rfl)
          exact (List.getElem?_set_ne hne).trans hj'
        | sst k => exact hj'
    | sst idx =>
      obtain ⟨hc, hget, hd⟩ := hgives
      obtain ⟨hc', hrefill, htail⟩ := hd.next_eq
      refine ⟨_, draw_sst hget hrefill, fun hne => ?_, fun j hj recs' hj' => ?_⟩
      · exact ⟨hc', List.getElem?_set_self (List.getElem?_eq_some_iff.mp hget).1, htail hne⟩
      · cases j with
        | memtable k => exact hj'
        | sst k =>
          have hne : idx ≠ k := fun h => hj (h ▸ rfl)
          obtain ⟨hk, hgetk, hdk⟩ := hj'
          exact ⟨hk, (List.getElem?_set_ne hne).trans hgetk, hdk⟩

/-- A memtable's range is a source of its own. -/
theorem viewed_memtable (x : Externals) (i : Nat) :
    Viewed (Sources.draw x) (.memtable i) (fun recs => some (recs.head?, recs.tail))
      fun s => s.memtables[i]? where
  self := by
    intro s s' recs a hrecs hdraw
    rw [draw_memtable hrecs] at hdraw
    cases hdraw
    exact ⟨_, rfl, List.getElem?_set_self (List.getElem?_eq_some_iff.mp hrecs).1⟩
  other := by
    intro s s' a j hj hdraw
    cases j with
    | memtable k =>
      simp only [Sources.draw, Option.bind_eq_bind, Option.bind_eq_some_iff] at hdraw
      obtain ⟨recs, -, hdraw⟩ := hdraw
      cases recs with
      | nil =>
        cases hdraw
        rfl
      | cons r recs =>
        have hne : k ≠ i := fun h => hj (h ▸ rfl)
        cases hdraw
        exact List.getElem?_set_ne hne
    | sst k =>
      simp only [Sources.draw, Option.bind_eq_bind, Option.bind_eq_some_iff, Option.pure_def,
        Option.some.injEq, Prod.mk.injEq] at hdraw
      obtain ⟨_, -, c₁, -, -, rfl⟩ := hdraw
      rfl

/-- What drawing a source again and again gives. -/
theorem gives_of_drains {i : Source} (hi : i ∈ s.all) {recs : List Record}
    (hd : Drains (fun s => s.draw x i) s recs) : Gives x s i recs := by
  rcases List.mem_append.mp hi with hi | hi
  · obtain ⟨idx, hidx, rfl⟩ := List.mem_map.mp hi
    have hget := List.getElem?_eq_getElem (List.mem_range.mp hidx)
    have hview := (viewed_memtable x idx).drains_view hd hget
    rw [Gives, hview.unique (drains_list _)]
    exact hget
  · obtain ⟨idx, hidx, rfl⟩ := List.mem_map.mp hi
    have hget := List.getElem?_eq_getElem (List.mem_range.mp hidx)
    exact ⟨_, hget, (viewed_sst x idx).drains_view hd hget⟩

end

/-- A merge of any sources, each of which gives an ascending sequence when it is
drawn: it yields their union in ascending order, and the items it pops from
each source are the source's sequence. -/
theorem merge_union {x : Externals} (hp : RecordHeap) {s : Sources} {seq : Source → List Record}
    (hdraws : ∀ i ∈ s.all, Drains (fun s => s.draw x i) s (seq i))
    (hasc : ∀ i ∈ s.all, (seq i).Pairwise fun a b => a.key ≤ b.key) :
    ∃ (m : MergeIter hp) (ps : List (Record × Source)),
      MergeIter.fillFromAll x ⟨s, hp.empty⟩ = some m ∧
      Merge.Pops (Sources.draw x) m ps ∧ Drains (MergeIter.next x) m (ps.map Prod.fst) ∧
      (ps.map Prod.fst).Pairwise (fun a b => a.key ≤ b.key) ∧
      (ps.map Prod.fst).Perm (s.all.flatMap seq) ∧ ∀ i ∈ s.all, drawnFrom i ps = seq i := by
  obtain ⟨m, ps, hfill, hps, hperm, hsorted, -, hfrom⟩ := pops_feeds hp (feeds_sources x s)
    (fun i hi => gives_of_drains hi (hdraws i hi)) hasc
  exact ⟨m, ps, hfill, hps, hps.drains, hsorted, hperm, hfrom⟩

/-- A table of two records, of which a cursor on the first gives the second, and
a memtable with a later one. -/
theorem merge_union_table_and_memtable :
    ∃ h c, twoRecordTable = .ok h ∧ h.cursor zeroHashes (some (streamBounds 1)) = .ok c ∧
      ∃ (m : MergeIter (.sortedList _ _)) (ps : List (Record × Source)),
        MergeIter.fillFromAll zeroHashes ⟨⟨[[shortRecord 1 3]], [(h, c)]⟩, MinHeap.empty _⟩ =
          some m ∧
        Drains (MergeIter.next zeroHashes) m (ps.map Prod.fst) ∧
        (ps.map Prod.fst).Perm [shortRecord 1 3, shortRecord 1 2] ∧
        drawnFrom (.sst 0) ps = [shortRecord 1 2] := by
  have hrun : (do
      let h ← twoRecordTable
      let c ← h.cursor zeroHashes (some (streamBounds 1))
      .expect (collect (Sources.draw zeroHashes · (.sst 0)) 2 ⟨[[shortRecord 1 3]], [(h, c)]⟩)) =
      Outcome.ok [shortRecord 1 2] := by decide +kernel
  obtain ⟨h, hh, hrun⟩ := Outcome.bind_eq_ok.mp hrun
  obtain ⟨c, hc, hrun⟩ := Outcome.bind_eq_ok.mp hrun
  have htable := drains_of_collect (Outcome.expect_eq_ok.mp hrun)
  have hmemtable : Drains (Sources.draw zeroHashes · (.memtable 0)) ⟨[[shortRecord 1 3]], [(h, c)]⟩
      [shortRecord 1 3] := .step rfl (.done rfl)
  let seq (i : Source) : List Record := if i = .sst 0 then [shortRecord 1 2] else [shortRecord 1 3]
  have hdraws : ∀ i ∈ Sources.all ⟨[[shortRecord 1 3]], [(h, c)]⟩,
      Drains (Sources.draw zeroHashes · i) ⟨[[shortRecord 1 3]], [(h, c)]⟩ (seq i) :=
    List.forall_mem_cons.mpr ⟨hmemtable, List.forall_mem_singleton.mpr htable⟩
  have hasc : ∀ i ∈ Sources.all ⟨[[shortRecord 1 3]], [(h, c)]⟩,
      (seq i).Pairwise fun a b => a.key ≤ b.key :=
    List.forall_mem_cons.mpr ⟨List.pairwise_singleton _ _,
      List.forall_mem_singleton.mpr (List.pairwise_singleton _ _)⟩
  obtain ⟨m, ps, hfill, -, hd, -, hperm, hfrom⟩ := merge_union (.sortedList _ _) hdraws hasc
  exact ⟨h, c, hh, hc, m, ps, hfill, hd, hperm,
    hfrom (.sst 0) (List.mem_cons_of_mem _ List.mem_cons_self)⟩

end LG.Proof.Tsdb
