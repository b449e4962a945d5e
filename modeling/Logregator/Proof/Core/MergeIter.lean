import Logregator.Framework.Feeding
import Logregator.Proof.Core.Iter

/-!
# The deduplicating merge

`MergeIter` over any valid iterators of ascending records yields a strictly
ascending sequence, with one record for each key that occurs in an iterator
(`drains_mergeIter`). The bound on the loop of `next` is enough in every state
(`length_le_bound`).
-/

namespace LG.Proof.Core

open LG.Impl.Core LG.Spec.Core

/-! ## The sources -/

/-- What a source will still give. -/
def sourceRest (s : Sources) : Nat → List Record
  | 0 => match s.memtable with
    | some iter => iter.inner.filter (IntoIterFiltered.keeps iter.query)
    | none => []
  | n + 1 => match s.sstables[n]? with
    | some iter => iterRest iter
    | none => []

/-- A table's source gives what its iterator does. -/
theorem sourceRest_succ (s : Sources) (n : Nat) :
    sourceRest s (n + 1) = [] ∨ ∃ iter ∈ s.sstables, sourceRest s (n + 1) = iterRest iter := by
  rw [sourceRest]
  split
  · rename_i iter hget
    exact .inr ⟨iter, List.mem_of_getElem? hget, rfl⟩
  · exact .inl rfl

/-- Sources of a given shape, with valid iterators. -/
structure SourcesValid (mem : Bool) (n : Nat) (s : Sources) : Prop where
  memtable : s.memtable.isSome = mem
  length : s.sstables.length = n
  iters : ∀ iter ∈ s.sstables, IterValid iter

/-- The sources of a shape. -/
def sourcesOf (mem : Bool) (n : Nat) : List Nat :=
  (if mem then [0] else []) ++ (List.range n).map (· + 1)

theorem exists_source {s : Sources} {iter : RecordIter} (h : iter ∈ s.sstables) (mem : Bool) :
    ∃ i ∈ sourcesOf mem s.sstables.length, sourceRest s i = iterRest iter := by
  obtain ⟨n, hn, rfl⟩ := List.mem_iff_getElem.mp h
  refine ⟨n + 1, List.mem_append_right _ (List.mem_map_of_mem (List.mem_range.mpr hn)), ?_⟩
  simp only [sourceRest, List.getElem?_eq_getElem hn]

theorem all_eq {mem : Bool} {n : Nat} {s : Sources} (h : SourcesValid mem n s) :
    s.all = sourcesOf mem n := by
  rw [Sources.all, sourcesOf, h.memtable, h.length]

theorem nextIn_eq (q : Query) : ∀ recs : List Record, ∃ rest,
    IntoIterFiltered.nextIn q recs = ((recs.filter (IntoIterFiltered.keeps q)).head?, rest) ∧
      rest.filter (IntoIterFiltered.keeps q) = (recs.filter (IntoIterFiltered.keeps q)).tail ∧
      rest.Sublist recs.tail
  | [] => ⟨[], rfl, rfl, .refl _⟩
  | r :: recs => by
    unfold IntoIterFiltered.nextIn
    split
    · rename_i h
      rw [List.filter_cons_of_pos h]
      exact ⟨recs, rfl, rfl, .refl _⟩
    · rename_i h
      rw [List.filter_cons_of_neg h]
      obtain ⟨rest, hnext, htail, hsub⟩ := nextIn_eq q recs
      exact ⟨rest, hnext, htail, hsub.trans (List.tail_sublist _)⟩

theorem sourced_iters (mem : Bool) (n : Nat) :
    Sourced Sources.draw sourceRest (sourcesOf mem n) (SourcesValid mem n) where
  nodup := by
    have hsst : ((List.range n).map (· + 1)).Nodup :=
      List.nodup_range.map fun _ _ h => Nat.succ.inj h
    unfold sourcesOf
    split
    · exact List.nodup_append.mpr ⟨by simp, hsst, by simp⟩
    · exact hsst
  draw := by
    intro s i hv hi
    cases i with
    | zero =>
      have hmem : mem = true := by
        by_contra hne
        simp [sourcesOf, hne] at hi
      obtain ⟨iter, hiter⟩ := Option.isSome_iff_exists.mp (hv.memtable.trans hmem)
      obtain ⟨rest, hnext, htail, -⟩ := nextIn_eq iter.query iter.inner
      refine ⟨{ s with memtable := some { iter with inner := rest } }, ?_,
        ⟨by simpa using hmem.symm, hv.length, hv.iters⟩, ?_, ?_⟩
      · simp only [Sources.draw, hiter, IntoIterFiltered.next, hnext, sourceRest]
      · simp only [sourceRest, hiter, htail]
      · intro j hj
        cases j with
        | zero => exact absurd rfl hj
        | succ j => rfl
    | succ i =>
      have hlt : i < s.sstables.length := by
        have hi : i + 1 ∈ sourcesOf mem n := hi
        rw [hv.length]
        cases mem <;> simpa [sourcesOf] using hi
      have hget := List.getElem?_eq_getElem hlt
      obtain ⟨iter', hnext, hvalid, htail⟩ := next_valid (hv.iters _ (List.getElem_mem hlt))
      refine ⟨{ s with sstables := s.sstables.set i iter' }, ?_,
        ⟨hv.memtable, by simpa using hv.length, fun iter hiter => ?_⟩, ?_, ?_⟩
      · simp only [Sources.draw, hget, hnext, sourceRest]
        rfl
      · rcases List.mem_or_eq_of_mem_set hiter with hiter | rfl
        · exact hv.iters _ hiter
        · exact hvalid
      · simp only [sourceRest, List.getElem?_set_self hlt, hget, htail]
      · intro j hj
        cases j with
        | zero => rfl
        | succ j =>
          have hne : i ≠ j := fun h => hj (h ▸ rfl)
          simp only [sourceRest, List.getElem?_set_ne hne]

/-! ## Bounds -/

theorem nextLoop_bound : ∀ {n : Nat} {it it' : SSTableIterFiltered} {o : Option Record},
    it.nextLoop n = some (o, it') →
    o.toList.length + (it'.file.length - it'.pos) ≤ it.file.length - it.pos
  | 0, it, it', o, h => by
    cases h
    simp
  | n + 1, it, it', o, h => by
    unfold SSTableIterFiltered.nextLoop at h
    split at h
    · cases h
      simp
    · cases hread : readFrame longestRecord (it.file.drop it.pos) with
      | noPrefix | torn =>
        rw [hread] at h
        cases h
        simp
      | overflow =>
        rw [hread] at h
        cases h
      | body body rest =>
        have hlen := readFrame_eq_body hread
        rw [List.length_drop] at hlen
        simp only [hread] at h
        rw [Option.bind_eq_bind, Option.bind_eq_some_iff] at h
        obtain ⟨verdict, -, h⟩ := h
        cases verdict with
        | skip =>
          have := nextLoop_bound h
          simp only at this
          omega
        | finish | found =>
          cases h
          simp only [Option.toList_none, Option.toList_some, List.length_nil, List.length_singleton]
          omega

theorem next_bound {iter iter' : RecordIter} {o : Option Record} (h : iter.next = some (o, iter')) :
    o.toList.length + iter'.bound ≤ iter.bound := by
  cases iter with
  | filtered it =>
    rw [RecordIter.next, Option.bind_eq_bind, Option.bind_eq_some_iff] at h
    obtain ⟨⟨o, it'⟩, hnext, h⟩ := h
    cases h
    exact nextLoop_bound hnext
  | unfiltered it =>
    rw [RecordIter.next, Option.bind_eq_bind, Option.bind_eq_some_iff] at h
    obtain ⟨⟨o, it'⟩, hnext, h⟩ := h
    cases h
    exact unfiltered_bound hnext
  | inmem rest =>
    cases h
    cases rest with
    | nil => simp [RecordIter.bound]
    | cons r rest =>
      simp only [RecordIter.bound, List.head?_cons, Option.toList_some, List.length_cons,
        List.length_nil, List.tail_cons]
      omega

theorem sum_map_set {α : Type} {f : α → Nat} {b : α} : ∀ {l : List α} {i : Nat} {a : α},
    l[i]? = some a → ((l.set i b).map f).sum + f a = (l.map f).sum + f b
  | x :: l, 0, a, h => by
    cases h
    simp only [List.set_cons_zero, List.map_cons, List.sum_cons]
    omega
  | x :: l, i + 1, a, h => by
    have := sum_map_set (f := f) (b := b) (l := l) (i := i) h
    simp only [List.set_cons_succ, List.map_cons, List.sum_cons]
    omega

theorem draw_bound {s s' : Sources} {i : Nat} {o : Option Record}
    (h : s.draw i = some (o, s')) : o.toList.length + s'.bound ≤ s.bound := by
  cases i with
  | zero =>
    cases hmem : s.memtable with
    | none =>
      simp only [Sources.draw, hmem] at h
      cases h
    | some iter =>
      obtain ⟨rest, hnext, -, hsub⟩ := nextIn_eq iter.query iter.inner
      simp only [Sources.draw, hmem, IntoIterFiltered.next, hnext, Option.some.injEq,
        Prod.mk.injEq] at h
      obtain ⟨rfl, rfl⟩ := h
      have hlen := hsub.length_le
      simp only [Sources.bound, hmem]
      cases hf : iter.inner with
      | nil => simp [hf] at hlen ⊢; exact hlen
      | cons r recs =>
        have hone : ∀ o : Option Record, o.toList.length ≤ 1 := by
          intro o
          cases o <;> simp
        have := hone ((r :: recs).filter (IntoIterFiltered.keeps iter.query)).head?
        rw [hf, List.tail_cons] at hlen
        rw [List.length_cons]
        omega
  | succ i =>
    cases hget : s.sstables[i]? with
    | none =>
      simp only [Sources.draw, hget, Option.some.injEq, Prod.mk.injEq] at h
      obtain ⟨rfl, rfl⟩ := h
      simp
    | some iter =>
      simp only [Sources.draw, hget] at h
      rw [Option.bind_eq_bind, Option.bind_eq_some_iff] at h
      obtain ⟨⟨o, iter'⟩, hnext, h⟩ := h
      cases h
      have hb := next_bound hnext
      have hsum := sum_map_set (f := RecordIter.bound) (b := iter') hget
      simp only [Sources.bound]
      omega

/-- A merge yields no more records than `bound` says, in any state. -/
theorem length_le_bound {hp : RecordHeap} {m : Merge hp Sources} {as : List Record}
    (hd : Drains (Merge.next Sources.draw) m as) :
    as.length ≤ (hp.items m.heap).length + m.sources.bound := by
  refine Merge.length_le (fun h => ?_) (fun h => ?_) hd
  · have := draw_bound h
    simp only [Option.toList_some, List.length_singleton] at this
    omega
  · have := draw_bound h
    simpa using this

/-! ## The merge -/

theorem same_eq {a b : Record} (ha : a.Comparable) (hb : b.Comparable) :
    MergeIter.same a b = some (decide (a.orderKey = b.orderKey)) := by
  rw [MergeIter.same, cmp_eq ha hb, Option.map_some]
  congr 1
  rw [Bool.eq_iff_iff, beq_iff_eq, decide_eq_true_iff, ordCmp_eq_eq]

/-- Strictly ascending records have different keys. -/
theorem ascending_inj {recs : List Record} (h : Ascending recs) {a b : Record} (ha : a ∈ recs)
    (hb : b ∈ recs) (hkey : a.orderKey = b.orderKey) : a = b := by
  have hkeys : (recs.map Record.orderKey).Nodup := List.pairwise_map.mpr (h.imp ne_of_lt)
  exact List.inj_on_of_nodup_map hkeys ha hb hkey

/-- What `MergeIter` makes of a merge: the distinct ones of the merged records,
which ascend if these do. -/
theorem drains_distinct {hp : RecordHeap} {m : Merge hp Sources} {as : List Record}
    (hd : Drains (Merge.next Sources.draw) m as)
    (hsorted : as.Pairwise fun a b => a.orderKey ≤ b.orderKey) (hc : ∀ r ∈ as, r.Comparable) :
    ∃ out, Drains MergeIter.next ⟨m, none⟩ out ∧ Ascending out ∧ out.Sublist as ∧
      ∀ r ∈ as, ∃ q ∈ out, q.orderKey = r.orderKey := by
  refine ⟨Distinct.distinct Record.orderKey none as, ?_, ?_, distinct_sublist none as,
    fun r hr => ?_⟩
  · apply Distinct.drains (fun h => Nat.lt_succ_of_le (length_le_bound h)) rfl hd
    exact fun a ha b hb => same_eq (hc a ha) (hc b hb)
  · exact distinct_ascending (l := none) hsorted
  · have hkey : (none : Option Record).map Record.orderKey = some r.orderKey ∨
        ∃ q ∈ Distinct.distinct Record.orderKey none as, q.orderKey = r.orderKey :=
      exists_mem_distinct hr
    exact hkey.resolve_left (by simp)

/-- Merging valid iterators of ascending records: what is yielded is strictly
ascending, comes from the sources, and has every key of theirs. -/
theorem drains_mergeIter (hp : RecordHeap) {s : Sources} {mem : Bool} {n : Nat}
    (hv : SourcesValid mem n s)
    (hasc : ∀ i ∈ sourcesOf mem n, Ascending (sourceRest s i))
    (hc : ∀ i ∈ sourcesOf mem n, ∀ r ∈ sourceRest s i, r.Comparable) :
    ∃ m, MergeIter.new hp s.memtable s.sstables = some m ∧
      ∃ out, Drains MergeIter.next m out ∧ Ascending out ∧
        (∀ r ∈ out, ∃ i ∈ sourcesOf mem n, r ∈ sourceRest s i) ∧
        (∀ i ∈ sourcesOf mem n, ∀ r ∈ sourceRest s i, ∃ q ∈ out, q.orderKey = r.orderKey) ∧
        out.length ≤ m.bound := by
  obtain ⟨m, hfill, as, hd, hperm, hsorted⟩ := drains_merge hp (sourced_iters mem n) hv
    fun i hi => List.Pairwise.imp le_of_lt (hasc i hi)
  have hmem {r : Record} : r ∈ as ↔ ∃ i ∈ sourcesOf mem n, r ∈ sourceRest s i :=
    hperm.mem_iff.trans List.mem_flatMap
  have hcomp (r : Record) (hr : r ∈ as) : r.Comparable := by
    obtain ⟨i, hi, hr⟩ := hmem.mp hr
    exact hc i hi r hr
  obtain ⟨out, hout, hascending, hsub, hkeys⟩ := drains_distinct hd hsorted hcomp
  refine ⟨⟨m, none⟩, ?_, out, hout, hascending, fun r hr => hmem.mp (hsub.mem hr),
    fun i hi r hr => hkeys r (hmem.mpr ⟨i, hi, hr⟩), hsub.length_le.trans (length_le_bound hd)⟩
  rw [MergeIter.new, all_eq hv, hfill]
  rfl

end LG.Proof.Core
