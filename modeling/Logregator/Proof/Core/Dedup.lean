import Logregator.Proof.Core.MergeIter

/-!
# The deduplicating merge of any iterators

The iterators of a `MergeIter` yield ascending records, repetitions among them,
and then `None`; what they would yield after that is not known. The merge
yields one record for each identity among theirs, strictly ascending, and
`refil` is called for source 0 only if there is a memtable (`dedup_merge`).
-/

namespace LG.Proof.Core

open LG.Impl.Core LG.Spec.Core

/-! ## Identities -/

/-- Eight bytes are known from the number they are. -/
theorem u64At_inj {bs bs' : List UInt8} {i : Nat} (h : i + 8 ≤ bs.length)
    (h' : i + 8 ≤ bs'.length) :
    u64At bs i = u64At bs' i ↔ (bs.drop i).take 8 = (bs'.drop i).take 8 := by
  refine ⟨fun heq => ?_, fun heq => by rw [u64At, u64At, heq]⟩
  have hlen {l : List UInt8} (hl : i + 8 ≤ l.length) : ((l.drop i).take 8).length = 8 := by
    rw [List.length_take, List.length_drop]
    omega
  have hlt {l : List UInt8} (hl : i + 8 ≤ l.length) : ofBe ((l.drop i).take 8) < 2 ^ 64 := by
    have := ofBe_lt ((l.drop i).take 8)
    rwa [hlen hl] at this
  have hnat : ofBe ((bs.drop i).take 8) = ofBe ((bs'.drop i).take 8) := by
    rw [← UInt64.toNat_ofNat_of_lt' (hlt h), ← UInt64.toNat_ofNat_of_lt' (hlt h')]
    exact congrArg UInt64.toNat heq
  rw [← beBytes_ofBe (hlen h), hnat, beBytes_ofBe (hlen h')]

theorem i64At_inj {bs bs' : List UInt8} {i : Nat} (h : i + 8 ≤ bs.length)
    (h' : i + 8 ≤ bs'.length) :
    i64At bs i = i64At bs' i ↔ (bs.drop i).take 8 = (bs'.drop i).take 8 := by
  rw [← u64At_inj h h', i64At, i64At]
  exact ⟨fun heq => congrArg Int64.toUInt64 heq, congrArg UInt64.toInt64⟩

/-- Records compare equal if they have the same identity. -/
theorem identity_eq_iff {a b : Record} (ha : a.Comparable) (hb : b.Comparable) :
    identity a = identity b ↔ a.orderKey = b.orderKey := by
  have hla := Comparable.length ha
  have hlb := Comparable.length hb
  simp only [identity, Record.orderKey, Prod.mk.injEq, EmbeddingLike.apply_eq_iff_eq]
  rw [i64At_inj (by omega) (by omega), i64At_inj (by omega) (by omega),
    u64At_inj (by omega) (by omega), List.drop_zero, List.drop_zero]

/-! ## The sources -/

/-- What an iterator yields. -/
def Gives (s : Sources) : Nat → List Record → Prop
  | 0, recs => ∃ iter, s.memtable = some iter ∧
    Drains (fun iter : IntoIterFiltered => some iter.next) iter recs
  | n + 1, recs => ∃ iter, s.sstables[n]? = some iter ∧ Drains RecordIter.next iter recs

theorem feeds_iters (s₀ : Sources) : Feeds Sources.draw s₀.all Gives where
  nodup := (sourced_iters s₀.memtable.isSome s₀.sstables.length).nodup
  draw := by
    intro s i recs _ hgives
    cases i with
    | zero =>
      obtain ⟨iter, hmem, hd⟩ := hgives
      obtain ⟨iter', hnext, htail⟩ := hd.next_eq
      refine ⟨{ s with memtable := some iter' }, ?_, fun hne => ⟨iter', rfl, htail hne⟩,
        fun j hj recs' hj' => ?_⟩
      · simp only [Sources.draw, hmem, Option.some.inj hnext]
      · cases j with
        | zero => exact absurd rfl hj
        | succ j => exact hj'
    | succ n =>
      obtain ⟨iter, hget, hd⟩ := hgives
      obtain ⟨iter', hnext, htail⟩ := hd.next_eq
      have hlt := (List.getElem?_eq_some_iff.mp hget).1
      refine ⟨{ s with sstables := s.sstables.set n iter' }, ?_,
        fun hne => ⟨iter', List.getElem?_set_self hlt, htail hne⟩, fun j hj recs' hj' => ?_⟩
      · simp only [Sources.draw, hget, hnext]
        rfl
      · cases j with
        | zero => exact hj'
        | succ j =>
          have hne : n ≠ j := fun h => hj (h ▸ rfl)
          obtain ⟨iterj, hgetj, hdj⟩ := hj'
          exact ⟨iterj, (List.getElem?_set_ne hne).trans hgetj, hdj⟩

theorem zero_mem_all {s : Sources} : 0 ∈ s.all ↔ s.memtable.isSome = true := by
  cases h : s.memtable <;> simp [Sources.all, h]

theorem succ_mem_all {s : Sources} {n : Nat} : n + 1 ∈ s.all ↔ n < s.sstables.length := by
  cases h : s.memtable <;> simp [Sources.all, h]

/-- The sources give what the iterators yield. -/
theorem gives_of_drains {s : Sources} {seq : Nat → List Record}
    (hmem : ∀ iter ∈ s.memtable,
      Drains (fun iter : IntoIterFiltered => some iter.next) iter (seq 0))
    (hsst : ∀ n, ∀ iter ∈ s.sstables[n]?, Drains RecordIter.next iter (seq (n + 1))) :
    ∀ i ∈ s.all, Gives s i (seq i)
  | 0, hi => by
    obtain ⟨iter, hiter⟩ := Option.isSome_iff_exists.mp (zero_mem_all.mp hi)
    exact ⟨iter, hiter, hmem iter hiter⟩
  | n + 1, hi => by
    have hget := List.getElem?_eq_getElem (succ_mem_all.mp hi)
    exact ⟨_, hget, hsst n _ hget⟩

/-! ## The merge -/

/-- A merge of any iterators, each of which yields records in ascending order:
no call of `refil` underflows, and what it yields is strictly ascending, comes
from the iterators, and has one record for each identity of theirs. -/
theorem dedup_merge (hp : RecordHeap) {memtable : Option IntoIterFiltered}
    {sstables : List RecordIter} {seq : Nat → List Record}
    (hmem : ∀ iter ∈ memtable,
      Drains (fun iter : IntoIterFiltered => some iter.next) iter (seq 0))
    (hsst : ∀ n, ∀ iter ∈ sstables[n]?, Drains RecordIter.next iter (seq (n + 1)))
    (hasc : ∀ i ∈ Sources.all ⟨memtable, sstables⟩,
      (seq i).Pairwise fun a b => a.orderKey ≤ b.orderKey)
    (hc : ∀ i ∈ Sources.all ⟨memtable, sstables⟩, ∀ r ∈ seq i, r.Comparable) :
    ∃ (m : MergeIter hp) (ps : List (Record × Nat)) (out : List Record),
      MergeIter.new hp memtable sstables = some m ∧
      Merge.Pops Sources.draw m.inner ps ∧ (∀ p ∈ ps, p.2 = 0 → memtable.isSome = true) ∧
      Drains MergeIter.next m out ∧ Ascending out ∧
      (∀ q ∈ out, ∃ i ∈ Sources.all ⟨memtable, sstables⟩, q ∈ seq i) ∧
      ∀ i ∈ Sources.all ⟨memtable, sstables⟩, ∀ r ∈ seq i,
        ∃! q, q ∈ out ∧ identity q = identity r := by
  obtain ⟨m, ps, hfill, hps, hperm, hsorted, hsrcs, -⟩ := pops_feeds hp (feeds_iters _)
    (gives_of_drains hmem hsst) hasc
  have hfrom {r : Record} : r ∈ ps.map Prod.fst ↔
      ∃ i ∈ Sources.all ⟨memtable, sstables⟩, r ∈ seq i := hperm.mem_iff.trans List.mem_flatMap
  have hcomp (r : Record) (hr : r ∈ ps.map Prod.fst) : r.Comparable := by
    obtain ⟨i, hi, hr⟩ := hfrom.mp hr
    exact hc i hi r hr
  obtain ⟨out, hout, hascending, hsub, hkeys⟩ := drains_distinct hps.drains hsorted hcomp
  refine ⟨⟨m, none⟩, ps, out, by rw [MergeIter.new, hfill]; rfl, hps, fun p hp' hzero => ?_, hout,
    hascending, fun q hq => hfrom.mp (hsub.mem hq), fun i hi r hr => ?_⟩
  · exact zero_mem_all.mp (hzero ▸ hsrcs p hp')
  · have hr : r ∈ ps.map Prod.fst := hfrom.mpr ⟨i, hi, hr⟩
    have hiff {q : Record} (hq : q ∈ out) : identity q = identity r ↔ q.orderKey = r.orderKey :=
      identity_eq_iff (hcomp q (hsub.mem hq)) (hcomp r hr)
    obtain ⟨q, hq, hkey⟩ := hkeys r hr
    refine ⟨q, ⟨hq, (hiff hq).mpr hkey⟩, fun q' hq' => ?_⟩
    exact ascending_inj hascending hq'.1 hq (((hiff hq'.1).mp hq'.2).trans hkey.symm)

/-- A memtable and a table with a record of one identity, which the table has
twice. -/
theorem dedup_merge_repeated :
    ∃ (m : MergeIter (.sortedList _ _)) (out : List Record),
      MergeIter.new (.sortedList _ _)
        (some ⟨[.fromRawParts 1 1 1 [97] [98]], ⟨1, [97], 0, 9, []⟩⟩)
        [.inmem [.fromRawParts 1 1 1 [97] [99], .fromRawParts 1 1 1 [97] [99],
          .fromRawParts 1 2 2 [97] [98]]] = some m ∧
      Drains MergeIter.next m out ∧ Ascending out ∧
      ∃! q, q ∈ out ∧ identity q = (1, 1, 1, [97]) := by
  let seq (i : Nat) : List Record :=
    if i = 0 then [.fromRawParts 1 1 1 [97] [98]]
    else [.fromRawParts 1 1 1 [97] [99], .fromRawParts 1 1 1 [97] [99],
      .fromRawParts 1 2 2 [97] [98]]
  have hmem : ∀ iter ∈ some (⟨seq 0, ⟨1, [97], 0, 9, []⟩⟩ : IntoIterFiltered),
      Drains (fun iter : IntoIterFiltered => some iter.next) iter (seq 0) := by
    intro iter hiter
    obtain rfl := Option.mem_some_iff.mp hiter
    exact drains_of_collect (n := 2) (by decide +kernel)
  have hsst : ∀ n, ∀ iter ∈ [RecordIter.inmem (seq 1)][n]?,
      Drains RecordIter.next iter (seq (n + 1)) := by
    intro n iter hiter
    obtain ⟨hlt, rfl⟩ := List.getElem?_eq_some_iff.mp hiter
    obtain rfl : n = 0 := Nat.lt_one_iff.mp hlt
    exact .step rfl (.step rfl (.step rfl (.done rfl)))
  obtain ⟨m, ps, out, hnew, -, -, hd, hascending, -, hone⟩ :=
    dedup_merge (.sortedList _ _) hmem hsst (by decide +kernel) (by decide +kernel)
  exact ⟨m, out, hnew, hd, hascending, hone 0 (by decide) _ List.mem_cons_self⟩

end LG.Proof.Core
