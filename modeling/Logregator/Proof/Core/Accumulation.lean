import Logregator.Proof.Core.StaleWals

/-!
# Stale WAL files

The WAL files of flushes are deleted in the order of their ids, and ids come
from one counter for flushes and compactions (`Counted`). An id that no flush
was sent for is never applied: all files from the one before it on stay.
-/

namespace LG.Proof.Core

open LG.Impl.Core LG.Spec.Core

variable {c : SSTableCode} {hp : RecordHeap} {s s' : System c} {log : List Insert}
  {ids : List (Option Nat)}

/-- The ids taken are those below the counter, in order, and the files of the
flushes among them are stale from `nextWalToDel` on. -/
structure Counted (ids : List (Option Nat)) (s : System c) : Prop where
  counter : s.engine.sstCounter = ids.length + 1
  index : ∀ k id, ids[k]? = some (some id) → id = k + 1
  rotated : ∀ id, 1 ≤ id → (Rotated s id ↔ some id ∈ ids)
  stale_ge : ∀ p ∈ s.staleWals.elems, s.nextWalToDel ≤ p.1
  reached : s.nextWalToDel = 1 ∨ s.nextWalToDel ∈ s.appliedFlushes
  stops : ¬ (s.nextWalToDel ∈ s.appliedFlushes ∧ s.nextWalToDel + 1 ∈ s.appliedFlushes)

namespace Counted

theorem mem_iff (h : Counted ids s) {id : Nat} :
    some id ∈ ids ↔ 1 ≤ id ∧ ids[id - 1]? = some (some id) := by
  rw [List.mem_iff_getElem?]
  constructor
  · rintro ⟨k, hk⟩
    obtain rfl := h.index k id hk
    exact ⟨Nat.le_add_left 1 k, hk⟩
  · rintro ⟨-, hk⟩
    exact ⟨id - 1, hk⟩

/-- The ids of flushes go up. -/
theorem pairwise_lt (h : Counted ids s) : ids.reduceOption.Pairwise (· < ·) := by
  refine List.pairwise_filterMap.mpr (List.pairwise_iff_getElem.mpr fun i j hi hj hlt a ha b hb => ?_)
  have hia := h.index i a (List.getElem?_eq_some_iff.mpr ⟨hi, ha⟩)
  have hjb := h.index j b (List.getElem?_eq_some_iff.mpr ⟨hj, hb⟩)
  omega

/-- One id more: that of the counter. -/
theorem snoc_index (h : Counted ids s) {taken : Option Nat}
    (htaken : ∀ id ∈ taken, id = s.engine.sstCounter) (k id : Nat)
    (hk : (ids ++ [taken])[k]? = some (some id)) : id = k + 1 := by
  rcases lt_or_ge k ids.length with hlt | hge
  · rw [List.getElem?_append_left hlt] at hk
    exact h.index k id hk
  · rw [List.getElem?_append_right hge] at hk
    obtain ⟨hzero, htaken'⟩ := List.getElem?_eq_some_iff.mp hk
    have hk : k = ids.length := by
      rw [List.length_singleton] at hzero
      omega
    subst hk
    rw [← h.counter]
    exact htaken id (by simpa using htaken')

theorem flushing (h : Counted ids s) (hw : WalSafe log s) :
    Counted (ids ++ [some s.engine.sstCounter]) (flushing s) where
  counter := by
    rw [List.length_append, List.length_singleton, ← h.counter]
    rfl
  index := h.snoc_index fun id hid => (Option.some.inj hid).symm
  rotated id hpos := by
    rw [rotated_flushing, h.rotated id hpos, List.mem_append, List.mem_singleton, Option.some.injEq,
      or_comm]
  stale_ge p hp := by
    rcases OrdMap.mem_upsert hp with rfl | hp
    · -- The files deleted are those of ids taken before.
      show s.nextWalToDel ≤ s.engine.sstCounter
      exact not_lt.mp fun hlt => hw.not_rotated (.inl hlt)
    · exact h.stale_ge p hp
  reached := h.reached
  stops := h.stops

/-- The WAL files are left alone. -/
theorem frame {ids' : List (Option Nat)} (h : Counted ids s)
    (hcounter : s'.engine.sstCounter = ids'.length + 1)
    (hindex : ∀ k id, ids'[k]? = some (some id) → id = k + 1)
    (hmem : ∀ id, some id ∈ ids' ↔ some id ∈ ids) (hstale : s'.staleWals = s.staleWals)
    (hnext : s'.nextWalToDel = s.nextWalToDel) (happlied : s'.appliedFlushes = s.appliedFlushes) :
    Counted ids' s' where
  counter := hcounter
  index := hindex
  rotated id hpos := by
    rw [Rotated, hnext, hstale, hmem]
    exact h.rotated id hpos
  stale_ge := by
    rw [hstale, hnext]
    exact h.stale_ge
  reached := by
    rw [hnext, happlied]
    exact h.reached
  stops := by
    rw [hnext, happlied]
    exact h.stops

/-- An id taken without a flush. -/
theorem skip (h : Counted ids s) (hcounter : s'.engine.sstCounter = s.engine.sstCounter + 1)
    (hstale : s'.staleWals = s.staleWals) (hnext : s'.nextWalToDel = s.nextWalToDel)
    (happlied : s'.appliedFlushes = s.appliedFlushes) : Counted (ids ++ [none]) s' := by
  refine h.frame ?_ (h.snoc_index fun id hid => by cases hid) (fun id => ?_) hstale hnext happlied
  · rw [hcounter, h.counter, List.length_append, List.length_singleton]
  · simp

theorem flushed (h : Counted ids s) (hw : WalSafe log s) {newMeta : c.Meta}
    {results : List (IoResult c)} {staleWals : OrdMap Nat Nat} {nextWalToDel : Nat}
    {wals : OrdMap Nat (List Record)}
    (hjobs : (jobs s).Perm (.result (.flush newMeta) :: jobs { s with results }))
    (hdel : Deletes (insert newMeta.id s.appliedFlushes) s.nextWalToDel nextWalToDel s.staleWals
      staleWals s.disk.wals wals) :
    Counted ids { s with
      results, staleWals, nextWalToDel, disk.wals := wals
      appliedFlushes := insert newMeta.id s.appliedFlushes
      engine.frozenMemtables := s.engine.frozenMemtables.remove newMeta.id
      engine.sstableMap := s.engine.sstableMap.upsert newMeta.id newMeta } where
  counter := h.counter
  index := h.index
  rotated id hpos := (hw.rotated_flushed hjobs hdel).trans (h.rotated id hpos)
  stale_ge p hp := by
    obtain ⟨hmem, hnot⟩ := (hdel.mem_stale p).mp hp
    exact not_lt.mp fun hlt => hnot ⟨h.stale_ge p hmem, hlt⟩
  reached := by
    rcases hdel.le.eq_or_lt with heq | hlt
    · subst heq
      exact h.reached.imp_right Finset.mem_insert_of_mem
    · obtain ⟨-, hlast⟩ := hdel.passed (nextWalToDel - 1) (by omega) (by omega)
      rw [Nat.sub_add_cancel (by omega)] at hlast
      exact .inr hlast
  stops := hdel.stops

end Counted

theorem exec_counted {step : Step} (h : Counted ids s) (hw : WalSafe log s) (hs : NoCrash step)
    (hexec : step.exec hp s = some s') : Counted (ids ++ takenBy s step s') s' := by
  -- Steps that take no id.
  have hquiet (hcounter : s'.engine.sstCounter = s.engine.sstCounter) (h' : Counted ids s') :
      Counted (ids ++ takenBy s step s') s' := by
    rw [takenBy, if_pos hcounter, List.append_nil]
    exact h'
  have htakes {cmds : List (IoCommand c)} (hcounter : s'.engine.sstCounter = s.engine.sstCounter + 1)
      (hcmds : s'.cmds = s.cmds ++ cmds) : takenBy s step s' = [cmds.findSome? flushId] := by
    rw [takenBy, if_neg (by omega), hcmds, List.drop_left]
  have hframe (hcounter : s'.engine.sstCounter = s.engine.sstCounter)
      (hstale : s'.staleWals = s.staleWals) (hnext : s'.nextWalToDel = s.nextWalToDel)
      (happlied : s'.appliedFlushes = s.appliedFlushes) : Counted (ids ++ takenBy s step s') s' :=
    hquiet hcounter (h.frame (hcounter.trans h.counter) h.index (fun _ => Iff.rfl) hstale hnext happlied)
  cases exec_effect hs hexec with
  | insertedOne hi =>
    obtain ⟨m, -, -, rfl⟩ := hi
    exact hframe rfl rfl rfl rfl
  | insertedMany hi =>
    obtain ⟨m, -, -, rfl⟩ := hi
    exact hframe rfl rfl rfl rfl
  | wroteWal n => exact hframe rfl rfl rfl rfl
  | noFlush rotates => exact hquiet rfl h
  | sentFlush hne =>
    rw [htakes rfl rfl]
    exact h.flushing hw
  | froze hne =>
    rw [htakes rfl (List.append_nil _).symm]
    exact h.skip rfl rfl rfl rfl
  | noCompaction => exact hquiet rfl h
  | sentCompaction n hlen =>
    rw [htakes rfl rfl]
    exact h.skip rfl rfl rfl rfl
  | resynced hjobs => exact hframe rfl rfl rfl rfl
  | dispatched hjobs => exact hframe rfl rfl rfl rfl
  | finished hrun hjobs hjobs' => exact hframe rfl rfl rfl rfl
  | failed htask hjobs => exact hframe rfl rfl rfl rfl
  | flushed hjobs hdel => exact hquiet rfl (h.flushed hw hjobs hdel)
  | compacted hjobs => exact hframe rfl rfl rfl rfl

theorem counted_start {engine : Engine c} {limit count : Nat} {full : Bool}
    (h : Engine.openDir c .empty limit = .ok (engine, full)) :
    Counted [] (System.start engine count .empty) := by
  rw [openDir_empty] at h
  cases h
  refine ⟨rfl, fun k id hk => ?_, fun id hpos => ⟨?_, fun hid => ?_⟩, fun p hp => ?_, .inl rfl,
    fun happlied => Finset.notMem_empty _ happlied.1⟩
  · cases hk
  · rintro (hlt | ⟨path, hmem⟩)
    · exact absurd hlt (not_lt.mpr hpos)
    · cases hmem
  · cases hid
  · cases hp

/-! ## What stays -/

/-- The last of a list that goes up is its greatest. -/
theorem getLast?_eq_some_of_pairwise_lt {l : List Nat} (h : l.Pairwise (· < ·)) {a : Nat} :
    l.getLast? = some a ↔ a ∈ l ∧ ∀ b ∈ l, b ≤ a := by
  rcases List.eq_nil_or_concat l with rfl | ⟨l, last, rfl⟩
  · simp
  · rw [List.concat_eq_append] at h ⊢
    have hlast : ∀ b ∈ l, b < last := fun b hb =>
      (List.pairwise_append.mp h).2.2 b hb last (List.mem_singleton_self last)
    rw [List.getLast?_concat, Option.some.injEq]
    constructor
    · rintro rfl
      refine ⟨List.mem_append_right _ (List.mem_singleton_self _), fun b hb => ?_⟩
      rcases List.mem_append.mp hb with hb | hb
      · exact (hlast b hb).le
      · exact (List.mem_singleton.mp hb).le
    · rintro ⟨ha, hmax⟩
      have hle := hmax last (List.mem_append_right _ (List.mem_singleton_self _))
      rcases List.mem_append.mp ha with ha | ha
      · exact absurd (hlast a ha) (not_lt.mpr hle)
      · exact (List.mem_singleton.mp ha).symm

namespace Counted

variable {pre post : List (Option Nat)} {id : Nat}

theorem index_append (h : Counted ids s) (hids : ids = pre ++ some id :: post) : id = pre.length + 1 :=
  h.index pre.length id (by simp [hids])

/-- An id among the first is at its place there. -/
theorem mem_of_le (h : Counted ids s) (hids : ids = pre ++ post) (hmem : some id ∈ ids)
    (hle : id ≤ pre.length) : some id ∈ pre := by
  obtain ⟨hpos, hget⟩ := h.mem_iff.mp hmem
  rw [hids, List.getElem?_append_left (by omega)] at hget
  exact List.mem_of_getElem? hget

theorem le_of_mem (h : Counted ids s) (hids : ids = pre ++ post) (hmem : some id ∈ pre) :
    1 ≤ id ∧ id ≤ pre.length := by
  obtain ⟨k, hk⟩ := List.mem_iff_getElem?.mp hmem
  have hlt := (List.getElem?_eq_some_iff.mp hk).1
  obtain rfl := h.index k id (by rw [hids, List.getElem?_append_left hlt, hk])
  omega

/-- Where all of the first are flushes, each id is one. -/
theorem mem_of_none_notMem (h : Counted ids s) (hids : ids = pre ++ post) (hnone : none ∉ pre)
    (hpos : 1 ≤ id) (hle : id ≤ pre.length) : some id ∈ ids := by
  have hget : pre[id - 1]? = some pre[id - 1] := List.getElem?_eq_getElem (by omega)
  cases hid : pre[id - 1] with
  | none => exact absurd (hid ▸ List.getElem_mem _) hnone
  | some id' =>
    have hids' : ids[id - 1]? = some (some id') := by
      rw [hids, List.getElem?_append_left (by omega), hget, hid]
    obtain rfl : id' = id := by
      have := h.index _ _ hids'
      omega
    exact List.mem_of_getElem? hids'

theorem mem_of_applied (h : Counted ids s) (hw : WalSafe log s) (hpos : 1 ≤ id)
    (hid : id ∈ s.appliedFlushes) : some id ∈ ids :=
  (h.rotated id hpos).mp (hw.applied id hid).1

/-- Where only flushes took ids, and all are applied, only the last file stays. -/
theorem last_stale (h : Counted ids s) (hw : WalSafe log s)
    (happlied : ∀ id, some id ∈ ids → id ∈ s.appliedFlushes) (hflushes : FlushesOnly ids)
    {p : Nat × Nat} (hp : p ∈ s.staleWals.elems) : ids.reduceOption.getLast? = some p.1 := by
  have hnext := hw.next_pos
  have hge := h.stale_ge p hp
  have hmem : some p.1 ∈ ids := (h.rotated p.1 (hnext.trans hge)).mp (.inr ⟨p.2, hp⟩)
  rw [getLast?_eq_some_of_pairwise_lt h.pairwise_lt, List.reduceOption_mem_iff]
  refine ⟨hmem, fun last hlast => not_lt.mp fun hlt => ?_⟩
  rw [List.reduceOption_mem_iff] at hlast
  obtain ⟨pre, post, hids⟩ := List.append_of_mem hlast
  have hlen := h.index_append hids
  have hpre : some p.1 ∈ pre := h.mem_of_le hids hmem (by omega)
  have hnone := hflushes pre last post hids
    (List.ne_nil_of_mem (List.reduceOption_mem_iff.mpr hpre))
  -- The deletion could go on, as all ids up to the last are those of flushes applied.
  have hall (id : Nat) (hpos : 1 ≤ id) (hle : id ≤ last) : id ∈ s.appliedFlushes := by
    refine happlied id ?_
    rcases hle.eq_or_lt with rfl | hlt
    · exact hlast
    · exact h.mem_of_none_notMem hids hnone hpos (by omega)
  exact h.stops ⟨hall _ hnext (by omega), hall _ (by omega) (by omega)⟩

/-- A file that is not the last stays where a flush follows another one and an
id taken for something else. -/
theorem earlier_stale (h : Counted ids s) (hw : WalSafe log s) (hids : ids = pre ++ some id :: post)
    (hflush : pre.reduceOption ≠ []) (hnone : none ∈ pre) : ∃ p ∈ s.staleWals.elems, p.1 < id := by
  have hlen := h.index_append hids
  have hnext := hw.next_pos
  obtain ⟨as, bs, hpre, has⟩ := List.eq_append_cons_of_mem hnone
  have hids' : ids = as ++ none :: (bs ++ some id :: post) := by
    rw [hids, hpre, List.append_assoc, List.cons_append]
  -- The deletion never reaches the first id that is not a flush's.
  have hgap : some (as.length + 1) ∉ ids := fun hmem => by
    have hget := (h.mem_iff.mp hmem).2
    simp [hids'] at hget
  have hle : s.nextWalToDel ≤ as.length + 1 := not_lt.mp fun hlt =>
    hgap (h.mem_of_applied hw (by omega) (hw.passed _ (by omega) hlt))
  have hne : s.nextWalToDel ≠ as.length + 1 ∨ as.length = 0 := by
    rcases h.reached with heq | happlied
    · omega
    · exact .inl fun heq => hgap (heq ▸ h.mem_of_applied hw hnext happlied)
  have hearlier : ∃ id', some id' ∈ ids ∧ s.nextWalToDel ≤ id' ∧ id' < id := by
    rcases Nat.eq_zero_or_pos as.length with hzero | hpos
    · obtain ⟨id', hid'⟩ := List.exists_mem_of_ne_nil _ hflush
      rw [List.reduceOption_mem_iff] at hid'
      have hle' := h.le_of_mem hids hid'
      exact ⟨id', hids ▸ List.mem_append_left _ hid', by omega, by omega⟩
    · have hlen' : as.length < pre.length := by simp [hpre]
      exact ⟨as.length, h.mem_of_none_notMem hids' has hpos (le_refl _), by omega, by omega⟩
  obtain ⟨id', hmem, hge, hlt⟩ := hearlier
  rcases (h.rotated id' (hnext.trans hge)).mpr hmem with hlt' | ⟨path, hstale⟩
  · omega
  · exact ⟨(id', path), hstale, hlt⟩

end Counted

/-- Whenever all flushes sent so far are applied, no stale WAL file but that of
the last flush is left, if and only if all ids taken before a second or later
flush are those of flushes: neither was a compaction sent, nor could a WAL not
be rotated. -/
theorem stale_wals_last_iff (hl : Stores c) (hp : RecordHeap) {engine : Engine c}
    {limit count : Nat} {full : Bool} (hopen : Engine.openDir c .empty limit = .ok (engine, full))
    {steps : List Step} (hs : ∀ step ∈ steps, NoCrash step)
    (hrun : Step.run hp (System.start engine count .empty) steps = some s)
    (happlied : ∀ id ∈ flushes hp (System.start engine count .empty) steps, id ∈ s.appliedFlushes) :
    (∀ p ∈ s.staleWals.elems,
        (flushes hp (System.start engine count .empty) steps).getLast? = some p.1) ↔
      FlushesOnly (taken hp (System.start engine count .empty) steps) := by
  obtain ⟨⟨log, hw, hh⟩, h⟩ := run_along (f := takenBy)
    (I := fun ids s => (∃ log, WalSafe log s ∧ Holds log s) ∧ Counted ids s)
    (fun h hstep hexec => by
      obtain ⟨⟨log, hw, hh⟩, h⟩ := h
      exact ⟨⟨_, exec_walSafe hl hw hh hstep hexec, exec_holds hl hh hstep hexec⟩,
        exec_counted h hw hstep hexec⟩)
    ⟨⟨[], walSafe_start hopen, holds_start hopen⟩, counted_start hopen⟩ hs hrun
  change Counted (taken hp _ steps) s at h
  constructor
  · intro hlast pre id post hids hflush hnone
    obtain ⟨p, hp, hlt⟩ := h.earlier_stale hw hids hflush hnone
    have hmax := ((getLast?_eq_some_of_pairwise_lt h.pairwise_lt).mp (hlast p hp)).2 id
      (List.reduceOption_mem_iff.mpr (by rw [hids]; simp))
    omega
  · intro hflushes p hp
    exact h.last_stale hw (fun id hid => happlied id (List.reduceOption_mem_iff.mpr hid)) hflushes hp

/-- After two flushes, the WAL file of the second is left. -/
theorem stale_wals_last_two :
    ∃ s, Step.run (MinHeap.sortedList _ _) (System.start (freshEngine plainCode 0) 4 .empty)
        (twoFlushes ++ [.receive]) = some s ∧
      ∀ p ∈ s.staleWals.elems, (flushes (MinHeap.sortedList _ _)
        (System.start (freshEngine plainCode 0) 4 .empty) (twoFlushes ++ [.receive])).getLast? =
          some p.1 := by
  obtain ⟨s, hrun, happlied⟩ := Option.map_eq_some_iff.mp
    (show (Step.run (MinHeap.sortedList _ _) (System.start (freshEngine plainCode 0) 4 .empty)
      (twoFlushes ++ [.receive])).map (fun s => s.appliedFlushes) = some {1, 2} by decide +kernel)
  have htaken : taken (MinHeap.sortedList _ _) (System.start (freshEngine plainCode 0) 4 .empty)
      (twoFlushes ++ [.receive]) = [some 1, some 2] := by decide +kernel
  refine ⟨s, hrun, (stale_wals_last_iff lawful_plainCode.toStores _ (openDir_empty plainCode 0)
    (by simp [twoFlushes, NoCrash]) hrun ?_).mpr ?_⟩
  · rw [flushes, htaken, happlied]
    decide
  · intro pre id post hids _ hnone
    have hmem : none ∈ pre ++ some id :: post := List.mem_append_left _ hnone
    rw [← hids, htaken] at hmem
    simp at hmem

/-- Two flushes, a compaction of their tables and one more flush. -/
def flushAfterCompaction : List Step :=
  compactedSteps ++ [.sendFlush true, .dispatch, .dispatch, .finish 0 true, .receive]

/-- All succeeds and all flushes are applied, but the WAL file of the second is
left as well. -/
theorem stale_wals_left :
    (∀ step ∈ flushAfterCompaction, Succeeds step) ∧
      flushes (MinHeap.sortedList _ _) (System.start (freshEngine plainCode 0) 4 .empty)
        flushAfterCompaction = [1, 2, 4] ∧
      (Step.run (MinHeap.sortedList _ _) (System.start (freshEngine plainCode 0) 4 .empty)
        flushAfterCompaction).map (fun s => (s.appliedFlushes, s.staleWals.elems)) =
          some ({1, 2, 4}, [(2, 2), (4, 4)]) := by
  refine ⟨by simp [flushAfterCompaction, compactedSteps, Succeeds], ?_, ?_⟩
  · decide +kernel
  · decide +kernel

end LG.Proof.Core
