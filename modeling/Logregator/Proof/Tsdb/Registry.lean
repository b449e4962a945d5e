import Logregator.Proof.Tsdb.Label
import Logregator.Spec.Tsdb.Registry

/-!
# The stream registry

Inserts and the loop of `From` both index a stream by its label map and by
each of its labels (`Indexed.add`), so that either way the registry is
determined by its streams (`Registers`), and so are its answers
(`Registers.answers_eq`). A query leaves the labels that no stream carries out
of the intersection (`mem_labelIntersection`).
-/

namespace LG.Proof.Tsdb

open LG.Impl.Tsdb LG.Impl.Tsdb.StreamRegistry LG.Spec.Tsdb

/-! ## The index of labels -/

theorem lookup_indexLabel (id : UInt64) (index : AList fun _ : Label => Finset UInt64)
    (l k : Label) :
    (indexLabel id index l).lookup k =
      if k = l then some (insert id ((index.lookup l).getD ∅)) else index.lookup k := by
  have hinsert (ids : Finset UInt64) :
      (index.insert l ids).lookup k = if k = l then some ids else index.lookup k := by
    by_cases hk : k = l
    · rw [if_pos hk, hk, AList.lookup_insert]
    · rw [if_neg hk, AList.lookup_insert_ne hk]
  rw [indexLabel]
  cases index.lookup l with
  | none => exact hinsert _
  | some ids => exact hinsert _

theorem lookup_foldl_indexLabel (id : UInt64) (labels : List Label)
    (index : AList fun _ : Label => Finset UInt64) (k : Label) :
    (labels.foldl (indexLabel id) index).lookup k =
      if k ∈ labels then some (insert id ((index.lookup k).getD ∅)) else index.lookup k := by
  induction labels generalizing index with
  | nil => simp
  | cons l labels ih =>
    rw [List.foldl_cons, ih, lookup_indexLabel]
    by_cases hk : k = l
    · subst hk
      simp
    · simp [hk]

/-! ## Streams -/

theorem indexed_empty (labelmaps : AList fun _ : UInt64 => LabelMap) :
    Indexed { labelmapByStream := labelmaps, streamByLabelmap := ∅, kvIndex := ∅ } ∅ where
  stream := by simp
  kv_nonempty := by simp
  mem_kv := by simp

/-- A stream with a label map of its own is added to both maps. -/
theorem Indexed.add {reg : StreamRegistry} {streams : Set (UInt64 × LabelMap)}
    (h : Indexed reg streams) {id : UInt64} {lm : LabelMap} (hnew : ∀ id', (id', lm) ∉ streams) :
    Indexed (reg.indexStream ⟨id, lm⟩) (insert (id, lm) streams) where
  stream := by
    intro id' lm'
    show (reg.streamByLabelmap.insert lm id).lookup lm' = some id' ↔ _
    by_cases hlm : lm' = lm
    · subst hlm
      rw [AList.lookup_insert]
      simp [hnew, eq_comm]
    · rw [AList.lookup_insert_ne hlm, h.stream]
      simp [hlm]
  kv_nonempty := by
    intro l ids hl
    have hl : (lm.iter.foldl (indexLabel id) reg.kvIndex).lookup l = some ids := hl
    rw [lookup_foldl_indexLabel] at hl
    split at hl
    · cases hl
      exact Finset.insert_nonempty _ _
    · exact h.kv_nonempty hl
  mem_kv := by
    intro l id'
    show id' ∈ ((lm.iter.foldl (indexLabel id) reg.kvIndex).lookup l).getD ∅ ↔ _
    rw [lookup_foldl_indexLabel]
    split
    · rename_i hl
      rw [Option.getD_some, Finset.mem_insert, h.mem_kv]
      constructor
      · rintro (rfl | ⟨lm', hmem, hcarries⟩)
        · exact ⟨lm, Set.mem_insert _ _, hl⟩
        · exact ⟨lm', Set.mem_insert_of_mem _ hmem, hcarries⟩
      · rintro ⟨lm', hmem, hcarries⟩
        rcases hmem with he | hmem
        · exact .inl (Prod.ext_iff.mp he).1
        · exact .inr ⟨lm', hmem, hcarries⟩
    · rename_i hl
      rw [h.mem_kv]
      constructor
      · rintro ⟨lm', hmem, hcarries⟩
        exact ⟨lm', Set.mem_insert_of_mem _ hmem, hcarries⟩
      · rintro ⟨lm', hmem, hcarries⟩
        rcases hmem with he | hmem
        · cases he
          exact absurd hcarries hl
        · exact ⟨lm', hmem, hcarries⟩

/-- A stream with an id and a label map of its own is inserted. -/
theorem Registers.insert {reg : StreamRegistry} {streams : Set (UInt64 × LabelMap)}
    (h : Registers reg streams) {id : UInt64} {lm : LabelMap} (hid : ∀ lm', (id, lm') ∉ streams)
    (hlm : ∀ id', (id', lm) ∉ streams) :
    Registers (reg.insert id lm) (insert (id, lm) streams) where
  stream := (Indexed.add h.toIndexed hlm).stream
  kv_nonempty := (Indexed.add h.toIndexed hlm).kv_nonempty
  mem_kv := (Indexed.add h.toIndexed hlm).mem_kv
  labelmap := by
    intro id' lm'
    show (reg.labelmapByStream.insert id lm).lookup id' = some lm' ↔ _
    by_cases he : id' = id
    · subst he
      rw [AList.lookup_insert]
      simp [hid, eq_comm]
    · rw [AList.lookup_insert_ne he, h.labelmap]
      simp [he]

/-- The ids are distinct, and so are the label maps. -/
structure Distinct (inserts : List (UInt64 × LabelMap)) : Prop where
  ids : (inserts.map Prod.fst).Nodup
  labelmaps : (inserts.map Prod.snd).Nodup

/-- A key that is not in the list yet. -/
theorem nodup_map_concat {α β : Type} {f : α → β} {as : List α} {a : α}
    (h : ((as ++ [a]).map f).Nodup) : (as.map f).Nodup ∧ ∀ a' ∈ as, f a' ≠ f a := by
  rw [List.map_append, List.nodup_append] at h
  refine ⟨h.1, fun a' hmem => ?_⟩
  exact h.2.2 _ (List.mem_map_of_mem hmem) _ (List.mem_map_of_mem (List.mem_singleton_self a))

theorem Distinct.concat {inserts : List (UInt64 × LabelMap)} {id : UInt64} {lm : LabelMap}
    (h : Distinct (inserts ++ [(id, lm)])) :
    Distinct inserts ∧ (∀ lm', (id, lm') ∉ inserts) ∧ ∀ id', (id', lm) ∉ inserts := by
  obtain ⟨hids, hid⟩ := nodup_map_concat h.ids
  obtain ⟨hlms, hlm⟩ := nodup_map_concat h.labelmaps
  exact ⟨⟨hids, hlms⟩, fun lm' hmem => hid _ hmem rfl, fun id' hmem => hlm _ hmem rfl⟩

theorem Distinct.labelmap_injective {inserts : List (UInt64 × LabelMap)} (h : Distinct inserts)
    {id id' : UInt64} {lm : LabelMap} (hmem : (id, lm) ∈ inserts) (hmem' : (id', lm) ∈ inserts) :
    id = id' :=
  (Prod.ext_iff.mp (List.inj_on_of_nodup_map h.labelmaps hmem hmem' rfl)).1

/-- Inserts of distinct streams. -/
theorem registers_registryOf {inserts : List (UInt64 × LabelMap)} (h : Distinct inserts) :
    Registers (registryOf inserts) {s | s ∈ inserts} := by
  induction inserts using List.reverseRecOn with
  | nil =>
    have hindexed := indexed_empty ∅
    rw [← show ({s | s ∈ []} : Set (UInt64 × LabelMap)) = ∅ by simp] at hindexed
    exact { hindexed with labelmap := by simp [registryOf, StreamRegistry.empty] }
  | append_singleton inserts s ih =>
    obtain ⟨id, lm⟩ := s
    obtain ⟨hd, hid, hlm⟩ := Distinct.concat h
    have hset : {s | s ∈ inserts ++ [(id, lm)]} = insert (id, lm) {s | s ∈ inserts} := by
      ext s
      simp [or_comm]
    rw [hset, registryOf, List.foldl_concat]
    exact Registers.insert (ih hd) hid hlm

/-- The loop of `From`, over streams with distinct label maps. -/
theorem indexed_fromMap (labelmaps : AList fun _ : UInt64 => LabelMap)
    {order : List (Sigma fun _ : UInt64 => LabelMap)} (h : (order.map fun e => e.2).Nodup) :
    Indexed (fromMap labelmaps order) {s | ⟨s.1, s.2⟩ ∈ order} := by
  induction order using List.reverseRecOn with
  | nil =>
    rw [show {s : UInt64 × LabelMap | (⟨s.1, s.2⟩ : Sigma fun _ => LabelMap) ∈ []} = ∅ by simp]
    exact indexed_empty labelmaps
  | append_singleton order e ih =>
    obtain ⟨id, lm⟩ := e
    obtain ⟨hd, hlm⟩ := nodup_map_concat h
    have hset : {s : UInt64 × LabelMap | ⟨s.1, s.2⟩ ∈ order ++ [⟨id, lm⟩]} =
        insert (id, lm) {s | ⟨s.1, s.2⟩ ∈ order} := by
      ext s
      simp [or_comm, Prod.ext_iff]
    rw [hset, fromMap, List.foldl_concat]
    exact Indexed.add (ih hd) fun id' hmem => hlm _ hmem rfl

theorem labelmapByStream_fromMap (labelmaps : AList fun _ : UInt64 => LabelMap)
    (order : List (Sigma fun _ : UInt64 => LabelMap)) :
    (fromMap labelmaps order).labelmapByStream = labelmaps := by
  induction order using List.reverseRecOn with
  | nil => rfl
  | append_singleton order e ih =>
    rw [fromMap, List.foldl_concat]
    exact ih

/-! ## Queries -/

theorem mem_retainAll {acc : Finset UInt64} {sets : List (Finset UInt64)} {id : UInt64} :
    id ∈ retainAll acc sets ↔ id ∈ acc ∧ ∀ s ∈ sets, id ∈ s := by
  induction sets generalizing acc with
  | nil => simp [retainAll]
  | cons s sets ih =>
    have hfilter : id ∈ acc.filter (· ∈ s) ↔ id ∈ acc ∧ id ∈ s := Finset.mem_filter
    rw [retainAll, List.forall_mem_cons, ← and_assoc, ← hfilter]
    split
    · -- Nothing is left, and the loop ends early.
      rename_i hempty
      simp [hempty]
    · exact ih

/-- Whatever the order of the sets, their common ids. -/
theorem mem_labelIntersection_sets {reg : StreamRegistry} {labels : List Label} {id : UInt64} :
    id ∈ reg.labelIntersection labels ↔
      labels.filterMap (fun l => reg.kvIndex.lookup l) ≠ [] ∧
        ∀ ids ∈ labels.filterMap (fun l => reg.kvIndex.lookup l), id ∈ ids := by
  have hperm := List.mergeSort_perm (labels.filterMap fun l => reg.kvIndex.lookup l)
    fun s t => decide (s.card ≤ t.card)
  rw [labelIntersection]
  split
  · rename_i hnil
    rw [hnil] at hperm
    simp [hperm.symm.eq_nil]
  · rename_i acc sets hcons
    rw [hcons] at hperm
    have hne : labels.filterMap (fun l => reg.kvIndex.lookup l) ≠ [] := by
      intro hnil
      rw [hnil] at hperm
      exact absurd hperm.eq_nil (by simp)
    simp only [mem_retainAll, ← hperm.mem_iff, List.forall_mem_cons, ne_eq, hne, not_false_eq_true,
      true_and]

/-- A label has a set exactly when a stream carries it. -/
theorem exists_lookup_iff {reg : StreamRegistry} {streams : Set (UInt64 × LabelMap)}
    (h : Indexed reg streams) {l : Label} :
    (∃ ids, reg.kvIndex.lookup l = some ids) ↔ Carried streams l := by
  have hmem := h.mem_kv l
  constructor
  · rintro ⟨ids, hl⟩
    obtain ⟨id, hid⟩ := h.kv_nonempty hl
    rw [hl] at hmem
    obtain ⟨lm, hs, hcarries⟩ := (hmem id).mp hid
    exact ⟨(id, lm), hs, hcarries⟩
  · rintro ⟨s, hs, hcarries⟩
    have hid := (hmem s.1).mpr ⟨s.2, hs, hcarries⟩
    cases hl : reg.kvIndex.lookup l with
    | none =>
      rw [hl] at hid
      exact absurd hid (by simp)
    | some ids => exact ⟨ids, rfl⟩

theorem mem_of_lookup {reg : StreamRegistry} {streams : Set (UInt64 × LabelMap)}
    (h : Indexed reg streams) {l : Label} {ids : Finset UInt64}
    (hl : reg.kvIndex.lookup l = some ids) (id : UInt64) :
    id ∈ ids ↔ ∃ lm, (id, lm) ∈ streams ∧ Carries (id, lm) l := by
  rw [← h.mem_kv, hl, Option.getD_some]

/-- The streams that carry all those labels of the query that any stream
carries, if there are such labels. -/
theorem mem_labelIntersection {reg : StreamRegistry} {streams : Set (UInt64 × LabelMap)}
    (h : Registers reg streams) {labels : List Label} {id : UInt64} :
    id ∈ reg.labelIntersection labels ↔ (∃ l ∈ labels, Carried streams l) ∧
      ∃ lm, (id, lm) ∈ streams ∧ ∀ l ∈ labels, Carried streams l → Carries (id, lm) l := by
  rw [mem_labelIntersection_sets]
  constructor
  · rintro ⟨hne, hall⟩
    obtain ⟨ids, hids⟩ := List.exists_mem_of_ne_nil _ hne
    obtain ⟨l, hl, hlookup⟩ := List.mem_filterMap.mp hids
    obtain ⟨lm, hs, -⟩ := (mem_of_lookup h.toIndexed hlookup id).mp (hall ids hids)
    have hcarried := (exists_lookup_iff h.toIndexed).mp ⟨ids, hlookup⟩
    refine ⟨⟨l, hl, hcarried⟩, lm, hs, fun k hk hcarried => ?_⟩
    obtain ⟨ids', hk'⟩ := (exists_lookup_iff h.toIndexed).mpr hcarried
    obtain ⟨lm', hs', hcarries⟩ := (mem_of_lookup h.toIndexed hk' id).mp
      (hall ids' (List.mem_filterMap.mpr ⟨k, hk, hk'⟩))
    -- The id has one label map.
    have hlm := (h.labelmap id lm).mpr hs
    rw [(h.labelmap id lm').mpr hs'] at hlm
    cases hlm
    exact hcarries
  · rintro ⟨⟨l, hl, hcarried⟩, lm, hs, hall⟩
    obtain ⟨ids, hlookup⟩ := (exists_lookup_iff h.toIndexed).mpr hcarried
    refine ⟨List.ne_nil_of_mem (List.mem_filterMap.mpr ⟨l, hl, hlookup⟩), fun ids' hids' => ?_⟩
    obtain ⟨k, hk, hk'⟩ := List.mem_filterMap.mp hids'
    rw [mem_of_lookup h.toIndexed hk']
    exact ⟨lm, hs, hall k hk ((exists_lookup_iff h.toIndexed).mp ⟨ids', hk'⟩)⟩

/-- A query returns the streams that carry all of its labels exactly when some
stream carries each label, or none carries any, or no stream carries all of
those that are carried: a label that no stream carries is left out of the
intersection. -/
theorem label_query_exact_iff {inserts : List (UInt64 × LabelMap)} (h : Distinct inserts)
    {labels : List Label} (hne : labels ≠ []) :
    (∀ id, id ∈ (registryOf inserts).labelIntersection labels ↔
      ∃ lm, (id, lm) ∈ inserts ∧ ∀ l ∈ labels, l ∈ lm.iter) ↔
    (∀ l ∈ labels, Carried {s | s ∈ inserts} l) ∨ (∀ l ∈ labels, ¬ Carried {s | s ∈ inserts} l) ∨
      ¬ ∃ s ∈ inserts, ∀ l ∈ labels, Carried {s | s ∈ inserts} l → l ∈ s.2.iter := by
  have hreg := registers_registryOf h
  constructor
  · intro hexact
    by_contra hnot
    push Not at hnot
    obtain ⟨⟨l, hl, hunknown⟩, ⟨k, hk, hcarried⟩, ⟨id, lm⟩, hs, hall⟩ := hnot
    have hid := (mem_labelIntersection hreg).mpr ⟨⟨k, hk, hcarried⟩, lm, hs, hall⟩
    obtain ⟨lm', hs', hall'⟩ := (hexact id).mp hid
    exact hunknown ⟨(id, lm'), hs', hall' l hl⟩
  · intro hcond id
    rw [mem_labelIntersection hreg]
    constructor
    · rintro ⟨⟨k, hk, hcarried⟩, lm, hs, hall⟩
      rcases hcond with hknown | hnone | hno
      · exact ⟨lm, hs, fun l hl => hall l hl (hknown l hl)⟩
      · exact absurd hcarried (hnone k hk)
      · exact absurd ⟨(id, lm), hs, hall⟩ hno
    · rintro ⟨lm, hs, hall⟩
      obtain ⟨l, hl⟩ := List.exists_mem_of_ne_nil labels hne
      exact ⟨⟨l, hl, (id, lm), hs, hall l hl⟩, lm, hs, fun k hk _ => hall k hk⟩

/-- One stream with the label `a=b`, and a query for it and a label of no
stream. -/
theorem label_query_unknown_label :
    (registryOf [(7, oneLabel)]).labelIntersection
        [(⟨[97], by decide⟩, ⟨[98], by decide⟩), (⟨[99], by decide⟩, ⟨[98], by decide⟩)] = {7} ∧
      (⟨[99], by decide⟩, ⟨[98], by decide⟩) ∉ oneLabel.iter := by
  decide +kernel

/-- Two streams that share a label. -/
def sharedLabel : List (UInt64 × LabelMap) := [(7, oneLabel), (8, twoLabels)]

theorem distinct_sharedLabel : Distinct sharedLabel := ⟨by decide, by decide⟩

/-- A query with both labels of the second stream leaves the first one out. -/
theorem label_query_exact_two :
    8 ∈ (registryOf sharedLabel).labelIntersection twoLabels.iter ∧
      7 ∉ (registryOf sharedLabel).labelIntersection twoLabels.iter := by
  have htwo : (8, twoLabels) ∈ sharedLabel := List.mem_cons_of_mem _ List.mem_cons_self
  have hexact := (label_query_exact_iff distinct_sharedLabel
    (show twoLabels.iter ≠ [] by decide)).mpr (.inl fun l hl => ⟨(8, twoLabels), htwo, hl⟩)
  refine ⟨(hexact 8).mpr ⟨twoLabels, htwo, fun l hl => hl⟩, fun h => ?_⟩
  obtain ⟨lm, hlm, hall⟩ := (hexact 7).mp h
  have hone : ((7 : UInt64), lm) = (7, oneLabel) :=
    List.inj_on_of_nodup_map distinct_sharedLabel.ids hlm List.mem_cons_self rfl
  obtain ⟨-, rfl⟩ := Prod.ext_iff.mp hone
  exact absurd hall (by decide)

/-! ## The registry that is built again -/

/-- What is looked up in the derived maps follows from the streams. -/
theorem Indexed.lookup_eq {reg reg' : StreamRegistry} {streams : Set (UInt64 × LabelMap)}
    (h : Indexed reg streams) (h' : Indexed reg' streams) :
    (∀ lm, reg.streamByLabelmap.lookup lm = reg'.streamByLabelmap.lookup lm) ∧
      ∀ l, reg.kvIndex.lookup l = reg'.kvIndex.lookup l := by
  constructor
  · intro lm
    apply Option.ext
    intro id
    rw [h.stream, h'.stream]
  · intro l
    have hsome : (∃ ids, reg.kvIndex.lookup l = some ids) ↔
        ∃ ids, reg'.kvIndex.lookup l = some ids :=
      (exists_lookup_iff h).trans (exists_lookup_iff h').symm
    cases hl : reg.kvIndex.lookup l with
    | none =>
      cases hl' : reg'.kvIndex.lookup l with
      | none => rfl
      | some ids =>
        obtain ⟨_, hne⟩ := hsome.mpr ⟨ids, hl'⟩
        rw [hl] at hne
        cases hne
    | some ids =>
      obtain ⟨ids', hl'⟩ := hsome.mp ⟨ids, hl⟩
      rw [hl', Option.some_inj]
      ext id
      rw [mem_of_lookup h hl, mem_of_lookup h' hl']

theorem labelIntersection_congr {reg reg' : StreamRegistry}
    (h : ∀ l, reg.kvIndex.lookup l = reg'.kvIndex.lookup l) (labels : List Label) :
    reg.labelIntersection labels = reg'.labelIntersection labels := by
  simp only [labelIntersection, h]

/-- Distinct streams, inserted one by one in any order: the registry answers
as the one that `From` makes from its label maps, in whatever order these are
gone over. -/
theorem rebuilt_registry_answers {inserts : List (UInt64 × LabelMap)} (h : Distinct inserts)
    {order : List (Sigma fun _ : UInt64 => LabelMap)}
    (horder : order.Perm (registryOf inserts).labelmapByStream.entries) :
    (∀ lm, (registryOf inserts).getStreamIdByLabelmap lm =
      (fromMap (registryOf inserts).labelmapByStream order).getStreamIdByLabelmap lm) ∧
    (∀ id, (registryOf inserts).getLabelmapByStreamRef id =
      (fromMap (registryOf inserts).labelmapByStream order).getLabelmapByStreamRef id) ∧
    (∀ id, (registryOf inserts).getLabelmapByStreamCloned id =
      (fromMap (registryOf inserts).labelmapByStream order).getLabelmapByStreamCloned id) ∧
    (∀ kv, (registryOf inserts).getStreamsByKv kv =
      (fromMap (registryOf inserts).labelmapByStream order).getStreamsByKv kv) ∧
    ∀ labels, (registryOf inserts).labelIntersection labels =
      (fromMap (registryOf inserts).labelmapByStream order).labelIntersection labels := by
  have hreg := registers_registryOf h
  have hmem (id : UInt64) (lm : LabelMap) : ⟨id, lm⟩ ∈ order ↔ (id, lm) ∈ inserts := by
    rw [horder.mem_iff, ← AList.mem_lookup_iff]
    exact hreg.labelmap id lm
  have hnodup : (order.map fun e => e.2).Nodup := by
    have hentries := (registryOf inserts).labelmapByStream.nodupKeys.nodup
    refine List.Nodup.map_on ?_ (horder.nodup_iff.mpr hentries)
    rintro ⟨id, lm⟩ he ⟨id', lm'⟩ he' rfl
    rw [h.labelmap_injective ((hmem _ _).mp he) ((hmem _ _).mp he')]
  have hindexed := indexed_fromMap (registryOf inserts).labelmapByStream hnodup
  simp only [hmem] at hindexed
  obtain ⟨hstream, hkv⟩ := Indexed.lookup_eq hreg.toIndexed hindexed
  have hlabelmap := labelmapByStream_fromMap (registryOf inserts).labelmapByStream order
  refine ⟨hstream, fun id => ?_, fun id => ?_, hkv, labelIntersection_congr hkv⟩
  · rw [getLabelmapByStreamRef, getLabelmapByStreamRef, hlabelmap]
  · rw [getLabelmapByStreamCloned, getLabelmapByStreamCloned, hlabelmap]

/-- Two streams, gone over in the other order. -/
theorem rebuilt_registry_answers_two :
    let map := (registryOf sharedLabel).labelmapByStream
    (fromMap map map.entries.reverse).getStreamIdByLabelmap twoLabels = some 8 ∧
      (fromMap map map.entries.reverse).labelIntersection oneLabel.iter = {7, 8} := by
  intro map
  obtain ⟨hstream, -, -, -, hlabels⟩ :=
    rebuilt_registry_answers distinct_sharedLabel map.entries.reverse_perm
  rw [← hstream, ← hlabels]
  exact ⟨by decide +kernel, by decide +kernel⟩

end LG.Proof.Tsdb
