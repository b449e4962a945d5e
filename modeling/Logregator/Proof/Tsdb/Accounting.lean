import Logregator.Proof.Tsdb.WriteAhead

/-!
# The accounts of the memtables

In every run of batches each memtable accounts for its records (`Accounted`):
a record that a memtable takes is a new one, since what a run has made has its
own sequence numbers (`pending_new`). The ids of the memtables are the
counter's values in turn (`Ids`), so they are distinct, and they ascend until
the counter goes round (`ascending_seqNumbers_iff`).
-/

namespace LG.Proof.Tsdb

open LG.Impl.Tsdb LG.Impl.Tsdb.LsmTree LG.Spec.Tsdb

/-! ## One memtable -/

theorem sizeOf_pos (r : Record) : 0 < r.sizeOf := by
  simp only [Record.sizeOf, recordStructSize, keySize]
  omega

section Memtable

variable {limit : Nat} {m : MemtableInner} {r : Record}

/-- A memtable that has accounted for nothing is empty. -/
theorem elems_of_size_zero (h : Accounted limit m) (hzero : m.sizeBytes = 0) :
    m.set.elems = [] := by
  cases helems : m.set.elems with
  | nil => rfl
  | cons r rs =>
    have hsize := h.size
    have hpos := sizeOf_pos r
    rw [hzero, helems, List.map_cons, List.sum_cons] at hsize
    omega

theorem accounted_withSizeLimit (id : UInt64) (limit : Nat) :
    Accounted limit (.withSizeLimit id limit) :=
  ⟨rfl, .inl (Nat.zero_le _)⟩

/-- A memtable that takes a new record accounts for it. -/
theorem accounted_append (h : Accounted limit m) (hlimit : m.limit = limit)
    (hnew : ∀ q ∈ m.set.elems, q.key ≠ r.key) (happ : (m.append r).1.wasAppended = true) :
    Accounted limit (m.append r).2 := by
  by_cases hfull : m.sizeBytes + r.sizeOf > m.limit ∧ m.sizeBytes ≠ 0
  · rw [append_full hfull] at happ
    cases happ
  have hperm := OrdSet.insert_perm hnew
  rw [MemtableInner.append, if_neg hfull]
  refine ⟨?_, ?_⟩
  · show m.sizeBytes + r.sizeOf = ((m.set.insert r).elems.map Record.sizeOf).sum
    rw [(hperm.map Record.sizeOf).sum_nat, List.map_cons, List.sum_cons, h.size, Nat.add_comm]
  · show m.sizeBytes + r.sizeOf ≤ limit ∨ (m.set.insert r).elems.length = 1
    by_cases hzero : m.sizeBytes = 0
    · right
      rw [hperm.length_eq, elems_of_size_zero h hzero]
      rfl
    · left
      omega

end Memtable

/-! ## Runs -/

/-- The record that a memtable is about to take is a new one: with those in
the memtables it is among the records of the run. -/
theorem pending_new {t₀ t : LsmTree} {events : List IoEvent} {made : List (Entry × Record)}
    {stage : Stage} {r : Record} (hempty : contents t₀ = []) (h : Logged t₀ events made stage t)
    (hnum : Numbered t₀.nextSeqNum made t) (hlen : made.length ≤ 2 ^ 64)
    (hst : stage.pending = [r]) : ∀ q ∈ contents t, q.key ≠ r.key := by
  have hkept := h.kept
  rw [hst, hempty, List.nil_append] at hkept
  have hmade : ((made.map Prod.snd).map (·.key.sequenceNum)).Nodup := by
    have hnd := nodup_seqNumbers t₀.nextSeqNum hlen
    rw [← hnum.1] at hnd
    rwa [List.map_map]
  obtain ⟨recs, hperm, hsub⟩ := hkept.trans h.inOrder.sublist.subperm
  have hnd : ((contents t ++ [r]).map (·.key.sequenceNum)).Nodup :=
    (hperm.map _).nodup_iff.mp (hmade.sublist (hsub.map _))
  intro q hq he
  rw [List.map_append, List.nodup_append] at hnd
  exact hnd.2.2 _ (List.mem_map_of_mem hq) _ (List.mem_map_of_mem (List.mem_singleton_self r))
    (congrArg Key.sequenceNum he)

/-- The accounts of a run of at most `2 ^ 64` records that starts from
`t₀`. -/
structure Accounts (t₀ : LsmTree) (limit : Nat) (made : List (Entry × Record)) (stage : Stage)
    (t : LsmTree) : Prop where
  logged : ∃ events, Logged t₀ events made stage t
  numbered : Numbered t₀.nextSeqNum made t
  limit_eq : t.memtable.limit = limit
  memtables : made.length ≤ 2 ^ 64 → ∀ m ∈ memtables t, Accounted limit m

section Accounts

variable {t₀ t : LsmTree} {limit : Nat} {made : List (Entry × Record)} {stage : Stage}

/-- The active memtable takes the record. -/
theorem Accounts.put {r : Record} (hempty : contents t₀ = []) (h : Accounts t₀ limit made stage t)
    (hst : stage.pending = [r]) (happ : (t.memtable.append r).1.wasAppended = true)
    (hlen : made.length ≤ 2 ^ 64) :
    ∀ m ∈ Spec.Tsdb.memtables { t with memtable := (t.memtable.append r).2 }, Accounted limit m := by
  obtain ⟨events, hlog⟩ := h.logged
  have hnew := pending_new hempty hlog h.numbered hlen hst
  have hold := h.memtables hlen
  simp only [Spec.Tsdb.memtables, List.mem_append, List.mem_singleton] at hold ⊢
  intro m hm
  rcases hm with hm | rfl
  · exact hold m (.inl hm)
  · apply accounted_append (hold _ (.inr rfl)) h.limit_eq _ happ
    intro q hq
    exact hnew q (List.mem_append_left _ hq)

/-- The active memtable is frozen. -/
theorem Accounts.freeze (h : Accounts t₀ limit made stage t) (hlen : made.length ≤ 2 ^ 64) :
    ∀ m ∈ Spec.Tsdb.memtables (frozen t), Accounted limit m := by
  have hold := h.memtables hlen
  intro m hm
  rcases List.mem_append.mp hm with hm | hm
  · exact hold m hm
  · rw [List.mem_singleton.mp hm]
    show Accounted limit (.withSizeLimit t.nextMemtableId t.memtable.limit)
    rw [h.limit_eq]
    exact accounted_withSizeLimit _ limit

end Accounts

theorem keeps_accounts (fp : List Label → UInt64) {t₀ : LsmTree} (hempty : contents t₀ = [])
    (limit : Nat) : Keeps fp True (Accounts t₀ limit) :=
  have hl := keeps_logged fp t₀
  have hn := keeps_numbered fp t₀.nextSeqNum
  { register := fun h hnone hu => { h with logged := hl.register h.logged hnone hu }
    unfit := fun hp _ _ _ h hnone => { h with logged := hl.unfit hp h.logged hnone }
    number := by
      intro made t sourceId payload now lm i id ts h hs hd hid href hts
      refine
        { h with
          logged := hl.number h.logged hs hd hid href hts
          numbered := hn.number h.numbered hs hd hid href hts
          memtables := fun hlen => h.memtables ?_ }
      rw [List.length_append] at hlen
      omega
    wal := fun h hs => { h with logged := hl.wal h.logged hs }
    unlogged := fun h hs => { h with logged := hl.unlogged h.logged hs }
    put := fun h happ =>
      { h with
        logged := hl.put h.logged happ
        limit_eq := (append_limit _ _).trans h.limit_eq
        memtables := h.put hempty rfl happ }
    refuse := fun h hne => { h with logged := hl.refuse h.logged hne }
    retry := fun h happ =>
      { h with
        logged := hl.retry h.logged happ
        limit_eq := (append_limit _ _).trans h.limit_eq
        memtables := h.put hempty rfl happ }
    flush := fun h hs => { h with logged := hl.flush h.logged hs, memtables := h.freeze }
    unsent := fun h hs => { h with logged := hl.unsent h.logged hs, memtables := h.freeze }
    fsync := fun h hs => { h with logged := hl.fsync h.logged hs } }

/-! ## Ids -/

/-- The ids of the memtables are the counter's values from `s` on. -/
structure Ids (s : UInt64) (t : LsmTree) : Prop where
  ids : (memtables t).map MemtableInner.id = seqNumbers s (t.frozenMemtables.length + 1)
  next : t.nextMemtableId = s + UInt64.ofNat (t.frozenMemtables.length + 1)

theorem Ids.put {s : UInt64} {t : LsmTree} (h : Ids s t) (r : Record) :
    Ids s { t with memtable := (t.memtable.append r).2 } := by
  refine ⟨?_, h.next⟩
  rw [← h.ids]
  simp [memtables]

/-- A frozen memtable keeps its id, and the fresh one has the next. -/
theorem Ids.freeze {s : UInt64} {t : LsmTree} (h : Ids s t) : Ids s (frozen t) := by
  have hlen : (frozen t).frozenMemtables.length = t.frozenMemtables.length + 1 := by
    simp [frozen]
  refine ⟨?_, ?_⟩
  · rw [hlen, seqNumbers_add, ← h.ids, ← h.next]
    simp [memtables, frozen, seqNumbers, MemtableInner.withSizeLimit]
  · rw [hlen, UInt64.ofNat_add, ← UInt64.add_assoc, ← h.next]
    rfl

theorem keeps_ids (fp : List Label → UInt64) (s : UInt64) : Keeps fp True fun _ _ t => Ids s t where
  register := fun h _ _ => { h with }
  unfit := fun _ _ _ _ h _ => { h with }
  number := fun h _ _ _ _ _ => { h with }
  wal := fun h _ => { h with }
  unlogged := fun h _ => h
  put := fun h _ => h.put _
  refuse := fun h _ => h
  retry := fun h _ => h.put _
  flush := fun h _ => { h.freeze with }
  unsent := fun h _ => h.freeze
  fsync := fun h _ => { h with }

/-- A counter's values ascend until it goes round. -/
theorem ascending_seqNumbers_iff (s : UInt64) {n : Nat} (hn : n < 2 ^ 64) :
    (seqNumbers s (n + 1)).Pairwise (· < ·) ↔ s.toNat + n < 2 ^ 64 := by
  have hval (i : Nat) (hi : i ≤ n) : (s + UInt64.ofNat i).toNat = (s.toNat + i) % 2 ^ 64 := by
    rw [UInt64.toNat_add, UInt64.toNat_ofNat_of_lt' (show i < 2 ^ 64 by omega)]
  have hs := s.toNat_lt
  rw [seqNumbers, List.pairwise_map]
  constructor
  · intro h
    by_contra hover
    -- The value that wraps around to zero is less than the first.
    have hwrap : 2 ^ 64 - s.toNat ≤ n := by omega
    have hlt := List.pairwise_iff_getElem.mp h 0 (2 ^ 64 - s.toNat) (by simp) (by simp; omega)
      (by omega)
    simp only [List.getElem_range, UInt64.lt_iff_toNat_lt] at hlt
    rw [hval _ hwrap, hval 0 (by omega)] at hlt
    omega
  · intro h
    refine List.pairwise_lt_range.imp_of_mem ?_
    intro i j hi hj hij
    rw [List.mem_range] at hi hj
    rw [UInt64.lt_iff_toNat_lt, hval i (by omega), hval j (by omega)]
    omega

/-! ## The assertion of `append_batch` -/

theorem send_ne_panic (e : IoEvent) (t : LsmTree) : (send e t).1 ≠ .panic := by
  cases hs : t.ioTx.send e with
  | none =>
    rw [send_unsent hs]
    simp
  | some tx =>
    rw [send_sent hs]
    simp

/-- A flush leaves a fresh memtable, or an error. -/
theorem issueFlush_fresh (t : LsmTree) : (issueFlush t).1 ≠ .panic ∧
    (issueFlush t).2.memtable = .withSizeLimit t.nextMemtableId t.memtable.limit := by
  cases hs : t.ioTx.send (.flushMemtable (flushOf t)) with
  | none =>
    rw [issueFlush_unsent hs]
    exact ⟨by simp, rfl⟩
  | some tx =>
    rw [issueFlush_sent hs]
    exact ⟨by simp, rfl⟩

/-- The assertion of `append_batch` holds in every tree. -/
theorem storeRecord_ne_panic (r : Record) (t : LsmTree) : (storeRecord r t).1 ≠ .panic := by
  rw [storeRecord, Ne, Action.bind_panic_iff]
  rintro (h | ⟨-, t₁, -, h⟩)
  · exact send_ne_panic _ t h
  rw [Action.get_bind] at h
  simp only [Action.modify_bind] at h
  cases hout : (t₁.memtable.append r).1 with
  | ok =>
    rw [hout] at h
    cases h
  | full rejected =>
    have hfresh := issueFlush_fresh { t₁ with memtable := (t₁.memtable.append r).2 }
    rw [hout] at h
    rcases Action.bind_panic_iff.mp h with h | ⟨⟨⟩, t₂, hflush, h⟩
    · exact hfresh.1 h
    rw [hflush] at hfresh
    cases rejected with
    | none => cases h
    | some q =>
      rcases append_cases t₂.memtable q with ⟨hne, -⟩ | ⟨happ, -⟩
      · rw [hfresh.2] at hne
        exact hne rfl
      · simp only [Action.get_bind, Action.modify_bind, happ, if_true] at h
        cases h

/-! ## Main results -/

/-- The sizes of memtables that account for their records add up. -/
theorem foldl_sizeBytes {limit : Nat} {ms : List MemtableInner} (a : Nat)
    (h : ∀ m ∈ ms, Accounted limit m) :
    ms.foldl (fun acc f => acc + f.sizeBytes) a =
      a + ((ms.flatMap fun m => m.set.elems).map Record.sizeOf).sum := by
  induction ms generalizing a with
  | nil => simp
  | cons m ms ih =>
    rw [List.foldl_cons, ih _ fun m' hm' => h m' (List.mem_cons_of_mem _ hm'), List.flatMap_cons,
      List.map_append, List.sum_append, (h m List.mem_cons_self).size]
    omega

/-- The size that a tree reports is that of the records in its memtables. -/
theorem allMemtableSizeBytes_eq {t : LsmTree} {limit : Nat}
    (h : ∀ m ∈ memtables t, Accounted limit m) :
    t.allMemtableSizeBytes = ((contents t).map Record.sizeOf).sum := by
  rw [allMemtableSizeBytes, foldl_sizeBytes _ fun m hm => h m (List.mem_append_left _ hm),
    (h t.memtable (List.mem_append_right _ (List.mem_singleton_self _))).size, contents,
    List.flatMap_cons, List.map_append, List.sum_append]

theorem new_memtable {opts : LsmTreeOptions} {t : LsmTree} (h : LsmTree.new opts = some t) :
    t.memtable = opts.memtable := by
  unfold LsmTree.new at h
  split at h
  · cases h
    rfl
  · cases h

/-- In every run of fewer than `2 ^ 64` records and freezes on a tree with an
empty memtable, each memtable accounts for its records and has an id of its
own; the ids ascend exactly if the first one and the number of freezes stay
below `2 ^ 64`; and the assertion of `append_batch` holds. -/
theorem memtables_accounted (fp : List Label → UInt64) {opts : LsmTreeOptions} {id : UInt64}
    {limit : Nat} (hmem : opts.memtable = .withSizeLimit id limit) {t₀ : LsmTree}
    (hnew : LsmTree.new opts = some t₀) (batches : List Batch)
    (hrecords : (made fp batches t₀).length < 2 ^ 64)
    (hfreezes : (run fp batches t₀).frozenMemtables.length < 2 ^ 64) :
    (∀ m ∈ memtables (run fp batches t₀), Accounted limit m) ∧
      ((memtables (run fp batches t₀)).map MemtableInner.id).Nodup ∧
      (((memtables (run fp batches t₀)).map MemtableInner.id).Pairwise (· < ·) ↔
        id.toNat + (run fp batches t₀).frozenMemtables.length < 2 ^ 64) ∧
      ∀ r t, (storeRecord r t).1 ≠ .panic := by
  have hstart := new_eq_some hnew
  have hfirst := new_memtable hnew
  rw [hmem] at hfirst
  have hempty : contents t₀ = [] := by
    rw [hstart.contents, hmem]
    rfl
  have honly : memtables t₀ = [.withSizeLimit id limit] := by
    rw [memtables, hstart.frozen, hfirst]
    rfl
  have haccounts := (keeps_accounts fp hempty limit).run batches
    { logged := ⟨[], logged_start t₀⟩
      numbered := ⟨rfl, by simp⟩
      limit_eq := by rw [hfirst]; rfl
      memtables := by simp [honly, accounted_withSizeLimit] } (.inl trivial)
  have hstartIds : Ids id t₀ := by
    refine ⟨?_, ?_⟩
    · rw [honly, hstart.frozen]
      simp [seqNumbers, MemtableInner.withSizeLimit]
    · rw [hstart.nextMemtable, hstart.frozen, hfirst]
      rfl
  have hids := (keeps_ids fp id).run batches hstartIds (.inl trivial)
  refine ⟨haccounts.memtables hrecords.le, ?_, ?_, storeRecord_ne_panic⟩
  · rw [hids.ids]
    exact nodup_seqNumbers id hfreezes
  · rw [hids.ids]
    exact ascending_seqNumbers_iff id hfreezes

/-- A batch of two payloads without labels. -/
def twoPayloads : List Batch := [(7, [([0, 1, 2], 5), ([0, 3, 4], 6)])]

/-- A new tree whose memtable has the last id but one, and takes one record. -/
def lateOptions : LsmTreeOptions :=
  { emptyOptions 0 with memtable := .withSizeLimit (UInt64.ofNat (2 ^ 64 - 2)) 0 }

/-- After two freezes the active memtable has the least id. -/
theorem ids_wrap : ∃ t₀, LsmTree.new lateOptions = some t₀ ∧
    (made (fun _ => 0) twoPayloads t₀).length = 2 ∧
    (memtables (run (fun _ => 0) twoPayloads t₀)).map MemtableInner.id =
      [18446744073709551614, 18446744073709551615, 0] ∧
    ¬ ((memtables (run (fun _ => 0) twoPayloads t₀)).map MemtableInner.id).Pairwise (· < ·) :=
  ⟨_, rfl, by decide +kernel, by decide +kernel, by decide +kernel⟩

theorem memtables_accounted_two : ∃ t₀, LsmTree.new (emptyOptions 0) = some t₀ ∧
    (∀ m ∈ memtables (run (fun _ => 0) twoPayloads t₀), Accounted 0 m) ∧
    ((memtables (run (fun _ => 0) twoPayloads t₀)).map MemtableInner.id).Pairwise (· < ·) := by
  obtain ⟨t₀, hnew, hrecords, hfreezes⟩ : ∃ t₀, LsmTree.new (emptyOptions 0) = some t₀ ∧
      (made (fun _ => 0) twoPayloads t₀).length = 2 ∧
      (run (fun _ => 0) twoPayloads t₀).frozenMemtables.length = 2 :=
    ⟨_, rfl, by decide +kernel, by decide +kernel⟩
  obtain ⟨hsizes, -, hids, -⟩ := memtables_accounted (fun _ => 0) rfl hnew twoPayloads
    (by rw [hrecords]; decide) (by rw [hfreezes]; decide)
  refine ⟨t₀, hnew, hsizes, hids.mpr ?_⟩
  rw [hfreezes]
  decide

end LG.Proof.Tsdb
