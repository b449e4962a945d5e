import Logregator.Proof.Tsdb.Lsm
import Logregator.Proof.Tsdb.MergeIter

/-!
# The tree keeps its log

What a run of accepted payloads does to a tree (`Appends`), one payload
(`appends_one`) and then the next (`Appends.trans`): their records join the
log under successive sequence numbers, and the memtables hold them, wherever
the freezes fell. `appendBatch_appends` and `appendBatches_appends` are the
batches and the runs of batches. A range over a stream then yields what the
query selects from the log (`range_selects_log`).
-/

namespace LG.Proof.Tsdb

open LG.Impl.Tsdb LG.Impl.Tsdb.LsmTree LG.Spec.Tsdb

/-! ## Sequence numbers -/

/-- `n` sequence numbers from `s` on. -/
def seqNumbers (s : UInt64) (n : Nat) : List UInt64 :=
  (List.range n).map fun i => s + UInt64.ofNat i

theorem seqNumbers_add (s : UInt64) (m n : Nat) :
    seqNumbers s (m + n) = seqNumbers s m ++ seqNumbers (s + UInt64.ofNat m) n := by
  simp only [seqNumbers, List.range_add, List.map_append, List.map_map, Function.comp_def,
    UInt64.ofNat_add, UInt64.add_assoc]

/-- A counter's values repeat after `2 ^ 64` steps only. -/
theorem offset_inj {s : UInt64} {i j : Nat} (hi : i < 2 ^ 64) (hj : j < 2 ^ 64)
    (h : s + UInt64.ofNat i = s + UInt64.ofNat j) : i = j := by
  have he := congrArg UInt64.toNat (UInt64.add_right_inj s |>.mp h)
  rwa [UInt64.toNat_ofNat_of_lt' hi, UInt64.toNat_ofNat_of_lt' hj] at he

theorem nodup_seqNumbers (s : UInt64) {n : Nat} (h : n ≤ 2 ^ 64) : (seqNumbers s n).Nodup := by
  refine List.Nodup.map_on (fun i hi j hj he => ?_) List.nodup_range
  exact offset_inj ((List.mem_range.mp hi).trans_le h) ((List.mem_range.mp hj).trans_le h) he

/-! ## Runs of payloads -/

/-- What a run of accepted payloads does: it makes the records, in this
order. -/
structure Appends (fp : List Label → UInt64) (entries : List (UInt64 × List UInt8 × Int))
    (recs : List Record) (t t' : LsmTree) : Prop where
  live : t'.ioTx.closesAfter = none
  ssts : t'.sstHandles = t.sstHandles
  grows : Extends t.streamReg t'.streamReg
  log : log t' = log t ++ recs
  made : List.Forall₂ (Made fp t'.streamReg) entries recs
  numbers : recs.map (·.key.sequenceNum) = seqNumbers t.nextSeqNum recs.length
  seq : t'.nextSeqNum = t.nextSeqNum + UInt64.ofNat recs.length
  holds : ((recs ++ contents t).map Record.key).Nodup → (contents t').Perm (recs ++ contents t)
  mem : ∀ q ∈ contents t', q ∈ recs ∨ q ∈ contents t

variable {fp : List Label → UInt64} {t t₁ t₂ t' : LsmTree}

theorem Appends.refl (hl : t.ioTx.closesAfter = none) : Appends fp [] [] t t where
  live := hl
  ssts := rfl
  grows := fun _ _ h => h
  log := (List.append_nil _).symm
  made := .nil
  numbers := rfl
  seq := by simp
  holds := fun _ => .refl _
  mem := fun _ h => .inr h

/-- A record stays made when the registry grows. -/
theorem Made.extend {reg reg' : StreamRegistry} {entry : UInt64 × List UInt8 × Int} {r : Record}
    (h : Made fp reg entry r) (hg : Extends reg reg') : Made fp reg' entry r := by
  obtain ⟨lm, n, hd, hp, hid⟩ := h.body
  exact ⟨h.sourceId, h.timestamp, h.size, lm, n, hd, hp, hg _ _ hid⟩

theorem Appends.trans {es₁ es₂ : List (UInt64 × List UInt8 × Int)} {rs₁ rs₂ : List Record}
    (h₁ : Appends fp es₁ rs₁ t t₁) (h₂ : Appends fp es₂ rs₂ t₁ t₂) :
    Appends fp (es₁ ++ es₂) (rs₁ ++ rs₂) t t₂ where
  live := h₂.live
  ssts := h₂.ssts.trans h₁.ssts
  grows := h₁.grows.trans h₂.grows
  log := by rw [h₂.log, h₁.log, List.append_assoc]
  made := List.rel_append (h₁.made.imp fun _ _ h => Made.extend h h₂.grows) h₂.made
  numbers := by
    rw [List.map_append, h₁.numbers, h₂.numbers, h₁.seq, List.length_append, seqNumbers_add]
  seq := by rw [h₂.seq, h₁.seq, List.length_append, UInt64.ofNat_add, UInt64.add_assoc]
  holds := by
    intro hnd
    have hswap : (rs₁ ++ rs₂ ++ contents t).Perm (rs₂ ++ (rs₁ ++ contents t)) := by
      rw [List.append_assoc]
      exact List.perm_append_comm_assoc _ _ _
    have hnd := (hswap.map Record.key).nodup_iff.mp hnd
    have hc₁ := h₁.holds (by
      rw [List.map_append] at hnd
      exact (List.nodup_append.mp hnd).2.1)
    have hc₂ := h₂.holds (((hc₁.append_left rs₂).map Record.key).nodup_iff.mpr hnd)
    exact hc₂.trans ((hc₁.append_left rs₂).trans hswap.symm)
  mem := by
    intro q hq
    simp only [List.mem_append]
    rcases h₂.mem q hq with hq | hq
    · exact .inl (.inr hq)
    · exact (h₁.mem q hq).imp_left .inl

/-- One payload: its record is made and stored. -/
theorem appends_one {sourceId : UInt64} {payload : List UInt8} {now : Int} {r : Record}
    (hm : Makes fp sourceId payload now r t t₁) (hs : Stores r t₁ t') :
    Appends fp [(sourceId, payload, now)] [r] t t' where
  live := hs.live
  ssts := hs.ssts.trans hm.ssts
  grows := by rw [hs.streams]; exact hm.grows
  log := by rw [hs.log, Spec.Tsdb.log, hm.io]; rfl
  made := .cons (by rw [hs.streams]; exact hm.made) .nil
  numbers := by simp [seqNumbers, hm.number]
  seq := by rw [hs.seq, hm.seq]; rfl
  holds := by
    intro hnd
    rw [← hm.contents] at hnd ⊢
    refine hs.perm fun q hq he => ?_
    exact (List.nodup_cons.mp hnd).1 (he ▸ List.mem_map_of_mem hq)
  mem := by
    intro q hq
    rw [← hm.contents, List.mem_singleton]
    exact hs.mem hq

theorem appendEach_appends {sourceId : UInt64} : ∀ {payloads : List (List UInt8 × Int)}
    {t t' : LsmTree}, t.ioTx.closesAfter = none →
    appendEach fp sourceId payloads t = (.ok (), t') →
    ∃ recs, Appends fp (payloads.map fun p => (sourceId, p)) recs t t'
  | [], t, t', hl, h => by
    cases h
    exact ⟨[], .refl hl⟩
  | (payload, now) :: rest, t, t', hl, h => by
    rw [appendEach, Action.bind_eq_ok] at h
    obtain ⟨r, t₁, hmake, h⟩ := h
    have hm := makeRecord_eq_ok hmake
    obtain ⟨t₂, hstore, hs⟩ := storeRecord_live (hm.io ▸ hl) r
    rw [Action.bind_of_ok hstore] at h
    obtain ⟨recs, hrest⟩ := appendEach_appends hs.live h
    exact ⟨_, (appends_one hm hs).trans hrest⟩

/-- A batch, with the `fsync` at its end. -/
theorem appendBatch_appends {sourceId : UInt64} {payloads : List (List UInt8 × Int)}
    (hl : t.ioTx.closesAfter = none) (h : appendBatch fp sourceId payloads t = (.ok (), t')) :
    ∃ recs, Appends fp (payloads.map fun p => (sourceId, p)) recs t t' := by
  rw [appendBatch, Action.bind_eq_ok] at h
  obtain ⟨_, t₁, heach, hsync⟩ := h
  obtain ⟨recs, ha⟩ := appendEach_appends hl heach
  rw [send_live ha.live] at hsync
  cases hsync
  refine ⟨recs, { ha with log := ?_, live := rfl }⟩
  rw [← ha.log]
  simp [log, walRecords]

theorem appendBatches_appends : ∀ {batches : List (UInt64 × List (List UInt8 × Int))}
    {t t' : LsmTree}, t.ioTx.closesAfter = none → appendBatches fp batches t = (.ok (), t') →
    ∃ recs, Appends fp (entriesOf batches) recs t t'
  | [], t, t', hl, h => by
    cases h
    exact ⟨[], .refl hl⟩
  | (sourceId, payloads) :: batches, t, t', hl, h => by
    rw [appendBatches, Action.bind_eq_ok] at h
    obtain ⟨_, t₁, hbatch, h⟩ := h
    obtain ⟨recs₁, h₁⟩ := appendBatch_appends hl hbatch
    obtain ⟨recs₂, h₂⟩ := appendBatches_appends h₁.live h
    exact ⟨recs₁ ++ recs₂, h₁.trans h₂⟩

/-! ## Queries -/

/-- Keys compare field by field. -/
theorem key_le_iff {k k' : Key} : k ≤ k' ↔ k.streamId < k'.streamId ∨ k.streamId = k'.streamId ∧
    (k.timestamp < k'.timestamp ∨ k.timestamp = k'.timestamp ∧
      (k.sequenceNum < k'.sequenceNum ∨ k.sequenceNum = k'.sequenceNum ∧
        k.sourceId ≤ k'.sourceId)) := by
  show k.fields ≤ k'.fields ↔ _
  simp only [Key.fields, Prod.Lex.toLex_le_toLex]

/-- The bounds of `range` select a stream's records by their time: sequence
numbers and sources are unconstrained. -/
theorem bounds_iff_selects (s startT endT : UInt64) (r : Record) :
    ((⟨s, startT, 0, 0⟩ : Key) ≤ r.key ∧
      r.key ≤ ⟨s, endT, UInt64.ofNat (2 ^ 64 - 1), UInt64.ofNat (2 ^ 64 - 1)⟩) ↔
      Selects s startT endT r := by
  have hmax (a : UInt64) : a.toNat ≤ (UInt64.ofNat (2 ^ 64 - 1)).toNat :=
    Nat.le_pred_of_lt a.toNat_lt
  have hseq := hmax r.key.sequenceNum
  have hsrc := hmax r.key.sourceId
  simp only [key_le_iff, Selects, UInt64.lt_iff_toNat_lt, UInt64.le_iff_toNat_le,
    ← UInt64.toNat_inj, UInt64.toNat_zero]
  omega

/-- The bounds of `range` are inverted just when the times are. -/
theorem bounds_inverted (s startT endT : UInt64) :
    Bound.inverted (.included (⟨s, startT, 0, 0⟩ : Key))
      (.included ⟨s, endT, UInt64.ofNat (2 ^ 64 - 1), UInt64.ofNat (2 ^ 64 - 1)⟩) =
        decide (endT < startT) := by
  have hb := bounds_iff_selects s startT endT ⟨⟨s, startT, 0, 0⟩, []⟩
  refine decide_eq_decide.mpr (not_iff_not.mp ?_)
  rw [not_lt, not_lt]
  constructor
  · intro hle
    exact (hb.mp ⟨le_refl _, hle⟩).2.2
  · intro hle
    exact (hb.mpr ⟨rfl, le_refl _, hle⟩).2

/-- A query's records are strictly ordered by time and sequence number. -/
theorem timeOrder_lt {s startT endT : UInt64} {a b : Record} (ha : Selects s startT endT a)
    (hb : Selects s startT endT b) (hle : a.key ≤ b.key)
    (hne : a.key.sequenceNum ≠ b.key.sequenceNum) : timeOrder a < timeOrder b := by
  rw [timeOrder, timeOrder, Prod.Lex.toLex_lt_toLex]
  rcases key_le_iff.mp hle with h | ⟨-, h | ⟨ht, h | h⟩⟩
  · exact absurd h (by rw [ha.1, hb.1]; exact lt_irrefl _)
  · exact .inl h
  · exact .inr ⟨ht, h⟩
  · exact absurd h.1 hne

/-- The records of a run of fewer than `2 ^ 64` have their own sequence
numbers. -/
theorem Appends.nodup {entries : List (UInt64 × List UInt8 × Int)} {recs : List Record}
    (h : Appends fp entries recs t t') (hlen : entries.length < 2 ^ 64) :
    (recs.map (·.key.sequenceNum)).Nodup := by
  rw [h.numbers]
  exact nodup_seqNumbers _ (h.made.length_eq ▸ hlen.le)

/-- A range over the memtables of a tree without tables, that hold `recs`. -/
theorem rangeStream_memtables (x : Externals) (hp : RecordHeap) {recs : List Record}
    (hsst : t.sstHandles = []) (hc : (contents t).Perm recs)
    (hnd : (recs.map (·.key.sequenceNum)).Nodup) (s : UInt64) {startT endT : UInt64}
    (hle : startT ≤ endT) :
    ∃ m, rangeStream x hp t s startT endT = .ok m ∧
      ∃ out, Drains (MergeIter.next x) m out ∧
        out.Perm (recs.filter fun r => Selects s startT endT r) ∧
        out.Pairwise fun a b => timeOrder a < timeOrder b := by
  have hinv : Bound.inverted (.included (⟨s, startT, 0, 0⟩ : Key))
      (.included ⟨s, endT, UInt64.ofNat (2 ^ 64 - 1), UInt64.ofNat (2 ^ 64 - 1)⟩) = false :=
    (bounds_inverted s startT endT).trans (decide_eq_false (not_lt.mpr hle))
  obtain ⟨m, hm, out, hd, hperm, hasc⟩ :=
    drains_memtables x hp t.memtable t.frozenMemtables hinv
  have hout : out.Perm (recs.filter fun r => Selects s startT endT r) := by
    refine hperm.trans (List.Perm.trans (.of_eq ?_) (hc.filter _))
    simp only [contents, List.filter_flatMap, OrdSet.between, Bound.startOk, Bound.endOk,
      bounds_iff_selects]
  refine ⟨m, by rw [rangeStream, hsst]; exact hm, out, hd, hout, ?_⟩
  have hnd : out.Pairwise fun a b => a.key.sequenceNum ≠ b.key.sequenceNum := by
    have hsub := (List.filter_sublist (p := fun r => Selects s startT endT r)
      (l := recs)).map (·.key.sequenceNum)
    exact List.pairwise_map.mp ((hout.map _).nodup_iff.mpr (hnd.sublist hsub))
  have hsel (r : Record) (hr : r ∈ out) : Selects s startT endT r :=
    of_decide_eq_true (List.mem_filter.mp (hout.mem_iff.mp hr)).2
  exact (hasc.and hnd).imp_of_mem fun ha hb h => timeOrder_lt (hsel _ ha) (hsel _ hb) h.1 h.2

/-- A new tree: what it has from its options, and how it starts. -/
structure Starts (opts : LsmTreeOptions) (t : LsmTree) : Prop where
  contents : contents t = opts.memtable.set.elems
  ssts : t.sstHandles = opts.sstHandles
  io : t.ioTx = opts.ioTx
  streams : t.streamReg = opts.streamReg
  buffer : t.streamBuffer = []
  frozen : t.frozenMemtables = []
  nextMemtable : t.nextMemtableId = t.memtable.id + 1

theorem new_eq_some {opts : LsmTreeOptions} (h : LsmTree.new opts = some t) : Starts opts t := by
  unfold LsmTree.new at h
  split at h
  · cases h
    exact ⟨List.append_nil _, rfl, rfl, rfl, rfl, rfl, rfl⟩
  · cases h

/-- Reads from memory are exact: after any run of batches on a new tree, a
range over a stream yields the run's records of the stream and the time
range, each once, in the order of time and sequence number. -/
theorem range_selects_log (x : Externals) (hp : RecordHeap) (fp : List Label → UInt64)
    (opts : LsmTreeOptions) {id : UInt64} {limit : Nat}
    (hmem : opts.memtable = .withSizeLimit id limit) (hsst : opts.sstHandles = [])
    (hlive : opts.ioTx.closesAfter = none) {t₀ t : LsmTree} (hnew : LsmTree.new opts = some t₀)
    (batches : List (UInt64 × List (List UInt8 × Int)))
    (hrun : appendBatches fp batches t₀ = (.ok (), t)) (hlen : (entriesOf batches).length < 2 ^ 64)
    (s startT endT : UInt64) (hle : startT ≤ endT) :
    ∃ recs, log t = log t₀ ++ recs ∧ List.Forall₂ (Made fp t.streamReg) (entriesOf batches) recs ∧
      ∃ m, rangeStream x hp t s startT endT = .ok m ∧
        ∃ out, Drains (MergeIter.next x) m out ∧
          out.Perm (recs.filter fun r => Selects s startT endT r) ∧
          out.Pairwise fun a b => timeOrder a < timeOrder b := by
  have hstart := new_eq_some hnew
  obtain ⟨recs, ha⟩ := appendBatches_appends (by rw [hstart.io]; exact hlive) hrun
  have hnd := ha.nodup hlen
  have hkeys : (recs.map Record.key).Nodup := by
    apply List.Nodup.of_map Key.sequenceNum
    rwa [List.map_map]
  -- The new tree holds nothing, so that the memtables hold the run's records.
  have hempty : recs ++ contents t₀ = recs := by
    rw [hstart.contents, hmem]
    exact List.append_nil _
  have hc := ha.holds
  rw [hempty] at hc
  refine ⟨recs, ha.log, ha.made, ?_⟩
  exact rangeStream_memtables x hp (ha.ssts.trans (hstart.ssts.trans hsst)) (hc hkeys) hnd s hle

/-- A new tree without tables, on a live channel. -/
def emptyOptions (limit : Nat) : LsmTreeOptions :=
  { basepath := "", blockSizeLimit := none, memtable := .withSizeLimit 0 limit, sstHandles := []
    streamReg := .empty, nextStreamId := 1, nextSeqNum := 0
    ioTx := { sent := [], closesAfter := none } }

/-- Two records of one stream, the second with an earlier time and in a
second memtable. -/
theorem range_selects_log_two :
    ∃ t₀ t recs, LsmTree.new (emptyOptions 60) = some t₀ ∧
      appendBatches (fun _ => 0) [(7, [([0, 1, 2], 5), ([0, 3, 4], 3)])] t₀ = (.ok (), t) ∧
      log t = log t₀ ++ recs ∧
      ∃ m, rangeStream zeroHashes (.sortedList _ _) t 1 0 9 = .ok m ∧
        ∃ out, Drains (MergeIter.next zeroHashes) m out ∧
          out.Perm (recs.filter fun r => Selects 1 0 9 r) ∧
          out.Pairwise fun a b => timeOrder a < timeOrder b := by
  obtain ⟨t₀, hnew, t, hrun⟩ : ∃ t₀, LsmTree.new (emptyOptions 60) = some t₀ ∧ ∃ t,
      appendBatches (fun _ => 0) [(7, [([0, 1, 2], 5), ([0, 3, 4], 3)])] t₀ = (.ok (), t) :=
    ⟨_, rfl, Action.returned (by decide +kernel)⟩
  obtain ⟨recs, hlog, -, hm⟩ := range_selects_log zeroHashes (.sortedList _ _) _ (emptyOptions 60)
    rfl rfl rfl hnew _ hrun (by decide) 1 0 9 (by decide)
  exact ⟨t₀, t, recs, hnew, hrun, hlog, hm⟩

end LG.Proof.Tsdb
