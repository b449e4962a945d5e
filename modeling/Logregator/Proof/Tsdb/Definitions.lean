import Logregator.Proof.Tsdb.Manifest
import Logregator.Proof.Tsdb.Streams

/-!
# Streams are defined no later than their records

The updates of the streams wait in a buffer, and go out with the next flush. In
a run without panics they are the definitions of all streams, in their order
(`Travels`), so that each flush, with those before it, defines the streams of
its records once, as long as the counter of stream ids has not gone round
(`definitions_no_later`). Records that were in the memtable before the run are
flushed without a definition (`definitions_missing`).
-/

namespace LG.Proof.Tsdb

open LG.Impl.Tsdb LG.Impl.Tsdb.LsmTree LG.Spec.Tsdb

/-! ## Definitions -/

/-- The updates that define the streams. -/
def definitions (s : UInt64) (streams : List LabelMap) : List ManifestEntry :=
  streams.mapIdx fun i lm => .streamUpdate (idAt s i) lm

theorem definitions_concat (s : UInt64) (streams : List LabelMap) (lm : LabelMap) :
    definitions s (streams ++ [lm]) =
      definitions s streams ++ [.streamUpdate (idAt s streams.length) lm] :=
  List.mapIdx_concat

theorem updatesFor_append (id : UInt64) (entries entries' : List ManifestEntry) :
    updatesFor id (entries ++ entries') = updatesFor id entries ++ updatesFor id entries' :=
  List.filterMap_append

theorem updatesFor_update (id id' : UInt64) (lm : LabelMap) :
    updatesFor id [.streamUpdate id' lm] = if id' = id then [lm] else [] := by
  simp only [updatesFor, List.filterMap_cons, List.filterMap_nil]
  split <;> simp_all

/-- An id that is still to come is not defined. -/
theorem updatesFor_later {s : UInt64} {streams : List LabelMap} {j : Nat}
    (hj : streams.length ≤ j) (hlt : j < 2 ^ 64) : updatesFor (idAt s j) (definitions s streams) = [] := by
  induction streams using List.reverseRecOn with
  | nil => rfl
  | append_singleton streams lm ih =>
    rw [List.length_append, List.length_singleton] at hj
    have hne : idAt s streams.length ≠ idAt s j := fun he => by
      have := offset_inj (by omega) hlt he
      omega
    rw [definitions_concat, updatesFor_append, ih (by omega), updatesFor_update, if_neg hne]
    rfl

/-- Each stream is defined once, as long as the counter has not gone round. -/
theorem updatesFor_definitions {s : UInt64} {streams : List LabelMap} (hlen : streams.length ≤ 2 ^ 64)
    {i : Nat} {lm : LabelMap} (hi : streams[i]? = some lm) :
    updatesFor (idAt s i) (definitions s streams) = [lm] := by
  induction streams using List.reverseRecOn with
  | nil => cases hi
  | append_singleton streams lm' ih =>
    rw [List.length_append, List.length_singleton] at hlen
    rw [definitions_concat, updatesFor_append, updatesFor_update]
    rcases getElem?_concat_iff.mp hi with hi | ⟨rfl, rfl⟩
    · have hlt := (List.getElem?_eq_some_iff.mp hi).1
      have hne : idAt s streams.length ≠ idAt s i := fun he => by
        have := offset_inj (by omega) (by omega) he
        omega
      rw [ih (by omega) hi, if_neg hne]
      rfl
    · rw [updatesFor_later (le_refl _) (by omega), if_pos rfl]
      rfl

/-! ## What travels -/

/-- The streams registered, and what a run that starts from `t₀` has sent of
them. -/
structure Travels (fp : List Label → UInt64) (t₀ : LsmTree) (streams : List LabelMap)
    (events : List IoEvent) (made : List (Entry × Record)) (stage : Stage) (t : LsmTree) : Prop
    extends Registered fp t₀.nextStreamId streams made t where
  sent : t.ioTx.sent = t₀.ioTx.sent ++ events
  storing : ∀ r ∈ stage.unlogged ++ stage.pending, ∃ e, (e, r) ∈ made
  memtable : ∀ r ∈ t.memtable.set.elems, r ∈ t₀.memtable.set.elems ∨ ∃ e, (e, r) ∈ made
  buffered : t.ioTx.closesAfter = some 0 ∨
    updates events ++ t.streamBuffer = definitions t₀.nextStreamId streams
  defined : streams.length ≤ 2 ^ 64 →
    AtFlushes (Defines fp t₀.memtable.set.elems made) events

namespace Travels

variable {fp : List Label → UInt64} {t₀ t : LsmTree} {streams : List LabelMap}
  {events : List IoEvent} {made : List (Entry × Record)} {stage : Stage}

/-- What is sent, when it is no flush. -/
theorem send (h : Travels fp t₀ streams events made stage t) {e : IoEvent} {tx : Sender}
    (hs : t.ioTx.send e = some tx) (he : ∀ p, e ≠ .flushMemtable p) {stage' : Stage}
    (hst : stage'.unlogged ++ stage'.pending = stage.unlogged ++ stage.pending) :
    Travels fp t₀ streams (events ++ [e]) made stage' { t with ioTx := tx } := by
  obtain ⟨hsent, hopen, -⟩ := Sender.send_eq_some hs
  refine { h with
    sent := by rw [hsent, h.sent, List.append_assoc]
    storing := by rw [hst]; exact h.storing
    buffered := .inr ?_
    defined := fun hlen => (h.defined hlen).other he }
  rw [updates, flushes_other he]
  exact h.buffered.resolve_left hopen

/-- A memtable takes the record that is stored. -/
theorem append (h : Travels fp t₀ streams events made stage t) {r : Record}
    (hr : r ∈ stage.pending) (happ : (t.memtable.append r).1.wasAppended = true) {stage' : Stage}
    (hst : stage'.unlogged ++ stage'.pending = []) :
    Travels fp t₀ streams events made stage' { t with memtable := (t.memtable.append r).2 } := by
  refine { h with storing := by simp [hst], memtable := ?_ }
  intro q hq
  rcases append_cases t.memtable r with ⟨-, hfull⟩ | ⟨-, hset⟩
  · rw [hfull] at happ
    cases happ
  · simp only [hset] at hq
    rcases OrdSet.mem_insert hq with rfl | hq
    · exact .inr (h.storing q (List.mem_append_right _ hr))
    · exact h.memtable q hq

/-- The memtable is flushed with the updates in the buffer. -/
theorem flush (h : Travels fp t₀ streams events made stage t) {tx : Sender}
    (hs : t.ioTx.send (.flushMemtable (flushOf t)) = some tx) :
    Travels fp t₀ streams (events ++ [.flushMemtable (flushOf t)]) made stage.frozen
      { frozen t with ioTx := tx } := by
  obtain ⟨hsent, hopen, -⟩ := Sender.send_eq_some hs
  have hbuf := h.buffered.resolve_left hopen
  refine { h with
    sent := by rw [hsent, h.sent, List.append_assoc]
    storing := by rw [Stage.unlogged_frozen, Stage.pending_frozen]; exact h.storing
    memtable := fun r hr => by cases hr
    buffered := .inr ?_
    defined := fun hlen => (h.defined hlen).flush ?_ }
  · rw [updates_append, ← hbuf]
    simp [updates, flushes, flushOf, Tsdb.frozen]
  · intro r hr
    refine (h.memtable r hr).imp_right ?_
    rintro ⟨e, he⟩
    obtain ⟨lm, n, i, hd, hi, hid⟩ := h.records _ he
    refine ⟨e, lm, n, he, hd, ?_⟩
    rw [show updates events ++ (flushOf t).manifestEntries = _ from hbuf, hid]
    exact updatesFor_definitions hlen hi

/-- A record of a registered stream is made. -/
theorem number (h : Travels fp t₀ streams events made .idle t) {p : Entry × Record} {lm : LabelMap}
    {n : Nat} (hd : decodeLabelMap fp p.1.2.1 = .ok (some (lm, n)))
    (hid : t.streamReg.getStreamIdByLabelmap lm = some p.2.key.streamId) (next : UInt64) :
    Travels fp t₀ streams events (made ++ [p]) (.numbered p.2) { t with nextSeqNum := next } := by
  have hmono {e : Entry} {r : Record} (he : (e, r) ∈ made) : (e, r) ∈ made ++ [p] :=
    List.mem_append_left _ he
  exact {
    h.toRegistered.number hd hid next with
    sent := h.sent
    storing := by
      intro r hr
      rw [List.mem_singleton.mp hr]
      exact ⟨p.1, List.mem_append_right _ (List.mem_singleton_self p)⟩
    memtable := fun r hr => (h.memtable r hr).imp_right (Exists.imp fun _ => hmono)
    buffered := h.buffered
    defined := fun hlen => (h.defined hlen).imp fun pre q hq r hr =>
      (hq r hr).imp_right (Exists.imp fun e => Exists.imp fun lm => Exists.imp fun n =>
        And.imp_left hmono) }

/-- A stream is registered, and its update waits. -/
theorem register (h : Travels fp t₀ streams events made .idle t) {lm : LabelMap}
    (hnone : t.streamReg.getStreamIdByLabelmap lm = none) {update : ManifestEntry}
    (hu : ManifestEntry.streamUpdate? t.nextStreamId lm = some update) :
    Travels fp t₀ (streams ++ [lm]) events made .idle
      { registered t lm with streamBuffer := t.streamBuffer ++ [update] } := by
  refine { h.toRegistered.insert hnone with
    sent := h.sent
    storing := h.storing
    memtable := h.memtable
    buffered := h.buffered.imp_right fun hbuf => ?_
    defined := fun hlen => h.defined (by rw [List.length_append] at hlen; omega) }
  rw [definitions_concat, ← hbuf, ← h.next, (streamUpdate?_eq_some hu).1]
  exact (List.append_assoc _ _ _).symm

end Travels

theorem keeps_travels (fp : List Label → UInt64) (t₀ : LsmTree) :
    Keeps fp False fun made stage t => ∃ streams events, Travels fp t₀ streams events made stage t where
  register := by
    rintro made t lm update ⟨streams, events, h⟩ hnone hu
    exact ⟨_, _, h.register hnone hu⟩
  unfit := False.elim
  number := by
    rintro made t sourceId payload now lm n id ts ⟨streams, events, h⟩ - hd hid - -
    exact ⟨_, _, h.number hd hid _⟩
  wal := by
    rintro made r t tx ⟨streams, events, h⟩ hs
    exact ⟨_, _, h.send hs (by simp) rfl⟩
  unlogged := by
    rintro made r t ⟨streams, events, h⟩ -
    exact ⟨streams, events, { h with storing := by simp [Stage.unlogged, Stage.pending] }⟩
  put := by
    rintro made r t ⟨streams, events, h⟩ happ
    refine ⟨_, _, h.append (List.mem_singleton_self r) happ ?_⟩
    rw [Stage.unlogged_ofOutput, Stage.pending_ofOutput]
    rfl
  refuse := by
    rintro made r t ⟨streams, events, h⟩ -
    exact ⟨streams, events, { h with }⟩
  retry := by
    rintro made r t ⟨streams, events, h⟩ happ
    exact ⟨_, _, h.append (List.mem_singleton_self r) happ rfl⟩
  flush := by
    rintro made stage t tx ⟨streams, events, h⟩ hs
    exact ⟨_, _, h.flush hs⟩
  unsent := by
    rintro made stage t ⟨streams, events, h⟩ hs
    exact ⟨streams, events, { h with
      storing := by simp [Stage.unlogged, Stage.pending]
      memtable := fun r hr => by cases hr
      buffered := .inl (Sender.send_eq_none hs) }⟩
  fsync := by
    rintro made t tx ⟨streams, events, h⟩ hs
    exact ⟨_, _, h.send hs (by simp) rfl⟩

theorem travels_start (fp : List Label → UInt64) {opts : LsmTreeOptions} {t₀ : LsmTree}
    (h : Starts opts t₀) (hempty : opts.streamReg = .empty) :
    Travels fp t₀ [] [] [] .idle t₀ where
  toRegistered := registered_start fp (h.streams.trans hempty)
  sent := (List.append_nil _).symm
  storing := by simp [Stage.unlogged, Stage.pending]
  memtable := fun _ hr => .inl hr
  buffered := .inr h.buffer
  defined := fun _ => .nil

/-- Every flush of a run without panics, from an empty registry, defines the
streams of its records, as long as no more than `2 ^ 64` are registered. -/
theorem definitions_no_later (fp : List Label → UInt64) {opts : LsmTreeOptions} {t₀ : LsmTree}
    (hnew : LsmTree.new opts = some t₀) (hempty : opts.streamReg = .empty) (batches : List Batch)
    (hp : NoPanics fp batches t₀) (hfew : streamCount (run fp batches t₀) ≤ 2 ^ 64) :
    ∃ events, (run fp batches t₀).ioTx.sent = t₀.ioTx.sent ++ events ∧
      AtFlushes (Defines fp t₀.memtable.set.elems (made fp batches t₀)) events := by
  obtain ⟨streams, events, h⟩ := (keeps_travels fp t₀).run batches
    ⟨[], [], travels_start fp (new_eq_some hnew) hempty⟩ (.inr hp)
  exact ⟨events, h.sent, h.defined (h.count ▸ hfew)⟩

/-- Two streams, the second record in a second memtable. -/
theorem definitions_no_later_two :
    ∃ t₀, LsmTree.new (emptyOptions 60) = some t₀ ∧
      ∃ events, (run (fun _ => 0) [(7, [([1, 1, 97, 1, 98, 1], 0), ([0, 2, 3], 0)])] t₀).ioTx.sent =
          t₀.ioTx.sent ++ events ∧
        AtFlushes (Defines (fun _ => 0) t₀.memtable.set.elems
          (made (fun _ => 0) [(7, [([1, 1, 97, 1, 98, 1], 0), ([0, 2, 3], 0)])] t₀)) events :=
  ⟨_, rfl, definitions_no_later (fun _ => 0) (show new (emptyOptions 60) = some _ from rfl) rfl _
    ⟨by decide +kernel, trivial⟩ (by decide +kernel)⟩

/-! ## Records from before -/

/-- A record of a stream that is not registered. -/
def heldRecord : Record := ⟨⟨5, 0, 0, 7⟩, [1, 2]⟩

/-- A memtable that has it, and no streams. -/
def heldOptions : LsmTreeOptions :=
  { emptyOptions 60 with memtable := ((MemtableInner.withSizeLimit 0 60).append heldRecord).2 }

/-- A tree that starts with a record in its memtable flushes it with the next
one, and there is no definition of its stream. -/
theorem definitions_missing :
    heldOptions.streamReg = .empty ∧ ∃ t₀, LsmTree.new heldOptions = some t₀ ∧
      NoPanics (fun _ => 0) [(7, [([1, 1, 97, 1, 98, 1], 0)])] t₀ ∧ ∃ pre p post,
        (run (fun _ => 0) [(7, [([1, 1, 97, 1, 98, 1], 0)])] t₀).ioTx.sent =
          pre ++ .flushMemtable p :: post ∧
        heldRecord ∈ p.memtable.set.elems ∧
        updatesFor heldRecord.key.streamId (updates pre ++ p.manifestEntries) = [] := by
  refine ⟨rfl, _, rfl, ⟨by decide +kernel, trivial⟩, ?_⟩
  exact ⟨[.appendWal ⟨⟨1, 0, 0, 7⟩, [1]⟩], _, [.fsyncWal], rfl, by decide, by decide⟩

end LG.Proof.Tsdb
