import Logregator.Proof.Core.Restart
import Logregator.Proof.Core.Service
import Logregator.Proof.Core.Torn

/-!
# The service after a crash

The loop flushes the WAL's buffer at the end of each turn, after the turn's
inserts were answered. So a crash loses the last inserts, those that the buffer
has, and between turns it loses none. But if it comes while the active file ends
behind a length, it loses every insert since that file was begun
(`crash_keeps_store`).
-/

namespace LG.Proof.Core

open LG.Impl.Core LG.Impl.Core.Service LG.Spec.Core

variable {c : SSTableCode} {hp : RecordHeap} {cfg : BackendConfig} {s s' : Service c}

/-! ## Between turns -/

theorem receive_walBuffer {s s' : System c} (h : s.receive = some s') :
    s'.engine.walBuffer = s.engine.walBuffer := by
  rcases receive_inv h with ⟨_, _, _, _, _, rfl, -⟩ | ⟨_, _, _, rfl, -⟩
  · rfl
  · rfl

theorem sendCompaction_walBuffer {s s' : System c} (h : s.sendCompactionCmd = some s') :
    s'.engine.walBuffer = s.engine.walBuffer := by
  rcases sendCompaction_inv h with rfl | ⟨n, -, rfl⟩
  · rfl
  · rfl

theorem sendFlush_walBuffer {s s' : System c} {rotates : Bool}
    (h : s.sendFlushCmd rotates = some s') (hnil : s.engine.walBuffer = []) :
    s'.engine.walBuffer = [] := by
  rcases sendFlush_cases h with ⟨-, rfl⟩ | ⟨-, -, rfl⟩
  · exact hnil
  · cases rotates with
    | true => rfl
    | false => exact hnil

/-- Between turns the WAL's buffer is empty. -/
def BufferWritten (s : Service c) : Prop := s.turn = none → s.sys.engine.walBuffer = []

theorem exec_bufferWritten {move : ServiceMove} {events : List ServiceEvent}
    (h : BufferWritten s) (hexec : move.exec cfg hp s = some (s', events)) : BufferWritten s' := by
  cases move with
  | accept p =>
    rw [ServiceMove.exec] at hexec
    split at hexec
    · cases hexec
    · cases hexec
      exact h
  | conn p move =>
    obtain ⟨conn, -, hexec⟩ := Option.bind_eq_some_iff.mp hexec
    obtain ⟨⟨conn', m', events'⟩, -, hexec⟩ := Option.bind_eq_some_iff.mp hexec
    cases hexec
    exact h
  | enqueue p =>
    obtain ⟨conn, -, hexec⟩ := Option.bind_eq_some_iff.mp hexec
    split at hexec
    · cases hexec
      exact h
    · cases hexec
  | take n =>
    rw [ServiceMove.exec] at hexec
    split at hexec
    · cases hexec
    split at hexec
    · cases hexec
      exact fun hturn => by cases hturn
    · cases hexec
  | handle =>
    rw [ServiceMove.exec] at hexec
    split at hexec
    · obtain ⟨⟨s₁, needsFlush'⟩, -, hexec⟩ := Option.bind_eq_some_iff.mp hexec
      cases hexec
      exact fun hturn => by cases hturn
    · cases hexec
  | endTurn rotates =>
    rw [ServiceMove.exec] at hexec
    split at hexec
    · rename_i needsFlush hturn
      obtain ⟨s₁, hend, hexec⟩ := Option.map_eq_some_iff.mp hexec
      cases hexec
      obtain ⟨sys, hsys, rfl⟩ := Option.map_eq_some_iff.mp hend
      have hwritten : (s.sys.writeWal s.sys.engine.walBuffer.length).engine.walBuffer = [] :=
        List.drop_length
      intro _
      cases needsFlush with
      | true => exact sendFlush_walBuffer hsys hwritten
      | false =>
        cases hsys
        exact hwritten
    · cases hexec
  | takeResult =>
    rw [ServiceMove.exec] at hexec
    split at hexec
    · rename_i hturn
      obtain ⟨s₁, htake, hexec⟩ := Option.map_eq_some_iff.mp hexec
      cases hexec
      rw [takeResult] at htake
      split at htake
      · cases htake
      obtain ⟨sys, hreceive, htake⟩ := Option.bind_eq_some_iff.mp htake
      obtain ⟨sys', hsend, htake⟩ := Option.bind_eq_some_iff.mp htake
      cases htake
      exact fun _ => (sendCompaction_walBuffer hsend).trans
        ((receive_walBuffer hreceive).trans (h hturn))
    · cases hexec
  | dispatch =>
    obtain ⟨sys, hsys, hexec⟩ := Option.map_eq_some_iff.mp hexec
    cases hexec
    rcases dispatch_inv hsys with ⟨_, rfl, -⟩ | ⟨_, _, rfl, -⟩
    · exact h
    · exact h
  | finish i succeeds =>
    obtain ⟨sys, hsys, hexec⟩ := Option.map_eq_some_iff.mp hexec
    cases hexec
    cases succeeds with
    | true =>
      obtain ⟨_, _, _, _, _, -, ⟨_, rfl⟩, -⟩ := finish_inv hsys
      exact h
    | false =>
      obtain ⟨_, _, -, rfl, -⟩ := finish_fails_inv hsys
      exact h

theorem run_bufferWritten : ∀ {moves : List ServiceMove} {s s' : Service c}
    {events : List ServiceEvent}, BufferWritten s →
    ServiceMove.run cfg hp s moves = some (s', events) → BufferWritten s'
  | [], s, s', events, h, hrun => by
    cases hrun
    exact h
  | move :: moves, s, s', events, h, hrun => by
    obtain ⟨⟨s₁, events₁⟩, hexec, hrun⟩ := Option.bind_eq_some_iff.mp hrun
    obtain ⟨⟨s₂, events₂⟩, hrest, hrun⟩ := Option.bind_eq_some_iff.mp hrun
    cases hrun
    exact run_bufferWritten (exec_bufferWritten h hexec) hrest

/-! ## Crashes -/

/-- What a crash relies on: the WAL files are safe, and the directory has what
the WAL's writer has not, with or without the active file. -/
structure Recovers (log : List Insert) (s : System c) : Prop where
  safe : WalSafe log s
  written : ∃ stored, Written log stored s
  torn : ∃ stored, Written log stored (unwritten s)

theorem keeps_recovers (hl : Stores c) (hp : RecordHeap) :
    Keeps hp (Recovers : List Insert → System c → Prop) := by
  rintro log inserts s s' hh ⟨hw, ⟨stored, hwritten⟩, torn, htorn⟩ ⟨step, hs, rfl, hexec⟩
  have hh' := exec_holds hl hh hs hexec
  have heffect := exec_effect hs hexec
  refine ⟨exec_walSafe hl hw hh hs hexec, heffect.written hl hwritten hh hh' hw, ?_⟩
  obtain ⟨step', hinserts, heffect'⟩ := heffect.unwritten
  rw [← hinserts] at hh' ⊢
  exact heffect'.written hl htorn hh.unwritten hh'.unwritten hw.unwritten

theorem mapM_take {α β : Type} {f : α → Option β} : ∀ {l : List α} {l' : List β} (n : Nat),
    l.mapM f = some l' → l.length = l'.length ∧ (l.take n).mapM f = some (l'.take n)
  | [], l', n, h => by
    cases h
    simp
  | a :: l, l', n, h => by
    rw [List.mapM_cons] at h
    obtain ⟨b, hb, h⟩ := Option.bind_eq_some_iff.mp h
    obtain ⟨bs, hbs, h⟩ := Option.bind_eq_some_iff.mp h
    cases h
    cases n with
    | zero => exact ⟨congrArg (· + 1) (mapM_take 0 hbs).1, rfl⟩
    | succ n =>
      obtain ⟨hlen, htake⟩ := mapM_take n hbs
      refine ⟨congrArg (· + 1) hlen, ?_⟩
      rw [List.take_succ_cons, List.mapM_cons, hb, htake]
      rfl

/-- A system that starts again over what a log's writer has stored serves the
inserts stored. -/
theorem restart_linearizable (hl : Lawful c) (hr : Reopens c) (hp : RecordHeap)
    (hjson : ∀ m, (cfg.json m).len + 5 < 2 ^ 32) {obj : List Proto.Insert} {log : List Insert}
    {stored : List Record} {sys : System c} (hlog : obj.mapM engineInsert = some log)
    (hshort : ∀ i ∈ obj, 33 + i.key.len + i.value.len < 2 ^ 32) (hwritten : Written log stored sys)
    (hh : Holds log sys) (hw : WalSafe log sys) (hids : sys.engine.sstCounter + 1 < 2 ^ 64)
    (limit : Nat) : ∃ sys', sys.restart limit = some sys' ∧
      ∀ moves s' events, (∀ move ∈ moves, CallsFit move) →
        ServiceMove.run cfg hp (Service.start sys') moves = some (s', events) →
        Linearizable StoreApply (obj.take (obj.length - sys.engine.walBuffer.length)) events := by
  obtain ⟨sys', hrestart, hh'⟩ := hwritten.restart hl.toStores hr hh hw hids limit
  refine ⟨sys', hrestart, fun moves s' events hfit hrun => ?_⟩
  obtain ⟨hlen, htake⟩ := mapM_take stored.length hlog
  have hstored : obj.length - sys.engine.walBuffer.length = stored.length := by
    have := hwritten.length_eq
    omega
  rw [hstored]
  have hstart : ServiceHolds (fun _ _ => True) (Service.start sys')
      ⟨obj.take stored.length, fun _ => .idle⟩ :=
    serviceHolds_start htake hh' trivial fun i hi => hshort i (List.mem_of_mem_take hi)
  obtain ⟨b, hb, -⟩ := run_serviceHolds hl (fun _ _ _ => trivial) hjson hstart hfit hrun
  exact ⟨b, hb⟩

/-- What is recovered from the active file: the records that it has, but none if
it ends behind a length. -/
theorem recoveredActive_eq {sys : System c} {log : List Insert} {stored : List Record}
    (hwritten : Written log stored sys) (calls : Nat) :
    ∃ n next, Wal.fileAfter sys.disk.active sys.engine.walBuffer calls =
        fileBytes (sys.disk.active ++ sys.engine.walBuffer.take n) next ∧
      recoveredActive sys calls =
        some (recoverable (sys.disk.active ++ sys.engine.walBuffer.take n) next) := by
  obtain ⟨n, next, hfile, hnext⟩ := fileAfter_ends sys.disk.active sys.engine.walBuffer calls
  refine ⟨n, next, hfile, ?_⟩
  have hlogged {r : Record} (hr : r ∈ sys.disk.active ++ sys.engine.walBuffer) :
      0 < r.len ∧ r.len ≤ longestRecord := by
    have hmem : r ∈ numbered 1 log := by
      rw [hwritten.buffer]
      rcases List.mem_append.mp hr with hr | hr
      · exact List.mem_append_left _ (hwritten.wals r (.inl hr))
      · exact List.mem_append_right _ hr
    obtain ⟨seq, i, rfl⟩ := logged_numbered hmem
    refine ⟨?_, Logged.short ⟨seq, i, rfl⟩⟩
    rw [Record.len, Engine.recordOf, length_parts]
    omega
  have hshort : ∀ r ∈ sys.disk.active ++ sys.engine.walBuffer.take n, r.len < 2 ^ 64 := by
    intro r hr
    refine lt_of_le_of_lt (hlogged ?_).2 longestRecord_lt
    rcases List.mem_append.mp hr with hr | hr
    · exact List.mem_append_left _ hr
    · exact List.mem_append_right _ (List.mem_of_mem_take hr)
  rw [recoveredActive, hfile]
  cases next with
  | none =>
    rw [fileBytes, recoverFile_bytes hshort]
    rfl
  | some r =>
    obtain ⟨hpos, hle⟩ := hlogged (List.mem_append_right _ (List.mem_of_getElem? (hnext r rfl)))
    rw [fileBytes, recoverFile_torn hshort hpos (hle.trans longestRecord_le)]
    rfl

/-- Durability over one crash of a run from an empty directory, where tables open
again as they were written: the service starts again, over the store without the
last inserts: those that the WAL's buffer had, or, if the active file ends behind
a length, those since it was begun. Between turns the buffer is empty. A second
crash is another matter, as what is torn stays in the file. -/
theorem crash_keeps_store (hl : Lawful c) (hr : Reopens c) (hp : RecordHeap) (cfg : BackendConfig)
    (hjson : ∀ m, (cfg.json m).len + 5 < 2 ^ 32) (limit count : Nat) {moves : List ServiceMove}
    (hfit : ∀ move ∈ moves, CallsFit move) {s : Service c} {events : List ServiceEvent}
    (hrun : ServiceMove.run cfg hp
      (Service.start (System.start (freshEngine c limit) count .empty)) moves = some (s, events))
    (hids : s.sys.engine.sstCounter + 1 < 2 ^ 64) (limit' calls : Nat) :
    ∃ (a : Store) (n : Nat) (next : Option Record) (s' : Service c),
      Runs (AtomicStep StoreApply) ⟨[], fun _ => .idle⟩ events a ∧
      (s.turn = none → s.sys.engine.walBuffer = []) ∧
      Wal.fileAfter s.sys.disk.active s.sys.engine.walBuffer calls =
        fileBytes (s.sys.disk.active ++ s.sys.engine.walBuffer.take n) next ∧
      s.restart limit' calls = some s' ∧
      ∀ moves' s'' events', (∀ move ∈ moves', CallsFit move) →
        ServiceMove.run cfg hp s' moves' = some (s'', events') →
        Linearizable StoreApply (a.obj.take (a.obj.length - lostAt s.sys n next)) events' := by
  have hstart : ServiceHolds Recovers
      (Service.start (System.start (freshEngine c limit) count .empty)) ⟨[], fun _ => .idle⟩ :=
    serviceHolds_start rfl (holds_start (openDir_empty c limit))
      ⟨walSafe_start (openDir_empty c limit), ⟨[], written_start c limit count⟩,
        [], written_start c limit count⟩ fun i hi => by cases hi
  obtain ⟨a, ha, hholds⟩ :=
    run_serviceHolds hl (keeps_recovers hl.toStores hp) hjson hstart hfit hrun
  obtain ⟨log, hlog, hh, hw, ⟨stored, hwritten⟩, torn, htorn⟩ := hholds.log
  obtain ⟨n, next, hfile, hactive⟩ := recoveredActive_eq hwritten calls
  have hafter : ∃ s', s.restart limit' calls = some s' ∧
      ∀ moves' s'' events', (∀ move ∈ moves', CallsFit move) →
        ServiceMove.run cfg hp s' moves' = some (s'', events') →
        Linearizable StoreApply (a.obj.take (a.obj.length - lostAt s.sys n next)) events' := by
    rw [Service.restart, hactive]
    cases next with
    | none =>
      obtain ⟨sys, hrestart, hserves⟩ := restart_linearizable hl hr hp hjson hlog hholds.short
        (hwritten.wroteWal n) ⟨hh.tiers.wal _, hh.seq, hh.seq_lt⟩ (hw.wroteWal n) hids limit'
      exact ⟨Service.start sys, congrArg (Option.map Service.start) hrestart, hserves⟩
    | some r =>
      obtain ⟨sys, hrestart, hserves⟩ := restart_linearizable hl hr hp hjson hlog hholds.short
        htorn hh.unwritten hw.unwritten hids limit'
      exact ⟨Service.start sys, congrArg (Option.map Service.start) hrestart, hserves⟩
  obtain ⟨s', hrestart, hserves⟩ := hafter
  exact ⟨a, n, next, s', ha, run_bufferWritten (fun _ => rfl) hrun, hfile, hrestart, hserves⟩

/-- Two inserts: the first is flushed to a table, and the second is answered in a
turn that does not end. -/
def unendedTurn (i j : Proto.Insert) : List ServiceMove :=
  [.accept 0, .conn 0 (.call (.insert i)), .conn 0 (.toServer 99), .conn 0 .read, .enqueue 0,
    .take 1, .handle, .endTurn true, .dispatch, .dispatch, .finish 0 true, .conn 0 .answer,
    .conn 0 (.toClient 99), .conn 0 .receive, .conn 0 (.call (.insert j)), .conn 0 (.toServer 99),
    .conn 0 .read, .enqueue 0, .take 1, .handle, .conn 0 .answer, .conn 0 (.toClient 99),
    .conn 0 .receive]

/-- A range of a client that connects. -/
def oneRange (r : Proto.Range) : List ServiceMove :=
  [.accept 0, .conn 0 (.call (.range r)), .conn 0 (.toServer 99), .conn 0 .read, .enqueue 0, .take 1,
    .handle, .conn 0 .batch, .conn 0 .endRange, .conn 0 (.toClient 99), .conn 0 .receive,
    .conn 0 .receive]

/-- The second insert is lost, though its client was told that it was done; the
first is read from the table, whose file ends in a footer. -/
theorem crash_keeps_store_unended :
    let cfg : BackendConfig :=
      { commandBatchSize := 64, rangeBatchSize := 64, json := Metrics.json }
    let hp : RecordHeap := MinHeap.sortedList _ _
    let i : Proto.Insert := { sourceId := 1, ts := 5, key := .ofAscii "k", value := .ofAscii "v" }
    let j : Proto.Insert := { sourceId := 1, ts := 6, key := .ofAscii "k", value := .ofAscii "w" }
    let r : Proto.Range :=
      { sourceId := 1, key := .ofAscii "k", startTs := 0, endTs := 9, filter := .ofAscii "" }
    ∃ (s s' : Service footedCode) (events : List ServiceEvent) (a : Store) (lost : Nat),
      ServiceMove.run cfg hp (Service.start (System.start (freshEngine footedCode 0) 4 .empty))
        (unendedTurn i j) = some (s, events) ∧
      s.sys.disk.ssts.elems.length = 1 ∧ s.restart 0 2 = some s' ∧
      events = [.call 0 (.insert i), .ret 0 .done, .call 0 (.insert j), .ret 0 .done] ∧
      Runs (AtomicStep StoreApply) ⟨[], fun _ => .idle⟩ events a ∧
      Linearizable StoreApply (a.obj.take (a.obj.length - lost))
        [.call 0 (.range r), .ret 0 (.records [protoRecord (i, 1)])] := by
  intro cfg hp i j r
  obtain ⟨⟨s, events⟩, hrun, h⟩ := Option.bind_eq_some_iff.mp
    (show (ServiceMove.run cfg hp (Service.start (System.start (freshEngine footedCode 0) 4 .empty))
        (unendedTurn i j)).bind (fun p => (p.1.restart 0 2).bind fun s =>
          (ServiceMove.run cfg hp s (oneRange r)).map fun q =>
            (p.2, p.1.sys.disk.ssts.elems.length, p.1.sys.engine.sstCounter, q.2)) =
      some ([.call 0 (.insert i), .ret 0 .done, .call 0 (.insert j), .ret 0 .done], 1, 2,
        [.call 0 (.range r), .ret 0 (.records [protoRecord (i, 1)])]) by decide +kernel)
  obtain ⟨s', hrestart, h⟩ := Option.bind_eq_some_iff.mp h
  obtain ⟨⟨s'', events'⟩, hrun', h⟩ := Option.map_eq_some_iff.mp h
  obtain ⟨hevents, h⟩ := Prod.mk.inj h
  obtain ⟨htables, h⟩ := Prod.mk.inj h
  obtain ⟨hcounter, hevents'⟩ := Prod.mk.inj h
  obtain rfl : events' = _ := hevents'
  have hfit : ∀ move ∈ unendedTurn i j, CallsFit move := by
    simp only [unendedTurn, List.forall_mem_cons, CallsFit, true_and]
    exact ⟨by decide, by decide, List.forall_mem_nil _⟩
  have hfit' : ∀ move ∈ oneRange r, CallsFit move := by
    simp only [oneRange, List.forall_mem_cons, CallsFit, true_and]
    exact ⟨by decide, List.forall_mem_nil _⟩
  have hids : s.sys.engine.sstCounter + 1 < 2 ^ 64 := by
    rw [hcounter]
    decide
  obtain ⟨a, n, next, s₁, hruns, -, -, hrestart₁, hafter⟩ :=
    crash_keeps_store lawful_footedCode reopens_footedCode hp cfg json_fits 0 4 hfit hrun hids 0 2
  obtain rfl : s' = s₁ := Option.some.inj (hrestart.symm.trans hrestart₁)
  have hstore := hafter (oneRange r) s'' _ hfit' hrun'
  exact ⟨s, s', events, a, _, hrun, htables, hrestart, hevents, hruns, hstore⟩

end LG.Proof.Core
