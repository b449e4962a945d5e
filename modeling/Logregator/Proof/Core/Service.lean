import Logregator.Proof.Core.Connection
import Logregator.Proof.Core.Metrics
import Logregator.Proof.Core.Scan

/-!
# The service as its clients see it

What the loop of the backend does is a run of the system (`exec_steps`), so that
its log is that of the inserts handled. A command takes effect when the loop
handles it: then the backend's answer is what the store of all inserts gives
(`handle_serviceHolds`). So whatever clients see of any interleaving, that store
shows too, one call at a time (`service_linearizable`).
-/

namespace LG.Proof.Core

open LG.Impl.Core LG.Impl.Core.Service LG.Spec.Core
open LG.Impl.Core.Proto (ClientMessage ServerMessage CallResult)

variable {c : SSTableCode} {hp : RecordHeap} {cfg : BackendConfig} {s s' : Service c}

/-! ## The system below -/

/-- A step of the system that is no crash, with its inserts. -/
def SystemStep (hp : RecordHeap) (s : System c) (inserts : List Insert) (s' : System c) : Prop :=
  ∃ step, NoCrash step ∧ insertsOf step = inserts ∧ Step.exec hp s step = some s'

theorem runs_step {s s' : System c} (step : Step) (hs : NoCrash step)
    (h : step.exec hp s = some s') : Runs (SystemStep hp) s (insertsOf step) s' :=
  .single ⟨step, hs, rfl, h⟩

/-- What the steps of a system that holds the records of a log keep. -/
def Keeps (hp : RecordHeap) (K : List Insert → System c → Prop) : Prop :=
  ∀ {log inserts : List Insert} {s s' : System c}, Holds log s → K log s →
    SystemStep hp s inserts s' → K (log ++ inserts) s'

theorem runs_holds (hl : Stores c) {K : List Insert → System c → Prop} (hK : Keeps hp K)
    {log inserts : List Insert} {s s' : System c} (h : Runs (SystemStep hp) s inserts s')
    (hh : Holds log s ∧ K log s) : Holds (log ++ inserts) s' ∧ K (log ++ inserts) s' := by
  refine h.along (I := fun log s => Holds log s ∧ K log s) (fun hh hstep => ⟨?_, hK hh.1 hh.2 hstep⟩)
    hh
  obtain ⟨step, hs, rfl, hexec⟩ := hstep
  exact exec_holds hl hh.1 hs hexec

/-- What the backend answers to a command. -/
def Replies (cfg : BackendConfig) (hp : RecordHeap) (s : Service c) (batches : List (List Proto.Record))
    (reply : Reply) : ClientMessage → Prop
  | .insert _ => batches = [] ∧ reply = .done
  | .batchInsert _ => batches = [] ∧ reply = .done
  | .range r => handleRange hp cfg.rangeBatchSize s.sys r = some (batches, reply)
  | .metrics => batches = [] ∧ reply = .json (cfg.json s.metrics)
  | .ping => False

/-- A command inserts, and is answered. -/
theorem handleCommand_inv {needsFlush needsFlush' : Bool} {p : Nat} {msg : ClientMessage}
    (h : s.handleCommand cfg hp needsFlush p msg = some (s', needsFlush')) :
    ∃ inserts sys metrics batches reply, (insertsIn msg).mapM engineInsert = some inserts ∧
      Runs (SystemStep hp) s.sys inserts sys ∧ Replies cfg hp s batches reply msg ∧
      s' = Service.answer { s with sys, metrics } p batches reply := by
  cases msg with
  | insert i =>
    obtain ⟨j, hj, h⟩ := Option.bind_eq_some_iff.mp h
    obtain ⟨⟨full, e⟩, he, h⟩ := Option.bind_eq_some_iff.mp h
    cases h
    refine ⟨[j], _, _, _, _, ?_, runs_step (.insert j) trivial ?_, ⟨rfl, rfl⟩, rfl⟩
    · rw [insertsIn, List.mapM_cons, hj]
      rfl
    · rw [Step.exec, he]
      rfl
  | batchInsert records =>
    obtain ⟨js, hjs, h⟩ := Option.bind_eq_some_iff.mp h
    obtain ⟨⟨full, e⟩, he, h⟩ := Option.bind_eq_some_iff.mp h
    cases h
    refine ⟨js, _, _, _, _, hjs, runs_step (.batchInsert js) trivial ?_, ⟨rfl, rfl⟩, rfl⟩
    rw [Step.exec, he]
    rfl
  | range r =>
    obtain ⟨⟨batches, reply⟩, hr, h⟩ := Option.bind_eq_some_iff.mp h
    cases h
    exact ⟨[], s.sys, s.metrics, batches, reply, rfl, .nil, hr, rfl⟩
  | metrics =>
    cases h
    exact ⟨[], s.sys, s.metrics, [], _, rfl, .nil, ⟨rfl, rfl⟩, rfl⟩
  | ping => cases h

/-- The loop's end of a turn. -/
theorem endTurn_inv (hp : RecordHeap) {rotates needsFlush : Bool}
    (h : s.endTurn rotates needsFlush = some s') :
    ∃ sys metrics, Runs (SystemStep hp) s.sys [] sys ∧
      s' = { s with sys, metrics, turn := none } := by
  obtain ⟨sys, hsys, rfl⟩ := Option.map_eq_some_iff.mp h
  refine ⟨sys, _, ?_, rfl⟩
  have hwrite : Runs (SystemStep hp) s.sys [] (s.sys.writeWal s.sys.engine.walBuffer.length) :=
    runs_step (.writeWal _) trivial rfl
  cases needsFlush with
  | true => exact hwrite.append (runs_step (.sendFlush rotates) trivial hsys)
  | false =>
    cases hsys
    exact hwrite

/-- The loop's turn with a result. -/
theorem takeResult_inv (hp : RecordHeap) (h : s.takeResult = some s') :
    ∃ sys metrics, Runs (SystemStep hp) s.sys [] sys ∧ s' = { s with sys, metrics } := by
  rw [takeResult] at h
  split at h
  · cases h
  obtain ⟨sys, hreceive, h⟩ := Option.bind_eq_some_iff.mp h
  obtain ⟨sys', hsend, h⟩ := Option.bind_eq_some_iff.mp h
  cases h
  exact ⟨sys', _, (runs_step .receive trivial hreceive).append
    (runs_step .sendCompaction trivial hsend), rfl⟩

/-! ## Moves -/

/-- The commands that the loop has not handled. -/
def commands (s : Service c) : List (Nat × ClientMessage) :=
  (match s.turn with
    | some turn => turn.cmds
    | none => []) ++ s.queue

/-- What a move does. -/
inductive ServiceEffect (cfg : BackendConfig) (hp : RecordHeap) (s s' : Service c) :
    List ServiceEvent → Prop
  | ran (hsys : Runs (SystemStep hp) s.sys [] s'.sys) (hconns : s'.conns = s.conns)
    (hcmds : commands s' = commands s) : ServiceEffect cfg hp s s' []
  | accepted {p : Nat} (hnew : s.conns p = none) (hsys : s'.sys = s.sys)
    (hconns : s'.conns = Function.update s.conns p (some .accepted))
    (hcmds : commands s' = commands s) : ServiceEffect cfg hp s s' []
  | moved {p : Nat} {conn conn' : Conn} {move : ConnMove} {m m' : ServerMetrics}
    {events : List ServiceEvent} (hconn : s.conns p = some conn)
    (hcall : ∀ msg, move = .call msg → Sendable msg)
    (hexec : conn.exec p m move = some (conn', m', events)) (hsys : s'.sys = s.sys)
    (hconns : s'.conns = Function.update s.conns p (some conn'))
    (hcmds : commands s' = commands s) : ServiceEffect cfg hp s s' events
  | sent {p : Nat} {conn : Conn} {msg : ClientMessage} (hconn : s.conns p = some conn)
    (hhandler : conn.handler = .sending msg) (hsys : s'.sys = s.sys)
    (hconns : s'.conns = Function.update s.conns p (some (conn.sent msg)))
    (hcmds : commands s' = commands s ++ [(p, msg)]) : ServiceEffect cfg hp s s' []
  | handled {p : Nat} {msg : ClientMessage} {inserts : List Insert}
    {batches : List (List Proto.Record)} {reply : Reply}
    (hinserts : (insertsIn msg).mapM engineInsert = some inserts)
    (hsys : Runs (SystemStep hp) s.sys inserts s'.sys) (hreply : Replies cfg hp s batches reply msg)
    (hconns : s'.conns = Function.update s.conns p
      ((s.conns p).map fun conn => { conn with batches, reply := some reply }))
    (hcmds : commands s = (p, msg) :: commands s') : ServiceEffect cfg hp s s' []

theorem exec_serviceEffect {move : ServiceMove} {events : List ServiceEvent}
    (hfit : CallsFit move) (h : move.exec cfg hp s = some (s', events)) :
    ServiceEffect cfg hp s s' events := by
  cases move with
  | accept p =>
    rw [ServiceMove.exec] at h
    split at h
    · cases h
    · cases h
      exact .accepted ‹_› rfl rfl rfl
  | conn p move =>
    obtain ⟨conn, hconn, h⟩ := Option.bind_eq_some_iff.mp h
    obtain ⟨⟨conn', m', events'⟩, hexec, h⟩ := Option.bind_eq_some_iff.mp h
    cases h
    refine .moved hconn (fun msg hmsg => ?_) hexec rfl rfl rfl
    subst hmsg
    exact hfit
  | enqueue p =>
    obtain ⟨conn, hconn, h⟩ := Option.bind_eq_some_iff.mp h
    split at h
    · cases h
      exact .sent hconn ‹_› rfl rfl (List.append_assoc _ _ _).symm
    · cases h
  | take n =>
    rw [ServiceMove.exec] at h
    split at h
    · cases h
    split at h
    · cases h
      refine .ran .nil rfl ?_
      show s.queue.take n ++ s.queue.drop n = commands s
      rw [List.take_append_drop, commands, ‹s.turn = none›]
      rfl
    · cases h
  | handle =>
    rw [ServiceMove.exec] at h
    split at h
    · rename_i p msg cmds needsFlush hturn
      obtain ⟨⟨s₁, needsFlush'⟩, hhandle, h⟩ := Option.bind_eq_some_iff.mp h
      cases h
      obtain ⟨inserts, sys, metrics, batches, reply, hinserts, hruns, hreply, rfl⟩ :=
        handleCommand_inv hhandle
      refine .handled hinserts hruns hreply rfl ?_
      rw [commands, hturn]
      rfl
    · cases h
  | endTurn rotates =>
    rw [ServiceMove.exec] at h
    split at h
    · rename_i needsFlush hturn
      obtain ⟨s₁, hend, h⟩ := Option.map_eq_some_iff.mp h
      cases h
      obtain ⟨sys, metrics, hruns, rfl⟩ := endTurn_inv hp hend
      refine .ran hruns rfl ?_
      rw [commands, commands, hturn]
    · cases h
  | takeResult =>
    rw [ServiceMove.exec] at h
    split at h
    · obtain ⟨s₁, htake, h⟩ := Option.map_eq_some_iff.mp h
      cases h
      obtain ⟨sys, metrics, hruns, rfl⟩ := takeResult_inv hp htake
      exact .ran hruns rfl rfl
    · cases h
  | dispatch =>
    obtain ⟨sys, hsys, h⟩ := Option.map_eq_some_iff.mp h
    cases h
    exact .ran (runs_step .dispatch trivial hsys) rfl rfl
  | finish i succeeds =>
    obtain ⟨sys, hsys, h⟩ := Option.map_eq_some_iff.mp h
    cases h
    exact .ran (runs_step (.finish i succeeds) trivial hsys) rfl rfl

/-! ## Clients -/

/-- The commands of a client. -/
def queuedOf (cmds : List (Nat × ClientMessage)) (p : Nat) : List ClientMessage :=
  (cmds.filter fun cmd => cmd.1 = p).map Prod.snd

@[simp] theorem queuedOf_cons_self (cmds : List (Nat × ClientMessage)) (p : Nat)
    (msg : ClientMessage) : queuedOf ((p, msg) :: cmds) p = msg :: queuedOf cmds p := by
  simp [queuedOf]

theorem queuedOf_cons_of_ne (cmds : List (Nat × ClientMessage)) {p q : Nat} (msg : ClientMessage)
    (h : q ≠ p) : queuedOf ((p, msg) :: cmds) q = queuedOf cmds q := by
  simp [queuedOf, h.symm]

theorem queuedOf_append (cmds cmds' : List (Nat × ClientMessage)) (p : Nat) :
    queuedOf (cmds ++ cmds') p = queuedOf cmds p ++ queuedOf cmds' p := by
  simp [queuedOf]

/-- A client, whether it has connected or not. -/
def ClientAt (queued : List ClientMessage) (st : Status) : Option Conn → Prop
  | none => queued = [] ∧ st = .idle
  | some conn => ConnHolds conn queued st

/-- The clients' store, with the calls on it. -/
abbrev Store := AtomicState (List Proto.Insert) Nat ClientMessage CallResult

/-- The service, and the store that its clients see. -/
structure ServiceHolds (K : List Insert → System c → Prop) (s : Service c) (a : Store) : Prop where
  log : ∃ log, a.obj.mapM engineInsert = some log ∧ Holds log s.sys ∧ K log s.sys
  short : ∀ i ∈ a.obj, 33 + i.key.len + i.value.len < 2 ^ 32
  clients : ∀ p, ClientAt (queuedOf (commands s) p) (a.status p) (s.conns p)

/-- What happens to a client leaves the others alone. -/
theorem clients_update {cmds cmds' : List (Nat × ClientMessage)} {status : Nat → Status}
    {conns : Nat → Option Conn} {p : Nat} {st : Status} {conn : Option Conn}
    (h : ∀ q, ClientAt (queuedOf cmds q) (status q) (conns q))
    (hp : ClientAt (queuedOf cmds' p) st conn)
    (hcmds : ∀ q, q ≠ p → queuedOf cmds' q = queuedOf cmds q) (q : Nat) :
    ClientAt (queuedOf cmds' q) (Function.update status p st q) (Function.update conns p conn q) := by
  by_cases hq : q = p
  · subst hq
    rw [Function.update_self, Function.update_self]
    exact hp
  · rw [Function.update_of_ne hq, Function.update_of_ne hq, hcmds q hq]
    exact h q

/-- The store follows what a client's call does on its connection. -/
theorem StatusStep.runs {a : Store} {p : Nat} {events : List ServiceEvent} {st' : Status}
    (h : StatusStep p (a.status p) events st') :
    Runs (AtomicStep StoreApply) a events ⟨a.obj, Function.update a.status p st'⟩ := by
  generalize hst : a.status p = st at h
  cases h with
  | quiet =>
    rw [← hst, Function.update_eq_self]
    exact .nil
  | call => exact .single (.call hst)
  | pinged => exact .single (.point hst .ping)
  | ret => exact .single (.ret hst)

/-! ## Answers -/

theorem length_rangeRecord (rec : Proto.Record) :
    (Proto.ServerCodec.body (.rangeRecord rec)).length = 33 + rec.key.len + rec.value.len := by
  simp only [Proto.ServerCodec.body, Proto.encodeRecord, List.length_cons, List.length_append,
    length_i64Bytes, length_u64Bytes, Proto.length_strBytes]
  omega

/-- The records that a message brings have short frames. -/
theorem short_of_sendable {msg : ClientMessage} (h : Sendable msg) :
    ∀ i ∈ insertsIn msg, 33 + i.key.len + i.value.len < 2 ^ 32 := by
  intro i hi
  rw [Sendable] at h
  cases msg with
  | insert j =>
    rw [insertsIn, List.mem_singleton] at hi
    subst hi
    rw [Proto.ClientCodec.body, List.length_cons, Proto.length_insertBytes] at h
    omega
  | batchInsert records =>
    obtain ⟨before, after, rfl⟩ := List.append_of_mem hi
    simp only [Proto.ClientCodec.body, List.length_cons, List.length_append, List.flatMap_append,
      List.flatMap_cons, Proto.length_insertBytes, length_beBytes] at h
    omega
  | range r => cases hi
  | metrics => cases hi
  | ping => cases hi

/-- The backend's answer to a command is what the store gives. -/
theorem replies_result (hl : Lawful c) (hjson : ∀ m, (cfg.json m).len + 5 < 2 ^ 32)
    {log : List Proto.Insert} {log' : List Insert} (hlog : log.mapM engineInsert = some log')
    (hh : Holds log' s.sys) (hshort : ∀ i ∈ log, 33 + i.key.len + i.value.len < 2 ^ 32)
    {batches : List (List Proto.Record)} {reply : Reply} {msg : ClientMessage}
    (h : Replies cfg hp s batches reply msg) :
    ∃ res, StoreApply log msg res (log ++ insertsIn msg) ∧ (IsPlain msg → batches = []) ∧
      (∀ m ∈ answerMessages msg batches reply, Short m) ∧
      returnsWith msg [] (answerMessages msg batches reply) = some res := by
  have hok : Short .insertOk := by
    show (Proto.ServerCodec.body .insertOk).length < 2 ^ 32
    decide
  cases msg with
  | insert i =>
    obtain ⟨rfl, rfl⟩ := h
    exact ⟨.done, .insert, fun _ => rfl, List.forall_mem_singleton.mpr hok, rfl⟩
  | batchInsert records =>
    obtain ⟨rfl, rfl⟩ := h
    exact ⟨.done, .batchInsert, fun _ => rfl, List.forall_mem_singleton.mpr hok, rfl⟩
  | range r =>
    rw [insertsIn, List.append_nil]
    rcases handleRange_answer hl hlog hh hp cfg.rangeBatchSize r with
      ⟨err, hanswer, hlen, heq⟩ | ⟨bs, hanswer, hasked, heq⟩
    · cases h.symm.trans heq
      refine ⟨_, .range hanswer, False.elim, List.forall_mem_singleton.mpr ?_, rfl⟩
      show (Proto.ServerCodec.body (.error err)).length < 2 ^ 32
      rw [Proto.ServerCodec.body, List.length_cons, Proto.length_strBytes]
      omega
    · cases h.symm.trans heq
      refine ⟨_, .range hanswer, False.elim, ?_, returnsWith_range r batches.flatten []⟩
      intro m hm
      rcases List.mem_append.mp hm with hm | hm
      · obtain ⟨rec, hrec, rfl⟩ := List.mem_map.mp hm
        obtain ⟨q, hq, rfl⟩ := List.mem_map.mp (hasked rec hrec)
        have hi := hshort q.1 (List.fst_mem_of_mem_zipIdx (List.mem_filter.mp hq).1)
        show (Proto.ServerCodec.body _).length < 2 ^ 32
        rw [length_rangeRecord]
        exact hi
      · rw [List.mem_singleton] at hm
        subst hm
        show (Proto.ServerCodec.body .rangeEnd).length < 2 ^ 32
        decide
  | metrics =>
    obtain ⟨rfl, rfl⟩ := h
    rw [insertsIn, List.append_nil]
    refine ⟨_, .metrics, fun _ => rfl, List.forall_mem_singleton.mpr ?_, rfl⟩
    show (Proto.ServerCodec.body (.metrics (cfg.json s.metrics))).length < 2 ^ 32
    have hm := hjson s.metrics
    rw [Proto.ServerCodec.body, List.length_cons, Proto.length_strBytes]
    omega
  | ping => exact h.elim

/-! ## Simulation -/

section

variable {K : List Insert → System c → Prop}

/-- The next command is the only one of its connection, and that of its client's
call. -/
theorem ServiceHolds.command {a : Store} (h : ServiceHolds K s a) {p : Nat} {msg : ClientMessage}
    {cmds : List (Nat × ClientMessage)} (hcmds : commands s = (p, msg) :: cmds) :
    ∃ conn, s.conns p = some conn ∧ ConnHolds conn [msg] (a.status p) ∧ queuedOf cmds p = [] ∧
      a.status p = .called msg ∧ Sendable msg ∧ msg ≠ .ping := by
  have hp := h.clients p
  rw [hcmds, queuedOf_cons_self] at hp
  cases hconn : s.conns p with
  | none =>
    rw [hconn] at hp
    cases hp.1
  | some conn =>
    rw [hconn] at hp
    have hholds : ConnHolds conn (msg :: queuedOf cmds p) (a.status p) := hp
    obtain ⟨toCome, hclient, hserver⟩ := hp
    obtain hq | ⟨call, hping, hq, hst⟩ := hserver.commands
    · cases hq
    obtain ⟨rfl, hnil⟩ := List.cons.inj hq
    rw [hnil] at hholds
    rw [hst] at hclient
    exact ⟨conn, rfl, hholds, hnil, hst, hclient.2.1, hping⟩

/-- The loop handles a command: its call takes effect. -/
theorem handle_serviceHolds (hl : Lawful c) (hK : Keeps hp K)
    (hjson : ∀ m, (cfg.json m).len + 5 < 2 ^ 32) {a : Store} (h : ServiceHolds K s a) {p : Nat}
    {msg : ClientMessage} {inserts : List Insert}
    {batches : List (List Proto.Record)} {reply : Reply}
    (hinserts : (insertsIn msg).mapM engineInsert = some inserts)
    (hsys : Runs (SystemStep hp) s.sys inserts s'.sys) (hreply : Replies cfg hp s batches reply msg)
    (hconns : s'.conns = Function.update s.conns p
      ((s.conns p).map fun conn => { conn with batches, reply := some reply }))
    (hcmds : commands s = (p, msg) :: commands s') :
    ∃ b, Runs (AtomicStep StoreApply) a [] b ∧ ServiceHolds K s' b := by
  obtain ⟨log, hlog, hh⟩ := h.log
  obtain ⟨res, happly, hplain, hshort, hres⟩ := replies_result hl hjson hlog hh.1 h.short hreply
  obtain ⟨conn, hconn, hholds, hrest, -, hsendable, -⟩ := h.command hcmds
  obtain ⟨hst, hanswered⟩ := answered_connHolds hholds hplain hshort hres
  refine ⟨_, .single (.point hst happly), ⟨log ++ inserts, ?_, runs_holds hl.toStores hK hsys hh⟩,
    ?_, ?_⟩
  · show (a.obj ++ insertsIn msg).mapM engineInsert = _
    rw [List.mapM_append, hlog, hinserts]
    rfl
  · intro i hi
    rcases List.mem_append.mp hi with hi | hi
    · exact h.short i hi
    · exact short_of_sendable hsendable i hi
  · rw [hconns, hconn]
    refine clients_update h.clients ?_ fun q hq => ?_
    · rw [hrest]
      exact hanswered
    · rw [hcmds, queuedOf_cons_of_ne _ msg hq]

/-- The store follows every move. -/
theorem effect_serviceHolds (hl : Lawful c) (hK : Keeps hp K)
    (hjson : ∀ m, (cfg.json m).len + 5 < 2 ^ 32) {a : Store} (h : ServiceHolds K s a)
    {events : List ServiceEvent} (heffect : ServiceEffect cfg hp s s' events) :
    ∃ b, Runs (AtomicStep StoreApply) a events b ∧ ServiceHolds K s' b := by
  cases heffect with
  | ran hsys hconns hcmds =>
    obtain ⟨log, hlog, hh⟩ := h.log
    have hh' := runs_holds hl.toStores hK hsys hh
    rw [List.append_nil] at hh'
    refine ⟨a, .nil, ⟨log, hlog, hh'⟩, h.short, ?_⟩
    rw [hconns, hcmds]
    exact h.clients
  | accepted hnew hsys hconns hcmds =>
    rename_i p
    obtain ⟨hq, hst⟩ : queuedOf (commands s) p = [] ∧ a.status p = .idle := by
      have hp := h.clients p
      rwa [hnew] at hp
    refine ⟨a, .nil, ?_, h.short, ?_⟩
    · rw [hsys]
      exact h.log
    · rw [hconns, hcmds, ← Function.update_eq_self p a.status]
      refine clients_update h.clients ?_ fun _ _ => rfl
      rw [hq, hst]
      exact connHolds_accepted
  | moved hconn hcall hexec hsys hconns hcmds =>
    rename_i p conn conn' move m m'
    have hp := h.clients p
    rw [hconn] at hp
    obtain ⟨st', hstep, hholds⟩ := exec_connHolds hp hcall hexec
    refine ⟨_, hstep.runs, ?_, h.short, ?_⟩
    · rw [hsys]
      exact h.log
    · rw [hconns, hcmds]
      exact clients_update h.clients hholds fun _ _ => rfl
  | sent hconn hhandler hsys hconns hcmds =>
    rename_i p conn msg
    have hp := h.clients p
    rw [hconn] at hp
    obtain ⟨hq, hholds⟩ := sent_connHolds hp hhandler
    refine ⟨a, .nil, ?_, h.short, ?_⟩
    · rw [hsys]
      exact h.log
    · rw [hconns, hcmds, ← Function.update_eq_self p a.status]
      refine clients_update h.clients ?_ fun q hne => ?_
      · rw [queuedOf_append, hq, queuedOf_cons_self]
        exact hholds
      · rw [queuedOf_append, queuedOf_cons_of_ne [] msg hne]
        exact List.append_nil _
  | handled hinserts hsys hreply hconns hcmds =>
    exact handle_serviceHolds hl hK hjson h hinserts hsys hreply hconns hcmds

/-- A move of the service in which calls can be sent. -/
def ServiceStep (cfg : BackendConfig) (hp : RecordHeap) (s : Service c)
    (events : List ServiceEvent) (s' : Service c) : Prop :=
  ∃ move, CallsFit move ∧ ServiceMove.exec cfg hp s move = some (s', events)

theorem runs_service : ∀ {moves : List ServiceMove} {s s' : Service c} {events : List ServiceEvent},
    (∀ move ∈ moves, CallsFit move) → ServiceMove.run cfg hp s moves = some (s', events) →
    Runs (ServiceStep cfg hp) s events s'
  | [], s, s', events, _, hrun => by
    cases hrun
    exact .nil
  | move :: moves, s, s', events, hfit, hrun => by
    obtain ⟨hmove, hfit⟩ := List.forall_mem_cons.mp hfit
    obtain ⟨⟨s₁, events₁⟩, hexec, hrun⟩ := Option.bind_eq_some_iff.mp hrun
    obtain ⟨⟨s₂, events₂⟩, hrest, hrun⟩ := Option.bind_eq_some_iff.mp hrun
    cases hrun
    exact .cons ⟨move, hmove, hexec⟩ (runs_service hfit hrest)

/-- The store follows every run. -/
theorem run_serviceHolds (hl : Lawful c) (hK : Keeps hp K)
    (hjson : ∀ m, (cfg.json m).len + 5 < 2 ^ 32) {a : Store} (h : ServiceHolds K s a)
    {moves : List ServiceMove} (hfit : ∀ move ∈ moves, CallsFit move) {events : List ServiceEvent}
    (hrun : ServiceMove.run cfg hp s moves = some (s', events)) :
    ∃ b, Runs (AtomicStep StoreApply) a events b ∧ ServiceHolds K s' b := by
  refine Runs.simulate (fun {s t events a} h hstep => ?_) (runs_service hfit hrun) h
  obtain ⟨move, hmove, hexec⟩ := hstep
  exact effect_serviceHolds hl hK hjson h (exec_serviceEffect hmove hexec)

/-- A service that starts over a system that holds the records of a log. -/
theorem serviceHolds_start {sys : System c} {obj : List Proto.Insert} {log : List Insert}
    (hlog : obj.mapM engineInsert = some log) (hh : Holds log sys) (hK : K log sys)
    (hshort : ∀ i ∈ obj, 33 + i.key.len + i.value.len < 2 ^ 32) :
    ServiceHolds K (Service.start sys) ⟨obj, fun _ => .idle⟩ where
  log := ⟨log, hlog, hh, hK⟩
  short := hshort
  clients _ := ⟨rfl, rfl⟩

end

/-- Whatever clients see of the service from an empty directory on, in any
interleaving of their connections, the loop and the worker, with rotations that
fail, tasks that fail as a whole, connections that are lost and handlers that
end, they could see of the store of all inserts, where each call takes effect at
one point between its call and its return. Every file that a task or a query
opens is there; a table that a compaction cannot open is another matter
(`Proof.Core.Compaction`). -/
theorem service_linearizable (hl : Lawful c) (hp : RecordHeap) (cfg : BackendConfig)
    (hjson : ∀ m, (cfg.json m).len + 5 < 2 ^ 32) (limit count : Nat) {moves : List ServiceMove}
    (hfit : ∀ move ∈ moves, CallsFit move) {s : Service c} {events : List ServiceEvent}
    (hrun : ServiceMove.run cfg hp
      (Service.start (System.start (freshEngine c limit) count .empty)) moves = some (s, events)) :
    Linearizable StoreApply [] events := by
  have hstart : ServiceHolds (fun _ _ => True)
      (Service.start (System.start (freshEngine c limit) count .empty)) ⟨[], fun _ => .idle⟩ :=
    serviceHolds_start rfl (holds_start (openDir_empty c limit)) trivial fun i hi => by cases hi
  obtain ⟨b, hb, -⟩ := run_serviceHolds hl (fun _ _ _ => trivial) hjson hstart hfit hrun
  exact ⟨b, hb⟩

/-- A range is answered between the call and the return of an insert, after its
effect, while the table of the insert is written. -/
def overlappingMoves (i : Proto.Insert) (r : Proto.Range) : List ServiceMove :=
  [.accept 0, .accept 1, .conn 0 (.call (.insert i)), .conn 1 (.call (.range r)),
    .conn 0 (.toServer 99), .conn 0 .read, .enqueue 0, .take 1, .handle, .endTurn true, .dispatch,
    .dispatch, .conn 1 (.toServer 99), .conn 1 .read, .enqueue 1, .take 1, .handle, .finish 0 true,
    .endTurn true, .conn 1 .batch, .conn 1 .endRange, .conn 1 (.toClient 99), .conn 1 .receive,
    .conn 1 .receive, .conn 0 .answer, .conn 0 (.toClient 99), .conn 0 .receive]

theorem service_linearizable_overlapping :
    let i : Proto.Insert := { sourceId := 1, ts := 5, key := .ofAscii "k", value := .ofAscii "v" }
    let r : Proto.Range :=
      { sourceId := 1, key := .ofAscii "k", startTs := 0, endTs := 9, filter := .ofAscii "" }
    Linearizable StoreApply [] [.call 0 (.insert i), .call 1 (.range r),
      .ret 1 (.records [protoRecord (i, 1)]), .ret 0 .done] := by
  intro i r
  let cfg : BackendConfig :=
    { commandBatchSize := 64, rangeBatchSize := 64, json := Metrics.json }
  obtain ⟨⟨s, events⟩, hs, hevents⟩ := Option.map_eq_some_iff.mp
    (show (ServiceMove.run cfg (MinHeap.sortedList _ _)
        (Service.start (System.start (freshEngine plainCode 0) 4 .empty))
        (overlappingMoves i r)).map Prod.snd =
      some [.call 0 (.insert i), .call 1 (.range r), .ret 1 (.records [protoRecord (i, 1)]),
        .ret 0 .done] by decide +kernel)
  rw [← hevents]
  refine service_linearizable lawful_plainCode _ cfg json_fits 0 4 ?_ hs
  simp only [overlappingMoves, List.forall_mem_cons, CallsFit, true_and]
  exact ⟨by decide, by decide, List.forall_mem_nil _⟩

end LG.Proof.Core
