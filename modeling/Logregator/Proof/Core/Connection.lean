import Logregator.Proof.Core.Proto
import Logregator.Spec.Core.Store

/-!
# One connection

A client has one call at a time. While the call has no effect yet, its message
is on its way to the handler, with it, or among the commands; nothing is on its
way to the client. From its effect on, the bytes on their way to the client, and
those that the handler still has to write (`toCome`), are the frames of messages
with which the call returns its result. `ConnHolds` says this of a connection,
the commands that are `queued` for it, and the status of its client's call; what
happens on the connection keeps it (`exec_connHolds`).
-/

namespace LG.Proof.Core

open LG.Impl.Core LG.Impl.Core.Proto LG.Spec.Core LG.Spec.Core.Proto

/-! ## Frames -/

def clientFrame (msg : ClientMessage) : List UInt8 :=
  beBytes 4 (ClientCodec.body msg).length ++ ClientCodec.body msg

def serverFrame (msg : ServerMessage) : List UInt8 :=
  beBytes 4 (ServerCodec.body msg).length ++ ServerCodec.body msg

/-- The message's length has four bytes. -/
def Short (msg : ServerMessage) : Prop := (ServerCodec.body msg).length < 2 ^ 32

theorem delimits_client : Delimits ServerCodec.decode clientFrame
    fun msg => (ClientCodec.body msg).length < 2 ^ 32 :=
  Proto.delimits_frames Proto.decode_clientBody

theorem delimits_server : Delimits ClientCodec.decode serverFrame Short :=
  Proto.delimits_frames Proto.decode_serverBody

theorem encode_client (dst : List UInt8) (msg : ClientMessage) :
    ClientCodec.encode dst msg = dst ++ clientFrame msg :=
  Proto.encodeFrame_eq dst _

theorem encode_server (dst : List UInt8) (msg : ServerMessage) :
    ServerCodec.encode dst msg = dst ++ serverFrame msg :=
  Proto.encodeFrame_eq dst _

theorem serverFrame_ne_nil (msg : ServerMessage) : serverFrame msg ≠ [] := by
  intro h
  have hlen := congrArg List.length h
  rw [serverFrame, List.length_append, length_beBytes] at hlen
  exact absurd hlen (by simp)

/-- The frames of records. -/
def recordFrames (records : List Proto.Record) : List UInt8 :=
  (records.map ServerMessage.rangeRecord).flatMap serverFrame

theorem foldl_writeRecordFrame (records : List Proto.Record) (buf : List UInt8) :
    records.foldl writeRecordFrame buf = buf ++ recordFrames records := by
  have hwrite (dst : List UInt8) (rec : Proto.Record) : writeRecordFrame dst rec =
      Proto.encodeFrame dst ((fun rec => ServerCodec.body (.rangeRecord rec)) rec) :=
    Proto.writeRecordFrame_eq dst rec
  rw [Proto.foldl_frames hwrite, recordFrames, List.flatMap_map]
  rfl

/-! ## Connections -/

/-- The result with which a call returns, at the last of messages. -/
def returnsWith (call : ClientMessage) : List Proto.Record → List ServerMessage → Option CallResult
  | _, [] => none
  | v, msg :: msgs =>
    match Client.receive call v msg with
    | .more v => returnsWith call v msgs
    | .returns res => if msgs = [] then some res else none

abbrev Status := CallStatus ClientMessage CallResult

/-- What the client's end has to do with the status of its call. -/
def ClientHolds (conn : Conn) (toCome : List UInt8) : Status → Prop
  | .idle => conn.inbox ++ (conn.down ++ toCome) = [] ∧
    (conn.caller = .idle ∨ conn.caller = .gone)
  | .called call => conn.inbox ++ (conn.down ++ toCome) = [] ∧ Sendable call ∧
    (conn.caller = .calling call [] ∨ conn.caller = .gone)
  | .done res => conn.caller = .gone ∨ ∃ call v msgs, conn.caller = .calling call v ∧
    (∀ msg ∈ msgs, Short msg) ∧ conn.inbox ++ (conn.down ++ toCome) = msgs.flatMap serverFrame ∧
    returnsWith call v msgs = some res

/-- The bytes of a call that the handler has not read. -/
def requestBytes : Status → List UInt8
  | .called call => clientFrame call
  | _ => []

/-- The handler has nothing to write. -/
structure Quiet (conn : Conn) (toCome : List UInt8) : Prop where
  reply : conn.reply = none
  batches : conn.batches = []
  writeBuf : conn.writeBuf = []
  toCome : toCome = []

/-- What the handler will write. -/
structure Writing (ok : ServerMessage) (conn : Conn) (toCome : List UInt8) (r : Reply) :
    Prop where
  reply : conn.reply = some r
  toCome : toCome = conn.writeBuf ++
    (recordFrames conn.batches.flatten ++ serverFrame (Conn.replyMessage ok r))

/-- The command of a call is queued. -/
def Queued (queued : List ClientMessage) (st : Status) : Prop :=
  ∃ call, call ≠ .ping ∧ queued = [call] ∧ st = .called call

/-- A handler that has sent a command: the backend has not answered, or has. -/
def Sent (IsOp : ClientMessage → Prop) (ok : ServerMessage) (conn : Conn)
    (queued : List ClientMessage) (toCome : List UInt8) (st : Status) : Prop :=
  conn.readBuf ++ conn.up = [] ∧
    (Quiet conn toCome ∧ (∃ call, IsOp call ∧ queued = [call] ∧ st = .called call) ∨
      queued = [] ∧ (∃ reply, Writing ok conn toCome reply) ∧ ∃ res, st = .done res)

/-- The call is a range. -/
def IsRange : ClientMessage → Prop
  | .range _ => True
  | _ => False

/-- The call is one of those that the backend answers with a reply only. -/
def IsPlain : ClientMessage → Prop
  | .insert _ => True
  | .batchInsert _ => True
  | .metrics => True
  | _ => False

/-- What the handler and the commands have to do with the status of the client's
call. -/
def ServerHolds (conn : Conn) (queued : List ClientMessage) (toCome : List UInt8) (st : Status) :
    Handler → Prop
  | .reading => queued = [] ∧ Quiet conn toCome ∧ conn.readBuf ++ conn.up = requestBytes st
  | .sending msg => queued = [] ∧ Quiet conn toCome ∧ conn.readBuf ++ conn.up = [] ∧
    st = .called msg ∧ msg ≠ .ping
  | .waiting => conn.batches = [] ∧ conn.writeBuf = [] ∧
    Sent IsPlain .insertOk conn queued toCome st
  | .streaming => Sent IsRange .rangeEnd conn queued toCome st
  | .ended => queued = [] ∨ Queued queued st

/-- A connection, the commands of its calls, and the status of its client. -/
def ConnHolds (conn : Conn) (queued : List ClientMessage) (st : Status) : Prop :=
  ∃ toCome, ClientHolds conn toCome st ∧ ServerHolds conn queued toCome st conn.handler

theorem connHolds_accepted : ConnHolds .accepted [] .idle :=
  ⟨[], ⟨rfl, .inl rfl⟩, rfl, ⟨rfl, rfl, rfl, rfl⟩, rfl⟩

variable {conn conn' : Conn} {queued : List ClientMessage} {toCome toCome' : List UInt8}
  {st : Status} {p : Nat}

/-- Bytes that come nearer to the client. -/
theorem ClientHolds.moved (h : ClientHolds conn toCome st) (hcaller : conn'.caller = conn.caller)
    (hbytes : conn'.inbox ++ (conn'.down ++ toCome') = conn.inbox ++ (conn.down ++ toCome)) :
    ClientHolds conn' toCome' st := by
  cases st with
  | idle =>
    rw [ClientHolds, hbytes, hcaller]
    exact h
  | called call =>
    rw [ClientHolds, hbytes, hcaller]
    exact h
  | done res =>
    rw [ClientHolds, hbytes, hcaller]
    exact h

theorem ClientHolds.lost (h : ClientHolds conn toCome st) :
    ClientHolds { conn with caller := .gone } toCome st := by
  cases st with
  | idle => exact ⟨h.1, .inr rfl⟩
  | called call => exact ⟨h.1, h.2.1, .inr rfl⟩
  | done res => exact .inl rfl

/-- A handler whose command has no answer has a call without effect. -/
theorem Sent.commands {IsOp : ClientMessage → Prop} {ok : ServerMessage}
    (h : Sent IsOp ok conn queued toCome st) (hping : ¬ IsOp .ping) :
    queued = [] ∨ Queued queued st := by
  rcases h.2 with ⟨-, call, hcall, hq, hst⟩ | ⟨hq, -⟩
  · exact .inr ⟨call, fun h => hping (h ▸ hcall), hq, hst⟩
  · exact .inl hq

/-- Once the backend has answered, the call has its effect. -/
theorem Sent.answered {IsOp : ClientMessage → Prop} {ok : ServerMessage} {r : Reply}
    (h : Sent IsOp ok conn queued toCome st) (hreply : conn.reply = some r) :
    conn.readBuf ++ conn.up = [] ∧ queued = [] ∧ Writing ok conn toCome r ∧
      ∃ res, st = .done res := by
  obtain ⟨hup, ⟨hquiet, -⟩ | ⟨hq, ⟨r', hw⟩, hst⟩⟩ := h
  · rw [hquiet.reply] at hreply
    cases hreply
  · obtain rfl : r' = r := Option.some.inj (hw.reply.symm.trans hreply)
    exact ⟨hup, hq, hw, hst⟩

/-- Without a call, the handler has sent no command. -/
theorem Sent.not_idle {IsOp : ClientMessage → Prop} {ok : ServerMessage} :
    ¬ Sent IsOp ok conn queued toCome .idle := by
  rintro ⟨-, ⟨-, call, -, -, h⟩ | ⟨-, -, res, h⟩⟩
  · cases h
  · cases h

/-- A handler that ends: its command stays. -/
theorem ServerHolds.commands {handler : Handler} (h : ServerHolds conn queued toCome st handler) :
    queued = [] ∨ Queued queued st := by
  cases handler with
  | reading => exact .inl h.1
  | sending msg => exact .inl h.1
  | waiting => exact h.2.2.commands id
  | streaming => exact Sent.commands h id
  | ended => exact h

section

variable (caller : Caller) (inbox down : List UInt8)

theorem Quiet.of_client (h : Quiet conn toCome) : Quiet { conn with caller, inbox, down } toCome :=
  ⟨h.reply, h.batches, h.writeBuf, h.toCome⟩

theorem Sent.of_client {IsOp : ClientMessage → Prop} {ok : ServerMessage}
    (h : Sent IsOp ok conn queued toCome st) :
    Sent IsOp ok { conn with caller, inbox, down } queued toCome st := by
  obtain ⟨hup, ⟨hquiet, hcall⟩ | ⟨hq, ⟨r, hw⟩, hst⟩⟩ := h
  · exact ⟨hup, .inl ⟨hquiet.of_client caller inbox down, hcall⟩⟩
  · exact ⟨hup, .inr ⟨hq, ⟨r, hw.reply, hw.toCome⟩, hst⟩⟩

/-- The client's end is nothing to the handler. -/
theorem ServerHolds.of_client {handler : Handler} (h : ServerHolds conn queued toCome st handler) :
    ServerHolds { conn with caller, inbox, down } queued toCome st handler := by
  cases handler with
  | reading => exact ⟨h.1, h.2.1.of_client caller inbox down, h.2.2⟩
  | sending msg => exact ⟨h.1, h.2.1.of_client caller inbox down, h.2.2⟩
  | waiting => exact ⟨h.1, h.2.1, h.2.2.of_client caller inbox down⟩
  | streaming => exact Sent.of_client caller inbox down h
  | ended => exact h

end

/-! ## What happens on a connection -/

/-- What the client's call does while something happens on its connection. -/
inductive StatusStep (p : Nat) : Status → List ServiceEvent → Status → Prop
  | quiet {st : Status} : StatusStep p st [] st
  | call {msg : ClientMessage} : StatusStep p .idle [.call p msg] (.called msg)
  | pinged : StatusStep p (.called .ping) [] (.done .done)
  | ret {res : CallResult} : StatusStep p (.done res) [.ret p res] .idle

/-- A client without a call. -/
theorem ClientHolds.idle (h : ClientHolds conn toCome st) (hcaller : conn.caller = .idle) :
    st = .idle ∧ conn.inbox ++ (conn.down ++ toCome) = [] := by
  cases st with
  | idle => exact ⟨rfl, h.1⟩
  | called call =>
    rw [ClientHolds, hcaller] at h
    rcases h.2.2 with h | h
    · cases h
    · cases h
  | done res =>
    rw [ClientHolds, hcaller] at h
    rcases h with h | ⟨call, v, msgs, h, -⟩
    · cases h
    · cases h

/-- The client calls. -/
theorem call_connHolds {msg : ClientMessage} (h : ConnHolds conn queued st)
    (hcaller : conn.caller = .idle) (hs : Sendable msg) : ∃ st', StatusStep p st [.call p msg] st' ∧
      ConnHolds { conn with
        caller := .calling msg [], up := conn.up ++ ClientCodec.encode [] msg } queued st' := by
  obtain ⟨toCome, hclient, hserver⟩ := h
  obtain ⟨rfl, hnil⟩ := hclient.idle hcaller
  refine ⟨_, .call, toCome, ⟨hnil, hs, .inl rfl⟩, ?_⟩
  rw [encode_client, List.nil_append]
  show ServerHolds _ _ _ _ conn.handler
  cases hh : conn.handler with
  | reading =>
    rw [hh] at hserver
    obtain ⟨hq, hquiet, hbytes⟩ := hserver
    refine ⟨hq, ⟨hquiet.reply, hquiet.batches, hquiet.writeBuf, hquiet.toCome⟩, ?_⟩
    show conn.readBuf ++ (conn.up ++ clientFrame msg) = clientFrame msg
    rw [← List.append_assoc, hbytes]
    rfl
  | sending m =>
    rw [hh] at hserver
    cases hserver.2.2.2.1
  | waiting =>
    rw [hh] at hserver
    exact absurd hserver.2.2 Sent.not_idle
  | streaming =>
    rw [hh] at hserver
    exact absurd hserver Sent.not_idle
  | ended =>
    rw [hh] at hserver
    rcases hserver with h | ⟨call, -, -, h⟩
    · exact .inl h
    · cases h

/-- What the handler decodes is the client's call. -/
theorem decode_request {o : Outcome DecodeError (Option ClientMessage)} {rest : List UInt8}
    (hst : ∀ call, st = .called call → Sendable call)
    (hbytes : conn.readBuf ++ conn.up = requestBytes st)
    (hdecode : ServerCodec.decode conn.readBuf = (o, rest)) : o = .ok none ∨
      ∃ call, st = .called call ∧ o = .ok (some call) ∧ rest ++ conn.up = [] := by
  cases st with
  | called call =>
    have hfits : (ClientCodec.body call).length < 2 ^ 32 :=
      lt_of_le_of_lt (Nat.le_add_right _ 8) (hst call rfl)
    have heq : conn.readBuf ++ conn.up = [call].flatMap clientFrame :=
      hbytes.trans (List.flatMap_singleton _ _).symm
    rcases delimits_client.decode_front hfits heq with ⟨rest', hsome, hnil⟩ | hnone
    · rw [hsome] at hdecode
      cases hdecode
      exact .inr ⟨call, rfl, rfl, hnil⟩
    · rw [hnone] at hdecode
      cases hdecode
      exact .inl rfl
  | idle =>
    rw [(List.append_eq_nil_iff.mp hbytes).1, delimits_client.empty] at hdecode
    cases hdecode
    exact .inl rfl
  | done res =>
    rw [(List.append_eq_nil_iff.mp hbytes).1, delimits_client.empty] at hdecode
    cases hdecode
    exact .inl rfl

/-- The handler answers a ping. -/
theorem pong_connHolds {rest : List UInt8} (hclient : ClientHolds conn toCome (.called .ping))
    (hh : conn.handler = .reading) (hquiet : Quiet conn toCome) (hrest : rest ++ conn.up = []) :
    ConnHolds (Conn.send { conn with readBuf := rest } .pong) [] (.done .done) := by
  refine ⟨[], ?_, ?_⟩
  · obtain ⟨hnil, -, hcaller | hcaller⟩ := hclient
    · refine .inr ⟨.ping, [], [.pong], hcaller, ?_, ?_, rfl⟩
      · intro msg hmsg
        rw [List.mem_singleton] at hmsg
        subst hmsg
        show (ServerCodec.body .pong).length < 2 ^ 32
        decide
      · show conn.inbox ++ (conn.down ++ ServerCodec.encode conn.writeBuf .pong ++ []) = _
        rw [hquiet.toCome, List.append_nil, List.append_eq_nil_iff] at hnil
        rw [encode_server, hquiet.writeBuf, hnil.1, hnil.2]
        rfl
    · exact .inl hcaller
  · show ServerHolds _ _ _ _ conn.handler
    rw [hh]
    exact ⟨rfl, ⟨hquiet.reply, hquiet.batches, rfl, rfl⟩, hrest⟩

/-- The handler reads. -/
theorem read_connHolds {m m' : ServerMetrics} (h : ConnHolds conn queued st)
    (hh : conn.handler = .reading) (hread : conn.read m = some (conn', m')) :
    ∃ st', StatusStep p st [] st' ∧ ConnHolds conn' queued st' := by
  obtain ⟨toCome, hclient, hserver⟩ := h
  rw [hh] at hserver
  obtain ⟨rfl, hquiet, hbytes⟩ := hserver
  have hsendable (call : ClientMessage) (hst : st = .called call) : Sendable call := by
    subst hst
    exact hclient.2.1
  rw [Conn.read] at hread
  rcases hdecode : ServerCodec.decode conn.readBuf with ⟨o, rest⟩
  rw [hdecode] at hread
  rcases decode_request hsendable hbytes hdecode with rfl | ⟨call, rfl, rfl, hrest⟩
  · cases hread
  have hsending (hping : call ≠ .ping) :
      ConnHolds { conn with readBuf := rest, handler := .sending call } [] (.called call) :=
    ⟨toCome, hclient.moved rfl rfl, rfl,
      ⟨hquiet.reply, hquiet.batches, hquiet.writeBuf, hquiet.toCome⟩, hrest, rfl, hping⟩
  cases call with
  | ping =>
    cases hread
    exact ⟨_, .pinged, pong_connHolds hclient hh hquiet hrest⟩
  | insert i =>
    cases hread
    exact ⟨_, .quiet, hsending (by simp)⟩
  | range r =>
    cases hread
    exact ⟨_, .quiet, hsending (by simp)⟩
  | batchInsert records =>
    cases hread
    exact ⟨_, .quiet, hsending (by simp)⟩
  | metrics =>
    cases hread
    exact ⟨_, .quiet, hsending (by simp)⟩

/-- The handler writes the last message of an answer, after what it has in its
buffer. -/
theorem Writing.last {ok : ServerMessage} {r : Reply} (hw : Writing ok conn toCome r)
    (hbatches : conn.batches = []) :
    toCome = ServerCodec.encode conn.writeBuf (Conn.replyMessage ok r) := by
  rw [encode_server, hw.toCome, hbatches]
  rfl

/-- The handler writes a reply. -/
theorem answer_connHolds {r : Reply} (h : ConnHolds conn queued st) (hh : conn.handler = .waiting)
    (hreply : conn.reply = some r) :
    ConnHolds (Conn.send { conn with handler := .reading, reply := none }
      (Conn.replyMessage .insertOk r)) queued st := by
  obtain ⟨toCome, hclient, hserver⟩ := h
  rw [hh] at hserver
  obtain ⟨hbatches, -, hsent⟩ := hserver
  obtain ⟨hup, hq, hw, res, rfl⟩ := hsent.answered hreply
  refine ⟨[], hclient.moved rfl ?_, hq, ⟨rfl, hbatches, rfl, rfl⟩, hup⟩
  show conn.inbox ++ (conn.down ++ ServerCodec.encode conn.writeBuf _ ++ []) = _
  rw [List.append_nil, hw.last hbatches]

/-- The handler writes the end of a range. -/
theorem endRange_connHolds {r : Reply} (h : ConnHolds conn queued st)
    (hh : conn.handler = .streaming) (hbatches : conn.batches = [])
    (hreply : conn.reply = some r) :
    ConnHolds (Conn.send (Conn.flush { conn with handler := .reading, reply := none })
      (Conn.replyMessage .rangeEnd r)) queued st := by
  obtain ⟨toCome, hclient, hserver⟩ := h
  rw [hh] at hserver
  obtain ⟨hup, hq, hw, res, rfl⟩ := hserver.answered hreply
  refine ⟨[], hclient.moved rfl ?_, hq, ⟨rfl, hbatches, rfl, rfl⟩, hup⟩
  show conn.inbox ++ (conn.down ++ conn.writeBuf ++ ServerCodec.encode [] _ ++ []) = _
  rw [List.append_nil, hw.last hbatches, encode_server, encode_server, List.nil_append,
    List.append_assoc]

theorem recordFrames_append (as bs : List Proto.Record) :
    recordFrames (as ++ bs) = recordFrames as ++ recordFrames bs := by
  rw [recordFrames, List.map_append, List.flatMap_append]
  rfl

/-- The handler writes a batch. -/
theorem batch_connHolds {records : List Proto.Record} {batches : List (List Proto.Record)}
    (h : ConnHolds conn queued st) (hh : conn.handler = .streaming)
    (hbatches : conn.batches = records :: batches) :
    ConnHolds (Conn.writeBatch { conn with batches } records) queued st := by
  obtain ⟨toCome, hclient, hserver⟩ := h
  rw [hh] at hserver
  obtain ⟨hup, ⟨hquiet, -⟩ | ⟨hq, ⟨r, hw⟩, hst⟩⟩ := hserver
  · rw [hquiet.batches] at hbatches
    cases hbatches
  have htoCome : toCome = conn.writeBuf ++ recordFrames records ++ (recordFrames batches.flatten ++
      serverFrame (Conn.replyMessage .rangeEnd r)) := by
    rw [hw.toCome, hbatches, List.flatten_cons, recordFrames_append, List.append_assoc,
      List.append_assoc]
  -- What follows in the stream is the same, flushed or not.
  have hwritten {conn' : Conn} (hcaller : conn'.caller = conn.caller)
      (hinbox : conn'.inbox = conn.inbox) (hhandler : conn'.handler = .streaming)
      (hread : conn'.readBuf ++ conn'.up = []) (hreply : conn'.reply = some r)
      (hdown : conn'.down ++ (conn'.writeBuf ++ recordFrames conn'.batches.flatten) =
        conn.down ++ (conn.writeBuf ++ recordFrames records ++ recordFrames batches.flatten)) :
      ConnHolds conn' queued st := by
    refine ⟨conn'.writeBuf ++ (recordFrames conn'.batches.flatten ++
      serverFrame (Conn.replyMessage .rangeEnd r)), hclient.moved hcaller ?_, ?_⟩
    · rw [hinbox, htoCome, ← List.append_assoc conn'.writeBuf, ← List.append_assoc conn'.down,
        hdown, List.append_assoc conn.down, List.append_assoc (conn.writeBuf ++ _)]
    · rw [hhandler]
      exact ⟨hread, .inr ⟨hq, ⟨r, hreply, rfl⟩, hst⟩⟩
  rw [Conn.writeBatch]
  simp only [foldl_writeRecordFrame]
  split
  · refine hwritten rfl rfl hh hup hw.reply ?_
    exact List.append_assoc conn.down (conn.writeBuf ++ recordFrames records) _
  · exact hwritten rfl rfl hh hup hw.reply rfl

/-- When the last message has come, nothing follows, and the handler reads or has
ended. -/
theorem ServerHolds.returned {res : CallResult} {handler : Handler}
    (h : ServerHolds conn queued [] (.done res) handler) :
    ServerHolds conn queued [] .idle handler := by
  have hsent {IsOp : ClientMessage → Prop} {ok : ServerMessage} :
      ¬ Sent IsOp ok conn queued [] (.done res) := by
    rintro ⟨-, ⟨-, call, -, -, h⟩ | ⟨-, ⟨r, hw⟩, -⟩⟩
    · cases h
    · have hnil := List.append_eq_nil_iff.mp hw.toCome.symm
      exact serverFrame_ne_nil _ (List.append_eq_nil_iff.mp hnil.2).2
  cases handler with
  | reading => exact h
  | sending msg => cases h.2.2.2.1
  | waiting => exact absurd h.2.2 hsent
  | streaming => exact absurd h hsent
  | ended =>
    rcases h with h | ⟨call, -, -, h⟩
    · exact .inl h
    · cases h

/-- What the client decodes is the next message of its call's answer. -/
theorem decode_response {call : ClientMessage} {v : List Proto.Record}
    {o : Outcome DecodeError (Option ServerMessage)} {rest : List UInt8}
    (h : ClientHolds conn toCome st) (hcaller : conn.caller = .calling call v)
    (hdecode : ClientCodec.decode conn.inbox = (o, rest)) : o = .ok none ∨
      ∃ res msg msgs, st = .done res ∧ o = .ok (some msg) ∧ (∀ msg ∈ msgs, Short msg) ∧
        rest ++ (conn.down ++ toCome) = msgs.flatMap serverFrame ∧
        returnsWith call v (msg :: msgs) = some res := by
  cases st with
  | idle =>
    rw [(List.append_eq_nil_iff.mp h.1).1, delimits_server.empty] at hdecode
    cases hdecode
    exact .inl rfl
  | called call' =>
    rw [(List.append_eq_nil_iff.mp h.1).1, delimits_server.empty] at hdecode
    cases hdecode
    exact .inl rfl
  | done res =>
    rw [ClientHolds, hcaller] at h
    rcases h with h | ⟨call', v', msgs, h, hshort, hbytes, hres⟩
    · cases h
    cases h
    cases msgs with
    | nil => cases hres
    | cons msg msgs =>
      obtain ⟨hmsg, hmsgs⟩ := List.forall_mem_cons.mp hshort
      rcases delimits_server.decode_front hmsg hbytes with ⟨rest', hsome, hrest⟩ | hnone
      · rw [hsome] at hdecode
        cases hdecode
        exact .inr ⟨res, msg, msgs, rfl, rfl, hmsgs, hrest, hres⟩
      · rw [hnone] at hdecode
        cases hdecode
        exact .inl rfl

/-- The client takes a message. -/
theorem receive_connHolds {call : ClientMessage} {v : List Proto.Record} {events : List ServiceEvent}
    (h : ConnHolds conn queued st) (hcaller : conn.caller = .calling call v)
    (hreceive : conn.receive p call v = some (conn', events)) :
    ∃ st', StatusStep p st events st' ∧ ConnHolds conn' queued st' := by
  obtain ⟨toCome, hclient, hserver⟩ := h
  rw [Conn.receive] at hreceive
  rcases hdecode : ClientCodec.decode conn.inbox with ⟨o, rest⟩
  rw [hdecode] at hreceive
  rcases decode_response hclient hcaller hdecode with
    rfl | ⟨res, msg, msgs, rfl, rfl, hshort, hbytes, hres⟩
  · cases hreceive
  rw [returnsWith] at hres
  simp only at hreceive
  cases hprogress : Client.receive call v msg with
  | more v' =>
    rw [hprogress] at hreceive hres
    cases hreceive
    exact ⟨_, .quiet, toCome, .inr ⟨call, v', msgs, rfl, hshort, hbytes, hres⟩,
      hserver.of_client _ _ _⟩
  | returns res' =>
    rw [hprogress] at hreceive hres
    cases hreceive
    obtain ⟨rfl, hres⟩ := Option.ite_none_right_eq_some.mp hres
    obtain rfl : res' = res := Option.some.inj hres
    have hnil : toCome = [] :=
      (List.append_eq_nil_iff.mp (List.append_eq_nil_iff.mp hbytes).2).2
    subst hnil
    exact ⟨_, .ret, [], ⟨hbytes, .inl rfl⟩, hserver.returned.of_client _ _ _⟩

/-- What happens on a connection. -/
theorem exec_connHolds {m m' : ServerMetrics} {move : ConnMove} {events : List ServiceEvent}
    (h : ConnHolds conn queued st) (hcall : ∀ msg, move = .call msg → Sendable msg)
    (hexec : conn.exec p m move = some (conn', m', events)) :
    ∃ st', StatusStep p st events st' ∧ ConnHolds conn' queued st' := by
  cases move with
  | call msg =>
    rw [Conn.exec] at hexec
    split at hexec
    · cases hexec
      exact call_connHolds h ‹_› (hcall msg rfl)
    · cases hexec
  | toServer n =>
    rw [Conn.exec] at hexec
    split at hexec
    · cases hexec
      obtain ⟨toCome, hclient, hserver⟩ := h
      rename_i hh
      rw [hh] at hserver
      obtain ⟨hq, hquiet, hbytes⟩ := hserver
      refine ⟨st, .quiet, toCome, hclient.moved rfl rfl, ?_⟩
      show ServerHolds _ _ _ _ conn.handler
      rw [hh]
      refine ⟨hq, ⟨hquiet.reply, hquiet.batches, hquiet.writeBuf, hquiet.toCome⟩, ?_⟩
      show conn.readBuf ++ conn.up.take n ++ conn.up.drop n = _
      rw [List.append_assoc, List.take_append_drop, hbytes]
    · cases hexec
  | read =>
    rw [Conn.exec] at hexec
    split at hexec
    · obtain ⟨⟨conn₁, m₁⟩, hread, heq⟩ := Option.map_eq_some_iff.mp hexec
      cases heq
      exact read_connHolds h ‹_› hread
    · cases hexec
  | answer =>
    rw [Conn.exec] at hexec
    split at hexec
    · cases hexec
      exact ⟨st, .quiet, answer_connHolds h ‹_› ‹_›⟩
    · cases hexec
  | batch =>
    rw [Conn.exec] at hexec
    split at hexec
    · cases hexec
      exact ⟨st, .quiet, batch_connHolds h ‹_› ‹_›⟩
    · cases hexec
  | endRange =>
    rw [Conn.exec] at hexec
    split at hexec
    · cases hexec
      exact ⟨st, .quiet, endRange_connHolds h ‹_› ‹_› ‹_›⟩
    · cases hexec
  | toClient n =>
    cases hexec
    obtain ⟨toCome, hclient, hserver⟩ := h
    refine ⟨st, .quiet, toCome, hclient.moved rfl ?_, hserver.of_client _ _ _⟩
    show conn.inbox ++ conn.down.take n ++ (conn.down.drop n ++ toCome) = _
    rw [List.append_assoc, ← List.append_assoc (conn.down.take n), List.take_append_drop]
  | receive =>
    rw [Conn.exec] at hexec
    split at hexec
    · obtain ⟨⟨conn₁, events₁⟩, hreceive, heq⟩ := Option.map_eq_some_iff.mp hexec
      cases heq
      exact receive_connHolds h ‹_› hreceive
    · cases hexec
  | lose =>
    cases hexec
    obtain ⟨toCome, hclient, hserver⟩ := h
    exact ⟨st, .quiet, toCome, hclient.lost, hserver.of_client _ _ _⟩
  | eof =>
    rw [Conn.exec] at hexec
    split at hexec
    · obtain ⟨⟨conn₁, m₁⟩, heof, heq⟩ := Option.map_eq_some_iff.mp hexec
      obtain rfl : conn₁ = conn' := congrArg Prod.fst heq
      obtain rfl : [] = events := congrArg (fun x => x.2.2) heq
      obtain ⟨toCome, hclient, hserver⟩ := h
      have hended : conn₁ = { conn with handler := .ended } := by
        rw [Conn.eof] at heof
        split at heof
        · split at heof
          · cases heof
            rfl
          · cases heof
            rfl
        · cases heof
      subst hended
      exact ⟨st, .quiet, toCome, hclient.moved rfl rfl, hserver.commands⟩
    · cases hexec
  | fail =>
    cases hexec
    obtain ⟨toCome, hclient, hserver⟩ := h
    exact ⟨st, .quiet, toCome, hclient.moved rfl rfl, hserver.commands⟩

/-! ## Commands -/

/-- The handler sends a command. -/
theorem sent_connHolds {msg : ClientMessage} (h : ConnHolds conn queued st)
    (hh : conn.handler = .sending msg) : queued = [] ∧ ConnHolds (conn.sent msg) [msg] st := by
  obtain ⟨toCome, hclient, hserver⟩ := h
  rw [hh] at hserver
  obtain ⟨rfl, hquiet, hup, rfl, hping⟩ := hserver
  have hwaiting (hplain : IsPlain msg) :
      ConnHolds { conn with handler := .waiting } [msg] (.called msg) :=
    ⟨toCome, hclient.moved rfl rfl, hquiet.batches, hquiet.writeBuf, hup,
      .inl ⟨⟨hquiet.reply, hquiet.batches, hquiet.writeBuf, hquiet.toCome⟩, msg, hplain, rfl, rfl⟩⟩
  refine ⟨rfl, ?_⟩
  cases msg with
  | ping => exact absurd rfl hping
  | insert i => exact hwaiting trivial
  | batchInsert records => exact hwaiting trivial
  | metrics => exact hwaiting trivial
  | range r =>
    exact ⟨toCome, hclient.moved rfl rfl, hup,
      .inl ⟨⟨hquiet.reply, hquiet.batches, hquiet.writeBuf, hquiet.toCome⟩, .range r, trivial, rfl,
        rfl⟩⟩

/-- The messages with which a handler answers a call. -/
def answerMessages (call : ClientMessage) (batches : List (List Proto.Record)) (reply : Reply) :
    List ServerMessage :=
  match call with
  | .range _ =>
    batches.flatten.map ServerMessage.rangeRecord ++ [Conn.replyMessage .rangeEnd reply]
  | _ => [Conn.replyMessage .insertOk reply]

/-- The backend answers the command of a call. -/
theorem answered_connHolds {call : ClientMessage} {batches : List (List Proto.Record)}
    {reply : Reply} {res : CallResult} (h : ConnHolds conn [call] st)
    (hbatches : IsPlain call → batches = [])
    (hshort : ∀ msg ∈ answerMessages call batches reply, Short msg)
    (hres : returnsWith call [] (answerMessages call batches reply) = some res) :
    st = .called call ∧ ConnHolds { conn with batches, reply := some reply } [] (.done res) := by
  obtain ⟨toCome, hclient, hserver⟩ := h
  obtain hq | ⟨call', -, hq, rfl⟩ := hserver.commands
  · cases hq
  cases hq
  refine ⟨rfl, (answerMessages call batches reply).flatMap serverFrame, ?_, ?_⟩
  · obtain ⟨hnil, -, hcaller | hcaller⟩ := hclient
    · obtain ⟨hinbox, hdown⟩ := List.append_eq_nil_iff.mp hnil
      refine .inr ⟨call, [], _, hcaller, hshort, ?_, hres⟩
      show conn.inbox ++ (conn.down ++ _) = _
      rw [hinbox, (List.append_eq_nil_iff.mp hdown).1]
      rfl
    · exact .inl hcaller
  · show ServerHolds _ _ _ _ conn.handler
    cases hh : conn.handler with
    | reading =>
      rw [hh] at hserver
      cases hserver.1
    | sending msg =>
      rw [hh] at hserver
      cases hserver.1
    | waiting =>
      rw [hh] at hserver
      obtain ⟨-, hwrite, hup, ⟨-, call', hplain, hq, -⟩ | ⟨hq, -⟩⟩ := hserver
      · cases hq
        refine ⟨hbatches hplain, hwrite, hup, .inr ⟨rfl, ⟨reply, rfl, ?_⟩, res, rfl⟩⟩
        show _ = conn.writeBuf ++ (recordFrames batches.flatten ++ _)
        rw [hwrite, hbatches hplain]
        cases call with
        | insert i => exact List.flatMap_singleton _ _
        | batchInsert records => exact List.flatMap_singleton _ _
        | metrics => exact List.flatMap_singleton _ _
        | range r => exact hplain.elim
        | ping => exact hplain.elim
      · cases hq
    | streaming =>
      rw [hh] at hserver
      obtain ⟨hup, ⟨hquiet, call', hrange, hq, -⟩ | ⟨hq, -⟩⟩ := hserver
      · cases hq
        refine ⟨hup, .inr ⟨rfl, ⟨reply, rfl, ?_⟩, res, rfl⟩⟩
        show _ = conn.writeBuf ++ (recordFrames batches.flatten ++ _)
        cases call with
        | range r =>
          rw [hquiet.writeBuf, answerMessages, List.flatMap_append, List.flatMap_singleton]
          rfl
        | insert i => exact hrange.elim
        | batchInsert records => exact hrange.elim
        | metrics => exact hrange.elim
        | ping => exact hrange.elim
      · cases hq
    | ended => exact .inl rfl

/-- A range that has read records, and reads more up to its end. -/
theorem returnsWith_range (r : Proto.Range) (records : List Proto.Record) (v : List Proto.Record) :
    returnsWith (.range r) v (records.map ServerMessage.rangeRecord ++ [.rangeEnd]) =
      some (.records (v ++ records)) := by
  induction records generalizing v with
  | nil =>
    rw [List.append_nil]
    rfl
  | cons rec records ih =>
    rw [List.append_cons v rec records]
    exact ih (v ++ [rec])

end LG.Proof.Core
