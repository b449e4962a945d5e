import Logregator.Impl.Core.Proto

/-!
# The client (`client.rs`)

A call sends one message, and reads messages until one ends it: an insert, a
ping and a request for metrics end with the first, a range with the first that
is no record.
-/

namespace LG.Impl.Core.Proto

/-- The errors of a call: one that the server reports, a message that is no
answer to the call, and one that cannot be decoded. -/
inductive CallError where
  | server (err : Str)
  | unexpected (context : String) (resp : ServerMessage)
  | decode (e : DecodeError)
  deriving DecidableEq

/-- What a call returns. -/
inductive CallResult where
  | done
  | json (json : Str)
  | records (v : List Record)
  | failed (e : CallError)
  deriving DecidableEq

namespace Client

/-- What the error of a message that is no answer starts with. A range has the
text of a batch. -/
def unexpectedContext : ClientMessage → String
  | .insert _ => "client.insert: unexpected response message"
  | .range _ => "client.batch_insert: response message"
  | .batchInsert _ => "client.batch_insert: unexpected response message"
  | .metrics => "client.get_metrics: unexpected response"
  | .ping => "client.ping: unexpected response"

/-- A call with the records it has, after a message: it reads on, or
returns. -/
inductive Progress where
  | more (v : List Record)
  | returns (res : CallResult)

/-- The `match` of `ping`, `insert`, `batch_insert`, `get_metrics` and
`range`. -/
def receive (call : ClientMessage) (v : List Record) (resp : ServerMessage) : Progress :=
  match call, resp with
  | .ping, .pong => .returns .done
  | .insert _, .insertOk => .returns .done
  | .batchInsert _, .insertOk => .returns .done
  | .metrics, .metrics json => .returns (.json json)
  | .range _, .rangeRecord rec => .more (v ++ [rec])
  | .range _, .rangeEnd => .returns (.records v)
  | _, .error err => .returns (.failed (.server err))
  | call, resp => .returns (.failed (.unexpected (unexpectedContext call) resp))

end Client

end LG.Impl.Core.Proto
