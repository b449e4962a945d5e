import Logregator.Impl.Core.Engine
import Mathlib.Data.Finset.Card

/-!
# The backend and its worker (`storage/backend.rs`, `storage/io_worker.rs`)

The backend owns the engine. It sends flushes and compactions to the worker,
which starts each as a task of its own, so that they end in any order; their
results come back through a channel. `System` is the two with the directory,
and `Step` what happens next: the loop of `run_engine_loop` does these steps
in some order, and any order is a run here. A crash loses all but the
directory; the engine is opened again then, and `run_engine_loop` starts with
a flush of what was recovered.
-/

namespace LG.Impl.Core

/-- `io_worker::IoCommand`. -/
inductive IoCommand (c : SSTableCode) where
  | resyncWal
  | flushMemtable (memtable : MemTable) (sstId : Nat)
  | compactSSTables (tables : List c.Meta) (fileId : Nat)

/-- `io_worker::IoResult`. -/
inductive IoResult (c : SSTableCode) where
  | flush (newMeta : c.Meta)
  | compaction (newMeta : c.Meta) (idsToRemove : List Nat)

/-- `backend::Backend` with its worker: the commands sent, the tasks running,
the results sent, and the directory. A stale WAL's path is that of an id. -/
structure System (c : SSTableCode) where
  engine : Engine c
  staleWals : OrdMap Nat Nat
  appliedFlushes : Finset Nat
  nextWalToDel : Nat
  maxSstableCount : Nat
  cmds : List (IoCommand c)
  tasks : List (IoCommand c)
  results : List (IoResult c)
  disk : Disk

namespace System

variable {c : SSTableCode}

/-! ## The backend -/

/-- The WAL's writer writes the first `n` records it has: `flush_buffer`
writes all, and the `BufWriter` on its own what no longer fits. -/
def writeWal (n : Nat) (s : System c) : System c :=
  { s with
    engine.walBuffer := s.engine.walBuffer.drop n
    disk.active := s.disk.active ++ s.engine.walBuffer.take n }

/-- `Wal::rotate`: the active file takes the place of the one with the id. -/
def rotateWal (id : Nat) (s : System c) : System c :=
  { s with
    engine.walBuffer := []
    disk.active := []
    disk.wals := s.disk.wals.upsert id (s.disk.active ++ s.engine.walBuffer) }

/-- `Backend::send_flush_cmd`; `rotates` says whether the WAL's file could be
renamed. -/
def sendFlushCmd (rotates : Bool) (s : System c) : Option (System c) :=
  if s.engine.memtable.isEmpty then some s
  else do
    let (frozen, newSstId, engine) ← s.engine.prepareFlush
    let s := { s with engine }
    if rotates then
      let s := s.rotateWal newSstId
      return { s with
        staleWals := s.staleWals.upsert newSstId newSstId
        cmds := s.cmds ++ [.resyncWal, .flushMemtable frozen newSstId] }
    else return s

/-- The loop of `apply_flush_result` that deletes WAL files; each turn takes
an id that is applied. -/
def deleteStaleWals : Nat → System c → System c
  | 0, s => s
  | n + 1, s =>
    if s.nextWalToDel ∈ s.appliedFlushes ∧ s.nextWalToDel + 1 ∈ s.appliedFlushes then
      let s := match s.staleWals.lookup s.nextWalToDel with
        | some path => { s with
            staleWals := s.staleWals.remove s.nextWalToDel
            disk.wals := s.disk.wals.remove path }
        | none => s
      deleteStaleWals n { s with nextWalToDel := s.nextWalToDel + 1 }
    else s

/-- `Backend::apply_flush_result`. -/
def applyFlushResult (newMeta : c.Meta) (s : System c) : System c :=
  let s := { s with
    engine.frozenMemtables := s.engine.frozenMemtables.remove newMeta.id
    appliedFlushes := insert newMeta.id s.appliedFlushes }
  let s := deleteStaleWals s.appliedFlushes.card s
  { s with engine.sstableMap := s.engine.sstableMap.upsert newMeta.id newMeta }

/-- `Backend::send_compaction_cmd`. -/
def sendCompactionCmd (s : System c) : Option (System c) :=
  if s.engine.totalSstableSize < s.engine.memtableLimitBytes * 8 then some s
  else
    let metas := s.engine.getOldestMetas (max (s.maxSstableCount / 2) 2)
    if metas.length < 2 then some s
    else do
      let fileId := s.engine.sstCounter
      let sstCounter ← incU64 s.engine.sstCounter
      return { s with
        engine.compacting := s.engine.compacting ∪ (metas.map fun table => table.id).toFinset
        engine.sstCounter := sstCounter
        cmds := s.cmds ++ [.compactSSTables metas fileId] }

/-- The removal of one table in `apply_compaction_result`. -/
def removeTable (s : System c) (id : Nat) : System c :=
  { s with
    engine.sstableMap := s.engine.sstableMap.remove id
    disk.ssts := s.disk.ssts.remove id }

/-- `Backend::apply_compaction_result`. -/
def applyCompactionResult (newMeta : c.Meta) (idsToRemove : List Nat) (s : System c) : System c :=
  let s := idsToRemove.foldl removeTable s
  { s with
    engine.compacting := s.engine.compacting \ idsToRemove.toFinset
    engine.sstableMap := s.engine.sstableMap.upsert newMeta.id newMeta }

/-! ## The worker -/

/-- The records that `IoWorker::handle_compaction` writes: tables that cannot
be opened are left out. -/
def compactedRecords (hp : RecordHeap) (disk : Disk) (tables : List c.Meta) :
    Option (List Record) := do
  let iters := tables.filterMap fun table =>
    (SSTableIterUnfiltered.new c (disk.ssts.lookup table.id) table).toOption.map
      RecordIter.unfiltered
  let merge ← MergeIter.new hp none iters
  collect MergeIter.next (merge.bound + 1) merge

/-- A task that ends: the file it leaves, and its result. -/
def runTask (hp : RecordHeap) (disk : Disk) : IoCommand c → Option (Nat × List UInt8 × IoResult c)
  | .resyncWal => none
  | .flushMemtable memtable sstId =>
    let (file, newMeta) := c.writeToFile sstId memtable.bset.elems memtable.len
    some (sstId, file, .flush newMeta)
  | .compactSSTables tables fileId => do
    let recs ← compactedRecords hp disk tables
    let hint := (tables.map fun table => table.numRecords).sum
    let (file, newMeta) := c.writeToFile fileId recs hint
    return (fileId, file, .compaction newMeta (tables.map fun table => table.id))

/-- `IoWorker::handle_cmd` of the next command. -/
def dispatch (s : System c) : Option (System c) :=
  match s.cmds with
  | [] => none
  | .resyncWal :: cmds => some { s with cmds }
  | cmd :: cmds => some { s with cmds, tasks := s.tasks ++ [cmd] }

/-- The task at `i` ends; `succeeds` says whether its file could be
written. -/
def finish (hp : RecordHeap) (i : Nat) (succeeds : Bool) (s : System c) : Option (System c) := do
  let task ← s.tasks[i]?
  let s := { s with tasks := s.tasks.eraseIdx i }
  if succeeds then
    let (id, file, result) ← runTask hp s.disk task
    return { s with disk.ssts := s.disk.ssts.upsert id file, results := s.results ++ [result] }
  else return s

/-- The backend takes the next result. -/
def receive (s : System c) : Option (System c) :=
  match s.results with
  | [] => none
  | .flush newMeta :: results => some (applyFlushResult newMeta { s with results })
  | .compaction newMeta ids :: results => some (applyCompactionResult newMeta ids { s with results })

/-! ## Runs -/

/-- `Backend::new` over an engine. -/
def start (engine : Engine c) (maxSstableCount : Nat) (disk : Disk) : System c :=
  { engine, staleWals := .empty _, appliedFlushes := ∅, nextWalToDel := 1, maxSstableCount
    cmds := [], tasks := [], results := [], disk }

/-- A crash, `Engine::open` and the flush that `run_engine_loop` starts
with. -/
def restart (memtableLimit : Nat) (s : System c) : Option (System c) :=
  match Engine.openDir c s.disk memtableLimit with
  | .ok (engine, _) => (start engine s.maxSstableCount s.disk).sendFlushCmd true
  | _ => none

end System

/-- What may happen next. -/
inductive Step where
  | insert (i : Insert)
  | batchInsert (inserts : List Insert)
  | writeWal (n : Nat)
  | sendFlush (rotates : Bool)
  | sendCompaction
  | dispatch
  | finish (i : Nat) (succeeds : Bool)
  | receive
  | crash (memtableLimit : Nat)

namespace Step

variable {c : SSTableCode}

/-- The state after a step; `none` if the step cannot be taken, or panics. -/
def exec (hp : RecordHeap) (s : System c) : Step → Option (System c)
  | insert i => do
    let (_, engine) ← s.engine.insertRecord i
    return { s with engine }
  | batchInsert inserts => do
    let (_, engine) ← s.engine.batchInsertRecords inserts
    return { s with engine }
  | writeWal n => some (s.writeWal n)
  | sendFlush rotates => s.sendFlushCmd rotates
  | sendCompaction => s.sendCompactionCmd
  | dispatch => s.dispatch
  | finish i succeeds => s.finish hp i succeeds
  | receive => s.receive
  | crash memtableLimit => s.restart memtableLimit

/-- The state after steps. -/
def run (hp : RecordHeap) (s : System c) : List Step → Option (System c)
  | [] => some s
  | step :: steps => do run hp (← exec hp s step) steps

end Step

/-- An empty data directory. -/
def Disk.empty : Disk := { active := [], wals := .empty _, ssts := .empty _ }

end LG.Impl.Core
