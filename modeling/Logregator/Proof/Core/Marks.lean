import Logregator.Proof.Core.Run

/-!
# The tables being compacted

A table is marked when a compaction of it is sent, and the mark is taken away
when the result is applied. A compaction that fails in the worker has no result,
and its tables stay marked: the marks are those of the compactions under way and
of those that failed (`Marked`).
-/

namespace LG.Proof.Core

open LG.Impl.Core LG.Spec.Core

variable {c : SSTableCode} {hp : RecordHeap} {s s' : System c} {lost : List (IoCommand c)}

/-- The marks are those of the jobs and of the tasks lost, one of each. -/
structure Marked (lost : List (IoCommand c)) (s : System c) : Prop where
  tables : ∀ p ∈ s.engine.sstableMap.elems, p.2.id = p.1
  once : ((jobs s).flatMap Job.inputs ++ lost.flatMap inputIds).Nodup
  marks : ∀ id, id ∈ s.engine.compacting ↔ id ∈ (jobs s).flatMap Job.inputs ++ lost.flatMap inputIds
  some_input : ∀ cmd, .command cmd ∈ jobs s ∨ cmd ∈ lost → IsCompaction cmd → inputIds cmd ≠ []

theorem inputs_command (cmd : IoCommand c) : Job.inputs (.command cmd) = inputIds cmd := by
  cases cmd <;> rfl

theorem inputs_runTask {disk : Disk} {task : IoCommand c} {id : Nat} {file : List UInt8}
    {result : IoResult c} (hrun : System.runTask hp disk task = some (id, file, result)) :
    (Job.result result).inputs = (Job.command task).inputs := by
  rcases runTask_cases hrun with ⟨m, rfl, -, rfl⟩ | ⟨tables, out, rfl, -, -, rfl⟩
  · rfl
  · rfl

namespace Marked

/-- The marks do not change while the inputs of jobs and lost tasks are the
same. -/
theorem perm {lost' : List (IoCommand c)} (h : Marked lost s)
    (htables : ∀ p ∈ s'.engine.sstableMap.elems, p.2.id = p.1)
    (hmarks : s'.engine.compacting = s.engine.compacting)
    (hinputs : ((jobs s').flatMap Job.inputs ++ lost'.flatMap inputIds).Perm
      ((jobs s).flatMap Job.inputs ++ lost.flatMap inputIds))
    (hcmds : ∀ cmd, .command cmd ∈ jobs s' ∨ cmd ∈ lost' → IsCompaction cmd →
      .command cmd ∈ jobs s ∨ cmd ∈ lost) : Marked lost' s' where
  tables := htables
  once := hinputs.nodup_iff.mpr h.once
  marks id := by rw [hmarks, h.marks, hinputs.mem_iff]
  some_input cmd hcmd hc := h.some_input cmd (hcmds cmd hcmd hc) hc

theorem compacting (h : Marked lost s) {n : Nat} (hlen : 2 ≤ (s.engine.getOldestMetas n).length) :
    Marked lost (compactingOldest n s) := by
  obtain ⟨hts, hnodup⟩ := getOldestMetas_spec h.tables n
  have hjobs := jobs_sent s (compactingOldest n s) rfl rfl rfl
  have hinputs : ((jobs (compactingOldest n s)).flatMap Job.inputs).Perm
      ((s.engine.getOldestMetas n).map (fun t => t.id) ++ (jobs s).flatMap Job.inputs) :=
    hjobs.flatMap_right _
  have hall := hinputs.append_right (lost.flatMap inputIds)
  rw [List.append_assoc] at hall
  refine ⟨h.tables, hall.nodup_iff.mpr (List.nodup_append.mpr ⟨hnodup, h.once, ?_⟩), fun id => ?_,
    fun cmd hcmd hc => ?_⟩
  · rintro a ha b hb rfl
    obtain ⟨t, ht, rfl⟩ := List.mem_map.mp ha
    exact (hts t ht).2 ((h.marks _).mpr hb)
  · rw [hall.mem_iff, List.mem_append, ← h.marks]
    show id ∈ s.engine.compacting ∪ _ ↔ _
    rw [Finset.mem_union, List.mem_toFinset, or_comm]
  · rcases hcmd with hcmd | hcmd
    · rcases List.mem_append.mp (hjobs.mem_iff.mp hcmd) with hcmd | hcmd
      · cases List.mem_singleton.mp hcmd
        intro hnil
        rw [List.map_eq_nil_iff.mp hnil] at hlen
        cases hlen
      · exact h.some_input cmd (.inl hcmd) hc
    · exact h.some_input cmd (.inr hcmd) hc

theorem compacted (h : Marked lost s) {newMeta : c.Meta} {ids : List Nat}
    {results : List (IoResult c)}
    (hjobs : (jobs s).Perm (.result (.compaction newMeta ids) :: jobs { s with results })) :
    Marked lost { s with
      results
      disk.ssts := ids.foldl OrdMap.remove s.disk.ssts
      engine.compacting := s.engine.compacting \ ids.toFinset
      engine.sstableMap :=
        (ids.foldl OrdMap.remove s.engine.sstableMap).upsert newMeta.id newMeta } := by
  have hinputs : ((jobs s).flatMap Job.inputs ++ lost.flatMap inputIds).Perm
      (ids ++ ((jobs { s with results }).flatMap Job.inputs ++ lost.flatMap inputIds)) := by
    rw [← List.append_assoc]
    exact (hjobs.flatMap_right _).append_right _
  obtain ⟨-, honce, hapart⟩ := List.nodup_append.mp (hinputs.nodup_iff.mp h.once)
  refine ⟨fun p hp => ?_, honce, fun id => ?_, fun cmd hcmd hc => h.some_input cmd ?_ hc⟩
  · rcases OrdMap.mem_upsert hp with rfl | hp
    · rfl
    · exact h.tables p (OrdMap.mem_foldl_remove.mp hp).1
  · show id ∈ s.engine.compacting \ ids.toFinset ↔ _
    rw [Finset.mem_sdiff, List.mem_toFinset, h.marks, hinputs.mem_iff, List.mem_append]
    constructor
    · rintro ⟨hid, hnot⟩
      exact hid.resolve_left hnot
    · intro hid
      exact ⟨.inr hid, fun hmem => hapart id hmem id hid rfl⟩
  · exact hcmd.imp_left fun hcmd => hjobs.mem_iff.mpr (List.mem_cons_of_mem _ hcmd)

/-- A flush that is sent marks nothing. -/
theorem flushing (h : Marked lost s) : Marked lost (flushing s) := by
  have hjobs := jobs_sent s (Core.flushing s) rfl rfl rfl
  refine h.perm h.tables rfl ((hjobs.flatMap_right _).append_right _)
    fun cmd hcmd hc => hcmd.imp_left fun hcmd => ?_
  rcases List.mem_append.mp (hjobs.mem_iff.mp hcmd) with hcmd | hcmd
  · obtain rfl | rfl : cmd = .resyncWal ∨
        cmd = .flushMemtable s.engine.memtable s.engine.sstCounter := by simpa using hcmd
    · cases hc
    · cases hc
  · exact hcmd

/-- The result of a task has the inputs of the task. -/
theorem finished (h : Marked lost s) {id : Nat} {task : IoCommand c} {file : List UInt8}
    {result : IoResult c} {tasks : List (IoCommand c)} {rest : List (Job c)}
    (hrun : System.runTask hp s.disk task = some (id, file, result))
    (hjobs : (jobs s).Perm (.command task :: rest))
    (hjobs' : (jobs { s with tasks, results := s.results ++ [result] }).Perm
      (.result result :: rest)) :
    Marked lost { s with
      tasks, disk.ssts := s.disk.ssts.upsert id file, results := s.results ++ [result] } := by
  have hinputs := (hjobs'.flatMap_right Job.inputs).trans (List.Perm.of_eq
    (congrArg (· ++ _) (inputs_runTask hrun)) |>.trans (hjobs.symm.flatMap_right Job.inputs))
  refine h.perm h.tables rfl (hinputs.append_right _) fun cmd hcmd _ => hcmd.imp_left fun hcmd => ?_
  rcases List.mem_cons.mp (hjobs'.mem_iff.mp hcmd) with heq | hcmd
  · cases heq
  · exact hjobs.mem_iff.mpr (List.mem_cons_of_mem _ hcmd)

/-- A task that fails is lost. -/
theorem failed (h : Marked lost s) {task : IoCommand c} {tasks : List (IoCommand c)}
    (hjobs : (jobs s).Perm (.command task :: jobs { s with tasks })) :
    Marked (lost ++ [task]) { s with tasks } := by
  refine h.perm h.tables rfl ?_ fun cmd hcmd _ => ?_
  · rw [List.flatMap_append, List.flatMap_singleton]
    refine .trans ?_ ((hjobs.symm.flatMap_right _).append_right _)
    rw [List.flatMap_cons, inputs_command, List.append_assoc, ← List.append_assoc]
    exact List.perm_append_comm
  · rcases hcmd with hcmd | hcmd
    · exact .inl (hjobs.mem_iff.mpr (List.mem_cons_of_mem _ hcmd))
    · rcases List.mem_append.mp hcmd with hcmd | hcmd
      · exact .inr hcmd
      · cases List.mem_singleton.mp hcmd
        exact .inl (hjobs.mem_iff.mpr List.mem_cons_self)

/-- The result of a flush has no inputs. -/
theorem flushed (h : Marked lost s) {newMeta : c.Meta} {results : List (IoResult c)}
    {staleWals : OrdMap Nat Nat} {nextWalToDel : Nat} {wals : OrdMap Nat (List Record)}
    (hjobs : (jobs s).Perm (.result (.flush newMeta) :: jobs { s with results })) :
    Marked lost { s with
      results, staleWals, nextWalToDel, disk.wals := wals
      appliedFlushes := insert newMeta.id s.appliedFlushes
      engine.frozenMemtables := s.engine.frozenMemtables.remove newMeta.id
      engine.sstableMap := s.engine.sstableMap.upsert newMeta.id newMeta } := by
  have hinputs : ((jobs s).flatMap Job.inputs).Perm ((jobs { s with results }).flatMap Job.inputs) :=
    hjobs.flatMap_right _
  refine h.perm (fun p hp => ?_) rfl (hinputs.symm.append_right _)
    fun cmd hcmd _ => hcmd.imp_left fun hcmd => hjobs.mem_iff.mpr (List.mem_cons_of_mem _ hcmd)
  rcases OrdMap.mem_upsert hp with rfl | hp
  · rfl
  · exact h.tables p hp

end Marked

theorem exec_marked {step : Step} (h : Marked lost s) (hs : NoCrash step)
    (hexec : step.exec hp s = some s') : Marked (lost ++ failedBy s step s') s' := by
  -- A step that loses no task.
  have hkeep (hnil : failedBy s step s' = []) (h' : Marked lost s') :
      Marked (lost ++ failedBy s step s') s' := by
    rw [hnil, List.append_nil]
    exact h'
  cases exec_effect hs hexec with
  | insertedOne hi | insertedMany hi =>
    obtain ⟨m, -, -, rfl⟩ := hi
    exact hkeep rfl (h.perm h.tables rfl (.refl _) fun _ hcmd _ => hcmd)
  | wroteWal | froze => exact hkeep rfl (h.perm h.tables rfl (.refl _) fun _ hcmd _ => hcmd)
  | noFlush | noCompaction => exact hkeep rfl h
  | sentFlush hne => exact hkeep rfl h.flushing
  | sentCompaction n hlen => exact hkeep rfl (h.compacting hlen)
  | resynced hjobs =>
    refine hkeep rfl (h.perm h.tables rfl (List.Perm.of_eq ?_)
      fun cmd hcmd _ => hcmd.imp_left fun hcmd => hjobs ▸ List.mem_cons_of_mem _ hcmd)
    rw [hjobs]
    rfl
  | dispatched hjobs =>
    exact hkeep rfl (h.perm h.tables rfl ((hjobs.symm.flatMap_right _).append_right _)
      fun cmd hcmd _ => hcmd.imp_left hjobs.mem_iff.mpr)
  | finished hrun hjobs hjobs' => exact hkeep rfl (h.finished hrun hjobs hjobs')
  | failed htask hjobs =>
    rw [failedBy, htask]
    exact h.failed hjobs
  | flushed hjobs hdel => exact hkeep rfl (h.flushed hjobs)
  | compacted hjobs => exact hkeep rfl (h.compacted hjobs)

/-! ## Runs -/

theorem foldl_upsert_id : ∀ (tables : List (Nat × c.Meta)) (m : OrdMap Nat c.Meta),
    (∀ p ∈ m.elems, p.2.id = p.1) →
    ∀ p ∈ (tables.foldl (fun m table => m.upsert table.2.id table.2) m).elems, p.2.id = p.1
  | [], _, h => h
  | table :: tables, m, h => by
    refine foldl_upsert_id tables _ fun p hp => ?_
    rcases OrdMap.mem_upsert hp with rfl | hp
    · rfl
    · exact h p hp

/-- No table of a directory that is opened is marked. -/
theorem marked_start {disk : Disk} {engine : Engine c} {limit count : Nat} {full : Bool}
    (h : Engine.openDir c disk limit = .ok (engine, full)) :
    Marked [] (System.start engine count disk) := by
  obtain ⟨recovered, -, h⟩ := Outcome.bind_eq_ok.mp h
  obtain ⟨⟨needs, m⟩, -, h⟩ := Outcome.bind_eq_ok.mp h
  obtain ⟨tables, -, h⟩ := Outcome.bind_eq_ok.mp h
  obtain ⟨sst, -, h⟩ := Outcome.bind_eq_ok.mp h
  obtain ⟨seq, -, h⟩ := Outcome.bind_eq_ok.mp h
  cases h
  refine ⟨foldl_upsert_id tables (.empty _) fun p hp => ?_, .nil, fun id => ?_, fun cmd hcmd => ?_⟩
  · cases hp
  · exact iff_of_false (Finset.notMem_empty id) List.not_mem_nil
  · rcases hcmd with hcmd | hcmd <;> cases hcmd

/-- With no command and no result in the channels, the marks are right just
when no task lost was a compaction. -/
theorem Marked.marksMatch_iff (h : Marked lost s) (hcmds : s.cmds = []) (hresults : s.results = []) :
    MarksMatch s ↔ ∀ cmd ∈ lost, ¬ IsCompaction cmd := by
  have hjobs : (jobs s).flatMap Job.inputs = s.tasks.flatMap inputIds := by
    rw [jobs, hcmds, hresults, List.nil_append, List.map_nil, List.append_nil, List.flatMap_map]
    exact congrArg (s.tasks.flatMap ·) (funext inputs_command)
  have honce := h.once
  have hmarks := h.marks
  rw [hjobs] at honce hmarks
  constructor
  · intro hmatch cmd hcmd hc
    obtain ⟨id, hid⟩ := List.exists_mem_of_ne_nil _ (h.some_input cmd (.inr hcmd) hc)
    have hlost : id ∈ lost.flatMap inputIds := List.mem_flatMap.mpr ⟨cmd, hcmd, hid⟩
    have hrunning := (hmatch.marks id).mp ((hmarks id).mpr (List.mem_append_right _ hlost))
    exact (List.nodup_append.mp honce).2.2 id hrunning id hlost rfl
  · intro hlost
    have hnil : lost.flatMap inputIds = [] := by
      refine List.flatMap_eq_nil_iff.mpr fun cmd hcmd => ?_
      have hc := hlost cmd hcmd
      cases cmd with
      | resyncWal | flushMemtable => rfl
      | compactSSTables => exact absurd trivial hc
    rw [hnil, List.append_nil] at honce hmarks
    refine ⟨hmarks, honce, fun p hp hnot => ?_⟩
    have hmem : p.2 ∈ (s.engine.sstableMap.elems.map Prod.snd).filter
        fun table => table.id ∉ s.engine.compacting := by
      refine List.mem_filter.mpr ⟨List.mem_map_of_mem hp, decide_eq_true ?_⟩
      rw [hmarks, h.tables p hp]
      exact hnot
    rw [Engine.getOldestMetas, List.take_of_length_le]
    · exact hmem
    · exact (List.length_filter_le _ _).trans (List.length_map _).le

/-- In every run, once the channels are empty, the tables marked are those of
the compactions running just when no compaction has failed. -/
theorem marks_match_iff (hp : RecordHeap) {disk : Disk} {engine : Engine c} {limit count : Nat}
    {full : Bool} (hopen : Engine.openDir c disk limit = .ok (engine, full)) {steps : List Step}
    (hs : ∀ step ∈ steps, NoCrash step) {s : System c}
    (hrun : Step.run hp (System.start engine count disk) steps = some s) (hcmds : s.cmds = [])
    (hresults : s.results = []) :
    MarksMatch s ↔ ∀ cmd ∈ failures hp (System.start engine count disk) steps, ¬ IsCompaction cmd :=
  (run_along exec_marked (marked_start hopen) hs hrun).marksMatch_iff hcmds hresults

/-- After a compaction that succeeds, nothing is marked that is not compacted. -/
theorem marks_match_compacted :
    ∃ s, Step.run (MinHeap.sortedList _ _) (System.start (freshEngine plainCode 0) 4 .empty)
        compactedSteps = some s ∧ MarksMatch s := by
  obtain ⟨s, hrun, hquiet⟩ := Option.map_eq_some_iff.mp
    (show (Step.run (MinHeap.sortedList _ _) (System.start (freshEngine plainCode 0) 4 .empty)
      compactedSteps).map (fun s => (s.cmds.length, s.results.length)) = some (0, 0) by decide +kernel)
  obtain ⟨hcmds, hresults⟩ := Prod.mk.inj hquiet
  have hfailures : failures (MinHeap.sortedList _ _) (System.start (freshEngine plainCode 0) 4 .empty)
      compactedSteps = [] := List.length_eq_zero_iff.mp (by decide +kernel)
  refine ⟨s, hrun, (marks_match_iff _ (openDir_empty plainCode 0) (by simp [compactedSteps, NoCrash])
    hrun (List.length_eq_zero_iff.mp hcmds) (List.length_eq_zero_iff.mp hresults)).mpr ?_⟩
  rw [hfailures]
  exact fun cmd hcmd => by cases hcmd

/-- A compaction of two tables that fails in the worker. -/
def failedCompaction : List Step := compactedSteps.take 14 ++ [.finish 0 false]

/-- Its tables stay marked, and are not eligible again. -/
theorem marks_leaked :
    ∃ s, Step.run (MinHeap.sortedList _ _) (System.start (freshEngine plainCode 0) 4 .empty)
        failedCompaction = some s ∧
      ((s.cmds.length, s.tasks.length, s.results.length) = (0, 0, 0) ∧ s.engine.compacting = {1, 2}) ∧
      s.engine.sstableMap.elems.map Prod.fst = [1, 2] ∧ (s.engine.getOldestMetas 2).length = 0 := by
  obtain ⟨s, hrun, h⟩ := Option.map_eq_some_iff.mp
    (show (Step.run (MinHeap.sortedList _ _) (System.start (freshEngine plainCode 0) 4 .empty)
      failedCompaction).map (fun s => (((s.cmds.length, s.tasks.length, s.results.length),
        s.engine.compacting), s.engine.sstableMap.elems.map Prod.fst,
        (s.engine.getOldestMetas 2).length)) = some (((0, 0, 0), {1, 2}), [1, 2], 0) by decide +kernel)
  obtain ⟨hmarks, heligible⟩ := Prod.mk.inj h
  exact ⟨s, hrun, Prod.mk.inj hmarks, Prod.mk.inj heligible⟩

end LG.Proof.Core
