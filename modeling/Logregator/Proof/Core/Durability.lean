import Logregator.Proof.Core.Recovery

/-!
# Durability of the core engine

Whether a run with crashes ever loses a record from its WAL files is a matter
of its rotations alone (`neverLoses_iff_safeRun`): the deletion of WAL files
after a flush and the writing of tables lose nothing. A rotation names its
file by the next table's id, and after a crash that is an id which an
unfinished flush had before: its WAL file is replaced
(`loses_unfinished_flush`).
-/

namespace LG.Proof.Core

open LG.Impl.Core LG.Spec.Core

variable {c : SSTableCode} {hp : RecordHeap} {s s' : System c} {r : Record}

/-! ## Steps -/

/-- A rotation keeps the records of the WAL files iff it spares those of the
file that it replaces. -/
theorem flushing_keeps_iff : (∀ r, InWal s.disk r → OnDisk (flushing s).disk r) ↔
    Spares s.disk s.engine.walBuffer s.engine.sstCounter := by
  constructor
  · intro h recs hrecs r hr
    rcases h r (.inr ⟨_, hrecs, hr⟩) with (hr | ⟨p, hp, hr⟩) | hr
    · cases hr
    · rcases OrdMap.mem_upsert_iff.mp hp with rfl | ⟨hp, hne⟩
      · exact .inl hr
      · exact .inr (.inl ⟨p, hp, hne, hr⟩)
    · exact .inr (.inr hr)
  · intro h r hr
    have hrotated (hr : r ∈ s.disk.active ++ s.engine.walBuffer) : OnDisk (flushing s).disk r :=
      .inl (.inr ⟨_, OrdMap.mem_upsert_iff.mpr (.inl rfl), hr⟩)
    have hother {p : Nat × List Record} (hp : p ∈ s.disk.wals.elems)
        (hne : p.1 ≠ s.engine.sstCounter) (hr : r ∈ p.2) : OnDisk (flushing s).disk r :=
      .inl (.inr ⟨p, OrdMap.mem_upsert_iff.mpr (.inr ⟨hp, hne⟩), hr⟩)
    rcases hr with hr | ⟨p, hp, hr⟩
    · exact hrotated (List.mem_append_left _ hr)
    · by_cases hid : p.1 = s.engine.sstCounter
      · rcases h p.2 (hid ▸ hp) r hr with hr | ⟨p', hp', hne, hr⟩ | hr
        · exact hrotated hr
        · exact hother hp' hne hr
        · exact .inr hr
      · exact hother hp hid hr

/-- A step takes no record from the tables, and keeps those of the WAL files iff
it is safe. -/
theorem exec_disk {step : Step} (h : Recoverable s) (hs : Flushes step)
    (hexec : step.exec hp s = some s') :
    (∀ r, InSst s.disk.ssts r → InSst s'.disk.ssts r) ∧
      ((∀ r, InWal s.disk r → OnDisk s'.disk r) ↔ SafeStep s step) := by
  cases step with
  | insert i =>
    obtain ⟨⟨full, e'⟩, -, hexec⟩ := Option.bind_eq_some_iff.mp hexec
    cases hexec
    exact ⟨fun _ => id, fun _ => trivial, fun _ _ => .inl⟩
  | batchInsert inserts =>
    obtain ⟨⟨full, e'⟩, -, hexec⟩ := Option.bind_eq_some_iff.mp hexec
    cases hexec
    exact ⟨fun _ => id, fun _ => trivial, fun _ _ => .inl⟩
  | writeWal n =>
    cases hexec
    refine ⟨fun _ => id, fun _ => trivial, fun _ r hr => .inl ?_⟩
    exact hr.imp_left (List.mem_append_left _)
  | sendFlush rotates =>
    cases hs
    rcases sendFlush_inv hexec with ⟨hempty, rfl⟩ | ⟨hne, -, rfl⟩
    · refine ⟨fun _ => id, fun _ hfull => ?_, fun _ _ => .inl⟩
      simp [MemTable.isEmpty, hempty] at hfull
    · refine ⟨fun _ => id, ?_⟩
      rw [flushing_keeps_iff]
      exact ⟨fun h _ => h, fun h => h (by simpa [MemTable.isEmpty] using hne)⟩
  | sendCompaction => cases hs
  | dispatch =>
    rcases dispatch_inv hexec with ⟨cmds, rfl, -⟩ | ⟨cmds, tasks, rfl, -⟩
    · exact ⟨fun _ => id, fun _ => trivial, fun _ _ => .inl⟩
    · exact ⟨fun _ => id, fun _ => trivial, fun _ _ => .inl⟩
  | finish i succeeds =>
    cases hs
    obtain ⟨m, id, rest, -, ⟨tasks, rfl⟩, -, hfree, -⟩ := h.finish_disk hexec
    exact ⟨fun r hr => inSst_upsert hr hfree _, fun _ => trivial, fun _ _ => .inl⟩
  | receive =>
    obtain ⟨newMeta, results, stale, next, wals, rfl, -, -, -, -, hall⟩ := h.receive_disk hexec
    refine ⟨fun _ => id, fun _ => trivial, fun _ r hr => ?_⟩
    rcases hr with hr | ⟨p, hp, hr⟩
    · exact .inl (.inl hr)
    · rcases hall p hp with hp | hin
      · exact .inl (.inr ⟨p, hp, hr⟩)
      · exact .inr (hin r hr)
  | crash limit =>
    obtain ⟨e, full, ho, hf⟩ := restart_inv hexec
    obtain ⟨-, -, -, hbuf, hsst, -⟩ := openDir_inv ho
    obtain ⟨hmem, -⟩ := openDir_recovers ho fun r r' hr hr' => h.inj r r' (.inl hr) (.inl hr')
    rcases sendFlush_inv hf with ⟨hempty, rfl⟩ | ⟨-, -, rfl⟩
    · -- Nothing was recovered: there are no records in WAL files.
      refine ⟨fun _ => id, fun _ recs hrecs r hr => ?_, fun _ _ => .inl⟩
      have hr : r ∈ e.memtable.bset.elems := (hmem r).mpr (.inr ⟨_, hrecs, hr⟩)
      have hempty : e.memtable.bset.elems = [] := hempty
      simp [hempty] at hr
    · have hiff := flushing_keeps_iff (s := System.start e s.maxSstableCount s.disk)
      simp only [System.start, hbuf, hsst] at hiff
      exact ⟨fun _ => id, hiff⟩

/-! ## Runs -/

/-- Safe steps keep what is on the disk. -/
theorem run_keeps (hl : Stores c) : ∀ {bs steps : List Step} {s s' : System c}, Recoverable s →
    (∀ step ∈ steps, Flushes step) → SafeRun hp s steps → bs <+: steps →
    Step.run hp s bs = some s' → OnDisk s.disk r → OnDisk s'.disk r
  | [], _, s, s', _, _, _, _, hrun, hr => by
    cases hrun
    exact hr
  | step :: bs, steps, s, s', h, hs, hsafe, hpre, hrun, hr => by
    obtain ⟨ds, rfl⟩ := hpre
    obtain ⟨s₁, hexec, hrun⟩ := Option.bind_eq_some_iff.mp hrun
    obtain ⟨hstep, hs⟩ := List.forall_mem_cons.mp hs
    obtain ⟨hsafe, hrest⟩ := hsafe
    have hr₁ : OnDisk s₁.disk r := by
      rcases hr with hr | hr
      · exact (exec_disk h hstep hexec).2.mpr hsafe r hr
      · exact .inr ((exec_disk h hstep hexec).1 r hr)
    exact run_keeps hl (exec_recoverable hl h hstep hexec) hs (hrest s₁ hexec)
      ⟨ds, rfl⟩ hrun hr₁

theorem run_cons {step : Step} {steps : List Step} (hexec : step.exec hp s = some s') :
    Step.run hp s (step :: steps) = Step.run hp s' steps := by
  rw [Step.run, hexec]
  rfl

/-- The rest of a run of safe steps. -/
theorem safeRun_after (hl : Stores c) : ∀ {as bs steps : List Step} {s s' : System c},
    Recoverable s → (∀ step ∈ steps, Flushes step) → SafeRun hp s steps → as ++ bs <+: steps →
    Step.run hp s as = some s' →
    ∃ rest, Recoverable s' ∧ (∀ step ∈ rest, Flushes step) ∧ SafeRun hp s' rest ∧ bs <+: rest
  | [], bs, steps, s, s', h, hs, hsafe, hpre, hrun => by
    cases hrun
    exact ⟨steps, h, hs, hsafe, hpre⟩
  | step :: as, bs, steps, s, s', h, hs, hsafe, hpre, hrun => by
    obtain ⟨ds, rfl⟩ := hpre
    obtain ⟨s₁, hexec, hrun⟩ := Option.bind_eq_some_iff.mp hrun
    obtain ⟨hstep, hs⟩ := List.forall_mem_cons.mp hs
    exact safeRun_after hl (exec_recoverable hl h hstep hexec) hs (hsafe.2 s₁ hexec) ⟨ds, rfl⟩ hrun

theorem neverLoses_of_safeRun (hl : Stores c) {steps : List Step} (h : Recoverable s)
    (hs : ∀ step ∈ steps, Flushes step) (hsafe : SafeRun hp s steps) : NeverLoses hp s steps := by
  intro as bs hpre s₁ s₂ hrun₁ hrun₂ r hr
  obtain ⟨rest, h₁, hs₁, hsafe₁, hpre₁⟩ := safeRun_after hl h hs hsafe hpre hrun₁
  exact run_keeps hl h₁ hs₁ hsafe₁ hpre₁ hrun₂ (.inl hr)

theorem safeRun_of_neverLoses (hl : Stores c) : ∀ {steps : List Step} {s s' : System c},
    Recoverable s → (∀ step ∈ steps, Flushes step) → Step.run hp s steps = some s' →
    NeverLoses hp s steps → SafeRun hp s steps
  | [], _, _, _, _, _, _ => trivial
  | step :: steps, s, s', h, hs, hrun, hkeeps => by
    obtain ⟨s₁, hexec, hrun⟩ := Option.bind_eq_some_iff.mp hrun
    obtain ⟨hstep, hs⟩ := List.forall_mem_cons.mp hs
    refine ⟨(exec_disk h hstep hexec).2.mp fun r hr => ?_, fun s₂ hexec₂ => ?_⟩
    · exact hkeeps [] [step] ⟨steps, rfl⟩ s s₁ rfl (run_cons hexec) r hr
    · cases hexec.symm.trans hexec₂
      apply safeRun_of_neverLoses hl (exec_recoverable hl h hstep hexec) hs hrun
      intro as bs ⟨ds, hsteps⟩ s₂ s₃ hrun₂ hrun₃ r hr
      exact hkeeps (step :: as) bs ⟨ds, by rw [← hsteps]; rfl⟩ s₂ s₃
        ((run_cons hexec).trans hrun₂) hrun₃ r hr

/-- Durability across restarts: from an empty directory, a run of inserts, WAL
writes, flushes and crashes keeps every record of a WAL file on the disk in
all its states iff each of its rotations spares the file that it replaces. -/
theorem neverLoses_iff_safeRun (hl : Stores c) (hp : RecordHeap) {engine : Engine c}
    {limit count : Nat} {full : Bool} (hopen : Engine.openDir c .empty limit = .ok (engine, full))
    {steps : List Step} (hs : ∀ step ∈ steps, Flushes step) {s : System c}
    (hrun : Step.run hp (System.start engine count .empty) steps = some s) :
    NeverLoses hp (System.start engine count .empty) steps ↔
      SafeRun hp (System.start engine count .empty) steps := by
  have h : Recoverable (System.start engine count .empty) := recoverable_start hopen
  exact ⟨safeRun_of_neverLoses hl h hs hrun, neverLoses_of_safeRun hl h hs⟩

/-- An insert, its flush, and a crash before the flush ends. -/
def unfinishedFlush : List Step :=
  [.insert (oneByte 1 1 107 118), .sendFlush true, .crash 100]

theorem neverLoses_iff_safeRun_flush :
    ∃ s, Step.run (MinHeap.sortedList _ _) (System.start (freshEngine plainCode 100) 4 .empty)
        unfinishedFlush = some s ∧
      (NeverLoses (MinHeap.sortedList _ _) (System.start (freshEngine plainCode 100) 4 .empty)
          unfinishedFlush ↔
        SafeRun (MinHeap.sortedList _ _) (System.start (freshEngine plainCode 100) 4 .empty)
          unfinishedFlush) := by
  obtain ⟨s, hs⟩ := Option.isSome_iff_exists.mp
    (show (Step.run (MinHeap.sortedList _ _) (System.start (freshEngine plainCode 100) 4 .empty)
      unfinishedFlush).isSome by decide +kernel)
  exact ⟨s, hs, neverLoses_iff_safeRun lawful_plainCode.toStores _ (openDir_empty plainCode 100)
    (by simp [unfinishedFlush, Flushes]) hs⟩

/-- The flush's WAL file has the record, and the start-up flush after the crash
renames the empty active file over it. -/
theorem loses_unfinished_flush :
    Lawful plainCode ∧ (∀ step ∈ unfinishedFlush, Flushes step) ∧
      ¬ NeverLoses (MinHeap.sortedList _ _) (System.start (freshEngine plainCode 100) 4 .empty)
        unfinishedFlush := by
  refine ⟨lawful_plainCode, by simp [unfinishedFlush, Flushes], fun h => ?_⟩
  let lost := Engine.recordOf 1 (oneByte 1 1 107 118)
  have hflush : (Step.run (MinHeap.sortedList _ _) (System.start (freshEngine plainCode 100) 4 .empty)
      (unfinishedFlush.take 2)).map (fun s => s.disk.wals.elems) = some [(1, [lost])] := by
    decide +kernel
  obtain ⟨s₁, hrun₁, hwals⟩ := Option.map_eq_some_iff.mp hflush
  have hcrash : ((Step.run (MinHeap.sortedList _ _)
      (System.start (freshEngine plainCode 100) 4 .empty) (unfinishedFlush.take 2)).bind fun s =>
        Step.run (MinHeap.sortedList _ _) s (unfinishedFlush.drop 2)).map
      (fun s => (s.disk.active, s.disk.wals.elems, s.disk.ssts.elems.isEmpty)) =
        some ([], [(1, [])], true) := by
    decide +kernel
  rw [hrun₁] at hcrash
  obtain ⟨s₂, hrun₂, hdisk⟩ := Option.map_eq_some_iff.mp hcrash
  simp only [Prod.mk.injEq] at hdisk
  obtain ⟨hactive, hwals₂, hssts⟩ := hdisk
  have hin : InWal s₁.disk lost := .inr ⟨(1, [lost]), by simp [hwals], List.mem_singleton_self lost⟩
  rcases h _ _ ⟨[], rfl⟩ s₁ s₂ hrun₁ hrun₂ lost hin with (hr | ⟨p, hp, hr⟩) | ⟨p, hp, -⟩
  · simp [hactive] at hr
  · rw [hwals₂, List.mem_singleton] at hp
    subst hp
    cases hr
  · simp [List.isEmpty_iff.mp hssts] at hp

end LG.Proof.Core
