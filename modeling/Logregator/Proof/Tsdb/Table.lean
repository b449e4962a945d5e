import Logregator.Proof.Tsdb.Bounded

/-!
# What the cursors of a written table show

A cursor without bounds shows the records that were written
(`scan_written`). A cursor with bounds shows every record inside them only
if the block it starts in is the right one (`complete_iff`), and no other
record only if the blocks it enters end inside the end bound (`sound_iff`).
-/

namespace LG.Proof.Tsdb

open LG.Impl.Tsdb LG.Spec.Tsdb

/-- The loop shows every one of the records that lies within the bounds. -/
def Complete (loop : SstCursor → List Record → SstCursor → Prop) (c : SstCursor)
    (bounds : Bound Key × Bound Key) (recs : List Record) : Prop :=
  ∃ shown t, loop c shown t ∧ ∀ r ∈ recs, InBounds bounds.1 bounds.2 r → r ∈ shown

/-- The loop shows only records that lie within the bounds. -/
def Sound (loop : SstCursor → List Record → SstCursor → Prop) (c : SstCursor)
    (bounds : Bound Key × Bound Key) : Prop :=
  ∃ shown t, loop c shown t ∧ ∀ r ∈ shown, InBounds bounds.1 bounds.2 r

theorem complete_iff_of_scan {x : Externals} {h : SstHandle} {stop : SstCursor → Prop}
    {c t : SstCursor} {shown : List Record}
    (hw : Walk SstCursor.currentRecord (SstCursor.next x h) stop c shown t)
    (bounds : Bound Key × Bound Key) (recs : List Record) :
    Complete (Walk SstCursor.currentRecord (SstCursor.next x h) stop) c bounds recs ↔
      ∀ r ∈ recs, InBounds bounds.1 bounds.2 r → r ∈ shown := by
  constructor
  · intro ⟨shown', t', hw', hall⟩
    obtain ⟨rfl, -⟩ := hw.unique hw'
    exact hall
  · exact fun hall => ⟨shown, t, hw, hall⟩

theorem sound_iff_of_scan {x : Externals} {h : SstHandle} {stop : SstCursor → Prop}
    {c t : SstCursor} {shown : List Record}
    (hw : Walk SstCursor.currentRecord (SstCursor.next x h) stop c shown t)
    (bounds : Bound Key × Bound Key) :
    Sound (Walk SstCursor.currentRecord (SstCursor.next x h) stop) c bounds ↔
      ∀ r ∈ shown, InBounds bounds.1 bounds.2 r := by
  constructor
  · intro ⟨shown', t', hw', hall⟩
    obtain ⟨rfl, -⟩ := hw.unique hw'
    exact hall
  · exact fun hall => ⟨shown, t, hw, hall⟩

/-! ## Without bounds -/

theorem reach_unbounded (blocks : List (List Record)) : reach .unbounded blocks = blocks.flatten := by
  rw [reach, List.takeWhile_eq_self_iff.mpr]
  exact fun b _ => decide_eq_true fun _ _ => trivial

/-- A cursor without bounds shows the written records in order, and is
exhausted then. -/
theorem scan_written {x : Externals} {blockLimit : Option Nat} {count : Nat} {recs : List Record}
    {st : HashedWriterState} (h : writeBlocks x blockLimit count recs = .ok st)
    (id : UInt64) (tail : List UInt8) :
    ∃ c t, (st.handle id tail).cursor x none = .ok c ∧ scan x (st.handle id tail) c recs t ∧
      t.blockCursor = .error .blockCursorExhausted := by
  have hst := stored_writeBlocks h id tail
  have hflat := flatten_pack (blockLimit.getD defaultBlockSize) recs
  cases hb : pack (blockLimit.getD defaultBlockSize) recs with
  | nil => simp [pack] at hb
  | cons b bs =>
    rw [hb] at hst hflat
    have hb₀ : (b :: bs)[0]? = some b := rfl
    have hpos := List.length_pos_iff.mpr (hst.nonempty b List.mem_cons_self)
    obtain ⟨t, hw, ht⟩ := scan_sstAt hst (.unbounded, .unbounded) hb₀ 0
    obtain ⟨n, rfl⟩ := ht hpos
    rw [if_pos hpos, List.drop_zero, List.drop_succ_cons, List.drop_zero, reach_unbounded,
      ← List.flatten_cons, hflat] at hw
    refine ⟨sstAt (.unbounded, .unbounded) 0 b 0, _, ?_, hw, rfl⟩
    simp only [SstHandle.cursor, Option.getD_none, SstCursor.new, SstCursor.startBlockIdx,
      Outcome.bind_ok, hst.read hb₀, SstCursor.seekStart,
      seekToFirst_blockOf (hst.storable b List.mem_cons_self), Outcome.expect]
    rfl

/-- A record with a payload of two bytes. -/
def shortRecord (stream ts : UInt64) : Record := ⟨⟨stream, ts, 0, 0⟩, [0, 0]⟩

theorem scan_written_two_blocks :
    ∃ st, writeBlocks zeroHashes (some 0) 2 [shortRecord 1 1, shortRecord 1 2] = .ok st ∧
      ∃ c t, (st.handle 0 []).cursor zeroHashes none = .ok c ∧
        scan zeroHashes (st.handle 0 []) c [shortRecord 1 1, shortRecord 1 2] t ∧
        t.blockCursor = .error .blockCursorExhausted := by
  obtain ⟨st, hst⟩ := Outcome.isOk_iff.mp
    (show (writeBlocks zeroHashes (some 0) 2 [shortRecord 1 1, shortRecord 1 2]).isOk = true by decide)
  exact ⟨st, hst, scan_written hst 0 []⟩

/-! ## With bounds -/

section Bounds

variable {blocks : List (List Record)} {lo hi : Bound Key} {b : List Record} {j : Nat}

/-- What lies in the blocks, around the one where a cursor starts. -/
theorem mem_flatten_entry (hb : blocks[entry lo blocks]? = some b) {r : Record} :
    r ∈ blocks.flatten ↔ (∃ b' ∈ blocks.take (entry lo blocks), r ∈ b') ∨ r ∈ b ∨
      ∃ b' ∈ blocks.drop (entry lo blocks + 1), r ∈ b' := by
  obtain ⟨hlt, hget⟩ := List.getElem?_eq_some_iff.mp hb
  conv_lhs => rw [← List.take_append_drop (entry lo blocks) blocks, ← List.getElem_cons_drop hlt, hget]
  simp [List.mem_flatten]

/-- A record before a block is not in it, nor after it. -/
theorem not_mem_of_before (hasc : Ascending blocks) (hb : blocks[entry lo blocks]? = some b)
    {b' : List Record} (hb' : b' ∈ blocks.take (entry lo blocks)) {r : Record} (hr : r ∈ b') :
    r ∉ b ∧ ∀ b'' ∈ blocks.drop (entry lo blocks + 1), r ∉ b'' := by
  obtain ⟨hlt, hget⟩ := List.getElem?_eq_some_iff.mp hb
  have hacross := hasc.across
  rw [← List.take_append_drop (entry lo blocks) blocks, ← List.getElem_cons_drop hlt, hget] at hacross
  have hlt := (List.pairwise_append.mp hacross).2.2 b' hb'
  exact ⟨fun h => lt_irrefl _ (hlt b List.mem_cons_self r hr r h),
    fun b'' hb'' h => lt_irrefl _ (hlt b'' (List.mem_cons_of_mem _ hb'') r hr r h)⟩

/-- A record of the start block inside the start bound is not before the
cursor. -/
theorem mem_drop_of_startOk (hbefore : ∀ r ∈ b.take j, ¬ lo.startOk r.key) {r : Record} (hr : r ∈ b)
    (hstart : lo.startOk r.key) : r ∈ b.drop j := by
  rw [← List.take_append_drop j b, List.mem_append] at hr
  exact hr.resolve_left fun h => hbefore r h hstart

theorem lt_length_iff (hbefore : ∀ r ∈ b.take j, ¬ lo.startOk r.key)
    (hafter : ∀ r ∈ b.drop j, lo.startOk r.key) : j < b.length ↔ ∃ r ∈ b, lo.startOk r.key := by
  constructor
  · intro hj
    exact ⟨b[j], List.getElem_mem hj, hafter _ (List.getElem_cons_drop hj ▸ List.mem_cons_self)⟩
  · intro ⟨r, hr, hstart⟩
    have := mem_drop_of_startOk hbefore hr hstart
    rw [← not_le]
    exact fun hle => by simp [List.drop_eq_nil_of_le hle] at this

/-- The start block has a record inside the start bound. -/
theorem entryHolds_iff (hb : blocks[entry lo blocks]? = some b)
    (hbefore : ∀ r ∈ b.take j, ¬ lo.startOk r.key) (hafter : ∀ r ∈ b.drop j, lo.startOk r.key) :
    EntryHolds lo blocks ↔ j < b.length := by
  rw [lt_length_iff hbefore hafter, EntryHolds, hb]
  simp

variable (hasc : Ascending blocks) (hne : ∀ b ∈ blocks, b ≠ [])
  (hb : blocks[entry lo blocks]? = some b) (hbefore : ∀ r ∈ b.take j, ¬ lo.startOk r.key)
  (hafter : ∀ r ∈ b.drop j, lo.startOk r.key)
include hasc hne hb hbefore

/-- The rest of the start block and the later blocks hold every record
within the bounds, unless one lies before. -/
theorem covers_iff_nothingBefore :
    (∀ r ∈ blocks.flatten, InBounds lo hi r →
        r ∈ b.drop j ++ reach hi (blocks.drop (entry lo blocks + 1))) ↔
      NothingBefore lo hi blocks := by
  have hlater (r : Record) := mem_reach hi (r := r) (hasc.drop (entry lo blocks + 1))
    fun b hb => hne b (List.mem_of_mem_drop hb)
  constructor
  · intro hall b' hb' r hr hin
    obtain ⟨hnb, hnl⟩ := not_mem_of_before hasc hb hb' hr
    have hmem := hall r ((mem_flatten_entry hb).mpr (.inl ⟨b', hb', hr⟩)) hin
    rcases List.mem_append.mp hmem with hmem | hmem
    · exact hnb (List.mem_of_mem_drop hmem)
    · obtain ⟨b'', hb'', -, hr''⟩ := (hlater r).mp hmem
      exact hnl b'' hb'' hr''
  · intro hnone r hr hin
    rw [List.mem_append]
    rcases (mem_flatten_entry hb).mp hr with ⟨b', hb', hr⟩ | hr | ⟨b', hb', hr⟩
    · exact absurd hin (hnone b' hb' r hr)
    · exact .inl (mem_drop_of_startOk hbefore hr hin.1)
    · have hblock := (hasc.drop (entry lo blocks + 1)).block hb'
      exact .inr ((hlater r).mpr ⟨b', hb', startsIn_of_mem hblock hr hin.2, hr⟩)

include hafter

/-- What a loop shows that ends where no record is shown. -/
theorem shown_covers_iff :
    (∀ r ∈ blocks.flatten, InBounds lo hi r →
        r ∈ (if j < b.length then b.drop j ++ reach hi (blocks.drop (entry lo blocks + 1)) else [])) ↔
      NothingBefore lo hi blocks ∧ (EntryHolds lo blocks ∨ NothingAfter lo hi blocks) := by
  rw [entryHolds_iff hb hbefore hafter]
  by_cases hj : j < b.length
  · rw [if_pos hj, covers_iff_nothingBefore hasc hne hb hbefore]
    simp [hj]
  · rw [if_neg hj]
    constructor
    · intro hall
      have hnone (r : Record) (hr : r ∈ blocks.flatten) : ¬ InBounds lo hi r :=
        fun hin => absurd (hall r hr hin) List.not_mem_nil
      exact ⟨fun b' hb' r hr => hnone r ((mem_flatten_entry hb).mpr (.inl ⟨b', hb', hr⟩)),
        .inr fun b' hb' r hr => hnone r ((mem_flatten_entry hb).mpr (.inr (.inr ⟨b', hb', hr⟩)))⟩
    · intro ⟨hbef, haft⟩ r hr hin
      rcases (mem_flatten_entry hb).mp hr with ⟨b', hb', hr⟩ | hr | ⟨b', hb', hr⟩
      · exact absurd hin (hbef b' hb' r hr)
      · exact absurd ((lt_length_iff hbefore hafter).mpr ⟨r, hr, hin.1⟩) hj
      · exact absurd hin (haft.resolve_left hj b' hb' r hr)

/-- The rest of the start block and the later blocks hold only records
within the bounds. -/
theorem inside_iff :
    (∀ r ∈ b.drop j ++ reach hi (blocks.drop (entry lo blocks + 1)), InBounds lo hi r) ↔
      EntryEndsInside lo hi blocks ∧ LaterBlocks lo hi blocks (InBounds lo hi) := by
  have hlater (r : Record) := mem_reach hi (r := r) (hasc.drop (entry lo blocks + 1))
    fun b hb => hne b (List.mem_of_mem_drop hb)
  simp only [List.mem_append, or_imp, forall_and, hlater]
  refine and_congr ?_ ?_
  · rw [EntryEndsInside, hb]
    constructor
    · rintro hall _ ⟨⟩ r hr hstart
      exact (hall r (mem_drop_of_startOk hbefore hr hstart)).2
    · exact fun hall r hr => ⟨hafter r hr, hall b rfl r (List.mem_of_mem_drop hr) (hafter r hr)⟩
  · constructor
    · exact fun hall b' hb' hin r hr => hall r ⟨b', hb', hin, hr⟩
    · intro hall r ⟨b', hb', hin, hr⟩
      exact hall b' hb' hin r hr

/-- What a loop shows that ends where no record is shown. -/
theorem shown_inside_iff :
    (∀ r ∈ (if j < b.length then b.drop j ++ reach hi (blocks.drop (entry lo blocks + 1)) else []),
        InBounds lo hi r) ↔
      (EntryHolds lo blocks → EntryEndsInside lo hi blocks ∧
        LaterBlocks lo hi blocks fun r => hi.endOk r.key) := by
  rw [entryHolds_iff hb hbefore hafter]
  by_cases hj : j < b.length
  · rw [if_pos hj, inside_iff hasc hne hb hbefore hafter]
    -- A later record comes after the one the cursor stands on.
    have hstart (b' : List Record) (hb' : b' ∈ blocks.drop (entry lo blocks + 1)) (r : Record)
        (hr : r ∈ b') : lo.startOk r.key := by
      obtain ⟨q, hq, hqs⟩ := (lt_length_iff hbefore hafter).mp hj
      obtain ⟨hlt, hget⟩ := List.getElem?_eq_some_iff.mp hb
      have hacross := (hasc.drop (entry lo blocks)).across
      rw [← List.getElem_cons_drop hlt, hget] at hacross
      exact Bound.startOk_mono hqs (List.rel_of_pairwise_cons hacross hb' q hq r hr).le
    constructor
    · exact fun ⟨hentry, hlater⟩ _ => ⟨hentry, fun b' hb' hin r hr => (hlater b' hb' hin r hr).2⟩
    · intro hall
      obtain ⟨hentry, hlater⟩ := hall hj
      exact ⟨hentry, fun b' hb' hin r hr => ⟨hstart b' hb' r hr, hlater b' hb' hin r hr⟩⟩
  · simp [hj]

end Bounds

section Stored

variable {x : Externals} {h : SstHandle} {blocks : List (List Record)} (hst : Stored x h blocks)
  (hasc : Ascending blocks) {lo hi : Bound Key}
include hst hasc

/-- When a bounded cursor of a stored table misses nothing. -/
theorem stored_complete_iff (hi : Bound Key) {k : Key} (hk : lo = .included k ∨ lo = .excluded k)
    (hs : ∃ r ∈ blocks.flatten, r.key.streamId = k.streamId) :
    ∃ c, h.cursor x (some (lo, hi)) = .ok c ∧
      (Complete (scan x h) c (lo, hi) blocks.flatten ↔
        NothingBefore lo hi blocks ∧ (EntryHolds lo blocks ∨ NothingAfter lo hi blocks)) ∧
      (Complete (scanOn x h) c (lo, hi) blocks.flatten ↔ NothingBefore lo hi blocks) := by
  obtain ⟨r, hr, hrk⟩ := hs
  have hmay := hst.bloom r hr
  have hlt := (startBlock_lt_iff hasc hst.nonempty _).mpr ⟨r, hr, le_rfl⟩
  rw [hrk] at hmay hlt
  have hidx : SstCursor.startBlockIdx x h lo = .ok (entry lo blocks) := by
    rcases hk with rfl | rfl <;> exact blockIdxForStreamId_eq hst hasc hmay
  have hentry : entry lo blocks < blocks.length := by
    rcases hk with rfl | rfl <;> exact hlt
  have hb := List.getElem?_eq_getElem hentry
  obtain ⟨j, hc, hbefore, hafter⟩ := new_eq hst hasc hi hidx hb
  obtain ⟨t, hscan, -⟩ := scan_sstAt hst (lo, hi) hb j
  obtain ⟨n, hscanOn⟩ := scanOn_sstAt hst (lo, hi) hb j
  refine ⟨_, hc, ?_, ?_⟩
  · exact (complete_iff_of_scan hscan _ _).trans
      (shown_covers_iff hasc hst.nonempty hb hbefore hafter)
  · exact (complete_iff_of_scan hscanOn _ _).trans
      (covers_iff_nothingBefore hasc hst.nonempty hb hbefore)

/-- When a bounded cursor of a stored table shows nothing else. -/
theorem stored_sound_iff {c : SstCursor} (hc : h.cursor x (some (lo, hi)) = .ok c) :
    (Sound (scan x h) c (lo, hi) ↔ (EntryHolds lo blocks →
      EntryEndsInside lo hi blocks ∧ LaterBlocks lo hi blocks fun r => hi.endOk r.key)) ∧
    (Sound (scanOn x h) c (lo, hi) ↔
      EntryEndsInside lo hi blocks ∧ LaterBlocks lo hi blocks (InBounds lo hi)) := by
  obtain ⟨b, j, hb, rfl, hbefore, hafter⟩ := new_eq_ok hst hasc hc
  obtain ⟨t, hscan, -⟩ := scan_sstAt hst (lo, hi) hb j
  obtain ⟨n, hscanOn⟩ := scanOn_sstAt hst (lo, hi) hb j
  refine ⟨?_, ?_⟩
  · exact (sound_iff_of_scan hscan _).trans
      (shown_inside_iff hasc hst.nonempty hb hbefore hafter)
  · exact (sound_iff_of_scan hscanOn _).trans
      (inside_iff hasc hst.nonempty hb hbefore hafter)

end Stored

/-! ## Written tables -/

theorem ascending_pack {recs : List Record} (hasc : recs.Pairwise fun a b => a.key < b.key)
    (limit : Nat) : Ascending (pack limit recs) := by
  rw [Ascending, flatten_pack]
  exact hasc

/-- A bounded cursor of a written table misses nothing just when no record
within the bounds lies before the block where it starts and, for a loop that
ends where no record is shown, that block has a record inside the start bound
or no later one has a record within the bounds. -/
theorem bounded_cursor_complete_iff {x : Externals} {blockLimit : Option Nat} {count : Nat}
    {recs : List Record} {st : HashedWriterState}
    (h : writeBlocks x blockLimit count recs = .ok st)
    (hasc : recs.Pairwise fun a b => a.key < b.key) {lo : Bound Key} (hi : Bound Key) {k : Key}
    (hk : lo = .included k ∨ lo = .excluded k) (hs : ∃ r ∈ recs, r.key.streamId = k.streamId)
    (id : UInt64) (tail : List UInt8) :
    ∃ c, (st.handle id tail).cursor x (some (lo, hi)) = .ok c ∧
      (Complete (scan x (st.handle id tail)) c (lo, hi) recs ↔
        NothingBefore lo hi (pack (blockLimit.getD defaultBlockSize) recs) ∧
          (EntryHolds lo (pack (blockLimit.getD defaultBlockSize) recs) ∨
            NothingAfter lo hi (pack (blockLimit.getD defaultBlockSize) recs))) ∧
      (Complete (scanOn x (st.handle id tail)) c (lo, hi) recs ↔
        NothingBefore lo hi (pack (blockLimit.getD defaultBlockSize) recs)) := by
  have hiff := stored_complete_iff (stored_writeBlocks h id tail)
    (ascending_pack hasc (blockLimit.getD defaultBlockSize)) hi hk
  rw [flatten_pack] at hiff
  exact hiff hs

theorem bounded_cursor_complete_iff_two_blocks :
    ∃ st, writeBlocks zeroHashes (some 0) 2 [shortRecord 1 1, shortRecord 1 2] = .ok st ∧
      ∃ c, (st.handle 0 []).cursor zeroHashes
          (some (.included (shortRecord 1 2).key, .unbounded)) = .ok c ∧
        (Complete (scan zeroHashes (st.handle 0 [])) c (.included (shortRecord 1 2).key, .unbounded)
            [shortRecord 1 1, shortRecord 1 2] ↔
          NothingBefore (.included (shortRecord 1 2).key) .unbounded
            (pack 0 [shortRecord 1 1, shortRecord 1 2]) ∧
          (EntryHolds (.included (shortRecord 1 2).key) (pack 0 [shortRecord 1 1, shortRecord 1 2]) ∨
            NothingAfter (.included (shortRecord 1 2).key) .unbounded
              (pack 0 [shortRecord 1 1, shortRecord 1 2]))) := by
  obtain ⟨st, hst⟩ := Outcome.isOk_iff.mp
    (show (writeBlocks zeroHashes (some 0) 2 [shortRecord 1 1, shortRecord 1 2]).isOk = true by decide)
  obtain ⟨c, hc, hiff, -⟩ := bounded_cursor_complete_iff hst (by decide) .unbounded (.inl rfl)
    ⟨shortRecord 1 2, by decide, rfl⟩ 0 []
  exact ⟨st, hst, c, hc, hiff⟩

/-- Two records of one stream in two blocks: the cursor from the first record
on starts in the second block and misses it. -/
theorem bounded_cursor_misses_first_block :
    [shortRecord 1 1, shortRecord 1 2].Pairwise (fun a b => a.key < b.key) ∧
    ∃ st c, writeBlocks zeroHashes (some 0) 2 [shortRecord 1 1, shortRecord 1 2] = .ok st ∧
      (st.handle 0 []).cursor zeroHashes
        (some (.included (shortRecord 1 1).key, .unbounded)) = .ok c ∧
      ¬ Complete (scan zeroHashes (st.handle 0 [])) c (.included (shortRecord 1 1).key, .unbounded)
        [shortRecord 1 1, shortRecord 1 2] ∧
      ¬ Complete (scanOn zeroHashes (st.handle 0 [])) c (.included (shortRecord 1 1).key, .unbounded)
        [shortRecord 1 1, shortRecord 1 2] := by
  have hasc : [shortRecord 1 1, shortRecord 1 2].Pairwise (fun a b => a.key < b.key) := by decide
  obtain ⟨st, hst⟩ := Outcome.isOk_iff.mp
    (show (writeBlocks zeroHashes (some 0) 2 [shortRecord 1 1, shortRecord 1 2]).isOk = true by decide)
  have hbefore : ¬ NothingBefore (.included (shortRecord 1 1).key) .unbounded
      (pack 0 [shortRecord 1 1, shortRecord 1 2]) := fun hnone =>
    hnone [shortRecord 1 1] (by decide) (shortRecord 1 1) (by decide) ⟨le_rfl, trivial⟩
  obtain ⟨c, hc, hscan, hscanOn⟩ := stored_complete_iff (stored_writeBlocks hst 0 [])
    (ascending_pack hasc 0) .unbounded (.inl rfl) ⟨shortRecord 1 1, by decide, rfl⟩
  rw [Option.getD_some, flatten_pack] at hscan hscanOn
  exact ⟨hasc, st, c, hst, hc, fun h => hbefore (hscan.mp h).1, fun h => hbefore (hscanOn.mp h)⟩

/-- A bounded cursor of a written table shows nothing outside its bounds just
when the block where it starts, from the start bound on, and the later blocks
that start inside the end bound hold no such record. -/
theorem bounded_cursor_sound_iff {x : Externals} {blockLimit : Option Nat} {count : Nat}
    {recs : List Record} {st : HashedWriterState}
    (h : writeBlocks x blockLimit count recs = .ok st)
    (hasc : recs.Pairwise fun a b => a.key < b.key) {lo hi : Bound Key} {c : SstCursor}
    (id : UInt64) (tail : List UInt8)
    (hc : (st.handle id tail).cursor x (some (lo, hi)) = .ok c) :
    (Sound (scan x (st.handle id tail)) c (lo, hi) ↔
      (EntryHolds lo (pack (blockLimit.getD defaultBlockSize) recs) →
        EntryEndsInside lo hi (pack (blockLimit.getD defaultBlockSize) recs) ∧
        LaterBlocks lo hi (pack (blockLimit.getD defaultBlockSize) recs) fun r => hi.endOk r.key)) ∧
    (Sound (scanOn x (st.handle id tail)) c (lo, hi) ↔
      EntryEndsInside lo hi (pack (blockLimit.getD defaultBlockSize) recs) ∧
      LaterBlocks lo hi (pack (blockLimit.getD defaultBlockSize) recs) (InBounds lo hi)) :=
  stored_sound_iff (stored_writeBlocks h id tail)
    (ascending_pack hasc (blockLimit.getD defaultBlockSize)) hc

theorem bounded_cursor_sound_iff_one_block :
    ∃ st c, writeBlocks zeroHashes none 2 [shortRecord 1 1, shortRecord 1 2] = .ok st ∧
      (st.handle 0 []).cursor zeroHashes
        (some (.included (shortRecord 1 2).key, .included (shortRecord 1 2).key)) = .ok c ∧
      (Sound (scanOn zeroHashes (st.handle 0 [])) c
          (.included (shortRecord 1 2).key, .included (shortRecord 1 2).key) ↔
        EntryEndsInside (.included (shortRecord 1 2).key) (.included (shortRecord 1 2).key)
          (pack defaultBlockSize [shortRecord 1 1, shortRecord 1 2]) ∧
        LaterBlocks (.included (shortRecord 1 2).key) (.included (shortRecord 1 2).key)
          (pack defaultBlockSize [shortRecord 1 1, shortRecord 1 2])
          (InBounds (.included (shortRecord 1 2).key) (.included (shortRecord 1 2).key))) := by
  obtain ⟨st, hst⟩ := Outcome.isOk_iff.mp
    (show (writeBlocks zeroHashes none 2 [shortRecord 1 1, shortRecord 1 2]).isOk = true by
      decide +kernel)
  have hasc : [shortRecord 1 1, shortRecord 1 2].Pairwise (fun a b => a.key < b.key) := by decide
  obtain ⟨c, hc, -⟩ := stored_complete_iff (stored_writeBlocks hst 0 [])
    (ascending_pack hasc defaultBlockSize) (.included (shortRecord 1 2).key) (.inl rfl)
    ⟨shortRecord 1 2, by decide, rfl⟩
  exact ⟨st, c, hst, hc, (bounded_cursor_sound_iff hst hasc 0 [] hc).2⟩

/-- Two records in one block: the cursor for the first record alone shows the
second one too. -/
theorem bounded_cursor_shows_past_end :
    [shortRecord 1 1, shortRecord 1 2].Pairwise (fun a b => a.key < b.key) ∧
    ∃ st c, writeBlocks zeroHashes none 2 [shortRecord 1 1, shortRecord 1 2] = .ok st ∧
      (st.handle 0 []).cursor zeroHashes
        (some (.included (shortRecord 1 1).key, .included (shortRecord 1 1).key)) = .ok c ∧
      ¬ Sound (scan zeroHashes (st.handle 0 [])) c
        (.included (shortRecord 1 1).key, .included (shortRecord 1 1).key) ∧
      ¬ Sound (scanOn zeroHashes (st.handle 0 [])) c
        (.included (shortRecord 1 1).key, .included (shortRecord 1 1).key) := by
  have hasc : [shortRecord 1 1, shortRecord 1 2].Pairwise (fun a b => a.key < b.key) := by decide
  obtain ⟨st, hst⟩ := Outcome.isOk_iff.mp
    (show (writeBlocks zeroHashes none 2 [shortRecord 1 1, shortRecord 1 2]).isOk = true by
      decide +kernel)
  have hpack : pack defaultBlockSize [shortRecord 1 1, shortRecord 1 2] =
      [[shortRecord 1 1, shortRecord 1 2]] := by decide
  have hstored := stored_writeBlocks hst 0 []
  rw [Option.getD_none, hpack] at hstored
  have hblocks : Ascending [[shortRecord 1 1, shortRecord 1 2]] := hasc
  have hentry : entry (.included (shortRecord 1 1).key) [[shortRecord 1 1, shortRecord 1 2]] = 0 := by
    decide
  have hends : ¬ EntryEndsInside (.included (shortRecord 1 1).key) (.included (shortRecord 1 1).key)
      [[shortRecord 1 1, shortRecord 1 2]] := by
    rw [EntryEndsInside, hentry]
    intro hall
    exact absurd (hall _ rfl (shortRecord 1 2) (by decide) (show _ ≤ _ by decide))
      (show ¬ _ ≤ _ by decide)
  obtain ⟨c, hc, -⟩ := stored_complete_iff hstored hblocks (.included (shortRecord 1 1).key) (.inl rfl)
    ⟨shortRecord 1 1, by decide, rfl⟩
  obtain ⟨hscan, hscanOn⟩ := stored_sound_iff hstored hblocks hc
  refine ⟨hasc, st, c, hst, hc, fun h => hends (hscan.mp h ?_).1, fun h => hends (hscanOn.mp h).1⟩
  rw [EntryHolds, hentry]
  exact ⟨_, rfl, shortRecord 1 1, by decide, show _ ≤ _ by decide⟩

end LG.Proof.Tsdb
