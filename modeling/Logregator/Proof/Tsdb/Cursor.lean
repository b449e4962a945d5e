import Logregator.Framework.Iter
import Logregator.Proof.Tsdb.Sst

/-!
# Cursors over a stored table

A cursor over a table that holds `blocks` stands on record `j` of block `i`
(`sstAt`); a step goes on in the block, or enters the next block if that
starts inside the end bound, or exhausts the cursor (`next_inside`,
`next_block`). Iterating it shows the rest of its block and then what the
later blocks `reach` (`walk_sstAt`).

The repository iterates a cursor `while let Some(rec) = current_record()`
(`scan`). `scanOn` is the loop that goes on past a missing record and ends
only at an error, which is how a cursor reports that it is exhausted.
-/

namespace LG.Proof.Tsdb

open LG.Impl.Tsdb LG.Spec.Tsdb

/-- The cursor shows no record. -/
def Blank (c : SstCursor) : Prop := c.currentRecord = none

/-- The cursor is in error. -/
def Failed (c : SstCursor) : Prop := c.isError = true

/-- Iterating `while let Some(rec) = cursor.current_record()`. -/
def scan (x : Externals) (h : SstHandle) : SstCursor → List Record → SstCursor → Prop :=
  Walk SstCursor.currentRecord (SstCursor.next x h) Blank

/-- Iterating until the cursor is in error. -/
def scanOn (x : Externals) (h : SstHandle) : SstCursor → List Record → SstCursor → Prop :=
  Walk SstCursor.currentRecord (SstCursor.next x h) Failed

/-- The cursor on record `j` of the block `b` at `i`. -/
def sstAt (bounds : Bound Key × Bound Key) (i : Nat) (b : List Record) (j : Nat) : SstCursor :=
  { blockCursor := .ok (cursorAt b j), blockIdx := i, startBound := bounds.1, endBound := bounds.2 }

/-- The cursor that ran out of blocks at `i`. -/
def exhaustedAt (bounds : Bound Key × Bound Key) (i : Nat) : SstCursor :=
  { blockCursor := .error .blockCursorExhausted, blockIdx := i
    startBound := bounds.1, endBound := bounds.2 }

theorem currentRecord_sstAt (bounds : Bound Key × Bound Key) (i : Nat) (b : List Record) (j : Nat) :
    (sstAt bounds i b j).currentRecord = b[j]? := rfl

theorem not_blank_sstAt {bounds : Bound Key × Bound Key} {i : Nat} {b : List Record} {j : Nat}
    (hj : j < b.length) : ¬ Blank (sstAt bounds i b j) := by
  rw [Blank, currentRecord_sstAt, List.getElem?_eq_getElem hj]
  simp

theorem not_failed_sstAt (bounds : Bound Key × Bound Key) (i : Nat) (b : List Record) (j : Nat) :
    ¬ Failed (sstAt bounds i b j) := Bool.false_ne_true

section

variable {x : Externals} {h : SstHandle} {blocks : List (List Record)} (hst : Stored x h blocks)
  {bounds : Bound Key × Bound Key} {i : Nat} {b : List Record}
include hst

/-! ## Steps -/

theorem next_inside (hb : blocks[i]? = some b) {j : Nat} (hj : j + 1 < b.length) :
    (sstAt bounds i b j).next x h = some (sstAt bounds i b (j + 1)) := by
  have hs := hst.storable b (List.mem_of_getElem? hb)
  have hrec : (cursorAt b (j + 1)).record = .ok (some b[j + 1]) := by
    rw [cursorAt, List.getElem?_eq_getElem hj]
  simp only [SstCursor.next, sstAt, next_cursorAt hs, Option.bind_eq_bind, Option.bind_some, hrec]
  rfl

theorem nextBlockMayBeInBounds_eq (c : SstCursor) : c.nextBlockMayBeInBounds h =
    match blocks[c.blockIdx]? with
    | some b => decide (StartsIn c.endBound b)
    | none => false := by
  unfold SstCursor.nextBlockMayBeInBounds
  cases hb : blocks[c.blockIdx]? with
  | none =>
    have : h.blockMetadata[c.blockIdx]? = none := by
      rw [List.getElem?_eq_none_iff, hst.metas.length_eq]
      exact List.getElem?_eq_none_iff.mp hb
    rw [this]
  | some b =>
    obtain ⟨hlt, rfl⟩ := List.getElem?_eq_some_iff.mp hb
    have hlt' : c.blockIdx < h.blockMetadata.length := by rwa [hst.metas.length_eq]
    have hm := (List.forall₂_iff_get.mp hst.metas).2 c.blockIdx hlt' hlt
    obtain ⟨r, hr, hk⟩ := Option.map_eq_some_iff.mp hm.first
    simp only [List.get_eq_getElem] at hr hk
    rw [List.getElem?_eq_getElem hlt']
    simp [StartsIn, hr, hk]

theorem updateCurrent_sst (hb : blocks[i]? = some b) {c : SstCursor} (hi : c.blockIdx = i) :
    c.updateCurrent x h = some { c with blockCursor := .ok (cursorAt b 0) } := by
  have hlt : ¬ h.blockMetadata.length ≤ c.blockIdx := by
    rw [hst.metas.length_eq, hi, not_le]
    exact (List.getElem?_eq_some_iff.mp hb).1
  rw [SstCursor.updateCurrent, if_neg hlt, hi, hst.read hb]
  simp [seekToFirst_blockOf (hst.storable b (List.mem_of_getElem? hb))]

/-- Where a cursor goes after block `i`. -/
def afterBlock (blocks : List (List Record)) (bounds : Bound Key × Bound Key) (i : Nat) : SstCursor :=
  match blocks[i + 1]? with
  | some b => if StartsIn bounds.2 b then sstAt bounds (i + 1) b 0 else exhaustedAt bounds (i + 1)
  | none => exhaustedAt bounds (i + 1)

/-- A step from the end of a block, or from past its end. -/
theorem next_block (hb : blocks[i]? = some b) {j : Nat} (hj : b.length ≤ j + 1) :
    (sstAt bounds i b j).next x h = some (afterBlock blocks bounds i) := by
  have hs := hst.storable b (List.mem_of_getElem? hb)
  have hrec : (cursorAt b (j + 1)).record = .ok none := by
    rw [cursorAt, List.getElem?_eq_none hj]
  simp only [SstCursor.next, sstAt, next_cursorAt hs, Option.bind_eq_bind, Option.bind_some, hrec]
  rw [SstCursor.enterNextBlock, nextBlockMayBeInBounds_eq hst, afterBlock]
  simp only
  cases hb' : blocks[i + 1]? with
  | none => rfl
  | some b' =>
    by_cases hin : StartsIn bounds.2 b'
    · simp only [if_pos hin, if_pos (decide_eq_true hin)]
      rw [updateCurrent_sst hst hb' rfl]
      rfl
    · simp only [if_neg hin, decide_eq_true_eq]
      rfl

/-! ## Walks -/

section Walks

variable {stop : SstCursor → Prop}
  (hgo : ∀ {i b j}, j < b.length → ¬ stop (sstAt bounds i b j))
include hgo

/-- Iterating shows the rest of the block, and then what comes after it. -/
theorem walk_block (hb : blocks[i]? = some b) {as : List Record} {t : SstCursor}
    (hw : Walk SstCursor.currentRecord (SstCursor.next x h) stop (afterBlock blocks bounds i) as t) :
    ∀ {n j : Nat}, b.length = j + n + 1 →
      Walk SstCursor.currentRecord (SstCursor.next x h) stop (sstAt bounds i b j) (b.drop j ++ as) t
  | 0, j, hn => by
    have hj : j < b.length := by omega
    rw [← List.getElem_cons_drop hj, List.drop_eq_nil_of_le (by omega)]
    exact .cons (hgo hj) (List.getElem?_eq_getElem hj) (next_block hst hb (by omega)) hw
  | n + 1, j, hn => by
    have hj : j < b.length := by omega
    rw [← List.getElem_cons_drop hj]
    exact .cons (hgo hj) (List.getElem?_eq_getElem hj) (next_inside hst hb (by omega))
      (walk_block hb hw (n := n) (by omega))

variable (hend : ∀ i, stop (exhaustedAt bounds i))
include hend

/-- Iterating on after block `i` shows what the later blocks reach. -/
theorem walk_after : ∀ {n i : Nat}, blocks.length ≤ i + n → ∃ m,
    Walk SstCursor.currentRecord (SstCursor.next x h) stop (afterBlock blocks bounds i)
      (reach bounds.2 (blocks.drop (i + 1))) (exhaustedAt bounds m)
  | 0, i, hn => by
    rw [afterBlock, List.getElem?_eq_none (by omega), List.drop_eq_nil_of_le (by omega)]
    exact ⟨_, .done (hend _)⟩
  | n + 1, i, hn => by
    unfold afterBlock
    cases hb : blocks[i + 1]? with
    | none =>
      rw [List.drop_eq_nil_of_le (List.getElem?_eq_none_iff.mp hb)]
      exact ⟨_, .done (hend _)⟩
    | some b =>
      obtain ⟨hlt, hget⟩ := List.getElem?_eq_some_iff.mp hb
      rw [← List.getElem_cons_drop hlt, hget, reach, List.takeWhile_cons]
      by_cases hin : StartsIn bounds.2 b
      · obtain ⟨m, hw⟩ := walk_after (n := n) (i := i + 1) (by omega)
        have hpos := List.length_pos_iff.mpr (hst.nonempty b (List.mem_of_getElem? hb))
        simp only [if_pos hin, decide_eq_true hin, List.flatten_cons, if_true]
        exact ⟨m, walk_block hst hgo hb hw (n := b.length - 1) (j := 0) (by omega)⟩
      · simp only [if_neg hin, decide_eq_true_eq]
        exact ⟨_, .done (hend _)⟩

/-- Iterating from a record of a block. -/
theorem walk_sstAt (hb : blocks[i]? = some b) {j : Nat} (hj : j < b.length) :
    ∃ m, Walk SstCursor.currentRecord (SstCursor.next x h) stop (sstAt bounds i b j)
      (b.drop j ++ reach bounds.2 (blocks.drop (i + 1))) (exhaustedAt bounds m) := by
  obtain ⟨m, hw⟩ := walk_after hst hgo hend (n := blocks.length) (i := i) (by omega)
  exact ⟨m, walk_block hst hgo hb hw (n := b.length - j - 1) (by omega)⟩

end Walks

/-- What the repository's loop shows. -/
theorem scan_sstAt (bounds : Bound Key × Bound Key) (hb : blocks[i]? = some b) (j : Nat) :
    ∃ t, scan x h (sstAt bounds i b j)
        (if j < b.length then b.drop j ++ reach bounds.2 (blocks.drop (i + 1)) else []) t ∧
      (j < b.length → ∃ n, t = exhaustedAt bounds n) := by
  by_cases hj : j < b.length
  · rw [if_pos hj]
    obtain ⟨m, hw⟩ := walk_sstAt hst not_blank_sstAt (fun _ => rfl) hb hj
    exact ⟨_, hw, fun _ => ⟨m, rfl⟩⟩
  · rw [if_neg hj]
    exact ⟨_, .done (List.getElem?_eq_none (by omega)), fun h => absurd h hj⟩

/-- What iterating until an error shows. -/
theorem scanOn_sstAt (bounds : Bound Key × Bound Key) (hb : blocks[i]? = some b) (j : Nat) :
    ∃ n, scanOn x h (sstAt bounds i b j) (b.drop j ++ reach bounds.2 (blocks.drop (i + 1)))
      (exhaustedAt bounds n) := by
  have hgo {i : Nat} {b : List Record} {j : Nat} (_ : j < b.length) := not_failed_sstAt bounds i b j
  have hend (i : Nat) : Failed (exhaustedAt bounds i) := rfl
  by_cases hj : j < b.length
  · exact walk_sstAt hst hgo hend hb hj
  · obtain ⟨m, hw⟩ := walk_after hst hgo hend (n := blocks.length) (i := i) (by omega)
    rw [List.drop_eq_nil_of_le (by omega), List.nil_append]
    exact ⟨m, .skip (not_failed_sstAt bounds i b j) (List.getElem?_eq_none (by omega))
      (next_block hst hb (by omega)) hw⟩

end

end LG.Proof.Tsdb
