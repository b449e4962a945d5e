import Mathlib.Data.List.Infix

/-!
# Buffered writers

A `std::io::BufWriter` over a file whose writes succeed. It holds writes back
as long as they fit its buffer: when one does not, what is held is written, and
a write that is as long as the buffer goes past it. So the file always ends
where a write ended (`Cut`); `writeEach_held` and `writeAll_flushes` say which
one.
-/

namespace LG

/-- `BufWriter`: the file, and what is held back. -/
structure BufWriter (α : Type) (capacity : Nat) where
  inner : List α
  buf : List α
  fits : buf.length ≤ capacity

namespace BufWriter

variable {α : Type} {capacity : Nat}

/-- A writer over a file that has something. -/
def ofFile (file : List α) : BufWriter α capacity := ⟨file, [], Nat.zero_le _⟩

/-- `BufWriter::spare_capacity`. -/
def spareCapacity (w : BufWriter α capacity) : Nat := capacity - w.buf.length

/-- `BufWriter::flush_buf`. -/
def flushBuf (w : BufWriter α capacity) : BufWriter α capacity :=
  ⟨w.inner ++ w.buf, [], Nat.zero_le _⟩

/-- The first part of `write_all_cold`: room for a write. -/
def makeRoom (w : BufWriter α capacity) (n : Nat) : BufWriter α capacity :=
  if w.spareCapacity < n then w.flushBuf else w

theorem length_makeRoom (w : BufWriter α capacity) {n : Nat} (h : n < capacity) :
    (w.makeRoom n).buf.length + n ≤ capacity := by
  rw [makeRoom]
  split
  · show 0 + n ≤ capacity
    omega
  · have := w.fits
    rw [spareCapacity] at *
    omega

/-- `BufWriter::write_all`. -/
def writeAll (w : BufWriter α capacity) (bs : List α) : BufWriter α capacity :=
  if h : bs.length < w.spareCapacity then
    ⟨w.inner, w.buf ++ bs, by
      rw [spareCapacity] at h
      rw [List.length_append]
      omega⟩
  else
    -- write_all_cold
    let w := w.makeRoom bs.length
    if h : capacity ≤ bs.length then ⟨w.inner ++ bs, w.buf, w.fits⟩
    else ⟨w.inner, w.buf ++ bs, by
      rw [List.length_append]
      exact length_makeRoom _ (Nat.lt_of_not_le h)⟩

/-- Writes, one after the other. -/
def writeEach (w : BufWriter α capacity) (writes : List (List α)) : BufWriter α capacity :=
  writes.foldl writeAll w

/-! ## Where the file ends -/

/-- The writes that are in the file, and those that are held back. -/
structure Cut (w : BufWriter α capacity) (written held : List (List α)) : Prop where
  inner : w.inner = written.flatten
  buf : w.buf = held.flatten

theorem writeAll_inner_buf (w : BufWriter α capacity) (bs : List α) :
    ((w.writeAll bs).inner = w.inner ∧ (w.writeAll bs).buf = w.buf ++ bs) ∨
      ((w.writeAll bs).inner = w.inner ++ w.buf ∧ (w.writeAll bs).buf = bs) ∨
      ((w.writeAll bs).inner = w.inner ++ w.buf ++ bs ∧ (w.writeAll bs).buf = []) := by
  rw [writeAll]
  split
  · exact .inl ⟨rfl, rfl⟩
  by_cases hroom : w.spareCapacity < bs.length
  · simp only [makeRoom, if_pos hroom]
    split
    · exact .inr (.inr ⟨rfl, rfl⟩)
    · exact .inr (.inl ⟨rfl, rfl⟩)
  · simp only [makeRoom, if_neg hroom]
    split
    · -- A write that goes past the buffer is not made over what is held.
      have hnil : w.buf = [] := by
        rw [spareCapacity] at hroom
        exact List.eq_nil_of_length_eq_zero (by have := w.fits; omega)
      refine .inr (.inr ⟨?_, hnil⟩)
      show w.inner ++ bs = w.inner ++ w.buf ++ bs
      rw [hnil, List.append_nil]
    · exact .inl ⟨rfl, rfl⟩

theorem cut_ofFile (file : List (List α)) :
    Cut (ofFile file.flatten : BufWriter α capacity) file [] := ⟨rfl, rfl⟩

variable {w : BufWriter α capacity} {written held : List (List α)}

theorem Cut.writeAll (h : Cut w written held) (bs : List α) :
    ∃ n, Cut (w.writeAll bs) (written ++ (held ++ [bs]).take n) ((held ++ [bs]).drop n) := by
  rcases writeAll_inner_buf w bs with ⟨hinner, hbuf⟩ | ⟨hinner, hbuf⟩ | ⟨hinner, hbuf⟩
  · refine ⟨0, ?_, ?_⟩
    · rw [hinner, h.inner, List.take_zero, List.append_nil]
    · rw [hbuf, h.buf, List.drop_zero, List.flatten_append, List.flatten_singleton]
  · refine ⟨held.length, ?_, ?_⟩
    · rw [hinner, h.inner, h.buf, List.take_left, List.flatten_append]
    · rw [hbuf, List.drop_left, List.flatten_singleton]
  · refine ⟨held.length + 1, ?_, ?_⟩
    · rw [hinner, h.inner, h.buf, List.take_of_length_le (by simp), List.flatten_append,
        List.flatten_append, List.flatten_singleton, List.append_assoc]
    · rw [hbuf, List.drop_of_length_le (by simp), List.flatten_nil]

/-- Wherever writes end in the file, they end where one of them does. -/
theorem Cut.writeEach (h : Cut w written held) (writes : List (List α)) :
    ∃ n, Cut (w.writeEach writes) (written ++ (held ++ writes).take n)
      ((held ++ writes).drop n) := by
  induction writes generalizing w written held with
  | nil =>
    refine ⟨0, ?_⟩
    rw [List.take_zero, List.append_nil, List.append_nil]
    exact h
  | cons bs writes ih =>
    obtain ⟨m, hm⟩ := h.writeAll bs
    obtain ⟨n, hn⟩ := ih hm
    have hsplit : (held ++ [bs]).take m ++ ((held ++ [bs]).drop m ++ writes) =
        held ++ bs :: writes := by
      rw [← List.append_assoc, List.take_append_drop, List.append_assoc]
      rfl
    refine ⟨((held ++ [bs]).take m).length + n, ?_⟩
    rw [← hsplit, List.take_length_add_append, List.drop_length_add_append, ← List.append_assoc]
    exact hn

/-- A write that fits is held back. -/
theorem writeAll_held {bs : List α} (hfits : w.buf.length + bs.length ≤ capacity)
    (hlt : bs.length < capacity) :
    (w.writeAll bs).inner = w.inner ∧ (w.writeAll bs).buf = w.buf ++ bs := by
  have hroom : ¬ w.spareCapacity < bs.length := by
    rw [spareCapacity]
    omega
  rw [writeAll]
  split
  · exact ⟨rfl, rfl⟩
  · simp only [makeRoom, if_neg hroom]
    rw [dif_neg (Nat.not_le_of_lt hlt)]
    exact ⟨rfl, rfl⟩

/-- A write that does not fit has all before it written. -/
theorem writeAll_flushes {bs : List α} (hover : capacity < w.buf.length + bs.length)
    (hlt : bs.length < capacity) : (w.writeAll bs).inner = w.inner ++ w.buf := by
  have hroom : w.spareCapacity < bs.length := by
    have := w.fits
    rw [spareCapacity]
    omega
  rw [writeAll, dif_neg (Nat.lt_asymm hroom)]
  simp only [makeRoom, if_pos hroom]
  rw [dif_neg (Nat.not_le_of_lt hlt)]
  rfl

theorem writeEach_held (writes : List (List α))
    (hfits : w.buf.length + writes.flatten.length ≤ capacity)
    (hlt : ∀ bs ∈ writes, bs.length < capacity) :
    (w.writeEach writes).inner = w.inner ∧ (w.writeEach writes).buf = w.buf ++ writes.flatten := by
  induction writes generalizing w with
  | nil => exact ⟨rfl, (List.append_nil _).symm⟩
  | cons bs writes ih =>
    rw [List.flatten_cons, List.length_append] at hfits
    obtain ⟨hbs, hlt⟩ := List.forall_mem_cons.mp hlt
    obtain ⟨hinner, hbuf⟩ := writeAll_held (w := w) (by omega) hbs
    rw [← hinner, List.flatten_cons, ← List.append_assoc, ← hbuf]
    refine ih ?_ hlt
    rw [hbuf, List.length_append]
    omega

end BufWriter

end LG
