import Mathlib.Data.List.Basic

/-!
# Reading from a source that gives what it likes

A `ByteSource` has some bytes left, and gives them in reads that may be shorter
than asked for. `BufReader` reads ahead into a buffer of its own, as
`std::io::BufReader` does. What both give is the same bytes, in the same order
(`unread`): a read takes bytes off the front, as few as one, and none only at
the end (`BufReader.read_spec`). Where reads may fail, the bytes that can be had
are those before the first failure (`ahead`).
-/

namespace LG

theorem take_ne_nil {bs : List UInt8} {n : Nat} (hn : 0 < n) (h : bs ≠ []) : bs.take n ≠ [] := by
  intro he
  rcases List.take_eq_nil_iff.mp he with he | he
  · omega
  · exact h he

/-- A byte source: the bytes left, and what its next reads do: fail (`none`),
or give no more than `k + 1` bytes (`some k`). -/
structure ByteSource where
  rest : List UInt8
  gives : List (Option Nat)
  deriving DecidableEq

namespace ByteSource

/-- `Read::read` into a buffer of `n` bytes; `none` is an error. -/
def read (s : ByteSource) (n : Nat) : Option (List UInt8) × ByteSource :=
  match s.gives with
  | [] => (some (s.rest.take n), { s with rest := s.rest.drop n })
  | none :: gives => (none, { s with gives := gives })
  | some k :: gives =>
    (some (s.rest.take (min (k + 1) n)), { rest := s.rest.drop (min (k + 1) n), gives := gives })

/-- No read fails. -/
def Reliable (s : ByteSource) : Prop := ∀ g ∈ s.gives, g ≠ none

theorem reliable_map_some (bs : List UInt8) (gives : List Nat) :
    Reliable { rest := bs, gives := gives.map some } := by
  simp [Reliable]

theorem read_spec {s : ByteSource} (hs : s.Reliable) (n : Nat) : ∃ bs s', s.read n = (some bs, s') ∧
    s.rest = bs ++ s'.rest ∧ bs.length ≤ n ∧ (0 < n → s.rest ≠ [] → bs ≠ []) ∧ s'.Reliable := by
  obtain ⟨rest, gives⟩ := s
  rcases gives with _ | ⟨_ | k, gives⟩
  · exact ⟨_, _, rfl, (List.take_append_drop n rest).symm, List.length_take_le n _, take_ne_nil, hs⟩
  · exact absurd rfl (hs none List.mem_cons_self)
  · refine ⟨_, _, rfl, (List.take_append_drop _ rest).symm, ?_, fun hn => take_ne_nil (by omega), ?_⟩
    · rw [List.length_take]
      omega
    · exact fun g hg => hs g (List.mem_cons_of_mem _ hg)

/-- The bytes that come in reads of `n` bytes, until there are none left or a
read fails, which is the second component. -/
def aheadOf (n : Nat) : List (Option Nat) → List UInt8 → List UInt8 × Bool
  | [], rest => (rest, false)
  | none :: _, _ => ([], true)
  | some k :: gives, rest =>
    if rest = [] then ([], false)
    else (aheadOf n gives (rest.drop (min (k + 1) n))).map (rest.take (min (k + 1) n) ++ ·) id

/-- The bytes that a source gives in reads of `n` bytes, and whether it fails
after them, before it has come to its end. -/
def ahead (n : Nat) (s : ByteSource) : List UInt8 × Bool := aheadOf n s.gives s.rest

/-- A source that does not fail gives all its bytes. -/
theorem ahead_map_some (n : Nat) (bs : List UInt8) (gives : List Nat) :
    ahead n { rest := bs, gives := gives.map some } = (bs, false) := by
  show aheadOf n (gives.map some) bs = (bs, false)
  induction gives generalizing bs with
  | nil => rfl
  | cons k gives ih =>
    rw [List.map_cons, aheadOf]
    split
    · rename_i hnil
      rw [hnil]
    · rw [ih]
      simp

/-- The three ways in which a read ends: it fails, there is nothing left, or it
gives bytes. -/
theorem read_ahead (s : ByteSource) {n : Nat} (hn : 0 < n) :
    (∃ s', s.read n = (none, s') ∧ s.ahead n = ([], true)) ∨
    (∃ s', s.read n = (some [], s') ∧ s.ahead n = ([], false)) ∨
    ∃ bs s', s.read n = (some bs, s') ∧ bs ≠ [] ∧ bs.length ≤ n ∧ s.rest = bs ++ s'.rest ∧
      s.ahead n = (bs ++ (s'.ahead n).1, (s'.ahead n).2) := by
  obtain ⟨rest, gives⟩ := s
  rcases gives with _ | ⟨_ | k, gives⟩
  · by_cases hrest : rest = []
    · refine .inr (.inl ⟨{ rest := rest.drop n, gives := [] }, ?_, ?_⟩)
      · simp [read, hrest]
      · rw [ahead, aheadOf, hrest]
    · refine .inr (.inr ⟨rest.take n, _, rfl, take_ne_nil hn hrest, List.length_take_le n rest,
        (List.take_append_drop n rest).symm, ?_⟩)
      simp only [ahead, aheadOf, List.take_append_drop]
  · exact .inl ⟨_, rfl, rfl⟩
  · by_cases hrest : rest = []
    · refine .inr (.inl ⟨{ rest := rest.drop (min (k + 1) n), gives := gives }, ?_, ?_⟩)
      · simp [read, hrest]
      · exact if_pos hrest
    · refine .inr (.inr ⟨rest.take (min (k + 1) n), _, rfl, take_ne_nil (by omega) hrest, ?_,
        (List.take_append_drop _ rest).symm, if_neg hrest⟩)
      rw [List.length_take]
      omega

end ByteSource

/-- `std::io::BufReader`: the bytes read ahead are in `buf`. -/
structure BufReader where
  inner : ByteSource
  buf : List UInt8
  deriving DecidableEq

namespace BufReader

/-- The default capacity of a `BufReader`. -/
def capacity : Nat := 8 * 1024

def new (inner : ByteSource) : BufReader := { inner := inner, buf := [] }

/-- `BufReader::read`: a large read with nothing read ahead goes to the source
directly. -/
def read (b : BufReader) (n : Nat) : Option (List UInt8) × BufReader :=
  if b.buf = [] then
    if capacity ≤ n then
      let (bs, inner) := b.inner.read n
      (bs, { b with inner := inner })
    else
      let (bs, inner) := b.inner.read capacity
      (bs.map (List.take n), { inner := inner, buf := (bs.getD []).drop n })
  else (some (b.buf.take n), { b with buf := b.buf.drop n })

/-- What is left to read. -/
def unread (b : BufReader) : List UInt8 := b.buf ++ b.inner.rest

/-- No read fails. -/
def Reliable (b : BufReader) : Prop := b.inner.Reliable

/-- A read takes bytes off the front. -/
theorem read_spec {b : BufReader} (hb : b.Reliable) (n : Nat) : ∃ bs b', b.read n = (some bs, b') ∧
    b.unread = bs ++ b'.unread ∧ bs.length ≤ n ∧ (0 < n → b.unread ≠ [] → bs ≠ []) ∧
    b'.Reliable := by
  by_cases hbuf : b.buf = []
  · have hunread : b.unread = b.inner.rest := by rw [unread, hbuf, List.nil_append]
    rw [read, if_pos hbuf, hunread]
    by_cases hn : capacity ≤ n
    · obtain ⟨bs, inner, hread, hrest, hlen, hne, hrel⟩ := b.inner.read_spec hb n
      rw [if_pos hn, hread]
      refine ⟨bs, _, rfl, ?_, hlen, hne, hrel⟩
      rw [unread, hbuf]
      exact hrest
    · obtain ⟨bs, inner, hread, hrest, -, hne, hrel⟩ := b.inner.read_spec hb capacity
      rw [if_neg hn, hread]
      refine ⟨bs.take n, _, rfl, ?_, List.length_take_le n _, ?_, hrel⟩
      · show _ = bs.take n ++ (bs.drop n ++ inner.rest)
        rw [← List.append_assoc, List.take_append_drop]
        exact hrest
      · exact fun hpos hleft => take_ne_nil hpos (hne (by decide) hleft)
  · rw [read, if_neg hbuf]
    refine ⟨_, _, rfl, ?_, List.length_take_le n _, fun hpos _ => take_ne_nil hpos hbuf, hb⟩
    show b.buf ++ b.inner.rest = b.buf.take n ++ (b.buf.drop n ++ b.inner.rest)
    rw [← List.append_assoc, List.take_append_drop]

/-- The bytes that can be had, and whether the source fails after them. -/
def ahead (b : BufReader) : List UInt8 × Bool := (b.inner.ahead capacity).map (b.buf ++ ·) id

/-- What the source answers, when a read of `n` bytes goes to it. -/
def answers (b : BufReader) (n : Nat) : List (Option (List UInt8)) :=
  if b.buf = [] then [(b.inner.read (max n capacity)).1] else []

theorem ahead_of_empty {b : BufReader} (hbuf : b.buf = []) : b.ahead = b.inner.ahead capacity := by
  rw [ahead, hbuf]
  rfl

theorem answers_of_empty {b : BufReader} (hbuf : b.buf = []) {n : Nat} (hcap : n ≤ capacity) :
    b.answers n = [(b.inner.read capacity).1] := by
  rw [answers, if_pos hbuf, Nat.max_eq_right hcap]

/-- A read with nothing read ahead, whether or not it goes through the buffer. -/
theorem read_of_empty {b : BufReader} (hbuf : b.buf = []) {n : Nat} (hcap : n ≤ capacity)
    {out : Option (List UInt8)} {inner : ByteSource} (hread : b.inner.read capacity = (out, inner))
    (hlen : (out.getD []).length ≤ capacity) :
    b.read n = (out.map (List.take n), { inner := inner, buf := (out.getD []).drop n }) := by
  rw [read, if_pos hbuf]
  split
  · rename_i hge
    obtain rfl : n = capacity := Nat.le_antisymm hcap hge
    rw [hread]
    cases out with
    | none => simp [hbuf]
    | some bs =>
      rw [Option.getD_some] at hlen ⊢
      rw [Option.map_some, List.take_of_length_le hlen, List.drop_of_length_le hlen, hbuf]
  · rw [hread]

/-- A read of no more than the capacity fails or ends where the source does;
the bytes that it gives otherwise are the first of those that can be had. -/
theorem read_ahead (b : BufReader) {n : Nat} (hn : 0 < n) (hcap : n ≤ capacity) :
    (∃ b', b.read n = (none, b') ∧ b.ahead = ([], true) ∧ b.answers n = [none]) ∨
    (∃ b', b.read n = (some [], b') ∧ b.ahead = ([], false) ∧ b.answers n = [some []]) ∨
    ∃ bs b', b.read n = (some bs, b') ∧ bs ≠ [] ∧ bs.length ≤ n ∧ b.unread = bs ++ b'.unread ∧
      b.ahead = (bs ++ b'.ahead.1, b'.ahead.2) ∧ none ∉ b.answers n := by
  by_cases hbuf : b.buf = []
  · rw [ahead_of_empty hbuf, answers_of_empty hbuf hcap]
    rcases b.inner.read_ahead (n := capacity) (by decide) with ⟨s', hread, hahead⟩ |
      ⟨s', hread, hahead⟩ | ⟨bs, s', hread, hne, hlen, hrest, hahead⟩
    · left
      refine ⟨_, read_of_empty hbuf hcap hread (Nat.zero_le _), hahead, ?_⟩
      rw [hread]
    · right; left
      refine ⟨{ inner := s', buf := [] }, ?_, hahead, ?_⟩
      · rw [read_of_empty hbuf hcap hread (Nat.zero_le _)]
        simp
      · rw [hread]
    · right; right
      refine ⟨bs.take n, _, read_of_empty hbuf hcap hread hlen, take_ne_nil hn hne,
        List.length_take_le n bs, ?_, ?_, ?_⟩
      · simp only [unread, hbuf, Option.getD_some, List.nil_append, ← List.append_assoc,
          List.take_append_drop, hrest]
      · rw [hahead]
        simp [ahead, ← List.append_assoc]
      · rw [hread]
        simp
  · right; right
    refine ⟨b.buf.take n, { b with buf := b.buf.drop n }, if_neg hbuf, take_ne_nil hn hbuf,
      List.length_take_le n _, ?_, ?_, ?_⟩
    · simp only [unread, ← List.append_assoc, List.take_append_drop]
    · simp [ahead, Prod.map, ← List.append_assoc]
    · rw [answers, if_neg hbuf]
      simp

end BufReader

end LG
