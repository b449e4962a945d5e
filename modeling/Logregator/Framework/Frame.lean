import Logregator.Framework.Bytes
import Logregator.Framework.Outcome
import Mathlib.Data.List.Basic
import Mathlib.Data.List.Flatten

/-!
# Length-prefixed frames

A frame is the length of its body in eight little-endian bytes, then the body.
`readFrame` reads one off a byte string, `readFrames` as many as there are: it
ends where no length prefix is left, fails on a body that is cut off, and
panics on a length for which no buffer can be made. Of a cut sequence of frames
it reads those that are whole (`wholeFrames`), unless the cut is inside a body
(`CutsBody`): `readFrames_take`.
-/

namespace LG

/-- A body behind its length. -/
def frame (body : List UInt8) : List UInt8 := leBytes 8 body.length ++ body

/-- Bodies in their frames, one after the other. -/
def frames (bodies : List (List UInt8)) : List UInt8 := bodies.flatMap frame

/-- What reading a frame comes to. -/
inductive FrameRead where
  | noPrefix
  | overflow
  | torn
  | body (body rest : List UInt8)
  deriving DecidableEq, Repr

/-- `isize::MAX`: no allocation has more bytes, and neither has a file. -/
def isizeMax : Nat := 2 ^ 63 - 1

theorem isizeMax_lt : isizeMax < 2 ^ 64 := by decide

/-- Reads a frame off the front: eight bytes, and as many as they say. The
buffer for the body is made first, and panics if the body would have more than
`limit` bytes. -/
def readFrame (limit : Nat) (bs : List UInt8) : FrameRead :=
  if bs.length < 8 then .noPrefix
  else
    let len := ofLe (bs.take 8)
    if bs.length < 8 + len then
      -- A body of more than `limit` bytes is never there: a file is no longer than that.
      if limit < len then .overflow else .torn
    else .body ((bs.drop 8).take len) (bs.drop (8 + len))

/-- The loop of `readFrames`, for at most so many frames. -/
def readLoop (limit : Nat) : Nat → List UInt8 → Outcome Unit (List (List UInt8))
  | 0, _ => .ok []
  | n + 1, bs =>
    match readFrame limit bs with
    | .noPrefix => .ok []
    | .overflow => .panic
    | .torn => .err ()
    | .body body rest => (readLoop limit n rest).map (body :: ·)

/-- All frames, up to where no length prefix is left; an error if a body is cut
off. A frame takes a byte at least, so that there are no more than bytes. -/
def readFrames (limit : Nat) (bs : List UInt8) : Outcome Unit (List (List UInt8)) :=
  readLoop limit bs.length bs

@[simp] theorem length_frame (body : List UInt8) : (frame body).length = 8 + body.length := by
  simp [frame]

@[simp] theorem frames_nil : frames [] = [] := rfl

@[simp] theorem frames_cons (body : List UInt8) (bodies : List (List UInt8)) :
    frames (body :: bodies) = frame body ++ frames bodies := rfl

theorem frames_append (as bs : List (List UInt8)) : frames (as ++ bs) = frames as ++ frames bs :=
  List.flatMap_append

/-! ## Reading whole frames -/

variable {limit : Nat}

theorem readFrame_frame {body : List UInt8} (h : body.length < 2 ^ 64) (rest : List UInt8) :
    readFrame limit (frame body ++ rest) = .body body rest := by
  have htake : (frame body ++ rest).take 8 = leBytes 8 body.length := by simp [frame]
  have hlen : ofLe (leBytes 8 body.length) = body.length := ofLe_leBytes_of_lt h
  rw [readFrame, if_neg (by simp; omega), htake, hlen, if_neg (by simp),
    List.drop_left' (length_frame body)]
  simp [frame]

/-- What is read is the frame at the front. -/
theorem eq_frame_of_readFrame {bs body rest : List UInt8}
    (h : readFrame limit bs = .body body rest) :
    bs = frame body ++ rest ∧ body.length < 2 ^ 64 := by
  unfold readFrame at h
  split at h
  · cases h
  · rename_i h8
    simp only at h
    split at h
    · split at h <;> cases h
    · rename_i hlen
      cases h
      have hlen8 : (bs.take 8).length = 8 := by
        rw [List.length_take]
        omega
      have hbody : ((bs.drop 8).take (ofLe (bs.take 8))).length = ofLe (bs.take 8) := by
        rw [List.length_take, List.length_drop]
        omega
      have hlt := ofLe_lt (bs.take 8)
      have hle := leBytes_ofLe (bs.take 8)
      rw [hlen8] at hlt hle
      refine ⟨?_, by omega⟩
      rw [frame, hbody, hle, List.append_assoc, ← List.drop_drop, List.take_append_drop,
        List.take_append_drop]

/-- A frame that is read takes its bytes off the front. -/
theorem readFrame_eq_body {bs body rest : List UInt8} (h : readFrame limit bs = .body body rest) :
    rest.length + 8 + body.length = bs.length := by
  rw [(eq_frame_of_readFrame h).1, List.length_append, length_frame]
  omega

theorem readLoop_nil (n : Nat) : readLoop limit n [] = .ok [] := by
  cases n with
  | zero => rfl
  | succ n => rfl

/-- Any fuel that is enough for the bytes gives the same. -/
theorem readLoop_eq : ∀ {n m : Nat} {bs : List UInt8}, bs.length ≤ n → bs.length ≤ m →
    readLoop limit n bs = readLoop limit m bs
  | 0, m, bs, h, _ => by
    rw [List.eq_nil_of_length_eq_zero (Nat.le_zero.mp h), readLoop_nil, readLoop_nil]
  | n + 1, 0, bs, _, h => by
    rw [List.eq_nil_of_length_eq_zero (Nat.le_zero.mp h), readLoop_nil, readLoop_nil]
  | n + 1, m + 1, bs, hn, hm => by
    rw [readLoop, readLoop]
    cases hr : readFrame limit bs with
    | noPrefix | overflow | torn => rfl
    | body body rest =>
      have hlen := readFrame_eq_body hr
      simp only
      rw [readLoop_eq (n := n) (m := m) (by omega) (by omega)]

theorem readLoop_fuel {n : Nat} {bs : List UInt8} (h : bs.length ≤ n) :
    readLoop limit n bs = readFrames limit bs := readLoop_eq h le_rfl

/-- Reading step by step. -/
theorem readFrames_eq (bs : List UInt8) :
    readFrames limit bs = match readFrame limit bs with
      | .noPrefix => .ok []
      | .overflow => .panic
      | .torn => .err ()
      | .body body rest => (readFrames limit rest).map (body :: ·) := by
  rw [← readLoop_fuel (Nat.le_succ bs.length), readLoop]
  cases hr : readFrame limit bs with
  | noPrefix | overflow | torn => rfl
  | body body rest =>
    have hlen := readFrame_eq_body hr
    simp only
    rw [readLoop_fuel (by omega)]

/-- Frames that are there are read, and then what follows them. -/
theorem readFrames_append : ∀ {bodies : List (List UInt8)} (rest : List UInt8),
    (∀ b ∈ bodies, b.length < 2 ^ 64) →
    readFrames limit (frames bodies ++ rest) = (readFrames limit rest).map (bodies ++ ·)
  | [], rest, _ => by
    rw [frames_nil, List.nil_append]
    exact (Outcome.map_id _).symm
  | b :: bodies, rest, h => by
    obtain ⟨hb, hbs⟩ := List.forall_mem_cons.mp h
    rw [frames_cons, List.append_assoc, readFrames_eq, readFrame_frame hb]
    simp only
    rw [readFrames_append rest hbs, Outcome.map_map]
    rfl

theorem readFrames_frames {bodies : List (List UInt8)} (h : ∀ b ∈ bodies, b.length < 2 ^ 64) :
    readFrames limit (frames bodies) = .ok bodies := by
  have hread : readFrames limit (frames bodies ++ []) = (Outcome.ok []).map (bodies ++ ·) :=
    readFrames_append [] h
  rwa [List.append_nil, Outcome.map_ok, List.append_nil] at hread

/-! ## Lengths without room -/

/-- Behind whole frames comes a length for which no buffer can be made, and
which is not there either. -/
def Overflows (limit : Nat) (bs : List UInt8) : Prop :=
  ∃ bodies rest, bs = frames bodies ++ rest ∧ (∀ b ∈ bodies, b.length < 2 ^ 64) ∧
    8 ≤ rest.length ∧ limit < ofLe (rest.take 8) ∧ rest.length < 8 + ofLe (rest.take 8)

theorem readFrame_eq_overflow {bs : List UInt8} : readFrame limit bs = .overflow ↔
    8 ≤ bs.length ∧ limit < ofLe (bs.take 8) ∧ bs.length < 8 + ofLe (bs.take 8) := by
  unfold readFrame
  split
  · simp
    omega
  · simp only
    split
    · split
      · simp
        omega
      · simp
        omega
    · simp
      omega

theorem readLoop_overflows : ∀ {n : Nat} {bs : List UInt8}, readLoop limit n bs = .panic →
    Overflows limit bs
  | n + 1, bs, h => by
    rw [readLoop] at h
    cases hr : readFrame limit bs with
    | noPrefix | torn =>
      rw [hr] at h
      cases h
    | overflow =>
      exact ⟨[], bs, rfl, List.forall_mem_nil _, readFrame_eq_overflow.mp hr⟩
    | body body rest =>
      rw [hr] at h
      obtain ⟨hbs, hlt⟩ := eq_frame_of_readFrame hr
      obtain ⟨bodies, tail, rfl, hshort, hover⟩ := readLoop_overflows (Outcome.map_eq_panic.mp h)
      refine ⟨body :: bodies, tail, ?_, List.forall_mem_cons.mpr ⟨hlt, hshort⟩, hover⟩
      rw [hbs, frames_cons, List.append_assoc]

/-- Reading panics exactly on such a length. -/
theorem readFrames_panic_iff {bs : List UInt8} :
    readFrames limit bs = .panic ↔ Overflows limit bs := by
  refine ⟨readLoop_overflows, ?_⟩
  rintro ⟨bodies, rest, rfl, hshort, hover⟩
  rw [readFrames_append rest hshort, readFrames_eq, readFrame_eq_overflow.mpr hover]
  rfl

/-! ## Frames cut off -/

/-- The bodies whose frames lie inside the first `n` bytes. -/
def wholeFrames : List (List UInt8) → Nat → List (List UInt8)
  | [], _ => []
  | b :: bs, n => if 8 + b.length ≤ n then b :: wholeFrames bs (n - (8 + b.length)) else []

/-- The first `n` bytes end inside a body: after its length prefix, before
its end. -/
def CutsBody (bodies : List (List UInt8)) (n : Nat) : Prop :=
  ∃ as b bs, bodies = as ++ b :: bs ∧ (frames as).length + 8 ≤ n ∧
    n < (frames as).length + 8 + b.length

theorem cutsBody_cons {b : List UInt8} {bs : List (List UInt8)} {n : Nat} :
    CutsBody (b :: bs) n ↔
      if 8 + b.length ≤ n then CutsBody bs (n - (8 + b.length)) else 8 ≤ n := by
  split
  · rename_i h
    constructor
    · intro ⟨as, c, cs, he, h₁, h₂⟩
      cases as with
      | nil =>
        cases he
        simp at h₂
        omega
      | cons a as =>
        cases he
        simp only [frames_cons, List.length_append, length_frame] at h₁ h₂
        exact ⟨as, c, cs, rfl, by omega, by omega⟩
    · rintro ⟨as, c, cs, rfl, h₁, h₂⟩
      refine ⟨b :: as, c, cs, rfl, ?_, ?_⟩ <;>
      · simp only [frames_cons, List.length_append, length_frame]
        omega
  · rename_i h
    constructor
    · rintro ⟨as, c, cs, -, h₁, -⟩
      omega
    · exact fun hn => ⟨[], b, bs, rfl, by simpa using hn, by simp; omega⟩

/-- Reading a frame that is cut off. -/
theorem readFrame_take (hlimit : limit < 2 ^ 64) {body : List UInt8} (h : body.length ≤ limit)
    {n : Nat} (hn : n < 8 + body.length) :
    readFrame limit ((frame body).take n) = if 8 ≤ n then .torn else .noPrefix := by
  have hlen : ((frame body).take n).length = n := by
    rw [List.length_take, length_frame]
    omega
  rw [readFrame, hlen]
  split
  · rw [if_neg (by omega)]
  · have hofLe : ofLe (((frame body).take n).take 8) = body.length := by
      rw [List.take_take, Nat.min_eq_left (by omega), frame, List.take_left' (length_leBytes _ _)]
      exact ofLe_leBytes_of_lt (h.trans_lt hlimit)
    rw [hofLe, if_pos (by omega), if_neg (by omega), if_pos (by omega)]

/-- Reading a cut sequence of frames. -/
theorem readFrames_take (hlimit : limit < 2 ^ 64) : ∀ {bodies : List (List UInt8)} (n : Nat),
    (∀ b ∈ bodies, b.length ≤ limit) →
    (CutsBody bodies n → readFrames limit ((frames bodies).take n) = .err ()) ∧
      (¬ CutsBody bodies n →
        readFrames limit ((frames bodies).take n) = .ok (wholeFrames bodies n))
  | [], n, _ => by
    refine ⟨?_, fun _ => by simp [readFrames, readLoop, wholeFrames]⟩
    rintro ⟨as, b, bs, h, -⟩
    simp at h
  | b :: bs, n, h => by
    obtain ⟨hb, hbs⟩ := List.forall_mem_cons.mp h
    rw [cutsBody_cons, wholeFrames, frames_cons, List.take_append, length_frame, readFrames_eq]
    split
    · rename_i hn
      rw [List.take_of_length_le (by simpa using hn), readFrame_frame (hb.trans_lt hlimit)]
      obtain ⟨htorn, hwhole⟩ := readFrames_take hlimit (n - (8 + b.length)) hbs
      exact ⟨fun hc => by simp [htorn hc], fun hc => by simp [hwhole hc]⟩
    · -- The cut is inside the first frame.
      rename_i hn
      have hrest : (frames bs).take (n - (8 + b.length)) = [] := by
        rw [show n - (8 + b.length) = 0 by omega, List.take_zero]
      rw [hrest, List.append_nil]
      rw [readFrame_take hlimit hb (by omega)]
      exact ⟨fun h8 => by rw [if_pos h8], fun h8 => by rw [if_neg h8]⟩

end LG
