import Logregator.Framework.Outcome
import Mathlib.Data.List.Basic

/-!
# Decoding a stream that comes in chunks

A decoder takes a message off the front of its buffer, or leaves the buffer
alone while the message is not complete. Called after every chunk until no
message is left (`Receives`), a decoder that takes exactly the bytes of each
message (`Delimits`) gives the messages of a stream, however it is cut into
chunks (`Delimits.receives`).
-/

namespace LG

section

variable {β ε α : Type} (decode : Action (List β) ε (Option α))

/-- Calls of a decoder until there is no message in the buffer: the messages,
and the buffer then. -/
inductive Decodes : List β → List α → List β → Prop
  | done {buf rest} (h : decode buf = (.ok none, rest)) : Decodes buf [] rest
  | step {buf buf' rest a as} (h : decode buf = (.ok (some a), buf')) (hd : Decodes buf' as rest) :
    Decodes buf (a :: as) rest

/-- Chunks appended to the buffer one after the other, with such calls after
each. -/
inductive Receives : List β → List (List β) → List α → List β → Prop
  | nil {buf} : Receives buf [] [] buf
  | cons {buf chunk chunks buf' rest as as'} (h : Decodes decode (buf ++ chunk) as buf')
    (hr : Receives buf' chunks as' rest) : Receives buf (chunk :: chunks) (as ++ as') rest

/-- The decoder takes the bytes of a message off the front, whatever follows
them, and waits while they are not all there. -/
structure Delimits (bytes : α → List β) (Fits : α → Prop) : Prop where
  empty : decode [] = (.ok none, [])
  whole : ∀ a, Fits a → ∀ rest, decode (bytes a ++ rest) = (.ok (some a), rest)
  part : ∀ a, Fits a → ∀ buf more, bytes a = buf ++ more → more ≠ [] → decode buf = (.ok none, buf)

end

namespace Delimits

variable {β ε α : Type} {decode : Action (List β) ε (Option α)} {bytes : α → List β}
  {Fits : α → Prop}

/-- Of a part of a stream, the messages that are complete are decoded. -/
theorem decodes (h : Delimits decode bytes Fits) : ∀ {as : List α} {buf more : List β},
    (∀ a ∈ as, Fits a) → buf ++ more = as.flatMap bytes → ∃ as₁ as₂ rest, as = as₁ ++ as₂ ∧
      Decodes decode buf as₁ rest ∧ rest ++ more = as₂.flatMap bytes ∧ (more = [] → as₂ = [])
  | [], buf, more, _, heq => by
    obtain ⟨rfl, rfl⟩ := List.append_eq_nil_iff.mp heq
    exact ⟨[], [], [], rfl, .done h.empty, rfl, fun _ => rfl⟩
  | a :: as, buf, more, hfits, heq => by
    obtain ⟨ha, has⟩ := List.forall_mem_cons.mp hfits
    rw [List.flatMap_cons] at heq
    -- The buffer has all bytes of the first message, or lacks some.
    have hwhole {rest : List β} (hbuf : buf = bytes a ++ rest) (hrest : rest ++ more = as.flatMap bytes) :
        ∃ as₁ as₂ rest, a :: as = as₁ ++ as₂ ∧ Decodes decode buf as₁ rest ∧
          rest ++ more = as₂.flatMap bytes ∧ (more = [] → as₂ = []) := by
      obtain ⟨as₁, as₂, rest', rfl, hd, heq', hnil⟩ := h.decodes has hrest
      exact ⟨a :: as₁, as₂, rest', rfl, .step (hbuf ▸ h.whole a ha rest) hd, heq', hnil⟩
    rcases List.append_eq_append_iff.mp heq with ⟨lacks, hbytes, hmore⟩ | ⟨rest, hbuf, hrest⟩
    · by_cases hne : lacks = []
      · rw [hne, List.append_nil] at hbytes
        rw [hne] at hmore
        exact hwhole (hbytes.symm.trans (List.append_nil _).symm) (hmore : [] ++ more = _)
      · refine ⟨[], a :: as, buf, rfl, .done (h.part a ha buf lacks hbytes hne), ?_, fun hnil => ?_⟩
        · rw [List.flatMap_cons, heq]
        · rw [hnil] at hmore
          exact absurd (List.append_eq_nil_iff.mp hmore.symm).1 hne
    · exact hwhole hbuf hrest.symm

/-- Of a part of a stream, a call decodes the first message, or waits. -/
theorem decode_front (h : Delimits decode bytes Fits) {a : α} {as : List α} {buf more : List β}
    (ha : Fits a) (heq : buf ++ more = (a :: as).flatMap bytes) :
    (∃ rest, decode buf = (.ok (some a), rest) ∧ rest ++ more = as.flatMap bytes) ∨
      decode buf = (.ok none, buf) := by
  rw [List.flatMap_cons] at heq
  rcases List.append_eq_append_iff.mp heq with ⟨lacks, hbytes, hmore⟩ | ⟨rest, rfl, hrest⟩
  · by_cases hne : lacks = []
    · subst hne
      rw [List.append_nil] at hbytes
      refine .inl ⟨[], ?_, hmore⟩
      have hwhole := h.whole a ha []
      rwa [List.append_nil, hbytes] at hwhole
    · exact .inr (h.part a ha buf lacks hbytes hne)
  · exact .inl ⟨rest, h.whole a ha rest, hrest.symm⟩

theorem receives_of_buffer (h : Delimits decode bytes Fits) :
    ∀ {chunks : List (List β)} {as : List α} {buf : List β}, (∀ a ∈ as, Fits a) →
      buf ++ chunks.flatten = as.flatMap bytes → (chunks = [] → as = []) →
      Receives decode buf chunks as []
  | [], as, buf, _, heq, hnil => by
    rw [hnil rfl, List.flatten_nil, List.append_nil] at heq
    rw [hnil rfl, heq]
    exact .nil
  | chunk :: chunks, as, buf, hfits, heq, _ => by
    rw [List.flatten_cons, ← List.append_assoc] at heq
    obtain ⟨as₁, as₂, rest, rfl, hd, heq, hnil⟩ := h.decodes hfits heq
    refine .cons hd (h.receives_of_buffer (fun a ha => hfits a (List.mem_append_right _ ha)) heq ?_)
    rintro rfl
    exact hnil rfl

/-- All messages of a stream are received, and no bytes are left. -/
theorem receives (h : Delimits decode bytes Fits) {chunks : List (List β)} {as : List α}
    (hfits : ∀ a ∈ as, Fits a) (heq : chunks.flatten = as.flatMap bytes) :
    Receives decode [] chunks as [] := by
  refine h.receives_of_buffer hfits heq ?_
  rintro rfl
  cases as with
  | nil => rfl
  | cons a as =>
    -- A message without bytes would be decoded from nothing.
    have hnil : bytes a = [] := (List.append_eq_nil_iff.mp heq.symm).1
    have hwhole := h.whole a (hfits a List.mem_cons_self) []
    rw [hnil, List.append_nil, h.empty] at hwhole
    cases hwhole

end Delimits

end LG
