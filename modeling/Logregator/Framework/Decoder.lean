import Mathlib.Data.List.Basic

/-!
# Decoders of frames that arrive in pieces

A decoder is given the symbols that have arrived. It takes an item off their
front, with the number of symbols it took, refuses them, or asks for more
(`.ok none`). What a `Stable` decoder has decided stays so when more arrives. A
stream `MeetsError` when a frame is refused after any number of items, and a
reader that does not skip it comes no further.
-/

namespace LG

variable {α ι ε : Type*} {decode : List α → Except ε (Option (ι × Nat))} {src : List α}

/-- A decoder that takes symbols for its items, and does not change its mind. -/
structure Stable (decode : List α → Except ε (Option (ι × Nat))) : Prop where
  takes : ∀ {src i n}, decode src = .ok (some (i, n)) → 0 < n ∧ n ≤ src.length
  item_append : ∀ {src p}, decode src = .ok (some p) → ∀ more, decode (src ++ more) = .ok (some p)
  error_append : ∀ {src e}, decode src = .error e → ∀ more, decode (src ++ more) = .error e

/-- A frame of the stream is refused, after items that are not. -/
inductive MeetsError (decode : List α → Except ε (Option (ι × Nat))) : List α → Prop
  | here {src e} (h : decode src = .error e) : MeetsError decode src
  | later {src i n} (h : decode src = .ok (some (i, n))) (hm : MeetsError decode (src.drop n)) :
      MeetsError decode src

theorem meetsError_item {i : ι} {n : Nat} (h : decode src = .ok (some (i, n))) :
    MeetsError decode src ↔ MeetsError decode (src.drop n) := by
  refine ⟨fun hm => ?_, .later h⟩
  cases hm with
  | here he =>
    rw [h] at he
    cases he
  | later hi hm =>
    rw [h] at hi
    cases hi
    exact hm

theorem not_meetsError_none (h : decode src = .ok none) : ¬ MeetsError decode src := by
  intro hm
  cases hm with
  | here he =>
    rw [h] at he
    cases he
  | later hi =>
    rw [h] at hi
    cases hi

end LG
