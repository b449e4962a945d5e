import Mathlib.Data.List.Nodup
import Mathlib.Data.List.ReduceOption
import Mathlib.Order.Lattice

/-!
# Handing over a queue

Keys wait in a queue. For each key, in the order of the queue, a result comes
that is a success or a failure; a success removes its key if it stands at the
front (`popFront`). The keys that are left are those from the first failure on
(`foldl_popFront`): a failed key is in the way of all later ones.
-/

namespace LG

variable {α κ : Type}

theorem getElem?_concat_iff {l : List α} {a b : α} {i : Nat} :
    (l ++ [a])[i]? = some b ↔ l[i]? = some b ∨ i = l.length ∧ b = a := by
  grind

/-- Where an element of a list without repetitions stands. -/
theorem getElem?_unique {l : List α} (hnd : l.Nodup) {a : α} {i j : Nat} (hi : l[i]? = some a)
    (hj : l[j]? = some a) : i = j := by
  have hlt := (List.getElem?_eq_some_iff.mp hi).1
  exact (List.getElem?_inj hlt hnd).mp (hi.trans hj.symm)

theorem mem_drop_iff {l : List α} (hnd : l.Nodup) {a : α} {i n : Nat} (hi : l[i]? = some a) :
    a ∈ l.drop n ↔ n ≤ i := by
  rw [List.mem_iff_getElem?]
  constructor
  · rintro ⟨j, hj⟩
    rw [List.getElem?_drop] at hj
    exact (getElem?_unique hnd hj hi).symm ▸ Nat.le_add_right n j
  · intro h
    refine ⟨i - n, ?_⟩
    rw [List.getElem?_drop, Nat.add_sub_cancel' h, hi]

/-! ## Leading successes -/

/-- The number of results before the first failure. -/
def lead : List (Option α) → Nat
  | some _ :: results => lead results + 1
  | _ => 0

theorem lead_le (results : List (Option α)) : lead results ≤ results.length := by
  induction results with
  | nil => exact le_refl 0
  | cons o results ih =>
    cases o with
    | none => exact Nat.zero_le _
    | some a => exact Nat.succ_le_succ ih

theorem lead_concat_none (results : List (Option α)) : lead (results ++ [none]) = lead results := by
  induction results with
  | nil => rfl
  | cons o results ih =>
    cases o with
    | none => rfl
    | some a => exact congrArg (· + 1) ih

theorem lead_concat_some (results : List (Option α)) (a : α) :
    lead (results ++ [some a]) =
      if lead results = results.length then results.length + 1 else lead results := by
  induction results with
  | nil => rfl
  | cons o results ih =>
    cases o with
    | none => simp [lead]
    | some b =>
      simp only [List.cons_append, lead, ih, List.length_cons, Nat.add_right_cancel_iff]
      split <;> rfl

theorem exists_of_lt_lead {results : List (Option α)} {i : Nat} (h : i < lead results) :
    ∃ a, results[i]? = some (some a) := by
  induction results generalizing i with
  | nil => cases h
  | cons o results ih =>
    cases o with
    | none => cases h
    | some a =>
      cases i with
      | zero => exact ⟨a, rfl⟩
      | succ i => exact ih (Nat.lt_of_succ_lt_succ h)

/-- No success comes after a failure: all are before the first failure. -/
theorem pairwise_isSome_iff {results : List (Option α)} :
    results.Pairwise (fun o o' => o'.isSome → o.isSome) ↔
      ∀ i a, results[i]? = some (some a) → i < lead results := by
  induction results with
  | nil => simp
  | cons o results ih =>
    rw [List.pairwise_cons, ih]
    cases o with
    | none =>
      constructor
      · rintro ⟨hfail, -⟩ i a hi
        cases i with
        | zero => cases hi
        | succ i => exact absurd (hfail _ (List.mem_of_getElem? hi) rfl) (by simp)
      · intro h
        have hnone : ∀ i a, results[i]? ≠ some (some a) := fun i a hi =>
          absurd (h (i + 1) a hi) (Nat.not_lt_zero _)
        refine ⟨fun o ho hsome => ?_, fun i a hi => absurd hi (hnone i a)⟩
        obtain ⟨i, hi⟩ := List.mem_iff_getElem?.mp ho
        obtain ⟨a, rfl⟩ := Option.isSome_iff_exists.mp hsome
        exact absurd hi (hnone i a)
    | some b =>
      constructor
      · rintro ⟨-, h⟩ i a hi
        cases i with
        | zero => exact Nat.succ_pos _
        | succ i => exact Nat.succ_lt_succ (h i a hi)
      · intro h
        exact ⟨fun _ _ _ => rfl, fun i a hi => Nat.lt_of_succ_lt_succ (h (i + 1) a hi)⟩

/-! ## The queue -/

variable [DecidableEq κ]

/-- The queue without the key, if it stands at the front. -/
def popFront (keys : List κ) (k : κ) : List κ :=
  match keys with
  | front :: rest => if front = k then rest else keys
  | [] => []

/-- A success comes for the key after those that have a result. -/
theorem popFront_drop_lead {keys : List κ} (hnd : keys.Nodup) {results : List (Option α)} {k : κ}
    (hk : keys[results.length]? = some k) (a : α) :
    popFront (keys.drop (lead results)) k = keys.drop (lead (results ++ [some a])) := by
  obtain ⟨hlt, rfl⟩ := List.getElem?_eq_some_iff.mp hk
  have hle := lt_of_le_of_lt (lead_le results) hlt
  have hfront := List.drop_eq_getElem_cons hle
  rw [lead_concat_some]
  by_cases hall : lead results = results.length
  · rw [if_pos hall, hfront, popFront]
    simp only [hall, if_true]
  · have hne : keys[lead results] ≠ keys[results.length] := fun he =>
      hall ((List.Nodup.getElem_inj_iff hnd).mp he)
    rw [if_neg hall, hfront, popFront, if_neg hne]

/-- The results of keys come in their order. -/
theorem foldl_popFront {keys : List κ} (hnd : keys.Nodup) (key : α → κ)
    (results more : List (Option α))
    (hkeys : ∀ (i : Nat) a, (results ++ more)[i]? = some (some a) → keys[i]? = some (key a)) :
    (more.reduceOption.map key).foldl popFront (keys.drop (lead results)) =
      keys.drop (lead (results ++ more)) := by
  induction more generalizing results with
  | nil => rw [List.append_nil]; rfl
  | cons o more ih =>
    rw [← List.singleton_append, ← List.append_assoc] at hkeys ⊢
    cases o with
    | none =>
      rw [← ih _ hkeys, lead_concat_none]
      rfl
    | some a =>
      have hk := hkeys results.length a (by simp)
      rw [← ih _ hkeys, ← popFront_drop_lead hnd hk a]
      rfl

end LG
