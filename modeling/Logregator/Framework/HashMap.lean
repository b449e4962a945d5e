import Mathlib.Data.List.AList

/-!
# Going over a hash map

A hash map is an association list here. A loop over it goes through the
entries, each key once: what the loop does at a key is what its step for that
key does (`lookup_foldl_entries`), so that the order is of no matter.
-/

namespace LG

variable {α β : Type} [DecidableEq α]

/-- `HashMap::retain` by the value. -/
def retain (p : β → Bool) (m : AList fun _ : α => β) : AList fun _ : α => β :=
  ⟨m.entries.filter fun e => p e.2, m.nodupKeys.sublist List.filter_sublist⟩

theorem lookup_retain (p : β → Bool) (m : AList fun _ : α => β) (k : α) :
    (retain p m).lookup k = (m.lookup k).filter p := by
  apply Option.ext
  intro v
  rw [Option.filter_eq_some_iff, ← Option.mem_def, ← Option.mem_def, AList.mem_lookup_iff,
    AList.mem_lookup_iff]
  exact List.mem_filter

/-- A loop whose step for a key changes what is at that key only, by `g`. -/
theorem lookup_foldl_entries {f : (AList fun _ : α => β) → (Sigma fun _ : α => β) → AList fun _ : α => β}
    {g : β → Option β → Option β} (hself : ∀ m e, (f m e).lookup e.1 = g e.2 (m.lookup e.1))
    (hother : ∀ m e k, k ≠ e.1 → (f m e).lookup k = m.lookup k)
    (m acc : AList fun _ : α => β) (k : α) :
    (m.entries.foldl f acc).lookup k =
      (m.lookup k).elim (acc.lookup k) fun v => g v (acc.lookup k) := by
  obtain ⟨entries, hnodup⟩ := m
  show (entries.foldl f acc).lookup k = (entries.dlookup k).elim _ _
  induction entries generalizing acc with
  | nil => rfl
  | cons e entries ih =>
    obtain ⟨hnot, hnodup⟩ := List.nodupKeys_cons.mp hnodup
    rw [List.foldl_cons, ih (f acc e) hnodup]
    by_cases hk : k = e.1
    · subst hk
      rw [List.dlookup_eq_none.mpr hnot, List.dlookup_cons_eq]
      exact hself acc e
    · rw [List.dlookup_cons_ne _ _ hk, hother acc e k hk]

end LG
