import Mathlib.Data.List.Basic

/-!
# Iterating a cursor to its end

`Walk cur next stop s as t` is the loop that starts at `s`, ends at the first
state where `stop` holds, and on the way looks at what `cur` shows and steps
by `next`: it saw `as` and ended in `t`. A step may panic (`none`), and then
there is no walk. A walk is determined by where it starts (`Walk.unique`).
`Drains next s as` is the loop `while let Some(a) = iter.next()`, and
`collect` runs it with a bound on the number of calls.
-/

namespace LG

section

variable {σ α : Type} (cur : σ → Option α) (next : σ → Option σ) (stop : σ → Prop)

/-- A loop over what a cursor shows. -/
inductive Walk : σ → List α → σ → Prop
  | done {s} (h : stop s) : Walk s [] s
  | step {s s' t as} (h : ¬ stop s) (hs : next s = some s') (hw : Walk s' as t) :
    Walk s ((cur s).toList ++ as) t

end

namespace Walk

variable {σ α : Type} {cur : σ → Option α} {next : σ → Option σ} {stop : σ → Prop}

/-- A step on a state that shows something. -/
theorem cons {s s' t : σ} {a : α} {as : List α} (h : ¬ stop s) (hc : cur s = some a)
    (hs : next s = some s') (hw : Walk cur next stop s' as t) :
    Walk cur next stop s (a :: as) t := by
  have := Walk.step h hs hw
  rwa [hc] at this

/-- A step on a state that shows nothing. -/
theorem skip {s s' t : σ} {as : List α} (h : ¬ stop s) (hc : cur s = none)
    (hs : next s = some s') (hw : Walk cur next stop s' as t) : Walk cur next stop s as t := by
  have := Walk.step h hs hw
  rwa [hc] at this

/-- There is one walk from a state. -/
theorem unique {s t t' : σ} {as as' : List α} (h : Walk cur next stop s as t)
    (h' : Walk cur next stop s as' t') : as = as' ∧ t = t' := by
  induction h generalizing as' with
  | done hs =>
    cases h' with
    | done => exact ⟨rfl, rfl⟩
    | step hn => exact absurd hs hn
  | step hn hs hw ih =>
    cases h' with
    | done hs => exact absurd hs hn
    | step _ hs' hw' =>
      rw [hs] at hs'
      cases hs'
      obtain ⟨rfl, rfl⟩ := ih hw'
      exact ⟨rfl, rfl⟩

end Walk

/-- Calling an iterator until it returns `None`. A call may panic
(`none`). -/
inductive Drains {σ α : Type} (next : σ → Option (Option α × σ)) : σ → List α → Prop
  | done {s s'} (h : next s = some (none, s')) : Drains next s []
  | step {s s' a as} (h : next s = some (some a, s')) (hd : Drains next s' as) :
    Drains next s (a :: as)

/-- Two states whose next call is the same yield the same. -/
theorem Drains.of_next_eq {σ α : Type} {next : σ → Option (Option α × σ)} {s t : σ} {as : List α}
    (h : Drains next t as) (heq : next s = next t) : Drains next s as := by
  cases h with
  | done h => exact .done (heq.trans h)
  | step h hd => exact .step (heq.trans h) hd

/-- What an iterator yields starts with the element of its next call. -/
theorem Drains.step_iff {σ α : Type} {next : σ → Option (Option α × σ)} {s s' : σ} {a : α}
    {as : List α} (h : next s = some (some a, s')) :
    Drains next s as ↔ ∃ as', as = a :: as' ∧ Drains next s' as' := by
  constructor
  · intro hd
    cases hd with
    | done hn =>
      rw [h] at hn
      cases hn
    | step hn hd =>
      rw [h] at hn
      cases hn
      exact ⟨_, rfl, hd⟩
  · rintro ⟨as', rfl, hd⟩
    exact .step h hd

/-- An iterator yields one sequence. -/
theorem Drains.unique {σ α : Type} {next : σ → Option (Option α × σ)} {s : σ} {as bs : List α}
    (h : Drains next s as) (h' : Drains next s bs) : as = bs := by
  induction h generalizing bs with
  | done h =>
    cases h' with
    | done => rfl
    | step h' =>
      rw [h] at h'
      cases h'
  | step h hd ih =>
    cases h' with
    | done h' =>
      rw [h] at h'
      cases h'
    | step h' hd' =>
      rw [h] at h'
      cases h'
      rw [ih hd']

/-- The next call of an iterator, from what it yields. -/
theorem Drains.next_eq {σ α : Type} {next : σ → Option (Option α × σ)} {s : σ} {as : List α}
    (h : Drains next s as) :
    ∃ s', next s = some (as.head?, s') ∧ (as ≠ [] → Drains next s' as.tail) := by
  cases h with
  | done h => exact ⟨_, h, fun hne => absurd rfl hne⟩
  | step h hd => exact ⟨_, h, fun _ => hd⟩

/-- Taking elements from the front of a list yields the list. -/
theorem drains_list {α : Type} : ∀ as : List α,
    Drains (fun l : List α => some (l.head?, l.tail)) as as
  | [] => .done rfl
  | _ :: as => .step rfl (drains_list as)

/-- The elements of an iterator that ends within so many calls. -/
def collect {σ α : Type} (next : σ → Option (Option α × σ)) : Nat → σ → Option (List α)
  | 0, _ => none
  | n + 1, s => do
    match ← next s with
    | (none, _) => return []
    | (some a, s') => return a :: (← collect next n s')

theorem Drains.collect {σ α : Type} {next : σ → Option (Option α × σ)} {s : σ} {as : List α}
    (h : Drains next s as) {n : Nat} (hn : as.length < n) : LG.collect next n s = some as := by
  induction h generalizing n with
  | done h =>
    cases n with
    | zero => cases hn
    | succ n => simp [LG.collect, h]
  | step h hd ih =>
    cases n with
    | zero => cases hn
    | succ n => simp [LG.collect, h, ih (Nat.lt_of_succ_lt_succ hn)]

/-- An iterator that `collect` ran to its end. -/
theorem drains_of_collect {σ α : Type} {next : σ → Option (Option α × σ)} :
    ∀ {n : Nat} {s : σ} {as : List α}, collect next n s = some as → Drains next s as
  | n + 1, s, as, h => by
    simp only [collect, Option.bind_eq_bind, Option.bind_eq_some_iff] at h
    obtain ⟨⟨_ | a, s'⟩, hs, h⟩ := h
    · cases h
      exact .done hs
    · obtain ⟨as', hrest, h⟩ := Option.bind_eq_some_iff.mp h
      cases h
      exact .step hs (drains_of_collect hrest)

/-- A call for each element of a list, none of which panics. -/
theorem mapM_eq_some {α β : Type} {f : α → Option β} {g : α → β} : ∀ {l : List α},
    (∀ a ∈ l, f a = some (g a)) → l.mapM f = some (l.map g)
  | [], _ => rfl
  | a :: l, h => by
    obtain ⟨ha, hl⟩ := List.forall_mem_cons.mp h
    rw [List.mapM_cons, ha, mapM_eq_some hl]
    rfl

end LG
