import Logregator.Framework.Iter
import Mathlib.Order.Lattice

/-!
# Leaving out repetitions

`Distinct` is an iterator that leaves out the elements of another one that are
the same as the last it yielded. It yields `distinct` of the other's elements
(`Distinct.drains`): of an ascending sequence one element for each key, in
strictly ascending order (`distinct_ascending`, `exists_mem_distinct`).
-/

namespace LG

/-- An iterator, and the last element that it yielded. -/
structure Distinct (σ α : Type) where
  inner : σ
  last : Option α

namespace Distinct

variable {σ α κ : Type} (next : σ → Option (Option α × σ)) (same : α → α → Option Bool)

/-- The next element that is not the same as the last one, within so many
calls. Telling whether they are may panic. -/
def nextLoop : Nat → Distinct σ α → Option (Option α × Distinct σ α)
  | 0, _ => none
  | n + 1, d => do
    match ← next d.inner with
    | (none, s) => return (none, { d with inner := s })
    | (some a, s) =>
      let repeated ← match d.last with
        | some prev => same prev a
        | none => some false
      if repeated then nextLoop n { d with inner := s }
      else return (some a, { inner := s, last := some a })

/-- The elements without those that have the key of the one before. -/
def distinct [DecidableEq κ] (key : α → κ) : Option α → List α → List α
  | _, [] => []
  | last, a :: as =>
    if last.map key = some (key a) then distinct key last as else a :: distinct key (some a) as

end Distinct

open Distinct

section

variable {σ α κ : Type} [DecidableEq κ] {key : α → κ}

theorem distinct_sublist : ∀ (last : Option α) (as : List α), (distinct key last as).Sublist as
  | _, [] => .refl _
  | last, a :: as => by
    unfold distinct
    split
    · exact (distinct_sublist last as).cons a
    · exact (distinct_sublist (some a) as).cons_cons a

/-- Every key is among those of the distinct elements, or the last one. -/
theorem exists_mem_distinct : ∀ {l : Option α} {as : List α} {a : α}, a ∈ as →
    l.map key = some (key a) ∨ ∃ b ∈ distinct key l as, key b = key a
  | last, c :: as, a, h => by
    unfold distinct
    split
    · rename_i hc
      rcases List.mem_cons.mp h with rfl | h
      · exact .inl hc
      · exact exists_mem_distinct h
    · right
      rcases List.mem_cons.mp h with rfl | h
      · exact ⟨a, List.mem_cons_self, rfl⟩
      · rcases exists_mem_distinct (l := some c) h with hc | ⟨b, hb, he⟩
        · exact ⟨c, List.mem_cons_self, Option.some.inj hc⟩
        · exact ⟨b, List.mem_cons_of_mem _ hb, he⟩

end

/-- Of ascending elements the distinct ones are strictly ascending. -/
theorem distinct_ascending {α κ : Type} [LinearOrder κ] {key : α → κ} :
    ∀ {l : Option α} {as : List α}, (l.toList ++ as).Pairwise (key · ≤ key ·) →
    (l.toList ++ distinct key l as).Pairwise (key · < key ·)
  | none, [], _ => .nil
  | some l, [], _ => by simp [distinct]
  | none, a :: as, h => by
    rw [distinct, if_neg (by simp)]
    exact distinct_ascending (l := some a) h
  | some l, a :: as, h => by
    obtain ⟨hl, has⟩ := List.pairwise_cons.mp h
    unfold distinct
    split
    · apply distinct_ascending (l := some l)
      exact .cons (fun b hb => hl b (List.mem_cons_of_mem _ hb)) has.of_cons
    · rename_i hne
      have hlt : key l < key a := by
        refine lt_of_le_of_ne (hl a List.mem_cons_self) fun he => hne ?_
        rw [Option.map_some, he]
      have hrec := distinct_ascending (l := some a) has
      refine .cons (fun b hb => ?_) hrec
      rcases List.mem_cons.mp hb with rfl | hb
      · exact hlt
      · exact hlt.trans (List.rel_of_pairwise_cons hrec hb)

section

variable {σ α κ : Type} [DecidableEq κ] {key : α → κ} {next : σ → Option (Option α × σ)}
  {same : α → α → Option Bool}

/-- One call: what is left out, and the element yielded. -/
theorem nextLoop_drains {s : σ} {as : List α} (hd : Drains next s as) {last : Option α}
    (hsame : ∀ a ∈ last.toList ++ as, ∀ b ∈ as, same a b = some (decide (key a = key b))) {n : Nat}
    (hn : as.length < n) :
    (∃ s', nextLoop next same n ⟨s, last⟩ = some (none, ⟨s', last⟩) ∧ distinct key last as = []) ∨
      ∃ a s' as', nextLoop next same n ⟨s, last⟩ = some (some a, ⟨s', some a⟩) ∧
        Drains next s' as' ∧ (a :: as').Sublist as ∧
        distinct key last as = a :: distinct key (some a) as' := by
  induction hd generalizing n with
  | @done s s' h =>
    obtain ⟨n, rfl⟩ := Nat.exists_eq_succ_of_ne_zero (Nat.ne_of_gt hn)
    exact .inl ⟨s', by simp [nextLoop, h], rfl⟩
  | @step s s' a as h hd ih =>
    obtain ⟨n, rfl⟩ := Nat.exists_eq_succ_of_ne_zero (Nat.ne_of_gt (Nat.zero_lt_of_lt hn))
    have hstep : nextLoop next same (n + 1) ⟨s, last⟩ =
        if last.map key = some (key a) then nextLoop next same n ⟨s', last⟩
        else some (some a, ⟨s', some a⟩) := by
      cases last with
      | none => simp [nextLoop, h]
      | some l =>
        have hl := hsame l (by simp) a (by simp)
        simp [nextLoop, h, hl]
    by_cases hkey : last.map key = some (key a)
    · rw [hstep, if_pos hkey, distinct, if_pos hkey]
      have hsub : (last.toList ++ as).Sublist (last.toList ++ a :: as) :=
        (List.sublist_cons_self a as).append_left _
      rcases ih (fun b hb c hc => hsame b (hsub.mem hb) c (List.mem_cons_of_mem _ hc))
        (Nat.lt_of_succ_lt_succ hn) with ⟨s₁, h₁, h₂⟩ | ⟨b, s₁, bs, h₁, h₂, h₃, h₄⟩
      · exact .inl ⟨s₁, h₁, h₂⟩
      · exact .inr ⟨b, s₁, bs, h₁, h₂, h₃.cons a, h₄⟩
    · rw [hstep, if_neg hkey, distinct, if_neg hkey]
      exact .inr ⟨a, s', as, rfl, hd, .refl _, rfl⟩

/-- The iterator yields the distinct elements, if each call gets enough
fuel. -/
theorem Distinct.drains {bound : Distinct σ α → Nat}
    (hb : ∀ {d : Distinct σ α} {as : List α}, Drains next d.inner as → as.length < bound d) :
    ∀ {n : Nat} {s : σ} {as : List α} {last : Option α}, as.length = n → Drains next s as →
    (∀ a ∈ last.toList ++ as, ∀ b ∈ as, same a b = some (decide (key a = key b))) →
    Drains (fun d => nextLoop next same (bound d) d) ⟨s, last⟩ (distinct key last as) := by
  intro n
  -- A call may leave out elements, so the induction is on how many are left.
  induction n using Nat.strongRecOn with
  | _ n ih =>
    intro s as last hn hd hsame
    rcases nextLoop_drains hd hsame (hb (d := ⟨s, last⟩) hd) with
      ⟨s', hnext, hnil⟩ | ⟨a, s', as', hnext, hd', hsub, hcons⟩
    · rw [hnil]
      exact .done hnext
    · rw [hcons]
      have hlen := hsub.length_le
      rw [List.length_cons, hn] at hlen
      refine .step hnext (ih _ (by omega) rfl hd' fun b hb c hc => ?_)
      have hb : b ∈ last.toList ++ as := List.mem_append_right _ (hsub.mem hb)
      exact hsame b hb c (hsub.mem (List.mem_cons_of_mem _ hc))

end

section

variable {σ α : Type} {next : σ → Option (Option α × σ)} {same : α → α → Option Bool}

/-- A call goes on from where it leaves the other iterator. -/
theorem nextLoop_inner : ∀ {n : Nat} {d d' : Distinct σ α} {o : Option α},
    nextLoop next same n d = some (o, d') →
    (o = none → ∃ as, Drains next d.inner as) ∧
      ∀ a, o = some a → ∀ as, Drains next d'.inner as →
        ∃ as', Drains next d.inner as' ∧ (a :: as).Sublist as'
  | n + 1, d, d', o, h => by
    simp only [nextLoop, Option.bind_eq_bind, Option.bind_eq_some_iff] at h
    obtain ⟨⟨_ | b, s⟩, hs, h⟩ := h
    · cases h
      exact ⟨fun _ => ⟨[], .done hs⟩, fun a ha => by cases ha⟩
    · obtain ⟨repeated, h⟩ : ∃ repeated : Bool, (if repeated then nextLoop next same n ⟨s, d.last⟩
          else some (some b, ⟨s, some b⟩)) = some (o, d') := by
        cases hlast : d.last with
        | none =>
          simp only [hlast] at h
          exact ⟨false, h⟩
        | some prev =>
          simp only [hlast] at h
          obtain ⟨repeated, -, h⟩ := Option.bind_eq_some_iff.mp h
          exact ⟨repeated, h⟩
      cases repeated with
      | false =>
        cases h
        refine ⟨fun ho => (by cases ho), fun a ha as hd => ?_⟩
        cases ha
        exact ⟨b :: as, .step hs hd, .refl _⟩
      | true =>
        obtain ⟨hnone, hsome⟩ := nextLoop_inner (n := n) h
        refine ⟨fun ho => ?_, fun a ha as hd => ?_⟩
        · obtain ⟨as, hd⟩ := hnone ho
          exact ⟨b :: as, .step hs hd⟩
        · obtain ⟨as', hd', hsub⟩ := hsome a ha as hd
          exact ⟨b :: as', .step hs hd', hsub.cons b⟩

/-- What is yielded was yielded by the other iterator. -/
theorem Distinct.drains_inner (bound : Distinct σ α → Nat) {d : Distinct σ α} {out : List α}
    (h : Drains (fun d => nextLoop next same (bound d) d) d out) :
    ∃ as, Drains next d.inner as ∧ out.Sublist as := by
  induction h with
  | done h =>
    obtain ⟨as, hd⟩ := (nextLoop_inner h).1 rfl
    exact ⟨as, hd, List.nil_sublist as⟩
  | step h _ ih =>
    obtain ⟨as, hd, hsub⟩ := ih
    obtain ⟨as', hd', hsub'⟩ := (nextLoop_inner h).2 _ rfl as hd
    exact ⟨as', hd', (hsub.cons_cons _).trans hsub'⟩

end

end LG
