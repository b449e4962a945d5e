import Logregator.Framework.Outcome
import Mathlib.Order.Lattice

/-!
# Binary search

`slice::binary_search_by`, as the standard library computes it: the loop
halves an interval that always holds the last element not greater than the
target, and one comparison decides at the end (`binarySearch`). Of several
equal elements it finds the last one; the documentation leaves the choice
open. `f i` compares element `i` with the target. `search_spec` says what it
returns when the elements are ordered, and `searchList_spec` for a list in the
order of a key, `binarySearch_inverted` what it returns when the comparison is
the wrong way round; `binarySearchM` is the same search with a comparison that
may fail.
-/

namespace LG

/-- The loop of `binary_search_by` on `base..base + size`. -/
def searchLoop (f : Nat → Ordering) : Nat → Nat → Nat → Nat
  | 0, base, _ => base
  | fuel + 1, base, size =>
    if size ≤ 1 then base
    else
      let half := size / 2
      let mid := base + half
      searchLoop f fuel (if f mid = .gt then base else mid) (size - half)

/-- `slice::binary_search_by` on `n` elements: `.ok` the index of an equal
element, `.error` the index to insert at. -/
def binarySearch (f : Nat → Ordering) (n : Nat) : Except Nat Nat :=
  if n = 0 then .error 0
  else
    let base := searchLoop f n 0 n
    match f base with
    | .eq => .ok base
    | .lt => .error (base + 1)
    | .gt => .error base

/-- `slice::binary_search_by` on a list. -/
def searchList {α : Type} (l : List α) (f : α → Ordering) : Except Nat Nat :=
  binarySearch (fun i => match l[i]? with
    | some a => f a
    | none => .gt) l.length

/-- The loop with a comparison that may fail or panic. -/
def searchLoopM {ε : Type} (f : Nat → Outcome ε Ordering) : Nat → Nat → Nat → Outcome ε Nat
  | 0, base, _ => .ok base
  | fuel + 1, base, size =>
    if size ≤ 1 then .ok base
    else do
      let half := size / 2
      let mid := base + half
      let c ← f mid
      searchLoopM f fuel (if c = .gt then base else mid) (size - half)

/-- `slice::binary_search_by` with a comparison that may fail or panic. -/
def binarySearchM {ε : Type} (f : Nat → Outcome ε Ordering) (n : Nat) :
    Outcome ε (Except Nat Nat) :=
  if n = 0 then .ok (.error 0)
  else do
    let base ← searchLoopM f n 0 n
    match ← f base with
    | .eq => return .ok base
    | .lt => return .error (base + 1)
    | .gt => return .error base

theorem searchLoop_lt (f : Nat → Ordering) : ∀ fuel base size : Nat, 0 < size →
    searchLoop f fuel base size < base + size
  | 0, base, size, h => by rw [searchLoop]; omega
  | fuel + 1, base, size, h => by
    unfold searchLoop
    split
    · omega
    · simp only
      split
      · have := searchLoop_lt f fuel base (size - size / 2) (by omega)
        omega
      · have := searchLoop_lt f fuel (base + size / 2) (size - size / 2) (by omega)
        omega

/-- Where no comparison fails, the two searches agree. -/
theorem searchLoopM_eq {ε : Type} {f : Nat → Outcome ε Ordering} {g : Nat → Ordering} {n : Nat}
    (h : ∀ i < n, f i = .ok (g i)) : ∀ fuel base size : Nat, base + size ≤ n →
    searchLoopM f fuel base size = .ok (searchLoop g fuel base size)
  | 0, base, size, _ => rfl
  | fuel + 1, base, size, hn => by
    rw [searchLoopM, searchLoop]
    split
    · rfl
    · simp only [h (base + size / 2) (by omega), Outcome.bind_ok]
      split
      · exact searchLoopM_eq h fuel _ _ (by omega)
      · exact searchLoopM_eq h fuel _ _ (by omega)

theorem binarySearchM_eq {ε : Type} {f : Nat → Outcome ε Ordering} {g : Nat → Ordering} {n : Nat}
    (h : ∀ i < n, f i = .ok (g i)) : binarySearchM f n = .ok (binarySearch g n) := by
  rw [binarySearchM, binarySearch]
  split
  · rfl
  · have hlt := searchLoop_lt g n 0 n (by omega)
    rw [searchLoopM_eq h n 0 n (by omega), Outcome.bind_ok, h _ (by omega), Outcome.bind_ok]
    simp only
    cases hg : g (searchLoop g n 0 n) <;> rfl

/-- Where no comparison panics, the loop ends in its range. -/
theorem searchLoopM_safe {ε : Type} {f : Nat → Outcome ε Ordering} {n : Nat}
    (h : ∀ i < n, f i ≠ .panic) (fuel : Nat) {base size : Nat} (hn : base + size ≤ n)
    (hpos : 0 < size) : (searchLoopM f fuel base size).Safe fun i => i < base + size := by
  induction fuel generalizing base size with
  | zero => exact Nat.lt_add_of_pos_right hpos
  | succ fuel ih =>
    rw [searchLoopM]
    split
    · exact Nat.lt_add_of_pos_right hpos
    · refine .bind (Outcome.safe_of_ne_panic (h _ (by omega))) fun c _ => ?_
      split
      · exact (ih (by omega) (by omega)).imp fun i hi => by omega
      · exact (ih (by omega) (by omega)).imp fun i hi => by omega

/-- Where no comparison panics, neither does the search. -/
theorem binarySearchM_ne_panic {ε : Type} {f : Nat → Outcome ε Ordering} {n : Nat}
    (h : ∀ i < n, f i ≠ .panic) : binarySearchM f n ≠ .panic := by
  apply Outcome.Safe.ne_panic (P := fun _ => True)
  rw [binarySearchM]
  split
  · trivial
  · refine .bind (searchLoopM_safe h n (by omega) (by omega)) fun base hbase => ?_
    refine .bind (Outcome.safe_of_ne_panic (h base (by omega))) fun c _ => ?_
    cases c with
    | lt => trivial
    | eq => trivial
    | gt => trivial

section Loop

variable {f : Nat → Ordering}

/-- The loop stays where all later elements are greater. -/
theorem searchLoop_of_gt : ∀ {fuel base size : Nat},
    (∀ i, base < i → i < base + size → f i = .gt) → searchLoop f fuel base size = base
  | 0, base, size, _ => rfl
  | fuel + 1, base, size, h => by
    unfold searchLoop
    split
    · rfl
    · simp only [h (base + size / 2) (by omega) (by omega), if_true]
      exact searchLoop_of_gt fun i hi hlt => h i hi (by omega)

/-- The loop ends on the last element where no later one is greater. -/
theorem searchLoop_of_ne_gt : ∀ {fuel base size : Nat}, size ≤ fuel + 1 → 0 < size →
    (∀ i, base < i → i < base + size → f i ≠ .gt) →
    searchLoop f fuel base size = base + size - 1
  | 0, base, size, hf, hpos, _ => by
    rw [searchLoop]
    omega
  | fuel + 1, base, size, hf, hpos, h => by
    unfold searchLoop
    split
    · omega
    · simp only [h (base + size / 2) (by omega) (by omega), if_false]
      rw [searchLoop_of_ne_gt (by omega) (by omega) fun i hi hlt => h i (by omega) (by omega)]
      omega

/-- The first step of a search: it looks at the middle element. -/
theorem searchLoop_first (f : Nat → Ordering) (n : Nat) :
    searchLoop f (n + 1) 0 (n + 1) =
      searchLoop f n (if f ((n + 1) / 2) = .gt then 0 else (n + 1) / 2) (n + 1 - (n + 1) / 2) := by
  conv_lhs => unfold searchLoop
  split
  · obtain rfl : n = 0 := by omega
    simp [searchLoop]
  · simp only [Nat.zero_add]

/-- A search with the comparison the wrong way round, for a target that is not
past the last element. The first comparison decides: it goes on to the end of
the half where the target is not, and finds only a target that is in the last
element, of two. -/
theorem binarySearch_inverted {n : Nat} (hn : 0 < n)
    (hlt : ∀ i j, i < j → j < n → f i ≠ .gt → f j = .lt) (hlast : f (n - 1) ≠ .gt) :
    binarySearch f n =
      if f (n / 2) = .gt then .error 0 else if f (n - 1) = .eq then .ok (n - 1) else .error n := by
  obtain ⟨n, rfl⟩ : ∃ k, n = k + 1 := ⟨n - 1, (Nat.sub_add_cancel hn).symm⟩
  rw [binarySearch, if_neg (by omega), searchLoop_first]
  by_cases hmid : f ((n + 1) / 2) = .gt
  · -- All that is left of the interval is greater.
    have hle (i : Nat) (hi : i ≤ (n + 1) / 2) : f i = .gt := by
      rcases Nat.eq_or_lt_of_le hi with rfl | hi
      · exact hmid
      · by_contra hne
        rw [hlt i _ hi (by omega) hne] at hmid
        cases hmid
    simp only [if_pos hmid]
    rw [searchLoop_of_gt fun i _ hi => hle i (by omega), hle 0 (Nat.zero_le _)]
  · -- Nothing that is left of the interval is.
    have hne (i : Nat) (hi : (n + 1) / 2 < i) (hin : i < n + 1) : f i ≠ .gt := by
      rw [hlt _ i hi hin hmid]
      simp
    have hloop : searchLoop f n ((n + 1) / 2) (n + 1 - (n + 1) / 2) = n := by
      rw [searchLoop_of_ne_gt (by omega) (by omega) fun i hi hin => hne i hi (by omega)]
      omega
    rw [Nat.add_sub_cancel] at hlast ⊢
    simp only [if_neg hmid, hloop]
    cases hf : f n with
    | eq | lt => rfl
    | gt => exact absurd hf hlast

end Loop

section Ordered

variable {f : Nat → Ordering} {n : Nat}

/-- The loop ends on the last element that is not greater than the target,
if there is one. -/
theorem searchLoop_spec (hgt : ∀ i j, i ≤ j → j < n → f i = .gt → f j = .gt) :
    ∀ fuel base size : Nat, size ≤ fuel + 1 → 0 < size → base + size ≤ n →
      (base = 0 ∨ f base ≠ .gt) → (∀ i, base + size ≤ i → i < n → f i = .gt) →
      (searchLoop f fuel base size = 0 ∨ f (searchLoop f fuel base size) ≠ .gt) ∧
        ∀ i, searchLoop f fuel base size < i → i < n → f i = .gt
  | 0, base, size, hf, h0, _, hb, ha => by
    unfold searchLoop
    exact ⟨hb, fun i hi hn => ha i (by omega) hn⟩
  | fuel + 1, base, size, hf, h0, hn, hb, ha => by
    unfold searchLoop
    split
    · exact ⟨hb, fun i hi hn => ha i (by omega) hn⟩
    · simp only
      split
      · rename_i hm
        exact searchLoop_spec hgt fuel base _ (by omega) (by omega) (by omega) hb
          fun i hi hin => hgt (base + size / 2) i (by omega) hin hm
      · rename_i hm
        exact searchLoop_spec hgt fuel (base + size / 2) _ (by omega) (by omega) (by omega)
          (.inr hm) fun i hi hin => ha i (by omega) hin

/-- Searching ordered elements: an index found is that of the last equal
element; an index to insert at has the smaller elements before it and the
greater ones from it on. -/
theorem search_spec (hgt : ∀ i j, i ≤ j → j < n → f i = .gt → f j = .gt)
    (hlt : ∀ i j, i ≤ j → j < n → f j = .lt → f i = .lt) :
    match binarySearch f n with
    | .ok i => i < n ∧ f i = .eq ∧ ∀ j, i < j → j < n → f j = .gt
    | .error i => i ≤ n ∧ (∀ j < i, f j = .lt) ∧ ∀ j, i ≤ j → j < n → f j = .gt := by
  unfold binarySearch
  by_cases hn : n = 0
  · subst hn
    simp
  rw [if_neg hn]
  have hb := searchLoop_lt f n 0 n (by omega)
  obtain ⟨hz, ha⟩ := searchLoop_spec hgt n 0 n (by omega) (by omega) (by omega) (.inl rfl)
    fun i hi hin => absurd hin (by omega)
  generalize searchLoop f n 0 n = b at hb hz ha ⊢
  rw [Nat.zero_add] at hb
  simp only
  cases hf : f b with
  | eq => exact ⟨hb, hf, ha⟩
  | lt =>
    exact ⟨hb, fun j hj => hlt j b (by omega) hb hf, fun j hj hjn => ha j (by omega) hjn⟩
  | gt =>
    have h0 : b = 0 := hz.resolve_right (not_not.mpr hf)
    subst h0
    exact ⟨by omega, fun j hj => absurd hj (by omega), fun j _ hjn => hgt 0 j (by omega) hjn hf⟩

end Ordered

section Sorted

variable {α κ : Type} [LinearOrder κ] {key : α → κ} {l : List α} {k : κ}

/-- How the element at an index compares to the target. -/
def compareAt (key : α → κ) (l : List α) (k : κ) (i : Nat) : Ordering :=
  match l[i]? with
  | some a => compare (key a) k
  | none => .gt

theorem compareAt_eq {i : Nat} {a : α} (h : l[i]? = some a) :
    compareAt key l k i = compare (key a) k := by
  simp only [compareAt, h]

/-- The keys ascend with the indices. -/
theorem key_le_of_getElem? (hl : l.Pairwise fun a b => key a ≤ key b) {i j : Nat} {a b : α}
    (hij : i ≤ j) (hi : l[i]? = some a) (hj : l[j]? = some b) : key a ≤ key b := by
  rcases Nat.eq_or_lt_of_le hij with rfl | hlt
  · rw [hi] at hj
    cases hj
    exact le_rfl
  · obtain ⟨hi', rfl⟩ := List.getElem?_eq_some_iff.mp hi
    obtain ⟨hj', rfl⟩ := List.getElem?_eq_some_iff.mp hj
    exact List.pairwise_iff_getElem.mp hl i j hi' hj' hlt

theorem compareAt_gt_of_le (hl : l.Pairwise fun a b => key a ≤ key b) {i j : Nat} (hij : i ≤ j)
    (hj : j < l.length) (h : compareAt key l k i = .gt) : compareAt key l k j = .gt := by
  have hi := List.getElem?_eq_getElem (show i < l.length by omega)
  have hj := List.getElem?_eq_getElem hj
  rw [compareAt_eq hi, compare_gt_iff_gt] at h
  rw [compareAt_eq hj, compare_gt_iff_gt]
  exact lt_of_lt_of_le h (key_le_of_getElem? hl hij hi hj)

theorem compareAt_lt_of_le (hl : l.Pairwise fun a b => key a ≤ key b) {i j : Nat} (hij : i ≤ j)
    (hj : j < l.length) (h : compareAt key l k j = .lt) : compareAt key l k i = .lt := by
  have hi := List.getElem?_eq_getElem (show i < l.length by omega)
  have hj := List.getElem?_eq_getElem hj
  rw [compareAt_eq hj, compare_lt_iff_lt] at h
  rw [compareAt_eq hi, compare_lt_iff_lt]
  exact lt_of_le_of_lt (key_le_of_getElem? hl hij hi hj) h

/-- What compares as greater from an index on, and as smaller before it. -/
theorem lt_key_of_mem_drop {i : Nat}
    (h : ∀ j, i ≤ j → j < l.length → compareAt key l k j = .gt) : ∀ b ∈ l.drop i, k < key b := by
  intro b hb
  obtain ⟨j, hj⟩ := List.mem_iff_getElem?.mp hb
  rw [List.getElem?_drop] at hj
  have := h (i + j) (by omega) (List.getElem?_eq_some_iff.mp hj).1
  rwa [compareAt_eq hj, compare_gt_iff_gt] at this

theorem key_lt_of_mem_take {i : Nat} (h : ∀ j < i, compareAt key l k j = .lt) :
    ∀ b ∈ l.take i, key b < k := by
  intro b hb
  obtain ⟨j, hj⟩ := List.mem_iff_getElem?.mp hb
  rw [List.getElem?_take] at hj
  split at hj
  · rename_i hji
    have := h j hji
    rwa [compareAt_eq hj, compare_lt_iff_lt] at this
  · cases hj

/-- Searching a list in the order of `key`. -/
theorem searchList_spec (hl : l.Pairwise fun a b => key a ≤ key b) (k : κ) :
    match searchList l fun a => compare (key a) k with
    | .ok i => (∃ a, l[i]? = some a ∧ key a = k) ∧ ∀ b ∈ l.drop (i + 1), k < key b
    | .error i => i ≤ l.length ∧ (∀ b ∈ l.take i, key b < k) ∧ ∀ b ∈ l.drop i, k < key b := by
  have hspec := search_spec (f := compareAt key l k)
    (fun _ _ hij hj => compareAt_gt_of_le hl hij hj) (fun _ _ hij hj => compareAt_lt_of_le hl hij hj)
  rw [show searchList l (fun a => compare (key a) k) =
    binarySearch (compareAt key l k) l.length from rfl]
  cases hb : binarySearch (compareAt key l k) l.length with
  | ok i =>
    rw [hb] at hspec
    obtain ⟨hi, heq, hafter⟩ := hspec
    have hi := List.getElem?_eq_getElem hi
    rw [compareAt_eq hi, compare_eq_iff_eq] at heq
    exact ⟨⟨_, hi, heq⟩, lt_key_of_mem_drop fun j hj => hafter j (by omega)⟩
  | error i =>
    rw [hb] at hspec
    obtain ⟨hi, hbefore, hafter⟩ := hspec
    exact ⟨hi, key_lt_of_mem_take hbefore, lt_key_of_mem_drop hafter⟩

end Sorted

end LG
