import Logregator.Framework.Iter
import Mathlib.Data.List.Sort
import Mathlib.Data.List.Flatten

/-!
# Merging sources with a heap

A k-way merge: the heap holds the next element of each source, `next` pops a
least one and draws its source again (`Merge.next`). What a source will still
give is its `rest`. `Merging` is the invariant of a merge of ascending sources:
drawing a source keeps it and what is pending (`Merging.fill`), and a pop takes
a least pending element (`Merging.pop`). The heap is any that pops a least
element (`MinHeap`); `MinHeap.sortedList` is one.
-/

namespace LG

/-- A heap that pops a least element: what is known of `BinaryHeap` over
`Reverse` items. -/
structure MinHeap (α : Type) {κ : Type} [LinearOrder κ] (key : α → κ) where
  H : Type
  empty : H
  push : H → α → H
  pop : H → Option (α × H)
  items : H → List α
  items_empty : items empty = []
  items_push : ∀ h a, (items (push h a)).Perm (a :: items h)
  pop_none : ∀ {h}, pop h = none → items h = []
  pop_some : ∀ {h a h'}, pop h = some (a, h') →
    (items h).Perm (a :: items h') ∧ ∀ b ∈ items h', key a ≤ key b

/-- A heap kept as an ascending list. -/
def MinHeap.sortedList (α : Type) {κ : Type} [LinearOrder κ] (key : α → κ) : MinHeap α key where
  H := { l : List α // l.Pairwise fun a b => key a ≤ key b }
  empty := ⟨[], .nil⟩
  push h a := ⟨h.1.orderedInsert (fun a b => key a ≤ key b) a,
    have : Std.Total fun a b => key a ≤ key b := ⟨fun a b => le_total (key a) (key b)⟩
    have : IsTrans α fun a b => key a ≤ key b := ⟨fun _ _ _ => le_trans⟩
    h.2.orderedInsert a⟩
  pop h := match h with
    | ⟨[], _⟩ => none
    | ⟨a :: l, h⟩ => some (a, ⟨l, h.of_cons⟩)
  items h := h.1
  items_empty := rfl
  items_push h a := List.perm_orderedInsert _ a h.1
  pop_none {h} hp := by
    obtain ⟨_ | ⟨a, l⟩, hl⟩ := h
    · rfl
    · cases hp
  pop_some {h a h'} hp := by
    obtain ⟨_ | ⟨b, l⟩, hl⟩ := h
    · cases hp
    · cases hp
      exact ⟨.refl _, fun c hc => List.rel_of_pairwise_cons hl hc⟩

section

variable {α ι σ κ : Type} [LinearOrder κ] {key : α → κ}
  (hp : MinHeap (α × ι) fun p => key p.1) (draw : σ → ι → Option (Option α × σ))

/-- The state of a merge: the sources, and the elements drawn from them. -/
structure Merge (hp : MinHeap (α × ι) fun p => key p.1) (σ : Type) where
  sources : σ
  heap : hp.H

namespace Merge

variable {hp}

/-- Draws a source and keeps what it gives. -/
def fill (m : Merge hp σ) (i : ι) : Option (Merge hp σ) := do
  let (a, s) ← draw m.sources i
  match a with
  | some a => return ⟨s, hp.push m.heap (a, i)⟩
  | none => return ⟨s, m.heap⟩

/-- Draws sources in turn. -/
def fillAll : List ι → Merge hp σ → Option (Merge hp σ)
  | [], m => some m
  | i :: is, m => do fillAll is (← m.fill draw i)

/-- Pops a least element and draws its source again. -/
def next (m : Merge hp σ) : Option (Option α × Merge hp σ) :=
  match hp.pop m.heap with
  | none => some (none, m)
  | some ((a, i), h) => do
    let m ← fill draw { m with heap := h } i
    return (some a, m)

end Merge

/-- Sources in the states `Valid`: what `rest` says a source will still give
is what it gives, and drawing one leaves the others alone. -/
structure Sourced (rest : σ → ι → List α) (srcs : List ι) (Valid : σ → Prop) : Prop where
  nodup : srcs.Nodup
  draw : ∀ {s i}, Valid s → i ∈ srcs → ∃ s', draw s i = some ((rest s i).head?, s') ∧ Valid s' ∧
    rest s' i = (rest s i).tail ∧ ∀ j, j ≠ i → rest s' j = rest s j

end

section

variable {α ι σ κ : Type} [LinearOrder κ] {key : α → κ}
  {hp : MinHeap (α × ι) fun p => key p.1} {draw : σ → ι → Option (Option α × σ)}
  {rest : σ → ι → List α} {srcs : List ι} {Valid : σ → Prop}

/-- What a merge will still yield. -/
def pending (rest : σ → ι → List α) (srcs : List ι) (m : Merge hp σ) : List α :=
  (hp.items m.heap).map Prod.fst ++ srcs.flatMap (rest m.sources)

/-- The heap holds an element of each source in `F` that has more to give,
and only elements that come before what their source will give. -/
structure Merging (rest : σ → ι → List α) (srcs : List ι) (Valid : σ → Prop) (F : ι → Prop)
    (m : Merge hp σ) : Prop where
  valid : Valid m.sources
  ascending : ∀ i ∈ srcs, (rest m.sources i).Pairwise fun a b => key a ≤ key b
  source : ∀ p ∈ hp.items m.heap, p.2 ∈ srcs
  first : ∀ p ∈ hp.items m.heap, ∀ b ∈ rest m.sources p.2, key p.1 ≤ key b
  filled : ∀ i, F i → rest m.sources i ≠ [] → ∃ p ∈ hp.items m.heap, p.2 = i

/-- Taking the first element of one of several lists. -/
theorem flatMap_tail_perm {f g : ι → List α} {i : ι} {a : α} (hi : f i = a :: g i)
    (hne : ∀ j, j ≠ i → g j = f j) : ∀ {srcs : List ι}, srcs.Nodup → i ∈ srcs →
    (srcs.flatMap f).Perm (a :: srcs.flatMap g)
  | j :: srcs, hnd, hmem => by
    obtain ⟨hj, hnd⟩ := List.nodup_cons.mp hnd
    rw [List.flatMap_cons, List.flatMap_cons]
    by_cases hji : j = i
    · subst hji
      have hrest : srcs.flatMap f = srcs.flatMap g := by
        refine List.flatMap_congr fun k hk => (hne k ?_).symm
        rintro rfl
        exact hj hk
      rw [hi, hrest]
      exact .refl _
    · have hmem := (List.mem_cons.mp hmem).resolve_left (Ne.symm hji)
      rw [hne j hji]
      exact ((flatMap_tail_perm hi hne hnd hmem).append_left _).trans List.perm_middle

/-- Drawing a source whose elements in the heap come before what it will
give. -/
theorem Merging.fill {F : ι → Prop} {m : Merge hp σ} {i : ι} {s' : σ}
    (hm : Merging rest srcs Valid F m) (rest' : σ → ι → List α) (hnd : srcs.Nodup) (hi : i ∈ srcs)
    (hdraw : draw m.sources i = some ((rest m.sources i).head?, s')) (hvalid : Valid s')
    (htail : rest' s' i = (rest m.sources i).tail)
    (hother : ∀ j, j ≠ i → rest' s' j = rest m.sources j) :
    ∃ m', m.fill draw i = some m' ∧ m'.sources = s' ∧
      Merging rest' srcs Valid (fun j => j = i ∨ F j) m' ∧
      (pending rest srcs m).Perm (pending rest' srcs m') := by
  have hsub (j : ι) : (rest' s' j).Sublist (rest m.sources j) := by
    by_cases hj : j = i
    · rw [hj, htail]
      exact List.tail_sublist _
    · rw [hother j hj]
  have hasc (j : ι) (hj : j ∈ srcs) := (hm.ascending j hj).sublist (hsub j)
  cases hr : rest m.sources i with
  | nil =>
    have hsame : rest' s' = rest m.sources := by
      funext j
      by_cases hj : j = i
      · rw [hj, htail, hr, List.tail_nil]
      · exact hother j hj
    refine ⟨⟨s', m.heap⟩, by simp [Merge.fill, hdraw, hr], rfl, ?_, by simp [pending, hsame]⟩
    refine ⟨hvalid, hasc, hm.source, fun p hp b hb => hm.first p hp b ((hsub _).mem hb), ?_⟩
    intro j hj hne
    rw [show rest' s' j = rest m.sources j from congrFun hsame j] at hne
    rcases hj with rfl | hj
    · exact absurd hr hne
    · exact hm.filled j hj hne
  | cons a as =>
    rw [hr, List.tail_cons] at htail
    have hitems := hp.items_push m.heap (a, i)
    refine ⟨⟨s', hp.push m.heap (a, i)⟩, by simp [Merge.fill, hdraw, hr], rfl, ?_, ?_⟩
    · refine ⟨hvalid, hasc, fun p hp => ?_, fun p hp b hb => ?_, fun j hj hne => ?_⟩
      · rcases List.mem_cons.mp (hitems.mem_iff.mp hp) with rfl | hp
        · exact hi
        · exact hm.source p hp
      · rcases List.mem_cons.mp (hitems.mem_iff.mp hp) with rfl | hp
        · have := hm.ascending i hi
          rw [hr] at this
          exact List.rel_of_pairwise_cons this (htail ▸ hb)
        · exact hm.first p hp b ((hsub _).mem hb)
      · rcases hj with rfl | hj
        · exact ⟨(a, j), hitems.mem_iff.mpr List.mem_cons_self, rfl⟩
        · obtain ⟨p, hp, hpj⟩ := hm.filled j hj fun h => hne (List.sublist_nil.mp (h ▸ hsub j))
          exact ⟨p, hitems.mem_iff.mpr (List.mem_cons_of_mem _ hp), hpj⟩
    · have hflat := flatMap_tail_perm (hr.trans (by rw [htail])) hother hnd hi
      refine (hflat.append_left _).trans (List.perm_middle.trans ?_)
      exact (List.Perm.append_right _ (hitems.map Prod.fst)).symm

/-- Without elements in the heap nothing is pending. -/
theorem Merging.pending_eq_nil {m : Merge hp σ} (hm : Merging rest srcs Valid (· ∈ srcs) m)
    (hpop : hp.pop m.heap = none) : pending rest srcs m = [] := by
  have hitems := hp.pop_none hpop
  rw [pending, hitems, List.map_nil, List.nil_append, List.flatMap_eq_nil_iff]
  intro i hi
  by_contra hne
  obtain ⟨p, hp', -⟩ := hm.filled i hi hne
  simp [hitems] at hp'

/-- A pop takes a least pending element; every other source is still
filled. -/
theorem Merging.pop {m : Merge hp σ} (hm : Merging rest srcs Valid (· ∈ srcs) m) {a : α} {i : ι}
    {h : hp.H} (hpop : hp.pop m.heap = some ((a, i), h)) :
    i ∈ srcs ∧
      Merging rest srcs Valid (fun j => j ∈ srcs ∧ j ≠ i) (⟨m.sources, h⟩ : Merge hp σ) ∧
      (pending rest srcs m).Perm (a :: pending rest srcs (⟨m.sources, h⟩ : Merge hp σ)) ∧
      ∀ b ∈ pending rest srcs m, key a ≤ key b := by
  obtain ⟨hperm, hle⟩ := hp.pop_some hpop
  have hmem {p : α × ι} (hp' : p ∈ hp.items h) : p ∈ hp.items m.heap :=
    hperm.mem_iff.mpr (List.mem_cons_of_mem _ hp')
  have ha : (a, i) ∈ hp.items m.heap := hperm.mem_iff.mpr List.mem_cons_self
  have hleast (p : α × ι) (hp' : p ∈ hp.items m.heap) : key a ≤ key p.1 := by
    rcases List.mem_cons.mp (hperm.mem_iff.mp hp') with rfl | hp'
    · exact le_rfl
    · exact hle p hp'
  refine ⟨hm.source _ ha, ⟨hm.valid, hm.ascending, fun p hp' => hm.source p (hmem hp'),
    fun p hp' => hm.first p (hmem hp'), fun j hj hne => ?_⟩, ?_, fun b hb => ?_⟩
  · obtain ⟨p, hp', rfl⟩ := hm.filled j hj.1 hne
    rcases List.mem_cons.mp (hperm.mem_iff.mp hp') with rfl | hp'
    · exact absurd rfl hj.2
    · exact ⟨p, hp', rfl⟩
  · exact List.Perm.append_right _ (hperm.map Prod.fst)
  · rcases List.mem_append.mp hb with hb | hb
    · obtain ⟨p, hp', rfl⟩ := List.mem_map.mp hb
      exact hleast p hp'
    · -- An element still to be drawn comes after one in the heap.
      obtain ⟨j, hj, hb⟩ := List.mem_flatMap.mp hb
      obtain ⟨p, hp', rfl⟩ := hm.filled j hj (List.ne_nil_of_mem hb)
      exact (hleast p hp').trans (hm.first p hp' b hb)

/-- Sources that can always be drawn. -/
theorem exists_fillAll (Valid : σ → Prop) {srcs : List ι}
    (hdraw : ∀ {s i}, Valid s → i ∈ srcs → ∃ a s', draw s i = some (a, s') ∧ Valid s') :
    ∀ {is : List ι} {m : Merge hp σ}, (∀ i ∈ is, i ∈ srcs) → Valid m.sources →
      ∃ m', m.fillAll draw is = some m'
  | [], m, _, _ => ⟨m, rfl⟩
  | i :: is, m, his, hv => by
    obtain ⟨hi, his⟩ := List.forall_mem_cons.mp his
    obtain ⟨a, s', hd, hv'⟩ := hdraw hv hi
    cases a with
    | none =>
      obtain ⟨m', hm'⟩ := exists_fillAll Valid hdraw (m := ⟨s', m.heap⟩) his hv'
      exact ⟨m', by simp [Merge.fillAll, Merge.fill, hd, hm']⟩
    | some a =>
      obtain ⟨m', hm'⟩ := exists_fillAll Valid hdraw (m := ⟨s', hp.push m.heap (a, i)⟩) his hv'
      exact ⟨m', by simp [Merge.fillAll, Merge.fill, hd, hm']⟩

/-- A merge with nothing drawn yet. -/
theorem merging_empty (hp : MinHeap (α × ι) fun p => key p.1) {s : σ} (hv : Valid s)
    (hasc : ∀ i ∈ srcs, (rest s i).Pairwise fun a b => key a ≤ key b) :
    Merging rest srcs Valid (fun _ => False) (⟨s, hp.empty⟩ : Merge hp σ) :=
  ⟨hv, hasc, by simp [hp.items_empty], by simp [hp.items_empty], fun _ h => h.elim⟩

/-- A merge yields no more than is in the heap and the sources have to give,
by any measure of the sources that drawing an element makes smaller. -/
theorem Merge.length_le {μ : σ → Nat}
    (hsome : ∀ {s s' i a}, draw s i = some (some a, s') → μ s' < μ s)
    (hnone : ∀ {s s' i}, draw s i = some (none, s') → μ s' ≤ μ s) {m : Merge hp σ} {as : List α}
    (hd : Drains (Merge.next draw) m as) :
    as.length ≤ (hp.items m.heap).length + μ m.sources := by
  induction hd with
  | done h => exact Nat.zero_le _
  | @step m m' a as h hd ih =>
    cases hpop : hp.pop m.heap with
    | none => simp [Merge.next, hpop] at h
    | some popped =>
      obtain ⟨⟨b, i⟩, heap⟩ := popped
      have hitems := (hp.pop_some hpop).1.length_eq
      rw [List.length_cons] at hitems
      match hdraw : draw m.sources i with
      | none => simp [Merge.next, Merge.fill, hpop, hdraw] at h
      | some (none, s) =>
        simp only [Merge.next, Merge.fill, hpop, hdraw, Option.bind_eq_bind, Option.bind_some,
          Option.pure_def, Option.some.injEq, Prod.mk.injEq] at h
        obtain ⟨-, rfl⟩ := h
        have := hnone hdraw
        simp only [List.length_cons] at ih ⊢
        omega
      | some (some b', s) =>
        simp only [Merge.next, Merge.fill, hpop, hdraw, Option.bind_eq_bind, Option.bind_some,
          Option.pure_def, Option.some.injEq, Prod.mk.injEq] at h
        obtain ⟨-, rfl⟩ := h
        have := hsome hdraw
        have hpush := (hp.items_push heap (b', i)).length_eq
        simp only [List.length_cons] at ih hpush ⊢
        omega

end

end LG
