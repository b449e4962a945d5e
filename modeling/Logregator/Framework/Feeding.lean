import Logregator.Framework.Draws

/-!
# What a merge yields of sources that end

A source gives a sequence and then nothing; what it would give after that is
not known (`Feeds`). A merge does not draw such a source again: of each source
it has drawn, either an element is in the heap or the source has ended (`Fed`).
So a merge of ascending sources pops all they give, in ascending order, and
the elements of each source in its order (`pops_feeds`). Sources that still
give nothing after their end are a special case (`drains_merge`).
-/

namespace LG

variable {α ι σ κ : Type} [LinearOrder κ] {key : α → κ}
  {hp : MinHeap (α × ι) fun p => key p.1}

/-- Calling `next` until it returns `None` pops the elements, each with its
source. -/
inductive Merge.Pops (draw : σ → ι → Option (Option α × σ)) : Merge hp σ → List (α × ι) → Prop
  | done {m} (h : hp.pop m.heap = none) : Pops draw m []
  | step {m m' a i heap ps} (hpop : hp.pop m.heap = some ((a, i), heap))
    (hfill : fill draw { m with heap := heap } i = some m') (hps : Pops draw m' ps) :
    Pops draw m ((a, i) :: ps)

/-- `Gives s i as`: source `i` gives `as` from the state `s` on, and then
nothing. Drawing it leaves the other sources alone; a source that has ended is
in no particular state. -/
structure Feeds (draw : σ → ι → Option (Option α × σ)) (srcs : List ι)
    (Gives : σ → ι → List α → Prop) : Prop where
  nodup : srcs.Nodup
  draw : ∀ {s i as}, i ∈ srcs → Gives s i as → ∃ s', draw s i = some (as.head?, s') ∧
    (as ≠ [] → Gives s' i as.tail) ∧ ∀ j, j ≠ i → ∀ bs, Gives s j bs → Gives s' j bs

variable [DecidableEq ι]

/-- The elements of a source that are in the heap. -/
def waiting (i : ι) (m : Merge hp σ) : List α := drawnFrom i (hp.items m.heap)

/-- The sources in `F` have been drawn: each has one element in the heap and
gives `seq` after it, or has ended. The others give `seq`. -/
structure Fed (Gives : σ → ι → List α → Prop) (srcs : List ι) (seq : ι → List α) (F : ι → Prop)
    (m : Merge hp σ) : Prop where
  merging : Merging (fun _ => seq) srcs (fun _ => True) F m
  one : ∀ i, (waiting i m).length ≤ 1
  fresh : ∀ i ∈ srcs, ¬ F i → waiting i m = []
  gives : ∀ i ∈ srcs, (F i → waiting i m ≠ []) → Gives m.sources i (seq i)

/-! ## The heap -/

section Heap

variable {draw : σ → ι → Option (Option α × σ)} {i : ι}

omit [DecidableEq ι] in
theorem Merge.Pops.drains {m : Merge hp σ} {ps : List (α × ι)} (h : Merge.Pops draw m ps) :
    Drains (Merge.next draw) m (ps.map Prod.fst) := by
  induction h with
  | done hpop => exact .done (by rw [Merge.next, hpop])
  | step hpop hfill _ ih => exact .step (by rw [Merge.next, hpop]; simp [hfill]) ih

omit [LinearOrder κ] [DecidableEq ι] in
/-- Lists of one element are equal up to their order only if they are equal. -/
theorem eq_of_perm_short {l l' : List α} (h : l.Perm l') (hl : l'.length ≤ 1) : l = l' := by
  match l' with
  | [] => exact h.eq_nil
  | [a] => exact List.perm_singleton.mp h

theorem drawnFrom_perm {ds ds' : List (α × ι)} (h : ds.Perm ds') :
    (drawnFrom i ds).Perm (drawnFrom i ds') := (h.filter _).map _

theorem waiting_fill_self {m m' : Merge hp σ} (h : m.fill draw i = some m')
    (hempty : waiting i m = []) :
    ∃ a, draw m.sources i = some (a, m'.sources) ∧ waiting i m' = a.toList := by
  obtain ⟨a, hdraw, -, hitems⟩ := Merge.fill_eq_some h
  have hperm := drawnFrom_perm (i := i) hitems
  rw [drawnFrom_append, drawnFrom_self, show drawnFrom i (hp.items m.heap) = [] from hempty,
    List.append_nil] at hperm
  exact ⟨a, hdraw, eq_of_perm_short hperm (by cases a <;> simp)⟩

theorem waiting_fill_other {m m' : Merge hp σ} {j : ι} (h : m.fill draw j = some m') (hj : j ≠ i)
    (hone : (waiting i m).length ≤ 1) : waiting i m' = waiting i m := by
  obtain ⟨a, -, -, hitems⟩ := Merge.fill_eq_some h
  have hperm := drawnFrom_perm (i := i) hitems
  rw [drawnFrom_append, drawnFrom_other hj, List.nil_append] at hperm
  exact eq_of_perm_short hperm hone

theorem waiting_pop_self {m : Merge hp σ} {a : α} {h : hp.H}
    (hpop : hp.pop m.heap = some ((a, i), h)) (hone : (waiting i m).length ≤ 1) :
    waiting i m = [a] ∧ waiting i (⟨m.sources, h⟩ : Merge hp σ) = [] := by
  have hperm : (waiting i m).Perm (a :: waiting i (⟨m.sources, h⟩ : Merge hp σ)) := by
    simpa [waiting, drawnFrom] using drawnFrom_perm (i := i) (hp.pop_some hpop).1
  have hlen := hperm.length_eq
  rw [List.length_cons] at hlen
  have hnil : waiting i (⟨m.sources, h⟩ : Merge hp σ) = [] :=
    List.length_eq_zero_iff.mp (by omega)
  rw [hnil] at hperm
  exact ⟨List.perm_singleton.mp hperm, hnil⟩

theorem waiting_pop_other {m : Merge hp σ} {a : α} {j : ι} {h : hp.H}
    (hpop : hp.pop m.heap = some ((a, j), h)) (hj : j ≠ i) (hone : (waiting i m).length ≤ 1) :
    waiting i (⟨m.sources, h⟩ : Merge hp σ) = waiting i m := by
  have hperm : (waiting i (⟨m.sources, h⟩ : Merge hp σ)).Perm (waiting i m) := by
    simpa [waiting, drawnFrom, hj] using (drawnFrom_perm (i := i) (hp.pop_some hpop).1).symm
  exact eq_of_perm_short hperm hone

end Heap

/-! ## Steps -/

section Steps

variable {draw : σ → ι → Option (Option α × σ)} {srcs : List ι} {Gives : σ → ι → List α → Prop}
  {seq : ι → List α}

/-- What is still to come of a source. -/
def coming (seq : ι → List α) (i : ι) (m : Merge hp σ) : List α := waiting i m ++ seq i

/-- Drawing a source for the first time after its last element was popped: what
is to come of each source stays. -/
theorem Fed.fill (hf : Feeds draw srcs Gives) {F : ι → Prop} {m : Merge hp σ}
    (hm : Fed Gives srcs seq F m) {i : ι} (hi : i ∈ srcs) (hF : ¬ F i) :
    ∃ m' seq', m.fill draw i = some m' ∧ Fed Gives srcs seq' (fun j => j = i ∨ F j) m' ∧
      (∀ j, coming seq' j m' = coming seq j m) ∧
      (pending (fun _ => seq) srcs m).Perm (pending (fun _ => seq') srcs m') := by
  have hempty := hm.fresh i hi hF
  obtain ⟨s', hdraw, hself, hother⟩ := hf.draw hi (hm.gives i hi fun h => absurd h hF)
  let seq' := Function.update seq i (seq i).tail
  have htail : seq' i = (seq i).tail := Function.update_self ..
  have hsame (j : ι) (hj : j ≠ i) : seq' j = seq j := Function.update_of_ne hj ..
  obtain ⟨m', hfill, rfl, hmerging, hpend⟩ := hm.merging.fill (fun _ => seq') hf.nodup hi
    hdraw trivial htail hsame
  obtain ⟨a, hdraw', hself'⟩ := waiting_fill_self hfill hempty
  obtain rfl : (seq i).head? = a := by
    rw [hdraw] at hdraw'
    exact (Prod.mk.inj (Option.some.inj hdraw')).1
  have hrest (j : ι) (hj : j ≠ i) : waiting j m' = waiting j m :=
    waiting_fill_other hfill (Ne.symm hj) (hm.one j)
  refine ⟨m', seq', hfill, ⟨hmerging, fun j => ?_, fun j hj hF' => ?_, fun j hj hwait => ?_⟩,
    fun j => ?_, hpend⟩
  · by_cases hji : j = i
    · rw [hji, hself']
      cases (seq i).head? <;> simp
    · rw [hrest j hji]
      exact hm.one j
  · obtain ⟨hji, hF'⟩ := not_or.mp hF'
    rw [hrest j hji]
    exact hm.fresh j hj hF'
  · by_cases hji : j = i
    · subst hji
      rw [htail]
      refine hself fun hnil => hwait (.inl rfl) ?_
      rw [hself', hnil]
      rfl
    · rw [hsame j hji]
      exact hother j hji _ (hm.gives j hj fun hFj => hrest j hji ▸ hwait (.inr hFj))
  · by_cases hji : j = i
    · rw [hji, coming, coming, hself', htail, hempty]
      cases seq i <;> rfl
    · rw [coming, coming, hrest j hji, hsame j hji]

theorem Fed.fillAll (hf : Feeds draw srcs Gives) : ∀ {is : List ι} {F : ι → Prop}
    {seq : ι → List α} {m : Merge hp σ}, Fed Gives srcs seq F m → is.Nodup →
    (∀ i ∈ is, i ∈ srcs ∧ ¬ F i) →
    ∃ m' seq', m.fillAll draw is = some m' ∧ Fed Gives srcs seq' (fun j => j ∈ is ∨ F j) m' ∧
      (∀ j, coming seq' j m' = coming seq j m) ∧
      (pending (fun _ => seq) srcs m).Perm (pending (fun _ => seq') srcs m')
  | [], F, seq, m, hm, _, _ =>
    ⟨m, seq, rfl, by simpa using hm, fun _ => rfl, .refl _⟩
  | i :: is, F, seq, m, hm, hnd, his => by
    obtain ⟨hi, hnd⟩ := List.nodup_cons.mp hnd
    obtain ⟨⟨hsrc, hF⟩, his⟩ := List.forall_mem_cons.mp his
    obtain ⟨m₁, seq₁, hfill, hm₁, hcoming₁, hpend₁⟩ := hm.fill hf hsrc hF
    have hlater (j : ι) (hj : j ∈ is) : j ∈ srcs ∧ ¬ (j = i ∨ F j) :=
      ⟨(his j hj).1, not_or.mpr ⟨fun h => hi (h ▸ hj), (his j hj).2⟩⟩
    obtain ⟨m₂, seq₂, hfills, hm₂, hcoming₂, hpend₂⟩ := Fed.fillAll hf hm₁ hnd hlater
    refine ⟨m₂, seq₂, by simp [Merge.fillAll, hfill, hfills], ?_,
      fun j => (hcoming₂ j).trans (hcoming₁ j), hpend₁.trans hpend₂⟩
    have hsets : (fun j => j ∈ is ∨ j = i ∨ F j) = fun j => j ∈ i :: is ∨ F j := by
      funext j
      rw [List.mem_cons, or_assoc, or_left_comm]
    rwa [← hsets]

/-- A pop takes the element of its source from the heap; the source is to be
drawn again. -/
theorem Fed.pop {m : Merge hp σ} (hm : Fed Gives srcs seq (· ∈ srcs) m) {a : α} {i : ι} {h : hp.H}
    (hpop : hp.pop m.heap = some ((a, i), h)) :
    Fed Gives srcs seq (fun j => j ∈ srcs ∧ j ≠ i) (⟨m.sources, h⟩ : Merge hp σ) ∧
      coming seq i m = a :: coming seq i (⟨m.sources, h⟩ : Merge hp σ) ∧
      ∀ j, j ≠ i → coming seq j (⟨m.sources, h⟩ : Merge hp σ) = coming seq j m := by
  obtain ⟨-, hmerging, -⟩ := hm.merging.pop hpop
  obtain ⟨hself, hempty⟩ := waiting_pop_self hpop (hm.one i)
  have hrest (j : ι) (hj : j ≠ i) : waiting j (⟨m.sources, h⟩ : Merge hp σ) = waiting j m :=
    waiting_pop_other hpop (Ne.symm hj) (hm.one j)
  refine ⟨⟨hmerging, fun j => ?_, fun j hj hF => ?_, fun j hj hwait => ?_⟩, ?_, fun j hj => ?_⟩
  · by_cases hji : j = i
    · rw [hji, hempty]
      exact Nat.zero_le 1
    · rw [hrest j hji]
      exact hm.one j
  · obtain rfl : j = i := by
      by_contra hji
      exact hF ⟨hj, hji⟩
    exact hempty
  · refine hm.gives j hj fun _ => ?_
    by_cases hji : j = i
    · rw [hji, hself]
      exact List.cons_ne_nil _ _
    · exact hrest j hji ▸ hwait ⟨hj, hji⟩
  · rw [coming, coming, hself, hempty]
    rfl
  · rw [coming, coming, hrest j hj]

/-- A step pops a least pending element, the next one of its source. -/
theorem Fed.next (hf : Feeds draw srcs Gives) {m : Merge hp σ}
    (hm : Fed Gives srcs seq (· ∈ srcs) m) :
    (hp.pop m.heap = none ∧ pending (fun _ => seq) srcs m = []) ∨
      ∃ a i h m' seq', i ∈ srcs ∧ hp.pop m.heap = some ((a, i), h) ∧
        Merge.fill draw { m with heap := h } i = some m' ∧ Fed Gives srcs seq' (· ∈ srcs) m' ∧
        coming seq i m = a :: coming seq' i m' ∧
        (∀ j, j ≠ i → coming seq j m = coming seq' j m') ∧
        (pending (fun _ => seq) srcs m).Perm (a :: pending (fun _ => seq') srcs m') ∧
        ∀ b ∈ pending (fun _ => seq') srcs m', key a ≤ key b := by
  cases hpop : hp.pop m.heap with
  | none => exact .inl ⟨rfl, hm.merging.pending_eq_nil hpop⟩
  | some popped =>
    obtain ⟨⟨a, i⟩, h⟩ := popped
    obtain ⟨hi, -, hperm, hleast⟩ := hm.merging.pop hpop
    obtain ⟨hm₀, hself, hother⟩ := hm.pop hpop
    obtain ⟨m', seq', hfill, hm', hcoming, hpend⟩ := hm₀.fill hf hi fun hF => hF.2 rfl
    have hall := hperm.trans (hpend.cons a)
    refine .inr ⟨a, i, h, m', seq', hi, rfl, hfill, ?_, by rw [hself, hcoming], fun j hj => ?_,
      hall, fun b hb => hleast b (hall.mem_iff.mpr (List.mem_cons_of_mem _ hb))⟩
    · have hsets : (fun j => j = i ∨ j ∈ srcs ∧ j ≠ i) = (· ∈ srcs) := by
        funext j
        refine propext ⟨?_, fun hj => ?_⟩
        · rintro (rfl | hj)
          · exact hi
          · exact hj.1
        · exact (em (j = i)).imp id fun hji => ⟨hj, hji⟩
      rwa [hsets] at hm'
    · rw [hcoming, hother j hj]

/-! ## Runs -/

/-- A merge pops what is pending, in ascending order, and of each source what
is to come of it. -/
theorem Fed.pops (hf : Feeds draw srcs Gives) : ∀ {n : Nat} {seq : ι → List α} {m : Merge hp σ},
    Fed Gives srcs seq (· ∈ srcs) m → (pending (fun _ => seq) srcs m).length = n →
    ∃ ps, Merge.Pops draw m ps ∧ (ps.map Prod.fst).Perm (pending (fun _ => seq) srcs m) ∧
      (ps.map Prod.fst).Pairwise (fun a b => key a ≤ key b) ∧ (∀ p ∈ ps, p.2 ∈ srcs) ∧
      ∀ i ∈ srcs, drawnFrom i ps = coming seq i m
  | n, seq, m, hm, hn => by
    rcases hm.next hf with ⟨hpop, hpend⟩ |
      ⟨a, i, h, m', seq', hi, hpop, hfill, hm', hself, hother, hperm, hleast⟩
    · refine ⟨[], .done hpop, by rw [hpend]; exact .refl _, .nil, by simp, fun i hi => ?_⟩
      rw [pending, List.append_eq_nil_iff, List.flatMap_eq_nil_iff] at hpend
      rw [coming, waiting, hp.pop_none hpop, hpend.2 i hi]
      rfl
    · rw [hperm.length_eq, List.length_cons] at hn
      obtain ⟨n, rfl⟩ : ∃ k, n = k + 1 := ⟨_, hn.symm⟩
      obtain ⟨ps, hps, hall, hasc, hsrcs, hfrom⟩ := Fed.pops (n := n) hf hm' (by omega)
      refine ⟨(a, i) :: ps, .step hpop hfill hps, (hall.cons a).trans hperm.symm,
        .cons (fun b hb => hleast b (hall.mem_iff.mp hb)) hasc,
        List.forall_mem_cons.mpr ⟨hi, hsrcs⟩, fun j hj => ?_⟩
      by_cases hji : j = i
      · subst hji
        rw [hself, ← hfrom j hj]
        simp [drawnFrom]
      · rw [hother j hji, ← hfrom j hj]
        simp [drawnFrom, Ne.symm hji]

/-- Merging ascending sources pops all they give, in ascending order, and the
elements of each source in its order. -/
theorem pops_feeds (hp : MinHeap (α × ι) fun p => key p.1) (hf : Feeds draw srcs Gives) {s : σ}
    (hgives : ∀ i ∈ srcs, Gives s i (seq i))
    (hasc : ∀ i ∈ srcs, (seq i).Pairwise fun a b => key a ≤ key b) :
    ∃ m ps, Merge.fillAll draw srcs (⟨s, hp.empty⟩ : Merge hp σ) = some m ∧
      Merge.Pops draw m ps ∧ (ps.map Prod.fst).Perm (srcs.flatMap seq) ∧
      (ps.map Prod.fst).Pairwise (fun a b => key a ≤ key b) ∧ (∀ p ∈ ps, p.2 ∈ srcs) ∧
      ∀ i ∈ srcs, drawnFrom i ps = seq i := by
  have hempty (i : ι) : waiting i (⟨s, hp.empty⟩ : Merge hp σ) = [] := by
    rw [waiting, hp.items_empty]
    rfl
  have hm : Fed Gives srcs seq (fun _ => False) (⟨s, hp.empty⟩ : Merge hp σ) :=
    ⟨merging_empty hp trivial hasc, fun i => by simp [hempty], fun i _ _ => hempty i,
      fun i hi _ => hgives i hi⟩
  obtain ⟨m, seq', hfill, hm', hcoming, hpend⟩ := hm.fillAll hf hf.nodup fun i hi => ⟨hi, id⟩
  rw [show (fun j => j ∈ srcs ∨ False) = (· ∈ srcs) from funext fun j => or_false _] at hm'
  obtain ⟨ps, hps, hall, hsorted, hsrcs, hfrom⟩ := hm'.pops hf rfl
  refine ⟨m, ps, hfill, hps, hall.trans (hpend.symm.trans ?_), hsorted, hsrcs, fun i hi => ?_⟩
  · rw [pending, hp.items_empty, List.map_nil, List.nil_append]
  · rw [hfrom i hi, hcoming, coming, hempty, List.nil_append]

end Steps

/-- Merging ascending sources yields all they give, in ascending order. -/
theorem drains_merge {α ι σ κ : Type} [LinearOrder κ] {key : α → κ}
    {draw : σ → ι → Option (Option α × σ)} {rest : σ → ι → List α} {srcs : List ι}
    {Valid : σ → Prop} (hp : MinHeap (α × ι) fun p => key p.1)
    (hs : Sourced draw rest srcs Valid) {s : σ} (hv : Valid s)
    (hasc : ∀ i ∈ srcs, (rest s i).Pairwise fun a b => key a ≤ key b) :
    ∃ m, Merge.fillAll draw srcs (⟨s, hp.empty⟩ : Merge hp σ) = some m ∧
      ∃ as, Drains (Merge.next draw) m as ∧ as.Perm (srcs.flatMap (rest s)) ∧
        as.Pairwise fun a b => key a ≤ key b := by
  classical
  have hf : Feeds draw srcs fun s i as => Valid s ∧ rest s i = as := by
    refine ⟨hs.nodup, ?_⟩
    rintro s i as hi ⟨hv, rfl⟩
    obtain ⟨s', hdraw, hv', htail, hother⟩ := hs.draw hv hi
    exact ⟨s', hdraw, fun _ => ⟨hv', htail⟩, fun j hj bs hbs => ⟨hv', (hother j hj).trans hbs.2⟩⟩
  obtain ⟨m, ps, hfill, hps, hall, hsorted, -⟩ := pops_feeds hp hf (fun i _ => ⟨hv, rfl⟩) hasc
  exact ⟨m, hfill, ps.map Prod.fst, hps.drains, hall, hsorted⟩

end LG
