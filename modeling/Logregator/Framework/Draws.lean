import Logregator.Framework.Merge

/-!
# What a merge draws from a source

A merge draws each of its sources once at the start and again after each pop
of one of its elements (`Merge.fillAllDrawn`, `Merge.Draws`). So the heap
holds at most one element of a source, a source that had nothing to give is
left alone, and what the merge draws from a source until it ends is what
drawing that source alone would give (`drains_drawnFrom`). A source alone is
a part `view` of the sources with a `step` of its own.
-/

namespace LG

variable {α ι σ τ κ : Type} [LinearOrder κ] {key : α → κ}
  {hp : MinHeap (α × ι) fun p => key p.1} (draw : σ → ι → Option (Option α × σ))

/-- What drawing a source gives, with the source. -/
def drawn (s : σ) (i : ι) : List (α × ι) :=
  match draw s i with
  | some (some a, _) => [(a, i)]
  | _ => []

/-- What `fillAll` draws. -/
def Merge.fillAllDrawn : List ι → Merge hp σ → List (α × ι)
  | [], _ => []
  | i :: is, m =>
    match m.fill draw i with
    | some m' => drawn draw m.sources i ++ fillAllDrawn is m'
    | none => []

/-- Calling `next` until it returns `None` draws the elements. -/
inductive Merge.Draws : Merge hp σ → List (α × ι) → Prop
  | done {m} (h : hp.pop m.heap = none) : Draws m []
  | step {m m' a i heap ds} (hpop : hp.pop m.heap = some ((a, i), heap))
    (hfill : fill draw { m with heap := heap } i = some m') (hd : Draws m' ds) :
    Draws m (drawn draw m.sources i ++ ds)

/-- The elements drawn from a source, in order. -/
def drawnFrom [DecidableEq ι] (i : ι) (ds : List (α × ι)) : List α :=
  (ds.filter fun p => p.2 = i).map Prod.fst

variable {draw}

/-- A merge that is drained draws something. -/
theorem Merge.exists_draws {m : Merge hp σ} {as : List α} (h : Drains (Merge.next draw) m as) :
    ∃ ds, Merge.Draws draw m ds := by
  induction h with
  | @done m m' h =>
    cases hpop : hp.pop m.heap with
    | none => exact ⟨[], .done hpop⟩
    | some popped =>
      obtain ⟨⟨a, i⟩, heap⟩ := popped
      rw [Merge.next, hpop] at h
      cases hfill : Merge.fill draw { m with heap := heap } i <;> simp [hfill] at h
  | @step m m' a as h hd ih =>
    obtain ⟨ds, ih⟩ := ih
    cases hpop : hp.pop m.heap with
    | none => simp [Merge.next, hpop] at h
    | some popped =>
      obtain ⟨⟨b, i⟩, heap⟩ := popped
      rw [Merge.next, hpop] at h
      cases hfill : Merge.fill draw { m with heap := heap } i with
      | none => simp [hfill] at h
      | some m'' =>
        simp only [hfill, Option.bind_eq_bind, Option.bind_some, Option.pure_def,
          Option.some.injEq, Prod.mk.injEq] at h
        obtain ⟨-, rfl⟩ := h
        exact ⟨_, .step hpop hfill ih⟩

/-- A fill draws its source and keeps what it gives. -/
theorem Merge.fill_eq_some {m m' : Merge hp σ} {i : ι} (h : m.fill draw i = some m') :
    ∃ a, draw m.sources i = some (a, m'.sources) ∧ drawn draw m.sources i = a.toList.map (·, i) ∧
      (hp.items m'.heap).Perm (a.toList.map (·, i) ++ hp.items m.heap) := by
  unfold Merge.fill at h
  cases hd : draw m.sources i with
  | none => simp [hd] at h
  | some p =>
    obtain ⟨_ | a, s⟩ := p
    · simp only [hd, Option.bind_eq_bind, Option.bind_some, Option.pure_def, Option.some.injEq] at h
      subst h
      exact ⟨none, rfl, by simp [drawn, hd], .refl _⟩
    · simp only [hd, Option.bind_eq_bind, Option.bind_some, Option.pure_def, Option.some.injEq] at h
      subst h
      exact ⟨some a, rfl, by simp [drawn, hd], hp.items_push m.heap (a, i)⟩

/-! ## One source -/

section OneSource

variable [DecidableEq ι] {i : ι}

/-- The elements of a source that are in the heap. -/
def inHeap (i : ι) (m : Merge hp σ) : Nat := (hp.items m.heap).countP fun p => p.2 = i

theorem drawnFrom_append (ds ds' : List (α × ι)) :
    drawnFrom i (ds ++ ds') = drawnFrom i ds ++ drawnFrom i ds' := by
  simp [drawnFrom]

theorem drawnFrom_self (a : Option α) : drawnFrom i (a.toList.map (·, i)) = a.toList := by
  cases a <;> simp [drawnFrom]

theorem drawnFrom_other {j : ι} (hj : j ≠ i) (a : Option α) :
    drawnFrom i (a.toList.map (·, j)) = [] := by
  cases a <;> simp [drawnFrom, hj]

/-- A pop takes one element of its source from the heap. -/
theorem inHeap_pop {m : Merge hp σ} {a : α} {j : ι} {heap : hp.H}
    (h : hp.pop m.heap = some ((a, j), heap)) :
    inHeap i m = inHeap i { m with heap := heap } + if j = i then 1 else 0 := by
  rw [inHeap, (hp.pop_some h).1.countP_eq, List.countP_cons, inHeap]
  simp

variable {step : τ → Option (Option α × τ)} {view : σ → Option τ}

/-- The part `view` of the sources is what source `i` draws from: drawing `i`
is a `step` of it, and drawing another source leaves it alone. -/
structure Viewed (draw : σ → ι → Option (Option α × σ)) (i : ι)
    (step : τ → Option (Option α × τ)) (view : σ → Option τ) : Prop where
  self : ∀ {s s' t a}, view s = some t → draw s i = some (a, s') →
    ∃ t', step t = some (a, t') ∧ view s' = some t'
  other : ∀ {s s' a j}, j ≠ i → draw s j = some (a, s') → view s' = view s

omit [DecidableEq ι] in
/-- Drawing the source gives what stepping its part does. -/
theorem Viewed.drains_view (hv : Viewed draw i step view) {s : σ} {as : List α}
    (hd : Drains (fun s => draw s i) s as) : ∀ {t}, view s = some t → Drains step t as := by
  induction hd with
  | done h =>
    intro t ht
    obtain ⟨t', hstep, -⟩ := hv.self ht h
    exact .done hstep
  | step h _ ih =>
    intro t ht
    obtain ⟨t', hstep, ht'⟩ := hv.self ht h
    exact .step hstep (ih ht')

/-- Filling another source. -/
theorem Viewed.fill_other (hv : Viewed draw i step view) {j : ι} (hj : j ≠ i) {m m' : Merge hp σ}
    (h : m.fill draw j = some m') :
    drawnFrom i (drawn draw m.sources j) = [] ∧ view m'.sources = view m.sources ∧
      inHeap i m' = inHeap i m := by
  obtain ⟨a, hdraw, hd, hitems⟩ := Merge.fill_eq_some h
  refine ⟨by rw [hd, drawnFrom_other hj], hv.other hj hdraw, ?_⟩
  rw [inHeap, inHeap, hitems.countP_eq]
  cases a <;> simp [hj]

/-- Filling the source, when none of its elements is in the heap. -/
theorem Viewed.fill_self (hv : Viewed draw i step view) {m m' : Merge hp σ} {t : τ}
    (ht : view m.sources = some t) (h0 : inHeap i m = 0) (h : m.fill draw i = some m') :
    ∃ a t', step t = some (a, t') ∧ drawnFrom i (drawn draw m.sources i) = a.toList ∧
      view m'.sources = some t' ∧ inHeap i m' = a.toList.length := by
  obtain ⟨a, hdraw, hd, hitems⟩ := Merge.fill_eq_some h
  obtain ⟨t', hstep, hview⟩ := hv.self ht hdraw
  refine ⟨a, t', hstep, by rw [hd, drawnFrom_self], hview, ?_⟩
  rw [inHeap] at h0
  rw [inHeap, hitems.countP_eq, List.countP_append, h0]
  cases a <;> simp

/-- Until the merge ends, it draws from a source with an element in the heap
what the source gives, and nothing from the others. -/
theorem Viewed.draws (hv : Viewed draw i step view) {m : Merge hp σ} {ds : List (α × ι)}
    (hd : Merge.Draws draw m ds) :
    (inHeap i m = 0 → drawnFrom i ds = []) ∧
      ∀ t, inHeap i m = 1 → view m.sources = some t → Drains step t (drawnFrom i ds) := by
  induction hd with
  | @done m h =>
    have h0 : inHeap i m = 0 := by
      rw [inHeap, hp.pop_none h]
      rfl
    exact ⟨fun _ => rfl, fun t h1 => by omega⟩
  | @step m m' a j heap ds hpop hfill hd ih =>
    have hin := inHeap_pop (i := i) hpop
    rw [drawnFrom_append]
    by_cases hj : j = i
    · subst hj
      rw [if_pos rfl] at hin
      refine ⟨fun h0 => by omega, fun t h1 ht => ?_⟩
      have h0 : inHeap j { m with heap := heap } = 0 := by omega
      obtain ⟨b, t', hstep, hdrawn, hview, hcount⟩ :=
        hv.fill_self (m := { m with heap := heap }) ht h0 hfill
      rw [show drawnFrom j (drawn draw m.sources j) = b.toList from hdrawn]
      cases b with
      | none => rw [ih.1 hcount]; exact .done hstep
      | some b => exact .step hstep (ih.2 t' hcount hview)
    · rw [if_neg hj, Nat.add_zero] at hin
      obtain ⟨hdrawn, hview, hcount⟩ := hv.fill_other hj hfill
      rw [show drawnFrom i (drawn draw m.sources j) = [] from hdrawn, List.nil_append, hin, ← hcount]
      exact ⟨ih.1, fun t h1 ht => ih.2 t h1 (hview.trans ht)⟩

/-- Drawing sources in turn, not this one. -/
theorem Viewed.fillAll_other (hv : Viewed draw i step view) : ∀ {is : List ι} {m m' : Merge hp σ},
    i ∉ is → m.fillAll draw is = some m' →
    drawnFrom i (m.fillAllDrawn draw is) = [] ∧ view m'.sources = view m.sources ∧
      inHeap i m' = inHeap i m
  | [], m, m', _, h => by
    cases h
    exact ⟨rfl, rfl, rfl⟩
  | j :: is, m, m', hi, h => by
    obtain ⟨hj, hi⟩ := not_or.mp (mt List.mem_cons.mpr hi)
    rw [Merge.fillAll, Option.bind_eq_bind, Option.bind_eq_some_iff] at h
    obtain ⟨m₁, hfill, h⟩ := h
    obtain ⟨hd₁, hv₁, hc₁⟩ := hv.fill_other (Ne.symm hj) hfill
    obtain ⟨hd₂, hv₂, hc₂⟩ := hv.fillAll_other hi h
    rw [Merge.fillAllDrawn, hfill]
    exact ⟨by rw [drawnFrom_append, hd₁, hd₂]; rfl, hv₂.trans hv₁, hc₂.trans hc₁⟩

/-- Drawing sources in turn, this one among them. -/
theorem Viewed.fillAll_self (hv : Viewed draw i step view) : ∀ {is : List ι} {m m' : Merge hp σ}
    {t : τ}, is.Nodup → i ∈ is → view m.sources = some t → inHeap i m = 0 →
    m.fillAll draw is = some m' →
    ∃ a t', step t = some (a, t') ∧ drawnFrom i (m.fillAllDrawn draw is) = a.toList ∧
      view m'.sources = some t' ∧ inHeap i m' = a.toList.length
  | j :: is, m, m', t, hnd, hi, ht, h0, h => by
    obtain ⟨hj, hnd⟩ := List.nodup_cons.mp hnd
    rw [Merge.fillAll, Option.bind_eq_bind, Option.bind_eq_some_iff] at h
    obtain ⟨m₁, hfill, h⟩ := h
    rw [Merge.fillAllDrawn, hfill]
    by_cases hji : j = i
    · subst hji
      obtain ⟨a, t', hstep, hd₁, hv₁, hc₁⟩ := hv.fill_self ht h0 hfill
      obtain ⟨hd₂, hv₂, hc₂⟩ := hv.fillAll_other hj h
      refine ⟨a, t', hstep, ?_, hv₂.trans hv₁, hc₂.trans hc₁⟩
      rw [drawnFrom_append, hd₁, hd₂, List.append_nil]
    · obtain ⟨hd₁, hv₁, hc₁⟩ := hv.fill_other hji hfill
      obtain ⟨a, t', hstep, hd₂, hrest⟩ := hv.fillAll_self hnd
        ((List.mem_cons.mp hi).resolve_left (Ne.symm hji)) (hv₁.trans ht) (hc₁.trans h0) h
      exact ⟨a, t', hstep, by rw [drawnFrom_append, hd₁, hd₂]; rfl, hrest⟩

/-- What a merge draws from a source until it ends is what drawing the source
alone gives. -/
theorem Viewed.drains_drawnFrom (hv : Viewed draw i step view) {srcs : List ι} (hnd : srcs.Nodup)
    (hi : i ∈ srcs) {s : σ} {t : τ} (ht : view s = some t) {m : Merge hp σ}
    (hfill : Merge.fillAll draw srcs (⟨s, hp.empty⟩ : Merge hp σ) = some m) {ds : List (α × ι)}
    (hd : Merge.Draws draw m ds) :
    Drains step t (drawnFrom i
      (Merge.fillAllDrawn draw srcs (⟨s, hp.empty⟩ : Merge hp σ) ++ ds)) := by
  have h0 : inHeap i (⟨s, hp.empty⟩ : Merge hp σ) = 0 := by
    rw [inHeap, hp.items_empty]
    rfl
  obtain ⟨a, t', hstep, hdrawn, hview, hcount⟩ := hv.fillAll_self hnd hi ht h0 hfill
  obtain ⟨hnone, hsome⟩ := hv.draws hd
  rw [drawnFrom_append, hdrawn]
  cases a with
  | none => rw [hnone hcount]; exact .done hstep
  | some a => exact .step hstep (hsome t' hcount hview)

end OneSource

end LG
