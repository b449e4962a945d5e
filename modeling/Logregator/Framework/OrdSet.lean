import Mathlib.Data.List.Nodup
import Mathlib.Data.List.Perm.Basic
import Mathlib.Order.Lattice

/-!
# Ordered sets and maps

An ordered set of elements compared by a key (`OrdSet`) is the list of its
elements, in strictly ascending key order: the order is a field, so that no
other value can be built. Inserting (`insert`) keeps an element whose key is
there already; a map is a set of pairs compared by their first component, and
inserting into it (`upsert`) replaces the value instead. Both are `insertWith`,
about which the facts are proved once. `range` is the elements between two
bounds, and does not return when the bounds are inverted, as `BTreeSet::range`
panics.
-/

namespace LG

variable {α κ ν : Type}

/-! ## Bounds -/

/-- `std::ops::Bound`. -/
inductive Bound (κ : Type) where
  | included (k : κ)
  | excluded (k : κ)
  | unbounded
  deriving DecidableEq, Repr

namespace Bound

variable [LinearOrder κ]

/-- `k` is past the start bound. -/
def startOk : Bound κ → κ → Prop
  | included b, k => b ≤ k
  | excluded b, k => b < k
  | unbounded, _ => True

/-- `k` is before the end bound. -/
def endOk : Bound κ → κ → Prop
  | included b, k => k ≤ b
  | excluded b, k => k < b
  | unbounded, _ => True

instance : (b : Bound κ) → (k : κ) → Decidable (b.startOk k)
  | included b, k => inferInstanceAs (Decidable (b ≤ k))
  | excluded b, k => inferInstanceAs (Decidable (b < k))
  | unbounded, _ => inferInstanceAs (Decidable True)

instance : (b : Bound κ) → (k : κ) → Decidable (b.endOk k)
  | included b, k => inferInstanceAs (Decidable (k ≤ b))
  | excluded b, k => inferInstanceAs (Decidable (k < b))
  | unbounded, _ => inferInstanceAs (Decidable True)

/-- The bounds `BTreeSet::range` panics on: the start is past the end, or
both exclude one key. -/
def inverted : Bound κ → Bound κ → Bool
  | included s, included e => e < s
  | included s, excluded e => e < s
  | excluded s, included e => e < s
  | excluded s, excluded e => e ≤ s
  | _, _ => false

theorem startOk_mono {b : Bound κ} {k k' : κ} (h : b.startOk k) (hk : k ≤ k') : b.startOk k' := by
  cases b with
  | included s => exact le_trans h hk
  | excluded s => exact lt_of_lt_of_le h hk
  | unbounded => trivial

theorem endOk_mono {b : Bound κ} {k k' : κ} (h : b.endOk k) (hk : k' ≤ k) : b.endOk k' := by
  cases b with
  | included s => exact le_trans hk h
  | excluded s => exact lt_of_le_of_lt hk h
  | unbounded => trivial

end Bound

/-! ## Inserting into an ascending list -/

section InsertWith

variable [LinearOrder κ] (key : α → κ) (merge : α → α → α)

/-- Inserts `a` into a list ascending by key. An element `b` with the key of
`a` becomes `merge b a`. -/
def insertWith (a : α) : List α → List α
  | [] => [a]
  | b :: bs =>
    if key a < key b then a :: b :: bs
    else if key a = key b then merge b a :: bs
    else b :: insertWith a bs

variable {key merge}

theorem mem_insertWith {a x : α} : ∀ {l : List α}, x ∈ insertWith key merge a l →
    x = a ∨ x ∈ l ∨ ∃ b ∈ l, key b = key a ∧ x = merge b a
  | [], h => by simp [insertWith] at h; exact .inl h
  | b :: bs, h => by
    simp only [insertWith] at h
    split at h
    · rcases List.mem_cons.mp h with h | h
      · exact .inl h
      · exact .inr (.inl h)
    · split at h
      · rename_i he
        rcases List.mem_cons.mp h with h | h
        · exact .inr (.inr ⟨b, List.mem_cons_self, he.symm, h⟩)
        · exact .inr (.inl (List.mem_cons_of_mem _ h))
      · rcases List.mem_cons.mp h with h | h
        · exact .inr (.inl (h ▸ List.mem_cons_self))
        · rcases mem_insertWith h with h | h | ⟨c, hc, hk, hx⟩
          · exact .inl h
          · exact .inr (.inl (List.mem_cons_of_mem _ h))
          · exact .inr (.inr ⟨c, List.mem_cons_of_mem _ hc, hk, hx⟩)

/-- The element is there, if it replaces one with its key. -/
theorem self_mem_insertWith {a : α} : ∀ {l : List α}, (∀ b ∈ l, key b = key a → merge b a = a) →
    a ∈ insertWith key merge a l
  | [], _ => List.mem_singleton.mpr rfl
  | b :: bs, h => by
    obtain ⟨hb, hbs⟩ := List.forall_mem_cons.mp h
    simp only [insertWith]
    split
    · exact List.mem_cons_self
    · split
      · rename_i he
        exact List.mem_cons.mpr (.inl (hb he.symm).symm)
      · exact List.mem_cons_of_mem _ (self_mem_insertWith hbs)

/-- Elements with other keys stay. -/
theorem mem_insertWith_of_ne {a x : α} (hx : key x ≠ key a) : ∀ {l : List α}, x ∈ l →
    x ∈ insertWith key merge a l
  | b :: bs, h => by
    simp only [insertWith]
    split
    · exact List.mem_cons_of_mem _ h
    · split
      · rename_i he
        rcases List.mem_cons.mp h with rfl | h
        · exact absurd he.symm hx
        · exact List.mem_cons_of_mem _ h
      · rcases List.mem_cons.mp h with rfl | h
        · exact List.mem_cons_self
        · exact List.mem_cons_of_mem _ (mem_insertWith_of_ne hx h)

/-- Inserting keeps the list ascending, if merging keeps the key. -/
theorem ascending_insertWith (hm : ∀ b a, key (merge b a) = key b) {a : α} :
    ∀ {l : List α}, l.Pairwise (key · < key ·) →
      (insertWith key merge a l).Pairwise (key · < key ·)
  | [], _ => by simp [insertWith]
  | b :: bs, h => by
    obtain ⟨hb, hbs⟩ := List.pairwise_cons.mp h
    simp only [insertWith]
    split
    · rename_i hlt
      refine List.pairwise_cons.mpr ⟨fun x hx => ?_, h⟩
      rcases List.mem_cons.mp hx with rfl | hx
      · exact hlt
      · exact lt_trans hlt (hb x hx)
    · split
      · exact List.pairwise_cons.mpr ⟨fun x hx => by rw [hm]; exact hb x hx, hbs⟩
      · rename_i h1 h2
        have hba : key b < key a := lt_of_le_of_ne (not_lt.mp h1) (Ne.symm h2)
        refine List.pairwise_cons.mpr ⟨fun x hx => ?_, ascending_insertWith hm hbs⟩
        rcases mem_insertWith hx with rfl | hx | ⟨c, -, hc, rfl⟩
        · exact hba
        · exact hb x hx
        · rw [hm, hc]; exact hba

/-- An element with a new key is added, and nothing else changes. -/
theorem insertWith_perm {a : α} : ∀ {l : List α}, (∀ b ∈ l, key b ≠ key a) →
    (insertWith key merge a l).Perm (a :: l)
  | [], _ => .refl _
  | b :: bs, h => by
    simp only [insertWith]
    split
    · exact .refl _
    · rw [if_neg fun e => h b List.mem_cons_self e.symm]
      exact ((insertWith_perm fun c hc => h c (List.mem_cons_of_mem _ hc)).cons b).trans
        (.swap a b bs)

theorem length_insertWith_le (a : α) : ∀ l : List α, (insertWith key merge a l).length ≤ l.length + 1
  | [] => by simp [insertWith]
  | b :: bs => by
    have hrec := length_insertWith_le a bs
    simp only [insertWith]
    split
    · simp
    · split
      · simp
      · simp only [List.length_cons]
        omega

/-- The keys after inserting. -/
theorem key_mem_insertWith (hm : ∀ b a, key (merge b a) = key b) {a : α} {k : κ} :
    ∀ {l : List α}, (∃ x ∈ insertWith key merge a l, key x = k) ↔ key a = k ∨ ∃ x ∈ l, key x = k
  | [] => by simp [insertWith]
  | b :: bs => by
    simp only [insertWith]
    split
    · simp
    · split
      · rename_i he
        simp only [List.mem_cons, exists_eq_or_imp, hm, he]
        tauto
      · simp only [List.mem_cons, exists_eq_or_imp, key_mem_insertWith hm]
        tauto

end InsertWith

/-! ## Ordered sets -/

/-- An ordered set: its elements, in strictly ascending key order. -/
structure OrdSet [LinearOrder κ] (key : α → κ) where
  elems : List α
  ascending : elems.Pairwise (key · < key ·)

namespace OrdSet

variable [LinearOrder κ] {key : α → κ}

instance [DecidableEq α] : DecidableEq (OrdSet key) := fun s t =>
  decidable_of_iff (s.elems = t.elems) (by cases s; cases t; simp)

/-- `BTreeSet::new`. -/
def empty (key : α → κ) : OrdSet key := ⟨[], .nil⟩

/-- `BTreeSet::insert`: an element that is there already stays. -/
def insert (s : OrdSet key) (a : α) : OrdSet key :=
  ⟨insertWith key (fun b _ => b) a s.elems, ascending_insertWith (fun _ _ => rfl) s.ascending⟩

/-- `BTreeSet::extend`. -/
def extend (s : OrdSet key) (l : List α) : OrdSet key := l.foldl insert s

/-- The elements between two bounds: no panic check. -/
def between (s : OrdSet key) (lo hi : Bound κ) : List α :=
  s.elems.filter fun a => lo.startOk (key a) ∧ hi.endOk (key a)

/-- `BTreeSet::range`: `none` is the panic that it documents for an inverted
range, which a set that was never filled need not make in practice. -/
def range (s : OrdSet key) (lo hi : Bound κ) : Option (List α) :=
  if lo.inverted hi then none else some (s.between lo hi)

@[simp] theorem elems_empty : (empty key).elems = [] := rfl

theorem ext {s t : OrdSet key} (h : s.elems = t.elems) : s = t := by
  cases s; cases t; simp only at h; subst h; rfl

/-- Two ordered sets with the same elements are equal. -/
theorem ext_perm {s t : OrdSet key} (h : s.elems.Perm t.elems) : s = t :=
  ext (h.eq_of_pairwise (fun _ _ _ _ h₁ h₂ => absurd h₁ (lt_asymm h₂)) s.ascending t.ascending)

/-- No key occurs twice. -/
theorem nodup_keys (s : OrdSet key) : (s.elems.map key).Nodup :=
  List.pairwise_map.mpr (s.ascending.imp fun h => ne_of_lt h)

theorem nodup (s : OrdSet key) : s.elems.Nodup := s.nodup_keys.of_map

/-- A key names one element. -/
theorem key_inj (s : OrdSet key) {a b : α} (ha : a ∈ s.elems) (hb : b ∈ s.elems)
    (h : key a = key b) : a = b := List.inj_on_of_nodup_map s.nodup_keys ha hb h

theorem mem_insert {s : OrdSet key} {a x : α} (h : x ∈ (s.insert a).elems) :
    x = a ∨ x ∈ s.elems := by
  rcases mem_insertWith h with h | h | ⟨b, hb, -, rfl⟩
  · exact .inl h
  · exact .inr h
  · exact .inr hb

theorem key_mem_insert {s : OrdSet key} {a : α} {k : κ} :
    (∃ x ∈ (s.insert a).elems, key x = k) ↔ key a = k ∨ ∃ x ∈ s.elems, key x = k :=
  key_mem_insertWith fun _ _ => rfl

theorem insert_perm {s : OrdSet key} {a : α} (h : ∀ b ∈ s.elems, key b ≠ key a) :
    (s.insert a).elems.Perm (a :: s.elems) := insertWith_perm h

/-- Nothing is added but the element. -/
theorem insert_subperm (s : OrdSet key) (a : α) : (s.insert a).elems.Subperm (a :: s.elems) := by
  show (insertWith key (fun b _ => b) a s.elems).Subperm (a :: s.elems)
  induction s.elems with
  | nil => exact .refl _
  | cons b bs ih =>
    simp only [insertWith]
    split
    · exact .refl _
    · split
      · exact (List.sublist_cons_self a _).subperm
      · exact ((List.subperm_cons b).mpr ih).trans (List.Perm.swap a b bs).subperm

@[simp] theorem extend_nil (s : OrdSet key) : s.extend [] = s := rfl

@[simp] theorem extend_cons (s : OrdSet key) (a : α) (l : List α) :
    s.extend (a :: l) = (s.insert a).extend l := rfl

theorem mem_extend : ∀ {l : List α} {s : OrdSet key} {x : α}, x ∈ (s.extend l).elems →
    x ∈ s.elems ∨ x ∈ l
  | [], _, _, h => .inl h
  | a :: l, s, x, h => by
    rcases mem_extend (l := l) h with h | h
    · rcases mem_insert h with rfl | h
      · exact .inr List.mem_cons_self
      · exact .inl h
    · exact .inr (List.mem_cons_of_mem _ h)

/-- The keys after `extend`. -/
theorem key_mem_extend : ∀ {l : List α} {s : OrdSet key} {k : κ},
    (∃ x ∈ (s.extend l).elems, key x = k) ↔ (∃ x ∈ s.elems, key x = k) ∨ ∃ x ∈ l, key x = k
  | [], _, _ => by simp
  | a :: l, s, k => by
    rw [extend_cons, key_mem_extend (l := l), key_mem_insert]
    simp only [List.mem_cons, exists_eq_or_imp, or_assoc]
    exact or_left_comm

/-- Extending with elements of new, pairwise distinct keys. -/
theorem extend_perm : ∀ {l : List α} {s : OrdSet key}, (l.map key).Nodup →
    (∀ a ∈ l, ∀ b ∈ s.elems, key b ≠ key a) → (s.extend l).elems.Perm (l ++ s.elems)
  | [], _, _, _ => .refl _
  | a :: l, s, hn, hd => by
    simp only [List.map_cons, List.nodup_cons, List.mem_map, not_exists, not_and] at hn
    have ha := hd a List.mem_cons_self
    refine (extend_perm hn.2 fun x hx b hb => ?_).trans ?_
    · rcases mem_insert hb with rfl | hb
      · exact fun e => hn.1 x hx e.symm
      · exact hd x (List.mem_cons_of_mem _ hx) b hb
    · exact ((insert_perm ha).append_left l).trans List.perm_middle

/-- Where a key names one element, an extension has the elements of both. -/
theorem mem_extend_iff {l : List α} {s : OrdSet key} {x : α}
    (hinj : ∀ a b, (a ∈ s.elems ∨ a ∈ l) → (b ∈ s.elems ∨ b ∈ l) → key a = key b → a = b) :
    x ∈ (s.extend l).elems ↔ x ∈ s.elems ∨ x ∈ l := by
  refine ⟨mem_extend, fun hx => ?_⟩
  obtain ⟨y, hy, hkey⟩ : ∃ y ∈ (s.extend l).elems, key y = key x :=
    key_mem_extend.mpr (hx.imp (fun h => ⟨x, h, rfl⟩) fun h => ⟨x, h, rfl⟩)
  exact hinj y x (mem_extend hy) hx hkey ▸ hy

theorem between_sublist (s : OrdSet key) (lo hi : Bound κ) :
    (s.between lo hi).Sublist s.elems := List.filter_sublist

theorem mem_between {s : OrdSet key} {lo hi : Bound κ} {a : α} :
    a ∈ s.between lo hi ↔ a ∈ s.elems ∧ lo.startOk (key a) ∧ hi.endOk (key a) := by
  simp [between]

theorem ascending_between (s : OrdSet key) (lo hi : Bound κ) :
    (s.between lo hi).Pairwise (key · < key ·) := s.ascending.sublist (s.between_sublist lo hi)

theorem between_eq_elems {s : OrdSet key} {lo hi : Bound κ} :
    s.between lo hi = s.elems ↔ ∀ a ∈ s.elems, lo.startOk (key a) ∧ hi.endOk (key a) := by
  rw [between, List.filter_eq_self]
  simp

end OrdSet

/-! ## Ordered maps -/

/-- An ordered map: pairs compared by their first component. -/
abbrev OrdMap (κ ν : Type) [LinearOrder κ] := OrdSet (Prod.fst : κ × ν → κ)

namespace OrdMap

variable [LinearOrder κ]

/-- `BTreeMap::insert`: the value of a key that is there already is
replaced. -/
def upsert (m : OrdMap κ ν) (k : κ) (v : ν) : OrdMap κ ν :=
  ⟨insertWith Prod.fst (fun old new => (old.1, new.2)) (k, v) m.elems,
    @ascending_insertWith _ _ _ _ (fun old new => (old.1, new.2)) (fun _ _ => rfl) _ _ m.ascending⟩

theorem mem_upsert {m : OrdMap κ ν} {k : κ} {v : ν} {p : κ × ν} (h : p ∈ (m.upsert k v).elems) :
    p = (k, v) ∨ p ∈ m.elems := by
  rcases mem_insertWith h with h | h | ⟨b, -, hb, rfl⟩
  · exact .inl h
  · exact .inr h
  · exact .inl (Prod.ext hb rfl)

/-- `BTreeMap::get`. -/
def lookup (m : OrdMap κ ν) (k : κ) : Option ν := (m.elems.find? fun p => p.1 = k).map Prod.snd

/-- `BTreeMap::remove`. -/
def remove (m : OrdMap κ ν) (k : κ) : OrdMap κ ν :=
  ⟨m.elems.filter fun p => p.1 ≠ k, m.ascending.sublist List.filter_sublist⟩

theorem lookup_eq_some {m : OrdMap κ ν} {k : κ} {v : ν} :
    m.lookup k = some v ↔ (k, v) ∈ m.elems := by
  rw [lookup, Option.map_eq_some_iff]
  constructor
  · rintro ⟨⟨k', v'⟩, hf, rfl⟩
    have hk : k' = k := by simpa using List.find?_some hf
    exact hk ▸ List.mem_of_find?_eq_some hf
  · intro h
    cases hf : m.elems.find? fun p => p.1 = k with
    | none => simpa using List.find?_eq_none.mp hf (k, v) h
    | some p =>
      have hk : p.1 = k := by simpa using List.find?_some hf
      exact ⟨p, rfl, congrArg Prod.snd (m.key_inj (List.mem_of_find?_eq_some hf) h hk)⟩

theorem mem_remove {m : OrdMap κ ν} {k : κ} {p : κ × ν} :
    p ∈ (m.remove k).elems ↔ p ∈ m.elems ∧ p.1 ≠ k := by
  simp [remove]

theorem mem_upsert_iff {m : OrdMap κ ν} {k : κ} {v : ν} {p : κ × ν} :
    p ∈ (m.upsert k v).elems ↔ p = (k, v) ∨ p ∈ m.elems ∧ p.1 ≠ k := by
  have hself : (k, v) ∈ (m.upsert k v).elems :=
    self_mem_insertWith fun b _ hb => Prod.ext hb rfl
  constructor
  · intro h
    by_cases hk : p.1 = k
    · exact .inl ((m.upsert k v).key_inj h hself hk)
    · exact .inr ⟨(mem_upsert h).resolve_left fun he => hk (he ▸ rfl), hk⟩
  · rintro (rfl | ⟨h, hk⟩)
    · exact hself
    · exact mem_insertWith_of_ne hk h

theorem mem_foldl_remove {p : κ × ν} : ∀ {ks : List κ} {m : OrdMap κ ν},
    p ∈ (ks.foldl remove m).elems ↔ p ∈ m.elems ∧ p.1 ∉ ks
  | [], _ => by simp
  | k :: ks, m => by
    rw [List.foldl_cons, mem_foldl_remove, mem_remove, List.mem_cons, not_or, and_assoc]

/-- A key has one value. -/
theorem value_inj {m : OrdMap κ ν} {k : κ} {v w : ν} (hv : (k, v) ∈ m.elems)
    (hw : (k, w) ∈ m.elems) : v = w := congrArg Prod.snd (m.key_inj hv hw rfl)

/-- A key above the others comes last. -/
theorem upsert_of_gt {m : OrdMap κ ν} {k : κ} (h : ∀ p ∈ m.elems, p.1 < k) (v : ν) :
    (m.upsert k v).elems = m.elems ++ [(k, v)] := by
  show insertWith Prod.fst _ (k, v) m.elems = _
  generalize m.elems = l at h
  induction l with
  | nil => rfl
  | cons p ps ih =>
    obtain ⟨hp, hps⟩ := List.forall_mem_cons.mp h
    simp only [insertWith]
    rw [if_neg (not_lt.mpr hp.le), if_neg hp.ne', ih hps]
    rfl

/-- Pairs in ascending order are each added at the end. -/
theorem elems_foldl_upsert {ps : List (κ × ν)} {m : OrdMap κ ν}
    (hasc : (m.elems ++ ps).Pairwise fun p q => p.1 < q.1) :
    (ps.foldl (fun m p => m.upsert p.1 p.2) m).elems = m.elems ++ ps := by
  induction ps generalizing m with
  | nil => exact (List.append_nil _).symm
  | cons p ps ih =>
    obtain ⟨k, v⟩ := p
    have hlast : ∀ p ∈ m.elems, p.1 < k := fun p hp =>
      (List.pairwise_append.mp hasc).2.2 p hp (k, v) List.mem_cons_self
    have hup := upsert_of_gt hlast v
    have hasc' : ((m.upsert k v).elems ++ ps).Pairwise fun p q => p.1 < q.1 := by
      rwa [hup, List.append_assoc]
    rw [List.foldl_cons, ih hasc', hup, List.append_assoc]
    rfl

/-- A map whose pairs are inserted again. -/
theorem foldl_upsert_elems (m : OrdMap κ ν) :
    m.elems.foldl (fun m p => m.upsert p.1 p.2) (.empty _) = m :=
  OrdSet.ext (elems_foldl_upsert (show ([] ++ m.elems).Pairwise _ from m.ascending))

theorem length_upsert_le (m : OrdMap κ ν) (k : κ) (v : ν) :
    (m.upsert k v).elems.length ≤ m.elems.length + 1 := length_insertWith_le _ _

end OrdMap

end LG
