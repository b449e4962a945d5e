import Mathlib.Data.List.Lex
import Mathlib.Order.Lattice
import Mathlib.Tactic.Ring

/-!
# Byte strings: fixed-width integers, slices, order

Little- and big-endian encodings of a natural number in `k` bytes
(`leBytes`, `beBytes`) and their inverses (`ofLe`, `ofBe`): the decoding of
an encoding is the number modulo `256 ^ k` (`ofBe_beBytes`), a byte string is
the encoding of its decoding (`beBytes_ofBe`), and byte strings of one length
compare, as lists, the way the numbers they encode do (`ofBe_lt_iff`).
`slice` and `splice` are a checked sub-slice and the copy of bytes over one.
-/

namespace LG

instance instLinearOrderUInt8 : LinearOrder UInt8 where
  le_refl _ := UInt8.le_refl _
  le_trans _ _ _ := UInt8.le_trans
  lt_iff_le_not_ge _ _ := by simp only [UInt8.lt_iff_toNat_lt, UInt8.le_iff_toNat_le]; omega
  le_antisymm _ _ := UInt8.le_antisymm
  le_total _ _ := UInt8.le_total _ _
  toDecidableLE := inferInstance
  toDecidableEq := inferInstance
  toDecidableLT := inferInstance

instance instLinearOrderUInt64 : LinearOrder UInt64 where
  le_refl _ := UInt64.le_refl _
  le_trans _ _ _ := UInt64.le_trans
  lt_iff_le_not_ge _ _ := by simp only [UInt64.lt_iff_toNat_lt, UInt64.le_iff_toNat_le]; omega
  le_antisymm _ _ := UInt64.le_antisymm
  le_total _ _ := UInt64.le_total _ _
  toDecidableLE := inferInstance
  toDecidableEq := inferInstance
  toDecidableLT := inferInstance

/-! ## Integers as bytes -/

/-- The `k` low bytes of `n`, least significant first. -/
def leBytes : Nat → Nat → List UInt8
  | 0, _ => []
  | k + 1, n => UInt8.ofNat n :: leBytes k (n / 256)

/-- The number a little-endian byte string encodes. -/
def ofLe : List UInt8 → Nat
  | [] => 0
  | b :: bs => b.toNat + 256 * ofLe bs

/-- The `k` low bytes of `n`, most significant first. -/
def beBytes (k n : Nat) : List UInt8 := (leBytes k n).reverse

/-- The number a big-endian byte string encodes. -/
def ofBe (bs : List UInt8) : Nat := ofLe bs.reverse

@[simp] theorem length_leBytes : ∀ k n : Nat, (leBytes k n).length = k
  | 0, _ => rfl
  | k + 1, n => by simp [leBytes, length_leBytes k]

@[simp] theorem length_beBytes (k n : Nat) : (beBytes k n).length = k := by
  simp [beBytes]

theorem ofLe_leBytes : ∀ k n : Nat, ofLe (leBytes k n) = n % 256 ^ k
  | 0, n => by simp [leBytes, ofLe, Nat.mod_one]
  | k + 1, n => by
    have h8 : (UInt8.ofNat n).toNat = n % 256 := by simp
    rw [leBytes, ofLe, ofLe_leBytes k, h8, pow_succ, Nat.mul_comm (256 ^ k), Nat.mod_mul]

theorem ofLe_lt : ∀ bs : List UInt8, ofLe bs < 256 ^ bs.length
  | [] => by simp [ofLe]
  | b :: bs => by
    have hb := b.toNat_lt
    have := ofLe_lt bs
    rw [ofLe, List.length_cons, pow_succ]
    omega

theorem ofBe_beBytes (k n : Nat) : ofBe (beBytes k n) = n % 256 ^ k := by
  simp [ofBe, beBytes, ofLe_leBytes]

theorem ofBe_beBytes_of_lt {k n : Nat} (h : n < 256 ^ k) : ofBe (beBytes k n) = n := by
  rw [ofBe_beBytes, Nat.mod_eq_of_lt h]

theorem ofLe_leBytes_of_lt {k n : Nat} (h : n < 256 ^ k) : ofLe (leBytes k n) = n := by
  rw [ofLe_leBytes, Nat.mod_eq_of_lt h]

theorem ofBe_lt (bs : List UInt8) : ofBe bs < 256 ^ bs.length := by
  simpa [ofBe] using ofLe_lt bs.reverse

theorem ofLe_append (bs : List UInt8) : ∀ as : List UInt8,
    ofLe (as ++ bs) = ofLe as + 256 ^ as.length * ofLe bs
  | [] => by simp [ofLe]
  | a :: as => by
    rw [List.cons_append, ofLe, ofLe_append bs as, ofLe, List.length_cons, pow_succ]
    ring

theorem leBytes_ofLe : ∀ bs : List UInt8, leBytes bs.length (ofLe bs) = bs
  | [] => rfl
  | b :: bs => by
    have hb := b.toNat_lt
    have hhead : UInt8.ofNat (b.toNat + 256 * ofLe bs) = b := by
      apply UInt8.toNat_inj.mp
      rw [UInt8.toNat_ofNat']
      omega
    have htail : (b.toNat + 256 * ofLe bs) / 256 = ofLe bs := by omega
    rw [ofLe, List.length_cons, leBytes, hhead, htail, leBytes_ofLe bs]

/-- Encoding the number that a byte string encodes gives the string. -/
theorem beBytes_ofBe {k : Nat} {bs : List UInt8} (h : bs.length = k) : beBytes k (ofBe bs) = bs := by
  have := leBytes_ofLe bs.reverse
  rw [List.length_reverse, h] at this
  rw [beBytes, ofBe, this, List.reverse_reverse]

/-- The first byte of a big-endian string is the most significant one. -/
theorem ofBe_cons (b : UInt8) (bs : List UInt8) :
    ofBe (b :: bs) = b.toNat * 256 ^ bs.length + ofBe bs := by
  rw [ofBe, List.reverse_cons, ofLe_append, List.length_reverse, ofBe]
  simp only [ofLe]
  ring

/-- Byte strings of one length compare as the big-endian numbers they
encode. -/
theorem ofBe_lt_iff : ∀ {as bs : List UInt8}, as.length = bs.length →
    (as < bs ↔ ofBe as < ofBe bs)
  | [], [], _ => by simp [ofBe]
  | a :: as, b :: bs, h => by
    have hl : as.length = bs.length := by simpa using h
    have ih := ofBe_lt_iff hl
    have ha := ofBe_lt as
    have hb := ofBe_lt bs
    rw [List.cons_lt_cons_iff, ofBe_cons, ofBe_cons, ih, ← hl, UInt8.lt_iff_toNat_lt]
    rw [← hl] at hb
    generalize 256 ^ as.length = p at ha hb ⊢
    constructor
    · rintro (hlt | ⟨rfl, hlt⟩)
      · have : (a.toNat + 1) * p ≤ b.toNat * p := Nat.mul_le_mul_right _ hlt
        rw [Nat.succ_mul] at this
        omega
      · omega
    · intro hlt
      by_cases hab : a.toNat < b.toNat
      · exact .inl hab
      · rcases Nat.lt_or_ge b.toNat a.toNat with hba | hba
        · have : (b.toNat + 1) * p ≤ a.toNat * p := Nat.mul_le_mul_right _ hba
          rw [Nat.succ_mul] at this
          omega
        · have : a = b := UInt8.toNat_inj.mp (by omega)
          subst this
          exact .inr ⟨rfl, by omega⟩

/-! ## Slices -/

/-- `&bs[lo..hi]`: `none` is the out-of-range panic. -/
def slice (bs : List UInt8) (lo hi : Nat) : Option (List UInt8) :=
  if lo ≤ hi ∧ hi ≤ bs.length then some ((bs.drop lo).take (hi - lo)) else none

/-- `dst[off..off + src.len()].copy_from_slice(src)`. -/
def splice (dst : List UInt8) (off : Nat) (src : List UInt8) : List UInt8 :=
  dst.take off ++ src ++ dst.drop (off + src.length)

theorem slice_of_le {bs : List UInt8} {lo hi : Nat} (h : lo ≤ hi) (hle : hi ≤ bs.length) :
    slice bs lo hi = some ((bs.drop lo).take (hi - lo)) := if_pos ⟨h, hle⟩

theorem slice_take {bs : List UInt8} {hi : Nat} (h : hi ≤ bs.length) :
    slice bs 0 hi = some (bs.take hi) := slice_of_le (Nat.zero_le hi) h

theorem slice_drop {bs : List UInt8} {lo : Nat} (h : lo ≤ bs.length) :
    slice bs lo bs.length = some (bs.drop lo) := by
  rw [slice_of_le h le_rfl, List.take_of_length_le (by rw [List.length_drop])]

theorem slice_append {as bs cs : List UInt8} {lo hi : Nat} (hlo : lo = as.length)
    (hhi : hi = as.length + bs.length) : slice (as ++ (bs ++ cs)) lo hi = some bs := by
  subst hlo hhi
  rw [slice, if_pos (by simp)]
  simp

theorem splice_append (as bs src : List UInt8) {off : Nat} (h : as.length = off) :
    splice (as ++ bs) off src = as ++ (src ++ bs.drop src.length) := by
  subst h
  simp [splice, List.drop_append]

/-! ## Concatenated encodings -/

section Concat

variable {α : Type} {f : α → List UInt8} {l : List α} {i : Nat} {a : α}

/-- The bytes of a list's elements, around element `i`. -/
theorem flatMap_around (hi : l[i]? = some a) :
    l.flatMap f = (l.take i).flatMap f ++ (f a ++ (l.drop (i + 1)).flatMap f) := by
  obtain ⟨hlt, hget⟩ := List.getElem?_eq_some_iff.mp hi
  rw [← List.flatMap_cons, ← List.flatMap_append, ← hget, List.getElem_cons_drop,
    List.take_append_drop]

theorem length_flatMap_take_succ (hi : l[i]? = some a) :
    ((l.take (i + 1)).flatMap f).length = ((l.take i).flatMap f).length + (f a).length := by
  obtain ⟨hlt, hget⟩ := List.getElem?_eq_some_iff.mp hi
  rw [List.take_succ_eq_append_getElem hlt, hget, List.flatMap_append, List.length_append,
    List.flatMap_singleton]

end Concat

end LG
