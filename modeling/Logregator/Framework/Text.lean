import Logregator.Framework.Utf8
import Mathlib.Data.List.Infix

/-!
# Texts that are read back

A `TextCodec` writes values as bytes and reads them off the front of a byte
string: it reads what it wrote, whatever follows, and more bytes behind what it
reads do not matter. So it reads nothing from a part of what it wrote
(`read_of_prefix`). Codecs are built from smaller ones: bytes around a value
(`before`, `after`), one value behind another (`pair`), values of another type
(`partialMap`), a value or a byte (`option`), and values up to a byte (`list`).
-/

namespace LG

/-- How values are written, and read off the front of bytes. -/
structure TextCodec (α : Type) where
  write : α → List UInt8
  read : List UInt8 → Option (α × List UInt8)
  read_write : ∀ a rest, read (write a ++ rest) = some (a, rest)
  read_append : ∀ {bs a rest}, read bs = some (a, rest) →
    ∀ more, read (bs ++ more) = some (a, rest ++ more)
  shorter : ∀ {bs a rest}, read bs = some (a, rest) → rest.length < bs.length

/-- What follows the bytes `lead`, if the bytes begin so. -/
def stripBytes (lead bs : List UInt8) : Option (List UInt8) :=
  if lead <+: bs then some (bs.drop lead.length) else none

theorem stripBytes_eq_some {lead bs rest : List UInt8} :
    stripBytes lead bs = some rest ↔ bs = lead ++ rest := by
  unfold stripBytes
  constructor
  · intro h
    split at h
    · rename_i hlead
      obtain ⟨tail, rfl⟩ := hlead
      cases h
      rw [List.drop_left]
    · cases h
  · rintro rfl
    rw [if_pos (List.prefix_append lead rest), List.drop_left]

theorem stripBytes_append (lead rest : List UInt8) : stripBytes lead (lead ++ rest) = some rest :=
  stripBytes_eq_some.mpr rfl

/-- What precedes the byte, and what follows it. -/
def splitAtByte (stop : UInt8) : List UInt8 → Option (List UInt8 × List UInt8)
  | [] => none
  | b :: bs =>
    if b = stop then some ([], bs) else (splitAtByte stop bs).map fun p => (b :: p.1, p.2)

theorem splitAtByte_eq_some {stop : UInt8} : ∀ {bs as rest : List UInt8},
    splitAtByte stop bs = some (as, rest) ↔ bs = as ++ stop :: rest ∧ stop ∉ as
  | [], as, rest => by simp [splitAtByte]
  | b :: bs, as, rest => by
    rw [splitAtByte]
    split
    · rename_i hb
      subst hb
      cases as with
      | nil => simp
      | cons a as => simp +contextual
    · rename_i hb
      cases as with
      | nil => simp [hb]
      | cons a as =>
        have ih : splitAtByte stop bs = some (as, rest) ↔ bs = as ++ stop :: rest ∧ stop ∉ as :=
          splitAtByte_eq_some
        simp only [Option.map_eq_some_iff, Prod.exists, Prod.mk.injEq, List.cons.injEq,
          List.cons_append, List.mem_cons, not_or]
        constructor
        · rintro ⟨as', rest', hsplit, ⟨rfl, rfl⟩, rfl⟩
          obtain ⟨hbs, has⟩ := ih.mp hsplit
          exact ⟨⟨rfl, hbs⟩, Ne.symm hb, has⟩
        · rintro ⟨⟨rfl, hbs⟩, -, has⟩
          exact ⟨as, rest, ih.mpr ⟨hbs, has⟩, ⟨rfl, rfl⟩, rfl⟩

namespace TextCodec

variable {α β : Type}

theorem read_nil (x : TextCodec α) : x.read [] = none := by
  cases hread : x.read [] with
  | none => rfl
  | some p => exact absurd (x.shorter hread) (Nat.not_lt_zero _)

/-- Nothing is read from a part of what was written. -/
theorem read_of_prefix (x : TextCodec α) {a : α} {bs : List UInt8} (h : bs <+: x.write a)
    (hne : bs ≠ x.write a) : x.read bs = none := by
  obtain ⟨more, hmore⟩ := h
  cases hread : x.read bs with
  | none => rfl
  | some p =>
    have happend := x.read_append hread more
    have hwhole := x.read_write a []
    rw [hmore] at happend
    rw [List.append_nil, happend] at hwhole
    obtain ⟨-, hnil⟩ := Prod.mk.inj (Option.some.inj hwhole)
    obtain rfl := (List.append_eq_nil_iff.mp hnil).2
    exact absurd ((List.append_nil bs).symm.trans hmore) hne

theorem write_ne_nil (x : TextCodec α) (a : α) : x.write a ≠ [] := by
  intro hnil
  have hread := x.read_write a []
  rw [hnil, List.append_nil, x.read_nil] at hread
  cases hread

/-- What is written begins with a byte other than `stop`. -/
theorem write_eq_cons {x : TextCodec α} {stop : UInt8} (a : α)
    (h : (x.write a).head? ≠ some stop) : ∃ b bs, x.write a = b :: bs ∧ b ≠ stop := by
  cases hw : x.write a with
  | nil => exact absurd hw (x.write_ne_nil a)
  | cons b bs =>
    rw [hw] at h
    exact ⟨b, bs, rfl, fun hb => h (congrArg some hb)⟩

/-- A value behind given bytes. -/
def before (lead : List UInt8) (x : TextCodec α) : TextCodec α where
  write a := lead ++ x.write a
  read bs := (stripBytes lead bs).bind x.read
  read_write a rest := by
    rw [List.append_assoc, stripBytes_append]
    exact x.read_write a rest
  read_append h more := by
    obtain ⟨tail, htail, hread⟩ := Option.bind_eq_some_iff.mp h
    rw [stripBytes_eq_some.mp htail, List.append_assoc, stripBytes_append]
    exact x.read_append hread more
  shorter h := by
    obtain ⟨tail, htail, hread⟩ := Option.bind_eq_some_iff.mp h
    have hlt := x.shorter hread
    rw [stripBytes_eq_some.mp htail, List.length_append]
    omega

/-- A value before given bytes. -/
def after (trail : List UInt8) (x : TextCodec α) : TextCodec α where
  write a := x.write a ++ trail
  read bs := (x.read bs).bind fun p => (stripBytes trail p.2).map fun rest => (p.1, rest)
  read_write a rest := by
    rw [List.append_assoc, x.read_write, Option.bind_some, stripBytes_append]
    rfl
  read_append h more := by
    obtain ⟨⟨a, tail⟩, hread, h⟩ := Option.bind_eq_some_iff.mp h
    obtain ⟨rest, hrest, h⟩ := Option.map_eq_some_iff.mp h
    obtain rfl : tail = trail ++ rest := stripBytes_eq_some.mp hrest
    cases h
    rw [x.read_append hread more, Option.bind_some, List.append_assoc, stripBytes_append]
    rfl
  shorter h := by
    obtain ⟨⟨a, tail⟩, hread, h⟩ := Option.bind_eq_some_iff.mp h
    obtain ⟨rest, hrest, h⟩ := Option.map_eq_some_iff.mp h
    obtain rfl : tail = trail ++ rest := stripBytes_eq_some.mp hrest
    cases h
    have hlt := x.shorter hread
    rw [List.length_append] at hlt
    omega

/-- A value, and another behind it. -/
def pair (x : TextCodec α) (y : TextCodec β) : TextCodec (α × β) where
  write p := x.write p.1 ++ y.write p.2
  read bs := (x.read bs).bind fun p => (y.read p.2).map fun q => ((p.1, q.1), q.2)
  read_write p rest := by
    rw [List.append_assoc, x.read_write, Option.bind_some, y.read_write]
    rfl
  read_append h more := by
    obtain ⟨⟨a, tail⟩, hx, h⟩ := Option.bind_eq_some_iff.mp h
    obtain ⟨⟨b, rest⟩, hy, h⟩ := Option.map_eq_some_iff.mp h
    cases h
    rw [x.read_append hx more, Option.bind_some, y.read_append hy more]
    rfl
  shorter h := by
    obtain ⟨⟨a, tail⟩, hx, h⟩ := Option.bind_eq_some_iff.mp h
    obtain ⟨⟨b, rest⟩, hy, h⟩ := Option.map_eq_some_iff.mp h
    cases h
    exact (y.shorter hy).trans (x.shorter hx)

/-- Values that are written as values of another type, some of which are read as
none. -/
def partialMap (x : TextCodec α) (f : α → Option β) (g : β → α) (hfg : ∀ b, f (g b) = some b) :
    TextCodec β where
  write b := x.write (g b)
  read bs := (x.read bs).bind fun p => (f p.1).map fun b => (b, p.2)
  read_write b rest := by
    rw [x.read_write, Option.bind_some, hfg]
    rfl
  read_append h more := by
    obtain ⟨⟨a, tail⟩, hx, h⟩ := Option.bind_eq_some_iff.mp h
    obtain ⟨b, hb, h⟩ := Option.map_eq_some_iff.mp h
    cases h
    rw [x.read_append hx more, Option.bind_some, hb]
    rfl
  shorter h := by
    obtain ⟨⟨a, tail⟩, hx, h⟩ := Option.bind_eq_some_iff.mp h
    obtain ⟨b, hb, h⟩ := Option.map_eq_some_iff.mp h
    cases h
    exact x.shorter hx

/-- Values that are written as bytes, up to one that is not among them. -/
def untilByte (stop : UInt8) (f : List UInt8 → Option β) (g : β → List UInt8)
    (hfg : ∀ b, f (g b) = some b) (hstop : ∀ b, stop ∉ g b) : TextCodec β where
  write b := g b ++ [stop]
  read bs := (splitAtByte stop bs).bind fun p => (f p.1).map fun b => (b, p.2)
  read_write b rest := by
    rw [splitAtByte_eq_some.mpr ⟨List.append_assoc _ _ _, hstop b⟩, Option.bind_some, hfg]
    rfl
  read_append h more := by
    obtain ⟨⟨as, tail⟩, hsplit, h⟩ := Option.bind_eq_some_iff.mp h
    obtain ⟨b, hb, h⟩ := Option.map_eq_some_iff.mp h
    cases h
    obtain ⟨rfl, has⟩ := splitAtByte_eq_some.mp hsplit
    rw [splitAtByte_eq_some.mpr ⟨List.append_assoc _ _ _, has⟩, Option.bind_some, hb]
    rfl
  shorter h := by
    obtain ⟨⟨as, tail⟩, hsplit, h⟩ := Option.bind_eq_some_iff.mp h
    obtain ⟨b, hb, h⟩ := Option.map_eq_some_iff.mp h
    cases h
    obtain ⟨rfl, -⟩ := splitAtByte_eq_some.mp hsplit
    show tail.length < _
    rw [List.length_append, List.length_cons]
    omega

/-! ## A value or none -/

/-- A value, or the byte `stop`, with which no value begins. -/
def option (stop : UInt8) (x : TextCodec α) (h : ∀ a, (x.write a).head? ≠ some stop) :
    TextCodec (Option α) where
  write o := o.elim [stop] x.write
  read bs :=
    if bs.head? = some stop then some (none, bs.tail)
    else (x.read bs).map fun p => (some p.1, p.2)
  read_write o rest := by
    cases o with
    | none => exact if_pos rfl
    | some a =>
      obtain ⟨b, bs, hw, hb⟩ := write_eq_cons a (h a)
      have hhead : (x.write a ++ rest).head? ≠ some stop := by
        rw [hw]
        exact fun heq => hb (Option.some.inj heq)
      refine (if_neg hhead).trans ?_
      show (x.read (x.write a ++ rest)).map _ = _
      rw [x.read_write]
      rfl
  read_append {bs o rest} h more := by
    cases bs with
    | nil =>
      obtain ⟨p, hread, -⟩ := Option.map_eq_some_iff.mp ((if_neg (by simp)).symm.trans h)
      cases x.read_nil.symm.trans hread
    | cons b bs =>
      by_cases hb : b = stop
      · have hhead : ∀ l, (b :: l).head? = some stop := fun _ => congrArg some hb
        rw [if_pos (hhead bs)] at h
        cases h
        exact if_pos (hhead _)
      · have hhead : ∀ l, (b :: l).head? ≠ some stop := fun _ heq => hb (Option.some.inj heq)
        rw [if_neg (hhead bs)] at h
        obtain ⟨⟨a, tail⟩, hread, h⟩ := Option.map_eq_some_iff.mp h
        cases h
        refine (if_neg (hhead _)).trans ?_
        rw [x.read_append hread more]
        rfl
  shorter {bs o rest} h := by
    split at h
    · rename_i hhead
      cases h
      cases bs with
      | nil => cases hhead
      | cons b bs => exact Nat.lt_succ_self _
    · obtain ⟨⟨a, tail⟩, hread, h⟩ := Option.map_eq_some_iff.mp h
      cases h
      exact x.shorter hread

/-! ## Values one after the other -/

/-- Reads values up to the byte `stop`, at most so many. -/
def readList (stop : UInt8) (x : TextCodec α) : Nat → List UInt8 → Option (List α × List UInt8)
  | 0, _ => none
  | n + 1, bs =>
    if bs.head? = some stop then some ([], bs.tail)
    else (x.read bs).bind fun p => (readList stop x n p.2).map fun q => (p.1 :: q.1, q.2)

section

variable {stop : UInt8} {x : TextCodec α}

theorem readList_eq_some {n : Nat} {bs rest : List UInt8} {as : List α}
    (h : readList stop x (n + 1) bs = some (as, rest)) :
    (as = [] ∧ bs = stop :: rest) ∨ ∃ a as' tail, as = a :: as' ∧ bs.head? ≠ some stop ∧
      x.read bs = some (a, tail) ∧ readList stop x n tail = some (as', rest) := by
  rw [readList] at h
  split at h
  · rename_i hhead
    cases h
    cases bs with
    | nil => cases hhead
    | cons b bs =>
      cases hhead
      exact .inl ⟨rfl, rfl⟩
  · rename_i hhead
    obtain ⟨⟨a, tail⟩, hread, h⟩ := Option.bind_eq_some_iff.mp h
    obtain ⟨⟨as', rest'⟩, hlist, h⟩ := Option.map_eq_some_iff.mp h
    cases h
    exact .inr ⟨a, as', tail, rfl, hhead, hread, hlist⟩

theorem readList_cons {n : Nat} {bs tail rest : List UInt8} {a : α} {as : List α}
    (hhead : bs.head? ≠ some stop) (hread : x.read bs = some (a, tail))
    (hlist : readList stop x n tail = some (as, rest)) :
    readList stop x (n + 1) bs = some (a :: as, rest) := by
  rw [readList, if_neg hhead, hread, Option.bind_some, hlist]
  rfl

/-- More bytes behind, and a greater bound. -/
theorem readList_append : ∀ {n m : Nat} {bs rest : List UInt8} {as : List α}, n ≤ m →
    readList stop x n bs = some (as, rest) →
    ∀ more, readList stop x m (bs ++ more) = some (as, rest ++ more)
  | n + 1, m + 1, bs, rest, as, hle, h, more => by
    rcases readList_eq_some h with ⟨rfl, rfl⟩ | ⟨a, as', tail, rfl, hhead, hread, hlist⟩
    · exact if_pos rfl
    · refine readList_cons ?_ (x.read_append hread more)
        (readList_append (Nat.le_of_succ_le_succ hle) hlist more)
      cases bs with
      | nil => cases x.read_nil.symm.trans hread
      | cons b bs => exact hhead

theorem readList_shorter : ∀ {n : Nat} {bs rest : List UInt8} {as : List α},
    readList stop x n bs = some (as, rest) → rest.length < bs.length
  | n + 1, bs, rest, as, h => by
    rcases readList_eq_some h with ⟨rfl, rfl⟩ | ⟨a, as', tail, rfl, -, hread, hlist⟩
    · exact Nat.lt_succ_self _
    · exact (readList_shorter hlist).trans (x.shorter hread)

/-- Values that were written are read, and each takes a byte at least. -/
theorem readList_write (h : ∀ a, (x.write a).head? ≠ some stop) (rest : List UInt8) :
    ∀ {as : List α} {n : Nat}, (as.flatMap x.write).length < n →
      readList stop x n (as.flatMap x.write ++ stop :: rest) = some (as, rest)
  | [], n + 1, _ => if_pos rfl
  | a :: as, n + 1, hn => by
    obtain ⟨b, bs, hw, hb⟩ := write_eq_cons a (h a)
    rw [List.flatMap_cons, List.append_assoc]
    rw [List.flatMap_cons, List.length_append, hw, List.length_cons] at hn
    refine readList_cons ?_ (x.read_write a _) (readList_write h rest (by omega))
    rw [hw]
    exact fun heq => hb (Option.some.inj heq)

end

/-- Values one after the other, up to the byte `stop`, with which none of them
begins. -/
def list (stop : UInt8) (x : TextCodec α) (h : ∀ a, (x.write a).head? ≠ some stop) :
    TextCodec (List α) where
  write as := as.flatMap x.write ++ [stop]
  read bs := readList stop x bs.length bs
  read_write as rest := by
    rw [List.append_assoc]
    refine readList_write h rest ?_
    simp only [List.length_append, List.length_cons]
    omega
  read_append hread more := by
    refine readList_append ?_ hread more
    rw [List.length_append]
    omega
  shorter hread := readList_shorter hread

end TextCodec

/-! ## Decimals -/

/-- A byte of an ASCII character. -/
def asciiByte (ch : Char) : UInt8 := UInt8.ofNat (ch.toNat % 128)

/-- A number in decimal digits. -/
def decimalBytes (n : Nat) : List UInt8 := (Nat.toDigits 10 n).map asciiByte

/-- The number of decimal digits. -/
def ofDecimal (bs : List UInt8) : Nat := bs.foldl (fun n b => 10 * n + (b.toNat - 48)) 0

theorem digit_toNat {ch : Char} (h : ch.isDigit = true) : 48 ≤ ch.toNat ∧ ch.toNat ≤ 57 := by
  simp only [Char.isDigit, ge_iff_le, Bool.and_eq_true, decide_eq_true_eq] at h
  exact ⟨h.1, h.2⟩

theorem asciiByte_toNat {ch : Char} (h : ch.isDigit = true) : (asciiByte ch).toNat = ch.toNat := by
  obtain ⟨hlo, hhi⟩ := digit_toNat h
  rw [asciiByte, UInt8.toNat_ofNat']
  omega

theorem isDigit_of_mem {n : Nat} {ch : Char} (h : ch ∈ Nat.toDigits 10 n) : ch.isDigit = true :=
  Nat.isDigit_of_mem_toDigits (by decide) (by decide) h

/-- The bytes of a decimal are digits. -/
theorem mem_decimalBytes {n : Nat} {b : UInt8} (h : b ∈ decimalBytes n) :
    48 ≤ b.toNat ∧ b.toNat ≤ 57 := by
  obtain ⟨ch, hch, rfl⟩ := List.mem_map.mp h
  rw [asciiByte_toNat (isDigit_of_mem hch)]
  exact digit_toNat (isDigit_of_mem hch)

theorem foldl_decimal : ∀ {chs : List Char}, (∀ ch ∈ chs, ch.isDigit = true) → ∀ n,
    (chs.map asciiByte).foldl (fun n b => 10 * n + (b.toNat - 48)) n = Nat.ofDigitChars 10 chs n
  | [], _, _ => rfl
  | ch :: chs, h, n => by
    obtain ⟨hch, hchs⟩ := List.forall_mem_cons.mp h
    rw [List.map_cons, List.foldl_cons, asciiByte_toNat hch, foldl_decimal hchs]
    rfl

theorem ofDecimal_decimalBytes (n : Nat) : ofDecimal (decimalBytes n) = n := by
  rw [ofDecimal, decimalBytes, foldl_decimal fun ch => isDigit_of_mem]
  exact Nat.ofDigitChars_ten_toDigits

theorem length_decimalBytes_le {n k : Nat} (hk : 0 < k) (h : n < 10 ^ k) :
    (decimalBytes n).length ≤ k := by
  rw [decimalBytes, List.length_map]
  exact (Nat.length_toDigits_le_iff (by decide) hk).mpr h

/-- The number, as a string. -/
def decimalStr (n : Nat) : Str := ⟨decimalBytes n, utf8_ascii fun b hb => by
  have hle := (mem_decimalBytes hb).2
  exact UInt8.le_iff_toNat_le.mpr (hle.trans (by decide))⟩

theorem len_decimalStr_le {n k : Nat} (hk : 0 < k) (h : n < 10 ^ k) : (decimalStr n).len ≤ k :=
  length_decimalBytes_le hk h

/-- A `u64` that is read: its digits, and no zeros before them. -/
def u64OfDecimal (bs : List UInt8) : Option UInt64 :=
  if ofDecimal bs < 2 ^ 64 ∧ decimalBytes (ofDecimal bs) = bs then some (UInt64.ofNat (ofDecimal bs))
  else none

theorem u64OfDecimal_decimalBytes (n : UInt64) : u64OfDecimal (decimalBytes n.toNat) = some n := by
  rw [u64OfDecimal, ofDecimal_decimalBytes, if_pos ⟨n.toNat_lt, rfl⟩, UInt64.ofNat_toNat]

/-- A `u64` in decimal digits, up to a byte below them. -/
def TextCodec.u64 (stop : UInt8) (h : stop.toNat < 48) : TextCodec UInt64 :=
  untilByte stop u64OfDecimal (fun n => decimalBytes n.toNat) u64OfDecimal_decimalBytes
    fun _ hmem => Nat.not_lt.mpr (mem_decimalBytes hmem).1 h

end LG
