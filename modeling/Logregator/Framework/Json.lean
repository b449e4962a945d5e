import Logregator.Framework.Text
import Mathlib.Tactic.IntervalCases

/-!
# JSON texts

The pieces of the texts that `serde_json` writes with its pretty printer:
strings with their escapes, numbers as keys, and objects with a member on each
line, indented by two blanks for each level. They are read as they are written;
other white space, and other ways to write the same, are not read.
-/

namespace LG.Json

/-! ## Strings -/

/-- A digit of a hexadecimal escape. -/
def hexDigit (n : Nat) : UInt8 := UInt8.ofNat (if n < 10 then 48 + n else 87 + n)

/-- The value of such a digit. -/
def hexValue (b : UInt8) : Option Nat :=
  if 48 ≤ b.toNat ∧ b.toNat ≤ 57 then some (b.toNat - 48)
  else if 97 ≤ b.toNat ∧ b.toNat ≤ 102 then some (b.toNat - 87)
  else none

/-- The letters behind a backslash, with the bytes that they stand for. -/
def escapes : List (UInt8 × UInt8) :=
  [(34, 34), (92, 92), (98, 8), (116, 9), (110, 10), (102, 12), (114, 13)]

/-- A byte of a string: the quote, the backslash and control characters are
escaped. -/
def escape (b : UInt8) : List UInt8 :=
  match escapes.find? fun p => p.2 = b with
  | some p => [92, p.1]
  | none => if b < 32 then [92, 117, 48, 48, hexDigit (b.toNat / 16), hexDigit (b.toNat % 16)] else [b]

/-- Reads the digits of a hexadecimal escape. -/
def readHex : List UInt8 → Option (UInt8 × List UInt8)
  | z₁ :: z₂ :: h :: l :: bs =>
    if z₁ = 48 ∧ z₂ = 48 then
      (hexValue h).bind fun h => (hexValue l).map fun l => (UInt8.ofNat (16 * h + l), bs)
    else none
  | _ => none

/-- Reads what follows a backslash. -/
def readEscape : List UInt8 → Option (UInt8 × List UInt8)
  | [] => none
  | c :: bs => if c = 117 then readHex bs else (escapes.lookup c).map fun b => (b, bs)

/-- Reads a byte of a string. -/
def readByte : List UInt8 → Option (UInt8 × List UInt8)
  | [] => none
  | b :: bs =>
    if b = 92 then readEscape bs else if b < 32 ∨ b = 34 then none else some (b, bs)

theorem readHex_append {bs rest : List UInt8} {b : UInt8} (h : readHex bs = some (b, rest))
    (more : List UInt8) :
    readHex (bs ++ more) = some (b, rest ++ more) ∧ rest.length < bs.length := by
  unfold readHex at h
  split at h
  · rename_i z₁ z₂ d₁ d₂ bs
    split at h
    · rename_i hz
      obtain ⟨hi, hhi, h⟩ := Option.bind_eq_some_iff.mp h
      obtain ⟨lo, hlo, h⟩ := Option.map_eq_some_iff.mp h
      cases h
      refine ⟨?_, by simp only [List.length_cons]; omega⟩
      simp only [List.cons_append, readHex]
      rw [if_pos hz, hhi, Option.bind_some, hlo]
      rfl
    · cases h
  · cases h

theorem readEscape_append {bs rest : List UInt8} {b : UInt8} (h : readEscape bs = some (b, rest))
    (more : List UInt8) :
    readEscape (bs ++ more) = some (b, rest ++ more) ∧ rest.length < bs.length := by
  cases bs with
  | nil => cases h
  | cons c bs =>
    rw [List.cons_append, readEscape]
    rw [readEscape] at h
    split at h
    · rename_i hc
      obtain ⟨happend, hlt⟩ := readHex_append h more
      exact ⟨(if_pos hc).trans happend, Nat.lt_succ_of_lt hlt⟩
    · rename_i hc
      obtain ⟨b', hb, h⟩ := Option.map_eq_some_iff.mp h
      cases h
      refine ⟨(if_neg hc).trans ?_, Nat.lt_succ_self _⟩
      rw [hb]
      rfl

theorem readByte_append {bs rest : List UInt8} {b : UInt8} (h : readByte bs = some (b, rest))
    (more : List UInt8) :
    readByte (bs ++ more) = some (b, rest ++ more) ∧ rest.length < bs.length := by
  cases bs with
  | nil => cases h
  | cons c bs =>
    rw [List.cons_append, readByte]
    rw [readByte] at h
    split at h
    · rename_i hc
      obtain ⟨happend, hlt⟩ := readEscape_append h more
      exact ⟨(if_pos hc).trans happend, Nat.lt_succ_of_lt hlt⟩
    · rename_i hc
      split at h
      · cases h
      · rename_i hplain
        cases h
        exact ⟨(if_neg hc).trans (if_neg hplain), Nat.lt_succ_self _⟩

theorem readByte_escape (b : UInt8) (rest : List UInt8) :
    readByte (escape b ++ rest) = some (b, rest) := by
  by_cases hctl : b < 32
  · -- The control characters, one by one.
    obtain ⟨n, hn, rfl⟩ : ∃ n < 32, b = UInt8.ofNat n :=
      ⟨b.toNat, UInt8.lt_iff_toNat_lt.mp hctl, UInt8.ofNat_toNat.symm⟩
    interval_cases n <;> rfl
  · by_cases hquote : b = 34
    · rw [hquote]
      rfl
    · by_cases hslash : b = 92
      · rw [hslash]
        rfl
      · have hnone : escapes.find? (fun p => p.2 = b) = none := by
          simp only [escapes, List.find?_eq_none, List.forall_mem_cons, decide_eq_true_eq]
          refine ⟨Ne.symm hquote, Ne.symm hslash, ?_, ?_, ?_, ?_, ?_, List.forall_mem_nil _⟩ <;>
          · rintro rfl
            exact hctl (by decide)
        rw [escape, hnone]
        simp only [if_neg hctl, List.singleton_append, readByte, if_neg hslash]
        exact if_neg (not_or.mpr ⟨hctl, hquote⟩)

/-- The bytes of a string, with their escapes. -/
def byteText : TextCodec UInt8 where
  write := escape
  read := readByte
  read_write := readByte_escape
  read_append h more := (readByte_append h more).1
  shorter h := (readByte_append h []).2

theorem head_escape (b : UInt8) : (escape b).head? ≠ some 34 := by
  unfold escape
  split
  · exact fun h => absurd (Option.some.inj h) (by decide)
  · rename_i hnone
    split
    · exact fun h => absurd (Option.some.inj h) (by decide)
    · intro h
      have hquote := List.find?_eq_none.mp hnone (34, 34) List.mem_cons_self
      exact hquote (decide_eq_true (Option.some.inj h).symm)

/-- `from_utf8`. -/
def strOfBytes (bs : List UInt8) : Option Str := if h : utf8 bs = true then some ⟨bs, h⟩ else none

theorem strOfBytes_bytes (s : Str) : strOfBytes s.bytes = some s := dif_pos s.valid

/-- A string. -/
def str : TextCodec Str :=
  ((byteText.list 34 head_escape).before [34]).partialMap strOfBytes Str.bytes strOfBytes_bytes

/-! ## Numbers -/

theorem quote_lt : (34 : UInt8).toNat < 48 := by decide

theorem newline_lt : (10 : UInt8).toNat < 48 := by decide

/-- A `u64` as the key of a map. -/
def u64Key : TextCodec UInt64 := (TextCodec.u64 34 quote_lt).before [34]

/-! ## Objects -/

variable {α β : Type}

/-- A new line, indented for the level. -/
def newline (level : Nat) : List UInt8 := 10 :: List.replicate (2 * level) 32

/-- What precedes the value of a field. -/
def field (level : Nat) (name : String) : List UInt8 :=
  newline level ++ 34 :: Str.asciiBytes name ++ [34, 58, 32]

/-- A key and its value. -/
def member (key : TextCodec α) (value : TextCodec β) : TextCodec (α × β) :=
  key.pair (value.before [58, 32])

theorem head_comma (lead : List UInt8) (x : TextCodec α) (a : α) :
    ((x.before (44 :: lead)).write a).head? ≠ some 10 := fun h => absurd (Option.some.inj h) (by decide)

/-- The members of an object that has some. -/
def members (level : Nat) (x : TextCodec α) : TextCodec (α × List α) :=
  ((x.pair ((x.before (44 :: newline (level + 1))).list 10 (head_comma _ x))).before
    (newline (level + 1))).after (List.replicate (2 * level) 32 ++ [125])

theorem head_members (level : Nat) (x : TextCodec α) (p : α × List α) :
    ((members level x).write p).head? ≠ some 125 := fun h => absurd (Option.some.inj h) (by decide)

/-- The members, as a list. -/
def listOf : Option (α × List α) → List α
  | none => []
  | some (a, as) => a :: as

/-- The list, as members. -/
def membersOf : List α → Option (α × List α)
  | [] => none
  | a :: as => some (a, as)

theorem listOf_membersOf (as : List α) : some (listOf (membersOf as)) = some as := by
  cases as with
  | nil => rfl
  | cons a as => rfl

/-- An object at a level, with a member on each line. -/
def object (level : Nat) (x : TextCodec α) : TextCodec (List α) :=
  (((members level x).option 125 (head_members level x)).before [123]).partialMap
    (fun o => some (listOf o)) membersOf listOf_membersOf

end LG.Json
