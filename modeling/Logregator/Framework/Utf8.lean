import Logregator.Framework.Bytes

/-!
# UTF-8 strings

A machine that reads a byte string and ends between characters just when the
bytes are well-formed UTF-8, which is what `str::from_utf8` accepts
(`utf8`); and `Str`, the byte strings that are. A `Str` compares by its bytes.
-/

namespace LG

/-- Where the machine stands: between characters, or inside one, where the
next byte must lie in `lo..=hi` and `more` continuation bytes follow it. -/
inductive Utf8State where
  | start
  | inside (lo hi : UInt8) (more : Nat)
  deriving DecidableEq, Repr

/-- The first byte of a character. -/
def utf8First (b : UInt8) : Option Utf8State :=
  if b ≤ 0x7F then some .start
  else if 0xC2 ≤ b ∧ b ≤ 0xDF then some (.inside 0x80 0xBF 0)
  else if b = 0xE0 then some (.inside 0xA0 0xBF 1)
  else if b = 0xED then some (.inside 0x80 0x9F 1)
  else if 0xE1 ≤ b ∧ b ≤ 0xEF then some (.inside 0x80 0xBF 1)
  else if b = 0xF0 then some (.inside 0x90 0xBF 2)
  else if 0xF1 ≤ b ∧ b ≤ 0xF3 then some (.inside 0x80 0xBF 2)
  else if b = 0xF4 then some (.inside 0x80 0x8F 2)
  else none

/-- One byte. -/
def utf8Step : Utf8State → UInt8 → Option Utf8State
  | .start, b => utf8First b
  | .inside lo hi more, b =>
    if lo ≤ b ∧ b ≤ hi then
      match more with
      | 0 => some .start
      | more + 1 => some (.inside 0x80 0xBF more)
    else none

/-- `str::from_utf8` accepts the bytes. -/
def utf8 (bs : List UInt8) : Bool := bs.foldlM utf8Step .start = some .start

theorem utf8_ascii {bs : List UInt8} (h : ∀ b ∈ bs, b ≤ 0x7F) : utf8 bs = true := by
  rw [utf8, decide_eq_true_eq]
  induction bs with
  | nil => rfl
  | cons b bs ih =>
    obtain ⟨hb, hbs⟩ := List.forall_mem_cons.mp h
    rw [List.foldlM_cons, utf8Step, utf8First, if_pos hb]
    exact ih hbs

theorem utf8_append {as bs : List UInt8} (ha : utf8 as = true) (hb : utf8 bs = true) :
    utf8 (as ++ bs) = true := by
  rw [utf8, decide_eq_true_eq] at ha hb ⊢
  rw [List.foldlM_append, ha]
  exact hb

/-- A string: bytes that are UTF-8. -/
structure Str where
  bytes : List UInt8
  valid : utf8 bytes = true
  deriving DecidableEq, Repr

namespace Str

theorem bytes_injective : Function.Injective Str.bytes := by
  rintro ⟨a, ha⟩ ⟨b, hb⟩ rfl
  rfl

instance : LinearOrder Str := LinearOrder.lift' Str.bytes bytes_injective

/-- `str::len`. -/
def len (s : Str) : Nat := s.bytes.length

/-- The bytes of an ASCII text. -/
def asciiBytes (text : String) : List UInt8 :=
  text.toList.map fun ch => UInt8.ofNat (ch.toNat % 128)

theorem utf8_asciiBytes (text : String) : utf8 (asciiBytes text) = true := by
  refine utf8_ascii fun b hb => ?_
  obtain ⟨ch, -, rfl⟩ := List.mem_map.mp hb
  rw [UInt8.le_iff_toNat_le, UInt8.toNat_ofNat']
  have : ch.toNat % 128 < 128 := Nat.mod_lt _ (by decide)
  show _ ≤ 127
  omega

/-- An ASCII text. -/
def ofAscii (text : String) : Str := ⟨asciiBytes text, utf8_asciiBytes text⟩

theorem len_ofAscii (text : String) : (ofAscii text).len = text.length := by
  show (asciiBytes text).length = _
  rw [asciiBytes, List.length_map, String.length_toList]

/-- One string behind another. -/
def append (s t : Str) : Str := ⟨s.bytes ++ t.bytes, utf8_append s.valid t.valid⟩

/-- Strings one behind the other. -/
def concat (ss : List Str) : Str := ss.foldr append (ofAscii "")

@[simp] theorem len_append (s t : Str) : (s.append t).len = s.len + t.len := List.length_append

@[simp] theorem len_concat (ss : List Str) : (concat ss).len = (ss.map len).sum := by
  induction ss with
  | nil => rfl
  | cons s ss ih => rw [concat, List.foldr_cons, len_append, List.map_cons, List.sum_cons, ← ih]; rfl

end Str

/-! ## Why bytes are no string -/

/-- How reading bytes on from a state ends, where the current character started
at `start` and the next byte is at `i`: the text of the `Utf8Error`, if there is
one. -/
def utf8ErrorFrom : Utf8State → Nat → Nat → List UInt8 → Option String
  | .start, _, _, [] => none
  | .inside _ _ _, start, _, [] =>
    some ("incomplete utf-8 byte sequence from index " ++ Nat.repr start)
  | st, start, i, b :: bs =>
    match utf8Step st b with
    | some .start => utf8ErrorFrom .start (i + 1) (i + 1) bs
    | some st => utf8ErrorFrom st start (i + 1) bs
    | none => some ("invalid utf-8 sequence of " ++ Nat.repr (max 1 (i - start)) ++
        " bytes from index " ++ Nat.repr start)

/-- The text of the `Utf8Error` of bytes that are no string. -/
def utf8Error (bs : List UInt8) : Option String := utf8ErrorFrom .start 0 0 bs

end LG
