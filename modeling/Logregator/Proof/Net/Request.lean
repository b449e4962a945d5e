import Logregator.Proof.Tsdb.Label
import Logregator.Spec.Net.Request

/-!
# Requests: which label lists are accepted, what a batch yields

No string is accepted by `parseLpStr`, whose range of lengths is empty
(`parseLpStr_ne_ok`), so a list of labels is accepted only when it has none.
The label map codec reads every list back (`parseLabelMap_labelListBytes`).

The iterator over a batch goes on at the index that is the offset of the next
payload. Offsets are not zero and ascend, so that index is at least two more,
and an iteration that ends has gone over at most half of them
(`length_of_drains`). The last payload is cut at the number of offsets and not
at the end of the bytes, so a batch with a single one yields none of it.
-/

namespace LG.Proof.Net

open LG.Impl.Net LG.Spec.Net
open LG.Impl.Tsdb (Label LabelMap parseLabelMap strSizeOk)

/-! ## Labels of a range request -/

theorem parseLpStr_ne_ok (src : List UInt8) (r : List UInt8 × Str) : parseLpStr src ≠ .ok r := by
  intro h
  cases src with
  | nil => cases h
  | cons len input =>
    simp only [parseLpStr, beU8, bind, Except.bind] at h
    rw [if_pos (by omega)] at h
    cases h

theorem parsePairs_eq_ok {input : List UInt8} {n : Nat} {v r : List Label}
    (h : parsePairs input n v = .ok r) : n = 0 ∧ r = v := by
  cases n with
  | zero =>
    cases h
    exact ⟨rfl, rfl⟩
  | succ n =>
    rw [parsePairs] at h
    cases hkey : parseLpStr input with
    | error e =>
      rw [hkey] at h
      cases h
    | ok r => exact absurd hkey (parseLpStr_ne_ok input r)

theorem parseLpStrVec_cons {count : UInt8} {input rest : List UInt8} {labels : List Label} :
    parseLpStrVec (count :: input) = .ok (rest, labels) ↔
      count.toNat = 0 ∧ rest = input ∧ labels = [] := by
  constructor
  · intro h
    simp only [parseLpStrVec, beU8, bind, Except.bind] at h
    cases htake : take count.toNat input with
    | error e =>
      rw [htake] at h
      cases h
    | ok r =>
      rw [htake] at h
      simp only at h
      cases hpairs : parsePairs r.1 count.toNat [] with
      | error e =>
        rw [hpairs] at h
        cases h
      | ok v =>
        rw [hpairs] at h
        cases h
        obtain ⟨hzero, hv⟩ := parsePairs_eq_ok hpairs
        rw [hzero, take, if_neg (Nat.not_lt_zero _)] at htake
        cases htake
        exact ⟨hzero, rfl, hv⟩
  · rintro ⟨hzero, rfl, rfl⟩
    simp only [parseLpStrVec, beU8, bind, Except.bind, hzero]
    rfl

theorem toNat_count {labels : List Label} (h : labels.length ≤ 255) :
    (UInt8.ofNat labels.length).toNat = labels.length := by
  rw [UInt8.toNat_ofNat', Nat.mod_eq_of_lt (by omega)]

/-- The label map codec accepts every list of labels; of two labels with one
key it keeps the later. -/
theorem parseLabelMap_labelListBytes (fp : List Label → UInt64) {labels : List Label}
    (hcount : labels.length ≤ 255)
    (hsize : ∀ l ∈ labels, strSizeOk l.1 = true ∧ strSizeOk l.2 = true) (rest : List UInt8) :
    parseLabelMap fp (labelListBytes labels ++ rest) =
      .ok (rest, LabelMap.new fp (labels.foldl (fun m l => m.upsert l.1 l.2) (.empty _))) := by
  have hsizes : ∀ l ∈ labels, l.1.len ≤ 255 ∧ l.2.len ≤ 255 := by
    intro l hl
    have hk := Tsdb.strSizeOk_iff.mp (hsize l hl).1
    have hv := Tsdb.strSizeOk_iff.mp (hsize l hl).2
    omega
  have hparse := Tsdb.parseLabels_flatMap hsizes rest (.empty _)
  rw [labelListBytes, List.cons_append, parseLabelMap, toNat_count hcount]
  exact congrArg (· >>= fun r => Except.ok (r.1, LabelMap.new fp r.2)) hparse

/-- The label map codec reads every list of labels, and the parser of requests
returns it only when it is empty. -/
theorem parseLpStrVec_labelListBytes (fp : List Label → UInt64) {labels : List Label}
    (hcount : labels.length ≤ 255)
    (hsize : ∀ l ∈ labels, strSizeOk l.1 = true ∧ strSizeOk l.2 = true) (rest : List UInt8) :
    (parseLpStrVec (labelListBytes labels ++ rest) = .ok (rest, labels) ↔ labels = []) ∧
      ∃ lm, parseLabelMap fp (labelListBytes labels ++ rest) = .ok (rest, lm) := by
  refine ⟨?_, _, parseLabelMap_labelListBytes fp hcount hsize rest⟩
  rw [labelListBytes, List.cons_append, parseLpStrVec_cons, toNat_count hcount]
  constructor
  · rintro ⟨-, -, hnil⟩
    exact hnil
  · rintro rfl
    exact ⟨rfl, rfl, rfl⟩

/-- The list of the label `a=b`. -/
theorem parseLpStrVec_one_label :
    labelListBytes [(⟨[97], by decide⟩, ⟨[98], by decide⟩)] = [1, 1, 97, 1, 98] ∧
      parseLpStrVec [1, 1, 97, 1, 98] = .error (.failure [1, 98] .lengthValue) := by
  decide

/-- The empty list is returned; a list of two labels is not, though the codec
reads it. -/
theorem parseLpStrVec_empty_and_two :
    let labels : List Label :=
      [(⟨[97], by decide⟩, ⟨[98], by decide⟩), (⟨[99], by decide⟩, ⟨[100, 101], by decide⟩)]
    parseLpStrVec (labelListBytes [] ++ [7]) = .ok ([7], []) ∧
      parseLpStrVec (labelListBytes labels ++ [7]) ≠ .ok ([7], labels) ∧
      ∃ lm, parseLabelMap (fun _ => 0) (labelListBytes labels ++ [7]) = .ok ([7], lm) := by
  intro labels
  have hnil := parseLpStrVec_labelListBytes (fun _ => 0) (by decide)
    (fun l hl => absurd hl (List.not_mem_nil (a := l))) [7]
  have htwo := parseLpStrVec_labelListBytes (fun _ => 0) (show labels.length ≤ 255 by decide)
    (by decide) [7]
  exact ⟨hnil.1.mpr rfl, fun h => absurd (htwo.1.mp h) (by decide), htwo.2⟩

/-! ## The payloads of a batch -/

/-- The offset at an index of an ascending list is past that index. -/
theorem index_lt_offset {offsets : List ℕ+} (hasc : offsets.Pairwise (· < ·)) {i : Nat} {o : ℕ+}
    (h : offsets[i]? = some o) : i < (o : Nat) := by
  induction i generalizing o with
  | zero => exact o.pos
  | succ i ih =>
    obtain ⟨hi, rfl⟩ := List.getElem?_eq_some_iff.mp h
    have hprev := ih (List.getElem?_eq_getElem (Nat.lt_of_succ_lt hi))
    have hstep : offsets[i] < offsets[i + 1] :=
      List.pairwise_iff_getElem.mp hasc i (i + 1) (Nat.lt_of_succ_lt hi) hi (Nat.lt_succ_self i)
    have hstep' : ((offsets[i] : ℕ+) : Nat) < offsets[i + 1] := hstep
    omega

theorem endOf_eq_some {offsets : List ℕ+} {i stop : Nat} {idx : Option Nat}
    (h : AppendBatchIter.endOf offsets i = some (stop, idx)) :
    (∃ o, offsets[i + 1]? = some o ∧ stop = o ∧ idx = some (o : Nat)) ∨
      stop = offsets.length ∧ idx = none := by
  rw [AppendBatchIter.endOf] at h
  split at h
  · cases ho : offsets[i + 1]? with
    | none =>
      rw [ho] at h
      cases h
    | some o =>
      rw [ho] at h
      cases h
      exact .inl ⟨o, rfl, rfl, rfl⟩
  · cases h
    exact .inr ⟨rfl, rfl⟩

/-- A call that yields something: the index it was made at, the slice, and the
index it leaves. -/
theorem next_eq_some {batch : BytesOffset} {i : Nat} {out : Option (List UInt8)}
    {it : AppendBatchIter} (h : AppendBatchIter.next ⟨batch, some i⟩ = some (out, it)) :
    ∃ stop idx, AppendBatchIter.endOf batch.offsets i = some (stop, idx) ∧
      ∃ o, batch.offsets[i]? = some o ∧ out = slice batch.raw o stop ∧ out ≠ none ∧
        it = ⟨batch, idx⟩ := by
  simp only [AppendBatchIter.next, bind, Option.bind_eq_some_iff] at h
  obtain ⟨⟨stop, idx⟩, hend, o, ho, bytes, hbytes, h⟩ := h
  cases h
  exact ⟨stop, idx, hend, o, ho, hbytes.symm, Option.some_ne_none bytes, rfl⟩

/-- An iteration from an index takes two indices for each slice that it
yields, but one for the last. -/
theorem length_of_drains {batch : BytesOffset} {i : Nat} {out : List (List UInt8)}
    (h : Drains AppendBatchIter.next ⟨batch, some i⟩ out)
    (hasc : batch.offsets.Pairwise (· < ·)) :
    i + 2 * out.length ≤ batch.offsets.length + 1 := by
  induction out generalizing i with
  | nil =>
    obtain ⟨it, hnext, -⟩ := h.next_eq
    obtain ⟨-, -, -, -, -, -, hne, -⟩ := next_eq_some hnext
    exact absurd rfl hne
  | cons bytes out ih =>
    obtain ⟨it, hnext, hrest⟩ := h.next_eq
    obtain ⟨stop, idx, hend, o, ho, -, -, rfl⟩ := next_eq_some hnext
    have hrest := hrest (List.cons_ne_nil _ _)
    rw [List.tail_cons] at hrest
    rw [List.length_cons]
    rcases endOf_eq_some hend with ⟨o', ho', -, rfl⟩ | ⟨-, rfl⟩
    · have hidx := index_lt_offset hasc ho'
      have := ih hrest
      omega
    · have hnil : out = [] := hrest.unique (.done rfl)
      obtain ⟨hi, -⟩ := List.getElem?_eq_some_iff.mp ho
      rw [hnil, List.length_nil]
      omega

theorem length_payloads (raw : List UInt8) (offsets : List ℕ+) :
    (payloads raw offsets).length = offsets.length := by
  induction offsets with
  | nil => rfl
  | cons o offsets ih =>
    cases offsets with
    | nil => rfl
    | cons o' offsets => exact congrArg (· + 1) ih

/-- A batch with one offset yields no bytes, if it yields at all. -/
theorem drains_one_offset {raw : List UInt8} {o : ℕ+} {bytes : List UInt8}
    {out : List (List UInt8)}
    (h : Drains AppendBatchIter.next ⟨⟨raw, [o]⟩, some 0⟩ (bytes :: out)) : bytes = [] := by
  obtain ⟨it, hnext, -⟩ := h.next_eq
  obtain ⟨stop, idx, hend, o', ho, hbytes, -, -⟩ := next_eq_some hnext
  cases hend
  cases ho
  rw [List.head?_cons, slice] at hbytes
  split at hbytes
  · cases hbytes
    rw [List.length_singleton, Nat.sub_eq_zero_of_le o.pos, List.take_zero]
  · cases hbytes

/-- The iterator over a batch never yields its payloads. -/
theorem append_batch_iter_payloads_never {raw : List UInt8} {offsets : List ℕ+}
    (hne : offsets ≠ []) (hasc : offsets.Pairwise (· < ·))
    (hlt : ∀ o ∈ offsets, (o : Nat) < raw.length) :
    ¬ ∃ it, AppendBatchIter.new ⟨raw, offsets⟩ = some it ∧
      Drains AppendBatchIter.next it (payloads raw offsets) := by
  rintro ⟨it, hnew, hd⟩
  rw [AppendBatchIter.new, if_neg (by simpa using hne)] at hnew
  cases hnew
  have hlen := length_of_drains hd hasc
  rw [length_payloads] at hlen
  cases offsets with
  | nil => exact hne rfl
  | cons o offsets =>
    cases offsets with
    | nil =>
      have hnil := drains_one_offset hd
      have hlt := hlt o List.mem_cons_self
      rw [List.drop_eq_nil_iff] at hnil
      omega
    | cons o' offsets =>
      simp only [List.length_cons] at hlen
      omega

/-- Three bytes with one payload, from byte 1 on. -/
theorem append_batch_iter_one_payload :
    payloads [0, 1, 2] [1] = [[1, 2]] ∧
      ∃ it, AppendBatchIter.new ⟨[0, 1, 2], [1]⟩ = some it ∧
        Drains AppendBatchIter.next it [[]] :=
  ⟨rfl, _, rfl, .step rfl (.done rfl)⟩

theorem append_batch_iter_two_payloads_never :
    ¬ ∃ it, AppendBatchIter.new ⟨[0, 1, 2], [1, 2]⟩ = some it ∧
      Drains AppendBatchIter.next it [[1], [2]] :=
  append_batch_iter_payloads_never (by decide) (by decide) (by decide)

end LG.Proof.Net
