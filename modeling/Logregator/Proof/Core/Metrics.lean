import Logregator.Impl.Core.Metrics

/-!
# The metrics text is short

A number has 20 digits at most, and the text a fixed set of fields, so that it
fits into a frame whatever the counters are (`json_fits`).
-/

namespace LG.Proof.Core

open LG.Impl.Core

theorem len_json_le (v : MetricValue) : v.json.len ≤ 20 := by
  cases v with
  | counter n => exact len_decimalStr_le (by decide) (n.toNat_lt.trans (by decide))
  | gauge n =>
    have hdigits : (decimalStr n.toInt.natAbs).len ≤ 19 := by
      have hlo := n.le_toInt
      have hhi := n.toInt_lt
      exact len_decimalStr_le (by decide) (by omega)
    have hsign : (Str.ofAscii "-").len = 1 := rfl
    rw [MetricValue.json]
    split
    · rw [Str.len_append]
      omega
    · omega
  | noSamples => decide

theorem len_jsonField_le {name : String} {value : Str} {k : Nat} (hname : name.length ≤ 24)
    (hvalue : value.len ≤ k) : (jsonField name value).len ≤ k + 27 := by
  have hquote : (Str.ofAscii "\"").len = 1 := rfl
  have hcolon : (Str.ofAscii "\":").len = 2 := rfl
  simp only [jsonField, Str.len_concat, List.map_cons, List.map_nil, List.sum_cons, List.sum_nil,
    Str.len_ofAscii name]
  omega

theorem sum_intersperse_le {fields : List Str} {k : Nat} (h : ∀ f ∈ fields, f.len ≤ k) :
    ((fields.intersperse (.ofAscii ",")).map Str.len).sum ≤ fields.length * (k + 1) := by
  have hcomma : (Str.ofAscii ",").len = 1 := rfl
  fun_induction List.intersperse (Str.ofAscii ",") fields with
  | case1 => simp
  | case2 f =>
    have hf := h f List.mem_cons_self
    simp
    omega
  | case3 f fields hne ih =>
    obtain ⟨hf, hfields⟩ := List.forall_mem_cons.mp h
    have ih := ih hfields
    simp only [List.map_cons, List.sum_cons, List.length_cons, Nat.succ_mul]
    omega

/-- An object is no longer than its fields allow. -/
theorem len_jsonObject_le {fields : List Str} {k : Nat} (h : ∀ f ∈ fields, f.len ≤ k) :
    (jsonObject fields).len ≤ fields.length * (k + 1) + 2 := by
  have hsum := sum_intersperse_le h
  have hopen : (Str.ofAscii "\x7b").len = 1 := rfl
  have hclose : (Str.ofAscii "\x7d").len = 1 := rfl
  simp only [jsonObject, Str.len_concat, List.map_cons, List.map_nil, List.sum_cons, List.sum_nil]
  omega

/-- The fields are few, with short names. -/
theorem snapshot_short (m : Metrics) : m.snapshot.length = 3 ∧ ∀ s ∈ m.snapshot,
    s.1.length ≤ 24 ∧ s.2.length ≤ 17 ∧ ∀ f ∈ s.2, f.1.length ≤ 24 := by
  refine ⟨rfl, ?_⟩
  simp only [Metrics.snapshot, List.forall_mem_cons, List.not_mem_nil, false_imp_iff, implies_true,
    List.length_cons, List.length_nil]
  decide

/-- The text fits into a frame. -/
theorem json_fits (m : Metrics) : m.json.len + 5 < 2 ^ 32 := by
  obtain ⟨hthree, hshort⟩ := snapshot_short m
  have hlen : m.json.len ≤ _ :=
    len_jsonObject_le (k := 845) (List.forall_mem_map.mpr fun s hs => ?_)
  · rw [List.length_map, hthree] at hlen
    omega
  · obtain ⟨hname, hfew, hfields⟩ := hshort s hs
    have hobject : (jsonObject (s.2.map fun f => jsonField f.1 f.2.json)).len ≤ _ :=
      len_jsonObject_le
        (List.forall_mem_map.mpr fun f hf => len_jsonField_le (hfields f hf) (len_json_le f.2))
    rw [List.length_map] at hobject
    exact len_jsonField_le hname (k := 818) (by omega)

end LG.Proof.Core
