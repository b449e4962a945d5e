import Logregator.Proof.Tsdb.Admit

/-!
# The label map codec: what it writes, what it reads back

The bytes of a label map (`labelBytes`) are the number of its labels and, for
each, its two strings with their lengths before them. Encoding labels that fit
writes them and leaves the rest of the buffer (`encodeLabelMap_ok`). Decoding
reads them back, whatever follows (`decodeLabelMap_labelBytes`): the labels come
in ascending order, so each one is added at the end of the map.
-/

namespace LG.Proof.Tsdb

open LG.Impl.Tsdb

/-! ## Strings and labels -/

/-- A string with its length before it. -/
def lpStr (s : Str) : List UInt8 := UInt8.ofNat s.len :: s.bytes

/-- The two strings of a label. -/
def labelWire (l : Label) : List UInt8 := lpStr l.1 ++ lpStr l.2

/-- The bytes of a label map. -/
def labelBytes (lm : LabelMap) : List UInt8 := UInt8.ofNat lm.len :: lm.iter.flatMap labelWire

theorem length_labelWire (l : Label) : (labelWire l).length = 2 + (l.1.len + l.2.len) := by
  simp only [labelWire, lpStr, List.length_append, List.length_cons, Str.len]
  omega

theorem foldl_wireLen (labels : List Label) (sz : Nat) :
    labels.foldl (fun sz l => sz + szU8 * 2 + (l.1.len + l.2.len)) sz =
      sz + (labels.flatMap labelWire).length := by
  induction labels generalizing sz with
  | nil => rfl
  | cons l labels ih =>
    rw [List.foldl_cons, ih, List.flatMap_cons, List.length_append, length_labelWire]
    simp only [szU8]
    omega

theorem length_labelBytes (lm : LabelMap) : (labelBytes lm).length = lm.wireLen := by
  rw [LabelMap.wireLen, foldl_wireLen, labelBytes, List.length_cons, szU8]
  omega

/-! ## Encoding -/

theorem putLpStr_append (s : Str) (as bs : List UInt8) {start : Nat} (h : as.length = start) :
    putLpStr s (as ++ bs) start =
      (as ++ (lpStr s ++ bs.drop (lpStr s).length), start + (lpStr s).length) := by
  subst h
  rw [putLpStr, splice_append _ _ _ rfl, ← List.append_assoc, splice_append _ _ _ (by simp)]
  simp [lpStr, Str.len, Nat.add_comm, Nat.add_left_comm]

theorem putLabels_append (labels : List Label) (as bs : List UInt8) {start : Nat}
    (h : as.length = start) :
    putLabels labels (as ++ bs) start =
      (as ++ (labels.flatMap labelWire ++ bs.drop (labels.flatMap labelWire).length),
        start + (labels.flatMap labelWire).length) := by
  induction labels generalizing as bs start with
  | nil => simp [putLabels]
  | cons l labels ih =>
    obtain ⟨k, v⟩ := l
    rw [putLabels, putLpStr_append k as bs h]
    simp only
    rw [← List.append_assoc, putLpStr_append v _ _ (by simp [h])]
    simp only
    rw [← List.append_assoc, ih _ _ (by simp [h, Nat.add_assoc])]
    simp [labelWire, List.append_assoc, List.drop_drop, Nat.add_assoc]

theorem checkLabelSizes_ok {labels : List Label}
    (h : ∀ l ∈ labels, strSizeOk l.1 = true ∧ strSizeOk l.2 = true) :
    checkLabelSizes labels = .ok () := by
  induction labels with
  | nil => rfl
  | cons l labels ih =>
    obtain ⟨⟨hk, hv⟩, hrest⟩ := List.forall_mem_cons.mp h
    rw [checkLabelSizes, if_neg (not_not.mpr hk), if_neg (not_not.mpr hv)]
    exact ih hrest

/-- Labels that fit, encoded into a buffer that is long enough. -/
theorem encodeLabelMap_ok {lm : LabelMap} (hlen : lm.len ≤ maxLabelCount) (hfit : LabelsFit lm)
    {dst : List UInt8} (h : lm.wireLen ≤ dst.length) :
    encodeLabelMap lm dst = (.ok lm.wireLen, labelBytes lm ++ dst.drop lm.wireLen) := by
  have hcheck : checkLabelSizes lm.iter = .ok () := checkLabelSizes_ok fun l hl =>
    ⟨strSizeOk_iff.mpr (hfit l hl).1, strSizeOk_iff.mpr (hfit l hl).2⟩
  have hput := putLabels_append lm.iter [UInt8.ofNat lm.len] (dst.drop 1)
    (show [UInt8.ofNat lm.len].length = 1 from rfl)
  have hwire : 1 + (lm.iter.flatMap labelWire).length = lm.wireLen := by
    rw [← length_labelBytes, labelBytes, List.length_cons]
    omega
  rw [encodeLabelMap, if_neg (not_lt.mpr hlen), hcheck]
  simp only
  rw [if_neg (not_lt.mpr h), show splice dst 0 [UInt8.ofNat lm.len] =
    [UInt8.ofNat lm.len] ++ dst.drop 1 by simp [splice], hput, List.drop_drop, hwire]
  rfl

theorem checkLabelSizes_eq_ok {labels : List Label} (h : checkLabelSizes labels = .ok ()) :
    ∀ l ∈ labels, strSizeOk l.1 = true ∧ strSizeOk l.2 = true := by
  induction labels with
  | nil => simp
  | cons l labels ih =>
    rw [checkLabelSizes] at h
    split at h
    · cases h
    · rename_i hk
      split at h
      · cases h
      · rename_i hv
        exact List.forall_mem_cons.mpr ⟨⟨not_not.mp hk, not_not.mp hv⟩, ih h⟩

/-- What is encoded at all has labels that fit. -/
theorem encodeLabelMap_eq_ok {lm : LabelMap} {dst : List UInt8} {n : Nat}
    (h : (encodeLabelMap lm dst).1 = .ok n) : lm.len ≤ maxLabelCount ∧ LabelsFit lm := by
  unfold encodeLabelMap at h
  split at h
  · cases h
  · rename_i hlen
    refine ⟨not_lt.mp hlen, fun l hl => ?_⟩
    cases hcheck : checkLabelSizes lm.iter with
    | error e =>
      rw [hcheck] at h
      cases h
    | ok u =>
      obtain ⟨hk, hv⟩ := checkLabelSizes_eq_ok hcheck l hl
      exact ⟨strSizeOk_iff.mp hk, strSizeOk_iff.mp hv⟩

/-! ## Decoding -/

theorem takeLpStr_lpStr {s : Str} (h : s.len ≤ 255) (rest : List UInt8) :
    takeLpStr (lpStr s ++ rest) = .ok (rest, s) := by
  have hlen : (UInt8.ofNat s.len).toNat = s.bytes.length := by
    rw [UInt8.toNat_ofNat', Nat.mod_eq_of_lt (by omega), Str.len]
  have htake : (s.bytes ++ rest).take (UInt8.ofNat s.len).toNat = s.bytes := by
    rw [hlen, List.take_left]
  rw [lpStr, List.cons_append, takeLpStr, if_neg (by rw [hlen, List.length_append]; omega)]
  rw [dif_pos (by rw [htake]; exact s.valid)]
  have hdrop : (s.bytes ++ rest).drop (UInt8.ofNat s.len).toNat = rest := by
    rw [hlen, List.drop_left]
  exact congrArg Except.ok (Prod.ext hdrop (Str.bytes_injective htake))

/-- The labels are added one by one. -/
theorem parseLabels_flatMap {labels : List Label}
    (hfit : ∀ l ∈ labels, l.1.len ≤ 255 ∧ l.2.len ≤ 255) (rest : List UInt8)
    (map : OrdMap Str Str) :
    parseLabels labels.length (labels.flatMap labelWire ++ rest) map =
      .ok (rest, labels.foldl (fun m l => m.upsert l.1 l.2) map) := by
  induction labels generalizing map with
  | nil => rfl
  | cons l labels ih =>
    obtain ⟨k, v⟩ := l
    obtain ⟨⟨hk, hv⟩, hrest⟩ := List.forall_mem_cons.mp hfit
    rw [List.length_cons, List.flatMap_cons, labelWire, parseLabels, List.append_assoc,
      List.append_assoc, takeLpStr_lpStr hk]
    simp only [bind, Except.bind]
    rw [takeLpStr_lpStr hv]
    exact ih hrest (map.upsert k v)

theorem parseLabelMap_labelBytes (fp : List Label → UInt64) {lm : LabelMap}
    (hlen : lm.len ≤ maxLabelCount) (hfit : LabelsFit lm) (rest : List UInt8) :
    parseLabelMap fp (labelBytes lm ++ rest) = .ok (rest, LabelMap.new fp lm.inner) := by
  have hcount : (UInt8.ofNat lm.len).toNat = lm.iter.length := by
    rw [UInt8.toNat_ofNat', Nat.mod_eq_of_lt (lt_of_le_of_lt hlen (by decide))]
    rfl
  have hsizes : ∀ l ∈ lm.iter, l.1.len ≤ 255 ∧ l.2.len ≤ 255 := by
    intro l hl
    have := hfit l hl
    omega
  have hmap : lm.iter.foldl (fun m l => m.upsert l.1 l.2) (.empty _) = lm.inner :=
    OrdMap.foldl_upsert_elems lm.inner
  rw [labelBytes, List.cons_append, parseLabelMap, hcount, parseLabels_flatMap hsizes, hmap]
  rfl

/-- Decoding reads a label map back from its bytes. -/
theorem decodeLabelMap_labelBytes (fp : List Label → UInt64) {lm : LabelMap}
    (hlen : lm.len ≤ maxLabelCount) (hfit : LabelsFit lm) (rest : List UInt8) :
    decodeLabelMap fp (labelBytes lm ++ rest) =
      .ok (some (LabelMap.new fp lm.inner, lm.wireLen)) := by
  rw [decodeLabelMap, parseLabelMap_labelBytes fp hlen hfit]
  simp only [List.length_append, length_labelBytes, Nat.add_sub_cancel]

/-- Whatever was in a buffer of its length: a label map that is encoded fills it,
and is decoded from its bytes, with the fingerprint that `LabelMap::new` makes.
The label maps that are encoded are those of which there are manifest
entries. -/
theorem label_map_round_trip (fp : List Label → UInt64) (lm : LabelMap) {dst : List UInt8}
    (hdst : dst.length = lm.wireLen) :
    (∀ n, (encodeLabelMap lm dst).1 = .ok n →
      encodeLabelMap lm dst = (.ok lm.wireLen, labelBytes lm) ∧
      (labelBytes lm).length = lm.wireLen ∧
      ∀ rest, ∃ lm', decodeLabelMap fp (labelBytes lm ++ rest) = .ok (some (lm', lm.wireLen)) ∧
        lm'.inner = lm.inner ∧ ∀ map, lm = .new fp map → lm' = lm) ∧
    ∀ id, (∃ n, (encodeLabelMap lm dst).1 = .ok n) ↔
      (ManifestEntry.streamUpdate? id lm).isSome = true := by
  have hencode (hlen : lm.len ≤ maxLabelCount) (hfit : LabelsFit lm) :
      encodeLabelMap lm dst = (.ok lm.wireLen, labelBytes lm) := by
    rw [encodeLabelMap_ok hlen hfit hdst.ge, List.drop_eq_nil_of_le hdst.le, List.append_nil]
  refine ⟨fun n hn => ?_, fun id => ⟨?_, fun hsome => ?_⟩⟩
  · obtain ⟨hlen, hfit⟩ := encodeLabelMap_eq_ok hn
    refine ⟨hencode hlen hfit, length_labelBytes lm, fun rest => ?_⟩
    refine ⟨_, decodeLabelMap_labelBytes fp hlen hfit rest, rfl, ?_⟩
    rintro map rfl
    rfl
  · rintro ⟨n, hn⟩
    obtain ⟨hlen, hfit⟩ := encodeLabelMap_eq_ok hn
    exact (streamUpdate_isSome_iff hlen id).mpr hfit
  · have hlen : lm.len ≤ maxLabelCount := by
      by_contra hlong
      rw [ManifestEntry.streamUpdate?, if_pos (not_le.mp hlong)] at hsome
      cases hsome
    rw [hencode hlen ((streamUpdate_isSome_iff hlen id).mp hsome)]
    exact ⟨_, rfl⟩

/-- The label `a=b`. -/
def oneLabel : LabelMap :=
  .new (fun _ => 7) (OrdMap.upsert (.empty _) ⟨[97], by decide⟩ ⟨[98], by decide⟩)

/-- The labels `a=b` and `host=x1`. -/
def twoLabels : LabelMap :=
  .new (fun _ => 7) (OrdMap.upsert (OrdMap.upsert (.empty _) (.ofAscii "host") (.ofAscii "x1"))
    ⟨[97], by decide⟩ ⟨[98], by decide⟩)

theorem label_map_round_trip_two :
    (encodeLabelMap twoLabels (List.replicate 13 9)).1 = .ok 13 ∧
      decodeLabelMap (fun _ => 7) (labelBytes twoLabels ++ [42]) = .ok (some (twoLabels, 13)) := by
  have hdst : (List.replicate 13 9 : List UInt8).length = twoLabels.wireLen := by decide
  have hok : (encodeLabelMap twoLabels (List.replicate 13 9)).1 = .ok 13 := by decide +kernel
  obtain ⟨-, -, hdecode⟩ := (label_map_round_trip (fun _ => 7) twoLabels hdst).1 13 hok
  obtain ⟨lm', hlm', -, hnew⟩ := hdecode [42]
  rw [hnew _ rfl] at hlm'
  exact ⟨hok, hlm'⟩

/-! ## Bytes that are not all there -/

/-- What a parser took, it takes when more follows. -/
theorem takeLpStr_append {bs rest : List UInt8} {s : Str} (h : takeLpStr bs = .ok (rest, s))
    (more : List UInt8) : takeLpStr (bs ++ more) = .ok (rest ++ more, s) := by
  cases bs with
  | nil => cases h
  | cons len input =>
    rw [takeLpStr] at h
    split at h
    · cases h
    · rename_i hlen
      have hlen := not_lt.mp hlen
      split at h
      · rename_i hutf
        cases h
        have htake : (input ++ more).take len.toNat = input.take len.toNat :=
          List.take_append_of_le_length hlen
        rw [List.cons_append, takeLpStr, if_neg (by rw [List.length_append]; omega),
          dif_pos (by rw [htake]; exact hutf)]
        exact congrArg Except.ok (Prod.ext (List.drop_append_of_le_length hlen)
          (Str.bytes_injective htake))
      · cases h

theorem parseLabels_append {n : Nat} {bs rest : List UInt8} {map map' : OrdMap Str Str}
    (h : parseLabels n bs map = .ok (rest, map')) (more : List UInt8) :
    parseLabels n (bs ++ more) map = .ok (rest ++ more, map') := by
  induction n generalizing bs map with
  | zero =>
    cases h
    rfl
  | succ n ih =>
    rw [parseLabels] at h ⊢
    rcases hk : takeLpStr bs with e | ⟨rest₁, k⟩
    · rw [hk] at h
      cases h
    · rcases hv : takeLpStr rest₁ with e | ⟨rest₂, v⟩
      · simp only [hk, hv, bind, Except.bind] at h
        cases h
      · simp only [hk, hv, bind, Except.bind] at h
        simp only [takeLpStr_append hk more, takeLpStr_append hv more, bind, Except.bind]
        exact ih h

theorem parseLabelMap_append {fp : List Label → UInt64} {bs rest : List UInt8} {lm : LabelMap}
    (h : parseLabelMap fp bs = .ok (rest, lm)) (more : List UInt8) :
    parseLabelMap fp (bs ++ more) = .ok (rest ++ more, lm) := by
  cases bs with
  | nil => cases h
  | cons count input =>
    rw [parseLabelMap] at h
    rcases hl : parseLabels count.toNat input (.empty _) with e | ⟨rest₁, map⟩
    · rw [hl] at h
      cases h
    · rw [hl] at h
      cases h
      rw [List.cons_append, parseLabelMap, parseLabels_append hl more]
      rfl

/-- A part of a label map's bytes is an error: `nom` asks for more, and the
codec does not say so. -/
theorem decodeLabelMap_part (fp : List Label → UInt64) {lm : LabelMap}
    (hlen : lm.len ≤ maxLabelCount) (hfit : LabelsFit lm) {bs : List UInt8}
    (hpre : bs <+: labelBytes lm) (hne : bs ≠ labelBytes lm) :
    ∃ e, decodeLabelMap fp bs = .error e := by
  rw [decodeLabelMap]
  rcases hp : parseLabelMap fp bs with e | ⟨rest, lm'⟩
  · exact ⟨_, rfl⟩
  · obtain ⟨more, hmore⟩ := hpre
    have hall := parseLabelMap_labelBytes fp hlen hfit []
    rw [List.append_nil, ← hmore, parseLabelMap_append hp] at hall
    have hnil : rest ++ more = [] := congrArg Prod.fst (Except.ok.inj hall)
    rw [List.append_eq_nil_iff.mp hnil |>.2, List.append_nil] at hmore
    exact absurd hmore hne

end LG.Proof.Tsdb
