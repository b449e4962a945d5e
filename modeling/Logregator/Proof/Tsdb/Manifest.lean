import Logregator.Proof.Tsdb.Framed
import Logregator.Proof.Tsdb.Label

/-!
# The manifest codec: what it writes, what it reads back

The bytes of an entry (`entryBytes`) are its tag and data. Encoding an entry
writes them (`encodeManifestEntry_ok`). Decoding reads every id of a compaction
where the first one stands (`readBack`), so that it gives back the entry only
if the ids are all the same (`manifest_round_trip_iff`). Of an entry's bytes that are
not all there, it only takes the empty ones as a reason to ask for more
(`decodeManifestEntry_part`).
-/

namespace LG.Proof.Tsdb

open LG.Impl.Tsdb LG.Spec.Tsdb

/-! ## Entries and their bytes -/

/-- An entry that one of the constructors built, with a label map that has the
fingerprint of its labels. -/
inductive Built (fp : List Label → UInt64) : ManifestEntry → Prop
  | sstFlush (id : UInt64) : Built fp (.sstFlush id)
  | compaction {ids : List UInt64} {me : ManifestEntry} (h : ManifestEntry.compaction? ids = some me) :
    Built fp me
  | streamUpdate {id : UInt64} {map : OrdMap Str Str} {me : ManifestEntry}
    (h : ManifestEntry.streamUpdate? id (LabelMap.new fp map) = some me) : Built fp me

/-- What the constructors check. -/
def Fits (fp : List Label → UInt64) : ManifestEntry → Prop
  | .memtableFlush _ => True
  | .compaction ids => ids.length ≤ 2 ^ 32 - 1
  | .streamUpdate _ lm => lm = LabelMap.new fp lm.inner ∧ lm.len ≤ maxLabelCount ∧ LabelsFit lm

theorem streamUpdate?_eq_some {id : UInt64} {lm : LabelMap} {me : ManifestEntry}
    (h : ManifestEntry.streamUpdate? id lm = some me) :
    me = .streamUpdate id lm ∧ lm.len ≤ maxLabelCount ∧ LabelsFit lm := by
  have hsome : (ManifestEntry.streamUpdate? id lm).isSome := by
    rw [h]
    rfl
  unfold ManifestEntry.streamUpdate? at h
  split at h
  · cases h
  · rename_i hlen
    have hlen := not_lt.mp hlen
    split at h
    · cases h
      exact ⟨rfl, hlen, (streamUpdate_isSome_iff hlen id).mp hsome⟩
    · cases h

theorem Built.fits {fp : List Label → UInt64} {me : ManifestEntry} (h : Built fp me) :
    Fits fp me := by
  cases h with
  | sstFlush => trivial
  | compaction h =>
    unfold ManifestEntry.compaction? at h
    split at h
    · cases h
    · rename_i hlen
      cases h
      exact not_lt.mp hlen
  | streamUpdate h =>
    obtain ⟨rfl, hlen, hfit⟩ := streamUpdate?_eq_some h
    exact ⟨rfl, hlen, hfit⟩

/-- The ids of a compaction, one after the other. -/
def idBytes (ids : List UInt64) : List UInt8 := ids.flatMap fun id => beBytes 8 id.toNat

/-- The bytes of an entry. -/
def entryBytes : ManifestEntry → List UInt8
  | .memtableFlush id => 1 :: beBytes 8 id.toNat
  | .compaction ids => 2 :: (beBytes 4 ids.length ++ idBytes ids)
  | .streamUpdate id lm => 3 :: (beBytes 8 id.toNat ++ labelBytes lm)

theorem length_idBytes (ids : List UInt64) : (idBytes ids).length = ids.length * szU64 := by
  simp [idBytes, szU64, List.length_flatMap]

theorem length_entryBytes (me : ManifestEntry) : (entryBytes me).length = me.wireLen := by
  cases me with
  | memtableFlush id => simp [entryBytes, ManifestEntry.wireLen, szU64]
  | compaction ids =>
    simp only [entryBytes, ManifestEntry.wireLen, List.length_cons, List.length_append,
      length_beBytes, length_idBytes, szU32]
    omega
  | streamUpdate id lm =>
    simp only [entryBytes, ManifestEntry.wireLen, List.length_cons, List.length_append,
      length_beBytes, length_labelBytes, szU64]
    omega

/-! ## Encoding -/

theorem putIds_append (ids : List UInt64) (as bs : List UInt8) {n : Nat} (h : as.length = n) :
    putIds ids (as ++ bs) n =
      (as ++ (idBytes ids ++ bs.drop (idBytes ids).length), n + (idBytes ids).length) := by
  induction ids generalizing as bs n with
  | nil => simp [putIds, idBytes]
  | cons id ids ih =>
    rw [putIds, splice_append _ _ _ h, ← List.append_assoc, ih _ _ (by simp [h, szU64])]
    simp [idBytes, szU64, List.drop_drop, Nat.add_assoc]

/-- Data copied behind the tag. -/
theorem splice_tag (tag : UInt8) (bs src : List UInt8) :
    splice ([tag] ++ bs) 1 src = [tag] ++ src ++ bs.drop src.length := by
  rw [List.append_assoc]
  exact splice_append [tag] bs src rfl

/-- The entries that the codec encodes: of a label map it checks the number of
labels and their lengths. -/
def Accepted : ManifestEntry → Prop
  | .streamUpdate _ lm => lm.len ≤ maxLabelCount ∧ LabelsFit lm
  | _ => True

instance decidableAccepted : (me : ManifestEntry) → Decidable (Accepted me)
  | .memtableFlush _ => .isTrue trivial
  | .compaction _ => .isTrue trivial
  | .streamUpdate _ lm => inferInstanceAs (Decidable (lm.len ≤ maxLabelCount ∧ ∀ l ∈ lm.iter, _))

theorem Fits.accepted {fp : List Label → UInt64} {me : ManifestEntry} (h : Fits fp me) :
    Accepted me := by
  cases me with
  | memtableFlush id => trivial
  | compaction ids => trivial
  | streamUpdate id lm => exact h.2

/-- An entry, encoded into a buffer that is long enough. -/
theorem encodeManifestEntry_ok {me : ManifestEntry} (hme : Accepted me)
    {dst : List UInt8} (h : me.wireLen ≤ dst.length) :
    encodeManifestEntry me dst = (.ok me.wireLen, entryBytes me ++ dst.drop me.wireLen) := by
  have htag : splice dst 0 [me.tag] = [me.tag] ++ dst.drop 1 := by simp [splice]
  rw [encodeManifestEntry, if_neg (not_lt.mpr h), htag]
  cases me with
  | memtableFlush id =>
    simp only
    rw [splice_tag]
    simp [entryBytes, ManifestEntry.wireLen, ManifestEntry.tag, szU64]
  | compaction ids =>
    have hn : 1 + szU32 + (idBytes ids).length = ManifestEntry.wireLen (.compaction ids) := by
      rw [length_idBytes]
      rfl
    simp only
    rw [splice_tag, putIds_append _ _ _ (by simp [szU32])]
    simp only
    rw [if_neg (not_not.mpr hn)]
    simp [entryBytes, ManifestEntry.wireLen, ManifestEntry.tag, szU32, length_idBytes]
  | streamUpdate id lm =>
    obtain ⟨hlen, hfit⟩ := hme
    have h : 9 + lm.wireLen ≤ dst.length := h
    simp only
    -- The label map is encoded into the part of the buffer that is its own.
    have hpart : (([ManifestEntry.tag (.streamUpdate id lm)] ++ beBytes 8 id.toNat ++
        (dst.drop 1).drop (beBytes 8 id.toNat).length).drop (1 + szU64)).take lm.wireLen =
        (dst.drop 9).take lm.wireLen := by
      rw [List.drop_left' (by simp [szU64]), List.drop_drop, length_beBytes]
    have hpartLen : ((dst.drop 9).take lm.wireLen).length = lm.wireLen := by
      rw [List.length_take, List.length_drop]
      omega
    rw [splice_tag, hpart, encodeLabelMap_ok hlen hfit hpartLen.ge]
    simp only
    rw [if_neg (not_not.mpr rfl), List.drop_of_length_le hpartLen.le, List.append_nil,
      splice_append _ _ _ (by simp [szU64])]
    simp [entryBytes, ManifestEntry.wireLen, ManifestEntry.tag, szU64, length_labelBytes,
      List.drop_drop]

theorem encode_replicate {me : ManifestEntry} (hme : Accepted me) :
    encodeManifestEntry me (List.replicate me.wireLen 0) = (.ok me.wireLen, entryBytes me) := by
  rw [encodeManifestEntry_ok hme (by simp), List.drop_replicate]
  simp

/-- Any other entry is refused. -/
theorem encodeManifestEntry_refused {me : ManifestEntry} (hme : ¬ Accepted me)
    {dst : List UInt8} (h : me.wireLen ≤ dst.length) :
    ∃ e bs, encodeManifestEntry me dst = (.error e, bs) := by
  rw [encodeManifestEntry, if_neg (not_lt.mpr h)]
  cases me with
  | memtableFlush id => exact absurd trivial hme
  | compaction ids => exact absurd trivial hme
  | streamUpdate id lm =>
    simp only
    -- What the label map's codec returns decides.
    generalize hout : encodeLabelMap lm _ = out
    obtain ⟨_ | n, bs⟩ := out
    · exact ⟨_, _, rfl⟩
    · exact absurd (encodeLabelMap_eq_ok (congrArg Prod.fst hout)) hme

/-! ## Decoding -/

section

variable {fp : List Label → UInt64} {bs : List UInt8}

theorem decode_flush (h : 8 ≤ bs.length) :
    decodeManifestEntry fp (1 :: bs) = decodedEntry (.memtableFlush (u64At (1 :: bs) 1)) := by
  have hlen : ¬ (1 :: bs).length < manifestEntryTagSz + szU64 := by
    simp only [List.length_cons, manifestEntryTagSz, szU64]
    omega
  rw [decodeManifestEntry, if_pos rfl, if_neg hlen]

theorem decode_flush_short (h : bs.length < 8) :
    decodeManifestEntry fp (1 :: bs) = .error (.notEnoughBytes (bs.length + 1) 9) := by
  have hlen : (1 :: bs).length < manifestEntryTagSz + szU64 := by
    simp only [List.length_cons, manifestEntryTagSz, szU64]
    omega
  rw [decodeManifestEntry, if_pos rfl, if_pos hlen]
  rfl

/-- A compaction whose number of ids is there. -/
theorem decode_compaction {len : Nat} (h : 4 ≤ bs.length) (hlen : ofBe (bs.take 4) = len) :
    decodeManifestEntry fp (2 :: bs) =
      if bs.length < 4 + len * 8 then .error (.notEnoughBytes (bs.length + 1) (5 + len * 8))
      else decodedEntry (.compaction (List.replicate len (u64At (2 :: bs) 5))) := by
  subst hlen
  have hpos : ¬ (2 :: bs).length < manifestEntryTagSz + szU32 := by
    simp only [List.length_cons, manifestEntryTagSz, szU32]
    omega
  have hids (len : Nat) (id : UInt64) : (List.range len).map (fun _ => id) = List.replicate len id := by
    simp
  rw [decodeManifestEntry, if_neg (show ¬ (2 : UInt8) = 1 by decide), if_pos rfl, if_neg hpos]
  simp only [List.drop_one, List.tail_cons, List.length_cons, manifestEntryTagSz, szU32, szU64, hids]
  refine if_congr ?_ rfl rfl
  omega

theorem decode_compaction_short (h : bs.length < 4) :
    decodeManifestEntry fp (2 :: bs) = .error (.notEnoughBytes (bs.length + 1) 5) := by
  have hlen : (2 :: bs).length < manifestEntryTagSz + szU32 := by
    simp only [List.length_cons, manifestEntryTagSz, szU32]
    omega
  rw [decodeManifestEntry, if_neg (show ¬ (2 : UInt8) = 1 by decide), if_pos rfl, if_pos hlen]
  rfl

/-- A stream update whose stream id is there, as the label map is decoded. -/
theorem decode_update (h : 8 ≤ bs.length) {lm : LabelMap} {n : Nat}
    (hlm : decodeLabelMap fp (bs.drop 8) = .ok (some (lm, n))) :
    decodeManifestEntry fp (3 :: bs) = decodedEntry (.streamUpdate (u64At (3 :: bs) 1) lm) := by
  have hlen : ¬ (3 :: bs).length < manifestEntryTagSz + szU64 := by
    simp only [List.length_cons, manifestEntryTagSz, szU64]
    omega
  rw [decodeManifestEntry, if_neg (show ¬ (3 : UInt8) = 1 by decide),
    if_neg (show ¬ (3 : UInt8) = 2 by decide), if_pos rfl, if_neg hlen,
    show (3 :: bs).drop (manifestEntryTagSz + szU64) = bs.drop 8 from rfl, hlm]

theorem decode_update_refused (h : 8 ≤ bs.length) {e : CodecError}
    (hlm : decodeLabelMap fp (bs.drop 8) = .error e) :
    decodeManifestEntry fp (3 :: bs) = .error e := by
  have hlen : ¬ (3 :: bs).length < manifestEntryTagSz + szU64 := by
    simp only [List.length_cons, manifestEntryTagSz, szU64]
    omega
  rw [decodeManifestEntry, if_neg (show ¬ (3 : UInt8) = 1 by decide),
    if_neg (show ¬ (3 : UInt8) = 2 by decide), if_pos rfl, if_neg hlen,
    show (3 :: bs).drop (manifestEntryTagSz + szU64) = bs.drop 8 from rfl, hlm]

theorem decode_update_short (h : bs.length < 8) :
    decodeManifestEntry fp (3 :: bs) = .error (.notEnoughBytes (bs.length + 1) 9) := by
  have hlen : (3 :: bs).length < manifestEntryTagSz + szU64 := by
    simp only [List.length_cons, manifestEntryTagSz, szU64]
    omega
  rw [decodeManifestEntry, if_neg (show ¬ (3 : UInt8) = 1 by decide),
    if_neg (show ¬ (3 : UInt8) = 2 by decide), if_pos rfl, if_pos hlen]
  rfl

end

/-- The entry that decoding gives: all ids of a compaction are the first. -/
def readBack : ManifestEntry → ManifestEntry
  | .compaction (id :: ids) => .compaction (List.replicate (ids.length + 1) id)
  | me => me

theorem wireLen_readBack (me : ManifestEntry) : (readBack me).wireLen = me.wireLen := by
  rcases me with id | (_ | ⟨id, ids⟩) | ⟨id, lm⟩
  all_goals simp [readBack, ManifestEntry.wireLen]

/-- The number of ids, where it stands. -/
theorem idCount {ids : List UInt64} (h : ids.length ≤ 2 ^ 32 - 1) (rest : List UInt8) :
    ofBe ((beBytes 4 ids.length ++ rest).take 4) = ids.length := by
  rw [List.take_left' (length_beBytes 4 _)]
  exact ofBe_beBytes_of_lt (by norm_num; omega)

/-- Decoding an entry's bytes, whatever follows them. -/
theorem decodeManifestEntry_entryBytes {fp : List Label → UInt64} {me : ManifestEntry}
    (hme : Fits fp me) (rest : List UInt8) :
    decodeManifestEntry fp (entryBytes me ++ rest) = .ok (some (readBack me, me.wireLen)) := by
  cases me with
  | memtableFlush id =>
    rw [entryBytes, List.cons_append, decode_flush (by simp)]
    rw [show u64At (1 :: (beBytes 8 id.toNat ++ rest)) 1 = id from
      u64At_append [1] rest id rfl]
    rfl
  | compaction ids =>
    rw [entryBytes, List.cons_append, List.append_assoc,
      decode_compaction (by simp) (idCount hme _), if_neg (by simp [length_idBytes, szU64])]
    cases ids with
    | nil => rfl
    | cons id ids =>
      have hid : u64At (2 :: (beBytes 4 (id :: ids).length ++ (idBytes (id :: ids) ++ rest))) 5 = id := by
        rw [idBytes, List.flatMap_cons, List.append_assoc]
        exact u64At_append (2 :: beBytes 4 (id :: ids).length) _ id (by simp)
      rw [hid, ← wireLen_readBack (.compaction (id :: ids))]
      rfl
  | streamUpdate id lm =>
    obtain ⟨hfp, hlen, hfit⟩ := hme
    have hlabels : decodeLabelMap fp ((beBytes 8 id.toNat ++ (labelBytes lm ++ rest)).drop 8) =
        .ok (some (lm, lm.wireLen)) := by
      rw [List.drop_left' (length_beBytes 8 _), decodeLabelMap_labelBytes fp hlen hfit, ← hfp]
    rw [entryBytes, List.cons_append, List.append_assoc, decode_update (by simp) hlabels]
    rw [show u64At (3 :: (beBytes 8 id.toNat ++ (labelBytes lm ++ rest))) 1 = id from
      u64At_append [3] _ id rfl]
    rfl

/-- A part of an entry's bytes is an error. -/
theorem decodeManifestEntry_part {fp : List Label → UInt64} {me : ManifestEntry} (hme : Fits fp me)
    {bs : List UInt8} (hpre : bs <+: entryBytes me) (hne : bs ≠ entryBytes me) (hpos : bs ≠ []) :
    ∃ e, decodeManifestEntry fp bs = .error e := by
  cases bs with
  | nil => exact absurd rfl hpos
  | cons tag bs =>
    cases me with
    | memtableFlush id =>
      obtain ⟨rfl, hdata⟩ := List.cons_prefix_cons.mp hpre
      have hlt : bs.length < (beBytes 8 id.toNat).length :=
        lt_of_le_of_ne hdata.length_le fun he => hne (congrArg _ (hdata.eq_of_length he))
      rw [length_beBytes] at hlt
      exact ⟨_, decode_flush_short hlt⟩
    | compaction ids =>
      obtain ⟨rfl, hdata⟩ := List.cons_prefix_cons.mp hpre
      have hlt : bs.length < (beBytes 4 ids.length ++ idBytes ids).length :=
        lt_of_le_of_ne hdata.length_le fun he => hne (congrArg _ (hdata.eq_of_length he))
      rw [List.length_append, length_beBytes, length_idBytes, szU64] at hlt
      by_cases hcount : bs.length < 4
      · exact ⟨_, decode_compaction_short hcount⟩
      · -- The number of ids is there, and not all the ids.
        obtain ⟨rest, hrest⟩ : beBytes 4 ids.length <+: bs :=
          List.prefix_of_prefix_length_le (List.prefix_append _ _) hdata
            (by rw [length_beBytes]; omega)
        have hids : ofBe (bs.take 4) = ids.length := by rw [← hrest]; exact idCount hme rest
        rw [decode_compaction (not_lt.mp hcount) hids, if_pos hlt]
        exact ⟨_, rfl⟩
    | streamUpdate id lm =>
      obtain ⟨rfl, hdata⟩ := List.cons_prefix_cons.mp hpre
      obtain ⟨-, hlen, hfit⟩ := hme
      by_cases hid : bs.length < 8
      · exact ⟨_, decode_update_short hid⟩
      · obtain ⟨rest, rfl⟩ : beBytes 8 id.toNat <+: bs :=
          List.prefix_of_prefix_length_le (List.prefix_append _ _) hdata
            (by rw [length_beBytes]; omega)
        have hlabels : rest ≠ labelBytes lm := fun he => hne (by rw [he]; rfl)
        obtain ⟨e, he⟩ := decodeLabelMap_part fp hlen hfit
          ((List.prefix_append_right_inj _).mp hdata) hlabels
        refine ⟨e, decode_update_refused (not_lt.mp hid) ?_⟩
        rw [List.drop_left' (length_beBytes 8 _)]
        exact he

/-! ## The round trip -/

/-- No two ids of a compaction differ. -/
def OneId : ManifestEntry → Prop
  | .compaction ids => ∀ a ∈ ids, ∀ b ∈ ids, a = b
  | _ => True

theorem readBack_eq_iff (me : ManifestEntry) : readBack me = me ↔ OneId me := by
  rcases me with id | (_ | ⟨id, ids⟩) | ⟨id, lm⟩
  · exact iff_of_true rfl trivial
  · exact iff_of_true rfl (by simp [OneId])
  · rw [readBack, ManifestEntry.compaction.injEq, eq_comm, List.eq_replicate_iff, OneId]
    constructor
    · intro h a ha b hb
      rw [h.2 a ha, h.2 b hb]
    · intro h
      exact ⟨rfl, fun b hb => h b hb id List.mem_cons_self⟩
  · exact iff_of_true rfl trivial

/-- Encoding an entry into a buffer of its length and decoding what was
written gives it back exactly if no two ids of a compaction differ. -/
theorem manifest_round_trip_iff (fp : List Label → UInt64) {me : ManifestEntry} (hme : Built fp me)
    {dst : List UInt8} (hdst : dst.length = me.wireLen) (trailing : List UInt8) :
    ((encodeManifestEntry me dst).1 = .ok me.wireLen ∧
      decodeManifestEntry fp ((encodeManifestEntry me dst).2 ++ trailing) =
        .ok (some (me, me.wireLen))) ↔ OneId me := by
  rw [encodeManifestEntry_ok hme.fits.accepted hdst.ge, List.drop_of_length_le hdst.le,
    List.append_nil, decodeManifestEntry_entryBytes hme.fits, ← readBack_eq_iff]
  simp

/-- A stream with two labels, and a compaction of three tables. -/
theorem manifest_round_trip_iff_several :
    (((encodeManifestEntry (.streamUpdate 3 twoLabels) (List.replicate 22 9)).1 = .ok 22 ∧
      decodeManifestEntry (fun _ => 7)
        ((encodeManifestEntry (.streamUpdate 3 twoLabels) (List.replicate 22 9)).2 ++ [1, 2]) =
        .ok (some (.streamUpdate 3 twoLabels, 22))) ↔ OneId (.streamUpdate 3 twoLabels)) ∧
    (((encodeManifestEntry (.compaction [7, 7, 9]) (List.replicate 29 9)).1 = .ok 29 ∧
      decodeManifestEntry (fun _ => 7)
        ((encodeManifestEntry (.compaction [7, 7, 9]) (List.replicate 29 9)).2 ++ [1, 2]) =
        .ok (some (.compaction [7, 7, 9], 29))) ↔ OneId (.compaction [7, 7, 9])) :=
  ⟨manifest_round_trip_iff (fun _ => 7)
      (.streamUpdate (show ManifestEntry.streamUpdate? 3 twoLabels = some _ from rfl)) rfl [1, 2],
    manifest_round_trip_iff (fun _ => 7)
      (.compaction (show ManifestEntry.compaction? [7, 7, 9] = some _ from rfl)) rfl [1, 2]⟩

/-- A compaction of two tables is decoded as one of the first table, twice. -/
theorem manifest_repeats_first_id :
    ManifestEntry.compaction? [1, 2] = some (.compaction [1, 2]) ∧
      (encodeManifestEntry (.compaction [1, 2]) (List.replicate 21 0)).1 = .ok 21 ∧
      decodeManifestEntry (fun _ => 0)
        (encodeManifestEntry (.compaction [1, 2]) (List.replicate 21 0)).2 =
        .ok (some (.compaction [1, 1], 21)) :=
  ⟨rfl, rfl, rfl⟩

end LG.Proof.Tsdb
