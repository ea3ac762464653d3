import Flocate.HistoryCodec
import Flocate.Lib.Fault
import Mathlib.Data.List.GetD

/-!
# Histories that are cut off

A decoder that has found a whole record finds it as well if there are more bytes behind it, so that
of a history that is cut off, just the events before the cut are found. The same decoders with every
read checked against the end of the buffer never fail.
-/

namespace Flocate

open Bytes

variable {p t rest : Str}

section Append

theorem getU32_append (h : 4 ≤ p.length) : getU32 (p ++ t) = getU32 p := by
  rw [getU32, List.take_append_of_le_length h, getU32]

theorem getU64_append (h : 8 ≤ p.length) : getU64 (p ++ t) = getU64 p := by
  rw [getU64, List.take_append_of_le_length h, getU64]

theorem getTime_append (h : 12 ≤ p.length) : getTime (p ++ t) = getTime p := by
  rw [getTime, List.drop_append_of_le_length (by omega), getU64_append (by omega),
    getU32_append (by rw [List.length_drop]; omega), getTime]

theorem head?_append (h : p ≠ []) : (p ++ t).head? = p.head? := by
  obtain ⟨b, bs, rfl⟩ := List.exists_cons_of_ne_nil h
  rfl

/-- Where a record has a size, there are that many bytes. -/
theorem metadataRecordSize_le (p : Str) : metadataRecordSize p ≤ p.length := by
  rw [metadataRecordSize]
  split
  · exact Nat.zero_le _
  · rename_i hne
    split
    · exact List.length_pos_iff.mpr hne
    · dsimp only
      split
      · exact Nat.zero_le _
      · split
        · assumption
        · exact Nat.zero_le _

theorem metadataRecordSize_of_head?_ne (h : p.head? ≠ some 0) (hsize : metadataRecordSize p ≠ 0) :
    metadataRecordSize p = 59 + (p.getD 58 0).toNat := by
  have hfixed : 1 + metadataRecordFixedBytes + 2 = 59 := rfl
  rw [metadataRecordSize] at hsize ⊢
  simp only [hfixed, Nat.add_one_sub_one, if_neg h] at hsize ⊢
  split at hsize
  · exact absurd rfl hsize
  · rename_i hne
    rw [if_neg hne]
    split at hsize
    · exact absurd rfl hsize
    · rename_i hlong
      rw [if_neg hlong]
      split at hsize
      · exact if_pos ‹_›
      · exact absurd rfl hsize

theorem metadataRecordSize_append (h : metadataRecordSize p ≠ 0) :
    metadataRecordSize (p ++ t) = metadataRecordSize p := by
  have hfixed : 1 + metadataRecordFixedBytes + 2 = 59 := rfl
  have hne : p ≠ [] := fun hp => h (by rw [hp, metadataRecordSize, if_pos rfl])
  have hle := metadataRecordSize_le p
  by_cases hzero : p.head? = some 0
  · rw [metadataRecordSize, metadataRecordSize, if_neg hne,
      if_neg (List.append_ne_nil_of_left_ne_nil hne t), head?_append hne, if_pos hzero,
      if_pos hzero]
  · have hsize := metadataRecordSize_of_head?_ne hzero h
    rw [hsize] at hle ⊢
    have hbyte : (p ++ t).getD 58 0 = p.getD 58 0 := List.getD_append _ _ _ _ (by omega)
    have hlength : (p ++ t).length = p.length + t.length := List.length_append
    rw [metadataRecordSize]
    simp only [hfixed, Nat.add_one_sub_one, hbyte]
    rw [if_neg (List.append_ne_nil_of_left_ne_nil hne t), head?_append hne, if_neg hzero,
      if_neg (by omega), if_pos (by omega)]

/-- A record that is there is found in front of more bytes as well. -/
theorem decodeMetadataRecord_append {m : FileMetadata}
    (h : decodeMetadataRecord p = some (m, rest)) :
    decodeMetadataRecord (p ++ t) = some (m, rest ++ t) := by
  unfold decodeMetadataRecord at h
  dsimp only at h
  split at h
  · cases h
  · rename_i hsize
    have hne : p ≠ [] := fun hp => hsize (by rw [hp, metadataRecordSize, if_pos rfl])
    have hle := metadataRecordSize_le p
    have hdrop : (p ++ t).drop 1 = p.drop 1 ++ t :=
      List.drop_append_of_le_length (List.length_pos_iff.mpr hne)
    unfold decodeMetadataRecord
    dsimp only
    rw [metadataRecordSize_append hsize, if_neg hsize, head?_append hne, hdrop]
    split at h
    · rename_i hzero
      obtain ⟨rfl, rfl⟩ := Prod.mk.inj (Option.some.inj h)
      rw [if_pos hzero]
    · rename_i hzero
      have hexact := metadataRecordSize_of_head?_ne hzero hsize
      obtain ⟨rfl, rfl⟩ := Prod.mk.inj (Option.some.inj h)
      rw [if_neg hzero, List.drop_append_of_le_length hle]
      have hlength : (p.drop 1).length = p.length - 1 := List.length_drop
      have hbyte : (p.drop 1).getD 57 0 = p.getD 58 0 := by
        rw [List.getD_eq_getElem?_getD, List.getElem?_drop, List.getD_eq_getElem?_getD]
      have hdrop' {n : ℕ} (hn : n ≤ 58) : (p.drop 1 ++ t).drop n = (p.drop 1).drop n ++ t :=
        List.drop_append_of_le_length (by omega)
      have hlong {n : ℕ} : ((p.drop 1).drop n).length = p.length - 1 - n := by
        rw [List.length_drop, hlength]
      have hu32 {n : ℕ} (hn : n ≤ 8) :
          getU32 ((p.drop 1 ++ t).drop n) = getU32 ((p.drop 1).drop n) := by
        rw [hdrop' (by omega), getU32_append (by rw [hlong]; omega)]
      have hu64 : getU64 ((p.drop 1 ++ t).drop 12) = getU64 ((p.drop 1).drop 12) := by
        rw [hdrop' (by omega), getU64_append (by rw [hlong]; omega)]
      have htime {n : ℕ} (hn : n ≤ 44) :
          getTime ((p.drop 1 ++ t).drop n) = getTime ((p.drop 1).drop n) := by
        rw [hdrop' (by omega), getTime_append (by rw [hlong]; omega)]
      have hget {n : ℕ} (hn : n ≤ 57) : (p.drop 1 ++ t).getD n 0 = (p.drop 1).getD n 0 :=
        List.getD_append _ _ _ _ (by omega)
      have hmode : getU32 (p.drop 1 ++ t) = getU32 (p.drop 1) := hu32 (Nat.zero_le 8)
      have hvalue (i : Fin 32) :
          (if i < min ((p.drop 1).getD 57 0).toNat 32 then
            ((p.drop 1 ++ t).drop 58).getD i 0 else 0) =
          if i < min ((p.drop 1).getD 57 0).toNat 32 then ((p.drop 1).drop 58).getD i 0 else 0 := by
        split
        · rename_i hi
          rw [hdrop' (Nat.le_refl 58), List.getD_append]
          rw [hlong]
          rw [hbyte] at hi
          omega
        · rfl
      rw [hmode, hu32 (by omega), hu32 (by omega), hu64, htime (by omega), htime (by omega),
        htime (by omega), hget (by omega), hget (by omega)]
      simp only [hvalue]

theorem decodeHistoryEvent_append {event : HistoryEvent}
    (h : decodeHistoryEvent p = some (event, rest)) :
    decodeHistoryEvent (p ++ t) = some (event, rest ++ t) := by
  have hheader : eventHeaderBytes = 17 := rfl
  unfold decodeHistoryEvent at h
  obtain ⟨hlong, h⟩ := Option.ite_none_left_eq_some.mp h
  obtain ⟨hpath, h⟩ := Option.ite_none_left_eq_some.mp h
  obtain ⟨⟨oldMetadata, q⟩, hq, h⟩ := Option.bind_eq_some_iff.mp h
  obtain ⟨⟨newMetadata, q'⟩, hq', h⟩ := Option.bind_eq_some_iff.mp h
  obtain ⟨rfl, rfl⟩ := Prod.mk.inj (Option.some.inj h)
  rw [List.length_drop] at hpath
  have hdrop {n : ℕ} (hn : n ≤ 17) : (p ++ t).drop n = p.drop n ++ t :=
    List.drop_append_of_le_length (by omega)
  have hpathLen : getU32 ((p ++ t).drop 13) = getU32 (p.drop 13) := by
    rw [hdrop (by omega), getU32_append (by rw [List.length_drop]; omega)]
  have htime : getTime ((p ++ t).drop 1) = getTime (p.drop 1) := by
    rw [hdrop (by omega), getTime_append (by rw [List.length_drop]; omega)]
  have hkind : (p ++ t).headD 0 = p.headD 0 := by
    rw [List.headD_eq_head?_getD, head?_append (List.ne_nil_of_length_pos (by omega)),
      List.headD_eq_head?_getD]
  have hle : (getU32 (p.drop 13)).toNat ≤ (p.drop eventHeaderBytes).length := by
    rw [List.length_drop]
    omega
  unfold decodeHistoryEvent
  rw [if_neg (by rw [List.length_append]; omega)]
  simp only [hpathLen, hdrop hheader.le, htime, hkind]
  rw [if_neg (by rw [List.length_append]; omega), List.drop_append_of_le_length hle,
    List.take_append_of_le_length hle]
  simp only [Option.bind_eq_bind, decodeMetadataRecord_append hq, Option.bind_some,
    decodeMetadataRecord_append hq']

end Append

section Truncation

variable {events : List HistoryEvent} {event : HistoryEvent}

/-- A part of an event is not taken for one. -/
theorem decodeHistoryEvent_prefix_of_eq (h : event.Storable) (hp : p <+: encodeHistoryEvent event)
    (hlt : p.length < (encodeHistoryEvent event).length) : decodeHistoryEvent p = none := by
  rw [Option.eq_none_iff_forall_not_mem]
  rintro ⟨event', rest⟩ hdecode
  obtain ⟨t, ht⟩ := hp
  have hwhole := decodeHistoryEvent_encode h []
  rw [List.append_nil, ← ht, decodeHistoryEvent_append hdecode] at hwhole
  have hnil := (Prod.mk.inj (Option.some.inj hwhole)).2
  rw [← ht, (List.append_eq_nil_iff.mp hnil).2, List.append_nil] at hlt
  exact Nat.lt_irrefl _ hlt

theorem decodeHistoryEvents_of_some (h : decodeHistoryEvent p = some (event, rest)) :
    decodeHistoryEvents p = event :: decodeHistoryEvents rest := by
  rw [decodeHistoryEvents]
  split
  · rename_i hnone
    rw [h] at hnone
    cases hnone
  · rename_i event' rest' hsome
    rw [h] at hsome
    obtain ⟨rfl, rfl⟩ := Prod.mk.inj (Option.some.inj hsome)
    rfl

theorem decodeHistoryEvents_of_none (h : decodeHistoryEvent p = none) :
    decodeHistoryEvents p = [] := by
  rw [decodeHistoryEvents]
  split
  · rfl
  · rename_i hsome
    rw [h] at hsome
    cases hsome

theorem encodeHistoryStream_cons (event : HistoryEvent) (events : List HistoryEvent) :
    encodeHistoryStream (event :: events) =
      encodeHistoryEvent event ++ encodeHistoryStream events :=
  List.flatMap_cons

/-- Of the first `n` bytes, the events whose encodings are among them are found. -/
theorem decodeHistoryEvents_take (h : ∀ event ∈ events, event.Storable) (n : ℕ) :
    ∃ k ≤ events.length, (encodeHistoryStream (events.take k)).length ≤ n ∧
      (∀ j ≤ events.length, (encodeHistoryStream (events.take j)).length ≤ n → j ≤ k) ∧
      decodeHistoryEvents ((encodeHistoryStream events).take n) =
        (events.take k).map HistoryEvent.canonical := by
  induction events generalizing n with
  | nil =>
      refine ⟨0, Nat.le_refl 0, Nat.zero_le n, fun j hj _ => hj, ?_⟩
      rw [encodeHistoryStream, List.flatMap_nil, List.take_nil]
      exact decodeHistoryEvents_of_none rfl
  | cons event events ih =>
      rw [List.forall_mem_cons] at h
      by_cases hle : (encodeHistoryEvent event).length ≤ n
      · obtain ⟨k, hk, hlength, hmax, hdecode⟩ := ih h.2 (n - (encodeHistoryEvent event).length)
        refine ⟨k + 1, Nat.succ_le_succ hk, ?_, fun j hj hjn => ?_, ?_⟩
        · rw [List.take_succ_cons, encodeHistoryStream_cons, List.length_append]
          omega
        · cases j with
          | zero => exact Nat.zero_le _
          | succ j =>
              rw [List.take_succ_cons, encodeHistoryStream_cons, List.length_append] at hjn
              exact Nat.succ_le_succ (hmax j (Nat.le_of_succ_le_succ hj) (by omega))
        · rw [encodeHistoryStream_cons, List.take_append, List.take_of_length_le hle,
            decodeHistoryEvents_of_some (decodeHistoryEvent_encode h.1 _), hdecode,
            List.take_succ_cons, List.map_cons]
      · refine ⟨0, Nat.zero_le _, Nat.zero_le n, fun j hj hjn => ?_, ?_⟩
        · cases j with
          | zero => exact Nat.le_refl 0
          | succ j =>
              rw [List.take_succ_cons, encodeHistoryStream_cons, List.length_append] at hjn
              omega
        · rw [encodeHistoryStream_cons, List.take_append_of_le_length (by omega), List.take_zero]
          refine decodeHistoryEvents_of_none
            (decodeHistoryEvent_prefix_of_eq h.1 (List.take_prefix _ _) ?_)
          rw [List.length_take]
          omega

/-- A history that starts with a marker needs no other one, wherever it is cut off. -/
theorem decodeHistoryStream_of_marker {marker : HistoryEvent} {k : ℕ}
    (hmarker : marker.kind = .runMarker)
    (h : decodeHistoryEvents p = ((marker :: events).take k).map HistoryEvent.canonical) :
    decodeHistoryStream p = ((marker :: events).take k).map HistoryEvent.canonical := by
  rw [decodeHistoryStream, h]
  cases k with
  | zero => rfl
  | succ k => exact if_neg (not_not_intro hmarker)

end Truncation

section Bounds

def byteAt (p : Str) (i : ℕ) : Except Fault UInt8 :=
  if i < p.length then .ok (p.getD i 0) else .error .outOfBounds

def bytesAt (p : Str) (i n : ℕ) : Except Fault Str :=
  if i + n ≤ p.length then .ok ((p.drop i).take n) else .error .outOfBounds

def metadataRecordSizeChecked (p : Str) : Except Fault ℕ :=
  if p = [] then .ok 0
  else do
    if (← byteAt p 0) = 0 then .ok 1
    else
      let upToHashLen := 1 + metadataRecordFixedBytes + 2
      if p.length < upToHashLen then .ok 0
      else
        let total := upToHashLen + (← byteAt p (upToHashLen - 1)).toNat
        .ok (if total ≤ p.length then total else 0)

def decodeMetadataRecordChecked (p : Str) : Except Fault (Option (FileMetadata × Str)) := do
  let size ← metadataRecordSizeChecked p
  if size = 0 then .ok none
  else if (← byteAt p 0) = 0 then .ok (some ({}, p.drop 1))
  else
    let mode ← bytesAt p 1 4
    let uid ← bytesAt p 5 4
    let gid ← bytesAt p 9 4
    let fileSize ← bytesAt p 13 8
    let mtime ← bytesAt p 21 12
    let ctime ← bytesAt p 33 12
    let atime ← bytesAt p 45 12
    let kind ← byteAt p 57
    let hashLen ← byteAt p 58
    let value ← bytesAt p 59 (min hashLen.toNat 32)
    .ok (some ({
      enabled := true
      mode := getU32 mode
      uid := getU32 uid
      gid := getU32 gid
      size := getU64 fileSize
      mtime := getTime mtime
      ctime := getTime ctime
      atime := getTime atime
      hash := {
        kind := .ofByte kind
        value := Vector.ofFn fun i => value.getD i 0
        length := min hashLen.toNat 32 } }, p.drop size))

def decodeHistoryEventChecked (p : Str) : Except Fault (Option (HistoryEvent × Str)) :=
  if p.length < eventHeaderBytes then .ok none
  else do
    let kind ← byteAt p 0
    let eventTime ← bytesAt p 1 12
    let pathLen := (getU32 (← bytesAt p 13 4)).toNat
    let rest := p.drop eventHeaderBytes
    if rest.length < pathLen then .ok none
    else
      let path ← bytesAt rest 0 pathLen
      match ← decodeMetadataRecordChecked (rest.drop pathLen) with
      | none => .ok none
      | some (oldMetadata, q) =>
          match ← decodeMetadataRecordChecked q with
          | none => .ok none
          | some (newMetadata, q) =>
              .ok (some ({
                kind := .ofByte kind
                eventTime := getTime eventTime
                path := path
                oldMetadata := oldMetadata
                newMetadata := newMetadata }, q))

theorem byteAt_of_lt {i : ℕ} (h : i < p.length) : byteAt p i = .ok (p.getD i 0) := if_pos h

theorem bytesAt_of_le {i n : ℕ} (h : i + n ≤ p.length) : bytesAt p i n = .ok ((p.drop i).take n) :=
  if_pos h

theorem getD_zero_eq_zero_iff (h : p ≠ []) : p.getD 0 0 = 0 ↔ p.head? = some 0 := by
  obtain ⟨b, bs, rfl⟩ := List.exists_cons_of_ne_nil h
  exact Option.some_inj.symm

theorem metadataRecordSizeChecked_eq (p : Str) :
    metadataRecordSizeChecked p = .ok (metadataRecordSize p) := by
  unfold metadataRecordSizeChecked metadataRecordSize
  by_cases hne : p = []
  · rw [if_pos hne, if_pos hne]
  · rw [if_neg hne, if_neg hne, byteAt_of_lt (List.length_pos_iff.mpr hne)]
    simp only [bind, Except.bind, getD_zero_eq_zero_iff hne]
    split
    · rfl
    · split
      · rfl
      · rename_i hlong
        have hfixed : 1 + metadataRecordFixedBytes + 2 = 59 := rfl
        rw [byteAt_of_lt (by omega)]

theorem take_getU32 (p : Str) : getU32 (p.take 4) = getU32 p := by
  rw [getU32, List.take_take, Nat.min_self, getU32]

theorem take_getU64 (p : Str) : getU64 (p.take 8) = getU64 p := by
  rw [getU64, List.take_take, Nat.min_self, getU64]

theorem take_getTime (p : Str) : getTime (p.take 12) = getTime p := by
  rw [getTime, getTime, List.drop_take, take_getU32, getU64, List.take_take, getU64]
  rfl

/-- No read of the decoder is behind the end. -/
theorem decodeMetadataRecordChecked_eq (p : Str) :
    decodeMetadataRecordChecked p = .ok (decodeMetadataRecord p) := by
  unfold decodeMetadataRecordChecked decodeMetadataRecord
  rw [metadataRecordSizeChecked_eq]
  simp only [bind, Except.bind]
  split
  · rfl
  · rename_i hsize
    have hne : p ≠ [] := fun hp => hsize (by rw [hp, metadataRecordSize, if_pos rfl])
    have hle := metadataRecordSize_le p
    rw [byteAt_of_lt (List.length_pos_iff.mpr hne)]
    simp only [getD_zero_eq_zero_iff hne]
    split
    · rfl
    · rename_i hzero
      have hexact := metadataRecordSize_of_head?_ne hzero hsize
      have hhash : 59 + (p.getD 58 0).toNat ≤ p.length := hexact ▸ hle
      have hread {i n : ℕ} (h : i + n ≤ 57) : bytesAt p i n = .ok ((p.drop i).take n) :=
        bytesAt_of_le (by omega)
      have hget (i : ℕ) : (p.drop 1).getD i 0 = p.getD (1 + i) 0 := by
        rw [List.getD_eq_getElem?_getD, List.getElem?_drop, List.getD_eq_getElem?_getD]
      have hvalue (i : Fin 32) :
          ((p.drop 59).take (min (p.getD 58 0).toNat 32)).getD i 0 =
            if i < min (p.getD 58 0).toNat 32 then (p.drop 59).getD i 0 else 0 := by
        rw [List.getD_eq_getElem?_getD, List.getElem?_take]
        split
        · rw [List.getD_eq_getElem?_getD]
        · rfl
      simp (disch := omega) only [hread, byteAt_of_lt, take_getU32, take_getU64, take_getTime, hget,
        List.drop_drop]
      rw [bytesAt_of_le (by omega)]
      simp only [hvalue]

theorem decodeHistoryEventChecked_eq (p : Str) :
    decodeHistoryEventChecked p = .ok (decodeHistoryEvent p) := by
  have hheader : eventHeaderBytes = 17 := rfl
  unfold decodeHistoryEventChecked decodeHistoryEvent
  split
  · rfl
  · rename_i hlong
    have hread {i n : ℕ} (h : i + n ≤ 17) : bytesAt p i n = .ok ((p.drop i).take n) :=
      bytesAt_of_le (by omega)
    have hkind : p.getD 0 0 = p.headD 0 := by
      obtain ⟨b, bs, rfl⟩ := List.exists_cons_of_ne_nil
        (List.ne_nil_of_length_pos (l := p) (by omega))
      rfl
    rw [byteAt_of_lt (by omega), hread (by omega), hread (by omega)]
    simp only [bind, Except.bind, take_getU32, take_getTime, hkind]
    split
    · rfl
    · rename_i hpath
      rw [bytesAt_of_le (by omega)]
      simp only [decodeMetadataRecordChecked_eq, List.drop_zero, Option.bind]
      cases decodeMetadataRecord ((p.drop eventHeaderBytes).drop (getU32 (p.drop 13)).toNat) with
      | none => rfl
      | some old =>
          dsimp only
          cases decodeMetadataRecord old.2 <;> rfl

def decodeHistoryEventsChecked (p : Str) : Except Fault (List HistoryEvent) :=
  match _h : decodeHistoryEventChecked p with
  | .error e => .error e
  | .ok none => .ok []
  | .ok (some (event, rest)) => (decodeHistoryEventsChecked rest).map (event :: ·)
termination_by p.length
decreasing_by
  rw [decodeHistoryEventChecked_eq] at _h
  exact decodeHistoryEvent_length (Except.ok.inj _h)

def decodeHistoryStreamChecked (data : Str) : Except Fault (List HistoryEvent) := do
  match ← decodeHistoryEventsChecked data with
  | [] => .ok []
  | event :: events =>
      if event.kind ≠ .runMarker then
        .ok ({ kind := .runMarker, eventTime := event.eventTime } :: event :: events)
      else .ok (event :: events)

theorem decodeHistoryEventsChecked_eq (p : Str) :
    decodeHistoryEventsChecked p = .ok (decodeHistoryEvents p) := by
  induction hn : p.length using Nat.strong_induction_on generalizing p with
  | h n ih =>
      rw [decodeHistoryEventsChecked]
      split
      · rename_i e h
        rw [decodeHistoryEventChecked_eq] at h
        cases h
      · rename_i h
        rw [decodeHistoryEventChecked_eq] at h
        rw [decodeHistoryEvents_of_none (Except.ok.inj h)]
      · rename_i event rest h
        rw [decodeHistoryEventChecked_eq] at h
        have hevent := Except.ok.inj h
        rw [ih rest.length (hn ▸ decodeHistoryEvent_length hevent) rest rfl,
          decodeHistoryEvents_of_some hevent]
        rfl

theorem decodeHistoryStreamChecked_eq (data : Str) :
    decodeHistoryStreamChecked data = .ok (decodeHistoryStream data) := by
  rw [decodeHistoryStreamChecked, decodeHistoryEventsChecked_eq, decodeHistoryStream]
  cases decodeHistoryEvents data with
  | nil => rfl
  | cons event events =>
      simp only [bind, Except.bind]
      split <;> rfl

end Bounds

section Stream

/-- A history is read back, a cut costs only the events that it goes through or that are behind it,
and no bytes make the decoder read behind the end. -/
theorem historyStream_roundTrip (marker : HistoryEvent) (events : List HistoryEvent)
    (hmarker : marker.kind = .runMarker) (h : ∀ event ∈ marker :: events, event.Storable) :
    decodeHistoryStream (encodeHistoryStream (marker :: events)) =
        (marker :: events).map HistoryEvent.canonical ∧
      (∀ n, ∃ k ≤ (marker :: events).length,
        (encodeHistoryStream ((marker :: events).take k)).length ≤ n ∧
        (∀ j ≤ (marker :: events).length,
          (encodeHistoryStream ((marker :: events).take j)).length ≤ n → j ≤ k) ∧
        decodeHistoryStream ((encodeHistoryStream (marker :: events)).take n) =
          ((marker :: events).take k).map HistoryEvent.canonical) ∧
      ∀ data, decodeHistoryStreamChecked data = .ok (decodeHistoryStream data) := by
  have hcut (n : ℕ) := decodeHistoryEvents_take h n
  refine ⟨?_, fun n => ?_, decodeHistoryStreamChecked_eq⟩
  · obtain ⟨k, hk, -, hmax, hdecode⟩ := hcut (encodeHistoryStream (marker :: events)).length
    have hall : (marker :: events).length ≤ k := hmax _ (Nat.le_refl _) (by rw [List.take_length])
    rw [List.take_length] at hdecode
    rw [decodeHistoryStream_of_marker hmarker hdecode, List.take_of_length_le hall]
  · obtain ⟨k, hk, hlength, hmax, hdecode⟩ := hcut n
    exact ⟨k, hk, hlength, hmax, decodeHistoryStream_of_marker hmarker hdecode⟩

/-- A marker and an addition with a digest of 8 bytes. -/
def digestEvent : HistoryEvent where
  kind := .added
  path := ascii "/a"
  newMetadata := { enabled := true, hash := .ofDigest .xxHash64 [1, 2, 3, 4, 5, 6, 7, 8] }

theorem historyStream_roundTrip_digestEvent :
    decodeHistoryStream (encodeHistoryStream [{ kind := .runMarker }, digestEvent]) =
      [{ kind := .runMarker }, digestEvent].map HistoryEvent.canonical := by
  refine (historyStream_roundTrip { kind := .runMarker } [digestEvent] rfl ?_).1
  rw [List.forall_mem_cons, List.forall_mem_singleton]
  exact ⟨⟨by decide, by decide, by decide⟩, ⟨by decide, by decide, by decide⟩⟩

end Stream

end Flocate
