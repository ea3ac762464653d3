import Flocate.MetadataCodec

/-!
# History events as bytes

`encode_history_stream` and `decode_history_stream`. What a run records is read back as it was.
-/

namespace Flocate

open Bytes

namespace HistoryEventKind

def toByte : HistoryEventKind → UInt8
  | added => 0
  | removed => 1
  | modified => 2
  | runMarker => 3
  | other v _ => v

def ofByte (v : UInt8) : HistoryEventKind :=
  if h : 3 < v then other v h
  else if v = 0 then added
  else if v = 1 then removed
  else if v = 2 then modified
  else runMarker

theorem ofByte_toByte (k : HistoryEventKind) : ofByte k.toByte = k := by
  cases k with
  | added => rfl
  | removed => rfl
  | modified => rfl
  | runMarker => rfl
  | other v h => simp [toByte, ofByte, h]

end HistoryEventKind

def encodeHistoryEvent (event : HistoryEvent) : Str :=
  [event.kind.toByte] ++ putTime event.eventTime ++ putU32 (UInt32.ofNat event.path.length) ++
    event.path ++ encodeMetadataRecord event.oldMetadata ++ encodeMetadataRecord event.newMetadata

def encodeHistoryStream (events : List HistoryEvent) : Str := events.flatMap encodeHistoryEvent

def eventHeaderBytes : ℕ := 1 + 8 + 4 + 4

/-- One round of the loop: the event at `p` and the bytes behind it, unless the stream ends. -/
def decodeHistoryEvent (p : Str) : Option (HistoryEvent × Str) :=
  if p.length < eventHeaderBytes then none
  else
    let pathLen := (getU32 (p.drop 13)).toNat
    let rest := p.drop eventHeaderBytes
    if rest.length < pathLen then none
    else do
      let (oldMetadata, q) ← decodeMetadataRecord (rest.drop pathLen)
      let (newMetadata, q) ← decodeMetadataRecord q
      some ({
        kind := .ofByte (p.headD 0)
        eventTime := getTime (p.drop 1)
        path := rest.take pathLen
        oldMetadata := oldMetadata
        newMetadata := newMetadata }, q)

theorem decodeMetadataRecord_suffix {p rest : Str} {m : FileMetadata}
    (h : decodeMetadataRecord p = some (m, rest)) : rest <:+ p := by
  unfold decodeMetadataRecord at h
  dsimp only at h
  split at h
  · cases h
  · split at h
    · cases h
      exact List.drop_suffix _ _
    · cases h
      exact List.drop_suffix _ _

theorem decodeHistoryEvent_length {p rest : Str} {event : HistoryEvent}
    (h : decodeHistoryEvent p = some (event, rest)) : rest.length < p.length := by
  unfold decodeHistoryEvent at h
  obtain ⟨hlong, h⟩ := Option.ite_none_left_eq_some.mp h
  obtain ⟨-, h⟩ := Option.ite_none_left_eq_some.mp h
  obtain ⟨⟨_, q⟩, hq, h⟩ := Option.bind_eq_some_iff.mp h
  obtain ⟨⟨_, q'⟩, hq', h⟩ := Option.bind_eq_some_iff.mp h
  cases h
  have hle := (decodeMetadataRecord_suffix hq').length_le
  have hle' := (decodeMetadataRecord_suffix hq).length_le
  rw [List.length_drop, List.length_drop] at hle'
  have hheader : eventHeaderBytes = 17 := rfl
  omega

def decodeHistoryEvents (p : Str) : List HistoryEvent :=
  match _h : decodeHistoryEvent p with
  | none => []
  | some (event, rest) => event :: decodeHistoryEvents rest
termination_by p.length
decreasing_by exact decodeHistoryEvent_length _h

def decodeHistoryStream (data : Str) : List HistoryEvent :=
  match decodeHistoryEvents data with
  | [] => []
  | event :: events =>
      if event.kind ≠ .runMarker then
        { kind := .runMarker, eventTime := event.eventTime } :: event :: events
      else event :: events

/-- What a run records: the path fits its length field, and nothing is in the hashes but digests. -/
structure HistoryEvent.Recordable (event : HistoryEvent) : Prop where
  path : event.path.length < 2 ^ 32
  oldHash : event.oldMetadata.hash.length ≤ 32
  newHash : event.newMetadata.hash.length ≤ 32
  oldMetadata : event.oldMetadata.canonical = event.oldMetadata
  newMetadata : event.newMetadata.canonical = event.newMetadata

structure HistoryEvent.Storable (event : HistoryEvent) : Prop where
  path : event.path.length < 2 ^ 32
  oldHash : event.oldMetadata.hash.length ≤ 32
  newHash : event.newMetadata.hash.length ≤ 32

def HistoryEvent.canonical (event : HistoryEvent) : HistoryEvent :=
  { event with
    oldMetadata := event.oldMetadata.canonical
    newMetadata := event.newMetadata.canonical }

theorem decodeHistoryEvent_encode {event : HistoryEvent} (h : event.Storable) (rest : Str) :
    decodeHistoryEvent (encodeHistoryEvent event ++ rest) = some (event.canonical, rest) := by
  have hlen : (UInt32.ofNat event.path.length).toNat = event.path.length := by
    rw [UInt32.toNat_ofNat']
    exact Nat.mod_eq_of_lt h.path
  let old := encodeMetadataRecord event.oldMetadata
  let new := encodeMetadataRecord event.newMetadata
  have hencode : encodeHistoryEvent event ++ rest = event.kind.toByte :: (putTime event.eventTime ++
      (putU32 (UInt32.ofNat event.path.length) ++ (event.path ++ (old ++ (new ++ rest))))) := by
    unfold encodeHistoryEvent
    simp only [List.append_assoc, List.cons_append, List.nil_append, old, new]
  have hlong : ¬(encodeHistoryEvent event ++ rest).length < eventHeaderBytes := by
    rw [hencode]
    unfold putTime eventHeaderBytes
    simp only [List.length_cons, List.length_append, length_putU32, length_putU64]
    omega
  have hpathLen :
      (getU32 ((encodeHistoryEvent event ++ rest).drop 13)).toNat = event.path.length := by
    rw [hencode]
    exact (congrArg UInt32.toNat (getU32_putU32 _ _)).trans hlen
  have hpath : (encodeHistoryEvent event ++ rest).drop eventHeaderBytes =
      event.path ++ (old ++ (new ++ rest)) := by
    rw [hencode]
    rfl
  have htime : getTime ((encodeHistoryEvent event ++ rest).drop 1) = event.eventTime := by
    rw [hencode]
    exact getTime_putTime _ _
  have hkind :
      HistoryEventKind.ofByte ((encodeHistoryEvent event ++ rest).headD 0) = event.kind := by
    rw [hencode]
    exact HistoryEventKind.ofByte_toByte _
  have hold := decodeMetadataRecord_encodeMetadataRecord h.oldHash (new ++ rest)
  have hnew := decodeMetadataRecord_encodeMetadataRecord h.newHash rest
  unfold decodeHistoryEvent
  rw [if_neg hlong]
  simp only [hpathLen, hpath, htime, hkind]
  rw [if_neg (by rw [List.length_append]; omega), List.drop_left, List.take_left]
  simp only [Option.bind_eq_bind, old, new, hold, hnew, Option.bind_some]
  rfl

theorem HistoryEvent.Recordable.canonical {event : HistoryEvent} (h : event.Recordable) :
    event.canonical = event := by
  rw [HistoryEvent.canonical, h.oldMetadata, h.newMetadata]

theorem decodeHistoryEvent_encodeHistoryEvent {event : HistoryEvent} (h : event.Recordable)
    (rest : Str) : decodeHistoryEvent (encodeHistoryEvent event ++ rest) = some (event, rest) := by
  rw [decodeHistoryEvent_encode ⟨h.path, h.oldHash, h.newHash⟩, h.canonical]

theorem decodeHistoryEvents_encodeHistoryStream {events : List HistoryEvent}
    (h : ∀ event ∈ events, event.Recordable) :
    decodeHistoryEvents (encodeHistoryStream events) = events := by
  induction events with
  | nil =>
      rw [decodeHistoryEvents]
      rfl
  | cons event events ih =>
      rw [List.forall_mem_cons] at h
      have hdecode := decodeHistoryEvent_encodeHistoryEvent h.1 (encodeHistoryStream events)
      unfold encodeHistoryStream at hdecode ⊢
      rw [List.flatMap_cons, decodeHistoryEvents]
      split
      · rename_i hnone
        rw [hdecode] at hnone
        cases hnone
      · rename_i event' rest hsome
        rw [hdecode] at hsome
        obtain ⟨rfl, rfl⟩ := Prod.mk.inj (Option.some.inj hsome)
        exact congrArg _ (ih h.2)

/-- A history that starts with a marker is read back, and no marker is made up. -/
theorem decodeHistoryStream_encodeHistoryStream {marker : HistoryEvent} {events : List HistoryEvent}
    (hmarker : marker.kind = .runMarker) (h : ∀ event ∈ marker :: events, event.Recordable) :
    decodeHistoryStream (encodeHistoryStream (marker :: events)) = marker :: events := by
  unfold decodeHistoryStream
  rw [decodeHistoryEvents_encodeHistoryStream h]
  exact if_neg (not_not_intro hmarker)

end Flocate
