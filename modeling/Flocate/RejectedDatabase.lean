import Flocate.DatabaseReuse
import Flocate.HistoryRetention

/-!
# What is taken over from a database that is refused

The constructor of `ExistingDB` only sets `error`. `read_next_dictionary` and
`read_history_events` do not look at it but at the header, whatever is in there, and make room for
what they are going to read before they find out whether the file has it.
-/

namespace Flocate

open Bytes

variable {σ : Type}

namespace ExistingDB

inductive Refusal where
  | noFile
  | header
  | magic
  | version
  | confBlock
  | dictionary
  | metadataLayout
deriving DecidableEq

def Refusal.ofFormat : Refusal → Bool
  | .confBlock => false
  | .dictionary => false
  | _ => true

def refusal (confBlock : Str) (file : Option Str) : Option Refusal :=
  match file with
  | none => some .noFile
  | some file =>
      match tryCompletePread file DatabaseHeader.size 0 with
      | none => some .header
      | some bytes =>
          let hdr := DatabaseHeader.ofBytes bytes
          if hdr.magic ≠ magicBytes then some .magic
          else if (hdr.version ≠ 1 ∧ hdr.version ≠ 2) ∨ hdr.maxVersion < 2 then some .version
          else if hdr.confBlockLengthBytes.toNat ≠ confBlock.length then some .confBlock
          else
            match tryCompletePread file hdr.confBlockLengthBytes.toNat
                hdr.confBlockOffsetBytes.toNat with
            | none => some .confBlock
            | some str =>
                if str ≠ confBlock then some .confBlock
                else
                  match tryCompletePread file hdr.zstdDictionaryLengthBytes.toNat
                      hdr.zstdDictionaryOffsetBytes.toNat with
                  | none => some .dictionary
                  | some _ =>
                      if hdr.metadataLengthBytes ≠ 0 ∧
                          hdr.metadataFlags &&& DatabaseHeader.metadataFlagPosixV2 = 0 then
                        some .metadataLayout
                      else none

theorem openDatabase_eq_none_iff (confBlock : Str) (file : Option Str) :
    openDatabase confBlock file = none ↔ refusal confBlock file ≠ none := by
  have hrefused (r : Refusal) :
      (none : Option DatabaseHeader) = none ↔ some r ≠ none :=
    iff_of_true rfl (Option.some_ne_none r)
  unfold openDatabase refusal
  cases file with
  | none => exact hrefused _
  | some file =>
      simp only [Option.bind_eq_bind, Option.bind_some]
      cases tryCompletePread file DatabaseHeader.size 0 with
      | none => exact hrefused _
      | some bytes =>
          simp only [Option.bind_some]
          split
          · exact hrefused _
          split
          · exact hrefused _
          split
          · exact hrefused _
          cases tryCompletePread file (DatabaseHeader.ofBytes bytes).confBlockLengthBytes.toNat
              (DatabaseHeader.ofBytes bytes).confBlockOffsetBytes.toNat with
          | none => exact hrefused _
          | some str =>
              simp only [Option.bind_some]
              split
              · exact hrefused _
              cases tryCompletePread file
                  (DatabaseHeader.ofBytes bytes).zstdDictionaryLengthBytes.toNat
                  (DatabaseHeader.ofBytes bytes).zstdDictionaryOffsetBytes.toNat with
              | none => exact hrefused _
              | some dictionary =>
                  simp only [Option.bind_some]
                  split
                  · exact hrefused _
                  · exact iff_of_false (Option.some_ne_none _) (not_not_intro rfl)

/-- The header after the constructor: `unread` is what has been in its memory before, and a file
that ends inside of the header is only read up to there. -/
def headerAfter (unread : Vector UInt8 DatabaseHeader.size) (file : Option Str) : DatabaseHeader :=
  .ofBytes (((file.getD []).take DatabaseHeader.size) ++ unread.toList.drop (file.getD []).length)

variable (allocates : ℕ → Bool)

/-- A buffer of a length that may or may not be allocated, and `try_complete_pread` into it, which
reads nothing without a file. -/
def readSection (file : Option Str) (len offset : ℕ) : Except Fault (Option Str) :=
  if allocates len then .ok (file.bind fun file => tryCompletePread file len offset)
  else .error .uncaught

def readNextDictionary (file : Option Str) (hdr : DatabaseHeader) : Except Fault Str :=
  if hdr.nextZstdDictionaryLengthBytes = 0 ∨ 1048576 < hdr.nextZstdDictionaryLengthBytes then .ok []
  else (readSection allocates file hdr.nextZstdDictionaryLengthBytes.toNat
    hdr.nextZstdDictionaryOffsetBytes.toNat).map (·.getD [])

/-- The compressed history, if there is one that can be read. -/
def historySection (file : Option Str) (hdr : DatabaseHeader) : Except Fault Str :=
  if hdr.historyLengthBytes = 0 then .ok []
  else (readSection allocates file hdr.historyLengthBytes.toNat
    hdr.historyOffsetBytes.toNat).map (·.getD [])

def readHistoryEvents (d : StreamDecoder σ) (fuel : ℕ) (file : Option Str)
    (hdr : DatabaseHeader) : Option (Except Fault (List HistoryEvent)) :=
  match historySection allocates file hdr with
  | .error fault => some (.error fault)
  | .ok compressed => (Flocate.readHistoryEvents d fuel compressed).map .ok

/-- There is no dictionary and no history, and a run without a usable previous database writes
nothing but its marker. -/
def TakesNothing (d : StreamDecoder σ) (file : Option Str) (hdr : DatabaseHeader) : Prop :=
  readNextDictionary allocates file hdr = .ok [] ∧ ∃ fuel previous,
    readHistoryEvents allocates d fuel file hdr = some (.ok previous) ∧ previous = [] ∧
    ∀ run : HistoryRun, run.baseline = true → 0 < run.depth → run.merge previous = [run.marker]

def SectionInside (file : Option Str) (offset length : UInt64) : Prop :=
  ∃ f, file = some f ∧ offset.toNat + length.toNat ≤ f.length

def sectionBytes (file : Option Str) (offset length : UInt64) : Str :=
  ((file.getD []).drop offset.toNat).take length.toNat

/-- What the header calls the next dictionary and the history is empty, too long for a dictionary,
not in the file though there is room for it, or not a history with an event in it. -/
def NothingThere (d : StreamDecoder σ) (file : Option Str) (hdr : DatabaseHeader) : Prop :=
  (hdr.nextZstdDictionaryLengthBytes = 0 ∨ 1048576 < hdr.nextZstdDictionaryLengthBytes ∨
      allocates hdr.nextZstdDictionaryLengthBytes.toNat = true ∧
        ¬SectionInside file hdr.nextZstdDictionaryOffsetBytes hdr.nextZstdDictionaryLengthBytes) ∧
    (hdr.historyLengthBytes = 0 ∨ allocates hdr.historyLengthBytes.toNat = true ∧
      (¬SectionInside file hdr.historyOffsetBytes hdr.historyLengthBytes ∨
        ∃ fuel content, decompressHistoryBlob d fuel
          (sectionBytes file hdr.historyOffsetBytes hdr.historyLengthBytes) = some content ∧
            decodeHistoryEvent content = none))

section Rejected

variable {allocates : ℕ → Bool} {d : StreamDecoder σ} {file : Option Str} {hdr : DatabaseHeader}
  {offset length : UInt64}

theorem readSection_eq_ok {found : Str} :
    (readSection allocates file length.toNat offset.toNat).map (·.getD []) = .ok found ↔
      allocates length.toNat = true ∧
        (file.bind fun file => tryCompletePread file length.toNat offset.toNat).getD [] =
          found := by
  rw [readSection]
  split
  · rename_i h
    rw [h]
    exact ⟨fun heq => ⟨rfl, Except.ok.inj heq⟩, fun heq => congrArg Except.ok heq.2⟩
  · rename_i h
    exact ⟨nofun, fun heq => absurd heq.1 h⟩

theorem pread_section (file : Option Str) (offset : UInt64) (h : length ≠ 0) :
    (file.bind fun file => tryCompletePread file length.toNat offset.toNat).getD [] ≠ [] ∧
        SectionInside file offset length ∧
        (file.bind fun file => tryCompletePread file length.toNat offset.toNat).getD [] =
          sectionBytes file offset length ∨
      (file.bind fun file => tryCompletePread file length.toNat offset.toNat).getD [] = [] ∧
        ¬SectionInside file offset length := by
  have hlen : length.toNat ≠ 0 := fun hzero => h (UInt64.toNat_inj.mp hzero)
  cases file with
  | none => exact Or.inr ⟨rfl, fun ⟨_, hf, _⟩ => nomatch hf⟩
  | some f =>
      rw [Option.bind_some, tryCompletePread, if_neg hlen]
      split
      · rename_i hle
        refine Or.inl ⟨List.ne_nil_of_length_pos ?_, ⟨f, rfl, hle⟩, rfl⟩
        rw [Option.getD_some, List.length_take, List.length_drop]
        omega
      · rename_i hle
        refine Or.inr ⟨rfl, fun ⟨f', hf, hle'⟩ => hle ?_⟩
        obtain rfl := Option.some.inj hf
        exact hle'

theorem readNextDictionary_eq_nil_iff : readNextDictionary allocates file hdr = .ok [] ↔
    hdr.nextZstdDictionaryLengthBytes = 0 ∨ 1048576 < hdr.nextZstdDictionaryLengthBytes ∨
      allocates hdr.nextZstdDictionaryLengthBytes.toNat = true ∧
        ¬SectionInside file hdr.nextZstdDictionaryOffsetBytes
          hdr.nextZstdDictionaryLengthBytes := by
  unfold readNextDictionary
  split
  · rename_i h
    exact ⟨fun _ => h.imp_right Or.inl, fun _ => rfl⟩
  · rename_i h
    rw [not_or] at h
    simp only [h.1, h.2, false_or]
    rw [readSection_eq_ok]
    refine and_congr_right fun _ => ?_
    rcases pread_section file _ h.1 with ⟨hne, hinside, -⟩ | ⟨hnil, hout⟩
    · exact iff_of_false hne (not_not_intro hinside)
    · exact iff_of_true hnil hout

theorem decodeHistoryEvents_eq_nil_iff (content : Str) :
    decodeHistoryEvents content = [] ↔ decodeHistoryEvent content = none := by
  rw [decodeHistoryEvents]
  split
  · rename_i h
    exact iff_of_true rfl h
  · rename_i event rest h
    exact iff_of_false (List.cons_ne_nil _ _) (h ▸ Option.some_ne_none _)

theorem decodeHistoryStream_eq_nil_iff (content : Str) :
    decodeHistoryStream content = [] ↔ decodeHistoryEvent content = none := by
  rw [← decodeHistoryEvents_eq_nil_iff, decodeHistoryStream]
  cases decodeHistoryEvents content with
  | nil => exact Iff.rfl
  | cons event events =>
      refine iff_of_false ?_ (List.cons_ne_nil _ _)
      dsimp only
      split <;> exact List.cons_ne_nil _ _

theorem readHistoryEvents_ok_iff {previous : List HistoryEvent} :
    (∃ fuel, readHistoryEvents allocates d fuel file hdr = some (.ok previous)) ↔
      ∃ compressed, historySection allocates file hdr = .ok compressed ∧
        ∃ fuel, Flocate.readHistoryEvents d fuel compressed = some previous := by
  unfold readHistoryEvents
  split
  · rename_i fault hfault
    rw [hfault]
    exact ⟨nofun, nofun⟩
  · rename_i compressed hsection
    rw [hsection]
    constructor
    · rintro ⟨fuel, h⟩
      obtain ⟨previous, hread, heq⟩ := Option.map_eq_some_iff.mp h
      obtain rfl := Except.ok.inj heq
      exact ⟨compressed, rfl, fuel, hread⟩
    · rintro ⟨_, heq, fuel, hread⟩
      obtain rfl := Except.ok.inj heq
      exact ⟨fuel, Option.map_eq_some_iff.mpr ⟨previous, hread, rfl⟩⟩

theorem readHistoryEvents_nil_iff {compressed : Str} :
    (∃ fuel, Flocate.readHistoryEvents d fuel compressed = some []) ↔ compressed = [] ∨
      ∃ fuel content, decompressHistoryBlob d fuel compressed = some content ∧
        decodeHistoryEvent content = none := by
  unfold Flocate.readHistoryEvents
  by_cases hnil : compressed = []
  · exact iff_of_true ⟨0, if_pos hnil⟩ (Or.inl hnil)
  · simp only [hnil, false_or, if_false, Option.map_eq_some_iff, decodeHistoryStream_eq_nil_iff]

theorem readHistoryEvents_eq_nil_iff :
    (∃ fuel, readHistoryEvents allocates d fuel file hdr = some (.ok [])) ↔
      hdr.historyLengthBytes = 0 ∨ allocates hdr.historyLengthBytes.toNat = true ∧
        (¬SectionInside file hdr.historyOffsetBytes hdr.historyLengthBytes ∨
          ∃ fuel content, decompressHistoryBlob d fuel
            (sectionBytes file hdr.historyOffsetBytes hdr.historyLengthBytes) = some content ∧
              decodeHistoryEvent content = none) := by
  rw [readHistoryEvents_ok_iff]
  by_cases hlen : hdr.historyLengthBytes = 0
  · refine iff_of_true ⟨[], if_pos hlen, ?_⟩ (Or.inl hlen)
    exact readHistoryEvents_nil_iff.mpr (Or.inl rfl)
  · simp only [historySection, if_neg hlen, readSection_eq_ok, readHistoryEvents_nil_iff]
    rcases pread_section file hdr.historyOffsetBytes hlen with
      ⟨hne, hinside, hbytes⟩ | ⟨hnil, hout⟩
    · rw [hbytes] at hne
      simp only [hlen, hbytes, hinside, not_true_eq_false, false_or]
      constructor
      · rintro ⟨_, ⟨hroom, rfl⟩, hread⟩
        exact ⟨hroom, hread.resolve_left hne⟩
      · rintro ⟨hroom, hread⟩
        exact ⟨_, ⟨hroom, rfl⟩, Or.inr hread⟩
    · simp only [hlen, hnil, hout, not_false_eq_true, true_or, and_true, false_or]
      constructor
      · rintro ⟨_, ⟨hroom, -⟩, -⟩
        exact hroom
      · exact fun hroom => ⟨[], ⟨hroom, rfl⟩, Or.inl rfl⟩

theorem merge_baseline {run : HistoryRun} (hbaseline : run.baseline = true)
    (hdepth : 0 < run.depth) : run.merge [] = [run.marker] := by
  have hevents : run.events = [] := if_pos (Or.inr hbaseline)
  have hmarker : run.marker.kind = .runMarker := rfl
  have htrim : trimHistoryRuns [run.marker] run.depth = [run.marker] := by
    unfold trimHistoryRuns
    rw [if_neg hdepth.ne']
    simp only [markerIndices, hmarker, ne_eq, not_true_eq_false, if_false, if_true,
      List.nil_append]
    exact if_pos (Or.inr (Int.ofNat_le.mpr hdepth))
  unfold HistoryRun.merge
  rw [if_pos hdepth, hevents]
  dsimp only
  rw [List.nil_append, htrim, ite_self]

/-- Nothing is taken over from a database whose format is refused exactly if its header, read or
not, names no dictionary and no history that can be read, and nothing that there is no room for. -/
theorem takesNothing_iff (allocates : ℕ → Bool) (d : StreamDecoder σ) (confBlock : Str)
    (unread : Vector UInt8 DatabaseHeader.size) (file : Option Str) (reason : Refusal)
    (hreason : refusal confBlock file = some reason) (_hformat : reason.ofFormat = true) :
    openDatabase confBlock file = none ∧
      (TakesNothing allocates d file (headerAfter unread file) ↔
        NothingThere allocates d file (headerAfter unread file)) := by
  constructor
  · rw [openDatabase_eq_none_iff, hreason]
    exact Option.some_ne_none reason
  · unfold TakesNothing NothingThere
    rw [readNextDictionary_eq_nil_iff, ← readHistoryEvents_eq_nil_iff]
    refine and_congr_right fun _ => ⟨?_, ?_⟩
    · rintro ⟨fuel, previous, hread, rfl, -⟩
      exact ⟨fuel, hread⟩
    · rintro ⟨fuel, hread⟩
      exact ⟨fuel, [], hread, rfl, fun _ => merge_baseline⟩

/-- A file that is as long as a header, without the magic, where the places and lengths of the next
dictionary and of the history are stored. -/
def foreignFile (dictionaryLength dictionaryOffset historyLength historyOffset : UInt64) : Str :=
  List.replicate 72 0 ++ putU64 dictionaryLength ++ putU64 dictionaryOffset ++
    List.replicate 32 0 ++ putU64 historyLength ++ putU64 historyOffset ++ List.replicate 8 0

/-- Both are behind the end of the file, and short enough to look for them there. -/
theorem takesNothing_shortFile :
    TakesNothing (fun len => decide (len < 1000)) rawStream (some (foreignFile 1 256 3 512))
      (headerAfter (Vector.replicate DatabaseHeader.size 0) (some (foreignFile 1 256 3 512))) := by
  refine (takesNothing_iff _ rawStream [] (Vector.replicate DatabaseHeader.size 0)
    (some (foreignFile 1 256 3 512)) .magic (by decide +kernel) rfl).2.mpr ⟨?_, ?_⟩
  · refine Or.inr (Or.inr ⟨by decide +kernel, ?_⟩)
    rintro ⟨f, hf, hle⟩
    obtain rfl := Option.some.inj hf
    exact absurd hle (by decide +kernel)
  · refine Or.inr ⟨by decide +kernel, Or.inl ?_⟩
    rintro ⟨f, hf, hle⟩
    obtain rfl := Option.some.inj hf
    exact absurd hle (by decide +kernel)

/-- The first byte of a foreign file is taken for a dictionary. -/
theorem not_takesNothing_foreignFile : refusal [] (some (foreignFile 1 0 0 0)) = some .magic ∧
    Refusal.ofFormat .magic = true ∧
      ¬TakesNothing (fun _ => true) rawStream (some (foreignFile 1 0 0 0))
        (headerAfter (Vector.replicate DatabaseHeader.size 0) (some (foreignFile 1 0 0 0))) := by
  refine ⟨by decide +kernel, rfl, ?_⟩
  rintro ⟨hnil, -⟩
  have hdictionary : readNextDictionary (fun _ => true) (some (foreignFile 1 0 0 0))
      (headerAfter (Vector.replicate DatabaseHeader.size 0) (some (foreignFile 1 0 0 0))) =
        .ok [0] := by
    decide +kernel
  cases hdictionary.symm.trans hnil

end Rejected

end ExistingDB

end Flocate
