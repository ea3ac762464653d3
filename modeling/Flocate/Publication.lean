import Flocate.DatabaseFile
import Flocate.HashTableLookup

/-!
# Replacing the database

Only the writes of filename blocks are checked. Any other call that fails before the publication
leaves a database that is short of bytes or has no valid header, and it is published all the same.
Without a temporary name, a failing `linkat` leaves no database at all.
-/

namespace Flocate

open Bytes Stdio

namespace DatabaseBuilder

variable {outcomes : Call → Outcome} {b c : DatabaseBuilder} {cs : List Call}

def AllOk (outcomes : Call → Outcome) (cs : List Call) : Prop := ∀ call ∈ cs, outcomes call = .ok

theorem allOk_append {cs' : List Call} :
    AllOk outcomes (cs ++ cs') ↔ AllOk outcomes cs ∧ AllOk outcomes cs' :=
  List.forall_mem_append

theorem allOk_singleton {call : Call} : AllOk outcomes [call] ↔ outcomes call = .ok :=
  List.forall_mem_singleton

theorem allOk_cons {call : Call} :
    AllOk outcomes (call :: cs) ↔ outcomes call = .ok ∧ AllOk outcomes cs :=
  List.forall_mem_cons

/-- `c` has seen the same calls as `b`, all of them successful. -/
structure Lags (outcomes : Call → Outcome) (cs : List Call) (b c : DatabaseBuilder) : Prop where
  left : b.outfp.Appending
  right : c.outfp.Appending
  eq_of_ok : AllOk outcomes cs → b = c
  short : ¬AllOk outcomes cs → b.outfp.contents.length < c.outfp.contents.length
  fresh : ∀ w ∈ b.outfp.contents, w.1 ≠ .finalHeader

theorem Lags.length_le (h : Lags outcomes cs b c) :
    b.outfp.contents.length ≤ c.outfp.contents.length := by
  by_cases hok : AllOk outcomes cs
  · rw [h.eq_of_ok hok]
  · exact Nat.le_of_lt (h.short hok)

theorem Lags.withHeader (h : Lags outcomes cs b c) {hdr hdr' : DatabaseHeader}
    (hhdr : AllOk outcomes cs → hdr = hdr') :
    Lags outcomes cs { b with hdr := hdr } { c with hdr := hdr' } where
  left := h.left
  right := h.right
  eq_of_ok hok := by rw [hhdr hok, h.eq_of_ok hok]
  short := h.short
  fresh := h.fresh

theorem contents_fwrite_fail {call : Call} {data : Str} (hb : b.outfp.Appending) (hdata : data ≠ [])
    (hfail : outcomes call ≠ .ok) :
    (b.fwrite outcomes call data).outfp.contents <+: b.outfp.contents ++ data.map (call, ·) ∧
      (b.fwrite outcomes call data).outfp.contents.length <
        b.outfp.contents.length + data.length := by
  cases ho : outcomes call with
  | ok => exact absurd ho hfail
  | fail written =>
      obtain ⟨hpart, hlength⟩ :=
        hb.contents_fwrite_fail (List.map_eq_nil_iff.not.mpr hdata) written
      rw [List.length_append, List.length_map] at hlength
      unfold fwrite
      rw [ho]
      exact ⟨hpart, hlength⟩

theorem Lags.fwrite (h : Lags outcomes cs b c) {call : Call} (hcall : call ≠ .finalHeader)
    {data data' : Str} (hdata : data ≠ []) (hlength : data.length = data'.length)
    (heq : AllOk outcomes cs → data = data') :
    Lags outcomes (cs ++ [call]) (b.fwrite outcomes call data)
      (c.fwrite (fun _ => .ok) call data') where
  left := h.left.fwrite _ _
  right := h.right.fwrite _ _
  eq_of_ok hok := by
    rw [allOk_append, allOk_singleton] at hok
    unfold DatabaseBuilder.fwrite
    rw [hok.2, heq hok.1, h.eq_of_ok hok.1]
  short hfail := by
    have hle := h.length_le
    rw [contents_fwrite_ok c call data' rfl, List.length_append, List.length_map, ← hlength]
    rw [allOk_append, allOk_singleton] at hfail
    by_cases ho : outcomes call = .ok
    · have hshort := h.short fun hok => hfail ⟨hok, ho⟩
      rw [contents_fwrite_ok b call data ho, List.length_append, List.length_map]
      omega
    · have hlt := (contents_fwrite_fail h.left hdata ho).2
      omega
  fresh w hw := by
    have hmem : w ∈ b.outfp.contents ++ data.map (call, ·) := by
      by_cases ho : outcomes call = .ok
      · rwa [contents_fwrite_ok b call data ho] at hw
      · exact (contents_fwrite_fail h.left hdata ho).1.subset hw
    rcases List.mem_append.mp hmem with hw | hw
    · exact h.fresh w hw
    · obtain ⟨_, -, rfl⟩ := List.mem_map.mp hw
      exact hcall

def sectionCalls (call : Call) (data : Str) : List Call := if data = [] then [] else [call]

theorem Lags.writeSection (h : Lags outcomes cs b c) {call : Call} (hcall : call ≠ .finalHeader)
    (set : DatabaseHeader → UInt64 → UInt64 → DatabaseHeader) (data : Str) :
    Lags outcomes (cs ++ sectionCalls call data) (writeSection outcomes set call data b)
      (writeSection (fun _ => .ok) set call data c) := by
  unfold DatabaseBuilder.writeSection sectionCalls
  by_cases hdata : data = []
  · rw [if_pos hdata, if_pos hdata, if_pos hdata, List.append_nil]
    exact h
  · rw [if_neg hdata, if_neg hdata, if_neg hdata]
    exact (h.withHeader fun hok => by rw [h.eq_of_ok hok]).fwrite hcall hdata rfl fun _ => rfl

theorem lags_create (dictionary : Str) (checkVisibility : Bool) :
    Lags outcomes ([.header] ++ sectionCalls .dictionary dictionary)
      (create outcomes dictionary checkVisibility)
      (create (fun _ => .ok) dictionary checkVisibility) := by
  have hstart : Lags outcomes [] { hdr := DatabaseHeader.initial checkVisibility }
      { hdr := DatabaseHeader.initial checkVisibility } := {
    left := rfl
    right := rfl
    eq_of_ok := fun _ => rfl
    short := fun h => absurd (List.forall_mem_nil _) h
    fresh := fun w hw => absurd hw List.not_mem_nil }
  have hne : (DatabaseHeader.initial checkVisibility).toBytes ≠ [] :=
    List.ne_nil_of_length_pos (by rw [length_toBytes]; decide)
  have hheader := hstart.fwrite (nofun : Call.header ≠ .finalHeader) hne rfl fun _ => rfl
  unfold create
  exact (hheader.withHeader fun _ => rfl).writeSection
    (nofun : Call.dictionary ≠ .finalHeader) _ dictionary

def blockCalls (docid num : ℕ) : List Call := (List.range' docid num).map .block

theorem blockCalls_succ (docid num : ℕ) :
    blockCalls docid (num + 1) = [.block docid] ++ blockCalls (docid + 1) num := rfl

theorem writeBlocks_eq_none {blocks : List Str} {docid pos : ℕ}
    (hfail : ¬AllOk outcomes (blockCalls docid blocks.length)) :
    writeBlocks outcomes blocks docid pos b = none := by
  induction blocks generalizing docid pos b with
  | nil => exact absurd (List.forall_mem_nil _) hfail
  | cons block blocks ih =>
      rw [List.length_cons, blockCalls_succ, allOk_append, allOk_singleton, not_and_or] at hfail
      unfold writeBlocks
      by_cases hblock : outcomes (.block docid) = .ok
      · rw [if_neg (not_not_intro hblock), ih (hfail.resolve_left (not_not_intro hblock)),
          Option.map_none]
      · rw [if_pos hblock]

theorem lags_writeBlocks {blocks : List Str} (hne : ∀ block ∈ blocks, block ≠ [])
    {docid pos pos' : ℕ} (h : Lags outcomes cs b c) (hpos : AllOk outcomes cs → pos = pos')
    (hok : AllOk outcomes (blockCalls docid blocks.length)) :
    ∃ b' c' offsets offsets', writeBlocks outcomes blocks docid pos b = some (b', offsets) ∧
      writeBlocks (fun _ => .ok) blocks docid pos' c = some (c', offsets') ∧
      Lags outcomes (cs ++ blockCalls docid blocks.length) b' c' ∧
      offsets.length = offsets'.length ∧ (AllOk outcomes cs → offsets = offsets') := by
  induction blocks generalizing docid pos pos' b c cs with
  | nil =>
      refine ⟨b, c, [], [], rfl, rfl, ?_, rfl, fun _ => rfl⟩
      rw [List.length_nil, show blockCalls docid 0 = [] from rfl, List.append_nil]
      exact h
  | cons block blocks ih =>
      rw [List.length_cons, blockCalls_succ, allOk_append, allOk_singleton] at hok
      have hwritten := h.fwrite (nofun : Call.block docid ≠ .finalHeader)
        (hne block List.mem_cons_self) rfl fun _ => rfl
      have hall : AllOk outcomes (cs ++ [.block docid]) ↔ AllOk outcomes cs := by
        rw [allOk_append, allOk_singleton, and_iff_left hok.1]
      obtain ⟨b', c', offsets, offsets', hb, hc, hlags, hlength, heq⟩ :=
        ih (fun block hmem => hne block (List.mem_cons_of_mem _ hmem)) hwritten
          (fun hcs => congrArg (· + block.length) (hpos (hall.mp hcs))) hok.2
      refine ⟨b', c', pos :: offsets, pos' :: offsets', ?_, ?_, ?_, ?_, ?_⟩
      · unfold writeBlocks
        simp only [hok.1, ne_eq, not_true_eq_false, if_false, hb, Option.map_some]
      · unfold writeBlocks
        simp only [ne_eq, not_true_eq_false, if_false, hc, Option.map_some]
      · rw [List.length_cons, blockCalls_succ, ← List.append_assoc]
        exact hlags
      · rw [List.length_cons, List.length_cons, hlength]
      · intro hcs
        rw [hpos hcs, heq (hall.mpr hcs)]

theorem lags_writeFilenameIndex (h : Lags outcomes cs b c) {offsets offsets' : List ℕ}
    (hlength : offsets.length = offsets'.length) (heq : AllOk outcomes cs → offsets = offsets') :
    Lags outcomes (cs ++ [.filenameIndex]) (writeFilenameIndex outcomes offsets b)
      (writeFilenameIndex (fun _ => .ok) offsets' c) := by
  have hbytes (l : List ℕ) : (l.flatMap (leBytes 8)).length = 8 * l.length := by
    simp only [List.length_flatMap, length_leBytes, List.map_const', List.sum_replicate_nat,
      Nat.mul_comm]
  unfold writeFilenameIndex
  refine (h.withHeader fun hok => by rw [heq hok, h.eq_of_ok hok]).fwrite
    (nofun : Call.filenameIndex ≠ .finalHeader) ?_ ?_ ?_
  · apply List.ne_nil_of_length_pos
    rw [hbytes, List.length_append, List.length_singleton]
    omega
  · rw [hbytes, hbytes, List.length_append, List.length_append, hlength]
    rfl
  · intro hok
    rw [heq hok, h.eq_of_ok hok]

def postingListCalls : List Trigram → ℕ → List Call
  | [], _ => []
  | slot :: slots, i =>
      (if slot.numDocids = 0 then [] else [.postingList i]) ++ postingListCalls slots (i + 1)

variable {getPlBuilder : UInt32 → FinishedList}

theorem writePostingLists_assignOffsets (slots : List Trigram) (offset i : ℕ) :
    writePostingLists outcomes getPlBuilder (assignOffsets getPlBuilder offset slots) i b =
      writePostingLists outcomes getPlBuilder slots i b := by
  induction slots generalizing offset i b with
  | nil => rfl
  | cons slot slots ih => exact ih _ _

theorem lags_writePostingLists {slots : List Trigram}
    (hne : ∀ slot ∈ slots, slot.numDocids ≠ 0 → (getPlBuilder slot.trgm).encoded ≠ [])
    (h : Lags outcomes cs b c) (i : ℕ) :
    Lags outcomes (cs ++ postingListCalls slots i)
      (writePostingLists outcomes getPlBuilder slots i b)
      (writePostingLists (fun _ => .ok) getPlBuilder slots i c) := by
  induction slots generalizing cs b c i with
  | nil =>
      rw [show postingListCalls [] i = [] from rfl, List.append_nil]
      exact h
  | cons slot slots ih =>
      have hne' : ∀ slot ∈ slots, slot.numDocids ≠ 0 → (getPlBuilder slot.trgm).encoded ≠ [] :=
        fun slot hmem => hne slot (List.mem_cons_of_mem _ hmem)
      unfold postingListCalls writePostingLists
      rw [← List.append_assoc]
      by_cases hzero : slot.numDocids = 0
      · rw [if_pos hzero, if_pos hzero, if_pos hzero, List.append_nil]
        exact ih hne' h (i + 1)
      · have hcall : Call.postingList i ≠ .finalHeader := by
          intro h
          cases h
        rw [if_neg hzero, if_neg hzero, if_neg hzero]
        exact ih hne' (h.fwrite hcall (hne slot List.mem_cons_self hzero) rfl fun _ => rfl) (i + 1)

theorem lags_writeTables (d : FinishedCorpus) (h : Lags outcomes cs b c) :
    Lags outcomes (cs ++ [.hashTable] ++ postingListCalls d.hashtable 0)
      (writeTables outcomes d b) (writeTables (fun _ => .ok) d c) := by
  have hbytes (offset : ℕ) : ((assignOffsets d.getPlBuilder offset d.hashtable).flatMap
      Trigram.toBytes).length = d.hashtable.length * 16 := by
    rw [length_flatMap_toBytes, length_assignOffsets]
  unfold writeTables
  rw [writePostingLists_assignOffsets, writePostingLists_assignOffsets]
  refine lags_writePostingLists d.encoded_ne_nil ((h.withHeader fun hok => ?_).fwrite
    (nofun : Call.hashTable ≠ .finalHeader) ?_ ?_ ?_) 0
  · rw [h.eq_of_ok hok]
  · apply List.ne_nil_of_length_pos
    rw [hbytes]
    exact Nat.mul_pos (List.length_pos_iff.mpr d.hashtable_ne_nil) (by decide)
  · rw [hbytes, hbytes]
  · intro hok
    rw [h.eq_of_ok hok]

def sectionsCalls (d : FinishedCorpus) : List Call :=
  sectionCalls .directoryData d.directoryData ++ sectionCalls .metadata d.metadata ++
    sectionCalls .history d.history ++ sectionCalls .nextDictionary d.nextDictionary ++
    sectionCalls .confBlock d.confBlock

theorem lags_writeSections (d : FinishedCorpus) (h : Lags outcomes cs b c) :
    Lags outcomes (cs ++ sectionsCalls d) (writeSections outcomes d b)
      (writeSections (fun _ => .ok) d c) := by
  unfold sectionsCalls writeSections
  simp only [← List.append_assoc]
  exact ((((h.writeSection (nofun : Call.directoryData ≠ .finalHeader) _
    d.directoryData).writeSection (nofun : Call.metadata ≠ .finalHeader) _ d.metadata).writeSection
    (nofun : Call.history ≠ .finalHeader) _ d.history).writeSection
    (nofun : Call.nextDictionary ≠ .finalHeader) _ d.nextDictionary).writeSection
    (nofun : Call.confBlock ≠ .finalHeader) _ d.confBlock

def bodyCalls (d : FinishedCorpus) : List Call :=
  [.header] ++ sectionCalls .dictionary d.dictionary ++ blockCalls 0 d.blocks.length ++
    [.filenameIndex] ++ [.hashTable] ++ postingListCalls d.hashtable 0 ++ sectionsCalls d

theorem writeBody_eq_none {d : FinishedCorpus}
    (hfail : ¬AllOk outcomes (blockCalls 0 d.blocks.length)) : writeBody outcomes d = none := by
  unfold writeBody
  dsimp only
  rw [writeBlocks_eq_none hfail, Option.map_none]

theorem lags_writeBody {d : FinishedCorpus} (hok : AllOk outcomes (blockCalls 0 d.blocks.length)) :
    ∃ b c, writeBody outcomes d = some b ∧ writeBody (fun _ => .ok) d = some c ∧
      Lags outcomes (bodyCalls d) b c := by
  have hcreate : Lags outcomes _ _ _ := lags_create d.dictionary d.checkVisibility
  obtain ⟨b, c, offsets, offsets', hb, hc, hlags, hlength, heq⟩ :=
    lags_writeBlocks d.block_ne_nil hcreate
      (fun hcs => congrArg (fun b : DatabaseBuilder => b.outfp.ftell) (hcreate.eq_of_ok hcs)) hok
  have hindex := lags_writeFilenameIndex hlags hlength fun hcs => heq (allOk_append.mp hcs).1
  refine ⟨_, _, ?_, ?_, lags_writeSections d (lags_writeTables d hindex)⟩
  · unfold writeBody
    dsimp only
    rw [hb, Option.map_some]
  · unfold writeBody
    dsimp only
    rw [hc, Option.map_some]

theorem call_of_mem_finalCells {w : Written} (hw : w ∈ b.finalCells) : w.1 = .finalHeader := by
  obtain ⟨_, -, rfl⟩ := List.mem_map.mp hw
  rfl

/-- After a failing seek the final header goes to the end of the file. -/
theorem writeHeader_rewind_fail (hb : b.outfp.Appending) (hrewind : outcomes .rewind ≠ .ok) :
    ∃ old new, b.writeHeader outcomes = old ++ new ∧ old <+: b.outfp.contents ∧
      new.length ≤ DatabaseHeader.size := by
  obtain ⟨happending, hold⟩ := hb.fseek_fail 0 hrewind
  have hflush := (happending.fwrite b.finalCells (outcomes .finalHeader)).contents_fflush
    (outcomes .flush)
  have hpart := hflush.trans (happending.contents_fwrite b.finalCells (outcomes .finalHeader))
  rw [← File.disk_fflush, List.prefix_iff_eq_take, List.take_append] at hpart
  refine ⟨_, _, hpart, (List.take_prefix _ _).trans hold, ?_⟩
  rw [List.length_take, length_finalCells]
  exact Nat.min_le_right _ _

def headerCalls : List Call := [.rewind, .finalHeader, .flush]

theorem allOk_headerCalls : AllOk outcomes headerCalls ↔
    outcomes .rewind = .ok ∧ outcomes .finalHeader = .ok ∧ outcomes .flush = .ok := by
  unfold headerCalls
  rw [allOk_cons, allOk_cons, allOk_singleton]

/-- The file is complete only if nothing has failed. -/
theorem Lags.writeHeader_eq_iff (h : Lags outcomes cs b c)
    (hsize : DatabaseHeader.size < c.outfp.contents.length) :
    b.writeHeader outcomes = c.writeHeader (fun _ => .ok) ↔
      AllOk outcomes cs ∧ AllOk outcomes headerCalls := by
  obtain ⟨hright, hlength⟩ := length_writeHeader_ok h.right hsize.le
  rw [allOk_headerCalls]
  constructor
  · intro heq
    have hsizes := length_finalCells c
    by_cases hrewind : outcomes .rewind = .ok
    · obtain ⟨n, hn, hle, hiff⟩ := writeHeader_rewind_ok outcomes h.left hrewind
      rw [hn, hright] at heq
      have hn' : n = DatabaseHeader.size := by
        by_contra hne
        have hlt : n < c.finalCells.length := by omega
        have hdrop := congrArg (List.drop n) heq
        rw [List.drop_left' (by rw [List.length_take, length_finalCells]; omega),
          List.drop_append_of_le_length hlt.le, List.drop_eq_getElem_cons hlt] at hdrop
        have hmem : c.finalCells[n] ∈ b.outfp.contents :=
          List.mem_of_mem_drop (by
            rw [hdrop]
            exact List.mem_append_left _ List.mem_cons_self)
        exact h.fresh _ hmem (call_of_mem_finalCells (List.getElem_mem hlt))
      refine ⟨?_, hrewind, hiff.mp hn'⟩
      by_contra hcs
      have hshort := h.short hcs
      have hlengths := congrArg List.length heq
      rw [List.length_append, List.length_take, length_finalCells, List.length_drop,
        List.length_append, List.length_drop, hsizes] at hlengths
      omega
    · exfalso
      obtain ⟨old, new, hfile, hold, hnew⟩ := writeHeader_rewind_fail h.left hrewind
      rw [hfile] at heq
      cases old with
      | nil =>
          rw [List.nil_append] at heq
          rw [← heq] at hlength
          omega
      | cons w old =>
          rw [hright] at heq
          have hpos : 0 < c.finalCells.length := by rw [hsizes]; decide
          have hhead := congrArg (fun l => l[0]?) heq
          simp only [List.cons_append, List.getElem?_cons_zero,
            List.getElem?_append_left hpos, List.getElem?_eq_getElem hpos,
            Option.some.injEq] at hhead
          refine h.fresh w (hold.subset List.mem_cons_self) ?_
          rw [hhead]
          exact call_of_mem_finalCells (List.getElem_mem hpos)
  · rintro ⟨hcs, hrewind, hheader, hflush⟩
    obtain ⟨n, hn, -, hiff⟩ := writeHeader_rewind_ok outcomes h.left hrewind
    rw [hright, hn, hiff.mpr ⟨hheader, hflush⟩, h.eq_of_ok hcs,
      List.take_of_length_le (length_finalCells c).le]

end DatabaseBuilder

open DatabaseBuilder

def FinishedCorpus.calls (d : FinishedCorpus) : List Call := bodyCalls d ++ headerCalls

namespace Publication

def Takes (previous : Option Str) : Publication → Prop
  | .rename succeeds => succeeds
  | .tmpfile unlinkSucceeds linkatSucceeds =>
      (unlinkSucceeds ∨ previous = none) ∧ linkatSucceeds

/-- The previous file has gone and the new one has not come. -/
def Loses (previous : Option Str) : Publication → Prop
  | .rename _ => False
  | .tmpfile unlinkSucceeds linkatSucceeds =>
      previous ≠ none ∧ unlinkSucceeds ∧ linkatSucceeds = false

variable {publication : Publication} {previous : Option Str} {contents : List Written}

theorem publish_of_takes (h : publication.Takes previous) :
    publication.publish previous contents = some (.published contents) := by
  cases publication with
  | rename succeeds =>
      cases h
      rfl
  | tmpfile unlinkSucceeds linkatSucceeds =>
      obtain ⟨hunlink, rfl⟩ := h
      rcases hunlink with rfl | rfl
      · rfl
      · cases unlinkSucceeds <;> rfl

theorem publish_of_loses (contents : List Written) (h : publication.Loses previous) :
    previous ≠ none ∧ publication.publish previous contents = none := by
  cases publication with
  | rename succeeds => exact h.elim
  | tmpfile unlinkSucceeds linkatSucceeds =>
      obtain ⟨hprevious, rfl, rfl⟩ := h
      exact ⟨hprevious, rfl⟩

theorem publish_of_not (htakes : ¬publication.Takes previous)
    (hloses : ¬publication.Loses previous) :
    publication.publish previous contents = previous.map .previous := by
  cases publication with
  | rename succeeds =>
      cases succeeds with
      | false => rfl
      | true => exact absurd rfl htakes
  | tmpfile unlinkSucceeds linkatSucceeds =>
      cases previous with
      | none =>
          cases linkatSucceeds with
          | false => cases unlinkSucceeds <;> rfl
          | true => exact absurd ⟨Or.inr rfl, rfl⟩ htakes
      | some previous =>
          cases unlinkSucceeds with
          | false => rfl
          | true =>
              cases linkatSucceeds with
              | false => exact absurd ⟨nofun, rfl, rfl⟩ hloses
              | true => exact absurd ⟨Or.inl rfl, rfl⟩ htakes

end Publication

def AllOrNothing (previous : Option Str) (d : FinishedCorpus) (named : Option Named) : Prop :=
  named = previous.map .previous ∨ named = some (.published d.database)

variable {outcomes : Call → Outcome} {publication : Publication} {previous : Option Str}
  {d : FinishedCorpus}

theorem allOk_blockCalls_iff (num : ℕ) :
    AllOk outcomes (blockCalls 0 num) ↔ ∀ docid < num, outcomes (.block docid) = .ok := by
  unfold AllOk blockCalls
  simp only [List.forall_mem_map, List.mem_range'_1, Nat.zero_le, Nat.zero_add, true_and]

/-- The file that gets the name is complete if nothing has failed, and only then. -/
theorem writeHeader_writeBody_eq_iff {b : DatabaseBuilder} (h : writeBody outcomes d = some b) :
    b.writeHeader outcomes = d.database ↔ AllOk outcomes d.calls := by
  have hblocks : AllOk outcomes (blockCalls 0 d.blocks.length) := by
    by_contra hfail
    rw [writeBody_eq_none hfail] at h
    cases h
  obtain ⟨b', c, hb, hc, hlags⟩ := lags_writeBody hblocks
  obtain ⟨c', hextends, hsize, hc'⟩ := extends_writeBody d
  have hsections := (extends_writeSections d c').length_le
  rw [h, Option.some.injEq] at hb
  rw [hc, Option.some.injEq] at hc'
  unfold FinishedCorpus.database FinishedCorpus.calls
  rw [hc, hb, allOk_append]
  apply hlags.writeHeader_eq_iff
  rw [hc']
  omega

/-- Replacing the database is all or nothing if a block cannot be written, or if a new file that
gets the name has been written without failures and no failure comes between the two names. -/
theorem finishCorpus_allOrNothing_iff :
    AllOrNothing previous d (finishCorpus outcomes publication previous d) ↔
      (∃ docid < d.blocks.length, outcomes (.block docid) ≠ .ok) ∨
        ¬publication.Loses previous ∧
          (publication.Takes previous → ∀ call ∈ d.calls, outcomes call = .ok) := by
  unfold finishCorpus
  by_cases hblocks : AllOk outcomes (blockCalls 0 d.blocks.length)
  · have hblock : ¬∃ docid < d.blocks.length, outcomes (.block docid) ≠ .ok := by
      rintro ⟨docid, hlt, hfail⟩
      exact hfail ((allOk_blockCalls_iff _).mp hblocks docid hlt)
    obtain ⟨b, c, hb, hc, hlags⟩ := lags_writeBody hblocks
    rw [or_iff_right hblock, hb]
    dsimp only
    unfold AllOrNothing
    by_cases htakes : publication.Takes previous
    · have hloses : ¬publication.Loses previous := by
        intro hloses
        have hnone := (Publication.publish_of_loses [] hloses).2
        rw [Publication.publish_of_takes htakes] at hnone
        cases hnone
      rw [Publication.publish_of_takes htakes, and_iff_right hloses, forall_prop_of_true htakes,
        Option.some.injEq, Named.published.injEq, writeHeader_writeBody_eq_iff hb]
      refine or_iff_right ?_
      cases previous <;> nofun
    · by_cases hloses : publication.Loses previous
      · obtain ⟨hprevious, hnone⟩ :=
          Publication.publish_of_loses (b.writeHeader outcomes) hloses
        rw [hnone]
        refine iff_of_false ?_ fun h => h.1 hloses
        rintro (hmap | hsome)
        · exact hprevious (Option.map_eq_none_iff.mp hmap.symm)
        · cases hsome
      · rw [Publication.publish_of_not htakes hloses]
        exact iff_of_true (Or.inl rfl) ⟨hloses, fun h => absurd h htakes⟩
  · rw [writeBody_eq_none hblocks]
    refine iff_of_true (Or.inl rfl) (Or.inl ?_)
    rw [allOk_blockCalls_iff] at hblocks
    simpa using hblocks

/-- The disk is full when the buffer is emptied for the last time. -/
def diskFull (call : Call) : Outcome := if call = .flush then .fail 0 else .ok

theorem not_allOrNothing_diskFull :
    ¬AllOrNothing (some [1]) smallCorpus
      (finishCorpus diskFull (.rename true) (some [1]) smallCorpus) := by
  have hblocks : AllOk diskFull (blockCalls 0 smallCorpus.blocks.length) :=
    allOk_singleton.mpr rfl
  obtain ⟨b, c, hb, hc, hlags⟩ := lags_writeBody hblocks
  unfold finishCorpus
  rw [hb]
  rintro (h | h)
  · cases h
  · have hok := (writeHeader_writeBody_eq_iff hb).mp (Named.published.inj (Option.some.inj h))
    have hflush := hok .flush (by decide)
    cases hflush

end Flocate
