import Flocate.RejectedDatabase

/-!
# What is allocated for a damaged database

`ExistingDB` reads the sections of a file through buffers whose sizes come from the header and the
filename index. A block has the length that the difference of two entries gives modulo `2^64`, and
nothing is compared with the length of the file. The reader gets to a block if it can read the ones
before it and has found a directory time for every filename in them.
-/

namespace Flocate

open Bytes

variable {σ : Type}

namespace ExistingDB

/-- A buffer and the range of the file that is read into it. -/
structure Allocation where
  size : ℕ
  start : UInt64
  stop : UInt64
deriving DecidableEq

def indexEntry (file : Str) (hdr : DatabaseHeader) (docid : UInt32) : Option (UInt64 × UInt64) :=
  (tryCompletePread file 16
    (hdr.filenameIndexOffsetBytes + docid.toUInt64 * 8).toNat).map fun vals =>
      (getU64 vals, getU64 (vals.drop 8))

def blockAllocation (vals : UInt64 × UInt64) : Allocation where
  size := (vals.2 - vals.1).toNat
  start := vals.1
  stop := vals.2

def compressedBlock (file : Str) (hdr : DatabaseHeader) (docid : ℕ) : Option Str :=
  (indexEntry file hdr (UInt32.ofNat docid)).bind fun vals =>
    tryCompletePread file (vals.2 - vals.1).toNat vals.1.toNat

/-- That many blocks from a docid on, up to the first that cannot be read. -/
def blocksFrom (file : Str) (hdr : DatabaseHeader) : ℕ → ℕ → List Str
  | 0, _ => []
  | n + 1, docid =>
      match compressedBlock file hdr docid with
      | none => []
      | some block => block :: blocksFrom file hdr n (docid + 1)

/-- What is read of a section in pieces of 4096 bytes; the first one that is not in the file ends
the reading. -/
def piecesInside (file : Str) (offset length : UInt64) : Str :=
  if offset.toNat + length.toNat ≤ file.length then (file.drop offset.toNat).take length.toNat
  else (file.drop offset.toNat).take ((file.length - offset.toNat) / 4096 * 4096)

/-- What `read_next` can get at. The metadata end at the sum of two fields, which wraps around. -/
def databaseOf (file : Str) (hdr : DatabaseHeader) : Database where
  numDocids := hdr.numDocids
  filenameBlocks := blocksFrom file hdr hdr.numDocids.toNat 0
  directoryData := piecesInside file hdr.directoryDataOffsetBytes hdr.directoryDataLengthBytes
  metadata :=
    if hdr.metadataOffsetBytes + hdr.metadataLengthBytes < hdr.metadataOffsetBytes then []
    else piecesInside file hdr.metadataOffsetBytes hdr.metadataLengthBytes

/-- The states of the reader in a run of `scan`, which calls `read_next` and hands back records. -/
inductive Reached (zstd : Zstd σ) (db : Database) : ExistingDB σ → Prop
  | start : Reached zstd db (ofDatabase zstd db)
  | next {s s' : ExistingDB σ} {fuel : ℕ} {path : Str} {dt : DirTime} (hs : Reached zstd db s)
      (h : readNext zstd db fuel s = some (s', path, dt)) : Reached zstd db s'
  | unread {s : ExistingDB σ} (record : Str × DirTime) (hs : Reached zstd db s) :
      Reached zstd db (s.unread record)

/-- What `read_next` allocates in a state, if it has to go on to the next block. -/
def nextAllocation (file : Str) (hdr : DatabaseHeader) (s : ExistingDB σ) : Option Allocation :=
  if s.unreadRecord.1 ≠ [] ∨ (s.eof || s.error) ∨ s.currentFilename ≠ [] ∨
      hdr.numDocids ≤ s.currentDocid then none
  else (indexEntry file hdr s.currentDocid).map blockAllocation

def historyAllocation (hdr : DatabaseHeader) : Option Allocation :=
  if hdr.historyLengthBytes = 0 then none
  else some {
    size := hdr.historyLengthBytes.toNat
    start := hdr.historyOffsetBytes
    stop := hdr.historyOffsetBytes + hdr.historyLengthBytes }

def Allocation.Inside (a : Allocation) (length : ℕ) : Prop :=
  a.start ≤ a.stop ∧ a.stop.toNat ≤ length

/-- Whatever is allocated is for a range of the file, and not larger than the file. -/
def AllocatesInside (zstd : Zstd σ) (file : Str) (hdr : DatabaseHeader) : Prop :=
  ∀ s, Reached zstd (databaseOf file hdr) s → ∀ a,
    nextAllocation file hdr s = some a ∨ historyAllocation hdr = some a →
      a.size ≤ file.length ∧ a.Inside file.length

def blockAt (zstd : Zstd σ) (file : Str) (hdr : DatabaseHeader) (docid : ℕ) : Option Str :=
  (compressedBlock file hdr docid).bind (readFilenameBlock zstd)

/-- The number of filenames before a docid; nothing if one of these blocks cannot be read. -/
def namesBefore (zstd : Zstd σ) (file : Str) (hdr : DatabaseHeader) : ℕ → Option ℕ
  | 0 => some 0
  | docid + 1 => do
      let names ← namesBefore zstd file hdr docid
      let block ← blockAt zstd file hdr docid
      some (names + block.count 0)

/-- The stream of directory times after that many of them have been found and used. -/
inductive TimesRead (zstd : Zstd σ) (db : Database) : ℕ → Inflow σ → Prop
  | zero : TimesRead zstd db 0 { ctx := zstd.stream.init }
  | succ {n fuel : ℕ} {s s' : Inflow σ} (hs : TimesRead zstd db n s)
      (h : refillDirTime zstd db fuel s = some (s', true)) : TimesRead zstd db (n + 1)
        (s'.consume (if s'.block.head? ≠ some 0 then dirRecordBytes else 1))

/-- The entries that the reader gets to and the history are in the file. -/
structure IndexInside (zstd : Zstd σ) (file : Str) (hdr : DatabaseHeader) : Prop where
  blocks : ∀ docid < hdr.numDocids, ∀ names,
    namesBefore zstd file hdr docid.toNat = some names →
      (∃ s, TimesRead zstd (databaseOf file hdr) names s) → ∀ vals,
        indexEntry file hdr docid = some vals → vals.1 ≤ vals.2 ∧ vals.2.toNat ≤ file.length
  history : hdr.historyLengthBytes = 0 ∨
    SectionInside (some file) hdr.historyOffsetBytes hdr.historyLengthBytes

section Rounds

variable (zstd : Zstd σ) {db : Database} {fuel : ℕ}

theorem refillMetadataBlock_total {s : Inflow σ} (hfuel : db.metadata.length - s.pos < fuel) :
    ∃ s' found, refillMetadataBlock zstd db fuel s = some (s', found) ∧
      (found = true → s.block.length < s'.block.length) := by
  induction fuel generalizing s with
  | zero => exact absurd hfuel (Nat.not_lt_zero _)
  | succ fuel ih =>
      rw [refillMetadataBlock]
      split
      · exact ⟨s, false, rfl, fun h => absurd h Bool.false_ne_true⟩
      · rename_i consumed out ctx _
        dsimp only
        split
        · rename_i hout
          refine ⟨_, true, rfl, fun _ => ?_⟩
          have hpos := List.length_pos_iff.mpr hout
          rw [Inflow.decoded, List.length_append]
          omega
        · rename_i hout
          rw [not_not] at hout
          split
          · exact ⟨_, false, rfl, fun h => absurd h Bool.false_ne_true⟩
          · rename_i hpos
            change ¬db.metadata.length ≤ s.pos at hpos
            obtain ⟨s', found, hrefill, hmore⟩ := @ih ((s.decoded consumed out ctx).read db.metadata
              (min 4096 (db.metadata.length - (s.decoded consumed out ctx).pos))) (by
                change db.metadata.length - (s.pos + min 4096 (db.metadata.length - s.pos)) < fuel
                omega)
            refine ⟨s', found, hrefill, fun hfound => ?_⟩
            have hmore' := hmore hfound
            change (s.block ++ out).length < s'.block.length at hmore'
            rwa [hout, List.append_nil] at hmore'

theorem ensureMetadataBytes_total (need : ℕ) {s : Inflow σ}
    (hfuel : need - s.block.length + db.metadata.length < fuel) :
    ∃ s' found, ensureMetadataBytes zstd db need fuel s = some (s', found) := by
  induction fuel generalizing s with
  | zero => exact absurd hfuel (Nat.not_lt_zero _)
  | succ fuel ih =>
      rw [ensureMetadataBytes]
      split
      · exact ⟨s, true, rfl⟩
      · rename_i hneed
        have hrounds : db.metadata.length - s.pos < fuel := by omega
        obtain ⟨s', found, hrefill, hmore⟩ := refillMetadataBlock_total zstd hrounds
        rw [hrefill]
        cases found with
        | false => exact ⟨s', false, rfl⟩
        | true =>
            have hmore' := hmore rfl
            exact ih (by omega)

/-- More rounds than there are bytes of metadata, and bytes in a record. -/
def metadataRounds (db : Database) : ℕ :=
  1 + metadataRecordFixedBytes + 2 + 256 + db.metadata.length

theorem bufferMetadataRecord_total (hfuel : metadataRounds db ≤ fuel) (s : Inflow σ) :
    ∃ s' found, bufferMetadataRecord zstd db fuel s = some (s', found) := by
  have hensure (need : ℕ) (hneed : need < 1 + metadataRecordFixedBytes + 2 + 256) (s : Inflow σ) :
      ∃ s' found, ensureMetadataBytes zstd db need fuel s = some (s', found) := by
    apply ensureMetadataBytes_total
    rw [metadataRounds] at hfuel
    omega
  rw [bufferMetadataRecord]
  obtain ⟨s₁, found₁, h₁⟩ := hensure 1 (by omega) s
  simp only [h₁, Option.bind_eq_bind, Option.bind_some]
  split
  · exact ⟨_, _, rfl⟩
  · obtain ⟨s₂, found₂, h₂⟩ := hensure (1 + metadataRecordFixedBytes + 2) (by omega) s₁
    simp only [h₂, Option.bind_some]
    split
    · exact ⟨_, _, rfl⟩
    · apply hensure
      have hlt := (s₂.block.getD (1 + metadataRecordFixedBytes + 2 - 1) 0).toNat_lt
      omega

/-- Whatever the metadata are, their next record is read or given up. -/
theorem readNextMetadataRecord_total (hfuel : metadataRounds db ≤ fuel) (s : ExistingDB σ) :
    ∃ s', readNextMetadataRecord zstd db fuel s = some s' := by
  rw [readNextMetadataRecord]
  dsimp only
  split
  · exact ⟨_, rfl⟩
  · obtain ⟨s', found, hbuffer⟩ := bufferMetadataRecord_total zstd hfuel s.metadata
    simp only [hbuffer, Option.bind_eq_bind, Option.bind_some]
    split
    · exact ⟨_, rfl⟩
    · split
      · exact ⟨_, rfl⟩
      · exact ⟨_, rfl⟩

theorem takeRecord_total (hfuel : metadataRounds db ≤ fuel) (s : ExistingDB σ) :
    ∃ s' path dt, takeRecord zstd db fuel s = some (s', path, dt) := by
  rw [takeRecord]
  dsimp only
  split
  · obtain ⟨s', hs'⟩ := readNextMetadataRecord_total zstd hfuel
      { s with
        currentFilename := s.currentFilename.drop
          ((s.currentFilename.takeWhile (· ≠ 0)).length + 1)
        dirTime := s.dirTime.consume
          (if s.dirTime.block.head? ≠ some 0 then dirRecordBytes else 1) }
    rw [hs']
    exact ⟨s', _, _, rfl⟩
  · exact ⟨_, _, _, rfl⟩

variable {zstd} in
theorem refillDirTime_mono {fuel' : ℕ} (hle : fuel ≤ fuel') {s : Inflow σ} {r : Inflow σ × Bool}
    (h : refillDirTime zstd db fuel s = some r) : refillDirTime zstd db fuel' s = some r := by
  induction fuel generalizing fuel' s with
  | zero => cases h
  | succ fuel ih =>
      obtain ⟨fuel', rfl⟩ : ∃ n, fuel' = n + 1 := ⟨fuel' - 1, by omega⟩
      rw [refillDirTime] at h ⊢
      split
      · rename_i hshort
        rw [if_pos hshort] at h
        split
        · rename_i hcall
          rwa [hcall] at h
        · rename_i consumed out ctx hcall
          simp only [hcall] at h
          dsimp only
          split
          · rename_i hidle
            rw [if_pos hidle] at h
            split
            · rename_i hend
              rwa [if_pos hend] at h
            · rename_i hend
              rw [if_neg hend] at h
              exact ih (by omega) h
          · rename_i hidle
            rw [if_neg hidle] at h
            exact ih (by omega) h
      · rename_i hshort
        rwa [if_neg hshort] at h

end Rounds

section Damaged

variable {zstd : Zstd σ} {file : Str} {hdr : DatabaseHeader} {n fuel : ℕ} {s s' : ExistingDB σ}

theorem getElem?_blocksFrom {docid k : ℕ} (hk : k < n)
    (h : ∀ i < k, compressedBlock file hdr (docid + i) ≠ none) :
    (blocksFrom file hdr n docid)[k]? = compressedBlock file hdr (docid + k) := by
  induction n generalizing docid k with
  | zero => exact absurd hk (Nat.not_lt_zero k)
  | succ n ih =>
      rw [blocksFrom]
      cases k with
      | zero =>
          change _ = compressedBlock file hdr docid
          split
          · rename_i hnone
            rw [hnone]
            rfl
          · rename_i block hblock
            rw [hblock]
            rfl
      | succ k =>
          split
          · rename_i hnone
            exact absurd hnone (h 0 (Nat.succ_pos k))
          · rw [List.getElem?_cons_succ, ih (by omega) fun i hi => ?_]
            · congr 1
              omega
            · have hne := h (i + 1) (by omega)
              rwa [show docid + (i + 1) = docid + 1 + i by omega] at hne

theorem namesBefore_succ {docid names : ℕ} :
    namesBefore zstd file hdr (docid + 1) = some names ↔ ∃ before block,
      namesBefore zstd file hdr docid = some before ∧ blockAt zstd file hdr docid = some block ∧
        names = before + block.count 0 := by
  simp only [namesBefore, Option.bind_eq_bind, Option.bind_eq_some_iff, Option.some.injEq]
  constructor
  · rintro ⟨before, hbefore, block, hblock, rfl⟩
    exact ⟨before, block, hbefore, hblock, rfl⟩
  · rintro ⟨before, block, hbefore, hblock, rfl⟩
    exact ⟨before, hbefore, block, hblock, rfl⟩

/-- All blocks before a docid are read if those before a later one are. -/
theorem exists_namesBefore {docid names i : ℕ} (h : namesBefore zstd file hdr docid = some names)
    (hi : i ≤ docid) : ∃ before ≤ names, namesBefore zstd file hdr i = some before := by
  induction docid generalizing names with
  | zero =>
      obtain rfl := Nat.le_zero.mp hi
      exact ⟨names, le_rfl, h⟩
  | succ docid ih =>
      rcases Nat.lt_or_eq_of_le hi with hlt | rfl
      · obtain ⟨between, block, hbetween, -, rfl⟩ := namesBefore_succ.mp h
        obtain ⟨before, hle, hbefore⟩ := ih hbetween (Nat.le_of_lt_succ hlt)
        exact ⟨before, hle.trans (Nat.le_add_right _ _), hbefore⟩
      · exact ⟨names, le_rfl, h⟩

theorem compressedBlock_ne_none {docid names i : ℕ}
    (h : namesBefore zstd file hdr docid = some names) (hi : i < docid) :
    compressedBlock file hdr i ≠ none := by
  obtain ⟨_, -, hnames⟩ := exists_namesBefore h (Nat.succ_le_of_lt hi)
  obtain ⟨_, block, -, hblock, -⟩ := namesBefore_succ.mp hnames
  rw [blockAt] at hblock
  obtain ⟨compressed, hcompressed, -⟩ := Option.bind_eq_some_iff.mp hblock
  exact hcompressed ▸ Option.some_ne_none compressed

/-- The reader comes to the blocks in order. -/
theorem blockAt_eq {docid names : ℕ} (h : namesBefore zstd file hdr docid = some names)
    (hdocid : docid < hdr.numDocids.toNat) :
    (databaseOf file hdr).filenameBlocks[docid]?.bind (readFilenameBlock zstd) =
      blockAt zstd file hdr docid := by
  have hbefore : ∀ i < docid, compressedBlock file hdr (0 + i) ≠ none := fun i hi =>
    (Nat.zero_add i).symm ▸ compressedBlock_ne_none h hi
  have hget := getElem?_blocksFrom hdocid hbefore
  rw [Nat.zero_add] at hget
  rw [blockAt, ← hget]
  rfl

theorem getLast?_readFilenameBlock {compressed block : Str}
    (h : readFilenameBlock zstd compressed = some block) : block.getLast? = some 0 := by
  simp only [readFilenameBlock, Option.bind_eq_bind, Option.bind_eq_some_iff,
    Option.some.injEq] at h
  obtain ⟨len, -, out, -, rfl⟩ := h
  rw [List.getLast?_append_of_ne_nil _ (List.cons_ne_nil 0 [])]
  rfl

/-- A filename is taken off up to its zero byte. -/
theorem count_drop_takeWhile {l : Str} (h : l.getLast? = some 0) :
    l.count 0 = (l.drop ((l.takeWhile (· ≠ 0)).length + 1)).count 0 + 1 ∧
      (l.drop ((l.takeWhile (· ≠ 0)).length + 1) = [] ∨
        (l.drop ((l.takeWhile (· ≠ 0)).length + 1)).getLast? = some 0) := by
  obtain ⟨name, rest, rfl, hname⟩ := List.eq_append_cons_of_mem (List.mem_of_getLast? h)
  have hrest : (name ++ 0 :: rest).drop (name.length + 1) = rest := by
    rw [List.drop_append, List.drop_of_length_le (Nat.le_succ _), Nat.add_sub_cancel_left]
    rfl
  rw [takeWhile_append_nul hname, hrest, List.count_append, List.count_eq_zero_of_not_mem hname,
    Nat.zero_add, List.count_cons_self]
  refine ⟨rfl, ?_⟩
  cases rest with
  | nil => exact Or.inl rfl
  | cons c rest =>
      rw [List.getLast?_append_of_ne_nil _ (List.cons_ne_nil _ _), List.getLast?_cons_cons] at h
      exact Or.inr h

/-- The reader, after it has returned that many records. -/
structure StandsAfter (zstd : Zstd σ) (file : Str) (hdr : DatabaseHeader) (n : ℕ)
    (s : ExistingDB σ) : Prop where
  running : (s.eof || s.error) = false
  docid : s.currentDocid ≤ hdr.numDocids
  names : namesBefore zstd file hdr s.currentDocid.toNat = some (n + s.currentFilename.count 0)
  terminated : s.currentFilename = [] ∨ s.currentFilename.getLast? = some 0
  times : TimesRead zstd (databaseOf file hdr) n s.dirTime
  begun : ∀ docid < s.currentDocid.toNat, ∀ names,
    namesBefore zstd file hdr docid = some names → names < n

/-- The reader with a filename at hand, after it has returned that many records. -/
structure Opened (zstd : Zstd σ) (file : Str) (hdr : DatabaseHeader) (n : ℕ)
    (s : ExistingDB σ) : Prop where
  running : (s.eof || s.error) = false
  docid : s.currentDocid ≤ hdr.numDocids
  names : namesBefore zstd file hdr s.currentDocid.toNat = some (n + s.currentFilename.count 0)
  terminated : s.currentFilename.getLast? = some 0
  times : TimesRead zstd (databaseOf file hdr) n s.dirTime
  begun : ∀ docid < s.currentDocid.toNat, ∀ names,
    namesBefore zstd file hdr docid = some names → names ≤ n

theorem StandsAfter.opened_of_filename (h : StandsAfter zstd file hdr n s)
    (hname : s.currentFilename ≠ []) : Opened zstd file hdr n s where
  running := h.running
  docid := h.docid
  names := h.names
  terminated := h.terminated.resolve_left hname
  times := h.times
  begun docid hdocid names hnames := (h.begun docid hdocid names hnames).le

theorem StandsAfter.names_of_nil (h : StandsAfter zstd file hdr n s)
    (hname : s.currentFilename = []) :
    namesBefore zstd file hdr s.currentDocid.toNat = some n := by
  rw [h.names, hname]
  rfl

theorem StandsAfter.opened_of_block (h : StandsAfter zstd file hdr n s)
    (hname : s.currentFilename = []) (hdocid : s.currentDocid < hdr.numDocids) {block : Str}
    (hblock : blockAt zstd file hdr s.currentDocid.toNat = some block) :
    Opened zstd file hdr n
      { s with currentFilename := block, currentDocid := s.currentDocid + 1 } := by
  have hbefore := h.names_of_nil hname
  have hsucc : (s.currentDocid + 1).toNat = s.currentDocid.toNat + 1 := by
    have hbound := hdr.numDocids.toNat_lt
    rw [UInt32.lt_iff_toNat_lt] at hdocid
    rw [UInt32.toNat_add]
    change (_ + 1) % _ = _
    omega
  obtain ⟨compressed, -, hdecoded⟩ := Option.bind_eq_some_iff.mp hblock
  refine ⟨h.running, ?_, ?_, getLast?_readFilenameBlock hdecoded, h.times, ?_⟩
  · rw [UInt32.lt_iff_toNat_lt] at hdocid
    rw [UInt32.le_iff_toNat_le, hsucc]
    exact hdocid
  · change namesBefore zstd file hdr (s.currentDocid + 1).toNat = some (n + block.count 0)
    rw [hsucc]
    exact namesBefore_succ.mpr ⟨n, block, hbefore, hblock, rfl⟩
  · intro docid hlt names hnames
    change docid < (s.currentDocid + 1).toNat at hlt
    rw [hsucc] at hlt
    rcases Nat.lt_or_eq_of_le (Nat.le_of_lt_succ hlt) with hlt | rfl
    · exact (h.begun docid hlt names hnames).le
    · exact (Option.some.inj (hnames.symm.trans hbefore)).le

/-- What there is to read before the next record is the block that the reader stands before. -/
theorem StandsAfter.nextFilenameBlock (h : StandsAfter zstd file hdr n s) :
    (∃ s', s.nextFilenameBlock zstd (databaseOf file hdr) = .ok s' ∧
        s'.dirTime = s.dirTime ∧ s'.unreadRecord = s.unreadRecord ∧ Opened zstd file hdr n s') ∨
      (∃ s', s.nextFilenameBlock zstd (databaseOf file hdr) = .error s' ∧
          (s'.eof || s'.error) = true) ∧ s.currentFilename = [] ∧
        (s.currentDocid < hdr.numDocids →
          blockAt zstd file hdr s.currentDocid.toNat = none) := by
  rw [ExistingDB.nextFilenameBlock]
  by_cases hname : s.currentFilename = []
  · rw [if_neg (not_not_intro hname)]
    by_cases hend : hdr.numDocids ≤ s.currentDocid
    · refine Or.inr ⟨⟨{ s with eof := true }, if_pos hend, rfl⟩, hname, fun hlt => ?_⟩
      exact absurd hend (UInt32.not_le.mpr hlt)
    · have hlt := UInt32.not_le.mp hend
      have hblock := blockAt_eq (h.names_of_nil hname) (UInt32.lt_iff_toNat_lt.mp hlt)
      rw [if_neg (show ¬(databaseOf file hdr).numDocids ≤ s.currentDocid from hend), hblock]
      cases hat : blockAt zstd file hdr s.currentDocid.toNat with
      | none =>
          refine Or.inr ⟨⟨_, rfl, ?_⟩, hname, fun _ => rfl⟩
          exact Bool.or_true _
      | some block => exact Or.inl ⟨_, rfl, rfl, rfl, h.opened_of_block hname hlt hat⟩
  · rw [if_pos hname]
    exact Or.inl ⟨s, rfl, rfl, rfl, h.opened_of_filename hname⟩

theorem readNextMetadataRecord_frame {zstd : Zstd σ} {db : Database}
    (h : readNextMetadataRecord zstd db fuel s = some s') :
    s'.eof = s.eof ∧ s'.error = s.error ∧ s'.unreadRecord = s.unreadRecord ∧
      s'.currentDocid = s.currentDocid ∧ s'.currentFilename = s.currentFilename ∧
      s'.dirTime = s.dirTime := by
  rw [readNextMetadataRecord] at h
  dsimp only at h
  split at h
  · obtain rfl := Option.some.inj h
    exact ⟨rfl, rfl, rfl, rfl, rfl, rfl⟩
  · obtain ⟨⟨metadata, found⟩, -, h⟩ := Option.bind_eq_some_iff.mp h
    dsimp only at h
    split at h
    · obtain rfl := Option.some.inj h
      exact ⟨rfl, rfl, rfl, rfl, rfl, rfl⟩
    · split at h
      all_goals
        obtain rfl := Option.some.inj h
        exact ⟨rfl, rfl, rfl, rfl, rfl, rfl⟩

/-- A record takes a filename and a directory time. -/
theorem Opened.takeRecord (h : Opened zstd file hdr n s) {dirTime : Inflow σ} {round : ℕ}
    (hrefill : refillDirTime zstd (databaseOf file hdr) round s.dirTime = some (dirTime, true))
    {path : Str} {dt : DirTime}
    (htake : takeRecord zstd (databaseOf file hdr) fuel { s with dirTime := dirTime } =
      some (s', path, dt)) :
    StandsAfter zstd file hdr (n + 1) s' ∧ s'.unreadRecord = s.unreadRecord ∧
      s'.dirTime =
        dirTime.consume (if dirTime.block.head? ≠ some 0 then dirRecordBytes else 1) := by
  have hframe : s'.eof = s.eof ∧ s'.error = s.error ∧ s'.unreadRecord = s.unreadRecord ∧
      s'.currentDocid = s.currentDocid ∧
      s'.currentFilename =
        s.currentFilename.drop ((s.currentFilename.takeWhile (· ≠ 0)).length + 1) ∧
      s'.dirTime =
        dirTime.consume (if dirTime.block.head? ≠ some 0 then dirRecordBytes else 1) := by
    rw [ExistingDB.takeRecord] at htake
    dsimp only at htake
    split at htake
    · obtain ⟨s₁, hmetadata, heq⟩ := Option.bind_eq_some_iff.mp htake
      obtain ⟨rfl, -⟩ := Prod.mk.inj (Option.some.inj heq)
      exact readNextMetadataRecord_frame hmetadata
    · obtain ⟨rfl, -⟩ := Prod.mk.inj (Option.some.inj htake)
      exact ⟨rfl, rfl, rfl, rfl, rfl, rfl⟩
  obtain ⟨heof, herror, hunread, hdocid, hfilename, hdirTime⟩ := hframe
  obtain ⟨hcount, hterminated⟩ := count_drop_takeWhile h.terminated
  refine ⟨⟨?_, ?_, ?_, ?_, ?_, ?_⟩, hunread, hdirTime⟩
  · rw [heof, herror]
    exact h.running
  · rw [hdocid]
    exact h.docid
  · rw [hdocid, h.names, hcount, hfilename]
    congr 1
    omega
  · rw [hfilename]
    exact hterminated
  · rw [hdirTime]
    exact h.times.succ hrefill
  · intro docid hlt names hnames
    rw [hdocid] at hlt
    exact Nat.lt_succ_of_le (h.begun docid hlt names hnames)

theorem standsAfter_start :
    StandsAfter zstd file hdr 0 (ofDatabase zstd (databaseOf file hdr)) where
  running := rfl
  docid := UInt32.zero_le
  names := rfl
  terminated := Or.inl rfl
  times := .zero
  begun docid hlt := absurd hlt (Nat.not_lt_zero docid)

/-- Unless it has come to an end, the reader has returned a record for every filename up to where it
stands. -/
theorem Reached.standsAfter (h : Reached zstd (databaseOf file hdr) s) :
    (s.eof || s.error) = true ∨ ∃ n, StandsAfter zstd file hdr n s := by
  induction h with
  | start => exact Or.inr ⟨0, standsAfter_start⟩
  | unread record hs ih =>
      refine ih.imp id ?_
      rintro ⟨n, h⟩
      exact ⟨n, h.running, h.docid, h.names, h.terminated, h.times, h.begun⟩
  | @next s s' fuel path dt hs h ih =>
      rw [readNext] at h
      split at h
      · obtain ⟨rfl, -⟩ := Prod.mk.inj (Option.some.inj h)
        refine ih.imp id ?_
        rintro ⟨n, h⟩
        exact ⟨n, h.running, h.docid, h.names, h.terminated, h.times, h.begun⟩
      · split at h
        · obtain ⟨rfl, -⟩ := Prod.mk.inj (Option.some.inj h)
          exact ih
        · rename_i hrunning
          obtain ⟨n, hstands⟩ := ih.resolve_left hrunning
          rcases hstands.nextFilenameBlock with
            ⟨s₁, hopen, hdirTime, -, hopened⟩ | ⟨⟨s₁, hend, hstop⟩, -, -⟩
          · rw [hopen] at h
            obtain ⟨⟨dirTime, found⟩, hrefill, h⟩ := Option.bind_eq_some_iff.mp h
            dsimp only at h
            split at h
            · obtain ⟨rfl, -⟩ := Prod.mk.inj (Option.some.inj h)
              exact Or.inl (Bool.or_true _)
            · rename_i hfound
              rw [Bool.not_eq_true', Bool.not_eq_false] at hfound
              subst hfound
              exact Or.inr ⟨n + 1, (hopened.takeRecord hrefill h).1⟩
          · rw [hend] at h
            obtain ⟨rfl, -⟩ := Prod.mk.inj (Option.some.inj h)
            exact Or.inl hstop

/-- The reader gets to every record before which the blocks can be read and the directory times
suffice. -/
theorem TimesRead.exists_reached {docid total : ℕ}
    (htotal : namesBefore zstd file hdr docid = some total) (hdocid : docid ≤ hdr.numDocids.toNat)
    {dirTime : Inflow σ} (h : TimesRead zstd (databaseOf file hdr) n dirTime) (hn : n ≤ total) :
    ∃ s, Reached zstd (databaseOf file hdr) s ∧ s.unreadRecord.1 = [] ∧ s.dirTime = dirTime ∧
      StandsAfter zstd file hdr n s := by
  induction h with
  | zero => exact ⟨_, .start, rfl, rfl, standsAfter_start⟩
  | @succ n round dirTime dirTime' htimes hrefill ih =>
      obtain ⟨s, hreached, hunread, rfl, hstands⟩ := ih (by omega)
      have hopen : ∃ s₁, s.nextFilenameBlock zstd (databaseOf file hdr) = .ok s₁ ∧
          s₁.dirTime = s.dirTime ∧ s₁.unreadRecord = s.unreadRecord ∧
          Opened zstd file hdr n s₁ := by
        refine hstands.nextFilenameBlock.resolve_right ?_
        rintro ⟨-, hname, hnone⟩
        have hbefore := hstands.names_of_nil hname
        have hlt : s.currentDocid.toNat < docid := by
          by_contra hle
          obtain ⟨names, hle', hnames⟩ := exists_namesBefore hbefore (not_lt.mp hle)
          rw [htotal] at hnames
          obtain rfl := Option.some.inj hnames
          omega
        obtain ⟨_, -, hnames⟩ := exists_namesBefore htotal (Nat.succ_le_of_lt hlt)
        obtain ⟨_, block, -, hblock, -⟩ := namesBefore_succ.mp hnames
        rw [hnone (UInt32.lt_iff_toNat_lt.mpr (by omega))] at hblock
        cases hblock
      obtain ⟨s₁, hopen, hdirTime, hunread₁, hopened⟩ := hopen
      have hrefill' : refillDirTime zstd (databaseOf file hdr)
          (max round (metadataRounds (databaseOf file hdr))) s₁.dirTime =
            some (dirTime', true) := by
        rw [hdirTime]
        exact refillDirTime_mono (le_max_left _ _) hrefill
      obtain ⟨s', path, dt, htake⟩ := takeRecord_total zstd (le_max_right round _)
        { s₁ with dirTime := dirTime' }
      obtain ⟨hstands', hunread', hdirTime'⟩ := hopened.takeRecord hrefill' htake
      have hread : readNext zstd (databaseOf file hdr)
          (max round (metadataRounds (databaseOf file hdr))) s = some (s', path, dt) := by
        rw [readNext, if_neg (not_not_intro hunread), hstands.running, hopen]
        change (refillDirTime zstd (databaseOf file hdr) _ s₁.dirTime).bind _ = _
        rw [hrefill']
        exact htake
      refine ⟨s', hreached.next hread, ?_, hdirTime', hstands'⟩
      rw [hunread', hunread₁]
      exact hunread

theorem size_le_of_inside {start stop : UInt64} {length : ℕ} (hle : start ≤ stop)
    (hstop : stop.toNat ≤ length) : (stop - start).toNat ≤ length := by
  rw [UInt64.toNat_sub_of_le _ _ hle]
  omega

/-- The sum of the header's fields is behind the offset exactly if it does not wrap around. -/
theorem historyRange_inside (hlength : hdr.historyLengthBytes ≠ 0) :
    (hdr.historyOffsetBytes ≤ hdr.historyOffsetBytes + hdr.historyLengthBytes ∧
        (hdr.historyOffsetBytes + hdr.historyLengthBytes).toNat ≤ file.length) ↔
      hdr.historyOffsetBytes.toNat + hdr.historyLengthBytes.toNat ≤ file.length ∧
        hdr.historyOffsetBytes.toNat + hdr.historyLengthBytes.toNat < 2 ^ 64 := by
  have hne : hdr.historyLengthBytes.toNat ≠ 0 := fun h => hlength (UInt64.toNat_inj.mp h)
  have hoffset := hdr.historyOffsetBytes.toNat_lt
  have hlt := hdr.historyLengthBytes.toNat_lt
  rw [UInt64.le_iff_toNat_le, UInt64.toNat_add]
  omega

/-- Where the reader stands before a block, it has found all directory times up to there. -/
theorem StandsAfter.exists_times (h : StandsAfter zstd file hdr n s)
    (hname : s.currentFilename = []) : ∃ names,
      namesBefore zstd file hdr s.currentDocid.toNat = some names ∧
        ∃ dirTime, TimesRead zstd (databaseOf file hdr) names dirTime :=
  ⟨n, h.names_of_nil hname, s.dirTime, h.times⟩

/-- The reader comes to stand before a block. -/
theorem exists_reached_before {docid : UInt32} (hdocid : docid < hdr.numDocids) {names : ℕ}
    (hnames : namesBefore zstd file hdr docid.toNat = some names) {dirTime : Inflow σ}
    (htimes : TimesRead zstd (databaseOf file hdr) names dirTime) :
    ∃ s, Reached zstd (databaseOf file hdr) s ∧ s.unreadRecord.1 = [] ∧
      (s.eof || s.error) = false ∧ s.currentFilename = [] ∧ s.currentDocid = docid := by
  have hlt := UInt32.lt_iff_toNat_lt.mp hdocid
  obtain ⟨s, hreached, hunread, -, hstands⟩ := htimes.exists_reached hnames hlt.le le_rfl
  -- Behind this block the count of records would have to be larger, and before it smaller.
  have hle : s.currentDocid.toNat ≤ docid.toNat := by
    by_contra hgt
    exact lt_irrefl _ (hstands.begun docid.toNat (not_le.mp hgt) names hnames)
  obtain ⟨before, hbefore, hat⟩ := exists_namesBefore hnames hle
  obtain rfl := Option.some.inj (hat.symm.trans hstands.names)
  have hcount : s.currentFilename.count 0 = 0 := by omega
  have hname : s.currentFilename = [] := by
    by_contra hne
    have hlast := hstands.terminated.resolve_left hne
    exact List.count_eq_zero.mp hcount (List.mem_of_getLast? hlast)
  refine ⟨s, hreached, hunread, hstands.running, hname, ?_⟩
  rw [← UInt32.toNat_inj]
  by_contra hne
  obtain ⟨after, hafter, hsucc⟩ := exists_namesBefore hnames (Nat.lt_of_le_of_ne hle hne)
  obtain ⟨_, block, hat', hblock, rfl⟩ := namesBefore_succ.mp hsucc
  obtain rfl := Option.some.inj (hat'.symm.trans (hstands.names_of_nil hname))
  obtain ⟨compressed, -, hdecoded⟩ := Option.bind_eq_some_iff.mp hblock
  have hlast := getLast?_readFilenameBlock hdecoded
  have hpos := List.count_pos_iff.mpr (List.mem_of_getLast? hlast)
  omega

/-- What is allocated is in the file exactly if all entries that the reader gets to and the history
are. -/
theorem allocatesInside_iff (zstd : Zstd σ) (confBlock file : Str) (hdr : DatabaseHeader)
    (_hopen : openDatabase confBlock (some file) = some hdr) (hsize : file.length < 2 ^ 63) :
    AllocatesInside zstd file hdr ↔ IndexInside zstd file hdr := by
  constructor
  · intro h
    refine ⟨fun docid hdocid names hnames ⟨dirTime, htimes⟩ vals hvals => ?_, ?_⟩
    · obtain ⟨s, hreached, hunread, hrunning, hname, rfl⟩ :=
        exists_reached_before hdocid hnames htimes
      have hnext : nextAllocation file hdr s = some (blockAllocation vals) := by
        rw [nextAllocation, if_neg, hvals, Option.map_some]
        simp only [hunread, hrunning, hname, ne_eq, not_true_eq_false, Bool.false_eq_true, false_or]
        exact UInt32.not_le.mpr hdocid
      exact (h s hreached _ (Or.inl hnext)).2
    · by_cases hlength : hdr.historyLengthBytes = 0
      · exact Or.inl hlength
      · obtain ⟨-, hinside⟩ := h _ .start _ (Or.inr (if_neg hlength))
        exact Or.inr ⟨file, rfl, ((historyRange_inside hlength).mp hinside).1⟩
  · intro h s hreached a ha
    rcases ha with ha | ha
    · rw [nextAllocation, Option.ite_none_left_eq_some] at ha
      obtain ⟨hgoes, ha⟩ := ha
      obtain ⟨-, hrunning, hname, hdocid⟩ : _ ∧ _ ∧ _ ∧ _ := by
        simpa only [not_or, not_not] using hgoes
      obtain ⟨vals, hvals, rfl⟩ := Option.map_eq_some_iff.mp ha
      obtain ⟨n, hstands⟩ := hreached.standsAfter.resolve_left hrunning
      obtain ⟨names, hnames, htimes⟩ := hstands.exists_times hname
      obtain ⟨hle, hstop⟩ :=
        h.blocks s.currentDocid (UInt32.not_le.mp hdocid) names hnames htimes vals hvals
      exact ⟨size_le_of_inside hle hstop, hle, hstop⟩
    · rw [historyAllocation, Option.ite_none_left_eq_some] at ha
      obtain ⟨hlength, ha⟩ := ha
      obtain rfl := Option.some.inj ha
      obtain ⟨f, hf, hle⟩ := h.history.resolve_left hlength
      obtain rfl := Option.some.inj hf
      exact ⟨(Nat.le_add_left _ _).trans hle, (historyRange_inside hlength).mpr ⟨hle, by omega⟩⟩

def defaultConfBlock : Str := Conf.genConfBlock {}

/-- The filename index comes right behind the header. -/
def indexedHeader (numDocids : UInt32) : DatabaseHeader :=
  { DatabaseHeader.initial false with
    version := 1
    numDocids
    zstdDictionaryLengthBytes := 0
    zstdDictionaryOffsetBytes := 0
    filenameIndexOffsetBytes := 144
    confBlockLengthBytes := UInt64.ofNat defaultConfBlock.length
    confBlockOffsetBytes := 144 + 8 * (numDocids.toUInt64 + 1) }

def indexedFile (numDocids : UInt32) (index : List UInt64) (blocks : Str) : Str :=
  (indexedHeader numDocids).toBytes ++ index.flatMap putU64 ++ defaultConfBlock ++ blocks

def firstBlock (numDocids : UInt32) : UInt64 :=
  (indexedHeader numDocids).confBlockOffsetBytes + (indexedHeader numDocids).confBlockLengthBytes

/-- A block of one filename, and another one that would end before it starts. There are no directory
times. -/
def shortOfTimes : Str :=
  indexedFile 2 [firstBlock 2, firstBlock 2 + 10, 0] (rawFrame (ascii "/"))

theorem not_refillDirTime_nil {db : Database} (hdb : db.directoryData = []) (fuel : ℕ)
    (s : Inflow ℕ) :
    refillDirTime rawZstd db fuel { ctx := rawZstd.stream.init } ≠ some (s, true) := by
  intro h
  cases fuel with
  | zero => cases h
  | succ fuel =>
      have hcall : rawZstd.stream.call rawZstd.stream.init [] 4096 = some (0, [], 0) := rfl
      rw [refillDirTime, if_pos (Or.inl rfl)] at h
      simp only [hcall, hdb, List.length_nil, Nat.zero_sub, Nat.zero_min, and_self, if_true,
        Option.some.injEq, Prod.mk.injEq, Bool.false_eq_true, and_false] at h

/-- The reader stops before it gets to the second block. -/
theorem allocatesInside_shortOfTimes : AllocatesInside rawZstd shortOfTimes (indexedHeader 2) := by
  refine (allocatesInside_iff rawZstd defaultConfBlock shortOfTimes (indexedHeader 2)
    (by decide +kernel) (by decide +kernel)).mpr ⟨?_, Or.inl rfl⟩
  rintro docid hdocid names hnames ⟨dirTime, htimes⟩ vals hvals
  have hlt : docid.toNat < 2 := UInt32.lt_iff_toNat_lt.mp hdocid
  rcases (by omega : docid.toNat = 0 ∨ docid.toNat = 1) with hzero | hone
  · obtain rfl := UInt32.toNat_inj.mp (hzero.trans (rfl : (0 : UInt32).toNat = 0).symm)
    have hentry : indexEntry shortOfTimes (indexedHeader 2) 0 =
        some (firstBlock 2, firstBlock 2 + 10) := by
      decide +kernel
    obtain rfl := Option.some.inj (hentry.symm.trans hvals)
    exact ⟨by decide +kernel, by decide +kernel⟩
  · have hone' : namesBefore rawZstd shortOfTimes (indexedHeader 2) 1 = some 1 := by
      decide +kernel
    rw [hone, hone'] at hnames
    obtain rfl := Option.some.inj hnames
    have hnone : (databaseOf shortOfTimes (indexedHeader 2)).directoryData = [] := by
      decide +kernel
    cases htimes with
    | succ hs hrefill =>
        cases hs
        exact absurd hrefill (not_refillDirTime_nil hnone _ _)

/-- A block that ends before it starts: the buffer has all bytes that 64 bits can count. -/
theorem not_allocatesInside_indexedFile :
    openDatabase defaultConfBlock (some (indexedFile 1 [1, 0] [])) = some (indexedHeader 1) ∧
      ¬AllocatesInside rawZstd (indexedFile 1 [1, 0] []) (indexedHeader 1) := by
  refine ⟨by decide +kernel, fun h => ?_⟩
  have hnext : nextAllocation (indexedFile 1 [1, 0] []) (indexedHeader 1)
      (ofDatabase rawZstd (databaseOf (indexedFile 1 [1, 0] []) (indexedHeader 1))) =
        some (blockAllocation (1, 0)) := by
    decide +kernel
  exact absurd (h _ .start _ (Or.inl hnext)).2.1 (by decide)

end Damaged

end ExistingDB

end Flocate
