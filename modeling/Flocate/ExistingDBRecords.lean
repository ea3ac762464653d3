import Flocate.ExistingDB
import Flocate.Lib.Blocks
import Mathlib.Data.List.Forall2

/-!
# The records of the old database

`ExistingDB` returns the records that a corpus has received, in order, however the decoder cuts the
streams into pieces.
-/

namespace Flocate

open Bytes

variable {σ : Type} {zstd : Zstd σ} {db : Database}

structure Zstd.LosslessBlock (zstd : Zstd σ) (compressed content : Str) : Prop where
  contentSize : zstd.contentSize compressed = some content.length
  decompress : ∀ room, content.length ≤ room → zstd.decompress compressed room = some content

structure Storable (r : FileRecord) : Prop where
  name : IsName r.path
  hash : r.metadata.hash.length ≤ 32
  dirTimestamp : r.dirTimestamp = notADir ∨ 0 ≤ r.dirTimestamp.sec

def FileRecord.dirTimeBytes (r : FileRecord) : Str := EncodingCorpus.dirTimeRecord r.dirTimestamp

def FileRecord.metadataBytes (r : FileRecord) : Str := encodeMetadataRecord r.metadata

namespace ExistingDB

section Refill

variable {content rest : Str} {R : σ → ℕ → ℕ → Bool → Prop} {s : Inflow σ} {idle : Bool}

/-- Reading the file lets the next call of the decoder have some input. -/
theorem compressed_read_ne_nil {data : Str} {n : ℕ} (hn : 0 < n) (hle : s.pos + n ≤ data.length) :
    (s.read data n).compressed ≠ [] := by
  refine List.ne_nil_of_length_pos ?_
  rw [Inflow.read, List.length_append, List.length_take, List.length_drop]
  omega

theorem refillMetadataBlock_ok (hd : zstd.stream.Keeps db.metadata content R) {fuel : ℕ}
    (h : s.At db.metadata content R rest idle) (hidle : idle = true → s.compressed ≠ [])
    (hmore : s.block.length < rest.length) (hfuel : s.todo db.metadata rest < fuel) :
    ∃ s', refillMetadataBlock zstd db fuel s = some (s', true) ∧
      s'.At db.metadata content R rest false ∧
      s'.todo db.metadata rest < s.todo db.metadata rest := by
  induction fuel generalizing s idle with
  | zero => exact absurd hfuel (Nat.not_lt_zero _)
  | succ fuel ih =>
      obtain ⟨c, out, ctx, hcall, hat, htodo, hend⟩ := h.call hd (by omega : 0 < 4096) hidle
      rw [refillMetadataBlock, hcall]
      dsimp only
      by_cases hout : out = []
      · rw [if_neg (not_not_intro hout)]
        subst hout
        have hpos : (s.decoded c [] ctx).pos < db.metadata.length := by
          by_contra hpos
          exact (hend (Nat.le_antisymm h.pos_le (Nat.le_of_not_lt hpos))).1 hmore rfl
        rw [if_neg (Nat.not_le.mpr hpos)]
        have hn : (s.decoded c [] ctx).pos +
            min 4096 (db.metadata.length - (s.decoded c [] ctx).pos) ≤ db.metadata.length := by
          omega
        obtain ⟨hread, hreadtodo⟩ := hat.read hn
        obtain ⟨s', hs', hat', htodo'⟩ := ih hread
          (fun _ => compressed_read_ne_nil (by omega) hn)
          (by change (s.block ++ []).length < _; rwa [List.append_nil]) (by omega)
        exact ⟨s', hs', hat', by omega⟩
      · rw [if_pos hout]
        rw [decide_eq_false fun hc => hout hc.2] at hat
        have hpos := List.length_pos_iff.mpr hout
        exact ⟨_, rfl, hat, by omega⟩

theorem ensureMetadataBytes_ok (hd : zstd.stream.Keeps db.metadata content R) (need : ℕ)
    {fuel : ℕ} (h : s.At db.metadata content R rest false) (hneed : need ≤ rest.length)
    (hfuel : s.todo db.metadata rest + 1 < fuel) :
    ∃ s', ensureMetadataBytes zstd db need fuel s = some (s', true) ∧
      s'.At db.metadata content R rest false ∧ need ≤ s'.block.length := by
  induction fuel generalizing s with
  | zero => exact absurd hfuel (Nat.not_lt_zero _)
  | succ fuel ih =>
      rw [ensureMetadataBytes]
      by_cases henough : need ≤ s.block.length
      · rw [if_pos henough]
        exact ⟨s, rfl, h, henough⟩
      · obtain ⟨s', hs', hat', htodo⟩ := refillMetadataBlock_ok hd h nofun
          (by omega) (by omega : s.todo db.metadata rest < fuel)
        obtain ⟨s'', hs'', hat'', hfound⟩ := ih hat' (by omega)
        rw [if_neg henough, hs']
        exact ⟨s'', hs'', hat'', hfound⟩

/-- A record is wholly at hand before it is decoded. -/
theorem bufferMetadataRecord_ok (hd : zstd.stream.Keeps db.metadata content R) {fuel : ℕ}
    {metadata : FileMetadata} (hlen : metadata.hash.length ≤ 32)
    (h : s.At db.metadata content R (encodeMetadataRecord metadata ++ rest) false)
    (hfuel : 2 * db.metadata.length + content.length + 1 < fuel) :
    ∃ s', bufferMetadataRecord zstd db fuel s = some (s', true) ∧
      s'.At db.metadata content R (encodeMetadataRecord metadata ++ rest) false ∧
      (encodeMetadataRecord metadata).length ≤ s'.block.length := by
  have hget {t : Inflow σ}
      (ht : t.At db.metadata content R (encodeMetadataRecord metadata ++ rest) false) {i : ℕ}
      (hi : i < t.block.length) :
      t.block[i]? = (encodeMetadataRecord metadata ++ rest)[i]? := by
    obtain ⟨more, hmore⟩ := ht.block_prefix
    rw [← hmore, List.getElem?_append_left hi]
  have hfuelOf {t : Inflow σ}
      (ht : t.At db.metadata content R (encodeMetadataRecord metadata ++ rest) false) :
      t.todo db.metadata (encodeMetadataRecord metadata ++ rest) + 1 < fuel := by
    have := ht.todo_le
    omega
  rw [bufferMetadataRecord]
  cases henabled : metadata.enabled with
  | false =>
      have hbytes := encodeMetadataRecord_of_disabled henabled
      obtain ⟨s₁, hs₁, hat₁, hblock₁⟩ := ensureMetadataBytes_ok hd 1 h
        (by rw [hbytes]; exact Nat.succ_pos _) (hfuelOf h)
      have hhead : s₁.block.head? = some 0 := by
        rw [List.head?_eq_getElem?, hget hat₁ hblock₁, hbytes]
        rfl
      rw [hs₁]
      exact ⟨s₁, if_pos (by rw [hhead]; rfl), hat₁, by rwa [hbytes]⟩
  | true =>
      have hlength := length_encodeMetadataRecord henabled hlen
      have hrest : (encodeMetadataRecord metadata ++ rest).length =
          59 + metadata.hash.length + rest.length := by rw [List.length_append, hlength]
      obtain ⟨s₁, hs₁, hat₁, hblock₁⟩ := ensureMetadataBytes_ok hd 1 h (by omega)
        (hfuelOf h)
      have hhead : s₁.block.head? = some 1 := by
        rw [List.head?_eq_getElem?, hget hat₁ hblock₁, encodeMetadataRecord_append henabled hlen]
        rfl
      obtain ⟨s₂, hs₂, hat₂, hblock₂⟩ := ensureMetadataBytes_ok hd 59 hat₁ (by omega)
        (hfuelOf hat₁)
      have hbyte : (s₂.block.getD 58 0).toNat = metadata.hash.length := by
        have hgetD : s₂.block.getD 58 0 = UInt8.ofNat metadata.hash.length := by
          rw [List.getD_eq_getElem?_getD, hget hat₂ hblock₂,
            encodeMetadataRecord_append henabled hlen]
          rfl
        rw [hgetD, UInt8.toNat_ofNat']
        omega
      obtain ⟨s₃, hs₃, hat₃, hblock₃⟩ := ensureMetadataBytes_ok hd
        (59 + metadata.hash.length) hat₂ (by omega) (hfuelOf hat₂)
      refine ⟨s₃, ?_, hat₃, by omega⟩
      rw [hs₁]
      change (if (!true || decide (s₁.block.head? = some 0)) = true then _ else
        (ensureMetadataBytes zstd db 59 fuel s₁).bind _) = _
      rw [hhead, hs₂]
      change ensureMetadataBytes zstd db (59 + (s₂.block.getD 58 0).toNat) fuel s₂ = _
      rw [hbyte, hs₃]

theorem readNextMetadataRecord_ok (hd : zstd.stream.Keeps db.metadata content R) {fuel : ℕ}
    {r : ExistingDB σ} (havailable : r.metadataAvailable = true) {metadata : FileMetadata}
    (hlen : metadata.hash.length ≤ 32)
    (h : r.metadata.At db.metadata content R (encodeMetadataRecord metadata ++ rest) false)
    (hfuel : 2 * db.metadata.length + content.length + 1 < fuel) :
    ∃ s', readNextMetadataRecord zstd db fuel r =
        some { r with metadata := s', lastMetadataRecord := metadata.canonical } ∧
      s'.At db.metadata content R rest false := by
  obtain ⟨s', hs', hat, hblock⟩ := bufferMetadataRecord_ok hd hlen h hfuel
  obtain ⟨more, hmore⟩ : ∃ more, s'.block = encodeMetadataRecord metadata ++ more := by
    obtain ⟨more, hmore⟩ := List.prefix_of_prefix_length_le (List.prefix_append _ rest)
      hat.block_prefix hblock
    exact ⟨more, hmore.symm⟩
  have hconsumed : s'.block.length - more.length = (encodeMetadataRecord metadata).length := by
    rw [hmore, List.length_append, Nat.add_sub_cancel]
  have hdecode : decodeMetadataRecord s'.block = some (metadata.canonical, more) := by
    rw [hmore]
    exact decodeMetadataRecord_encodeMetadataRecord hlen more
  refine ⟨s'.consume (encodeMetadataRecord metadata).length, ?_, hat.consume hblock⟩
  unfold readNextMetadataRecord
  simp only [havailable, Bool.not_true, Bool.false_eq_true, if_false, hs', Option.bind_eq_bind,
    Option.bind_some, hdecode, hconsumed]

theorem length_dirTimeRecord (dt : DirTime) : (EncodingCorpus.dirTimeRecord dt).length =
    if dt.sec = -1 then 1 else dirRecordBytes := by
  rw [EncodingCorpus.dirTimeRecord]
  split
  · rfl
  · simp [putU64, putU32, dirRecordBytes]

/-- The condition of the loop: the next record is not wholly at hand. -/
theorem dirTime_short_iff {dt : DirTime} {block : Str}
    (h : block <+: EncodingCorpus.dirTimeRecord dt ++ rest) :
    (block = [] ∨ block.head? ≠ some 0 ∧ block.length < dirRecordBytes) ↔
      block.length < (EncodingCorpus.dirTimeRecord dt).length := by
  rw [length_dirTimeRecord]
  cases block with
  | nil =>
      simp only [true_or, true_iff, List.length_nil]
      split
      · exact Nat.one_pos
      · exact Nat.succ_pos _
  | cons b block =>
      rw [EncodingCorpus.dirTimeRecord] at h
      by_cases hsec : dt.sec = -1
      · rw [if_pos hsec] at h ⊢
        obtain ⟨rfl, -⟩ := List.cons_prefix_cons.mp h
        simp
      · rw [if_neg hsec] at h ⊢
        obtain ⟨rfl, -⟩ := List.cons_prefix_cons.mp h
        simp

theorem refillDirTime_ok (hd : zstd.stream.Keeps db.directoryData content R) {fuel : ℕ}
    {dt : DirTime}
    (h : s.At db.directoryData content R (EncodingCorpus.dirTimeRecord dt ++ rest) idle)
    (hidle : idle = true → s.compressed ≠ [] ∧
      s.block.length < (EncodingCorpus.dirTimeRecord dt).length)
    (hfuel : s.todo db.directoryData (EncodingCorpus.dirTimeRecord dt ++ rest) < fuel) :
    ∃ s', refillDirTime zstd db fuel s = some (s', true) ∧
      s'.At db.directoryData content R (EncodingCorpus.dirTimeRecord dt ++ rest) false ∧
      (EncodingCorpus.dirTimeRecord dt).length ≤ s'.block.length := by
  induction fuel generalizing s idle with
  | zero => exact absurd hfuel (Nat.not_lt_zero _)
  | succ fuel ih =>
      have hshort := dirTime_short_iff h.block_prefix
      rw [refillDirTime]
      by_cases hlt : s.block.length < (EncodingCorpus.dirTimeRecord dt).length
      · obtain ⟨c, out, ctx, hcall, hat, htodo, hend⟩ :=
          h.call hd (by omega : 0 < 4096) fun hi => (hidle hi).1
        rw [if_pos (hshort.mpr hlt), hcall]
        dsimp only
        by_cases hstuck : c = 0 ∧ out = []
        · obtain ⟨rfl, rfl⟩ := hstuck
          have hpos : (s.decoded 0 [] ctx).pos < db.directoryData.length := by
            by_contra hpos
            have hmore := (hend (Nat.le_antisymm h.pos_le (Nat.le_of_not_lt hpos))).1
            exact hmore (by rw [List.length_append]; omega) rfl
          rw [if_pos ⟨rfl, rfl⟩, if_neg (by omega)]
          have hn : (s.decoded 0 [] ctx).pos +
              min (db.directoryData.length - (s.decoded 0 [] ctx).pos) 4096 ≤
                db.directoryData.length := by
            omega
          obtain ⟨hread, hreadtodo⟩ := hat.read hn
          refine ih hread (fun _ => ⟨compressed_read_ne_nil (by omega) hn, ?_⟩) (by omega)
          change (s.block ++ []).length < _
          rwa [List.append_nil]
        · rw [if_neg hstuck]
          rw [decide_eq_false hstuck] at hat
          have hprogress : 0 < c + out.length := by
            by_contra hzero
            exact hstuck ⟨by omega, List.length_eq_zero_iff.mp (by omega)⟩
          exact ih hat nofun (by omega)
      · rw [if_neg fun hs => hlt (hshort.mp hs)]
        cases idle with
        | true => exact absurd (hidle rfl).2 hlt
        | false => exact ⟨s, rfl, h, Nat.le_of_not_lt hlt⟩

end Refill

section Records

variable {corpus : EncodingCorpus} {s : ExistingDB σ} {r : FileRecord} {fuel : ℕ}

def rounds (db : Database) (corpus : EncodingCorpus) : ℕ :=
  2 * (db.directoryData.length + db.metadata.length) + corpus.dirTimes.length +
    corpus.metadataStream.length + 2

theorem getTime_dirTimeRecord {dt : DirTime} (hdt : dt = notADir ∨ 0 ≤ dt.sec) {block more : Str}
    (h : block = EncodingCorpus.dirTimeRecord dt ++ more) :
    (if block.head? ≠ some 0 then getTime (block.drop 1) else notADir) = dt ∧
      (if block.head? ≠ some 0 then dirRecordBytes else 1) =
        (EncodingCorpus.dirTimeRecord dt).length := by
  rw [length_dirTimeRecord, h, EncodingCorpus.dirTimeRecord]
  by_cases hsec : dt.sec = -1
  · rw [if_pos hsec, if_pos hsec]
    refine ⟨?_, rfl⟩
    rcases hdt with rfl | hge
    · rfl
    · rw [hsec] at hge
      exact absurd hge (by decide)
  · rw [if_neg hsec, if_neg hsec]
    refine ⟨?_, rfl⟩
    rw [if_pos (by simp)]
    exact getTime_putTime dt more

theorem takeRecord_ok (hr : Storable r) {filenames dirTimes metadata : Str}
    (hfilename : s.currentFilename = r.path ++ 0 :: filenames)
    (hdirTime : s.dirTime.Serves zstd.stream db.directoryData corpus.dirTimes
      (r.dirTimeBytes ++ dirTimes))
    (hblock : r.dirTimeBytes.length ≤ s.dirTime.block.length)
    (havailable : s.metadataAvailable = true)
    (hmetadata : s.metadata.Serves zstd.stream db.metadata corpus.metadataStream
      (r.metadataBytes ++ metadata))
    (hfuel : rounds db corpus ≤ fuel) :
    ∃ d m, takeRecord zstd db fuel s = some ({ s with
        currentFilename := filenames
        dirTime := d
        metadata := m
        lastMetadataRecord := r.metadata.canonical }, r.path, r.dirTimestamp) ∧
      d.Serves zstd.stream db.directoryData corpus.dirTimes dirTimes ∧
      m.Serves zstd.stream db.metadata corpus.metadataStream metadata := by
  obtain ⟨R, hkeeps, hat⟩ := hdirTime
  obtain ⟨R', hkeeps', hat'⟩ := hmetadata
  obtain ⟨more, hmore⟩ : ∃ more, s.dirTime.block = r.dirTimeBytes ++ more := by
    obtain ⟨more, hmore⟩ := List.prefix_of_prefix_length_le (List.prefix_append _ dirTimes)
      hat.block_prefix hblock
    exact ⟨more, hmore.symm⟩
  obtain ⟨hdt, hlength⟩ := getTime_dirTimeRecord hr.dirTimestamp hmore
  have hname : s.currentFilename.takeWhile (· ≠ 0) = r.path := by
    rw [hfilename, takeWhile_append_nul hr.name.nul_free]
  have hfilenames : s.currentFilename.drop (r.path.length + 1) = filenames := by
    rw [hfilename, List.drop_append, List.drop_of_length_le (Nat.le_succ _),
      Nat.add_sub_cancel_left]
    rfl
  have hrounds : 2 * db.metadata.length + corpus.metadataStream.length + 1 < fuel := by
    rw [rounds] at hfuel
    omega
  obtain ⟨m, hm, hat''⟩ := readNextMetadataRecord_ok hkeeps' (r := { s with
    currentFilename := filenames, dirTime := s.dirTime.consume r.dirTimeBytes.length })
    havailable hr.hash hat' hrounds
  refine ⟨s.dirTime.consume r.dirTimeBytes.length, m, ?_, ⟨R, hkeeps, hat.consume hblock⟩,
    R', hkeeps', hat''⟩
  rw [takeRecord]
  simp only [hname, hfilenames, hr.name.ne_nil, ne_eq, not_false_eq_true, if_true]
  simp only [← ne_eq]
  rw [hdt, hlength]
  exact congrArg (Option.bind · _) hm

/-- The records `cur` are left of the block at hand, and `blocks` have not been opened. -/
structure ReaderAt (zstd : Zstd σ) (db : Database) (corpus : EncodingCorpus) (s : ExistingDB σ)
    (cur : List FileRecord) (blocks : List (List FileRecord)) : Prop where
  no_unread : s.unreadRecord.1 = []
  running : (s.eof || s.error) = false
  ne_nil : ∀ b ∈ blocks, b ≠ []
  currentFilename : s.currentFilename = terminateNul (cur.map (·.path))
  docid : s.currentDocid.toNat + blocks.length = db.numDocids.toNat
  filenameBlocks : List.Forall₂ zstd.LosslessBlock (db.filenameBlocks.drop s.currentDocid.toNat)
    (blocks.map fun b => joinNul (b.map (·.path)))
  dirTime : s.dirTime.Serves zstd.stream db.directoryData corpus.dirTimes
    ((cur ++ blocks.flatten).flatMap FileRecord.dirTimeBytes)
  metadataAvailable : s.metadataAvailable = true
  metadata : s.metadata.Serves zstd.stream db.metadata corpus.metadataStream
    ((cur ++ blocks.flatten).flatMap FileRecord.metadataBytes)

variable {cur b : List FileRecord} {blocks : List (List FileRecord)}

theorem terminateNul_cons (p : Str) (ps : List Str) :
    terminateNul (p :: ps) = p ++ 0 :: terminateNul ps := by
  rw [terminateNul, List.flatMap_cons, List.append_assoc]
  rfl

theorem readFilenameBlock_eq {compressed content : Str}
    (h : zstd.LosslessBlock compressed content) :
    readFilenameBlock zstd compressed = some (content ++ [0]) := by
  rw [readFilenameBlock, h.contentSize]
  change (zstd.decompress compressed (content.length + 1)).bind _ = _
  rw [h.decompress _ (Nat.le_succ _)]
  change some ((content ++ List.replicate (content.length - content.length) 0).take _ ++ [0]) = _
  rw [Nat.sub_self, List.replicate_zero, List.append_nil, List.take_length]

theorem nextFilenameBlock_open (h : ReaderAt zstd db corpus s [] (b :: blocks)) :
    ∃ s', s.nextFilenameBlock zstd db = .ok s' ∧ ReaderAt zstd db corpus s' b blocks := by
  have hb : b ≠ [] := h.ne_nil b List.mem_cons_self
  have hdocid := h.docid
  rw [List.length_cons] at hdocid
  have hlt : s.currentDocid.toNat < db.numDocids.toNat := by omega
  have hblocks := h.filenameBlocks
  rw [List.map_cons] at hblocks
  obtain ⟨c, cs, hc, hcs, hdrop⟩ := List.forall₂_cons_right_iff.mp hblocks
  have hget : db.filenameBlocks[s.currentDocid.toNat]? = some c := by
    rw [← List.head?_drop, hdrop]
    rfl
  have hsucc : (s.currentDocid + 1).toNat = s.currentDocid.toNat + 1 := by
    have hbound := db.numDocids.toNat_lt
    rw [UInt32.toNat_add]
    change (_ + 1) % _ = _
    omega
  have hterminate : joinNul (b.map (·.path)) ++ [0] = terminateNul (b.map (·.path)) :=
    joinNul_append_nul (List.map_eq_nil_iff.not.mpr hb)
  refine ⟨{ s with
    currentFilename := terminateNul (b.map (·.path)), currentDocid := s.currentDocid + 1 }, ?_,
    h.no_unread, h.running, fun b' hb' => h.ne_nil b' (List.mem_cons_of_mem b hb'), rfl, ?_, ?_,
    h.dirTime, h.metadataAvailable, h.metadata⟩
  · have hnone : s.currentFilename = [] := h.currentFilename
    unfold nextFilenameBlock
    rw [if_neg (not_not_intro hnone), if_neg fun hle =>
      Nat.not_le.mpr hlt (UInt32.le_iff_toNat_le.mp hle), hget]
    simp only [Option.bind_some, readFilenameBlock_eq hc, hterminate]
  · change (s.currentDocid + 1).toNat + _ = _
    omega
  · change List.Forall₂ _ (db.filenameBlocks.drop (s.currentDocid + 1).toNat) _
    rw [hsucc, ← List.drop_drop, hdrop]
    exact hcs

/-- The rest of `read_next`, with a filename at hand. -/
theorem readNext_of_open (hr : Storable r) {s₀ : ExistingDB σ} (hunread : s₀.unreadRecord.1 = [])
    (hrunning : (s₀.eof || s₀.error) = false) (hopen : s₀.nextFilenameBlock zstd db = .ok s)
    (h : ReaderAt zstd db corpus s (r :: cur) blocks) (hfuel : rounds db corpus ≤ fuel) :
    ∃ s', readNext zstd db fuel s₀ = some (s', r.path, r.dirTimestamp) ∧
      s'.lastMetadataRecord = r.metadata.canonical ∧ ReaderAt zstd db corpus s' cur blocks := by
  have hfilename := h.currentFilename
  rw [List.map_cons, terminateNul_cons] at hfilename
  have hdirTime := h.dirTime
  rw [List.cons_append, List.flatMap_cons] at hdirTime
  have hmetadata := h.metadata
  rw [List.cons_append, List.flatMap_cons] at hmetadata
  obtain ⟨R, hkeeps, hat⟩ := hdirTime
  have hrounds : 2 * db.directoryData.length + corpus.dirTimes.length < fuel := by
    rw [rounds] at hfuel
    omega
  obtain ⟨d, hd, hat', hblock⟩ :=
    refillDirTime_ok hkeeps hat nofun (lt_of_le_of_lt hat.todo_le hrounds)
  obtain ⟨d', m, htake, hdirTime', hmetadata'⟩ := takeRecord_ok (s := { s with dirTime := d }) hr
    hfilename ⟨R, hkeeps, hat'⟩ hblock h.metadataAvailable hmetadata hfuel
  refine ⟨{ s with
    currentFilename := terminateNul (cur.map (·.path))
    dirTime := d'
    metadata := m
    lastMetadataRecord := r.metadata.canonical }, ?_, rfl, ⟨h.no_unread, h.running, h.ne_nil, rfl,
      h.docid, h.filenameBlocks, hdirTime', h.metadataAvailable, hmetadata'⟩⟩
  rw [readNext, if_neg (not_not_intro hunread), hrunning, hopen]
  change (refillDirTime zstd db fuel s.dirTime).bind _ = _
  rw [hd]
  exact htake

/-- The next record is returned, wherever the blocks end. -/
theorem readNext_record (hr : Storable r) {rest : List FileRecord}
    (h : ReaderAt zstd db corpus s cur blocks) (hrest : cur ++ blocks.flatten = r :: rest)
    (hfuel : rounds db corpus ≤ fuel) :
    ∃ s' cur' blocks', readNext zstd db fuel s = some (s', r.path, r.dirTimestamp) ∧
      s'.lastMetadataRecord = r.metadata.canonical ∧ ReaderAt zstd db corpus s' cur' blocks' ∧
      cur' ++ blocks'.flatten = rest := by
  cases cur with
  | cons r' cur =>
      rw [List.cons_append] at hrest
      obtain ⟨rfl, hrest'⟩ := List.cons.inj hrest
      have hopen : s.nextFilenameBlock zstd db = .ok s := by
        rw [nextFilenameBlock, h.currentFilename, List.map_cons, terminateNul_cons]
        exact if_pos (by simp)
      obtain ⟨s', hread, hlast, h'⟩ := readNext_of_open hr h.no_unread h.running hopen h hfuel
      exact ⟨s', cur, blocks, hread, hlast, h', hrest'⟩
  | nil =>
      cases blocks with
      | nil => cases hrest
      | cons b blocks =>
          obtain ⟨s₁, hopen, h₁⟩ := nextFilenameBlock_open h
          cases b with
          | nil => exact absurd rfl (h.ne_nil [] List.mem_cons_self)
          | cons r' b =>
              rw [List.nil_append, List.flatten_cons, List.cons_append] at hrest
              obtain ⟨rfl, hrest'⟩ := List.cons.inj hrest
              obtain ⟨s', hread, hlast, h'⟩ :=
                readNext_of_open hr h.no_unread h.running hopen h₁ hfuel
              exact ⟨s', b, blocks, hread, hlast, h', hrest'⟩

/-- Behind the last record there is the empty path. -/
theorem readNext_end (h : ReaderAt zstd db corpus s [] []) :
    readNext zstd db fuel s = some ({ s with eof := true }, [], notADir) := by
  have hdocid := h.docid
  rw [List.length_nil, Nat.add_zero] at hdocid
  have hle : db.numDocids ≤ s.currentDocid := UInt32.le_iff_toNat_le.mpr (le_of_eq hdocid.symm)
  have hnone : s.currentFilename = [] := h.currentFilename
  rw [readNext, if_neg (not_not_intro h.no_unread), h.running, nextFilenameBlock,
    if_neg (not_not_intro hnone), if_pos hle]
  rfl

theorem readMany_eof (hunread : s.unreadRecord.1 = []) (heof : s.eof = true) (n : ℕ) :
    readMany zstd db fuel n s = some (List.replicate n ([], notADir, s.lastMetadataRecord)) := by
  induction n with
  | zero => rfl
  | succ n ih =>
      have hread : readNext zstd db fuel s = some (s, [], notADir) := by
        rw [readNext, if_neg (not_not_intro hunread), heof]
        rfl
      rw [readMany, hread]
      change (readMany zstd db fuel n s).bind _ = _
      rw [ih]
      rfl

def returned (r : FileRecord) : Str × DirTime × FileMetadata :=
  (r.path, r.dirTimestamp, r.metadata.canonical)

/-- All records, and the empty path from then on. -/
theorem readMany_records (records : List FileRecord) (hrecords : ∀ r ∈ records, Storable r)
    (h : ReaderAt zstd db corpus s cur blocks) (hrest : cur ++ blocks.flatten = records)
    (hfuel : rounds db corpus ≤ fuel) (n : ℕ) :
    ∃ last, readMany zstd db fuel (records.length + n) s =
      some (records.map returned ++ List.replicate n ([], notADir, last)) := by
  induction records generalizing s cur blocks with
  | nil =>
      obtain ⟨rfl, hflatten⟩ := List.append_eq_nil_iff.mp hrest
      obtain rfl : blocks = [] := by
        refine List.eq_nil_iff_forall_not_mem.mpr fun b hb => h.ne_nil b hb ?_
        exact List.flatten_eq_nil_iff.mp hflatten b hb
      refine ⟨s.lastMetadataRecord, ?_⟩
      rw [List.length_nil, Nat.zero_add]
      cases n with
      | zero => rfl
      | succ n =>
          rw [readMany, readNext_end h]
          change (readMany zstd db fuel n { s with eof := true }).bind _ = _
          rw [readMany_eof (s := { s with eof := true }) h.no_unread rfl]
          rfl
  | cons r records ih =>
      rw [List.forall_mem_cons] at hrecords
      obtain ⟨s', cur', blocks', hread, hlast, h', hrest'⟩ :=
        readNext_record hrecords.1 h hrest hfuel
      obtain ⟨last, hall⟩ := ih hrecords.2 h' hrest'
      refine ⟨last, ?_⟩
      rw [List.length_cons, Nat.succ_add, readMany, hread]
      change (readMany zstd db fuel (records.length + n) s').bind _ = _
      rw [hall]
      change some ((r.path, r.dirTimestamp, s'.lastMetadataRecord) :: _) = _
      rw [hlast]
      rfl

end Records

end ExistingDB

end Flocate
