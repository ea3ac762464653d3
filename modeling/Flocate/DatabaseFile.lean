import Flocate.DatabaseBuilder

/-!
# The file of a run without failures

Every step appends to the file. The header says where the sections are that are read back.
-/

namespace Flocate

open Bytes Stdio

namespace DatabaseBuilder

variable {b c : DatabaseBuilder}

theorem contents_fwrite_ok {outcomes : Call → Outcome} (b : DatabaseBuilder) (call : Call)
    (data : Str) (h : outcomes call = .ok) :
    (b.fwrite outcomes call data).outfp.contents = b.outfp.contents ++ data.map (call, ·) := by
  unfold fwrite
  rw [h]
  exact File.contents_fwrite_ok

theorem length_toBytes (hdr : DatabaseHeader) : hdr.toBytes.length = DatabaseHeader.size := by
  unfold DatabaseHeader.toBytes
  simp only [List.length_append, length_putU32, length_putU64, List.length_cons, List.length_nil,
    Vector.length_toList]
  rfl

/-- The header is read back as it was written. -/
theorem ofBytes_toBytes (hdr : DatabaseHeader) (rest : Str) :
    DatabaseHeader.ofBytes (hdr.toBytes ++ rest) = hdr := by
  have hdrop {n k : ℕ} {l : Str} (hl : l.length = n) (hk : n ≤ k) (l' : Str) :
      (l ++ l').drop k = l'.drop (k - n) := by
    rw [List.drop_append, List.drop_of_length_le (hl ▸ hk), hl, List.nil_append]
  have hmagic {k : ℕ} (hk : 8 ≤ k) (l : Str) :
      (hdr.magic.toList ++ l).drop k = l.drop (k - 8) := hdrop Vector.length_toList hk l
  have h4 (v : UInt32) {k : ℕ} (hk : 4 ≤ k) (l : Str) : (putU32 v ++ l).drop k = l.drop (k - 4) :=
    hdrop (length_putU32 v) hk l
  have h8 (v : UInt64) {k : ℕ} (hk : 8 ≤ k) (l : Str) : (putU64 v ++ l).drop k = l.drop (k - 8) :=
    hdrop (length_putU64 v) hk l
  cases hdr
  unfold DatabaseHeader.toBytes DatabaseHeader.ofBytes
  simp only [List.append_assoc] at hmagic ⊢
  simp only [Nat.reduceLeDiff, Nat.le_refl, hmagic, h4, h8, Nat.reduceSub, List.drop_zero,
    getU32_putU32, getU64_putU64]
  congr 1
  · ext i hi
    rw [Vector.getElem_ofFn, List.getD_eq_getElem?_getD,
      List.getElem?_append_left (by rw [Vector.length_toList]; exact hi),
      List.getElem?_eq_getElem (by rw [Vector.length_toList]; exact hi), Option.getD_some,
      Vector.getElem_toList]
  · rename_i checkVisibility
    cases checkVisibility <;> rfl

def finalCells (b : DatabaseBuilder) : List Written :=
  { b.hdr with version := 2 }.toBytes.map (.finalHeader, ·)

theorem length_finalCells (b : DatabaseBuilder) : b.finalCells.length = DatabaseHeader.size := by
  unfold finalCells
  rw [List.length_map, length_toBytes]

theorem finalCells_ne_nil (b : DatabaseBuilder) : b.finalCells ≠ [] :=
  List.ne_nil_of_length_pos (by rw [length_finalCells]; decide)

theorem writeHeader_rewind_ok (outcomes : Call → Outcome) (hb : b.outfp.Appending)
    (hrewind : outcomes .rewind = .ok) :
    ∃ n, b.writeHeader outcomes = b.finalCells.take n ++ b.outfp.contents.drop n ∧
      n ≤ DatabaseHeader.size ∧
      (n = DatabaseHeader.size ↔ outcomes .finalHeader = .ok ∧ outcomes .flush = .ok) := by
  obtain ⟨n, hn, hle, hiff⟩ := File.disk_overwrite_start b.outfp.contents b.finalCells_ne_nil
    (outcomes .finalHeader) (outcomes .flush)
  rw [length_finalCells] at hle hiff
  refine ⟨n, ?_, hle, hiff⟩
  rw [← hn, ← hb.fseek_ok, ← hrewind]
  rfl

/-- What `ExistingDB` requires of the header of a file of that length, the configuration aside. -/
structure Readable (hdr : DatabaseHeader) (length : ℕ) : Prop where
  magic : hdr.magic = magicBytes
  maxVersion : hdr.maxVersion = 3
  dictionary : hdr.zstdDictionaryOffsetBytes.toNat + hdr.zstdDictionaryLengthBytes.toNat ≤ length
  metadata : hdr.metadataLengthBytes = 0 ∨ hdr.metadataFlags = DatabaseHeader.metadataFlagPosixV2

theorem Readable.mono {hdr : DatabaseHeader} {m n : ℕ} (h : Readable hdr m) (hle : m ≤ n) :
    Readable hdr n :=
  { h with dictionary := h.dictionary.trans hle }

/-- `c` continues `b` behind the dictionary. -/
structure Extends (b c : DatabaseBuilder) : Prop where
  appending : b.outfp.Appending → c.outfp.Appending
  contents : b.outfp.contents <+: c.outfp.contents
  readable : Readable b.hdr b.outfp.contents.length → Readable c.hdr c.outfp.contents.length

theorem Extends.refl (b : DatabaseBuilder) : Extends b b := ⟨id, List.prefix_refl _, id⟩

theorem Extends.trans {d : DatabaseBuilder} (h : Extends b c) (h' : Extends c d) : Extends b d :=
  ⟨h'.appending ∘ h.appending, h.contents.trans h'.contents, h'.readable ∘ h.readable⟩

theorem Extends.length_le (h : Extends b c) :
    b.outfp.contents.length ≤ c.outfp.contents.length := h.contents.length_le

theorem extends_fwrite (b : DatabaseBuilder) {hdr : DatabaseHeader}
    (hhdr : ∀ n, Readable b.hdr n → Readable hdr n) (call : Call) (data : Str) :
    Extends b (fwrite (fun _ => .ok) { b with hdr := hdr } call data) := by
  have hok : (fun _ : Call => Outcome.ok) call = .ok := rfl
  have hcontents : b.outfp.contents <+:
      (fwrite (fun _ => .ok) { b with hdr := hdr } call data).outfp.contents := by
    rw [contents_fwrite_ok _ call data hok]
    exact List.prefix_append _ _
  exact ⟨fun h => h.fwrite _ _, hcontents, fun h => (hhdr _ h).mono hcontents.length_le⟩

theorem extends_writeSection {set : DatabaseHeader → UInt64 → UInt64 → DatabaseHeader}
    (hset : ∀ hdr offset len n, Readable hdr n → Readable (set hdr offset len) n) (call : Call)
    (data : Str) (b : DatabaseBuilder) :
    Extends b (writeSection (fun _ => .ok) set call data b) := by
  unfold writeSection
  split
  · exact Extends.refl b
  · exact extends_fwrite b (hset _ _ _) call data

theorem extends_writeBlocks (blocks : List Str) (docid pos : ℕ) (b : DatabaseBuilder) :
    ∃ c offsets, writeBlocks (fun _ => .ok) blocks docid pos b = some (c, offsets) ∧
      Extends b c := by
  induction blocks generalizing docid pos b with
  | nil => exact ⟨b, [], rfl, Extends.refl b⟩
  | cons block blocks ih =>
      obtain ⟨c, offsets, hc, hextends⟩ := ih (docid + 1) (pos + block.length)
        (b.fwrite (fun _ => .ok) (.block docid) block)
      refine ⟨c, pos :: offsets, ?_, (extends_fwrite b (fun _ => id) _ block).trans hextends⟩
      unfold writeBlocks
      simp only [ne_eq, not_true_eq_false, if_false, hc, Option.map_some]

theorem extends_writeFilenameIndex (offsets : List ℕ) (b : DatabaseBuilder) :
    Extends b (writeFilenameIndex (fun _ => .ok) offsets b) := by
  unfold writeFilenameIndex
  apply extends_fwrite
  exact fun n h => { h with }

theorem extends_writePostingLists (getPlBuilder : UInt32 → FinishedList) (slots : List Trigram)
    (i : ℕ) (b : DatabaseBuilder) :
    Extends b (writePostingLists (fun _ => .ok) getPlBuilder slots i b) := by
  induction slots generalizing i b with
  | nil => exact Extends.refl b
  | cons slot slots ih =>
      unfold writePostingLists
      refine Extends.trans ?_ (ih (i + 1) _)
      split
      · exact Extends.refl b
      · exact extends_fwrite b (fun _ => id) _ _

theorem extends_writeTables (d : FinishedCorpus) (b : DatabaseBuilder) :
    Extends b (writeTables (fun _ => .ok) d b) := by
  unfold writeTables
  refine Extends.trans ?_ (extends_writePostingLists _ _ _ _)
  apply extends_fwrite
  exact fun n h => { h with }

/-- The configuration block is the last section. -/
theorem writeSections_eq (d : FinishedCorpus) (b : DatabaseBuilder) : ∃ c, Extends b c ∧
    writeSections (fun _ => .ok) d b = writeSection (fun _ => .ok) (fun hdr offset len => { hdr with
      confBlockOffsetBytes := offset
      confBlockLengthBytes := len }) .confBlock d.confBlock c := by
  unfold writeSections
  refine ⟨_, Extends.trans (Extends.trans (Extends.trans (extends_writeSection ?_ _ _ _)
    (extends_writeSection ?_ _ _ _)) (extends_writeSection ?_ _ _ _))
    (extends_writeSection ?_ _ _ _), rfl⟩
  · exact fun hdr offset len n h => { h with }
  · exact fun hdr offset len n h => { h with metadata := Or.inr rfl }
  · exact fun hdr offset len n h => { h with }
  · exact fun hdr offset len n h => { h with }

theorem extends_writeSections (d : FinishedCorpus) (b : DatabaseBuilder) :
    Extends b (writeSections (fun _ => .ok) d b) := by
  obtain ⟨c, hextends, hc⟩ := writeSections_eq d b
  rw [hc]
  refine hextends.trans (extends_writeSection ?_ _ _ _)
  exact fun hdr offset len n h => { h with }

/-- A section that is not empty ends where the file ends. -/
theorem contents_writeSection (set : DatabaseHeader → UInt64 → UInt64 → DatabaseHeader)
    (call : Call) (data : Str) (b : DatabaseBuilder) :
    (writeSection (fun _ => .ok) set call data b).outfp.contents =
      b.outfp.contents ++ data.map (call, ·) := by
  unfold writeSection
  split
  · rename_i hdata
    rw [hdata, List.map_nil, List.append_nil]
  · exact contents_fwrite_ok _ call data rfl

theorem appending_writeSection {set : DatabaseHeader → UInt64 → UInt64 → DatabaseHeader}
    (call : Call) (data : Str) (h : b.outfp.Appending) :
    (writeSection (fun _ => .ok) set call data b).outfp.Appending := by
  unfold writeSection
  split
  · exact h
  · exact h.fwrite _ _

/-- The dictionary lies within the file, even if its length does not fit into the header. -/
theorem readable_dictionary (happending : b.outfp.Appending)
    (h : Readable b.hdr b.outfp.contents.length) (dictionary : Str) :
    Readable (writeSection (fun _ => .ok) (fun hdr offset len => { hdr with
        zstdDictionaryOffsetBytes := offset
        zstdDictionaryLengthBytes := len.toUInt32 }) .dictionary dictionary b).hdr
      (b.outfp.contents.length + dictionary.length) := by
  unfold writeSection
  split
  · exact h.mono (Nat.le_add_right _ _)
  · refine { h with dictionary := ?_ }
    change (UInt64.ofNat b.outfp.ftell).toNat +
      (UInt64.ofNat dictionary.length).toUInt32.toNat ≤ _
    have hoffset := Nat.mod_le b.outfp.contents.length (2 ^ 64)
    have hlength := Nat.mod_le dictionary.length (2 ^ 64)
    have htrunc := Nat.mod_le (dictionary.length % 2 ^ 64) (2 ^ 32)
    rw [happending.ftell_eq, UInt64.toNat_toUInt32, UInt64.toNat_ofNat', UInt64.toNat_ofNat']
    omega

/-- The constructor ends with the dictionary. -/
theorem create_eq (dictionary : Str) (checkVisibility : Bool) : ∃ b : DatabaseBuilder,
    b.outfp.Appending ∧ Readable b.hdr 0 ∧ b.outfp.contents.length = DatabaseHeader.size ∧
    create (fun _ => .ok) dictionary checkVisibility =
      writeSection (fun _ => .ok) (fun hdr offset len => { hdr with
        zstdDictionaryOffsetBytes := offset
        zstdDictionaryLengthBytes := len.toUInt32 }) .dictionary dictionary b := by
  have hstart : (File.mk [] 0 [] : File Written).Appending := rfl
  unfold create
  refine ⟨_, hstart.fwrite _ _, ⟨rfl, rfl, Nat.le_refl _, Or.inl rfl⟩, ?_, rfl⟩
  dsimp only
  rw [contents_fwrite_ok _ .header _ rfl]
  simp only [File.contents, List.nil_append, List.length_map, length_toBytes]

theorem length_create (dictionary : Str) (checkVisibility : Bool) :
    (create (fun _ => .ok) dictionary checkVisibility).outfp.contents.length =
      DatabaseHeader.size + dictionary.length := by
  obtain ⟨b, -, -, hlength, hb⟩ := create_eq dictionary checkVisibility
  rw [hb, contents_writeSection, List.length_append, List.length_map, hlength]

theorem appending_create (dictionary : Str) (checkVisibility : Bool) :
    (create (fun _ => .ok) dictionary checkVisibility).outfp.Appending := by
  obtain ⟨b, happending, -, -, hb⟩ := create_eq dictionary checkVisibility
  rw [hb]
  exact appending_writeSection .dictionary dictionary happending

theorem readable_create (dictionary : Str) (checkVisibility : Bool) :
    Readable (create (fun _ => .ok) dictionary checkVisibility).hdr
      (create (fun _ => .ok) dictionary checkVisibility).outfp.contents.length := by
  obtain ⟨b, happending, hreadable, hlength, hb⟩ := create_eq dictionary checkVisibility
  rw [length_create, ← hlength, hb]
  exact readable_dictionary happending (hreadable.mono (Nat.zero_le _)) dictionary

theorem contents_writeFilenameIndex (offsets : List ℕ) (b : DatabaseBuilder) :
    (writeFilenameIndex (fun _ => .ok) offsets b).outfp.contents.length =
      b.outfp.contents.length + (offsets.length + 1) * 8 := by
  unfold writeFilenameIndex
  rw [contents_fwrite_ok _ .filenameIndex _ rfl]
  simp only [List.length_append, List.length_map, List.length_flatMap, length_leBytes,
    List.map_const', List.sum_replicate_nat, List.length_singleton]

/-- Everything in front of the final header, written without failures. -/
theorem extends_writeBody (d : FinishedCorpus) : ∃ b,
    Extends (create (fun _ => .ok) d.dictionary d.checkVisibility) b ∧
    DatabaseHeader.size < b.outfp.contents.length ∧
    writeBody (fun _ => .ok) d = some (writeSections (fun _ => .ok) d b) := by
  obtain ⟨b, offsets, hb, hblocks⟩ := extends_writeBlocks d.blocks 0
    (create (fun _ => .ok) d.dictionary d.checkVisibility).outfp.ftell
    (create (fun _ => .ok) d.dictionary d.checkVisibility)
  have hindex := extends_writeFilenameIndex offsets b
  have htables := extends_writeTables d (writeFilenameIndex (fun _ => .ok) offsets b)
  refine ⟨_, (hblocks.trans hindex).trans htables, ?_, ?_⟩
  · have hcreate := hblocks.length_le
    rw [length_create] at hcreate
    have hlength := contents_writeFilenameIndex offsets b
    have hle := htables.length_le
    omega
  · unfold writeBody
    dsimp only
    rw [hb]
    rfl

theorem length_writeHeader_ok (hb : b.outfp.Appending)
    (hsize : DatabaseHeader.size ≤ b.outfp.contents.length) :
    b.writeHeader (fun _ => .ok) = b.finalCells ++ b.outfp.contents.drop DatabaseHeader.size ∧
      (b.writeHeader fun _ => .ok).length = b.outfp.contents.length := by
  obtain ⟨n, hn, -, hiff⟩ := writeHeader_rewind_ok (fun _ => .ok) hb rfl
  have hfile : b.writeHeader (fun _ => .ok) =
      b.finalCells ++ b.outfp.contents.drop DatabaseHeader.size := by
    rw [hn, hiff.mpr ⟨rfl, rfl⟩, List.take_of_length_le (length_finalCells b).le]
  refine ⟨hfile, ?_⟩
  rw [hfile, List.length_append, length_finalCells, List.length_drop]
  omega

end DatabaseBuilder

open DatabaseBuilder

def FinishedCorpus.file (d : FinishedCorpus) : Str := d.database.map Prod.snd

theorem map_snd_finalCells (b : DatabaseBuilder) :
    b.finalCells.map Prod.snd = { b.hdr with version := 2 }.toBytes := by
  unfold finalCells
  rw [List.map_map]
  exact List.map_id _

/-- A complete database starts with its header, and the configuration block is its end. -/
theorem FinishedCorpus.file_eq (d : FinishedCorpus) (hconf : d.confBlock ≠ []) :
    ∃ hdr : DatabaseHeader, ∃ body : Str, d.file = hdr.toBytes ++ body ++ d.confBlock ∧
      hdr.version = 2 ∧ Readable hdr d.file.length ∧
      hdr.confBlockOffsetBytes = UInt64.ofNat (d.file.length - d.confBlock.length) ∧
      hdr.confBlockLengthBytes = UInt64.ofNat d.confBlock.length := by
  obtain ⟨b, hextends, hsize, hbody⟩ := extends_writeBody d
  obtain ⟨c, hextends', hc⟩ := writeSections_eq d b
  have happending := hextends'.appending (hextends.appending (appending_create _ _))
  have hreadable := hextends'.readable (hextends.readable (readable_create _ _))
  have hle := hextends'.length_le
  have hcontents := congrArg (fun b : DatabaseBuilder => b.outfp.contents) hc
  rw [contents_writeSection] at hcontents
  have happending' : (writeSections (fun _ => .ok) d b).outfp.Appending :=
    hc ▸ appending_writeSection .confBlock d.confBlock happending
  have hlength : (writeSections (fun _ => .ok) d b).outfp.contents.length =
      c.outfp.contents.length + d.confBlock.length := by
    rw [hcontents, List.length_append, List.length_map]
  obtain ⟨hfile, htotal⟩ := length_writeHeader_ok happending' (by omega)
  have hdatabase : d.database = (writeSections (fun _ => .ok) d b).writeHeader fun _ => .ok := by
    unfold FinishedCorpus.database
    rw [hbody]
  have hdfile : d.file.length = c.outfp.contents.length + d.confBlock.length := by
    unfold FinishedCorpus.file
    rw [List.length_map, hdatabase, htotal, hlength]
  have hhdr : (writeSections (fun _ => .ok) d b).hdr = { c.hdr with
      confBlockOffsetBytes := UInt64.ofNat c.outfp.ftell
      confBlockLengthBytes := UInt64.ofNat d.confBlock.length } := by
    rw [hc, writeSection, if_neg hconf]
    rfl
  refine ⟨{ (writeSections (fun _ => .ok) d b).hdr with version := 2 },
    (c.outfp.contents.drop DatabaseHeader.size).map Prod.snd, ?_, rfl, ?_, ?_, ?_⟩
  · unfold FinishedCorpus.file
    rw [hdatabase, hfile, hcontents, List.drop_append_of_le_length (by omega), List.map_append,
      List.map_append, ← List.append_assoc, map_snd_finalCells, List.map_map]
    exact congrArg _ (List.map_id _)
  · rw [hhdr, hdfile]
    exact { hreadable.mono (Nat.le_add_right _ _) with }
  · rw [hhdr, hdfile, Nat.add_sub_cancel, happending.ftell_eq]
  · rw [hhdr]

def smallCorpus : FinishedCorpus where
  blocks := [[97]]
  getPlBuilder _ := ⟨0, []⟩
  htSize := 1
  hashtable := List.replicate 18 emptySlot
  block_ne_nil := by decide
  hashtable_ne_nil := by decide
  encoded_ne_nil := by decide

end Flocate
