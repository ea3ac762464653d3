import Flocate.Metadata

/-!
# Metadata records as bytes

`encode_metadata_record`, `metadata_record_size` and `decode_metadata_record`, all integers
little-endian.
-/

namespace Flocate

open Bytes

def putU32 (v : UInt32) : Str := leBytes 4 v.toNat
def putU64 (v : UInt64) : Str := leBytes 8 v.toNat
def putTime (t : DirTime) : Str := putU64 t.sec.toUInt64 ++ putU32 t.nsec.toUInt32

def getU32 (p : Str) : UInt32 := UInt32.ofNat (leNat (p.take 4))
def getU64 (p : Str) : UInt64 := UInt64.ofNat (leNat (p.take 8))
def getTime (p : Str) : DirTime := ⟨(getU64 p).toInt64, (getU32 (p.drop 8)).toInt32⟩

/-- Bytes between the enabled flag and the hash kind byte. -/
def metadataRecordFixedBytes : ℕ := 4 + 4 + 4 + 8 + 3 * (8 + 4)

def encodeMetadataRecord (metadata : FileMetadata) : Str :=
  if !metadata.enabled then [0]
  else
    let hashLen := min metadata.hash.length 32
    [1] ++ putU32 metadata.mode ++ putU32 metadata.uid ++ putU32 metadata.gid ++
      putU64 metadata.size ++ putTime metadata.mtime ++ putTime metadata.ctime ++
      putTime metadata.atime ++ [metadata.hash.kind.toByte, UInt8.ofNat hashLen] ++
      metadata.hash.value.toList.take hashLen

/-- 0 when the bytes at `p` do not hold a whole record. -/
def metadataRecordSize (p : Str) : ℕ :=
  if p = [] then 0
  else if p.head? = some 0 then 1
  else
    let upToHashLen := 1 + metadataRecordFixedBytes + 2
    if p.length < upToHashLen then 0
    else
      let total := upToHashLen + (p.getD (upToHashLen - 1) 0).toNat
      if total ≤ p.length then total else 0

/-- The record at `p` and the bytes behind it. -/
def decodeMetadataRecord (p : Str) : Option (FileMetadata × Str) :=
  let size := metadataRecordSize p
  if size = 0 then none
  else if p.head? = some 0 then some ({}, p.drop 1)
  else
    let q := p.drop 1
    let hashLen := q.getD 57 0
    some ({
      enabled := true
      mode := getU32 q
      uid := getU32 (q.drop 4)
      gid := getU32 (q.drop 8)
      size := getU64 (q.drop 12)
      mtime := getTime (q.drop 20)
      ctime := getTime (q.drop 32)
      atime := getTime (q.drop 44)
      hash := {
        kind := .ofByte (q.getD 56 0)
        value := Vector.ofFn fun i =>
          if i < min hashLen.toNat 32 then (q.drop 58).getD i 0 else 0
        length := min hashLen.toNat 32 } }, p.drop size)

/-- What a record keeps of the metadata: nothing if it is not enabled, and of the hash only the
digest proper. -/
def FileMetadata.canonical (metadata : FileMetadata) : FileMetadata :=
  if metadata.enabled then
    { metadata with hash := .ofDigest metadata.hash.kind metadata.hash.digest }
  else {}

theorem length_putU32 (v : UInt32) : (putU32 v).length = 4 := length_leBytes 4 _
theorem length_putU64 (v : UInt64) : (putU64 v).length = 8 := length_leBytes 8 _

section RoundTrip

theorem getU32_putU32 (v : UInt32) (rest : Str) : getU32 (putU32 v ++ rest) = v := by
  rw [getU32, putU32, List.take_left' (length_leBytes 4 _), leNat_leBytes,
    show 256 ^ 4 = 2 ^ 32 from rfl, Nat.mod_eq_of_lt v.toNat_lt, UInt32.ofNat_toNat]

theorem getU64_putU64 (v : UInt64) (rest : Str) : getU64 (putU64 v ++ rest) = v := by
  rw [getU64, putU64, List.take_left' (length_leBytes 8 _), leNat_leBytes,
    show 256 ^ 8 = 2 ^ 64 from rfl, Nat.mod_eq_of_lt v.toNat_lt, UInt64.ofNat_toNat]

theorem getTime_putTime (t : DirTime) (rest : Str) : getTime (putTime t ++ rest) = t := by
  have hdrop : (putTime t ++ rest).drop 8 = putU32 t.nsec.toUInt32 ++ rest := rfl
  rw [getTime, hdrop, getU32_putU32, putTime, List.append_assoc, getU64_putU64]
  rfl

variable {metadata : FileMetadata}

theorem encodeMetadataRecord_of_disabled (h : metadata.enabled = false) :
    encodeMetadataRecord metadata = [0] := by
  rw [encodeMetadataRecord, h]
  rfl

/-- The record of enabled metadata in front of other bytes. -/
theorem encodeMetadataRecord_append (h : metadata.enabled = true)
    (hlen : metadata.hash.length ≤ 32) (rest : Str) :
    encodeMetadataRecord metadata ++ rest =
      1 :: (putU32 metadata.mode ++ (putU32 metadata.uid ++ (putU32 metadata.gid ++
        (putU64 metadata.size ++ (putTime metadata.mtime ++ (putTime metadata.ctime ++
        (putTime metadata.atime ++ (metadata.hash.kind.toByte ::
        UInt8.ofNat metadata.hash.length :: (metadata.hash.digest ++ rest))))))))) := by
  rw [encodeMetadataRecord, h, Nat.min_eq_left hlen]
  simp only [Bool.not_true, Bool.false_eq_true, if_false, List.append_assoc, List.cons_append,
    List.nil_append]
  rfl

theorem length_digest (hash : MetadataHash) (h : hash.length ≤ 32) :
    hash.digest.length = hash.length := by
  rw [MetadataHash.digest, List.length_take, Vector.length_toList, Nat.min_eq_left h]

theorem length_encodeMetadataRecord (h : metadata.enabled = true)
    (hlen : metadata.hash.length ≤ 32) :
    (encodeMetadataRecord metadata).length = 59 + metadata.hash.length := by
  have hdigest := length_digest metadata.hash hlen
  rw [← List.append_nil (encodeMetadataRecord metadata), encodeMetadataRecord_append h hlen,
    List.append_nil]
  simp only [List.length_cons, List.length_append, putU32, putU64, putTime, length_leBytes, hdigest]
  omega

theorem metadataRecordSize_encodeMetadataRecord (hlen : metadata.hash.length ≤ 32) (rest : Str) :
    metadataRecordSize (encodeMetadataRecord metadata ++ rest) =
      (encodeMetadataRecord metadata).length := by
  cases h : metadata.enabled with
  | false =>
      rw [encodeMetadataRecord_of_disabled h]
      rfl
  | true =>
      have hlength := length_encodeMetadataRecord h hlen
      have hall : (encodeMetadataRecord metadata ++ rest).length =
          59 + metadata.hash.length + rest.length := by rw [List.length_append, hlength]
      have hbyte : (encodeMetadataRecord metadata ++ rest).getD 58 0 =
          UInt8.ofNat metadata.hash.length := by
        rw [encodeMetadataRecord_append h hlen]
        rfl
      have hhead : (encodeMetadataRecord metadata ++ rest).head? = some 1 := by
        rw [encodeMetadataRecord_append h hlen]
        rfl
      have htoNat : (UInt8.ofNat metadata.hash.length).toNat = metadata.hash.length := by
        rw [UInt8.toNat_ofNat']
        omega
      rw [metadataRecordSize, if_neg (List.ne_nil_of_length_pos (by omega)), hhead,
        if_neg (by decide)]
      have hfixed : 1 + metadataRecordFixedBytes + 2 = 59 := rfl
      simp only [hfixed, Nat.add_one_sub_one, hbyte, htoNat]
      rw [if_neg (by omega), if_pos (by omega), hlength]

/-- A record is read back up to what it does not keep. -/
theorem decodeMetadataRecord_encodeMetadataRecord (hlen : metadata.hash.length ≤ 32) (rest : Str) :
    decodeMetadataRecord (encodeMetadataRecord metadata ++ rest) =
      some (metadata.canonical, rest) := by
  have hsize := metadataRecordSize_encodeMetadataRecord hlen rest
  have hdrop : (encodeMetadataRecord metadata ++ rest).drop
      (encodeMetadataRecord metadata).length = rest := List.drop_left
  cases h : metadata.enabled with
  | false =>
      rw [decodeMetadataRecord, hsize, encodeMetadataRecord_of_disabled h, FileMetadata.canonical,
        h]
      rfl
  | true =>
      have hlength := length_encodeMetadataRecord h hlen
      have hdigest := length_digest metadata.hash hlen
      have htoNat : (UInt8.ofNat metadata.hash.length).toNat = metadata.hash.length := by
        rw [UInt8.toNat_ofNat']
        omega
      have hhead : (encodeMetadataRecord metadata ++ rest).head? = some 1 := by
        rw [encodeMetadataRecord_append h hlen]
        rfl
      rw [decodeMetadataRecord, hsize, if_neg (by omega), hhead, if_neg (by decide), hdrop,
        FileMetadata.canonical, if_pos h, encodeMetadataRecord_append h hlen]
      refine congrArg (fun m => some (m, rest)) ?_
      have hmode := getU32_putU32 metadata.mode
      have huid := getU32_putU32 metadata.uid
      have hgid := getU32_putU32 metadata.gid
      have hsz := getU64_putU64 metadata.size
      have hmtime := getTime_putTime metadata.mtime
      have hctime := getTime_putTime metadata.ctime
      have hatime := getTime_putTime metadata.atime
      refine FileMetadata.mk.injEq .. |>.mpr ⟨h.symm, hmode _, huid _, hgid _, hsz _, hmtime _,
        hctime _, hatime _, MetadataHash.mk.injEq .. |>.mpr ⟨?_, ?_, ?_⟩⟩
      · exact MetadataHashKind.ofByte_toByte _
      · refine congrArg Vector.ofFn (funext fun i => ?_)
        change (if i.val < min (UInt8.ofNat metadata.hash.length).toNat 32 then
          (metadata.hash.digest ++ rest).getD i 0 else 0) = metadata.hash.digest.getD i 0
        rw [htoNat, Nat.min_eq_left hlen]
        by_cases hi : i.val < metadata.hash.length
        · rw [if_pos hi, List.getD_eq_getElem?_getD, List.getElem?_append_left (by omega),
            List.getD_eq_getElem?_getD]
        · rw [if_neg hi, List.getD_eq_getElem?_getD, List.getElem?_eq_none (by omega)]
          rfl
      · change min (UInt8.ofNat metadata.hash.length).toNat 32 = metadata.hash.digest.length
        rw [htoNat, Nat.min_eq_left hlen, hdigest]

end RoundTrip

end Flocate
