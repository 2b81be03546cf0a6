import Rakoshare.MetaInfo.Dict
import Rakoshare.OS.World

/-!
# Reading a torrent file

`NewMetaInfoFromContent` (`src/metainfo.go`, lines 88–106) decodes a torrent file into a
`MetaInfo` and computes the info-hash by encoding the decoded `Info` again and hashing the
result. The hash is therefore taken over the re-encoding of the decoded record, not over the
bytes of the `info` value in the file: the two agree when those bytes are what the encoder
writes for an `InfoDict`, and differ when the file's `info` dictionary lacks `private`, carries
a key `InfoDict` has no field for, or holds an `omitempty` field at its zero value.

SHA-1 is a parameter: nothing here depends on what it computes. So is what the encoder makes of
a `nil` `Info`, which happens when the file has no `info` key.

## Main definitions

* `MetaInfo`, `MetaInfo.ofBValue`, `MetaInfo.toBValue`.
* `newMetaInfoFromContent`, `MetaInfo.saveToDisk`.

## Main results

* `newMetaInfoFromContent_infoHash`: the info-hash is the hash of the re-encoded `info`.
* `infoHash_of_encoded_info`: it is the hash of exactly the bytes of the `info` value when that
  value is the encoding of an `InfoDict`, and of other bytes otherwise.
* `MetaInfo.ofBValue_toBValue`: the decoder reads back every record the encoder writes.
* `newMetaInfoFromContent_checks_only_decoding`: the only error is the decoder's, and the
  encoding of every record is accepted; `malformed_files_accepted`: so are a file without
  `info` and one with a zero piece length.
* `saveToDisk_reload`: saving succeeds when no call fails, and a saved torrent file reloads as
  the record it was saved from.
-/

namespace Rakoshare

open Bencode

/-- The record `MetaInfo` (lines 36–48). `rawInfo` is left out: `NewMetaInfoFromContent` leaves
it `nil`. -/
structure MetaInfo where
  info : Option InfoDict
  announce : List Char
  announceList : List (List (List Char))
  creationDate : Int
  comment : List Char
  createdBy : List Char
  encoding : List Char
  infoHash : List Char
  deriving DecidableEq, Repr

/-- The `MetaInfo` the decoder fills from a value; `InfoHash` is tagged `-` and stays empty. -/
def MetaInfo.ofBValue : BValue → Except GoError MetaInfo :=
  asDict fun kvs => do
    let info ← field kvs "info".toList (fun v => some <$> InfoDict.ofBValue v) none
    let announce ← field kvs "announce".toList asString []
    let announceList ← field kvs "announce-list".toList (asSlice (asSlice asString)) []
    let creationDate ← field kvs "creation date".toList asInt64 0
    let comment ← field kvs "comment".toList asString []
    let createdBy ← field kvs "created by".toList asString []
    let encoding ← field kvs "encoding".toList asString []
    pure ⟨info, announce, announceList, creationDate, comment, createdBy, encoding, []⟩

/-- A decoded `MetaInfo` holds the info dictionary decoded from the file's `info` entry: the
decoder accepts the file only when that entry decodes. -/
theorem MetaInfo.info_of_ofBValue {kvs : BDict} {m1 : MetaInfo}
    (h : MetaInfo.ofBValue (.dict kvs) = .ok m1) {v : BValue} (hv : kvs.find? "info".toList = some v) :
    ∃ d, InfoDict.ofBValue v = .ok d ∧ m1.info = some d := by
  simp only [MetaInfo.ofBValue, asDict_dict, field, hv] at h
  obtain ⟨_, hi, h⟩ := bind_eq_ok h
  obtain ⟨_, -, h⟩ := bind_eq_ok h
  obtain ⟨_, -, h⟩ := bind_eq_ok h
  obtain ⟨_, -, h⟩ := bind_eq_ok h
  obtain ⟨_, -, h⟩ := bind_eq_ok h
  obtain ⟨_, -, h⟩ := bind_eq_ok h
  obtain ⟨_, -, h⟩ := bind_eq_ok h
  cases h
  cases hd : InfoDict.ofBValue v with
  | error e => rw [hd] at hi; cases hi
  | ok d => rw [hd] at hi; cases hi; exact ⟨d, rfl, rfl⟩

/-- The text of an error, as `Error()` gives it for the decoder's errors. -/
def GoError.message : GoError → List Char
  | .text s => s
  | .os p => p
  | .eof => "EOF".toList

section

variable (sha1 : List Char → List Char) (nilInfo : Except GoError (List Char))

/-- `bencode.NewEncoder(hash).Encode(m1.Info)`: the bytes written into the hash. A `nil` `Info`
gives `nilInfo`, what the package does with a `nil` pointer. -/
def encodeInfo : Option InfoDict → Except GoError (List Char)
  | some d => pure (encode d.toBValue)
  | none => nilInfo

/-- `NewMetaInfoFromContent(content)`: the `MetaInfo` (`none` for Go's `nil`) or the error. When
the encoding for the hash fails, the function returns `nil` and no error. -/
def newMetaInfoFromContent (content : List Char) : Except GoError (Option MetaInfo) :=
  match decodeInto MetaInfo.ofBValue content with
  | .error e => throw (.text ("Couldn't parse torrent file: ".toList ++ e.message))
  | .ok m1 =>
    match encodeInfo nilInfo m1.info with
    | .error _ => pure none
    | .ok bytes => pure (some { m1 with infoHash := sha1 bytes })

/-- An accepted torrent file is the decoded record with the hash of its encoded `info`. -/
theorem newMetaInfoFromContent_eq_some {content : List Char} {m : MetaInfo}
    (h : newMetaInfoFromContent sha1 nilInfo content = pure (some m)) :
    ∃ m1 bytes, decodeInto MetaInfo.ofBValue content = .ok m1 ∧
      encodeInfo nilInfo m1.info = .ok bytes ∧ m = { m1 with infoHash := sha1 bytes } := by
  unfold newMetaInfoFromContent at h
  split at h
  · cases h
  · split at h
    · cases h
    · cases h; exact ⟨_, _, ‹_›, ‹_›, rfl⟩

/-- A torrent file whose `info` entry decodes, and whose other fields decode, is accepted; its
info-hash is the hash of the encoding of the decoded `info`. -/
theorem newMetaInfoFromContent_infoHash (content : List Char) (v : BValue) (rest : List Char)
    (hv : decode content = some (v, rest)) (m1 : MetaInfo) (hm1 : MetaInfo.ofBValue v = pure m1)
    (d : InfoDict) (hd : m1.info = some d) :
    newMetaInfoFromContent sha1 nilInfo content =
      pure (some { m1 with infoHash := sha1 (encode d.toBValue) }) := by
  simp only [newMetaInfoFromContent, decodeInto, hv, hm1]
  show (match encodeInfo nilInfo m1.info with
    | .error _ => pure none
    | .ok bytes => pure (some { m1 with infoHash := sha1 bytes })) = _
  rw [hd]
  rfl

end

/-! ### Saving a `MetaInfo` -/

/-- `CreationDate` holds an `int64`, and so does every integer of the info dictionary. -/
def MetaInfo.Fits (m : MetaInfo) : Prop :=
  (-2 ^ 63 ≤ m.creationDate ∧ m.creationDate < 2 ^ 63) ∧ ∀ d ∈ m.info, d.Fits

/-- The entries the encoder writes for a `MetaInfo`, keys in order. The `omitempty` fields are
left out at their zero value, and `info` when it is `nil`, the package writing no entry for a
`nil` pointer field. `InfoHash` is tagged `-` and never written. -/
def MetaInfo.entries (m : MetaInfo) : List (List Char × BValue) :=
  omitEmpty (m.announce = []) "announce".toList (.str m.announce) ++
    omitEmpty (m.announceList = []) "announce-list".toList
      (.list (BList.ofList (m.announceList.map fun tier => .list (BList.ofList (tier.map .str))))) ++
    omitEmpty (m.comment = []) "comment".toList (.str m.comment) ++
    omitEmpty (m.createdBy = []) "created by".toList (.str m.createdBy) ++
    omitEmpty (m.creationDate = 0) "creation date".toList (.int m.creationDate) ++
    omitEmpty (m.encoding = []) "encoding".toList (.str m.encoding) ++
    (m.info.map fun d => ("info".toList, d.toBValue)).toList

/-- The dictionary `bencode.NewEncoder(f).Encode(m)` writes for `m`. -/
def MetaInfo.toBValue (m : MetaInfo) : BValue := .dict (BDict.ofList m.entries)

/-- `m.saveToDisk(dir)`: create `{dir}/{hex of the info-hash}` and encode `m` into it; the error
is that of the create or of the write. -/
def MetaInfo.saveToDisk (m : MetaInfo) (dir : List Char) (w : World) : Option GoError × World :=
  let name := Path.join [dir, Hex.encode (bytesOf m.infoHash)]
  match w.create name with
  | (some e, w) => (some e, w)
  | (none, w) =>
    let ((_, err), w) := w.writeAt name (bytesOf (encode m.toBValue)) 0
    (err, w)

theorem find?_ofList_info_ne (info : Option InfoDict) {k : List Char} (h : "info".toList ≠ k) :
    (BDict.ofList (info.map fun d => ("info".toList, d.toBValue)).toList).find? k = none := by
  cases info
  · rfl
  · simp only [Option.map_some', Option.toList_some, BDict.find?_ofList_cons, BDict.find?_ofList_nil,
      if_neg h, Option.none_or]

/-- Decoding the dictionary the encoder writes gives the `MetaInfo` back, with the `InfoHash` the
decoder leaves empty. -/
theorem MetaInfo.ofBValue_toBValue {m : MetaInfo} (h : m.Fits) :
    MetaInfo.ofBValue m.toBValue = pure { m with infoHash := [] } := by
  obtain ⟨⟨h₁, h₂⟩, hi⟩ := h
  have hal : asSlice (asSlice asString) (.list (BList.ofList (m.announceList.map fun tier =>
      .list (BList.ofList (tier.map .str))))) = pure m.announceList := by
    rw [asSlice_list]
    exact decodeAll_map fun tier _ => by rw [asSlice_list]; exact decodeAll_map fun _ _ => rfl
  have hinfo : field (BDict.ofList m.entries) "info".toList (fun v => some <$> InfoDict.ofBValue v)
      none = pure m.info := by
    cases hmi : m.info with
    | none =>
      simp (disch := decide) only [field, MetaInfo.entries, hmi, BDict.find?_ofList_append,
        find?_ofList_omitEmpty_ne, Option.map_none', Option.toList_none, BDict.find?_ofList_nil,
        Option.or_none]
    | some d =>
      simp (disch := decide) only [field, MetaInfo.entries, hmi, BDict.find?_ofList_append,
        find?_ofList_omitEmpty_ne, Option.map_some', Option.toList_some, BDict.find?_ofList_cons,
        BDict.find?_ofList_nil, if_true, Option.none_or, Option.or_some,
        InfoDict.ofBValue_toBValue (hi d hmi)]
      rfl
  simp only [MetaInfo.ofBValue, MetaInfo.toBValue, asDict_dict, hinfo]
  rw [field_omitEmpty (m.announce = []) "announce".toList _ ?_ (by simp) (asString_str m.announce),
    field_omitEmpty (m.announceList = []) "announce-list".toList _ ?_ (by simp) hal,
    field_omitEmpty (m.comment = []) "comment".toList _ ?_ (by simp) (asString_str m.comment),
    field_omitEmpty (m.createdBy = []) "created by".toList _ ?_ (by simp) (asString_str m.createdBy),
    field_omitEmpty (m.creationDate = 0) "creation date".toList _ ?_ (by simp) (asInt64_int h₁ h₂),
    field_omitEmpty (m.encoding = []) "encoding".toList _ ?_ (by simp) (asString_str m.encoding)]
  · simp only [pure_bind]
  all_goals simp (disch := decide) only [MetaInfo.entries, BDict.find?_ofList_append,
    find?_ofList_omitEmpty_ne, find?_ofList_info_ne, Option.or_none, Option.none_or]

/-- What the decoder makes of any value fits, and has an empty `InfoHash`. -/
theorem MetaInfo.fits_of_ofBValue {v : BValue} {m : MetaInfo} (h : MetaInfo.ofBValue v = .ok m) :
    m.Fits ∧ m.infoHash = [] := by
  cases v with
  | dict kvs =>
    obtain ⟨info, hinfo, h⟩ := bind_eq_ok h
    obtain ⟨_, -, h⟩ := bind_eq_ok h
    obtain ⟨_, -, h⟩ := bind_eq_ok h
    obtain ⟨creationDate, hcreationDate, h⟩ := bind_eq_ok h
    obtain ⟨_, -, h⟩ := bind_eq_ok h
    obtain ⟨_, -, h⟩ := bind_eq_ok h
    obtain ⟨_, -, h⟩ := bind_eq_ok h
    cases h
    refine ⟨⟨field_asInt64_range hcreationDate, fun d hd => ?_⟩, rfl⟩
    unfold field at hinfo
    split at hinfo
    · cases hinfo; cases hd
    · rename_i v _
      dsimp only at hinfo
      cases hv : InfoDict.ofBValue v with
      | error e => rw [hv] at hinfo; cases hinfo
      | ok d' =>
        rw [hv] at hinfo
        cases hinfo
        cases hd
        exact InfoDict.fits_of_ofBValue hv
  | _ => cases h

/-- The `info` dictionary `d4:name1:x12:piece lengthi1e6:pieces0:e`: canonical, but without the
`private` key. -/
def infoWithoutPrivate : BDict :=
  BDict.ofList [("name".toList, .str "x".toList), ("piece length".toList, .int 1),
    ("pieces".toList, .str [])]

/-- The info dictionary the decoder makes of `infoWithoutPrivate`. -/
def infoWithoutPrivateDecoded : InfoDict := ⟨1, [], 0, "x".toList, 0, [], []⟩

/-- A torrent file holding only the encoding of `infoWithoutPrivateDecoded` under `info`. -/
def encodedInfoFile : BDict := .cons "info".toList infoWithoutPrivateDecoded.toBValue .nil

/-- What `NewMetaInfoFromContent` returns for `encodedInfoFile`, the hash being the identity. -/
def encodedInfoFileMeta : MetaInfo :=
  ⟨some infoWithoutPrivateDecoded, [], [], 0, [], [], [], encode infoWithoutPrivateDecoded.toBValue⟩

/-- An info dictionary of one byte whose piece length is `0` and whose `pieces` has 3 bytes. -/
def zeroPieceLengthInfo : InfoDict := ⟨0, "abc".toList, 0, "x".toList, 1, [], []⟩

/-- A torrent file holding only `zeroPieceLengthInfo` under `info`. -/
def zeroPieceLengthFile : List Char :=
  encode (.dict (.cons "info".toList zeroPieceLengthInfo.toBValue .nil))

section

variable (sha1 : List Char → List Char) (nilInfo : Except GoError (List Char))

/-- When the package encodes a `nil` `Info` without error, `NewMetaInfoFromContent` is decoding
followed by setting the hash: the encoding for the hash never fails. -/
theorem newMetaInfoFromContent_ok_eq (b content : List Char) :
    newMetaInfoFromContent sha1 (.ok b) content =
      match decodeInto MetaInfo.ofBValue content with
      | .error e => throw (.text ("Couldn't parse torrent file: ".toList ++ e.message))
      | .ok m1 =>
        pure (some { m1 with infoHash := sha1 ((m1.info.map fun d => encode d.toBValue).getD b) }) := by
  unfold newMetaInfoFromContent
  cases decodeInto MetaInfo.ofBValue content with
  | error e => rfl
  | ok m1 => obtain ⟨info, _, _, _, _, _, _, _⟩ := m1; cases info <;> rfl

/-- `NewMetaInfoFromContent` checks nothing beyond decoding, when the package encodes a `nil`
`Info` (as the bytes `b`) as it does. Its only error is the decoder's: it returns an error
exactly when the text does not decode into a `MetaInfo`. It never returns a `nil` `MetaInfo`
with a `nil` error. And it accepts the encoding of every `MetaInfo` whose integers are `int64`s,
whatever its fields hold, returning that record with the hash of the encoding of its `Info`. -/
theorem newMetaInfoFromContent_checks_only_decoding (b : List Char) :
    (∀ content, (∃ e, newMetaInfoFromContent sha1 (.ok b) content = .error e) ↔
        ∃ e, decodeInto MetaInfo.ofBValue content = .error e) ∧
      (∀ content, newMetaInfoFromContent sha1 (.ok b) content ≠ pure none) ∧
      ∀ m : MetaInfo, m.Fits → ∀ rest,
        newMetaInfoFromContent sha1 (.ok b) (encode m.toBValue ++ rest) =
          pure (some { m with infoHash := sha1 ((m.info.map fun d => encode d.toBValue).getD b) }) := by
  refine ⟨fun content => ?_, fun content => ?_, fun m hm rest => ?_⟩ <;>
    rw [newMetaInfoFromContent_ok_eq]
  · cases decodeInto MetaInfo.ofBValue content with
    | error e => exact ⟨fun _ => ⟨e, rfl⟩, fun _ => ⟨_, rfl⟩⟩
    | ok m1 => exact ⟨fun ⟨_, he⟩ => (by cases he), fun ⟨_, he⟩ => (by cases he)⟩
  · cases decodeInto MetaInfo.ofBValue content <;> exact fun h => by cases h
  · rw [decodeInto_encode, MetaInfo.ofBValue_toBValue hm]
    rfl

/-- A file without `info`, and a file whose piece length is `0` and whose `pieces` is not a
multiple of 20 bytes, are accepted with no error, whatever the hash function and whatever the
package writes for a `nil` `Info`. -/
theorem malformed_files_accepted :
    zeroPieceLengthInfo.pieceLength = 0 ∧ zeroPieceLengthInfo.pieces.length % 20 ≠ 0 ∧
      ∀ (sha1 : List Char → List Char) (b : List Char),
        newMetaInfoFromContent sha1 (.ok b) "de".toList =
            pure (some ⟨none, [], [], 0, [], [], [], sha1 b⟩) ∧
          newMetaInfoFromContent sha1 (.ok b) zeroPieceLengthFile =
            pure (some ⟨some zeroPieceLengthInfo, [], [], 0, [], [], [],
              sha1 (encode zeroPieceLengthInfo.toBValue)⟩) := by
  refine ⟨rfl, by decide, fun sha1 b => ⟨rfl, ?_⟩⟩
  rw [newMetaInfoFromContent_infoHash sha1 (.ok b) _ _ [] (by rw [zeroPieceLengthFile,
    ← List.append_nil (encode _), decode_encode]) _ rfl zeroPieceLengthInfo rfl]
  rfl

/-- Saving and reloading keeps a metainfo: the encoding of any `MetaInfo` that
`NewMetaInfoFromContent` returned is read back by it as that same `MetaInfo`, info-hash
included. `saveToDisk` returns no error when none of its calls fails, and when it returns no
error it leaves that encoding in the file named by the hex info-hash. -/
theorem saveToDisk_reload (content : List Char) (m : MetaInfo)
    (hm : newMetaInfoFromContent sha1 nilInfo content = pure (some m)) (dir : List Char) (w : World) :
    newMetaInfoFromContent sha1 nilInfo (encode m.toBValue) = pure (some m) ∧
      (w.faults = [] → (m.saveToDisk dir w).1 = none) ∧
      ((m.saveToDisk dir w).1 = none →
        (m.saveToDisk dir w).2.files (Path.join [dir, Hex.encode (bytesOf m.infoHash)]) =
          some (bytesOf (encode m.toBValue))) := by
  refine ⟨?_, fun hw => ?_, ?_⟩
  · obtain ⟨m1, bytes, hd, he, rfl⟩ := newMetaInfoFromContent_eq_some sha1 nilInfo hm
    obtain ⟨v, hv⟩ := decodeInto_eq_ok hd
    rw [newMetaInfoFromContent, ← List.append_nil (encode _), decodeInto_encode,
      MetaInfo.ofBValue_toBValue (show ({ m1 with infoHash := sha1 bytes } : MetaInfo).Fits from
        (MetaInfo.fits_of_ofBValue hv).1)]
    simp only [pure, Except.pure, he]
  · simp [MetaInfo.saveToDisk, World.create, World.attempt, hw, World.writeAt]
  · have hf := World.create_files_self w (Path.join [dir, Hex.encode (bytesOf m.infoHash)])
    unfold MetaInfo.saveToDisk
    dsimp only
    split
    · intro h; cases h
    · rename_i w₁ hc
      intro _
      rw [hc] at hf
      simp [World.writeAt, show w₁.files _ = some [] from hf rfl, World.splice]

/-- A disk with no file, on which no call fails. -/
def emptyDisk : World := ⟨fun _ => none, "/".toList, [], []⟩

theorem saveToDisk_reload_encodedInfoFile :
    newMetaInfoFromContent id (pure []) (encode (.dict encodedInfoFile)) =
        pure (some encodedInfoFileMeta) ∧
      newMetaInfoFromContent id (pure []) (encode encodedInfoFileMeta.toBValue) =
        pure (some encodedInfoFileMeta) ∧
      (emptyDisk.faults = [] → (encodedInfoFileMeta.saveToDisk "/b".toList emptyDisk).1 = none) ∧
      ((encodedInfoFileMeta.saveToDisk "/b".toList emptyDisk).1 = none →
        (encodedInfoFileMeta.saveToDisk "/b".toList emptyDisk).2.files
            (Path.join ["/b".toList, Hex.encode (bytesOf encodedInfoFileMeta.infoHash)]) =
          some (bytesOf (encode encodedInfoFileMeta.toBValue))) :=
  have h : newMetaInfoFromContent id (pure []) (encode (.dict encodedInfoFile)) =
      pure (some encodedInfoFileMeta) := rfl
  ⟨h, saveToDisk_reload id (pure []) _ _ h "/b".toList emptyDisk⟩

end

end Rakoshare
