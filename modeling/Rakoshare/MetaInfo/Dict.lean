import Rakoshare.MetaInfo.Bencode

/-!
# The info dictionary of a torrent

The records `FileDict` and `InfoDict` of `src/metainfo.go` (lines 18–34), field for field, and
their bencode form as the struct tags give it. A Go `string` is a list of bytes and an `int64`
an integer; `Files` holds the file dictionaries themselves, since the decoder never leaves a
`nil` pointer in that slice.

The tags mark `length`, `md5sum` and `files` of `InfoDict` and `md5sum` of `FileDict` as
`omitempty`: the encoder leaves them out when they hold their zero value, and the decoder gives
a missing field its zero value. `private` is not `omitempty`, so it is always written.

## Main definitions

* `FileDict`, `InfoDict`.
* `FileDict.toBValue`, `InfoDict.toBValue`: the dictionary the encoder writes.
* `FileDict.ofBValue`, `InfoDict.ofBValue`: the decoder.
* `FileDict.Fits`, `InfoDict.Fits`: every integer field holds an `int64`.

## Main results

* `InfoDict.ofBValue_toBValue`: decoding what the encoder writes gives the record back.
* `InfoDict.fits_of_ofBValue`: what the decoder returns fits, so it is read back after encoding.
-/

namespace Rakoshare

open Bencode

/-- One file of a multi-file torrent. -/
structure FileDict where
  length : Int
  path : List (List Char)
  md5sum : List Char
  deriving DecidableEq, Repr

/-- The `info` dictionary of a torrent: single-file mode uses `length` and `md5sum`,
multi-file mode `files`. -/
structure InfoDict where
  pieceLength : Int
  pieces : List Char
  «private» : Int
  name : List Char
  length : Int
  md5sum : List Char
  files : List FileDict
  deriving DecidableEq, Repr

namespace FileDict

/-- The length holds an `int64`. -/
def Fits (fd : FileDict) : Prop := -2 ^ 63 ≤ fd.length ∧ fd.length < 2 ^ 63

instance : DecidablePred Fits := fun _ => inferInstanceAs (Decidable (_ ∧ _))

/-- The dictionary the encoder writes for a file: `length`, `md5sum` unless empty, `path`. -/
def toBValue (fd : FileDict) : BValue :=
  .dict (BDict.ofList ([("length".toList, .int fd.length)] ++
    omitEmpty (fd.md5sum = []) "md5sum".toList (.str fd.md5sum) ++
    [("path".toList, .list (BList.ofList (fd.path.map .str)))]))

/-- The file dictionary the decoder fills from a value. -/
def ofBValue : BValue → Except GoError FileDict :=
  asDict fun kvs => do
    let length ← field kvs "length".toList asInt64 0
    let path ← field kvs "path".toList (asSlice asString) []
    let md5sum ← field kvs "md5sum".toList asString []
    pure ⟨length, path, md5sum⟩

theorem ofBValue_toBValue {fd : FileDict} (h : fd.Fits) : ofBValue fd.toBValue = pure fd := by
  obtain ⟨length, path, md5sum⟩ := fd
  obtain ⟨h₁, h₂⟩ := h
  have hp : decodeAll asString (path.map BValue.str) = pure path := decodeAll_map fun _ _ => rfl
  by_cases hm : md5sum = [] <;>
    simp [ofBValue, toBValue, omitEmpty, hm, field, BDict.ofList, BDict.find?, asInt64_int h₁ h₂, hp]

/-- What the decoder makes of any value has an `int64` length. -/
theorem fits_of_ofBValue {v : BValue} {fd : FileDict} (h : ofBValue v = .ok fd) : fd.Fits := by
  cases v with
  | dict kvs =>
    obtain ⟨length, hlength, h⟩ := bind_eq_ok h
    obtain ⟨_, -, h⟩ := bind_eq_ok h
    obtain ⟨_, -, h⟩ := bind_eq_ok h
    cases h
    exact field_asInt64_range hlength
  | _ => cases h

end FileDict

namespace InfoDict

/-- Every integer field, those of the files included, holds an `int64`. -/
def Fits (d : InfoDict) : Prop :=
  (-2 ^ 63 ≤ d.pieceLength ∧ d.pieceLength < 2 ^ 63) ∧ (-2 ^ 63 ≤ d.private ∧ d.private < 2 ^ 63) ∧
    (-2 ^ 63 ≤ d.length ∧ d.length < 2 ^ 63) ∧ ∀ fd ∈ d.files, fd.Fits

instance : DecidablePred Fits := fun _ => inferInstanceAs (Decidable (_ ∧ _ ∧ _ ∧ _))

/-- The dictionary the encoder writes for an info dictionary, its keys in order, the empty
`omitempty` fields left out. -/
def toBValue (d : InfoDict) : BValue :=
  .dict (BDict.ofList (
    omitEmpty (d.files = []) "files".toList (.list (BList.ofList (d.files.map FileDict.toBValue))) ++
    omitEmpty (d.length = 0) "length".toList (.int d.length) ++
    omitEmpty (d.md5sum = []) "md5sum".toList (.str d.md5sum) ++
    [("name".toList, .str d.name), ("piece length".toList, .int d.pieceLength),
      ("pieces".toList, .str d.pieces), ("private".toList, .int d.private)]))

/-- The info dictionary the decoder fills from a value. -/
def ofBValue : BValue → Except GoError InfoDict :=
  asDict fun kvs => do
    let pieceLength ← field kvs "piece length".toList asInt64 0
    let pieces ← field kvs "pieces".toList asString []
    let «private» ← field kvs "private".toList asInt64 0
    let name ← field kvs "name".toList asString []
    let length ← field kvs "length".toList asInt64 0
    let md5sum ← field kvs "md5sum".toList asString []
    let files ← field kvs "files".toList (asSlice FileDict.ofBValue) []
    pure ⟨pieceLength, pieces, «private», name, length, md5sum, files⟩

/-- Decoding the dictionary the encoder writes gives the info dictionary back. -/
theorem ofBValue_toBValue {d : InfoDict} (h : d.Fits) : ofBValue d.toBValue = pure d := by
  obtain ⟨pieceLength, pieces, «private», name, length, md5sum, files⟩ := d
  obtain ⟨⟨h₁, h₂⟩, ⟨h₃, h₄⟩, ⟨h₅, h₆⟩, h₇⟩ := h
  have hf : asSlice FileDict.ofBValue (.list (BList.ofList (files.map FileDict.toBValue))) =
      pure files := by
    rw [asSlice_list]; exact decodeAll_map fun fd hfd => FileDict.ofBValue_toBValue (h₇ fd hfd)
  simp only [ofBValue, toBValue, asDict_dict]
  rw [field_omitEmpty (files = []) "files".toList _ ?_ (by simp) hf,
    field_omitEmpty (length = 0) "length".toList _ ?_ (by simp) (asInt64_int h₅ h₆),
    field_omitEmpty (md5sum = []) "md5sum".toList _ ?_ (by simp) (asString_str md5sum)]
  all_goals simp (disch := decide) only [field, BDict.find?_ofList_append, BDict.find?_ofList_cons,
    BDict.find?_ofList_nil, find?_ofList_omitEmpty_ne, if_pos, if_neg, Option.or_none,
    Option.none_or, Option.or_some, asInt64_int h₁ h₂, asInt64_int h₃ h₄, asString_str, pure_bind]

/-- What the decoder makes of any value fits: each integer it reads is an `int64`. -/
theorem fits_of_ofBValue {v : BValue} {d : InfoDict} (h : ofBValue v = .ok d) : d.Fits := by
  cases v with
  | dict kvs =>
    obtain ⟨pieceLength, hpieceLength, h⟩ := bind_eq_ok h
    obtain ⟨_, -, h⟩ := bind_eq_ok h
    obtain ⟨«private», hprivate, h⟩ := bind_eq_ok h
    obtain ⟨_, -, h⟩ := bind_eq_ok h
    obtain ⟨length, hlength, h⟩ := bind_eq_ok h
    obtain ⟨_, -, h⟩ := bind_eq_ok h
    obtain ⟨files, hfiles, h⟩ := bind_eq_ok h
    cases h
    refine ⟨field_asInt64_range hpieceLength, field_asInt64_range hprivate,
      field_asInt64_range hlength, fun fd hfd => ?_⟩
    obtain ⟨v, hv⟩ := field_asSlice_mem hfiles hfd
    exact FileDict.fits_of_ofBValue hv
  | _ => cases h

end InfoDict

end Rakoshare
