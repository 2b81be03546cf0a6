import Rakoshare.FileStore.Staging
import Rakoshare.MetaInfo.Dict

/-!
# Building a file store from an info dictionary

`NewFileStore` (`src/unnamed/part_001`, lines 152–199) lays out the files of a torrent under a
store directory. A single-file torrent is treated as one file whose path is its `name`. Each
file's path is cleaned as a rooted path, so that `..` cannot climb above the root, and joined to
the store path; `ensureDirectory` creates the directory that will hold it and `fileEntry.open`
finds or stages its backing file. The offsets are the running sum of the lengths in Go's `int64`
arithmetic.

`ensureDirectory` panics when the directory part of the path it computes is empty; the path it
splits always contains a slash, so that branch is never taken (`ensureDirectory_base_ne_nil`).

## Main definitions

* `ensureDirectory`, `cleanSrcPath`, `fullPath`, `newFileStoreLoop`, `newFileStore`.

## Main results

* `ensureDirectory_base_ne_nil`: the panic of `ensureDirectory` is never reached.
* `newFileStore_accepts_negative_length`, `newFileStore_dotdot_outside_root`: what
  `NewFileStore` accepts.
* `cleanup_misnames_final_file`: `Cleanup` with no failing call leaves a file named `a.part.txt`
  under a wrong name, and the store's entry staged.
-/

namespace Rakoshare

/-- The absolute form `ensureDirectory` gives a cleaned path: unchanged when rooted, else
prefixed with the current directory and a slash. -/
def absPath (cwd p : List Char) : List Char :=
  if ['/'].isPrefixOf p then p else cwd ++ ['/'] ++ p

theorem slash_mem_absPath (cwd p : List Char) : Path.slash ∈ absPath cwd p := by
  unfold absPath
  split
  · rename_i h
    obtain ⟨t, rfl⟩ := List.isPrefixOf_iff_prefix.mp h
    exact List.mem_append_left _ (List.mem_singleton_self _)
  · simp [Path.slash]

/-- The directory `ensureDirectory` creates is never empty, so its panic is never reached. -/
theorem ensureDirectory_base_ne_nil (cwd p : List Char) :
    (Path.split (absPath cwd (Path.clean p))).1 ≠ [] :=
  Path.split_fst_ne_nil (slash_mem_absPath _ _)

/-- `ensureDirectory(fullPath)`: create the directory part of the absolute, cleaned path. A path
that is not rooted first needs `os.Getwd`, whose error is returned as it is. -/
def ensureDirectory (fullPath : List Char) (w : World) : Option GoError × World :=
  let fullPath := Path.clean fullPath
  let (err, w) := w.getwdIf !(['/'].isPrefixOf fullPath)
  match err with
  | some e => (some e, w)
  | none =>
    let (base, _) := Path.split (absPath w.cwd fullPath)
    w.mkdirAll base

/-- The path a file dictionary's `path` gives under the store: cleaned as a rooted path, with the
leading slash removed. -/
def cleanSrcPath (src : FileDict) : List Char := (Path.clean ('/' :: Path.join src.path)).drop 1

/-- `path.Join(storePath, cleanSrcPath)`. -/
def fullPath (storePath : List Char) (src : FileDict) : List Char :=
  Path.join [storePath, cleanSrcPath src]

/-- The loop of `NewFileStore` over the file dictionaries: the entries opened, each with its
offset, the running `totalSize`, and the error that stopped it. -/
def newFileStoreLoop (storePath : List Char) :
    List FileDict → Int → World → (List (Int × FileEntry) × Int × Option GoError) × World
  | [], totalSize, w => (([], totalSize, none), w)
  | src :: rest, totalSize, w =>
    let fullPath := fullPath storePath src
    let (err, w) := ensureDirectory fullPath w
    match err with
    | some e => (([], totalSize, some e), w)
    | none =>
      let ((fe, err), w) := FileEntry.open fullPath src.length w
      match err with
      | some e => (([], totalSize, some e), w)
      | none =>
        let ((entries, totalSize', err), w) :=
          newFileStoreLoop storePath rest (wrapInt64 (totalSize + src.length)) w
        (((totalSize, fe) :: entries, totalSize', err), w)

/-- The file list `NewFileStore` walks: `info.Files`, or for a single-file torrent one file
whose path is the torrent's name. -/
def storeFiles (info : InfoDict) : List FileDict :=
  if info.files = [] then [⟨info.length, [info.name], info.md5sum⟩] else info.files

/-- The store made from the entries the loop opened. -/
def FileStore.ofEntries (entries : List (Int × FileEntry)) : FileStore :=
  ⟨entries.map Prod.fst, entries.map Prod.snd, by simp⟩

/-- `NewFileStore(info, storePath)`: the store (`none` for Go's `nil`), `totalSize`, the error,
and the world after it. -/
def newFileStore (info : InfoDict) (storePath : List Char) (w : World) :
    (Option FileStore × Int × Option GoError) × World :=
  let ((entries, totalSize, err), w) := newFileStoreLoop storePath (storeFiles info) 0 w
  match err with
  | some e => ((none, totalSize, some e), w)
  | none => ((some (FileStore.ofEntries entries), totalSize, none), w)

/-- A world with no files, the current directory `/`, and no faults. -/
def World.fresh : World := ⟨fun _ => none, "/".toList, [], []⟩

/-! ### What `NewFileStore` accepts -/

/-- A single-file torrent of length `-1` is accepted: `NewFileStore` returns no error and a store
whose only entry has length `-1`, backed by an empty file, since the error of the truncate to
`-1` never reaches the caller. -/
theorem newFileStore_accepts_negative_length :
    (newFileStore ⟨4, [], 0, "f".toList, -1, [], []⟩ "/s".toList World.fresh).1.2.2 = none ∧
      ((newFileStore ⟨4, [], 0, "f".toList, -1, [], []⟩ "/s".toList World.fresh).1.1.map
        FileStore.files) = some [⟨-1, "/s/f.part".toList⟩] ∧
      (newFileStore ⟨4, [], 0, "f".toList, -1, [], []⟩ "/s".toList World.fresh).2.files
        "/s/f.part".toList = some [] := by
  decide

/-- A torrent whose file path is `..` is laid out on the store root `/s` itself: its staged file
`/s.part` is created beside the root, and is the entry's backing name. -/
theorem newFileStore_dotdot_outside_root :
    ((newFileStore ⟨4, [], 0, "..".toList, 1, [], []⟩ "/s".toList World.fresh).1.1.map
        fun f => f.files.map FileEntry.name) = some ["/s.part".toList] ∧
      SysCall.create "/s.part".toList ∈
        (newFileStore ⟨4, [], 0, "..".toList, 1, [], []⟩ "/s".toList World.fresh).2.calls ∧
      ¬ (Path.clean "/s".toList ++ [Path.slash]).isPrefixOf (Path.clean "/s.part".toList) := by
  decide

/-- A two-file torrent: `x` of three bytes and `d/y` of five. -/
def twoFileInfo : InfoDict :=
  ⟨4, [], 0, "t".toList, 0, [], [⟨3, ["x".toList], []⟩, ⟨5, ["d".toList, "y".toList], []⟩]⟩

/-- A single-file torrent named `a.part.txt`, and `NewFileStore` of it under `/s` on a fresh
world. -/
def dotPartInfo : InfoDict := ⟨4, [], 0, "a.part.txt".toList, 1, [], []⟩

def dotPartRun : (Option FileStore × Int × Option GoError) × World :=
  newFileStore dotPartInfo "/s".toList World.fresh

/-- `Cleanup` does not finalize a store's entries under their paths. `NewFileStore` stages the
file `a.part.txt`, whose final path is `/s/a.part.txt`, under `/s/a.part.txt.part`. `Cleanup`
then runs with no failing call and no error, but it strips the first `.part` of the staged name:
the bytes land in `/s/a.txt.part` and the final path holds no file. As it updates copies of the
entries, the store's entry is still the staged one. -/
theorem cleanup_misnames_final_file :
    (storeFiles dotPartInfo).map (fullPath "/s".toList) = ["/s/a.part.txt".toList] ∧
      dotPartRun.2.faults = [] ∧
      (dotPartRun.1.1.map fun f => f.files.map fun e => (e.name, e.isPart)) =
        some [("/s/a.part.txt.part".toList, true)] ∧
      (dotPartRun.1.1.map fun f => (f.cleanup dotPartRun.2).1) = some none ∧
      (dotPartRun.1.1.map fun f => (f.cleanup dotPartRun.2).2.files "/s/a.part.txt".toList) =
        some none ∧
      (dotPartRun.1.1.map fun f => (f.cleanup dotPartRun.2).2.files "/s/a.txt.part".toList) =
        some (some [0]) := by
  decide

end Rakoshare
