import Rakoshare.FileStore.Build

/-!
# The backing files of distinct torrent files

`fileEntry.open`, `SetPart` and `Cleanup` (`src/unnamed/part_001`, lines 36–150) derive every
name they create, truncate, copy to or remove from the path the entry was opened from: the path,
the path with `.part` appended, the staging name `open` computes, and what `SetPart` (append
`.part`) and `Cleanup` (drop the first `.part`) make of these. The *family* of a path collects
them. Every entry of a store stays backed by a name of its path's family, and each of these
calls changes no file outside that family. So when the paths of a torrent have pairwise disjoint
families, no two entries share a backing file, and no call on one entry changes the file of
another.

Distinct paths can have families that meet. The file `x.part` is in the family of the file `x`.
And `open` cuts the whole path, store path included, to 60 bytes before its extension, against
its comment's "Cap filename": two files with one extension under a store path longer than that
share a staging name.

## Main definitions

* `familyStep`, `Family`, `FamiliesDisjoint`.
* `storePaths`, `ReachableFrom`.

## Main results

* `FileEntry.open_changesOnly`, `FileEntry.setPart_changesOnly`, `FileEntry.cleanup_changesOnly`:
  what each call may change.
* `ReachableFrom.inFamilies`: every entry of a reachable store is backed by a name of its path's
  family.
* `backing_files_disjoint`: with disjoint families, backing names are distinct and calls on one
  entry leave every other entry's file alone.
* `staging_name_shared_under_long_root`: under a long store path, two files share one staging
  file.
-/

namespace Rakoshare

/-! ### The family of a path -/

/-- What `SetPart` makes of a name that does not end in `.part`, and `Cleanup` of one that does;
the other call leaves the name as it is. -/
def familyStep (q : List Char) : List Char :=
  if partSuffix.isSuffixOf q then Strings.replace q partSuffix [] else q ++ partSuffix

/-- The family of the path `name`: the names that back the entry opened from it, or that its
calls write or remove. -/
inductive Family (name : List Char) : List Char → Prop
  | self : Family name name
  | part : Family name (name ++ partSuffix)
  | staging : Family name (stagingName name)
  | step {q : List Char} : Family name q → Family name (familyStep q)

/-- Two paths whose families share no name. -/
def FamiliesDisjoint (F G : List Char) : Prop := ∀ q, Family F q → Family G q → False

theorem FamiliesDisjoint.symm {F G : List Char} (h : FamiliesDisjoint F G) : FamiliesDisjoint G F :=
  fun q hG hF => h q hF hG

/-- A list holding the first names of the family of `name` and closed under `familyStep`. -/
def FamilyClosed (name : List Char) (L : List (List Char)) : Prop :=
  name ∈ L ∧ name ++ partSuffix ∈ L ∧ stagingName name ∈ L ∧ ∀ q ∈ L, familyStep q ∈ L

instance (name : List Char) (L : List (List Char)) : Decidable (FamilyClosed name L) :=
  inferInstanceAs (Decidable (_ ∧ _ ∧ _ ∧ _))

/-- A closed list holds the whole family. -/
theorem Family.mem_of_closed {name : List Char} {L : List (List Char)} (hL : FamilyClosed name L)
    {q : List Char} (hq : Family name q) : q ∈ L := by
  induction hq with
  | self => exact hL.1
  | part => exact hL.2.1
  | staging => exact hL.2.2.1
  | step _ ih => exact hL.2.2.2 _ ih

/-- Families are disjoint when closed lists holding them are. -/
theorem familiesDisjoint_of_closed {F G : List Char} (L M : List (List Char))
    (hL : FamilyClosed F L) (hM : FamilyClosed G M) (h : ∀ q ∈ L, q ∉ M) : FamiliesDisjoint F G :=
  fun _ hF hG => h _ (hF.mem_of_closed hL) (hG.mem_of_closed hM)

/-! ### What the calls on one entry change -/

namespace FileEntry

theorem family_stagedName {F : List Char} {fe : FileEntry} (h : Family F fe.name) :
    Family F fe.stagedName := by
  unfold stagedName
  split
  · exact h
  · next hp =>
    have hs := Family.step h
    rwa [familyStep, if_neg (show ¬ partSuffix.isSuffixOf fe.name = true from hp)] at hs

/-- `open` leaves the entry backed by the path, or by its staging name. -/
theorem family_open_name (name : List Char) (length : Int) (w : World) :
    Family name (FileEntry.open name length w).1.1.name := by
  simp only [FileEntry.open]
  split
  · split
    · split <;> first | exact .self | exact .staging
    · exact .self
  · split
    · split <;> first | exact .self | exact .staging
    · exact .self

/-- `open` removes the path's `.part` file and creates and truncates its staging file: it
changes no file outside the path's family. -/
theorem open_changesOnly (name : List Char) (length : Int) (w : World) :
    World.ChangesOnly (Family name) w (FileEntry.open name length w).2 := by
  have hpart : ∀ q, q = name ++ partSuffix → Family name q := fun _ hq => hq ▸ Family.part
  have hstaging : ∀ q, q = stagingName name → Family name q := fun _ hq => hq ▸ Family.staging
  have h₁ : World.ChangesOnly (Family name) w
      (if (w.stat (name ++ partSuffix)).isSome then (w.remove (name ++ partSuffix)).2 else w) := by
    split
    · exact (w.changesOnly_remove _).mono hpart
    · exact .refl _ _
  simp only [FileEntry.open]
  generalize (if (w.stat (name ++ partSuffix)).isSome then (w.remove (name ++ partSuffix)).2
    else w) = w₁ at h₁ ⊢
  have hc := (w₁.changesOnly_create (stagingName name)).mono hstaging
  split
  · cases hcr : w₁.create (stagingName name) with
    | mk err w₂ =>
      rw [hcr] at hc
      cases err with
      | some e => exact h₁.trans hc
      | none =>
        exact h₁.trans (hc.trans ((w₂.changesOnly_truncate _ length).mono hstaging))
  · exact h₁

/-- `SetPart` changes the file of the entry's staged name and no other. -/
theorem setPart_changesOnly (fe : FileEntry) (w : World) :
    World.ChangesOnly (· = fe.stagedName) w (fe.setPart w).2 := by
  unfold setPart stagedName
  split
  · exact .refl _ _
  · exact (changesOnly_copyfile _ _ _).trans (World.changesOnly_truncate _ _ _)

/-- `Cleanup` changes the file of the entry's name and of its name without `.part`, and no
other. -/
theorem cleanup_changesOnly (fe : FileEntry) (w : World) :
    World.ChangesOnly (fun q => q = familyStep fe.name ∨ q = fe.name) w (fe.cleanup w).2 := by
  unfold cleanup
  split
  · next hp =>
    have hstep : familyStep fe.name = Strings.replace fe.name partSuffix [] := if_pos hp
    have hcopy : World.ChangesOnly (fun q => q = familyStep fe.name ∨ q = fe.name) w
        (copyfile fe.name (Strings.replace fe.name partSuffix []) w).2 :=
      (changesOnly_copyfile _ _ w).mono fun _ hq => .inl (hq.trans hstep.symm)
    exact hcopy.trans (((copyfile _ _ w).2.changesOnly_remove fe.name).mono fun q hq => .inr hq)
  · exact .refl _ _

end FileEntry

/-! ### Stores stay in their families -/

/-- The full paths `NewFileStore(info, storePath)` opens, in order. -/
def storePaths (info : InfoDict) (storePath : List Char) : List (List Char) :=
  (storeFiles info).map (fullPath storePath)

/-- Each entry of `es` is backed by a name of the family of the path at its position. -/
def InFamilies (paths : List (List Char)) (es : List FileEntry) : Prop :=
  List.Forall₂ (fun F e => Family F e.name) paths es

theorem InFamilies.stage {paths : List (List Char)} {es : List FileEntry}
    (h : InFamilies paths es) (i : Nat) :
    InFamilies paths (es.take i ++ (es.drop i).map fun e => { e with name := e.stagedName }) := by
  have hs : InFamilies (paths.drop i) ((es.drop i).map fun e => { e with name := e.stagedName }) :=
    List.forall₂_map_right_iff.2 ((List.forall₂_drop i h).imp fun _ _ => FileEntry.family_stagedName)
  have := List.rel_append (List.forall₂_take i h) hs
  simp only [List.take_append_drop] at this
  exact this

theorem newFileStoreLoop_inFamilies (storePath : List Char) :
    ∀ (srcs : List FileDict) (totalSize : Int) (w : World),
      (newFileStoreLoop storePath srcs totalSize w).1.2.2 = none →
      InFamilies (srcs.map (fullPath storePath))
        ((newFileStoreLoop storePath srcs totalSize w).1.1.map Prod.snd)
  | [], _, _, _ => .nil
  | src :: rest, totalSize, w, h => by
    simp only [newFileStoreLoop] at h ⊢
    cases hd : ensureDirectory (fullPath storePath src) w with
    | mk err w₁ =>
      rw [hd] at h
      dsimp only at h ⊢
      cases err with
      | some e => cases h
      | none =>
        have hfe := FileEntry.family_open_name (fullPath storePath src) src.length w₁
        cases ho : FileEntry.open (fullPath storePath src) src.length w₁ with
        | mk r w₂ =>
          obtain ⟨fe, err⟩ := r
          rw [ho] at h hfe
          dsimp only at h hfe ⊢
          cases err with
          | some e => cases h
          | none => exact .cons hfe (newFileStoreLoop_inFamilies storePath rest _ w₂ h)

theorem newFileStore_inFamilies {info : InfoDict} {storePath : List Char} {w : World}
    {f : FileStore} (h : (newFileStore info storePath w).1.1 = some f) :
    InFamilies (storePaths info storePath) f.files := by
  simp only [newFileStore] at h
  split at h
  · cases h
  · next hloop =>
    cases h
    exact newFileStoreLoop_inFamilies storePath (storeFiles info) 0 w hloop

/-- The store states a program reaches from `NewFileStore(info, storePath)` through the store's
API: the store it returned, then any sequence of `WriteAt`, `SetBad` and `Cleanup`. The world
carries the fault schedule, so every pattern of failing calls is covered. -/
inductive ReachableFrom (info : InfoDict) (storePath : List Char) : FileStore → World → Prop
  | new (w : World) {f : FileStore} : (newFileStore info storePath w).1.1 = some f →
      ReachableFrom info storePath f (newFileStore info storePath w).2
  | writeAt {f : FileStore} {w : World} (p : List UInt8) (off : Int) :
      ReachableFrom info storePath f w → ReachableFrom info storePath f (f.writeAt w p off).2
  | setBad {f : FileStore} {w : World} (fromOffset : Int) :
      ReachableFrom info storePath f w →
        ReachableFrom info storePath (f.setBad fromOffset w).1 (f.setBad fromOffset w).2
  | cleanup {f : FileStore} {w : World} :
      ReachableFrom info storePath f w → ReachableFrom info storePath f (f.cleanup w).2

namespace ReachableFrom

variable {info : InfoDict} {storePath : List Char} {f : FileStore} {w : World}

/-- Every entry of a reachable store is backed by a name of its path's family. -/
theorem inFamilies (h : ReachableFrom info storePath f w) :
    InFamilies (storePaths info storePath) f.files := by
  induction h with
  | new w hf => exact newFileStore_inFamilies hf
  | writeAt _ _ _ ih => exact ih
  | setBad fromOffset _ ih => rw [FileStore.setBad_files]; exact ih.stage _
  | cleanup _ ih => exact ih

end ReachableFrom

/-! ### Disjoint families -/

/-- When the paths of a torrent have pairwise disjoint families, no two entries of a reachable
store record the same backing name; and opening the path of one entry, or `SetPart` or `Cleanup`
on it, in any state of the disk, leaves the backing file of every other entry as it is. -/
theorem backing_files_disjoint (info : InfoDict) (storePath : List Char)
    (hd : (storePaths info storePath).Pairwise FamiliesDisjoint) {f : FileStore} {w : World}
    (hr : ReachableFrom info storePath f w) :
    (f.files.map FileEntry.name).Nodup ∧
      ∀ x ∈ (storePaths info storePath).zip f.files, ∀ y ∈ (storePaths info storePath).zip f.files,
        x ≠ y → ∀ (length : Int) (w' : World),
          (FileEntry.open x.1 length w').2.files y.2.name = w'.files y.2.name ∧
            (x.2.setPart w').2.files y.2.name = w'.files y.2.name ∧
            (x.2.cleanup w').2.files y.2.name = w'.files y.2.name := by
  obtain ⟨hlen, hfam⟩ := List.forall₂_iff_zip.1 hr.inFamilies
  have hz : ((storePaths info storePath).zip f.files).Pairwise fun x y => FamiliesDisjoint x.1 y.1 :=
    List.pairwise_map.1 (by rwa [List.map_fst_zip _ _ hlen.le])
  have hnames : f.files.map FileEntry.name =
      ((storePaths info storePath).zip f.files).map fun x => x.2.name := by
    conv_lhs => rw [← List.map_snd_zip _ _ hlen.symm.le]
    rw [List.map_map]; rfl
  refine ⟨?_, fun x hx y hy hxy length w' => ?_⟩
  · rw [hnames, List.Nodup, List.pairwise_map]
    exact hz.imp_of_mem fun hx hy hd heq => hd _ (hfam hx) (heq ▸ hfam hy)
  · have hd : FamiliesDisjoint x.1 y.1 :=
      hz.forall (fun _ _ h => FamiliesDisjoint.symm h) hx hy hxy
    have hy' : ¬ Family x.1 y.2.name := fun h => hd _ h (hfam hy)
    have hx' := hfam hx
    refine ⟨FileEntry.open_changesOnly _ _ _ _ hy', FileEntry.setPart_changesOnly _ _ _ ?_,
      FileEntry.cleanup_changesOnly _ _ _ ?_⟩
    · exact fun h => hy' (h ▸ FileEntry.family_stagedName hx')
    · rintro (h | h)
      · exact hy' (h ▸ .step hx')
      · exact hy' (h ▸ hx')

/-- The store `NewFileStore` makes of `twoFileInfo` under `/s` on an empty disk: both files are
staged. -/
def twoFileStore : FileStore :=
  FileStore.ofEntries [(0, ⟨3, "/s/x.part".toList⟩), (3, ⟨5, "/s/d/y.part".toList⟩)]

/-! ### Staging names cut across the store path -/

/-- A store path of 71 bytes. -/
def longRoot : List Char := '/' :: List.replicate 70 'a'

/-- Two one-byte files, `x.txt` and `y.txt`. -/
def longRootInfo : InfoDict :=
  ⟨4, [], 0, "t".toList, 0, [], [⟨1, ["x.txt".toList], []⟩, ⟨1, ["y.txt".toList], []⟩]⟩

/-- The staging name `open` gives both files of `longRootInfo` under `longRoot`: the full path
without its extension, cut to its first 60 bytes, all of them the store path's. -/
def cutName : List Char := '/' :: List.replicate 59 'a' ++ "[...].txt.part".toList

/-- `open` caps the whole path, not the file name, at 60 bytes. Under a store path longer than
that, two distinct files with one extension get one staging name: on an empty disk, with no call
failing, `NewFileStore` creates `cutName` for `x.txt`, creates it again, emptying it, for `y.txt`,
and backs both entries by that one file, which lies outside the store directory. -/
theorem staging_name_shared_under_long_root :
    storePaths longRootInfo longRoot = [longRoot ++ "/x.txt".toList, longRoot ++ "/y.txt".toList] ∧
      (newFileStore longRootInfo longRoot World.fresh).1.2.2 = none ∧
      ((newFileStore longRootInfo longRoot World.fresh).1.1.map fun f =>
        f.files.map FileEntry.name) = some [cutName, cutName] ∧
      (newFileStore longRootInfo longRoot World.fresh).2.calls.count (.create cutName) = 2 ∧
      ¬ (longRoot ++ ['/']).isPrefixOf cutName := by
  decide

end Rakoshare
