import Rakoshare.FileStore.ReadWrite

/-!
# Staging files of a store

An entry whose bytes are not known to be good is *staged*: its backing file carries the suffix
`.part` (`src/unnamed/part_001`, lines 36–150). `fileEntry.open` stages an entry whose file is
missing or of the wrong size under a name built from its path; `fileEntry.SetPart` stages an
entry by copying its file to the name with `.part` appended; `fileEntry.Cleanup` copies a staged
file back to the name without the first `.part` and removes the staged file. On the store,
`SetBad` stages every entry from the one `find` names for the bad offset through the last, and
`Cleanup` runs the entry `Cleanup` on each entry (lines 276–291).

`fileStore.Cleanup` ranges over `f.files` by value, so each `fileEntry.Cleanup` updates a copy:
the store's entries keep the names they had, which `FileStore.cleanup` reflects by returning no
new store. `SetPart` logs and ignores a failing copy or truncate and switches to the staged name
all the same.

## Main definitions

* `partSuffix`, `stagingName`, `FileEntry.open`, `FileEntry.isPart`, `FileEntry.setPart`,
  `FileEntry.cleanup`.
* `setPartAll`, `FileStore.setBad`, `FileStore.cleanup`.

## Main results

* `cleanup_inverts_staging`: `Cleanup` restores a name with no `.part` in it from both of its
  staging names, when its extension occurs first at its end and its stem is at most 60 bytes.
* `FileStore.setBad_files`: `SetBad` stages the entries from `find`'s index on.
* `FileStore.setBad_of_faults_nil`: with no failing call, and entries whose names and `.part`
  forms are pairwise distinct, `SetBad` keeps the store well formed, backed and its bytes.
-/

namespace Rakoshare

/-- The suffix of a staged file. -/
def partSuffix : List Char := ".part".toList

/-- The staging name `fileEntry.open` gives the file `name`: the name without its extension, cut
to 60 bytes followed by `[...]` when longer, then the extension and `.part`. -/
def stagingName (name : List Char) : List Char :=
  let ext := Path.ext name
  let rawname := Strings.replace name ext []
  let rawname := if rawname.length > 60 then rawname.take 60 ++ "[...]".toList else rawname
  rawname ++ ext ++ partSuffix

namespace FileEntry

/-- `fileEntry.open(name, length)`: the entry it sets, its error and the world after it. A
`.part` file left next to `name` is removed; a missing or wrongly sized `name` is staged under
`stagingName name`. The error of the final `os.Truncate` goes to an `err` declared inside the
staging branch, so it never reaches the caller. -/
def «open» (name : List Char) (length : Int) (w : World) : (FileEntry × Option GoError) × World :=
  let partname := name ++ partSuffix
  let w := if (w.stat partname).isSome then (w.remove partname).2 else w
  let needToRetrieve := match w.stat name with
    | none => true
    | some size => size ≠ length
  if needToRetrieve then
    let partname := stagingName name
    let (err, w) := w.create partname
    match err with
    | some e => ((⟨length, name⟩, some e), w)
    | none => ((⟨length, partname⟩, none), (w.truncate partname length).2)
  else ((⟨length, name⟩, none), w)

/-- `fileEntry.isPart()`: the backing name ends in `.part`. -/
def isPart (fe : FileEntry) : Bool := partSuffix.isSuffixOf fe.name

/-- `fileEntry.SetPart()`: copy the backing file to its name with `.part` appended, switch to that
name and truncate it to the entry's length; a staged entry is left alone. Failures are logged
only. -/
def setPart (fe : FileEntry) (w : World) : FileEntry × World :=
  if fe.isPart then (fe, w)
  else
    let w := (copyfile fe.name (fe.name ++ partSuffix) w).2
    let fe : FileEntry := { fe with name := fe.name ++ partSuffix }
    (fe, (w.truncate fe.name fe.length).2)

/-- The name `SetPart` switches an entry to, whatever its calls do. -/
def stagedName (fe : FileEntry) : List Char := if fe.isPart then fe.name else fe.name ++ partSuffix

@[simp] theorem setPart_fst (fe : FileEntry) (w : World) :
    (fe.setPart w).1 = { fe with name := fe.stagedName } := by
  unfold setPart stagedName; split <;> rfl

/-- `fileEntry.Cleanup()`: copy a staged file to the name without its first `.part`, remove the
staged file and switch to the final name; the error is that of the removal. -/
def cleanup (fe : FileEntry) (w : World) : (FileEntry × Option GoError) × World :=
  if fe.isPart then
    let realname := Strings.replace fe.name partSuffix []
    let w := (copyfile fe.name realname w).2
    let (err, w) := w.remove fe.name
    (({ fe with name := realname }, err), w)
  else ((fe, none), w)

@[simp] theorem cleanup_name (fe : FileEntry) (w : World) :
    (fe.cleanup w).1.1.name =
      if fe.isPart then Strings.replace fe.name partSuffix [] else fe.name := by
  unfold cleanup; split <;> rfl

theorem isPart_append_partSuffix (length : Int) (name : List Char) :
    isPart ⟨length, name ++ partSuffix⟩ = true :=
  List.isSuffixOf_iff_suffix.mpr (List.suffix_append _ _)

end FileEntry

/-! ### The names `Cleanup` restores -/

/-- No proper suffix of `.part` is a prefix of it. -/
theorem partSuffix_no_border :
    ∀ k, k < partSuffix.length → 0 < k → ¬ partSuffix.drop k <+: partSuffix := by
  decide

/-- Stripping the first `.part` of a name with `.part` appended gives the name back, when the
name holds no `.part` of its own. -/
theorem replace_append_partSuffix {name : List Char} (hpart : ¬ partSuffix <:+: name) :
    Strings.replace (name ++ partSuffix) partSuffix [] = name := by
  simpa using Strings.replace_append_of_not_infix partSuffix_no_border [] [] hpart

/-- A name whose stem is at most 60 bytes is staged as the stem, the extension and `.part`. -/
theorem stagingName_of_short {name : List Char}
    (hstem : (Strings.replace name (Path.ext name) []).length ≤ 60) :
    stagingName name = Strings.replace name (Path.ext name) [] ++ Path.ext name ++ partSuffix := by
  simp [stagingName, hstem]

/-- `Cleanup` inverts both staging names of a name with no `.part` in it: the one `open` gives,
when the extension's first occurrence is at the end and the stem is at most 60 bytes, and the
one `SetPart` gives. -/
theorem cleanup_inverts_staging {name : List Char} (hpart : ¬ partSuffix <:+: name)
    (hext : Strings.replace name (Path.ext name) [] ++ Path.ext name = name)
    (hstem : (Strings.replace name (Path.ext name) []).length ≤ 60) (length : Int) (w : World) :
    (FileEntry.cleanup ⟨length, stagingName name⟩ w).1.1.name = name ∧
      (FileEntry.cleanup ⟨length, name ++ partSuffix⟩ w).1.1.name = name := by
  rw [stagingName_of_short hstem, hext]
  simp only [FileEntry.cleanup_name, FileEntry.isPart_append_partSuffix, if_true,
    replace_append_partSuffix hpart, and_self]

theorem cleanup_inverts_staging_txt :
    ¬ partSuffix <:+: "/s/x.txt".toList ∧
      Strings.replace "/s/x.txt".toList (Path.ext "/s/x.txt".toList) [] ++
        Path.ext "/s/x.txt".toList = "/s/x.txt".toList ∧
      (Strings.replace "/s/x.txt".toList (Path.ext "/s/x.txt".toList) []).length ≤ 60 ∧
      (FileEntry.cleanup ⟨3, stagingName "/s/x.txt".toList⟩ FileStore.twoFilesWorld).1.1.name =
        "/s/x.txt".toList :=
  ⟨by decide, by decide, by decide, (cleanup_inverts_staging (by decide) (by decide) (by decide) 3
    FileStore.twoFilesWorld).1⟩

/-- The loop of `fileStore.SetBad`: `SetPart` on each entry in turn. -/
def setPartAll : List FileEntry → World → List FileEntry × World
  | [], w => ([], w)
  | e :: es, w =>
    let (e, w) := e.setPart w
    let (es, w) := setPartAll es w
    (e :: es, w)

theorem length_setPartAll : ∀ (es : List FileEntry) (w : World),
    (setPartAll es w).1.length = es.length
  | [], _ => rfl
  | e :: es, w => by simp [setPartAll, length_setPartAll es]

/-- The entries `SetBad`'s loop leaves carry their staged names, whatever its calls do. -/
theorem setPartAll_fst : ∀ (es : List FileEntry) (w : World),
    (setPartAll es w).1 = es.map fun e => { e with name := e.stagedName }
  | [], _ => rfl
  | e :: es, w => by simp [setPartAll, setPartAll_fst es]

theorem length_take_append_setPartAll (es : List FileEntry) (i : Nat) (w : World) :
    (es.take i ++ (setPartAll (es.drop i) w).1).length = es.length := by
  rw [List.length_append, length_setPartAll, List.length_take, List.length_drop]
  omega

/-! ### Staging when no call fails -/

/-- The files an entry of `es` can be backed by while `SetBad` runs: its name and its name with
`.part` appended, for each entry in turn. -/
def partNames (es : List FileEntry) : List (List Char) :=
  es.flatMap fun e => [e.name, e.name ++ partSuffix]

theorem stagedName_mem_partNames {es : List FileEntry} {e : FileEntry} (he : e ∈ es) :
    e.stagedName ∈ partNames es := by
  unfold partNames FileEntry.stagedName
  exact List.mem_flatMap.mpr ⟨e, he, by split <;> simp⟩

theorem name_mem_partNames {es : List FileEntry} {e : FileEntry} (he : e ∈ es) :
    e.name ∈ partNames es :=
  List.mem_flatMap.mpr ⟨e, he, by simp⟩

/-- The two names of the first entry are the names of no later entry. -/
theorem partNames_cons_disjoint {e : FileEntry} {es : List FileEntry}
    (hd : (partNames (e :: es)).Nodup) :
    e.name ∉ partNames es ∧ e.stagedName ∉ partNames es ∧ (partNames es).Nodup := by
  simp only [partNames, List.flatMap_cons] at hd
  obtain ⟨-, hrest, hdisj⟩ := List.nodup_append.mp hd
  refine ⟨hdisj (List.mem_cons_self _ _), ?_, hrest⟩
  unfold FileEntry.stagedName
  split
  · exact hdisj (List.mem_cons_self _ _)
  · exact hdisj (List.mem_cons_of_mem _ (List.mem_singleton_self _))

section NoFaults

variable {w : World}

theorem copyfile_of_faults_nil (h : w.faults = []) {src : List Char} (dst : List Char)
    {c : List UInt8} (hc : w.files src = some c) :
    (copyfile src dst w).2.files = Function.update w.files dst (some c) ∧
      (copyfile src dst w).2.faults = [] := by
  simp [copyfile, hc, World.create, World.attempt, h, World.setFile]

/-- With no faults, `SetPart` of an entry backed by `c` leaves `c` under the staged name and
changes no other file. -/
theorem setPart_of_faults_nil (h : w.faults = []) {fe : FileEntry} {c : List UInt8}
    (hc : w.files fe.name = some c) (hlen : (c.length : Int) = fe.length) :
    (fe.setPart w).2.files = Function.update w.files fe.stagedName (some c) ∧
      (fe.setPart w).2.faults = [] := by
  unfold FileEntry.setPart FileEntry.stagedName
  split
  · refine ⟨funext fun q => ?_, h⟩
    by_cases hq : q = fe.name <;> simp [Function.update_apply, hq, hc]
  · obtain ⟨hfiles, hfaults⟩ := copyfile_of_faults_nil h (fe.name ++ partSuffix) hc
    have hlen' : 0 ≤ fe.length := hlen ▸ Int.natCast_nonneg _
    simp [World.truncate, World.attempt, hfiles, hfaults, World.resize, ← hlen, World.setFile]

/-- With no faults, `SetBad`'s loop over entries backed by files named apart from each other's
`.part` forms moves each entry's bytes to its staged name and changes no other file. -/
theorem setPartAll_of_faults_nil : ∀ (es : List FileEntry) (w : World), w.faults = [] →
    EntriesBacked w es → (partNames es).Nodup →
    (∀ e ∈ es, (setPartAll es w).2.files e.stagedName = w.files e.name) ∧
      (∀ q, (∀ e ∈ es, q ≠ e.stagedName) → (setPartAll es w).2.files q = w.files q) ∧
      (setPartAll es w).2.faults = []
  | [], w, h, _, _ => ⟨by simp, fun _ _ => rfl, h⟩
  | e :: es, w, h, hb, hd => by
    obtain ⟨c, hc, hlen⟩ := hb e (.head _)
    obtain ⟨hname, hstaged, hd'⟩ := partNames_cons_disjoint hd
    obtain ⟨hfiles, hfaults⟩ := setPart_of_faults_nil h hc hlen
    have hne : ∀ e' ∈ es, e'.name ≠ e.stagedName := fun e' he' heq =>
      hstaged (heq ▸ name_mem_partNames he')
    have hb' : EntriesBacked (e.setPart w).2 es :=
      EntriesBacked.congr (fun e' he' => hb e' (.tail _ he')) fun e' he' => by
        rw [hfiles, Function.update_noteq (hne e' he')]
    obtain ⟨ih₁, ih₂, ih₃⟩ := setPartAll_of_faults_nil es _ hfaults hb' hd'
    refine ⟨fun e' he' => ?_, fun q hq => ?_, ih₃⟩
    · rcases List.mem_cons.mp he' with rfl | he'
      · have hfresh : ∀ e'' ∈ es, e'.stagedName ≠ e''.stagedName := fun e'' he'' heq =>
          hstaged (by rw [heq]; exact stagedName_mem_partNames he'')
        rw [setPartAll, ih₂ _ hfresh, hfiles, Function.update_same, hc]
      · rw [setPartAll, ih₁ e' he', hfiles, Function.update_noteq (hne e' he')]
    · rw [setPartAll, ih₂ q fun e' he' => hq e' (.tail _ he'), hfiles,
        Function.update_noteq (hq e (.head _))]

theorem partNames_append (es es' : List FileEntry) :
    partNames (es ++ es') = partNames es ++ partNames es' := List.flatMap_append _ _ _

theorem nodup_map_stagedName : ∀ {es : List FileEntry}, (partNames es).Nodup →
    (es.map FileEntry.stagedName).Nodup
  | [], _ => List.nodup_nil
  | e :: es, hd => by
    obtain ⟨-, hstaged, hd'⟩ := partNames_cons_disjoint hd
    refine List.nodup_cons.mpr ⟨fun hmem => ?_, nodup_map_stagedName hd'⟩
    obtain ⟨e', he', heq⟩ := List.mem_map.mp hmem
    exact hstaged (heq ▸ stagedName_mem_partNames he')

theorem prefixSums_congr_length : ∀ (o : Int) {es es' : List FileEntry},
    es.map FileEntry.length = es'.map FileEntry.length → prefixSums o es = prefixSums o es'
  | _, [], [], _ => rfl
  | o, e :: es, e' :: es', h => by
    obtain ⟨hl, h'⟩ := List.cons_eq_cons.mp h
    simp only [prefixSums, hl, prefixSums_congr_length _ h']

end NoFaults

namespace FileStore

variable (f : FileStore)

/-- `fileStore.SetBad(from)`: stage every entry from the one `find` names through the last. -/
def setBad (fromOffset : Int) (w : World) : FileStore × World :=
  let index := f.find fromOffset
  (⟨f.offsets, f.files.take index ++ (setPartAll (f.files.drop index) w).1,
    (length_take_append_setPartAll f.files index w).symm ▸ f.length_eq⟩,
    (setPartAll (f.files.drop index) w).2)

/-- `SetBad` stages the entries from `find`'s index on and leaves the others as they are. -/
theorem setBad_files (fromOffset : Int) (w : World) :
    (f.setBad fromOffset w).1.files = f.files.take (f.find fromOffset) ++
      (f.files.drop (f.find fromOffset)).map fun e => { e with name := e.stagedName } := by
  simp [setBad, setPartAll_fst]

/-- On the two-file store, `SetBad(3)` stages the first entry too, although that entry ends at
the bad offset `3`: `find` names the entry ending at an offset, not the one starting there. -/
theorem setBad_stages_entry_ending_at_offset :
    twoFiles.offsets[0]! + twoFiles.files[0]!.length ≤ 3 ∧
      ((twoFiles.setBad 3 twoFilesWorld).1.files.map FileEntry.name) =
        ["x.part".toList, "d/y.part".toList] := by
  rw [setBad_files]
  decide

section NoFaults

variable {w : World}

/-- With no faults, `SetBad` on a backed, well-formed store whose entries and their `.part`
forms name pairwise-distinct files leaves a backed, well-formed store holding the same bytes. -/
theorem setBad_of_faults_nil (hwf : f.WellFormed) (hb : f.Backed w)
    (hd : (partNames f.files).Nodup) (h : w.faults = []) (fromOffset : Int) :
    (f.setBad fromOffset w).1.WellFormed ∧
      (f.setBad fromOffset w).1.Backed (f.setBad fromOffset w).2 ∧
      (f.setBad fromOffset w).1.content (f.setBad fromOffset w).2 = f.content w := by
  set i := f.find fromOffset
  set A := f.files.take i
  set B := f.files.drop i
  have hsplit := hd
  rw [← List.take_append_drop i f.files, partNames_append] at hsplit
  obtain ⟨-, hdB, hdisj⟩ := List.nodup_append.mp hsplit
  obtain ⟨h₁, h₂, -⟩ := setPartAll_of_faults_nil B w h
    (fun e he => hb.backed e (List.mem_of_mem_drop he)) hdB
  have hA : ∀ e ∈ A, (setPartAll B w).2.files e.name = w.files e.name :=
    fun e he => h₂ _ fun e' he' heq =>
      hdisj (name_mem_partNames he) (heq ▸ stagedName_mem_partNames he')
  have hfiles : (f.setBad fromOffset w).1.files =
      A ++ B.map fun e => { e with name := e.stagedName } := f.setBad_files fromOffset w
  have hworld : (f.setBad fromOffset w).2 = (setPartAll B w).2 := rfl
  have hsame : (f.setBad fromOffset w).1.files.map FileEntry.length =
      f.files.map FileEntry.length := by
    rw [hfiles, List.map_append, List.map_map]
    exact (List.map_append _ _ _).symm.trans (congrArg _ (List.take_append_drop i f.files))
  have hcontentB : entriesContent (setPartAll B w).2 (B.map fun e => { e with name := e.stagedName }) =
      entriesContent w B := by
    simp only [entriesContent, List.flatMap_map]
    exact List.flatMap_congr fun e he => by rw [h₁ e he]
  have hA' : EntriesBacked (setPartAll B w).2 A :=
    EntriesBacked.congr (fun e he => hb.backed e (List.mem_of_mem_take he)) hA
  refine ⟨⟨?_, ?_⟩, ⟨?_, ?_⟩, ?_⟩
  · exact (prefixSums_congr_length 0 hsame).symm ▸ hwf.offsets_eq
  · intro e he
    rw [hfiles] at he
    rcases List.mem_append.mp he with he | he
    · exact hwf.length_nonneg e (List.mem_of_mem_take he)
    · obtain ⟨e', he', rfl⟩ := List.mem_map.mp he
      exact hwf.length_nonneg e' (List.mem_of_mem_drop he')
  · rw [hfiles, hworld]
    intro e he
    rcases List.mem_append.mp he with he | he
    · exact hA' e he
    · obtain ⟨e', he', rfl⟩ := List.mem_map.mp he
      show ∃ c, (setPartAll B w).2.files e'.stagedName = some c ∧ _
      rw [h₁ e' he']
      exact hb.backed e' (List.mem_of_mem_drop he')
  · have hnd := hb.nodup
    rw [← List.take_append_drop i f.files, List.map_append] at hnd
    rw [hfiles, List.map_append, List.map_map]
    refine List.nodup_append.mpr ⟨(List.nodup_append.mp hnd).1, nodup_map_stagedName hdB, ?_⟩
    intro x hxA hxB
    obtain ⟨e, he, rfl⟩ := List.mem_map.mp hxA
    obtain ⟨e', he', heq⟩ := List.mem_map.mp hxB
    exact hdisj (name_mem_partNames he) (heq ▸ stagedName_mem_partNames he')
  · show entriesContent _ _ = entriesContent w f.files
    rw [hfiles, hworld, entriesContent_append, hcontentB, entriesContent_congr hA,
      ← entriesContent_append, List.take_append_drop]

end NoFaults

/-- The loop of `fileStore.Cleanup` over copies of the entries: the error of the last one. -/
def cleanupAll : List FileEntry → Option GoError → World → Option GoError × World
  | [], err, w => (err, w)
  | fe :: es, _, w =>
    let ((_, err), w) := fe.cleanup w
    cleanupAll es err w

/-- `fileStore.Cleanup()`: the entries of the store are not changed. -/
def cleanup (w : World) : Option GoError × World := cleanupAll f.files none w

end FileStore

end Rakoshare
