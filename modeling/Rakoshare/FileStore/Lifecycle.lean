import Rakoshare.FileStore.Backing

/-!
# The life of a store: `NewFileStore`, writes and `SetBad`, then `Cleanup`

While no system call fails, a store opened by `NewFileStore` over paths whose two staging names
coincide behaves as one flat byte array from its creation to its `Cleanup`. At creation the
array holds, for each file of the torrent, the bytes of the file already on disk when its size is
right, and zeros otherwise. A write is `flatWrite` on the array, `SetBad` leaves it alone, a read
returns its bytes, and `Cleanup` leaves the torrent's files at their own paths, each holding its
slice of the array.

The paths are well named (`WellNamed`): no `.part` in them, the extension at the end and a stem of
at most 60 bytes. Then `open` stages a path `P` as `P ++ ".part"`, as `SetPart` does, and
`Cleanup` strips that suffix back to `P`. No path is a directory of another (`NoDirPrefix`): the
`World` has no directories, and on a real disk such a torrent cannot finish whatever the calls do.

The array is not what later reads see. `fileStore.Cleanup` ranges over copies of the entries, so
the store keeps the staged names of files `Cleanup` has removed, and every read of a download
fails after it.

## Main definitions

* `WellNamed` : the paths whose staging names coincide; `NoDirPrefix` : no path a directory of
  another.
* `StoreInv` : what holds of the store and the disk between calls.
* `StoreOp`, `runOps`, `flatRun` : the calls between `NewFileStore` and `Cleanup`, on the store and
  on the flat array.
* `initialBytes`, `initialContent` : the array a new store stands for.

## Main results

* `StoreInv.writeAt`, `StoreInv.setBad` : each call keeps the invariant and acts on the array as
  the abstract call does; `StoreInv.runOps` : so does every sequence of calls.
* `newFileStore_storeInv` : `NewFileStore` establishes the invariant over the initial array.
* `StoreInv.cleanup` : `Cleanup` returns no error and leaves each entry's bytes at its path.
* `fileStore_lifecycle` : the three assembled.
* `fileStore_reopen` : `NewFileStore` after `Cleanup` opens the written array, with nothing staged.
* `fileStore_restart_discards_writes` : `NewFileStore` without `Cleanup`, when no final file was
  there, stages every file again over zeros.
* `cleanup_breaks_reads` : after `Cleanup` of a download, every read below the total size fails.
* `backing_files_apart` : under any failing calls, entries at distinct well-named paths keep
  distinct backing files.
-/

namespace Rakoshare

/-! ### Well-named paths -/

/-- A path that `open` and `SetPart` stage under the same name: it holds no `.part`, the first
occurrence of its extension is at its end, and its stem is at most 60 bytes. -/
def WellNamed (P : List Char) : Prop :=
  ¬ partSuffix <:+: P ∧ Strings.replace P (Path.ext P) [] ++ Path.ext P = P ∧
    (Strings.replace P (Path.ext P) []).length ≤ 60

instance : DecidablePred WellNamed := fun _ => inferInstanceAs (Decidable (_ ∧ _ ∧ _))

theorem partSuffix_ne_nil : partSuffix ≠ [] := by decide

/-- Stripping the first `.part` of a name, as `Cleanup` does. -/
theorem strip_partSuffix {P : List Char} (hP : ¬ partSuffix <:+: P) (r : List Char) :
    Strings.replace (P ++ partSuffix ++ r) partSuffix [] = P ++ r := by
  simpa using Strings.replace_append_of_not_infix partSuffix_no_border [] r hP

namespace WellNamed

variable {P Q q : List Char}

theorem stagingName_eq (hP : WellNamed P) : stagingName P = P ++ partSuffix := by
  rw [stagingName_of_short hP.2.2, hP.2.1]

theorem isPart_false (hP : WellNamed P) (length : Int) : FileEntry.isPart ⟨length, P⟩ = false :=
  Bool.eq_false_iff.mpr fun h => hP.1 (List.isSuffixOf_iff_suffix.mp h).isInfix

theorem familyStep_self (hP : WellNamed P) : familyStep P = P ++ partSuffix :=
  if_neg fun h => hP.1 (List.isSuffixOf_iff_suffix.mp h).isInfix

theorem familyStep_part (hP : WellNamed P) : familyStep (P ++ partSuffix) = P := by
  rw [familyStep, if_pos (List.isSuffixOf_iff_suffix.mpr (List.suffix_append _ _))]
  simpa using strip_partSuffix hP.1 []

/-- The family of a well-named path is the path and its `.part` file. -/
theorem family_iff (hP : WellNamed P) : Family P q ↔ q = P ∨ q = P ++ partSuffix := by
  refine ⟨fun h => ?_, ?_⟩
  · induction h with
    | self => exact .inl rfl
    | part => exact .inr rfl
    | staging => exact .inr hP.stagingName_eq
    | step _ ih =>
      rcases ih with rfl | rfl
      · exact .inr hP.familyStep_self
      · exact .inl hP.familyStep_part
  · rintro (rfl | rfl)
    · exact .self
    · exact .part

/-- Stripping `.part` twice gives a well-named path back from itself and from its first two
`.part` forms. -/
theorem strip_strip (hP : WellNamed P)
    (hq : q = P ∨ q = P ++ partSuffix ∨ q = P ++ partSuffix ++ partSuffix) :
    Strings.replace (Strings.replace q partSuffix []) partSuffix [] = P := by
  have h₀ : Strings.replace P partSuffix [] = P := Strings.replace_of_not_infix hP.1
  have h₁ : Strings.replace (P ++ partSuffix) partSuffix [] = P := by
    simpa using strip_partSuffix hP.1 []
  rcases hq with rfl | rfl | rfl
  · rw [h₀, h₀]
  · rw [h₁, h₀]
  · rw [strip_partSuffix hP.1, h₁]

/-- No name is a form of two well-named paths. -/
theorem eq_of_forms (hP : WellNamed P) (hQ : WellNamed Q)
    (h₁ : q = P ∨ q = P ++ partSuffix ∨ q = P ++ partSuffix ++ partSuffix)
    (h₂ : q = Q ∨ q = Q ++ partSuffix ∨ q = Q ++ partSuffix ++ partSuffix) : P = Q :=
  (hP.strip_strip h₁).symm.trans (hQ.strip_strip h₂)

/-- Two well-named paths whose families meet are equal. -/
theorem eq_of_family (hP : WellNamed P) (hQ : WellNamed Q) (h₁ : Family P q) (h₂ : Family Q q) :
    P = Q := by
  rw [hP.family_iff] at h₁
  rw [hQ.family_iff] at h₂
  exact hP.eq_of_forms hQ (h₁.imp_right .inl) (h₂.imp_right .inl)

end WellNamed

/-- No path of the list is a directory that `ensureDirectory` creates for another: no path
followed by a slash begins another. On a real disk a torrent holding both `x` and `x/y` cannot
finish, for `Cleanup` cannot create the final file `x` where the directory `x` stands. The
`World` has no directories, so the results below that assume no call fails take this as a
hypothesis; their proofs do not need it. -/
def NoDirPrefix (paths : List (List Char)) : Prop :=
  ∀ P ∈ paths, ∀ Q ∈ paths, ¬ (P ++ ['/']) <+: Q

instance (paths : List (List Char)) : Decidable (NoDirPrefix paths) :=
  inferInstanceAs (Decidable (∀ P ∈ paths, ∀ Q ∈ paths, ¬ (P ++ ['/']) <+: Q))

/-- Each entry of a list in families holds a name of the family of some path of the list. -/
theorem InFamilies.exists_of_mem {paths : List (List Char)} {es : List FileEntry}
    (h : InFamilies paths es) {e : FileEntry} (he : e ∈ es) : ∃ P ∈ paths, Family P e.name := by
  induction h with
  | nil => cases he
  | cons hF _ ih =>
    rcases List.mem_cons.mp he with rfl | he
    · exact ⟨_, List.mem_cons_self _ _, hF⟩
    · obtain ⟨P, hP, hF⟩ := ih he
      exact ⟨P, List.mem_cons_of_mem _ hP, hF⟩

/-- Entries in the families of distinct well-named paths name files apart from each other's
`.part` forms. -/
theorem InFamilies.partNames_nodup {paths : List (List Char)} {es : List FileEntry}
    (h : InFamilies paths es) (hnamed : ∀ P ∈ paths, WellNamed P) (hnd : paths.Nodup) :
    (partNames es).Nodup := by
  induction h with
  | nil => exact List.nodup_nil
  | @cons P e paths es hF h ih =>
    obtain ⟨hPrest, hnd⟩ := List.nodup_cons.mp hnd
    have hP := hnamed P (List.mem_cons_self _ _)
    have hforms := (hP.family_iff).mp hF
    have hfresh : ∀ q, (q = P ∨ q = P ++ partSuffix ∨ q = P ++ partSuffix ++ partSuffix) →
        q ∉ partNames es := by
      intro q hq hmem
      obtain ⟨e', he', hq'⟩ := List.mem_flatMap.mp hmem
      obtain ⟨Q, hQ, hF'⟩ := InFamilies.exists_of_mem h he'
      have hQn := hnamed Q (List.mem_cons_of_mem _ hQ)
      have hforms' := (hQn.family_iff).mp hF'
      refine hPrest (hP.eq_of_forms hQn hq ?_ ▸ hQ)
      simp only [List.mem_cons, List.mem_singleton, List.not_mem_nil, or_false] at hq'
      rcases hq' with rfl | rfl <;> rcases hforms' with h' | h' <;> simp [h']
    refine List.nodup_cons.mpr ⟨?_, List.nodup_cons.mpr ⟨?_, ih (fun Q hQ => hnamed Q
      (List.mem_cons_of_mem _ hQ)) hnd⟩⟩
    · intro hmem
      rcases List.mem_cons.mp hmem with heq | hmem
      · exact partSuffix_ne_nil (List.append_right_eq_self.mp heq.symm)
      · exact hfresh _ (hforms.imp_right .inl) hmem
    · exact hfresh _ (by rcases hforms with h' | h' <;> simp [h'])

/-! ### The invariant and the calls -/

/-- `WriteAt` schedules no fault and consumes none: it makes no call that may fail. -/
theorem writeLoop_faults (w : World) (es : List (Int × FileEntry)) (p : List UInt8) (off : Int) :
    (writeLoop w es p off).2.faults = w.faults := by
  induction es generalizing w p off with
  | nil => rfl
  | cons x es ih =>
    obtain ⟨o, e⟩ := x
    have he : ∀ q d, (e.writeAt w q d).2.faults = w.faults := fun q d => by
      simp only [FileEntry.writeAt, World.writeAt]
      split
      · rfl
      · split <;> rfl
    simp only [writeLoop]
    split
    · rfl
    · split
      · split
        · exact he _ _
        · exact (ih _ _ _).trans (he _ _)
      · exact ih _ _ _

theorem FileStore.writeAt_faults (f : FileStore) (w : World) (p : List UInt8) (off : Int) :
    (f.writeAt w p off).2.faults = w.faults := by
  simp only [FileStore.writeAt]
  split
  · exact writeLoop_faults ..
  · split <;> exact writeLoop_faults ..

/-- `SetBad` renames entries and keeps their lengths. -/
theorem FileStore.setBad_lengths (f : FileStore) (fromOffset : Int) (w : World) :
    (f.setBad fromOffset w).1.files.map FileEntry.length = f.files.map FileEntry.length := by
  rw [FileStore.setBad_files, List.map_append, List.map_map]
  conv_rhs => rw [← List.take_append_drop (f.find fromOffset) f.files, List.map_append]
  rfl

/-- What holds of a store and the disk between calls while no call fails: the layout
`NewFileStore` intends, every entry backed by a file of its length, entry `i` backed by the
`i`-th path or its `.part` file, the paths well named and distinct, and no fault scheduled. -/
structure StoreInv (paths : List (List Char)) (f : FileStore) (w : World) : Prop where
  wellFormed : f.WellFormed
  backed : f.Backed w
  inFamilies : InFamilies paths f.files
  named : ∀ P ∈ paths, WellNamed P
  nodup : paths.Nodup
  faults : w.faults = []

/-- A call a store takes between `NewFileStore` and `Cleanup`. A read changes nothing, so it is
not a call here: `StoreInv.readAt` describes a read after any sequence of calls. -/
inductive StoreOp where
  | writeAt (p : List UInt8) (off : Nat)
  | setBad (fromOffset : Int)
  deriving Repr

namespace StoreOp

/-- The call on the store and the disk. -/
def apply : StoreOp → FileStore × World → FileStore × World
  | writeAt p off, (f, w) => (f, (f.writeAt w p off).2)
  | setBad fromOffset, (f, w) => f.setBad fromOffset w

/-- The call on the flat byte array: a write is `flatWrite`, and `SetBad` changes no byte. -/
def flat : StoreOp → List UInt8 → List UInt8
  | writeAt p off, a => flatWrite a off p
  | setBad _, a => a

end StoreOp

/-- The calls `ops`, in order, on the store and the disk. -/
def runOps (ops : List StoreOp) (s : FileStore × World) : FileStore × World :=
  ops.foldl (fun s op => op.apply s) s

/-- The calls `ops`, in order, on the flat byte array. -/
def flatRun (ops : List StoreOp) (a : List UInt8) : List UInt8 :=
  ops.foldl (fun a op => op.flat a) a

/-- A read of `len` bytes at `off` from the flat array `a`: byte `off + k` where there is one and
zero past the end, the count of bytes that were there, and no error. -/
def flatRead (a : List UInt8) (len off : Nat) : List UInt8 × Nat × Option GoError :=
  (List.ofFn fun k : Fin len => a.getD (off + k) 0, min len (a.length - off), none)

/-- What a write of `p` at `off` into the flat array `a` returns: the whole count, unless a byte of
`p` past the end of `a` is nonzero; then the count up to that byte and the error. -/
def flatWriteResult (a : List UInt8) (off : Nat) (p : List UInt8) : Nat × Option GoError :=
  match (p.drop (min p.length (a.length - off))).findIdx? (· ≠ 0) with
  | some i => (min p.length (a.length - off) + i, some FileStore.errNonZeroTail)
  | none => (p.length, none)

namespace StoreInv

variable {paths : List (List Char)} {f : FileStore} {w : World}

theorem partNames_nodup (hi : StoreInv paths f w) : (partNames f.files).Nodup :=
  hi.inFamilies.partNames_nodup hi.named hi.nodup

/-- A read returns what the same read of the flat array returns. -/
theorem readAt (hi : StoreInv paths f w) (p : List UInt8) (off : Nat) :
    f.readAt w p off = flatRead (f.content w) p.length off := by
  rw [FileStore.readAt_eq hi.wellFormed hi.backed, FileStore.take_drop_append_replicate, flatRead]
  congr 1
  · exact congrArg List.ofFn (funext fun k => by
      split
      · rfl
      · rw [List.getD_eq_default _ _ (by omega)])
  · simp

/-- A write returns what the same write into the flat array returns. -/
theorem writeAt_result (hi : StoreInv paths f w) (p : List UInt8) (off : Nat) :
    (f.writeAt w p off).1 = flatWriteResult (f.content w) off p := by
  have htotal : f.totalSize.toNat = (f.content w).length := by
    have := f.length_content hi.backed
    omega
  rw [(FileStore.writeAt_spec hi.wellFormed hi.backed p off).2.2.2.2, htotal]
  rfl

/-- A write keeps the invariant and is `flatWrite` on the flat array. -/
theorem writeAt (hi : StoreInv paths f w) (p : List UInt8) (off : Nat) :
    StoreInv paths f (f.writeAt w p off).2 ∧
      f.content (f.writeAt w p off).2 = flatWrite (f.content w) off p := by
  obtain ⟨hc, hb, -⟩ := FileStore.writeAt_spec hi.wellFormed hi.backed p off
  exact ⟨{ hi with backed := hb, faults := (f.writeAt_faults w p off).trans hi.faults }, hc⟩

/-- `SetBad` keeps the invariant and the flat array. -/
theorem setBad (hi : StoreInv paths f w) (fromOffset : Int) :
    StoreInv paths (f.setBad fromOffset w).1 (f.setBad fromOffset w).2 ∧
      (f.setBad fromOffset w).1.content (f.setBad fromOffset w).2 = f.content w := by
  obtain ⟨hwf, hb, hc⟩ :=
    f.setBad_of_faults_nil hi.wellFormed hi.backed hi.partNames_nodup hi.faults fromOffset
  have hd := hi.partNames_nodup
  rw [← List.take_append_drop (f.find fromOffset) f.files, partNames_append] at hd
  have hfaults := (setPartAll_of_faults_nil _ w hi.faults
    (fun e he => hi.backed.backed e (List.mem_of_mem_drop he)) (List.nodup_append.mp hd).2.1).2.2
  refine ⟨⟨hwf, hb, ?_, hi.named, hi.nodup, hfaults⟩, hc⟩
  rw [FileStore.setBad_files]
  exact hi.inFamilies.stage _

/-- Every call keeps the invariant, acts on the flat array as the abstract call does, and keeps
the entries' lengths. -/
theorem apply (hi : StoreInv paths f w) (op : StoreOp) :
    StoreInv paths (op.apply (f, w)).1 (op.apply (f, w)).2 ∧
      (op.apply (f, w)).1.content (op.apply (f, w)).2 = op.flat (f.content w) ∧
      (op.apply (f, w)).1.files.map FileEntry.length = f.files.map FileEntry.length := by
  cases op with
  | writeAt p off => exact ⟨(hi.writeAt p off).1, (hi.writeAt p off).2, rfl⟩
  | setBad fromOffset =>
    exact ⟨(hi.setBad fromOffset).1, (hi.setBad fromOffset).2, f.setBad_lengths fromOffset w⟩

/-- So does every sequence of calls. -/
theorem runOps : ∀ (ops : List StoreOp) {f : FileStore} {w : World}, StoreInv paths f w →
    StoreInv paths (runOps ops (f, w)).1 (runOps ops (f, w)).2 ∧
      (runOps ops (f, w)).1.content (runOps ops (f, w)).2 = flatRun ops (f.content w) ∧
      (runOps ops (f, w)).1.files.map FileEntry.length = f.files.map FileEntry.length
  | [], _, _, hi => ⟨hi, rfl, rfl⟩
  | op :: ops, f, w, hi => by
    obtain ⟨hi', hc, hl⟩ := hi.apply op
    obtain ⟨hi'', hc', hl'⟩ := runOps ops hi'
    exact ⟨hi'', hc'.trans (congrArg (flatRun ops) hc), hl'.trans hl⟩

end StoreInv

/-! ### `NewFileStore` -/

/-- The bytes `NewFileStore` leaves for a file of `length` bytes at the path `P`: those of the file
already at `P` when it has that size, zero bytes otherwise. -/
def initialBytes (w : World) (P : List Char) (length : Int) : List UInt8 :=
  match w.files P with
  | some c => if (c.length : Int) = length then c else List.replicate length.toNat 0
  | none => List.replicate length.toNat 0

theorem initialBytes_congr {w w' : World} {P : List Char} (h : w'.files P = w.files P)
    (length : Int) : initialBytes w' P length = initialBytes w P length := by
  simp only [initialBytes, h]

theorem length_initialBytes (w : World) (P : List Char) {length : Int} (h : 0 ≤ length) :
    ((initialBytes w P length).length : Int) = length := by
  unfold initialBytes
  split
  · split
    · assumption
    · simpa using h
  · simpa using h

/-- Lengths that are not negative add up to a sum that is not negative. -/
theorem sum_length_nonneg {srcs : List FileDict} (h : ∀ src ∈ srcs, 0 ≤ src.length) :
    0 ≤ (srcs.map FileDict.length).sum :=
  List.sum_nonneg fun _ hx => by
    obtain ⟨s, hs, rfl⟩ := List.mem_map.mp hx
    exact h s hs

/-- The flat array a new store of `info` under `storePath` stands for. -/
def initialContent (info : InfoDict) (storePath : List Char) (w : World) : List UInt8 :=
  (storeFiles info).flatMap fun src => initialBytes w (fullPath storePath src) src.length

section NoFaults

variable {w : World}

theorem ensureDirectory_of_faults_nil (hw : w.faults = []) (P : List Char) :
    (ensureDirectory P w).1 = none ∧ (ensureDirectory P w).2.files = w.files ∧
      (ensureDirectory P w).2.faults = [] := by
  simp [ensureDirectory, World.getwdIf_of_faults_nil w hw, World.mkdirAll, World.attempt, hw]

/-- With no faults, `open` of a well-named path and a length that is not negative returns no
error and an entry of that length, backed by a file holding the path's initial bytes. The entry is
the path itself when the file there has that length, and its `.part` file otherwise; the file at
the path is left as it is. -/
theorem open_of_faults_nil (hw : w.faults = []) {P : List Char} (hP : WellNamed P) {length : Int}
    (hlen : 0 ≤ length) :
    (FileEntry.open P length w).1.2 = none ∧ (FileEntry.open P length w).1.1.length = length ∧
      (FileEntry.open P length w).2.files (FileEntry.open P length w).1.1.name =
        some (initialBytes w P length) ∧ (FileEntry.open P length w).2.faults = [] ∧
      (FileEntry.open P length w).1.1.name =
        (if w.stat P = some length then P else P ++ partSuffix) ∧
      (FileEntry.open P length w).2.files P = w.files P := by
  simp only [FileEntry.open, hP.stagingName_eq]
  generalize hw₁ : (if (w.stat (P ++ partSuffix)).isSome then (w.remove (P ++ partSuffix)).2
    else w) = w₁
  have hrm : w₁.files P = w.files P ∧ w₁.faults = [] := by
    subst hw₁
    split
    · simp only [World.remove, World.attempt, hw]
      split <;> simp [partSuffix_ne_nil]
    · exact ⟨rfl, hw⟩
  obtain ⟨hP₁, hf₁⟩ := hrm
  unfold initialBytes
  rw [show w.stat P = w₁.stat P by simp only [World.stat, hP₁], ← hP₁]
  cases hc : w₁.files P with
  | none => simp [World.stat, hc, World.create, World.truncate, World.attempt, hf₁, World.resize, hlen,
      partSuffix_ne_nil]
  | some c =>
    by_cases hcl : (c.length : Int) = length
    · simp [World.stat, hc, hcl, hf₁]
    · simp [World.stat, hc, hcl, World.create, World.truncate, World.attempt, hf₁, World.resize, hlen,
        partSuffix_ne_nil]

end NoFaults

/-- The entry `e` is what `open` made of the file dictionary `src` on the disk `w`, seen on the
disk `w'`: it has the file's length, a name of the family of the file's path, and that name holds
the path's initial bytes; it is the path itself when the file there had the right size, and
its `.part` file otherwise. -/
structure Opened (storePath : List Char) (w w' : World) (src : FileDict) (e : FileEntry) :
    Prop where
  length : e.length = src.length
  family : Family (fullPath storePath src) e.name
  bytes : w'.files e.name = some (initialBytes w (fullPath storePath src) src.length)
  name : e.name = if w.stat (fullPath storePath src) = some src.length then fullPath storePath src
    else fullPath storePath src ++ partSuffix

/-- Entries opened from file dictionaries of lengths that are not negative are backed, have the
files' lengths, and hold the initial bytes end to end. -/
theorem Opened.forall₂ {storePath : List Char} {w w' : World} :
    ∀ {srcs : List FileDict} {es : List FileEntry}, List.Forall₂ (Opened storePath w w') srcs es →
      (∀ src ∈ srcs, 0 ≤ src.length) →
      EntriesBacked w' es ∧ es.map FileEntry.length = srcs.map FileDict.length ∧
        entriesContent w' es =
          srcs.flatMap fun src => initialBytes w (fullPath storePath src) src.length
  | [], [], .nil, _ => ⟨fun _ h => (nomatch h), rfl, rfl⟩
  | src :: srcs, e :: es, .cons ho h, hlen => by
    obtain ⟨hb, hl, hc⟩ := Opened.forall₂ h fun s hs => hlen s (List.mem_cons_of_mem _ hs)
    refine ⟨hb.cons ho.bytes ?_, by simp [ho.length, hl], ?_⟩
    · rw [ho.length]
      exact length_initialBytes _ _ (hlen src (List.mem_cons_self _ _))
    · rw [entriesContent_cons es ho.bytes, hc, List.flatMap_cons]

/-- What the loop of `NewFileStore` returns when no call fails: no error, the running total plus
the lengths as `totalSize`, the entries at the prefix sums of their lengths, each opened from its
file dictionary, and no file changed outside the families of the paths. -/
structure LoopOk (storePath : List Char) (srcs : List FileDict) (o : Int) (w : World)
    (r : (List (Int × FileEntry) × Int × Option GoError) × World) : Prop where
  err : r.1.2.2 = none
  totalSize : r.1.2.1 = o + (srcs.map FileDict.length).sum
  offsets : r.1.1.map Prod.fst = prefixSums o (r.1.1.map Prod.snd)
  opened : List.Forall₂ (Opened storePath w r.2) srcs (r.1.1.map Prod.snd)
  faults : r.2.faults = []
  frame : World.ChangesOnly (fun q => ∃ src ∈ srcs, Family (fullPath storePath src) q) w r.2
  kept : ∀ src ∈ srcs, r.2.files (fullPath storePath src) = w.files (fullPath storePath src)

/-- With no faults, the loop of `NewFileStore` over files of lengths that are not negative and
add up below `2^63`, at distinct well-named paths, opens every file. -/
theorem newFileStoreLoop_ok (storePath : List Char) :
    ∀ (srcs : List FileDict) (o : Int) (w : World), w.faults = [] →
      (∀ src ∈ srcs, 0 ≤ src.length ∧ WellNamed (fullPath storePath src)) →
      (srcs.map (fullPath storePath)).Nodup → 0 ≤ o →
      o + (srcs.map FileDict.length).sum < 2 ^ 63 →
      LoopOk storePath srcs o w (newFileStoreLoop storePath srcs o w)
  | [], o, w, hw, _, _, _, _ => ⟨rfl, (add_zero o).symm, rfl, .nil, hw, .refl _ _, fun _ h => (nomatch h)⟩
  | src :: rest, o, w, hw, hsrc, hnd, ho, hsum => by
    obtain ⟨hlen, hP⟩ := hsrc src (List.mem_cons_self _ _)
    have hrest := fun s hs => hsrc s (List.mem_cons_of_mem src hs)
    obtain ⟨hnotin, hnd'⟩ := List.nodup_cons.mp hnd
    have hsum' := sum_length_nonneg fun s hs => (hrest s hs).1
    simp only [List.map_cons, List.sum_cons] at hsum
    obtain ⟨hd₁, hd₂, hd₃⟩ := ensureDirectory_of_faults_nil hw (fullPath storePath src)
    obtain ⟨ho₁, ho₂, ho₃, ho₄, ho₅, ho₆⟩ := open_of_faults_nil hd₃ hP hlen
    set w₁ := (ensureDirectory (fullPath storePath src) w).2
    set fe := (FileEntry.open (fullPath storePath src) src.length w₁).1.1
    set w₂ := (FileEntry.open (fullPath storePath src) src.length w₁).2
    have ih := newFileStoreLoop_ok storePath rest (o + src.length) w₂ ho₄ hrest hnd' (by omega)
      (by omega)
    simp only [newFileStoreLoop]
    rw [show ensureDirectory (fullPath storePath src) w = (none, w₁) from Prod.ext hd₁ rfl]
    dsimp only
    rw [show FileEntry.open (fullPath storePath src) src.length w₁ = ((fe, none), w₂) from
      Prod.ext (Prod.ext rfl ho₁) rfl, wrapInt64_of_mem (by omega) (by omega)]
    generalize newFileStoreLoop storePath rest (o + src.length) w₂ = r at ih
    obtain ⟨⟨entries, total, err⟩, w₃⟩ := r
    -- a path of the rest is outside the family of this one, and this entry's name outside theirs
    have hout : ∀ s ∈ rest, ¬ Family (fullPath storePath src) (fullPath storePath s) :=
      fun s hs hF => hnotin (by
        rw [hP.eq_of_family (hrest s hs).2 hF .self]
        exact List.mem_map_of_mem _ hs)
    have hfe : ¬ ∃ s ∈ rest, Family (fullPath storePath s) fe.name := fun ⟨s, hs, hF⟩ =>
      hout s hs (by
        rw [hP.eq_of_family (hrest s hs).2 (FileEntry.family_open_name _ _ _) hF]
        exact .self)
    have hopen := FileEntry.open_changesOnly (fullPath storePath src) src.length w₁
    refine ⟨ih.err, by rw [ih.totalSize, List.map_cons, List.sum_cons, add_assoc],
      by simp [prefixSums, ih.offsets, ho₂], ?_, ih.faults, ?_, ?_⟩
    · have hkeep : ∀ s ∈ rest, w₂.files (fullPath storePath s) = w.files (fullPath storePath s) :=
        fun s hs => (hopen _ (hout s hs)).trans (congrFun hd₂ _)
      refine .cons ⟨ho₂, FileEntry.family_open_name _ _ _, ?_,
          by rw [ho₅]; simp only [World.stat, hd₂]⟩
        ((List.forall₂_and_left _ _).mpr ⟨hkeep, ih.opened⟩ |>.imp fun s e ⟨hk, hs⟩ =>
          ⟨hs.length, hs.family, by rw [hs.bytes, initialBytes_congr hk],
            by rw [hs.name]; simp only [World.stat, hk]⟩)
      rw [ih.frame _ hfe, ho₃, initialBytes_congr (congrFun hd₂ _)]
    · exact World.ChangesOnly.trans (fun q _ => congrFun hd₂ q)
        ((hopen.mono fun q hq => ⟨src, List.mem_cons_self _ _, hq⟩).trans
          (ih.frame.mono fun q ⟨s, hs, hq⟩ => ⟨s, List.mem_cons_of_mem _ hs, hq⟩))
    · intro s hs
      rcases List.mem_cons.mp hs with rfl | hs
      · have hPout : ¬ ∃ s' ∈ rest, Family (fullPath storePath s') (fullPath storePath s) :=
          fun ⟨s', hs', hF⟩ => hout s' hs' (by
            rw [(hrest s' hs').2.eq_of_family hP hF .self]
            exact .self)
        exact (ih.frame _ hPout).trans (ho₆.trans (congrFun hd₂ _))
      · exact (ih.kept s hs).trans ((hopen _ (hout s hs)).trans (congrFun hd₂ _))

theorem map_name_sublist_partNames : ∀ es : List FileEntry,
    (es.map FileEntry.name).Sublist (partNames es)
  | [] => .slnil
  | _ :: es => ((map_name_sublist_partNames es).cons _).cons₂ _

/-- With no faults, `NewFileStore` of a torrent whose files have lengths that are not negative and
add up below `2^63`, at distinct well-named paths, returns a store, the sum of the lengths and no
error. The store satisfies the invariant, has the files' lengths, and stands for the initial
array. -/
theorem newFileStore_storeInv {info : InfoDict} {storePath : List Char} {w : World}
    (hw : w.faults = []) (hlen : ∀ src ∈ storeFiles info, 0 ≤ src.length)
    (hsum : ((storeFiles info).map FileDict.length).sum < 2 ^ 63)
    (hnamed : ∀ P ∈ storePaths info storePath, WellNamed P)
    (hnd : (storePaths info storePath).Nodup) :
    ∃ f, (newFileStore info storePath w).1 =
        (some f, ((storeFiles info).map FileDict.length).sum, none) ∧
      StoreInv (storePaths info storePath) f (newFileStore info storePath w).2 ∧
      f.content (newFileStore info storePath w).2 = initialContent info storePath w ∧
      f.files.map FileEntry.length = (storeFiles info).map FileDict.length ∧
      List.Forall₂ (Opened storePath w (newFileStore info storePath w).2) (storeFiles info)
        f.files ∧
      ∀ src ∈ storeFiles info, (newFileStore info storePath w).2.files (fullPath storePath src) =
        w.files (fullPath storePath src) := by
  have hsrc : ∀ src ∈ storeFiles info, 0 ≤ src.length ∧ WellNamed (fullPath storePath src) :=
    fun src hs => ⟨hlen src hs, hnamed _ (List.mem_map_of_mem _ hs)⟩
  have hl := newFileStoreLoop_ok storePath (storeFiles info) 0 w hw hsrc hnd le_rfl
    (by rwa [zero_add])
  simp only [newFileStore]
  generalize newFileStoreLoop storePath (storeFiles info) 0 w = r at hl
  obtain ⟨⟨entries, total, err⟩, w'⟩ := r
  obtain ⟨herr, htotal, hoff, hopened, hfaults, -, hkept⟩ := hl
  dsimp only at herr htotal hoff hopened hfaults ⊢
  subst herr
  obtain ⟨hb, hlens, hc⟩ := Opened.forall₂ hopened hlen
  have hfam : InFamilies (storePaths info storePath) (entries.map Prod.snd) :=
    List.forall₂_map_left_iff.mpr (hopened.imp fun _ _ ho => ho.family)
  have hnonneg : ∀ e ∈ entries.map Prod.snd, 0 ≤ e.length := fun e he => by
    obtain ⟨src, hs, h⟩ := List.mem_map.mp (hlens ▸ List.mem_map_of_mem FileEntry.length he)
    exact h ▸ hlen src hs
  exact ⟨FileStore.ofEntries entries, by rw [htotal, zero_add],
    ⟨⟨hoff, hnonneg⟩, ⟨hb, (hfam.partNames_nodup hnamed hnd).sublist (map_name_sublist_partNames _)⟩,
      hfam, hnamed, hnd, hfaults⟩, hc, hlens, hopened, hkept⟩

/-! ### `Cleanup` -/

/-- `Cleanup`'s loop changes no file outside the names of its entries and what `Cleanup` makes of
them. -/
theorem cleanupAll_changesOnly : ∀ (es : List FileEntry) (err : Option GoError) (w : World),
    World.ChangesOnly (fun q => ∃ e ∈ es, q = familyStep e.name ∨ q = e.name) w
      (FileStore.cleanupAll es err w).2
  | [], _, w => .refl _ w
  | e :: es, _, w =>
    ((FileEntry.cleanup_changesOnly e w).mono fun _ hq => ⟨e, List.mem_cons_self _ _, hq⟩).trans
      ((cleanupAll_changesOnly es _ _).mono fun _ ⟨e', he', hq⟩ =>
        ⟨e', List.mem_cons_of_mem _ he', hq⟩)

/-- With no faults, `Cleanup` of an entry backed by `c` under a well-named path or its `.part`
file returns no error and leaves `c` at the path; a staged entry's file is removed. -/
theorem FileEntry.cleanup_of_faults_nil {w : World} (hw : w.faults = []) {P : List Char}
    (hP : WellNamed P) {e : FileEntry} (hF : Family P e.name) {c : List UInt8}
    (hc : w.files e.name = some c) :
    (e.cleanup w).1.2 = none ∧ (e.cleanup w).2.files P = some c ∧ (e.cleanup w).2.faults = [] ∧
      (e.isPart = true → (e.cleanup w).2.files e.name = none) := by
  obtain ⟨length, name⟩ := e
  dsimp only at hF hc ⊢
  rcases hP.family_iff.mp hF with rfl | rfl
  · simp [FileEntry.cleanup, hP.isPart_false, hc, hw]
  · obtain ⟨hfiles, hfaults⟩ := copyfile_of_faults_nil hw P hc
    simp only [FileEntry.cleanup, FileEntry.isPart_append_partSuffix, if_true,
      show Strings.replace (P ++ partSuffix) partSuffix [] = P by simpa using strip_partSuffix hP.1 []]
    simp [World.remove, World.attempt, hfiles, hfaults, hc, partSuffix_ne_nil, Function.update_apply]

/-- With no faults, `Cleanup`'s loop over backed entries in the families of distinct well-named
paths returns no error and leaves at each path the bytes its entry held; the file of every staged
entry is gone. -/
theorem cleanupAll_of_faults_nil : ∀ {paths : List (List Char)} {es : List FileEntry},
    InFamilies paths es → (∀ P ∈ paths, WellNamed P) → paths.Nodup → ∀ w : World,
      w.faults = [] → EntriesBacked w es →
      (FileStore.cleanupAll es none w).1 = none ∧
        paths.map (FileStore.cleanupAll es none w).2.files = es.map (fun e => w.files e.name) ∧
        (FileStore.cleanupAll es none w).2.faults = [] ∧
        ∀ e ∈ es, e.isPart = true → (FileStore.cleanupAll es none w).2.files e.name = none
  | [], [], .nil, _, _, _, hw, _ => ⟨rfl, rfl, hw, fun _ h => (nomatch h)⟩
  | P :: paths, e :: es, .cons hF h, hnamed, hnd, w, hw, hb => by
    obtain ⟨hPrest, hnd'⟩ := List.nodup_cons.mp hnd
    have hP := hnamed P (List.mem_cons_self _ _)
    -- the names the rest of the loop touches are outside the family of `P`
    have hsep : ∀ e' ∈ es, ∀ q, (q = familyStep e'.name ∨ q = e'.name) → ¬ Family P q := by
      rintro e' he' q hq hPq
      obtain ⟨Q, hQ, hQe⟩ := InFamilies.exists_of_mem h he'
      have hQq : Family Q q := by rcases hq with rfl | rfl; exacts [.step hQe, hQe]
      exact hPrest (hP.eq_of_family (hnamed Q (List.mem_cons_of_mem _ hQ)) hPq hQq ▸ hQ)
    obtain ⟨c, hc, -⟩ := hb e (List.mem_cons_self _ _)
    obtain ⟨herr, hPc, hw₁, hgone⟩ := FileEntry.cleanup_of_faults_nil hw hP hF hc
    have hkeep : ∀ e' ∈ es, (e.cleanup w).2.files e'.name = w.files e'.name := fun e' he' =>
      FileEntry.cleanup_changesOnly e w _ fun hq => hsep e' he' _ (.inr rfl) (by
        rcases hq with h | h <;> rw [h]; exacts [.step hF, hF])
    obtain ⟨ih₁, ih₂, ih₃, ih₄⟩ := cleanupAll_of_faults_nil h (fun Q hQ => hnamed Q (List.mem_cons_of_mem _ hQ))
      hnd' _ hw₁ (EntriesBacked.congr (fun e' he' => hb e' (List.mem_cons_of_mem _ he')) hkeep)
    have hstep : FileStore.cleanupAll (e :: es) none w =
        FileStore.cleanupAll es none (e.cleanup w).2 := by
      rw [FileStore.cleanupAll, show e.cleanup w = ((_, none), (e.cleanup w).2) from
        Prod.ext (Prod.ext rfl herr) rfl]
    have hPfinal : (FileStore.cleanupAll es none (e.cleanup w).2).2.files P = w.files e.name :=
      (cleanupAll_changesOnly es none _ P fun ⟨e', he', hq⟩ => hsep e' he' P hq .self).trans
        (hPc.trans hc.symm)
    rw [hstep, List.map_cons, List.map_cons, hPfinal, ih₂, List.map_congr_left hkeep]
    refine ⟨ih₁, rfl, ih₃, List.forall_mem_cons.2 ⟨fun hpart => ?_, ih₄⟩⟩
    exact (cleanupAll_changesOnly es none _ e.name fun ⟨e', he', hq⟩ =>
      hsep e' he' _ hq hF).trans (hgone hpart)

/-- With the invariant, `Cleanup` returns no error and leaves at each path the bytes its entry
held; the file of every staged entry is gone. -/
theorem StoreInv.cleanup {paths : List (List Char)} {f : FileStore} {w : World}
    (hi : StoreInv paths f w) :
    (f.cleanup w).1 = none ∧ paths.map (f.cleanup w).2.files = f.files.map (fun e => w.files e.name) ∧
      (f.cleanup w).2.faults = [] ∧
      ∀ e ∈ f.files, e.isPart = true → (f.cleanup w).2.files e.name = none :=
  cleanupAll_of_faults_nil hi.inFamilies hi.named hi.nodup w hi.faults hi.backed.backed

/-- The flat array cut into consecutive pieces of the given lengths. -/
def cut : List Int → List UInt8 → List (List UInt8)
  | [], _ => []
  | n :: ns, a => a.take n.toNat :: cut ns (a.drop n.toNat)

/-- Cut at the entries' lengths, the bytes of backed entries are their files. -/
theorem EntriesBacked.cut_entriesContent {w : World} : ∀ {es : List FileEntry}, EntriesBacked w es →
    (cut (es.map FileEntry.length) (entriesContent w es)).map some = es.map fun e => w.files e.name
  | [], _ => rfl
  | e :: es, hb => by
    obtain ⟨c, hc, hlen⟩ := hb e (List.mem_cons_self _ _)
    have hn : e.length.toNat = c.length := by omega
    rw [List.map_cons, entriesContent_cons es hc, cut, hn, List.take_left, List.drop_left,
      List.map_cons, List.map_cons, hc,
      EntriesBacked.cut_entriesContent fun e' he' => hb e' (List.mem_cons_of_mem _ he')]

/-- With the invariant, `Cleanup` leaves at the paths the flat array cut at the entries'
lengths. -/
theorem StoreInv.cleanup_cut {paths : List (List Char)} {f : FileStore} {w : World}
    (hi : StoreInv paths f w) :
    paths.map (f.cleanup w).2.files = (cut (f.files.map FileEntry.length) (f.content w)).map some := by
  rw [hi.cleanup.2.1]
  exact hi.backed.backed.cut_entriesContent.symm

/-! ### Reopening a finished store -/

/-- Files that hold consecutive pieces of `a` of the torrent's lengths have those lengths, and
their initial bytes, end to end, are `a`. -/
theorem initialBytes_of_cut (w : World) (storePath : List Char) :
    ∀ (srcs : List FileDict) (a : List UInt8), (∀ src ∈ srcs, 0 ≤ src.length) →
      ((srcs.map FileDict.length).sum : Int) = a.length →
      srcs.map (fun src => w.files (fullPath storePath src)) =
        (cut (srcs.map FileDict.length) a).map some →
      (∀ src ∈ srcs, w.stat (fullPath storePath src) = some src.length) ∧
        srcs.flatMap (fun src => initialBytes w (fullPath storePath src) src.length) = a
  | [], a, _, hsum, _ => ⟨fun _ h => (nomatch h),
    (List.eq_nil_of_length_eq_zero (by simp at hsum; omega)).symm⟩
  | src :: srcs, a, hlen, hsum, hfiles => by
    simp only [List.map_cons, cut, List.cons.injEq] at hfiles
    obtain ⟨hP, hrest⟩ := hfiles
    have h₀ := hlen src (List.mem_cons_self _ _)
    have hlen' := fun s hs => hlen s (List.mem_cons_of_mem src hs)
    have hrest₀ := sum_length_nonneg hlen'
    simp only [List.map_cons, List.sum_cons] at hsum
    have hn : ((a.take src.length.toNat).length : Int) = src.length := by
      rw [List.length_take]; omega
    obtain ⟨ih₁, ih₂⟩ := initialBytes_of_cut w storePath srcs (a.drop src.length.toNat) hlen'
      (by rw [List.length_drop]; omega) hrest
    refine ⟨fun s hs => ?_, ?_⟩
    · rcases List.mem_cons.mp hs with rfl | hs
      · rw [World.stat, hP, Option.map_some', hn]
      · exact ih₁ s hs
    · rw [List.flatMap_cons, ih₂, initialBytes, hP]
      dsimp only
      rw [if_pos hn, List.take_append_drop]

/-- Entries `NewFileStore` opened from files that all had their sizes are not staged. -/
theorem Opened.isPart_false {storePath : List Char} {w w' : World} :
    ∀ {srcs : List FileDict} {es : List FileEntry}, List.Forall₂ (Opened storePath w w') srcs es →
      (∀ src ∈ srcs, WellNamed (fullPath storePath src) ∧
        w.stat (fullPath storePath src) = some src.length) →
      ∀ e ∈ es, e.isPart = false
  | [], [], .nil, _ => fun _ h => (nomatch h)
  | src :: _, e :: _, .cons ho h, hs => fun e' he' => by
    rcases List.mem_cons.mp he' with rfl | he'
    · obtain ⟨hP, hstat⟩ := hs src (List.mem_cons_self _ _)
      have hname : e'.name = fullPath storePath src := by rw [ho.name, if_pos hstat]
      obtain ⟨length, name⟩ := e'
      dsimp only at hname
      subst hname
      exact hP.isPart_false length
    · exact Opened.isPart_false h (fun s hs' => hs s (List.mem_cons_of_mem _ hs')) e' he'

/-! ### Restarting an unfinished store -/

/-- `SetBad`'s loop over staged entries calls nothing: `SetPart` leaves a staged entry alone. -/
theorem setPartAll_snd_of_isPart : ∀ (es : List FileEntry) (w : World),
    (∀ e ∈ es, e.isPart = true) → (setPartAll es w).2 = w
  | [], _, _ => rfl
  | e :: es, w, h => by
    have he : e.setPart w = (e, w) := by
      unfold FileEntry.setPart
      rw [if_pos (h e (List.mem_cons_self _ _))]
    simp only [setPartAll, he]
    exact setPartAll_snd_of_isPart es w fun e' he' => h e' (List.mem_cons_of_mem _ he')

/-- A store none of whose files has reached its path: every entry is staged under the `.part` file
of its path, and no file is at any of the paths. -/
structure Unfinished (paths : List (List Char)) (f : FileStore) (w : World) : Prop where
  staged : List.Forall₂ (fun P e => e.name = P ++ partSuffix) paths f.files
  absent : ∀ P ∈ paths, w.files P = none

theorem isPart_of_staged : ∀ {paths : List (List Char)} {es : List FileEntry},
    List.Forall₂ (fun P e => e.name = P ++ partSuffix) paths es → ∀ e ∈ es, e.isPart = true
  | [], [], .nil => fun _ h => (nomatch h)
  | _ :: _, _ :: _, .cons hname h => fun e he => by
    rcases List.mem_cons.mp he with rfl | he
    · rw [FileEntry.isPart, hname]
      exact List.isSuffixOf_iff_suffix.mpr (List.suffix_append _ _)
    · exact isPart_of_staged h e he

namespace Unfinished

variable {paths : List (List Char)} {f : FileStore} {w : World}

theorem isPart (hu : Unfinished paths f w) : ∀ e ∈ f.files, e.isPart = true :=
  isPart_of_staged hu.staged

/-- No path of a well-named torrent is the name of an unfinished entry. -/
theorem path_not_mem (hu : Unfinished paths f w) (hnamed : ∀ P ∈ paths, WellNamed P) {P : List Char}
    (hP : P ∈ paths) : P ∉ f.files.map FileEntry.name := fun hmem => by
  obtain ⟨e, he, rfl⟩ := List.mem_map.mp hmem
  exact (hnamed _ hP).1 (List.isSuffixOf_iff_suffix.mp (hu.isPart e he)).isInfix

theorem apply (hu : Unfinished paths f w) (hi : StoreInv paths f w) (op : StoreOp) :
    Unfinished paths (op.apply (f, w)).1 (op.apply (f, w)).2 := by
  cases op with
  | writeAt p off =>
    exact ⟨hu.staged, fun P hP => (FileStore.writeAt_spec hi.wellFormed hi.backed p off).2.2.1 P
      (hu.path_not_mem hi.named hP) |>.trans (hu.absent P hP)⟩
  | setBad fromOffset =>
    have hdrop : ∀ e ∈ f.files.drop (f.find fromOffset), e.isPart = true :=
      fun e he => hu.isPart e (List.mem_of_mem_drop he)
    have hfiles : (f.setBad fromOffset w).1.files = f.files := by
      rw [FileStore.setBad_files, List.map_congr_left fun e he => by
        rw [FileEntry.stagedName, if_pos (hdrop e he)], List.map_id'' fun _ => rfl,
        List.take_append_drop]
    have hworld : (f.setBad fromOffset w).2 = w := setPartAll_snd_of_isPart _ w hdrop
    show Unfinished paths (f.setBad fromOffset w).1 (f.setBad fromOffset w).2
    rw [hworld]
    exact ⟨hfiles ▸ hu.staged, hu.absent⟩

theorem runOps : ∀ (ops : List StoreOp) {f : FileStore} {w : World}, Unfinished paths f w →
    StoreInv paths f w →
      Unfinished paths (Rakoshare.runOps ops (f, w)).1 (Rakoshare.runOps ops (f, w)).2
  | [], _, _, hu, _ => hu
  | op :: ops, _, _, hu, hi => runOps ops (hu.apply hi op) (hi.apply op).1

end Unfinished

/-- Files absent from the disk are opened as zero bytes. -/
theorem initialBytes_of_absent {w : World} {storePath : List Char} :
    ∀ {srcs : List FileDict}, (∀ src ∈ srcs, 0 ≤ src.length) →
      (∀ src ∈ srcs, w.files (fullPath storePath src) = none) →
      srcs.flatMap (fun src => initialBytes w (fullPath storePath src) src.length) =
        List.replicate ((srcs.map FileDict.length).sum.toNat) 0
  | [], _, _ => rfl
  | src :: srcs, hlen, habs => by
    have hlen' := fun s hs => hlen s (List.mem_cons_of_mem src hs)
    have hrest₀ := sum_length_nonneg hlen'
    rw [List.flatMap_cons, initialBytes, habs src (List.mem_cons_self _ _),
      initialBytes_of_absent hlen' fun s hs => habs s (List.mem_cons_of_mem src hs),
      List.map_cons, List.sum_cons, Int.toNat_add (hlen src (List.mem_cons_self _ _)) hrest₀,
      List.replicate_add]

/-- With no faults, `NewFileStore` over a disk holding no file at any path of the torrent stages
every entry and stands for zero bytes. -/
theorem newFileStore_unfinished {info : InfoDict} {storePath : List Char} {w : World}
    (hw : w.faults = []) (hlen : ∀ src ∈ storeFiles info, 0 ≤ src.length)
    (hsum : ((storeFiles info).map FileDict.length).sum < 2 ^ 63)
    (hnamed : ∀ P ∈ storePaths info storePath, WellNamed P)
    (hnd : (storePaths info storePath).Nodup)
    (habs : ∀ P ∈ storePaths info storePath, w.files P = none) :
    ∃ f, (newFileStore info storePath w).1 =
        (some f, ((storeFiles info).map FileDict.length).sum, none) ∧
      StoreInv (storePaths info storePath) f (newFileStore info storePath w).2 ∧
      Unfinished (storePaths info storePath) f (newFileStore info storePath w).2 ∧
      f.content (newFileStore info storePath w).2 =
        List.replicate (((storeFiles info).map FileDict.length).sum.toNat) 0 ∧
      f.files.map FileEntry.length = (storeFiles info).map FileDict.length := by
  have habs' : ∀ src ∈ storeFiles info, w.files (fullPath storePath src) = none :=
    fun src hs => habs _ (List.mem_map_of_mem _ hs)
  obtain ⟨f, hnew, hi, hc, hl, hopened, hkept⟩ := newFileStore_storeInv hw hlen hsum hnamed hnd
  refine ⟨f, hnew, hi, ⟨List.forall₂_map_left_iff.mpr
    (((List.forall₂_and_left _ _).mpr ⟨habs', hopened⟩).imp fun src e ⟨ha, ho⟩ => ?_), ?_⟩,
    hc.trans (initialBytes_of_absent hlen habs'), hl⟩
  · intro P hP
    obtain ⟨src, hs, rfl⟩ := List.mem_map.mp hP
    exact (hkept src hs).trans (habs' src hs)
  · rw [ho.name, World.stat, ha]
    rfl

/-! ### The whole life of a store -/

/-- While no system call fails, a store `NewFileStore` opens keeps the invariant over any sequence
of calls, stands for the initial array with the calls applied and keeps the files' lengths. -/
theorem newFileStore_runOps {info : InfoDict} {storePath : List Char} {w : World}
    (hw : w.faults = []) (hlen : ∀ src ∈ storeFiles info, 0 ≤ src.length)
    (hsum : ((storeFiles info).map FileDict.length).sum < 2 ^ 63)
    (hnamed : ∀ P ∈ storePaths info storePath, WellNamed P)
    (hnd : (storePaths info storePath).Nodup) (ops : List StoreOp) :
    ∃ f, (newFileStore info storePath w).1 =
        (some f, ((storeFiles info).map FileDict.length).sum, none) ∧
      ∀ f' w', runOps ops (f, (newFileStore info storePath w).2) = (f', w') →
        StoreInv (storePaths info storePath) f' w' ∧
        f'.content w' = flatRun ops (initialContent info storePath w) ∧
        f'.files.map FileEntry.length = (storeFiles info).map FileDict.length := by
  obtain ⟨f, hnew, hi, hc, hl, -, -⟩ := newFileStore_storeInv hw hlen hsum hnamed hnd
  refine ⟨f, hnew, fun f' w' hrun => ?_⟩
  obtain ⟨hi', hc', hl'⟩ := hi.runOps ops
  rw [hrun, hc] at hc'
  rw [hrun] at hi' hl'
  exact ⟨hi', hc', hl'.trans hl⟩

/-- The torrent `twoFileInfo` under `/s`: lengths that are not negative and add up below `2^63`,
at distinct well-named paths, none a directory of another. -/
theorem twoFileInfo_conditions : (∀ src ∈ storeFiles twoFileInfo, 0 ≤ src.length) ∧
    ((storeFiles twoFileInfo).map FileDict.length).sum < 2 ^ 63 ∧
    (∀ P ∈ storePaths twoFileInfo "/s".toList, WellNamed P) ∧
    (storePaths twoFileInfo "/s".toList).Nodup ∧ NoDirPrefix (storePaths twoFileInfo "/s".toList) := by
  have hp : storePaths twoFileInfo "/s".toList = ["/s/x".toList, "/s/d/y".toList] := by decide
  rw [hp]
  exact ⟨by decide, by decide, by decide, by decide, by decide⟩

/-- While no system call fails, a store that `NewFileStore` opens for a torrent whose files have
lengths that are not negative and add up below `2^63`, at distinct well-named paths none of
which is a directory of another, is one flat byte array from its creation to its `Cleanup`. `NewFileStore` returns the store, the sum of the
lengths and no error. After any sequence of writes and `SetBad` calls, the array is the initial
array with the writes applied by `flatWrite`: every read returns what the read of the array
returns, every write returns what the write into the array returns, and `Cleanup` returns no error
and leaves at the path of each file of the torrent exactly that file's slice of the array. -/
theorem fileStore_lifecycle (info : InfoDict) (storePath : List Char) (w : World)
    (hw : w.faults = []) (hlen : ∀ src ∈ storeFiles info, 0 ≤ src.length)
    (hsum : ((storeFiles info).map FileDict.length).sum < 2 ^ 63)
    (hnamed : ∀ P ∈ storePaths info storePath, WellNamed P)
    (hnd : (storePaths info storePath).Nodup) (_hdirs : NoDirPrefix (storePaths info storePath))
    (ops : List StoreOp) :
    ∃ f, (newFileStore info storePath w).1 =
        (some f, ((storeFiles info).map FileDict.length).sum, none) ∧
      ∀ f' w', runOps ops (f, (newFileStore info storePath w).2) = (f', w') →
        (∀ (p : List UInt8) (off : Nat), f'.readAt w' p off =
          flatRead (flatRun ops (initialContent info storePath w)) p.length off) ∧
        (∀ (p : List UInt8) (off : Nat), (f'.writeAt w' p off).1 =
          flatWriteResult (flatRun ops (initialContent info storePath w)) off p) ∧
        (f'.cleanup w').1 = none ∧
        (storePaths info storePath).map (f'.cleanup w').2.files =
          (cut ((storeFiles info).map FileDict.length)
            (flatRun ops (initialContent info storePath w))).map some := by
  obtain ⟨f, hnew, hrun⟩ := newFileStore_runOps hw hlen hsum hnamed hnd ops
  refine ⟨f, hnew, fun f' w' h => ?_⟩
  obtain ⟨hi, hc, hl⟩ := hrun f' w' h
  refine ⟨fun p off => by rw [hi.readAt, hc], fun p off => by rw [hi.writeAt_result, hc],
    hi.cleanup.1, ?_⟩
  rw [hi.cleanup_cut, hl, hc]

theorem fileStore_lifecycle_twoFileInfo :
    World.fresh.faults = [] ∧ (∀ src ∈ storeFiles twoFileInfo, 0 ≤ src.length) ∧
      ((storeFiles twoFileInfo).map FileDict.length).sum < 2 ^ 63 ∧
      (∀ P ∈ storePaths twoFileInfo "/s".toList, WellNamed P) ∧
      (storePaths twoFileInfo "/s".toList).Nodup ∧ NoDirPrefix (storePaths twoFileInfo "/s".toList) ∧
      ∃ f, (newFileStore twoFileInfo "/s".toList World.fresh).1 =
          (some f, ((storeFiles twoFileInfo).map FileDict.length).sum, none) ∧
        ∀ f' w', runOps [.writeAt [1, 2] 2, .setBad 0]
            (f, (newFileStore twoFileInfo "/s".toList World.fresh).2) = (f', w') →
          (∀ (p : List UInt8) (off : Nat), f'.readAt w' p off = flatRead (flatRun
            [.writeAt [1, 2] 2, .setBad 0] (initialContent twoFileInfo "/s".toList World.fresh))
              p.length off) ∧
          (∀ (p : List UInt8) (off : Nat), (f'.writeAt w' p off).1 = flatWriteResult (flatRun [.writeAt [1, 2] 2, .setBad 0]
            (initialContent twoFileInfo "/s".toList World.fresh)) off p) ∧
          (f'.cleanup w').1 = none ∧
          (storePaths twoFileInfo "/s".toList).map (f'.cleanup w').2.files =
            (cut ((storeFiles twoFileInfo).map FileDict.length) (flatRun [.writeAt [1, 2] 2, .setBad 0]
              (initialContent twoFileInfo "/s".toList World.fresh))).map some := by
  obtain ⟨hlen, hsum, hnamed, hnd, hdirs⟩ := twoFileInfo_conditions
  exact ⟨rfl, hlen, hsum, hnamed, hnd, hdirs, fileStore_lifecycle twoFileInfo "/s".toList World.fresh rfl
    hlen hsum hnamed hnd hdirs [.writeAt [1, 2] 2, .setBad 0]⟩

/-- Reopening a finished download. While no system call fails, after `NewFileStore` of a torrent
whose files have lengths that are not negative and add up below `2^63`, at distinct well-named
paths none of which is a directory of another, any sequence of writes and `SetBad` calls, and `Cleanup`, a second `NewFileStore` of the
same torrent under the same path returns a store, the sum of the lengths and no error. It finds
every file at its path with its size and keeps it: no entry is staged, and the store stands for
the flat array the first store ended with. -/
theorem fileStore_reopen (info : InfoDict) (storePath : List Char) (w : World)
    (hw : w.faults = []) (hlen : ∀ src ∈ storeFiles info, 0 ≤ src.length)
    (hsum : ((storeFiles info).map FileDict.length).sum < 2 ^ 63)
    (hnamed : ∀ P ∈ storePaths info storePath, WellNamed P)
    (hnd : (storePaths info storePath).Nodup) (_hdirs : NoDirPrefix (storePaths info storePath))
    (ops : List StoreOp) :
    ∃ f, (newFileStore info storePath w).1 =
        (some f, ((storeFiles info).map FileDict.length).sum, none) ∧
      ∀ f' w', runOps ops (f, (newFileStore info storePath w).2) = (f', w') →
        ∃ g, (newFileStore info storePath (f'.cleanup w').2).1 =
            (some g, ((storeFiles info).map FileDict.length).sum, none) ∧
          g.content (newFileStore info storePath (f'.cleanup w').2).2 =
            flatRun ops (initialContent info storePath w) ∧
          ∀ e ∈ g.files, e.isPart = false := by
  obtain ⟨f, hnew, hrun⟩ := newFileStore_runOps hw hlen hsum hnamed hnd ops
  refine ⟨f, hnew, fun f' w' h => ?_⟩
  obtain ⟨hi, hc, hl⟩ := hrun f' w' h
  have hslices := hi.cleanup_cut
  rw [hl, hc, storePaths, List.map_map] at hslices
  have hsize : (((storeFiles info).map FileDict.length).sum : Int) =
      (flatRun ops (initialContent info storePath w)).length := by
    rw [← hc, f'.length_content hi.backed, FileStore.totalSize, hl]
  obtain ⟨hstat, hbytes⟩ := initialBytes_of_cut _ storePath _ _ hlen hsize hslices
  obtain ⟨g, hnew', -, hc', -, hopened, -⟩ :=
    newFileStore_storeInv hi.cleanup.2.2.1 hlen hsum hnamed hnd
  exact ⟨g, hnew', hc'.trans hbytes, Opened.isPart_false hopened fun src hs =>
    ⟨hnamed _ (List.mem_map_of_mem _ hs), hstat src hs⟩⟩

theorem fileStore_reopen_twoFileInfo :
    World.fresh.faults = [] ∧ (∀ src ∈ storeFiles twoFileInfo, 0 ≤ src.length) ∧
      ((storeFiles twoFileInfo).map FileDict.length).sum < 2 ^ 63 ∧
      (∀ P ∈ storePaths twoFileInfo "/s".toList, WellNamed P) ∧
      (storePaths twoFileInfo "/s".toList).Nodup ∧ NoDirPrefix (storePaths twoFileInfo "/s".toList) ∧
      ∃ f, (newFileStore twoFileInfo "/s".toList World.fresh).1 =
          (some f, ((storeFiles twoFileInfo).map FileDict.length).sum, none) ∧
        ∀ f' w', runOps [.writeAt [1, 2] 2, .setBad 0]
            (f, (newFileStore twoFileInfo "/s".toList World.fresh).2) = (f', w') →
          ∃ g, (newFileStore twoFileInfo "/s".toList (f'.cleanup w').2).1 =
              (some g, ((storeFiles twoFileInfo).map FileDict.length).sum, none) ∧
            g.content (newFileStore twoFileInfo "/s".toList (f'.cleanup w').2).2 =
              flatRun [.writeAt [1, 2] 2, .setBad 0]
                (initialContent twoFileInfo "/s".toList World.fresh) ∧
            ∀ e ∈ g.files, e.isPart = false := by
  obtain ⟨hlen, hsum, hnamed, hnd, hdirs⟩ := twoFileInfo_conditions
  exact ⟨rfl, hlen, hsum, hnamed, hnd, hdirs, fileStore_reopen twoFileInfo "/s".toList World.fresh rfl
    hlen hsum hnamed hnd hdirs [.writeAt [1, 2] 2, .setBad 0]⟩

/-- An interrupted download starts over. While no system call fails, on a disk with no file at
any path of a torrent whose files have lengths that are not negative and add up below `2^63`, at
distinct well-named paths, `NewFileStore` stages every file. After any sequence of writes and
`SetBad` calls and no `Cleanup`, a second `NewFileStore` of the same torrent under the same path
returns a store, the sum of the lengths and no error; every entry is staged again and the store
stands for zero bytes only. Every byte written in the first session is dropped: the paths are
still empty, and `open` removes the `.part` file it finds and creates the staging file anew. -/
theorem fileStore_restart_discards_writes (info : InfoDict) (storePath : List Char) (w : World)
    (hw : w.faults = []) (hlen : ∀ src ∈ storeFiles info, 0 ≤ src.length)
    (hsum : ((storeFiles info).map FileDict.length).sum < 2 ^ 63)
    (hnamed : ∀ P ∈ storePaths info storePath, WellNamed P)
    (hnd : (storePaths info storePath).Nodup)
    (habs : ∀ P ∈ storePaths info storePath, w.files P = none) (ops : List StoreOp) :
    ∃ f, (newFileStore info storePath w).1 =
        (some f, ((storeFiles info).map FileDict.length).sum, none) ∧
      ∀ f' w', runOps ops (f, (newFileStore info storePath w).2) = (f', w') →
        ∃ g, (newFileStore info storePath w').1 =
            (some g, ((storeFiles info).map FileDict.length).sum, none) ∧
          g.content (newFileStore info storePath w').2 =
            List.replicate (((storeFiles info).map FileDict.length).sum.toNat) 0 ∧
          ∀ e ∈ g.files, e.isPart = true := by
  obtain ⟨f, hnew, hi, hu, -⟩ := newFileStore_unfinished hw hlen hsum hnamed hnd habs
  refine ⟨f, hnew, fun f' w' hrun => ?_⟩
  have hi' := (hi.runOps ops).1
  have hu' := hu.runOps ops hi
  rw [hrun] at hi' hu'
  obtain ⟨g, hnew', -, hug, hc, -⟩ := newFileStore_unfinished hi'.faults hlen hsum hnamed hnd hu'.absent
  exact ⟨g, hnew', hc, hug.isPart⟩

theorem fileStore_restart_discards_writes_twoFileInfo :
    World.fresh.faults = [] ∧ (∀ src ∈ storeFiles twoFileInfo, 0 ≤ src.length) ∧
      ((storeFiles twoFileInfo).map FileDict.length).sum < 2 ^ 63 ∧
      (∀ P ∈ storePaths twoFileInfo "/s".toList, WellNamed P) ∧
      (storePaths twoFileInfo "/s".toList).Nodup ∧
      (∀ P ∈ storePaths twoFileInfo "/s".toList, World.fresh.files P = none) ∧
      ∃ f, (newFileStore twoFileInfo "/s".toList World.fresh).1 =
          (some f, ((storeFiles twoFileInfo).map FileDict.length).sum, none) ∧
        ∀ f' w', runOps [.writeAt [1, 2] 2, .setBad 0]
            (f, (newFileStore twoFileInfo "/s".toList World.fresh).2) = (f', w') →
          ∃ g, (newFileStore twoFileInfo "/s".toList w').1 =
              (some g, ((storeFiles twoFileInfo).map FileDict.length).sum, none) ∧
            g.content (newFileStore twoFileInfo "/s".toList w').2 =
              List.replicate (((storeFiles twoFileInfo).map FileDict.length).sum.toNat) 0 ∧
            ∀ e ∈ g.files, e.isPart = true := by
  obtain ⟨hlen, hsum, hnamed, hnd, -⟩ := twoFileInfo_conditions
  have habs : ∀ P ∈ storePaths twoFileInfo "/s".toList, World.fresh.files P = none :=
    fun _ _ => rfl
  exact ⟨rfl, hlen, hsum, hnamed, hnd, habs, fileStore_restart_discards_writes twoFileInfo
    "/s".toList World.fresh rfl hlen hsum hnamed hnd habs [.writeAt [1, 2] 2, .setBad 0]⟩

/-! ### Reads after `Cleanup` -/

/-- A loop that reads some byte on one disk ends in an error on a disk that holds none of its
entries' files: the first entry it reads from is missing. -/
theorem readLoop_err_of_absent {w w' : World} :
    ∀ {es : List (Int × FileEntry)} {p : List UInt8} {off : Int},
      (∀ x ∈ es, w'.files x.2.name = none) → (readLoop w es p off).1 ≠ [] →
        (readLoop w' es p off).2.2 ≠ none
  | [], _, _, _, h => absurd rfl h
  | (o, e) :: es, p, off, habs, h => by
    have he : w'.files e.name = none := habs _ (List.mem_cons_self _ _)
    dsimp only [readLoop] at h ⊢
    by_cases hp : p = []
    · simp [hp] at h
    · rw [if_neg hp] at h ⊢
      by_cases hlt : off - o < e.length
      · simp [hlt, FileEntry.readAt, World.readAt, he]
      · rw [if_neg hlt] at h ⊢
        exact readLoop_err_of_absent (fun x hx => habs x (List.mem_cons_of_mem _ hx)) h

/-- `ReadAt` counts the bytes its loop read and returns the loop's error. -/
theorem FileStore.readAt_snd (f : FileStore) (w : World) (p : List UInt8) (off : Int) :
    (f.readAt w p off).2 =
      ((readLoop w ((f.offsets.zip f.files).drop (f.find off)) p off).1.length,
        (readLoop w ((f.offsets.zip f.files).drop (f.find off)) p off).2.2) := by
  unfold FileStore.readAt
  split
  next h => rw [h]; split <;> rfl

/-- `Cleanup` breaks every later read of a download. While no system call fails, `NewFileStore`
of a torrent none of whose files is on the disk, at distinct well-named paths none of which is
a directory of another, stages every file. After any sequence of writes and `SetBad` calls, a
read of any range that starts below the total size returns no error, and `Cleanup` returns no
error. Yet after `Cleanup` the same read returns an error: `fileStore.Cleanup` ranges over copies
of the entries, so the store's entries keep their staged names while `Cleanup` removed those
files. -/
theorem cleanup_breaks_reads (info : InfoDict) (storePath : List Char) (w : World)
    (hw : w.faults = []) (hlen : ∀ src ∈ storeFiles info, 0 ≤ src.length)
    (hsum : ((storeFiles info).map FileDict.length).sum < 2 ^ 63)
    (hnamed : ∀ P ∈ storePaths info storePath, WellNamed P)
    (hnd : (storePaths info storePath).Nodup) (_hdirs : NoDirPrefix (storePaths info storePath))
    (habs : ∀ P ∈ storePaths info storePath, w.files P = none) (ops : List StoreOp) :
    ∃ f, (newFileStore info storePath w).1 =
        (some f, ((storeFiles info).map FileDict.length).sum, none) ∧
      ∀ f' w', runOps ops (f, (newFileStore info storePath w).2) = (f', w') →
        (f'.cleanup w').1 = none ∧
        ∀ (p : List UInt8) (off : Nat), p ≠ [] →
          (off : Int) < ((storeFiles info).map FileDict.length).sum →
          (f'.readAt w' p off).2.2 = none ∧ (f'.readAt (f'.cleanup w').2 p off).2.2 ≠ none := by
  obtain ⟨f, hnew, hi, hu, -, hl⟩ := newFileStore_unfinished hw hlen hsum hnamed hnd habs
  refine ⟨f, hnew, fun f' w' hrun => ?_⟩
  obtain ⟨hi', -, hl'⟩ := hi.runOps ops
  have hu' := hu.runOps ops hi
  rw [hrun] at hi' hl' hu'
  obtain ⟨hcl, -, -, hgone⟩ := hi'.cleanup
  refine ⟨hcl, fun p off hp hoff => ⟨by rw [hi'.readAt]; rfl, ?_⟩⟩
  have hsize : ((f'.content w').length : Int) = ((storeFiles info).map FileDict.length).sum := by
    rw [f'.length_content hi'.backed, FileStore.totalSize, hl', hl]
  -- before `Cleanup` the read delivers at least one byte
  have hcount : (f'.readAt w' p off).2.1 ≠ 0 := by
    rw [hi'.readAt, flatRead]
    have : 0 < p.length := List.length_pos.mpr hp
    dsimp only
    omega
  rw [FileStore.readAt_snd] at hcount ⊢
  refine readLoop_err_of_absent (fun x hx => ?_) (by simpa using hcount)
  have hx' : x.2 ∈ f'.files := (List.of_mem_zip (List.mem_of_mem_drop hx)).2
  exact hgone x.2 hx' (hu'.isPart x.2 hx')

theorem cleanup_breaks_reads_twoFileInfo :
    World.fresh.faults = [] ∧ (∀ src ∈ storeFiles twoFileInfo, 0 ≤ src.length) ∧
      ((storeFiles twoFileInfo).map FileDict.length).sum < 2 ^ 63 ∧
      (∀ P ∈ storePaths twoFileInfo "/s".toList, WellNamed P) ∧
      (storePaths twoFileInfo "/s".toList).Nodup ∧ NoDirPrefix (storePaths twoFileInfo "/s".toList) ∧
      (∀ P ∈ storePaths twoFileInfo "/s".toList, World.fresh.files P = none) ∧
      ∃ f, (newFileStore twoFileInfo "/s".toList World.fresh).1 =
          (some f, ((storeFiles twoFileInfo).map FileDict.length).sum, none) ∧
        ∀ f' w', runOps [.writeAt [1, 2] 2, .setBad 0]
            (f, (newFileStore twoFileInfo "/s".toList World.fresh).2) = (f', w') →
          (f'.cleanup w').1 = none ∧
          ∀ (p : List UInt8) (off : Nat), p ≠ [] →
            (off : Int) < ((storeFiles twoFileInfo).map FileDict.length).sum →
            (f'.readAt w' p off).2.2 = none ∧ (f'.readAt (f'.cleanup w').2 p off).2.2 ≠ none := by
  obtain ⟨hlen, hsum, hnamed, hnd, hdirs⟩ := twoFileInfo_conditions
  have habs : ∀ P ∈ storePaths twoFileInfo "/s".toList, World.fresh.files P = none :=
    fun _ _ => rfl
  exact ⟨rfl, hlen, hsum, hnamed, hnd, hdirs, habs, cleanup_breaks_reads twoFileInfo "/s".toList
    World.fresh rfl hlen hsum hnamed hnd hdirs habs [.writeAt [1, 2] 2, .setBad 0]⟩

/-! ### Distinct backing files -/

/-- Distinct well-named paths have disjoint families. -/
theorem familiesDisjoint_of_wellNamed {paths : List (List Char)}
    (hnamed : ∀ P ∈ paths, WellNamed P) (hnd : paths.Nodup) : paths.Pairwise FamiliesDisjoint :=
  hnd.imp_of_mem fun hP hQ hne _ h₁ h₂ => hne ((hnamed _ hP).eq_of_family (hnamed _ hQ) h₁ h₂)

/-- Under any pattern of failing calls, the entries of a store opened for a torrent at distinct
well-named paths keep distinct backing files. In every state reachable from `NewFileStore` by
`WriteAt`, `SetBad` and `Cleanup`, no two entries record the same backing name, and opening the
path of one entry, or `SetPart` or `Cleanup` on it, in any state of the disk, leaves the backing
file of every other entry as it is. A well-named path has no `.part` in it and a stem of at most
60 bytes, so that neither a `.part` twin nor the cut of `open` can make two families meet. -/
theorem backing_files_apart (info : InfoDict) (storePath : List Char)
    (hnamed : ∀ P ∈ storePaths info storePath, WellNamed P)
    (hnd : (storePaths info storePath).Nodup) {f : FileStore} {w : World}
    (hr : ReachableFrom info storePath f w) :
    (f.files.map FileEntry.name).Nodup ∧
      ∀ x ∈ (storePaths info storePath).zip f.files, ∀ y ∈ (storePaths info storePath).zip f.files,
        x ≠ y → ∀ (length : Int) (w' : World),
          (FileEntry.open x.1 length w').2.files y.2.name = w'.files y.2.name ∧
            (x.2.setPart w').2.files y.2.name = w'.files y.2.name ∧
            (x.2.cleanup w').2.files y.2.name = w'.files y.2.name :=
  backing_files_disjoint info storePath (familiesDisjoint_of_wellNamed hnamed hnd) hr

theorem backing_files_apart_twoFileInfo :
    (∀ P ∈ storePaths twoFileInfo "/s".toList, WellNamed P) ∧
      (storePaths twoFileInfo "/s".toList).Nodup ∧
      ReachableFrom twoFileInfo "/s".toList twoFileStore
        (newFileStore twoFileInfo "/s".toList World.fresh).2 ∧
      (twoFileStore.files.map FileEntry.name).Nodup := by
  obtain ⟨-, -, hnamed, hnd, -⟩ := twoFileInfo_conditions
  have hr : ReachableFrom twoFileInfo "/s".toList twoFileStore
      (newFileStore twoFileInfo "/s".toList World.fresh).2 := .new World.fresh rfl
  exact ⟨hnamed, hnd, hr, (backing_files_apart twoFileInfo "/s".toList hnamed hnd hr).1⟩

end Rakoshare
