import Rakoshare.OS.World

/-!
# The layout of a file store

A `fileStore` (`src/unnamed/part_001`, lines 26–34) lays the files of a torrent end to end: the
entries `files` in order, and the parallel array `offsets` of the logical offset at which each
entry starts. Both arrays are made with the same length by `NewFileStore`, which the structure
`FileStore` records. `fileStore.find` (lines 201–208) picks, by Go's `sort.Search`, the entry a
read or write at a logical offset starts from.

A store is `WellFormed` when its offsets are the prefix sums of its entries' lengths and those
lengths are non-negative; it is `Backed` in a world when each entry names a file of exactly its
length, no two entries naming the same file. The bytes of the store are then the concatenation
`content` of its backing files, of length `totalSize`.

## Main definitions

* `search`: Go's `sort.Search`.
* `FileEntry`, `FileStore`, `FileStore.find`.
* `prefixSums`, `FileStore.WellFormed`, `FileStore.Backed`, `FileStore.totalSize`,
  `FileStore.content`.

## Main results

* `search_spec`: the index `sort.Search` returns is one where `f` turns from false to true,
  whatever `f` is; `search_eq_least`: it is the least true index when `f` is monotone.
* `FileStore.find_lt`, `FileStore.offset_find_le`: `find` names an entry, one starting at or
  before the offset.
* `FileStore.find_first_reaching`: in a well-formed store `find` names the first entry ending at
  or after the offset, or the last entry.
* `FileStore.length_content`: a backed store holds `totalSize` bytes.
-/

namespace Rakoshare

/-! ### `sort.Search` -/

section Search

variable (f : Nat → Bool)

/-- The loop of `sort.Search(n, f)` on the range `[i, j)`: test the middle index `h` and keep
`[i, h)` when `f h` holds, `[h + 1, j)` otherwise. Each pass shrinks the range, so `fuel = j - i`
passes finish it. -/
def searchLoop : Nat → Nat → Nat → Nat
  | 0, i, _ => i
  | fuel + 1, i, j =>
    if i < j then
      if f ((i + j) / 2) then searchLoop fuel i ((i + j) / 2)
      else searchLoop fuel ((i + j) / 2 + 1) j
    else i

/-- `sort.Search(n, f)`. -/
def search (n : Nat) : Nat := searchLoop f n 0 n

/-- The loop invariant of `sort.Search`: `f` is false just below `i` and true at `j`, where
index `-1` counts as false and index `n` as true. -/
def SearchInv (n i j : Nat) : Prop :=
  i ≤ j ∧ j ≤ n ∧ (i = 0 ∨ f (i - 1) = false) ∧ (j = n ∨ f j = true)

theorem searchLoop_spec (n : Nat) :
    ∀ fuel i j, j - i ≤ fuel → SearchInv f n i j →
      SearchInv f n (searchLoop f fuel i j) (searchLoop f fuel i j)
  | 0, i, j, hfuel, ⟨hij, hjn, hi, hj⟩ => by
    obtain rfl : i = j := by omega
    exact ⟨le_rfl, hjn, hi, hj⟩
  | fuel + 1, i, j, hfuel, ⟨hij, hjn, hi, hj⟩ => by
    unfold searchLoop
    by_cases hlt : i < j
    · rw [if_pos hlt]
      by_cases hm : f ((i + j) / 2)
      · rw [if_pos hm]
        exact searchLoop_spec n fuel _ _ (by omega) ⟨by omega, by omega, hi, .inr hm⟩
      · rw [if_neg hm]
        exact searchLoop_spec n fuel _ _ (by omega)
          ⟨by omega, hjn, .inr (by simpa using hm), hj⟩
    · rw [if_neg hlt]
      obtain rfl : i = j := by omega
      exact ⟨le_rfl, hjn, hi, hj⟩

/-- `sort.Search` returns an index at most `n` where `f` turns from false to true. -/
theorem search_spec (n : Nat) :
    search f n ≤ n ∧ (search f n = 0 ∨ f (search f n - 1) = false) ∧
      (search f n = n ∨ f (search f n) = true) := by
  obtain ⟨-, h, hlo, hhi⟩ := searchLoop_spec f n n 0 n (by omega) ⟨by omega, le_rfl, .inl rfl, .inl rfl⟩
  exact ⟨h, hlo, hhi⟩

/-- On a predicate that stays true once true, `sort.Search` returns the least index below `n`
where it holds, and `n` when there is none. -/
theorem search_eq_least (n : Nat) (hmono : ∀ i j, i ≤ j → f i = true → f j = true) (k : Nat)
    (hk : k ≤ n) : (∀ i < k, f i = false) ∧ (k = n ∨ f k = true) → search f n = k := by
  rintro ⟨hbelow, hk'⟩
  obtain ⟨hle, hlo, hhi⟩ := search_spec f n
  rcases Nat.lt_trichotomy (search f n) k with hlt | heq | hgt
  · rcases hhi with h | h
    · omega
    · simp [hbelow _ hlt] at h
  · exact heq
  · rcases hlo with h | h
    · omega
    · rcases hk' with rfl | h'
      · omega
      · simp [hmono k (search f n - 1) (by omega) h'] at h

end Search

/-! ### Entries and stores -/

/-- A `fileEntry`: the length the torrent gives a file, and the name of the file backing it,
which ends in `.part` while the entry is staged. -/
structure FileEntry where
  length : Int
  name : List Char
  deriving DecidableEq, Repr, Inhabited

/-- The offsets the entries `es` start at when the first starts at `o`. -/
def prefixSums : Int → List FileEntry → List Int
  | _, [] => []
  | o, e :: es => o :: prefixSums (o + e.length) es

/-- The entries `es` paired with the offsets they start at when the first starts at `o`. -/
def segs (o : Int) (es : List FileEntry) : List (Int × FileEntry) := (prefixSums o es).zip es

@[simp] theorem segs_nil (o : Int) : segs o [] = [] := rfl

@[simp] theorem segs_cons (o : Int) (e : FileEntry) (es : List FileEntry) :
    segs o (e :: es) = (o, e) :: segs (o + e.length) es := rfl

/-- Dropping the first `i` entries leaves the rest with their offsets. -/
theorem segs_drop : ∀ (o : Int) (es : List FileEntry) (i : Nat),
    (segs o es).drop i = segs (o + ((es.take i).map FileEntry.length).sum) (es.drop i)
  | o, [], i => by simp
  | o, e :: es, 0 => by simp
  | o, e :: es, i + 1 => by
    rw [segs_cons, List.drop_succ_cons, segs_drop, List.take_succ_cons, List.map_cons,
      List.sum_cons, add_assoc, List.drop_succ_cons]

/-- The offset of entry `i`. -/
theorem getD_prefixSums : ∀ (o : Int) (es : List FileEntry) (i : Nat), i < es.length →
    (prefixSums o es).getD i 0 = o + ((es.take i).map FileEntry.length).sum
  | o, e :: es, 0, _ => by simp [prefixSums]
  | o, e :: es, i + 1, h => by
    simp only [prefixSums, List.getD_cons_succ, List.take_succ_cons, List.map_cons, List.sum_cons]
    rw [getD_prefixSums _ es i (by simpa using h), add_assoc]

/-- The bytes of the backing files of `es`, end to end. -/
def entriesContent (w : World) (es : List FileEntry) : List UInt8 :=
  es.flatMap fun e => (w.files e.name).getD []

@[simp] theorem entriesContent_nil (w : World) : entriesContent w [] = [] := rfl

theorem entriesContent_cons {w : World} {e : FileEntry} {c : List UInt8} (es : List FileEntry)
    (hc : w.files e.name = some c) : entriesContent w (e :: es) = c ++ entriesContent w es := by
  simp [entriesContent, hc]

theorem entriesContent_append (w : World) (es es' : List FileEntry) :
    entriesContent w (es ++ es') = entriesContent w es ++ entriesContent w es' :=
  List.flatMap_append _ _ _

theorem entriesContent_congr {w w' : World} {es : List FileEntry}
    (h : ∀ e ∈ es, w'.files e.name = w.files e.name) :
    entriesContent w' es = entriesContent w es := by
  simp only [entriesContent]
  exact List.flatMap_congr fun e he => by rw [h e he]

/-- Each entry of `es` names a file of exactly its length. -/
def EntriesBacked (w : World) (es : List FileEntry) : Prop :=
  ∀ e ∈ es, ∃ c, w.files e.name = some c ∧ (c.length : Int) = e.length

theorem EntriesBacked.congr {w w' : World} {es : List FileEntry} (hb : EntriesBacked w es)
    (h : ∀ e ∈ es, w'.files e.name = w.files e.name) : EntriesBacked w' es :=
  fun e he => by rw [h e he]; exact hb e he

theorem EntriesBacked.cons {w : World} {e : FileEntry} {es : List FileEntry} {c : List UInt8}
    (hc : w.files e.name = some c) (hlen : (c.length : Int) = e.length)
    (hb : EntriesBacked w es) : EntriesBacked w (e :: es) :=
  List.forall_mem_cons.mpr ⟨⟨c, hc, hlen⟩, hb⟩

/-- Backed entries hold as many bytes as their lengths add up to. -/
theorem EntriesBacked.length_entriesContent {w : World} :
    ∀ {es : List FileEntry}, EntriesBacked w es →
      ((entriesContent w es).length : Int) = (es.map FileEntry.length).sum
  | [], _ => by simp
  | e :: es, hb => by
    obtain ⟨c, hc, hlen⟩ := hb e (.head _)
    have ih := EntriesBacked.length_entriesContent fun e' he' => hb e' (.tail _ he')
    rw [entriesContent_cons es hc, List.length_append, List.map_cons, List.sum_cons, ← ih, ← hlen]
    push_cast; rfl

/-- A `fileStore`: the entries in order, with the logical offset at which each starts. The two
arrays have one length, as `NewFileStore` makes them. -/
structure FileStore where
  offsets : List Int
  files : List FileEntry
  length_eq : offsets.length = files.length

namespace FileStore

variable (f : FileStore)

/-- The test `fileStore.find` hands to `sort.Search`: `i` is the last index, or the entry after
`i` starts at or after `offset`. -/
def findPred (offset : Int) (i : Nat) : Bool :=
  decide (f.offsets.length - 1 ≤ i) || decide (offset ≤ f.offsets.getD (i + 1) 0)

theorem findPred_eq_false {offset : Int} {i : Nat} :
    f.findPred offset i = false ↔ i < f.offsets.length - 1 ∧ f.offsets.getD (i + 1) 0 < offset := by
  simp only [findPred, Bool.or_eq_false_iff, decide_eq_false_iff_not, not_le]

/-- `fileStore.find(offset)`. -/
def find (offset : Int) : Nat := search (f.findPred offset) f.offsets.length

theorem find_spec (offset : Int) :
    f.find offset ≤ f.offsets.length ∧ (f.find offset = 0 ∨ f.findPred offset (f.find offset - 1) = false) ∧
      (f.find offset = f.offsets.length ∨ f.findPred offset (f.find offset) = true) :=
  search_spec _ _

/-- `find` names an entry when there is one. -/
theorem find_lt (offset : Int) (h : f.offsets ≠ []) : f.find offset < f.offsets.length := by
  obtain ⟨hle, hlo, -⟩ := f.find_spec offset
  have hn : 0 < f.offsets.length := List.length_pos.mpr h
  rcases hlo with h0 | h1
  · omega
  · have := (f.findPred_eq_false.mp h1).1
    omega

/-- The entry `find` names starts at or before `offset` when the first one starts at `0`. -/
theorem offset_find_le (offset : Int) (h0 : f.offsets.getD 0 0 = 0) (hoff : 0 ≤ offset) :
    f.offsets.getD (f.find offset) 0 ≤ offset := by
  obtain ⟨-, hlo, -⟩ := f.find_spec offset
  by_cases hz : f.find offset = 0
  · rw [hz, h0]; exact hoff
  · rcases hlo with h | h
    · exact absurd h hz
    · rw [← Nat.sub_add_cancel (Nat.pos_of_ne_zero hz)]
      exact (f.findPred_eq_false.mp h).2.le

/-- The size of the store: the sum of its entries' lengths. -/
def totalSize : Int := (f.files.map FileEntry.length).sum

/-- The layout `NewFileStore` intends: offsets are the prefix sums of the lengths, and no
length is negative. -/
structure WellFormed : Prop where
  offsets_eq : f.offsets = prefixSums 0 f.files
  length_nonneg : ∀ e ∈ f.files, 0 ≤ e.length

/-- Each entry names a file of exactly its length, and no two entries name the same file. -/
structure Backed (w : World) : Prop where
  backed : EntriesBacked w f.files
  nodup : (f.files.map FileEntry.name).Nodup

/-- The logical bytes of the store: its backing files end to end. -/
def content (w : World) : List UInt8 := entriesContent w f.files

/-- Of a backed store, `totalSize` bytes. -/
theorem length_content {w : World} (hb : f.Backed w) : ((f.content w).length : Int) = f.totalSize :=
  hb.backed.length_entriesContent

/-- The entries from `find`'s index on, with their offsets, are what the loops of `ReadAt` and
`WriteAt` walk. -/
theorem zip_drop_find (hwf : f.WellFormed) (off : Int) :
    (f.offsets.zip f.files).drop (f.find off) =
      segs (((f.files.take (f.find off)).map FileEntry.length).sum) (f.files.drop (f.find off)) := by
  rw [hwf.offsets_eq, ← segs, segs_drop, zero_add]

/-- In a well-formed store the entry `find` names starts at or before the offset. -/
theorem sum_take_find_le (hwf : f.WellFormed) (off : Int) (hoff : 0 ≤ off) :
    ((f.files.take (f.find off)).map FileEntry.length).sum ≤ off := by
  by_cases h : f.files = []
  · simp [h]; exact hoff
  · have hne : f.offsets ≠ [] := by
      intro h'; exact h (List.length_eq_zero.mp (f.length_eq ▸ List.length_eq_zero.mpr h'))
    have hlt := f.find_lt off hne
    have h0 : f.offsets.getD 0 0 = 0 := by
      rw [hwf.offsets_eq, getD_prefixSums 0 _ 0 (by simp [List.length_pos.mpr h])]; simp
    have := f.offset_find_le off h0 hoff
    rwa [hwf.offsets_eq, getD_prefixSums 0 _ _ (f.length_eq ▸ hlt), zero_add] at this

/-! ### Which entry `find` names -/

/-- The logical offset at which entry `i` ends: its offset plus its length. -/
def entryEnd (i : Nat) : Int := f.offsets.getD i 0 + (f.files.getD i default).length

variable {f}

/-- In a well-formed store, entry `i + 1` starts where entry `i` ends. -/
theorem offset_succ_eq_entryEnd (hwf : f.WellFormed) {i : Nat} (h : i + 1 < f.files.length) :
    f.offsets.getD (i + 1) 0 = f.entryEnd i := by
  have hi : i < f.files.length := by omega
  rw [entryEnd, hwf.offsets_eq, getD_prefixSums 0 _ _ h, getD_prefixSums 0 _ _ hi,
    List.getD_eq_getElem?_getD, List.getElem?_eq_getElem hi, List.map_take, List.map_take,
    List.sum_take_succ _ _ (by simpa using hi)]
  simp [add_assoc]

/-- In a well-formed store the offsets do not decrease. -/
theorem offset_mono (hwf : f.WellFormed) {i j : Nat} (hij : i ≤ j) (hj : j < f.files.length) :
    f.offsets.getD i 0 ≤ f.offsets.getD j 0 := by
  rw [hwf.offsets_eq, getD_prefixSums 0 _ _ (by omega), getD_prefixSums 0 _ _ hj]
  refine add_le_add_left (((f.files.take_sublist_take_left hij).map _).sum_le_sum fun a ha => ?_) 0
  obtain ⟨e, he, rfl⟩ := List.mem_map.mp ha
  exact hwf.length_nonneg e (List.mem_of_mem_take he)

/-- An entry of a well-formed store ends at or after its start. -/
theorem offset_le_entryEnd (hwf : f.WellFormed) {i : Nat} (hi : i < f.files.length) :
    f.offsets.getD i 0 ≤ f.entryEnd i := by
  rw [entryEnd, List.getD_eq_getElem _ _ hi]
  exact le_add_of_nonneg_right (hwf.length_nonneg _ (List.getElem_mem _))

/-- In a well-formed store the test `find` hands to `sort.Search` stays true once true. -/
theorem findPred_mono (hwf : f.WellFormed) (offset : Int) {i j : Nat} (hij : i ≤ j)
    (hi : f.findPred offset i = true) : f.findPred offset j = true := by
  simp only [findPred, Bool.or_eq_true, decide_eq_true_eq] at hi ⊢
  by_cases hj : f.offsets.length - 1 ≤ j
  · exact .inl hj
  · rcases hi with hi | hi
    · omega
    · exact .inr (hi.trans (offset_mono hwf (Nat.succ_le_succ hij) (by rw [← f.length_eq]; omega)))

/-- Below the index `find` returns, the test fails. -/
theorem findPred_of_lt_find (hwf : f.WellFormed) {offset : Int} {i : Nat} (hi : i < f.find offset) :
    f.findPred offset i = false := by
  obtain ⟨-, hlo, -⟩ := f.find_spec offset
  rcases hlo with h | h
  · omega
  · cases hc : f.findPred offset i
    · rfl
    · rw [findPred_mono hwf offset (show i ≤ f.find offset - 1 by omega) hc] at h
      cases h

/-- `find` locates the first entry reaching the offset. In a well-formed store of `n ≥ 1`
entries, `find(off)` is the least index `i ≤ n - 2` whose entry ends at or after `off`, and
`n - 1` when there is none. For `off ≥ 0` the entry it names starts at or before `off`, and every
entry strictly between it and the entry holding byte `off` ends exactly at `off`. -/
theorem find_first_reaching (hwf : f.WellFormed) (hn : f.files ≠ []) (off : Int) (hoff : 0 ≤ off) :
    f.find off ≤ f.files.length - 1 ∧ (∀ i < f.find off, f.entryEnd i < off) ∧
      (f.find off = f.files.length - 1 ∨ off ≤ f.entryEnd (f.find off)) ∧
      f.offsets.getD (f.find off) 0 ≤ off ∧
      ∀ j, f.offsets.getD j 0 ≤ off → off < f.entryEnd j →
        f.find off ≤ j ∧ ∀ i, f.find off < i → i < j → f.entryEnd i = off := by
  have hlen := f.length_eq
  have hpos : 0 < f.files.length := List.length_pos.mpr hn
  have hlt := f.find_lt off (List.ne_nil_of_length_pos (hlen ▸ hpos))
  have hbelow : ∀ i < f.find off, f.entryEnd i < off := fun i hi => by
    have h := f.findPred_eq_false.mp (findPred_of_lt_find hwf hi)
    rw [offset_succ_eq_entryEnd hwf (by omega)] at h
    exact h.2
  have hat : f.find off = f.files.length - 1 ∨ off ≤ f.entryEnd (f.find off) := by
    obtain ⟨-, -, hhi | hhi⟩ := f.find_spec off
    · omega
    · simp only [findPred, Bool.or_eq_true, decide_eq_true_eq] at hhi
      by_cases hl : f.find off = f.files.length - 1
      · exact .inl hl
      · exact .inr (hhi.resolve_left (by omega) |>.trans_eq (offset_succ_eq_entryEnd hwf (by omega)))
  have h0 : f.offsets.getD 0 0 = 0 := by
    rw [hwf.offsets_eq, getD_prefixSums 0 _ 0 hpos]; simp
  refine ⟨by omega, hbelow, hat, f.offset_find_le off h0 hoff, fun j hj hjend => ?_⟩
  have hjn : j < f.files.length := by
    by_contra hjn
    simp only [entryEnd, List.getD_eq_default _ _ (show f.offsets.length ≤ j by omega),
      List.getD_eq_default _ _ (show f.files.length ≤ j by omega)] at hjend
    exact absurd hjend (by simp [default]; omega)
  have hfj : f.find off ≤ j := Nat.le_of_not_lt fun h => absurd (hbelow j h) (by omega)
  refine ⟨hfj, fun i hi hij => le_antisymm ?_ ?_⟩
  · calc f.entryEnd i = f.offsets.getD (i + 1) 0 := (offset_succ_eq_entryEnd hwf (by omega)).symm
      _ ≤ f.offsets.getD j 0 := offset_mono hwf hij hjn
      _ ≤ off := hj
  · calc off ≤ f.entryEnd (f.find off) := hat.resolve_left (by omega)
      _ = f.offsets.getD (f.find off + 1) 0 := (offset_succ_eq_entryEnd hwf (by omega)).symm
      _ ≤ f.offsets.getD i 0 := offset_mono hwf (by omega) (by omega)
      _ ≤ f.entryEnd i := offset_le_entryEnd hwf (by omega)

/-- A store whose two empty entries `b` and `c` start and end at offset `3`. -/
def emptyMiddle : FileStore :=
  ⟨[0, 3, 3, 3], [⟨3, "a".toList⟩, ⟨0, "b".toList⟩, ⟨0, "c".toList⟩, ⟨5, "d".toList⟩], rfl⟩

/-- In `emptyMiddle`, `find(3)` names `a`, which ends at `3`, and the empty entries between it
and `d`, which holds byte `3`, end at `3`. -/
theorem find_first_reaching_emptyMiddle :
    emptyMiddle.WellFormed ∧ emptyMiddle.files ≠ [] ∧ (0 : Int) ≤ 3 ∧ emptyMiddle.find 3 = 0 ∧
      ∀ i, emptyMiddle.find 3 < i → i < 3 → emptyMiddle.entryEnd i = 3 :=
  have hwf : emptyMiddle.WellFormed := ⟨by decide, by decide⟩
  ⟨hwf, by decide, by decide, by decide,
    ((find_first_reaching hwf (by decide) 3 (by decide)).2.2.2.2 3 (by decide) (by decide)).2⟩

end FileStore

end Rakoshare
