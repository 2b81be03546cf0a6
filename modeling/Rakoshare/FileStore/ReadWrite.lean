import Rakoshare.FileStore.Layout

/-!
# Reading and writing a file store

`fileStore.ReadAt` and `fileStore.WriteAt` (`src/unnamed/part_001`, lines 210–274) start at the
entry `find` names and walk the entries in order, moving the part of the buffer that falls inside
each one; what is left of the buffer when the entries run out lies past the end of the store. A
read fills it with zero bytes; a write checks that it is all zero bytes.

The loops are `readLoop` and `writeLoop`, over the entries from `find`'s index on, each paired
with its offset. A backed, well-formed store behaves as one flat byte array of length
`totalSize`, the concatenation of its backing files: a read returns the bytes of that array and
zeros past its end, a write changes exactly the bytes of the array it covers, and a write fails
exactly when a byte past the end is not zero (`readAt_writeAt_refine_flat`).

## Main definitions

* `FileEntry.readAt`, `FileEntry.writeAt`.
* `readLoop`, `FileStore.readAt`, `writeLoop`, `FileStore.writeAt`.
* `flatWrite`: the abstract write into a flat byte array.

## Main results

* `readLoop_segs`, `writeLoop_segs`: the loops on the entries from any one starting at or before
  the offset.
* `readAt_writeAt_refine_flat`: the store refines a flat byte array of length `totalSize`.
* `FileStore.readAt_count_short_past_end`: the count a read returns leaves out the zero-filled
  tail past the end of the store, where a write of zeros counts it.
-/

namespace Rakoshare

namespace FileEntry

variable (fe : FileEntry) (w : World)

/-- `fileEntry.ReadAt(p, off)` for a buffer of `len` bytes: open the backing file and read. -/
def readAt (len : Nat) (off : Int) : List UInt8 × Option GoError := w.readAt fe.name len off

/-- `fileEntry.WriteAt(p, off)`: open the backing file for writing and write. -/
def writeAt (p : List UInt8) (off : Int) : (Nat × Option GoError) × World :=
  w.writeAt fe.name p off

end FileEntry

/-! ### The loops -/

/-- The loop of `fileStore.ReadAt` over the entries from `index` on, each with its offset: the
bytes read into the front of the buffer `p`, the part of `p` not reached, and the error of the
entry read that ended the loop. -/
def readLoop (w : World) : List (Int × FileEntry) → List UInt8 → Int →
    List UInt8 × List UInt8 × Option GoError
  | [], p, _ => ([], p, none)
  | (o, e) :: es, p, off =>
    if p = [] then ([], p, none)
    else
      let itemOffset := off - o
      if itemOffset < e.length then
        let chunk := min (p.length : Int) (e.length - itemOffset)
        let (got, err) := e.readAt w chunk.toNat itemOffset
        match err with
        | some err => (got, p.drop got.length, some err)
        | none =>
          let (more, rest, err) := readLoop w es (p.drop got.length) (off + got.length)
          (got ++ more, rest, err)
      else readLoop w es p off

/-- The loop of `fileStore.WriteAt`: the count written, the part of `p` not reached, the error
of the entry write that ended the loop, and the world after the writes. -/
def writeLoop : World → List (Int × FileEntry) → List UInt8 → Int →
    (Nat × List UInt8 × Option GoError) × World
  | w, [], p, _ => ((0, p, none), w)
  | w, (o, e) :: es, p, off =>
    if p = [] then ((0, p, none), w)
    else
      let itemOffset := off - o
      if itemOffset < e.length then
        let chunk := min (p.length : Int) (e.length - itemOffset)
        let ((n, err), w) := e.writeAt w (p.take chunk.toNat) itemOffset
        match err with
        | some err => ((n, p.drop n, some err), w)
        | none =>
          let ((m, rest, err), w) := writeLoop w es (p.drop n) (off + n)
          ((n + m, rest, err), w)
      else writeLoop w es p off

/-! ### The flat byte array -/

/-- Writing `p` at offset `d` into the flat byte array `a`: byte `j` becomes `p[j - d]` when
`d ≤ j < d + p.length`, and the array keeps its length. -/
def flatWrite (a : List UInt8) (d : Nat) (p : List UInt8) : List UInt8 :=
  a.mapIdx fun j x => if d ≤ j ∧ j < d + p.length then p.getD (j - d) 0 else x

@[simp] theorem length_flatWrite (a : List UInt8) (d : Nat) (p : List UInt8) :
    (flatWrite a d p).length = a.length := by simp [flatWrite]

theorem flatWrite_append (a b : List UInt8) (d : Nat) (p : List UInt8) :
    flatWrite (a ++ b) d p = flatWrite a d p ++ flatWrite b (d - a.length) (p.drop (a.length - d)) := by
  simp only [flatWrite, List.mapIdx_append]
  congr 1
  apply List.ext_getElem (by simp only [List.length_mapIdx])
  intro j h₁ h₂
  simp only [List.getElem_mapIdx, List.length_drop, List.getD_eq_getElem?_getD, List.getElem?_drop]
  rw [show j + a.length - d = a.length - d + (j - (d - a.length)) by omega]
  congr 1
  apply propext
  omega

theorem flatWrite_nil_right (a : List UInt8) (d : Nat) : flatWrite a d [] = a := by
  apply List.ext_getElem (by simp)
  intro j h₁ h₂
  simp [flatWrite]

theorem flatWrite_of_le (a : List UInt8) {d : Nat} (h : a.length ≤ d) (p : List UInt8) :
    flatWrite a d p = a := by
  apply List.ext_getElem (by simp)
  intro j h₁ h₂
  simp only [flatWrite, List.getElem_mapIdx]
  rw [if_neg (by simp at h₁; omega)]

theorem flatWrite_take (a : List UInt8) (d k : Nat) (p : List UInt8) (h : a.length ≤ d + k ∨ p.length ≤ k) :
    flatWrite a d (p.take k) = flatWrite a d p := by
  apply List.ext_getElem (by simp)
  intro j h₁ h₂
  rw [length_flatWrite] at h₁
  simp only [flatWrite, List.getElem_mapIdx, List.length_take, List.getD_eq_getElem?_getD, List.getElem?_take]
  by_cases hj : d ≤ j ∧ j < d + p.length
  · rw [if_pos (by omega), if_pos hj, if_pos (by omega)]
  · rw [if_neg hj, if_neg (by omega)]

theorem splice_eq_flatWrite (c : List UInt8) (d : Nat) (q : List UInt8) (h : d + q.length ≤ c.length) :
    World.splice c d q = flatWrite c d q := by
  have hA : (c.take d).length = d := by simp; omega
  have hrep : d - c.length = 0 := by omega
  apply List.ext_getElem (by simp [World.splice]; omega)
  intro j h₁ h₂
  simp only [World.splice, hrep, List.replicate_zero, List.append_nil] at h₁ ⊢
  simp only [flatWrite, List.getElem_mapIdx, List.getD_eq_getElem?_getD]
  by_cases hj : j < d
  · rw [List.getElem_append_left (by simp; omega), List.getElem_append_left (by omega),
      List.getElem_take, if_neg (by omega)]
  · by_cases hj' : j < d + q.length
    · rw [List.getElem_append_left (by simp; omega), List.getElem_append_right (by omega)]
      simp only [hA, if_pos (show d ≤ j ∧ j < d + q.length from ⟨by omega, hj'⟩),
        List.getElem?_eq_getElem (show j - d < q.length by omega), Option.getD_some]
    · rw [List.getElem_append_right (by simp; omega), List.getElem_drop]
      simp only [List.length_append, hA, if_neg (show ¬(d ≤ j ∧ j < d + q.length) by omega),
        show d + q.length + (j - (d + q.length)) = j by omega]

/-! ### The loops on backed entries -/

theorem readLoop_nil_buffer (w : World) (es : List (Int × FileEntry)) (off : Int) :
    readLoop w es [] off = ([], [], none) := by
  cases es <;> simp [readLoop]

theorem FileEntry.readAt_of_lt {w : World} {e : FileEntry} {c : List UInt8} (hc : w.files e.name = some c)
    {k d : Nat} (h : d + k ≤ c.length) : e.readAt w k d = ((c.drop d).take k, none) := by
  have h₁ : ¬ (d : Int) < 0 := by omega
  have h₂ : ¬ c.length - d < k := by omega
  simp [FileEntry.readAt, World.readAt, hc, h₁, h₂]

theorem readLoop_segs (w : World) : ∀ (es : List FileEntry) (o : Int) (d : Nat)
    (p : List UInt8), EntriesBacked w es →
    readLoop w (segs o es) p (o + d) =
      (((entriesContent w es).drop d).take p.length,
        p.drop (((entriesContent w es).drop d).take p.length).length, none) := by
  intro es
  induction es with
  | nil => intro o d p _; simp [readLoop]
  | cons e es ih =>
    intro o d p hb
    obtain ⟨c, hc, hlen⟩ := hb e (.head _)
    specialize ih (o + e.length)
    have hb' : EntriesBacked w es := fun e' he' => hb e' (.tail _ he')
    rw [entriesContent_cons es hc, segs_cons]
    by_cases hp : p = []
    · subst hp; simp [readLoop]
    by_cases hd : d < c.length
    · obtain ⟨k, hk, hkmin⟩ : ∃ k : Nat, (min (p.length : Int) (e.length - d)).toNat = k ∧
          k = min p.length (c.length - d) := ⟨_, rfl, by omega⟩
      have hgot : ((c.drop d).take k).length = k := by simp; omega
      simp only [readLoop, hp, if_false, show o + d - o = d by omega,
        show (d : Int) < e.length by omega, if_true, hk]
      rw [FileEntry.readAt_of_lt hc (by omega)]
      simp only [hgot, List.drop_append_of_le_length hd.le, List.take_append_eq_append_take,
        List.length_drop]
      rcases Nat.lt_or_ge k p.length with hlt | hge
      · rw [show o + d + k = o + e.length + ↑(0:Nat) by omega, ih 0 _ hb']
        have htake : (c.drop d).take p.length = (c.drop d).take k := by
          rw [List.take_of_length_le (by simp; omega), List.take_of_length_le (by simp; omega)]
        simp only [htake, List.drop_zero, List.length_drop, List.length_append, List.drop_drop, hgot,
          show p.length - (c.length - d) = p.length - k by omega]
      · rw [List.drop_eq_nil_of_le hge, readLoop_nil_buffer]
        have hk' : k = p.length := by omega
        subst hk'
        simp only [hgot, show p.length - (c.length - d) = 0 by omega, List.take_zero, List.append_nil,
          List.drop_length]
    · have := ih (d - c.length) p hb'
      simp only [readLoop, hp, if_false, show o + d - o = d by omega,
        show ¬ ((d : Int) < e.length) by omega]
      rw [show o + d = o + e.length + ↑(d - c.length) by omega, this,
        List.drop_append_eq_append_drop, List.drop_eq_nil_of_le (show c.length ≤ d by omega),
        List.nil_append]

theorem writeLoop_nil_buffer (w : World) (es : List (Int × FileEntry)) (off : Int) :
    writeLoop w es [] off = ((0, [], none), w) := by
  cases es <;> simp [writeLoop]

theorem FileEntry.writeAt_of_files {w : World} {e : FileEntry} {c : List UInt8}
    (hc : w.files e.name = some c) (q : List UInt8) (d : Nat) :
    e.writeAt w q d = ((q.length, none),
      { w.setFile e.name (some (World.splice c d q)) with calls := .write e.name :: w.calls }) := by
  simp [FileEntry.writeAt, World.writeAt, hc]

/-- What `writeLoop` does to the entries `es` when it writes `p` at `d` bytes into them: it writes
`min p.length (size - d)` bytes, leaves the rest of `p`, changes the bytes of the entries as a
write into their concatenation, keeps every entry backed, and changes no other file. -/
structure WriteLoopSpec (w : World) (es : List FileEntry) (d : Nat) (p : List UInt8)
    (r : (Nat × List UInt8 × Option GoError) × World) : Prop where
  result : r.1 = (min p.length ((entriesContent w es).length - d),
    p.drop (min p.length ((entriesContent w es).length - d)), none)
  content : entriesContent r.2 es = flatWrite (entriesContent w es) d p
  backed : EntriesBacked r.2 es
  frame : ∀ q, q ∉ es.map FileEntry.name → r.2.files q = w.files q

theorem writeLoop_segs : ∀ (es : List FileEntry) (w : World) (o : Int) (d : Nat) (p : List UInt8),
    EntriesBacked w es → (es.map FileEntry.name).Nodup →
    WriteLoopSpec w es d p (writeLoop w (segs o es) p (o + d)) := by
  intro es
  induction es with
  | nil => exact fun w o d p _ _ => ⟨by simp [writeLoop], by simp [flatWrite], fun _ h => by simp at h,
      fun _ _ => by simp [writeLoop]⟩
  | cons e es ih =>
    intro w o d p hb hnd
    obtain ⟨c, hc, hlen⟩ := hb e (.head _)
    have hb' : EntriesBacked w es := fun e' he' => hb e' (.tail _ he')
    have hnd' : (es.map FileEntry.name).Nodup := (List.nodup_cons.mp hnd).2
    have hne : ∀ e' ∈ es, e'.name ≠ e.name := fun e' he' h =>
      (List.nodup_cons.mp hnd).1 (h ▸ List.mem_map_of_mem _ he')
    have hnotin : e.name ∉ es.map FileEntry.name := (List.nodup_cons.mp hnd).1
    rw [segs_cons]
    by_cases hp : p = []
    · subst hp
      rw [writeLoop_nil_buffer]
      exact ⟨by simp, by simp [flatWrite_nil_right], hb, fun _ _ => rfl⟩
    by_cases hd : d < c.length
    · obtain ⟨k, hk, hkmin⟩ : ∃ k : Nat, (min (p.length : Int) (e.length - d)).toNat = k ∧
          k = min p.length (c.length - d) := ⟨_, rfl, by omega⟩
      have hlk : (p.take k).length = k := by simp; omega
      simp only [writeLoop, hp, if_false, show o + d - o = d by omega,
        show (d : Int) < e.length by omega, if_true, hk]
      rw [FileEntry.writeAt_of_files hc]
      simp only [hlk]
      set w₁ : World := { w.setFile e.name (some (World.splice c d (p.take k))) with
        calls := .write e.name :: w.calls }
      have hc₁ : w₁.files e.name = some (flatWrite c d p) := by
        simp [w₁, splice_eq_flatWrite c d (p.take k) (by omega), flatWrite_take c d k p (by omega)]
      have hframe₁ : ∀ q, q ≠ e.name → w₁.files q = w.files q := fun q hq => by simp [w₁, hq]
      have hes₁ : ∀ e' ∈ es, w₁.files e'.name = w.files e'.name := fun e' he' => hframe₁ _ (hne e' he')
      have hE₁ : entriesContent w₁ es = entriesContent w es := entriesContent_congr hes₁
      have hdrop : p.drop (c.length - d) = p.drop k := by
        rcases Nat.lt_or_ge k p.length with hlt | hge
        · rw [show c.length - d = k by omega]
        · rw [List.drop_eq_nil_of_le hge, List.drop_eq_nil_of_le (by omega)]
      -- Past the last byte of `p` the loop stops at once, wherever the next entry starts.
      have hnext : writeLoop w₁ (segs (o + e.length) es) (p.drop k) (o + d + k) =
          writeLoop w₁ (segs (o + e.length) es) (p.drop k) (o + e.length + ↑(0 : Nat)) := by
        rcases Nat.lt_or_ge k p.length with hlt | hge
        · rw [show o + d + k = o + e.length + ↑(0 : Nat) by omega]
        · rw [List.drop_eq_nil_of_le hge, writeLoop_nil_buffer, writeLoop_nil_buffer]
      have ih := ih w₁ (o + e.length) 0 (p.drop k) (hb'.congr hes₁) hnd'
      rw [hnext]
      generalize writeLoop w₁ (segs (o + e.length) es) (p.drop k) (o + e.length + ↑(0:Nat)) = r at ih ⊢
      obtain ⟨⟨m, rest, err⟩, w₂⟩ := r
      have hcr := ih.frame e.name hnotin
      rw [hc₁] at hcr
      refine ⟨?_, ?_, ih.backed.cons hcr (by rw [length_flatWrite, hlen]), fun q hq => ?_⟩
      · have hres := ih.result
        simp only [hE₁, Prod.mk.injEq] at hres
        obtain ⟨rfl, rfl, rfl⟩ := hres
        rw [entriesContent_cons es hc]
        simp only [List.length_append, List.length_drop, List.drop_drop, Prod.mk.injEq, and_true]
        have hn : k + min (p.length - k) ((entriesContent w es).length - 0) =
            min p.length (c.length + (entriesContent w es).length - d) := by omega
        exact ⟨hn, by rw [hn]⟩
      · rw [entriesContent_cons es hcr, entriesContent_cons es hc, ih.content, hE₁, flatWrite_append,
          show d - c.length = 0 by omega, hdrop]
      · rw [ih.frame q fun h => hq (.tail _ h), hframe₁ q fun h => hq (h ▸ .head _)]
    · have ih := ih w (o + e.length) (d - c.length) p hb' hnd'
      simp only [writeLoop, hp, if_false, show o + d - o = d by omega,
        show ¬ ((d : Int) < e.length) by omega]
      rw [show o + d = o + e.length + ↑(d - c.length) by omega]
      have hcr := ih.frame e.name hnotin
      rw [hc] at hcr
      refine ⟨?_, ?_, ih.backed.cons hcr hlen, fun q hq => ih.frame q fun h => hq (.tail _ h)⟩
      · rw [ih.result, entriesContent_cons es hc, List.length_append,
          show c.length + (entriesContent w es).length - d = (entriesContent w es).length - (d - c.length) by omega]
      · rw [entriesContent_cons es hcr, entriesContent_cons es hc, ih.content, flatWrite_append,
          flatWrite_of_le c (by omega), show c.length - d = 0 by omega, List.drop_zero]

namespace FileStore

variable (f : FileStore) (w : World)

/-- `fileStore.ReadAt(p, off)`: the buffer after the call, the count `n` and the error. Bytes
past the end of the store are set to zero when no entry read failed. -/
def readAt (p : List UInt8) (off : Int) : List UInt8 × Nat × Option GoError :=
  let (got, rest, err) := readLoop w ((f.offsets.zip f.files).drop (f.find off)) p off
  match err with
  | some e => (got ++ rest, got.length, some e)
  | none => (got ++ List.replicate rest.length 0, got.length, none)

/-- The error `fileStore.WriteAt` returns for a nonzero byte past the end of the store. -/
def errNonZeroTail : GoError := .text "unexpected non-zero data at end of store".toList

/-- `fileStore.WriteAt(p, off)`: the count `n`, the error, and the world after the call. -/
def writeAt (p : List UInt8) (off : Int) : (Nat × Option GoError) × World :=
  let ((n, rest, err), w) := writeLoop w ((f.offsets.zip f.files).drop (f.find off)) p off
  match err with
  | some e => ((n, some e), w)
  | none =>
    match rest.findIdx? (· ≠ 0) with
    | some i => ((n + i, some errNonZeroTail), w)
    | none => ((n + rest.length, none), w)

/-! ### The store as one flat byte array -/

variable {f w}

/-- The entries before the one `find` names, and the bytes they hold, are a prefix of the store
ending at or before `off`. -/
private theorem split_at_find (hwf : f.WellFormed) (hb : f.Backed w) (off : Nat) :
    ∃ P : Nat, ((f.files.take (f.find off)).map FileEntry.length).sum = P ∧ P ≤ off ∧
      (entriesContent w (f.files.take (f.find off))).length = P ∧
      f.content w = entriesContent w (f.files.take (f.find off)) ++
        entriesContent w (f.files.drop (f.find off)) := by
  have hpre := (show EntriesBacked w (f.files.take (f.find off)) from
    fun e he => hb.backed e (List.mem_of_mem_take he)).length_entriesContent
  refine ⟨_, hpre.symm, ?_, rfl, ?_⟩
  · have := f.sum_take_find_le hwf off (by omega)
    omega
  · rw [content, ← entriesContent_append, List.take_append_drop]

/-- A read of a backed, well-formed store returns the bytes of its content from `off` on, then
zero bytes. -/
theorem readAt_eq (hwf : f.WellFormed) (hb : f.Backed w) (p : List UInt8) (off : Nat) :
    f.readAt w p off = (((f.content w).drop off).take p.length ++
        List.replicate (p.length - (((f.content w).drop off).take p.length).length) 0,
      (((f.content w).drop off).take p.length).length, none) := by
  obtain ⟨P, hsum, hP, hlenP, hcontent⟩ := split_at_find hwf hb off
  have hloop := readLoop_segs w (f.files.drop (f.find off)) P (off - P) p
    fun e he => hb.backed e (List.mem_of_mem_drop he)
  rw [show (P : Int) + ↑(off - P) = ↑off by omega] at hloop
  have hdrop : (f.content w).drop off = (entriesContent w (f.files.drop (f.find off))).drop (off - P) := by
    rw [hcontent, List.drop_append_eq_append_drop, List.drop_eq_nil_of_le (by omega), hlenP,
      List.nil_append]
  simp only [readAt, f.zip_drop_find hwf, hsum, hloop, hdrop, List.length_drop]

/-- What a write does to a backed, well-formed store, and the count and error it returns: the
`k` bytes of `p` that fall inside the store are written, and the count is all of `p` unless a
byte past the end is nonzero. -/
theorem writeAt_spec (hwf : f.WellFormed) (hb : f.Backed w) (p : List UInt8) (off : Nat) :
    f.content (f.writeAt w p off).2 = flatWrite (f.content w) off p ∧ f.Backed (f.writeAt w p off).2 ∧
      (∀ q, q ∉ f.files.map FileEntry.name → (f.writeAt w p off).2.files q = w.files q) ∧
      ((f.writeAt w p off).1.2.isSome ↔
        ∃ k : Fin p.length, f.totalSize ≤ ((off + k : Nat) : Int) ∧ p[k] ≠ 0) ∧
      (f.writeAt w p off).1 =
        match (p.drop (min p.length (f.totalSize.toNat - off))).findIdx? (· ≠ 0) with
        | some i => (min p.length (f.totalSize.toNat - off) + i, some errNonZeroTail)
        | none => (p.length, none) := by
  obtain ⟨P, hsum, hP, hlenP, hcontent⟩ := split_at_find hwf hb off
  have hnd := hb.nodup
  rw [← List.take_append_drop (f.find off) f.files, List.map_append] at hnd
  have hloop := writeLoop_segs (f.files.drop (f.find off)) w P (off - P) p
    (fun e he => hb.backed e (List.mem_of_mem_drop he)) (List.nodup_append.mp hnd).2.1
  rw [show (P : Int) + ↑(off - P) = ↑off by omega] at hloop
  have htotal : f.totalSize = P + (entriesContent w (f.files.drop (f.find off))).length := by
    rw [← f.length_content hb, hcontent, List.length_append, hlenP]; push_cast; rfl
  have hpre : ∀ e ∈ f.files.take (f.find off), e.name ∉ (f.files.drop (f.find off)).map FileEntry.name :=
    fun e he hin => List.disjoint_of_nodup_append hnd (List.mem_map_of_mem _ he) hin
  generalize hr : writeLoop w (segs P (f.files.drop (f.find off))) p off = r at hloop
  obtain ⟨⟨n, rest, err⟩, w'⟩ := r
  obtain ⟨hres, hcont, hback, hframe⟩ := hloop
  simp only [Prod.mk.injEq] at hres hcont hback hframe
  obtain ⟨hn, rfl, rfl⟩ := hres
  rw [← hn] at hr
  have hw' : f.writeAt w p off = (match (p.drop n).findIdx? (· ≠ 0) with
      | some i => ((n + i, some errNonZeroTail), w')
      | none => ((n + (p.drop n).length, none), w')) := by
    simp only [writeAt, f.zip_drop_find hwf, hsum, hr]
  have hworld : (f.writeAt w p off).2 = w' := by rw [hw']; split <;> rfl
  have herr : (f.writeAt w p off).1.2.isSome = ((p.drop n).findIdx? (· ≠ 0)).isSome := by
    rw [hw']; split <;> rename_i h <;> rw [h] <;> rfl
  have hmem : ∀ q, q ∈ (f.files.drop (f.find off)).map FileEntry.name → q ∈ f.files.map FileEntry.name :=
    fun q hq => by rw [List.map_drop] at hq; exact List.mem_of_mem_drop hq
  have hpre' : ∀ e ∈ f.files.take (f.find off), w'.files e.name = w.files e.name :=
    fun e he => hframe _ (hpre e he)
  have hk : min p.length (f.totalSize.toNat - off) = n := by rw [hn, htotal]; omega
  have hcount : (f.writeAt w p off).1 =
      match (p.drop (min p.length (f.totalSize.toNat - off))).findIdx? (· ≠ 0) with
      | some i => (min p.length (f.totalSize.toNat - off) + i, some errNonZeroTail)
      | none => (p.length, none) := by
    rw [hk, hw']
    cases (p.drop n).findIdx? (· ≠ 0) with
    | some i => rfl
    | none => show (n + (p.drop n).length, none) = _; rw [List.length_drop]; congr 1; omega
  clear hk
  rw [hworld, herr]
  refine ⟨?_, ⟨?_, hb.nodup⟩, fun q hq => hframe q fun h => hq (hmem q h), ?_, hcount⟩
  · rw [content, ← List.take_append_drop (f.find off) f.files, entriesContent_append,
      entriesContent_congr hpre', hcont, hcontent, flatWrite_append, hlenP,
      flatWrite_of_le (entriesContent w (f.files.take (f.find off))) (by omega),
      show P - off = 0 by omega, List.drop_zero]
  · rw [← List.take_append_drop (f.find off) f.files, EntriesBacked, List.forall_mem_append]
    exact ⟨EntriesBacked.congr (fun e he => hb.backed e (List.mem_of_mem_take he)) hpre', hback⟩
  · rw [List.findIdx?_isSome, List.any_eq_true]
    simp only [decide_eq_true_eq, List.mem_iff_getElem, List.getElem_drop, List.length_drop]
    constructor
    · rintro ⟨x, ⟨i, hi, rfl⟩, hx⟩
      exact ⟨⟨n + i, by omega⟩, by rw [htotal]; push_cast; omega, hx⟩
    · rintro ⟨⟨k, hk⟩, htk, hx⟩
      rw [htotal] at htk
      push_cast at htk
      exact ⟨p[k], ⟨k - n, by omega, by congr 1; omega⟩, hx⟩

/-- The bytes of `a` from `off` on, padded with zeros to `len`, are byte `off + k` of `a` where
there is one and zero past its end. -/
theorem take_drop_append_replicate (a : List UInt8) (off len : Nat) :
    (a.drop off).take len ++ List.replicate (len - ((a.drop off).take len).length) 0 =
      List.ofFn fun k : Fin len => if ((off + k : Nat) : Int) < a.length then a.getD (off + k) 0 else 0 := by
  apply List.ext_getElem (by simp)
  intro j h₁ h₂
  rw [List.length_ofFn] at h₂
  rw [List.getElem_ofFn]
  by_cases hj : off + j < a.length
  · rw [List.getElem_append_left (by simp; omega), List.getElem_take, List.getElem_drop,
      if_pos (by exact_mod_cast hj), List.getD_eq_getElem?_getD, List.getElem?_eq_getElem hj,
      Option.getD_some]
  · rw [List.getElem_append_right (by simp; omega), List.getElem_replicate,
      if_neg (by exact_mod_cast hj)]

/-- A backed, well-formed store refines one flat byte array of length `totalSize`, the
concatenation of its backing files. A read leaves in the buffer byte `off + k` of the array where
there is one and zero past its end. A write sets exactly the bytes `off + k` of the array below
`totalSize` to `p[k]`, keeps every backing file at its length, touches no other file, and fails
exactly when a byte of `p` past the end of the store is not zero. -/
theorem readAt_writeAt_refine_flat (f : FileStore) (w : World) (hwf : f.WellFormed)
    (hb : f.Backed w) (p : List UInt8) (off : Nat) :
    ((f.readAt w p off).1 = List.ofFn (fun k : Fin p.length =>
        if ((off + k : Nat) : Int) < f.totalSize then (f.content w).getD (off + k) 0 else 0) ∧
      (f.readAt w p off).2.2 = none) ∧
    (f.content (f.writeAt w p off).2 = flatWrite (f.content w) off p ∧
      f.Backed (f.writeAt w p off).2 ∧
      (∀ q, q ∉ f.files.map FileEntry.name → (f.writeAt w p off).2.files q = w.files q) ∧
      ((f.writeAt w p off).1.2.isSome ↔
        ∃ k : Fin p.length, f.totalSize ≤ ((off + k : Nat) : Int) ∧ p[k] ≠ 0)) := by
  obtain ⟨h₁, h₂, h₃, h₄, -⟩ := writeAt_spec hwf hb p off
  refine ⟨?_, h₁, h₂, h₃, h₄⟩
  rw [readAt_eq hwf hb, ← f.length_content hb]
  exact ⟨take_drop_append_replicate _ _ _, rfl⟩

/-- The store of the files `x` and `d/y`, of lengths `3` and `5`. -/
def twoFiles : FileStore := ⟨[0, 3], [⟨3, "x".toList⟩, ⟨5, "d/y".toList⟩], rfl⟩

/-- A world holding `ABC` in `x` and `DEFGH` in `d/y`. -/
def twoFilesWorld : World where
  files q := if q = "x".toList then some [65, 66, 67]
    else if q = "d/y".toList then some [68, 69, 70, 71, 72] else none
  cwd := "/".toList
  faults := []
  calls := []

theorem twoFiles_wellFormed : twoFiles.WellFormed := ⟨by decide, by decide⟩

theorem twoFiles_backed : twoFiles.Backed twoFilesWorld :=
  ⟨EntriesBacked.cons rfl rfl (EntriesBacked.cons rfl rfl fun _ h => by simp at h), by decide⟩

theorem readAt_writeAt_refine_flat_twoFiles :
    twoFiles.WellFormed ∧ twoFiles.Backed twoFilesWorld ∧
      (twoFiles.readAt twoFilesWorld (List.replicate 10 9) ((0 : Nat) : Int)).1 =
        [65, 66, 67, 68, 69, 70, 71, 72, 0, 0] := by
  refine ⟨twoFiles_wellFormed, twoFiles_backed, ?_⟩
  rw [(readAt_writeAt_refine_flat twoFiles twoFilesWorld twoFiles_wellFormed twoFiles_backed _ 0).1.1]
  decide

/-! ### The counts a read and a write report -/

/-- `ReadAt` counts only the bytes it read from the backing files: a read of `p.length` bytes at
`off` returns `n = min p.length (totalSize - off)` with a `nil` error, so a range that crosses the
end of the store reports fewer bytes than the buffer holds, the zero-filled tail left out. A
write of as many zero bytes at the same offset reports them all. -/
theorem readAt_count_short_past_end (hwf : f.WellFormed) (hb : f.Backed w) (p : List UInt8)
    (off : Nat) :
    (f.readAt w p off).2 = (min p.length (f.totalSize.toNat - off), none) ∧
      (f.writeAt w (List.replicate p.length 0) off).1 = (p.length, none) := by
  have hlen := f.length_content hb
  refine ⟨?_, ?_⟩
  · rw [readAt_eq hwf hb, List.length_take, List.length_drop]
    show (_, none) = _
    congr 1
    omega
  · have hzero : ((List.replicate p.length (0 : UInt8)).drop
        (min p.length (f.totalSize.toNat - off))).findIdx? (· ≠ 0) = none := by
      rw [List.findIdx?_eq_none_iff, List.drop_replicate]
      intro x hx
      simp [List.eq_of_mem_replicate hx]
    rw [(writeAt_spec hwf hb _ off).2.2.2.2, List.length_replicate, hzero]

/-- On the two-file store of eight bytes, a read of ten bytes at `0` reports `8` with a `nil`
error, and a write of ten zero bytes at `0` reports `10`. -/
theorem readAt_count_short_past_end_twoFiles :
    twoFiles.WellFormed ∧ twoFiles.Backed twoFilesWorld ∧
      (twoFiles.readAt twoFilesWorld (List.replicate 10 9) ((0 : Nat) : Int)).2 = (8, none) ∧
      (twoFiles.writeAt twoFilesWorld (List.replicate 10 0) ((0 : Nat) : Int)).1 = (10, none) :=
  have h := readAt_count_short_past_end twoFiles_wellFormed twoFiles_backed (List.replicate 10 9) 0
  ⟨twoFiles_wellFormed, twoFiles_backed, h.1.trans rfl, h.2⟩

end FileStore

end Rakoshare
