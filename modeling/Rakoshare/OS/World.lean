import Rakoshare.Go.Path

/-!
# The operating system seen by the file store

The file store reaches the disk through a handful of calls of Go's `os` and `io` packages. This
file models the state they act on, a `World`: the regular files with their bytes, the current
directory, and a *fault schedule* deciding which of the calls that may fail do fail. A call that
may fail takes the next entry of the schedule, so quantifying over every schedule covers every
pattern of success and failure; the empty schedule is a run in which nothing fails. Every call
that changes the disk is also appended to a log, so that a statement can say which paths a
function touched.

Directories are not modelled. They decide whether `os.Create` finds its parent, which the fault
schedule already covers, and `os.MkdirAll` is a logged call that may fail. They also decide that
a file cannot be created where a directory stands: a torrent holding both `x` and `x/y` fails
on a real disk whatever the schedule, and the results that assume no call fails leave such
torrents out by a hypothesis (`NoDirPrefix`).

## Main definitions

* `SysCall`, `World`.
* `World.remove`, `World.create`, `World.truncate`, `World.mkdirAll`: the mutating calls;
  `World.getwd`, `World.getwdIf`: `os.Getwd`.
* `World.readAt`, `World.writeAt`: `os.Open`/`os.OpenFile` followed by `ReadAt`/`WriteAt`.
* `copyfile`: the program's helper that copies one file into another.

## Main results

* `World.setFile_files`, `World.setFile_calls`, `World.setFile_faults`: how a call that writes
  a file changes the state.
* `World.nextFault_of_faults_nil`: with the empty schedule no call fails.
* `World.getwdIf_eq`: `getwdIf`, which reads the schedule before the condition, is the source's
  conditional call of `os.Getwd`.
* `World.changesOnly_remove`, `World.changesOnly_create`, `World.changesOnly_truncate`,
  `changesOnly_copyfile`: each call changes the file it names and no other.
-/

namespace Rakoshare

/-- A mutating call to the operating system, with the path it acts on. -/
inductive SysCall where
  | mkdirAll (p : List Char)
  | create (p : List Char)
  | truncate (p : List Char)
  | remove (p : List Char)
  | write (p : List Char)
  deriving DecidableEq, Repr

/-- The path a call acts on. -/
def SysCall.path : SysCall → List Char
  | .mkdirAll p | .create p | .truncate p | .remove p | .write p => p

/-- The state the `os` calls act on. -/
structure World where
  /-- The regular files and their bytes. -/
  files : List Char → Option (List UInt8)
  /-- The directory `os.Getwd` returns. -/
  cwd : List Char
  /-- The outcomes of the coming calls that may fail: `true` makes that call fail. -/
  faults : List Bool
  /-- The mutating calls made so far, the latest first. -/
  calls : List SysCall

namespace World

variable (w : World) (p : List Char)

/-- Log the call `c` and take the next entry of the fault schedule; an exhausted schedule lets
every call succeed. -/
def attempt (c : SysCall) : Bool × World :=
  match w.faults with
  | [] => (false, { w with calls := c :: w.calls })
  | b :: bs => (b, { w with faults := bs, calls := c :: w.calls })

/-- The world with the file `p` set to `c` (`none` removes it). -/
def setFile (c : Option (List UInt8)) : World := { w with files := Function.update w.files p c }

@[simp] theorem setFile_files (c : Option (List UInt8)) (q : List Char) :
    (w.setFile p c).files q = if q = p then c else w.files q := by
  simp [setFile, Function.update_apply]

@[simp] theorem setFile_calls (c : Option (List UInt8)) : (w.setFile p c).calls = w.calls := rfl

@[simp] theorem setFile_faults (c : Option (List UInt8)) : (w.setFile p c).faults = w.faults :=
  rfl

/-- `os.Stat(p).Size()`: the size of the file `p`, or `none` for the error `IsNotExist`. -/
def stat : Option Int := (w.files p).map fun c => (c.length : Int)

/-- `os.Remove(p)`. -/
def remove : Option GoError × World :=
  let (failed, w) := w.attempt (.remove p)
  if failed ∨ w.files p = none then (some (.os p), w)
  else (none, w.setFile p none)

/-- `os.Create(p)`: create `p`, or empty it when it exists. -/
def create : Option GoError × World :=
  let (failed, w) := w.attempt (.create p)
  if failed then (some (.os p), w)
  else (none, w.setFile p (some []))

/-- The bytes `c` cut or padded with zero bytes to the length `n`. -/
def resize (c : List UInt8) (n : Nat) : List UInt8 := c.take n ++ List.replicate (n - c.length) 0

/-- `os.Truncate(p, n)`: fails on a negative length and on a missing file. -/
def truncate (n : Int) : Option GoError × World :=
  let (failed, w) := w.attempt (.truncate p)
  match failed, w.files p with
  | false, some c =>
    if 0 ≤ n then (none, w.setFile p (some (resize c n.toNat))) else (some (.os p), w)
  | _, _ => (some (.os p), w)

/-- `os.MkdirAll(p, 0755)`. -/
def mkdirAll : Option GoError × World :=
  let (failed, w) := w.attempt (.mkdirAll p)
  (if failed then some (.os p) else none, w)

/-- `os.Getwd()`: no error, the directory being `w.cwd`, or an error when the call fails. It
changes no file and is not logged, but takes its entry of the fault schedule as every call that
may fail does. -/
def getwd : Option GoError × World :=
  match w.faults with
  | [] => (none, w)
  | b :: bs => (if b then some (.os ".".toList) else none, { w with faults := bs })

/-- `os.Getwd()` when `needed`, no call otherwise. The schedule is read first: when it is empty
no call fails either way. -/
def getwdIf (needed : Bool) : Option GoError × World :=
  match w.faults with
  | [] => (none, w)
  | _ :: _ => if needed then w.getwd else (none, w)

/-- `getwdIf` is `os.Getwd()` exactly when the call is needed. -/
theorem getwdIf_eq (needed : Bool) : w.getwdIf needed = if needed then w.getwd else (none, w) := by
  unfold getwdIf getwd
  split <;> simp_all

theorem getwdIf_of_faults_nil (h : w.faults = []) (needed : Bool) : w.getwdIf needed = (none, w) := by
  simp [getwdIf, h]

/-- `os.Open(p)` then `ReadAt` of `len` bytes at `off`: the bytes read, and `io.EOF` when the
file ends before `len` bytes. -/
def readAt (len : Nat) (off : Int) : List UInt8 × Option GoError :=
  match w.files p with
  | none => ([], some (.os p))
  | some c =>
    if off < 0 then ([], some (.os p))
    else
      let got := (c.drop off.toNat).take len
      (got, if got.length < len then some .eof else none)

/-- The bytes `c` with `data` written at `off`, padded with zero bytes when `off` is past the
end. -/
def splice (c : List UInt8) (off : Nat) (data : List UInt8) : List UInt8 :=
  c.take off ++ List.replicate (off - c.length) 0 ++ data ++ c.drop (off + data.length)

/-- `os.OpenFile(p, os.O_RDWR, 0600)` then `WriteAt(data, off)`: the count written. -/
def writeAt (data : List UInt8) (off : Int) : (Nat × Option GoError) × World :=
  match w.files p with
  | none => ((0, some (.os p)), w)
  | some c =>
    if off < 0 then ((0, some (.os p)), w)
    else ((data.length, none),
      { w.setFile p (some (splice c off.toNat data)) with calls := .write p :: w.calls })

theorem nextFault_of_faults_nil (h : w.faults = []) (c : SysCall) :
    w.attempt c = (false, { w with calls := c :: w.calls }) := by
  simp [attempt, h]

end World

/-- `copyfile(fromname, toname)`: open the source, create the target, and copy every byte; a
failing `io.Copy` leaves the target as `os.Create` made it. -/
def copyfile (fromname toname : List Char) (w : World) : Option GoError × World :=
  match w.files fromname with
  | none => (some (.os fromname), w)
  | some c =>
    let (err, w) := w.create toname
    match err with
    | some e => (some e, w)
    | none =>
      let (failed, w) := w.attempt (.write toname)
      if failed then (some (.os toname), w)
      else (none, w.setFile toname (some c))

/-! ### Which files a call changes -/

namespace World

/-- `w'` differs from `w` at most in the files whose names satisfy `S`. -/
def ChangesOnly (S : List Char → Prop) (w w' : World) : Prop :=
  ∀ q, ¬ S q → w'.files q = w.files q

namespace ChangesOnly

variable {S T : List Char → Prop} {w₁ w₂ w₃ : World}

theorem refl (S : List Char → Prop) (w : World) : ChangesOnly S w w := fun _ _ => rfl

theorem trans (h₁ : ChangesOnly S w₁ w₂) (h₂ : ChangesOnly S w₂ w₃) : ChangesOnly S w₁ w₃ :=
  fun q hq => (h₂ q hq).trans (h₁ q hq)

theorem mono (h : ChangesOnly S w₁ w₂) (hST : ∀ q, S q → T q) : ChangesOnly T w₁ w₂ :=
  fun q hq => h q fun hs => hq (hST q hs)

end ChangesOnly

variable (w : World) (p : List Char)

@[simp] theorem attempt_files (c : SysCall) : (w.attempt c).2.files = w.files := by
  unfold attempt; split <;> rfl

theorem changesOnly_setFile (c : Option (List UInt8)) : ChangesOnly (· = p) w (w.setFile p c) :=
  fun q hq => by simp [hq]

theorem changesOnly_remove : ChangesOnly (· = p) w (w.remove p).2 := by
  intro q hq
  unfold remove
  cases ha : w.attempt (.remove p) with
  | mk failed w' =>
    have hf : w'.files = w.files := by rw [← attempt_files w (.remove p), ha]
    dsimp only
    split_ifs <;> simp [hq, hf]

theorem changesOnly_create : ChangesOnly (· = p) w (w.create p).2 := by
  intro q hq
  unfold create
  cases ha : w.attempt (.create p) with
  | mk failed w' =>
    have hf : w'.files = w.files := by rw [← attempt_files w (.create p), ha]
    dsimp only
    split_ifs <;> simp [hq, hf]

theorem changesOnly_truncate (n : Int) : ChangesOnly (· = p) w (w.truncate p n).2 := by
  intro q hq
  unfold truncate
  cases ha : w.attempt (.truncate p) with
  | mk failed w' =>
    have hf : w'.files = w.files := by rw [← attempt_files w (.truncate p), ha]
    dsimp only
    split
    · split_ifs <;> simp [hq, hf]
    · simp [hf]

/-- A create that returns no error leaves an empty file. -/
theorem create_files_self (h : (w.create p).1 = none) : (w.create p).2.files p = some [] := by
  unfold create at h ⊢
  cases ha : w.attempt (.create p) with
  | mk failed w' =>
    rw [ha] at h
    cases failed
    · simp
    · simp at h

@[simp] theorem mkdirAll_files : (w.mkdirAll p).2.files = w.files := by
  simp [mkdirAll]

end World

theorem changesOnly_copyfile (fromname toname : List Char) (w : World) :
    World.ChangesOnly (· = toname) w (copyfile fromname toname w).2 := by
  unfold copyfile
  split
  · exact .refl _ _
  · have hc := w.changesOnly_create toname
    cases hcr : w.create toname with
    | mk err w₁ =>
      rw [hcr] at hc
      cases err with
      | some e => exact hc
      | none =>
        cases ha : w₁.attempt (.write toname) with
        | mk failed w₂ =>
          have hf : w₂.files = w₁.files := by rw [← World.attempt_files w₁ (.write toname), ha]
          dsimp only
          split_ifs
          · exact hc.trans fun _ _ => by simp [hf]
          · exact hc.trans fun q hq => by simp [hq, hf]

end Rakoshare
