import Rakoshare.Go.Strings

/-!
# Go's `path` package

Slash-separated paths as Go's `path` package treats them. `Path.clean` follows the rules the
package documents for `Clean`: repeated slashes become one, `.` elements go, each `..` removes
the real element before it, and a `..` at the start of a rooted path is dropped; an empty result
is `.`. The remaining functions are `Join`, `Ext` and `Split` as the package defines them.

## Main definitions

* `Path.clean`, `Path.join`, `Path.ext`, `Path.split`.

## Main results

* `Path.split_fst_ne_nil`: the directory part `Split` gives of a path holding a slash is not
  empty.
-/

namespace Rakoshare.Path

/-- The byte `/`. -/
def slash : Char := '/'

/-- One element of `Clean`'s walk over the elements of a path; `out` is the list of kept
elements, last first. Empty and `.` elements are dropped; `..` removes the last kept real
element, is kept when there is none and the path is relative, and is dropped at the root. -/
def cleanStep (rooted : Bool) (out : List (List Char)) (e : List Char) : List (List Char) :=
  if e = [] ∨ e = ['.'] then out
  else if e = ['.', '.'] then
    match out with
    | x :: xs => if x = ['.', '.'] then (if rooted then out else e :: out) else xs
    | [] => if rooted then [] else [e]
  else e :: out

/-- `path.Clean(p)`. -/
def clean (p : List Char) : List Char :=
  if p = [] then ['.']
  else
    let rooted := p.head? = some slash
    let out := (Strings.split p slash).foldl (cleanStep rooted) []
    let body := List.intercalate [slash] out.reverse
    let r := if rooted then slash :: body else body
    if r = [] then ['.'] else r

example : clean "a//b/./c/..".toList = "a/b".toList := by decide
example : clean "/../x".toList = "/x".toList := by decide

/-- The buffer `Join` builds before cleaning: each element after the first nonempty one is
preceded by a slash. -/
def joinBuf : List Char → List (List Char) → List Char
  | buf, [] => buf
  | buf, e :: es =>
    joinBuf (if buf ≠ [] ∨ e ≠ [] then (if buf ≠ [] then buf ++ [slash] else buf) ++ e else buf) es

/-- `path.Join(elem...)`: empty when every element is empty, else the cleaned buffer. -/
def join (elem : List (List Char)) : List Char :=
  if (elem.map List.length).sum = 0 then [] else clean (joinBuf [] elem)

example : join ["/s".toList, "".toList] = "/s".toList := by decide

/-- The extension of the path whose reversal is the argument: the text from its final `.`, when
no `/` comes after that `.`. -/
def extRev : List Char → Option (List Char)
  | [] => none
  | c :: cs => if c = slash then none else if c = '.' then some [c] else (extRev cs).map (· ++ [c])

/-- `path.Ext(p)`: the suffix from the final `.` of the last element, or empty. -/
def ext (p : List Char) : List Char := (extRev p.reverse).getD []

example : ext "/d.x/a.tar.gz".toList = ".gz".toList := by decide

/-- `path.Split(p)`: the text up to and including the final slash, and the rest. -/
def split (p : List Char) : List Char × List Char :=
  let file := (p.reverse.takeWhile (· ≠ slash)).reverse
  (p.take (p.length - file.length), file)

/-- The run of `l` before its first element failing `q` is shorter than `l` when there is one. -/
theorem length_takeWhile_lt {α : Type} {q : α → Bool} :
    ∀ {l : List α}, (∃ x ∈ l, q x = false) → (l.takeWhile q).length < l.length
  | [], ⟨_, hx, _⟩ => absurd hx (List.not_mem_nil _)
  | a :: l, ⟨x, hx, hqx⟩ => by
    rw [List.takeWhile_cons]
    split
    · rcases List.mem_cons.mp hx with rfl | hx
      · simp_all
      · simpa using length_takeWhile_lt ⟨x, hx, hqx⟩
    · simp

/-- A path with a slash has a nonempty directory part. -/
theorem split_fst_ne_nil {p : List Char} (h : slash ∈ p) : (split p).1 ≠ [] := by
  have hlt : (p.reverse.takeWhile (· ≠ slash)).length < p.reverse.length :=
    length_takeWhile_lt ⟨slash, List.mem_reverse.mpr h, by simp⟩
  simp only [split, List.length_reverse, ne_eq, List.take_eq_nil_iff] at hlt ⊢
  rintro (h₀ | rfl)
  · omega
  · exact List.not_mem_nil _ h

end Rakoshare.Path
