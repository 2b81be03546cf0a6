import Mathlib

/-!
# Go strings, errors, decimal and hexadecimal text

A Go `string` is a sequence of bytes. It is modelled by the list of its bytes, each written as
the character with that code: every text this program builds from its own constants is ASCII,
and a text read from a torrent or from the network is a list like any other. The functions below
are the parts of Go's `strings`, `strconv` and `fmt` packages that the program calls, each with
the arguments the program passes.

## Main definitions

* `GoError`: the error values the program meets.
* `Strings.replace`: `strings.Replace(s, old, new, 1)`, the first occurrence only.
* `Strings.split`: `strings.Split(s, sep)` for a one-byte separator.
* `Strconv.atoi`, `Strconv.itoa`: decimal text of a 64-bit `int`.
* `bytesOf`, `stringOf`: the conversions `[]byte(s)` and `string(b)`.
* `Hex.encode`: `fmt.Sprintf("%x", b)`, two lowercase digits per byte.
* `wrapInt64`: two's complement wrap-around of a Go `int`/`int64` result.

## Main results

* `Strings.replace_of_isPrefixOf`, `Strings.replace_cons`: the two ways the first occurrence is
  found.
* `Strings.replace_append_of_not_infix`: the first occurrence of a text that overlaps itself
  nowhere, after a prefix free of it, is the one after that prefix.
* `Strconv.toDigits_spec`: `Nat.toDigits` writes a nonempty run of digits worth the number.
* `Strconv.atoi_itoa`: `Atoi` reads back what `Itoa` writes.
-/

namespace Rakoshare

/-- An error value returned by a Go call. -/
inductive GoError where
  /-- An error of the operating system on this path. -/
  | os (p : List Char)
  /-- `io.EOF`: a read ended at the end of a file. -/
  | eof
  /-- An error the program makes with `errors.New`, with its text. -/
  | text (s : List Char)
  deriving DecidableEq, Repr

/-! ### `strings` -/

namespace Strings

/-- `strings.Replace(s, old, new, 1)`: replace the first occurrence of `old` in `s` by `new`. An
empty `old` matches at the front of `s`, so `new` is inserted there. -/
def replace (s old new : List Char) : List Char :=
  if old.isPrefixOf s then new ++ s.drop old.length
  else
    match s with
    | [] => []
    | c :: t => c :: replace t old new

theorem replace_of_isPrefixOf {s old new : List Char} (h : old.isPrefixOf s) :
    replace s old new = new ++ s.drop old.length := by
  cases s <;> simp [replace, h]

theorem replace_cons {c : Char} {t old new : List Char} (h : ¬ old.isPrefixOf (c :: t)) :
    replace (c :: t) old new = c :: replace t old new := by
  simp [replace, h]

@[simp] theorem replace_nil_old (s new : List Char) : replace s [] new = new ++ s := by
  simp [replace_of_isPrefixOf]

/-- With no occurrence of `old`, `Replace` returns `s`. -/
theorem replace_of_not_infix {s old new : List Char} (h : ¬ old <:+: s) :
    replace s old new = s := by
  induction s with
  | nil =>
    have : old ≠ [] := by rintro rfl; exact h (List.nil_infix)
    simp [replace, List.isPrefixOf_iff_prefix, List.prefix_nil, this]
  | cons c t ih =>
    have hp : ¬ old.isPrefixOf (c :: t) := by
      simpa [List.isPrefixOf_iff_prefix] using fun hp => h hp.isInfix
    rw [replace_cons hp, ih fun hi => h (hi.trans (List.suffix_cons c t).isInfix)]

/-- `Replace` finds `old` right after `s` when `s` holds no occurrence of it and no proper suffix
of `old` is a prefix of `old`, so that no occurrence straddles the two. -/
theorem replace_append_of_not_infix {old : List Char}
    (hb : ∀ k, k < old.length → 0 < k → ¬ old.drop k <+: old) (new r : List Char) :
    ∀ {s : List Char}, ¬ old <:+: s → replace (s ++ old ++ r) old new = s ++ new ++ r
  | [], _ => by
    rw [List.nil_append, List.append_assoc,
      replace_of_isPrefixOf (List.isPrefixOf_iff_prefix.mpr (List.prefix_append _ _)), List.drop_left,
      List.nil_append]
  | c :: t, hs => by
    have hp : ¬ old.isPrefixOf (c :: t ++ old ++ r) := fun hp => by
      have hpre := List.isPrefixOf_iff_prefix.mp hp
      have hs' : c :: t <+: c :: t ++ old ++ r := by rw [List.append_assoc]; exact List.prefix_append _ _
      by_cases hlen : old.length ≤ (c :: t).length
      · exact hs (List.prefix_of_prefix_length_le hpre hs' hlen).isInfix
      · obtain ⟨u, hu⟩ := List.prefix_of_prefix_length_le hs' hpre (by omega)
        have h₂ : u <+: old ++ r := (List.prefix_append_right_inj (c :: t)).mp (by
          rw [← List.append_assoc, hu]; exact hpre)
        have h₃ : u <+: old := List.prefix_of_prefix_length_le h₂ (List.prefix_append old r)
          (by rw [← hu, List.length_append]; omega)
        exact hb (c :: t).length (by omega) (by simp)
          (by rw [show old.drop (c :: t).length = u by rw [← hu, List.drop_left]]; exact h₃)
    rw [List.cons_append, List.cons_append, replace_cons (by simpa using hp),
      replace_append_of_not_infix hb new r fun h => hs (h.trans (List.suffix_cons c t).isInfix)]
    rfl

/-- `strings.Split(s, sep)` for the one-byte separator `sep`: the pieces of `s` between the
occurrences of `sep`; the empty text gives one empty piece. -/
def split (s : List Char) (sep : Char) : List (List Char) := s.splitOn sep

end Strings

/-! ### `strconv` -/

namespace Strconv

/-- The value of a nonempty run of decimal digits. -/
def digitsValue (ds : List Char) : Nat :=
  ds.foldl (fun n c => 10 * n + (c.toNat - '0'.toNat)) 0

/-- The sign `Atoi` reads at the front of `s` (`true` for `-`), and the digits after it. -/
def signSplit : List Char → Bool × List Char
  | '-' :: t => (true, t)
  | '+' :: t => (false, t)
  | t => (false, t)

/-- `strconv.Atoi(s)` on a 64-bit platform: an optional sign then one or more decimal digits,
whose value lies in the range of `int`; `none` is the error `Atoi` returns otherwise. -/
def atoi (s : List Char) : Option Int :=
  let (neg, ds) := signSplit s
  let n : Int := if neg then -(digitsValue ds : Int) else digitsValue ds
  if ds ≠ [] ∧ ds.all Char.isDigit ∧ -2 ^ 63 ≤ n ∧ n < 2 ^ 63 then some n else none

/-- `strconv.Itoa(n)`: the decimal text of `n`, with a leading `-` when it is negative. -/
def itoa (n : Int) : List Char :=
  if n < 0 then '-' :: Nat.toDigits 10 n.natAbs else Nat.toDigits 10 n.natAbs

/-- `Atoi` rejects the empty text. -/
@[simp] theorem atoi_nil : atoi [] = none := by decide

theorem digitsValue_append_digit (ds : List Char) (c : Char) :
    digitsValue (ds ++ [c]) = 10 * digitsValue ds + (c.toNat - '0'.toNat) := by
  simp [digitsValue, List.foldl_append]

theorem digitChar_isDigit_toNat : ∀ k < 10, (Nat.digitChar k).isDigit ∧
    (Nat.digitChar k).toNat - '0'.toNat = k := by decide

/-- `Nat.toDigitsCore` with enough fuel puts a nonempty run of decimal digits worth `n` in front
of the digits it was given. -/
theorem toDigitsCore_spec : ∀ (f n : Nat) (ds : List Char), n < f →
    ∃ pre, Nat.toDigitsCore 10 f n ds = pre ++ ds ∧ pre ≠ [] ∧ pre.all Char.isDigit ∧
      digitsValue pre = n
  | 0, _, _, h => absurd h (Nat.not_lt_zero _)
  | f + 1, n, ds, h => by
    obtain ⟨hdig, hval⟩ := digitChar_isDigit_toNat (n % 10) (Nat.mod_lt _ (by decide))
    simp only [Nat.toDigitsCore]
    split
    · rename_i h0
      refine ⟨[Nat.digitChar (n % 10)], rfl, List.cons_ne_nil _ _, by simp [hdig], ?_⟩
      simp only [digitsValue, List.foldl_cons, List.foldl_nil, mul_zero, zero_add, hval]
      omega
    · rename_i h0
      obtain ⟨pre, hpre, hne, hall, hv⟩ :=
        toDigitsCore_spec f (n / 10) (Nat.digitChar (n % 10) :: ds) (by omega)
      refine ⟨pre ++ [Nat.digitChar (n % 10)], by simp [hpre], by simp, by simp [hall, hdig], ?_⟩
      rw [digitsValue_append_digit, hv, hval]; omega

/-- `Nat.toDigits 10 n`, the digits `Itoa` writes, is a nonempty run of decimal digits worth
`n`. -/
theorem toDigits_spec (n : Nat) : Nat.toDigits 10 n ≠ [] ∧ (Nat.toDigits 10 n).all Char.isDigit ∧
    digitsValue (Nat.toDigits 10 n) = n := by
  obtain ⟨pre, hpre, hne, hall, hv⟩ := toDigitsCore_spec (n + 1) n [] (Nat.lt_succ_self n)
  rw [Nat.toDigits, hpre, List.append_nil]
  exact ⟨hne, hall, hv⟩

theorem signSplit_of_isDigit {c : Char} (hc : c.isDigit) (t : List Char) :
    signSplit (c :: t) = (false, c :: t) := by
  unfold signSplit
  split
  · rename_i h; cases h; exact absurd hc (by decide)
  · rename_i h; cases h; exact absurd hc (by decide)
  · rfl

/-- `Atoi` reads back what `Itoa` writes, for every value of a 64-bit `int`. -/
theorem atoi_itoa {n : Int} (h₁ : -2 ^ 63 ≤ n) (h₂ : n < 2 ^ 63) : atoi (itoa n) = some n := by
  obtain ⟨hne, hall, hv⟩ := toDigits_spec n.natAbs
  obtain ⟨c, cs, hcs⟩ := List.exists_cons_of_ne_nil hne
  have hc : c.isDigit := by simp [hcs] at hall; exact hall.1
  unfold atoi itoa
  by_cases hneg : n < 0
  · simp only [hneg, if_true, signSplit, hv]
    rw [if_pos ⟨hne, hall, by omega, by omega⟩]
    congr 1; omega
  · simp only [hneg, if_false]
    rw [hcs, signSplit_of_isDigit hc, ← hcs]
    simp only [hv, Bool.false_eq_true, if_false]
    rw [if_pos ⟨hne, hall, by omega, by omega⟩]
    congr 1; omega

end Strconv

/-! ### Bytes -/

/-- `[]byte(s)`: the bytes of a string. -/
def bytesOf (s : List Char) : List UInt8 := s.map Char.toUInt8

/-- `string(b)`: the string of some bytes. -/
def stringOf (b : List UInt8) : List Char := b.map Char.ofUInt8

/-- A string of bytes: every character is below 256. -/
def IsBytes (s : List Char) : Prop := ∀ c ∈ s, c.toNat < 256

instance : DecidablePred IsBytes := fun s => inferInstanceAs (Decidable (∀ c ∈ s, _))

theorem toUInt8_ofUInt8 (b : UInt8) : (Char.ofUInt8 b).toUInt8 = b :=
  UInt8.toNat.inj (UInt8.toNat_ofNat_of_lt b.toNat_lt)

theorem ofUInt8_toUInt8 {c : Char} (h : c.toNat < 256) : Char.ofUInt8 c.toUInt8 = c := by
  apply Char.ext
  apply UInt32.eq_of_val_eq
  apply Fin.ext
  exact UInt8.toNat_ofNat_of_lt h

theorem bytesOf_stringOf (b : List UInt8) : bytesOf (stringOf b) = b := by
  simp only [bytesOf, stringOf, List.map_map]
  exact (List.map_congr_left fun x _ => toUInt8_ofUInt8 x).trans (List.map_id b)

/-- A string of bytes is the string of its bytes. -/
theorem stringOf_bytesOf {s : List Char} (h : IsBytes s) :
    stringOf (bytesOf s) = s := by
  simp only [bytesOf, stringOf, List.map_map]
  exact (List.map_congr_left fun c hc => ofUInt8_toUInt8 (h c hc)).trans (List.map_id s)

/-! ### Hexadecimal text and machine integers -/

namespace Hex

/-- `fmt.Sprintf("%x", b)` and `hex.EncodeToString(b)`: two lowercase hexadecimal digits for
each byte. -/
def encode (b : List UInt8) : List Char :=
  b.flatMap fun x => [Nat.digitChar (x.toNat / 16), Nat.digitChar (x.toNat % 16)]

@[simp] theorem length_encode (b : List UInt8) : (encode b).length = 2 * b.length := by
  induction b with
  | nil => rfl
  | cons x b ih => simp [encode, List.flatMap_cons, ih] at *; omega

end Hex

@[simp] theorem isBytes_nil : IsBytes [] := fun _ h => absurd h (List.not_mem_nil _)

@[simp] theorem isBytes_append {s t : List Char} : IsBytes (s ++ t) ↔ IsBytes s ∧ IsBytes t := by
  simp [IsBytes, or_imp, forall_and]

@[simp] theorem isBytes_cons {c : Char} {s : List Char} :
    IsBytes (c :: s) ↔ c.toNat < 256 ∧ IsBytes s := by
  simp [IsBytes]

theorem isBytes_of_isDigit {s : List Char} (h : s.all Char.isDigit) : IsBytes s := by
  intro c hc
  have hd := List.all_eq_true.mp h c hc
  simp only [Char.isDigit, Bool.and_eq_true, decide_eq_true_eq] at hd
  have : c.val.toNat ≤ 57 := UInt32.le_def.mp hd.2
  show c.val.toNat < 256
  omega

theorem isBytes_toDigits (n : Nat) : IsBytes (Nat.toDigits 10 n) :=
  isBytes_of_isDigit (Strconv.toDigits_spec n).2.1

theorem isBytes_itoa (i : Int) : IsBytes (Strconv.itoa i) := by
  unfold Strconv.itoa
  split <;> simp [isBytes_toDigits]

/-- `Itoa` writes a minus sign and decimal digits only. -/
theorem mem_itoa {c : Char} {n : Int} (h : c ∈ Strconv.itoa n) : c = '-' ∨ c.isDigit := by
  have hd := (Strconv.toDigits_spec n.natAbs).2.1
  unfold Strconv.itoa at h
  split at h
  · rcases List.mem_cons.mp h with h | h
    · exact .inl h
    · exact .inr (List.all_eq_true.mp hd c h)
  · exact .inr (List.all_eq_true.mp hd c h)

theorem digitChar_toNat_lt_256 : ∀ k < 16, (Nat.digitChar k).toNat < 256 := by decide

theorem isBytes_hex (b : List UInt8) : IsBytes (Hex.encode b) := by
  intro c hc
  obtain ⟨x, -, hx⟩ := List.mem_flatMap.mp hc
  have := x.toNat_lt
  rcases List.mem_pair.mp hx with rfl | rfl
  · exact digitChar_toNat_lt_256 _ (by omega)
  · exact digitChar_toNat_lt_256 _ (Nat.mod_lt _ (by decide))

/-- The value a Go `int` or `int64` holds after an arithmetic result `x`: two's complement
wrap-around into `[-2^63, 2^63)`. -/
def wrapInt64 (x : Int) : Int := (x + 2 ^ 63) % 2 ^ 64 - 2 ^ 63

theorem wrapInt64_of_mem {x : Int} (h₁ : -2 ^ 63 ≤ x) (h₂ : x < 2 ^ 63) : wrapInt64 x = x := by
  unfold wrapInt64
  rw [Int.emod_eq_of_lt (by omega) (by omega)]
  omega

end Rakoshare
