import Rakoshare.Go.Strings

/-!
# Bencode

The program reads and writes bencode through the `zeebo/bencode` package: torrent files
(`NewMetaInfoFromContent`), the extension handshake and the `bs_metadata` messages of the control
session, and the persisted `current` file. The package is not part of the repository; this
module models the format it reads and writes. A value is an integer `i<decimal>e`, a byte string
`<length>:<bytes>`, a list `l…e` or a dictionary `d…e` of string keys and values. Strings are Go
strings, lists of bytes written as characters (see `Rakoshare.Go.Strings`).

The parser runs on fuel, one unit per value or item it enters; the length of the input is
always enough (`decode`).

## Main definitions

* `BValue`, `BList`, `BDict`: bencoded values.
* `Bencode.encode`: the canonical text of a value.
* `Bencode.parse`, `Bencode.decode`: the parser, reading one value from the front of a text.

## Main results

* `Bencode.parse_encode`: the parser reads back every encoded value and leaves what follows it.
* `Bencode.decode_encode`: the same with the fuel `decode` gives it.
* `Bencode.encode_injective`: so distinct values have distinct encodings.
-/

namespace Rakoshare

mutual

/-- A bencoded value. -/
inductive BValue where
  | int (i : Int)
  | str (s : List Char)
  | list (vs : BList)
  | dict (kvs : BDict)

/-- The items of a bencoded list, in order. -/
inductive BList where
  | nil
  | cons (v : BValue) (vs : BList)

/-- The entries of a bencoded dictionary, in the order they are written. -/
inductive BDict where
  | nil
  | cons (k : List Char) (v : BValue) (kvs : BDict)

end

deriving instance DecidableEq for BValue

/-- The value the decoder leaves in a struct field tagged `k`: it walks the entries in order,
so the last entry with that key wins. -/
def BDict.find? (k : List Char) : BDict → Option BValue
  | .nil => none
  | .cons k' v kvs =>
    match kvs.find? k with
    | some w => some w
    | none => if k' = k then some v else none

/-- The keys of a dictionary, in order. -/
def BDict.keys : BDict → List (List Char)
  | .nil => []
  | .cons k _ kvs => k :: kvs.keys

/-- A canonical dictionary: its keys strictly increase, bytewise, so they are sorted and
distinct. -/
def BDict.Canonical (kvs : BDict) : Prop := kvs.keys.Pairwise (· < ·)

instance : DecidablePred BDict.Canonical :=
  fun kvs => inferInstanceAs (Decidable (List.Pairwise _ kvs.keys))

/-- The list of the items. -/
def BList.toList : BList → List BValue
  | .nil => []
  | .cons v vs => v :: vs.toList

/-- The bencoded list of the items of a list. -/
def BList.ofList : List BValue → BList
  | [] => .nil
  | v :: vs => .cons v (BList.ofList vs)

@[simp] theorem BList.toList_ofList (vs : List BValue) : (BList.ofList vs).toList = vs := by
  induction vs with
  | nil => rfl
  | cons v vs ih => simp [BList.ofList, BList.toList, ih]

/-- The dictionary of a list of entries, in the same order. -/
def BDict.ofList : List (List Char × BValue) → BDict
  | [] => .nil
  | (k, v) :: kvs => .cons k v (BDict.ofList kvs)

@[simp] theorem BDict.find?_ofList_nil (k : List Char) : (BDict.ofList []).find? k = none := rfl

theorem BDict.find?_ofList_cons (k' : List Char) (v : BValue) (l : List (List Char × BValue))
    (k : List Char) :
    (BDict.ofList ((k', v) :: l)).find? k = ((BDict.ofList l).find? k).or (if k' = k then some v else none) := by
  simp only [BDict.ofList, BDict.find?]
  cases (BDict.ofList l).find? k <;> rfl

/-- In a dictionary written from the entries `a` then `b`, a key reads from `b` when `b` has it:
the last entry wins. -/
theorem BDict.find?_ofList_append (a b : List (List Char × BValue)) (k : List Char) :
    (BDict.ofList (a ++ b)).find? k = ((BDict.ofList b).find? k).or ((BDict.ofList a).find? k) := by
  induction a with
  | nil => simp
  | cons e a ih => rw [List.cons_append, find?_ofList_cons, ih, find?_ofList_cons, Option.or_assoc]

mutual

/-- The fuel the parser needs for a value: one unit for each value and item it enters. -/
def BValue.weight : BValue → Nat
  | .int _ => 1
  | .str _ => 1
  | .list vs => 1 + vs.weight
  | .dict kvs => 1 + kvs.weight

/-- The fuel the parser needs for the items of a list. -/
def BList.weight : BList → Nat
  | .nil => 0
  | .cons v vs => 1 + v.weight + vs.weight

/-- The fuel the parser needs for the entries of a dictionary. -/
def BDict.weight : BDict → Nat
  | .nil => 0
  | .cons _ v kvs => 1 + v.weight + kvs.weight

end

namespace Bencode

/-! ### Encoding -/

/-- A byte string: its length in decimal, a colon, the bytes. -/
def encodeString (s : List Char) : List Char := Nat.toDigits 10 s.length ++ ':' :: s

mutual

/-- The bencoded text of a value. -/
def encode : BValue → List Char
  | .int i => 'i' :: Strconv.itoa i ++ ['e']
  | .str s => encodeString s
  | .list vs => 'l' :: encodeList vs ++ ['e']
  | .dict kvs => 'd' :: encodeDict kvs ++ ['e']

/-- The items of a list, each encoded, one after the other. -/
def encodeList : BList → List Char
  | .nil => []
  | .cons v vs => encode v ++ encodeList vs

/-- The entries of a dictionary: each key as a string, then its value. -/
def encodeDict : BDict → List Char
  | .nil => []
  | .cons k v kvs => encodeString k ++ encode v ++ encodeDict kvs

end

/-! ### Parsing -/

/-- A run of decimal digits at the front of `s`, its value and what follows it. -/
def parseNat (s : List Char) : Option (Nat × List Char) :=
  let ds := s.takeWhile Char.isDigit
  if ds = [] then none else some (Strconv.digitsValue ds, s.dropWhile Char.isDigit)

/-- Digits then `e`, read as a number, negated when `neg`. -/
def parseDigitsE (neg : Bool) (t : List Char) : Option (Int × List Char) :=
  match parseNat t with
  | some (n, 'e' :: r) => some (if neg then -(n : Int) else n, r)
  | _ => none

/-- The body of an integer, after its `i`: an optional minus sign, digits and `e`. -/
def parseInt : List Char → Option (Int × List Char)
  | [] => none
  | c :: t => if c = '-' then parseDigitsE true t else parseDigitsE false (c :: t)

/-- A byte string: a length, a colon and that many bytes. -/
def parseString (s : List Char) : Option (List Char × List Char) :=
  match parseNat s with
  | some (n, ':' :: r) => if n ≤ r.length then some (r.take n, r.drop n) else none
  | _ => none

mutual

/-- One value at the front of the text, and what follows it; `none` when the text is not
bencode or the fuel runs out. -/
def parse : Nat → List Char → Option (BValue × List Char)
  | 0, _ => none
  | _ + 1, [] => none
  | n + 1, c :: s =>
    if c = 'i' then (parseInt s).map fun (i, r) => (.int i, r)
    else if c = 'l' then (parseList n s).map fun (vs, r) => (.list vs, r)
    else if c = 'd' then (parseDict n s).map fun (kvs, r) => (.dict kvs, r)
    else (parseString (c :: s)).map fun (str, r) => (.str str, r)

/-- The items of a list up to its closing `e`. -/
def parseList : Nat → List Char → Option (BList × List Char)
  | _, 'e' :: s => some (.nil, s)
  | 0, _ => none
  | n + 1, s =>
    match parse n s with
    | none => none
    | some (v, r) => (parseList n r).map fun (vs, r) => (.cons v vs, r)

/-- The entries of a dictionary up to its closing `e`. -/
def parseDict : Nat → List Char → Option (BDict × List Char)
  | _, 'e' :: s => some (.nil, s)
  | 0, _ => none
  | n + 1, s =>
    match parseString s with
    | none => none
    | some (k, r) =>
      match parse n r with
      | none => none
      | some (v, r) => (parseDict n r).map fun (kvs, r) => (.cons k v kvs, r)

end

/-- `Decoder.Decode`: one value read from the front of the text, with the text's length as
fuel. -/
def decode (s : List Char) : Option (BValue × List Char) := parse s.length s

/-! ### Reading back what is written -/

theorem parseNat_toDigits (n : Nat) {c : Char} (hc : ¬ c.isDigit) (r : List Char) :
    parseNat (Nat.toDigits 10 n ++ c :: r) = some (n, c :: r) := by
  obtain ⟨hne, hall, hv⟩ := Strconv.toDigits_spec n
  have hall' : ∀ x ∈ Nat.toDigits 10 n, x.isDigit = true := by simpa using hall
  have hc' : c.isDigit = false := by simpa using hc
  simp [parseNat, List.takeWhile_append_of_pos hall', List.dropWhile_append_of_pos hall',
    hc', hne, hv]

theorem parseInt_itoa (i : Int) (r : List Char) :
    parseInt (Strconv.itoa i ++ 'e' :: r) = some (i, r) := by
  have he : ¬ 'e'.isDigit := by decide
  obtain ⟨hne, hall, -⟩ := Strconv.toDigits_spec i.natAbs
  obtain ⟨c, cs, hcs⟩ := List.exists_cons_of_ne_nil hne
  have hc : c.isDigit := by simp [hcs] at hall; exact hall.1
  have hcm : c ≠ '-' := by rintro rfl; exact absurd hc (by decide)
  unfold Strconv.itoa
  by_cases hneg : i < 0
  · simp only [hneg, if_true, List.cons_append, parseInt, parseDigitsE, parseNat_toDigits _ he]
    congr 2; omega
  · simp only [hneg, if_false, hcs, List.cons_append, parseInt, hcm]
    rw [parseDigitsE, ← List.cons_append, ← hcs, parseNat_toDigits _ he]
    simp only [Bool.false_eq_true, if_false]
    congr 2; omega

theorem parseString_encodeString (s r : List Char) :
    parseString (encodeString s ++ r) = some (s, r) := by
  simp [parseString, encodeString, parseNat_toDigits _ (show ¬ ':'.isDigit by decide)]

theorem encodeString_cons (s : List Char) : ∃ c cs, encodeString s = c :: cs ∧ c.isDigit := by
  obtain ⟨hne, hall, -⟩ := Strconv.toDigits_spec s.length
  obtain ⟨c, cs, hcs⟩ := List.exists_cons_of_ne_nil hne
  exact ⟨c, cs ++ ':' :: s, by simp [encodeString, hcs], by simp [hcs] at hall; exact hall.1⟩

theorem encode_cons (v : BValue) : ∃ c cs, encode v = c :: cs ∧ c ≠ 'e' := by
  cases v with
  | int i => exact ⟨_, _, rfl, by decide⟩
  | str s =>
    obtain ⟨c, cs, h, hc⟩ := encodeString_cons s
    exact ⟨c, cs, h, by rintro rfl; exact absurd hc (by decide)⟩
  | list vs => exact ⟨_, _, rfl, by decide⟩
  | dict kvs => exact ⟨_, _, rfl, by decide⟩

theorem weight_pos : ∀ v : BValue, 0 < v.weight
  | .int _ | .str _ => by simp [BValue.weight]
  | .list _ | .dict _ => by simp [BValue.weight]

theorem parse_encode_int (i : Int) (n : Nat) (r : List Char) :
    parse (n + 1) (encode (.int i) ++ r) = some (.int i, r) := by
  simp [parse, encode, parseInt_itoa]

theorem parse_encode_str (s : List Char) (n : Nat) (r : List Char) :
    parse (n + 1) (encode (.str s) ++ r) = some (.str s, r) := by
  obtain ⟨c, cs, h, hc⟩ := encodeString_cons s
  have hi : c ≠ 'i' := by rintro rfl; exact absurd hc (by decide)
  have hl : c ≠ 'l' := by rintro rfl; exact absurd hc (by decide)
  have hd : c ≠ 'd' := by rintro rfl; exact absurd hc (by decide)
  show parse (n + 1) (encodeString s ++ r) = _
  rw [h, List.cons_append]
  simp only [parse, if_neg hi, if_neg hl, if_neg hd]
  rw [← List.cons_append, ← h, parseString_encodeString]
  rfl

mutual

theorem parse_encode : ∀ (v : BValue) (n : Nat) (r : List Char), v.weight ≤ n →
    parse n (encode v ++ r) = some (v, r)
  | v, 0, r, h => absurd h (by have := weight_pos v; omega)
  | .int i, n + 1, r, _ => parse_encode_int i n r
  | .str s, n + 1, r, _ => parse_encode_str s n r
  | .list vs, n + 1, r, h => by
    have := parseList_encodeList vs n r (by simp only [BValue.weight] at h; omega)
    simp [parse, encode, this]
  | .dict kvs, n + 1, r, h => by
    have := parseDict_encodeDict kvs n r (by simp only [BValue.weight] at h; omega)
    simp [parse, encode, this]

theorem parseList_encodeList : ∀ (vs : BList) (n : Nat) (r : List Char), vs.weight ≤ n →
    parseList n (encodeList vs ++ 'e' :: r) = some (vs, r)
  | .nil, n, r, _ => by cases n <;> rfl
  | .cons v vs, 0, r, h => absurd h (by simp [BList.weight])
  | .cons v vs, n + 1, r, h => by
    simp only [BList.weight] at h
    obtain ⟨c, cs, hv, hc⟩ := encode_cons v
    have h₁ := parse_encode v n (encodeList vs ++ 'e' :: r) (by omega)
    have h₂ := parseList_encodeList vs n r (by omega)
    rw [hv, List.cons_append] at h₁
    rw [encodeList, List.append_assoc, hv, List.cons_append]
    simp [parseList, hc, h₁, h₂]

theorem parseDict_encodeDict : ∀ (kvs : BDict) (n : Nat) (r : List Char), kvs.weight ≤ n →
    parseDict n (encodeDict kvs ++ 'e' :: r) = some (kvs, r)
  | .nil, n, r, _ => by cases n <;> rfl
  | .cons k v kvs, 0, r, h => absurd h (by simp [BDict.weight])
  | .cons k v kvs, n + 1, r, h => by
    simp only [BDict.weight] at h
    obtain ⟨c, cs, hk, hc⟩ := encodeString_cons k
    have hce : c ≠ 'e' := by rintro rfl; exact absurd hc (by decide)
    have h₀ := parseString_encodeString k (encode v ++ encodeDict kvs ++ 'e' :: r)
    have h₁ := parse_encode v n (encodeDict kvs ++ 'e' :: r) (by omega)
    have h₂ := parseDict_encodeDict kvs n r (by omega)
    rw [hk, List.cons_append] at h₀
    rw [encodeDict, List.append_assoc, List.append_assoc, hk, List.cons_append]
    simp only [List.append_assoc] at h₀
    simp [parseDict, hce, h₀, h₁, h₂]

end


theorem two_le_length_encodeString (s : List Char) : 2 ≤ (encodeString s).length := by
  obtain ⟨hne, -, -⟩ := Strconv.toDigits_spec s.length
  have := List.length_pos.mpr hne
  simp [encodeString]; omega

mutual

theorem weight_lt_length_encode : ∀ v : BValue, v.weight < (encode v).length
  | .int i => by simp [BValue.weight, encode]
  | .str s => by
    have := two_le_length_encodeString s
    simp only [BValue.weight, encode]; omega
  | .list vs => by
    have := weight_le_length_encodeList vs
    simp only [BValue.weight, encode, List.length_cons, List.length_append, List.length_singleton]
    omega
  | .dict kvs => by
    have := weight_le_length_encodeDict kvs
    simp only [BValue.weight, encode, List.length_cons, List.length_append, List.length_singleton]
    omega

theorem weight_le_length_encodeList : ∀ vs : BList, vs.weight ≤ (encodeList vs).length
  | .nil => le_refl 0
  | .cons v vs => by
    have h₁ := weight_lt_length_encode v
    have h₂ := weight_le_length_encodeList vs
    simp only [BList.weight, encodeList, List.length_append]; omega

theorem weight_le_length_encodeDict : ∀ kvs : BDict, kvs.weight ≤ (encodeDict kvs).length
  | .nil => le_refl 0
  | .cons k v kvs => by
    have h₁ := weight_lt_length_encode v
    have h₂ := weight_le_length_encodeDict kvs
    simp only [BDict.weight, encodeDict, List.length_append]; omega

end

theorem decode_encode (v : BValue) (r : List Char) : decode (encode v ++ r) = some (v, r) :=
  parse_encode v _ r (by have := weight_lt_length_encode v; simp only [List.length_append]; omega)

/-- Distinct values have distinct encodings. -/
theorem encode_injective {v v' : BValue} (h : encode v = encode v') : v = v' := by
  have h' := decode_encode v []
  rw [h, decode_encode] at h'
  exact (Prod.mk.inj (Option.some.inj h')).1.symm

example : decode "d3:keyli1ei-20ee1:x0:e".toList =
    some (.dict (.cons "key".toList (.list (.cons (.int 1) (.cons (.int (-20)) .nil)))
      (.cons "x".toList (.str []) .nil)), []) := by decide

theorem isBytes_encodeString {s : List Char} (h : IsBytes s) : IsBytes (encodeString s) := by
  simp [encodeString, isBytes_toDigits, h]

/-! ### Go values and their bencode form

The encoder writes a struct as a dictionary of its tagged fields, in the order of their tags,
leaving out an `omitempty` field that holds its zero value. The decoder fills each field from
the entry with its tag, leaves a field without an entry at its zero value, skips entries no
field is tagged with, and fails when a value does not fit its field. -/

/-- The error the decoder returns for a text that is not bencode. -/
def errSyntax : GoError := .text "bencode: syntax error".toList

/-- `Decoder.Decode(&x)`: the first value of the text, decoded into a Go value by `dec`. -/
def decodeInto {α : Type} (dec : BValue → Except GoError α) (s : List Char) : Except GoError α :=
  match decode s with
  | none => throw errSyntax
  | some (v, _) => dec v

/-- The error of a value that does not fit the Go field it is decoded into. -/
def errType : GoError := .text "bencode: value does not fit its field".toList

/-- An `int64` field. -/
def asInt64 : BValue → Except GoError Int
  | .int i => if -2 ^ 63 ≤ i ∧ i < 2 ^ 63 then pure i else throw errType
  | _ => throw errType

/-- A `string` field. -/
def asString : BValue → Except GoError (List Char)
  | .str s => pure s
  | _ => throw errType

/-- Each item decoded by `dec`, stopping at the first error. -/
def decodeAll {α : Type} (dec : BValue → Except GoError α) :
    List BValue → Except GoError (List α)
  | [] => pure []
  | v :: vs => do
    let a ← dec v
    let as ← decodeAll dec vs
    pure (a :: as)

/-- A slice field, each item decoded by `dec`. -/
def asSlice {α : Type} (dec : BValue → Except GoError α) : BValue → Except GoError (List α)
  | .list vs => decodeAll dec vs.toList
  | _ => throw errType

/-- A struct or map field, its dictionary decoded by `dec`. -/
def asDict {α : Type} (dec : BDict → Except GoError α) : BValue → Except GoError α
  | .dict kvs => dec kvs
  | _ => throw errType

/-- The field tagged `k`: the entry with that key decoded by `dec`, or `zero` when there is
none. -/
def field {α : Type} (kvs : BDict) (k : List Char) (dec : BValue → Except GoError α) (zero : α) :
    Except GoError α :=
  match kvs.find? k with
  | none => pure zero
  | some v => dec v

/-- An `omitempty` field: no entry when the value is the zero value. -/
def omitEmpty (zero : Bool) (k : List Char) (v : BValue) : List (List Char × BValue) :=
  if zero then [] else [(k, v)]

@[simp] theorem asInt64_int {i : Int} (h₁ : -2 ^ 63 ≤ i) (h₂ : i < 2 ^ 63) :
    asInt64 (.int i) = pure i := by
  simp only [asInt64]; exact if_pos ⟨h₁, h₂⟩

@[simp] theorem asString_str (s : List Char) : asString (.str s) = pure s := rfl

@[simp] theorem asSlice_list {α : Type} (dec : BValue → Except GoError α) (vs : List BValue) :
    asSlice dec (.list (BList.ofList vs)) = decodeAll dec vs := by
  simp [asSlice]

@[simp] theorem asDict_dict {α : Type} (dec : BDict → Except GoError α) (kvs : BDict) :
    asDict dec (.dict kvs) = dec kvs := rfl

theorem decodeInto_encode {α : Type} (dec : BValue → Except GoError α) (v : BValue)
    (r : List Char) : decodeInto dec (encode v ++ r) = dec v := by
  simp [decodeInto, decode_encode]

/-- A decode that succeeds decoded some value. -/
theorem decodeInto_eq_ok {α : Type} {dec : BValue → Except GoError α} {s : List Char} {a : α}
    (h : decodeInto dec s = .ok a) : ∃ v, dec v = .ok a := by
  unfold decodeInto at h
  split at h
  · cases h
  · exact ⟨_, h⟩

/-- A decoder that succeeds ran each of its steps to a value. -/
theorem bind_eq_ok {ε α β : Type} {x : Except ε α} {f : α → Except ε β} {b : β}
    (h : x >>= f = .ok b) : ∃ a, x = .ok a ∧ f a = .ok b := by
  cases x with
  | error e => exact absurd h (by rintro ⟨⟩)
  | ok a => exact ⟨a, rfl, h⟩

theorem find?_ofList_omitEmpty_ne (z : Bool) {k' k : List Char} (v : BValue) (h : k' ≠ k) :
    (BDict.ofList (omitEmpty z k' v)).find? k = none := by
  unfold omitEmpty
  split <;> simp [BDict.find?_ofList_cons, h]

/-- An `omitempty` field decodes to `x` when its own entry is the one the dictionary gives for its
key, the entry's value decodes to `x`, and it is left out only at the zero value. -/
theorem field_omitEmpty {α : Type} {kvs : BDict} {dec : BValue → Except GoError α}
    {zero x : α} (z : Bool) (k : List Char) (v : BValue)
    (hfind : kvs.find? k = (BDict.ofList (omitEmpty z k v)).find? k)
    (hz : z = true → x = zero) (hv : dec v = pure x) : field kvs k dec zero = pure x := by
  unfold field
  rw [hfind]
  cases z
  · simp [omitEmpty, BDict.find?_ofList_cons, hv]
  · simp [omitEmpty, hz rfl]

theorem asInt64_range {v : BValue} {i : Int} (h : asInt64 v = .ok i) : -2 ^ 63 ≤ i ∧ i < 2 ^ 63 := by
  cases v with
  | int j =>
    simp only [asInt64] at h
    split_ifs at h with hj
    cases h
    exact hj
  | _ => cases h

/-- An `int64` field holds an `int64`. -/
theorem field_asInt64_range {kvs : BDict} {k : List Char} {i : Int}
    (h : field kvs k asInt64 0 = .ok i) : -2 ^ 63 ≤ i ∧ i < 2 ^ 63 := by
  unfold field at h
  split at h
  · cases h; decide
  · exact asInt64_range h

/-- Each item `decodeAll` returns is what `dec` made of some item. -/
theorem decodeAll_mem {α : Type} {dec : BValue → Except GoError α} {a : α} :
    ∀ {vs : List BValue} {as : List α}, decodeAll dec vs = .ok as → a ∈ as → ∃ v, dec v = .ok a
  | [], _, h, ha => by cases h; cases ha
  | v :: vs, as, h, ha => by
    obtain ⟨b, hb, h⟩ := bind_eq_ok h
    obtain ⟨bs, hbs, h⟩ := bind_eq_ok h
    cases h
    rcases List.mem_cons.mp ha with rfl | ha
    · exact ⟨v, hb⟩
    · exact decodeAll_mem hbs ha

/-- Each item a slice field holds is what `dec` made of some value. -/
theorem field_asSlice_mem {α : Type} {kvs : BDict} {k : List Char} {dec : BValue → Except GoError α}
    {as : List α} (h : field kvs k (asSlice dec) [] = .ok as) {a : α} (ha : a ∈ as) :
    ∃ v, dec v = .ok a := by
  unfold field at h
  split at h
  · cases h; cases ha
  · rename_i v _
    cases v with
    | list vs => exact decodeAll_mem h ha
    | _ => cases h

/-- Decoding each item of an encoded list gives the values back when each item does. -/
theorem decodeAll_map {α : Type} {dec : BValue → Except GoError α} {enc : α → BValue}
    {as : List α} (h : ∀ a ∈ as, dec (enc a) = pure a) : decodeAll dec (as.map enc) = pure as := by
  induction as with
  | nil => rfl
  | cons a as ih =>
    simp only [List.map_cons, decodeAll, h a (List.mem_cons_self _ _),
      ih fun a' ha' => h a' (List.mem_cons_of_mem _ ha'), pure_bind]

end Bencode

end Rakoshare
