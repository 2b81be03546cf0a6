import Rakoshare.Go.Strings

/-!
# Go's `net.SplitHostPort`

`net.SplitHostPort(hostport)` takes a `host:port` text apart at its last colon. A host that
contains a colon must be written in brackets, `[host]:port`, and a colon inside an unbracketed
host is the error `too many colons in address`; a bracket anywhere else is an error too. An
error reads `address <hostport>: <reason>`, as `net.AddrError` prints it.

The program never calls `SplitHostPort` itself: it builds the `peer` text of an `Announce` as the
observed IP, a colon and the advertised port, and `SplitHostPort` is how a reader of that text
takes it apart.

## Main definitions

* `Strings.lastIndex`: `strings.LastIndexByte`.
* `Net.splitHostPort`.

## Main results

* `Net.splitHostPort_of_plain`: a host with no colon or bracket comes back as it was.
* `Net.splitHostPort_of_colon`: an unbracketed host with a colon is refused.
-/

namespace Rakoshare

/-- `strings.LastIndexByte(s, c)`: the index of the last `c` in `s`. -/
def Strings.lastIndex (c : Char) : List Char → Option Nat
  | [] => none
  | x :: xs =>
    match Strings.lastIndex c xs with
    | some i => some (i + 1)
    | none => if x = c then some 0 else none

/-- The last `c` of `s ++ c :: t`, when `t` has none, is the one after `s`. -/
theorem Strings.lastIndex_append_cons {c : Char} {t : List Char} (ht : c ∉ t) :
    ∀ s : List Char, Strings.lastIndex c (s ++ c :: t) = some s.length
  | [] => by
    have hnone : Strings.lastIndex c t = none := by
      induction t with
      | nil => rfl
      | cons x t ih =>
        simp only [List.mem_cons, not_or] at ht
        simp [Strings.lastIndex, ih ht.2, Ne.symm ht.1]
    simp [Strings.lastIndex, hnone]
  | x :: s => by simp [Strings.lastIndex, Strings.lastIndex_append_cons ht s]

namespace Net

/-- The character `c` between single quotes, as the reasons of `SplitHostPort` quote brackets. -/
def quoted (c : Char) : List Char := [Char.ofNat 39, c, Char.ofNat 39]

/-- The `AddrError` of `hostport` for the reason `why`. -/
def addrErr (hostport why : List Char) : GoError := .text ("address ".toList ++ hostport ++ ": ".toList ++ why)

/-- `net.SplitHostPort(hostport)`: the host and the port, or the `AddrError`. -/
def splitHostPort (hostport : List Char) : Except GoError (List Char × List Char) :=
  match Strings.lastIndex ':' hostport with
  | none => throw (addrErr hostport "missing port in address".toList)
  | some i =>
    let bracketed : Except GoError (List Char × Nat × Nat) :=
      if hostport.head? = some '[' then
        match hostport.findIdx? (· = ']') with
        | none => throw (addrErr hostport ("missing ".toList ++ quoted ']' ++ " in address".toList))
        | some e =>
          if e + 1 = hostport.length then throw (addrErr hostport "missing port in address".toList)
          else if e + 1 = i then pure ((hostport.take e).drop 1, 1, e + 1)
          else if hostport.get? (e + 1) = some ':' then
            throw (addrErr hostport "too many colons in address".toList)
          else throw (addrErr hostport "missing port in address".toList)
      else
        let host := hostport.take i
        if ':' ∈ host then throw (addrErr hostport "too many colons in address".toList)
        else pure (host, 0, 0)
    match bracketed with
    | .error e => throw e
    | .ok (host, j, k) =>
      if '[' ∈ hostport.drop j then
        throw (addrErr hostport ("unexpected ".toList ++ quoted '[' ++ " in address".toList))
      else if ']' ∈ hostport.drop k then
        throw (addrErr hostport ("unexpected ".toList ++ quoted ']' ++ " in address".toList))
      else pure (host, hostport.drop (i + 1))

/-- A host with no colon and no bracket, joined by a colon to a port with none either, comes
back as it was, with the port. -/
theorem splitHostPort_of_plain {host port : List Char} (h₁ : ':' ∉ host) (h₂ : '[' ∉ host)
    (h₃ : ']' ∉ host) (hp₁ : ':' ∉ port) (hp₂ : '[' ∉ port) (hp₃ : ']' ∉ port) :
    splitHostPort (host ++ ':' :: port) = .ok (host, port) := by
  have hhead : host.head? ≠ some '[' := fun h => h₂ (List.mem_of_mem_head? h)
  simp [splitHostPort, Strings.lastIndex_append_cons hp₁, hhead, h₁, h₂, h₃, hp₂, hp₃, pure,
    Except.pure]

/-- An unbracketed host with a colon, such as the text of an IPv6 address, is refused: the last
colon is taken as the port's, and the colon left in the host is one too many. -/
theorem splitHostPort_of_colon {host port : List Char} (h₁ : ':' ∈ host)
    (h₂ : host.head? ≠ some '[') (hp : ':' ∉ port) :
    splitHostPort (host ++ ':' :: port) =
      .error (addrErr (host ++ ':' :: port) "too many colons in address".toList) := by
  have hne : host ≠ [] := List.ne_nil_of_mem h₁
  simp [splitHostPort, Strings.lastIndex_append_cons hp, h₂, h₁, List.head?_append, hne]
  rfl

end Net

end Rakoshare
