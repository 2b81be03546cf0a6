import Rakoshare.Control.Session
import Rakoshare.Go.Net

/-!
# Dispatching a peer's message

`ControlSession.DoMessage` and the handlers it calls (`src/unnamed/part_000`, lines 382–443 and
478–503). The session's loop runs `DoMessage` on each message a peer's reader delivers and
closes the peer when it returns an error (lines 228–237); a run-time panic in it ends the loop,
and with it the program.

Go checks every index and slice bound: `message[i]` panics when `i` is not below the length,
`message[lo:]` when `lo` is past it. A call that may panic returns an `Outcome`. A message is an
`Option`: `none` is the `nil` slice a reader sends when its connection ends.

Each handler may only add to the peer's outbox, replace its extension table and add to the
session's announces; none of them touches the peer table (`doMessage_frames`).

## Main definitions

* `Outcome`, `index`, `sliceFrom`.
* `ExtensionHandshake`, `doHandshake`, `doMetadata`, `doOther`, `doMessage`.

## Main results

* `doMessage_panics_iff`: `DoMessage` panics on exactly one message, the single byte
  `EXTENSION`.
* `doMessage_frames`: a message that does not panic changes neither the peer table nor the
  peer's address, id and connection.
* `doMetadata_announce_peer`: the endpoint `DoMetadata` announces, and how `SplitHostPort` reads
  it back.
-/

namespace Rakoshare

open Bencode

/-! ### Calls that may panic -/

/-- How a Go call ends: it returns a value, or it panics. -/
inductive Outcome (α : Type) where
  | ret (a : α)
  | panic
  deriving DecidableEq, Repr

instance : Monad Outcome where
  pure := .ret
  bind x f := match x with
    | .ret a => f a
    | .panic => .panic

@[simp] theorem Outcome.ret_bind {α β : Type} (a : α) (f : α → Outcome β) :
    (Outcome.ret a >>= f) = f a := rfl

@[simp] theorem Outcome.panic_bind {α β : Type} (f : α → Outcome β) :
    ((Outcome.panic : Outcome α) >>= f) = .panic := rfl

@[simp] theorem Outcome.pure_eq {α : Type} (a : α) : (pure a : Outcome α) = .ret a := rfl

/-- `s[i]`: panics when `i` is not below the length. -/
def index (s : List UInt8) (i : Nat) : Outcome UInt8 :=
  if h : i < s.length then .ret (s.get ⟨i, h⟩) else .panic

/-- `s[lo:]`: panics when `lo` is past the length. -/
def sliceFrom (s : List UInt8) (lo : Nat) : Outcome (List UInt8) :=
  if lo ≤ s.length then .ret (s.drop lo) else .panic

@[simp] theorem index_cons_zero (b : UInt8) (s : List UInt8) : index (b :: s) 0 = .ret b := by
  simp [index]

@[simp] theorem index_cons_cons_one (b c : UInt8) (s : List UInt8) :
    index (b :: c :: s) 1 = .ret c := by
  simp [index]

@[simp] theorem index_singleton_one (b : UInt8) : index [b] 1 = .panic := rfl

@[simp] theorem sliceFrom_cons_one (b : UInt8) (s : List UInt8) :
    sliceFrom (b :: s) 1 = .ret s := by
  simp [sliceFrom]

/-! ### The handlers -/

/-- The extension handshake (BEP 10), with the one field the program reads. The record is
declared outside `src/`; its `m` maps extension names to the codes the peer chose. -/
structure ExtensionHandshake where
  m : List (List Char × Int)
  deriving DecidableEq, Repr

/-- The entries of a dictionary put into a `map[string]int` one after the other. -/
def setInts : BDict → List (List Char × Int) → Except GoError (List (List Char × Int))
  | .nil, m => pure m
  | .cons k v kvs, m => do
    let i ← asInt64 v
    setInts kvs (GoMap.set m k i)

/-- The extension handshake the decoder fills from a value. -/
def ExtensionHandshake.ofBValue : BValue → Except GoError ExtensionHandshake :=
  asDict fun kvs => do
    let m ← field kvs "m".toList (asDict fun kvs => setInts kvs []) []
    pure ⟨m⟩

/-- What a handler leaves: its error (`none` for `nil`), the session and the peer. -/
structure Handled where
  err : Option GoError
  cs : ControlSession
  p : PeerState

/-- `errInvalidType`. -/
def errInvalidType : GoError := .text "invalid message type".toList

section Handlers

variable (cs : ControlSession)

/-- `cs.DoHandshake(msg, p)`: decode the handshake after the sub-identifier, take the peer's
extension codes, and send it the current `IHMessage`. -/
def doHandshake (msg : List UInt8) (p : PeerState) : Outcome Handled := do
  let body ← sliceFrom msg 1
  match decodeInto ExtensionHandshake.ofBValue (stringOf body) with
  | .error e => pure ⟨some e, cs, p⟩
  | .ok h =>
    let p := { p with theirExtensions := h.m }
    pure ⟨none, cs, p.sendMessage (cs.ihMessage cs.currentIH p)⟩

/-- `cs.DoMetadata(msg, p)`: decode an `IHMessage`; one that names an info-hash, a port, and an
info-hash other than the current one is announced on `Torrents` with the peer's IP and the
advertised port. It indexes nothing. -/
def doMetadata (msg : List UInt8) (p : PeerState) : Handled :=
  match decodeInto IHMessage.ofBValue (stringOf msg) with
  | .error e => ⟨some e, cs, p⟩
  | .ok message =>
    if message.info.infoHash = [] ∨ message.port = 0 then ⟨none, cs, p⟩
    else if cs.currentIH ≠ message.info.infoHash then
      let announce : Announce :=
        ⟨message.info.infoHash, p.conn.ip ++ ":".toList ++ Strconv.itoa message.port⟩
      ⟨none, { cs with torrents := cs.torrents ++ [announce] }, p⟩
    else ⟨none, cs, p⟩

/-- `cs.DoOther(msg, p)`: dispatch on the extension code in `msg[0]` through the session's own
extension table. `DoPex` does nothing. -/
def doOther (msg : List UInt8) (p : PeerState) : Outcome Handled := do
  let code ← index msg 0
  match GoMap.get? cs.ourExtensions (code.toNat : Int) with
  | some ext =>
    if ext = "bs_metadata".toList then do
      let rest ← sliceFrom msg 1
      pure (doMetadata cs rest p)
    else if ext = "ut_pex".toList then do
      let _ ← sliceFrom msg 1
      pure ⟨none, cs, p⟩
    else pure ⟨some (.text ("unknown extension: ".toList ++ ext)), cs, p⟩
  | none => pure ⟨some (.text ("Unknown extension: ".toList ++ Strconv.itoa code.toNat)), cs, p⟩

/-- `cs.DoMessage(p, message)`: `io.EOF` for the reader's `nil`, nothing for a keep-alive, an
error for a type other than `EXTENSION`, else the handler `message[1]` selects, given
`message[1:]`. -/
def doMessage (p : PeerState) : Option (List UInt8) → Outcome Handled
  | none => pure ⟨some .eof, cs, p⟩
  | some message =>
    if message.length = 0 then pure ⟨none, cs, p⟩
    else do
      let tag ← index message 0
      if tag ≠ extension then pure ⟨some errInvalidType, cs, p⟩
      else do
        let sub ← index message 1
        let rest ← sliceFrom message 1
        if sub = extensionHandshake then doHandshake cs rest p else doOther cs rest p

/-- A handshake that decodes replaces the peer's extension table by its `m` and sends the
current `IHMessage`, whatever `m` holds. -/
theorem doHandshake_of_decode (p : PeerState) {b : UInt8} {body : List UInt8} {h : ExtensionHandshake}
    (hd : decodeInto ExtensionHandshake.ofBValue (stringOf body) = .ok h) :
    doHandshake cs (b :: body) p = .ret ⟨none, cs, { p with theirExtensions := h.m }.sendMessage
      (cs.ihMessage cs.currentIH { p with theirExtensions := h.m })⟩ := by
  simp [doHandshake, hd]

end Handlers

/-! ### Where the dispatcher panics -/

section Panics

variable (cs : ControlSession) (p : PeerState)

theorem doHandshake_ne_panic {msg : List UInt8} (h : msg ≠ []) :
    doHandshake cs msg p ≠ .panic := by
  obtain ⟨b, msg, rfl⟩ := List.exists_cons_of_ne_nil h
  unfold doHandshake
  rw [sliceFrom_cons_one, Outcome.ret_bind]
  split <;> exact Outcome.noConfusion

theorem doOther_ne_panic {msg : List UInt8} (h : msg ≠ []) : doOther cs msg p ≠ .panic := by
  obtain ⟨b, msg, rfl⟩ := List.exists_cons_of_ne_nil h
  unfold doOther
  rw [index_cons_zero, Outcome.ret_bind]
  split
  · simp only [sliceFrom_cons_one, Outcome.ret_bind]
    split_ifs <;> exact Outcome.noConfusion
  · exact Outcome.noConfusion

/-- `DoMessage` panics on exactly one message: the single byte `EXTENSION`, whose missing
sub-identifier `message[1]` is read out of range. Every other message, of any length and
content, `nil` included, returns. -/
theorem doMessage_panics_iff (message : Option (List UInt8)) :
    doMessage cs p message = .panic ↔ message = some [extension] := by
  rcases message with _ | _ | ⟨t, _ | ⟨u, rest⟩⟩
  · simp [doMessage]
  · simp [doMessage]
  · by_cases ht : t = extension
    · subst ht; simp [doMessage]
    · simp [doMessage, ht]
  · simp only [doMessage, List.length_cons, Nat.add_one_ne_zero, if_false, index_cons_zero,
      Outcome.ret_bind, index_cons_cons_one, sliceFrom_cons_one, Option.some.injEq,
      List.cons.injEq, List.cons_ne_nil, and_false, iff_false]
    split_ifs
    · exact not_false
    · exact doHandshake_ne_panic cs p (List.cons_ne_nil u rest)
    · exact doOther_ne_panic cs p (List.cons_ne_nil u rest)

end Panics

/-! ### The endpoint `DoMetadata` announces -/

/-- `DoMetadata` announces every message that names a new info-hash and a port other than `0`,
whatever the port, with the observed IP, a colon and the port in decimal. `SplitHostPort` takes
that text back apart into the IP and the port when the IP's text has no colon and no bracket, as
an IPv4 address's has, and refuses it when the IP's text has a colon, as every IPv6 address's
has, since the IP is not put in brackets. -/
theorem doMetadata_announce_peer (cs : ControlSession) (p : PeerState) (msg : List UInt8)
    (m : IHMessage) (hm : decodeInto IHMessage.ofBValue (stringOf msg) = .ok m)
    (hih : m.info.infoHash ≠ []) (hport : m.port ≠ 0) (hcur : cs.currentIH ≠ m.info.infoHash) :
    (doMetadata cs msg p).cs.torrents =
        cs.torrents ++ [⟨m.info.infoHash, p.conn.ip ++ ':' :: Strconv.itoa m.port⟩] ∧
      (':' ∉ p.conn.ip → '[' ∉ p.conn.ip → ']' ∉ p.conn.ip →
        Net.splitHostPort (p.conn.ip ++ ':' :: Strconv.itoa m.port) = .ok (p.conn.ip, Strconv.itoa m.port)) ∧
      (':' ∈ p.conn.ip → p.conn.ip.head? ≠ some '[' →
        ∃ e, Net.splitHostPort (p.conn.ip ++ ':' :: Strconv.itoa m.port) = .error e) := by
  have hnot : ∀ c, c ≠ '-' → ¬ c.isDigit → c ∉ Strconv.itoa m.port := fun c h₁ h₂ hc =>
    (mem_itoa hc).elim h₁ h₂
  have hcolon := hnot ':' (by decide) (by decide)
  refine ⟨?_, fun h₁ h₂ h₃ => Net.splitHostPort_of_plain h₁ h₂ h₃ hcolon (hnot '[' (by decide) (by decide))
      (hnot ']' (by decide) (by decide)), fun h₁ h₂ => ⟨_, Net.splitHostPort_of_colon h₁ h₂ hcolon⟩⟩
  simp only [doMetadata, hm, hih, hport, or_self, if_false, ne_eq, hcur, not_false_eq_true, if_true,
    List.append_assoc]
  rfl

/-- A session with no current info-hash. -/
def freshSession : ControlSession := ⟨6881, "p".toList, [], [], "0-".toList, [], [], "/d".toList⟩

/-- A peer connected from the IPv6 loopback address. -/
def ipv6Peer : PeerState := ⟨"[::1]:6881".toList, "q".toList, ⟨0, "[::1]:6881".toList, "::1".toList⟩, [], []⟩

/-- An `IHMessage` advertising the port `70000`, out of the range of TCP ports. -/
def farPortMessage : IHMessage := ⟨⟨"x".toList, "1-".toList⟩, 70000, []⟩

/-- A peer at `::1` advertising the port `70000` is announced as `::1:70000`, which
`SplitHostPort` refuses. -/
theorem doMetadata_announce_peer_ipv6 :
    decodeInto IHMessage.ofBValue (stringOf (bytesOf (encode farPortMessage.toBValue))) = .ok farPortMessage ∧
      farPortMessage.info.infoHash ≠ [] ∧ farPortMessage.port ≠ 0 ∧
      freshSession.currentIH ≠ farPortMessage.info.infoHash ∧
      ∃ e, Net.splitHostPort (ipv6Peer.conn.ip ++ ':' :: Strconv.itoa farPortMessage.port) = .error e :=
  have hm : decodeInto IHMessage.ofBValue (stringOf (bytesOf (encode farPortMessage.toBValue))) =
      .ok farPortMessage := rfl
  ⟨hm, by decide, by decide, by decide, (doMetadata_announce_peer freshSession ipv6Peer _ _ hm
    (by decide) (by decide) (by decide)).2.2 (by decide) (by decide)⟩

/-! ### What a handler may change -/

/-- A handler's result changes the session's announces and the peer's extension table and
outbox, and nothing else. -/
def Handled.Frames (cs : ControlSession) (p : PeerState) (h : Handled) : Prop :=
  h.cs = { cs with torrents := h.cs.torrents } ∧
    h.p = { p with theirExtensions := h.p.theirExtensions, outbox := h.p.outbox }

section Frames

variable (cs : ControlSession) (p : PeerState)

theorem Handled.frames_self (err : Option GoError) : Handled.Frames cs p ⟨err, cs, p⟩ :=
  ⟨rfl, rfl⟩

theorem doMetadata_frames (msg : List UInt8) : (doMetadata cs msg p).Frames cs p := by
  unfold doMetadata
  split
  · exact Handled.frames_self cs p _
  · split_ifs
    · exact Handled.frames_self cs p _
    · exact ⟨rfl, rfl⟩
    · exact Handled.frames_self cs p _

theorem doHandshake_frames {msg : List UInt8} {h : Handled} (hh : doHandshake cs msg p = .ret h) :
    h.Frames cs p := by
  unfold doHandshake at hh
  cases hs : sliceFrom msg 1 with
  | panic => rw [hs] at hh; cases hh
  | ret body =>
    rw [hs, Outcome.ret_bind] at hh
    split at hh <;> cases hh
    · exact Handled.frames_self cs p _
    · exact ⟨rfl, rfl⟩

theorem doOther_frames {msg : List UInt8} {h : Handled} (hh : doOther cs msg p = .ret h) :
    h.Frames cs p := by
  unfold doOther at hh
  cases hi : index msg 0 with
  | panic => rw [hi] at hh; cases hh
  | ret code =>
    rw [hi, Outcome.ret_bind] at hh
    cases hs : sliceFrom msg 1 with
    | panic =>
      split at hh
      · split_ifs at hh <;> simp only [hs, Outcome.panic_bind, Outcome.pure_eq] at hh <;> cases hh
        exact Handled.frames_self cs p _
      · cases hh; exact Handled.frames_self cs p _
    | ret rest =>
      split at hh
      · split_ifs at hh <;> simp only [hs, Outcome.ret_bind, Outcome.pure_eq] at hh <;> cases hh
        · exact doMetadata_frames cs p rest
        · exact Handled.frames_self cs p _
        · exact Handled.frames_self cs p _
      · cases hh; exact Handled.frames_self cs p _

/-- A message that does not panic changes only the session's announces and the peer's extension
table and outbox: never the peer table, nor the peer's address, id and connection. -/
theorem doMessage_frames {message : Option (List UInt8)} {h : Handled}
    (hm : doMessage cs p message = .ret h) : h.Frames cs p := by
  rcases message with _ | _ | ⟨t, _ | ⟨u, rest⟩⟩
  · cases hm; exact Handled.frames_self cs p _
  · cases hm; exact Handled.frames_self cs p _
  · by_cases ht : t = extension
    · subst ht; simp [doMessage] at hm
    · simp [doMessage, ht] at hm; subst hm; exact Handled.frames_self cs p _
  · simp only [doMessage, List.length_cons, Nat.add_one_ne_zero, if_false, index_cons_zero,
      Outcome.ret_bind, index_cons_cons_one, sliceFrom_cons_one] at hm
    split_ifs at hm
    · cases hm; exact Handled.frames_self cs p _
    · exact doHandshake_frames cs p hm
    · exact doOther_frames cs p hm

end Frames

end Rakoshare
