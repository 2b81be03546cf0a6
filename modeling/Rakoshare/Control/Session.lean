import Rakoshare.MetaInfo.Bencode

/-!
# The control session's state and its `bs_metadata` message

The records of `ControlSession` (`src/unnamed/part_000`, lines 34–56) and of a peer, with the
fields the modelled functions read and write, and the `IHMessage` the session sends to peers and
persists in its `current` file (lines 445–476), with its bencode form.

A Go map is a list of entries with distinct keys: `GoMap.get?` finds the entry of a key,
`GoMap.set` replaces it, `GoMap.delete` drops it. A peer's connection is named by the number of
the connection it was made from; two copies of a `peerState` with the same connection are the
same Go object.

## Main definitions

* `GoMap.get?`, `GoMap.set`, `GoMap.delete`.
* `Conn`, `PeerState`, `Announce`, `ControlSession`.
* `NewInfo`, `IHMessage`, `newIHMessage`, `ControlSession.ihMessage`.

## Main results

* `IHMessage.ofBValue_toBValue`: decoding an encoded `IHMessage` gives it back.
-/

namespace Rakoshare

open Bencode

/-! ### Go maps -/

namespace GoMap

variable {κ α : Type} [DecidableEq κ]

/-- `m[k]` with its `ok`: the value of the entry with key `k`. -/
def get? (m : List (κ × α)) (k : κ) : Option α := (m.find? (·.1 = k)).map Prod.snd

/-- `m[k] = v`. -/
def set (m : List (κ × α)) (k : κ) (v : α) : List (κ × α) := (k, v) :: m.filter (·.1 ≠ k)

/-- `delete(m, k)`. -/
def delete (m : List (κ × α)) (k : κ) : List (κ × α) := m.filter (·.1 ≠ k)

@[simp] theorem get?_set_self (m : List (κ × α)) (k : κ) (v : α) : get? (set m k v) k = some v := by
  simp [get?, set]

end GoMap

/-! ### Peers and the session -/

/-- A TCP connection: its number among the connections the session opened or accepted, the
address `RemoteAddr().String()` gives, and the IP part of it. -/
structure Conn where
  id : Nat
  remoteAddr : List Char
  ip : List Char
  deriving DecidableEq, Repr

/-- A `peerState`: the address and peer id `AddPeer` gives it, its connection, the extension
codes the peer announced, and the messages sent to it, oldest first. -/
structure PeerState where
  address : List Char
  id : List Char
  conn : Conn
  theirExtensions : List (List Char × Int)
  outbox : List (List UInt8)
  deriving DecidableEq, Repr

/-- `NewPeerState(conn)` with its address and id set, as `AddPeer` makes it. -/
def PeerState.new (address id : List Char) (conn : Conn) : PeerState := ⟨address, id, conn, [], []⟩

/-- An announce sent on `cs.Torrents`: an info-hash and the peer that has it. -/
structure Announce where
  infohash : List Char
  peer : List Char
  deriving DecidableEq, Repr

/-- The state of a `ControlSession`: the announces it sent on `Torrents`, oldest first, and
`peers`, the peer table keyed by address. -/
structure ControlSession where
  port : Int
  peerID : List Char
  torrents : List Announce
  currentIH : List Char
  rev : List Char
  ourExtensions : List (Int × List Char)
  peers : List (List Char × PeerState)
  bitshareDir : List Char
  deriving DecidableEq, Repr

/-- `peerState.sendMessage`: queue a message for the peer's writer. -/
def PeerState.sendMessage (p : PeerState) (message : List UInt8) : PeerState :=
  { p with outbox := p.outbox ++ [message] }

/-! ### The `bs_metadata` message -/

/-- `NewInfo`: the info-hash and its revision `<counter>-<hash>`. -/
structure NewInfo where
  infoHash : List Char
  rev : List Char
  deriving DecidableEq, Repr

/-- `IHMessage`: the current info-hash with its revision, the listening port and a signature. -/
structure IHMessage where
  info : NewInfo
  port : Int
  sig : List Char
  deriving DecidableEq, Repr

/-- `NewIHMessage(port, ih, privkey, rev)`: the signature is left empty, since the body of the
`privkey != ""` branch is empty. -/
def newIHMessage (port : Int) (ih _privkey rev : List Char) : IHMessage := ⟨⟨ih, rev⟩, port, []⟩

/-- The dictionary the encoder writes for a `NewInfo`. -/
def NewInfo.toBValue (i : NewInfo) : BValue :=
  .dict (BDict.ofList [("infohash".toList, .str i.infoHash), ("rev".toList, .str i.rev)])

/-- The dictionary the encoder writes for an `IHMessage`. -/
def IHMessage.toBValue (m : IHMessage) : BValue :=
  .dict (BDict.ofList [("info".toList, m.info.toBValue), ("port".toList, .int m.port),
    ("sig".toList, .str m.sig)])

/-- The `NewInfo` the decoder fills from a value. -/
def NewInfo.ofBValue : BValue → Except GoError NewInfo :=
  asDict fun kvs => do
    let infoHash ← field kvs "infohash".toList asString []
    let rev ← field kvs "rev".toList asString []
    pure ⟨infoHash, rev⟩

/-- The `IHMessage` the decoder fills from a value. -/
def IHMessage.ofBValue : BValue → Except GoError IHMessage :=
  asDict fun kvs => do
    let info ← field kvs "info".toList NewInfo.ofBValue ⟨[], []⟩
    let port ← field kvs "port".toList asInt64 0
    let sig ← field kvs "sig".toList asString []
    pure ⟨info, port, sig⟩

/-- Decoding an encoded `IHMessage` whose port is an `int64` gives it back. -/
theorem IHMessage.ofBValue_toBValue {m : IHMessage} (h₁ : -2 ^ 63 ≤ m.port)
    (h₂ : m.port < 2 ^ 63) : IHMessage.ofBValue m.toBValue = pure m := by
  obtain ⟨⟨ih, rev⟩, port, sig⟩ := m
  simp [IHMessage.ofBValue, IHMessage.toBValue, NewInfo.ofBValue, NewInfo.toBValue, field,
    BDict.ofList, BDict.find?, asInt64_int h₁ h₂]

theorem isBytes_encode_ihMessage {m : IHMessage} (h₁ : IsBytes m.info.infoHash)
    (h₂ : IsBytes m.info.rev) (h₃ : IsBytes m.sig) : IsBytes (encode m.toBValue) := by
  simp [IHMessage.toBValue, NewInfo.toBValue, BDict.ofList, encode, encodeDict,
    isBytes_encodeString, h₁, h₂, h₃, isBytes_itoa]

/-- `EXTENSION`, the message type of the extension protocol (BEP 10). The constant is declared
outside `src/`; its value is 20. -/
def extension : UInt8 := 20

/-- `EXTENSION_HANDSHAKE`, the extension sub-identifier of the extension handshake (BEP 10). The
constant is declared outside `src/`; its value is 0. -/
def extensionHandshake : UInt8 := 0

/-- `byte(i)`: the low eight bits of an `int`. -/
def goByte (i : Int) : UInt8 := UInt8.ofNat (i % 256).toNat

theorem goByte_eq_zero_iff (i : Int) : goByte i = 0 ↔ i % 256 = 0 := by
  have h₀ := Int.emod_nonneg i (by decide : (256 : Int) ≠ 0)
  have h₁ := Int.emod_lt_of_pos i (by decide : (0 : Int) < 256)
  refine ⟨fun h => ?_, fun h => by rw [goByte, h]; rfl⟩
  have h' : (i % 256).toNat % 256 = 0 := by simpa [UInt8.toNat_ofNat] using congrArg UInt8.toNat h
  omega

/-- `cs.ihMessage(ih, ps)`: `EXTENSION`, the code the peer gave `bs_metadata` (0 when it gave
none), then the encoded `IHMessage`. Encoding into a buffer cannot fail, so the
`errMetadataMessage` branch is never taken and the result is always the message. -/
def ControlSession.ihMessage (cs : ControlSession) (ih : List Char) (ps : PeerState) :
    List UInt8 :=
  extension :: goByte ((GoMap.get? ps.theirExtensions "bs_metadata".toList).getD 0) ::
    bytesOf (encode (newIHMessage cs.port ih [] cs.rev).toBValue)

end Rakoshare
