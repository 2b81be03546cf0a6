import Rakoshare.Control.Revision

/-!
# A `bs_metadata` frame from one session to another

Two sessions of this program exchange their current info-hash in `bs_metadata` frames: the
sender frames an encoded `IHMessage` with the code its peer gave `bs_metadata`
(`ControlSession.ihMessage`, `src/unnamed/part_000`, lines 554–567), and the receiver's
`DoMessage` (lines 382–401) dispatches the frame on that code through its own extension table,
the one `NewControlSession` builds (lines 58–117): `ut_pex` under `1` and `bs_metadata` under
`2`. The frame is sent in two places: by `DoHandshake` (lines 403–426) in reply to a peer's
extension handshake, and by `SetCurrent` (lines 509–537) through `broadcast` (lines 539–552) to
every peer that named `bs_metadata`.

This file follows such a frame from the sender to the receiver. The message survives the
encoding into bytes and back whatever its info-hash and revision hold, as long as they are
strings of bytes, and what the receiver does depends on the sub-identifier alone
(`ihOutcome`). Under the code `2`, the one a receiver of this program announces, it announces
the new info-hash at the sender's IP and port. Under `0` the receiver takes the frame for an
extension handshake: it finds no `m` in the message, forgets the sender's codes and replies with
its own `IHMessage`, framed under `0` as well.

## Main definitions

* `ihOutcome` : what the receiver does with the frame, for each sub-identifier.

## Main results

* `doMessage_ihMessage` : a frame built by `ihMessage`, received by `DoMessage`.
* `bsMetadata_frames_received` : the frames `DoHandshake` and `SetCurrent` send, received by a
  session of this program.
-/

namespace Rakoshare

open Bencode

/-- What a session whose extension table is the one `NewControlSession` builds does with a frame
holding an `IHMessage` for `ih` and the port `port` under the sub-identifier `b`. Under `0`, the
handshake handler reads no `m` in the message, so it forgets the peer's codes and replies with the
session's own `IHMessage`. Under `2`, `DoMetadata` announces `ih` at the peer's IP and `port`,
unless `ih` is empty, the port is `0` or `ih` is the session's own. Under `1` (`ut_pex`) nothing
happens, and any other code is an unknown extension. -/
def ihOutcome (B : ControlSession) (pA : PeerState) (ih : List Char) (port : Int) (b : UInt8) :
    Handled :=
  if b = extensionHandshake then
    ⟨none, B, { pA with theirExtensions := [] }.sendMessage
      (B.ihMessage B.currentIH { pA with theirExtensions := [] })⟩
  else if b.toNat = 2 then
    if ih = [] ∨ port = 0 ∨ B.currentIH = ih then ⟨none, B, pA⟩
    else ⟨none, { B with torrents := B.torrents ++
      [⟨ih, pA.conn.ip ++ ":".toList ++ Strconv.itoa port⟩] }, pA⟩
  else if b.toNat = 1 then ⟨none, B, pA⟩
  else ⟨some (.text ("Unknown extension: ".toList ++ Strconv.itoa b.toNat)), B, pA⟩

section Frame

variable {port : Int} {ih rev : List Char}

/-- The body of the frame, read back as a string, is the encoded message. -/
theorem stringOf_ihBody (hih : IsBytes ih) (hrev : IsBytes rev) :
    stringOf (bytesOf (encode (newIHMessage port ih [] rev).toBValue)) =
      encode (newIHMessage port ih [] rev).toBValue :=
  stringOf_bytesOf (isBytes_encode_ihMessage hih hrev (by simp [IsBytes, newIHMessage]))

/-- `DoMetadata` decodes the message that was encoded, when its port is an `int64`. -/
theorem decode_ihBody (hp₁ : -2 ^ 63 ≤ port) (hp₂ : port < 2 ^ 63) :
    decodeInto IHMessage.ofBValue (encode (newIHMessage port ih [] rev).toBValue) =
      .ok (newIHMessage port ih [] rev) := by
  rw [← List.append_nil (encode _), decodeInto_encode]
  exact IHMessage.ofBValue_toBValue hp₁ hp₂

/-- The handshake decoder accepts the message as a handshake with no `m`. -/
theorem decode_ihBody_handshake :
    decodeInto ExtensionHandshake.ofBValue (encode (newIHMessage port ih [] rev).toBValue) =
      .ok ⟨[]⟩ := by
  rw [← List.append_nil (encode _), decodeInto_encode]
  rfl

end Frame

/-- `DoMetadata` of the encoded message: the announce of `ih` at the peer's IP and `port`, unless
`ih` is empty, the port is `0` or `ih` is the session's own. -/
theorem doMetadata_ihBody (B : ControlSession) (pA : PeerState) {port : Int} {ih rev : List Char}
    (hp₁ : -2 ^ 63 ≤ port) (hp₂ : port < 2 ^ 63) (hih : IsBytes ih) (hrev : IsBytes rev) :
    doMetadata B (bytesOf (encode (newIHMessage port ih [] rev).toBValue)) pA =
      if ih = [] ∨ port = 0 ∨ B.currentIH = ih then ⟨none, B, pA⟩
      else ⟨none, { B with torrents := B.torrents ++
        [⟨ih, pA.conn.ip ++ ":".toList ++ Strconv.itoa port⟩] }, pA⟩ := by
  unfold doMetadata
  rw [stringOf_ihBody hih hrev, decode_ihBody hp₁ hp₂]
  simp only [newIHMessage]
  by_cases hx : ih = [] ∨ port = 0
  · rw [if_pos hx, if_pos (hx.imp_right .inl)]
  · by_cases hc : B.currentIH = ih
    · rw [if_neg hx, if_neg (not_not.mpr hc), if_pos (.inr (.inr hc))]
    · rw [if_neg hx, if_pos hc, if_neg (by tauto)]

/-- `DoOther` of a session with the extension table `NewControlSession` builds: `DoMetadata` of the
rest for the code `2`, nothing for `1`, and the unknown-extension error for any other code. -/
theorem doOther_of_table (B : ControlSession)
    (hB : B.ourExtensions = [(1, "ut_pex".toList), (2, "bs_metadata".toList)]) (b : UInt8)
    (body : List UInt8) (pA : PeerState) :
    doOther B (b :: body) pA = .ret (if b.toNat = 2 then doMetadata B body pA
      else if b.toNat = 1 then ⟨none, B, pA⟩
      else ⟨some (.text ("Unknown extension: ".toList ++ Strconv.itoa b.toNat)), B, pA⟩) := by
  simp only [doOther, index_cons_zero, Outcome.ret_bind, hB, sliceFrom_cons_one]
  by_cases h2 : b.toNat = 2
  · simp [h2, GoMap.get?]
  · by_cases h1 : b.toNat = 1
    · simp [h1, GoMap.get?]
    · simp [GoMap.get?, List.find?, show (1 : Int) ≠ b.toNat by omega,
        show (2 : Int) ≠ b.toNat by omega, h1, h2]

/-- A frame built by `ihMessage` from a session whose revision is a string of bytes and whose port
is an `int64`, for an info-hash of bytes, received by `DoMessage` of a session with the extension
table `NewControlSession` builds: the outcome `ihOutcome` gives for the frame's sub-identifier. -/
theorem doMessage_ihMessage (A B : ControlSession)
    (hB : B.ourExtensions = [(1, "ut_pex".toList), (2, "bs_metadata".toList)])
    (hp₁ : -2 ^ 63 ≤ A.port) (hp₂ : A.port < 2 ^ 63) (hrev : IsBytes A.rev) {ih : List Char}
    (hih : IsBytes ih) (ps pA : PeerState) :
    doMessage B pA (some (A.ihMessage ih ps)) = .ret (ihOutcome B pA ih A.port
      (goByte ((GoMap.get? ps.theirExtensions "bs_metadata".toList).getD 0))) := by
  unfold ControlSession.ihMessage
  generalize goByte ((GoMap.get? ps.theirExtensions "bs_metadata".toList).getD 0) = b
  simp only [doMessage, List.length_cons, Nat.add_one_ne_zero, if_false, index_cons_zero,
    Outcome.ret_bind, index_cons_cons_one, sliceFrom_cons_one, ne_eq, not_true_eq_false]
  by_cases h0 : b = extensionHandshake
  · rw [if_pos h0, doHandshake_of_decode B pA
      (by rw [stringOf_ihBody hih hrev]; exact decode_ihBody_handshake), ihOutcome, if_pos h0]
  · rw [if_neg h0, ihOutcome, if_neg h0, doOther_of_table B hB,
      doMetadata_ihBody B pA hp₁ hp₂ hih hrev]

/-- The two places a session sends its `IHMessage`, followed to a session of this program whose
extension table is the one `NewControlSession` builds, for a sender whose port is an `int64`.
In reply to an extension handshake that decodes to `h`, `DoHandshake` queues one frame, which the
receiver handles as `ihOutcome` says for the sender's current info-hash and port and the code `h`
gives `bs_metadata` (modulo 256, and `0` when it gives none), provided the current info-hash and
the revision are strings of bytes. After `SetCurrent(ih)` for an info-hash of bytes, every peer of
the table that named `bs_metadata` with a code `c` has one frame more, which the receiver handles
as `ihOutcome` says for `ih`, the sender's port and `c`. -/
theorem bsMetadata_frames_received (A B : ControlSession)
    (hB : B.ourExtensions = [(1, "ut_pex".toList), (2, "bs_metadata".toList)])
    (hp₁ : -2 ^ 63 ≤ A.port) (hp₂ : A.port < 2 ^ 63) (pA : PeerState) :
    (IsBytes A.currentIH → IsBytes A.rev →
      ∀ (b : UInt8) (body : List UInt8) (h : ExtensionHandshake) (pB : PeerState),
        decodeInto ExtensionHandshake.ofBValue (stringOf body) = .ok h →
        ∃ frame, doHandshake A (b :: body) pB =
            .ret ⟨none, A, { pB with theirExtensions := h.m }.sendMessage frame⟩ ∧
          doMessage B pA (some frame) = .ret (ihOutcome B pA A.currentIH A.port
            (goByte ((GoMap.get? h.m "bs_metadata".toList).getD 0)))) ∧
    ∀ (sha1 : List UInt8 → List UInt8) (ih : List Char) (w : World) (A' : ControlSession)
      (w' : World), IsBytes ih → setCurrent sha1 A ih w = .ret (A', w') →
      ∀ (k : List Char) (q : PeerState) (c : Int), (k, q) ∈ A.peers →
        GoMap.get? q.theirExtensions "bs_metadata".toList = some c →
        ∃ frame, (k, q.sendMessage frame) ∈ A'.peers ∧
          doMessage B pA (some frame) = .ret (ihOutcome B pA ih A.port (goByte c)) := by
  refine ⟨fun hih hrev b body h pB hd => ⟨_, doHandshake_of_decode A pB hd,
    doMessage_ihMessage A B hB hp₁ hp₂ hrev hih _ pA⟩, fun sha1 ih w A' w' hih hset k q c hq hc => ?_⟩
  unfold setCurrent at hset
  dsimp only at hset
  split at hset
  · cases hset
  · cases hset
    have hd := doMessage_ihMessage { A with currentIH := ih, rev := nextRev sha1 A.rev ih } B hB
      hp₁ hp₂ (isBytes_nextRev sha1 A.rev ih) hih q pA
    rw [hc, Option.getD_some] at hd
    exact ⟨_, List.mem_map.mpr ⟨(k, q), hq, by rw [hc]; rfl⟩, hd⟩

/-- A session started on an empty disk. -/
def receiverSession : ControlSession :=
  newControlSession "B".toList 6882 "/b".toList ⟨fun _ => none, "/".toList, [], []⟩

theorem bsMetadata_frames_received_fresh :
    receiverSession.ourExtensions = [(1, "ut_pex".toList), (2, "bs_metadata".toList)] ∧
      -2 ^ 63 ≤ freshSession.port ∧ freshSession.port < 2 ^ 63 ∧
      (IsBytes freshSession.currentIH → IsBytes freshSession.rev →
        ∀ (b : UInt8) (body : List UInt8) (h : ExtensionHandshake) (pB : PeerState),
          decodeInto ExtensionHandshake.ofBValue (stringOf body) = .ok h →
          ∃ frame, doHandshake freshSession (b :: body) pB =
              .ret ⟨none, freshSession, { pB with theirExtensions := h.m }.sendMessage frame⟩ ∧
            doMessage receiverSession ipv6Peer (some frame) = .ret (ihOutcome receiverSession
              ipv6Peer freshSession.currentIH freshSession.port
              (goByte ((GoMap.get? h.m "bs_metadata".toList).getD 0)))) ∧
      ∀ (sha1 : List UInt8 → List UInt8) (ih : List Char) (w : World) (A' : ControlSession)
        (w' : World), IsBytes ih → setCurrent sha1 freshSession ih w = .ret (A', w') →
        ∀ (k : List Char) (q : PeerState) (c : Int), (k, q) ∈ freshSession.peers →
          GoMap.get? q.theirExtensions "bs_metadata".toList = some c →
          ∃ frame, (k, q.sendMessage frame) ∈ A'.peers ∧
            doMessage receiverSession ipv6Peer (some frame) =
              .ret (ihOutcome receiverSession ipv6Peer ih freshSession.port (goByte c)) :=
  ⟨rfl, by decide, by decide, bsMetadata_frames_received freshSession receiverSession rfl
    (by decide) (by decide) ipv6Peer⟩

end Rakoshare
