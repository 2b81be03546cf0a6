import Rakoshare.Control.Message
import Rakoshare.OS.World

/-!
# The revision and its `current` file

`SetCurrent` (`src/unnamed/part_000`, lines 509–537) advances the session's revision
`<counter>-<hash>`: it splits the old revision on `-`, increments the counter and hashes the new
info-hash with the old hash, then writes an `IHMessage` with the new revision to
`{dir}/current` and broadcasts it. `NewControlSession` (lines 59–117) reads that file back on
the next start: it takes the info-hash as it is, but keeps the revision only when splitting it
on `"2"` gives two parts of which the first is an integer, and starts from `"0-"` otherwise.

SHA-1 is a parameter. `os.Create` failing makes `SetCurrent` call `log.Fatal`, which ends the
program: the `panic` outcome. The parts of `NewControlSession` that start the DHT node and the
goroutines are not modelled. Its peer id is `sid[:20]` for the session id `sid` built from the
process id and a random `int63` (`peerIDOf`); `newControlSession` takes the peer id it computed.

## Main definitions

* `sessionID`, `peerIDOf`.
* `restoreRev`, `newControlSession`.
* `ControlSession.broadcast`, `setCurrent`, `setCurrentAll`.
* `revHash`: the chained hash of a run of `SetCurrent`.

## Main results

* `peerID_short_session_id_panics`: a short session id makes `sid[:20]` panic.
* `restoreRev_of_two_not_mem`: a revision without the digit `2` is never restored.
* `setCurrent_restart`: after `SetCurrent`, a restart reads back the info-hash and the revision
  as `restoreRev` leaves it.
* `restart_forgets_revision`: when the new hash has no digit `2`, a restart starts the counter
  over.
* `setCurrent_counts_calls`: within one session, `N` calls from `"0-"` leave the revision
  `N-H_N`.
-/

namespace Rakoshare

open Bencode

/-! ### Restoring a persisted revision -/

/-- The revision `NewControlSession` starts from, given the persisted one: the persisted
revision when it is non-empty, splits on `"2"` into two parts, and its first part is an
integer; `"0-"` otherwise. -/
def restoreRev (persisted : List Char) : List Char :=
  if persisted ≠ [] then
    let parts := Strings.split persisted '2'
    if parts.length = 2 ∧ (Strconv.atoi (parts.getD 0 [])).isSome then persisted else "0-".toList
  else "0-".toList

/-- A revision with no digit `2` splits into one part, so it is never restored. -/
theorem restoreRev_of_two_not_mem {r : List Char} (h : '2' ∉ r) : restoreRev r = "0-".toList := by
  unfold restoreRev Strings.split
  rw [List.splitOn, List.splitOnP_eq_single _ _ fun x hx hx2 =>
    h ((beq_iff_eq.mp hx2 : x = '2') ▸ hx)]
  split_ifs <;> simp_all

/-- The `IHMessage` a session starts from: the one decoded from `{dir}/current`, or the zero
message when the file is missing or does not decode. -/
def readCurrent (bitshareDir : List Char) (w : World) : IHMessage :=
  match w.files (Path.join [bitshareDir, "current".toList]) with
  | none => ⟨⟨[], []⟩, 0, []⟩
  | some bytes =>
    match decodeInto IHMessage.ofBValue (stringOf bytes) with
    | .ok m => m
    | .error _ => ⟨⟨[], []⟩, 0, []⟩

/-- `NewControlSession(id, listenPort, bitshareDir)`: the session it builds, with the peer id
`peerID`. -/
def newControlSession (peerID : List Char) (listenPort : Int) (bitshareDir : List Char)
    (w : World) : ControlSession :=
  let currentIhMessage := readCurrent bitshareDir w
  { port := listenPort
    peerID := peerID
    torrents := []
    currentIH := currentIhMessage.info.infoHash
    rev := restoreRev currentIhMessage.info.rev
    ourExtensions := [(1, "ut_pex".toList), (2, "bs_metadata".toList)]
    peers := []
    bitshareDir := bitshareDir }

/-! ### The peer id -/

/-- The session id `NewControlSession` builds from the process id and a random `int63`:
`-tt<pid>_<r>`. -/
def sessionID (pid r : Int) : List Char :=
  "-tt".toList ++ Strconv.itoa pid ++ '_' :: Strconv.itoa r

/-- `s[:hi]` of a string: panics when `hi` is past its length. -/
def sliceTo (s : List Char) (hi : Nat) : Outcome (List Char) :=
  if hi ≤ s.length then .ret (s.take hi) else .panic

/-- `PeerID: sid[:20]`, for the process id `pid` and the random number `r`. -/
def peerIDOf (pid r : Int) : Outcome (List Char) := sliceTo (sessionID pid r) 20

/-- A peer id `NewControlSession` does build is 20 bytes, the front of the session id. -/
theorem peerIDOf_eq_ret {pid r : Int} {id : List Char} (h : peerIDOf pid r = .ret id) :
    id.length = 20 ∧ id <+: sessionID pid r := by
  unfold peerIDOf sliceTo at h
  split at h <;> cases h
  exact ⟨List.length_take_of_le ‹_›, List.take_prefix _ _⟩

/-- `Itoa` of a number below `10 ^ a` writes at most `a` digits. -/
theorem length_itoa_le {n a : Nat} (h : n < 10 ^ a) (ha : 0 < a) : (Strconv.itoa n).length ≤ a := by
  simpa [Strconv.itoa] using Nat.toDigitsCore_length 10 (by decide) (n + 1) n a h ha

/-- `NewControlSession` panics when the process id and the random number have few digits: a
process id below `10 ^ a` and a random number below `10 ^ b` with `a + b ≤ 15` give a session id
of at most 19 bytes, and `sid[:20]` is out of range. -/
theorem peerID_short_session_id_panics (pid r a b : Nat) (hpid : pid < 10 ^ a) (hr : r < 10 ^ b)
    (ha : 0 < a) (hb : 0 < b) (hab : a + b ≤ 15) : peerIDOf pid r = .panic := by
  have h₁ := length_itoa_le hpid ha
  have h₂ := length_itoa_le hr hb
  have hlen : ¬ 20 ≤ (sessionID pid r).length := by simp [sessionID]; omega
  simp only [peerIDOf, sliceTo, hlen, if_false]

/-- Process `4242` panics at start when `rand.Int63` returns `7`. -/
theorem peerID_short_session_id_panics_pid4242 :
    4242 < 10 ^ 4 ∧ 7 < 10 ^ 1 ∧ peerIDOf (4242 : Nat) (7 : Nat) = .panic :=
  ⟨by decide, by decide, peerID_short_session_id_panics 4242 7 4 1 (by decide) (by decide)
    (by decide) (by decide) (by decide)⟩

/-! ### Advancing the revision -/

/-- `cs.broadcast(ih)`: send the `IHMessage` to every peer that announced `bs_metadata`. -/
def ControlSession.broadcast (cs : ControlSession) (ih : List Char) : ControlSession :=
  { cs with
    peers := cs.peers.map fun e =>
      (e.1, if (GoMap.get? e.2.theirExtensions "bs_metadata".toList).isSome then
        e.2.sendMessage (cs.ihMessage ih e.2) else e.2) }

/-- The revision `SetCurrent` computes from the old revision `rev` and the new info-hash `ih`:
the counter plus one, `-`, and the hex SHA-1 of `ih` followed by the old hash. -/
def nextRev (sha1 : List UInt8 → List UInt8) (rev ih : List Char) : List Char :=
  let parts := Strings.split rev '-'
  let parts := if parts.length ≠ 2 then ["0".toList, []] else parts
  let counter := (Strconv.atoi (parts.getD 0 [])).getD 0
  Strconv.itoa (wrapInt64 (counter + 1)) ++ '-' :: Hex.encode (sha1 (bytesOf (ih ++ parts.getD 1 [])))

/-- `cs.SetCurrent(ih)`: the new session and world, or `panic` when `os.Create` fails and
`log.Fatal` ends the program. -/
def setCurrent (sha1 : List UInt8 → List UInt8) (cs : ControlSession) (ih : List Char)
    (w : World) : Outcome (ControlSession × World) :=
  let cs := { cs with currentIH := ih, rev := nextRev sha1 cs.rev ih }
  let path := Path.join [cs.bitshareDir, "current".toList]
  match w.create path with
  | (some _, _) => .panic
  | (none, w) =>
    let mess := newIHMessage cs.port cs.currentIH [] cs.rev
    .ret (cs.broadcast ih, (w.writeAt path (bytesOf (encode mess.toBValue)) 0).2)

/-! ### The sub-identifier of the `bs_metadata` frames -/

/-- The sub-identifier of a frame `ihMessage` builds: the code the peer gave `bs_metadata`, modulo
256, and `0` when it gave none. -/
theorem ihMessage_subId (cs : ControlSession) (ih : List Char) (ps : PeerState) :
    (cs.ihMessage ih ps)[1]? = some (goByte ((GoMap.get? ps.theirExtensions "bs_metadata".toList).getD 0)) :=
  rfl

/-- `DoHandshake` and `broadcast` frame the `IHMessage` under sub-identifier `0`, the id of the
extension handshake, whenever the peer's code for `bs_metadata` is a multiple of 256, and
`DoHandshake` also when the peer gave no code: it sends to every peer whose handshake decodes,
and `broadcast` sends to every peer that named `bs_metadata`, whatever the code. -/
theorem ihMessage_framed_as_handshake (cs : ControlSession) (p : PeerState) :
    (∀ (b : UInt8) (body : List UInt8) (h : ExtensionHandshake),
      decodeInto ExtensionHandshake.ofBValue (stringOf body) = .ok h →
      ∃ p' frame, doHandshake cs (b :: body) p = .ret ⟨none, cs, p'⟩ ∧ p'.outbox = p.outbox ++ [frame] ∧
        (frame[1]? = some extensionHandshake ↔ (GoMap.get? h.m "bs_metadata".toList).getD 0 % 256 = 0)) ∧
    ∀ (ih k : List Char) (q : PeerState) (c : Int), (k, q) ∈ cs.peers →
      GoMap.get? q.theirExtensions "bs_metadata".toList = some c →
      ∃ q' frame, (k, q') ∈ (cs.broadcast ih).peers ∧ q'.outbox = q.outbox ++ [frame] ∧
        (frame[1]? = some extensionHandshake ↔ c % 256 = 0) := by
  refine ⟨fun b body h hd => ⟨_, _, doHandshake_of_decode cs p hd, rfl, ?_⟩,
    fun ih k q c hq hc => ⟨_, cs.ihMessage ih q, List.mem_map_of_mem _ hq,
      by dsimp only; rw [if_pos (by rw [hc]; rfl)]; rfl, ?_⟩⟩
  · rw [ihMessage_subId, Option.some_inj]
    exact goByte_eq_zero_iff _
  · rw [ihMessage_subId, hc, Option.some_inj]
    exact goByte_eq_zero_iff _

/-- A peer whose extension handshake is the empty dictionary gets the `IHMessage` framed with
sub-identifier `0`. -/
example (cs : ControlSession) (p : PeerState) :
    doHandshake cs (0 :: bytesOf "de".toList) p = .ret ⟨none, cs, { p with theirExtensions := [] }.sendMessage
      (extension :: 0 :: bytesOf (encode (newIHMessage cs.port cs.currentIH [] cs.rev).toBValue))⟩ :=
  rfl

/-! ### A restart after `SetCurrent` -/

theorem isBytes_nextRev (sha1 : List UInt8 → List UInt8) (rev ih : List Char) :
    IsBytes (nextRev sha1 rev ih) := by
  simp [nextRev, isBytes_itoa, isBytes_hex]

/-- What `readCurrent` reads from a file holding an encoded message of bytes. -/
theorem readCurrent_of_files {dir : List Char} {w : World} {m : IHMessage}
    (h : w.files (Path.join [dir, "current".toList]) = some (bytesOf (encode m.toBValue)))
    (hm : IsBytes m.info.infoHash ∧ IsBytes m.info.rev ∧ IsBytes m.sig)
    (hp₁ : -2 ^ 63 ≤ m.port) (hp₂ : m.port < 2 ^ 63) : readCurrent dir w = m := by
  have hs := stringOf_bytesOf (isBytes_encode_ihMessage hm.1 hm.2.1 hm.2.2)
  have hd := decodeInto_encode IHMessage.ofBValue m.toBValue []
  rw [List.append_nil, IHMessage.ofBValue_toBValue hp₁ hp₂] at hd
  simp only [readCurrent, h, hs, hd]
  rfl

/-- With no faults, `SetCurrent` returns and leaves `{dir}/current` holding the encoded message
with the new info-hash and revision. -/
theorem setCurrent_of_faults_nil (sha1 : List UInt8 → List UInt8) (cs : ControlSession)
    (ih : List Char) {w : World} (hf : w.faults = []) :
    ∃ cs' w', setCurrent sha1 cs ih w = .ret (cs', w') ∧ cs'.currentIH = ih ∧
      cs'.rev = nextRev sha1 cs.rev ih ∧
      w'.files (Path.join [cs.bitshareDir, "current".toList]) =
        some (bytesOf (encode (newIHMessage cs.port ih [] (nextRev sha1 cs.rev ih)).toBValue)) ∧
      w'.faults = [] := by
  have hc := World.nextFault_of_faults_nil w hf (.create (Path.join [cs.bitshareDir, "current".toList]))
  refine ⟨_, _, by simp only [setCurrent, World.create, hc]; rfl, rfl, rfl, ?_, ?_⟩
  · simp [World.writeAt, World.splice]
  · simp [World.writeAt, hf]

/-- After `SetCurrent` in a world where no call fails, a restart on the same directory reads
back the new info-hash, and the new revision as `restoreRev` leaves it. -/
theorem setCurrent_restart (sha1 : List UInt8 → List UInt8) (cs : ControlSession) (ih : List Char)
    {w : World} (hf : w.faults = []) (hih : IsBytes ih) (hp₁ : -2 ^ 63 ≤ cs.port)
    (hp₂ : cs.port < 2 ^ 63) (peerID : List Char) (port : Int) :
    ∃ cs' w', setCurrent sha1 cs ih w = .ret (cs', w') ∧ cs'.rev = nextRev sha1 cs.rev ih ∧
      (newControlSession peerID port cs.bitshareDir w').currentIH = ih ∧
      (newControlSession peerID port cs.bitshareDir w').rev = restoreRev (nextRev sha1 cs.rev ih) := by
  obtain ⟨cs', w', h, -, hrev, hfile, -⟩ := setCurrent_of_faults_nil sha1 cs ih hf
  have hr := readCurrent_of_files hfile ⟨hih, isBytes_nextRev _ _ _, isBytes_nil⟩ hp₁ hp₂
  exact ⟨cs', w', h, hrev, by simp [newControlSession, hr, newIHMessage],
    by simp [newControlSession, hr, newIHMessage]⟩

/-- From the revision `"0-"`, `SetCurrent` writes counter 1 and the hash of the info-hash
alone. -/
theorem nextRev_zero (sha1 : List UInt8 → List UInt8) (ih : List Char) :
    nextRev sha1 "0-".toList ih = "1-".toList ++ Hex.encode (sha1 (bytesOf ih)) := by
  have hs : Strings.split "0-".toList '-' = ["0".toList, []] := by decide
  have hc : Strconv.itoa (wrapInt64 ((Strconv.atoi "0".toList).getD 0 + 1)) = "1".toList := by
    decide
  unfold nextRev
  rw [hs]
  simp only [List.length_cons, List.length_nil, ne_eq, not_true_eq_false, if_false,
    List.getD_cons_zero, List.getD_cons_succ, hc, List.append_nil]
  rfl

/-- Without a `current` file a session starts from `"0-"`. -/
theorem newControlSession_rev_of_none {peerID dir : List Char} {port : Int} {w : World}
    (h : w.files (Path.join [dir, "current".toList]) = none) :
    (newControlSession peerID port dir w).rev = "0-".toList := by
  have hr : readCurrent dir w = ⟨⟨[], []⟩, 0, []⟩ := by unfold readCurrent; rw [h]
  show restoreRev (readCurrent dir w).info.rev = _
  rw [hr]
  rfl

/-- A revision survives no restart when its hash has no digit `2`: from a fresh directory,
`SetCurrent(ih)` persists `"1-<hash>"` and the info-hash, a restart reads the info-hash back but
starts from `"0-"`, and its next `SetCurrent` writes counter 1 again and a hash that does not
chain the persisted one. -/
theorem restart_forgets_revision (sha1 : List UInt8 → List UInt8) (peerID : List Char) (port : Int)
    (dir ih : List Char) {w : World} (hcur : w.files (Path.join [dir, "current".toList]) = none)
    (hf : w.faults = []) (hih : IsBytes ih) (hp₁ : -2 ^ 63 ≤ port) (hp₂ : port < 2 ^ 63)
    (h2 : '2' ∉ Hex.encode (sha1 (bytesOf ih))) :
    ∃ cs' w', setCurrent sha1 (newControlSession peerID port dir w) ih w = .ret (cs', w') ∧
      cs'.rev = "1-".toList ++ Hex.encode (sha1 (bytesOf ih)) ∧
      (newControlSession peerID port dir w').currentIH = ih ∧
      (newControlSession peerID port dir w').rev = "0-".toList ∧
      ∀ ih', nextRev sha1 (newControlSession peerID port dir w').rev ih' =
        "1-".toList ++ Hex.encode (sha1 (bytesOf ih')) := by
  obtain ⟨cs', w', h, hrev, hih', hrev'⟩ :=
    setCurrent_restart sha1 (newControlSession peerID port dir w) ih hf hih hp₁ hp₂ peerID port
  change (newControlSession peerID port dir w').currentIH = ih at hih'
  change (newControlSession peerID port dir w').rev = _ at hrev'
  rw [newControlSession_rev_of_none hcur, nextRev_zero] at hrev hrev'
  have hr : restoreRev ("1-".toList ++ Hex.encode (sha1 (bytesOf ih))) = "0-".toList :=
    restoreRev_of_two_not_mem (by simp [h2])
  refine ⟨cs', w', h, hrev, hih', hrev'.trans hr, fun ih' => ?_⟩
  rw [hrev'.trans hr, nextRev_zero]

/-! ### The revision over a run of `SetCurrent` -/

/-- `SetCurrent` on the info-hashes `ihs` in turn, `panic` as soon as a call ends the program. -/
def setCurrentAll (sha1 : List UInt8 → List UInt8) :
    ControlSession → List (List Char) → World → Outcome (ControlSession × World)
  | cs, [], w => .ret (cs, w)
  | cs, ih :: ihs, w =>
    match setCurrent sha1 cs ih w with
    | .ret (cs, w) => setCurrentAll sha1 cs ihs w
    | .panic => .panic

/-- The hash a revision chains: the hex SHA-1 of the new info-hash followed by the old hash. -/
def hashStep (sha1 : List UInt8 → List UInt8) (h ih : List Char) : List Char :=
  Hex.encode (sha1 (bytesOf (ih ++ h)))

/-- The hash part `H_N` of the revision after the info-hashes `ihs`, from the empty hash. -/
def revHash (sha1 : List UInt8 → List UInt8) (ihs : List (List Char)) : List Char :=
  ihs.foldl (hashStep sha1) []

theorem setCurrent_rev {sha1 : List UInt8 → List UInt8} {cs cs' : ControlSession} {ih : List Char}
    {w w' : World} (h : setCurrent sha1 cs ih w = .ret (cs', w')) : cs'.rev = nextRev sha1 cs.rev ih := by
  unfold setCurrent at h
  dsimp only at h
  split at h <;> cases h
  rfl

/-- A run of `SetCurrent` that returns folds `nextRev` over the info-hashes. -/
theorem setCurrentAll_rev (sha1 : List UInt8 → List UInt8) :
    ∀ (ihs : List (List Char)) (cs cs' : ControlSession) (w w' : World),
      setCurrentAll sha1 cs ihs w = .ret (cs', w') → cs'.rev = ihs.foldl (nextRev sha1) cs.rev
  | [], cs, cs', w, w', h => by cases h; rfl
  | ih :: ihs, cs, cs', w, w', h => by
    unfold setCurrentAll at h
    split at h
    · next cs₁ w₁ h₁ => rw [setCurrentAll_rev sha1 ihs cs₁ cs' w₁ w' h, setCurrent_rev h₁]; rfl
    · cases h

/-- With no faults, a run of `SetCurrent` returns. -/
theorem setCurrentAll_of_faults_nil (sha1 : List UInt8 → List UInt8) :
    ∀ (ihs : List (List Char)) (cs : ControlSession) (w : World), w.faults = [] →
      ∃ cs' w', setCurrentAll sha1 cs ihs w = .ret (cs', w')
  | [], cs, w, _ => ⟨cs, w, rfl⟩
  | ih :: ihs, cs, w, hf => by
    obtain ⟨cs₁, w₁, h₁, -, -, -, hf₁⟩ := setCurrent_of_faults_nil sha1 cs ih hf
    simp only [setCurrentAll, h₁]
    exact setCurrentAll_of_faults_nil sha1 ihs cs₁ w₁ hf₁

theorem hyphen_not_mem_itoa {n : Int} (h : 0 ≤ n) : '-' ∉ Strconv.itoa n := by
  have hd := (Strconv.toDigits_spec n.natAbs).2.1
  simp only [Strconv.itoa, show ¬ n < 0 by omega, if_false]
  exact fun hm => absurd (List.all_eq_true.mp hd _ hm) (by decide)

theorem digitChar_ne_hyphen : ∀ k < 16, Nat.digitChar k ≠ '-' := by decide

theorem hyphen_not_mem_hex (b : List UInt8) : '-' ∉ Hex.encode b := by
  intro hm
  obtain ⟨x, -, hx⟩ := List.mem_flatMap.mp hm
  have := x.toNat_lt
  rcases List.mem_pair.mp hx with h | h
  · exact digitChar_ne_hyphen _ (by omega) h.symm
  · exact digitChar_ne_hyphen _ (Nat.mod_lt _ (by decide)) h.symm

/-- `Split(rev, "-")` takes apart a revision `SetCurrent` printed. -/
theorem split_itoa_hyphen {n : Int} (hn : 0 ≤ n) {h : List Char} (hh : '-' ∉ h) :
    Strings.split (Strconv.itoa n ++ '-' :: h) '-' = [Strconv.itoa n, h] := by
  unfold Strings.split List.splitOn
  rw [List.splitOnP_first (· == '-') _ (fun x hx hx' => hyphen_not_mem_itoa hn ((beq_iff_eq.mp hx' : x = '-') ▸ hx))
    '-' (by decide), List.splitOnP_eq_single _ _ fun x hx hx' => hh ((beq_iff_eq.mp hx' : x = '-') ▸ hx)]

/-- One `SetCurrent` on a revision it printed: the counter goes up by one and the hash chains. -/
theorem nextRev_itoa (sha1 : List UInt8 → List UInt8) {n : Int} (h₀ : 0 ≤ n) (h₁ : n + 1 < 2 ^ 63)
    {h : List Char} (hh : '-' ∉ h) (ih : List Char) :
    nextRev sha1 (Strconv.itoa n ++ '-' :: h) ih = Strconv.itoa (n + 1) ++ '-' :: hashStep sha1 h ih := by
  simp only [nextRev, split_itoa_hyphen h₀ hh, List.length_cons, List.length_singleton,
    List.length_nil, ne_eq, not_true_eq_false, if_false, List.getD_cons_zero, List.getD_cons_succ,
    Strconv.atoi_itoa (by omega : -2 ^ 63 ≤ n) (by omega), Option.getD_some,
    wrapInt64_of_mem (by omega : -2 ^ 63 ≤ n + 1) h₁, hashStep]

/-- The fold of `nextRev` from a printed revision adds the number of calls to the counter. -/
theorem foldl_nextRev (sha1 : List UInt8 → List UInt8) :
    ∀ (ihs : List (List Char)) {n : Int} {h : List Char}, 0 ≤ n → n + ihs.length < 2 ^ 63 →
      '-' ∉ h → ihs.foldl (nextRev sha1) (Strconv.itoa n ++ '-' :: h) =
        Strconv.itoa (n + ihs.length) ++ '-' :: ihs.foldl (hashStep sha1) h
  | [], _, _, _, _, _ => by simp
  | ih :: ihs, n, h, h₀, h₁, hh => by
    simp only [List.foldl_cons, List.length_cons] at h₁ ⊢
    rw [nextRev_itoa sha1 h₀ (by omega) hh, foldl_nextRev sha1 ihs (by omega) (by omega)
      (show '-' ∉ hashStep sha1 h ih from hyphen_not_mem_hex _)]
    push_cast
    ring_nf

/-- `SetCurrent` parses back what it printed: from the revision `"0-"`, a run of `N < 2^63` calls
that returns leaves the revision `N-H_N`, where `H_N` chains the hex SHA-1 of each info-hash
with the hash before it; with no faults the run returns. -/
theorem setCurrent_counts_calls (sha1 : List UInt8 → List UInt8) (cs : ControlSession)
    (hrev : cs.rev = "0-".toList) (ihs : List (List Char)) (hN : ihs.length < 2 ^ 63) (w : World) :
    (∀ cs' w', setCurrentAll sha1 cs ihs w = .ret (cs', w') →
      cs'.rev = Strconv.itoa ihs.length ++ '-' :: revHash sha1 ihs) ∧
      (w.faults = [] → ∃ cs' w', setCurrentAll sha1 cs ihs w = .ret (cs', w')) := by
  refine ⟨fun cs' w' h => ?_, setCurrentAll_of_faults_nil sha1 ihs cs w⟩
  have h0 : "0-".toList = Strconv.itoa 0 ++ '-' :: [] := by decide
  rw [setCurrentAll_rev sha1 ihs cs cs' w w' h, hrev, h0,
    foldl_nextRev sha1 ihs le_rfl (by omega) (List.not_mem_nil _), zero_add, revHash]

/-- A hash whose hex digest is forty `a`s. -/
def hashAA (_ : List UInt8) : List UInt8 := List.replicate 20 0xaa

/-- A world with no files and no faults. -/
def emptyWorld : World := ⟨fun _ => none, "/".toList, [], []⟩

theorem restart_forgets_revision_hashAA :
    ∃ cs' w', setCurrent hashAA (newControlSession "p".toList 4242 "/d".toList emptyWorld)
        "x".toList emptyWorld = .ret (cs', w') ∧
      cs'.rev = "1-".toList ++ Hex.encode (hashAA (bytesOf "x".toList)) ∧
      (newControlSession "p".toList 4242 "/d".toList w').currentIH = "x".toList ∧
      (newControlSession "p".toList 4242 "/d".toList w').rev = "0-".toList ∧
      ∀ ih', nextRev hashAA (newControlSession "p".toList 4242 "/d".toList w').rev ih' =
        "1-".toList ++ Hex.encode (hashAA (bytesOf ih')) :=
  restart_forgets_revision hashAA "p".toList 4242 "/d".toList "x".toList rfl rfl (by decide)
    (by decide) (by decide) (by decide)

theorem setCurrent_counts_calls_hashAA :
    (newControlSession "p".toList 4242 "/d".toList emptyWorld).rev = "0-".toList ∧
      ["x".toList, "y".toList].length < 2 ^ 63 ∧
      ∀ cs' w', setCurrentAll hashAA (newControlSession "p".toList 4242 "/d".toList emptyWorld)
          ["x".toList, "y".toList] emptyWorld = .ret (cs', w') →
        cs'.rev = "2-".toList ++ revHash hashAA ["x".toList, "y".toList] :=
  have hrev : (newControlSession "p".toList 4242 "/d".toList emptyWorld).rev = "0-".toList :=
    newControlSession_rev_of_none rfl
  ⟨hrev, by decide, (setCurrent_counts_calls hashAA _ hrev _ (by decide) emptyWorld).1⟩

end Rakoshare
