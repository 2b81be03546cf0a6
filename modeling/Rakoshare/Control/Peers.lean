import Rakoshare.Control.Revision

/-!
# The peer table of a control session

`ControlSession.Run` (`src/unnamed/part_000`, lines 161–265) is the session's event loop. Around
it, `connectToPeer`, `AcceptNewPeer`, `AddPeer` and `ClosePeer` (lines 287–380) open, admit and
close the connections to other peers, and keep the peer table `cs.peers`, keyed by address.

The model is a state machine. A state `Net` holds the session, the number of connections opened
or accepted so far, which of them are closed, the connector and acceptor goroutines that have not
returned, and the peers that left the table while their reader goroutine runs on. An `Event` is
one thing the environment does, with every outcome it chooses: DHT results or a tracker response,
the result of a dial or of a header exchange, a message a peer's reader delivers, a keep-alive
sweep with the peers that timed out, `Quit`. `AddPeer` is one atomic step. `Net.step` is a
function: `none` when the event cannot happen in the state, or when `DoMessage` panics and the
program ends.

A Go object is named by its connection: the peer the loop receives a message from is the one in
the table or among the peers that left it, and the changes its handler makes are written back to
that object. A connection is *owned* by the task that holds it, by the table entry whose peer it
is, or by a peer that left the table: `Net.owners`. The invariant `Net.Inv` says that no
connection has two owners and that the connections of tasks and entries are open. It does not
say that every connection has an owner or is closed: `AddPeer` returns without closing the
connection of a peer whose id is already in the table, and a peer replaced at its address, or
whose entry a later `ClosePeer` deletes, keeps its connection open outside the table.

`MAX_NUM_PEERS` is declared outside `src/`: it is the parameter `maxNumPeers`. The DHT node,
the extension handshake `AddPeer` sends, and the writer goroutines are not modelled.

## Main definitions

* `Task`, `HeaderResult`, `Event`, `Net`.
* `Net.addPeer`, `Net.closePeer`, `Net.connectToPeer`, `Net.acceptNewPeer`, `Net.receive`,
  `Net.keepAlive`, `Net.quit`, `Net.step`, `Net.run`.
* `Net.Inv`, and `Net.Accounted`: every connection whose task has returned is closed or the
  connection of exactly one entry.

## Main results

* `Net.Inv.step`, `Net.Inv.run`: every event, and so every run, keeps the invariant.
* `Net.Inv.sweep_eq`: over the invariant, a sweep closes the selected peers' connections and
  keeps the others in order.
* `peerTable_inv`: along every run from a new session, the table is keyed by its entries' own
  addresses, its peer ids are distinct, and its connections are open and owned once.
* `Net.length_run_le`, `peerTable_bounded`: with `AddPeer` atomic, no run takes the table past
  `maxNumPeers` entries.
* `peerTable_drops_connections`: runs that leave a connection open and out of the table, and
  one that admits a peer carrying the session's own peer id.
-/

namespace Rakoshare

/-! ### Go maps, continued -/

namespace GoMap

variable {κ α β : Type} [DecidableEq κ] {m : List (κ × α)} {k : κ} {v : α}

theorem set_eq (m : List (κ × α)) (k : κ) (v : α) : set m k v = (k, v) :: delete m k := rfl

theorem mem_delete {e : κ × α} : e ∈ delete m k ↔ e ∈ m ∧ e.1 ≠ k := by
  simp [delete]

theorem delete_sublist (m : List (κ × α)) (k : κ) : (delete m k).Sublist m :=
  List.filter_sublist m

theorem get?_mem (h : get? m k = some v) : (k, v) ∈ m := by
  simp only [get?, Option.map_eq_some'] at h
  obtain ⟨⟨k', v⟩, he, rfl⟩ := h
  obtain rfl : k' = k := by simpa using List.find?_some he
  exact List.mem_of_find?_eq_some he

theorem get?_of_mem (hm : (m.map Prod.fst).Nodup) (h : (k, v) ∈ m) : get? m k = some v := by
  induction m with
  | nil => cases h
  | cons e m ih =>
    obtain ⟨hk, hm⟩ := List.nodup_cons.1 hm
    rcases List.mem_cons.1 h with rfl | h
    · simp [get?]
    · have he : e.1 ≠ k := fun he => hk (he ▸ List.mem_map_of_mem Prod.fst h)
      simpa only [get?, List.find?_cons, he, decide_False] using ih hm h

theorem nodup_keys_delete (hm : (m.map Prod.fst).Nodup) (k : κ) :
    ((delete m k).map Prod.fst).Nodup :=
  ((delete_sublist m k).map Prod.fst).nodup hm

theorem nodup_keys_set (hm : (m.map Prod.fst).Nodup) (k : κ) (v : α) :
    ((set m k v).map Prod.fst).Nodup := by
  refine List.nodup_cons.2 ⟨fun hk => ?_, nodup_keys_delete hm k⟩
  obtain ⟨e, he, rfl⟩ := List.mem_map.1 hk
  exact (mem_delete.1 he).2 rfl

/-- With distinct keys, the values of a map are the value at `k`, if any, and the values of the
map without `k`. -/
theorem map_perm_get?_delete (hm : (m.map Prod.fst).Nodup) (f : α → β) (k : κ) :
    (m.map fun e => f e.2).Perm ((get? m k).toList.map f ++ (delete m k).map fun e => f e.2) := by
  induction m with
  | nil => exact .refl _
  | cons e m ih =>
    obtain ⟨hk, hm⟩ := List.nodup_cons.1 hm
    by_cases he : e.1 = k
    · subst he
      have hdel : delete (e :: m) e.1 = m := by
        rw [delete, List.filter_cons_of_neg (by simp), List.filter_eq_self]
        exact fun x hx => by
          simpa using fun h : x.1 = e.1 => hk (h ▸ List.mem_map_of_mem Prod.fst hx)
      rw [hdel, show get? (e :: m) e.1 = some e.2 by simp [get?]]
      exact .refl _
    · have hdel : delete (e :: m) k = e :: delete m k := List.filter_cons_of_pos (by simpa using he)
      have hget : get? (e :: m) k = get? m k := by simp only [get?, List.find?_cons, he, decide_False]
      rw [hdel, hget, List.map_cons, List.map_cons]
      exact ((ih hm).cons _).trans List.perm_middle.symm

end GoMap

/-! ### Tasks and events -/

/-- A `connectToPeer` or `AcceptNewPeer` goroutine that has not returned. -/
inductive Task where
  /-- `connectToPeer(peer)` waiting for `NewTCPConn(peer)`. -/
  | connect (peer : List Char)
  /-- `connectToPeer` exchanging headers on the connection it opened. -/
  | handshake (conn : Conn)
  /-- `AcceptNewPeer(btconn)` on an accepted connection whose header named the peer id `id`. -/
  | accept (conn : Conn) (id : List Char)
  deriving DecidableEq, Repr

/-- The number of the connection a task holds. -/
def Task.connId? : Task → Option Nat
  | .connect _ => none
  | .handshake conn => some conn.id
  | .accept conn _ => some conn.id

/-- How the header exchange of `connectToPeer` ends: writing our header fails, reading theirs
fails, or their header arrives, naming the remote peer id (its bytes 28 to 48). -/
inductive HeaderResult where
  | writeFailed
  | readFailed
  | header (id : List Char)
  deriving DecidableEq, Repr

/-- One thing that happens to the session, with every outcome the environment chooses. -/
inductive Event where
  /-- DHT results, decoded, or the addresses of a tracker response (`Peers`, then `Peers6`). -/
  | peersFound (peers : List (List Char))
  /-- `NewTCPConn(peer)` fails in a connector for `peer`. -/
  | dialFailed (peer : List Char)
  /-- `NewTCPConn(peer)` connects; `RemoteAddr().String()` of the connection, and its IP. -/
  | dialed (peer remoteAddr ip : List Char)
  /-- The connector holding `conn` ends its header exchange. -/
  | exchanged (conn : Conn) (result : HeaderResult)
  /-- The listener accepts a connection from `remoteAddr` whose header names the peer id `id`. -/
  | accepted (remoteAddr ip id : List Char)
  /-- `AcceptNewPeer` on `conn` writes our header, successfully or not. -/
  | headerWritten (conn : Conn) (id : List Char) (written : Bool)
  /-- The reader of the peer on connection `conn` delivers `message`; `none` when it exits. -/
  | message (conn : Nat) (message : Option (List UInt8))
  /-- A tick of `keepAliveChan`; the peers on the connections `timedOut` are those the keep-alive
  test selects (`Net.keepAliveAt`). -/
  | keepAlive (timedOut : List Nat)
  /-- `Quit`. -/
  | quit
  deriving Repr

/-! ### The state -/

/-- The session, and the connections and goroutines around its peer table. -/
structure Net where
  cs : ControlSession
  /-- How many connections were opened or accepted; they are numbered from 0. -/
  opened : Nat
  /-- The connections closed so far. -/
  closed : List Nat
  /-- The connector and acceptor goroutines that have not returned. -/
  tasks : List Task
  /-- The peers that left the table while their reader goroutine runs on. -/
  detached : List PeerState
  deriving Repr

namespace Net

/-- A session with no connection and no goroutine. -/
def init (cs : ControlSession) : Net := ⟨cs, 0, [], [], []⟩

/-- The connections held by the connector and acceptor goroutines. -/
def taskConns (n : Net) : List Nat := n.tasks.filterMap Task.connId?

/-- The connections of the table's entries. -/
def tableConns (n : Net) : List Nat := n.cs.peers.map (·.2.conn.id)

/-- The connections of goroutines and of entries: those that must be open. -/
def live (n : Net) : List Nat := n.taskConns ++ n.tableConns

/-- Every holder of a connection: goroutines, entries, and peers that left the table. -/
def owners (n : Net) : List Nat := n.live ++ n.detached.map (·.conn.id)

/-- The peer whose reader runs on connection `k`: in the table, or one that left it. -/
def peer? (n : Net) (k : Nat) : Option PeerState :=
  (n.cs.peers.map Prod.snd ++ n.detached).find? (·.conn.id = k)

end Net

/-- `q`, with the fields a handler writes taken from `p` when `p` is the same object. -/
def PeerState.writeBack (q p : PeerState) : PeerState :=
  if q.conn.id = p.conn.id then { q with theirExtensions := p.theirExtensions, outbox := p.outbox }
  else q

@[simp] theorem PeerState.writeBack_address (q p : PeerState) : (q.writeBack p).address = q.address := by
  unfold writeBack; split <;> rfl

@[simp] theorem PeerState.writeBack_id (q p : PeerState) : (q.writeBack p).id = q.id := by
  unfold writeBack; split <;> rfl

@[simp] theorem PeerState.writeBack_conn (q p : PeerState) : (q.writeBack p).conn = q.conn := by
  unfold writeBack; split <;> rfl

/-! ### The operations -/

namespace Net

/-- `conn.Close()` on connection `k`. -/
def close (n : Net) (k : Nat) : Net := { n with closed := k :: n.closed }

/-- The goroutine `t` returns, or moves past the stage `t` names. -/
def finish (n : Net) (t : Task) : Net := { n with tasks := n.tasks.erase t }

/-- A goroutine starts, at stage `t`. -/
def spawn (n : Net) (t : Task) : Net := { n with tasks := n.tasks ++ [t] }

/-- A new connection from `remoteAddr`, numbered next. -/
def newConn (n : Net) (remoteAddr ip : List Char) : Conn := ⟨n.opened, remoteAddr, ip⟩

/-- A connection is opened or accepted. -/
def openConn (n : Net) : Net := { n with opened := n.opened + 1 }

/-- The loop's answer to DHT results or a tracker response: `go cs.connectToPeer(peer)` for each
address that is not a key of the table. -/
def hint (n : Net) (peers : List (List Char)) : Net :=
  { n with tasks := n.tasks ++ (peers.filter fun peer => (GoMap.get? n.cs.peers peer).isNone).map .connect }

/-- `NewTCPConn(peer)` connects: the connector goes on to the header exchange on the new
connection. -/
def dial (n : Net) (peer remoteAddr ip : List Char) : Net :=
  (n.finish (.connect peer)).openConn.spawn (.handshake (n.newConn remoteAddr ip))

/-- The listener accepts a connection and starts `AcceptNewPeer` on it. -/
def acceptConn (n : Net) (remoteAddr ip id : List Char) : Net :=
  n.openConn.spawn (.accept (n.newConn remoteAddr ip) id)

/-- `cs.ClosePeer(peer)`: close the peer's connection and delete the table's entry at the peer's
address. The entry deleted, the peer itself or another one stored at that address, leaves the
table; its reader runs on. -/
def closePeer (n : Net) (peer : PeerState) : Net :=
  { n with
    closed := peer.conn.id :: n.closed
    cs := { n.cs with peers := GoMap.delete n.cs.peers peer.address }
    detached := (GoMap.get? n.cs.peers peer.address).toList ++ n.detached }

/-- Write back to the peer on `peer.conn` the changes a handler made to it. -/
def update (n : Net) (peer : PeerState) : Net :=
  { n with
    cs := { n.cs with peers := n.cs.peers.map fun e => (e.1, e.2.writeBack peer) }
    detached := n.detached.map (·.writeBack peer) }

/-- One iteration of a sweep over the table: `ClosePeer` on the entry at `e.1` if it is still
there and `timedOut` selects it. -/
def sweepStep (timedOut : PeerState → Bool) (n : Net) (e : List Char × PeerState) : Net :=
  match GoMap.get? n.cs.peers e.1 with
  | some peer => if timedOut peer then n.closePeer peer else n
  | none => n

/-- A `for _, peer := range cs.peers` loop calling `ClosePeer` on the peers `timedOut` selects.
An entry an earlier iteration deleted is not reached. -/
def sweep (n : Net) (timedOut : PeerState → Bool) : Net :=
  n.cs.peers.foldl (sweepStep timedOut) n

/-- The loop's `keepAliveChan` case. -/
def keepAlive (n : Net) (timedOut : List Nat) : Net := n.sweep fun peer => timedOut.contains peer.conn.id

/-- `cs.Quit()`: `ClosePeer` on every peer of the table. -/
def quit (n : Net) : Net := n.sweep fun _ => true

/-- The loop's `peerMessageChan` case: `DoMessage`, then `ClosePeer` when it returns an error.
A panic ends the program: no state follows. -/
def receive (n : Net) (peer : PeerState) (message : Option (List UInt8)) : Option Net :=
  match doMessage n.cs peer message with
  | .panic => none
  | .ret h =>
    let n := { n with cs := h.cs }.update h.p
    some (if h.err.isSome then n.closePeer h.p else n)

section Admission

variable (maxNumPeers : Nat)

/-- `cs.peers[peer] = ps` in `AddPeer`: the new peer on `conn`, with the peer id `id`, is stored
at `RemoteAddr().String()`; a peer stored there before leaves the table, its reader running on. -/
def storePeer (n : Net) (conn : Conn) (id : List Char) : Net :=
  let peer := conn.remoteAddr
  { n with
    cs := { n.cs with peers := GoMap.set n.cs.peers peer (PeerState.new peer id conn) }
    detached := (GoMap.get? n.cs.peers peer).toList ++ n.detached }

/-- `cs.AddPeer(btconn)` for the connection `conn`, whose remote peer id is `id`. A peer with
that id in the table makes it return, leaving the connection open; a full table closes the
connection; otherwise the new peer is stored. -/
def addPeer (n : Net) (conn : Conn) (id : List Char) : Net :=
  if n.cs.peers.any (·.2.id = id) then n
  else if maxNumPeers ≤ n.cs.peers.length then n.close conn.id
  else n.storePeer conn id

/-- `connectToPeer` after its connection `conn` is open: a failed header write or read returns,
leaving the connection open; a header with our own peer id closes it; any other is `AddPeer`. -/
def connectToPeer (n : Net) (conn : Conn) : HeaderResult → Net
  | .writeFailed | .readFailed => n
  | .header id => if id = n.cs.peerID then n.close conn.id else n.addPeer maxNumPeers conn id

/-- `AcceptNewPeer(btconn)` once it has written our header, or failed to and returned. -/
def acceptNewPeer (n : Net) (conn : Conn) (id : List Char) (written : Bool) : Net :=
  if written then n.addPeer maxNumPeers conn id else n

/-- One event. -/
def step (n : Net) : Event → Option Net
  | .peersFound peers => some (n.hint peers)
  | .dialFailed peer => if .connect peer ∈ n.tasks then some (n.finish (.connect peer)) else none
  | .dialed peer remoteAddr ip =>
    if .connect peer ∈ n.tasks then some (n.dial peer remoteAddr ip) else none
  | .exchanged conn result =>
    if .handshake conn ∈ n.tasks then
      some ((n.finish (.handshake conn)).connectToPeer maxNumPeers conn result)
    else none
  | .accepted remoteAddr ip id => some (n.acceptConn remoteAddr ip id)
  | .headerWritten conn id written =>
    if .accept conn id ∈ n.tasks then
      some ((n.finish (.accept conn id)).acceptNewPeer maxNumPeers conn id written)
    else none
  | .message k message => (n.peer? k).bind fun peer => n.receive peer message
  | .keepAlive timedOut => some (n.keepAlive timedOut)
  | .quit => some n.quit

/-- A run: the events one after the other, `none` as soon as one cannot happen. -/
def run (n : Net) : List Event → Option Net
  | [] => some n
  | e :: es => (n.step maxNumPeers e).bind fun n => n.run es

end Admission

/-! ### The invariant -/

/-- The invariant of the peer table and of the connections around it. -/
structure Inv (n : Net) : Prop where
  /-- Every entry is stored under its own address. -/
  address_eq : ∀ e ∈ n.cs.peers, e.2.address = e.1
  keys_nodup : (n.cs.peers.map Prod.fst).Nodup
  /-- No two entries share a peer id. -/
  ids_nodup : (n.cs.peers.map (·.2.id)).Nodup
  /-- No connection has two owners. -/
  owners_nodup : n.owners.Nodup
  owners_lt : ∀ k ∈ n.owners, k < n.opened
  closed_lt : ∀ k ∈ n.closed, k < n.opened
  /-- The connections of goroutines and of entries are open. -/
  live_open : ∀ k ∈ n.live, k ∉ n.closed

/-- A connection that was opened, has no owner and is not closed: one a step may hand over. -/
def Free (n : Net) (k : Nat) : Prop := k < n.opened ∧ k ∉ n.owners ∧ k ∉ n.closed

variable {n : Net}

theorem inv_init {cs : ControlSession} (h : cs.peers = []) : (init cs).Inv where
  address_eq := by simp [init, h]
  keys_nodup := by simp [init, h]
  ids_nodup := by simp [init, h]
  owners_nodup := by simp [init, owners, live, taskConns, tableConns, h]
  owners_lt := by simp [init, owners, live, taskConns, tableConns, h]
  closed_lt := by simp [init]
  live_open := by simp [init]

theorem live_subset_owners {k : Nat} (h : k ∈ n.live) : k ∈ n.owners := List.mem_append_left _ h

/-! #### Goroutines -/

theorem owners_finish {t : Task} (ht : t ∈ n.tasks) :
    n.owners.Perm (t.connId?.toList ++ (n.finish t).owners) := by
  have h := (List.perm_cons_erase ht).filterMap Task.connId?
  simp only [owners, live, taskConns, finish]
  cases hc : t.connId? <;> simp only [List.filterMap_cons, hc] at h
  · simpa using (h.append_right _).append_right _
  · simpa using (h.append_right _).append_right _

theorem live_finish_subset (t : Task) : (n.finish t).live ⊆ n.live :=
  ((List.erase_sublist t n.tasks).filterMap _).append_right _ |>.subset

theorem Inv.finish (hi : n.Inv) {t : Task} (ht : t ∈ n.tasks) : (n.finish t).Inv where
  address_eq := hi.address_eq
  keys_nodup := hi.keys_nodup
  ids_nodup := hi.ids_nodup
  owners_nodup := ((owners_finish ht).nodup_iff.1 hi.owners_nodup).of_append_right
  owners_lt k hk := hi.owners_lt k ((owners_finish ht).mem_iff.2 (List.mem_append_right _ hk))
  closed_lt := hi.closed_lt
  live_open k hk := hi.live_open k (live_finish_subset t hk)

/-- The connection of a goroutine that moves on is free. -/
theorem Inv.free_finish (hi : n.Inv) {t : Task} (ht : t ∈ n.tasks) {k : Nat}
    (hk : t.connId? = some k) : (n.finish t).Free k := by
  have hp := owners_finish ht
  rw [hk] at hp
  refine ⟨hi.owners_lt k (hp.mem_iff.2 (List.mem_cons_self _ _)),
    (List.nodup_cons.1 (hp.nodup_iff.1 hi.owners_nodup)).1, hi.live_open k ?_⟩
  exact List.mem_append_left _ (List.mem_filterMap.2 ⟨t, ht, hk⟩)

theorem live_spawn (t : Task) : (n.spawn t).live.Perm (t.connId?.toList ++ n.live) := by
  cases h : t.connId? <;> simp [live, taskConns, tableConns, Net.spawn, h, List.perm_middle]

theorem owners_spawn (t : Task) : (n.spawn t).owners.Perm (t.connId?.toList ++ n.owners) := by
  show ((n.spawn t).live ++ n.detached.map _).Perm _
  simpa only [owners, List.append_assoc] using (live_spawn t).append_right _

theorem Inv.spawn (hi : n.Inv) {t : Task} (hf : ∀ k ∈ t.connId?, n.Free k) : (n.spawn t).Inv := by
  refine ⟨hi.address_eq, hi.keys_nodup, hi.ids_nodup, ?_, ?_, hi.closed_lt, ?_⟩
  · refine (owners_spawn t).nodup_iff.2 ?_
    cases hc : t.connId? with
    | none => exact hi.owners_nodup
    | some k => exact List.nodup_cons.2 ⟨(hf k hc).2.1, hi.owners_nodup⟩
  · intro k hk
    rcases List.mem_append.1 ((owners_spawn t).mem_iff.1 hk) with hk | hk
    · exact (hf k (Option.mem_toList.1 hk)).1
    · exact hi.owners_lt k hk
  · intro k hk
    rcases List.mem_append.1 ((live_spawn t).mem_iff.1 hk) with hk | hk
    · exact (hf k (Option.mem_toList.1 hk)).2.2
    · exact hi.live_open k hk

theorem Inv.openConn (hi : n.Inv) : n.openConn.Inv where
  address_eq := hi.address_eq
  keys_nodup := hi.keys_nodup
  ids_nodup := hi.ids_nodup
  owners_nodup := hi.owners_nodup
  owners_lt k hk := Nat.lt_succ_of_lt (hi.owners_lt k hk)
  closed_lt k hk := Nat.lt_succ_of_lt (hi.closed_lt k hk)
  live_open := hi.live_open

/-- The connection just opened is free. -/
theorem Inv.free_openConn (hi : n.Inv) : n.openConn.Free n.opened :=
  ⟨Nat.lt_succ_self _, fun h => Nat.lt_irrefl _ (hi.owners_lt _ h),
    fun h => Nat.lt_irrefl _ (hi.closed_lt _ h)⟩

theorem Inv.hint (hi : n.Inv) (peers : List (List Char)) : (n.hint peers).Inv := by
  have ht : (n.hint peers).taskConns = n.taskConns := by
    simp [taskConns, Net.hint, List.filterMap_map, Function.comp_def, Task.connId?]
  have ho : (n.hint peers).owners = n.owners := by
    simp only [owners, live, ht]; rfl
  refine ⟨hi.address_eq, hi.keys_nodup, hi.ids_nodup, ho ▸ hi.owners_nodup, ho ▸ hi.owners_lt,
    hi.closed_lt, ?_⟩
  intro k hk
  exact hi.live_open k (by simpa only [live, ht] using hk)

theorem Inv.dial (hi : n.Inv) {peer : List Char} (ht : .connect peer ∈ n.tasks)
    (remoteAddr ip : List Char) : (n.dial peer remoteAddr ip).Inv :=
  (hi.finish ht).openConn.spawn fun _ hk => by
    cases hk
    exact (hi.finish ht).free_openConn

theorem Inv.acceptConn (hi : n.Inv) (remoteAddr ip id : List Char) :
    (n.acceptConn remoteAddr ip id).Inv :=
  hi.openConn.spawn fun _ hk => by
    cases hk
    exact hi.free_openConn

/-! #### Closing -/

theorem Inv.close (hi : n.Inv) {k : Nat} (hk : k < n.opened) (hl : k ∉ n.live) : (n.close k).Inv where
  address_eq := hi.address_eq
  keys_nodup := hi.keys_nodup
  ids_nodup := hi.ids_nodup
  owners_nodup := hi.owners_nodup
  owners_lt := hi.owners_lt
  closed_lt j hj := by
    rcases List.mem_cons.1 hj with rfl | hj
    · exact hk
    · exact hi.closed_lt j hj
  live_open j hj hc := by
    rcases List.mem_cons.1 hc with rfl | hc
    · exact hl hj
    · exact hi.live_open j hj hc

theorem Inv.close_free (hi : n.Inv) {k : Nat} (hf : n.Free k) : (n.close k).Inv :=
  hi.close hf.1 fun h => hf.2.1 (live_subset_owners h)

theorem owners_closePeer (hk : (n.cs.peers.map Prod.fst).Nodup) (p : PeerState) :
    (n.closePeer p).owners.Perm n.owners := by
  have h := GoMap.map_perm_get?_delete hk (·.conn.id) p.address
  rw [List.perm_iff_count]
  intro a
  have := h.count_eq a
  simp only [owners, live, taskConns, tableConns, closePeer, List.map_append, List.count_append] at this ⊢
  omega

/-- `ClosePeer` on an object of the table or one that left it keeps the invariant; `peer` may be
a copy of that object with other fields a handler writes. -/
theorem Inv.closePeer (hi : n.Inv) {q : PeerState} (hq : q ∈ n.cs.peers.map Prod.snd ++ n.detached)
    {p : PeerState} (ha : p.address = q.address) (hc : p.conn.id = q.conn.id) :
    (n.closePeer p).Inv := by
  have hp := owners_closePeer hi.keys_nodup p
  have hnd := hp.nodup_iff.2 hi.owners_nodup
  -- the object's connection leaves the live connections with its entry
  have hrest : q.conn.id ∈ (n.closePeer p).detached.map (·.conn.id) := by
    simp only [Net.closePeer, List.map_append, List.mem_append]
    rcases List.mem_append.1 hq with hq | hq
    · obtain ⟨⟨key, q⟩, he, rfl⟩ := List.mem_map.1 hq
      have hkey : key = p.address := (hi.address_eq _ he).symm.trans ha.symm
      rw [hkey] at he
      left
      rw [GoMap.get?_of_mem hi.keys_nodup he]
      exact List.mem_singleton_self _
    · exact .inr (List.mem_map_of_mem _ hq)
  have hlive : (n.closePeer p).live ⊆ n.live :=
    ((List.Sublist.refl _).append ((GoMap.delete_sublist _ _).map _)).subset
  refine ⟨fun e he => hi.address_eq e (GoMap.mem_delete.1 he).1,
    GoMap.nodup_keys_delete hi.keys_nodup _,
    ((GoMap.delete_sublist _ _).map _).nodup hi.ids_nodup, hnd,
    fun k hk => hi.owners_lt k (hp.mem_iff.1 hk), ?_, ?_⟩
  · intro k hk
    rcases List.mem_cons.1 hk with rfl | hk
    · rw [hc]
      exact hi.owners_lt _ (hp.mem_iff.1 (List.mem_append_right _ hrest))
    · exact hi.closed_lt k hk
  · intro k hk hcl
    rcases List.mem_cons.1 hcl with rfl | hcl
    · exact List.disjoint_of_nodup_append hnd hk (hc ▸ hrest)
    · exact hi.live_open k (hlive hk) hcl

theorem Inv.closePeer_of_mem (hi : n.Inv) {e : List Char × PeerState} (he : e ∈ n.cs.peers) :
    (n.closePeer e.2).Inv :=
  hi.closePeer (List.mem_append_left _ (List.mem_map_of_mem _ he)) rfl rfl

theorem Inv.sweepStep (hi : n.Inv) (timedOut : PeerState → Bool) (e : List Char × PeerState) :
    (n.sweepStep timedOut e).Inv := by
  unfold Net.sweepStep
  split
  · next peer hg =>
    split
    · exact hi.closePeer_of_mem (GoMap.get?_mem hg)
    · exact hi
  · exact hi

theorem Inv.sweep (hi : n.Inv) (timedOut : PeerState → Bool) : (n.sweep timedOut).Inv := by
  unfold Net.sweep
  generalize n.cs.peers = l
  induction l generalizing n with
  | nil => exact hi
  | cons e l ih => exact ih (hi.sweepStep timedOut e)

theorem sweepStep_of_get? (sel : PeerState → Bool) {n : Net} {e : List Char × PeerState}
    {peer : PeerState} (h : GoMap.get? n.cs.peers e.1 = some peer) :
    n.sweepStep sel e = if sel peer then n.closePeer peer else n := by
  simp [Net.sweepStep, h]

/-- The rest `l` of a sweep over a table `P ++ l` whose keys are distinct and whose entries of `l`
are stored at their own addresses: it closes exactly the entries of `l` that `sel` selects, in
order, deletes them from the table, and keeps the others. -/
theorem foldl_sweepStep (sel : PeerState → Bool) :
    ∀ (l P : List (List Char × PeerState)) (n : Net), n.cs.peers = P ++ l →
      ((P ++ l).map Prod.fst).Nodup → (∀ e ∈ l, e.2.address = e.1) →
      l.foldl (Net.sweepStep sel) n = { n with
        cs := { n.cs with peers := P ++ l.filter fun e => !sel e.2 }
        closed := ((l.filter fun e => sel e.2).map (·.2.conn.id)).reverse ++ n.closed
        detached := ((l.filter fun e => sel e.2).map (·.2)).reverse ++ n.detached }
  | [], P, n, h, _, _ => by
    rw [List.append_nil] at h
    subst h
    simp only [List.foldl_nil, List.filter_nil, List.map_nil, List.reverse_nil, List.append_nil,
      List.nil_append]
  | e :: l, P, n, h, hnd, haddr => by
    have hget : GoMap.get? n.cs.peers e.1 = some e.2 := by
      rw [h]
      exact GoMap.get?_of_mem hnd (List.mem_append_right _ (List.mem_cons_self _ _))
    simp only [List.map_append, List.map_cons] at hnd
    have hnd' : ((P ++ l).map Prod.fst).Nodup := by
      rw [List.map_append]
      exact (List.nodup_middle.mp hnd).of_cons
    have hnot : ∀ x ∈ P ++ l, decide (x.1 ≠ e.1) = true := fun x hx => by
      have h' := (List.nodup_cons.mp (List.nodup_middle.mp hnd)).1
      rw [← List.map_append] at h'
      simpa using fun (hk : x.1 = e.1) => h' (hk ▸ List.mem_map_of_mem Prod.fst hx)
    have haddr' : ∀ e' ∈ l, e'.2.address = e'.1 := fun e' he' => haddr e' (.tail _ he')
    by_cases hs : sel e.2 = true
    · have hdel : GoMap.delete n.cs.peers e.2.address = P ++ l := by
        rw [h, haddr e (.head _), GoMap.delete, List.filter_append, List.filter_cons_of_neg (by simp),
          List.filter_eq_self.mpr fun x hx => hnot x (List.mem_append_left _ hx),
          List.filter_eq_self.mpr fun x hx => hnot x (List.mem_append_right _ hx)]
      rw [List.foldl_cons, sweepStep_of_get? sel hget, if_pos hs,
        foldl_sweepStep sel l P _ hdel hnd' haddr']
      simp [Net.closePeer, hs, hget, haddr e (.head _), hdel]
    · rw [List.foldl_cons, sweepStep_of_get? sel hget, if_neg hs,
        foldl_sweepStep sel l (P ++ [e]) n (by rw [h, List.append_assoc]; rfl)
          (by rw [List.append_assoc, List.map_append]; exact hnd) haddr']
      simp [hs]

/-- A sweep over a table of the invariant closes exactly the entries `sel` selects, deletes them
and keeps the others in order. -/
theorem Inv.sweep_eq (hi : n.Inv) (sel : PeerState → Bool) :
    n.sweep sel = { n with
      cs := { n.cs with peers := n.cs.peers.filter fun e => !sel e.2 }
      closed := ((n.cs.peers.filter fun e => sel e.2).map (·.2.conn.id)).reverse ++ n.closed
      detached := ((n.cs.peers.filter fun e => sel e.2).map (·.2)).reverse ++ n.detached } :=
  foldl_sweepStep sel n.cs.peers [] n rfl hi.keys_nodup hi.address_eq

/-! #### Admission -/

theorem owners_storePeer (hk : (n.cs.peers.map Prod.fst).Nodup) (conn : Conn) (id : List Char) :
    (n.storePeer conn id).owners.Perm (conn.id :: n.owners) := by
  have h := GoMap.map_perm_get?_delete hk (·.conn.id) conn.remoteAddr
  rw [List.perm_iff_count]
  intro a
  have := h.count_eq a
  simp only [owners, live, taskConns, tableConns, Net.storePeer, GoMap.set_eq, List.map_cons,
    List.map_append, List.count_append, List.count_cons, PeerState.new] at this ⊢
  omega

theorem Inv.storePeer (hi : n.Inv) {conn : Conn} (hf : n.Free conn.id) {id : List Char}
    (hid : ∀ e ∈ n.cs.peers, e.2.id ≠ id) : (n.storePeer conn id).Inv := by
  have hp := owners_storePeer hi.keys_nodup conn id
  refine ⟨?_, GoMap.nodup_keys_set hi.keys_nodup _ _, ?_,
    hp.nodup_iff.2 (List.nodup_cons.2 ⟨hf.2.1, hi.owners_nodup⟩), ?_, hi.closed_lt, ?_⟩
  · intro e he
    rcases List.mem_cons.1 he with rfl | he
    · rfl
    · exact hi.address_eq e (GoMap.mem_delete.1 he).1
  · refine List.nodup_cons.2 ⟨fun h => ?_, ((GoMap.delete_sublist _ _).map _).nodup hi.ids_nodup⟩
    obtain ⟨e, he, hide⟩ := List.mem_map.1 h
    exact hid e (GoMap.mem_delete.1 he).1 hide
  · intro k hk
    rcases List.mem_cons.1 (hp.mem_iff.1 hk) with rfl | hk
    · exact hf.1
    · exact hi.owners_lt k hk
  · intro k hk
    simp only [live, tableConns, taskConns, Net.storePeer, GoMap.set_eq, List.map_cons,
      List.mem_append, List.mem_cons] at hk
    rcases hk with hk | rfl | hk
    · exact hi.live_open k (List.mem_append_left _ hk)
    · exact hf.2.2
    · exact hi.live_open k (List.mem_append_right _ (((GoMap.delete_sublist _ _).map _).subset hk))

theorem Inv.addPeer (hi : n.Inv) (maxNumPeers : Nat) {conn : Conn} (hf : n.Free conn.id)
    (id : List Char) : (n.addPeer maxNumPeers conn id).Inv := by
  unfold Net.addPeer
  split_ifs with hdup
  · exact hi
  · exact hi.close_free hf
  · exact hi.storePeer hf fun e he hide => hdup (List.any_eq_true.2 ⟨e, he, by simpa using hide⟩)

theorem Inv.connectToPeer (hi : n.Inv) (maxNumPeers : Nat) {conn : Conn} (hf : n.Free conn.id)
    (result : HeaderResult) : (n.connectToPeer maxNumPeers conn result).Inv := by
  cases result with
  | writeFailed => exact hi
  | readFailed => exact hi
  | header id =>
    dsimp only [Net.connectToPeer]
    split_ifs
    · exact hi.close_free hf
    · exact hi.addPeer maxNumPeers hf id

theorem Inv.acceptNewPeer (hi : n.Inv) (maxNumPeers : Nat) {conn : Conn} (hf : n.Free conn.id)
    (id : List Char) (written : Bool) : (n.acceptNewPeer maxNumPeers conn id written).Inv := by
  unfold Net.acceptNewPeer
  split_ifs
  · exact hi.addPeer maxNumPeers hf id
  · exact hi

/-! #### Messages -/

theorem Inv.update (hi : n.Inv) (p : PeerState) : (n.update p).Inv := by
  have hk : (n.update p).cs.peers.map Prod.fst = n.cs.peers.map Prod.fst := by
    simp [Net.update, Function.comp_def]
  have hid : (n.update p).cs.peers.map (·.2.id) = n.cs.peers.map (·.2.id) := by
    simp [Net.update, Function.comp_def]
  have hl : (n.update p).live = n.live := by
    simp [Net.update, live, taskConns, tableConns, Function.comp_def]
  have ho : (n.update p).owners = n.owners := by
    rw [owners, owners, hl]
    simp [Net.update, Function.comp_def]
  refine ⟨?_, hk ▸ hi.keys_nodup, hid ▸ hi.ids_nodup, ho ▸ hi.owners_nodup, ho ▸ hi.owners_lt,
    hi.closed_lt, hl ▸ hi.live_open⟩
  intro e he
  obtain ⟨e', he', rfl⟩ := List.mem_map.1 he
  simpa using hi.address_eq e' he'

/-- The table of a handler's session is the table it was given. -/
theorem Inv.withSession (hi : n.Inv) {cs : ControlSession} (h : cs.peers = n.cs.peers) :
    ({ n with cs := cs } : Net).Inv := by
  obtain ⟨port, peerID, torrents, currentIH, rev, ourExtensions, peers, bitshareDir⟩ := cs
  subst h
  exact ⟨hi.address_eq, hi.keys_nodup, hi.ids_nodup, hi.owners_nodup, hi.owners_lt, hi.closed_lt,
    hi.live_open⟩

theorem Inv.receive (hi : n.Inv) {k : Nat} {peer : PeerState} (hp : n.peer? k = some peer)
    {message : Option (List UInt8)} {n' : Net} (h : n.receive peer message = some n') : n'.Inv := by
  have hq : peer ∈ n.cs.peers.map Prod.snd ++ n.detached := List.mem_of_find?_eq_some hp
  unfold Net.receive at h
  split at h
  · cases h
  · next hd hm =>
    obtain ⟨hcs, hpeer⟩ := doMessage_frames n.cs peer hm
    have hcs' : hd.cs.peers = n.cs.peers := by rw [hcs]
    have hu := (hi.withSession hcs').update hd.p
    cases h
    split
    · refine hu.closePeer (q := peer.writeBack hd.p) ?_ (by rw [hpeer]; simp) (by rw [hpeer]; simp)
      simp only [Net.update, List.map_map, List.mem_append, List.mem_map] at hq ⊢
      rcases hq with ⟨e, he, rfl⟩ | hq
      · exact .inl ⟨e, by rw [hcs']; exact he, rfl⟩
      · exact .inr ⟨peer, hq, rfl⟩
    · exact hu

/-! #### Every event, every run -/

theorem Inv.step (hi : n.Inv) (maxNumPeers : Nat) {e : Event} {n' : Net}
    (h : n.step maxNumPeers e = some n') : n'.Inv := by
  cases e with
  | peersFound peers => cases h; exact hi.hint peers
  | dialFailed peer =>
    simp only [Net.step] at h
    split_ifs at h with ht
    cases h
    exact hi.finish ht
  | dialed peer remoteAddr ip =>
    simp only [Net.step] at h
    split_ifs at h with ht
    cases h
    exact hi.dial ht remoteAddr ip
  | exchanged conn result =>
    simp only [Net.step] at h
    split_ifs at h with ht
    cases h
    exact (hi.finish ht).connectToPeer maxNumPeers (hi.free_finish ht rfl) result
  | accepted remoteAddr ip id => cases h; exact hi.acceptConn remoteAddr ip id
  | headerWritten conn id written =>
    simp only [Net.step] at h
    split_ifs at h with ht
    cases h
    exact (hi.finish ht).acceptNewPeer maxNumPeers (hi.free_finish ht rfl) id written
  | message k message =>
    obtain ⟨peer, hp, h⟩ := Option.bind_eq_some.1 h
    exact hi.receive hp h
  | keepAlive timedOut => cases h; exact hi.sweep _
  | quit => cases h; exact hi.sweep _

theorem Inv.run (hi : n.Inv) (maxNumPeers : Nat) {es : List Event} {n' : Net}
    (h : n.run maxNumPeers es = some n') : n'.Inv := by
  induction es generalizing n with
  | nil => cases h; exact hi
  | cons e es ih =>
    obtain ⟨n₁, h₁, h⟩ := Option.bind_eq_some.1 h
    exact ih (hi.step maxNumPeers h₁) h

/-! ### The size of the table -/

section Size

variable {n n' : Net} (maxNumPeers : Nat)

theorem length_closePeer_le (n : Net) (peer : PeerState) :
    (n.closePeer peer).cs.peers.length ≤ n.cs.peers.length :=
  List.length_filter_le _ _

theorem length_foldl_sweepStep_le (sel : PeerState → Bool) :
    ∀ (l : List (List Char × PeerState)) (n : Net),
      (l.foldl (sweepStep sel) n).cs.peers.length ≤ n.cs.peers.length
  | [], _ => le_rfl
  | e :: l, n => by
    refine (length_foldl_sweepStep_le sel l _).trans ?_
    unfold sweepStep
    split
    · split
      · exact length_closePeer_le _ _
      · exact le_rfl
    · exact le_rfl

/-- A message changes no key of the table; it may close the peer's entry. -/
theorem length_receive_le {peer : PeerState} {message : Option (List UInt8)}
    (h : n.receive peer message = some n') : n'.cs.peers.length ≤ n.cs.peers.length := by
  unfold Net.receive at h
  split at h
  · cases h
  · next hd hm =>
    have hcs : hd.cs.peers = n.cs.peers := by rw [(doMessage_frames n.cs peer hm).1]
    have hu : ({ n with cs := hd.cs }.update hd.p).cs.peers.length = n.cs.peers.length := by
      simp [Net.update, hcs]
    cases h
    split
    · exact (length_closePeer_le _ _).trans hu.le
    · exact hu.le

/-- `AddPeer` stores a peer only below the limit, and storing adds at most one entry. -/
theorem length_addPeer_le (h : n.cs.peers.length ≤ maxNumPeers) (conn : Conn) (id : List Char) :
    (n.addPeer maxNumPeers conn id).cs.peers.length ≤ maxNumPeers := by
  unfold Net.addPeer
  split_ifs with _ hfull
  · exact h
  · exact h
  · have : (GoMap.delete n.cs.peers conn.remoteAddr).length ≤ n.cs.peers.length :=
      List.length_filter_le _ _
    simp only [storePeer, GoMap.set_eq, List.length_cons]
    omega

/-- No event takes the table past the limit. -/
theorem length_step_le {e : Event} (h : n.step maxNumPeers e = some n')
    (hb : n.cs.peers.length ≤ maxNumPeers) : n'.cs.peers.length ≤ maxNumPeers := by
  cases e with
  | peersFound peers => cases h; exact hb
  | dialFailed peer =>
    simp only [Net.step] at h
    split_ifs at h
    cases h
    exact hb
  | dialed peer remoteAddr ip =>
    simp only [Net.step] at h
    split_ifs at h
    cases h
    exact hb
  | exchanged conn result =>
    simp only [Net.step] at h
    split_ifs at h
    cases h
    cases result with
    | writeFailed => exact hb
    | readFailed => exact hb
    | header id =>
      dsimp only [Net.connectToPeer]
      split_ifs
      · exact hb
      · exact length_addPeer_le maxNumPeers (show (n.finish _).cs.peers.length ≤ _ from hb) conn id
  | accepted remoteAddr ip id => cases h; exact hb
  | headerWritten conn id written =>
    simp only [Net.step] at h
    split_ifs at h
    cases h
    unfold Net.acceptNewPeer
    split_ifs
    · exact length_addPeer_le maxNumPeers (show (n.finish _).cs.peers.length ≤ _ from hb) conn id
    · exact hb
  | message k message =>
    obtain ⟨peer, -, h⟩ := Option.bind_eq_some.1 h
    exact (length_receive_le h).trans hb
  | keepAlive timedOut => cases h; exact (length_foldl_sweepStep_le _ _ _).trans hb
  | quit => cases h; exact (length_foldl_sweepStep_le _ _ _).trans hb

theorem length_run_le {es : List Event} (h : n.run maxNumPeers es = some n')
    (hb : n.cs.peers.length ≤ maxNumPeers) : n'.cs.peers.length ≤ maxNumPeers := by
  induction es generalizing n with
  | nil => cases h; exact hb
  | cons e es ih =>
    obtain ⟨n₁, h₁, h⟩ := Option.bind_eq_some.1 h
    exact ih h (length_step_le maxNumPeers h₁ hb)

end Size

/-- What is asked of every connection once its goroutine has returned: it is closed, or it is
the connection of exactly one entry of the table. -/
def Accounted (n : Net) : Prop :=
  ∀ k < n.opened, k ∈ n.taskConns ∨ k ∈ n.closed ∨ n.cs.peers.countP (·.2.conn.id = k) = 1

instance (n : Net) : Decidable n.Accounted :=
  inferInstanceAs (Decidable (∀ k < n.opened,
    k ∈ n.taskConns ∨ k ∈ n.closed ∨ n.cs.peers.countP (·.2.conn.id = k) = 1))

end Net

/-! ### Runs of a new session -/

/-- A new session with the peer id `P`. -/
def newSession : ControlSession := newControlSession "P".toList 6881 "/b".toList emptyWorld

/-- Two connectors reach, at two addresses, the same remote peer `Q`. -/
def duplicateIdRun : List Event :=
  [.peersFound ["a:1".toList], .dialed "a:1".toList "a:1".toList "a".toList,
    .exchanged ⟨0, "a:1".toList, "a".toList⟩ (.header "Q".toList),
    .peersFound ["b:2".toList], .dialed "b:2".toList "b:2".toList "b".toList,
    .exchanged ⟨1, "b:2".toList, "b".toList⟩ (.header "Q".toList)]

/-- After `duplicateIdRun`: the second connection is open, and in no entry. -/
def duplicateIdFinal : Net :=
  ⟨{ newSession with peers := [("a:1".toList,
    PeerState.new "a:1".toList "Q".toList ⟨0, "a:1".toList, "a".toList⟩)] }, 2, [], [], []⟩

/-- A peer `Q` is admitted from `a:1`; a peer `R` then connects from the same address and
replaces it; then the reader of `Q` exits. -/
def replacedPeerRun : List Event :=
  [.peersFound ["a:1".toList], .dialed "a:1".toList "a:1".toList "a".toList,
    .exchanged ⟨0, "a:1".toList, "a".toList⟩ (.header "Q".toList),
    .accepted "a:1".toList "a".toList "R".toList,
    .headerWritten ⟨1, "a:1".toList, "a".toList⟩ "R".toList true,
    .message 0 none]

/-- After `replacedPeerRun`: `ClosePeer` on `Q` deleted the entry of `R`, whose connection is
open. -/
def replacedPeerFinal : Net :=
  ⟨newSession, 2, [0], [],
    [PeerState.new "a:1".toList "R".toList ⟨1, "a:1".toList, "a".toList⟩,
      PeerState.new "a:1".toList "Q".toList ⟨0, "a:1".toList, "a".toList⟩]⟩

/-- A peer whose header carries the session's own peer id connects to it. -/
def selfAcceptRun : List Event :=
  [.accepted "c:3".toList "c".toList "P".toList,
    .headerWritten ⟨0, "c:3".toList, "c".toList⟩ "P".toList true]

/-- After `selfAcceptRun`: the session holds itself as a peer. -/
def selfAcceptFinal : Net :=
  ⟨{ newSession with peers := [("c:3".toList,
    PeerState.new "c:3".toList "P".toList ⟨0, "c:3".toList, "c".toList⟩)] }, 1, [], [], []⟩

/-- Along every run of a new session, the table is keyed by its entries' own addresses, its keys
and peer ids are distinct, its connections are open, and no connection has two owners. -/
theorem peerTable_inv (maxNumPeers : Nat) (peerID : List Char) (port : Int) (dir : List Char)
    (w : World) {es : List Event} {n : Net}
    (h : (Net.init (newControlSession peerID port dir w)).run maxNumPeers es = some n) : n.Inv :=
  (Net.inv_init rfl).run maxNumPeers h

theorem peerTable_inv_duplicateIdRun :
    (Net.init (newControlSession "P".toList 6881 "/b".toList emptyWorld)).run 60 duplicateIdRun =
      some duplicateIdFinal ∧ duplicateIdFinal.Inv :=
  ⟨rfl, @peerTable_inv 60 "P".toList 6881 "/b".toList emptyWorld duplicateIdRun _ rfl⟩

/-- Whatever the peer limit, from two on, a run can leave a connection open and in no entry:
when a second connection reaches a peer id already in the table, and when a peer replaced at its
address later closes; and an accepted peer can carry the session's own peer id. -/
theorem peerTable_drops_connections (maxNumPeers : Nat) (h : 2 ≤ maxNumPeers) :
    (Net.init newSession).run maxNumPeers duplicateIdRun = some duplicateIdFinal ∧
      ¬ duplicateIdFinal.Accounted ∧
      (Net.init newSession).run maxNumPeers replacedPeerRun = some replacedPeerFinal ∧
      ¬ replacedPeerFinal.Accounted ∧
      (Net.init newSession).run maxNumPeers selfAcceptRun = some selfAcceptFinal ∧
      ∃ e ∈ selfAcceptFinal.cs.peers, e.2.id = selfAcceptFinal.cs.peerID := by
  obtain ⟨m, rfl⟩ : ∃ m, maxNumPeers = m + 2 := ⟨maxNumPeers - 2, by omega⟩
  exact ⟨rfl, by decide, rfl, by decide, rfl, _, List.mem_singleton_self _, rfl⟩

/-- Along every run of a new session, with each `AddPeer` one atomic step as `Net.step` takes it,
the table never holds more than `MAX_NUM_PEERS` entries: `AddPeer` stores a peer only while the
table is below the limit, storing adds at most one entry, and no other event adds one. The
program calls `AddPeer` from the connector goroutines without a lock, so two calls whose check
and store interleave are not covered. -/
theorem peerTable_bounded (maxNumPeers : Nat) (peerID : List Char) (port : Int) (dir : List Char)
    (w : World) {es : List Event} {n : Net}
    (h : (Net.init (newControlSession peerID port dir w)).run maxNumPeers es = some n) :
    n.cs.peers.length ≤ maxNumPeers :=
  Net.length_run_le maxNumPeers h (Nat.zero_le _)

/-- Two peers `Q` and `R` are reached at two addresses. -/
def twoPeersRun : List Event :=
  [.peersFound ["a:1".toList, "b:2".toList], .dialed "a:1".toList "a:1".toList "a".toList,
    .dialed "b:2".toList "b:2".toList "b".toList,
    .exchanged ⟨0, "a:1".toList, "a".toList⟩ (.header "Q".toList),
    .exchanged ⟨1, "b:2".toList, "b".toList⟩ (.header "R".toList)]

/-- With room for one peer, `R` is refused and its connection closed. -/
theorem peerTable_bounded_oneSlot :
    ∃ n, (Net.init newSession).run 1 twoPeersRun = some n ∧ n.closed = [1] ∧
      n.cs.peers.length ≤ 1 :=
  ⟨_, rfl, rfl, @peerTable_bounded 1 "P".toList 6881 "/b".toList emptyWorld twoPeersRun _ rfl⟩

theorem peerTable_drops_connections_two :
    2 ≤ 2 ∧ (Net.init newSession).run 2 duplicateIdRun = some duplicateIdFinal ∧
      ¬ duplicateIdFinal.Accounted ∧
      (Net.init newSession).run 2 replacedPeerRun = some replacedPeerFinal ∧
      ¬ replacedPeerFinal.Accounted ∧
      (Net.init newSession).run 2 selfAcceptRun = some selfAcceptFinal ∧
      ∃ e ∈ selfAcceptFinal.cs.peers, e.2.id = selfAcceptFinal.cs.peerID :=
  ⟨le_rfl, peerTable_drops_connections 2 le_rfl⟩

end Rakoshare
