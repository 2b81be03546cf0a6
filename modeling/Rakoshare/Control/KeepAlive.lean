import Rakoshare.Control.Peers

/-!
# The keep-alive sweep

The keep-alive case of `ControlSession.Run` (`src/unnamed/part_000`, lines 247–256) runs once a
minute. For each peer of the table it calls `ClosePeer` when
`peer.lastReadTime.Second() != 0 && now.Sub(peer.lastReadTime) > 3*time.Minute`, and otherwise
asks the peer's writer for a keep-alive. The loop sets `lastReadTime` to `time.Now()` each time it
receives a message from the peer (line 230); before the first one it is the zero `time.Time`.

A `Time` counts nanoseconds from the zero time, January 1 of year 1, 00:00:00 UTC, and is read in
UTC. `Second()` is the second within the minute, not a test that the time is set: the guard
passes over every peer last read on second 0 of a minute, however long ago, and the zero time is
one of those. `Sub` saturates at the bounds of a `Duration`, an `int64` count of nanoseconds.
The keep-alives go to the writer goroutines, which are not modelled.

## Main definitions

* `Time`, `Time.second`, `Time.sub`, `keepAliveGuard`.
* `Net.keepAliveAt`: the keep-alive case at `now`, given when each connection was last read.

## Main results

* `Net.keepAliveAt_step`: the keep-alive case is a `keepAlive` step of the state machine.
* `keepAlive_keeps_second_zero`: the sweep closes exactly the peers the guard selects, each one
  read at some time and more than three minutes ago, and keeps every peer last read on second 0.
-/

namespace Rakoshare

/-- A `time.Time`: nanoseconds from the zero time, January 1 of year 1, 00:00:00 UTC. -/
structure Time where
  ns : Int
  deriving DecidableEq, Repr

namespace Time

/-- The zero `time.Time`. -/
def zero : Time := ⟨0⟩

/-- `t.Second()`: the second within the minute. -/
def second (t : Time) : Int := t.ns / 1000000000 % 60

/-- `t.Sub(u)`: the `Duration` from `u` to `t`, saturated to the range of an `int64`. -/
def sub (t u : Time) : Int := max (-2 ^ 63) (min (2 ^ 63 - 1) (t.ns - u.ns))

/-- A time whose second within the minute is not `0` is not the zero time. -/
theorem ne_zero_of_second_ne_zero {t : Time} (h : t.second ≠ 0) : t ≠ zero := by
  rintro rfl
  exact h rfl

end Time

/-- `time.Minute`, in nanoseconds. -/
def minute : Int := 60 * 1000000000

/-- The test of the keep-alive case, `lastReadTime.Second() != 0 && now.Sub(lastReadTime) >
3*time.Minute`: the peer is closed when it holds. -/
def keepAliveGuard (now lastReadTime : Time) : Bool :=
  lastReadTime.second ≠ 0 && now.sub lastReadTime > 3 * minute

namespace Net

/-- The keep-alive case at `now`, the peer on connection `k` having been last read at
`lastReadTime k`. -/
def keepAliveAt (n : Net) (now : Time) (lastReadTime : Nat → Time) : Net :=
  n.sweep fun peer => keepAliveGuard now (lastReadTime peer.conn.id)

/-- The keep-alive case is the step `keepAlive` of the state machine, for the connections of the
table whose peers the guard selects. -/
theorem keepAliveAt_step (maxNumPeers : Nat) {n : Net} (hi : n.Inv) (now : Time)
    (lastReadTime : Nat → Time) :
    n.step maxNumPeers (.keepAlive (n.tableConns.filter fun k => keepAliveGuard now (lastReadTime k))) =
      some (n.keepAliveAt now lastReadTime) := by
  have hagree : ∀ e ∈ n.cs.peers,
      (n.tableConns.filter fun k => keepAliveGuard now (lastReadTime k)).contains e.2.conn.id =
        keepAliveGuard now (lastReadTime e.2.conn.id) := fun e he => by
    have hm : e.2.conn.id ∈ n.tableConns := List.mem_map_of_mem _ he
    cases hg : keepAliveGuard now (lastReadTime e.2.conn.id) <;> simp [List.mem_filter, hm, hg]
  have h₁ := List.filter_congr fun e he => congrArg (!·) (hagree e he)
  have h₂ := List.filter_congr hagree
  simp only [step, keepAlive, keepAliveAt, hi.sweep_eq, h₁, h₂]

end Net

/-- The keep-alive sweep does not evict exactly the stale peers. Over a table of the invariant
it closes exactly the peers the guard selects, deletes them and keeps the others in order; every
peer it closes was read at some time, more than three minutes before `now`; and it keeps every
peer last read on second 0 of a minute, the zero time included, however long ago that was. -/
theorem keepAlive_keeps_second_zero {n : Net} (hi : n.Inv) (now : Time) (lastReadTime : Nat → Time) :
    (n.keepAliveAt now lastReadTime).cs.peers =
        n.cs.peers.filter (fun e => !keepAliveGuard now (lastReadTime e.2.conn.id)) ∧
      (∀ k ∈ (n.keepAliveAt now lastReadTime).closed, k ∈ n.closed ∨
        (k ∈ n.tableConns ∧ lastReadTime k ≠ Time.zero ∧ now.sub (lastReadTime k) > 3 * minute)) ∧
      ∀ e ∈ n.cs.peers, (lastReadTime e.2.conn.id).second = 0 →
        e ∈ (n.keepAliveAt now lastReadTime).cs.peers := by
  rw [Net.keepAliveAt, hi.sweep_eq]
  refine ⟨rfl, fun k hk => ?_, fun e he h0 => ?_⟩
  · rcases List.mem_append.mp hk with hk | hk
    · obtain ⟨e, he, rfl⟩ := List.mem_map.mp (List.mem_reverse.mp hk)
      obtain ⟨he, hg⟩ := List.mem_filter.mp he
      simp only [keepAliveGuard, Bool.and_eq_true, decide_eq_true_eq] at hg
      exact .inr ⟨List.mem_map_of_mem _ he, Time.ne_zero_of_second_ne_zero hg.1, hg.2⟩
    · exact .inl hk
  · exact List.mem_filter.mpr ⟨he, by simp [keepAliveGuard, h0]⟩

/-- A session holding one peer, on connection `0`, at address `a`. -/
def onePeerNet : Net :=
  ⟨{ freshSession with peers := [("a".toList, ⟨"a".toList, "q".toList, ⟨0, "a".toList, "a".toList⟩, [], []⟩)] },
    1, [], [], []⟩

theorem onePeerNet_inv : onePeerNet.Inv :=
  ⟨by decide, by decide, by decide, by decide, by decide, by decide, by decide⟩

/-- A peer last read at minute 1000, second 0, is kept ten minutes later. -/
theorem keepAlive_keeps_second_zero_onePeer :
    onePeerNet.Inv ∧ (⟨1000 * minute⟩ : Time) ≠ Time.zero ∧
      Time.sub ⟨1010 * minute⟩ ⟨1000 * minute⟩ > 3 * minute ∧
      ("a".toList, ⟨"a".toList, "q".toList, ⟨0, "a".toList, "a".toList⟩, [], []⟩) ∈
        (onePeerNet.keepAliveAt ⟨1010 * minute⟩ fun _ => ⟨1000 * minute⟩).cs.peers :=
  ⟨onePeerNet_inv, by decide, by decide, (keepAlive_keeps_second_zero onePeerNet_inv ⟨1010 * minute⟩
    fun _ => ⟨1000 * minute⟩).2.2 _ (List.mem_singleton_self _) (by decide)⟩

end Rakoshare
