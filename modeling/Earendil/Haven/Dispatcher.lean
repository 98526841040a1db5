import Earendil.Basic

/-!
# The haven receive dispatcher

`recv_task` of `socket/haven_socket.rs`. It reads a datagram from the n2r socket, decodes it into
an inner body and the remote endpoint, decodes the body into a `HavenMsg`, and then

- on `ClientHs`, creates a new `CryptSession` for the remote endpoint and inserts it into the
  session cache, replacing any session there;
- on `ServerHs` or `Regular`, hands the message to the endpoint's session, or bails with
  "stray msg; dropping" when there is none.

Every failure (a receive error, a failed decode, a failed `CryptSession::new`, a failed hand-off,
a stray message) ends the task with an error, and `Immortal::respawn` starts it again at once
with a clone of the cache, which shares the entries.

**The cache.** `HavenSocket::bind` builds it with `max_capacity(100_000)` and
`time_to_live(30 min)`: moka drops an entry when it expires, and when the cache is over its bound
(its admission policy may drop the entry just inserted). Which entry goes and when is moka's
choice, made on its own schedule; so the model lets the cache drop any entry at any point between
two iterations of the dispatcher (`CacheEvent.evict`), which covers every choice moka can make.

**Inputs.** The codec (`stdcode`), `CryptSession::new` and the sessions' channels are not under
src/. An arrival carries what the codec made of the datagram (`Payload`), and the outcomes of the
two calls the dispatcher may make on it: the session `CryptSession::new` returns (or its failure)
and whether `send_incoming` succeeded. Quantifying over arrivals quantifies over every behaviour
of those collaborators.

**Theorem (`dispatcher_only_installs`).** Over any sequence of arrivals and evictions, with every
respawn in between, the session cache ends as the initial cache with, in order, the installs of
the successful `ClientHs` arrivals and the cache's own evictions applied: no other arrival changes
it. An endpoint with no install and no eviction keeps its session.
-/

namespace Earendil.Haven

/-- A crypt session, known here by its identity (`crypt_session.rs` is not under src/). -/
structure CryptSession where
  id : Nat
  deriving DecidableEq, Repr

/-- `HavenMsg`. A handshake is kept as the bytes the codec carries. -/
inductive HavenMsg
  | serverHs (hs : Bytes)
  | clientHs (hs : Bytes)
  | regular (nonce : UInt64) (inner : Bytes)
  deriving DecidableEq, Repr

/-- What the two `stdcode::deserialize` calls make of a datagram. -/
inductive Payload
  | undecodable
  | outer (remote : Endpoint) (msg : Option HavenMsg)
  deriving DecidableEq, Repr

/-- One receive of `recv_task`, with the outcomes of the calls it may make. -/
inductive Arrival
  | recvError
  | datagram (payload : Payload) (newSession : Option CryptSession) (delivered : Bool)
  deriving DecidableEq, Repr

/-- `Cache<Endpoint, CryptSession>`: the endpoints' sessions. Its bound and its TTL act through
the evictions of `CacheEvent`. -/
abbrev SessionCache := AList fun _ : Endpoint => CryptSession

/-- What happens to the shared cache between two iterations of the dispatcher: the arrival it
reads next, or the cache dropping an entry. -/
inductive CacheEvent
  | arrival (a : Arrival)
  /-- moka drops the entry of `endpoint`: its TTL, or the size bound -/
  | evict (endpoint : Endpoint)
  deriving DecidableEq, Repr

/-! ## The loop body, the loop, and the respawn -/

/-- One iteration of the loop of `recv_task`. An error ends the task. -/
def recvOnce (encrypters : SessionCache) : Arrival → Except String SessionCache
  | .recvError => .error "recv_from failed"
  | .datagram .undecodable _ _ => .error "deserialize failed"
  | .datagram (.outer _ none) _ _ => .error "deserialize failed"
  | .datagram (.outer remote (some haven_msg)) newSession delivered =>
    let encrypter := encrypters.lookup remote
    match haven_msg with
    | .serverHs _ | .regular _ _ =>
      match encrypter with
      | some _ => if delivered then .ok encrypters else .error "send_incoming failed"
      | none => .error "stray msg; dropping"
    | .clientHs _ =>
      match newSession with
      | some session => .ok (encrypters.insert remote session)
      | none => .error "CryptSession::new failed"

/-- `recv_task` over the shared cache: loop until an iteration fails, while the cache drops entries
of its own. Returns the cache, and on failure the error and the events still to come. With no
event left it is waiting in `recv_from`. -/
def recvTask (encrypters : SessionCache) :
    List CacheEvent → SessionCache × Option (String × List CacheEvent)
  | [] => (encrypters, none)
  | .evict remote :: evs => recvTask (encrypters.erase remote) evs
  | .arrival a :: evs =>
    match recvOnce encrypters a with
    | .ok encrypters' => recvTask encrypters' evs
    | .error e => (encrypters, some (e, evs))

theorem recvTask_rest_length {c c' : SessionCache} {evs rest : List CacheEvent} {e : String}
    (h : recvTask c evs = (c', some (e, rest))) : rest.length < evs.length := by
  induction evs generalizing c with
  | nil => simp [recvTask] at h
  | cons ev evs ih =>
    cases ev with
    | evict remote => exact Nat.lt_succ_of_lt (ih h)
    | arrival a =>
      simp only [recvTask] at h
      split at h
      · exact Nat.lt_succ_of_lt (ih h)
      · cases h; exact Nat.lt_succ_self _

/-- `Immortal::respawn(RespawnStrategy::Immediate, ..)` around `recv_task`: after each error the
task starts again on the remaining arrivals, with the same shared cache. -/
def respawn (encrypters : SessionCache) (evs : List CacheEvent) : SessionCache :=
  match h : recvTask encrypters evs with
  | (c, none) => c
  | (c, some (_, rest)) =>
    have := recvTask_rest_length h
    respawn c rest
termination_by evs.length

/-! ## What the dispatcher changes -/

/-- The session an arrival installs: a `ClientHs` for which `CryptSession::new` succeeded. -/
def installs : Arrival → Option (Endpoint × CryptSession)
  | .datagram (.outer remote (some (.clientHs _))) (some session) _ => some (remote, session)
  | _ => none

/-- What an event does to the cache: an install sets an entry (`some`), an eviction drops one
(`none`). -/
def CacheEvent.change : CacheEvent → Option (Endpoint × Option CryptSession)
  | .arrival a => (installs a).map fun i => (i.1, some i.2)
  | .evict remote => some (remote, none)

/-- Apply a list of changes to a cache, in order. -/
def applyChanges (c : SessionCache) (l : List (Endpoint × Option CryptSession)) : SessionCache :=
  l.foldl (fun c ch => match ch.2 with
    | some session => c.insert ch.1 session
    | none => c.erase ch.1) c

/-- **One iteration.** An iteration that succeeds applies the arrival's install, if any. -/
theorem recvOnce_ok {c c' : SessionCache} {a : Arrival} (h : recvOnce c a = .ok c') :
    c' = applyChanges c (CacheEvent.arrival a).change.toList := by
  unfold recvOnce at h
  split at h <;> try contradiction
  next remote msg newSession delivered =>
    cases msg <;> simp only at h <;> split at h <;> (try split at h) <;>
      first | contradiction | (cases h; rfl)

/-- An iteration that fails installs nothing. -/
theorem recvOnce_error {c : SessionCache} {a : Arrival} {e : String}
    (h : recvOnce c a = .error e) : installs a = none := by
  unfold recvOnce at h
  split at h <;> try rfl
  next remote msg newSession delivered =>
    cases msg <;> simp only at h <;> first | rfl | (split at h <;> first | rfl | contradiction)

theorem applyChanges_append (c : SessionCache) (l l' : List (Endpoint × Option CryptSession)) :
    applyChanges c (l ++ l') = applyChanges (applyChanges c l) l' :=
  List.foldl_append _ _ _ _

/-- The loop: on waiting, the change of every event applied; on failure, those of the events up
to and including the failing arrival. -/
theorem recvTask_spec (c : SessionCache) (evs : List CacheEvent) :
    ∃ done, evs = done ++ ((recvTask c evs).2.map Prod.snd).getD [] ∧
      (recvTask c evs).1 = applyChanges c (done.filterMap CacheEvent.change) := by
  induction evs generalizing c with
  | nil => exact ⟨[], rfl, rfl⟩
  | cons ev evs ih =>
    cases ev with
    | evict remote =>
      obtain ⟨done, hd, hc⟩ := ih (c.erase remote)
      exact ⟨.evict remote :: done, congrArg _ hd, hc⟩
    | arrival a =>
      simp only [recvTask]
      split
      · next c' h =>
        obtain ⟨done, hd, hc⟩ := ih c'
        refine ⟨.arrival a :: done, congrArg _ hd, ?_⟩
        rw [hc, recvOnce_ok h, List.filterMap_cons]
        cases (CacheEvent.arrival a).change <;> rfl
      · next e h =>
        exact ⟨[.arrival a], rfl, by
          simp [List.filterMap_cons, CacheEvent.change, recvOnce_error h, applyChanges]⟩

/-- The dispatcher with its respawns applies exactly the changes of the events, in order. -/
theorem respawn_eq (c : SessionCache) (evs : List CacheEvent) :
    respawn c evs = applyChanges c (evs.filterMap CacheEvent.change) := by
  obtain ⟨done, hd, hc⟩ := recvTask_spec c evs
  rw [respawn.eq_1]
  split
  · next c' h =>
    simp only [h, Option.map_none', Option.getD_none, List.append_nil] at hd hc
    rw [hc, hd]
  · next c' e rest h =>
    simp only [h, Option.map_some', Option.getD_some] at hd hc
    have := recvTask_rest_length h
    dsimp only
    rw [respawn_eq c' rest, hc, ← applyChanges_append, ← List.filterMap_append, ← hd]
termination_by evs.length

/-- A change for another endpoint leaves the entry of `E` alone. -/
theorem lookup_applyChanges_of_ne (E : Endpoint) :
    ∀ (c : SessionCache) (l : List (Endpoint × Option CryptSession)), (∀ ch ∈ l, ch.1 ≠ E) →
      (applyChanges c l).lookup E = c.lookup E
  | _, [], _ => rfl
  | c, ch :: l, hE => by
    have hne : E ≠ ch.1 := (hE ch (List.mem_cons_self _ _)).symm
    rw [applyChanges, List.foldl_cons, ← applyChanges,
      lookup_applyChanges_of_ne E _ l fun j hj => hE j (List.mem_cons_of_mem _ hj)]
    split
    · exact AList.lookup_insert_ne hne
    · exact AList.lookup_erase_ne hne

/-- **The dispatcher only installs.** Over any arrivals and evictions, with every respawn in
between, the session cache becomes the initial one with, in order, the successful `ClientHs`
installs and the cache's evictions applied; an endpoint that no install and no eviction is for
keeps its session. -/
theorem dispatcher_only_installs (c : SessionCache) (evs : List CacheEvent) :
    respawn c evs = applyChanges c (evs.filterMap CacheEvent.change) ∧
      ∀ E, (∀ ch ∈ evs.filterMap CacheEvent.change, ch.1 ≠ E) →
        (respawn c evs).lookup E = c.lookup E := by
  refine ⟨respawn_eq c evs, fun E hE => ?_⟩
  rw [respawn_eq]
  exact lookup_applyChanges_of_ne E c _ hE

end Earendil.Haven
