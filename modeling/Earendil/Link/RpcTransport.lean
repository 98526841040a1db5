import Earendil.Basic

/-!
# The multiplex-backed RPC transport

`MultiplexRpcTransport` of `daemon/link_connection.rs` sends JSON-RPC requests to the neighbour
over `n2n_control` substreams, one request line and one response line per call, and keeps idle
substreams in `conn_pool`, a FIFO queue of connections tagged with the instant they were put back.

`call_raw(req)`:

1. `get_conn()` pops entries until one is younger than `POOL_TIMEOUT` (60 s), dropping the older
   ones, and otherwise opens a new substream;
2. the connection goes into a `scopeguard` whose closure pushes it back onto `conn_pool`, tagged
   with `Instant::now()`, whenever the guard is dropped;
3. the request line is written, one line is read back and parsed.

The guard is dropped on every exit from step 2 on: a return of `Ok`, every `?` that returns an
error, and the drop of the future when the caller cancels the call at an `.await`. Its closure
builds `(v, Instant::now())` and then calls `ConcurrentQueue::push`: the clock is read in one
step and the entry pushed in another, and the guards of calls on other threads can push in
between.

The other end runs the server loop of `connection_loop`: it reads the request lines of a
substream in order and writes one response line for each.

**The state.** The pool, the substreams (the request lines not yet read by the server, and the
response lines not yet read by the client, each response named by the request it answers), the
clock, and the calls with where each one is. Each `Action` is one atomic step of one party; an
`.await` that can fail carries its outcome. The step by which a call leaves (a return, an error,
a cancel) also reads the clock for its guard; the guard's `push` is a step of its own.

**Theorem (`exclusive_of_reachable`).** In every reachable state no two calls hold the same
connection, and no held connection is in the pool.

**Failing input (`cancelled_call_cross_talk`).** A call cancelled after writing its request puts
its connection back with the response to that request still unread; the next call takes the
connection, writes its own request, and returns the cancelled call's response.

**Failing input (`failed_call_returns_conn`).** A call whose read fails returns `Err` and still
puts its connection back, tagged with the instant its guard read.
-/

namespace Earendil.Link

/-- `POOL_TIMEOUT` (60 s), in nanoseconds. -/
def POOL_TIMEOUT : Nat := 60000000000

/-- A request, known by its identity; a response line is named by the request it answers. -/
abbrev Req := Nat

/-- One `n2n_control` substream, as seen from both ends. -/
structure Substream where
  /-- request lines written by the client, not yet read by the server -/
  requests : List Req
  /-- response lines written by the server, not yet read by the client -/
  responses : List Req
  deriving DecidableEq, Repr

/-- How a call ends: it returns `Ok` with a response line or `Err` (`none`), or its future is
dropped. -/
inductive CallEnd
  | returned (resp : Option Req)
  | cancelled
  deriving DecidableEq, Repr

/-- Where a `call_raw` is. -/
inductive CallPhase
  /-- called, `get_conn` not yet run -/
  | start
  /-- in `get_conn`, awaiting `open_conn("n2n_control")` -/
  | opening
  /-- holds connection `c` in the guard, awaiting `write_all` of the request line -/
  | writing (c : Nat)
  /-- holds connection `c`, awaiting `read_line` -/
  | reading (c : Nat)
  /-- returned `Ok` with a response line, or `Err` (`none`) -/
  | returned (resp : Option Req)
  /-- the future was dropped -/
  | cancelled
  /-- the call ends as `e`: its guard's closure has read `Instant::now()` as `stamp` and is
  about to push connection `c` -/
  | releasing (c stamp : Nat) (e : CallEnd)
  deriving DecidableEq, Repr

/-- The phase a call that ends as `e` is left in. -/
def CallEnd.phase : CallEnd → CallPhase
  | .returned resp => .returned resp
  | .cancelled => .cancelled

/-- The connection a call holds in its scopeguard. -/
def CallPhase.held : CallPhase → Option Nat
  | .writing c | .reading c | .releasing c _ _ => some c
  | _ => none

@[simp] theorem CallPhase.held_start : CallPhase.start.held = none := rfl
@[simp] theorem CallPhase.held_opening : CallPhase.opening.held = none := rfl
@[simp] theorem CallPhase.held_writing (c : Nat) : (CallPhase.writing c).held = some c := rfl
@[simp] theorem CallPhase.held_reading (c : Nat) : (CallPhase.reading c).held = some c := rfl
@[simp] theorem CallPhase.held_returned (r : Option Req) : (CallPhase.returned r).held = none :=
  rfl
@[simp] theorem CallPhase.held_cancelled : CallPhase.cancelled.held = none := rfl
@[simp] theorem CallPhase.held_releasing (c t : Nat) (e : CallEnd) :
    (CallPhase.releasing c t e).held = some c := rfl
@[simp] theorem CallEnd.held_phase (e : CallEnd) : e.phase.held = none := by cases e <;> rfl

/-- A `call_raw(req)`. -/
structure Call where
  req : Req
  phase : CallPhase
  deriving DecidableEq, Repr

/-- The transport, its substreams, the clock and the calls. -/
structure Transport where
  connPool : List (Nat × Nat)
  streams : List Substream
  now : Nat
  calls : List Call
  deriving DecidableEq, Repr

/-- One atomic step of one party. -/
inductive Action
  /-- a new `call_raw(req)` -/
  | call (req : Req)
  /-- call `i` runs `get_conn`'s loop over the pool -/
  | getConn (i : Nat)
  /-- `open_conn` returns in call `i` -/
  | opened (i : Nat) (ok : Bool)
  /-- `write_all` of the request line returns in call `i` -/
  | written (i : Nat) (ok : Bool)
  /-- `read_line` returns call `i` a response line that parses (`ok`); or it fails, or finds the
  end of the stream and the empty line fails to parse, and nothing is consumed -/
  | read (i : Nat) (ok : Bool)
  /-- `read_line` returns call `i` a complete line that `serde_json` fails to parse: the line is
  consumed, and the call returns `Err` -/
  | parseFailed (i : Nat)
  /-- call `i`'s future is dropped -/
  | cancel (i : Nat)
  /-- the guard's closure of call `i` pushes its connection, with the instant it read -/
  | push (i : Nat)
  /-- the server reads the next request line of substream `c` and writes its response -/
  | serve (c : Nat)
  /-- `d` nanoseconds pass -/
  | tick (d : Nat)

/-- The loop of `get_conn`: pop entries until one is younger than `POOL_TIMEOUT`. -/
def popFresh (now : Nat) : List (Nat × Nat) → Option Nat × List (Nat × Nat)
  | [] => (none, [])
  | (c, time) :: rest => if now - time < POOL_TIMEOUT then (some c, rest) else popFresh now rest

theorem popFresh_sublist (now : Nat) :
    ∀ pool : List (Nat × Nat), List.Sublist
      ((popFresh now pool).1.toList ++ (popFresh now pool).2.map Prod.fst) (pool.map Prod.fst)
  | [] => by simp [popFresh]
  | (c, time) :: rest => by
    simp only [popFresh]
    split
    · simp
    · exact (popFresh_sublist now rest).trans (List.sublist_cons_self _ _)

namespace Transport

/-- Call `i` moves to `phase`. -/
def setPhase (w : Transport) (i : Nat) (phase : CallPhase) : Transport :=
  { w with calls := w.calls.modify (fun c => { c with phase := phase }) i }

/-- The guard's `conn_pool.push((conn, time))`, with the instant `time` its closure read. -/
def pushBack (w : Transport) (c time : Nat) : Transport :=
  { w with connPool := w.connPool ++ [(c, time)] }

/-- Call `i` leaves as `e` holding connection `c`; its guard reads the clock. -/
def release (w : Transport) (i c : Nat) (e : CallEnd) : Transport :=
  w.setPhase i (.releasing c w.now e)

/-- Substream `c` after `f`. -/
def modifyStream (w : Transport) (c : Nat) (f : Substream → Substream) : Transport :=
  { w with streams := w.streams.modify f c }

/-- The state a step leads to, when the step is enabled. -/
def step (w : Transport) : Action → Option Transport
  | .call req => some { w with calls := w.calls ++ [⟨req, .start⟩] }
  | .getConn i =>
    match w.calls[i]? with
    | some ⟨_, .start⟩ =>
      match popFresh w.now w.connPool with
      | (some c, rest) => some ({ w with connPool := rest }.setPhase i (.writing c))
      | (none, rest) => some ({ w with connPool := rest }.setPhase i .opening)
    | _ => none
  | .opened i ok =>
    match w.calls[i]? with
    | some ⟨_, .opening⟩ =>
      if ok then some ({ w with streams := w.streams ++ [(⟨[], []⟩ : Substream)] }.setPhase i
        (.writing w.streams.length))
      else some (w.setPhase i (.returned none))
    | _ => none
  | .written i ok =>
    match w.calls[i]? with
    | some ⟨req, .writing c⟩ =>
      if ok then some ((w.modifyStream c fun s => { s with requests := s.requests ++ [req] })
        |>.setPhase i (.reading c))
      else some (w.release i c (.returned none))
    | _ => none
  | .read i ok =>
    match w.calls[i]? with
    | some ⟨_, .reading c⟩ =>
      if ok then
        match (w.streams[c]?).bind (·.responses.head?) with
        | some line => some ((w.modifyStream c fun s => { s with responses := s.responses.tail })
            |>.release i c (.returned (some line)))
        | none => none
      else some (w.release i c (.returned none))
    | _ => none
  | .parseFailed i =>
    match w.calls[i]? with
    | some ⟨_, .reading c⟩ =>
      match (w.streams[c]?).bind (·.responses.head?) with
      | some _ => some ((w.modifyStream c fun s => { s with responses := s.responses.tail })
          |>.release i c (.returned none))
      | none => none
    | _ => none
  | .cancel i =>
    match w.calls[i]? with
    | some ⟨_, .writing c⟩ | some ⟨_, .reading c⟩ => some (w.release i c .cancelled)
    | some ⟨_, .start⟩ | some ⟨_, .opening⟩ => some (w.setPhase i .cancelled)
    | _ => none
  | .push i =>
    match w.calls[i]? with
    | some ⟨_, .releasing c time e⟩ => some ((w.pushBack c time).setPhase i e.phase)
    | _ => none
  | .serve c =>
    match w.streams[c]? with
    | some ⟨req :: reqs, resps⟩ =>
      some { w with streams := w.streams.set c ({ requests := reqs, responses := resps ++ [req] }) }
    | _ => none
  | .tick d => some { w with now := w.now + d }

/-- A run of steps, when each is enabled. -/
def run (w : Transport) : List Action → Option Transport
  | [] => some w
  | a :: as => (w.step a).bind (run · as)

/-- `MultiplexRpcTransport::new`: an empty pool, no substream, no call. -/
def init (now : Nat) : Transport := ⟨[], [], now, []⟩

@[simp] theorem streams_setPhase (w : Transport) (i : Nat) (p : CallPhase) :
    (w.setPhase i p).streams = w.streams := rfl

@[simp] theorem connPool_setPhase (w : Transport) (i : Nat) (p : CallPhase) :
    (w.setPhase i p).connPool = w.connPool := rfl

@[simp] theorem streams_pushBack (w : Transport) (c t : Nat) :
    (w.pushBack c t).streams = w.streams := rfl

@[simp] theorem calls_pushBack (w : Transport) (c t : Nat) : (w.pushBack c t).calls = w.calls :=
  rfl

@[simp] theorem now_modifyStream (w : Transport) (c : Nat) (f : Substream → Substream) :
    (w.modifyStream c f).now = w.now := rfl

@[simp] theorem calls_modifyStream (w : Transport) (c : Nat) (f : Substream → Substream) :
    (w.modifyStream c f).calls = w.calls := rfl

@[simp] theorem connPool_modifyStream (w : Transport) (c : Nat) (f : Substream → Substream) :
    (w.modifyStream c f).connPool = w.connPool := rfl

@[simp] theorem length_streams_modifyStream (w : Transport) (c : Nat) (f : Substream → Substream) :
    (w.modifyStream c f).streams.length = w.streams.length := List.length_modify _ _ _

/-! ## What a step does -/

/-- The ways a step of `step` can succeed, with the guard each one passed. -/
inductive Moves (w : Transport) : Action → Transport → Prop
  | call (req : Req) : Moves w (.call req) { w with calls := w.calls ++ [⟨req, .start⟩] }
  | pooled {i : Nat} {r : Req} {c : Nat} {rest : List (Nat × Nat)} :
      w.calls[i]? = some ⟨r, .start⟩ → popFresh w.now w.connPool = (some c, rest) →
      Moves w (.getConn i) ({ w with connPool := rest }.setPhase i (.writing c))
  | opening {i : Nat} {r : Req} {rest : List (Nat × Nat)} :
      w.calls[i]? = some ⟨r, .start⟩ → popFresh w.now w.connPool = (none, rest) →
      Moves w (.getConn i) ({ w with connPool := rest }.setPhase i .opening)
  | opened {i : Nat} {r : Req} : w.calls[i]? = some ⟨r, .opening⟩ →
      Moves w (.opened i true) ({ w with streams := w.streams ++ [(⟨[], []⟩ : Substream)] }.setPhase
        i (.writing w.streams.length))
  | openFailed {i : Nat} {r : Req} : w.calls[i]? = some ⟨r, .opening⟩ →
      Moves w (.opened i false) (w.setPhase i (.returned none))
  | written {i : Nat} {req : Req} {c : Nat} : w.calls[i]? = some ⟨req, .writing c⟩ →
      Moves w (.written i true)
        ((w.modifyStream c fun s => { s with requests := s.requests ++ [req] }).setPhase i
          (.reading c))
  | writeFailed {i : Nat} {r : Req} {c : Nat} : w.calls[i]? = some ⟨r, .writing c⟩ →
      Moves w (.written i false) (w.setPhase i (.releasing c w.now (.returned none)))
  | read {i : Nat} {r : Req} {c line : Nat} : w.calls[i]? = some ⟨r, .reading c⟩ →
      (w.streams[c]?).bind (·.responses.head?) = some line →
      Moves w (.read i true)
        ((w.modifyStream c fun s => { s with responses := s.responses.tail }).setPhase i
          (.releasing c w.now (.returned (some line))))
  | readFailed {i : Nat} {r : Req} {c : Nat} : w.calls[i]? = some ⟨r, .reading c⟩ →
      Moves w (.read i false) (w.setPhase i (.releasing c w.now (.returned none)))
  | parseFailed {i : Nat} {r : Req} {c line : Nat} : w.calls[i]? = some ⟨r, .reading c⟩ →
      (w.streams[c]?).bind (·.responses.head?) = some line →
      Moves w (.parseFailed i)
        ((w.modifyStream c fun s => { s with responses := s.responses.tail }).setPhase i
          (.releasing c w.now (.returned none)))
  | cancelWriting {i : Nat} {r : Req} {c : Nat} : w.calls[i]? = some ⟨r, .writing c⟩ →
      Moves w (.cancel i) (w.setPhase i (.releasing c w.now .cancelled))
  | cancelReading {i : Nat} {r : Req} {c : Nat} : w.calls[i]? = some ⟨r, .reading c⟩ →
      Moves w (.cancel i) (w.setPhase i (.releasing c w.now .cancelled))
  | push {i : Nat} {r : Req} {c time : Nat} {e : CallEnd} :
      w.calls[i]? = some ⟨r, .releasing c time e⟩ →
      Moves w (.push i) ((w.pushBack c time).setPhase i e.phase)
  | cancelIdle {i : Nat} {r : Req} {q : CallPhase} : w.calls[i]? = some ⟨r, q⟩ →
      q = .start ∨ q = .opening → Moves w (.cancel i) (w.setPhase i .cancelled)
  | serve {c : Nat} {req : Req} {reqs resps : List Req} :
      w.streams[c]? = some ⟨req :: reqs, resps⟩ →
      Moves w (.serve c) { w with streams := w.streams.set c ⟨reqs, resps ++ [req]⟩ }
  | tick (d : Nat) : Moves w (.tick d) { w with now := w.now + d }

/-- **What a step can do.** Every enabled step is one of the `Moves`; the invariants below are
proved from this alone. -/
theorem moves_of_step {w w' : Transport} {a : Action} (hs : w.step a = some w') :
    Moves w a w' := by
  cases a with
  | call req => cases hs; exact .call req
  | getConn i =>
    simp only [Transport.step] at hs
    split at hs
    · next ht =>
      split at hs <;> cases hs
      · next hpop => exact .pooled ht hpop
      · next hpop => exact .opening ht hpop
    · cases hs
  | opened i ok =>
    cases ok <;> simp only [Transport.step, Bool.false_eq_true, if_true, if_false] at hs <;>
      split at hs <;> cases hs
    · next ht => exact .openFailed ht
    · next ht => exact .opened ht
  | written i ok =>
    cases ok <;> simp only [Transport.step, Bool.false_eq_true, if_true, if_false] at hs <;>
      split at hs <;> cases hs
    · next ht => exact .writeFailed ht
    · next ht => exact .written ht
  | read i ok =>
    cases ok <;> simp only [Transport.step, Bool.false_eq_true, if_true, if_false] at hs <;>
      split at hs
    · next ht => cases hs; exact .readFailed ht
    · cases hs
    · next ht => split at hs <;> cases hs; next hl => exact .read ht hl
    · cases hs
  | parseFailed i =>
    simp only [Transport.step] at hs
    split at hs
    · next ht => split at hs <;> cases hs; next hl => exact .parseFailed ht hl
    · cases hs
  | cancel i =>
    simp only [Transport.step] at hs
    split at hs <;> cases hs
    · next ht => exact .cancelWriting ht
    · next ht => exact .cancelReading ht
    · next ht => exact .cancelIdle ht (.inl rfl)
    · next ht => exact .cancelIdle ht (.inr rfl)
  | push i =>
    simp only [Transport.step] at hs
    split at hs <;> cases hs
    next ht => exact .push ht
  | serve c =>
    simp only [Transport.step] at hs
    split at hs <;> cases hs
    next hc => exact .serve hc
  | tick d => cases hs; exact .tick d

/-! ## Who holds a connection -/

/-- Every connection held by a call or sitting in the pool, with repetitions. -/
def owners (w : Transport) : List Nat :=
  w.calls.filterMap (·.phase.held) ++ w.connPool.map Prod.fst

/-- No connection is held by two calls, held and pooled, or pooled twice; and each is a
substream that was opened. -/
def Exclusive (w : Transport) : Prop :=
  w.owners.Nodup ∧ ∀ c ∈ w.owners, c < w.streams.length

theorem count_owners_setPhase (w : Transport) {i : Nat} {call : Call} (p : CallPhase)
    (ht : w.calls[i]? = some call) (c : Nat) :
    (w.setPhase i p).owners.count c + call.phase.held.toList.count c =
      w.owners.count c + p.held.toList.count c := by
  have := (filterMap_modify_perm (·.phase.held) (fun t => { t with phase := p }) _ i call ht).count_eq c
  simp only [owners, setPhase, List.count_append] at this ⊢
  omega

@[simp] theorem count_owners_pushBack (w : Transport) (c t c' : Nat) :
    (w.pushBack c t).owners.count c' = w.owners.count c' + [c].count c' := by
  simp [owners, pushBack, List.count_append, Nat.add_assoc]

theorem Exclusive.of_count_le {w w' : Transport} (h : w.Exclusive)
    (hc : ∀ c, w'.owners.count c ≤ w.owners.count c)
    (hl : w.streams.length ≤ w'.streams.length) : w'.Exclusive := by
  refine ⟨List.nodup_iff_count_le_one.2 fun c =>
    (hc c).trans (List.nodup_iff_count_le_one.1 h.1 c), fun c hm => ?_⟩
  have := List.count_pos_iff.2 hm
  exact Nat.lt_of_lt_of_le (h.2 c (List.count_pos_iff.1 (by have := hc c; omega))) hl

/-- A call's guard puts its connection back, and the call ends. -/
theorem Exclusive.release {w : Transport} (h : w.Exclusive) {i c : Nat} {call : Call}
    (ht : w.calls[i]? = some call) (hc : call.phase.held = some c) {p : CallPhase}
    (hp : p.held = none) (t : Nat) : ((w.pushBack c t).setPhase i p).Exclusive := by
  refine h.of_count_le (fun c' => ?_) le_rfl
  have := count_owners_setPhase (w.pushBack c t) p ht c'
  simp only [hc, hp, Option.toList_some, Option.toList_none, List.count_nil,
    count_owners_pushBack] at this
  omega

/-- A call moves to a phase that holds what it held before. -/
theorem Exclusive.setPhase {w w' : Transport} (h : w.Exclusive) {i : Nat} {call : Call}
    (ht : w.calls[i]? = some call) (p : CallPhase) (hp : p.held = call.phase.held)
    (hw' : w'.owners = (w.setPhase i p).owners) (hl : w.streams.length ≤ w'.streams.length) :
    w'.Exclusive := by
  refine h.of_count_le (fun c' => ?_) hl
  have := count_owners_setPhase w p ht c'
  rw [hw']
  rw [hp] at this
  omega

/-- A call that held nothing takes what the loop of `get_conn` found in the pool, and the pool
keeps the rest. -/
theorem Exclusive.getConn {w : Transport} (h : w.Exclusive) {i : Nat} {call : Call}
    (ht : w.calls[i]? = some call) (hc : call.phase.held = none) (p : CallPhase)
    {rest : List (Nat × Nat)} (hpop : popFresh w.now w.connPool = (p.held, rest)) :
    ({ w with connPool := rest }.setPhase i p).Exclusive := by
  have hsub := popFresh_sublist w.now w.connPool
  rw [hpop] at hsub
  refine h.of_count_le (fun c => ?_) le_rfl
  have := count_owners_setPhase { w with connPool := rest } p ht c
  have hle := hsub.count_le c
  simp only [hc, Option.toList_none, List.count_nil, List.count_append] at this hle
  simp only [owners, List.count_append] at this ⊢
  omega

/-- No call holds the substream a new connection opens. -/
theorem Exclusive.count_owners_length {w : Transport} (h : w.Exclusive) :
    w.owners.count w.streams.length = 0 :=
  List.count_eq_zero.2 fun hm => (h.2 _ hm).false

/-- A call that held nothing takes the substream it has just opened. -/
theorem Exclusive.acquire_new {w : Transport} (h : w.Exclusive) {i : Nat} {call : Call}
    (ht : w.calls[i]? = some call) (hc : call.phase.held = none) (s : Substream) :
    ({ w with streams := w.streams ++ [s] }.setPhase i (.writing w.streams.length)).Exclusive := by
  have hcount := fun c => count_owners_setPhase { w with streams := w.streams ++ [s] }
    (.writing w.streams.length) ht c
  rw [show ({ w with streams := w.streams ++ [s] } : Transport).owners = w.owners from rfl] at hcount
  have hlen : ({ w with streams := w.streams ++ [s] }.setPhase i
      (.writing w.streams.length)).streams.length = w.streams.length + 1 := by simp
  generalize ({ w with streams := w.streams ++ [s] }.setPhase i (.writing w.streams.length)) = W
    at hcount hlen ⊢
  have hfresh := h.count_owners_length
  have key : ∀ c, W.owners.count c ≤ 1 ∧ (0 < W.owners.count c → c < W.streams.length) := by
    intro c
    have hle := List.nodup_iff_count_le_one.1 h.1 c
    have := hcount c
    by_cases hc' : c = w.streams.length
    · subst hc'; simp [hc] at this; omega
    · simp [hc, List.count_cons, hc'] at this
      exact ⟨by omega, fun hp => hlen ▸ Nat.lt_succ_of_lt (h.2 c (List.count_pos_iff.1 (by omega)))⟩
  exact ⟨List.nodup_iff_count_le_one.2 fun c => (key c).1,
    fun c hm => (key c).2 (List.count_pos_iff.2 hm)⟩

/-- **One step.** Every step keeps connections exclusive. -/
theorem Exclusive.step {w w' : Transport} {a : Action} (h : w.Exclusive)
    (hs : w.step a = some w') : w'.Exclusive := by
  cases moves_of_step hs with
  | call req => exact h.of_count_le (fun c => by simp [owners]) le_rfl
  | pooled ht hpop => exact h.getConn ht rfl (.writing _) hpop
  | opening ht hpop => exact h.getConn ht rfl .opening hpop
  | opened ht => exact h.acquire_new ht rfl _
  | openFailed ht => exact h.setPhase ht (.returned none) rfl rfl le_rfl
  | written ht | read ht _ | parseFailed ht _ => exact h.setPhase ht _ (by rfl) rfl (by simp)
  | writeFailed ht | readFailed ht | cancelWriting ht | cancelReading ht =>
    exact h.setPhase ht _ (by rfl) rfl le_rfl
  | push ht => exact h.release ht rfl (CallEnd.held_phase _) _
  | cancelIdle ht hq =>
    exact h.setPhase ht .cancelled (by rcases hq with rfl | rfl <;> rfl) rfl le_rfl
  | serve _ => exact h.of_count_le (fun _ => le_rfl) (by simp)
  | tick d => exact h.of_count_le (fun _ => le_rfl) le_rfl

/-- **Every run.** -/
theorem Exclusive.run {w w' : Transport} (h : w.Exclusive) :
    ∀ {as : List Action}, w.run as = some w' → w'.Exclusive
  | [], hr => by cases hr; exact h
  | a :: as, hr => by
    simp only [Transport.run, Option.bind_eq_some] at hr
    obtain ⟨w₁, h₁, h₂⟩ := hr
    exact (h.step h₁).run h₂

theorem exclusive_init (now : Nat) : (init now).Exclusive := by
  simp [Exclusive, owners, init]

/-- Call `0` writes request `0` on a fresh substream, the server answers it, and call `0` is
cancelled before its read: the guard puts the substream back. Call `1` takes it from the pool,
writes request `1`, and reads the line the server wrote for request `0`. -/
theorem cancelled_call_cross_talk :
    ∃ w, (init 0).run [.call 0, .getConn 0, .opened 0 true, .written 0 true, .serve 0, .cancel 0,
        .push 0, .call 1, .getConn 1, .written 1 true, .read 1 true, .push 1] = some w ∧
      w.calls[1]? = some ⟨1, .returned (some 0)⟩ :=
  ⟨_, rfl, rfl⟩

/-- The read of call `0` fails, so `call_raw` returns `Err`; its guard still puts the substream
back, tagged with the instant it read, and the next call takes that substream. -/
theorem failed_call_returns_conn :
    ∃ w, (init 0).run [.call 0, .getConn 0, .opened 0 true, .written 0 true, .read 0 false,
        .push 0] = some w ∧ w.calls[0]? = some ⟨0, .returned none⟩ ∧ w.connPool = [(0, 0)] ∧
      ((w.step (.call 1)).bind (·.step (.getConn 1))).map (·.calls[1]?) =
        some (some ⟨1, .writing 0⟩) :=
  ⟨_, rfl, rfl, rfl, rfl⟩

end Transport

end Earendil.Link
