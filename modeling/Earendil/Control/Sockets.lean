import Earendil.Basic

/-!
# The sockets map of the control protocol

`ControlProtocolImpl` keeps its bound sockets in a `DashMap<String, Socket>`. A `DashMap` is split
into shards, each behind a readers-writer lock; the shard of a key is fixed by its hash.
`sockets.get(id)` read-locks the shard of `id` for as long as the returned `Ref` lives, and
`sockets.insert(id, _)` write-locks it, waiting until no `Ref` into the shard is alive.

`send_message` and `recv_message` call `self.sockets.get(&id)` in an `if let`, and the `Ref` lives
to the end of that block, across `socket.send_to(..).await` and `socket.recv_from().await`.

**The state.** The set of bound ids, the number of live `Ref`s (readers) of each shard, and the
control calls with where each one is. A call runs without suspending up to its first `.await`
(`run`), and its socket I/O completes later (`ioDone`). Between steps no write lock is held: an
`insert` takes and releases it within one step, and can take it only when its shard has no
reader.

**Theorem (`readers_eq_suspended`).** In every reachable state, a shard's reader count is the
number of `send_message`/`recv_message` calls suspended in socket I/O on an id of that shard. So
while one is suspended, a `bind_n2r` or `bind_haven` on any id of the same shard cannot run.

**Failing input (`bind_blocked_by_pending_recv`).** `recv_message("s")` suspends in `recv_from`;
`bind_n2r("s")` cannot take the write lock until that receive completes.
-/

namespace Earendil.Control

/-- A control-protocol call, with the socket id it names. -/
inductive Request
  | bindN2r (socket_id : String)
  | bindHaven (socket_id : String)
  | sktInfo (socket_id : String)
  | sendMessage (socket_id : String)
  | recvMessage (socket_id : String)
  deriving DecidableEq, Repr

/-- The socket id a call names. -/
def Request.socketId : Request → String
  | .bindN2r id | .bindHaven id | .sktInfo id | .sendMessage id | .recvMessage id => id

/-- Where a call is. -/
inductive Pc
  | start
  /-- suspended in the socket's `send_to` or `recv_from`, holding the `Ref` -/
  | awaitingIo
  | done
  deriving DecidableEq, Repr

/-- A call in progress. -/
structure Thread where
  req : Request
  pc : Pc
  deriving DecidableEq, Repr

/-- The sockets map and the calls on it. `shardOf` is the `DashMap`'s choice of shard. -/
structure ControlState where
  sockets : List String
  readers : Nat → Nat
  threads : List Thread

/-- One step of one party. -/
inductive Action
  /-- a control call arrives -/
  | call (r : Request)
  /-- call `i` runs until its first `.await`, or to its end -/
  | run (i : Nat)
  /-- the socket I/O call `i` is suspended in completes -/
  | ioDone (i : Nat)

variable (shardOf : String → Nat)

namespace ControlState

/-- Call `i` moves to `pc`. -/
def setPc (w : ControlState) (i : Nat) (pc : Pc) : ControlState :=
  { w with threads := w.threads.modify (fun t => { t with pc := pc }) i }

/-- The state a step leads to, when the step is enabled. -/
def step (w : ControlState) : Action → Option ControlState
  | .call r => some { w with threads := w.threads ++ [⟨r, .start⟩] }
  | .run i =>
    match w.threads[i]? with
    | some ⟨.bindN2r id, .start⟩ | some ⟨.bindHaven id, .start⟩ =>
      -- `sockets.insert(id, socket)`: the write lock waits for the shard's readers
      if w.readers (shardOf id) = 0 then
        some { (w.setPc i .done) with sockets := id :: w.sockets.erase id }
      else none
    | some ⟨.sktInfo _, .start⟩ => some (w.setPc i .done)
    | some ⟨.sendMessage id, .start⟩ | some ⟨.recvMessage id, .start⟩ =>
      -- `if let Some(socket) = self.sockets.get(&id)`: the `Ref` is kept across the `.await`
      if id ∈ w.sockets then
        some { (w.setPc i .awaitingIo) with
          readers := Function.update w.readers (shardOf id) (w.readers (shardOf id) + 1) }
      else some (w.setPc i .done)
    | _ => none
  | .ioDone i =>
    match w.threads[i]? with
    | some ⟨.sendMessage id, .awaitingIo⟩ | some ⟨.recvMessage id, .awaitingIo⟩ =>
      some { (w.setPc i .done) with
        readers := Function.update w.readers (shardOf id) (w.readers (shardOf id) - 1) }
    | _ => none

/-- A run of steps, when each is enabled. -/
def run (w : ControlState) : List Action → Option ControlState
  | [] => some w
  | a :: as => (w.step shardOf a).bind (run · as)

/-- No sockets, no readers, no calls. -/
def init : ControlState := ⟨[], fun _ => 0, []⟩

/-! ## Who holds the shard locks -/

/-- A call suspended in socket I/O, holding its `Ref` into shard `k`. -/
def holdsRef (t : Thread) (k : Nat) : Bool :=
  t.pc = .awaitingIo && shardOf t.req.socketId = k &&
    match t.req with
    | .sendMessage _ | .recvMessage _ => true
    | _ => false

/-- Each shard's reader count is the number of calls holding a `Ref` into it. -/
def ReadersCounted (w : ControlState) : Prop :=
  ∀ k, w.readers k = w.threads.countP (holdsRef shardOf · k)

@[simp] theorem holdsRef_start (r : Request) (k : Nat) :
    holdsRef shardOf ⟨r, .start⟩ k = false := rfl

@[simp] theorem holdsRef_done (r : Request) (k : Nat) :
    holdsRef shardOf ⟨r, .done⟩ k = false := rfl

@[simp] theorem holdsRef_sendMessage (id : String) (k : Nat) :
    holdsRef shardOf ⟨.sendMessage id, .awaitingIo⟩ k = decide (shardOf id = k) := by
  simp [holdsRef, Request.socketId]

@[simp] theorem holdsRef_recvMessage (id : String) (k : Nat) :
    holdsRef shardOf ⟨.recvMessage id, .awaitingIo⟩ k = decide (shardOf id = k) := by
  simp [holdsRef, Request.socketId]

@[simp] theorem readers_setPc (w : ControlState) (i : Nat) (pc : Pc) :
    (w.setPc i pc).readers = w.readers := rfl

theorem readersCounted_init : (init : ControlState).ReadersCounted shardOf := fun _ => rfl

/-- Moving one call from `pc` to `pc'` changes the count of `Ref` holders by what that call
held before and after. -/
theorem countP_setPc (w : ControlState) {i : Nat} {r : Request} {pc : Pc} (pc' : Pc) (k : Nat)
    (ht : w.threads[i]? = some ⟨r, pc⟩) :
    (w.setPc i pc').threads.countP (holdsRef shardOf · k) +
        (if holdsRef shardOf ⟨r, pc⟩ k then 1 else 0) =
      w.threads.countP (holdsRef shardOf · k) + (if holdsRef shardOf ⟨r, pc'⟩ k then 1 else 0) :=
  countP_modify _ _ w.threads i _ ht

/-- A call moves from `pc` to `pc'`, and the reader counts become `readers`: they stay right
when `readers` changes by what the call held before and after. -/
theorem ReadersCounted.setPc {w : ControlState} (hw : w.ReadersCounted shardOf) {i : Nat}
    {r : Request} {pc : Pc} (pc' : Pc) (ht : w.threads[i]? = some ⟨r, pc⟩) (readers : Nat → Nat)
    (hr : ∀ k, readers k + (if holdsRef shardOf ⟨r, pc⟩ k then 1 else 0) =
      w.readers k + (if holdsRef shardOf ⟨r, pc'⟩ k then 1 else 0)) :
    { w.setPc i pc' with readers := readers }.ReadersCounted shardOf := fun k => by
  have := countP_setPc shardOf w pc' k ht
  have := hr k
  have := hw k
  show readers k = (w.setPc i pc').threads.countP (holdsRef shardOf · k)
  omega

/-- A call takes a `Ref` into the shard of `id`, which gains a reader. -/
theorem ReadersCounted.acquire {w : ControlState} (hw : w.ReadersCounted shardOf) {i : Nat}
    {id : String} {r : Request} (ht : w.threads[i]? = some ⟨r, .start⟩)
    (hh : ∀ k, holdsRef shardOf ⟨r, .awaitingIo⟩ k = decide (shardOf id = k)) :
    ReadersCounted shardOf { w.setPc i .awaitingIo with
      readers := Function.update w.readers (shardOf id) (w.readers (shardOf id) + 1) } :=
  hw.setPc shardOf _ ht _ fun k => by
    by_cases hs : shardOf id = k
    · subst hs; simp [hh]
    · simp [hh, hs, Ne.symm hs, Function.update_apply]

/-- A call drops its `Ref` into the shard of `id`, which loses a reader. -/
theorem ReadersCounted.release {w : ControlState} (hw : w.ReadersCounted shardOf) {i : Nat}
    {id : String} {r : Request} (ht : w.threads[i]? = some ⟨r, .awaitingIo⟩)
    (hh : ∀ k, holdsRef shardOf ⟨r, .awaitingIo⟩ k = decide (shardOf id = k)) :
    ReadersCounted shardOf { w.setPc i .done with
      readers := Function.update w.readers (shardOf id) (w.readers (shardOf id) - 1) } := by
  have hpos : 0 < w.readers (shardOf id) := (hw _).symm ▸
    List.countP_pos_iff.2 ⟨_, List.getElem?_mem ht, by simp [hh]⟩
  refine hw.setPc shardOf _ ht _ fun k => ?_
  by_cases hs : shardOf id = k
  · subst hs; simp [hh]; omega
  · simp [hh, hs, Ne.symm hs, Function.update_apply]

/-- **One step.** Every step keeps the reader counts right. -/
theorem ReadersCounted.step {w w' : ControlState} {a : Action} (hw : w.ReadersCounted shardOf)
    (h : w.step shardOf a = some w') : w'.ReadersCounted shardOf := by
  cases a with
  | call r =>
    cases h
    intro k
    simp [hw k, List.countP_append]
  | run i =>
    simp only [ControlState.step] at h
    split at h
    · next ht => split at h <;> cases h; exact hw.setPc shardOf .done ht _ fun _ => rfl
    · next ht => split at h <;> cases h; exact hw.setPc shardOf .done ht _ fun _ => rfl
    · next ht => cases h; exact hw.setPc shardOf .done ht _ fun _ => rfl
    · next ht =>
      split at h <;> cases h
      · exact hw.acquire shardOf ht (holdsRef_sendMessage shardOf _)
      · exact hw.setPc shardOf .done ht _ fun _ => rfl
    · next ht =>
      split at h <;> cases h
      · exact hw.acquire shardOf ht (holdsRef_recvMessage shardOf _)
      · exact hw.setPc shardOf .done ht _ fun _ => rfl
    · cases h
  | ioDone i =>
    simp only [ControlState.step] at h
    split at h <;> cases h
    · next ht => exact hw.release shardOf ht (holdsRef_sendMessage shardOf _)
    · next ht => exact hw.release shardOf ht (holdsRef_recvMessage shardOf _)

theorem ReadersCounted.run {w w' : ControlState} {acts : List Action}
    (hw : w.ReadersCounted shardOf) (h : w.run shardOf acts = some w') :
    w'.ReadersCounted shardOf := by
  induction acts generalizing w with
  | nil => cases h; exact hw
  | cons a as ih =>
    simp only [ControlState.run, Option.bind_eq_some] at h
    obtain ⟨w₁, h₁, h₂⟩ := h
    exact ih (hw.step shardOf h₁) h₂

/-- **Reader counts.** In every reachable state, each shard's reader count is the number of
`send_message`/`recv_message` calls suspended in socket I/O on an id of that shard. -/
theorem readers_eq_suspended {w : ControlState} {acts : List Action}
    (h : init.run shardOf acts = some w) : w.ReadersCounted shardOf :=
  (readersCounted_init shardOf).run shardOf h

/-- While a `send_message` or `recv_message` is suspended in socket I/O on `id`, a bind of any id
in the same shard cannot take the shard's write lock. -/
theorem bind_blocked {w : ControlState} {acts : List Action} (h : init.run shardOf acts = some w)
    {i j : Nat} {t : Thread} {id' : String} (hj : w.threads[j]? = some t)
    (ht : holdsRef shardOf t (shardOf id')) (hi : w.threads[i]? = some ⟨.bindN2r id', .start⟩) :
    w.step shardOf (.run i) = none := by
  have hr : 0 < w.readers (shardOf id') := by
    rw [readers_eq_suspended shardOf h]
    exact List.countP_pos_iff.2 ⟨t, List.getElem?_mem hj, ht⟩
  simp [ControlState.step, hi, Nat.pos_iff_ne_zero.1 hr]

/-- `bind_n2r("s")`, then `recv_message("s")`, which suspends in `recv_from`; a second
`bind_n2r("s")` cannot run until that receive completes, and can once it has. -/
theorem bind_blocked_by_pending_recv :
    ∃ w, init.run shardOf [.call (.bindN2r "s"), .run 0, .call (.recvMessage "s"), .run 1,
        .call (.bindN2r "s")] = some w ∧
      w.threads[1]? = some ⟨.recvMessage "s", .awaitingIo⟩ ∧
      w.step shardOf (.run 2) = none ∧
      ((w.step shardOf (.ioDone 1)).bind (·.step shardOf (.run 2))).isSome := by
  refine ⟨_, rfl, rfl, @bind_blocked shardOf _ [.call (.bindN2r "s"), .run 0,
    .call (.recvMessage "s"), .run 1, .call (.bindN2r "s")] rfl 2 1
    ⟨.recvMessage "s", .awaitingIo⟩ "s" rfl (by simp) rfl, ?_⟩
  simp [ControlState.step, setPc, init]

end ControlState

end Earendil.Control
