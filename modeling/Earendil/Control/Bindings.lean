import Earendil.Control.Sockets

/-!
# Which ids are bound

The control protocol writes its `DashMap` of sockets only in `bind_n2r` and `bind_haven`, with
`sockets.insert(socket_id, socket)`, which replaces the socket of an id that is bound already;
nothing removes an entry. `skt_info`, `send_message` and `recv_message` read it with
`sockets.get(&id)` and answer `ControlProtErr::NoSocket` when the id has no entry.

**Theorem (`sockets_hold_completed_binds`).** In every state reachable over any interleaving of
control calls, the map holds each id once, and holds exactly the ids of the `bind_n2r` and
`bind_haven` calls that have run. So an id, once bound, stays bound. `skt_info(id)` answers
`NoSocket` exactly when no bind of `id` has run. A `send_message` or `recv_message` on `id` finds a
socket and suspends in socket I/O exactly when a bind of `id` has run before it, and otherwise
returns `NoSocket`.
-/

namespace Earendil.Control

/-- The id a call has bound: a `bind_n2r` or `bind_haven` that has run. -/
def Thread.bound : Thread → Option String
  | ⟨.bindN2r id, .done⟩ | ⟨.bindHaven id, .done⟩ => some id
  | _ => none

@[simp] theorem Thread.bound_start (r : Request) : Thread.bound ⟨r, .start⟩ = none := by
  cases r <;> rfl

/-- `ControlProtErr`. -/
inductive ControlProtErr
  /-- `#[error(transparent)] SocketSendError` -/
  | socketSendError (e : String)
  /-- `#[error(transparent)] SocketRecvError` -/
  | socketRecvError (e : String)
  | noSocket
  deriving DecidableEq, Repr

variable (shardOf : String → Nat)

namespace ControlState

/-- `skt_info(skt_id)`: the bound socket's local endpoint, or `NoSocket`. The endpoint is the
socket's own, which the map model does not carry. -/
def sktInfo (w : ControlState) (id : String) : Except ControlProtErr Unit :=
  if id ∈ w.sockets then .ok () else .error .noSocket

/-- The map holds each id once, and exactly the ids of the binds that have run. -/
structure BindsRecorded (w : ControlState) : Prop where
  nodup : w.sockets.Nodup
  mem_iff : ∀ id, id ∈ w.sockets ↔ 0 < w.threads.countP (·.bound = some id)

theorem bindsRecorded_init : (init : ControlState).BindsRecorded := ⟨List.nodup_nil, by simp [init]⟩

/-- A call that binds no id moves on: the map and the binds that have run stay as they were. -/
theorem BindsRecorded.setPc {w : ControlState} (h : w.BindsRecorded) {i : Nat} {r : Request}
    {pc : Pc} (pc' : Pc) (ht : w.threads[i]? = some ⟨r, pc⟩)
    (hb : Thread.bound ⟨r, pc⟩ = none) (hb' : Thread.bound ⟨r, pc'⟩ = none) (readers : Nat → Nat) :
    { w.setPc i pc' with readers := readers }.BindsRecorded :=
  ⟨h.nodup, fun id => by
    have := countP_modify (·.bound = some id) (fun t => { t with pc := pc' }) w.threads i _ ht
    simp only [hb, hb', reduceCtorEq, decide_False, Bool.false_eq_true, if_false,
      Nat.add_zero] at this
    show id ∈ w.sockets ↔ 0 < (List.modify _ i w.threads).countP _
    rw [this, h.mem_iff]⟩

/-- A bind of `id'` runs: `sockets.insert(id', _)`. -/
theorem BindsRecorded.bind {w : ControlState} (h : w.BindsRecorded) {i : Nat} {r : Request}
    {id' : String} (ht : w.threads[i]? = some ⟨r, .start⟩) (hb : Thread.bound ⟨r, .done⟩ = some id') :
    { (w.setPc i .done) with sockets := id' :: w.sockets.erase id' }.BindsRecorded :=
  ⟨List.nodup_cons.2 ⟨h.nodup.not_mem_erase, h.nodup.erase id'⟩, fun id => by
    have := countP_modify (·.bound = some id) (fun t => { t with pc := .done }) w.threads i _ ht
    simp only [Thread.bound_start, hb, reduceCtorEq, decide_False, Bool.false_eq_true, if_false,
      Nat.add_zero, Option.some.injEq] at this
    show id ∈ id' :: w.sockets.erase id' ↔ 0 < (List.modify _ i w.threads).countP _
    rw [this, List.mem_cons, h.nodup.mem_erase_iff, h.mem_iff]
    by_cases he : id' = id
    · subst he; simp
    · simp [he, Ne.symm he]⟩

/-- **One step.** -/
theorem BindsRecorded.step {w w' : ControlState} {a : Action} (h : w.BindsRecorded)
    (hs : w.step shardOf a = some w') : w'.BindsRecorded := by
  cases a with
  | call r =>
    cases hs
    refine ⟨h.nodup, fun id => (h.mem_iff id).trans ?_⟩
    simp [List.countP_append]
  | run i =>
    simp only [ControlState.step] at hs
    split at hs
    · next ht => split at hs <;> cases hs; exact h.bind ht rfl
    · next ht => split at hs <;> cases hs; exact h.bind ht rfl
    · next ht => cases hs; exact h.setPc .done ht rfl rfl _
    · next ht => split at hs <;> cases hs <;> exact h.setPc _ ht rfl rfl _
    · next ht => split at hs <;> cases hs <;> exact h.setPc _ ht rfl rfl _
    · cases hs
  | ioDone i =>
    simp only [ControlState.step] at hs
    split at hs <;> cases hs
    · next ht => exact h.setPc .done ht rfl rfl _
    · next ht => exact h.setPc .done ht rfl rfl _

theorem BindsRecorded.run {w w' : ControlState} (h : w.BindsRecorded) :
    ∀ {acts : List Action}, w.run shardOf acts = some w' → w'.BindsRecorded
  | [], hr => by cases hr; exact h
  | a :: as, hr => by
    simp only [ControlState.run, Option.bind_eq_some] at hr
    obtain ⟨w₁, h₁, h₂⟩ := hr
    exact (h.step shardOf h₁).run h₂

/-- **Sockets are the completed binds.** In every reachable state the map holds each id once, and
exactly the ids of the `bind_n2r` and `bind_haven` calls that have run; a `send_message` or
`recv_message` on `id` that runs suspends in socket I/O holding its `Ref` when a bind of `id` has
run, and otherwise ends with `NoSocket`. -/
theorem sockets_hold_completed_binds {w : ControlState} {acts : List Action}
    (h : init.run shardOf acts = some w) :
    w.sockets.Nodup ∧ (∀ id, id ∈ w.sockets ↔ ∃ t ∈ w.threads, t.bound = some id) ∧
      (∀ id, w.sktInfo id =
        if ∃ t ∈ w.threads, t.bound = some id then .ok () else .error .noSocket) ∧
      ∀ i id r, (r = .sendMessage id ∨ r = .recvMessage id) → w.threads[i]? = some ⟨r, .start⟩ →
        ((w.step shardOf (.run i)).map fun w' => w'.threads[i]?.map (·.pc)) =
          some (some (if ∃ t ∈ w.threads, t.bound = some id then .awaitingIo else .done)) := by
  have hb := bindsRecorded_init.run shardOf h
  have hmem : ∀ id, id ∈ w.sockets ↔ ∃ t ∈ w.threads, t.bound = some id := fun id =>
    (hb.mem_iff id).trans (by simp [List.countP_pos_iff])
  refine ⟨hb.nodup, hmem, fun id => by simp only [sktInfo, hmem], fun i id r hr ht => ?_⟩
  split_ifs with hex
  · have hin := (hmem id).2 hex
    rcases hr with rfl | rfl <;> simp [ControlState.step, ht, hin, setPc, List.getElem?_modify]
  · have hin : id ∉ w.sockets := fun h' => hex ((hmem id).1 h')
    rcases hr with rfl | rfl <;> simp [ControlState.step, ht, hin, setPc, List.getElem?_modify]

/-- After `bind_n2r("s")` has run, with every id in one shard: a `recv_message("s")` finds its
socket, and a `send_message("t")` would answer `NoSocket`. -/
theorem recv_after_bind_finds_socket :
    let acts : List Action := [.call (.bindN2r "s"), .run 0, .call (.recvMessage "s"),
      .call (.sendMessage "t")]
    ∃ w, init.run (fun _ => 0) acts = some w ∧ w.sockets = ["s"] ∧
      (w.sockets.Nodup ∧ (∀ id, id ∈ w.sockets ↔ ∃ t ∈ w.threads, t.bound = some id) ∧
        (∀ id, w.sktInfo id =
          if ∃ t ∈ w.threads, t.bound = some id then .ok () else .error .noSocket) ∧
        ∀ i id r, (r = .sendMessage id ∨ r = .recvMessage id) →
          w.threads[i]? = some ⟨r, .start⟩ →
          ((w.step (fun _ => 0) (.run i)).map fun w' => w'.threads[i]?.map (·.pc)) =
            some (some (if ∃ t ∈ w.threads, t.bound = some id then .awaitingIo else .done))) := by
  intro acts
  exact ⟨_, rfl, rfl, @sockets_hold_completed_binds (fun _ => 0) _ acts rfl⟩

end ControlState

end Earendil.Control
