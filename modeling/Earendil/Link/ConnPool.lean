import Earendil.Link.RpcTransport

/-!
# The age of pooled connections

`get_conn` pops entries off the front of `conn_pool` until it finds one younger than
`POOL_TIMEOUT`, dropping the older ones as it goes. Popping from the front drops every stale
connection only if the stale ones come first. The only writer of the pool is the scopeguard's
`conn_pool.push((conn, Instant::now()))`, which appends at the back; but it reads the clock
before it pushes, so a guard that read an older instant can push after one that read a newer
one, and the pool is then out of order.

**Invariant (`PoolOrdered`).** Along a run in which the guards push in the order they read the
clock (`pushesInOrder`), the pool's timestamps do not decrease from front to back, no guard about
to push holds an older instant than a pooled entry, and no instant is later than the clock. On
one thread this is every run, since a guard's read and push then follow each other; on the
threads of `smolscale` it is not.

**Theorem (`getConn_takes_oldest_fresh`).** In every state reachable from
`MultiplexRpcTransport::new` along such a run, `get_conn` takes the oldest pooled connection
younger than `POOL_TIMEOUT` (or opens a new substream when there is none), and leaves in the pool
exactly the younger connections behind it: every stale connection is dropped, and no fresh one
is. Without the order a stale connection can stay behind the one taken (the example after the
theorem).

**Theorem (`no_connection_leaks`).** The scopeguard returns the connection on every exit of
`call_raw`, including the drop of a cancelled call's future. So in every reachable state each
substream ever opened is exactly one of these: held by one call, in the pool, or dropped by
`get_conn` as stale.
-/

namespace Earendil.Link

theorem popFresh_suffix (now : Nat) : ∀ pool : List (Nat × Nat), (popFresh now pool).2 <:+ pool
  | [] => List.suffix_refl _
  | (c, time) :: rest => by
    simp only [popFresh]
    split
    · exact List.suffix_cons _ _
    · exact (popFresh_suffix now rest).trans (List.suffix_cons _ _)

/-- The connections the loop of `get_conn` pops and drops as stale. -/
def popStale (now : Nat) : List (Nat × Nat) → List Nat
  | [] => []
  | (c, time) :: rest => if now - time < POOL_TIMEOUT then [] else c :: popStale now rest

/-- The loop of `get_conn` splits the pool into the connection it takes, the rest of the pool,
and the stale connections it drops. -/
theorem popFresh_perm (now : Nat) : ∀ pool : List (Nat × Nat),
    List.Perm ((popFresh now pool).1.toList ++ (popFresh now pool).2.map Prod.fst ++
      popStale now pool) (pool.map Prod.fst)
  | [] => List.Perm.refl _
  | (c, time) :: rest => by
    simp only [popFresh, popStale]
    split
    · simp
    · exact List.perm_middle.trans ((popFresh_perm now rest).cons c)

/-- The instant a call's guard has read and not yet pushed. -/
def CallPhase.stamp : CallPhase → Option Nat
  | .releasing _ time _ => some time
  | _ => none

@[simp] theorem CallEnd.stamp_phase (e : CallEnd) : e.phase.stamp = none := by cases e <;> rfl

namespace Transport

/-- The instants read by the guards about to push. -/
def stamps (w : Transport) : List Nat := w.calls.filterMap (·.phase.stamp)

/-- Whether a step, if it is a push, pushes the oldest instant of the guards about to push. -/
def oldestFirst (w : Transport) : Action → Bool
  | .push i =>
    match w.calls[i]? with
    | some ⟨_, .releasing _ time _⟩ => w.stamps.all (time ≤ ·)
    | _ => true
  | _ => true

/-- Along the run from `w`, the guards push in the order they read the clock. -/
def pushesInOrder (w : Transport) : List Action → Bool
  | [] => true
  | a :: as =>
    w.oldestFirst a && match w.step a with
      | some w' => w'.pushesInOrder as
      | none => true

/-- The pool is in push order, oldest first; no guard about to push holds an older instant than
a pooled entry; and no instant is later than the clock. -/
structure PoolOrdered (w : Transport) : Prop where
  sorted : w.connPool.Pairwise fun a b => a.2 ≤ b.2
  le_stamps : ∀ e ∈ w.connPool, ∀ t ∈ w.stamps, e.2 ≤ t
  le_now : ∀ e ∈ w.connPool, e.2 ≤ w.now
  stamps_le_now : ∀ t ∈ w.stamps, t ≤ w.now

theorem mem_stamps_setPhase {w : Transport} {i : Nat} {call : Call} (p : CallPhase)
    (ht : w.calls[i]? = some call) {t : Nat} (hm : t ∈ (w.setPhase i p).stamps) :
    t ∈ w.stamps ∨ p.stamp = some t := by
  have := (filterMap_modify_perm (·.phase.stamp) (fun c => { c with phase := p }) _ i call
    ht).subset (List.mem_append_left _ hm)
  simpa [stamps] using this

/-- A call moves to a phase whose guard, if any, reads the clock now. -/
theorem PoolOrdered.setPhase {w : Transport} (h : w.PoolOrdered) {i : Nat} {call : Call}
    (p : CallPhase) (ht : w.calls[i]? = some call) (hp : ∀ t, p.stamp = some t → t = w.now) :
    (w.setPhase i p).PoolOrdered where
  sorted := h.sorted
  le_stamps e he t hm := by
    rcases mem_stamps_setPhase p ht hm with hm | hm
    · exact h.le_stamps e he t hm
    · exact hp t hm ▸ h.le_now e he
  le_now := h.le_now
  stamps_le_now t hm := by
    rcases mem_stamps_setPhase p ht hm with hm | hm
    · exact h.stamps_le_now t hm
    · exact (hp t hm).le

theorem PoolOrdered.modifyStream {w : Transport} (h : w.PoolOrdered) (c : Nat)
    (f : Substream → Substream) : (w.modifyStream c f).PoolOrdered := ⟨h.1, h.2, h.3, h.4⟩

theorem PoolOrdered.popFresh {w : Transport} (h : w.PoolOrdered) :
    ({ w with connPool := (popFresh w.now w.connPool).2 } : Transport).PoolOrdered where
  sorted := h.sorted.sublist (popFresh_suffix _ _).sublist
  le_stamps e he := h.le_stamps e ((popFresh_suffix _ _).subset he)
  le_now e he := h.le_now e ((popFresh_suffix _ _).subset he)
  stamps_le_now := h.stamps_le_now

/-- **The push.** A guard holding the oldest instant of those about to push appends an entry no
older than the pool's, and no newer than any instant still to be pushed. -/
theorem PoolOrdered.pushBack {w : Transport} (h : w.PoolOrdered) {c t : Nat} (ht : t ∈ w.stamps)
    (hold : ∀ t' ∈ w.stamps, t ≤ t') : (w.pushBack c t).PoolOrdered where
  sorted := List.pairwise_append.2 ⟨h.sorted, List.pairwise_singleton _ _,
    fun a ha b hb => (List.mem_singleton.1 hb) ▸ h.le_stamps a ha t ht⟩
  le_stamps a ha t' hm := by
    rcases List.mem_append.1 ha with ha | ha
    · exact h.le_stamps a ha t' hm
    · exact (List.mem_singleton.1 ha) ▸ hold t' hm
  le_now a ha := by
    rcases List.mem_append.1 ha with ha | ha
    · exact h.le_now a ha
    · exact (List.mem_singleton.1 ha) ▸ h.stamps_le_now t ht
  stamps_le_now := h.stamps_le_now

/-- **One step** that, if it pushes, pushes the oldest instant. -/
theorem PoolOrdered.step {w w' : Transport} {a : Action} (h : w.PoolOrdered)
    (ho : w.oldestFirst a = true) (hs : w.step a = some w') : w'.PoolOrdered := by
  cases moves_of_step hs with
  | call _ =>
    refine ⟨h.1, fun e he t hm => h.2 e he t ?_, h.3, fun t hm => h.4 t ?_⟩ <;>
      simpa [stamps, List.filterMap_append, CallPhase.stamp] using hm
  | serve _ => exact ⟨h.1, h.2, h.3, h.4⟩
  | opened ht =>
    exact (show ({ w with streams := w.streams ++ [(⟨[], []⟩ : Substream)] } : Transport).PoolOrdered
      from ⟨h.1, h.2, h.3, h.4⟩).setPhase _ ht (by simp [CallPhase.stamp])
  | openFailed ht | cancelIdle ht _ | writeFailed ht | readFailed ht | cancelWriting ht
  | cancelReading ht => exact h.setPhase _ ht (by simp [CallPhase.stamp])
  | written ht | read ht _ | parseFailed ht _ =>
    exact (h.modifyStream _ _).setPhase _ ht (by simp [CallPhase.stamp])
  | pooled ht hpop | opening ht hpop =>
    have := h.popFresh
    rw [hpop] at this
    exact this.setPhase _ ht (by simp [CallPhase.stamp])
  | push ht =>
    simp only [oldestFirst, ht, List.all_eq_true, decide_eq_true_eq] at ho
    exact (h.pushBack (List.mem_filterMap.2 ⟨_, List.getElem?_mem ht, rfl⟩) ho).setPhase _ ht
      (by simp)
  | tick d => exact ⟨h.1, h.2, fun e he => (h.3 e he).trans (Nat.le_add_right _ _),
      fun t hm => (h.4 t hm).trans (Nat.le_add_right _ _)⟩

theorem PoolOrdered.run {w w' : Transport} (h : w.PoolOrdered) :
    ∀ {as : List Action}, w.pushesInOrder as = true → w.run as = some w' → w'.PoolOrdered
  | [], _, hr => by cases hr; exact h
  | a :: as, ho, hr => by
    simp only [Transport.run, Option.bind_eq_some] at hr
    obtain ⟨w₁, h₁, h₂⟩ := hr
    simp only [pushesInOrder, h₁, Bool.and_eq_true] at ho
    exact (h.step ho.1 h₁).run ho.2 h₂

/-- Guards out of order: the write of call `0` fails at instant 4 and that of call `1` at
instant 5, and the guard of call `1` pushes first. `POOL_TIMEOUT` after instant 4, `get_conn`
takes substream `1`, still fresh, and leaves substream `0` in the pool although it is stale. -/
example :
    let as : List Action := [.call 0, .getConn 0, .opened 0 true, .call 1, .getConn 1,
      .opened 1 true, .tick 4, .written 0 false, .tick 1, .written 1 false, .push 1, .push 0,
      .tick (POOL_TIMEOUT - 1), .call 2, .getConn 2]
    (init 0).pushesInOrder as = false ∧
      ((init 0).run as).map (fun w => (w.connPool, w.now - 4)) = some ([(0, 4)], POOL_TIMEOUT) :=
  ⟨rfl, rfl⟩

/-! ## No connection leaks -/

/-- The connections a step drops: the stale pool entries `get_conn`'s loop pops. -/
def dropped (w : Transport) : Action → List Nat
  | .getConn i =>
    match w.calls[i]? with
    | some ⟨_, .start⟩ => popStale w.now w.connPool
    | _ => []
  | _ => []

/-- The connections dropped along a run. -/
def runDropped (w : Transport) : List Action → List Nat
  | [] => []
  | a :: as =>
    match w.step a with
    | some w' => w.dropped a ++ runDropped w' as
    | none => []

/-- Every substream opened is held, pooled or dropped, once. -/
def Conserved (w : Transport) (gone : List Nat) : Prop :=
  ∀ c, (w.owners ++ gone).count c = (List.range w.streams.length).count c

theorem count_owners_popFresh (w : Transport) (c : Nat) :
    ({ w with connPool := (popFresh w.now w.connPool).2 } : Transport).owners.count c +
        (popFresh w.now w.connPool).1.toList.count c + (popStale w.now w.connPool).count c =
      w.owners.count c := by
  have := (popFresh_perm w.now w.connPool).count_eq c
  simp only [owners, List.count_append] at this ⊢
  omega

@[simp] theorem owners_modifyStream (w : Transport) (c : Nat) (f : Substream → Substream) :
    (w.modifyStream c f).owners = w.owners := rfl

/-- Call `i` moves to phase `p` over `w₁`: the substreams stay conserved when those of `w₁` are,
with the one the call takes counted in place of the one it held. -/
theorem Conserved.setPhase {w₁ : Transport} {gone : List Nat} {i : Nat} {call : Call}
    (p : CallPhase) (ht : w₁.calls[i]? = some call)
    (h : ∀ c, w₁.owners.count c + p.held.toList.count c + gone.count c =
      (List.range w₁.streams.length).count c + call.phase.held.toList.count c) :
    (w₁.setPhase i p).Conserved gone := fun c => by
  have := count_owners_setPhase w₁ p ht c
  have := h c
  rw [List.count_append, streams_setPhase]
  omega

theorem Conserved.step {w w' : Transport} {a : Action} {gone : List Nat} (h : w.Conserved gone)
    (hs : w.step a = some w') : w'.Conserved (gone ++ w.dropped a) := by
  cases moves_of_step hs with
  | call req =>
    intro c
    have := h c
    simp [owners, dropped, List.filterMap_append, List.count_append] at this ⊢
    omega
  | @pooled i r c' rest ht hpop | @opening i r rest ht hpop =>
    refine Conserved.setPhase _ (by exact ht) fun c => ?_
    have hpf := count_owners_popFresh w c
    have := h c
    rw [hpop] at hpf
    simp [dropped, ht, List.count_append] at hpf this ⊢
    omega
  | opened ht =>
    refine Conserved.setPhase _ (by exact ht) fun c => ?_
    have := h c
    rw [show ({ w with streams := w.streams ++ [(⟨[], []⟩ : Substream)] } : Transport).owners =
      w.owners from rfl]
    simp [List.range_succ, List.count_append, dropped] at this ⊢
    omega
  | openFailed ht | written ht | writeFailed ht | readFailed ht | cancelWriting ht
  | cancelReading ht | read ht _ | parseFailed ht _ | push ht =>
    refine Conserved.setPhase _ (by exact ht) fun c => ?_
    have := h c
    simp [dropped, List.count_append] at this ⊢
    omega
  | cancelIdle ht hq =>
    refine Conserved.setPhase _ ht fun c => ?_
    have := h c
    rcases hq with rfl | rfl <;> simp [dropped, List.count_append] at this ⊢ <;> omega
  | serve _ => intro c; have := h c; simp [dropped, owners] at this ⊢; omega
  | tick d => simpa [dropped, owners] using h

theorem Conserved.run {w w' : Transport} {gone : List Nat} (h : w.Conserved gone) :
    ∀ {as : List Action}, w.run as = some w' → w'.Conserved (gone ++ w.runDropped as)
  | [], hr => by cases hr; simpa [runDropped] using h
  | a :: as, hr => by
    simp only [Transport.run, Option.bind_eq_some] at hr
    obtain ⟨w₁, h₁, h₂⟩ := hr
    simpa [runDropped, h₁, List.append_assoc] using (h.step h₁).run h₂

/-- **No connection leaks.** In every state reachable from `MultiplexRpcTransport::new`, the
substreams opened so far are, each exactly once, the connections held by calls, those in the
pool, and those `get_conn` has dropped as stale: no exit of `call_raw`, including a cancelled
call, loses one. -/
theorem no_connection_leaks (now : Nat) (as : List Action) {w : Transport}
    (h : (init now).run as = some w) :
    List.Perm (w.owners ++ (init now).runDropped as) (List.range w.streams.length) :=
  List.perm_iff_count.2 ((show (init now).Conserved [] from fun _ => rfl).run h)

/-- A failed call puts substream `0` back; a minute later `get_conn` drops it as stale, and the
substream `1` it opens instead is then held by the call. -/
theorem stale_connection_dropped :
    let as : List Action := [.call 0, .getConn 0, .opened 0 true, .written 0 true, .read 0 false,
      .push 0, .tick POOL_TIMEOUT, .call 1, .getConn 1, .opened 1 true]
    ∃ w, (init 0).run as = some w ∧ w.owners = [1] ∧ (init 0).runDropped as = [0] ∧
      List.Perm (w.owners ++ (init 0).runDropped as) (List.range w.streams.length) := by
  intro as
  exact ⟨_, rfl, rfl, rfl, no_connection_leaks 0 as rfl⟩

end Transport

end Earendil.Link
