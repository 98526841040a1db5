import Earendil.Link.OnionPump

/-!
# Outgoing onion packets over concurrent pumps

`LinkConnection::send_raw_packet` hands a packet to the bounded channel `send_outgoing` with
`try_send`, ignoring the error, so a packet that finds 100 queued is dropped. The packets are
carried to the neighbour by `handle_onion_packets` tasks. `connection_loop` runs one through
`onion_keepalive`, restarted after each failure, and one more for every `onion_packets` substream
the neighbour opens, so any number of them run at once, and all of their `up` loops receive from
the same `recv_outgoing`. An `up` loop takes a packet off the channel and awaits `send_urel` on
its substream. When that fails, or when `dn` fails and the race drops `up`, the pump ends, and the
packet it held is lost.

**The state.** The channel, and for each pump whether its race is running, the packet its `up`
loop holds, and the packets `send_urel` delivered on its substream. The channel is never closed,
since the connection holds its sender, so `recv` returns only with a packet.

**Theorem (`packets_in_order_and_accounted`).** Over any interleaving of `send_raw_packet` calls
and pump steps, every substream carries a subsequence of the packets passed to
`send_raw_packet`, in the order they were passed. Each packet passed is, at every point, exactly
one of the following:
- queued;
- held by one pump;
- delivered on one substream;
- dropped by `send_raw_packet` on a full channel;
- lost with a pump that ended while holding it.
So no packet is ever sent twice or sent out of order on a substream.
-/

namespace Earendil.Link

/-- One `handle_onion_packets` task. -/
structure Pump where
  /-- the race of `up` and `dn` is running -/
  alive : Bool
  /-- the packet `up` took off `recv_outgoing` and is sending with `send_urel` -/
  inFlight : Option Bytes
  /-- the packets `send_urel` delivered on the substream, in order -/
  sent : List Bytes
  deriving DecidableEq, Repr

/-- The outgoing side of a `LinkConnection`: the channel `send_outgoing`/`recv_outgoing`, and
the pumps that drain it. -/
structure LinkConnection where
  sendOutgoing : Channel
  pumps : List Pump
  deriving DecidableEq, Repr

/-- What happens on the outgoing side. -/
inductive OutEvent
  /-- `send_raw_packet(pkt)` -/
  | sendRawPacket (pkt : Bytes)
  /-- a new `handle_onion_packets`: `onion_keepalive` opened a substream, or one was accepted -/
  | spawn
  /-- `recv_outgoing.recv()` returns in the `up` loop of pump `k` -/
  | upRecv (k : Nat)
  /-- `send_urel` returns in the `up` loop of pump `k` -/
  | upSent (k : Nat) (ok : Bool)
  /-- the race of pump `k` ends because `dn` failed, or its task was dropped -/
  | ended (k : Nat)

namespace LinkConnection

/-- The channels of `LinkConnection::connect`: `smol::channel::bounded(100)`, and no pump yet. -/
def connect : LinkConnection := ⟨⟨[], 100⟩, []⟩

/-- `send_raw_packet(pkt)`: `let _ = self.send_outgoing.try_send(pkt)`. -/
def sendRawPacket (lc : LinkConnection) (pkt : Bytes) : LinkConnection :=
  match lc.sendOutgoing.trySend pkt with
  | .ok ch => { lc with sendOutgoing := ch }
  | .error _ => lc

/-- The state an event leads to, when the event can happen. -/
def step (lc : LinkConnection) : OutEvent → Option LinkConnection
  | .sendRawPacket pkt => some (lc.sendRawPacket pkt)
  | .spawn => some { lc with pumps := lc.pumps ++ [⟨true, none, []⟩] }
  | .upRecv k =>
    match lc.pumps[k]?, lc.sendOutgoing.queue with
    | some ⟨true, none, sent⟩, pkt :: _ =>
      some ⟨lc.sendOutgoing.drain, lc.pumps.set k ⟨true, some pkt, sent⟩⟩
    | _, _ => none
  | .upSent k ok =>
    match lc.pumps[k]? with
    | some ⟨true, some pkt, sent⟩ =>
      some { lc with
        pumps := lc.pumps.set k (if ok then ⟨true, none, sent ++ [pkt]⟩ else ⟨false, none, sent⟩) }
    | _ => none
  | .ended k =>
    match lc.pumps[k]? with
    | some ⟨true, _, sent⟩ => some { lc with pumps := lc.pumps.set k ⟨false, none, sent⟩ }
    | _ => none

/-- A run of events, when each can happen. -/
def run (lc : LinkConnection) : List OutEvent → Option LinkConnection
  | [] => some lc
  | e :: es => (lc.step e).bind (run · es)

/-- The packets an event throws away: `send_raw_packet` ignores `try_send`'s `Full`, and a pump
whose race ends while `up` awaits `send_urel` drops the packet it holds. -/
def discards (lc : LinkConnection) : OutEvent → List Bytes
  | .sendRawPacket pkt =>
    match lc.sendOutgoing.trySend pkt with
    | .ok _ => []
    | .error _ => [pkt]
  | .upSent k ok => if ok then [] else ((lc.pumps[k]?).bind (·.inFlight)).toList
  | .ended k => ((lc.pumps[k]?).bind (·.inFlight)).toList
  | _ => []

/-- The packets thrown away along a run. -/
def runDiscards (lc : LinkConnection) : List OutEvent → List Bytes
  | [] => []
  | e :: es =>
    match lc.step e with
    | some lc' => lc.discards e ++ runDiscards lc' es
    | none => []

end LinkConnection

/-- The packets passed to `send_raw_packet` by an event. -/
def OutEvent.offered : OutEvent → List Bytes
  | .sendRawPacket pkt => [pkt]
  | _ => []

/-- The packets passed to `send_raw_packet` along a run, in order. -/
def offers (es : List OutEvent) : List Bytes := es.flatMap OutEvent.offered

/-- What a pump holds or has delivered, in order. -/
def Pump.carried (q : Pump) : List Bytes := q.sent ++ q.inFlight.toList

namespace LinkConnection

/-! ## What a step does -/

/-- The ways an event can happen. -/
inductive Moves (lc : LinkConnection) : OutEvent → LinkConnection → Prop
  | send (pkt : Bytes) : Moves lc (.sendRawPacket pkt) (lc.sendRawPacket pkt)
  | spawn : Moves lc .spawn { lc with pumps := lc.pumps ++ [⟨true, none, []⟩] }
  | upRecv {k : Nat} {sent : List Bytes} {pkt : Bytes} {rest : List Bytes} :
      lc.pumps[k]? = some ⟨true, none, sent⟩ → lc.sendOutgoing.queue = pkt :: rest →
      Moves lc (.upRecv k) ⟨lc.sendOutgoing.drain, lc.pumps.set k ⟨true, some pkt, sent⟩⟩
  | upSent {k : Nat} {pkt : Bytes} {sent : List Bytes} :
      lc.pumps[k]? = some ⟨true, some pkt, sent⟩ →
      Moves lc (.upSent k true) { lc with pumps := lc.pumps.set k ⟨true, none, sent ++ [pkt]⟩ }
  | upFailed {k : Nat} {pkt : Bytes} {sent : List Bytes} :
      lc.pumps[k]? = some ⟨true, some pkt, sent⟩ →
      Moves lc (.upSent k false) { lc with pumps := lc.pumps.set k ⟨false, none, sent⟩ }
  | ended {k : Nat} {held : Option Bytes} {sent : List Bytes} :
      lc.pumps[k]? = some ⟨true, held, sent⟩ →
      Moves lc (.ended k) { lc with pumps := lc.pumps.set k ⟨false, none, sent⟩ }

theorem moves_of_step {lc lc' : LinkConnection} {e : OutEvent} (hs : lc.step e = some lc') :
    Moves lc e lc' := by
  cases e with
  | sendRawPacket pkt => cases hs; exact .send pkt
  | spawn => cases hs; exact .spawn
  | upRecv k =>
    simp only [step] at hs
    split at hs <;> cases hs
    next hk hq => exact .upRecv hk hq
  | upSent k ok =>
    simp only [step] at hs
    split at hs <;> cases hs
    next hk =>
    cases ok
    · exact .upFailed hk
    · exact .upSent hk
  | ended k =>
    simp only [step] at hs
    split at hs <;> cases hs
    next hk => exact .ended hk

/-- `try_send` either queues the packet or drops it. -/
theorem queue_sendRawPacket (lc : LinkConnection) (pkt : Bytes) :
    (lc.sendRawPacket pkt).sendOutgoing.queue ++ lc.discards (.sendRawPacket pkt) =
      lc.sendOutgoing.queue ++ [pkt] := by
  by_cases hc : lc.sendOutgoing.queue.length < lc.sendOutgoing.cap <;>
    simp [sendRawPacket, discards, Channel.trySend, hc]

@[simp] theorem pumps_sendRawPacket (lc : LinkConnection) (pkt : Bytes) :
    (lc.sendRawPacket pkt).pumps = lc.pumps := by
  unfold sendRawPacket; split <;> rfl

/-! ## Order on each substream -/

/-- Each pump has delivered or holds a subsequence of the offered packets, ahead of everything
still queued. -/
structure InOrder (lc : LinkConnection) (offered : List Bytes) : Prop where
  queue : List.Sublist lc.sendOutgoing.queue offered
  pumps : ∀ q ∈ lc.pumps, List.Sublist (q.carried ++ lc.sendOutgoing.queue) offered

theorem InOrder.step {lc lc' : LinkConnection} {e : OutEvent} {offered : List Bytes}
    (h : lc.InOrder offered) (hs : lc.step e = some lc') : lc'.InOrder (offered ++ e.offered) := by
  cases moves_of_step hs with
  | send pkt =>
    have hq : List.Sublist (lc.sendRawPacket pkt).sendOutgoing.queue (lc.sendOutgoing.queue ++ [pkt])
      := queue_sendRawPacket lc pkt ▸ List.sublist_append_left _ _
    refine ⟨hq.trans (h.queue.append_right _), fun q hm => ?_⟩
    rw [pumps_sendRawPacket] at hm
    exact (hq.append_left _).trans
      (by rw [← List.append_assoc]; exact (h.pumps q hm).append_right _)
  | spawn =>
    refine ⟨h.queue.trans (List.sublist_append_left _ _), fun q hm => ?_⟩
    rcases List.mem_append.1 hm with hm | hm
    · exact (h.pumps q hm).trans (List.sublist_append_left _ _)
    · obtain rfl := List.mem_singleton.1 hm
      exact h.queue.trans (List.sublist_append_left _ _)
  | upRecv hk hq =>
    obtain ⟨h1, h2⟩ := h
    simp only [OutEvent.offered, List.append_nil, Channel.drain, hq, List.tail_cons] at h1 h2 ⊢
    refine ⟨(List.sublist_cons_self _ _).trans h1, fun q hm => ?_⟩
    rcases List.mem_or_eq_of_mem_set hm with hm | rfl
    · exact ((List.sublist_cons_self _ _).append_left _).trans (h2 q hm)
    · simpa [Pump.carried] using h2 _ (List.getElem?_mem hk)
  | upSent hk =>
    simp only [OutEvent.offered, List.append_nil]
    refine ⟨h.queue, fun q hm => ?_⟩
    rcases List.mem_or_eq_of_mem_set hm with hm | rfl
    · exact h.pumps q hm
    · simpa [Pump.carried] using h.pumps _ (List.getElem?_mem hk)
  | upFailed hk | ended hk =>
    simp only [OutEvent.offered, List.append_nil]
    refine ⟨h.queue, fun q hm => ?_⟩
    rcases List.mem_or_eq_of_mem_set hm with hm | rfl
    · exact h.pumps q hm
    · have := h.pumps _ (List.getElem?_mem hk)
      simp only [Pump.carried, List.append_assoc] at this ⊢
      exact (List.sublist_append_right _ _ |>.append_left _).trans this

theorem InOrder.run {lc lc' : LinkConnection} {offered : List Bytes} (h : lc.InOrder offered) :
    ∀ {es : List OutEvent}, lc.run es = some lc' → lc'.InOrder (offered ++ offers es)
  | [], hr => by cases hr; simpa [offers] using h
  | e :: es, hr => by
    simp only [LinkConnection.run, Option.bind_eq_some] at hr
    obtain ⟨lc₁, h₁, h₂⟩ := hr
    simpa [offers, List.append_assoc] using (h.step h₁).run h₂

/-! ## Every packet accounted for -/

/-- Every packet offered is queued, carried by a pump, or thrown away, and only once. -/
def Accounted (lc : LinkConnection) (offered thrown : List Bytes) : Prop :=
  ∀ pkt, offered.count pkt = lc.sendOutgoing.queue.count pkt +
    (lc.pumps.flatMap Pump.carried).count pkt + thrown.count pkt

theorem Accounted.step {lc lc' : LinkConnection} {e : OutEvent} {offered thrown : List Bytes}
    (h : lc.Accounted offered thrown) (hs : lc.step e = some lc') :
    lc'.Accounted (offered ++ e.offered) (thrown ++ lc.discards e) := by
  intro x
  have hx := h x
  cases moves_of_step hs with
  | send pkt =>
    have := congrArg (List.count x) (queue_sendRawPacket lc pkt)
    simp only [List.count_append, OutEvent.offered, pumps_sendRawPacket] at this hx ⊢
    omega
  | spawn =>
    simp [List.count_append, OutEvent.offered, discards, Pump.carried] at hx ⊢
    omega
  | @upRecv k sent pkt rest hk hq =>
    have := count_flatMap_set Pump.carried x _ _ ⟨true, some pkt, sent⟩ hk
    simp only [OutEvent.offered, discards, Channel.drain, hq, List.tail_cons, List.count_append,
      List.append_nil, Pump.carried, Option.toList_some, Option.toList_none, List.count_cons,
      List.count_nil] at this hx ⊢
    omega
  | @upSent k pkt sent hk =>
    have := count_flatMap_set Pump.carried x _ _ ⟨true, none, sent ++ [pkt]⟩ hk
    simp only [OutEvent.offered, discards, if_true, List.append_nil, Pump.carried,
      Option.toList_some, Option.toList_none] at this hx ⊢
    omega
  | @upFailed k pkt sent hk =>
    have := count_flatMap_set Pump.carried x _ _ ⟨false, none, sent⟩ hk
    simp only [OutEvent.offered, discards, hk, Bool.false_eq_true, if_false, Option.some_bind,
      List.count_append, List.append_nil, Pump.carried, Option.toList_some, Option.toList_none]
      at this hx ⊢
    omega
  | @ended k held sent hk =>
    have := count_flatMap_set Pump.carried x _ _ ⟨false, none, sent⟩ hk
    simp only [OutEvent.offered, discards, hk, Option.some_bind, List.count_append,
      List.append_nil, Pump.carried, Option.toList_none] at this hx ⊢
    omega

theorem Accounted.run {lc lc' : LinkConnection} {offered thrown : List Bytes}
    (h : lc.Accounted offered thrown) :
    ∀ {es : List OutEvent}, lc.run es = some lc' →
      lc'.Accounted (offered ++ offers es) (thrown ++ lc.runDiscards es)
  | [], hr => by cases hr; simpa [offers, runDiscards] using h
  | e :: es, hr => by
    simp only [LinkConnection.run, Option.bind_eq_some] at hr
    obtain ⟨lc₁, h₁, h₂⟩ := hr
    simpa [offers, runDiscards, h₁, List.append_assoc] using (h.step h₁).run h₂

/-- **Outgoing packets are sent in order, and each at most once.** Over any interleaving of
`send_raw_packet` calls and the steps of any number of pumps, from `LinkConnection::connect`:
every substream has carried a subsequence of the packets passed to `send_raw_packet`, in the order
they were passed; and each packet passed is exactly one of queued, held by a pump, delivered on a
substream, dropped on a full channel, or lost with a pump that ended while holding it. -/
theorem packets_in_order_and_accounted (es : List OutEvent) {lc : LinkConnection}
    (h : connect.run es = some lc) :
    (∀ q ∈ lc.pumps, List.Sublist q.sent (offers es)) ∧
      ∀ pkt, (offers es).count pkt = lc.sendOutgoing.queue.count pkt +
        (lc.pumps.flatMap Pump.carried).count pkt + (connect.runDiscards es).count pkt := by
  have hord := (show connect.InOrder [] from ⟨List.Sublist.slnil, nofun⟩).run h
  have hacc := (show connect.Accounted [] [] from fun _ => rfl).run h
  refine ⟨fun q hm => ?_, by simpa using hacc⟩
  have hq : List.Sublist (q.carried ++ lc.sendOutgoing.queue) (offers es) := by
    simpa using hord.pumps q hm
  exact (List.sublist_append_left _ _).trans ((List.sublist_append_left q.carried _).trans hq)

/-- Two pumps share three packets: pump `0` delivers the first and the third, and pump `1` ends
while holding the second. -/
theorem two_pumps_share_packets :
    let es : List OutEvent := [.spawn, .spawn, .sendRawPacket [1], .sendRawPacket [2],
      .sendRawPacket [3], .upRecv 0, .upRecv 1, .upSent 0 true, .ended 1, .upRecv 0,
      .upSent 0 true]
    ∃ lc, connect.run es = some lc ∧ lc.pumps.map (·.sent) = [[[1], [3]], []] ∧
      connect.runDiscards es = [[2]] ∧
      ((∀ q ∈ lc.pumps, List.Sublist q.sent (offers es)) ∧
        ∀ pkt, (offers es).count pkt = lc.sendOutgoing.queue.count pkt +
          (lc.pumps.flatMap Pump.carried).count pkt + (connect.runDiscards es).count pkt) := by
  intro es
  exact ⟨_, rfl, rfl, rfl, packets_in_order_and_accounted es rfl⟩

end LinkConnection

end Earendil.Link
