import Earendil.Basic

/-!
# The onion-packet pump

`handle_onion_packets` of `daemon/link_connection.rs` races two loops on an `onion_packets`
substream. `dn` receives an unreliable datagram, reads it as a `RawPacket` with
`bytemuck::try_from_bytes` (which fails unless the datagram is exactly one packet long), and
hands it to the incoming channel with `try_send(pkt)?`. `up` moves outgoing packets the other
way. The race ends, and the substream with it, as soon as either loop returns an error.

The size of a `RawPacket` is a constant of `earendil_packet`, which is not under src/; it is the
parameter `rawPacketSize`.

**The schedule.** What the substream delivers and when the consumer of `recv_incoming` takes a
packet are inputs: a list of `PumpEvent`s.

**Theorem (`forwards_while_room`).** On a schedule where every datagram is one packet long and
finds the channel with room, the pump forwards every datagram, in order.

**Failing input (`full_channel_ends_pump`).** `try_send(pkt)?` makes a full channel an error, so
the first datagram that finds the channel full ends the pump, and a later datagram that finds
room again is not forwarded. The drop-on-full pump the spec describes (`lossyPump`) forwards it.
-/

namespace Earendil.Link

/-- The incoming channel, `smol::channel::bounded(cap)`. -/
structure Channel where
  queue : List Bytes
  cap : Nat
  deriving DecidableEq, Repr

/-- `Sender::try_send`: `Full` when the channel is at capacity. -/
def Channel.trySend (ch : Channel) (pkt : Bytes) : Except String Channel :=
  if ch.queue.length < ch.cap then .ok ⟨ch.queue ++ [pkt], ch.cap⟩ else .error "Full(..)"

/-- The consumer's `recv` of one packet, when there is one. -/
def Channel.drain (ch : Channel) : Channel := ⟨ch.queue.tail, ch.cap⟩

/-- One thing that happens on the substream or at the consumer. -/
inductive PumpEvent
  /-- `conn.recv_urel()` returns a datagram -/
  | datagram (b : Bytes)
  /-- `conn.recv_urel()` fails -/
  | recvFailed
  /-- the `up` half returns an error -/
  | upFailed
  /-- the consumer takes one packet off `recv_incoming` -/
  | drain
  deriving DecidableEq, Repr

variable (rawPacketSize : Nat)

/-- `bytemuck::try_from_bytes::<RawPacket>`: the bytes, when they are exactly one packet. -/
def tryFromBytes (b : Bytes) : Option Bytes :=
  if b.length = rawPacketSize then some b else none

/-- `handle_onion_packets` over a schedule: the channel, the packets `dn` forwarded, and the
error the race ended with (`none` while it is still running). -/
def handleOnionPackets (ch : Channel) : List PumpEvent → Channel × List Bytes × Option String
  | [] => (ch, [], none)
  | .drain :: evs => handleOnionPackets ch.drain evs
  | .recvFailed :: _ => (ch, [], some "recv_urel failed")
  | .upFailed :: _ => (ch, [], some "up failed")
  | .datagram b :: evs =>
    match tryFromBytes rawPacketSize b with
    | none => (ch, [], some "incoming urel packet of the wrong size to be an onion packet")
    | some pkt =>
      match ch.trySend pkt with
      | .ok ch' =>
        let r := handleOnionPackets ch' evs
        (r.1, pkt :: r.2.1, r.2.2)
      | .error e => (ch, [], some e)

/-- The pump as §4.5 of the spec describes it: it forwards a datagram of the raw-packet size
with a non-blocking try-send and drops it when the channel is full ("lossy by design"), and stops
at a wrong-sized one. Returns the packets forwarded. -/
def lossyPump (ch : Channel) : List PumpEvent → List Bytes
  | [] => []
  | .drain :: evs => lossyPump ch.drain evs
  | .recvFailed :: _ => []
  | .upFailed :: _ => []
  | .datagram b :: evs =>
    match tryFromBytes rawPacketSize b with
    | none => []
    | some pkt =>
      match ch.trySend pkt with
      | .ok ch' => pkt :: lossyPump ch' evs
      | .error _ => lossyPump ch evs

/-! ## Where the two pumps agree -/

/-- No datagram of the raw-packet size finds the channel full while the pump runs. -/
def NeverFull : Channel → List PumpEvent → Prop
  | _, [] => True
  | ch, .drain :: evs => NeverFull ch.drain evs
  | _, .recvFailed :: _ => True
  | _, .upFailed :: _ => True
  | ch, .datagram b :: evs =>
    match tryFromBytes rawPacketSize b with
    | none => True
    | some pkt => ch.queue.length < ch.cap ∧ NeverFull ⟨ch.queue ++ [pkt], ch.cap⟩ evs

/-- **Forwarding while there is room.** On every schedule on which no packet finds the channel
full, `handle_onion_packets` forwards exactly what the lossy pump does: every datagram of the
raw-packet size, in order, up to the first wrong-sized one or failure. -/
theorem forwards_while_room (ch : Channel) (evs : List PumpEvent)
    (h : NeverFull rawPacketSize ch evs) :
    (handleOnionPackets rawPacketSize ch evs).2.1 = lossyPump rawPacketSize ch evs := by
  induction evs generalizing ch with
  | nil => rfl
  | cons ev evs ih =>
    cases ev with
    | drain => exact ih _ h
    | recvFailed => rfl
    | upFailed => rfl
    | datagram b =>
      simp only [NeverFull] at h
      simp only [handleOnionPackets, lossyPump]
      split
      · rfl
      · next pkt hpkt =>
        rw [hpkt] at h
        simp only [Channel.trySend, h.1, if_true]
        exact congrArg (pkt :: ·) (ih _ h.2)

/-- One-byte packets into a channel of capacity 2: two fill it, the consumer takes one, and the
third finds room; all three are forwarded. -/
theorem forwards_while_room_draining :
    let evs : List PumpEvent := [.datagram [0], .datagram [1], .drain, .datagram [2]]
    NeverFull 1 ⟨[], 2⟩ evs ∧
      (handleOnionPackets 1 ⟨[], 2⟩ evs).2.1 = lossyPump 1 ⟨[], 2⟩ evs ∧
      lossyPump 1 ⟨[], 2⟩ evs = [[0], [1], [2]] := by
  intro evs
  have h : NeverFull 1 ⟨[], 2⟩ evs := by simp [evs, NeverFull, tryFromBytes, Channel.drain]
  exact ⟨h, forwards_while_room 1 _ evs h, rfl⟩

/-! ## A full channel ends the pump -/

theorem handleOnionPackets_fill (ch : Channel) (p : Bytes) (hp : p.length = rawPacketSize)
    (k : Nat) (hk : ch.queue.length + k ≤ ch.cap) (evs : List PumpEvent) :
    handleOnionPackets rawPacketSize ch (List.replicate k (.datagram p) ++ evs) =
      let r := handleOnionPackets rawPacketSize ⟨ch.queue ++ List.replicate k p, ch.cap⟩ evs
      (r.1, List.replicate k p ++ r.2.1, r.2.2) := by
  induction k generalizing ch with
  | zero => simp
  | succ k ih =>
    have hroom : ch.queue.length < ch.cap := by omega
    simp only [List.replicate_succ, List.cons_append, handleOnionPackets, tryFromBytes, hp,
      if_true, Channel.trySend, hroom]
    rw [List.append_eq, ih _ (by simp; omega)]
    simp [List.replicate_succ']

theorem lossyPump_fill (ch : Channel) (p : Bytes) (hp : p.length = rawPacketSize)
    (k : Nat) (hk : ch.queue.length + k ≤ ch.cap) (evs : List PumpEvent) :
    lossyPump rawPacketSize ch (List.replicate k (.datagram p) ++ evs) =
      List.replicate k p ++ lossyPump rawPacketSize ⟨ch.queue ++ List.replicate k p, ch.cap⟩ evs := by
  induction k generalizing ch with
  | zero => simp
  | succ k ih =>
    have hroom : ch.queue.length < ch.cap := by omega
    simp only [List.replicate_succ, List.cons_append, lossyPump, tryFromBytes, hp,
      if_true, Channel.trySend, hroom]
    rw [List.append_eq, ih _ (by simp; omega)]
    simp [List.replicate_succ']

/-- One hundred packets fill the channel of `LinkConnection::connect`; the next one ends the
pump with `Full`; the consumer then takes a packet, and the packet after that is lost, where the
lossy pump forwards it. -/
theorem full_channel_ends_pump :
    let p : Bytes := List.replicate rawPacketSize 0
    let evs := List.replicate 100 (PumpEvent.datagram p) ++ [.datagram p, .drain, .datagram p]
    (handleOnionPackets rawPacketSize ⟨[], 100⟩ evs).2 = (List.replicate 100 p, some "Full(..)") ∧
      lossyPump rawPacketSize ⟨[], 100⟩ evs = List.replicate 101 p := by
  intro p evs
  have hp : p.length = rawPacketSize := List.length_replicate _ _
  constructor
  · rw [handleOnionPackets_fill _ _ p hp 100 (by simp)]
    simp [handleOnionPackets, tryFromBytes, hp, Channel.trySend]
  · rw [lossyPump_fill _ _ p hp 100 (by simp)]
    simp [lossyPump, tryFromBytes, hp, Channel.trySend, Channel.drain, List.replicate_succ']

end Earendil.Link
