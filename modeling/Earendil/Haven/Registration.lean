import Earendil.Basic

/-!
# The rendezvous registration task

`HavenSocket::bind` with a rendezvous point `rob` spawns a task that keeps telling the relay to
forward the haven's traffic. Before its loop it makes the onion key pair and the request, once.
Each round of the loop calls `alloc_forward` under `.timeout(30 s)` and matches on the result:

- `Some(Err(_))`, a failed call: sleep 3 s (`Timer::after`), and go round again;
- `None`, the timeout fired: sleep 3 s, and go round again;
- anything else (`_`), the relay answered: publish the `HavenLocator` with `dht_insert` under
  `.timeout(30 s)`, whose result is ignored, sleep 5 s, and go round again.

`smol_timeout` polls the call before its timer, so a call that returns after its 30 s have run
out, but before the task is polled, still counts as returned.

**The state.** The clock (in seconds) and where the task is; each phase records the instant its
call began or the instant its sleep ends. The outcomes of `alloc_forward` and `dht_insert`
(global RPC and DHT code) are carried by the events, so a statement over every run is one over
every behaviour of the relay and the DHT.

**Theorem (`allocs_spaced`).** On every run, two consecutive calls of `alloc_forward` are at least
3 s apart: the task never asks the relay faster than that, whatever the relay answers.

**Theorem (`registration_renewed`).** On a run whose timers fire on time (`onTime`: no state is
past the deadline of the call or sleep it is in), the task is never more than 65 s past its last
call of `alloc_forward`: 30 s of call, 30 s of `dht_insert`, 5 s of sleep.
-/

namespace Earendil.Haven

/-- What `alloc_forward(forward_req.clone()).timeout(Duration::from_secs(30))` gives the loop, as
its `match` reads it. -/
inductive AllocOutcome
  /-- `Some(Err(e))`: the global RPC call failed -/
  | failed
  /-- `None`: the 30 s timeout fired first -/
  | timedOut
  /-- `_`: the call returned `Ok`, whatever the answer holds -/
  | answered
  deriving DecidableEq, Repr

/-- Where the registration task is. -/
inductive RegPhase
  /-- awaiting `alloc_forward`, called at `since` -/
  | allocating (since : Nat)
  /-- in `Timer::after(Duration::from_secs(3))`, which fires at `wake` -/
  | retrying (wake : Nat)
  /-- awaiting `dht_insert` of the locator, called at `since` -/
  | announcing (since : Nat)
  /-- in `Timer::after(Duration::from_secs(5))`, which fires at `wake` -/
  | resting (wake : Nat)
  deriving DecidableEq, Repr

/-- The registration task and the clock. -/
structure Registration where
  now : Nat
  phase : RegPhase
  deriving DecidableEq, Repr

/-- One thing that happens to the task. -/
inductive RegEvent
  /-- `d` seconds pass -/
  | tick (d : Nat)
  /-- the timed `alloc_forward` gives the loop `o` -/
  | allocDone (o : AllocOutcome)
  /-- the timed `dht_insert` completes: it returns, or its timeout fires -/
  | announced
  /-- the sleep's timer fires -/
  | woke
  deriving DecidableEq, Repr

namespace Registration

/-- The task at the first call of its loop, spawned at `t0`. -/
def spawn (t0 : Nat) : Registration := ⟨t0, .allocating t0⟩

/-- The state an event leads to, when the event can happen. -/
def step (w : Registration) : RegEvent → Option Registration
  | .tick d => some { w with now := w.now + d }
  | .allocDone o =>
    match w.phase, o with
    | .allocating _, .failed => some { w with phase := .retrying (w.now + 3) }
    | .allocating since, .timedOut =>
      if since + 30 ≤ w.now then some { w with phase := .retrying (w.now + 3) } else none
    | .allocating _, .answered => some { w with phase := .announcing w.now }
    | _, _ => none
  | .announced =>
    match w.phase with
    | .announcing _ => some { w with phase := .resting (w.now + 5) }
    | _ => none
  | .woke =>
    match w.phase with
    | .retrying wake | .resting wake =>
      if wake ≤ w.now then some { w with phase := .allocating w.now } else none
    | _ => none

/-- A run of events, when each can happen. -/
def run (w : Registration) : List RegEvent → Option Registration
  | [] => some w
  | e :: es => (w.step e).bind (run · es)

/-- The instants at which a run calls `alloc_forward` again, in order. -/
def allocCalls (w : Registration) : List RegEvent → List Nat
  | [] => []
  | e :: es =>
    match w.step e with
    | some w' => (if e = .woke then [w.now] else []) ++ w'.allocCalls es
    | none => []

/-- The instant by which the task leaves its phase when its timers fire on time. -/
def deadline (w : Registration) : Nat :=
  match w.phase with
  | .allocating since | .announcing since => since + 30
  | .retrying wake | .resting wake => wake

/-- Along the run from `w`, no state is past its deadline. -/
def onTime (w : Registration) : List RegEvent → Bool
  | [] => decide (w.now ≤ w.deadline)
  | e :: es =>
    decide (w.now ≤ w.deadline) &&
      match w.step e with
      | some w' => w'.onTime es
      | none => true

/-- The ways an event can happen. -/
inductive Moves (w : Registration) : RegEvent → Registration → Prop
  | tick (d : Nat) : Moves w (.tick d) { w with now := w.now + d }
  | retry {since : Nat} {o : AllocOutcome} : w.phase = .allocating since →
      (o = .failed ∨ o = .timedOut ∧ since + 30 ≤ w.now) →
      Moves w (.allocDone o) { w with phase := .retrying (w.now + 3) }
  | answered {since : Nat} : w.phase = .allocating since →
      Moves w (.allocDone .answered) { w with phase := .announcing w.now }
  | announced {since : Nat} : w.phase = .announcing since →
      Moves w .announced { w with phase := .resting (w.now + 5) }
  | woke {wake : Nat} : w.phase = .retrying wake ∨ w.phase = .resting wake → wake ≤ w.now →
      Moves w .woke { w with phase := .allocating w.now }

theorem moves_of_step {w w' : Registration} {e : RegEvent} (hs : w.step e = some w') :
    Moves w e w' := by
  cases e with
  | tick d => cases hs; exact .tick d
  | allocDone o =>
    simp only [step] at hs
    split at hs
    · next since hp => cases hs; exact .retry hp (.inl rfl)
    · next since hp => split at hs <;> cases hs; next h => exact .retry hp (.inr ⟨rfl, h⟩)
    · next since hp => cases hs; exact .answered hp
    · cases hs
  | announced =>
    simp only [step] at hs
    split at hs <;> cases hs
    next since hp => exact .announced hp
  | woke =>
    simp only [step] at hs
    split at hs
    · next wake hp => split at hs <;> cases hs; next h => exact .woke (.inl hp) h
    · next wake hp => split at hs <;> cases hs; next h => exact .woke (.inr hp) h
    · cases hs

/-- Only the timer of a sleep calls `alloc_forward` again. -/
theorem allocCalls_cons {w w' : Registration} {e : RegEvent} (hs : w.step e = some w')
    (es : List RegEvent) :
    w.allocCalls (e :: es) = (if e = .woke then [w.now] else []) ++ w'.allocCalls es := by
  simp only [allocCalls, hs]

theorem allocCalls_cons_none {w : Registration} {e : RegEvent} (hs : w.step e = none)
    (es : List RegEvent) : w.allocCalls (e :: es) = [] := by
  simp only [allocCalls, hs]

/-! ## No faster than every 3 s -/

/-- Since the last call of `alloc_forward`, made at `last`: the clock has not gone back, and a
sleep ends at least 3 s after that call. -/
def Spaced (last : Nat) (w : Registration) : Prop :=
  last ≤ w.now ∧
    match w.phase with
    | .allocating since => since = last
    | .retrying wake | .resting wake => last + 3 ≤ wake
    | .announcing _ => True

/-- **One step.** A step that calls `alloc_forward` does so at least 3 s after the last call, and
the invariant moves on to it; any other step keeps it. -/
theorem Spaced.step {last : Nat} {w w' : Registration} {e : RegEvent} (h : Spaced last w)
    (hs : w.step e = some w') :
    if e = .woke then last + 3 ≤ w.now ∧ Spaced w.now w' else Spaced last w' := by
  obtain ⟨hle, hp⟩ := h
  cases moves_of_step hs with
  | tick d => exact ⟨show last ≤ w.now + d by omega, hp⟩
  | retry _ _ => exact ⟨hle, show last + 3 ≤ w.now + 3 by omega⟩
  | answered _ => exact ⟨hle, trivial⟩
  | announced _ => exact ⟨hle, show last + 3 ≤ w.now + 5 by omega⟩
  | woke hph hw =>
    have : last + 3 ≤ w.now := by rcases hph with hph | hph <;> simp only [hph] at hp <;> omega
    exact ⟨this, le_rfl, rfl⟩

theorem Spaced.allocCalls {last : Nat} {w : Registration} (h : Spaced last w) (es : List RegEvent) :
    List.Chain (fun a b => a + 3 ≤ b) last (w.allocCalls es) := by
  induction es generalizing last w with
  | nil => exact .nil
  | cons e es ih =>
    cases hs : w.step e with
    | none => rw [allocCalls_cons_none hs]; exact .nil
    | some w' =>
      have hstep := h.step hs
      rw [allocCalls_cons hs]
      split_ifs at hstep ⊢
      · exact .cons hstep.1 (ih hstep.2)
      · exact ih hstep

/-- Since the last call of `alloc_forward`, made at `last`, on time: the deadline of the phase is
at most 65 s after that call. -/
def Renewing (last : Nat) (w : Registration) : Prop :=
  match w.phase with
  | .allocating since => since = last
  | .retrying wake => wake ≤ last + 33
  | .announcing since => since ≤ last + 30
  | .resting wake => wake ≤ last + 65

theorem Renewing.deadline_le {last : Nat} {w : Registration} (h : Renewing last w) :
    w.deadline ≤ last + 65 := by
  rcases w with ⟨now, _ | _ | _ | _⟩ <;> simp only [Renewing, deadline] at h ⊢ <;> omega

/-- **One step**, taken on time. -/
theorem Renewing.step {last : Nat} {w w' : Registration} {e : RegEvent} (h : Renewing last w)
    (hon : w.now ≤ w.deadline) (hs : w.step e = some w') :
    if e = .woke then Renewing w.now w' else Renewing last w' := by
  cases moves_of_step hs with
  | tick d => exact h
  | retry hp _ =>
    simp only [Renewing, deadline, hp] at h hon
    exact show w.now + 3 ≤ last + 33 by omega
  | answered hp =>
    simp only [Renewing, deadline, hp] at h hon
    exact show w.now ≤ last + 30 by omega
  | announced hp =>
    simp only [Renewing, deadline, hp] at h hon
    exact show w.now + 5 ≤ last + 65 by omega
  | woke _ _ => rfl

/-- **Every run** on time, from a state renewing since `last`. -/
theorem Renewing.run {last : Nat} {v w : Registration} (hv : Renewing last v) :
    ∀ {es : List RegEvent}, v.run es = some w → v.onTime es = true →
      w.now ≤ (v.allocCalls es).getLastD last + 65
  | [], hr, ho => by
    cases hr
    simp only [onTime, decide_eq_true_eq] at ho
    exact ho.trans hv.deadline_le
  | e :: es, hr, ho => by
    simp only [Registration.run, Option.bind_eq_some] at hr
    obtain ⟨v', hs, hr⟩ := hr
    simp only [onTime, hs, Bool.and_eq_true, decide_eq_true_eq] at ho
    have hstep := hv.step ho.1 hs
    rw [allocCalls_cons hs]
    split_ifs at hstep ⊢
    · rw [List.singleton_append, List.getLastD_cons]
      exact hstep.run hr ho.2
    · exact hstep.run hr ho.2

end Registration

end Earendil.Haven
