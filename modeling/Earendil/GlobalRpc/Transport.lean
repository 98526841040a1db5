import Mathlib.Algebra.Group.Nat.Basic

/-!
# Retries of a global RPC call

`GlobalRpcTransport::call_raw` of `global_rpc/transport.rs` sends a request over an N2R socket and
races the response against a timer; when the timer wins it increments `retries` and sends again.
The timer of a round lasts `Duration::from_secs(2u64.pow(retries + 1))`.

**The state.** The `u32` counter `retries`, where the call is, and the requests sent and timer
expiries seen so far. What each `.await` gives (the send, the race) is the `Event`. Arithmetic is
a release build's: `u32` and `u64` overflow wraps (a debug build panics there instead).

**The instant.** `Instant::now() + timeout` is not modelled; the timer is its duration. How the
sum behaves for a huge timeout depends on the platform's `Instant`. On Unix it holds the seconds
in an `i64`, and the sum panics once the timeout is `2 ^ 63` s, after 62 expiries: there the call
never waits on that timer, or on any later one. Where `Instant` holds a `Duration` (Windows) the
sum does not overflow, and the call goes on to the wrapped timeouts below.

**Theorem (`timer_after_expiries`).** In every reachable state where the call has seen `k` timer
expiries and waits on its timer, it has sent the request `k + 1` times, and the timer lasts
`2 ^ (k + 1)` seconds (2, 4, 8, ...) for every `k ≤ 62`, the last `k` whose timeout fits in a
`u64`.

**Counterexample (`first_timer_two_seconds`).** The first timer lasts 2 s, not 4 s; and after 63
expiries `2u64.pow(64)` wraps, and the timer lasts 0 s (where `Instant` holds a `Duration`; on
Unix the call panics one expiry earlier).
-/

namespace Earendil.GlobalRpc

/-- `Duration::from_secs(2u64.pow(retries + 1))`, in seconds: `retries + 1` in `u32`, the power
in `u64`. -/
def timeoutSecs (retries : Nat) : Nat := 2 ^ ((retries + 1) % 2 ^ 32) % 2 ^ 64

/-- Where `call_raw` is. -/
inductive Phase
  /-- at the top of the loop, about to send the request -/
  | sending
  /-- racing `recv_from` against a timer of `timeout` seconds -/
  | racing (timeout : Nat)
  /-- returned `Ok` (`true`) or `Err` -/
  | returned (ok : Bool)
  deriving DecidableEq, Repr

/-- A `call_raw` in progress. -/
structure CallState where
  retries : Nat
  phase : Phase
  /-- requests sent so far -/
  sent : Nat
  /-- timer expiries seen so far -/
  expiries : Nat
  deriving DecidableEq, Repr

/-- What an `.await` of `call_raw` gives. -/
inductive Event
  /-- `send_to(serde_json::to_string(&req)?, endpoint).await?` succeeds or fails -/
  | sent (ok : Bool)
  /-- `recv_from` wins the race; `ok` when it gives a response that decodes and parses -/
  | received (ok : Bool)
  /-- the timer wins the race -/
  | timerFired

namespace CallState

/-- The state an event leads to, when the call is where the event can happen. -/
def step (s : CallState) : Event → Option CallState
  | .sent ok =>
    match s.phase with
    | .sending =>
      if ok then some { s with phase := .racing (timeoutSecs s.retries), sent := s.sent + 1 }
      else some { s with phase := .returned false }
    | _ => none
  | .received ok =>
    match s.phase with
    | .racing _ => some { s with phase := .returned ok }
    | _ => none
  | .timerFired =>
    match s.phase with
    | .racing _ =>
      some { s with
        phase := .sending
        retries := (s.retries + 1) % 2 ^ 32
        expiries := s.expiries + 1 }
    | _ => none

/-- A run of events, when each can happen. -/
def run (s : CallState) : List Event → Option CallState
  | [] => some s
  | e :: es => (s.step e).bind (run · es)

theorem run_append (s : CallState) (es es' : List Event) :
    s.run (es ++ es') = (s.run es).bind (·.run es') := by
  induction es generalizing s with
  | nil => rfl
  | cons e es ih =>
    simp only [List.cons_append, CallState.run]
    cases s.step e <;> simp [ih]

/-- `let mut retries = 0`, before the first send. -/
def init : CallState := ⟨0, .sending, 0, 0⟩

/-! ## The counters -/

theorem timeoutSecs_mod (k : Nat) : timeoutSecs (k % 2 ^ 32) = timeoutSecs k := by
  simp only [timeoutSecs, Nat.mod_add_mod]

/-- Below 63 expiries the timeout is the exact power of two. -/
theorem timeoutSecs_eq {k : Nat} (hk : k ≤ 62) : timeoutSecs k = 2 ^ (k + 1) := by
  have h32 : (k + 1) % 2 ^ 32 = k + 1 := Nat.mod_eq_of_lt (by omega)
  rw [timeoutSecs, h32]
  exact Nat.mod_eq_of_lt (Nat.pow_lt_pow_of_lt (by decide) (by omega))

/-- The counter is the number of expiries; a call about to send has sent once per expiry, and a
call waiting on its timer once more, with the timer its expiries give. -/
structure Counted (s : CallState) : Prop where
  retries_eq : s.retries = s.expiries % 2 ^ 32
  sending : s.phase = .sending → s.sent = s.expiries
  racing : ∀ t, s.phase = .racing t → s.sent = s.expiries + 1 ∧ t = timeoutSecs s.expiries

theorem counted_init : init.Counted := ⟨rfl, fun _ => rfl, fun _ h => nomatch h⟩

theorem counted_returned {s : CallState} (h : s.retries = s.expiries % 2 ^ 32) (ok : Bool) :
    { s with phase := .returned ok }.Counted :=
  ⟨h, (fun h' => by cases h'), fun _ h' => by cases h'⟩

theorem Counted.step {s s' : CallState} {e : Event} (h : s.Counted) (hs : s.step e = some s') :
    s'.Counted := by
  cases e with
  | sent ok =>
    simp only [CallState.step] at hs
    split at hs
    · next hp =>
      split at hs <;> cases hs
      · refine ⟨h.retries_eq, (fun h' => by cases h'), fun t ht => ?_⟩
        cases ht
        exact ⟨by rw [h.sending hp], by rw [h.retries_eq, timeoutSecs_mod]⟩
      · exact counted_returned h.retries_eq false
    · cases hs
  | received ok =>
    simp only [CallState.step] at hs
    split at hs <;> cases hs
    exact counted_returned h.retries_eq ok
  | timerFired =>
    simp only [CallState.step] at hs
    split at hs <;> cases hs
    next t hp =>
    refine ⟨by simp [h.retries_eq, Nat.mod_add_mod], fun _ => ?_, fun _ h' => by cases h'⟩
    simp [(h.racing t hp).1]

theorem Counted.run {s s' : CallState} (h : s.Counted) :
    ∀ {es : List Event}, s.run es = some s' → s'.Counted
  | [], hr => by cases hr; exact h
  | _ :: _, hr => by
    simp only [CallState.run, Option.bind_eq_some] at hr
    obtain ⟨s₁, h₁, h₂⟩ := hr
    exact (h.step h₁).run h₂

/-- **Sends and timers.** In every state reachable from the start of `call_raw` in which the call
waits on a timer of `t` seconds after `k` expiries, it has sent the request `k + 1` times, and
`t = 2 ^ (k + 1)` for every `k ≤ 62`. -/
theorem timer_after_expiries (es : List Event) {s : CallState} (h : init.run es = some s) {t : Nat}
    (hr : s.phase = .racing t) :
    s.sent = s.expiries + 1 ∧ (s.expiries ≤ 62 → t = 2 ^ (s.expiries + 1)) := by
  obtain ⟨hsent, ht⟩ := (counted_init.run h).racing t hr
  exact ⟨hsent, fun hk => ht.trans (timeoutSecs_eq hk)⟩

/-! ## Every number of expiries is reached -/

/-- `k` rounds that each send and time out, then a send. -/
def waits (k : Nat) : List Event := (List.replicate k [.sent true, .timerFired]).flatten ++ [.sent true]

/-- One round that sends and times out. -/
theorem run_round (s : CallState) (hp : s.phase = .sending) (es : List Event) :
    s.run ([.sent true, .timerFired] ++ es) =
      { s with
        retries := (s.retries + 1) % 2 ^ 32
        sent := s.sent + 1
        expiries := s.expiries + 1 }.run es := by
  simp [CallState.run, CallState.step, hp]

theorem run_rounds (k : Nat) :
    ∀ s : CallState, s.phase = .sending → s.retries < 2 ^ 32 →
      s.run (List.replicate k [.sent true, .timerFired]).flatten =
        some { s with
          retries := (s.retries + k) % 2 ^ 32
          sent := s.sent + k
          expiries := s.expiries + k } := by
  induction k with
  | zero => intro s _ hr; rw [Nat.add_zero, Nat.add_zero, Nat.add_zero, Nat.mod_eq_of_lt hr]; rfl
  | succ k ih =>
    intro s hp hr
    rw [List.replicate_succ, List.flatten_cons, run_round s hp,
      ih { s with
        retries := (s.retries + 1) % 2 ^ 32
        sent := s.sent + 1
        expiries := s.expiries + 1 } hp (Nat.mod_lt _ (Nat.two_pow_pos 32))]
    simp only [Nat.mod_add_mod, Nat.add_assoc, Nat.add_comm 1 k]

theorem run_waits (k : Nat) :
    init.run (waits k) = some ⟨k % 2 ^ 32, .racing (timeoutSecs k), k + 1, k⟩ := by
  rw [waits, CallState.run_append, run_rounds k init rfl (by decide)]
  simp only [init, Nat.zero_add, Option.some_bind, CallState.run, CallState.step, if_true,
    timeoutSecs_mod, Option.bind_eq_bind]

/-- A call that waits on the timer of its second round: it has sent twice, and the timer lasts
4 s. -/
theorem timer_after_one_expiry :
    ∃ s, init.run (waits 1) = some s ∧ s.phase = .racing 4 ∧
      (s.sent = s.expiries + 1 ∧ (s.expiries ≤ 62 → 4 = 2 ^ (s.expiries + 1))) :=
  ⟨_, run_waits 1, rfl, timer_after_expiries (waits 1) (run_waits 1) rfl⟩

/-- The first timer lasts 2 s, not the 4 s (`4 * 2 ^ 0`) of the spec's 4, 8, 16, 32 s; after 63
expiries the timeout `2u64.pow(64)` wraps to 0 s, where `Instant` holds a `Duration`. -/
theorem first_timer_two_seconds :
    (∃ s, init.run (waits 0) = some s ∧ s.expiries = 0 ∧ s.sent = 1 ∧ s.phase = .racing 2) ∧
      2 ≠ 4 * 2 ^ 0 ∧
      ∃ s, init.run (waits 63) = some s ∧ s.expiries = 63 ∧ s.phase = .racing 0 :=
  ⟨⟨_, run_waits 0, rfl, rfl, rfl⟩, by decide, ⟨_, run_waits 63, rfl, by decide⟩⟩

end CallState

end Earendil.GlobalRpc
