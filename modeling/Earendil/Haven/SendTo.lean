import Earendil.Haven.Dispatcher

/-!
# Sessions under concurrent `send_to`

`HavenSocket::send_to` against the receive dispatcher, over one shared session cache.

**The calls.** A `send_to(body, endpoint)` runs `try_get_with` on the cache and then awaits
`send_outgoing` on the session it got; if that fails it removes the cache entry of `endpoint`,
by key. `try_get_with` is moka's: it checks for an entry, and if there is none it runs
`CryptSession::new` and then inserts the result unconditionally. The check and the insert are
separate steps, so the dispatcher and the cache's own eviction (its 30-minute TTL, its
100 000-entry bound) can act between them, as they can while `send_outgoing` is pending.

**The state** is the cache and the list of calls with where each one is. Each `Action` is one
atomic step of one party; the outcomes of the collaborators (`CryptSession::new`,
`send_outgoing`, the arrival the dispatcher reads) are part of the action.

**Theorem (`session_stays_until_replaced`).** If `S` is the entry for `E`, it stays the entry
over any run until a step of one of four kinds: an install for `E` by the dispatcher, a failed
`send_outgoing` of any `send_to(E)` (whatever session it used), the insert of a
`try_get_with(E)` that was already initialising, or the cache's eviction of `E`. While `S` is the
entry, a `try_get_with(E)` finds `S`, so it never starts an initialisation.

**Counterexample (`send_failure_removes_newer_session`).** A `send_to(E)` that got the old session
is pending when a `ClientHs` from `E` installs a new one; its send then fails and removes the new
session. In the same way a `try_get_with(E)` that found no entry and is still initialising when
the `ClientHs` arrives inserts its own session over the installed one
(`init_insert_replaces_session`).
-/

namespace Earendil.Haven

/-- Where a `send_to` call is. -/
inductive SendPhase
  | start
  | initialising
  | sending (enc : CryptSession)
  | done (ok : Bool)
  deriving DecidableEq, Repr

/-- A `send_to(body, endpoint)` call. -/
structure SendCall where
  endpoint : Endpoint
  phase : SendPhase
  deriving DecidableEq, Repr

/-- The session cache of a `HavenSocket` and its `send_to` calls. -/
structure HavenState where
  cryptSessions : SessionCache
  calls : List SendCall

/-- One atomic step of one party. -/
inductive Action
  /-- a new `send_to(_, endpoint)` call -/
  | sendTo (endpoint : Endpoint)
  /-- `try_get_with`'s check for an entry, by call `i` -/
  | lookup (i : Nat)
  /-- `CryptSession::new` returns in call `i`'s `try_get_with`, which inserts an `Ok` result -/
  | initDone (i : Nat) (result : Option CryptSession)
  /-- `send_outgoing` returns in call `i` -/
  | sendDone (i : Nat) (ok : Bool)
  /-- one iteration of the dispatcher (a failed one is followed by a respawn) -/
  | dispatch (a : Arrival)
  /-- the cache evicts an entry: TTL or size bound -/
  | evict (endpoint : Endpoint)

namespace HavenState

/-- The state a step leads to, when the step is enabled. -/
def step (w : HavenState) : Action → Option HavenState
  | .sendTo e => some { w with calls := w.calls ++ [⟨e, .start⟩] }
  | .lookup i =>
    match w.calls[i]? with
    | some ⟨e, .start⟩ =>
      let phase := match w.cryptSessions.lookup e with
        | some enc => .sending enc
        | none => .initialising
      some { w with calls := w.calls.set i ⟨e, phase⟩ }
    | _ => none
  | .initDone i result =>
    match w.calls[i]?, result with
    | some ⟨e, .initialising⟩, some enc =>
      some ⟨w.cryptSessions.insert e enc, w.calls.set i ⟨e, .sending enc⟩⟩
    | some ⟨e, .initialising⟩, none => some { w with calls := w.calls.set i ⟨e, .done false⟩ }
    | _, _ => none
  | .sendDone i ok =>
    match w.calls[i]? with
    | some ⟨e, .sending _⟩ =>
      if ok then some { w with calls := w.calls.set i ⟨e, .done true⟩ }
      else some ⟨w.cryptSessions.erase e, w.calls.set i ⟨e, .done false⟩⟩
    | _ => none
  | .dispatch a =>
    match recvOnce w.cryptSessions a with
    | .ok c => some { w with cryptSessions := c }
    | .error _ => some w
  | .evict e => some { w with cryptSessions := w.cryptSessions.erase e }

/-- A run of steps, when each is enabled. -/
def run (w : HavenState) : List Action → Option HavenState
  | [] => some w
  | a :: as => (w.step a).bind (run · as)

/-- The steps that may take the entry of `E` away. -/
def Replaces (w : HavenState) (E : Endpoint) : Action → Prop
  | .dispatch a => ∃ s, installs a = some (E, s)
  | .sendDone i ok => ok = false ∧ ∃ enc, w.calls[i]? = some ⟨E, .sending enc⟩
  | .initDone i result => result.isSome ∧ w.calls[i]? = some ⟨E, .initialising⟩
  | .evict e => e = E
  | _ => False

/-- A run from `w` in which no step replaces the entry of `E`. -/
def Quiet (E : Endpoint) : HavenState → List Action → Prop
  | _, [] => True
  | w, a :: as => ¬ w.Replaces E a ∧ ∀ w', w.step a = some w' → Quiet E w' as

/-! ## What a step does to one endpoint's entry -/

variable {w w' : HavenState} {E : Endpoint} {S : CryptSession}

/-- **One step.** A step that does not replace the entry of `E` keeps it. -/
theorem lookup_step {a : Action} (hS : w.cryptSessions.lookup E = some S)
    (h : w.step a = some w') (hq : ¬ w.Replaces E a) : w'.cryptSessions.lookup E = some S := by
  cases a with
  | sendTo e => cases h; exact hS
  | lookup i =>
    simp only [step] at h
    split at h <;> cases h
    exact hS
  | initDone i result =>
    simp only [step] at h
    split at h <;> cases h
    · next e enc hc =>
      have he : e ≠ E := fun he => hq ⟨rfl, he ▸ hc⟩
      exact (AList.lookup_insert_ne (Ne.symm he)).trans hS
    · exact hS
  | sendDone i ok =>
    simp only [step] at h
    split at h
    · next e enc hc =>
      split at h <;> cases h
      · exact hS
      · next hok =>
        have he : e ≠ E := fun he => hq ⟨by simpa using hok, enc, he ▸ hc⟩
        exact (AList.lookup_erase_ne (Ne.symm he)).trans hS
    · cases h
  | dispatch a =>
    simp only [step] at h
    split at h <;> cases h
    · next c hc =>
      rw [recvOnce_ok hc]
      refine (lookup_applyChanges_of_ne E _ _ fun ch hch he => ?_).trans hS
      cases hi : installs a with
      | none => simp [CacheEvent.change, hi] at hch
      | some i =>
        simp only [CacheEvent.change, hi, Option.map_some', Option.toList_some,
          List.mem_singleton] at hch
        subst hch
        exact hq ⟨i.2, by rw [hi]; exact congrArg some (Prod.ext he rfl)⟩
    · exact hS
  | evict e =>
    cases h
    exact (AList.lookup_erase_ne (Ne.symm hq)).trans hS

/-- While `S` is the entry of `E`, the check of a `try_get_with(E)` finds `S`. -/
theorem lookup_finds {i : Nat} (hS : w.cryptSessions.lookup E = some S)
    (hc : w.calls[i]? = some ⟨E, .start⟩) (h : w.step (.lookup i) = some w') :
    w'.calls[i]? = some ⟨E, .sending S⟩ := by
  simp only [step, hc, hS] at h
  cases h
  simp [List.getElem?_set, (List.getElem?_eq_some_iff.1 hc).1]

/-- **The entry stays until replaced.** If `S` is the entry of `E`, then after any run with no
step that replaces the entry of `E`, `S` is still the entry; and meanwhile the check of every
`try_get_with(E)` finds `S`, so no initialisation for `E` starts. -/
theorem session_stays_until_replaced (hS : w.cryptSessions.lookup E = some S)
    (acts : List Action) (hq : Quiet E w acts) (h : w.run acts = some w') :
    w'.cryptSessions.lookup E = some S ∧
      ∀ (w₁ : HavenState) (i : Nat) (w₂ : HavenState), w₁.cryptSessions.lookup E = some S →
        w₁.calls[i]? = some ⟨E, .start⟩ →
        w₁.step (.lookup i) = some w₂ → w₂.calls[i]? = some ⟨E, .sending S⟩ := by
  refine ⟨?_, fun _ _ _ => lookup_finds⟩
  induction acts generalizing w with
  | nil => cases h; exact hS
  | cons a as ih =>
    simp only [run, Option.bind_eq_some] at h
    obtain ⟨w₁, h₁, h₂⟩ := h
    exact ih (lookup_step hS h₁ hq.1) (hq.2 w₁ h₁) h₂

/-- A second `send_to(E)` after `S` was installed uses `S`, and `S` stays. -/
theorem session_stays_on_new_send :
    let E : Endpoint := ⟨⟨0⟩, 0⟩
    let w : HavenState := ⟨(∅ : SessionCache).insert E ⟨1⟩, [⟨E, .sending ⟨0⟩⟩]⟩
    let w' : HavenState := ⟨w.cryptSessions, [⟨E, .sending ⟨0⟩⟩, ⟨E, .sending ⟨1⟩⟩]⟩
    w.cryptSessions.lookup E = some ⟨1⟩ ∧ Quiet E w [.sendTo E, .lookup 1] ∧
      w.run [.sendTo E, .lookup 1] = some w' ∧ w'.cryptSessions.lookup E = some ⟨1⟩ := by
  intro E w w'
  have hS : w.cryptSessions.lookup E = some ⟨1⟩ := by decide
  have hq : Quiet E w [.sendTo E, .lookup 1] := by simp [Quiet, Replaces]
  have hr : w.run [.sendTo E, .lookup 1] = some w' := rfl
  exact ⟨hS, hq, hr, (session_stays_until_replaced hS _ hq hr).1⟩

/-! ## A failed send removes a newer session -/

/-- `send_to(E)` gets session `0` and awaits its send; a `ClientHs` from `E` installs session `1`;
the send on session `0` fails, and the removal by key takes session `1` away. -/
theorem send_failure_removes_newer_session :
    let E : Endpoint := ⟨⟨0⟩, 0⟩
    ∃ w : HavenState, run ⟨∅, []⟩ [.sendTo E, .lookup 0, .initDone 0 (some ⟨0⟩),
        .dispatch (.datagram (.outer E (some (.clientHs []))) (some ⟨1⟩) true)] = some w ∧
      w.cryptSessions.lookup E = some ⟨1⟩ ∧ w.calls[0]? = some ⟨E, .sending ⟨0⟩⟩ ∧
      (w.step (.sendDone 0 false)).map (·.cryptSessions.lookup E) = some none :=
  ⟨_, rfl, by decide, by decide, by decide⟩

/-- `send_to(E)` finds no entry and starts `CryptSession::new`; a `ClientHs` from `E` installs
session `1`; the initialisation then returns session `0`, and `try_get_with` inserts it over
session `1`. -/
theorem init_insert_replaces_session :
    let E : Endpoint := ⟨⟨0⟩, 0⟩
    ∃ w : HavenState, run ⟨∅, []⟩ [.sendTo E, .lookup 0,
        .dispatch (.datagram (.outer E (some (.clientHs []))) (some ⟨1⟩) true)] = some w ∧
      w.cryptSessions.lookup E = some ⟨1⟩ ∧ w.calls[0]? = some ⟨E, .initialising⟩ ∧
      (w.step (.initDone 0 (some ⟨0⟩))).map (·.cryptSessions.lookup E) = some (some ⟨0⟩) :=
  ⟨_, rfl, by decide, by decide, by decide⟩

end HavenState

end Earendil.Haven
