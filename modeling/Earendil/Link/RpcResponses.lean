import Earendil.Link.RpcTransport

/-!
# Which response a call gets

A substream of `MultiplexRpcTransport` carries no request identifiers: `call_raw` takes the first
line it reads as its response. So a call gets the response to its own request for as long as each
substream carries exactly the requests of the calls reading it.

**The invariant (`Matched`).** The response lines of each substream not yet read, then its request
lines not yet answered, are the requests of the calls reading it; and every call that returned a
line returned the response to its own request.

**Theorem (`answers_own_request`).** On every run from `MultiplexRpcTransport::new` in which no
call abandons a request it has written (its read fails, or its future is dropped while it reads),
every call that returns `Ok` returns the response to its own request. The guard puts the substream
of an abandoned request back into the pool, and `cancelled_call_cross_talk` shows that the
condition cannot be dropped.
-/

namespace Earendil.Link

/-- The lines on a substream, oldest first: the responses not yet read, then the requests not yet
answered. -/
def Substream.lines (s : Substream) : List Req := s.responses ++ s.requests

/-- The response line a call has read: once it returns `Ok`, and while its guard pushes. -/
@[simp] def CallPhase.response : CallPhase → Option Req
  | .returned resp | .releasing _ _ (.returned resp) => resp
  | _ => none

@[simp] theorem CallEnd.phase_ne_reading (e : CallEnd) (c : Nat) : e.phase ≠ .reading c := by
  cases e <;> simp [CallEnd.phase]

/-- Actions that abandon no request whatever the state: all but a failed read and a cancel. -/
def Action.keepsRequests : Action → Bool
  | .read _ false | .cancel _ => false
  | _ => true

theorem eq_of_mem_of_length_le_one {α : Type} {l : List α} {a b : α} (hl : l.length ≤ 1)
    (ha : a ∈ l) (hb : b ∈ l) : a = b := by
  rcases l with _ | ⟨x, _ | ⟨y, l⟩⟩
  · cases ha
  · simp_all
  · simp at hl

namespace Transport

/-- The request of a call that is reading substream `c`. -/
def readingReq (c : Nat) (call : Call) : Option Req :=
  if call.phase = .reading c then some call.req else none

/-- The requests of the calls reading substream `c`. -/
def pending (w : Transport) (c : Nat) : List Req := w.calls.filterMap (readingReq c)

/-- What each substream carries, and what the calls returned. -/
structure Matched (w : Transport) : Prop where
  /-- the lines on substream `c` are the requests of the calls reading it -/
  carried : ∀ c s, w.streams[c]? = some s → List.Perm s.lines (w.pending c)
  /-- every call that has read a line read the response to its request -/
  answered : ∀ (i : Nat) (call : Call) (l : Req), w.calls[i]? = some call →
    call.phase.response = some l → l = call.req

/-- The steps that abandon a written request: a failed read, and the drop of a reading call. -/
def Abandons (w : Transport) : Action → Prop
  | .read _ ok => ok = false
  | .cancel i => ∃ r c, w.calls[i]? = some ⟨r, .reading c⟩
  | _ => False

/-- A run from `w` in which no step abandons a written request. -/
def NoAbandon : Transport → List Action → Prop
  | _, [] => True
  | w, a :: as => ¬ w.Abandons a ∧ ∀ w', w.step a = some w' → NoAbandon w' as

@[simp] theorem readingReq_mk (c : Nat) (r : Req) (p : CallPhase) :
    readingReq c ⟨r, p⟩ = if p = .reading c then some r else none := rfl

theorem noAbandon_of_keepsRequests (w : Transport) (as : List Action)
    (h : as.all Action.keepsRequests) : NoAbandon w as := by
  induction as generalizing w with
  | nil => trivial
  | cons a as ih =>
    simp only [List.all_cons, Bool.and_eq_true] at h
    refine ⟨fun ha => ?_, fun w' _ => ih w' h.2⟩
    cases a <;> simp_all [Abandons, Action.keepsRequests]

/-! ## Who reads a substream -/

theorem pending_setPhase (w : Transport) {i : Nat} {call : Call} (p : CallPhase)
    (ht : w.calls[i]? = some call) (c : Nat) :
    List.Perm ((w.setPhase i p).pending c ++ (readingReq c call).toList)
      (w.pending c ++ (readingReq c ⟨call.req, p⟩).toList) :=
  filterMap_modify_perm _ _ _ i call ht

/-- A call reading `c` holds `c`, so the readers of `c` are among its owners. -/
theorem length_pending_le (w : Transport) (c : Nat) : (w.pending c).length ≤ w.owners.count c := by
  have key : ∀ l : List Call,
      (l.filterMap (readingReq c)).length ≤ (l.filterMap (·.phase.held)).count c := by
    intro l
    induction l with
    | nil => simp
    | cons x l ih =>
      by_cases hx : x.phase = .reading c
      · simp [readingReq, hx, List.filterMap_cons, ih]
      · simp only [List.filterMap_cons, readingReq, hx, if_false]
        cases x.phase.held <;> simp [List.count_cons] <;> omega
  simpa [pending, owners, List.count_append] using (key w.calls).trans (Nat.le_add_right _ _)

theorem getElem?_calls_setPhase (w : Transport) (i : Nat) (p : CallPhase) (j : Nat) :
    (w.setPhase i p).calls[j]? =
      if i = j then (w.calls[j]?).map ({ · with phase := p }) else w.calls[j]? := by
  simp only [setPhase, List.getElem?_modify]
  split <;> simp

/-! ## One step -/

variable {w w' : Transport}

theorem matched_init (now : Nat) : (init now).Matched := ⟨by simp [init], by simp [init]⟩

/-- A call moves to `p`: the calls that have read a line still read their own response when `p`
does. -/
theorem Matched.answered_setPhase (h : w.Matched) {i : Nat} {call : Call} {p : CallPhase}
    (ht : w.calls[i]? = some call) (hc : w'.calls = (w.setPhase i p).calls)
    (hp : ∀ l, p.response = some l → l = call.req) :
    ∀ (j : Nat) (call' : Call) (l : Req), w'.calls[j]? = some call' →
      call'.phase.response = some l → l = call'.req := by
  intro j call' l hj hl
  rw [hc, getElem?_calls_setPhase] at hj
  split at hj
  · next hij =>
    subst hij
    simp only [ht, Option.map_some', Option.some.injEq] at hj
    subst hj
    exact hp l hl
  · exact h.answered j call' l hj hl

/-- A call moves to `p`, and each substream changes by what that move changes in who reads it. -/
theorem Matched.setPhase (h : w.Matched) {i : Nat} {call : Call} (p : CallPhase)
    (ht : w.calls[i]? = some call) (hc : w'.calls = (w.setPhase i p).calls)
    (hs : ∀ c s', w'.streams[c]? = some s' → ∃ s, w.streams[c]? = some s ∧
      List.Perm (s'.lines ++ (readingReq c call).toList)
        (s.lines ++ (readingReq c ⟨call.req, p⟩).toList))
    (hp : ∀ l, p.response = some l → l = call.req) : w'.Matched where
  carried c s' hs' := by
    obtain ⟨s, hs₀, hperm⟩ := hs c s' hs'
    have hpend : w'.pending c = (w.setPhase i p).pending c := by simp only [pending, hc]
    rw [hpend, ← List.perm_append_right_iff (readingReq c call).toList]
    exact hperm.trans (((h.carried c s hs₀).append_right _).trans (pending_setPhase w p ht c).symm)
  answered := h.answered_setPhase ht hc hp

/-- A call moves between two phases that read nothing, and no substream changes. -/
theorem Matched.setPhase_idle (h : w.Matched) {i : Nat} {r : Req} {q : CallPhase} (p : CallPhase)
    (ht : w.calls[i]? = some ⟨r, q⟩) (hc : w'.calls = (w.setPhase i p).calls)
    (hw : w'.streams = w.streams) (hidle : ∀ c, q ≠ .reading c ∧ p ≠ .reading c)
    (hp : ∀ l, p.response = some l → l = r) : w'.Matched :=
  h.setPhase p ht hc (fun c s' hs' => ⟨s', hw ▸ hs', by simp [(hidle c).1, (hidle c).2]⟩) hp

theorem Matched.call (h : w.Matched) (req : Req) :
    ({ w with calls := w.calls ++ [⟨req, .start⟩] } : Transport).Matched where
  carried c s hs := by simpa [pending, List.filterMap_append] using h.carried c s hs
  answered j call l hj hl := by
    by_cases hlt : j < w.calls.length
    · exact h.answered j call l (by rwa [List.getElem?_append_left hlt] at hj) hl
    · rw [List.getElem?_append_right (by omega)] at hj
      cases hk : j - w.calls.length <;> simp [hk] at hj
      subst hj
      simp at hl

/-- A call that was opening a substream holds the new one, which carries nothing yet. -/
theorem Matched.opened (h : w.Matched) (hx : w.Exclusive) {i : Nat} {r : Req}
    (ht : w.calls[i]? = some ⟨r, .opening⟩) :
    ({ w with streams := w.streams ++ [(⟨[], []⟩ : Substream)] }.setPhase i
      (.writing w.streams.length)).Matched where
  carried c s' hs' := by
    have hperm := pending_setPhase { w with streams := w.streams ++ [(⟨[], []⟩ : Substream)] }
      (.writing w.streams.length) ht c
    simp only [readingReq_mk, reduceCtorEq, if_false, Option.toList_none, List.append_nil] at hperm
    by_cases hc : c < w.streams.length
    · simp only [streams_setPhase, List.getElem?_append_left hc] at hs'
      exact (h.carried c s' hs').trans hperm.symm
    · have hlt := (List.getElem?_eq_some_iff.1 hs').1
      simp only [streams_setPhase, List.length_append, List.length_singleton] at hlt
      obtain rfl : c = w.streams.length := by omega
      simp only [streams_setPhase, List.getElem?_append_right le_rfl, Nat.sub_self,
        List.getElem?_cons_zero, Option.some.injEq] at hs'
      subst hs'
      have hnil : w.pending w.streams.length = [] := List.eq_nil_of_length_eq_zero
        (Nat.eq_zero_of_le_zero ((length_pending_le w _).trans hx.count_owners_length.le))
      simpa [Substream.lines] using (hperm.trans (List.Perm.of_eq hnil)).symm
  answered := h.answered_setPhase ht rfl (by simp)

/-- The call writes its request on the substream it holds and reads it. -/
theorem Matched.written (h : w.Matched) {i : Nat} {req : Req} {c : Nat}
    (ht : w.calls[i]? = some ⟨req, .writing c⟩) :
    ((w.modifyStream c fun s => { s with requests := s.requests ++ [req] }).setPhase i
      (.reading c)).Matched := by
  refine h.setPhase _ ht rfl (fun c' s' hs' => ?_) (by simp)
  simp only [streams_setPhase, modifyStream, List.getElem?_modify] at hs'
  by_cases hcc : c = c'
  · subst hcc
    obtain ⟨s, hs, rfl⟩ := Option.map_eq_some'.1 (by simpa using hs')
    exact ⟨s, hs, by simp [Substream.lines]⟩
  · exact ⟨s', by simpa [hcc] using hs', by simp [hcc, Ne.symm hcc]⟩

/-- **The read.** The line a call reads is the response to its own request: the lines of its
substream are the requests of its readers, and it is the only one. It leaves reading with that
line or with an error. -/
theorem Matched.read (h : w.Matched) (hx : w.Exclusive) {i : Nat} {r : Req} {c line : Nat}
    (ht : w.calls[i]? = some ⟨r, .reading c⟩)
    (hl : (w.streams[c]?).bind (·.responses.head?) = some line) (p : CallPhase)
    (hpr : ∀ c', p ≠ .reading c') (hp : ∀ l, p.response = some l → l = line) :
    ((w.modifyStream c fun s => { s with responses := s.responses.tail }).setPhase i p).Matched := by
  obtain ⟨s, hs, hhead⟩ := Option.bind_eq_some.1 hl
  obtain ⟨rest, hresp⟩ := List.head?_eq_some_iff.1 hhead
  have hline : line = r := by
    have hle := (length_pending_le w c).trans (List.nodup_iff_count_le_one.1 hx.1 c)
    refine eq_of_mem_of_length_le_one hle ((h.carried c s hs).subset ?_)
      (List.mem_filterMap.2 ⟨_, List.getElem?_mem ht, by simp⟩)
    simp [Substream.lines, hresp]
  subst hline
  refine h.setPhase _ ht rfl (fun c' s' hs' => ?_) hp
  simp only [streams_setPhase, modifyStream, List.getElem?_modify] at hs'
  by_cases hcc : c = c'
  · subst hcc
    simp only [hs, if_true, Option.map_eq_map, Option.map_some', Option.some.injEq] at hs'
    subst hs'
    refine ⟨s, hs, ?_⟩
    simpa [Substream.lines, hresp, hpr] using List.perm_append_singleton line (rest ++ s.requests)
  · exact ⟨s', by simpa [hcc] using hs', by simp [hcc, Ne.symm hcc, hpr]⟩

/-- The server answers the oldest request of a substream: its lines stay the same. -/
theorem Matched.serve (h : w.Matched) {c : Nat} {req : Req} {reqs resps : List Req}
    (hs : w.streams[c]? = some ⟨req :: reqs, resps⟩) :
    ({ w with streams := w.streams.set c ⟨reqs, resps ++ [req]⟩ } : Transport).Matched where
  carried c' s' hs' := by
    by_cases hcc : c = c'
    · subst hcc
      simp only [List.getElem?_set_self (List.getElem?_eq_some_iff.1 hs).1,
        Option.some.injEq] at hs'
      subst hs'
      simpa [Substream.lines] using h.carried c _ hs
    · exact h.carried c' s' (by simpa [List.getElem?_set_ne hcc] using hs')
  answered := h.answered

/-- **One step.** A step that abandons no request keeps the substreams matched. -/
theorem Matched.step {a : Action} (h : w.Matched) (hx : w.Exclusive) (hna : ¬ w.Abandons a)
    (hs : w.step a = some w') : w'.Matched := by
  cases moves_of_step hs with
  | call req => exact h.call req
  | pooled ht _ | opening ht _ | openFailed ht | writeFailed ht | cancelWriting ht =>
    exact h.setPhase_idle _ ht rfl rfl (by simp) (by simp)
  | opened ht => exact h.opened hx ht
  | written ht => exact h.written ht
  | read ht hl | parseFailed ht hl =>
    exact h.read hx ht hl _ (by simp) (by simp)
  | readFailed _ => exact absurd rfl hna
  | cancelReading ht => exact absurd ⟨_, _, ht⟩ hna
  | cancelIdle ht hq =>
    exact h.setPhase_idle .cancelled ht rfl rfl (by rcases hq with rfl | rfl <;> simp)
      (by simp)
  | @push i r c t e ht =>
    exact h.setPhase_idle _ ht rfl rfl (by simp)
      fun l hl => h.answered _ _ l ht (by cases e <;> exact hl)
  | serve hc => exact h.serve hc
  | tick d => exact ⟨h.carried, h.answered⟩

/-- **Every run** that abandons no request. -/
theorem Matched.run (h : w.Matched) (hx : w.Exclusive) {as : List Action}
    (hq : NoAbandon w as) (hr : w.run as = some w') : w'.Matched := by
  induction as generalizing w with
  | nil => cases hr; exact h
  | cons a as ih =>
    simp only [Transport.run, Option.bind_eq_some] at hr
    obtain ⟨w₁, h₁, h₂⟩ := hr
    exact ih (h.step hx hq.1 h₁) (hx.step h₁) (hq.2 w₁ h₁) h₂

/-- **No cross-talk without abandonment.** On every run from `MultiplexRpcTransport::new` in
which no call abandons a request it has written, a call that returned a line returned the
response to its own request. -/
theorem answers_own_request (now : Nat) (as : List Action) {w : Transport}
    (hq : NoAbandon (init now) as) (h : (init now).run as = some w) {i : Nat} {r l : Req}
    (hi : w.calls[i]? = some ⟨r, .returned (some l)⟩) : l = r :=
  ((matched_init now).run (exclusive_init now) hq h).answered i _ l hi rfl

/-- Two calls in turn on one substream, the second reusing it from the pool: the second returns
a line, and whatever line it returns is the response to its own request. -/
theorem answers_own_request_reused :
    let as : List Action := [.call 0, .getConn 0, .opened 0 true, .written 0 true, .serve 0,
      .read 0 true, .push 0, .call 1, .getConn 1, .written 1 true, .serve 0, .read 1 true, .push 1]
    ∃ w, NoAbandon (init 0) as ∧ (init 0).run as = some w ∧
      w.calls[1]? = some ⟨1, .returned (some 1)⟩ ∧
      ∀ l, w.calls[1]? = some ⟨1, .returned (some l)⟩ → l = 1 := by
  intro as
  have hq : NoAbandon (init 0) as := noAbandon_of_keepsRequests _ _ rfl
  exact ⟨_, hq, rfl, rfl, fun l hl => answers_own_request 0 as hq rfl hl⟩

end Transport

end Earendil.Link
