import Earendil.Link.RpcResponses

/-!
# A waiting call can always move on

`call_raw` waits in `read_line` for the next line of its substream. It can be left waiting for
good only if the substream holds no response line for it and no request line the server could
answer. That never happens. A call starts to wait just after writing a line, and only a read
removes a line, and every read also ends one wait. A call that leaves without reading (its read
fails, or it is cancelled) leaves its line behind.

**Invariant (`LinesCover`).** In every reachable state, no substream has more calls waiting in
`read_line` on it than lines in flight on it (responses not yet read, requests not yet
answered).

**Theorem (`reader_can_progress`).** In every state reachable from `MultiplexRpcTransport::new`,
a call waiting in `read_line` can read a response line, or the server loop has a request line of
that substream to answer: the transport and the server never deadlock.
-/

namespace Earendil.Link

namespace Transport

/-- The calls waiting in `read_line` on substream `c`. -/
def readersOn (w : Transport) (c : Nat) : Nat := w.calls.countP (·.phase = .reading c)

/-- The lines in flight on substream `c`: responses not yet read, requests not yet answered. -/
def linesOn (w : Transport) (c : Nat) : Nat := ((w.streams[c]?).map (·.lines.length)).getD 0

/-- No substream has more calls waiting on it than lines in flight. -/
def LinesCover (w : Transport) : Prop := ∀ c, w.readersOn c ≤ w.linesOn c

theorem readersOn_setPhase (w : Transport) {i : Nat} {call : Call} (p : CallPhase)
    (ht : w.calls[i]? = some call) (c : Nat) :
    (w.setPhase i p).readersOn c + (if call.phase = .reading c then 1 else 0) =
      w.readersOn c + (if p = .reading c then 1 else 0) := by
  have := countP_modify (fun t : Call => decide (t.phase = .reading c))
    (fun t => { t with phase := p }) w.calls i call ht
  simpa [readersOn, setPhase] using this

theorem linesOn_modifyStream (w : Transport) (c : Nat) (f : Substream → Substream) (c' : Nat) :
    (w.modifyStream c f).linesOn c' =
      if c = c' then ((w.streams[c]?).map fun s => (f s).lines.length).getD 0 else w.linesOn c' := by
  simp only [linesOn, modifyStream, List.getElem?_modify]
  split <;> simp_all [Function.comp_def]

/-- A call that moves to a phase other than reading waits on no more substreams. -/
theorem readersOn_setPhase_le (w : Transport) {i : Nat} {call : Call} (p : CallPhase)
    (ht : w.calls[i]? = some call) (hp : ∀ c, p ≠ .reading c) (c : Nat) :
    (w.setPhase i p).readersOn c ≤ w.readersOn c := by
  have := readersOn_setPhase w p ht c
  simp only [hp c, if_false] at this
  omega

/-- A substream that is not in use gains no reader; one whose lines stay gains none either. -/
theorem LinesCover.of_le {w w' : Transport} (h : w.LinesCover)
    (hr : ∀ c, w'.readersOn c ≤ w.readersOn c) (hl : ∀ c, w.linesOn c ≤ w'.linesOn c) :
    w'.LinesCover := fun c => (hr c).trans ((h c).trans (hl c))

/-- A call moves from its phase to `p` over a state `w₁` with the same calls: the invariant holds
after it when `w₁` has a line on every substream for the reader the move adds, and keeps the
lines of every other substream but for the reader it removes. -/
theorem LinesCover.setPhase {w w₁ : Transport} (h : w.LinesCover) (hc : w₁.calls = w.calls)
    {i : Nat} {call : Call} (p : CallPhase) (ht : w.calls[i]? = some call)
    (hl : ∀ c, w.linesOn c + (if p = .reading c then 1 else 0) ≤
      w₁.linesOn c + (if call.phase = .reading c then 1 else 0)) :
    (w₁.setPhase i p).LinesCover := fun c => by
  have hr := readersOn_setPhase w₁ p (hc ▸ ht) c
  have hw : w₁.readersOn c = w.readersOn c := by rw [readersOn, hc, readersOn]
  have := h c
  have := hl c
  show _ ≤ w₁.linesOn c
  omega

/-- **One step.** -/
theorem LinesCover.step {w w' : Transport} {a : Action} (h : w.LinesCover) (hx : w.Exclusive)
    (hs : w.step a = some w') : w'.LinesCover := by
  cases moves_of_step hs with
  | call req =>
    exact h.of_le (fun c => by simp [readersOn, List.countP_append]) (fun _ => le_rfl)
  | pooled ht _ | opening ht _ | openFailed ht | cancelIdle ht _ =>
    exact h.of_le (readersOn_setPhase_le _ _ ht (by simp)) (fun _ => le_rfl)
  | opened ht =>
    refine h.of_le (readersOn_setPhase_le _ _ ht (by simp)) (fun c => ?_)
    simp only [linesOn, streams_setPhase]
    by_cases hc : c < w.streams.length
    · rw [List.getElem?_append_left hc]
    · simp [List.getElem?_eq_none (Nat.le_of_not_lt hc)]
  | @written i req c' ht =>
    have hc' : c' < w.streams.length := hx.2 c' (List.mem_append_left _
      (List.mem_filterMap.2 ⟨_, List.getElem?_mem ht, rfl⟩))
    refine h.setPhase (by rfl) _ ht fun c => ?_
    rw [linesOn_modifyStream]
    by_cases hcc : c' = c
    · subst hcc
      simp [linesOn, List.getElem?_eq_getElem hc', Substream.lines]
      omega
    · simp [hcc]
  | writeFailed ht | cancelWriting ht | readFailed ht | cancelReading ht =>
    exact h.of_le (readersOn_setPhase_le _ _ ht (by simp)) (fun _ => le_rfl)
  | @push i r c' t e ht =>
    exact h.of_le (readersOn_setPhase_le (w.pushBack c' t) _ ht (by simp)) (fun _ => le_rfl)
  | @read i r c' line ht hl | @parseFailed i r c' line ht hl =>
    obtain ⟨s, hs, hhead⟩ := Option.bind_eq_some.1 hl
    obtain ⟨rest, hresp⟩ := List.head?_eq_some_iff.1 hhead
    refine h.setPhase (by rfl) _ ht fun c => ?_
    rw [linesOn_modifyStream]
    by_cases hcc : c' = c
    · subst hcc
      simp [linesOn, hs, Substream.lines, hresp]
      omega
    · simp [hcc]
  | @serve c' req reqs resps hc =>
    refine h.of_le (fun _ => le_rfl) (fun c => ?_)
    simp only [linesOn, List.getElem?_set]
    split
    · next hcc =>
      subst hcc
      simp [hc, (List.getElem?_eq_some_iff.1 hc).1, Substream.lines]
      omega
    · exact le_rfl
  | tick d => exact h.of_le (fun _ => le_rfl) (fun _ => le_rfl)

theorem LinesCover.run {w w' : Transport} (h : w.LinesCover) (hx : w.Exclusive) :
    ∀ {as : List Action}, w.run as = some w' → w'.LinesCover
  | [], hr => by cases hr; exact h
  | a :: as, hr => by
    simp only [Transport.run, Option.bind_eq_some] at hr
    obtain ⟨w₁, h₁, h₂⟩ := hr
    exact (h.step hx h₁).run (hx.step h₁) h₂

theorem linesCover_init (now : Nat) : (init now).LinesCover := fun _ => Nat.zero_le _

/-- **A waiting call can always move on.** In every state reachable from
`MultiplexRpcTransport::new`, a call waiting in `read_line` on substream `c` can read a response
line, or the server loop has a request line of `c` to answer. -/
theorem reader_can_progress (now : Nat) (as : List Action) {w : Transport}
    (h : (init now).run as = some w) {i c : Nat} {r : Req}
    (hi : w.calls[i]? = some ⟨r, .reading c⟩) :
    (w.step (.read i true)).isSome ∨ (w.step (.serve c)).isSome := by
  have hcov := (linesCover_init now).run (exclusive_init now) h c
  have hpos : 0 < w.readersOn c := List.countP_pos_iff.2 ⟨_, List.getElem?_mem hi, by simp⟩
  cases hs : w.streams[c]? with
  | none => simp [linesOn, hs] at hcov; omega
  | some s =>
    obtain ⟨reqs, resps⟩ := s
    have hlines : 0 < resps.length + reqs.length := by
      simp [linesOn, hs, Substream.lines] at hcov; omega
    cases resps with
    | cons line rest => exact .inl (by simp [Transport.step, hi, hs])
    | nil =>
      cases reqs with
      | nil => simp at hlines
      | cons req reqs => exact .inr (by simp [Transport.step, hs])

/-- A call that has written its request on a new substream waits in `read_line`; the server has
that request to answer. -/
theorem reader_waits_for_server :
    let as : List Action := [.call 0, .getConn 0, .opened 0 true, .written 0 true]
    ∃ w, (init 0).run as = some w ∧ w.calls[0]? = some ⟨0, .reading 0⟩ ∧
      (w.step (.read 0 true)).isSome = false ∧
      ((w.step (.read 0 true)).isSome ∨ (w.step (.serve 0)).isSome) := by
  intro as
  exact ⟨_, rfl, rfl, rfl, reader_can_progress 0 as rfl rfl⟩

end Transport

end Earendil.Link
