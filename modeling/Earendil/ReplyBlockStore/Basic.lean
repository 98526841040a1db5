import Earendil.Lru

/-!
# The reply-block store

`daemon/reply_block_store.rs`. An LRU map from fingerprints to bounded deques of single-use reply
blocks. `insert` appends to the fingerprint's deque, dropping its head when the deque is full, and
creates a deque of capacity 1000 for a fingerprint the map does not hold; `get` pops the newest
block. Both go through `get_mut`, so both promote the fingerprint; only `put` can evict.

A reply block is never looked into by the store, so its type is a parameter `β`.

**Runs.** A run is a list of calls (`Op`); `run` threads the store through them, and `gets`
collects what each `get` returned.

**Theorem (`deques_bounded`).** In every state reachable from
`ReplyBlockStore::new(size)`, every fingerprint's deque has capacity 1000 and at most 1000 blocks.
-/

namespace Earendil

variable {β : Type}

/-- `ReplyBlockDeque`: the blocks of one fingerprint, oldest first, and the bound. -/
structure ReplyBlockDeque (β : Type) where
  deque : List β
  capacity : Nat

namespace ReplyBlockDeque

/-- `ReplyBlockDeque::new(capacity)`. -/
def new (capacity : Nat) : ReplyBlockDeque β := ⟨[], capacity⟩

/-- `insert`: `pop_front` when the deque is at capacity, then `push_back`. -/
def insert (d : ReplyBlockDeque β) (item : β) : ReplyBlockDeque β :=
  { d with deque := (if d.deque.length = d.capacity then d.deque.tail else d.deque) ++ [item] }

/-- `pop`: `pop_back`, the newest block. -/
def pop (d : ReplyBlockDeque β) : Option β × ReplyBlockDeque β :=
  (d.deque.getLast?, { d with deque := d.deque.dropLast })

@[simp] theorem capacity_insert (d : ReplyBlockDeque β) (item : β) :
    (d.insert item).capacity = d.capacity := rfl

@[simp] theorem capacity_pop (d : ReplyBlockDeque β) : d.pop.2.capacity = d.capacity := rfl

theorem deque_insert_sublist (d : ReplyBlockDeque β) (item : β) :
    List.Sublist (d.insert item).deque (d.deque ++ [item]) := by
  unfold insert
  split
  · exact (List.tail_sublist _).append_right _
  · exact List.Sublist.refl _

theorem length_insert_le (d : ReplyBlockDeque β) (item : β) (hc : 0 < d.capacity)
    (h : d.deque.length ≤ d.capacity) :
    (d.insert item).deque.length ≤ d.capacity := by
  unfold insert
  split
  · next he => simp only [List.length_append, List.length_tail, List.length_singleton]; omega
  · next he => simp only [List.length_append, List.length_singleton]; omega

theorem pop_deque (d : ReplyBlockDeque β) :
    d.deque = d.pop.2.deque ++ d.pop.1.toList := by
  cases h : d.deque.getLast? with
  | none => simp_all [pop]
  | some b =>
    obtain ⟨ys, hys⟩ := List.getLast?_eq_some_iff.1 h
    simp [pop, hys]

end ReplyBlockDeque

/-- `ReplyBlockStore`. -/
structure ReplyBlockStore (β : Type) where
  items : LruCache Fingerprint (ReplyBlockDeque β)

namespace ReplyBlockStore

/-- `ReplyBlockStore::new(size)`. -/
def new (size : ℕ+) : ReplyBlockStore β := ⟨LruCache.new size⟩

/-- `insert(fingerprint, rb)`. -/
def insert (s : ReplyBlockStore β) (fingerprint : Fingerprint) (rb : β) : ReplyBlockStore β :=
  match s.items.getMut fingerprint fun deque => ((), deque.insert rb) with
  | some ((), items) => ⟨items⟩
  | none => ⟨s.items.put fingerprint ((ReplyBlockDeque.new 1000).insert rb)⟩

/-- `insert_batch(fingerprint, items)`: `insert` for each item in turn. -/
def insertBatch (s : ReplyBlockStore β) (fingerprint : Fingerprint) (items : List β) :
    ReplyBlockStore β :=
  items.foldl (fun s item => s.insert fingerprint item) s

/-- `get(fingerprint)`: pop the newest block of the fingerprint's deque. -/
def get (s : ReplyBlockStore β) (fingerprint : Fingerprint) : Option β × ReplyBlockStore β :=
  match s.items.getMut fingerprint ReplyBlockDeque.pop with
  | some (rb, items) => (rb, ⟨items⟩)
  | none => (none, s)

/-- The deque held for a fingerprint, if any. -/
def deque? (s : ReplyBlockStore β) (fp : Fingerprint) : Option (ReplyBlockDeque β) :=
  s.items.peek fp

/-- The blocks held for a fingerprint, oldest first (none when it holds no deque). -/
def blocks (s : ReplyBlockStore β) (fp : Fingerprint) : List β :=
  ((s.deque? fp).map ReplyBlockDeque.deque).getD []

@[simp] theorem deque?_new (size : ℕ+) (fp : Fingerprint) :
    (new size : ReplyBlockStore β).deque? fp = none := rfl

@[simp] theorem blocks_new (size : ℕ+) (fp : Fingerprint) :
    (new size : ReplyBlockStore β).blocks fp = [] := rfl

@[simp] theorem insertBatch_nil (s : ReplyBlockStore β) (fp : Fingerprint) :
    s.insertBatch fp [] = s := rfl

@[simp] theorem insertBatch_cons (s : ReplyBlockStore β) (fp : Fingerprint) (x : β)
    (xs : List β) : s.insertBatch fp (x :: xs) = (s.insert fp x).insertBatch fp xs := rfl

/-! ## One spec lemma per operation -/

/-- `insert` on a fingerprint that holds a deque: that deque gets the block, and the fingerprint
moves to the front. -/
theorem insert_of_mem {s : ReplyBlockStore β} {fp : Fingerprint} {d : ReplyBlockDeque β}
    (h : s.deque? fp = some d) (rb : β) :
    s.insert fp rb = ⟨s.items.touch fp (d.insert rb)⟩ := by
  simp [insert, LruCache.getMut, show s.items.peek fp = some d from h]

/-- `insert` on a fingerprint with no deque: a new deque of capacity 1000 is `put`. -/
theorem insert_of_not_mem {s : ReplyBlockStore β} {fp : Fingerprint} (h : s.deque? fp = none)
    (rb : β) : s.insert fp rb = ⟨s.items.put fp ((ReplyBlockDeque.new 1000).insert rb)⟩ := by
  simp [insert, LruCache.getMut, show s.items.peek fp = none from h]

/-- `get` on a fingerprint that holds a deque pops it and promotes the fingerprint. -/
theorem get_of_mem {s : ReplyBlockStore β} {fp : Fingerprint} {d : ReplyBlockDeque β}
    (h : s.deque? fp = some d) : s.get fp = (d.pop.1, ⟨s.items.touch fp d.pop.2⟩) := by
  simp [get, LruCache.getMut, show s.items.peek fp = some d from h]

/-- `get` on a fingerprint with no deque returns `None` and changes nothing. -/
theorem get_of_not_mem {s : ReplyBlockStore β} {fp : Fingerprint} (h : s.deque? fp = none) :
    s.get fp = (none, s) := by
  simp [get, LruCache.getMut, show s.items.peek fp = none from h]

/-- What `insert` leaves for any fingerprint: the inserted one holds its updated (or new) deque,
and every other one holds what it held, or nothing if it was evicted. -/
theorem deque?_insert {s : ReplyBlockStore β} {fp fp' : Fingerprint} {rb : β}
    {d' : ReplyBlockDeque β} (h : (s.insert fp rb).deque? fp' = some d') :
    (fp' = fp ∧ ∃ d, d' = d.insert rb ∧ (s.deque? fp = some d ∨ d = .new 1000)) ∨
      (fp' ≠ fp ∧ s.deque? fp' = some d') := by
  unfold deque? at h ⊢
  cases hd : s.items.peek fp with
  | some d =>
    rw [insert_of_mem hd, LruCache.peek_touch _ (LruCache.mem_keys_of_peek hd)] at h
    by_cases hf : fp' = fp
    · subst hf; simp only [if_true, Option.some.injEq] at h; exact .inl ⟨rfl, d, h.symm, .inl rfl⟩
    · simp_all
  | none =>
    rw [insert_of_not_mem hd] at h
    by_cases hf : fp' = fp
    · subst hf; rw [LruCache.peek_put_self] at h; simp_all
    · exact .inr ⟨hf, LruCache.peek_put_ne hf h⟩

/-- What `get` leaves: only the fingerprint's own deque changes, by `pop`. -/
theorem deque?_get (s : ReplyBlockStore β) (fp fp' : Fingerprint) :
    (s.get fp).2.deque? fp' =
      if fp' = fp then (s.deque? fp).map fun d => d.pop.2 else s.deque? fp' := by
  cases hd : s.deque? fp with
  | none => simp only [get_of_not_mem hd, hd]; split <;> simp_all
  | some d =>
    rw [get_of_mem hd]
    simp only [deque?, LruCache.peek_touch _ (LruCache.mem_keys_of_peek hd)]
    split <;> simp

/-- The store after `get` still holds exactly the same fingerprints. -/
theorem keys_get (s : ReplyBlockStore β) (fp : Fingerprint) :
    (s.get fp).2.items.keys = if fp ∈ s.items.keys then fp :: s.items.keys.erase fp
      else s.items.keys := by
  cases hd : s.deque? fp with
  | none =>
    have : fp ∉ s.items.keys := LruCache.peek_eq_none.1 hd
    simp [get_of_not_mem hd, this]
  | some d =>
    have hm := LruCache.mem_keys_of_peek hd
    simp [get_of_mem hd, hm, LruCache.keys_touch _ hm]

/-- The fingerprints after `insert`: the inserted one goes to the front; the tail is evicted
only when the fingerprint is new and the store is full. -/
theorem keys_insert (s : ReplyBlockStore β) (fp : Fingerprint) (rb : β) :
    (s.insert fp rb).items.keys = fp ::
      if fp ∈ s.items.keys then s.items.keys.erase fp
      else if s.items.keys.length = s.items.cap then s.items.keys.dropLast else s.items.keys := by
  cases hd : s.deque? fp with
  | none =>
    have hm : fp ∉ s.items.keys := LruCache.peek_eq_none.1 hd
    simp [insert_of_not_mem hd, hm, LruCache.keys_put_of_not_mem _ hm]
  | some d =>
    have hm := LruCache.mem_keys_of_peek hd
    simp [insert_of_mem hd, hm, LruCache.keys_touch _ hm]

@[simp] theorem cap_insert (s : ReplyBlockStore β) (fp : Fingerprint) (rb : β) :
    (s.insert fp rb).items.cap = s.items.cap := by
  cases hd : s.deque? fp with
  | none => simp [insert_of_not_mem hd]
  | some d => simp [insert_of_mem hd]

@[simp] theorem cap_get (s : ReplyBlockStore β) (fp : Fingerprint) :
    (s.get fp).2.items.cap = s.items.cap := by
  cases hd : s.deque? fp with
  | none => simp [get_of_not_mem hd]
  | some d => simp [get_of_mem hd]


/-! ## Runs -/

/-- A call on the store. -/
inductive Op (β : Type)
  | insert (fingerprint : Fingerprint) (rb : β)
  | insertBatch (fingerprint : Fingerprint) (items : List β)
  | get (fingerprint : Fingerprint)

/-- One call: the new store, and what a `get` returned, with its fingerprint. -/
def exec (s : ReplyBlockStore β) : Op β → ReplyBlockStore β × List (Fingerprint × Option β)
  | .insert fp rb => (s.insert fp rb, [])
  | .insertBatch fp items => (s.insertBatch fp items, [])
  | .get fp => ((s.get fp).2, [(fp, (s.get fp).1)])

/-- The blocks a call inserts, with their fingerprints. -/
def Op.inserted : Op β → List (Fingerprint × β)
  | .insert fp rb => [(fp, rb)]
  | .insertBatch fp items => items.map (fp, ·)
  | .get _ => []

/-- The store after a run of calls. -/
def run (s : ReplyBlockStore β) : List (Op β) → ReplyBlockStore β
  | [] => s
  | op :: ops => run (s.exec op).1 ops

/-- What the `get` calls of a run returned, with their fingerprints, in order. -/
def gets (s : ReplyBlockStore β) : List (Op β) → List (Fingerprint × Option β)
  | [] => []
  | op :: ops => (s.exec op).2 ++ gets (s.exec op).1 ops

/-! ## The deque bound -/

/-- Every deque has capacity 1000 and holds at most 1000 blocks. -/
def DequesBounded (s : ReplyBlockStore β) : Prop :=
  ∀ fp d, s.deque? fp = some d → d.capacity = 1000 ∧ d.deque.length ≤ 1000

theorem DequesBounded.insert {s : ReplyBlockStore β} (h : s.DequesBounded) (fp : Fingerprint)
    (rb : β) : (s.insert fp rb).DequesBounded := by
  intro fp' d' hd'
  rcases deque?_insert hd' with ⟨-, d, rfl, hd | rfl⟩ | ⟨-, hd⟩
  · have := h fp d hd
    exact ⟨this.1, this.1 ▸ d.length_insert_le rb (by omega) (by omega)⟩
  · exact ⟨rfl, ReplyBlockDeque.length_insert_le (.new 1000) rb (by simp [ReplyBlockDeque.new])
      (by simp [ReplyBlockDeque.new])⟩
  · exact h fp' d' hd

theorem DequesBounded.insertBatch {s : ReplyBlockStore β} (h : s.DequesBounded)
    (fp : Fingerprint) (items : List β) : (s.insertBatch fp items).DequesBounded := by
  induction items generalizing s with
  | nil => exact h
  | cons x xs ih => exact ih (h.insert fp x)

theorem DequesBounded.get {s : ReplyBlockStore β} (h : s.DequesBounded) (fp : Fingerprint) :
    (s.get fp).2.DequesBounded := by
  intro fp' d' hd'
  rw [deque?_get] at hd'
  split at hd'
  · obtain ⟨d, hd, rfl⟩ := Option.map_eq_some'.1 hd'
    have := h fp d hd
    simp only [ReplyBlockDeque.pop, List.length_dropLast]
    omega
  · exact h fp' d' hd'

theorem DequesBounded.run {s : ReplyBlockStore β} (h : s.DequesBounded) (ops : List (Op β)) :
    (s.run ops).DequesBounded := by
  induction ops generalizing s with
  | nil => exact h
  | cons op ops ih =>
    apply ih
    cases op with
    | insert fp rb => exact h.insert fp rb
    | insertBatch fp items => exact h.insertBatch fp items
    | get fp => exact h.get fp

theorem dequesBounded_new (size : ℕ+) : (new size : ReplyBlockStore β).DequesBounded :=
  fun _ _ h => by simp at h

/-- **Every deque is bounded.** From `ReplyBlockStore::new(size)`, after any calls, every
fingerprint's deque has capacity 1000 and at most 1000 blocks. -/
theorem deques_bounded (size : ℕ+) (ops : List (Op β)) :
    ((new size : ReplyBlockStore β).run ops).DequesBounded :=
  (dequesBounded_new size).run ops

@[simp] theorem cap_insertBatch (s : ReplyBlockStore β) (fp : Fingerprint) (items : List β) :
    (s.insertBatch fp items).items.cap = s.items.cap := by
  induction items generalizing s with
  | nil => rfl
  | cons x xs ih => simp [ih]

@[simp] theorem cap_run (s : ReplyBlockStore β) (ops : List (Op β)) :
    (s.run ops).items.cap = s.items.cap := by
  induction ops generalizing s with
  | nil => rfl
  | cons op ops ih => cases op <;> simp [run, exec, ih]

end ReplyBlockStore

end Earendil
