import Earendil.ReplyBlockStore.SingleUse
import Mathlib.Data.List.DropRight

/-!
# A batch insert, then gets

`insert_batch(F, xs)` inserts the blocks of `xs` one by one. Each `insert` appends to the deque of
`F`, dropping its oldest block when the deque holds 1000, so the batch leaves the newest 1000
blocks of the old deque followed by `xs`; `get(F)` pops them newest first.

**Theorem (`insertBatch_then_gets`).** Let `d` be the blocks `F` holds in a state reachable from
`ReplyBlockStore::new(size)` (`d = []` when it holds none), and `k = min 1000 (|d| + |xs|)`. After
`insert_batch(F, xs)`, `F` holds the last `k` blocks of `d ++ xs`, in order; the next `k` calls of
`get(F)` return them newest first, and the call after them returns `None`.

The bound of the deques in reachable states is what makes the head-drop keep exactly the last
1000: a deque that held more would keep more.
-/

namespace Earendil

variable {β : Type}

theorem rtake_rtake_append (l m : List β) (n : Nat) :
    (l.rtake n ++ m).rtake n = (l ++ m).rtake n := by
  simp only [List.rtake, List.length_append, List.length_drop]
  rw [← List.drop_append_of_le_length (Nat.sub_le _ _), List.drop_drop]
  congr 1
  omega

theorem rtake_min_length (l : List β) (n : Nat) : l.rtake (min n l.length) = l.rtake n := by
  simp only [List.rtake]
  congr 1
  omega

theorem length_rtake (l : List β) (n : Nat) : (l.rtake n).length = min n l.length := by
  simp only [List.rtake, List.length_drop]
  omega

namespace ReplyBlockDeque

/-- **One insert.** On a deque within its capacity, `insert` keeps the newest `capacity` blocks. -/
theorem deque_insert (d : ReplyBlockDeque β) (item : β) (hc : 0 < d.capacity)
    (h : d.deque.length ≤ d.capacity) :
    (d.insert item).deque = (d.deque ++ [item]).rtake d.capacity := by
  unfold insert
  split
  · next he =>
    cases hd : d.deque with
    | nil => rw [hd] at he; simp at he; omega
    | cons x xs => rw [hd] at he; simp [List.rtake, ← he]
  · simp only [List.rtake, List.length_append, List.length_singleton]
    rw [Nat.sub_eq_zero_of_le (by omega), List.drop_zero]

end ReplyBlockDeque

namespace ReplyBlockStore

/-- What `insert` leaves for the fingerprint it inserts under. -/
theorem deque?_insert_self (s : ReplyBlockStore β) (fp : Fingerprint) (rb : β) :
    (s.insert fp rb).deque? fp = some (((s.deque? fp).getD (.new 1000)).insert rb) := by
  cases hd : s.deque? fp with
  | none => simp [deque?, insert_of_not_mem hd, LruCache.peek_put_self]
  | some d => simp [deque?, insert_of_mem hd, LruCache.peek_touch _ (LruCache.mem_keys_of_peek hd)]

theorem DequesBounded.length_blocks_le {s : ReplyBlockStore β} (h : s.DequesBounded)
    (fp : Fingerprint) : (s.blocks fp).length ≤ 1000 := by
  cases hd : s.deque? fp with
  | none => simp [blocks, hd]
  | some d => simpa [blocks, hd] using (h fp d hd).2

theorem deque_getD (s : ReplyBlockStore β) (fp : Fingerprint) :
    ((s.deque? fp).getD (.new 1000)).deque = s.blocks fp := by
  cases hd : s.deque? fp <;> simp [blocks, hd, ReplyBlockDeque.new]

/-- On a store whose deques are bounded, `insert` keeps the newest 1000 blocks of the
fingerprint. -/
theorem blocks_insert_self {s : ReplyBlockStore β} (h : s.DequesBounded) (fp : Fingerprint)
    (rb : β) : (s.insert fp rb).blocks fp = (s.blocks fp ++ [rb]).rtake 1000 := by
  have hb : ((s.deque? fp).getD (.new 1000)).capacity = 1000 ∧
      ((s.deque? fp).getD (.new 1000)).deque.length ≤ 1000 := by
    cases hd : s.deque? fp with
    | none => simp [ReplyBlockDeque.new]
    | some d => exact h fp d hd
  rw [blocks, deque?_insert_self, Option.map_some', Option.getD_some,
    ReplyBlockDeque.deque_insert _ _ (by omega) (by omega), hb.1, deque_getD]

/-- **The batch.** `insert_batch` keeps the newest 1000 blocks of the old deque and the batch. -/
theorem blocks_insertBatch_self {s : ReplyBlockStore β} (h : s.DequesBounded) (fp : Fingerprint)
    (items : List β) :
    (s.insertBatch fp items).blocks fp = (s.blocks fp ++ items).rtake 1000 := by
  induction items generalizing s with
  | nil =>
    simp only [insertBatch_nil, List.append_nil, List.rtake,
      Nat.sub_eq_zero_of_le (h.length_blocks_le fp), List.drop_zero]
  | cons x xs ih =>
    rw [insertBatch_cons, ih (h.insert fp x), blocks_insert_self h, rtake_rtake_append,
      List.append_assoc, List.singleton_append]

/-- **The gets.** From a store in which `F` holds `L`, `|L| + 1` calls of `get(F)` return `L`
newest first, then `None`. -/
theorem gets_replicate_get (F : Fingerprint) :
    ∀ (n : Nat) (s : ReplyBlockStore β), (s.blocks F).length = n →
      s.gets (List.replicate (n + 1) (.get F)) =
        (s.blocks F).reverse.map (fun b => (F, some b)) ++ [(F, none)]
  | 0, s, hn => by
    simp [List.length_eq_zero.1 hn, List.replicate, gets, exec, get_fst]
  | n + 1, s, hn => by
    have hne : s.blocks F ≠ [] := List.ne_nil_of_length_eq_add_one hn
    have ih := gets_replicate_get F n (s.get F).2 (by simp [blocks_get, hn])
    rw [List.replicate_succ, gets, exec, ih, blocks_get, if_pos rfl, get_fst,
      List.getLast?_eq_getLast _ hne]
    conv_rhs => rw [← List.dropLast_append_getLast hne]
    simp

/-- **Insert a batch, then get.** In every state reachable from `ReplyBlockStore::new(size)`, where
`F` holds `d`: after `insert_batch(F, xs)`, `F` holds the last `k = min 1000 (|d| + |xs|)` blocks
of `d ++ xs`, oldest first; the next `k` calls of `get(F)` return them newest first, and the one
after them returns `None`. -/
theorem insertBatch_then_gets (size : ℕ+) (ops : List (Op β)) (F : Fingerprint) (xs : List β) :
    let d := ((new size : ReplyBlockStore β).run ops).blocks F
    let k := min 1000 (d.length + xs.length)
    let s := ((new size : ReplyBlockStore β).run ops).insertBatch F xs
    s.blocks F = (d ++ xs).rtake k ∧
      s.gets (List.replicate (k + 1) (.get F)) =
        ((d ++ xs).rtake k).reverse.map (fun b => (F, some b)) ++ [(F, none)] := by
  intro d k s
  have hb : s.blocks F = (d ++ xs).rtake k := by
    rw [blocks_insertBatch_self ((dequesBounded_new size).run ops), ← rtake_min_length,
      List.length_append]
  have hk : (s.blocks F).length = k := by
    rw [hb, length_rtake, List.length_append, min_eq_left (min_le_right _ _)]
  exact ⟨hb, hb ▸ gets_replicate_get F k s hk⟩

end ReplyBlockStore

end Earendil
