import Earendil.ReplyBlockStore.Batch

/-!
# The store as a window of stacks

What the reply-block store is for, stated without the LRU map's links or the deques' capacity
field: it remembers the `size` fingerprints used most recently, most recent first, and for each a
stack of its newest blocks, at most 1000. A fingerprint that leaves the window forgets its blocks.
`Window` is that model. Its `insert` moves the fingerprint to the front, cuts the window at
`size`, and keeps the newest 1000 blocks of the stack; its `get` pops the newest block of a
fingerprint in the window and moves it to the front, and does nothing to one outside it.

**Theorem (`run_refines_window`).** From `ReplyBlockStore::new(size)`, along any run of `insert`,
`insert_batch` and `get`, every `get` returns what the window's `get` returns, and the store holds
the window's fingerprints, in the window's order, with the window's blocks.

The abstraction `toWindow` reads the LRU map's keys and each fingerprint's deque. One lemma per
call says that the call commutes with it (`toWindow_insert`, `toWindow_get`); `insert` needs the
deques to be bounded, which every reachable store is (`DequesBounded.run`). The LRU map's key
order after `put` is the window's `take` (`keys_insert_eq_take`): a new key pushed into a full
map drops the tail, which is the key the cut at `size` drops.
-/

namespace Earendil

variable {β : Type}

/-- The reply-block store as its purpose states it. -/
@[ext]
structure Window (β : Type) where
  size : ℕ+
  /-- the fingerprints held, most recently used first -/
  held : List Fingerprint
  /-- each fingerprint's blocks, oldest first -/
  stack : Fingerprint → List β
  held_nodup : held.Nodup
  length_held_le : held.length ≤ size
  stack_of_not_mem : ∀ F, F ∉ held → stack F = []

namespace Window

/-- An empty window of `size` fingerprints. -/
def new (size : ℕ+) : Window β where
  size := size
  held := []
  stack := fun _ => []
  held_nodup := List.nodup_nil
  length_held_le := Nat.zero_le _
  stack_of_not_mem := fun _ _ => rfl

/-- The window after `F` is used: `F` first, then the others, cut at `size`. -/
def touch (w : Window β) (F : Fingerprint) : List Fingerprint := (F :: w.held.erase F).take w.size

theorem mem_touch_self (w : Window β) (F : Fingerprint) : F ∈ w.touch F := by
  obtain ⟨k, hk⟩ : ∃ k, (w.size : ℕ) = k + 1 := ⟨w.size - 1, by have := w.size.pos; omega⟩
  simp [touch, hk]

/-- Inserting `rb` under `F`: `F` moves to the front, its stack keeps its newest 1000 blocks, and
a fingerprint cut from the window forgets its stack. -/
def insert (w : Window β) (F : Fingerprint) (rb : β) : Window β where
  size := w.size
  held := w.touch F
  stack := fun G => if G = F then (w.stack F ++ [rb]).rtake 1000
    else if G ∈ w.touch F then w.stack G else []
  held_nodup := (List.nodup_cons.2 ⟨w.held_nodup.not_mem_erase, w.held_nodup.erase F⟩).sublist
    (List.take_sublist _ _)
  length_held_le := List.length_take_le _ _
  stack_of_not_mem := fun G hG => by
    have hne : G ≠ F := fun h => hG (h ▸ w.mem_touch_self F)
    simp [hne, hG]

/-- Getting from `F`: the newest block of its stack, if any; a fingerprint in the window moves to
the front, and one outside it changes nothing. -/
def get (w : Window β) (F : Fingerprint) : Option β × Window β :=
  ((w.stack F).getLast?,
    { size := w.size
      held := if F ∈ w.held then F :: w.held.erase F else w.held
      stack := Function.update w.stack F (w.stack F).dropLast
      held_nodup := by
        split
        · exact List.nodup_cons.2 ⟨w.held_nodup.not_mem_erase, w.held_nodup.erase F⟩
        · exact w.held_nodup
      length_held_le := by
        have := w.length_held_le
        split
        · next h =>
          rw [List.length_cons, List.length_erase_of_mem h]
          have := List.length_pos_of_mem h
          omega
        · exact this
      stack_of_not_mem := fun G hG => by
        by_cases hGF : G = F
        · subst hGF
          have hF : G ∉ w.held := fun h => hG (by simp [h])
          simp [w.stack_of_not_mem G hF]
        · have hG' : G ∉ w.held := fun h => hG (by split <;> simp [h, List.mem_erase_of_ne hGF])
          simp [hGF, w.stack_of_not_mem G hG'] })

/-- Inserting each block of a batch in turn. -/
def insertBatch (w : Window β) (F : Fingerprint) (items : List β) : Window β :=
  items.foldl (fun w item => w.insert F item) w

/-- One call on the window, and what a `get` returned, with its fingerprint. -/
def exec (w : Window β) : ReplyBlockStore.Op β → Window β × List (Fingerprint × Option β)
  | .insert fp rb => (w.insert fp rb, [])
  | .insertBatch fp items => (w.insertBatch fp items, [])
  | .get fp => ((w.get fp).2, [(fp, (w.get fp).1)])

/-- The window after a run of calls. -/
def run (w : Window β) : List (ReplyBlockStore.Op β) → Window β
  | [] => w
  | op :: ops => run (w.exec op).1 ops

/-- What the `get` calls of a run returned, with their fingerprints, in order. -/
def gets (w : Window β) : List (ReplyBlockStore.Op β) → List (Fingerprint × Option β)
  | [] => []
  | op :: ops => (w.exec op).2 ++ gets (w.exec op).1 ops

end Window

namespace ReplyBlockStore

theorem blocks_of_not_mem {s : ReplyBlockStore β} {F : Fingerprint} (h : F ∉ s.items.keys) :
    s.blocks F = [] := by
  simp [blocks, deque?, LruCache.peek_eq_none.2 h]

/-- The abstraction: the fingerprints of the LRU map, most recently used first, and the blocks of
each. -/
def toWindow (s : ReplyBlockStore β) : Window β where
  size := s.items.cap
  held := s.items.keys
  stack := s.blocks
  held_nodup := s.items.keys_nodup
  length_held_le := s.items.length_keys_le
  stack_of_not_mem := fun _ h => blocks_of_not_mem h

theorem toWindow_new (size : ℕ+) : (new size : ReplyBlockStore β).toWindow = Window.new size :=
  Window.ext rfl rfl rfl

/-! ## Each call commutes with the abstraction -/

/-- The LRU order after `insert` is the window's: `F` first, cut at the capacity. -/
theorem keys_insert_eq_take (s : ReplyBlockStore β) (F : Fingerprint) (rb : β) :
    (s.insert F rb).items.keys = (F :: s.items.keys.erase F).take s.items.cap := by
  have hlen := s.items.length_keys_le
  rw [keys_insert]
  split
  · next hm =>
    have := List.length_pos_of_mem hm
    rw [List.take_of_length_le (by simp [List.length_erase_of_mem hm]; omega)]
  · next hm =>
    rw [List.erase_of_not_mem hm]
    split
    · next hfull =>
      obtain ⟨k, hk⟩ : ∃ k, (s.items.cap : ℕ) = k + 1 := ⟨s.items.cap - 1, by
        have := s.items.cap.pos; omega⟩
      rw [hk, List.take_succ_cons, List.dropLast_eq_take, hfull, hk, Nat.add_sub_cancel]
    · next hfull =>
      rw [List.take_of_length_le (by simp; omega)]

/-- `insert` keeps the deque of another fingerprint while it stays in the map. -/
theorem blocks_insert_of_ne (s : ReplyBlockStore β) {F G : Fingerprint} (rb : β) (hne : G ≠ F) :
    (s.insert F rb).blocks G = if G ∈ (s.insert F rb).items.keys then s.blocks G else [] := by
  split
  · next hG =>
    obtain ⟨d', hd'⟩ := Option.isSome_iff_exists.1 (LruCache.peek_isSome.2 hG)
    rcases deque?_insert (show (s.insert F rb).deque? G = some d' from hd') with ⟨h, -⟩ | ⟨-, hd⟩
    · exact absurd h hne
    · simp [blocks, show (s.insert F rb).deque? G = some d' from hd', hd]
  · next hG => exact blocks_of_not_mem hG

theorem toWindow_insert {s : ReplyBlockStore β} (h : s.DequesBounded) (F : Fingerprint) (rb : β) :
    (s.insert F rb).toWindow = s.toWindow.insert F rb := by
  have hkeys := keys_insert_eq_take s F rb
  refine Window.ext (cap_insert s F rb) hkeys (funext fun G => ?_)
  simp only [toWindow, Window.insert, Window.touch]
  split
  · next hG => subst hG; exact blocks_insert_self h G rb
  · next hG => rw [blocks_insert_of_ne s rb hG, hkeys]

theorem toWindow_get (s : ReplyBlockStore β) (F : Fingerprint) :
    (s.get F).1 = (s.toWindow.get F).1 ∧ (s.get F).2.toWindow = (s.toWindow.get F).2 := by
  refine ⟨get_fst s F, Window.ext (cap_get s F) (keys_get s F) (funext fun G => ?_)⟩
  simp only [toWindow, Window.get, blocks_get, Function.update_apply]

theorem toWindow_insertBatch {s : ReplyBlockStore β} (h : s.DequesBounded) (F : Fingerprint)
    (items : List β) : (s.insertBatch F items).toWindow = s.toWindow.insertBatch F items := by
  induction items generalizing s with
  | nil => rfl
  | cons x xs ih =>
    rw [insertBatch_cons, ih (h.insert F x), toWindow_insert h]
    rfl

theorem toWindow_exec {s : ReplyBlockStore β} (h : s.DequesBounded) (op : Op β) :
    (s.exec op).1.toWindow = (s.toWindow.exec op).1 ∧ (s.exec op).2 = (s.toWindow.exec op).2 := by
  cases op with
  | insert fp rb => exact ⟨toWindow_insert h fp rb, rfl⟩
  | insertBatch fp items => exact ⟨toWindow_insertBatch h fp items, rfl⟩
  | get fp =>
    obtain ⟨h1, h2⟩ := toWindow_get s fp
    exact ⟨h2, by simp only [exec, Window.exec, h1]⟩

theorem toWindow_run {s : ReplyBlockStore β} (h : s.DequesBounded) (ops : List (Op β)) :
    (s.run ops).toWindow = s.toWindow.run ops ∧ s.gets ops = s.toWindow.gets ops := by
  induction ops generalizing s with
  | nil => exact ⟨rfl, rfl⟩
  | cons op ops ih =>
    obtain ⟨h1, h2⟩ := toWindow_exec h op
    obtain ⟨ih1, ih2⟩ := ih (h.run [op])
    simp only [run, gets, Window.run, Window.gets] at ih1 ih2 ⊢
    rw [← h1, ← h2, ih1, ih2]
    exact ⟨rfl, rfl⟩

/-- **The store refines the window.** From `ReplyBlockStore::new(size)`, along any run of
`insert`, `insert_batch` and `get`, every `get` returns what the window's `get` returns, and the
store holds the window's fingerprints, in its order, with the window's blocks. -/
theorem run_refines_window (size : ℕ+) (ops : List (Op β)) :
    ((new size).run ops).toWindow = (Window.new size).run ops ∧
      (new size).gets ops = (Window.new size).gets ops := by
  rw [← toWindow_new]
  exact toWindow_run (dequesBounded_new size) ops

end ReplyBlockStore

end Earendil
