import Earendil.Basic

/-!
# The LRU map

`lru::LruCache` as the reply-block store uses it: `get_mut`, which moves a present key to the
front, and `put`, which either updates a present key and moves it to the front, or puts a new key
at the front after evicting the tail when the cache is full.

**The state.** An association list with most recently used key first, and the capacity
(`NonZeroUsize`). The list's keys are distinct (`AList`), and the cache never holds more entries
than its capacity: that bound is a field, so every operation proves it once here.

**Key order.** `keys_touch`, `keys_put_of_mem` and `keys_put_of_not_mem` give the order after each
operation; `peek_touch`, `peek_put_self` and `peek_put_ne` say which values can be seen
afterwards. Later modules use only these.
-/

namespace Earendil

/-- `lru::LruCache`, most recently used entry first. -/
structure LruCache (K V : Type) [DecidableEq K] where
  map : AList fun _ : K => V
  cap : ℕ+
  len_le : map.keys.length ≤ cap

namespace LruCache

variable {K V α : Type} [DecidableEq K]

/-- `LruCache::new(cap)`. -/
def new (cap : ℕ+) : LruCache K V := ⟨∅, cap, Nat.zero_le _⟩

/-- The cached keys, most recently used first. -/
def keys (c : LruCache K V) : List K := c.map.keys

/-- `peek(k)`: the value cached for `k`, leaving the order alone. -/
def peek (c : LruCache K V) (k : K) : Option V := c.map.lookup k

theorem keys_nodup (c : LruCache K V) : c.keys.Nodup := c.map.keys_nodup

theorem length_keys_le (c : LruCache K V) : c.keys.length ≤ c.cap := c.len_le

theorem peek_isSome {c : LruCache K V} {k : K} : (c.peek k).isSome ↔ k ∈ c.keys :=
  AList.lookup_isSome.trans AList.mem_keys

theorem peek_eq_none {c : LruCache K V} {k : K} : c.peek k = none ↔ k ∉ c.keys :=
  AList.lookup_eq_none.trans (not_congr AList.mem_keys)

theorem mem_keys_of_peek {c : LruCache K V} {k : K} {v : V} (h : c.peek k = some v) :
    k ∈ c.keys :=
  peek_isSome.1 (by simp [h])

@[simp] theorem keys_new (cap : ℕ+) : (new cap : LruCache K V).keys = [] := rfl

@[simp] theorem peek_new (cap : ℕ+) (k : K) : (new cap : LruCache K V).peek k = none := rfl

@[simp] theorem cap_new (cap : ℕ+) : (new cap : LruCache K V).cap = cap := rfl

/-! ## Moving a key to the front -/

/-- `detach` and `attach` of the node of `k`, holding the value `v`; nothing happens when `k` is
not cached. -/
def touch (c : LruCache K V) (k : K) (v : V) : LruCache K V :=
  if h : k ∈ c.keys then
    { map := c.map.insert k v
      cap := c.cap
      len_le := by
        have := c.len_le
        have := List.length_pos_of_mem h
        unfold keys at h this
        rw [AList.keys_insert, List.length_cons, List.length_erase_of_mem h]
        omega }
  else c

/-- `get_mut(k)`, followed by the caller's update `f` of the value through the returned
reference: `f` gives the caller's result and the new value. -/
def getMut (c : LruCache K V) (k : K) (f : V → α × V) : Option (α × LruCache K V) :=
  (c.peek k).map fun v => ((f v).1, c.touch k (f v).2)

theorem keys_touch {c : LruCache K V} {k : K} (v : V) (h : k ∈ c.keys) :
    (c.touch k v).keys = k :: c.keys.erase k := by
  simp only [touch, h, dite_true]
  exact AList.keys_insert _

@[simp] theorem cap_touch (c : LruCache K V) (k : K) (v : V) : (c.touch k v).cap = c.cap := by
  unfold touch; split <;> rfl

theorem peek_touch {c : LruCache K V} {k : K} (v : V) (h : k ∈ c.keys) (k' : K) :
    (c.touch k v).peek k' = if k' = k then some v else c.peek k' := by
  simp only [touch, h, dite_true, peek]
  split
  · next hk => subst hk; exact AList.lookup_insert _
  · next hk => exact AList.lookup_insert_ne hk

theorem getMut_eq_some {c : LruCache K V} {k : K} {f : V → α × V} {a : α}
    {c' : LruCache K V} :
    c.getMut k f = some (a, c') ↔ ∃ v, c.peek k = some v ∧ (f v).1 = a ∧ c' = c.touch k (f v).2 := by
  simp only [getMut, Option.map_eq_some', Prod.mk.injEq]
  exact exists_congr fun v => and_congr_right fun _ => and_congr_right fun _ => eq_comm

theorem getMut_eq_none {c : LruCache K V} {k : K} {f : V → α × V} :
    c.getMut k f = none ↔ c.peek k = none := by
  simp [getMut]

/-! ## Putting a key -/

/-- The map without its least recently used entry, the tail of the list. -/
def popLru (c : LruCache K V) : AList fun _ : K => V :=
  match c.keys.getLast? with
  | some k => c.map.erase k
  | none => c.map

theorem keys_popLru (c : LruCache K V) : (popLru c).keys = c.keys.dropLast := by
  unfold popLru
  split
  · next k h =>
    obtain ⟨ys, hys⟩ := List.getLast?_eq_some_iff.1 h
    have hk : k ∉ ys := by
      have := c.keys_nodup
      rw [hys, List.nodup_append] at this
      exact fun hk => this.2.2 hk (List.mem_singleton_self k)
    rw [AList.keys_erase, show c.map.keys = c.keys from rfl, hys,
      List.erase_append_right _ hk, List.dropLast_concat]
    simp
  · next h => simp_all [keys]

theorem lookup_popLru {c : LruCache K V} {k : K} {d : V} (h : (popLru c).lookup k = some d) :
    c.peek k = some d := by
  unfold popLru at h
  split at h
  · next k' _ =>
    by_cases hk : k = k'
    · subst hk; simp [AList.lookup_erase] at h
    · rwa [AList.lookup_erase_ne hk] at h
  · exact h

/-- `put(k, v)`: `capturing_put`, with `replace_or_create_node` evicting the tail when the cache
is full and `k` is new. -/
def put (c : LruCache K V) (k : K) (v : V) : LruCache K V :=
  if h : k ∈ c.keys then c.touch k v
  else if hfull : c.keys.length = c.cap then
    { map := (popLru c).insert k v
      cap := c.cap
      len_le := by
        have hk : k ∉ (popLru c).keys := by
          rw [keys_popLru]; exact fun hk => h (List.dropLast_subset _ hk)
        rw [AList.keys_insert, List.erase_of_not_mem hk, keys_popLru]
        simp only [List.length_cons, List.length_dropLast]
        have := c.cap.pos
        omega }
  else
    { map := c.map.insert k v
      cap := c.cap
      len_le := by
        have := c.len_le
        unfold keys at h hfull
        rw [AList.keys_insert, List.erase_of_not_mem h, List.length_cons]
        omega }

@[simp] theorem cap_put (c : LruCache K V) (k : K) (v : V) : (c.put k v).cap = c.cap := by
  unfold put; split
  · simp
  · split <;> rfl

theorem keys_put_of_mem {c : LruCache K V} {k : K} (v : V) (h : k ∈ c.keys) :
    (c.put k v).keys = k :: c.keys.erase k := by
  simp [put, h, keys_touch]

theorem keys_put_of_not_mem {c : LruCache K V} {k : K} (v : V) (h : k ∉ c.keys) :
    (c.put k v).keys =
      k :: if c.keys.length = c.cap then c.keys.dropLast else c.keys := by
  unfold put
  by_cases hfull : c.keys.length = c.cap
  · have hk : k ∉ (popLru c).keys := by
      rw [keys_popLru]; exact fun hk => h (List.dropLast_subset _ hk)
    simp only [h, hfull, dite_false, dite_true, if_true]
    exact (AList.keys_insert _).trans (by rw [List.erase_of_not_mem hk, keys_popLru])
  · simp only [h, hfull, dite_false, if_false]
    exact (AList.keys_insert _).trans (by rw [show c.map.keys = c.keys from rfl,
      List.erase_of_not_mem h])

theorem peek_put_self (c : LruCache K V) (k : K) (v : V) : (c.put k v).peek k = some v := by
  unfold put
  split
  · next h => simp [peek_touch v h]
  · split <;> exact AList.lookup_insert _

theorem peek_put_ne {c : LruCache K V} {k k' : K} {v d : V} (hk : k' ≠ k)
    (h : (c.put k v).peek k' = some d) : c.peek k' = some d := by
  unfold put at h
  split at h
  · next hm => simpa [peek_touch v hm, hk] using h
  · split at h
    · exact lookup_popLru ((AList.lookup_insert_ne hk).symm.trans h)
    · exact (AList.lookup_insert_ne hk).symm.trans h

end LruCache

end Earendil
