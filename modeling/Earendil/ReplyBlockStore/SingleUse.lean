import Earendil.ReplyBlockStore.Basic

/-!
# Reply blocks are handed out at most once

A reply block routes exactly one packet back, so the store must never hand a block out twice,
nor under a fingerprint it was not inserted under.

**Theorem (`get_single_use`).** From `ReplyBlockStore::new(size)`, along any run, the number of
times `get(F)` has returned `b` is at most the number of times `b` was inserted under `F`.

The proof counts copies of `b` in the deque of `F`. A call never lets the deque of `F` gain a
block other than one it inserts under `F`: the head-drop at the deque bound and an LRU eviction
only remove blocks (`blocks_insert_sublist`), and a `get` moves the newest block of `F` from the
deque to its result (`blocks_get`). So the copies held plus the copies returned never exceed the
copies inserted.
-/

namespace Earendil.ReplyBlockStore

variable {β : Type}

/-! ## What one call does to one fingerprint's blocks -/

theorem blocks_insert_sublist (s : ReplyBlockStore β) (fp F : Fingerprint) (rb : β) :
    List.Sublist ((s.insert fp rb).blocks F) (s.blocks F ++ if F = fp then [rb] else []) := by
  unfold blocks
  cases hd' : (s.insert fp rb).deque? F with
  | none => exact List.nil_sublist _
  | some d' =>
    rcases deque?_insert hd' with ⟨rfl, d, rfl, hd | rfl⟩ | ⟨hne, hd⟩
    · simpa [hd] using d.deque_insert_sublist rb
    · simp [ReplyBlockDeque.new, ReplyBlockDeque.insert]
    · simp [hd, hne]

theorem blocks_insertBatch_sublist (s : ReplyBlockStore β) (fp F : Fingerprint)
    (items : List β) :
    List.Sublist ((s.insertBatch fp items).blocks F) (s.blocks F ++ if F = fp then items else []) := by
  induction items generalizing s with
  | nil => simp
  | cons x xs ih =>
    refine (ih _).trans ?_
    have := (blocks_insert_sublist s fp F x).append_right (if F = fp then xs else [])
    split <;> simp_all

theorem blocks_get (s : ReplyBlockStore β) (fp F : Fingerprint) :
    (s.get fp).2.blocks F = if F = fp then (s.blocks fp).dropLast else s.blocks F := by
  unfold blocks
  rw [deque?_get]
  split
  · cases s.deque? fp <;> rfl
  · rfl

theorem get_fst (s : ReplyBlockStore β) (fp : Fingerprint) :
    (s.get fp).1 = (s.blocks fp).getLast? := by
  cases hd : s.deque? fp with
  | none => simp [get_of_not_mem hd, blocks, hd]
  | some d => simp [get_of_mem hd, blocks, hd, ReplyBlockDeque.pop]

/-! ## Counting -/

variable [DecidableEq β]

theorem count_eq_dropLast_add (l : List β) (b : β) :
    l.count b = l.dropLast.count b + l.getLast?.toList.count b := by
  cases h : l.getLast? with
  | none => simp_all
  | some x => obtain ⟨ys, rfl⟩ := List.getLast?_eq_some_iff.1 h; simp

theorem count_inserted (op : Op β) (F : Fingerprint) (b : β) :
    op.inserted.count (F, b) =
      match op with
      | .insert fp rb => if F = fp then [rb].count b else 0
      | .insertBatch fp items => if F = fp then items.count b else 0
      | .get _ => 0 := by
  cases op with
  | insert fp rb =>
    by_cases h : F = fp
    · subst h; simp [Op.inserted, List.count_singleton]
    · simp [Op.inserted, h, List.count_singleton, Ne.symm h]
  | insertBatch fp items =>
    by_cases h : F = fp
    · subst h
      simp only [Op.inserted, if_true]
      induction items <;> simp_all [List.count_cons]
    · simp only [Op.inserted, h, if_false]
      exact List.count_eq_zero_of_not_mem (by simp [Ne.symm h])
  | get fp => rfl

/-- A call that only inserts `items` under `fp` adds no other copy of `b` to the deque of `F`. -/
theorem count_le_of_sublist_added {s s' : ReplyBlockStore β} {fp F : Fingerprint} {items : List β}
    (h : List.Sublist (s'.blocks F) (s.blocks F ++ if F = fp then items else [])) (b : β) :
    (s'.blocks F).count b ≤ (if F = fp then items.count b else 0) + (s.blocks F).count b := by
  have := h.count_le b
  by_cases hF : F = fp <;>
    simp only [hF, if_true, if_false, List.count_append, List.count_nil] at this ⊢ <;> omega

/-- **One call.** The copies of `b` that a call returns for `F`, plus those left in the deque
of `F`, are at most the copies it inserts under `F` plus those the deque held before. -/
theorem count_exec_le (s : ReplyBlockStore β) (op : Op β) (F : Fingerprint) (b : β) :
    (s.exec op).2.count (F, some b) + ((s.exec op).1.blocks F).count b ≤
      op.inserted.count (F, b) + (s.blocks F).count b := by
  rw [count_inserted]
  cases op with
  | insert fp rb => simpa [exec] using count_le_of_sublist_added (blocks_insert_sublist s fp F rb) b
  | insertBatch fp items =>
    simpa [exec] using count_le_of_sublist_added (blocks_insertBatch_sublist s fp F items) b
  | get fp =>
    simp only [exec, blocks_get, get_fst]
    by_cases h : F = fp
    · subst h
      have hs := count_eq_dropLast_add (s.blocks F) b
      cases hl : (s.blocks F).getLast? with
      | none => simp_all
      | some x =>
        by_cases hx : x = b
        · subst hx; simp_all; omega
        · simp_all [List.count_singleton, Ne.symm hx]
    · simp [h]

theorem count_gets_le (s : ReplyBlockStore β) (ops : List (Op β)) (F : Fingerprint) (b : β) :
    (s.gets ops).count (F, some b) + ((s.run ops).blocks F).count b ≤
      (ops.flatMap Op.inserted).count (F, b) + (s.blocks F).count b := by
  induction ops generalizing s with
  | nil => simp [gets, run]
  | cons op ops ih =>
    have h1 := count_exec_le s op F b
    have h2 := ih (s.exec op).1
    simp only [gets, run, List.flatMap_cons, List.count_append] at h2 ⊢
    omega

/-- **Reply blocks are used once.** From `ReplyBlockStore::new(size)`, along any run of
`insert`, `insert_batch` and `get`, every block `get(F)` returns was inserted under `F`, and
`get(F)` returns `b` at most as often as `b` was inserted under `F`. -/
theorem get_single_use (size : ℕ+) (ops : List (Op β)) (F : Fingerprint) (b : β) :
    ((new size).gets ops).count (F, some b) ≤ (ops.flatMap Op.inserted).count (F, b) ∧
      ((F, some b) ∈ (new size).gets ops → (F, b) ∈ ops.flatMap Op.inserted) := by
  have h := count_gets_le (new size) ops F b
  simp only [blocks_new, List.count_nil, Nat.add_zero] at h
  refine ⟨by omega, fun hm => List.count_pos_iff.1 ?_⟩
  have := List.count_pos_iff.2 hm
  omega

end Earendil.ReplyBlockStore
