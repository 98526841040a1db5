import Earendil.ReplyBlockStore.Basic
import Mathlib.Data.List.Dedup

/-!
# Which fingerprints the store holds

**Accesses.** Each inserted block accesses its fingerprint, and a `get(F)` accesses `F` when `F`
holds a deque (both go through `get_mut`, which promotes the key). A `get` of a fingerprint that
holds nothing touches nothing.

**Theorem (`keys_eq_most_recent`).** From `ReplyBlockStore::new(size)`, after any run, the store
holds exactly the `size` most recently accessed distinct fingerprints, most recent first; there are
`min(size, m)` of them, `m` being the number of distinct fingerprints ever inserted. A fingerprint
leaves the store only when `insert` brings a new fingerprint into a full store, and then it is
the least recently used one.

The proof keeps the invariant `HoldsRecent`: the keys of the LRU map are the first `cap` entries
of `recency log`, the access history with each fingerprint moved to the front as it is accessed.
Promoting a held key is `erase` then cons on both sides (`take_erase_of_mem`); putting a new key
into a full map drops the tail, which is where the history's entry `cap + 1` would start
(`take_erase_of_not_mem`).
-/

namespace Earendil.ReplyBlockStore

variable {β : Type}

/-- The fingerprints a call accesses, in order. -/
def Op.accessed (s : ReplyBlockStore β) : Op β → List Fingerprint
  | .insert fp _ => [fp]
  | .insertBatch fp items => items.map fun _ => fp
  | .get fp => if fp ∈ s.items.keys then [fp] else []

/-- The accesses of a run, in order. -/
def accesses (s : ReplyBlockStore β) : List (Op β) → List Fingerprint
  | [] => []
  | op :: ops => op.accessed s ++ accesses (s.exec op).1 ops

/-- The distinct fingerprints of an access history, most recently accessed first. -/
def recency (log : List Fingerprint) : List Fingerprint :=
  log.foldl (fun r fp => fp :: r.erase fp) []

/-! ## The recency list -/

theorem recency_append (log : List Fingerprint) (fp : Fingerprint) :
    recency (log ++ [fp]) = fp :: (recency log).erase fp := by
  simp [recency, List.foldl_append]

theorem recency_nodup (log : List Fingerprint) : (recency log).Nodup := by
  induction log using List.reverseRecOn with
  | nil => exact List.nodup_nil
  | append_singleton log fp ih =>
    rw [recency_append]
    exact List.nodup_cons.2 ⟨ih.not_mem_erase, ih.erase fp⟩

theorem mem_recency {log : List Fingerprint} {fp : Fingerprint} :
    fp ∈ recency log ↔ fp ∈ log := by
  induction log using List.reverseRecOn with
  | nil => simp [recency]
  | append_singleton log fp' ih =>
    rw [recency_append, List.mem_cons, (recency_nodup log).mem_erase_iff, ih]
    by_cases h : fp = fp' <;> simp [h]

theorem take_erase_of_mem (R : List Fingerprint) (fp : Fingerprint) (n : Nat)
    (h : fp ∈ R.take n) : (R.take n).erase fp = (R.erase fp).take (n - 1) := by
  induction R generalizing n with
  | nil => simp at h
  | cons x R ih =>
    cases n with
    | zero => simp at h
    | succ n =>
      by_cases hx : x = fp
      · subst hx; simp
      · have hn : fp ∈ R.take n := by simpa [hx, Ne.symm hx] using h
        have : n ≠ 0 := by rintro rfl; simp at hn
        obtain ⟨k, rfl⟩ := Nat.exists_eq_succ_of_ne_zero this
        simp [List.erase_cons_tail (by simpa using hx : ¬(x == fp)), ih _ hn]

theorem take_erase_of_not_mem (R : List Fingerprint) (fp : Fingerprint) (n : Nat)
    (h : fp ∉ R.take n) : (R.erase fp).take n = R.take n := by
  induction R generalizing n with
  | nil => simp
  | cons x R ih =>
    cases n with
    | zero => simp
    | succ n =>
      have hx : x ≠ fp := by rintro rfl; simp at h
      simp only [List.take_succ_cons, List.mem_cons, not_or] at h
      simp [List.erase_cons_tail (by simpa using hx : ¬(x == fp)), ih _ h.2]

/-! ## The invariant -/

/-- The store holds the first `cap` fingerprints of the recency list of `log`, in that order. -/
def HoldsRecent (s : ReplyBlockStore β) (log : List Fingerprint) : Prop :=
  s.items.keys = (recency log).take s.items.cap

/-- Promoting a fingerprint the store already holds. -/
theorem holdsRecent_promote {keys : List Fingerprint} {log : List Fingerprint} {n : ℕ+}
    {fp : Fingerprint} (h : keys = (recency log).take n) (hm : fp ∈ keys) :
    fp :: keys.erase fp = (recency (log ++ [fp])).take n := by
  obtain ⟨k, hk⟩ : ∃ k, (n : ℕ) = k + 1 := ⟨n - 1, by have := n.pos; omega⟩
  rw [recency_append, hk, List.take_succ_cons, h, take_erase_of_mem _ _ _ (h ▸ hm), hk]
  rfl

theorem HoldsRecent.insert {s : ReplyBlockStore β} {log : List Fingerprint} (h : s.HoldsRecent log)
    (fp : Fingerprint) (rb : β) : (s.insert fp rb).HoldsRecent (log ++ [fp]) := by
  unfold HoldsRecent at h ⊢
  rw [keys_insert, cap_insert]
  split
  · next hm => exact holdsRecent_promote h hm
  · next hm =>
    obtain ⟨k, hk⟩ : ∃ k, (s.items.cap : ℕ) = k + 1 := ⟨s.items.cap - 1, by
      have := s.items.cap.pos; omega⟩
    have hR : ((recency log).erase fp).take k = (recency log).take k :=
      take_erase_of_not_mem _ _ _ fun hmem =>
        hm (h ▸ List.take_subset_take_left _ (hk ▸ Nat.le_succ k) hmem)
    rw [recency_append, hk, List.take_succ_cons, hR]
    split
    · next hfull =>
      rw [List.dropLast_eq_take, hfull, h, hk, List.take_take, Nat.add_sub_cancel,
        Nat.min_eq_left (Nat.le_succ k)]
    · next hfull =>
      have := s.items.length_keys_le
      rw [h, hk] at hfull ⊢
      simp only [List.length_take] at hfull
      rw [List.take_of_length_le (by omega), List.take_of_length_le (by omega)]

theorem HoldsRecent.insertBatch {s : ReplyBlockStore β} {log : List Fingerprint}
    (h : s.HoldsRecent log) (fp : Fingerprint) (items : List β) :
    (s.insertBatch fp items).HoldsRecent (log ++ items.map fun _ => fp) := by
  induction items generalizing s log with
  | nil => simpa using h
  | cons x xs ih => simpa using ih (h.insert fp x)

theorem HoldsRecent.get {s : ReplyBlockStore β} {log : List Fingerprint} (h : s.HoldsRecent log)
    (fp : Fingerprint) :
    (s.get fp).2.HoldsRecent (log ++ if fp ∈ s.items.keys then [fp] else []) := by
  unfold HoldsRecent at h ⊢
  rw [keys_get, cap_get]
  split
  · next hm => exact holdsRecent_promote h hm
  · simpa using h

theorem HoldsRecent.run {s : ReplyBlockStore β} {log : List Fingerprint} (h : s.HoldsRecent log)
    (ops : List (Op β)) : (s.run ops).HoldsRecent (log ++ s.accesses ops) := by
  induction ops generalizing s log with
  | nil => simpa [run, accesses] using h
  | cons op ops ih =>
    rw [accesses, ← List.append_assoc]
    apply ih
    cases op with
    | insert fp rb => exact h.insert fp rb
    | insertBatch fp items => exact h.insertBatch fp items
    | get fp => exact h.get fp

/-! ## Leaving the store -/

/-- **Eviction.** A fingerprint leaves the store on `insert` only when the inserted fingerprint
is new, the store is full, and the one leaving is the least recently used. -/
theorem evicted_of_insert {s : ReplyBlockStore β} {fp F : Fingerprint} {rb : β}
    (hF : F ∈ s.items.keys) (hF' : F ∉ (s.insert fp rb).items.keys) :
    fp ∉ s.items.keys ∧ s.items.keys.length = s.items.cap ∧ s.items.keys.getLast? = some F := by
  rw [keys_insert, List.mem_cons, not_or] at hF'
  obtain ⟨hne, hF'⟩ := hF'
  split at hF'
  · exact absurd ((List.mem_erase_of_ne hne).2 hF) hF'
  · next hm =>
    split at hF'
    · next hfull =>
      refine ⟨hm, hfull, ?_⟩
      have hnil : s.items.keys ≠ [] := List.ne_nil_of_mem hF
      rw [← List.dropLast_append_getLast hnil, List.mem_append, List.mem_singleton] at hF
      rw [List.getLast?_eq_getLast _ hnil, hF.resolve_left hF']
    · exact absurd hF hF'

theorem mem_keys_get {s : ReplyBlockStore β} {F : Fingerprint} (hF : F ∈ s.items.keys)
    (fp : Fingerprint) : F ∈ (s.get fp).2.items.keys := by
  rw [keys_get]
  split
  · by_cases h : F = fp
    · exact h ▸ List.mem_cons_self _ _
    · exact List.mem_cons_of_mem _ ((List.mem_erase_of_ne h).2 hF)
  · exact hF

/-! ## Accessed fingerprints are the inserted ones -/

theorem mem_keys_insert {s : ReplyBlockStore β} {fp F : Fingerprint} {rb : β}
    (h : F ∈ (s.insert fp rb).items.keys) : F = fp ∨ F ∈ s.items.keys := by
  rw [keys_insert, List.mem_cons] at h
  refine h.imp_right fun h => ?_
  split at h
  · exact List.mem_of_mem_erase h
  · split at h
    · exact List.dropLast_subset _ h
    · exact h

theorem mem_keys_insertBatch {s : ReplyBlockStore β} {fp F : Fingerprint} {items : List β}
    (h : F ∈ (s.insertBatch fp items).items.keys) :
    F ∈ items.map (fun _ => fp) ∨ F ∈ s.items.keys := by
  induction items generalizing s with
  | nil => exact .inr h
  | cons x xs ih =>
    rcases ih h with h | h
    · exact .inl (List.mem_cons_of_mem _ h)
    · exact (mem_keys_insert h).imp (fun h => by simp [h]) id

theorem map_fst_inserted (op : Op β) :
    op.inserted.map Prod.fst =
      match op with
      | .insert fp _ => [fp]
      | .insertBatch fp items => items.map fun _ => fp
      | .get _ => [] := by
  cases op <;> simp [Op.inserted, Function.comp_def]

theorem keys_exec_subset (s : ReplyBlockStore β) (op : Op β) {fp : Fingerprint}
    (h : fp ∈ (s.exec op).1.items.keys) :
    fp ∈ s.items.keys ∨ fp ∈ op.inserted.map Prod.fst := by
  rw [map_fst_inserted]
  cases op with
  | insert fp' rb => exact (mem_keys_insert h).symm.imp_right List.mem_singleton.2
  | insertBatch fp' items => exact (mem_keys_insertBatch h).symm
  | get fp' =>
    have := keys_get s fp' ▸ h
    split at this
    · exact .inl (by rcases List.mem_cons.1 this with rfl | h; · assumption
                     exact List.mem_of_mem_erase h)
    · exact .inl this

theorem accessed_subset (s : ReplyBlockStore β) (op : Op β) {fp : Fingerprint}
    (h : fp ∈ op.accessed s) : fp ∈ s.items.keys ∨ fp ∈ op.inserted.map Prod.fst := by
  rw [map_fst_inserted]
  cases op with
  | get fp' =>
    simp only [Op.accessed] at h
    split at h
    · exact .inl (List.mem_singleton.1 h ▸ ‹_›)
    · simp at h
  | _ => exact .inr h

theorem accesses_subset (s : ReplyBlockStore β) (ops : List (Op β)) {fp : Fingerprint}
    (h : fp ∈ s.accesses ops) :
    fp ∈ s.items.keys ∨ fp ∈ (ops.flatMap Op.inserted).map Prod.fst := by
  induction ops generalizing s with
  | nil => simp [accesses] at h
  | cons op ops ih =>
    simp only [accesses, List.mem_append] at h
    simp only [List.flatMap_cons, List.map_append, List.mem_append]
    rcases h with h | h
    · exact (accessed_subset s op h).imp_right .inl
    · rcases ih _ h with h | h
      · exact (keys_exec_subset s op h).imp_right .inl
      · exact .inr (.inr h)

theorem inserted_subset_accesses (s : ReplyBlockStore β) (ops : List (Op β)) {fp : Fingerprint}
    (h : fp ∈ (ops.flatMap Op.inserted).map Prod.fst) : fp ∈ s.accesses ops := by
  induction ops generalizing s with
  | nil => simp at h
  | cons op ops ih =>
    simp only [List.flatMap_cons, List.map_append, List.mem_append] at h
    simp only [accesses, List.mem_append]
    refine h.imp (fun h => ?_) (ih _)
    rw [map_fst_inserted] at h
    cases op <;> first | exact h | simp at h

/-! ## The fingerprints held after any run -/

/-- **The store holds the most recently accessed fingerprints.** From
`ReplyBlockStore::new(size)`, after any run: the store's fingerprints are the first `size` of
the recency list of the run's accesses, in order; that list has one entry per distinct
fingerprint ever inserted, so the store holds `min(size, m)` of them. A fingerprint leaves only
when `insert` brings a new one into a full store, and it is then the least recently used one;
`get` never drops a fingerprint. -/
theorem keys_eq_most_recent (size : ℕ+) (ops : List (Op β)) :
    ((new size).run ops).items.keys = (recency ((new size).accesses ops)).take size ∧
      (recency ((new size).accesses ops)).length =
        ((ops.flatMap Op.inserted).map Prod.fst).dedup.length ∧
      (∀ (s : ReplyBlockStore β) fp rb F, F ∈ s.items.keys → F ∉ (s.insert fp rb).items.keys →
        fp ∉ s.items.keys ∧ s.items.keys.length = s.items.cap ∧
          s.items.keys.getLast? = some F) ∧
      (∀ (s : ReplyBlockStore β) fp F, F ∈ s.items.keys → F ∈ (s.get fp).2.items.keys) := by
  refine ⟨?_, ?_, fun _ _ _ _ => evicted_of_insert, fun _ fp _ h => mem_keys_get h fp⟩
  · have := (show (new size : ReplyBlockStore β).HoldsRecent [] by simp [HoldsRecent, recency,
      new]).run ops
    simpa [HoldsRecent, new] using this
  · refine ((List.perm_ext_iff_of_nodup (recency_nodup _) (List.nodup_dedup _)).2
      fun fp => ?_).length_eq
    rw [mem_recency, List.mem_dedup]
    exact ⟨fun h => (accesses_subset _ ops h).resolve_left (by simp [new]),
      inserted_subset_accesses _ ops⟩

end Earendil.ReplyBlockStore
