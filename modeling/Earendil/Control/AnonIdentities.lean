import Mathlib.Data.List.AList

/-!
# Anonymous identities

`AnonIdentities` of `daemon/control_protocol_impl.rs` caches, in a `moka` cache, the identity a
control client asks for by label: `get(id)` hashes the label with BLAKE3 and reads the hash as an
`IdentitySecret`, through `get_with_by_ref`, which returns a cached identity when there is one and
otherwise caches the one it derives. `bind_n2r` and `bind_haven` bind the identity `get` gives for
their `anon_id`, or the daemon's global identity when there is none. Calls go through a `Mutex`,
so they happen one after another.

The hash and `IdentitySecret::from_bytes` come from crates not under src/; they are the
parameters `blake3` and `fromBytes`. The cache's bound (100 000 entries) and idle time (an hour)
decide only which entries it drops: here an entry may be dropped at any point.

**Theorem (`get_eq_derive`).** After any history of `get` calls and drops, `get(label)` returns
`IdentitySecret::from_bytes(blake3(label))`; so `bind_n2r` and `bind_haven` bind an identity that
depends on `anon_id` alone, whatever the cache holds. The proof is the cache invariant that each
entry is the derivation of its label.
-/

namespace Earendil.Control

variable {σ : Type} (blake3 : List UInt8 → List UInt8) (fromBytes : List UInt8 → σ)

/-- The derivation the cache stands in for: `IdentitySecret::from_bytes(blake3(label))`. -/
def derive (label : String) : σ := fromBytes (blake3 label.toUTF8.toList)

/-- `AnonIdentities`: the cached identity of each label. -/
structure AnonIdentities (σ : Type) where
  map : AList fun _ : String => σ

namespace AnonIdentities

/-- `AnonIdentities::new()`: an empty cache. -/
def new : AnonIdentities σ := ⟨∅⟩

/-- `get(id)`: `get_with_by_ref(id, || IdentitySecret::from_bytes(pseudo_secret))`. -/
def get (a : AnonIdentities σ) (id : String) : σ × AnonIdentities σ :=
  let pseudoSecret := blake3 id.toUTF8.toList
  match a.map.lookup id with
  | some isk => (isk, a)
  | none => (fromBytes pseudoSecret, ⟨a.map.insert id (fromBytes pseudoSecret)⟩)

/-- The cache drops the entry of `id`: its size bound or its idle time. -/
def evict (a : AnonIdentities σ) (id : String) : AnonIdentities σ := ⟨a.map.erase id⟩

/-- What happens to the cache. -/
inductive Event
  | get (id : String)
  | evict (id : String)

/-- The cache after a history of events. -/
def run (a : AnonIdentities σ) : List Event → AnonIdentities σ
  | [] => a
  | .get id :: evs => run (a.get blake3 fromBytes id).2 evs
  | .evict id :: evs => run (a.evict id) evs

/-- The identity `bind_n2r` and `bind_haven` bind:
`anon_id.map(|id| anon_identities.lock().get(&id)).unwrap_or_else(|| global identity)`. -/
def bindIdentity (globalIdentity : σ) (a : AnonIdentities σ) :
    Option String → σ × AnonIdentities σ
  | some id => a.get blake3 fromBytes id
  | none => (globalIdentity, a)

/-! ## Every entry is a derivation -/

/-- Every cached identity is the derivation of its label. -/
def Derived (a : AnonIdentities σ) : Prop :=
  ∀ id isk, a.map.lookup id = some isk → isk = derive blake3 fromBytes id

variable {blake3 fromBytes}

theorem derived_new : (new : AnonIdentities σ).Derived blake3 fromBytes := fun _ _ h => by
  simp [new] at h

/-- **The cached answer is the derivation.** -/
theorem Derived.get_fst {a : AnonIdentities σ} (h : a.Derived blake3 fromBytes) (id : String) :
    (a.get blake3 fromBytes id).1 = derive blake3 fromBytes id := by
  unfold get
  split
  · next isk hl => exact h id isk hl
  · rfl

theorem Derived.get {a : AnonIdentities σ} (h : a.Derived blake3 fromBytes) (id : String) :
    (a.get blake3 fromBytes id).2.Derived blake3 fromBytes := by
  unfold AnonIdentities.get
  split
  · exact h
  · intro id' isk hl
    by_cases he : id' = id
    · subst he
      simpa [derive, AList.lookup_insert, eq_comm] using hl
    · exact h id' isk (by simpa [AList.lookup_insert_ne he] using hl)

theorem Derived.evict {a : AnonIdentities σ} (h : a.Derived blake3 fromBytes) (id : String) :
    (a.evict id).Derived blake3 fromBytes := fun id' isk hl => by
  by_cases he : id' = id
  · subst he
    simp [AnonIdentities.evict, AList.lookup_erase] at hl
  · exact h id' isk (by simpa [AnonIdentities.evict, AList.lookup_erase_ne he] using hl)

theorem Derived.run {a : AnonIdentities σ} (h : a.Derived blake3 fromBytes) :
    ∀ evs, (a.run blake3 fromBytes evs).Derived blake3 fromBytes
  | [] => h
  | .get id :: evs => (h.get id).run evs
  | .evict id :: evs => (h.evict id).run evs

/-- **Caching changes nothing.** After any history of `get` calls and drops from
`AnonIdentities::new()`, `get(label)` returns `IdentitySecret::from_bytes(blake3(label))`, and the
identity `bind_n2r` and `bind_haven` bind for `anon_id` is that derivation, or the global identity
when there is no `anon_id`: it does not depend on the cache. -/
theorem get_eq_derive (evs : List Event) (globalIdentity : σ) :
    (∀ label, (((new : AnonIdentities σ).run blake3 fromBytes evs).get blake3 fromBytes label).1 =
      derive blake3 fromBytes label) ∧
    ∀ anon_id, (((new : AnonIdentities σ).run blake3 fromBytes evs).bindIdentity blake3 fromBytes
      globalIdentity anon_id).1 = (anon_id.map (derive blake3 fromBytes)).getD globalIdentity := by
  have h : ((new : AnonIdentities σ).run blake3 fromBytes evs).Derived blake3 fromBytes :=
    derived_new.run evs
  refine ⟨h.get_fst, fun anon_id => ?_⟩
  cases anon_id with
  | none => rfl
  | some id => exact h.get_fst id

end AnonIdentities

end Earendil.Control
