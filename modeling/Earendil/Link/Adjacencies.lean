import Earendil.Basic
import Mathlib.Data.List.Destutter

/-!
# Adjacency queries over a link

`LinkProtocolImpl::adjacencies` of `daemon/link_connection.rs`: for each requested fingerprint,
the adjacencies the relay graph has for it whose two ends are relays, concatenated, then passed
through `Itertools::dedup`.

The relay graph (`earendil_topology`) is not under src/; `adjacencies` uses only its two
queries, so a graph here is any pair of query functions.

**Theorem (`mem_adjacencies`).** The result holds exactly the relay-to-relay descriptors of the
requested fingerprints.

**Failing input (`adjacencies_duplicate`).** `Itertools::dedup` drops only an element equal to the
one just before it, so the result is not duplicate-free: with relays `A < B < C` and edges
`A–B`, `A–C`, the request `[A, A]` returns both edges twice, in whichever order the graph lists
them at `A`.
-/

namespace Earendil.Link

/-- `AdjacencyDescriptor`: an edge `left < right` with both signatures and its timestamp. -/
structure AdjacencyDescriptor where
  left : Fingerprint
  right : Fingerprint
  left_sig : List UInt8
  right_sig : List UInt8
  unix_timestamp : UInt64
  deriving DecidableEq, Repr

/-- `IdentityDescriptor`, with the one field `adjacencies` reads. -/
structure IdentityDescriptor where
  is_relay : Bool
  deriving DecidableEq, Repr

/-- The queries of `RelayGraph` that `adjacencies` makes. -/
structure RelayGraph where
  identity : Fingerprint → Option IdentityDescriptor
  adjacencies : Fingerprint → Option (List AdjacencyDescriptor)

/-- `Itertools::dedup`: drop every element equal to the one just before it. -/
def dedup {α : Type} [DecidableEq α] (l : List α) : List α := l.destutter (· ≠ ·)

/-- `rg.identity(&fp).map_or(false, |id| id.is_relay)`. -/
def RelayGraph.isRelay (rg : RelayGraph) (fp : Fingerprint) : Bool :=
  (rg.identity fp).any (·.is_relay)

/-- `LinkProtocolImpl::adjacencies(fps)`. -/
def adjacencies (rg : RelayGraph) (fps : List Fingerprint) : List AdjacencyDescriptor :=
  dedup (fps.flatMap fun fp =>
    ((rg.adjacencies fp).getD []).filter fun adj => rg.isRelay adj.left && rg.isRelay adj.right)

theorem mem_destutter'_ne {α : Type} [DecidableEq α] (x a : α) (l : List α) :
    x ∈ l.destutter' (· ≠ ·) a ↔ x = a ∨ x ∈ l := by
  induction l generalizing a with
  | nil => simp [List.destutter'_nil]
  | cons b l ih =>
    by_cases h : a = b
    · subst h; rw [List.destutter'_cons_neg _ (by simp), ih]; simp
    · rw [List.destutter'_cons_pos _ h, List.mem_cons, ih]; simp

theorem mem_dedup {α : Type} [DecidableEq α] {x : α} {l : List α} : x ∈ dedup l ↔ x ∈ l := by
  cases l with
  | nil => simp [dedup]
  | cons a l => simp [dedup, List.destutter_cons', mem_destutter'_ne]

/-- **The set of adjacencies returned.** A descriptor is in the result exactly when the graph
lists it for a requested fingerprint and both of its ends are relays. -/
theorem mem_adjacencies (rg : RelayGraph) (fps : List Fingerprint) (adj : AdjacencyDescriptor) :
    adj ∈ adjacencies rg fps ↔ ∃ fp ∈ fps, adj ∈ (rg.adjacencies fp).getD [] ∧
      rg.isRelay adj.left = true ∧ rg.isRelay adj.right = true := by
  simp [adjacencies, mem_dedup]

/-- Relays `A`, `B`, `C` with edges `A–B` and `A–C`, each listed at both of its ends, and at `A`
in either order: the request `[A, A]` gets `A`'s two edges twice, and no two copies are next to
each other. -/
theorem adjacencies_duplicate :
    let A : Fingerprint := ⟨1⟩
    let ab : AdjacencyDescriptor := ⟨A, ⟨2⟩, [], [], 0⟩
    let ac : AdjacencyDescriptor := ⟨A, ⟨3⟩, [], [], 0⟩
    ∀ l ∈ [[ab, ac], [ac, ab]],
      let rg : RelayGraph := ⟨fun _ => some ⟨true⟩,
        fun fp => some (l.filter fun e => e.left = fp ∨ e.right = fp)⟩
      adjacencies rg [A, A] = l ++ l ∧ ¬ (adjacencies rg [A, A]).Nodup := by
  decide

end Earendil.Link
