import Earendil.Link.Adjacencies

/-!
# Signing an adjacency for a neighbour

`LinkProtocolImpl::sign_adjacency` of `daemon/link_connection.rs` is how a neighbour asks this
node to countersign the edge between them. The request is a descriptor the neighbour has signed
on the left. The node refuses it unless it is ordered (`left < right`), names this node as the
right end, and has a left end in the neighbour table. Otherwise it signs `to_sign()` of the
request with its global identity, puts the signature in `right_sig`, and inserts the result into
the relay graph. A failed insert also answers `None`.

**Collaborators.** The identity's `sign`, `AdjacencyDescriptor::to_sign` and
`RelayGraph::insert_adjacency` belong to crates not under src/; they are the parameters `sign`,
`toSign` and `insertAdjacency`. A failed insert is taken to leave the graph as it was.
`Fingerprint`'s derived order on its 20 bytes is the unsigned order of the 160-bit number.

**Theorem (`signAdjacency_spec`).** `sign_adjacency` answers with a descriptor, or changes the
relay graph, only for an ordered request whose right end is this node and whose left end is a
neighbour. Its answer is then the request with `right_sig` set to this node's signature of
`to_sign()`, and it is exactly the descriptor inserted into the graph. Every other request is
answered with `None`, and the graph is left as it was.
-/

namespace Earendil.Link

variable (myFingerprint : Fingerprint) (isNeighbour : Fingerprint → Bool)
  (sign : List UInt8 → List UInt8) (toSign : AdjacencyDescriptor → List UInt8)
  {G : Type} (insertAdjacency : G → AdjacencyDescriptor → Except String G)

/-- The check of `sign_adjacency`: ordered, this node on the right, a neighbour on the left. -/
def adjacencyValid (d : AdjacencyDescriptor) : Bool :=
  d.left.bytes.ult d.right.bytes && d.right == myFingerprint && isNeighbour d.left

/-- `sign_adjacency(left_incomplete)`, with the relay graph it writes. -/
def signAdjacency (g : G) (leftIncomplete : AdjacencyDescriptor) : Option AdjacencyDescriptor × G :=
  if !adjacencyValid myFingerprint isNeighbour leftIncomplete then (none, g)
  else
    let signed := { leftIncomplete with right_sig := sign (toSign leftIncomplete) }
    match insertAdjacency g signed with
    | .ok g' => (some signed, g')
    | .error _ => (none, g)

/-- **What `sign_adjacency` signs.** It answers with a descriptor only for an ordered request
naming this node on the right and a neighbour on the left; the answer is the request with this
node's signature of `to_sign()` in `right_sig`, and it is what was inserted into the relay graph.
Otherwise it answers `None` and leaves the graph alone. -/
theorem signAdjacency_spec (g : G) (d : AdjacencyDescriptor) :
    (∀ d', (signAdjacency myFingerprint isNeighbour sign toSign insertAdjacency g d).1 = some d' →
      d.left.bytes.ult d.right.bytes ∧ d.right = myFingerprint ∧ isNeighbour d.left ∧
        d' = { d with right_sig := sign (toSign d) } ∧
        insertAdjacency g d' =
          .ok (signAdjacency myFingerprint isNeighbour sign toSign insertAdjacency g d).2) ∧
      ((signAdjacency myFingerprint isNeighbour sign toSign insertAdjacency g d).1 = none →
        (signAdjacency myFingerprint isNeighbour sign toSign insertAdjacency g d).2 = g) := by
  unfold signAdjacency
  by_cases hv : adjacencyValid myFingerprint isNeighbour d
  · have ⟨⟨hlt, hr⟩, hn⟩ : (d.left.bytes.ult d.right.bytes ∧ d.right = myFingerprint) ∧
        isNeighbour d.left := by simpa [adjacencyValid] using hv
    simp only [hv, Bool.not_true, Bool.false_eq_true, if_false]
    split
    · next g' hins => exact ⟨fun d' h => by cases h; exact ⟨hlt, hr, hn, rfl, hins⟩, nofun⟩
    · exact ⟨nofun, fun _ => rfl⟩
  · simp [hv]

end Earendil.Link
