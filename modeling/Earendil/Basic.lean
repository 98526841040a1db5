import Mathlib.Data.List.AList
import Mathlib.Data.List.Perm.Subperm
import Mathlib.Data.PNat.Defs

/-!
# Identities, docks and endpoints

The identifiers every component of the daemon is keyed by. A fingerprint is the 20-byte hash of
an identity public key (`earendil_crypt::Fingerprint`); a dock is the 32-bit port-like
demultiplexor of an identity; an endpoint pairs the two.

The list lemmas at the end are the bookkeeping the state machines share: updating one entry of a
list of calls, threads or pumps changes a count over the list by what that entry changes.
-/

namespace Earendil

/-- A 20-byte identity fingerprint. -/
structure Fingerprint where
  bytes : BitVec 160
  deriving DecidableEq, Repr

/-- A dock, `u32`. -/
abbrev Dock := UInt32

/-- `Endpoint::new(fingerprint, dock)`. -/
structure Endpoint where
  fingerprint : Fingerprint
  dock : Dock
  deriving DecidableEq, Repr

/-- Byte strings: datagrams, packets and handshakes. -/
abbrev Bytes := List UInt8

/-! ## Updating one entry of a list -/

theorem countP_modify {α : Type} (p : α → Bool) (f : α → α) :
    ∀ (l : List α) (i : Nat) (t : α), l[i]? = some t →
      (l.modify f i).countP p + (if p t then 1 else 0) = l.countP p + (if p (f t) then 1 else 0)
  | [], _, _, h => by simp at h
  | a :: l, 0, t, h => by
    simp only [List.getElem?_cons_zero, Option.some.injEq] at h
    subst h
    simp only [List.modify_zero_cons, List.countP_cons]
    omega
  | a :: l, i + 1, t, h => by
    have := countP_modify p f l i t (by simpa using h)
    simp only [List.modify_succ_cons, List.countP_cons]
    omega

theorem filterMap_modify_perm {α β : Type} (g : α → Option β) (f : α → α) :
    ∀ (l : List α) (i : Nat) (t : α), l[i]? = some t →
      List.Perm ((l.modify f i).filterMap g ++ (g t).toList) (l.filterMap g ++ (g (f t)).toList)
  | [], _, _, h => by simp at h
  | a :: l, 0, t, h => by
    simp only [List.getElem?_cons_zero, Option.some.injEq] at h
    subst h
    simp only [List.modify_zero_cons, List.filterMap_cons]
    cases g a <;> cases g (f a) <;> simp only [Option.toList_some, Option.toList_none,
      List.append_nil, List.cons_append, List.Perm.refl]
    · exact (List.perm_append_singleton _ _).symm
    · exact List.perm_append_singleton _ _
    · exact ((List.perm_append_singleton _ _).cons _).trans
        ((List.Perm.swap _ _ _).trans ((List.perm_append_singleton _ _).symm.cons _))
  | a :: l, i + 1, t, h => by
    have := filterMap_modify_perm g f l i t (by simpa using h)
    simp only [List.modify_succ_cons, List.filterMap_cons]
    cases g a <;> simp [this]

theorem count_flatMap_set {α β : Type} [BEq β] (f : α → List β) (b : β) :
    ∀ (l : List α) (k : Nat) (x : α) {y : α}, l[k]? = some y →
      ((l.set k x).flatMap f).count b + (f y).count b = (l.flatMap f).count b + (f x).count b
  | [], _, _, _, h => by simp at h
  | a :: l, 0, x, y, h => by
    simp only [List.getElem?_cons_zero, Option.some.injEq] at h
    subst h
    simp only [List.set_cons_zero, List.flatMap_cons, List.count_append]
    omega
  | a :: l, k + 1, x, y, h => by
    have := count_flatMap_set f b l k x (by simpa using h)
    simp only [List.set_cons_succ, List.flatMap_cons, List.count_append]
    omega

end Earendil
