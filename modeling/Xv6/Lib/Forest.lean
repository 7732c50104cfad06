import Mathlib

/-
  Xv6/Lib/Forest.lean --- forests kept as one parent pointer per node.

  A table of nodes where each node names at most one parent is a functional
  graph.  The shape invariant of such a forest is that every node in use
  reaches a given root (a node without parent) along parent links; from it
  follows that no node lies on a cycle (`not_transGen_self`).  The operations
  that change parents in a process table are of three kinds, and each keeps
  the root reachable: redirecting every link into one node to the root
  (`reaches_redirect`), and changing the link of a node no other node points to,
  which covers adding a leaf and removing one (`reaches_frame`).

  This module names nothing of the kernel.
-/

set_option autoImplicit false

namespace Forest

open Relation

variable {α : Type*}

/-- The link from a node to its parent. -/
def Edge (parent : α → Option α) (a b : α) : Prop :=
  parent a = some b

section Cycles

variable {parent : α → Option α}

/-- In a functional graph, every node reachable from a node on a cycle lies on
a cycle. -/
theorem transGen_self_of_reaches {a k : α} (hcyc : TransGen (Edge parent) a a)
    (h : ReflTransGen (Edge parent) a k) : TransGen (Edge parent) k k := by
  induction h with
  | refl => exact hcyc
  | tail _ hbk ih =>
    -- the cycle through `b` leaves `b` by its one link, which goes to `k`
    obtain ⟨m, hbm, hmb⟩ := TransGen.head'_iff.1 ih
    have hm : m = _ := Option.some.inj (hbm.symm.trans hbk)
    subst hm
    exact TransGen.tail' hmb hbk

/-- A node that reaches a root lies on no cycle. -/
theorem not_transGen_self {a r : α} (hr : parent r = none) (h : ReflTransGen (Edge parent) a r) :
    ¬ TransGen (Edge parent) a a := by
  intro hcyc
  obtain ⟨m, hrm, -⟩ := TransGen.head'_iff.1 (transGen_self_of_reaches hcyc h)
  exact absurd (hr.symm.trans hrm) (by simp)

end Cycles

section Reach

variable {parent parent' : α → Option α} {r : α}

/-- Redirecting to the root `r` the links into one node `p`, and keeping every
other link, keeps `r` reachable. -/
theorem reaches_redirect {p : α}
    (hlink : ∀ x, parent' x = parent x ∨ (parent x = some p ∧ parent' x = some r))
    {a : α} (h : ReflTransGen (Edge parent) a r) : ReflTransGen (Edge parent') a r := by
  induction h using ReflTransGen.head_induction_on with
  | refl => exact .refl
  | @head x y hxy _ ih =>
    rcases hlink x with hkeep | ⟨-, hred⟩
    · exact .head (show parent' x = some y by rw [hkeep]; exact hxy) ih
    · exact .single hred

/-- Changing only the link of a node `c` that no node links to keeps the root
reachable from every other node. -/
theorem reaches_frame {c : α} (hsame : ∀ x, x ≠ c → parent' x = parent x)
    (hnone : ∀ x, parent x ≠ some c) {a : α} (ha : a ≠ c) (h : ReflTransGen (Edge parent) a r) :
    ReflTransGen (Edge parent') a r := by
  induction h using ReflTransGen.head_induction_on with
  | refl => exact .refl
  | @head x y hxy _ ih =>
    have hy : y ≠ c := by
      rintro rfl
      exact hnone x hxy
    exact .head (show parent' x = some y by rw [hsame x ha]; exact hxy) (ih hy)

end Reach

end Forest
