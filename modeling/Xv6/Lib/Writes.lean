import Mathlib

/-
  Xv6/Lib/Writes.lean --- traces of single-location writes to a total store.

  A store is a total map `β → α`; a trace is the list of `(location, value)`
  writes a program performs, oldest first.  A crash that loses the tail of a
  trace leaves the store `applyWrites (ws.take k) d` for some `k`, so every
  crash-consistency argument is an argument about prefixes of traces.

  This module names nothing of the kernel.  It gives the three facts such
  arguments are made of:

      applyWrites_of_forall_ne     a location no write touches keeps its value
      applyWrites_congr            the last write to a location decides it
      applyWrites_take_self        replaying a whole trace over any of its
                                   prefixes gives what replaying it once gives
-/

set_option autoImplicit false

namespace Writes

variable {β α : Type*} [DecidableEq β]

/-- Apply a trace of writes to a store, oldest write first. -/
def applyWrites : List (β × α) → (β → α) → β → α
  | [], d => d
  | (a, v) :: ws, d => applyWrites ws (Function.update d a v)

@[simp] theorem applyWrites_nil (d : β → α) : applyWrites [] d = d := rfl

@[simp] theorem applyWrites_cons (a : β) (v : α) (ws : List (β × α)) (d : β → α) :
    applyWrites ((a, v) :: ws) d = applyWrites ws (Function.update d a v) := rfl

theorem applyWrites_append (ws vs : List (β × α)) (d : β → α) :
    applyWrites (ws ++ vs) d = applyWrites vs (applyWrites ws d) := by
  induction ws generalizing d with
  | nil => rfl
  | cons w ws ih =>
    obtain ⟨a, v⟩ := w
    simp [ih]

/-- The frame rule: a location that no write of the trace touches keeps its value. -/
theorem applyWrites_of_forall_ne (ws : List (β × α)) (d : β → α) (x : β)
    (h : ∀ p ∈ ws, p.1 ≠ x) : applyWrites ws d x = d x := by
  induction ws generalizing d with
  | nil => rfl
  | cons w ws ih =>
    obtain ⟨a, v⟩ := w
    have hax : a ≠ x := h (a, v) List.mem_cons_self
    rw [applyWrites_cons, ih _ (fun p hp => h p (List.mem_cons_of_mem _ hp))]
    exact Function.update_of_ne (Ne.symm hax) v d

/-- Two stores that agree at `x` still agree there after the same trace, and so
do any two stores when the trace writes `x`: the last write decides. -/
theorem applyWrites_congr (ws : List (β × α)) (d e : β → α) (x : β)
    (h : (∃ p ∈ ws, p.1 = x) ∨ d x = e x) :
    applyWrites ws d x = applyWrites ws e x := by
  induction ws generalizing d e with
  | nil =>
    rcases h with ⟨p, hp, _⟩ | h
    · simp at hp
    · exact h
  | cons w ws ih =>
    obtain ⟨a, v⟩ := w
    simp only [applyWrites_cons]
    apply ih
    by_cases hax : a = x
    · -- this write decides `x` for both stores
      subst hax
      right
      simp
    · rcases h with ⟨p, hp, hpx⟩ | h
      · rcases List.mem_cons.1 hp with rfl | hp
        · exact absurd hpx hax
        · exact Or.inl ⟨p, hp, hpx⟩
      · right
        rw [Function.update_of_ne (Ne.symm hax), Function.update_of_ne (Ne.symm hax), h]

/-- Replaying a whole trace over the store left by any of its prefixes gives the
store that replaying it once gives.  This is what makes a redo log idempotent. -/
theorem applyWrites_take_self (ws : List (β × α)) (k : Nat) (d : β → α) :
    applyWrites ws (applyWrites (ws.take k) d) = applyWrites ws d := by
  funext x
  apply applyWrites_congr
  by_cases h : ∃ p ∈ ws, p.1 = x
  · exact Or.inl h
  · right
    apply applyWrites_of_forall_ne
    intro p hp hpx
    exact h ⟨p, List.mem_of_mem_take hp, hpx⟩

/-- A crash inside a two-phase trace stops either inside the first phase or
after all of it and at least one write of the second. -/
theorem take_append_cases {γ : Type*} (l₁ l₂ : List γ) (k : Nat) :
    (k ≤ l₁.length ∧ (l₁ ++ l₂).take k = l₁.take k) ∨
      (l₁.length < k ∧ ∃ m, (l₁ ++ l₂).take k = l₁ ++ l₂.take (m + 1)) := by
  by_cases hk : k ≤ l₁.length
  · exact Or.inl ⟨hk, List.take_append_of_le_length hk⟩
  · right
    refine ⟨by omega, k - l₁.length - 1, ?_⟩
    rw [List.take_append, List.take_of_length_le (by omega)]
    congr 2
    omega

end Writes
