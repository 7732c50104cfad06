import Mathlib

/-
  Xv6/Lib/Scan.lean --- first-fit scans of a fixed-size table.

  A loop `for (i = 0; i < n; i++) if (P(t[i])) return i;` over a C array is
  `(List.finRange n).find? P` on a table `Fin n → α`.  The lemmas say what such
  a scan returns in the terms the callers reason in: the slot it returns
  satisfies `P` and every slot before it does not; it returns nothing only when
  no slot satisfies `P`.  A scan of any list with exactly one element
  satisfying `P` returns that element, and scans with predicates that agree on
  the list return the same.

  This module names nothing of the kernel.
-/

set_option autoImplicit false

namespace Scan

variable {n : Nat} {P : Fin n → Bool}

/-- The scan returns `i` exactly when `i` is the first slot satisfying `P`. -/
theorem find?_finRange_eq_some {i : Fin n} :
    (List.finRange n).find? P = some i ↔ P i ∧ ∀ j < i, P j = false := by
  rw [List.find?_eq_some_iff_getElem]
  constructor
  · rintro ⟨hi, k, hk, hki, hbefore⟩
    refine ⟨hi, fun j hj => ?_⟩
    simp only [List.getElem_finRange] at hki
    subst hki
    simpa using hbefore j.val (by simpa [Fin.lt_def] using hj)
  · rintro ⟨hi, hbefore⟩
    refine ⟨hi, i.val, by simp, by simp, fun j hj => ?_⟩
    simp only [List.getElem_finRange]
    simpa using hbefore ⟨j, by omega⟩ (by simp [Fin.lt_def]; omega)

/-- The scan returns nothing exactly when no slot satisfies `P`. -/
theorem find?_finRange_eq_none : (List.finRange n).find? P = none ↔ ∀ i, P i = false := by
  simp [List.find?_eq_none]

/-- A scan of a list finds the one element that satisfies `P`. -/
theorem find?_eq_some_of_unique {α : Type*} {l : List α} {p : α → Bool} {a : α} (ha : a ∈ l)
    (hp : p a = true) (huniq : ∀ b ∈ l, p b = true → b = a) : l.find? p = some a := by
  cases hf : l.find? p with
  | none => exact absurd hp (by simpa using List.find?_eq_none.1 hf a ha)
  | some b => rw [huniq b (List.mem_of_find?_eq_some hf) (List.find?_some hf)]

/-- Scans with predicates that agree on the list find the same element. -/
theorem find?_congr {α : Type*} {l : List α} {p q : α → Bool} (h : ∀ a ∈ l, p a = q a) :
    l.find? p = l.find? q := by
  induction l with
  | nil => rfl
  | cons a l ih =>
    rw [List.find?_cons, List.find?_cons, h a List.mem_cons_self,
      ih fun b hb => h b (List.mem_cons_of_mem _ hb)]

end Scan
