import Mathlib

/-
  Xv6/Lib/Runs.lean --- the maximal non-empty runs of a list between
  separators: the elements of a path between its slashes, the words of a
  line between its blanks.

  `runs sep l` is `l` split at every `sep`, with the empty pieces left out.
  A scanner that skips separators and then takes a run is proved against the
  three rules below: leading separators do not change the runs
  (`runs_sep_cons`, `runs_dropWhile_sep`), and a run followed by the end of
  the list or by a separator is the first run (`runs_of_run`,
  `runs_run_append`).

  This module names nothing of the kernel.
-/

set_option autoImplicit false

namespace Runs

variable {α : Type*} [DecidableEq α]

/-- The maximal non-empty runs of elements other than `sep`, in order. -/
noncomputable def runs (sep : α) (l : List α) : List (List α) := (l.splitOn sep).filter (· ≠ [])

theorem runs_nil (sep : α) : runs sep [] = [] := by
  simp [runs]

/-- A leading separator starts no run. -/
theorem runs_sep_cons (sep : α) (l : List α) : runs sep (sep :: l) = runs sep l := by
  unfold runs
  rw [List.splitOn_eq_splitOnP, List.splitOnP_cons_eq_if_modifyHead, if_pos (by simp)]
  simp [List.splitOn_eq_splitOnP]

/-- Nor do any number of them. -/
theorem runs_dropWhile_sep (sep : α) (l : List α) : runs sep (l.dropWhile (· == sep)) = runs sep l := by
  induction l with
  | nil => rfl
  | cons a l ih =>
    by_cases ha : a = sep
    · subst ha
      rw [List.dropWhile_cons_of_pos (by simp), ih, runs_sep_cons]
    · rw [List.dropWhile_cons_of_neg (by simpa using ha)]

/-- A run with nothing after it is the only run. -/
theorem runs_of_run {sep : α} {w : List α} (hne : w ≠ []) (hsep : sep ∉ w) : runs sep w = [w] := by
  unfold runs
  rw [List.splitOn_eq_singleton hsep]
  simp [hne]

/-- A run followed by a separator is the first run. -/
theorem runs_run_append {sep : α} {w : List α} (hne : w ≠ []) (hsep : sep ∉ w) (r : List α) :
    runs sep (w ++ sep :: r) = w :: runs sep r := by
  unfold runs
  rw [List.splitOn_append_cons_self_of_not_mem hsep]
  simp [hne]

/-- Dropping the leading separators leaves none in front. -/
theorem head?_dropWhile_sep (sep : α) (l : List α) : (l.dropWhile (· == sep)).head? ≠ some sep := by
  induction l with
  | nil => simp
  | cons a l ih =>
    by_cases ha : a = sep
    · rwa [ha, List.dropWhile_cons_of_pos (by simp)]
    · rw [List.dropWhile_cons_of_neg (by simpa using ha)]
      simpa using ha

/-- A run starts at an element other than the separator and goes up to the
next separator, or to the end. -/
theorem runs_cons_of_ne {sep a : α} (ha : a ≠ sep) (l : List α) :
    runs sep (a :: l) = (a :: l).takeWhile (· != sep) :: runs sep ((a :: l).dropWhile (· != sep)) := by
  have hw : (a :: l).takeWhile (· != sep) ≠ [] := by
    rw [List.takeWhile_cons_of_pos (by simpa using ha)]
    exact List.cons_ne_nil _ _
  have hsep : sep ∉ (a :: l).takeWhile (· != sep) := fun h => by
    simpa using List.mem_takeWhile_imp h
  have hsplit := List.takeWhile_append_dropWhile (p := (· != sep)) (l := a :: l)
  generalize hr : (a :: l).dropWhile (· != sep) = r at hsplit ⊢
  cases r with
  | nil =>
    conv_lhs => rw [← hsplit]
    rw [List.append_nil, runs_of_run hw hsep, runs_nil]
  | cons d r =>
    -- what the run stops at is a separator
    have hd : d = sep := by
      have := List.head_dropWhile_not (· != sep) (l := a :: l) (by rw [hr]; exact List.cons_ne_nil _ _)
      simpa [hr] using this
    subst hd
    conv_lhs => rw [← hsplit]
    rw [runs_run_append hw hsep, runs_sep_cons]

end Runs
