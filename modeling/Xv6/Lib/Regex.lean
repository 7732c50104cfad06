import Mathlib

/-
  Xv6/Lib/Regex.lean --- the patterns of a backtracking matcher without
  alternation: a sequence of items, each one character of a class or any
  number of characters of a class.

  `Matches items s` says that the string `s` is in the language of the items
  taken in sequence; `MatchesPrefix items toEnd t` that some prefix of `t`
  is, the whole of `t` when `toEnd`.  A matcher that tries the items in order
  from the front of the text is proved against the three rules below, one per
  shape of the item list (`matchesPrefix_nil`, `matchesPrefix_one`,
  `matchesPrefix_many`): they are what such a matcher computes at each step.

  This module names nothing of the kernel or of its user programs.
-/

set_option autoImplicit false

namespace Regex

variable {α : Type*}

/-- One item of a pattern: one character of the class `p`, or any number of
them. -/
inductive Item (α : Type*) where
  | one (p : α → Bool)
  | many (p : α → Bool)

/-- The string `s` is in the language of `items` taken in sequence. -/
inductive Matches : List (Item α) → List α → Prop
  | nil : Matches [] []
  | one {p : α → Bool} {a : α} {is : List (Item α)} {s : List α} :
      p a = true → Matches is s → Matches (.one p :: is) (a :: s)
  | manyNil {p : α → Bool} {is : List (Item α)} {s : List α} :
      Matches is s → Matches (.many p :: is) s
  | manyCons {p : α → Bool} {a : α} {is : List (Item α)} {s : List α} :
      p a = true → Matches (.many p :: is) s → Matches (.many p :: is) (a :: s)

/-- Some prefix of `t` is in the language of `items`; with `toEnd`, the whole
of `t`. -/
def MatchesPrefix (items : List (Item α)) (toEnd : Bool) (t : List α) : Prop :=
  ∃ u v, t = u ++ v ∧ Matches items u ∧ (toEnd = true → v = [])

theorem matches_nil_iff {s : List α} : Matches [] s ↔ s = [] := by
  constructor
  · rintro ⟨⟩
    rfl
  · rintro rfl
    exact .nil

theorem matches_one_iff {p : α → Bool} {is : List (Item α)} {s : List α} :
    Matches (.one p :: is) s ↔ ∃ a s', s = a :: s' ∧ p a = true ∧ Matches is s' := by
  constructor
  · rintro (_ | ⟨hp, hm⟩)
    exact ⟨_, _, rfl, hp, hm⟩
  · rintro ⟨a, s', rfl, hp, hm⟩
    exact .one hp hm

theorem matches_many_iff {p : α → Bool} {is : List (Item α)} {s : List α} :
    Matches (.many p :: is) s ↔
      Matches is s ∨ ∃ a s', s = a :: s' ∧ p a = true ∧ Matches (.many p :: is) s' := by
  constructor
  · rintro (_ | _ | hm | ⟨hp, hm⟩)
    · exact .inl hm
    · exact .inr ⟨_, _, rfl, hp, hm⟩
  · rintro (hm | ⟨a, s', rfl, hp, hm⟩)
    · exact .manyNil hm
    · exact .manyCons hp hm

/-! ## The three rules of a matcher -/

/-- No items left: the empty prefix matches, and it is the whole text only
when the text is empty. -/
theorem matchesPrefix_nil {toEnd : Bool} {t : List α} :
    MatchesPrefix [] toEnd t ↔ (toEnd = true → t = []) := by
  constructor
  · rintro ⟨u, v, rfl, hm, hend⟩ he
    rw [matches_nil_iff.1 hm, List.nil_append]
    exact hend he
  · intro hend
    exact ⟨[], t, rfl, .nil, hend⟩

/-- One character of a class: it must be the first of the text. -/
theorem matchesPrefix_one {p : α → Bool} {is : List (Item α)} {toEnd : Bool} {t : List α} :
    MatchesPrefix (.one p :: is) toEnd t ↔
      ∃ a t', t = a :: t' ∧ p a = true ∧ MatchesPrefix is toEnd t' := by
  constructor
  · rintro ⟨u, v, rfl, hm, hend⟩
    obtain ⟨a, u', rfl, hp, hm'⟩ := matches_one_iff.1 hm
    exact ⟨a, u' ++ v, rfl, hp, u', v, rfl, hm', hend⟩
  · rintro ⟨a, t', rfl, hp, u, v, rfl, hm, hend⟩
    exact ⟨a :: u, v, rfl, .one hp hm, hend⟩

/-- Any number of characters of a class: none, or one more and still any
number. -/
theorem matchesPrefix_many {p : α → Bool} {is : List (Item α)} {toEnd : Bool} {t : List α} :
    MatchesPrefix (.many p :: is) toEnd t ↔
      MatchesPrefix is toEnd t ∨
        ∃ a t', t = a :: t' ∧ p a = true ∧ MatchesPrefix (.many p :: is) toEnd t' := by
  constructor
  · rintro ⟨u, v, rfl, hm, hend⟩
    rcases matches_many_iff.1 hm with hm | ⟨a, u', rfl, hp, hm'⟩
    · exact .inl ⟨u, v, rfl, hm, hend⟩
    · exact .inr ⟨a, u' ++ v, rfl, hp, u', v, rfl, hm', hend⟩
  · rintro (⟨u, v, rfl, hm, hend⟩ | ⟨a, t', rfl, hp, u, v, rfl, hm, hend⟩)
    · exact ⟨u, v, rfl, .manyNil hm, hend⟩
    · exact ⟨a :: u, v, rfl, .manyCons hp hm, hend⟩

end Regex
