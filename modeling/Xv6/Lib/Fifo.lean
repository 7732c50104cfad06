import Xv6.Lib.Machine

/-
  Xv6/Lib/Fifo.lean --- a bounded first-in first-out channel.

  The abstract side of a buffer between producers and a consumer: `enq x`
  puts `x` at the back when fewer than `cap` elements are held and waits
  otherwise; `deq` takes the front one out, and waits when there is none.
  Beside what it holds the channel keeps what was put in and what was taken
  out, in order.  In every reachable state what was taken out followed by
  what is held is what was put in, and at most `cap` elements are held
  (`conserve_of_reachable`): nothing is lost, duplicated or reordered.  A
  concrete buffer that `Reachable.simulate` maps onto this system has both.

  This module names nothing of the kernel.
-/

set_option autoImplicit false

namespace Fifo

open Machine

/-- A channel: what was put in, what was taken out, and what it holds,
each oldest first. -/
structure Chan (α : Type*) where
  put : List α
  taken : List α
  held : List α

/-- What a producer or the consumer does. -/
inductive Act (α : Type*) where
  | enq (x : α)
  | deq

variable {α : Type*}

/-- One step of the channel of capacity `cap`. -/
def step (cap : Nat) (c : Chan α) : Act α → Result (Chan α)
  | .enq x => if c.held.length < cap then .ok ⟨c.put ++ [x], c.taken, c.held ++ [x]⟩ else .wait
  | .deq =>
    match c.held with
    | [] => .wait
    | x :: rest => .ok ⟨c.put, c.taken ++ [x], rest⟩

/-- The empty channel of capacity `cap`. -/
def system (α : Type*) (cap : Nat) : System (Chan α) (Act α) := ⟨⟨[], [], []⟩, step cap⟩

theorem step_enq {cap : Nat} {c : Chan α} (x : α) (h : c.held.length < cap) :
    step cap c (.enq x) = .ok ⟨c.put ++ [x], c.taken, c.held ++ [x]⟩ :=
  if_pos h

theorem step_deq {cap : Nat} {c : Chan α} {x : α} {rest : List α} (h : c.held = x :: rest) :
    step cap c .deq = .ok ⟨c.put, c.taken ++ [x], rest⟩ := by
  obtain ⟨put, taken, held⟩ := c
  subst h
  rfl

/-- What a completed step does: an `enq` with room appends, a `deq` of a
channel holding something takes its front. -/
theorem step_cases {cap : Nat} {c c' : Chan α} {a : Act α} (h : step cap c a = .ok c') :
    (∃ x, a = .enq x ∧ c.held.length < cap ∧ c' = ⟨c.put ++ [x], c.taken, c.held ++ [x]⟩) ∨
    (∃ x rest, a = .deq ∧ c.held = x :: rest ∧ c' = ⟨c.put, c.taken ++ [x], rest⟩) := by
  cases a with
  | enq x =>
    simp only [step] at h
    by_cases hlt : c.held.length < cap
    · rw [if_pos hlt] at h
      cases h
      exact .inl ⟨x, rfl, hlt, rfl⟩
    · rw [if_neg hlt] at h
      cases h
  | deq =>
    simp only [step] at h
    cases hheld : c.held with
    | nil =>
      rw [hheld] at h
      cases h
    | cons x rest =>
      rw [hheld] at h
      cases h
      exact .inr ⟨x, rest, rfl, rfl, rfl⟩

/-- The channel's law. -/
structure Conserve (cap : Nat) (c : Chan α) : Prop where
  order : c.taken ++ c.held = c.put
  bound : c.held.length ≤ cap

theorem Conserve.step {cap : Nat} {c c' : Chan α} {a : Act α} (h : Conserve cap c)
    (hs : Fifo.step cap c a = .ok c') : Conserve cap c' := by
  rcases step_cases hs with ⟨x, -, hlt, rfl⟩ | ⟨x, rest, -, hheld, rfl⟩
  · refine ⟨?_, ?_⟩
    · rw [← List.append_assoc, h.order]
    · rw [List.length_append, List.length_singleton]
      omega
  · have hbound := h.bound
    rw [hheld, List.length_cons] at hbound
    refine ⟨?_, show rest.length ≤ cap by omega⟩
    rw [List.append_assoc, List.singleton_append, ← hheld, h.order]

theorem conserve_of_reachable {cap : Nat} {c : Chan α} (h : Reachable (system α cap) c) :
    Conserve cap c :=
  h.rec_inv (Conserve cap) ⟨rfl, Nat.zero_le _⟩ fun _ _ _ hc hs => hc.step hs

end Fifo
