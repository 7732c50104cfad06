import Mathlib

/-
  Xv6/Lib/Circular.lean --- circular lists threaded through their nodes.

  The links of a circular list live in its nodes: `next a` is the link stored
  in node `a`, and following the links from the first node visits every node
  and comes back.  `Links next c` says this of the list `c` of the nodes, in
  the order the links visit them: `next` sends each node of `c` to the one
  after it, and the last to the first (`Links.get`).

  Three kinds of write change the links, and their lemmas say which list the
  links describe afterwards: a new node stored after a node takes over that
  node's link (`Links.insert`), a node is unlinked by giving its link to the
  node before it (`Links.erase`), and writes that leave every node's link as
  it was leave the list (`Links.congr`).

  A walk along the links from a node is at node `(i + t) % c.length` after
  `t` steps (`Links.iterate_get`), so it comes back only after a whole round
  (`Links.iterate_ne_self`), and a search that stops at the nodes with a
  property stops within one round, at the first of them
  (`Links.exists_first`); a search written with fuel then returns that node
  (`loop_eq_of_first`).

  This module names nothing of the kernel.
-/

set_option autoImplicit false

namespace Circ

variable {α : Type*}

/-- Following `next` from the first node of `c` visits the nodes of `c` in
order and then the first node again. -/
def Links (next : α → α) (c : List α) : Prop :=
  (c ++ c.take 1).IsChain fun a b => next a = b

/-- A chain of links reads the link of every node but the last. -/
theorem isChain_congr {next next' : α → α} {L : List α} (h : L.IsChain fun a b => next a = b)
    (heq : ∀ a ∈ L.dropLast, next' a = next a) : L.IsChain fun a b => next' a = b := by
  induction h with
  | nil => exact .nil
  | singleton a => exact .singleton a
  | @cons_cons a b l hab _ ih =>
    rw [List.dropLast_cons_cons] at heq
    refine .cons_cons ?_ (ih fun x hx => heq x (List.mem_cons_of_mem _ hx))
    rw [heq a List.mem_cons_self, hab]

variable {next : α → α} {c : List α}

/-! ## Positions -/

/-- The node after the node at `i` is the one at `i + 1`; after the last
comes the first. -/
theorem Links.get (h : Links next c) (i : Fin c.length) :
    next (c.get i) = c.get ⟨(i + 1) % c.length, Nat.mod_lt _ i.pos⟩ := by
  have hpos := i.pos
  have hlen : (c ++ c.take 1).length = c.length + 1 := by simp; omega
  have hlink := h.getElem i (by omega)
  rw [List.getElem_append_left i.2] at hlink
  rw [List.get_eq_getElem, hlink, List.get_eq_getElem]
  rcases Nat.lt_or_ge (i + 1) c.length with hlt | hge
  · simp only [List.getElem_append_left hlt, Nat.mod_eq_of_lt hlt]
  · have hi : (i : Nat) + 1 = c.length := by omega
    simp only [hi, Nat.mod_self, List.getElem_append_right (Nat.le_refl _), Nat.sub_self,
      List.getElem_take]

/-- After `t` steps from the node at `i` the walk is at `(i + t) % c.length`. -/
theorem Links.iterate_get (h : Links next c) (i : Fin c.length) (t : Nat) :
    next^[t] (c.get i) = c.get ⟨(i + t) % c.length, Nat.mod_lt _ i.pos⟩ := by
  induction t with
  | zero => simp [Nat.mod_eq_of_lt i.2]
  | succ t ih =>
    rw [Function.iterate_succ_apply', ih, h.get]
    simp only [Nat.mod_add_mod, Nat.add_assoc]

/-- A walk from a node of the list stays on the list. -/
theorem Links.iterate_mem (h : Links next c) {x : α} (hx : x ∈ c) (t : Nat) : next^[t] x ∈ c := by
  obtain ⟨i, rfl⟩ := List.get_of_mem hx
  rw [h.iterate_get]
  exact List.get_mem _ _

/-- On a list with no repeated node, a walk comes back only after a whole
round. -/
theorem Links.iterate_ne_self (h : Links next c) (hnd : c.Nodup) {x : α} (hx : x ∈ c) {t : Nat}
    (ht : 0 < t) (htn : t < c.length) : next^[t] x ≠ x := by
  obtain ⟨i, rfl⟩ := List.get_of_mem hx
  rw [h.iterate_get, Ne, hnd.get_inj_iff, Fin.ext_iff]
  intro heq
  dsimp only at heq
  rcases Nat.lt_or_ge (i + t) c.length with hlt | hge
  · rw [Nat.mod_eq_of_lt hlt] at heq
    omega
  · rw [Nat.mod_eq_sub_mod hge, Nat.mod_eq_of_lt (by omega)] at heq
    omega

/-- A walk from any node reaches any other within one round. -/
theorem Links.exists_iterate_eq (h : Links next c) {x y : α} (hx : x ∈ c) (hy : y ∈ c) :
    ∃ d < c.length, next^[d] x = y := by
  obtain ⟨i, rfl⟩ := List.get_of_mem hx
  obtain ⟨j, rfl⟩ := List.get_of_mem hy
  refine ⟨(j + c.length - i) % c.length, Nat.mod_lt _ i.pos, ?_⟩
  rw [h.iterate_get]
  congr 1
  ext
  dsimp only
  rw [Nat.add_mod_mod, show (i : Nat) + (j + c.length - i) = j + c.length by omega, Nat.add_mod_right,
    Nat.mod_eq_of_lt j.2]

/-- A walk comes back to its start after a whole round. -/
theorem Links.iterate_length (h : Links next c) {x : α} (hx : x ∈ c) : next^[c.length] x = x := by
  obtain ⟨i, rfl⟩ := List.get_of_mem hx
  rw [h.iterate_get]
  congr 1
  ext
  exact (Nat.add_mod_right _ _).trans (Nat.mod_eq_of_lt i.2)

/-- The first step at which a search succeeds, no later than a step at
which it does. -/
theorem exists_first_le (Q : Nat → Prop) (d₀ : Nat) (h : Q d₀) : ∃ d ≤ d₀, Q d ∧ ∀ t < d, ¬ Q t := by
  classical
  have hex : ∃ d, Q d := ⟨d₀, h⟩
  exact ⟨Nat.find hex, Nat.find_min' hex h, Nat.find_spec hex, fun t ht => Nat.find_min hex ht⟩

/-- A search along the links that stops at the nodes satisfying `P` stops
within one round, at the first of them. -/
theorem Links.exists_first (h : Links next c) {x y : α} (hx : x ∈ c) (hy : y ∈ c) {P : α → Prop}
    (hP : P y) : ∃ d < c.length, P (next^[d] x) ∧ ∀ t < d, ¬ P (next^[t] x) := by
  obtain ⟨d₀, hd₀, rfl⟩ := h.exists_iterate_eq hx hy
  obtain ⟨d, hd, hPd, hmiss⟩ := exists_first_le (fun d => P (next^[d] x)) _ hP
  exact ⟨d, lt_of_le_of_lt hd hd₀, hPd, hmiss⟩

/-- A search written with fuel, which returns `f x` at the first node `x`
satisfying `P`: with more fuel than steps to that node it returns there. -/
theorem loop_eq_of_first {β : Type*} {P : α → Prop} [DecidablePred P] (f : α → β)
    (loop : Nat → α → Option β)
    (hloop : ∀ k x, loop (k + 1) x = if P x then some (f x) else loop k (next x))
    {x : α} {d : Nat} (hmiss : ∀ t < d, ¬ P (next^[t] x)) (hhit : P (next^[d] x)) {fuel : Nat}
    (hfuel : d < fuel) : loop fuel x = some (f (next^[d] x)) := by
  induction d generalizing x fuel with
  | zero =>
    obtain ⟨k, rfl⟩ : ∃ k, fuel = k + 1 := ⟨fuel - 1, by omega⟩
    rw [Function.iterate_zero_apply] at hhit ⊢
    rw [hloop, if_pos hhit]
  | succ d ih =>
    obtain ⟨k, rfl⟩ : ∃ k, fuel = k + 1 := ⟨fuel - 1, by omega⟩
    have hx : ¬ P x := hmiss 0 (Nat.succ_pos d)
    rw [hloop, if_neg hx, Function.iterate_succ_apply]
    exact ih (fun t ht => by simpa only [Function.iterate_succ_apply] using hmiss (t + 1) (by omega))
      (by rwa [Function.iterate_succ_apply] at hhit) (by omega)

/-! ## Reading links off the list -/

/-- A node followed by another on the list links to it. -/
theorem Links.next_eq_of_append {c₁ c₂ : List α} {p y : α} (h : Links next (c₁ ++ p :: y :: c₂)) :
    next p = y := by
  unfold Links at h
  rw [List.append_assoc, List.cons_append, List.cons_append, List.isChain_append_cons_cons] at h
  exact h.2.1

/-- The last node links to the first. -/
theorem Links.next_last {a p : α} {c₁ : List α} (h : Links next (a :: (c₁ ++ [p]))) : next p = a := by
  unfold Links at h
  rw [List.take_succ_cons, List.take_zero] at h
  have hlast : (a :: (c₁ ++ [p])).getLast? = some p := by
    rw [← List.cons_append, List.getLast?_concat]
  exact (List.isChain_append.1 h).2.2 p hlast a rfl

/-- A list of one node links it to itself. -/
theorem Links.next_single {a : α} (h : Links next [a]) : next a = a := by
  unfold Links at h
  simpa using h

/-! ## Writing links -/

/-- Writes that leave the link of every node of the list leave the list. -/
theorem Links.congr {next' : α → α} (h : Links next c) (heq : ∀ a ∈ c, next' a = next a) :
    Links next' c := by
  refine isChain_congr h fun a ha => heq a ?_
  rcases List.mem_append.1 (List.dropLast_subset _ ha) with ha | ha
  · exact ha
  · exact List.mem_of_mem_take ha

theorem take_one_append_cons (c₁ c₂ c₃ : List α) (p : α) :
    (c₁ ++ p :: c₂).take 1 = (c₁ ++ p :: c₃).take 1 := by
  cases c₁ <;> rfl

/-- The first node of a list, as the chain of `Links` repeats it after the
last. -/
theorem exists_take_one (c₁ c₂ : List α) (p : α) : ∃ u, (c₁ ++ p :: c₂).take 1 = [u] := by
  cases c₁ <;> exact ⟨_, rfl⟩

variable [DecidableEq α]

/-- Storing a node `x` after `p`: `x` takes over the link of `p`, and `p`
links to `x`. -/
theorem Links.insert {c₁ c₂ : List α} {p x : α} (h : Links next (c₁ ++ p :: c₂))
    (hnd : (c₁ ++ p :: c₂).Nodup) (hx : x ∉ c₁ ++ p :: c₂) :
    Links (Function.update (Function.update next x (next p)) p x) (c₁ ++ p :: x :: c₂) := by
  have hpx : p ≠ x := fun hpx => hx (hpx ▸ List.mem_append_right _ List.mem_cons_self)
  have hp₁ : p ∉ c₁ := fun hp => List.disjoint_of_nodup_append hnd hp List.mem_cons_self
  have hp₂ : p ∉ c₂ := (List.nodup_cons.1 (List.nodup_append.1 hnd).2.1).1
  obtain ⟨u, hu⟩ := exists_take_one c₁ c₂ p
  unfold Links at h ⊢
  rw [hu] at h
  rw [take_one_append_cons c₁ (x :: c₂) c₂, hu]
  rw [List.append_assoc, List.cons_append, List.isChain_split] at h ⊢
  obtain ⟨h₁, h₂⟩ := h
  rw [List.isChain_cons] at h₂
  obtain ⟨hp, h₂⟩ := h₂
  refine ⟨isChain_congr h₁ fun a ha => ?_, ?_⟩
  · -- the nodes before `p` keep their links
    rw [List.dropLast_concat] at ha
    have hap : a ≠ p := fun hap => hp₁ (hap ▸ ha)
    have hax : a ≠ x := fun hax => hx (List.mem_append_left _ (hax ▸ ha))
    rw [Function.update_of_ne hap, Function.update_of_ne hax]
  · rw [List.cons_append, List.isChain_cons_cons, Function.update_self, List.isChain_cons]
    refine ⟨rfl, fun y hy => ?_, isChain_congr h₂ fun a ha => ?_⟩
    · rw [Function.update_of_ne hpx.symm, Function.update_self]
      exact hp y hy
    · -- the nodes after `p` keep theirs; the first node, repeated last, is not read
      rw [List.dropLast_concat] at ha
      have hap : a ≠ p := fun hap => hp₂ (hap ▸ ha)
      have hax : a ≠ x := fun hax => hx (List.mem_append_right _ (List.mem_cons_of_mem _ (hax ▸ ha)))
      rw [Function.update_of_ne hap, Function.update_of_ne hax]

/-- Unlinking the node `x` after `p`: `p` takes over the link of `x`. -/
theorem Links.erase {c₁ c₂ : List α} {p x : α} (h : Links next (c₁ ++ p :: x :: c₂))
    (hnd : (c₁ ++ p :: x :: c₂).Nodup) :
    Links (Function.update next p (next x)) (c₁ ++ p :: c₂) := by
  have hp₁ : p ∉ c₁ := fun hp => List.disjoint_of_nodup_append hnd hp List.mem_cons_self
  have hp₂ : p ∉ x :: c₂ := (List.nodup_cons.1 (List.nodup_append.1 hnd).2.1).1
  obtain ⟨u, hu⟩ := exists_take_one c₁ (x :: c₂) p
  unfold Links at h ⊢
  rw [hu] at h
  rw [take_one_append_cons c₁ c₂ (x :: c₂), hu]
  rw [List.append_assoc, List.cons_append, List.isChain_split] at h ⊢
  obtain ⟨h₁, h₂⟩ := h
  rw [List.cons_append, List.isChain_cons_cons, List.isChain_cons] at h₂
  obtain ⟨-, hx, h₂⟩ := h₂
  refine ⟨isChain_congr h₁ fun a ha => ?_, ?_⟩
  · rw [List.dropLast_concat] at ha
    exact Function.update_of_ne (show a ≠ p from fun hap => hp₁ (hap ▸ ha)) _ _
  · rw [List.isChain_cons, Function.update_self]
    refine ⟨hx, isChain_congr h₂ fun a ha => ?_⟩
    rw [List.dropLast_concat] at ha
    exact Function.update_of_ne (show a ≠ p from fun hap => hp₂ (List.mem_cons_of_mem _ (hap ▸ ha))) _ _

end Circ
