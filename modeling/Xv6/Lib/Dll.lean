import Mathlib

/-
  Xv6/Lib/Dll.lean --- circular doubly-linked lists with a sentinel node.

  The nodes of the list are the values of a type `ι`; the links are two
  functions `next` and `prev` on `ι`, as the `next` and `prev` fields of C
  structures are.  `Links next prev a l z` says that following `next` from `a`
  passes through the nodes of `l` in order and arrives at `z`, and that `prev`
  leads back the same way.  A circular list with sentinel `head` is
  `Links next prev head l head` with the nodes of `head :: l` distinct.

  The two pointer operations of a move-to-front list are written as C writes
  them, one field assignment at a time: `unlink` splices a node out and
  `pushFront` inserts one after the sentinel.  Their lemmas say which list the
  links describe afterwards.  A `for` loop from the sentinel along `next` (or
  `prev`) that stops at the first node satisfying a test is `scan`; on a
  circular list it computes `List.find?` on the list (or on its reverse).

  This module names nothing of the kernel.
-/

set_option autoImplicit false

namespace Dll

variable {ι : Type*}

/-- Following `next` from `a` visits the nodes of `l` in order and then `z`;
each node's `prev` is the node before it. -/
def Links (next prev : ι → ι) : ι → List ι → ι → Prop
  | a, [], z => next a = z ∧ prev z = a
  | a, b :: l, z => next a = b ∧ prev b = a ∧ Links next prev b l z

/-- A circular list with sentinel `head`, whose nodes after `head` are `l`. -/
structure IsCircular (next prev : ι → ι) (head : ι) (l : List ι) : Prop where
  links : Links next prev head l head
  nodup : (head :: l).Nodup

/-! ## Links -/

section Links

variable {next prev : ι → ι}

@[simp] theorem links_nil {a z : ι} : Links next prev a [] z ↔ next a = z ∧ prev z = a := Iff.rfl

@[simp] theorem links_cons {a b z : ι} {l : List ι} :
    Links next prev a (b :: l) z ↔ next a = b ∧ prev b = a ∧ Links next prev b l z := Iff.rfl

/-- A chain splits at any of its nodes. -/
theorem links_append {a b z : ι} (l₁ l₂ : List ι) :
    Links next prev a (l₁ ++ b :: l₂) z ↔ Links next prev a l₁ b ∧ Links next prev b l₂ z := by
  induction l₁ generalizing a with
  | nil => simp [and_assoc]
  | cons c l₁ ih => simp [ih, and_assoc]

/-- The node after `a` is the first of `l`, or `z`. -/
theorem Links.next_mem {a z : ι} {l : List ι} (h : Links next prev a l z) :
    next a ∈ l ∨ next a = z := by
  cases l with
  | nil => exact Or.inr h.1
  | cons b l => exact Or.inl (h.1 ▸ List.mem_cons_self)

/-- The node before `z` is `a` or one of `l`. -/
theorem Links.prev_mem {a z : ι} {l : List ι} (h : Links next prev a l z) : prev z ∈ a :: l := by
  induction l generalizing a with
  | nil => exact h.2 ▸ List.mem_cons_self
  | cons b l ih => exact List.mem_cons_of_mem a (ih h.2.2)

/-- Changing `next` where the chain does not follow it keeps the chain. -/
theorem Links.update_next [DecidableEq ι] {a z x v : ι} {l : List ι} (h : Links next prev a l z)
    (hx : x ∉ a :: l) : Links (Function.update next x v) prev a l z := by
  induction l generalizing a with
  | nil =>
    have hxa : a ≠ x := fun e => hx (e ▸ List.mem_cons_self)
    exact ⟨by rw [Function.update_of_ne hxa]; exact h.1, h.2⟩
  | cons b l ih =>
    have hxa : a ≠ x := fun e => hx (e ▸ List.mem_cons_self)
    refine ⟨by rw [Function.update_of_ne hxa]; exact h.1, h.2.1, ih h.2.2 ?_⟩
    exact fun hm => hx (List.mem_cons_of_mem a hm)

/-- Changing `prev` where the chain does not follow it keeps the chain. -/
theorem Links.update_prev [DecidableEq ι] {a z x v : ι} {l : List ι} (h : Links next prev a l z)
    (hx : x ∉ l) (hxz : x ≠ z) : Links next (Function.update prev x v) a l z := by
  induction l generalizing a with
  | nil => exact ⟨h.1, by rw [Function.update_of_ne hxz.symm]; exact h.2⟩
  | cons b l ih =>
    have hxb : b ≠ x := fun e => hx (e ▸ List.mem_cons_self)
    refine ⟨h.1, by rw [Function.update_of_ne hxb]; exact h.2.1, ih h.2.2 ?_⟩
    exact fun hm => hx (List.mem_cons_of_mem b hm)

/-- Read backwards, a chain is a chain of `prev` links. -/
theorem Links.symm {a z : ι} {l : List ι} (h : Links next prev a l z) :
    Links prev next z l.reverse a := by
  induction l generalizing a with
  | nil => exact ⟨h.2, h.1⟩
  | cons b l ih =>
    rw [List.reverse_cons, links_append]
    exact ⟨ih h.2.2, h.2.1, h.1⟩

end Links

/-! ## Splicing a node out and in -/

section Splice

variable [DecidableEq ι]

/-- `b->next->prev = b->prev; b->prev->next = b->next;` -/
def unlink (next prev : ι → ι) (b : ι) : (ι → ι) × (ι → ι) :=
  let prev' := Function.update prev (next b) (prev b)
  let next' := Function.update next (prev' b) (next b)
  (next', prev')

/-- `b->next = head->next; b->prev = head; head->next->prev = b; head->next = b;` -/
def pushFront (next prev : ι → ι) (head b : ι) : (ι → ι) × (ι → ι) :=
  let next1 := Function.update next b (next head)
  let prev1 := Function.update prev b head
  let prev2 := Function.update prev1 (next1 head) b
  let next2 := Function.update next1 head b
  (next2, prev2)

variable {next prev : ι → ι}

/-- When `b` is not its own successor, the second assignment of `unlink` reads
the old `b->prev`. -/
theorem unlink_eq {b : ι} (h : next b ≠ b) :
    unlink next prev b =
      (Function.update next (prev b) (next b), Function.update prev (next b) (prev b)) := by
  simp only [unlink, Function.update_of_ne h.symm]

/-- Unlinking `b` from a chain through `l₁ ++ b :: l₂` leaves a chain through
`l₁ ++ l₂`. -/
theorem Links.unlink {a b z : ι} {l₁ l₂ : List ι} (h₁ : Links next prev a l₁ b)
    (h₂ : Links next prev b l₂ z) (hnd : (a :: l₁ ++ b :: l₂).Nodup)
    (hz : z ∉ l₁ ++ b :: l₂) :
    Links (unlink next prev b).1 (unlink next prev b).2 a (l₁ ++ l₂) z := by
  have hzb : z ≠ b := fun e => hz (by simp [e])
  have hbl₂ : b ∉ l₂ := (List.nodup_cons.1 (List.nodup_append.1 hnd).2.1).1
  have hnb : next b ≠ b := by
    rcases h₂.next_mem with hm | he
    · exact fun e => hbl₂ (e ▸ hm)
    · exact fun e => hzb (he ▸ e)
  rw [unlink_eq hnb]
  dsimp only
  induction l₁ generalizing a with
  | nil =>
    -- `a` is `b`'s predecessor; the new chain goes from `a` straight on
    have hpa : prev b = a := h₁.2
    rw [hpa]
    cases l₂ with
    | nil =>
      have hnz : next b = z := h₂.1
      rw [hnz]
      exact ⟨Function.update_self .., Function.update_self ..⟩
    | cons c l₂ =>
      have hnc : next b = c := h₂.1
      rw [hnc]
      refine ⟨Function.update_self .., Function.update_self .., ?_⟩
      have hnd' : (a :: b :: c :: l₂).Nodup := hnd
      rw [List.nodup_cons, List.nodup_cons, List.nodup_cons] at hnd'
      have hcz : c ≠ z := fun e => hz (by simp [e])
      exact (h₂.2.2.update_next fun hm => hnd'.1 (List.mem_cons_of_mem b hm)).update_prev
        hnd'.2.2.1 hcz
  | cons c l₁ ih =>
    -- the chain keeps its first link `a → c`; the rest is the induction
    have hnd' : (c :: l₁ ++ b :: l₂).Nodup := (List.nodup_cons.1 hnd).2
    have hz' : z ∉ l₁ ++ b :: l₂ := fun hm => hz (List.mem_cons_of_mem c hm)
    have hpb : prev b ≠ a := by
      intro e
      have hm := h₁.2.2.prev_mem
      rw [e] at hm
      exact (List.nodup_cons.1 hnd).1 (List.mem_append_left _ hm)
    have hcn : c ≠ next b := by
      intro e
      have hc : c ∉ l₂ ∧ c ≠ z :=
        ⟨fun hm => (List.nodup_cons.1 hnd').1 (List.mem_append_right _ (List.mem_cons_of_mem b hm)),
          fun e' => hz (by simp [e'])⟩
      rcases h₂.next_mem with hm | he
      · exact hc.1 (e ▸ hm)
      · exact hc.2 (e.trans he)
    refine ⟨?_, ?_, ih h₁.2.2 hnd' hz'⟩
    · rw [Function.update_of_ne hpb.symm]
      exact h₁.1
    · rw [Function.update_of_ne hcn]
      exact h₁.2.1

/-- Inserting a node `b` that is not on a circular list just after the sentinel
makes it the first node. -/
theorem Links.pushFront {head b : ι} {l : List ι} (h : Links next prev head l head)
    (hb : b ∉ head :: l) (hnd : (head :: l).Nodup) :
    Links (pushFront next prev head b).1 (pushFront next prev head b).2 head (b :: l) head := by
  have hbh : b ≠ head := fun e => hb (e ▸ List.mem_cons_self)
  simp only [Dll.pushFront, Function.update_of_ne hbh.symm]
  cases l with
  | nil =>
    -- the list was empty: `head` and `b` now point at each other
    have hn : next head = head := h.1
    rw [hn]
    refine ⟨Function.update_self .., ?_, ?_, ?_⟩
    · rw [Function.update_of_ne hbh, Function.update_self]
    · rw [Function.update_of_ne hbh, Function.update_self]
    · exact Function.update_self ..
  | cons c l =>
    -- `b` goes between `head` and the old first node `c`
    have hn : next head = c := h.1
    have hbcl : b ∉ c :: l := fun hm => hb (List.mem_cons_of_mem head hm)
    have hhcl : head ∉ c :: l := (List.nodup_cons.1 hnd).1
    have hcb : c ≠ b := fun e => hbcl (e ▸ List.mem_cons_self)
    have hch : c ≠ head := fun e => hhcl (e ▸ List.mem_cons_self)
    have hcl : c ∉ l := (List.nodup_cons.1 (List.nodup_cons.1 hnd).2).1
    rw [hn]
    refine ⟨Function.update_self .., ?_, ?_, Function.update_self .., ?_⟩
    · rw [Function.update_of_ne hcb.symm, Function.update_self]
    · rw [Function.update_of_ne hbh, Function.update_self]
    · -- the rest of the chain is untouched: every update is at `b`, `head` or `c`
      exact (((h.2.2.update_next hbcl).update_next hhcl).update_prev
        (fun hm => hbcl (List.mem_cons_of_mem c hm)) hbh).update_prev hcl hch

/-- Moving a node of a circular list to the front, `unlink` then `pushFront`,
gives the circular list with that node first. -/
theorem IsCircular.unlink_pushFront {head b : ι} {l₁ l₂ : List ι}
    (h : IsCircular next prev head (l₁ ++ b :: l₂)) :
    IsCircular (pushFront (unlink next prev b).1 (unlink next prev b).2 head b).1
      (pushFront (unlink next prev b).1 (unlink next prev b).2 head b).2 head (b :: (l₁ ++ l₂)) := by
  obtain ⟨h₁, h₂⟩ := (links_append l₁ l₂).1 h.links
  have hnd' : (head :: b :: (l₁ ++ l₂)).Nodup :=
    h.nodup.perm (List.Perm.cons head List.perm_middle)
  obtain ⟨hhb, hbl, hl⟩ : head ∉ b :: (l₁ ++ l₂) ∧ b ∉ l₁ ++ l₂ ∧ (l₁ ++ l₂).Nodup := by
    rw [List.nodup_cons, List.nodup_cons] at hnd'
    exact ⟨hnd'.1, hnd'.2.1, hnd'.2.2⟩
  have hu := Links.unlink h₁ h₂ h.nodup (List.nodup_cons.1 h.nodup).1
  refine ⟨hu.pushFront ?_ ?_, hnd'⟩
  · rintro (_ | ⟨_, hm⟩)
    · exact hhb List.mem_cons_self
    · exact hbl hm
  · exact List.nodup_cons.2 ⟨fun hm => hhb (List.mem_cons_of_mem b hm), hl⟩

/-- Pushing distinct new nodes one after another onto the front of a circular
list leaves them in reverse order before the old nodes. -/
theorem IsCircular.foldl_pushFront {head : ι} {l : List ι} (xs : List ι)
    (h : IsCircular next prev head l) (hxs : (xs ++ head :: l).Nodup) :
    IsCircular (xs.foldl (fun nl x => pushFront nl.1 nl.2 head x) (next, prev)).1
      (xs.foldl (fun nl x => pushFront nl.1 nl.2 head x) (next, prev)).2 head (xs.reverse ++ l) := by
  induction xs generalizing next prev l with
  | nil => exact h
  | cons x xs ih =>
    -- push `x`, then the rest onto the list `x :: l`
    have hx : x ∉ head :: l :=
      fun hm => (List.nodup_cons.1 hxs).1 (List.mem_append_right xs hm)
    have hnd : (head :: x :: l).Nodup :=
      List.nodup_cons.2 ⟨fun hm => (List.nodup_cons.1 h.nodup).1 (by
        rcases List.mem_cons.1 hm with e | hm'
        · exact absurd (e ▸ List.mem_cons_self) hx
        · exact hm'), List.nodup_cons.2 ⟨fun hm => hx (List.mem_cons_of_mem head hm),
          (List.nodup_cons.1 h.nodup).2⟩⟩
    have hstep : IsCircular (pushFront next prev head x).1 (pushFront next prev head x).2 head
        (x :: l) := ⟨h.links.pushFront hx h.nodup, hnd⟩
    have hxs' : (xs ++ head :: x :: l).Nodup := by
      have hperm : List.Perm (xs ++ head :: x :: l) (x :: xs ++ head :: l) := by
        simpa using @List.perm_middle _ x (xs ++ [head]) l
      exact hxs.perm hperm.symm
    simpa using ih hstep hxs'

end Splice

/-! ## Scanning -/

/-- `for (x = start; x != head; x = step(x)) if (p(x)) return x;`, with `fuel`
bounding the number of iterations. -/
def scan [DecidableEq ι] (step : ι → ι) (head : ι) (p : ι → Bool) : Nat → ι → Option ι
  | 0, _ => none
  | fuel + 1, x => if x = head then none else if p x then some x else scan step head p fuel (step x)

section Scan

variable [DecidableEq ι] {next prev : ι → ι}

/-- What a scan returns passes the test and is not the sentinel. -/
theorem scan_spec {step : ι → ι} {head : ι} {p : ι → Bool} :
    ∀ {fuel : Nat} {x y : ι}, scan step head p fuel x = some y → p y = true ∧ y ≠ head
  | 0, _, _, h => by simp [scan] at h
  | fuel + 1, x, y, h => by
    unfold scan at h
    by_cases hx : x = head
    · simp [hx] at h
    · rw [if_neg hx] at h
      by_cases hp : p x = true
      · rw [if_pos hp] at h
        cases h
        exact ⟨hp, hx⟩
      · rw [if_neg hp] at h
        exact scan_spec h

/-- Scanning a chain that ends at the sentinel finds the first node of the chain
that satisfies the test, given more fuel than the chain has nodes. -/
theorem Links.scan_eq {a z : ι} {l : List ι} (p : ι → Bool) (h : Links next prev a l z)
    (hz : z ∉ l) {fuel : Nat} (hfuel : l.length < fuel) :
    scan next z p fuel (next a) = l.find? p := by
  induction l generalizing a fuel with
  | nil =>
    obtain ⟨f, rfl⟩ : ∃ f, fuel = f + 1 := ⟨fuel - 1, by simp at hfuel; omega⟩
    simp [scan, h.1]
  | cons b l ih =>
    obtain ⟨f, rfl⟩ : ∃ f, fuel = f + 1 := ⟨fuel - 1, by simp at hfuel; omega⟩
    have hbz : b ≠ z := fun e => hz (e ▸ List.mem_cons_self)
    have hrest := ih h.2.2 (fun hm => hz (List.mem_cons_of_mem b hm))
      (show l.length < f by simp at hfuel; omega)
    rw [h.1, scan, if_neg hbz, List.find?_cons, hrest]
    cases p b <;> rfl

/-- The forward scan from the sentinel is `find?` on the list. -/
theorem IsCircular.scan_next {head : ι} {l : List ι} (h : IsCircular next prev head l) (p : ι → Bool)
    {fuel : Nat} (hfuel : l.length < fuel) : scan next head p fuel (next head) = l.find? p :=
  h.links.scan_eq p (List.nodup_cons.1 h.nodup).1 hfuel

/-- The backward scan from the sentinel is `find?` on the reversed list. -/
theorem IsCircular.scan_prev {head : ι} {l : List ι} (h : IsCircular next prev head l) (p : ι → Bool)
    {fuel : Nat} (hfuel : l.length < fuel) : scan prev head p fuel (prev head) = l.reverse.find? p :=
  h.links.symm.scan_eq p (by simpa using (List.nodup_cons.1 h.nodup).1) (by simpa using hfuel)

end Scan

/-- In a list ordered by `r`, the last node satisfying `p` comes `r`-after every
other node satisfying `p`. -/
theorem find?_reverse_rel {r : ι → ι → Prop} {p : ι → Bool} {l : List ι} {x : ι}
    (hl : l.Pairwise r) (hx : l.reverse.find? p = some x) {y : ι} (hy : y ∈ l) (hpy : p y)
    (hne : y ≠ x) : r y x := by
  obtain ⟨-, as, bs, hrev, has⟩ := List.find?_eq_some_iff_append.1 hx
  -- `l` is `bs.reverse ++ x :: as.reverse`, and nothing of `as` passes the test
  have hl' : l = bs.reverse ++ x :: as.reverse := by
    rw [← List.reverse_reverse l, hrev]
    simp
  rw [hl'] at hl hy
  have hya : y ∉ as.reverse := fun hm => by simpa [hpy] using has y (List.mem_reverse.1 hm)
  rcases List.mem_append.1 hy with hb | hxa
  · exact (List.pairwise_append.1 hl).2.2 y hb x List.mem_cons_self
  · rcases List.mem_cons.1 hxa with e | hm
    · exact absurd e hne
    · exact absurd hm hya

end Dll
