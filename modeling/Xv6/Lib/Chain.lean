import Mathlib

/-
  Xv6/Lib/Chain.lean --- singly-linked lists threaded through the nodes.

  The links of such a list live in its nodes, as the `next` field of a C
  structure does: `next a` is the link stored in node `a`, and a distinguished
  `null` ends the list.  `Chain next null a l` says that following `next`
  from `a` visits the nodes of `l` in order and then reaches `null`.  A list
  that ends is acyclic: `null` is `l.length` links away
  (`Chain.iterate_length`) and no node comes twice (`Chain.nodup`).

  A stack of free blocks is written with two operations, and their lemmas say
  which list the links describe afterwards: a push stores the old head in the
  new node (`Chain.push`), a pop moves the head to the link of the first node,
  which may then be overwritten (`Chain.pop`).  A write to a node outside the
  list leaves the list as it was (`Chain.update_of_not_mem`).

  This module names nothing of the kernel.
-/

set_option autoImplicit false

namespace Sll

variable {α : Type*}

/-- Following `next` from `a` visits the nodes of `l` in order, then `null`. -/
inductive Chain (next : α → α) (null : α) : α → List α → Prop
  | nil : Chain next null null []
  | cons {a : α} {l : List α} : a ≠ null → Chain next null (next a) l → Chain next null a (a :: l)

variable {next : α → α} {null : α}

@[simp] theorem chain_nil_iff {a : α} : Chain next null a [] ↔ a = null :=
  ⟨fun h => by cases h; rfl, fun h => h ▸ .nil⟩

@[simp] theorem chain_cons_iff {a b : α} {l : List α} :
    Chain next null a (b :: l) ↔ a = b ∧ b ≠ null ∧ Chain next null (next b) l := by
  constructor
  · rintro (_ | ⟨hb, hl⟩)
    exact ⟨rfl, hb, hl⟩
  · rintro ⟨rfl, hb, hl⟩
    exact .cons hb hl

/-- A list is empty exactly when its head is `null`. -/
theorem Chain.eq_nil_iff {a : α} {l : List α} (h : Chain next null a l) : l = [] ↔ a = null := by
  cases h with
  | nil => simp
  | cons ha _ => simp [ha]

/-- The links from a node determine the list. -/
theorem Chain.unique {a : α} {l l' : List α} (h : Chain next null a l) (h' : Chain next null a l') :
    l = l' := by
  induction h generalizing l' with
  | nil => exact ((h'.eq_nil_iff).2 rfl).symm
  | cons ha _ ih =>
    cases h' with
    | nil => exact absurd rfl ha
    | cons _ hl' => rw [ih hl']

/-- The list from a node of the list is the rest of the list from that node. -/
theorem Chain.of_append {a b : α} {l₁ l₂ : List α} (h : Chain next null a (l₁ ++ b :: l₂)) :
    Chain next null b (b :: l₂) := by
  induction l₁ generalizing a with
  | nil =>
    rw [List.nil_append] at h
    obtain ⟨rfl, -, -⟩ := chain_cons_iff.1 h
    exact h
  | cons c l₁ ih =>
    rw [List.cons_append, chain_cons_iff] at h
    exact ih h.2.2

/-- A list that ends visits no node twice: from a repeated node the links
would give two lists of different lengths. -/
theorem Chain.nodup {a : α} {l : List α} (h : Chain next null a l) : l.Nodup := by
  induction h with
  | nil => exact List.nodup_nil
  | @cons a l ha hl ih =>
    refine List.nodup_cons.2 ⟨fun hmem => ?_, ih⟩
    obtain ⟨l₁, l₂, rfl⟩ := List.append_of_mem hmem
    have hlen := congrArg List.length ((Chain.cons ha hl).unique hl.of_append)
    simp at hlen
    omega

/-- Following `l.length` links from the head reaches `null`. -/
theorem Chain.iterate_length {a : α} {l : List α} (h : Chain next null a l) :
    next^[l.length] a = null := by
  induction h with
  | nil => rfl
  | cons _ _ ih => rwa [List.length_cons, Function.iterate_succ_apply]

/-! ## Writes to the nodes -/

section Update

variable [DecidableEq α]

/-- A write to a node outside the list leaves the list as it was. -/
theorem Chain.update_of_not_mem {a x v : α} {l : List α} (h : Chain next null a l) (hx : x ∉ l) :
    Chain (Function.update next x v) null a l := by
  induction h with
  | nil => exact .nil
  | @cons a l ha _ ih =>
    have hax : a ≠ x := fun hax => hx (hax ▸ List.mem_cons_self)
    refine .cons ha ?_
    rw [Function.update_of_ne hax]
    exact ih fun hxl => hx (List.mem_cons_of_mem _ hxl)

/-- Push: a node outside the list that stores the old head heads a list one
longer. -/
theorem Chain.push {a x : α} {l : List α} (h : Chain next null a l) (hx : x ≠ null) (hxl : x ∉ l) :
    Chain (Function.update next x a) null x (x :: l) := by
  refine .cons hx ?_
  rw [Function.update_self]
  exact h.update_of_not_mem hxl

/-- Pop: the link of the first node heads the rest of the list, whatever is
written to the first node afterwards. -/
theorem Chain.pop {a b : α} {l : List α} (h : Chain next null a (b :: l)) (v : α) :
    Chain (Function.update next b v) null (next b) l := by
  have hb : b ∉ l := (List.nodup_cons.1 h.nodup).1
  rw [chain_cons_iff] at h
  exact h.2.2.update_of_not_mem hb

end Update

end Sll
