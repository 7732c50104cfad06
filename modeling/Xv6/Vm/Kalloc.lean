import Mathlib
import Xv6.Lib.Chain
import Xv6.Lib.Machine
import Xv6.Vm.Riscv

/-
  Xv6/Vm/Kalloc.lean --- kernel/kalloc.c: the physical page allocator.

  The free pages form a stack threaded through the pages themselves: the
  first word of a free page is its `struct run`, whose `next` is the next free
  page, 0 at the end.  The model keeps the first word of every page
  (`Kmem.word`) and `kmem.freelist`.  `kfree` fills the page with 1s and then
  writes the link; `kalloc` pops the head and fills it with 5s; of each fill
  only the first word is read again.  The lock orders nothing here: each call
  is one atomic step.

  `end`, the first address after the kernel, is a parameter `kend`; the
  kernel is linked at `KERNBASE`, so it is not 0.  The pages the allocator
  hands out are the page-aligned addresses from `PGROUNDUP(end)` below
  `PHYSTOP` (`Managed`).  A run (`KRun`) is `kinit` from any memory contents
  followed by `kalloc` and `kfree` calls, each `kfree` of a page handed out
  and not freed since; it carries those pages as a ghost set.

  Every reachable state has a free list (`Partition`) that is a finite chain
  of links, so acyclic and without repeats, and that together with the pages
  handed out, and apart from them, makes up the managed pages
  (`KRun.partition`).  `kfree` of a page handed out never panics, and `kalloc`
  returns 0 only on an empty list.
-/

set_option autoImplicit false

namespace Xv6.Vm

open Machine Sll

/-- `KERNBASE`. -/
def kernBase : Nat := 0x80000000

/-- `PHYSTOP`: the end of the RAM the kernel uses. -/
def phystop : Nat := kernBase + 128 * 1024 * 1024

/-- The first word of a page after `memset(pa, b, PGSIZE)`. -/
def junk (b : Nat) : Nat := b * 0x0101010101010101

/-- `kmem`: the first word of every page, and the head of the free list. -/
structure Kmem where
  word : Nat → Nat
  freelist : Nat

/-- `kfree(pa)`: a panic on an address that is not a page from `end` up to
`PHYSTOP`; otherwise the page, filled with 1s, pushed on the free list. -/
def kfree (kend : Nat) (m : Kmem) (pa : Nat) : Result Kmem :=
  if pa % pgSize ≠ 0 ∨ pa < kend ∨ pa ≥ phystop then .panic "kfree"
  else
    -- memset(pa, 1, PGSIZE); r->next = kmem.freelist; kmem.freelist = r
    let word := Function.update m.word pa (junk 1)
    .ok ⟨Function.update word pa m.freelist, pa⟩

/-- `kalloc()`: the head of the free list, popped and filled with 5s, and the
state after; 0 on an empty list. -/
def kalloc (m : Kmem) : Kmem × Nat :=
  let r := m.freelist
  if r ≠ 0 then
    -- kmem.freelist = r->next; memset(r, 5, PGSIZE)
    (⟨Function.update m.word r (junk 5), m.word r⟩, r)
  else (m, r)

/-- The loop of `freerange`: `kfree(p)` and `p += PGSIZE` while
`p + PGSIZE <= pa_end`. -/
def freerangeLoop (kend paEnd : Nat) (m : Kmem) (p : Nat) : Result Kmem :=
  if p + pgSize ≤ paEnd then do
    let m ← kfree kend m p
    freerangeLoop kend paEnd m (p + pgSize)
  else .ok m
termination_by paEnd - p
decreasing_by unfold pgSize at *; omega

/-- `freerange(pa_start, pa_end)`, from the first page boundary at or after
`pa_start`. -/
def freerange (kend paStart paEnd : Nat) (m : Kmem) : Result Kmem :=
  freerangeLoop kend paEnd m (pgRoundUp paStart)

/-- `kinit()` over memory holding `word`: `kmem.freelist`, a static
variable, starts at 0. -/
def kinit (kend : Nat) (word : Nat → Nat) : Result Kmem :=
  freerange kend kend phystop ⟨word, 0⟩

/-- The pages the allocator hands out. -/
def Managed (kend p : Nat) : Prop := p % pgSize = 0 ∧ pgRoundUp kend ≤ p ∧ p < phystop

instance (kend p : Nat) : Decidable (Managed kend p) := inferInstanceAs (Decidable (_ ∧ _ ∧ _))

/-- The calls from `kinit` on, with the pages handed out and not freed since:
`kfree` is called only on those. -/
inductive KRun (kend : Nat) : Kmem → Finset Nat → Prop
  | kinit {word : Nat → Nat} {m : Kmem} : kinit kend word = .ok m → KRun kend m ∅
  | kalloc {m : Kmem} {A : Finset Nat} :
      KRun kend m A → KRun kend (kalloc m).1 (if (kalloc m).2 = 0 then A else insert (kalloc m).2 A)
  | kfree {m m' : Kmem} {A : Finset Nat} {pa : Nat} :
      KRun kend m A → pa ∈ A → kfree kend m pa = .ok m' → KRun kend m' (A.erase pa)

/-- The allocator's invariant, with `l` the free list and `A` the pages handed
out: the links from `freelist` end after `l`, and `l` and `A` are apart and
together make up the managed pages. -/
structure Partition (kend : Nat) (m : Kmem) (A : Finset Nat) (l : List Nat) : Prop where
  chain : Chain m.word 0 m.freelist l
  cover : ∀ p, Managed kend p ↔ p ∈ l ∨ p ∈ A
  apart : ∀ p ∈ l, p ∉ A

/-! ## kfree and kalloc -/

/-- `kfree` of a managed page does not panic: the page goes on the front of
the list. -/
theorem kfree_of_managed {kend : Nat} (m : Kmem) {pa : Nat} (hpa : Managed kend pa) :
    kfree kend m pa = .ok ⟨Function.update m.word pa m.freelist, pa⟩ := by
  obtain ⟨hal, hlo, hhi⟩ := hpa
  have hge : kend ≤ pa := (le_pgRoundUp kend).trans hlo
  rw [kfree, if_neg (by omega)]
  dsimp only
  rw [Function.update_idem]

section Calls

variable {kend : Nat} (hend : 0 < kend)
include hend

/-- A managed page is not the null pointer. -/
theorem Managed.ne_zero {pa : Nat} (hpa : Managed kend pa) : pa ≠ 0 := by
  have := le_pgRoundUp kend
  have := hpa.2.1
  omega

/-- `kfree` of a page handed out keeps the invariant, with the page on the
front of the free list and no longer handed out. -/
theorem Partition.kfree {m : Kmem} {A : Finset Nat} {l : List Nat} (hp : Partition kend m A l)
    {pa : Nat} (hpa : pa ∈ A) :
    ∃ m', kfree kend m pa = .ok m' ∧ Partition kend m' (A.erase pa) (pa :: l) := by
  have hman : Managed kend pa := (hp.cover pa).2 (.inr hpa)
  have hnot : pa ∉ l := fun h => hp.apart pa h hpa
  refine ⟨_, kfree_of_managed m hman, ⟨hp.chain.push (hman.ne_zero hend) hnot, fun p => ?_, ?_⟩⟩
  · rw [hp.cover p, List.mem_cons, Finset.mem_erase]
    by_cases hp' : p = pa
    · subst hp'
      simp [hpa]
    · simp [hp']
  · intro p hp' hpA
    rcases List.mem_cons.1 hp' with rfl | hp'
    · exact (Finset.notMem_erase p A) hpA
    · exact hp.apart p hp' (Finset.mem_of_mem_erase hpA)

end Calls

/-- On an empty free list `kalloc` returns 0 and changes nothing. -/
theorem Partition.kalloc_nil {kend : Nat} {m : Kmem} {A : Finset Nat} (hp : Partition kend m A []) :
    kalloc m = (m, 0) := by
  have h0 : m.freelist = 0 := chain_nil_iff.1 hp.chain
  simp [kalloc, h0]

/-- On a free list starting with `r`, `kalloc` returns `r`, a page not handed
out, and keeps the invariant with `r` handed out and off the list. -/
theorem Partition.kalloc_cons {kend : Nat} {m : Kmem} {A : Finset Nat} {r : Nat} {l : List Nat}
    (hp : Partition kend m A (r :: l)) :
    r ≠ 0 ∧ r ∉ A ∧ (kalloc m).2 = r ∧ Partition kend (kalloc m).1 (insert r A) l := by
  obtain ⟨hhead, hr, -⟩ := chain_cons_iff.1 hp.chain
  have hnodup := List.nodup_cons.1 hp.chain.nodup
  have hk : kalloc m = (⟨Function.update m.word r (junk 5), m.word r⟩, r) := by
    simp [kalloc, hhead, hr]
  refine ⟨hr, hp.apart r List.mem_cons_self, by rw [hk], ?_⟩
  rw [hk]
  refine ⟨?_, fun p => ?_, fun p hp' => ?_⟩
  · exact (hhead ▸ hp.chain).pop (junk 5)
  · rw [hp.cover p, List.mem_cons, Finset.mem_insert]
    tauto
  · rw [Finset.mem_insert, not_or]
    exact ⟨fun h => hnodup.1 (h ▸ hp'), hp.apart p (List.mem_cons_of_mem r hp')⟩

/-! ## kinit -/

section Kinit

variable {kend : Nat} (hend : 0 < kend)
include hend

/-- The loop of `freerange` from a page boundary `p` at or after
`PGROUNDUP(end)`, with the managed pages below `p` on the free list: it does
not panic, and ends with every managed page on the list. -/
theorem freerangeLoop_partition (m : Kmem) (p : Nat) (hal : p % pgSize = 0) (hlo : pgRoundUp kend ≤ p)
    {l : List Nat} (hch : Chain m.word 0 m.freelist l) (hl : ∀ q, q ∈ l ↔ Managed kend q ∧ q < p) :
    ∃ m', freerangeLoop kend phystop m p = .ok m' ∧ ∃ l', Partition kend m' ∅ l' := by
  induction m, p using freerangeLoop.induct phystop generalizing l with
  | case1 m p hp ih =>
    -- one more page: it is managed, and goes on the front of the list
    have hman : Managed kend p := ⟨hal, hlo, by unfold pgSize at hp; omega⟩
    have hnot : p ∉ l := fun h => by have := ((hl p).1 h).2; omega
    rw [freerangeLoop, if_pos hp, kfree_of_managed m hman, Result.ok_bind]
    refine ih _ (by unfold pgSize at *; omega) (by omega) (hch.push (hman.ne_zero hend) hnot) fun q => ?_
    rw [List.mem_cons, hl q]
    constructor
    · rintro (rfl | ⟨hq, hlt⟩)
      · exact ⟨hman, by unfold pgSize; omega⟩
      · exact ⟨hq, by omega⟩
    · rintro ⟨hq, hlt⟩
      by_cases hqp : q = p
      · exact .inl hqp
      · -- a page boundary below the next one is at most `p`
        have : q < p := by
          have hq1 := hq.1
          unfold pgSize at *
          omega
        exact .inr ⟨hq, this⟩
  | case2 m p hp =>
    -- the loop stops at `PHYSTOP`, so every managed page is below `p`
    rw [freerangeLoop, if_neg hp]
    refine ⟨m, rfl, l, hch, fun q => ?_, fun _ _ h => absurd h (Finset.notMem_empty _)⟩
    rw [hl q]
    have hend' : phystop % pgSize = 0 := by decide
    constructor
    · intro hq
      refine .inl ⟨hq, ?_⟩
      have := hq.2.2
      unfold pgSize at *
      omega
    · rintro (⟨hq, -⟩ | h)
      · exact hq
      · exact absurd h (Finset.notMem_empty _)

/-- `kinit` does not panic, and leaves every managed page on the free list. -/
theorem kinit_partition (word : Nat → Nat) :
    ∃ m, kinit kend word = .ok m ∧ ∃ l, Partition kend m ∅ l :=
  freerangeLoop_partition hend _ _ (pgRoundUp_mod kend) le_rfl .nil
    fun q => ⟨fun h => absurd h List.not_mem_nil, fun ⟨hq, hlt⟩ => absurd hq.2.1 (by omega)⟩

end Kinit

/-! ## Runs -/

/-- Every state of a run has a free list that, with the pages handed out,
partitions the managed pages. -/
theorem KRun.partition {kend : Nat} (hend : 0 < kend) {m : Kmem} {A : Finset Nat} (h : KRun kend m A) :
    ∃ l, Partition kend m A l := by
  induction h with
  | kinit hk =>
    obtain ⟨m', hk', hp⟩ := kinit_partition hend _
    rw [hk] at hk'
    cases hk'
    exact hp
  | @kalloc m A _ ih =>
    obtain ⟨l, hp⟩ := ih
    cases l with
    | nil => exact ⟨[], by simpa [hp.kalloc_nil] using hp⟩
    | cons r l =>
      obtain ⟨hr, -, hret, hp'⟩ := hp.kalloc_cons
      exact ⟨l, by simpa [hret, hr] using hp'⟩
  | kfree _ hpa hk ih =>
    obtain ⟨l, hp⟩ := ih
    obtain ⟨m', hk', hp'⟩ := hp.kfree hend hpa
    rw [hk] at hk'
    cases hk'
    exact ⟨_, hp'⟩

/-- The page allocator, for every `end` above 0: `kinit` does not panic from
any memory, and in every state of a run the free list is a chain of links
that ends, so acyclic with pairwise distinct pages; its pages are page-aligned
from `PGROUNDUP(end)` below `PHYSTOP`; they and the pages handed out are
apart and together make up those pages; `kfree` of a page handed out does
not panic; and `kalloc` returns 0 only on an empty list, and otherwise a page
not handed out. -/
theorem kalloc_kfree_partition {kend : Nat} (hend : 0 < kend) :
    (∀ word, ∃ m, kinit kend word = .ok m) ∧
    ∀ m A, KRun kend m A → ∃ l, Chain m.word 0 m.freelist l ∧ l.Nodup ∧
      (∀ p ∈ l, p % pgSize = 0 ∧ pgRoundUp kend ≤ p ∧ p < phystop) ∧
      (∀ p, Managed kend p ↔ p ∈ l ∨ p ∈ A) ∧ (∀ p ∈ l, p ∉ A) ∧
      (∀ pa ∈ A, ∃ m', kfree kend m pa = .ok m') ∧
      ((kalloc m).2 = 0 ↔ l = []) ∧ ((kalloc m).2 ≠ 0 → (kalloc m).2 ∉ A) := by
  refine ⟨fun word => (kinit_partition hend word).imp fun _ h => h.1, fun m A h => ?_⟩
  obtain ⟨l, hp⟩ := h.partition hend
  refine ⟨l, hp.chain, hp.chain.nodup, fun p hp' => (hp.cover p).2 (.inl hp'), hp.cover, hp.apart,
    fun pa hpa => (hp.kfree hend hpa).imp fun _ h => h.1, ?_⟩
  cases l with
  | nil => simp [hp.kalloc_nil]
  | cons r l =>
    obtain ⟨hr, hrA, hret, -⟩ := hp.kalloc_cons
    simp [hret, hr, hrA]

/-- The allocator with `end` one page below `PHYSTOP`. -/
theorem kalloc_kfree_partition_last_page :
    0 < phystop - pgSize ∧ ((∀ word, ∃ m, kinit (phystop - pgSize) word = .ok m) ∧
      ∀ m A, KRun (phystop - pgSize) m A → ∃ l, Chain m.word 0 m.freelist l ∧ l.Nodup ∧
        (∀ p ∈ l, p % pgSize = 0 ∧ pgRoundUp (phystop - pgSize) ≤ p ∧ p < phystop) ∧
        (∀ p, Managed (phystop - pgSize) p ↔ p ∈ l ∨ p ∈ A) ∧ (∀ p ∈ l, p ∉ A) ∧
        (∀ pa ∈ A, ∃ m', kfree (phystop - pgSize) m pa = .ok m') ∧
        ((kalloc m).2 = 0 ↔ l = []) ∧ ((kalloc m).2 ≠ 0 → (kalloc m).2 ∉ A)) :=
  ⟨by decide, kalloc_kfree_partition (by decide)⟩

end Xv6.Vm
