import Xv6.Vm.Walk
import Xv6.Vm.Kalloc
import Xv6.Lib.Machine

/-
  Xv6/Vm/Map.lean --- building page tables: `walk` with allocation,
  `mappages` and `uvmcreate` (kernel/vm.c).

  MEMORY.  The page-table pages are read and written in the byte memory of
  `Walk.lean`.  The allocator's free list is the `Kmem` of `Kalloc.lean`: the
  first words of the free pages, which nothing but `kalloc` and `kfree` reads.
  A page `kalloc` hands to `walk` is zeroed by `memset` before it is read, so
  the 5s `kalloc` fills it with are not kept.  `perm` is the `int` argument as
  the 64-bit value it is or-ed as; `size`, `va`, `pa`, `a` and `last` are
  `uint64`, so `va + size - 1` and `pa += PGSIZE` are taken modulo 2^64.

  THE TREE.  `PtTree` says what `walk` keeps: the root is a table of level 2;
  every valid PTE of a table of level `l + 1` points to a table of level `l`;
  no two valid PTEs of the upper levels point to the same table; tables are
  page-aligned.  Writes to memory outside the tables change no walk
  (`PtTree.walkLevels_congr`); `walk` links only fresh zeroed pages at invalid PTEs, so
  it changes no translation (`walkAllocLevels_spec`); and two pages whose
  walks end at the same PTE are the same page (`PtTree.walkLevels_inj`).

  `mappages` maps page after page: each one it maps had no valid leaf before,
  now has `PA2PTE(pa) | perm | PTE_V`, and no other page's translation changes
  (`mappagesLoop_spec`).  `ptSystem` is a page table made by `uvmcreate` with
  `mappages` calls on it and, between them, other kernel code calling
  `kalloc`, `kfree` and writing to pages of its own.
-/

set_option autoImplicit false

namespace Xv6.Vm

open Memory Machine

/-! ## The source -/

/-- The loop of `walk(pagetable, va, 1)` from `level` down: through a valid PTE
to the next table; at an invalid one, a page from `kalloc`, zeroed and linked
in as the next table.  The state after, and the address of the leaf PTE or
`none` (C's 0) when `kalloc` has no page. -/
def walkAllocLevels (va : Nat) : Nat → Kmem → Mem → Nat → (Kmem × Mem) × Option Nat
  | 0, km, m, pt => ((km, m), some (pt + 8 * px 0 va))
  | level + 1, km, m, pt =>
    if hasFlag (pteAt m pt (px (level + 1) va)) pteV then
      walkAllocLevels va level km m (pte2pa (pteAt m pt (px (level + 1) va)))
    else if (kalloc km).2 = 0 then (((kalloc km).1, m), none)
    else
      -- memset(pagetable, 0, PGSIZE); *pte = PA2PTE(pagetable) | PTE_V
      walkAllocLevels va level (kalloc km).1
        (storeLE (memset m (kalloc km).2 0 pgSize) (pt + 8 * px (level + 1) va) (pa2pte (kalloc km).2 ||| pteV) 8)
        (kalloc km).2

/-- `walk(pagetable, va, 1)`: `panic("walk")` for `va >= MAXVA`. -/
def walkAlloc (km : Kmem) (m : Mem) (pagetable va : Nat) : Except String ((Kmem × Mem) × Option Nat) :=
  if va ≥ maxVa then .error "walk" else .ok (walkAllocLevels va 2 km m pagetable)

theorem walkAlloc_lt {km : Kmem} {m : Mem} {pagetable va : Nat} {r : (Kmem × Mem) × Option Nat}
    (h : walkAlloc km m pagetable va = .ok r) : va < maxVa := by
  unfold walkAlloc at h
  by_contra hva
  rw [if_pos (Nat.le_of_not_lt hva)] at h
  cases h

/-- The loop of `mappages` from page `a` and physical page `pa`: `walk` to the
leaf PTE, panic on a valid one, write `PA2PTE(pa) | perm | PTE_V`, and stop
after `last` or go on with the next page. -/
def mappagesLoop (last perm pagetable : Nat) (km : Kmem) (m : Mem) (a pa : Nat) :
    Except String (Kmem × Mem × Int) :=
  match h : walkAlloc km m pagetable a with
  | .error e => .error e
  | .ok ((km', m'), none) => .ok (km', m', -1)
  | .ok ((km', m'), some pte) =>
    if hasFlag (loadLE m' pte 8) pteV then .error "mappages: remap"
    else if a = last then .ok (km', storeLE m' pte (pa2pte pa ||| perm ||| pteV) 8, 0)
    else
      mappagesLoop last perm pagetable km' (storeLE m' pte (pa2pte pa ||| perm ||| pteV) 8) (a + pgSize)
        ((pa + pgSize) % 2 ^ 64)
termination_by maxVa - a
decreasing_by
  have := walkAlloc_lt h
  unfold pgSize
  omega

/-- `mappages(pagetable, va, size, pa, perm)`: the allocator and memory after,
and 0, or -1 when `walk` found no page for a table. -/
def mappages (km : Kmem) (m : Mem) (pagetable va size pa perm : Nat) : Except String (Kmem × Mem × Int) :=
  if size = 0 then .error "mappages: size"
  else mappagesLoop (pgRoundDown ((va + size - 1) % 2 ^ 64)) perm pagetable km m (pgRoundDown va) pa

/-- `uvmcreate()`: a zeroed page from `kalloc` as an empty page table, or 0. -/
def uvmcreate (km : Kmem) (m : Mem) : Kmem × Mem × Nat :=
  if (kalloc km).2 = 0 then ((kalloc km).1, m, 0)
  else ((kalloc km).1, memset m (kalloc km).2 0 pgSize, (kalloc km).2)

/-- What the page of `va` maps to through the table `pt` at `level`: the leaf
PTE the walk reaches, when it is valid. -/
def leafPte (m : Mem) (va level pt : Nat) : Option Nat :=
  match walkLevels m va level pt with
  | some pte => if hasFlag (loadLE m pte 8) pteV then some (loadLE m pte 8) else none
  | none => none

theorem leafPte_zero (m : Mem) (va pt : Nat) :
    leafPte m va 0 pt =
      if hasFlag (pteAt m pt (px 0 va)) pteV then some (pteAt m pt (px 0 va)) else none := rfl

theorem leafPte_succ (m : Mem) (va level pt : Nat) :
    leafPte m va (level + 1) pt =
      if hasFlag (pteAt m pt (px (level + 1) va)) pteV then
        leafPte m va level (pte2pa (pteAt m pt (px (level + 1) va)))
      else none := by
  unfold leafPte
  rw [walkLevels]
  split_ifs <;> rfl

/-! ## Slots and PTEs -/

/-- Two PTE slots of page-aligned tables are one slot or do not overlap. -/
theorem slot_apart {t t' i i' : Nat} (ht : t % pgSize = 0) (ht' : t' % pgSize = 0) (hi : i < 512)
    (hi' : i' < 512) (hne : t ≠ t' ∨ i ≠ i') : t + 8 * i + 8 ≤ t' + 8 * i' ∨ t' + 8 * i' + 8 ≤ t + 8 * i := by
  unfold pgSize at ht ht'
  omega

theorem slot_inj {t t' i i' : Nat} (ht : t % pgSize = 0) (ht' : t' % pgSize = 0) (hi : i < 512)
    (hi' : i' < 512) (h : t + 8 * i = t' + 8 * i') : t = t' ∧ i = i' := by
  unfold pgSize at ht ht'
  omega

/-- A slot of a table lies outside every other page. -/
theorem slot_outside {t p i : Nat} (ht : t % pgSize = 0) (hp : p % pgSize = 0) (hi : i < 512) (hne : t ≠ p) :
    t + 8 * i + 8 ≤ p ∨ p + pgSize ≤ t + 8 * i := by
  unfold pgSize at *
  omega

theorem pteAt_storeLE_self (m : Mem) (t i v : Nat) : pteAt (storeLE m (t + 8 * i) v 8) t i = v % 2 ^ 64 :=
  loadLE_storeLE m _ v 8

theorem pteAt_storeLE_of_apart (m : Mem) {a v t i : Nat} (h : a + 8 ≤ t + 8 * i ∨ t + 8 * i + 8 ≤ a) :
    pteAt (storeLE m a v 8) t i = pteAt m t i :=
  loadLE_congr _ _ _ _ fun _ h₁ h₂ => storeLE_of_lt_or_le _ _ _ _ (by omega)

theorem pteAt_memset_of_apart (m : Mem) {p n t i : Nat} (c : UInt8) (h : p + n ≤ t + 8 * i ∨ t + 8 * i + 8 ≤ p) :
    pteAt (memset m p c n) t i = pteAt m t i :=
  loadLE_congr _ _ _ _ fun _ h₁ h₂ => memset_of_lt_or_le _ _ _ _ (by omega)

/-- Every PTE of a page `memset` to 0 is 0. -/
theorem pteAt_memset_zero (m : Mem) (p : Nat) {i : Nat} (hi : i < 512) : pteAt (memset m p 0 pgSize) p i = 0 :=
  loadLE_of_zero _ _ _ fun j hj => memset_of_mem _ _ _ _ (by omega) (by unfold pgSize; omega)

/-- A PTE made of a page number and flags below bit 10. -/
theorem pa2pte_or (pa f : Nat) (hf : f < 2 ^ 10) : pa2pte pa ||| f = pa / pgSize * 1024 + f := by
  unfold pa2pte pgSize
  rw [← Nat.shiftLeft_add_eq_or_of_lt hf, Nat.shiftLeft_eq, Nat.shiftRight_eq_div_pow]

theorem pte2pa_pa2pte_or (pa f : Nat) (hf : f < 2 ^ 10) : pte2pa (pa2pte pa ||| f) = pgRoundDown pa := by
  rw [pa2pte_or pa f hf]
  unfold pte2pa pgRoundDown pgSize
  rw [Nat.shiftLeft_eq, Nat.shiftRight_eq_div_pow]
  omega

theorem pteFlags_pa2pte_or (pa f : Nat) (hf : f < 2 ^ 10) : pteFlags (pa2pte pa ||| f) = f := by
  rw [pa2pte_or pa f hf]
  unfold pteFlags
  rw [show (0x3FF : Nat) = 2 ^ 10 - 1 from rfl, Nat.and_two_pow_sub_one_eq_mod]
  omega

/-- A flag below bit 10 of such a PTE is the flag of its low bits. -/
theorem hasFlag_pa2pte_or (pa f flag : Nat) (hf : f < 2 ^ 10) (hflag : flag < 2 ^ 10) :
    hasFlag (pa2pte pa ||| f) flag = hasFlag f flag := by
  have hlow : ∀ x, x &&& flag = (x % 2 ^ 10) &&& flag := fun x => by
    rw [← Nat.mod_eq_of_lt (Nat.and_lt_two_pow x hflag), Nat.and_mod_two_pow, Nat.mod_eq_of_lt hflag]
  have hmod : (pa / pgSize * 1024 + f) % 2 ^ 10 = f % 2 ^ 10 := by omega
  unfold hasFlag
  rw [hlow, hlow f, pa2pte_or pa f hf, hmod]

theorem pa2pte_or_lt (pa f : Nat) (hpa : pa < 2 ^ 64) (hf : f < 2 ^ 10) : pa2pte pa ||| f < 2 ^ 64 := by
  rw [pa2pte_or pa f hf]
  unfold pgSize
  omega

/-- The flag bits `mappages` writes. -/
theorem perm_or_lt {perm : Nat} (hperm : perm < 2 ^ 10) : perm ||| pteV < 2 ^ 10 :=
  Nat.or_lt_two_pow hperm (by decide)

/-- The PTE of a table page `walk` links in. -/
theorem pte2pa_link {p : Nat} (hp : p % pgSize = 0) : pte2pa (pa2pte p ||| pteV) = p := by
  rw [pte2pa_pa2pte_or p pteV (by decide), pgRoundDown_of_mod_eq_zero hp]

theorem hasFlag_link (p : Nat) : hasFlag (pa2pte p ||| pteV) pteV = true := by
  rw [hasFlag_pa2pte_or p pteV pteV (by decide) (by decide)]
  decide

theorem hasFlag_zero (flag : Nat) : hasFlag 0 flag = false := by
  simp [hasFlag]

/-! ## Pages and indices -/

/-- `PX(level, va)` is a digit of the page number of `va` in base 512. -/
theorem px_eq_div (level va : Nat) : px level va = va / pgSize / 2 ^ (9 * level) % 512 := by
  unfold px pgSize
  rw [Nat.shiftRight_eq_div_pow, show (0x1FF : Nat) = 2 ^ 9 - 1 from rfl, Nat.and_two_pow_sub_one_eq_mod,
    Nat.pow_add, ← Nat.div_div_eq_div_mul]

theorem px_eq_of_pgRoundDown {va va' : Nat} (h : pgRoundDown va = pgRoundDown va') (level : Nat) :
    px level va = px level va' := by
  have hdiv : va / pgSize = va' / pgSize :=
    Nat.eq_of_mul_eq_mul_right (by unfold pgSize; omega) h
  rw [px_eq_div, px_eq_div, hdiv]

/-- Below `MAXVA` the three indices make up the page. -/
theorem pgRoundDown_eq_of_px {va va' : Nat} (hva : va < maxVa) (hva' : va' < maxVa)
    (h : ∀ l ≤ 2, px l va = px l va') : pgRoundDown va = pgRoundDown va' := by
  have h₀ := h 0 (by omega)
  have h₁ := h 1 (by omega)
  have h₂ := h 2 (by omega)
  rw [px_eq_div, px_eq_div] at h₀ h₁ h₂
  have hmax : maxVa = 2 ^ 38 := rfl
  unfold pgRoundDown
  unfold pgSize at *
  simp only [Nat.pow_zero, Nat.div_one, Nat.mul_one, Nat.mul_zero] at h₀ h₁ h₂
  omega

/-- A walk reads `va` only through its three indices. -/
theorem walkLevels_px_congr {m : Mem} {va va' : Nat} (h : ∀ l, px l va = px l va') :
    ∀ level pt, walkLevels m va level pt = walkLevels m va' level pt := by
  intro level
  induction level with
  | zero => intro pt; rw [walkLevels, walkLevels, h 0]
  | succ level ih => intro pt; rw [walkLevels, walkLevels, h (level + 1), ih]

theorem leafPte_px_congr {m : Mem} {va va' : Nat} (h : ∀ l, px l va = px l va') (level pt : Nat) :
    leafPte m va level pt = leafPte m va' level pt := by
  unfold leafPte
  rw [walkLevels_px_congr h]

/-! ## The tree of tables -/

/-- The page-table pages under `root` and their levels `lv`, as `walk` builds
them: the root at level 2, every valid PTE of a table of level `l + 1` to a
table of level `l`, and no table pointed to from two PTEs. -/
structure PtTree (m : Mem) (root : Nat) (lv : Nat → Option Nat) : Prop where
  root : lv root = some 2
  aligned : ∀ t l, lv t = some l → t % pgSize = 0
  child : ∀ t l, lv t = some (l + 1) → ∀ i < 512, hasFlag (pteAt m t i) pteV →
    lv (pte2pa (pteAt m t i)) = some l
  unique : ∀ t l t' l' i i', lv t = some (l + 1) → lv t' = some (l' + 1) → i < 512 → i' < 512 →
    hasFlag (pteAt m t i) pteV → hasFlag (pteAt m t' i') pteV →
    pte2pa (pteAt m t i) = pte2pa (pteAt m t' i') → t = t' ∧ i = i'

/-- `m'` has the PTEs of `m` in the tables of level `lo` and up. -/
def SameTables (lv : Nat → Option Nat) (lo : Nat) (m m' : Mem) : Prop :=
  ∀ t l, lv t = some l → lo ≤ l → ∀ i < 512, pteAt m' t i = pteAt m t i

theorem SameTables.refl (lv : Nat → Option Nat) (lo : Nat) (m : Mem) : SameTables lv lo m m :=
  fun _ _ _ _ _ _ => rfl

theorem SameTables.mono {lv : Nat → Option Nat} {lo lo' : Nat} {m m' : Mem} (h : SameTables lv lo m m')
    (hle : lo ≤ lo') : SameTables lv lo' m m' :=
  fun t l ht hl i hi => h t l ht (hle.trans hl) i hi

section Tree

variable {m m' : Mem} {root : Nat} {lv : Nat → Option Nat}

/-- The tree reads only the PTEs of the upper tables. -/
theorem PtTree.congr (ht : PtTree m root lv) (hs : SameTables lv 1 m m') : PtTree m' root lv where
  root := ht.root
  aligned := ht.aligned
  child t l hl i hi hv := by
    rw [hs t _ hl (by omega) i hi] at hv ⊢
    exact ht.child t l hl i hi hv
  unique t l t' l' i i' hl hl' hi hi' hv hv' heq := by
    rw [hs t _ hl (by omega) i hi] at hv heq
    rw [hs t' _ hl' (by omega) i' hi'] at hv' heq
    exact ht.unique t l t' l' i i' hl hl' hi hi' hv hv' heq

/-- A walk from a table reads only the PTEs of the upper tables. -/
theorem PtTree.walkLevels_congr (ht : PtTree m root lv) (hs : SameTables lv 1 m m') (va : Nat) :
    ∀ level t, lv t = some level → walkLevels m' va level t = walkLevels m va level t := by
  intro level
  induction level with
  | zero => intro t _; rfl
  | succ level ih =>
    intro t hl
    rw [walkLevels, walkLevels, hs t _ hl (by omega) _ (px_lt _ _)]
    by_cases hv : hasFlag (pteAt m t (px (level + 1) va)) pteV
    · rw [if_pos hv, if_pos hv]
      exact ih _ (ht.child t level hl _ (px_lt _ _) hv)
    · rw [if_neg hv, if_neg hv]

/-- A walk ends at a slot of a table of level 0. -/
theorem PtTree.walkLevels_leaf (ht : PtTree m root lv) {va q : Nat} :
    ∀ level t, lv t = some level → walkLevels m va level t = some q →
      ∃ t₀, lv t₀ = some 0 ∧ q = t₀ + 8 * px 0 va := by
  intro level
  induction level with
  | zero =>
    intro t hl hw
    exact ⟨t, hl, (Option.some.inj hw).symm⟩
  | succ level ih =>
    intro t hl hw
    rw [walkLevels] at hw
    by_cases hv : hasFlag (pteAt m t (px (level + 1) va)) pteV
    · rw [if_pos hv] at hw
      exact ih _ (ht.child t level hl _ (px_lt _ _) hv) hw
    · rw [if_neg hv] at hw
      cases hw

/-- Two walks from tables of one level that end at the same PTE went through
the same table with the same indices. -/
theorem PtTree.walkLevels_inj (ht : PtTree m root lv) {va va' q : Nat} :
    ∀ level t t', lv t = some level → lv t' = some level → walkLevels m va level t = some q →
      walkLevels m va' level t' = some q → t = t' ∧ ∀ l ≤ level, px l va = px l va' := by
  intro level
  induction level with
  | zero =>
    intro t t' hl hl' hw hw'
    have heq := (Option.some.inj hw).trans (Option.some.inj hw').symm
    obtain ⟨rfl, hpx⟩ := slot_inj (ht.aligned t 0 hl) (ht.aligned t' 0 hl') (px_lt 0 va) (px_lt 0 va') heq
    exact ⟨rfl, fun l hle => by rw [Nat.le_zero.1 hle]; exact hpx⟩
  | succ level ih =>
    intro t t' hl hl' hw hw'
    rw [walkLevels] at hw hw'
    by_cases hv : hasFlag (pteAt m t (px (level + 1) va)) pteV
    · by_cases hv' : hasFlag (pteAt m t' (px (level + 1) va')) pteV
      · rw [if_pos hv] at hw
        rw [if_pos hv'] at hw'
        -- the two children are one table, reached from one slot
        obtain ⟨hc, hpx⟩ := ih _ _ (ht.child t level hl _ (px_lt _ _) hv)
          (ht.child t' level hl' _ (px_lt _ _) hv') hw hw'
        obtain ⟨rfl, hk⟩ := ht.unique t level t' level _ _ hl hl' (px_lt _ _) (px_lt _ _) hv hv' hc
        refine ⟨rfl, fun l hle => ?_⟩
        rcases Nat.lt_or_ge l (level + 1) with hlt | hge
        · exact hpx l (by omega)
        · rw [show l = level + 1 by omega]
          exact hk
      · rw [if_neg hv'] at hw'
        cases hw'
    · rw [if_neg hv] at hw
      cases hw

/-- Distinct pages below `MAXVA` never share a leaf PTE. -/
theorem PtTree.leaf_inj (ht : PtTree m root lv) {va va' q : Nat} (hva : va < maxVa) (hva' : va' < maxVa)
    (hw : walkLevels m va 2 root = some q) (hw' : walkLevels m va' 2 root = some q) :
    pgRoundDown va = pgRoundDown va' :=
  pgRoundDown_eq_of_px hva hva' (ht.walkLevels_inj 2 root root ht.root ht.root hw hw').2

/-- A table of zero PTEs maps nothing. -/
theorem leafPte_of_zero {m : Mem} {p : Nat} (hz : ∀ i < 512, pteAt m p i = 0) (va level : Nat) :
    leafPte m va level p = none := by
  cases level with
  | zero => rw [leafPte_zero, hz _ (px_lt _ _), hasFlag_zero, if_neg (by decide)]
  | succ level => rw [leafPte_succ, hz _ (px_lt _ _), hasFlag_zero, if_neg (by decide)]

end Tree

/-! ## Linking a new table -/

section Link

variable {m : Mem} {root : Nat} {lv : Nat → Option Nat} {t l j p : Nat}

/-- The memory after `walk` links the zeroed page `p` in at PTE `j` of `t`. -/
def linkMem (m : Mem) (t j p : Nat) : Mem := storeLE (memset m p 0 pgSize) (t + 8 * j) (pa2pte p ||| pteV) 8

theorem pteAt_linkMem_self (hp64 : p < 2 ^ 64) : pteAt (linkMem m t j p) t j = pa2pte p ||| pteV := by
  rw [linkMem, pteAt_storeLE_self, Nat.mod_eq_of_lt (pa2pte_or_lt p pteV hp64 (by decide))]

theorem pteAt_linkMem_new (ht : t % pgSize = 0) (hp : p % pgSize = 0) (hj : j < 512) (htp : t ≠ p)
    {i : Nat} (hi : i < 512) : pteAt (linkMem m t j p) p i = 0 := by
  have := slot_outside ht hp hj htp
  rw [linkMem, pteAt_storeLE_of_apart _ (by unfold pgSize at *; omega), pteAt_memset_zero _ _ hi]

theorem pteAt_linkMem_other {t' i : Nat} (ht : t % pgSize = 0) (hp : p % pgSize = 0) (ht' : t' % pgSize = 0)
    (hj : j < 512) (hi : i < 512) (hne : t' ≠ t ∨ i ≠ j) (hpt : t' ≠ p) :
    pteAt (linkMem m t j p) t' i = pteAt m t' i := by
  have h₁ := slot_apart ht' ht hi hj hne
  have h₂ := slot_outside ht' hp hi hpt
  rw [linkMem, pteAt_storeLE_of_apart _ (by omega), pteAt_memset_of_apart _ _ (by omega)]

variable (htr : PtTree m root lv) (hl : lv t = some (l + 1)) (hj : j < 512)
  (hinv : hasFlag (pteAt m t j) pteV = false) (hp : lv p = none) (hpal : p % pgSize = 0) (hp64 : p < 2 ^ 64)
include htr hl hj hp hpal

/-- Outside the new slot and the new page, linking changes no PTE of a table. -/
theorem sameTables_linkMem_of_ne {t' l' i : Nat} (ht' : lv t' = some l') (hi : i < 512) (hne : t' ≠ t ∨ i ≠ j) :
    pteAt (linkMem m t j p) t' i = pteAt m t' i :=
  pteAt_linkMem_other (htr.aligned t _ hl) hpal (htr.aligned t' _ ht') hj hi hne
    (fun h => by rw [h, hp] at ht'; cases ht')

include hp64 hinv in
/-- Linking a zeroed page at an invalid PTE keeps the tree, with the page a
table one level down. -/
theorem PtTree.link : PtTree (linkMem m t j p) root (Function.update lv p (some l)) := by
  have htp : t ≠ p := fun h => by rw [h, hp] at hl; cases hl
  have hold : ∀ {t' l'}, lv t' = some l' → t' ≠ p := fun ht' h => by rw [h, hp] at ht'; cases ht'
  -- a table of the new tree is the new page or an old table
  have hcases : ∀ {t' l'}, Function.update lv p (some l) t' = some l' → (t' = p ∧ l' = l) ∨ (t' ≠ p ∧ lv t' = some l') :=
    fun {t' l'} h => by
      by_cases htp' : t' = p
      · subst htp'
        rw [Function.update_self] at h
        exact .inl ⟨rfl, (Option.some.inj h).symm⟩
      · rw [Function.update_of_ne htp'] at h
        exact .inr ⟨htp', h⟩
  -- a valid PTE of an upper table points to the new page only from the new slot
  have hslot : ∀ {t' l' i}, lv t' = some (l' + 1) → i < 512 → hasFlag (pteAt (linkMem m t j p) t' i) pteV →
      (t' = t ∧ i = j) ∨ (hasFlag (pteAt m t' i) pteV ∧ pteAt (linkMem m t j p) t' i = pteAt m t' i) :=
    fun {t' l' i} ht' hi hv => by
      by_cases hs : t' = t ∧ i = j
      · exact .inl hs
      · have hsame := sameTables_linkMem_of_ne htr hl hj hp hpal ht' hi (by tauto)
        rw [hsame] at hv
        exact .inr ⟨hv, hsame⟩
  refine ⟨?_, ?_, ?_, ?_⟩
  · rw [Function.update_of_ne (hold htr.root)]
    exact htr.root
  · intro t' l' ht'
    rcases hcases ht' with ⟨rfl, -⟩ | ⟨-, ht'⟩
    · exact hpal
    · exact htr.aligned t' l' ht'
  · intro t' l' ht' i hi hv
    rcases hcases ht' with ⟨rfl, -⟩ | ⟨htp', ht'⟩
    · rw [pteAt_linkMem_new (htr.aligned t _ hl) hpal hj htp hi, hasFlag_zero] at hv
      cases hv
    rcases hslot ht' hi hv with ⟨rfl, rfl⟩ | ⟨hv₀, hsame⟩
    · rw [pteAt_linkMem_self hp64, pte2pa_link hpal, Function.update_self]
      rw [hl] at ht'
      cases ht'
      rfl
    · rw [hsame]
      have hc := htr.child t' l' ht' i hi hv₀
      rw [Function.update_of_ne (hold hc)]
      exact hc
  · intro t₁ l₁ t₂ l₂ i₁ i₂ h₁ h₂ hi₁ hi₂ hv₁ hv₂ heq
    -- a table of the new tree with a valid PTE is an old table
    have old : ∀ {t' l'}, Function.update lv p (some l) t' = some (l' + 1) → ∀ {i}, i < 512 →
        hasFlag (pteAt (linkMem m t j p) t' i) pteV → lv t' = some (l' + 1) := fun {t' l'} h {i} hi hv => by
      rcases hcases h with ⟨rfl, -⟩ | ⟨-, h⟩
      · rw [pteAt_linkMem_new (htr.aligned t _ hl) hpal hj htp hi, hasFlag_zero] at hv
        cases hv
      · exact h
    have h₁' := old h₁ hi₁ hv₁
    have h₂' := old h₂ hi₂ hv₂
    rcases hslot h₁' hi₁ hv₁ with ⟨rfl, rfl⟩ | ⟨hv₁', hs₁⟩ <;>
      rcases hslot h₂' hi₂ hv₂ with ⟨rfl, rfl⟩ | ⟨hv₂', hs₂⟩
    · exact ⟨rfl, rfl⟩
    · -- an old PTE pointing to the new page: the page was a table
      rw [pteAt_linkMem_self hp64, pte2pa_link hpal, hs₂] at heq
      have := htr.child _ _ h₂' _ hi₂ hv₂'
      rw [← heq, hp] at this
      cases this
    · rw [pteAt_linkMem_self hp64, pte2pa_link hpal, hs₁] at heq
      have := htr.child _ _ h₁' _ hi₁ hv₁'
      rw [heq, hp] at this
      cases this
    · rw [hs₁, hs₂] at heq
      exact htr.unique _ _ _ _ _ _ h₁' h₂' hi₁ hi₂ hv₁' hv₂' heq

include hp64 hinv in
/-- Linking a zeroed page changes no translation. -/
theorem leafPte_linkMem (va : Nat) :
    ∀ level t', lv t' = some level → leafPte (linkMem m t j p) va level t' = leafPte m va level t' := by
  have htp : t ≠ p := fun h => by rw [h, hp] at hl; cases hl
  intro level
  induction level with
  | zero =>
    intro t' ht'
    have hne : t' ≠ t := fun h => by rw [h, hl] at ht'; cases ht'
    rw [leafPte_zero, leafPte_zero, sameTables_linkMem_of_ne htr hl hj hp hpal ht' (px_lt _ _) (.inl hne)]
  | succ level ih =>
    intro t' ht'
    by_cases hs : t' = t ∧ px (level + 1) va = j
    · -- the new slot: an invalid PTE before, the new empty table after
      obtain ⟨rfl, hk⟩ := hs
      rw [hl] at ht'
      cases ht'
      rw [leafPte_succ, leafPte_succ, hk, pteAt_linkMem_self hp64, hasFlag_link, if_pos rfl, hinv,
        if_neg (by decide), pte2pa_link hpal]
      exact leafPte_of_zero (fun i hi => pteAt_linkMem_new (htr.aligned _ _ hl) hpal hj htp hi) _ _
    · rw [leafPte_succ, leafPte_succ, sameTables_linkMem_of_ne htr hl hj hp hpal ht' (px_lt _ _) (by tauto)]
      by_cases hv : hasFlag (pteAt m t' (px (level + 1) va)) pteV
      · rw [if_pos hv, if_pos hv]
        exact ih _ (htr.child t' level ht' _ (px_lt _ _) hv)
      · rw [if_neg hv, if_neg hv]

end Link

/-! ## Writing a leaf -/

section Leaf

variable {m : Mem} {root : Nat} {lv : Nat → Option Nat} {va q : Nat}

/-- A write to the leaf PTE of `va` changes no PTE of an upper table. -/
theorem sameTables_storeLE_leaf (htr : PtTree m root lv) (hq : walkLevels m va 2 root = some q) (v : Nat) :
    SameTables lv 1 m (storeLE m q v 8) := by
  obtain ⟨t₀, ht₀, rfl⟩ := htr.walkLevels_leaf 2 root htr.root hq
  intro t l ht hl i hi
  have hne : t ≠ t₀ := fun h => by rw [h, ht₀] at ht; cases ht; omega
  exact pteAt_storeLE_of_apart _
    (slot_apart (htr.aligned t₀ 0 ht₀) (htr.aligned t l ht) (px_lt 0 va) hi (.inl hne.symm))

/-- After a write to the leaf PTE of `va`, a page maps to what was written if
its walk ends there, and to what it mapped before otherwise. -/
theorem leafPte_storeLE_leaf (htr : PtTree m root lv) (hq : walkLevels m va 2 root = some q) (v va' : Nat) :
    leafPte (storeLE m q v 8) va' 2 root =
      if walkLevels m va' 2 root = some q then
        (if hasFlag (v % 2 ^ 64) pteV then some (v % 2 ^ 64) else none)
      else leafPte m va' 2 root := by
  obtain ⟨t₀, ht₀, hq₀⟩ := htr.walkLevels_leaf 2 root htr.root hq
  unfold leafPte
  rw [htr.walkLevels_congr (sameTables_storeLE_leaf htr hq v) va' 2 root htr.root]
  cases hw : walkLevels m va' 2 root with
  | none => rfl
  | some q' =>
    by_cases hqq : q' = q
    · subst hqq
      dsimp only
      rw [if_pos rfl, loadLE_storeLE]
      rfl
    · -- another leaf: its slot is apart from `q`
      obtain ⟨t₁, ht₁, hq₁⟩ := htr.walkLevels_leaf 2 root htr.root hw
      have hapart : q + 8 ≤ q' ∨ q' + 8 ≤ q := by
        rw [hq₀, hq₁]
        refine slot_apart (htr.aligned t₀ 0 ht₀) (htr.aligned t₁ 0 ht₁) (px_lt 0 va) (px_lt 0 va')
          (or_iff_not_imp_left.2 fun ht hpx => hqq ?_)
        rw [hq₀, hq₁, not_not.1 ht, hpx]
      have hload : loadLE (storeLE m q v 8) q' 8 = loadLE m q' 8 :=
        loadLE_congr _ _ _ _ fun _ h₁ h₂ => storeLE_of_lt_or_le _ _ _ _ (by omega)
      dsimp only
      rw [if_neg (fun h => hqq (Option.some.inj h)), hload]

end Leaf

/-! ## `walk` with allocation -/

/-- A page table and the allocator together: `A` the pages handed out, `fl`
the free list and `lv` the tables, which are pages handed out and none of
those other code holds (`owned`). -/
structure PtInv (kend : Nat) (km : Kmem) (m : Mem) (root : Nat) (owned A : Finset Nat) (fl : List Nat)
    (lv : Nat → Option Nat) : Prop where
  part : Partition kend km A fl
  tree : PtTree m root lv
  table_mem : ∀ t l, lv t = some l → t ∈ A
  table_not_owned : ∀ t l, lv t = some l → t ∉ owned
  owned_sub : owned ⊆ A

section WalkAlloc

variable {kend root : Nat} {owned : Finset Nat}

/-- A page on the free list is not a table. -/
theorem PtInv.not_table {km : Kmem} {m : Mem} {A : Finset Nat} {fl : List Nat} {lv : Nat → Option Nat}
    (hi : PtInv kend km m root owned A fl lv) {p : Nat} (hp : p ∈ fl) : lv p = none := by
  cases hl : lv p with
  | none => rfl
  | some l => exact absurd (hi.table_mem p l hl) (hi.part.apart p hp)

/-- `walk` with allocation from a table of level `level`: the allocator and
the tree stay as they were with possibly new tables from the free list; no
PTE of a table above it changes; no page's translation changes; and the PTE
returned is where the walk of `va` ends. -/
theorem walkAllocLevels_spec (va : Nat) :
    ∀ (level : Nat) {km : Kmem} {m : Mem} {A : Finset Nat} {fl : List Nat} {lv : Nat → Option Nat} {t : Nat}
      {km' : Kmem} {m' : Mem} {r : Option Nat},
      PtInv kend km m root owned A fl lv → lv t = some level →
      walkAllocLevels va level km m t = ((km', m'), r) →
      ∃ A' fl' lv', PtInv kend km' m' root owned A' fl' lv' ∧
        (∀ t' l', lv t' = some l' → lv' t' = some l') ∧
        (∀ t' l', lv' t' = some l' → lv t' = none → t' ∈ fl) ∧
        SameTables lv (level + 1) m m' ∧
        (∀ va' level' t', lv t' = some level' → leafPte m' va' level' t' = leafPte m va' level' t') ∧
        (∀ q, r = some q → walkLevels m' va level t = some q) ∧
        fl.length ≤ fl'.length + level ∧ (level ≤ fl.length → r.isSome) := by
  intro level
  induction level with
  | zero =>
    intro km m A fl lv t km' m' r hi _ hw
    rw [walkAllocLevels] at hw
    cases hw
    exact ⟨A, fl, lv, hi, fun _ _ h => h, fun _ _ h h' => (Option.some_ne_none _ (h.symm.trans h')).elim,
      SameTables.refl _ _ _, fun _ _ _ _ => rfl, fun q hq => hq ▸ rfl, by omega, fun _ => rfl⟩
  | succ level ih =>
    intro km m A fl lv t km' m' r hi hl hw
    rw [walkAllocLevels] at hw
    by_cases hv : hasFlag (pteAt m t (px (level + 1) va)) pteV
    · -- a valid PTE: on to the next table, nothing allocated here
      rw [if_pos hv] at hw
      have hc := hi.tree.child t level hl _ (px_lt _ _) hv
      obtain ⟨A', fl', lv', hi', hext, hnew, hsame, hleaf, hwalk, hlen, hsome⟩ := ih hi hc hw
      refine ⟨A', fl', lv', hi', hext, hnew, hsame.mono (by omega), hleaf, fun q hq => ?_, by omega,
        fun h => hsome (by omega)⟩
      rw [walkLevels, hsame t _ hl le_rfl _ (px_lt _ _), if_pos hv]
      exact hwalk q hq
    rw [if_neg hv] at hw
    cases fl with
    | nil =>
      -- no free page: `walk` returns 0 with nothing changed
      rw [hi.part.kalloc_nil, if_pos rfl] at hw
      cases hw
      exact ⟨A, [], lv, hi, fun _ _ h => h, fun _ _ h h' => (Option.some_ne_none _ (h.symm.trans h')).elim,
        SameTables.refl _ _ _, fun _ _ _ _ => rfl, fun q hq => (Option.some_ne_none q hq.symm).elim, by simp,
        fun h => absurd h (by simp)⟩
    | cons p fl =>
      obtain ⟨hp0, hpA, hkp, hpart⟩ := hi.part.kalloc_cons
      rw [hkp, if_neg hp0] at hw
      have hman : Managed kend p := (hi.part.cover p).2 (.inl List.mem_cons_self)
      have hpal : p % pgSize = 0 := hman.1
      have hp64 : p < 2 ^ 64 := lt_trans hman.2.2 (by decide)
      have hplv : lv p = none := hi.not_table List.mem_cons_self
      have hj := px_lt (level + 1) va
      have hinv : hasFlag (pteAt m t (px (level + 1) va)) pteV = false := by simpa using hv
      -- the state after linking `p` in, with `p` a table of level `level`
      have hi₁ : PtInv kend (kalloc km).1 (linkMem m t (px (level + 1) va) p) root owned (insert p A) fl
          (Function.update lv p (some level)) := by
        refine ⟨hpart, hi.tree.link hl hj hinv hplv hpal hp64, fun t' l' ht' => ?_, fun t' l' ht' => ?_,
          hi.owned_sub.trans (Finset.subset_insert p A)⟩
        · by_cases htp : t' = p
          · rw [htp]
            exact Finset.mem_insert_self p A
          · rw [Function.update_of_ne htp] at ht'
            exact Finset.mem_insert_of_mem (hi.table_mem t' l' ht')
        · by_cases htp : t' = p
          · rw [htp]
            exact fun h => hpA (hi.owned_sub h)
          · rw [Function.update_of_ne htp] at ht'
            exact hi.table_not_owned t' l' ht'
      obtain ⟨A', fl', lv', hi', hext, hnew, hsame, hleaf, hwalk, hlen, hsome⟩ :=
        ih hi₁ (Function.update_self p (some level) lv) hw
      have hold : ∀ {t' l'}, lv t' = some l' → Function.update lv p (some level) t' = some l' :=
        fun {t' l'} ht' => by
          rw [Function.update_of_ne (fun h => by rw [h, hplv] at ht'; cases ht')]
          exact ht'
      refine ⟨A', fl', lv', hi', fun t' l' ht' => hext t' l' (hold ht'), fun t' l' ht' hnone => ?_,
        fun t' l' ht' hle i hi' => ?_, fun va' level' t' ht' => ?_, fun q hq => ?_,
        by rw [List.length_cons]; omega, fun h => hsome (by rw [List.length_cons] at h; omega)⟩
      · by_cases htp : t' = p
        · rw [htp]
          exact List.mem_cons_self
        · have : Function.update lv p (some level) t' = none := by rw [Function.update_of_ne htp]; exact hnone
          exact List.mem_cons_of_mem p (hnew t' l' ht' this)
      · -- a table above `t`: neither the link nor the walk below touch it
        have hne : t' ≠ t := fun h => by rw [h, hl] at ht'; cases ht'; omega
        rw [hsame t' l' (hold ht') (by omega) i hi',
          sameTables_linkMem_of_ne hi.tree hl hj hplv hpal ht' hi' (.inl hne)]
      · rw [hleaf va' level' t' (hold ht'), leafPte_linkMem hi.tree hl hj hinv hplv hpal hp64 va' level' t' ht']
      · rw [walkLevels, hsame t _ (hold hl) le_rfl _ hj, pteAt_linkMem_self hp64, hasFlag_link, if_pos rfl,
          pte2pa_link hpal]
        exact hwalk q hq

end WalkAlloc

/-! ## `mappages` -/

/-- The leaf PTE `mappages` writes for the physical page `pa`, as memory
keeps it. -/
def leafVal (pa perm : Nat) : Nat := (pa2pte pa ||| perm ||| pteV) % 2 ^ 64

theorem pgRoundDown_mod (a : Nat) : pgRoundDown a % pgSize = 0 := Nat.mul_mod_left _ _

theorem hasFlag_leafVal (pa perm : Nat) : hasFlag (leafVal pa perm) pteV = true := by
  have hodd : (pa2pte pa ||| perm ||| 1) % 2 = 1 := by
    rw [← Nat.and_one_is_mod, Nat.and_comm, Nat.one_and_eq_mod_two]
    simp [Nat.or_mod_two_eq_one]
  unfold hasFlag leafVal
  rw [show pteV = 1 from rfl, Nat.and_one_is_mod, Nat.mod_mod_of_dvd _ (by decide : 2 ∣ 2 ^ 64), hodd]
  decide

section Mappages

variable {kend root : Nat} {owned : Finset Nat}

/-- Two pages of one walk's end are one page. -/
theorem walkLevels_eq_iff {m : Mem} {lv : Nat → Option Nat} (htr : PtTree m root lv) {a q : Nat}
    (ha : a < maxVa) (hq : walkLevels m a 2 root = some q) {va' : Nat} (hva' : va' < maxVa) :
    walkLevels m va' 2 root = some q ↔ pgRoundDown va' = pgRoundDown a := by
  constructor
  · intro hw
    exact htr.leaf_inj hva' ha hw hq
  · intro hpg
    rw [walkLevels_px_congr (px_eq_of_pgRoundDown hpg) 2 root, hq]

/-- A page below `MAXVA` ends by `MAXVA`. -/
theorem add_pgSize_le_maxVa {a : Nat} (ha : a % pgSize = 0) (hlt : a < maxVa) : a + pgSize ≤ maxVa := by
  have hmax : maxVa = 2 ^ 38 := rfl
  unfold pgSize at *
  omega

/-- One page of `mappages`: `walk` reached an invalid leaf PTE, and the PTE
written there is what the page maps to now; no other page changes, and the
page mapped nothing before. -/
theorem mapPage_spec {a : Nat} (ha : a < maxVa) {km : Kmem} {m : Mem} {A : Finset Nat} {fl : List Nat}
    {lv : Nat → Option Nat} {km₁ : Kmem} {m₁ : Mem} {pte : Nat}
    (hi : PtInv kend km m root owned A fl lv) (hw : walkAllocLevels a 2 km m root = ((km₁, m₁), some pte))
    (hfree : hasFlag (loadLE m₁ pte 8) pteV = false) (v : Nat) :
    ∃ A' fl' lv', PtInv kend km₁ (storeLE m₁ pte v 8) root owned A' fl' lv' ∧ fl.length ≤ fl'.length + 2 ∧
      leafPte m a 2 root = none ∧
      ∀ va', va' < maxVa → leafPte (storeLE m₁ pte v 8) va' 2 root =
        if pgRoundDown va' = pgRoundDown a then
          (if hasFlag (v % 2 ^ 64) pteV then some (v % 2 ^ 64) else none)
        else leafPte m va' 2 root := by
  obtain ⟨A', fl', lv', hi', -, -, -, hleaf, hwalk, hlen, -⟩ := walkAllocLevels_spec a 2 hi hi.tree.root hw
  have hq := hwalk pte rfl
  have hleaf₂ := hleaf a 2 root hi.tree.root
  refine ⟨A', fl', lv', ⟨hi'.part, hi'.tree.congr (sameTables_storeLE_leaf hi'.tree hq v), hi'.table_mem,
    hi'.table_not_owned, hi'.owned_sub⟩, hlen, ?_, fun va' hva' => ?_⟩
  · -- the remap check passed: the leaf was invalid
    rw [← hleaf₂]
    unfold leafPte
    rw [hq]
    dsimp only
    rw [hfree, if_neg (by decide)]
  · rw [leafPte_storeLE_leaf hi'.tree hq v va', ← hleaf va' 2 root hi.tree.root]
    exact if_congr (walkLevels_eq_iff hi'.tree ha hq hva') rfl rfl

/-- The loop of `mappages` from page `a`: when it returns, it mapped the
pages from `a` on to the physical pages from `pa` on, each of which mapped
nothing before, and changed no other page; it returns 0 once it mapped
`last`, and -1 short of it. -/
theorem mappagesLoop_spec (last perm : Nat) :
    ∀ (d : Nat) {a pa : Nat} {km : Kmem} {m : Mem} {A : Finset Nat} {fl : List Nat} {lv : Nat → Option Nat}
      {km' : Kmem} {m' : Mem} {r : Int},
      maxVa - a = d → PtInv kend km m root owned A fl lv → a % pgSize = 0 → pa < 2 ^ 64 →
      mappagesLoop last perm root km m a pa = .ok (km', m', r) →
      ∃ n A' fl' lv', PtInv kend km' m' root owned A' fl' lv' ∧ a + n * pgSize ≤ maxVa ∧
        (r = 0 ∧ a + n * pgSize = last + pgSize ∨ r = -1 ∧ ∀ k < n, a + k * pgSize ≠ last) ∧
        (∀ va', va' < maxVa → a ≤ pgRoundDown va' → pgRoundDown va' < a + n * pgSize →
          leafPte m va' 2 root = none) ∧
        ∀ va', va' < maxVa → leafPte m' va' 2 root =
          if a ≤ pgRoundDown va' ∧ pgRoundDown va' < a + n * pgSize then
            some (leafVal ((pa + (pgRoundDown va' - a)) % 2 ^ 64) perm)
          else leafPte m va' 2 root := by
  intro d
  induction d using Nat.strong_induction_on with
  | _ d ih =>
  intro a pa km m A fl lv km' m' r hd hi ha hpa hrun
  rw [mappagesLoop] at hrun
  split at hrun
  · cases hrun
  · -- no page for a table: -1, with nothing mapped
    rename_i km₁ m₁ hw
    have hlt := walkAlloc_lt hw
    rw [walkAlloc, if_neg (by omega)] at hw
    obtain ⟨A', fl', lv', hi', -, -, -, hleaf, -⟩ :=
      walkAllocLevels_spec a 2 hi hi.tree.root (Except.ok.inj hw)
    cases hrun
    refine ⟨0, A', fl', lv', hi', by omega, .inr ⟨rfl, fun k hk => absurd hk (Nat.not_lt_zero k)⟩,
      fun va' _ h₁ h₂ => by omega, fun va' _ => ?_⟩
    rw [if_neg (by omega), hleaf va' 2 root hi.tree.root]
  · rename_i km₁ m₁ pte hw
    have hlt := walkAlloc_lt hw
    rw [walkAlloc, if_neg (by omega)] at hw
    split at hrun
    · cases hrun
    rename_i hfree
    have hfree' : hasFlag (loadLE m₁ pte 8) pteV = false := by simpa using hfree
    obtain ⟨A₂, fl₂, lv₂, hi₂, -, hnone, hleaf₂⟩ :=
      mapPage_spec hlt hi (Except.ok.inj hw) hfree' (pa2pte pa ||| perm ||| pteV)
    have hval : (pa2pte pa ||| perm ||| pteV) % 2 ^ 64 = leafVal ((pa + 0) % 2 ^ 64) perm := by
      rw [Nat.add_zero, Nat.mod_eq_of_lt hpa]
      rfl
    rw [hval, hasFlag_leafVal, if_pos rfl] at hleaf₂
    -- the page `a` itself, among pages that are multiples of `PGSIZE`
    have hleaf₃ : ∀ va', va' < maxVa → leafPte (storeLE m₁ pte (pa2pte pa ||| perm ||| pteV) 8) va' 2 root =
        if pgRoundDown va' = a then some (leafVal ((pa + 0) % 2 ^ 64) perm) else leafPte m va' 2 root :=
      fun va' hva' => by
        rw [hleaf₂ va' hva']
        exact if_congr (by rw [pgRoundDown_of_mod_eq_zero ha]) rfl rfl
    have hnone' : ∀ va', va' < maxVa → pgRoundDown va' = a → leafPte m va' 2 root = none := fun va' _ h => by
      rw [leafPte_px_congr (px_eq_of_pgRoundDown (h.trans (pgRoundDown_of_mod_eq_zero ha).symm)), hnone]
    have hmod := pgRoundDown_mod
    split at hrun
    · -- `a` was `last`: 0, with one page mapped
      rename_i hlast
      cases hrun
      refine ⟨1, A₂, fl₂, lv₂, hi₂, by rw [Nat.one_mul]; exact add_pgSize_le_maxVa ha hlt, .inl ⟨rfl, by omega⟩,
        fun va' hva' h₁ h₂ => hnone' va' hva' ?_,
        fun va' hva' => ?_⟩
      · have := hmod va'
        unfold pgSize at *
        omega
      rw [hleaf₃ va' hva']
      by_cases hp : pgRoundDown va' = a
      · rw [if_pos hp, if_pos (by rw [hp]; unfold pgSize; omega), hp, Nat.sub_self]
      · have := hmod va'
        rw [if_neg hp, if_neg (by unfold pgSize at *; omega)]
    · -- on to the next page
      rename_i hlast
      obtain ⟨n, A', fl', lv', hi', hmax, hres, hnone₂, hleaf'⟩ :=
        ih (maxVa - (a + pgSize)) (by unfold pgSize at *; omega) rfl hi₂
          (by unfold pgSize at *; omega) (Nat.mod_lt _ (by decide)) hrun
      refine ⟨n + 1, A', fl', lv', hi', by rw [Nat.succ_mul]; omega, ?_, fun va' hva' h₁ h₂ => ?_,
        fun va' hva' => ?_⟩
      · rcases hres with ⟨rfl, hn⟩ | ⟨rfl, hn⟩
        · exact .inl ⟨rfl, by rw [Nat.succ_mul]; omega⟩
        · refine .inr ⟨rfl, fun k hk => ?_⟩
          cases k with
          | zero => simpa using hlast
          | succ k =>
            have := hn k (by omega)
            rw [Nat.succ_mul]
            omega
      · have := hmod va'
        by_cases hp : pgRoundDown va' = a
        · exact hnone' va' hva' hp
        · have h₁' : a + pgSize ≤ pgRoundDown va' := by unfold pgSize at *; omega
          have := hnone₂ va' hva' h₁' (by rw [Nat.succ_mul] at h₂; omega)
          rwa [hleaf₃ va' hva', if_neg hp] at this
      · have := hmod va'
        rw [hleaf' va' hva', hleaf₃ va' hva']
        by_cases hp : pgRoundDown va' = a
        · rw [if_neg (by rw [hp]; unfold pgSize; omega), if_pos hp,
            if_pos (by rw [Nat.succ_mul, hp]; unfold pgSize; omega), hp, Nat.sub_self]
        · rw [if_neg hp]
          by_cases hin : a + pgSize ≤ pgRoundDown va' ∧ pgRoundDown va' < a + pgSize + n * pgSize
          · -- the physical page: `pa` advanced page by page, modulo 2^64
            have hpa' : ((pa + pgSize) % 2 ^ 64 + (pgRoundDown va' - (a + pgSize))) % 2 ^ 64 =
                (pa + (pgRoundDown va' - a)) % 2 ^ 64 := by
              rw [Nat.mod_add_mod]
              exact congrArg (· % 2 ^ 64) (by omega)
            rw [if_pos hin, if_pos (by rw [Nat.succ_mul]; omega), hpa']
          · rw [if_neg hin, if_neg (by rw [Nat.succ_mul]; unfold pgSize at *; omega)]

/-- One round of the loop, when `walk` ends at an invalid leaf PTE. -/
theorem mappagesLoop_step {last perm a pa : Nat} {km km₁ : Kmem} {m m₁ : Mem} {pte : Nat} (hlt : a < maxVa)
    (hw : walkAllocLevels a 2 km m root = ((km₁, m₁), some pte)) (hfree : hasFlag (loadLE m₁ pte 8) pteV = false) :
    mappagesLoop last perm root km m a pa =
      if a = last then .ok (km₁, storeLE m₁ pte (pa2pte pa ||| perm ||| pteV) 8, 0)
      else mappagesLoop last perm root km₁ (storeLE m₁ pte (pa2pte pa ||| perm ||| pteV) 8) (a + pgSize)
        ((pa + pgSize) % 2 ^ 64) := by
  have hwa : walkAlloc km m root a = .ok ((km₁, m₁), some pte) := by
    rw [walkAlloc, if_neg (by omega), hw]
  rw [mappagesLoop]
  split
  · rename_i heq
    rw [hwa] at heq
    cases heq
  · rename_i heq
    rw [hwa] at heq
    cases heq
  · rename_i heq
    rw [hwa] at heq
    cases heq
    rw [hfree, if_neg (by decide)]

/-- `walk` with two free pages, at a page that maps nothing, ends at an
invalid leaf PTE. -/
theorem walkAlloc_fresh {a : Nat} {km : Kmem} {m : Mem} {A : Finset Nat} {fl : List Nat}
    {lv : Nat → Option Nat} (hi : PtInv kend km m root owned A fl lv) (hfl : 2 ≤ fl.length)
    (hnone : leafPte m a 2 root = none) :
    ∃ km₁ m₁ pte, walkAllocLevels a 2 km m root = ((km₁, m₁), some pte) ∧
      hasFlag (loadLE m₁ pte 8) pteV = false := by
  rcases hres : walkAllocLevels a 2 km m root with ⟨⟨km₁, m₁⟩, r⟩
  obtain ⟨-, -, -, -, -, -, -, hleaf, hwalk, -, hsome⟩ := walkAllocLevels_spec a 2 hi hi.tree.root hres
  obtain ⟨pte, rfl⟩ := Option.isSome_iff_exists.1 (hsome hfl)
  refine ⟨km₁, m₁, pte, rfl, ?_⟩
  have h := hleaf a 2 root hi.tree.root
  rw [hnone] at h
  unfold leafPte at h
  rw [hwalk pte rfl] at h
  dsimp only at h
  by_contra hv
  rw [if_pos (by simpa using hv)] at h
  cases h

/-- With the pages from `a` to `last` mapping nothing and two free pages for
each, the loop maps them all and returns 0. -/
theorem mappagesLoop_ok (last perm : Nat) (hlast : last < maxVa) :
    ∀ (d : Nat) {a pa : Nat} {km : Kmem} {m : Mem} {A : Finset Nat} {fl : List Nat} {lv : Nat → Option Nat},
      a + d * pgSize = last → a % pgSize = 0 → PtInv kend km m root owned A fl lv → 2 * (d + 1) ≤ fl.length →
      (∀ k ≤ d, leafPte m (a + k * pgSize) 2 root = none) →
      ∃ km' m', mappagesLoop last perm root km m a pa = .ok (km', m', 0) := by
  intro d
  induction d with
  | zero =>
    intro a pa km m A fl lv hd ha hi hfl hnone
    obtain ⟨km₁, m₁, pte, hw, hfree⟩ := walkAlloc_fresh hi (by omega) (by simpa using hnone 0 le_rfl)
    rw [mappagesLoop_step (by omega) hw hfree, if_pos (by omega)]
    exact ⟨_, _, rfl⟩
  | succ d ih =>
    intro a pa km m A fl lv hd ha hi hfl hnone
    have hlt : a < maxVa := by rw [Nat.succ_mul] at hd; unfold pgSize at hd; omega
    obtain ⟨km₁, m₁, pte, hw, hfree⟩ := walkAlloc_fresh hi (by omega) (by simpa using hnone 0 (Nat.zero_le _))
    obtain ⟨A₂, fl₂, lv₂, hi₂, hlen, -, hleaf₂⟩ := mapPage_spec hlt hi hw hfree (pa2pte pa ||| perm ||| pteV)
    rw [mappagesLoop_step hlt hw hfree, if_neg (by rw [Nat.succ_mul] at hd; unfold pgSize at hd; omega)]
    refine ih (by rw [Nat.succ_mul] at hd; omega) (by unfold pgSize at *; omega) hi₂ (by omega) fun k hk => ?_
    -- the pages after `a` are as they were
    have hpage : pgRoundDown (a + pgSize + k * pgSize) = a + pgSize + k * pgSize :=
      pgRoundDown_of_mod_eq_zero (by unfold pgSize at *; omega)
    have hva : a + pgSize + k * pgSize < maxVa := by
      have := Nat.mul_le_mul_right pgSize hk
      rw [Nat.succ_mul] at hd
      omega
    rw [hleaf₂ _ hva, hpage, pgRoundDown_of_mod_eq_zero ha, if_neg (by unfold pgSize; omega)]
    have := hnone (k + 1) (by omega)
    rwa [Nat.succ_mul, ← Nat.add_assoc, Nat.add_right_comm] at this

/-- `mappages` as its loop from `PGROUNDDOWN(va)` to `PGROUNDDOWN(va + size - 1)`. -/
theorem mappages_spec {km : Kmem} {m : Mem} {A : Finset Nat} {fl : List Nat} {lv : Nat → Option Nat}
    {va size pa perm : Nat} {km' : Kmem} {m' : Mem} {r : Int} (hi : PtInv kend km m root owned A fl lv)
    (hpa : pa < 2 ^ 64) (hrun : mappages km m root va size pa perm = .ok (km', m', r)) :
    ∃ n A' fl' lv', PtInv kend km' m' root owned A' fl' lv' ∧ pgRoundDown va + n * pgSize ≤ maxVa ∧
      (r = 0 ∧ pgRoundDown va + n * pgSize = pgRoundDown ((va + size - 1) % 2 ^ 64) + pgSize ∨
        r = -1 ∧ ∀ k < n, pgRoundDown va + k * pgSize ≠ pgRoundDown ((va + size - 1) % 2 ^ 64)) ∧
      (∀ va', va' < maxVa → pgRoundDown va ≤ pgRoundDown va' → pgRoundDown va' < pgRoundDown va + n * pgSize →
        leafPte m va' 2 root = none) ∧
      ∀ va', va' < maxVa → leafPte m' va' 2 root =
        if pgRoundDown va ≤ pgRoundDown va' ∧ pgRoundDown va' < pgRoundDown va + n * pgSize then
          some (leafVal ((pa + (pgRoundDown va' - pgRoundDown va)) % 2 ^ 64) perm)
        else leafPte m va' 2 root := by
  unfold mappages at hrun
  by_cases hsize : size = 0
  · rw [if_pos hsize] at hrun
    cases hrun
  · rw [if_neg hsize] at hrun
    exact mappagesLoop_spec _ _ _ rfl hi (pgRoundDown_mod va) hpa hrun

end Mappages

/-! ## The allocator and other kernel code -/

section Around

variable {kend root : Nat} {owned : Finset Nat} {km : Kmem} {m : Mem} {A : Finset Nat} {fl : List Nat}
  {lv : Nat → Option Nat}

/-- `kalloc` by other code: the page it takes is not a table. -/
theorem PtInv.kalloc (hi : PtInv kend km m root owned A fl lv) :
    ∃ A' fl', PtInv kend (kalloc km).1 m root
      (if (kalloc km).2 = 0 then owned else insert (kalloc km).2 owned) A' fl' lv := by
  cases fl with
  | nil =>
    rw [hi.part.kalloc_nil, if_pos rfl]
    exact ⟨A, [], hi⟩
  | cons p fl =>
    obtain ⟨hp0, hpA, hkp, hpart⟩ := hi.part.kalloc_cons
    rw [hkp, if_neg hp0]
    refine ⟨insert p A, fl, hpart, hi.tree, fun t l ht => Finset.mem_insert_of_mem (hi.table_mem t l ht),
      fun t l ht => ?_, Finset.insert_subset_insert p hi.owned_sub⟩
    rw [Finset.mem_insert, not_or]
    exact ⟨fun h => hpA (h ▸ hi.table_mem t l ht), hi.table_not_owned t l ht⟩

/-- `kfree` by other code of a page of its own: never a table. -/
theorem PtInv.kfree (hend : 0 < kend) (hi : PtInv kend km m root owned A fl lv) {pa : Nat} (hpa : pa ∈ owned) :
    ∃ km', Vm.kfree kend km pa = .ok km' ∧ ∃ A' fl', PtInv kend km' m root (owned.erase pa) A' fl' lv := by
  obtain ⟨km', hk, hpart⟩ := hi.part.kfree hend (hi.owned_sub hpa)
  refine ⟨km', hk, A.erase pa, pa :: fl, hpart, hi.tree, fun t l ht => ?_, fun t l ht h => ?_,
    Finset.erase_subset_erase pa hi.owned_sub⟩
  · refine Finset.mem_erase.2 ⟨fun h => ?_, hi.table_mem t l ht⟩
    exact hi.table_not_owned t l ht (h ▸ hpa)
  · exact hi.table_not_owned t l ht (Finset.mem_of_mem_erase h)

/-- A write by other code to a page of its own, or to memory the allocator does
not manage, touches no table. -/
theorem PtInv.store (hi : PtInv kend km m root owned A fl lv) {a : Nat} (b : UInt8)
    (hg : pgRoundDown a ∈ owned ∨ ¬ Managed kend (pgRoundDown a)) :
    PtInv kend km (Function.update m a b) root owned A fl lv := by
  have hs : SameTables lv 0 m (Function.update m a b) := by
    intro t l ht _ i hi'
    refine loadLE_congr _ _ _ _ fun x h₁ h₂ => Function.update_of_ne (fun hxa => ?_) _ _
    -- the byte written lies in the table's page, so the page is a table
    have hal := hi.tree.aligned t l ht
    have hpage : pgRoundDown a = t := by
      rw [← pgRoundDown_of_mod_eq_zero hal]
      exact pgRoundDown_eq_of_mem (by rw [pgRoundDown_of_mod_eq_zero hal]; omega)
        (by rw [pgRoundDown_of_mod_eq_zero hal]; unfold pgSize; omega)
    rw [hpage] at hg
    rcases hg with hown | hman
    · exact hi.table_not_owned t l ht hown
    · exact hman ((hi.part.cover t).2 (.inr (hi.table_mem t l ht)))
  exact ⟨hi.part, hi.tree.congr (hs.mono (Nat.zero_le 1)), hi.table_mem, hi.table_not_owned, hi.owned_sub⟩

/-- The table `uvmcreate` makes: one zeroed page at level 2. -/
theorem ptTree_uvmcreate {p : Nat} (hp : p % pgSize = 0) :
    PtTree (memset m p 0 pgSize) p (fun t => if t = p then some 2 else none) := by
  have hlv : ∀ {t l}, (if t = p then some 2 else none) = some l → t = p := fun {t l} h => by
    by_contra htp
    rw [if_neg htp] at h
    cases h
  have hzero : ∀ i < 512, hasFlag (pteAt (memset m p 0 pgSize) p i) pteV = false := fun i hi => by
    rw [pteAt_memset_zero _ _ hi, hasFlag_zero]
  refine ⟨if_pos rfl, fun t l ht => hlv ht ▸ hp, fun t l ht i hi hv => ?_, fun t l t' l' i i' ht _ hi _ hv _ _ => ?_⟩
  · rw [hlv ht, hzero i hi] at hv
    cases hv
  · rw [hlv ht, hzero i hi] at hv
    cases hv

end Around

/-! ## Page tables over runs of the kernel -/

/-- A page table made by `uvmcreate`, the allocator, memory, and the pages
other kernel code holds (a ghost). -/
structure PtState where
  kmem : Kmem
  mem : Mem
  pagetable : Nat
  owned : Finset Nat

/-- `mappages` on the page table, and other kernel code taking a page,
freeing a page of its own, or writing a byte of its own pages or of memory the
allocator does not manage. -/
inductive PtCall where
  | mappages (va size pa perm : Nat)
  | kalloc
  | kfree (pa : Nat)
  | store (a : Nat) (b : UInt8)

/-- One call; a panic stops the system.  `pa` is a `uint64`. -/
def ptStep (kend : Nat) (s : PtState) : PtCall → Result PtState
  | .mappages va size pa perm =>
    match mappages s.kmem s.mem s.pagetable va size (pa % 2 ^ 64) perm with
    | .ok (km, m, _) => .ok { s with kmem := km, mem := m }
    | .error e => .panic e
  | .kalloc =>
    .ok { s with
          kmem := (kalloc s.kmem).1
          owned := if (kalloc s.kmem).2 = 0 then s.owned else insert (kalloc s.kmem).2 s.owned }
  | .kfree pa =>
    if pa ∈ s.owned then
      match kfree kend s.kmem pa with
      | .ok km => .ok { s with kmem := km, owned := s.owned.erase pa }
      | .wait => .wait
      | .panic e => .panic e
    else .wait
  | .store a b =>
    if pgRoundDown a ∈ s.owned ∨ ¬ Managed kend (pgRoundDown a) then .ok { s with mem := Function.update s.mem a b }
    else .wait

/-- After `uvmcreate` on the allocator `k0` and memory `m0`, with the pages
`owned` handed out before to other code. -/
def ptInit (k0 : Kmem) (m0 : Mem) (owned : Finset Nat) : PtState :=
  ⟨(uvmcreate k0 m0).1, (uvmcreate k0 m0).2.1, (uvmcreate k0 m0).2.2, owned⟩

def ptSystem (kend : Nat) (k0 : Kmem) (m0 : Mem) (owned : Finset Nat) : System PtState PtCall :=
  ⟨ptInit k0 m0 owned, ptStep kend⟩

/-- `uvmcreate` takes the head of the free list as the root, zeroed. -/
theorem ptInit_ptInv {kend : Nat} {k0 : Kmem} {A0 : Finset Nat} {p : Nat} {fl : List Nat}
    (hpart : Partition kend k0 A0 (p :: fl)) (m0 : Mem) :
    PtInv kend (ptInit k0 m0 A0).kmem (ptInit k0 m0 A0).mem (ptInit k0 m0 A0).pagetable A0 (insert p A0) fl
        (fun t => if t = p then some 2 else none) ∧
      (ptInit k0 m0 A0).pagetable = p ∧ (ptInit k0 m0 A0).mem = memset m0 p 0 pgSize := by
  obtain ⟨hp0, hpA, hkp, hpart'⟩ := hpart.kalloc_cons
  have hman : Managed kend p := (hpart.cover p).2 (.inl List.mem_cons_self)
  have hu : uvmcreate k0 m0 = ((kalloc k0).1, memset m0 p 0 pgSize, p) := by
    rw [uvmcreate, hkp, if_neg hp0]
  have hlv : ∀ {t l}, (if t = p then some 2 else none) = some l → t = p := fun {t l} h => by
    by_contra htp
    rw [if_neg htp] at h
    cases h
  unfold ptInit
  rw [hu]
  dsimp only
  refine ⟨⟨hpart', ptTree_uvmcreate hman.1, fun t l ht => ?_, fun t l ht => ?_, Finset.subset_insert p A0⟩,
    rfl, rfl⟩
  · rw [hlv ht]
    exact Finset.mem_insert_self p A0
  · rw [hlv ht]
    exact hpA

/-- The page table and the allocator keep `PtInv`. -/
def PtState.Inv (kend : Nat) (s : PtState) : Prop :=
  ∃ A fl lv, PtInv kend s.kmem s.mem s.pagetable s.owned A fl lv

section Runs

variable {kend : Nat} (hend : 0 < kend)
include hend

theorem ptInit_inv {k0 : Kmem} {A0 : Finset Nat} (hk : KRun kend k0 A0) (hroot : k0.freelist ≠ 0) (m0 : Mem) :
    (ptInit k0 m0 A0).Inv kend := by
  obtain ⟨fl₀, hpart₀⟩ := hk.partition hend
  cases fl₀ with
  | nil => exact absurd (Sll.chain_nil_iff.1 hpart₀.chain) hroot
  | cons p fl => exact ⟨_, _, _, (ptInit_ptInv hpart₀ m0).1⟩

theorem ptStep_inv {s s' : PtState} {c : PtCall} (hi : s.Inv kend) (hs : ptStep kend s c = .ok s') :
    s'.Inv kend := by
  obtain ⟨A, fl, lv, hi⟩ := hi
  cases c with
  | mappages va size pa perm =>
    rw [ptStep] at hs
    split at hs
    · rename_i km m r hrun
      cases hs
      obtain ⟨-, A', fl', lv', hi', -⟩ := mappages_spec hi (Nat.mod_lt _ (by decide)) hrun
      exact ⟨A', fl', lv', hi'⟩
    · cases hs
  | kalloc =>
    rw [ptStep] at hs
    cases hs
    obtain ⟨A', fl', hi'⟩ := hi.kalloc
    exact ⟨A', fl', lv, hi'⟩
  | kfree pa =>
    rw [ptStep] at hs
    by_cases hpa : pa ∈ s.owned
    · obtain ⟨km', hk, A', fl', hi'⟩ := hi.kfree hend hpa
      rw [if_pos hpa, hk] at hs
      cases hs
      exact ⟨A', fl', lv, hi'⟩
    · rw [if_neg hpa] at hs
      cases hs
  | store a b =>
    rw [ptStep] at hs
    by_cases hg : pgRoundDown a ∈ s.owned ∨ ¬ Managed kend (pgRoundDown a)
    · rw [if_pos hg] at hs
      cases hs
      exact ⟨A, fl, lv, hi.store b hg⟩
    · rw [if_neg hg] at hs
      cases hs

theorem ptInv_of_reachable {k0 : Kmem} {m0 : Mem} {A0 : Finset Nat} (hk : KRun kend k0 A0)
    (hroot : k0.freelist ≠ 0) {s : PtState} (hs : Reachable (ptSystem kend k0 m0 A0) s) : s.Inv kend :=
  Reachable.rec_inv (PtState.Inv kend) (ptInit_inv hend hk hroot m0)
    (fun _ _ _ hi hs => ptStep_inv hend hi hs) hs

end Runs

/-! ## What `mappages` does to the translations -/

/-- A valid leaf of `va`: the walk ends at it and it has `PTE_V`. -/
theorem leafPte_eq_some {m : Mem} {pagetable va pte : Nat} (h : leafPte m va 2 pagetable = some pte) :
    ∃ q, walkLevels m va 2 pagetable = some q ∧ hasFlag (loadLE m q 8) pteV ∧ loadLE m q 8 = pte := by
  unfold leafPte at h
  split at h
  · rename_i q hw
    by_cases hv : hasFlag (loadLE m q 8) pteV
    · rw [if_pos hv] at h
      exact ⟨q, hw, hv, Option.some.inj h⟩
    · rw [if_neg hv] at h
      exact absurd h (by simp)
  · exact absurd h (by simp)

/-- `walkaddr` of a page with a valid leaf: its physical page, when the leaf
has `PTE_U`. -/
theorem walkaddr_of_leafPte {m : Mem} {pagetable va pte : Nat} (hva : va < maxVa)
    (h : leafPte m va 2 pagetable = some pte) :
    walkaddr m pagetable va = if hasFlag pte pteU then pte2pa pte else 0 := by
  obtain ⟨q, hw, hv, rfl⟩ := leafPte_eq_some h
  have hwalk : walk m pagetable va = .ok (some q) := by
    rw [walk, if_neg (by omega), hw]
  rw [walkaddr, if_neg (by omega), hwalk]
  dsimp only
  rw [hv]
  cases hasFlag (loadLE m q 8) pteU <;> rfl

/-- The page of `va` maps to the physical page `pa` with the flags
`perm | PTE_V`: through `walk`, and through `walkaddr` when `perm` has
`PTE_U`. -/
def MapsTo (m : Mem) (pagetable va pa perm : Nat) : Prop :=
  ∃ pte, leafPte m va 2 pagetable = some pte ∧ pte2pa pte = pa ∧ pteFlags pte = perm ||| pteV ∧
    walkaddr m pagetable va = if hasFlag perm pteU then pa else 0

/-- The PTE `mappages` writes for a page-aligned `pa` and flags below bit 10
maps the page to `pa` with those flags. -/
theorem leafVal_mapsTo {m : Mem} {pagetable va pa perm : Nat} (hva : va < maxVa)
    (h : leafPte m va 2 pagetable = some (leafVal pa perm)) (hpa : pa < 2 ^ 64) (hal : pa % pgSize = 0)
    (hperm : perm < 2 ^ 10) : MapsTo m pagetable va pa perm := by
  have hf := perm_or_lt hperm
  have hval : leafVal pa perm = pa2pte pa ||| (perm ||| pteV) := by
    rw [leafVal, Nat.or_assoc, Nat.mod_eq_of_lt (pa2pte_or_lt pa _ hpa hf)]
  have hpa' : pte2pa (leafVal pa perm) = pa := by
    rw [hval, pte2pa_pa2pte_or pa _ hf, pgRoundDown_of_mod_eq_zero hal]
  have hU : hasFlag (leafVal pa perm) pteU = hasFlag perm pteU := by
    rw [hval, hasFlag_pa2pte_or pa _ pteU hf (by decide)]
    unfold hasFlag
    rw [Nat.and_or_distrib_right]
    simp [pteV, pteU]
  refine ⟨leafVal pa perm, h, hpa', ?_, ?_⟩
  · rw [hval, pteFlags_pa2pte_or pa _ hf]
  · rw [walkaddr_of_leafPte hva h, hU, hpa']

theorem pgRoundDown_mono {a b : Nat} (h : a ≤ b) : pgRoundDown a ≤ pgRoundDown b :=
  Nat.mul_le_mul_right _ (Nat.div_le_div_right h)

/-- `mappages` on a page table built by `uvmcreate` and earlier `mappages`
calls, amid any `kalloc`, `kfree` and writes of other kernel code: the tables
are pages from the allocator, handed to no one else, linked as a tree, so
distinct pages never share a leaf PTE; `walk(pagetable, va, 1)` changes no
translation and returns the PTE its walk ends at; and `mappages(pagetable, va,
size, pa, perm)` with `va < MAXVA`, `size > 0`, no wrap of `va + size - 1`,
`pa` page-aligned and `perm` within the flag bits, when it returns, has mapped
the first `n` pages from `PGROUNDDOWN(va)`, each to `pa + k*PGSIZE` with flags
`perm | PTE_V` and each mapping nothing before: all pages to
`PGROUNDDOWN(va + size - 1)` when it returns 0, and a prefix of them when it
returns -1; every other page maps to what it mapped before. -/
theorem mappages_maps_range {kend : Nat} (hend : 0 < kend) {k0 : Kmem} {m0 : Mem} {A0 : Finset Nat}
    (hk : KRun kend k0 A0) (hroot : k0.freelist ≠ 0) {s : PtState} (hs : Reachable (ptSystem kend k0 m0 A0) s) :
    (∃ lv, PtTree s.mem s.pagetable lv ∧ ∀ t l, lv t = some l → Managed kend t ∧ t ∉ s.owned) ∧
    (∀ va va' q, va < maxVa → va' < maxVa → walkLevels s.mem va 2 s.pagetable = some q →
      walkLevels s.mem va' 2 s.pagetable = some q → pgRoundDown va = pgRoundDown va') ∧
    (∀ va km' m' r, walkAlloc s.kmem s.mem s.pagetable va = .ok ((km', m'), r) →
      (∀ va', leafPte m' va' 2 s.pagetable = leafPte s.mem va' 2 s.pagetable) ∧
      ∀ q, r = some q → walkLevels m' va 2 s.pagetable = some q) ∧
    ∀ va size pa perm km' m' r, va < maxVa → 0 < size → va + size ≤ 2 ^ 64 → pa < 2 ^ 64 →
      pa % pgSize = 0 → perm < 2 ^ 10 →
      mappages s.kmem s.mem s.pagetable va size pa perm = .ok (km', m', r) →
      ∃ n, (r = 0 ∧ pgRoundDown va + n * pgSize = pgRoundDown (va + size - 1) + pgSize ∨
          r = -1 ∧ pgRoundDown va + n * pgSize ≤ pgRoundDown (va + size - 1)) ∧
        (∀ k < n, leafPte s.mem (pgRoundDown va + k * pgSize) 2 s.pagetable = none ∧
          MapsTo m' s.pagetable (pgRoundDown va + k * pgSize) ((pa + k * pgSize) % 2 ^ 64) perm) ∧
        ∀ va', va' < maxVa → ¬ (pgRoundDown va ≤ pgRoundDown va' ∧ pgRoundDown va' < pgRoundDown va + n * pgSize) →
          leafPte m' va' 2 s.pagetable = leafPte s.mem va' 2 s.pagetable := by
  obtain ⟨A, fl, lv, hi⟩ := ptInv_of_reachable hend hk hroot hs
  refine ⟨⟨lv, hi.tree, fun t l ht => ⟨(hi.part.cover t).2 (.inr (hi.table_mem t l ht)),
    hi.table_not_owned t l ht⟩⟩, fun va va' q hva hva' hw hw' => hi.tree.leaf_inj hva hva' hw hw',
    fun va km' m' r hw => ?_, fun va size pa perm km' m' r hva hsize hwrap hpa hal hperm hrun => ?_⟩
  · have hlt := walkAlloc_lt hw
    rw [walkAlloc, if_neg (by omega)] at hw
    obtain ⟨-, -, -, -, -, -, -, hleaf, hwalk, -⟩ :=
      walkAllocLevels_spec va 2 hi hi.tree.root (Except.ok.inj hw)
    exact ⟨fun va' => hleaf va' 2 _ hi.tree.root, hwalk⟩
  obtain ⟨n, -, -, -, -, hmax, hres, hnone, hleaf⟩ := mappages_spec hi hpa hrun
  rw [Nat.mod_eq_of_lt (by omega : va + size - 1 < 2 ^ 64)] at hres
  have hle : pgRoundDown va ≤ pgRoundDown (va + size - 1) := pgRoundDown_mono (by omega)
  have hmod := pgRoundDown_mod
  refine ⟨n, ?_, fun k hk => ?_, fun va' hva' hout => ?_⟩
  · rcases hres with ⟨rfl, hn⟩ | ⟨rfl, hn⟩
    · exact .inl ⟨rfl, hn⟩
    · -- no page short of `last` was `last`, so the pages mapped end by it
      refine .inr ⟨rfl, ?_⟩
      have := hn ((pgRoundDown (va + size - 1) - pgRoundDown va) / pgSize)
      have := hmod va
      have := hmod (va + size - 1)
      unfold pgSize at *
      omega
  · -- the `k`-th page
    have hk' : k * pgSize < n * pgSize := (Nat.mul_lt_mul_right (by decide)).2 hk
    have hpage : pgRoundDown (pgRoundDown va + k * pgSize) = pgRoundDown va + k * pgSize :=
      pgRoundDown_of_mod_eq_zero (by have := hmod va; unfold pgSize at *; omega)
    have hva' : pgRoundDown va + k * pgSize < maxVa := by omega
    refine ⟨hnone _ hva' (by omega) (by omega), leafVal_mapsTo hva' ?_ (Nat.mod_lt _ (by decide))
      (by unfold pgSize at *; omega) hperm⟩
    rw [hleaf _ hva', hpage, if_pos ⟨by omega, by omega⟩, Nat.add_sub_cancel_left]
  · rw [hleaf va' hva', if_neg hout]

/-! ## A small machine -/

/-- The kernel's end three pages below `PHYSTOP`. -/
def kendTop : Nat := phystop - 3 * pgSize

/-- The allocator after `kinit` with the kernel ending at `kendTop`: the three
pages above it free, the highest first. -/
def kmemTop : Kmem :=
  ⟨Function.update (Function.update (Function.update (fun _ => 0) kendTop 0) (kendTop + pgSize) kendTop)
      (kendTop + 2 * pgSize) (kendTop + pgSize),
    kendTop + 2 * pgSize⟩

theorem kinit_kendTop : kinit kendTop (fun _ => 0) = .ok kmemTop := by
  have hround : pgRoundUp kendTop = kendTop := by decide
  unfold kinit freerange
  rw [hround, freerangeLoop, if_pos (by decide), kfree_of_managed _ (by decide), Result.ok_bind,
    freerangeLoop, if_pos (by decide), kfree_of_managed _ (by decide), Result.ok_bind,
    freerangeLoop, if_pos (by decide), kfree_of_managed _ (by decide), Result.ok_bind,
    freerangeLoop, if_neg (by decide)]
  rfl

set_option maxRecDepth 20000 in
/-- On the three-page machine, after a `kalloc`. -/
theorem mappages_maps_range_after_kalloc :
    ∃ s, run (ptSystem kendTop kmemTop (fun _ => 0) ∅) (ptInit kmemTop (fun _ => 0) ∅) [.kalloc] = .ok s ∧
      (∃ lv, PtTree s.mem s.pagetable lv ∧ ∀ t l, lv t = some l → Managed kendTop t ∧ t ∉ s.owned) ∧
      (∀ va va' q, va < maxVa → va' < maxVa → walkLevels s.mem va 2 s.pagetable = some q →
        walkLevels s.mem va' 2 s.pagetable = some q → pgRoundDown va = pgRoundDown va') ∧
      (∀ va km' m' r, walkAlloc s.kmem s.mem s.pagetable va = .ok ((km', m'), r) →
        (∀ va', leafPte m' va' 2 s.pagetable = leafPte s.mem va' 2 s.pagetable) ∧
        ∀ q, r = some q → walkLevels m' va 2 s.pagetable = some q) ∧
      ∀ va size pa perm km' m' r, va < maxVa → 0 < size → va + size ≤ 2 ^ 64 → pa < 2 ^ 64 →
        pa % pgSize = 0 → perm < 2 ^ 10 →
        mappages s.kmem s.mem s.pagetable va size pa perm = .ok (km', m', r) →
        ∃ n, (r = 0 ∧ pgRoundDown va + n * pgSize = pgRoundDown (va + size - 1) + pgSize ∨
            r = -1 ∧ pgRoundDown va + n * pgSize ≤ pgRoundDown (va + size - 1)) ∧
          (∀ k < n, leafPte s.mem (pgRoundDown va + k * pgSize) 2 s.pagetable = none ∧
            MapsTo m' s.pagetable (pgRoundDown va + k * pgSize) ((pa + k * pgSize) % 2 ^ 64) perm) ∧
          ∀ va', va' < maxVa → ¬ (pgRoundDown va ≤ pgRoundDown va' ∧ pgRoundDown va' < pgRoundDown va + n * pgSize) →
            leafPte m' va' 2 s.pagetable = leafPte s.mem va' 2 s.pagetable :=
  Exists.imp (fun s hs => ⟨hs, mappages_maps_range (by decide) (KRun.kinit kinit_kendTop) (by decide)
    (reachable_of_run .init _ s hs)⟩) ⟨_, rfl⟩

/-- The free list of `kmemTop`. -/
theorem partition_kmemTop : Partition kendTop kmemTop ∅ [kendTop + 2 * pgSize, kendTop + pgSize, kendTop] := by
  refine ⟨?_, fun p => ?_, fun p _ h => absurd h (Finset.notMem_empty p)⟩
  · simp only [Sll.chain_cons_iff, Sll.chain_nil_iff]
    decide
  · have hround : pgRoundUp kendTop = kendTop := by decide
    unfold Managed
    rw [hround]
    simp only [List.mem_cons, List.not_mem_nil, Finset.notMem_empty, or_false]
    unfold kendTop phystop kernBase pgSize
    omega

/-- `mappages` of the physical address 0x1001, not a page boundary, as a user
page at 0 of a new page table: it returns 0, yet the page maps to 0x1000 and
`walkaddr` returns 0x1000, not 0x1001. -/
theorem mappages_unaligned_pa :
    Reachable (ptSystem kendTop kmemTop (fun _ => 0) ∅) (ptInit kmemTop (fun _ => 0) ∅) ∧
    ∃ km' m' pte, mappages (ptInit kmemTop (fun _ => 0) ∅).kmem (ptInit kmemTop (fun _ => 0) ∅).mem
        (ptInit kmemTop (fun _ => 0) ∅).pagetable 0 1 0x1001 (pteR ||| pteU) = .ok (km', m', 0) ∧
      leafPte m' 0 2 (ptInit kmemTop (fun _ => 0) ∅).pagetable = some pte ∧ pte2pa pte = 0x1000 ∧
      walkaddr m' (ptInit kmemTop (fun _ => 0) ∅).pagetable 0 = 0x1000 := by
  refine ⟨Reachable.init, ?_⟩
  obtain ⟨hi, hroot, hmem⟩ := ptInit_ptInv partition_kmemTop (fun _ => 0)
  -- the new table maps nothing, and two free pages remain for the tables below it
  have hnone : ∀ k ≤ 0, leafPte (ptInit kmemTop (fun _ => 0) ∅).mem (0 + k * pgSize) 2
      (ptInit kmemTop (fun _ => 0) ∅).pagetable = none := fun k _ => by
    rw [hmem, hroot]
    exact leafPte_of_zero (fun i hi => pteAt_memset_zero _ _ hi) _ _
  obtain ⟨km', m', hrun⟩ : ∃ km' m', mappagesLoop 0 (pteR ||| pteU) (ptInit kmemTop (fun _ => 0) ∅).pagetable
      (ptInit kmemTop (fun _ => 0) ∅).kmem (ptInit kmemTop (fun _ => 0) ∅).mem 0 0x1001 = .ok (km', m', 0) :=
    mappagesLoop_ok 0 _ (by decide) 0 rfl (by decide) hi (by decide) hnone
  have hmap : mappages (ptInit kmemTop (fun _ => 0) ∅).kmem (ptInit kmemTop (fun _ => 0) ∅).mem
      (ptInit kmemTop (fun _ => 0) ∅).pagetable 0 1 0x1001 (pteR ||| pteU) = .ok (km', m', 0) := by
    unfold mappages
    rw [if_neg (by decide)]
    exact hrun
  obtain ⟨n, -, -, -, -, -, hres, -, hleaf⟩ := mappages_spec hi (by decide) hmap
  have hn : n = 1 := by
    rcases hres with ⟨-, h⟩ | ⟨h, -⟩
    · have h0 : pgRoundDown 0 = 0 := rfl
      have h1 : pgRoundDown ((0 + 1 - 1) % 2 ^ 64) = 0 := rfl
      rw [h0, h1] at h
      unfold pgSize at h
      omega
    · cases h
  subst hn
  have h0 := hleaf 0 (by decide)
  rw [if_pos (by decide)] at h0
  refine ⟨km', m', _, hmap, h0, by decide, ?_⟩
  rw [walkaddr_of_leafPte (by decide) h0]
  decide

end Xv6.Vm
