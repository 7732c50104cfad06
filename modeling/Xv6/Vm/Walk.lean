import Xv6.Lib.Memory
import Xv6.Vm.Riscv

/-
  Xv6/Vm/Walk.lean --- page-table walks and copies to user space (kernel/vm.c).

  PHYSICAL MEMORY.  The kernel direct-maps RAM, so a pointer is a physical
  address and memory is one byte-addressed `Mem`.  A page-table page is 512
  eight-byte PTEs, read little-endian as RISC-V stores them; `pagetable[i]` is
  the word at `pagetable + 8*i`.  Page tables and data therefore live in the
  same memory, as in the kernel.

  `walk` is modelled here for `alloc = 0`, the only way `walkaddr` calls it;
  its `MAXVA` panic is the `error` of its result.  `copyout`'s `while (len > 0)`
  loop consumes at least one byte each round, so it is written with the length
  of the source as fuel, which is always enough.  The source
  bytes are read when `copyout` is called: `src` is a kernel buffer, not one of
  the user pages being written.  `copyin` is the same loop the other way: it
  returns the bytes it has copied to its kernel buffer, which on a page it
  cannot translate are those of the pages before.
-/

set_option autoImplicit false

namespace Xv6.Vm

open Memory

/-- `pagetable[i]`: the `i`-th PTE of the page-table page at `pt`. -/
def pteAt (m : Mem) (pt i : Nat) : Nat := loadLE m (pt + 8 * i) 8

/-- The loop of `walk`, from `level` down, without allocation: descend through
valid PTEs and return the address of the level-0 PTE, or `none` (C's 0) at the
first invalid one. -/
def walkLevels (m : Mem) (va : Nat) : Nat → Nat → Option Nat
  | 0, pt => some (pt + 8 * px 0 va)
  | level + 1, pt =>
    if hasFlag (pteAt m pt (px (level + 1) va)) pteV then
      walkLevels m va level (pte2pa (pteAt m pt (px (level + 1) va)))
    else none

/-- `walk(pagetable, va, 0)`: the address of the leaf PTE of `va`, if the upper
levels are valid; `panic("walk")` for `va >= MAXVA`. -/
def walk (m : Mem) (pagetable va : Nat) : Except String (Option Nat) :=
  if va ≥ maxVa then .error "walk" else .ok (walkLevels m va 2 pagetable)

/-- `walkaddr`: the physical address `va` maps to, or 0 unless the leaf PTE is
valid and user-accessible. -/
def walkaddr (m : Mem) (pagetable va : Nat) : Nat :=
  if va ≥ maxVa then 0
  else
    match walk m pagetable va with
    | .ok (some pte) =>
      if !hasFlag (loadLE m pte 8) pteV then 0
      else if !hasFlag (loadLE m pte 8) pteU then 0
      else pte2pa (loadLE m pte 8)
    | _ => 0

/-- The loop of `copyout`, one round per page: copy the bytes of `src` that fall
in the page of `dstva`, then continue at the start of the next page. -/
def copyoutLoop (pagetable : Nat) : Nat → Mem → Nat → List UInt8 → Int × Mem
  | 0, m, _, _ => (0, m)
  | fuel + 1, m, dstva, src =>
    if src.length = 0 then (0, m)
    else
      let va0 := pgRoundDown dstva
      let pa0 := walkaddr m pagetable va0
      if pa0 = 0 then (-1, m)
      else
        let n := min (pgSize - (dstva - va0)) src.length
        copyoutLoop pagetable fuel (writeBytes m (pa0 + (dstva - va0)) (src.take n))
          (va0 + pgSize) (src.drop n)

/-- `copyout(pagetable, dstva, src, len)` with `src` the `len` bytes to copy:
the return value (0 or -1) and the memory afterwards. -/
def copyout (m : Mem) (pagetable dstva : Nat) (src : List UInt8) : Int × Mem :=
  copyoutLoop pagetable src.length m dstva src

/-- The loop of `copyin`, one round per page: the bytes of the source that fall
in the page of `srcva`, then on from the start of the next page.  It returns 0
or -1 and the bytes that reached `dst`: on -1, those of the pages before the
first one `walkaddr` does not translate. -/
def copyinLoop (m : Mem) (pagetable : Nat) : Nat → Nat → Nat → Int × List UInt8
  | 0, _, _ => (0, [])
  | fuel + 1, srcva, len =>
    if len = 0 then (0, [])
    else
      let va0 := pgRoundDown srcva
      let pa0 := walkaddr m pagetable va0
      if pa0 = 0 then (-1, [])
      else
        let n := min (pgSize - (srcva - va0)) len
        let r := copyinLoop m pagetable fuel (va0 + pgSize) (len - n)
        (r.1, readBytes m (pa0 + (srcva - va0)) n ++ r.2)

/-- `copyin(pagetable, dst, srcva, len)`: the return value (0 or -1) and the
bytes it copied to `dst`. -/
def copyin (m : Mem) (pagetable srcva len : Nat) : Int × List UInt8 :=
  copyinLoop m pagetable len srcva len

/-- The byte at user virtual address `va`, through the page table. -/
def userByte (m : Mem) (pagetable va : Nat) : UInt8 :=
  m (walkaddr m pagetable (pgRoundDown va) + (va - pgRoundDown va))

/-! ## What `walkaddr` checks -/

/-- `walkaddr` succeeds exactly when the walk reaches a leaf PTE with `PTE_V`
and `PTE_U` set; no other permission bit is looked at. -/
theorem walkaddr_ne_zero_iff (m : Mem) (pagetable va : Nat) :
    walkaddr m pagetable va ≠ 0 ↔
      va < maxVa ∧ ∃ pte, walkLevels m va 2 pagetable = some pte ∧
        hasFlag (loadLE m pte 8) pteV ∧ hasFlag (loadLE m pte 8) pteU ∧
        pte2pa (loadLE m pte 8) ≠ 0 := by
  unfold walkaddr walk
  by_cases hva : va ≥ maxVa
  · simp [hva, Nat.not_lt.2 hva]
  · rw [if_neg hva, if_neg hva]
    cases hw : walkLevels m va 2 pagetable with
    | none => simp
    | some pte =>
      -- the two flag tests of `walkaddr`, in its order
      by_cases hV : hasFlag (loadLE m pte 8) pteV
      · by_cases hU : hasFlag (loadLE m pte 8) pteU
        · simp [hV, hU, Nat.not_le.1 hva]
        · simp [hV, hU]
      · simp [hV]

/-- A `walkaddr` that is not 0 is the address in the valid leaf PTE the walk
reaches. -/
theorem walkaddr_eq_pte2pa {m : Mem} {pagetable va : Nat} (h : walkaddr m pagetable va ≠ 0) :
    ∃ pte, walkLevels m va 2 pagetable = some pte ∧ hasFlag (loadLE m pte 8) pteV ∧
      walkaddr m pagetable va = pte2pa (loadLE m pte 8) := by
  obtain ⟨hva, pte, hw, hV, hU, -⟩ := (walkaddr_ne_zero_iff _ _ _).1 h
  refine ⟨pte, hw, hV, ?_⟩
  unfold walkaddr walk
  simp [Nat.not_le.2 hva, hw, hV, hU]

/-! ## What a walk reads -/

theorem px_lt (level va : Nat) : px level va < 512 := by
  have h : (va >>> (12 + 9 * level)) &&& 0x1FF ≤ 0x1FF := Nat.and_le_right
  unfold px
  omega

/-- The addresses of the PTEs the walk of `va` reads, from `level` down: one per
level while they are valid, the leaf's included. -/
def walkPath (m : Mem) (va : Nat) : Nat → Nat → List Nat
  | 0, pt => [pt + 8 * px 0 va]
  | level + 1, pt =>
    (pt + 8 * px (level + 1) va) ::
      if hasFlag (pteAt m pt (px (level + 1) va)) pteV then
        walkPath m va level (pte2pa (pteAt m pt (px (level + 1) va)))
      else []

/-- The leaf PTE a walk returns is on its path. -/
theorem mem_walkPath_of_walkLevels {m : Mem} {va : Nat} :
    ∀ level pt pte, walkLevels m va level pt = some pte → pte ∈ walkPath m va level pt := by
  intro level
  induction level with
  | zero =>
    intro pt pte h
    cases h
    exact List.mem_singleton_self _
  | succ level ih =>
    intro pt pte h
    rw [walkLevels] at h
    by_cases hv : hasFlag (pteAt m pt (px (level + 1) va)) pteV
    · rw [if_pos hv] at h
      rw [walkPath, if_pos hv]
      exact List.mem_cons_of_mem _ (ih _ _ h)
    · rw [if_neg hv] at h
      cases h

/-- A walk reads only the PTEs on its path. -/
theorem walkLevels_congr {m m' : Mem} {va : Nat} :
    ∀ level pt, (∀ p ∈ walkPath m va level pt, ∀ j < 8, m' (p + j) = m (p + j)) →
      walkLevels m' va level pt = walkLevels m va level pt := by
  intro level
  induction level with
  | zero => intro _ _; rfl
  | succ level ih =>
    intro pt h
    have hpte : pteAt m' pt (px (level + 1) va) = pteAt m pt (px (level + 1) va) :=
      loadLE_eq_of_bytes _ _ _ _ 8 (h _ List.mem_cons_self)
    rw [walkLevels, walkLevels, hpte]
    by_cases hv : hasFlag (pteAt m pt (px (level + 1) va)) pteV
    · rw [if_pos hv, if_pos hv]
      refine ih _ fun p hp => h p ?_
      rw [walkPath, if_pos hv]
      exact List.mem_cons_of_mem _ hp
    · rw [if_neg hv, if_neg hv]

/-- `walkaddr` reads only the PTEs on the walk's path. -/
theorem walkaddr_congr {m m' : Mem} {pagetable va : Nat}
    (h : ∀ p ∈ walkPath m va 2 pagetable, ∀ j < 8, m' (p + j) = m (p + j)) :
    walkaddr m' pagetable va = walkaddr m pagetable va := by
  unfold walkaddr walk
  by_cases hva : va ≥ maxVa
  · rw [if_pos hva, if_pos hva]
  simp only [if_neg hva]
  rw [walkLevels_congr 2 pagetable h]
  cases hw : walkLevels m va 2 pagetable with
  | none => rfl
  | some pte =>
    have hleaf : loadLE m' pte 8 = loadLE m pte 8 :=
      loadLE_eq_of_bytes _ _ _ _ 8 (h pte (mem_walkPath_of_walkLevels 2 pagetable pte hw))
    simp [hleaf]

/-! ## Where `copyout` writes

A copy to user memory may itself change a page table when a user page is also
a page-table page; the kernel never builds such a table.  `PtSeparate` states
that, and under it `copyout` is a copy into the pages `walkaddr` gives. -/

/-- Byte `a` lies in a physical page `walkaddr` gives for some user address. -/
def InUserPage (m : Mem) (pagetable a : Nat) : Prop :=
  ∃ va, walkaddr m pagetable va ≠ 0 ∧ walkaddr m pagetable va ≤ a ∧
    a < walkaddr m pagetable va + pgSize

/-- `m'` differs from `m` only inside the user pages of `m`. -/
def AgreeOutside (m m' : Mem) (pagetable : Nat) : Prop :=
  ∀ a, ¬ InUserPage m pagetable a → m' a = m a

/-- The page-table pages lie apart from the user pages: changing bytes of user
pages changes no translation. -/
def PtSeparate (m : Mem) (pagetable : Nat) : Prop :=
  ∀ m', AgreeOutside m m' pagetable → ∀ va, walkaddr m' pagetable va = walkaddr m pagetable va

/-- Page tables whose PTE words lie outside every user page, on every walk,
lie apart from the user pages. -/
theorem ptSeparate_of_walkPath {m : Mem} {pagetable : Nat}
    (h : ∀ va, ∀ p ∈ walkPath m va 2 pagetable, ∀ j < 8, ¬ InUserPage m pagetable (p + j)) :
    PtSeparate m pagetable :=
  fun _ hag va => walkaddr_congr fun p hp j hj => hag _ (h va p hp j hj)

/-- A round of `copyout` copies to the end of the page at most. -/
theorem off_add_length_take_le (dstva : Nat) (src : List UInt8) :
    dstva - pgRoundDown dstva +
      (src.take (min (pgSize - (dstva - pgRoundDown dstva)) src.length)).length ≤ pgSize := by
  have := lt_pgRoundDown_add dstva
  simp only [List.length_take]
  omega

section Copy

variable {m : Mem} {pagetable : Nat}

/-- A write inside a page `walkaddr` gives changes only user pages. -/
theorem AgreeOutside.writeBytes {m1 : Mem} (h : AgreeOutside m m1 pagetable) {va : Nat}
    (hpa : walkaddr m pagetable va ≠ 0) (off : Nat) (bs : List UInt8) (hfit : off + bs.length ≤ pgSize) :
    AgreeOutside m (Memory.writeBytes m1 (walkaddr m pagetable va + off) bs) pagetable := by
  intro a ha
  have hout : ¬ (walkaddr m pagetable va ≤ a ∧ a < walkaddr m pagetable va + pgSize) :=
    fun hin => ha ⟨va, hpa, hin.1, hin.2⟩
  rw [writeBytes_of_lt_or_le _ _ _ (by omega), h a ha]

/-- One round of `copyout` into a page `walkaddr` gives changes only user pages. -/
theorem AgreeOutside.writeRound {m1 : Mem} (h : AgreeOutside m m1 pagetable) (dstva : Nat)
    (src : List UInt8) (hpa : walkaddr m pagetable (pgRoundDown dstva) ≠ 0) :
    AgreeOutside m
      (Memory.writeBytes m1 (walkaddr m pagetable (pgRoundDown dstva) + (dstva - pgRoundDown dstva))
        (src.take (min (pgSize - (dstva - pgRoundDown dstva)) src.length))) pagetable :=
  h.writeBytes hpa _ _ (off_add_length_take_le dstva src)

@[simp] theorem copyoutLoop_nil (fuel : Nat) (m1 : Mem) (dstva : Nat) :
    copyoutLoop pagetable fuel m1 dstva [] = (0, m1) := by
  cases fuel <;> rfl

/-- A copy that stays inside one translated page is one write to that page. -/
theorem copyout_of_one_page (dstva : Nat) (src : List UInt8)
    (hpa : walkaddr m pagetable (pgRoundDown dstva) ≠ 0)
    (hfit : dstva - pgRoundDown dstva + src.length ≤ pgSize) :
    copyout m pagetable dstva src =
      (0, Memory.writeBytes m (walkaddr m pagetable (pgRoundDown dstva) + (dstva - pgRoundDown dstva)) src) := by
  cases src with
  | nil => rfl
  | cons b bs =>
    have hall : min (pgSize - (dstva - pgRoundDown dstva)) (bs.length + 1) = bs.length + 1 := by
      simp only [List.length_cons] at hfit ⊢
      omega
    simp only [copyout, copyoutLoop, List.length_cons, Nat.add_one_ne_zero, if_false, hpa, hall]
    rw [List.take_of_length_le (by simp), List.drop_of_length_le (by simp), copyoutLoop_nil]

/-- The loop of `copyout` changes only user pages. -/
theorem copyoutLoop_agreeOutside (hsep : PtSeparate m pagetable) :
    ∀ fuel m1 dstva (src : List UInt8), AgreeOutside m m1 pagetable →
      AgreeOutside m (copyoutLoop pagetable fuel m1 dstva src).2 pagetable := by
  intro fuel
  induction fuel with
  | zero => intro m1 _ _ h; exact h
  | succ fuel ih =>
    intro m1 dstva src h
    have hwa := hsep m1 h (pgRoundDown dstva)
    rw [copyoutLoop]
    by_cases h0 : src.length = 0
    · rw [if_pos h0]
      exact h
    · rw [if_neg h0]
      by_cases hpa : walkaddr m1 pagetable (pgRoundDown dstva) = 0
      · simp only [hpa, if_pos]
        exact h
      · have hpa' : walkaddr m pagetable (pgRoundDown dstva) ≠ 0 := hwa ▸ hpa
        simp only [hwa, hpa', if_false]
        exact ih _ _ _ (h.writeRound dstva src hpa')

/-- Under separation, the loop of `copyout` returns 0 exactly when every byte of
the destination lies in a page `walkaddr` translates, when it has enough fuel. -/
theorem copyoutLoop_eq_zero_iff (hsep : PtSeparate m pagetable) :
    ∀ fuel m1 dstva (src : List UInt8), src.length ≤ fuel → AgreeOutside m m1 pagetable →
      ((copyoutLoop pagetable fuel m1 dstva src).1 = 0 ↔
        ∀ a, dstva ≤ a → a < dstva + src.length → walkaddr m pagetable (pgRoundDown a) ≠ 0) := by
  intro fuel
  induction fuel with
  | zero =>
    intro m1 dstva src hlen _
    simp only [copyoutLoop, true_iff]
    intro a h1 h2
    omega
  | succ fuel ih =>
    intro m1 dstva src hlen h
    have hwa := hsep m1 h (pgRoundDown dstva)
    have hlo := pgRoundDown_le dstva
    have hhi := lt_pgRoundDown_add dstva
    rw [copyoutLoop]
    by_cases h0 : src.length = 0
    · simp only [h0, if_pos, true_iff]
      intro a h1 h2
      omega
    · rw [if_neg h0]
      by_cases hpa : walkaddr m1 pagetable (pgRoundDown dstva) = 0
      -- the first page is not translated: -1, and `dstva` itself is a witness
      · simp only [hpa, if_pos]
        refine ⟨fun h => absurd h (by decide), fun hall => ?_⟩
        exact absurd (hwa ▸ hpa) (hall dstva (Nat.le_refl _) (by omega))
      · have hpa' : walkaddr m pagetable (pgRoundDown dstva) ≠ 0 := hwa ▸ hpa
        simp only [hwa, hpa', if_false]
        rw [ih _ _ _ (by simp only [List.length_drop]; omega) (h.writeRound dstva src hpa')]
        simp only [List.length_drop]
        -- the destination splits at the end of the first page
        have hfirst : ∀ a, dstva ≤ a → a < pgRoundDown dstva + pgSize →
            pgRoundDown a = pgRoundDown dstva :=
          fun a h1 h2 => pgRoundDown_eq_of_mem (Nat.le_trans hlo h1) h2
        constructor
        · intro hrest a h1 h2
          by_cases ha : a < pgRoundDown dstva + pgSize
          · rw [hfirst a h1 ha]
            exact hpa'
          · exact hrest a (by omega) (by omega)
        · intro hall a h1 h2
          exact hall a (by omega) (by omega)

/-- `copyout` writes only to user pages. -/
theorem copyout_writes_user_pages (hsep : PtSeparate m pagetable) (dstva : Nat)
    (src : List UInt8) (a : Nat) (ha : (copyout m pagetable dstva src).2 a ≠ m a) :
    InUserPage m pagetable a := by
  by_contra hnot
  exact ha (copyoutLoop_agreeOutside hsep _ _ _ _ (fun _ _ => rfl) a hnot)

/-- `copyout` returns 0 exactly when every page the destination overlaps is
translated by `walkaddr`, that is, mapped with `PTE_V` and `PTE_U`. -/
theorem copyout_eq_zero_iff (hsep : PtSeparate m pagetable) (dstva : Nat) (src : List UInt8) :
    (copyout m pagetable dstva src).1 = 0 ↔
      ∀ a, dstva ≤ a → a < dstva + src.length → walkaddr m pagetable (pgRoundDown a) ≠ 0 :=
  copyoutLoop_eq_zero_iff hsep _ _ _ _ (Nat.le_refl _) (fun _ _ => rfl)

/-- The loop of `copyin` on a source every page of which `walkaddr`
translates: it returns 0 and the source's bytes, when it has enough fuel. -/
theorem copyinLoop_of_mapped :
    ∀ fuel srcva len, len ≤ fuel →
      (∀ a, srcva ≤ a → a < srcva + len → walkaddr m pagetable (pgRoundDown a) ≠ 0) →
      copyinLoop m pagetable fuel srcva len = (0, (List.range len).map fun i => userByte m pagetable (srcva + i)) := by
  intro fuel
  induction fuel with
  | zero =>
    intro srcva len hlen _
    rw [Nat.le_zero.1 hlen]
    rfl
  | succ fuel ih =>
    intro srcva len hlen hmap
    rw [copyinLoop]
    by_cases h0 : len = 0
    · subst h0
      rfl
    have hlo := pgRoundDown_le srcva
    have hhi := lt_pgRoundDown_add srcva
    have hpa := hmap srcva (Nat.le_refl _) (by omega)
    simp only [h0, hpa, if_false]
    -- the first round copies up to the end of the page of `srcva`
    set n := min (pgSize - (srcva - pgRoundDown srcva)) len with hn
    rw [ih _ _ (by omega) fun a h1 h2 => hmap a (by omega) (by omega)]
    have hsplit : List.range len = List.range n ++ (List.range (len - n)).map (n + ·) := by
      rw [← List.range_add]
      congr 1
      omega
    rw [hsplit, List.map_append, List.map_map, readBytes_eq_map]
    refine Prod.ext rfl (congrArg₂ (· ++ ·) ?_ ?_)
    · refine List.map_congr_left fun i hi => ?_
      have hi := List.mem_range.1 hi
      have hpage : pgRoundDown (srcva + i) = pgRoundDown srcva :=
        pgRoundDown_eq_of_mem (by omega) (by omega)
      simp only [userByte, hpage]
      congr 1
      omega
    · refine List.map_congr_left fun i hi => ?_
      have hi := List.mem_range.1 hi
      simp only [Function.comp_apply]
      congr 1
      omega

end Copy

/-! ## exec.c -/

/-- `flags2perm`: the PTE permissions `exec` gives an ELF segment. -/
def flags2perm (flags : Nat) : Nat :=
  let perm := if flags &&& 0x1 != 0 then pteX else 0
  if flags &&& 0x2 != 0 then perm ||| pteW else perm

/-! ## A read-only text page

The page tables `exec` builds for a program whose first page is text: root
page-table page at 0x1000, level-1 page at 0x2000, level-0 page at 0x3000, and
the text page at 0x4000 mapped at virtual address 0.  `uvmalloc` maps a segment
with `PTE_R | PTE_U | flags2perm(ph.flags)`, and a text segment's ELF flags are
read and execute (5), so the leaf has no `PTE_W`.  The first code byte is 0x13.
Every other PTE is 0, so the page-table pages lie apart from the one user page
(`ptSeparate_textImage`) and the results on `copyout` above apply. -/

/-- Memory holding that address space. -/
def textImage : Mem :=
  let m0 : Mem := fun a => if a = 0x4000 then 0x13 else 0
  let m1 := storeLE m0 (0x1000 + 8 * 0) (pa2pte 0x2000 ||| pteV) 8
  let m2 := storeLE m1 (0x2000 + 8 * 0) (pa2pte 0x3000 ||| pteV) 8
  storeLE m2 (0x3000 + 8 * 0) (pa2pte 0x4000 ||| (pteR ||| pteU ||| flags2perm 5) ||| pteV) 8

/-- The bytes of `textImage` outside its three PTEs and its code byte are 0. -/
theorem textImage_of_ne {a : Nat} (h1 : a < 0x1000 ∨ 0x1008 ≤ a) (h2 : a < 0x2000 ∨ 0x2008 ≤ a)
    (h3 : a < 0x3000 ∨ 0x3008 ≤ a) (h4 : a ≠ 0x4000) : textImage a = 0 := by
  unfold textImage
  rw [storeLE_of_lt_or_le _ _ _ _ (by omega), storeLE_of_lt_or_le _ _ _ _ (by omega),
    storeLE_of_lt_or_le _ _ _ _ (by omega), if_neg h4]

/-- Each page-table page of `textImage` has one PTE that is not 0, its first. -/
theorem pteAt_textImage_of_pos {pt i : Nat} (hpt : pt = 0x1000 ∨ pt = 0x2000 ∨ pt = 0x3000)
    (hi : 0 < i) (hi' : i < 512) : pteAt textImage pt i = 0 :=
  loadLE_of_zero _ _ _ fun j hj => textImage_of_ne (by omega) (by omega) (by omega) (by omega)

/-- A PTE of a page-table page of `textImage` is valid exactly when it is the
page's first. -/
theorem validPte_textImage {pt i : Nat} (hpt : pt = 0x1000 ∨ pt = 0x2000 ∨ pt = 0x3000)
    (hi : i < 512) : hasFlag (pteAt textImage pt i) pteV = decide (i = 0) := by
  rcases Nat.eq_zero_or_pos i with rfl | hpos
  · rcases hpt with rfl | rfl | rfl <;> decide
  · rw [pteAt_textImage_of_pos hpt hpos hi, decide_eq_false (by omega)]
    decide

/-- Where the first PTEs of `textImage` point: the next page-table page, and
from the leaf, the text page. -/
theorem pte2pa_textImage :
    pte2pa (pteAt textImage 0x1000 0) = 0x2000 ∧ pte2pa (pteAt textImage 0x2000 0) = 0x3000 ∧
      pte2pa (pteAt textImage 0x3000 0) = 0x4000 := by
  decide

/-- The walks in `textImage`: a walk reads the root's PTE, and goes on to the
next level only through a first PTE. -/
theorem walkPath_textImage (va : Nat) :
    walkPath textImage va 2 0x1000 =
      if px 2 va ≠ 0 then [0x1000 + 8 * px 2 va]
      else if px 1 va ≠ 0 then [0x1000 + 8 * px 2 va, 0x2000 + 8 * px 1 va]
      else [0x1000 + 8 * px 2 va, 0x2000 + 8 * px 1 va, 0x3000 + 8 * px 0 va] := by
  have hv2 := validPte_textImage (Or.inl rfl) (px_lt 2 va)
  have hv1 := validPte_textImage (Or.inr (Or.inl rfl)) (px_lt 1 va)
  obtain ⟨hpa2, hpa1, -⟩ := pte2pa_textImage
  by_cases i2 : px 2 va = 0
  · rw [i2] at hv2
    by_cases i1 : px 1 va = 0
    · rw [i1] at hv1
      simp [walkPath, i2, i1, hv2, hpa2, hv1, hpa1]
    · simp [walkPath, i2, i1, hv2, hpa2, hv1]
  · simp [walkPath, hv2, i2]

/-- The leaf PTE a walk in `textImage` reaches: one of the last page-table
page, for the virtual addresses below 2 MiB. -/
theorem walkLevels_textImage (va : Nat) :
    walkLevels textImage va 2 0x1000 =
      if px 2 va = 0 ∧ px 1 va = 0 then some (0x3000 + 8 * px 0 va) else none := by
  have hv2 := validPte_textImage (Or.inl rfl) (px_lt 2 va)
  have hv1 := validPte_textImage (Or.inr (Or.inl rfl)) (px_lt 1 va)
  obtain ⟨hpa2, hpa1, -⟩ := pte2pa_textImage
  by_cases i2 : px 2 va = 0
  · rw [i2] at hv2
    by_cases i1 : px 1 va = 0
    · rw [i1] at hv1
      simp [walkLevels, i2, i1, hv2, hpa2, hv1, hpa1]
    · simp [walkLevels, i2, i1, hv2, hpa2, hv1]
  · simp [walkLevels, hv2, i2]

/-- The one page `walkaddr` gives in `textImage` is the text page. -/
theorem walkaddr_textImage {va : Nat} (h : walkaddr textImage 0x1000 va ≠ 0) :
    walkaddr textImage 0x1000 va = 0x4000 := by
  obtain ⟨pte, hw, hV, heq⟩ := walkaddr_eq_pte2pa h
  rw [walkLevels_textImage] at hw
  split_ifs at hw
  cases hw
  -- only the first PTE of the leaf page is valid
  have h0 : px 0 va = 0 := by
    have := validPte_textImage (Or.inr (Or.inr rfl)) (px_lt 0 va)
    rw [pteAt] at this
    simpa [this] using hV
  rw [heq, h0]
  exact pte2pa_textImage.2.2

/-- Every user page of `textImage` lies at or above the text page. -/
theorem inUserPage_textImage {a : Nat} (h : InUserPage textImage 0x1000 a) : 0x4000 ≤ a := by
  obtain ⟨va, hne, hle, -⟩ := h
  rwa [walkaddr_textImage hne] at hle

/-- In `textImage` the page-table pages lie apart from the text page. -/
theorem ptSeparate_textImage : PtSeparate textImage 0x1000 := by
  refine ptSeparate_of_walkPath fun va p hp j hj hin => ?_
  have := px_lt 2 va
  have := px_lt 1 va
  have := px_lt 0 va
  -- the PTE words of every walk lie below the text page
  have hlt : p + 8 ≤ 0x4000 := by
    rw [walkPath_textImage] at hp
    split_ifs at hp <;> simp only [List.mem_cons, List.not_mem_nil, or_false] at hp <;> omega
  have := inUserPage_textImage hin
  omega

/-- Two bytes to virtual address 0xfff, across the end of the text page: the
page after it is not mapped, so `copyout` fails, as its characterisation says. -/
theorem copyout_eq_zero_iff_across_text_page :
    PtSeparate textImage 0x1000 ∧ (copyout textImage 0x1000 0xfff [0x41, 0x42]).1 = -1 ∧
      ((copyout textImage 0x1000 0xfff [0x41, 0x42]).1 = 0 ↔
        ∀ a, 0xfff ≤ a → a < 0xfff + [0x41, 0x42].length →
          walkaddr textImage 0x1000 (pgRoundDown a) ≠ 0) :=
  ⟨ptSeparate_textImage, rfl, copyout_eq_zero_iff ptSeparate_textImage 0xfff [0x41, 0x42]⟩

/-- The byte `copyout` changes at virtual address 0 lies in a user page. -/
theorem copyout_writes_user_pages_text_page :
    PtSeparate textImage 0x1000 ∧ InUserPage textImage 0x1000 0x4000 :=
  ⟨ptSeparate_textImage, copyout_writes_user_pages ptSeparate_textImage 0 [0x41] 0x4000 (by decide)⟩

/-- `copyout` to the text page succeeds and overwrites its code: the leaf PTE of
virtual address 0 lacks `PTE_W`, yet the copy returns 0. -/
theorem copyout_overwrites_text_page :
    walk textImage 0x1000 0 = .ok (some 0x3000) ∧
    hasFlag (loadLE textImage 0x3000 8) pteW = false ∧
    copyout textImage 0x1000 0 [0x41] = (0, writeBytes textImage 0x4000 [0x41]) ∧
    writeBytes textImage 0x4000 [0x41] 0x4000 ≠ textImage 0x4000 :=
  ⟨rfl, by decide, rfl, by decide⟩

end Xv6.Vm
