import Mathlib
import Xv6.Vm.Walk

/-
  Xv6/Vm/Copyin.lean --- copies from user space (kernel/vm.c).

  `copyin` and `copyinstr` translate the source one page at a time with
  `walkaddr` and stop at the first page it does not translate.  `copyinstr`
  copies byte by byte until a NUL or `max` bytes: it is modelled as the
  kernel runs it, an outer loop over pages and an inner loop over the bytes of
  a page, returning 0 or -1 and the bytes it stored to `dst[0]`, `dst[1]`, ...
  in order.  The kernel buffer `dst` is not one of the user pages, so the copy
  changes no byte it reads.

  The results are byte-level: `copyin` returns 0 exactly when every page the
  source overlaps is translated, and then it has copied the source's bytes
  (`copyin_eq_zero_iff`); `copyinstr` returns 0 exactly when the string ends
  with a NUL among its first `max` bytes, all in translated pages, and then it
  has copied the string with its NUL; otherwise it returns -1; and it never
  stores more than `max` bytes.

  `walkaddr` translates a page when the walk reaches a leaf with `PTE_V` and
  `PTE_U` (`UserLeaf`) and the leaf's physical address is not 0: it returns
  that address, and 0 means failure.  A user leaf for physical page 0 is
  therefore refused, and both copies fail on it
  (`copyin_refuses_user_leaf_at_physical_zero`).
-/

set_option autoImplicit false

namespace Xv6.Vm

open Memory

/-- The leaf PTE of `va` is valid and user-accessible: what `walkaddr` checks
before it returns the leaf's physical address. -/
def UserLeaf (m : Mem) (pagetable va : Nat) : Prop :=
  va < maxVa ∧ ∃ pte, walkLevels m va 2 pagetable = some pte ∧
    hasFlag (loadLE m pte 8) pteV ∧ hasFlag (loadLE m pte 8) pteU

/-- The `n` bytes at user addresses `a, a + 1, ...`, through the page table. -/
def userBytes (m : Mem) (pagetable a n : Nat) : List UInt8 :=
  (List.range n).map fun i => userByte m pagetable (a + i)

/-- The inner loop of `copyinstr` over the `n` bytes of a page from physical
address `p`: the bytes it stores to `dst`, and whether it stopped at a NUL. -/
def copyinstrPage (m : Mem) : Nat → Nat → List UInt8 × Bool
  | _, 0 => ([], false)
  | p, n + 1 =>
    if m p = 0 then ([0], true)
    else
      let r := copyinstrPage m (p + 1) n
      (m p :: r.1, r.2)

/-- The outer loop of `copyinstr`, one round per page while no NUL was found
and `max > 0`.  Each round consumes at least one byte of `max`, so `max` is
enough fuel. -/
def copyinstrLoop (m : Mem) (pagetable : Nat) : Nat → Nat → Nat → Int × List UInt8
  | 0, _, _ => (-1, [])
  | fuel + 1, srcva, max =>
    if max = 0 then (-1, [])
    else
      let va0 := pgRoundDown srcva
      let pa0 := walkaddr m pagetable va0
      if pa0 = 0 then (-1, [])
      else
        let n := min (pgSize - (srcva - va0)) max
        let r := copyinstrPage m (pa0 + (srcva - va0)) n
        if r.2 then (0, r.1)
        else
          let r' := copyinstrLoop m pagetable fuel (va0 + pgSize) (max - n)
          (r'.1, r.1 ++ r'.2)

/-- `copyinstr(pagetable, dst, srcva, max)`: the return value (0 or -1) and
the bytes it stored to `dst`. -/
def copyinstr (m : Mem) (pagetable srcva max : Nat) : Int × List UInt8 :=
  copyinstrLoop m pagetable max srcva max

/-- The user string at `srcva` ends at its `k`-th byte: the bytes `srcva` to
`srcva + k` lie in pages `walkaddr` translates, and the last is the first NUL. -/
structure NulAt (m : Mem) (pagetable srcva k : Nat) : Prop where
  mapped : ∀ i ≤ k, walkaddr m pagetable (pgRoundDown (srcva + i)) ≠ 0
  nul : userByte m pagetable (srcva + k) = 0
  before : ∀ i < k, userByte m pagetable (srcva + i) ≠ 0

section Bytes

variable {m : Mem} {pagetable : Nat}

theorem userBytes_add (a n l : Nat) :
    userBytes m pagetable a (n + l) = userBytes m pagetable a n ++ userBytes m pagetable (a + n) l := by
  simp only [userBytes, List.range_add, List.map_append, List.map_map]
  refine congrArg₂ (· ++ ·) rfl (List.map_congr_left fun i _ => ?_)
  simp only [Function.comp_apply, Nat.add_assoc]

/-- Within the page of `srcva`, a user byte is read at the physical address
`walkaddr` gives for the page, at the same offset. -/
theorem userByte_of_lt {srcva i : Nat} (hi : i < pgSize - (srcva - pgRoundDown srcva)) :
    userByte m pagetable (srcva + i) =
      m (walkaddr m pagetable (pgRoundDown srcva) + (srcva - pgRoundDown srcva) + i) := by
  have hlo := pgRoundDown_le srcva
  have hpage : pgRoundDown (srcva + i) = pgRoundDown srcva := pgRoundDown_eq_of_mem (by omega) (by omega)
  simp only [userByte, hpage]
  congr 1
  omega

/-- Within the page of `srcva`, every byte is as translated as `srcva`. -/
theorem pgRoundDown_add_of_lt (srcva i : Nat) (hi : i < pgSize - (srcva - pgRoundDown srcva)) :
    pgRoundDown (srcva + i) = pgRoundDown srcva :=
  pgRoundDown_eq_of_mem (by have := pgRoundDown_le srcva; omega) (by omega)

/-- The next page starts where the bytes left in this one end. -/
theorem pgRoundDown_add_pgSize (srcva : Nat) :
    pgRoundDown srcva + pgSize = srcva + (pgSize - (srcva - pgRoundDown srcva)) := by
  have := pgRoundDown_le srcva
  have := lt_pgRoundDown_add srcva
  omega

/-- The string ends at one place at most. -/
theorem NulAt.unique {srcva k k' : Nat} (h : NulAt m pagetable srcva k) (h' : NulAt m pagetable srcva k') :
    k = k' := by
  rcases Nat.lt_trichotomy k k' with hlt | heq | hgt
  · exact absurd h.nul (h'.before k hlt)
  · exact heq
  · exact absurd h'.nul (h.before k' hgt)

/-- A string that does not end in the first `n` bytes ends where the string
`n` bytes on does. -/
theorem NulAt.shift {srcva n k : Nat} (hn : ∀ i < n, walkaddr m pagetable (pgRoundDown (srcva + i)) ≠ 0 ∧
      userByte m pagetable (srcva + i) ≠ 0) :
    NulAt m pagetable srcva (n + k) ↔ NulAt m pagetable (srcva + n) k := by
  constructor
  · intro h
    refine ⟨fun i hi => ?_, ?_, fun i hi => ?_⟩
    · rw [Nat.add_assoc]
      exact h.mapped (n + i) (by omega)
    · rw [Nat.add_assoc]
      exact h.nul
    · rw [Nat.add_assoc]
      exact h.before (n + i) (by omega)
  · intro h
    refine ⟨fun i hi => ?_, ?_, fun i hi => ?_⟩
    · by_cases hin : i < n
      · exact (hn i hin).1
      · have := h.mapped (i - n) (by omega)
        rwa [Nat.add_assoc, Nat.add_sub_cancel' (by omega)] at this
    · rw [← Nat.add_assoc]
      exact h.nul
    · by_cases hin : i < n
      · exact (hn i hin).2
      · have := h.before (i - n) (by omega)
        rwa [Nat.add_assoc, Nat.add_sub_cancel' (by omega)] at this

end Bytes

/-! ## The inner loop of copyinstr -/

section Page

variable {m : Mem}

/-- The inner loop stops at a NUL exactly when one lies among its bytes. -/
theorem copyinstrPage_snd : ∀ (p n : Nat), (copyinstrPage m p n).2 = true ↔ ∃ j < n, m (p + j) = 0 := by
  intro p n
  induction n generalizing p with
  | zero => simp [copyinstrPage]
  | succ n ih =>
    simp only [copyinstrPage]
    by_cases h0 : m p = 0
    · simp only [h0, if_true, true_iff]
      exact ⟨0, Nat.succ_pos n, h0⟩
    · simp only [h0, if_false, ih (p + 1)]
      constructor
      · rintro ⟨j, hj, hz⟩
        exact ⟨j + 1, by omega, by rw [← hz, Nat.add_assoc, Nat.add_comm 1 j]⟩
      · rintro ⟨j, hj, hz⟩
        cases j with
        | zero => exact absurd hz h0
        | succ j => exact ⟨j, by omega, by rw [← hz, Nat.add_assoc, Nat.add_comm 1 j]⟩

/-- Up to its first NUL, the inner loop copies the bytes and the NUL. -/
theorem copyinstrPage_of_nul : ∀ (p n j : Nat), j < n → (∀ i < j, m (p + i) ≠ 0) → m (p + j) = 0 →
    (copyinstrPage m p n).1 = (List.range (j + 1)).map fun i => m (p + i) := by
  intro p n
  induction n generalizing p with
  | zero => intro j hj; omega
  | succ n ih =>
    intro j hj hbefore hnul
    simp only [copyinstrPage]
    cases j with
    | zero =>
      rw [Nat.add_zero] at hnul
      simp [hnul]
    | succ j =>
      have h0 : m p ≠ 0 := hbefore 0 (Nat.succ_pos j)
      simp only [h0, if_false]
      rw [ih (p + 1) j (by omega) (fun i hi => by rw [Nat.add_assoc, Nat.add_comm 1 i]; exact hbefore (i + 1) (by omega))
        (by rw [Nat.add_assoc, Nat.add_comm 1 j]; exact hnul), List.range_succ_eq_map (n := j + 1), List.map_cons,
        List.map_map]
      refine congrArg₂ List.cons rfl (List.map_congr_left fun i _ => ?_)
      simp only [Function.comp_apply]
      congr 1
      omega

/-- Without a NUL, the inner loop copies all its bytes. -/
theorem copyinstrPage_of_no_nul : ∀ (p n : Nat), (∀ i < n, m (p + i) ≠ 0) →
    (copyinstrPage m p n).1 = (List.range n).map fun i => m (p + i) := by
  intro p n
  induction n generalizing p with
  | zero => intro _; rfl
  | succ n ih =>
    intro hnz
    have h0 : m p ≠ 0 := hnz 0 (Nat.succ_pos n)
    simp only [copyinstrPage, h0, if_false]
    rw [ih (p + 1) (fun i hi => by rw [Nat.add_assoc, Nat.add_comm 1 i]; exact hnz (i + 1) (by omega)),
      List.range_succ_eq_map (n := n), List.map_cons, List.map_map]
    refine congrArg₂ List.cons rfl (List.map_congr_left fun i _ => ?_)
    simp only [Function.comp_apply]
    congr 1
    omega

theorem length_copyinstrPage_le : ∀ (p n : Nat), (copyinstrPage m p n).1.length ≤ n := by
  intro p n
  induction n generalizing p with
  | zero => exact Nat.le_refl 0
  | succ n ih =>
    simp only [copyinstrPage]
    split_ifs
    · simp
    · simpa using ih (p + 1)

end Page

/-! ## copyin -/

section Copyin

variable {m : Mem} {pagetable : Nat}

/-- The loop of `copyin` returns -1 when some page of the source is not
translated, when it has enough fuel. -/
theorem copyinLoop_of_unmapped :
    ∀ fuel srcva len a, len ≤ fuel → srcva ≤ a → a < srcva + len → walkaddr m pagetable (pgRoundDown a) = 0 →
      (copyinLoop m pagetable fuel srcva len).1 = -1 := by
  intro fuel
  induction fuel with
  | zero => intro srcva len a hlen h1 h2; omega
  | succ fuel ih =>
    intro srcva len a hlen h1 h2 hpa
    rw [copyinLoop]
    by_cases hpa0 : walkaddr m pagetable (pgRoundDown srcva) = 0
    · simp [show len ≠ 0 by omega, hpa0]
    simp only [show len ≠ 0 by omega, hpa0, if_false]
    have hlo := pgRoundDown_le srcva
    have hhi := lt_pgRoundDown_add srcva
    -- `a` is past the page of `srcva`, which is translated
    have hpast : srcva + (pgSize - (srcva - pgRoundDown srcva)) ≤ a := by
      by_contra hin
      have hpage := pgRoundDown_add_of_lt srcva (a - srcva) (by omega)
      rw [Nat.add_sub_cancel' h1] at hpage
      exact hpa0 (hpage ▸ hpa)
    rw [pgRoundDown_add_pgSize]
    exact ih _ _ a (by omega) hpast (by omega) hpa

/-- `copyin` returns 0 exactly when every page the source overlaps is
translated, and then it has copied the source's bytes; otherwise it returns
-1. -/
theorem copyin_eq_zero_iff (srcva len : Nat) :
    ((copyin m pagetable srcva len).1 = 0 ↔
      ∀ a, srcva ≤ a → a < srcva + len → walkaddr m pagetable (pgRoundDown a) ≠ 0) ∧
    ((copyin m pagetable srcva len).1 = 0 → (copyin m pagetable srcva len).2 = userBytes m pagetable srcva len) ∧
    ((copyin m pagetable srcva len).1 = 0 ∨ (copyin m pagetable srcva len).1 = -1) := by
  by_cases hall : ∀ a, srcva ≤ a → a < srcva + len → walkaddr m pagetable (pgRoundDown a) ≠ 0
  · have hcopy : copyinLoop m pagetable len srcva len = (0, _) :=
      copyinLoop_of_mapped len srcva len (Nat.le_refl _) hall
    unfold copyin
    rw [hcopy]
    exact ⟨iff_of_true rfl hall, fun _ => rfl, .inl rfl⟩
  · push Not at hall
    obtain ⟨a, h1, h2, hpa⟩ := hall
    have hneg : (copyinLoop m pagetable len srcva len).1 = -1 :=
      copyinLoop_of_unmapped len srcva len a (Nat.le_refl _) h1 h2 hpa
    unfold copyin
    rw [hneg]
    exact ⟨iff_of_false (by decide) fun hall => hall a h1 h2 hpa, fun h => absurd h (by decide), .inr rfl⟩

/-- The loop of `copyin` stores at most `len` bytes, also when it fails. -/
theorem copyinLoop_length_le : ∀ fuel srcva len, (copyinLoop m pagetable fuel srcva len).2.length ≤ len := by
  intro fuel
  induction fuel with
  | zero => intro _ len; exact Nat.zero_le len
  | succ fuel ih =>
    intro srcva len
    rw [copyinLoop]
    dsimp only
    split_ifs
    · exact Nat.zero_le len
    · exact Nat.zero_le len
    · rw [List.length_append, length_readBytes]
      have hrest := ih (pgRoundDown srcva + pgSize) (len - min (pgSize - (srcva - pgRoundDown srcva)) len)
      omega

theorem copyin_length_le (srcva len : Nat) : (copyin m pagetable srcva len).2.length ≤ len :=
  copyinLoop_length_le len srcva len

end Copyin

/-! ## The outer loop of copyinstr -/

section Copyinstr

variable {m : Mem} {pagetable : Nat}

theorem copyinstrLoop_max_zero (fuel srcva : Nat) : copyinstrLoop m pagetable fuel srcva 0 = (-1, []) := by
  cases fuel <;> rfl

/-- The bytes a round reads, in the page of `srcva`, are the user bytes. -/
theorem copyinstrPage_bytes (m : Mem) (pagetable srcva : Nat) {n : Nat} (hn : n ≤ pgSize - (srcva - pgRoundDown srcva)) (i : Nat) (hi : i < n) :
    m (walkaddr m pagetable (pgRoundDown srcva) + (srcva - pgRoundDown srcva) + i) =
      userByte m pagetable (srcva + i) :=
  (userByte_of_lt (by omega)).symm

/-- A string that ends within `max` bytes is copied with its NUL, and
`copyinstr` returns 0. -/
theorem copyinstrLoop_of_nulAt : ∀ fuel srcva max k, max ≤ fuel → k < max → NulAt m pagetable srcva k →
    copyinstrLoop m pagetable fuel srcva max = (0, userBytes m pagetable srcva (k + 1)) := by
  intro fuel
  induction fuel with
  | zero => intro srcva max k hmax hk; omega
  | succ fuel ih =>
    intro srcva max k hmax hk h
    have hpa : walkaddr m pagetable (pgRoundDown srcva) ≠ 0 := by
      simpa using h.mapped 0 (Nat.zero_le k)
    rw [copyinstrLoop]
    simp only [show max ≠ 0 by omega, hpa, if_false]
    have hbyte := copyinstrPage_bytes m pagetable srcva (Nat.min_le_left _ max)
    by_cases hkn : k < min (pgSize - (srcva - pgRoundDown srcva)) max
    · -- the NUL is in the page of `srcva`
      have hnul : m (walkaddr m pagetable (pgRoundDown srcva) + (srcva - pgRoundDown srcva) + k) = 0 := by
        rw [hbyte k hkn]
        exact h.nul
      have hsnd := (copyinstrPage_snd _ _).2 ⟨k, hkn, hnul⟩
      rw [if_pos hsnd, copyinstrPage_of_nul _ _ k hkn (fun i hi => by rw [hbyte i (by omega)]; exact h.before i hi) hnul]
      exact Prod.ext rfl (List.map_congr_left fun i hi => hbyte i (by have := List.mem_range.1 hi; omega))
    · -- the string goes on past the page: this round copies the rest of it
      have hlo := pgRoundDown_le srcva
      have hhi := lt_pgRoundDown_add srcva
      generalize hn : min (pgSize - (srcva - pgRoundDown srcva)) max = n at *
      have hnpage : n = pgSize - (srcva - pgRoundDown srcva) := by omega
      have hnz : ∀ i < n, m (walkaddr m pagetable (pgRoundDown srcva) + (srcva - pgRoundDown srcva) + i) ≠ 0 :=
        fun i hi => by rw [hbyte i hi]; exact h.before i (by omega)
      have hsnd : (copyinstrPage m (walkaddr m pagetable (pgRoundDown srcva) + (srcva - pgRoundDown srcva)) n).2 = false :=
        Bool.eq_false_iff.2 fun ht => by
          obtain ⟨j, hj, hz⟩ := (copyinstrPage_snd _ _).1 ht
          exact hnz j hj hz
      obtain ⟨k', rfl⟩ : ∃ k', k = n + k' := ⟨k - n, by omega⟩
      have hrest : NulAt m pagetable (srcva + n) k' :=
        (NulAt.shift fun i hi => ⟨by rw [pgRoundDown_add_of_lt srcva i (by omega)]; exact hpa, h.before i (by omega)⟩).1 h
      rw [if_neg (by simp [hsnd]), copyinstrPage_of_no_nul _ _ hnz, pgRoundDown_add_pgSize, ← hnpage,
        ih (srcva + n) (max - n) k' (by omega) (by omega) hrest, Nat.add_assoc, userBytes_add srcva n (k' + 1)]
      exact Prod.ext rfl (congrArg₂ (· ++ ·) (List.map_congr_left fun i hi => hbyte i (List.mem_range.1 hi)) rfl)

/-- A string that does not end within `max` bytes of translated pages makes
`copyinstr` return -1. -/
theorem copyinstrLoop_of_no_nulAt : ∀ fuel srcva max, max ≤ fuel → (∀ k < max, ¬ NulAt m pagetable srcva k) →
    (copyinstrLoop m pagetable fuel srcva max).1 = -1 := by
  intro fuel
  induction fuel with
  | zero => intro srcva max _ _; rfl
  | succ fuel ih =>
    intro srcva max hmax hnone
    by_cases h0 : max = 0
    · rw [h0, copyinstrLoop_max_zero]
    rw [copyinstrLoop]
    by_cases hpa : walkaddr m pagetable (pgRoundDown srcva) = 0
    · simp [h0, hpa]
    simp only [h0, hpa, if_false]
    have hbyte := copyinstrPage_bytes m pagetable srcva (Nat.min_le_left _ max)
    have hlo := pgRoundDown_le srcva
    have hhi := lt_pgRoundDown_add srcva
    generalize hn : min (pgSize - (srcva - pgRoundDown srcva)) max = n at *
    have hmapped : ∀ i < n, walkaddr m pagetable (pgRoundDown (srcva + i)) ≠ 0 :=
      fun i hi => by rw [pgRoundDown_add_of_lt srcva i (by omega)]; exact hpa
    -- no byte of this round is a NUL: the first one would end the string
    have hnz : ∀ i < n, userByte m pagetable (srcva + i) ≠ 0 := by
      intro i hi hz
      have hex : ∃ j, j < n ∧ userByte m pagetable (srcva + j) = 0 := ⟨i, hi, hz⟩
      classical
      obtain ⟨hj, hzj⟩ := Nat.find_spec hex
      refine hnone (Nat.find hex) (by omega) ⟨fun i hi => hmapped i (by omega), hzj, fun i hi hzi => ?_⟩
      exact Nat.find_min hex hi ⟨by omega, hzi⟩
    have hsnd : (copyinstrPage m (walkaddr m pagetable (pgRoundDown srcva) + (srcva - pgRoundDown srcva)) n).2 = false :=
      Bool.eq_false_iff.2 fun ht => by
        obtain ⟨j, hj, hz⟩ := (copyinstrPage_snd _ _).1 ht
        exact hnz j hj (by rw [← hbyte j hj]; exact hz)
    rw [if_neg (by simp [hsnd])]
    by_cases hlast : n = max
    · -- `max` is used up in this page
      rw [hlast, Nat.sub_self, copyinstrLoop_max_zero]
    · have hnpage : n = pgSize - (srcva - pgRoundDown srcva) := by omega
      rw [pgRoundDown_add_pgSize, ← hnpage]
      exact ih _ _ (by omega) fun k hk hnul =>
        hnone (n + k) (by omega) ((NulAt.shift fun i hi => ⟨hmapped i hi, hnz i hi⟩).2 hnul)

/-- `copyinstr` stores at most `max` bytes. -/
theorem length_copyinstrLoop_le : ∀ fuel srcva max, (copyinstrLoop m pagetable fuel srcva max).2.length ≤ max := by
  intro fuel
  induction fuel with
  | zero => intro _ _; exact Nat.zero_le _
  | succ fuel ih =>
    intro srcva max
    rw [copyinstrLoop]
    have hpage := length_copyinstrPage_le (m := m)
      (walkaddr m pagetable (pgRoundDown srcva) + (srcva - pgRoundDown srcva))
      (min (pgSize - (srcva - pgRoundDown srcva)) max)
    have hrest := ih (pgRoundDown srcva + pgSize) (max - min (pgSize - (srcva - pgRoundDown srcva)) max)
    by_cases h0 : max = 0
    · simp [h0]
    by_cases hpa : walkaddr m pagetable (pgRoundDown srcva) = 0
    · simp [h0, hpa]
    simp only [h0, hpa, if_false]
    -- a NUL ends the copy in this page; otherwise the next pages add theirs
    split
    · exact Nat.le_trans hpage (Nat.min_le_right _ _)
    · rw [List.length_append]
      omega

end Copyinstr

/-! ## Both copies -/

section Spec

variable {m : Mem} {pagetable : Nat}

/-- `copyinstr` returns 0 exactly when the string at `srcva` ends with a NUL
among its first `max` bytes, all in translated pages, and then it has stored
the string with its NUL; otherwise it returns -1; and it stores at most `max`
bytes. -/
theorem copyinstr_spec (srcva max : Nat) :
    ((copyinstr m pagetable srcva max).1 = 0 ↔ ∃ k < max, NulAt m pagetable srcva k) ∧
    (∀ k < max, NulAt m pagetable srcva k →
      (copyinstr m pagetable srcva max).2 = userBytes m pagetable srcva (k + 1)) ∧
    ((copyinstr m pagetable srcva max).1 = 0 ∨ (copyinstr m pagetable srcva max).1 = -1) ∧
    (copyinstr m pagetable srcva max).2.length ≤ max := by
  have hlen : (copyinstr m pagetable srcva max).2.length ≤ max := length_copyinstrLoop_le _ _ _
  by_cases hex : ∃ k < max, NulAt m pagetable srcva k
  · obtain ⟨k, hk, hnul⟩ := hex
    have hcopy : copyinstr m pagetable srcva max = (0, userBytes m pagetable srcva (k + 1)) :=
      copyinstrLoop_of_nulAt max srcva max k (Nat.le_refl _) hk hnul
    refine ⟨iff_of_true (by rw [hcopy]) ⟨k, hk, hnul⟩, fun k' _ hnul' => ?_, .inl (by rw [hcopy]), hlen⟩
    -- the string ends at one place
    rw [hcopy, hnul.unique hnul']
  · have hneg : (copyinstr m pagetable srcva max).1 = -1 :=
      copyinstrLoop_of_no_nulAt max srcva max (Nat.le_refl _) fun k hk hnul => hex ⟨k, hk, hnul⟩
    refine ⟨iff_of_false (by rw [hneg]; decide) hex, fun k hk hnul => absurd ⟨k, hk, hnul⟩ hex, .inr hneg, hlen⟩

/-- `copyin` and `copyinstr` against the bytes of user memory, for every page
table and every source.  A page is usable when `walkaddr` translates it: its
leaf is valid and user-accessible and its physical address is not 0
(`walkaddr_ne_zero_iff`).  `copyin` returns 0 exactly when every page
the source overlaps is usable, and has then copied the source's bytes;
`copyinstr` returns 0 exactly when the string ends with a NUL within `max`
bytes of usable pages, and has then copied it with its NUL; each returns -1
otherwise; and `copyinstr` stores at most `max` bytes. -/
theorem copyin_copyinstr_byte_model (srcva len max : Nat) :
    ((copyin m pagetable srcva len).1 = 0 ↔
      ∀ a, srcva ≤ a → a < srcva + len → walkaddr m pagetable (pgRoundDown a) ≠ 0) ∧
    ((copyin m pagetable srcva len).1 = 0 → (copyin m pagetable srcva len).2 = userBytes m pagetable srcva len) ∧
    ((copyin m pagetable srcva len).1 = 0 ∨ (copyin m pagetable srcva len).1 = -1) ∧
    ((copyinstr m pagetable srcva max).1 = 0 ↔ ∃ k < max, NulAt m pagetable srcva k) ∧
    (∀ k < max, NulAt m pagetable srcva k →
      (copyinstr m pagetable srcva max).2 = userBytes m pagetable srcva (k + 1)) ∧
    ((copyinstr m pagetable srcva max).1 = 0 ∨ (copyinstr m pagetable srcva max).1 = -1) ∧
    (copyinstr m pagetable srcva max).2.length ≤ max :=
  ⟨(copyin_eq_zero_iff srcva len).1, (copyin_eq_zero_iff srcva len).2.1, (copyin_eq_zero_iff srcva len).2.2,
    copyinstr_spec srcva max⟩

end Spec

/-! ## A user leaf for physical page 0 -/

/-- Page tables at 0x1000, 0x2000 and 0x3000 whose leaf for virtual address 0
is valid, readable and user-accessible and maps physical page 0, which holds a
NUL. -/
def physZeroImage : Mem :=
  let m1 := storeLE (fun _ => 0) (0x1000 + 8 * 0) (pa2pte 0x2000 ||| pteV) 8
  let m2 := storeLE m1 (0x2000 + 8 * 0) (pa2pte 0x3000 ||| pteV) 8
  storeLE m2 (0x3000 + 8 * 0) (pa2pte 0 ||| pteR ||| pteU ||| pteV) 8

/-- `walkaddr` returns the physical address 0 of the page, which its callers
take for failure: both copies return -1 though the page is a valid user leaf
holding a one-byte string. -/
theorem copyin_refuses_user_leaf_at_physical_zero :
    UserLeaf physZeroImage 0x1000 0 ∧ physZeroImage 0 = 0 ∧
    copyin physZeroImage 0x1000 0 1 = (-1, []) ∧ copyinstr physZeroImage 0x1000 0 1 = (-1, []) :=
  ⟨⟨by decide, 0x3000, rfl, by decide, by decide⟩, rfl, rfl, rfl⟩

end Xv6.Vm
