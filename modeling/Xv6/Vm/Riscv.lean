import Mathlib

/-
  Xv6/Vm/Riscv.lean --- the Sv39 paging macros of kernel/riscv.h and the user
  address-space layout of kernel/memlayout.h.

  Addresses and PTEs are `uint64` in C and `Nat` here.  The bit operations are
  the C ones, on `Nat`: `>>>`, `<<<`, `&&&`, `|||`.  `PGROUNDUP` and `PGROUNDDOWN`
  clear the low twelve bits with `& ~(PGSIZE-1)`, which on a number below 2^64
  is rounding down to a multiple of `PGSIZE`; the sum inside `PGROUNDUP` could
  wrap only for a size within a page of 2^64, and every size the kernel rounds
  is below `MAXVA`.
-/

set_option autoImplicit false

namespace Xv6.Vm

/-- `PGSIZE`: bytes per page. -/
def pgSize : Nat := 4096

/-- `PGROUNDUP(sz)`. -/
def pgRoundUp (sz : Nat) : Nat := (sz + pgSize - 1) / pgSize * pgSize

/-- `PGROUNDDOWN(a)`. -/
def pgRoundDown (a : Nat) : Nat := a / pgSize * pgSize

/-- `PTE_V`: valid. -/
def pteV : Nat := 1 <<< 0
/-- `PTE_R`. -/
def pteR : Nat := 1 <<< 1
/-- `PTE_W`. -/
def pteW : Nat := 1 <<< 2
/-- `PTE_X`. -/
def pteX : Nat := 1 <<< 3
/-- `PTE_U`: user can access. -/
def pteU : Nat := 1 <<< 4

/-- `PA2PTE(pa)`: shift a physical address to the right place for a PTE. -/
def pa2pte (pa : Nat) : Nat := (pa >>> 12) <<< 10

/-- `PTE2PA(pte)`. -/
def pte2pa (pte : Nat) : Nat := (pte >>> 10) <<< 12

/-- `PTE_FLAGS(pte)`. -/
def pteFlags (pte : Nat) : Nat := pte &&& 0x3FF

/-- `PX(level, va)`: the 9-bit page-table index of `va` at `level`. -/
def px (level va : Nat) : Nat := (va >>> (12 + 9 * level)) &&& 0x1FF

/-- `MAXVA`: one beyond the highest virtual address xv6 uses. -/
def maxVa : Nat := 1 <<< (9 + 9 + 9 + 12 - 1)

/-- `TRAMPOLINE`: the highest page of every address space. -/
def trampoline : Nat := maxVa - pgSize

/-- `TRAPFRAME`: the page just below the trampoline. -/
def trapframe : Nat := trampoline - pgSize

/-- `*pte & flag` is non-zero. -/
def hasFlag (pte flag : Nat) : Bool := pte &&& flag != 0

/-! ## Pages -/

theorem pgRoundDown_le (a : Nat) : pgRoundDown a ≤ a := Nat.div_mul_le_self a pgSize

theorem lt_pgRoundDown_add (a : Nat) : a < pgRoundDown a + pgSize :=
  Nat.lt_div_mul_add (by decide)

/-- Every address of the page of `a` rounds down to the same page. -/
theorem pgRoundDown_eq_of_mem {a b : Nat} (h1 : pgRoundDown a ≤ b) (h2 : b < pgRoundDown a + pgSize) :
    pgRoundDown b = pgRoundDown a := by
  unfold pgRoundDown at *
  rw [Nat.div_eq_of_lt_le h1 (by rw [Nat.succ_mul]; exact h2)]

/-- A page-aligned address is the start of its own page. -/
theorem pgRoundDown_of_mod_eq_zero {a : Nat} (h : a % pgSize = 0) : pgRoundDown a = a :=
  Nat.div_mul_cancel (Nat.dvd_of_mod_eq_zero h)

theorem le_pgRoundUp (sz : Nat) : sz ≤ pgRoundUp sz := by
  unfold pgRoundUp pgSize
  omega

theorem pgRoundUp_mod (sz : Nat) : pgRoundUp sz % pgSize = 0 := Nat.mul_mod_left _ _

end Xv6.Vm
