import Xv6.Lib.Memory

/-
  Xv6/Libc/Memmove.lean --- `memmove` of kernel/string.c (with `memcpy`,
  which calls it) and of user/ulib.c.

  Both copy `n` bytes from `src` to `dst` within one memory and pick the
  direction that never overwrites a source byte before reading it, but on
  different tests: the kernel copies downward only when the source starts
  below the destination and runs into it (`s < d && s + n > d`), the user
  library whenever the source does not start above the destination.  Only
  the kernel returns at once on `n == 0`, and the user library's count is an
  `int`, so a count of zero or less copies nothing.  `memmove_eq` and
  `User.memmove_eq` say that each is the copy of the original bytes
  (`Memory.copyUp_eq`, `Memory.copyDown_eq` carry the overlaps).

  Addresses are numbers: the arrays lie below 2^64, so the pointer sums the
  tests compute do not wrap.
-/

set_option autoImplicit false

namespace Xv6

open Memory

namespace Kernel

/-- `memmove(dst, src, n)` of kernel/string.c: the memory after, and the
pointer it returns. -/
def memmove (m : Mem) (dst src n : Nat) : Mem × Nat :=
  if n = 0 then (m, dst)
  else if src < dst ∧ src + n > dst then (copyDown m (dst + n) (src + n) n, dst)
  else (copyUp m dst src n, dst)

/-- `memcpy` exists to placate GCC: it is `memmove`. -/
def memcpy (m : Mem) (dst src n : Nat) : Mem × Nat := memmove m dst src n

/-- The kernel's `memmove` copies the original bytes, however the ranges
overlap. -/
theorem memmove_eq (m : Mem) (dst src n : Nat) :
    memmove m dst src n = (writeBytes m dst (readBytes m src n), dst) := by
  unfold memmove
  by_cases hn : n = 0
  · subst hn
    rfl
  · rw [if_neg hn]
    by_cases hdown : src < dst ∧ src + n > dst
    -- the source starts below the destination and runs into it: downward
    · rw [if_pos hdown, copyDown_eq _ _ _ _ (.inl (Nat.le_of_lt hdown.1))]
    -- the destination starts at or below the source, or past its end: upward
    · rw [if_neg hdown, copyUp_eq _ _ _ _ (by omega)]

-- four bytes moved up by two: the last lands on address 5
example : (memmove (fun a => UInt8.ofNat a) 2 0 4).1 5 = 3 := by decide

end Kernel

namespace User

/-- `memmove(vdst, vsrc, n)` of user/ulib.c: the memory after, and the pointer
it returns.  `dst += n` and `src += n` are pointer sums with an `int`: a
negative count moves them down, and the loop then runs no time. -/
def memmove (m : Mem) (vdst vsrc : Nat) (n : Int) : Mem × Nat :=
  if vsrc > vdst then (copyUp m vdst vsrc n.toNat, vdst)
  else (copyDown m (vdst + n).toNat (vsrc + n).toNat n.toNat, vdst)

/-- The user library's `memmove` copies the original bytes, however the
ranges overlap. -/
theorem memmove_eq (m : Mem) (vdst vsrc : Nat) (n : Int) :
    memmove m vdst vsrc n = (writeBytes m vdst (readBytes m vsrc n.toNat), vdst) := by
  unfold memmove
  by_cases hup : vsrc > vdst
  · rw [if_pos hup, copyUp_eq _ _ _ _ (.inl (Nat.le_of_lt hup))]
  · rw [if_neg hup]
    by_cases hn : n ≤ 0
    -- a count of zero or less copies nothing
    · rw [Int.toNat_of_nonpos hn]
      rfl
    -- otherwise the loop runs down from `vdst + n` and `vsrc + n`
    · have hd : ((vdst : Int) + n).toNat = vdst + n.toNat := by omega
      have hs : ((vsrc : Int) + n).toNat = vsrc + n.toNat := by omega
      rw [hd, hs, copyDown_eq _ _ _ _ (.inl (by omega))]

end User

theorem memmove_moves_bytes (m : Mem) (dst src : Nat) :
    (∀ n : Nat, Moved m (Kernel.memmove m dst src n).1 dst src n) ∧
    (∀ n : Int, Moved m (User.memmove m dst src n).1 dst src n.toNat) := by
  refine ⟨fun n => ?_, fun n => ?_⟩
  · rw [Kernel.memmove_eq]
    exact moved_writeBytes_readBytes m dst src n
  · rw [User.memmove_eq]
    exact moved_writeBytes_readBytes m dst src n.toNat

end Xv6
