import Mathlib

/-
  Xv6/Lib/Patch.lean --- writing a run of values into a list at an offset.

  A file is a list of bytes.  A write of `ys` at an offset `off` no larger than
  the list's length replaces the values from `off` on and extends the list
  where `ys` runs past its end: `patch xs off ys`.  The lemmas are those a
  program writing a file piece by piece needs: the length afterwards, each
  value read back, and that writing `ys` and then `zs` right after it is the
  write of `ys ++ zs` (`patch_append`), so a loop that writes a buffer one
  piece at a time has written the whole buffer.

  This module names nothing of the kernel.
-/

set_option autoImplicit false

namespace Patch

variable {α : Type*}

/-- `xs` with `ys` written over it from index `off`, extended where `ys` runs
past its end. -/
def patch (xs : List α) (off : Nat) (ys : List α) : List α :=
  xs.take off ++ ys ++ xs.drop (off + ys.length)

section Patch

variable {xs : List α} {off : Nat}

theorem length_patch (ys : List α) (h : off ≤ xs.length) :
    (patch xs off ys).length = max xs.length (off + ys.length) := by
  simp only [patch, List.length_append, List.length_take, List.length_drop]
  omega

/-- What a write leaves at each index: the old value before `off` and from
`off + ys.length` on, the written one between. -/
theorem getElem?_patch (ys : List α) (h : off ≤ xs.length) (i : Nat) :
    (patch xs off ys)[i]? = if i < off then xs[i]? else if i < off + ys.length then ys[i - off]? else xs[i]? := by
  unfold patch
  split_ifs with h₁ h₂
  · rw [List.append_assoc, List.getElem?_append_left (by simp; omega), List.getElem?_take_of_lt h₁]
  · rw [List.append_assoc, List.getElem?_append_right (by simp; omega), List.length_take_of_le h,
      List.getElem?_append_left (by omega)]
  · rw [List.getElem?_append_right (by simp; omega), List.getElem?_drop]
    simp only [List.length_append, List.length_take_of_le h]
    congr 1
    omega

@[simp] theorem patch_nil (xs : List α) (off : Nat) : patch xs off [] = xs := by
  simp [patch]

/-- Writing `ys` and then `zs` right after it writes `ys ++ zs`. -/
theorem patch_append (ys zs : List α) (h : off ≤ xs.length) :
    patch (patch xs off ys) (off + ys.length) zs = patch xs off (ys ++ zs) := by
  have hlen := length_patch ys h
  apply List.ext_getElem?
  intro i
  rw [getElem?_patch zs (by omega), getElem?_patch ys h, getElem?_patch (ys ++ zs) h, List.length_append]
  by_cases h₁ : i < off
  · simp [h₁, show i < off + ys.length by omega]
  · by_cases h₂ : i < off + ys.length
    · simp [h₁, h₂, show i < off + (ys.length + zs.length) by omega, List.getElem?_append_left (show i - off < ys.length by omega)]
    · by_cases h₃ : i < off + ys.length + zs.length
      · simp only [h₂, h₁, if_false, h₃, if_true, show i < off + (ys.length + zs.length) by omega,
          List.getElem?_append_right (show ys.length ≤ i - off by omega)]
        congr 1
        omega
      · simp [h₁, h₂, h₃, show ¬ i < off + (ys.length + zs.length) by omega]

end Patch

end Patch
