import Mathlib

/-
  Xv6/Lib/Ring.lean --- circular buffers indexed by free-running counters.

  A circular buffer of `N` cells is read and written at counter values taken
  modulo `N`: the element at counter value `x` lives in cell `x % N` (`slot`).
  The elements between a head counter and `count` cells on are its contents
  (`window`).  Writing the cell `count` past the head appends to the contents
  when `count < N`, since the cell is none of those already in it
  (`window_push`); moving the head on by one removes the first element
  (`window_pop`).  When the counters themselves wrap modulo a multiple of `N`,
  the cells they name do not change (`slot_mod`, `window_mod`).

  The counters of a buffer kept in C are unsigned 32-bit integers that wrap;
  the number of elements is their difference modulo 2^32.  The last section
  gives what a step of either counter does to that difference, and that the
  write counter names the cell `count` past the read counter whenever `N`
  divides 2^32; `Ring.U16` and `Ring.U64` give the same for 16-bit and
  64-bit counters.  A buffer edited at its end, like the console's, has a third
  counter past the write counter; the distances along the three add up
  (`toNat_sub_add_sub`), and a write at or past the end of the contents leaves
  them alone (`window_update_of_le`).

  This module names nothing of the kernel.
-/

set_option autoImplicit false

namespace Ring

variable {α : Type*} {N : Nat} [NeZero N]

/-- The cell counter value `x` names. -/
def slot (N : Nat) [NeZero N] (x : Nat) : Fin N :=
  ⟨x % N, Nat.mod_lt _ (Nat.pos_of_neZero N)⟩

/-- The `count` elements from counter value `head` on. -/
def window (data : Fin N → α) (head count : Nat) : List α :=
  (List.range count).map fun k => data (slot N (head + k))

@[simp] theorem window_zero (data : Fin N → α) (head : Nat) : window data head 0 = [] := rfl

@[simp] theorem length_window (data : Fin N → α) (head count : Nat) :
    (window data head count).length = count := by
  simp [window]

/-- Fewer than `N` steps on from the head, the cells are distinct. -/
theorem slot_ne {head k c : Nat} (hk : k < c) (hc : c < N) : slot N (head + k) ≠ slot N (head + c) := by
  intro h
  have hmod : (head + c) % N = (head + k) % N := (congrArg Fin.val h).symm
  have hzero := Nat.sub_mod_eq_zero_of_mod_eq hmod
  rw [show head + c - (head + k) = c - k by omega, Nat.mod_eq_of_lt (by omega)] at hzero
  omega

/-- Writing the cell just past the contents appends to them. -/
theorem window_push (data : Fin N → α) (head : Nat) {count : Nat} (hc : count < N) (x : α) :
    window (Function.update data (slot N (head + count)) x) head (count + 1) =
      window data head count ++ [x] := by
  unfold window
  rw [List.range_succ, List.map_append, List.map_singleton, Function.update_self]
  congr 1
  refine List.map_congr_left fun k hk => ?_
  exact Function.update_of_ne (slot_ne (List.mem_range.1 hk) hc) _ _

/-- The contents start with the cell at the head, and go on from the next
counter value. -/
theorem window_pop (data : Fin N → α) (head : Nat) {count : Nat} (hc : 0 < count) :
    window data head count = data (slot N head) :: window data (head + 1) (count - 1) := by
  obtain ⟨c, rfl⟩ : ∃ c, count = c + 1 := ⟨count - 1, by omega⟩
  unfold window
  rw [List.range_succ_eq_map, List.map_cons, List.map_map, Nat.add_sub_cancel, Nat.add_zero]
  congr 1
  refine List.map_congr_left fun k _ => ?_
  simp only [Function.comp_apply]
  congr 2
  omega

/-- Writing a cell at or past the end of the contents, short of a wrap, leaves
them alone. -/
theorem window_update_of_le (data : Fin N → α) (head : Nat) {count c : Nat} (hc : count ≤ c) (hcN : c < N)
    (x : α) : window (Function.update data (slot N (head + c)) x) head count = window data head count := by
  unfold window
  refine List.map_congr_left fun k hk => ?_
  exact Function.update_of_ne (slot_ne (by have := List.mem_range.1 hk; omega) hcN) _ _

/-- Contents of `a + b` cells are those of the first `a` and then of the `b`
after them. -/
theorem window_add (data : Fin N → α) (head a b : Nat) :
    window data head (a + b) = window data head a ++ window data (head + a) b := by
  unfold window
  rw [List.range_add, List.map_append, List.map_map]
  congr 1
  refine List.map_congr_left fun k _ => ?_
  simp only [Function.comp_apply, Nat.add_assoc]

/-- The contents depend on the head counter only modulo `N`. -/
theorem window_congr {head head' : Nat} (h : head % N = head' % N) (data : Fin N → α) (count : Nat) :
    window data head count = window data head' count := by
  unfold window
  refine List.map_congr_left fun k _ => ?_
  congr 1
  apply Fin.ext
  simp only [slot]
  rw [Nat.add_mod, h, ← Nat.add_mod]

/-- Counters that wrap modulo a multiple of `N` name the same cells. -/
theorem slot_mod {M : Nat} (hNM : N ∣ M) (x k : Nat) : slot N (x % M + k) = slot N (x + k) := by
  apply Fin.ext
  simp only [slot]
  rw [Nat.add_mod, Nat.mod_mod_of_dvd x hNM, ← Nat.add_mod]

theorem window_mod {M : Nat} (hNM : N ∣ M) (data : Fin N → α) (head count : Nat) :
    window data (head % M) count = window data head count := by
  unfold window
  exact List.map_congr_left fun k _ => by rw [slot_mod hNM]

/-! ## Free-running 32-bit counters -/

section Counter

variable (a b : UInt32)

/-- The counters are equal exactly when nothing lies between them. -/
theorem eq_iff_toNat_sub_eq_zero : a = b ↔ (b - a).toNat = 0 := by
  have ha := a.toNat_lt
  have hb := b.toNat_lt
  rw [← UInt32.toNat_inj, UInt32.toNat_sub]
  omega

theorem eq_add_iff_toNat_sub (c : UInt32) : b = a + c ↔ (b - a).toNat = c.toNat := by
  have ha := a.toNat_lt
  have hb := b.toNat_lt
  have hc := c.toNat_lt
  rw [← UInt32.toNat_inj, UInt32.toNat_sub, UInt32.toNat_add]
  omega

/-- Moving the write counter on adds one element, short of a full wrap. -/
theorem toNat_succ_sub {a b : UInt32} (h : (b - a).toNat + 1 < 2 ^ 32) :
    (b + 1 - a).toNat = (b - a).toNat + 1 := by
  have ha := a.toNat_lt
  have hb := b.toNat_lt
  simp only [UInt32.toNat_sub, UInt32.toNat_add, UInt32.toNat_one] at *
  omega

/-- Moving the read counter on removes one element. -/
theorem toNat_sub_succ {a b : UInt32} (h : 0 < (b - a).toNat) :
    (b - (a + 1)).toNat = (b - a).toNat - 1 := by
  have ha := a.toNat_lt
  have hb := b.toNat_lt
  simp only [UInt32.toNat_sub, UInt32.toNat_add, UInt32.toNat_one] at *
  omega

/-- Moving the write counter back removes the last element. -/
theorem toNat_pred_sub {a b : UInt32} (h : 0 < (b - a).toNat) :
    (b - 1 - a).toNat = (b - a).toNat - 1 := by
  have ha := a.toNat_lt
  have hb := b.toNat_lt
  simp only [UInt32.toNat_sub, UInt32.toNat_one] at *
  omega

/-- Distances along three counters add up, short of a full wrap. -/
theorem toNat_sub_add_sub {a b c : UInt32} (h : (b - a).toNat + (c - b).toNat < 2 ^ 32) :
    (c - a).toNat = (b - a).toNat + (c - b).toNat := by
  have ha := a.toNat_lt
  have hb := b.toNat_lt
  have hc := c.toNat_lt
  simp only [UInt32.toNat_sub] at *
  omega

/-- Modulo a divisor of 2^32, the write counter is the read counter plus the
number of elements, across a wrap of either. -/
theorem toNat_mod_eq_add_sub {M : Nat} (hM : M ∣ 2 ^ 32) :
    b.toNat % M = (a.toNat + (b - a).toNat) % M := by
  have ha := a.toNat_lt
  have hb := b.toNat_lt
  have hwrap : (a.toNat + (b - a).toNat) % 2 ^ 32 = b.toNat := by
    rw [UInt32.toNat_sub]
    omega
  rw [← hwrap, Nat.mod_mod_of_dvd _ hM]

end Counter

/-! ## Free-running 16-bit counters

The same facts for counters kept as unsigned 16-bit integers. -/

namespace U16

variable (a b : UInt16)

theorem eq_iff_toNat_sub_eq_zero : a = b ↔ (b - a).toNat = 0 := by
  have ha := a.toNat_lt
  have hb := b.toNat_lt
  rw [← UInt16.toNat_inj, UInt16.toNat_sub]
  omega

theorem toNat_succ_sub {a b : UInt16} (h : (b - a).toNat + 1 < 2 ^ 16) :
    (b + 1 - a).toNat = (b - a).toNat + 1 := by
  have ha := a.toNat_lt
  have hb := b.toNat_lt
  simp only [UInt16.toNat_sub, UInt16.toNat_add, UInt16.toNat_one] at *
  omega

theorem toNat_sub_succ {a b : UInt16} (h : 0 < (b - a).toNat) :
    (b - (a + 1)).toNat = (b - a).toNat - 1 := by
  have ha := a.toNat_lt
  have hb := b.toNat_lt
  simp only [UInt16.toNat_sub, UInt16.toNat_add, UInt16.toNat_one] at *
  omega

theorem toNat_mod_eq_add_sub {M : Nat} (hM : M ∣ 2 ^ 16) :
    b.toNat % M = (a.toNat + (b - a).toNat) % M := by
  have ha := a.toNat_lt
  have hb := b.toNat_lt
  have hwrap : (a.toNat + (b - a).toNat) % 2 ^ 16 = b.toNat := by
    rw [UInt16.toNat_sub]
    omega
  rw [← hwrap, Nat.mod_mod_of_dvd _ hM]

variable {N : Nat} [NeZero N] {α : Type*}

/-- Writing the cell the write counter names and moving it on appends to the
contents, when `N` is a proper divisor of 2^16 and the buffer is not full. -/
theorem window_push (hN : N ∣ 2 ^ 16) (hN' : N < 2 ^ 16) (data : Fin N → α) (head tail : UInt16)
    (hc : (tail - head).toNat < N) (x : α) :
    window (Function.update data (slot N tail.toNat) x) head.toNat (tail + 1 - head).toNat =
      window data head.toNat (tail - head).toNat ++ [x] := by
  have hslot : slot N tail.toNat = slot N (head.toNat + (tail - head).toNat) :=
    Fin.ext (toNat_mod_eq_add_sub head tail hN)
  rw [toNat_succ_sub (by omega), hslot, Ring.window_push data _ hc]

/-- Moving the read counter on takes the first element off the contents. -/
theorem window_pop (hN : N ∣ 2 ^ 16) (data : Fin N → α) {head tail : UInt16} (hc : head ≠ tail) :
    window data head.toNat (tail - head).toNat =
      data (slot N head.toNat) :: window data (head + 1).toNat (tail - (head + 1)).toNat := by
  have hpos : 0 < (tail - head).toNat := by
    have := (eq_iff_toNat_sub_eq_zero head tail).not.1 hc
    omega
  have hnext : (head.toNat + 1) % N = (head + 1).toNat % N := by
    rw [UInt16.toNat_add, UInt16.toNat_one, Nat.mod_mod_of_dvd _ hN]
  rw [Ring.window_pop data _ hpos, toNat_sub_succ hpos, window_congr hnext]

end U16

/-! ## Free-running 64-bit counters

The same facts for counters kept as unsigned 64-bit integers. -/

namespace U64

variable (a b : UInt64)

theorem eq_iff_toNat_sub_eq_zero : a = b ↔ (b - a).toNat = 0 := by
  have ha := a.toNat_lt
  have hb := b.toNat_lt
  rw [← UInt64.toNat_inj, UInt64.toNat_sub]
  omega

theorem eq_add_iff_toNat_sub (c : UInt64) : b = a + c ↔ (b - a).toNat = c.toNat := by
  have ha := a.toNat_lt
  have hb := b.toNat_lt
  have hc := c.toNat_lt
  rw [← UInt64.toNat_inj, UInt64.toNat_sub, UInt64.toNat_add]
  omega

theorem toNat_succ_sub {a b : UInt64} (h : (b - a).toNat + 1 < 2 ^ 64) :
    (b + 1 - a).toNat = (b - a).toNat + 1 := by
  have ha := a.toNat_lt
  have hb := b.toNat_lt
  simp only [UInt64.toNat_sub, UInt64.toNat_add, UInt64.toNat_one] at *
  omega

theorem toNat_sub_succ {a b : UInt64} (h : 0 < (b - a).toNat) :
    (b - (a + 1)).toNat = (b - a).toNat - 1 := by
  have ha := a.toNat_lt
  have hb := b.toNat_lt
  simp only [UInt64.toNat_sub, UInt64.toNat_add, UInt64.toNat_one] at *
  omega

theorem toNat_mod_eq_add_sub {M : Nat} (hM : M ∣ 2 ^ 64) :
    b.toNat % M = (a.toNat + (b - a).toNat) % M := by
  have ha := a.toNat_lt
  have hb := b.toNat_lt
  have hwrap : (a.toNat + (b - a).toNat) % 2 ^ 64 = b.toNat := by
    rw [UInt64.toNat_sub]
    omega
  rw [← hwrap, Nat.mod_mod_of_dvd _ hM]

variable {N : Nat} [NeZero N] {α : Type*}

/-- Writing the cell the write counter names and moving it on appends to the
contents, when `N` is a proper divisor of 2^64 and the buffer is not full. -/
theorem window_push (hN : N ∣ 2 ^ 64) (hN' : N < 2 ^ 64) (data : Fin N → α) (head tail : UInt64)
    (hc : (tail - head).toNat < N) (x : α) :
    window (Function.update data (slot N tail.toNat) x) head.toNat (tail + 1 - head).toNat =
      window data head.toNat (tail - head).toNat ++ [x] := by
  have hslot : slot N tail.toNat = slot N (head.toNat + (tail - head).toNat) :=
    Fin.ext (toNat_mod_eq_add_sub head tail hN)
  rw [toNat_succ_sub (by omega), hslot, Ring.window_push data _ hc]

/-- Moving the read counter on takes the first element off the contents. -/
theorem window_pop (hN : N ∣ 2 ^ 64) (data : Fin N → α) {head tail : UInt64} (hc : head ≠ tail) :
    window data head.toNat (tail - head).toNat =
      data (slot N head.toNat) :: window data (head + 1).toNat (tail - (head + 1)).toNat := by
  have hpos : 0 < (tail - head).toNat := by
    have := (eq_iff_toNat_sub_eq_zero head tail).not.1 hc
    omega
  have hnext : (head.toNat + 1) % N = (head + 1).toNat % N := by
    rw [UInt64.toNat_add, UInt64.toNat_one, Nat.mod_mod_of_dvd _ hN]
  rw [Ring.window_pop data _ hpos, toNat_sub_succ hpos, window_congr hnext]

end U64

end Ring
