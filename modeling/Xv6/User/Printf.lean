import Mathlib

/-
  Xv6/User/Printf.lean --- user/printf.c: `printint`, `printptr` and the
  format loop of `vprintf`, as the characters they write.

  The variable arguments are the 64-bit slots `va_arg` reads in turn.  A
  slot is a number, or a `char*` with the string it points to (`none` for a
  null pointer); `va_arg(ap, int)` takes the low 32 bits of a number as an
  `int`, `va_arg(ap, uint64)` the whole of it.  Every conversion of
  `vprintf` that prints a number goes through `printint`, whose parameter is
  an `int`: the value of the slot is cut to 32 bits on the way, whatever the
  conversion read.
-/

set_option autoImplicit false

namespace Xv6.User

/-- A slot of the argument list. -/
inductive Arg
  | num (w : Nat)
  | str (s : Option (List Char))

/-- A number passed where an `int` is expected: its low 32 bits, signed. -/
def intOf (w : Nat) : Int := if w % 2 ^ 32 < 2 ^ 31 then w % 2 ^ 32 else (w % 2 ^ 32 : Int) - 2 ^ 32

/-- The value of a slot read as a number; a pointer reads as 0 here, which
no matching argument list does. -/
def Arg.word : Arg → Nat
  | .num w => w % 2 ^ 64
  | .str _ => 0

/-- `digits[d]`. -/
def digit (d : Nat) : Char := "0123456789ABCDEF".toList.getD d '?'

/-- The `do ... while` loop of `printint`: the digits of `x` in base `base`,
least significant first, at least one. -/
def digitsRev (base : Nat) : Nat → Nat → List Char
  | 0, _ => []
  | fuel + 1, x => digit (x % base) :: if x / base = 0 then [] else digitsRev base fuel (x / base)

/-- `printint(fd, xx, base, sgn)`: `x` is `xx`, or `-xx` for a negative `xx`
with `sgn`, as a `uint`; its digits, a `-` for the negative case, written
in reverse. -/
def printint (xx : Int) (base : Nat) (sgn : Bool) : List Char :=
  let neg := sgn && decide (xx < 0)
  let x := ((if neg then -xx else xx) % 2 ^ 32).toNat
  ((digitsRev base 32 x) ++ if neg then ['-'] else []).reverse

/-- `printptr(fd, x)`: `0x` and the sixteen hexadecimal digits of `x`, the
highest first. -/
def printptr (x : Nat) : List Char :=
  '0' :: 'x' :: (List.range 16).map fun i => digit (x / 16 ^ (15 - i) % 16)

/-- The loop of `vprintf(fd, fmt, ap)` in `state` 0 (`false`) or `'%'`
(`true`): the characters it writes. -/
def vprintfLoop : Bool → List Char → List Arg → List Char
  | _, [], _ => []
  | false, c :: fmt, args => if c = '%' then vprintfLoop true fmt args else c :: vprintfLoop false fmt args
  | true, c :: fmt, args =>
    let a := args.headD (.num 0)
    let out :=
      if c = 'd' then printint (intOf a.word) 10 true
      else if c = 'l' then printint (intOf a.word) 10 false
      else if c = 'x' then printint (intOf a.word) 16 false
      else if c = 'p' then printptr a.word
      else if c = 's' then
        match a with
        | .str (some s) => s
        | _ => "(null)".toList
      else if c = 'c' then [Char.ofNat (a.word % 2 ^ 32 % 256)]
      else if c = '%' then ['%']
      else ['%', c]
    -- the conversions that take an argument move on to the next slot
    let args := if c = 'd' ∨ c = 'l' ∨ c = 'x' ∨ c = 'p' ∨ c = 's' ∨ c = 'c' then args.tail else args
    out ++ vprintfLoop false fmt args

/-- `vprintf(fd, fmt, ap)`. -/
def vprintf (fmt : List Char) (args : List Arg) : List Char := vprintfLoop false fmt args

/-! ## %l -/

theorem intOf_add_two_pow (w : Nat) : intOf (w + 2 ^ 32) = intOf w := by
  simp [intOf, Nat.add_mod_right]

/-- `%l` writes the same for `w` and `w + 2^32`, for every `w` below
2^64 - 2^32: only the low 32 bits of the `uint64` reach `printint`.  At
2^32 it writes "0". -/
theorem printf_l_low_bits :
    (∀ w, w + 2 ^ 32 < 2 ^ 64 →
      vprintf ['%', 'l'] [.num (w + 2 ^ 32)] = vprintf ['%', 'l'] [.num w]) ∧
    vprintf ['%', 'l'] [.num (2 ^ 32)] = ['0'] := by
  refine ⟨fun w hw => ?_, by decide⟩
  have hw' : w < 2 ^ 64 := by omega
  -- run the one conversion `%l` makes, then drop the reductions modulo 2^64
  simp +decide only [vprintf, vprintfLoop, Arg.word, List.headD_cons, ↓reduceIte]
  rw [Nat.mod_eq_of_lt hw, Nat.mod_eq_of_lt hw', intOf_add_two_pow]

end Xv6.User
