import Mathlib

/-
  Xv6/User/Umalloc.lean --- user/umalloc.c: the allocator of Kernighan and
  Ritchie (`malloc`, `free`, `morecore`) over the kernel's `sbrk`.

  Memory holds a header at each address the allocator uses: the `ptr` and
  `size` fields of `union header`, the size in header units of 16 bytes
  (`sizeof(Header)`).  Pointer arithmetic on a `Header*` moves by that many
  bytes.  `base` is the static header in the program's data, at an address
  the functions take as a parameter.

  `sbrk(n)` is `sys_sbrk` and `growproc` of the kernel: `n` is an `int`, the
  low 32 bits of what the caller passes (`toInt32`).  A positive `n` grows
  the process by `uvmalloc`, which succeeds while the new size stays within
  `limit` (the pages `kalloc` can hand out); a negative one shrinks it by
  `uvmdealloc`, which leaves the size as it was when `sz + n`, taken modulo
  2^64, is not below it.  `sbrk` returns the old size, or `none` for -1.

  The loops of `free` and `malloc` follow the free list; they carry a fuel,
  `none` when it runs out.
-/

set_option autoImplicit false

namespace Xv6.User

/-- `union header`: the next free block and the size, in header units. -/
structure Header where
  ptr : Nat
  size : Nat

/-- `sizeof(Header)`. -/
def hdrSize : Nat := 16

/-- The allocator's memory: the headers, `freep` (0 for null), and the
process size `p->sz`, which is the program break. -/
structure Heap where
  hdr : Nat → Header
  freep : Nat
  sz : Nat

/-- A value passed to an `int` parameter: its low 32 bits, signed. -/
def toInt32 (v : Nat) : Int := if v % 2 ^ 32 < 2 ^ 31 then v % 2 ^ 32 else (v % 2 ^ 32 : Int) - 2 ^ 32

/-- `growproc(n)` on a process of size `sz`: the new size, or `none` when
`uvmalloc` fails. -/
def growproc (limit sz : Nat) (n : Int) : Option Nat :=
  if 0 < n then
    if sz + n.toNat ≤ limit then some (sz + n.toNat) else none
  else if n < 0 then
    -- `sz + n` as a `uint64`; `uvmdealloc` keeps `sz` when that is not below it
    let newsz := (sz + (2 ^ 64 - n.natAbs)) % 2 ^ 64
    some (if newsz ≥ sz then sz else newsz)
  else some sz

/-- `sbrk(n)`: the old break and the heap with the new size, or `none` for
-1. -/
def sbrk (limit : Nat) (h : Heap) (n : Int) : Option (Nat × Heap) :=
  (growproc limit h.sz n).map fun sz => (h.sz, { h with sz := sz })

/-- The search of `free` for the block after which `bp` goes: the first `p`
from `freep` on with `bp` between `p` and `p->s.ptr`, or at the wrap of the
list (`p >= p->s.ptr`) with `bp` beyond either end. -/
def freeScan (h : Heap) (bp : Nat) : Nat → Nat → Option Nat
  | 0, _ => none
  | fuel + 1, p =>
    let q := (h.hdr p).ptr
    if bp > p ∧ bp < q then some p
    else if p ≥ q ∧ (bp > p ∨ bp < q) then some p
    else freeScan h bp fuel q

/-- `free(ap)`: the block of header `bp` put back after `p`, joined to the
block after it and to `p` when they touch. -/
def free (fuel : Nat) (h : Heap) (ap : Nat) : Option Heap :=
  let bp := ap - hdrSize
  (freeScan h bp fuel h.freep).map fun p =>
    let q := (h.hdr p).ptr
    let m1 := if bp + (h.hdr bp).size * hdrSize = q then
        Function.update h.hdr bp ⟨(h.hdr q).ptr, ((h.hdr bp).size + (h.hdr q).size) % 2 ^ 32⟩
      else Function.update h.hdr bp ⟨q, (h.hdr bp).size⟩
    let m2 := if p + (m1 p).size * hdrSize = bp then
        Function.update m1 p ⟨(m1 bp).ptr, ((m1 p).size + (m1 bp).size) % 2 ^ 32⟩
      else Function.update m1 p ⟨bp, (m1 p).size⟩
    { h with hdr := m2, freep := p }

/-- `morecore(nu)`: at least 4096 units from `sbrk`, made a block and freed;
`freep` after, or 0 when `sbrk` fails. -/
def morecore (limit fuel : Nat) (h : Heap) (nu : Nat) : Option (Nat × Heap) :=
  let nu := if nu < 4096 then 4096 else nu
  match sbrk limit h (toInt32 (nu * hdrSize)) with
  | none => some (0, h)
  | some (p, h1) =>
    let h2 := { h1 with hdr := Function.update h1.hdr p ⟨(h1.hdr p).ptr, nu⟩ }
    (free fuel h2 (p + hdrSize)).map fun h3 => (h3.freep, h3)

/-- `nunits`: the header and the bytes asked for, in header units, as a
`uint`. -/
def nunitsOf (nbytes : Nat) : Nat := ((nbytes + hdrSize - 1) / hdrSize + 1) % 2 ^ 32

/-- The `for` loop of `malloc` from `prevp` and `p = prevp->s.ptr`: the first
block big enough is handed out whole, or its tail is; past `freep` the list
is grown by `morecore`. -/
def mallocLoop (limit fuel nunits : Nat) : Nat → Heap → Nat → Nat → Option (Nat × Heap)
  | 0, _, _, _ => none
  | k + 1, h, prevp, p =>
    if (h.hdr p).size ≥ nunits then
      if (h.hdr p).size = nunits then
        let m := Function.update h.hdr prevp ⟨(h.hdr p).ptr, (h.hdr prevp).size⟩
        some (p + hdrSize, { h with hdr := m, freep := prevp })
      else
        let m1 := Function.update h.hdr p ⟨(h.hdr p).ptr, (h.hdr p).size - nunits⟩
        let p' := p + (m1 p).size * hdrSize
        let m2 := Function.update m1 p' ⟨(m1 p').ptr, nunits⟩
        some (p' + hdrSize, { h with hdr := m2, freep := prevp })
    else if p = h.freep then
      match morecore limit fuel h nunits with
      | none => none
      | some (0, h') => some (0, h')
      | some (p', h') => mallocLoop limit fuel nunits k h' p' (h'.hdr p').ptr
    else mallocLoop limit fuel nunits k h p (h.hdr p).ptr

/-- `malloc(nbytes)`: the pointer handed out (0 for none) and the heap after;
on the first call `base` starts the list as an empty block. -/
def malloc (base limit fuel : Nat) (h : Heap) (nbytes : Nat) : Option (Nat × Heap) :=
  let h := if h.freep = 0 then { h with hdr := Function.update h.hdr base ⟨base, 0⟩, freep := base } else h
  mallocLoop limit fuel (nunitsOf nbytes) fuel h h.freep (h.hdr h.freep).ptr

/-! ## A request near 2^32 bytes -/

/-- A heap never used, with the break at 0x4000. -/
def freshHeap : Heap := ⟨fun _ => ⟨0, 0⟩, 0, 0x4000⟩

/-- `malloc(0xffffffff)` on a fresh heap, with `base` at 0x1000 and 128 MiB
to grow into: `nunits` is 2^28 + 1, whose byte count `nu * sizeof(Header)`
reaches `sbrk` as the `int` 16.  The break moves by 16 bytes, yet the block
recorded and handed out has 2^28 + 1 units, and the pointer returned is
followed by 0xffffffff bytes that lie past the break. -/
theorem malloc_past_break :
    nunitsOf 0xFFFFFFFF = 2 ^ 28 + 1 ∧ toInt32 (nunitsOf 0xFFFFFFFF * hdrSize) = 16 ∧
      ∃ p h', malloc 0x1000 0x8000000 4 freshHeap 0xFFFFFFFF = some (p, h') ∧ p ≠ 0 ∧
        h'.sz < p + 0xFFFFFFFF :=
  ⟨by decide, by decide, _, _, rfl, by decide, by decide⟩

end Xv6.User
