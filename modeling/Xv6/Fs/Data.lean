import Mathlib
import Xv6.Lib.Machine
import Xv6.Fs.Mkfs
import Xv6.Vm.Walk

/-
  Xv6/Fs/Data.lean --- the data path of one inode at byte level: `balloc`,
  `bmap`, `readi` and `writei` of kernel/fs.c, with the superblock's geometry
  and the blocks passed to `log_write`.

  The inode layer of Inode.lean keeps the bitmap apart from the blocks and
  leaves the log out.  Here a transaction's view of the disk is the bits of the
  free map, the bytes of every block as `bread` returns them (through the
  buffer cache), and the list of blocks passed to `log_write` so far.  The bit
  of block `b` lives in block `BBLOCK(b, sb)`, which is the block `balloc`
  logs; the indirect block is bytes too, its entry `a[bn]` the `uint` at
  `4 * bn`.  `iupdate` is the `log_write` of the dinode's block; the dinode's
  fields are Inode.lean's business.

  `writei` and `readi` take the user memory and page table their
  `either_copyin` goes through, with `copyin` of Walk.lean: the bytes it has
  copied reach `bp->data` even when it fails.  `off` and `n` are `uint`s, so
  their sum is taken modulo 2^32 where the source compares it.
-/

set_option autoImplicit false

namespace Xv6.Fs.Data

open Machine Memory Xv6.Vm

/-! ## Disk -/

/-- The fields of `struct superblock` that `balloc` and `iupdate` read. -/
structure Superblock where
  size : Nat
  inodestart : Nat
  bmapstart : Nat

/-- `BPB`: bitmap bits per block. -/
def bpb : Nat := bSize * 8

/-- `BBLOCK(b, sb)`: the block of the free map holding the bit of block `b`. -/
def bblock (b : Nat) (sb : Superblock) : Nat := b / bpb + sb.bmapstart

/-- `IBLOCK(i, sb)`: the block holding dinode `i`. -/
def iblock (i : Nat) (sb : Superblock) : Nat := i / ipb + sb.inodestart

/-- The disk as a transaction sees it: the bits of the free map, the bytes of
each block, and the blocks passed to `log_write`, in order. -/
structure Disk where
  bitmap : Nat → Bool
  data : Nat → Mem
  logged : List Nat

/-- The fields of `struct inode` that `bmap`, `readi` and `writei` use. -/
structure Ino where
  inum : Nat
  size : Nat
  addrs : Nat → Nat

/-- `log_write(bp)` for block `b`. -/
def logWrite (d : Disk) (b : Nat) : Disk := { d with logged := d.logged ++ [b] }

/-- Bytes copied into the buffer of block `b` at offset `off`. -/
def Disk.write (d : Disk) (b off : Nat) (bs : List UInt8) : Disk :=
  { d with data := Function.update d.data b (writeBytes (d.data b) off bs) }

/-- `bzero`: clear block `b` and log it. -/
def bzero (d : Disk) (b : Nat) : Disk :=
  logWrite { d with data := Function.update d.data b fun _ => 0 } b

/-- `balloc`: the first block whose bit is clear (the two loops visit the
blocks below `sb.size` in increasing order), its bit set and its bitmap block
logged, then zeroed by `bzero`; 0 when every bit is set. -/
def balloc (sb : Superblock) (d : Disk) : Disk × Nat :=
  match (List.range sb.size).find? (fun b => !d.bitmap b) with
  | some b => (bzero (logWrite { d with bitmap := Function.update d.bitmap b true } (bblock b sb)) b, b)
  | none => (d, 0)

/-- `a[bn]` of the indirect block `ind`. -/
def indEntry (d : Disk) (ind bn : Nat) : Nat := loadLE (d.data ind) (4 * bn) 4

/-- `a[bn] = addr` in the buffer of the indirect block `ind`. -/
def setIndEntry (d : Disk) (ind bn addr : Nat) : Disk :=
  { d with data := Function.update d.data ind (storeLE (d.data ind) (4 * bn) addr 4) }

/-- `ip->addrs[k]`, allocated by `balloc` when it is 0. -/
def allocAddr (sb : Superblock) (d : Disk) (ip : Ino) (k : Nat) : Disk × Ino × Nat :=
  if ip.addrs k = 0 then
    let r := balloc sb d
    if r.2 = 0 then (r.1, ip, 0) else (r.1, { ip with addrs := Function.update ip.addrs k r.2 }, r.2)
  else (d, ip, ip.addrs k)

/-- `bmap`: the disk block of block `bn` of the inode, allocated (with the
indirect block) when it is missing; 0 when the disk is full. -/
def bmap (sb : Superblock) (d : Disk) (ip : Ino) (bn : Nat) : Result (Disk × Ino × Nat) :=
  if bn < nDirect then .ok (allocAddr sb d ip bn)
  else if bn - nDirect < nIndirect then
    let r := allocAddr sb d ip nDirect
    let ind := r.2.2
    if ind = 0 then .ok r
    else if indEntry r.1 ind (bn - nDirect) = 0 then
      let a := balloc sb r.1
      if a.2 = 0 then .ok (a.1, r.2.1, 0)
      else .ok (logWrite (setIndEntry a.1 ind (bn - nDirect) a.2) ind, r.2.1, a.2)
    else .ok (r.1, r.2.1, indEntry r.1 ind (bn - nDirect))
  else .panic "bmap: out of range"

/-- `iupdate`: log the block of the inode's dinode. -/
def iupdate (sb : Superblock) (d : Disk) (ip : Ino) : Disk := logWrite d (iblock ip.inum sb)

/-! ## readi and writei -/

/-- The loop of `writei` from byte `tot` of `n`, one block per round: the disk,
the inode, `tot` and `off` when it stops. -/
def writeiLoop (sb : Superblock) (um : Mem) (pagetable n : Nat) :
    Nat → Disk → Ino → Nat → Nat → Nat → Result (Disk × Ino × Nat × Nat)
  | 0, d, ip, tot, off, _ => .ok (d, ip, tot, off)
  | fuel + 1, d, ip, tot, off, src =>
    if tot < n then do
      let (d, ip, addr) ← bmap sb d ip (off / bSize)
      if addr = 0 then pure (d, ip, tot, off)
      else
        let m := min (n - tot) (bSize - off % bSize)
        let r := copyin um pagetable src m
        -- what `copyin` got reaches `bp->data` before it fails
        let d := d.write addr (off % bSize) r.2
        if r.1 = -1 then pure (d, ip, tot, off)
        else writeiLoop sb um pagetable n fuel (logWrite d addr) ip (tot + m) (off + m) (src + m)
    else .ok (d, ip, tot, off)

/-- `writei(ip, 1, src, off, n)`: the bytes written, or -1. -/
def writei (sb : Superblock) (um : Mem) (pagetable : Nat) (d : Disk) (ip : Ino) (src off n : Nat) :
    Result (Disk × Ino × Int) :=
  if off > ip.size ∨ (off + n) % 2 ^ 32 < off then .ok (d, ip, -1)
  else if (off + n) % 2 ^ 32 > maxFile * bSize then .ok (d, ip, -1)
  else do
    let (d, ip, tot, off) ← writeiLoop sb um pagetable n n d ip 0 off src
    let ip := if off > ip.size then { ip with size := off } else ip
    pure (iupdate sb d ip, ip, (tot : Int))

/-- The loop of `readi` into a kernel buffer, one block per round: the disk,
the inode, `tot` and the bytes copied when it stops. -/
def readiLoop (sb : Superblock) (n : Nat) :
    Nat → Disk → Ino → Nat → Nat → List UInt8 → Result (Disk × Ino × Nat × List UInt8)
  | 0, d, ip, tot, _, out => .ok (d, ip, tot, out)
  | fuel + 1, d, ip, tot, off, out =>
    if tot < n then do
      let (d, ip, addr) ← bmap sb d ip (off / bSize)
      if addr = 0 then pure (d, ip, tot, out)
      else
        let m := min (n - tot) (bSize - off % bSize)
        readiLoop sb n fuel d ip (tot + m) (off + m) (out ++ readBytes (d.data addr) (off % bSize) m)
    else .ok (d, ip, tot, out)

/-- `readi(ip, 0, dst, off, n)`: the number of bytes read and the bytes copied
to the kernel buffer `dst`. -/
def readi (sb : Superblock) (d : Disk) (ip : Ino) (off n : Nat) : Result (Disk × Ino × Nat × List UInt8) :=
  if off > ip.size ∨ (off + n) % 2 ^ 32 < off then .ok (d, ip, 0, [])
  else
    let n := if (off + n) % 2 ^ 32 > ip.size then ip.size - off else n
    readiLoop sb n n d ip 0 off []

/-! ## Simp lemmas -/

@[simp] theorem logWrite_logged (d : Disk) (b : Nat) : (logWrite d b).logged = d.logged ++ [b] := rfl

@[simp] theorem Disk.write_logged (d : Disk) (b off : Nat) (bs : List UInt8) :
    (d.write b off bs).logged = d.logged := rfl

@[simp] theorem setIndEntry_logged (d : Disk) (ind bn addr : Nat) :
    (setIndEntry d ind bn addr).logged = d.logged := rfl

@[simp] theorem iupdate_logged (sb : Superblock) (d : Disk) (ip : Ino) :
    (iupdate sb d ip).logged = d.logged ++ [iblock ip.inum sb] := rfl

theorem bzero_logged (d : Disk) (b : Nat) : (bzero d b).logged = d.logged ++ [b] := rfl

@[simp] theorem logWrite_bitmap (d : Disk) (b : Nat) : (logWrite d b).bitmap = d.bitmap := rfl

@[simp] theorem Disk.write_bitmap (d : Disk) (b off : Nat) (bs : List UInt8) :
    (d.write b off bs).bitmap = d.bitmap := rfl

@[simp] theorem bzero_bitmap (d : Disk) (b : Nat) : (bzero d b).bitmap = d.bitmap := rfl

@[simp] theorem setIndEntry_bitmap (d : Disk) (ind bn addr : Nat) :
    (setIndEntry d ind bn addr).bitmap = d.bitmap := rfl

/-- What `balloc` logs: nothing when every bit is set, and it returns 0;
otherwise the bitmap block of the block it returns, then that block. -/
theorem balloc_cases {sb : Superblock} {d d' : Disk} {b : Nat} (h : balloc sb d = (d', b)) :
    (d' = d ∧ b = 0) ∨ d'.logged = d.logged ++ [bblock b sb, b] := by
  unfold balloc at h
  split at h
  · cases h
    exact Or.inr (by simp [bzero_logged])
  · cases h
    exact Or.inl ⟨rfl, rfl⟩

/-- What `allocAddr` does: nothing when the address is there; otherwise what
`balloc` logs, and the block it returns put in place unless it is 0. -/
theorem allocAddr_cases {sb : Superblock} {d d' : Disk} {ip ip' : Ino} {k x : Nat}
    (h : allocAddr sb d ip k = (d', ip', x)) :
    (ip.addrs k ≠ 0 ∧ d' = d ∧ ip' = ip ∧ x = ip.addrs k) ∨
      (ip.addrs k = 0 ∧ x = 0 ∧ ip' = ip ∧ (d'.logged = d.logged ∨ d'.logged = d.logged ++ [bblock 0 sb, 0])) ∨
      (ip.addrs k = 0 ∧ x ≠ 0 ∧ ip' = { ip with addrs := Function.update ip.addrs k x } ∧
        d'.logged = d.logged ++ [bblock x sb, x]) := by
  unfold allocAddr at h
  by_cases hk : ip.addrs k = 0
  · rw [if_pos hk] at h
    rcases hb : balloc sb d with ⟨d1, b⟩
    rw [hb] at h
    dsimp only at h
    by_cases hb0 : b = 0
    · rw [if_pos hb0] at h
      cases h
      rcases balloc_cases hb with ⟨rfl, -⟩ | hl
      · exact Or.inr (Or.inl ⟨hk, rfl, rfl, Or.inl rfl⟩)
      · exact Or.inr (Or.inl ⟨hk, rfl, rfl, Or.inr (hb0 ▸ hl)⟩)
    · rw [if_neg hb0] at h
      cases h
      rcases balloc_cases hb with ⟨-, h0⟩ | hl
      · exact absurd h0 hb0
      · exact Or.inr (Or.inr ⟨hk, hb0, rfl, hl⟩)
  · rw [if_neg hk] at h
    cases h
    exact Or.inl ⟨hk, rfl, rfl, rfl⟩

/-! ## What balloc, allocAddr and bmap return -/

/-- `balloc` takes the first block whose bit is clear. -/
theorem balloc_of_first {sb : Superblock} {d : Disk} {b : Nat} (hb : b < sb.size) (hfree : d.bitmap b = false)
    (hused : ∀ c < b, d.bitmap c = true) :
    balloc sb d = (bzero (logWrite { d with bitmap := Function.update d.bitmap b true } (bblock b sb)) b, b) := by
  have hfind : (List.range sb.size).find? (fun c => !d.bitmap c) = some b :=
    List.find?_range_eq_some.2 ⟨by simp [hfree], List.mem_range.2 hb, fun c hc => by simp [hused c hc]⟩
  unfold balloc
  rw [hfind]

/-- A missing address filled by `balloc`. -/
theorem allocAddr_of_balloc {sb : Superblock} {d d1 : Disk} {ip : Ino} {k b : Nat} (hk : ip.addrs k = 0)
    (hb : balloc sb d = (d1, b)) (hb0 : b ≠ 0) :
    allocAddr sb d ip k = (d1, { ip with addrs := Function.update ip.addrs k b }, b) := by
  simp [allocAddr, hk, hb, hb0]

theorem allocAddr_of_ne_zero {sb : Superblock} {d : Disk} {ip : Ino} {k : Nat} (hk : ip.addrs k ≠ 0) :
    allocAddr sb d ip k = (d, ip, ip.addrs k) := by
  simp [allocAddr, hk]

theorem bmap_of_lt {sb : Superblock} {d : Disk} {ip : Ino} {bn : Nat} (hbn : bn < nDirect) :
    bmap sb d ip bn = .ok (allocAddr sb d ip bn) := by
  simp [bmap, hbn]

/-- `bmap` of a block behind the indirect block whose entry is 0: the entry
filled by `balloc` and the indirect block logged. -/
theorem bmap_of_indEntry_zero {sb : Superblock} {d d1 d2 : Disk} {ip ip1 : Ino} {bn ind b : Nat}
    (h1 : nDirect ≤ bn) (h2 : bn - nDirect < nIndirect) (ha : allocAddr sb d ip nDirect = (d1, ip1, ind))
    (hind : ind ≠ 0) (he : indEntry d1 ind (bn - nDirect) = 0) (hb : balloc sb d1 = (d2, b)) (hb0 : b ≠ 0) :
    bmap sb d ip bn = .ok (logWrite (setIndEntry d2 ind (bn - nDirect) b) ind, ip1, b) := by
  simp [bmap, Nat.not_lt.2 h1, h2, ha, hind, he, hb, hb0]

/-! The entries of the indirect block, as the writes of a round leave them. -/

theorem indEntry_bzero (d : Disk) (b e : Nat) : indEntry (bzero d b) b e = 0 := by
  simp [indEntry, bzero, logWrite, loadLE]

theorem indEntry_bzero_of_ne {d : Disk} {b ind : Nat} (h : b ≠ ind) (e : Nat) :
    indEntry (bzero d b) ind e = indEntry d ind e := by
  simp [indEntry, bzero, logWrite, Function.update_of_ne (Ne.symm h)]

theorem indEntry_logWrite (d : Disk) (b ind e : Nat) : indEntry (logWrite d b) ind e = indEntry d ind e := rfl

theorem indEntry_write_of_ne {d : Disk} {b ind : Nat} (h : b ≠ ind) (off : Nat) (bs : List UInt8) (e : Nat) :
    indEntry (d.write b off bs) ind e = indEntry d ind e := by
  simp [indEntry, Disk.write, Function.update_of_ne (Ne.symm h)]

theorem indEntry_setBitmap (d : Disk) (f : Nat → Bool) (ind e : Nat) :
    indEntry { bitmap := f, data := d.data, logged := d.logged } ind e = indEntry d ind e := rfl

/-- Setting one entry keeps the others: the four bytes of entry `e` lie
outside those of `e'`. -/
theorem indEntry_setIndEntry_of_ne {d : Disk} {ind e e' : Nat} (h : e ≠ e') (v : Nat) :
    indEntry (setIndEntry d ind e' v) ind e = indEntry d ind e := by
  simp only [indEntry, setIndEntry, Function.update_self]
  exact loadLE_congr _ _ _ _ fun b h1 h2 => storeLE_of_lt_or_le _ _ _ _ (by omega)

/-! ## The blocks one writei logs

A round of `writei` logs the block it writes, and when `bmap` allocates it,
its bitmap block; once per inode `bmap` may also allocate the indirect block,
which costs that block and its bitmap block, and logs the indirect block again
whenever it fills one of its entries.  `indDue` is what the indirect block
may still cost, so that the number of distinct blocks logged plus `indDue`
grows by at most two a round, and by one when the round's block is there. -/

/-- The block holding block `bn` of the inode, as `bmap` finds it: 0 when it,
or the indirect block it lies behind, is missing. -/
def slot (d : Disk) (ip : Ino) (bn : Nat) : Nat :=
  if bn < nDirect then ip.addrs bn
  else if ip.addrs nDirect = 0 then 0
  else indEntry d (ip.addrs nDirect) (bn - nDirect)

/-- The indirect block, once the inode has one. -/
def indSet (ip : Ino) : Finset Nat := if ip.addrs nDirect = 0 then ∅ else {ip.addrs nDirect}

/-- What the indirect block may still cost: itself and its bitmap block while
it is missing. -/
def indDue (ip : Ino) : Nat := if ip.addrs nDirect = 0 then 2 else 0

/-- The number of blocks the bytes `[off, off + r)` span. -/
def spanned (off r : Nat) : Nat := if r = 0 then 0 else (off % bSize + r + bSize - 1) / bSize

theorem indSet_card_add_indDue (ip : Ino) : (indSet ip).card + indDue ip ≤ 2 := by
  unfold indSet indDue
  split <;> simp

theorem indSet_indDue_of_addrs {ip ip' : Ino} (h : ip'.addrs nDirect = ip.addrs nDirect) :
    indSet ip' = indSet ip ∧ indDue ip' = indDue ip := by
  simp [indSet, indDue, h]

/-- A round leaves `spanned` one block shorter. -/
theorem spanned_step (off r : Nat) (hr : 0 < r) :
    spanned (off + min r (bSize - off % bSize)) (r - min r (bSize - off % bSize)) + 1 = spanned off r := by
  unfold spanned bSize
  split_ifs <;> omega

theorem one_le_spanned (off r : Nat) (hr : 0 < r) : 1 ≤ spanned off r := by
  unfold spanned bSize
  split_ifs <;> omega

/-- A set that is another plus at most `k` elements. -/
theorem card_le_of_subset_union {X Y E : Finset Nat} {k : Nat} (h : X ⊆ Y ∪ E) (hE : E.card ≤ k) :
    X.card ≤ Y.card + k :=
  (Finset.card_le_card h).trans ((Finset.card_union_le Y E).trans (Nat.add_le_add_left hE _))

theorem card_pair_le (a b : Nat) : ({a, b} : Finset Nat).card ≤ 2 :=
  (Finset.card_insert_le a {b}).trans (by simp)

/-- `allocAddr` of a direct block: the block and, when it is allocated, its
bitmap block. -/
theorem allocAddr_cost {sb : Superblock} {d d' : Disk} {ip ip' : Ino} {k x : Nat} (hk : k ≠ nDirect)
    (h : allocAddr sb d ip k = (d', ip', x)) (A : Finset Nat) :
    ∃ L, d'.logged = d.logged ++ L ∧
      (A ∪ L.toFinset ∪ {x} ∪ indSet ip').card + indDue ip' ≤
        (A ∪ indSet ip).card + indDue ip + (if ip.addrs k = 0 then 2 else 1) := by
  rcases allocAddr_cases h with ⟨hk0, hd, hip, hx⟩ | ⟨hk0, hx, hip, hl⟩ | ⟨hk0, hx, hip, hl⟩
  · subst d' ip' x
    refine ⟨[], by simp, ?_⟩
    rw [if_neg hk0, Nat.add_assoc, Nat.add_comm (indDue ip), ← Nat.add_assoc]
    refine Nat.add_le_add_right (card_le_of_subset_union (E := {ip.addrs k}) ?_ (by simp)) _
    intro y hy
    simp only [Finset.mem_union, List.toFinset_nil, Finset.notMem_empty, or_false] at hy ⊢
    grind
  · subst ip' x
    obtain ⟨L, hL, hsub⟩ : ∃ L, d'.logged = d.logged ++ L ∧ L ⊆ [bblock 0 sb, 0] := by
      rcases hl with hl | hl
      · exact ⟨[], by simp [hl], by simp⟩
      · exact ⟨_, hl, List.Subset.refl _⟩
    refine ⟨L, hL, ?_⟩
    rw [if_pos hk0, Nat.add_assoc, Nat.add_comm (indDue ip), ← Nat.add_assoc]
    refine Nat.add_le_add_right (card_le_of_subset_union (E := {bblock 0 sb, 0}) ?_ (card_pair_le _ _)) _
    intro y hy
    simp only [Finset.mem_union, List.mem_toFinset, Finset.mem_singleton, Finset.mem_insert] at hy ⊢
    rcases hy with ((hy | hy) | hy) | hy
    · exact Or.inl (Or.inl hy)
    · have := hsub hy
      simp only [List.mem_cons, List.not_mem_nil, or_false] at this
      exact Or.inr this
    · exact Or.inr (Or.inr hy)
    · exact Or.inl (Or.inr hy)
  · subst ip'
    have hind : indSet { ip with addrs := Function.update ip.addrs k x } = indSet ip ∧
        indDue { ip with addrs := Function.update ip.addrs k x } = indDue ip :=
      indSet_indDue_of_addrs (Function.update_of_ne (Ne.symm hk) _ _)
    refine ⟨_, hl, ?_⟩
    rw [hind.1, hind.2, if_pos hk0, Nat.add_assoc, Nat.add_comm (indDue ip), ← Nat.add_assoc]
    refine Nat.add_le_add_right (card_le_of_subset_union (E := {bblock x sb, x}) ?_ (card_pair_le _ _)) _
    intro y hy
    simp only [Finset.mem_union, List.mem_toFinset, Finset.mem_singleton, Finset.mem_insert,
      List.mem_cons, List.not_mem_nil, or_false] at hy ⊢
    grind

/-- `allocAddr` of the indirect block when it succeeds: what it logs is paid
for by `indDue`. -/
theorem allocAddr_ind_cost {sb : Superblock} {d d1 : Disk} {ip ip1 : Ino} {ind : Nat}
    (h : allocAddr sb d ip nDirect = (d1, ip1, ind)) (hind : ind ≠ 0) (A : Finset Nat) :
    ∃ L1, d1.logged = d.logged ++ L1 ∧ ip1.addrs nDirect = ind ∧
      (A ∪ L1.toFinset ∪ indSet ip1).card + indDue ip1 ≤ (A ∪ indSet ip).card + indDue ip ∧
      (ip.addrs nDirect ≠ 0 → d1 = d ∧ ip1 = ip) := by
  rcases allocAddr_cases h with ⟨hk0, hd, hip, hx⟩ | ⟨-, hx, -⟩ | ⟨hk0, -, hip, hl⟩
  · subst d1 ip1 ind
    exact ⟨[], by simp, rfl, by simp, fun _ => ⟨rfl, rfl⟩⟩
  · exact absurd hx hind
  · subst ip1
    refine ⟨_, hl, by simp, ?_, fun h => absurd hk0 h⟩
    have hset : indSet { ip with addrs := Function.update ip.addrs nDirect ind } = {ind} := by
      simp [indSet, hind]
    have hdue : indDue { ip with addrs := Function.update ip.addrs nDirect ind } = 0 := by
      simp [indDue, hind]
    rw [hset, hdue, show indSet ip = ∅ by simp [indSet, hk0], show indDue ip = 2 by simp [indDue, hk0],
      Finset.union_empty, Nat.add_zero]
    refine card_le_of_subset_union (E := {bblock ind sb, ind}) ?_ (card_pair_le _ _)
    intro y hy
    simp only [Finset.mem_union, List.mem_toFinset, Finset.mem_singleton, Finset.mem_insert,
      List.mem_cons, List.not_mem_nil, or_false] at hy ⊢
    grind

/-- `allocAddr` of the indirect block when it fails: at most `balloc`'s logs
of block 0. -/
theorem allocAddr_ind_zero {sb : Superblock} {d d1 : Disk} {ip ip1 : Ino}
    (h : allocAddr sb d ip nDirect = (d1, ip1, 0)) :
    ip.addrs nDirect = 0 ∧ ip1 = ip ∧ ∃ L1, d1.logged = d.logged ++ L1 ∧ L1 ⊆ [bblock 0 sb, 0] := by
  rcases allocAddr_cases h with ⟨hk0, -, -, hx⟩ | ⟨hk0, -, hip, hl⟩ | ⟨-, hx, -⟩
  · exact absurd hx.symm hk0
  · refine ⟨hk0, hip, ?_⟩
    rcases hl with hl | hl
    · exact ⟨[], by simp [hl], by simp⟩
    · exact ⟨_, hl, List.Subset.refl _⟩
  · exact absurd rfl hx

/-- One `bmap`: at most two new blocks, one when block `bn` is there; the
indirect block, when it allocates it, is paid for by `indDue`. -/
theorem bmap_cost {sb : Superblock} {d d' : Disk} {ip ip' : Ino} {bn x : Nat}
    (h : bmap sb d ip bn = .ok (d', ip', x)) (A : Finset Nat) :
    ∃ L, d'.logged = d.logged ++ L ∧
      (A ∪ L.toFinset ∪ {x} ∪ indSet ip').card + indDue ip' ≤
        (A ∪ indSet ip).card + indDue ip + (if slot d ip bn = 0 then 2 else 1) := by
  unfold bmap at h
  by_cases hd : bn < nDirect
  -- a direct block
  · rw [if_pos hd] at h
    have hslot : slot d ip bn = ip.addrs bn := by simp [slot, hd]
    rw [hslot]
    exact allocAddr_cost (by omega) (Result.ok.inj h) A
  rw [if_neg hd] at h
  by_cases hi : bn - nDirect < nIndirect
  swap
  · rw [if_neg hi] at h
    cases h
  rw [if_pos hi] at h
  rcases hr : allocAddr sb d ip nDirect with ⟨d1, ip1, ind⟩
  rw [hr] at h
  dsimp only at h
  have hslot : slot d ip bn = if ip.addrs nDirect = 0 then 0 else indEntry d (ip.addrs nDirect) (bn - nDirect) := by
    simp [slot, hd]
  by_cases hind : ind = 0
  -- no indirect block and none to be had
  · subst ind
    rw [if_pos rfl, Result.ok.injEq, Prod.mk.injEq, Prod.mk.injEq] at h
    obtain ⟨rfl, rfl, rfl⟩ := h
    obtain ⟨hk0, hip1, L1, hL1, hsub⟩ := allocAddr_ind_zero hr
    have hsub' : ∀ y ∈ L1, y = bblock 0 sb ∨ y = 0 := fun y hy => by simpa using hsub hy
    refine ⟨L1, hL1, ?_⟩
    rw [hip1]
    have hc : (A ∪ L1.toFinset ∪ {0} ∪ indSet ip).card ≤ (A ∪ indSet ip).card + 2 :=
      card_le_of_subset_union (E := {bblock 0 sb, 0}) (fun y hy => by
        simp only [Finset.mem_union, List.mem_toFinset, Finset.mem_singleton, Finset.mem_insert] at hy ⊢
        rcases hy with ((hy | hy) | hy) | hy
        · exact Or.inl (Or.inl hy)
        · exact Or.inr (hsub' y hy)
        · exact Or.inr (Or.inr hy)
        · exact Or.inl (Or.inr hy)) (card_pair_le _ _)
    simp only [hslot, hk0, if_true]
    omega
  rw [if_neg hind] at h
  obtain ⟨L1, hL1, hip1, hcost1, hkeep⟩ := allocAddr_ind_cost hr hind A
  -- the round's block was there only if the indirect block and its entry were
  have hzero : indEntry d1 ind (bn - nDirect) = 0 → slot d ip bn = 0 := by
    intro he
    rw [hslot]
    split_ifs with hk0
    · rfl
    · obtain ⟨hd1, hip1'⟩ := hkeep hk0
      rw [← hd1, ← hip1', hip1]
      exact he
  have hset1 : indSet ip1 = {ind} := by simp [indSet, hip1, hind]
  by_cases he : indEntry d1 ind (bn - nDirect) = 0
  · rw [if_pos he] at h
    rw [hzero he, if_pos rfl]
    rcases hb : balloc sb d1 with ⟨d2, b⟩
    rw [hb] at h
    dsimp only at h
    obtain ⟨L2, hL2, hsub⟩ : ∃ L2, d2.logged = d1.logged ++ L2 ∧ ∀ y ∈ L2, y = bblock b sb ∨ y = b := by
      rcases balloc_cases hb with ⟨rfl, -⟩ | hl
      · exact ⟨[], by simp, by simp⟩
      · exact ⟨_, hl, by simp⟩
    by_cases hb0 : b = 0
    -- the entry's block cannot be had
    · subst b
      rw [if_pos rfl, Result.ok.injEq, Prod.mk.injEq, Prod.mk.injEq] at h
      obtain ⟨rfl, rfl, rfl⟩ := h
      refine ⟨L1 ++ L2, by rw [hL2, hL1, List.append_assoc], ?_⟩
      have hc : (A ∪ (L1 ++ L2).toFinset ∪ {0} ∪ indSet ip1).card ≤ (A ∪ L1.toFinset ∪ indSet ip1).card + 2 :=
        card_le_of_subset_union (E := {bblock 0 sb, 0}) (fun y hy => by
          simp only [Finset.mem_union, List.mem_toFinset, List.mem_append, Finset.mem_singleton,
            Finset.mem_insert] at hy ⊢
          have := hsub y
          grind) (card_pair_le _ _)
      omega
    -- the entry's block is allocated and the indirect block logged
    · rw [if_neg hb0, Result.ok.injEq, Prod.mk.injEq, Prod.mk.injEq] at h
      obtain ⟨rfl, rfl, rfl⟩ := h
      refine ⟨L1 ++ (L2 ++ [ind]), by simp [hL2, hL1], ?_⟩
      have hc : (A ∪ (L1 ++ (L2 ++ [ind])).toFinset ∪ {b} ∪ indSet ip1).card ≤
          (A ∪ L1.toFinset ∪ indSet ip1).card + 2 :=
        card_le_of_subset_union (E := {bblock b sb, b}) (fun y hy => by
          simp only [Finset.mem_union, List.mem_toFinset, List.mem_append, Finset.mem_singleton,
            Finset.mem_insert, hset1, List.mem_cons, List.not_mem_nil, or_false] at hy ⊢
          rcases hy with ((hy | hy | hy | hy) | hy) | hy
          · exact Or.inl (Or.inl (Or.inl hy))
          · exact Or.inl (Or.inl (Or.inr hy))
          · exact Or.inr (hsub y hy)
          · exact Or.inl (Or.inr hy)
          · exact Or.inr (Or.inr hy)
          · exact Or.inl (Or.inr hy)) (card_pair_le _ _)
      omega
  -- the entry is there
  · rw [if_neg he, Result.ok.injEq, Prod.mk.injEq, Prod.mk.injEq] at h
    obtain ⟨rfl, rfl, rfl⟩ := h
    refine ⟨L1, hL1, ?_⟩
    have hc : (A ∪ L1.toFinset ∪ {indEntry d1 ind (bn - nDirect)} ∪ indSet ip1).card ≤
        (A ∪ L1.toFinset ∪ indSet ip1).card + 1 :=
      card_le_of_subset_union (E := {indEntry d1 ind (bn - nDirect)}) (fun y hy => by
        simp only [Finset.mem_union, Finset.mem_singleton] at hy ⊢
        grind) (by simp)
    split_ifs <;> omega

section Loop

variable {sb : Superblock} {um : Mem} {pagetable n : Nat}

/-- A round that stops after `bmap` has paid for the blocks it logged. -/
theorem stop_cost {A : Finset Nat} {L1 : List Nat} {ip ip1 : Ino} {x c p k : Nat}
    (hcost : (A ∪ L1.toFinset ∪ {x} ∪ indSet ip1).card + indDue ip1 ≤ (A ∪ indSet ip).card + indDue ip + c)
    (hcp : c + p ≤ 2) (hk : 1 ≤ k) :
    (A ∪ L1.toFinset ∪ indSet ip1).card + indDue ip1 + p ≤ (A ∪ indSet ip).card + indDue ip + 2 * k := by
  have hsub : (A ∪ L1.toFinset ∪ indSet ip1).card ≤ (A ∪ L1.toFinset ∪ {x} ∪ indSet ip1).card :=
    Finset.card_le_card (Finset.union_subset_union Finset.subset_union_left (Finset.Subset.refl _))
  omega

/-- A round pays two blocks when its block is missing and one when it is
there; in the second case the next bound already counts one of them. -/
theorem round_cost_le (s : Nat) (p : Prop) [Decidable p] :
    (if s = 0 then 2 else 1) + (if p ∧ s ≠ 0 then 1 else 0) ≤ 2 := by
  by_cases hs : s = 0
  · simp [hs]
  · split_ifs <;> omega

/-- The rounds of `writei` from byte `tot`: the distinct blocks logged, with
what the indirect block may still cost, grow by at most two for each block the
rest of the bytes span, less one when the first of them is there. -/
theorem writeiLoop_cost : ∀ (fuel : Nat) (d : Disk) (ip : Ino) (tot off src : Nat) (d' : Disk) (ip' : Ino)
    (tot' off' : Nat), writeiLoop sb um pagetable n fuel d ip tot off src = .ok (d', ip', tot', off') →
    ∀ A : Finset Nat, ∃ L, d'.logged = d.logged ++ L ∧
      (A ∪ L.toFinset ∪ indSet ip').card + indDue ip' + (if tot < n ∧ slot d ip (off / bSize) ≠ 0 then 1 else 0) ≤
        (A ∪ indSet ip).card + indDue ip + 2 * spanned off (n - tot) := by
  intro fuel
  induction fuel with
  | zero =>
    intro d ip tot off src d' ip' tot' off' h A
    rw [writeiLoop, Result.ok.injEq, Prod.mk.injEq, Prod.mk.injEq, Prod.mk.injEq] at h
    obtain ⟨rfl, rfl, rfl, rfl⟩ := h
    refine ⟨[], by simp, ?_⟩
    simp only [List.toFinset_nil, Finset.union_empty]
    split_ifs with hlt
    · have := one_le_spanned off (n - tot) (by omega)
      omega
    · omega
  | succ fuel ih =>
    intro d ip tot off src d' ip' tot' off' h A
    rw [writeiLoop] at h
    by_cases hlt : tot < n
    swap
    · rw [if_neg hlt, Result.ok.injEq, Prod.mk.injEq, Prod.mk.injEq, Prod.mk.injEq] at h
      obtain ⟨rfl, rfl, rfl, rfl⟩ := h
      exact ⟨[], by simp, by simp [hlt]⟩
    rw [if_pos hlt] at h
    obtain ⟨⟨d1, ip1, x⟩, hb, h⟩ := Result.bind_eq_ok.1 h
    obtain ⟨L1, hL1, hcost⟩ := bmap_cost hb A
    have hspan := one_le_spanned off (n - tot) (by omega)
    have hcp := round_cost_le (slot d ip (off / bSize)) (tot < n)
    dsimp only at h
    by_cases hx : x = 0
    -- no block: stop
    · rw [if_pos hx, Result.pure_eq_ok, Prod.mk.injEq, Prod.mk.injEq, Prod.mk.injEq] at h
      obtain ⟨rfl, rfl, rfl, rfl⟩ := h
      exact ⟨L1, hL1, stop_cost hcost hcp hspan⟩
    rw [if_neg hx] at h
    by_cases hr : (copyin um pagetable src (min (n - tot) (bSize - off % bSize))).1 = -1
    -- the copy fails: stop, with what it got in the buffer
    · rw [if_pos hr, Result.pure_eq_ok, Prod.mk.injEq, Prod.mk.injEq, Prod.mk.injEq] at h
      obtain ⟨rfl, rfl, rfl, rfl⟩ := h
      exact ⟨L1, by rw [Disk.write_logged, hL1], stop_cost hcost hcp hspan⟩
    -- the block is written and logged: on to the next
    rw [if_neg hr] at h
    obtain ⟨L', hL', hrest⟩ := ih _ _ _ _ _ _ _ _ _ h (A ∪ L1.toFinset ∪ {x})
    refine ⟨L1 ++ x :: L', by simp [hL', hL1], ?_⟩
    have hstep := spanned_step off (n - tot) (by omega)
    rw [Nat.sub_add_eq] at hrest
    have hset : A ∪ (L1 ++ x :: L').toFinset ∪ indSet ip' = A ∪ L1.toFinset ∪ {x} ∪ L'.toFinset ∪ indSet ip' := by
      ext y
      simp only [Finset.mem_union, List.mem_toFinset, List.mem_append, List.mem_cons, Finset.mem_singleton]
      grind
    rw [hset]
    omega

/-- `bmap` of a block below `MAXFILE` does not panic. -/
theorem bmap_ok (d : Disk) (ip : Ino) {bn : Nat} (hbn : bn < maxFile) : ∃ r, bmap sb d ip bn = .ok r := by
  unfold bmap
  unfold maxFile at hbn
  dsimp only
  split_ifs <;> first | exact ⟨_, rfl⟩ | omega

/-- The rounds of `writei` over bytes below `MAXFILE * BSIZE` do not panic. -/
theorem writeiLoop_ok : ∀ (fuel : Nat) (d : Disk) (ip : Ino) (tot off src : Nat),
    off + (n - tot) ≤ maxFile * bSize → ∃ r, writeiLoop sb um pagetable n fuel d ip tot off src = .ok r := by
  intro fuel
  induction fuel with
  | zero => intro d ip tot off src _; exact ⟨_, rfl⟩
  | succ fuel ih =>
    intro d ip tot off src hle
    rw [writeiLoop]
    split_ifs with hlt
    · have hbn : off / bSize < maxFile := by
        unfold bSize at hle ⊢
        rw [Nat.div_lt_iff_lt_mul (by decide)]
        omega
      obtain ⟨⟨d1, ip1, x⟩, hb⟩ : ∃ r, bmap sb d ip (off / bSize) = .ok r := bmap_ok d ip hbn
      rw [hb, Result.ok_bind]
      dsimp only
      split_ifs
      · exact ⟨_, rfl⟩
      · exact ⟨_, rfl⟩
      · exact ih _ _ _ _ _ (by have := Nat.min_le_left (n - tot) (bSize - off % bSize); omega)
    · exact ⟨_, rfl⟩

/-- A round whose block is there and whose copy succeeds: the block written
and logged, and the loop on from the next byte. -/
theorem writeiLoop_round {fuel : Nat} {d d1 : Disk} {ip ip1 : Ino} {tot off src addr : Nat}
    (hlt : tot < n) (hb : bmap sb d ip (off / bSize) = .ok (d1, ip1, addr)) (ha : addr ≠ 0)
    (hc : (copyin um pagetable src (min (n - tot) (bSize - off % bSize))).1 ≠ -1) :
    writeiLoop sb um pagetable n (fuel + 1) d ip tot off src =
      writeiLoop sb um pagetable n fuel
        (logWrite (d1.write addr (off % bSize)
          (copyin um pagetable src (min (n - tot) (bSize - off % bSize))).2) addr)
        ip1 (tot + min (n - tot) (bSize - off % bSize)) (off + min (n - tot) (bSize - off % bSize))
        (src + min (n - tot) (bSize - off % bSize)) := by
  rw [writeiLoop, if_pos hlt, hb, Result.ok_bind]
  simp only [if_neg ha, if_neg hc]

/-- The loop stops once `tot` reaches `n`. -/
theorem writeiLoop_done {fuel : Nat} {d : Disk} {ip : Ino} {tot off src : Nat} (h : ¬ tot < n) :
    writeiLoop sb um pagetable n (fuel + 1) d ip tot off src = .ok (d, ip, tot, off) := by
  rw [writeiLoop, if_neg h]

end Loop

/-- `writei` of fewer than 2^32 bytes, as its `uint n` is, never panics. -/
theorem writei_ok (sb : Superblock) (um : Mem) (pagetable : Nat) (d : Disk) (ip : Ino) (src off n : Nat)
    (hn : n < 2 ^ 32) : ∃ r, writei sb um pagetable d ip src off n = .ok r := by
  unfold writei
  split_ifs with h1 h2
  · exact ⟨_, rfl⟩
  · exact ⟨_, rfl⟩
  · -- the guards leave `off + n <= MAXFILE * BSIZE`, with no wrap
    have hnowrap : (off + n) % 2 ^ 32 = off + n := by
      rw [not_or] at h1
      by_contra hne
      have : 2 ^ 32 ≤ off + n := by
        by_contra hlt
        exact hne (Nat.mod_eq_of_lt (Nat.lt_of_not_le hlt))
      have := Nat.mod_lt (off + n) (show 0 < 2 ^ 32 by decide)
      omega
    obtain ⟨⟨d1, ip1, tot, off1⟩, hl⟩ : ∃ r, writeiLoop sb um pagetable n n d ip 0 off src = .ok r :=
      writeiLoop_ok n d ip 0 off src (by omega)
    rw [hl, Result.ok_bind]
    exact ⟨_, rfl⟩

/-- Every `writei`: the distinct blocks it logs are at most two for each block
its bytes span and three more (the indirect block, its bitmap block, and the
dinode's block), less one when the first of those blocks is there. -/
theorem writei_logged_card {sb : Superblock} {um : Mem} {pagetable : Nat} {d d' : Disk} {ip ip' : Ino}
    {src off n : Nat} {r : Int} (h : writei sb um pagetable d ip src off n = .ok (d', ip', r)) :
    ∃ L, d'.logged = d.logged ++ L ∧
      L.toFinset.card + (if 0 < n ∧ slot d ip (off / bSize) ≠ 0 then 1 else 0) ≤ 2 * spanned off n + 3 := by
  unfold writei at h
  split_ifs at h with h1 h2
  · rw [Result.ok.injEq, Prod.mk.injEq] at h
    obtain ⟨rfl, -⟩ := h
    exact ⟨[], by simp, by split_ifs <;> simp⟩
  · rw [Result.ok.injEq, Prod.mk.injEq] at h
    obtain ⟨rfl, -⟩ := h
    exact ⟨[], by simp, by split_ifs <;> simp⟩
  obtain ⟨⟨d1, ip1, tot, off1⟩, hl, h⟩ := Result.bind_eq_ok.1 h
  rw [Result.pure_eq_ok, Prod.mk.injEq] at h
  obtain ⟨rfl, -⟩ := h
  obtain ⟨L, hL, hcost⟩ := writeiLoop_cost _ _ _ _ _ _ _ _ _ _ hl ∅
  simp only [Nat.sub_zero, Finset.empty_union] at hcost
  refine ⟨L ++ [iblock (if off1 > ip1.size then { ip1 with size := off1 } else ip1).inum sb], by simp [hL], ?_⟩
  generalize iblock _ sb = b
  have hind := indSet_card_add_indDue ip
  have hlast : (L ++ [b]).toFinset.card ≤ L.toFinset.card + 1 := by
    rw [List.toFinset_append]
    exact (Finset.card_union_le _ _).trans (by simp)
  have hmono : L.toFinset.card ≤ (L.toFinset ∪ indSet ip1).card := Finset.card_le_card Finset.subset_union_left
  split_ifs at hcost ⊢ <;> omega

/-! ## A fragmented free map

A disk of 32770 blocks, with the free map in blocks 3 to 7, whose only clear
bits are those of blocks 1, 8193, 16385, 24577 and 32769: one in each bitmap
block.  `fragBits k` is the map once `balloc` has taken the first `k` of
them. -/

/-- The superblock: 32770 blocks, dinodes from block 2, the free map from
block 3. -/
def sbFrag : Superblock := ⟨32770, 2, 3⟩

/-- The free map after `k` allocations. -/
def fragBits (k b : Nat) : Bool := !decide (b % bpb = 1 ∧ k ≤ b / bpb ∧ b / bpb < 5)

theorem fragBits_eq_true (k b : Nat) :
    fragBits k b = true ↔ ¬(b % bpb = 1 ∧ k ≤ b / bpb ∧ b / bpb < 5) := by
  rw [fragBits, Bool.not_eq_true', decide_eq_false_iff_not]

/-- The `k`-th allocation takes block `BPB * k + 1` and logs bitmap block
`k + 3`. -/
theorem balloc_frag {d : Disk} {k : Nat} (hd : d.bitmap = fragBits k) (hk : k < 5) :
    balloc sbFrag d =
      (bzero (logWrite { d with bitmap := fragBits (k + 1) } (k + 3)) (bpb * k + 1), bpb * k + 1) := by
  have hbits : Function.update (fragBits k) (bpb * k + 1) true = fragBits (k + 1) := by
    funext c
    by_cases hc : c = bpb * k + 1
    · subst hc
      rw [Function.update_self, eq_comm, fragBits_eq_true]
      unfold bpb bSize
      omega
    · rw [Function.update_of_ne hc, Bool.eq_iff_iff, fragBits_eq_true, fragBits_eq_true]
      unfold bpb bSize at hc ⊢
      omega
  have hfree : fragBits k (bpb * k + 1) = false := by
    rw [Bool.eq_false_iff, ne_eq, fragBits_eq_true]
    unfold bpb bSize
    omega
  -- every block below `BPB * k + 1` is in use: the clear bits left are above it
  have hused : ∀ c < bpb * k + 1, fragBits k c = true := fun c hc =>
    (fragBits_eq_true k c).2 (by unfold bpb bSize at hc ⊢; omega)
  rw [balloc_of_first (by unfold sbFrag bpb bSize; dsimp only; omega) (hd ▸ hfree) (hd ▸ hused), hd, hbits]
  congr 3
  unfold bblock sbFrag bpb bSize
  dsimp only
  omega

/-- The disk with that free map, nothing logged. -/
def diskFrag : Disk := ⟨fragBits 0, fun _ _ => 0, []⟩

/-- Bytes from the text page of Walk.lean's `textImage`, at user address 0:
the page is mapped, so any copy that stays in it succeeds. -/
theorem copyin_text (src m : Nat) (h : src + m ≤ pgSize) : (copyin textImage 0x1000 src m).1 = 0 := by
  unfold copyin
  rw [copyinLoop_of_mapped m src m (Nat.le_refl _) fun a _ ha => by
    rw [show pgRoundDown a = 0 by
      unfold pgRoundDown pgSize at *
      rw [Nat.div_eq_of_lt (by omega), Nat.zero_mul]]
    decide]

/-! ## A chunk of filewrite -/

/-- Every block below the inode's size is there.  `writei` keeps it so: it
writes only at `off <= size` and grows the size over the bytes it wrote. -/
def NoHoles (d : Disk) (ip : Ino) : Prop := ∀ bn, bn * bSize < ip.size → slot d ip bn ≠ 0

/-- The bytes of one chunk of `filewrite` span at most four blocks, and three
when they start at a block boundary. -/
theorem spanned_chunk_le (off n : Nat) (hn : n ≤ (maxOpBlocks - 1 - 1 - 2) / 2 * bSize) :
    spanned off n ≤ 4 ∧ (off % bSize = 0 → spanned off n ≤ 3) := by
  unfold spanned
  unfold maxOpBlocks bSize at hn
  unfold bSize
  split_ifs <;> omega

/-- One chunk of `filewrite`, as it calls `writei`, on an inode with no holes:
for every geometry, bitmap, inode and offset, `writei` returns and the
distinct blocks it logs are at most `MAXOPBLOCKS`. -/
theorem writei_chunk_logs_le (sb : Superblock) (um : Mem) (pagetable : Nat) (d : Disk) (ip : Ino)
    (src off n : Nat) (hn : n ≤ (maxOpBlocks - 1 - 1 - 2) / 2 * bSize) (hholes : NoHoles d ip) :
    ∃ d' ip' r L, writei sb um pagetable d ip src off n = .ok (d', ip', r) ∧
      d'.logged = d.logged ++ L ∧ L.toFinset.card ≤ maxOpBlocks := by
  obtain ⟨⟨d', ip', r⟩, hw⟩ := writei_ok sb um pagetable d ip src off n
    (by unfold maxOpBlocks bSize at hn; omega)
  obtain ⟨L, hL, hcard⟩ := writei_logged_card hw
  refine ⟨d', ip', r, L, hw, hL, ?_⟩
  obtain ⟨h4, h3⟩ := spanned_chunk_le off n hn
  by_cases hal : off % bSize = 0
  · have := h3 hal
    unfold maxOpBlocks
    omega
  by_cases hoff : off ≤ ip.size
  -- the block holding `off` holds bytes below the size, so it is there
  · by_cases hn0 : 0 < n
    · have hfirst : slot d ip (off / bSize) ≠ 0 := hholes _ (by
        have := Nat.div_mul_le_self off bSize
        have : off / bSize * bSize ≠ off := fun heq => hal (by rw [← heq]; exact Nat.mul_mod_left _ _)
        omega)
      rw [if_pos ⟨hn0, hfirst⟩] at hcard
      unfold maxOpBlocks
      omega
    · have : spanned off n = 0 := by simp [spanned, show n = 0 by omega]
      unfold maxOpBlocks
      omega
  -- past the size `writei` logs nothing
  · unfold writei at hw
    rw [if_pos (Or.inl (Nat.lt_of_not_le hoff)), Result.ok.injEq, Prod.mk.injEq] at hw
    obtain ⟨rfl, -⟩ := hw
    rw [List.self_eq_append_right.1 hL]
    simp

/-- An empty file of inode 1. -/
def emptyFile : Ino := ⟨1, 0, fun _ => 0⟩

theorem writei_chunk_logs_le_emptyFile :
    3072 ≤ (maxOpBlocks - 1 - 1 - 2) / 2 * bSize ∧ NoHoles diskFrag emptyFile ∧
      ∃ d' ip' r L, writei sbFrag textImage 0x1000 diskFrag emptyFile 0 0 3072 = .ok (d', ip', r) ∧
        d'.logged = diskFrag.logged ++ L ∧ L.toFinset.card ≤ maxOpBlocks :=
  ⟨by decide, fun _ h => absurd h (Nat.not_lt_zero _),
    writei_chunk_logs_le sbFrag textImage 0x1000 diskFrag emptyFile 0 0 3072 (by decide)
      fun _ h => absurd h (Nat.not_lt_zero _)⟩

/-- A file of 11265 bytes whose block 11 is a hole, with no indirect block. -/
def holeFile : Ino := ⟨1, 11265, fun k => if k < 11 then 100 + k else 0⟩

/-- A chunk of 3072 bytes at the end of `holeFile`, on the fragmented disk:
four blocks and the indirect block allocated, each from its own bitmap block,
and the dinode's block make eleven distinct blocks logged. -/
theorem writei_over_hole_logs_eleven :
    ∃ d' ip' r, writei sbFrag textImage 0x1000 diskFrag holeFile 0 11265 3072 = .ok (d', ip', r) ∧
      maxOpBlocks < d'.logged.toFinset.card := by
  rw [writei, if_neg (by decide), if_neg (by decide)]
  -- round 1: block 11, a hole among the direct blocks
  have hb1 : bmap sbFrag diskFrag holeFile (11265 / bSize) = .ok (allocAddr sbFrag diskFrag holeFile (11265 / bSize)) :=
    bmap_of_lt (by decide)
  rw [allocAddr_of_balloc (by decide) (balloc_frag rfl (by decide)) (by decide)] at hb1
  rw [writeiLoop_round (by decide) hb1 (by decide) (by rw [copyin_text _ _ (by decide)]; decide)]
  simp only [bSize, bpb, Nat.reduceAdd, Nat.reduceSub, Nat.reduceMul, Nat.reduceMod, Nat.reduceDiv, Nat.min_def,
    Nat.reduceLeDiff, reduceIte]
  -- round 2: block 12, behind the indirect block, both missing
  rw [writeiLoop_round (by decide) ?hb2 ?ha2 ?hc2]
  case hb2 =>
    exact bmap_of_indEntry_zero (by decide) (by decide)
      (allocAddr_of_balloc (by decide) (balloc_frag (k := 1) (by simp [diskFrag]) (by decide)) (by decide)) (by decide)
      (indEntry_bzero _ _ _) (balloc_frag (k := 2) (by simp [diskFrag]) (by decide)) (by decide)
  case ha2 => decide
  case hc2 => rw [copyin_text _ _ (by decide)]; decide
  simp only [bSize, bpb, Nat.reduceAdd, Nat.reduceSub, Nat.reduceMul, Nat.reduceMod, Nat.reduceDiv, Nat.min_def,
    Nat.reduceLeDiff, reduceIte]
  -- rounds 3 and 4: blocks 13 and 14, behind the indirect block now there
  rw [writeiLoop_round (by decide) ?hb3 ?ha3 ?hc3]
  case hb3 =>
    refine bmap_of_indEntry_zero (by decide) (by decide) (allocAddr_of_ne_zero (by decide)) (by decide) ?_
      (balloc_frag (k := 3) (by simp [diskFrag]) (by decide)) (by decide)
    simp (disch := decide) only [bSize, nDirect, Nat.reduceDiv, Nat.reduceSub, Function.update_self,
      indEntry_logWrite, indEntry_write_of_ne, indEntry_setIndEntry_of_ne, indEntry_bzero_of_ne, indEntry_setBitmap,
      indEntry_bzero]
  case ha3 => decide
  case hc3 => rw [copyin_text _ _ (by decide)]; decide
  simp only [bSize, bpb, Nat.reduceAdd, Nat.reduceSub, Nat.reduceMul, Nat.reduceMod, Nat.reduceDiv, Nat.min_def,
    Nat.reduceLeDiff, reduceIte]
  rw [writeiLoop_round (by decide) ?hb4 ?ha4 ?hc4]
  case hb4 =>
    refine bmap_of_indEntry_zero (by decide) (by decide) (allocAddr_of_ne_zero (by decide)) (by decide) ?_
      (balloc_frag (k := 4) (by simp [diskFrag]) (by decide)) (by decide)
    simp (disch := decide) only [bSize, nDirect, Nat.reduceDiv, Nat.reduceSub, Function.update_self,
      indEntry_logWrite, indEntry_write_of_ne, indEntry_setIndEntry_of_ne, indEntry_bzero_of_ne, indEntry_setBitmap,
      indEntry_bzero]
  case ha4 => decide
  case hc4 => rw [copyin_text _ _ (by decide)]; decide
  simp only [bSize, bpb, Nat.reduceAdd, Nat.reduceSub, Nat.reduceMul, Nat.reduceMod, Nat.reduceDiv, Nat.min_def,
    Nat.reduceLeDiff, reduceIte]
  rw [writeiLoop_done (by decide), Result.ok_bind]
  refine ⟨_, _, _, rfl, ?_⟩
  simp only [iupdate_logged, logWrite_logged, bzero_logged, Disk.write_logged, setIndEntry_logged, diskFrag]
  decide

/-! ## A copy that fails midway

`either_copyin` copies into `bp->data` page by page.  When a later page is
not mapped, `writei` leaves its loop without `log_write` and returns the
bytes of the rounds before; the buffer keeps what was copied, and `readi`
reads it back through the buffer cache. -/

/-- A disk whose blocks all hold 0xff bytes. -/
def diskFull : Disk := ⟨fun _ => true, fun _ _ => 0xFF, []⟩

/-- A file of one full block, at disk block 500. -/
def oneBlockFile : Ino := ⟨1, 1024, fun k => if k = 0 then 500 else 0⟩

/-- Twenty bytes from user address 0xff6 into the first block: the ten below
the unmapped page at 0x1000 reach the buffer, `writei` returns 0, and the
file's first ten bytes read back changed. -/
theorem writei_failed_copy_changes_file :
    ∃ d', writei sbFrag textImage 0x1000 diskFull oneBlockFile 0xFF6 0 20 = .ok (d', oneBlockFile, 0) ∧
      (readi sbFrag diskFull oneBlockFile 0 10).get?.map (fun r => r.2.2.2) = some (List.replicate 10 0xFF) ∧
      (readi sbFrag d' oneBlockFile 0 10).get?.map (fun r => r.2.2.2) = some (List.replicate 10 0) :=
  ⟨_, rfl, by decide, by decide⟩

end Xv6.Fs.Data
