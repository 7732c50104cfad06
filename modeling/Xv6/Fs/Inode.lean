import Xv6.Lib.Machine
import Xv6.Param

/-
  Xv6/Fs/Inode.lean --- the inode layer of kernel/fs.c.

  STATE.  The disk as the file system sees it once the log has committed: the
  dinodes, the free-block bitmap and the data blocks; the in-memory inode table
  `itable`; the open-file table `ftable`; and for each process its open files
  and current directory.  Every system call of the model runs inside one
  `begin_op`/`end_op` as one atomic step, so the buffer cache and the log are
  left out: a block is what `bread` returns, a `log_write` writes the disk, and
  the sleep-locks of `ilock` and `iunlock` order nothing.  `IBLOCK` and
  `BBLOCK` are left out too: dinode `inum` and the bit of block `b` are
  addressed directly.

  A data block holds bytes the file system reads in three ways: as the entries
  of a directory block, as the block numbers of an indirect block, and as the
  bytes of a file.  A `Blk` keeps the three views; `bzero` clears them.

  FUNCTIONS.  `balloc`, `bfree`, `bmap`, `itrunc`, `ialloc`, `iupdate`, `iget`,
  `idup`, `ilock` and `iput` as fs.c has them, and `readi`/`writei` for the one
  transfer the directory code makes, a `struct dirent` at an offset.  Each
  returns its state; `Result.panic` carries the kernel's panic message.
-/

set_option autoImplicit false

namespace Xv6.Fs

open Machine

instance : NeZero nInode := ⟨by decide⟩
instance : NeZero nFile := ⟨by decide⟩
instance : NeZero noFile := ⟨by decide⟩

/-! ## Data -/

/-- The `type` of an inode: `T_DIR`, `T_FILE`, `T_DEVICE`, or 0 for a free one. -/
inductive IType where
  | free
  | dir
  | file
  | device
  deriving DecidableEq, Repr

/-- A name as `skipelem` leaves it and a `struct dirent` holds it. -/
abbrev Name := List Char

/-- `struct dirent`; an entry with `inum = 0` is free. -/
structure Dirent where
  inum : Nat
  name : Name
  deriving DecidableEq, Repr

/-- `struct dinode`.  `major`, `minor` and `nlink` are `short`s: an `int`
stored into one keeps its low 16 bits, so `nlink++` wraps from 32767 to
-32768. -/
structure DInode where
  type : IType
  major : Int16
  minor : Int16
  nlink : Int16
  size : Nat
  addrs : Nat → Nat

/-- A dinode cleared by `memset(dip, 0, sizeof(*dip))`. -/
def DInode.zero : DInode :=
  { type := .free, major := 0, minor := 0, nlink := 0, size := 0, addrs := fun _ => 0 }

/-- A data block, read as directory entries, as block numbers, or as the
bytes of a file. -/
structure Blk where
  dirent : Nat → Dirent
  addr : Nat → Nat
  data : Nat → UInt8

/-- A block after `bzero`. -/
def Blk.zero : Blk := { dirent := fun _ => ⟨0, []⟩, addr := fun _ => 0, data := fun _ => 0 }

/-- `struct inode`, an entry of `itable`: the dinode fields are a copy, read by
`ilock` when `valid` is clear. -/
structure Inode where
  dev : Nat
  inum : Nat
  ref : Nat
  valid : Bool
  d : DInode

/-- An entry of `ftable`: `ip` is the inode of an `FD_INODE` or `FD_DEVICE`
file, `none` for `FD_NONE`. -/
structure File where
  ref : Nat
  ip : Option (Fin nInode)

/-- The file system's state, for processes named by `π`; a process that has
exited has no current directory. -/
structure FsState (π : Type) where
  dinode : Nat → DInode
  bitmap : Nat → Bool
  blk : Nat → Blk
  itable : Fin nInode → Inode
  ftable : Fin nFile → File
  ofile : π → Fin noFile → Option (Fin nFile)
  cwd : π → Option (Fin nInode)

variable {π : Type}

/-- Change the `itable` entry `ip`. -/
def FsState.updI (s : FsState π) (ip : Fin nInode) (f : Inode → Inode) : FsState π :=
  { s with itable := Function.update s.itable ip (f (s.itable ip)) }

/-- `ip->addrs[k] = addr`. -/
def FsState.setAddr (s : FsState π) (ip : Fin nInode) (k addr : Nat) : FsState π :=
  s.updI ip fun e => { e with d := { e.d with addrs := Function.update e.d.addrs k addr } }

@[simp] theorem FsState.updI_itable_self (s : FsState π) (ip : Fin nInode) (f : Inode → Inode) :
    (s.updI ip f).itable ip = f (s.itable ip) := by
  simp [FsState.updI]

@[simp] theorem FsState.updI_itable_of_ne (s : FsState π) {ip j : Fin nInode} (f : Inode → Inode)
    (h : j ≠ ip) : (s.updI ip f).itable j = s.itable j := by
  simp [FsState.updI, h]

@[simp] theorem FsState.updI_blk (s : FsState π) (ip : Fin nInode) (f : Inode → Inode) :
    (s.updI ip f).blk = s.blk := rfl

@[simp] theorem FsState.updI_bitmap (s : FsState π) (ip : Fin nInode) (f : Inode → Inode) :
    (s.updI ip f).bitmap = s.bitmap := rfl

@[simp] theorem FsState.updI_dinode (s : FsState π) (ip : Fin nInode) (f : Inode → Inode) :
    (s.updI ip f).dinode = s.dinode := rfl

@[simp] theorem FsState.updI_ftable (s : FsState π) (ip : Fin nInode) (f : Inode → Inode) :
    (s.updI ip f).ftable = s.ftable := rfl

@[simp] theorem FsState.updI_ofile (s : FsState π) (ip : Fin nInode) (f : Inode → Inode) :
    (s.updI ip f).ofile = s.ofile := rfl

@[simp] theorem FsState.updI_cwd (s : FsState π) (ip : Fin nInode) (f : Inode → Inode) :
    (s.updI ip f).cwd = s.cwd := rfl

/-! ## Blocks -/

/-- `balloc`: the first block whose bit is clear, marked in use and zeroed by
`bzero`; 0 when the disk is full. -/
def balloc (s : FsState π) : FsState π × Nat :=
  match (List.range fsSize).find? (fun b => !s.bitmap b) with
  | some b =>
    ({ s with bitmap := Function.update s.bitmap b true, blk := Function.update s.blk b Blk.zero }, b)
  | none => (s, 0)

/-- `bfree`: clear the bit of block `b`. -/
def bfree (s : FsState π) (b : Nat) : Result (FsState π) :=
  if s.bitmap b = false then .panic "freeing free block"
  else .ok { s with bitmap := Function.update s.bitmap b false }

/-- `ip->addrs[k]`, allocated by `balloc` if it is 0; 0 when the disk is full. -/
def allocAddr (s : FsState π) (ip : Fin nInode) (k : Nat) : FsState π × Nat :=
  if (s.itable ip).d.addrs k = 0 then
    let (s, addr) := balloc s
    if addr = 0 then (s, 0) else (s.setAddr ip k addr, addr)
  else (s, (s.itable ip).d.addrs k)

/-- `bmap` for `bn >= NDIRECT`: entry `bn` of the indirect block, each
allocated on first use. -/
def bmapIndirect (s : FsState π) (ip : Fin nInode) (bn : Nat) : FsState π × Nat :=
  let (s, ind) := allocAddr s ip nDirect
  if ind = 0 then (s, 0)
  else if (s.blk ind).addr bn = 0 then
    let (s, addr) := balloc s
    if addr = 0 then (s, 0)
    else
      let b := { (s.blk ind) with addr := Function.update (s.blk ind).addr bn addr }
      ({ s with blk := Function.update s.blk ind b }, addr)
  else (s, (s.blk ind).addr bn)

/-- `bmap`: the disk block of block `bn` of the inode, allocating it. -/
def bmap (s : FsState π) (ip : Fin nInode) (bn : Nat) : Result (FsState π × Nat) :=
  if bn < nDirect then .ok (allocAddr s ip bn)
  else if bn - nDirect < nIndirect then .ok (bmapIndirect s ip (bn - nDirect))
  else .panic "bmap: out of range"

/-! ## Inodes -/

/-- `iupdate`: copy the in-memory inode to its dinode. -/
def iupdate (s : FsState π) (ip : Fin nInode) : FsState π :=
  { s with dinode := Function.update s.dinode (s.itable ip).inum (s.itable ip).d }

@[simp] theorem iupdate_itable (s : FsState π) (ip : Fin nInode) : (iupdate s ip).itable = s.itable := rfl

@[simp] theorem iupdate_blk (s : FsState π) (ip : Fin nInode) : (iupdate s ip).blk = s.blk := rfl

@[simp] theorem iupdate_bitmap (s : FsState π) (ip : Fin nInode) : (iupdate s ip).bitmap = s.bitmap := rfl

@[simp] theorem iupdate_ftable (s : FsState π) (ip : Fin nInode) : (iupdate s ip).ftable = s.ftable := rfl

@[simp] theorem iupdate_ofile (s : FsState π) (ip : Fin nInode) : (iupdate s ip).ofile = s.ofile := rfl

@[simp] theorem iupdate_cwd (s : FsState π) (ip : Fin nInode) : (iupdate s ip).cwd = s.cwd := rfl

theorem iupdate_dinode (s : FsState π) (ip : Fin nInode) :
    (iupdate s ip).dinode = Function.update s.dinode (s.itable ip).inum (s.itable ip).d := rfl

/-- `itrunc`: free the direct blocks, the blocks of the indirect block and the
indirect block itself, and set the size to 0. -/
def itrunc (s : FsState π) (ip : Fin nInode) : Result (FsState π) := do
  let s ← (List.range nDirect).foldlM (fun s i =>
    if (s.itable ip).d.addrs i ≠ 0 then do
      let s ← bfree s ((s.itable ip).d.addrs i)
      pure (s.setAddr ip i 0)
    else pure s) s
  let s ← if (s.itable ip).d.addrs nDirect ≠ 0 then do
      let ind := (s.itable ip).d.addrs nDirect
      let s ← (List.range nIndirect).foldlM (fun s j =>
        if (s.blk ind).addr j ≠ 0 then bfree s ((s.blk ind).addr j) else pure s) s
      let s ← bfree s ind
      pure (s.setAddr ip nDirect 0)
    else pure s
  pure (iupdate (s.updI ip fun e => { e with d := { e.d with size := 0 } }) ip)

/-- `iget`: the entry with a reference caching `(dev, inum)`, its count raised;
else the first entry with no reference, recycled with `valid = 0`. -/
def iget (s : FsState π) (dev inum : Nat) : Result (FsState π × Fin nInode) :=
  match (List.finRange nInode).find? (fun i =>
      0 < (s.itable i).ref && (s.itable i).dev == dev && (s.itable i).inum == inum) with
  | some i => .ok (s.updI i fun e => { e with ref := e.ref + 1 }, i)
  | none =>
    match (List.finRange nInode).find? (fun i => (s.itable i).ref == 0) with
    | some i => .ok (s.updI i fun e => { e with dev := dev, inum := inum, ref := 1, valid := false }, i)
    | none => .panic "iget: no inodes"

/-- `ialloc`: the first free dinode from 1 on, cleared and given `type`, and
its `iget`; `none` when every dinode is in use. -/
def ialloc (s : FsState π) (dev : Nat) (type : IType) : Result (FsState π × Option (Fin nInode)) :=
  match (List.range' 1 (nInodes - 1)).find? (fun inum => (s.dinode inum).type == .free) with
  | some inum => do
    let s := { s with dinode := Function.update s.dinode inum { DInode.zero with type := type } }
    let (s, ip) ← iget s dev inum
    pure (s, some ip)
  | none => .ok (s, none)

/-- `idup`. -/
def idup (s : FsState π) (ip : Fin nInode) : FsState π :=
  s.updI ip fun e => { e with ref := e.ref + 1 }

/-- `ilock`: read the dinode into an entry that is not `valid`. -/
def ilock (s : FsState π) (ip : Fin nInode) : Result (FsState π) :=
  if (s.itable ip).ref < 1 then .panic "ilock"
  else if (s.itable ip).valid then .ok s
  else
    let s := s.updI ip fun e => { e with valid := true, d := s.dinode e.inum }
    if (s.itable ip).d.type = .free then .panic "ilock: no type" else .ok s

/-- `iput`: drop a reference; the last reference to a valid inode with no
links frees it (`itrunc`, type 0, `valid = 0`). -/
def iput (s : FsState π) (ip : Fin nInode) : Result (FsState π) := do
  let s ← if (s.itable ip).ref = 1 ∧ (s.itable ip).valid = true ∧ (s.itable ip).d.nlink = 0 then do
      let s ← itrunc s ip
      let s := iupdate (s.updI ip fun e => { e with d := { e.d with type := .free } }) ip
      pure (s.updI ip fun e => { e with valid := false })
    else pure s
  pure (s.updI ip fun e => { e with ref := e.ref - 1 })

/-- `iunlockput`: with atomic calls, the unlock orders nothing. -/
def iunlockput (s : FsState π) (ip : Fin nInode) : Result (FsState π) :=
  iput s ip

/-! ## Reading and writing directory entries -/

/-- `readi(ip, 0, &de, off, sizeof(de))`: the entry at `off`, or `none` when
fewer than `sizeof(de)` bytes come back.  The block is found by `bmap`, which
allocates it if the inode has none there. -/
def readi (s : FsState π) (ip : Fin nInode) (off : Nat) : Result (FsState π × Option Dirent) :=
  if off > (s.itable ip).d.size then .ok (s, none)
  else
    let n := min direntSize ((s.itable ip).d.size - off)
    if n = 0 then .ok (s, none)
    else do
      let (s, addr) ← bmap s ip (off / bSize)
      if addr = 0 ∨ n < direntSize then pure (s, none)
      else pure (s, some ((s.blk addr).dirent (off % bSize / direntSize)))

/-- `writei(ip, 0, &de, off, sizeof(de))`: the bytes written, or -1; the size
grows to cover them and the inode is written back. -/
def writei (s : FsState π) (ip : Fin nInode) (de : Dirent) (off : Nat) : Result (FsState π × Int) :=
  if off > (s.itable ip).d.size then .ok (s, -1)
  else if off + direntSize > maxFile * bSize then .ok (s, -1)
  else do
    let (s, addr) ← bmap s ip (off / bSize)
    let (s, tot) := if addr = 0 then (s, 0)
      else
        let b := { (s.blk addr) with
          dirent := Function.update (s.blk addr).dirent (off % bSize / direntSize) de }
        ({ s with blk := Function.update s.blk addr b }, direntSize)
    let s := if off + tot > (s.itable ip).d.size then
        s.updI ip fun e => { e with d := { e.d with size := off + tot } }
      else s
    pure (iupdate s ip, (tot : Int))

end Xv6.Fs
