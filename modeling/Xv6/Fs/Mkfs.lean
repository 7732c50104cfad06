import Xv6.Fs.Syscall

/-
  Xv6/Fs/Mkfs.lean --- the disk image mkfs/mkfs.c builds, and the system that
  runs the file-system calls on it.

  mkfs writes the root directory with "." and "..", then for each input file an
  inode, an entry in the root and the file's bytes; it allocates inodes from 1
  and blocks from the first block after the metadata, in order.  At the end it
  rounds the root directory's size up to the next multiple of `BSIZE`, past the
  last block when the size already was one, and marks the blocks it used in the
  bitmap.  A file's bytes are not modelled, only how many there are; the
  entries of the root are.

  The kernel then starts with every process's current directory the root, as
  `userinit`'s `namei("/")` and `fork`'s `idup` leave it: one `itable` entry
  for the root, not yet read, with a reference from each process.
-/

set_option autoImplicit false

namespace Xv6.Fs

open Machine

/-! ## The image -/

/-- `IPB`: dinodes per block, `BSIZE / sizeof(struct dinode)`. -/
def ipb : Nat := bSize / 64

/-- `ninodeblocks` in mkfs. -/
def nInodeBlocks : Nat := nInodes / ipb + 1

/-- `nbitmap` in mkfs. -/
def nBitmap : Nat := fsSize / (bSize * 8) + 1

/-- `nmeta`: the boot block, the superblock, the log, the inode blocks and the
bitmap blocks. -/
def nMeta : Nat := 2 + nLog + nInodeBlocks + nBitmap

/-- What mkfs has written so far, and its counters `freeinode` and `freeblock`. -/
structure Image where
  dinode : Nat → DInode
  blk : Nat → Blk
  freeinode : Nat
  freeblock : Nat

/-- mkfs's `ialloc`: the next inode, of `type` with one link. -/
def Image.ialloc (img : Image) (type : IType) : Image × Nat :=
  let inum := img.freeinode
  ({ img with
      dinode := Function.update img.dinode inum { DInode.zero with type := type, nlink := 1 }
      freeinode := inum + 1 }, inum)

/-- The next block from `freeblock`, set as address `k` of inode `inum`. -/
def Image.newAddr (img : Image) (inum k : Nat) : Image × Nat :=
  let din := img.dinode inum
  ({ img with
      dinode := Function.update img.dinode inum { din with addrs := Function.update din.addrs k img.freeblock }
      freeblock := img.freeblock + 1 }, img.freeblock)

/-- The block holding block `fbn` of inode `inum`, taken from `freeblock` if
there is none, through the indirect block past `NDIRECT`. -/
def Image.blockFor (img : Image) (inum fbn : Nat) : Image × Nat :=
  if fbn < nDirect then
    if (img.dinode inum).addrs fbn = 0 then img.newAddr inum fbn
    else (img, (img.dinode inum).addrs fbn)
  else
    let (img, ind) := if (img.dinode inum).addrs nDirect = 0 then img.newAddr inum nDirect
      else (img, (img.dinode inum).addrs nDirect)
    if (img.blk ind).addr (fbn - nDirect) = 0 then
      let x := img.freeblock
      let b := { (img.blk ind) with addr := Function.update (img.blk ind).addr (fbn - nDirect) x }
      ({ img with blk := Function.update img.blk ind b, freeblock := x + 1 }, x)
    else (img, (img.blk ind).addr (fbn - nDirect))

/-- The loop of `iappend` from offset `off` with `n` bytes left; `put` writes
bytes at an offset into a block.  `none` when mkfs's `assert(fbn < MAXFILE)`
fails. -/
def Image.iappendFrom (inum : Nat) (put : Blk → Nat → Blk) (img : Image) (off n : Nat) :
    Option Image :=
  if n = 0 then
    some { img with dinode := Function.update img.dinode inum { img.dinode inum with size := off } }
  else if off / bSize ≥ maxFile then none
  else
    let fbn := off / bSize
    let (img, x) := img.blockFor inum fbn
    let n1 := min n ((fbn + 1) * bSize - off)
    let img := { img with blk := Function.update img.blk x (put (img.blk x) (off - fbn * bSize)) }
    Image.iappendFrom inum put img (off + n1) (n - n1)
termination_by n
decreasing_by
  unfold bSize at *
  omega

/-- `iappend`: `n` bytes at the end of inode `inum`. -/
def Image.iappend (img : Image) (inum n : Nat) (put : Blk → Nat → Blk) : Option Image :=
  Image.iappendFrom inum put img (img.dinode inum).size n

/-- Writing one directory entry at an offset of a block. -/
def putDirent (de : Dirent) (b : Blk) (off : Nat) : Blk :=
  { b with dirent := Function.update b.dirent (off / direntSize) de }

/-- The name of an input file in the root: without a leading "user/", and
`none` when what is left holds a '/' (mkfs's `assert`). -/
def shortname (arg : List Char) : Option Name :=
  let name := if arg.take 5 = ['u', 's', 'e', 'r', '/'] then arg.drop 5 else arg
  if '/' ∈ name then none else some name

/-- One input file of `size` bytes: its inode, its entry in the root (without a
leading '_'), and its bytes. -/
def Image.addFile (img : Image) (rootino : Nat) (arg : List Char) (size : Nat) : Option Image := do
  let name ← shortname arg
  let name := if name.head? = some '_' then name.drop 1 else name
  let (img, inum) := img.ialloc .file
  let img ← img.iappend rootino direntSize (putDirent ⟨inum, name.take dirSiz⟩)
  img.iappend inum size fun b _ => b

/-- mkfs on the input files `files`, each a path and a size in bytes. -/
def mkfs (files : List (List Char × Nat)) : Option Image := do
  let img : Image :=
    { dinode := fun _ => DInode.zero, blk := fun _ => Blk.zero, freeinode := 1, freeblock := nMeta }
  let (img, rootino) := img.ialloc .dir
  let img ← img.iappend rootino direntSize (putDirent ⟨rootino, ['.']⟩)
  let img ← img.iappend rootino direntSize (putDirent ⟨rootino, ['.', '.']⟩)
  let img ← files.foldlM (fun img f => img.addFile rootino f.1 f.2) img
  -- fix size of root inode dir
  let din := img.dinode rootino
  pure { img with
    dinode := Function.update img.dinode rootino { din with size := (din.size / bSize + 1) * bSize } }

/-! ## The system -/

variable {π : Type} [DecidableEq π] [Fintype π]

/-- The kernel's state on the image `img`, every process in the root. -/
def initFs (img : Image) : FsState π :=
  { dinode := img.dinode
    -- mkfs's final `balloc(freeblock)` marks every block it used
    bitmap := fun b => decide (b < img.freeblock)
    blk := img.blk
    itable := fun i =>
      if i.val = 0 then
        { dev := rootDev, inum := rootIno, ref := Fintype.card π, valid := false, d := DInode.zero }
      else { dev := 0, inum := 0, ref := 0, valid := false, d := DInode.zero }
    ftable := fun _ => { ref := 0, ip := none }
    ofile := fun _ _ => none
    cwd := fun _ => some 0 }

/-- The file-system calls of the processes `π` on the image `img`. -/
def fsSystem (initproc : π) (img : Image) : System (FsState π) (Op π) :=
  { init := initFs img, step := step initproc }

/-- A run of calls from the image of `files` that completes ends in a reachable
state; evaluated once, it gives that state and what holds of it. -/
theorem exists_reachable_of_run {files : List (List Char × Nat)} {initproc : π} {ops : List (Op π)}
    {P : FsState π → Bool}
    (h : (mkfs files).map (fun img => (run (fsSystem initproc img) (initFs img) ops).get?.map P) =
      some (some true)) :
    ∃ img, mkfs files = some img ∧ ∃ s, Reachable (fsSystem initproc img) s ∧ P s = true := by
  obtain ⟨img, himg, h⟩ := Option.map_eq_some_iff.1 h
  obtain ⟨s, hs, hP⟩ := Option.map_eq_some_iff.1 h
  exact ⟨img, himg, s, reachable_of_run .init _ _ (Result.get?_eq_some.1 hs), hP⟩

end Xv6.Fs
