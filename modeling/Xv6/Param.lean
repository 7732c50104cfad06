import Mathlib

/-
  Xv6/Param.lean --- the compile-time constants of the kernel.

  Sources: kernel/param.h, kernel/fs.h, kernel/riscv.h, kernel/memlayout.h and
  mkfs/mkfs.c.  Every constant keeps the value the C preprocessor gives it; the
  derived ones (`logSize`, `nBuf`, `maxFile`) are written as the macros are,
  in terms of the others, so a reader can check them against the headers.

  Only the constants some modelled function reads are here.
-/

set_option autoImplicit false

namespace Xv6

/-! ## kernel/param.h -/

/-- `MAXOPBLOCKS`: max # of blocks any FS op writes. -/
def maxOpBlocks : Nat := 10

/-- `LOGSIZE`: max data blocks in on-disk log (`MAXOPBLOCKS*3`). -/
def logSize : Nat := maxOpBlocks * 3

/-- `NBUF`: size of disk block cache (`MAXOPBLOCKS*3`). -/
def nBuf : Nat := maxOpBlocks * 3

/-- `ROOTDEV`: device number of file system root disk. -/
def rootDev : Nat := 1

/-- `NPROC`: maximum number of processes. -/
def nProc : Nat := 64

/-- `NOFILE`: open files per process. -/
def noFile : Nat := 16

/-- `NFILE`: open files per system. -/
def nFile : Nat := 100

/-- `NINODE`: maximum number of active i-nodes. -/
def nInode : Nat := 50

/-- `NDEV`: maximum major device number. -/
def nDev : Nat := 10

/-- `MAXARG`: max exec arguments. -/
def maxArg : Nat := 32

/-- `FSSIZE`: size of file system in blocks. -/
def fsSize : Nat := 2000

/-! ## kernel/fs.h -/

/-- `ROOTINO`: root i-number. -/
def rootIno : Nat := 1

/-- `BSIZE`: block size. -/
def bSize : Nat := 1024

/-- `NDIRECT`. -/
def nDirect : Nat := 12

/-- `NINDIRECT`: `BSIZE / sizeof(uint)`. -/
def nIndirect : Nat := bSize / 4

/-- `MAXFILE`: `NDIRECT + NINDIRECT`. -/
def maxFile : Nat := nDirect + nIndirect

/-- `DIRSIZ`: the length of a name in a directory entry. -/
def dirSiz : Nat := 14

/-- `sizeof(struct dirent)`: a 2-byte inode number and `DIRSIZ` characters. -/
def direntSize : Nat := 2 + dirSiz

/-! ## mkfs/mkfs.c -/

/-- `nlog` in mkfs: the number of log blocks written into the superblock, which
`initlog` copies into `log.size`.  The header block is one of them. -/
def nLog : Nat := logSize

/-- `NINODES` in mkfs, which becomes `sb.ninodes`. -/
def nInodes : Nat := 200

end Xv6
