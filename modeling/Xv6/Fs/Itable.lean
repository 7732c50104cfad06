import Xv6.Fs.Lookup
import Xv6.Lib.Scan

/-
  Xv6/Fs/Itable.lean --- the inode table under many open files.

  `iget` takes an entry of the fixed table `itable[NINODE]`: the entry already
  holding the inode, else the first entry with no reference; with neither, it
  panics (`iget_eq_panic_iff`).  Every open file keeps a reference to its
  inode, and the file table has NFILE = 100 entries, more than NINODE = 50:
  processes that open 50 distinct files between them, each within its NOFILE
  descriptors, fill the inode table, and the lookup of the next file panics
  (`open_files_exhaust_itable`).
-/

set_option autoImplicit false

namespace Xv6.Fs

open Machine

variable {π : Type}

/-- The `k`-th file of `fullRootFiles`, by its name in the root. -/
def fullRootName (k : Nat) : List Char :=
  ['f', Char.ofNat (48 + k / 10), Char.ofNat (48 + k % 10)]

/-- Four processes, each in the root, open the files "f00" to "f49" of
`fullRootFiles`, thirteen each in turn (process `k / 13` opens the `k`-th).
The first 49 opens take inode-table entries 1 to 49; in the 50th the lookup of
"f49" finds every entry referenced, 13 files per process and 49 in the file
table, and panics. -/
theorem open_files_exhaust_itable :
    ∃ img, mkfs fullRootFiles = some img ∧
      run (fsSystem (0 : Fin 4) img) (initFs img)
        ((List.range 50).map fun k => .sysOpen (Fin.ofNat 4 (k / 13)) (fullRootName k) oRdonly) =
        .panic "iget: no inodes" := by
  have h : (mkfs fullRootFiles).map (fun img =>
      (run (fsSystem (0 : Fin 4) img) (initFs img)
        ((List.range 50).map fun k => .sysOpen (Fin.ofNat 4 (k / 13)) (fullRootName k) oRdonly)).panicMsg?) =
      some (some "iget: no inodes") := by
    decide +kernel
  obtain ⟨img, himg, hrun⟩ := Option.map_eq_some_iff.1 h
  exact ⟨img, himg, Result.panicMsg?_eq_some.1 hrun⟩

end Xv6.Fs
