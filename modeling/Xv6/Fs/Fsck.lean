import Mathlib
import Xv6.Fs.Mkfs

/-
  Xv6/Fs/Fsck.lean --- what the disk says, as a file-system checker reads it.

  The namespace and the block accounting as they are on the disk, with no
  side effect: the entries of a directory (a block the dinode does not have
  reads as free entries, where `readi` would allocate it), which inodes are
  reachable from the root through directory entries, and which blocks a
  dinode references.  These are the terms the invariants of the file system
  are stated in; they are computable, so a property of one state is decided
  by evaluation.
-/

set_option autoImplicit false

namespace Xv6.Fs

open Machine

variable {π : Type}

/-! ## Directory entries on the disk -/

/-- The disk block holding block `bn` of the dinode `d`, 0 where it has none. -/
def blockOf (s : FsState π) (d : DInode) (bn : Nat) : Nat :=
  if bn < nDirect then d.addrs bn
  else if d.addrs nDirect = 0 then 0
  else (s.blk (d.addrs nDirect)).addr (bn - nDirect)

/-- The entries of directory `inum` up to its size. -/
def dirents (s : FsState π) (inum : Nat) : List Dirent :=
  (direntOffsets (s.dinode inum).size).map fun off =>
    if blockOf s (s.dinode inum) (off / bSize) = 0 then ⟨0, []⟩
    else (s.blk (blockOf s (s.dinode inum) (off / bSize))).dirent (off % bSize / direntSize)

/-- Directory `d` has an entry in use naming inode `n`. -/
def Link (s : FsState π) (d n : Nat) : Prop :=
  (s.dinode d).type = .dir ∧ n ≠ 0 ∧ ∃ e ∈ dirents s d, e.inum = n

/-- Inode `n` is reachable from the root through directory entries. -/
def Reach (s : FsState π) (n : Nat) : Prop :=
  Relation.ReflTransGen (Link s) rootIno n

/-- Reachable inodes lie in every set that holds the root and is closed
under directory entries. -/
theorem Reach.of_closed {s : FsState π} {S : Nat → Prop} (hroot : S rootIno)
    (hstep : ∀ d n, S d → Link s d n → S n) {n : Nat} (h : Reach s n) : S n := by
  induction h with
  | refl => exact hroot
  | tail _ hl ih => exact hstep _ _ ih hl

/-- An inode no `itable` entry with a reference holds. -/
def Unreferenced (s : FsState π) (inum : Nat) : Prop :=
  ∀ i, (s.itable i).ref = 0 ∨ (s.itable i).inum ≠ inum

instance (s : FsState π) (inum : Nat) : Decidable (Unreferenced s inum) :=
  inferInstanceAs (Decidable (∀ _, _))

/-- A process makes the directory "/d", enters it, unlinks it, creates "x" in
it, closes "x" and exits.  The unlinked directory is freed; "x" is not: its
dinode is a file with one link that no `itable` entry holds, and no directory
reachable from the root names it. -/
theorem create_in_unlinked_cwd_orphans :
    ∃ img, mkfs [] = some img ∧ ∃ s : FsState (Fin 2), Reachable (fsSystem 0 img) s ∧
      (s.dinode 2).type = .free ∧ (s.dinode 3).type = .file ∧ (s.dinode 3).nlink = 1 ∧
      Unreferenced s 3 ∧ ¬ Reach s 3 := by
  have hrun : (mkfs []).map (fun img => (run (fsSystem (0 : Fin 2) img) (initFs img)
      [.sysMkdir 1 ['/', 'd'], .sysChdir 1 ['/', 'd'], .sysUnlink 1 ['/', 'd'],
        .sysOpen 1 ['x'] (oCreate ||| 2), .sysClose 1 0, .exit 1]).get?.map fun s =>
      (s.dinode 2).type == .free && (s.dinode 3).type == .file && (s.dinode 3).nlink == 1 &&
        decide (Unreferenced s 3) &&
        (dirents s rootIno).all fun e => e.inum == 0 || e.inum == rootIno) = some (some true) := by
    decide +kernel
  obtain ⟨img, himg, s, hs, hP⟩ := exists_reachable_of_run hrun
  simp only [Bool.and_eq_true, beq_iff_eq, decide_eq_true_eq, List.all_eq_true, Bool.or_eq_true] at hP
  obtain ⟨⟨⟨⟨hd, htype⟩, hnlink⟩, hunref⟩, hroot⟩ := hP
  refine ⟨img, himg, s, hs, hd, htype, hnlink, hunref, fun h => ?_⟩
  -- the root's entries in use name only the root, so nothing else is reachable
  have h3 : (3 : Nat) = rootIno := by
    refine Reach.of_closed (S := fun n => n = rootIno) rfl (fun d n hd hl => ?_) h
    obtain ⟨-, hn, e, he, rfl⟩ := hl
    subst hd
    exact (hroot e he).resolve_left hn
  exact absurd h3 (by decide)

/-! ## Blocks on the disk -/

/-- The blocks the dinode `d` references: its direct blocks, its indirect
block and the blocks that one lists. -/
def blocksOf (s : FsState π) (d : DInode) : List Nat :=
  ((List.range (nDirect + 1)).map d.addrs ++
    if d.addrs nDirect = 0 then [] else (List.range nIndirect).map (s.blk (d.addrs nDirect)).addr).filter
    (· ≠ 0)

/-- Block `b` is referenced by an allocated dinode. -/
def Referenced (s : FsState π) (b : Nat) : Prop :=
  ∃ inum < nInodes, (s.dinode inum).type ≠ .free ∧ b ∈ blocksOf s (s.dinode inum)

instance (s : FsState π) (b : Nat) : Decidable (Referenced s b) :=
  inferInstanceAs (Decidable (∃ inum < nInodes, _))

end Xv6.Fs
