import Xv6.Fs.Fsck

/-
  Xv6/Fs/Lookup.lean --- what looking a name up does to the disk.

  `dirlookup` scans a directory with `readi`, and `readi` finds each block with
  `bmap`, which allocates a block the inode does not have.  So a lookup can set
  a bit of the bitmap and record the block in the in-memory inode; it writes no
  dinode (`dirlookup_onlyAllocates`), and nothing on the lookup path calls
  `iupdate`.  When the block lies within the directory's size, a read does
  allocate (`readi_allocates`): the disk then has a block in use that no dinode
  references, and the in-memory inode differs from its dinode (`holeDir`
  below is a directory of that shape, built by hand).

  mkfs makes such a directory: it rounds the root's size up to the next
  multiple of `BSIZE` even when the size already is one, so with 62 input
  files (64 entries, one full block) the root's size covers a second block it
  never allocated.  A lookup of a name the root lacks then reads that block
  (`lookup_in_root_leaks_block`, `lookup_in_root_outdates_dinode`).
-/

set_option autoImplicit false

namespace Xv6.Fs

open Machine

variable {π : Type}

/-! ## Calls that only allocate -/

/-- `s'` has the dinodes of `s` and every block in use in `s`: all that changed
on the disk is that blocks were allocated. -/
structure OnlyAllocates (s s' : FsState π) : Prop where
  dinode : s'.dinode = s.dinode
  bitmap : ∀ b, s.bitmap b = true → s'.bitmap b = true

theorem OnlyAllocates.refl (s : FsState π) : OnlyAllocates s s := ⟨rfl, fun _ h => h⟩

theorem OnlyAllocates.trans {s₁ s₂ s₃ : FsState π} (h₁ : OnlyAllocates s₁ s₂)
    (h₂ : OnlyAllocates s₂ s₃) : OnlyAllocates s₁ s₃ :=
  ⟨h₂.dinode.trans h₁.dinode, fun b hb => h₂.bitmap b (h₁.bitmap b hb)⟩

/-- A change of the inode table or of block data only. -/
theorem onlyAllocates_of_eq {s s' : FsState π} (hd : s'.dinode = s.dinode) (hb : s'.bitmap = s.bitmap) :
    OnlyAllocates s s' :=
  ⟨hd, fun _ h => hb ▸ h⟩

theorem onlyAllocates_balloc (s : FsState π) : OnlyAllocates s (balloc s).1 := by
  unfold balloc
  split
  · refine ⟨rfl, fun b hb => ?_⟩
    simp only [Function.update_apply]
    split
    · rfl
    · exact hb
  · exact .refl s

theorem onlyAllocates_allocAddr (s : FsState π) (ip : Fin nInode) (k : Nat) :
    OnlyAllocates s (allocAddr s ip k).1 := by
  unfold allocAddr
  split
  · -- the new block is recorded in the in-memory inode only
    have hb := onlyAllocates_balloc s
    rcases hA : balloc s with ⟨s₁, addr⟩
    rw [hA] at hb
    dsimp only
    split
    · exact hb
    · exact hb.trans (onlyAllocates_of_eq rfl rfl)
  · exact .refl s

theorem onlyAllocates_bmapIndirect (s : FsState π) (ip : Fin nInode) (bn : Nat) :
    OnlyAllocates s (bmapIndirect s ip bn).1 := by
  unfold bmapIndirect
  have ha := onlyAllocates_allocAddr s ip nDirect
  rcases hA : allocAddr s ip nDirect with ⟨s₁, ind⟩
  rw [hA] at ha
  dsimp only
  split
  · exact ha
  · split
    · have hb := ha.trans (onlyAllocates_balloc s₁)
      rcases hB : balloc s₁ with ⟨s₂, addr⟩
      rw [hB] at hb
      dsimp only
      split
      · exact hb
      · exact hb.trans (onlyAllocates_of_eq rfl rfl)
    · exact ha

theorem OnlyAllocates.bmap {s s' : FsState π} {ip : Fin nInode} {bn addr : Nat}
    (h : bmap s ip bn = .ok (s', addr)) : OnlyAllocates s s' := by
  unfold Fs.bmap at h
  split at h
  · simp only [Result.ok.injEq] at h
    have hs : s' = (allocAddr s ip bn).1 := by rw [h]
    exact hs ▸ onlyAllocates_allocAddr s ip bn
  · split at h
    · simp only [Result.ok.injEq] at h
      have hs : s' = (bmapIndirect s ip (bn - nDirect)).1 := by rw [h]
      exact hs ▸ onlyAllocates_bmapIndirect s ip _
    · cases h

theorem OnlyAllocates.readi {s s' : FsState π} {ip : Fin nInode} {off : Nat} {de : Option Dirent}
    (h : readi s ip off = .ok (s', de)) : OnlyAllocates s s' := by
  unfold Fs.readi at h
  dsimp only at h
  split at h
  · cases h
    exact .refl s
  · split at h
    · cases h
      exact .refl s
    · obtain ⟨⟨s₁, addr⟩, hb, h⟩ := Result.bind_eq_ok.1 h
      have h₁ := OnlyAllocates.bmap hb
      dsimp only at h
      split at h <;> (cases h; exact h₁)

theorem OnlyAllocates.iget {s s' : FsState π} {dev inum : Nat} {ip : Fin nInode}
    (h : iget s dev inum = .ok (s', ip)) : OnlyAllocates s s' := by
  unfold Fs.iget at h
  split at h
  · cases h
    exact onlyAllocates_of_eq rfl rfl
  · split at h
    · cases h
      exact onlyAllocates_of_eq rfl rfl
    · cases h

/-- The scan of `dirlookup` only allocates, whatever it finds. -/
theorem OnlyAllocates.dirlookupFrom {dp : Fin nInode} {name : Name} :
    ∀ (offs : List Nat) {s s' : FsState π} {r : Option (Fin nInode × Nat)},
      Fs.dirlookupFrom dp name s offs = .ok (s', r) → OnlyAllocates s s'
  | [], s, s', r, h => by
    cases h
    exact .refl s
  | off :: offs, s, s', r, h => by
    unfold Fs.dirlookupFrom at h
    obtain ⟨⟨s₁, de⟩, hr, h⟩ := Result.bind_eq_ok.1 h
    have h₁ := OnlyAllocates.readi hr
    dsimp only at h
    split at h
    · cases h
    · split at h
      · exact h₁.trans (OnlyAllocates.dirlookupFrom offs h)
      · split at h
        · obtain ⟨⟨s₂, ip⟩, hg, h⟩ := Result.bind_eq_ok.1 h
          cases h
          exact h₁.trans (OnlyAllocates.iget hg)
        · exact h₁.trans (OnlyAllocates.dirlookupFrom offs h)

/-- `dirlookup` writes no dinode and frees no block, whatever it finds. -/
theorem dirlookup_onlyAllocates {s s' : FsState π} {dp : Fin nInode} {name : Name}
    {r : Option (Fin nInode × Nat)} (h : dirlookup s dp name = .ok (s', r)) : OnlyAllocates s s' := by
  unfold dirlookup at h
  split at h
  · cases h
  · exact OnlyAllocates.dirlookupFrom _ h

/-! ## A read that allocates -/

/-- `balloc` on a disk with a free block and block 0 in use: a block that was
free, now in use. -/
theorem balloc_spec (s : FsState π) (hfree : ∃ b < fsSize, s.bitmap b = false)
    (h0 : s.bitmap 0 = true) :
    (balloc s).2 ≠ 0 ∧ s.bitmap (balloc s).2 = false ∧ (balloc s).1.bitmap (balloc s).2 = true := by
  unfold balloc
  cases hf : (List.range fsSize).find? (fun b => !s.bitmap b) with
  | none =>
    obtain ⟨b, hb, hbf⟩ := hfree
    have := List.find?_eq_none.1 hf b (List.mem_range.2 hb)
    simp [hbf] at this
  | some b =>
    have hb : s.bitmap b = false := by simpa using List.find?_some hf
    refine ⟨fun h => ?_, hb, by simp⟩
    subst h
    simp [h0] at hb

/-- `readi` of an entry within the size of an inode that has no block there
allocates a block that was free and records it in the in-memory inode, and
writes no dinode. -/
theorem readi_allocates {s s' : FsState π} {ip : Fin nInode} {off : Nat} {de : Option Dirent}
    (hsize : off + direntSize ≤ (s.itable ip).d.size) (hbn : off / bSize < nDirect)
    (hno : (s.itable ip).d.addrs (off / bSize) = 0)
    (hfree : ∃ b < fsSize, s.bitmap b = false) (h0 : s.bitmap 0 = true)
    (h : readi s ip off = .ok (s', de)) :
    s'.dinode = s.dinode ∧ ∃ b, s.bitmap b = false ∧ s'.bitmap b = true ∧
      (s'.itable ip).d.addrs (off / bSize) = b := by
  obtain ⟨hne, hwas, hnow⟩ := balloc_spec s hfree h0
  rcases hB : balloc s with ⟨s₂, b⟩
  rw [hB] at hne hwas hnow
  dsimp only at hne hwas hnow
  -- `bmap` takes the direct block, which `allocAddr` allocates
  have hA : allocAddr s ip (off / bSize) = (s₂.setAddr ip (off / bSize) b, b) := by
    unfold allocAddr
    rw [if_pos hno, hB]
    dsimp only
    rw [if_neg hne]
  unfold Fs.readi at h
  dsimp only at h
  rw [if_neg (by omega), if_neg (by unfold direntSize dirSiz at *; omega)] at h
  obtain ⟨⟨s₁, addr⟩, hb, h⟩ := Result.bind_eq_ok.1 h
  dsimp only at h
  have hs' : s' = s₁ := by split at h <;> (cases h; rfl)
  subst hs'
  unfold Fs.bmap at hb
  rw [if_pos hbn, hA] at hb
  simp only [Result.ok.injEq, Prod.mk.injEq] at hb
  obtain ⟨rfl, rfl⟩ := hb
  have hd : s₂.dinode = s.dinode := by
    have := (onlyAllocates_balloc s).dinode
    rwa [hB] at this
  refine ⟨hd, b, hwas, ?_, ?_⟩
  · simpa [FsState.setAddr, FsState.updI] using hnow
  · simp [FsState.setAddr]

/-! ## A directory with a hole

The shape mkfs gives the root of `fullRootFiles`, built by hand: a directory
whose size covers two blocks, with only its first, on a disk whose blocks
below 47 are in use. -/

/-- The directory's inode: two blocks' size, block 46 its first and no second. -/
def holeDirInode : DInode :=
  { type := .dir, major := 0, minor := 0, nlink := 1, size := 2 * bSize,
    addrs := fun k => if k = 0 then 46 else 0 }

/-- The disk, with the directory cached and valid in entry 0 of the inode table. -/
def holeDir : FsState Unit :=
  { dinode := fun inum => if inum = rootIno then holeDirInode else DInode.zero
    bitmap := fun b => decide (b < 47)
    blk := fun _ => Blk.zero
    itable := fun i =>
      if i.val = 0 then { dev := rootDev, inum := rootIno, ref := 1, valid := true, d := holeDirInode }
      else { dev := 0, inum := 0, ref := 0, valid := false, d := DInode.zero }
    ftable := fun _ => ⟨0, none⟩
    ofile := fun _ _ => none
    cwd := fun _ => some 0 }

set_option maxRecDepth 20000 in
/-- Reading the first entry of the second block allocates block 47 for it. -/
theorem readi_allocates_holeDir :
    ∃ s' de, readi holeDir 0 bSize = .ok (s', de) ∧
      s'.dinode = holeDir.dinode ∧ ∃ b, holeDir.bitmap b = false ∧ s'.bitmap b = true ∧
        (s'.itable 0).d.addrs (bSize / bSize) = b := by
  obtain ⟨s', de, h⟩ : ∃ s' de, readi holeDir 0 bSize = .ok (s', de) := ⟨_, _, rfl⟩
  exact ⟨s', de, h, readi_allocates (by decide) (by decide) rfl ⟨47, by decide, rfl⟩ rfl h⟩

set_option maxRecDepth 20000 in
/-- A lookup of a name the directory lacks reads both blocks: it finds nothing,
and on the way allocates block 47, and only allocates. -/
theorem dirlookup_onlyAllocates_holeDir :
    ∃ s' r, dirlookup holeDir 0 ['z'] = .ok (s', r) ∧ r = none ∧ s'.bitmap 47 = true ∧
      OnlyAllocates holeDir s' := by
  obtain ⟨s', r, h, hr, hb⟩ : ∃ s' r, dirlookup holeDir 0 ['z'] = .ok (s', r) ∧ r = none ∧
      s'.bitmap 47 = true := ⟨_, _, rfl, rfl, rfl⟩
  exact ⟨s', r, h, hr, hb, dirlookup_onlyAllocates h⟩

/-! ## The root directory of mkfs -/

/-- Sixty-two empty input files "f00", ..., "f61": with "." and "..", the root
gets 64 entries, one block exactly. -/
def fullRootFiles : List (List Char × Nat) :=
  (List.range 62).map fun i => (['f', Char.ofNat (48 + i / 10), Char.ofNat (48 + i % 10)], 0)

set_option maxRecDepth 20000 in
/-- mkfs rounds the root's size of 1024 bytes, already a multiple of BSIZE, up
to 2048: the root's size covers two blocks, and it has only the first. -/
theorem mkfs_root_size_past_its_blocks :
    ∃ img, mkfs fullRootFiles = some img ∧ (img.dinode rootIno).size = 2 * bSize ∧
      (img.dinode rootIno).addrs 0 = nMeta ∧ (img.dinode rootIno).addrs 1 = 0 := by
  have h : (mkfs fullRootFiles).map (fun img =>
      decide ((img.dinode rootIno).size = 2 * bSize ∧ (img.dinode rootIno).addrs 0 = nMeta ∧
        (img.dinode rootIno).addrs 1 = 0)) = some true := by
    decide +kernel
  obtain ⟨img, himg, hP⟩ := Option.map_eq_some_iff.1 h
  exact ⟨img, himg, of_decide_eq_true hP⟩

set_option maxRecDepth 20000 in
/-- On the image of `fullRootFiles`, block 47 is free; after `open("/z")` of a
name the root lacks, it is in use, and no allocated dinode references it. -/
theorem lookup_in_root_leaks_block :
    ∃ img, mkfs fullRootFiles = some img ∧ (initFs img : FsState (Fin 1)).bitmap 47 = false ∧
      ∃ s : FsState (Fin 1), Reachable (fsSystem 0 img) s ∧
        nMeta ≤ 47 ∧ s.bitmap 47 = true ∧ ¬ Referenced s 47 := by
  -- mkfs used the blocks below 47: the metadata and the root's one block
  have hfree : (mkfs fullRootFiles).map Image.freeblock = some 47 := by
    decide +kernel
  have hrun : (mkfs fullRootFiles).map (fun img =>
      (run (fsSystem (0 : Fin 1) img) (initFs img) [.sysOpen 0 ['/', 'z'] 0]).get?.map fun s =>
        s.bitmap 47 && !decide (Referenced s 47)) = some (some true) := by
    decide +kernel
  obtain ⟨img, himg, s, hs, hP⟩ := exists_reachable_of_run hrun
  rw [himg, Option.map_some, Option.some.injEq] at hfree
  simp only [Bool.and_eq_true, Bool.not_eq_eq_eq_not, Bool.not_true, decide_eq_false_iff_not] at hP
  refine ⟨img, himg, by simp [initFs, hfree], s, hs, by decide, hP.1, hP.2⟩

set_option maxRecDepth 20000 in
/-- On the image of `fullRootFiles`, after `open("/z")` of a name the root
lacks, the root's `itable` entry, referenced and valid, has block 47 as its
second block while the root's dinode has none.  And on the image with no input
files, after creating and closing "/a" and "/b" and linking "/b" as "/c", an
entry with no reference still holds the valid copy of "/b" from before the
link, one link short of its dinode. -/
theorem lookup_in_root_outdates_dinode :
    (∃ img, mkfs fullRootFiles = some img ∧
      ∃ s : FsState (Fin 1), Reachable (fsSystem 0 img) s ∧
        (s.itable 0).inum = rootIno ∧ 0 < (s.itable 0).ref ∧ (s.itable 0).valid = true ∧
        (s.itable 0).d.addrs 1 = 47 ∧ (s.dinode rootIno).addrs 1 = 0) ∧
    (∃ img, mkfs [] = some img ∧ ∃ s : FsState (Fin 1), Reachable (fsSystem 0 img) s ∧
        (s.itable 2).inum = 3 ∧ (s.itable 2).ref = 0 ∧ (s.itable 2).valid = true ∧
        (s.itable 2).d.nlink = 1 ∧ (s.dinode 3).nlink = 2) := by
  constructor
  · have hrun : (mkfs fullRootFiles).map (fun img =>
        (run (fsSystem (0 : Fin 1) img) (initFs img) [.sysOpen 0 ['/', 'z'] 0]).get?.map fun s =>
          (s.itable 0).inum == rootIno && decide (0 < (s.itable 0).ref) && (s.itable 0).valid &&
            (s.itable 0).d.addrs 1 == 47 && (s.dinode rootIno).addrs 1 == 0) = some (some true) := by
      decide +kernel
    obtain ⟨img, himg, s, hs, hP⟩ := exists_reachable_of_run hrun
    simp only [Bool.and_eq_true, beq_iff_eq, decide_eq_true_eq] at hP
    obtain ⟨⟨⟨⟨hi, hr⟩, hv⟩, ha⟩, hd⟩ := hP
    exact ⟨img, himg, s, hs, hi, hr, hv, ha, hd⟩
  · have hrun : (mkfs []).map (fun img => (run (fsSystem (0 : Fin 1) img) (initFs img)
        [.sysOpen 0 ['/', 'a'] (oCreate ||| 2), .sysOpen 0 ['/', 'b'] (oCreate ||| 2), .sysClose 0 0,
          .sysClose 0 1, .sysLink 0 ['/', 'b'] ['/', 'c']]).get?.map fun s =>
        (s.itable 2).inum == 3 && (s.itable 2).ref == 0 && (s.itable 2).valid &&
          (s.itable 2).d.nlink == 1 && (s.dinode 3).nlink == 2) = some (some true) := by
      decide +kernel
    obtain ⟨img, himg, s, hs, hP⟩ := exists_reachable_of_run hrun
    simp only [Bool.and_eq_true, beq_iff_eq] at hP
    obtain ⟨⟨⟨⟨hi, hr⟩, hv⟩, hn⟩, hd⟩ := hP
    exact ⟨img, himg, s, hs, hi, hr, hv, hn, hd⟩

end Xv6.Fs
