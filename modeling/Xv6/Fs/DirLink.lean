import Xv6.Fs.DirMap

/-
  Xv6/Fs/DirLink.lean --- `dirlink` as an update of the directory map.

  On a directory whose blocks are laid out as on a consistent disk and whose
  entries in use have distinct names, `dirlink(dp, name, inum)` for a name the
  directory has panics in `iget` or returns -1 with the directory untouched;
  for a new name it writes the entry at the first free offset, or the end, and
  the directory becomes the map that sends `name` to `inum`, unless the entry
  needs a block that cannot be had, when it returns -1 having written nothing
  (`dirlink_extends_dir_map`).

  Two directories on a disk with no free block show where `dirlink` is not the
  map update: one whose block is full, where `dirlink` of a new name returns
  -1; and one with room, where `dirlink` of inode 65536 returns 0 and writes
  an entry with `inum` 0, which `dirlookup` skips as free
  (`dirlink_fails_on_full_disk_or_wide_inum`).
-/

set_option autoImplicit false

namespace Xv6.Fs

open Machine

variable {π : Type}

/-- A directory on a consistent disk, whose entries in use have distinct names,
with an inode number that is not 0 and fits the `ushort` of `struct dirent`.
For a name the directory has, `dirlink` panics in the `iget` of its lookup or
returns -1 and leaves the directory's inode and the disk as they were.  For a
new name it returns -1 having written nothing, only when the entry would start
a new block (the disk is full, or the directory has MAXFILE blocks); or it
returns 0, the entry is at the first free offset or the end, every other entry
is as it was, the directory is the map with `name` sent to `inum`, its layout
and its distinct names are kept, and `dirlookup` finds `name` at that offset
and returns the `iget` of `inum`. -/
theorem dirlink_extends_dir_map {s : FsState π} {dp : Fin nInode} (h : DirLayout s dp)
    (hdistinct : NamesDistinct s dp) (name : Name) {inum : Nat} (hpos : 0 < inum) (hlt : inum < 2 ^ 16) :
    ((∃ off ∈ dirOffsets s dp, matchesAt s dp name off = true) →
      dirlink s dp name inum = .panic "iget: no inodes" ∨
        ∃ s', dirlink s dp name inum = .ok (s', -1) ∧ (s'.itable dp).d = (s.itable dp).d ∧
          s'.blk = s.blk ∧ s'.bitmap = s.bitmap) ∧
    ((∀ off ∈ dirOffsets s dp, matchesAt s dp name off = false) →
      ∃ s' r, dirlink s dp name inum = .ok (s', r) ∧
        ((r = -1 ∧ freeOff s dp = (s.itable dp).d.size ∧ (s.itable dp).d.size % bSize = 0 ∧
            (maxFile * bSize < freeOff s dp + direntSize ∨ ∀ b < fsSize, s'.bitmap b = true) ∧
            (s'.itable dp).d.size = (s.itable dp).d.size ∧
            ∀ o ∈ dirOffsets s dp, entryAt s' dp o = entryAt s dp o) ∨
          (r = 0 ∧ (s'.itable dp).d.size = max (s.itable dp).d.size (freeOff s dp + direntSize) ∧
            entryAt s' dp (freeOff s dp) = ⟨inum, name.take dirSiz⟩ ∧
            (∀ o ∈ dirOffsets s dp, o ≠ freeOff s dp → entryAt s' dp o = entryAt s dp o) ∧
            (∀ n, dirMap s' dp n = if namecmp n name then some inum else dirMap s dp n) ∧
            DirLayout s' dp ∧ NamesDistinct s' dp ∧
            dirlookup s' dp name = (do
              let r ← iget s' (s'.itable dp).dev inum
              pure (r.1, some (r.2, freeOff s dp)))))) :=
  ⟨fun hpresent => h.dirlink_present hpresent inum,
    fun habsent => h.dirlink_absent hdistinct habsent hpos hlt⟩

/-! ## Two directories on a full disk -/

/-- Entry `k` of the block of `dirDisk`: ".", "..", then "e02" to "e63", entry
`k` naming inode `k + 1`. -/
def dirDiskEntry (k : Nat) : Dirent :=
  if k = 0 then ⟨1, ['.']⟩
  else if k = 1 then ⟨1, ['.', '.']⟩
  else ⟨k + 1, ['e', Char.ofNat (48 + k / 10), Char.ofNat (48 + k % 10)]⟩

/-- The root of `dirDisk`: a directory of `n` entries in block 100. -/
def dirDiskRoot (n : Nat) : DInode :=
  { type := .dir, major := 0, minor := 0, nlink := 1, size := n * direntSize,
    addrs := fun k => if k = 0 then 100 else 0 }

/-- A disk with no free block, and in entry 0 of the inode table the root. -/
def dirDisk (n : Nat) : FsState Unit :=
  { dinode := fun _ => DInode.zero
    bitmap := fun _ => true
    blk := fun b => if b = 100 then { Blk.zero with dirent := dirDiskEntry } else Blk.zero
    itable := fun i =>
      if i.val = 0 then
        { dev := rootDev, inum := rootIno, ref := 1, valid := true, d := dirDiskRoot n }
      else { dev := 0, inum := 0, ref := 0, valid := false, d := DInode.zero }
    ftable := fun _ => ⟨0, none⟩
    ofile := fun _ _ => none
    cwd := fun _ => some 0 }

/-- Its root has one block, allocated, and none past it. -/
theorem dirLayout_dirDisk {n : Nat} (hn : 0 < n) (hn' : n ≤ 64) : DirLayout (dirDisk n) 0 := by
  have hsize : ((dirDisk n).itable 0).d.size = n * direntSize := rfl
  have hblock : ∀ bn, blockOf (dirDisk n) ((dirDisk n).itable 0).d bn = if bn = 0 then 100 else 0 := by
    intro bn
    by_cases hbn : bn < nDirect
    · simp [blockOf, dirDisk, dirDiskRoot, hbn]
    · have hbn0 : bn ≠ 0 := by
        unfold nDirect at hbn
        omega
      simp [blockOf, dirDisk, dirDiskRoot, hbn, hbn0, show nDirect ≠ 0 by decide]
  refine ⟨rfl, by rw [hsize]; exact Nat.mul_mod_left _ _, ?_, fun bn hbn => ?_, fun bn _ hle => ?_,
    fun bn bn' hbn hbn' _ => ?_, fun hi => rfl, rfl⟩
  · rw [hsize]
    unfold direntSize dirSiz maxFile nDirect nIndirect bSize
    omega
  · have h0 : bn = 0 := by
      rw [hsize] at hbn
      unfold direntSize dirSiz bSize at hbn
      omega
    subst h0
    rw [hblock]
    exact ⟨by decide, rfl⟩
  · rw [hblock, if_neg]
    rw [hsize] at hle
    unfold direntSize dirSiz bSize at hle
    omega
  · rw [hsize] at hbn hbn'
    unfold direntSize dirSiz bSize at hbn hbn'
    omega

/-- The root of `dirDisk 2` holds "." and "..": its layout is sound, its names
distinct and "x" not among them, and `dirlink` of "x" either fails or sends
"x" to 65. -/
theorem dirlink_extends_dir_map_dirDisk :
    DirLayout (dirDisk 2) 0 ∧ NamesDistinct (dirDisk 2) 0 ∧ 0 < (65 : Nat) ∧ (65 : Nat) < 2 ^ 16 ∧
      (∀ off ∈ dirOffsets (dirDisk 2) 0, matchesAt (dirDisk 2) 0 ['x'] off = false) ∧
      ∃ s' r, dirlink (dirDisk 2) 0 ['x'] 65 = .ok (s', r) ∧
        (r = -1 ∨ (r = 0 ∧ dirMap s' 0 ['x'] = some 65)) := by
  have h := dirLayout_dirDisk (n := 2) (by decide) (by decide)
  have hd : NamesDistinct (dirDisk 2) 0 := by
    unfold NamesDistinct
    decide
  have habsent : ∀ off ∈ dirOffsets (dirDisk 2) 0, matchesAt (dirDisk 2) 0 ['x'] off = false := by
    decide
  obtain ⟨s', r, hlink, hr⟩ := (dirlink_extends_dir_map h hd ['x'] (show 0 < 65 by decide) (show 65 < 2 ^ 16 by decide)).2 habsent
  refine ⟨h, hd, by decide, by decide, habsent, s', r, hlink, ?_⟩
  rcases hr with ⟨hr, -⟩ | ⟨hr, -, -, -, hmap, -⟩
  · exact .inl hr
  · exact .inr ⟨hr, by rw [hmap, if_pos (namecmp_self _)]⟩

/-- In the root of `dirDisk 64`, whose one block is full, with entries in use
and distinct names, `dirlink` of the new name "x" needs a block, finds none
free, and returns -1 without writing: `dirlookup` of "x" then finds nothing.
In the root of `dirDisk 2`, `dirlink` of "x" to inode 65536 returns 0, but the
entry it writes holds `inum` 65536 mod 2^16 = 0, a free entry, so `dirlookup`
of "x" finds nothing either. -/
theorem dirlink_fails_on_full_disk_or_wide_inum :
    (NamesDistinct (dirDisk 64) 0 ∧
      (∀ off ∈ dirOffsets (dirDisk 64) 0, matchesAt (dirDisk 64) 0 ['x'] off = false) ∧
      ∃ s', dirlink (dirDisk 64) 0 ['x'] 65 = .ok (s', -1) ∧
        (dirlookup s' 0 ['x']).get?.map Prod.snd = some none) ∧
    (NamesDistinct (dirDisk 2) 0 ∧
      (∀ off ∈ dirOffsets (dirDisk 2) 0, matchesAt (dirDisk 2) 0 ['x'] off = false) ∧
      ∃ s', dirlink (dirDisk 2) 0 ['x'] (2 ^ 16) = .ok (s', 0) ∧
        (dirlookup s' 0 ['x']).get?.map Prod.snd = some none) := by
  have hfull : (dirlink (dirDisk 64) 0 ['x'] 65).get?.map (fun r =>
      decide (r.2 = -1) && (dirlookup r.1 0 ['x']).get?.map Prod.snd == some none) = some true := by
    decide +kernel
  have hwide : (dirlink (dirDisk 2) 0 ['x'] (2 ^ 16)).get?.map (fun r =>
      decide (r.2 = 0) && (dirlookup r.1 0 ['x']).get?.map Prod.snd == some none) = some true := by
    decide +kernel
  obtain ⟨⟨s₁, r₁⟩, hrun₁, hP₁⟩ := Option.map_eq_some_iff.1 hfull
  obtain ⟨⟨s₂, r₂⟩, hrun₂, hP₂⟩ := Option.map_eq_some_iff.1 hwide
  simp only [Bool.and_eq_true, decide_eq_true_eq, beq_iff_eq] at hP₁ hP₂
  rw [Result.get?_eq_some, hP₁.1] at hrun₁
  rw [Result.get?_eq_some, hP₂.1] at hrun₂
  refine ⟨⟨?_, ?_, s₁, hrun₁, hP₁.2⟩, ⟨?_, ?_, s₂, hrun₂, hP₂.2⟩⟩
  all_goals first
    | (unfold NamesDistinct; decide +kernel)
    | decide +kernel

end Xv6.Fs
