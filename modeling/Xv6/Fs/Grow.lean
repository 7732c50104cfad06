import Xv6.Fs.DirMap

/-
  Xv6/Fs/Grow.lean --- what writing one entry at the end of a directory does
  to the rest of the disk.

  mkfs leaves the blocks below its `freeblock` in use and the rest free, and
  `balloc` takes the lowest free block, so as long as nothing is freed the
  blocks in use are the ones below some bound (`UsedBelow`).  On such a disk
  `bmap` of a block a directory lacks takes the bound, and the bound after it
  when the indirect block is missing too (`bmap_usedBelow`); it changes the
  addresses of the directory, the blocks it takes, and its indirect block, and
  nothing else (`BmapFrame`).

  `writei` of an entry at the end of a directory then changes, besides that,
  one entry of one of the directory's blocks, its size and its dinode
  (`WriteFrame`), so the blocks of every other directory, the rest of the
  inode table and the open files are as they were.  `DirLayout.frame` carries
  a directory through any change that keeps its inode and its blocks
  (`dirBlocks`).
-/

set_option autoImplicit false

namespace Xv6.Fs

open Machine

variable {π : Type}

/-! ## Disks used below a bound -/

/-- The blocks below `lo` are in use and those from `lo` to FSSIZE are free. -/
def UsedBelow (s : FsState π) (lo : Nat) : Prop :=
  ∀ b, b < fsSize → s.bitmap b = decide (b < lo)

instance (s : FsState π) (lo : Nat) : Decidable (UsedBelow s lo) :=
  inferInstanceAs (Decidable (∀ b, b < fsSize → _))

section UsedBelow

variable {s : FsState π} {lo : Nat}

theorem UsedBelow.of_bitmap {s' : FsState π} (h : UsedBelow s lo) (hb : s'.bitmap = s.bitmap) :
    UsedBelow s' lo := by
  intro b hb'
  rw [hb]
  exact h b hb'

/-- `balloc` takes the lowest free block. -/
theorem balloc_of_usedBelow (h : UsedBelow s lo) (hlo : lo < fsSize) : balloc s = (ballocAt s lo, lo) := by
  have hfind : (List.range fsSize).find? (fun b => !s.bitmap b) = some lo := by
    rw [List.find?_range_eq_some]
    refine ⟨by simp [h lo hlo], List.mem_range.2 hlo, fun j hj => ?_⟩
    simp [h j (by omega), hj]
  unfold balloc
  rw [hfind]
  rfl

theorem UsedBelow.ballocAt (h : UsedBelow s lo) : UsedBelow (ballocAt s lo) (lo + 1) := by
  intro b hb
  by_cases hbl : b = lo
  · subst hbl
    simp
  · simp only [ballocAt_bitmap, Function.update_of_ne hbl, h b hb]
    congr 1
    exact propext (by omega)

theorem UsedBelow.bitmap_lo (h : UsedBelow s lo) (hlo : lo < fsSize) : s.bitmap lo = false := by
  simp [h lo hlo]

end UsedBelow

/-! ## What `bmap` changes -/

/-- Entry `k` of the indirect block `ind` set to `a`, as `bmapIndirect` does. -/
def setIndEntry (s : FsState π) (ind k a : Nat) : FsState π :=
  { s with blk := Function.update s.blk ind { (s.blk ind) with addr := Function.update (s.blk ind).addr k a } }

/-- `s'` is `s` with, at most, other addresses in `dp`, other bits in the
bitmap, and other contents in blocks that were free or in the indirect block
of `dp`. -/
structure BmapFrame (s s' : FsState π) (dp : Fin nInode) : Prop where
  itable_ne : ∀ j, j ≠ dp → s'.itable j = s.itable j
  itable_self : s'.itable dp = { s.itable dp with d := { (s.itable dp).d with addrs := (s'.itable dp).d.addrs } }
  dinode : s'.dinode = s.dinode
  ftable : s'.ftable = s.ftable
  ofile : s'.ofile = s.ofile
  cwd : s'.cwd = s.cwd
  blk : ∀ b, s.bitmap b = true → ((s.itable dp).d.addrs nDirect = 0 ∨ b ≠ (s.itable dp).d.addrs nDirect) →
    s'.blk b = s.blk b
  /-- the indirect block stays, or is new and was free -/
  ind : (s'.itable dp).d.addrs nDirect = (s.itable dp).d.addrs nDirect ∨
    ((s.itable dp).d.addrs nDirect = 0 ∧ s.bitmap ((s'.itable dp).d.addrs nDirect) = false)

section Bmap

variable {s : FsState π} {dp : Fin nInode} {lo bn : Nat}

theorem BmapFrame.refl (s : FsState π) (dp : Fin nInode) : BmapFrame s s dp :=
  ⟨fun _ _ => rfl, by simp, rfl, rfl, rfl, rfl, fun _ _ _ => rfl, .inl rfl⟩

theorem ne_of_bitmap {b b' : Nat} (hb : s.bitmap b = true) (hb' : s.bitmap b' = false) : b ≠ b' := by
  rintro rfl
  simp [hb] at hb'

/-- A block of `dp` before `NDIRECT`, taken from a disk used below `lo`. -/
theorem bmap_direct_usedBelow (h : UsedBelow s lo) (hlo : lo < fsSize) (h0 : 0 < lo) (hbn : bn < nDirect)
    (hz : (s.itable dp).d.addrs bn = 0) :
    bmap s dp bn = .ok ((ballocAt s lo).setAddr dp bn lo, lo) := by
  unfold bmap allocAddr
  rw [if_pos hbn, if_pos hz, balloc_of_usedBelow h hlo]
  simp [Nat.pos_iff_ne_zero.1 h0]

/-- A block of `dp` past `NDIRECT` when `dp` has no indirect block: the
indirect block is `lo`, the block `lo + 1`. -/
theorem bmap_indirect_new_usedBelow (h : UsedBelow s lo) (hlo : lo + 1 < fsSize) (h0 : 0 < lo)
    (hbn : nDirect ≤ bn) (hbn' : bn < maxFile) (hz : (s.itable dp).d.addrs nDirect = 0) :
    bmap s dp bn = .ok (setIndEntry (ballocAt ((ballocAt s lo).setAddr dp nDirect lo) (lo + 1)) lo
      (bn - nDirect) (lo + 1), lo + 1) := by
  have h₁ : UsedBelow ((ballocAt s lo).setAddr dp nDirect lo) (lo + 1) :=
    h.ballocAt.of_bitmap rfl
  have hzero : (((ballocAt s lo).setAddr dp nDirect lo).blk lo).addr (bn - nDirect) = 0 := by
    simp [FsState.setAddr, Blk.zero]
  unfold bmap bmapIndirect allocAddr
  rw [if_neg (by omega), if_pos (by unfold maxFile at hbn'; omega), if_pos hz, balloc_of_usedBelow h (by omega)]
  simp only [Nat.pos_iff_ne_zero.1 h0, if_false]
  rw [if_pos hzero, balloc_of_usedBelow h₁ hlo]
  simp only [Nat.add_one_ne_zero, if_false]
  rfl

/-- A block of `dp` past `NDIRECT` missing from its indirect block `ind`. -/
theorem bmap_indirect_usedBelow (h : UsedBelow s lo) (hlo : lo < fsSize) (h0 : 0 < lo)
    (hbn : nDirect ≤ bn) (hbn' : bn < maxFile) {ind : Nat} (hi : (s.itable dp).d.addrs nDirect = ind)
    (hind : ind ≠ 0) (hz : (s.blk ind).addr (bn - nDirect) = 0) :
    bmap s dp bn = .ok (setIndEntry (ballocAt s lo) ind (bn - nDirect) lo, lo) := by
  unfold bmap bmapIndirect allocAddr
  rw [if_neg (by omega), if_pos (by unfold maxFile at hbn'; omega), if_neg (by rw [hi]; exact hind)]
  simp only [hi, hind, if_false, hz, if_true, balloc_of_usedBelow h hlo, Nat.pos_iff_ne_zero.1 h0]
  rfl

theorem bmapFrame_direct (hfree : s.bitmap lo = false) (hbn : bn < nDirect) :
    BmapFrame s ((ballocAt s lo).setAddr dp bn lo) dp where
  itable_ne j hj := by simp [FsState.setAddr, hj]
  itable_self := by simp [FsState.setAddr]
  dinode := rfl
  ftable := rfl
  ofile := rfl
  cwd := rfl
  blk b hb _ := by simp [FsState.setAddr, Function.update_of_ne (ne_of_bitmap hb hfree)]
  ind := .inl (by simp [FsState.setAddr, Function.update_of_ne (show nDirect ≠ bn by omega)])

theorem bmapFrame_indirect_new (hfree : s.bitmap lo = false) (hfree' : s.bitmap (lo + 1) = false)
    (hz : (s.itable dp).d.addrs nDirect = 0) (k a : Nat) :
    BmapFrame s (setIndEntry (ballocAt ((ballocAt s lo).setAddr dp nDirect lo) (lo + 1)) lo k a) dp where
  itable_ne j hj := by simp [setIndEntry, FsState.setAddr, hj]
  itable_self := by simp [setIndEntry, FsState.setAddr]
  dinode := rfl
  ftable := rfl
  ofile := rfl
  cwd := rfl
  blk b hb _ := by
    simp [setIndEntry, FsState.setAddr, Function.update_of_ne (ne_of_bitmap hb hfree),
      Function.update_of_ne (ne_of_bitmap hb hfree')]
  ind := .inr ⟨hz, by simpa [setIndEntry, FsState.setAddr] using hfree⟩

theorem bmapFrame_indirect (hfree : s.bitmap lo = false) {ind : Nat}
    (hi : (s.itable dp).d.addrs nDirect = ind) (hind : ind ≠ 0) (k a : Nat) :
    BmapFrame s (setIndEntry (ballocAt s lo) ind k a) dp where
  itable_ne _ _ := rfl
  itable_self := by simp [setIndEntry]
  dinode := rfl
  ftable := rfl
  ofile := rfl
  cwd := rfl
  blk b hb hne := by
    have hbi : b ≠ ind := by
      rcases hne with hz | hne
      · exact absurd (hi.symm.trans hz) hind
      · rwa [← hi]
    simp [setIndEntry, Function.update_of_ne hbi, Function.update_of_ne (ne_of_bitmap hb hfree)]
  ind := .inl rfl

/-- On a disk used below `lo` with room for two more blocks, `bmap` of a block
number `dp` has no block for takes one block, or two when the indirect block
is missing too, from `lo` on; it returns the last, and the disk is then used
below the next free one. -/
theorem bmap_usedBelow (h : UsedBelow s lo) (h0 : 0 < lo) (hroom : lo + 2 ≤ fsSize)
    (hbn : bn < maxFile) (hz : blockOf s (s.itable dp).d bn = 0) :
    ∃ s' addr lo', bmap s dp bn = .ok (s', addr) ∧ addr ≠ 0 ∧ lo < lo' ∧ lo' ≤ lo + 2 ∧
      UsedBelow s' lo' ∧ BmapFrame s s' dp := by
  have hfree := h.bitmap_lo (by omega)
  by_cases hd : bn < nDirect
  · -- a direct block
    have haddr : (s.itable dp).d.addrs bn = 0 := by simpa [blockOf, hd] using hz
    exact ⟨_, lo, lo + 1, bmap_direct_usedBelow h (by omega) h0 hd haddr, by omega, by omega, by omega,
      h.ballocAt.of_bitmap (by simp [FsState.setAddr]), bmapFrame_direct hfree hd⟩
  · by_cases hi : (s.itable dp).d.addrs nDirect = 0
    · -- the indirect block first, then the block
      have hfree' := (h.ballocAt.of_bitmap rfl).bitmap_lo (s := ballocAt s lo) (by omega)
      have hfree'' : s.bitmap (lo + 1) = false := by
        simpa [Function.update_of_ne (show lo + 1 ≠ lo by omega)] using hfree'
      refine ⟨_, lo + 1, lo + 2, bmap_indirect_new_usedBelow h (by omega) h0 (by omega) hbn hi, by omega,
        by omega, le_rfl, ?_, bmapFrame_indirect_new hfree hfree'' hi _ _⟩
      have hind : UsedBelow ((ballocAt s lo).setAddr dp nDirect lo) (lo + 1) := h.ballocAt.of_bitmap rfl
      exact hind.ballocAt.of_bitmap rfl
    · have hentry : (s.blk ((s.itable dp).d.addrs nDirect)).addr (bn - nDirect) = 0 := by
        simpa [blockOf, hd, hi] using hz
      exact ⟨_, lo, lo + 1, bmap_indirect_usedBelow h (by omega) h0 (by omega) hbn rfl hi hentry, by omega,
        by omega, by omega, h.ballocAt.of_bitmap rfl, bmapFrame_indirect hfree rfl hi _ _⟩

end Bmap

/-! ## Writing an entry at the end of a directory -/

/-- The blocks of `dp` below its size, and its indirect block. -/
def dirBlocks (s : FsState π) (dp : Fin nInode) (b : Nat) : Prop :=
  (∃ bn, bn * bSize < (s.itable dp).d.size ∧ blockOf s (s.itable dp).d bn = b) ∨
    ((s.itable dp).d.addrs nDirect ≠ 0 ∧ b = (s.itable dp).d.addrs nDirect)

/-- `s'` is `s` with, at most, other data in the inode `dp` but the same
identity, references and link count, its dinode written, more blocks in use,
and other contents in blocks that were free or are blocks of `dp`; the blocks
of `dp` afterwards were blocks of it or free. -/
structure WriteFrame (s s' : FsState π) (dp : Fin nInode) : Prop where
  itable_ne : ∀ j, j ≠ dp → s'.itable j = s.itable j
  ref : (s'.itable dp).ref = (s.itable dp).ref
  valid : (s'.itable dp).valid = (s.itable dp).valid
  dev : (s'.itable dp).dev = (s.itable dp).dev
  inum : (s'.itable dp).inum = (s.itable dp).inum
  nlink : (s'.itable dp).d.nlink = (s.itable dp).d.nlink
  dinode : ∀ n, n ≠ (s.itable dp).inum → s'.dinode n = s.dinode n
  ftable : s'.ftable = s.ftable
  ofile : s'.ofile = s.ofile
  cwd : s'.cwd = s.cwd
  blk : ∀ b, s.bitmap b = true → ¬ dirBlocks s dp b → s'.blk b = s.blk b
  bitmap : ∀ b, s.bitmap b = true → s'.bitmap b = true
  grows : ∀ b, dirBlocks s' dp b → dirBlocks s dp b ∨ s.bitmap b = false

section Append

variable {s : FsState π} {dp : Fin nInode} {lo : Nat}

theorem DirLayout.dirBlocks_marked (h : DirLayout s dp) {b : Nat} (hb : dirBlocks s dp b) :
    s.bitmap b = true := by
  rcases hb with ⟨bn, hlt, rfl⟩ | ⟨hne, rfl⟩
  · exact (h.mapped bn hlt).2
  · exact h.ind hne

/-- `bmap` of the block of an entry at the end of a directory, on a disk used
below `lo`: the block the directory has, or a block taken as `bmap_usedBelow`
says. -/
theorem DirLayout.bmap_append (h : DirLayout s dp) (hu : UsedBelow s lo) (h0 : 0 < lo)
    (hroom : lo + 2 ≤ fsSize) (hmax : (s.itable dp).d.size + direntSize ≤ maxFile * bSize) :
    ∃ s₁ addr lo', bmap s dp ((s.itable dp).d.size / bSize) = .ok (s₁, addr) ∧ addr ≠ 0 ∧
      lo ≤ lo' ∧ lo' ≤ lo + 2 ∧ ((s.itable dp).d.size % bSize ≠ 0 → lo' = lo) ∧ UsedBelow s₁ lo' ∧
      BmapFrame s s₁ dp ∧ (dirBlocks s dp addr ∨ s.bitmap addr = false) := by
  have hbn : (s.itable dp).d.size / bSize < maxFile := by
    unfold maxFile nDirect nIndirect bSize direntSize dirSiz at *
    omega
  by_cases hm : (s.itable dp).d.size / bSize * bSize < (s.itable dp).d.size
  · -- the last block has room: `bmap` finds it
    have hne := (h.mapped _ hm).1
    exact ⟨s, _, lo, bmap_of_blockOf_ne_zero hbn hne, hne, le_rfl, by omega, fun _ => rfl, hu,
      .refl s dp, .inl (.inl ⟨_, hm, rfl⟩)⟩
  · -- the entry starts a new block
    have hmod : (s.itable dp).d.size % bSize = 0 := by
      have h₁ := Nat.div_add_mod (s.itable dp).d.size bSize
      have h₂ := Nat.div_mul_le_self (s.itable dp).d.size bSize
      rw [Nat.mul_comm] at h₁
      omega
    have hz := h.unmapped _ hbn (Nat.le_of_not_lt hm)
    obtain ⟨s₁, addr, lo', hb, hne, hlt, hle, hu', hf⟩ := bmap_usedBelow hu h0 hroom hbn hz
    exact ⟨s₁, addr, lo', hb, hne, Nat.le_of_lt hlt, hle, fun h' => absurd hmod h', hu', hf,
      .inr ((bmap_alloc h.boot h.ind hz hb).2.1 hne).2.1⟩

/-- Entry `k` of block `a` set to `de`, as `writei` of an entry does. -/
def setDirent (s : FsState π) (a k : Nat) (de : Dirent) : FsState π :=
  { s with blk := Function.update s.blk a { (s.blk a) with dirent := Function.update (s.blk a).dirent k de } }

@[simp] theorem setDirent_itable (s : FsState π) (a k : Nat) (de : Dirent) :
    (setDirent s a k de).itable = s.itable := rfl

@[simp] theorem setDirent_bitmap (s : FsState π) (a k : Nat) (de : Dirent) :
    (setDirent s a k de).bitmap = s.bitmap := rfl

@[simp] theorem setDirent_dinode (s : FsState π) (a k : Nat) (de : Dirent) :
    (setDirent s a k de).dinode = s.dinode := rfl

@[simp] theorem setDirent_ftable (s : FsState π) (a k : Nat) (de : Dirent) :
    (setDirent s a k de).ftable = s.ftable := rfl

@[simp] theorem setDirent_ofile (s : FsState π) (a k : Nat) (de : Dirent) :
    (setDirent s a k de).ofile = s.ofile := rfl

@[simp] theorem setDirent_cwd (s : FsState π) (a k : Nat) (de : Dirent) :
    (setDirent s a k de).cwd = s.cwd := rfl

theorem setDirent_blk_of_ne (s : FsState π) {a b : Nat} (k : Nat) (de : Dirent) (h : b ≠ a) :
    (setDirent s a k de).blk b = s.blk b := by
  simp [setDirent, Function.update_of_ne h]

/-- Writing an entry changes no block number of any inode. -/
theorem blockOf_setDirent' (s : FsState π) (a k : Nat) (de : Dirent) (d : DInode) :
    blockOf (setDirent s a k de) d = blockOf s d :=
  blockOf_setDirent a _ d

/-- `writei` of an entry at the end of a directory, on a disk used below `lo`
with room for two more blocks: it writes the whole entry, the disk is then used
below a bound at most two blocks on (the same bound when the last block had
room for the entry), and nothing but the directory has changed. -/
theorem DirLayout.writei_append (h : DirLayout s dp) (hu : UsedBelow s lo) (h0 : 0 < lo)
    (hroom : lo + 2 ≤ fsSize) (hmax : (s.itable dp).d.size + direntSize ≤ maxFile * bSize) (de : Dirent) :
    ∃ s' lo', Fs.writei s dp de (s.itable dp).d.size = .ok (s', direntSize) ∧ lo ≤ lo' ∧ lo' ≤ lo + 2 ∧
      ((s.itable dp).d.size % bSize ≠ 0 → lo' = lo) ∧ UsedBelow s' lo' ∧ WriteFrame s s' dp := by
  obtain ⟨s₁, addr, lo', hb, hne, hle, hle', hsame, hu₁, hf, haddr⟩ := h.bmap_append hu h0 hroom hmax
  have hsize₁ : (s₁.itable dp).d.size = (s.itable dp).d.size := by rw [hf.itable_self]
  have hw : Fs.writei s dp de (s.itable dp).d.size = .ok (iupdate ((setDirent s₁ addr
      ((s.itable dp).d.size % bSize / direntSize) de).updI dp
      fun e => { e with d := { e.d with size := (s.itable dp).d.size + direntSize } }) dp, direntSize) := by
    unfold Fs.writei
    rw [if_neg (by omega), if_neg (by omega), hb]
    simp [hne, hsize₁, setDirent, show 0 < direntSize by decide]
  obtain ⟨hg, hold, -, hnew⟩ := h.bmap_entry (Nat.le_refl _) hmax hb
  refine ⟨_, lo', hw, hle, hle', hsame, hu₁.of_bitmap rfl, ?_⟩
  set X := setDirent s₁ addr ((s.itable dp).d.size % bSize / direntSize) de with hX
  set Y := X.updI dp fun e => { e with d := { e.d with size := (s.itable dp).d.size + direntSize } } with hY
  have hself := hf.itable_self
  have hYdp : Y.itable dp =
      { s₁.itable dp with d := { (s₁.itable dp).d with size := (s.itable dp).d.size + direntSize } } := by
    rw [hY, FsState.updI_itable_self]
    rfl
  -- the block numbers afterwards are those `bmap` left
  have hblockOf : blockOf (iupdate Y dp) ((iupdate Y dp).itable dp).d = blockOf s₁ (s₁.itable dp).d := by
    rw [← blockOf_setDirent' s₁ addr ((s.itable dp).d.size % bSize / direntSize) de]
    exact blockOf_congr rfl (by rw [iupdate_itable, hYdp])
  -- a block in use that is not one of `dp` is not the block written
  have hnot : ∀ b, s.bitmap b = true → ¬ dirBlocks s dp b → b ≠ addr := by
    rintro b hmark hnd rfl
    rcases haddr with ha | ha
    · exact hnd ha
    · exact ne_of_bitmap hmark ha rfl
  have hal := h.aligned
  refine ⟨fun j hj => ?_, ?_, ?_, ?_, ?_, ?_, fun n hn => ?_, hf.ftable, hf.ofile, hf.cwd,
    fun b hb hnd => ?_, fun b hb => hg.bitmap b hb, fun b hb => ?_⟩
  · rw [iupdate_itable, hY, FsState.updI_itable_of_ne _ _ hj, setDirent_itable, hf.itable_ne j hj]
  · rw [iupdate_itable, hYdp, hself]
  · rw [iupdate_itable, hYdp, hself]
  · rw [iupdate_itable, hYdp, hself]
  · rw [iupdate_itable, hYdp, hself]
  · rw [iupdate_itable, hYdp, hself]
  · have hinum : (Y.itable dp).inum = (s.itable dp).inum := by rw [hYdp, hself]
    rw [iupdate_dinode, hinum, Function.update_of_ne hn, hY, FsState.updI_dinode, setDirent_dinode, hf.dinode]
  · rw [iupdate_blk, hY, FsState.updI_blk, setDirent_blk_of_ne _ _ _ (hnot b hb hnd)]
    refine hf.blk b hb ?_
    by_cases hi : (s.itable dp).d.addrs nDirect = 0
    · exact .inl hi
    · exact .inr fun heq => hnd (.inr ⟨hi, heq⟩)
  · rcases hb with ⟨bn, hlt, rfl⟩ | ⟨hne', rfl⟩
    · -- a block below the old size, or the block of the entry
      rw [hblockOf]
      have hsize' : ((iupdate Y dp).itable dp).d.size = (s.itable dp).d.size + direntSize := by
        rw [iupdate_itable, hYdp]
      rw [hsize'] at hlt
      by_cases hold' : bn * bSize < (s.itable dp).d.size
      · rw [hold bn hold']
        exact .inl (.inl ⟨bn, hold', rfl⟩)
      · have hbn : bn = (s.itable dp).d.size / bSize := by
          unfold direntSize dirSiz bSize at *
          omega
        rw [hbn, (hnew hne).1]
        exact haddr
    · -- the indirect block, old or new
      have haddrs : ((iupdate Y dp).itable dp).d.addrs = (s₁.itable dp).d.addrs := by
        rw [iupdate_itable, hYdp]
      rw [haddrs] at hne' ⊢
      rcases hf.ind with heq | ⟨-, hfree⟩
      · rw [heq] at hne' ⊢
        exact .inl (.inr ⟨hne', rfl⟩)
      · exact .inr hfree

/-- `dirlink` of a name a directory lacks, when every entry is in use, on a disk
used below `lo` with room for two more blocks: the entry goes at the end and
`dirlink` returns 0, with what `DirLayout.dirlink_absent` and `writei_append`
say of it. -/
theorem DirLayout.dirlink_append (h : DirLayout s dp) (hdistinct : NamesDistinct s dp) {name : Name}
    (habsent : ∀ off ∈ dirOffsets s dp, matchesAt s dp name off = false)
    (hlive : ∀ off ∈ dirOffsets s dp, (entryAt s dp off).inum ≠ 0) {inum : Nat} (hpos : 0 < inum)
    (hlt : inum < 2 ^ 16) (hu : UsedBelow s lo) (h0 : 0 < lo) (hroom : lo + 2 ≤ fsSize)
    (hmax : (s.itable dp).d.size + direntSize ≤ maxFile * bSize) :
    ∃ s' lo', dirlink s dp name inum = .ok (s', 0) ∧ lo ≤ lo' ∧ lo' ≤ lo + 2 ∧
      ((s.itable dp).d.size % bSize ≠ 0 → lo' = lo) ∧ UsedBelow s' lo' ∧ WriteFrame s s' dp ∧
      (s'.itable dp).d.size = (s.itable dp).d.size + direntSize ∧
      entryAt s' dp (s.itable dp).d.size = ⟨inum, name.take dirSiz⟩ ∧
      (∀ o ∈ dirOffsets s dp, entryAt s' dp o = entryAt s dp o) ∧
      (∀ n, dirMap s' dp n = if namecmp n name then some inum else dirMap s dp n) ∧
      DirLayout s' dp ∧ NamesDistinct s' dp := by
  -- no free entry: the new one goes at the end
  have hfree : freeOff s dp = (s.itable dp).d.size := by
    unfold freeOff
    rw [List.find?_eq_none.2 fun o ho => by simp [hlive o ho]]
    rfl
  obtain ⟨s', lo', hw, hle, hle', hsame, hu', hf⟩ := h.writei_append hu h0 hroom hmax ⟨inum, name.take dirSiz⟩
  rw [← hfree] at hw
  have hlink := h.dirlink_of_writei habsent hlt hw
  obtain ⟨s'', r, hlink', hr⟩ := h.dirlink_absent hdistinct habsent hpos hlt
  rw [hlink] at hlink'
  obtain ⟨rfl, rfl⟩ : s' = s'' ∧ (0 : Int) = r := by
    simpa using hlink'
  rcases hr with ⟨hr, -⟩ | ⟨-, hsize, hnew, hother, hmap, h', hd', -⟩
  · cases hr
  · refine ⟨s', lo', by simpa using hlink, hle, hle', hsame, hu', hf, ?_, ?_, fun o ho => ?_, hmap, h', hd'⟩
    · rw [hsize, hfree, max_eq_right (by omega)]
    · rw [← hfree]
      exact hnew
    · have hlt' := (mem_direntOffsets.1 ho).2
      exact hother o ho (by rw [hfree]; omega)

end Append

/-! ## Other directories -/

section Frame

variable {s s' : FsState π} {d : Fin nInode}

/-- A change that keeps the inode `d` and the blocks of `d` keeps its block
numbers. -/
theorem blockOf_frame (hd : (s'.itable d).d = (s.itable d).d)
    (hblk : ∀ b, dirBlocks s d b → s'.blk b = s.blk b) :
    blockOf s' (s'.itable d).d = blockOf s (s.itable d).d := by
  funext bn
  rw [hd]
  unfold blockOf
  split
  · rfl
  · split
    · rfl
    · next hi => rw [hblk _ (.inr ⟨hi, rfl⟩)]

theorem dirBlocks_frame (hd : (s'.itable d).d = (s.itable d).d)
    (hblk : ∀ b, dirBlocks s d b → s'.blk b = s.blk b) : dirBlocks s' d = dirBlocks s d := by
  funext b
  unfold dirBlocks
  rw [blockOf_frame hd hblk, hd]

theorem dirOffsets_frame (hd : (s'.itable d).d = (s.itable d).d) : dirOffsets s' d = dirOffsets s d := by
  unfold dirOffsets
  rw [hd]

theorem entryAt_frame (hd : (s'.itable d).d = (s.itable d).d)
    (hblk : ∀ b, dirBlocks s d b → s'.blk b = s.blk b) {o : Nat} (ho : o ∈ dirOffsets s d) :
    entryAt s' d o = entryAt s d o := by
  have hlt : o / bSize * bSize < (s.itable d).d.size := by
    have := (mem_direntOffsets.1 ho).2
    have := Nat.div_mul_le_self o bSize
    omega
  unfold entryAt
  rw [blockOf_frame hd hblk, hblk _ (.inl ⟨o / bSize, hlt, rfl⟩)]

theorem matchesAt_frame (hd : (s'.itable d).d = (s.itable d).d)
    (hblk : ∀ b, dirBlocks s d b → s'.blk b = s.blk b) (n : Name) {o : Nat} (ho : o ∈ dirOffsets s d) :
    matchesAt s' d n o = matchesAt s d n o := by
  unfold matchesAt
  rw [entryAt_frame hd hblk ho]

theorem dirMap_frame (hd : (s'.itable d).d = (s.itable d).d)
    (hblk : ∀ b, dirBlocks s d b → s'.blk b = s.blk b) : dirMap s' d = dirMap s d := by
  funext n
  unfold dirMap
  rw [dirOffsets_frame hd, Scan.find?_congr fun o ho => matchesAt_frame hd hblk n ho]
  cases hf : (dirOffsets s d).find? (matchesAt s d n) with
  | none => rfl
  | some o => simp [entryAt_frame hd hblk (List.mem_of_find?_eq_some hf)]

theorem NamesDistinct.frame (h : NamesDistinct s d) (hd : (s'.itable d).d = (s.itable d).d)
    (hblk : ∀ b, dirBlocks s d b → s'.blk b = s.blk b) : NamesDistinct s' d := by
  intro o ho o' ho' hlive hm
  rw [dirOffsets_frame hd] at ho ho'
  rw [entryAt_frame hd hblk ho] at hlive hm
  rw [matchesAt_frame hd hblk _ ho'] at hm
  exact h o ho o' ho' hlive hm

/-- A directory keeps its layout through a change that keeps its inode, its
blocks, and the marks of the blocks in use. -/
theorem DirLayout.frame (h : DirLayout s d) (hd : (s'.itable d).d = (s.itable d).d)
    (hblk : ∀ b, dirBlocks s d b → s'.blk b = s.blk b) (hbit : ∀ b, s.bitmap b = true → s'.bitmap b = true) :
    DirLayout s' d := by
  have hb := blockOf_frame hd hblk
  refine ⟨?_, ?_, ?_, fun bn hlt => ?_, fun bn hbn hle => ?_, fun bn bn' hlt hlt' heq => ?_, fun hi => ?_,
    hbit 0 h.boot⟩
  · rw [hd]
    exact h.dir
  · rw [hd]
    exact h.aligned
  · rw [hd]
    exact h.le_max
  · rw [hd] at hlt
    rw [hb]
    obtain ⟨hne, hmark⟩ := h.mapped bn hlt
    exact ⟨hne, hbit _ hmark⟩
  · rw [hd] at hle
    rw [hb]
    exact h.unmapped bn hbn hle
  · rw [hd] at hlt hlt'
    rw [hb] at heq
    exact h.inj bn bn' hlt hlt' heq
  · rw [hd] at hi ⊢
    exact hbit _ (h.ind hi)

end Frame

end Xv6.Fs
