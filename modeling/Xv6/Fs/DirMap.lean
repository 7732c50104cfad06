import Xv6.Fs.Fsck
import Xv6.Lib.Scan

/-
  Xv6/Fs/DirMap.lean --- a directory as a map from names to inode numbers.

  The entries of a directory are read off its blocks without going through
  `bmap`: `blockOf` is the block `bmap` would find, and `entryAt` the entry at
  a byte offset.  As a map, the directory sends a name to the inode number of
  its first entry in use whose name `namecmp` takes as equal (`dirMap`); it is
  a map in the usual sense when no two entries in use have such names
  (`NamesDistinct`).

  `DirLayout` is what a directory's blocks look like on a consistent disk:
  every block below the size is allocated and marked in the bitmap, none past
  it is, no two of them coincide, and the indirect block is marked too.  On
  such a directory `readi` of an entry allocates nothing, so `dirlookup` is a
  scan of the entries (`DirLayout.dirlookup`), and `writei` of an entry at an
  offset up to the size either writes exactly that entry and keeps the layout,
  or writes nothing (`DirLayout.writei_short`, `DirLayout.writei_full`).  The
  second happens only when the entry starts a new block and `balloc` finds no
  free block, or the directory has reached MAXFILE blocks.
-/

set_option autoImplicit false

namespace Xv6.Fs

open Machine

variable {π : Type}

/-! ## Entries -/

/-- The entry at byte offset `off` of directory `dp`, as its block holds it. -/
def entryAt (s : FsState π) (dp : Fin nInode) (off : Nat) : Dirent :=
  (s.blk (blockOf s (s.itable dp).d (off / bSize))).dirent (off % bSize / direntSize)

/-- The offsets of the entries of `dp`. -/
def dirOffsets (s : FsState π) (dp : Fin nInode) : List Nat :=
  direntOffsets (s.itable dp).d.size

/-- The entry at `off` is in use and has the name `name` to `namecmp`: an
entry `dirlookup` stops at. -/
def matchesAt (s : FsState π) (dp : Fin nInode) (name : Name) (off : Nat) : Bool :=
  (entryAt s dp off).inum != 0 && namecmp name (entryAt s dp off).name

/-- The directory as a map: the inode number of the first entry in use under
`name`. -/
def dirMap (s : FsState π) (dp : Fin nInode) (name : Name) : Option Nat :=
  ((dirOffsets s dp).find? (matchesAt s dp name)).map fun off => (entryAt s dp off).inum

/-- Where `dirlink` puts a new entry: the first free entry, else the end. -/
def freeOff (s : FsState π) (dp : Fin nInode) : Nat :=
  ((dirOffsets s dp).find? fun off => (entryAt s dp off).inum == 0).getD (s.itable dp).d.size

/-- No two entries in use have names `namecmp` takes as equal. -/
def NamesDistinct (s : FsState π) (dp : Fin nInode) : Prop :=
  ∀ off ∈ dirOffsets s dp, ∀ off' ∈ dirOffsets s dp, (entryAt s dp off).inum ≠ 0 →
    matchesAt s dp (entryAt s dp off).name off' = true → off' = off

instance (s : FsState π) (dp : Fin nInode) : Decidable (NamesDistinct s dp) :=
  inferInstanceAs (Decidable (∀ off ∈ dirOffsets s dp, _))

/-- The indirect block of `dp`, when it has one, is marked in the bitmap. -/
def IndMarked (s : FsState π) (dp : Fin nInode) : Prop :=
  (s.itable dp).d.addrs nDirect ≠ 0 → s.bitmap ((s.itable dp).d.addrs nDirect) = true

/-- The blocks of a directory on a consistent disk. -/
structure DirLayout (s : FsState π) (dp : Fin nInode) : Prop where
  dir : (s.itable dp).d.type = .dir
  aligned : (s.itable dp).d.size % direntSize = 0
  le_max : (s.itable dp).d.size ≤ maxFile * bSize
  mapped : ∀ bn, bn * bSize < (s.itable dp).d.size →
    blockOf s (s.itable dp).d bn ≠ 0 ∧ s.bitmap (blockOf s (s.itable dp).d bn) = true
  unmapped : ∀ bn, bn < maxFile → (s.itable dp).d.size ≤ bn * bSize → blockOf s (s.itable dp).d bn = 0
  inj : ∀ bn bn', bn * bSize < (s.itable dp).d.size → bn' * bSize < (s.itable dp).d.size →
    blockOf s (s.itable dp).d bn = blockOf s (s.itable dp).d bn' → bn = bn'
  ind : IndMarked s dp
  boot : s.bitmap 0 = true

/-! ## Names -/

theorem namecmp_comm (s t : Name) : namecmp s t = namecmp t s := by
  unfold namecmp
  rw [Bool.eq_iff_iff, beq_iff_eq, beq_iff_eq]
  exact eq_comm

theorem namecmp_trans {s t u : Name} (hst : namecmp s t = true) (htu : namecmp t u = true) :
    namecmp s u = true := by
  simp only [namecmp, beq_iff_eq] at *
  exact hst.trans htu

theorem namecmp_take_right (n name : Name) : namecmp n (name.take dirSiz) = namecmp n name := by
  simp [namecmp, List.take_take]

theorem namecmp_take_left (n name : Name) : namecmp (name.take dirSiz) n = namecmp name n := by
  rw [namecmp_comm, namecmp_take_right, namecmp_comm]

theorem namecmp_self (name : Name) : namecmp name name = true := by
  simp [namecmp]

/-! ## Offsets -/

theorem mem_direntOffsets {size off : Nat} :
    off ∈ direntOffsets size ↔ off % direntSize = 0 ∧ off < size := by
  unfold direntOffsets direntSize dirSiz
  simp only [List.mem_map, List.mem_range]
  constructor
  · rintro ⟨k, hk, rfl⟩
    omega
  · rintro ⟨hmod, hlt⟩
    exact ⟨off / 16, by omega, by omega⟩

theorem length_direntOffsets_mul {size : Nat} (h : size % direntSize = 0) :
    (direntOffsets size).length * direntSize = size := by
  unfold direntOffsets direntSize dirSiz at *
  simp only [List.length_map, List.length_range]
  omega

/-- Appending an entry adds its offset at the end. -/
theorem direntOffsets_add {size : Nat} (h : size % direntSize = 0) :
    direntOffsets (size + direntSize) = direntOffsets size ++ [size] := by
  unfold direntOffsets direntSize dirSiz at *
  rw [show (size + (2 + 14) + (2 + 14) - 1) / (2 + 14) = (size + (2 + 14) - 1) / (2 + 14) + 1 by omega,
    List.range_succ, List.map_append, List.map_singleton]
  congr 2
  omega

/-! ## Reading entries -/

/-- `bmap` of a block the inode has allocates nothing. -/
theorem bmap_of_blockOf_ne_zero {s : FsState π} {ip : Fin nInode} {bn : Nat} (hbn : bn < maxFile)
    (h : blockOf s (s.itable ip).d bn ≠ 0) : bmap s ip bn = .ok (s, blockOf s (s.itable ip).d bn) := by
  unfold blockOf at h ⊢
  unfold bmap
  split
  · next hd =>
    rw [if_pos hd] at h
    simp [allocAddr, h]
  · next hd =>
    have hi : bn - nDirect < nIndirect := by unfold maxFile at hbn; omega
    rw [if_neg hd] at h
    split at h
    · exact absurd rfl h
    · next hind =>
      simp [bmapIndirect, allocAddr, hind, h, hi]

section Layout

variable {s : FsState π} {dp : Fin nInode}

/-- The block of an entry below the size is allocated. -/
theorem DirLayout.blockOf_ne_zero (h : DirLayout s dp) {off : Nat} (hoff : off ∈ dirOffsets s dp) :
    blockOf s (s.itable dp).d (off / bSize) ≠ 0 := by
  have hlt := (mem_direntOffsets.1 hoff).2
  exact (h.mapped _ (by have := Nat.div_mul_le_self off bSize; omega)).1

theorem DirLayout.bn_lt (h : DirLayout s dp) {off : Nat} (hoff : off < (s.itable dp).d.size) :
    off / bSize < maxFile := by
  have := h.le_max
  unfold maxFile nDirect nIndirect bSize at *
  omega

/-- Reading an entry of a directory with its blocks allocated returns the
entry and changes nothing. -/
theorem DirLayout.readi (h : DirLayout s dp) {off : Nat} (hoff : off ∈ dirOffsets s dp) :
    readi s dp off = .ok (s, some (entryAt s dp off)) := by
  obtain ⟨hmod, hlt⟩ := mem_direntOffsets.1 hoff
  have hfit : off + direntSize ≤ (s.itable dp).d.size := by
    have := h.aligned
    unfold direntSize dirSiz at *
    omega
  have hne := h.blockOf_ne_zero hoff
  unfold Fs.readi
  rw [if_neg (by omega), if_neg (by unfold direntSize dirSiz at *; omega),
    bmap_of_blockOf_ne_zero (h.bn_lt hlt) hne]
  simp only [Nat.min_eq_left (show direntSize ≤ (s.itable dp).d.size - off by omega),
    Nat.lt_irrefl, or_false]
  show (if blockOf s (s.itable dp).d (off / bSize) = 0 then _ else _) = _
  rw [if_neg hne]
  rfl

end Layout

/-- When every offset of a scan reads its entry and changes nothing,
`dirlookup`'s scan is a search of the entries. -/
theorem dirlookupFrom_eq {s : FsState π} {dp : Fin nInode} {name : Name} :
    ∀ {offs : List Nat}, (∀ off ∈ offs, readi s dp off = .ok (s, some (entryAt s dp off))) →
      dirlookupFrom dp name s offs =
        match offs.find? (matchesAt s dp name) with
        | none => .ok (s, none)
        | some off => do
          let r ← iget s (s.itable dp).dev (entryAt s dp off).inum
          pure (r.1, some (r.2, off))
  | [], _ => rfl
  | off :: offs, hread => by
    have ih := @dirlookupFrom_eq s dp name offs fun o ho => hread o (List.mem_cons_of_mem _ ho)
    unfold dirlookupFrom
    rw [hread off List.mem_cons_self]
    show (if (entryAt s dp off).inum = 0 then _ else _) = _
    by_cases hm : matchesAt s dp name off = true
    · -- the scan stops here: the entry is in use and its name matches
      simp only [matchesAt, Bool.and_eq_true, bne_iff_ne] at hm
      rw [List.find?_cons_of_pos (by simp [matchesAt, hm.1, hm.2]), if_neg hm.1, if_pos hm.2]
    · rw [List.find?_cons_of_neg hm]
      by_cases hz : (entryAt s dp off).inum = 0
      · rw [if_pos hz]
        exact ih
      · have hn : namecmp name (entryAt s dp off).name = false := by
          simpa [matchesAt, hz] using hm
        rw [if_neg hz, if_neg (by simp [hn])]
        exact ih

/-- Likewise `dirlink`'s scan finds the first free entry, else stops at `endOff`. -/
theorem dirlinkScan_eq {s : FsState π} {dp : Fin nInode} {endOff : Nat} :
    ∀ {offs : List Nat}, (∀ off ∈ offs, readi s dp off = .ok (s, some (entryAt s dp off))) →
      dirlinkScan dp s offs endOff =
        .ok (s, (offs.find? fun off => (entryAt s dp off).inum == 0).getD endOff)
  | [], _ => rfl
  | off :: offs, hread => by
    have ih := @dirlinkScan_eq s dp endOff offs fun o ho => hread o (List.mem_cons_of_mem _ ho)
    unfold dirlinkScan
    rw [hread off List.mem_cons_self]
    show (if (entryAt s dp off).inum = 0 then _ else _) = _
    by_cases hz : (entryAt s dp off).inum = 0
    · rw [if_pos hz, List.find?_cons_of_pos (by simp [hz])]
      rfl
    · rw [if_neg hz, List.find?_cons_of_neg (by simp [hz])]
      exact ih

/-! ## Allocating a block -/

/-- What allocating block `bn` of `dp` may change: not the block `dp` has at
another block number, not the entries or bytes of a block in use, and no mark
of the bitmap; a block it marks has been zeroed. -/
structure Grows (s s' : FsState π) (dp : Fin nInode) (bn : Nat) : Prop where
  blockOf_ne : ∀ bn', bn' ≠ bn → blockOf s' (s'.itable dp).d bn' = blockOf s (s.itable dp).d bn'
  dirent : ∀ b, s.bitmap b = true → (s'.blk b).dirent = (s.blk b).dirent
  data : ∀ b, s.bitmap b = true → (s'.blk b).data = (s.blk b).data
  bitmap : ∀ b, s.bitmap b = true → s'.bitmap b = true
  fresh : ∀ b, s.bitmap b = false → s'.bitmap b = true → (s'.blk b).data = fun _ => 0
  d_size : (s'.itable dp).d.size = (s.itable dp).d.size
  d_type : (s'.itable dp).d.type = (s.itable dp).d.type
  ind : IndMarked s' dp

/-- The state `balloc` leaves when it takes block `b`: marked and zeroed. -/
def ballocAt (s : FsState π) (b : Nat) : FsState π :=
  { s with bitmap := Function.update s.bitmap b true, blk := Function.update s.blk b Blk.zero }

@[simp] theorem ballocAt_itable (s : FsState π) (b : Nat) : (ballocAt s b).itable = s.itable := rfl

@[simp] theorem ballocAt_bitmap (s : FsState π) (b : Nat) :
    (ballocAt s b).bitmap = Function.update s.bitmap b true := rfl

@[simp] theorem ballocAt_blk (s : FsState π) (b : Nat) :
    (ballocAt s b).blk = Function.update s.blk b Blk.zero := rfl

section Grows

variable {s s₁ s₂ : FsState π} {dp : Fin nInode} {bn : Nat}

theorem Grows.refl (h : IndMarked s dp) : Grows s s dp bn :=
  ⟨fun _ _ => rfl, fun _ _ => rfl, fun _ _ => rfl, fun _ hb => hb, fun _ h₁ h₂ => absurd h₂ (by simp [h₁]),
    rfl, rfl, h⟩

theorem Grows.trans (h₁ : Grows s s₁ dp bn) (h₂ : Grows s₁ s₂ dp bn) : Grows s s₂ dp bn where
  blockOf_ne bn' hne := (h₂.blockOf_ne bn' hne).trans (h₁.blockOf_ne bn' hne)
  dirent b hb := (h₂.dirent b (h₁.bitmap b hb)).trans (h₁.dirent b hb)
  data b hb := (h₂.data b (h₁.bitmap b hb)).trans (h₁.data b hb)
  bitmap b hb := h₂.bitmap b (h₁.bitmap b hb)
  fresh b hb hb₂ := by
    cases hb₁ : s₁.bitmap b
    · exact h₂.fresh b hb₁ hb₂
    · rw [h₂.data b hb₁]
      exact h₁.fresh b hb hb₁
  d_size := h₂.d_size.trans h₁.d_size
  d_type := h₂.d_type.trans h₁.d_type
  ind := h₂.ind

/-- With block 0 marked, `balloc` either finds every block of the disk marked
and changes nothing, or marks and zeroes a block that was free. -/
theorem balloc_cases (s : FsState π) (h0 : s.bitmap 0 = true) :
    (balloc s = (s, 0) ∧ ∀ b < fsSize, s.bitmap b = true) ∨
      ∃ b, b ≠ 0 ∧ s.bitmap b = false ∧ balloc s = (ballocAt s b, b) := by
  unfold balloc
  split
  · next b hb =>
    have hfree : s.bitmap b = false := by simpa using List.find?_some hb
    refine .inr ⟨b, fun h => ?_, hfree, rfl⟩
    subst h
    simp [h0] at hfree
  · next hnone =>
    refine .inl ⟨rfl, fun b hb => ?_⟩
    simpa using List.find?_eq_none.1 hnone b (List.mem_range.2 hb)

/-- Marking and zeroing a free block changes nothing `dp` reads. -/
theorem grows_ballocAt (hind : IndMarked s dp) {b : Nat} (hb : s.bitmap b = false) :
    Grows s (ballocAt s b) dp bn := by
  have hne : ∀ x, s.bitmap x = true → x ≠ b := fun x hx hxb => by
    subst hxb
    simp [hx] at hb
  refine ⟨fun bn' _ => ?_, fun x hx => ?_, fun x hx => ?_, fun x hx => ?_, fun x hx hx' => ?_, rfl, rfl,
    fun hi => ?_⟩
  · unfold blockOf
    simp only [ballocAt_itable]
    by_cases hd : bn' < nDirect
    · simp only [if_pos hd]
    · by_cases hi : (s.itable dp).d.addrs nDirect = 0
      · simp [hd, hi]
      · simp only [if_neg hd, if_neg hi, ballocAt_blk, Function.update_of_ne (hne _ (hind hi))]
  · simp [Function.update_of_ne (hne x hx)]
  · simp [Function.update_of_ne (hne x hx)]
  · simp [Function.update_apply, hx]
  · -- the one block `balloc` marks is the one it zeroes
    have hxb : x = b := by
      by_contra hxb
      simp [Function.update_of_ne hxb, hx] at hx'
    subst hxb
    simp [Blk.zero]
  · simp only [ballocAt_itable, ballocAt_bitmap] at hi ⊢
    simp [Function.update_apply, hind hi]

/-- Setting a direct address changes that block number only. -/
theorem grows_setAddr_direct (hind : IndMarked s dp) (hbn : bn < nDirect) (b : Nat) :
    Grows s (s.setAddr dp bn b) dp bn := by
  refine ⟨fun bn' hne => ?_, fun _ _ => rfl, fun _ _ => rfl, fun _ hx => hx,
    fun _ h₁ h₂ => absurd h₂ (by simp [FsState.setAddr, h₁]), by simp [FsState.setAddr],
    by simp [FsState.setAddr], fun hi => ?_⟩
  · unfold blockOf
    simp [FsState.setAddr, Function.update_of_ne hne, Function.update_of_ne (show nDirect ≠ bn by omega)]
  · simp only [FsState.setAddr, FsState.updI_itable_self, Function.update_of_ne (show nDirect ≠ bn by omega)] at hi ⊢
    exact hind hi

theorem blockOf_setAddr_direct (hbn : bn < nDirect) (b : Nat) :
    blockOf (s.setAddr dp bn b) ((s.setAddr dp bn b).itable dp).d bn = b := by
  simp [blockOf, FsState.setAddr, hbn]

/-- Installing a fresh zeroed indirect block changes no block number: every
entry of a zeroed indirect block is 0. -/
theorem grows_setAddr_ind (hz : (s.itable dp).d.addrs nDirect = 0) {b : Nat} (hzero : s.blk b = Blk.zero)
    (hb : s.bitmap b = true) : Grows s (s.setAddr dp nDirect b) dp bn := by
  refine ⟨fun bn' _ => ?_, fun _ _ => rfl, fun _ _ => rfl, fun _ hx => hx,
    fun _ h₁ h₂ => absurd h₂ (by simp [FsState.setAddr, h₁]), by simp [FsState.setAddr],
    by simp [FsState.setAddr], fun _ => by simpa [FsState.setAddr] using hb⟩
  unfold blockOf
  split
  · next hd => simp [FsState.setAddr, Function.update_of_ne (show bn' ≠ nDirect by omega)]
  · simp [FsState.setAddr, hzero, Blk.zero]

/-- Setting entry `bn - NDIRECT` of the indirect block changes block number `bn`
only. -/
theorem grows_setInd (hind : IndMarked s dp) (hbn : nDirect ≤ bn) {ind : Nat}
    (hi : (s.itable dp).d.addrs nDirect = ind) (a : Nat) :
    Grows s { s with blk := (Function.update s.blk ind
                { (s.blk ind) with addr := Function.update (s.blk ind).addr (bn - nDirect) a }) } dp bn := by
  refine ⟨fun bn' hne => ?_, fun x _ => ?_, fun x _ => ?_, fun _ hx => hx, fun _ h₁ h₂ => absurd h₂ (by simp [h₁]),
    rfl, rfl, hind⟩
  · unfold blockOf
    split
    · rfl
    · split
      · rfl
      · next hd _ =>
        rw [hi]
        simp only [Function.update_self]
        rw [Function.update_of_ne (show bn' - nDirect ≠ bn - nDirect by omega)]
  · simp only [Function.update_apply]
    split
    · next hx => subst hx; rfl
    · rfl
  · simp only [Function.update_apply]
    split
    · next hx => subst hx; rfl
    · rfl

theorem blockOf_setInd (hbn : nDirect ≤ bn) {ind : Nat} (hi : (s.itable dp).d.addrs nDirect = ind)
    (hne : ind ≠ 0) (a : Nat) :
    blockOf { s with blk := (Function.update s.blk ind
      { (s.blk ind) with addr := Function.update (s.blk ind).addr (bn - nDirect) a }) } (s.itable dp).d bn = a := by
  simp [blockOf, hi, hne, show ¬ bn < nDirect by omega]

/-- `allocAddr` of an address that is 0: `balloc` finds no block, or takes a
free one that becomes the address. -/
theorem allocAddr_of_eq_zero (h0 : s.bitmap 0 = true) {k : Nat} (hk : (s.itable dp).d.addrs k = 0) :
    (allocAddr s dp k = (s, 0) ∧ ∀ b < fsSize, s.bitmap b = true) ∨
      ∃ b, b ≠ 0 ∧ s.bitmap b = false ∧ allocAddr s dp k = ((ballocAt s b).setAddr dp k b, b) := by
  unfold allocAddr
  rw [if_pos hk]
  rcases balloc_cases s h0 with ⟨hB, hfull⟩ | ⟨b, hb0, hfree, hB⟩
  · rw [hB]
    exact .inl ⟨rfl, hfull⟩
  · rw [hB]
    exact .inr ⟨b, hb0, hfree, by simp [hb0]⟩

/-- `bmap` of a block number `dp` has no block for takes its block, and the
indirect block if that is missing too, from the free blocks; or it finds none
free, every block of the disk marked, and returns 0. -/
theorem bmap_alloc (h0 : s.bitmap 0 = true) (hind : IndMarked s dp)
    (hz : blockOf s (s.itable dp).d bn = 0) {s' : FsState π} {addr : Nat} (hb : bmap s dp bn = .ok (s', addr)) :
    Grows s s' dp bn ∧
      (addr ≠ 0 → blockOf s' (s'.itable dp).d bn = addr ∧ s.bitmap addr = false ∧ s'.bitmap addr = true) ∧
      (addr = 0 → ∀ b < fsSize, s'.bitmap b = true) := by
  unfold bmap at hb
  split at hb
  · next hd =>
    -- a direct block
    have haddr : (s.itable dp).d.addrs bn = 0 := by simpa [blockOf, hd] using hz
    simp only [Result.ok.injEq] at hb
    rcases allocAddr_of_eq_zero h0 haddr with ⟨hA, hfull⟩ | ⟨b, hb0, hfree, hA⟩
    · rw [hA, Prod.mk.injEq] at hb
      obtain ⟨rfl, rfl⟩ := hb
      exact ⟨.refl hind, fun h => absurd rfl h, fun _ => hfull⟩
    · rw [hA, Prod.mk.injEq] at hb
      obtain ⟨rfl, rfl⟩ := hb
      have hg : Grows s (ballocAt s b) dp bn := grows_ballocAt hind hfree
      refine ⟨hg.trans (grows_setAddr_direct hg.ind hd b), fun _ => ⟨blockOf_setAddr_direct hd b, hfree, ?_⟩,
        fun h => absurd h hb0⟩
      simp [FsState.setAddr, ballocAt]
  · next hd =>
    split at hb
    · -- through the indirect block
      simp only [Result.ok.injEq] at hb
      have hle : nDirect ≤ bn := by omega
      unfold bmapIndirect at hb
      by_cases hi : (s.itable dp).d.addrs nDirect = 0
      · rcases allocAddr_of_eq_zero h0 hi with ⟨hA, hfull⟩ | ⟨b₁, hb₁, hfree₁, hA⟩
        · rw [hA] at hb
          simp only [if_true, Prod.mk.injEq] at hb
          obtain ⟨rfl, rfl⟩ := hb
          exact ⟨.refl hind, fun h => absurd rfl h, fun _ => hfull⟩
        · -- a fresh indirect block, all of whose entries are 0
          rw [hA] at hb
          have hg₁ : Grows s ((ballocAt s b₁).setAddr dp nDirect b₁) dp bn :=
            (grows_ballocAt hind hfree₁).trans
              (grows_setAddr_ind (by simpa [ballocAt] using hi) (by simp [ballocAt]) (by simp [ballocAt]))
          set s₁ := (ballocAt s b₁).setAddr dp nDirect b₁ with hs₁
          have hzero : (s₁.blk b₁).addr (bn - nDirect) = 0 := by simp [hs₁, FsState.setAddr, ballocAt, Blk.zero]
          have h0₁ : s₁.bitmap 0 = true := hg₁.bitmap 0 h0
          simp only [hb₁, if_false, hzero, if_true] at hb
          rcases balloc_cases s₁ h0₁ with ⟨hB, hfull⟩ | ⟨b₂, hb₂, hfree₂, hB⟩
          · rw [hB] at hb
            simp only [if_true, Prod.mk.injEq] at hb
            obtain ⟨rfl, rfl⟩ := hb
            exact ⟨hg₁, fun h => absurd rfl h, fun _ => hfull⟩
          · rw [hB] at hb
            simp only [hb₂, if_false, Prod.mk.injEq] at hb
            obtain ⟨rfl, rfl⟩ := hb
            have hi₂ : ((ballocAt s₁ b₂).itable dp).d.addrs nDirect = b₁ := by
              simp [hs₁, ballocAt, FsState.setAddr]
            have hg₂ := hg₁.trans (grows_ballocAt hg₁.ind hfree₂)
            refine ⟨hg₂.trans (grows_setInd hg₂.ind hle hi₂ b₂), fun _ => ⟨blockOf_setInd hle hi₂ hb₁ b₂, ?_, ?_⟩,
              fun h => absurd h hb₂⟩
            · have : s₁.bitmap b₂ = s.bitmap b₂ := by
                have hne : b₂ ≠ b₁ := fun h => by subst h; simp [hs₁, FsState.setAddr, ballocAt] at hfree₂
                simp [hs₁, FsState.setAddr, ballocAt, Function.update_of_ne hne]
              rw [← this]
              exact hfree₂
            · simp [ballocAt]
      · -- the indirect block is there; its entry is 0
        have hA : allocAddr s dp nDirect = (s, (s.itable dp).d.addrs nDirect) := by
          simp [allocAddr, hi]
        have hentry : (s.blk ((s.itable dp).d.addrs nDirect)).addr (bn - nDirect) = 0 := by
          simpa [blockOf, hd, hi] using hz
        rw [hA] at hb
        simp only [hi, if_false, hentry, if_true] at hb
        rcases balloc_cases s h0 with ⟨hB, hfull⟩ | ⟨b, hb0, hfree, hB⟩
        · rw [hB] at hb
          simp only [if_true, Prod.mk.injEq] at hb
          obtain ⟨rfl, rfl⟩ := hb
          exact ⟨.refl hind, fun h => absurd rfl h, fun _ => hfull⟩
        · rw [hB] at hb
          simp only [hb0, if_false, Prod.mk.injEq] at hb
          obtain ⟨rfl, rfl⟩ := hb
          have hi' : ((ballocAt s b).itable dp).d.addrs nDirect = (s.itable dp).d.addrs nDirect := rfl
          have hg : Grows s (ballocAt s b) dp bn := grows_ballocAt hind hfree
          refine ⟨hg.trans (grows_setInd hg.ind hle hi' b), fun _ => ⟨blockOf_setInd hle hi' hi b, hfree, ?_⟩,
            fun h => absurd h hb0⟩
          simp [ballocAt]
    · cases hb

end Grows

/-! ## Writing an entry -/

section Write

variable {s s₁ : FsState π} {dp : Fin nInode}

/-- Writing the entries of a block changes no block number: the model keeps
them apart from the numbers an indirect block holds. -/
theorem blockOf_setDirent (a : Nat) (dirent : Nat → Dirent) (d : DInode) :
    blockOf { s with blk := (Function.update s.blk a { (s.blk a) with dirent := dirent }) } d =
      blockOf s d := by
  funext bn
  unfold blockOf
  by_cases hd : bn < nDirect
  · simp only [if_pos hd]
  · by_cases hi : d.addrs nDirect = 0
    · simp [hd, hi]
    · simp only [if_neg hd, if_neg hi, Function.update_apply]
      split
      · next hx => rw [hx]
      · rfl

theorem entryAt_setDirent (a k : Nat) (de : Dirent) (o : Nat) :
    entryAt { s with blk := (Function.update s.blk a
        { (s.blk a) with dirent := Function.update (s.blk a).dirent k de }) } dp o =
      if blockOf s (s.itable dp).d (o / bSize) = a ∧ o % bSize / direntSize = k then de else entryAt s dp o := by
  unfold entryAt
  rw [blockOf_setDirent]
  by_cases ha : blockOf s (s.itable dp).d (o / bSize) = a
  · subst ha
    simp only [Function.update_self, Function.update_apply, true_and]
  · simp [ha]

/-- Two entries of one block at different offsets are different entries of it. -/
theorem slot_ne_of_ne {o off : Nat} (ho : o % direntSize = 0) (hoff : off % direntSize = 0)
    (hbn : o / bSize = off / bSize) (hne : o ≠ off) : o % bSize / direntSize ≠ off % bSize / direntSize := by
  unfold direntSize dirSiz bSize at *
  omega

/-- What `bmap` does for an entry at an offset up to the size of a directory:
the blocks below the size keep their numbers, and the block it returns is the
block of the entry afterwards and none of those.  It returns 0 only for an
entry that starts a new block. -/
theorem DirLayout.bmap_entry (h : DirLayout s dp) {off : Nat} (hoff : off ≤ (s.itable dp).d.size)
    (hmax : off + direntSize ≤ maxFile * bSize) {addr : Nat}
    (hb : bmap s dp (off / bSize) = .ok (s₁, addr)) :
    Grows s s₁ dp (off / bSize) ∧
    (∀ bn, bn * bSize < (s.itable dp).d.size → blockOf s₁ (s₁.itable dp).d bn = blockOf s (s.itable dp).d bn) ∧
    (addr = 0 → off = (s.itable dp).d.size ∧ (s.itable dp).d.size % bSize = 0 ∧
      ∀ b < fsSize, s₁.bitmap b = true) ∧
    (addr ≠ 0 → blockOf s₁ (s₁.itable dp).d (off / bSize) = addr ∧ s₁.bitmap addr = true ∧
      ∀ bn, bn * bSize < (s.itable dp).d.size → blockOf s (s.itable dp).d bn = addr → bn = off / bSize) := by
  have hbn : off / bSize < maxFile := by
    unfold maxFile nDirect nIndirect bSize direntSize dirSiz at *
    omega
  by_cases hm : off / bSize * bSize < (s.itable dp).d.size
  · -- the entry's block is allocated: nothing changes
    obtain ⟨hne, hmark⟩ := h.mapped _ hm
    rw [bmap_of_blockOf_ne_zero hbn hne, Result.ok.injEq, Prod.mk.injEq] at hb
    obtain ⟨rfl, rfl⟩ := hb
    exact ⟨.refl h.ind, fun _ _ => rfl, fun h0 => absurd h0 hne,
      fun _ => ⟨rfl, hmark, fun bn hlt heq => h.inj _ _ hlt hm heq⟩⟩
  · -- the entry starts a new block, past every allocated one
    have hsize : off / bSize * bSize = (s.itable dp).d.size := by
      have := Nat.div_mul_le_self off bSize
      omega
    obtain ⟨hg, hnew, hfull⟩ := bmap_alloc h.boot h.ind (h.unmapped _ hbn (by omega)) hb
    have hbelow : ∀ bn, bn * bSize < (s.itable dp).d.size → bn ≠ off / bSize := by
      rintro bn hlt rfl
      exact hm hlt
    refine ⟨hg, fun bn hlt => hg.blockOf_ne bn (hbelow bn hlt), fun h0 => ?_, fun ha => ?_⟩
    · refine ⟨?_, ?_, hfull h0⟩
      · have := Nat.div_mul_le_self off bSize
        omega
      · rw [← hsize]
        exact Nat.mul_mod_left _ _
    · obtain ⟨hblk, hfree, hmark⟩ := hnew ha
      refine ⟨hblk, hmark, fun bn hlt heq => ?_⟩
      have := (h.mapped bn hlt).2
      rw [heq, hfree] at this
      cases this

/-- After `bmap` for an entry, the entries below the size read as before. -/
theorem DirLayout.entryAt_of_bmap (h : DirLayout s dp) {bn : Nat} (hg : Grows s s₁ dp bn)
    (hold : ∀ bn, bn * bSize < (s.itable dp).d.size →
      blockOf s₁ (s₁.itable dp).d bn = blockOf s (s.itable dp).d bn)
    {o : Nat} (ho : o ∈ dirOffsets s dp) : entryAt s₁ dp o = entryAt s dp o := by
  have hlt : o / bSize * bSize < (s.itable dp).d.size := by
    have := (mem_direntOffsets.1 ho).2
    have := Nat.div_mul_le_self o bSize
    omega
  unfold entryAt
  rw [hold _ hlt, hg.dirent _ (h.mapped _ hlt).2]

/-- The layout after an entry at `off` has gone to block `addr`, the block of
its block number afterwards and of no block number below the old size. -/
theorem DirLayout.of_write (h : DirLayout s dp) {s' : FsState π} {off addr : Nat}
    (hoff : off ≤ (s.itable dp).d.size) (halign : off % direntSize = 0)
    (hmax : off + direntSize ≤ maxFile * bSize)
    (hsize : (s'.itable dp).d.size = max (s.itable dp).d.size (off + direntSize))
    (htype : (s'.itable dp).d.type = (s.itable dp).d.type)
    (hblock : ∀ bn, bn ≠ off / bSize → blockOf s' (s'.itable dp).d bn = blockOf s (s.itable dp).d bn)
    (hbitmap : ∀ b, s.bitmap b = true → s'.bitmap b = true)
    (haddr : blockOf s' (s'.itable dp).d (off / bSize) = addr) (hne : addr ≠ 0)
    (hmark : s'.bitmap addr = true)
    (hfresh : ∀ bn, bn * bSize < (s.itable dp).d.size → blockOf s (s.itable dp).d bn = addr → bn = off / bSize)
    (hind : IndMarked s' dp) : DirLayout s' dp := by
  have hal := h.aligned
  -- a block number below the new size other than the entry's was below the old size
  have hbelow : ∀ bn, bn ≠ off / bSize → bn * bSize < (s'.itable dp).d.size →
      bn * bSize < (s.itable dp).d.size := by
    intro bn hbn hlt
    rw [hsize] at hlt
    unfold direntSize dirSiz bSize at *
    omega
  refine ⟨htype.trans h.dir, ?_, ?_, fun bn hlt => ?_, fun bn hbn hle => ?_, fun bn bn' hlt hlt' heq => ?_,
    hind, hbitmap 0 h.boot⟩
  · rw [hsize]
    unfold direntSize dirSiz at *
    omega
  · rw [hsize]
    exact max_le h.le_max hmax
  · by_cases hb : bn = off / bSize
    · subst hb
      rw [haddr]
      exact ⟨hne, hmark⟩
    · rw [hblock bn hb]
      obtain ⟨hne', hmark'⟩ := h.mapped bn (hbelow bn hb hlt)
      exact ⟨hne', hbitmap _ hmark'⟩
  · have hb : bn ≠ off / bSize := by
      rintro rfl
      rw [hsize] at hle
      unfold direntSize dirSiz bSize at *
      omega
    rw [hblock bn hb]
    exact h.unmapped bn hbn (by rw [hsize] at hle; omega)
  · -- the entry's block is new to the directory, or was its block already
    by_cases hb : bn = off / bSize <;> by_cases hb' : bn' = off / bSize
    · rw [hb, hb']
    · rw [hb, haddr, hblock bn' hb'] at heq
      rw [hb, hfresh bn' (hbelow bn' hb' hlt') heq.symm]
    · rw [hb', haddr, hblock bn hb] at heq
      rw [hb', hfresh bn (hbelow bn hb hlt) heq]
    · rw [hblock bn hb, hblock bn' hb'] at heq
      exact h.inj bn bn' (hbelow bn hb hlt) (hbelow bn' hb' hlt') heq

/-- `blockOf` reads only the blocks and the addresses of the inode. -/
theorem blockOf_congr {s' : FsState π} {d d' : DInode} (hb : s.blk = s'.blk) (ha : d.addrs = d'.addrs) :
    blockOf s d = blockOf s' d' := by
  funext bn
  unfold blockOf
  rw [hb, ha]

theorem entryAt_congr {s' : FsState π} (hb : s.blk = s'.blk)
    (ha : (s.itable dp).d.addrs = (s'.itable dp).d.addrs) : entryAt s dp = entryAt s' dp := by
  funext o
  unfold entryAt
  rw [blockOf_congr hb ha, hb]

/-- `writei` of an entry at an offset up to the size of a directory.  Short of
a whole entry, it wrote nothing of what the directory holds, and the entry
started a new block.  Otherwise the entry is at `off`, every other entry is as
it was, the size covers the entry, and the layout is kept. -/
theorem DirLayout.writei (h : DirLayout s dp) {off : Nat} (hoff : off ≤ (s.itable dp).d.size)
    (halign : off % direntSize = 0) {de : Dirent} {s' : FsState π} {tot : Int}
    (hw : writei s dp de off = .ok (s', tot)) :
    (tot ≠ direntSize → off = (s.itable dp).d.size ∧ (s.itable dp).d.size % bSize = 0 ∧
      (maxFile * bSize < off + direntSize ∨ ∀ b < fsSize, s'.bitmap b = true) ∧
      (s'.itable dp).d.size = (s.itable dp).d.size ∧
      ∀ o ∈ dirOffsets s dp, entryAt s' dp o = entryAt s dp o) ∧
    (tot = direntSize → (s'.itable dp).d.size = max (s.itable dp).d.size (off + direntSize) ∧
      entryAt s' dp off = de ∧ (∀ o ∈ dirOffsets s dp, o ≠ off → entryAt s' dp o = entryAt s dp o) ∧
      DirLayout s' dp) := by
  have hal := h.aligned
  have hle := h.le_max
  unfold Fs.writei at hw
  rw [if_neg (by omega)] at hw
  split at hw
  · -- past MAXFILE blocks: nothing is written
    next hmax =>
    cases hw
    refine ⟨fun _ => ⟨?_, ?_, .inl hmax, rfl, fun _ _ => rfl⟩, fun h16 => absurd h16 (by decide)⟩ <;>
      unfold maxFile nDirect nIndirect bSize direntSize dirSiz at * <;> omega
  · next hmax =>
    obtain ⟨⟨s₁, addr⟩, hb, hw⟩ := Result.bind_eq_ok.1 hw
    obtain ⟨hg, hold, hzero, hnew⟩ := h.bmap_entry hoff (by omega) hb
    have hsame : ∀ o ∈ dirOffsets s dp, entryAt s₁ dp o = entryAt s dp o :=
      fun o ho => h.entryAt_of_bmap hg hold ho
    by_cases ha : addr = 0
    · -- no block for the entry: the size stays and nothing is written
      simp only [ha, if_true, Nat.add_zero, hg.d_size,
        if_neg (show ¬ off > (s.itable dp).d.size by omega)] at hw
      rw [Result.pure_eq_ok, Prod.mk.injEq] at hw
      obtain ⟨rfl, rfl⟩ := hw
      -- `bmap` found every block marked
      obtain ⟨hoff', hmod, hfull⟩ := hzero ha
      exact ⟨fun _ => ⟨hoff', hmod, .inr hfull, hg.d_size, hsame⟩, fun h16 => absurd h16 (by decide)⟩
    · simp only [ha, if_false] at hw
      rw [Result.pure_eq_ok, Prod.mk.injEq] at hw
      obtain ⟨rfl, rfl⟩ := hw
      obtain ⟨hblk, hmark, hfresh⟩ := hnew ha
      refine ⟨fun h16 => absurd rfl h16, fun _ => ?_⟩
      -- the entry written into its block, then the size set if it grows
      set s₂ : FsState π := { s₁ with blk := (Function.update s₁.blk addr
        { (s₁.blk addr) with dirent := Function.update (s₁.blk addr).dirent (off % bSize / direntSize) de }) }
        with hs₂
      set s₃ : FsState π := if off + direntSize > (s₂.itable dp).d.size then
          s₂.updI dp fun e => { e with d := { e.d with size := off + direntSize } } else s₂ with hs₃
      have hblk₃ : s₃.blk = s₂.blk := by
        rw [hs₃]
        split <;> rfl
      have hbit₃ : s₃.bitmap = s₁.bitmap := by
        rw [hs₃]
        split <;> rfl
      have hd₃ : (s₃.itable dp).d.addrs = (s₁.itable dp).d.addrs ∧
          (s₃.itable dp).d.type = (s₁.itable dp).d.type := by
        rw [hs₃]
        split <;> simp [hs₂]
      have hsize₃ : (s₃.itable dp).d.size = max (s.itable dp).d.size (off + direntSize) := by
        rw [hs₃]
        split <;> simp [hs₂, hg.d_size] at * <;> omega
      have hblockOf : blockOf s₃ (s₃.itable dp).d = blockOf s₁ (s₁.itable dp).d :=
        (blockOf_congr hblk₃ hd₃.1).trans (blockOf_setDirent addr _ _)
      have hentry : ∀ o, entryAt s₃ dp o =
          if blockOf s₁ (s₁.itable dp).d (o / bSize) = addr ∧
            o % bSize / direntSize = off % bSize / direntSize then de else entryAt s₁ dp o := by
        intro o
        rw [entryAt_congr hblk₃ hd₃.1]
        exact entryAt_setDirent addr _ de o
      show (s₃.itable dp).d.size = _ ∧ entryAt s₃ dp off = de ∧
        (∀ o ∈ dirOffsets s dp, o ≠ off → entryAt s₃ dp o = entryAt s dp o) ∧ DirLayout (iupdate s₃ dp) dp
      refine ⟨hsize₃, by rw [hentry, if_pos ⟨hblk, rfl⟩], fun o ho hne => ?_, ?_⟩
      · -- another entry: in another block, or at another place in the same one
        have hlt : o / bSize * bSize < (s.itable dp).d.size := by
          have := (mem_direntOffsets.1 ho).2
          have := Nat.div_mul_le_self o bSize
          omega
        rw [hentry, if_neg, hsame o ho]
        rintro ⟨hb', hslot⟩
        have hbn := hfresh _ hlt ((hold _ hlt).symm.trans hb')
        exact slot_ne_of_ne (mem_direntOffsets.1 ho).1 halign hbn hne hslot
      · -- `iupdate` writes the dinode only
        have hblock' : blockOf (iupdate s₃ dp) ((iupdate s₃ dp).itable dp).d = blockOf s₁ (s₁.itable dp).d :=
          hblockOf
        have hbit' : (iupdate s₃ dp).bitmap = s₁.bitmap := hbit₃
        have haddrs' : ((iupdate s₃ dp).itable dp).d.addrs = (s₁.itable dp).d.addrs := hd₃.1
        refine h.of_write hoff halign (by omega) hsize₃ (hd₃.2.trans hg.d_type) (fun bn hbn => ?_)
          (fun b hb => by rw [hbit']; exact hg.bitmap b hb) (by rw [hblock']; exact hblk) ha
          (by rw [hbit']; exact hmark) hfresh (fun hi => ?_)
        · rw [hblock']
          exact hg.blockOf_ne bn hbn
        · rw [haddrs'] at hi ⊢
          rw [hbit']
          exact hg.ind hi

end Write

/-! ## Looking up and linking -/

section Link

variable {s : FsState π} {dp : Fin nInode}

/-- On a directory with its blocks allocated, `dirlookup` finds the first entry
in use under the name and returns its `iget`. -/
theorem DirLayout.dirlookup (h : DirLayout s dp) (name : Name) :
    dirlookup s dp name =
      (match (dirOffsets s dp).find? (matchesAt s dp name) with
      | none => .ok (s, none)
      | some off => do
        let r ← iget s (s.itable dp).dev (entryAt s dp off).inum
        pure (r.1, some (r.2, off))) := by
  unfold Fs.dirlookup
  rw [if_neg (not_not.2 h.dir)]
  exact dirlookupFrom_eq fun off hoff => h.readi hoff

theorem freeOff_cases (s : FsState π) (dp : Fin nInode) :
    (freeOff s dp ∈ dirOffsets s dp ∧ (entryAt s dp (freeOff s dp)).inum = 0) ∨
      freeOff s dp = (s.itable dp).d.size := by
  unfold freeOff
  cases hf : (dirOffsets s dp).find? (fun off => (entryAt s dp off).inum == 0) with
  | none => exact .inr rfl
  | some o => exact .inl ⟨List.mem_of_find?_eq_some hf, by simpa using List.find?_some hf⟩

theorem DirLayout.freeOff_le (h : DirLayout s dp) :
    freeOff s dp ≤ (s.itable dp).d.size ∧ freeOff s dp % direntSize = 0 := by
  rcases freeOff_cases s dp with ⟨hmem, -⟩ | heq
  · obtain ⟨hmod, hlt⟩ := mem_direntOffsets.1 hmem
    exact ⟨Nat.le_of_lt hlt, hmod⟩
  · rw [heq]
    exact ⟨le_rfl, h.aligned⟩

/-- `bmap` panics only past MAXFILE blocks. -/
theorem bmap_ok (s : FsState π) (ip : Fin nInode) {bn : Nat} (hbn : bn < maxFile) :
    ∃ r, bmap s ip bn = .ok r := by
  unfold bmap
  split
  · exact ⟨_, rfl⟩
  · rw [if_pos (by unfold maxFile at hbn; omega)]
    exact ⟨_, rfl⟩

/-- `writei` of an entry never panics: it checks the offset before `bmap`. -/
theorem writei_ok (s : FsState π) (dp : Fin nInode) (de : Dirent) (off : Nat) :
    ∃ s' tot, writei s dp de off = .ok (s', tot) := by
  unfold writei
  split
  · exact ⟨_, _, rfl⟩
  split
  · exact ⟨_, _, rfl⟩
  · next hmax =>
    have hbn : off / bSize < maxFile := by
      unfold maxFile nDirect nIndirect bSize direntSize dirSiz at *
      omega
    obtain ⟨⟨s₁, addr⟩, hb⟩ := bmap_ok s dp hbn
    rw [hb]
    exact ⟨_, _, rfl⟩

/-- `iget` panics, or changes no inode's data and nothing on the disk; the entry
it returns is shared or not valid, so an `iput` of it frees nothing. -/
theorem iget_cases (s : FsState π) (dev inum : Nat) :
    iget s dev inum = .panic "iget: no inodes" ∨
      ∃ s₁ ip, iget s dev inum = .ok (s₁, ip) ∧ (∀ i, (s₁.itable i).d = (s.itable i).d) ∧
        s₁.blk = s.blk ∧ s₁.bitmap = s.bitmap ∧ ¬((s₁.itable ip).ref = 1 ∧ (s₁.itable ip).valid = true) := by
  have hd : ∀ (i : Fin nInode) (f : Inode → Inode), (∀ e, (f e).d = e.d) →
      ∀ j, ((s.updI i f).itable j).d = (s.itable j).d := by
    intro i f hf j
    by_cases hj : j = i
    · subst hj
      rw [FsState.updI_itable_self, hf]
    · rw [FsState.updI_itable_of_ne _ _ hj]
  unfold iget
  split
  · next i hi =>
    -- a referenced entry holding the inode: one more reference
    have hpos : 0 < (s.itable i).ref := by
      have hm := List.find?_some hi
      simp only [Bool.and_eq_true, decide_eq_true_eq] at hm
      exact hm.1.1
    refine .inr ⟨_, i, rfl, hd i _ (fun _ => rfl), rfl, rfl, fun hc => ?_⟩
    simp only [FsState.updI_itable_self] at hc
    omega
  · split
    · next i _ =>
      -- a recycled entry, not valid
      exact .inr ⟨_, i, rfl, hd i _ (fun _ => rfl), rfl, rfl, by simp⟩
    · exact .inl rfl

theorem iput_of_not_last {s : FsState π} {ip : Fin nInode}
    (h : ¬((s.itable ip).ref = 1 ∧ (s.itable ip).valid = true)) :
    iput s ip = .ok (s.updI ip fun e => { e with ref := e.ref - 1 }) := by
  unfold iput
  rw [if_neg fun hc => h ⟨hc.1, hc.2.1⟩]
  rfl

/-- `dirlink` of a name the directory has: the `iget` in its `dirlookup`
panics, or it returns -1 and the directory's inode and the disk are as they
were. -/
theorem DirLayout.dirlink_present (h : DirLayout s dp) {name : Name}
    (hpresent : ∃ off ∈ dirOffsets s dp, matchesAt s dp name off = true) (inum : Nat) :
    dirlink s dp name inum = .panic "iget: no inodes" ∨
      ∃ s', dirlink s dp name inum = .ok (s', -1) ∧ (s'.itable dp).d = (s.itable dp).d ∧
        s'.blk = s.blk ∧ s'.bitmap = s.bitmap := by
  obtain ⟨o, ho, hm⟩ := hpresent
  obtain ⟨off, hf⟩ : ∃ off, (dirOffsets s dp).find? (matchesAt s dp name) = some off :=
    Option.isSome_iff_exists.1 (List.find?_isSome.2 ⟨o, ho, hm⟩)
  rcases iget_cases s (s.itable dp).dev (entryAt s dp off).inum with hg | ⟨s₁, ip, hg, hd, hb, hbm, hlast⟩
  · left
    unfold dirlink
    rw [h.dirlookup name, hf]
    dsimp only
    rw [hg]
    rfl
  · right
    have hlink : dirlink s dp name inum = (iput s₁ ip >>= fun s => pure (s, -1)) := by
      unfold dirlink
      rw [h.dirlookup name, hf]
      dsimp only
      rw [hg]
      rfl
    refine ⟨s₁.updI ip fun e => { e with ref := e.ref - 1 }, by rw [hlink, iput_of_not_last hlast]; rfl,
      ?_, hb, hbm⟩
    by_cases hi : dp = ip
    · subst hi
      simp [hd]
    · simp [hi, hd]

/-- The offsets after an entry at `off`, up to the old size, has been written:
the old ones and `off`. -/
theorem mem_dirOffsets_of_write {s' : FsState π} {off : Nat}
    (hoff : off ≤ (s.itable dp).d.size) (halign : off % direntSize = 0)
    (hsize : (s'.itable dp).d.size = max (s.itable dp).d.size (off + direntSize)) (o : Nat) :
    o ∈ dirOffsets s' dp ↔ o ∈ dirOffsets s dp ∨ o = off := by
  simp only [dirOffsets, mem_direntOffsets, hsize, lt_max_iff]
  constructor
  · rintro ⟨hmod, hlt⟩
    by_cases ho : o < (s.itable dp).d.size
    · exact .inl ⟨hmod, ho⟩
    · right
      unfold direntSize dirSiz at *
      omega
  · rintro (⟨hmod, hlt⟩ | rfl)
    · exact ⟨hmod, .inl hlt⟩
    · exact ⟨halign, .inr (by unfold direntSize dirSiz; omega)⟩

theorem dirOffsets_of_write {s' : FsState π} {off : Nat} (hal : (s.itable dp).d.size % direntSize = 0)
    (hoff : off ≤ (s.itable dp).d.size) (halign : off % direntSize = 0)
    (hsize : (s'.itable dp).d.size = max (s.itable dp).d.size (off + direntSize)) :
    dirOffsets s' dp = dirOffsets s dp ∨ dirOffsets s' dp = dirOffsets s dp ++ [off] := by
  unfold dirOffsets
  rw [hsize]
  by_cases hin : off + direntSize ≤ (s.itable dp).d.size
  · exact .inl (by rw [max_eq_left hin])
  · -- an entry at the end
    have hend : off = (s.itable dp).d.size := by
      unfold direntSize dirSiz at *
      omega
    right
    rw [max_eq_right (by omega), hend, direntOffsets_add hal]

/-- `dirlink` of a name the directory does not have is the `writei` of the new
entry at `freeOff`. -/
theorem DirLayout.dirlink_of_writei (h : DirLayout s dp) {name : Name}
    (habsent : ∀ off ∈ dirOffsets s dp, matchesAt s dp name off = false) {inum : Nat} (hlt : inum < 2 ^ 16)
    {s' : FsState π} {tot : Int} (hw : Fs.writei s dp ⟨inum, name.take dirSiz⟩ (freeOff s dp) = .ok (s', tot)) :
    dirlink s dp name inum = .ok (s', if tot ≠ direntSize then -1 else 0) := by
  have hnone : (dirOffsets s dp).find? (matchesAt s dp name) = none :=
    List.find?_eq_none.2 fun o ho => by simp [habsent o ho]
  have hscan : dirlinkScan dp s (direntOffsets (s.itable dp).d.size)
      ((direntOffsets (s.itable dp).d.size).length * direntSize) = .ok (s, freeOff s dp) := by
    rw [length_direntOffsets_mul h.aligned]
    exact dirlinkScan_eq fun o ho => h.readi ho
  unfold dirlink
  rw [h.dirlookup name, hnone]
  simp only [Result.ok_bind, hscan, Nat.mod_eq_of_lt hlt, hw]
  rfl

/-- `dirlink` of a name the directory does not have, with an inode number that
is not 0 and fits the `ushort` of `struct dirent`.  Either it returns -1 having
written nothing, which happens only when the entry would start a new block, or
it returns 0 having written the entry at `freeOff`; the directory is then the
map with `name` sent to `inum`, its names are still distinct, and `dirlookup`
finds the new entry. -/
theorem DirLayout.dirlink_absent (h : DirLayout s dp) (hdistinct : NamesDistinct s dp) {name : Name}
    (habsent : ∀ off ∈ dirOffsets s dp, matchesAt s dp name off = false) {inum : Nat} (hpos : 0 < inum)
    (hlt : inum < 2 ^ 16) :
    ∃ s' r, dirlink s dp name inum = .ok (s', r) ∧
      ((r = -1 ∧ freeOff s dp = (s.itable dp).d.size ∧ (s.itable dp).d.size % bSize = 0 ∧
          (maxFile * bSize < freeOff s dp + direntSize ∨ ∀ b < fsSize, s'.bitmap b = true) ∧
          (s'.itable dp).d.size = (s.itable dp).d.size ∧
          ∀ o ∈ dirOffsets s dp, entryAt s' dp o = entryAt s dp o) ∨
        (r = 0 ∧ (s'.itable dp).d.size = max (s.itable dp).d.size (freeOff s dp + direntSize) ∧
          entryAt s' dp (freeOff s dp) = ⟨inum, name.take dirSiz⟩ ∧
          (∀ o ∈ dirOffsets s dp, o ≠ freeOff s dp → entryAt s' dp o = entryAt s dp o) ∧
          (∀ n, dirMap s' dp n = if namecmp n name then some inum else dirMap s dp n) ∧
          DirLayout s' dp ∧ NamesDistinct s' dp ∧
          Fs.dirlookup s' dp name = (do
            let r ← iget s' (s'.itable dp).dev inum
            pure (r.1, some (r.2, freeOff s dp))))) := by
  obtain ⟨hoff, halign⟩ := h.freeOff_le
  obtain ⟨s', tot, hw⟩ := writei_ok s dp ⟨inum, name.take dirSiz⟩ (freeOff s dp)
  have hlink := h.dirlink_of_writei habsent hlt hw
  obtain ⟨hshort, hfull⟩ := h.writei hoff halign hw
  refine ⟨s', _, hlink, ?_⟩
  by_cases htot : tot = direntSize
  · right
    obtain ⟨hsize, hnew, hother, h'⟩ := hfull htot
    set off := freeOff s dp with hoffdef
    have hmem := mem_dirOffsets_of_write hoff halign hsize
    -- a free entry, when the new one is not appended
    have hfree : off ∈ dirOffsets s dp → (entryAt s dp off).inum = 0 := by
      intro ho
      rcases freeOff_cases s dp with ⟨-, hz⟩ | heq
      · exact hz
      · exact absurd (heq ▸ (mem_direntOffsets.1 ho).2) (Nat.lt_irrefl _)
    have hmatch_other : ∀ n, ∀ o ∈ dirOffsets s dp, o ≠ off → matchesAt s' dp n o = matchesAt s dp n o := by
      intro n o ho hne
      unfold matchesAt
      rw [hother o ho hne]
    have hmatch_new : ∀ n, matchesAt s' dp n off = namecmp n name := by
      intro n
      unfold matchesAt
      rw [hnew]
      simp [Nat.pos_iff_ne_zero.1 hpos, namecmp_take_right]
    -- an old entry in use under a name `namecmp` takes as `name` would be found by `dirlookup`
    have hnot : ∀ n, namecmp n name = true → ∀ o ∈ dirOffsets s dp, matchesAt s dp n o = false := by
      intro n hn o ho
      have ha := habsent o ho
      unfold matchesAt at ha ⊢
      cases hlive : ((entryAt s dp o).inum != 0)
      · rfl
      · cases hno : namecmp n (entryAt s dp o).name
        · rfl
        · rw [hlive, namecmp_trans (by rw [namecmp_comm]; exact hn) hno] at ha
          cases ha
    have hfind : ∀ n, namecmp n name = true → (dirOffsets s' dp).find? (matchesAt s' dp n) = some off := by
      intro n hn
      refine Scan.find?_eq_some_of_unique ((hmem off).2 (.inr rfl)) (by rw [hmatch_new]; exact hn) ?_
      intro o ho hmo
      by_contra hne
      have ho' := ((hmem o).1 ho).resolve_right hne
      rw [hmatch_other n o ho' hne, hnot n hn o ho'] at hmo
      cases hmo
    refine ⟨by simp [htot], hsize, hnew, hother, fun n => ?_, h', ?_, ?_⟩
    · -- the map: `name` now goes to `inum`, every other name where it went
      unfold dirMap
      by_cases hn : namecmp n name = true
      · rw [if_pos hn, hfind n hn, Option.map_some, hnew]
      · have hn' : namecmp n name = false := by simpa using hn
        rw [if_neg hn]
        have hcongr : (dirOffsets s dp).find? (matchesAt s' dp n) =
            (dirOffsets s dp).find? (matchesAt s dp n) := by
          refine Scan.find?_congr fun o ho => ?_
          by_cases hne : o = off
          · subst hne
            rw [hmatch_new, hn']
            simp [matchesAt, hfree ho]
          · exact hmatch_other n o ho hne
        have hfindeq : (dirOffsets s' dp).find? (matchesAt s' dp n) =
            (dirOffsets s dp).find? (matchesAt s dp n) := by
          rcases dirOffsets_of_write h.aligned hoff halign hsize with heq | heq
          · rw [heq, hcongr]
          · rw [heq, List.find?_append, List.find?_singleton, hmatch_new, hn', hcongr]
            simp
        rw [hfindeq]
        cases hf : (dirOffsets s dp).find? (matchesAt s dp n) with
        | none => rfl
        | some o =>
          have ho := List.mem_of_find?_eq_some hf
          have hne : o ≠ off := by
            rintro rfl
            have hmo := List.find?_some hf
            simp [matchesAt, hfree ho] at hmo
          simp [hother o ho hne]
    · -- names stay distinct: the new one is no old one's
      intro o₁ ho₁ o₂ ho₂ hlive hm
      by_cases h₁ : o₁ = off <;> by_cases h₂ : o₂ = off
      · rw [h₁, h₂]
      · have ho₂' := ((hmem o₂).1 ho₂).resolve_right h₂
        rw [h₁, hnew, hmatch_other _ o₂ ho₂' h₂] at hm
        have := hnot (name.take dirSiz) (namecmp_take_left name name ▸ namecmp_self name) o₂ ho₂'
        rw [hm] at this
        cases this
      · have ho₁' := ((hmem o₁).1 ho₁).resolve_right h₁
        rw [h₂, hmatch_new, hother o₁ ho₁' h₁] at hm
        rw [hother o₁ ho₁' h₁] at hlive
        have := habsent o₁ ho₁'
        simp [matchesAt, hlive, namecmp_comm name, hm] at this
      · have ho₁' := ((hmem o₁).1 ho₁).resolve_right h₁
        have ho₂' := ((hmem o₂).1 ho₂).resolve_right h₂
        rw [hother o₁ ho₁' h₁] at hlive hm
        rw [hmatch_other _ o₂ ho₂' h₂] at hm
        exact hdistinct o₁ ho₁' o₂ ho₂' hlive hm
    · rw [h'.dirlookup name, hfind name (namecmp_self name)]
      dsimp only
      rw [hnew]
  · left
    obtain ⟨hoff', hmod, hnoblock, hsize, hsame⟩ := hshort htot
    exact ⟨by simp [htot], hoff', hmod, hnoblock, hsize, hsame⟩

end Link

end Xv6.Fs
