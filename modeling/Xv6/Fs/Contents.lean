import Mathlib
import Xv6.Fs.Data
import Xv6.Vm.Copyin
import Xv6.Lib.Patch

/-
  Xv6/Fs/Contents.lean --- the bytes of a file, and what `readi` and `writei`
  (kernel/fs.c) do to them.

  Abstractly a file is a list of bytes (Lib/Patch.lean): a write of `ys` at an
  offset no larger than its length is `patch`, and a read is a slice.  On the
  disk of Data.lean the bytes live in the blocks `bmap` finds: byte `p` is at
  offset `p % BSIZE` of block `p / BSIZE` of the inode, or 0 in a hole
  (`fileByte`), and `contents` lists the first `ip->size` of them.

  `Layout` is what `balloc` and `bmap` keep of an inode: every block it reaches
  is marked in the free map, its data blocks are distinct and none is its
  indirect block, every block below the size is there, and the size is at most
  MAXFILE blocks.  Under it `bmap` only fills holes with zeroed blocks, so it
  changes no byte of the file (`Layout.bmap`, a `Fills`).  The rounds of
  `writei` are summed up by `Wrote`, over every way the loop ends: a full
  disk, a failed `copyin` that left part of its bytes in the buffer, or all
  `n` bytes copied.  Every `writei` changes no byte outside `[off, off + n)`
  (`writei_frame`); one that writes all its `n` bytes is `patch` of the bytes
  `copyin` read (`writei_contents`); `readi` returns a slice and changes
  nothing (`readi_contents`); so what `writei` wrote reads back, and the rest
  of the file reads as before (`writei_readi`).

  The entries of the indirect block are `uint`s, so the superblock's size is
  taken to be at most 2^32, as its `uint` is.
-/

set_option autoImplicit false

namespace Xv6.Fs.Data

open Machine Memory Xv6.Vm

/-! ## The file's bytes -/

/-- Byte `p` of the file as `readi` finds it: at offset `p % BSIZE` of the
block holding it, or 0 in a hole, which `readi`'s `bmap` fills with a zeroed
block. -/
def fileByte (d : Disk) (ip : Ino) (p : Nat) : UInt8 :=
  if slot d ip (p / bSize) = 0 then 0 else d.data (slot d ip (p / bSize)) (p % bSize)

/-- The bytes of the file. -/
def contents (d : Disk) (ip : Ino) : List UInt8 := (List.range ip.size).map (fileByte d ip)

/-- A block the inode reaches: its indirect block, or one of its data blocks
below MAXFILE. -/
def Reaches (d : Disk) (ip : Ino) (b : Nat) : Prop :=
  b ≠ 0 ∧ (b = ip.addrs nDirect ∨ ∃ bn < maxFile, slot d ip bn = b)

/-- How `balloc` and `bmap` leave an inode. -/
structure Layout (d : Disk) (ip : Ino) : Prop where
  /-- every block the inode reaches is marked in the free map -/
  marked : ∀ b, Reaches d ip b → d.bitmap b = true
  /-- no two of its data blocks are one block -/
  inj : ∀ bn bn', bn < maxFile → bn' < maxFile → slot d ip bn ≠ 0 → slot d ip bn = slot d ip bn' → bn = bn'
  /-- and none is its indirect block -/
  ind : ∀ bn, bn < maxFile → slot d ip bn ≠ 0 → slot d ip bn ≠ ip.addrs nDirect
  holes : NoHoles d ip
  size : ip.size ≤ maxFile * bSize

/-- `d'`, `ip'` is `d`, `ip` with holes filled by zeroed blocks: the same
bytes, and every block that was there still there. -/
structure Fills (d : Disk) (ip : Ino) (d' : Disk) (ip' : Ino) : Prop where
  layout : Layout d' ip'
  size : ip'.size = ip.size
  bytes : ∀ p, p / bSize < maxFile → fileByte d' ip' p = fileByte d ip p
  keep : ∀ bn, bn < maxFile → slot d ip bn ≠ 0 → slot d' ip' bn = slot d ip bn

section Frame

variable {d d' : Disk} {ip ip' : Ino}

theorem Fills.refl (h : Layout d ip) : Fills d ip d ip :=
  ⟨h, rfl, fun _ _ => rfl, fun _ _ _ => rfl⟩

theorem Fills.trans {d'' : Disk} {ip'' : Ino} (h : Fills d ip d' ip') (h' : Fills d' ip' d'' ip'') :
    Fills d ip d'' ip'' where
  layout := h'.layout
  size := h'.size.trans h.size
  bytes p hp := (h'.bytes p hp).trans (h.bytes p hp)
  keep bn hbn hs := (h'.keep bn hbn ((h.keep bn hbn hs).symm ▸ hs)).trans (h.keep bn hbn hs)

/-- The layout depends on the slots, the indirect block, the size and the
marked bits only. -/
theorem Layout.congr (h : Layout d ip) (hslot : ∀ bn, slot d' ip' bn = slot d ip bn)
    (hind : ip'.addrs nDirect = ip.addrs nDirect) (hsize : ip'.size = ip.size)
    (hbit : ∀ b, d.bitmap b = true → d'.bitmap b = true) : Layout d' ip' where
  marked b hb := by
    apply hbit
    apply h.marked
    obtain ⟨hb0, hr⟩ := hb
    refine ⟨hb0, ?_⟩
    rcases hr with hr | ⟨bn, hbn, hs⟩
    · exact .inl (hr.trans hind)
    · exact .inr ⟨bn, hbn, (hslot bn).symm.trans hs⟩
  inj bn bn' hbn hbn' hs heq := by
    rw [hslot, hslot] at heq
    exact h.inj bn bn' hbn hbn' (hslot bn ▸ hs) heq
  ind bn hbn hs := by
    rw [hslot, hind]
    exact h.ind bn hbn (hslot bn ▸ hs)
  holes bn hbn := by
    rw [hslot]
    exact h.holes bn (hsize ▸ hbn)
  size := hsize ▸ h.size

/-- A block whose bit is clear is none the inode reaches. -/
theorem Layout.ne_of_free (h : Layout d ip) {b c : Nat} (hb : d.bitmap b = false) (hc : Reaches d ip c) :
    b ≠ c := by
  rintro rfl
  rw [h.marked b hc] at hb
  cases hb

/-- A data block below MAXFILE that is there is reached. -/
theorem reaches_slot {bn : Nat} (hbn : bn < maxFile) (hs : slot d ip bn ≠ 0) : Reaches d ip (slot d ip bn) :=
  ⟨hs, .inr ⟨bn, hbn, rfl⟩⟩

theorem slot_logWrite (b : Nat) : slot (logWrite d b) ip = slot d ip := rfl

theorem fileByte_logWrite (b : Nat) : fileByte (logWrite d b) ip = fileByte d ip := rfl

theorem Layout.log (h : Layout d ip) (b : Nat) : Layout (logWrite d b) ip :=
  h.congr (fun _ => rfl) rfl rfl fun _ hb => hb

/-- A write to a block other than the indirect block keeps every slot. -/
theorem slot_write {b : Nat} (hb : b ≠ ip.addrs nDirect) (off : Nat) (bs : List UInt8) (bn : Nat) :
    slot (d.write b off bs) ip bn = slot d ip bn := by
  unfold slot
  split_ifs
  · rfl
  · rfl
  · exact indEntry_write_of_ne hb off bs _

/-- Writing into the data block of `bn` changes the bytes of that block only. -/
theorem Layout.fileByte_write (h : Layout d ip) {bn : Nat} (hbn : bn < maxFile) (hs : slot d ip bn ≠ 0)
    (off : Nat) (bs : List UInt8) {p : Nat} (hp : p / bSize < maxFile) :
    fileByte (d.write (slot d ip bn) off bs) ip p =
      if p / bSize = bn then writeBytes (d.data (slot d ip bn)) off bs (p % bSize) else fileByte d ip p := by
  unfold fileByte
  rw [slot_write (h.ind bn hbn hs) off bs]
  by_cases hpb : p / bSize = bn
  · subst hpb
    simp [hs, Disk.write]
  · -- another block of the file, or a hole
    rw [if_neg hpb]
    by_cases h0 : slot d ip (p / bSize) = 0
    · simp only [h0, if_true]
    · have hne : slot d ip (p / bSize) ≠ slot d ip bn := fun heq => hpb (h.inj _ _ hp hbn h0 heq)
      simp [h0, Disk.write, Function.update_of_ne hne]

theorem Layout.write (h : Layout d ip) {bn : Nat} (hbn : bn < maxFile) (hs : slot d ip bn ≠ 0) (off : Nat)
    (bs : List UInt8) : Layout (d.write (slot d ip bn) off bs) ip :=
  h.congr (slot_write (h.ind bn hbn hs) off bs) rfl rfl fun _ hb => hb

end Frame

/-! ## What balloc hands out -/

/-- What `balloc` leaves when it hands out block `b`: its bit set, its bitmap
block logged, and the block zeroed. -/
def claimed (sb : Superblock) (d : Disk) (b : Nat) : Disk :=
  bzero (logWrite { d with bitmap := Function.update d.bitmap b true } (bblock b sb)) b

/-- `balloc` changes nothing and returns 0, or hands out a block below the
size whose bit was clear. -/
theorem balloc_eq {sb : Superblock} {d d' : Disk} {b : Nat} (h : balloc sb d = (d', b)) :
    (d' = d ∧ b = 0) ∨ (d.bitmap b = false ∧ b < sb.size ∧ d' = claimed sb d b) := by
  unfold balloc at h
  split at h
  · rename_i c hc
    cases h
    have hfree := List.find?_some hc
    have hmem := List.mem_range.1 (List.mem_of_find?_eq_some hc)
    simp only [Bool.not_eq_eq_eq_not, Bool.not_true] at hfree
    exact .inr ⟨hfree, hmem, rfl⟩
  · cases h
    exact .inl ⟨rfl, rfl⟩

section Claim

variable {sb : Superblock} {d : Disk} {ip : Ino} {b c : Nat}

@[simp] theorem claimed_bitmap_self : (claimed sb d b).bitmap b = true := by
  simp [claimed, bzero, logWrite]

theorem claimed_bitmap_of (hc : d.bitmap c = true) : (claimed sb d b).bitmap c = true := by
  by_cases hcb : c = b
  · subst hcb
    exact claimed_bitmap_self
  · simpa [claimed, bzero, logWrite, Function.update_of_ne hcb] using hc

@[simp] theorem claimed_data_self (o : Nat) : (claimed sb d b).data b o = 0 := by
  simp [claimed, bzero, logWrite]

theorem claimed_data_of_ne (hcb : c ≠ b) : (claimed sb d b).data c = d.data c := by
  simp [claimed, bzero, logWrite, Function.update_of_ne hcb]

theorem fileByte_eq_of_slot {ip' : Ino} (hs : ∀ bn, slot d ip' bn = slot d ip bn) : fileByte d ip' = fileByte d ip := by
  funext p
  simp only [fileByte, hs]

/-- Handing out a block the inode does not reach keeps its slots. -/
theorem Layout.slot_claimed (h : Layout d ip) (hb : d.bitmap b = false) (bn : Nat) :
    slot (claimed sb d b) ip bn = slot d ip bn := by
  unfold slot
  split_ifs with h1 h2
  · rfl
  · rfl
  · -- the indirect block is marked, so it is not `b`
    have hne : b ≠ ip.addrs nDirect := h.ne_of_free hb ⟨h2, .inl rfl⟩
    exact indEntry_bzero_of_ne hne _

/-- A data block the inode reaches is not a block whose bit is clear. -/
theorem Layout.slot_ne_free (h : Layout d ip) (hb : d.bitmap b = false) {bn : Nat} (hbn : bn < maxFile)
    (hs : slot d ip bn ≠ 0) : slot d ip bn ≠ b :=
  (h.ne_of_free hb (reaches_slot hbn hs)).symm

theorem Layout.claim (h : Layout d ip) (hb : d.bitmap b = false) : Fills d ip (claimed sb d b) ip where
  layout := h.congr (h.slot_claimed hb) rfl rfl fun _ => claimed_bitmap_of
  size := rfl
  bytes p hp := by
    unfold fileByte
    rw [h.slot_claimed hb]
    by_cases h0 : slot d ip (p / bSize) = 0
    · simp only [h0, if_true]
    · simp only [h0, if_false, claimed_data_of_ne (h.slot_ne_free hb hp h0)]
  keep bn _ _ := h.slot_claimed hb bn

/-- Whatever `balloc` does, the inode's bytes and layout stay. -/
theorem Layout.balloc (h : Layout d ip) {d' : Disk} (hb : balloc sb d = (d', b)) : Fills d ip d' ip := by
  rcases balloc_eq hb with ⟨rfl, -⟩ | ⟨hfree, -, rfl⟩
  · exact Fills.refl h
  · exact h.claim hfree

end Claim

/-! ## Linking a fresh block -/

section Link

variable {sb : Superblock} {d d' : Disk} {ip ip' : Ino} {b : Nat}

theorem Layout.lt_maxFile (h : Layout d ip) {bn : Nat} (hbn : bn * bSize < ip.size) : bn < maxFile :=
  Nat.lt_of_mul_lt_mul_right (lt_of_lt_of_le hbn h.size)

/-- A fresh block is not the indirect block. -/
theorem Layout.free_ne_ind (h : Layout d ip) (hb : d.bitmap b = false) (hb0 : b ≠ 0) : b ≠ ip.addrs nDirect := by
  by_cases hind : ip.addrs nDirect = 0
  · rw [hind]
    exact hb0
  · exact h.ne_of_free hb ⟨hind, .inl rfl⟩

/-- Block `k` of the inode, missing before, linked to the fresh block `b`,
which is now marked and reads as zeros, with the other data blocks unchanged:
the bytes and the layout stay. -/
theorem Layout.link (h : Layout d ip) {k : Nat} (hk0 : slot d ip k = 0) (hb : d.bitmap b = false) (hb0 : b ≠ 0)
    (hslot : ∀ bn < maxFile, slot d' ip' bn = if bn = k then b else slot d ip bn)
    (hind : ip'.addrs nDirect = ip.addrs nDirect) (hsize : ip'.size = ip.size)
    (hmark : d'.bitmap b = true) (hbit : ∀ c, d.bitmap c = true → d'.bitmap c = true)
    (hzero : ∀ o, d'.data b o = 0)
    (hdata : ∀ bn < maxFile, slot d ip bn ≠ 0 → d'.data (slot d ip bn) = d.data (slot d ip bn)) :
    Fills d ip d' ip' where
  layout :=
    { marked := by
        rintro c ⟨hc0, hc | ⟨bn, hbn, hs⟩⟩
        · exact hbit c (h.marked c ⟨hc0, .inl (hc.trans hind)⟩)
        · rw [hslot bn hbn] at hs
          split_ifs at hs with hbk
          · exact hs ▸ hmark
          · exact hbit c (h.marked c ⟨hc0, .inr ⟨bn, hbn, hs⟩⟩)
      inj := by
        intro bn bn' hbn hbn' hs heq
        rw [hslot bn hbn, hslot bn' hbn'] at heq
        rw [hslot bn hbn] at hs
        -- the fresh block is no old data block, so it meets only itself
        by_cases hbk : bn = k <;> by_cases hbk' : bn' = k
        · exact hbk.trans hbk'.symm
        · rw [if_pos hbk, if_neg hbk'] at heq
          exact absurd heq.symm (h.slot_ne_free hb hbn' (heq ▸ hb0))
        · rw [if_neg hbk, if_pos hbk'] at heq
          rw [if_neg hbk] at hs
          exact absurd heq (h.slot_ne_free hb hbn hs)
        · rw [if_neg hbk, if_neg hbk'] at heq
          rw [if_neg hbk] at hs
          exact h.inj bn bn' hbn hbn' hs heq
      ind := by
        intro bn hbn hs
        rw [hslot bn hbn, hind]
        rw [hslot bn hbn] at hs
        split_ifs at hs ⊢ with hbk
        · exact h.free_ne_ind hb hb0
        · exact h.ind bn hbn hs
      holes := by
        intro bn hbn
        rw [hsize] at hbn
        rw [hslot bn (h.lt_maxFile hbn)]
        split_ifs
        · exact hb0
        · exact h.holes bn hbn
      size := hsize ▸ h.size }
  size := hsize
  bytes p hp := by
    unfold fileByte
    rw [hslot _ hp]
    by_cases hpk : p / bSize = k
    · rw [if_pos hpk, hpk, hk0, if_neg hb0, hzero, if_pos rfl]
    · rw [if_neg hpk]
      by_cases h0 : slot d ip (p / bSize) = 0
      · simp only [h0, if_true]
      · rw [if_neg h0, if_neg h0, hdata _ hp h0]
  keep bn hbn hs := by
    rw [hslot bn hbn, if_neg]
    rintro rfl
    exact hs hk0

/-- Setting a direct address changes that block's slot only. -/
theorem slot_setAddr {k : Nat} (hk : k < nDirect) (v bn : Nat) :
    slot d { ip with addrs := Function.update ip.addrs k v } bn = if bn = k then v else slot d ip bn := by
  unfold slot
  by_cases hbn : bn < nDirect
  · simp only [hbn, if_true, Function.update_apply]
  · have hbk : bn ≠ k := by omega
    have hnk : nDirect ≠ k := by omega
    simp only [hbn, if_false, hbk, Function.update_of_ne hnk]

/-- Setting an entry of the indirect block changes that block's slot only. -/
theorem slot_setIndEntry (hind : ip.addrs nDirect ≠ 0) {e v : Nat} (hv : v < 2 ^ 32) (bn : Nat) :
    slot (setIndEntry d (ip.addrs nDirect) e v) ip bn = if bn = nDirect + e then v else slot d ip bn := by
  unfold slot
  by_cases hbn : bn < nDirect
  · simp only [hbn, if_true, show bn ≠ nDirect + e by omega, if_false]
  · rw [if_neg hbn, if_neg hind, if_neg hbn, if_neg hind]
    by_cases he : bn = nDirect + e
    · rw [if_pos he, show bn - nDirect = e by omega]
      simp only [indEntry, setIndEntry, Function.update_self, loadLE_storeLE]
      exact Nat.mod_eq_of_lt (by norm_num at hv ⊢; exact hv)
    · rw [if_neg he]
      exact indEntry_setIndEntry_of_ne (by omega) v

/-- `allocAddr` of a direct block fills it, when it is missing and the disk
has a block, with a fresh zeroed one. -/
theorem Layout.allocDirect (h : Layout d ip) {k a : Nat} (hk : k < nDirect)
    (ha : allocAddr sb d ip k = (d', ip', a)) : Fills d ip d' ip' ∧ (a ≠ 0 → slot d' ip' k = a) := by
  unfold allocAddr at ha
  by_cases hk0 : ip.addrs k = 0
  · rw [if_pos hk0] at ha
    rcases hb : Data.balloc sb d with ⟨d1, b⟩
    rw [hb] at ha
    dsimp only at ha
    by_cases hb0 : b = 0
    -- the disk is full, or `balloc` handed out block 0: nothing is linked
    · rw [if_pos hb0, Prod.mk.injEq, Prod.mk.injEq] at ha
      obtain ⟨rfl, rfl, rfl⟩ := ha
      exact ⟨h.balloc hb, fun ha0 => absurd rfl ha0⟩
    · rw [if_neg hb0, Prod.mk.injEq, Prod.mk.injEq] at ha
      obtain ⟨rfl, rfl, rfl⟩ := ha
      obtain ⟨-, rfl⟩ | ⟨hfree, -, rfl⟩ := balloc_eq hb
      · exact absurd rfl hb0
      have hslot : ∀ bn, slot (Data.claimed sb d b) { ip with addrs := Function.update ip.addrs k b } bn =
          if bn = k then b else slot d ip bn := fun bn => by
        rw [slot_setAddr hk, h.slot_claimed hfree]
      refine ⟨h.link (show slot d ip k = 0 by simp [slot, hk, hk0]) hfree hb0 (fun bn _ => hslot bn)
        (Function.update_of_ne (by omega) _ _) rfl claimed_bitmap_self (fun _ => claimed_bitmap_of)
        claimed_data_self fun bn hbn hs => claimed_data_of_ne (h.slot_ne_free hfree hbn hs), fun _ => ?_⟩
      rw [hslot, if_pos rfl]
  · rw [if_neg hk0, Prod.mk.injEq, Prod.mk.injEq] at ha
    obtain ⟨rfl, rfl, rfl⟩ := ha
    exact ⟨Fills.refl h, fun _ => by simp [slot, hk]⟩

/-- `allocAddr` of the indirect block: when it is missing and the disk has a
block, a fresh zeroed one, behind which every entry reads 0, so no slot moves. -/
theorem Layout.allocInd (h : Layout d ip) {ind : Nat} (ha : allocAddr sb d ip nDirect = (d', ip', ind)) :
    Fills d ip d' ip' ∧ ip'.addrs nDirect = ind := by
  unfold allocAddr at ha
  by_cases hk0 : ip.addrs nDirect = 0
  · rw [if_pos hk0] at ha
    rcases hb : Data.balloc sb d with ⟨d1, b⟩
    rw [hb] at ha
    dsimp only at ha
    by_cases hb0 : b = 0
    · rw [if_pos hb0, Prod.mk.injEq, Prod.mk.injEq] at ha
      obtain ⟨rfl, rfl, rfl⟩ := ha
      exact ⟨h.balloc hb, hk0⟩
    · rw [if_neg hb0, Prod.mk.injEq, Prod.mk.injEq] at ha
      obtain ⟨rfl, rfl, rfl⟩ := ha
      obtain ⟨-, rfl⟩ | ⟨hfree, -, rfl⟩ := balloc_eq hb
      · exact absurd rfl hb0
      -- behind the new indirect block every entry is 0, as behind none
      have hslot : ∀ bn, slot (Data.claimed sb d b) { ip with addrs := Function.update ip.addrs nDirect b } bn =
          slot (Data.claimed sb d b) ip bn := fun bn => by
        unfold slot
        by_cases hbn : bn < nDirect
        · simp only [hbn, if_true, Function.update_of_ne (show bn ≠ nDirect by omega)]
        · simp only [hbn, if_false, Function.update_self, hb0, hk0, if_true]
          exact indEntry_bzero _ b _
      have hnew : ({ ip with addrs := Function.update ip.addrs nDirect b } : Ino).addrs nDirect = b :=
        Function.update_self nDirect b ip.addrs
      have hc : Fills d ip (Data.claimed sb d b) ip := h.claim hfree
      refine ⟨⟨?_, rfl, ?_, ?_⟩, hnew⟩
      · refine
          { marked := ?_
            inj := fun bn bn' hbn hbn' hs heq => by
              rw [hslot, hslot] at heq
              exact hc.layout.inj bn bn' hbn hbn' (hslot bn ▸ hs) heq
            ind := fun bn hbn hs => by
              rw [hslot, hnew, h.slot_claimed hfree]
              rw [hslot, h.slot_claimed hfree] at hs
              exact h.slot_ne_free hfree hbn hs
            holes := fun bn hbn => by
              rw [hslot]
              exact hc.layout.holes bn hbn
            size := h.size }
        rintro c ⟨hc0, hcind | ⟨bn, hbn, hs⟩⟩
        · rw [hcind, hnew]
          exact claimed_bitmap_self
        · rw [hslot] at hs
          exact hc.layout.marked c ⟨hc0, .inr ⟨bn, hbn, hs⟩⟩
      · intro p hp
        rw [fileByte_eq_of_slot hslot]
        exact hc.bytes p hp
      · intro bn hbn hs
        rw [hslot]
        exact hc.keep bn hbn hs
  · rw [if_neg hk0, Prod.mk.injEq, Prod.mk.injEq] at ha
    obtain ⟨rfl, rfl, rfl⟩ := ha
    exact ⟨Fills.refl h, rfl⟩

/-- An entry of the indirect block, 0 before, filled by a fresh zeroed block. -/
theorem Layout.allocEntry (h : Layout d ip) (hsb : sb.size ≤ 2 ^ 32) {bn : Nat} (h1 : nDirect ≤ bn) (hind : ip.addrs nDirect ≠ 0)
    (he : indEntry d (ip.addrs nDirect) (bn - nDirect) = 0) (hb : Data.balloc sb d = (d', b)) (hb0 : b ≠ 0) :
    Fills d ip (logWrite (setIndEntry d' (ip.addrs nDirect) (bn - nDirect) b) (ip.addrs nDirect)) ip ∧
      slot (logWrite (setIndEntry d' (ip.addrs nDirect) (bn - nDirect) b) (ip.addrs nDirect)) ip bn = b := by
  obtain ⟨-, rfl⟩ | ⟨hfree, hlt, rfl⟩ := balloc_eq hb
  · exact absurd rfl hb0
  have hbi : b ≠ ip.addrs nDirect := h.free_ne_ind hfree hb0
  have hslot : ∀ bn', slot (logWrite (setIndEntry (Data.claimed sb d b) (ip.addrs nDirect) (bn - nDirect) b)
      (ip.addrs nDirect)) ip bn' = if bn' = bn then b else slot d ip bn' := fun bn' => by
    rw [slot_logWrite, slot_setIndEntry hind (lt_of_lt_of_le hlt hsb), h.slot_claimed hfree,
      show nDirect + (bn - nDirect) = bn by omega]
  -- only the indirect block's buffer changes beside the fresh block
  have hdata : ∀ c, c ≠ ip.addrs nDirect → (logWrite (setIndEntry (Data.claimed sb d b) (ip.addrs nDirect)
      (bn - nDirect) b) (ip.addrs nDirect)).data c = (Data.claimed sb d b).data c := fun c hc => by
    simp [logWrite, setIndEntry, Function.update_of_ne hc]
  refine ⟨h.link (show slot d ip bn = 0 by simp [slot, Nat.not_lt.2 h1, hind, he]) hfree hb0
    (fun bn' _ => hslot bn') rfl rfl (claimed_bitmap_self : (Data.claimed sb d b).bitmap b = true)
    (fun c hc => (claimed_bitmap_of hc : (Data.claimed sb d b).bitmap c = true))
    (fun o => ?_)
    (fun bn' hbn' hs => ?_), ?_⟩
  · rw [hdata b hbi]
    exact claimed_data_self o
  · rw [hdata _ (h.ind bn' hbn' hs)]
    exact claimed_data_of_ne (h.slot_ne_free hfree hbn' hs)
  · rw [hslot, if_pos rfl]

end Link

/-! ## bmap -/

section Bmap

variable {sb : Superblock} {d d' : Disk} {ip ip' : Ino} {bn a : Nat}

/-- `bmap` keeps the inode's bytes and layout: it only fills holes with fresh
zeroed blocks.  It returns only below MAXFILE, and a block it returns is the
slot of `bn`. -/
theorem Layout.bmap (h : Layout d ip) (hsb : sb.size ≤ 2 ^ 32) (hb : bmap sb d ip bn = .ok (d', ip', a)) :
    Fills d ip d' ip' ∧ bn < maxFile ∧ (a ≠ 0 → slot d' ip' bn = a) := by
  unfold Data.bmap at hb
  by_cases h1 : bn < nDirect
  · rw [if_pos h1] at hb
    obtain ⟨hf, ha⟩ := h.allocDirect h1 (Result.ok.inj hb)
    exact ⟨hf, by unfold maxFile; omega, ha⟩
  rw [if_neg h1] at hb
  by_cases h2 : bn - nDirect < nIndirect
  swap
  · rw [if_neg h2] at hb
    cases hb
  have hbn : bn < maxFile := by unfold maxFile; omega
  rw [if_pos h2] at hb
  rcases hr : allocAddr sb d ip nDirect with ⟨d1, ip1, ind⟩
  obtain ⟨hf1, hind1⟩ := h.allocInd hr
  rw [hr] at hb
  dsimp only at hb
  by_cases hind : ind = 0
  -- no indirect block: nothing more
  · rw [if_pos hind] at hb
    cases hb
    exact ⟨hf1, hbn, fun ha => absurd hind ha⟩
  rw [if_neg hind] at hb
  have hslot1 : slot d1 ip1 bn = indEntry d1 ind (bn - nDirect) := by
    simp [slot, h1, hind1, hind]
  by_cases he : indEntry d1 ind (bn - nDirect) = 0
  · rw [if_pos he] at hb
    rcases hb2 : Data.balloc sb d1 with ⟨d2, b⟩
    rw [hb2] at hb
    dsimp only at hb
    by_cases hb0 : b = 0
    · rw [if_pos hb0] at hb
      cases hb
      exact ⟨hf1.trans (hf1.layout.balloc hb2), hbn, fun ha => absurd rfl ha⟩
    · rw [if_neg hb0] at hb
      cases hb
      subst hind1
      obtain ⟨hf2, hs2⟩ := hf1.layout.allocEntry hsb (Nat.not_lt.1 h1) hind he hb2 hb0
      exact ⟨hf1.trans hf2, hbn, fun _ => hs2⟩
  · rw [if_neg he] at hb
    cases hb
    exact ⟨hf1, hbn, fun _ => hslot1⟩

end Bmap

/-! ## writei -/

/-- The bytes `[off, off + m)` of a round, which stays in the block of `off`. -/
theorem chunk_of_mem {off m p : Nat} (hm : off % bSize + m ≤ bSize) (hp1 : off ≤ p) (hp2 : p < off + m) :
    p / bSize = off / bSize ∧ p % bSize = off % bSize + (p - off) := by
  unfold bSize at *
  omega

theorem chunk_of_not_mem {off m p : Nat} (hblk : p / bSize = off / bSize) (hp : p < off ∨ off + m ≤ p) :
    p % bSize < off % bSize ∨ off % bSize + m ≤ p % bSize := by
  unfold bSize at *
  omega

theorem getD_userBytes (um : Mem) (pagetable src : Nat) {m i : Nat} (hi : i < m) :
    (userBytes um pagetable src m).getD i 0 = userByte um pagetable (src + i) := by
  simp [userBytes, hi]

section Round

variable {d : Disk} {ip : Ino} {off : Nat} {bs : List UInt8}

/-- A round writes its bytes into the block of `off` ... -/
theorem Layout.fileByte_round_of_mem (h : Layout d ip) (hbn : off / bSize < maxFile)
    (hs : slot d ip (off / bSize) ≠ 0) (hm : off % bSize + bs.length ≤ bSize) {p : Nat} (hp1 : off ≤ p)
    (hp2 : p < off + bs.length) :
    fileByte (d.write (slot d ip (off / bSize)) (off % bSize) bs) ip p = bs.getD (p - off) 0 := by
  obtain ⟨hblk, hmod⟩ := chunk_of_mem hm hp1 hp2
  rw [h.fileByte_write hbn hs _ _ (hblk ▸ hbn), if_pos hblk, hmod,
    writeBytes_getElem _ _ _ _ (by omega), List.getD_eq_getElem]

/-- ... and leaves every other byte of the file as it was. -/
theorem Layout.fileByte_round_of_not_mem (h : Layout d ip) (hbn : off / bSize < maxFile)
    (hs : slot d ip (off / bSize) ≠ 0) {p : Nat} (hp : p / bSize < maxFile) (hout : p < off ∨ off + bs.length ≤ p) :
    fileByte (d.write (slot d ip (off / bSize)) (off % bSize) bs) ip p = fileByte d ip p := by
  rw [h.fileByte_write hbn hs _ _ hp]
  by_cases hblk : p / bSize = off / bSize
  · rw [if_pos hblk, writeBytes_of_lt_or_le _ _ _ (chunk_of_not_mem hblk hout)]
    simp only [fileByte, hblk, hs, if_false]
  · rw [if_neg hblk]

end Round

/-- What the rounds of `writei` from `off` leave: the layout and the size; the
bytes `[off, off')` copied from `src`, below MAXFILE and in blocks that are
there; outside `[off, hi)` every byte as it was; and every block that was
there still there.  Between `off'` and `hi` a failed copy may have left part of
its bytes in the buffer. -/
structure Wrote (um : Mem) (pagetable : Nat) (d : Disk) (ip : Ino) (src off off' hi : Nat) (d' : Disk)
    (ip' : Ino) : Prop where
  layout : Layout d' ip'
  size : ip'.size = ip.size
  copied : ∀ p, off ≤ p → p < off' →
    p / bSize < maxFile ∧ slot d' ip' (p / bSize) ≠ 0 ∧ fileByte d' ip' p = userByte um pagetable (src + (p - off))
  frame : ∀ p, p / bSize < maxFile → p < off ∨ hi ≤ p → fileByte d' ip' p = fileByte d ip p
  keep : ∀ bn, bn < maxFile → slot d ip bn ≠ 0 → slot d' ip' bn = slot d ip bn

section Wrote

variable {um : Mem} {pagetable : Nat} {d d1 d' : Disk} {ip ip1 ip' : Ino} {src off off' hi : Nat}

/-- Rounds that stopped where they began, after `bmap` filled holes. -/
theorem Fills.wrote (h : Fills d ip d' ip') : Wrote um pagetable d ip src off off hi d' ip' where
  layout := h.layout
  size := h.size
  copied _ hp1 hp2 := absurd hp2 (Nat.not_lt.2 hp1)
  frame p hp _ := h.bytes p hp
  keep := h.keep

/-- A round that copied `m` bytes into the block of `off`, after `bmap` filled
holes, followed by rounds from `off + m`. -/
theorem Wrote.round {m : Nat} (hf : Fills d ip d1 ip1) (hbn : off / bSize < maxFile)
    (hs : slot d1 ip1 (off / bSize) ≠ 0) (hm : off % bSize + m ≤ bSize) (hle : off + m ≤ hi)
    (hw : Wrote um pagetable (logWrite (d1.write (slot d1 ip1 (off / bSize)) (off % bSize)
      (userBytes um pagetable src m)) (slot d1 ip1 (off / bSize))) ip1 (src + m) (off + m) off' hi d' ip') :
    Wrote um pagetable d ip src off off' hi d' ip' := by
  have hlen : (userBytes um pagetable src m).length = m := by simp [userBytes]
  -- the round's write keeps every slot: it is not the indirect block
  have hslot : ∀ bn, slot (logWrite (d1.write (slot d1 ip1 (off / bSize)) (off % bSize)
      (userBytes um pagetable src m)) (slot d1 ip1 (off / bSize))) ip1 bn = slot d1 ip1 bn :=
    slot_write (hf.layout.ind _ hbn hs) _ _
  refine ⟨hw.layout, hw.size.trans hf.size, fun p hp1 hp2 => ?_, fun p hp hout => ?_, fun bn hbn' hs0 => ?_⟩
  · by_cases hnext : off + m ≤ p
    · obtain ⟨hbn', hs', hp⟩ := hw.copied p hnext hp2
      refine ⟨hbn', hs', ?_⟩
      rw [hp, show src + m + (p - (off + m)) = src + (p - off) by omega]
    -- a byte of this round: its block stays, and later rounds leave it
    have hblk := (chunk_of_mem hm hp1 (Nat.lt_of_not_le hnext)).1
    refine ⟨hblk ▸ hbn, ?_, ?_⟩
    · rw [hblk, hw.keep _ hbn ((hslot _).symm ▸ hs), hslot]
      exact hs
    · rw [hw.frame p (hblk ▸ hbn) (.inl (Nat.lt_of_not_le hnext)), fileByte_logWrite,
        hf.layout.fileByte_round_of_mem hbn hs (by rw [hlen]; exact hm) hp1 (by rw [hlen]; omega),
        getD_userBytes um pagetable src (by omega)]
  · rw [hw.frame p hp (by omega), fileByte_logWrite,
      hf.layout.fileByte_round_of_not_mem hbn hs hp (by rw [hlen]; omega), hf.bytes p hp]
  · have hs1 := hf.keep bn hbn' hs0
    rw [hw.keep bn hbn' (by rw [hslot, hs1]; exact hs0), hslot, hs1]

/-- A round whose copy failed: part of the bytes may be in the buffer, within
`[off, hi)`, and the rounds stop. -/
theorem Wrote.failed {bs : List UInt8} (hf : Fills d ip d1 ip1) (hbn : off / bSize < maxFile)
    (hs : slot d1 ip1 (off / bSize) ≠ 0) (hle : off + bs.length ≤ hi) :
    Wrote um pagetable d ip src off off hi (d1.write (slot d1 ip1 (off / bSize)) (off % bSize) bs) ip1 where
  layout := hf.layout.write hbn hs _ _
  size := hf.size
  copied _ hp1 hp2 := absurd hp2 (Nat.not_lt.2 hp1)
  frame p hp hout := by
    rw [hf.layout.fileByte_round_of_not_mem hbn hs hp (by omega), hf.bytes p hp]
  keep bn hbn' hs0 := by
    rw [slot_write (hf.layout.ind _ hbn hs), hf.keep bn hbn' hs0]

end Wrote

section Loop

variable {sb : Superblock} {um : Mem} {pagetable n : Nat}

/-- Every run of the rounds of `writei` from byte `tot` of `n`: it copies
`tot' - tot` bytes more, and what it leaves is `Wrote` up to the end of the
bytes still to write.  The disk may fill up, or a copy may fail, on the way. -/
theorem Layout.writeiLoop (hsb : sb.size ≤ 2 ^ 32) (fuel : Nat) :
    ∀ {d : Disk} {ip : Ino} {tot off src : Nat} {d' : Disk} {ip' : Ino} {tot' off' : Nat}, Layout d ip → tot ≤ n →
      Data.writeiLoop sb um pagetable n fuel d ip tot off src = .ok (d', ip', tot', off') →
      tot ≤ tot' ∧ tot' ≤ n ∧ off' = off + (tot' - tot) ∧
        Wrote um pagetable d ip src off off' (off + (n - tot)) d' ip' := by
  induction fuel with
  | zero =>
    intro d ip tot off src d' ip' tot' off' h htot hl
    simp only [Data.writeiLoop, Result.ok.injEq, Prod.mk.injEq] at hl
    obtain ⟨rfl, rfl, rfl, rfl⟩ := hl
    exact ⟨le_rfl, htot, by omega, (Fills.refl h).wrote⟩
  | succ fuel ih =>
    intro d ip tot off src d' ip' tot' off' h htot hl
    by_cases hlt : tot < n
    swap
    · simp only [writeiLoop_done hlt, Result.ok.injEq, Prod.mk.injEq] at hl
      obtain ⟨rfl, rfl, rfl, rfl⟩ := hl
      exact ⟨le_rfl, htot, by omega, (Fills.refl h).wrote⟩
    have hl' := hl
    rw [Data.writeiLoop, if_pos hlt] at hl'
    obtain ⟨⟨d1, ip1, addr⟩, hb, hrest⟩ := Result.bind_eq_ok.1 hl'
    obtain ⟨hf, hbn, haddr⟩ := h.bmap hsb hb
    have hmod := Nat.mod_lt off (show 0 < bSize by decide)
    by_cases ha0 : addr = 0
    -- the disk is full: the rounds stop
    · subst ha0
      simp only [if_true, Result.pure_eq_ok, Prod.mk.injEq] at hrest
      obtain ⟨rfl, rfl, rfl, rfl⟩ := hrest
      exact ⟨le_rfl, htot, by omega, hf.wrote⟩
    obtain rfl := haddr ha0
    have hm1 := Nat.min_le_left (n - tot) (bSize - off % bSize)
    have hm2 : off % bSize + min (n - tot) (bSize - off % bSize) ≤ bSize := by omega
    by_cases hc : (copyin um pagetable src (min (n - tot) (bSize - off % bSize))).1 = -1
    -- the copy failed: the rounds stop, with what it got in the buffer
    · simp only [if_neg ha0, hc, if_true, Result.pure_eq_ok, Prod.mk.injEq] at hrest
      obtain ⟨rfl, rfl, rfl, rfl⟩ := hrest
      have hlen : (copyin um pagetable src (min (n - tot) (bSize - off % bSize))).2.length ≤
          min (n - tot) (bSize - off % bSize) := copyin_length_le _ _
      exact ⟨le_rfl, htot, by omega, Wrote.failed hf hbn ha0 (by omega)⟩
    rw [writeiLoop_round hlt hb ha0 hc, ((copyin_eq_zero_iff _ _).2.1
      ((copyin_eq_zero_iff _ _).2.2.resolve_right hc))] at hl
    obtain ⟨h1, h2, h3, hw⟩ := ih ((hf.layout.write hbn ha0 _ _).log _) (by omega) hl
    refine ⟨by omega, h2, by omega, Wrote.round hf hbn ha0 hm2 (by omega) ?_⟩
    rwa [show off + min (n - tot) (bSize - off % bSize) + (n - (tot + min (n - tot) (bSize - off % bSize))) =
      off + (n - tot) by omega] at hw

end Loop

/-! ## The file after writei, and what readi returns -/

section Bytes

variable {d d' : Disk} {ip ip' : Ino}

theorem getElem?_contents (d : Disk) (ip : Ino) (p : Nat) :
    (contents d ip)[p]? = if p < ip.size then some (fileByte d ip p) else none := by
  by_cases hp : p < ip.size
  · simp [contents, hp]
  · simp [contents, hp]

@[simp] theorem length_contents (d : Disk) (ip : Ino) : (contents d ip).length = ip.size := by
  simp [contents]

/-- The slots depend on the addresses only. -/
theorem slot_congr_addrs (h : ip'.addrs = ip.addrs) : slot d ip' = slot d ip := by
  funext bn
  simp only [slot, h]

/-- An inode with the same blocks and another size, every block below which is there. -/
theorem Layout.resize (h : Layout d ip) (haddrs : ip'.addrs = ip.addrs) (hsize : ip'.size ≤ maxFile * bSize)
    (hholes : ∀ bn, bn * bSize < ip'.size → slot d ip bn ≠ 0) : Layout d ip' := by
  have hslot := slot_congr_addrs (d := d) haddrs
  refine ⟨fun b hb => h.marked b ?_, fun bn bn' hbn hbn' hs heq => ?_, fun bn hbn hs => ?_, fun bn hbn => ?_, hsize⟩
  · unfold Reaches at hb ⊢
    rwa [hslot, haddrs] at hb
  · rw [hslot] at hs heq
    exact h.inj bn bn' hbn hbn' hs heq
  · rw [hslot, haddrs]
    rw [hslot] at hs
    exact h.ind bn hbn hs
  · rw [hslot]
    exact hholes bn hbn

/-- The slots of an inode without blocks are all 0. -/
theorem slot_emptyFile (d : Disk) (bn : Nat) : slot d emptyFile bn = 0 := by
  unfold slot
  split_ifs with h1 h2
  · rfl
  · rfl
  · exact absurd rfl h2

/-- An inode without blocks is laid out on every disk. -/
theorem layout_emptyFile (d : Disk) : Layout d emptyFile where
  marked _ hb := by
    obtain ⟨hb0, hind | ⟨bn, -, hs⟩⟩ := hb
    · exact absurd hind hb0
    · rw [slot_emptyFile] at hs
      exact absurd hs.symm hb0
  inj bn _ _ _ hs _ := absurd (slot_emptyFile d bn) hs
  ind bn _ hs := absurd (slot_emptyFile d bn) hs
  holes _ hbn := absurd hbn (Nat.not_lt_zero _)
  size := Nat.zero_le _

end Bytes

/-- What a `writei` that returns `tot` leaves: the layout; the size grown to
the end of the bytes it copied; those bytes, from `src`; and every byte outside
`[off, off + n)` as it was. -/
structure Written (um : Mem) (pagetable : Nat) (d : Disk) (ip : Ino) (src off n tot : Nat) (d' : Disk) (ip' : Ino) :
    Prop where
  layout : Layout d' ip'
  tot_le : tot ≤ n
  off_le : off ≤ ip.size
  size : ip'.size = max ip.size (off + tot)
  copied : ∀ p, off ≤ p → p < off + tot → fileByte d' ip' p = userByte um pagetable (src + (p - off))
  frame : ∀ p, p < ip'.size → p < off ∨ off + n ≤ p → fileByte d' ip' p = fileByte d ip p

section Written

variable {um : Mem} {pagetable : Nat} {d d' : Disk} {ip ip' : Ino} {src off n tot : Nat}

theorem Written.getElem?_copied (hw : Written um pagetable d ip src off n tot d' ip') {i : Nat} (hi : i < tot) :
    (contents d' ip')[off + i]? = some (userByte um pagetable (src + i)) := by
  rw [getElem?_contents, if_pos (by rw [hw.size]; omega), hw.copied _ (Nat.le_add_right off i) (by omega),
    Nat.add_sub_cancel_left]

/-- Outside `[off, off + n)` the file reads as before, and is as long. -/
theorem Written.getElem?_frame (hw : Written um pagetable d ip src off n tot d' ip') {p : Nat}
    (hp : p < off ∨ off + n ≤ p) : (contents d' ip')[p]? = (contents d ip)[p]? := by
  have hlt : p < ip'.size ↔ p < ip.size := by
    have := hw.tot_le
    have := hw.off_le
    rw [hw.size]
    omega
  rw [getElem?_contents, getElem?_contents]
  by_cases hp' : p < ip'.size
  · rw [if_pos hp', if_pos (hlt.1 hp'), hw.frame p hp' hp]
  · rw [if_neg hp', if_neg (mt hlt.2 hp')]

/-- A `writei` that copied all `n` bytes wrote them as `patch` does. -/
theorem Written.contents_eq_patch (hw : Written um pagetable d ip src off n n d' ip') :
    contents d' ip' = Patch.patch (contents d ip) off (userBytes um pagetable src n) := by
  have hlen : (userBytes um pagetable src n).length = n := by simp [userBytes]
  apply List.ext_getElem?
  intro p
  rw [Patch.getElem?_patch _ (by rw [length_contents]; exact hw.off_le), hlen]
  by_cases h1 : p < off
  · rw [if_pos h1, hw.getElem?_frame (.inl h1)]
  by_cases h2 : p < off + n
  -- a byte written: `p = off + i` for the `i`-th byte copied in
  · obtain ⟨i, rfl⟩ : ∃ i, p = off + i := ⟨p - off, by omega⟩
    rw [if_neg h1, if_pos h2, hw.getElem?_copied (by omega), Nat.add_sub_cancel_left]
    simp [userBytes, show i < n by omega]
  · rw [if_neg h1, if_neg h2, hw.getElem?_frame (.inr (by omega))]

end Written

section Writei

variable {sb : Superblock} {um : Mem} {pagetable : Nat} {d d' : Disk} {ip ip' : Ino} {src off n : Nat} {r : Int}

/-- Every `writei`: it fails its guards and returns -1 with nothing changed, or
it returns the count `tot` of the bytes it copied and leaves `Written`. -/
theorem Layout.writei (h : Layout d ip) (hsb : sb.size ≤ 2 ^ 32)
    (hw : Data.writei sb um pagetable d ip src off n = .ok (d', ip', r)) :
    (r = -1 ∧ d' = d ∧ ip' = ip) ∨ ∃ tot : Nat, r = tot ∧ Written um pagetable d ip src off n tot d' ip' := by
  unfold Data.writei at hw
  by_cases hg : off > ip.size ∨ (off + n) % 2 ^ 32 < off
  · rw [if_pos hg, Result.ok.injEq, Prod.mk.injEq, Prod.mk.injEq] at hw
    obtain ⟨rfl, rfl, rfl⟩ := hw
    exact .inl ⟨rfl, rfl, rfl⟩
  rw [if_neg hg] at hw
  by_cases hg2 : (off + n) % 2 ^ 32 > maxFile * bSize
  · rw [if_pos hg2, Result.ok.injEq, Prod.mk.injEq, Prod.mk.injEq] at hw
    obtain ⟨rfl, rfl, rfl⟩ := hw
    exact .inl ⟨rfl, rfl, rfl⟩
  rw [if_neg hg2] at hw
  obtain ⟨⟨d1, ip1, tot, off1⟩, hl, hrest⟩ := Result.bind_eq_ok.1 hw
  simp only [Result.pure_eq_ok, Prod.mk.injEq] at hrest
  obtain ⟨rfl, rfl, rfl⟩ := hrest
  obtain ⟨-, htot, rfl, hwr⟩ := h.writeiLoop hsb n (Nat.zero_le n) hl
  have hoff : off ≤ ip.size := by omega
  refine .inr ⟨tot, rfl, ?_⟩
  -- the size grows to the end of what was copied
  set ip2 := if off + (tot - 0) > ip1.size then { ip1 with size := off + (tot - 0) } else ip1 with hip2
  have haddrs : ip2.addrs = ip1.addrs := by
    rw [hip2]
    split_ifs <;> rfl
  have hs1 := hwr.size
  have hsize : ip2.size = max ip.size (off + tot) := by
    rw [hip2]
    split_ifs with hgt
    · show off + (tot - 0) = max ip.size (off + tot)
      omega
    · show ip1.size = max ip.size (off + tot)
      omega
  have hbytes : fileByte (iupdate sb d1 ip2) ip2 = fileByte d1 ip1 :=
    fileByte_eq_of_slot (congrFun (slot_congr_addrs haddrs))
  -- what was copied lies below MAXFILE
  have hbound : max ip.size (off + tot) ≤ maxFile * bSize := by
    have := h.size
    by_cases ht : tot = 0
    · omega
    · have := (hwr.copied (off + tot - 1) (by omega) (by omega)).1
      unfold maxFile nDirect nIndirect bSize at *
      omega
  refine ⟨((hwr.layout.resize haddrs (hsize ▸ hbound) fun bn hbn => ?_).log _), htot, hoff, hsize,
    fun p hp1 hp2 => ?_, fun p hp hout => ?_⟩
  · rw [hsize] at hbn
    by_cases hold : bn * bSize < ip1.size
    · exact hwr.layout.holes bn hold
    · have hcp := (hwr.copied (bn * bSize) (by omega) (by omega)).2.1
      rwa [Nat.mul_div_cancel bn (by decide : 0 < bSize)] at hcp
  · rw [hbytes]
    exact (hwr.copied p hp1 (by omega)).2.2
  · rw [hbytes]
    have hp' : p / bSize < maxFile := Nat.div_lt_of_lt_mul (by rw [Nat.mul_comm]; omega)
    exact hwr.frame p hp' (by omega)

end Writei

section Readi

variable {sb : Superblock} {d : Disk} {ip : Ino}

/-- `bmap` of a block that is there returns it and changes nothing. -/
theorem bmap_of_slot {bn : Nat} (hbn : bn < maxFile) (hs : slot d ip bn ≠ 0) :
    bmap sb d ip bn = .ok (d, ip, slot d ip bn) := by
  by_cases h1 : bn < nDirect
  · have hk : ip.addrs bn ≠ 0 := by simpa [slot, h1] using hs
    rw [bmap_of_lt h1, allocAddr_of_ne_zero hk]
    simp [slot, h1]
  · have hind : ip.addrs nDirect ≠ 0 := fun h0 => hs (by simp [slot, h1, h0])
    have he : indEntry d (ip.addrs nDirect) (bn - nDirect) ≠ 0 := by simpa [slot, h1, hind] using hs
    have h2 : bn - nDirect < nIndirect := by unfold maxFile at hbn; omega
    simp [bmap, h1, h2, allocAddr_of_ne_zero hind, hind, he, slot]

/-- The bytes one round of `readi` copies out of the block of `off`. -/
theorem readBytes_round {off m : Nat} (hs : slot d ip (off / bSize) ≠ 0) (hm : off % bSize + m ≤ bSize) :
    readBytes (d.data (slot d ip (off / bSize))) (off % bSize) m = (List.range m).map fun i => fileByte d ip (off + i) := by
  rw [readBytes_eq_map]
  apply List.map_congr_left
  intro i hi
  rw [List.mem_range] at hi
  obtain ⟨hblk, hmod⟩ := chunk_of_mem hm (Nat.le_add_right off i) (by omega)
  rw [fileByte, hblk, if_neg hs, hmod, Nat.add_sub_cancel_left]

/-- The rounds of `readi` over bytes of the file copy them and change nothing;
each round has a byte to copy, so the loop needs no more fuel than bytes. -/
theorem Layout.readiLoop (h : Layout d ip) (k : Nat) :
    ∀ fuel tot off (out : List UInt8), tot ≤ k → off + (k - tot) ≤ ip.size → k - tot ≤ fuel →
      Data.readiLoop sb k fuel d ip tot off out =
        .ok (d, ip, k, out ++ (List.range (k - tot)).map fun i => fileByte d ip (off + i)) := by
  intro fuel
  induction fuel with
  | zero =>
    intro tot off out htot _ hfuel
    obtain rfl : tot = k := by omega
    simp [Data.readiLoop]
  | succ fuel ih =>
    intro tot off out htot hsize hfuel
    by_cases hlt : tot < k
    swap
    · obtain rfl : tot = k := by omega
      simp [Data.readiLoop]
    -- the block of `off` holds a byte below the size, so it is there
    have hoff : off / bSize * bSize < ip.size := lt_of_le_of_lt (Nat.div_mul_le_self off bSize) (by omega)
    have hs : slot d ip (off / bSize) ≠ 0 := h.holes _ hoff
    have hmod := Nat.mod_lt off (show 0 < bSize by decide)
    set m := min (k - tot) (bSize - off % bSize) with hm
    have hm1 : m ≤ k - tot := Nat.min_le_left _ _
    have hm2 : off % bSize + m ≤ bSize := by omega
    rw [Data.readiLoop, if_pos hlt, bmap_of_slot (h.lt_maxFile hoff) hs, Result.ok_bind]
    dsimp only
    rw [if_neg hs, ← hm, readBytes_round hs hm2, ih _ _ _ (by omega) (by omega) (by omega), List.append_assoc]
    -- the round's bytes, then the rest's
    conv_rhs => rw [show k - tot = m + (k - (tot + m)) by omega, List.range_add, List.map_append, List.map_map]
    simp only [Function.comp_def, Nat.add_assoc]

/-- `readi` from inside the file: the bytes from `off`, as many as there are up
to `n`, and nothing changed. -/
theorem Layout.readi (h : Layout d ip) {off n : Nat} (hoff : off ≤ ip.size) (hn : off + n < 2 ^ 32) :
    Data.readi sb d ip off n =
      .ok (d, ip, min n (ip.size - off), (List.range (min n (ip.size - off))).map fun i => fileByte d ip (off + i)) := by
  have hwrap : (off + n) % 2 ^ 32 = off + n := Nat.mod_eq_of_lt hn
  unfold Data.readi
  rw [hwrap, if_neg (by omega)]
  have hk : (if off + n > ip.size then ip.size - off else n) = min n (ip.size - off) := by
    split_ifs <;> omega
  dsimp only
  rw [hk, h.readiLoop _ _ 0 off [] (Nat.zero_le _) (by omega) (by omega), List.nil_append, Nat.sub_zero]

/-- A slice of the file's bytes. -/
theorem take_drop_contents (d : Disk) (ip : Ino) (off n : Nat) :
    ((contents d ip).drop off).take n = (List.range (min n (ip.size - off))).map fun i => fileByte d ip (off + i) := by
  apply List.ext_getElem?
  intro i
  rw [List.getElem?_take, List.getElem?_drop, getElem?_contents, List.getElem?_map]
  by_cases hi : i < min n (ip.size - off)
  · rw [if_pos (by omega), if_pos (by omega), List.getElem?_range hi]
    rfl
  · rw [List.getElem?_eq_none (by simp only [List.length_range]; omega)]
    split_ifs <;> first | rfl | omega

end Readi

/-! ## writei and readi against the abstract file -/

/-- A superblock of sixteen blocks. -/
def sbSmall : Superblock := ⟨16, 2, 3⟩

/-- Its disk: the first eight blocks in use, every byte 0. -/
def diskSmall : Disk := ⟨fun b => decide (b < 8), fun _ _ => 0, []⟩

/-- A disk with no free block, every byte 0xff. -/
def diskUsed : Disk := ⟨fun _ => true, fun _ _ => 0xFF, []⟩

/-- A file of one full block, at disk block 5. -/
def oneBlock : Ino := ⟨1, 1024, fun k => if k = 0 then 5 else 0⟩

theorem slot_oneBlock (d : Disk) (bn : Nat) : slot d oneBlock bn = if bn = 0 then 5 else 0 := by
  have haddr : ∀ k, oneBlock.addrs k = if k = 0 then 5 else 0 := fun _ => rfl
  unfold slot
  by_cases hbn : bn < nDirect
  · rw [if_pos hbn, haddr]
  · have hne : bn ≠ 0 := by unfold nDirect at hbn; omega
    rw [if_neg hbn, haddr, if_neg (by decide : nDirect ≠ 0), if_pos rfl, if_neg hne]

theorem layout_oneBlock : Layout diskUsed oneBlock where
  marked _ _ := rfl
  inj bn bn' _ _ hs heq := by
    rw [slot_oneBlock] at hs heq
    rw [slot_oneBlock] at heq
    split_ifs at hs heq <;> omega
  ind bn _ hs := by
    rw [slot_oneBlock] at hs ⊢
    split_ifs at hs ⊢ <;> first | decide | exact absurd rfl hs
  holes bn hbn := by
    rw [show oneBlock.size = 1024 from rfl] at hbn
    rw [slot_oneBlock, if_pos (by unfold bSize at hbn; omega)]
    decide
  size := by decide

section Abstract

variable {sb : Superblock} {um : Mem} {pagetable : Nat} {d d' : Disk} {ip ip' : Ino} {src off n : Nat}

/-- `writei` refines the abstract write: when it writes all `n` bytes, the
file's bytes afterwards are its bytes before with those `copyin` reads from
`src` written over them from `off`, the file extended where they run past its
end; and the layout is kept. -/
theorem writei_contents (hL : Layout d ip) (hsb : sb.size ≤ 2 ^ 32)
    (h : writei sb um pagetable d ip src off n = .ok (d', ip', (n : Int))) :
    Layout d' ip' ∧ contents d' ip' = Patch.patch (contents d ip) off (userBytes um pagetable src n) := by
  rcases hL.writei hsb h with ⟨hr, -, -⟩ | ⟨tot, hr, hw⟩
  · omega
  obtain rfl : tot = n := by exact_mod_cast hr.symm
  exact ⟨hw.layout, hw.contents_eq_patch⟩

theorem writei_contents_two_blocks :
    ∃ d' ip', writei sbSmall textImage 0x1000 diskSmall emptyFile 0 0 1030 = .ok (d', ip', ((1030 : Nat) : Int)) ∧
      Layout d' ip' ∧
        contents d' ip' = Patch.patch (contents diskSmall emptyFile) 0 (userBytes textImage 0x1000 0 1030) :=
  ⟨_, _, rfl, writei_contents (layout_emptyFile diskSmall) (show sbSmall.size ≤ 2 ^ 32 by decide) rfl⟩

/-- What every `writei` does to the file, also when the disk fills up or a
copy fails midway: it keeps the layout, and returns -1 having changed nothing,
or a count `tot` of at most `n`; then the file is as long as before or reaches
`off + tot`, its bytes from `off` are the `tot` bytes copied in, and no byte
outside `[off, off + n)` has changed. -/
theorem writei_frame (hL : Layout d ip) (hsb : sb.size ≤ 2 ^ 32) {r : Int}
    (h : writei sb um pagetable d ip src off n = .ok (d', ip', r)) :
    Layout d' ip' ∧ ((r = -1 ∧ d' = d ∧ ip' = ip) ∨
      ∃ tot ≤ n, r = tot ∧ (contents d' ip').length = max (contents d ip).length (off + tot) ∧
        (∀ i < tot, (contents d' ip')[off + i]? = some (userByte um pagetable (src + i))) ∧
        ∀ p, p < off ∨ off + n ≤ p → (contents d' ip')[p]? = (contents d ip)[p]?) := by
  rcases hL.writei hsb h with ⟨rfl, rfl, rfl⟩ | ⟨tot, rfl, hw⟩
  · exact ⟨hL, .inl ⟨rfl, rfl, rfl⟩⟩
  refine ⟨hw.layout, .inr ⟨tot, hw.tot_le, rfl, ?_, fun i hi => hw.getElem?_copied hi, fun p hp => hw.getElem?_frame hp⟩⟩
  rw [length_contents, length_contents, hw.size]

/-- Four bytes at 1022 of a full block, on a full disk: two fit in the block,
and `writei` stops at the next, which it cannot allocate. -/
theorem writei_frame_full_disk :
    ∃ d' ip', writei sbSmall textImage 0x1000 diskUsed oneBlock 0 1022 4 = .ok (d', ip', 2) ∧
      Layout d' ip' ∧ (((2 : Int) = -1 ∧ d' = diskUsed ∧ ip' = oneBlock) ∨
        ∃ tot : Nat, tot ≤ 4 ∧ (2 : Int) = tot ∧ (contents d' ip').length = max (contents diskUsed oneBlock).length (1022 + tot) ∧
          (∀ i < tot, (contents d' ip')[1022 + i]? = some (userByte textImage 0x1000 (0 + i))) ∧
          ∀ p, p < 1022 ∨ 1022 + 4 ≤ p → (contents d' ip')[p]? = (contents diskUsed oneBlock)[p]?) :=
  ⟨_, _, rfl, writei_frame layout_oneBlock (show sbSmall.size ≤ 2 ^ 32 by decide) rfl⟩

/-- `readi` refines the abstract read: from inside the file, with no wrap of
`off + n`, it returns the slice of the file's bytes from `off`, at most `n` of
them, and their count, and changes nothing; otherwise it returns nothing. -/
theorem readi_contents (hL : Layout d ip) (hn : n < 2 ^ 32) :
    readi sb d ip off n = if off ≤ ip.size ∧ off + n < 2 ^ 32 then
      .ok (d, ip, min n (ip.size - off), ((contents d ip).drop off).take n) else .ok (d, ip, 0, []) := by
  split_ifs with hg
  · rw [hL.readi hg.1 hg.2, take_drop_contents]
  unfold readi
  rw [if_pos]
  by_cases hoff : off ≤ ip.size
  -- `off + n` wraps around: its remainder falls below `off`
  · have hwrap : 2 ^ 32 ≤ off + n := by omega
    have hbound : off < 2 ^ 32 := by
      have := hL.size
      unfold maxFile nDirect nIndirect bSize at this
      omega
    right
    rw [Nat.mod_eq_sub_mod hwrap, Nat.mod_eq_of_lt (by omega)]
    omega
  · exact .inl (Nat.lt_of_not_le hoff)

theorem readi_contents_oneBlock :
    readi sbSmall diskUsed oneBlock 1020 10 = if 1020 ≤ oneBlock.size ∧ 1020 + 10 < 2 ^ 32 then
      .ok (diskUsed, oneBlock, min 10 (oneBlock.size - 1020), ((contents diskUsed oneBlock).drop 1020).take 10)
    else .ok (diskUsed, oneBlock, 0, []) :=
  readi_contents layout_oneBlock (by decide)

/-- What `writei` wrote reads back: after a `writei` of all `n` bytes, `readi`
of `[off, off + n)` returns the bytes copied in, and `readi` of any range of
the old file that misses `[off, off + n)` returns what it returned before. -/
theorem writei_readi (hL : Layout d ip) (hsb : sb.size ≤ 2 ^ 32)
    (h : writei sb um pagetable d ip src off n = .ok (d', ip', (n : Int))) :
    readi sb d' ip' off n = .ok (d', ip', n, userBytes um pagetable src n) ∧
      ∀ o k, o + k ≤ ip.size → o + k ≤ off ∨ off + n ≤ o →
        ∃ bs, readi sb d ip o k = .ok (d, ip, k, bs) ∧ readi sb d' ip' o k = .ok (d', ip', k, bs) := by
  rcases hL.writei hsb h with ⟨hr, -, -⟩ | ⟨tot, hr, hw⟩
  · omega
  obtain rfl : tot = n := by exact_mod_cast hr.symm
  have hsize := hw.size
  have hoff := hw.off_le
  have hbound := hw.layout.size
  have hmax : maxFile * bSize < 2 ^ 32 := by unfold maxFile nDirect nIndirect bSize; norm_num
  refine ⟨?_, fun o k hk hout => ?_⟩
  · have hbytes : ((List.range tot).map fun i => fileByte d' ip' (off + i)) = userBytes um pagetable src tot := by
      apply List.map_congr_left
      intro i hi
      rw [List.mem_range] at hi
      rw [hw.copied _ (Nat.le_add_right off i) (by omega), Nat.add_sub_cancel_left]
    rw [hw.layout.readi (by omega) (by omega), show min tot (ip'.size - off) = tot by omega, hbytes]
  · have hold : readi sb d ip o k = _ := hL.readi (show o ≤ ip.size by omega) (show o + k < 2 ^ 32 by omega)
    have hnew : readi sb d' ip' o k = _ :=
      hw.layout.readi (show o ≤ ip'.size by omega) (show o + k < 2 ^ 32 by omega)
    rw [show min k (ip.size - o) = k by omega] at hold
    rw [show min k (ip'.size - o) = k by omega] at hnew
    refine ⟨_, hold, ?_⟩
    -- the bytes of the range are outside what was written
    rw [hnew]
    congr 4
    apply List.map_congr_left
    intro i hi
    rw [List.mem_range] at hi
    exact hw.frame _ (by omega) (by omega)

theorem writei_readi_two_blocks :
    ∃ d' ip', writei sbSmall textImage 0x1000 diskSmall emptyFile 0 0 1030 = .ok (d', ip', ((1030 : Nat) : Int)) ∧
      readi sbSmall d' ip' 0 1030 = .ok (d', ip', 1030, userBytes textImage 0x1000 0 1030) ∧
      ∀ o k, o + k ≤ emptyFile.size → o + k ≤ 0 ∨ 0 + 1030 ≤ o →
        ∃ bs, readi sbSmall diskSmall emptyFile o k = .ok (diskSmall, emptyFile, k, bs) ∧
          readi sbSmall d' ip' o k = .ok (d', ip', k, bs) :=
  ⟨_, _, rfl, writei_readi (layout_emptyFile diskSmall) (show sbSmall.size ≤ 2 ^ 32 by decide) rfl⟩

end Abstract

end Xv6.Fs.Data
