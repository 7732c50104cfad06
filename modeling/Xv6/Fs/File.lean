import Mathlib
import Xv6.Fs.Contents

/-
  Xv6/Fs/File.lean --- `filewrite` (kernel/file.c) on a file of type FD_INODE.

  `filewrite` does not hand a whole buffer to `writei`: a transaction may log at
  most MAXOPBLOCKS blocks, so it writes a few blocks at a time, each chunk of
  at most `((MAXOPBLOCKS-1-1-2) / 2) * BSIZE` bytes in a `begin_op`/`end_op`
  pair of its own, and advances `f->off` by what each chunk wrote.  It stops at
  the first chunk that falls short and returns `n` only when every chunk was
  written whole.

  Seen through the file's bytes of Contents.lean, the chunks add up: the bytes
  after chunk `k` are those before the call with the first bytes of the
  buffer written over them from the old offset (`patch_append`), so a
  `filewrite` that returns `n` is one abstract write of the whole buffer
  (`filewrite_contents`).

  In the disk's view of Data.lean `end_op` commits the chunk: its blocks leave
  the log, the bytes stay where the buffer cache has them.
-/

set_option autoImplicit false

namespace Xv6.Fs.Data

open Machine Memory Xv6.Vm

/-- The fields of `struct file` that `filewrite` uses on an inode. -/
structure File where
  writable : Bool
  ip : Ino
  off : Nat

/-- `((MAXOPBLOCKS-1-1-2) / 2) * BSIZE`: the most bytes of one chunk. -/
def maxChunk : Nat := (maxOpBlocks - 1 - 1 - 2) / 2 * bSize

/-- `end_op` as the disk's view sees it: the transaction commits, and its
blocks leave the log. -/
def endOp (d : Disk) : Disk := { d with logged := [] }

/-- The loop of `filewrite` from byte `i` of `n`, one chunk a round: the disk,
the inode, `f->off` and `i` when it stops. -/
def filewriteLoop (sb : Superblock) (um : Mem) (pagetable addr n : Nat) :
    Nat → Disk → Ino → Nat → Nat → Result (Disk × Ino × Nat × Nat)
  | 0, d, ip, off, i => .ok (d, ip, off, i)
  | fuel + 1, d, ip, off, i =>
    if i < n then do
      let n1 := min (n - i) maxChunk
      let (d, ip, r) ← writei sb um pagetable d ip (addr + i) off n1
      let d := endOp d
      let off := if r > 0 then off + r.toNat else off
      if r ≠ n1 then pure (d, ip, off, i)
      else filewriteLoop sb um pagetable addr n fuel d ip off (i + r.toNat)
    else .ok (d, ip, off, i)

/-- `filewrite(f, addr, n)` of a file of type FD_INODE: `n`, or -1 when the file
is not writable or a chunk fell short, with the disk and the file it leaves. -/
def filewrite (sb : Superblock) (um : Mem) (pagetable : Nat) (d : Disk) (f : File) (addr n : Nat) :
    Result (Disk × File × Int) :=
  if f.writable = false then .ok (d, f, -1)
  else do
    let (d, ip, off, i) ← filewriteLoop sb um pagetable addr n n d f.ip f.off 0
    pure (d, { f with ip := ip, off := off }, if i = n then (n : Int) else -1)

section Loop

variable {sb : Superblock} {um : Mem} {pagetable addr n : Nat}

theorem filewriteLoop_zero (d : Disk) (ip : Ino) (off i : Nat) :
    filewriteLoop sb um pagetable addr n 0 d ip off i = .ok (d, ip, off, i) := rfl

theorem filewriteLoop_done {fuel : Nat} {d : Disk} {ip : Ino} {off i : Nat} (h : ¬ i < n) :
    filewriteLoop sb um pagetable addr n (fuel + 1) d ip off i = .ok (d, ip, off, i) := by
  rw [filewriteLoop, if_neg h]

/-- A chunk that `writei` wrote whole: `f->off` and `i` advance by it. -/
theorem filewriteLoop_chunk {fuel : Nat} {d d1 : Disk} {ip ip1 : Ino} {off i : Nat} (hlt : i < n)
    (hw : writei sb um pagetable d ip (addr + i) off (min (n - i) maxChunk) =
      .ok (d1, ip1, (min (n - i) maxChunk : Nat))) :
    filewriteLoop sb um pagetable addr n (fuel + 1) d ip off i =
      filewriteLoop sb um pagetable addr n fuel (endOp d1) ip1 (off + min (n - i) maxChunk)
        (i + min (n - i) maxChunk) := by
  have hpos : 0 < min (n - i) maxChunk := lt_min (by omega) (by decide)
  rw [filewriteLoop, if_pos hlt]
  dsimp only
  rw [hw, Result.ok_bind]
  simp only [Int.toNat_natCast, ne_eq, not_true_eq_false, if_false, Nat.cast_pos.2 hpos, if_true]

/-- A chunk that fell short: the loop stops where it was. -/
theorem filewriteLoop_short {fuel : Nat} {d d1 : Disk} {ip ip1 : Ino} {off i : Nat} {r : Int} (hlt : i < n)
    (hw : writei sb um pagetable d ip (addr + i) off (min (n - i) maxChunk) = .ok (d1, ip1, r))
    (hr : r ≠ (min (n - i) maxChunk : Nat)) :
    filewriteLoop sb um pagetable addr n (fuel + 1) d ip off i =
      .ok (endOp d1, ip1, if r > 0 then off + r.toNat else off, i) := by
  rw [filewriteLoop, if_pos hlt]
  dsimp only
  rw [hw, Result.ok_bind]
  simp only [hr, ne_eq, not_false_eq_true, if_true, Result.pure_eq_ok]

end Loop

/-! ## The chunks add up -/

section Chunks

variable {sb : Superblock} {um : Mem} {pagetable addr n : Nat}

theorem contents_endOp (d : Disk) (ip : Ino) : contents (endOp d) ip = contents d ip := rfl

theorem Layout.endOp {d : Disk} {ip : Ino} (h : Layout d ip) : Layout (Data.endOp d) ip :=
  h.congr (fun _ => rfl) rfl rfl fun _ hb => hb

/-- The rounds of `filewrite` that reach `n`: with `i` bytes of the buffer
written over the file from `off0` when they start, every chunk written whole,
they leave the whole buffer written over it, and the offset after it.  The
offset is at most the size once a chunk has been written, which is what
`patch_append` needs; before the first chunk, that chunk's `writei` checks it. -/
theorem Layout.filewriteLoop (hsb : sb.size ≤ 2 ^ 32) {d0 : Disk} {ip0 : Ino} {off0 : Nat} (fuel : Nat) :
    ∀ {d : Disk} {ip : Ino} {i : Nat} {d' : Disk} {ip' : Ino} {off' : Nat}, Layout d ip → i ≤ n →
      (i = 0 ∨ off0 ≤ ip0.size) →
      contents d ip = Patch.patch (contents d0 ip0) off0 (userBytes um pagetable addr i) →
      Data.filewriteLoop sb um pagetable addr n fuel d ip (off0 + i) i = .ok (d', ip', off', n) →
      Layout d' ip' ∧ off' = off0 + n ∧
        contents d' ip' = Patch.patch (contents d0 ip0) off0 (userBytes um pagetable addr n) := by
  induction fuel with
  | zero =>
    intro d ip i d' ip' off' h _ _ hc hl
    rw [filewriteLoop_zero, Result.ok.injEq, Prod.mk.injEq, Prod.mk.injEq, Prod.mk.injEq] at hl
    obtain ⟨rfl, rfl, rfl, rfl⟩ := hl
    exact ⟨h, rfl, hc⟩
  | succ fuel ih =>
    intro d ip i d' ip' off' h hi hoff hc hl
    by_cases hlt : i < n
    swap
    · rw [filewriteLoop_done hlt, Result.ok.injEq, Prod.mk.injEq, Prod.mk.injEq, Prod.mk.injEq] at hl
      obtain ⟨rfl, rfl, rfl, rfl⟩ := hl
      exact ⟨h, rfl, hc⟩
    obtain ⟨⟨d1, ip1, r⟩, hw⟩ := writei_ok sb um pagetable d ip (addr + i) (off0 + i) (min (n - i) maxChunk)
      (lt_of_le_of_lt (min_le_right _ _) (by decide))
    by_cases hr : r = (min (n - i) maxChunk : Nat)
    swap
    -- a chunk fell short: the loop stops before `n`
    · rw [filewriteLoop_short hlt hw hr, Result.ok.injEq, Prod.mk.injEq, Prod.mk.injEq, Prod.mk.injEq] at hl
      omega
    subst hr
    rw [filewriteLoop_chunk hlt hw, Nat.add_assoc] at hl
    rcases h.writei hsb hw with ⟨hneg, -, -⟩ | ⟨tot, htot, hwr⟩
    · omega
    obtain rfl : tot = min (n - i) maxChunk := by exact_mod_cast htot.symm
    have hlen : (userBytes um pagetable addr i).length = i := by simp [userBytes]
    -- the offset is inside the file before the chunk, so inside the first one
    have hoff0 : off0 ≤ (contents d0 ip0).length := by
      rcases hoff with rfl | hoff
      · have hle := hwr.off_le
        rw [← length_contents, hc, Nat.add_zero, show userBytes um pagetable addr 0 = [] from rfl,
          Patch.patch_nil] at hle
        exact hle
      · rwa [length_contents]
    have hc1 : contents (Data.endOp d1) ip1 =
        Patch.patch (contents d0 ip0) off0 (userBytes um pagetable addr (i + min (n - i) maxChunk)) := by
      rw [contents_endOp, hwr.contents_eq_patch, hc, userBytes_add, ← Patch.patch_append _ _ hoff0, hlen]
    exact ih hwr.layout.endOp (by omega) (.inr (by rwa [length_contents] at hoff0)) hc1 hl

end Chunks

section Filewrite

variable {sb : Superblock} {um : Mem} {pagetable : Nat} {d d' : Disk} {f f' : File} {addr n : Nat}

/-- `filewrite` refines the abstract write of the whole buffer: when it returns
`n`, every chunk was written whole, and the file's bytes are its bytes before
with the `n` bytes at `addr` in user memory written over them from the old
`f->off`, which has advanced by `n`; and the layout is kept. -/
theorem filewrite_contents (hL : Layout d f.ip) (hsb : sb.size ≤ 2 ^ 32)
    (h : filewrite sb um pagetable d f addr n = .ok (d', f', (n : Int))) :
    Layout d' f'.ip ∧ f'.off = f.off + n ∧
      contents d' f'.ip = Patch.patch (contents d f.ip) f.off (userBytes um pagetable addr n) := by
  unfold filewrite at h
  by_cases hwr : f.writable = false
  -- not writable: -1 is no count
  · rw [if_pos hwr, Result.ok.injEq, Prod.mk.injEq, Prod.mk.injEq] at h
    omega
  rw [if_neg hwr] at h
  obtain ⟨⟨d1, ip1, off1, i⟩, hl, hrest⟩ := Result.bind_eq_ok.1 h
  rw [Result.pure_eq_ok, Prod.mk.injEq, Prod.mk.injEq] at hrest
  obtain ⟨rfl, rfl, hret⟩ := hrest
  -- `n` is returned only when the rounds reached `n`
  have hi : i = n := by
    by_contra hne
    rw [if_neg hne] at hret
    omega
  subst hi
  rw [← Nat.add_zero f.off] at hl
  exact hL.filewriteLoop hsb _ (Nat.zero_le _) (.inl rfl) (Patch.patch_nil _ _).symm hl

/-- A writable file open on the empty file, at offset 0. -/
def emptyOpen : File := ⟨true, emptyFile, 0⟩

/-- Four thousand bytes from the text page into an empty file: a chunk of
3072 bytes and one of 928. -/
theorem filewrite_contents_two_chunks :
    ∃ d' f', filewrite sbSmall textImage 0x1000 diskSmall emptyOpen 0 4000 = .ok (d', f', ((4000 : Nat) : Int)) ∧
      Layout d' f'.ip ∧ f'.off = emptyOpen.off + 4000 ∧
        contents d' f'.ip = Patch.patch (contents diskSmall emptyOpen.ip) emptyOpen.off (userBytes textImage 0x1000 0 4000) :=
  ⟨_, _, rfl, filewrite_contents (layout_emptyFile diskSmall) (show sbSmall.size ≤ 2 ^ 32 by decide) rfl⟩

end Filewrite

end Xv6.Fs.Data
