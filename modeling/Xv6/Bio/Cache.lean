import Xv6.Lib.Dll
import Xv6.Lib.Machine
import Xv6.Param

/-
  Xv6/Bio/Cache.lean --- the buffer cache of kernel/bio.c.

  STATE.  `bcache.buf[NBUF]` are `Buf`s indexed by `Fin nBuf`.  The LRU list
  is threaded through `next` and `prev` on `Node = Option (Fin nBuf)`, where
  `none` is the sentinel `bcache.head`; `bget` and `brelse` follow and change
  these links as the C code does (Xv6/Lib/Dll.lean).  Block contents have an
  arbitrary type `δ` (`uchar data[BSIZE]` in C).  The disk is one array of
  blocks indexed by block number: `virtio_disk_rw` transfers sector
  `b->blockno * (BSIZE/512)` and never reads `b->dev`.

  GHOST STATE.  For each buffer, `held` counts the `bget` results not yet passed
  to `brelse`, and `pins` the `bpin` calls not yet undone by `bunpin`.
  `lastRelease` is the time of the `brelse` that last moved the buffer to the
  front of the list (`binit` counts as releasing `buf[0]`, ..., `buf[NBUF-1]` in
  that order), and `clock` is the time the next such `brelse` gets.  No code of
  the model reads them.

  STEPS.  Each function is one critical section: under `bcache.lock`, or, for
  `bwrite`, the disk read of `bread` and a caller's change to `b->data`, under
  the buffer's sleep-lock, which no other thread can hold.  The sleep-lock
  itself is represented by `held`: `bwrite` and `brelse` panic as
  `holdingsleep` makes them when no `bget` result is outstanding, and a caller
  changes the data of a buffer only while it holds one (`modify`).  `bunpin`
  undoes an earlier `bpin`; a call with no pin outstanding is not a step.  The
  `disk` flag of `struct buf`, which the virtio driver uses, is not modelled.
-/

set_option autoImplicit false

namespace Xv6.Bio

open Machine

instance : NeZero nBuf := ⟨by decide⟩

/-- A node of the LRU list: `none` is `bcache.head`, `some i` is `bcache.buf[i]`. -/
abbrev Node := Option (Fin nBuf)

/-- `struct buf`, without its sleep-lock, its list links and `disk`. -/
structure Buf (δ : Type) where
  valid : Bool
  dev : Nat
  blockno : Nat
  refcnt : Nat
  data : δ

/-- `bcache` and the disk under it, with the ghost counters. -/
structure BCache (δ : Type) where
  buf : Fin nBuf → Buf δ
  next : Node → Node
  prev : Node → Node
  disk : Nat → δ
  held : Fin nBuf → Nat
  pins : Fin nBuf → Nat
  lastRelease : Fin nBuf → Nat
  clock : Nat

variable {δ : Type}

/-- The links `binit` builds: starting from `head.prev = head.next = &head`,
each buffer in turn is pushed onto the front. -/
def binitLinks : (Node → Node) × (Node → Node) :=
  (List.finRange nBuf).foldl (fun nl i => Dll.pushFront nl.1 nl.2 none (some i))
    (fun _ => none, fun _ => none)

/-- `binit`, on a disk holding `disk`; the buffers start zeroed. -/
def binit [Inhabited δ] (disk : Nat → δ) : BCache δ :=
  { buf := fun _ => { valid := false, dev := 0, blockno := 0, refcnt := 0, data := default }
    next := binitLinks.1
    prev := binitLinks.2
    disk := disk
    held := fun _ => 0
    pins := fun _ => 0
    lastRelease := fun i => i.val
    clock := nBuf }

/-! ## bget and bread -/

/-- The test of `bget`'s first loop: `b->dev == dev && b->blockno == blockno`. -/
def holds (s : BCache δ) (dev blockno : Nat) : Node → Bool
  | none => false
  | some i => (s.buf i).dev == dev && (s.buf i).blockno == blockno

/-- The test of `bget`'s second loop: `b->refcnt == 0`. -/
def isFree (s : BCache δ) : Node → Bool
  | none => false
  | some i => (s.buf i).refcnt == 0

/-- `bget`'s first loop: from `bcache.head.next` along `next`, the first buffer
caching `(dev, blockno)`. -/
def findCached (s : BCache δ) (dev blockno : Nat) : Option Node :=
  Dll.scan s.next none (holds s dev blockno) (nBuf + 1) (s.next none)

/-- `bget`'s second loop: from `bcache.head.prev` along `prev`, the first buffer
with no references. -/
def findFree (s : BCache δ) : Option Node :=
  Dll.scan s.prev none (isFree s) (nBuf + 1) (s.prev none)

/-- `bget`: the buffer caching `(dev, blockno)`, its `refcnt` raised; otherwise
an unused buffer, recycled for the block with `valid = 0`. -/
def bget (s : BCache δ) (dev blockno : Nat) : Result (BCache δ × Fin nBuf) :=
  match findCached s dev blockno with
  | some (some i) =>
    .ok ({ s with
      buf := Function.update s.buf i { s.buf i with refcnt := (s.buf i).refcnt + 1 }
      held := Function.update s.held i (s.held i + 1) }, i)
  | _ =>
    match findFree s with
    | some (some i) =>
      .ok ({ s with
        buf := Function.update s.buf i
          { s.buf i with dev := dev, blockno := blockno, valid := false, refcnt := 1 }
        held := Function.update s.held i (s.held i + 1) }, i)
    | _ => .panic "bget: no buffers"

/-- `bread`: `bget`, then read the block from the disk unless the buffer is
valid. -/
def bread (s : BCache δ) (dev blockno : Nat) : Result (BCache δ × Fin nBuf) :=
  match bget s dev blockno with
  | .ok (s', i) =>
    if (s'.buf i).valid then .ok (s', i)
    else .ok ({ s' with
      buf := Function.update s'.buf i
        { s'.buf i with data := s'.disk (s'.buf i).blockno, valid := true } }, i)
  | .wait => .wait
  | .panic msg => .panic msg

/-! ## bwrite, brelse, bpin, bunpin -/

/-- `bwrite`: write the buffer's data to its block. -/
def bwrite (s : BCache δ) (i : Fin nBuf) : Result (BCache δ) :=
  if s.held i = 0 then .panic "bwrite"
  else .ok { s with disk := Function.update s.disk (s.buf i).blockno (s.buf i).data }

/-- `brelse`: drop a reference; the last one moves the buffer to the front of
the list, the most recently used end. -/
def brelse (s : BCache δ) (i : Fin nBuf) : Result (BCache δ) :=
  if s.held i = 0 then .panic "brelse"
  else if (s.buf i).refcnt - 1 = 0 then
    .ok { s with
      buf := Function.update s.buf i { s.buf i with refcnt := (s.buf i).refcnt - 1 }
      held := Function.update s.held i (s.held i - 1)
      next := (Dll.pushFront (Dll.unlink s.next s.prev (some i)).1
        (Dll.unlink s.next s.prev (some i)).2 none (some i)).1
      prev := (Dll.pushFront (Dll.unlink s.next s.prev (some i)).1
        (Dll.unlink s.next s.prev (some i)).2 none (some i)).2
      lastRelease := Function.update s.lastRelease i s.clock
      clock := s.clock + 1 }
  else
    .ok { s with
      buf := Function.update s.buf i { s.buf i with refcnt := (s.buf i).refcnt - 1 }
      held := Function.update s.held i (s.held i - 1) }

/-- `bpin`: one more reference, held by the log. -/
def bpin (s : BCache δ) (i : Fin nBuf) : BCache δ :=
  { s with
    buf := Function.update s.buf i { s.buf i with refcnt := (s.buf i).refcnt + 1 }
    pins := Function.update s.pins i (s.pins i + 1) }

/-- `bunpin`: the log drops its reference. -/
def bunpin (s : BCache δ) (i : Fin nBuf) : Result (BCache δ) :=
  if s.pins i = 0 then .wait
  else .ok { s with
    buf := Function.update s.buf i { s.buf i with refcnt := (s.buf i).refcnt - 1 }
    pins := Function.update s.pins i (s.pins i - 1) }

/-- A caller holding the buffer changes its data. -/
def modify (s : BCache δ) (i : Fin nBuf) (d : δ) : Result (BCache δ) :=
  if s.held i = 0 then .wait
  else .ok { s with buf := Function.update s.buf i { s.buf i with data := d } }

/-! ## The cache as a system -/

/-- The calls the rest of the kernel makes (`bget` is static in bio.c). -/
inductive Op (δ : Type) where
  | bread (dev blockno : Nat)
  | bwrite (i : Fin nBuf)
  | brelse (i : Fin nBuf)
  | bpin (i : Fin nBuf)
  | bunpin (i : Fin nBuf)
  | modify (i : Fin nBuf) (d : δ)

/-- One call. -/
def step (s : BCache δ) : Op δ → Result (BCache δ)
  | .bread dev blockno =>
    match bread s dev blockno with
    | .ok (s', _) => .ok s'
    | .wait => .wait
    | .panic msg => .panic msg
  | .bwrite i => bwrite s i
  | .brelse i => brelse s i
  | .bpin i => .ok (bpin s i)
  | .bunpin i => bunpin s i
  | .modify i d => modify s i d

/-- The buffer cache from `binit` on, over a disk holding `disk`. -/
def bioSystem [Inhabited δ] (disk : Nat → δ) : System (BCache δ) (Op δ) :=
  { init := binit disk, step := step }

/-! ## What each completed step does -/

section Steps

variable {s s' : BCache δ} {i : Fin nBuf}

theorem bget_ok {dev blockno : Nat} (h : bget s dev blockno = .ok (s', i)) :
    (findCached s dev blockno = some (some i) ∧
      s' = { s with
        buf := Function.update s.buf i { s.buf i with refcnt := (s.buf i).refcnt + 1 }
        held := Function.update s.held i (s.held i + 1) }) ∨
    ((∀ j, findCached s dev blockno ≠ some (some j)) ∧ findFree s = some (some i) ∧
      s' = { s with
        buf := Function.update s.buf i
          { s.buf i with dev := dev, blockno := blockno, valid := false, refcnt := 1 }
        held := Function.update s.held i (s.held i + 1) }) := by
  unfold bget at h
  split at h
  · next j hc =>
    cases h
    exact Or.inl ⟨hc, rfl⟩
  · next hnc =>
    split at h
    · next j hf =>
      cases h
      exact Or.inr ⟨fun j hc => hnc j hc, hf, rfl⟩
    · cases h

theorem bread_ok {dev blockno : Nat} (h : bread s dev blockno = .ok (s', i)) :
    ∃ s₁, bget s dev blockno = .ok (s₁, i) ∧
      s' = if (s₁.buf i).valid then s₁
        else { s₁ with
          buf := Function.update s₁.buf i
            { s₁.buf i with data := s₁.disk (s₁.buf i).blockno, valid := true } } := by
  unfold bread at h
  split at h
  · next s₁ j hg =>
    by_cases hv : (s₁.buf j).valid
    · rw [if_pos hv] at h
      cases h
      exact ⟨_, hg, by rw [if_pos hv]⟩
    · rw [if_neg hv] at h
      cases h
      exact ⟨_, hg, by rw [if_neg hv]⟩
  · cases h
  · cases h

theorem bwrite_ok (h : bwrite s i = .ok s') :
    s.held i ≠ 0 ∧ s' = { s with disk := Function.update s.disk (s.buf i).blockno (s.buf i).data } := by
  unfold bwrite at h
  split_ifs at h with hh
  cases h
  exact ⟨hh, rfl⟩

theorem brelse_ok (h : brelse s i = .ok s') :
    s.held i ≠ 0 ∧
      ((s.buf i).refcnt - 1 = 0 ∧
        s' = { s with
          buf := Function.update s.buf i { s.buf i with refcnt := (s.buf i).refcnt - 1 }
          held := Function.update s.held i (s.held i - 1)
          next := (Dll.pushFront (Dll.unlink s.next s.prev (some i)).1
            (Dll.unlink s.next s.prev (some i)).2 none (some i)).1
          prev := (Dll.pushFront (Dll.unlink s.next s.prev (some i)).1
            (Dll.unlink s.next s.prev (some i)).2 none (some i)).2
          lastRelease := Function.update s.lastRelease i s.clock
          clock := s.clock + 1 } ∨
      (s.buf i).refcnt - 1 ≠ 0 ∧
        s' = { s with
          buf := Function.update s.buf i { s.buf i with refcnt := (s.buf i).refcnt - 1 }
          held := Function.update s.held i (s.held i - 1) }) := by
  unfold brelse at h
  split_ifs at h with hh hz
  · cases h
    exact ⟨hh, Or.inl ⟨hz, rfl⟩⟩
  · cases h
    exact ⟨hh, Or.inr ⟨hz, rfl⟩⟩

theorem bunpin_ok (h : bunpin s i = .ok s') :
    s.pins i ≠ 0 ∧
      s' = { s with
        buf := Function.update s.buf i { s.buf i with refcnt := (s.buf i).refcnt - 1 }
        pins := Function.update s.pins i (s.pins i - 1) } := by
  unfold bunpin at h
  split_ifs at h with hp
  cases h
  exact ⟨hp, rfl⟩

theorem modify_ok {d : δ} (h : modify s i d = .ok s') :
    s.held i ≠ 0 ∧ s' = { s with buf := Function.update s.buf i { s.buf i with data := d } } := by
  unfold modify at h
  split_ifs at h with hh
  cases h
  exact ⟨hh, rfl⟩

theorem step_bread_ok {dev blockno : Nat} (h : step s (.bread dev blockno) = .ok s') :
    ∃ i, bread s dev blockno = .ok (s', i) := by
  simp only [step] at h
  split at h
  · next s₁ i hb =>
    cases h
    exact ⟨i, hb⟩
  · cases h
  · cases h

end Steps

end Xv6.Bio
