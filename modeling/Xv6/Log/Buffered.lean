import Xv6.Bio.Frame
import Xv6.Log.Disk
import Xv6.Log.Transaction

/-
  Xv6/Log/Buffered.lean --- the log running on the buffer cache.

  Xv6/Log/Transaction.lean models `struct log` and Xv6/Bio/Cache.lean the
  buffer cache; here they run together as the kernel runs them.  `log_write`
  pins the buffer of a block new to the transaction, and `commit()` moves blocks
  between the cache and the disk with `bread`, `bwrite`, `brelse` and `bunpin`.

  STATE.  The log, the cache over the disk, and where the committing operation
  is in `commit()`.  Blocks are `Block`s (Xv6/Log/Disk.lean), so `write_head`
  writes the header as `Log.writeHead` says.  Every file-system block is on the
  one disk, `log.dev = ROOTDEV`, and the log occupies the blocks from `start`
  (`sb.logstart`) on.

  STEPS.  As in Transaction.lean, each action is one critical section of one
  operation; `beginOp`, `endOp` and `endOpWake` are the ones of that module.
  `commit()` runs without `log.lock` while other threads read and release
  buffers (`read()` takes no transaction), so it is split into steps: one per
  block of `write_log`, one per block of `install_trans(0)`, and one for each
  `write_head`.  A step makes all the cache calls of one iteration of its loop
  on buffers the committing operation holds; the last one is the `lh := []` of
  `Log.endOpCommit`.  Any thread may `bread` a block of the disk, `brelse` a
  buffer it holds, or change the data of a buffer it holds.
-/

set_option autoImplicit false

namespace Xv6.Log

open Machine Bio

/-- Where the committing operation is in `commit()`: at block `tail` of
`write_log`, or at block `tail` of `install_trans(0)`. -/
inductive CommitPc where
  | writeLog (tail : Nat)
  | install (tail : Nat)
  deriving DecidableEq, Repr

/-- The log, the buffer cache, and the progress of `commit()`. -/
structure FsState (τ : Type) where
  log : LogState τ
  cache : BCache Block
  commitPc : CommitPc

namespace Cached

variable {τ : Type} [DecidableEq τ]

/-! ## commit() on the cache -/

/-- One iteration of `write_log`: the cached block `blockno` is copied to log
block `tail`. -/
def writeLogBlock (c : BCache Block) (start blockno tail : Nat) : Result (BCache Block) := do
  let (c, toBuf) ← bread c rootDev (start + tail + 1)
  let (c, fromBuf) ← bread c rootDev blockno
  let c ← modify c toBuf (c.buf fromBuf).data
  let c ← bwrite c toBuf
  let c ← brelse c fromBuf
  brelse c toBuf

/-- `write_head`: the header block records `lh`. -/
def writeHead (c : BCache Block) (start : Nat) (lh : List Nat) : Result (BCache Block) := do
  let (c, buf) ← bread c rootDev start
  let c ← modify c buf (Log.writeHead (c.buf buf).data lh)
  let c ← bwrite c buf
  brelse c buf

/-- One iteration of `install_trans(0)`: log block `tail` is copied to its home
`blockno`, and the home buffer is unpinned. -/
def installBlock (c : BCache Block) (start blockno tail : Nat) : Result (BCache Block) := do
  let (c, lbuf) ← bread c rootDev (start + tail + 1)
  let (c, dbuf) ← bread c rootDev blockno
  let c ← modify c dbuf (c.buf lbuf).data
  let c ← bwrite c dbuf
  let c ← bunpin c dbuf
  let c ← brelse c lbuf
  brelse c dbuf

/-- One step of `commit()` by operation `t`, which `end_op` made the
committer. -/
def commitStep (start : Nat) (s : FsState τ) (t : τ) : Result (FsState τ) :=
  match s.log.pc t, s.commitPc with
  | .commit, .writeLog tail =>
    if h : tail < s.log.lh.length then do
      let c ← writeLogBlock s.cache start s.log.lh[tail] tail
      pure { s with cache := c, commitPc := .writeLog (tail + 1) }
    else if s.log.lh.length = 0 then do
      -- `commit()` with nothing logged writes nothing
      let log ← endOpCommit s.log t
      pure { s with log := log, commitPc := .writeLog 0 }
    else do
      -- write the header: the transaction commits here
      let c ← writeHead s.cache start s.log.lh
      pure { s with cache := c, commitPc := .install 0 }
  | .commit, .install tail =>
    if h : tail < s.log.lh.length then do
      let c ← installBlock s.cache start s.log.lh[tail] tail
      pure { s with cache := c, commitPc := .install (tail + 1) }
    else do
      -- `log.lh.n = 0; write_head();` erases the transaction
      let c ← writeHead s.cache start []
      let log ← endOpCommit s.log t
      pure { log := log, cache := c, commitPc := .writeLog 0 }
  | _, _ => .wait

/-! ## What the cache calls of commit() keep -/

/-- The cache as the log's steps need it: coherent, and every buffer in use
holding valid data of the disk. -/
structure Steady (c : BCache Block) : Prop where
  coherent : Coherent c
  inUse : InUse c rootDev

section Steady

variable {c c' : BCache Block}

theorem Steady.bread (h : Steady c) {blockno : Nat} {i : Fin nBuf}
    (hb : Bio.bread c rootDev blockno = .ok (c', i)) : Steady c' ∧ Keeps c c' :=
  ⟨⟨h.coherent.bread hb, h.inUse.bread hb⟩, h.coherent.keeps_bread hb⟩

theorem Steady.brelse (h : Steady c) {i : Fin nBuf} (hr : Bio.brelse c i = .ok c') :
    Steady c' ∧ Keeps c c' :=
  ⟨⟨h.coherent.brelse hr, h.inUse.brelse hr⟩, keeps_brelse hr⟩

theorem Steady.modify (h : Steady c) {i : Fin nBuf} {d : Block} (hm : Bio.modify c i d = .ok c') :
    Steady c' ∧ Keeps c c' :=
  ⟨⟨h.coherent.modify hm, h.inUse.modify hm⟩, keeps_modify hm⟩

theorem Steady.bwrite (h : Steady c) {i : Fin nBuf} (hw : Bio.bwrite c i = .ok c') :
    Steady c' ∧ Keeps c c' :=
  ⟨⟨h.coherent.bwrite hw, h.inUse.bwrite hw⟩, keeps_bwrite hw⟩

/-- A block of `write_log` changes no pin and no pinned buffer's block. -/
theorem Steady.writeLogBlock (h : Steady c) {start blockno tail : Nat}
    (hw : writeLogBlock c start blockno tail = .ok c') : Steady c' ∧ Keeps c c' := by
  obtain ⟨⟨c₁, toBuf⟩, h₁, hw⟩ := Result.bind_eq_ok.1 hw
  obtain ⟨⟨c₂, fromBuf⟩, h₂, hw⟩ := Result.bind_eq_ok.1 hw
  obtain ⟨c₃, h₃, hw⟩ := Result.bind_eq_ok.1 hw
  obtain ⟨c₄, h₄, hw⟩ := Result.bind_eq_ok.1 hw
  obtain ⟨c₅, h₅, h₆⟩ := Result.bind_eq_ok.1 hw
  obtain ⟨s₁, k₁⟩ := h.bread h₁
  obtain ⟨s₂, k₂⟩ := s₁.bread h₂
  obtain ⟨s₃, k₃⟩ := s₂.modify h₃
  obtain ⟨s₄, k₄⟩ := s₃.bwrite h₄
  obtain ⟨s₅, k₅⟩ := s₄.brelse h₅
  obtain ⟨s₆, k₆⟩ := s₅.brelse h₆
  exact ⟨s₆, k₁.trans (k₂.trans (k₃.trans (k₄.trans (k₅.trans k₆))))⟩

/-- A block of `write_log` writes to log block `tail` the data of the buffer in
use that caches the block. -/
theorem Steady.writeLogBlock_disk (h : Steady c) {start blockno tail : Nat} {p : Fin nBuf}
    (hpb : (c.buf p).blockno = blockno) (hpr : (c.buf p).refcnt ≠ 0)
    (hw : Cached.writeLogBlock c start blockno tail = .ok c') :
    c'.disk (start + tail + 1) = (c.buf p).data := by
  obtain ⟨⟨c₁, toBuf⟩, h₁, hw⟩ := Result.bind_eq_ok.1 hw
  obtain ⟨⟨c₂, fromBuf⟩, h₂, hw⟩ := Result.bind_eq_ok.1 hw
  obtain ⟨c₃, h₃, hw⟩ := Result.bind_eq_ok.1 hw
  obtain ⟨c₄, h₄, hw⟩ := Result.bind_eq_ok.1 hw
  obtain ⟨c₅, h₅, h₆⟩ := Result.bind_eq_ok.1 hw
  have s₁ := (h.bread h₁).1
  -- the buffer `p` keeps its block and data through the first `bread`
  obtain ⟨hd₁, hb₁, hdata₁, hr₁⟩ := h.inUse.bread_buf h₁ hpr
  have hpd : (c.buf p).dev = rootDev := (h.inUse p hpr).2
  -- so the second `bread` returns it
  have hfrom : fromBuf = p :=
    s₁.coherent.bread_eq_of_holds (by decide) (hd₁.trans hpd) (hb₁.trans hpb) h₂
  subst hfrom
  obtain ⟨-, -, -, -, -, hto₁, -, hrto, -⟩ := bread_spec h₁
  obtain ⟨-, -, hdata₂, -⟩ := s₁.inUse.bread_buf h₂ hr₁
  obtain ⟨-, hto₂, -, -⟩ := s₁.inUse.bread_buf h₂ (j := toBuf) (by omega)
  obtain ⟨-, hc₃⟩ := modify_ok h₃
  obtain ⟨-, hc₄⟩ := bwrite_ok h₄
  have hdisk₅ : c₅.disk = c₄.disk := by
    rcases (brelse_ok h₅).2 with ⟨-, rfl⟩ | ⟨-, rfl⟩ <;> rfl
  have hdisk₆ : c'.disk = c₅.disk := by
    rcases (brelse_ok h₆).2 with ⟨-, rfl⟩ | ⟨-, rfl⟩ <;> rfl
  -- `bwrite` of the log buffer, which now holds the data of `p`
  rw [hdisk₆, hdisk₅, hc₄, hc₃]
  simp [hto₂, hto₁, hdata₂, hdata₁]

/-- `write_head` changes no pin and no pinned buffer's block. -/
theorem Steady.writeHead (h : Steady c) {start : Nat} {lh : List Nat}
    (hw : writeHead c start lh = .ok c') : Steady c' ∧ Keeps c c' := by
  obtain ⟨⟨c₁, buf⟩, h₁, hw⟩ := Result.bind_eq_ok.1 hw
  obtain ⟨c₂, h₂, hw⟩ := Result.bind_eq_ok.1 hw
  obtain ⟨c₃, h₃, h₄⟩ := Result.bind_eq_ok.1 hw
  obtain ⟨s₁, k₁⟩ := h.bread h₁
  obtain ⟨s₂, k₂⟩ := s₁.modify h₂
  obtain ⟨s₃, k₃⟩ := s₂.bwrite h₃
  obtain ⟨s₄, k₄⟩ := s₃.brelse h₄
  exact ⟨s₄, k₁.trans (k₂.trans (k₃.trans k₄))⟩

/-- A block of `install_trans(0)` on the buffer `p` pinned for its home block
drops that pin, exactly once; it changes no other pin, no other pinned buffer's
block, and no count of holders. -/
theorem Steady.installBlock (h : Steady c) {start blockno tail : Nat} {p : Fin nBuf}
    (hpb : (c.buf p).blockno = blockno) (hpin : c.pins p = 1)
    (hw : installBlock c start blockno tail = .ok c') :
    Steady c' ∧ c'.pins = Function.update c.pins p 0 ∧ c'.held = c.held ∧
      ∀ j, j ≠ p → c.pins j ≠ 0 →
        (c'.buf j).dev = (c.buf j).dev ∧ (c'.buf j).blockno = (c.buf j).blockno := by
  obtain ⟨⟨c₁, lbuf⟩, h₁, hw⟩ := Result.bind_eq_ok.1 hw
  obtain ⟨⟨c₂, dbuf⟩, h₂, hw⟩ := Result.bind_eq_ok.1 hw
  obtain ⟨c₃, h₃, hw⟩ := Result.bind_eq_ok.1 hw
  obtain ⟨c₄, h₄, hw⟩ := Result.bind_eq_ok.1 hw
  obtain ⟨c₅, h₅, hw⟩ := Result.bind_eq_ok.1 hw
  obtain ⟨c₆, h₆, h₇⟩ := Result.bind_eq_ok.1 hw
  obtain ⟨s₁, k₁⟩ := h.bread h₁
  obtain ⟨s₂, k₂⟩ := s₁.bread h₂
  obtain ⟨s₃, k₃⟩ := s₂.modify h₃
  obtain ⟨s₄, k₄⟩ := s₃.bwrite h₄
  have k₁₄ := k₁.trans (k₂.trans (k₃.trans k₄))
  have hp0 : c.pins p ≠ 0 := by omega
  -- the second `bread` finds the pinned buffer, which still caches the block
  have hdbuf : dbuf = p := by
    have hdev : (c₁.buf p).dev = rootDev := by
      rw [k₁.dev p hp0]
      exact (h.inUse p (by have := h.coherent.refcnt p; omega)).2
    exact s₁.coherent.bread_eq_of_holds (by decide) hdev (by rw [k₁.blockno p hp0, hpb]) h₂
  subst hdbuf
  obtain ⟨hpin₄, hu₅⟩ := bunpin_ok h₅
  have s₅ : Steady c₅ := ⟨s₄.coherent.bunpin h₅, s₄.inUse.bunpin h₅⟩
  obtain ⟨s₆, k₆⟩ := s₅.brelse h₆
  obtain ⟨s₇, k₇⟩ := s₆.brelse h₇
  have hpins₅ : c₅.pins = Function.update c.pins dbuf 0 := by
    rw [hu₅]
    dsimp only
    rw [k₁₄.pins, hpin]
  have hpins : c'.pins = Function.update c.pins dbuf 0 := by rw [k₇.pins, k₆.pins, hpins₅]
  refine ⟨s₇, hpins, ?_, fun j hj hjp => ?_⟩
  · -- each buffer is taken by one `bread` and given back by one `brelse`
    obtain ⟨-, -, hheld₁, -⟩ := bread_spec h₁
    obtain ⟨-, -, hheld₂, -⟩ := bread_spec h₂
    obtain ⟨hne₆, hc₆⟩ := brelse_ok h₆
    obtain ⟨hne₇, hc₇⟩ := brelse_ok h₇
    obtain ⟨-, rfl⟩ := modify_ok h₃
    obtain ⟨-, rfl⟩ := bwrite_ok h₄
    have hheld₆ : c₆.held = Function.update c₅.held lbuf (c₅.held lbuf - 1) := by
      rcases hc₆ with ⟨-, rfl⟩ | ⟨-, rfl⟩ <;> rfl
    have hheld₇ : c'.held = Function.update c₆.held dbuf (c₆.held dbuf - 1) := by
      rcases hc₇ with ⟨-, rfl⟩ | ⟨-, rfl⟩ <;> rfl
    rw [hu₅] at hheld₆
    funext j
    rw [hheld₇, hheld₆]
    dsimp only
    rw [hheld₂, hheld₁]
    simp only [Function.update_apply]
    split_ifs <;> subst_vars <;> omega
  · -- other pinned buffers keep their blocks through every call
    have hj₄ : c₄.pins j ≠ 0 := by rw [k₁₄.pins]; exact hjp
    have hj₅ : c₅.pins j ≠ 0 := by rw [hpins₅, Function.update_of_ne hj]; exact hjp
    have hj₆ : c₆.pins j ≠ 0 := by rw [k₆.pins]; exact hj₅
    have hbuf₅ : c₅.buf j = c₄.buf j := by
      rw [hu₅]
      exact Function.update_of_ne hj _ _
    refine ⟨?_, ?_⟩
    · rw [k₇.dev j hj₆, k₆.dev j hj₅, hbuf₅, k₁₄.dev j hjp]
    · rw [k₇.blockno j hj₆, k₆.blockno j hj₅, hbuf₅, k₁₄.blockno j hjp]

end Steady

/-! ## log_write on the cache -/

/-- `log_write(b)` by operation `t` on buffer `i`, which it holds: the log
records the block and, if the block is new to the transaction, pins the
buffer. -/
def logWrite (s : FsState τ) (t : τ) (i : Fin nBuf) : Result (FsState τ) :=
  if s.cache.held i = 0 then .wait
  else
    match Log.logWrite s.log t (s.cache.buf i).blockno with
    | .ok log =>
      .ok { s with
        log := log
        cache := if (s.cache.buf i).blockno ∈ s.log.lh then s.cache else bpin s.cache i }
    | .wait => .wait
    | .panic msg => .panic msg

/-! ## The system -/

/-- The actions of the operations on the log and the cache. -/
inductive Op (τ : Type) where
  | beginOp (t : τ)
  | logWrite (t : τ) (i : Fin nBuf)
  | endOp (t : τ)
  | commit (t : τ)
  | endOpWake (t : τ)
  | bread (blockno : Nat)
  | brelse (i : Fin nBuf)
  | modify (i : Fin nBuf) (d : Block)

/-- One action, with the log's blocks from `start` on. -/
def step (start : Nat) (s : FsState τ) : Op τ → Result (FsState τ)
  | .beginOp t => do
    let log ← beginOp s.log t
    pure { s with log := log }
  | .logWrite t i => logWrite s t i
  | .endOp t => do
    let log ← endOp s.log t
    pure { s with log := log }
  | .commit t => commitStep start s t
  | .endOpWake t => do
    let log ← endOpWake s.log t
    pure { s with log := log }
  | .bread blockno => do
    let (c, _) ← Bio.bread s.cache rootDev blockno
    pure { s with cache := c }
  | .brelse i => do
    let c ← Bio.brelse s.cache i
    pure { s with cache := c }
  | .modify i d => do
    let c ← Bio.modify s.cache i d
    pure { s with cache := c }

/-- After `binit` and `initlog` on a disk holding `disk` whose superblock gives
the log `size` blocks. -/
def initFs (size : Nat) (disk : Disk) : FsState τ :=
  { log := initLog size, cache := binit disk, commitPc := .writeLog 0 }

/-- The log and the cache as one system of interleaved operations. -/
def fsSystem (τ : Type) [DecidableEq τ] (size start : Nat) (disk : Disk) :
    System (FsState τ) (Op τ) :=
  { init := initFs size disk, step := step start }

/-! ## What each completed step does -/

section Steps

variable {s s' : FsState τ}

omit [DecidableEq τ] in
theorem step_log_ok {r : Result (LogState τ)}
    (h : (do let log ← r; pure { s with log := log }) = Result.ok s') :
    ∃ log, r = .ok log ∧ s' = { s with log := log } := by
  obtain ⟨log, hr, h⟩ := Result.bind_eq_ok.1 h
  exact ⟨log, hr, (Result.pure_eq_ok.1 h).symm⟩

omit [DecidableEq τ] in
theorem step_cache_ok {r : Result (BCache Block)}
    (h : (do let c ← r; pure { s with cache := c }) = Result.ok s') :
    ∃ c, r = .ok c ∧ s' = { s with cache := c } := by
  obtain ⟨c, hr, h⟩ := Result.bind_eq_ok.1 h
  exact ⟨c, hr, (Result.pure_eq_ok.1 h).symm⟩

omit [DecidableEq τ] in
theorem step_bread_ok {blockno : Nat}
    (h : (do let (c, _) ← Bio.bread s.cache rootDev blockno; pure { s with cache := c }) =
      Result.ok s') :
    ∃ c i, Bio.bread s.cache rootDev blockno = .ok (c, i) ∧ s' = { s with cache := c } := by
  obtain ⟨⟨c, i⟩, hr, h⟩ := Result.bind_eq_ok.1 h
  exact ⟨c, i, hr, (Result.pure_eq_ok.1 h).symm⟩

theorem logWrite_ok {t : τ} {i : Fin nBuf} (h : logWrite s t i = .ok s') :
    s.cache.held i ≠ 0 ∧ ∃ log, Log.logWrite s.log t (s.cache.buf i).blockno = .ok log ∧
      s' = { s with
        log := log
        cache := if (s.cache.buf i).blockno ∈ s.log.lh then s.cache else bpin s.cache i } := by
  unfold logWrite at h
  by_cases hheld : s.cache.held i = 0
  · rw [if_pos hheld] at h
    cases h
  rw [if_neg hheld] at h
  split at h
  · next log hl =>
    cases h
    exact ⟨hheld, log, hl, rfl⟩
  · cases h
  · cases h

/-- The five steps of `commit()`: a block of `write_log`, the end of a `commit()`
with nothing logged, the `write_head` that commits, a block of
`install_trans`, and the `write_head` that erases the transaction. -/
theorem commitStep_ok {start : Nat} {t : τ} (h : commitStep start s t = .ok s') :
    s.log.pc t = .commit ∧
      ((∃ tail, ∃ ht : tail < s.log.lh.length, ∃ c, s.commitPc = .writeLog tail ∧
          writeLogBlock s.cache start s.log.lh[tail] tail = .ok c ∧
          s' = { s with cache := c, commitPc := .writeLog (tail + 1) }) ∨
        (∃ tail, s.commitPc = .writeLog tail ∧ s.log.lh.length = 0 ∧
          ∃ log, endOpCommit s.log t = .ok log ∧ s' = { s with log := log, commitPc := .writeLog 0 }) ∨
        (∃ tail, s.commitPc = .writeLog tail ∧ s.log.lh.length ≤ tail ∧ s.log.lh.length ≠ 0 ∧
          ∃ c, writeHead s.cache start s.log.lh = .ok c ∧
            s' = { s with cache := c, commitPc := .install 0 }) ∨
        (∃ tail, ∃ ht : tail < s.log.lh.length, ∃ c, s.commitPc = .install tail ∧
          installBlock s.cache start s.log.lh[tail] tail = .ok c ∧
          s' = { s with cache := c, commitPc := .install (tail + 1) }) ∨
        (∃ tail, s.commitPc = .install tail ∧ s.log.lh.length ≤ tail ∧
          ∃ c log, writeHead s.cache start [] = .ok c ∧ endOpCommit s.log t = .ok log ∧
            s' = { log := log, cache := c, commitPc := .writeLog 0 })) := by
  unfold commitStep at h
  split at h
  · next tail hpc hcp =>
    refine ⟨hpc, ?_⟩
    by_cases ht : tail < s.log.lh.length
    · rw [dif_pos ht] at h
      obtain ⟨c, hc, h⟩ := Result.bind_eq_ok.1 h
      exact Or.inl ⟨tail, ht, c, hcp, hc, (Result.pure_eq_ok.1 h).symm⟩
    · rw [dif_neg ht] at h
      by_cases hz : s.log.lh.length = 0
      · rw [if_pos hz] at h
        obtain ⟨log, hl, h⟩ := Result.bind_eq_ok.1 h
        exact Or.inr (Or.inl ⟨tail, hcp, hz, log, hl, (Result.pure_eq_ok.1 h).symm⟩)
      · rw [if_neg hz] at h
        obtain ⟨c, hc, h⟩ := Result.bind_eq_ok.1 h
        exact Or.inr (Or.inr (Or.inl ⟨tail, hcp, by omega, hz, c, hc, (Result.pure_eq_ok.1 h).symm⟩))
  · next tail hpc hcp =>
    refine ⟨hpc, ?_⟩
    by_cases ht : tail < s.log.lh.length
    · rw [dif_pos ht] at h
      obtain ⟨c, hc, h⟩ := Result.bind_eq_ok.1 h
      exact Or.inr (Or.inr (Or.inr (Or.inl ⟨tail, ht, c, hcp, hc, (Result.pure_eq_ok.1 h).symm⟩)))
    · rw [dif_neg ht] at h
      obtain ⟨c, hc, h⟩ := Result.bind_eq_ok.1 h
      obtain ⟨log, hl, h⟩ := Result.bind_eq_ok.1 h
      exact Or.inr (Or.inr (Or.inr (Or.inr
        ⟨tail, hcp, by omega, c, log, hc, hl, (Result.pure_eq_ok.1 h).symm⟩)))
  · cases h

end Steps

end Cached

end Xv6.Log
