import Xv6.Log.Buffered
import Xv6.Log.GroupCommit

/-
  Xv6/Log/Pinning.lean --- the blocks of a transaction stay pinned in the cache.

  THE INVARIANT `Pinned`, over every interleaving of the operations of
  Xv6/Log/Buffered.lean: the blocks of `log.lh` are distinct; every block of
  the transaction that `install_trans` has not yet installed is cached by a
  buffer pinned exactly once; and no other buffer is pinned.  With it go the
  isolation invariant of Xv6/Log/GroupCommit.lean, the cache's own invariant
  (`Steady`), and what ties the progress of `commit()` to the operations.

  From it (`log_blocks_pinned`): the buffer of each such block is valid and has
  one reference more than its holders, so `bget` never recycles it; each block
  of `write_log` copies to the log the content the cache presents for the block;
  and each block of `install_trans(0)` drops the pin of its block's buffer, and
  with it one reference, exactly once.

  Once `install_trans` has installed a block, its buffer is unpinned while
  `log.lh` still lists the block, until `commit()` clears the header: in those
  states a block of the transaction can have no reference left
  (`installed_block_unreferenced_before_clear`).
-/

set_option autoImplicit false

namespace Xv6.Log

open Machine Bio

/-- How many blocks of the transaction `install_trans` has installed. -/
def CommitPc.installed : CommitPc → Nat
  | .writeLog _ => 0
  | .install tail => tail

section Active

variable {τ : Type} [Fintype τ]

/-- While an operation is inside a transaction, nobody is committing. -/
theorem Isolated.no_commit_of_active {log : LogState τ} (hi : Isolated log) {t : τ}
    {logged : List Nat} (ht : log.pc t = .active logged) : ∀ u, log.pc u ≠ .commit := by
  intro u hu
  have hin := one_le_insideCount ht
  have hc : log.committing = false := by
    by_contra hc
    have := hi.quiet (by simpa using hc)
    omega
  have hcom := hi.committers
  have hone := one_le_committerCount (Or.inl hu)
  simp only [hc, Bool.false_eq_true, if_false] at hcom
  omega

end Active

namespace Cached

variable {τ : Type} [Fintype τ]

/-! ## The invariant -/

/-- What the log on the cache keeps true. -/
structure Pinned (s : FsState τ) : Prop where
  isolated : Isolated s.log
  steady : Steady s.cache
  idle : (∀ t, s.log.pc t ≠ .commit) → s.commitPc = .writeLog 0
  progress : s.commitPc.installed ≤ s.log.lh.length
  nodup : s.log.lh.Nodup
  cached : ∀ b ∈ s.log.lh.drop s.commitPc.installed,
    ∃ j, (s.cache.buf j).blockno = b ∧ s.cache.pins j = 1
  pinned : ∀ j, s.cache.pins j ≠ 0 →
    s.cache.pins j = 1 ∧ (s.cache.buf j).blockno ∈ s.log.lh.drop s.commitPc.installed

section Preservation

variable {s s' : FsState τ}

/-- Pinned buffers are in use, so they hold the disk's device and valid data. -/
theorem Pinned.inUse_of_pin (h : Pinned s) {j : Fin nBuf} (hj : s.cache.pins j ≠ 0) :
    (s.cache.buf j).valid = true ∧ (s.cache.buf j).dev = rootDev :=
  h.steady.inUse j (by have := h.steady.coherent.refcnt j; omega)

/-- Cache calls that keep the pinned buffers keep the invariant. -/
theorem Pinned.of_cache (h : Pinned s) {c : BCache Block} (hs : Steady c) (hk : Keeps s.cache c) :
    Pinned { s with cache := c } := by
  refine ⟨h.isolated, hs, h.idle, h.progress, h.nodup, fun b hb => ?_, fun j hj => ?_⟩
  · obtain ⟨j, hjb, hjp⟩ := h.cached b hb
    have hj : s.cache.pins j ≠ 0 := by omega
    exact ⟨j, (hk.blockno j hj).trans hjb, by rw [hk.pins]; exact hjp⟩
  · have hj' : s.cache.pins j ≠ 0 := by rw [← hk.pins]; exact hj
    obtain ⟨h1, h2⟩ := h.pinned j hj'
    exact ⟨by rw [hk.pins]; exact h1, by rw [hk.blockno j hj']; exact h2⟩

/-- A step of the log alone that changes no block of the transaction and makes
nobody the committer keeps the invariant. -/
theorem Pinned.of_log (h : Pinned s) {log : LogState τ} (hi : Isolated log) (hlh : log.lh = s.log.lh)
    (hpc : (∀ u, log.pc u ≠ .commit) → ∀ u, s.log.pc u ≠ .commit) : Pinned { s with log := log } := by
  refine ⟨hi, h.steady, fun hno => h.idle (hpc hno), ?_, ?_, ?_, ?_⟩
  · rw [hlh]
    exact h.progress
  · rw [hlh]
    exact h.nodup
  · rw [hlh]
    exact h.cached
  · rw [hlh]
    exact h.pinned

/-- While a commit runs, `commit()` may move on as long as what it has
installed stays. -/
theorem Pinned.of_commitPc (h : Pinned s) {t : τ} (ht : s.log.pc t = .commit) {pc : CommitPc}
    (hpc : pc.installed = s.commitPc.installed) : Pinned { s with commitPc := pc } := by
  refine ⟨h.isolated, h.steady, fun hno => absurd ht (hno t), ?_, h.nodup, ?_, ?_⟩
  · show pc.installed ≤ _
    rw [hpc]
    exact h.progress
  · show ∀ b ∈ s.log.lh.drop pc.installed, _
    rw [hpc]
    exact h.cached
  · show ∀ j, _ → _ ∧ _ ∈ s.log.lh.drop pc.installed
    rw [hpc]
    exact h.pinned

/-- Emptying the header once every block is installed keeps the invariant: no
buffer is left pinned. -/
theorem Pinned.clear (h : Pinned s) (hdone : s.log.lh.length ≤ s.commitPc.installed)
    {log : LogState τ} (hi : Isolated log) (hnil : log.lh = []) {c : BCache Block} (hs : Steady c)
    (hk : Keeps s.cache c) : Pinned { log := log, cache := c, commitPc := .writeLog 0 } := by
  have hdrop : s.log.lh.drop s.commitPc.installed = [] := List.drop_eq_nil_of_le hdone
  refine ⟨hi, hs, fun _ => rfl, by simp [CommitPc.installed], by simp [hnil], by simp [hnil],
    fun j hj => ?_⟩
  have hj' : s.cache.pins j ≠ 0 := by rw [← hk.pins]; exact hj
  have hmem := (h.pinned j hj').2
  rw [hdrop] at hmem
  exact absurd hmem List.not_mem_nil

/-- A block at or past what `install_trans` has installed has its pinned buffer. -/
theorem Pinned.buf_of_lt (h : Pinned s) {tail : Nat} (hle : s.commitPc.installed ≤ tail)
    (ht : tail < s.log.lh.length) :
    ∃ p, (s.cache.buf p).blockno = s.log.lh[tail] ∧ s.cache.pins p = 1 :=
  h.cached _ (List.mem_drop_iff_getElem.2 ⟨tail - s.commitPc.installed, by omega, by
    simp [Nat.add_sub_cancel' hle]⟩)

/-- The buffer of a block still to install is valid, of the disk, and referenced
beyond its holders, so `bget`'s second loop passes it by. -/
theorem Pinned.buf_ready (h : Pinned s) {j : Fin nBuf} (hj : s.cache.pins j = 1) :
    (s.cache.buf j).dev = rootDev ∧ (s.cache.buf j).valid = true ∧
      s.cache.held j + 1 ≤ (s.cache.buf j).refcnt ∧ findFree s.cache ≠ some (some j) := by
  obtain ⟨hv, hd⟩ := h.inUse_of_pin (show s.cache.pins j ≠ 0 by omega)
  have hr := h.steady.coherent.refcnt j
  refine ⟨hd, hv, by omega, fun hf => ?_⟩
  have hfree := (Dll.scan_spec hf).1
  simp only [isFree, beq_iff_eq] at hfree
  omega

variable [DecidableEq τ]

theorem Pinned.beginOp (h : Pinned s) {t : τ} {log : LogState τ} (hb : Log.beginOp s.log t = .ok log) :
    Pinned { s with log := log } := by
  obtain ⟨hpc, -, rfl⟩ := beginOp_ok hb
  refine h.of_log (h.isolated.beginOp hb) rfl fun hno u => ?_
  by_cases hu : u = t
  · subst hu
    simp [hpc]
  · simpa [hu] using hno u

theorem Pinned.endOp (h : Pinned s) {t : τ} {log : LogState τ} (he : Log.endOp s.log t = .ok log) :
    Pinned { s with log := log } := by
  obtain ⟨⟨logged, hpc⟩, -, hcase⟩ := endOp_ok he
  refine h.of_log (h.isolated.endOp he) (by rcases hcase with ⟨-, rfl⟩ | ⟨-, rfl⟩ <;> rfl)
    fun hno u => ?_
  rcases hcase with ⟨-, rfl⟩ | ⟨-, rfl⟩
  · -- `t` became the committer
    exact absurd (by simp) (hno t)
  · by_cases hu : u = t
    · subst hu
      simp [hpc]
    · simpa [hu] using hno u

theorem Pinned.endOpWake (h : Pinned s) {t : τ} {log : LogState τ}
    (he : Log.endOpWake s.log t = .ok log) : Pinned { s with log := log } := by
  obtain ⟨hpc, rfl⟩ := endOpWake_ok he
  refine h.of_log (h.isolated.endOpWake he) rfl fun hno u => ?_
  by_cases hu : u = t
  · subst hu
    simp [hpc]
  · simpa [hu] using hno u

/-- `log_write`: a block new to the transaction gets its buffer pinned, and no
buffer of it was pinned before. -/
theorem Pinned.logWrite (h : Pinned s) {t : τ} {i : Fin nBuf} (hw : Cached.logWrite s t i = .ok s') :
    Pinned s' := by
  obtain ⟨hheld, log, hl, rfl⟩ := logWrite_ok hw
  obtain ⟨logged, hpc, -, -, hlog⟩ := Log.logWrite_ok hl
  have hno := h.isolated.no_commit_of_active hpc
  have hidle := h.idle hno
  have hi := h.isolated.logWrite hl
  by_cases hb : (s.cache.buf i).blockno ∈ s.log.lh
  · -- absorption: the header already lists the block
    rw [if_pos hb]
    exact h.of_log hi (by rw [hlog, if_pos hb]) fun _ => hno
  rw [if_neg hb]
  have hlh : log.lh = s.log.lh ++ [(s.cache.buf i).blockno] := by rw [hlog, if_neg hb]
  -- a pinned buffer caches a block of the header, so `i` is not pinned yet
  have hpi : s.cache.pins i = 0 := by
    by_contra hp
    have hmem := (h.pinned i hp).2
    simp only [hidle, CommitPc.installed, List.drop_zero] at hmem
    exact hb hmem
  have hri : (s.cache.buf i).refcnt ≠ 0 := by
    have := h.steady.coherent.refcnt i
    omega
  refine ⟨hi, ⟨h.steady.coherent.bpin i, h.steady.inUse.bpin hri⟩, fun _ => hidle, ?_, ?_, ?_, ?_⟩
  · simp [hidle, CommitPc.installed]
  · rw [hlh, List.nodup_append]
    exact ⟨h.nodup, List.nodup_singleton _, fun a ha b hb' => by
      rw [List.mem_singleton] at hb'
      rintro rfl
      exact hb (hb' ▸ ha)⟩
  · intro b hb'
    simp only [hidle, CommitPc.installed, List.drop_zero, hlh, List.mem_append,
      List.mem_singleton] at hb'
    rcases hb' with hb' | rfl
    · obtain ⟨j, hjb, hjp⟩ := h.cached b (by simpa [hidle, CommitPc.installed] using hb')
      have hji : j ≠ i := by
        rintro rfl
        omega
      exact ⟨j, by simp [bpin, hji, hjb], by simp [bpin, hji, hjp]⟩
    · exact ⟨i, by simp [bpin], by simp [bpin, hpi]⟩
  · intro j hj
    by_cases hji : j = i
    · subst hji
      simp [bpin, hpi, hidle, CommitPc.installed, hlh]
    · have hj' : s.cache.pins j ≠ 0 := by simpa [bpin, hji] using hj
      obtain ⟨h1, h2⟩ := h.pinned j hj'
      simp only [hidle, CommitPc.installed, List.drop_zero] at h2
      simp [bpin, hji, h1, hidle, CommitPc.installed, hlh, h2]

omit [DecidableEq τ] in
/-- A block of `install_trans(0)`: its buffer loses its pin, and the block leaves
the part of the header still to install. -/
theorem Pinned.installBlock (h : Pinned s) {t : τ} (hpc : s.log.pc t = .commit) {start tail : Nat}
    (hcp : s.commitPc = .install tail) (ht : tail < s.log.lh.length) {c : BCache Block}
    (hw : Cached.installBlock s.cache start s.log.lh[tail] tail = .ok c) :
    Pinned { s with cache := c, commitPc := .install (tail + 1) } := by
  obtain ⟨p, hpb, hpin⟩ := h.buf_of_lt (by simp [hcp, CommitPc.installed]) ht
  obtain ⟨hs, hpins, -, hkeep⟩ := h.steady.installBlock hpb hpin hw
  have hcons : s.log.lh.drop tail = s.log.lh[tail] :: s.log.lh.drop (tail + 1) :=
    List.drop_eq_getElem_cons ht
  -- the header's blocks are distinct, so the installed one is not among the rest
  have hnot : s.log.lh[tail] ∉ s.log.lh.drop (tail + 1) := by
    have hd := h.nodup.sublist (List.drop_sublist tail s.log.lh)
    rw [hcons] at hd
    exact (List.nodup_cons.1 hd).1
  have hcached := h.cached
  have hpinned := h.pinned
  rw [hcp] at hcached hpinned
  simp only [CommitPc.installed] at hcached hpinned
  refine ⟨h.isolated, hs, fun hno => absurd hpc (hno t), ht, h.nodup, fun b hb => ?_, fun j hj => ?_⟩
  · obtain ⟨j, hjb, hjp⟩ := hcached b (hcons ▸ List.mem_cons_of_mem _ hb)
    have hjp' : j ≠ p := by
      rintro rfl
      exact hnot (hpb ▸ hjb ▸ hb)
    refine ⟨j, ?_, ?_⟩
    · exact ((hkeep j hjp' (by omega)).2).trans hjb
    · show c.pins j = 1
      rw [hpins, Function.update_of_ne hjp']
      exact hjp
  · have hjp : j ≠ p := by
      rintro rfl
      exact hj (by rw [hpins]; simp)
    have hj' : s.cache.pins j ≠ 0 := by
      have : c.pins j ≠ 0 := hj
      rwa [hpins, Function.update_of_ne hjp] at this
    obtain ⟨h1, h2⟩ := hpinned j hj'
    have hdj := (h.inUse_of_pin hj').2
    have hdp : (s.cache.buf p).dev = rootDev := (h.inUse_of_pin (show s.cache.pins p ≠ 0 by omega)).2
    -- a second buffer of the installed block would break the cache's uniqueness
    have hne : (s.cache.buf j).blockno ≠ s.log.lh[tail] := fun he =>
      hjp (h.steady.coherent.unique j p (by rw [hdj]; decide) (hdj.trans hdp.symm) (he.trans hpb.symm))
    rw [hcons, List.mem_cons] at h2
    refine ⟨?_, ?_⟩
    · show c.pins j = 1
      rw [hpins, Function.update_of_ne hjp]
      exact h1
    · show (c.buf j).blockno ∈ _
      rw [(hkeep j hjp hj').2]
      exact h2.resolve_left hne

/-- One step of `commit()` keeps the invariant. -/
theorem Pinned.commitStep (h : Pinned s) {start : Nat} {t : τ}
    (hc : Cached.commitStep start s t = .ok s') : Pinned s' := by
  obtain ⟨hpc, hcase⟩ := commitStep_ok hc
  rcases hcase with ⟨tail, ht, c, hcp, hw, rfl⟩ | ⟨tail, hcp, hz, log, hl, rfl⟩ |
    ⟨tail, hcp, -, -, c, hw, rfl⟩ | ⟨tail, ht, c, hcp, hw, rfl⟩ | ⟨tail, hcp, hle, c, log, hw, hl, rfl⟩
  · -- a block of `write_log` moves only buffers of log blocks
    obtain ⟨hs, hk⟩ := h.steady.writeLogBlock hw
    exact (h.of_cache hs hk).of_commitPc hpc (by simp [hcp, CommitPc.installed])
  · -- `commit()` with nothing logged
    exact h.clear (by rw [hz]; exact Nat.zero_le _) (h.isolated.endOpCommit hl)
      (by rw [(endOpCommit_ok hl).2]) h.steady (Keeps.refl _)
  · -- the `write_head` that commits
    obtain ⟨hs, hk⟩ := h.steady.writeHead hw
    exact (h.of_cache hs hk).of_commitPc hpc (by simp [hcp, CommitPc.installed])
  · exact h.installBlock hpc hcp ht hw
  · -- the `write_head` that erases the transaction
    obtain ⟨hs, hk⟩ := h.steady.writeHead hw
    exact h.clear (by simpa [hcp, CommitPc.installed] using hle) (h.isolated.endOpCommit hl)
      (by rw [(endOpCommit_ok hl).2]) hs hk

theorem Pinned.step (h : Pinned s) {start : Nat} {a : Op τ} (hs : Cached.step start s a = .ok s') :
    Pinned s' := by
  cases a with
  | beginOp t =>
    obtain ⟨log, hb, rfl⟩ := step_log_ok hs
    exact h.beginOp hb
  | logWrite t i => exact h.logWrite hs
  | endOp t =>
    obtain ⟨log, he, rfl⟩ := step_log_ok hs
    exact h.endOp he
  | commit t => exact h.commitStep hs
  | endOpWake t =>
    obtain ⟨log, he, rfl⟩ := step_log_ok hs
    exact h.endOpWake he
  | bread blockno =>
    obtain ⟨c, i, hb, rfl⟩ := step_bread_ok hs
    obtain ⟨hsc, hk⟩ := h.steady.bread hb
    exact h.of_cache hsc hk
  | brelse i =>
    obtain ⟨c, hr, rfl⟩ := step_cache_ok hs
    obtain ⟨hsc, hk⟩ := h.steady.brelse hr
    exact h.of_cache hsc hk
  | modify i d =>
    obtain ⟨c, hm, rfl⟩ := step_cache_ok hs
    obtain ⟨hsc, hk⟩ := h.steady.modify hm
    exact h.of_cache hsc hk

end Preservation

theorem pinned_initFs (size : Nat) (disk : Disk) : Pinned (initFs (τ := τ) size disk) where
  isolated := isolated_initLog size
  steady := ⟨coherent_binit disk, fun _ hj => (hj rfl).elim⟩
  idle := fun _ => rfl
  progress := Nat.zero_le _
  nodup := List.nodup_nil
  cached := fun _ hb => by simp [initFs, initLog] at hb
  pinned := fun _ hj => (hj rfl).elim

variable [DecidableEq τ] in
theorem pinned_of_reachable {size start : Nat} {disk : Disk} {s : FsState τ}
    (hs : Reachable (fsSystem τ size start disk) s) : Pinned s :=
  hs.rec_inv Pinned (pinned_initFs size disk) fun _ _ _ h hstep => h.step hstep

/-! ## What commit() does with the pinned blocks -/

section Commit

variable [DecidableEq τ] {s s' : FsState τ}

/-- A block of `write_log` copies to its log block the content the cache
presents for the logged block. -/
theorem Pinned.writeLog_content (h : Pinned s) {start tail : Nat} {t : τ}
    (hcp : s.commitPc = .writeLog tail) (ht : tail < s.log.lh.length)
    (hc : Cached.commitStep start s t = .ok s') :
    s'.cache.disk (start + tail + 1) = content s.cache rootDev s.log.lh[tail] := by
  obtain ⟨p, hpb, hpin⟩ := h.buf_of_lt (by simp [hcp, CommitPc.installed]) ht
  obtain ⟨hd, hv, hr, -⟩ := h.buf_ready hpin
  -- only the first of the five steps of `commit()` applies at `writeLog tail`
  rcases (commitStep_ok hc).2 with ⟨tail', _, c, hcp', hw, rfl⟩ | ⟨_, hcp', hz, -⟩ |
    ⟨_, hcp', hle, -⟩ | ⟨_, _, _, hcp', -⟩ | ⟨_, hcp', -⟩ <;> rw [hcp] at hcp' <;> cases hcp'
  · exact (h.steady.writeLogBlock_disk hpb (by omega) hw).trans
      (content_of_valid h.steady.coherent (by decide) (by simp [holds, hd, hpb]) hv).symm
  · omega
  · omega

/-- A block of `install_trans(0)` takes the pin off the buffer of its block, and
with it one reference. -/
theorem Pinned.install_unpins (h : Pinned s) {start tail : Nat} {t : τ}
    (hcp : s.commitPc = .install tail) (ht : tail < s.log.lh.length)
    (hc : Cached.commitStep start s t = .ok s') :
    ∃ p, (s.cache.buf p).blockno = s.log.lh[tail] ∧ s.cache.pins p = 1 ∧
      s'.cache.pins = Function.update s.cache.pins p 0 ∧
      (s'.cache.buf p).refcnt + 1 = (s.cache.buf p).refcnt := by
  obtain ⟨p, hpb, hpin⟩ := h.buf_of_lt (by simp [hcp, CommitPc.installed]) ht
  -- only the fourth of the five steps of `commit()` applies at `install tail`
  rcases (commitStep_ok hc).2 with ⟨_, _, _, hcp', -⟩ | ⟨_, hcp', -⟩ | ⟨_, hcp', -⟩ |
    ⟨tail', _, c, hcp', hw, rfl⟩ | ⟨_, hcp', hle, -⟩ <;> rw [hcp] at hcp' <;> cases hcp'
  · obtain ⟨hs, hpins, hheld, -⟩ := h.steady.installBlock hpb hpin hw
    refine ⟨p, hpb, hpin, hpins, ?_⟩
    -- `refcnt` counts holders and pins before and after
    have hafter := hs.coherent.refcnt p
    have hbefore := h.steady.coherent.refcnt p
    rw [hpins, hheld, Function.update_self] at hafter
    show (c.buf p).refcnt + 1 = _
    omega
  · omega

end Commit

/-- In every state of the log running on the buffer cache: the header's blocks
are distinct; outside `commit()` none of them is installed yet; the buffer of
each block not yet installed caches it on the disk with valid data and a
reference more than its holders, and `bget` never recycles it; a block of
`write_log` copies the content the cache presents for its block; and a block of
`install_trans(0)` takes the pin, one reference, off its block's buffer. -/
theorem log_blocks_pinned [DecidableEq τ] {size start : Nat} {disk : Disk} {s : FsState τ}
    (hs : Reachable (fsSystem τ size start disk) s) :
    s.log.lh.Nodup ∧ ((∀ t, s.log.pc t ≠ .commit) → s.commitPc.installed = 0) ∧
      (∀ b ∈ s.log.lh.drop s.commitPc.installed, ∃ j, (s.cache.buf j).dev = rootDev ∧
        (s.cache.buf j).blockno = b ∧ (s.cache.buf j).valid = true ∧
        s.cache.held j + 1 ≤ (s.cache.buf j).refcnt ∧ findFree s.cache ≠ some (some j)) ∧
      (∀ (t : τ) (tail : Nat) (s' : FsState τ) (ht : tail < s.log.lh.length),
        s.commitPc = .writeLog tail → commitStep start s t = .ok s' →
          s'.cache.disk (start + tail + 1) = content s.cache rootDev s.log.lh[tail]) ∧
      (∀ (t : τ) (tail : Nat) (s' : FsState τ) (ht : tail < s.log.lh.length),
        s.commitPc = .install tail → commitStep start s t = .ok s' →
          ∃ p, (s.cache.buf p).blockno = s.log.lh[tail] ∧ s.cache.pins p = 1 ∧
            s'.cache.pins = Function.update s.cache.pins p 0 ∧
            (s'.cache.buf p).refcnt + 1 = (s.cache.buf p).refcnt) := by
  have h := pinned_of_reachable hs
  refine ⟨h.nodup, fun hno => by rw [h.idle hno]; rfl, fun b hb => ?_,
    fun _ _ _ ht hcp hc => h.writeLog_content hcp ht hc,
    fun _ _ _ ht hcp hc => h.install_unpins hcp ht hc⟩
  obtain ⟨j, hjb, hjp⟩ := h.cached b hb
  obtain ⟨hd, hv, hr, hf⟩ := h.buf_ready hjp
  exact ⟨j, hd, hjb, hv, hr, hf⟩

set_option maxRecDepth 20000 in
/-- An operation reads block 40 into a buffer and logs it. -/
theorem log_blocks_pinned_one_logged :
    ∃ s, run (fsSystem (Fin 1) nLog 2 fun _ _ => 0) (initFs nLog fun _ _ => 0)
        [.beginOp 0, .bread 40, .logWrite 0 0] = .ok s ∧
      s.log.lh.Nodup ∧ ((∀ t, s.log.pc t ≠ .commit) → s.commitPc.installed = 0) ∧
      (∀ b ∈ s.log.lh.drop s.commitPc.installed, ∃ j, (s.cache.buf j).dev = rootDev ∧
        (s.cache.buf j).blockno = b ∧ (s.cache.buf j).valid = true ∧
        s.cache.held j + 1 ≤ (s.cache.buf j).refcnt ∧ findFree s.cache ≠ some (some j)) ∧
      (∀ (t : Fin 1) (tail : Nat) (s' : FsState (Fin 1)) (ht : tail < s.log.lh.length),
        s.commitPc = .writeLog tail → commitStep 2 s t = .ok s' →
          s'.cache.disk (2 + tail + 1) = content s.cache rootDev s.log.lh[tail]) ∧
      (∀ (t : Fin 1) (tail : Nat) (s' : FsState (Fin 1)) (ht : tail < s.log.lh.length),
        s.commitPc = .install tail → commitStep 2 s t = .ok s' →
          ∃ p, (s.cache.buf p).blockno = s.log.lh[tail] ∧ s.cache.pins p = 1 ∧
            s'.cache.pins = Function.update s.cache.pins p 0 ∧
            (s'.cache.buf p).refcnt + 1 = (s.cache.buf p).refcnt) :=
  Exists.imp (fun s hs => ⟨hs, log_blocks_pinned (reachable_of_run .init _ s hs)⟩) ⟨_, rfl⟩

/-- `install_trans(0)` has installed the one block of a transaction and dropped
its pin; the header, not yet cleared, still lists the block, whose buffer has no
reference left. -/
theorem installed_block_unreferenced_before_clear :
    ∃ s, Reachable (fsSystem (Fin 1) nLog 2 fun _ _ => 0) s ∧ s.log.lh = [100] ∧
      ∀ j, (s.cache.buf j).blockno = 100 → (s.cache.buf j).refcnt = 0 := by
  have hrun : (run (fsSystem (Fin 1) nLog 2 fun _ _ => 0) (initFs nLog fun _ _ => 0)
      [.beginOp 0, .bread 100, .logWrite 0 0, .brelse 0, .endOp 0, .commit 0, .commit 0,
        .commit 0]).get?.map (fun s => (s.log.lh, (List.finRange nBuf).all fun j =>
          (s.cache.buf j).blockno != 100 || (s.cache.buf j).refcnt == 0)) = some ([100], true) := by
    decide +kernel
  obtain ⟨s, hs, hf⟩ := Option.map_eq_some_iff.1 hrun
  simp only [Prod.mk.injEq, List.all_eq_true, List.mem_finRange, Bool.or_eq_true, bne_iff_ne,
    ne_eq, beq_iff_eq, forall_const] at hf
  refine ⟨s, reachable_of_run .init _ _ (Result.get?_eq_some.1 hs), hf.1, fun j hj => ?_⟩
  exact (hf.2 j).resolve_left (not_not.2 hj)

end Cached

end Xv6.Log
