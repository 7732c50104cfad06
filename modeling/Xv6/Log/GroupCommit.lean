import Xv6.Log.Transaction

/-
  Xv6/Log/GroupCommit.lean --- what the counters of `struct log` guarantee.

  ISOLATION.  `log.outstanding` counts the operations between `begin_op` and
  `end_op`, `log.committing` is set exactly while one operation runs the commit
  in `end_op`, and no operation is inside a transaction while it does.  This is
  the invariant `Isolated`; from it, for every interleaving of any number of
  operations: commit() runs with `outstanding = 0` and no operation inside, no
  `begin_op` completes until `committing` is cleared, and neither the
  'log.committing' panic of `end_op` nor the 'log_write outside of trans' panic
  of `log_write` is reached (`group_commit_isolated`).

  ADMISSION.  `begin_op` reserves `MAXOPBLOCKS` blocks per operation against
  `LOGSIZE`, but `log_write` panics once `log.lh.n >= log.size - 1`, and mkfs
  makes `log.size = LOGSIZE`: the header block is one of the `LOGSIZE` log
  blocks, so only `LOGSIZE - 1` data blocks fit.  Three operations that each log
  `MAXOPBLOCKS` distinct blocks are all admitted and the last `log_write`
  panics (`log_write_too_big_of_full_reservations`).  What the panic guard does
  guarantee is that `write_log` stays inside the log region
  (`writeLog_within_log`).
-/

set_option autoImplicit false

namespace Xv6.Log

open Machine Writes

variable {τ : Type} [DecidableEq τ]

/-! ## Counting operations -/

/-- 1 for an operation between `begin_op` and `end_op`. -/
def Pc.inside : Pc → Nat
  | .active _ => 1
  | _ => 0

/-- 1 for the operation running the commit at the end of its `end_op`. -/
def Pc.committer : Pc → Nat
  | .commit => 1
  | .wake => 1
  | _ => 0

@[simp] theorem Pc.inside_idle : Pc.idle.inside = 0 := rfl
@[simp] theorem Pc.inside_active (logged : List Nat) : (Pc.active logged).inside = 1 := rfl
@[simp] theorem Pc.inside_commit : Pc.commit.inside = 0 := rfl
@[simp] theorem Pc.inside_wake : Pc.wake.inside = 0 := rfl
@[simp] theorem Pc.committer_idle : Pc.idle.committer = 0 := rfl
@[simp] theorem Pc.committer_active (logged : List Nat) : (Pc.active logged).committer = 0 := rfl
@[simp] theorem Pc.committer_commit : Pc.commit.committer = 1 := rfl
@[simp] theorem Pc.committer_wake : Pc.wake.committer = 1 := rfl

section Count

variable [Fintype τ]

/-- The number of operations between their `begin_op` and their `end_op`. -/
def insideCount (pc : τ → Pc) : Nat := ∑ t, (pc t).inside

/-- The number of operations in the commit phase of `end_op`. -/
def committerCount (pc : τ → Pc) : Nat := ∑ t, (pc t).committer

/-- Moving operation `t` to `v` moves the count by what `t` counted before and after. -/
theorem insideCount_update (pc : τ → Pc) (t : τ) (v : Pc) :
    insideCount (Function.update pc t v) + (pc t).inside = insideCount pc + v.inside :=
  sum_update_add pc t v Pc.inside

theorem committerCount_update (pc : τ → Pc) (t : τ) (v : Pc) :
    committerCount (Function.update pc t v) + (pc t).committer = committerCount pc + v.committer :=
  sum_update_add pc t v Pc.committer

omit [DecidableEq τ] in
theorem one_le_insideCount {pc : τ → Pc} {t : τ} {logged : List Nat}
    (h : pc t = .active logged) : 1 ≤ insideCount pc := by
  have hle := le_sum_apply pc Pc.inside t
  rw [h, Pc.inside_active] at hle
  exact hle

omit [DecidableEq τ] in
theorem one_le_committerCount {pc : τ → Pc} {t : τ} (h : pc t = .commit ∨ pc t = .wake) :
    1 ≤ committerCount pc := by
  have hle := le_sum_apply pc Pc.committer t
  rcases h with h | h
  · rw [h, Pc.committer_commit] at hle
    exact hle
  · rw [h, Pc.committer_wake] at hle
    exact hle

omit [DecidableEq τ] in
theorem not_active_of_insideCount_eq_zero {pc : τ → Pc} (h : insideCount pc = 0) (t : τ)
    (logged : List Nat) : pc t ≠ .active logged := fun hpc => by
  have := one_le_insideCount hpc
  omega

end Count

/-! ## Isolation -/

section Isolation

variable [Fintype τ]

/-- The invariant that isolates a commit from the operations. -/
structure Isolated (s : LogState τ) : Prop where
  outstanding_eq : s.outstanding = insideCount s.pc
  committers : committerCount s.pc = if s.committing then 1 else 0
  quiet : s.committing = true → insideCount s.pc = 0

omit [DecidableEq τ] in
/-- An operation in the commit phase means `log.committing` is set. -/
theorem Isolated.committing_of_committer {s : LogState τ} {t : τ} (hi : Isolated s)
    (h : s.pc t = .commit ∨ s.pc t = .wake) : s.committing = true := by
  have hone := one_le_committerCount h
  have hcom := hi.committers
  by_contra hc
  simp only [hc, if_false] at hcom
  omega

omit [DecidableEq τ] in
theorem isolated_initLog (size : Nat) : Isolated (initLog (τ := τ) size) where
  outstanding_eq := by simp [initLog, insideCount]
  committers := by simp [initLog, committerCount]
  quiet := by simp [initLog]

theorem Isolated.beginOp {s s' : LogState τ} {t : τ} (hi : Isolated s)
    (h : beginOp s t = .ok s') : Isolated s' := by
  obtain ⟨hpc, hc, rfl⟩ := beginOp_ok h
  have hin := insideCount_update s.pc t (.active [])
  have hcm := committerCount_update s.pc t (.active [])
  rw [hpc, Pc.inside_idle, Pc.inside_active] at hin
  rw [hpc, Pc.committer_idle, Pc.committer_active] at hcm
  have hout := hi.outstanding_eq
  have hcom := hi.committers
  simp only [hc, Bool.false_eq_true, if_false] at hcom
  refine ⟨?_, ?_, ?_⟩
  · dsimp only
    omega
  · simp only [hc, Bool.false_eq_true, if_false]
    omega
  · simp [hc]

theorem Isolated.logWrite {s s' : LogState τ} {t : τ} {b : Nat} (hi : Isolated s)
    (h : logWrite s t b = .ok s') : Isolated s' := by
  obtain ⟨logged, hpc, -, -, rfl⟩ := logWrite_ok h
  have hin := insideCount_update s.pc t (.active (if b ∈ logged then logged else logged ++ [b]))
  have hcm :=
    committerCount_update s.pc t (.active (if b ∈ logged then logged else logged ++ [b]))
  rw [hpc, Pc.inside_active, Pc.inside_active] at hin
  rw [hpc, Pc.committer_active, Pc.committer_active] at hcm
  have hout := hi.outstanding_eq
  have hcom := hi.committers
  refine ⟨?_, ?_, fun hc => ?_⟩
  · dsimp only
    omega
  · dsimp only
    omega
  · dsimp only at hc ⊢
    have := hi.quiet hc
    omega

theorem Isolated.endOp {s s' : LogState τ} {t : τ} (hi : Isolated s)
    (h : endOp s t = .ok s') : Isolated s' := by
  obtain ⟨⟨logged, hpc⟩, hc, hcase⟩ := endOp_ok h
  have hone := one_le_insideCount hpc
  have hout := hi.outstanding_eq
  have hcom := hi.committers
  simp only [hc, Bool.false_eq_true, if_false] at hcom
  rcases hcase with ⟨hz, rfl⟩ | ⟨hz, rfl⟩
  · -- the last operation out becomes the committer, and nobody is left inside
    have hin := insideCount_update s.pc t .commit
    have hcm := committerCount_update s.pc t .commit
    rw [hpc, Pc.inside_active, Pc.inside_commit] at hin
    rw [hpc, Pc.committer_active, Pc.committer_commit] at hcm
    refine ⟨?_, ?_, fun _ => ?_⟩
    · dsimp only
      omega
    · simp only [if_true]
      omega
    · dsimp only
      omega
  · have hin := insideCount_update s.pc t .idle
    have hcm := committerCount_update s.pc t .idle
    rw [hpc, Pc.inside_active, Pc.inside_idle] at hin
    rw [hpc, Pc.committer_active, Pc.committer_idle] at hcm
    refine ⟨?_, ?_, ?_⟩
    · dsimp only
      omega
    · simp only [hc, Bool.false_eq_true, if_false]
      omega
    · simp [hc]

theorem Isolated.endOpCommit {s s' : LogState τ} {t : τ} (hi : Isolated s)
    (h : endOpCommit s t = .ok s') : Isolated s' := by
  obtain ⟨hpc, rfl⟩ := endOpCommit_ok h
  have hin := insideCount_update s.pc t .wake
  have hcm := committerCount_update s.pc t .wake
  rw [hpc, Pc.inside_commit, Pc.inside_wake] at hin
  rw [hpc, Pc.committer_commit, Pc.committer_wake] at hcm
  have hout := hi.outstanding_eq
  have hcom := hi.committers
  refine ⟨?_, ?_, fun hc => ?_⟩
  · dsimp only
    omega
  · dsimp only
    omega
  · dsimp only at hc ⊢
    have := hi.quiet hc
    omega

theorem Isolated.endOpWake {s s' : LogState τ} {t : τ} (hi : Isolated s)
    (h : endOpWake s t = .ok s') : Isolated s' := by
  obtain ⟨hpc, rfl⟩ := endOpWake_ok h
  have hc := hi.committing_of_committer (Or.inr hpc)
  have hin := insideCount_update s.pc t .idle
  have hcm := committerCount_update s.pc t .idle
  rw [hpc, Pc.inside_wake, Pc.inside_idle] at hin
  rw [hpc, Pc.committer_wake, Pc.committer_idle] at hcm
  have hout := hi.outstanding_eq
  have hcom := hi.committers
  simp only [hc, if_true] at hcom
  refine ⟨?_, ?_, ?_⟩
  · dsimp only
    omega
  · simp only [Bool.false_eq_true, if_false]
    omega
  · simp

theorem Isolated.step {s s' : LogState τ} {a : Op τ} (hi : Isolated s)
    (h : step s a = .ok s') : Isolated s' := by
  cases a with
  | beginOp t => exact hi.beginOp h
  | logWrite t b => exact hi.logWrite h
  | endOp t => exact hi.endOp h
  | endOpCommit t => exact hi.endOpCommit h
  | endOpWake t => exact hi.endOpWake h

theorem isolated_of_reachable {size : Nat} {s : LogState τ}
    (hs : Reachable (logSystem τ size) s) : Isolated s :=
  hs.rec_inv Isolated (isolated_initLog size) fun _ _ _ hi h => hi.step h

/-- **Group commit isolation.**  In every state any interleaving of operations
reaches: `log.outstanding` counts the operations inside a transaction; the
commit in `end_op` runs with `outstanding = 0` and no operation inside; no
`begin_op` completes while `log.committing` is set; `end_op` never reaches the
'log.committing' panic; and `log_write` by an operation never reaches 'log_write
outside of trans'. -/
theorem group_commit_isolated {size : Nat} {s : LogState τ}
    (hs : Reachable (logSystem τ size) s) :
    s.outstanding = insideCount s.pc ∧
      (∀ t, s.pc t = .commit → s.outstanding = 0 ∧ ∀ u logged, s.pc u ≠ .active logged) ∧
      (s.committing = true → ∀ t s', beginOp s t ≠ .ok s') ∧
      (∀ t, endOp s t ≠ .panic "log.committing") ∧
      (∀ t b, logWrite s t b ≠ .panic "log_write outside of trans") := by
  have hi := isolated_of_reachable hs
  refine ⟨hi.outstanding_eq, ?_, ?_, ?_, ?_⟩
  · intro t hpc
    have hq := hi.quiet (hi.committing_of_committer (Or.inl hpc))
    exact ⟨hi.outstanding_eq.trans hq, not_active_of_insideCount_eq_zero hq⟩
  · intro hc t s' h
    have := (beginOp_ok h).2.1
    simp [hc] at this
  · intro t h
    unfold endOp at h
    split at h
    · next logged hpc =>
      split_ifs at h with hc
      exact not_active_of_insideCount_eq_zero (hi.quiet hc) t logged hpc
    · cases h
  · intro t b h
    unfold logWrite at h
    split at h
    · next logged hpc =>
      have hone := one_le_insideCount hpc
      have hout := hi.outstanding_eq
      by_cases hbig : s.lh.length ≥ logSize ∨ s.lh.length ≥ s.size - 1
      · rw [if_pos hbig] at h
        simp at h
      · rw [if_neg hbig, if_neg (by omega)] at h
        cases h
    · cases h

set_option maxRecDepth 20000 in
/-- Two operations begin, and each logs a block. -/
theorem group_commit_isolated_two_ops :
    ∃ s, run (logSystem (Fin 2) nLog) (initLog nLog) [.beginOp 0, .logWrite 0 40, .beginOp 1, .logWrite 1 41] =
        .ok s ∧
      s.outstanding = insideCount s.pc ∧
      (∀ t, s.pc t = .commit → s.outstanding = 0 ∧ ∀ u logged, s.pc u ≠ .active logged) ∧
      (s.committing = true → ∀ t s', beginOp s t ≠ .ok s') ∧
      (∀ t, endOp s t ≠ .panic "log.committing") ∧
      (∀ t b, logWrite s t b ≠ .panic "log_write outside of trans") :=
  Exists.imp (fun s hs => ⟨hs, group_commit_isolated (reachable_of_run .init _ s hs)⟩) ⟨_, rfl⟩

end Isolation

/-! ## Admission -/

/-- `log_write` adds a block only while `log.lh.n < log.size - 1`, and `log.size`
never changes: the header never names more blocks than the log has slots. -/
theorem lh_length_le_of_reachable {size : Nat} {s : LogState τ}
    (hs : Reachable (logSystem τ size) s) : s.lh.length ≤ s.size - 1 ∧ s.size = size := by
  refine hs.rec_inv (fun s => s.lh.length ≤ s.size - 1 ∧ s.size = size) ⟨by simp [logSystem, initLog],
    rfl⟩ ?_
  intro s a s' hinv h
  cases a with
  | beginOp t =>
    obtain ⟨-, -, rfl⟩ := beginOp_ok h
    exact hinv
  | logWrite t b =>
    obtain ⟨logged, -, hlt, -, rfl⟩ := logWrite_ok h
    refine ⟨?_, hinv.2⟩
    dsimp only
    split_ifs
    · omega
    · simp only [List.length_append, List.length_singleton]
      omega
  | endOp t =>
    obtain ⟨-, -, ⟨-, rfl⟩ | ⟨-, rfl⟩⟩ := endOp_ok h <;> exact hinv
  | endOpCommit t =>
    obtain ⟨-, rfl⟩ := endOpCommit_ok h
    exact ⟨by simp, hinv.2⟩
  | endOpWake t =>
    obtain ⟨-, rfl⟩ := endOpWake_ok h
    exact hinv

/-- `write_log` of any header the operations can build writes only the slots
`log.start + 1 .. log.start + log.size - 1` of the log region. -/
theorem writeLog_within_log {size : Nat} {s : LogState τ} (hs : Reachable (logSystem τ size) s)
    (start : Nat) (cache : Nat → Block) {p : Nat × Block} (hp : p ∈ writeLog start cache 0 s.lh) :
    start < p.1 ∧ p.1 ≤ start + size - 1 := by
  have hslot := writeLog_slot start cache 0 s.lh hp
  obtain ⟨hlen, hsize⟩ := lh_length_le_of_reachable hs
  omega

set_option maxRecDepth 20000 in
/-- An operation logs block 40: `write_log` copies it to block 3, the first
slot of a log that starts at 2. -/
theorem writeLog_within_log_one_block :
    ∃ s, run (logSystem (Fin 2) nLog) (initLog nLog) [.beginOp 0, .logWrite 0 40] = .ok s ∧
      ((3, (fun _ => 0 : Block)) ∈ writeLog 2 (fun _ _ => 0) 0 s.lh) ∧ 2 < 3 ∧ 3 ≤ 2 + nLog - 1 := by
  obtain ⟨s, hs⟩ : ∃ s, run (logSystem (Fin 2) nLog) (initLog nLog) [.beginOp 0, .logWrite 0 40] = .ok s :=
    ⟨_, rfl⟩
  have hp : (3, (fun _ => 0 : Block)) ∈ writeLog 2 (fun _ _ => 0) 0 s.lh := by
    cases hs
    simp [initLog, writeLog]
  exact ⟨s, hs, hp, writeLog_within_log (reachable_of_run .init _ s hs) 2 _ hp⟩

/-- The blocks operation `t` passes to `log_write` in a list of actions. -/
def loggedBy (t : τ) : List (Op τ) → List Nat
  | [] => []
  | .logWrite u b :: as => if u = t then b :: loggedBy t as else loggedBy t as
  | _ :: as => loggedBy t as

/-- Three operations, each logging `MAXOPBLOCKS` distinct blocks of its own. -/
def fullReservations : List (Op (Fin 3)) :=
  [.beginOp 0, .beginOp 1, .beginOp 2] ++
    (List.range maxOpBlocks).map (fun i => .logWrite 0 (100 + i)) ++
    (List.range maxOpBlocks).map (fun i => .logWrite 1 (200 + i)) ++
    (List.range maxOpBlocks).map (fun i => .logWrite 2 (300 + i))

/-- On the log mkfs builds (`log.size = nlog = LOGSIZE`), three operations that
each log at most `MAXOPBLOCKS` distinct blocks are all admitted by `begin_op`,
and the thirtieth `log_write` finds `log.lh.n = 29 >= log.size - 1` and panics. -/
theorem log_write_too_big_of_full_reservations :
    (∀ t : Fin 3, (loggedBy t fullReservations).dedup.length ≤ maxOpBlocks) ∧
      run (logSystem (Fin 3) nLog) (initLog nLog) fullReservations =
        .panic "too big a transaction" :=
  ⟨by decide, rfl⟩

end Xv6.Log
