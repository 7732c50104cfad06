import Xv6.Lib.Machine
import Xv6.Log.Disk

/-
  Xv6/Log/Transaction.lean --- group commit: `begin_op`, `log_write`, `end_op`.

  WHAT IS MODELLED.  The in-memory `struct log` (its `outstanding`, `committing`,
  `lh` and `size` fields) together with where each file-system operation is in
  its use of the log.  Operations are threads of an arbitrary finite type `τ`;
  each runs `begin_op`, any number of `log_write`s, then `end_op`.  Every action
  below is one critical section under `log.lock`, so an interleaving of actions
  is an interleaving of the C code:

      beginOp t      the loop in begin_op; `wait` while it would sleep
      logWrite t b   log_write of a buffer holding block b
      endOp t        end_op's first critical section
      endOpCommit t  end_op's call of commit() after it dropped the lock
      endOpWake t    end_op's second critical section: committing = 0, wakeup

  `sleep` in `begin_op` re-checks its guard after every wakeup, so a sleeping
  operation is one whose `beginOp` step waits; spurious wakeups add no state.
  `commit()` touches the disk (Xv6/Log/Disk.lean) and, of this state, only
  `log.lh.n = 0`.  Each active operation also carries, as ghost state, the list
  of distinct blocks it has passed to `log_write`, which is what a bound of
  `MAXOPBLOCKS` blocks per operation is a statement about.
-/

set_option autoImplicit false

namespace Xv6.Log

open Machine

/-- Where one file-system operation is in its use of the log. -/
inductive Pc where
  /-- outside a transaction (or asleep in `begin_op`, which has changed nothing) -/
  | idle
  /-- between `begin_op` and `end_op`; the distinct blocks it has logged (ghost) -/
  | active (logged : List Nat)
  /-- in `end_op` with `do_commit` set, the lock dropped, about to run `commit()` -/
  | commit
  /-- `commit()` has returned; `end_op` is about to clear `log.committing` -/
  | wake
  deriving DecidableEq, Repr

/-- The in-memory `struct log`, and every operation's position. -/
structure LogState (τ : Type) where
  outstanding : Nat
  committing : Bool
  lh : List Nat
  size : Nat
  pc : τ → Pc

/-- The actions of the operations. -/
inductive Op (τ : Type) where
  | beginOp (t : τ)
  | logWrite (t : τ) (b : Nat)
  | endOp (t : τ)
  | endOpCommit (t : τ)
  | endOpWake (t : τ)
  deriving DecidableEq, Repr

variable {τ : Type} [DecidableEq τ]

/-- `begin_op`: wait while a commit is running or while this operation's
`MAXOPBLOCKS` reservation might overflow `LOGSIZE`. -/
def beginOp (s : LogState τ) (t : τ) : Result (LogState τ) :=
  match s.pc t with
  | .idle =>
    if s.committing then .wait
    else if s.lh.length + (s.outstanding + 1) * maxOpBlocks > logSize then .wait
    else .ok { s with outstanding := s.outstanding + 1, pc := Function.update s.pc t (.active []) }
  | _ => .wait

/-- `log_write`: the two panics, then log absorption: a block already in the
header is not added again. -/
def logWrite (s : LogState τ) (t : τ) (b : Nat) : Result (LogState τ) :=
  match s.pc t with
  | .active logged =>
    if s.lh.length ≥ logSize ∨ s.lh.length ≥ s.size - 1 then .panic "too big a transaction"
    else if s.outstanding < 1 then .panic "log_write outside of trans"
    else .ok { s with
      lh := if b ∈ s.lh then s.lh else s.lh ++ [b]
      pc := Function.update s.pc t (.active (if b ∈ logged then logged else logged ++ [b])) }
  | _ => .wait

/-- `end_op`, first critical section: the last operation out starts the commit;
the others wake operations waiting for log space. -/
def endOp (s : LogState τ) (t : τ) : Result (LogState τ) :=
  match s.pc t with
  | .active _ =>
    if s.committing then .panic "log.committing"
    else if s.outstanding - 1 = 0 then
      .ok { s with outstanding := s.outstanding - 1, committing := true,
                   pc := Function.update s.pc t .commit }
    else .ok { s with outstanding := s.outstanding - 1, pc := Function.update s.pc t .idle }
  | _ => .wait

/-- `commit()`, called from `end_op` without the lock: it empties the header. -/
def endOpCommit (s : LogState τ) (t : τ) : Result (LogState τ) :=
  match s.pc t with
  | .commit => .ok { s with lh := [], pc := Function.update s.pc t .wake }
  | _ => .wait

/-- `end_op`, second critical section: `log.committing = 0` and wake everyone. -/
def endOpWake (s : LogState τ) (t : τ) : Result (LogState τ) :=
  match s.pc t with
  | .wake => .ok { s with committing := false, pc := Function.update s.pc t .idle }
  | _ => .wait

/-- One action of one operation. -/
def step (s : LogState τ) : Op τ → Result (LogState τ)
  | .beginOp t => beginOp s t
  | .logWrite t b => logWrite s t b
  | .endOp t => endOp s t
  | .endOpCommit t => endOpCommit s t
  | .endOpWake t => endOpWake s t

/-- The log just after `initlog`: `recover_from_log` has set `log.lh.n = 0`, and
`log.size` is the superblock's `nlog`. -/
def initLog (size : Nat) : LogState τ :=
  { outstanding := 0, committing := false, lh := [], size := size, pc := fun _ => .idle }

/-- The log as a system of interleaved operations, on a disk whose superblock
records `size` log blocks. -/
def logSystem (τ : Type) [DecidableEq τ] (size : Nat) : System (LogState τ) (Op τ) :=
  { init := initLog size, step := step }

/-! ## What each completed step does -/

section Steps

variable {s s' : LogState τ} {t : τ}

theorem beginOp_ok (h : beginOp s t = .ok s') :
    s.pc t = .idle ∧ s.committing = false ∧
      s' = { s with outstanding := s.outstanding + 1,
                    pc := Function.update s.pc t (.active []) } := by
  unfold beginOp at h
  split at h
  · next hpc =>
    split_ifs at h with hc hfull
    cases h
    exact ⟨hpc, by simpa using hc, rfl⟩
  · cases h

theorem logWrite_ok {b : Nat} (h : logWrite s t b = .ok s') :
    ∃ logged, s.pc t = .active logged ∧ s.lh.length < s.size - 1 ∧ 1 ≤ s.outstanding ∧
      s' = { s with
        lh := if b ∈ s.lh then s.lh else s.lh ++ [b]
        pc := Function.update s.pc t (.active (if b ∈ logged then logged else logged ++ [b])) } := by
  unfold logWrite at h
  split at h
  · next logged hpc =>
    by_cases hbig : s.lh.length ≥ logSize ∨ s.lh.length ≥ s.size - 1
    · rw [if_pos hbig] at h
      cases h
    · rw [if_neg hbig] at h
      by_cases hout : s.outstanding < 1
      · rw [if_pos hout] at h
        cases h
      · rw [if_neg hout] at h
        cases h
        exact ⟨logged, hpc, by omega, by omega, rfl⟩
  · cases h

theorem endOp_ok (h : endOp s t = .ok s') :
    (∃ logged, s.pc t = .active logged) ∧ s.committing = false ∧
      ((s.outstanding - 1 = 0 ∧
          s' = { s with outstanding := s.outstanding - 1, committing := true,
                        pc := Function.update s.pc t .commit }) ∨
        (s.outstanding - 1 ≠ 0 ∧
          s' = { s with outstanding := s.outstanding - 1,
                        pc := Function.update s.pc t .idle })) := by
  unfold endOp at h
  split at h
  · next logged hpc =>
    split_ifs at h with hc hz
    · cases h
      exact ⟨⟨logged, hpc⟩, by simpa using hc, Or.inl ⟨hz, rfl⟩⟩
    · cases h
      exact ⟨⟨logged, hpc⟩, by simpa using hc, Or.inr ⟨hz, rfl⟩⟩
  · cases h

theorem endOpCommit_ok (h : endOpCommit s t = .ok s') :
    s.pc t = .commit ∧ s' = { s with lh := [], pc := Function.update s.pc t .wake } := by
  unfold endOpCommit at h
  split at h
  · next hpc =>
    cases h
    exact ⟨hpc, rfl⟩
  · cases h

theorem endOpWake_ok (h : endOpWake s t = .ok s') :
    s.pc t = .wake ∧
      s' = { s with committing := false, pc := Function.update s.pc t .idle } := by
  unfold endOpWake at h
  split at h
  · next hpc =>
    cases h
    exact ⟨hpc, rfl⟩
  · cases h

end Steps

end Xv6.Log
