import Xv6.Proc.Table

/-
  Xv6/Lock/Sleeplock.lean --- the sleep lock of kernel/sleeplock.c
  (acquiresleep, releasesleep, holdingsleep) over the parts of
  kernel/proc.c it runs on: sleep, wakeup, sched, the scheduler's loop and
  kill.

  A process that finds the sleep lock held sleeps on it: it takes its own
  `p->lock` before it gives `lk->lk` back, and keeps it until it has switched
  to the scheduler, so a wakeup, which takes `p->lock` of every process it
  looks at, cannot pass it in between.  The comment in sleep puts it as
  "Once we hold p->lock, we can be guaranteed that we won't miss any
  wakeup".

  The model is a system of `n` processes, any number of them, each with the
  fields of `struct proc` these functions use and where it is in their code
  (`Pc`).  Each step is one critical section of one process, or of a CPU's
  scheduler on behalf of one; the spinlock `lk->lk` names the process
  holding it, as `acquire` and `release` of spinlock.c see it (a process
  holding a spinlock has interrupts off and is not switched out), and
  `p->lock` is a flag.  A process that holds the sleep lock may call
  releasesleep; its callers check holdingsleep first.  Every process has a
  CPU of its own when it is not switched out, which allows every
  interleaving the kernel's NCPU CPUs allow.  Processes elsewhere in the
  kernel, sleeping on other channels, are not part of the system; kill is
  given the slot whose pid matched, and the `killed` flag it sets is read by
  none of these functions.

  In every reachable state (`Inv`): `lk->lk` is held exactly by the process
  in acquiresleep's test, in sleep before `release(lk)`, or in releasesleep's
  wakeup; at most one process holds the sleep lock, and `lk->locked` and
  `lk->pid` say which; and a process asleep on the sleep lock has a holder
  that will release it or a wakeup that has yet to reach its slot
  (`WakeDue`).  From these: mutual exclusion and holdingsleep's answer
  (`sleeplock_exclusive`), no lost wakeup (`sleeplock_no_lost_wakeup`), no
  deadlock (`sleeplock_progress`) and no panic (`sleeplock_no_panic`).
-/

set_option autoImplicit false

namespace Xv6.Sleeplock

open Machine
open Xv6.Proc (ProcState)

/-! ## The state -/

/-- Where a process is in acquiresleep, sleep, wakeup and releasesleep: the
points between two critical sections. -/
inductive Pc where
  /-- outside the sleep lock's code, not holding it -/
  | idle
  /-- in acquiresleep, holding `lk->lk`, at the test `while (lk->locked)` -/
  | test
  /-- in sleep, after `acquire(&p->lock)`, still holding `lk->lk` -/
  | sleepLocked
  /-- in sleep, after `release(lk)`, holding `p->lock` -/
  | sleepUnlocked
  /-- switched out by sched(); the scheduler it switched to holds `p->lock` -/
  | switched
  /-- off its CPU, SLEEPING or RUNNABLE -/
  | off
  /-- back from sched() in sleep, with the `p->lock` the scheduler took -/
  | resumed
  /-- in sleep, after `release(&p->lock)`, at `acquire(lk)` -/
  | relock
  /-- between acquiresleep and releasesleep: it holds the sleep lock -/
  | holds
  /-- in releasesleep's `wakeup(lk)`, at `proc[i]`, holding `lk->lk` -/
  | waking (i : Nat)
  deriving DecidableEq, Repr

/-- The places that hold `lk->lk`. -/
def Pc.holdsLk : Pc → Bool
  | .test | .sleepLocked | .waking _ => true
  | _ => false

/-- The places where `p->lock` is held, by the process or by the scheduler it
switched to. -/
def Pc.holdsP : Pc → Bool
  | .sleepLocked | .sleepUnlocked | .switched | .resumed => true
  | _ => false

/-- `p->state` at each place: SLEEPING once sleep has switched out, SLEEPING
or RUNNABLE off the CPU, RUNNING everywhere else. -/
def Pc.StateOk : Pc → ProcState → Prop
  | .switched, st => st = .sleeping
  | .off, st => st = .sleeping ∨ st = .runnable
  | _, st => st = .running

/-- The fields of `struct proc` these functions use, and where the process is. -/
structure SleepProc where
  pc : Pc
  /-- `p->lock` is held -/
  lock : Bool
  state : ProcState
  /-- `p->chan` is this sleep lock -/
  chan : Bool
  deriving DecidableEq, Repr

/-- One sleep lock and the processes that use it. -/
structure Sys (n : Nat) where
  /-- `lk->lk`: the process holding the spinlock of the sleep lock -/
  lk : Option (Fin n)
  /-- `lk->locked` -/
  locked : Bool
  /-- `lk->pid` -/
  pid : Int
  proc : Fin n → SleepProc

variable {n : Nat}

/-- Process `p`'s entry replaced by `r`. -/
def Sys.setProc (s : Sys n) (p : Fin n) (r : SleepProc) : Sys n :=
  { s with proc := Function.update s.proc p r }

/-- Where each process is. -/
def Sys.pcs (s : Sys n) : Fin n → Pc := fun p => (s.proc p).pc

section Fields

variable (s : Sys n) (p : Fin n) (r : SleepProc)

@[simp] theorem Sys.setProc_lk : (s.setProc p r).lk = s.lk := rfl
@[simp] theorem Sys.setProc_locked : (s.setProc p r).locked = s.locked := rfl
@[simp] theorem Sys.setProc_pid : (s.setProc p r).pid = s.pid := rfl
@[simp] theorem Sys.setProc_proc : (s.setProc p r).proc = Function.update s.proc p r := rfl
theorem Sys.pcs_def : s.pcs p = (s.proc p).pc := rfl

theorem Sys.pcs_setProc : (s.setProc p r).pcs = Function.update s.pcs p r.pc := by
  funext q
  exact Function.apply_update (fun _ r => SleepProc.pc r) s.proc p r q

end Fields

/-! ## sleeplock.c and proc.c -/

/-- `acquire(&lk->lk)` by process `p`, which goes on at `c`: it spins while
another process holds the spinlock, and panics if `p` already does. -/
def acquireLk (s : Sys n) (p : Fin n) (c : Pc) : Result (Sys n) :=
  match s.lk with
  | none => .ok { s.setProc p { s.proc p with pc := c } with lk := some p }
  | some q => if q = p then .panic "acquire" else .wait

/-- `release(&lk->lk)` by process `p`, which goes on at `c`. -/
def releaseLk (s : Sys n) (p : Fin n) (c : Pc) : Result (Sys n) :=
  if s.lk = some p then .ok { s.setProc p { s.proc p with pc := c } with lk := none }
  else .panic "release"

/-- The test of acquiresleep's loop, by process `p` holding `lk->lk`: while
the sleep lock is held, the loop's body `sleep(lk, &lk->lk)` starts with
`acquire(&p->lock)`; once it is free, `lk->locked = 1; lk->pid =
myproc()->pid; release(&lk->lk)`. -/
def acquiresleepTest (pid : Fin n → Int) (s : Sys n) (p : Fin n) : Result (Sys n) :=
  if s.locked then
    if (s.proc p).lock then .wait
    else .ok (s.setProc p { s.proc p with pc := .sleepLocked, lock := true })
  else releaseLk { s with locked := true, pid := pid p } p .holds

/-- sleep's `p->chan = chan; p->state = SLEEPING;` and sched(), which checks
that `p->lock` is the one spinlock held and that `p` is not RUNNING, then
switches to the scheduler. -/
def sleepSched (s : Sys n) (p : Fin n) : Result (Sys n) :=
  let r := { s.proc p with chan := true, state := .sleeping }
  if r.lock = false then .panic "sched p->lock"
  else if s.lk = some p then .panic "sched locks"
  else if r.state = .running then .panic "sched running"
  else .ok (s.setProc p { r with pc := .switched })

/-- The scheduler right after `p` switched to it: `c->proc = 0;
release(&p->lock);`. -/
def schedulerBack (s : Sys n) (p : Fin n) : Result (Sys n) :=
  if (s.proc p).lock then .ok (s.setProc p { s.proc p with pc := .off, lock := false })
  else .panic "release"

/-- One round of the scheduler's loop at `proc[p]`: under `p->lock`, a
RUNNABLE process is made RUNNING and switched to, and takes the lock with it;
any other is passed over. -/
def schedulerPick (s : Sys n) (p : Fin n) : Result (Sys n) :=
  if (s.proc p).lock then .wait
  else if (s.proc p).state = .runnable then
    .ok (s.setProc p { s.proc p with pc := .resumed, state := .running, lock := true })
  else .ok s

/-- Back in sleep after sched(): `p->chan = 0; release(&p->lock);`. -/
def sleepTidy (s : Sys n) (p : Fin n) : Result (Sys n) :=
  if (s.proc p).lock then .ok (s.setProc p { s.proc p with pc := .relock, chan := false, lock := false })
  else .panic "release"

/-- releasesleep up to its wakeup: `acquire(&lk->lk); lk->locked = 0;
lk->pid = 0;`. -/
def releasesleep (s : Sys n) (p : Fin n) : Result (Sys n) := do
  let s ← acquireLk s p (.waking 0)
  pure { s with locked := false, pid := 0 }

/-- wakeup's test under `p->lock`: a process SLEEPING on this channel is
made RUNNABLE. -/
def SleepProc.wakeup (r : SleepProc) : SleepProc :=
  { r with state := if r.state = .sleeping ∧ r.chan = true then .runnable else r.state }

/-- One round of `wakeup(lk)`'s loop by `p` at `proc[i]`: any process other
than myproc() is looked at under its `p->lock`.  After the loop,
releasesleep's `release(&lk->lk)`. -/
def wakeupRound (s : Sys n) (p : Fin n) (i : Nat) : Result (Sys n) :=
  if h : i < n then
    if (⟨i, h⟩ : Fin n) = p then .ok (s.setProc p { s.proc p with pc := .waking (i + 1) })
    else if (s.proc ⟨i, h⟩).lock then .wait
    else .ok ((s.setProc ⟨i, h⟩ (s.proc ⟨i, h⟩).wakeup).setProc p { s.proc p with pc := .waking (i + 1) })
  else releaseLk s p .idle

/-- kill of process `p`, the slot whose pid matched: under `p->lock`, a
SLEEPING process is made RUNNABLE. -/
def kill (s : Sys n) (p : Fin n) : Result (Sys n) :=
  if (s.proc p).lock then .wait
  else .ok (s.setProc p { s.proc p with
    state := if (s.proc p).state = .sleeping then .runnable else (s.proc p).state })

/-- holdingsleep by process `p`: under `lk->lk`, `lk->locked && lk->pid ==
myproc()->pid`. -/
def holdingsleep (pid : Fin n → Int) (s : Sys n) (p : Fin n) : Result Bool :=
  match s.lk with
  | none => .ok (s.locked && s.pid == pid p)
  | some q => if q = p then .panic "acquire" else .wait

/-- What happens next. -/
inductive Op (n : Nat) where
  /-- process `p` calls acquiresleep -/
  | acquiresleep (p : Fin n)
  /-- the holder `p` calls releasesleep -/
  | releasesleep (p : Fin n)
  /-- process `p` runs its next critical section in the code above -/
  | next (p : Fin n)
  /-- a CPU's scheduler at `proc[p]` -/
  | scheduler (p : Fin n)
  /-- kill of process `p` -/
  | kill (p : Fin n)

/-- The next critical section of process `p`, which is at `c`. -/
def next (pid : Fin n → Int) (s : Sys n) (p : Fin n) : Pc → Result (Sys n)
  | .test => acquiresleepTest pid s p
  -- sleep's release(lk)
  | .sleepLocked => releaseLk s p .sleepUnlocked
  | .sleepUnlocked => sleepSched s p
  | .resumed => sleepTidy s p
  -- sleep's last line, acquire(lk), and back to acquiresleep's test
  | .relock => acquireLk s p .test
  | .waking i => wakeupRound s p i
  | _ => .wait

/-- One step. -/
def step (pid : Fin n → Int) (s : Sys n) : Op n → Result (Sys n)
  | .acquiresleep p => if (s.proc p).pc = .idle then acquireLk s p .test else .wait
  | .releasesleep p => if (s.proc p).pc = .holds then releasesleep s p else .wait
  | .next p => next pid s p (s.proc p).pc
  | .scheduler p => if (s.proc p).pc = .switched then schedulerBack s p else schedulerPick s p
  | .kill p => kill s p

/-- initsleeplock: `lk->locked = 0; lk->pid = 0;`, every process RUNNING
outside the sleep lock's code. -/
def sleepSystem (n : Nat) (pid : Fin n → Int) : System (Sys n) (Op n) :=
  ⟨⟨none, false, 0, fun _ => ⟨.idle, false, .running, false⟩⟩, step pid⟩

/-! ## What a step does -/

/-- The completed steps, one constructor for each critical section. -/
inductive Moves (pid : Fin n → Int) (s : Sys n) : Sys n → Prop where
  /-- acquiresleep's first line, or sleep's last: `acquire(lk)` -/
  | enter (p : Fin n) (hp : (s.proc p).pc = .idle ∨ (s.proc p).pc = .relock) (hlk : s.lk = none) :
      Moves pid s { s.setProc p { s.proc p with pc := .test } with lk := some p }
  /-- the loop's test finds the sleep lock held; sleep takes `p->lock` -/
  | sleep (p : Fin n) (hp : (s.proc p).pc = .test) (hl : s.locked = true) (hlock : (s.proc p).lock = false) :
      Moves pid s (s.setProc p { s.proc p with pc := .sleepLocked, lock := true })
  /-- the loop's test finds the sleep lock free, and acquiresleep takes it -/
  | take (p : Fin n) (hp : (s.proc p).pc = .test) (hl : s.locked = false) (hlk : s.lk = some p) :
      Moves pid s { { s with locked := true, pid := pid p }.setProc p { s.proc p with pc := .holds } with
        lk := none }
  /-- sleep's `release(lk)` -/
  | unlock (p : Fin n) (hp : (s.proc p).pc = .sleepLocked) (hlk : s.lk = some p) :
      Moves pid s { s.setProc p { s.proc p with pc := .sleepUnlocked } with lk := none }
  /-- sleep goes to sleep and switches out -/
  | sched (p : Fin n) (hp : (s.proc p).pc = .sleepUnlocked) (hlock : (s.proc p).lock = true)
      (hlk : s.lk ≠ some p) :
      Moves pid s (s.setProc p { s.proc p with chan := true, state := .sleeping, pc := .switched })
  /-- the scheduler gives back `p->lock` of the process that switched to it -/
  | back (p : Fin n) (hp : (s.proc p).pc = .switched) (hlock : (s.proc p).lock = true) :
      Moves pid s (s.setProc p { s.proc p with pc := .off, lock := false })
  /-- the scheduler runs a RUNNABLE process -/
  | pick (p : Fin n) (hlock : (s.proc p).lock = false) (hst : (s.proc p).state = .runnable) :
      Moves pid s (s.setProc p { s.proc p with pc := .resumed, state := .running, lock := true })
  /-- the scheduler passes over a process that is not RUNNABLE -/
  | pass : Moves pid s s
  /-- sleep's tidy-up and `release(&p->lock)` -/
  | tidy (p : Fin n) (hp : (s.proc p).pc = .resumed) (hlock : (s.proc p).lock = true) :
      Moves pid s (s.setProc p { s.proc p with pc := .relock, chan := false, lock := false })
  /-- releasesleep up to its wakeup -/
  | release (p : Fin n) (hp : (s.proc p).pc = .holds) (hlk : s.lk = none) :
      Moves pid s { { s.setProc p { s.proc p with pc := .waking 0 } with lk := some p } with
        locked := false, pid := 0 }
  /-- wakeup passes over myproc() -/
  | skip (p : Fin n) (i : Nat) (hi : i < n) (hp : (s.proc p).pc = .waking i) (hself : (⟨i, hi⟩ : Fin n) = p) :
      Moves pid s (s.setProc p { s.proc p with pc := .waking (i + 1) })
  /-- wakeup looks at another process under its `p->lock` -/
  | wake (p : Fin n) (i : Nat) (hi : i < n) (hp : (s.proc p).pc = .waking i) (hne : (⟨i, hi⟩ : Fin n) ≠ p)
      (hlock : (s.proc ⟨i, hi⟩).lock = false) :
      Moves pid s ((s.setProc ⟨i, hi⟩ (s.proc ⟨i, hi⟩).wakeup).setProc p { s.proc p with pc := .waking (i + 1) })
  /-- the end of wakeup's loop, and releasesleep's `release(&lk->lk)` -/
  | done (p : Fin n) (i : Nat) (hi : ¬ i < n) (hp : (s.proc p).pc = .waking i) (hlk : s.lk = some p) :
      Moves pid s { s.setProc p { s.proc p with pc := .idle } with lk := none }
  /-- kill under `p->lock` -/
  | kill (p : Fin n) (hlock : (s.proc p).lock = false) :
      Moves pid s (s.setProc p { s.proc p with
        state := if (s.proc p).state = .sleeping then .runnable else (s.proc p).state })

section Steps

variable {pid : Fin n → Int} {s s' : Sys n} {p : Fin n}

theorem acquireLk_moves (hp : (s.proc p).pc = .idle ∨ (s.proc p).pc = .relock)
    (h : acquireLk s p .test = .ok s') : Moves pid s s' := by
  cases hlk : s.lk with
  | none =>
    simp only [acquireLk, hlk, Result.ok.injEq] at h
    subst h
    exact .enter p hp hlk
  | some q =>
    simp only [acquireLk, hlk] at h
    split at h <;> cases h

theorem releaseLk_eq_ok {c : Pc} (h : releaseLk s p c = .ok s') :
    s.lk = some p ∧ s' = { s.setProc p { s.proc p with pc := c } with lk := none } := by
  simp only [releaseLk] at h
  split at h
  · cases h
    exact ⟨‹_›, rfl⟩
  · cases h

theorem acquiresleepTest_moves (hp : (s.proc p).pc = .test) (h : acquiresleepTest pid s p = .ok s') :
    Moves pid s s' := by
  simp only [acquiresleepTest] at h
  by_cases hl : s.locked = true
  · rw [if_pos hl] at h
    cases hlock : (s.proc p).lock
    · rw [hlock, if_neg Bool.false_ne_true] at h
      cases h
      exact .sleep p hp hl hlock
    · rw [hlock, if_pos rfl] at h
      cases h
  · rw [if_neg hl] at h
    obtain ⟨hlk, rfl⟩ := releaseLk_eq_ok h
    exact .take p hp (Bool.of_not_eq_true hl) hlk

theorem sleepSched_moves (hp : (s.proc p).pc = .sleepUnlocked) (h : sleepSched s p = .ok s') :
    Moves pid s s' := by
  simp only [sleepSched] at h
  split at h
  · cases h
  · split at h
    · cases h
    · rw [if_neg (by decide)] at h
      cases h
      exact .sched p hp (Bool.of_not_eq_false ‹_›) ‹_›

theorem schedulerBack_moves (hp : (s.proc p).pc = .switched) (h : schedulerBack s p = .ok s') :
    Moves pid s s' := by
  simp only [schedulerBack] at h
  split at h
  · cases h
    exact .back p hp ‹_›
  · cases h

theorem schedulerPick_moves (h : schedulerPick s p = .ok s') : Moves pid s s' := by
  simp only [schedulerPick] at h
  split at h
  · cases h
  · split at h
    · cases h
      exact .pick p (Bool.of_not_eq_true ‹_›) ‹_›
    · cases h
      exact .pass

theorem sleepTidy_moves (hp : (s.proc p).pc = .resumed) (h : sleepTidy s p = .ok s') : Moves pid s s' := by
  simp only [sleepTidy] at h
  split at h
  · cases h
    exact .tidy p hp ‹_›
  · cases h

theorem releasesleep_moves (hp : (s.proc p).pc = .holds) (h : releasesleep s p = .ok s') : Moves pid s s' := by
  obtain ⟨s₁, h₁, h₂⟩ := Result.bind_eq_ok.1 h
  cases hlk : s.lk with
  | none =>
    simp only [acquireLk, hlk, Result.ok.injEq] at h₁
    subst h₁
    cases h₂
    exact .release p hp hlk
  | some q =>
    simp only [acquireLk, hlk] at h₁
    split at h₁ <;> cases h₁

theorem wakeupRound_moves {i : Nat} (hp : (s.proc p).pc = .waking i) (h : wakeupRound s p i = .ok s') :
    Moves pid s s' := by
  simp only [wakeupRound] at h
  split at h
  · rename_i hi
    split at h
    · cases h
      exact .skip p i hi hp ‹_›
    · split at h
      · cases h
      · cases h
        exact .wake p i hi hp ‹_› (Bool.of_not_eq_true ‹_›)
  · obtain ⟨hlk, rfl⟩ := releaseLk_eq_ok h
    exact .done p i ‹_› hp hlk

theorem kill_moves (h : kill s p = .ok s') : Moves pid s s' := by
  simp only [kill] at h
  split at h
  · cases h
  · cases h
    exact .kill p (Bool.of_not_eq_true ‹_›)

/-- Every completed step is one of `Moves`. -/
theorem step_moves {a : Op n} (h : step pid s a = .ok s') : Moves pid s s' := by
  cases a with
  | acquiresleep p =>
    simp only [step] at h
    split at h
    · exact acquireLk_moves (.inl ‹_›) h
    · cases h
  | releasesleep p =>
    simp only [step] at h
    split at h
    · exact releasesleep_moves ‹_› h
    · cases h
  | next p =>
    change next pid s p (s.proc p).pc = .ok s' at h
    cases hpc : (s.proc p).pc <;> rw [hpc] at h
    case test => exact acquiresleepTest_moves hpc h
    case sleepLocked =>
      obtain ⟨hlk, rfl⟩ := releaseLk_eq_ok h
      exact .unlock p hpc hlk
    case sleepUnlocked => exact sleepSched_moves hpc h
    case resumed => exact sleepTidy_moves hpc h
    case relock => exact acquireLk_moves (.inr hpc) h
    case waking i => exact wakeupRound_moves hpc h
    all_goals cases h
  | scheduler p =>
    simp only [step] at h
    split at h
    · exact schedulerBack_moves ‹_› h
    · exact schedulerPick_moves h
  | kill p => exact kill_moves h

end Steps

/-! ## The invariant -/

/-- What a process's own entry says about where it is. -/
structure SleepProc.Ok (r : SleepProc) : Prop where
  lock : r.lock = r.pc.holdsP
  state : r.pc.StateOk r.state
  chan : r.state = .sleeping → r.chan = true

/-- The process is asleep on the sleep lock or on its way there: from sleep's
`acquire(&p->lock)` until a wakeup or kill makes it RUNNABLE. -/
def SleepProc.waiting (r : SleepProc) : Prop :=
  r.pc = .sleepLocked ∨ r.pc = .sleepUnlocked ∨ r.state = .sleeping

/-- A wakeup is due to `p`: a process holds the sleep lock, and its
releasesleep will wake every sleeper, or a releasesleep's wakeup has yet to
reach `proc[p]`. -/
def WakeDue (s : Sys n) (p : Fin n) : Prop :=
  s.locked = true ∨ ∃ w i, (s.proc w).pc = .waking i ∧ i ≤ p.val

/-- Who holds the sleep lock, as `lk->locked` and `lk->pid` record it. -/
structure Owner (pid : Fin n → Int) (s : Sys n) : Prop where
  unique : ∀ p q, (s.proc p).pc = .holds → (s.proc q).pc = .holds → p = q
  locked : s.locked = true ↔ ∃ p, (s.proc p).pc = .holds
  pid : ∀ p, (s.proc p).pc = .holds → s.pid = pid p
  free : s.locked = false → s.pid = 0

/-- The invariant of every reachable state. -/
structure Inv (pid : Fin n → Int) (s : Sys n) : Prop where
  lk : Owns Pc.holdsLk s.lk s.pcs
  proc : ∀ p, (s.proc p).Ok
  owner : Owner pid s
  /-- a process in sleep still holding `lk->lk` found the sleep lock held -/
  sleepLocked : ∀ p, (s.proc p).pc = .sleepLocked → s.locked = true
  /-- wakeup runs with the sleep lock free, over `proc[0..n)` -/
  waking : ∀ p i, (s.proc p).pc = .waking i → i ≤ n ∧ s.locked = false
  /-- no lost wakeup -/
  woken : ∀ p, (s.proc p).waiting → WakeDue s p

namespace SleepProc.Ok

variable {r : SleepProc}

/-- Moving to a place where `p->lock` is held as before and the same states
are allowed. -/
theorem move (h : r.Ok) {c : Pc} (hP : c.holdsP = r.pc.holdsP)
    (hS : c.StateOk r.state ↔ r.pc.StateOk r.state) : { r with pc := c }.Ok where
  lock := h.lock.trans hP.symm
  state := hS.2 h.state
  chan := h.chan

theorem off_of_runnable (h : r.Ok) (hst : r.state = .runnable) : r.pc = .off := by
  have hs := h.state
  cases hpc : r.pc <;> rw [hpc] at hs <;> simp [Pc.StateOk, hst] at hs ⊢

/-- Not asleep once `p->lock` is free: SLEEPING off the CPU is not waiting
for the lock. -/
theorem pc_of_unlocked (h : r.Ok) (hlock : r.lock = false) :
    r.pc ≠ .sleepLocked ∧ r.pc ≠ .sleepUnlocked := by
  have hl := h.lock
  rw [hlock] at hl
  constructor <;> intro hpc <;> rw [hpc] at hl <;> cases hl

theorem running (h : r.Ok) (hc : r.pc.holdsP = false) (hoff : r.pc ≠ .off) : r.state = .running := by
  have hs := h.state
  cases hpc : r.pc <;> rw [hpc] at hs hc <;> first | exact hs | exact absurd hpc hoff | cases hc

/-- On its CPU and without `p->lock`, a process is not waiting. -/
theorem not_waiting (h : r.Ok) (hc : r.pc.holdsP = false) (hoff : r.pc ≠ .off) : ¬ r.waiting := by
  rintro (h1 | h1 | h1)
  · rw [h1] at hc
    cases hc
  · rw [h1] at hc
    cases hc
  · rw [h.running hc hoff] at h1
    cases h1

/-- A SLEEPING process whose `p->lock` is free is off its CPU. -/
theorem off_of_sleeping (h : r.Ok) (hlock : r.lock = false) (hst : r.state = .sleeping) : r.pc = .off := by
  have hs := h.state
  have hl := h.lock
  rw [hlock] at hl
  -- elsewhere `p->lock` is held, or the process is RUNNING
  cases hpc : r.pc <;> rw [hpc] at hs hl <;>
    first | rfl | exact absurd hl (by decide) | exact absurd (hst.symm.trans hs) (by decide)

end SleepProc.Ok

/-- What wakeup and kill do to a process under its `p->lock`: a SLEEPING
process may become RUNNABLE, and nothing else changes. -/
structure Roused (r r' : SleepProc) : Prop where
  pc : r'.pc = r.pc
  lock : r'.lock = r.lock
  chan : r'.chan = r.chan
  state : r'.state = r.state ∨ r.state = .sleeping ∧ r'.state = .runnable

theorem roused_wakeup (r : SleepProc) : Roused r r.wakeup where
  pc := rfl
  lock := rfl
  chan := rfl
  state := by
    by_cases h : r.state = .sleeping ∧ r.chan = true
    · exact .inr ⟨h.1, if_pos h⟩
    · exact .inl (if_neg h)

theorem roused_kill (r : SleepProc) :
    Roused r { r with state := if r.state = .sleeping then .runnable else r.state } where
  pc := rfl
  lock := rfl
  chan := rfl
  state := by
    by_cases h : r.state = .sleeping
    · exact .inr ⟨h, if_pos h⟩
    · exact .inl (if_neg h)

/-- A process asleep on the channel and made RUNNABLE by wakeup waits no more. -/
theorem not_waiting_wakeup {r : SleepProc} (h : r.Ok) (hlock : r.lock = false) : ¬ r.wakeup.waiting := by
  obtain ⟨hpc, hpc'⟩ := h.pc_of_unlocked hlock
  rintro (h1 | h2 | h3)
  · exact hpc h1
  · exact hpc' h2
  · -- a SLEEPING process is on the channel, so wakeup changed its state
    by_cases hs : r.state = .sleeping
    · have hw : r.wakeup.state = .runnable := if_pos ⟨hs, h.chan hs⟩
      rw [hw] at h3
      cases h3
    · have hst := (roused_wakeup r).state.resolve_right fun h' => hs h'.1
      exact hs (hst ▸ h3)

/-- Moving to a place other than sleep's leaves a process waiting only if it
is SLEEPING. -/
theorem SleepProc.waiting_move {r : SleepProc} {c : Pc} (hc : c ≠ .sleepLocked ∧ c ≠ .sleepUnlocked)
    (hw : { r with pc := c }.waiting) : r.state = .sleeping := by
  rcases hw with h1 | h1 | h1
  · exact absurd h1 hc.1
  · exact absurd h1 hc.2
  · exact h1

section Frame

variable {s : Sys n} {p q : Fin n} {r : SleepProc}

theorem Sys.forall_setProc {P : SleepProc → Prop} (h : ∀ q, P (s.proc q)) (hr : P r) :
    ∀ q, P ((s.setProc p r).proc q) := by
  intro q
  by_cases hq : q = p
  · subst hq
    simpa using hr
  · simpa [Function.update_of_ne hq] using h q

/-- A property of the places that `p`'s new place does not have holds after
the move only where it held before. -/
theorem Sys.setProc_pc_of {P : Pc → Prop} (hr : ¬ P r.pc) (hq : P ((s.setProc p r).proc q).pc) :
    q ≠ p ∧ P (s.proc q).pc := by
  by_cases hqp : q = p
  · subst hqp
    simp only [Sys.setProc_proc, Function.update_self] at hq
    exact absurd hq hr
  · simp only [Sys.setProc_proc, Function.update_of_ne hqp] at hq
    exact ⟨hqp, hq⟩

theorem Sys.setProc_pc_iff {P : Pc → Prop} (hP : P r.pc ↔ P (s.proc p).pc) (q : Fin n) :
    P ((s.setProc p r).proc q).pc ↔ P (s.proc q).pc := by
  by_cases hqp : q = p
  · subst hqp
    simpa using hP
  · simp [Function.update_of_ne hqp]

theorem Sys.setProc_waiting (hr : r.waiting → (s.proc p).waiting) (hq : ((s.setProc p r).proc q).waiting) :
    (s.proc q).waiting := by
  by_cases hqp : q = p
  · subst hqp
    simp only [Sys.setProc_proc, Function.update_self] at hq
    exact hr hq
  · simpa [Function.update_of_ne hqp] using hq

theorem Owner.frame {pid : Fin n → Int} {s' : Sys n} (h : Owner pid s) (hl : s'.locked = s.locked)
    (hpid : s'.pid = s.pid) (hh : ∀ q, (s'.proc q).pc = .holds ↔ (s.proc q).pc = .holds) : Owner pid s' where
  unique p q hp hq := h.unique p q ((hh p).1 hp) ((hh q).1 hq)
  locked := by
    rw [hl, h.locked]
    exact exists_congr fun q => (hh q).symm
  pid p hp := hpid ▸ h.pid p ((hh p).1 hp)
  free hf := hpid ▸ h.free (hl ▸ hf)

theorem WakeDue.mono {s' : Sys n} (h : WakeDue s p) (hl : s'.locked = s.locked)
    (hw : ∀ w i, (s.proc w).pc = .waking i → (s'.proc w).pc = .waking i) : WakeDue s' p := by
  rcases h with hl' | ⟨w, i, hwi, hle⟩
  · exact .inl (hl.trans hl')
  · exact .inr ⟨w, i, hw w i hwi, hle⟩

/-- Moving a process that is not in wakeup keeps every process that is. -/
theorem Sys.waking_setProc (hp : ∀ i, (s.proc p).pc ≠ .waking i) {w : Fin n} {i : Nat}
    (hw : (s.proc w).pc = .waking i) : ((s.setProc p r).proc w).pc = .waking i := by
  have hwp : w ≠ p := fun hwp => hp i (hwp ▸ hw)
  simpa [Function.update_of_ne hwp] using hw

end Frame

namespace Inv

variable {pid : Fin n → Int} {s : Sys n} {p : Fin n}

theorem lk_eq (h : Inv pid s) {q : Fin n} (hq : (s.proc q).pc.holdsLk = true) : s.lk = some q :=
  h.lk.holder hq

/-- Two processes holding `lk->lk` are one. -/
theorem lk_unique (h : Inv pid s) {q q' : Fin n} (hq : (s.proc q).pc.holdsLk = true)
    (hq' : (s.proc q').pc.holdsLk = true) : q = q' :=
  Option.some_injective _ ((h.lk.holder hq).symm.trans (h.lk.holder hq'))

/-- The process in wakeup is the only one, and no process waits past its slot. -/
theorem waker (h : Inv pid s) {w : Fin n} {i : Nat} (hw : (s.proc w).pc = .waking i) {q : Fin n}
    (hq : (s.proc q).waiting) : i ≤ q.val := by
  rcases h.woken q hq with hl | ⟨w', j, hw', hle⟩
  · rw [(h.waking w i hw).2] at hl
    cases hl
  · have hww : w' = w := h.lk_unique (by rw [hw']; rfl) (by rw [hw]; rfl)
    subst hww
    rw [hw] at hw'
    cases hw'
    exact hle

/-- A move of `p` between places that neither hold the sleep lock nor are in
wakeup, to a place other than sleep's first, that changes no field of the
sleep lock and leaves `p` waiting only if it was. -/
theorem quiet (h : Inv pid s) {r : SleepProc} {l : Option (Fin n)}
    (hold : (s.proc p).pc ≠ .holds ∧ ∀ i, (s.proc p).pc ≠ .waking i)
    (hnew : r.pc ≠ .holds ∧ r.pc ≠ .sleepLocked ∧ ∀ i, r.pc ≠ .waking i)
    (hwait : r.waiting → (s.proc p).waiting) (hr : r.Ok)
    (hlk : Owns Pc.holdsLk l (Function.update s.pcs p r.pc)) : Inv pid { s.setProc p r with lk := l } where
  lk := by
    show Owns Pc.holdsLk l (s.setProc p r).pcs
    rw [Sys.pcs_setProc]
    exact hlk
  proc := Sys.forall_setProc h.proc hr
  owner := h.owner.frame rfl rfl (Sys.setProc_pc_iff (P := (· = .holds)) (iff_of_false hnew.1 hold.1))
  sleepLocked q hq := h.sleepLocked q (Sys.setProc_pc_of (P := (· = .sleepLocked)) hnew.2.1 hq).2
  waking q i hq := h.waking q i (Sys.setProc_pc_of (P := (· = .waking i)) (hnew.2.2 i) hq).2
  woken q hq := (h.woken q (Sys.setProc_waiting hwait hq)).mono rfl fun _ _ => Sys.waking_setProc hold.2

/-- wakeup or kill rousing process `q` under its `p->lock`. -/
theorem rouse (h : Inv pid s) {q : Fin n} {r' : SleepProc} (hlock : (s.proc q).lock = false)
    (hr : Roused (s.proc q) r') : Inv pid (s.setProc q r') := by
  have hpcs : (s.setProc q r').pcs = s.pcs := by
    rw [Sys.pcs_setProc, hr.pc]
    exact Function.update_eq_self q s.pcs
  have hsame : ∀ q', ((s.setProc q r').proc q').pc = (s.proc q').pc := fun q' => congrFun hpcs q'
  refine ⟨hpcs ▸ h.lk, Sys.forall_setProc h.proc ?_, h.owner.frame rfl rfl fun q' => by rw [hsame q'],
    fun q' hq' => h.sleepLocked q' (hsame q' ▸ hq'), fun q' i hq' => h.waking q' i (hsame q' ▸ hq'),
    fun q' hq' => ?_⟩
  · -- a SLEEPING process whose `p->lock` is free is off its CPU, where RUNNABLE is allowed
    have hok := h.proc q
    refine ⟨by rw [hr.lock, hr.pc, hok.lock], ?_, ?_⟩
    · rcases hr.state with hst | ⟨hslp, hrun⟩
      · rw [hr.pc, hst]
        exact hok.state
      · rw [hr.pc, hrun, hok.off_of_sleeping hlock hslp]
        exact .inr rfl
    · intro hst
      rcases hr.state with hst' | ⟨-, hrun⟩
      · rw [hr.chan]
        exact hok.chan (hst' ▸ hst)
      · rw [hrun] at hst
        cases hst
  · have hw : (s.proc q').waiting := by
      refine Sys.setProc_waiting (fun hw => ?_) hq'
      rcases hw with h1 | h2 | h3
      · exact .inl (hr.pc ▸ h1)
      · exact .inr (.inl (hr.pc ▸ h2))
      · rcases hr.state with hst | ⟨-, hrun⟩
        · exact .inr (.inr (hst ▸ h3))
        · rw [hrun] at h3
          cases h3
    exact (h.woken q' hw).mono rfl fun w i hwi => (hsame w).trans hwi

/-- acquiresleep's test finds the sleep lock held, and sleep takes `p->lock`. -/
theorem sleep (h : Inv pid s) (hp : (s.proc p).pc = .test) (hl : s.locked = true) :
    Inv pid (s.setProc p { s.proc p with pc := .sleepLocked, lock := true }) where
  lk := by
    rw [Sys.pcs_setProc]
    exact h.lk.stay p (by rw [Sys.pcs_def, hp]; rfl)
  proc := Sys.forall_setProc h.proc
    ⟨rfl, (h.proc p).running (by rw [hp]; rfl) (by rw [hp]; decide), fun hst => (h.proc p).chan hst⟩
  owner := h.owner.frame rfl rfl (Sys.setProc_pc_iff (P := (· = .holds)) (by rw [hp]; simp))
  sleepLocked _ _ := hl
  waking q i hq := h.waking q i (Sys.setProc_pc_of (P := (· = .waking i)) (by simp) hq).2
  woken _ _ := .inl hl

/-- acquiresleep's test finds the sleep lock free, and `p` takes it. -/
theorem take (h : Inv pid s) (hp : (s.proc p).pc = .test) (hl : s.locked = false) (hlk : s.lk = some p) :
    Inv pid { { s with locked := true, pid := pid p }.setProc p { s.proc p with pc := .holds } with
      lk := none } where
  lk := by
    show Owns Pc.holdsLk none (s.setProc p _).pcs
    rw [Sys.pcs_setProc]
    exact h.lk.release hlk rfl
  proc := Sys.forall_setProc h.proc ((h.proc p).move (by rw [hp]; rfl) (by rw [hp]; exact Iff.rfl))
  owner := by
    -- no process held the sleep lock, so `p` is its only holder
    have hnone : ∀ q, (s.proc q).pc ≠ .holds := fun q hq => by
      have := h.owner.locked.2 ⟨q, hq⟩
      rw [hl] at this
      cases this
    have hholds : ∀ q, ((s.setProc p { s.proc p with pc := .holds }).proc q).pc = .holds ↔ q = p := by
      intro q
      by_cases hqp : q = p
      · subst hqp
        simp
      · simp [hnone q, hqp]
    refine ⟨fun q q' hq hq' => ((hholds q).1 hq).trans ((hholds q').1 hq').symm, ?_, fun q hq => ?_, ?_⟩
    · exact iff_of_true rfl ⟨p, (hholds p).2 rfl⟩
    · rw [(hholds q).1 hq]
      rfl
    · intro hf
      cases hf
  sleepLocked _ _ := rfl
  waking q i hq := by
    -- wakeup would hold `lk->lk`, which `p` holds
    have hw := (Sys.setProc_pc_of (P := (· = .waking i)) (by simp) hq).2
    have hqp : q = p := h.lk_unique (by rw [hw]; rfl) (by rw [hp]; rfl)
    rw [hqp, hp] at hw
    cases hw
  woken _ _ := .inl rfl

/-- releasesleep takes `lk->lk` and clears the sleep lock. -/
theorem release (h : Inv pid s) (hp : (s.proc p).pc = .holds) (hlk : s.lk = none) :
    Inv pid { { s.setProc p { s.proc p with pc := .waking 0 } with lk := some p } with
      locked := false, pid := 0 } where
  lk := by
    show Owns Pc.holdsLk (some p) (s.setProc p _).pcs
    rw [Sys.pcs_setProc]
    exact h.lk.take hlk p rfl
  proc := Sys.forall_setProc h.proc ((h.proc p).move (by rw [hp]; rfl) (by rw [hp]; exact Iff.rfl))
  owner := by
    -- `p` was the one holder
    have hnone : ∀ q, ((s.setProc p { s.proc p with pc := .waking 0 }).proc q).pc ≠ .holds := by
      intro q hq
      obtain ⟨hqp, hq'⟩ := Sys.setProc_pc_of (P := (· = .holds)) (by simp) hq
      exact hqp (h.owner.unique q p hq' hp)
    refine ⟨fun q _ hq => absurd hq (hnone q), iff_of_false Bool.false_ne_true ?_, fun q hq => absurd hq (hnone q),
      fun _ => rfl⟩
    exact fun ⟨q, hq⟩ => hnone q hq
  -- no other process held `lk->lk`, so none is in sleep or wakeup
  sleepLocked q hq := by
    have hq' := (Sys.setProc_pc_of (P := (· = .sleepLocked)) (by simp) hq).2
    exact absurd (h.lk_eq (by rw [hq']; rfl)) (by rw [hlk]; simp)
  waking q i hq := by
    by_cases hqp : q = p
    · subst hqp
      simp only [Sys.setProc_proc, Function.update_self, Pc.waking.injEq] at hq
      exact ⟨hq ▸ Nat.zero_le n, rfl⟩
    · have hq' : (s.proc q).pc = .waking i := by simpa [Function.update_of_ne hqp] using hq
      exact absurd (h.lk_eq (by rw [hq']; rfl)) (by rw [hlk]; simp)
  woken _ _ := .inr ⟨p, 0, by simp, Nat.zero_le _⟩

/-- wakeup moves past `proc[i]`: `p` itself, or a process that is not
waiting, as it looked at it under its `p->lock`. -/
theorem advance (h : Inv pid s) {i : Nat} (hp : (s.proc p).pc = .waking i) (hi : i < n)
    (hpast : (⟨i, hi⟩ : Fin n) = p ∨ ¬ (s.proc ⟨i, hi⟩).waiting) :
    Inv pid (s.setProc p { s.proc p with pc := .waking (i + 1) }) where
  lk := by
    rw [Sys.pcs_setProc]
    exact h.lk.stay p (by rw [Sys.pcs_def, hp]; rfl)
  proc := Sys.forall_setProc h.proc ((h.proc p).move (by rw [hp]; rfl) (by rw [hp]; exact Iff.rfl))
  owner := h.owner.frame rfl rfl (Sys.setProc_pc_iff (P := (· = .holds)) (by rw [hp]; simp))
  sleepLocked q hq := h.sleepLocked q (Sys.setProc_pc_of (P := (· = .sleepLocked)) (by simp) hq).2
  waking q j hq := by
    by_cases hqp : q = p
    · subst hqp
      simp only [Sys.setProc_proc, Function.update_self, Pc.waking.injEq] at hq
      exact ⟨hq ▸ hi, (h.waking q i hp).2⟩
    · have hq' : (s.proc q).pc = .waking j := by simpa [Function.update_of_ne hqp] using hq
      exact h.waking q j hq'
  woken q hq := by
    have hpw : ¬ (s.proc p).waiting := (h.proc p).not_waiting (by rw [hp]; rfl) (by rw [hp]; simp)
    have hq' : (s.proc q).waiting := Sys.setProc_waiting (fun hw => .inr (.inr (SleepProc.waiting_move (by simp) hw))) hq
    -- the loop had not passed `q`, and was not at `q`'s slot: `q` is waiting
    have hne : i ≠ q.val := by
      intro hiq
      have hqi : (⟨i, hi⟩ : Fin n) = q := Fin.ext hiq
      rcases hpast with hpi | hnw
      · exact hpw (hpi ▸ hqi ▸ hq')
      · exact hnw (hqi ▸ hq')
    have hle := h.waker hp hq'
    exact .inr ⟨p, i + 1, by simp, by omega⟩

/-- The end of wakeup's loop: releasesleep gives `lk->lk` back. -/
theorem done (h : Inv pid s) {i : Nat} (hp : (s.proc p).pc = .waking i) (hi : ¬ i < n) (hlk : s.lk = some p) :
    Inv pid { s.setProc p { s.proc p with pc := .idle } with lk := none } where
  lk := by
    show Owns Pc.holdsLk none (s.setProc p _).pcs
    rw [Sys.pcs_setProc]
    exact h.lk.release hlk rfl
  proc := Sys.forall_setProc h.proc ((h.proc p).move (by rw [hp]; rfl) (by rw [hp]; exact Iff.rfl))
  owner := h.owner.frame rfl rfl (Sys.setProc_pc_iff (P := (· = .holds)) (by rw [hp]; simp))
  sleepLocked q hq := h.sleepLocked q (Sys.setProc_pc_of (P := (· = .sleepLocked)) (by simp) hq).2
  waking q j hq := h.waking q j (Sys.setProc_pc_of (P := (· = .waking j)) (by simp) hq).2
  -- the loop passed every slot, so no process is waiting
  woken q hq := by
    have hpw : ¬ (s.proc p).waiting := (h.proc p).not_waiting (by rw [hp]; rfl) (by rw [hp]; simp)
    have hq' : (s.proc q).waiting := Sys.setProc_waiting (fun hw => .inr (.inr (SleepProc.waiting_move (by simp) hw))) hq
    exact absurd (lt_of_le_of_lt (h.waker hp hq') q.isLt) hi

/-- Every completed step keeps the invariant. -/
theorem moves (h : Inv pid s) {s' : Sys n} (hm : Moves pid s s') : Inv pid s' := by
  cases hm with
  | enter p hp hlk =>
    have hr : ({ s.proc p with pc := .test } : SleepProc).Ok :=
      (h.proc p).move (by rcases hp with hp | hp <;> rw [hp] <;> rfl)
        (by rcases hp with hp | hp <;> rw [hp] <;> exact Iff.rfl)
    exact h.quiet (by rcases hp with hp | hp <;> rw [hp] <;> simp) (by simp)
      (fun hw => absurd hw (hr.not_waiting rfl (by simp))) hr (h.lk.take hlk p rfl)
  | sleep p hp hl _ => exact h.sleep hp hl
  | take p hp hl hlk => exact h.take hp hl hlk
  | unlock p hp hlk =>
    exact h.quiet (by rw [hp]; simp) (by simp) (fun _ => .inl hp)
      ((h.proc p).move (by rw [hp]; rfl) (by rw [hp]; exact Iff.rfl)) (h.lk.release hlk rfl)
  | sched p hp hlock _ =>
    exact h.quiet (l := s.lk) (by rw [hp]; simp) (by simp) (fun _ => .inr (.inl hp))
      ⟨hlock, rfl, fun _ => rfl⟩ (h.lk.stay p (by rw [Sys.pcs_def, hp]; rfl))
  | back p hp hlock =>
    -- it switched out SLEEPING, and is off its CPU SLEEPING
    have hst : (s.proc p).state = .sleeping := by
      have hs := (h.proc p).state
      rwa [hp] at hs
    exact h.quiet (l := s.lk) (by rw [hp]; simp) (by simp) (fun _ => .inr (.inr hst))
      ⟨rfl, .inl hst, (h.proc p).chan⟩ (h.lk.stay p (by rw [Sys.pcs_def, hp]; rfl))
  | pick p hlock hst =>
    have hoff := (h.proc p).off_of_runnable hst
    have hr : ({ s.proc p with pc := .resumed, state := .running, lock := true } : SleepProc).Ok :=
      ⟨rfl, rfl, fun h => by cases h⟩
    exact h.quiet (l := s.lk) (by rw [hoff]; simp) (by simp)
      (fun hw => absurd hw (by rintro (h1 | h1 | h1) <;> cases h1)) hr
      (h.lk.stay p (by rw [Sys.pcs_def, hoff]; rfl))
  | pass => exact h
  | tidy p hp hlock =>
    have hrun : (s.proc p).state = .running := by
      have hs := (h.proc p).state
      rwa [hp] at hs
    have hr : ({ s.proc p with pc := .relock, chan := false, lock := false } : SleepProc).Ok :=
      ⟨rfl, hrun, fun hs => absurd (hrun.symm.trans hs) (by decide)⟩
    exact h.quiet (l := s.lk) (by rw [hp]; simp) (by simp)
      (fun hw => absurd hw (hr.not_waiting rfl (by simp))) hr (h.lk.stay p (by rw [Sys.pcs_def, hp]; rfl))
  | release p hp hlk => exact h.release hp hlk
  | skip p i hi hp hself => exact h.advance hp hi (.inl hself)
  | wake p i hi hp hne hlock =>
    -- the process at `proc[i]` is roused first; then `p` moves past it
    have h₁ := h.rouse hlock (roused_wakeup _)
    have hpp : (s.setProc ⟨i, hi⟩ (s.proc ⟨i, hi⟩).wakeup).proc p = s.proc p :=
      Function.update_of_ne (Ne.symm hne) _ _
    have h₂ := h₁.advance (p := p) (by rw [hpp]; exact hp) hi
      (.inr (by simpa using not_waiting_wakeup (h.proc ⟨i, hi⟩) hlock))
    rwa [hpp] at h₂
  | done p i hi hp hlk => exact h.done hp hi hlk
  | kill p hlock => exact h.rouse hlock (roused_kill _)

theorem init (pid : Fin n → Int) : Inv pid (sleepSystem n pid).init where
  lk q := by simp [sleepSystem, Sys.pcs, Pc.holdsLk]
  proc _ := ⟨rfl, rfl, fun h => by cases h⟩
  owner :=
    { unique := fun _ _ hp => by cases hp
      locked := iff_of_false Bool.false_ne_true fun ⟨_, hp⟩ => by cases hp
      pid := fun _ hp => by cases hp
      free := fun _ => rfl }
  sleepLocked _ hq := by cases hq
  waking _ _ hq := by cases hq
  woken _ hq := by rcases hq with hq | hq | hq <;> cases hq

end Inv

theorem inv_of_reachable {pid : Fin n → Int} {s : Sys n} (h : Reachable (sleepSystem n pid) s) : Inv pid s :=
  h.rec_inv (Inv pid) (Inv.init pid) fun _ _ _ hs hstep => hs.moves (step_moves hstep)

/-! ## Mutual exclusion and no lost wakeup -/

section Exclusion

variable {pid : Fin n → Int} {s : Sys n}

theorem holdingsleep_eq_ok {p : Fin n} {b : Bool} (h : holdingsleep pid s p = .ok b) :
    s.lk = none ∧ b = (s.locked && s.pid == pid p) := by
  cases hlk : s.lk with
  | none =>
    simp only [holdingsleep, hlk, Result.ok.injEq] at h
    exact ⟨rfl, h.symm⟩
  | some q =>
    simp only [holdingsleep, hlk] at h
    split at h <;> cases h

/-- With distinct pids, `lk->locked && lk->pid == myproc()->pid` holds
exactly for the holder. -/
theorem Owner.holds_iff (h : Owner pid s) (hpid : Function.Injective pid) (p : Fin n) :
    (s.locked && s.pid == pid p) = true ↔ (s.proc p).pc = .holds := by
  rw [Bool.and_eq_true, beq_iff_eq]
  constructor
  · rintro ⟨hl, hp⟩
    obtain ⟨q, hq⟩ := h.locked.1 hl
    rw [h.pid q hq] at hp
    exact hpid hp ▸ hq
  · intro hp
    exact ⟨h.locked.2 ⟨p, hp⟩, h.pid p hp⟩

/-- Mutual exclusion: in every reachable state at most one process holds the
sleep lock, `lk->locked` is set exactly while one does, and holdingsleep,
whenever it returns, answers true exactly to the holder. -/
theorem sleeplock_exclusive (hpid : Function.Injective pid) (h : Reachable (sleepSystem n pid) s) :
    (∀ p q, (s.proc p).pc = .holds → (s.proc q).pc = .holds → p = q) ∧
      (s.locked = true ↔ ∃ p, (s.proc p).pc = .holds) ∧
      ∀ p b, holdingsleep pid s p = .ok b → (b = true ↔ (s.proc p).pc = .holds) := by
  have hinv := inv_of_reachable h
  refine ⟨hinv.owner.unique, hinv.owner.locked, fun p b hb => ?_⟩
  rw [(holdingsleep_eq_ok hb).2]
  exact hinv.owner.holds_iff hpid p

/-- Two processes: 0 takes the sleep lock, 1 sleeps on it, 0 releases it and
wakes 1, and 1 takes it. -/
theorem sleeplock_exclusive_handoff : ∃ s, run (sleepSystem 2 fun p => (p.val : Int) + 1)
    (sleepSystem 2 fun p => (p.val : Int) + 1).init
    [.acquiresleep 0, .next 0, .acquiresleep 1, .next 1, .next 1, .next 1, .scheduler 1,
      .releasesleep 0, .next 0, .next 0, .next 0, .scheduler 1, .next 1, .next 1, .next 1] = .ok s ∧
    (s.proc 1).pc = .holds ∧
    ((∀ p q, (s.proc p).pc = .holds → (s.proc q).pc = .holds → p = q) ∧
      (s.locked = true ↔ ∃ p, (s.proc p).pc = .holds) ∧
      ∀ p b, holdingsleep (fun p => (p.val : Int) + 1) s p = .ok b → (b = true ↔ (s.proc p).pc = .holds)) := by
  obtain ⟨s, hrun⟩ : ∃ s, run (sleepSystem 2 fun p => (p.val : Int) + 1) (sleepSystem 2 fun p => (p.val : Int) + 1).init
      [.acquiresleep 0, .next 0, .acquiresleep 1, .next 1, .next 1, .next 1, .scheduler 1,
        .releasesleep 0, .next 0, .next 0, .next 0, .scheduler 1, .next 1, .next 1, .next 1] = .ok s := ⟨_, rfl⟩
  have hholds : (s.proc 1).pc = .holds := by
    cases hrun
    rfl
  exact ⟨s, hrun, hholds, sleeplock_exclusive (by decide) (reachable_of_run .init _ s hrun)⟩

/-- No lost wakeup: a process asleep on the sleep lock, or on its way to
sleep, has a holder of the sleep lock, whose releasesleep will wake every
sleeper, or a releasesleep whose wakeup has not yet reached its slot. -/
theorem sleeplock_no_lost_wakeup (h : Reachable (sleepSystem n pid) s) {p : Fin n} (hp : (s.proc p).waiting) :
    (∃ q, (s.proc q).pc = .holds) ∨ ∃ w i, (s.proc w).pc = .waking i ∧ i ≤ p.val := by
  have hinv := inv_of_reachable h
  rcases hinv.woken p hp with hl | hw
  · exact .inl (hinv.owner.locked.1 hl)
  · exact .inr hw

/-- Process 1 asleep while 0 holds the sleep lock. -/
theorem sleeplock_no_lost_wakeup_asleep : ∃ s, run (sleepSystem 2 fun p => (p.val : Int) + 1)
    (sleepSystem 2 fun p => (p.val : Int) + 1).init
    [.acquiresleep 0, .next 0, .acquiresleep 1, .next 1, .next 1, .next 1, .scheduler 1] = .ok s ∧
    (s.proc 1).waiting ∧
    ((∃ q, (s.proc q).pc = .holds) ∨ ∃ w i, (s.proc w).pc = .waking i ∧ i ≤ (1 : Fin 2).val) := by
  obtain ⟨s, hrun⟩ : ∃ s, run (sleepSystem 2 fun p => (p.val : Int) + 1) (sleepSystem 2 fun p => (p.val : Int) + 1).init
      [.acquiresleep 0, .next 0, .acquiresleep 1, .next 1, .next 1, .next 1, .scheduler 1] = .ok s := ⟨_, rfl⟩
  have hw : (s.proc 1).waiting := by
    cases hrun
    exact .inr (.inr rfl)
  exact ⟨s, hrun, hw, sleeplock_no_lost_wakeup (reachable_of_run .init _ s hrun) hw⟩

end Exclusion

/-! ## No deadlock, no panic -/

section Progress

variable {pid : Fin n → Int} {s : Sys n} {q : Fin n}

/-- Some step moves process `q`. -/
def CanMove (pid : Fin n → Int) (s : Sys n) (q : Fin n) : Prop :=
  ∃ a s', step pid s a = .ok s' ∧ (s'.proc q).pc ≠ (s.proc q).pc

/-- `q` is in the sleep lock's code and not asleep there: off its CPU only
when RUNNABLE. -/
def Awake (s : Sys n) (q : Fin n) : Prop :=
  (s.proc q).pc ≠ .idle ∧ ((s.proc q).pc = .off → (s.proc q).state = .runnable)

theorem awake_of_pc {c : Pc} (hq : (s.proc q).pc = c) (hidle : c ≠ .idle) (hoff : c ≠ .off) : Awake s q :=
  ⟨by rw [hq]; exact hidle, fun h => absurd (hq.symm.trans h) hoff⟩

/-- A process that holds `p->lock` is in the sleep lock's code, on its CPU or
switched out of it. -/
theorem Inv.awake_of_lock (h : Inv pid s) (hlock : (s.proc q).lock = true) : Awake s q := by
  have hq := (h.proc q).lock
  rw [hlock] at hq
  refine ⟨fun hi => ?_, fun ho => ?_⟩
  · simp [hi, Pc.holdsP] at hq
  · simp [ho, Pc.holdsP] at hq

theorem step_next (p : Fin n) : step pid s (.next p) = next pid s p (s.proc p).pc := rfl

/-- `q`'s next critical section, at `c`, completes and moves it. -/
theorem canMove_next {c : Pc} (hq : (s.proc q).pc = c) (h : ∃ t, next pid s q c = .ok t ∧ (t.proc q).pc ≠ c) :
    CanMove pid s q := by
  obtain ⟨t, ht, hne⟩ := h
  exact ⟨.next q, t, by rw [step_next, hq]; exact ht, by rw [hq]; exact hne⟩

namespace Inv

theorem lk_ne (h : Inv pid s) (hq : (s.proc q).pc.holdsLk = false) : s.lk ≠ some q := fun hlk => by
  have hh : (s.proc q).pc.holdsLk = true := (h.lk q).1 hlk
  rw [hq] at hh
  cases hh

theorem canMove_test (h : Inv pid s) (hq : (s.proc q).pc = .test) : CanMove pid s q := by
  have hlk : s.lk = some q := h.lk_eq (by rw [hq]; rfl)
  have hlock : (s.proc q).lock = false := by rw [(h.proc q).lock, hq]; rfl
  by_cases hl : s.locked = true
  · exact canMove_next hq (by simp [next, acquiresleepTest, hl, hlock])
  · exact canMove_next hq (by simp [next, acquiresleepTest, hl, releaseLk, hlk])

theorem canMove_sleepLocked (h : Inv pid s) (hq : (s.proc q).pc = .sleepLocked) : CanMove pid s q :=
  canMove_next hq (by simp [next, releaseLk, h.lk_eq (by rw [hq]; rfl)])

theorem canMove_sleepUnlocked (h : Inv pid s) (hq : (s.proc q).pc = .sleepUnlocked) : CanMove pid s q := by
  have hlock : (s.proc q).lock = true := by rw [(h.proc q).lock, hq]; rfl
  exact canMove_next hq (by simp [next, sleepSched, hlock, h.lk_ne (by rw [hq]; rfl)])

theorem canMove_switched (h : Inv pid s) (hq : (s.proc q).pc = .switched) : CanMove pid s q := by
  have hlock : (s.proc q).lock = true := by rw [(h.proc q).lock, hq]; rfl
  exact ⟨.scheduler q, by simp [step, hq, schedulerBack, hlock]⟩

theorem canMove_runnable (h : Inv pid s) (hst : (s.proc q).state = .runnable) : CanMove pid s q := by
  have hq := (h.proc q).off_of_runnable hst
  have hlock : (s.proc q).lock = false := by rw [(h.proc q).lock, hq]; rfl
  exact ⟨.scheduler q, by simp [step, hq, schedulerPick, hlock, hst]⟩

theorem canMove_resumed (h : Inv pid s) (hq : (s.proc q).pc = .resumed) : CanMove pid s q := by
  have hlock : (s.proc q).lock = true := by rw [(h.proc q).lock, hq]; rfl
  exact canMove_next hq (by simp [next, sleepTidy, hlock])

theorem canMove_relock (hq : (s.proc q).pc = .relock) (hlk : s.lk = none) : CanMove pid s q :=
  canMove_next hq (by simp [next, acquireLk, hlk])

theorem canMove_holds (hq : (s.proc q).pc = .holds) (hlk : s.lk = none) : CanMove pid s q :=
  ⟨.releasesleep q, by simp [step, hq, releasesleep, acquireLk, hlk]⟩

/-- A process holding `p->lock` across steps can move. -/
theorem canMove_of_lock (h : Inv pid s) (hlock : (s.proc q).lock = true) (hlk : s.lk ≠ some q) :
    CanMove pid s q := by
  have hq := (h.proc q).lock
  rw [hlock] at hq
  cases hpc : (s.proc q).pc <;> rw [hpc] at hq
  case sleepLocked => exact absurd (h.lk_eq (by rw [hpc]; rfl)) hlk
  case sleepUnlocked => exact h.canMove_sleepUnlocked hpc
  case switched => exact h.canMove_switched hpc
  case resumed => exact h.canMove_resumed hpc
  all_goals cases hq

/-- wakeup moves on, or the process it waits for at `proc[i]` does. -/
theorem canMove_waking (h : Inv pid s) {w : Fin n} {i : Nat} (hw : (s.proc w).pc = .waking i) :
    ∃ q, Awake s q ∧ CanMove pid s q := by
  have hlk : s.lk = some w := h.lk_eq (by rw [hw]; rfl)
  have hwa : Awake s w := awake_of_pc hw (by simp) (by simp)
  by_cases hi : i < n
  · by_cases hself : (⟨i, hi⟩ : Fin n) = w
    · exact ⟨w, hwa, canMove_next hw (by simp [next, wakeupRound, hi, hself])⟩
    · cases hlock : (s.proc ⟨i, hi⟩).lock
      · exact ⟨w, hwa, canMove_next hw (by simp [next, wakeupRound, hi, hself, hlock])⟩
      · exact ⟨_, h.awake_of_lock hlock, h.canMove_of_lock hlock (by rw [hlk]; simpa [eq_comm] using hself)⟩
  · exact ⟨w, hwa, canMove_next hw (by simp [next, wakeupRound, hi, releaseLk, hlk])⟩

/-- Whenever some process is outside idle, some process of the sleep lock's
code that is not asleep there can move: the holder of `lk->lk` if there is
one, and otherwise a process off its CPU is RUNNABLE, or SLEEPING while the
holder of the sleep lock can release it. -/
theorem progress (h : Inv pid s) {p : Fin n} (hp : (s.proc p).pc ≠ .idle) :
    ∃ q, Awake s q ∧ CanMove pid s q := by
  cases hlk : s.lk with
  | some w =>
    have hw : (s.proc w).pc.holdsLk = true := (h.lk w).1 hlk
    cases hpc : (s.proc w).pc <;> rw [hpc] at hw
    case test => exact ⟨w, awake_of_pc hpc (by simp) (by simp), h.canMove_test hpc⟩
    case sleepLocked => exact ⟨w, awake_of_pc hpc (by simp) (by simp), h.canMove_sleepLocked hpc⟩
    case waking i => exact h.canMove_waking hpc
    all_goals cases hw
  | none =>
    have hfree : (s.proc p).pc.holdsLk = false := h.lk.not_holds hlk p
    have hpa : ∀ c, (s.proc p).pc = c → c ≠ .off → Awake s p := fun c hc hoff =>
      awake_of_pc hc (hc ▸ hp) hoff
    cases hpc : (s.proc p).pc <;> rw [hpc] at hfree
    case idle => exact absurd hpc hp
    case sleepUnlocked => exact ⟨p, hpa _ hpc (by simp), h.canMove_sleepUnlocked hpc⟩
    case switched => exact ⟨p, hpa _ hpc (by simp), h.canMove_switched hpc⟩
    case off =>
      have hs := (h.proc p).state
      rw [hpc] at hs
      rcases hs with hsl | hrun
      · -- asleep: a wakeup is due, and with `lk->lk` free it is the holder's releasesleep
        rcases h.woken p (.inr (.inr hsl)) with hl | ⟨w, i, hw, -⟩
        · obtain ⟨q, hq⟩ := h.owner.locked.1 hl
          exact ⟨q, awake_of_pc hq (by simp) (by simp), canMove_holds hq hlk⟩
        · exact absurd (h.lk_eq (by rw [hw]; rfl)) (by rw [hlk]; simp)
      · exact ⟨p, ⟨hp, fun _ => hrun⟩, h.canMove_runnable hrun⟩
    case resumed => exact ⟨p, hpa _ hpc (by simp), h.canMove_resumed hpc⟩
    case relock => exact ⟨p, hpa _ hpc (by simp), canMove_relock hpc hlk⟩
    case holds => exact ⟨p, hpa _ hpc (by simp), canMove_holds hpc hlk⟩
    all_goals cases hfree

end Inv

end Progress

section Panic

variable {pid : Fin n → Int} {s : Sys n} {p : Fin n} {msg : String}

theorem acquireLk_panic {c : Pc} (h : acquireLk s p c = .panic msg) : s.lk = some p := by
  cases hlk : s.lk with
  | none => simp [acquireLk, hlk] at h
  | some q =>
    simp only [acquireLk, hlk] at h
    split at h
    · rename_i hq
      rw [hq]
    · cases h

theorem releaseLk_panic {c : Pc} (h : releaseLk s p c = .panic msg) : s.lk ≠ some p := by
  simp only [releaseLk] at h
  split at h
  · cases h
  · assumption

theorem acquiresleepTest_panic (h : acquiresleepTest pid s p = .panic msg) : s.lk ≠ some p := by
  simp only [acquiresleepTest] at h
  split at h
  · split at h <;> cases h
  · exact releaseLk_panic (s := { s with locked := true, pid := pid p }) h

/-- sched() panics only without `p->lock` or with `lk->lk` still held: the
state was set to SLEEPING just before it. -/
theorem sleepSched_panic (h : sleepSched s p = .panic msg) : (s.proc p).lock = false ∨ s.lk = some p := by
  by_cases hlock : (s.proc p).lock = false
  · exact .inl hlock
  · by_cases hlk : s.lk = some p
    · exact .inr hlk
    · simp [sleepSched, hlock, hlk] at h

theorem schedulerBack_panic (h : schedulerBack s p = .panic msg) : (s.proc p).lock = false := by
  by_contra hlock
  rw [schedulerBack, if_pos (Bool.of_not_eq_false hlock)] at h
  cases h

theorem schedulerPick_ne_panic : schedulerPick s p ≠ .panic msg := by
  simp only [schedulerPick]
  split_ifs <;> simp

theorem sleepTidy_panic (h : sleepTidy s p = .panic msg) : (s.proc p).lock = false := by
  by_contra hlock
  rw [sleepTidy, if_pos (Bool.of_not_eq_false hlock)] at h
  cases h

theorem releasesleep_panic (h : releasesleep s p = .panic msg) : s.lk = some p := by
  obtain h | ⟨_, _, h₂⟩ := Result.bind_eq_panic.1 h
  · exact acquireLk_panic h
  · cases h₂

theorem wakeupRound_panic {i : Nat} (h : wakeupRound s p i = .panic msg) : s.lk ≠ some p := by
  by_cases hi : i < n
  · rw [wakeupRound, dif_pos hi] at h
    -- every branch of the loop's body completes or waits
    split_ifs at h
  · rw [wakeupRound, dif_neg hi] at h
    exact releaseLk_panic h

theorem kill_ne_panic : kill s p ≠ .panic msg := by
  simp only [kill]
  split_ifs <;> simp

theorem Inv.lock_of_pc (h : Inv pid s) {c : Pc} (hp : (s.proc p).pc = c) : (s.proc p).lock = c.holdsP := by
  rw [(h.proc p).lock, hp]

/-- Under the invariant no step panics: a process acquires `lk->lk` only
where it does not hold it, releases a lock only where it holds it, and calls
sched() holding `p->lock` alone. -/
theorem Inv.step_ne_panic (h : Inv pid s) (a : Op n) : step pid s a ≠ .panic msg := by
  intro hpanic
  cases a with
  | acquiresleep p =>
    by_cases hp : (s.proc p).pc = .idle
    · exact h.lk_ne (by rw [hp]; rfl) (acquireLk_panic (by simpa [step, hp] using hpanic))
    · simp [step, hp] at hpanic
  | releasesleep p =>
    by_cases hp : (s.proc p).pc = .holds
    · exact h.lk_ne (by rw [hp]; rfl) (releasesleep_panic (by simpa [step, hp] using hpanic))
    · simp [step, hp] at hpanic
  | next p =>
    change next pid s p (s.proc p).pc = .panic msg at hpanic
    cases hpc : (s.proc p).pc <;> rw [hpc] at hpanic
    case test => exact acquiresleepTest_panic hpanic (h.lk_eq (by rw [hpc]; rfl))
    case sleepLocked => exact releaseLk_panic hpanic (h.lk_eq (by rw [hpc]; rfl))
    case sleepUnlocked =>
      rcases sleepSched_panic hpanic with hlock | hlk
      · rw [h.lock_of_pc hpc] at hlock
        cases hlock
      · exact h.lk_ne (by rw [hpc]; rfl) hlk
    case resumed =>
      have hlock := sleepTidy_panic hpanic
      rw [h.lock_of_pc hpc] at hlock
      cases hlock
    case relock => exact h.lk_ne (by rw [hpc]; rfl) (acquireLk_panic hpanic)
    case waking i => exact wakeupRound_panic hpanic (h.lk_eq (by rw [hpc]; rfl))
    all_goals cases hpanic
  | scheduler p =>
    by_cases hp : (s.proc p).pc = .switched
    · have hlock := schedulerBack_panic (by simpa [step, hp] using hpanic)
      rw [h.lock_of_pc hp] at hlock
      cases hlock
    · exact schedulerPick_ne_panic (by simpa [step, hp] using hpanic)
  | kill p => exact kill_ne_panic hpanic

/-- No panic: from every reachable state no step panics, so the checks of
acquire, release and sched never fire. -/
theorem sleeplock_no_panic (h : Reachable (sleepSystem n pid) s) (a : Op n) (msg : String) :
    (sleepSystem n pid).step s a ≠ .panic msg :=
  (inv_of_reachable h).step_ne_panic a

/-- After the hand-off of the sleep lock from 0 to 1, no step panics. -/
theorem sleeplock_no_panic_handoff : ∃ s, run (sleepSystem 2 fun p => (p.val : Int) + 1)
    (sleepSystem 2 fun p => (p.val : Int) + 1).init
    [.acquiresleep 0, .next 0, .acquiresleep 1, .next 1, .next 1, .next 1, .scheduler 1,
      .releasesleep 0, .next 0, .next 0, .next 0, .scheduler 1, .next 1, .next 1, .next 1] = .ok s ∧
    ∀ a msg, (sleepSystem 2 fun p => (p.val : Int) + 1).step s a ≠ .panic msg :=
  Exists.imp (fun s hs => ⟨hs, sleeplock_no_panic (reachable_of_run .init _ s hs)⟩) ⟨_, rfl⟩

end Panic

end Xv6.Sleeplock
