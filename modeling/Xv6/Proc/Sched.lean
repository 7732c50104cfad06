import Xv6.Proc.Table

/-
  Xv6/Proc/Sched.lean --- the scheduler and the hand-off through swtch
  (kernel/proc.c: scheduler, sched, yield, forkret, sleep, wakeup, kill,
  exit, allocproc, fork, freeproc).

  Each CPU runs scheduler() in its own loop, and switches to a process with
  swtch; the process switches back from sched().  The per-process lock
  `p->lock` is taken by one CPU and given back by the same CPU on the other
  side of a switch: the scheduler takes it before it switches to `p`, and `p`
  gives it back (in yield, sleep or forkret) once it runs; `p` takes it before
  it switches back (in yield, sleep or exit), and the scheduler gives it back.

  The model is a system of CPUs `κ`, any number of them.  Each step is one
  `p->lock` critical section, run by one CPU, with the lock as part of the
  state: `acquire` waits while another CPU holds the lock and panics if the
  same one does, `release` panics unless this CPU holds it, as in
  spinlock.c.  A CPU is in its scheduler loop about to look at `proc[i]`
  (c->proc = 0), or running process `p` (c->proc = p), either still holding
  `p->lock` from the switch or not, or back in its scheduler right after `p`
  switched to it, still holding `p->lock` (c->proc = p until the next line).
  Where a process resumes is the context its last switch saved: forkret for a
  new process, or the line after sched() in yield, sleep or exit.

  The other locks (wait_lock, the condition lock of sleep) and the interrupt
  bookkeeping of sched (`noff`, `intr_get`) are not modelled; wakeup may be
  called from a process or from an interrupt on a CPU in its scheduler loop.
  kill is given the slot whose pid matched.
-/

set_option autoImplicit false

namespace Xv6.Proc

open Machine

/-! ## The state -/

/-- Where a process resumes when a CPU switches to it: the return address of
its saved context. -/
inductive Ctx where
  | forkret
  | yield
  | sleep
  | exit
  deriving DecidableEq, Repr

/-- The fields of `struct proc` the scheduler and its callers use. -/
structure SchedProc where
  state : ProcState
  chan : Nat
  killed : Bool
  ctx : Ctx
  deriving DecidableEq

/-- Where a CPU is. -/
inductive Cpu where
  /-- in scheduler()'s loop, about to look at `proc[i]`; c->proc = 0 -/
  | scan (i : Fin nProc)
  /-- running process `p`, whose thread still holds `p->lock` from the switch
  while `locked` -/
  | run (p : Fin nProc) (locked : Bool)
  /-- in scheduler() right after `p` switched back, holding `p->lock` -/
  | back (p : Fin nProc)
  deriving DecidableEq

/-- `c->proc`. -/
def Cpu.proc : Cpu → Option (Fin nProc)
  | .scan _ => none
  | .run p _ => some p
  | .back p => some p

/-- The process a CPU executes. -/
def Cpu.running : Cpu → Option (Fin nProc)
  | .run p _ => some p
  | _ => none

/-- The `p->lock` a CPU holds across a switch. -/
def Cpu.holds : Cpu → Option (Fin nProc)
  | .run p true => some p
  | .back p => some p
  | _ => none

/-- The processes, the owner of each `p->lock`, and the CPUs. -/
structure SchedSys (κ : Type) where
  proc : Fin nProc → SchedProc
  lock : Fin nProc → Option κ
  cpu : κ → Cpu

namespace SchedSys

variable {κ : Type}

def setProc (s : SchedSys κ) (p : Fin nProc) (f : SchedProc → SchedProc) : SchedSys κ :=
  { s with proc := Function.update s.proc p (f (s.proc p)) }

def setLock (s : SchedSys κ) (p : Fin nProc) (o : Option κ) : SchedSys κ :=
  { s with lock := Function.update s.lock p o }

@[simp] theorem setProc_proc (s : SchedSys κ) (p : Fin nProc) (f : SchedProc → SchedProc) (q : Fin nProc) :
    (s.setProc p f).proc q = if q = p then f (s.proc p) else s.proc q := by
  simp [setProc, Function.update_apply]

@[simp] theorem setProc_lock (s : SchedSys κ) (p : Fin nProc) (f : SchedProc → SchedProc) :
    (s.setProc p f).lock = s.lock := rfl

@[simp] theorem setProc_cpu (s : SchedSys κ) (p : Fin nProc) (f : SchedProc → SchedProc) :
    (s.setProc p f).cpu = s.cpu := rfl

@[simp] theorem setLock_lock (s : SchedSys κ) (p : Fin nProc) (o : Option κ) (q : Fin nProc) :
    (s.setLock p o).lock q = if q = p then o else s.lock q := by
  simp [setLock, Function.update_apply]

@[simp] theorem setLock_proc (s : SchedSys κ) (p : Fin nProc) (o : Option κ) :
    (s.setLock p o).proc = s.proc := rfl

@[simp] theorem setLock_cpu (s : SchedSys κ) (p : Fin nProc) (o : Option κ) :
    (s.setLock p o).cpu = s.cpu := rfl

/-- Taking a free lock and giving it back leaves it free. -/
theorem setLock_setProc_setLock {s : SchedSys κ} {q : Fin nProc} (hfree : s.lock q = none) (c : κ)
    (f : SchedProc → SchedProc) : ((s.setLock q (some c)).setProc q f).setLock q none = s.setProc q f := by
  cases s with
  | mk proc lock cpu =>
    simp only [setLock, setProc, Function.update_idem, SchedSys.mk.injEq, and_true, true_and]
    exact Function.update_eq_self_iff.2 hfree.symm

theorem setLock_setLock_none {s : SchedSys κ} {q : Fin nProc} (hfree : s.lock q = none) (c : κ) :
    (s.setLock q (some c)).setLock q none = s := by
  cases s with
  | mk proc lock cpu =>
    simp only [setLock, Function.update_idem, SchedSys.mk.injEq, and_true, true_and]
    exact Function.update_eq_self_iff.2 hfree.symm

theorem setProc_setProc (s : SchedSys κ) (p : Fin nProc) (f g : SchedProc → SchedProc) :
    (s.setProc p f).setProc p g = s.setProc p (fun r => g (f r)) := by
  simp only [setProc, Function.update_idem, Function.update_self]

theorem setProc_id (s : SchedSys κ) (p : Fin nProc) : s.setProc p (fun r => r) = s := by
  simp only [setProc, Function.update_eq_self]

variable [DecidableEq κ]

def setCpu (s : SchedSys κ) (c : κ) (x : Cpu) : SchedSys κ :=
  { s with cpu := Function.update s.cpu c x }

@[simp] theorem setCpu_cpu (s : SchedSys κ) (c : κ) (x : Cpu) (d : κ) :
    (s.setCpu c x).cpu d = if d = c then x else s.cpu d := by
  simp [setCpu, Function.update_apply]

@[simp] theorem setCpu_proc (s : SchedSys κ) (c : κ) (x : Cpu) : (s.setCpu c x).proc = s.proc := rfl

@[simp] theorem setCpu_lock (s : SchedSys κ) (c : κ) (x : Cpu) : (s.setCpu c x).lock = s.lock := rfl

end SchedSys

/-! ## proc.c -/

section Code

variable {κ : Type} [DecidableEq κ]

/-- The slot after `i` in scheduler()'s scan, back to `proc[0]` after the
last. -/
def nextSlot (i : Fin nProc) : Fin nProc :=
  ⟨(i.val + 1) % nProc, Nat.mod_lt _ (by decide)⟩

/-- `acquire(&proc[q].lock)` on CPU `c`. -/
def acquire (s : SchedSys κ) (c : κ) (q : Fin nProc) : Result (SchedSys κ) :=
  match s.lock q with
  | none => .ok (s.setLock q (some c))
  | some d => if d = c then .panic "acquire" else .wait

/-- `release(&proc[q].lock)` on CPU `c`. -/
def release (s : SchedSys κ) (c : κ) (q : Fin nProc) : Result (SchedSys κ) :=
  if s.lock q = some c then .ok (s.setLock q none) else .panic "release"

/-- A critical section that changes only `proc[q]`, by `f`. -/
def withLock (s : SchedSys κ) (c : κ) (q : Fin nProc) (f : SchedProc → SchedProc) : Result (SchedSys κ) := do
  let s ← acquire s c q
  release (s.setProc q f) c q

/-- `sched()` on CPU `c` for its process `p`, and the `swtch` to the
scheduler that saves `p`'s context as `ctx`. -/
def sched (s : SchedSys κ) (c : κ) (p : Fin nProc) (ctx : Ctx) : Result (SchedSys κ) :=
  if s.lock p ≠ some c then .panic "sched p->lock"
  else if (s.proc p).state = .running then .panic "sched running"
  else .ok ((s.setProc p fun r => { r with ctx := ctx }).setCpu c (.back p))

/-- The start of yield, sleep and exit: take `p->lock`, change `p` by `f`,
and switch back to the scheduler with `sched`. -/
def switchOut (s : SchedSys κ) (c : κ) (p : Fin nProc) (f : SchedProc → SchedProc) (ctx : Ctx) :
    Result (SchedSys κ) := do
  let s ← acquire s c p
  sched (s.setProc p f) c p ctx

/-- One iteration of scheduler()'s loop on CPU `c` at `proc[i]`: a RUNNABLE
process is switched to, still holding its lock. -/
def schedulerStep (s : SchedSys κ) (c : κ) (i : Fin nProc) : Result (SchedSys κ) := do
  let s ← acquire s c i
  if (s.proc i).state = .runnable then
    pure ((s.setProc i fun r => { r with state := .running }).setCpu c (.run i true))
  else
    let s ← release s c i
    pure (s.setCpu c (.scan (nextSlot i)))

/-- What process `p` does on CPU `c` right after a switch to it, up to its
`release(&p->lock)`: forkret, the end of yield, or sleep's tidy-up.  A context
saved by exit never resumes. -/
def resumeStep (s : SchedSys κ) (c : κ) (p : Fin nProc) : Result (SchedSys κ) :=
  match (s.proc p).ctx with
  | .exit => .panic "zombie exit"
  | .sleep => do
    let s ← release (s.setProc p fun r => { r with chan := 0 }) c p
    pure (s.setCpu c (.run p false))
  | _ => do
    let s ← release s c p
    pure (s.setCpu c (.run p false))

/-- scheduler() after `p` switched back: `c->proc = 0`, release `p->lock`,
and on to the next slot. -/
def backStep (s : SchedSys κ) (c : κ) (p : Fin nProc) : Result (SchedSys κ) :=
  release (s.setCpu c (.scan (nextSlot p))) c p

/-- `yield()`. -/
def yieldStep (s : SchedSys κ) (c : κ) (p : Fin nProc) : Result (SchedSys κ) :=
  switchOut s c p (fun r => { r with state := .runnable }) .yield

/-- `sleep(chan, lk)` up to the switch. -/
def sleepStep (s : SchedSys κ) (c : κ) (p : Fin nProc) (chan : Nat) : Result (SchedSys κ) :=
  switchOut s c p (fun r => { r with chan := chan, state := .sleeping }) .sleep

/-- The end of `exit()`: `p->state = ZOMBIE; sched();`. -/
def exitStep (s : SchedSys κ) (c : κ) (p : Fin nProc) : Result (SchedSys κ) :=
  switchOut s c p (fun r => { r with state := .zombie }) .exit

/-- `wakeup(chan)` at `proc[q]`, called by `me` (c->proc). -/
def wakeupStep (s : SchedSys κ) (c : κ) (me : Option (Fin nProc)) (q : Fin nProc) (chan : Nat) :
    Result (SchedSys κ) :=
  if me = some q then .ok s
  else withLock s c q fun r => if r.state = .sleeping ∧ r.chan = chan then { r with state := .runnable } else r

/-- `kill(pid)` at the slot `q` whose pid matched. -/
def killStep (s : SchedSys κ) (c : κ) (q : Fin nProc) : Result (SchedSys κ) :=
  withLock s c q fun r => { r with killed := true, state := if r.state = .sleeping then .runnable else r.state }

/-- allocproc at `proc[q]`: an UNUSED slot becomes USED, with a context that
returns to forkret. -/
def allocStep (s : SchedSys κ) (c : κ) (q : Fin nProc) : Result (SchedSys κ) :=
  withLock s c q fun r => if r.state = .unused then { r with state := .used, ctx := .forkret } else r

/-- The end of fork: `np->state = RUNNABLE` for the child `q` allocproc
made. -/
def forkStep (s : SchedSys κ) (c : κ) (q : Fin nProc) : Result (SchedSys κ) :=
  if (s.proc q).state = .used then withLock s c q fun r => { r with state := .runnable }
  else .wait

/-- wait's `freeproc` of a ZOMBIE child `q`. -/
def freeStep (s : SchedSys κ) (c : κ) (q : Fin nProc) : Result (SchedSys κ) :=
  withLock s c q fun r =>
    if r.state = .zombie then { r with state := .unused, chan := 0, killed := false } else r

/-- A step of one CPU. -/
inductive SchedOp (κ : Type) where
  | scheduler (c : κ)
  | resume (c : κ)
  | back (c : κ)
  | yield (c : κ)
  | sleep (c : κ) (chan : Nat)
  | exit (c : κ)
  | wakeup (c : κ) (q : Fin nProc) (chan : Nat)
  | kill (c : κ) (q : Fin nProc)
  | alloc (c : κ) (q : Fin nProc)
  | fork (c : κ) (q : Fin nProc)
  | free (c : κ) (q : Fin nProc)

/-- The effect of a step: each is enabled where its CPU is at the code it
runs.  A process makes its calls while it runs without `p->lock`. -/
def schedStep (s : SchedSys κ) : SchedOp κ → Result (SchedSys κ)
  | .scheduler c => match s.cpu c with
    | .scan i => schedulerStep s c i
    | _ => .wait
  | .resume c => match s.cpu c with
    | .run p true => resumeStep s c p
    | _ => .wait
  | .back c => match s.cpu c with
    | .back p => backStep s c p
    | _ => .wait
  | .yield c => match s.cpu c with
    | .run p false => yieldStep s c p
    | _ => .wait
  | .sleep c chan => match s.cpu c with
    | .run p false => sleepStep s c p chan
    | _ => .wait
  | .exit c => match s.cpu c with
    | .run p false => exitStep s c p
    | _ => .wait
  | .wakeup c q chan => match s.cpu c with
    | .run p false => wakeupStep s c (some p) q chan
    | .scan _ => wakeupStep s c none q chan
    | _ => .wait
  | .kill c q => match s.cpu c with
    | .run _ false => killStep s c q
    | _ => .wait
  | .alloc c q => match s.cpu c with
    | .run _ false => allocStep s c q
    | _ => .wait
  | .fork c q => match s.cpu c with
    | .run _ false => forkStep s c q
    | _ => .wait
  | .free c q => match s.cpu c with
    | .run _ false => freeStep s c q
    | _ => .wait

/-- After `userinit`: `proc[0]` is RUNNABLE with a context that returns to
forkret, every other slot is UNUSED, no lock is held, and every CPU starts its
scheduler loop at `proc[0]`. -/
def schedInit : SchedSys κ :=
  { proc := fun p => { state := if p = 0 then .runnable else .unused, chan := 0, killed := false, ctx := .forkret }
    lock := fun _ => none
    cpu := fun _ => .scan 0 }

def schedSystem (κ : Type) [DecidableEq κ] : System (SchedSys κ) (SchedOp κ) :=
  { init := schedInit, step := schedStep }

end Code

/-! ## Locks and critical sections -/

section Sections

variable {κ : Type} [DecidableEq κ] {s s' : SchedSys κ} {c : κ}

theorem acquire_eq_ok {q : Fin nProc} : acquire s c q = .ok s' ↔ s.lock q = none ∧ s' = s.setLock q (some c) := by
  unfold acquire
  split
  · next h => simp [h, eq_comm]
  · next d h =>
    split <;> simp [h]

theorem acquire_eq_panic {q : Fin nProc} {msg : String} (h : acquire s c q = .panic msg) : s.lock q = some c := by
  unfold acquire at h
  split at h
  · cases h
  · next d hd =>
    split at h
    · next hdc => rw [hd, hdc]
    · cases h

theorem release_eq_ok {q : Fin nProc} : release s c q = .ok s' ↔ s.lock q = some c ∧ s' = s.setLock q none := by
  unfold release
  split
  · next h => simp [h, eq_comm]
  · next h => simp [h]

theorem release_eq_panic {q : Fin nProc} {msg : String} (h : release s c q = .panic msg) : s.lock q ≠ some c := by
  unfold release at h
  split at h
  · cases h
  · assumption

/-- A critical section on `proc[q]` that completes found the lock free and
leaves it free. -/
theorem withLock_eq_ok {q : Fin nProc} {f : SchedProc → SchedProc} (h : withLock s c q f = .ok s') :
    s.lock q = none ∧ s' = s.setProc q f := by
  obtain ⟨s₁, h₁, h₂⟩ := Result.bind_eq_ok.1 h
  obtain ⟨hfree, rfl⟩ := acquire_eq_ok.1 h₁
  obtain ⟨-, rfl⟩ := release_eq_ok.1 h₂
  exact ⟨hfree, SchedSys.setLock_setProc_setLock hfree c f⟩

theorem withLock_eq_panic {q : Fin nProc} {f : SchedProc → SchedProc} {msg : String}
    (h : withLock s c q f = .panic msg) : s.lock q = some c := by
  rcases Result.bind_eq_panic.1 h with h | ⟨s₁, h₁, h₂⟩
  · exact acquire_eq_panic h
  · obtain ⟨-, rfl⟩ := acquire_eq_ok.1 h₁
    exact absurd (by simp) (release_eq_panic h₂)

/-- A switch back to the scheduler took the free `p->lock`, left `p` not
RUNNING, and left the CPU in its scheduler holding the lock. -/
theorem switchOut_eq_ok {p : Fin nProc} {f : SchedProc → SchedProc} {ctx : Ctx}
    (h : switchOut s c p f ctx = .ok s') :
    s.lock p = none ∧ (f (s.proc p)).state ≠ .running ∧
      s' = ((s.setLock p (some c)).setProc p fun r => { f r with ctx := ctx }).setCpu c (.back p) := by
  obtain ⟨s₁, h₁, h₂⟩ := Result.bind_eq_ok.1 h
  obtain ⟨hfree, rfl⟩ := acquire_eq_ok.1 h₁
  unfold sched at h₂
  split_ifs at h₂ with hl hr
  cases h₂
  refine ⟨hfree, by simpa using hr, ?_⟩
  rw [SchedSys.setProc_setProc]

/-- sched() panics only when the lock was held by this CPU already or the
change left the process RUNNING. -/
theorem switchOut_eq_panic {p : Fin nProc} {f : SchedProc → SchedProc} {ctx : Ctx} {msg : String}
    (h : switchOut s c p f ctx = .panic msg) : s.lock p = some c ∨ (f (s.proc p)).state = .running := by
  rcases Result.bind_eq_panic.1 h with h | ⟨s₁, h₁, h₂⟩
  · exact .inl (acquire_eq_panic h)
  · obtain ⟨-, rfl⟩ := acquire_eq_ok.1 h₁
    unfold sched at h₂
    split_ifs at h₂ with hl hr
    · exact absurd (by simp) hl
    · exact .inr (by simpa using hr)

end Sections

/-! ## What a step can do -/

/-- A context saved by exit belongs to a ZOMBIE or to a freed slot. -/
def ExitOk (r : SchedProc) : Prop :=
  r.ctx = .exit → r.state = .zombie ∨ r.state = .unused

/-- A change to a process under its lock, from `r`, that neither makes it
RUNNING nor stops it running, and keeps `ExitOk`. -/
structure Benign (f : SchedProc → SchedProc) (r : SchedProc) : Prop where
  running : (f r).state = .running ↔ r.state = .running
  exitOk : ExitOk r → ExitOk (f r)

section Inversion

variable {κ : Type} [DecidableEq κ] {s s' : SchedSys κ}

theorem benign_wakeup (chan : Nat) (r : SchedProc) :
    Benign (fun r => if r.state = .sleeping ∧ r.chan = chan then { r with state := .runnable } else r) r := by
  constructor <;> split_ifs with h <;> simp_all [ExitOk]

theorem benign_kill (r : SchedProc) :
    Benign (fun r => { r with killed := true, state := if r.state = .sleeping then .runnable else r.state }) r := by
  constructor <;> split_ifs with h <;> simp_all [ExitOk]

theorem benign_alloc (r : SchedProc) :
    Benign (fun r => if r.state = .unused then { r with state := .used, ctx := .forkret } else r) r := by
  constructor <;> split_ifs with h <;> simp_all [ExitOk]

theorem benign_fork {r : SchedProc} (h : r.state = .used) : Benign (fun r => { r with state := .runnable }) r := by
  constructor <;> simp_all [ExitOk]

theorem benign_free (r : SchedProc) :
    Benign (fun r => if r.state = .zombie then { r with state := .unused, chan := 0, killed := false } else r) r := by
  constructor <;> split_ifs with h <;> simp_all [ExitOk]

/-- An iteration of the scheduler's loop found `proc[i]`'s lock free, and
switched to it if it was RUNNABLE. -/
theorem schedulerStep_eq_ok {c : κ} {i : Fin nProc} (h : schedulerStep s c i = .ok s') :
    s.lock i = none ∧
      ((s.proc i).state = .runnable ∧
          s' = ((s.setLock i (some c)).setProc i fun r => { r with state := .running }).setCpu c (.run i true) ∨
        s' = s.setCpu c (.scan (nextSlot i))) := by
  obtain ⟨s₁, h₁, h₂⟩ := Result.bind_eq_ok.1 h
  obtain ⟨hfree, rfl⟩ := acquire_eq_ok.1 h₁
  refine ⟨hfree, ?_⟩
  split at h₂
  · next hr => exact .inl ⟨by simpa using hr, (Result.pure_eq_ok.1 h₂).symm⟩
  · obtain ⟨s₂, h₃, h₄⟩ := Result.bind_eq_ok.1 h₂
    obtain ⟨-, rfl⟩ := release_eq_ok.1 h₃
    rw [SchedSys.setLock_setLock_none hfree] at h₄
    exact .inr (Result.pure_eq_ok.1 h₄).symm

/-- A process that was switched to gives its lock back, changing nothing of
its state or context. -/
theorem resumeStep_eq_ok {c : κ} {p : Fin nProc} (h : resumeStep s c p = .ok s') :
    s.lock p = some c ∧ ∃ g : SchedProc → SchedProc, (∀ r, (g r).state = r.state ∧ (g r).ctx = r.ctx) ∧
      s' = ((s.setProc p g).setLock p none).setCpu c (.run p false) := by
  -- forkret and the end of yield only give the lock back
  have hplain : (do let s ← release s c p; pure (s.setCpu c (.run p false))) = Result.ok s' →
      s.lock p = some c ∧ ∃ g : SchedProc → SchedProc, (∀ r, (g r).state = r.state ∧ (g r).ctx = r.ctx) ∧
        s' = ((s.setProc p g).setLock p none).setCpu c (.run p false) := by
    intro h
    obtain ⟨s₁, h₁, h₂⟩ := Result.bind_eq_ok.1 h
    obtain ⟨hl, rfl⟩ := release_eq_ok.1 h₁
    refine ⟨hl, fun r => r, fun r => ⟨rfl, rfl⟩, ?_⟩
    rw [SchedSys.setProc_id]
    exact (Result.pure_eq_ok.1 h₂).symm
  unfold resumeStep at h
  cases hctx : (s.proc p).ctx with
  | forkret =>
    rw [hctx] at h
    exact hplain h
  | yield =>
    rw [hctx] at h
    exact hplain h
  | sleep =>
    -- sleep's tidy-up clears the channel
    rw [hctx] at h
    obtain ⟨s₁, h₁, h₂⟩ := Result.bind_eq_ok.1 h
    obtain ⟨hl, rfl⟩ := release_eq_ok.1 h₁
    exact ⟨by simpa using hl, fun r => { r with chan := 0 }, fun r => ⟨rfl, rfl⟩, (Result.pure_eq_ok.1 h₂).symm⟩
  | exit =>
    rw [hctx] at h
    cases h

theorem backStep_eq_ok {c : κ} {p : Fin nProc} (h : backStep s c p = .ok s') :
    s.lock p = some c ∧ s' = (s.setCpu c (.scan (nextSlot p))).setLock p none := by
  obtain ⟨hl, rfl⟩ := release_eq_ok.1 h
  exact ⟨by simpa using hl, rfl⟩

/-- What a step can do: switch a CPU to a RUNNABLE process or move its scan
on, let a process that was switched to give its lock back, let the scheduler
give back the lock of a process that switched out, switch a process out, or
run a critical section on a lock it holds no other. -/
theorem schedStep_eq_ok {op : SchedOp κ} (h : schedStep s op = .ok s') :
    (∃ c i, s.cpu c = .scan i ∧ s.lock i = none ∧ (s.proc i).state = .runnable ∧
      s' = ((s.setLock i (some c)).setProc i fun r => { r with state := .running }).setCpu c (.run i true)) ∨
    (∃ c i, s.cpu c = .scan i ∧ s' = s.setCpu c (.scan (nextSlot i))) ∨
    (∃ (c : κ) (p : Fin nProc) (g : SchedProc → SchedProc), s.cpu c = .run p true ∧ s.lock p = some c ∧
      (∀ r, (g r).state = r.state ∧ (g r).ctx = r.ctx) ∧
      s' = ((s.setProc p g).setLock p none).setCpu c (.run p false)) ∨
    (∃ c p, s.cpu c = .back p ∧ s.lock p = some c ∧ s' = (s.setCpu c (.scan (nextSlot p))).setLock p none) ∨
    (∃ (c : κ) (p : Fin nProc) (f : SchedProc → SchedProc) (ctx : Ctx),
      s.cpu c = .run p false ∧ s.lock p = none ∧ (f (s.proc p)).state ≠ .running ∧
      (ctx = .exit → (f (s.proc p)).state = .zombie) ∧
      s' = ((s.setLock p (some c)).setProc p fun r => { f r with ctx := ctx }).setCpu c (.back p)) ∨
    (∃ (c : κ) (q : Fin nProc) (f : SchedProc → SchedProc),
      (s.cpu c).holds = none ∧ s.lock q = none ∧ Benign f (s.proc q) ∧ s' = s.setProc q f) ∨
    s' = s := by
  cases op with
  | scheduler c =>
    simp only [schedStep] at h
    split at h
    · next i hc =>
      obtain ⟨-, ⟨hr, rfl⟩ | rfl⟩ := schedulerStep_eq_ok h
      · obtain ⟨hfree, -⟩ := schedulerStep_eq_ok h
        exact .inl ⟨c, i, hc, hfree, hr, rfl⟩
      · exact .inr (.inl ⟨c, i, hc, rfl⟩)
    all_goals cases h
  | resume c =>
    simp only [schedStep] at h
    split at h
    · next p hc =>
      obtain ⟨hl, g, hg, rfl⟩ := resumeStep_eq_ok h
      exact .inr (.inr (.inl ⟨c, p, g, hc, hl, hg, rfl⟩))
    all_goals cases h
  | back c =>
    simp only [schedStep] at h
    split at h
    · next p hc =>
      obtain ⟨hl, rfl⟩ := backStep_eq_ok h
      exact .inr (.inr (.inr (.inl ⟨c, p, hc, hl, rfl⟩)))
    all_goals cases h
  | yield c =>
    simp only [schedStep] at h
    split at h
    · next p hc =>
      obtain ⟨hfree, hr, rfl⟩ := switchOut_eq_ok h
      exact .inr (.inr (.inr (.inr (.inl ⟨c, p, fun r => { r with state := .runnable }, .yield, hc, hfree, hr,
        (fun h => by cases h), rfl⟩))))
    all_goals cases h
  | sleep c chan =>
    simp only [schedStep] at h
    split at h
    · next p hc =>
      obtain ⟨hfree, hr, rfl⟩ := switchOut_eq_ok h
      exact .inr (.inr (.inr (.inr (.inl ⟨c, p, fun r => { r with chan := chan, state := .sleeping }, .sleep, hc,
        hfree, hr, (fun h => by cases h), rfl⟩))))
    all_goals cases h
  | exit c =>
    simp only [schedStep] at h
    split at h
    · next p hc =>
      obtain ⟨hfree, hr, rfl⟩ := switchOut_eq_ok h
      exact .inr (.inr (.inr (.inr (.inl ⟨c, p, fun r => { r with state := .zombie }, .exit, hc, hfree, hr,
        fun _ => rfl, rfl⟩))))
    all_goals cases h
  | wakeup c q chan =>
    simp only [schedStep] at h
    -- from a process, which skips itself, or from an interrupt in the scheduler loop
    split at h
    · next p hc =>
      unfold wakeupStep at h
      split at h
      · cases h
        exact .inr (.inr (.inr (.inr (.inr (.inr rfl)))))
      · obtain ⟨hfree, rfl⟩ := withLock_eq_ok h
        exact .inr (.inr (.inr (.inr (.inr (.inl ⟨c, q, _, by simp [hc, Cpu.holds], hfree, benign_wakeup chan _, rfl⟩)))))
    · next i hc =>
      unfold wakeupStep at h
      rw [if_neg (by simp)] at h
      obtain ⟨hfree, rfl⟩ := withLock_eq_ok h
      exact .inr (.inr (.inr (.inr (.inr (.inl ⟨c, q, _, by simp [hc, Cpu.holds], hfree, benign_wakeup chan _, rfl⟩)))))
    all_goals cases h
  | kill c q =>
    simp only [schedStep] at h
    split at h
    · next p hc =>
      obtain ⟨hfree, rfl⟩ := withLock_eq_ok h
      exact .inr (.inr (.inr (.inr (.inr (.inl ⟨c, q, _, by simp [hc, Cpu.holds], hfree, benign_kill _, rfl⟩)))))
    all_goals cases h
  | alloc c q =>
    simp only [schedStep] at h
    split at h
    · next p hc =>
      obtain ⟨hfree, rfl⟩ := withLock_eq_ok h
      exact .inr (.inr (.inr (.inr (.inr (.inl ⟨c, q, _, by simp [hc, Cpu.holds], hfree, benign_alloc _, rfl⟩)))))
    all_goals cases h
  | fork c q =>
    simp only [schedStep] at h
    split at h
    · next p hc =>
      unfold forkStep at h
      split at h
      · next hused =>
        obtain ⟨hfree, rfl⟩ := withLock_eq_ok h
        exact .inr (.inr (.inr (.inr (.inr (.inl ⟨c, q, _, by simp [hc, Cpu.holds], hfree, benign_fork hused, rfl⟩)))))
      · cases h
    all_goals cases h
  | free c q =>
    simp only [schedStep] at h
    split at h
    · next p hc =>
      obtain ⟨hfree, rfl⟩ := withLock_eq_ok h
      exact .inr (.inr (.inr (.inr (.inr (.inl ⟨c, q, _, by simp [hc, Cpu.holds], hfree, benign_free _, rfl⟩)))))
    all_goals cases h

end Inversion


theorem Cpu.proc_of_running {x : Cpu} {p : Fin nProc} (h : x.running = some p) : x.proc = some p := by
  cases x <;> simp_all [Cpu.running, Cpu.proc]

/-- `c->proc` is set while a CPU executes a process or is back from it. -/
theorem Cpu.proc_eq_some {x : Cpu} {p : Fin nProc} (h : x.proc = some p) : x.running = some p ∨ x.holds = some p := by
  cases x <;> simp_all [Cpu.running, Cpu.holds, Cpu.proc]

section Inv

variable {κ : Type}

/-- The scheduler invariant. -/
structure SchedInv (s : SchedSys κ) : Prop where
  /-- `p->lock` is held exactly by the CPU that is on either side of a switch
  with `p` -/
  lock_iff : ∀ p c, s.lock p = some c ↔ (s.cpu c).holds = some p
  /-- a process is RUNNING exactly while a CPU executes it -/
  running_iff : ∀ p, (s.proc p).state = .running ↔ ∃ c, (s.cpu c).running = some p
  /-- one CPU at most has `c->proc = p` -/
  excl : ∀ p c d, (s.cpu c).proc = some p → (s.cpu d).proc = some p → c = d
  exitOk : ∀ p, ExitOk (s.proc p)

namespace SchedInv

variable {s : SchedSys κ} {c : κ}

/-- A CPU with `c->proc = p` executes `p`, which is then RUNNING, or holds
`p->lock`. -/
theorem proc_some (h : SchedInv s) {d : κ} {p : Fin nProc} (hd : (s.cpu d).proc = some p) :
    (s.proc p).state = .running ∨ s.lock p = some d := by
  rcases Cpu.proc_eq_some hd with hr | hl
  · exact .inl ((h.running_iff p).2 ⟨d, hr⟩)
  · exact .inr ((h.lock_iff p d).2 hl)

/-- A critical section on a free lock that neither starts nor stops a process
running. -/
theorem critical (h : SchedInv s) {q : Fin nProc} {f : SchedProc → SchedProc} (hf : Benign f (s.proc q)) :
    SchedInv (s.setProc q f) := by
  obtain ⟨hl, hrun, hex, hexit⟩ := h
  refine ⟨hl, fun p => ?_, hex, fun p => ?_⟩
  · simp only [SchedSys.setProc_proc, SchedSys.setProc_cpu]
    by_cases hp : p = q
    · rw [if_pos hp, hf.running, hp]
      exact hrun q
    · rw [if_neg hp]
      exact hrun p
  · simp only [SchedSys.setProc_proc]
    by_cases hp : p = q
    · rw [if_pos hp]
      exact hf.exitOk (hexit q)
    · rw [if_neg hp]
      exact hexit p

/-- A CPU that holds no lock across a switch does not hold `proc[q]`'s. -/
theorem lock_ne_of_holds_none (h : SchedInv s) (hc : (s.cpu c).holds = none) (q : Fin nProc) :
    s.lock q ≠ some c := fun hl => by
  rw [(h.lock_iff q c).1 hl] at hc
  cases hc

variable [DecidableEq κ]

/-- Putting CPU `c` at `x` keeps one CPU at most per process, when no other
CPU has `x`'s process. -/
theorem excl_setCpu (h : SchedInv s) (x : Cpu) (hx : ∀ p, x.proc = some p → ∀ d, d ≠ c → (s.cpu d).proc ≠ some p) :
    ∀ p d e, ((s.setCpu c x).cpu d).proc = some p → ((s.setCpu c x).cpu e).proc = some p → d = e := by
  intro p d e hd he
  simp only [SchedSys.setCpu_cpu] at hd he
  by_cases hdc : d = c <;> by_cases hec : e = c
  · rw [hdc, hec]
  · rw [if_pos hdc] at hd
    rw [if_neg hec] at he
    exact absurd he (hx p hd e hec)
  · rw [if_neg hdc] at hd
    rw [if_pos hec] at he
    exact absurd hd (hx p he d hdc)
  · rw [if_neg hdc] at hd
    rw [if_neg hec] at he
    exact h.excl p d e hd he

/-- The scheduler switches CPU `c` to the RUNNABLE `proc[i]`, holding its
lock. -/
theorem pick (h : SchedInv s) {i : Fin nProc} (hc : s.cpu c = .scan i) (hfree : s.lock i = none)
    (hr : (s.proc i).state = .runnable) :
    SchedInv (((s.setLock i (some c)).setProc i fun r => { r with state := .running }).setCpu c (.run i true)) := by
  -- no other CPU has `proc[i]`: it is not RUNNING and its lock is free
  have hother : ∀ d, (s.cpu d).proc ≠ some i := fun d hd =>
    (h.proc_some hd).elim (fun hrun => by rw [hr] at hrun; cases hrun) (fun hl => by rw [hfree] at hl; cases hl)
  obtain ⟨hl, hrun, hex, hexit⟩ := h
  refine ⟨fun p d => ?_, fun p => ?_, ?_, fun p => ?_⟩
  · simp only [SchedSys.setCpu_cpu, SchedSys.setCpu_lock, SchedSys.setProc_lock, SchedSys.setLock_lock,
      SchedSys.setProc_cpu, SchedSys.setLock_cpu]
    grind [Cpu.holds]
  · simp only [SchedSys.setCpu_cpu, SchedSys.setCpu_proc, SchedSys.setProc_proc, SchedSys.setLock_proc,
      SchedSys.setProc_cpu, SchedSys.setLock_cpu]
    grind [Cpu.running]
  · exact excl_setCpu ⟨hl, hrun, hex, hexit⟩ _ fun p hp d _ => by
      simp only [Cpu.proc, Option.some.injEq] at hp
      subst hp
      exact hother d
  · simp only [SchedSys.setCpu_proc, SchedSys.setProc_proc, SchedSys.setLock_proc]
    grind [ExitOk]

/-- The scheduler's scan moves on. -/
theorem skip (h : SchedInv s) {i : Fin nProc} (hc : s.cpu c = .scan i) (j : Fin nProc) :
    SchedInv (s.setCpu c (.scan j)) := by
  obtain ⟨hl, hrun, hex, hexit⟩ := h
  refine ⟨fun p d => ?_, fun p => ?_, ?_, hexit⟩
  · simp only [SchedSys.setCpu_cpu, SchedSys.setCpu_lock]
    grind [Cpu.holds]
  · simp only [SchedSys.setCpu_cpu, SchedSys.setCpu_proc]
    grind [Cpu.running]
  · exact excl_setCpu ⟨hl, hrun, hex, hexit⟩ _ fun p hp => by cases hp

/-- A process that was switched to gives its lock back and runs on. -/
theorem resume (h : SchedInv s) {p : Fin nProc} (hc : s.cpu c = .run p true) {g : SchedProc → SchedProc}
    (hg : ∀ r, (g r).state = r.state ∧ (g r).ctx = r.ctx) :
    SchedInv (((s.setProc p g).setLock p none).setCpu c (.run p false)) := by
  have hlc : s.lock p = some c := (h.lock_iff p c).2 (by simp [hc, Cpu.holds])
  obtain ⟨hl, hrun, hex, hexit⟩ := h
  refine ⟨fun q d => ?_, fun q => ?_, ?_, fun q => ?_⟩
  · simp only [SchedSys.setCpu_cpu, SchedSys.setCpu_lock, SchedSys.setProc_lock, SchedSys.setLock_lock,
      SchedSys.setProc_cpu, SchedSys.setLock_cpu]
    grind [Cpu.holds]
  · simp only [SchedSys.setCpu_cpu, SchedSys.setCpu_proc, SchedSys.setProc_proc, SchedSys.setLock_proc,
      SchedSys.setProc_cpu, SchedSys.setLock_cpu]
    grind [Cpu.running]
  · -- `c` keeps `p`, which no other CPU has
    refine excl_setCpu ⟨hl, hrun, hex, hexit⟩ _ fun q hq d hd hdq => hd ?_
    simp only [Cpu.proc, Option.some.injEq] at hq
    subst hq
    exact hex _ d c hdq (by simp [hc, Cpu.proc])
  · simp only [SchedSys.setCpu_proc, SchedSys.setProc_proc, SchedSys.setLock_proc]
    grind [ExitOk]

/-- The scheduler gives back the lock of the process that switched out, and
moves on. -/
theorem back (h : SchedInv s) {p : Fin nProc} (hc : s.cpu c = .back p) (j : Fin nProc) :
    SchedInv ((s.setCpu c (.scan j)).setLock p none) := by
  have hlc : s.lock p = some c := (h.lock_iff p c).2 (by simp [hc, Cpu.holds])
  obtain ⟨hl, hrun, hex, hexit⟩ := h
  refine ⟨fun q d => ?_, fun q => ?_, ?_, hexit⟩
  · simp only [SchedSys.setCpu_cpu, SchedSys.setCpu_lock, SchedSys.setLock_lock, SchedSys.setLock_cpu]
    grind [Cpu.holds]
  · simp only [SchedSys.setCpu_cpu, SchedSys.setCpu_proc, SchedSys.setLock_proc, SchedSys.setLock_cpu]
    grind [Cpu.running]
  · simp only [SchedSys.setLock_cpu]
    exact excl_setCpu ⟨hl, hrun, hex, hexit⟩ _ fun q hq => by cases hq

/-- yield, sleep or exit takes the free `p->lock`, leaves `p` not RUNNING,
and switches CPU `c` back to its scheduler. -/
theorem switchOut (h : SchedInv s) {p : Fin nProc} (hc : s.cpu c = .run p false) (hfree : s.lock p = none)
    {f : SchedProc → SchedProc} {ctx : Ctx} (hr : (f (s.proc p)).state ≠ .running)
    (hctx : ctx = .exit → (f (s.proc p)).state = .zombie) :
    SchedInv (((s.setLock p (some c)).setProc p fun r => { f r with ctx := ctx }).setCpu c (.back p)) := by
  obtain ⟨hl, hrun, hex, hexit⟩ := h
  refine ⟨fun q d => ?_, fun q => ?_, ?_, fun q => ?_⟩
  · simp only [SchedSys.setCpu_cpu, SchedSys.setCpu_lock, SchedSys.setProc_lock, SchedSys.setLock_lock,
      SchedSys.setProc_cpu, SchedSys.setLock_cpu]
    grind [Cpu.holds]
  · simp only [SchedSys.setCpu_cpu, SchedSys.setCpu_proc, SchedSys.setProc_proc, SchedSys.setLock_proc,
      SchedSys.setProc_cpu, SchedSys.setLock_cpu]
    -- no other CPU executes `p`: `c` alone has it
    have hnot : ∀ d, d ≠ c → (s.cpu d).running ≠ some p := fun d hd hdp =>
      hd (hex p d c (Cpu.proc_of_running hdp) (by simp [hc, Cpu.proc]))
    grind [Cpu.running]
  · refine excl_setCpu ⟨hl, hrun, hex, hexit⟩ _ fun q hq d hd hdq => hd ?_
    simp only [Cpu.proc, Option.some.injEq] at hq
    subst hq
    exact hex _ d c (by simpa using hdq) (by simp [hc, Cpu.proc])
  · simp only [SchedSys.setCpu_proc, SchedSys.setProc_proc, SchedSys.setLock_proc]
    grind [ExitOk]

/-- Every step keeps the invariant. -/
theorem step (h : SchedInv s) {op : SchedOp κ} {s' : SchedSys κ} (hs : schedStep s op = .ok s') : SchedInv s' := by
  rcases schedStep_eq_ok hs with ⟨c, i, hc, hfree, hr, rfl⟩ | ⟨c, i, hc, rfl⟩ | ⟨c, p, g, hc, -, hg, rfl⟩ |
      ⟨c, p, hc, -, rfl⟩ | ⟨c, p, f, ctx, hc, hfree, hr, hctx, rfl⟩ | ⟨c, q, f, -, -, hf, rfl⟩ | rfl
  · exact h.pick hc hfree hr
  · exact h.skip hc _
  · exact h.resume hc hg
  · exact h.back hc _
  · exact h.switchOut hc hfree hr hctx
  · exact h.critical hf
  · exact h

end SchedInv

theorem schedInv_init [DecidableEq κ] : SchedInv (schedSystem κ).init := by
  refine ⟨fun p c => ?_, fun p => ?_, fun p c d hc => ?_, fun p => ?_⟩
  · simp [schedSystem, schedInit, Cpu.holds]
  · by_cases hp : p = 0 <;> simp [schedSystem, schedInit, Cpu.running, hp]
  · simp [schedSystem, schedInit, Cpu.proc] at hc
  · simp [schedSystem, schedInit, ExitOk]

theorem schedInv_of_reachable [DecidableEq κ] {s : SchedSys κ} (h : Reachable (schedSystem κ) s) : SchedInv s :=
  Reachable.rec_inv SchedInv schedInv_init (fun _ _ _ hs hstep => hs.step hstep) h

end Inv

/-! ## No step panics -/

section Panics

variable {κ : Type} [DecidableEq κ] {s : SchedSys κ} {c : κ} {msg : String}

theorem schedulerStep_eq_panic {i : Fin nProc} (h : schedulerStep s c i = .panic msg) : s.lock i = some c := by
  rcases Result.bind_eq_panic.1 h with h | ⟨s₁, h₁, h₂⟩
  · exact acquire_eq_panic h
  · obtain ⟨-, rfl⟩ := acquire_eq_ok.1 h₁
    -- after the acquire the lock is this CPU's, so the release cannot panic
    split at h₂
    · cases h₂
    · rcases Result.bind_eq_panic.1 h₂ with h₃ | ⟨s₂, -, h₄⟩
      · exact absurd (by simp) (release_eq_panic h₃)
      · cases h₄

theorem resumeStep_eq_panic {p : Fin nProc} (h : resumeStep s c p = .panic msg) :
    (s.proc p).ctx = .exit ∨ s.lock p ≠ some c := by
  unfold resumeStep at h
  split at h
  · next hctx => exact .inl hctx
  all_goals
    rcases Result.bind_eq_panic.1 h with h | ⟨s₁, -, h₂⟩
    · exact .inr (by simpa using release_eq_panic h)
    · cases h₂

/-- No step of the scheduler system panics in a state of the invariant:
sched() always finds `p->lock` held by its CPU and `p` not RUNNING, acquire
never finds its own CPU holding the lock, release always does, and a
context saved by exit is never switched to. -/
theorem schedStep_ne_panic (h : SchedInv s) (op : SchedOp κ) : schedStep s op ≠ .panic msg := by
  intro hp
  cases op with
  | scheduler c =>
    simp only [schedStep] at hp
    split at hp
    · next i hc => exact h.lock_ne_of_holds_none (by simp [hc, Cpu.holds]) i (schedulerStep_eq_panic hp)
    all_goals cases hp
  | resume c =>
    simp only [schedStep] at hp
    split at hp
    · next p hc =>
      have hl : s.lock p = some c := (h.lock_iff p c).2 (by simp [hc, Cpu.holds])
      have hrun : (s.proc p).state = .running := (h.running_iff p).2 ⟨c, by simp [hc, Cpu.running]⟩
      rcases resumeStep_eq_panic hp with hctx | hne
      · rcases h.exitOk p hctx with hz | hu
        · rw [hrun] at hz
          cases hz
        · rw [hrun] at hu
          cases hu
      · exact hne hl
    all_goals cases hp
  | back c =>
    simp only [schedStep] at hp
    split at hp
    · next p hc =>
      have hl : s.lock p = some c := (h.lock_iff p c).2 (by simp [hc, Cpu.holds])
      exact release_eq_panic hp (by simpa using hl)
    all_goals cases hp
  | yield c =>
    simp only [schedStep] at hp
    split at hp
    · next p hc =>
      rcases switchOut_eq_panic hp with hl | hr
      · exact h.lock_ne_of_holds_none (by simp [hc, Cpu.holds]) p hl
      · cases hr
    all_goals cases hp
  | sleep c chan =>
    simp only [schedStep] at hp
    split at hp
    · next p hc =>
      rcases switchOut_eq_panic hp with hl | hr
      · exact h.lock_ne_of_holds_none (by simp [hc, Cpu.holds]) p hl
      · cases hr
    all_goals cases hp
  | exit c =>
    simp only [schedStep] at hp
    split at hp
    · next p hc =>
      rcases switchOut_eq_panic hp with hl | hr
      · exact h.lock_ne_of_holds_none (by simp [hc, Cpu.holds]) p hl
      · cases hr
    all_goals cases hp
  | wakeup c q chan =>
    simp only [schedStep] at hp
    split at hp
    · next p hc =>
      unfold wakeupStep at hp
      split at hp
      · cases hp
      · exact h.lock_ne_of_holds_none (by simp [hc, Cpu.holds]) q (withLock_eq_panic hp)
    · next i hc =>
      unfold wakeupStep at hp
      rw [if_neg (by simp)] at hp
      exact h.lock_ne_of_holds_none (by simp [hc, Cpu.holds]) q (withLock_eq_panic hp)
    all_goals cases hp
  | kill c q =>
    simp only [schedStep] at hp
    split at hp
    · next p hc => exact h.lock_ne_of_holds_none (by simp [hc, Cpu.holds]) q (withLock_eq_panic hp)
    all_goals cases hp
  | alloc c q =>
    simp only [schedStep] at hp
    split at hp
    · next p hc => exact h.lock_ne_of_holds_none (by simp [hc, Cpu.holds]) q (withLock_eq_panic hp)
    all_goals cases hp
  | fork c q =>
    simp only [schedStep] at hp
    split at hp
    · next p hc =>
      unfold forkStep at hp
      split at hp
      · exact h.lock_ne_of_holds_none (by simp [hc, Cpu.holds]) q (withLock_eq_panic hp)
      · cases hp
    all_goals cases hp
  | free c q =>
    simp only [schedStep] at hp
    split at hp
    · next p hc => exact h.lock_ne_of_holds_none (by simp [hc, Cpu.holds]) q (withLock_eq_panic hp)
    all_goals cases hp

end Panics

/-! ## Exclusivity -/

section Exclusive

variable {κ : Type} [DecidableEq κ] {s s' : SchedSys κ}

/-- Moving a CPU to where it executes nothing starts nothing. -/
theorem running_setCpu_of_none {c c' : κ} {x : Cpu} (hx : x.running = none) {p : Fin nProc}
    (h : ((s.setCpu c' x).cpu c).running = some p) : (s.cpu c).running = some p := by
  simp only [SchedSys.setCpu_cpu] at h
  split_ifs at h
  · rw [hx] at h
    cases h
  · exact h

/-- A CPU starts executing a process only when the scheduler switches to it,
and only a RUNNABLE one. -/
theorem schedStep_starts_runnable {op : SchedOp κ} (hs : schedStep s op = .ok s') {c : κ} {p : Fin nProc}
    (hnew : (s'.cpu c).running = some p) (hold : (s.cpu c).running ≠ some p) : (s.proc p).state = .runnable := by
  rcases schedStep_eq_ok hs with ⟨c', i, hc, -, hr, rfl⟩ | ⟨c', i, hc, rfl⟩ | ⟨c', q, g, hc, -, -, rfl⟩ |
      ⟨c', q, hc, -, rfl⟩ | ⟨c', q, f, ctx, hc, -, -, -, rfl⟩ | ⟨c', q, f, -, -, -, rfl⟩ | rfl
  · -- the scheduler's switch: the only step that starts a CPU on a process
    simp only [SchedSys.setCpu_cpu] at hnew
    split_ifs at hnew with hcc
    · simp only [Cpu.running, Option.some.injEq] at hnew
      rw [← hnew]
      exact hr
    · exact absurd (by simpa using hnew) hold
  · exact absurd (running_setCpu_of_none rfl hnew) hold
  · -- a resumed process was already executing on its CPU
    simp only [SchedSys.setCpu_cpu, SchedSys.setLock_cpu, SchedSys.setProc_cpu] at hnew
    split_ifs at hnew with hcc
    · subst hcc
      simp only [Cpu.running, Option.some.injEq] at hnew
      subst hnew
      exact absurd (by simp [hc, Cpu.running]) hold
    · exact absurd hnew hold
  · rw [SchedSys.setLock_cpu] at hnew
    exact absurd (running_setCpu_of_none rfl hnew) hold
  · exact absurd (running_setCpu_of_none rfl hnew) hold
  · exact absurd hnew hold
  · exact absurd hnew hold

/-- Scheduler exclusivity, on any number of CPUs and in every reachable state:
at most one CPU has `c->proc = p`, so no other executes `p`; `p` is RUNNING
exactly while some CPU executes it, from the scheduler's switch to it until
it switches back; a CPU starts executing only a process that was RUNNABLE;
and no step panics, so in particular sched() is entered only with `p->lock`
held by the current CPU and `p` not RUNNING. -/
theorem scheduler_exclusive (h : Reachable (schedSystem κ) s) :
    (∀ p c d, (s.cpu c).proc = some p → (s.cpu d).proc = some p → c = d) ∧
    (∀ p, (s.proc p).state = .running ↔ ∃ c, (s.cpu c).running = some p) ∧
    (∀ (op : SchedOp κ) s' c p, schedStep s op = .ok s' → (s'.cpu c).running = some p →
      (s.cpu c).running ≠ some p → (s.proc p).state = .runnable) ∧
    (∀ (op : SchedOp κ) msg, schedStep s op ≠ .panic msg) := by
  have hinv := schedInv_of_reachable h
  exact ⟨hinv.excl, hinv.running_iff, fun _ _ _ _ hs hnew hold => schedStep_starts_runnable hs hnew hold,
    fun op _ => schedStep_ne_panic hinv op⟩

set_option maxRecDepth 20000 in
/-- CPU 0's scheduler picks init and switches to it. -/
theorem scheduler_exclusive_init_running :
    ∃ s, run (schedSystem (Fin 2)) schedInit [.scheduler 0, .resume 0] = .ok s ∧
      (∀ p c d, (s.cpu c).proc = some p → (s.cpu d).proc = some p → c = d) ∧
      (∀ p, (s.proc p).state = .running ↔ ∃ c, (s.cpu c).running = some p) ∧
      (∀ (op : SchedOp (Fin 2)) s' c p, schedStep s op = .ok s' → (s'.cpu c).running = some p →
        (s.cpu c).running ≠ some p → (s.proc p).state = .runnable) ∧
      (∀ (op : SchedOp (Fin 2)) msg, schedStep s op ≠ .panic msg) :=
  Exists.imp (fun s hs => ⟨hs, scheduler_exclusive (reachable_of_run .init _ s hs)⟩) ⟨_, rfl⟩

end Exclusive

end Xv6.Proc
