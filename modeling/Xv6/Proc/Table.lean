import Xv6.Lib.Machine
import Xv6.Lib.Scan
import Xv6.Param

/-
  Xv6/Proc/Table.lean --- the process table of kernel/proc.c: allocproc,
  freeproc, fork, reparent, exit, wait and kill, and the system calls that
  reach them through usertrap (kernel/trap.c).

  The table is `proc[NPROC]`, each slot with the fields these functions read
  or write; `nextpid` is the counter allocpid advances, and `initproc` the
  slot userinit took.  Memory, open files and the current directory are left
  to the modules that model them (Vm/, Fs/): where an allocation or a copy to
  user space can fail, its outcome is an argument of the call, so every
  outcome is a step of the system.

  Each system call is one atomic step of a process that is neither UNUSED nor
  ZOMBIE, and runs inside usertrap: a killed process exits on its way in and
  on its way out, and the return value lands in `trapframe->a0`.  A call that
  would sleep (wait with children none of which is a zombie) takes no step:
  it is the `wait` result of the step.  exit() does not return.

  pid, nextpid and kill's argument are C ints; they are `Int` here, and
  `nextpid` is not wrapped: the overflow after 2^31 forks is undefined
  behaviour in C and is not modelled.
-/

set_option autoImplicit false
set_option linter.dupNamespace false

namespace Xv6.Proc

open Machine

instance : NeZero nProc := ⟨by decide⟩

/-! ## The table -/

/-- `enum procstate`. -/
inductive ProcState where
  | unused
  | used
  | sleeping
  | runnable
  | running
  | zombie
  deriving DecidableEq, Repr

/-- Neither UNUSED nor ZOMBIE: a process that runs, or can. -/
def ProcState.live (st : ProcState) : Bool :=
  st != .unused && st != .zombie

/-- The fields of `struct proc` these functions use. -/
structure Proc where
  state : ProcState
  pid : Int
  parent : Option (Fin nProc)
  killed : Bool
  xstate : Int
  /-- `trapframe->a0`, where a system call's return value goes -/
  a0 : Int
  /-- `p->trapframe != 0`: the slot holds its trapframe page -/
  trapframe : Bool
  /-- `p->pagetable != 0`: the slot holds its user page table -/
  pagetable : Bool
  deriving DecidableEq

/-- `proc[NPROC]`, `nextpid` and `initproc`. -/
structure ProcTable where
  proc : Fin nProc → Proc
  nextpid : Int
  initproc : Fin nProc

namespace ProcTable

/-- Change slot `i` by `f`. -/
def upd (t : ProcTable) (i : Fin nProc) (f : Proc → Proc) : ProcTable :=
  { t with proc := Function.update t.proc i (f (t.proc i)) }

@[simp] theorem upd_proc_self (t : ProcTable) (i : Fin nProc) (f : Proc → Proc) :
    (t.upd i f).proc i = f (t.proc i) := by
  simp [upd]

@[simp] theorem upd_proc_of_ne (t : ProcTable) {i j : Fin nProc} (f : Proc → Proc) (h : j ≠ i) :
    (t.upd i f).proc j = t.proc j := by
  simp [upd, h]

@[simp] theorem upd_nextpid (t : ProcTable) (i : Fin nProc) (f : Proc → Proc) :
    (t.upd i f).nextpid = t.nextpid := rfl

@[simp] theorem upd_initproc (t : ProcTable) (i : Fin nProc) (f : Proc → Proc) :
    (t.upd i f).initproc = t.initproc := rfl

end ProcTable

/-! ## proc.c -/

/-- `freeproc`: the trapframe page given back by `kfree` and the page table by
`proc_freepagetable`, and the slot back to UNUSED, with pid, parent, killed
and xstate cleared. -/
def freeproc (t : ProcTable) (p : Fin nProc) : ProcTable :=
  t.upd p fun pr =>
    { pr with trapframe := false, pagetable := false, pid := 0, parent := none, killed := false, xstate := 0,
              state := .unused }

/-- allocproc's `found:` block: `p->pid = allocpid(); p->state = USED;`, and
the slot's trapframe page (`kalloc`) and page table (`proc_pagetable`).  When
either allocation fails allocproc calls `freeproc`, which leaves the slot as
if neither had been made. -/
def ProcTable.takeSlot (t : ProcTable) (p : Fin nProc) : ProcTable :=
  { t.upd p (fun pr => { pr with pid := t.nextpid, state := .used, trapframe := true, pagetable := true }) with
    nextpid := t.nextpid + 1 }

/-- `allocproc`: the first UNUSED slot, given the next pid and made USED.
`mem` says whether its trapframe and page table could be allocated; when they
could not, the slot is freed again.  `killed` is not reset. -/
def allocproc (t : ProcTable) (mem : Bool) : ProcTable × Option (Fin nProc) :=
  match (List.finRange nProc).find? (fun p => (t.proc p).state = .unused) with
  | none => (t, none)
  | some p => if mem then (t.takeSlot p, some p) else (freeproc (t.takeSlot p) p, none)

/-- `fork` by `p`: the child's pid, or -1.  `mem` is allocproc's allocation
and `copy` whether uvmcopy could copy the parent's memory. -/
def fork (t : ProcTable) (p : Fin nProc) (mem copy : Bool) : ProcTable × Int :=
  match allocproc t mem with
  | (t, none) => (t, -1)
  | (t, some np) =>
    if !copy then (freeproc t np, -1)
    else
      -- the child returns 0 from fork, with `np->parent = p` and RUNNABLE
      (t.upd np fun pr => { pr with a0 := 0, parent := some p, state := .runnable }, (t.proc np).pid)

/-- `reparent`: pass `p`'s children to init. -/
def reparent (t : ProcTable) (p : Fin nProc) : ProcTable :=
  { t with proc := fun pp =>
      if (t.proc pp).parent = some p then { t.proc pp with parent := some t.initproc } else t.proc pp }

/-- `exit(status)` by `p`: it does not return; `p` becomes a ZOMBIE holding
`status`, after its children go to init. -/
def exit (t : ProcTable) (p : Fin nProc) (status : Int) : Result ProcTable :=
  if p = t.initproc then .panic "init exiting"
  else .ok ((reparent t p).upd p fun pr => { pr with xstate := status, state := .zombie })

/-- `wait(addr)` by `p`: the pid it returns, and what it copies out to `addr`
(`none` when `addr` is 0 or nothing is copied).  `copyoutOk` is whether the
copy of the child's status to user space succeeds.  The first ZOMBIE child in
table order is freed; with children but none a zombie, `p` sleeps. -/
def wait (t : ProcTable) (p : Fin nProc) (addr : Nat) (copyoutOk : Bool) :
    Result (ProcTable × Int × Option Int) :=
  match (List.finRange nProc).find? (fun pp => (t.proc pp).parent = some p ∧ (t.proc pp).state = .zombie) with
  | some pp =>
    if addr ≠ 0 ∧ copyoutOk = false then .ok (t, -1, none)
    else .ok (freeproc t pp, (t.proc pp).pid, if addr ≠ 0 then some (t.proc pp).xstate else none)
  | none =>
    if !(List.finRange nProc).any (fun pp => (t.proc pp).parent = some p) || (t.proc p).killed then
      .ok (t, -1, none)
    else .wait

/-- `kill(pid)`: mark the first slot in table order whose pid is `pid`, and
wake it if it sleeps; 0, or -1 if no slot has that pid. -/
def kill (t : ProcTable) (pid : Int) : ProcTable × Int :=
  match (List.finRange nProc).find? (fun p => (t.proc p).pid = pid) with
  | some p =>
    (t.upd p fun pr => { pr with killed := true, state := if pr.state = .sleeping then .runnable else pr.state }, 0)
  | none => (t, -1)

/-! ## What each update does to a slot -/

section Slots

variable (t : ProcTable) {p q : Fin nProc}

@[simp] theorem freeproc_proc_self :
    (freeproc t p).proc p =
      { t.proc p with trapframe := false, pagetable := false, pid := 0, parent := none, killed := false,
                      xstate := 0, state := .unused } := by
  simp [freeproc]

@[simp] theorem freeproc_proc_of_ne (h : q ≠ p) : (freeproc t p).proc q = t.proc q := by
  simp [freeproc, h]

@[simp] theorem freeproc_nextpid : (freeproc t p).nextpid = t.nextpid := rfl

@[simp] theorem freeproc_initproc : (freeproc t p).initproc = t.initproc := rfl

@[simp] theorem takeSlot_proc_self :
    (t.takeSlot p).proc p =
      { t.proc p with pid := t.nextpid, state := .used, trapframe := true, pagetable := true } := by
  simp [ProcTable.takeSlot]

@[simp] theorem takeSlot_proc_of_ne (h : q ≠ p) : (t.takeSlot p).proc q = t.proc q := by
  simp [ProcTable.takeSlot, h]

@[simp] theorem takeSlot_nextpid : (t.takeSlot p).nextpid = t.nextpid + 1 := rfl

@[simp] theorem takeSlot_initproc : (t.takeSlot p).initproc = t.initproc := rfl

@[simp] theorem reparent_proc :
    (reparent t p).proc q =
      if (t.proc q).parent = some p then { t.proc q with parent := some t.initproc } else t.proc q := rfl

/-- `reparent` changes parent links only. -/
theorem reparent_proc_slot :
    ((reparent t p).proc q).state = (t.proc q).state ∧
      ((reparent t p).proc q).trapframe = (t.proc q).trapframe ∧
      ((reparent t p).proc q).pagetable = (t.proc q).pagetable := by
  rw [reparent_proc]
  split <;> exact ⟨rfl, rfl, rfl⟩

@[simp] theorem reparent_nextpid : (reparent t p).nextpid = t.nextpid := rfl

@[simp] theorem reparent_initproc : (reparent t p).initproc = t.initproc := rfl

end Slots

/-- What `allocproc` can do: find no UNUSED slot and change nothing, or take
the first UNUSED slot, and keep it or free it again. -/
theorem allocproc_cases (t : ProcTable) (mem : Bool) :
    (allocproc t mem = (t, none) ∧ ∀ i, (t.proc i).state ≠ .unused) ∨
    ∃ p, (t.proc p).state = .unused ∧ (∀ j < p, (t.proc j).state ≠ .unused) ∧
      allocproc t mem = if mem then (t.takeSlot p, some p) else (freeproc (t.takeSlot p) p, none) := by
  unfold allocproc
  cases h : (List.finRange nProc).find? (fun p => (t.proc p).state = .unused) with
  | none =>
    left
    refine ⟨rfl, fun i hi => ?_⟩
    simpa [hi] using Scan.find?_finRange_eq_none.1 h i
  | some p =>
    right
    obtain ⟨hp, hbefore⟩ := Scan.find?_finRange_eq_some.1 h
    refine ⟨p, by simpa using hp, fun j hj => by simpa using hbefore j hj, rfl⟩

/-! ## trap.c: system calls and interrupts -/

/-- A system call by `p` through `usertrap`: a killed process exits before the
call and after it; the return value goes to `p->trapframe->a0`. -/
def syscall (t : ProcTable) (p : Fin nProc) (call : ProcTable → Result (ProcTable × Int)) :
    Result ProcTable :=
  if (t.proc p).killed then exit t p (-1)
  else do
    let (t, r) ← call t
    let t := t.upd p fun pr => { pr with a0 := r }
    if (t.proc p).killed then exit t p (-1) else pure t

/-- The process-table system calls, a device interrupt, and a fault (an
unexpected `scause`), each by the process `p` that traps. -/
inductive Op where
  | fork (p : Fin nProc) (mem copy : Bool)
  | exit (p : Fin nProc) (status : Int)
  | wait (p : Fin nProc) (addr : Nat) (copyoutOk : Bool)
  | kill (p : Fin nProc) (pid : Int)
  | intr (p : Fin nProc)
  | fault (p : Fin nProc)

/-- The process that traps. -/
def Op.proc : Op → Fin nProc
  | .fork p .. | .exit p .. | .wait p .. | .kill p .. | .intr p | .fault p => p

/-- One step: `op.proc` must be running, that is, live. -/
def step (t : ProcTable) (op : Op) : Result ProcTable :=
  if !(t.proc op.proc).state.live then .wait
  else
    match op with
    | .fork p mem copy => syscall t p fun t => .ok (fork t p mem copy)
    | .exit p status => if (t.proc p).killed then exit t p (-1) else exit t p status
    | .wait p addr ok => syscall t p fun t => do
        let (t, r, _) ← wait t p addr ok
        pure (t, r)
    | .kill p pid => syscall t p fun t => .ok (kill t pid)
    | .intr p => if (t.proc p).killed then exit t p (-1) else .ok t
    -- `setkilled(p)`, then the killed check
    | .fault p => exit (t.upd p fun pr => { pr with killed := true }) p (-1)

/-! ## What each call can do -/

/-- An update of a slot that keeps its pid and parent, whether it is UNUSED
or a ZOMBIE, and its trapframe and page table: what kill, setkilled and the
store to `a0` do. -/
def KeepsSlot (f : Proc → Proc) : Prop :=
  ∀ pr, (f pr).pid = pr.pid ∧ (f pr).parent = pr.parent ∧
    ((f pr).state = .unused ↔ pr.state = .unused) ∧ ((f pr).state = .zombie ↔ pr.state = .zombie) ∧
    (f pr).trapframe = pr.trapframe ∧ (f pr).pagetable = pr.pagetable

theorem KeepsSlot.live {f : Proc → Proc} (hf : KeepsSlot f) (pr : Proc) :
    (f pr).state.live = pr.state.live := by
  obtain ⟨-, -, hu, hz, -⟩ := hf pr
  unfold ProcState.live
  rw [Bool.eq_iff_iff]
  simp only [Bool.and_eq_true, bne_iff_ne, ne_eq, hu, hz]

theorem keepsSlot_a0 (r : Int) : KeepsSlot fun pr => { pr with a0 := r } :=
  fun _ => ⟨rfl, rfl, Iff.rfl, Iff.rfl, rfl, rfl⟩

theorem keepsSlot_killed : KeepsSlot fun pr => { pr with killed := true } :=
  fun _ => ⟨rfl, rfl, Iff.rfl, Iff.rfl, rfl, rfl⟩

/-- kill's update: a sleeping process becomes RUNNABLE, which is neither
UNUSED nor a ZOMBIE. -/
theorem keepsSlot_kill :
    KeepsSlot fun pr => { pr with killed := true, state := if pr.state = .sleeping then .runnable else pr.state } := by
  intro pr
  refine ⟨rfl, rfl, ?_, ?_, rfl, rfl⟩ <;> dsimp only <;> split <;> simp_all

/-- What `fork` can do: nothing, take the first UNUSED slot and free it again
(no memory, or uvmcopy failed), or make it a RUNNABLE child of `p` with the
next pid. -/
theorem fork_cases (t : ProcTable) (p : Fin nProc) (mem copy : Bool) :
    fork t p mem copy = (t, -1) ∨
    (∃ np, (t.proc np).state = .unused ∧ fork t p mem copy = (freeproc (t.takeSlot np) np, -1)) ∨
    (∃ np, (t.proc np).state = .unused ∧ (∀ j < np, (t.proc j).state ≠ .unused) ∧
      fork t p mem copy =
        ((t.takeSlot np).upd np fun pr => { pr with a0 := 0, parent := some p, state := .runnable },
          t.nextpid)) := by
  unfold fork
  rcases allocproc_cases t mem with ⟨h, -⟩ | ⟨np, hu, hfirst, h⟩
  · rw [h]
    exact .inl rfl
  · rw [h]
    cases mem <;> cases copy
    · exact .inr (.inl ⟨np, hu, rfl⟩)
    · exact .inr (.inl ⟨np, hu, rfl⟩)
    · exact .inr (.inl ⟨np, hu, rfl⟩)
    · exact .inr (.inr ⟨np, hu, hfirst, by simp⟩)

/-- `fork` leaves the caller's slot alone: the slot it takes was UNUSED. -/
theorem fork_proc_caller (t : ProcTable) {p : Fin nProc} (mem copy : Bool)
    (hp : (t.proc p).state ≠ .unused) : (fork t p mem copy).1.proc p = t.proc p := by
  rcases fork_cases t p mem copy with h | ⟨np, hu, h⟩ | ⟨np, hu, -, h⟩
  · rw [h]
  · have hne : p ≠ np := fun he => hp (he ▸ hu)
    simp [h, hne]
  · have hne : p ≠ np := fun he => hp (he ▸ hu)
    simp [h, hne]

/-- What a completed `wait` can do: nothing, or free one ZOMBIE child of `p`. -/
theorem wait_eq_ok {t t' : ProcTable} {p : Fin nProc} {addr : Nat} {ok : Bool} {r : Int}
    {o : Option Int} (h : wait t p addr ok = .ok (t', r, o)) :
    t' = t ∨ ∃ c, (t.proc c).parent = some p ∧ (t.proc c).state = .zombie ∧ t' = freeproc t c := by
  unfold wait at h
  split at h
  · next c hc =>
    obtain ⟨hcp, -⟩ := Scan.find?_finRange_eq_some.1 hc
    simp only [decide_eq_true_eq] at hcp
    split at h
    · cases h
      exact .inl rfl
    · cases h
      exact .inr ⟨c, hcp.1, hcp.2, rfl⟩
  · split at h
    · cases h
      exact .inl rfl
    · cases h

/-- `wait` leaves a live caller's slot alone: the child it frees is a zombie. -/
theorem wait_proc_caller {t t' : ProcTable} {p : Fin nProc} {addr : Nat} {ok : Bool} {r : Int}
    {o : Option Int} (hp : (t.proc p).state.live) (h : wait t p addr ok = .ok (t', r, o)) :
    t'.proc p = t.proc p := by
  rcases wait_eq_ok h with rfl | ⟨c, -, hz, rfl⟩
  · rfl
  · have hne : p ≠ c := by
      rintro rfl
      simp [ProcState.live, hz] at hp
    simp [hne]

/-- What `kill` can do: nothing, or a `KeepsSlot` update of one slot. -/
theorem kill_eq (t : ProcTable) (pid : Int) :
    kill t pid = (t, -1) ∨ ∃ p, ∃ f, KeepsSlot f ∧ kill t pid = (t.upd p f, 0) := by
  unfold kill
  split
  · next p _ => exact .inr ⟨p, _, keepsSlot_kill, rfl⟩
  · exact .inl rfl

/-! ## The invariant rule of the process table

An invariant of the table that survives exit, the updates `KeepsSlot` allows,
fork and wait, each by a live process, holds in every reachable state: usertrap,
kill, interrupts and faults are made of these. -/

section Preserve

variable (Inv : ProcTable → Prop)

/-- A system call through usertrap keeps `Inv` when the call keeps it and
leaves the caller live. -/
theorem syscall_preserves
    (hexit : ∀ t p st t', Inv t → (t.proc p).state.live → exit t p st = .ok t' → Inv t')
    (hkeep : ∀ t p f, Inv t → KeepsSlot f → Inv (t.upd p f))
    {t t' : ProcTable} {p : Fin nProc} {call : ProcTable → Result (ProcTable × Int)}
    (hcall : ∀ t₁ r, call t = .ok (t₁, r) → Inv t₁ ∧ (t₁.proc p).state.live)
    (hI : Inv t) (hp : (t.proc p).state.live) (h : syscall t p call = .ok t') : Inv t' := by
  unfold syscall at h
  split at h
  · exact hexit t p _ t' hI hp h
  · obtain ⟨⟨t₁, r⟩, hc, h⟩ := Result.bind_eq_ok.1 h
    obtain ⟨hI₁, hp₁⟩ := hcall t₁ r hc
    -- the return value is stored in `a0`, and the caller is still live
    have hI₂ := hkeep t₁ p _ hI₁ (keepsSlot_a0 r)
    have hp₂ : ((t₁.upd p fun pr => { pr with a0 := r }).proc p).state.live := by simpa using hp₁
    dsimp only at h
    split at h
    · exact hexit _ p _ t' hI₂ hp₂ h
    · cases h
      exact hI₂

/-- Every step keeps `Inv`. -/
theorem step_preserves
    (hexit : ∀ t p st t', Inv t → (t.proc p).state.live → exit t p st = .ok t' → Inv t')
    (hkeep : ∀ t p f, Inv t → KeepsSlot f → Inv (t.upd p f))
    (hfork : ∀ t p mem copy, Inv t → (t.proc p).state.live → Inv (fork t p mem copy).1)
    (hwait : ∀ t p addr ok t' r o, Inv t → (t.proc p).state.live → wait t p addr ok = .ok (t', r, o) → Inv t')
    {t t' : ProcTable} {op : Op} (hI : Inv t) (h : step t op = .ok t') : Inv t' := by
  unfold step at h
  by_cases hlive : (t.proc op.proc).state.live = true
  · rw [if_neg (by simp [hlive])] at h
    cases op with
    | fork p mem copy =>
      simp only [Op.proc] at hlive
      refine syscall_preserves Inv hexit hkeep (fun t₁ r hc => ?_) hI hlive h
      simp only [Result.ok.injEq] at hc
      have ht₁ : t₁ = (fork t p mem copy).1 := by rw [hc]
      subst ht₁
      have hu : (t.proc p).state ≠ .unused := by
        intro hu
        simp [ProcState.live, hu] at hlive
      exact ⟨hfork t p mem copy hI hlive, by rw [fork_proc_caller t mem copy hu]; exact hlive⟩
    | exit p status =>
      simp only [Op.proc] at hlive
      dsimp only at h
      split at h
      · exact hexit t p _ t' hI hlive h
      · exact hexit t p _ t' hI hlive h
    | wait p addr ok =>
      simp only [Op.proc] at hlive
      refine syscall_preserves Inv hexit hkeep (fun t₁ r hc => ?_) hI hlive h
      obtain ⟨⟨t₂, r₂, o⟩, hw, hc⟩ := Result.bind_eq_ok.1 hc
      simp only [Result.pure_eq_ok, Prod.mk.injEq] at hc
      obtain ⟨rfl, rfl⟩ := hc
      exact ⟨hwait t p addr ok _ _ _ hI hlive hw, by rw [wait_proc_caller hlive hw]; exact hlive⟩
    | kill p pid =>
      simp only [Op.proc] at hlive
      refine syscall_preserves Inv hexit hkeep (fun t₁ r hc => ?_) hI hlive h
      simp only [Result.ok.injEq] at hc
      have ht₁ : t₁ = (kill t pid).1 := by rw [hc]
      subst ht₁
      rcases kill_eq t pid with hk | ⟨q, f, hf, hk⟩ <;> rw [hk]
      · exact ⟨hI, hlive⟩
      · refine ⟨hkeep t q f hI hf, ?_⟩
        by_cases hq : p = q
        · subst hq
          simpa [hf.live] using hlive
        · simpa [hq] using hlive
    | intr p =>
      simp only [Op.proc] at hlive
      dsimp only at h
      split at h
      · exact hexit t p _ t' hI hlive h
      · cases h
        exact hI
    | fault p =>
      simp only [Op.proc] at hlive
      refine hexit _ p _ t' (hkeep t p _ hI keepsSlot_killed) ?_ h
      simpa [keepsSlot_killed.live] using hlive
  · rw [if_pos (by simpa using hlive)] at h
    cases h

end Preserve

/-! ## Boot -/

/-- The zeroed table of a fresh boot, as `procinit` leaves it. -/
def bootTable : ProcTable :=
  { proc := fun _ =>
      { state := .unused, pid := 0, parent := none, killed := false, xstate := 0, a0 := 0, trapframe := false,
        pagetable := false }
    nextpid := 1
    initproc := 0 }

/-- `userinit`: allocproc's slot becomes `initproc`, RUNNABLE. -/
def userinit : ProcTable :=
  match allocproc bootTable true with
  | (t, some p) => { t.upd p (fun pr => { pr with state := .runnable }) with initproc := p }
  | (t, none) => t

/-- The processes from boot on. -/
def procSystem : System ProcTable Op :=
  { init := userinit, step := step }

end Xv6.Proc
