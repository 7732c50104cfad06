import Xv6.Proc.Table

/-
  Xv6/Proc/Init.lean --- the init program of user/init.c on the kernel's
  process table.

  After opening the console, init loops: fork a shell; if fork fails, exit;
  then wait until the shell exits, ignoring other children that exit, and exit
  if wait returns an error.  Its control state is where it is in that loop
  (`InitPc`); each of its steps is one system call through usertrap and what it
  does with the result.  The shell and every other process take any step of
  the process table (`Op`); init takes only its own.

  The kernel panics with "init exiting" when init exits, whether it calls exit
  itself or usertrap makes it exit because it was killed.  Any process can kill
  init with kill(1), and the shell can fill the table so that init's fork
  fails: either run ends in the panic (`init_exits_when_killed_or_table_full`).
-/

set_option autoImplicit false

namespace Xv6.Proc

open Machine

/-- Where init is in its loop: about to fork a shell, or waiting for the shell
with pid `pid` to exit. -/
inductive InitPc where
  | startSh
  | waitSh (pid : Int)

/-- The process table with init's place in its program. -/
structure InitSys where
  table : ProcTable
  pc : InitPc

/-- init's next system call and what it does with the result.  `mem` and
`copy` are fork's allocation outcomes. -/
def initStep (s : InitSys) (mem copy : Bool) : Result InitSys :=
  let init := s.table.initproc
  match s.pc with
  | .startSh => do
    let t ← syscall s.table init fun t => .ok (fork t init mem copy)
    -- `pid = fork()`; on failure, `exit(1)`
    if (t.proc init).a0 < 0 then do
      let t ← step t (.exit init 1)
      pure ⟨t, .startSh⟩
    else pure ⟨t, .waitSh (t.proc init).a0⟩
  | .waitSh pid => do
    let t ← syscall s.table init fun t => do
      let (t, r, _) ← wait t init 0 true
      pure (t, r)
    -- `wpid = wait(0)`: the shell exited, an error, or a parentless process
    if (t.proc init).a0 = pid then pure ⟨t, .startSh⟩
    else if (t.proc init).a0 < 0 then do
      let t ← step t (.exit init 1)
      pure ⟨t, .waitSh pid⟩
    else pure ⟨t, .waitSh pid⟩

/-- init's own step, an interrupt while init runs, or a step of another
process. -/
inductive InitOp where
  | init (mem copy : Bool)
  | initIntr
  | other (op : Op)

/-- init and the other processes, from boot. -/
def initSystem : System InitSys InitOp :=
  { init := ⟨userinit, .startSh⟩
    step := fun s a =>
      match a with
      | .init mem copy => initStep s mem copy
      | .initIntr => do
        let t ← step s.table (.intr s.table.initproc)
        pure ⟨t, s.pc⟩
      | .other op =>
        if op.proc = s.table.initproc then .wait
        else do
          let t ← step s.table op
          pure ⟨t, s.pc⟩ }

/-- Two runs that end in panic("init exiting").  In the first, init starts the
shell (slot 1, pid 2), the shell calls kill(1), and init's next system call
finds itself killed.  In the second, the shell forks 62 children, filling the
table, and exits; init reaps it, one of the shell's children forks into the
freed slot, and init's fork finds the table full. -/
theorem init_exits_when_killed_or_table_full :
    run initSystem initSystem.init [.init true true, .other (.kill 1 1), .init true true] =
      .panic "init exiting" ∧
    run initSystem initSystem.init
      ([.init true true] ++ List.replicate 62 (.other (.fork 1 true true)) ++
        [.other (.exit 1 0), .init true true, .other (.fork 2 true true), .init true true]) =
      .panic "init exiting" := by
  constructor <;> rw [← Result.panicMsg?_eq_some] <;> decide +kernel

end Xv6.Proc
