import Xv6.Lib.Machine
import Xv6.Lib.Ring

/-
  Xv6/Pipe/Pipe.lean --- pipes (kernel/pipe.c).

  A pipe is a buffer of PIPESIZE bytes with two unsigned 32-bit counters:
  `nwrite` bytes have been put in and `nread` taken out, both counting from
  zero and wrapping at 2^32.  Byte `x` of the stream sits in `data[x %
  PIPESIZE]`, so the bytes in the pipe are the `nwrite - nread` cells from
  `nread` on (`Pipe.contents`, a `Ring.window`).

  The system is one pipe and processes in calls of `pipewrite` and
  `piperead`.  A call is modelled as its start and then one step per byte,
  each under `pi->lock`; a sleep in `pipewrite` (pipe full) or in `piperead`
  (pipe empty, write end open) is a step that waits.  piperead holds the lock
  across its whole copy loop; taking its bytes one step at a time only adds
  interleavings, so the invariants below hold for the code's as well.  Which
  `copyin` and `copyout` calls fault, and whether the caller has been killed,
  are arguments of the steps.  Three observations are kept beside the pipe:
  the bytes `pipewrite` accepted, the bytes `piperead` took out of `data`, and
  the bytes it copied out to a reader, each in order.

  Over every run the counters stay at most PIPESIZE apart, the accepted bytes
  are the taken ones followed by the pipe's contents, and the bytes readers
  receive are a subsequence of the taken ones (`pipe_fifo`).  They need not be
  all of them: `piperead` moves `nread` on before its `copyout`, and when the
  copy faults it stops with the byte taken and not delivered
  (`piperead_drops_byte_on_copyout_fault`).
-/

set_option autoImplicit false
set_option linter.dupNamespace false

namespace Xv6.Pipe

open Machine

/-- PIPESIZE. -/
def pipeSize : Nat := 512

instance : NeZero pipeSize := ⟨by decide⟩

/-- The index `x % PIPESIZE` of `data`. -/
def bufIdx (x : UInt32) : Fin pipeSize :=
  ⟨(x % 512).toNat, by rw [UInt32.toNat_mod]; exact Nat.mod_lt _ (by decide)⟩

/-- struct pipe, without its lock. -/
structure Pipe where
  data : Fin pipeSize → UInt8
  nread : UInt32
  nwrite : UInt32
  readopen : Bool
  writeopen : Bool

/-- The pipe that pipealloc sets up, in a page fresh from kalloc (which fills
it with 5s). -/
def pipealloc : Pipe :=
  { data := fun _ => 5, nread := 0, nwrite := 0, readopen := true, writeopen := true }

/-- pipeclose: the end being closed is marked closed.  (Freeing the page once
both ends are closed is not modelled.) -/
def pipeclose (pi : Pipe) (writable : Bool) : Pipe :=
  if writable then { pi with writeopen := false } else { pi with readopen := false }

namespace Pipe

/-- `pi->data[pi->nwrite++ % PIPESIZE] = ch`. -/
def put (pi : Pipe) (ch : UInt8) : Pipe :=
  { pi with data := Function.update pi.data (bufIdx pi.nwrite) ch, nwrite := pi.nwrite + 1 }

/-- `ch = pi->data[pi->nread++ % PIPESIZE]`: the pipe after, and the byte. -/
def get (pi : Pipe) : Pipe × UInt8 :=
  ({ pi with nread := pi.nread + 1 }, pi.data (bufIdx pi.nread))

/-- The number of bytes in the pipe. -/
def count (pi : Pipe) : Nat := (pi.nwrite - pi.nread).toNat

/-- The bytes in the pipe, oldest first. -/
def contents (pi : Pipe) : List UInt8 := Ring.window pi.data pi.nread.toNat pi.count

theorem bufIdx_eq_slot (x : UInt32) : bufIdx x = Ring.slot pipeSize x.toNat := by
  apply Fin.ext
  simp only [bufIdx, Ring.slot, UInt32.toNat_mod]
  rfl

theorem pipeSize_dvd : pipeSize ∣ 2 ^ 32 := ⟨2 ^ 23, by decide⟩

/-- pipewrite's test `nwrite == nread + PIPESIZE` is the test for PIPESIZE bytes
in the pipe. -/
theorem full_iff (pi : Pipe) : pi.nwrite = pi.nread + 512 ↔ pi.count = pipeSize :=
  Ring.eq_add_iff_toNat_sub _ _ _

/-- piperead's test `nread == nwrite` is the test for an empty pipe. -/
theorem empty_iff (pi : Pipe) : pi.nread = pi.nwrite ↔ pi.count = 0 :=
  Ring.eq_iff_toNat_sub_eq_zero _ _

theorem count_put (pi : Pipe) (ch : UInt8) (h : pi.count < pipeSize) :
    (pi.put ch).count = pi.count + 1 :=
  Ring.toNat_succ_sub (a := pi.nread) (by unfold count pipeSize at h; omega)

/-- A byte put into a pipe that is not full goes to the end of its contents. -/
theorem contents_put (pi : Pipe) (ch : UInt8) (h : pi.count < pipeSize) :
    (pi.put ch).contents = pi.contents ++ [ch] := by
  -- `nwrite` names the cell `count` past `nread`, also when either has wrapped
  have hidx : bufIdx pi.nwrite = Ring.slot pipeSize (pi.nread.toNat + pi.count) := by
    rw [bufIdx_eq_slot]
    exact Fin.ext (Ring.toNat_mod_eq_add_sub _ _ pipeSize_dvd)
  unfold contents
  rw [count_put pi ch h]
  simp only [put, hidx]
  exact Ring.window_push _ _ h ch

theorem count_get (pi : Pipe) (h : 0 < pi.count) : pi.get.1.count = pi.count - 1 :=
  Ring.toNat_sub_succ h

/-- The byte taken out of a pipe that is not empty is the first of its
contents, and the rest remain. -/
theorem contents_get (pi : Pipe) (h : 0 < pi.count) :
    pi.contents = pi.get.2 :: pi.get.1.contents := by
  unfold contents
  rw [count_get pi h, Ring.window_pop _ _ h]
  simp only [get, bufIdx_eq_slot]
  congr 1
  rw [UInt32.toNat_add, UInt32.toNat_one, Ring.window_mod pipeSize_dvd]

@[simp] theorem count_pipeclose (pi : Pipe) (writable : Bool) :
    (pipeclose pi writable).count = pi.count := by
  cases writable <;> rfl

@[simp] theorem contents_pipeclose (pi : Pipe) (writable : Bool) :
    (pipeclose pi writable).contents = pi.contents := by
  cases writable <;> rfl

end Pipe

/-- Where a process is in a pipe call: in `pipewrite` with the user bytes still
to copy in (`none` where `copyin` faults) and `i` accepted so far; in
`piperead` with whether each further `copyout` succeeds and `i` copied so
far. -/
inductive Call where
  | idle
  | writing (src : List (Option UInt8)) (i : Int)
  | reading (dst : List Bool) (i : Int)

/-- One pipe, the processes using it, what each call returned, and the bytes
accepted, taken out and delivered so far. -/
structure PipeSys (π : Type) where
  pipe : Pipe
  call : π → Call
  ret : π → Option Int
  accepted : List UInt8
  taken : List UInt8
  returned : List UInt8

/-- A step of one process, or the closing of one end. -/
inductive Op (π : Type) where
  /-- `pipewrite(pi, addr, n)` is called with the `n` user bytes at `addr` -/
  | write (p : π) (src : List (Option UInt8))
  /-- one iteration of pipewrite's loop; `killed` is `killed(pr)` -/
  | writeStep (p : π) (killed : Bool)
  /-- `piperead(pi, addr, n)` is called, `dst` saying which of the `n`
  copyouts succeed; `killed` is `killed(pr)` while it waits for data -/
  | read (p : π) (dst : List Bool) (killed : Bool)
  /-- one iteration of piperead's copy loop -/
  | readStep (p : π)
  /-- `pipeclose(pi, writable)` -/
  | close (writable : Bool)

section Steps

variable {π : Type} [DecidableEq π]

/-- A call of `p` returns `r`. -/
def PipeSys.finish (s : PipeSys π) (p : π) (r : Int) : PipeSys π :=
  { s with call := Function.update s.call p .idle, ret := Function.update s.ret p (some r) }

/-- One iteration of pipewrite's `while(i < n)` loop. -/
def pipewriteStep (s : PipeSys π) (p : π) (src : List (Option UInt8)) (i : Int) (killed : Bool) :
    Result (PipeSys π) :=
  match src with
  | [] => .ok (s.finish p i)
  | b :: src =>
    if !s.pipe.readopen || killed then .ok (s.finish p (-1))
    -- pipe full: wake readers and sleep on `nwrite`
    else if s.pipe.nwrite = s.pipe.nread + 512 then .wait
    else
      match b with
      | none => .ok (s.finish p i)
      | some ch =>
        .ok { s with pipe := s.pipe.put ch, call := Function.update s.call p (.writing src (i + 1)),
                     accepted := s.accepted ++ [ch] }

/-- piperead's `while` loop: with the pipe empty and its write end open, a
killed reader returns -1 and any other sleeps on `nread`. -/
def pipereadStart (s : PipeSys π) (p : π) (dst : List Bool) (killed : Bool) : Result (PipeSys π) :=
  if s.pipe.nread = s.pipe.nwrite && s.pipe.writeopen then
    if killed then .ok (s.finish p (-1)) else .wait
  else .ok { s with call := Function.update s.call p (.reading dst 0) }

/-- One iteration of piperead's `for` loop.  The byte is taken out of the pipe
before it is copied out; when the copy faults the loop stops and the byte is
gone. -/
def pipereadStep (s : PipeSys π) (p : π) (dst : List Bool) (i : Int) : Result (PipeSys π) :=
  match dst with
  | [] => .ok (s.finish p i)
  | ok :: dst =>
    if s.pipe.nread = s.pipe.nwrite then .ok (s.finish p i)
    else
      let s' := { s with pipe := s.pipe.get.1, taken := s.taken ++ [s.pipe.get.2] }
      if ok then
        .ok { s' with call := Function.update s.call p (.reading dst (i + 1)),
                      returned := s.returned ++ [s.pipe.get.2] }
      else .ok (s'.finish p i)

/-- The effect of one step.  A process starts a call only when idle, and takes
a step of the call it is in. -/
def step (s : PipeSys π) : Op π → Result (PipeSys π)
  | .write p src =>
    match s.call p with
    | .idle => .ok { s with call := Function.update s.call p (.writing src 0) }
    | _ => .wait
  | .writeStep p killed =>
    match s.call p with
    | .writing src i => pipewriteStep s p src i killed
    | _ => .wait
  | .read p dst killed =>
    match s.call p with
    | .idle => pipereadStart s p dst killed
    | _ => .wait
  | .readStep p =>
    match s.call p with
    | .reading dst i => pipereadStep s p dst i
    | _ => .wait
  | .close writable => .ok { s with pipe := pipeclose s.pipe writable }

/-- A pipe from pipealloc, with every process idle. -/
def pipeSystem (π : Type) [DecidableEq π] : System (PipeSys π) (Op π) :=
  { init := ⟨pipealloc, fun _ => .idle, fun _ => none, [], [], []⟩
    step := step }

end Steps

end Xv6.Pipe
