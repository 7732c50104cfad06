import Xv6.Pipe.Pipe

/-
  Xv6/Pipe/Fifo.lean --- what a pipe delivers.

  The invariant `PipeInv` of the pipe system: the counters are at most
  PIPESIZE apart, every byte pipewrite accepted was either taken out by
  piperead or is still in the pipe, in order, and what readers received is a
  subsequence of what was taken out.  Each kind of step keeps it: a step that
  ends a call changes no byte, pipewrite puts a byte only into a pipe that is
  not full, and piperead takes one only out of a pipe that is not empty
  (`PipeInv.step`).  Over every run it gives `pipe_fifo`: readers receive a
  subsequence of the accepted bytes, never a byte twice or out of order.

  The subsequence can be a proper one.  piperead takes the byte before it
  copies it out, and a copyout that faults ends the call with the byte gone:
  the next read returns the byte after it
  (`piperead_drops_byte_on_copyout_fault`).
-/

set_option autoImplicit false

namespace Xv6.Pipe

open Machine

variable {π : Type}

/-- The pipe invariant. -/
structure PipeInv (s : PipeSys π) : Prop where
  count_le : s.pipe.count ≤ pipeSize
  fifo : s.accepted = s.taken ++ s.pipe.contents
  returned_sublist : s.returned.Sublist s.taken

/-! ## One step -/

namespace PipeInv

variable {s : PipeSys π}

/-- Steps that only move a process between calls keep the invariant. -/
theorem setCall (h : PipeInv s) (c : π → Call) : PipeInv { s with call := c } :=
  ⟨h.count_le, h.fifo, h.returned_sublist⟩

/-- pipewrite puts a byte into a pipe that is not full. -/
theorem put (h : PipeInv s) (hfull : s.pipe.count ≠ pipeSize) (ch : UInt8) (c : π → Call) :
    PipeInv { s with pipe := s.pipe.put ch, call := c, accepted := s.accepted ++ [ch] } := by
  have hlt : s.pipe.count < pipeSize := Nat.lt_of_le_of_ne h.count_le hfull
  refine ⟨?_, ?_, h.returned_sublist⟩
  · show (s.pipe.put ch).count ≤ pipeSize
    rw [Pipe.count_put _ _ hlt]
    exact hlt
  · show s.accepted ++ [ch] = s.taken ++ (s.pipe.put ch).contents
    rw [Pipe.contents_put _ _ hlt, h.fifo, List.append_assoc]

/-- piperead takes the first byte out of a pipe that is not empty, and either
delivers it (`returned'` is `returned ++ [ch]`) or does not. -/
theorem get (h : PipeInv s) (hempty : s.pipe.count ≠ 0) {returned' : List UInt8}
    (hret : returned' = s.returned ++ [s.pipe.get.2] ∨ returned' = s.returned) (c : π → Call)
    (ret : π → Option Int) :
    PipeInv { s with pipe := s.pipe.get.1, call := c, ret := ret, taken := s.taken ++ [s.pipe.get.2],
                     returned := returned' } := by
  have hpos : 0 < s.pipe.count := Nat.pos_of_ne_zero hempty
  refine ⟨?_, ?_, ?_⟩
  · show s.pipe.get.1.count ≤ pipeSize
    rw [Pipe.count_get _ hpos]
    exact Nat.le_trans (Nat.sub_le _ _) h.count_le
  · show s.accepted = (s.taken ++ [s.pipe.get.2]) ++ s.pipe.get.1.contents
    rw [h.fifo, Pipe.contents_get _ hpos, List.append_assoc, List.singleton_append]
  · show returned'.Sublist (s.taken ++ [s.pipe.get.2])
    rcases hret with rfl | rfl
    · exact h.returned_sublist.append (List.Sublist.refl _)
    · exact h.returned_sublist.trans (List.sublist_append_left _ _)

theorem close (h : PipeInv s) (writable : Bool) :
    PipeInv { s with pipe := pipeclose s.pipe writable } := by
  refine ⟨?_, ?_, h.returned_sublist⟩
  · show (pipeclose s.pipe writable).count ≤ pipeSize
    rw [Pipe.count_pipeclose]
    exact h.count_le
  · show s.accepted = s.taken ++ (pipeclose s.pipe writable).contents
    rw [Pipe.contents_pipeclose]
    exact h.fifo

variable [DecidableEq π]

theorem finish (h : PipeInv s) (p : π) (r : Int) : PipeInv (s.finish p r) :=
  ⟨h.count_le, h.fifo, h.returned_sublist⟩

theorem pipewriteStep (h : PipeInv s) {p : π} {src : List (Option UInt8)} {i : Int} {killed : Bool}
    {s' : PipeSys π} (hs : pipewriteStep s p src i killed = .ok s') : PipeInv s' := by
  unfold Xv6.Pipe.pipewriteStep at hs
  split at hs
  · cases hs
    exact h.finish p i
  · split at hs
    · cases hs
      exact h.finish p (-1)
    · split at hs
      · cases hs
      · next hfull =>
        split at hs
        · cases hs
          exact h.finish p i
        · cases hs
          exact h.put (fun hc => hfull ((Pipe.full_iff _).2 hc)) _ _

theorem pipereadStart (h : PipeInv s) {p : π} {dst : List Bool} {killed : Bool} {s' : PipeSys π}
    (hs : pipereadStart s p dst killed = .ok s') : PipeInv s' := by
  unfold Xv6.Pipe.pipereadStart at hs
  split at hs
  · split at hs
    · cases hs
      exact h.finish p (-1)
    · cases hs
  · cases hs
    exact h.setCall _

theorem pipereadStep (h : PipeInv s) {p : π} {dst : List Bool} {i : Int} {s' : PipeSys π}
    (hs : pipereadStep s p dst i = .ok s') : PipeInv s' := by
  unfold Xv6.Pipe.pipereadStep at hs
  split at hs
  · cases hs
    exact h.finish p i
  · next ok _ =>
    split at hs
    · cases hs
      exact h.finish p i
    · next hempty =>
      have hne : s.pipe.count ≠ 0 := fun hc => hempty ((Pipe.empty_iff _).2 hc)
      -- the byte is taken in both branches; only a successful copyout delivers it
      cases ok
      · cases hs
        exact h.get hne (.inr rfl) _ _
      · cases hs
        exact h.get hne (.inl rfl) _ _

/-- Every step of the pipe system keeps the invariant. -/
theorem step (h : PipeInv s) {a : Op π} {s' : PipeSys π} (hs : step s a = .ok s') : PipeInv s' := by
  cases a with
  | write p src =>
    simp only [Xv6.Pipe.step] at hs
    split at hs
    · cases hs
      exact h.setCall _
    · cases hs
  | writeStep p killed =>
    simp only [Xv6.Pipe.step] at hs
    split at hs
    · exact h.pipewriteStep hs
    · cases hs
  | read p dst killed =>
    simp only [Xv6.Pipe.step] at hs
    split at hs
    · exact h.pipereadStart hs
    · cases hs
  | readStep p =>
    simp only [Xv6.Pipe.step] at hs
    split at hs
    · exact h.pipereadStep hs
    · cases hs
  | close writable =>
    cases hs
    exact h.close writable

end PipeInv

/-! ## Every run -/

variable [DecidableEq π]

theorem pipeInv_pipealloc : PipeInv (pipeSystem π).init where
  count_le := show pipealloc.count ≤ pipeSize by decide
  fifo := show [] = [] ++ pipealloc.contents by decide
  returned_sublist := List.Sublist.slnil

theorem pipeInv_of_reachable {s : PipeSys π} (h : Reachable (pipeSystem π) s) : PipeInv s :=
  Reachable.rec_inv PipeInv pipeInv_pipealloc (fun _ _ _ hs hstep => hs.step hstep) h

/-- In every reachable state, with any number of readers and writers, the
counters are at most PIPESIZE apart across wraps of either, the bytes from
`nread` on are the accepted bytes not yet taken out, and readers have received
a subsequence of the accepted bytes. -/
theorem pipe_fifo {s : PipeSys π} (h : Reachable (pipeSystem π) s) :
    (s.pipe.nwrite - s.pipe.nread).toNat ≤ pipeSize ∧
    s.accepted = s.taken ++ Ring.window s.pipe.data s.pipe.nread.toNat (s.pipe.nwrite - s.pipe.nread).toNat ∧
    s.returned.Sublist s.accepted := by
  have hinv := pipeInv_of_reachable h
  refine ⟨hinv.count_le, hinv.fifo, ?_⟩
  rw [hinv.fifo]
  exact hinv.returned_sublist.trans (List.sublist_append_left _ _)

set_option maxRecDepth 20000 in
/-- A write of two bytes, then a read of one. -/
theorem pipe_fifo_write_read :
    ∃ s, run (pipeSystem (Fin 2)) (pipeSystem (Fin 2)).init
        [.write 0 [some 1, some 2], .writeStep 0 false, .writeStep 0 false, .read 1 [true] false, .readStep 1] =
        .ok s ∧
      (s.pipe.nwrite - s.pipe.nread).toNat ≤ pipeSize ∧
      s.accepted = s.taken ++ Ring.window s.pipe.data s.pipe.nread.toNat (s.pipe.nwrite - s.pipe.nread).toNat ∧
      s.returned.Sublist s.accepted :=
  Exists.imp (fun s hs => ⟨hs, pipe_fifo (reachable_of_run .init _ s hs)⟩) ⟨_, rfl⟩

/-! ## A byte lost to a faulting copyout -/

/-- Process 0 writes "ab" (bytes 97 and 98) into a fresh pipe.  Process 1 calls
read(fd, addr, 1) with `addr` unmapped: piperead takes 'a' out, its copyout
faults, and it returns 0.  Process 1 reads one byte again, at a good address,
and receives 'b'.  The pipe is then empty: 'a' was accepted and never
delivered, and what readers received is not a prefix of what was written. -/
theorem piperead_drops_byte_on_copyout_fault :
    ∃ s, run (pipeSystem (Fin 2)) (pipeSystem (Fin 2)).init
        [.write 0 [some 97, some 98], .writeStep 0 false, .writeStep 0 false, .writeStep 0 false,
         .read 1 [false] false, .readStep 1,
         .read 1 [true] false, .readStep 1, .readStep 1] = .ok s ∧
      s.ret 0 = some 2 ∧ s.ret 1 = some 1 ∧ s.accepted = [97, 98] ∧ s.returned = [98] ∧
      s.pipe.nread = s.pipe.nwrite := by
  have h : (run (pipeSystem (Fin 2)) (pipeSystem (Fin 2)).init
        [.write 0 [some 97, some 98], .writeStep 0 false, .writeStep 0 false, .writeStep 0 false,
         .read 1 [false] false, .readStep 1,
         .read 1 [true] false, .readStep 1, .readStep 1]).get?.map
      (fun s => decide (s.ret 0 = some 2 ∧ s.ret 1 = some 1 ∧ s.accepted = [97, 98] ∧
        s.returned = [98] ∧ s.pipe.nread = s.pipe.nwrite)) = some true := by
    decide +kernel
  obtain ⟨s, hrun, hs⟩ := Option.map_eq_some_iff.1 h
  exact ⟨s, Result.get?_eq_some.1 hrun, of_decide_eq_true hs⟩

end Xv6.Pipe
