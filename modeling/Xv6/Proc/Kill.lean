import Xv6.Proc.Table

/-
  Xv6/Proc/Kill.lean --- which slot kill(pid) marks, and how a process is born.

  The zeroed table and freeproc leave every UNUSED slot with pid 0, and
  allocproc gives every slot it takes the next pid, which is positive.  So in
  every reachable state a slot is UNUSED exactly when its pid is 0
  (`PidInv`, `pidInv_of_reachable`).  kill(pid) for pid ≠ 0 therefore marks a
  process that is not UNUSED (`kill_marks_used`).  kill(0) is different: it
  marks the first slot whose pid is 0, which is the first UNUSED slot, the one
  the next allocproc takes (`kill_zero_finds_allocproc_slot`); allocproc does
  not clear `killed`, so the next process forked is born killed
  (`kill_zero_kills_next_child`).
-/

set_option autoImplicit false

namespace Xv6.Proc

open Machine

/-! ## UNUSED slots are the slots with pid 0 -/

/-- A slot's pid agrees with its state: 0 when UNUSED, positive otherwise. -/
def PidOk (pr : Proc) : Prop :=
  (pr.state = .unused → pr.pid = 0) ∧ (pr.state ≠ .unused → 0 < pr.pid)

instance : DecidablePred PidOk := fun _ => inferInstanceAs (Decidable (_ ∧ _))

/-- The pid invariant: every slot's pid agrees with its state, and the next
pid is positive. -/
structure PidInv (t : ProcTable) : Prop where
  nextpid_pos : 0 < t.nextpid
  slot : ∀ i, PidOk (t.proc i)

namespace PidInv

variable {t : ProcTable}

/-- A slot is UNUSED exactly when its pid is 0. -/
theorem unused_iff (h : PidInv t) (i : Fin nProc) : (t.proc i).state = .unused ↔ (t.proc i).pid = 0 :=
  ⟨(h.slot i).1, fun hp => by_contra fun hu => by have := (h.slot i).2 hu; omega⟩

/-- Changing one slot to a slot whose pid agrees with its state. -/
theorem upd (h : PidInv t) (p : Fin nProc) {f : Proc → Proc} (hf : PidOk (f (t.proc p))) :
    PidInv (t.upd p f) := by
  refine ⟨h.nextpid_pos, fun i => ?_⟩
  by_cases hip : i = p
  · subst hip
    simpa using hf
  · simpa [hip] using h.slot i

theorem keepsSlot (h : PidInv t) (p : Fin nProc) {f : Proc → Proc} (hf : KeepsSlot f) :
    PidInv (t.upd p f) := by
  obtain ⟨hpid, -, hu, -⟩ := hf (t.proc p)
  refine h.upd p ⟨fun h' => ?_, fun h' => ?_⟩ <;> rw [hpid]
  · exact (h.slot p).1 (hu.1 h')
  · exact (h.slot p).2 (fun h'' => h' (hu.2 h''))

theorem freeproc (h : PidInv t) (p : Fin nProc) : PidInv (Proc.freeproc t p) :=
  h.upd p ⟨fun _ => rfl, fun h' => absurd rfl h'⟩

theorem takeSlot (h : PidInv t) (p : Fin nProc) : PidInv (t.takeSlot p) := by
  have hpos := h.nextpid_pos
  refine ⟨by simp only [takeSlot_nextpid]; omega, fun i => ?_⟩
  by_cases hip : i = p
  · subst hip
    simp only [takeSlot_proc_self]
    exact ⟨fun h' => (by cases h'), fun _ => hpos⟩
  · simpa [hip] using h.slot i

theorem reparent (h : PidInv t) (p : Fin nProc) : PidInv (Proc.reparent t p) := by
  refine ⟨h.nextpid_pos, fun i => ?_⟩
  simp only [reparent_proc]
  split
  · exact h.slot i
  · exact h.slot i

theorem exit (h : PidInv t) {p : Fin nProc} {st : Int} {t' : ProcTable} (hp : (t.proc p).state ≠ .unused)
    (he : Proc.exit t p st = .ok t') : PidInv t' := by
  unfold Proc.exit at he
  split at he
  · cases he
  · cases he
    -- the exiting slot keeps its positive pid, and a ZOMBIE is not UNUSED
    refine (h.reparent p).upd p ⟨fun h' => (by cases h'), fun _ => ?_⟩
    have := (h.slot p).2 hp
    simp only [reparent_proc]
    split <;> exact this

theorem fork (h : PidInv t) (p : Fin nProc) (mem copy : Bool) : PidInv (Proc.fork t p mem copy).1 := by
  rcases fork_cases t p mem copy with hf | ⟨np, -, hf⟩ | ⟨np, -, -, hf⟩ <;> rw [hf]
  · exact h
  · exact (h.takeSlot np).freeproc np
  · dsimp only
    refine (h.takeSlot np).upd np ⟨fun h' => (by cases h'), fun _ => ?_⟩
    simpa using h.nextpid_pos

theorem wait (h : PidInv t) {p : Fin nProc} {addr : Nat} {ok : Bool} {t' : ProcTable} {r : Int}
    {o : Option Int} (hw : Proc.wait t p addr ok = .ok (t', r, o)) : PidInv t' := by
  rcases wait_eq_ok hw with rfl | ⟨c, -, -, rfl⟩
  · exact h
  · exact h.freeproc c

end PidInv

theorem pidInv_userinit : PidInv userinit :=
  ⟨by decide, by decide⟩

/-- In every reachable state, a slot is UNUSED exactly when its pid is 0. -/
theorem pidInv_of_reachable {t : ProcTable} (h : Reachable procSystem t) : PidInv t := by
  refine Reachable.rec_inv PidInv pidInv_userinit (fun t op t' hI hs => ?_) h
  refine step_preserves PidInv (fun t p st t' hI hp he => ?_) (fun t p f hI hf => hI.keepsSlot p hf)
    (fun t p mem copy hI _ => hI.fork p mem copy) (fun t p addr ok t' r o hI _ hw => hI.wait hw) hI hs
  have hu : (t.proc p).state ≠ .unused := by
    intro hu
    simp [ProcState.live, hu] at hp
  exact hI.exit hu he

/-! ## The slot kill marks -/

/-- What kill does: with no slot of that pid, nothing, and -1; otherwise it
marks the first slot in table order with that pid, and returns 0. -/
theorem kill_spec (t : ProcTable) (pid : Int) :
    (kill t pid = (t, -1) ∧ ∀ i, (t.proc i).pid ≠ pid) ∨
    ∃ p, (t.proc p).pid = pid ∧ (∀ j < p, (t.proc j).pid ≠ pid) ∧
      kill t pid = (t.upd p fun pr =>
        { pr with killed := true, state := if pr.state = .sleeping then .runnable else pr.state }, 0) := by
  unfold kill
  split
  · next p hp =>
    obtain ⟨hpid, hbefore⟩ := Scan.find?_finRange_eq_some.1 hp
    exact .inr ⟨p, by simpa using hpid, fun j hj => by simpa using hbefore j hj, rfl⟩
  · next hnone =>
    exact .inl ⟨rfl, fun i => by simpa using Scan.find?_finRange_eq_none.1 hnone i⟩

/-- In a reachable state, kill(pid) with pid ≠ 0 returns 0 exactly when some
process that is not UNUSED has that pid, and marks only such a process. -/
theorem kill_marks_used {t : ProcTable} (h : Reachable procSystem t) {pid : Int} (hpid : pid ≠ 0) :
    ((kill t pid).2 = 0 ↔ ∃ p, (t.proc p).state ≠ .unused ∧ (t.proc p).pid = pid) ∧
    ∀ q, ((kill t pid).1.proc q).killed ≠ (t.proc q).killed →
      (t.proc q).state ≠ .unused ∧ (t.proc q).pid = pid := by
  have hI := pidInv_of_reachable h
  rcases kill_spec t pid with ⟨hk, hnone⟩ | ⟨p, hp, -, hk⟩ <;> rw [hk]
  · refine ⟨⟨fun h => by simp at h, fun ⟨p, _, hp⟩ => absurd hp (hnone p)⟩, fun q hq => ?_⟩
    exact absurd rfl hq
  · -- the marked slot has pid `pid ≠ 0`, so it is not UNUSED
    have hu : (t.proc p).state ≠ .unused := fun hu => hpid (hp ▸ (hI.slot p).1 hu)
    refine ⟨⟨fun _ => ⟨p, hu, hp⟩, fun _ => rfl⟩, fun q hq => ?_⟩
    by_cases hqp : q = p
    · subst hqp
      exact ⟨hu, hp⟩
    · simp [hqp] at hq

set_option maxRecDepth 20000 in
/-- After init forks a child, kill of the child's pid 2. -/
theorem kill_marks_used_forked :
    ∃ t, run procSystem userinit [.fork 0 true true] = .ok t ∧ (2 : Int) ≠ 0 ∧
      ((kill t 2).2 = 0 ↔ ∃ p, (t.proc p).state ≠ .unused ∧ (t.proc p).pid = 2) ∧
      ∀ q, ((kill t 2).1.proc q).killed ≠ (t.proc q).killed → (t.proc q).state ≠ .unused ∧ (t.proc q).pid = 2 :=
  Exists.imp (fun t ht => ⟨ht, by decide, kill_marks_used (reachable_of_run .init _ t ht) (by decide)⟩) ⟨_, rfl⟩

/-- In a reachable state, kill(0) looks for the same slot as allocproc: the
first UNUSED one. -/
theorem kill_zero_finds_allocproc_slot {t : ProcTable} (h : Reachable procSystem t) :
    (List.finRange nProc).find? (fun p => (t.proc p).pid = 0) =
      (List.finRange nProc).find? (fun p => (t.proc p).state = .unused) := by
  have hI := pidInv_of_reachable h
  congr 1
  funext p
  simp [hI.unused_iff p]

set_option maxRecDepth 20000 in
/-- After init forks a child. -/
theorem kill_zero_finds_allocproc_slot_forked :
    ∃ t, run procSystem userinit [.fork 0 true true] = .ok t ∧
      (List.finRange nProc).find? (fun p => (t.proc p).pid = 0) =
        (List.finRange nProc).find? (fun p => (t.proc p).state = .unused) :=
  Exists.imp (fun t ht => ⟨ht, kill_zero_finds_allocproc_slot (reachable_of_run .init _ t ht)⟩) ⟨_, rfl⟩

/-! ## A child born killed -/

/-- From boot, init calls kill(0) and then fork().  kill(0) returns 0 to init
and marks slot 1, which is UNUSED; fork's allocproc takes slot 1, and the
child, RUNNABLE with init as its parent, is born killed. -/
theorem kill_zero_kills_next_child :
    ∃ t, Reachable procSystem t ∧ (t.proc 0).a0 = 0 ∧
      (t.proc 1).state = .unused ∧ (t.proc 1).killed = true ∧
      ∃ t', procSystem.step t (.fork 0 true true) = .ok t' ∧
        (t'.proc 0).a0 = (t'.proc 1).pid ∧ (t'.proc 1).parent = some 0 ∧
        (t'.proc 1).state = .runnable ∧ (t'.proc 1).killed = true := by
  have hrun : (run procSystem procSystem.init [.kill 0 0]).get?.map (fun t =>
      (t.proc 0).a0 == 0 && (t.proc 1).state == .unused && (t.proc 1).killed &&
        (procSystem.step t (.fork 0 true true)).get?.map (fun t' =>
          (t'.proc 0).a0 == (t'.proc 1).pid && (t'.proc 1).parent == some 0 &&
            (t'.proc 1).state == .runnable && (t'.proc 1).killed) == some true) = some true := by
    decide
  obtain ⟨t, ht, hP⟩ := exists_reachable_of_run_map hrun
  simp only [Bool.and_eq_true, beq_iff_eq] at hP
  obtain ⟨⟨⟨ha0, hu⟩, hk⟩, hfork⟩ := hP
  obtain ⟨t', hs, hQ⟩ := Option.map_eq_some_iff.1 hfork
  simp only [Bool.and_eq_true, beq_iff_eq] at hQ
  obtain ⟨⟨⟨ha0', hpar⟩, hst⟩, hk'⟩ := hQ
  exact ⟨t, ht, ha0, hu, hk, t', Result.get?_eq_some.1 hs, ha0', hpar, hst, hk'⟩

end Xv6.Proc
