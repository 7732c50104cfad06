import Xv6.Lib.Forest
import Xv6.Proc.Table

/-
  Xv6/Proc/Tree.lean --- the process tree.

  The parent links of the table form a tree rooted at init: every slot in use
  reaches init along parent links, every process but init that is not UNUSED
  has a live parent (neither UNUSED nor ZOMBIE), and UNUSED slots link nowhere
  (`TreeInv`).  Each step keeps it (`treeInv_of_reachable`): fork adds a leaf under a
  live parent, exit redirects the exiting process's children to init before
  it becomes a ZOMBIE, and wait frees a ZOMBIE, which has no children since a
  child's parent is live.  The forest lemmas of `Forest` carry reachability of
  init through each of these.

  Every slot in use also holds its trapframe page and page table (`SlotMem`):
  allocproc takes both with the slot, exit keeps them for the ZOMBIE, and only
  freeproc, which makes the slot UNUSED, gives them back.

  `wait_spec` says what one call of wait does, from any table: it returns,
  freeing a ZOMBIE child or with -1, or it sleeps, and only while the caller
  has children, none a ZOMBIE, and is not killed (`wait_returns_or_sleeps`).
  `process_tree_invariant` puts these together.
-/

set_option autoImplicit false

namespace Xv6.Proc

open Machine Relation

/-- The parent links of the table. -/
def parentOf (t : ProcTable) (i : Fin nProc) : Option (Fin nProc) :=
  (t.proc i).parent

/-- The shape of the process tree. -/
structure TreeInv (t : ProcTable) : Prop where
  init_live : (t.proc t.initproc).state.live
  init_root : (t.proc t.initproc).parent = none
  unused_root : ∀ i, (t.proc i).state = .unused → (t.proc i).parent = none
  parent_live : ∀ i, i ≠ t.initproc → (t.proc i).state ≠ .unused →
    ∃ q, (t.proc i).parent = some q ∧ (t.proc q).state.live
  rooted : ∀ i, (t.proc i).state ≠ .unused → ReflTransGen (Forest.Edge (parentOf t)) i t.initproc

@[simp] theorem live_unused : ProcState.unused.live = false := rfl

@[simp] theorem live_zombie : ProcState.zombie.live = false := rfl

theorem ne_unused_of_live {st : ProcState} (h : st.live) : st ≠ .unused := by
  rintro rfl
  simp at h

namespace TreeInv

variable {t : ProcTable}

/-- No slot links to a slot that is not live. -/
theorem no_child (h : TreeInv t) {q : Fin nProc} (hq : (t.proc q).state.live = false) (x : Fin nProc) :
    (t.proc x).parent ≠ some q := by
  intro hx
  by_cases hu : (t.proc x).state = .unused
  · simp [h.unused_root x hu] at hx
  · by_cases hi : x = t.initproc
    · subst hi
      simp [h.init_root] at hx
    · obtain ⟨q', hq', hlive⟩ := h.parent_live x hi hu
      rw [hx, Option.some.injEq] at hq'
      subst hq'
      simp [hq] at hlive

/-- The tree is a matter of the links, of which slots are UNUSED and of which
are live. -/
theorem congr (h : TreeInv t) {t' : ProcTable} (hinit : t'.initproc = t.initproc)
    (hslot : ∀ i, (t'.proc i).parent = (t.proc i).parent ∧
      ((t'.proc i).state = .unused ↔ (t.proc i).state = .unused) ∧
      (t'.proc i).state.live = (t.proc i).state.live) : TreeInv t' := by
  have hpar : parentOf t' = parentOf t := funext fun i => (hslot i).1
  refine ⟨?_, ?_, fun i hi => ?_, fun i hi hu => ?_, fun i hi => ?_⟩
  · rw [hinit, (hslot _).2.2]
    exact h.init_live
  · rw [hinit, (hslot _).1]
    exact h.init_root
  · rw [(hslot i).1]
    exact h.unused_root i ((hslot i).2.1.1 hi)
  · obtain ⟨q, hq, hlive⟩ := h.parent_live i (hinit ▸ hi) (fun h' => hu ((hslot i).2.1.2 h'))
    exact ⟨q, (hslot i).1.trans hq, (hslot q).2.2.trans hlive⟩
  · rw [hpar, hinit]
    exact h.rooted i (fun h' => hi ((hslot i).2.1.2 h'))

theorem keepsSlot (h : TreeInv t) (p : Fin nProc) {f : Proc → Proc} (hf : KeepsSlot f) :
    TreeInv (t.upd p f) := by
  refine h.congr rfl fun i => ?_
  by_cases hip : i = p
  · subst hip
    obtain ⟨-, hpar, hu, -⟩ := hf (t.proc i)
    simpa [hpar, hu] using hf.live (t.proc i)
  · simp [hip]

/-- allocproc's take-and-free of an UNUSED slot changes no link and no state. -/
theorem takeSlot_freeproc (h : TreeInv t) {np : Fin nProc} (hu : (t.proc np).state = .unused) :
    TreeInv (freeproc (t.takeSlot np) np) := by
  refine h.congr rfl fun i => ?_
  by_cases hi : i = np
  · subst hi
    simp [hu, h.unused_root i hu]
  · simp [hi]

/-- exit: `p`'s children go to init, and `p` becomes a ZOMBIE under its live
parent. -/
theorem exit (h : TreeInv t) {p : Fin nProc} {st : Int} {t' : ProcTable} (hp : (t.proc p).state.live)
    (he : Proc.exit t p st = .ok t') : TreeInv t' := by
  unfold Proc.exit at he
  split at he
  · cases he
  · next hpi =>
    cases he
    -- the states after exit: `p` a ZOMBIE, every other slot as it was
    have hstate : ∀ i, i ≠ p → (((reparent t p).upd p fun pr =>
        { pr with xstate := st, state := .zombie }).proc i).state = (t.proc i).state := by
      intro i hi
      rw [ProcTable.upd_proc_of_ne _ _ hi]
      exact (reparent_proc_slot t).1
    have hinit_ne : t.initproc ≠ p := fun h' => hpi h'.symm
    refine ⟨?_, ?_, fun i hi => ?_, fun i hi hu => ?_, fun i hi => ?_⟩
    · simpa [hstate _ hinit_ne] using h.init_live
    · simp [hinit_ne, h.init_root]
    · -- an UNUSED slot is not `p`, and links nowhere
      have hip : i ≠ p := by
        rintro rfl
        simp at hi
      rw [hstate i hip] at hi
      simp [hip, h.unused_root i hi]
    · by_cases hip : i = p
      · -- `p` keeps its live parent, or gets init if it was its own parent
        subst hip
        obtain ⟨q, hq, hlive⟩ := h.parent_live i hi (ne_unused_of_live hp)
        by_cases hqi : q = i
        · subst hqi
          refine ⟨t.initproc, by simp [hq], ?_⟩
          simpa [hstate _ hinit_ne] using h.init_live
        · refine ⟨q, by simp [hq, hqi], ?_⟩
          simpa [hstate q hqi] using hlive
      · rw [hstate i hip] at hu
        obtain ⟨q, hq, hlive⟩ := h.parent_live i hi hu
        by_cases hqp : q = p
        · subst hqp
          refine ⟨t.initproc, by simp [hip, hq], ?_⟩
          simpa [hstate _ hinit_ne] using h.init_live
        · refine ⟨q, by simp [hip, hq, hqp], ?_⟩
          simpa [hstate q hqp] using hlive
    · -- links into `p` now go to init; every other link stays
      have hu : (t.proc i).state ≠ .unused := by
        by_cases hip : i = p
        · subst hip
          exact ne_unused_of_live hp
        · rwa [hstate i hip] at hi
      refine Forest.reaches_redirect (p := p) (fun x => ?_) (h.rooted i hu)
      by_cases hx : (t.proc x).parent = some p
      · refine .inr ⟨hx, ?_⟩
        by_cases hxp : x = p
        · subst hxp
          simp [parentOf, hx]
        · simp [parentOf, hxp, hx]
      · refine .inl ?_
        by_cases hxp : x = p
        · subst hxp
          simp [parentOf, hx]
        · simp [parentOf, hxp, hx]

/-- fork: a new leaf, the slot allocproc took, under the live caller. -/
theorem fork (h : TreeInv t) {p : Fin nProc} (hp : (t.proc p).state.live) (mem copy : Bool) :
    TreeInv (Proc.fork t p mem copy).1 := by
  rcases fork_cases t p mem copy with hf | ⟨np, hu, hf⟩ | ⟨np, hu, -, hf⟩ <;> rw [hf]
  · exact h
  · exact h.takeSlot_freeproc hu
  · dsimp only
    have hnp : np ≠ p := fun h' => ne_unused_of_live hp (h' ▸ hu)
    have hinit_ne : t.initproc ≠ np := fun h' => ne_unused_of_live h.init_live (h' ▸ hu)
    have hnone : ∀ x, (t.proc x).parent ≠ some np := h.no_child (by simp [hu])
    refine ⟨?_, ?_, fun i hi => ?_, fun i hi hnu => ?_, fun i hi => ?_⟩
    · simpa [hinit_ne] using h.init_live
    · simp [hinit_ne, h.init_root]
    · have hinp : i ≠ np := by
        rintro rfl
        simp at hi
      simp only [ProcTable.upd_proc_of_ne _ _ hinp, takeSlot_proc_of_ne _ hinp] at hi ⊢
      exact h.unused_root i hi
    · by_cases hinp : i = np
      · subst hinp
        exact ⟨p, by simp, by simpa [hnp.symm] using hp⟩
      · simp only [ProcTable.upd_proc_of_ne _ _ hinp, takeSlot_proc_of_ne _ hinp] at hnu ⊢
        obtain ⟨q, hq, hlive⟩ := h.parent_live i hi hnu
        have hqnp : q ≠ np := by
          rintro rfl
          exact hnone i hq
        exact ⟨q, hq, by simpa [hqnp] using hlive⟩
    · -- only the new leaf's link changed, and no slot linked to it
      have hsame : ∀ x, x ≠ np → parentOf ((t.takeSlot np).upd np fun pr =>
          { pr with a0 := 0, parent := some p, state := .runnable }) x = parentOf t x := by
        intro x hx
        simp [parentOf, hx]
      have hp_root := Forest.reaches_frame hsame hnone hnp.symm (h.rooted p (ne_unused_of_live hp))
      by_cases hinp : i = np
      · subst hinp
        exact .head (by simp [Forest.Edge, parentOf]) hp_root
      · simp only [ProcTable.upd_proc_of_ne _ _ hinp, takeSlot_proc_of_ne _ hinp] at hi
        exact Forest.reaches_frame hsame hnone hinp (h.rooted i hi)

/-- wait: a ZOMBIE child is freed; it has no children of its own. -/
theorem wait (h : TreeInv t) {p : Fin nProc} {addr : Nat} {ok : Bool} {t' : ProcTable} {r : Int}
    {o : Option Int} (hw : Proc.wait t p addr ok = .ok (t', r, o)) : TreeInv t' := by
  rcases wait_eq_ok hw with rfl | ⟨c, -, hz, rfl⟩
  · exact h
  · have hinit_ne : t.initproc ≠ c := fun h' => by simpa [h', hz] using h.init_live
    have hnone : ∀ x, (t.proc x).parent ≠ some c := h.no_child (by simp [hz])
    refine ⟨?_, ?_, fun i hi => ?_, fun i hi hnu => ?_, fun i hi => ?_⟩
    · simpa [hinit_ne] using h.init_live
    · simp [hinit_ne, h.init_root]
    · by_cases hic : i = c
      · subst hic
        simp
      · simp only [freeproc_proc_of_ne _ hic] at hi ⊢
        exact h.unused_root i hi
    · have hic : i ≠ c := by
        rintro rfl
        simp at hnu
      simp only [freeproc_proc_of_ne _ hic] at hnu ⊢
      obtain ⟨q, hq, hlive⟩ := h.parent_live i hi hnu
      have hqc : q ≠ c := by
        rintro rfl
        exact hnone i hq
      exact ⟨q, hq, by simpa [hqc] using hlive⟩
    · have hic : i ≠ c := by
        rintro rfl
        simp at hi
      simp only [freeproc_proc_of_ne _ hic] at hi
      refine Forest.reaches_frame (fun x hx => ?_) hnone hic (h.rooted i hi)
      simp [parentOf, hx]

end TreeInv

theorem treeInv_userinit : TreeInv userinit := by
  refine ⟨by decide, by decide, by decide, by decide, fun i hi => ?_⟩
  -- only init is in use at boot
  have hi0 : i = userinit.initproc := by
    revert i
    decide
  rw [hi0]

/-- Every reachable table is a tree rooted at init. -/
theorem treeInv_of_reachable {t : ProcTable} (h : Reachable procSystem t) : TreeInv t := by
  refine Reachable.rec_inv TreeInv treeInv_userinit (fun t op t' hI hs => ?_) h
  exact step_preserves TreeInv (fun t p st t' hI hp he => hI.exit hp he)
    (fun t p f hI hf => hI.keepsSlot p hf) (fun t p mem copy hI hp => hI.fork hp mem copy)
    (fun t p addr ok t' r o hI _ hw => hI.wait hw) hI hs

/-! ## The memory of a slot -/

/-- Every slot in use holds its trapframe page and its page table: allocproc
takes both with the slot, and only freeproc, which makes the slot UNUSED,
gives them back. -/
def SlotMem (t : ProcTable) : Prop :=
  ∀ i, (t.proc i).state ≠ .unused → (t.proc i).trapframe = true ∧ (t.proc i).pagetable = true

namespace SlotMem

variable {t : ProcTable}

/-- A change of slot `c` alone that leaves it holding its memory, or UNUSED. -/
theorem update (h : SlotMem t) {t' : ProcTable} (c : Fin nProc)
    (hc : (t'.proc c).state ≠ .unused → (t'.proc c).trapframe = true ∧ (t'.proc c).pagetable = true)
    (hother : ∀ j, j ≠ c → t'.proc j = t.proc j) : SlotMem t' := by
  intro i hi
  by_cases hic : i = c
  · subst hic
    exact hc hi
  · rw [hother i hic] at hi ⊢
    exact h i hi

theorem keepsSlot (h : SlotMem t) (p : Fin nProc) {f : Proc → Proc} (hf : KeepsSlot f) :
    SlotMem (t.upd p f) := by
  obtain ⟨-, -, hu, -, htf, hpt⟩ := hf (t.proc p)
  refine h.update p (fun hp => ?_) fun j hj => by simp [hj]
  rw [ProcTable.upd_proc_self, htf, hpt]
  exact h p fun h' => hp (by rw [ProcTable.upd_proc_self]; exact hu.2 h')

theorem freeproc (h : SlotMem t) (c : Fin nProc) : SlotMem (freeproc t c) :=
  h.update c (by simp) fun j hj => by simp [hj]

theorem takeSlot (h : SlotMem t) (np : Fin nProc) : SlotMem (t.takeSlot np) :=
  h.update np (by simp) fun j hj => by simp [hj]

/-- exit: the process keeps its memory as a ZOMBIE, and its children only
change parent. -/
theorem exit (h : SlotMem t) {p : Fin nProc} {st : Int} {t' : ProcTable} (hp : (t.proc p).state.live)
    (he : Proc.exit t p st = .ok t') : SlotMem t' := by
  unfold Proc.exit at he
  split at he
  · cases he
  · cases he
    intro i hi
    obtain ⟨hs, htf, hpt⟩ := @reparent_proc_slot t p i
    by_cases hip : i = p
    · subst hip
      rw [ProcTable.upd_proc_self]
      dsimp only
      rw [htf, hpt]
      exact h i (ne_unused_of_live hp)
    · rw [ProcTable.upd_proc_of_ne _ _ hip, hs] at hi
      rw [ProcTable.upd_proc_of_ne _ _ hip, htf, hpt]
      exact h i hi

theorem fork (h : SlotMem t) (p : Fin nProc) (mem copy : Bool) : SlotMem (Proc.fork t p mem copy).1 := by
  rcases fork_cases t p mem copy with hf | ⟨np, -, hf⟩ | ⟨np, -, -, hf⟩ <;> rw [hf]
  · exact h
  · exact (h.takeSlot np).freeproc np
  · exact (h.takeSlot np).update np (by simp) fun j hj => by simp [hj]

theorem wait (h : SlotMem t) {p : Fin nProc} {addr : Nat} {ok : Bool} {t' : ProcTable} {r : Int}
    {o : Option Int} (hw : Proc.wait t p addr ok = .ok (t', r, o)) : SlotMem t' := by
  rcases wait_eq_ok hw with rfl | ⟨c, -, -, rfl⟩
  · exact h
  · exact h.freeproc c

end SlotMem

theorem slotMem_userinit : SlotMem userinit := by
  unfold SlotMem
  decide

/-- In every reachable table each slot in use holds its trapframe and page
table. -/
theorem slotMem_of_reachable {t : ProcTable} (h : Reachable procSystem t) : SlotMem t := by
  refine Reachable.rec_inv SlotMem slotMem_userinit (fun t op t' hI hs => ?_) h
  exact step_preserves SlotMem (fun t p st t' hI hp he => hI.exit hp he)
    (fun t p f hI hf => hI.keepsSlot p hf) (fun t p mem copy hI _ => hI.fork p mem copy)
    (fun t p addr ok t' r o hI _ hw => hI.wait hw) hI hs

/-! ## wait -/

/-- What one call of wait by `p` does, from any table.  With a ZOMBIE child
(`c`, the first in table order) it returns -1 and changes nothing if the copy
of the status to a non-zero `addr` fails, and otherwise frees `c` and returns
its pid; with none, it returns -1 and changes nothing if `p` has no children or
is killed, and sleeps otherwise. -/
theorem wait_spec (t : ProcTable) (p : Fin nProc) (addr : Nat) (ok : Bool) :
    (∃ c, (t.proc c).parent = some p ∧ (t.proc c).state = .zombie ∧
      (∀ j < c, ¬((t.proc j).parent = some p ∧ (t.proc j).state = .zombie)) ∧
      wait t p addr ok = if addr ≠ 0 ∧ ok = false then .ok (t, -1, none)
        else .ok (freeproc t c, (t.proc c).pid, if addr ≠ 0 then some (t.proc c).xstate else none)) ∨
    ((∀ c, ¬((t.proc c).parent = some p ∧ (t.proc c).state = .zombie)) ∧
      wait t p addr ok =
        if (∀ c, (t.proc c).parent ≠ some p) ∨ (t.proc p).killed then .ok (t, -1, none) else .wait) := by
  unfold wait
  split
  · next c hc =>
    obtain ⟨hcp, hbefore⟩ := Scan.find?_finRange_eq_some.1 hc
    simp only [decide_eq_true_eq] at hcp
    refine .inl ⟨c, hcp.1, hcp.2, fun j hj => by simpa using hbefore j hj, rfl⟩
  · next hnone =>
    refine .inr ⟨fun c => by simpa using Scan.find?_finRange_eq_none.1 hnone c, ?_⟩
    -- `havekids` is the scan for any child
    have hkids : (!(List.finRange nProc).any (fun pp => (t.proc pp).parent = some p)) =
        decide (∀ c, (t.proc c).parent ≠ some p) := by
      rw [Bool.eq_iff_iff]
      simp
    rw [hkids]
    by_cases hk : ∀ c, (t.proc c).parent ≠ some p <;> by_cases hkill : (t.proc p).killed <;>
      simp [hk, hkill]

/-- The ways a call of wait(addr) by `p` returns: with the pid of a ZOMBIE
child, whose status it copies to `addr` (unless `addr` is 0), freeing that
child (UNUSED, its trapframe and page table given back) and changing no other
slot; with -1 and nothing changed, when `p` has no children or is killed; or
with -1 and nothing changed, the ZOMBIE child left unfreed, when the copy to
`addr` fails. -/
def WaitReturns (t : ProcTable) (p : Fin nProc) (addr : Nat) (ok : Bool) (t' : ProcTable) (r : Int)
    (o : Option Int) : Prop :=
  (∃ c, (t.proc c).parent = some p ∧ (t.proc c).state = .zombie ∧ r = (t.proc c).pid ∧
      o = (if addr ≠ 0 then some (t.proc c).xstate else none) ∧ t' = freeproc t c ∧
      (t'.proc c).state = .unused ∧ (t'.proc c).trapframe = false ∧ (t'.proc c).pagetable = false ∧
      ∀ j, j ≠ c → t'.proc j = t.proc j) ∨
  (r = -1 ∧ t' = t ∧ o = none ∧ ((∀ c, (t.proc c).parent ≠ some p) ∨ (t.proc p).killed)) ∨
  (r = -1 ∧ t' = t ∧ o = none ∧ addr ≠ 0 ∧ ok = false ∧
      ∃ c, (t.proc c).parent = some p ∧ (t.proc c).state = .zombie)

theorem waitReturns_of_eq_ok {t t' : ProcTable} {p : Fin nProc} {addr : Nat} {ok : Bool} {r : Int}
    {o : Option Int} (h : wait t p addr ok = .ok (t', r, o)) : WaitReturns t p addr ok t' r o := by
  rcases wait_spec t p addr ok with ⟨c, hcp, hz, -, hw⟩ | ⟨-, hw⟩ <;> rw [hw] at h
  · split at h
    · next hfail =>
      cases h
      exact .inr (.inr ⟨rfl, rfl, rfl, hfail.1, hfail.2, c, hcp, hz⟩)
    · cases h
      exact .inl ⟨c, hcp, hz, rfl, rfl, rfl, by simp, by simp, by simp, fun j hj => by simp [hj]⟩
  · split at h
    · next hnone =>
      cases h
      exact .inr (.inl ⟨rfl, rfl, rfl, hnone⟩)
    · cases h

/-! ## The process tree -/

/-- A call of wait(addr) by `p` returns as `WaitReturns` lists, or sleeps, and
it sleeps only when `p` has children, none of them a ZOMBIE, and is not
killed: so it returns whenever `p` has a ZOMBIE child, has no children, or is
killed. -/
theorem wait_returns_or_sleeps (t : ProcTable) (p : Fin nProc) (addr : Nat) (ok : Bool) :
    (∃ t' r o, wait t p addr ok = .ok (t', r, o) ∧ WaitReturns t p addr ok t' r o) ∨
      (wait t p addr ok = .wait ∧ (∃ c, (t.proc c).parent = some p) ∧
        (∀ c, ¬((t.proc c).parent = some p ∧ (t.proc c).state = .zombie)) ∧ (t.proc p).killed = false) := by
  -- whenever wait completes, `waitReturns_of_eq_ok` reads off how
  have hret : ∀ x, wait t p addr ok = .ok x →
      ∃ t' r o, wait t p addr ok = .ok (t', r, o) ∧ WaitReturns t p addr ok t' r o := by
    rintro ⟨t', r, o⟩ hw
    exact ⟨t', r, o, hw, waitReturns_of_eq_ok hw⟩
  rcases wait_spec t p addr ok with ⟨c, -, -, -, hw⟩ | ⟨hnz, hw⟩
  · left
    split at hw
    · exact hret _ hw
    · exact hret _ hw
  · split at hw
    · exact .inl (hret _ hw)
    · next hcond =>
      right
      push Not at hcond
      obtain ⟨⟨c, hc⟩, hkill⟩ := hcond
      exact ⟨hw, ⟨c, hc⟩, hnz, by simpa using hkill⟩

/-- In every reachable state the parent links form a tree rooted at init:
every process other than init that is not UNUSED has a parent that is neither
UNUSED nor a ZOMBIE, every slot in use reaches init, init has no parent, and no
slot lies on a cycle of parent links.  Every slot in use holds its trapframe
and page table.  And a call of wait returns as `WaitReturns` lists (a ZOMBIE
child freed with its trapframe and page table given back, or -1), and sleeps
only when the caller has children, none a ZOMBIE, and is not killed. -/
theorem process_tree_invariant {t : ProcTable} (h : Reachable procSystem t) :
    TreeInv t ∧ (∀ i, ¬ TransGen (Forest.Edge (parentOf t)) i i) ∧ SlotMem t ∧
    ∀ p addr ok,
      (∃ t' r o, wait t p addr ok = .ok (t', r, o) ∧ WaitReturns t p addr ok t' r o) ∨
        (wait t p addr ok = .wait ∧ (∃ c, (t.proc c).parent = some p) ∧
          (∀ c, ¬((t.proc c).parent = some p ∧ (t.proc c).state = .zombie)) ∧ (t.proc p).killed = false) := by
  have hT := treeInv_of_reachable h
  refine ⟨hT, fun i => ?_, slotMem_of_reachable h, wait_returns_or_sleeps t⟩
  by_cases hu : (t.proc i).state = .unused
  · -- an UNUSED slot has no parent, so no link leaves it
    intro hcyc
    obtain ⟨m, him, -⟩ := TransGen.head'_iff.1 hcyc
    have : (t.proc i).parent = some m := him
    simp [hT.unused_root i hu] at this
  · exact Forest.not_transGen_self hT.init_root (hT.rooted i hu)

/-- Init forks a child, which exits: init then has a ZOMBIE child to wait for. -/
theorem process_tree_invariant_zombie_child :
    ∃ t, run procSystem userinit [.fork 0 true true, .exit 1 3] = .ok t ∧
      TreeInv t ∧ (∀ i, ¬ TransGen (Forest.Edge (parentOf t)) i i) ∧ SlotMem t ∧
      ∀ p addr ok,
        (∃ t' r o, wait t p addr ok = .ok (t', r, o) ∧ WaitReturns t p addr ok t' r o) ∨
          (wait t p addr ok = .wait ∧ (∃ c, (t.proc c).parent = some p) ∧
            (∀ c, ¬((t.proc c).parent = some p ∧ (t.proc c).state = .zombie)) ∧ (t.proc p).killed = false) :=
  Exists.imp (fun t ht => ⟨ht, process_tree_invariant (reachable_of_run .init _ t ht)⟩) ⟨_, rfl⟩

end Xv6.Proc
