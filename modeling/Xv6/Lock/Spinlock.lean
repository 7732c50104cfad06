import Mathlib
import Xv6.Lib.Machine

/-
  Xv6/Lock/Spinlock.lean --- `push_off` and `pop_off` of kernel/spinlock.c.

  A hart's interrupt nesting is the enable bit `sstatus.SIE` (`intr_get`,
  `intr_on`, `intr_off`) and two fields of its `struct cpu`: the depth
  `noff` and the flag `intena` that the outermost `push_off` saved.  The
  calls of one CPU form a system (`cpuSystem`) over these three values.

  The invariant `Nested e d` ties a state to the depth `d` it is at and to
  `e`, the interrupt state outside every `push_off`: at depth 0 it is the
  enable bit itself, inside it is the saved `intena` while the enable bit is
  clear.  Each call keeps it (`Nested.pushOff`, `Nested.popOff`), so a run of
  calls in which every `pop_off` matches an earlier `push_off` keeps it
  (`Nested.run`), so the closing `pop_off` of such a run restores the enable
  bit the outermost `push_off` saw; a run in which one does not match panics
  (`run_panics_of_not_matched`).

  `noff` is an `int` in the source; it counts nested calls and never comes
  near 2^31, so it is an `Int` here.
-/

set_option autoImplicit false

namespace Xv6.Lock

open Machine

/-- The interrupt state of one hart: the enable bit, and the fields of its
`struct cpu` that `push_off` and `pop_off` keep. -/
structure CpuState where
  /-- `sstatus.SIE`: are device interrupts enabled? -/
  sie : Bool
  /-- Depth of `push_off()` nesting. -/
  noff : Int
  /-- Were interrupts enabled before `push_off()`? -/
  intena : Bool
  deriving DecidableEq, Repr

/-- `push_off()`: turn interrupts off, saving whether they were on when this
is the outermost call. -/
def pushOff (c : CpuState) : CpuState :=
  let old := c.sie
  let c := { c with sie := false }
  let c := if c.noff = 0 then { c with intena := old } else c
  { c with noff := c.noff + 1 }

/-- `pop_off()`: undo one `push_off`, turning interrupts back on at the
outermost one if they were on before it. -/
def popOff (c : CpuState) : Result CpuState :=
  if c.sie then .panic "pop_off - interruptible"
  else if c.noff < 1 then .panic "pop_off"
  else
    let c := { c with noff := c.noff - 1 }
    if c.noff = 0 ∧ c.intena = true then .ok { c with sie := true } else .ok c

@[simp] theorem pushOff_sie (c : CpuState) : (pushOff c).sie = false := by
  unfold pushOff
  dsimp only
  split <;> rfl

@[simp] theorem pushOff_noff (c : CpuState) : (pushOff c).noff = c.noff + 1 := by
  unfold pushOff
  dsimp only
  split <;> rfl

theorem pushOff_intena (c : CpuState) :
    (pushOff c).intena = if c.noff = 0 then c.sie else c.intena := by
  unfold pushOff
  dsimp only
  split <;> rfl

/-- `pop_off` with interrupts off and a positive depth: one level less, and
the enable bit turned on exactly at the outermost level with `intena` set. -/
theorem popOff_eq {c : CpuState} (hsie : c.sie = false) (h1 : 1 ≤ c.noff) :
    popOff c = .ok ⟨decide (c.noff - 1 = 0) && c.intena, c.noff - 1, c.intena⟩ := by
  unfold popOff
  rw [if_neg (by simp [hsie]), if_neg (by omega)]
  by_cases h0 : c.noff - 1 = 0
  · cases c.intena <;> simp [h0, hsie]
  · simp [h0, hsie]

/-- `pop_off` at depth 0 panics, on the first check that fails. -/
theorem popOff_panics {c : CpuState} (h : c.noff < 1) : ∃ msg, popOff c = .panic msg := by
  unfold popOff
  by_cases hsie : c.sie = true
  · exact ⟨_, if_pos hsie⟩
  · exact ⟨_, by rw [if_neg hsie, if_pos h]⟩

/-- The calls of one CPU. -/
inductive Call where
  | pushOff
  | popOff
  deriving DecidableEq, Repr

/-- One call on one CPU. -/
def cpuStep (c : CpuState) : Call → Result CpuState
  | .pushOff => .ok (pushOff c)
  | .popOff => popOff c

/-- One CPU making these calls, from the state `c₀`. -/
def cpuSystem (c₀ : CpuState) : System CpuState Call := ⟨c₀, cpuStep⟩

/-! ## Depth of a sequence of calls -/

/-- `+1` for a `push_off`, `-1` for a `pop_off`. -/
def Call.delta : Call → Int
  | .pushOff => 1
  | .popOff => -1

/-- The nesting depth a sequence of calls leaves: its `push_off`s minus its
`pop_off`s. -/
def depth (cs : List Call) : Int := (cs.map Call.delta).sum

/-- Every `pop_off` matches an earlier `push_off`: no initial segment has more
`pop_off`s than `push_off`s. -/
def Matched (cs : List Call) : Prop := ∀ p ∈ cs.inits, 0 ≤ depth p

instance (cs : List Call) : Decidable (Matched cs) :=
  inferInstanceAs (Decidable (∀ p ∈ cs.inits, _))

@[simp] theorem depth_nil : depth [] = 0 := rfl

@[simp] theorem depth_cons (a : Call) (cs : List Call) : depth (a :: cs) = a.delta + depth cs := by
  simp [depth]

@[simp] theorem depth_append (cs ds : List Call) : depth (cs ++ ds) = depth cs + depth ds := by
  simp [depth]

theorem matched_iff {cs : List Call} : Matched cs ↔ ∀ p, p <+: cs → 0 ≤ depth p := by
  simp only [Matched, List.mem_inits]

theorem cpuStep_noff {x y : CpuState} {b : Call} (h : cpuStep x b = .ok y) : y.noff = x.noff + b.delta := by
  cases b with
  | pushOff =>
    cases h
    simp [Call.delta]
  | popOff =>
    simp only [cpuStep, popOff] at h
    split at h
    · cases h
    · split at h
      · cases h
      · split at h <;> (cases h; simp [Call.delta, sub_eq_add_neg])

/-! ## The nesting invariant -/

/-- The state `c` at depth `d` of a hart whose interrupts are `e` outside
every `push_off`. -/
structure Nested (e : Bool) (d : Int) (c : CpuState) : Prop where
  noff : c.noff = d
  outside : d = 0 → c.sie = e
  inside : 0 < d → c.sie = false ∧ c.intena = e

variable {e : Bool} {d : Int} {c : CpuState}

/-- Any state at depth 0 is nested in its own interrupt state. -/
theorem Nested.of_noff (h : c.noff = 0) : Nested c.sie 0 c :=
  ⟨h, fun _ => rfl, fun h => absurd h (lt_irrefl 0)⟩

theorem Nested.pushOff (h : Nested e d c) (hd : 0 ≤ d) : Nested e (d + 1) (pushOff c) := by
  refine ⟨by simp [h.noff], fun h1 => absurd h1 (by omega), fun _ => ⟨pushOff_sie c, ?_⟩⟩
  rw [pushOff_intena]
  split
  -- the outermost push_off saves the enable bit, which is `e` at depth 0
  · next h0 => exact h.outside (h.noff ▸ h0)
  -- an inner one keeps the flag saved before
  · next h0 => exact (h.inside (by have := h.noff; omega)).2

theorem Nested.popOff (h : Nested e d c) (hd : 1 ≤ d) :
    ∃ c', popOff c = .ok c' ∧ Nested e (d - 1) c' := by
  have ⟨hsie, hintena⟩ := h.inside (by omega)
  have hnoff := h.noff
  refine ⟨_, popOff_eq hsie (by omega), ⟨by simp [hnoff], fun h0 => ?_, fun hpos => ?_⟩⟩
  -- the outermost pop_off: the enable bit becomes the saved flag
  · simp [hnoff, h0, hintena]
  -- an inner one changes only the depth
  · simp [hnoff, hintena, show d - 1 ≠ 0 by omega]

/-- The run rule: from a state at depth `d`, a sequence of calls that never
takes the depth below 0 completes, and keeps the state nested at the depth
it leaves. -/
theorem Nested.run (c₀ : CpuState) :
    ∀ (cs : List Call) {d : Int} {c : CpuState}, Nested e d c →
      (∀ p, p <+: cs → 0 ≤ d + depth p) →
      ∃ c', Machine.run (cpuSystem c₀) c cs = .ok c' ∧ Nested e (d + depth cs) c' := by
  intro cs
  induction cs with
  | nil =>
    intro d c h _
    exact ⟨c, rfl, by simpa using h⟩
  | cons a cs ih =>
    intro d c h hm
    have hd : 0 ≤ d := by simpa using hm [] (List.nil_prefix)
    have ha : 0 ≤ d + a.delta := by simpa using hm [a] (List.cons_prefix_cons.2 ⟨rfl, List.nil_prefix⟩)
    -- the rest of the calls, from depth `d + a.delta`
    have hrest : ∀ p, p <+: cs → 0 ≤ d + a.delta + depth p := fun p hp => by
      have := hm (a :: p) (List.cons_prefix_cons.2 ⟨rfl, hp⟩)
      simp only [depth_cons] at this
      omega
    cases a with
    | pushOff =>
      obtain ⟨c', hrun, h'⟩ := ih (h.pushOff hd) hrest
      refine ⟨c', (run_cons_of_ok rfl cs).trans hrun, ?_⟩
      simpa [Call.delta, add_assoc] using h'
    | popOff =>
      obtain ⟨c₁, hpop, h₁⟩ := h.popOff (by simp [Call.delta] at ha; omega)
      obtain ⟨c', hrun, h'⟩ := ih h₁ (by simpa [Call.delta, sub_eq_add_neg] using hrest)
      refine ⟨c', (run_cons_of_ok (show (cpuSystem c₀).step c .popOff = .ok c₁ from hpop) cs).trans hrun, ?_⟩
      simpa [Call.delta, sub_eq_add_neg, add_assoc] using h'

/-- The other side: from a state at depth `d`, a sequence that takes the
depth below 0 panics at its first unmatched `pop_off`. -/
theorem Nested.run_panics (c₀ : CpuState) :
    ∀ (cs : List Call) {d : Int} {c : CpuState}, Nested e d c → 0 ≤ d →
      (∃ p, p <+: cs ∧ d + depth p < 0) → ∃ msg, Machine.run (cpuSystem c₀) c cs = .panic msg := by
  intro cs
  induction cs with
  | nil =>
    intro d c _ hd ⟨p, hp, hneg⟩
    rw [List.prefix_nil.1 hp, depth_nil] at hneg
    omega
  | cons a cs ih =>
    intro d c h hd ⟨p, hp, hneg⟩
    -- the empty prefix has depth `d`, so the offending prefix starts with `a`
    obtain ⟨p, rfl, hp'⟩ : ∃ q, p = a :: q ∧ q <+: cs := by
      rcases p with _ | ⟨b, q⟩
      · simp at hneg
        omega
      · obtain ⟨rfl, hq⟩ := List.cons_prefix_cons.1 hp
        exact ⟨q, rfl, hq⟩
    rw [depth_cons] at hneg
    cases a with
    | pushOff =>
      rw [run_cons_of_ok (show (cpuSystem c₀).step c .pushOff = .ok (Lock.pushOff c) from rfl)]
      exact ih (h.pushOff hd) (by omega) ⟨p, hp', by simp only [Call.delta] at hneg; omega⟩
    | popOff =>
      by_cases h0 : d = 0
      -- an unmatched pop_off: its own checks panic
      · obtain ⟨msg, hpop⟩ := popOff_panics (c := c) (by rw [h.noff]; omega)
        exact ⟨msg, run_cons_of_panic (show (cpuSystem c₀).step c .popOff = .panic msg from hpop) cs⟩
      · obtain ⟨c₁, hpop, h₁⟩ := h.popOff (by omega)
        rw [run_cons_of_ok (show (cpuSystem c₀).step c .popOff = .ok c₁ from hpop)]
        exact ih h₁ (by omega) ⟨p, hp', by simp only [Call.delta] at hneg; omega⟩

/-- From depth 0, a sequence panics exactly when some `pop_off` of it is
unmatched. -/
theorem run_panics_of_not_matched {c₀ : CpuState} (h0 : c₀.noff = 0) {cs : List Call}
    (hm : ¬ Matched cs) : ∃ msg, Machine.run (cpuSystem c₀) c₀ cs = .panic msg := by
  rw [matched_iff] at hm
  simp only [not_forall, not_le, exists_prop] at hm
  exact (Nested.of_noff h0).run_panics c₀ cs le_rfl (by simpa using hm)

theorem push_off_pop_off_nesting (c₀ : CpuState) (h0 : c₀.noff = 0) (cs : List Call)
    (hm : Matched cs) :
    (∀ p, p <+: cs → ∃ c, Machine.run (cpuSystem c₀) c₀ p = .ok c ∧ c.noff = depth p ∧
      (0 < c.noff → c.sie = false)) ∧
    (∀ pre mid post, cs = pre ++ .pushOff :: mid ++ .popOff :: post → depth pre = 0 →
      depth mid = 0 →
      ∃ c₁ c₂, Machine.run (cpuSystem c₀) c₀ pre = .ok c₁ ∧ c₁.noff = 0 ∧
        Machine.run (cpuSystem c₀) c₀ (pre ++ .pushOff :: mid ++ [.popOff]) = .ok c₂ ∧
        c₂.noff = 0 ∧ c₂.sie = c₁.sie) := by
  rw [matched_iff] at hm
  -- every prefix of `cs` runs, nested in the interrupt state `c₀` starts with
  have hrun : ∀ p, p <+: cs → ∃ c, Machine.run (cpuSystem c₀) c₀ p = .ok c ∧
      Nested c₀.sie (depth p) c := fun p hp => by
    simpa using (Nested.of_noff h0).run c₀ p fun q hq => by simpa using hm q (hq.trans hp)
  refine ⟨fun p hp => ?_, fun pre mid post hcs hpre hmid => ?_⟩
  · obtain ⟨c, hc, hn⟩ := hrun p hp
    exact ⟨c, hc, hn.noff, fun hpos => (hn.inside (hn.noff ▸ hpos)).1⟩
  · obtain ⟨c₁, hc₁, hn₁⟩ := hrun pre (by rw [hcs, List.append_assoc]; exact List.prefix_append _ _)
    obtain ⟨c₂, hc₂, hn₂⟩ := hrun (pre ++ .pushOff :: mid ++ [.popOff]) (by
      rw [hcs]
      exact (List.prefix_append_right_inj _).2 (List.cons_prefix_cons.2 ⟨rfl, List.nil_prefix⟩))
    -- both states are at depth 0, where the enable bit is `c₀`'s
    have hdepth : depth (pre ++ .pushOff :: mid ++ [.popOff]) = 0 := by
      simp [Call.delta, hpre, hmid]
    rw [hdepth] at hn₂
    rw [hpre] at hn₁
    exact ⟨c₁, c₂, hc₁, hn₁.noff, hc₂, hn₂.noff, (hn₂.outside rfl).trans (hn₁.outside rfl).symm⟩

theorem push_off_pop_off_nesting_twice :
    Matched [.pushOff, .pushOff, .popOff, .popOff] ∧
    (∀ p, p <+: [.pushOff, .pushOff, .popOff, .popOff] →
      ∃ c, Machine.run (cpuSystem ⟨true, 0, false⟩) ⟨true, 0, false⟩ p = .ok c ∧
        c.noff = depth p ∧ (0 < c.noff → c.sie = false)) ∧
    (∀ pre mid post, [.pushOff, .pushOff, .popOff, .popOff] = pre ++ .pushOff :: mid ++ .popOff :: post →
      depth pre = 0 → depth mid = 0 →
      ∃ c₁ c₂, Machine.run (cpuSystem ⟨true, 0, false⟩) ⟨true, 0, false⟩ pre = .ok c₁ ∧ c₁.noff = 0 ∧
        Machine.run (cpuSystem ⟨true, 0, false⟩) ⟨true, 0, false⟩ (pre ++ .pushOff :: mid ++ [.popOff]) =
          .ok c₂ ∧ c₂.noff = 0 ∧ c₂.sie = c₁.sie) :=
  ⟨by decide, push_off_pop_off_nesting ⟨true, 0, false⟩ rfl _ (by decide)⟩

/-! ## Locks

`acquire` turns interrupts off with `push_off` before it takes a lock, and
`release` turns them back on with `pop_off` after it gives it up, so that an
interrupt handler never spins on a lock its own CPU holds.  The kernel state
holds every CPU's interrupt state and every lock.  A CPU's own state changes
only by its own calls, each of which is a call of `cpuStep`
(`Kernel.run_cpus`): the CPU-level system above simulates every CPU of the
kernel.  Over it, the number of locks a CPU holds is part of its depth
(`Kernel.noff_sub_card_run`), so a CPU holding a lock has interrupts off
(`holding_intr_off`) as long as its own `push_off` and `pop_off` calls
match. -/

/-- `struct spinlock`: is it held, and by which CPU (`lk->cpu`, `none` for
null).  The name is for debugging only. -/
structure Spinlock where
  locked : Bool
  cpu : Option Nat
  deriving DecidableEq, Repr

/-- Every CPU's interrupt state, and every lock. -/
structure Kernel (L : Type) where
  cpus : Nat → CpuState
  locks : L → Spinlock

section Locks

variable {L : Type}

/-- `holding(lk)` on CPU `c`. -/
def holding (k : Kernel L) (c : Nat) (lk : L) : Bool :=
  (k.locks lk).locked && (k.locks lk).cpu == some c

/-- The calls the kernel makes, each on a CPU. -/
inductive KCall (L : Type) where
  | pushOff (c : Nat)
  | popOff (c : Nat)
  | acquire (c : Nat) (lk : L)
  | release (c : Nat) (lk : L)

/-- The CPU a call runs on. -/
def KCall.cpu : KCall L → Nat
  | .pushOff c | .popOff c | .acquire c _ | .release c _ => c

/-- The nesting call it makes there. -/
def KCall.nesting : KCall L → Call
  | .pushOff _ | .acquire _ _ => .pushOff
  | .popOff _ | .release _ _ => .popOff

/-- The CPU `c`'s own `push_off` and `pop_off` calls, outside locks. -/
def KCall.explicit (c : Nat) : KCall L → Option Call
  | .pushOff c' => if c' = c then some .pushOff else none
  | .popOff c' => if c' = c then some .popOff else none
  | _ => none

/-- The nesting calls of CPU `c` in a sequence of kernel calls. -/
def callsOf (c : Nat) (ks : List (KCall L)) : List Call :=
  (ks.filter fun a => a.cpu = c).map KCall.nesting

/-- The explicit `push_off` and `pop_off` calls of CPU `c`. -/
def explicitOf (c : Nat) (ks : List (KCall L)) : List Call := ks.filterMap (KCall.explicit c)

theorem callsOf_cons (c : Nat) (a : KCall L) (ks : List (KCall L)) :
    callsOf c (a :: ks) = if a.cpu = c then a.nesting :: callsOf c ks else callsOf c ks := by
  unfold callsOf
  by_cases h : a.cpu = c <;> simp [h]

theorem explicitOf_cons (c : Nat) (a : KCall L) (ks : List (KCall L)) :
    explicitOf c (a :: ks) = (a.explicit c).toList ++ explicitOf c ks := by
  cases h : a.explicit c <;> simp [explicitOf, h]

variable [DecidableEq L]

/-- `acquire(lk)` on CPU `c`.  The spin is the step's guard: a call that
finds the lock held by another CPU waits with nothing changed and is made
again; no other CPU reads this one's nesting, so doing its `push_off` with
the swap that succeeds changes nothing they see. -/
def acquire (k : Kernel L) (c : Nat) (lk : L) : Result (Kernel L) :=
  let k := { k with cpus := Function.update k.cpus c (pushOff (k.cpus c)) }
  if holding k c lk then .panic "acquire"
  else if (k.locks lk).locked then .wait
  else .ok { k with locks := Function.update k.locks lk ⟨true, some c⟩ }

/-- `release(lk)` on CPU `c`. -/
def release (k : Kernel L) (c : Nat) (lk : L) : Result (Kernel L) :=
  if !holding k c lk then .panic "release"
  else
    let k := { k with locks := Function.update k.locks lk ⟨false, none⟩ }
    do
      let cpu ← popOff (k.cpus c)
      pure { k with cpus := Function.update k.cpus c cpu }

/-- One call of the kernel. -/
def kstep (k : Kernel L) : KCall L → Result (Kernel L)
  | .pushOff c => .ok { k with cpus := Function.update k.cpus c (pushOff (k.cpus c)) }
  | .popOff c => do
      let cpu ← popOff (k.cpus c)
      pure { k with cpus := Function.update k.cpus c cpu }
  | .acquire c lk => acquire k c lk
  | .release c lk => release k c lk

/-- The kernel making these calls from `k₀`. -/
def lockSystem (k₀ : Kernel L) : System (Kernel L) (KCall L) := ⟨k₀, kstep⟩

/-- What one completed kernel call does: the CPU it runs on takes the
matching `cpuStep`, the others keep their state, and only the lock it names
changes, to held by its CPU on `acquire` and to free on `release`. -/
theorem kstep_cases {k k' : Kernel L} {a : KCall L} (h : kstep k a = .ok k') :
    cpuStep (k.cpus a.cpu) a.nesting = .ok (k'.cpus a.cpu) ∧
    (∀ c, c ≠ a.cpu → k'.cpus c = k.cpus c) ∧
    (match a with
      | .acquire c lk => (k.locks lk).locked = false ∧ k'.locks = Function.update k.locks lk ⟨true, some c⟩
      | .release c lk => holding k c lk = true ∧ k'.locks = Function.update k.locks lk ⟨false, none⟩
      | _ => k'.locks = k.locks) := by
  cases a with
  | pushOff c =>
    cases h
    exact ⟨by simp [cpuStep, KCall.cpu, KCall.nesting], fun c' hc => Function.update_of_ne hc _ _, rfl⟩
  | popOff c =>
    obtain ⟨cpu, hpop, hk⟩ := Result.bind_eq_ok.1 h
    cases Result.pure_eq_ok.1 hk
    exact ⟨by simpa [cpuStep, KCall.cpu, KCall.nesting] using hpop,
      fun c' hc => Function.update_of_ne hc _ _, rfl⟩
  | acquire c lk =>
    simp only [kstep, acquire] at h
    split at h
    · cases h
    · split at h
      · cases h
      · next hheld hlocked =>
        cases h
        exact ⟨by simp [cpuStep, KCall.cpu, KCall.nesting], fun c' hc => Function.update_of_ne hc _ _,
          by simpa using hlocked, rfl⟩
  | release c lk =>
    simp only [kstep, release] at h
    split at h
    · cases h
    · next hheld =>
      obtain ⟨cpu, hpop, hk⟩ := Result.bind_eq_ok.1 h
      cases Result.pure_eq_ok.1 hk
      exact ⟨by simpa [cpuStep, KCall.cpu, KCall.nesting] using hpop,
        fun c' hc => Function.update_of_ne hc _ _, by simpa using hheld, rfl⟩

/-- The simulation: along a completed run of the kernel, each CPU's state
follows the CPU-level system through that CPU's nesting calls. -/
theorem Kernel.run_cpus {k₀ : Kernel L} (x : CpuState) (c : Nat) :
    ∀ (ks : List (KCall L)) {k k' : Kernel L}, Machine.run (lockSystem k₀) k ks = .ok k' →
      Machine.run (cpuSystem x) (k.cpus c) (callsOf c ks) = .ok (k'.cpus c) := by
  intro ks
  induction ks with
  | nil =>
    intro k k' h
    cases h
    rfl
  | cons a ks ih =>
    intro k k' h
    obtain ⟨k₁, hstep, hrest⟩ := run_cons_eq_ok.1 h
    obtain ⟨hcpu, hother, -⟩ := kstep_cases hstep
    rw [callsOf_cons]
    split
    -- a call on `c` is one CPU step there
    · next hc =>
      subst hc
      exact (run_cons_of_ok hcpu _).trans (ih hrest)
    -- a call on another CPU leaves `c` alone
    · next hc =>
      rw [← hother c (Ne.symm hc)]
      exact ih hrest

section Held

variable [Fintype L]

/-- The locks CPU `c` holds. -/
def heldBy (k : Kernel L) (c : Nat) : Finset L := Finset.univ.filter fun lk => holding k c lk = true

omit [DecidableEq L] in
theorem heldBy_congr {k k' : Kernel L} (h : k'.locks = k.locks) (c : Nat) : heldBy k' c = heldBy k c := by
  simp [heldBy, holding, h]

/-- Taking a free lock adds it to the locks its CPU holds, and only to them. -/
theorem card_heldBy_take {k k' : Kernel L} {lk : L} {c' : Nat} (hfree : (k.locks lk).locked = false)
    (hk' : k'.locks = Function.update k.locks lk ⟨true, some c'⟩) (c : Nat) :
    ((heldBy k' c).card : Int) = (heldBy k c).card + if c' = c then 1 else 0 := by
  have hnot : lk ∉ heldBy k c := by simp [heldBy, holding, hfree]
  by_cases hc : c' = c
  · subst hc
    have : heldBy k' c' = insert lk (heldBy k c') := by
      ext x
      by_cases hx : x = lk
      · subst hx
        simp [heldBy, holding, hk']
      · simp [heldBy, holding, hk', hx]
    rw [this, Finset.card_insert_of_notMem hnot, if_pos rfl]
    push_cast
    rfl
  · have : heldBy k' c = heldBy k c := by
      ext x
      by_cases hx : x = lk
      · subst hx
        simp [heldBy, holding, hk', hfree, hc]
      · simp [heldBy, holding, hk', hx]
    rw [this, if_neg hc, add_zero]

/-- Giving up a held lock removes it from the locks its CPU holds, and only
from them. -/
theorem card_heldBy_give {k k' : Kernel L} {lk : L} {c' : Nat} (hheld : holding k c' lk = true)
    (hk' : k'.locks = Function.update k.locks lk ⟨false, none⟩) (c : Nat) :
    ((heldBy k' c).card : Int) = (heldBy k c).card - if c' = c then 1 else 0 := by
  have hk'' : heldBy k' c = (heldBy k c).erase lk := by
    ext x
    by_cases hx : x = lk
    · subst hx
      simp [heldBy, holding, hk']
    · simp [heldBy, holding, hk', hx]
  rw [hk'']
  by_cases hc : c' = c
  · subst hc
    have hmem : lk ∈ heldBy k c' := by simpa [heldBy] using hheld
    have hpos := Finset.card_pos.2 ⟨lk, hmem⟩
    rw [Finset.card_erase_of_mem hmem, if_pos rfl]
    omega
  · have hnot : lk ∉ heldBy k c := by
      simp only [heldBy, holding, Finset.mem_filter, Finset.mem_univ, true_and, Bool.and_eq_true,
        beq_iff_eq] at hheld ⊢
      rw [hheld.2]
      simp [hc]
    rw [Finset.erase_eq_of_notMem hnot, if_neg hc, sub_zero]

/-- The depth of a CPU less the locks it holds moves only with its explicit
`push_off` and `pop_off` calls. -/
theorem kstep_noff_sub_card {k k' : Kernel L} {a : KCall L} (h : kstep k a = .ok k') (c : Nat) :
    (k'.cpus c).noff - (heldBy k' c).card =
      (k.cpus c).noff - (heldBy k c).card + depth ((a.explicit c).toList) := by
  obtain ⟨hcpu, hother, hlocks⟩ := kstep_cases h
  -- the CPU's depth moves by the call's nesting delta when it runs on `c`
  have hnoff : (k'.cpus c).noff = (k.cpus c).noff + if a.cpu = c then a.nesting.delta else 0 := by
    split
    · next hc => subst hc; exact cpuStep_noff hcpu
    · next hc => rw [hother c (Ne.symm hc), add_zero]
  cases a with
  | pushOff c' =>
    rw [heldBy_congr hlocks, hnoff]
    by_cases hc : c' = c
    · simp [hc, KCall.cpu, KCall.nesting, KCall.explicit, Call.delta]
      omega
    · simp [hc, KCall.cpu, KCall.explicit]
  | popOff c' =>
    rw [heldBy_congr hlocks, hnoff]
    by_cases hc : c' = c
    · simp [hc, KCall.cpu, KCall.nesting, KCall.explicit, Call.delta]
      omega
    · simp [hc, KCall.cpu, KCall.explicit]
  | acquire c' lk =>
    rw [card_heldBy_take hlocks.1 hlocks.2 c, hnoff]
    by_cases hc : c' = c <;> simp [hc, KCall.cpu, KCall.nesting, KCall.explicit, Call.delta]
  | release c' lk =>
    rw [card_heldBy_give hlocks.1 hlocks.2 c, hnoff]
    by_cases hc : c' = c <;> simp [hc, KCall.cpu, KCall.nesting, KCall.explicit, Call.delta]
    omega

/-- The run rule for the count: along a completed run, a CPU's depth less the
locks it holds moves by the depth of its explicit calls. -/
theorem Kernel.noff_sub_card_run {k₀ : Kernel L} (c : Nat) :
    ∀ (ks : List (KCall L)) {k k' : Kernel L}, Machine.run (lockSystem k₀) k ks = .ok k' →
      (k'.cpus c).noff - (heldBy k' c).card =
        (k.cpus c).noff - (heldBy k c).card + depth (explicitOf c ks) := by
  intro ks
  induction ks with
  | nil =>
    intro k k' h
    cases h
    simp [explicitOf]
  | cons a ks ih =>
    intro k k' h
    obtain ⟨k₁, hstep, hrest⟩ := run_cons_eq_ok.1 h
    rw [ih hrest, kstep_noff_sub_card hstep c, explicitOf_cons, depth_append, add_assoc]

/-- Interrupts are off on a CPU while it holds a lock: from a kernel with no
lock held and every depth 0, after any completed run in which CPU `c`'s own
`push_off` and `pop_off` calls match, `c`'s depth is the number of locks it
holds plus the depth of those calls, and if it holds a lock its interrupts
are off. -/
theorem holding_intr_off {k₀ : Kernel L} (h0 : ∀ c, (k₀.cpus c).noff = 0)
    (hfree : ∀ lk, (k₀.locks lk).locked = false) {ks : List (KCall L)} {k : Kernel L}
    (hrun : Machine.run (lockSystem k₀) k₀ ks = .ok k) (c : Nat) (hm : Matched (explicitOf c ks)) :
    (k.cpus c).noff = (heldBy k c).card + depth (explicitOf c ks) ∧
    ∀ lk, holding k c lk = true → (k.cpus c).sie = false := by
  have hnone : heldBy k₀ c = ∅ := by simp [heldBy, holding, hfree]
  have hnoff : (k.cpus c).noff = (heldBy k c).card + depth (explicitOf c ks) := by
    have := Kernel.noff_sub_card_run c ks hrun
    rw [hnone, h0 c] at this
    simp at this
    omega
  refine ⟨hnoff, fun lk hlk => ?_⟩
  -- the CPU's own run: it completes, so its nesting calls match
  have hcpu := Kernel.run_cpus (k₀.cpus c) c ks hrun
  have hmatched : Matched (callsOf c ks) := by
    by_contra hnot
    obtain ⟨msg, hpanic⟩ := run_panics_of_not_matched (h0 c) hnot
    cases hpanic.symm.trans hcpu
  obtain ⟨c', hc', hnest⟩ := (Nested.of_noff (h0 c)).run (k₀.cpus c) (callsOf c ks) (by
    simpa using (matched_iff.1 hmatched))
  cases hc'.symm.trans hcpu
  -- it holds `lk`, so its depth is positive
  have hpos : 0 < (k.cpus c).noff := by
    have hcard : 0 < (heldBy k c).card := Finset.card_pos.2 ⟨lk, by simpa [heldBy] using hlk⟩
    have hexp : 0 ≤ depth (explicitOf c ks) := matched_iff.1 hm _ (List.prefix_refl _)
    omega
  exact (hnest.inside (by rw [← hnest.noff]; simpa using hpos)).1

/-- CPU 0 takes two locks and releases one. -/
theorem holding_intr_off_two_locks :
    ∃ k, Machine.run (lockSystem (⟨fun _ => ⟨true, 0, false⟩, fun _ => ⟨false, none⟩⟩ : Kernel (Fin 2)))
        ⟨fun _ => ⟨true, 0, false⟩, fun _ => ⟨false, none⟩⟩ [.acquire 0 0, .acquire 0 1, .release 0 1] = .ok k ∧
      (k.cpus 0).noff =
        (heldBy k 0).card + depth (explicitOf 0 ([.acquire 0 0, .acquire 0 1, .release 0 1] : List (KCall (Fin 2)))) ∧
      ∀ lk, holding k 0 lk = true → (k.cpus 0).sie = false :=
  Exists.imp (fun k hk => ⟨hk, holding_intr_off (fun _ => rfl) (fun _ => rfl) hk 0 (by decide)⟩) ⟨_, rfl⟩

-- the discipline is needed: CPU 0 takes a lock, then a `pop_off` of its own
-- turns its interrupts back on while it still holds the lock
example : ∃ k, Machine.run (lockSystem ⟨fun _ => ⟨true, 0, false⟩, fun _ : Unit => ⟨false, none⟩⟩)
    ⟨fun _ => ⟨true, 0, false⟩, fun _ => ⟨false, none⟩⟩ [.acquire 0 (), .popOff 0] = .ok k ∧
    holding k 0 () = true ∧ (k.cpus 0).sie = true :=
  ⟨_, rfl, rfl, rfl⟩

end Held

end Locks

end Xv6.Lock
