import Mathlib

/-
  Xv6/Lib/Machine.lean --- shared-state machines driven by labelled actions.

  A system has an initial state and a step function.  An attempted step either
  completes with a new state, waits (its guard is false: the caller sleeps and
  nothing changes), or panics with a message.  Safety properties of such a
  system are statements about its REACHABLE states, proved by the invariant rule
  `Reachable.rec_inv`; a property "this panic is never reached" is an invariant
  together with a proof that no enabled step from an invariant state panics.

  Concurrency is modelled by interleaving: each action is one atomic critical
  section of one thread, and the system takes them in any order.  Thread-local
  control state is a function from a (finite) type of threads; the last
  parts of this module count threads with `Finset` sums when one thread
  moves, and say which thread holds a spinlock (`Owns`: the lock word names
  the thread whose place holds it) as threads take it and give it back.

  This module names nothing of the kernel.
-/

set_option autoImplicit false

namespace Machine

/-- What one attempted step does. -/
inductive Result (σ : Type*) where
  /-- the step completed, leaving this state -/
  | ok (s : σ)
  /-- the step's guard is false: the thread sleeps and the state is unchanged -/
  | wait
  /-- the step stops the system with this message -/
  | panic (msg : String)

/-- The state a completed step leaves. -/
def Result.get? {σ : Type*} : Result σ → Option σ
  | .ok s => some s
  | _ => none

@[simp] theorem Result.get?_eq_some {σ : Type*} {x : Result σ} {s : σ} :
    x.get? = some s ↔ x = .ok s := by
  cases x <;> simp [Result.get?]

/-- The message of a step that panics. -/
def Result.panicMsg? {σ : Type*} : Result σ → Option String
  | .panic msg => some msg
  | _ => none

@[simp] theorem Result.panicMsg?_eq_some {σ : Type*} {x : Result σ} {msg : String} :
    x.panicMsg? = some msg ↔ x = .panic msg := by
  cases x <;> simp [Result.panicMsg?]

/-- Sequencing: a procedure made of steps stops at the first that waits or
panics. -/
def Result.bind {σ τ : Type*} : Result σ → (σ → Result τ) → Result τ
  | .ok s, f => f s
  | .wait, _ => .wait
  | .panic msg, _ => .panic msg

instance : Monad Result where
  pure := .ok
  bind := Result.bind

/-- A sequence completed exactly when its first step did and so did the rest. -/
theorem Result.bind_eq_ok {σ τ : Type} {x : Result σ} {f : σ → Result τ} {t : τ} :
    (x >>= f) = .ok t ↔ ∃ s, x = .ok s ∧ f s = .ok t := by
  cases x with
  | ok s => exact ⟨fun h => ⟨s, rfl, h⟩, fun ⟨_, hs, h⟩ => (by cases hs; exact h)⟩
  | wait => exact ⟨fun h => (by cases h), fun ⟨_, hs, _⟩ => (by cases hs)⟩
  | panic msg => exact ⟨fun h => (by cases h), fun ⟨_, hs, _⟩ => (by cases hs)⟩

/-- A sequence panics exactly when its first step did, or completed and the
rest panicked. -/
theorem Result.bind_eq_panic {σ τ : Type} {x : Result σ} {f : σ → Result τ} {msg : String} :
    (x >>= f) = .panic msg ↔ x = .panic msg ∨ ∃ s, x = .ok s ∧ f s = .panic msg := by
  cases x with
  | ok s => exact ⟨fun h => .inr ⟨s, rfl, h⟩, fun h => h.elim (fun h => by cases h) fun ⟨_, hs, h⟩ => (by cases hs; exact h)⟩
  | wait => exact ⟨fun h => (by cases h), fun h => h.elim (fun h => by cases h) fun ⟨_, hs, _⟩ => (by cases hs)⟩
  | panic m =>
    constructor
    · intro h
      cases h
      exact .inl rfl
    · rintro (h | ⟨_, hs, _⟩)
      · cases h
        rfl
      · cases hs

@[simp] theorem Result.ok_bind {σ τ : Type} (s : σ) (f : σ → Result τ) : (Result.ok s >>= f) = f s :=
  rfl

@[simp] theorem Result.pure_bind {σ τ : Type} (s : σ) (f : σ → Result τ) : (pure s >>= f) = f s :=
  rfl

/-- Sequencing is associative. -/
theorem Result.bind_assoc {σ τ υ : Type} (x : Result σ) (f : σ → Result τ) (g : τ → Result υ) :
    (x >>= f) >>= g = x >>= fun s => f s >>= g := by
  cases x <;> rfl

@[simp] theorem Result.pure_eq_ok {σ : Type} {s t : σ} : (pure s : Result σ) = .ok t ↔ s = t :=
  ⟨fun h => by cases h; rfl, fun h => h ▸ rfl⟩

/-- A system: an initial state and the effect of each action. -/
structure System (σ α : Type*) where
  init : σ
  step : σ → α → Result σ

variable {σ α : Type*}

/-- The states some finite interleaving of completed steps leads to. -/
inductive Reachable (m : System σ α) : σ → Prop where
  | init : Reachable m m.init
  | step {s s' : σ} (a : α) : Reachable m s → m.step s a = .ok s' → Reachable m s'

/-- The invariant rule: a property of the initial state that every completed
step preserves holds in every reachable state. -/
theorem Reachable.rec_inv {m : System σ α} (P : σ → Prop) (h0 : P m.init)
    (hstep : ∀ s a s', P s → m.step s a = .ok s' → P s') {s : σ} (h : Reachable m s) :
    P s := by
  induction h with
  | init => exact h0
  | step a _ hs ih => exact hstep _ a _ ih hs

/-- The simulation rule: when `f` takes every completed step of `m` from a
state satisfying `I` to a completed step of `m'` or to no move at all, and `I`
holds initially and is kept, every reachable state of `m` satisfies `I` and
is mapped to a reachable state of `m'`. -/
theorem Reachable.simulate {σ' α' : Type*} {m : System σ α} {m' : System σ' α'} (f : σ → σ')
    (I : σ → Prop) (h0 : I m.init ∧ f m.init = m'.init)
    (hstep : ∀ s a s', I s → m.step s a = .ok s' →
      I s' ∧ (f s' = f s ∨ ∃ a', m'.step (f s) a' = .ok (f s')))
    {s : σ} (h : Reachable m s) : I s ∧ Reachable m' (f s) := by
  induction h with
  | init => exact ⟨h0.1, h0.2 ▸ .init⟩
  | step a _ hs ih =>
    obtain ⟨hI, hmove⟩ := hstep _ a _ ih.1 hs
    refine ⟨hI, ?_⟩
    rcases hmove with hsame | ⟨a', ha'⟩
    -- a stutter: the image does not move
    · exact hsame ▸ ih.2
    · exact ih.2.step a' ha'

/-- Run a list of actions from a state, stopping at the first one that does not
complete. -/
def run (m : System σ α) : σ → List α → Result σ
  | s, [] => .ok s
  | s, a :: as =>
    match m.step s a with
    | .ok s' => run m s' as
    | .wait => .wait
    | .panic msg => .panic msg

@[simp] theorem run_nil (m : System σ α) (s : σ) : run m s [] = .ok s := rfl

/-- A run of `a :: as` is the step by `a`, then the run of `as` from where it
leaves.  The lemmas below use this one and never unfold `run`. -/
theorem run_cons (m : System σ α) (s : σ) (a : α) (as : List α) :
    run m s (a :: as) = (m.step s a).bind fun s' => run m s' as := by
  simp only [run]
  cases m.step s a <;> rfl

theorem run_cons_of_ok {m : System σ α} {s s' : σ} {a : α} (h : m.step s a = .ok s') (as : List α) :
    run m s (a :: as) = run m s' as := by
  rw [run_cons, h]
  rfl

theorem run_cons_eq_ok {m : System σ α} {s s' : σ} {a : α} {as : List α} :
    run m s (a :: as) = .ok s' ↔ ∃ s₁, m.step s a = .ok s₁ ∧ run m s₁ as = .ok s' := by
  rw [run_cons]
  cases m.step s a with
  | ok s₁ => exact ⟨fun hr => ⟨s₁, rfl, hr⟩, fun ⟨_, hs, hr⟩ => (by cases hs; exact hr)⟩
  | wait => exact ⟨fun hr => (by cases hr), fun ⟨_, hs, _⟩ => (by cases hs)⟩
  | panic msg => exact ⟨fun hr => (by cases hr), fun ⟨_, hs, _⟩ => (by cases hs)⟩

theorem run_cons_of_panic {m : System σ α} {s : σ} {a : α} {msg : String} (h : m.step s a = .panic msg)
    (as : List α) : run m s (a :: as) = .panic msg := by
  rw [run_cons, h]
  rfl

/-- A run that completes ends in a reachable state. -/
theorem reachable_of_run {m : System σ α} {s : σ} (hs : Reachable m s) :
    ∀ (as : List α) (s' : σ), run m s as = .ok s' → Reachable m s' := by
  intro as
  induction as generalizing s with
  | nil =>
    intro s' h
    cases h
    exact hs
  | cons a as ih =>
    intro s' h
    obtain ⟨s'', hstep, hrest⟩ := run_cons_eq_ok.1 h
    exact ih (hs.step a hstep) s' hrest

/-- A run of two lists is the run of the first, then from where it ends the run
of the second. -/
theorem run_append (m : System σ α) (s : σ) (as bs : List α) :
    run m s (as ++ bs) = (run m s as).bind fun s' => run m s' bs := by
  induction as generalizing s with
  | nil => rfl
  | cons a as ih =>
    rw [List.cons_append, run_cons, run_cons]
    cases m.step s a with
    | ok s' => exact ih s'
    | wait => rfl
    | panic msg => rfl

theorem run_append_of_ok {m : System σ α} {s s' : σ} {as : List α} (h : run m s as = .ok s')
    (bs : List α) : run m s (as ++ bs) = run m s' bs := by
  rw [run_append, h]
  rfl

/-- The invariant rule for a run whose actions all satisfy `Q`: a property
that every completed step by such an action preserves holds where the run
ends. -/
theorem run_inv_on {m : System σ α} (P : σ → Prop) (Q : α → Prop)
    (hstep : ∀ s a s', P s → Q a → m.step s a = .ok s' → P s') :
    ∀ (as : List α) {s s' : σ}, P s → (∀ a ∈ as, Q a) → run m s as = .ok s' → P s' := by
  intro as
  induction as with
  | nil =>
    intro s s' hs _ h
    cases h
    exact hs
  | cons a as ih =>
    intro s s' hs hQ h
    obtain ⟨s'', hs'', hrest⟩ := run_cons_eq_ok.1 h
    exact ih (hstep s a s'' hs (hQ a List.mem_cons_self) hs'') (fun b hb => hQ b (List.mem_cons_of_mem a hb)) hrest

/-- The loop rule for runs: when the `i`-th action takes every state satisfying
`I i` to one satisfying `I (i + 1)`, the run of the first `n` actions takes a
state satisfying `I 0` to one satisfying `I n`. -/
theorem run_iterate (m : System σ α) {I : Nat → σ → Prop} (act : Nat → α) (n : Nat)
    (body : ∀ i, i < n → ∀ s, I i s → ∃ s', m.step s (act i) = .ok s' ∧ I (i + 1) s')
    {s : σ} (hs : I 0 s) : ∃ s', run m s ((List.range n).map act) = .ok s' ∧ I n s' := by
  induction n with
  | zero => exact ⟨s, rfl, hs⟩
  | succ n ih =>
    obtain ⟨s₁, hrun, hs₁⟩ := ih fun i hi => body i (Nat.lt_succ_of_lt hi)
    obtain ⟨s₂, hstep, hs₂⟩ := body n (Nat.lt_succ_self n) s₁ hs₁
    refine ⟨s₂, ?_, hs₂⟩
    rw [List.range_succ, List.map_append, run_append_of_ok hrun, List.map_cons, List.map_nil,
      run_cons_of_ok hstep, run_nil]

/-- A run from the initial state that completes, evaluated once together with
a check `P` of the state it ends in, gives a reachable state satisfying `P`. -/
theorem exists_reachable_of_run_map {m : System σ α} {P : σ → Bool} {as : List α}
    (h : (run m m.init as).get?.map P = some true) : ∃ s, Reachable m s ∧ P s = true := by
  obtain ⟨s, hs, hP⟩ := Option.map_eq_some_iff.1 h
  exact ⟨s, reachable_of_run .init as s (Result.get?_eq_some.1 hs), hP⟩

/-! ## Counting threads -/

section Count

variable {τ β : Type*} [Fintype τ] [DecidableEq τ]

/-- Moving one thread `t` to `v` changes a sum over all threads by what `t`
contributed before and after. -/
theorem sum_update_add (f : τ → β) (t : τ) (v : β) (g : β → Nat) :
    (∑ u, g (Function.update f t v u)) + g (f t) = (∑ u, g (f u)) + g v := by
  have hupd : ∀ u, g (Function.update f t v u) = Function.update (fun u => g (f u)) t (g v) u :=
    fun u => Function.apply_update (fun _ => g) f t v u
  simp only [hupd]
  rw [Finset.sum_update_of_mem (Finset.mem_univ t),
    Finset.sum_eq_add_sum_sdiff_singleton_of_mem (Finset.mem_univ t) (fun u => g (f u))]
  omega

/-- Moving one thread `t` to `v` changes how many threads satisfy `P` by
whether `t` did before and does after. -/
theorem card_filter_update_add (f : τ → β) (t : τ) (v : β) (P : β → Prop) [DecidablePred P] :
    (Finset.univ.filter fun u => P (Function.update f t v u)).card + (if P (f t) then 1 else 0) =
      (Finset.univ.filter fun u => P (f u)).card + (if P v then 1 else 0) := by
  simp only [Finset.card_filter]
  exact sum_update_add f t v fun b => if P b then 1 else 0

omit [DecidableEq τ] in
/-- One thread's contribution is at most the sum over all threads. -/
theorem le_sum_apply (f : τ → β) (g : β → Nat) (t : τ) : g (f t) ≤ ∑ u, g (f u) :=
  Finset.single_le_sum (f := fun u => g (f u)) (fun _ _ => Nat.zero_le _) (Finset.mem_univ t)

end Count

/-! ## Lock ownership -/

section Owns

variable {τ π : Type*} [DecidableEq τ]

/-- A spinlock whose word `lock` names the thread holding it, held exactly
by the threads whose place holds it (`holds`). -/
def Owns (holds : π → Bool) (lock : Option τ) (pc : τ → π) : Prop :=
  ∀ t, lock = some t ↔ holds (pc t) = true

variable {holds : π → Bool} {lock : Option τ} {pc : τ → π}

omit [DecidableEq τ] in
theorem Owns.holder (h : Owns holds lock pc) {t : τ} (ht : holds (pc t) = true) : lock = some t :=
  (h t).2 ht

omit [DecidableEq τ] in
theorem Owns.not_holds (h : Owns holds lock pc) (hfree : lock = none) (t : τ) : holds (pc t) = false := by
  cases hh : holds (pc t)
  · rfl
  · rw [h.holder hh] at hfree
    cases hfree

/-- Moving thread `t` to `p` and the lock word to `lock'` keeps `Owns`, when
`t` holds `lock'` exactly at `p` and no other thread's hold changes. -/
theorem Owns.update (h : Owns holds lock pc) {lock' : Option τ} (t : τ) (p : π)
    (hself : lock' = some t ↔ holds p = true)
    (hother : ∀ t', t' ≠ t → (lock' = some t' ↔ lock = some t')) :
    Owns holds lock' (Function.update pc t p) := by
  intro t'
  by_cases ht : t' = t
  · subst ht
    rw [Function.update_self]
    exact hself
  · rw [Function.update_of_ne ht, hother t' ht]
    exact h t'

/-- A move of `t` that neither takes the lock nor gives it back. -/
theorem Owns.stay (h : Owns holds lock pc) (t : τ) {p : π} (hp : holds p = holds (pc t)) :
    Owns holds lock (Function.update pc t p) :=
  h.update t p (hp ▸ h t) fun _ _ => Iff.rfl

/-- Handing the free lock to `t`, at a place that holds it. -/
theorem Owns.take (h : Owns holds lock pc) (hfree : lock = none) (t : τ) {p : π} (hp : holds p = true) :
    Owns holds (some t) (Function.update pc t p) :=
  h.update t p (iff_of_true rfl hp) fun t' ht' => by simp [hfree, Ne.symm ht']

/-- The holder `t` giving the lock back, at a place that does not hold it. -/
theorem Owns.release {t : τ} (h : Owns holds lock pc) (hheld : lock = some t) {p : π} (hp : holds p = false) :
    Owns holds none (Function.update pc t p) :=
  h.update t p (by simp [hp]) fun t' ht' => by simp [hheld, Ne.symm ht']

end Owns

/-- Three threads, as the concrete runs number them: `Fin 3` has its numerals
through this one instance wherever it is used. -/
instance neZeroThree : NeZero (3 : Nat) := ⟨by decide⟩

end Machine
