import Xv6.Lib.Machine

/-
  Xv6/Lib/Post.lean --- what a procedure guarantees when it completes.

  A procedure of `Machine.Result` completes, sleeps or panics.  `x.Post Q`
  says that if `x` completes, the state it leaves satisfies `Q`; a procedure
  that sleeps or panics satisfies every postcondition.  The rules are the
  partial-correctness rules of a sequential program logic: one for each way a
  procedure is built (`ok`, `bind`, `foldlM`) and the rule of consequence
  (`mono`), so that a proof about a long procedure follows its text step by
  step and cites one lemma per call.

  This module names nothing of the kernel.
-/

set_option autoImplicit false

namespace Machine

/-- When `x` completes, the state it leaves satisfies `Q`. -/
def Result.Post {σ : Type} (x : Result σ) (Q : σ → Prop) : Prop :=
  ∀ s, x = .ok s → Q s

namespace Result.Post

variable {σ τ α : Type} {x : Result σ} {P Q : σ → Prop}

theorem ok {s : σ} (h : Q s) : (Result.ok s).Post Q := by
  rintro _ ⟨⟩
  exact h

theorem pure {s : σ} (h : Q s) : (Pure.pure s : Result σ).Post Q :=
  ok h

theorem wait : (Result.wait : Result σ).Post Q := by
  rintro _ ⟨⟩

theorem panic (msg : String) : (Result.panic msg : Result σ).Post Q := by
  rintro _ ⟨⟩

/-- Read a postcondition off a completed procedure. -/
theorem apply (hx : x.Post Q) {s : σ} (h : x = .ok s) : Q s :=
  hx s h

/-- The rule of consequence. -/
theorem mono (hx : x.Post P) (h : ∀ s, P s → Q s) : x.Post Q :=
  fun s hs => h s (hx s hs)

/-- Sequencing: what the first part guarantees is what the rest may assume. -/
theorem bind {f : σ → Result τ} {R : τ → Prop} (hx : x.Post P) (hf : ∀ s, P s → (f s).Post R) :
    (x >>= f).Post R := by
  intro t ht
  obtain ⟨s, hs, hft⟩ := Result.bind_eq_ok.1 ht
  exact hf s (hx s hs) t hft

/-- A loop over a list keeps an invariant that each round keeps. -/
theorem foldlM {f : σ → α → Result σ} (I : σ → Prop) :
    ∀ (l : List α) (s : σ), I s → (∀ s a, a ∈ l → I s → (f s a).Post I) → (l.foldlM f s).Post I
  | [], _, hs, _ => pure hs
  | a :: l, s, hs, hf =>
    bind (hf s a List.mem_cons_self hs) fun s' hs' =>
      foldlM I l s' hs' fun t b hb ht => hf t b (List.mem_cons_of_mem a hb) ht

end Result.Post

end Machine
