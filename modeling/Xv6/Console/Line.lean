import Xv6.Console.Cons

/-
  Xv6/Console/Line.lean --- what the console delivers.

  The invariant `ConsInv` of the console system: `r ≤ w ≤ e ≤ r +
  INPUT_BUF_SIZE` as distances modulo 2^32, every committed byte was either
  taken by consoleread or is still between `r` and `w`, in order, and what
  readers received is a subsequence of the bytes taken other than the ^Ds.
  `consoleintr` keeps it because its erasing never moves `e` below `w` and its
  appending writes only past `w` (`consoleintr_spec`); an iteration of
  consoleread takes the byte at `r` or ends the call with the console as it
  was, a ^D put back included (`consolereadStep_eq_ok`).

  Over every run, `console_line_discipline`; over every run in which each
  copyout succeeds, the bytes delivered are exactly the committed bytes
  without the ^Ds, up to those not yet read (`console_delivers_committed`).
  A copyout that faults ends the call with the byte already taken: it is never
  delivered (`consoleread_drops_byte_on_copyout_fault`).
-/

set_option autoImplicit false

namespace Xv6.Console

open Machine

variable {π : Type}

/-- The bytes a reader can receive: those taken, without the ^Ds. -/
def delivered (taken : List UInt8) : List UInt8 :=
  taken.filter (· != ctrl 'D')

@[simp] theorem delivered_append (xs ys : List UInt8) :
    delivered (xs ++ ys) = delivered xs ++ delivered ys :=
  List.filter_append _ _

/-- The console invariant. -/
structure ConsInv (s : ConsSys π) : Prop where
  bound : s.cons.Bound
  stream : s.committed = s.taken ++ s.cons.pending
  returned_sublist : s.returned.Sublist (delivered s.taken)

/-! ## What a step can do -/

section Steps

variable [DecidableEq π] {s s' : ConsSys π}

/-- One iteration of consoleread either ends the call and leaves the console
as it was (no bytes asked for, a killed reader, or a ^D put back), or takes the
byte at `r` and delivers it when it is not a ^D and its copyout succeeds. -/
theorem consolereadStep_eq_ok {p : π} {target n : Int} {copyOk killed : Bool}
    (hs : consolereadStep s p target n copyOk killed = .ok s') :
    (∃ r, s' = s.finish p r) ∨
      (s.cons.r ≠ s.cons.w ∧ ∃ (call : π → Call) (ret : π → Option Int),
        s' = { s with cons := { s.cons with r := s.cons.r + 1 }, call := call, ret := ret,
                      taken := s.taken ++ [s.cons.buf (bufIdx s.cons.r)],
                      returned := s.returned ++
                        (if copyOk then delivered [s.cons.buf (bufIdx s.cons.r)] else []) }) := by
  simp only [consolereadStep] at hs
  split_ifs at hs with hn hrw hkill hD hlt hok hnl
  · exact .inl ⟨_, (Result.ok.inj hs).symm⟩
  · exact .inl ⟨_, (Result.ok.inj hs).symm⟩
  · -- the ^D is put back: r + 1 - 1 is r again
    cases hs
    refine .inl ⟨target - n, ?_⟩
    rw [UInt32.add_sub_cancel]
  · -- a ^D that is the first byte is taken and never delivered
    cases hs
    refine .inr ⟨hrw, Function.update s.call p .idle, Function.update s.ret p (some (target - n)), ?_⟩
    cases copyOk <;> simp [ConsSys.finish, delivered, hD]
  · -- the copyout faults: the byte is taken and lost
    cases hs
    refine .inr ⟨hrw, Function.update s.call p .idle, Function.update s.ret p (some (target - n)), ?_⟩
    simp only [Bool.not_eq_eq_eq_not, Bool.not_true] at hok
    simp [ConsSys.finish, hok]
  · cases hs
    refine .inr ⟨hrw, Function.update s.call p .idle, Function.update s.ret p (some (target - (n - 1))), ?_⟩
    simp only [Bool.not_eq_true'] at hok
    simp [ConsSys.finish, delivered, hD, hok]
  · cases hs
    refine .inr ⟨hrw, Function.update s.call p (.reading target (n - 1)), s.ret, ?_⟩
    simp only [Bool.not_eq_true'] at hok
    simp [delivered, hD, hok]

/-- A step of the console system either moves processes between calls,
runs `consoleintr`, or is an iteration of a read. -/
theorem step_eq_ok {a : Op π} (hs : step s a = .ok s') :
    (∃ (call : π → Call) (ret : π → Option Int), s' = { s with call := call, ret := ret }) ∨
      (∃ c, s' = intrStep s c) ∨
      (∃ p target n copyOk killed, a = .readStep p copyOk killed ∧
        consolereadStep s p target n copyOk killed = .ok s') := by
  cases a with
  | intr c =>
    cases hs
    exact .inr (.inl ⟨c, rfl⟩)
  | read p n =>
    simp only [step] at hs
    split at hs
    · cases hs
      exact .inl ⟨_, _, rfl⟩
    · cases hs
  | readStep p copyOk killed =>
    simp only [step] at hs
    split at hs
    · next target n _ => exact .inr (.inr ⟨p, target, n, copyOk, killed, rfl, hs⟩)
    · cases hs

end Steps

/-! ## One step keeps the invariant -/

namespace ConsInv

variable {s : ConsSys π}

/-- Steps that only move processes between calls keep the invariant. -/
theorem setCall (h : ConsInv s) (call : π → Call) (ret : π → Option Int) :
    ConsInv { s with call := call, ret := ret } :=
  ⟨h.bound, h.stream, h.returned_sublist⟩

/-- `consoleintr` keeps the committed bytes and appends those of the line it
commits. -/
theorem intr (h : ConsInv s) (c : UInt8) : ConsInv (intrStep s c) := by
  obtain ⟨hb, -, hp⟩ := consoleintr_spec h.bound c
  refine ⟨hb, ?_, h.returned_sublist⟩
  show s.committed ++ _ = s.taken ++ (consoleintr s.cons c).pending
  rw [hp, h.stream, List.append_assoc]

/-- Taking the byte at `r` moves it from the pending bytes to the taken ones;
the reader receives it or not. -/
theorem take (h : ConsInv s) (hne : s.cons.r ≠ s.cons.w) (call : π → Call) (ret : π → Option Int)
    (copyOk : Bool) :
    ConsInv { s with cons := { s.cons with r := s.cons.r + 1 }, call := call, ret := ret,
                     taken := s.taken ++ [s.cons.buf (bufIdx s.cons.r)],
                     returned := s.returned ++
                       (if copyOk then delivered [s.cons.buf (bufIdx s.cons.r)] else []) } := by
  obtain ⟨hb, hp⟩ := h.bound.take hne
  refine ⟨hb, ?_, ?_⟩
  · show s.committed = (s.taken ++ [_]) ++ _
    rw [h.stream, hp, List.append_assoc, List.singleton_append]
  · show (s.returned ++ (if copyOk then _ else [])).Sublist (delivered (s.taken ++ [_]))
    rw [delivered_append]
    cases copyOk
    · rw [if_neg Bool.false_ne_true, List.append_nil]
      exact h.returned_sublist.trans (List.sublist_append_left _ _)
    · rw [if_pos rfl]
      exact h.returned_sublist.append (List.Sublist.refl _)

variable [DecidableEq π]

theorem consolereadStep (h : ConsInv s) {p : π} {target n : Int} {copyOk killed : Bool} {s' : ConsSys π}
    (hs : consolereadStep s p target n copyOk killed = .ok s') : ConsInv s' := by
  rcases consolereadStep_eq_ok hs with ⟨r, rfl⟩ | ⟨hne, call, ret, rfl⟩
  · exact h.setCall _ _
  · exact h.take hne call ret copyOk

/-- Every step of the console system keeps the invariant. -/
theorem step (h : ConsInv s) {a : Op π} {s' : ConsSys π} (hs : step s a = .ok s') : ConsInv s' := by
  rcases step_eq_ok hs with ⟨call, ret, rfl⟩ | ⟨c, rfl⟩ | ⟨p, target, n, copyOk, killed, -, hread⟩
  · exact h.setCall call ret
  · exact h.intr c
  · exact h.consolereadStep hread

end ConsInv

/-! ## Every run -/

section Runs

variable [DecidableEq π]

theorem consInv_init : ConsInv (consSystem π).init where
  bound := show (0 - 0 : UInt32).toNat + (0 - 0 : UInt32).toNat ≤ inputBufSize by decide
  stream := show ([] : List UInt8) = [] ++ Ring.window (fun _ => 0) (0 : UInt32).toNat ((0 : UInt32) - 0).toNat from rfl
  returned_sublist := List.Sublist.slnil

theorem consInv_of_reachable {s : ConsSys π} (h : Reachable (consSystem π) s) : ConsInv s :=
  Reachable.rec_inv ConsInv consInv_init (fun _ _ _ hs hstep => hs.step hstep) h

/-- In every reachable state, with any number of readers and any input, `r ≤
w ≤ e ≤ r + INPUT_BUF_SIZE` across wraps of the counters, the committed bytes
are those taken followed by those from `r` to `w`, and readers have received a
subsequence of the committed bytes other than the ^Ds. -/
theorem console_line_discipline {s : ConsSys π} (h : Reachable (consSystem π) s) :
    (s.cons.w - s.cons.r).toNat + (s.cons.e - s.cons.w).toNat ≤ inputBufSize ∧
    s.committed = s.taken ++ Ring.window s.cons.buf s.cons.r.toNat (s.cons.w - s.cons.r).toNat ∧
    s.returned.Sublist (delivered s.committed) := by
  have hinv := consInv_of_reachable h
  refine ⟨hinv.bound, hinv.stream, ?_⟩
  rw [hinv.stream, delivered_append]
  exact hinv.returned_sublist.trans (List.sublist_append_left _ _)

set_option maxRecDepth 20000 in
/-- A line "a\n" typed, then a read of up to 4 bytes takes its first byte. -/
theorem console_line_discipline_one_line :
    ∃ s, run (consSystem (Fin 2)) (consSystem (Fin 2)).init
        [.intr 0x61, .intr 0x0a, .read 0 4, .readStep 0 true false] = .ok s ∧
      (s.cons.w - s.cons.r).toNat + (s.cons.e - s.cons.w).toNat ≤ inputBufSize ∧
      s.committed = s.taken ++ Ring.window s.cons.buf s.cons.r.toNat (s.cons.w - s.cons.r).toNat ∧
      s.returned.Sublist (delivered s.committed) :=
  Exists.imp (fun s hs => ⟨hs, console_line_discipline (reachable_of_run .init _ s hs)⟩) ⟨_, rfl⟩

/-- A step whose copyout, if it makes one, succeeds. -/
def Op.copyoutOk : Op π → Bool
  | .readStep _ copyOk _ => copyOk
  | _ => true

/-- A step whose copyout succeeds delivers every byte it takes, except a ^D. -/
theorem step_returned_eq_delivered {s s' : ConsSys π} {a : Op π} (hret : s.returned = delivered s.taken)
    (hok : a.copyoutOk) (hs : step s a = .ok s') : s'.returned = delivered s'.taken := by
  rcases step_eq_ok hs with ⟨call, ret, rfl⟩ | ⟨c, rfl⟩ | ⟨p, target, n, copyOk, killed, rfl, hread⟩
  · exact hret
  · exact hret
  · rcases consolereadStep_eq_ok hread with ⟨r, rfl⟩ | ⟨-, call, ret, rfl⟩
    · exact hret
    · -- the copyout was made and succeeded
      simp only [Op.copyoutOk] at hok
      show s.returned ++ (if copyOk then _ else []) = delivered (s.taken ++ _)
      rw [if_pos hok, hret, delivered_append]

/-- In a run in which every copyout succeeds, readers receive exactly the
committed bytes without the ^Ds, in order and each once, up to the bytes not
yet read. -/
theorem console_delivers_committed {ops : List (Op π)} {s : ConsSys π}
    (hrun : run (consSystem π) (consSystem π).init ops = .ok s) (hok : ∀ a ∈ ops, a.copyoutOk) :
    delivered s.committed = s.returned ++ delivered s.cons.pending := by
  have hinv := consInv_of_reachable (reachable_of_run .init ops s hrun)
  have hret : s.returned = delivered s.taken :=
    run_inv_on (fun s : ConsSys π => s.returned = delivered s.taken) (fun a => a.copyoutOk)
      (fun _ _ _ hs ha hstep => step_returned_eq_delivered hs ha hstep) ops rfl hok hrun
  rw [hinv.stream, hret, delivered_append]

set_option maxRecDepth 20000 in
/-- The line "a\n" read in full by two rounds whose copyouts succeed. -/
theorem console_delivers_committed_one_line :
    ∃ s, run (consSystem (Fin 2)) (consSystem (Fin 2)).init
        [.intr 0x61, .intr 0x0a, .read 0 4, .readStep 0 true false, .readStep 0 true false] = .ok s ∧
      delivered s.committed = s.returned ++ delivered s.cons.pending :=
  Exists.imp (fun s hs => ⟨hs, console_delivers_committed hs (by decide)⟩) ⟨_, rfl⟩

/-- The first byte not taken is a ^D exactly when `r ≠ w` and the cell at `r`
holds one. -/
theorem pending_head_eof {cons : Cons} (h : cons.Bound) (hD : cons.pending.head? = some (ctrl 'D')) :
    cons.r ≠ cons.w ∧ cons.buf (bufIdx cons.r) = ctrl 'D' := by
  have hne : cons.r ≠ cons.w := by
    intro heq
    rw [Cons.pending, heq, UInt32.sub_self, UInt32.toNat_zero, Ring.window_zero] at hD
    cases hD
  refine ⟨hne, ?_⟩
  rw [(h.take hne).2, List.head?_cons, Option.some_inj] at hD
  exact hD

end Runs

/-! ## A byte lost to a faulting copyout -/

/-- The user types "a" and a carriage return (bytes 97 and 13), which commits
the line "a\n".  Process 0 calls read(0, addr, 2) with `addr` unmapped:
consoleread takes 'a', its copyout faults, and it returns 0.  Process 0 reads
again at a good address and receives only the newline.  'a' was committed and
is never delivered. -/
theorem consoleread_drops_byte_on_copyout_fault :
    ∃ s₁ s₂, run (consSystem (Fin 1)) (consSystem (Fin 1)).init
        [.intr 97, .intr 13, .read 0 2, .readStep 0 false false] = .ok s₁ ∧ s₁.ret 0 = some 0 ∧
      run (consSystem (Fin 1)) s₁ [.read 0 2, .readStep 0 true false] = .ok s₂ ∧ s₂.ret 0 = some 1 ∧
      s₂.committed = [97, 10] ∧ s₂.returned = [10] ∧ s₂.cons.r = s₂.cons.w := by
  have h : (run (consSystem (Fin 1)) (consSystem (Fin 1)).init
        [.intr 97, .intr 13, .read 0 2, .readStep 0 false false]).get?.map
      (fun s₁ => decide (s₁.ret 0 = some 0) &&
        ((run (consSystem (Fin 1)) s₁ [.read 0 2, .readStep 0 true false]).get?.map
          fun s₂ => decide (s₂.ret 0 = some 1 ∧ s₂.committed = [97, 10] ∧ s₂.returned = [10] ∧
            s₂.cons.r = s₂.cons.w)) == some true) = some true := by
    decide +kernel
  obtain ⟨s₁, hrun₁, hs₁⟩ := Option.map_eq_some_iff.1 h
  simp only [Bool.and_eq_true, decide_eq_true_eq, beq_iff_eq] at hs₁
  obtain ⟨s₂, hrun₂, hs₂⟩ := Option.map_eq_some_iff.1 hs₁.2
  exact ⟨s₁, s₂, Result.get?_eq_some.1 hrun₁, hs₁.1, Result.get?_eq_some.1 hrun₂, of_decide_eq_true hs₂⟩

end Xv6.Console
