import Xv6.Lib.Machine
import Xv6.Lib.Ring

/-
  Xv6/Console/Cons.lean --- console input (kernel/console.c).

  `cons.buf` holds INPUT_BUF_SIZE bytes of typed input under three unsigned
  32-bit counters that wrap: `r` is what `consoleread` has taken, `w` the end
  of the committed input, and `e` the end of the line being edited.  Byte `x`
  of the input sits in `buf[x % INPUT_BUF_SIZE]`.  `consoleintr` edits the
  line from `w` to `e`: backspace and ^U move `e` back, any other byte is
  appended at `e`, and a newline, a ^D or a full buffer commits the line by
  moving `w` up to `e`.  `consoleread` takes bytes from `r` up to `w`.

  The system is the console and processes in calls of `consoleread`, with
  input bytes arriving one `consoleintr` at a time.  A call is its start and
  then one step per iteration of its loop, each under `cons.lock`; the wait
  for input (`r == w`) is a step that waits, or returns -1 for a killed
  process.  Whether each `copyout` to the reader succeeds is an argument of
  the step.  The echo (`consputc`) and ^P's `procdump` print and change
  nothing here.

  Three observations are kept beside the console: the bytes committed, in the
  order their lines were committed; the bytes `consoleread` took out of `buf`
  (a ^D it puts back for the next read is not taken); and the bytes it copied
  out to a reader.
-/

set_option autoImplicit false

namespace Xv6.Console

open Machine

/-- INPUT_BUF_SIZE. -/
def inputBufSize : Nat := 128

instance : NeZero inputBufSize := ⟨by decide⟩

/-- `C(x)`: control-x, `x - '@'`. -/
def ctrl (x : Char) : UInt8 := x.toUInt8 - '@'.toUInt8

/-- The cell `x % INPUT_BUF_SIZE` of `buf`. -/
def bufIdx (x : UInt32) : Fin inputBufSize :=
  ⟨(x % 128).toNat, by rw [UInt32.toNat_mod]; exact Nat.mod_lt _ (by decide)⟩

/-- `cons`, without its lock. -/
structure Cons where
  buf : Fin inputBufSize → UInt8
  r : UInt32
  w : UInt32
  e : UInt32

/-- The `while` loop of ^U: erase back to the last newline, never past `w`.
Each round moves `e` one back towards `w`, so `e - w` rounds are enough. -/
def killLine : Nat → Cons → Cons
  | 0, cons => cons
  | fuel + 1, cons =>
    if cons.e ≠ cons.w ∧ cons.buf (bufIdx (cons.e - 1)) ≠ '\n'.toUInt8 then
      killLine fuel { cons with e := cons.e - 1 }
    else cons

/-- `consoleintr(c)` for an input byte `c`. -/
def consoleintr (cons : Cons) (c : UInt8) : Cons :=
  if c = ctrl 'P' then cons
  else if c = ctrl 'U' then killLine (cons.e - cons.w).toNat cons
  else if c = ctrl 'H' ∨ c = 0x7f then
    if cons.e ≠ cons.w then { cons with e := cons.e - 1 } else cons
  else if c ≠ 0 ∧ cons.e - cons.r < 128 then
    let c := if c = '\r'.toUInt8 then '\n'.toUInt8 else c
    let cons := { cons with buf := Function.update cons.buf (bufIdx cons.e) c, e := cons.e + 1 }
    -- a whole line, end-of-file, or a full buffer is committed
    if c = '\n'.toUInt8 ∨ c = ctrl 'D' ∨ cons.e - cons.r = 128 then { cons with w := cons.e } else cons
  else cons

/-- The committed bytes not yet taken, oldest first. -/
def Cons.pending (cons : Cons) : List UInt8 :=
  Ring.window cons.buf cons.r.toNat (cons.w - cons.r).toNat

namespace Cons

/-- `r ≤ w ≤ e ≤ r + INPUT_BUF_SIZE`, as distances modulo 2^32. -/
def Bound (cons : Cons) : Prop :=
  (cons.w - cons.r).toNat + (cons.e - cons.w).toNat ≤ inputBufSize

theorem inputBufSize_dvd : inputBufSize ∣ 2 ^ 32 := ⟨2 ^ 25, by decide⟩

theorem bufIdx_eq_slot (x : UInt32) : bufIdx x = Ring.slot inputBufSize x.toNat := by
  apply Fin.ext
  simp only [bufIdx, Ring.slot, UInt32.toNat_mod]
  rfl

/-- `e` names the cell `e - r` past `r`, across a wrap of either. -/
theorem bufIdx_e (cons : Cons) :
    bufIdx cons.e = Ring.slot inputBufSize (cons.r.toNat + (cons.e - cons.r).toNat) := by
  rw [bufIdx_eq_slot]
  exact Fin.ext (Ring.toNat_mod_eq_add_sub _ _ inputBufSize_dvd)

variable {cons : Cons}

/-- Moving `e` back, when it is past `w`, keeps the committed bytes. -/
theorem Bound.erase (h : cons.Bound) (hne : cons.e ≠ cons.w) :
    ({ cons with e := cons.e - 1 } : Cons).Bound ∧ ({ cons with e := cons.e - 1 } : Cons).pending = cons.pending := by
  have hpos : 0 < (cons.e - cons.w).toNat :=
    Nat.pos_of_ne_zero fun h0 => hne ((Ring.eq_iff_toNat_sub_eq_zero _ _).2 h0).symm
  refine ⟨?_, rfl⟩
  show (cons.w - cons.r).toNat + (cons.e - 1 - cons.w).toNat ≤ inputBufSize
  unfold Bound at h
  rw [Ring.toNat_pred_sub hpos]
  omega

/-- ^U's loop moves only `e`, and never past `w`. -/
theorem killLine_spec : ∀ (fuel : Nat) (cons : Cons), cons.Bound →
    (killLine fuel cons).Bound ∧ (killLine fuel cons).r = cons.r ∧ (killLine fuel cons).w = cons.w ∧
      (killLine fuel cons).pending = cons.pending := by
  intro fuel
  induction fuel with
  | zero => intro cons h; exact ⟨h, rfl, rfl, rfl⟩
  | succ fuel ih =>
    intro cons h
    rw [killLine]
    split_ifs with hcond
    · obtain ⟨h₁, hp₁⟩ := h.erase hcond.1
      obtain ⟨h₂, hr, hw, hp⟩ := ih _ h₁
      exact ⟨h₂, hr, hw, hp.trans hp₁⟩
    · exact ⟨h, rfl, rfl, rfl⟩

/-- A byte appended at `e`, with room for it, is none of the committed ones. -/
theorem Bound.append (h : cons.Bound) (hroom : (cons.e - cons.r).toNat < inputBufSize) (c : UInt8) :
    let cons' : Cons := { cons with buf := Function.update cons.buf (bufIdx cons.e) c, e := cons.e + 1 }
    cons'.Bound ∧ cons'.pending = cons.pending := by
  have hsum : (cons.e - cons.r).toNat = (cons.w - cons.r).toNat + (cons.e - cons.w).toNat :=
    Ring.toNat_sub_add_sub (by unfold Bound inputBufSize at h; omega)
  have he : (cons.e + 1 - cons.w).toNat = (cons.e - cons.w).toNat + 1 :=
    Ring.toNat_succ_sub (by unfold Bound inputBufSize at h; omega)
  refine ⟨?_, ?_⟩
  · show (cons.w - cons.r).toNat + (cons.e + 1 - cons.w).toNat ≤ inputBufSize
    rw [he]
    omega
  · unfold pending
    simp only [bufIdx_e]
    exact Ring.window_update_of_le _ _ (by omega) hroom c

/-- consoleread takes the byte at `r`, the first committed byte not yet
taken. -/
theorem Bound.take (h : cons.Bound) (hne : cons.r ≠ cons.w) :
    ({ cons with r := cons.r + 1 } : Cons).Bound ∧
      cons.pending = cons.buf (bufIdx cons.r) :: ({ cons with r := cons.r + 1 } : Cons).pending := by
  have hpos : 0 < (cons.w - cons.r).toNat :=
    Nat.pos_of_ne_zero fun h0 => hne ((Ring.eq_iff_toNat_sub_eq_zero _ _).2 h0)
  have hsub := Ring.toNat_sub_succ hpos
  refine ⟨?_, ?_⟩
  · show (cons.w - (cons.r + 1)).toNat + (cons.e - cons.w).toNat ≤ inputBufSize
    unfold Bound at h
    omega
  · show Ring.window cons.buf cons.r.toNat (cons.w - cons.r).toNat =
      cons.buf (bufIdx cons.r) :: Ring.window cons.buf (cons.r + 1).toNat (cons.w - (cons.r + 1)).toNat
    rw [Ring.window_pop _ _ hpos, hsub, bufIdx_eq_slot, UInt32.toNat_add, UInt32.toNat_one,
      Ring.window_mod inputBufSize_dvd]

/-- Committing the line moves `w` up to `e`: the edited bytes follow the
committed ones. -/
theorem Bound.commit (h : cons.Bound) :
    ({ cons with w := cons.e } : Cons).Bound ∧
      ({ cons with w := cons.e } : Cons).pending =
        cons.pending ++ Ring.window cons.buf cons.w.toNat (cons.e - cons.w).toNat := by
  have hsum : (cons.e - cons.r).toNat = (cons.w - cons.r).toNat + (cons.e - cons.w).toNat :=
    Ring.toNat_sub_add_sub (by unfold Bound inputBufSize at h; omega)
  refine ⟨?_, ?_⟩
  · show (cons.e - cons.r).toNat + (cons.e - cons.e).toNat ≤ inputBufSize
    rw [UInt32.sub_self, UInt32.toNat_zero, Nat.add_zero, hsum]
    exact h
  · show Ring.window cons.buf cons.r.toNat (cons.e - cons.r).toNat = _
    rw [hsum, Ring.window_add]
    congr 1
    exact Ring.window_congr (Ring.toNat_mod_eq_add_sub _ _ inputBufSize_dvd).symm _ _

/-- consoleintr's last branch: a byte appended at `e`, and the line committed
or not. -/
theorem Bound.appendStep (h : cons.Bound) (hroom : (cons.e - cons.r).toNat < inputBufSize) (c : UInt8)
    (commit : Prop) [Decidable commit] :
    let cons' : Cons := { cons with buf := Function.update cons.buf (bufIdx cons.e) c, e := cons.e + 1 }
    let cons'' : Cons := if commit then { cons' with w := cons'.e } else cons'
    cons''.Bound ∧ cons''.r = cons.r ∧
      cons''.pending = cons.pending ++ Ring.window cons''.buf cons.w.toNat (cons''.w - cons.w).toNat := by
  intro cons' cons''
  obtain ⟨hb, hp⟩ := h.append hroom c
  by_cases hc : commit
  · obtain ⟨hb', hp'⟩ := hb.commit
    simp only [cons'', if_pos hc]
    exact ⟨hb', rfl, by rw [hp', hp]⟩
  · simp only [cons'', if_neg hc]
    exact ⟨hb, rfl, by rw [hp, UInt32.sub_self, UInt32.toNat_zero, Ring.window_zero, List.append_nil]⟩

end Cons

/-- What `consoleintr` does to the committed bytes: it keeps them and appends
the line it commits, if any; `r` stays, and `e` stays within INPUT_BUF_SIZE
of it. -/
theorem consoleintr_spec {cons : Cons} (h : cons.Bound) (c : UInt8) :
    (consoleintr cons c).Bound ∧ (consoleintr cons c).r = cons.r ∧
      (consoleintr cons c).pending =
        cons.pending ++ Ring.window (consoleintr cons c).buf cons.w.toNat ((consoleintr cons c).w - cons.w).toNat := by
  -- the branches that commit nothing append an empty window
  have hnone : cons.pending ++ Ring.window cons.buf cons.w.toNat (cons.w - cons.w).toNat = cons.pending := by
    rw [UInt32.sub_self, UInt32.toNat_zero, Ring.window_zero, List.append_nil]
  unfold consoleintr
  by_cases hP : c = ctrl 'P'
  · rw [if_pos hP]
    exact ⟨h, rfl, hnone.symm⟩
  rw [if_neg hP]
  by_cases hU : c = ctrl 'U'
  · rw [if_pos hU]
    obtain ⟨hb, hr, hw, hp⟩ := Cons.killLine_spec _ cons h
    refine ⟨hb, hr, ?_⟩
    rw [hp, hw, UInt32.sub_self, UInt32.toNat_zero, Ring.window_zero, List.append_nil]
  rw [if_neg hU]
  by_cases hH : c = ctrl 'H' ∨ c = 0x7f
  · rw [if_pos hH]
    split_ifs with he
    · obtain ⟨hb, hp⟩ := h.erase he
      exact ⟨hb, rfl, by rw [hp]; exact hnone.symm⟩
    · exact ⟨h, rfl, hnone.symm⟩
  rw [if_neg hH]
  by_cases hdef : c ≠ 0 ∧ cons.e - cons.r < 128
  · rw [if_pos hdef]
    have hroom : (cons.e - cons.r).toNat < inputBufSize := UInt32.lt_iff_toNat_lt.1 hdef.2
    exact h.appendStep hroom _ _
  · rw [if_neg hdef]
    exact ⟨h, rfl, hnone.symm⟩

/-- Where a process is in a call: in `consoleread` with `target` bytes asked
for and `n` still to copy. -/
inductive Call where
  | idle
  | reading (target n : Int)

/-- The console, the processes reading it, what each call returned, and the
bytes committed, taken and delivered so far. -/
structure ConsSys (π : Type) where
  cons : Cons
  call : π → Call
  ret : π → Option Int
  committed : List UInt8
  taken : List UInt8
  returned : List UInt8

/-- A step of the console or of one process. -/
inductive Op (π : Type) where
  /-- the UART delivers byte `c` to `consoleintr` -/
  | intr (c : UInt8)
  /-- `consoleread(user_dst, dst, n)` is called -/
  | read (p : π) (n : Int)
  /-- one iteration of consoleread's loop; `copyOk` says whether its
  `either_copyout` succeeds, `killed` is `killed(myproc())` -/
  | readStep (p : π) (copyOk killed : Bool)

section Steps

variable {π : Type} [DecidableEq π]

/-- A call of `p` returns `r`. -/
def ConsSys.finish (s : ConsSys π) (p : π) (r : Int) : ConsSys π :=
  { s with call := Function.update s.call p .idle, ret := Function.update s.ret p (some r) }

/-- `consoleintr(c)`, recording the bytes it commits. -/
def intrStep (s : ConsSys π) (c : UInt8) : ConsSys π :=
  let cons := consoleintr s.cons c
  { s with cons := cons,
           committed := s.committed ++ Ring.window cons.buf s.cons.w.toNat (cons.w - s.cons.w).toNat }

/-- One iteration of consoleread's `while(n > 0)` loop.  The byte is taken
(`r++`) before it is copied out; a ^D after some bytes is put back (`r--`) for
the next read to return 0. -/
def consolereadStep (s : ConsSys π) (p : π) (target n : Int) (copyOk killed : Bool) : Result (ConsSys π) :=
  if n ≤ 0 then .ok (s.finish p (target - n))
  else if s.cons.r = s.cons.w then
    if killed then .ok (s.finish p (-1)) else .wait
  else
    let c := s.cons.buf (bufIdx s.cons.r)
    let cons := { s.cons with r := s.cons.r + 1 }
    if c = ctrl 'D' then
      if n < target then .ok ({ s with cons := { cons with r := cons.r - 1 } }.finish p (target - n))
      else .ok ({ s with cons := cons, taken := s.taken ++ [c] }.finish p (target - n))
    else
      let s := { s with cons := cons, taken := s.taken ++ [c] }
      if !copyOk then .ok (s.finish p (target - n))
      else
        let s := { s with returned := s.returned ++ [c] }
        if c = '\n'.toUInt8 then .ok (s.finish p (target - (n - 1)))
        else .ok { s with call := Function.update s.call p (.reading target (n - 1)) }

/-- The effect of one step.  A process starts a call only when idle, and takes
a step of the call it is in. -/
def step (s : ConsSys π) : Op π → Result (ConsSys π)
  | .intr c => .ok (intrStep s c)
  | .read p n =>
    match s.call p with
    | .idle => .ok { s with call := Function.update s.call p (.reading n n) }
    | _ => .wait
  | .readStep p copyOk killed =>
    match s.call p with
    | .reading target n => consolereadStep s p target n copyOk killed
    | _ => .wait

/-- The console at boot, with every process idle. -/
def consSystem (π : Type) [DecidableEq π] : System (ConsSys π) (Op π) :=
  { init := ⟨⟨fun _ => 0, 0, 0, 0⟩, fun _ => .idle, fun _ => none, [], [], []⟩
    step := step }

end Steps

end Xv6.Console
