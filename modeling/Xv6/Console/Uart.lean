import Mathlib
import Xv6.Lib.Machine
import Xv6.Lib.Ring
import Xv6.Lib.Fifo

/-
  Xv6/Console/Uart.lean --- the transmit side of kernel/uart.c.

  `uartputc` puts a byte into `uart_tx_buf`, a ring of UART_TX_BUF_SIZE bytes
  under two unsigned 64-bit counters that wrap: byte `x` of the output sits in
  `uart_tx_buf[x % UART_TX_BUF_SIZE]`, `uart_tx_w` is where the next one goes
  and `uart_tx_r` the next one `uartstart` hands to the UART, all of it under
  `uart_tx_lock`.  A full buffer (`uart_tx_w == uart_tx_r + UART_TX_BUF_SIZE`)
  makes `uartputc` sleep until `uartstart` has taken a byte out.
  `uartstart`, called by `uartputc` and by the interrupt handler `uartintr`,
  gives bytes to the UART for as long as there are some and its holding
  register is empty.  After `panic()` has set `panicked`, `uartputc` spins
  for ever with the lock held.

  The system is the buffer and the threads in these functions, any number of
  them.  Each step is one critical section under `uart_tx_lock`, with the
  lock's holder part of the state: `uartputc` up to its call of `uartstart`;
  the return from `sleep` of a `uartputc` in its loop, which takes the lock
  back and tests the room again; `uartintr`'s acquire; and one round of
  `uartstart`'s loop, the last of which returns and lets its caller release
  the lock.  The UART is read only through LSR_TX_IDLE, whose value is an
  argument of the round, so every behaviour of the hardware is covered; a
  sleeper may return from `sleep` whenever the lock is free, which covers
  every order of `wakeup`s.  `uartputc_sync` and the receive side
  (`uartgetc`, and the loop of `uartintr` that feeds `consoleintr`) read and
  write none of this state.

  Beside the buffer two observations are kept: the bytes `uartputc` stored,
  in order, and the bytes `uartstart` wrote to THR, in order.  The system
  refines the bounded channel of Fifo.lean (`uartStep_chan`), whose law gives
  `uart_fifo`: the counters are never more than UART_TX_BUF_SIZE apart across
  a wrap, the bytes sent followed by the bytes held are exactly the bytes
  stored, and `uart_tx_lock` is held exactly by the thread in `uartstart` or
  spinning.  Once a thread spins in `uartputc` after a panic, nothing moves
  the buffer again (`uart_frozen_after_panic`).
-/

set_option autoImplicit false

namespace Xv6.Uart

open Machine

/-- UART_TX_BUF_SIZE. -/
def uartTxBufSize : Nat := 32

instance : NeZero uartTxBufSize := ⟨by decide⟩

theorem uartTxBufSize_dvd : uartTxBufSize ∣ 2 ^ 64 := ⟨2 ^ 59, by decide⟩

/-- The cell `x % UART_TX_BUF_SIZE` of `uart_tx_buf`. -/
def txIdx (x : UInt64) : Fin uartTxBufSize :=
  ⟨(x % 32).toNat, by rw [UInt64.toNat_mod]; exact Nat.mod_lt _ (by decide)⟩

theorem txIdx_eq_slot (x : UInt64) : txIdx x = Ring.slot uartTxBufSize x.toNat := by
  apply Fin.ext
  simp only [txIdx, Ring.slot, UInt64.toNat_mod]
  rfl

/-- Where a thread is in the transmit code. -/
inductive Pc where
  /-- outside `uartputc` and `uartintr` -/
  | idle
  /-- asleep in `uartputc(c)`'s loop, waiting for room, without the lock -/
  | sleeping (c : UInt8)
  /-- in `uartstart`, holding `uart_tx_lock` -/
  | start
  /-- in `uartputc`'s `for(;;)` after a panic, holding `uart_tx_lock` -/
  | spin
  deriving DecidableEq, Repr

/-- The places where a thread holds `uart_tx_lock`. -/
def Pc.holdsLock : Pc → Bool
  | .start | .spin => true
  | _ => false

/-- `uart_tx_buf`, `uart_tx_w`, `uart_tx_r` and `panicked`, the thread
holding `uart_tx_lock`, where each thread is, and the two observations. -/
structure Tx (τ : Type) where
  buf : Fin uartTxBufSize → UInt8
  w : UInt64
  r : UInt64
  panicked : Bool
  lock : Option τ
  pc : τ → Pc
  /-- the bytes `uartputc` stored, in order -/
  stored : List UInt8
  /-- the bytes `uartstart` wrote to THR, in order -/
  sent : List UInt8

/-- The steps of the transmit code, each by one thread `t`. -/
inductive Op (τ : Type) where
  /-- `uartputc(c)` up to its call of `uartstart`, or to its `sleep` -/
  | putc (t : τ) (c : UInt8)
  /-- a `uartputc` asleep in its loop returns from `sleep` -/
  | wake (t : τ)
  /-- `uartintr` acquires `uart_tx_lock` to call `uartstart` -/
  | intr (t : τ)
  /-- one round of `uartstart`'s loop; `idle` is LSR_TX_IDLE as it reads -/
  | round (t : τ) (idle : Bool)
  /-- `panic()` sets `panicked` -/
  | panic

section Steps

variable {τ : Type} [DecidableEq τ]

/-- `uart_tx_buf[uart_tx_w % UART_TX_BUF_SIZE] = c; uart_tx_w += 1;` by `t`,
which holds the lock and goes on into `uartstart`. -/
def Tx.store (s : Tx τ) (t : τ) (c : UInt8) : Tx τ :=
  { s with buf := Function.update s.buf (txIdx s.w) c, w := s.w + 1, lock := some t,
           pc := Function.update s.pc t .start, stored := s.stored ++ [c] }

section Store

variable (s : Tx τ) (t : τ) (c : UInt8)

@[simp] theorem Tx.store_buf : (s.store t c).buf = Function.update s.buf (txIdx s.w) c := rfl
@[simp] theorem Tx.store_w : (s.store t c).w = s.w + 1 := rfl
@[simp] theorem Tx.store_r : (s.store t c).r = s.r := rfl
@[simp] theorem Tx.store_panicked : (s.store t c).panicked = s.panicked := rfl
@[simp] theorem Tx.store_lock : (s.store t c).lock = some t := rfl
@[simp] theorem Tx.store_pc : (s.store t c).pc = Function.update s.pc t .start := rfl
@[simp] theorem Tx.store_stored : (s.store t c).stored = s.stored ++ [c] := rfl
@[simp] theorem Tx.store_sent : (s.store t c).sent = s.sent := rfl

end Store

/-- `uartputc(c)` by `t`: acquire the lock (spinning while another thread
holds it), spin for ever if `panicked`, sleep while the buffer is full (which
releases the lock), and otherwise store `c`. -/
def uartputc (s : Tx τ) (t : τ) (c : UInt8) : Result (Tx τ) :=
  if s.lock.isSome then .wait
  else if s.panicked then .ok { s with lock := some t, pc := Function.update s.pc t .spin }
  else if s.w = s.r + UInt64.ofNat uartTxBufSize then
    .ok { s with pc := Function.update s.pc t (.sleeping c) }
  else .ok (s.store t c)

/-- A `uartputc(c)` asleep in its `while` loop returns from `sleep`: it takes
the lock back and tests the room again, storing `c` or sleeping on. -/
def uartputcWake (s : Tx τ) (t : τ) (c : UInt8) : Result (Tx τ) :=
  if s.lock.isSome ∨ s.w = s.r + UInt64.ofNat uartTxBufSize then .wait
  else .ok (s.store t c)

/-- `uartintr`'s `acquire(&uart_tx_lock)` before it calls `uartstart`. -/
def uartintr (s : Tx τ) (t : τ) : Result (Tx τ) :=
  if s.lock.isSome then .wait
  else .ok { s with lock := some t, pc := Function.update s.pc t .start }

/-- One round of `uartstart`'s loop by `t`, reading LSR_TX_IDLE as `idle`.
With the buffer empty or the UART busy it returns, and its caller releases
the lock; otherwise it takes the byte at `uart_tx_r`, moves `uart_tx_r` on,
wakes the sleepers on it and writes the byte to THR. -/
def uartstart (s : Tx τ) (t : τ) (idle : Bool) : Tx τ :=
  if s.w = s.r ∨ idle = false then { s with lock := none, pc := Function.update s.pc t .idle }
  else { s with r := s.r + 1, sent := s.sent ++ [s.buf (txIdx s.r)] }

/-- The effect of one step.  A thread starts a call only when idle, and
takes a step of the place it is at. -/
def step (s : Tx τ) : Op τ → Result (Tx τ)
  | .putc t c => if s.pc t = .idle then uartputc s t c else .wait
  | .wake t =>
    match s.pc t with
    | .sleeping c => uartputcWake s t c
    | _ => .wait
  | .intr t => if s.pc t = .idle then uartintr s t else .wait
  | .round t idle => if s.pc t = .start then .ok (uartstart s t idle) else .wait
  | .panic => .ok { s with panicked := true }

/-- The transmit code at boot: an empty buffer, every thread outside it. -/
def uartSystem (τ : Type) [DecidableEq τ] : System (Tx τ) (Op τ) :=
  { init := ⟨fun _ => 0, 0, 0, false, none, fun _ => .idle, [], []⟩
    step := step }

/-- What a completed step does: store a byte (a `uartputc` that found room,
now or on waking), go to sleep on a full buffer, start spinning after a
panic, take the lock for `uartintr`, run a round of `uartstart`, or set
`panicked`. -/
theorem step_cases {s s' : Tx τ} {a : Op τ} (h : step s a = .ok s') :
    (∃ t c, s.lock = none ∧ s.w ≠ s.r + UInt64.ofNat uartTxBufSize ∧
      (s.pc t = .idle ∧ s.panicked = false ∨ s.pc t = .sleeping c) ∧ s' = s.store t c) ∨
    (∃ t c, s.pc t = .idle ∧ s.lock = none ∧ s.panicked = false ∧
      s.w = s.r + UInt64.ofNat uartTxBufSize ∧ s' = { s with pc := Function.update s.pc t (.sleeping c) }) ∨
    (∃ t, s.pc t = .idle ∧ s.lock = none ∧ s.panicked = true ∧
      s' = { s with lock := some t, pc := Function.update s.pc t .spin }) ∨
    (∃ t, s.pc t = .idle ∧ s.lock = none ∧ s' = { s with lock := some t, pc := Function.update s.pc t .start }) ∨
    (∃ t idle, s.pc t = .start ∧ s' = uartstart s t idle) ∨
    s' = { s with panicked := true } := by
  cases a with
  | putc t c =>
    simp only [step, uartputc] at h
    split_ifs at h with hidle hlock hpan hfull
    · cases h
      exact .inr (.inr (.inl ⟨t, hidle, Option.not_isSome_iff_eq_none.1 hlock, hpan, rfl⟩))
    · cases h
      exact .inr (.inl ⟨t, c, hidle, Option.not_isSome_iff_eq_none.1 hlock, by simpa using hpan, hfull, rfl⟩)
    · cases h
      exact .inl ⟨t, c, Option.not_isSome_iff_eq_none.1 hlock, hfull, .inl ⟨hidle, by simpa using hpan⟩, rfl⟩
  | wake t =>
    simp only [step] at h
    split at h
    · next c hpc =>
      simp only [uartputcWake] at h
      split_ifs at h with hbusy
      cases h
      rw [not_or, Option.not_isSome_iff_eq_none] at hbusy
      exact .inl ⟨t, c, hbusy.1, hbusy.2, .inr hpc, rfl⟩
    · cases h
  | intr t =>
    simp only [step, uartintr] at h
    split_ifs at h with hidle hlock
    cases h
    exact .inr (.inr (.inr (.inl ⟨t, hidle, Option.not_isSome_iff_eq_none.1 hlock, rfl⟩)))
  | round t idle =>
    simp only [step] at h
    split_ifs at h with hstart
    cases h
    exact .inr (.inr (.inr (.inr (.inl ⟨t, idle, hstart, rfl⟩))))
  | panic =>
    cases h
    exact .inr (.inr (.inr (.inr (.inr rfl))))

theorem uartstart_ret {s : Tx τ} {t : τ} {idle : Bool} (h : s.w = s.r ∨ idle = false) :
    uartstart s t idle = { s with lock := none, pc := Function.update s.pc t .idle } :=
  if_pos h

theorem uartstart_send {s : Tx τ} {t : τ} {idle : Bool} (h : ¬(s.w = s.r ∨ idle = false)) :
    uartstart s t idle = { s with r := s.r + 1, sent := s.sent ++ [s.buf (txIdx s.r)] } :=
  if_neg h

end Steps

/-! ## The lock and the bound -/

section Inv

variable {τ : Type} [DecidableEq τ]

/-- `uart_tx_lock` is held exactly by the thread at a place that holds it. -/
def LockOk (lock : Option τ) (pc : τ → Pc) : Prop := ∀ t, lock = some t ↔ (pc t).holdsLock = true

omit [DecidableEq τ] in
/-- The lock's law is the library's `Owns`, for the UART's places. -/
theorem LockOk.owns {lock : Option τ} {pc : τ → Pc} (h : LockOk lock pc) : Owns Pc.holdsLock lock pc := h

/-- Moving a thread to a place other than `spin` keeps every spinning thread
one that found `panicked` set. -/
theorem spin_update {pc : τ → Pc} {panicked : Bool} (h : ∀ t, pc t = .spin → panicked = true) (t : τ)
    {p : Pc} (hp : p ≠ .spin) : ∀ t', Function.update pc t p t' = .spin → panicked = true := by
  intro t' ht'
  by_cases htt : t' = t
  · subst htt
    rw [Function.update_self] at ht'
    exact absurd ht' hp
  · rw [Function.update_of_ne htt] at ht'
    exact h t' ht'

omit [DecidableEq τ] in
/-- The buffer is full exactly when the counters are UART_TX_BUF_SIZE apart. -/
theorem full_iff (s : Tx τ) : s.w = s.r + UInt64.ofNat uartTxBufSize ↔ (s.w - s.r).toNat = uartTxBufSize := by
  rw [Ring.U64.eq_add_iff_toNat_sub]
  rfl

/-- What every step keeps: the counters at most UART_TX_BUF_SIZE apart, the
lock held exactly by the thread in `uartstart` or spinning, and a thread
spinning only after a panic. -/
structure Inv (s : Tx τ) : Prop where
  bound : (s.w - s.r).toNat ≤ uartTxBufSize
  lock : LockOk s.lock s.pc
  panicked_of_spin : ∀ t, s.pc t = .spin → s.panicked = true

namespace Inv

variable {s : Tx τ}

omit [DecidableEq τ] in
theorem holder (h : Inv s) {t : τ} (ht : (s.pc t).holdsLock = true) : s.lock = some t :=
  (h.lock t).2 ht

theorem init : Inv (uartSystem τ).init where
  bound := show ((0 : UInt64) - 0).toNat ≤ uartTxBufSize by decide
  lock := fun t => by simp [uartSystem, Pc.holdsLock]
  panicked_of_spin := fun t ht => by cases ht

/-- A byte stored with room for it keeps the counters in bound. -/
theorem store (h : Inv s) (hfree : s.lock = none) (hroom : s.w ≠ s.r + UInt64.ofNat uartTxBufSize) (t : τ)
    (c : UInt8) : Inv (s.store t c) where
  bound := by
    have hlt : (s.w - s.r).toNat < uartTxBufSize := lt_of_le_of_ne h.bound (mt (full_iff s).2 hroom)
    show (s.w + 1 - s.r).toNat ≤ uartTxBufSize
    rw [Ring.U64.toNat_succ_sub (by unfold uartTxBufSize at hlt; omega)]
    omega
  lock := h.lock.owns.take hfree t rfl
  panicked_of_spin := spin_update h.panicked_of_spin t (by decide)

/-- A round of `uartstart` that returns releases the lock; one that sends
takes a byte out of a buffer that has one. -/
theorem uartstart (h : Inv s) {t : τ} (hstart : s.pc t = .start) (idle : Bool) :
    Inv (uartstart s t idle) := by
  have hheld : s.lock = some t := h.holder (by rw [hstart]; rfl)
  by_cases hret : s.w = s.r ∨ idle = false
  · rw [uartstart_ret hret]
    exact ⟨h.bound, h.lock.owns.release hheld rfl, spin_update h.panicked_of_spin t (by decide)⟩
  · rw [uartstart_send hret]
    have hne : s.r ≠ s.w := fun heq => hret (.inl heq.symm)
    have hpos : 0 < (s.w - s.r).toNat := by
      have := (Ring.U64.eq_iff_toNat_sub_eq_zero s.r s.w).not.1 hne
      omega
    refine ⟨?_, h.lock, h.panicked_of_spin⟩
    show (s.w - (s.r + 1)).toNat ≤ uartTxBufSize
    rw [Ring.U64.toNat_sub_succ hpos]
    exact (Nat.sub_le _ _).trans h.bound

/-- Every step keeps the invariant. -/
theorem step (h : Inv s) {a : Op τ} {s' : Tx τ} (hs : Uart.step s a = .ok s') : Inv s' := by
  rcases step_cases hs with ⟨t, c, hfree, hroom, -, rfl⟩ | ⟨t, c, -, hfree, -, -, rfl⟩ |
    ⟨t, -, hfree, hpan, rfl⟩ | ⟨t, -, hfree, rfl⟩ | ⟨t, idle, hstart, rfl⟩ | rfl
  · exact h.store hfree hroom t c
  -- to sleep: the lock stays free
  · exact ⟨h.bound, h.lock.owns.update t _ (by simp [hfree, Pc.holdsLock]) fun _ _ => Iff.rfl,
      spin_update h.panicked_of_spin t (by simp)⟩
  -- to spin, after a panic
  · exact ⟨h.bound, h.lock.owns.take hfree t rfl, fun _ _ => hpan⟩
  -- `uartintr` takes the lock
  · exact ⟨h.bound, h.lock.owns.take hfree t rfl, spin_update h.panicked_of_spin t (by decide)⟩
  · exact h.uartstart hstart idle
  · exact ⟨h.bound, h.lock, fun _ _ => rfl⟩

/-- While a thread spins in `uartputc`, the lock is its for good: a step that
takes the lock or runs `uartstart` does not complete, and `panic` finds
`panicked` already set. -/
theorem step_of_spin (h : Inv s) {t : τ} (hspin : s.pc t = .spin) {a : Op τ} {s' : Tx τ}
    (hs : Uart.step s a = .ok s') : s' = s := by
  have hheld : s.lock = some t := h.holder (by rw [hspin]; rfl)
  rcases step_cases hs with ⟨_, _, hfree, -⟩ | ⟨_, _, -, hfree, -⟩ | ⟨_, -, hfree, -⟩ | ⟨_, -, hfree, -⟩ |
    ⟨t', idle, hstart, -⟩ | rfl
  · simp [hheld] at hfree
  · simp [hheld] at hfree
  · simp [hheld] at hfree
  · simp [hheld] at hfree
  -- the thread in `uartstart` would hold the lock too
  · have ht' : s.lock = some t' := h.holder (by rw [hstart]; rfl)
    rw [hheld, Option.some.injEq] at ht'
    subst ht'
    rw [hspin] at hstart
    cases hstart
  · have hpan := h.panicked_of_spin t hspin
    obtain ⟨buf, w, r, panicked, lock, pc, stored, sent⟩ := s
    dsimp only at hpan
    subst hpan
    rfl

end Inv

end Inv

/-! ## The buffer is a bounded channel -/

section Chan

variable {τ : Type} [DecidableEq τ]

/-- The bytes stored and not yet sent, oldest first. -/
def Tx.pending (s : Tx τ) : List UInt8 := Ring.window s.buf s.r.toNat (s.w - s.r).toNat

/-- The buffer seen as a channel of capacity UART_TX_BUF_SIZE. -/
def Tx.chan (s : Tx τ) : Fifo.Chan UInt8 := ⟨s.stored, s.sent, s.pending⟩

/-- A byte stored with room for it goes in at the back. -/
theorem Tx.pending_store {s : Tx τ} (hlt : (s.w - s.r).toNat < uartTxBufSize) (t : τ) (c : UInt8) :
    (s.store t c).pending = s.pending ++ [c] := by
  show Ring.window (Function.update s.buf (txIdx s.w) c) s.r.toNat (s.w + 1 - s.r).toNat =
    Ring.window s.buf s.r.toNat (s.w - s.r).toNat ++ [c]
  rw [txIdx_eq_slot]
  exact Ring.U64.window_push uartTxBufSize_dvd (by decide) s.buf s.r s.w hlt c

omit [DecidableEq τ] in
/-- The byte a round of `uartstart` sends is the front one. -/
theorem Tx.pending_send {s : Tx τ} (hne : s.r ≠ s.w) :
    s.pending = s.buf (txIdx s.r) ::
      Tx.pending { s with r := s.r + 1, sent := s.sent ++ [s.buf (txIdx s.r)] } := by
  show Ring.window s.buf s.r.toNat (s.w - s.r).toNat =
    s.buf (txIdx s.r) :: Ring.window s.buf (s.r + 1).toNat (s.w - (s.r + 1)).toNat
  rw [txIdx_eq_slot]
  exact Ring.U64.window_pop uartTxBufSize_dvd s.buf hne

/-- The simulation: every completed step keeps the invariant and either
leaves the channel as it was or is a step of the channel, a store an `enq`
and a round that sends a `deq`. -/
theorem uartStep_chan {s s' : Tx τ} {a : Op τ} (h : Inv s) (hs : step s a = .ok s') :
    Inv s' ∧ (s'.chan = s.chan ∨ ∃ a', Fifo.step uartTxBufSize s.chan a' = .ok s'.chan) := by
  refine ⟨h.step hs, ?_⟩
  rcases step_cases hs with ⟨t, c, -, hroom, -, rfl⟩ | ⟨t, c, -, -, -, -, rfl⟩ |
    ⟨t, -, -, -, rfl⟩ | ⟨t, -, -, rfl⟩ | ⟨t, idle, -, rfl⟩ | rfl
  · have hlt : (s.w - s.r).toNat < uartTxBufSize := lt_of_le_of_ne h.bound (mt (full_iff s).2 hroom)
    have hlen : s.chan.held.length < uartTxBufSize := by
      rw [show s.chan.held = s.pending from rfl, Tx.pending, Ring.length_window]
      exact hlt
    have hchan : (s.store t c).chan = ⟨s.chan.put ++ [c], s.chan.taken, s.chan.held ++ [c]⟩ :=
      congrArg (Fifo.Chan.mk (s.stored ++ [c]) s.sent) (Tx.pending_store hlt t c)
    exact .inr ⟨.enq c, by rw [Fifo.step_enq c hlen, hchan]⟩
  -- sleeping, spinning, taking the lock and `panic` move no byte
  · exact .inl rfl
  · exact .inl rfl
  · exact .inl rfl
  · by_cases hret : s.w = s.r ∨ idle = false
    · rw [uartstart_ret hret]
      exact .inl rfl
    · rw [uartstart_send hret]
      exact .inr ⟨.deq, Fifo.step_deq (Tx.pending_send fun heq => hret (.inl heq.symm))⟩
  · exact .inl rfl

theorem chan_init : (uartSystem τ).init.chan = (Fifo.system UInt8 uartTxBufSize).init := by
  simp [uartSystem, Tx.chan, Tx.pending, Fifo.system]

/-- Every reachable state satisfies the invariant, and its channel is one
the bounded channel reaches. -/
theorem inv_chan_of_reachable {s : Tx τ} (h : Reachable (uartSystem τ) s) :
    Inv s ∧ Reachable (Fifo.system UInt8 uartTxBufSize) s.chan :=
  Reachable.simulate Tx.chan Inv ⟨Inv.init, chan_init⟩ (fun _ _ _ hI hs => uartStep_chan hI hs) h

end Chan

/-! ## What every run keeps -/

section Runs

variable {τ : Type} [DecidableEq τ]

theorem uart_fifo {s : Tx τ} (h : Reachable (uartSystem τ) s) :
    (s.w - s.r).toNat ≤ uartTxBufSize ∧ s.sent ++ s.pending = s.stored ∧
      ∀ t, s.lock = some t ↔ (s.pc t).holdsLock = true := by
  obtain ⟨hI, hchan⟩ := inv_chan_of_reachable h
  exact ⟨hI.bound, (Fifo.conserve_of_reachable hchan).order, hI.lock⟩

/-- Two threads put a byte each while the UART is busy, then an interrupt
sends the first. -/
theorem uart_fifo_two_threads :
    ∃ s, run (uartSystem (Fin 2)) (uartSystem (Fin 2)).init
        [.putc 0 0x61, .round 0 false, .putc 1 0x62, .round 1 false, .intr 0, .round 0 true, .round 0 false] =
        .ok s ∧
      ((s.w - s.r).toNat ≤ uartTxBufSize ∧ s.sent ++ s.pending = s.stored ∧
        ∀ t, s.lock = some t ↔ (s.pc t).holdsLock = true) :=
  Exists.imp (fun s hs => ⟨hs, uart_fifo (reachable_of_run .init _ s hs)⟩) ⟨_, rfl⟩

theorem uart_frozen_after_panic {s : Tx τ} (h : Reachable (uartSystem τ) s) {t : τ} (hspin : s.pc t = .spin) :
    s.panicked = true ∧ s.lock = some t ∧
      ∀ (as : List (Op τ)) (s' : Tx τ), run (uartSystem τ) s as = .ok s' → s' = s := by
  have hI := (inv_chan_of_reachable h).1
  refine ⟨hI.panicked_of_spin t hspin, hI.holder (by rw [hspin]; rfl), fun as s' hrun => ?_⟩
  -- every completed step from `s` ends in `s`
  exact run_inv_on (fun x => x = s) (fun _ => True)
    (fun x _ x' hx _ hx' => by subst hx; exact hI.step_of_spin hspin hx') as rfl (fun _ _ => trivial) hrun

/-- A panic, then a `uartputc` that finds `panicked` set. -/
theorem uart_frozen_after_panic_putc :
    ∃ s, run (uartSystem (Fin 2)) (uartSystem (Fin 2)).init [.panic, .putc 0 0x61] = .ok s ∧ s.pc 0 = .spin ∧
      (s.panicked = true ∧ s.lock = some 0 ∧
        ∀ (as : List (Op (Fin 2))) (s' : Tx (Fin 2)), run (uartSystem (Fin 2)) s as = .ok s' → s' = s) := by
  obtain ⟨s, hrun⟩ : ∃ s, run (uartSystem (Fin 2)) (uartSystem (Fin 2)).init [.panic, .putc 0 0x61] = .ok s :=
    ⟨_, rfl⟩
  have hspin : s.pc 0 = .spin := by
    cases hrun
    rfl
  exact ⟨s, hrun, hspin, uart_frozen_after_panic (reachable_of_run .init _ s hrun) hspin⟩

end Runs

end Xv6.Uart
