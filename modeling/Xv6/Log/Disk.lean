import Xv6.Lib.Writes
import Xv6.Param

/-
  Xv6/Log/Disk.lean --- the on-disk side of the write-ahead log (kernel/log.c).

  WHAT IS MODELLED.  The disk is a map from block numbers to block contents, and
  each function of log.c that writes the disk is modelled by the TRACE of single
  block writes it performs, in program order.  A crash keeps a prefix of a
  trace, so the traces are exactly what the crash-atomicity argument
  (Xv6/Log/Crash.lean) needs.  Where the C code reads a block before writing
  another, the trace reads the disk as the earlier writes of the same trace have
  left it: `installTrans` reads log block `tail` only after installing blocks
  `0 .. tail-1`, as the loop in `install_trans` does.

  THE HEADER.  `struct logheader { int n; int block[LOGSIZE]; }` is cast onto the
  data of block `log.start`.  A block is modelled as its 32-bit words, so the
  cast reads word 0 as `n` and word `i+1` as `block[i]`.  `write_head` changes
  only the words it assigns; the others keep what `bread` returned.  Block
  numbers are small (below `FSSIZE`), so the `uint`/`int` conversions between
  `b->blockno` and `log.lh.block[i]` are exact, and the in-memory header is the
  list of its first `n` entries.

  THE BUFFER CACHE.  `write_log` copies each logged block from the buffer cache;
  its content there is the function `cache`.  `install_trans` reads the log block
  through the cache, and the cache holds what `write_log` just wrote to disk, so
  the trace reads it from the disk.
-/

set_option autoImplicit false

namespace Xv6.Log

open Writes

/-- A disk block, seen as its words: word `w` is bytes `4*w .. 4*w+3`. -/
abbrev Block := Nat → Int

/-- The disk: the contents of every block number. -/
abbrev Disk := Nat → Block

/-- A trace of single-block disk writes, oldest first. -/
abbrev Trace := List (Nat × Block)

/-! ## The header block -/

/-- `read_head`: the first `n` entries of the header block, `n` being word 0. -/
def readHead (b : Block) : List Nat :=
  (List.range (b 0).toNat).map fun i => (b (i + 1)).toNat

/-- `write_head`: the header block after `hb->n = log.lh.n` and
`hb->block[i] = log.lh.block[i]` for `i < n`; every other word is unchanged. -/
def writeHead (b : Block) (lh : List Nat) : Block := fun w =>
  if w = 0 then (lh.length : Int)
  else if h : w - 1 < lh.length then (lh[w - 1] : Int) else b w

/-! ## The write traces of log.c -/

/-- `write_log`: block `lh[tail]`, as the cache holds it, goes to log block
`start + tail + 1`. -/
def writeLog (start : Nat) (cache : Nat → Block) : Nat → List Nat → Trace
  | _, [] => []
  | tail, b :: bs => (start + tail + 1, cache b) :: writeLog start cache (tail + 1) bs

/-- `install_trans`: log block `start + tail + 1`, read when the loop reaches
`tail`, is copied to its home block `lh[tail]`.  The `recovering` flag only
decides whether the home buffer is unpinned; it does not change the writes. -/
def installTrans (start : Nat) : Nat → List Nat → Disk → Trace
  | _, [], _ => []
  | tail, b :: bs, d =>
    (b, d (start + tail + 1)) ::
      installTrans start (tail + 1) bs (Function.update d b (d (start + tail + 1)))

/-- `commit`: nothing when the log is empty; otherwise `write_log`, the header
write that commits, `install_trans(0)`, and the header write that erases the
transaction. -/
def commit (start : Nat) (cache : Nat → Block) (lh : List Nat) (d : Disk) : Trace :=
  if lh.length > 0 then
    let w1 := writeLog start cache 0 lh
    let d1 := applyWrites w1 d
    let h1 := (start, writeHead (d1 start) lh)
    let d2 := Function.update d1 start h1.2
    let w3 := installTrans start 0 lh d2
    let d3 := applyWrites w3 d2
    w1 ++ h1 :: w3 ++ [(start, writeHead (d3 start) [])]
  else []

/-- `recover_from_log`: `read_head`, `install_trans(1)`, then `write_head` with
`log.lh.n = 0`. -/
def recoverFromLog (start : Nat) (d : Disk) : Trace :=
  let ws := installTrans start 0 (readHead (d start)) d
  ws ++ [(start, writeHead (applyWrites ws d start) [])]

/-- The disk after a complete, uninterrupted recovery. -/
def recover (start : Nat) (d : Disk) : Disk :=
  applyWrites (recoverFromLog start d) d

/-- The disk a crash leaves after the first `k` writes of a trace. -/
def crash (ws : Trace) (k : Nat) (d : Disk) : Disk :=
  applyWrites (ws.take k) d

/-! ## The header round trip -/

/-- `read_head` after `write_head` gives back the header that was written. -/
@[simp] theorem readHead_writeHead (b : Block) (lh : List Nat) :
    readHead (writeHead b lh) = lh := by
  apply List.ext_getElem
  · simp [readHead, writeHead]
  · intro i h1 h2
    have hi : i < lh.length := by simpa [readHead, writeHead] using h1
    simp [readHead, writeHead, hi]

/-- Erasing the header twice is erasing it once. -/
@[simp] theorem writeHead_writeHead_nil (b : Block) :
    writeHead (writeHead b []) [] = writeHead b [] := by
  funext w
  by_cases hw : w = 0 <;> simp [writeHead, hw]

/-! ## `write_log` -/

@[simp] theorem length_writeLog (start : Nat) (cache : Nat → Block) (tail : Nat)
    (bs : List Nat) : (writeLog start cache tail bs).length = bs.length := by
  induction bs generalizing tail with
  | nil => rfl
  | cons b bs ih => simp [writeLog, ih]

/-- `write_log` writes only the log slots `start + tail + 1 .. start + tail + n`. -/
theorem writeLog_slot (start : Nat) (cache : Nat → Block) (tail : Nat) (bs : List Nat)
    {p : Nat × Block} (hp : p ∈ writeLog start cache tail bs) :
    start + tail + 1 ≤ p.1 ∧ p.1 ≤ start + tail + bs.length := by
  induction bs generalizing tail with
  | nil => simp [writeLog] at hp
  | cons b bs ih =>
    rcases List.mem_cons.1 hp with rfl | hp
    · simp
    · have := ih (tail + 1) hp
      simp only [List.length_cons]
      omega

/-- After `write_log`, log slot `tail + 1 + i` holds the cached block `bs[i]`. -/
theorem applyWrites_writeLog (start : Nat) (cache : Nat → Block) (tail : Nat)
    (bs : List Nat) (d : Disk) (i : Nat) (hi : i < bs.length) :
    applyWrites (writeLog start cache tail bs) d (start + tail + 1 + i) = cache bs[i] := by
  induction bs generalizing tail i d with
  | nil => simp at hi
  | cons b bs ih =>
    cases i with
    | zero =>
      -- the later writes go to later slots
      simp only [writeLog, applyWrites_cons]
      rw [applyWrites_of_forall_ne]
      · simp
      · intro p hp
        have := writeLog_slot start cache (tail + 1) bs hp
        omega
    | succ i =>
      have h := ih (tail + 1) (Function.update d (start + tail + 1) (cache b)) i
        (by simpa using hi)
      simp only [writeLog, applyWrites_cons, List.getElem_cons_succ]
      rw [← h]
      congr 1
      omega

/-! ## `install_trans` -/

@[simp] theorem installTrans_map_fst (start tail : Nat) (bs : List Nat) (d : Disk) :
    (installTrans start tail bs d).map Prod.fst = bs := by
  induction bs generalizing tail d with
  | nil => rfl
  | cons b bs ih => simp [installTrans, ih]

/-- `install_trans` writes only home blocks. -/
theorem installTrans_fst_mem {start tail : Nat} {bs : List Nat} {d : Disk}
    {p : Nat × Block} (hp : p ∈ installTrans start tail bs d) : p.1 ∈ bs := by
  rw [← installTrans_map_fst start tail bs d]
  exact List.mem_map_of_mem hp

/-- A block outside the transaction is not written by `install_trans`. -/
theorem applyWrites_installTrans_of_not_mem (start tail : Nat) (bs : List Nat)
    (d e : Disk) {x : Nat} (hx : x ∉ bs) :
    applyWrites (installTrans start tail bs d) e x = e x :=
  applyWrites_of_forall_ne _ _ _ fun _ hp hpx => hx (hpx ▸ installTrans_fst_mem hp)

/-- The log slots the loop reads, from `tail` on, lie strictly between the home
blocks below and above them. -/
def SlotsFree (start tail : Nat) (bs : List Nat) : Prop :=
  ∀ b ∈ bs, b < start + tail + 1 ∨ start + tail + bs.length < b

theorem SlotsFree.tail {start tail b : Nat} {bs : List Nat}
    (h : SlotsFree start tail (b :: bs)) : SlotsFree start (tail + 1) bs := by
  intro c hc
  have := h c (List.mem_cons_of_mem _ hc)
  simp only [List.length_cons] at this
  omega

/-- `install_trans` reads only the log slots: two disks that agree on them give the
same trace, as long as no home block is one of the slots. -/
theorem installTrans_congr (start tail : Nat) (bs : List Nat) (d e : Disk)
    (hfree : SlotsFree start tail bs)
    (hde : ∀ i < bs.length, d (start + tail + 1 + i) = e (start + tail + 1 + i)) :
    installTrans start tail bs d = installTrans start tail bs e := by
  induction bs generalizing tail d e with
  | nil => rfl
  | cons b bs ih =>
    have h0 : d (start + tail + 1) = e (start + tail + 1) := by
      simpa using hde 0 (by simp)
    simp only [installTrans, h0, List.cons.injEq, true_and]
    apply ih (tail + 1) _ _ hfree.tail
    intro i hi
    -- the home block `b` is not one of the remaining slots
    have hb := hfree b List.mem_cons_self
    simp only [List.length_cons] at hb
    have hne : start + (tail + 1) + 1 + i ≠ b := by omega
    rw [Function.update_of_ne hne, Function.update_of_ne hne]
    have := hde (i + 1) (by simpa using hi)
    rw [show start + (tail + 1) + 1 + i = start + tail + 1 + (i + 1) by omega]
    exact this

/-- After `install_trans`, home block `bs[i]` holds log slot `tail + 1 + i`. -/
theorem applyWrites_installTrans (start tail : Nat) (bs : List Nat) (d : Disk)
    (hnd : bs.Nodup) (hfree : SlotsFree start tail bs) (i : Nat) (hi : i < bs.length) :
    applyWrites (installTrans start tail bs d) d bs[i] = d (start + tail + 1 + i) := by
  induction bs generalizing tail i d with
  | nil => simp at hi
  | cons b bs ih =>
    rw [List.nodup_cons] at hnd
    simp only [installTrans, applyWrites_cons]
    cases i with
    | zero =>
      rw [List.getElem_cons_zero, applyWrites_installTrans_of_not_mem _ _ _ _ _ hnd.1]
      simp
    | succ i =>
      rw [List.getElem_cons_succ, ih (tail + 1) _ hnd.2 hfree.tail i (by simpa using hi)]
      have hb := hfree b List.mem_cons_self
      simp only [List.length_cons] at hb hi
      rw [Function.update_of_ne (by omega)]
      congr 1
      omega

end Xv6.Log
