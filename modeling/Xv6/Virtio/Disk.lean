import Mathlib
import Xv6.Lib.Machine
import Xv6.Lib.Ring

/-
  Xv6/Virtio/Disk.lean --- kernel/virtio_disk.c: the descriptors and rings of
  the virtio block driver, with the device on the other side.

  A request takes three descriptors (`alloc3_desc`), links them into a chain
  (request header, data, status byte), puts the chain's head on the avail ring
  and sleeps until the interrupt handler has seen the head come back on the
  used ring; then it frees the chain (`free_chain`).  Of the driver's `disk`
  the model keeps what these functions read and write: each descriptor's
  `flags` and `next`, `free[]`, the avail and used rings with their `uint16`
  indices, `used_idx`, and `info[]`; of each buffer, `b->disk`.  The `addr`
  and `len` of a descriptor and the request headers `ops[]` are read by the
  device only, and are left out.  The arrays of descriptors are indexed by
  any number: `free_chain` reads `desc[i]` before `free_desc` checks `i`.

  The device takes the heads off the avail ring in order and posts each back
  on the used ring exactly once, in any order, after writing 0 to the status
  byte the chain's last descriptor points at, `info[head].status`.

  Each thread in `virtio_disk_rw` holds `disk.vdisk_lock` from one sleep to
  the next, so a call or a wakeup is one step.  A thread asleep in the
  allocation loop tries `alloc3_desc` again when woken; one asleep on its
  buffer returns once `b->disk` is 0.  Its caller holds the buffer's
  sleep-lock, so no two threads are in `virtio_disk_rw` with one buffer: a
  call with a buffer in use waits.  `virtio_disk_intr` runs its whole loop
  under the lock, one round per entry of the used ring.
-/

set_option autoImplicit false

namespace Xv6.Virtio

open Machine

/-- `NUM`: descriptors, and entries of each ring. -/
def num : Nat := 8

instance : NeZero num := ⟨by decide⟩

theorem num_dvd : num ∣ 2 ^ 16 := ⟨2 ^ 13, by decide⟩

/-- `VRING_DESC_F_NEXT`. -/
def fNext : Nat := 1
/-- `VRING_DESC_F_WRITE`. -/
def fWrite : Nat := 2

/-- Where a thread is in `virtio_disk_rw`. -/
inductive Phase (β : Type) where
  /-- not in `virtio_disk_rw` -/
  | idle
  /-- asleep on `disk.free[0]` in the allocation loop, for a request on `b` -/
  | alloc (b : β) (write : Bool)
  /-- its request posted with the descriptors `idx`, asleep on `b` while `b->disk == 1` -/
  | wait (b : β) (idx : Nat × Nat × Nat)
  deriving DecidableEq

/-- The buffer of a thread in `virtio_disk_rw`. -/
def Phase.buf {β : Type} : Phase β → Option β
  | .idle => none
  | .alloc b _ => some b
  | .wait b _ => some b

/-- The chain of descriptors a thread's posted request holds. -/
def Phase.chain {β : Type} : Phase β → Option (Nat × Nat × Nat)
  | .wait _ idx => some idx
  | _ => none

/-- The driver, the buffers' `disk` flags, the device, and the threads. -/
structure Disk (τ β : Type) where
  /-- `disk.desc[i].flags` -/
  flags : Nat → Nat
  /-- `disk.desc[i].next` -/
  next : Nat → Nat
  /-- `disk.free[i]` -/
  free : Nat → Bool
  /-- `disk.avail->ring` -/
  availRing : Fin num → Nat
  /-- `disk.avail->idx` -/
  availIdx : UInt16
  /-- the `id` of each entry of `disk.used->ring` -/
  usedRing : Fin num → Nat
  /-- `disk.used->idx`, which the device moves on -/
  usedIdx : UInt16
  /-- `disk.used_idx`: how far the driver has looked at the used ring -/
  seen : UInt16
  /-- `disk.info[i].b`, `none` for 0 -/
  infoB : Nat → Option β
  /-- `disk.info[i].status` -/
  status : Nat → Nat
  /-- `b->disk` of every buffer -/
  bufDisk : β → Bool
  /-- the device: the next avail entry it takes -/
  devIdx : UInt16
  /-- the device: the heads it has taken and not posted back yet -/
  pending : List Nat
  /-- each thread's place in `virtio_disk_rw` -/
  phase : τ → Phase β

variable {τ β : Type}

/-! ## Descriptors -/

/-- `alloc_desc()`: the first free descriptor, marked not free; `none` for
-1. -/
def allocDesc (s : Disk τ β) : Disk τ β × Option Nat :=
  match (List.range num).find? fun i => s.free i with
  | some i => ({ s with free := Function.update s.free i false }, some i)
  | none => (s, none)

/-- `free_desc(i)`; its `wakeup` is left to the threads' steps, which may
retry at any time. -/
def freeDesc (s : Disk τ β) (i : Nat) : Result (Disk τ β) :=
  if i ≥ num then .panic "free_desc 1"
  else if s.free i then .panic "free_desc 2"
  else .ok { s with flags := Function.update s.flags i 0, next := Function.update s.next i 0,
                    free := Function.update s.free i true }

/-- The descriptors below `NUM` that are not free. -/
def busy (s : Disk τ β) : Finset Nat := (Finset.range num).filter fun i => s.free i = false

theorem freeDesc_eq_ok {s s' : Disk τ β} {i : Nat} :
    freeDesc s i = .ok s' ↔ i < num ∧ s.free i = false ∧
      s' = { s with flags := Function.update s.flags i 0, next := Function.update s.next i 0,
                    free := Function.update s.free i true } := by
  unfold freeDesc
  by_cases hi : i ≥ num
  · simp [hi]
  · cases hf : s.free i <;> simp [hi, eq_comm]
    omega

/-- Each descriptor `free_desc` frees was not free. -/
theorem busy_freeDesc {s s' : Disk τ β} {i : Nat} (h : freeDesc s i = .ok s') :
    (busy s').card < (busy s).card := by
  obtain ⟨hi, hfree, rfl⟩ := freeDesc_eq_ok.1 h
  apply Finset.card_lt_card
  refine (Finset.ssubset_iff_of_subset fun j hj => ?_).2 ⟨i, ?_, ?_⟩
  · simp only [busy, Finset.mem_filter, Finset.mem_range] at hj ⊢
    refine ⟨hj.1, ?_⟩
    by_cases hji : j = i
    · rw [hji, hfree]
    · rw [← hj.2, Function.update_of_ne hji]
  · simp [busy, hi, hfree]
  · simp [busy]

/-- `free_chain(i)`: free `i` and, while the flags it had carry `NEXT`, the
descriptor it linked to.  The loop ends: every round frees a descriptor that
was not free, or panics. -/
def freeChain (s : Disk τ β) (i : Nat) : Result (Disk τ β) :=
  let flag := s.flags i
  let nxt := s.next i
  match _h : freeDesc s i with
  | .ok s' => if flag &&& fNext ≠ 0 then freeChain s' nxt else .ok s'
  | .wait => .wait
  | .panic msg => .panic msg
termination_by (busy s).card
decreasing_by exact busy_freeDesc _h

/-- A round of `free_chain` that frees its descriptor. -/
theorem freeChain_of_freeDesc {s s' : Disk τ β} {i : Nat} (h : freeDesc s i = .ok s') :
    freeChain s i = if s.flags i &&& fNext ≠ 0 then freeChain s' (s.next i) else .ok s' := by
  rw [freeChain]
  split
  · next h' =>
    rw [h] at h'
    cases h'
    rfl
  · next h' => rw [h] at h'; cases h'
  · next h' => rw [h] at h'; cases h'

/-- `free_desc(idx[j])` for the descriptors taken so far, in order. -/
def freeAll : Disk τ β → List Nat → Result (Disk τ β)
  | s, [] => .ok s
  | s, i :: is => do
    let s ← freeDesc s i
    freeAll s is

/-- The loop of `alloc3_desc` with `k` descriptors still to take and `idx`
those taken: when `alloc_desc` fails it frees them and returns -1 (`none`). -/
def alloc3Loop : Nat → Disk τ β → List Nat → Result (Disk τ β × Option (List Nat))
  | 0, s, idx => .ok (s, some idx)
  | k + 1, s, idx =>
    match allocDesc s with
    | (s, some i) => alloc3Loop k s (idx ++ [i])
    | (s, none) => do
      let s ← freeAll s idx
      pure (s, none)

/-- `alloc3_desc(idx)`. -/
def alloc3Desc (s : Disk τ β) : Result (Disk τ β × Option (List Nat)) := alloc3Loop 3 s []

/-! ## What the descriptor functions do -/

/-- `free[]` with the descriptors of `idx` taken. -/
def markBusy (free : Nat → Bool) (idx : List Nat) : Nat → Bool := fun j => if j ∈ idx then false else free j

/-- The chain `(i0, i1, i2)` linked as `virtio_disk_rw` links it: `i0` with
`NEXT` to `i1`, `i1` with `NEXT` to `i2`, and `i2` without `NEXT`. -/
def Linked (s : Disk τ β) (c : Nat × Nat × Nat) : Prop :=
  s.flags c.1 &&& fNext ≠ 0 ∧ s.next c.1 = c.2.1 ∧ s.flags c.2.1 &&& fNext ≠ 0 ∧ s.next c.2.1 = c.2.2 ∧
    s.flags c.2.2 &&& fNext = 0

/-- `alloc_desc` takes a free descriptor. -/
theorem allocDesc_some {s s' : Disk τ β} {i : Nat} (h : allocDesc s = (s', some i)) :
    i < num ∧ s.free i = true ∧ s' = { s with free := Function.update s.free i false } := by
  unfold allocDesc at h
  split at h
  · next j hj =>
    cases h
    exact ⟨List.mem_range.1 (List.mem_of_find?_eq_some hj), List.find?_some hj, rfl⟩
  · cases h

/-- `alloc_desc` fails only when no descriptor is free, and then changes
nothing. -/
theorem allocDesc_none {s s' : Disk τ β} (h : allocDesc s = (s', none)) :
    s' = s ∧ ∀ i < num, s.free i = false := by
  unfold allocDesc at h
  split at h
  · cases h
  · next hnone =>
    cases h
    refine ⟨rfl, fun i hi => ?_⟩
    simpa using List.find?_eq_none.1 hnone i (List.mem_range.2 hi)

/-- `free_desc` on each of `idx`, descriptors taken and below `NUM`: they are
free again, and no other descriptor's links change. -/
theorem freeAll_of_busy (s : Disk τ β) (idx : List Nat) (hnd : idx.Nodup) (hlt : ∀ i ∈ idx, i < num)
    (hbusy : ∀ i ∈ idx, s.free i = false) :
    ∃ f n, freeAll s idx = .ok { s with flags := f, next := n, free := fun j => if j ∈ idx then true else s.free j } ∧
      ∀ j ∉ idx, f j = s.flags j ∧ n j = s.next j := by
  induction idx generalizing s with
  | nil => exact ⟨s.flags, s.next, by simp [freeAll], fun _ _ => ⟨rfl, rfl⟩⟩
  | cons i is ih =>
    obtain ⟨hi, hnd⟩ := List.nodup_cons.1 hnd
    have hfd := freeDesc_eq_ok.2 ⟨hlt i List.mem_cons_self, hbusy i List.mem_cons_self, rfl⟩
    -- the first is freed, then the rest from the state after it
    have hbusy' : ∀ j ∈ is, Function.update s.free i true j = false := fun j hj => by
      rw [Function.update_of_ne (by rintro rfl; exact hi hj)]
      exact hbusy j (List.mem_cons_of_mem i hj)
    obtain ⟨f, n, hrest, hfn⟩ := ih
      { s with flags := Function.update s.flags i 0, next := Function.update s.next i 0,
               free := Function.update s.free i true }
      hnd (fun j hj => hlt j (List.mem_cons_of_mem i hj)) hbusy'
    refine ⟨f, n, ?_, fun j hj => ?_⟩
    · rw [freeAll, hfd, Result.ok_bind, hrest]
      congr 2
      funext j
      by_cases hji : j = i
      · subst hji
        simp [hi]
      · simp [hji]
    · have hji : j ≠ i := fun h => hj (h ▸ List.mem_cons_self)
      rw [(hfn j fun h => hj (List.mem_cons_of_mem i h)).1, (hfn j fun h => hj (List.mem_cons_of_mem i h)).2]
      exact ⟨Function.update_of_ne hji _ _, Function.update_of_ne hji _ _⟩

/-- The loop of `alloc3_desc`, from the free descriptors `idx` already taken:
either it takes `k` more, or it gives back all it took, leaving the links of
the descriptors that were not free as they were. -/
theorem alloc3Loop_spec (s : Disk τ β) (k : Nat) (idx : List Nat) (hnd : idx.Nodup)
    (hfree : ∀ i ∈ idx, i < num ∧ s.free i = true) :
    (∃ new, alloc3Loop k { s with free := markBusy s.free idx } idx =
        .ok ({ s with free := markBusy s.free (idx ++ new) }, some (idx ++ new)) ∧
      new.length = k ∧ (idx ++ new).Nodup ∧ ∀ i ∈ new, i < num ∧ s.free i = true) ∨
    (∃ f n, alloc3Loop k { s with free := markBusy s.free idx } idx = .ok ({ s with flags := f, next := n }, none) ∧
      ∀ j, s.free j = false → f j = s.flags j ∧ n j = s.next j) := by
  induction k generalizing idx with
  | zero => exact .inl ⟨[], by simp [alloc3Loop], rfl, by simpa using hnd, by simp⟩
  | succ k ih =>
    rcases hA : allocDesc { s with free := markBusy s.free idx } with ⟨s', _ | i⟩
    · -- no descriptor free: give back those taken
      obtain ⟨rfl, -⟩ := allocDesc_none hA
      obtain ⟨f, n, hfa, hfn⟩ := freeAll_of_busy { s with free := markBusy s.free idx } idx hnd
        (fun i hi => (hfree i hi).1) fun i hi => by simp [markBusy, hi]
      have hback : (fun j => if j ∈ idx then true else markBusy s.free idx j) = s.free := by
        funext j
        by_cases hj : j ∈ idx
        · simp [hj, (hfree j hj).2]
        · simp [markBusy, hj]
      refine .inr ⟨f, n, ?_, fun j hj => hfn j fun hmem => by simp [(hfree j hmem).2] at hj⟩
      simp only [alloc3Loop, hA, hfa, hback]
      rfl
    · -- one more taken
      obtain ⟨hi, hfi, rfl⟩ := allocDesc_some hA
      have hiidx : i ∉ idx := fun h => by simp [markBusy, h] at hfi
      have hsi : s.free i = true := by simpa [markBusy, hiidx] using hfi
      have hmark : Function.update (markBusy s.free idx) i false = markBusy s.free (idx ++ [i]) := by
        funext j
        by_cases hj : j = i
        · subst hj
          simp [markBusy]
        · simp [markBusy, hj]
      have hnd' : (idx ++ [i]).Nodup := by
        rw [← List.concat_eq_append]
        exact hnd.concat hiidx
      have hfree' : ∀ j ∈ idx ++ [i], j < num ∧ s.free j = true := by
        intro j hj
        rcases List.mem_append.1 hj with hj | hj
        · exact hfree j hj
        · rw [List.mem_singleton.1 hj]
          exact ⟨hi, hsi⟩
      rcases ih (idx ++ [i]) hnd' hfree' with ⟨new, hloop, hlen, hnd'', hnew⟩ | hfail
      · refine .inl ⟨i :: new, ?_, by simp [hlen], by simpa using hnd'', ?_⟩
        · simp only [alloc3Loop, hA, hmark]
          simpa using hloop
        · intro j hj
          rcases List.mem_cons.1 hj with rfl | hj
          · exact ⟨hi, hsi⟩
          · exact hnew j hj
      · obtain ⟨f, n, hloop, hfn⟩ := hfail
        refine .inr ⟨f, n, ?_, hfn⟩
        simp only [alloc3Loop, hA, hmark]
        exact hloop

/-- `alloc3_desc` never panics: it takes three distinct free descriptors, or
it fails having given back every descriptor it took, `free[]` as before. -/
theorem alloc3Desc_spec (s : Disk τ β) :
    (∃ i0 i1 i2, alloc3Desc s = .ok ({ s with free := markBusy s.free [i0, i1, i2] }, some [i0, i1, i2]) ∧
      [i0, i1, i2].Nodup ∧ ∀ i ∈ [i0, i1, i2], i < num ∧ s.free i = true) ∨
    (∃ f n, alloc3Desc s = .ok ({ s with flags := f, next := n }, none) ∧
      ∀ j, s.free j = false → f j = s.flags j ∧ n j = s.next j) := by
  have hnil : markBusy s.free [] = s.free := by
    funext j
    simp [markBusy]
  have hs : { s with free := markBusy s.free [] } = s := by rw [hnil]
  rcases alloc3Loop_spec s 3 [] List.nodup_nil (by simp) with ⟨new, hloop, hlen, hnd, hnew⟩ | hfail
  · rw [hs, List.nil_append] at hloop
    match new, hlen with
    | [i0, i1, i2], _ => exact .inl ⟨i0, i1, i2, hloop, by simpa using hnd, hnew⟩
  · obtain ⟨f, n, hloop, hfn⟩ := hfail
    rw [hs] at hloop
    exact .inr ⟨f, n, hloop, hfn⟩

/-- `free_chain` from the head of a chain linked by `virtio_disk_rw`, whose
three descriptors are distinct, below `NUM` and not free: it frees exactly
those three, in order, and panics on none. -/
theorem freeChain_linked (s : Disk τ β) {i0 i1 i2 : Nat} (hnd : [i0, i1, i2].Nodup)
    (hlt : ∀ i ∈ [i0, i1, i2], i < num) (hbusy : ∀ i ∈ [i0, i1, i2], s.free i = false)
    (hl : Linked s (i0, i1, i2)) :
    freeChain s i0 = .ok { s with
      flags := Function.update (Function.update (Function.update s.flags i0 0) i1 0) i2 0
      next := Function.update (Function.update (Function.update s.next i0 0) i1 0) i2 0
      free := Function.update (Function.update (Function.update s.free i0 true) i1 true) i2 true } := by
  obtain ⟨hf0, hn0, hf1, hn1, hf2⟩ := hl
  simp only [List.nodup_cons, List.mem_cons, not_or, List.not_mem_nil, not_false_eq_true,
    List.nodup_nil, and_true] at hnd
  obtain ⟨⟨h01, h02⟩, h12⟩ := hnd
  simp only [List.mem_cons, List.not_mem_nil, or_false, forall_eq_or_imp, forall_eq] at hlt hbusy
  -- three rounds of the loop, each freeing one descriptor
  rw [freeChain_of_freeDesc (freeDesc_eq_ok.2 ⟨hlt.1, hbusy.1, rfl⟩), if_pos hf0, hn0,
    freeChain_of_freeDesc (freeDesc_eq_ok.2 ⟨hlt.2.1, by simp [Function.update_of_ne (Ne.symm h01), hbusy.2.1], rfl⟩)]
  simp only [Function.update_of_ne (Ne.symm h01), if_pos hf1, hn1]
  rw [freeChain_of_freeDesc (freeDesc_eq_ok.2 ⟨hlt.2.2, by
    simp [Function.update_of_ne (Ne.symm h02), Function.update_of_ne (Ne.symm h12), hbusy.2.2], rfl⟩)]
  simp only [Function.update_of_ne (Ne.symm h02), Function.update_of_ne (Ne.symm h12), hf2, ne_eq,
    not_true_eq_false, if_false]

variable [DecidableEq β]

/-! ## virtio_disk_intr -/

/-- A round of the loop of `virtio_disk_intr`: the head at `used_idx`, its
status checked, and its buffer's `disk` cleared. -/
def intrRound (s : Disk τ β) : Result (Disk τ β) :=
  let id := s.usedRing (Ring.slot num s.seen.toNat)
  if s.status id ≠ 0 then .panic "virtio_disk_intr status"
  else
    match s.infoB id with
    -- `b->disk = 0` through a null pointer faults in the kernel
    | none => .panic "kerneltrap"
    | some b => .ok { s with bufDisk := Function.update s.bufDisk b false, seen := s.seen + 1 }

theorem intrRound_eq_ok {s s' : Disk τ β} (h : intrRound s = .ok s') :
    s'.usedIdx = s.usedIdx ∧ s'.seen = s.seen + 1 := by
  unfold intrRound at h
  dsimp only at h
  split_ifs at h
  split at h
  · cases h
  · cases h
    exact ⟨rfl, rfl⟩

/-- `virtio_disk_intr`: rounds until `used_idx` reaches `used->idx`. -/
def virtioDiskIntr (s : Disk τ β) : Result (Disk τ β) :=
  if _hne : s.seen ≠ s.usedIdx then
    match _h : intrRound s with
    | .ok s' => virtioDiskIntr s'
    | .wait => .wait
    | .panic msg => .panic msg
  else .ok s
termination_by (s.usedIdx - s.seen).toNat
decreasing_by
  obtain ⟨hu, hs⟩ := intrRound_eq_ok _h
  have hpos : 0 < (s.usedIdx - s.seen).toNat := by
    have := (Ring.U16.eq_iff_toNat_sub_eq_zero s.seen s.usedIdx).not.1 _hne
    omega
  rw [hu, hs, Ring.U16.toNat_sub_succ hpos]
  omega

/-- A round of `virtio_disk_intr` that completes is followed by the rest of the
loop. -/
theorem virtioDiskIntr_of_round {s s' : Disk τ β} (hne : s.seen ≠ s.usedIdx) (h : intrRound s = .ok s') :
    virtioDiskIntr s = virtioDiskIntr s' := by
  rw [virtioDiskIntr, dif_pos hne]
  split
  · next h' =>
    rw [h] at h'
    cases h'
    rfl
  · next h' => rw [h] at h'; cases h'
  · next h' => rw [h] at h'; cases h'

/-- With nothing new on the used ring `virtio_disk_intr` changes nothing. -/
theorem virtioDiskIntr_of_seen {s : Disk τ β} (h : s.seen = s.usedIdx) : virtioDiskIntr s = .ok s := by
  rw [virtioDiskIntr, dif_neg (not_not.2 h)]

/-! ## The device -/

/-- The device takes the next head off the avail ring; it waits while there
is none. -/
def devTake (s : Disk τ β) : Result (Disk τ β) :=
  if s.devIdx ≠ s.availIdx then
    .ok { s with pending := s.pending ++ [s.availRing (Ring.slot num s.devIdx.toNat)],
                 devIdx := s.devIdx + 1 }
  else .wait

/-- The device completes the `k`-th request it holds: 0 in its status byte,
and its head on the used ring. -/
def devPost (s : Disk τ β) (k : Nat) : Result (Disk τ β) :=
  match s.pending[k]? with
  | some h =>
    .ok { s with status := Function.update s.status h 0,
                 usedRing := Function.update s.usedRing (Ring.slot num s.usedIdx.toNat) h,
                 usedIdx := s.usedIdx + 1, pending := s.pending.eraseIdx k }
  | none => .wait

section Threads

variable [DecidableEq τ]

/-! ## virtio_disk_rw -/

/-- The rest of `virtio_disk_rw(b, write)` once `alloc3_desc` has taken `i0`,
`i1` and `i2`, up to the sleep: link the chain, record the buffer, and put
the head on the avail ring. -/
def post (s : Disk τ β) (b : β) (write : Bool) (i0 i1 i2 : Nat) : Disk τ β :=
  { s with
    flags := Function.update (Function.update (Function.update s.flags i0 fNext) i1
      ((if write then 0 else fWrite) ||| fNext)) i2 fWrite
    next := Function.update (Function.update (Function.update s.next i0 i1) i1 i2) i2 0
    status := Function.update s.status i0 0xff
    bufDisk := Function.update s.bufDisk b true
    infoB := Function.update s.infoB i0 (some b)
    availRing := Function.update s.availRing (Ring.slot num s.availIdx.toNat) i0
    availIdx := s.availIdx + 1 }

/-- A pass of thread `t` through the allocation loop of
`virtio_disk_rw(b, write)`: with three descriptors it posts the request and
sleeps on the buffer, otherwise it sleeps on `disk.free[0]`. -/
def tryAlloc (s : Disk τ β) (t : τ) (b : β) (write : Bool) : Result (Disk τ β) := do
  let (s, r) ← alloc3Desc s
  match r with
  | some idx =>
    let c := (idx.getD 0 0, idx.getD 1 0, idx.getD 2 0)
    pure { post s b write c.1 c.2.1 c.2.2 with phase := Function.update s.phase t (.wait b c) }
  | none => pure { s with phase := Function.update s.phase t (.alloc b write) }

/-- Thread `t`, asleep on its buffer, woken: while `b->disk` is 1 it sleeps
again; then it clears `info[idx[0]].b`, frees the chain and returns. -/
def finish (s : Disk τ β) (t : τ) (b : β) (i0 : Nat) : Result (Disk τ β) :=
  if s.bufDisk b then .wait
  else do
    let s ← freeChain { s with infoB := Function.update s.infoB i0 none } i0
    pure { s with phase := Function.update s.phase t .idle }

/-! ## The system -/

/-- The steps: a thread calls `virtio_disk_rw` or is woken, the interrupt
handler runs, or the device takes or completes a request. -/
inductive Act (τ β : Type) where
  | rw (t : τ) (b : β) (write : Bool)
  | wake (t : τ)
  | intr
  | devTake
  | devPost (k : Nat)

variable [Fintype τ]

/-- One step. -/
def step (s : Disk τ β) : Act τ β → Result (Disk τ β)
  | .rw t b write =>
    -- the caller holds `b`'s sleep-lock: no other request is on `b`
    if s.phase t = .idle ∧ ∀ u, (s.phase u).buf ≠ some b then tryAlloc s t b write else .wait
  | .wake t =>
    match s.phase t with
    | .idle => .wait
    | .alloc b write => tryAlloc s t b write
    | .wait b idx => finish s t b idx.1
  | .intr => virtioDiskIntr s
  | .devTake => devTake s
  | .devPost k => devPost s k

/-- After `virtio_disk_init`: every descriptor free, both rings empty, no
request. -/
def diskInit : Disk τ β :=
  ⟨fun _ => 0, fun _ => 0, fun _ => true, fun _ => 0, 0, fun _ => 0, 0, 0, fun _ => none,
    fun _ => 0, fun _ => false, 0, [], fun _ => .idle⟩

/-- The driver with its threads and the device. -/
def virtioSystem (τ β : Type) [Fintype τ] [DecidableEq τ] [DecidableEq β] : System (Disk τ β) (Act τ β) :=
  ⟨diskInit, step⟩

end Threads

end Xv6.Virtio
