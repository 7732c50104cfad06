import Mathlib
import Xv6.Virtio.Disk

/-
  Xv6/Virtio/Chains.lean --- the invariant of the virtio descriptors and
  rings over every interleaving of requests, interrupts and the device.

  `Chains` is the descriptor half: the descriptors below `NUM` are the free
  ones and the three-descriptor chains of the posted requests, chains of
  different threads apart, each linked as `virtio_disk_rw` linked it and its
  head's `info[].b` the thread's buffer.  `Rings` is the ring half: the heads
  on the avail ring not yet taken (`availWindow`), those the device holds, and
  those on the used ring not yet seen (`usedWindow`) are distinct, and they
  are exactly the heads of the requests whose buffer's `disk` is still 1; the
  device has written 0 to the status of each head it posted.  The windows are
  read at `idx % NUM` from the `uint16` indices, across their wrap.

  Each step keeps both halves (`Inv.step_cases`), so every reachable state
  satisfies them and no step panics (`virtio_descriptors_partitioned`).
-/

set_option autoImplicit false

namespace Xv6.Virtio

open Machine

variable {τ β : Type}

/-- The descriptors of a chain, head first. -/
def chainList (c : Nat × Nat × Nat) : List Nat := [c.1, c.2.1, c.2.2]

/-- The heads on the avail ring that the device has not taken. -/
def availWindow (s : Disk τ β) : List Nat :=
  Ring.window s.availRing s.devIdx.toNat (s.availIdx - s.devIdx).toNat

/-- The heads on the used ring that the driver has not seen. -/
def usedWindow (s : Disk τ β) : List Nat :=
  Ring.window s.usedRing s.seen.toNat (s.usedIdx - s.seen).toNat

/-- Every head on its way: on the avail ring, with the device, or on the used
ring. -/
def inFlight (s : Disk τ β) : List Nat := availWindow s ++ s.pending ++ usedWindow s

/-- The descriptor half of the invariant. -/
structure Chains (s : Disk τ β) : Prop where
  nodup : ∀ t c, (s.phase t).chain = some c → (chainList c).Nodup
  lt : ∀ t c, (s.phase t).chain = some c → ∀ i ∈ chainList c, i < num
  apart : ∀ t u c d, t ≠ u → (s.phase t).chain = some c → (s.phase u).chain = some d →
    ∀ i ∈ chainList c, i ∉ chainList d
  /-- a descriptor below `NUM` is not free exactly when a chain holds it -/
  busy_iff : ∀ i < num, s.free i = false ↔ ∃ t c, (s.phase t).chain = some c ∧ i ∈ chainList c
  linked : ∀ t c, (s.phase t).chain = some c → Linked s c
  info : ∀ t b c, s.phase t = .wait b c → s.infoB c.1 = some b
  buf_unique : ∀ t u b, (s.phase t).buf = some b → (s.phase u).buf = some b → t = u

/-- The ring half of the invariant. -/
structure Rings (s : Disk τ β) : Prop where
  nodup : (inFlight s).Nodup
  mem_iff : ∀ h, h ∈ inFlight s ↔ ∃ t b c, s.phase t = .wait b c ∧ c.1 = h ∧ s.bufDisk b = true
  bufDisk_wait : ∀ b, s.bufDisk b = true → ∃ t c, s.phase t = .wait b c
  status_used : ∀ h ∈ usedWindow s, s.status h = 0

/-- The invariant of the driver, its threads and the device. -/
structure Inv (s : Disk τ β) : Prop where
  chains : Chains s
  rings : Rings s

/-! ## Consequences -/

@[simp] theorem chain_wait (b : β) (c : Nat × Nat × Nat) : (Phase.wait b c).chain = some c := rfl

theorem mem_chainList_head (c : Nat × Nat × Nat) : c.1 ∈ chainList c := List.mem_cons_self

/-- A nodup list of numbers below `n` has at most `n` elements. -/
theorem length_le_of_nodup {l : List Nat} {n : Nat} (hnd : l.Nodup) (hlt : ∀ x ∈ l, x < n) :
    l.length ≤ n := by
  rw [← List.toFinset_card_of_nodup hnd, ← Finset.card_range n]
  exact Finset.card_le_card fun x hx => Finset.mem_range.2 (hlt x (List.mem_toFinset.1 hx))

/-- A free descriptor is in no chain. -/
theorem Chains.not_mem_of_free {s : Disk τ β} (hC : Chains s) {i : Nat} (hi : s.free i = true) {t : τ}
    {c : Nat × Nat × Nat} (hc : (s.phase t).chain = some c) : i ∉ chainList c := fun hmem => by
  have := (hC.busy_iff i (hC.lt t c hc i hmem)).2 ⟨t, c, hc, hmem⟩
  rw [hi] at this
  cases this

/-- Two threads' chains have different heads. -/
theorem Chains.head_ne {s : Disk τ β} (hC : Chains s) {t u : τ} (htu : t ≠ u) {c d : Nat × Nat × Nat}
    (hc : (s.phase t).chain = some c) (hd : (s.phase u).chain = some d) : c.1 ≠ d.1 := fun h =>
  hC.apart t u c d htu hc hd c.1 (mem_chainList_head c) (h ▸ mem_chainList_head d)

/-- A head on its way is a descriptor below `NUM` that is not free. -/
theorem Inv.busy_of_mem {s : Disk τ β} (hI : Inv s) {x : Nat} (hx : x ∈ inFlight s) :
    x < num ∧ s.free x = false := by
  obtain ⟨t, b, c, hc, rfl, -⟩ := (hI.rings.mem_iff x).1 hx
  have hc' : (s.phase t).chain = some c := by rw [hc]; rfl
  have hlt := hI.chains.lt t c hc' c.1 (mem_chainList_head c)
  exact ⟨hlt, (hI.chains.busy_iff c.1 hlt).2 ⟨t, c, hc', mem_chainList_head c⟩⟩

/-- The links of a chain read only its own descriptors. -/
theorem Linked.congr {s s' : Disk τ β} {c : Nat × Nat × Nat} (h : Linked s c)
    (hflags : ∀ i ∈ chainList c, s'.flags i = s.flags i) (hnext : ∀ i ∈ chainList c, s'.next i = s.next i) :
    Linked s' c := by
  obtain ⟨c0, c1, c2⟩ := c
  simp only [chainList, List.mem_cons, List.not_mem_nil, or_false, forall_eq_or_imp, forall_eq] at hflags hnext
  obtain ⟨h0, h1, h2, h3, h4⟩ := h
  exact ⟨hflags.1 ▸ h0, hnext.1 ▸ h1, hflags.2.1 ▸ h2, hnext.2.1 ▸ h3, hflags.2.2 ▸ h4⟩

/-- The descriptor half reads only the threads, `free[]`, the links and
`info[].b`. -/
theorem Chains.congr {s s' : Disk τ β} (h : Chains s) (hphase : s'.phase = s.phase) (hfree : s'.free = s.free)
    (hflags : s'.flags = s.flags) (hnext : s'.next = s.next) (hinfo : s'.infoB = s.infoB) : Chains s' := by
  obtain ⟨h1, h2, h3, h4, h5, h6, h7⟩ := h
  simp only [Linked] at h5
  refine ⟨?_, ?_, ?_, ?_, ?_, ?_, ?_⟩ <;> simp only [hphase, hfree, hinfo, Linked, hflags, hnext] <;> assumption

/-- The ring half reads the heads on their way, the waiting threads, the
buffers' flags and the status bytes. -/
theorem Rings.congr {s s' : Disk τ β} (h : Rings s) (hwait : ∀ u b d, s'.phase u = .wait b d ↔ s.phase u = .wait b d)
    (hflight : inFlight s' = inFlight s) (hused : usedWindow s' = usedWindow s) (hbuf : s'.bufDisk = s.bufDisk)
    (hstatus : s'.status = s.status) : Rings s' := by
  obtain ⟨h1, h2, h3, h4⟩ := h
  refine ⟨hflight ▸ h1, fun x => ?_, fun b hb => ?_, fun x hx => ?_⟩
  · simp only [hflight, h2 x, hwait, hbuf]
  · obtain ⟨u, d, hd⟩ := h3 b (hbuf ▸ hb)
    exact ⟨u, d, (hwait u b d).2 hd⟩
  · rw [hstatus]
    exact h4 x (hused ▸ hx)

/-! ## The start -/

/-- `virtio_disk_init` sets up a state with no request. -/
theorem inv_diskInit : Inv (diskInit : Disk τ β) where
  chains :=
    { nodup := fun _ _ h => by cases h
      lt := fun _ _ h => by cases h
      apart := fun _ _ _ _ _ h => by cases h
      busy_iff := fun i _ => by simp [diskInit, Phase.chain]
      linked := fun _ _ h => by cases h
      info := fun _ _ _ h => by cases h
      buf_unique := fun _ _ _ h => by cases h }
  rings :=
    { nodup := by simp [inFlight, availWindow, usedWindow, diskInit]
      mem_iff := fun h => by simp [inFlight, availWindow, usedWindow, diskInit]
      bufDisk_wait := fun _ h => by cases h
      status_used := fun h hh => by simp [usedWindow, diskInit] at hh }

/-! ## The device -/

/-- A step that keeps the descriptors, the threads and the buffers, moves the
heads on their way only around, and leaves the used window's statuses 0,
keeps the invariant. -/
theorem Inv.of_perm {s s' : Disk τ β} (hI : Inv s) (hC : Chains s')
    (hperm : (inFlight s').Perm (inFlight s)) (hphase : s'.phase = s.phase) (hbuf : s'.bufDisk = s.bufDisk)
    (hstatus : ∀ h ∈ usedWindow s', s'.status h = 0) : Inv s' := by
  refine ⟨hC, hperm.nodup_iff.2 hI.rings.nodup, fun x => ?_, fun b hb => ?_, hstatus⟩
  · rw [hperm.mem_iff, hphase, hbuf]
    exact hI.rings.mem_iff x
  · rw [hphase]
    exact hI.rings.bufDisk_wait b (hbuf ▸ hb)

/-- Taking a head off the avail ring moves it to the device. -/
theorem Inv.of_devTake {s s' : Disk τ β} (hI : Inv s) (h : devTake s = .ok s') : Inv s' := by
  unfold devTake at h
  split_ifs at h with hne
  cases h
  -- the head leaves the front of the avail window for the end of `pending`
  have hwin := Ring.U16.window_pop num_dvd s.availRing hne
  refine hI.of_perm (hI.chains.congr rfl rfl rfl rfl rfl) ?_ rfl rfl hI.rings.status_used
  dsimp only [inFlight, availWindow, usedWindow]
  rw [hwin]
  refine List.Perm.append_right _ ?_
  rw [← List.append_assoc]
  exact List.perm_append_singleton _ _

/-- Posting a head it holds on the used ring, with 0 in its status byte. -/
theorem Inv.of_devPost {s s' : Disk τ β} (hI : Inv s) {k : Nat} (h : devPost s k = .ok s') : Inv s' := by
  unfold devPost at h
  split at h
  · next x hx =>
    cases h
    obtain ⟨hk, rfl⟩ := List.getElem?_eq_some_iff.1 hx
    -- the head comes out of `pending`, from among the heads on their way
    have hout : (inFlight s).Perm
        (s.pending[k] :: (availWindow s ++ s.pending.eraseIdx k ++ usedWindow s)) := by
      have hpend := ((List.getElem_cons_eraseIdx_perm hk).symm.append_left (availWindow s)).append_right
        (usedWindow s)
      simp only [inFlight, List.append_assoc, List.cons_append] at hpend ⊢
      exact hpend.trans List.perm_middle
    have hcount : (s.usedIdx - s.seen).toNat < num := by
      have hlen := length_le_of_nodup (hout.nodup_iff.1 hI.rings.nodup) fun y hy =>
        (hI.busy_of_mem (hout.mem_iff.2 hy)).1
      simp only [List.length_cons, List.length_append, usedWindow, Ring.length_window] at hlen
      omega
    -- and goes to the end of the used window
    have hwin := Ring.U16.window_push num_dvd (by decide) s.usedRing s.seen s.usedIdx hcount s.pending[k]
    refine hI.of_perm (hI.chains.congr rfl rfl rfl rfl rfl) ?_ rfl rfl fun y hy => ?_
    · refine List.Perm.trans ?_ hout.symm
      simp only [inFlight, availWindow, usedWindow, hwin, ← List.append_assoc]
      exact List.perm_append_singleton _ _
    · simp only [usedWindow, hwin, List.mem_append, List.mem_singleton] at hy
      by_cases hyx : y = s.pending[k]
      · simp [hyx]
      · simp only [Function.update_of_ne hyx]
        exact hI.rings.status_used y (hy.resolve_right hyx)
  · cases h

/-! ## virtio_disk_intr -/

variable [DecidableEq β]

/-- A round of the interrupt handler, while the driver has not seen all the
used ring: the head it reads heads a posted request whose buffer's `disk` is
1, its status is 0 and its `info[].b` is that buffer, whose `disk` it clears. -/
theorem Inv.intrRound_eq {s : Disk τ β} (hI : Inv s) (hne : s.seen ≠ s.usedIdx) :
    ∃ t b c, s.phase t = .wait b c ∧ c.1 = s.usedRing (Ring.slot num s.seen.toNat) ∧ s.bufDisk b = true ∧
      intrRound s = .ok { s with bufDisk := Function.update s.bufDisk b false, seen := s.seen + 1 } := by
  have hwin := Ring.U16.window_pop num_dvd s.usedRing hne
  have hused : s.usedRing (Ring.slot num s.seen.toNat) ∈ usedWindow s := by
    rw [usedWindow, hwin]
    exact List.mem_cons_self
  obtain ⟨t, b, c, hc, hh, hb⟩ :=
    (hI.rings.mem_iff _).1 (List.mem_append_right (availWindow s ++ s.pending) hused)
  have hstatus := hI.rings.status_used _ hused
  have hinfo : s.infoB (s.usedRing (Ring.slot num s.seen.toNat)) = some b := hh ▸ hI.chains.info t b c hc
  refine ⟨t, b, c, hc, hh, hb, ?_⟩
  simp only [intrRound, hstatus, hinfo, ne_eq, not_true_eq_false, if_false]

/-- A round of the interrupt handler keeps the invariant: the head leaves the
used window together with its buffer's `disk` flag. -/
theorem Inv.of_intrRound {s : Disk τ β} (hI : Inv s) (hne : s.seen ≠ s.usedIdx) :
    ∃ s', intrRound s = .ok s' ∧ Inv s' := by
  obtain ⟨t, b, c, hc, hh, hb, hround⟩ := hI.intrRound_eq hne
  refine ⟨_, hround, ?_⟩
  have hwin := Ring.U16.window_pop num_dvd s.usedRing hne
  set s' : Disk τ β := { s with bufDisk := Function.update s.bufDisk b false, seen := s.seen + 1 }
  have hperm : (inFlight s).Perm (c.1 :: inFlight s') := by
    simp only [inFlight, usedWindow, s', hwin, hh]
    exact List.perm_middle
  have hnd := hperm.nodup_iff.1 hI.rings.nodup
  have hct : (s.phase t).chain = some c := by rw [hc]; rfl
  -- the only buffer whose flag changes is `b`, and only `t` has it
  have hbuf : ∀ u b' d, s.phase u = .wait b' d → b' = b → u = t ∧ d = c := by
    rintro u b' d hd rfl
    have hu := hI.chains.buf_unique u t b' (by rw [hd]; rfl) (by rw [hc]; rfl)
    subst hu
    rw [hc] at hd
    cases hd
    exact ⟨rfl, rfl⟩
  refine ⟨hI.chains.congr rfl rfl rfl rfl rfl, (List.nodup_cons.1 hnd).2, fun x => ?_, fun b' hb' => ?_,
    fun x hx => ?_⟩
  · constructor
    · intro hx
      obtain ⟨u, b', d, hd, hdx, hb'⟩ := (hI.rings.mem_iff x).1 (hperm.mem_iff.2 (List.mem_cons_of_mem _ hx))
      have hne' : b' ≠ b := by
        rintro rfl
        obtain ⟨-, rfl⟩ := hbuf u b' d hd rfl
        exact (List.nodup_cons.1 hnd).1 (hdx ▸ hx)
      exact ⟨u, b', d, hd, hdx, by simp [s', Function.update_of_ne hne', hb']⟩
    · rintro ⟨u, b', d, hd, hdx, hb'⟩
      have hne' : b' ≠ b := by
        rintro rfl
        simp [s'] at hb'
      have hmem := hperm.mem_iff.1 ((hI.rings.mem_iff x).2 ⟨u, b', d, hd, hdx, by simpa [s', hne'] using hb'⟩)
      rcases List.mem_cons.1 hmem with hxc | hx
      · -- the head taken off belongs to `t`, whose buffer is `b`
        have hut : u ≠ t := fun hut => hne' (by subst hut; rw [hc] at hd; cases hd; rfl)
        exact absurd (hdx.trans hxc) (hI.chains.head_ne hut (by rw [hd]; rfl) hct)
      · exact hx
  · have hne' : b' ≠ b := by
      rintro rfl
      simp [s'] at hb'
    exact hI.rings.bufDisk_wait b' (by simpa [s', hne'] using hb')
  · have hx' : x ∈ usedWindow s := by
      rw [usedWindow, hwin]
      exact List.mem_cons_of_mem _ hx
    exact hI.rings.status_used x hx'

/-- `virtio_disk_intr` keeps the invariant and does not panic. -/
theorem Inv.of_virtioDiskIntr {s : Disk τ β} (hI : Inv s) : ∃ s', virtioDiskIntr s = .ok s' ∧ Inv s' := by
  induction s using virtioDiskIntr.induct with
  | case1 s hne s' hround ih =>
    obtain ⟨s'', hround', hI'⟩ := hI.of_intrRound hne
    rw [hround] at hround'
    cases hround'
    rw [virtioDiskIntr_of_round hne hround]
    exact ih hI'
  | case2 s hne hround =>
    obtain ⟨s'', hround', -⟩ := hI.of_intrRound hne
    rw [hround] at hround'
    cases hround'
  | case3 s hne msg hround =>
    obtain ⟨s'', hround', -⟩ := hI.of_intrRound hne
    rw [hround] at hround'
    cases hround'
  | case4 s hseen => exact ⟨s, virtioDiskIntr_of_seen (not_not.1 hseen), hI⟩

/-- The buffers of the requests the device has posted to the used ring and the
driver has not seen yet, in ring order. -/
def doneBufs (s : Disk τ β) : List β :=
  (usedWindow s).filterMap s.infoB

/-- What `virtio_disk_intr` does from a state of the invariant: it completes,
having seen every head the device posted; the buffers of those requests are
distinct and each had `disk` set; it clears `disk` of exactly those buffers,
and changes nothing else. -/
theorem Inv.virtioDiskIntr_eq {s : Disk τ β} (hI : Inv s) :
    (doneBufs s).Nodup ∧ (∀ b ∈ doneBufs s, s.bufDisk b = true) ∧
      ∃ s', virtioDiskIntr s = .ok s' ∧ s'.seen = s.usedIdx ∧
        (∀ b, s'.bufDisk b = true ↔ s.bufDisk b = true ∧ b ∉ doneBufs s) ∧
        { s' with bufDisk := s.bufDisk, seen := s.seen } = s := by
  -- by the handler's own recursion: one round, then the rest from the state it leaves
  induction s using virtioDiskIntr.induct with
  | case1 s hne s₁ hround ih =>
    obtain ⟨t, b, c, hc, hh, hb, hround'⟩ := hI.intrRound_eq hne
    obtain ⟨s₂, hround₂, hI₂⟩ := hI.of_intrRound hne
    have hI₁ : Inv s₁ := Result.ok.inj (hround₂.symm.trans hround) ▸ hI₂
    obtain ⟨hnd, hset, s', hrun, hseen, hbuf, hframe⟩ := ih hI₁
    have hs₁ : s₁ = { s with bufDisk := Function.update s.bufDisk b false, seen := s.seen + 1 } :=
      Result.ok.inj (hround.symm.trans hround')
    subst hs₁
    -- the round takes the first request's buffer `b`, which the rest no longer has set
    have hdone : doneBufs s =
        b :: doneBufs { s with bufDisk := Function.update s.bufDisk b false, seen := s.seen + 1 } := by
      unfold doneBufs usedWindow
      rw [Ring.U16.window_pop num_dvd s.usedRing hne, List.filterMap_cons, ← hh, hI.chains.info t b c hc]
    have hb₁ : b ∉ doneBufs { s with bufDisk := Function.update s.bufDisk b false, seen := s.seen + 1 } :=
      fun hm => by simpa using hset b hm
    refine ⟨hdone ▸ List.nodup_cons.2 ⟨hb₁, hnd⟩, fun x hx => ?_, s', ?_, hseen, fun x => ?_, ?_⟩
    · rw [hdone] at hx
      rcases List.mem_cons.1 hx with rfl | hx
      · exact hb
      · have hne' : x ≠ b := fun h => hb₁ (h ▸ hx)
        simpa [Function.update_of_ne hne'] using hset x hx
    · rw [virtioDiskIntr_of_round hne hround]
      exact hrun
    · rw [hbuf x, hdone]
      by_cases hx : x = b
      · subst hx
        simp [hb₁]
      · simp [hx]
    · have h₁ : { s' with bufDisk := s.bufDisk, seen := s.seen } =
          { { s' with bufDisk := Function.update s.bufDisk b false, seen := s.seen + 1 } with
            bufDisk := s.bufDisk, seen := s.seen } :=
        rfl
      rw [h₁, hframe]
  | case2 s hne hround =>
    obtain ⟨_, hround', -⟩ := hI.of_intrRound hne
    rw [hround] at hround'
    cases hround'
  | case3 s hne msg hround =>
    obtain ⟨_, hround', -⟩ := hI.of_intrRound hne
    rw [hround] at hround'
    cases hround'
  | case4 s hseen =>
    -- nothing new on the used ring
    have hseen' : s.seen = s.usedIdx := not_not.1 hseen
    have hnil : doneBufs s = [] := by
      simp [doneBufs, usedWindow, hseen']
    refine ⟨by simp [hnil], by simp [hnil], s, virtioDiskIntr_of_seen hseen', hseen', fun b => by simp [hnil], rfl⟩

/-! ## A thread returns -/

section Threads

variable [DecidableEq τ]

omit [DecidableEq β] in
/-- A thread woken with its buffer's `disk` at 0 frees exactly its three
descriptors, clears `info[head].b` and returns; nothing else changes. -/
theorem Inv.finish_eq {s : Disk τ β} (hI : Inv s) {t : τ} {b : β} {c : Nat × Nat × Nat}
    (hc : s.phase t = .wait b c) (hb : s.bufDisk b = false) :
    ∃ s', finish s t b c.1 = .ok s' ∧ s'.phase = Function.update s.phase t .idle ∧
      s'.infoB = Function.update s.infoB c.1 none ∧
      (∀ j ∉ chainList c, s'.flags j = s.flags j ∧ s'.next j = s.next j ∧ s'.free j = s.free j) ∧
      (∀ j ∈ chainList c, s'.free j = true) ∧ inFlight s' = inFlight s ∧ usedWindow s' = usedWindow s ∧
      s'.bufDisk = s.bufDisk ∧ s'.status = s.status := by
  obtain ⟨i0, i1, i2⟩ := c
  have hct : (s.phase t).chain = some (i0, i1, i2) := by rw [hc]; rfl
  have hlt := hI.chains.lt t _ hct
  have hfc := freeChain_linked { s with infoB := Function.update s.infoB i0 none } (hI.chains.nodup t _ hct) hlt
    (fun i hi => (hI.chains.busy_iff i (hlt i hi)).2 ⟨t, _, hct, hi⟩) (hI.chains.linked t _ hct)
  refine ⟨{ s with flags := Function.update (Function.update (Function.update s.flags i0 0) i1 0) i2 0,
                   next := Function.update (Function.update (Function.update s.next i0 0) i1 0) i2 0,
                   free := Function.update (Function.update (Function.update s.free i0 true) i1 true) i2 true,
                   infoB := Function.update s.infoB i0 none, phase := Function.update s.phase t .idle },
    by simp only [finish, hb, Bool.false_eq_true, if_false, hfc, Result.ok_bind]; rfl,
    rfl, rfl, fun j hj => ?_, fun j hj => ?_, rfl, rfl, rfl, rfl⟩
  · simp only [chainList, List.mem_cons, List.not_mem_nil, or_false, not_or] at hj
    simp [Function.update_of_ne, hj.1, hj.2.1, hj.2.2]
  · simp only [chainList, List.mem_cons, List.not_mem_nil, or_false] at hj
    rcases hj with rfl | rfl | rfl <;> simp [Function.update_apply]

omit [DecidableEq β] in
/-- A thread returning keeps the invariant. -/
theorem Inv.of_finish {s : Disk τ β} (hI : Inv s) {t : τ} {b : β} {c : Nat × Nat × Nat}
    (hc : s.phase t = .wait b c) (hb : s.bufDisk b = false) :
    ∃ s', finish s t b c.1 = .ok s' ∧ Inv s' := by
  obtain ⟨s', hfin, hph, hinfo, hout, hin, hflight, hused, hbuf, hstatus⟩ := hI.finish_eq hc hb
  refine ⟨s', hfin, ?_⟩
  have hct : (s.phase t).chain = some c := by rw [hc]; rfl
  -- every other thread keeps its phase, and its chain is apart from `t`'s
  have hph' : ∀ u, u ≠ t → s'.phase u = s.phase u := fun u hu => by rw [hph, Function.update_of_ne hu]
  have hnot : ∀ u d, (s'.phase u).chain = some d → u ≠ t ∧ (s.phase u).chain = some d := by
    intro u d hd
    by_cases hu : u = t
    · subst hu
      rw [hph, Function.update_self] at hd
      cases hd
    · exact ⟨hu, hph' u hu ▸ hd⟩
  have hapart : ∀ u d, u ≠ t → (s.phase u).chain = some d → ∀ j ∈ chainList d, j ∉ chainList c :=
    fun u d hu hd j hj => hI.chains.apart u t d c hu hd hct j hj
  -- the only thread whose buffer's `disk` is 0 among the waiting ones is not a witness
  have hwit : ∀ u b' d, s.phase u = .wait b' d → s.bufDisk b' = true → u ≠ t := by
    rintro u b' d hd hb' rfl
    rw [hc] at hd
    cases hd
    rw [hb] at hb'
    cases hb'
  refine ⟨⟨?_, ?_, ?_, ?_, ?_, ?_, ?_⟩, ⟨hflight ▸ hI.rings.nodup, fun x => ?_, fun b' hb' => ?_, ?_⟩⟩
  · intro u d hd
    exact hI.chains.nodup u d (hnot u d hd).2
  · intro u d hd
    exact hI.chains.lt u d (hnot u d hd).2
  · intro u v d e huv hd he
    exact hI.chains.apart u v d e huv (hnot u d hd).2 (hnot v e he).2
  · intro i hi
    by_cases hic : i ∈ chainList c
    · rw [hin i hic]
      simp only [Bool.true_eq_false, false_iff, not_exists, not_and]
      intro u d hd hid
      obtain ⟨hu, hd'⟩ := hnot u d hd
      exact hapart u d hu hd' i hid hic
    · rw [(hout i hic).2.2, hI.chains.busy_iff i hi]
      constructor
      · rintro ⟨u, d, hd, hid⟩
        have hu : u ≠ t := by
          rintro rfl
          rw [hct] at hd
          cases hd
          exact hic hid
        exact ⟨u, d, hph' u hu ▸ hd, hid⟩
      · rintro ⟨u, d, hd, hid⟩
        exact ⟨u, d, (hnot u d hd).2, hid⟩
  · intro u d hd
    obtain ⟨hu, hd'⟩ := hnot u d hd
    exact (hI.chains.linked u d hd').congr (fun j hj => (hout j (hapart u d hu hd' j hj)).1)
      fun j hj => (hout j (hapart u d hu hd' j hj)).2.1
  · intro u b' d hd
    have hu : u ≠ t := (hnot u d (by rw [hd]; rfl)).1
    have hd' : s.phase u = .wait b' d := hph' u hu ▸ hd
    rw [hinfo, Function.update_of_ne (hI.chains.head_ne hu (by rw [hd']; rfl) hct)]
    exact hI.chains.info u b' d hd'
  · intro u v b' hu hv
    have hut : u ≠ t := fun h => by subst h; rw [hph, Function.update_self] at hu; cases hu
    have hvt : v ≠ t := fun h => by subst h; rw [hph, Function.update_self] at hv; cases hv
    exact hI.chains.buf_unique u v b' (hph' u hut ▸ hu) (hph' v hvt ▸ hv)
  · rw [hflight, hI.rings.mem_iff x, hbuf]
    constructor
    · rintro ⟨u, b', d, hd, hdx, hb'⟩
      exact ⟨u, b', d, (hph' u (hwit u b' d hd hb')).symm ▸ hd, hdx, hb'⟩
    · rintro ⟨u, b', d, hd, hdx, hb'⟩
      have hu : u ≠ t := (hnot u d (by rw [hd]; rfl)).1
      exact ⟨u, b', d, hph' u hu ▸ hd, hdx, hb'⟩
  · obtain ⟨u, d, hd⟩ := hI.rings.bufDisk_wait b' (hbuf ▸ hb')
    exact ⟨u, d, (hph' u (hwit u b' d hd (hbuf ▸ hb'))).symm ▸ hd⟩
  · intro x hx
    rw [hstatus]
    exact hI.rings.status_used x (hused ▸ hx)

/-! ## A thread takes descriptors -/

/-- A pass through the allocation loop that finds three free descriptors:
they are taken and linked into the thread's chain, its buffer is recorded
and flagged, and the head goes on the avail ring. -/
theorem Inv.tryAlloc_post {s : Disk τ β} (hI : Inv s) (t : τ) (b : β) (write : Bool) {i0 i1 i2 : Nat}
    (h3 : alloc3Desc s = .ok ({ s with free := markBusy s.free [i0, i1, i2] }, some [i0, i1, i2]))
    (hnd : [i0, i1, i2].Nodup) (hfree : ∀ i ∈ [i0, i1, i2], i < num ∧ s.free i = true) :
    ∃ s', tryAlloc s t b write = .ok s' ∧ s'.phase = Function.update s.phase t (.wait b (i0, i1, i2)) ∧
      s'.free = markBusy s.free [i0, i1, i2] ∧ Linked s' (i0, i1, i2) ∧
      (∀ j ∉ chainList (i0, i1, i2), s'.flags j = s.flags j ∧ s'.next j = s.next j) ∧
      s'.infoB = Function.update s.infoB i0 (some b) ∧ s'.bufDisk = Function.update s.bufDisk b true ∧
      s'.status = Function.update s.status i0 0xff ∧ availWindow s' = availWindow s ++ [i0] ∧
      s'.pending = s.pending ∧ usedWindow s' = usedWindow s := by
  simp only [List.nodup_cons, List.mem_cons, not_or, List.not_mem_nil, not_false_eq_true, List.nodup_nil,
    and_true] at hnd
  obtain ⟨⟨h01, h02⟩, h12⟩ := hnd
  -- the avail ring has room: the new head is on no way yet
  have hcount : (s.availIdx - s.devIdx).toNat < num := by
    have hi0 : i0 ∉ inFlight s := fun h => by
      have := (hI.busy_of_mem h).2
      rw [(hfree i0 List.mem_cons_self).2] at this
      cases this
    have hlen := length_le_of_nodup (List.nodup_cons.2 ⟨hi0, hI.rings.nodup⟩) fun y hy => by
      rcases List.mem_cons.1 hy with rfl | hy
      · exact (hfree y List.mem_cons_self).1
      · exact (hI.busy_of_mem hy).1
    simp only [List.length_cons, inFlight, List.length_append, availWindow, Ring.length_window] at hlen
    omega
  refine ⟨{ post { s with free := markBusy s.free [i0, i1, i2] } b write i0 i1 i2 with
              phase := Function.update s.phase t (.wait b (i0, i1, i2)) },
    by simp only [tryAlloc, h3, Result.ok_bind]; rfl, rfl, rfl, ?_, fun j hj => ?_, rfl, rfl, rfl,
    Ring.U16.window_push num_dvd (by decide) s.availRing s.devIdx s.availIdx hcount i0, rfl, rfl⟩
  · refine ⟨?_, ?_, ?_, ?_, ?_⟩ <;>
      simp only [post, Function.update_of_ne h01, Function.update_of_ne h02, Function.update_of_ne h12,
        Function.update_self]
    · decide
    · cases write <;> decide
    · decide
  · simp only [chainList, List.mem_cons, List.not_mem_nil, or_false, not_or] at hj
    simp [post, Function.update_of_ne, hj.1, hj.2.1, hj.2.2]

/-- The thread's request posted keeps the invariant: its chain is made of
descriptors that were free, and its head joins the heads on their way. -/
theorem Inv.of_post {s : Disk τ β} (hI : Inv s) (t : τ) (b : β) (write : Bool) {i0 i1 i2 : Nat}
    (h3 : alloc3Desc s = .ok ({ s with free := markBusy s.free [i0, i1, i2] }, some [i0, i1, i2]))
    (hnd : [i0, i1, i2].Nodup) (hfree : ∀ i ∈ [i0, i1, i2], i < num ∧ s.free i = true)
    (ht : (s.phase t).chain = none) (hb : ∀ u, u ≠ t → (s.phase u).buf ≠ some b)
    (hnw : ∀ b' d, s.phase t ≠ .wait b' d) :
    ∃ s', tryAlloc s t b write = .ok s' ∧ Inv s' := by
  obtain ⟨s', hs', hph, hfr, hlink, hrest, hinfo, hbuf, hstatus, havail, hpend, hused⟩ :=
    hI.tryAlloc_post t b write h3 hnd hfree
  refine ⟨s', hs', ?_⟩
  have hph' : ∀ u, u ≠ t → s'.phase u = s.phase u := fun u hu => by rw [hph, Function.update_of_ne hu]
  have hpht : s'.phase t = .wait b (i0, i1, i2) := by rw [hph, Function.update_self]
  -- the chains already there avoid the new one, whose descriptors were free
  have hold : ∀ u d, (s.phase u).chain = some d → ∀ j ∈ chainList d, j ∉ chainList (i0, i1, i2) :=
    fun u d hd j hj hj' => hI.chains.not_mem_of_free (hfree j hj').2 hd hj
  have hcases : ∀ u d, (s'.phase u).chain = some d →
      (u = t ∧ d = (i0, i1, i2)) ∨ (u ≠ t ∧ (s.phase u).chain = some d) := by
    intro u d hd
    by_cases hu : u = t
    · subst hu
      rw [hpht] at hd
      cases hd
      exact .inl ⟨rfl, rfl⟩
    · exact .inr ⟨hu, hph' u hu ▸ hd⟩
  have hnt : ∀ u b' d, s.phase u = .wait b' d → u ≠ t := fun u b' d hd hu => hnw b' d (hu ▸ hd)
  have hbne : ∀ u b' d, s.phase u = .wait b' d → b' ≠ b := by
    rintro u b' d hd rfl
    exact hb u (hnt u b' d hd) (by rw [hd]; rfl)
  have hi0 : i0 ∉ inFlight s := fun h => by
    have := (hI.busy_of_mem h).2
    rw [(hfree i0 List.mem_cons_self).2] at this
    cases this
  have hperm : (inFlight s').Perm (i0 :: inFlight s) := by
    simp only [inFlight, havail, hpend, hused, List.append_assoc, List.singleton_append]
    exact List.perm_middle
  refine ⟨⟨?_, ?_, ?_, ?_, ?_, ?_, ?_⟩, ⟨hperm.nodup_iff.2 (List.nodup_cons.2 ⟨hi0, hI.rings.nodup⟩),
    fun x => ?_, fun b' hb' => ?_, fun x hx => ?_⟩⟩
  · intro u d hd
    rcases hcases u d hd with ⟨-, rfl⟩ | ⟨-, hd'⟩
    · exact hnd
    · exact hI.chains.nodup u d hd'
  · intro u d hd
    rcases hcases u d hd with ⟨-, rfl⟩ | ⟨-, hd'⟩
    · exact fun i hi => (hfree i hi).1
    · exact hI.chains.lt u d hd'
  · intro u v d e huv hd he
    rcases hcases u d hd with ⟨rfl, rfl⟩ | ⟨hu, hd'⟩ <;> rcases hcases v e he with ⟨rfl, rfl⟩ | ⟨hv, he'⟩
    · exact absurd rfl huv
    · exact fun j hj hje => hold v e he' j hje hj
    · exact hold u d hd'
    · exact hI.chains.apart u v d e huv hd' he'
  · intro i hi
    rw [hfr]
    by_cases hic : i ∈ chainList (i0, i1, i2)
    · simp only [markBusy, if_pos (show i ∈ [i0, i1, i2] from hic)]
      exact iff_of_true (by trivial) ⟨t, _, by rw [hpht]; rfl, hic⟩
    · simp only [markBusy, if_neg (show i ∉ [i0, i1, i2] from hic), hI.chains.busy_iff i hi]
      constructor
      · rintro ⟨u, d, hd, hid⟩
        have hu : u ≠ t := fun hu => by rw [hu, ht] at hd; cases hd
        exact ⟨u, d, (hph' u hu).symm ▸ hd, hid⟩
      · rintro ⟨u, d, hd, hid⟩
        rcases hcases u d hd with ⟨-, rfl⟩ | ⟨-, hd'⟩
        · exact absurd hid hic
        · exact ⟨u, d, hd', hid⟩
  · intro u d hd
    rcases hcases u d hd with ⟨-, rfl⟩ | ⟨-, hd'⟩
    · exact hlink
    · exact (hI.chains.linked u d hd').congr (fun j hj => (hrest j (hold u d hd' j hj)).1)
        fun j hj => (hrest j (hold u d hd' j hj)).2
  · intro u b' d hd
    by_cases hu : u = t
    · subst hu
      rw [hpht] at hd
      cases hd
      rw [hinfo, Function.update_self]
    · have hd' : s.phase u = .wait b' d := hph' u hu ▸ hd
      have hne : d.1 ≠ i0 := fun h => hold u d (by rw [hd']; rfl) d.1 (mem_chainList_head d)
        (h ▸ mem_chainList_head _)
      rw [hinfo, Function.update_of_ne hne]
      exact hI.chains.info u b' d hd'
  · intro u v b' hu hv
    have hbuf' : ∀ w, w ≠ t → (s'.phase w).buf = some b' → (s.phase w).buf = some b' ∧ b' ≠ b :=
      fun w hw h => ⟨hph' w hw ▸ h, fun hb' => hb w hw (hb' ▸ hph' w hw ▸ h)⟩
    have hbt : (s'.phase t).buf = some b := by rw [hpht]; rfl
    by_cases hut : u = t <;> by_cases hvt : v = t
    · rw [hut, hvt]
    · subst hut
      rw [hbt] at hu
      exact absurd (Option.some.inj hu).symm (hbuf' v hvt hv).2
    · subst hvt
      rw [hbt] at hv
      exact absurd (Option.some.inj hv).symm (hbuf' u hut hu).2
    · exact hI.chains.buf_unique u v b' (hbuf' u hut hu).1 (hbuf' v hvt hv).1
  · rw [hperm.mem_iff, List.mem_cons, hI.rings.mem_iff x]
    constructor
    · rintro (rfl | ⟨u, b', d, hd, hdx, hb'⟩)
      · exact ⟨t, b, _, hpht, rfl, by rw [hbuf, Function.update_self]⟩
      · refine ⟨u, b', d, (hph' u (hnt u b' d hd)).symm ▸ hd, hdx, ?_⟩
        rw [hbuf, Function.update_of_ne (hbne u b' d hd)]
        exact hb'
    · rintro ⟨u, b', d, hd, hdx, hb'⟩
      by_cases hu : u = t
      · subst hu
        rw [hpht] at hd
        cases hd
        exact .inl hdx.symm
      · have hd' : s.phase u = .wait b' d := hph' u hu ▸ hd
        rw [hbuf, Function.update_of_ne (hbne u b' d hd')] at hb'
        exact .inr ⟨u, b', d, hd', hdx, hb'⟩
  · by_cases hbb : b' = b
    · exact ⟨t, _, hbb ▸ hpht⟩
    · rw [hbuf, Function.update_of_ne hbb] at hb'
      obtain ⟨u, d, hd⟩ := hI.rings.bufDisk_wait b' hb'
      exact ⟨u, d, (hph' u (hnt u b' d hd)).symm ▸ hd⟩
  · rw [hused] at hx
    have hx0 : x ≠ i0 := fun h => hi0 (h ▸ List.mem_append_right _ hx)
    rw [hstatus, Function.update_of_ne hx0]
    exact hI.rings.status_used x hx

/-- A pass through the allocation loop that keeps the invariant, for a thread
holding no chain and a buffer no other thread has. -/
theorem Inv.of_tryAlloc {s : Disk τ β} (hI : Inv s) {t : τ} {b : β} (write : Bool)
    (ht : (s.phase t).chain = none) (hb : ∀ u, u ≠ t → (s.phase u).buf ≠ some b) :
    ∃ s', tryAlloc s t b write = .ok s' ∧ Inv s' := by
  have hnw : ∀ b' d, s.phase t ≠ .wait b' d := fun b' d h => by rw [h] at ht; cases ht
  rcases alloc3Desc_spec s with ⟨i0, i1, i2, h3, hnd, hfree⟩ | ⟨f, n, h3, hfn⟩
  · exact hI.of_post t b write h3 hnd hfree ht hb hnw
  · -- no three descriptors free: they are given back and the thread sleeps
    refine ⟨_, by simp only [tryAlloc, h3, Result.ok_bind]; rfl, ?_⟩
    have hwait : ∀ u b' d, Function.update s.phase t (.alloc b write) u = .wait b' d ↔ s.phase u = .wait b' d := by
      intro u b' d
      by_cases hu : u = t
      · subst hu
        simp only [Function.update_self, reduceCtorEq, false_iff]
        exact hnw b' d
      · rw [Function.update_of_ne hu]
    have hchain : ∀ u, (Function.update s.phase t (.alloc b write) u).chain = (s.phase u).chain := by
      intro u
      by_cases hu : u = t
      · subst hu
        rw [Function.update_self, ht]
        rfl
      · rw [Function.update_of_ne hu]
    refine ⟨⟨?_, ?_, ?_, ?_, ?_, ?_, ?_⟩, hI.rings.congr hwait rfl rfl rfl rfl⟩
    · intro u d hd
      exact hI.chains.nodup u d (hchain u ▸ hd)
    · intro u d hd
      exact hI.chains.lt u d (hchain u ▸ hd)
    · intro u v d e huv hd he
      exact hI.chains.apart u v d e huv (hchain u ▸ hd) (hchain v ▸ he)
    · intro i hi
      simp only [hchain]
      exact hI.chains.busy_iff i hi
    · intro u d hd
      have hd' := hchain u ▸ hd
      -- the links of every chain are on descriptors that were not free
      have hbusy : ∀ j ∈ chainList d, s.free j = false := fun j hj =>
        (hI.chains.busy_iff j (hI.chains.lt u d hd' j hj)).2 ⟨u, d, hd', hj⟩
      exact (hI.chains.linked u d hd').congr (fun j hj => (hfn j (hbusy j hj)).1) fun j hj => (hfn j (hbusy j hj)).2
    · intro u b' d hd
      exact hI.chains.info u b' d ((hwait u b' d).1 hd)
    · intro u v b' hu hv
      dsimp only at hu hv
      by_cases hut : u = t
      · by_cases hvt : v = t
        · rw [hut, hvt]
        · subst hut
          rw [Function.update_of_ne hvt] at hv
          simp only [Function.update_self, Phase.buf, Option.some.injEq] at hu
          subst hu
          exact absurd hv (hb v hvt)
      · rw [Function.update_of_ne hut] at hu
        by_cases hvt : v = t
        · subst hvt
          simp only [Function.update_self, Phase.buf, Option.some.injEq] at hv
          subst hv
          exact absurd hu (hb u hut)
        · rw [Function.update_of_ne hvt] at hv
          exact hI.chains.buf_unique u v b' hu hv

end Threads

/-! ## Every step -/

section System

variable [Fintype τ] [DecidableEq τ]

/-- Every step from a state with the invariant waits, or completes in a state
with the invariant: none panics. -/
theorem Inv.step_cases {s : Disk τ β} (hI : Inv s) (a : Act τ β) :
    step s a = .wait ∨ ∃ s', step s a = .ok s' ∧ Inv s' := by
  cases a with
  | rw t b write =>
    simp only [step]
    split_ifs with hg
    · exact .inr (hI.of_tryAlloc write (by rw [hg.1]; rfl) fun u _ => hg.2 u)
    · exact .inl rfl
  | wake t =>
    simp only [step]
    split
    · exact .inl rfl
    · next b write hph =>
      -- another thread with the same buffer would contradict `buf_unique`
      refine .inr (hI.of_tryAlloc write (by rw [hph]; rfl) fun u hu hbu => hu ?_)
      exact hI.chains.buf_unique u t b hbu (by rw [hph]; rfl)
    · next b c hph =>
      cases hb : s.bufDisk b
      · exact .inr (hI.of_finish hph hb)
      · exact .inl (by simp [finish, hb])
  | intr => exact .inr hI.of_virtioDiskIntr
  | devTake =>
    simp only [step]
    cases h : devTake s with
    | ok s' => exact .inr ⟨s', rfl, hI.of_devTake h⟩
    | wait => exact .inl rfl
    | panic msg =>
      unfold devTake at h
      split_ifs at h
  | devPost k =>
    simp only [step]
    cases h : devPost s k with
    | ok s' => exact .inr ⟨s', rfl, hI.of_devPost h⟩
    | wait => exact .inl rfl
    | panic msg =>
      unfold devPost at h
      split at h <;> cases h

/-- The invariant holds in every reachable state. -/
theorem inv_of_reachable {s : Disk τ β} (hs : Reachable (virtioSystem τ β) s) : Inv s := by
  refine Reachable.rec_inv Inv inv_diskInit (fun s a s' hI hstep => ?_) hs
  rcases hI.step_cases a with h | ⟨s'', h, hI'⟩
  · change step s a = .ok s' at hstep
    rw [h] at hstep
    cases hstep
  · change step s a = .ok s' at hstep
    rw [h] at hstep
    cases hstep
    exact hI'

/-- The virtio driver over every interleaving of `virtio_disk_rw` calls and
wakeups, `virtio_disk_intr` and the device: in every reachable state the
descriptors are partitioned into the free ones and the linked chains of the
posted requests, and the heads on the rings, read at `idx % NUM` from the
`uint16` indices, are exactly the heads whose buffer's `disk` is 1 (`Inv`);
no step panics; `alloc3_desc`, when it fails, leaves `free[]` as it was; a
returning thread frees exactly its chain's three descriptors; and
`virtio_disk_intr` completes, seeing every head the device posted, and clears
the `disk` flag of exactly the buffers of those requests, which are distinct
and each had it set, changing nothing else. -/
theorem virtio_descriptors_partitioned {s : Disk τ β} (hs : Reachable (virtioSystem τ β) s) :
    Inv s ∧ (∀ a msg, step s a ≠ .panic msg) ∧
    (∀ s', alloc3Desc s = .ok (s', none) → s'.free = s.free) ∧
    (∀ t b c, s.phase t = .wait b c → s.bufDisk b = false → ∃ s', finish s t b c.1 = .ok s' ∧
      s'.phase = Function.update s.phase t .idle ∧ ∀ j, s'.free j = if j ∈ chainList c then true else s.free j) ∧
    ((doneBufs s).Nodup ∧ (∀ b ∈ doneBufs s, s.bufDisk b = true) ∧
      ∃ s', virtioDiskIntr s = .ok s' ∧ s'.seen = s.usedIdx ∧
        (∀ b, s'.bufDisk b = true ↔ s.bufDisk b = true ∧ b ∉ doneBufs s) ∧
        { s' with bufDisk := s.bufDisk, seen := s.seen } = s) := by
  have hI := inv_of_reachable hs
  refine ⟨hI, fun a msg h => ?_, fun s' h => ?_, fun t b c hc hb => ?_, hI.virtioDiskIntr_eq⟩
  · rcases hI.step_cases a with h' | ⟨s', h', -⟩ <;> rw [h'] at h <;> cases h
  · rcases alloc3Desc_spec s with ⟨i0, i1, i2, h3, -, -⟩ | ⟨f, n, h3, -⟩ <;> rw [h3] at h <;> cases h
    rfl
  · obtain ⟨s', hfin, hph, -, hout, hin, -⟩ := hI.finish_eq hc hb
    refine ⟨s', hfin, hph, fun j => ?_⟩
    split_ifs with hj
    · exact hin j hj
    · exact (hout j hj).2.2

set_option maxRecDepth 20000 in
/-- Thread 0 posts a write of buffer 0, and the device takes the request and
posts it back to the used ring. -/
theorem virtio_descriptors_partitioned_posted :
    ∃ s, run (virtioSystem (Fin 2) (Fin 2)) diskInit [.rw 0 0 true, .devTake, .devPost 0] = .ok s ∧
      Inv s ∧ (∀ a msg, step s a ≠ .panic msg) ∧
      (∀ s', alloc3Desc s = .ok (s', none) → s'.free = s.free) ∧
      (∀ t b c, s.phase t = .wait b c → s.bufDisk b = false → ∃ s', finish s t b c.1 = .ok s' ∧
        s'.phase = Function.update s.phase t .idle ∧ ∀ j, s'.free j = if j ∈ chainList c then true else s.free j) ∧
      ((doneBufs s).Nodup ∧ (∀ b ∈ doneBufs s, s.bufDisk b = true) ∧
        ∃ s', virtioDiskIntr s = .ok s' ∧ s'.seen = s.usedIdx ∧
          (∀ b, s'.bufDisk b = true ↔ s.bufDisk b = true ∧ b ∉ doneBufs s) ∧
          { s' with bufDisk := s.bufDisk, seen := s.seen } = s) :=
  Exists.imp (fun s hs => ⟨hs, virtio_descriptors_partitioned (reachable_of_run .init _ s hs)⟩) ⟨_, rfl⟩

end System

end Xv6.Virtio
