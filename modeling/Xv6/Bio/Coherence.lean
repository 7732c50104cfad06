import Mathlib
import Xv6.Bio.Cache

/-
  Xv6/Bio/Coherence.lean --- what the buffer cache keeps true over any run.

  THE INVARIANT `Coherent`, over every sequence of `bread`, `bwrite`, `brelse`,
  `bpin`, `bunpin` and changes to held buffers from `binit` on:
  - the links thread a circular doubly-linked list through `bcache.head` on
    which every buffer stands exactly once (`LruList`);
  - that list runs from the most to the least recently released buffer, where a
    buffer is released when a `brelse` drops its last reference and moves it to
    the front;
  - no two buffers of a device `>= 1` cache the same block;
  - each `refcnt` is the number of outstanding `bget` results plus pins.

  From it: `bget` recycles, among the unused buffers, the one whose last release
  by `brelse` is the oldest, and `bread` returns the content the cache presents
  for the block, the data of a valid buffer caching it or else the disk's
  (`bcache_coherent`).

  A buffer's reference count also reaches 0 when `bunpin` drops the last one,
  and `bunpin` does not move the buffer: it stays where its last `brelse` left
  it.  So the buffer `bget` recycles need not be the one released longest ago
  when releases by `bunpin` count: `bget_recycles_buffer_just_unpinned` runs
  one such sequence.
-/

set_option autoImplicit false

namespace Xv6.Bio

open Machine

variable {δ : Type}

/-! ## The LRU list -/

/-- `l` is the LRU list of `s`: the links thread exactly its buffers from the
sentinel, every buffer is on it, and it runs from the most to the least
recently released. -/
structure LruList (s : BCache δ) (l : List (Fin nBuf)) : Prop where
  circular : Dll.IsCircular s.next s.prev none (l.map some)
  complete : ∀ i, i ∈ l
  ordered : l.Pairwise (fun i j => s.lastRelease j < s.lastRelease i)

section LruList

variable {s : BCache δ} {l : List (Fin nBuf)}

theorem LruList.nodup (h : LruList s l) : l.Nodup :=
  List.Nodup.of_map some (List.nodup_cons.1 h.circular.nodup).2

theorem LruList.length_lt (h : LruList s l) : (l.map some).length < nBuf + 1 := by
  have := h.nodup.length_le_card
  simp only [Fintype.card_fin] at this
  simpa using Nat.lt_succ_of_le this

/-- `bget`'s first loop finds the first buffer of the list caching the block. -/
theorem LruList.findCached_eq (h : LruList s l) (dev blockno : Nat) :
    findCached s dev blockno = (l.find? fun i => holds s dev blockno (some i)).map some := by
  rw [findCached, h.circular.scan_next _ h.length_lt, List.find?_map]
  rfl

/-- `bget`'s second loop finds the last unused buffer of the list. -/
theorem LruList.findFree_eq (h : LruList s l) :
    findFree s = (l.reverse.find? fun i => isFree s (some i)).map some := by
  rw [findFree, h.circular.scan_prev _ h.length_lt, ← List.map_reverse, List.find?_map]
  rfl

/-- When the first loop of `bget` finds nothing, no buffer caches the block. -/
theorem LruList.not_holds (h : LruList s l) {dev blockno : Nat}
    (hc : ∀ j, findCached s dev blockno ≠ some (some j)) (j : Fin nBuf) :
    holds s dev blockno (some j) = false := by
  rw [h.findCached_eq] at hc
  have hnone : (l.find? fun i => holds s dev blockno (some i)) = none := by
    cases hf : l.find? fun i => holds s dev blockno (some i) with
    | none => rfl
    | some k => exact absurd (by rw [hf]; rfl) (hc k)
  simpa using List.find?_eq_none.1 hnone j (h.complete j)

/-- The buffer `bget`'s second loop finds is unused, and every other unused
buffer was released more recently. -/
theorem LruList.findFree_lru (h : LruList s l) {i : Fin nBuf} (hf : findFree s = some (some i)) :
    (s.buf i).refcnt = 0 ∧
      ∀ j, (s.buf j).refcnt = 0 → j ≠ i → s.lastRelease i < s.lastRelease j := by
  rw [h.findFree_eq] at hf
  obtain ⟨k, hk, hki⟩ := Option.map_eq_some_iff.1 hf
  cases hki
  refine ⟨by simpa [isFree] using List.find?_some hk, fun j hj hji => ?_⟩
  exact Dll.find?_reverse_rel h.ordered hk (h.complete j) (by simpa [isFree] using hj) hji

/-- The list depends only on the links and the release times. -/
theorem LruList.congr {s' : BCache δ} (h : LruList s l) (hnext : s'.next = s.next)
    (hprev : s'.prev = s.prev) (hlast : s'.lastRelease = s.lastRelease) : LruList s' l := by
  refine ⟨?_, h.complete, ?_⟩
  · rw [hnext, hprev]
    exact h.circular
  · rw [hlast]
    exact h.ordered

end LruList

/-! ## The invariant -/

/-- What the buffer cache keeps true. -/
structure Coherent (s : BCache δ) : Prop where
  lru : ∃ l, LruList s l
  clock : ∀ i, s.lastRelease i < s.clock
  unique : ∀ i j, 1 ≤ (s.buf i).dev → (s.buf i).dev = (s.buf j).dev →
    (s.buf i).blockno = (s.buf j).blockno → i = j
  refcnt : ∀ i, (s.buf i).refcnt = s.held i + s.pins i

section Preservation

variable {s s' : BCache δ}

/-! Steps change one buffer at a time; these say what the others keep. -/

theorem dev_update {buf : Fin nBuf → Buf δ} {i : Fin nBuf} {b : Buf δ} (h : b.dev = (buf i).dev)
    (j : Fin nBuf) : (Function.update buf i b j).dev = (buf j).dev := by
  by_cases hj : j = i
  · subst hj
    simpa using h
  · simp [hj]

theorem blockno_update {buf : Fin nBuf → Buf δ} {i : Fin nBuf} {b : Buf δ}
    (h : b.blockno = (buf i).blockno) (j : Fin nBuf) :
    (Function.update buf i b j).blockno = (buf j).blockno := by
  by_cases hj : j = i
  · subst hj
    simpa using h
  · simp [hj]

/-- Changing one buffer's reference count, and its counters to match, keeps
`refcnt = held + pins`. -/
theorem refcnt_update {buf : Fin nBuf → Buf δ} {held pins held' pins' : Fin nBuf → Nat}
    {i : Fin nBuf} {b : Buf δ} (h : ∀ j, (buf j).refcnt = held j + pins j)
    (hi : b.refcnt = held' i + pins' i) (hheld : ∀ j, j ≠ i → held' j = held j)
    (hpins : ∀ j, j ≠ i → pins' j = pins j) (j : Fin nBuf) :
    (Function.update buf i b j).refcnt = held' j + pins' j := by
  by_cases hj : j = i
  · subst hj
    simpa using hi
  · rw [Function.update_of_ne hj, hheld j hj, hpins j hj]
    exact h j

/-- Blocks as they were: the uniqueness clause carries over. -/
theorem unique_of_blocks (hu : ∀ i j, 1 ≤ (s.buf i).dev → (s.buf i).dev = (s.buf j).dev →
      (s.buf i).blockno = (s.buf j).blockno → i = j)
    (hdev : ∀ i, (s'.buf i).dev = (s.buf i).dev) (hblock : ∀ i, (s'.buf i).blockno = (s.buf i).blockno) :
    ∀ i j, 1 ≤ (s'.buf i).dev → (s'.buf i).dev = (s'.buf j).dev →
      (s'.buf i).blockno = (s'.buf j).blockno → i = j := by
  intro i j hi hd hb
  rw [hdev, hdev] at hd
  rw [hblock, hblock] at hb
  exact hu i j (hdev i ▸ hi) hd hb

/-- A step that leaves the list, the release times and every buffer's block
alone, and keeps the reference counts right, keeps the invariant. -/
theorem Coherent.of_frame (h : Coherent s) (hnext : s'.next = s.next) (hprev : s'.prev = s.prev)
    (hlast : s'.lastRelease = s.lastRelease) (hclock : s'.clock = s.clock)
    (hdev : ∀ i, (s'.buf i).dev = (s.buf i).dev) (hblock : ∀ i, (s'.buf i).blockno = (s.buf i).blockno)
    (href : ∀ i, (s'.buf i).refcnt = s'.held i + s'.pins i) : Coherent s' := by
  obtain ⟨l, hl⟩ := h.lru
  refine ⟨⟨l, hl.congr hnext hprev hlast⟩, ?_, unique_of_blocks h.unique hdev hblock, href⟩
  · intro i
    rw [hlast, hclock]
    exact h.clock i

theorem Coherent.bget (h : Coherent s) {dev blockno : Nat} {i : Fin nBuf}
    (hg : Bio.bget s dev blockno = .ok (s', i)) : Coherent s' := by
  obtain ⟨l, hl⟩ := h.lru
  rcases bget_ok hg with ⟨-, rfl⟩ | ⟨hnc, hf, rfl⟩
  · -- a hit: only the reference count changes
    refine h.of_frame rfl rfl rfl rfl (dev_update rfl) (blockno_update rfl) ?_
    exact refcnt_update h.refcnt (by simp [h.refcnt i]; omega) (fun j hj => by simp [hj])
      (fun _ _ => rfl)
  · -- a recycle: the block is cached nowhere, and the buffer had no reference
    have hfree := (hl.findFree_lru hf).1
    have hzero : s.held i = 0 ∧ s.pins i = 0 := by
      have := h.refcnt i
      omega
    have hnot : ∀ j, j ≠ i → ¬((s.buf j).dev = dev ∧ (s.buf j).blockno = blockno) := by
      intro j _ hj
      simpa [holds, hj.1, hj.2] using hl.not_holds hnc j
    refine ⟨⟨l, hl.congr rfl rfl rfl⟩, h.clock, ?_, ?_⟩
    · intro j k hj hd hb
      by_cases hji : j = i <;> by_cases hki : k = i
      · exact hji.trans hki.symm
      · -- `j` is the recycled buffer: `k` would cache its new block
        subst hji
        simp [hki] at hd hb
        exact absurd ⟨hd.symm, hb.symm⟩ (hnot k hki)
      · subst hki
        simp [hji] at hd hb
        exact absurd ⟨hd, hb⟩ (hnot j hji)
      · simp [hji, hki] at hd hb hj
        exact h.unique j k hj hd hb
    · exact refcnt_update h.refcnt (by simp [hzero]) (fun j hj => by simp [hj]) (fun _ _ => rfl)

theorem Coherent.bread (h : Coherent s) {dev blockno : Nat} {i : Fin nBuf}
    (hb : Bio.bread s dev blockno = .ok (s', i)) : Coherent s' := by
  obtain ⟨s₁, hg, rfl⟩ := bread_ok hb
  have h₁ := h.bget hg
  split_ifs with hv
  · exact h₁
  · -- the disk read changes only `data` and `valid`
    refine h₁.of_frame rfl rfl rfl rfl (dev_update rfl) (blockno_update rfl) ?_
    exact refcnt_update h₁.refcnt (h₁.refcnt i) (fun _ _ => rfl) (fun _ _ => rfl)

theorem Coherent.brelse (h : Coherent s) {i : Fin nBuf} (hr : Bio.brelse s i = .ok s') :
    Coherent s' := by
  obtain ⟨hheld, hcase⟩ := brelse_ok hr
  have href : ∀ j, (Function.update s.buf i
      { s.buf i with refcnt := (s.buf i).refcnt - 1 } j).refcnt =
        Function.update s.held i (s.held i - 1) j + s.pins j :=
    refcnt_update h.refcnt (by simp [h.refcnt i]; omega) (fun j hj => by simp [hj]) (fun _ _ => rfl)
  rcases hcase with ⟨-, rfl⟩ | ⟨-, rfl⟩
  · -- the last reference: the buffer moves to the front with the newest time
    obtain ⟨l, hl⟩ := h.lru
    obtain ⟨l₁, l₂, rfl⟩ := List.append_of_mem (hl.complete i)
    have hil : i ∉ l₁ ++ l₂ := (List.nodup_cons.1 (List.nodup_middle.1 hl.nodup)).1
    refine ⟨⟨i :: (l₁ ++ l₂), ⟨?_, ?_, ?_⟩⟩, ?_, ?_, href⟩
    · have hc := hl.circular
      simp only [List.map_append, List.map_cons] at hc
      simpa using hc.unlink_pushFront
    · intro j
      rcases List.mem_append.1 (hl.complete j) with hj | hj
      · exact List.mem_cons_of_mem i (List.mem_append_left l₂ hj)
      · rcases List.mem_cons.1 hj with e | hj
        · exact e ▸ List.mem_cons_self
        · exact List.mem_cons_of_mem i (List.mem_append_right l₁ hj)
    · refine List.pairwise_cons.2 ⟨fun j hj => ?_, ?_⟩
      · have hji : j ≠ i := fun e => hil (e ▸ hj)
        simpa [hji] using h.clock j
      · have hsub : (l₁ ++ l₂).Pairwise fun a b => s.lastRelease b < s.lastRelease a :=
          hl.ordered.sublist ((List.sublist_cons_self i l₂).append_left l₁)
        refine hsub.imp_of_mem fun {a b} ha hb hab => ?_
        have hai : a ≠ i := fun e => hil (e ▸ ha)
        have hbi : b ≠ i := fun e => hil (e ▸ hb)
        simpa [hai, hbi] using hab
    · intro j
      by_cases hj : j = i
      · subst hj
        simp
      · have := h.clock j
        simp only [ne_eq, hj, not_false_eq_true, Function.update_of_ne]
        omega
    · exact unique_of_blocks h.unique (dev_update rfl) (blockno_update rfl)
  · -- other references remain: only the counts change
    exact h.of_frame rfl rfl rfl rfl (dev_update rfl) (blockno_update rfl) href

theorem Coherent.bwrite (h : Coherent s) {i : Fin nBuf} (hw : Bio.bwrite s i = .ok s') :
    Coherent s' := by
  obtain ⟨-, rfl⟩ := bwrite_ok hw
  exact h.of_frame rfl rfl rfl rfl (fun _ => rfl) (fun _ => rfl) h.refcnt

theorem Coherent.bpin (h : Coherent s) (i : Fin nBuf) : Coherent (Bio.bpin s i) := by
  unfold Bio.bpin
  exact h.of_frame rfl rfl rfl rfl (dev_update rfl) (blockno_update rfl)
    (refcnt_update h.refcnt (by simp [h.refcnt i]; omega) (fun _ _ => rfl) (fun j hj => by simp [hj]))

theorem Coherent.bunpin (h : Coherent s) {i : Fin nBuf} (hu : Bio.bunpin s i = .ok s') :
    Coherent s' := by
  obtain ⟨hpin, rfl⟩ := bunpin_ok hu
  exact h.of_frame rfl rfl rfl rfl (dev_update rfl) (blockno_update rfl)
    (refcnt_update h.refcnt (by simp [h.refcnt i]; omega) (fun _ _ => rfl) (fun j hj => by simp [hj]))

theorem Coherent.modify (h : Coherent s) {i : Fin nBuf} {d : δ} (hm : Bio.modify s i d = .ok s') :
    Coherent s' := by
  obtain ⟨-, rfl⟩ := modify_ok hm
  exact h.of_frame rfl rfl rfl rfl (dev_update rfl) (blockno_update rfl)
    (refcnt_update h.refcnt (h.refcnt i) (fun _ _ => rfl) (fun _ _ => rfl))

theorem Coherent.step (h : Coherent s) {op : Op δ} (hs : Bio.step s op = .ok s') : Coherent s' := by
  cases op with
  | bread dev blockno =>
    obtain ⟨i, hb⟩ := step_bread_ok hs
    exact h.bread hb
  | bwrite i => exact h.bwrite hs
  | brelse i => exact h.brelse hs
  | bpin i =>
    cases hs
    exact h.bpin i
  | bunpin i => exact h.bunpin hs
  | modify i d => exact h.modify hs

end Preservation

/-! ## What `bread` returns -/

/-- The content of block `blockno` of `dev` as the cache presents it: the data
of a valid buffer caching it, else the disk's. -/
def content (s : BCache δ) (dev blockno : Nat) : δ :=
  match (List.finRange nBuf).find? (fun i => (s.buf i).valid && holds s dev blockno (some i)) with
  | some i => (s.buf i).data
  | none => s.disk blockno

section Content

variable {s s' : BCache δ} {dev blockno : Nat}

/-- On a device `>= 1`, a valid buffer caching the block presents its data. -/
theorem content_of_valid (h : Coherent s) (hdev : 1 ≤ dev) {i : Fin nBuf}
    (hi : holds s dev blockno (some i) = true) (hv : (s.buf i).valid = true) :
    content s dev blockno = (s.buf i).data := by
  unfold content
  cases hf : (List.finRange nBuf).find? (fun j => (s.buf j).valid && holds s dev blockno (some j)) with
  | none =>
    have := List.find?_eq_none.1 hf i (List.mem_finRange i)
    simp [hv, hi] at this
  | some j =>
    -- the buffer found caches the same block, so it is `i`
    have hj := List.find?_some hf
    simp only [holds, Bool.and_eq_true, beq_iff_eq] at hi hj
    rw [h.unique j i (by omega) (by omega) (by omega)]

/-- With no valid buffer caching the block, the disk's content is presented. -/
theorem content_of_forall_not_valid
    (hnv : ∀ j, holds s dev blockno (some j) = true → (s.buf j).valid = false) :
    content s dev blockno = s.disk blockno := by
  unfold content
  cases hf : (List.finRange nBuf).find? (fun j => (s.buf j).valid && holds s dev blockno (some j)) with
  | none => rfl
  | some j =>
    have hj := List.find?_some hf
    simp only [Bool.and_eq_true] at hj
    simp [hnv j hj.2] at hj

/-- `bread` of a block of a device `>= 1` returns the content the cache
presented for it. -/
theorem Coherent.bread_content (h : Coherent s) (hdev : 1 ≤ dev) {i : Fin nBuf}
    (hb : Bio.bread s dev blockno = .ok (s', i)) : (s'.buf i).data = content s dev blockno := by
  obtain ⟨l, hl⟩ := h.lru
  obtain ⟨s₁, hg, rfl⟩ := bread_ok hb
  rcases bget_ok hg with ⟨hc, rfl⟩ | ⟨hnc, -, rfl⟩
  · -- a hit: buffer `i` caches the block, and no other buffer does
    have hi : holds s dev blockno (some i) = true := by
      rw [hl.findCached_eq] at hc
      obtain ⟨k, hk, hki⟩ := Option.map_eq_some_iff.1 hc
      cases hki
      have hfound := List.find?_some hk
      exact hfound
    have hb' : (s.buf i).blockno = blockno := by simp_all [holds]
    by_cases hv : (s.buf i).valid = true
    · simpa [hv] using (content_of_valid h hdev hi hv).symm
    · have hother : ∀ j, holds s dev blockno (some j) = true → (s.buf j).valid = false := by
        intro j hj
        have hji : j = i := by
          simp only [holds, Bool.and_eq_true, beq_iff_eq] at hi hj
          exact h.unique j i (by omega) (by omega) (by omega)
        simpa [hji] using hv
      simp [hv, hb', content_of_forall_not_valid hother]
  · -- a recycle: no buffer caches the block, and the disk is read
    have hnone : ∀ j, holds s dev blockno (some j) = true → (s.buf j).valid = false :=
      fun j hj => absurd hj (by simp [hl.not_holds hnc j])
    simp [content_of_forall_not_valid hnone]

end Content

/-! ## From `binit` on -/

/-- `binit` threads the buffers from `buf[NBUF-1]` down to `buf[0]`. -/
theorem lruList_binit [Inhabited δ] (disk : Nat → δ) :
    LruList (binit disk) (List.finRange nBuf).reverse := by
  have hempty : Dll.IsCircular (fun _ => none) (fun _ => none) (none : Node) [] :=
    ⟨⟨rfl, rfl⟩, List.nodup_singleton none⟩
  have hnd : ((List.finRange nBuf).map some ++ [(none : Node)]).Nodup := by
    rw [List.nodup_append]
    refine ⟨(List.nodup_finRange nBuf).map (Option.some_injective _), List.nodup_singleton none, ?_⟩
    intro a ha b hb
    obtain ⟨i, -, rfl⟩ := List.mem_map.1 ha
    rw [List.mem_singleton.1 hb]
    exact Option.some_ne_none i
  have hc := hempty.foldl_pushFront _ hnd
  rw [List.foldl_map] at hc
  refine ⟨by simpa [binit, binitLinks, List.map_reverse] using hc, fun i => by simp, ?_⟩
  rw [List.pairwise_reverse]
  exact (List.pairwise_lt_finRange nBuf).imp fun {_ _} h => h

theorem coherent_binit [Inhabited δ] (disk : Nat → δ) : Coherent (binit disk) :=
  ⟨⟨_, lruList_binit disk⟩, fun i => i.isLt, fun _ _ h => absurd h (by simp [binit]), fun _ => rfl⟩

theorem coherent_of_reachable [Inhabited δ] {disk : Nat → δ} {s : BCache δ}
    (hs : Reachable (bioSystem disk) s) : Coherent s :=
  hs.rec_inv Coherent (coherent_binit disk) fun _ _ _ h hstep => h.step hstep

/-- In every state the buffer cache reaches: the links thread every buffer
exactly once through a circular list from `bcache.head`; no two buffers cache
one block of a device `>= 1`; each `refcnt` counts the outstanding `bget`
results and pins; a `bget` that must recycle picks an unused buffer whose last
release by `brelse` is older than every other unused buffer's; and `bread`
returns the content the cache presents for the block. -/
theorem bcache_coherent [Inhabited δ] {disk : Nat → δ} {s : BCache δ}
    (hs : Reachable (bioSystem disk) s) :
    (∃ l : List (Fin nBuf), Dll.IsCircular s.next s.prev none (l.map some) ∧ ∀ i, i ∈ l) ∧
    (∀ i j, 1 ≤ (s.buf i).dev → (s.buf i).dev = (s.buf j).dev →
      (s.buf i).blockno = (s.buf j).blockno → i = j) ∧
    (∀ i, (s.buf i).refcnt = s.held i + s.pins i) ∧
    (∀ dev blockno s' i, bget s dev blockno = .ok (s', i) →
      (∀ j, holds s dev blockno (some j) = false) →
      (s.buf i).refcnt = 0 ∧
        ∀ j, (s.buf j).refcnt = 0 → j ≠ i → s.lastRelease i < s.lastRelease j) ∧
    (∀ dev blockno s' i, 1 ≤ dev → bread s dev blockno = .ok (s', i) →
      (s'.buf i).data = content s dev blockno) := by
  have h := coherent_of_reachable hs
  obtain ⟨l, hl⟩ := h.lru
  refine ⟨⟨l, hl.circular, hl.complete⟩, h.unique, h.refcnt, ?_, ?_⟩
  · intro dev blockno s' i hg hnot
    rcases bget_ok hg with ⟨hc, -⟩ | ⟨-, hf, -⟩
    · -- a hit would be a buffer caching the block
      rw [hl.findCached_eq] at hc
      obtain ⟨k, hk, hki⟩ := Option.map_eq_some_iff.1 hc
      cases hki
      exact absurd (List.find?_some hk) (by simp [hnot i])
    · exact hl.findFree_lru hf
  · intro dev blockno s' i hdev hb
    exact h.bread_content hdev hb

set_option maxRecDepth 20000 in
/-- Two blocks read, the first pinned, both released and the pin dropped. -/
theorem bcache_coherent_after_unpin :
    ∃ s, run (bioSystem fun _ => (0 : Nat)) (binit fun _ => 0)
        [.bread 1 1, .bpin 0, .bread 1 2, .brelse 1, .brelse 0, .bunpin 0] = .ok s ∧
      (∃ l : List (Fin nBuf), Dll.IsCircular s.next s.prev none (l.map some) ∧ ∀ i, i ∈ l) ∧
      (∀ i j, 1 ≤ (s.buf i).dev → (s.buf i).dev = (s.buf j).dev →
        (s.buf i).blockno = (s.buf j).blockno → i = j) ∧
      (∀ i, (s.buf i).refcnt = s.held i + s.pins i) ∧
      (∀ dev blockno s' i, bget s dev blockno = .ok (s', i) →
        (∀ j, holds s dev blockno (some j) = false) →
        (s.buf i).refcnt = 0 ∧
          ∀ j, (s.buf j).refcnt = 0 → j ≠ i → s.lastRelease i < s.lastRelease j) ∧
      (∀ dev blockno s' i, 1 ≤ dev → bread s dev blockno = .ok (s', i) →
        (s'.buf i).data = content s dev blockno) :=
  Exists.imp (fun s hs => ⟨hs, bcache_coherent (reachable_of_run .init _ s hs)⟩) ⟨_, rfl⟩

end Xv6.Bio
