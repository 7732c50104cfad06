import Xv6.Bio.Coherence

/-
  Xv6/Bio/Frame.lean --- what a run of cache calls leaves alone.

  A caller such as the log's commit makes several calls in a row, and what it
  needs of them is: `bread` changes only the buffer it returns (`bread_spec`),
  and returns the buffer already caching the block when there is one
  (`Coherent.bread_eq_of_holds`); pinned buffers keep their pins and their
  blocks through `bread`, `brelse`, `bwrite` and data changes (`Keeps`); and
  buffers in use hold valid data of the device they were read from (`InUse`).
-/

set_option autoImplicit false

namespace Xv6.Bio

open Machine

variable {δ : Type}

/-! ## bread -/

/-- What `bread` does, whichever loop of `bget` finds the buffer: it raises the
buffer's count and `held`, leaves it caching the block with valid data, and
changes no other buffer, no pin and no disk block; the buffer was the one
caching the block or an unused one. -/
theorem bread_spec {c c' : BCache δ} {dev blockno : Nat} {i : Fin nBuf}
    (h : bread c dev blockno = .ok (c', i)) :
    c'.pins = c.pins ∧ c'.disk = c.disk ∧ c'.held = Function.update c.held i (c.held i + 1) ∧
      (∀ j, j ≠ i → c'.buf j = c.buf j) ∧
      (c'.buf i).dev = dev ∧ (c'.buf i).blockno = blockno ∧ (c'.buf i).valid = true ∧
      (c'.buf i).refcnt = (c.buf i).refcnt + 1 ∧
      ((c.buf i).refcnt = 0 ∨ ((c.buf i).dev = dev ∧ (c.buf i).blockno = blockno)) := by
  obtain ⟨c₁, hg, rfl⟩ := bread_ok h
  rcases bget_ok hg with ⟨hc, rfl⟩ | ⟨-, hf, rfl⟩
  · -- a hit: the buffer already caches the block
    have hh := (Dll.scan_spec hc).1
    simp only [holds, Bool.and_eq_true, beq_iff_eq] at hh
    by_cases hv : (c.buf i).valid = true
    · simp [hv, hh]
      exact fun j hj => Function.update_of_ne hj _ _
    · simp [hv, hh]
      exact fun j hj => Function.update_of_ne hj _ _
  · -- a recycle: the buffer had no reference
    have hfree := (Dll.scan_spec hf).1
    simp only [isFree, beq_iff_eq] at hfree
    simp [hfree]
    exact fun j hj => Function.update_of_ne hj _ _

/-- On a coherent cache, `bread` of a block a buffer of a device `>= 1` caches
returns that buffer. -/
theorem Coherent.bread_eq_of_holds {c c' : BCache δ} (h : Coherent c) {dev blockno : Nat}
    (hdev : 1 ≤ dev) {p : Fin nBuf} (hpd : (c.buf p).dev = dev) (hpb : (c.buf p).blockno = blockno)
    {i : Fin nBuf} (hb : Bio.bread c dev blockno = .ok (c', i)) : i = p := by
  obtain ⟨l, hl⟩ := h.lru
  obtain ⟨c₁, hg, -⟩ := bread_ok hb
  rcases bget_ok hg with ⟨hc, -⟩ | ⟨hnc, -, -⟩
  · have hh := (Dll.scan_spec hc).1
    simp only [holds, Bool.and_eq_true, beq_iff_eq] at hh
    exact h.unique i p (by omega) (by omega) (by omega)
  · have hp := hl.not_holds hnc p
    simp [holds, hpd, hpb] at hp

/-! ## Pinned buffers keep their blocks -/

/-- `c'` has the pins of `c`, and each pinned buffer still caches its block. -/
structure Keeps (c c' : BCache δ) : Prop where
  pins : c'.pins = c.pins
  dev : ∀ j, c.pins j ≠ 0 → (c'.buf j).dev = (c.buf j).dev
  blockno : ∀ j, c.pins j ≠ 0 → (c'.buf j).blockno = (c.buf j).blockno

theorem Keeps.refl (c : BCache δ) : Keeps c c := ⟨rfl, fun _ _ => rfl, fun _ _ => rfl⟩

theorem Keeps.trans {c₁ c₂ c₃ : BCache δ} (h₁ : Keeps c₁ c₂) (h₂ : Keeps c₂ c₃) : Keeps c₁ c₃ := by
  refine ⟨h₂.pins.trans h₁.pins, fun j hj => ?_, fun j hj => ?_⟩
  · have hj₂ : c₂.pins j ≠ 0 := by rw [h₁.pins]; exact hj
    rw [h₂.dev j hj₂, h₁.dev j hj]
  · have hj₂ : c₂.pins j ≠ 0 := by rw [h₁.pins]; exact hj
    rw [h₂.blockno j hj₂, h₁.blockno j hj]

/-- A call that changes no pin and no buffer's block keeps the pinned buffers. -/
theorem keeps_of_blocks {c c' : BCache δ} (hpins : c'.pins = c.pins)
    (hdev : ∀ j, (c'.buf j).dev = (c.buf j).dev) (hblock : ∀ j, (c'.buf j).blockno = (c.buf j).blockno) :
    Keeps c c' :=
  ⟨hpins, fun j _ => hdev j, fun j _ => hblock j⟩

/-- `bread` recycles only unused buffers, so it keeps the pinned ones. -/
theorem Coherent.keeps_bread {c c' : BCache δ} (h : Coherent c) {dev blockno : Nat}
    {i : Fin nBuf} (hb : Bio.bread c dev blockno = .ok (c', i)) : Keeps c c' := by
  obtain ⟨hpins, -, -, hother, hdev, hblock, -, -, hwas⟩ := bread_spec hb
  refine ⟨hpins, fun j hj => ?_, fun j hj => ?_⟩ <;> by_cases hji : j = i
  · subst hji
    rcases hwas with h0 | ⟨hd, -⟩
    · exact absurd (by have := h.refcnt j; omega) hj
    · rw [hdev, hd]
  · rw [hother j hji]
  · subst hji
    rcases hwas with h0 | ⟨-, hb'⟩
    · exact absurd (by have := h.refcnt j; omega) hj
    · rw [hblock, hb']
  · rw [hother j hji]

theorem keeps_brelse {c c' : BCache δ} {i : Fin nBuf} (hr : brelse c i = .ok c') : Keeps c c' := by
  rcases (brelse_ok hr).2 with ⟨-, rfl⟩ | ⟨-, rfl⟩
  · exact keeps_of_blocks rfl (dev_update rfl) (blockno_update rfl)
  · exact keeps_of_blocks rfl (dev_update rfl) (blockno_update rfl)

theorem keeps_bwrite {c c' : BCache δ} {i : Fin nBuf} (hw : bwrite c i = .ok c') : Keeps c c' := by
  obtain ⟨-, rfl⟩ := bwrite_ok hw
  exact keeps_of_blocks rfl (fun _ => rfl) (fun _ => rfl)

theorem keeps_modify {c c' : BCache δ} {i : Fin nBuf} {d : δ} (hm : modify c i d = .ok c') :
    Keeps c c' := by
  obtain ⟨-, rfl⟩ := modify_ok hm
  exact keeps_of_blocks rfl (dev_update rfl) (blockno_update rfl)

/-! ## Buffers in use -/

/-- Every buffer with a reference holds valid data of device `dev`. -/
def InUse (c : BCache δ) (dev : Nat) : Prop :=
  ∀ j, (c.buf j).refcnt ≠ 0 → (c.buf j).valid = true ∧ (c.buf j).dev = dev

theorem InUse.bread {c c' : BCache δ} {dev blockno : Nat} {i : Fin nBuf} (h : InUse c dev)
    (hb : Bio.bread c dev blockno = .ok (c', i)) : InUse c' dev := by
  obtain ⟨-, -, -, hother, hdev, -, hvalid, -, -⟩ := bread_spec hb
  intro j hj
  by_cases hji : j = i
  · subst hji
    exact ⟨hvalid, hdev⟩
  · rw [hother j hji] at hj ⊢
    exact h j hj

/-- A buffer in use keeps its block and its data through `bread`, and stays in
use. -/
theorem InUse.bread_buf {c c' : BCache δ} {dev blockno : Nat} {i j : Fin nBuf} (h : InUse c dev)
    (hb : Bio.bread c dev blockno = .ok (c', i)) (hj : (c.buf j).refcnt ≠ 0) :
    (c'.buf j).dev = (c.buf j).dev ∧ (c'.buf j).blockno = (c.buf j).blockno ∧
      (c'.buf j).data = (c.buf j).data ∧ (c'.buf j).refcnt ≠ 0 := by
  obtain ⟨c₁, hg, rfl⟩ := bread_ok hb
  rcases bget_ok hg with ⟨-, rfl⟩ | ⟨-, hf, rfl⟩
  · -- a hit: the buffer in use is valid, so nothing is read
    by_cases hji : j = i
    · subst hji
      simp [(h j hj).1]
    · by_cases hv : (c.buf i).valid = true <;> simp [hv, hji, hj]
  · -- a recycle takes an unused buffer, not `j`
    have hfree := (Dll.scan_spec hf).1
    simp only [isFree, beq_iff_eq] at hfree
    have hji : j ≠ i := fun e => hj (e ▸ hfree)
    simp [hji, hj]

/-- A call that changes no buffer's validity or device, and raises no count
from 0, keeps the buffers in use valid. -/
theorem InUse.of_buf {c c' : BCache δ} {dev : Nat} (h : InUse c dev)
    (hbuf : ∀ j, (c'.buf j).refcnt ≠ 0 → (c.buf j).refcnt ≠ 0 ∧ (c'.buf j).valid = (c.buf j).valid ∧
      (c'.buf j).dev = (c.buf j).dev) : InUse c' dev := by
  intro j hj
  obtain ⟨hj', hv, hd⟩ := hbuf j hj
  rw [hv, hd]
  exact h j hj'

theorem InUse.brelse {c c' : BCache δ} {dev : Nat} {i : Fin nBuf} (h : InUse c dev)
    (hr : Bio.brelse c i = .ok c') : InUse c' dev := by
  refine h.of_buf fun j hj => ?_
  rcases (brelse_ok hr).2 with ⟨-, rfl⟩ | ⟨-, rfl⟩ <;>
  · by_cases hji : j = i
    · subst hji
      simp at hj ⊢
      omega
    · simp [hji] at hj ⊢
      exact hj

theorem InUse.bwrite {c c' : BCache δ} {dev : Nat} {i : Fin nBuf} (h : InUse c dev)
    (hw : Bio.bwrite c i = .ok c') : InUse c' dev := by
  obtain ⟨-, rfl⟩ := bwrite_ok hw
  exact h

theorem InUse.modify {c c' : BCache δ} {dev : Nat} {i : Fin nBuf} {d : δ} (h : InUse c dev)
    (hm : Bio.modify c i d = .ok c') : InUse c' dev := by
  obtain ⟨-, rfl⟩ := modify_ok hm
  refine h.of_buf fun j hj => ?_
  by_cases hji : j = i
  · subst hji
    simpa using hj
  · simp [hji] at hj ⊢
    exact hj

theorem InUse.bunpin {c c' : BCache δ} {dev : Nat} {i : Fin nBuf} (h : InUse c dev)
    (hu : Bio.bunpin c i = .ok c') : InUse c' dev := by
  obtain ⟨-, rfl⟩ := bunpin_ok hu
  refine h.of_buf fun j hj => ?_
  by_cases hji : j = i
  · subst hji
    simp at hj ⊢
    omega
  · simp [hji] at hj ⊢
    exact hj

/-- `bpin` of a buffer in use. -/
theorem InUse.bpin {c : BCache δ} {dev : Nat} {i : Fin nBuf} (h : InUse c dev)
    (hi : (c.buf i).refcnt ≠ 0) : InUse (Bio.bpin c i) dev := by
  refine h.of_buf fun j hj => ?_
  by_cases hji : j = i
  · subst hji
    simpa [Bio.bpin] using hi
  · simp [Bio.bpin, hji] at hj ⊢
    exact hj

end Xv6.Bio
