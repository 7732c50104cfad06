import Xv6.User.Umalloc
import Xv6.Lib.Circular
import Xv6.Lib.Machine
import Xv6.Vm.Kalloc

/-
  Xv6/User/Freelist.lean --- the free list of user/umalloc.c over every
  sequence of `malloc` and `free` calls.

  The free blocks and `base` form a circular list through their headers
  (`FreeList`): from `base`, a block of size 0 below the heap, the links
  visit the free blocks in address order and come back to `base` from the
  highest.  Each block lies between the start of the heap and the break, no
  free block ends where the next one starts, and the free blocks and the
  blocks handed out (the ghost list `live`) do not overlap.

  `free` of a block handed out searches from `freep` for the block `p` below
  it with nothing free in between (`stopAt_iff`), which one round finds
  (`freeScan_eq`); it then links the block in after `p`, joined to the free
  block above when they touch and to `p` when they touch (`FreeList.free`).
  `malloc` walks from `freep` to the first block big enough (`mallocLoop_skip`)
  and hands it out whole or its tail (`FreeList.carve`); when a whole round
  finds none, `morecore` frees a block from `sbrk` past the break
  (`FreeList.morecore`), and the walk that follows finds it or the block it
  joined, so a call runs at most twice round the list
  (`FreeList.mallocLoop`).

  `umallocSystem` is a program that calls `malloc` with sizes below
  2^31 - 32 and `free` with pointers `malloc` returned and not freed since;
  its loops get fuel for twice round the longest list the heap can hold.
  Every state it reaches has such a free list, and every call it makes
  returns (`umalloc_free_list_invariant`).
-/

set_option autoImplicit false

namespace Xv6.User

open Machine Circ

/-! ## Blocks -/

/-- The block the header at `a` links to. -/
def Heap.next (h : Heap) (a : Nat) : Nat := (h.hdr a).ptr

theorem Heap.next_def (h : Heap) (a : Nat) : h.next a = (h.hdr a).ptr := rfl

/-- The bytes of the block whose header is at `a`. -/
def Heap.bytes (h : Heap) (a : Nat) : Nat := (h.hdr a).size * hdrSize

theorem Heap.bytes_def (h : Heap) (a : Nat) : h.bytes a = (h.hdr a).size * hdrSize := rfl

/-- A block of the heap: from `lo` on, one header unit at least, and below
the break. -/
structure Heap.Block (h : Heap) (lo a : Nat) : Prop where
  lo_le : lo ≤ a
  pos : 0 < (h.hdr a).size
  le_sz : a + h.bytes a ≤ h.sz

theorem Heap.Block.lt_end {h : Heap} {lo a : Nat} (hb : h.Block lo a) : a + hdrSize ≤ a + h.bytes a := by
  have := hb.pos
  simp only [Heap.bytes_def, hdrSize]
  omega

/-- The free list of a heap in use, with `live` the headers of the blocks
handed out: the links from `base` visit the free blocks `l` and come back
(`links`), each block's link is the next block up, past its end, or `base`
(`gap`), and the free and handed-out blocks lie in the heap without
overlapping (`block`, `apart`). -/
structure FreeList (base lo : Nat) (h : Heap) (live l : List Nat) : Prop where
  base_lt : base < lo
  links : Links h.next (base :: l)
  base_size : (h.hdr base).size = 0
  freep : h.freep ∈ base :: l
  gap : ∀ a ∈ l, h.next a = base ∨ a + h.bytes a < h.next a
  block : ∀ a ∈ l ++ live, h.Block lo a
  nodup : (l ++ live).Nodup
  apart : ∀ a ∈ l ++ live, ∀ b ∈ l ++ live, a < b → a + h.bytes a ≤ b
  lo_le_sz : lo ≤ h.sz

namespace FreeList

variable {base lo : Nat} {h : Heap} {live l : List Nat}

theorem base_lt_of_mem (hf : FreeList base lo h live l) {a : Nat} (ha : a ∈ l) : base < a :=
  hf.base_lt.trans_le (hf.block a (List.mem_append_left _ ha)).lo_le

theorem nodup_cycle (hf : FreeList base lo h live l) : (base :: l).Nodup :=
  List.nodup_cons.2 ⟨fun hb => lt_irrefl _ (hf.base_lt_of_mem hb), (List.nodup_append.1 hf.nodup).1⟩

/-- The free blocks are in address order, each ending before the next
starts. -/
theorem chain (hf : FreeList base lo h live l) : l.IsChain fun a b => a + h.bytes a < b := by
  rw [List.isChain_iff_forall_rel_of_append_cons_cons]
  rintro a b l₁ l₂ rfl
  have hnext : h.next a = b := by
    have hl := hf.links
    rw [← List.cons_append] at hl
    exact hl.next_eq_of_append
  rcases hf.gap a (by simp) with hb | hlt
  · exact absurd (hnext ▸ hb).symm (ne_of_lt (hf.base_lt_of_mem (by simp)))
  · rwa [hnext] at hlt

/-- From `base` up, the list is in address order. -/
theorem sorted (hf : FreeList base lo h live l) : (base :: l).Pairwise (· < ·) := by
  refine List.pairwise_cons.2 ⟨fun a ha => hf.base_lt_of_mem ha, ?_⟩
  exact List.isChain_iff_pairwise.1 (hf.chain.imp fun a b hab => by omega)

/-- The link of a node of the list is the next node up, or `base` from the
highest. -/
theorem next_cases (hf : FreeList base lo h live l) {x : Nat} (hx : x ∈ base :: l) :
    (h.next x = base ∧ ∀ y ∈ base :: l, y ≤ x) ∨
      (h.next x ∈ base :: l ∧ x < h.next x ∧ ∀ y ∈ base :: l, x < y → h.next x ≤ y) := by
  obtain ⟨A, R, hAR⟩ := List.append_of_mem hx
  have hlinks := hf.links
  have hsorted := hf.sorted
  rw [hAR] at hlinks hsorted ⊢
  rw [List.pairwise_append] at hsorted
  obtain ⟨-, hxR, hAx⟩ := hsorted
  cases R with
  | nil =>
    -- the highest node links back to `base`
    refine .inl ⟨?_, fun y hy => ?_⟩
    · cases A with
      | nil =>
        obtain ⟨rfl, -⟩ := List.cons_eq_cons.1 hAR
        exact hlinks.next_single
      | cons a A =>
        obtain ⟨rfl, -⟩ := List.cons_eq_cons.1 hAR
        exact hlinks.next_last
    · rcases List.mem_append.1 hy with hy | hy
      · exact (hAx y hy x List.mem_cons_self).le
      · rw [List.mem_singleton.1 hy]
  | cons y R =>
    have hnext : h.next x = y := hlinks.next_eq_of_append
    rw [List.pairwise_cons] at hxR
    refine .inr ⟨hnext ▸ by simp, hnext ▸ hxR.1 y List.mem_cons_self, fun z hz hxz => ?_⟩
    rw [hnext]
    rcases List.mem_append.1 hz with hz | hz
    · exact absurd (hAx z hz x List.mem_cons_self) (not_lt.2 hxz.le)
    rcases List.mem_cons.1 hz with rfl | hz
    · exact absurd hxz (lt_irrefl _)
    rcases List.mem_cons.1 hz with rfl | hz
    · exact le_rfl
    · exact (List.pairwise_cons.1 hxR.2).1 z hz |>.le

end FreeList

/-! ## The search of `free` -/

/-- Where the search of `free` stops: `bp` between `p` and the block after
it, or beyond either end at the wrap of the list. -/
def stopAt (h : Heap) (bp p : Nat) : Prop :=
  (bp > p ∧ bp < h.next p) ∨ (p ≥ h.next p ∧ (bp > p ∨ bp < h.next p))

instance (h : Heap) (bp p : Nat) : Decidable (stopAt h bp p) :=
  inferInstanceAs (Decidable (_ ∨ _))

theorem stopAt_def (h : Heap) (bp p : Nat) :
    stopAt h bp p ↔ (bp > p ∧ bp < h.next p) ∨ (p ≥ h.next p ∧ (bp > p ∨ bp < h.next p)) := Iff.rfl

theorem freeScan_succ (h : Heap) (bp k p : Nat) :
    freeScan h bp (k + 1) p = if stopAt h bp p then some p else freeScan h bp k (h.next p) := by
  conv_lhs => rw [freeScan]
  by_cases hs : stopAt h bp p
  · rw [if_pos hs]
    simp only [stopAt_def, Heap.next_def] at hs
    by_cases h₁ : bp > p ∧ bp < (h.hdr p).ptr
    · rw [if_pos h₁]
    · rw [if_neg h₁, if_pos (hs.resolve_left h₁)]
  · rw [if_neg hs]
    simp only [stopAt_def, Heap.next_def, not_or] at hs
    rw [if_neg hs.1, if_neg hs.2]
    rfl

/-- A sorted list whose first node is below `bp`, and which does not hold
`bp`, splits at the last node below `bp`. -/
theorem exists_split_lt {bp a : Nat} {c : List Nat} (hs : (a :: c).Pairwise (· < ·)) (hbp : bp ∉ a :: c)
    (ha : a < bp) :
    ∃ c₁ p c₂, a :: c = c₁ ++ p :: c₂ ∧ (∀ y ∈ c₁, y < p) ∧ p < bp ∧ ∀ y ∈ c₂, bp < y := by
  induction c generalizing a with
  | nil => exact ⟨[], a, [], rfl, by simp, ha, by simp⟩
  | cons b c ih =>
    rw [List.pairwise_cons] at hs
    have hbne : b ≠ bp := fun hb => hbp (hb ▸ List.mem_cons_of_mem _ List.mem_cons_self)
    rcases lt_or_gt_of_ne hbne with hb | hb
    -- `b` is below `bp` too: split the rest
    · obtain ⟨c₁, p, c₂, heq, h₁, hp, h₂⟩ := ih hs.2 (fun h => hbp (List.mem_cons_of_mem _ h)) hb
      refine ⟨a :: c₁, p, c₂, by rw [heq]; rfl, fun y hy => ?_, hp, h₂⟩
      rcases List.mem_cons.1 hy with rfl | hy
      · exact hs.1 p (heq ▸ by simp)
      · exact h₁ y hy
    -- `a` is the last node below `bp`
    · refine ⟨[], a, b :: c, rfl, by simp, ha, fun y hy => ?_⟩
      rcases List.mem_cons.1 hy with rfl | hy
      · exact hb
      · exact hb.trans ((List.pairwise_cons.1 hs.2).1 y hy)

namespace FreeList

variable {base lo : Nat} {h : Heap} {live l : List Nat}

/-- The search stops exactly at the node below `bp` with no node between. -/
theorem stopAt_iff (hf : FreeList base lo h live l) {bp : Nat} (hbase : base < bp) (hbp : bp ∉ base :: l)
    {x : Nat} (hx : x ∈ base :: l) :
    stopAt h bp x ↔ x < bp ∧ ∀ y ∈ base :: l, x < y → bp < y := by
  simp only [stopAt_def]
  rcases hf.next_cases hx with ⟨hnext, hmax⟩ | ⟨hmem, hlt, hsucc⟩
  -- at the highest node only the wrap can stop the search
  · rw [hnext]
    have hbx := hmax base List.mem_cons_self
    constructor
    · rintro (⟨h₁, -⟩ | ⟨-, h₁ | h₁⟩)
      · exact ⟨h₁, fun y hy hxy => absurd (hmax y hy) (not_le.2 hxy)⟩
      · exact ⟨h₁, fun y hy hxy => absurd (hmax y hy) (not_le.2 hxy)⟩
      · omega
    · rintro ⟨h₁, -⟩
      exact .inr ⟨hbx, .inl h₁⟩
  -- below it, only `bp` between the node and the next
  · have hne : bp ≠ h.next x := fun heq => hbp (heq ▸ hmem)
    constructor
    · rintro (⟨h₁, h₂⟩ | ⟨h₁, -⟩)
      · exact ⟨h₁, fun y hy hxy => lt_of_lt_of_le h₂ (hsucc y hy hxy)⟩
      · omega
    · rintro ⟨h₁, h₂⟩
      exact .inl ⟨h₁, h₂ _ hmem hlt⟩

/-- At most one node is below `bp` with no node between. -/
theorem pred_unique {bp x y : Nat} (hx : x ∈ base :: l) (hy : y ∈ base :: l)
    (hxp : x < bp ∧ ∀ z ∈ base :: l, x < z → bp < z) (hyp : y < bp ∧ ∀ z ∈ base :: l, y < z → bp < z) :
    x = y := by
  rcases lt_trichotomy x y with hxy | rfl | hxy
  · exact absurd (hxp.2 y hy hxy) (not_lt.2 hyp.1.le)
  · rfl
  · exact absurd (hyp.2 x hx hxy) (not_lt.2 hxp.1.le)

/-- Where `bp` goes: the node below it with no node between, and the list
split there. -/
theorem exists_split (hf : FreeList base lo h live l) {bp : Nat} (hbase : base < bp) (hbp : bp ∉ base :: l) :
    ∃ c₁ p c₂, base :: l = c₁ ++ p :: c₂ ∧ (∀ y ∈ c₁, y < p) ∧ p < bp ∧ ∀ y ∈ c₂, bp < y :=
  exists_split_lt hf.sorted hbp hbase

/-- The node where the list splits at `bp` is the one below `bp` with no
node between. -/
theorem pred_of_split {bp p : Nat} {c₁ c₂ : List Nat} (hc : base :: l = c₁ ++ p :: c₂)
    (h₁ : ∀ y ∈ c₁, y < p) (hp : p < bp) (h₂ : ∀ y ∈ c₂, bp < y) :
    p < bp ∧ ∀ y ∈ base :: l, p < y → bp < y := by
  refine ⟨hp, fun y hy hpy => ?_⟩
  rw [hc] at hy
  rcases List.mem_append.1 hy with hy | hy
  · exact absurd (h₁ y hy) (not_lt.2 hpy.le)
  rcases List.mem_cons.1 hy with rfl | hy
  · exact absurd hpy (lt_irrefl _)
  · exact h₂ y hy

/-- From `freep`, the search of `free` stops within one round at the node
below `bp`. -/
theorem freeScan_eq (hf : FreeList base lo h live l) {bp p : Nat} (hbase : base < bp)
    (hbp : bp ∉ base :: l) (hp : p ∈ base :: l) (hpred : p < bp ∧ ∀ y ∈ base :: l, p < y → bp < y)
    {fuel : Nat} (hfuel : l.length < fuel) : freeScan h bp fuel h.freep = some p := by
  have hstop : stopAt h bp p := (hf.stopAt_iff hbase hbp hp).2 hpred
  obtain ⟨d, hd, hhit, hmiss⟩ := hf.links.exists_first hf.freep hp hstop
  have hmem := hf.links.iterate_mem hf.freep d
  have hz : h.next^[d] h.freep = p :=
    pred_unique hmem hp ((hf.stopAt_iff hbase hbp hmem).1 hhit) hpred
  rw [← hz]
  exact loop_eq_of_first id (freeScan h bp) (freeScan_succ h bp) hmiss hhit
    (by simp only [List.length_cons] at hd; omega)

/-- A block handed out is on neither the free list nor `base`. -/
theorem not_mem_of_live (hf : FreeList base lo h live l) {bp : Nat} (hb : bp ∈ live) : bp ∉ base :: l := by
  have hblock := hf.block bp (List.mem_append_right _ hb)
  rintro (_ | ⟨_, hbl⟩)
  · exact absurd hblock.lo_le (not_le.2 hf.base_lt)
  · exact List.disjoint_of_nodup_append hf.nodup hbl hb

end FreeList

/-! ## What `free` writes -/

/-- The heap `free` leaves when its search stops at `p`: the headers `X` at
`bp` and `Y` at `p` written, and `freep = p`. -/
def Heap.join (h : Heap) (bp p : Nat) (X Y : Header) : Heap :=
  { h with hdr := Function.update (Function.update h.hdr bp X) p Y, freep := p }

theorem Heap.join_def (h : Heap) (bp p : Nat) (X Y : Header) :
    h.join bp p X Y = { h with hdr := Function.update (Function.update h.hdr bp X) p Y, freep := p } := rfl

section Join

variable {h : Heap} {bp p : Nat} {X Y : Header}

@[simp] theorem Heap.join_sz : (h.join bp p X Y).sz = h.sz := rfl

@[simp] theorem Heap.join_freep : (h.join bp p X Y).freep = p := rfl

theorem Heap.join_hdr_of_ne {a : Nat} (hap : a ≠ p) (habp : a ≠ bp) : (h.join bp p X Y).hdr a = h.hdr a := by
  simp [Heap.join_def, Function.update_of_ne hap, Function.update_of_ne habp]

theorem Heap.join_hdr_p : (h.join bp p X Y).hdr p = Y := by
  simp [Heap.join_def]

theorem Heap.join_hdr_bp (hp : bp ≠ p) : (h.join bp p X Y).hdr bp = X := by
  simp [Heap.join_def, Function.update_of_ne hp]

theorem Heap.join_next_p : (h.join bp p X Y).next p = Y.ptr := by
  simp [Heap.next_def, Heap.join_hdr_p]

theorem Heap.join_next_bp (hp : bp ≠ p) : (h.join bp p X Y).next bp = X.ptr := by
  simp [Heap.next_def, Heap.join_hdr_bp hp]

theorem Heap.join_next_of_ne {a : Nat} (hap : a ≠ p) (habp : a ≠ bp) : (h.join bp p X Y).next a = h.next a := by
  simp [Heap.next_def, Heap.join_hdr_of_ne hap habp]

theorem Heap.join_next : (h.join bp p X Y).next =
    Function.update (Function.update h.next bp X.ptr) p Y.ptr := by
  funext a
  simp only [Heap.next_def, Heap.join_def]
  by_cases hap : a = p
  · subst hap; simp
  · by_cases habp : a = bp
    · subst habp; simp [Function.update_of_ne hap]
    · simp [Heap.next_def, Function.update_of_ne hap, Function.update_of_ne habp]

end Join

/-- Where `free` puts `bp`: after `p`, the last node below it, with the list
split there. -/
structure JoinSite (base : Nat) (l : List Nat) (bp : Nat) (c₁ : List Nat) (p : Nat) (c₂ : List Nat) :
    Prop where
  eq : base :: l = c₁ ++ p :: c₂
  below : ∀ y ∈ c₁, y < p
  lt : p < bp
  above : ∀ y ∈ c₂, bp < y

/-! ## Blocks joined -/

/-- The ends of a set of blocks: every block ends at or before every block
above it. -/
def Apart (B : List Nat) (e : Nat → Nat) : Prop := ∀ a ∈ B, ∀ b ∈ B, a < b → e a ≤ b

/-- Joining the block `y` to the block `x` that ends where it starts keeps
the blocks apart. -/
theorem Apart.merge {B B' : List Nat} {e e' : Nat → Nat} {x y : Nat} (h : Apart B e) (hy : y ∈ B)
    (hxy : e x = y) (hx' : e' x = e y) (he : ∀ a ∈ B', a ≠ x → e' a = e a)
    (hsub : ∀ a ∈ B', a ∈ B ∧ a ≠ y) : Apart B' e' := by
  intro a ha b hb hab
  obtain ⟨haB, -⟩ := hsub a ha
  obtain ⟨hbB, hby⟩ := hsub b hb
  by_cases hax : a = x
  · -- past the end of `x` comes `y`, and past `y` its end
    subst hax
    rw [hx']
    have hyb : y ≤ b := hxy ▸ h a haB b hbB hab
    exact h y hy b hbB (lt_of_le_of_ne hyb (Ne.symm hby))
  · rw [he a ha hax]
    exact h a haB b hbB hab

theorem Heap.Block.congr {h h' : Heap} {lo a : Nat} (hb : h.Block lo a)
    (hsize : (h'.hdr a).size = (h.hdr a).size) (hsz : h.sz ≤ h'.sz) : h'.Block lo a where
  lo_le := hb.lo_le
  pos := hsize ▸ hb.pos
  le_sz := by
    have := hb.le_sz
    simp only [Heap.bytes_def] at *
    rw [hsize]
    omega

namespace JoinSite

variable {base lo : Nat} {h : Heap} {live l : List Nat} {bp p : Nat} {c₁ c₂ : List Nat}

theorem mem (hj : JoinSite base l bp c₁ p c₂) : p ∈ base :: l :=
  hj.eq ▸ List.mem_append_right _ List.mem_cons_self

/-- A list that keeps the nodes up to `p` still starts at `base`. -/
theorem head_eq (hj : JoinSite base l bp c₁ p c₂) (rest : List Nat) :
    c₁ ++ p :: rest = base :: (c₁ ++ p :: rest).tail := by
  have heq := hj.eq
  cases c₁ with
  | nil =>
    obtain ⟨rfl, -⟩ := List.cons_eq_cons.1 heq
    rfl
  | cons a c₁ =>
    obtain ⟨rfl, -⟩ := List.cons_eq_cons.1 heq
    rfl

theorem mem_tail (hj : JoinSite base l bp c₁ p c₂) (rest : List Nat) {x : Nat} (hx : x ∈ c₁ ++ p :: rest)
    (hxb : x ≠ base) : x ∈ (c₁ ++ p :: rest).tail := by
  rw [hj.head_eq rest] at hx
  exact (List.mem_cons.1 hx).resolve_left hxb

/-- The link of `p`: `base` when nothing follows it, else the node after it. -/
theorem next_cases (hj : JoinSite base l bp c₁ p c₂) (hf : FreeList base lo h live l) :
    (c₂ = [] ∧ h.next p = base) ∨ c₂ = h.next p :: c₂.tail := by
  have hl := hf.links
  rw [hj.eq] at hl
  cases c₂ with
  | nil =>
    refine .inl ⟨rfl, ?_⟩
    cases c₁ with
    | nil =>
      obtain ⟨rfl, -⟩ := List.cons_eq_cons.1 hj.eq
      exact hl.next_single
    | cons a c₁ =>
      obtain ⟨rfl, -⟩ := List.cons_eq_cons.1 hj.eq
      exact hl.next_last
  | cons y c₂ =>
    rw [hl.next_eq_of_append]
    exact .inr rfl

/-- `p` is `base` or a free block, which ends at or before `bp`. -/
theorem p_cases (hj : JoinSite base l bp c₁ p c₂) (hf : FreeList base lo h live l) (hb : bp ∈ live) :
    p = base ∨ (p ∈ l ∧ p + h.bytes p ≤ bp) := by
  rcases List.mem_cons.1 hj.mem with hp | hp
  · exact .inl hp
  · exact .inr ⟨hp, hf.apart p (List.mem_append_left _ hp) bp (List.mem_append_right _ hb) hj.lt⟩

/-- A node after `p` is a free block, which starts at or after the end of `bp`. -/
theorem above_block (hj : JoinSite base l bp c₁ p c₂) (hf : FreeList base lo h live l) (hb : bp ∈ live)
    {q : Nat} (hq : q ∈ c₂) : q ∈ l ∧ bp + h.bytes bp ≤ q := by
  have hql : q ∈ l := by
    have hmem : q ∈ base :: l := hj.eq ▸ List.mem_append_right _ (List.mem_cons_of_mem _ hq)
    rcases List.mem_cons.1 hmem with rfl | hmem
    · exact absurd (hj.above _ hq)
        (not_lt.2 (hf.base_lt.trans_le (hf.block bp (List.mem_append_right _ hb)).lo_le).le)
    · exact hmem
  exact ⟨hql, hf.apart bp (List.mem_append_right _ hb) q (List.mem_append_left _ hql) (hj.above q hq)⟩

end JoinSite

namespace FreeList

variable {base lo : Nat} {h : Heap} {live l : List Nat} {bp p : Nat} {c₁ c₂ : List Nat}

/-- `free` when `bp` touches neither neighbour: it is linked in between
them. -/
theorem join_none (hf : FreeList base lo h live l) (hb : bp ∈ live) (hj : JoinSite base l bp c₁ p c₂)
    (hR : bp + h.bytes bp ≠ h.next p) (hL : p + h.bytes p ≠ bp) :
    FreeList base lo (h.join bp p ⟨h.next p, (h.hdr bp).size⟩ ⟨bp, (h.hdr p).size⟩) (live.erase bp)
      (c₁ ++ p :: bp :: c₂).tail := by
  set h' := h.join bp p ⟨h.next p, (h.hdr bp).size⟩ ⟨bp, (h.hdr p).size⟩
  set l' := (c₁ ++ p :: bp :: c₂).tail
  have hpbp : p ≠ bp := hj.lt.ne
  have hbnot := hf.not_mem_of_live hb
  have hcyc : c₁ ++ p :: bp :: c₂ = base :: l' := hj.head_eq _
  have hnd : (c₁ ++ p :: c₂).Nodup := hj.eq ▸ hf.nodup_cycle
  -- `bp` joins the list and leaves `live`
  have hperm : List.Perm l' (bp :: l) := by
    have h₁ : List.Perm (base :: l') (bp :: base :: l) := by
      have h₀ : List.Perm ((c₁ ++ [p]) ++ bp :: c₂) (bp :: ((c₁ ++ [p]) ++ c₂)) := List.perm_middle
      rw [← hcyc, hj.eq]
      simpa only [List.append_assoc, List.singleton_append] using h₀
    exact (List.perm_cons base).1 (h₁.trans (List.Perm.swap _ _ _))
  have hB : List.Perm (l' ++ live.erase bp) (l ++ live) :=
    (hperm.append_right _).trans (List.perm_middle.symm.trans ((List.perm_cons_erase hb).symm.append_left l))
  have hsize : ∀ a, (h'.hdr a).size = (h.hdr a).size := by
    intro a
    by_cases hap : a = p
    · rw [hap, Heap.join_hdr_p]
    · by_cases habp : a = bp
      · rw [habp, Heap.join_hdr_bp hpbp.symm]
      · rw [Heap.join_hdr_of_ne hap habp]
  have hbytes : h'.bytes = h.bytes := funext fun a => by simp only [Heap.bytes_def, hsize]
  refine ⟨hf.base_lt, ?_, ?_, ?_, fun a ha => ?_, fun a ha => ?_, hB.nodup_iff.2 hf.nodup, ?_, hf.lo_le_sz⟩
  · -- links: `bp` stored after `p`
    rw [Heap.join_next, ← hcyc]
    have hl := hf.links
    rw [hj.eq] at hl
    exact hl.insert hnd (hj.eq ▸ hbnot)
  · exact (hsize base).trans hf.base_size
  · rw [Heap.join_freep, ← hcyc]
    exact List.mem_append_right _ List.mem_cons_self
  · -- the gaps on either side of `bp`
    rw [hbytes]
    rcases List.mem_cons.1 (hperm.subset ha) with habp | hal
    · rw [habp, Heap.join_next_bp hpbp.symm]
      rcases hj.next_cases hf with ⟨-, hq⟩ | hc₂
      · exact .inl hq
      · have hq : h.next p ∈ c₂ := by rw [hc₂]; exact List.mem_cons_self
        exact .inr (lt_of_le_of_ne (hj.above_block hf hb hq).2 hR)
    · by_cases hap : a = p
      · rw [hap, Heap.join_next_p]
        rcases hj.p_cases hf hb with hbase | ⟨-, hle⟩
        · exact absurd hbase (ne_of_gt (hf.base_lt_of_mem (hap ▸ hal)))
        · exact .inr (lt_of_le_of_ne hle hL)
      · have habp : a ≠ bp := fun h => hbnot (h ▸ List.mem_cons_of_mem _ hal)
        rw [Heap.join_next_of_ne hap habp]
        exact hf.gap a hal
  · exact (hf.block a (hB.subset ha)).congr (hsize a) le_rfl
  · rw [hbytes]
    exact fun a ha b hb' => hf.apart a (hB.subset ha) b (hB.subset hb')

/-- `free` when `bp` ends where the next free block `q` starts: `bp` takes
over `q`, and is linked in after `p`. -/
theorem join_right {q : Nat} (hf : FreeList base lo h live l) (hb : bp ∈ live)
    (hj : JoinSite base l bp c₁ p (q :: c₂)) (hR : bp + h.bytes bp = q) (hL : p + h.bytes p ≠ bp) :
    FreeList base lo (h.join bp p ⟨h.next q, (h.hdr bp).size + (h.hdr q).size⟩ ⟨bp, (h.hdr p).size⟩)
      (live.erase bp) (c₁ ++ p :: bp :: c₂).tail := by
  set h' := h.join bp p ⟨h.next q, (h.hdr bp).size + (h.hdr q).size⟩ ⟨bp, (h.hdr p).size⟩
  set l' := (c₁ ++ p :: bp :: c₂).tail
  have hpbp : p ≠ bp := hj.lt.ne
  have hbnot := hf.not_mem_of_live hb
  obtain ⟨hql, -⟩ := hj.above_block hf hb List.mem_cons_self
  have hnextp : h.next p = q := by
    rcases hj.next_cases hf with ⟨hnil, -⟩ | hc₂
    · cases hnil
    · exact (List.cons_eq_cons.1 hc₂).1.symm
  have hqbp : q ≠ bp := (hj.above q List.mem_cons_self).ne'
  have hqp : q ≠ p := (hj.lt.trans (hj.above q List.mem_cons_self)).ne'
  have hcyc : c₁ ++ p :: bp :: c₂ = base :: l' := hj.head_eq _
  -- `bp` joins the list in the place of `q`
  have hperm : List.Perm (q :: l') (bp :: l) := by
    have h₀ : ∀ x : Nat, List.Perm (c₁ ++ p :: x :: c₂) (x :: (c₁ ++ p :: c₂)) := fun x => by
      have h₁ : List.Perm ((c₁ ++ [p]) ++ x :: c₂) (x :: ((c₁ ++ [p]) ++ c₂)) := List.perm_middle
      simpa only [List.append_assoc, List.singleton_append] using h₁
    have h₂ : List.Perm (q :: base :: l') (bp :: base :: l) := by
      rw [← hcyc, hj.eq]
      exact ((h₀ bp).cons q).trans ((List.Perm.swap _ _ _).trans ((h₀ q).symm.cons bp))
    exact (List.perm_cons base).1 ((List.Perm.swap _ _ _).trans (h₂.trans (List.Perm.swap _ _ _)))
  have hB : List.Perm (q :: (l' ++ live.erase bp)) (l ++ live) :=
    (hperm.append_right _).trans (List.perm_middle.symm.trans ((List.perm_cons_erase hb).symm.append_left l))
  have hnd' := hB.nodup_iff.2 hf.nodup
  have hsub : ∀ a ∈ l' ++ live.erase bp, a ∈ l ++ live ∧ a ≠ q := fun a ha =>
    ⟨hB.subset (List.mem_cons_of_mem _ ha), fun haq => (List.nodup_cons.1 hnd').1 (haq ▸ ha)⟩
  have hbytes : ∀ a, a ≠ bp → h'.bytes a = h.bytes a := by
    intro a habp
    by_cases hap : a = p
    · simp only [Heap.bytes_def]
      rw [hap, Heap.join_hdr_p]
    · simp only [Heap.bytes_def]
      rw [Heap.join_hdr_of_ne hap habp]
  have hbytes_bp : h'.bytes bp = h.bytes bp + h.bytes q := by
    simp only [Heap.bytes_def]
    rw [Heap.join_hdr_bp hpbp.symm, Nat.add_mul]
  refine ⟨hf.base_lt, ?_, ?_, ?_, fun a ha => ?_, fun a ha => ?_, (List.nodup_cons.1 hnd').2, ?_, hf.lo_le_sz⟩
  · -- links: `bp` stored after `p`, then `q` unlinked after `bp`
    have hc : (c₁ ++ p :: q :: c₂).Nodup := by rw [← hj.eq]; exact hf.nodup_cycle
    have hbn : bp ∉ c₁ ++ p :: q :: c₂ := by rw [← hj.eq]; exact hbnot
    have hnd : ((c₁ ++ [p]) ++ bp :: q :: c₂).Nodup := by
      have h₁ : List.Perm ((c₁ ++ [p]) ++ bp :: q :: c₂) (bp :: ((c₁ ++ [p]) ++ q :: c₂)) := List.perm_middle
      simp only [List.append_assoc, List.singleton_append] at h₁ ⊢
      exact h₁.nodup_iff.2 (List.nodup_cons.2 ⟨hbn, hc⟩)
    have hl := hf.links
    rw [hj.eq] at hl
    have hins := hl.insert hc hbn
    rw [hnextp, List.append_cons c₁ p] at hins
    have hera := hins.erase hnd
    rw [← List.append_cons, Function.update_of_ne hqp, Function.update_of_ne hqbp,
      Function.update_comm hpbp, Function.update_idem] at hera
    rw [Heap.join_next, ← hcyc]
    exact hera
  · by_cases hbase : base = p
    · rw [hbase, Heap.join_hdr_p, ← hbase, hf.base_size]
    · rw [Heap.join_hdr_of_ne hbase (fun h => hbnot (h ▸ List.mem_cons_self)), hf.base_size]
  · rw [Heap.join_freep, ← hcyc]
    exact List.mem_append_right _ List.mem_cons_self
  · -- the gaps: `bp` now ends where `q` did
    have hal := hperm.subset (List.mem_cons_of_mem q ha)
    rcases List.mem_cons.1 hal with habp | hal
    · rw [habp, Heap.join_next_bp hpbp.symm, hbytes_bp]
      dsimp only
      rcases hf.gap q hql with hq | hq
      · exact .inl hq
      · exact .inr (by omega)
    · by_cases hap : a = p
      · rw [hap, Heap.join_next_p, hbytes p hpbp]
        rcases hj.p_cases hf hb with hbase | ⟨-, hle⟩
        · exact absurd hbase (ne_of_gt (hf.base_lt_of_mem (hap ▸ hal)))
        · exact .inr (lt_of_le_of_ne hle hL)
      · have habp : a ≠ bp := fun h => hbnot (h ▸ List.mem_cons_of_mem _ hal)
        rw [Heap.join_next_of_ne hap habp, hbytes a habp]
        exact hf.gap a hal
  · by_cases habp : a = bp
    · subst habp
      have hblock := hf.block a (List.mem_append_right _ hb)
      have hqblock := hf.block q (List.mem_append_left _ hql)
      refine ⟨hblock.lo_le, ?_, ?_⟩
      · rw [Heap.join_hdr_bp hpbp.symm]
        exact Nat.add_pos_left hblock.pos _
      · rw [hbytes_bp, Heap.join_sz]
        have := hqblock.le_sz
        omega
    · refine (hf.block a (hsub a ha).1).congr ?_ le_rfl
      by_cases hap : a = p
      · rw [hap, Heap.join_hdr_p]
      · rw [Heap.join_hdr_of_ne hap habp]
  · exact Apart.merge hf.apart (List.mem_append_left _ hql) hR (by rw [hbytes_bp, ← hR]; omega)
      (fun a _ habp => by rw [hbytes a habp]) hsub

/-- `free` when `p` ends where `bp` starts: `p` takes over `bp`. -/
theorem join_left (hf : FreeList base lo h live l) (hb : bp ∈ live) (hj : JoinSite base l bp c₁ p c₂)
    (hR : bp + h.bytes bp ≠ h.next p) (hL : p + h.bytes p = bp) :
    FreeList base lo (h.join bp p ⟨h.next p, (h.hdr bp).size⟩ ⟨h.next p, (h.hdr p).size + (h.hdr bp).size⟩)
      (live.erase bp) l := by
  set h' := h.join bp p ⟨h.next p, (h.hdr bp).size⟩ ⟨h.next p, (h.hdr p).size + (h.hdr bp).size⟩
  have hpbp : p ≠ bp := hj.lt.ne
  have hbnot := hf.not_mem_of_live hb
  have hpl : p ∈ l := by
    rcases hj.p_cases hf hb with hbase | ⟨hpl, -⟩
    · have hzero : h.bytes p = 0 := by simp only [Heap.bytes_def, hbase, hf.base_size, Nat.zero_mul]
      have := hj.lt
      omega
    · exact hpl
  have hpbase : p ≠ base := (hf.base_lt_of_mem hpl).ne'
  have hlive : (live.erase bp).Nodup := (List.nodup_append.1 hf.nodup).2.1.erase bp
  have hsub : ∀ a ∈ l ++ live.erase bp, a ∈ l ++ live ∧ a ≠ bp := by
    intro a ha
    refine ⟨List.mem_append.2 ((List.mem_append.1 ha).imp id (List.erase_subset ·)), fun habp => ?_⟩
    rcases List.mem_append.1 ha with ha | ha
    · exact hbnot (habp ▸ List.mem_cons_of_mem _ ha)
    · exact ((List.nodup_append.1 hf.nodup).2.1.mem_erase_iff.1 (habp ▸ ha)).1 rfl
  have hbytes : ∀ a, a ≠ p → a ≠ bp → h'.bytes a = h.bytes a := fun a hap habp => by
    simp only [Heap.bytes_def]
    rw [Heap.join_hdr_of_ne hap habp]
  have hbytes_p : h'.bytes p = h.bytes p + h.bytes bp := by
    simp only [Heap.bytes_def]
    rw [Heap.join_hdr_p, Nat.add_mul]
  refine ⟨hf.base_lt, ?_, ?_, ?_, fun a ha => ?_, fun a ha => ?_, ?_, ?_, hf.lo_le_sz⟩
  · -- links: `p` keeps its link
    refine hf.links.congr fun a ha => ?_
    by_cases hap : a = p
    · rw [hap, Heap.join_next_p]
    · exact Heap.join_next_of_ne hap (fun h => hbnot (h ▸ ha))
  · rw [Heap.join_hdr_of_ne hpbase.symm (fun h => hbnot (h ▸ List.mem_cons_self)), hf.base_size]
  · exact Heap.join_freep ▸ List.mem_cons_of_mem _ hpl
  · -- the gap after `p` is the one after `bp`
    by_cases hap : a = p
    · rw [hap, Heap.join_next_p, hbytes_p]
      dsimp only
      rcases hj.next_cases hf with ⟨-, hq⟩ | hc₂
      · exact .inl hq
      · have hq : h.next p ∈ c₂ := by rw [hc₂]; exact List.mem_cons_self
        have := (hj.above_block hf hb hq).2
        exact .inr (by omega)
    · have habp : a ≠ bp := fun h => hbnot (h ▸ List.mem_cons_of_mem _ ha)
      rw [Heap.join_next_of_ne hap habp, hbytes a hap habp]
      exact hf.gap a ha
  · by_cases hap : a = p
    · subst hap
      have hblock := hf.block a (List.mem_append_left _ hpl)
      have hbblock := hf.block bp (List.mem_append_right _ hb)
      refine ⟨hblock.lo_le, ?_, ?_⟩
      · rw [Heap.join_hdr_p]
        exact Nat.add_pos_left hblock.pos _
      · rw [hbytes_p, Heap.join_sz]
        have := hbblock.le_sz
        omega
    · obtain ⟨haB, habp⟩ := hsub a ha
      refine (hf.block a haB).congr ?_ le_rfl
      rw [Heap.join_hdr_of_ne hap habp]
  · exact (List.nodup_append.1 hf.nodup).1.append hlive
      (fun a ha hb' => List.disjoint_of_nodup_append hf.nodup ha (List.erase_subset hb'))
  · exact Apart.merge hf.apart (List.mem_append_right _ hb) hL (by rw [hbytes_p]; omega)
      (fun a ha hap => by rw [hbytes a hap (hsub a ha).2]) hsub

/-- `free` when `bp` fills the gap between `p` and the next free block `q`:
`p` takes over `bp` and `q`. -/
theorem join_both {q : Nat} (hf : FreeList base lo h live l) (hb : bp ∈ live)
    (hj : JoinSite base l bp c₁ p (q :: c₂)) (hR : bp + h.bytes bp = q) (hL : p + h.bytes p = bp) :
    FreeList base lo (h.join bp p ⟨h.next q, (h.hdr bp).size + (h.hdr q).size⟩
      ⟨h.next q, (h.hdr p).size + ((h.hdr bp).size + (h.hdr q).size)⟩) (live.erase bp) (c₁ ++ p :: c₂).tail := by
  set h' := h.join bp p ⟨h.next q, (h.hdr bp).size + (h.hdr q).size⟩
    ⟨h.next q, (h.hdr p).size + ((h.hdr bp).size + (h.hdr q).size)⟩
  set l' := (c₁ ++ p :: c₂).tail
  have hpbp : p ≠ bp := hj.lt.ne
  have hbnot := hf.not_mem_of_live hb
  obtain ⟨hql, -⟩ := hj.above_block hf hb List.mem_cons_self
  have hnextp : h.next p = q := by
    rcases hj.next_cases hf with ⟨hnil, -⟩ | hc₂
    · cases hnil
    · exact (List.cons_eq_cons.1 hc₂).1.symm
  have hqbp : q ≠ bp := (hj.above q List.mem_cons_self).ne'
  have hqp : q ≠ p := (hj.lt.trans (hj.above q List.mem_cons_self)).ne'
  have hpl : p ∈ l := by
    rcases hj.p_cases hf hb with hbase | ⟨hpl, -⟩
    · have hzero : h.bytes p = 0 := by simp only [Heap.bytes_def, hbase, hf.base_size, Nat.zero_mul]
      have := hj.lt
      omega
    · exact hpl
  have hpbase : p ≠ base := (hf.base_lt_of_mem hpl).ne'
  have hcyc : c₁ ++ p :: c₂ = base :: l' := hj.head_eq _
  -- `q` leaves the list and `bp` leaves `live`
  have hperm : List.Perm l (q :: l') := by
    have h₁ : List.Perm ((c₁ ++ [p]) ++ q :: c₂) (q :: ((c₁ ++ [p]) ++ c₂)) := List.perm_middle
    simp only [List.append_assoc, List.singleton_append] at h₁
    rw [← hj.eq, hcyc] at h₁
    exact (List.perm_cons base).1 (h₁.trans (List.Perm.swap _ _ _))
  have hB : List.Perm (q :: bp :: (l' ++ live.erase bp)) (l ++ live) := by
    refine ((List.perm_middle.symm.cons q).trans ?_)
    rw [← List.cons_append]
    exact (hperm.symm.append_right _).trans ((List.perm_cons_erase hb).symm.append_left l)
  have hnd' := hB.nodup_iff.2 hf.nodup
  have hsub₁ : ∀ a ∈ bp :: (l' ++ live.erase bp), a ∈ l ++ live ∧ a ≠ q := fun a ha =>
    ⟨hB.subset (List.mem_cons_of_mem _ ha), fun haq => (List.nodup_cons.1 hnd').1 (haq ▸ ha)⟩
  have hsub : ∀ a ∈ l' ++ live.erase bp, a ∈ bp :: (l' ++ live.erase bp) ∧ a ≠ bp := fun a ha =>
    ⟨List.mem_cons_of_mem _ ha,
      fun habp => (List.nodup_cons.1 (List.nodup_cons.1 hnd').2).1 (habp ▸ ha)⟩
  have hbytes : ∀ a, a ≠ p → a ≠ bp → h'.bytes a = h.bytes a := fun a hap habp => by
    simp only [Heap.bytes_def]
    rw [Heap.join_hdr_of_ne hap habp]
  have hbytes_p : h'.bytes p = h.bytes p + h.bytes bp + h.bytes q := by
    simp only [Heap.bytes_def]
    rw [Heap.join_hdr_p, Nat.add_mul, Nat.add_mul, Nat.add_assoc]
  refine ⟨hf.base_lt, ?_, ?_, ?_, fun a ha => ?_, fun a ha => ?_, (List.nodup_cons.1 (List.nodup_cons.1 hnd').2).2,
    ?_, hf.lo_le_sz⟩
  · -- links: `q` unlinked after `p`; `bp` is on no list
    have hl := hf.links
    rw [hj.eq] at hl
    have hera := hl.erase (by rw [← hj.eq]; exact hf.nodup_cycle)
    rw [Heap.join_next, ← hcyc]
    refine hera.congr fun a ha => ?_
    have hmem : a ∈ base :: l := by
      rw [hj.eq]
      rcases List.mem_append.1 ha with ha | ha
      · exact List.mem_append_left _ ha
      · rcases List.mem_cons.1 ha with rfl | ha
        · exact List.mem_append_right _ List.mem_cons_self
        · exact List.mem_append_right _ (List.mem_cons_of_mem _ (List.mem_cons_of_mem _ ha))
    have habp : a ≠ bp := fun hab => hbnot (hab ▸ hmem)
    by_cases hap : a = p
    · rw [hap, Function.update_self, Function.update_self]
    · rw [Function.update_of_ne hap, Function.update_of_ne hap, Function.update_of_ne habp]
  · rw [Heap.join_hdr_of_ne hpbase.symm (fun h => hbnot (h ▸ List.mem_cons_self)), hf.base_size]
  · rw [Heap.join_freep, ← hcyc]
    exact List.mem_append_right _ List.mem_cons_self
  · -- the gap after `p` is the one after `q`
    have hal : a ∈ l := hperm.symm.subset (List.mem_cons_of_mem q ha)
    by_cases hap : a = p
    · rw [hap, Heap.join_next_p, hbytes_p]
      dsimp only
      rcases hf.gap q hql with hq | hq
      · exact .inl hq
      · exact .inr (by omega)
    · have habp : a ≠ bp := fun h => hbnot (h ▸ List.mem_cons_of_mem _ hal)
      rw [Heap.join_next_of_ne hap habp, hbytes a hap habp]
      exact hf.gap a hal
  · by_cases hap : a = p
    · subst hap
      have hblock := hf.block a (List.mem_append_left _ hpl)
      have hqblock := hf.block q (List.mem_append_left _ hql)
      refine ⟨hblock.lo_le, ?_, ?_⟩
      · rw [Heap.join_hdr_p]
        exact Nat.add_pos_left hblock.pos _
      · rw [hbytes_p, Heap.join_sz]
        have := hqblock.le_sz
        omega
    · obtain ⟨ha₁, habp⟩ := hsub a ha
      refine (hf.block a (hsub₁ a ha₁).1).congr ?_ le_rfl
      rw [Heap.join_hdr_of_ne hap habp]
  · -- `bp` takes over `q`, then `p` takes over `bp`
    have h₁ : Apart (bp :: (l' ++ live.erase bp)) (Function.update (fun a => a + h.bytes a) bp (q + h.bytes q)) :=
      Apart.merge hf.apart (List.mem_append_left _ hql) hR (Function.update_self _ _ _)
        (fun a _ habp => Function.update_of_ne habp _ _) hsub₁
    refine Apart.merge (x := p) h₁ List.mem_cons_self ?_ ?_ (fun a ha hap => ?_) hsub
    · rw [Function.update_of_ne hpbp]
      exact hL
    · rw [Function.update_self, hbytes_p]
      omega
    · rw [Function.update_of_ne (hsub a ha).2, hbytes a hap (hsub a ha).2]

/-- `free` of a block handed out, from any heap with a free list and a
search with enough fuel: the block goes back on the list, at `freep` or the
node after it, joined to what it touches. -/
theorem free_ok (hf : FreeList base lo h live l) (hb : bp ∈ live) (hsz : h.sz < 2 ^ 32 * hdrSize)
    {fuel : Nat} (hfuel : l.length < fuel) :
    ∃ h' l', free fuel h (bp + hdrSize) = some h' ∧ FreeList base lo h' (live.erase bp) l' ∧
      h'.sz = h.sz ∧ l'.length ≤ l.length + 1 ∧
      ∃ t ∈ l', (t = h'.freep ∨ t = h'.next h'.freep) ∧ (h.hdr bp).size ≤ (h'.hdr t).size := by
  have hbblock := hf.block bp (List.mem_append_right _ hb)
  have hbase : base < bp := hf.base_lt.trans_le hbblock.lo_le
  have hbnot := hf.not_mem_of_live hb
  obtain ⟨c₁, p, c₂, hc, hbelow, hlt, habove⟩ := hf.exists_split hbase hbnot
  have hj : JoinSite base l bp c₁ p c₂ := ⟨hc, hbelow, hlt, habove⟩
  have hscan := hf.freeScan_eq hbase hbnot hj.mem (pred_of_split hc hbelow hlt habove) hfuel
  have hpbp : p ≠ bp := hlt.ne
  have hlen : (c₁ ++ p :: c₂).length = l.length + 1 := by rw [← hc]; rfl
  have hbl' : ∀ rest, bp ∈ (c₁ ++ p :: bp :: rest).tail := fun rest =>
    hj.mem_tail _ (List.mem_append_right _ (List.mem_cons_of_mem _ List.mem_cons_self)) hbase.ne'
  -- whether `p` is a free block that ends at `bp`
  have hpl_of : p + h.bytes p = bp → p ∈ l := fun hL => by
    rcases hj.p_cases hf hb with hbase' | ⟨hpl, -⟩
    · have hzero : h.bytes p = 0 := by simp only [Heap.bytes_def, hbase', hf.base_size, Nat.zero_mul]
      omega
    · exact hpl
  rw [free, Nat.add_sub_cancel, hscan, Option.map_some]
  dsimp only
  by_cases hR : bp + (h.hdr bp).size * hdrSize = (h.hdr p).ptr
  · -- `bp` ends where the free block `q` after `p` starts
    have hR' : bp + h.bytes bp = h.next p := hR
    have hc₂ : c₂ = h.next p :: c₂.tail := by
      rcases hj.next_cases hf with ⟨-, hq⟩ | hc₂
      · exact absurd (hR'.trans hq) (by omega)
      · exact hc₂
    have hj' : JoinSite base l bp c₁ p (h.next p :: c₂.tail) := hc₂ ▸ hj
    obtain ⟨hql, -⟩ := hj'.above_block hf hb List.mem_cons_self
    have hqblock := hf.block _ (List.mem_append_left _ hql)
    have hsum : (h.hdr bp).size + (h.hdr (h.hdr p).ptr).size < 2 ^ 32 := by
      have h₁ := hbblock.le_sz
      have h₂ := hqblock.le_sz
      simp only [Heap.bytes_def, Heap.next_def, hdrSize] at *
      omega
    rw [if_pos hR]
    simp only [Function.update_of_ne hpbp, Function.update_self]
    rw [Nat.mod_eq_of_lt hsum]
    have hlen' : (c₁ ++ p :: c₂.tail).length = l.length := by
      rw [hc₂] at hlen
      simp only [List.length_append, List.length_cons] at hlen ⊢
      omega
    by_cases hL : p + (h.hdr p).size * hdrSize = bp
    · -- and `p` ends where `bp` starts: `p` takes over both
      have hpl := hpl_of hL
      have hpblock := hf.block p (List.mem_append_left _ hpl)
      have hsum' : (h.hdr p).size + ((h.hdr bp).size + (h.hdr (h.hdr p).ptr).size) < 2 ^ 32 := by
        have h₁ := hqblock.le_sz
        simp only [Heap.bytes_def, Heap.next_def, hdrSize] at *
        omega
      rw [if_pos hL, Nat.mod_eq_of_lt hsum']
      refine ⟨_, _, rfl, hf.join_both hb hj' hR' hL, rfl, ?_, p,
        hj'.mem_tail _ (List.mem_append_right _ List.mem_cons_self) (hf.base_lt_of_mem hpl).ne', .inl rfl, ?_⟩
      · rw [List.length_tail, hlen']
        omega
      · simp only [Function.update_self]
        omega
    · -- `bp` takes over `q` and follows `p`
      rw [if_neg hL]
      refine ⟨_, _, rfl, hf.join_right hb hj' hR' hL, rfl, ?_, bp, hbl' _,
        .inr (by simp [Heap.next_def]), ?_⟩
      · rw [List.length_tail, List.length_append, List.length_cons, List.length_cons]
        rw [List.length_append, List.length_cons] at hlen'
        omega
      · simp only [Function.update_of_ne hpbp.symm, Function.update_self]
        omega
  · rw [if_neg hR]
    simp only [Function.update_of_ne hpbp, Function.update_self]
    by_cases hL : p + (h.hdr p).size * hdrSize = bp
    · -- `p` takes over `bp`
      have hpl := hpl_of hL
      have hsum : (h.hdr p).size + (h.hdr bp).size < 2 ^ 32 := by
        have h₁ := hbblock.le_sz
        simp only [Heap.bytes_def, hdrSize] at *
        omega
      rw [if_pos hL, Nat.mod_eq_of_lt hsum]
      refine ⟨_, _, rfl, hf.join_left hb hj hR hL, rfl, by omega, p, hpl, .inl rfl, ?_⟩
      simp only [Function.update_self]
      omega
    · -- `bp` is linked in between `p` and the block after it
      rw [if_neg hL]
      refine ⟨_, _, rfl, hf.join_none hb hj hR hL, rfl, ?_, bp, hbl' _,
        .inr (by simp [Heap.next_def]), ?_⟩
      · rw [List.length_tail, List.length_append, List.length_cons, List.length_cons]
        rw [List.length_append, List.length_cons] at hlen
        omega
      · simp only [Function.update_of_ne hpbp.symm, Function.update_self]
        exact le_rfl

/-! ### `malloc` hands out a block -/

/-- `malloc` when the block after `prevp` has exactly the size asked for: it
is unlinked whole. -/
theorem take_whole (hf : FreeList base lo h live l) {prevp n : Nat} (hprev : prevp ∈ base :: l)
    (hsize : (h.hdr (h.next prevp)).size = n) (hn : 0 < n) :
    ∃ l', FreeList base lo
      { h with hdr := Function.update h.hdr prevp ⟨h.next (h.next prevp), (h.hdr prevp).size⟩, freep := prevp }
      (h.next prevp :: live) l' ∧ l'.length ≤ l.length := by
  set p := h.next prevp
  set h' : Heap := { h with hdr := Function.update h.hdr prevp ⟨h.next p, (h.hdr prevp).size⟩, freep := prevp }
  -- `p` follows `prevp` on the list, and is a free block
  obtain ⟨A, R, hAR⟩ := List.append_of_mem hprev
  have hl := hf.links
  rw [hAR] at hl
  obtain ⟨R', hR'⟩ : ∃ R', R = p :: R' := by
    cases R with
    | nil =>
      have hpbase : p = base := by
        cases A with
        | nil =>
          obtain ⟨rfl, -⟩ := List.cons_eq_cons.1 hAR
          exact hl.next_single
        | cons a A =>
          obtain ⟨rfl, -⟩ := List.cons_eq_cons.1 hAR
          exact hl.next_last
      rw [hpbase, hf.base_size] at hsize
      omega
    | cons y R' => exact ⟨R', by rw [show p = y from hl.next_eq_of_append]⟩
  subst hR'
  have hnd : (A ++ prevp :: p :: R').Nodup := hAR ▸ hf.nodup_cycle
  have hhead : A ++ prevp :: R' = base :: (A ++ prevp :: R').tail := by
    cases A with
    | nil => obtain ⟨rfl, -⟩ := List.cons_eq_cons.1 hAR; rfl
    | cons a A => obtain ⟨rfl, -⟩ := List.cons_eq_cons.1 hAR; rfl
  set l' := (A ++ prevp :: R').tail
  have hperm : List.Perm l (p :: l') := by
    have h₁ : List.Perm ((A ++ [prevp]) ++ p :: R') (p :: ((A ++ [prevp]) ++ R')) := List.perm_middle
    simp only [List.append_assoc, List.singleton_append] at h₁
    rw [← hAR, hhead] at h₁
    exact (List.perm_cons base).1 (h₁.trans (List.Perm.swap _ _ _))
  have hB : List.Perm (l' ++ p :: live) (l ++ live) :=
    List.perm_middle.trans (hperm.symm.append_right live)
  have hsz : ∀ a, (h'.hdr a).size = (h.hdr a).size := fun a => by
    by_cases ha : a = prevp
    · rw [ha]; simp [h']
    · simp [h', Function.update_of_ne ha]
  have hbytes : h'.bytes = h.bytes := funext fun a => by simp only [Heap.bytes_def, hsz]
  have hpl : p ∈ l := hperm.symm.subset List.mem_cons_self
  refine ⟨l', ⟨hf.base_lt, ?_, (hsz base).trans hf.base_size, ?_, fun a ha => ?_, fun a ha => ?_,
    hB.nodup_iff.2 hf.nodup, ?_, hf.lo_le_sz⟩, ?_⟩
  · -- links: `p` unlinked after `prevp`
    have hnext : h'.next = Function.update h.next prevp (h.next p) := by
      funext a
      by_cases ha : a = prevp
      · rw [ha]; simp [h', Heap.next_def]
      · simp [h', Heap.next_def, Function.update_of_ne ha]
    rw [hnext, ← hhead]
    exact hl.erase hnd
  · show prevp ∈ base :: l'
    rw [← hhead]
    exact List.mem_append_right _ List.mem_cons_self
  · -- the gap after `prevp` is now the one after `p`
    have hal : a ∈ l := hperm.symm.subset (List.mem_cons_of_mem _ ha)
    rw [hbytes]
    by_cases ha' : a = prevp
    · have hnext : h'.next a = h.next p := by rw [ha']; simp [h', Heap.next_def]
      rw [hnext]
      rcases hf.gap a hal with hb | hlt
      · rw [ha'] at hb
        exact absurd hb (hf.base_lt_of_mem hpl).ne'
      rcases hf.gap p hpl with hq | hq
      · exact .inl hq
      · have hpb : p ≤ p + h.bytes p := Nat.le_add_right _ _
        rw [ha'] at hlt ⊢
        exact .inr (by omega)
    · have hnext : h'.next a = h.next a := by simp [h', Heap.next_def, Function.update_of_ne ha']
      rw [hnext]
      exact hf.gap a hal
  · exact (hf.block a (hB.subset ha)).congr (hsz a) le_rfl
  · rw [hbytes]
    exact fun a ha b hb' => hf.apart a (hB.subset ha) b (hB.subset hb')
  · have := hperm.length_eq
    simp only [List.length_cons] at this
    omega

end FreeList

/-- Cutting the block `x` at `x'`: the tail from `x'` becomes a block of its
own, and the blocks stay apart. -/
theorem Apart.split {B : List Nat} {e e' : Nat → Nat} {x x' : Nat} (h : Apart B e) (hx : x ∈ B)
    (hxx : x < x') (hx'e : x' < e x) (hex : e' x = x') (hex' : e' x' = e x)
    (he : ∀ a ∈ B, a ≠ x → e' a = e a) : Apart (x' :: B) e' := by
  -- no block of `B` starts strictly inside the block `x`
  have hout : ∀ a ∈ B, a ≠ x → a < x' → e a ≤ x := fun a ha hax hax' => by
    rcases lt_or_gt_of_ne hax with hlt | hgt
    · exact h a ha x hx hlt
    · have := h x hx a ha hgt
      omega
  intro a ha b hb hab
  rcases List.mem_cons.1 ha with ha' | ha'
  · -- the new block ends where `x` did
    rw [ha'] at hab ⊢
    rcases List.mem_cons.1 hb with hb' | hb'
    · rw [hb'] at hab
      exact absurd hab (lt_irrefl _)
    · rw [hex']
      exact h x hx b hb' (by omega)
  · rcases List.mem_cons.1 hb with hb' | hb'
    · rw [hb'] at hab ⊢
      by_cases hax : a = x
      · rw [hax, hex]
      · rw [he a ha' hax]
        have := hout a ha' hax hab
        omega
    · by_cases hax : a = x
      · rw [hax, hex]
        have := h x hx b hb' (hax ▸ hab)
        omega
      · rw [he a ha' hax]
        exact h a ha' b hb' hab

namespace FreeList

variable {base lo : Nat} {h : Heap} {live l : List Nat}

/-- `malloc` when the block after `prevp` is bigger than asked for: its tail
is handed out. -/
theorem take_tail (hf : FreeList base lo h live l) {prevp n : Nat} (hprev : prevp ∈ base :: l)
    (hsize : n < (h.hdr (h.next prevp)).size) (hn : 0 < n) :
    FreeList base lo
      { h with
        hdr := Function.update
          (Function.update h.hdr (h.next prevp) ⟨h.next (h.next prevp), (h.hdr (h.next prevp)).size - n⟩)
          (h.next prevp + ((h.hdr (h.next prevp)).size - n) * hdrSize)
          ⟨h.next (h.next prevp + ((h.hdr (h.next prevp)).size - n) * hdrSize), n⟩,
        freep := prevp }
      ((h.next prevp + ((h.hdr (h.next prevp)).size - n) * hdrSize) :: live) l := by
  have hpc : h.next prevp ∈ base :: l := hf.links.iterate_mem hprev 1
  generalize hp : h.next prevp = p at hsize hpc ⊢
  generalize hs : (h.hdr p).size = s at hsize ⊢
  generalize hp'def : p + (s - n) * hdrSize = p'
  set h' : Heap := { h with
    hdr := Function.update (Function.update h.hdr p ⟨h.next p, s - n⟩) p' ⟨h.next p', n⟩, freep := prevp }
  have hpl : p ∈ l := by
    rcases List.mem_cons.1 hpc with hpb | hpl
    · rw [hpb, hf.base_size] at hs
      omega
    · exact hpl
  have hpblock := hf.block p (List.mem_append_left _ hpl)
  have hpend : p + h.bytes p = p' + n * hdrSize := by
    simp only [Heap.bytes_def, hs, ← hp'def, hdrSize]
    have hsn : s - n + n = s := Nat.sub_add_cancel hsize.le
    omega
  have hpp' : p < p' := by
    rw [← hp'def]
    have : 0 < s - n := Nat.sub_pos_of_lt hsize
    simp only [hdrSize]
    omega
  have hp'end : p' < p + h.bytes p := by simp only [hdrSize] at hpend; omega
  -- `p'` lies inside the block `p`, so it starts no block and is not `base`
  have hp'B : ∀ a ∈ l ++ live, a ≠ p' := by
    intro a ha hap'
    rcases lt_trichotomy a p with hlt | rfl | hgt
    · have := hf.apart a ha p (List.mem_append_left _ hpl) hlt
      have := (hf.block a ha).lt_end
      simp only [hdrSize] at this
      omega
    · omega
    · have := hf.apart p (List.mem_append_left _ hpl) a ha hgt
      omega
  have hp'base : p' ≠ base := by have := hf.base_lt_of_mem hpl; omega
  have hp'p : p' ≠ p := hpp'.ne'
  have hsz_of_ne : ∀ a, a ≠ p → a ≠ p' → h'.hdr a = h.hdr a := fun a hap hap' => by
    simp [h', Function.update_of_ne hap, Function.update_of_ne hap']
  have hhdr_p : h'.hdr p = ⟨h.next p, s - n⟩ := by simp [h', Function.update_of_ne hp'p.symm]
  have hhdr_p' : h'.hdr p' = ⟨h.next p', n⟩ := by simp [h']
  have hnext : ∀ a, a ≠ p' → h'.next a = h.next a := fun a hap' => by
    by_cases hap : a = p
    · rw [hap]; simp only [Heap.next_def, hhdr_p]
    · simp only [Heap.next_def, hsz_of_ne a hap hap']
  have hbytes_p : h'.bytes p + n * hdrSize = h.bytes p := by
    simp only [Heap.bytes_def, hhdr_p, hs]
    rw [← Nat.add_mul, Nat.sub_add_cancel hsize.le]
  have hbytes_p' : h'.bytes p' = n * hdrSize := by simp only [Heap.bytes_def, hhdr_p']
  refine ⟨hf.base_lt, hf.links.congr fun a ha => hnext a ?_, ?_, hprev, fun a ha => ?_, fun a ha => ?_, ?_, ?_,
    hf.lo_le_sz⟩
  · rcases List.mem_cons.1 ha with rfl | ha
    · exact hp'base.symm
    · exact hp'B a (List.mem_append_left _ ha)
  · rw [hsz_of_ne base (hf.base_lt_of_mem hpl).ne hp'base.symm, hf.base_size]
  · -- only `p` changed on the list, and it got shorter
    rw [hnext a (hp'B a (List.mem_append_left _ ha))]
    by_cases hap : a = p
    · rw [hap]
      rcases hf.gap p hpl with hq | hq
      · exact .inl hq
      · exact .inr (by omega)
    · simp only [Heap.bytes_def, hsz_of_ne a hap (hp'B a (List.mem_append_left _ ha))]
      exact hf.gap a ha
  · -- the two halves are blocks
    have hmem : a = p' ∨ a ∈ l ++ live := by
      rcases List.mem_append.1 ha with ha | ha
      · exact .inr (List.mem_append_left _ ha)
      · rcases List.mem_cons.1 ha with rfl | ha
        · exact .inl rfl
        · exact .inr (List.mem_append_right _ ha)
    rcases hmem with rfl | ha
    · have := hpblock.le_sz
      exact ⟨hpblock.lo_le.trans hpp'.le, by rw [hhdr_p']; exact hn, by
        show a + h'.bytes a ≤ h.sz
        omega⟩
    · by_cases hap : a = p
      · rw [hap]
        have := hpblock.le_sz
        refine ⟨hpblock.lo_le, by rw [hhdr_p]; exact Nat.sub_pos_of_lt hsize, ?_⟩
        show p + h'.bytes p ≤ h.sz
        omega
      · exact (hf.block a ha).congr (by rw [hsz_of_ne a hap (hp'B a ha)]) le_rfl
  · -- `p'` is new
    have hnd := hf.nodup
    rw [List.nodup_append] at hnd ⊢
    exact ⟨hnd.1, List.nodup_cons.2 ⟨fun h => hp'B p' (List.mem_append_right _ h) rfl, hnd.2.1⟩,
      fun a ha b hb => by
        rcases List.mem_cons.1 hb with rfl | hb
        · exact hp'B a (List.mem_append_left _ ha)
        · exact hnd.2.2 a ha b hb⟩
  · -- cutting `p` at `p'` keeps the blocks apart
    have hsplit : Apart (p' :: (l ++ live)) (fun a => a + h'.bytes a) :=
      Apart.split hf.apart (List.mem_append_left _ hpl) hpp' hp'end (by omega) (by omega)
        (fun a ha hap => by simp only [Heap.bytes_def, hsz_of_ne a hap (hp'B a ha)])
    intro a ha b hb hab
    have hmem : ∀ x ∈ l ++ p' :: live, x ∈ p' :: (l ++ live) := fun x hx => by
      rcases List.mem_append.1 hx with hx | hx
      · exact List.mem_cons_of_mem _ (List.mem_append_left _ hx)
      · rcases List.mem_cons.1 hx with rfl | hx
        · exact List.mem_cons_self
        · exact List.mem_cons_of_mem _ (List.mem_append_right _ hx)
    exact hsplit a (hmem a ha) b (hmem b hb) hab

/-! ### `morecore` -/

/-- The block `sbrk` adds past the break, handed out until `morecore` frees
it, keeps the list. -/
theorem grow (hf : FreeList base lo h live l) {nu : Nat} (hnu : 0 < nu) (x : Nat) :
    FreeList base lo { h with sz := h.sz + nu * hdrSize, hdr := Function.update h.hdr h.sz ⟨x, nu⟩ }
      (h.sz :: live) l := by
  set h' : Heap := { h with sz := h.sz + nu * hdrSize, hdr := Function.update h.hdr h.sz ⟨x, nu⟩ }
  -- every block, and `base`, lies below the old break
  have hlt : ∀ a ∈ l ++ live, a < h.sz := fun a ha => by
    have h₁ := (hf.block a ha).lt_end
    have h₂ := (hf.block a ha).le_sz
    simp only [hdrSize] at h₁
    omega
  have hbase : base < h.sz := hf.base_lt.trans_le hf.lo_le_sz
  have hhdr : ∀ a, a ≠ h.sz → h'.hdr a = h.hdr a := fun a ha => by simp [h', Function.update_of_ne ha]
  have hnext : ∀ a ∈ base :: l, h'.next a = h.next a := fun a ha => by
    have hne : a ≠ h.sz := by
      rcases List.mem_cons.1 ha with rfl | ha
      · exact hbase.ne
      · exact (hlt a (List.mem_append_left _ ha)).ne
    simp only [Heap.next_def, hhdr a hne]
  have hbytes : ∀ a ∈ l ++ live, h'.bytes a = h.bytes a := fun a ha => by
    simp only [Heap.bytes_def, hhdr a (hlt a ha).ne]
  have hmem : ∀ a ∈ l ++ h.sz :: live, a = h.sz ∨ a ∈ l ++ live := fun a ha => by
    rcases List.mem_append.1 ha with ha | ha
    · exact .inr (List.mem_append_left _ ha)
    · rcases List.mem_cons.1 ha with rfl | ha
      · exact .inl rfl
      · exact .inr (List.mem_append_right _ ha)
  refine ⟨hf.base_lt, hf.links.congr hnext, by rw [hhdr base hbase.ne, hf.base_size], hf.freep,
    fun a ha => ?_, fun a ha => ?_, ?_, fun a ha b hb hab => ?_, hf.lo_le_sz.trans (Nat.le_add_right _ _)⟩
  · rw [hnext a (List.mem_cons_of_mem _ ha), hbytes a (List.mem_append_left _ ha)]
    exact hf.gap a ha
  · rcases hmem a ha with rfl | ha
    · refine ⟨hf.lo_le_sz, by simp [h', hnu], ?_⟩
      simp [h', Heap.bytes_def]
    · exact (hf.block a ha).congr (by rw [hhdr a (hlt a ha).ne]) (Nat.le_add_right _ _)
  · exact List.perm_middle.nodup_iff.2
      (List.nodup_cons.2 ⟨fun hm => (hlt _ hm).ne rfl, hf.nodup⟩)
  · rcases hmem a ha with rfl | ha
    · rcases hmem b hb with rfl | hb
      · exact absurd hab (lt_irrefl _)
      · exact absurd hab (not_lt.2 (hlt b hb).le)
    · rw [hbytes a ha]
      rcases hmem b hb with rfl | hb
      · exact (hf.block a ha).le_sz
      · exact hf.apart a ha b hb hab

end FreeList

/-- An `int` argument that fits is passed unchanged. -/
theorem toInt32_of_lt {v : Nat} (hv : v < 2 ^ 31) : toInt32 v = v := by
  unfold toInt32
  split_ifs <;> omega

/-- `sbrk(n)` for a positive `n`: the break moves by `n` bytes while the
process stays within `limit`. -/
theorem sbrk_pos {limit : Nat} (h : Heap) {v : Nat} (hv : 0 < v) :
    sbrk limit h v = if h.sz + v ≤ limit then some (h.sz, { h with sz := h.sz + v }) else none := by
  unfold sbrk growproc
  rw [if_pos (by exact_mod_cast hv), Int.toNat_natCast]
  split_ifs <;> rfl

namespace FreeList

variable {base lo : Nat} {h : Heap} {live l : List Nat}

/-- With `base` above the null pointer, so is `freep`. -/
theorem freep_pos (hf : FreeList base lo h live l) (hbase0 : 0 < base) : 0 < h.freep := by
  rcases List.mem_cons.1 hf.freep with hb | hl
  · rw [hb]
    exact hbase0
  · exact hbase0.trans (hf.base_lt_of_mem hl)

/-- `morecore(nu)`: either `sbrk` fails and nothing changes, or the new block
is freed onto the list, where it lies at `freep` or the node after it. -/
theorem morecore_ok (hf : FreeList base lo h live l) (hbase0 : 0 < base) {limit fuel nu : Nat} (hnu : 0 < nu)
    (hnu' : (if nu < 4096 then 4096 else nu) * hdrSize < 2 ^ 31)
    (hlimit : limit < 2 ^ 32 * hdrSize) (hfuel : l.length < fuel) :
    morecore limit fuel h nu = some (0, h) ∨
      ∃ h' l', morecore limit fuel h nu = some (h'.freep, h') ∧ FreeList base lo h' live l' ∧ h'.sz ≤ limit ∧
        l'.length ≤ l.length + 1 ∧ 0 < h'.freep ∧
        ∃ t ∈ l', (t = h'.freep ∨ t = h'.next h'.freep) ∧ nu ≤ (h'.hdr t).size := by
  have hnu₀ : 0 < (if nu < 4096 then 4096 else nu) := by split_ifs <;> omega
  have hle : nu ≤ (if nu < 4096 then 4096 else nu) := by split_ifs <;> omega
  unfold morecore
  dsimp only
  rw [toInt32_of_lt hnu', sbrk_pos h (by simp only [hdrSize]; omega)]
  by_cases hroom : h.sz + (if nu < 4096 then 4096 else nu) * hdrSize ≤ limit
  · -- the new block is freed onto the list
    rw [if_pos hroom]
    dsimp only
    have hg := hf.grow hnu₀ (h.hdr h.sz).ptr
    obtain ⟨h', l', hfree, hf', hsz', hlen', t, ht, hpos, hsize⟩ :=
      hg.free_ok List.mem_cons_self (by simp only; omega) hfuel
    rw [List.erase_cons_head] at hf'
    exact .inr ⟨h', l', by rw [hfree]; rfl, hf', by rw [hsz']; exact hroom, hlen', hf'.freep_pos hbase0, t, ht,
      hpos, le_trans hle (by simpa using hsize)⟩
  · rw [if_neg hroom]
    exact .inl rfl

end FreeList

/-! ## The loop of `malloc` -/

section Loop

variable {limit fuel n k : Nat} {h : Heap} {prevp p : Nat}

/-- A block of the size asked for is unlinked whole. -/
theorem mallocLoop_whole (hfit : (h.hdr p).size = n) :
    mallocLoop limit fuel n (k + 1) h prevp p =
      some (p + hdrSize,
        { h with
          hdr := Function.update h.hdr prevp ⟨h.next p, (h.hdr prevp).size⟩
          freep := prevp }) := by
  rw [mallocLoop, if_pos hfit.ge, if_pos hfit]
  rfl

/-- A bigger block gives up its tail. -/
theorem mallocLoop_tail (hfit : n < (h.hdr p).size) :
    mallocLoop limit fuel n (k + 1) h prevp p =
      some (p + ((h.hdr p).size - n) * hdrSize + hdrSize,
        { h with
          hdr := Function.update (Function.update h.hdr p ⟨h.next p, (h.hdr p).size - n⟩)
            (p + ((h.hdr p).size - n) * hdrSize) ⟨h.next (p + ((h.hdr p).size - n) * hdrSize), n⟩
          freep := prevp }) := by
  have hne : p + ((h.hdr p).size - n) * hdrSize ≠ p := by simp only [hdrSize]; omega
  rw [mallocLoop, if_pos hfit.le, if_neg hfit.ne']
  simp only [Function.update_self, Function.update_of_ne hne]
  rfl

/-- A block too small, short of `freep`: the walk goes on. -/
theorem mallocLoop_miss (hsmall : (h.hdr p).size < n) (hne : p ≠ h.freep) :
    mallocLoop limit fuel n (k + 1) h prevp p = mallocLoop limit fuel n k h p (h.next p) := by
  rw [mallocLoop, if_neg (not_le.2 hsmall), if_neg hne]
  rfl

/-- Back at `freep` with no block big enough: `morecore`, and the walk goes
on from what it returns. -/
theorem mallocLoop_more (hsmall : (h.hdr p).size < n) (hfreep : p = h.freep) :
    mallocLoop limit fuel n (k + 1) h prevp p =
      match morecore limit fuel h n with
      | none => none
      | some (0, h') => some (0, h')
      | some (p', h') => mallocLoop limit fuel n k h' p' (h'.next p') := by
  rw [mallocLoop, if_neg (not_le.2 hsmall), if_pos hfreep]
  rfl

/-- The walk passes blocks too small and short of `freep`, one step each. -/
theorem mallocLoop_skip {d : Nat}
    (hmiss : ∀ t < d, (h.hdr (h.next^[t + 1] prevp)).size < n ∧ h.next^[t + 1] prevp ≠ h.freep) :
    mallocLoop limit fuel n (k + d) h prevp (h.next prevp) =
      mallocLoop limit fuel n k h (h.next^[d] prevp) (h.next^[d + 1] prevp) := by
  induction d generalizing prevp with
  | zero => rfl
  | succ d ih =>
    obtain ⟨hsmall, hne⟩ : (h.hdr (h.next prevp)).size < n ∧ h.next prevp ≠ h.freep :=
      hmiss 0 (Nat.succ_pos d)
    rw [← Nat.add_assoc, mallocLoop_miss hsmall hne, ih fun t ht => ?_]
    · simp only [← Function.iterate_succ_apply]
    · simpa only [Function.iterate_succ_apply] using hmiss (t + 1) (by omega)

end Loop



namespace FreeList

variable {base lo : Nat} {h : Heap} {live l : List Nat}

/-- At a block big enough after `prevp`, `malloc` hands out `n` units. -/
theorem carve (hf : FreeList base lo h live l) {prevp n : Nat} (hprev : prevp ∈ base :: l)
    (hfit : n ≤ (h.hdr (h.next prevp)).size) (hn : 0 < n) (limit fuel k : Nat) :
    ∃ r h' l', mallocLoop limit fuel n (k + 1) h prevp (h.next prevp) = some (r, h') ∧ 0 < r ∧
      FreeList base lo h' ((r - hdrSize) :: live) l' ∧ (h'.hdr (r - hdrSize)).size = n ∧ h'.sz = h.sz := by
  rcases hfit.eq_or_lt with heq | hlt
  · -- the whole block
    have hpc : h.next prevp ∈ base :: l := hf.links.iterate_mem hprev 1
    have hpne : h.next prevp ≠ prevp := by
      intro heq'
      have hbase : h.next prevp = base := by
        rcases hf.next_cases hprev with ⟨hb, -⟩ | ⟨-, hlt', -⟩
        · exact hb
        · exact absurd heq' hlt'.ne'
      rw [hbase, hf.base_size] at heq
      omega
    obtain ⟨l', hf', -⟩ := hf.take_whole hprev heq.symm hn
    refine ⟨_, _, l', mallocLoop_whole heq.symm, by simp only [hdrSize]; omega, ?_, ?_, rfl⟩
    · rwa [Nat.add_sub_cancel]
    · rw [Nat.add_sub_cancel]
      simp [Function.update_of_ne hpne, heq]
  · -- its tail
    refine ⟨_, _, l, mallocLoop_tail hlt, by simp only [hdrSize]; omega, ?_, ?_, rfl⟩
    · rw [Nat.add_sub_cancel]
      exact hf.take_tail hprev hlt hn
    · rw [Nat.add_sub_cancel]
      simp

/-- A walk that passes blocks too small, short of `freep`, reaches a block big
enough and hands out `n` units there. -/
theorem walk_fit (hf : FreeList base lo h live l) {prevp n d : Nat} (hprev : prevp ∈ base :: l) (hn : 0 < n)
    (hmiss : ∀ t < d, (h.hdr (h.next^[t + 1] prevp)).size < n ∧ h.next^[t + 1] prevp ≠ h.freep)
    (hfit : n ≤ (h.hdr (h.next^[d + 1] prevp)).size) (limit fuel k : Nat) :
    ∃ r h' l', mallocLoop limit fuel n (k + 1 + d) h prevp (h.next prevp) = some (r, h') ∧ 0 < r ∧
      FreeList base lo h' ((r - hdrSize) :: live) l' ∧ (h'.hdr (r - hdrSize)).size = n ∧ h'.sz = h.sz := by
  rw [mallocLoop_skip hmiss]
  rw [Function.iterate_succ_apply'] at hfit ⊢
  exact hf.carve (hf.links.iterate_mem hprev d) hfit hn limit fuel k

end FreeList

/-- The walk after `morecore` goes on from the `freep` it returned, which is
never null. -/
theorem morecore_match {limit fuel n k : Nat} {h' : Heap} (hp : 0 < h'.freep) :
    (match some (h'.freep, h') with
      | none => none
      | some (0, h'') => some (0, h'')
      | some (p', h'') => mallocLoop limit fuel n k h'' p' (h''.next p')) =
      mallocLoop limit fuel n k h' h'.freep (h'.next h'.freep) := by
  obtain ⟨q, hq⟩ : ∃ q, h'.freep = q + 1 := ⟨h'.freep - 1, by omega⟩
  rw [hq]
  rfl

namespace FreeList

variable {base lo : Nat} {h : Heap} {live l : List Nat}

/-- The loop of `malloc` from `freep`, with fuel for two rounds of the list:
it hands out `n` units, at most once calling `morecore`, or returns 0 with the
heap unchanged when `sbrk` fails. -/
theorem mallocLoop_ok (hf : FreeList base lo h live l) (hbase0 : 0 < base) {limit fuel n k : Nat} (hn : 0 < n)
    (hnu : (if n < 4096 then 4096 else n) * hdrSize < 2 ^ 31) (hlim : h.sz ≤ limit)
    (hlimit : limit < 2 ^ 32 * hdrSize) (hfuel : l.length < fuel) (hk : 2 * l.length + 3 ≤ k) :
    ∃ r h', mallocLoop limit fuel n k h h.freep (h.next h.freep) = some (r, h') ∧ h'.sz ≤ limit ∧
      ((r = 0 ∧ h' = h) ∨
        (0 < r ∧ (h'.hdr (r - hdrSize)).size = n ∧ ∃ l', FreeList base lo h' ((r - hdrSize) :: live) l')) := by
  -- the first round stops at a block big enough, or back at `freep`
  have hround : h.next^[l.length + 1] h.freep = h.freep := hf.links.iterate_length hf.freep
  obtain ⟨d, hd, hstop, hmiss⟩ := exists_first_le
    (fun t => n ≤ (h.hdr (h.next^[t + 1] h.freep)).size ∨ h.next^[t + 1] h.freep = h.freep)
    l.length (.inr hround)
  have hmiss' : ∀ t < d, (h.hdr (h.next^[t + 1] h.freep)).size < n ∧ h.next^[t + 1] h.freep ≠ h.freep :=
    fun t ht => by
      have := hmiss t ht
      simp only [not_or, not_le] at this
      exact this
  by_cases hfit : n ≤ (h.hdr (h.next^[d + 1] h.freep)).size
  · obtain ⟨r, h', l', hrun, hr, hf', hsize, hsz⟩ := hf.walk_fit hf.freep hn hmiss' hfit limit fuel (k - d - 1)
    rw [show k - d - 1 + 1 + d = k by omega] at hrun
    exact ⟨r, h', hrun, hsz ▸ hlim, .inr ⟨hr, hsize, l', hf'⟩⟩
  -- back at `freep`: `morecore`
  have hback : h.next^[d + 1] h.freep = h.freep := hstop.resolve_left hfit
  have hrun : mallocLoop limit fuel n (k - d + d) h h.freep (h.next h.freep) = _ := mallocLoop_skip hmiss'
  rw [show k - d + d = k by omega] at hrun
  rw [hrun, show k - d = (k - d - 1) + 1 by omega, mallocLoop_more (not_le.1 hfit) hback]
  rcases hf.morecore_ok hbase0 hn hnu hlimit hfuel with hfail | ⟨h₃, l₃, hmore, hf₃, hsz₃, hlen₃, hpos, t, ht, htp, hnt⟩
  · rw [hfail]
    exact ⟨0, h, rfl, hlim, .inl ⟨rfl, rfl⟩⟩
  rw [hmore, morecore_match hpos]
  -- the second round reaches the new block, or the block it joined, with no `freep` between
  have hfreep₃ := hf₃.freep
  obtain ⟨d₀, hd₀, hreach⟩ : ∃ d₀ ≤ l₃.length, h₃.next^[d₀ + 1] h₃.freep = t := by
    rcases htp with rfl | rfl
    · exact ⟨l₃.length, le_rfl, hf₃.links.iterate_length hfreep₃⟩
    · exact ⟨0, Nat.zero_le _, rfl⟩
  obtain ⟨d', hd', hfit', hmiss₃⟩ := exists_first_le
    (fun t => n ≤ (h₃.hdr (h₃.next^[t + 1] h₃.freep)).size) d₀ (by rw [hreach]; exact hnt)
  have hmiss₃' : ∀ t < d', (h₃.hdr (h₃.next^[t + 1] h₃.freep)).size < n ∧ h₃.next^[t + 1] h₃.freep ≠ h₃.freep :=
    fun t ht => ⟨not_le.1 (hmiss₃ t ht),
      hf₃.links.iterate_ne_self hf₃.nodup_cycle hfreep₃ (Nat.succ_pos t) (by simp only [List.length_cons]; omega)⟩
  obtain ⟨r, h', l', hrun', hr, hf', hsize, hsz⟩ :=
    hf₃.walk_fit hfreep₃ hn hmiss₃' hfit' limit fuel (k - d - 1 - 1 - d')
  rw [show k - d - 1 - 1 - d' + 1 + d' = k - d - 1 by omega] at hrun'
  exact ⟨r, h', hrun', hsz ▸ hsz₃, .inr ⟨hr, hsize, l', hf'⟩⟩

end FreeList

/-! ## A program that calls `malloc` and `free` -/

/-- Numbers at least `w` apart, from `lo` on and each `w` below `hi`: at
most `(hi - lo) / w` of them. -/
theorem length_mul_le {w hi : Nat} {c : List Nat} (hp : c.Pairwise fun a b => a + w ≤ b) (lo : Nat)
    (hb : ∀ a ∈ c, lo ≤ a ∧ a + w ≤ hi) : c.length * w ≤ hi - lo := by
  induction c generalizing lo with
  | nil => simp
  | cons a c ih =>
    rw [List.pairwise_cons] at hp
    -- the rest lies past the end of the first
    have hc : c.length * w ≤ hi - (a + w) :=
      ih hp.2 (a + w) fun b hb' => ⟨hp.1 b hb', (hb b (List.mem_cons_of_mem _ hb')).2⟩
    have ha := hb a List.mem_cons_self
    rw [List.length_cons, Nat.succ_mul]
    omega

/-- Fuel for the loops of `malloc` and `free` on a heap: more than twice
round the longest free list that fits below the break. -/
def fuelFor (h : Heap) : Nat := h.sz + 3

namespace FreeList

variable {base lo : Nat} {h : Heap} {live l : List Nat}

/-- The free blocks, each of a header unit at least and apart, fit between
`lo` and the break. -/
theorem length_le (hf : FreeList base lo h live l) : l.length * hdrSize ≤ h.sz - lo := by
  refine length_mul_le ((List.pairwise_cons.1 hf.sorted).2.imp_of_mem fun {a b} ha hb hab => ?_) lo
    fun a ha => ?_
  · have hend := (hf.block a (List.mem_append_left _ ha)).lt_end
    have happ := hf.apart a (List.mem_append_left _ ha) b (List.mem_append_left _ hb) hab
    omega
  · have hblock := hf.block a (List.mem_append_left _ ha)
    exact ⟨hblock.lo_le, hblock.lt_end.trans hblock.le_sz⟩

theorem two_rounds_le_fuelFor (hf : FreeList base lo h live l) : 2 * l.length + 3 ≤ fuelFor h := by
  have := hf.length_le
  unfold fuelFor
  unfold hdrSize at this
  omega

/-- The heap the first `malloc` sets up: `base` of size 0 linked to itself,
and nothing free. -/
theorem init (hbase : base < lo) (hlo : lo ≤ h.sz) :
    FreeList base lo { h with hdr := Function.update h.hdr base ⟨base, 0⟩, freep := base } [] [] := by
  refine ⟨hbase, ?_, by simp, List.mem_singleton_self _, by simp, by simp, List.nodup_nil, by simp, hlo⟩
  simp [Links, Heap.next_def]

/-- `free(ap)` of a pointer `malloc` returned and not freed since, with the
fuel of `fuelFor`: the block goes back on the list. -/
theorem free_call (hf : FreeList base lo h live l) {ap : Nat} (hap : ap - hdrSize ∈ live)
    (hsz : h.sz < 2 ^ 32 * hdrSize) :
    ∃ h', free (fuelFor h) h ap = some h' ∧ h'.sz = h.sz ∧
      ∃ l', FreeList base lo h' (live.erase (ap - hdrSize)) l' := by
  have hap' : ap - hdrSize + hdrSize = ap := by
    have := hf.base_lt
    have := (hf.block _ (List.mem_append_right _ hap)).lo_le
    unfold hdrSize at *
    omega
  have hfuel : l.length < fuelFor h := by
    have := hf.two_rounds_le_fuelFor
    omega
  obtain ⟨h', l', hfree, hf', hsz', -⟩ := hf.free_ok hap hsz hfuel
  rw [hap'] at hfree
  exact ⟨h', hfree, hsz', l', hf'⟩

end FreeList

/-- `malloc(nbytes)` with `nbytes` below 2^31 - 32, on a heap never used or
with a free list, with the fuel of `fuelFor`: it returns null with a free list
still there, or a block of `nunits` units handed out. -/
theorem malloc_ok {base lo limit : Nat} {h : Heap} {live : List Nat} (hbase0 : 0 < base) (hbase : base < lo)
    (hst : (h.freep = 0 ∧ live = [] ∧ lo ≤ h.sz) ∨ ∃ l, FreeList base lo h live l)
    (hlim : h.sz ≤ limit) (hlimit : limit < 2 ^ 32 * hdrSize) {nbytes : Nat} (hn : nbytes < 2 ^ 31 - 32) :
    ∃ r h', malloc base limit (fuelFor h) h nbytes = some (r, h') ∧ h'.sz ≤ limit ∧
      ((r = 0 ∧ ∃ l', FreeList base lo h' live l') ∨
        (0 < r ∧ (h'.hdr (r - hdrSize)).size = nunitsOf nbytes ∧
          ∃ l', FreeList base lo h' ((r - hdrSize) :: live) l')) := by
  have hn₀ : 0 < nunitsOf nbytes := by
    unfold nunitsOf hdrSize
    omega
  have hnu : (if nunitsOf nbytes < 4096 then 4096 else nunitsOf nbytes) * hdrSize < 2 ^ 31 := by
    unfold nunitsOf hdrSize
    split_ifs <;> omega
  -- the loop starts from a heap with a free list: the one set up, or `h`
  obtain ⟨h₀, l, hrun, hf, hsz₀⟩ : ∃ h₀ l, malloc base limit (fuelFor h) h nbytes =
      mallocLoop limit (fuelFor h) (nunitsOf nbytes) (fuelFor h) h₀ h₀.freep (h₀.next h₀.freep) ∧
      FreeList base lo h₀ live l ∧ h₀.sz = h.sz := by
    rcases hst with ⟨hfree, rfl, hlo⟩ | ⟨l, hf⟩
    · exact ⟨_, [], by rw [malloc, if_pos hfree]; rfl, FreeList.init hbase hlo, rfl⟩
    · exact ⟨h, l, by rw [malloc, if_neg (hf.freep_pos hbase0).ne']; rfl, hf, rfl⟩
  have hk : 2 * l.length + 3 ≤ fuelFor h := by
    have := hf.two_rounds_le_fuelFor
    unfold fuelFor at this ⊢
    rwa [hsz₀] at this
  have hfuel : l.length < fuelFor h := by omega
  obtain ⟨r, h', hloop, hsz', hres⟩ := hf.mallocLoop_ok hbase0 hn₀ hnu (hsz₀ ▸ hlim) hlimit hfuel hk
  refine ⟨r, h', hrun.trans hloop, hsz', ?_⟩
  rcases hres with ⟨rfl, rfl⟩ | hok
  · exact .inl ⟨rfl, l, hf⟩
  · exact .inr hok

/-- The program's heap, with the headers of the blocks `malloc` returned and
`free` has not taken back. -/
structure Alloc where
  heap : Heap
  live : List Nat

/-- A call the program makes. -/
inductive Call where
  | malloc (nbytes : Nat)
  | free (ap : Nat)

/-- One call: `malloc` of fewer than 2^31 - 32 bytes, or `free` of a pointer
`malloc` returned and not freed since.  Another call, or one that runs out of
fuel, does not complete. -/
def allocStep (base limit : Nat) (s : Alloc) : Call → Result Alloc
  | .malloc nbytes =>
    if nbytes < 2 ^ 31 - 32 then
      match malloc base limit (fuelFor s.heap) s.heap nbytes with
      | some (r, h) => .ok ⟨h, if r = 0 then s.live else (r - hdrSize) :: s.live⟩
      | none => .wait
    else .wait
  | .free ap =>
    if ap - hdrSize ∈ s.live then
      match free (fuelFor s.heap) s.heap ap with
      | some h => .ok ⟨h, s.live.erase (ap - hdrSize)⟩
      | none => .wait
    else .wait

/-- The program from the heap `h0`, with `base` below its break and `sbrk`
allowed up to `limit`. -/
def umallocSystem (base limit : Nat) (h0 : Heap) : System Alloc Call := ⟨⟨h0, []⟩, allocStep base limit⟩

/-- What every state of the program keeps: the break within `limit`, and
either no `malloc` yet, or a free list from `base` over the heap from `lo`. -/
structure AllocInv (base lo limit : Nat) (s : Alloc) : Prop where
  le_limit : s.heap.sz ≤ limit
  list : (s.heap.freep = 0 ∧ s.live = [] ∧ lo ≤ s.heap.sz) ∨ ∃ l, FreeList base lo s.heap s.live l

section Program

variable {base lo limit : Nat}

theorem allocStep_inv (hbase0 : 0 < base) (hbase : base < lo) (hlimit : limit < 2 ^ 32 * hdrSize)
    {s s' : Alloc} {c : Call} (hi : AllocInv base lo limit s) (hs : allocStep base limit s c = .ok s') :
    AllocInv base lo limit s' := by
  cases c with
  | malloc nbytes =>
    by_cases hn : nbytes < 2 ^ 31 - 32
    · obtain ⟨r, h', hm, hsz', hres⟩ := malloc_ok hbase0 hbase hi.list hi.le_limit hlimit hn
      rw [allocStep, if_pos hn, hm] at hs
      cases hs
      refine ⟨hsz', .inr ?_⟩
      rcases hres with ⟨rfl, l', hf'⟩ | ⟨hr, -, l', hf'⟩
      · exact ⟨l', hf'⟩
      · rw [if_neg hr.ne']
        exact ⟨l', hf'⟩
    · rw [allocStep, if_neg hn] at hs
      cases hs
  | free ap =>
    by_cases hap : ap - hdrSize ∈ s.live
    · rcases hi.list with ⟨-, hnil, -⟩ | ⟨l, hf⟩
      · -- nothing to free before the first `malloc`
        rw [hnil] at hap
        cases hap
      · obtain ⟨h', hfree, hsz', l', hf'⟩ := hf.free_call hap (by have := hi.le_limit; omega)
        rw [allocStep, if_pos hap, hfree] at hs
        cases hs
        exact ⟨hsz' ▸ hi.le_limit, .inr ⟨l', hf'⟩⟩
    · rw [allocStep, if_neg hap] at hs
      cases hs

theorem allocInv_of_reachable {h0 : Heap} (hbase0 : 0 < base) (hbase : base < h0.sz) (hfree0 : h0.freep = 0)
    (hlim0 : h0.sz ≤ limit) (hlimit : limit < 2 ^ 32 * hdrSize) {s : Alloc}
    (hr : Reachable (umallocSystem base limit h0) s) : AllocInv base h0.sz limit s :=
  Reachable.rec_inv (AllocInv base h0.sz limit) ⟨hlim0, .inl ⟨hfree0, rfl, le_rfl⟩⟩
    (fun _ _ _ hi hs => allocStep_inv hbase0 hbase hlimit hi hs) hr

end Program

/-- The free list of user/umalloc.c over every sequence of `malloc(n)` with
`n` below 2^31 - 32 and `free(p)` of a pointer `malloc` returned and not
freed since, from a heap whose `freep` is null, with `base` below the break
and memory up to `limit`, no more than the machine has: in every reachable
state the list through `freep` is circular through `base`, visits the free
blocks in address order and wraps from the highest back to `base`; the free
blocks and those handed out lie in the heap without overlapping, and no free
block ends where the next one starts.  Each `malloc` returns, and a non-null
result heads a block of `(n + sizeof(Header) - 1)/sizeof(Header) + 1` units
at least, apart from every other block; each `free` returns. -/
theorem umalloc_free_list_invariant {base limit : Nat} {h0 : Heap} (hbase0 : 0 < base) (hbase : base < h0.sz)
    (hfree0 : h0.freep = 0) (hlim0 : h0.sz ≤ limit) (hphys : limit ≤ Vm.phystop - Vm.kernBase)
    {s : Alloc} (hr : Reachable (umallocSystem base limit h0) s) :
    s.heap.sz ≤ limit ∧
    ((s.heap.freep = 0 ∧ s.live = []) ∨
      ∃ l, FreeList base h0.sz s.heap s.live l ∧ l.IsChain fun a b => a + s.heap.bytes a < b) ∧
    (∀ nbytes < 2 ^ 31 - 32, ∃ r h', malloc base limit (fuelFor s.heap) s.heap nbytes = some (r, h') ∧
      (0 < r → (nbytes + hdrSize - 1) / hdrSize + 1 ≤ (h'.hdr (r - hdrSize)).size ∧
        ∃ l', FreeList base h0.sz h' ((r - hdrSize) :: s.live) l')) ∧
    (∀ ap, ap - hdrSize ∈ s.live → ∃ h', free (fuelFor s.heap) s.heap ap = some h') := by
  -- 128 MiB of memory keeps every size below 2^32 units
  have hlimit : limit < 2 ^ 32 * hdrSize := by
    unfold Vm.phystop Vm.kernBase at hphys
    unfold hdrSize
    omega
  have hi := allocInv_of_reachable hbase0 hbase hfree0 hlim0 hlimit hr
  refine ⟨hi.le_limit, ?_, fun nbytes hn => ?_, fun ap hap => ?_⟩
  · rcases hi.list with ⟨hfree, hnil, -⟩ | ⟨l, hf⟩
    · exact .inl ⟨hfree, hnil⟩
    · exact .inr ⟨l, hf, hf.chain⟩
  · obtain ⟨r, h', hm, -, hres⟩ := malloc_ok hbase0 hbase hi.list hi.le_limit hlimit hn
    refine ⟨r, h', hm, fun hr0 => ?_⟩
    rcases hres with ⟨rfl, -⟩ | ⟨-, hsize, l', hf'⟩
    · exact absurd hr0 (lt_irrefl 0)
    · refine ⟨?_, l', hf'⟩
      rw [hsize]
      unfold nunitsOf hdrSize
      omega
  · rcases hi.list with ⟨-, hnil, -⟩ | ⟨l, hf⟩
    · rw [hnil] at hap
      cases hap
    · obtain ⟨h', hfree, -⟩ := hf.free_call hap (by have := hi.le_limit; omega)
      exact ⟨h', hfree⟩

/-- At the start, from a heap never used with `base` at 0x1000 and room to
grow to 0x8000. -/
theorem umalloc_free_list_invariant_freshHeap :
    freshHeap.sz ≤ 0x8000 ∧
    ((freshHeap.freep = 0 ∧ ([] : List Nat) = []) ∨
      ∃ l, FreeList 0x1000 freshHeap.sz freshHeap [] l ∧ l.IsChain fun a b => a + freshHeap.bytes a < b) ∧
    (∀ nbytes < 2 ^ 31 - 32, ∃ r h', malloc 0x1000 0x8000 (fuelFor freshHeap) freshHeap nbytes = some (r, h') ∧
      (0 < r → (nbytes + hdrSize - 1) / hdrSize + 1 ≤ (h'.hdr (r - hdrSize)).size ∧
        ∃ l', FreeList 0x1000 freshHeap.sz h' [r - hdrSize] l')) ∧
    (∀ ap, ap - hdrSize ∈ ([] : List Nat) → ∃ h', free (fuelFor freshHeap) freshHeap ap = some h') :=
  @umalloc_free_list_invariant 0x1000 0x8000 freshHeap (by decide) (by decide) rfl (by decide) (by decide)
    ⟨freshHeap, []⟩ Reachable.init

end Xv6.User
