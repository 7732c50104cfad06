import Xv6.Fs.Grow

/-
  Xv6/Fs/Held.lean --- system calls on inodes that stay in the inode table.

  An inode that an open file or a current directory refers to keeps its entry
  of `itable`, read in and referenced (`Held`).  On such an entry `iget` finds
  the entry, `ilock` reads nothing, and an `iput` that gives back a reference
  taken in the same call frees nothing.  A path of one element names an entry
  of the current directory: `namei` looks it up there (`namei_elem`), and
  `nameiparent` returns the directory itself (`nameiparent_elem`).

  `sys_link` of a name of the current directory to a new name in it then goes
  through the C code step by step: it raises the link count of the inode as a
  `short`, appends the new entry to the directory, and gives back every
  reference it took (`sysLink_elem`).  `sys_unlink` of a name whose inode has a
  link count below 1 panics (`sysUnlink_elem_panics`).
-/

set_option autoImplicit false

namespace Xv6.Fs

open Machine

variable {π : Type}

/-! ## Held entries -/

/-- Entry `i` of the inode table has a reference on inode `n` of the root
device and has read it in, and no other referenced entry holds that inode. -/
@[mk_iff]
structure Held (s : FsState π) (i : Fin nInode) (n : Nat) : Prop where
  ref_pos : 0 < (s.itable i).ref
  valid : (s.itable i).valid = true
  dev : (s.itable i).dev = rootDev
  inum : (s.itable i).inum = n
  only : ∀ j, 0 < (s.itable j).ref → (s.itable j).dev = rootDev → (s.itable j).inum = n → j = i

instance (s : FsState π) (i : Fin nInode) (n : Nat) : Decidable (Held s i n) :=
  decidable_of_iff _ (held_iff s i n).symm

section Held

variable {s : FsState π} {i : Fin nInode} {inum : Nat}

theorem Held.iget (h : Held s i inum) :
    iget s rootDev inum = .ok (s.updI i fun e => { e with ref := e.ref + 1 }, i) := by
  have hfind : (List.finRange nInode).find? (fun j =>
      0 < (s.itable j).ref && (s.itable j).dev == rootDev && (s.itable j).inum == inum) = some i := by
    refine Scan.find?_eq_some_of_unique (List.mem_finRange i) (by simp [h.ref_pos, h.dev, h.inum]) ?_
    intro j _ hj
    simp only [Bool.and_eq_true, decide_eq_true_eq, beq_iff_eq] at hj
    exact h.only j hj.1.1 hj.1.2 hj.2
  unfold Fs.iget
  rw [hfind]

theorem Held.ilock (h : Held s i inum) : ilock s i = .ok s := by
  unfold Fs.ilock
  rw [if_neg (by have := h.ref_pos; omega), if_pos h.valid]

theorem iput_of_one_lt (h : 1 < (s.itable i).ref) :
    iput s i = .ok (s.updI i fun e => { e with ref := e.ref - 1 }) :=
  iput_of_not_last (by omega)

/-- Whatever keeps each entry's identity, whether it is read in, and whether it
is referenced keeps an entry held. -/
theorem Held.congr {s' : FsState π} (h : Held s i inum)
    (hsame : ∀ j, (s'.itable j).valid = (s.itable j).valid ∧ (s'.itable j).dev = (s.itable j).dev ∧
      (s'.itable j).inum = (s.itable j).inum)
    (hpos : ∀ j, 0 < (s'.itable j).ref ↔ 0 < (s.itable j).ref) : Held s' i inum where
  ref_pos := (hpos i).2 h.ref_pos
  valid := (hsame i).1.trans h.valid
  dev := (hsame i).2.1.trans h.dev
  inum := (hsame i).2.2.trans h.inum
  only j hj hd hn := h.only j ((hpos j).1 hj) ((hsame j).2.1.symm.trans hd) ((hsame j).2.2.symm.trans hn)

/-- A change of one entry that keeps its identity, whether it is read in, and
whether it is referenced keeps every entry held. -/
theorem Held.updI (h : Held s i inum) (j : Fin nInode) (g : Inode → Inode)
    (hg : (g (s.itable j)).valid = (s.itable j).valid ∧ (g (s.itable j)).dev = (s.itable j).dev ∧
      (g (s.itable j)).inum = (s.itable j).inum)
    (hpos : 0 < (g (s.itable j)).ref ↔ 0 < (s.itable j).ref) : Held (s.updI j g) i inum := by
  refine h.congr (fun k => ?_) (fun k => ?_)
  · by_cases hk : k = j
    · subst hk
      rw [FsState.updI_itable_self]
      exact hg
    · rw [FsState.updI_itable_of_ne _ _ hk]
      exact ⟨rfl, rfl, rfl⟩
  · by_cases hk : k = j
    · subst hk
      rw [FsState.updI_itable_self]
      exact hpos
    · rw [FsState.updI_itable_of_ne _ _ hk]

theorem Held.of_itable {s' : FsState π} (h : Held s i inum) (heq : s'.itable = s.itable) : Held s' i inum :=
  h.congr (fun j => by rw [heq]; exact ⟨rfl, rfl, rfl⟩) (fun j => by rw [heq])

/-- A reference taken and given back leaves the entry as it was. -/
theorem updI_ref_add_sub (s : FsState π) (i : Fin nInode) :
    (s.updI i fun e => { e with ref := e.ref + 1 }).updI i (fun e => { e with ref := e.ref - 1 }) = s := by
  simp [FsState.updI]

/-- Changes of two different entries commute. -/
theorem updI_comm (s : FsState π) {i j : Fin nInode} (h : i ≠ j) (f g : Inode → Inode) :
    (s.updI i f).updI j g = (s.updI j g).updI i f := by
  simp only [FsState.updI, Function.update_of_ne h, Function.update_of_ne (Ne.symm h)]
  rw [Function.update_comm h]

end Held

/-! ## Paths of one element -/

/-- A name with no '/' and at most DIRSIZ characters is a path of one element,
itself. -/
theorem skipelem_of_name {path : List Char} (hne : path ≠ []) (hslash : '/' ∉ path)
    (hlen : path.length ≤ dirSiz) : skipelem path = some (path, []) := by
  have hdrop : path.dropWhile (· == '/') = path := by
    cases path with
    | nil => exact absurd rfl hne
    | cons c t =>
      have hc : c ≠ '/' := fun h => hslash (h ▸ List.mem_cons_self)
      simp [hc]
  have htake : path.takeWhile (· != '/') = path :=
    List.takeWhile_eq_self_iff.2 fun c hc => by
      have : c ≠ '/' := fun h => hslash (h ▸ hc)
      simpa using this
  have hrest : path.dropWhile (· != '/') = [] :=
    List.dropWhile_eq_nil_iff.2 fun c hc => by
      have : c ≠ '/' := fun h => hslash (h ▸ hc)
      simpa using this
  unfold skipelem
  rw [hdrop]
  cases path with
  | nil => exact absurd rfl hne
  | cons c t =>
    dsimp only
    rw [htake, hrest, List.take_of_length_le hlen]
    rfl

/-- The loop of `namex` with no element left. -/
theorem namexLoop_nil (parent : Bool) (s : FsState π) (ip : Fin nInode) (name : Name) :
    namexLoop parent s ip [] name =
      if parent then (do let s ← iput s ip; pure (s, none)) else pure (s, some (ip, name)) := by
  rw [namexLoop]
  simp [skipelem]

/-- The loop of `namex` at the last element, for `nameiparent`. -/
theorem namexLoop_parent_last (s : FsState π) (ip : Fin nInode) {path elem : List Char} (name : Name)
    (h : skipelem path = some (elem, [])) :
    namexLoop true s ip path name = (do
      let s ← ilock s ip
      if (s.itable ip).d.type ≠ .dir then do
        let s ← iunlockput s ip
        pure (s, none)
      else pure (s, some (ip, elem))) := by
  rw [namexLoop]
  split
  · next h' =>
    rw [h] at h'
    cases h'
  · next e r h' =>
    rw [h] at h'
    cases h'
    simp

/-- `dirlookup` of a name that directory `c` maps to the inode held by entry
`f`: that entry, with one more reference. -/
theorem DirLayout.dirlookup_held {s : FsState π} {c f : Fin nInode} {fI : Nat} (hcd : DirLayout s c)
    (hdev : (s.itable c).dev = rootDev) (hf : Held s f fI) {elem : Name} (hmap : dirMap s c elem = some fI) :
    ∃ o, Fs.dirlookup s c elem = .ok (s.updI f (fun e => { e with ref := e.ref + 1 }), some (f, o)) := by
  obtain ⟨o, ho, hinum⟩ := Option.map_eq_some_iff.1 hmap
  refine ⟨o, ?_⟩
  rw [hcd.dirlookup, ho]
  dsimp only
  rw [hinum, hdev, hf.iget]
  rfl

/-- `namei` of a path of one element that the current directory `c` maps to
the inode held by entry `f`: that entry, with one more reference. -/
theorem namei_elem {s : FsState π} {c f : Fin nInode} {cI fI : Nat} (hc : Held s c cI)
    (hcd : DirLayout s c) (hf : Held s f fI) (hcf : c ≠ f) {path elem : List Char}
    (hhead : path.head? ≠ some '/') (hskip : skipelem path = some (elem, []))
    (hmap : dirMap s c elem = some fI) :
    namei s c path = .ok (s.updI f (fun e => { e with ref := e.ref + 1 }), some f) := by
  set s₁ := idup s c with hs₁
  have hd₁ : (s₁.itable c).d = (s.itable c).d := by simp [hs₁, idup]
  have hc₁ : Held s₁ c cI := hc.updI c _ ⟨rfl, rfl, rfl⟩ (by simp [hc.ref_pos])
  have hf₁ : Held s₁ f fI := hf.updI c _ ⟨rfl, rfl, rfl⟩ (by simp [hc.ref_pos])
  have hcd₁ : DirLayout s₁ c := hcd.frame hd₁ (fun _ _ => rfl) fun _ hb => hb
  set s₂ := s₁.updI f fun e => { e with ref := e.ref + 1 } with hs₂
  obtain ⟨o, hlookup⟩ := hcd₁.dirlookup_held hc₁.dev hf₁ (by rwa [dirMap_frame hd₁ fun _ _ => rfl])
  rw [← hs₂] at hlookup
  have hput : iput s₂ c = .ok (s.updI f fun e => { e with ref := e.ref + 1 }) := by
    rw [iput_of_one_lt (by simp [hs₂, hs₁, idup, FsState.updI_itable_of_ne _ _ hcf, hc.ref_pos])]
    rw [hs₂, hs₁, idup, updI_comm _ hcf, updI_ref_add_sub]
  unfold namei namex
  rw [if_neg hhead]
  simp only [Result.pure_bind]
  rw [namexLoop]
  split
  · next h' =>
    rw [hskip] at h'
    cases h'
  · next e r h' =>
    rw [hskip] at h'
    cases h'
    rw [← hs₁]
    simp only [hc₁.ilock, Result.ok_bind, hcd₁.dir, ne_eq, not_true_eq_false, if_false, Bool.false_eq_true,
      false_and, hlookup, iunlockput, hput, namexLoop_nil]
    rfl

/-- `nameiparent` of a path of one element: the current directory, with one
more reference, and the element. -/
theorem nameiparent_elem {s : FsState π} {c : Fin nInode} {cI : Nat} (hc : Held s c cI)
    (hdir : (s.itable c).d.type = .dir) {path elem : List Char} (hhead : path.head? ≠ some '/')
    (hskip : skipelem path = some (elem, [])) :
    nameiparent s c path = .ok (idup s c, some (c, elem)) := by
  have hc₁ : Held (idup s c) c cI := hc.updI c _ ⟨rfl, rfl, rfl⟩ (by simp [hc.ref_pos])
  have hdir₁ : ((idup s c).itable c).d.type = .dir := by simp [idup, hdir]
  unfold nameiparent namex
  rw [if_neg hhead]
  simp only [Result.pure_bind]
  rw [namexLoop_parent_last _ _ _ hskip]
  simp [hc₁.ilock, hdir₁]

/-! ## `sys_link` within one directory -/

section Link

/-- What `sys_link` of a new name in `c` for the inode of entry `f` leaves: the
link count of `f` one higher, the rest of the inode table, the blocks of other
inodes and the open files as they were, and blocks of `c` that were blocks of
it or free. -/
structure LinkedIn (s s' : FsState π) (c f : Fin nInode) : Prop where
  itable_ne : ∀ j, j ≠ c → j ≠ f → s'.itable j = s.itable j
  file : s'.itable f = { s.itable f with d := { (s.itable f).d with nlink := (s.itable f).d.nlink + 1 } }
  ref : (s'.itable c).ref = (s.itable c).ref
  valid : (s'.itable c).valid = (s.itable c).valid
  dev : (s'.itable c).dev = (s.itable c).dev
  inum : (s'.itable c).inum = (s.itable c).inum
  blk : ∀ b, s.bitmap b = true → ¬ dirBlocks s c b → s'.blk b = s.blk b
  bitmap : ∀ b, s.bitmap b = true → s'.bitmap b = true
  grows : ∀ b, dirBlocks s' c b → dirBlocks s c b ∨ s.bitmap b = false
  ftable : s'.ftable = s.ftable
  ofile : s'.ofile = s.ofile
  cwd : s'.cwd = s.cwd

/-- `sys_link` by a process in directory `c` of the name `old` of `c`, which
names the inode held by entry `f`, to a new name `new` of `c`, when every entry
of `c` is in use and the disk is used below `lo` with room for two more
blocks: it returns 0, having raised the link count of `f` by one and appended
the entry for `new`. -/
theorem sysLink_elem {s : FsState π} {c f : Fin nInode} {cI fI lo : Nat} (hc : Held s c cI)
    (hcd : DirLayout s c) (hnd : NamesDistinct s c) (hf : Held s f fI) (hcf : c ≠ f)
    (htype : (s.itable f).d.type ≠ .dir) (hfpos : 0 < fI) (hflt : fI < 2 ^ 16)
    {old new oldElem newElem : List Char} (holdHead : old.head? ≠ some '/')
    (holdSkip : skipelem old = some (oldElem, [])) (hnewHead : new.head? ≠ some '/')
    (hnewSkip : skipelem new = some (newElem, [])) (hmap : dirMap s c oldElem = some fI)
    (habsent : ∀ off ∈ dirOffsets s c, matchesAt s c newElem off = false)
    (hlive : ∀ off ∈ dirOffsets s c, (entryAt s c off).inum ≠ 0)
    (hu : UsedBelow s lo) (h0 : 0 < lo) (hroom : lo + 2 ≤ fsSize)
    (hmax : (s.itable c).d.size + direntSize ≤ maxFile * bSize) :
    ∃ s' lo', sysLink s c old new = .ok (s', 0) ∧ LinkedIn s s' c f ∧
      lo ≤ lo' ∧ lo' ≤ lo + 2 ∧ ((s.itable c).d.size % bSize ≠ 0 → lo' = lo) ∧ UsedBelow s' lo' ∧
      (s'.itable c).d.size = (s.itable c).d.size + direntSize ∧
      entryAt s' c (s.itable c).d.size = ⟨fI, newElem.take dirSiz⟩ ∧
      (∀ o ∈ dirOffsets s c, entryAt s' c o = entryAt s c o) ∧
      (∀ n, dirMap s' c n = if namecmp n newElem then some fI else dirMap s c n) ∧
      DirLayout s' c ∧ NamesDistinct s' c := by
  -- after `namei`, `ilock` and the raised link count
  set s₃ := s.updI f fun e => { e with ref := e.ref + 1 } with hs₃
  have hf₃ : Held s₃ f fI := hf.updI f _ ⟨rfl, rfl, rfl⟩ (by simp [hf.ref_pos])
  set s₄ := iupdate (s₃.updD f fun d => { d with nlink := d.nlink + 1 }) f with hs₄
  have hc₃ : Held s₃ c cI := hc.updI f _ ⟨rfl, rfl, rfl⟩ (by simp [hf.ref_pos])
  have hc₄ : Held s₄ c cI :=
    (hc₃.updI f (fun e => { e with d := { e.d with nlink := e.d.nlink + 1 } }) ⟨rfl, rfl, rfl⟩ Iff.rfl).of_itable rfl
  have hf₄ : Held s₄ f fI :=
    (hf₃.updI f (fun e => { e with d := { e.d with nlink := e.d.nlink + 1 } }) ⟨rfl, rfl, rfl⟩ Iff.rfl).of_itable rfl
  have hd₄ : (s₄.itable c).d = (s.itable c).d := by
    simp [hs₄, hs₃, FsState.updD, FsState.updI_itable_of_ne _ _ hcf]
  -- after `nameiparent`
  set s₅ := idup s₄ c with hs₅
  have hc₅ : Held s₅ c cI := hc₄.updI c _ ⟨rfl, rfl, rfl⟩ (by simp [hc₄.ref_pos])
  have hf₅ : Held s₅ f fI := hf₄.updI c _ ⟨rfl, rfl, rfl⟩ (by simp [hc₄.ref_pos])
  have hd₅ : (s₅.itable c).d = (s.itable c).d := by simp [hs₅, idup, hd₄]
  have hblk₅ : s₅.blk = s.blk := rfl
  have hbit₅ : s₅.bitmap = s.bitmap := rfl
  have hcd₅ : DirLayout s₅ c := hcd.frame hd₅ (fun _ _ => rfl) fun _ hb => hb
  have hnd₅ : NamesDistinct s₅ c := hnd.frame hd₅ fun _ _ => rfl
  have hoffs₅ : dirOffsets s₅ c = dirOffsets s c := dirOffsets_frame hd₅
  have hentry₅ : ∀ o ∈ dirOffsets s c, entryAt s₅ c o = entryAt s c o :=
    fun o ho => entryAt_frame hd₅ (fun _ _ => rfl) ho
  have habsent₅ : ∀ o ∈ dirOffsets s₅ c, matchesAt s₅ c newElem o = false := by
    intro o ho
    rw [hoffs₅] at ho
    rw [matchesAt_frame hd₅ (fun _ _ => rfl) _ ho]
    exact habsent o ho
  have hlive₅ : ∀ o ∈ dirOffsets s₅ c, (entryAt s₅ c o).inum ≠ 0 := by
    intro o ho
    rw [hoffs₅] at ho
    rw [hentry₅ o ho]
    exact hlive o ho
  obtain ⟨s₆, lo', hlink, hle, hle', hsame, hu₆, hw, hsize, hnew, hold, hmap', hcd₆, hnd₆⟩ :=
    hcd₅.dirlink_append hnd₅ habsent₅ hlive₅ hfpos hflt (hu.of_bitmap hbit₅) h0 hroom (by rw [hd₅]; exact hmax)
  -- the references `namei` and `nameiparent` took are given back
  have hrefc : (s₆.itable c).ref = (s.itable c).ref + 1 := by
    rw [hw.ref]
    simp [hs₅, idup, hs₄, hs₃, FsState.updD, FsState.updI_itable_of_ne _ _ hcf]
  set s₇ := s₆.updI c fun e => { e with ref := e.ref - 1 } with hs₇
  have hreff : (s₇.itable f).ref = (s.itable f).ref + 1 := by
    rw [hs₇, FsState.updI_itable_of_ne _ _ hcf.symm, hw.itable_ne f hcf.symm]
    simp [hs₅, idup, hs₄, hs₃, FsState.updD, FsState.updI_itable_of_ne _ _ hcf.symm]
  set s₈ := s₇.updI f fun e => { e with ref := e.ref - 1 } with hs₈
  have hrun : sysLink s c old new = .ok (s₈, 0) := by
    unfold sysLink
    rw [namei_elem hc hcd hf hcf holdHead holdSkip hmap]
    simp only [Result.ok_bind]
    rw [← hs₃, hf₃.ilock]
    have htype₃ : (s₃.itable f).d.type ≠ .dir := by simpa [hs₃] using htype
    simp only [Result.ok_bind, if_neg htype₃]
    rw [← hs₄, nameiparent_elem hc₄ (by rw [hd₄]; exact hcd.dir) hnewHead hnewSkip]
    simp only [Result.ok_bind]
    rw [← hs₅, hc₅.ilock]
    simp only [Result.ok_bind, hc₅.dev, hf₅.dev, hf₅.inum, ne_eq, not_true_eq_false, if_false, hlink,
      iunlockput]
    have hcpos := hc.ref_pos
    have hfpos' := hf.ref_pos
    rw [iput_of_one_lt (by omega : 1 < (s₆.itable c).ref), ← hs₇]
    simp only [Result.ok_bind, Result.pure_bind, le_refl, decide_true, if_true]
    rw [iput_of_one_lt (by omega : 1 < (s₇.itable f).ref), ← hs₈]
    rfl
  -- from `s₆` to `s₈` only references change
  have hd₈ : (s₈.itable c).d = (s₆.itable c).d := by
    simp [hs₈, hs₇, FsState.updI_itable_of_ne _ _ hcf]
  have hblk₈ : ∀ b, dirBlocks s₆ c b → s₈.blk b = s₆.blk b := fun _ _ => rfl
  have hoffs : dirOffsets s₆ c = dirOffsets s₈ c := (dirOffsets_frame hd₈).symm
  have hentry : entryAt s₈ c = entryAt s₆ c := entryAt_congr rfl (by rw [hd₈])
  -- the entries of `s₅` other than `c`'s and `f`'s are those of `s`
  have hitable₅ : ∀ j, j ≠ c → j ≠ f → s₅.itable j = s.itable j := by
    intro j hjc hjf
    simp [hs₅, idup, hs₄, hs₃, FsState.updD, FsState.updI_itable_of_ne _ _ hjc, FsState.updI_itable_of_ne _ _ hjf]
  have hc₅' : s₅.itable c = { s.itable c with ref := (s.itable c).ref + 1 } := by
    simp [hs₅, idup, hs₄, hs₃, FsState.updD, FsState.updI_itable_of_ne _ _ hcf]
  refine ⟨s₈, lo', hrun, ⟨fun j hjc hjf => ?_, ?_, ?_, ?_, ?_, ?_, fun b hb hnb => ?_, fun b hb => hw.bitmap b hb,
    fun b hb => ?_, hw.ftable, hw.ofile, hw.cwd⟩, hle, hle', fun h => hsame (by rwa [hd₅]), hu₆.of_bitmap rfl,
    ?_, ?_, fun o ho => ?_, fun n => ?_, hcd₆.frame hd₈ hblk₈ fun _ hb => hb, hnd₆.frame hd₈ hblk₈⟩
  · rw [hs₈, FsState.updI_itable_of_ne _ _ hjf, hs₇, FsState.updI_itable_of_ne _ _ hjc,
      hw.itable_ne j hjc, hitable₅ j hjc hjf]
  · rw [hs₈, FsState.updI_itable_self, hs₇, FsState.updI_itable_of_ne _ _ hcf.symm, hw.itable_ne f hcf.symm]
    simp [hs₅, idup, hs₄, hs₃, FsState.updD, FsState.updI_itable_of_ne _ _ hcf.symm]
  · rw [hs₈, FsState.updI_itable_of_ne _ _ hcf, hs₇, FsState.updI_itable_self]
    simp only [hw.ref, hc₅']
    omega
  · rw [hs₈, FsState.updI_itable_of_ne _ _ hcf, hs₇, FsState.updI_itable_self]
    simp only [hw.valid, hc₅']
  · rw [hs₈, FsState.updI_itable_of_ne _ _ hcf, hs₇, FsState.updI_itable_self]
    simp only [hw.dev, hc₅']
  · rw [hs₈, FsState.updI_itable_of_ne _ _ hcf, hs₇, FsState.updI_itable_self]
    simp only [hw.inum, hc₅']
  · exact hw.blk b hb (by rwa [dirBlocks_frame hd₅ fun _ _ => rfl])
  · rw [dirBlocks_frame hd₈ hblk₈] at hb
    rw [← dirBlocks_frame hd₅ fun _ _ => rfl]
    exact hw.grows b hb
  · rw [hd₈, hsize, hd₅]
  · rw [hentry, ← hd₅]
    exact hnew
  · rw [hentry, hold o (by rwa [hoffs₅]), hentry₅ o ho]
  · rw [dirMap_frame hd₈ hblk₈, hmap', dirMap_frame hd₅ fun _ _ => rfl]

/-- `sys_unlink` by a process in directory `c` of a name of `c` for the inode
held by entry `f`, whose link count is below 1: the kernel panics. -/
theorem sysUnlink_elem_panics {s : FsState π} {c f : Fin nInode} {cI fI : Nat} (hc : Held s c cI)
    (hcd : DirLayout s c) (hf : Held s f fI) (hcf : c ≠ f) {path elem : List Char}
    (hhead : path.head? ≠ some '/') (hskip : skipelem path = some (elem, []))
    (hdot : namecmp elem ['.'] = false) (hdotdot : namecmp elem ['.', '.'] = false)
    (hmap : dirMap s c elem = some fI) (hlow : (s.itable f).d.nlink < 1) :
    sysUnlink s c path = .panic "unlink: nlink < 1" := by
  set s₁ := idup s c with hs₁
  have hd₁ : (s₁.itable c).d = (s.itable c).d := by simp [hs₁, idup]
  have hc₁ : Held s₁ c cI := hc.updI c _ ⟨rfl, rfl, rfl⟩ (by simp [hc.ref_pos])
  have hf₁ : Held s₁ f fI := hf.updI c _ ⟨rfl, rfl, rfl⟩ (by simp [hc.ref_pos])
  have hcd₁ : DirLayout s₁ c := hcd.frame hd₁ (fun _ _ => rfl) fun _ hb => hb
  obtain ⟨o, hlookup⟩ := hcd₁.dirlookup_held hc₁.dev hf₁ (by rwa [dirMap_frame hd₁ fun _ _ => rfl])
  set s₂ := s₁.updI f fun e => { e with ref := e.ref + 1 } with hs₂
  have hf₂ : Held s₂ f fI := hf₁.updI f _ ⟨rfl, rfl, rfl⟩ (by simp [hf₁.ref_pos])
  have hlow₂ : (s₂.itable f).d.nlink < 1 := by
    simpa [hs₂, hs₁, idup, FsState.updI_itable_of_ne _ _ hcf.symm] using hlow
  unfold sysUnlink
  rw [nameiparent_elem hc hcd.dir hhead hskip]
  simp only [Result.ok_bind]
  rw [← hs₁, hc₁.ilock]
  simp only [Result.ok_bind, hdot, hdotdot, Bool.false_eq_true, or_self, if_false, hlookup]
  rw [hf₂.ilock]
  simp only [Result.ok_bind, if_pos hlow₂]

end Link

end Xv6.Fs
