import Xv6.Fs.Held

/-
  Xv6/Fs/LinkCount.lean --- link counts are `short`s.

  `nlink` is a `short` in `struct dinode` and in `struct inode`, and
  `sys_link` raises it with no bound.  A directory of MAXFILE blocks holds
  MAXFILE * BSIZE / sizeof(struct dirent) = 17152 entries, the disk has room for
  two of them, and one file may have a name in each entry of both.  So a file
  can get 32768 names: its link count then wraps to -32768, and the next
  `sys_unlink` of any of its names finds it below 1 and panics.

  The run that shows it goes one `sys_link` at a time.  A directory that holds
  ".", "..", a name of the file and the names `entryName k` for `k < n`, every
  entry in use, is `Filled`; `Filled.link` takes one `sys_link` of the file's
  name to `entryName n` through `sysLink_elem`, and keeps the other directory
  `Filled` because it writes only blocks of this one and free blocks.  The
  disk's free blocks stay a final segment of it (`UsedBelow`), and each link
  takes at most two of them when it starts a new block of the directory: in
  all, at most twice the blocks of the two directories, well within FSSIZE.
-/

set_option autoImplicit false

namespace Xv6.Fs

open Machine

variable {π : Type}

/-! ## Names -/

/-- The letter `'a' + i % 26`. -/
def letter (i : Nat) : Char := Char.ofNat (97 + i % 26)

/-- The `k`-th name of four letters: `k` written in base 26. -/
def entryName (k : Nat) : Name := [letter (k / 17576), letter (k / 676), letter (k / 26), letter k]

theorem letter_toNat (i : Nat) : (letter i).toNat = 97 + i % 26 := by
  have hlt := Nat.mod_lt i (show 26 > 0 by decide)
  have hvalid : (97 + i % 26).isValidChar := Or.inl (by omega)
  unfold letter Char.ofNat
  rw [dif_pos hvalid]
  rfl

theorem letter_ne_slash (i : Nat) : letter i ≠ '/' := by
  intro h
  have := congrArg Char.toNat h
  rw [letter_toNat] at this
  simp at this
  omega

/-- Below 26^4 the names are distinct. -/
theorem entryName_inj {k m : Nat} (hk : k < 26 ^ 4) (hm : m < 26 ^ 4) (h : entryName k = entryName m) :
    k = m := by
  simp only [entryName, List.cons.injEq, and_true] at h
  obtain ⟨h₁, h₂, h₃, h₄⟩ := h
  have d₁ := congrArg Char.toNat h₁
  have d₂ := congrArg Char.toNat h₂
  have d₃ := congrArg Char.toNat h₃
  have d₄ := congrArg Char.toNat h₄
  simp only [letter_toNat] at d₁ d₂ d₃ d₄
  omega

theorem namecmp_entryName {k m : Nat} (hk : k < 26 ^ 4) (hm : m < 26 ^ 4) :
    namecmp (entryName k) (entryName m) = decide (k = m) := by
  unfold namecmp
  rw [List.take_of_length_le (by simp [entryName, dirSiz]), List.take_of_length_le (by simp [entryName, dirSiz])]
  by_cases h : k = m
  · subst h
    simp
  · have hne : entryName k ≠ entryName m := fun he => h (entryName_inj hk hm he)
    simp [hne, h]

/-- A name of four letters is no name of one. -/
theorem namecmp_entryName_single (k : Nat) (ch : Char) : namecmp (entryName k) [ch] = false := by
  simp [namecmp, entryName, dirSiz]

theorem skipelem_entryName (k : Nat) : skipelem (entryName k) = some (entryName k, []) := by
  refine skipelem_of_name (by simp [entryName]) ?_ (by simp [entryName, dirSiz])
  simp only [entryName, List.mem_cons, List.not_mem_nil, or_false, not_or]
  exact ⟨(letter_ne_slash _).symm, (letter_ne_slash _).symm, (letter_ne_slash _).symm,
    (letter_ne_slash _).symm⟩

theorem head_entryName (k : Nat) : (entryName k).head? ≠ some '/' := by
  simp [entryName, letter_ne_slash]

/-! ## Filled directories -/

/-- A name the directory does not map is matched by none of its entries. -/
theorem matchesAt_of_dirMap_eq_none {s : FsState π} {c : Fin nInode} {name : Name}
    (h : dirMap s c name = none) : ∀ off ∈ dirOffsets s c, matchesAt s c name off = false := by
  unfold dirMap at h
  intro off hoff
  have := List.find?_eq_none.1 (Option.map_eq_none_iff.1 h) off hoff
  simpa using this

/-- Directory `c` holds ".", "..", `base` and the names `entryName k` for
`k < n`, the last two kinds for inode `fI`, and no free entry. -/
structure Filled (s : FsState π) (c : Fin nInode) (base : Name) (fI n : Nat) : Prop where
  layout : DirLayout s c
  distinct : NamesDistinct s c
  size : (s.itable c).d.size = (3 + n) * direntSize
  live : ∀ o ∈ dirOffsets s c, (entryAt s c o).inum ≠ 0
  base : dirMap s c base = some fI
  names : ∀ k, k < 26 ^ 4 → dirMap s c (entryName k) = if k < n then some fI else none

/-- A change that keeps the inode of a directory, its blocks, and the marks of
the blocks in use keeps it filled. -/
theorem Filled.frame {s s' : FsState π} {d : Fin nInode} {base : Name} {fI m : Nat} (h : Filled s d base fI m)
    (hd : (s'.itable d).d = (s.itable d).d) (hblk : ∀ b, dirBlocks s d b → s'.blk b = s.blk b)
    (hbit : ∀ b, s.bitmap b = true → s'.bitmap b = true) : Filled s' d base fI m where
  layout := h.layout.frame hd hblk hbit
  distinct := h.distinct.frame hd hblk
  size := by rw [hd]; exact h.size
  live o ho := by
    rw [dirOffsets_frame hd] at ho
    rw [entryAt_frame hd hblk ho]
    exact h.live o ho
  base := by rw [dirMap_frame hd hblk]; exact h.base
  names k hk := by rw [dirMap_frame hd hblk]; exact h.names k hk

/-- `sys_link` keeps every held entry held. -/
theorem LinkedIn.held {s s' : FsState π} {c f i : Fin nInode} {n : Nat} (hl : LinkedIn s s' c f)
    (h : Held s i n) : Held s' i n := by
  refine h.congr (fun j => ?_) (fun j => ?_)
  · by_cases hjc : j = c
    · subst hjc
      exact ⟨hl.valid, hl.dev, hl.inum⟩
    · by_cases hjf : j = f
      · subst hjf
        rw [hl.file]
        exact ⟨rfl, rfl, rfl⟩
      · rw [hl.itable_ne j hjc hjf]
        exact ⟨rfl, rfl, rfl⟩
  · by_cases hjc : j = c
    · subst hjc
      rw [hl.ref]
    · by_cases hjf : j = f
      · subst hjf
        rw [hl.file]
      · rw [hl.itable_ne j hjc hjf]

/-- One `sys_link`, by a process in directory `c`, of the name `base` of `c`
for the file held by `f` to the next name `entryName n`: it succeeds, the
file's link count goes up by one, `c` holds one more name, and every other
directory `d` whose blocks are not `c`'s is left filled as it was. -/
theorem Filled.link {s : FsState π} {c d f : Fin nInode} {cI dI fI : Nat} {base base' : Name} {n m lo : Nat}
    (hfc : Filled s c base fI n) (hfd : Filled s d base' fI m) (hc : Held s c cI) (hd : Held s d dI)
    (hf : Held s f fI) (hcf : c ≠ f) (hdf : d ≠ f) (hcd : c ≠ d) (htype : (s.itable f).d.type = .file)
    (hfpos : 0 < fI) (hflt : fI < 2 ^ 16) (hdisj : ∀ x, dirBlocks s c x → dirBlocks s d x → False)
    {b₀ : Char} (hbase : base = [b₀]) (hb₀ : b₀ ≠ '/') (hn : n < 17149)
    (hu : UsedBelow s lo) (h0 : 0 < lo) (hroom : lo + 2 ≤ fsSize) :
    ∃ s' lo', sysLink s c base (entryName n) = .ok (s', 0) ∧ Held s' c cI ∧ Held s' d dI ∧ Held s' f fI ∧
      (s'.itable f).d.type = .file ∧ (s'.itable f).d.nlink = (s.itable f).d.nlink + 1 ∧
      Filled s' c base fI (n + 1) ∧ Filled s' d base' fI m ∧
      (∀ x, dirBlocks s' c x → dirBlocks s' d x → False) ∧ UsedBelow s' lo' ∧ lo ≤ lo' ∧ lo' ≤ lo + 2 ∧
      ((s.itable c).d.size % bSize ≠ 0 → lo' = lo) ∧ s'.cwd = s.cwd := by
  subst hbase
  have hn' : n < 26 ^ 4 := by omega
  have habsent : ∀ off ∈ dirOffsets s c, matchesAt s c (entryName n) off = false :=
    matchesAt_of_dirMap_eq_none (by rw [hfc.names n hn', if_neg (Nat.lt_irrefl n)])
  have hmax : (s.itable c).d.size + direntSize ≤ maxFile * bSize := by
    rw [hfc.size]
    unfold direntSize dirSiz maxFile nDirect nIndirect bSize
    omega
  obtain ⟨s', lo', hrun, hl, hle, hle', hsame, hu', hsize, hnew, hold, hmap, hlay, hnd⟩ :=
    sysLink_elem hc hfc.layout hfc.distinct hf hcf (by rw [htype]; decide) hfpos hflt
      (by simp [hb₀]) (skipelem_of_name (by simp) (by simp [hb₀.symm]) (by simp [dirSiz]))
      (head_entryName n) (skipelem_entryName n) hfc.base habsent hfc.live hu h0 hroom hmax
  -- the other directory: its inode and its blocks are as they were
  have hdd : (s'.itable d).d = (s.itable d).d := by rw [hl.itable_ne d hcd.symm hdf]
  have hdblk : ∀ x, dirBlocks s d x → s'.blk x = s.blk x :=
    fun x hx => hl.blk x (hfd.layout.dirBlocks_marked hx) fun hcx => hdisj x hcx hx
  have hoffs : dirOffsets s' c = dirOffsets s c ++ [(s.itable c).d.size] := by
    unfold dirOffsets
    rw [hsize, direntOffsets_add hfc.layout.aligned]
  refine ⟨s', lo', hrun, hl.held hc, hl.held hd, hl.held hf, by rw [hl.file]; exact htype,
    by rw [hl.file], ⟨hlay, hnd, ?_, fun o ho => ?_, ?_, fun k hk => ?_⟩, hfd.frame hdd hdblk hl.bitmap,
    fun x hcx hdx => ?_, hu', hle, hle', hsame, hl.cwd⟩
  · rw [hsize, hfc.size]
    unfold direntSize dirSiz
    omega
  · -- every entry is in use, the new one too
    rw [hoffs, List.mem_append, List.mem_singleton] at ho
    rcases ho with ho | rfl
    · rw [hold o ho]
      exact hfc.live o ho
    · rw [hnew]
      exact Nat.pos_iff_ne_zero.1 hfpos
  · rw [hmap, namecmp_comm, namecmp_entryName_single]
    exact hfc.base
  · rw [hmap, namecmp_entryName hk hn', hfc.names k hk]
    by_cases hkn : k = n
    · subst hkn
      simp
    · have : (k < n + 1) = (k < n) := propext (by omega)
      simp [hkn, this]
  · rw [dirBlocks_frame hdd hdblk] at hdx
    rcases hl.grows x hcx with hcx' | hfree
    · exact hdisj x hcx' hdx
    · exact absurd (hfd.layout.dirBlocks_marked hdx) (by simp [hfree])

/-! ## Two directories filled in turn -/

/-- The actors of the run: process `p` in directory `a` (inode `aI`), process
`q` in directory `b` (inode `bI`), and the file held by `f` (inode `fI`),
named `[na]` in `a` and `[nb]` in `b`. -/
structure Scene (π : Type) where
  p : π
  q : π
  a : Fin nInode
  b : Fin nInode
  f : Fin nInode
  aI : Nat
  bI : Nat
  fI : Nat
  na : Char
  nb : Char
  ab : a ≠ b
  af : a ≠ f
  bf : b ≠ f
  fI_pos : 0 < fI
  fI_lt : fI < 2 ^ 16
  na_ne : na ≠ '/'
  nb_ne : nb ≠ '/'

/-- The same actors with the two directories' roles exchanged. -/
def Scene.swap (c : Scene π) : Scene π where
  p := c.q
  q := c.p
  a := c.b
  b := c.a
  f := c.f
  aI := c.bI
  bI := c.aI
  fI := c.fI
  na := c.nb
  nb := c.na
  ab := c.ab.symm
  af := c.bf
  bf := c.af
  fI_pos := c.fI_pos
  fI_lt := c.fI_lt
  na_ne := c.nb_ne
  nb_ne := c.na_ne

/-- The blocks of a directory of `size` bytes: `size / BSIZE` rounded up. -/
def sizeBlocks (size : Nat) : Nat := (size + bSize - 1) / bSize

/-- After `n₁` links in `a` and `n₂` in `b`: both processes are in their
directories, the three inodes are held, the file has `2 + n₁ + n₂` links as a
`short`, both directories are filled and share no block, and the free blocks
are a final segment of the disk, below which at most two blocks were taken for
each block of the two directories, and which has room for both to reach
MAXFILE blocks. -/
structure Scene.Inv (c : Scene π) (s : FsState π) (n₁ n₂ L : Nat) : Prop where
  cwd_p : s.cwd c.p = some c.a
  cwd_q : s.cwd c.q = some c.b
  held_a : Held s c.a c.aI
  held_b : Held s c.b c.bI
  held_f : Held s c.f c.fI
  file : (s.itable c.f).d.type = .file
  nlink : (s.itable c.f).d.nlink = Int16.ofNat (2 + n₁ + n₂)
  filled_a : Filled s c.a [c.na] c.fI n₁
  filled_b : Filled s c.b [c.nb] c.fI n₂
  disj : ∀ x, dirBlocks s c.a x → dirBlocks s c.b x → False
  used : ∃ lo, UsedBelow s lo ∧ 0 < lo ∧
    lo ≤ L + 2 * (sizeBlocks ((3 + n₁) * direntSize) + sizeBlocks ((3 + n₂) * direntSize))
  room : L + 4 * maxFile + 2 ≤ fsSize

section Run

variable {c : Scene π} {s : FsState π} {n₁ n₂ L : Nat}

theorem Scene.Inv.swap (h : c.Inv s n₁ n₂ L) : c.swap.Inv s n₂ n₁ L where
  cwd_p := h.cwd_q
  cwd_q := h.cwd_p
  held_a := h.held_b
  held_b := h.held_a
  held_f := h.held_f
  file := h.file
  nlink := by
    show (s.itable c.f).d.nlink = _
    rw [h.nlink, Nat.add_right_comm]
  filled_a := h.filled_b
  filled_b := h.filled_a
  disj x ha hb := h.disj x hb ha
  used := by
    obtain ⟨lo, hu, h0, hlo⟩ := h.used
    exact ⟨lo, hu, h0, by rw [Nat.add_comm (sizeBlocks _)]; exact hlo⟩
  room := h.room

/-- A filled directory is within MAXFILE blocks, so the bound on the blocks
in use leaves two free blocks for the next link. -/
theorem Scene.Inv.room_two (h : c.Inv s n₁ n₂ L) {lo : Nat}
    (hlo : lo ≤ L + 2 * (sizeBlocks ((3 + n₁) * direntSize) + sizeBlocks ((3 + n₂) * direntSize))) :
    lo + 2 ≤ fsSize := by
  have hmax₁ := h.filled_a.layout.le_max
  have hmax₂ := h.filled_b.layout.le_max
  rw [h.filled_a.size] at hmax₁
  rw [h.filled_b.size] at hmax₂
  have hroom := h.room
  unfold sizeBlocks at hlo
  unfold maxFile nIndirect nDirect bSize direntSize dirSiz at *
  omega

variable [DecidableEq π]

/-- One `sys_link` by `p` of the file's name in `a` to the next name: it
completes, and the run goes on with one more name in `a`. -/
theorem Scene.Inv.link (h : c.Inv s n₁ n₂ L) (hn : n₁ < 17149) (initproc : π) :
    ∃ s', step initproc s (.sysLink c.p [c.na] (entryName n₁)) = .ok s' ∧ c.Inv s' (n₁ + 1) n₂ L := by
  obtain ⟨lo, hu, h0, hlo⟩ := h.used
  obtain ⟨s', lo', hrun, ha, hb, hf, hfile, hnlink, hfa, hfb, hdisj, hu', hle, hle', hsame, hcwd⟩ :=
    h.filled_a.link h.filled_b h.held_a h.held_b h.held_f c.af c.bf c.ab h.file c.fI_pos c.fI_lt h.disj rfl
      c.na_ne hn hu h0 (h.room_two hlo)
  refine ⟨s', ?_, ⟨by rw [hcwd]; exact h.cwd_p, by rw [hcwd]; exact h.cwd_q, ha, hb, hf, hfile, ?_, hfa, hfb,
    hdisj, ⟨lo', hu', by omega, ?_⟩, h.room⟩⟩
  · simp [step, Op.proc, h.cwd_p, hrun]
  · rw [hnlink, h.nlink, show 2 + (n₁ + 1) + n₂ = 2 + n₁ + n₂ + 1 by omega, Int16.ofNat_add (2 + n₁ + n₂) 1]
    rfl
  · -- a new block, and perhaps the indirect one, only when the entry starts a block
    rw [h.filled_a.size] at hsame
    unfold sizeBlocks at hlo ⊢
    unfold bSize direntSize dirSiz at *
    omega

/-- `sys_unlink` by `p` of the file's name in `a`, when the file's link count
is below 1: the kernel panics. -/
theorem Scene.Inv.unlink_panics (h : c.Inv s n₁ n₂ L) (hdot : c.na ≠ '.')
    (hlow : (s.itable c.f).d.nlink < 1) (initproc : π) :
    step initproc s (.sysUnlink c.p [c.na]) = .panic "unlink: nlink < 1" := by
  have hpanic := sysUnlink_elem_panics h.held_a h.filled_a.layout h.held_f c.af (by simp [c.na_ne])
    (skipelem_of_name (by simp) (by simp [c.na_ne.symm]) (by simp [dirSiz])) (by simp [namecmp, dirSiz, hdot])
    (by simp [namecmp, dirSiz]) h.filled_a.base hlow
  simp only [step, Op.proc, h.cwd_p]
  rw [hpanic]
  rfl

/-- `n` calls of `sys_link` by `p`, of the name `[na]` to `entryName i` for
each `i < n`. -/
def linksIn (p : π) (na : Char) (n : Nat) : List (Op π) :=
  (List.range n).map fun i => .sysLink p [na] (entryName i)

variable [Fintype π]

/-- Up to 17149 links in `a` from none: each completes. -/
theorem Scene.Inv.run_links (h : c.Inv s 0 n₂ L) (initproc : π) (img : Image) {n : Nat} (hn : n ≤ 17149) :
    ∃ s', run (fsSystem initproc img) s (linksIn c.p c.na n) = .ok s' ∧ c.Inv s' n n₂ L :=
  run_iterate (fsSystem initproc img) (I := fun i s => c.Inv s i n₂ L) _ n
    (fun _ hi _ hs => hs.link (by omega) initproc) h

/-- From the start, 17149 links in `a` fill it to MAXFILE blocks and 15617 in
`b` follow: the file then has 32768 names, one more than a `short` holds, and
its link count reads -32768.  Unlinking its first name panics. -/
theorem Scene.Inv.run_panics (h : c.Inv s 0 0 L) (hdot : c.na ≠ '.') (initproc : π) (img : Image) :
    ∃ s', run (fsSystem initproc img) s (linksIn c.p c.na 17149 ++ linksIn c.q c.nb 15617) = .ok s' ∧
      c.Inv s' 17149 15617 L ∧ (s'.itable c.f).d.nlink = -32768 ∧
      step initproc s' (.sysUnlink c.p [c.na]) = .panic "unlink: nlink < 1" := by
  obtain ⟨s₁, hrun₁, h₁⟩ := h.run_links initproc img le_rfl
  obtain ⟨s₂, hrun₂, h₂⟩ := h₁.swap.run_links initproc img (show 15617 ≤ 17149 by decide)
  have h₂' : c.Inv s₂ 17149 15617 L := h₂.swap
  have hwrap : (s₂.itable c.f).d.nlink = -32768 := by rw [h₂'.nlink]; decide
  refine ⟨s₂, ?_, h₂', hwrap, h₂'.unlink_panics hdot (by rw [hwrap]; decide) initproc⟩
  rw [run_append_of_ok hrun₁]
  exact hrun₂

end Run

/-! ## The first state of the run -/

section Start

variable {s : FsState π} {d : Fin nInode} {base : Name} {fI : Nat}

/-- Directory `d` as `mkdir` and a first name for the file leave it: one
block, marked in use, holding three entries in use with distinct names shorter
than four characters, `base` among them for inode `fI`. -/
@[mk_iff]
structure Fresh (s : FsState π) (d : Fin nInode) (base : Name) (fI : Nat) : Prop where
  dir : (s.itable d).d.type = .dir
  size : (s.itable d).d.size = 3 * direntSize
  first : (s.itable d).d.addrs 0 ≠ 0
  marked : s.bitmap ((s.itable d).d.addrs 0) = true
  rest : ∀ k, k < nDirect → (s.itable d).d.addrs (k + 1) = 0
  boot : s.bitmap 0 = true
  distinct : NamesDistinct s d
  live : ∀ o ∈ dirOffsets s d, (entryAt s d o).inum ≠ 0
  base : dirMap s d base = some fI
  short : ∀ o ∈ dirOffsets s d, ((entryAt s d o).name.take dirSiz).length < 4

instance (s : FsState π) (d : Fin nInode) (base : Name) (fI : Nat) : Decidable (Fresh s d base fI) :=
  decidable_of_iff _ (fresh_iff s d base fI).symm

theorem Fresh.blockOf_pos (h : Fresh s d base fI) {bn : Nat} (hbn : 0 < bn) : blockOf s (s.itable d).d bn = 0 := by
  have hind : (s.itable d).d.addrs nDirect = 0 := h.rest (nDirect - 1) (by decide)
  unfold blockOf
  split_ifs with hd
  · obtain ⟨k, rfl⟩ : ∃ k, bn = k + 1 := ⟨bn - 1, by omega⟩
    exact h.rest k (by omega)
  · rfl

/-- Below its size a fresh directory has only its first block. -/
theorem Fresh.bn_eq_zero (h : Fresh s d base fI) {bn : Nat} (hbn : bn * bSize < (s.itable d).d.size) : bn = 0 := by
  rw [h.size] at hbn
  unfold bSize direntSize dirSiz at hbn
  omega

theorem Fresh.dirLayout (h : Fresh s d base fI) : DirLayout s d where
  dir := h.dir
  aligned := by rw [h.size]; rfl
  le_max := by rw [h.size]; decide
  mapped bn hbn := by
    rw [h.bn_eq_zero hbn]
    exact ⟨h.first, h.marked⟩
  unmapped bn _ hsz := by
    refine h.blockOf_pos (Nat.pos_of_ne_zero fun h0 => ?_)
    rw [h0, h.size] at hsz
    exact absurd hsz (by decide)
  inj bn bn' hbn hbn' _ := by rw [h.bn_eq_zero hbn, h.bn_eq_zero hbn']
  ind hind := absurd (h.rest (nDirect - 1) (by decide)) hind
  boot := h.boot

/-- The one block of a fresh directory is its first. -/
theorem Fresh.dirBlocks (h : Fresh s d base fI) {x : Nat} (hx : dirBlocks s d x) :
    x = (s.itable d).d.addrs 0 := by
  rcases hx with ⟨bn, hbn, rfl⟩ | ⟨hind, -⟩
  · rw [h.bn_eq_zero hbn]
    rfl
  · exact absurd (h.rest (nDirect - 1) (by decide)) hind

/-- A directory whose names are all shorter than four characters maps none of
the names `entryName k`. -/
theorem dirMap_entryName_of_short (h : ∀ o ∈ dirOffsets s d, ((entryAt s d o).name.take dirSiz).length < 4)
    (k : Nat) : dirMap s d (entryName k) = none := by
  unfold dirMap
  rw [Option.map_eq_none_iff, List.find?_eq_none]
  intro o ho hmatch
  have hlen := h o ho
  simp only [matchesAt, namecmp, Bool.and_eq_true, beq_iff_eq] at hmatch
  rw [← hmatch.2] at hlen
  simp [entryName, dirSiz] at hlen

theorem Fresh.filled (h : Fresh s d base fI) : Filled s d base fI 0 where
  layout := h.dirLayout
  distinct := h.distinct
  size := h.size
  live := h.live
  base := h.base
  names k _ := by rw [dirMap_entryName_of_short h.short, if_neg (Nat.not_lt_zero k)]

/-- The first state of the run, in a form that can be checked: the processes
are in their directories, the three inodes are held, the file has two links,
both directories are fresh, in different blocks, and the blocks in use are
those below `lo`. -/
@[mk_iff]
structure Scene.Start (c : Scene π) (s : FsState π) (lo : Nat) : Prop where
  cwd_p : s.cwd c.p = some c.a
  cwd_q : s.cwd c.q = some c.b
  held_a : Held s c.a c.aI
  held_b : Held s c.b c.bI
  held_f : Held s c.f c.fI
  file : (s.itable c.f).d.type = .file
  nlink : (s.itable c.f).d.nlink = 2
  fresh_a : Fresh s c.a [c.na] c.fI
  fresh_b : Fresh s c.b [c.nb] c.fI
  apart : (s.itable c.a).d.addrs 0 ≠ (s.itable c.b).d.addrs 0
  used : UsedBelow s lo
  lo_pos : 0 < lo

instance (c : Scene π) (s : FsState π) (lo : Nat) : Decidable (c.Start s lo) :=
  decidable_of_iff _ (Scene.start_iff c s lo).symm

/-- The run can start from a checked first state with room on the disk. -/
theorem Scene.Start.inv {c : Scene π} {lo L : Nat} (h : c.Start s lo) (hlo : lo ≤ L + 4)
    (hroom : L + 4 * maxFile + 2 ≤ fsSize) : c.Inv s 0 0 L where
  cwd_p := h.cwd_p
  cwd_q := h.cwd_q
  held_a := h.held_a
  held_b := h.held_b
  held_f := h.held_f
  file := h.file
  nlink := h.nlink
  filled_a := h.fresh_a.filled
  filled_b := h.fresh_b.filled
  disj _ ha hb := h.apart ((h.fresh_a.dirBlocks ha).symm.trans (h.fresh_b.dirBlocks hb))
  used := ⟨lo, h.used, h.lo_pos, hlo⟩
  room := hroom

end Start

/-! ## From mkfs to the panic -/

/-- From the image with no input files: process 0 makes "/a" and "/b",
creates "/a/f" and keeps it open, and links it as "/b/g"; processes 1 and 2
enter "/a" and "/b". -/
def linkStart : List (Op (Fin 3)) :=
  [.sysMkdir 0 ['/', 'a'], .sysMkdir 0 ['/', 'b'], .sysOpen 0 ['/', 'a', '/', 'f'] oCreate,
    .sysLink 0 ['/', 'a', '/', 'f'] ['/', 'b', '/', 'g'], .sysChdir 1 ['/', 'a'], .sysChdir 2 ['/', 'b']]

/-- The actors after `linkStart`: "/a" is inode 2 in entry 1 of the inode
table, "/b" inode 3 in entry 3, and "/a/f" inode 4 in entry 2. -/
def startScene : Scene (Fin 3) where
  p := 1
  q := 2
  a := 1
  b := 3
  f := 2
  aI := 2
  bI := 3
  fI := 4
  na := 'f'
  nb := 'g'
  ab := by decide
  af := by decide
  bf := by decide
  fI_pos := by decide
  fI_lt := by decide
  na_ne := by decide
  nb_ne := by decide

/-- From mkfs with no input files, after `linkStart`, 17149 links of "f" in
"/a" to new names and 15617 of "g" in "/b": every call completes, the file
has 32768 names and the link count -32768, and `unlink("f")` in "/a" panics. -/
theorem unlink_panics_after_nlink_wraps :
    ∃ img, mkfs [] = some img ∧ ∃ s : FsState (Fin 3),
      run (fsSystem 0 img) (initFs img) (linkStart ++ linksIn 1 'f' 17149 ++ linksIn 2 'g' 15617) = .ok s ∧
      Reachable (fsSystem 0 img) s ∧ (s.itable 2).inum = 4 ∧ (s.itable 2).d.nlink = -32768 ∧
      step 0 s (.sysUnlink 1 ['f']) = .panic "unlink: nlink < 1" := by
  have hstart : (mkfs []).map (fun img => (run (fsSystem (0 : Fin 3) img) (initFs img) linkStart).get?.map
      fun s => decide (startScene.Start s 49)) = some (some true) := by
    decide +kernel
  obtain ⟨img, himg, h⟩ := Option.map_eq_some_iff.1 hstart
  obtain ⟨s₀, hs₀, hP⟩ := Option.map_eq_some_iff.1 h
  have hinv : startScene.Inv s₀ 0 0 45 := (of_decide_eq_true hP).inv (by decide) (by decide)
  obtain ⟨s, hrun, hinv', hwrap, hpanic⟩ := hinv.run_panics (by decide) 0 img
  have hrun' : run (fsSystem 0 img) (initFs img) (linkStart ++ linksIn 1 'f' 17149 ++ linksIn 2 'g' 15617) =
      .ok s := by
    rw [List.append_assoc, run_append_of_ok (Result.get?_eq_some.1 hs₀)]
    exact hrun
  exact ⟨img, himg, s, hrun', reachable_of_run .init _ _ hrun', hinv'.held_f.inum, hwrap, hpanic⟩

end Xv6.Fs
