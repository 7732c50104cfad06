import Mathlib
import Xv6.Fs.Mkfs
import Xv6.Lib.Post

/-
  Xv6/Fs/Refs.lean --- every reference on an inode or an open file has a holder.

  An entry of `itable` counts its references in `ref`, and so does an entry of
  `ftable`.  Outside a system call the references on an inode are exactly the
  open files that point at it and the processes whose current directory it
  is, and the references on an open file are exactly the descriptors that
  point at it (`Counted`).  So nothing leaks, and nothing is given back twice:
  an entry that no file and no process uses has `ref = 0`, and `iget` may
  recycle it.

  Inside a call the counts are off by what the call is doing: `namei` hands
  back an inode whose reference the caller now holds, and `exit` drops the
  reference of a descriptor with `fileclose` before it clears the descriptor.
  `Refs s held taken closed` keeps that ledger: `held` are the inode
  references the call holds, `taken` the file references it holds with no
  descriptor yet, and `closed` the descriptors whose reference it has already
  given back.  Each function of fs.c, file.c and sysfile.c gets one lemma that
  says how it moves the ledger, stated as a postcondition
  (`Machine.Result.Post`); a system call starts and ends with an empty one,
  so every reachable state of `fsSystem` is `Counted` (`refs_counted`).
-/

set_option autoImplicit false

namespace Xv6.Fs

open Machine

variable {π : Type}

/-! ## The ledger -/

/-- The open files with a reference whose inode is the `itable` entry `i`. -/
def fileHolders (s : FsState π) (i : Fin nInode) : Finset (Fin nFile) :=
  Finset.univ.filter fun f => 0 < (s.ftable f).ref ∧ (s.ftable f).ip = some i

/-- The reference a lookup hands back with its result: one on the inode it
returns. -/
def found : Option (Fin nInode) → Multiset (Fin nInode)
  | none => 0
  | some i => {i}

@[simp] theorem found_none_add (m : Multiset (Fin nInode)) : found none + m = m :=
  zero_add m

@[simp] theorem found_some_add (i : Fin nInode) (m : Multiset (Fin nInode)) :
    found (some i) + m = i ::ₘ m :=
  Multiset.singleton_add i m

section Holders

variable [Fintype π]

/-- The processes whose current directory is the `itable` entry `i`. -/
def cwdHolders (s : FsState π) (i : Fin nInode) : Finset π :=
  Finset.univ.filter fun p => s.cwd p = some i

/-- The descriptors, of every process, that point at the open file `f`. -/
def fdHolders (s : FsState π) (f : Fin nFile) : Finset (π × Fin noFile) :=
  Finset.univ.filter fun x => s.ofile x.1 x.2 = some f

/-- Every reference has a holder, up to what the call in progress holds:
`held` inode references it has taken, `taken` file references it has taken
with no descriptor yet, and `closed` file references it has given back whose
descriptor it has not cleared yet.  The current directories are still `cw`,
those the call started with. -/
@[mk_iff]
structure Refs (cw : π → Option (Fin nInode)) (s : FsState π) (held : Multiset (Fin nInode))
    (taken closed : Multiset (Fin nFile)) : Prop where
  inode : ∀ i, (s.itable i).ref = (fileHolders s i).card + (cwdHolders s i).card + held.count i
  file : ∀ f, (s.ftable f).ref + closed.count f = (fdHolders s f).card + taken.count f
  cwd : s.cwd = cw

instance [DecidableEq π] (cw : π → Option (Fin nInode)) (s : FsState π) (held : Multiset (Fin nInode))
    (taken closed : Multiset (Fin nFile)) : Decidable (Refs cw s held taken closed) :=
  decidable_of_iff _ (refs_iff cw s held taken closed).symm

/-- Outside a call every reference on an inode or an open file has a holder. -/
def Counted (s : FsState π) : Prop :=
  Refs s.cwd s 0 0 0

instance [DecidableEq π] (s : FsState π) : Decidable (Counted s) :=
  inferInstanceAs (Decidable (Refs s.cwd s 0 0 0))

end Holders

/-! ## Steps that keep the references -/

/-- `s'` has the reference counts, open files, descriptors and current
directories of `s`. -/
structure Keeps (s s' : FsState π) : Prop where
  ref : ∀ i, (s'.itable i).ref = (s.itable i).ref
  ftable : s'.ftable = s.ftable
  ofile : s'.ofile = s.ofile
  cwd : s'.cwd = s.cwd

/-- `s'` is `s` with the count of entry `i` set to `r`, and every other part
of the ledger unchanged. -/
structure Recount (s s' : FsState π) (i : Fin nInode) (r : Nat) : Prop where
  ref_self : (s'.itable i).ref = r
  ref_of_ne : ∀ j, j ≠ i → (s'.itable j).ref = (s.itable j).ref
  ftable : s'.ftable = s.ftable
  ofile : s'.ofile = s.ofile
  cwd : s'.cwd = s.cwd

section Keeps

variable {s s₁ s₂ : FsState π}

theorem Keeps.refl (s : FsState π) : Keeps s s :=
  ⟨fun _ => rfl, rfl, rfl, rfl⟩

theorem Keeps.trans (h₁ : Keeps s s₁) (h₂ : Keeps s₁ s₂) : Keeps s s₂ :=
  ⟨fun i => (h₂.ref i).trans (h₁.ref i), h₂.ftable.trans h₁.ftable, h₂.ofile.trans h₁.ofile,
    h₂.cwd.trans h₁.cwd⟩

/-- A change of the disk, the bitmap or the blocks keeps the references. -/
theorem keeps_of_itable (h : s₁.itable = s.itable) (hf : s₁.ftable = s.ftable)
    (ho : s₁.ofile = s.ofile) (hc : s₁.cwd = s.cwd) : Keeps s s₁ :=
  ⟨fun i => by rw [h], hf, ho, hc⟩

theorem keeps_updI (s : FsState π) (ip : Fin nInode) {f : Inode → Inode} (hf : ∀ e, (f e).ref = e.ref) :
    Keeps s (s.updI ip f) where
  ref i := by
    by_cases h : i = ip
    · subst h
      rw [FsState.updI_itable_self, hf]
    · rw [FsState.updI_itable_of_ne _ _ h]
  ftable := rfl
  ofile := rfl
  cwd := rfl

theorem keeps_setAddr (s : FsState π) (ip : Fin nInode) (k addr : Nat) : Keeps s (s.setAddr ip k addr) :=
  keeps_updI s ip fun _ => rfl

theorem keeps_updD (s : FsState π) (ip : Fin nInode) (f : DInode → DInode) : Keeps s (s.updD ip f) :=
  keeps_updI s ip fun _ => rfl

theorem keeps_iupdate (s : FsState π) (ip : Fin nInode) : Keeps s (iupdate s ip) :=
  keeps_of_itable rfl rfl rfl rfl

theorem keeps_balloc (s : FsState π) : Keeps s (balloc s).1 := by
  unfold balloc
  split
  · exact keeps_of_itable rfl rfl rfl rfl
  · exact Keeps.refl s

theorem keeps_bfree (s : FsState π) (b : Nat) : (bfree s b).Post (Keeps s) := by
  unfold bfree
  split_ifs
  · exact .panic _
  · exact .ok (keeps_of_itable rfl rfl rfl rfl)

theorem keeps_allocAddr (s : FsState π) (ip : Fin nInode) (k : Nat) : Keeps s (allocAddr s ip k).1 := by
  unfold allocAddr
  split_ifs
  · have hb := keeps_balloc s
    split
    rename_i s₁ addr hbal
    rw [hbal] at hb
    split_ifs
    · exact hb
    · exact hb.trans (keeps_setAddr s₁ ip k addr)
  · exact Keeps.refl s

theorem keeps_bmapIndirect (s : FsState π) (ip : Fin nInode) (bn : Nat) :
    Keeps s (bmapIndirect s ip bn).1 := by
  unfold bmapIndirect
  have ha := keeps_allocAddr s ip nDirect
  split
  rename_i s₁ ind hal
  rw [hal] at ha
  split_ifs
  · exact ha
  · have hb := keeps_balloc s₁
    split
    rename_i s₂ addr hbal
    rw [hbal] at hb
    split_ifs
    · exact ha.trans hb
    · exact ha.trans (hb.trans (keeps_of_itable rfl rfl rfl rfl))
  · exact ha

theorem keeps_bmap (s : FsState π) (ip : Fin nInode) (bn : Nat) :
    (bmap s ip bn).Post fun r => Keeps s r.1 := by
  unfold bmap
  split_ifs
  · exact .ok (keeps_allocAddr s ip bn)
  · exact .ok (keeps_bmapIndirect s ip _)
  · exact .panic _

/-- `itrunc` frees blocks and changes the size, and no count. -/
theorem keeps_itrunc (s : FsState π) (ip : Fin nInode) : (itrunc s ip).Post (Keeps s) := by
  unfold itrunc
  -- the direct blocks, then the indirect block, then the size
  refine .bind (.foldlM (Keeps s) _ s (Keeps.refl s) fun t i _ ht => ?_) fun s₁ h₁ => ?_
  · split_ifs
    · exact .bind (keeps_bfree t _) fun t' h' => .pure (ht.trans (h'.trans (keeps_setAddr t' ip i 0)))
    · exact .pure ht
  · have hsize : ∀ t, Keeps s t →
        Keeps s (iupdate (t.updI ip fun e => { e with d := { e.d with size := 0 } }) ip) :=
      fun t ht => ht.trans (Keeps.trans (keeps_updI t ip fun _ => by rfl) (keeps_iupdate _ ip))
    dsimp only
    split_ifs
    · refine .bind (.foldlM (Keeps s) _ s₁ h₁ fun t j _ ht => ?_) fun s₃ h₃ =>
        .bind (keeps_bfree s₃ _) fun s₄ h₄ => .pure (hsize _ ((h₃.trans h₄).trans (keeps_setAddr s₄ ip nDirect 0)))
      split_ifs
      · exact (keeps_bfree t _).mono fun t' h' => ht.trans h'
      · exact .pure ht
    · exact .pure (hsize s₁ h₁)

theorem keeps_ilock (s : FsState π) (ip : Fin nInode) : (ilock s ip).Post (Keeps s) := by
  unfold ilock
  dsimp only
  split_ifs
  · exact .panic _
  · exact .ok (Keeps.refl s)
  · exact .panic _
  · exact .ok (keeps_updI s ip fun _ => rfl)

theorem keeps_readi (s : FsState π) (ip : Fin nInode) (off : Nat) :
    (readi s ip off).Post fun r => Keeps s r.1 := by
  unfold readi
  dsimp only
  split_ifs
  · exact .ok (Keeps.refl s)
  · exact .ok (Keeps.refl s)
  · refine .bind (keeps_bmap s ip _) ?_
    rintro ⟨s₁, addr⟩ h₁
    dsimp only at h₁ ⊢
    split_ifs
    · exact .pure h₁
    · exact .pure h₁

theorem keeps_writei (s : FsState π) (ip : Fin nInode) (de : Dirent) (off : Nat) :
    (writei s ip de off).Post fun r => Keeps s r.1 := by
  unfold writei
  split_ifs
  · exact .ok (Keeps.refl s)
  · exact .ok (Keeps.refl s)
  · refine .bind (keeps_bmap s ip _) ?_
    rintro ⟨s₁, addr⟩ h₁
    dsimp only at h₁ ⊢
    -- the block write, then the size, then `iupdate`
    by_cases ha : addr = 0
    · rw [if_pos ha]
      dsimp only
      refine .pure (h₁.trans (Keeps.trans ?_ (keeps_iupdate _ ip)))
      split_ifs
      · exact keeps_updI s₁ ip fun _ => rfl
      · exact Keeps.refl s₁
    · rw [if_neg ha]
      dsimp only
      refine .pure (h₁.trans (Keeps.trans ?_ (keeps_iupdate _ ip)))
      split_ifs
      · refine Keeps.trans ?_ (keeps_updI _ ip fun _ => by rfl)
        exact keeps_of_itable rfl rfl rfl rfl
      · exact keeps_of_itable rfl rfl rfl rfl

end Keeps

/-! ## Steps that take or give back one reference -/

section Recount

variable {s s₁ s₂ : FsState π} {i : Fin nInode} {r : Nat}

theorem recount_updI (s : FsState π) (ip : Fin nInode) (f : Inode → Inode) :
    Recount s (s.updI ip f) ip (f (s.itable ip)).ref where
  ref_self := by rw [FsState.updI_itable_self]
  ref_of_ne _ h := by rw [FsState.updI_itable_of_ne _ _ h]
  ftable := rfl
  ofile := rfl
  cwd := rfl

theorem Keeps.recount (hk : Keeps s s₁) (h : Recount s₁ s₂ i r) : Recount s s₂ i r :=
  ⟨h.ref_self, fun j hj => (h.ref_of_ne j hj).trans (hk.ref j), h.ftable.trans hk.ftable,
    h.ofile.trans hk.ofile, h.cwd.trans hk.cwd⟩

/-- `iget` takes a reference on the entry it returns: a cached entry's count
goes up by one, and a recycled entry had none. -/
theorem recount_iget (s : FsState π) (dev inum : Nat) :
    (iget s dev inum).Post fun r => Recount s r.1 r.2 ((s.itable r.2).ref + 1) := by
  unfold iget
  split
  · rename_i i _
    refine .ok ?_
    dsimp only
    exact recount_updI s i _
  · split
    · rename_i i hi
      have h0 : (s.itable i).ref = 0 := by simpa using List.find?_some hi
      refine .ok ?_
      dsimp only
      rw [h0]
      exact recount_updI s i _
    · exact .panic _

theorem recount_idup (s : FsState π) (ip : Fin nInode) :
    Recount s (idup s ip) ip ((s.itable ip).ref + 1) :=
  recount_updI s ip _

/-- `iput` gives back one reference; freeing an unlinked inode on the last one
changes no count. -/
theorem recount_iput (s : FsState π) (ip : Fin nInode) :
    (iput s ip).Post fun s' => Recount s s' ip ((s.itable ip).ref - 1) := by
  unfold iput
  dsimp only
  -- whether or not the inode is freed, the count goes down last
  have hlast : ∀ t, Keeps s t →
      Recount s (t.updI ip fun e => { e with ref := e.ref - 1 }) ip ((s.itable ip).ref - 1) := by
    intro t ht
    have h := recount_updI t ip fun e => { e with ref := e.ref - 1 }
    rw [ht.ref] at h
    exact ht.recount h
  split_ifs
  · refine .bind (keeps_itrunc s ip) fun t₁ h₁ => .bind (P := Keeps s) (.pure ?_) fun t₂ h₂ => .pure (hlast t₂ h₂)
    refine h₁.trans (Keeps.trans ?_ (keeps_updI _ ip fun _ => by rfl))
    exact Keeps.trans (keeps_updI _ ip fun _ => by rfl) (keeps_iupdate _ ip)
  · exact .bind (P := Keeps s) (.pure (Keeps.refl s)) fun t ht => .pure (hlast t ht)

end Recount

/-! ## Moving the ledger -/

section Ledger

variable [Fintype π] {cw : π → Option (Fin nInode)} {s s' : FsState π} {held : Multiset (Fin nInode)}
  {taken closed : Multiset (Fin nFile)}

omit [Fintype π] in
theorem fileHolders_congr (h : s'.ftable = s.ftable) (i : Fin nInode) :
    fileHolders s' i = fileHolders s i := by
  unfold fileHolders
  rw [h]

theorem cwdHolders_congr (h : s'.cwd = s.cwd) (i : Fin nInode) : cwdHolders s' i = cwdHolders s i := by
  unfold cwdHolders
  rw [h]

theorem fdHolders_congr (h : s'.ofile = s.ofile) (f : Fin nFile) : fdHolders s' f = fdHolders s f := by
  unfold fdHolders
  rw [h]

theorem count_found (r : Option (Fin nInode)) (i : Fin nInode) :
    (found r).count i = if r = some i then 1 else 0 := by
  cases r with
  | none => simp [found]
  | some j => simp [found, Multiset.count_singleton, eq_comm]

omit [Fintype π] in
/-- Replacing the open file `f` by `F` changes the files on an inode by what
the two point at. -/
theorem fileHolders_update_card (s : FsState π) (f : Fin nFile) (F : File) (i : Fin nInode) :
    (fileHolders { s with ftable := Function.update s.ftable f F } i).card +
        (if 0 < (s.ftable f).ref ∧ (s.ftable f).ip = some i then 1 else 0) =
      (fileHolders s i).card + (if 0 < F.ref ∧ F.ip = some i then 1 else 0) :=
  card_filter_update_add s.ftable f F fun F => 0 < F.ref ∧ F.ip = some i

theorem cwdHolders_update_card [DecidableEq π] (s : FsState π) (p : π) (X : Option (Fin nInode))
    (i : Fin nInode) :
    (cwdHolders { s with cwd := Function.update s.cwd p X } i).card + (if s.cwd p = some i then 1 else 0) =
      (cwdHolders s i).card + (if X = some i then 1 else 0) :=
  card_filter_update_add s.cwd p X fun c => c = some i

/-- Pointing descriptor `fd` of process `p` at `v` changes the descriptors of
a file by what it pointed at and points at. -/
theorem fdHolders_update_card [DecidableEq π] (s : FsState π) (p : π) (fd : Fin noFile)
    (v : Option (Fin nFile)) (f : Fin nFile) :
    (fdHolders { s with ofile := Function.update s.ofile p (Function.update (s.ofile p) fd v) } f).card +
        (if s.ofile p fd = some f then 1 else 0) =
      (fdHolders s f).card + (if v = some f then 1 else 0) := by
  -- a descriptor is a pair, and the two updates are one update of the pair
  have hpair : (fun x : π × Fin noFile => Function.update s.ofile p (Function.update (s.ofile p) fd v) x.1 x.2) =
      Function.update (fun x : π × Fin noFile => s.ofile x.1 x.2) (p, fd) v := by
    funext ⟨q, g⟩
    by_cases hq : q = p
    · subst hq
      by_cases hg : g = fd
      · subst hg
        simp
      · simp [hg]
    · simp [hq]
  have h := card_filter_update_add (fun x : π × Fin noFile => s.ofile x.1 x.2) (p, fd) v fun o => o = some f
  rw [← hpair] at h
  exact h

theorem Refs.keeps (h : Refs cw s held taken closed) (hk : Keeps s s') : Refs cw s' held taken closed where
  inode i := by rw [hk.ref, h.inode, fileHolders_congr hk.ftable, cwdHolders_congr hk.cwd]
  file f := by rw [hk.ftable, h.file, fdHolders_congr hk.ofile]
  cwd := hk.cwd.trans h.cwd

/-- A reference the call takes goes into `held`. -/
theorem Refs.take (h : Refs cw s held taken closed) {i : Fin nInode} (hr : Recount s s' i ((s.itable i).ref + 1)) :
    Refs cw s' (i ::ₘ held) taken closed where
  inode j := by
    rw [fileHolders_congr hr.ftable, cwdHolders_congr hr.cwd, Multiset.count_cons]
    by_cases hj : j = i
    · subst hj
      rw [hr.ref_self, h.inode, if_pos rfl]
      omega
    · rw [hr.ref_of_ne j hj, h.inode, if_neg hj, Nat.add_zero]
  file f := by rw [hr.ftable, h.file, fdHolders_congr hr.ofile]
  cwd := hr.cwd.trans h.cwd

/-- A reference the call gives back comes out of `held`. -/
theorem Refs.give {i : Fin nInode} (h : Refs cw s (i ::ₘ held) taken closed)
    (hr : Recount s s' i ((s.itable i).ref - 1)) : Refs cw s' held taken closed where
  inode j := by
    have hj := h.inode j
    rw [fileHolders_congr hr.ftable, cwdHolders_congr hr.cwd]
    by_cases hji : j = i
    · subst hji
      rw [Multiset.count_cons_self] at hj
      rw [hr.ref_self, hj]
      omega
    · rw [Multiset.count_cons_of_ne hji] at hj
      rw [hr.ref_of_ne j hji, hj]
  file f := by rw [hr.ftable, h.file, fdHolders_congr hr.ofile]
  cwd := hr.cwd.trans h.cwd

/-- Giving back the reference of process `p`'s current directory `c` and
making `X` its current directory: the reference on `X` comes out of `held`. -/
theorem Refs.give_cwd [DecidableEq π] {X : Option (Fin nInode)} {p : π} {c : Fin nInode}
    (h : Refs cw s (found X + held) taken closed) (hc : cw p = some c)
    (hr : Recount s s' c ((s.itable c).ref - 1)) :
    Refs (Function.update cw p X) { s' with cwd := Function.update s'.cwd p X } held taken closed where
  inode j := by
    have hcard := cwdHolders_update_card s' p X j
    have hc' : s'.cwd p = some c := by rw [hr.cwd, h.cwd]; exact hc
    rw [hc', cwdHolders_congr hr.cwd] at hcard
    have hj := h.inode j
    rw [Multiset.count_add, count_found] at hj
    show (s'.itable j).ref = (fileHolders s' j).card + _ + _
    rw [fileHolders_congr hr.ftable]
    by_cases hjc : j = c
    · subst hjc
      rw [hr.ref_self]
      rw [if_pos rfl] at hcard
      split_ifs at hcard hj <;> omega
    · have hne : ¬some c = some j := fun hcj => hjc (Option.some.inj hcj).symm
      rw [hr.ref_of_ne j hjc]
      rw [if_neg hne] at hcard
      split_ifs at hcard hj <;> omega
  file f := by
    show (s'.ftable f).ref + _ = (fdHolders s' f).card + _
    rw [hr.ftable, h.file, fdHolders_congr hr.ofile]
  cwd := by
    show Function.update s'.cwd p X = _
    rw [hr.cwd, h.cwd]

theorem Refs.iput {i : Fin nInode} (h : Refs cw s (i ::ₘ held) taken closed) :
    (iput s i).Post (Refs cw · held taken closed) :=
  (recount_iput s i).mono fun _ hr => h.give hr

theorem Refs.iunlockput {i : Fin nInode} (h : Refs cw s (i ::ₘ held) taken closed) :
    (iunlockput s i).Post (Refs cw · held taken closed) :=
  h.iput

theorem Refs.ilock (h : Refs cw s held taken closed) (i : Fin nInode) :
    (ilock s i).Post (Refs cw · held taken closed) :=
  (keeps_ilock s i).mono fun _ hk => h.keeps hk

theorem Refs.itrunc (h : Refs cw s held taken closed) (i : Fin nInode) :
    (itrunc s i).Post (Refs cw · held taken closed) :=
  (keeps_itrunc s i).mono fun _ hk => h.keeps hk

/-- Changing the dinode fields of an entry and writing them back keeps the
ledger. -/
theorem Refs.updD_iupdate (h : Refs cw s held taken closed) (ip : Fin nInode) (f : DInode → DInode) :
    Refs cw (iupdate (s.updD ip f) ip) held taken closed :=
  h.keeps ((keeps_updD s ip f).trans (keeps_iupdate _ ip))

theorem Refs.writei (h : Refs cw s held taken closed) (ip : Fin nInode) (de : Dirent) (off : Nat) :
    (writei s ip de off).Post fun r => Refs cw r.1 held taken closed :=
  (keeps_writei s ip de off).mono fun _ hk => h.keeps hk

end Ledger

/-! ## Directories and path names -/

section Dir

variable {s : FsState π}

theorem keeps_dirlinkScan (dp : Fin nInode) (endOff : Nat) :
    ∀ (offs : List Nat) (s : FsState π), (dirlinkScan dp s offs endOff).Post fun r => Keeps s r.1
  | [], s => .ok (Keeps.refl s)
  | off :: offs, s => by
    rw [dirlinkScan]
    refine .bind (keeps_readi s dp off) ?_
    rintro ⟨s₁, de⟩ h₁
    cases de with
    | none => exact .panic _
    | some de =>
      dsimp only at h₁ ⊢
      split_ifs
      · exact .pure h₁
      · exact (keeps_dirlinkScan dp endOff offs s₁).mono fun _ h₂ => h₁.trans h₂

theorem keeps_isdiremptyFrom (dp : Fin nInode) :
    ∀ (offs : List Nat) (s : FsState π), (isdiremptyFrom dp s offs).Post fun r => Keeps s r.1
  | [], s => .ok (Keeps.refl s)
  | off :: offs, s => by
    rw [isdiremptyFrom]
    refine .bind (keeps_readi s dp off) ?_
    rintro ⟨s₁, de⟩ h₁
    cases de with
    | none => exact .panic _
    | some de =>
      dsimp only at h₁ ⊢
      split_ifs
      · exact .pure h₁
      · exact (keeps_isdiremptyFrom dp offs s₁).mono fun _ h₂ => h₁.trans h₂

theorem keeps_isdirempty (s : FsState π) (dp : Fin nInode) :
    (isdirempty s dp).Post fun r => Keeps s r.1 :=
  keeps_isdiremptyFrom dp _ s

variable [Fintype π] {cw : π → Option (Fin nInode)} {held : Multiset (Fin nInode)} {taken closed : Multiset (Fin nFile)}

/-- A lookup that finds the name hands back a reference on what it found. -/
theorem Refs.dirlookupFrom (dp : Fin nInode) (name : Name) :
    ∀ (offs : List Nat) {s : FsState π}, Refs cw s held taken closed →
      (dirlookupFrom dp name s offs).Post fun r => Refs cw r.1 (found (r.2.map Prod.fst) + held) taken closed
  | [], s, h => .ok (by simpa using h)
  | off :: offs, s, h => by
    rw [Fs.dirlookupFrom]
    refine .bind (keeps_readi s dp off) ?_
    rintro ⟨s₁, de⟩ h₁
    cases de with
    | none => exact .panic _
    | some de =>
      dsimp only at h₁ ⊢
      split_ifs
      · exact Refs.dirlookupFrom dp name offs (h.keeps h₁)
      · refine .bind (recount_iget s₁ _ _) ?_
        rintro ⟨s₂, ip⟩ h₂
        refine .pure ?_
        simpa using (h.keeps h₁).take h₂
      · exact Refs.dirlookupFrom dp name offs (h.keeps h₁)

theorem Refs.dirlookup (h : Refs cw s held taken closed) (dp : Fin nInode) (name : Name) :
    (dirlookup s dp name).Post fun r => Refs cw r.1 (found (r.2.map Prod.fst) + held) taken closed := by
  unfold Fs.dirlookup
  split_ifs
  · exact .panic _
  · exact Refs.dirlookupFrom dp name _ h

/-- `dirlink` gives back the reference of a name it finds present. -/
theorem Refs.dirlink (h : Refs cw s held taken closed) (dp : Fin nInode) (name : Name) (inum : Nat) :
    (dirlink s dp name inum).Post fun r => Refs cw r.1 held taken closed := by
  unfold Fs.dirlink
  refine .bind (h.dirlookup dp name) ?_
  rintro ⟨s₁, r⟩ h₁
  dsimp only at h₁ ⊢
  cases r with
  | some x =>
    obtain ⟨ip, _⟩ := x
    simp only [Option.map_some, found_some_add] at h₁
    exact .bind h₁.iput fun _ h₂ => .pure h₂
  | none =>
    simp only [Option.map_none, found_none_add] at h₁
    refine .bind (keeps_dirlinkScan dp _ _ s₁) ?_
    rintro ⟨s₂, off⟩ h₂
    exact .bind ((h₁.keeps h₂).writei dp _ off) fun _ h₃ => .pure h₃

/-- The walk holds a reference on the directory it is in, and hands back one
on where it ends. -/
theorem Refs.namexLoop (parent : Bool) (path : List Char) :
    ∀ (s : FsState π) (ip : Fin nInode) (name : Name), Refs cw s (ip ::ₘ held) taken closed →
      (namexLoop parent s ip path name).Post fun r => Refs cw r.1 (found (r.2.map Prod.fst) + held) taken closed := by
  -- by induction on the length of the path, the measure `namexLoop` recurses on
  induction' hn : path.length using Nat.strong_induction_on with n ih generalizing path
  intro s ip name h
  rw [Fs.namexLoop]
  split
  · split_ifs
    · exact .bind h.iput fun _ h₁ => .pure (by simpa using h₁)
    · exact .pure (by simpa using h)
  · rename_i elem rest hskip
    refine .bind (h.ilock ip) fun s₁ h₁ => ?_
    split_ifs
    · exact .bind h₁.iunlockput fun _ h₂ => .pure (by simpa using h₂)
    · exact .pure (by simpa using h₁)
    · refine .bind (h₁.dirlookup ip elem) ?_
      rintro ⟨s₂, r⟩ h₂
      dsimp only at h₂ ⊢
      cases r with
      | none =>
        simp only [Option.map_none, found_none_add] at h₂
        exact .bind h₂.iunlockput fun _ h₃ => .pure (by simpa using h₃)
      | some x =>
        obtain ⟨next, _⟩ := x
        -- the reference on `next` is taken before the one on `ip` is given back
        simp only [Option.map_some, found_some_add, Multiset.cons_swap next ip] at h₂
        exact .bind h₂.iunlockput fun s₃ h₃ =>
          ih rest.length (hn ▸ skipelem_length hskip) rest rfl s₃ next elem h₃

theorem Refs.namex (h : Refs cw s held taken closed) (cwd : Fin nInode) (path : List Char) (parent : Bool) :
    (namex s cwd path parent).Post fun r => Refs cw r.1 (found (r.2.map Prod.fst) + held) taken closed := by
  unfold Fs.namex
  dsimp only
  -- from the root or from the current directory, then the walk
  split_ifs
  · refine .bind ((recount_iget s _ _).mono fun _ hr => h.take hr) ?_
    rintro ⟨s₁, ip⟩ h₁
    exact Refs.namexLoop parent path s₁ ip [] h₁
  · refine .bind (P := fun r : FsState π × Fin nInode => Refs cw r.1 (r.2 ::ₘ held) taken closed)
      (.pure (h.take (recount_idup s cwd))) ?_
    rintro ⟨s₁, ip⟩ h₁
    exact Refs.namexLoop parent path s₁ ip [] h₁

theorem Refs.namei (h : Refs cw s held taken closed) (cwd : Fin nInode) (path : List Char) :
    (namei s cwd path).Post fun r => Refs cw r.1 (found r.2 + held) taken closed := by
  unfold Fs.namei
  exact .bind (h.namex cwd path false) fun _ h₁ => .pure h₁

theorem Refs.nameiparent (h : Refs cw s held taken closed) (cwd : Fin nInode) (path : List Char) :
    (nameiparent s cwd path).Post fun r => Refs cw r.1 (found (r.2.map Prod.fst) + held) taken closed :=
  h.namex cwd path true

/-- `ialloc` hands back a reference on the inode it allocates. -/
theorem Refs.ialloc (h : Refs cw s held taken closed) (dev : Nat) (type : IType) :
    (ialloc s dev type).Post fun r => Refs cw r.1 (found r.2 + held) taken closed := by
  unfold Fs.ialloc
  split
  · refine .bind (recount_iget _ dev _) ?_
    rintro ⟨s₁, ip⟩ h₁
    refine .pure ?_
    dsimp only
    rw [found_some_add]
    refine Refs.take ?_ h₁
    exact h.keeps (keeps_of_itable rfl rfl rfl rfl)
  · exact .ok (by simpa using h)

end Dir

/-! ## The calls that name files -/

section Naming

variable [Fintype π] {cw : π → Option (Fin nInode)} {s : FsState π} {held : Multiset (Fin nInode)}
  {taken closed : Multiset (Fin nFile)}

theorem Refs.createEntries (h : Refs cw s held taken closed) (dp ip : Fin nInode) (name : Name) (type : IType) :
    (createEntries s dp ip name type).Post fun r => Refs cw r.1 held taken closed := by
  unfold Fs.createEntries
  extract_lets +lift k
  -- the link of the name, after the links of a new directory
  have hk : ∀ r : FsState π × Bool, Refs cw r.1 held taken closed →
      (k r).Post fun r => Refs cw r.1 held taken closed := by
    rintro ⟨s₁, ok⟩ h₁
    simp only [k]
    split_ifs
    · exact .bind (h₁.dirlink dp name _) fun _ h₂ => .pure h₂
    · exact .pure h₁
  clear_value k
  split_ifs
  · refine .bind (h.dirlink ip _ _) ?_
    rintro ⟨s₁, r⟩ h₁
    dsimp only
    split_ifs
    · exact .bind (.pure h₁) hk
    · exact .bind (h₁.dirlink ip _ _) fun _ h₂ => .bind (.pure h₂) hk
  · exact .bind (.pure h) hk

/-- `create` hands back a reference on the inode it returns, and gives back
every other it takes. -/
theorem Refs.create (h : Refs cw s held taken closed) (cwd : Fin nInode) (path : List Char) (type : IType)
    (major minor : Int16) :
    (create s cwd path type major minor).Post fun r => Refs cw r.1 (found r.2 + held) taken closed := by
  unfold Fs.create
  refine .bind (h.nameiparent cwd path) ?_
  rintro ⟨s₁, r⟩ h₁
  cases r with
  | none => exact .pure (by simpa using h₁)
  | some x =>
    obtain ⟨dp, name⟩ := x
    simp only [Option.map_some, found_some_add] at h₁
    dsimp only
    refine .bind (h₁.ilock dp) fun s₂ h₂ => .bind (h₂.dirlookup dp name) ?_
    rintro ⟨s₃, r⟩ h₃
    cases r with
    | some x =>
      -- the name exists: the parent is given back, the entry returned or given back
      obtain ⟨ip, _⟩ := x
      simp only [Option.map_some, found_some_add, Multiset.cons_swap ip dp] at h₃
      refine .bind h₃.iunlockput fun s₄ h₄ => .bind (h₄.ilock ip) fun s₅ h₅ => ?_
      split_ifs
      · exact .pure (by simpa using h₅)
      · exact .bind h₅.iunlockput fun _ h₆ => .pure (by simpa using h₆)
    | none =>
      simp only [Option.map_none, found_none_add] at h₃
      refine .bind (h₃.ialloc _ type) ?_
      rintro ⟨s₄, r⟩ h₄
      cases r with
      | none =>
        simp only [found_none_add] at h₄
        exact .bind h₄.iunlockput fun _ h₅ => .pure (by simpa using h₅)
      | some ip =>
        simp only [found_some_add] at h₄
        refine .bind (h₄.ilock ip) fun s₅ h₅ => .bind ((h₅.updD_iupdate ip _).createEntries dp ip name type) ?_
        rintro ⟨s₇, linked⟩ h₇
        dsimp only at h₇ ⊢
        -- the parent is given back first, so it goes to the front of `held`
        rw [Multiset.cons_swap] at h₇
        split_ifs
        · exact .bind (h₇.updD_iupdate dp _).iunlockput fun _ h₈ => .pure (by simpa using h₈)
        · exact .bind h₇.iunlockput fun _ h₈ => .pure (by simpa using h₈)
        · -- the links failed: the new inode is given back with no links
          rw [Multiset.cons_swap] at h₇
          exact .bind (h₇.updD_iupdate ip _).iunlockput fun _ h₈ => .bind h₈.iunlockput fun _ h₉ =>
            .pure (by simpa using h₉)

theorem Refs.sysLink (h : Refs cw s held taken closed) (cwd : Fin nInode) (old new : List Char) :
    (sysLink s cwd old new).Post fun r => Refs cw r.1 held taken closed := by
  unfold Fs.sysLink
  refine .bind (h.namei cwd old) ?_
  rintro ⟨s₁, r⟩ h₁
  cases r with
  | none => exact .pure (by simpa using h₁)
  | some ip =>
    simp only [found_some_add] at h₁
    refine .bind (h₁.ilock ip) fun s₂ h₂ => ?_
    split_ifs
    · exact .bind h₂.iunlockput fun _ h₃ => .pure h₃
    · refine .bind ((h₂.updD_iupdate ip _).nameiparent cwd new) ?_
      rintro ⟨s₄, r⟩ h₄
      dsimp -zeta only
      extract_lets +lift k
      -- linked or not, the parent has been given back and `ip` is still held
      have hk : ∀ x : FsState π × Bool, Refs cw x.1 (ip ::ₘ held) taken closed →
          (k x).Post fun r => Refs cw r.1 held taken closed := by
        rintro ⟨s₅, linked⟩ h₅
        simp only [k]
        split_ifs
        · exact .bind h₅.iput fun _ h₆ => .pure h₆
        · exact .bind (h₅.ilock ip) fun s₆ h₆ => .bind (h₆.updD_iupdate ip _).iunlockput fun _ h₇ => .pure h₇
      clear_value k
      cases r with
      | none => exact .bind (.pure (by simpa using h₄)) hk
      | some x =>
        obtain ⟨dp, name⟩ := x
        simp only [Option.map_some, found_some_add] at h₄
        refine .bind (h₄.ilock dp) fun s₅ h₅ => ?_
        split_ifs
        · exact .bind h₅.iunlockput fun _ h₆ => .bind (.pure h₆) hk
        · refine .bind (h₅.dirlink dp name _) ?_
          rintro ⟨s₆, r⟩ h₆
          exact .bind h₆.iunlockput fun _ h₇ => .bind (.pure h₇) hk

theorem Refs.sysUnlink (h : Refs cw s held taken closed) (cwd : Fin nInode) (path : List Char) :
    (sysUnlink s cwd path).Post fun r => Refs cw r.1 held taken closed := by
  unfold Fs.sysUnlink
  refine .bind (h.nameiparent cwd path) ?_
  rintro ⟨s₁, r⟩ h₁
  cases r with
  | none => exact .pure (by simpa using h₁)
  | some x =>
    obtain ⟨dp, name⟩ := x
    simp only [Option.map_some, found_some_add] at h₁
    refine .bind (h₁.ilock dp) fun s₂ h₂ => ?_
    split_ifs
    · exact .bind h₂.iunlockput fun _ h₃ => .pure h₃
    · refine .bind (h₂.dirlookup dp name) ?_
      rintro ⟨s₃, r⟩ h₃
      cases r with
      | none =>
        simp only [Option.map_none, found_none_add] at h₃
        exact .bind h₃.iunlockput fun _ h₄ => .pure h₄
      | some x =>
        obtain ⟨ip, off⟩ := x
        simp only [Option.map_some, found_some_add] at h₃
        refine .bind (h₃.ilock ip) fun s₄ h₄ => ?_
        dsimp -zeta only
        split
        · exact .panic _
        · extract_lets +lift k
          -- empty or not, both references are given back
          have hk : ∀ x : FsState π × Bool, Refs cw x.1 (ip ::ₘ dp ::ₘ held) taken closed →
              (k x).Post fun r => Refs cw r.1 held taken closed := by
            rintro ⟨s₅, empty⟩ h₅
            simp only [k]
            split_ifs
            · exact .bind h₅.iunlockput fun _ h₆ => .bind h₆.iunlockput fun _ h₇ => .pure h₇
            · refine .bind (h₅.writei dp _ off) ?_
              rintro ⟨s₆, n⟩ h₆
              dsimp only
              -- the parent is given back before the entry
              rw [Multiset.cons_swap] at h₆
              split_ifs
              · exact .panic _
              · exact .bind (h₆.updD_iupdate dp _).iunlockput fun _ h₇ =>
                  .bind (h₇.updD_iupdate ip _).iunlockput fun _ h₈ => .pure h₈
              · exact .bind h₆.iunlockput fun _ h₇ => .bind (h₇.updD_iupdate ip _).iunlockput fun _ h₈ => .pure h₈
          clear_value k
          split_ifs
          · exact .bind ((keeps_isdirempty s₄ ip).mono fun _ hk' => h₄.keeps hk') hk
          · exact .bind (.pure h₄) hk

theorem Refs.sysMkdir (h : Refs cw s held taken closed) (cwd : Fin nInode) (path : List Char) :
    (sysMkdir s cwd path).Post fun r => Refs cw r.1 held taken closed := by
  unfold Fs.sysMkdir
  refine .bind (h.create cwd path .dir 0 0) ?_
  rintro ⟨s₁, r⟩ h₁
  cases r with
  | none => exact .pure (by simpa using h₁)
  | some ip =>
    simp only [found_some_add] at h₁
    exact .bind h₁.iunlockput fun _ h₂ => .pure h₂

theorem Refs.sysMknod (h : Refs cw s held taken closed) (cwd : Fin nInode) (path : List Char) (major minor : Int) :
    (sysMknod s cwd path major minor).Post fun r => Refs cw r.1 held taken closed := by
  unfold Fs.sysMknod
  refine .bind (h.create cwd path .device _ _) ?_
  rintro ⟨s₁, r⟩ h₁
  cases r with
  | none => exact .pure (by simpa using h₁)
  | some ip =>
    simp only [found_some_add] at h₁
    exact .bind h₁.iunlockput fun _ h₂ => .pure h₂

end Naming

/-! ## Open files and descriptors -/

section Files

variable {s s' : FsState π}

theorem filealloc_eq {f : Fin nFile} (h : filealloc s = some (s', f)) :
    (s.ftable f).ref = 0 ∧ s' = { s with ftable := Function.update s.ftable f { ref := 1, ip := none } } := by
  unfold filealloc at h
  split at h
  · rename_i g hg
    obtain ⟨rfl, rfl⟩ := Prod.mk.inj (Option.some.inj h)
    exact ⟨by simpa using List.find?_some hg, rfl⟩
  · cases h

theorem fdalloc_eq [DecidableEq π] {p : π} {f : Fin nFile} {fd : Fin noFile} (h : fdalloc s p f = some (s', fd)) :
    s.ofile p fd = none ∧
      s' = { s with ofile := Function.update s.ofile p (Function.update (s.ofile p) fd (some f)) } := by
  unfold fdalloc at h
  split at h
  · rename_i g hg
    obtain ⟨rfl, rfl⟩ := Prod.mk.inj (Option.some.inj h)
    exact ⟨by simpa using List.find?_some hg, rfl⟩
  · cases h

variable [Fintype π] {cw : π → Option (Fin nInode)} {held : Multiset (Fin nInode)}
  {taken closed : Multiset (Fin nFile)} {f : Fin nFile}

omit [Fintype π] in
/-- The call's reference on `f` counts at `g` as a descriptor on `some f` does. -/
theorem count_cons_eq_add (f g : Fin nFile) (m : Multiset (Fin nFile)) :
    (f ::ₘ m).count g = m.count g + if some f = some g then 1 else 0 := by
  rw [Multiset.count_cons]
  by_cases hg : g = f
  · subst hg
    simp
  · simp [hg, Ne.symm hg]

theorem Refs.self (h : Refs cw s held taken closed) : Refs s.cwd s held taken closed := by
  rw [h.cwd]
  exact h

/-- A reference the call both took and gave back on the same file is settled. -/
theorem Refs.cancel (h : Refs cw s held (f ::ₘ taken) (f ::ₘ closed)) : Refs cw s held taken closed where
  inode := h.inode
  file g := by
    have hg := h.file g
    rw [Multiset.count_cons, Multiset.count_cons] at hg
    omega
  cwd := h.cwd

/-- Pointing descriptor `fd` of `p` at `v` moves a reference between the
descriptors and the call, as `hcount` says. -/
theorem Refs.setOfile [DecidableEq π] (h : Refs cw s held taken closed) (p : π) (fd : Fin noFile)
    (v : Option (Fin nFile)) {taken' closed' : Multiset (Fin nFile)}
    (hcount : ∀ g, taken.count g + (if s.ofile p fd = some g then 1 else 0) + closed'.count g =
      taken'.count g + (if v = some g then 1 else 0) + closed.count g) :
    Refs cw { s with ofile := Function.update s.ofile p (Function.update (s.ofile p) fd v) } held taken' closed' where
  inode := h.inode
  file g := by
    have hcard := fdHolders_update_card s p fd v g
    have hg := h.file g
    have hc := hcount g
    show (s.ftable g).ref + _ = _ + _
    omega
  cwd := h.cwd

/-- A free descriptor pointed at `f` holds the reference the call took. -/
theorem Refs.setFd [DecidableEq π] (h : Refs cw s held (f ::ₘ taken) closed) {p : π} {fd : Fin noFile}
    (hfd : s.ofile p fd = none) :
    Refs cw { s with ofile := Function.update s.ofile p (Function.update (s.ofile p) fd (some f)) }
      held taken closed := by
  refine h.setOfile p fd (some f) fun g => ?_
  rw [hfd, count_cons_eq_add]
  simp

/-- Clearing a descriptor that pointed at `f` hands its reference to the
call. -/
theorem Refs.clearFd [DecidableEq π] (h : Refs cw s held taken closed) {p : π} {fd : Fin noFile}
    (hfd : s.ofile p fd = some f) :
    Refs cw { s with ofile := Function.update s.ofile p (Function.update (s.ofile p) fd none) }
      held (f ::ₘ taken) closed := by
  refine h.setOfile p fd none fun g => ?_
  rw [hfd, count_cons_eq_add]
  simp

/-- Clearing a descriptor whose reference the call already gave back settles
it. -/
theorem Refs.clearFd_closed [DecidableEq π] (h : Refs cw s held taken (f ::ₘ closed)) {p : π}
    {fd : Fin noFile} (hfd : s.ofile p fd = some f) :
    Refs cw { s with ofile := Function.update s.ofile p (Function.update (s.ofile p) fd none) }
      held taken closed := by
  refine h.setOfile p fd none fun g => ?_
  rw [hfd, count_cons_eq_add]
  simp
  omega

/-- Replacing the open file `f` by `F` moves references between the files,
the inodes they point at and the call, as `hinode` and `hfile` say. -/
theorem Refs.setFile (h : Refs cw s held taken closed) (f : Fin nFile) (F : File)
    {held' : Multiset (Fin nInode)} {taken' closed' : Multiset (Fin nFile)}
    (hinode : ∀ i, held'.count i + (if 0 < F.ref ∧ F.ip = some i then 1 else 0) =
      held.count i + (if 0 < (s.ftable f).ref ∧ (s.ftable f).ip = some i then 1 else 0))
    (hfile : ∀ g, (if g = f then F.ref else (s.ftable g).ref) + closed'.count g + taken.count g =
      (s.ftable g).ref + closed.count g + taken'.count g) :
    Refs cw { s with ftable := Function.update s.ftable f F } held' taken' closed' where
  inode i := by
    have hcard := fileHolders_update_card s f F i
    have hi := h.inode i
    have hc := hinode i
    show (s.itable i).ref = (fileHolders { s with ftable := Function.update s.ftable f F } i).card +
      (cwdHolders s i).card + _
    omega
  file g := by
    have hg := h.file g
    have hc := hfile g
    show (Function.update s.ftable f F g).ref + _ = (fdHolders s g).card + _
    rw [Function.update_apply]
    split_ifs at hc ⊢ <;> omega
  cwd := h.cwd

/-- `filealloc`'s file holds the reference the call took, with no descriptor
yet. -/
theorem Refs.allocFile (h : Refs cw s held taken closed) (h0 : (s.ftable f).ref = 0) :
    Refs cw { s with ftable := Function.update s.ftable f { ref := 1, ip := none } } held (f ::ₘ taken) closed := by
  refine h.setFile f _ (fun i => by simp [h0]) fun g => ?_
  by_cases hg : g = f
  · subst hg
    simp [h0]
    omega
  · simp [hg]

/-- Recording the inode of an open file passes the call's reference on it to
the file. -/
theorem Refs.setIp {i : Fin nInode} (h : Refs cw s (i ::ₘ held) taken closed) (hpos : 0 < (s.ftable f).ref)
    (hnone : (s.ftable f).ip = none) :
    Refs cw { s with ftable := Function.update s.ftable f { s.ftable f with ip := some i } } held taken closed := by
  refine h.setFile f _ (fun j => ?_) fun g => ?_
  · by_cases hj : j = i
    · subst hj
      simp [hpos, hnone]
    · simp [hnone, hj, Ne.symm hj]
  · by_cases hg : g = f
    · subst hg
      simp
    · simp [hg]

/-- Dropping one of several references on `f`: the file still holds its inode. -/
theorem Refs.decFile (h : Refs cw s held taken closed) (h1 : (s.ftable f).ref - 1 > 0) :
    Refs cw { s with ftable := Function.update s.ftable f { s.ftable f with ref := (s.ftable f).ref - 1 } }
      held taken (f ::ₘ closed) := by
  have hpos : 0 < (s.ftable f).ref := by omega
  refine h.setFile f _ (fun i => by simp [hpos, h1]) fun g => ?_
  by_cases hg : g = f
  · subst hg
    simp
    omega
  · simp [hg]

/-- Dropping the last reference on `f`: its reference on its inode, if any,
is now the call's to give back. -/
theorem Refs.freeFile (h : Refs cw s held taken closed) (h1 : (s.ftable f).ref = 1) :
    Refs cw { s with ftable := Function.update s.ftable f { ref := 0, ip := none } }
      (found (s.ftable f).ip + held) taken (f ::ₘ closed) := by
  refine h.setFile f _ (fun i => ?_) fun g => ?_
  · rw [Multiset.count_add, count_found, h1]
    simp only [Nat.lt_irrefl, false_and, if_false, zero_lt_one, true_and]
    omega
  · by_cases hg : g = f
    · subst hg
      simp [h1]
      omega
    · simp [hg]

/-- `fileclose` gives back one reference on `f`, and with the last one the
file's reference on its inode; the descriptors stay as they are. -/
theorem Refs.fileclose (h : Refs cw s held taken closed) (f : Fin nFile) :
    (fileclose s f).Post fun s' => Refs cw s' held taken (f ::ₘ closed) ∧ s'.ofile = s.ofile := by
  unfold Fs.fileclose
  split_ifs with h₀ h₁
  · exact .panic _
  · exact .ok ⟨h.decFile h₁, rfl⟩
  · have h₂ := h.freeFile (show (s.ftable f).ref = 1 by omega)
    dsimp only
    split
    · rename_i i hi
      rw [hi, found_some_add] at h₂
      exact (recount_iput _ i).mono fun _ hr => ⟨h₂.give hr, hr.ofile⟩
    · rename_i hi
      rw [hi, found_none_add] at h₂
      exact .ok ⟨h₂, rfl⟩

/-- `sys_open` ends with an open file on the inode it found or made, and a
descriptor on the file, or gives back what it took. -/
theorem Refs.sysOpen [DecidableEq π] (h : Refs cw s held taken closed) (p : π) (cwd : Fin nInode)
    (path : List Char) (omode : Nat) :
    (sysOpen s p cwd path omode).Post fun r => Refs cw r.1 held taken closed := by
  unfold Fs.sysOpen
  extract_lets +lift k
  -- the open file is made for the inode `create` or `namei` returned
  have hk : ∀ x : FsState π × Option (Fin nInode), Refs cw x.1 (found x.2 + held) taken closed →
      (k x).Post fun r => Refs cw r.1 held taken closed := by
    rintro ⟨s₁, r⟩ h₁
    simp only [k]
    cases r with
    | none => exact .pure (by simpa using h₁)
    | some ip =>
      simp only [found_some_add] at h₁
      dsimp only
      split_ifs
      · exact .bind h₁.iunlockput fun _ h₂ => .pure h₂
      · split
        · exact .bind h₁.iunlockput fun _ h₂ => .pure h₂
        · rename_i s₂ f hfa
          obtain ⟨h0, rfl⟩ := filealloc_eq hfa
          have h₂ := h₁.allocFile h0
          split
          · -- no descriptor: the file is closed again
            exact .bind (h₂.fileclose f) fun _ h₃ => .bind h₃.1.cancel.iunlockput fun _ h₄ => .pure h₄
          · rename_i s₃ fd hfd
            obtain ⟨hfree, rfl⟩ := fdalloc_eq hfd
            have h₄ := (h₂.setFd hfree).setIp (f := f) (by simp) (by simp)
            dsimp only
            split_ifs
            · exact .bind (h₄.itrunc ip) fun _ h₅ => .pure h₅
            · exact .pure h₄
  clear_value k
  split_ifs
  · exact .bind (h.create cwd path .file 0 0) hk
  · refine .bind (h.namei cwd path) ?_
    rintro ⟨s₁, r⟩ h₁
    cases r with
    | none => exact .bind (.pure h₁) hk
    | some ip =>
      simp only [found_some_add] at h₁
      refine .bind (h₁.ilock ip) fun s₂ h₂ => ?_
      split_ifs
      · exact .bind h₂.iunlockput fun _ h₃ => .bind (.pure (by simpa using h₃)) hk
      · exact .bind (.pure (by simpa using h₂)) hk

/-- `sys_chdir` gives back the old directory's reference and hands the one
`namei` took to the process. -/
theorem Refs.sysChdir [DecidableEq π] (h : Refs cw s held taken closed) (p : π) {cwd : Fin nInode}
    (hc : cw p = some cwd) (path : List Char) :
    (sysChdir s p cwd path).Post fun r => Refs r.1.cwd r.1 held taken closed := by
  unfold Fs.sysChdir
  refine .bind (h.namei cwd path) ?_
  rintro ⟨s₁, r⟩ h₁
  cases r with
  | none => exact .pure (by simpa using h₁.self)
  | some ip =>
    simp only [found_some_add] at h₁
    refine .bind (h₁.ilock ip) fun s₂ h₂ => ?_
    split_ifs
    · exact .bind h₂.iunlockput fun _ h₃ => .pure h₃.self
    · refine .bind (recount_iput s₂ cwd) fun s₃ hr => .pure ?_
      exact (Refs.give_cwd (X := some ip) (by simpa using h₂) hc hr).self

theorem Refs.sysClose [DecidableEq π] (h : Refs cw s held taken closed) (p : π) (fd : Int) :
    (sysClose s p fd).Post fun r => Refs cw r.1 held taken closed := by
  unfold Fs.sysClose
  split_ifs
  · dsimp only
    split
    · exact .ok h
    · rename_i f hf
      exact .bind ((h.clearFd hf).fileclose f) fun _ h₁ => .pure h₁.1.cancel
  · exact .ok h

/-- `exit` closes every descriptor of `p`, each after its file has given back
its reference, and gives back its current directory. -/
theorem Refs.exit [DecidableEq π] (h : Refs cw s held taken closed) (initproc p : π) :
    (exit s initproc p).Post fun s' => Refs s'.cwd s' held taken closed := by
  unfold Fs.exit
  split_ifs
  · exact .panic _
  · refine .bind (.foldlM (fun t => Refs cw t held taken closed) _ s h fun t fd _ ht => ?_) fun s₁ h₁ => ?_
    · split
      · rename_i f hf
        exact .bind (ht.fileclose f) fun _ h₂ => .pure (h₂.1.clearFd_closed (h₂.2 ▸ hf))
      · exact .pure ht
    · split
      · rename_i c hc
        refine .bind (recount_iput s₁ c) fun s₂ hr => .pure ?_
        exact (Refs.give_cwd (X := none) (by simpa using h₁) (h₁.cwd ▸ hc) hr).self
      · exact .pure h₁.self

end Files

/-! ## Every reachable state -/

section Run

variable [Fintype π] {s : FsState π}

/-- One call of the system keeps every reference with its holder. -/
theorem Counted.step [DecidableEq π] (h : Counted s) (initproc : π) (op : Op π) : (step initproc s op).Post Counted := by
  unfold Fs.step
  split
  · exact .wait
  · rename_i cwd hcwd
    cases op with
    | sysLink p old new => exact .bind (Refs.sysLink h cwd old new) fun _ h₁ => .pure h₁.self
    | sysUnlink p path => exact .bind (Refs.sysUnlink h cwd path) fun _ h₁ => .pure h₁.self
    | sysOpen p path omode => exact .bind (Refs.sysOpen h p cwd path omode) fun _ h₁ => .pure h₁.self
    | sysMkdir p path => exact .bind (Refs.sysMkdir h cwd path) fun _ h₁ => .pure h₁.self
    | sysMknod p path major minor => exact .bind (Refs.sysMknod h cwd path major minor) fun _ h₁ => .pure h₁.self
    | sysChdir p path => exact .bind (Refs.sysChdir h p hcwd path) fun _ h₁ => .pure h₁
    | sysClose p fd => exact .bind (Refs.sysClose h p fd) fun _ h₁ => .pure h₁.self
    | exit p => exact Refs.exit h initproc p

/-- At boot every process is in the root, which holds their references, and
nothing is open. -/
theorem counted_initFs (img : Image) : Counted (initFs img : FsState π) where
  inode i := by
    have hf : fileHolders (initFs img : FsState π) i = ∅ := by
      simp [fileHolders, initFs]
    rw [hf, Finset.card_empty, Nat.zero_add, Multiset.count_zero, Nat.add_zero]
    by_cases hi : i = 0
    · subst hi
      simp [initFs, cwdHolders]
    · simp [initFs, cwdHolders, hi, Ne.symm hi]
  file f := by simp [initFs, fdHolders]
  cwd := rfl

/-- **No reference is leaked or given back twice.**  In every state that
file-system calls of the processes `π` reach from an image, each `itable`
entry has exactly as many references as open files on it and processes whose
current directory it is, and each open file exactly as many as descriptors
that point at it. -/
theorem refs_counted [DecidableEq π] {initproc : π} {img : Image} {s : FsState π} (hs : Reachable (fsSystem initproc img) s) :
    (∀ i, (s.itable i).ref = (fileHolders s i).card + (cwdHolders s i).card) ∧
      ∀ f, (s.ftable f).ref = (fdHolders s f).card := by
  have h : Counted s :=
    hs.rec_inv Counted (counted_initFs img) fun t op _ ht hstep => (ht.step initproc op).apply hstep
  exact ⟨fun i => by simpa using h.inode i, fun f => by simpa using h.file f⟩

theorem refs_counted_boot :
    let s : FsState (Fin 2) := initFs ⟨fun _ => DInode.zero, fun _ => Blk.zero, 1, nMeta⟩
    (∀ i, (s.itable i).ref = (fileHolders s i).card + (cwdHolders s i).card) ∧
      ∀ f, (s.ftable f).ref = (fdHolders s f).card :=
  refs_counted (Reachable.init : Reachable (fsSystem (0 : Fin 2) ⟨fun _ => DInode.zero, fun _ => Blk.zero, 1, nMeta⟩) _)

end Run

end Xv6.Fs
