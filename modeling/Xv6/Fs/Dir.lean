import Mathlib
import Xv6.Fs.Inode

/-
  Xv6/Fs/Dir.lean --- directories and path names, the rest of kernel/fs.c.

  A directory's data is a sequence of `struct dirent`; `dirlookup`, `dirlink`
  and `isdirempty` (sysfile.c) scan it entry by entry with `readi`, from offset
  0 while the offset is below the size.  Each read goes through `bmap`, so a
  scan can allocate a block the directory did not have.

  A path is the list of its characters.  `skipelem` takes the next element off
  it, at most `DIRSIZ` characters of it; `namex` walks the elements from the
  root (a path starting with '/') or from the current directory, taking and
  dropping a reference on each directory it passes.  The walk is by
  well-founded recursion on the length of the path: `skipelem` always consumes
  at least one character (`skipelem_length`).
-/

set_option autoImplicit false

namespace Xv6.Fs

open Machine

variable {π : Type}

/-! ## Names -/

/-- `namecmp(s, t) == 0`: the names agree in their first `DIRSIZ` characters. -/
def namecmp (s t : Name) : Bool :=
  s.take dirSiz == t.take dirSiz

/-- `skipelem`: the next element of the path, cut to `DIRSIZ` characters, and
what follows it after its slashes; `none` when only slashes are left. -/
def skipelem (path : List Char) : Option (Name × List Char) :=
  match path.dropWhile (· == '/') with
  | [] => none
  | p => some ((p.takeWhile (· != '/')).take dirSiz, (p.dropWhile (· != '/')).dropWhile (· == '/'))

theorem skipelem_length {path : List Char} {name : Name} {rest : List Char}
    (h : skipelem path = some (name, rest)) : rest.length < path.length := by
  unfold skipelem at h
  generalize hp : path.dropWhile (· == '/') = p at h
  have hle : p.length ≤ path.length := hp ▸ List.length_dropWhile_le _ path
  cases p with
  | nil => cases h
  | cons c t =>
    simp only [Option.some.injEq, Prod.mk.injEq] at h
    obtain ⟨-, rfl⟩ := h
    -- the element starts with a character that is not '/', so it is not empty
    have hc : (c == '/') = false := by
      have := List.head_dropWhile_not (· == '/') (l := path) (by simp [hp])
      simpa [hp] using this
    have hdrop : (c :: t).dropWhile (· != '/') = t.dropWhile (· != '/') :=
      List.dropWhile_cons_of_pos (by simpa using hc)
    rw [hdrop]
    have h₁ := List.length_dropWhile_le (· == '/') (t.dropWhile (· != '/'))
    have h₂ := List.length_dropWhile_le (· != '/') t
    simp only [List.length_cons] at hle
    omega

/-! ## Directory entries -/

/-- The offsets `0, sizeof(de), ...` below `size` that a scan of a directory
reads. -/
def direntOffsets (size : Nat) : List Nat :=
  (List.range ((size + direntSize - 1) / direntSize)).map (· * direntSize)

/-- The scan of `dirlookup` from the offsets `offs` on. -/
def dirlookupFrom (dp : Fin nInode) (name : Name) :
    FsState π → List Nat → Result (FsState π × Option (Fin nInode × Nat))
  | s, [] => .ok (s, none)
  | s, off :: offs => do
    let (s, de) ← readi s dp off
    match de with
    | none => .panic "dirlookup read"
    | some de =>
      if de.inum = 0 then dirlookupFrom dp name s offs
      else if namecmp name de.name then do
        let (s, ip) ← iget s (s.itable dp).dev de.inum
        pure (s, some (ip, off))
      else dirlookupFrom dp name s offs

/-- `dirlookup`: the `iget` of the inode the entry `name` of `dp` names, and
the entry's offset. -/
def dirlookup (s : FsState π) (dp : Fin nInode) (name : Name) :
    Result (FsState π × Option (Fin nInode × Nat)) :=
  if (s.itable dp).d.type ≠ .dir then .panic "dirlookup not DIR"
  else dirlookupFrom dp name s (direntOffsets (s.itable dp).d.size)

/-- The scan of `dirlink`: the offset of the first free entry, else `endOff`,
where the loop stops. -/
def dirlinkScan (dp : Fin nInode) : FsState π → List Nat → Nat → Result (FsState π × Nat)
  | s, [], endOff => .ok (s, endOff)
  | s, off :: offs, endOff => do
    let (s, de) ← readi s dp off
    match de with
    | none => .panic "dirlink read"
    | some de => if de.inum = 0 then pure (s, off) else dirlinkScan dp s offs endOff

/-- `dirlink`: write the entry `(inum, name)` into the first free entry of
`dp`, or after the last; -1 if `name` is present or the write falls short. -/
def dirlink (s : FsState π) (dp : Fin nInode) (name : Name) (inum : Nat) :
    Result (FsState π × Int) := do
  let (s, found) ← dirlookup s dp name
  match found with
  | some (ip, _) => do
    let s ← iput s ip
    pure (s, -1)
  | none => do
    let offs := direntOffsets (s.itable dp).d.size
    let (s, off) ← dirlinkScan dp s offs (offs.length * direntSize)
    -- `de.inum = inum`: the entry's `inum` is a `ushort`
    let (s, n) ← writei s dp ⟨inum % 2 ^ 16, name.take dirSiz⟩ off
    pure (s, if n ≠ direntSize then -1 else 0)

/-- The scan of `isdirempty` from the offsets `offs` on. -/
def isdiremptyFrom (dp : Fin nInode) : FsState π → List Nat → Result (FsState π × Bool)
  | s, [] => .ok (s, true)
  | s, off :: offs => do
    let (s, de) ← readi s dp off
    match de with
    | none => .panic "isdirempty: readi"
    | some de => if de.inum ≠ 0 then pure (s, false) else isdiremptyFrom dp s offs

/-- `isdirempty` (sysfile.c): no entry in use past "." and "..". -/
def isdirempty (s : FsState π) (dp : Fin nInode) : Result (FsState π × Bool) :=
  isdiremptyFrom dp s ((direntOffsets (s.itable dp).d.size).drop 2)

/-! ## Path names -/

/-- The loop of `namex` from the directory `ip`, which it holds a reference
on; `name` is the last element taken. -/
def namexLoop (parent : Bool) (s : FsState π) (ip : Fin nInode) (path : List Char) (name : Name) :
    Result (FsState π × Option (Fin nInode × Name)) :=
  match _h : skipelem path with
  | none =>
    if parent then do
      let s ← iput s ip
      pure (s, none)
    else pure (s, some (ip, name))
  | some (elem, rest) => do
    let s ← ilock s ip
    if (s.itable ip).d.type ≠ .dir then do
      let s ← iunlockput s ip
      pure (s, none)
    else if parent ∧ rest = [] then
      -- stop one level early
      pure (s, some (ip, elem))
    else do
      let (s, next) ← dirlookup s ip elem
      match next with
      | none => do
        let s ← iunlockput s ip
        pure (s, none)
      | some (next, _) => do
        let s ← iunlockput s ip
        namexLoop parent s next rest elem
termination_by path.length
decreasing_by exact skipelem_length _h

/-- `namex`, for a process whose current directory is `cwd`. -/
def namex (s : FsState π) (cwd : Fin nInode) (path : List Char) (parent : Bool) :
    Result (FsState π × Option (Fin nInode × Name)) := do
  let (s, ip) ← if path.head? = some '/' then iget s rootDev rootIno else pure (idup s cwd, cwd)
  namexLoop parent s ip path []

/-- `namei`: the inode `path` names. -/
def namei (s : FsState π) (cwd : Fin nInode) (path : List Char) :
    Result (FsState π × Option (Fin nInode)) := do
  let (s, r) ← namex s cwd path false
  pure (s, r.map Prod.fst)

/-- `nameiparent`: the directory holding the last element of `path`, and that
element. -/
def nameiparent (s : FsState π) (cwd : Fin nInode) (path : List Char) :
    Result (FsState π × Option (Fin nInode × Name)) :=
  namex s cwd path true

end Xv6.Fs
