import Xv6.Lib.Runs
import Xv6.Fs.Dir

/-
  Xv6/Fs/Path.lean --- what `skipelem` and `namex` of kernel/fs.c do with a
  path, against the path's elements.

  The elements of a path are its maximal non-empty runs of characters other
  than '/' (`Runs.runs`).  `skipelem` takes the first of them, cut to
  `DIRSIZ` characters, and leaves a remainder that does not start with '/'
  and holds the others (`skipelem_some`); called until it returns 0 it
  yields all of them, in order (`skipelems_eq`).

  For `nameiparent`, `namex` is then a walk over the elements rather than
  over the characters: it looks up every element but the last, one after the
  other, from the root for a path starting with '/' and from the current
  directory otherwise, and stops at the directory it has reached, returning
  it with the last element (`nameiparent_eq`).  The early stop depends on
  the remainder being empty exactly when the element taken is the last one:
  a non-empty remainder with no leading '/' holds another element
  (`runs_ne_nil`).
-/

set_option autoImplicit false

namespace Xv6.Fs

open Machine Runs

variable {π : Type}

/-! ## The elements of a path -/

/-- A non-empty remainder that does not start with '/' holds an element. -/
theorem runs_ne_nil {rest : List Char} (hne : rest ≠ []) (hhead : rest.head? ≠ some '/') :
    runs '/' rest ≠ [] := by
  obtain ⟨c, t, rfl⟩ := List.exists_cons_of_ne_nil hne
  have hc : c ≠ '/' := fun h => hhead (by rw [h]; rfl)
  rw [runs_cons_of_ne hc]
  exact List.cons_ne_nil _ _

/-- `skipelem` returns 0 exactly when the path has no element. -/
theorem skipelem_eq_none_iff (path : List Char) : skipelem path = none ↔ runs '/' path = [] := by
  rw [← runs_dropWhile_sep]
  unfold skipelem
  have hhead := head?_dropWhile_sep '/' path
  generalize path.dropWhile (· == '/') = p at hhead ⊢
  cases p with
  | nil => simp [runs_nil]
  | cons c t =>
    simp only [reduceCtorEq, false_iff]
    exact runs_ne_nil (List.cons_ne_nil _ _) hhead

/-- `skipelem` takes the first element, cut to `DIRSIZ` characters, and
leaves the others in a remainder that does not start with '/'. -/
theorem skipelem_some {path : List Char} {name : Name} {rest : List Char}
    (h : skipelem path = some (name, rest)) :
    ∃ w, runs '/' path = w :: runs '/' rest ∧ name = w.take dirSiz ∧ rest.head? ≠ some '/' := by
  rw [← runs_dropWhile_sep]
  unfold skipelem at h
  have hhead := head?_dropWhile_sep '/' path
  generalize path.dropWhile (· == '/') = p at hhead h
  cases p with
  | nil => cases h
  | cons c t =>
    simp only [Option.some.injEq, Prod.mk.injEq] at h
    obtain ⟨rfl, rfl⟩ := h
    have hc : c ≠ '/' := fun h => hhead (by rw [h]; rfl)
    refine ⟨(c :: t).takeWhile (· != '/'), ?_, rfl, head?_dropWhile_sep _ _⟩
    rw [runs_dropWhile_sep, runs_cons_of_ne hc]

/-- The names `skipelem` yields, called from the path until it returns 0:
the loop ends since each call consumes a character (`skipelem_length`). -/
def skipelems (path : List Char) : List Name :=
  match _h : skipelem path with
  | none => []
  | some (name, rest) => name :: skipelems rest
termination_by path.length
decreasing_by exact skipelem_length _h

/-- Every path: `skipelem` yields its elements in order, each cut to
`DIRSIZ` characters, and each remainder it returns starts with no '/'. -/
theorem skipelems_eq (path : List Char) :
    skipelems path = (runs '/' path).map (·.take dirSiz) ∧
      ∀ name rest, skipelem path = some (name, rest) → rest.head? ≠ some '/' := by
  refine ⟨?_, fun name rest h => ?_⟩
  · induction path using skipelems.induct with
    | case1 path h =>
      rw [skipelems, (skipelem_eq_none_iff path).1 h]
      split
      · rfl
      · next h' => rw [h] at h'; cases h'
    | case2 path name rest h ih =>
      obtain ⟨w, hruns, rfl, -⟩ := skipelem_some h
      rw [skipelems, hruns, List.map_cons, ← ih]
      split
      · next h' => rw [h] at h'; cases h'
      · next h' => rw [h] at h'; cases h'; rfl
  · obtain ⟨-, -, -, hhead⟩ := skipelem_some h
    exact hhead

/-! ## nameiparent -/

/-- The rounds of `namex` for elements followed by others: lock the
directory, check that it is one, look the element up, and unlock and drop
the directory; the inode reached, or none when a round fails. -/
def lookupAll : FsState π → Fin nInode → List Name → Result (FsState π × Option (Fin nInode))
  | s, ip, [] => pure (s, some ip)
  | s, ip, elem :: rest => do
    let s ← ilock s ip
    if (s.itable ip).d.type ≠ .dir then do
      let s ← iunlockput s ip
      pure (s, none)
    else do
      let (s, next) ← dirlookup s ip elem
      match next with
      | none => do
        let s ← iunlockput s ip
        pure (s, none)
      | some (next, _) => do
        let s ← iunlockput s ip
        lookupAll s next rest

/-- The round of `nameiparent` for the last element: lock the directory
reached, check that it is one, and return it with the element (the unlock
orders nothing here). -/
def parentOf (s : FsState π) (dp : Fin nInode) (last : Name) :
    Result (FsState π × Option (Fin nInode × Name)) := do
  let s ← ilock s dp
  if (s.itable dp).d.type ≠ .dir then do
    let s ← iunlockput s dp
    pure (s, none)
  else pure (s, some (dp, last))

/-- `nameiparent` from the directory `ip` over the names `names`: none, after
dropping `ip`, when there is no name; otherwise every name but the last
looked up and the last returned with the directory reached. -/
def parentWalk (s : FsState π) (ip : Fin nInode) (names : List Name) :
    Result (FsState π × Option (Fin nInode × Name)) :=
  match names.getLast? with
  | none => do
    let s ← iput s ip
    pure (s, none)
  | some last => do
    let (s, r) ← lookupAll s ip names.dropLast
    match r with
    | none => pure (s, none)
    | some dp => parentOf s dp last

/-- A walk over a first name followed by others is the round for the first
and the walk over the others. -/
theorem parentWalk_cons (s : FsState π) (ip : Fin nInode) (elem : Name) {names : List Name}
    (hne : names ≠ []) :
    parentWalk s ip (elem :: names) = (do
      let s ← ilock s ip
      if (s.itable ip).d.type ≠ .dir then do
        let s ← iunlockput s ip
        pure (s, none)
      else do
        let (s, next) ← dirlookup s ip elem
        match next with
        | none => do
          let s ← iunlockput s ip
          pure (s, none)
        | some (next, _) => do
          let s ← iunlockput s ip
          parentWalk s next names) := by
  obtain ⟨last, hlast⟩ := Option.ne_none_iff_exists'.1 (mt List.getLast?_eq_none_iff.1 hne)
  rw [parentWalk, List.getLast?_cons, hlast, Option.getD_some, List.dropLast_cons_of_ne_nil hne, lookupAll]
  simp only [Result.bind_assoc]
  congr 1
  funext s1
  split_ifs
  · simp only [Result.bind_assoc, Result.pure_bind]
  · simp only [Result.bind_assoc]
    congr 1
    funext r
    rcases r with ⟨s2, _ | ⟨next, off⟩⟩
    · simp only [Result.bind_assoc, Result.pure_bind]
    · simp only [Result.bind_assoc, parentWalk, hlast]

/-- The loop of `nameiparent` is the walk over the path's elements. -/
theorem namexLoop_parent_eq (s : FsState π) (ip : Fin nInode) (path : List Char) (name : Name) :
    namexLoop true s ip path name = parentWalk s ip ((runs '/' path).map (·.take dirSiz)) := by
  induction path using skipelems.induct generalizing s ip name with
  | case1 path h =>
    rw [namexLoop, (skipelem_eq_none_iff path).1 h]
    split
    · rfl
    · next e r h' => rw [h] at h'; cases h'
  | case2 path elem rest h ih =>
    obtain ⟨w, hruns, helem, hhead⟩ := skipelem_some h
    rw [hruns, List.map_cons, ← helem]
    by_cases hrest : rest = []
    -- the last element: `namex` stops on the directory it has reached
    · subst hrest
      rw [runs_nil, List.map_nil, parentWalk, namexLoop]
      split
      · next h' => rw [h] at h'; cases h'
      · next e r h' =>
        rw [h] at h'
        cases h'
        simp [lookupAll, parentOf]
    -- more elements follow: one round, then the walk from the next directory
    · have hmore : (runs '/' rest).map (·.take dirSiz) ≠ [] := by
        simpa using runs_ne_nil hrest hhead
      rw [parentWalk_cons s ip elem hmore, namexLoop]
      split
      · next h' => rw [h] at h'; cases h'
      · next e r h' =>
        rw [h] at h'
        cases h'
        simp only [hrest, and_false, if_false]
        congr 1
        funext s1
        split_ifs
        · rfl
        · congr 1
          funext r
          rcases r with ⟨s2, _ | ⟨next, off⟩⟩
          · rfl
          · simp only [ih]

/-- `nameiparent(path, name)`, for every state, current directory and path:
from the root for a path starting with '/', else from the current
directory, it looks up every element of the path but the last and returns
the directory reached with the last element, cut to `DIRSIZ` characters; 0
when the path has no element. -/
theorem nameiparent_eq (s : FsState π) (cwd : Fin nInode) (path : List Char) :
    nameiparent s cwd path = (do
      let (s, ip) ← if path.head? = some '/' then iget s rootDev rootIno else pure (idup s cwd, cwd)
      parentWalk s ip ((runs '/' path).map (·.take dirSiz))) := by
  rw [nameiparent, namex]
  split <;>
  · congr 1
    funext r
    rcases r with ⟨s1, ip⟩
    exact namexLoop_parent_eq s1 ip path []

/-- Path splitting and `nameiparent`, for every state, current directory and
path: the names `skipelem` yields are the path's elements cut to `DIRSIZ`
characters, no remainder starts with '/', and `nameiparent` is the walk over
those names from the root or the current directory. -/
theorem skipelem_elements_nameiparent_walk (s : FsState π) (cwd : Fin nInode) (path : List Char) :
    (skipelems path = (runs '/' path).map (·.take dirSiz) ∧
      ∀ name rest, skipelem path = some (name, rest) → rest.head? ≠ some '/') ∧
    nameiparent s cwd path = (do
      let (s, ip) ← if path.head? = some '/' then iget s rootDev rootIno else pure (idup s cwd, cwd)
      parentWalk s ip ((runs '/' path).map (·.take dirSiz))) :=
  ⟨skipelems_eq path, nameiparent_eq s cwd path⟩

end Xv6.Fs
