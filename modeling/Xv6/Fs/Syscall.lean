import Xv6.Fs.Dir

/-
  Xv6/Fs/Syscall.lean --- the file-system system calls of kernel/sysfile.c.

  `create` and the calls that name files: `link`, `unlink`, `open`, `mkdir`,
  `mknod` and `chdir`; `close` and `exit`, which give back open files and the
  current directory; and `filealloc`, `fdalloc` and `fileclose` of file.c and
  sysfile.c, which they use.  Each call runs inside one `begin_op`/`end_op`
  and is one atomic step of the system `fsSystem`, in which any live process
  may make any of these calls.  The arguments are the ones `argstr`, `argint`
  and `argfd` fetch; a call returns what the system call returns.
-/

set_option autoImplicit false

namespace Xv6.Fs

open Machine

variable {π : Type} [DecidableEq π]

/-! ## Open files -/

/-- `O_RDONLY`, `O_CREATE` and `O_TRUNC` of fcntl.h. -/
def oRdonly : Nat := 0x000
def oCreate : Nat := 0x200
def oTrunc : Nat := 0x400

/-- Change the dinode fields of the `itable` entry `ip`. -/
def FsState.updD (s : FsState π) (ip : Fin nInode) (f : DInode → DInode) : FsState π :=
  s.updI ip fun e => { e with d := f e.d }

/-- `filealloc`: the first file with no reference, given one. -/
def filealloc (s : FsState π) : Option (FsState π × Fin nFile) :=
  match (List.finRange nFile).find? (fun f => (s.ftable f).ref == 0) with
  | some f => some ({ s with ftable := Function.update s.ftable f { ref := 1, ip := none } }, f)
  | none => none

/-- `fdalloc`: the lowest free descriptor of process `p`, made to point at `f`. -/
def fdalloc (s : FsState π) (p : π) (f : Fin nFile) : Option (FsState π × Fin noFile) :=
  match (List.finRange noFile).find? (fun fd => s.ofile p fd == none) with
  | some fd => some ({ s with ofile := Function.update s.ofile p (Function.update (s.ofile p) fd (some f)) }, fd)
  | none => none

/-- `fileclose`: drop a reference; the last one gives back the file's inode. -/
def fileclose (s : FsState π) (f : Fin nFile) : Result (FsState π) :=
  if (s.ftable f).ref < 1 then .panic "fileclose"
  else if (s.ftable f).ref - 1 > 0 then
    .ok { s with ftable := Function.update s.ftable f { s.ftable f with ref := (s.ftable f).ref - 1 } }
  else
    let ip := (s.ftable f).ip
    let s := { s with ftable := Function.update s.ftable f { ref := 0, ip := none } }
    match ip with
    | some ip => iput s ip
    | none => .ok s

/-! ## create -/

/-- The links `create` makes for the new inode `ip`: "." and ".." if it is a
directory, then `name` in `dp`; `false` at the first that fails. -/
def createEntries (s : FsState π) (dp ip : Fin nInode) (name : Name) (type : IType) :
    Result (FsState π × Bool) := do
  let (s, ok) ← if type = .dir then do
      let (s, r) ← dirlink s ip ['.'] (s.itable ip).inum
      if r < 0 then pure (s, false)
      else do
        let (s, r) ← dirlink s ip ['.', '.'] (s.itable dp).inum
        pure (s, decide (0 ≤ r))
    else pure (s, true)
  if ok then do
    let (s, r) ← dirlink s dp name (s.itable ip).inum
    pure (s, decide (0 ≤ r))
  else pure (s, false)

/-- `create`: the inode `path` names, locked, if it exists and a file is
wanted; else a new inode of `type` linked into the parent directory. -/
def create (s : FsState π) (cwd : Fin nInode) (path : List Char) (type : IType)
    (major minor : Int16) : Result (FsState π × Option (Fin nInode)) := do
  let (s, r) ← nameiparent s cwd path
  match r with
  | none => pure (s, none)
  | some (dp, name) => do
    let s ← ilock s dp
    let (s, found) ← dirlookup s dp name
    match found with
    | some (ip, _) => do
      let s ← iunlockput s dp
      let s ← ilock s ip
      if type = .file ∧ ((s.itable ip).d.type = .file ∨ (s.itable ip).d.type = .device) then
        pure (s, some ip)
      else do
        let s ← iunlockput s ip
        pure (s, none)
    | none => do
      let (s, r) ← ialloc s (s.itable dp).dev type
      match r with
      | none => do
        let s ← iunlockput s dp
        pure (s, none)
      | some ip => do
        let s ← ilock s ip
        let s := iupdate (s.updD ip fun d => { d with major := major, minor := minor, nlink := 1 }) ip
        let (s, linked) ← createEntries s dp ip name type
        if linked then do
          -- the new directory's ".." links the parent
          let s := if type = .dir then iupdate (s.updD dp fun d => { d with nlink := d.nlink + 1 }) dp
            else s
          let s ← iunlockput s dp
          pure (s, some ip)
        else do
          let s := iupdate (s.updD ip fun d => { d with nlink := 0 }) ip
          let s ← iunlockput s ip
          let s ← iunlockput s dp
          pure (s, none)

/-! ## The system calls -/

/-- `sys_link`: a new name `new` for the inode `old` names, unless it is a
directory. -/
def sysLink (s : FsState π) (cwd : Fin nInode) (old new : List Char) : Result (FsState π × Int) := do
  let (s, r) ← namei s cwd old
  match r with
  | none => pure (s, -1)
  | some ip => do
    let s ← ilock s ip
    if (s.itable ip).d.type = .dir then do
      let s ← iunlockput s ip
      pure (s, -1)
    else do
      let s := iupdate (s.updD ip fun d => { d with nlink := d.nlink + 1 }) ip
      let (s, r) ← nameiparent s cwd new
      let (s, linked) ← match r with
        | none => pure (s, false)
        | some (dp, name) => do
          let s ← ilock s dp
          if (s.itable dp).dev ≠ (s.itable ip).dev then do
            let s ← iunlockput s dp
            pure (s, false)
          else do
            let (s, r) ← dirlink s dp name (s.itable ip).inum
            let s ← iunlockput s dp
            pure (s, decide (0 ≤ r))
      if linked then do
        let s ← iput s ip
        pure (s, 0)
      else do
        -- `bad:` the optimistic link count is taken back
        let s ← ilock s ip
        let s := iupdate (s.updD ip fun d => { d with nlink := d.nlink - 1 }) ip
        let s ← iunlockput s ip
        pure (s, -1)

/-- `sys_unlink`: clear the entry `path` names, unless it is "." or "..", or a
directory with entries. -/
def sysUnlink (s : FsState π) (cwd : Fin nInode) (path : List Char) : Result (FsState π × Int) := do
  let (s, r) ← nameiparent s cwd path
  match r with
  | none => pure (s, -1)
  | some (dp, name) => do
    let s ← ilock s dp
    if namecmp name ['.'] ∨ namecmp name ['.', '.'] then do
      let s ← iunlockput s dp
      pure (s, -1)
    else do
      let (s, found) ← dirlookup s dp name
      match found with
      | none => do
        let s ← iunlockput s dp
        pure (s, -1)
      | some (ip, off) => do
        let s ← ilock s ip
        if (s.itable ip).d.nlink < 1 then .panic "unlink: nlink < 1"
        else do
          let (s, empty) ← if (s.itable ip).d.type = .dir then isdirempty s ip else pure (s, true)
          if !empty then do
            let s ← iunlockput s ip
            let s ← iunlockput s dp
            pure (s, -1)
          else do
            let (s, n) ← writei s dp ⟨0, []⟩ off
            if n ≠ direntSize then .panic "unlink: writei"
            else do
              -- a directory's ".." no longer links the parent
              let s := if (s.itable ip).d.type = .dir then
                  iupdate (s.updD dp fun d => { d with nlink := d.nlink - 1 }) dp
                else s
              let s ← iunlockput s dp
              let s := iupdate (s.updD ip fun d => { d with nlink := d.nlink - 1 }) ip
              let s ← iunlockput s ip
              pure (s, 0)

/-- `sys_open` by process `p`: a descriptor for the inode `path` names, created
as a file with `O_CREATE`. -/
def sysOpen (s : FsState π) (p : π) (cwd : Fin nInode) (path : List Char) (omode : Nat) :
    Result (FsState π × Int) := do
  let (s, r) ← if omode &&& oCreate ≠ 0 then create s cwd path .file 0 0
    else do
      let (s, r) ← namei s cwd path
      match r with
      | none => pure (s, none)
      | some ip => do
        let s ← ilock s ip
        if (s.itable ip).d.type = .dir ∧ omode ≠ oRdonly then do
          let s ← iunlockput s ip
          pure (s, none)
        else pure (s, some ip)
  match r with
  | none => pure (s, -1)
  | some ip =>
    if (s.itable ip).d.type = .device ∧ ((s.itable ip).d.major.toInt < 0 ∨ (s.itable ip).d.major.toInt ≥ nDev) then do
      let s ← iunlockput s ip
      pure (s, -1)
    else
      match filealloc s with
      | none => do
        let s ← iunlockput s ip
        pure (s, -1)
      | some (s, f) =>
        match fdalloc s p f with
        | none => do
          let s ← fileclose s f
          let s ← iunlockput s ip
          pure (s, -1)
        | some (s, fd) => do
          let s := { s with ftable := Function.update s.ftable f { s.ftable f with ip := some ip } }
          let s ← if omode &&& oTrunc ≠ 0 ∧ (s.itable ip).d.type = .file then itrunc s ip
            else pure s
          pure (s, (fd.val : Int))

/-- `sys_mkdir`. -/
def sysMkdir (s : FsState π) (cwd : Fin nInode) (path : List Char) : Result (FsState π × Int) := do
  let (s, r) ← create s cwd path .dir 0 0
  match r with
  | none => pure (s, -1)
  | some ip => do
    let s ← iunlockput s ip
    pure (s, 0)

/-- `sys_mknod`. -/
def sysMknod (s : FsState π) (cwd : Fin nInode) (path : List Char) (major minor : Int) :
    Result (FsState π × Int) := do
  -- `create` takes `short`s: the `int`s `argint` fetched keep their low 16 bits
  let (s, r) ← create s cwd path .device (Int16.ofInt major) (Int16.ofInt minor)
  match r with
  | none => pure (s, -1)
  | some ip => do
    let s ← iunlockput s ip
    pure (s, 0)

/-- `sys_chdir` by process `p`: its current directory becomes the directory
`path` names, and the old one is given back. -/
def sysChdir (s : FsState π) (p : π) (cwd : Fin nInode) (path : List Char) :
    Result (FsState π × Int) := do
  let (s, r) ← namei s cwd path
  match r with
  | none => pure (s, -1)
  | some ip => do
    let s ← ilock s ip
    if (s.itable ip).d.type ≠ .dir then do
      let s ← iunlockput s ip
      pure (s, -1)
    else do
      let s ← iput s cwd
      pure ({ s with cwd := Function.update s.cwd p (some ip) }, 0)

/-- `sys_close` by process `p` (`argfd` checks the descriptor). -/
def sysClose (s : FsState π) (p : π) (fd : Int) : Result (FsState π × Int) :=
  if h : 0 ≤ fd ∧ fd < noFile then
    let fd : Fin noFile := ⟨fd.toNat, by omega⟩
    match s.ofile p fd with
    | none => .ok (s, -1)
    | some f => do
      let s := { s with ofile := Function.update s.ofile p (Function.update (s.ofile p) fd none) }
      let s ← fileclose s f
      pure (s, 0)
  else .ok (s, -1)

/-- The file-system part of `exit` by process `p`: every open file closed, and
the current directory given back. -/
def exit (s : FsState π) (initproc p : π) : Result (FsState π) :=
  if p = initproc then .panic "init exiting"
  else do
    let s ← (List.finRange noFile).foldlM (fun s fd =>
      match s.ofile p fd with
      | some f => do
        let s ← fileclose s f
        pure { s with ofile := Function.update s.ofile p (Function.update (s.ofile p) fd none) }
      | none => pure s) s
    match s.cwd p with
    | some c => do
      let s ← iput s c
      pure { s with cwd := Function.update s.cwd p none }
    | none => pure s

/-! ## The system -/

/-- The calls, each by a process. -/
inductive Op (π : Type) where
  | sysLink (p : π) (old new : List Char)
  | sysUnlink (p : π) (path : List Char)
  | sysOpen (p : π) (path : List Char) (omode : Nat)
  | sysMkdir (p : π) (path : List Char)
  | sysMknod (p : π) (path : List Char) (major minor : Int)
  | sysChdir (p : π) (path : List Char)
  | sysClose (p : π) (fd : Int)
  | exit (p : π)

/-- The process making the call. -/
def Op.proc {π : Type} : Op π → π
  | .sysLink p _ _ | .sysUnlink p _ | .sysOpen p _ _ | .sysMkdir p _ | .sysMknod p _ _ _
  | .sysChdir p _ | .sysClose p _ | .exit p => p

/-- One call, by a live process; `initproc` may not exit. -/
def step (initproc : π) (s : FsState π) (op : Op π) : Result (FsState π) :=
  match s.cwd op.proc with
  | none => .wait
  | some cwd =>
    match op with
    | .sysLink _ old new => do
      let (s, _) ← sysLink s cwd old new
      pure s
    | .sysUnlink _ path => do
      let (s, _) ← sysUnlink s cwd path
      pure s
    | .sysOpen p path omode => do
      let (s, _) ← sysOpen s p cwd path omode
      pure s
    | .sysMkdir _ path => do
      let (s, _) ← sysMkdir s cwd path
      pure s
    | .sysMknod _ path major minor => do
      let (s, _) ← sysMknod s cwd path major minor
      pure s
    | .sysChdir p path => do
      let (s, _) ← sysChdir s p cwd path
      pure s
    | .sysClose p fd => do
      let (s, _) ← sysClose s p fd
      pure s
    | .exit p => exit s initproc p

end Xv6.Fs
