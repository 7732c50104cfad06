import Xv6.Param
import Xv6.Vm.Copyin

/-
  Xv6/Exec/Stack.lean --- exec's user stack: the argument strings and argv
  (kernel/exec.c).

  After loading the program, `exec` maps two pages at the next page boundary,
  clears `PTE_U` on the lower one (the guard) and uses the upper one as the
  stack: `sp` starts at `sz` and `stackbase` is `sz - PGSIZE`.  Each argument
  string is copied out with its NUL below `sp`, at a 16-byte aligned address
  recorded in `ustack`; then `ustack`, ended by 0, is copied out below the
  strings.  `exec` stores the final `sp` in `trapframe->a1` (the `argv` of
  `main`) and returns `argc` (its `argc`, in `a0`).

  `sp` and `stackbase` are `uint64` in the source and `UInt64` here.  The
  strings are the kernel copies `sys_exec` made, each shorter than `PGSIZE`;
  `CStr` holds the bytes before the NUL, none of which is NUL, so `strlen` is
  their number.

  The layout is stated over `Nat` (`argChunks`, `argvBase`).  The stack page
  is described by `StackPage`: it is translated, and the PTEs its own walk
  reads lie outside its frame, so writing the frame cannot move it.  On such a
  page the stack phase is one copy per chunk of the layout into the frame
  (`execStack_eq`), and from that follow the decoding and the fit condition.
-/

set_option autoImplicit false

namespace Xv6.Exec

open Memory Xv6.Vm

/-! ## The stack phase of exec -/

/-- An argument string as `sys_exec` passes it to `exec`: the bytes before its
terminating NUL. -/
structure CStr where
  bytes : List UInt8
  no_nul : (0 : UInt8) ∉ bytes

/-- The argument loop of `exec` from `argv[argc]` on: each string goes with its
NUL below `sp`, at a 16-byte aligned address that is recorded in `ustack`.  The
result is `argc`, `sp`, the memory and `ustack`, or `none` where `exec` jumps
to `bad`. -/
def pushArgs (pagetable : Nat) (stackbase : UInt64) :
    Nat → UInt64 → Mem → List UInt64 → List CStr → Option (Nat × UInt64 × Mem × List UInt64)
  | argc, sp, m, ustack, [] => some (argc, sp, m, ustack)
  | argc, sp, m, ustack, s :: argv =>
    if argc ≥ maxArg then none
    else
      let sp := sp - UInt64.ofNat (s.bytes.length + 1)
      let sp := sp - sp % 16
      if sp < stackbase then none
      else
        let r := copyout m pagetable sp.toNat (s.bytes ++ [0])
        if r.1 < 0 then none
        else pushArgs pagetable stackbase (argc + 1) sp r.2 (ustack ++ [sp]) argv

/-- The stack phase of `exec` on the stack page below `sz`: the strings, then
the array of their addresses ended by 0.  The result is `argc`, which `exec`
returns, and `sp`, which it stores in `trapframe->a1` and `trapframe->sp`,
with the memory; or `none` where `exec` jumps to `bad`. -/
def execStack (m : Mem) (pagetable : Nat) (sz : UInt64) (argv : List CStr) :
    Option (Nat × UInt64 × Mem) :=
  let stackbase := sz - UInt64.ofNat pgSize
  match pushArgs pagetable stackbase 0 sz m [] argv with
  | none => none
  | some (argc, sp, m, ustack) =>
    let sp := sp - UInt64.ofNat ((argc + 1) * 8)
    let sp := sp - sp % 16
    if sp < stackbase then none
    else
      let r := copyout m pagetable sp.toNat (wordsLE ((ustack ++ [0]).map UInt64.toNat))
      if r.1 < 0 then none else some (argc, sp, r.2)

/-! ## The layout -/

/-- `sp -= sp % 16`. -/
def alignDown (sp : Nat) : Nat := sp - sp % 16

/-- The strings with their NULs at the addresses `exec` gives them below `top`:
each its length plus one below the one before, rounded down to 16 bytes. -/
def argChunks : Nat → List CStr → List (Nat × List UInt8)
  | _, [] => []
  | top, s :: argv =>
    (alignDown (top - (s.bytes.length + 1)), s.bytes ++ [0]) ::
      argChunks (alignDown (top - (s.bytes.length + 1))) argv

/-- The addresses of the strings, the words `argv[i]` of the array. -/
def argPtrs (top : Nat) (argv : List CStr) : List Nat := (argChunks top argv).map Prod.fst

/-- `sp` after the strings. -/
def strsBase : Nat → List CStr → Nat
  | top, [] => top
  | top, s :: argv => strsBase (alignDown (top - (s.bytes.length + 1))) argv

/-- Where the array `argv` goes: `argc + 1` words below the strings, rounded
down to 16 bytes. -/
def argvBase (top : Nat) (argv : List CStr) : Nat :=
  alignDown (strsBase top argv - (argv.length + 1) * 8)

/-- Everything the stack phase copies out, in order: the strings, then `argv`. -/
def stackChunks (top : Nat) (argv : List CStr) : List (Nat × List UInt8) :=
  argChunks top argv ++ [(argvBase top argv, wordsLE (argPtrs top argv ++ [0]))]

theorem alignDown_le (sp : Nat) : alignDown sp ≤ sp := Nat.sub_le _ _

theorem alignDown_mod (sp : Nat) : alignDown sp % 16 = 0 := by
  unfold alignDown
  omega

theorem strsBase_le : ∀ (argv : List CStr) (top : Nat), strsBase top argv ≤ top
  | [], _ => Nat.le_refl _
  | _ :: argv, _ =>
    Nat.le_trans (strsBase_le argv _) (Nat.le_trans (alignDown_le _) (Nat.sub_le _ _))

@[simp] theorem length_argChunks : ∀ (argv : List CStr) (top : Nat),
    (argChunks top argv).length = argv.length
  | [], _ => rfl
  | _ :: argv, _ => congrArg (· + 1) (length_argChunks argv _)

theorem map_snd_argChunks : ∀ (argv : List CStr) (top : Nat),
    (argChunks top argv).map Prod.snd = argv.map fun s => s.bytes ++ [0]
  | [], _ => rfl
  | _ :: argv, _ => congrArg _ (map_snd_argChunks argv _)

@[simp] theorem length_argPtrs (top : Nat) (argv : List CStr) :
    (argPtrs top argv).length = argv.length := by
  simp [argPtrs]

/-- Chunk `i` is string `i` with its NUL, at the `i`-th address. -/
theorem getElem_argChunks (top : Nat) (argv : List CStr) (i : Nat) (hi : i < argv.length)
    (hc : i < (argChunks top argv).length) :
    (argChunks top argv)[i] = ((argPtrs top argv).getD i 0, argv[i].bytes ++ [0]) := by
  have hsnd := congrArg (fun l => l[i]?) (map_snd_argChunks argv top)
  simp only [List.getElem?_map, List.getElem?_eq_getElem hi, List.getElem?_eq_getElem hc,
    Option.map_some, Option.some.injEq] at hsnd
  refine Prod.ext ?_ hsnd
  simp [argPtrs, List.getD_eq_getElem?_getD, hi]

/-- Where the strings land when they do not run into address 0: each inside
`[strsBase top argv, top)` and each later one below every earlier one. -/
theorem argChunks_layout : ∀ (argv : List CStr) (top : Nat), 0 < strsBase top argv →
    (argChunks top argv).Pairwise (fun c d => d.1 + d.2.length ≤ c.1) ∧
      ∀ c ∈ argChunks top argv, strsBase top argv ≤ c.1 ∧ c.1 + c.2.length ≤ top
  | [], _, _ => ⟨List.Pairwise.nil, fun _ hc => by simp [argChunks] at hc⟩
  | s :: argv, top, hpos => by
    -- `a` is where `s` goes; the rest of the strings go below it
    have hpos' : 0 < strsBase (alignDown (top - (s.bytes.length + 1))) argv := hpos
    obtain ⟨hpw, hin⟩ := argChunks_layout argv _ hpos'
    have hbelow := strsBase_le argv (alignDown (top - (s.bytes.length + 1)))
    have halign := alignDown_le (top - (s.bytes.length + 1))
    have hfits : alignDown (top - (s.bytes.length + 1)) + (s.bytes.length + 1) ≤ top := by omega
    refine ⟨List.pairwise_cons.2 ⟨fun d hd => (hin d hd).2, hpw⟩, fun c hc => ?_⟩
    rcases List.mem_cons.1 hc with rfl | hc
    · simp only [List.length_append, List.length_singleton]
      exact ⟨hbelow, hfits⟩
    · have := hin c hc
      exact ⟨this.1, by omega⟩

/-- The array `argv` lies below the strings when it does not run into
address 0. -/
theorem argvBase_add_le (top : Nat) (argv : List CStr) (hpos : 0 < argvBase top argv) :
    argvBase top argv + 8 * (argv.length + 1) ≤ strsBase top argv := by
  have := alignDown_le (strsBase top argv - (argv.length + 1) * 8)
  unfold argvBase at hpos ⊢
  omega

/-- When the array `argv` does not run into address 0, the layout lies in
`[argvBase top argv, top)` and its chunks pairwise do not meet. -/
theorem stackChunks_layout (top : Nat) (argv : List CStr) (hpos : 0 < argvBase top argv) :
    (stackChunks top argv).Pairwise Apart ∧
      ∀ c ∈ stackChunks top argv, argvBase top argv ≤ c.1 ∧ c.1 + c.2.length ≤ top := by
  have harr := argvBase_add_le top argv hpos
  have hstr := strsBase_le argv top
  obtain ⟨hpw, hin⟩ := argChunks_layout argv top (by omega)
  have harr_len : (wordsLE (argPtrs top argv ++ [0])).length = 8 * (argv.length + 1) := by simp
  refine ⟨List.pairwise_append.2 ⟨hpw.imp fun h => Or.inr h, List.pairwise_singleton _ _, ?_⟩, ?_⟩
  · intro c hc d hd
    rw [List.mem_singleton] at hd
    subst hd
    exact Or.inr (by rw [harr_len]; have := (hin c hc).1; omega)
  · intro c hc
    rcases List.mem_append.1 hc with hc | hc
    · have := hin c hc
      exact ⟨by omega, this.2⟩
    · rw [List.mem_singleton] at hc
      subst hc
      exact ⟨Nat.le_refl _, by rw [harr_len]; omega⟩

/-! ## uint64 arithmetic -/

/-- `sp -= n; sp -= sp % 16` on a `uint64` that does not wrap. -/
theorem toNat_push (sp : UInt64) (n : Nat) (hn : n ≤ sp.toNat) :
    ((sp - UInt64.ofNat n) - (sp - UInt64.ofNat n) % 16).toNat = alignDown (sp.toNat - n) := by
  have hn' : (UInt64.ofNat n).toNat = n := UInt64.toNat_ofNat_of_lt' (Nat.lt_of_le_of_lt hn sp.toNat_lt)
  have h1 : (sp - UInt64.ofNat n).toNat = sp.toNat - n := by
    rw [UInt64.toNat_sub_of_le _ _ (UInt64.le_iff_toNat_le.2 (by omega)), hn']
  have h2 : (sp - UInt64.ofNat n) % 16 ≤ sp - UInt64.ofNat n :=
    UInt64.le_iff_toNat_le.2 (by rw [UInt64.toNat_mod]; exact Nat.mod_le _ _)
  rw [UInt64.toNat_sub_of_le _ _ h2, UInt64.toNat_mod, h1]
  rfl

/-! ## The stack page -/

/-- The stack page as `exec` has it before the argument loop: `[sz - PGSIZE, sz)`
is one page above the guard page, `walkaddr` translates it, and none of the PTEs
its walk reads lies in its frame. -/
structure StackPage (m : Mem) (pagetable sz : Nat) : Prop where
  aligned : sz % pgSize = 0
  room : 2 * pgSize ≤ sz
  mapped : walkaddr m pagetable (sz - pgSize) ≠ 0
  apart : ∀ p ∈ walkPath m (sz - pgSize) 2 pagetable,
    p + 8 ≤ walkaddr m pagetable (sz - pgSize) ∨ walkaddr m pagetable (sz - pgSize) + pgSize ≤ p

/-- The physical page behind the stack page. -/
def stackFrame (m : Mem) (pagetable sz : Nat) : Nat := walkaddr m pagetable (sz - pgSize)

/-- The physical address of the user address `va` of the stack page. -/
def toFrame (m : Mem) (pagetable sz va : Nat) : Nat := stackFrame m pagetable sz + (va - (sz - pgSize))

/-- A range of the stack page lies in its frame. -/
theorem toFrame_mem {m : Mem} {pagetable sz va n : Nat} (h1 : sz - pgSize ≤ va) (h2 : va + n ≤ sz) :
    stackFrame m pagetable sz ≤ toFrame m pagetable sz va ∧
      toFrame m pagetable sz va + n ≤ stackFrame m pagetable sz + pgSize := by
  unfold toFrame
  omega

namespace StackPage

variable {m m' : Mem} {pagetable sz : Nat}

/-- Writes to the frame leave the translation of the stack page alone. -/
theorem walkaddr_eq (h : StackPage m pagetable sz)
    (hm : SameOutside m m' (stackFrame m pagetable sz) (stackFrame m pagetable sz + pgSize)) :
    walkaddr m' pagetable (sz - pgSize) = stackFrame m pagetable sz :=
  walkaddr_congr fun p hp j hj => hm _ (by have := h.apart p hp; unfold stackFrame; omega)

theorem pgRoundDown_eq (h : StackPage m pagetable sz) {va : Nat} (h1 : sz - pgSize ≤ va) (h2 : va < sz) :
    pgRoundDown va = sz - pgSize := by
  have haligned := h.aligned
  have hroom := h.room
  have hbase : pgRoundDown (sz - pgSize) = sz - pgSize :=
    pgRoundDown_of_mod_eq_zero (by unfold pgSize at *; omega)
  have := pgRoundDown_eq_of_mem (a := sz - pgSize) (b := va) (by omega) (by omega)
  rw [this, hbase]

/-- A user byte of the stack page is the byte at its place in the frame. -/
theorem userByte_eq (h : StackPage m pagetable sz)
    (hm : SameOutside m m' (stackFrame m pagetable sz) (stackFrame m pagetable sz + pgSize))
    {va : Nat} (h1 : sz - pgSize ≤ va) (h2 : va < sz) :
    userByte m' pagetable va = m' (toFrame m pagetable sz va) := by
  rw [userByte, h.pgRoundDown_eq h1 h2, h.walkaddr_eq hm, toFrame]

theorem userBytes_eq (h : StackPage m pagetable sz)
    (hm : SameOutside m m' (stackFrame m pagetable sz) (stackFrame m pagetable sz + pgSize))
    {va n : Nat} (h1 : sz - pgSize ≤ va) (h2 : va + n ≤ sz) :
    userBytes m' pagetable va n = readBytes m' (toFrame m pagetable sz va) n := by
  rw [userBytes, readBytes_eq_map]
  refine List.map_congr_left fun i hi => ?_
  have hi := List.mem_range.1 hi
  rw [h.userByte_eq hm (by omega) (by omega), toFrame, toFrame]
  exact congrArg m' (by omega)

/-- A copy inside the stack page is one write to its frame. -/
theorem copyout_eq (h : StackPage m pagetable sz)
    (hm : SameOutside m m' (stackFrame m pagetable sz) (stackFrame m pagetable sz + pgSize))
    {d : Nat} (bs : List UInt8) (h1 : sz - pgSize ≤ d) (h2 : d + bs.length ≤ sz) (h3 : d < sz) :
    copyout m' pagetable d bs = (0, writeBytes m' (toFrame m pagetable sz d) bs) := by
  have hpage := h.pgRoundDown_eq h1 h3
  have hpa : walkaddr m' pagetable (pgRoundDown d) = stackFrame m pagetable sz := by
    rw [hpage, h.walkaddr_eq hm]
  rw [copyout_of_one_page d bs (by rw [hpa]; exact h.mapped) (by rw [hpage]; omega), hpa, hpage, toFrame]

/-- ... and keeps the memory the same outside the frame. -/
theorem sameOutside_write
    (hm : SameOutside m m' (stackFrame m pagetable sz) (stackFrame m pagetable sz + pgSize))
    {d : Nat} (bs : List UInt8) (h1 : sz - pgSize ≤ d) (h2 : d + bs.length ≤ sz) :
    SameOutside m (writeBytes m' (toFrame m pagetable sz d) bs)
      (stackFrame m pagetable sz) (stackFrame m pagetable sz + pgSize) :=
  hm.writeBytes _ bs (by unfold toFrame; omega) (by unfold toFrame; omega)

end StackPage

/-! ## The stack phase computes the layout -/

section Layout

variable {m : Mem} {pagetable sz : Nat}

/-- The argument loop on the stack page: it fails exactly when the strings do
not fit above `stackbase`, and otherwise copies each to its place in the
frame and records its address. -/
theorem pushArgs_eq (h : StackPage m pagetable sz) (hsz : sz < 2 ^ 64) :
    ∀ (argv : List CStr) (argc : Nat) (sp : UInt64) (m' : Mem) (ustack : List UInt64),
      SameOutside m m' (stackFrame m pagetable sz) (stackFrame m pagetable sz + pgSize) →
      sz - pgSize ≤ sp.toNat → sp.toNat ≤ sz → argc + argv.length < maxArg →
      (∀ s ∈ argv, s.bytes.length < pgSize) →
      pushArgs pagetable (UInt64.ofNat (sz - pgSize)) argc sp m' ustack argv =
        if sz - pgSize ≤ strsBase sp.toNat argv then
          some (argc + argv.length, UInt64.ofNat (strsBase sp.toNat argv),
            writeChunks m' ((argChunks sp.toNat argv).map (Prod.map (toFrame m pagetable sz) id)),
            ustack ++ (argPtrs sp.toNat argv).map UInt64.ofNat)
        else none := by
  have hroom := h.room
  have hbase : (UInt64.ofNat (sz - pgSize)).toNat = sz - pgSize := UInt64.toNat_ofNat_of_lt' (by
    show sz - pgSize < 2 ^ 64
    omega)
  intro argv
  induction argv with
  | nil =>
    intro argc sp m' ustack _ hlo _ _ _
    simp [pushArgs, strsBase, hlo, argChunks, argPtrs, writeChunks]
  | cons s argv ih =>
    intro argc sp m' ustack hm hlo hhi hargc hlen
    have hs : s.bytes.length < pgSize := hlen s List.mem_cons_self
    have hpg : pgSize ≤ sz - pgSize := by omega
    have hsp := toNat_push sp (s.bytes.length + 1) (by omega)
    -- `a` is the string's address, the new `sp`
    generalize ha : alignDown (sp.toNat - (s.bytes.length + 1)) = a at hsp
    have hle : a + (s.bytes.length + 1) ≤ sp.toNat := by
      have := alignDown_le (sp.toNat - (s.bytes.length + 1))
      omega
    have hcons : strsBase sp.toNat (s :: argv) = strsBase a argv := by rw [strsBase, ha]
    have hnot : ¬ argc ≥ maxArg := by simp only [List.length_cons] at hargc; omega
    rw [pushArgs, if_neg hnot]
    dsimp only
    generalize hspd : (sp - UInt64.ofNat (s.bytes.length + 1)) - (sp - UInt64.ofNat (s.bytes.length + 1)) % 16
      = sp' at hsp ⊢
    have hlt : sp' < UInt64.ofNat (sz - pgSize) ↔ a < sz - pgSize := by
      rw [UInt64.lt_iff_toNat_lt, hsp, hbase]
    by_cases hfit : a < sz - pgSize
    -- the string runs below `stackbase`: `bad`
    · rw [if_pos (hlt.2 hfit), hcons, if_neg (by have := strsBase_le argv a; omega)]
    · have hcopy : copyout m' pagetable sp'.toNat (s.bytes ++ [0]) =
          (0, writeBytes m' (toFrame m pagetable sz a) (s.bytes ++ [0])) := by
        rw [hsp]
        exact h.copyout_eq hm (s.bytes ++ [0]) (by omega) (by simp; omega) (by omega)
      rw [if_neg (mt hlt.1 hfit), hcopy]
      simp only [Int.lt_irrefl, if_false]
      have hm' := StackPage.sameOutside_write hm (d := a) (s.bytes ++ [0]) (by omega) (by simp; omega)
      have hrest := ih (argc + 1) sp' _ (ustack ++ [sp']) hm' (by rw [hsp]; omega) (by rw [hsp]; omega)
        (by simp only [List.length_cons] at hargc; omega) fun t ht => hlen t (List.mem_cons_of_mem _ ht)
      rw [hrest, hsp, hcons]
      have hsp' : sp' = UInt64.ofNat a := by rw [← hsp, UInt64.ofNat_toNat]
      simp only [argChunks, argPtrs, ha, List.map_cons, writeChunks, Prod.map, id, hsp', List.length_cons,
        List.append_assoc, List.singleton_append, Nat.add_assoc, Nat.add_comm 1]

/-- The stack phase on the stack page is the layout: it fails exactly when the
array `argv` would lie below `stackbase`, and otherwise it copies every chunk
of the layout to its place in the frame and returns `argc` and the array's
address. -/
theorem execStack_eq (h : StackPage m pagetable sz) (sz' : UInt64) (hsz : sz'.toNat = sz)
    (argv : List CStr) (hargc : argv.length < maxArg) (hlen : ∀ s ∈ argv, s.bytes.length < pgSize) :
    execStack m pagetable sz' argv =
      if sz - pgSize ≤ argvBase sz argv then
        some (argv.length, UInt64.ofNat (argvBase sz argv),
          writeChunks m ((stackChunks sz argv).map (Prod.map (toFrame m pagetable sz) id)))
      else none := by
  subst hsz
  have hroom := h.room
  have hpg : (UInt64.ofNat pgSize).toNat = pgSize := UInt64.toNat_ofNat_of_lt' (by decide)
  have hstackbase : sz' - UInt64.ofNat pgSize = UInt64.ofNat (sz'.toNat - pgSize) := by
    rw [← UInt64.toNat_inj, UInt64.toNat_sub_of_le _ _ (UInt64.le_iff_toNat_le.2 (by rw [hpg]; omega)), hpg,
      UInt64.toNat_ofNat_of_lt' (by have := sz'.toNat_lt; show sz'.toNat - pgSize < 2 ^ 64; omega)]
  unfold execStack
  dsimp only
  rw [hstackbase, pushArgs_eq h sz'.toNat_lt argv 0 sz' m [] (SameOutside.refl _ _ _) (by omega)
    (Nat.le_refl _) (by omega) hlen]
  have hbase : (UInt64.ofNat (sz'.toNat - pgSize)).toNat = sz'.toNat - pgSize :=
    UInt64.toNat_ofNat_of_lt' (by have := sz'.toNat_lt; show sz'.toNat - pgSize < 2 ^ 64; omega)
  by_cases hstr : sz'.toNat - pgSize ≤ strsBase sz'.toNat argv
  swap
  -- a string already ran below `stackbase`
  · have := alignDown_le (strsBase sz'.toNat argv - (argv.length + 1) * 8)
    rw [if_neg hstr, if_neg (by unfold argvBase; omega)]
  rw [if_pos hstr]
  dsimp only
  simp only [Nat.zero_add]
  have hstrsz : strsBase sz'.toNat argv < 2 ^ 64 :=
    Nat.lt_of_le_of_lt (strsBase_le argv _) sz'.toNat_lt
  have hsp := toNat_push (UInt64.ofNat (strsBase sz'.toNat argv)) ((argv.length + 1) * 8) (by
    rw [UInt64.toNat_ofNat_of_lt' hstrsz]
    unfold maxArg pgSize at *
    omega)
  rw [UInt64.toNat_ofNat_of_lt' hstrsz] at hsp
  change _ = argvBase sz'.toNat argv at hsp
  by_cases hfit : argvBase sz'.toNat argv < sz'.toNat - pgSize
  -- the array runs below `stackbase`: `bad`
  · rw [if_pos (UInt64.lt_iff_toNat_lt.2 (by rw [hsp, hbase]; exact hfit)), if_neg (Nat.not_le.2 hfit)]
  · rw [if_neg fun hlt => hfit (by rw [UInt64.lt_iff_toNat_lt, hsp, hbase] at hlt; exact hlt),
      if_pos (Nat.le_of_not_lt hfit)]
    have hpos : 0 < argvBase sz'.toNat argv := by unfold pgSize at *; omega
    have harr := argvBase_add_le sz'.toNat argv hpos
    have hstr_le := strsBase_le argv sz'.toNat
    have hptrs : ((([] : List UInt64) ++ (argPtrs sz'.toNat argv).map UInt64.ofNat) ++ [0]).map UInt64.toNat =
        argPtrs sz'.toNat argv ++ [0] := by
      have hin := (argChunks_layout argv sz'.toNat (by omega)).2
      simp only [List.nil_append, List.map_append, List.map_map, List.map_cons, List.map_nil]
      refine congrArg (· ++ [0]) ((List.map_congr_left fun p hp => ?_).trans (List.map_id _))
      obtain ⟨c, hc, rfl⟩ := List.mem_map.1 hp
      exact UInt64.toNat_ofNat_of_lt' (Nat.lt_of_le_of_lt (by have := hin c hc; omega) sz'.toNat_lt)
    have hlen8 : (wordsLE (argPtrs sz'.toNat argv ++ [0])).length = 8 * (argv.length + 1) := by simp
    -- the strings were written inside the frame, so the array's copy is one more write there
    have hm1 : SameOutside m
        (writeChunks m ((argChunks sz'.toNat argv).map (Prod.map (toFrame m pagetable sz'.toNat) id)))
        (stackFrame m pagetable sz'.toNat) (stackFrame m pagetable sz'.toNat + pgSize) :=
      SameOutside.writeChunks _ m (SameOutside.refl _ _ _) fun c hc => by
        obtain ⟨d, hd, rfl⟩ := List.mem_map.1 hc
        have := (argChunks_layout argv sz'.toNat (by omega)).2 d hd
        rw [Prod.map_fst, Prod.map_snd, id_eq]
        exact toFrame_mem (by omega) (by omega)
    rw [hsp, hptrs, h.copyout_eq hm1 _ (by omega) (by rw [hlen8]; omega) (by omega)]
    simp only [Int.lt_irrefl, if_false, stackChunks, List.map_append, writeChunks_append, List.map_cons,
      List.map_nil, Prod.map, id, writeChunks]
    rw [← hsp, UInt64.ofNat_toNat]

/-- Shifting two chunks of the stack page to the frame keeps them apart. -/
theorem apart_toFrame {c d : Nat × List UInt8} (hc : sz - pgSize ≤ c.1) (hd : sz - pgSize ≤ d.1)
    (h : Apart c d) :
    Apart (Prod.map (toFrame m pagetable sz) id c) (Prod.map (toFrame m pagetable sz) id d) := by
  unfold Apart at h ⊢
  rw [Prod.map_fst, Prod.map_snd, id_eq, Prod.map_fst, Prod.map_snd, id_eq]
  unfold toFrame
  omega

end Layout

/-! ## What exec leaves on the stack -/

/-- What the stack phase leaves on the stack page below `sz` for `argv`, with
`argc` its return value and `sp` the address it stores in `trapframe->a1`. -/
structure ArgvLayout (m' : Mem) (pagetable sz : Nat) (argv : List CStr) (argc sp : Nat) : Prop where
  argc_eq : argc = argv.length
  sp_eq : sp = argvBase sz argv
  sp_aligned : sp % 16 = 0
  sp_fits : sz - pgSize ≤ sp
  /-- The `argc + 1` words at `sp` are the strings' addresses, then 0. -/
  words : (List.range (argc + 1)).map (fun i => loadLE (userByte m' pagetable) (sp + 8 * i) 8) =
    argPtrs sz argv ++ [0]
  /-- The `i`-th of them holds `argv[i]` with its NUL. -/
  strings : ∀ i (hi : i < argv.length),
    userBytes m' pagetable ((argPtrs sz argv).getD i 0) (argv[i].bytes.length + 1) = argv[i].bytes ++ [0]
  /-- Every copy lies in `[stackbase, sz)`. -/
  inside : ∀ c ∈ stackChunks sz argv, sz - pgSize ≤ c.1 ∧ c.1 + c.2.length ≤ sz
  /-- No two copies overlap. -/
  apart : (stackChunks sz argv).Pairwise Apart

section Result

variable {m : Mem} {pagetable sz : Nat}

/-- When the layout fits, the copies of the stack phase leave exactly the
layout on the stack page. -/
theorem argvLayout_of_fits (h : StackPage m pagetable sz) (hsz : sz < 2 ^ 64) (argv : List CStr)
    (hfit : sz - pgSize ≤ argvBase sz argv) :
    ArgvLayout (writeChunks m ((stackChunks sz argv).map (Prod.map (toFrame m pagetable sz) id)))
      pagetable sz argv argv.length (argvBase sz argv) := by
  have hroom := h.room
  have hpos : 0 < argvBase sz argv := by unfold pgSize at *; omega
  obtain ⟨hpw, hin⟩ := stackChunks_layout sz argv hpos
  have hinside : ∀ c ∈ stackChunks sz argv, sz - pgSize ≤ c.1 ∧ c.1 + c.2.length ≤ sz :=
    fun c hc => ⟨Nat.le_trans hfit (hin c hc).1, (hin c hc).2⟩
  -- every copy went to the frame, in place, and none overwrote another
  have hm : SameOutside m (writeChunks m ((stackChunks sz argv).map (Prod.map (toFrame m pagetable sz) id)))
      (stackFrame m pagetable sz) (stackFrame m pagetable sz + pgSize) :=
    SameOutside.writeChunks _ m (SameOutside.refl _ _ _) fun c hc => by
      obtain ⟨d, hd, rfl⟩ := List.mem_map.1 hc
      have := hinside d hd
      rw [Prod.map_fst, Prod.map_snd, id_eq]
      exact toFrame_mem (by omega) (by omega)
  have hpcs : ((stackChunks sz argv).map (Prod.map (toFrame m pagetable sz) id)).Pairwise Apart :=
    List.pairwise_map.2 (hpw.imp_of_mem fun hc hd hcd => apart_toFrame (hinside _ hc).1 (hinside _ hd).1 hcd)
  have hread : ∀ c ∈ stackChunks sz argv,
      userBytes (writeChunks m ((stackChunks sz argv).map (Prod.map (toFrame m pagetable sz) id)))
        pagetable c.1 c.2.length = c.2 := fun c hc => by
    have hback := readBytes_writeChunks _ m hpcs _ (List.mem_map_of_mem (f := Prod.map (toFrame m pagetable sz) id) hc)
    rw [Prod.map_fst, Prod.map_snd, id_eq] at hback
    rw [h.userBytes_eq hm (hinside c hc).1 (hinside c hc).2, hback]
  refine ⟨rfl, rfl, alignDown_mod _, hfit, ?_, ?_, hinside, hpw⟩
  -- the array is the last chunk; its words decode to the addresses
  · have harr := hread _ (List.mem_append_right _ (List.mem_singleton_self _))
    simp only [length_wordsLE] at harr
    rw [userBytes, ← readBytes_eq_map] at harr
    have hvals : ∀ p ∈ argPtrs sz argv ++ [0], p < 256 ^ 8 := by
      intro p hp
      rcases List.mem_append.1 hp with hp | hp
      · obtain ⟨c, hc, rfl⟩ := List.mem_map.1 hp
        have := hinside c (List.mem_append_left _ hc)
        show c.1 < 2 ^ 64
        omega
      · rw [List.mem_singleton.1 hp]
        decide
    refine List.ext_getElem (by simp) fun i h₁ h₂ => ?_
    rw [List.getElem_map, List.getElem_range,
      loadLE_of_readBytes_wordsLE _ _ _ (by simpa using harr) i h₂, Nat.mod_eq_of_lt (hvals _ (List.getElem_mem h₂))]
  -- string `i` is chunk `i`
  · intro i hi
    have hc := hread _ (List.mem_append_left _ (List.getElem_mem (by simpa using hi)))
    rw [getElem_argChunks sz argv i hi (by simpa using hi)] at hc
    simpa using hc

/-- The stack phase of `exec` on a stack page: for every argument list of
fewer than `MAXARG` strings each shorter than `PGSIZE`, it fails exactly when
the strings, each at a 16-byte aligned address, and the `argc + 1`-word array
`argv` do not fit above `stackbase`; and when it succeeds it returns `argc` and
an aligned `sp >= stackbase` at which the array decodes to the addresses of
NUL-terminated copies of the strings, all inside `[stackbase, sz)` and none
overlapping another. -/
theorem exec_stack_layout (m : Mem) (pagetable : Nat) (sz : UInt64) (argv : List CStr)
    (hpage : StackPage m pagetable sz.toNat) (hargc : argv.length < maxArg)
    (hlen : ∀ s ∈ argv, s.bytes.length < pgSize) :
    (execStack m pagetable sz argv = none ↔ argvBase sz.toNat argv < sz.toNat - pgSize) ∧
      ∀ argc sp m', execStack m pagetable sz argv = some (argc, sp, m') →
        ArgvLayout m' pagetable sz.toNat argv argc sp.toNat := by
  rw [execStack_eq hpage sz rfl argv hargc hlen]
  by_cases hfit : sz.toNat - pgSize ≤ argvBase sz.toNat argv
  · rw [if_pos hfit]
    refine ⟨by simp only [reduceCtorEq, false_iff]; omega, fun argc sp m' hrun => ?_⟩
    obtain ⟨rfl, rfl, rfl⟩ : argv.length = argc ∧ UInt64.ofNat (argvBase sz.toNat argv) = sp ∧ _ = m' := by
      simpa only [Option.some.injEq, Prod.mk.injEq] using hrun
    have hlt : argvBase sz.toNat argv < 2 ^ 64 := by
      have := (stackChunks_layout sz.toNat argv (by have := hpage.room; unfold pgSize at *; omega)).2
        _ (List.mem_append_right _ (List.mem_singleton_self _))
      have := sz.toNat_lt
      omega
    rw [UInt64.toNat_ofNat_of_lt' hlt]
    exact argvLayout_of_fits hpage sz.toNat_lt argv hfit
  · rw [if_neg hfit]
    exact ⟨iff_of_true rfl (Nat.lt_of_not_le hfit), fun _ _ _ hrun => by cases hrun⟩

end Result

/-! ## A stack page -/

/-- A stack page below `sz = 0x2000`, at virtual address 0x1000: root
page-table page at 0x10000, level-1 page at 0x11000, level-0 page at 0x12000,
and the frame at 0x13000, mapped as `uvmalloc` maps the stack. -/
def stackImage : Mem :=
  let m1 := storeLE (fun _ => 0) (0x10000 + 8 * 0) (pa2pte 0x11000 ||| pteV) 8
  let m2 := storeLE m1 (0x11000 + 8 * 0) (pa2pte 0x12000 ||| pteV) 8
  storeLE m2 (0x12000 + 8 * 1) (pa2pte 0x13000 ||| (pteW ||| pteR ||| pteU) ||| pteV) 8

/-- Two arguments, "a" and "bc". -/
def argvAbc : List CStr := [⟨[0x61], by decide⟩, ⟨[0x62, 0x63], by decide⟩]

theorem exec_stack_layout_argvAbc :
    StackPage stackImage 0x10000 (0x2000 : UInt64).toNat ∧ argvAbc.length < maxArg ∧
      (∀ s ∈ argvAbc, s.bytes.length < pgSize) ∧
      ((execStack stackImage 0x10000 0x2000 argvAbc = none ↔
          argvBase (0x2000 : UInt64).toNat argvAbc < (0x2000 : UInt64).toNat - pgSize) ∧
        ∀ argc sp m', execStack stackImage 0x10000 0x2000 argvAbc = some (argc, sp, m') →
          ArgvLayout m' 0x10000 (0x2000 : UInt64).toNat argvAbc argc sp.toNat) := by
  have hpage : StackPage stackImage 0x10000 (0x2000 : UInt64).toNat :=
    ⟨by decide, by decide, by decide, by decide⟩
  have hargc : argvAbc.length < maxArg := by decide
  have hlen : ∀ s ∈ argvAbc, s.bytes.length < pgSize := by decide
  exact ⟨hpage, hargc, hlen, exec_stack_layout stackImage 0x10000 0x2000 argvAbc hpage hargc hlen⟩

end Xv6.Exec
