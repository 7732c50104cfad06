import Xv6.Log.Disk

/-
  Xv6/Log/Crash.lean --- crash atomicity of the write-ahead log.

  THE PROPERTY.  Take one transaction: the in-memory header `log.lh` (distinct home
  blocks, none in the log region `[start, start + size)`, at most `size - 1` of
  them as `log_write` enforces) and the cached contents of its blocks.  Cut
  `commit` after any number of its single-block writes and run
  `recover_from_log` on what is left.  Every home block then holds its
  committed content, or every one holds its old content (old after a cut
  within the `lh.length` writes of `write_log`, committed after a cut at the
  header write or later); every block outside
  the transaction and the log is untouched; and a crash in the middle of that
  recovery, followed by a full recovery, ends in the same disk.

  THE ARGUMENT.  `write_head(lh)` is the only commit point.  A prefix of
  `commit` either stops inside `write_log` (the header still reads empty, so
  recovery installs nothing), or stops after the commit point (the header reads
  `lh` and the log slots hold the cached blocks, so recovery installs all of
  them), which is `crash_commit_cases`.  Recovery only reads the log slots and
  only writes home blocks and the header, so replaying it over any of its own
  prefixes changes nothing (`recover_crash_recover`); this needs no hypothesis
  beyond the header's home blocks lying outside the slots it names.
-/

set_option autoImplicit false

namespace Xv6.Log

open Writes

/-! ## What recovery does -/

/-- The home blocks named by a header lie outside the header block and the log
slots that header uses. -/
def LogFree (start : Nat) (lh : List Nat) : Prop :=
  ∀ b ∈ lh, b < start ∨ start + lh.length < b

theorem LogFree.slotsFree {start : Nat} {lh : List Nat} (h : LogFree start lh) :
    SlotsFree start 0 lh := by
  intro b hb
  have := h b hb
  omega

theorem LogFree.start_not_mem {start : Nat} {lh : List Nat} (h : LogFree start lh) :
    start ∉ lh := by
  intro hs
  have := h start hs
  omega

theorem LogFree.nil (start : Nat) : LogFree start [] := by
  simp [LogFree]

/-- The trace of `recover_from_log`, once the header has been read. -/
theorem recoverFromLog_eq (start : Nat) (d : Disk) :
    recoverFromLog start d =
      installTrans start 0 (readHead (d start)) d ++
        [(start, writeHead (applyWrites (installTrans start 0 (readHead (d start)) d) d start) [])] :=
  rfl

/-- Recovery writes only the header block and the home blocks its header names. -/
theorem recover_of_ne (start : Nat) (d : Disk) {x : Nat} (hx : x ≠ start)
    (hlh : x ∉ readHead (d start)) : recover start d x = d x := by
  rw [recover, recoverFromLog_eq, applyWrites_append, applyWrites_cons, applyWrites_nil,
    Function.update_of_ne hx, applyWrites_installTrans_of_not_mem _ _ _ _ _ hlh]

/-- With a clean header, recovery only rewrites the header. -/
theorem recover_of_readHead_nil (start : Nat) (d : Disk) (h : readHead (d start) = []) :
    recover start d = Function.update d start (writeHead (d start) []) := by
  simp [recover, recoverFromLog, h, installTrans]

/-- With a committed header, recovery copies log slot `i + 1` to home block `lh[i]`. -/
theorem recover_home (start : Nat) (d : Disk) {lh : List Nat}
    (hlh : readHead (d start) = lh) (hnd : lh.Nodup) (hfree : LogFree start lh)
    (i : Nat) (hi : i < lh.length) :
    recover start d lh[i] = d (start + 1 + i) := by
  have hne : lh[i] ≠ start := fun h => hfree.start_not_mem (h ▸ List.getElem_mem hi)
  rw [recover, recoverFromLog_eq, applyWrites_append, applyWrites_cons, applyWrites_nil,
    Function.update_of_ne hne, hlh, applyWrites_installTrans start 0 lh d hnd hfree.slotsFree i hi]

/-- Recovery ends by erasing the header it read. -/
theorem recover_start (start : Nat) (d : Disk) :
    recover start d start =
      writeHead (applyWrites (installTrans start 0 (readHead (d start)) d) d start) [] := by
  rw [recover, recoverFromLog_eq, applyWrites_append, applyWrites_cons, applyWrites_nil,
    Function.update_self]

/-- Recovery leaves the header clean. -/
theorem readHead_recover (start : Nat) (d : Disk) : readHead (recover start d start) = [] := by
  rw [recover_start, readHead_writeHead]

/-- **Recovery is idempotent.**  A crash after any number of recovery's own writes,
followed by a full recovery, gives the disk one full recovery gives. -/
theorem recover_crash_recover (start : Nat) (d : Disk)
    (hfree : LogFree start (readHead (d start))) (j : Nat) :
    recover start (crash (recoverFromLog start d) j d) = recover start d := by
  set lh := readHead (d start) with hlh
  set I := installTrans start 0 lh d with hI
  set c := crash (recoverFromLog start d) j d with hc_def
  rcases take_append_cases I [(start, writeHead (applyWrites I d start) [])] j with
    ⟨hj, htake⟩ | ⟨-, m, htake⟩
  · -- the crash came inside `install_trans`: the header and the slots are intact
    have hc : ∀ x, x = start ∨ (start < x ∧ x ≤ start + lh.length) → c x = d x := by
      intro x hx
      rw [hc_def, crash, recoverFromLog_eq, ← hlh, ← hI, htake]
      apply applyWrites_of_forall_ne
      intro p hp hpx
      have hmem := installTrans_fst_mem (List.mem_of_mem_take hp)
      have := hfree _ hmem
      omega
    have hstart : c start = d start := hc start (Or.inl rfl)
    have hinst : installTrans start 0 lh c = I :=
      installTrans_congr start 0 lh _ _ hfree.slotsFree (fun i hi => hc _ (Or.inr (by omega)))
    have hnot : ∀ e : Disk, applyWrites I e start = e start :=
      fun e => applyWrites_of_forall_ne I e start
        (fun p hp hps => hfree.start_not_mem (hps ▸ installTrans_fst_mem hp))
    have htrace : recoverFromLog start c = recoverFromLog start d := by
      rw [recoverFromLog_eq start c, recoverFromLog_eq start d, hstart, ← hlh, hinst, hnot, hnot,
        hstart]
    rw [recover, htrace, hc_def, crash, applyWrites_take_self]
    rfl
  · -- the crash came after the header write: recovery had completed
    have hfull : c = recover start d := by
      rw [hc_def, crash, recoverFromLog_eq, ← hlh, ← hI, htake, List.take_succ_cons,
        List.take_nil]
      rfl
    rw [hfull, recover_of_readHead_nil _ _ (readHead_recover start d), recover_start,
      writeHead_writeHead_nil, ← recover_start, Function.update_eq_self]

/-! ## The writes of `commit` -/

/-- The disk just after the committing `write_head`: `write_log` has filled the
log slots and the header names the transaction. -/
def committedDisk (start : Nat) (cache : Nat → Block) (lh : List Nat) (d : Disk) : Disk :=
  Function.update (applyWrites (writeLog start cache 0 lh) d) start
    (writeHead (applyWrites (writeLog start cache 0 lh) d start) lh)

/-- `commit` of a non-empty transaction, phase by phase. -/
theorem commit_eq (start : Nat) (cache : Nat → Block) (lh : List Nat) (d : Disk)
    (hn : 0 < lh.length) :
    commit start cache lh d =
      writeLog start cache 0 lh ++
        (start, writeHead (applyWrites (writeLog start cache 0 lh) d start) lh) ::
          (installTrans start 0 lh (committedDisk start cache lh d) ++
            [(start, writeHead (applyWrites (installTrans start 0 lh (committedDisk start cache lh d))
              (committedDisk start cache lh d) start) [])]) := by
  rw [commit, if_pos hn]
  simp only [List.append_assoc, List.cons_append]
  rfl

/-- Every write of `commit` goes to the header, a log slot, or a home block. -/
theorem commit_fst {start : Nat} {cache : Nat → Block} {lh : List Nat} {d : Disk}
    {p : Nat × Block} (hp : p ∈ commit start cache lh d) :
    p.1 = start ∨ (start < p.1 ∧ p.1 ≤ start + lh.length) ∨ p.1 ∈ lh := by
  by_cases hn : 0 < lh.length
  · rw [commit_eq start cache lh d hn] at hp
    simp only [List.mem_append, List.mem_cons, List.not_mem_nil, or_false] at hp
    rcases hp with hp | rfl | hp | rfl
    · have := writeLog_slot start cache 0 lh hp
      omega
    · exact Or.inl rfl
    · exact Or.inr (Or.inr (installTrans_fst_mem hp))
    · exact Or.inl rfl
  · simp [commit, hn] at hp

/-- A crash in `commit` leaves every block outside the header, the slots and the
transaction as it was. -/
theorem crash_commit_of_outside (start : Nat) (cache : Nat → Block) (lh : List Nat)
    (d : Disk) (k : Nat) {x : Nat} (hx : x ∉ lh) (hxs : x < start ∨ start + lh.length < x) :
    crash (commit start cache lh d) k d x = d x := by
  refine applyWrites_of_forall_ne _ _ _ fun p hp hpx => ?_
  rcases commit_fst (List.mem_of_mem_take hp) with h | h | h
  · omega
  · omega
  · exact hx (hpx ▸ h)

section Transaction

variable {start size : Nat} {cache : Nat → Block} {lh : List Nat} {d : Disk}

/-- A transaction `commit` is given: distinct home blocks outside the log
region, no more of them than the log has slots for, and an empty log on disk. -/
structure WellFormed (start size : Nat) (lh : List Nat) (d : Disk) : Prop where
  nodup : lh.Nodup
  outside : ∀ b ∈ lh, b < start ∨ start + size ≤ b
  fits : lh.length < size
  clean : readHead (d start) = []

theorem WellFormed.logFree (hw : WellFormed start size lh d) : LogFree start lh := by
  intro b hb
  have := hw.outside b hb
  have := hw.fits
  omega

theorem committedDisk_start (start : Nat) (cache : Nat → Block) (lh : List Nat) (d : Disk) :
    committedDisk start cache lh d start = writeHead (d start) lh := by
  rw [committedDisk, Function.update_self, applyWrites_of_forall_ne]
  intro p hp hps
  have := writeLog_slot start cache 0 lh hp
  omega

theorem committedDisk_slot (start : Nat) (cache : Nat → Block) (lh : List Nat) (d : Disk) (i : Nat) (hi : i < lh.length) :
    committedDisk start cache lh d (start + 1 + i) = cache lh[i] := by
  rw [committedDisk, Function.update_of_ne (by omega)]
  simpa using applyWrites_writeLog start cache 0 lh d i hi

/-- The three places a crash can stop `commit`: inside `write_log` (the first
`lh.length` writes), inside `install_trans` (after the commit point), or after
the erasing `write_head`. -/
theorem crash_commit_cases (start : Nat) (cache : Nat → Block) (d : Disk)
    (hn : 0 < lh.length) (k : Nat) :
    (k ≤ lh.length ∧
        crash (commit start cache lh d) k d = applyWrites ((writeLog start cache 0 lh).take k) d) ∨
    (lh.length < k ∧
      ((∃ m, crash (commit start cache lh d) k d =
          crash (installTrans start 0 lh (committedDisk start cache lh d)) m
            (committedDisk start cache lh d)) ∨
        crash (commit start cache lh d) k d = applyWrites (commit start cache lh d) d)) := by
  rw [crash, commit_eq start cache lh d hn]
  rcases take_append_cases (writeLog start cache 0 lh) _ k with ⟨hk, h⟩ | ⟨hk, m, h⟩
  · exact Or.inl ⟨by simpa using hk, by rw [h]⟩
  · refine Or.inr ⟨by simpa using hk, ?_⟩
    rw [h, List.take_succ_cons, applyWrites_append, applyWrites_cons, ← committedDisk]
    rcases take_append_cases (installTrans start 0 lh (committedDisk start cache lh d)) _ m with
      ⟨-, h'⟩ | ⟨-, m', h'⟩
    · exact Or.inl ⟨m, by rw [h', crash]⟩
    · right
      rw [h', List.take_succ_cons, List.take_nil, applyWrites_append (writeLog start cache 0 lh),
        applyWrites_cons, ← committedDisk]

/-- A crash inside `write_log`: the header is still empty, so recovery leaves
every home block with its old content. -/
theorem crash_writeLog_old (cache : Nat → Block) (hw : WellFormed start size lh d) (k : Nat) :
    readHead (applyWrites ((writeLog start cache 0 lh).take k) d start) = [] ∧
      ∀ b ∈ lh, recover start (applyWrites ((writeLog start cache 0 lh).take k) d) b = d b := by
  have hslot : ∀ x, x ≤ start ∨ start + lh.length < x →
      applyWrites ((writeLog start cache 0 lh).take k) d x = d x := by
    intro x hx
    refine applyWrites_of_forall_ne _ _ _ fun p hp hpx => ?_
    have := writeLog_slot start cache 0 lh (List.mem_of_mem_take hp)
    omega
  have hhead : readHead (applyWrites ((writeLog start cache 0 lh).take k) d start) = [] := by
    rw [hslot start (Or.inl le_rfl), hw.clean]
  refine ⟨hhead, fun b hb => ?_⟩
  have hfree := hw.logFree b hb
  rw [recover_of_ne _ _ (by omega) (by rw [hhead]; simp), hslot b (by omega)]

/-- A crash after the commit point and inside `install_trans`: the header names
the transaction and the slots hold the cached blocks, so recovery installs all
of them. -/
theorem crash_installTrans_new (cache : Nat → Block) (hw : WellFormed start size lh d)
    (m : Nat) :
    readHead (crash (installTrans start 0 lh (committedDisk start cache lh d)) m
        (committedDisk start cache lh d) start) = lh ∧
      ∀ b ∈ lh, recover start (crash (installTrans start 0 lh (committedDisk start cache lh d)) m
        (committedDisk start cache lh d)) b = cache b := by
  have hfree := hw.logFree
  have hkeep : ∀ x, x ∉ lh → crash (installTrans start 0 lh (committedDisk start cache lh d)) m
      (committedDisk start cache lh d) x = committedDisk start cache lh d x := by
    intro x hx
    refine applyWrites_of_forall_ne _ _ _ fun p hp hpx => hx ?_
    exact hpx ▸ installTrans_fst_mem (List.mem_of_mem_take hp)
  have hhead : readHead (crash (installTrans start 0 lh (committedDisk start cache lh d)) m
      (committedDisk start cache lh d) start) = lh := by
    rw [hkeep start hfree.start_not_mem, committedDisk_start, readHead_writeHead]
  refine ⟨hhead, fun b hb => ?_⟩
  obtain ⟨i, hi, rfl⟩ := List.getElem_of_mem hb
  have hslot : start + 1 + i ∉ lh := fun h => by
    have := hfree _ h
    omega
  rw [recover_home _ _ hhead hw.nodup hfree i hi, hkeep _ hslot, committedDisk_slot]

/-- A crash after the erasing `write_head`: the commit is complete and the
header empty again. -/
theorem commit_complete_new (cache : Nat → Block) (hw : WellFormed start size lh d)
    (hn : 0 < lh.length) :
    readHead (applyWrites (commit start cache lh d) d start) = [] ∧
      ∀ b ∈ lh, recover start (applyWrites (commit start cache lh d) d) b = cache b := by
  have hfree := hw.logFree
  set D2 := committedDisk start cache lh d
  set D3 := applyWrites (installTrans start 0 lh D2) D2
  have hfull : applyWrites (commit start cache lh d) d =
      Function.update D3 start (writeHead (D3 start) []) := by
    rw [commit_eq start cache lh d hn, applyWrites_append, applyWrites_cons, applyWrites_append,
      applyWrites_cons, applyWrites_nil, ← committedDisk]
  have hhead : readHead (applyWrites (commit start cache lh d) d start) = [] := by
    rw [hfull, Function.update_self, readHead_writeHead]
  refine ⟨hhead, fun b hb => ?_⟩
  obtain ⟨i, hi, rfl⟩ := List.getElem_of_mem hb
  have hne : lh[i] ≠ start := fun h => hfree.start_not_mem (h ▸ hb)
  rw [recover_of_ne _ _ hne (by rw [hhead]; simp), hfull, Function.update_of_ne hne]
  exact (applyWrites_installTrans start 0 lh D2 hw.nodup hfree.slotsFree i hi).trans
    (committedDisk_slot start cache lh d i hi)

/-- What a crash anywhere in `commit` leaves: a crash within the first
`lh.length` writes (those of `write_log`) leaves an empty header and only old
home blocks after recovery; a crash at the header write or later leaves a
header that is empty or names the transaction, and only committed home blocks
after recovery. -/
theorem crash_commit_old_or_new (cache : Nat → Block) (hw : WellFormed start size lh d)
    (k : Nat) :
    (k ≤ lh.length ∧ readHead (crash (commit start cache lh d) k d start) = [] ∧
        ∀ b ∈ lh, recover start (crash (commit start cache lh d) k d) b = d b) ∨
      (lh.length < k ∧ (readHead (crash (commit start cache lh d) k d start) = [] ∨
          readHead (crash (commit start cache lh d) k d start) = lh) ∧
        ∀ b ∈ lh, recover start (crash (commit start cache lh d) k d) b = cache b) := by
  by_cases hn : 0 < lh.length
  · rcases crash_commit_cases start cache d hn k with ⟨hk, h⟩ | ⟨hk, ⟨m, h⟩ | h⟩ <;> rw [h]
    · exact .inl ⟨hk, crash_writeLog_old cache hw k⟩
    · obtain ⟨h1, h2⟩ := crash_installTrans_new cache hw m
      exact .inr ⟨hk, .inr h1, h2⟩
    · obtain ⟨h1, h2⟩ := commit_complete_new cache hw hn
      exact .inr ⟨hk, .inl h1, h2⟩
  · -- an empty transaction: `commit` writes nothing
    have hnil : lh = [] := List.eq_nil_of_length_eq_zero (by omega)
    subst hnil
    rcases Nat.eq_zero_or_pos k with rfl | hk
    · exact .inl ⟨le_rfl, by simp [crash, commit, hw.clean]⟩
    · exact .inr ⟨hk, .inl (by simp [crash, commit, hw.clean]), by simp⟩

/-- **Crash atomicity of the log.**  Cut `commit` after any `k` of its block
writes and recover: the home blocks are all committed or all old (old when the
cut falls within `write_log`, committed from the header write on), nothing
outside the transaction and the log changes, and a crash during that recovery
followed by a full recovery ends in the same disk. -/
theorem commit_crash_atomic (cache : Nat → Block) (hw : WellFormed start size lh d) (k : Nat) :
    let c := crash (commit start cache lh d) k d
    ((∀ b ∈ lh, recover start c b = cache b) ∨ (∀ b ∈ lh, recover start c b = d b)) ∧
      (k ≤ lh.length → ∀ b ∈ lh, recover start c b = d b) ∧
      (lh.length < k → ∀ b ∈ lh, recover start c b = cache b) ∧
      (∀ x, x ∉ lh → (x < start ∨ start + size ≤ x) → recover start c x = d x) ∧
      (∀ j, recover start (crash (recoverFromLog start c) j c) = recover start c) := by
  intro c
  have hcase := crash_commit_old_or_new cache hw k
  have hhead : readHead (c start) = [] ∨ readHead (c start) = lh := by
    rcases hcase with ⟨-, h, -⟩ | ⟨-, h, -⟩
    · exact Or.inl h
    · exact h
  refine ⟨?_, fun hk => ?_, fun hk => ?_, ?_, ?_⟩
  · rcases hcase with ⟨-, -, h⟩ | ⟨-, -, h⟩
    · exact Or.inr h
    · exact Or.inl h
  · -- the cut falls within `write_log`
    rcases hcase with ⟨-, -, h⟩ | ⟨hlt, -, -⟩
    · exact h
    · omega
  · -- the cut falls at the header write or later
    rcases hcase with ⟨hle, -, -⟩ | ⟨-, -, h⟩
    · omega
    · exact h
  · intro x hx hxs
    have hsize := hw.fits
    have hxh : x ∉ readHead (c start) := by
      rcases hhead with h | h <;> rw [h]
      · simp
      · exact hx
    rw [recover_of_ne _ _ (by omega) hxh]
    exact crash_commit_of_outside start cache lh d k hx (by omega)
  · apply recover_crash_recover
    rcases hhead with h | h <;> rw [h]
    · exact LogFree.nil start
    · exact hw.logFree

/-- Two home blocks far from the log, on a zeroed disk, cut after the header
write, past the two writes of `write_log`: recovery installs both blocks. -/
theorem commit_crash_atomic_two_blocks :
    WellFormed 2 30 [40, 41] (fun _ _ => 0) ∧
      let c := crash (commit 2 (fun b _ => b) [40, 41] (fun _ _ => 0)) 3 (fun _ _ => 0)
      ((∀ b ∈ [40, 41], recover 2 c b = fun _ => (b : Int)) ∨
          (∀ b ∈ [40, 41], recover 2 c b = fun _ => 0)) ∧
        (3 ≤ [40, 41].length → ∀ b ∈ [40, 41], recover 2 c b = fun _ => 0) ∧
        ([40, 41].length < 3 → ∀ b ∈ [40, 41], recover 2 c b = fun _ => (b : Int)) ∧
        (∀ x, x ∉ [40, 41] → (x < 2 ∨ 2 + 30 ≤ x) → recover 2 c x = fun _ => 0) ∧
        (∀ j, recover 2 (crash (recoverFromLog 2 c) j c) = recover 2 c) := by
  have hw : WellFormed 2 30 [40, 41] (fun _ _ => 0) :=
    ⟨by decide, by decide, by decide, rfl⟩
  exact ⟨hw, commit_crash_atomic (fun b _ => b) hw 3⟩

end Transaction

end Xv6.Log
