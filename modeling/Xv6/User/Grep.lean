import Xv6.Lib.Regex

/-
  Xv6/User/Grep.lean --- user/grep.c: the matcher of Kernighan and Pike
  (`match`, `matchhere`, `matchstar`) and the line loop of `grep`.

  A C string is the list of its characters before the NUL.  `matchhere` and
  `matchstar` are mutually recursive; they terminate because each call
  shortens the pattern, or keeps it and moves from `matchhere` to
  `matchstar`, or keeps both and shortens the text (`termination_by`).

  The patterns' meaning is that of Regex.lean: `patternItems` reads a pattern
  as the claimed grammar does --- a character followed by `*` is any number
  of that character (of any character for `.`), a final `$` ties the match to
  the end of the text, `.` is any character and every other character is
  itself; `match` reads a leading `^` as the anchor at the start.
  `matcher_spec` says that the two functions decide the prefix relation;
  `matchRe_iff` adds the search over the suffixes.

  `grep` reads into a buffer of 1024 characters, at most `1023 - m` at a time
  after the `m` it kept, and writes each line it finds ending in a newline
  when the line matches.  The input is a list of chunks, each what one `read`
  would deliver: a `read` asked for fewer characters returns a prefix of the
  chunk and leaves the rest for the next one.
-/

set_option autoImplicit false

namespace Xv6.User

open Regex

/-! ## The matcher -/

mutual

/-- `matchhere(re, text)`: search for `re` at the beginning of `text`. -/
def matchhere : List Char → List Char → Bool
  | [], _ => true
  | c :: '*' :: re, text => matchstar c re text
  | ['$'], text => text.isEmpty
  | c :: re, d :: text => if c = '.' ∨ c = d then matchhere re text else false
  | _ :: _, [] => false
termination_by re text => (re.length, 0, text.length)

/-- `matchstar(c, re, text)`: search for `c*re` at the beginning of `text`;
the `do ... while` tries `re` before each character it skips. -/
def matchstar (c : Char) (re : List Char) : List Char → Bool
  | [] => matchhere re []
  | d :: t => matchhere re (d :: t) || if d = c ∨ c = '.' then matchstar c re t else false
termination_by text => (re.length, 1, text.length)

end

/-- The `do ... while` of `match`: `re` at each suffix of `text`, the empty one
last. -/
def matchLoop (re : List Char) : List Char → Bool
  | [] => matchhere re []
  | c :: text => matchhere re (c :: text) || matchLoop re text

/-- `match(re, text)`. -/
def matchRe : List Char → List Char → Bool
  | '^' :: re, text => matchhere re text
  | re, text => matchLoop re text

/-! ## What a pattern means -/

/-- The characters a pattern character stands for: itself, or any for `.`. -/
def cls (c d : Char) : Bool := decide (c = '.' ∨ c = d)

/-- A pattern read as the grammar has it: its items, and whether a final `$`
ties the match to the end of the text. -/
def patternItems : List Char → List (Item Char) × Bool
  | [] => ([], false)
  | c :: '*' :: re => (.many (cls c) :: (patternItems re).1, (patternItems re).2)
  | ['$'] => ([], true)
  | c :: re => (.one (cls c) :: (patternItems re).1, (patternItems re).2)

/-- A prefix of `text` is in the language of `re` (the whole of `text` when
`re` ends with `$`). -/
def Here (re text : List Char) : Prop := MatchesPrefix (patternItems re).1 (patternItems re).2 text

/-- A prefix of `text` is in the language of `c*` followed by `re`. -/
def StarHere (c : Char) (re text : List Char) : Prop :=
  MatchesPrefix (.many (cls c) :: (patternItems re).1) (patternItems re).2 text

/-- `re` matches `text` as `match` is specified: at the start only, after a
leading `^`; otherwise at the start of some suffix. -/
def Matches (re text : List Char) : Prop :=
  match re with
  | '^' :: re => Here re text
  | re => ∃ pre suf, text = pre ++ suf ∧ Here re suf

theorem cls_eq_true {c d : Char} : cls c d = true ↔ c = '.' ∨ c = d := by
  simp [cls]

/-! ## The matcher decides the pattern -/

/-- `matchhere` decides `Here` and `matchstar` decides `StarHere`, by the
mutual induction the two definitions carry: one case per branch of either. -/
theorem matcher_spec :
    (∀ re text, matchhere re text = true ↔ Here re text) ∧
      (∀ c re text, matchstar c re text = true ↔ StarHere c re text) := by
  refine matchhere.mutual_induct (fun re text => matchhere re text = true ↔ Here re text)
    (fun c re text => matchstar c re text = true ↔ StarHere c re text)
    ?empty ?star ?dollar ?step ?mismatch ?textEnd ?starNil ?starCons
  case empty =>
    intro text
    simp [matchhere, Here, patternItems, matchesPrefix_nil]
  case star =>
    intro c re text ih
    rw [matchhere.eq_2, ih]
    rfl
  case dollar =>
    intro text
    simp [matchhere, Here, patternItems, matchesPrefix_nil]
  case step =>
    intro c re d text hstar hend hcd ih
    rw [matchhere.eq_4 c re d text hstar hend, if_pos hcd, ih]
    simp only [Here]
    rw [patternItems.eq_4 c re hstar hend, matchesPrefix_one]
    constructor
    · exact fun h => ⟨d, text, rfl, cls_eq_true.2 hcd, h⟩
    · rintro ⟨a, t, heq, -, h⟩
      cases heq
      exact h
  case mismatch =>
    intro c re d text hstar hend hcd
    rw [matchhere.eq_4 c re d text hstar hend, if_neg hcd, Here, patternItems.eq_4 c re hstar hend,
      matchesPrefix_one]
    simp only [Bool.false_eq_true, false_iff, not_exists, not_and]
    intro a t heq hc _
    cases heq
    exact hcd (cls_eq_true.1 hc)
  case textEnd =>
    intro c re hstar hend
    rw [matchhere.eq_5 c re hstar hend, Here, patternItems.eq_4 c re hstar hend, matchesPrefix_one]
    simp
  case starNil =>
    intro c re ih
    rw [matchstar, ih, StarHere, matchesPrefix_many]
    simp [Here]
  case starCons =>
    intro c re d t ih1 ih2
    rw [matchstar, Bool.or_eq_true, ih1, StarHere, matchesPrefix_many]
    -- the `*` item admits `d` exactly when `matchstar`'s loop condition holds
    have hcond : (d = c ∨ c = '.') ↔ cls c d = true := by
      rw [cls_eq_true]
      tauto
    by_cases hd : d = c ∨ c = '.'
    · rw [if_pos hd, ih2]
      constructor
      · rintro (h | h)
        · exact .inl h
        · exact .inr ⟨d, t, rfl, hcond.1 hd, h⟩
      · rintro (h | ⟨a, t', heq, -, h⟩)
        · exact .inl h
        · cases heq
          exact .inr h
    · rw [if_neg hd]
      constructor
      · rintro (h | h)
        · exact .inl h
        · exact absurd h Bool.false_ne_true
      · rintro (h | ⟨a, t', heq, hc, -⟩)
        · exact .inl h
        · cases heq
          exact absurd (hcond.2 hc) hd

theorem matchhere_iff (re text : List Char) : matchhere re text = true ↔ Here re text :=
  matcher_spec.1 re text

/-- `match`'s loop finds a suffix at which `matchhere` succeeds. -/
theorem matchLoop_iff (re : List Char) :
    ∀ text, matchLoop re text = true ↔ ∃ pre suf, text = pre ++ suf ∧ Here re suf := by
  intro text
  induction text with
  | nil =>
    rw [matchLoop, matchhere_iff]
    constructor
    · exact fun h => ⟨[], [], rfl, h⟩
    · rintro ⟨pre, suf, heq, h⟩
      rw [(List.append_eq_nil_iff.1 heq.symm).2] at h
      exact h
  | cons c text ih =>
    rw [matchLoop, Bool.or_eq_true, matchhere_iff, ih]
    constructor
    · rintro (h | ⟨pre, suf, rfl, h⟩)
      · exact ⟨[], c :: text, rfl, h⟩
      · exact ⟨c :: pre, suf, rfl, h⟩
    · rintro ⟨pre, suf, heq, h⟩
      cases pre with
      | nil =>
        rw [List.nil_append] at heq
        exact .inl (heq ▸ h)
      | cons a pre =>
        rw [List.cons_append, List.cons.injEq] at heq
        exact .inr ⟨pre, suf, heq.2, h⟩

/-- `match` decides the pattern, for every pattern and text. -/
theorem matchRe_iff (re text : List Char) : matchRe re text = true ↔ Matches re text := by
  by_cases hc : ∃ re', re = '^' :: re'
  · obtain ⟨re', rfl⟩ := hc
    rw [matchRe, matchhere_iff, Matches]
  · have hc' : ∀ re', re = '^' :: re' → False := fun re' h => hc ⟨re', h⟩
    rw [matchRe.eq_2 _ _ hc', matchLoop_iff, Matches.eq_2 _ _ hc']

/-! ## The line loop of grep -/

/-- `sizeof(buf)`. -/
def bufSize : Nat := 1024

/-- `read(fd, buf+m, k)` on a stream delivered in `chunks`: at most `k`
characters of the first chunk, and the chunks left. -/
def readChunk (k : Nat) : List (List Char) → List Char × List (List Char)
  | [] => ([], [])
  | c :: cs => if k < c.length then (c.take k, c.drop k :: cs) else (c, cs)

/-- The inner loop of `grep`, from `p` to the NUL at `buf[m]`: `line` is what
lies between `p` and the character under scan.  At each newline the line is
matched and written when it matches; `strchr` stops at the first NUL, and
what lies from `p` on is kept for the next read.  It returns what was
written and what is kept. -/
def scan (pattern : List Char) (line : List Char) : List Char → List Char × List Char
  | [] => ([], line)
  | '\n' :: rest =>
    ((if matchRe pattern line then line ++ ['\n'] else []) ++ (scan pattern [] rest).1, (scan pattern [] rest).2)
  | '\x00' :: rest => ([], line ++ '\x00' :: rest)
  | c :: rest => scan pattern (line ++ [c]) rest

/-- `grep(pattern, fd)` with `buf` holding `buf.length` characters kept from
the last read: what it writes to fd 1.  Each round is one `read`; the loop
ends when `read` returns 0, or when the fuel runs out. -/
def grepLoop (pattern : List Char) : Nat → List Char → List (List Char) → List Char
  | 0, _, _ => []
  | fuel + 1, buf, input =>
    let r := readChunk (bufSize - buf.length - 1) input
    if r.1.length = 0 then []
    else (scan pattern [] (buf ++ r.1)).1 ++ grepLoop pattern fuel (scan pattern [] (buf ++ r.1)).2 r.2

/-- `grep(pattern, fd)` from an empty buffer. -/
def grep (pattern : List Char) (fuel : Nat) (input : List (List Char)) : List Char :=
  grepLoop pattern fuel [] input

/-- A stretch with no newline and no NUL ends no line: all of it is kept. -/
theorem scan_of_no_newline (pattern : List Char) :
    ∀ (cs line : List Char), '\n' ∉ cs → '\x00' ∉ cs → scan pattern line cs = ([], line ++ cs) := by
  intro cs
  induction cs with
  | nil => intro line _ _; simp [scan]
  | cons c cs ih =>
    intro line hn hz
    have hcn : c ≠ '\n' := fun h => hn (h ▸ List.mem_cons_self)
    have hcz : c ≠ '\x00' := fun h => hz (h ▸ List.mem_cons_self)
    rw [scan.eq_4 _ _ _ _ hcn hcz, ih _ (fun h => hn (List.mem_cons_of_mem _ h))
      (fun h => hz (List.mem_cons_of_mem _ h))]
    simp

/-- A line of 1023 characters fills the buffer: the next `read` is asked for
none, returns 0, and `grep` stops there, writing nothing, although the line
after it matches the pattern. -/
theorem grep_stops_at_full_buffer (fuel : Nat) :
    grep ['x'] fuel [List.replicate 1023 'a' ++ ['\n', 'x', '\n']] = [] ∧ matchRe ['x'] ['x'] = true := by
  refine ⟨?_, by rw [matchRe_iff]; exact ⟨[], ['x'], rfl, ⟨['x'], [], rfl, .one rfl .nil, nofun⟩⟩⟩
  have hlen : (List.replicate 1023 'a').length = 1023 := List.length_replicate
  have hnl : '\n' ∉ List.replicate 1023 'a' := fun h => absurd (List.mem_replicate.1 h).2 (by decide)
  have hnul : '\x00' ∉ List.replicate 1023 'a' := fun h => absurd (List.mem_replicate.1 h).2 (by decide)
  generalize List.replicate 1023 'a' = line at hlen hnl hnul ⊢
  -- the first read takes the 1023 characters of the line and no more
  have hread : readChunk (bufSize - ([] : List Char).length - 1) [line ++ ['\n', 'x', '\n']] =
      (line, [['\n', 'x', '\n']]) := by
    rw [readChunk, if_pos (by simp [hlen, bufSize])]
    simp [bufSize, ← hlen]
  -- no newline in it: all of it is kept
  have hscan : scan ['x'] [] line = ([], line) := by
    rw [scan_of_no_newline _ _ _ hnl hnul, List.nil_append]
  -- the buffer is full: the second read is asked for nothing
  have hread2 : readChunk (bufSize - line.length - 1) [['\n', 'x', '\n']] = ([], [['\n', 'x', '\n']]) := by
    simp [readChunk, bufSize, hlen]
  cases fuel with
  | zero => rfl
  | succ fuel =>
    rw [grep, grepLoop]
    simp only [hread, if_neg (show line.length ≠ 0 by omega), List.nil_append, hscan]
    cases fuel with
    | zero => rfl
    | succ fuel => simp only [grepLoop, hread2, List.length_nil, if_true]

end Xv6.User
