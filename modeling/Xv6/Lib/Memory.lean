import Mathlib

/-
  Xv6/Lib/Memory.lean --- byte-addressed memory, little-endian words, and copies.

  A memory is a total map from addresses to bytes.  A `k`-byte word at `a` is
  read little-endian (`loadLE`) and written the same way (`storeLE`); a copy of
  a list of bytes to `a` is `writeBytes`.  The lemmas say what a program
  reasoning about such a memory needs: what a write leaves outside its range
  (the frame rules), what it leaves inside (the round trips), and that a load
  only looks at its own bytes (`loadLE_congr`).

  This module names nothing of the kernel.
-/

set_option autoImplicit false

namespace Memory

/-- Byte-addressed memory. -/
abbrev Mem := Nat → UInt8

/-- The `k`-byte little-endian word at `a`. -/
def loadLE (m : Mem) (a : Nat) : Nat → Nat
  | 0 => 0
  | k + 1 => (m a).toNat + 256 * loadLE m (a + 1) k

/-- Store the low `k` bytes of `v` at `a`, least significant first. -/
def storeLE (m : Mem) (a v : Nat) : Nat → Mem
  | 0 => m
  | k + 1 => storeLE (Function.update m a (UInt8.ofNat v)) (a + 1) (v / 256) k

/-- The low `k` bytes of `v`, least significant first. -/
def leBytes (v : Nat) : Nat → List UInt8
  | 0 => []
  | k + 1 => UInt8.ofNat v :: leBytes (v / 256) k

/-- Eight-byte words, little-endian, one after the other: an array of
`uint64` as bytes. -/
def wordsLE (vs : List Nat) : List UInt8 :=
  vs.flatMap fun v => leBytes v 8

/-- Copy a list of bytes to consecutive addresses from `a`. -/
def writeBytes (m : Mem) (a : Nat) : List UInt8 → Mem
  | [] => m
  | b :: bs => writeBytes (Function.update m a b) (a + 1) bs

/-- Copy each `(address, bytes)` chunk in turn. -/
def writeChunks (m : Mem) : List (Nat × List UInt8) → Mem
  | [] => m
  | c :: cs => writeChunks (writeBytes m c.1 c.2) cs

/-- Two chunks whose address ranges do not meet. -/
def Apart (c d : Nat × List UInt8) : Prop :=
  c.1 + c.2.length ≤ d.1 ∨ d.1 + d.2.length ≤ c.1

/-- The `n` bytes at consecutive addresses from `a`. -/
def readBytes (m : Mem) (a : Nat) : Nat → List UInt8
  | 0 => []
  | n + 1 => m a :: readBytes m (a + 1) n

/-! ## Frame rules -/

theorem storeLE_of_lt_or_le (m : Mem) (a v k : Nat) {b : Nat} (hb : b < a ∨ a + k ≤ b) :
    storeLE m a v k b = m b := by
  induction k generalizing m a v with
  | zero => rfl
  | succ k ih =>
    rw [storeLE, ih _ _ _ (by omega), Function.update_of_ne (by omega)]

theorem writeBytes_of_lt_or_le (m : Mem) (a : Nat) (bs : List UInt8) {b : Nat}
    (hb : b < a ∨ a + bs.length ≤ b) : writeBytes m a bs b = m b := by
  induction bs generalizing m a with
  | nil => rfl
  | cons c bs ih =>
    simp only [List.length_cons] at hb
    rw [writeBytes, ih _ _ (by omega), Function.update_of_ne (by omega)]

/-- A load reads only its own `k` bytes, wherever they are: two memories with
the same bytes at `a` and at `a'` load the same word there. -/
theorem loadLE_eq_of_bytes (m m' : Mem) (a a' k : Nat) (h : ∀ j < k, m (a + j) = m' (a' + j)) :
    loadLE m a k = loadLE m' a' k := by
  induction k generalizing a a' with
  | zero => rfl
  | succ k ih =>
    have h0 := h 0 (Nat.succ_pos k)
    rw [Nat.add_zero, Nat.add_zero] at h0
    rw [loadLE, loadLE, h0, ih (a + 1) (a' + 1) fun j hj => by
      rw [Nat.add_assoc, Nat.add_assoc, Nat.add_comm 1 j]; exact h (j + 1) (by omega)]

/-- A load reads only its own `k` bytes. -/
theorem loadLE_congr (m m' : Mem) (a k : Nat) (h : ∀ b, a ≤ b → b < a + k → m b = m' b) :
    loadLE m a k = loadLE m' a k :=
  loadLE_eq_of_bytes m m' a a k fun j hj => h (a + j) (Nat.le_add_right a j) (by omega)

/-- `m'` agrees with `m` outside `[lo, hi)`. -/
def SameOutside (m m' : Mem) (lo hi : Nat) : Prop :=
  ∀ a, a < lo ∨ hi ≤ a → m' a = m a

theorem SameOutside.refl (m : Mem) (lo hi : Nat) : SameOutside m m lo hi := fun _ _ => rfl

/-- A copy inside `[lo, hi)` keeps a memory the same outside it. -/
theorem SameOutside.writeBytes {m m' : Mem} {lo hi : Nat} (h : SameOutside m m' lo hi) (a : Nat)
    (bs : List UInt8) (hlo : lo ≤ a) (hhi : a + bs.length ≤ hi) :
    SameOutside m (Memory.writeBytes m' a bs) lo hi := fun b hb => by
  rw [writeBytes_of_lt_or_le _ _ _ (by omega), h b hb]

@[simp] theorem length_leBytes (v k : Nat) : (leBytes v k).length = k := by
  induction k generalizing v with
  | zero => rfl
  | succ k ih => simp [leBytes, ih]

@[simp] theorem length_wordsLE (vs : List Nat) : (wordsLE vs).length = 8 * vs.length := by
  induction vs with
  | nil => rfl
  | cons v vs ih =>
    simp only [wordsLE, List.flatMap_cons, List.length_append, length_leBytes, List.length_cons] at ih ⊢
    rw [ih]
    omega

/-! ## Round trips -/

/-- The low byte and the low `k` bytes of the rest are the low `k + 1` bytes. -/
theorem mod_add_mul_mod_pow (v k : Nat) : v % 2 ^ 8 + 256 * (v / 256 % 256 ^ k) = v % 256 ^ (k + 1) := by
  show v % 256 + 256 * (v / 256 % 256 ^ k) = v % 256 ^ (k + 1)
  rw [Nat.pow_succ', Nat.mod_mul]

theorem loadLE_storeLE (m : Mem) (a v k : Nat) : loadLE (storeLE m a v k) a k = v % 256 ^ k := by
  induction k generalizing m a v with
  | zero => simp [loadLE, Nat.mod_one]
  | succ k ih =>
    rw [loadLE, storeLE, ih, storeLE_of_lt_or_le _ _ _ _ (Or.inl (Nat.lt_succ_self a)),
      Function.update_self, UInt8.toNat_ofNat', mod_add_mul_mod_pow]

/-- A word whose bytes read back is the word, modulo its width. -/
theorem loadLE_of_readBytes (m : Mem) (a v k : Nat) (h : readBytes m a k = leBytes v k) :
    loadLE m a k = v % 256 ^ k := by
  induction k generalizing a v with
  | zero => simp [loadLE, Nat.mod_one]
  | succ k ih =>
    rw [readBytes, leBytes, List.cons.injEq] at h
    rw [loadLE, h.1, ih (a + 1) (v / 256) h.2, UInt8.toNat_ofNat', mod_add_mul_mod_pow]

/-- The `i`-th byte after a copy to `a` is the `i`-th copied byte. -/
theorem writeBytes_getElem (m : Mem) (a : Nat) (bs : List UInt8) (i : Nat) (hi : i < bs.length) :
    writeBytes m a bs (a + i) = bs[i] := by
  induction bs generalizing m a i with
  | nil => simp at hi
  | cons c bs ih =>
    cases i with
    | zero =>
      rw [writeBytes, writeBytes_of_lt_or_le _ _ _ (Or.inl (by omega))]
      simp
    | succ i =>
      rw [writeBytes, show a + (i + 1) = (a + 1) + i by omega]
      exact ih _ _ i (by simpa using hi)

theorem length_readBytes (m : Mem) (a n : Nat) : (readBytes m a n).length = n := by
  induction n generalizing a with
  | zero => rfl
  | succ n ih => simp [readBytes, ih]

theorem readBytes_add (m : Mem) (a n k : Nat) :
    readBytes m a (n + k) = readBytes m a n ++ readBytes m (a + n) k := by
  induction n generalizing a with
  | zero => rw [Nat.zero_add, Nat.add_zero]; rfl
  | succ n ih =>
    rw [Nat.succ_add, readBytes, readBytes, ih, List.cons_append, Nat.add_assoc, Nat.add_comm 1 n]

/-- The bytes read are those at `a`, `a + 1`, ..., `a + n - 1`. -/
theorem readBytes_eq_map (m : Mem) (a n : Nat) : readBytes m a n = (List.range n).map fun i => m (a + i) := by
  induction n generalizing a with
  | zero => rfl
  | succ n ih =>
    rw [readBytes, ih, List.range_succ_eq_map, List.map_cons, List.map_map]
    refine congrArg₂ List.cons (by simp) (List.map_congr_left fun i _ => ?_)
    simp only [Function.comp_apply]
    congr 1
    omega

theorem getElem_readBytes (m : Mem) (a n i : Nat) (hi : i < (readBytes m a n).length) :
    (readBytes m a n)[i] = m (a + i) := by
  induction n generalizing a i with
  | zero => simp [readBytes] at hi
  | succ n ih =>
    cases i with
    | zero => simp [readBytes]
    | succ i =>
      simp only [readBytes, List.getElem_cons_succ]
      rw [ih (a + 1) i, show a + 1 + i = a + (i + 1) by omega]

theorem readBytes_congr (m m' : Mem) (a n : Nat) (h : ∀ b, a ≤ b → b < a + n → m b = m' b) :
    readBytes m a n = readBytes m' a n := by
  rw [readBytes_eq_map, readBytes_eq_map]
  exact List.map_congr_left fun i hi => h _ (Nat.le_add_right a i) (by have := List.mem_range.1 hi; omega)

/-- The bytes copied to `a` read back from `a`. -/
theorem readBytes_writeBytes (m : Mem) (a : Nat) (bs : List UInt8) :
    readBytes (writeBytes m a bs) a bs.length = bs := by
  refine List.ext_getElem (length_readBytes _ _ _) fun i h₁ h₂ => ?_
  rw [getElem_readBytes, writeBytes_getElem _ _ _ _ h₂]

/-- Words whose bytes read back are the words, modulo 2^64. -/
theorem loadLE_of_readBytes_wordsLE (m : Mem) (a : Nat) (vs : List Nat)
    (h : readBytes m a (8 * vs.length) = wordsLE vs) (i : Nat) (hi : i < vs.length) :
    loadLE m (a + 8 * i) 8 = vs[i] % 256 ^ 8 := by
  induction vs generalizing a i with
  | nil => simp at hi
  | cons v vs ih =>
    have hsplit : wordsLE (v :: vs) = leBytes v 8 ++ wordsLE vs := List.flatMap_cons
    rw [List.length_cons, Nat.mul_succ, Nat.add_comm, readBytes_add, hsplit] at h
    obtain ⟨h0, hrest⟩ := List.append_inj h (by rw [length_readBytes, length_leBytes])
    cases i with
    | zero => exact loadLE_of_readBytes m a v 8 h0
    | succ i =>
      rw [show a + 8 * (i + 1) = (a + 8) + 8 * i by omega]
      exact ih (a + 8) hrest i (by simpa using hi)

/-! ## Sequences of copies -/

/-- Copies that all miss address `b` leave it alone. -/
theorem writeChunks_of_miss (b : Nat) :
    ∀ (cs : List (Nat × List UInt8)) (m : Mem), (∀ c ∈ cs, b < c.1 ∨ c.1 + c.2.length ≤ b) →
      writeChunks m cs b = m b := by
  intro cs
  induction cs with
  | nil => intro m _; rfl
  | cons c cs ih =>
    intro m hmiss
    rw [writeChunks, ih _ fun d hd => hmiss d (List.mem_cons_of_mem _ hd),
      writeBytes_of_lt_or_le _ _ _ (hmiss c List.mem_cons_self)]

theorem writeChunks_append (m : Mem) (cs ds : List (Nat × List UInt8)) :
    writeChunks m (cs ++ ds) = writeChunks (writeChunks m cs) ds := by
  induction cs generalizing m with
  | nil => rfl
  | cons c cs ih => exact ih _

/-- Copies inside `[lo, hi)` keep a memory the same outside it. -/
theorem SameOutside.writeChunks {m : Mem} {lo hi : Nat} :
    ∀ (cs : List (Nat × List UInt8)) (m' : Mem), SameOutside m m' lo hi →
      (∀ c ∈ cs, lo ≤ c.1 ∧ c.1 + c.2.length ≤ hi) → SameOutside m (Memory.writeChunks m' cs) lo hi := by
  intro cs
  induction cs with
  | nil => intro m' h _; exact h
  | cons c cs ih =>
    intro m' h hin
    have hc := hin c List.mem_cons_self
    exact ih _ (h.writeBytes c.1 c.2 hc.1 hc.2) fun d hd => hin d (List.mem_cons_of_mem _ hd)

/-- After copies whose ranges pairwise do not meet, every chunk reads back. -/
theorem readBytes_writeChunks :
    ∀ (cs : List (Nat × List UInt8)) (m : Mem), cs.Pairwise Apart → ∀ c ∈ cs,
      readBytes (writeChunks m cs) c.1 c.2.length = c.2 := by
  intro cs
  induction cs with
  | nil => intro m _ c hc; simp at hc
  | cons d cs ih =>
    intro m hpw c hc
    rw [List.pairwise_cons] at hpw
    rcases List.mem_cons.1 hc with rfl | hc
    -- the later copies miss the first chunk's range
    · rw [writeChunks, readBytes_congr _ (writeBytes m c.1 c.2) _ _ fun b h1 h2 =>
          writeChunks_of_miss b cs _ fun e he => by have := hpw.1 e he; unfold Apart at this; omega]
      exact readBytes_writeBytes m c.1 c.2
    · exact ih _ hpw.2 c hc

/-! ## Fills -/

/-- `memset(a, c, n)`: `n` copies of the byte `c` from `a`. -/
def memset (m : Mem) (a : Nat) (c : UInt8) (n : Nat) : Mem := writeBytes m a (List.replicate n c)

theorem memset_of_lt_or_le (m : Mem) (a : Nat) (c : UInt8) (n : Nat) {b : Nat} (hb : b < a ∨ a + n ≤ b) :
    memset m a c n b = m b :=
  writeBytes_of_lt_or_le m a _ (by rwa [List.length_replicate])

theorem memset_of_mem (m : Mem) (a : Nat) (c : UInt8) (n : Nat) {b : Nat} (h₁ : a ≤ b) (h₂ : b < a + n) :
    memset m a c n b = c := by
  obtain ⟨i, rfl⟩ : ∃ i, b = a + i := ⟨b - a, by omega⟩
  rw [memset, writeBytes_getElem _ _ _ i (by rw [List.length_replicate]; omega), List.getElem_replicate]

/-- A word of zero bytes is 0. -/
theorem loadLE_of_zero (m : Mem) (a k : Nat) (h : ∀ j < k, m (a + j) = 0) : loadLE m a k = 0 := by
  induction k generalizing a with
  | zero => rfl
  | succ k ih =>
    have h0 := h 0 (Nat.succ_pos k)
    rw [Nat.add_zero] at h0
    rw [loadLE, h0, ih (a + 1) fun j hj => by rw [Nat.add_assoc, Nat.add_comm 1 j]; exact h (j + 1) (by omega)]
    rfl

/-! ## Moves within one memory

The two loops a `memmove` is made of.  `copyUp` copies byte by byte from the
low end (`*d++ = *s++`); `copyDown` from the high end, its pointers starting
one past the ranges (`*--d = *--s`).  Each is the copy of the ORIGINAL bytes
exactly when it never overwrites a byte it has still to read: upward when the
destination starts at or below the source or past its end, downward when it
starts at or above the source or ends before it. -/

/-- `while(n-- > 0) *d++ = *s++;` -/
def copyUp (m : Mem) (d s : Nat) : Nat → Mem
  | 0 => m
  | n + 1 => copyUp (Function.update m d (m s)) (d + 1) (s + 1) n

/-- `while(n-- > 0) *--d = *--s;`, from the ends `d` and `s`. -/
def copyDown (m : Mem) (d s : Nat) : Nat → Mem
  | 0 => m
  | n + 1 => copyDown (Function.update m (d - 1) (m (s - 1))) (d - 1) (s - 1) n

/-- A store outside the bytes read does not change what is read. -/
theorem readBytes_update_of_lt_or_le (m : Mem) (a : Nat) (v : UInt8) (s n : Nat)
    (h : a < s ∨ s + n ≤ a) : readBytes (Function.update m a v) s n = readBytes m s n :=
  readBytes_congr _ _ s n fun _ h₁ h₂ => Function.update_of_ne (by omega) _ _

theorem readBytes_succ_right (m : Mem) (a n : Nat) :
    readBytes m a (n + 1) = readBytes m a n ++ [m (a + n)] := by
  rw [readBytes_add, readBytes, readBytes]

theorem writeBytes_append (m : Mem) (a : Nat) (bs cs : List UInt8) :
    writeBytes m a (bs ++ cs) = writeBytes (writeBytes m a bs) (a + bs.length) cs := by
  induction bs generalizing m a with
  | nil => rfl
  | cons b bs ih =>
    rw [List.cons_append, writeBytes, writeBytes, ih, List.length_cons, Nat.add_assoc, Nat.add_comm 1]

/-- A store outside a copy's range commutes with the copy. -/
theorem writeBytes_update_of_lt_or_le (m : Mem) (a : Nat) (v : UInt8) (d : Nat) (bs : List UInt8)
    (h : a < d ∨ d + bs.length ≤ a) :
    writeBytes (Function.update m a v) d bs = Function.update (writeBytes m d bs) a v := by
  induction bs generalizing m d with
  | nil => rfl
  | cons b bs ih =>
    simp only [List.length_cons] at h
    rw [writeBytes, writeBytes, Function.update_comm (by omega), ih _ _ (by omega)]

/-- The upward loop copies the original bytes when the destination does not
start inside the source past its first byte. -/
theorem copyUp_eq (m : Mem) (d s n : Nat) (h : d ≤ s ∨ s + n ≤ d) :
    copyUp m d s n = writeBytes m d (readBytes m s n) := by
  induction n generalizing m d s with
  | zero => rfl
  | succ n ih =>
    -- the byte stored at `d` is not among the bytes still to read
    have hunread := readBytes_update_of_lt_or_le m d (m s) (s + 1) n (by omega)
    rw [copyUp, ih _ _ _ (by omega), hunread, readBytes, writeBytes]

/-- The downward loop copies the original bytes when the destination does not
end inside the source before its last byte. -/
theorem copyDown_eq (m : Mem) (d s n : Nat) (h : s ≤ d ∨ d + n ≤ s) :
    copyDown m (d + n) (s + n) n = writeBytes m d (readBytes m s n) := by
  induction n generalizing m with
  | zero => rfl
  | succ n ih =>
    have hd : d + (n + 1) - 1 = d + n := by omega
    have hs : s + (n + 1) - 1 = s + n := by omega
    -- the byte stored at `d + n` is not among the bytes still to read
    have hunread := readBytes_update_of_lt_or_le m (d + n) (m (s + n)) s n (by omega)
    have hlen : d + (readBytes m s n).length = d + n := by rw [length_readBytes]
    rw [copyDown, hd, hs, ih _ (by omega), hunread, readBytes_succ_right, writeBytes_append, hlen,
      writeBytes_update_of_lt_or_le _ _ _ _ _ (by rw [length_readBytes]; omega)]
    rfl

/-- `m'` is `m` with its `n` bytes at `s` moved to `d`: the destination range
holds the source's original bytes and every other byte is as it was. -/
def Moved (m m' : Mem) (d s n : Nat) : Prop :=
  (∀ i < n, m' (d + i) = m (s + i)) ∧ SameOutside m m' d (d + n)

/-- Copying the bytes read from `s` to `d` moves them. -/
theorem moved_writeBytes_readBytes (m : Mem) (d s n : Nat) :
    Moved m (writeBytes m d (readBytes m s n)) d s n := by
  refine ⟨fun i hi => ?_, fun b hb => ?_⟩
  · rw [writeBytes_getElem _ _ _ i (by rw [length_readBytes]; exact hi), getElem_readBytes]
  · exact writeBytes_of_lt_or_le _ _ _ (by rw [length_readBytes]; exact hb)

end Memory
