import Musl.Malloc.GuardList

/-!
# Delayed chunks

`register_delayed_chunk` and `check_delayed_chunks` of `src/malloc/malloc_mchunk/mallocopts.c`: a
freed chunk is noted with the time, and some later free inspects it.  An inspected chunk of at most
4096 bytes is read whole, a larger one at its head, tail and middle; a byte that is not the free
pattern is taken for a use after free and crashes the process.  After the inspections the quarantine
is swept.
-/

namespace Musl.Malloc

open Musl.Lib List

/-- `JUNK_PATTERN_FREE`. -/
def junkFree : UInt8 := 0xDF

def maxDelayedChunks : ℕ := 64

def plusOverflowsWithRounding (base add : ℕ) : Bool :=
  decide (sizeMax - base < add ∨ sizeMax - base < wrap (add + 4095))

/-- What the test is for: it finds the sums that are too large, and the end of the pages does not
wrap after it. -/
def RoundingTested (base add : ℕ) : Prop :=
  (plusOverflowsWithRounding base add = true ↔ sizeMax < base + add + 4095) ∧
    (plusOverflowsWithRounding base add = false → base + add ≤ roundPage (base + add))

/-- **The test is right unless its own sum wraps.**  A length of the last page of all then looks
like a small one, and is let through behind every address where the unrounded end still fits. -/
theorem roundingTested_iff {base add : ℕ} (hb : base < 2 ^ 64) (ha : add < 2 ^ 64) :
    RoundingTested base add ↔ ¬(2 ^ 64 ≤ add + 4095 ∧ base + add < 2 ^ 64) := by
  have htest : plusOverflowsWithRounding base add = true ↔
      2 ^ 64 ≤ base + add ∨ 2 ^ 64 ≤ base + (add + 4095) % 2 ^ 64 := by
    rw [plusOverflowsWithRounding, decide_eq_true_eq, sizeMax, wrap]
    omega
  rw [RoundingTested, ← Bool.not_eq_true, htest, sizeMax, roundPage, wrap]
  constructor
  · rintro ⟨hexact, -⟩ ⟨hwraps, hfits⟩
    omega
  · intro h
    exact ⟨by omega, fun _ => by omega⟩

theorem roundingTested_two_pages : RoundingTested 4096 8192 :=
  (roundingTested_iff (by decide) (by decide)).2 (by decide)

/-- The rounded end of almost all of the memory is 0. -/
theorem rounding_untested : plusOverflowsWithRounding 1 (2 ^ 64 - 2) = false ∧
    sizeMax < 1 + (2 ^ 64 - 2) + 4095 ∧ roundPage (1 + (2 ^ 64 - 2)) = 0 := by
  decide +kernel

/-- The body shared by `protect_chunk` and `unprotect_chunk`: with option `U`, the pages of a chunk of
at least a page get the rights `prot`. -/
def chunkMprotect (name : String) (prot : Prot) (p size : ℕ) : Alloc Unit := do
  let s ← Prog.get
  Prog.exec (p ≠ 0 ∧ size ≠ 0 ∧ s.opts.freeunmap = true ∧ 4096 ≤ size) do
    crashIf (plusOverflowsWithRounding p size = true) ("malloc [" ++ name ++ "]: overflow\n")
    let stop := roundPage (p + size)
    crashIf (stop < p) ("malloc [" ++ name ++ "]: end < p overflow\n")
    mprotect (p / 4096 * 4096) (stop - p / 4096 * 4096) prot

def protectChunk : ℕ → ℕ → Alloc Unit := chunkMprotect "protect_chunk" .none

def unprotectChunk : ℕ → ℕ → Alloc Unit := chunkMprotect "unprotect_chunk" .rw

/-! ### The inspection -/

/-- Has the chunk waited for `DELAYED_CHUNK_DELAY_SEC` at time `now`? -/
def DelayedChunk.due (now : ℕ) (d : DelayedChunk) : Bool := decide (¬(now < d.when ∨ now - d.when < 1))

/-- `__delayed_chunks[i] = __delayed_chunks[--__delayed_count]`, for the elements after the `i`-th. -/
def lastFirst (rest : List DelayedChunk) : List DelayedChunk :=
  match rest.getLast? with
  | none => []
  | some l => l :: rest.dropLast

lemma lastFirst_perm (rest : List DelayedChunk) : (lastFirst rest).Perm rest := by
  unfold lastFirst
  cases hl : rest.getLast? with
  | none => rw [getLast?_eq_none_iff.1 hl]
  | some l =>
    obtain ⟨init, rfl⟩ := getLast?_eq_some_iff.1 hl
    rw [dropLast_concat]
    exact (perm_append_singleton l init).symm

/-- The snapshot loop: the chunks taken and the chunks left, from those behind and those ahead of the
loop index. -/
def snapshotFrom (now : ℕ) (snap kept : List DelayedChunk) :
    List DelayedChunk → List DelayedChunk × List DelayedChunk
  | [] => (snap, kept)
  | d :: rest =>
    if d.due now = true then snapshotFrom now (snap ++ [d]) kept (lastFirst rest)
    else snapshotFrom now snap (kept ++ [d]) rest
termination_by l => l.length
decreasing_by
  · rw [(lastFirst_perm rest).length_eq, List.length_cons]
    exact Nat.lt_succ_self _
  · exact Nat.lt_succ_self _

/-- Read `n` bytes from `a` until one is not the free pattern; was there one? -/
def scanJunk : ℕ → ℕ → Alloc Bool
  | _, 0 => return false
  | a, n + 1 => do
      let b ← load a 1
      if b ≠ junkFree.toNat then return true else scanJunk (a + 1) n

/-- The offsets of the samples of a chunk of `total > PAGE_SIZE` bytes: head, tail and middle. -/
def sampleOffsets (total : ℕ) : List ℕ :=
  let tail := (total - 4096) / 4096 * 4096
  let mid := total / 2 / 4096 * 4096
  [0] ++ (if tail ≠ 0 then [tail] else []) ++ (if mid ≠ 0 ∧ mid ≠ tail then [mid] else [])

/-- Where the sample at the offset `off` starts. -/
def segAddr (base off : ℕ) : ℕ := wrap (base + off)

/-- The length of that sample: a page, or what is left of the chunk. -/
@[irreducible] def segLen (base total off : ℕ) : ℕ :=
  if wrap (base + total) < wrap (segAddr base off + 4096) then
    wrap (wrap (base + total) + 2 ^ 64 - segAddr base off)
  else 4096

def scanSamples (base total : ℕ) : List ℕ → Alloc Bool
  | [] => return false
  | off :: rest => do
      if ← scanJunk (segAddr base off) (segLen base total off) then return true
      else scanSamples base total rest

def inspect (d : DelayedChunk) : Alloc Bool :=
  if d.len ≤ 4096 then scanJunk d.addr d.len else scanSamples d.addr d.len (sampleOffsets d.len)

/-- `snap[s].len > SIZE_MAX - (uintptr_t)ptr - (PAGE_SIZE - 1)`. -/
def lengthOverflows (p len : ℕ) : Prop := wrap (sizeMax - p + 2 ^ 64 - 4095) < len

instance (p len : ℕ) : Decidable (lengthOverflows p len) :=
  inferInstanceAs (Decidable (_ < _))

def checkOne (d : DelayedChunk) : Alloc Unit := do
  let s ← Prog.get
  let protected_ : Prop := s.opts.freecheck = true ∧ s.opts.freeunmap = true ∧ 4096 ≤ d.len
  Prog.exec protected_ do
    crashIf (lengthOverflows d.addr d.len)
      "free() [check_delayed_chunks]: delayed chunk length overflow\n"
    unprotectChunk d.addr d.len
  let bad ← inspect d
  Prog.exec protected_ do
    crashIf (lengthOverflows d.addr d.len)
      "free() [check_delayed_chunks]: delayed chunk length overflow\n"
    protectChunk d.addr d.len
  crashIf (bad = true) "free() [check_delayed_chunks]: use-after-free detected\n"

def checkAll : List DelayedChunk → Alloc Unit
  | [] => pure ()
  | d :: rest => do
      checkOne d
      checkAll rest

/-- `check_delayed_chunks`; the clock has advanced by `tick` seconds. -/
def checkDelayedChunks (tick : ℕ) : Alloc Unit := do
  let now ← monotonicSeconds tick
  let s ← Prog.get
  Prog.modify fun s => { s with delayed := (snapshotFrom now [] [] s.delayed).2 }
  checkAll (snapshotFrom now [] [] s.delayed).1
  guardQuarantineSweep now

/-! ### The registration -/

/-- A draw of `arc4random_uniform(16)` can be 0. -/
instance sixteen_neZero : NeZero 16 := ⟨by decide⟩

/-- What `register_delayed_chunk` gets from outside: the two draws of `arc4random_uniform(16)` and the
seconds that pass before each reading of the clock. -/
structure RegisterEnv where
  fullDraw : Fin 16
  fullTick : ℕ
  tick : ℕ
  draw : Fin 16
  checkTick : ℕ

/-- The chunk enters the list; with `F` and `U` its pages are protected. -/
def enqueue (env : RegisterEnv) (p len : ℕ) : Alloc Unit := do
  let now ← monotonicSeconds env.tick
  Prog.modify fun s => { s with delayed := s.delayed ++ [⟨p, len, now⟩] }
  let s ← Prog.get
  Prog.exec (s.opts.freecheck = true ∧ s.opts.freeunmap = true ∧ 4096 ≤ len) do
    crashIf (lengthOverflows p len) "free() [register_delayed_chunk]: overflow found in freecheck\n"
    mprotect (p / 4096 * 4096) (roundPage (p + len - p / 4096 * 4096)) .none
  Prog.exec (env.draw = 0) (checkDelayedChunks env.checkTick)

def registerDelayedChunk (env : RegisterEnv) (p len : ℕ) : Alloc Unit := do
  let s ← Prog.get
  if p = 0 ∨ len = 0 ∨ s.opts.junklev = 0 then pure ()
  else do
    Prog.exec (maxDelayedChunks ≤ s.delayed.length ∧ env.fullDraw = 0)
      (checkDelayedChunks env.fullTick)
    let s ← Prog.get
    if maxDelayedChunks ≤ s.delayed.length then pure () else enqueue env p len

end Musl.Malloc
