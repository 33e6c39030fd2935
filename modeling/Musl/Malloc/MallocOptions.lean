import Mathlib.Tactic

/-!
# The options of the default allocator

`struct __mallocopts` of `src/malloc/malloc_mchunk/mallocopts.c`.  The three counters of the bit
field carry their bounds as fields, so that no setting outside `0..8`, `0..2` and `0..5` can be
built: these are what the letters of `MALLOC_OPTIONS` can lead to.
-/

namespace Musl.Malloc

/-- `struct __mallocopts`: the flags and knobs of the allocator. -/
structure MallocOpts where
  cachesize : ℕ
  canaries : Bool
  dump : Bool
  freecheck : Bool
  freeunmap : Bool
  guard : Bool
  junklev : ℕ
  mutexes : ℕ
  realloc : Bool
  xmalloc : Bool
  cachesize_le : cachesize ≤ 8
  junklev_le : junklev ≤ 2
  mutexes_le : mutexes ≤ 5

namespace MallocOpts

/-- The static initializer: 64 KB of page cache, junk level 1, eight buckets. -/
def initial : MallocOpts where
  cachesize := 6
  canaries := false
  dump := false
  freecheck := false
  freeunmap := false
  guard := false
  junklev := 1
  mutexes := 3
  realloc := false
  xmalloc := false
  cachesize_le := by decide
  junklev_le := by decide
  mutexes_le := by decide

end MallocOpts

end Musl.Malloc
