import Musl.Malloc.DelayedChunks
import Musl.Malloc.PageCache

/-!
# Chunks

`malloc_chunk`, `free_chunk`, `realloc_chunk`, `aligned_alloc_chunk` and `__malloc_donate` of
`src/malloc/malloc_mchunk/mallocopts.c`, with the helpers that fill, check and seal a chunk, and
`recallocarray` on top of them.

A chunk is the 32-byte header, the user bytes, and with option `C` an eight-byte canary right after
them.  With option `G` a chunk of at least a page (header and canary included) is the interior of a
guarded mapping; every other chunk is a mapping of its own that starts at the header.

`0` stands for the null pointer.  What a call gets from outside (the answers of the kernel, the
random draws, the seconds that pass) is an argument: `MguardEnv`, `FreeEnv`, `ReallocEnv`.
-/

namespace Musl.Malloc

open Musl.Lib

/-! ### Filling and sealing -/

/-- `JUNK_PATTERN_ALLOC`. -/
def junkAlloc : UInt8 := 0xDB

/-- `fill_junk`: nothing at level 0, at most a page at level 1, everything at level 2; on allocation
only at level 2. -/
def fillJunk (p len : ℕ) (onAlloc : Bool) : Alloc Unit := do
  let s ← Prog.get
  if p = 0 ∨ len = 0 ∨ (onAlloc = true ∧ s.opts.junklev < 2) ∨ s.opts.junklev = 0 then pure ()
  else do
    let val := if onAlloc = true then junkAlloc else junkFree
    if s.opts.junklev = 2 then memset p len val
    else if len < 4096 then memset p len val
    else memset p 4096 val

def freecheck (p : ℕ) : Alloc Unit := do
  let s ← Prog.get
  crashIf (p ≠ 0 ∧ s.opts.freecheck = true ∧ p % 8 ≠ 0)
    "free() [freecheck]: invalid pointer alignment\n"

def makeCanary (secret : UInt64) (p len : ℕ) : ℕ :=
  let c := secret.toNat ^^^ wrap p ^^^ wrap len
  if c ≠ 0 then c else 0xF00DFACECAFEBEEF

def setCanary (p size : ℕ) : Alloc Unit := do
  let s ← Prog.get
  Prog.exec (s.opts.canaries = true) (store (p + size) 8 (makeCanary s.secret p size))

def canaryExtra (o : MallocOpts) : ℕ := if o.canaries = true then 8 else 0

/-- A part of a chunk is given up: cleared if the flags conceal it, junked otherwise. -/
def wipe (p len flags : ℕ) : Alloc Unit :=
  if flags &&& flagConceal ≠ 0 then memset p len 0 else fillJunk p len false

/-- The header of the chunk at `p`, as `free_chunk` and `realloc_chunk` look for it. -/
def findHeader (name : String) (p : ℕ) : Alloc ℕ := do
  crashIf (mchunkFromUser p = 0) (name ++ "(): invalid pointer\n")
  let magic ← load (magicAt (mchunkFromUser p)) 4
  crashIf (magic = mchunkMagicFreed) (name ++ "(): double free detected\n")
  crashIf (magic ≠ mchunkMagic) (name ++ "(): invalid or corrupted pointer\n")
  return mchunkFromUser p

/-! ### `free_chunk` -/

/-- What `free_chunk` gets from outside: the registration, the page for the cache or quarantine node,
and the seconds before the quarantine time is read. -/
structure FreeEnv where
  reg : RegisterEnv
  node : Option ℕ
  quarTick : ℕ

/-- The canary check; the message ends with the offset of the first differing byte. -/
def checkCanary (p h : ℕ) : Alloc Unit := do
  let s ← Prog.get
  Prog.exec (s.opts.canaries = true) do
    let len ← load (userLenAt h) 8
    crashIf (sizeMax - 8 < len) "free(): size overflow in canary check\n"
    let stored ← load (wrap (p + len)) 8
    crashIf (stored ≠ makeCanary s.secret p len) "free(): chunk canary corrupted"

def markFreed (p h : ℕ) : Alloc Unit := do
  freecheck p
  checkCanary p h
  store (magicAt h) 4 mchunkMagicFreed
  let flags ← load (flagsAt h) 4
  let len ← load (userLenAt h) 8
  wipe p len flags

/-- `m->base ? m->base : m`. -/
def baseOr (base h : ℕ) : ℕ := if base ≠ 0 then base else h

/-- The end of `free_chunk` for a guarded chunk: protected, then quarantined. -/
def freeGuarded (env : FreeEnv) (p h : ℕ) : Alloc Unit := do
  let len ← load (userLenAt h) 8
  protectChunk p len
  let base ← load (baseAt h) 8
  let total ← load (totalLenAt h) 8
  guardQuarantineAdd env.node env.quarTick (baseOr base h) total

/-- The end of `free_chunk` for any other chunk: cached, or unmapped if its flags conceal it. -/
def freePlain (env : FreeEnv) (h flags : ℕ) : Alloc Unit := do
  let base ← load (baseAt h) 8
  let total ← load (totalLenAt h) 8
  if flags &&& flagConceal = 0 then pageCachePut env.node (baseOr base h) total
  else munmap (baseOr base h) total

/-- The marked chunk is registered for a delayed check and its mapping given away. -/
def giveBack (env : FreeEnv) (p h : ℕ) : Alloc Unit := do
  let len ← load (userLenAt h) 8
  registerDelayedChunk env.reg p len
  let flags ← load (flagsAt h) 4
  if flags &&& flagGuard ≠ 0 then freeGuarded env p h else freePlain env h flags

def freeChunk (env : FreeEnv) (p : ℕ) : Alloc Unit :=
  if p = 0 then pure ()
  else do
    let h ← findHeader "free" p
    markFreed p h
    giveBack env p h

/-! ### `malloc_chunk` -/

def setExtent (h base total : ℕ) (f : ℕ → ℕ) : Alloc Unit := do
  store (baseAt h) 8 base
  store (totalLenAt h) 8 total
  let flags ← load (flagsAt h) 4
  store (flagsAt h) 4 (f flags)

/-- The header, the junk and the canary of a new chunk of `size` bytes at `h`. -/
def finishChunk (h size base total : ℕ) (f : ℕ → ℕ) : Alloc ℕ := do
  store (magicAt h) 4 mchunkMagic
  store (userLenAt h) 8 size
  setExtent h base total f
  fillJunk (h + 32) size true
  setCanary (h + 32) size
  return h + 32

/-- An allocation fails: option `X` turns the null pointer into a crash. -/
def allocFails : Alloc ℕ := do
  let s ← Prog.get
  crashIf (s.opts.xmalloc = true) "malloc(): allocation failed\n"
  return 0

/-- A chunk of `mlen` bytes, header and canary included, inside guard pages. -/
def mallocGuarded (env : MguardEnv) (size mlen : ℕ) : Alloc ℕ := do
  match ← mguard env (roundPage mlen) with
  | none => allocFails
  | some map =>
      if roundPage mlen < mlen then do
        munmap (map - 4096) (roundPage mlen + 8192)
        allocFails
      else finishChunk map size (map - 4096) (roundPage mlen + 8192) (· ||| flagGuard)

/-- The cached mapping for a chunk of `mlen` bytes; with guard pages the size asked for is rounded up
to a page. -/
def cachedMapping (mlen : ℕ) : Alloc ℕ := do
  let s ← Prog.get
  let aligned := if s.opts.guard = true then roundPage mlen else mlen
  if roundPage aligned = aligned then pageCacheTryGet aligned else return 0

/-- The mapping for a chunk without guard pages, from the page cache or from the kernel. -/
def plainMapping (env : MguardEnv) (mlen : ℕ) : Alloc (Option ℕ) := do
  let cached ← cachedMapping mlen
  if cached ≠ 0 then return some cached else mmap env.map mlen

/-- A chunk of `mlen` bytes, header and canary included, without guard pages.  Its mapping has `mlen`
bytes, so that the source's test `sizeof(struct __mchunk) + user_with_canary > maplen` fails. -/
def mallocPlain (env : MguardEnv) (size mlen : ℕ) : Alloc ℕ := do
  match ← plainMapping env mlen with
  | none => allocFails
  | some map => finishChunk map size map mlen (· &&& 0xFFFFFFFD)

/-- `malloc_chunk`.  The flags reach only `mguard`, whose `mlock` and `madvise` change nothing that
the allocator can see. -/
def mallocChunk (env : MguardEnv) (size _flags : ℕ) : Alloc ℕ := do
  let s ← Prog.get
  let mlen := size + canaryExtra s.opts + 32
  if sizeMax - 32 - canaryExtra s.opts < size then allocFails
  else if s.opts.guard = true ∧ 4096 ≤ mlen then mallocGuarded env size mlen
  else mallocPlain env size mlen

/-! ### `realloc_chunk` -/

/-- What `realloc_chunk` gets from outside. -/
structure ReallocEnv where
  alloc : MguardEnv
  resize : MreguardEnv
  free : FreeEnv

def shrinkChunk (old h oldlen oldFlags newlen : ℕ) : Alloc ℕ := do
  wipe (old + newlen) (oldlen - newlen) oldFlags
  store (userLenAt h) 8 newlen
  setCanary old newlen
  return old

/-- The pointer that `mreguard` returned: header and canary are renewed if the header is found. -/
def adoptChunk (r newlen oldFlags : ℕ) : Alloc ℕ := do
  if mchunkFromUser r = 0 then return r
  else do
    let magic ← load (magicAt (mchunkFromUser r)) 4
    Prog.exec (magic = mchunkMagic) do
      store (userLenAt (mchunkFromUser r)) 8 newlen
      store (flagsAt (mchunkFromUser r)) 4 oldFlags
      setCanary r newlen
    return r

def moveChunk (env : ReallocEnv) (old oldlen oldFlags newlen : ℕ) : Alloc ℕ := do
  let newp ← mallocChunk env.alloc newlen oldFlags
  if newp = 0 then return 0
  else do
    let ncopy := min oldlen newlen
    Prog.exec (oldFlags &&& flagConceal ≠ 0) (memset (old + ncopy) (oldlen - ncopy) 0)
    memcpy newp old ncopy
    freeChunk env.free old
    return newp

def growChunk (env : ReallocEnv) (old h oldlen oldFlags newlen : ℕ) : Alloc ℕ :=
  if oldFlags &&& flagGuard ≠ 0 then do
    let len ← load (userLenAt h) 8
    match ← mreguard env.resize old len newlen with
    | some r => adoptChunk r newlen oldFlags
    | none => moveChunk env old oldlen oldFlags newlen
  else moveChunk env old oldlen oldFlags newlen

/-- `realloc_chunk` with a block and a size. -/
def resizeChunk (env : ReallocEnv) (old newlen : ℕ) : Alloc ℕ := do
  let h ← findHeader "realloc" old
  let oldlen ← load (userLenAt h) 8
  let oldFlags ← load (flagsAt h) 4
  let s ← Prog.get
  if newlen = oldlen ∧ s.opts.realloc = false then return old
  else if newlen < oldlen then shrinkChunk old h oldlen oldFlags newlen
  else growChunk env old h oldlen oldFlags newlen

def reallocChunk (env : ReallocEnv) (old newlen flags : ℕ) : Alloc ℕ :=
  if old = 0 then mallocChunk env.alloc newlen flags
  else if newlen = 0 then do
    freeChunk env.free old
    return 0
  else resizeChunk env old newlen

/-! ### Callers -/

/-- `(x + (align - 1)) & ~(align - 1)` for a power of two. -/
def alignUp (x align : ℕ) : ℕ := wrap (x + (align - 1)) / align * align

/-- `aligned_alloc_chunk`; the two Booleans are `__malloc_replaced` and `__aligned_alloc_replaced`. -/
def alignedAllocChunk (env : MguardEnv) (mallocReplaced alignedReplaced : Bool)
    (align len flags : ℕ) : Alloc ℕ := do
  if mallocReplaced = true ∧ alignedReplaced = false then return 0
  else if align &&& (align - 1) ≠ 0 ∨ align = 0 ∨ align < 8 then return 0
  else if len % align ≠ 0 then return 0
  else if align ≤ 8 then mallocChunk env len flags
  else if sizeMax - (align - 1 + 8) < len then return 0
  else do
    let raw ← mallocChunk env (len + (align - 1 + 8)) flags
    let aligned := alignUp (raw + 8) align
    store (wrap (aligned + 2 ^ 64 - 8)) 8 raw
    return aligned

def reallocarray (env : ReallocEnv) (p m n : ℕ) : Alloc ℕ :=
  if n ≠ 0 ∧ sizeMax / n < m then return 0 else reallocChunk env p (wrap (m * n)) 0

/-- The bytes by which an array grew are cleared; those by which it shrank as well, where they would
be behind its new end. -/
def clearBeyond (q oldsize newsize : ℕ) : Alloc Unit :=
  if oldsize < newsize then memset (q + oldsize) (newsize - oldsize) 0
  else Prog.exec (newsize < oldsize) (memset (q + newsize) (oldsize - newsize) 0)

def recallocarray (env : ReallocEnv) (p oldnmemb nmemb size : ℕ) : Alloc ℕ :=
  let oldsize := if p ≠ 0 then wrap (oldnmemb * size) else 0
  let newsize := wrap (nmemb * size)
  if nmemb ≠ 0 ∧ sizeMax / nmemb < size then return 0
  else if p ≠ 0 ∧ oldnmemb ≠ 0 ∧ sizeMax / oldnmemb < size then return 0
  else do
    let q ← reallocarray env p nmemb size
    if q = 0 then return 0
    else do
      clearBeyond q oldsize newsize
      return q

end Musl.Malloc
