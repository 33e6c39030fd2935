import Musl.Malloc.MchunkState

/-!
# Guarded mappings and their metadata

The functions of `src/malloc/malloc_mchunk/mallocopts.c` around `__guard_list` and `__guard_q`: a
guarded mapping is `[guard page | interior | guard page]`, with an entry on the guard list that
carries a reference count.  The list itself holds one reference; `find_guard_by_ptr` takes references
while it walks and hands one to its caller; `guard_release` drops one and unmaps the entry once it is
removed and the count reaches zero.  Freed guarded mappings wait in a quarantine until a sweep.

An entry that is off the list but not unmapped yet is kept in `Heap.detached`.  A single thread runs,
so the second test of `removed` in `find_guard_by_ptr`, made after the reference is taken, gives the
answer of the first and its restart branch is never entered.
-/

namespace Musl.Malloc

open Musl.Lib

/-- `sizeof(struct __guard_entry)`. -/
def sizeofGuardEntry : ℕ := 32

/-- `sizeof(struct __guard_quarantine)`. -/
def sizeofGuardQuarantine : ℕ := 32

/-! ### The guard list -/

/-- `add_guard_entry`; `false` is the answer `-1`. -/
def addGuardEntry (place : Option ℕ) (base total : ℕ) : Alloc Bool := do
  match ← mmapNode place sizeofGuardEntry with
  | none => return false
  | some nd => do
      Prog.modify fun s => { s with guardList := ⟨nd, base, total, 1, false⟩ :: s.guardList }
      return true

/-- The entry on the page `nd`, listed or not. -/
def Heap.entryOf (s : Heap) (nd : Node) : Option GuardEntry :=
  (s.guardList ++ s.detached).find? fun g => decide (g.node = nd)

/-- Give the entry on the page `nd` another count. -/
def GuardEntry.withRef (nd : Node) (f : Int32 → Int32) (g : GuardEntry) : GuardEntry :=
  if g.node = nd then { g with ref := f g.ref } else g

/-- Change the reference count of the entry on the page `nd`. -/
def Heap.mapRef (s : Heap) (nd : Node) (f : Int32 → Int32) : Heap :=
  { s with
    guardList := s.guardList.map (GuardEntry.withRef nd f)
    detached := s.detached.map (GuardEntry.withRef nd f) }

/-- Forget the entry on the page `nd`, which is unmapped. -/
def Heap.dropEntry (s : Heap) (nd : Node) : Heap :=
  { s with
    guardList := s.guardList.filter fun g => decide (g.node ≠ nd)
    detached := s.detached.filter fun g => decide (g.node ≠ nd) }

/-- `guard_hold`: `a_inc(&g->ref)`. -/
def guardHold (nd : Node) : Alloc Unit := do
  touch nd
  Prog.modify fun s => s.mapRef nd (· + 1)

/-- The entry `g` on the page `nd` loses a reference; the last reference of a removed entry takes the
page with it. -/
def dropRef (nd : Node) (g : GuardEntry) : Alloc Unit := do
  Prog.modify fun s => s.mapRef nd (· - 1)
  crashIf (g.ref ≤ 0) "malloc [guard_release]: the reference of guard is zero or negative\n"
  Prog.exec (g.ref = 1 ∧ g.removed = true) do
    Prog.modify fun s => s.dropEntry nd
    munmapNode nd sizeofGuardEntry

def guardRelease (nd : Node) : Alloc Unit := do
  touch nd
  let s ← Prog.get
  match s.entryOf nd with
  | none => Prog.stopWith (.fault nd.addr)
  | some g => dropRef nd g

/-- The walk of `remove_guard_entry`, with `pre` behind. -/
def removeFrom (base : ℕ) (pre : List GuardEntry) : List GuardEntry → Alloc Bool
  | [] => return false
  | g :: rest => do
      touch g.node
      if g.base = base then do
        Prog.modify fun s =>
          { s with guardList := pre ++ rest, detached := { g with removed := true } :: s.detached }
        guardRelease g.node
        return true
      else removeFrom base (pre ++ [g]) rest

/-- `remove_guard_entry`; `false` is the answer `-1`. -/
def removeGuardEntry (base : ℕ) : Alloc Bool := do
  let s ← Prog.get
  if base = 0 then return false else removeFrom base [] s.guardList

/-- Does the interior of the entry contain the address `p`? -/
def GuardEntry.holds (g : GuardEntry) (p : ℕ) : Bool :=
  let userBase := wrap (g.base + 4096)
  let usable := wrap (g.total + 2 ^ 64 - 8192)
  let userEnd := wrap (userBase + usable)
  decide (usable ≠ 0 ∧ userBase ≤ userEnd ∧ userBase ≤ p ∧ p < userEnd)

/-- `if (next) a_inc(&next->ref)`. -/
def holdNext : List GuardEntry → Alloc Unit
  | [] => pure ()
  | n :: _ => guardHold n.node

/-- The walk of `find_guard_by_ptr`. -/
def findFrom (p : ℕ) : List GuardEntry → Alloc (Option GuardEntry)
  | [] => return none
  | g :: rest => do
      touch g.node
      if g.removed = true then findFrom p rest
      else do
        guardHold g.node
        if g.holds p = true then return some g
        else do
          holdNext rest
          guardRelease g.node
          findFrom p rest

/-- `find_guard_by_ptr`; the entry is answered with the fields that the walk does not change. -/
def findGuardByPtr (p : ℕ) : Alloc (Option GuardEntry) := do
  let s ← Prog.get
  if p = 0 then return none else findFrom p s.guardList

/-! ### The quarantine -/

/-- `guard_quarantine_add`; `d` is what the clock advances. -/
def guardQuarantineAdd (place : Option ℕ) (d base total : ℕ) : Alloc Unit := do
  match ← mmapNode place sizeofGuardQuarantine with
  | none => pure ()
  | some nd => do
      let now ← monotonicSeconds d
      Prog.modify fun s => { s with guardQ := ⟨nd, base, total, now⟩ :: s.guardQ }

/-- The loop of `guard_quarantine_sweep`, with `pre` behind. -/
def sweepFrom (now : ℕ) (pre : List GuardQuarantine) : List GuardQuarantine → Alloc Unit
  | [] => pure ()
  | q :: rest => do
      touch q.node
      if 1 ≤ wrap (now + 2 ^ 64 - q.when) then do
        Prog.modify fun s => { s with guardQ := pre ++ rest }
        let _ ← removeGuardEntry q.base
        crashIf (q.total = 0 ∨ sizeMax / 2 < q.total ∨ q.total % 4096 ≠ 0)
          "free() [guard_quarantine_sweep]: corrupted guard quarantine size\n"
        munmap q.base q.total
        munmapNode q.node sizeofGuardQuarantine
        sweepFrom now pre rest
      else sweepFrom now (pre ++ [q]) rest

def guardQuarantineSweep (now : ℕ) : Alloc Unit := do
  let s ← Prog.get
  sweepFrom now [] s.guardQ

/-! ### Guarded mappings -/

/-- The answers of the kernel to `mguard`: where the mapping goes, whether the two guard pages can be
protected, and where the list entry goes. -/
structure MguardEnv where
  map : Option ℕ
  frontOk : Bool
  rearOk : Bool
  node : Option ℕ

/-- Both guard pages of the mapping at `base` get no access; the second call is not made when the
first one fails. -/
def protectGuards (frontOk rearOk : Bool) (base aligned : ℕ) : Alloc Bool := do
  if ← tryMprotect frontOk base 4096 .none then
    tryMprotect rearOk (base + 4096 + aligned) 4096 .none
  else return false

def relaxGuards (base aligned : ℕ) : Alloc Unit := do
  mprotect base 4096 .rw
  mprotect (base + 4096 + aligned) 4096 .rw

inductive Armed where
  | done
  | protectFailed
  | entryFailed
  deriving DecidableEq, Repr

/-- Guard pages and list entry for the mapping at `base` that `mguard` or `mreguard` has just made;
after a failure the mapping is gone. -/
def armGuards (env : MguardEnv) (base aligned : ℕ) : Alloc Armed := do
  if ← protectGuards env.frontOk env.rearOk base aligned then
    if ← addGuardEntry env.node base (aligned + 8192) then return .done
    else do
      relaxGuards base aligned
      munmap base (aligned + 8192)
      return .entryFailed
  else do
    munmap base (aligned + 8192)
    return .protectFailed

/-- The size of the interior that `mguard` makes for `size` bytes. -/
def guardAligned (size : ℕ) : ℕ := if size % 4096 ≠ 0 then roundPage size else size

/-- `mguard`; `none` is `MAP_FAILED`.  `mlock` and `madvise` of a concealed mapping change nothing
that the allocator can see. -/
def mguard (env : MguardEnv) (size : ℕ) : Alloc (Option ℕ) := do
  let s ← Prog.get
  if size = 0 then do
    crashIf (s.opts.xmalloc = true) "malloc() [mguard]: allocation failed"
    return none
  else if s.opts.guard = false then mmap env.map size
  else if sizeMax - 8192 < guardAligned size then return none
  else do
    match ← mmap env.map (guardAligned size + 8192) with
    | none => return none
    | some base => do
        let r ← armGuards env base (guardAligned size)
        return if r = .done then some (base + 4096) else none

/-- The answers of the kernel to `mreguard`: the answer of `mremap`, and those for the fallback.  The
entry of the list goes to `fresh.node` on both ways. -/
structure MreguardEnv where
  remap : Option ℕ
  fresh : MguardEnv

/-- `mreguard` after `mremap` has moved the mapping of `g` to `newBase`. -/
def mreguardMoved (env : MreguardEnv) (g : GuardEntry) (newBase newAligned : ℕ) :
    Alloc (Option ℕ) := do
  mprotect newBase 4096 .none
  mprotect (newBase + 4096 + newAligned) 4096 .none
  let added ← addGuardEntry env.fresh.node newBase (newAligned + 8192)
  crashIf (added = false) "realloc() [mreguard]: guard metadata allocation failed after mremap\n"
  let gone ← removeGuardEntry g.base
  crashIf (gone = false) "realloc() [mreguard]: failed to remove old guard entry after mremap\n"
  guardRelease g.node
  return some (newBase + 4096)

/-- `mreguard` once the new mapping at `newBase` is armed: the old one goes. -/
def mreguardReplace (g : GuardEntry) (newBase newAligned : ℕ) : Alloc (Option ℕ) := do
  if ← removeGuardEntry g.base then do
    munmap g.base g.total
    guardRelease g.node
    return some (newBase + 4096)
  else do
    let _ ← removeGuardEntry newBase
    munmap newBase (newAligned + 8192)
    guardRelease g.node
    return none

/-- `mreguard` after `mremap` has failed: map, copy, register, and remove the old mapping.  A failure
to map or to protect returns without `guard_release(g)`, a failure to register returns with it. -/
def mreguardCopied (env : MreguardEnv) (g : GuardEntry) (p oldSize newSize newAligned : ℕ) :
    Alloc (Option ℕ) := do
  match ← mmap env.fresh.map (newAligned + 8192) with
  | none => return none
  | some newBase => do
      memcpy (newBase + 4096) p (min newSize oldSize)
      match ← armGuards env.fresh newBase newAligned with
      | .protectFailed => return none
      | .entryFailed => do
          guardRelease g.node
          return none
      | .done => mreguardReplace g newBase newAligned

/-- `mreguard` on the entry `g` that `find_guard_by_ptr` returned, with the new size rounded up to
`newAligned`.  The second overflow test, `new_total < new_aligned`, cannot hold once the first one
has passed. -/
def mreguardEntry (env : MreguardEnv) (g : GuardEntry) (p oldSize newSize newAligned : ℕ) :
    Alloc (Option ℕ) := do
  if sizeMax - 8192 < newAligned then return none
  else do
    match ← mremap env.remap g.base g.total (newAligned + 8192) with
    | some newBase => mreguardMoved env g newBase newAligned
    | none => mreguardCopied env g p oldSize newSize newAligned

/-- `mreguard`; `none` is `MAP_FAILED`.  Without guard pages it is a plain `mremap`. -/
def mreguard (env : MreguardEnv) (p oldSize newSize : ℕ) : Alloc (Option ℕ) := do
  let s ← Prog.get
  crashIf (p = 0 ∨ oldSize = 0 ∨ newSize = 0) "realloc() [mreguard]: allocation failed"
  if s.opts.guard = false then mremap env.remap p oldSize newSize
  else do
    match ← findGuardByPtr p with
    | none => return none
    | some g => mreguardEntry env g p oldSize newSize (roundPage newSize)

end Musl.Malloc
