import Musl.Lib.FaultProgram
import Musl.Lib.RegionLayout
import Musl.Malloc.MallocOptions

/-!
# The state of the default allocator, and the operations it is built from

The allocator of `src/malloc/malloc_mchunk/mallocopts.c` on x86-64 Linux: 4096-byte pages,
eight-byte pointers and `size_t`, and the 32-byte `struct __mchunk` in front of every user pointer.

The chunk headers live in the bytes of the address space.  The list nodes (`struct __guard_entry`,
`struct __guard_quarantine`, `struct __page_cache_entry`), each on a page of its own from `mmap`, are
records that know their page: reading a node through `touch` faults once its page is gone.  A single
thread runs, so the locks are left out, and the statistics are those of a build without
`MALLOC_STATS`: none.  `check_malloc_options_once` runs before any option is read, so its result is
part of the state from the start.
-/

namespace Musl.Malloc

open Musl.Lib Prog

/-- `SIZE_MAX`, also `UINTPTR_MAX`. -/
def sizeMax : ℕ := 2 ^ 64 - 1

/-- `size_t` arithmetic wraps. -/
def wrap (x : ℕ) : ℕ := x % 2 ^ 64

lemma wrap_of_lt {x : ℕ} (h : x < 2 ^ 64) : wrap x = x := Nat.mod_eq_of_lt h

lemma wrap_sub {a b : ℕ} (hb : b ≤ a) (ha : a < 2 ^ 64) : wrap (a + 2 ^ 64 - b) = a - b := by
  unfold wrap
  omega

/-- `(x + PAGE_SIZE - 1) & ~(PAGE_SIZE - 1)`. -/
def roundPage (x : ℕ) : ℕ := wrap (x + 4095) / 4096 * 4096

/-! ### `mchunk.h` -/

def mchunkMagic : ℕ := 0xC0DECAFE
def mchunkMagicFreed : ℕ := 0xDEAD0000
/-- `MCHUNK_FLAG_CONCEAL`. -/
def flagConceal : ℕ := 1
/-- `MCHUNK_FLAG_GUARD`. -/
def flagGuard : ℕ := 2

/-- `mchunk_from_user`: the header sits 32 bytes in front of the user pointer. -/
@[irreducible] def mchunkFromUser (p : ℕ) : ℕ := wrap (p + 2 ^ 64 - 32)

/-! The fields of `struct __mchunk`, by their offsets. -/

def magicAt (h : ℕ) : ℕ := h
def flagsAt (h : ℕ) : ℕ := h + 4
def userLenAt (h : ℕ) : ℕ := h + 8
def totalLenAt (h : ℕ) : ℕ := h + 16
def baseAt (h : ℕ) : ℕ := h + 24

/-! ### The tables of the allocator -/

/-- A list node: the page `mmap` gave for it. -/
structure Node where
  addr : ℕ
  tag : ℕ
  deriving DecidableEq, Repr

structure DelayedChunk where
  addr : ℕ
  len : ℕ
  when : ℕ
  deriving DecidableEq, Repr

structure GuardEntry where
  node : Node
  base : ℕ
  total : ℕ
  ref : Int32
  removed : Bool
  deriving DecidableEq, Repr

structure GuardQuarantine where
  node : Node
  base : ℕ
  total : ℕ
  when : ℕ
  deriving DecidableEq, Repr

/-- `struct __page_cache_entry`. -/
structure CacheEntry where
  node : Node
  ptr : ℕ
  len : ℕ
  deriving DecidableEq, Repr

/-- A call fails to return: it executes `m_crash` or `a_crash`, or touches an address that is
unmapped or without access. -/
inductive Stop where
  | crash (msg : String)
  | fault (addr : ℕ)
  deriving DecidableEq, Repr

/-- What a call does to memory that is not a table of its own. -/
inductive Access where
  | read (a n : ℕ)
  | write (a n : ℕ)
  | fill (a n : ℕ) (v : UInt8)
  | protect (a n : ℕ)
  | unmap (a n : ℕ)
  | map (a n : ℕ)
  | remap (a n b k : ℕ)
  | mapFailed
  deriving DecidableEq, Repr

structure Heap where
  opts : MallocOpts
  /-- `__heap_canary_secret`. -/
  secret : UInt64
  mem : Space
  /-- The last reading of `CLOCK_MONOTONIC`, in seconds. -/
  clock : ℕ
  /-- `__delayed_chunks[0 .. __delayed_count)`. -/
  delayed : List DelayedChunk
  /-- `__guard_list`, head first. -/
  guardList : List GuardEntry
  /-- Guard entries that are off the list and not unmapped yet. -/
  detached : List GuardEntry
  /-- `__guard_q`, head first. -/
  guardQ : List GuardQuarantine
  /-- `__page_cache_heads`, each list head first. -/
  heads : ℕ → List CacheEntry
  /-- `__page_cache_bytes`. -/
  cacheBytes : ℕ
  trace : List Access

/-- The static data of `mallocopts.c` at process start, with the options parsed, in a process whose
memory is `m`. -/
def Heap.start (o : MallocOpts) (secret : UInt64) (m : Space) : Heap where
  opts := o
  secret := secret
  mem := m
  clock := 0
  delayed := []
  guardList := []
  detached := []
  guardQ := []
  heads := fun _ => []
  cacheBytes := 0
  trace := []

abbrev Alloc : Type → Type := Prog Stop Heap

def Heap.log (s : Heap) (ev : Access) : Heap := { s with trace := ev :: s.trace }

/-! ### Memory accesses -/

/-- Read an `n`-byte word. -/
def load (a n : ℕ) : Alloc ℕ := fun s =>
  if s.mem.accessible a n = true then .ok (s.mem.loadLE a n) (s.log (.read a n))
  else .stop (.fault a) s

/-- Write an `n`-byte word. -/
def store (a n v : ℕ) : Alloc Unit := fun s =>
  if s.mem.accessible a n = true then
    .ok () ({ s with mem := s.mem.storeLE a n v }.log (.write a n))
  else .stop (.fault a) s

/-- `memset`, also `explicit_bzero`. -/
def memset (a n : ℕ) (v : UInt8) : Alloc Unit := fun s =>
  if s.mem.accessible a n = true then
    .ok () ({ s with mem := s.mem.fill a n v }.log (.fill a n v))
  else .stop (.fault a) s

def memcpy (d a n : ℕ) : Alloc Unit := fun s =>
  if s.mem.accessible a n = true ∧ s.mem.accessible d n = true then
    .ok () (({ s with mem := s.mem.copy d a n }.log (.read a n)).log (.write d n))
  else .stop (.fault a) s

/-- Use a list node: its page must still be the one `mmap` gave for it. -/
def touch (nd : Node) : Alloc Unit := fun s =>
  if s.mem.page (nd.addr / 4096) = some ⟨.rw, nd.tag⟩ then .ok () s else .stop (.fault nd.addr) s

/-- `if (c) m_crash(msg)`. -/
def crashIf (c : Prop) [Decidable c] (msg : String) : Alloc Unit := Prog.stopIf c (.crash msg)

/-! ### System calls -/

/-- `mmap(NULL, len, PROT_READ | PROT_WRITE, MAP_PRIVATE | MAP_ANONYMOUS, -1, 0)`.  The kernel
answers with `place` when that address can take the mapping; any other answer is a failure
(`none` for `MAP_FAILED`). -/
def mmap (place : Option ℕ) (len : ℕ) : Alloc (Option ℕ) := fun s =>
  match place with
  | some a =>
    if s.mem.placeable a len = true then
      .ok (some a) ({ s with mem := s.mem.mmapAt a len }.log (.map a len))
    else .ok none (s.log .mapFailed)
  | none => .ok none (s.log .mapFailed)

def mmapNode (place : Option ℕ) (size : ℕ) : Alloc (Option Node) := do
  let s ← Prog.get
  let r ← mmap place size
  return r.map fun a => ⟨a, s.mem.next⟩

/-- `munmap(a, len)`; a refused call leaves no trace. -/
def munmap (a len : ℕ) : Alloc Unit := fun s =>
  if a % 4096 = 0 ∧ 0 < len ∧ a + len ≤ 2 ^ 47 then
    .ok () ({ s with mem := s.mem.munmap a len }.log (.unmap a (pagesOf len * 4096)))
  else .ok () s

/-- `munmap(e, sizeof(*e))` of a list node. -/
def munmapNode (nd : Node) (size : ℕ) : Alloc Unit :=
  Prog.modify fun s => { s with mem := s.mem.munmap nd.addr size }

def mprotect (a len : ℕ) (p : Prot) : Alloc Unit :=
  Prog.modify fun s => { s with mem := s.mem.mprotect a len p }.log (.protect a len)

/-- `mprotect(a, len, prot) == 0`, where the kernel may also refuse. -/
def tryMprotect (granted : Bool) (a len : ℕ) (p : Prot) : Alloc Bool := do
  Prog.exec (granted = true) (mprotect a len p)
  return granted

/-- `mremap(a, len, len', MREMAP_MAYMOVE)`, with the answer `place` of the kernel. -/
def mremap (place : Option ℕ) (a len len' : ℕ) : Alloc (Option ℕ) := fun s =>
  match place with
  | some b =>
    if s.mem.remappable a len b len' = true then
      .ok (some b) ({ s with mem := s.mem.mremapTo a len b len' }.log (.remap a len b len'))
    else .ok none s
  | none => .ok none s

/-- `monotonic_seconds`: the clock has advanced by `d` seconds since its last reading. -/
def monotonicSeconds (d : ℕ) : Alloc ℕ := fun s => .ok (s.clock + d) { s with clock := s.clock + d }

/-! ### What the primitives do -/

section Rules

variable {s : Heap} {E : Stop → Heap → Prop} {R : Unit → Heap → Prop}

lemma sat_crashIf {α : Type} {c : Prop} [Decidable c] {msg : String} {f : Unit → Alloc α}
    {Q : α → Heap → Prop}
    (hE : c → E (.crash msg) s) (h : ¬c → (f () s).Sat Q E) : ((crashIf c msg >>= f) s).Sat Q E :=
  sat_bind.2 (sat_stopIf.2 ⟨hE, h⟩)

variable {a n d len size : ℕ} {Q : Option ℕ → Heap → Prop} {place : Option ℕ}

lemma load_ok (h : s.mem.accessible a n = true) :
    load a n s = .ok (s.mem.loadLE a n) (s.log (.read a n)) := by
  rw [load, if_pos h]

lemma load_fault (h : ¬s.mem.accessible a n = true) : load a n s = .stop (.fault a) s := by
  rw [load, if_neg h]

section

variable (h : s.mem.accessible a n = true)

include h

lemma store_ok {v : ℕ} :
    store a n v s = .ok () ({ s with mem := s.mem.storeLE a n v }.log (.write a n)) := by
  rw [store, if_pos h]

lemma memset_ok {v : UInt8} :
    memset a n v s = .ok () ({ s with mem := s.mem.fill a n v }.log (.fill a n v)) := by
  rw [memset, if_pos h]

lemma memcpy_ok (h' : s.mem.accessible d n = true) :
    memcpy d a n s = .ok () (({ s with mem := s.mem.copy d a n }.log (.read a n)).log (.write d n)) := by
  rw [memcpy, if_pos ⟨h, h'⟩]

end

lemma sat_memcpy
    (hok : s.mem.accessible a n = true → s.mem.accessible d n = true →
      R () (({ s with mem := s.mem.copy d a n }.log (.read a n)).log (.write d n)))
    (hbad : ¬(s.mem.accessible a n = true ∧ s.mem.accessible d n = true) → E (.fault a) s) :
    (memcpy d a n s).Sat R E := by
  by_cases h : s.mem.accessible a n = true ∧ s.mem.accessible d n = true
  · rw [memcpy_ok h.1 h.2]
    exact hok h.1 h.2
  · rw [memcpy, if_neg h]
    exact hbad h

/-- The page of a node is the one `mmap` gave for it. -/
def NodeOk (m : Space) (nd : Node) : Prop := m.page (nd.addr / 4096) = some ⟨.rw, nd.tag⟩

lemma touch_ok {nd : Node} (h : NodeOk s.mem nd) : touch nd s = .ok () s := by
  unfold NodeOk at h
  rw [touch, if_pos h]

lemma sat_mmap
    (hok : ∀ a, place = some a → s.mem.placeable a len = true →
      Q (some a) ({ s with mem := s.mem.mmapAt a len }.log (.map a len)))
    (hfail : Q none (s.log .mapFailed)) : (mmap place len s).Sat Q E := by
  cases place with
  | none => exact hfail
  | some a =>
    by_cases hp : s.mem.placeable a len = true
    · rw [mmap, if_pos hp]
      exact hok a rfl hp
    · rw [mmap, if_neg hp]
      exact hfail

lemma sat_mmapNode {Q : Option Node → Heap → Prop}
    (hok : ∀ a, place = some a → s.mem.placeable a size = true →
      Q (some ⟨a, s.mem.next⟩) ({ s with mem := s.mem.mmapAt a size }.log (.map a size)))
    (hfail : Q none (s.log .mapFailed)) : (mmapNode place size s).Sat Q E := by
  rw [mmapNode, sat_bind, sat_get, sat_bind]
  exact sat_mmap hok hfail

lemma sat_munmap (h : ∀ tr, s.trace ⊆ tr → R () { s with mem := s.mem.munmap a len, trace := tr }) :
    (munmap a len s).Sat R E := by
  unfold munmap
  by_cases hc : a % 4096 = 0 ∧ 0 < len ∧ a + len ≤ 2 ^ 47
  · rw [if_pos hc]
    exact h _ (List.subset_cons_self _ _)
  · rw [if_neg hc]
    have hm : s.mem.munmap a len = s.mem := by rw [Space.munmap, if_neg hc]
    have h' := h s.trace (List.Subset.refl _)
    rw [hm] at h'
    exact h'

lemma sat_mremap {len' : ℕ}
    (hok : ∀ b, place = some b → s.mem.remappable a len b len' = true →
      Q (some b) ({ s with mem := s.mem.mremapTo a len b len' }.log (.remap a len b len')))
    (hfail : Q none s) : (mremap place a len len' s).Sat Q E := by
  cases place with
  | none => exact hfail
  | some b =>
    by_cases hr : s.mem.remappable a len b len' = true
    · rw [mremap, if_pos hr]
      exact hok b rfl hr
    · rw [mremap, if_neg hr]
      exact hfail

lemma nodeOk_mmapAt {m : Space} (hp : m.placeable a size = true) :
    NodeOk (m.mmapAt a size) ⟨a, m.next⟩ := by
  obtain ⟨⟨ha, _, hsz, _⟩, _⟩ := Space.placeable_iff.1 hp
  have hpos := Space.pagesOf_pos hsz
  unfold NodeOk
  simp only [Space.mmapAt]
  rw [if_pos ⟨le_rfl, by omega⟩]

end Rules

end Musl.Malloc
