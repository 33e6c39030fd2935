import Musl.Malloc.MchunkState

/-!
# The page cache

`page_cache_put`, `page_cache_try_get` and `page_cache_trim` of
`src/malloc/malloc_mchunk/mallocopts.c`: up to 32 buckets of singly linked lists of freed mappings,
one byte counter for all of them, and a capacity.

The bucket of an insertion is picked from pointer and length, the bucket a lookup starts from by the
length alone; the lookup then walks all other buckets.  `pageCacheTryGet_spec` says that the detour
loses nothing: from a cache whose nodes are intact it finds an entry of the length asked for exactly
when there is one.
-/

namespace Musl.Malloc

open Musl.Lib List Prog Nat Function

def pageCacheCapacity (o : MallocOpts) : ℕ := 2 ^ o.cachesize * 1024

def pageCacheBucketCount (o : MallocOpts) : ℕ := 2 ^ min o.mutexes 5

def pageCachePickBucket (o : MallocOpts) (ptr len : ℕ) : ℕ :=
  ((ptr >>> 12) ^^^ (len >>> 12)) &&& (pageCacheBucketCount o - 1)

/-- `sizeof(struct __page_cache_entry)`. -/
def sizeofCacheEntry : ℕ := 24

/-- Unlink an entry: the list of its bucket becomes `l`, and its bytes leave the counter. -/
def unlinkEntry (b : ℕ) (l : List CacheEntry) (e : CacheEntry) : Alloc Unit :=
  Prog.modify fun s =>
    { s with
      heads := Function.update s.heads b l
      cacheBytes := wrap (s.cacheBytes + 2 ^ 64 - e.len) }

/-- The inner loop of `page_cache_trim`: drop entries from the head of bucket `b` while the cache is
over `cap`. -/
def trimBucket (cap b : ℕ) : List CacheEntry → Alloc Unit
  | [] => pure ()
  | e :: rest => do
      let s ← Prog.get
      Prog.exec (cap < s.cacheBytes) do
        touch e.node
        unlinkEntry b rest e
        munmap e.ptr e.len
        munmapNode e.node sizeofCacheEntry
        trimBucket cap b rest

/-- The outer loop of `page_cache_trim`, over the `k` buckets from `b` on. -/
def trimFrom (cap : ℕ) : ℕ → ℕ → Alloc Unit
  | 0, _ => pure ()
  | k + 1, b => do
      let s ← Prog.get
      Prog.exec (cap < s.cacheBytes) do
        trimBucket cap b (s.heads b)
        trimFrom cap k (b + 1)

def pageCacheTrim : Alloc Unit := do
  let s ← Prog.get
  let cap := pageCacheCapacity s.opts
  Prog.exec (cap < s.cacheBytes) (trimFrom cap (pageCacheBucketCount s.opts) 0)

/-- The tail of `page_cache_put` once the region is accepted: a node from `mmap`, pushed on its
bucket.  The second capacity test, under the lock, repeats the first and gives the same answer to a
single thread. -/
def pushEntry (place : Option ℕ) (ptr len : ℕ) : Alloc Unit := do
  let s ← Prog.get
  let b := pageCachePickBucket s.opts ptr len
  match ← mmapNode place sizeofCacheEntry with
  | none => munmap ptr len
  | some nd => Prog.modify fun s =>
      { s with
        heads := Function.update s.heads b (⟨nd, ptr, len⟩ :: s.heads b)
        cacheBytes := wrap (s.cacheBytes + len) }

/-- Is the region refused?  An empty or null region, a length that is no multiple of the page size,
guard pages, no capacity, or no room. -/
def cacheRefuses (s : Heap) (ptr len : ℕ) : Prop :=
  ptr = 0 ∨ len = 0 ∨ len % 4096 ≠ 0 ∨ s.opts.guard = true ∨ pageCacheCapacity s.opts = 0 ∨
    pageCacheCapacity s.opts < wrap (s.cacheBytes + len)

instance (s : Heap) (ptr len : ℕ) : Decidable (cacheRefuses s ptr len) :=
  inferInstanceAs (Decidable (ptr = 0 ∨ len = 0 ∨ len % 4096 ≠ 0 ∨ s.opts.guard = true ∨
    pageCacheCapacity s.opts = 0 ∨ pageCacheCapacity s.opts < wrap (s.cacheBytes + len)))

/-- `page_cache_put`; `place` is where the kernel puts the new node. -/
def pageCachePut (place : Option ℕ) (ptr len : ℕ) : Alloc Unit := do
  let s ← Prog.get
  if cacheRefuses s ptr len then munmap ptr len else pushEntry place ptr len

/-- Walk bucket `b`, of which `pre` is behind, for an entry of length `len`; unlink the first. -/
def scanBucket (len b : ℕ) (pre : List CacheEntry) : List CacheEntry → Alloc (Option ℕ)
  | [] => pure none
  | e :: rest => do
      touch e.node
      if e.len = len then do
        unlinkEntry b (pre ++ rest) e
        munmapNode e.node sizeofCacheEntry
        return some e.ptr
      else scanBucket len b (pre ++ [e]) rest

/-- The secondary scan, over the `k` buckets from `b` on except the primary one. -/
def scanOthers (len primary : ℕ) : ℕ → ℕ → Alloc ℕ
  | 0, _ => pure 0
  | k + 1, b =>
      if b = primary then scanOthers len primary k (b + 1)
      else do
        let s ← Prog.get
        match ← scanBucket len b [] (s.heads b) with
        | some p => pure p
        | none => scanOthers len primary k (b + 1)

/-- `page_cache_try_get`; `0` is the null pointer. -/
def pageCacheTryGet (len : ℕ) : Alloc ℕ := do
  let s ← Prog.get
  if s.opts.guard = true ∨ len % 4096 ≠ 0 ∨ pageCacheCapacity s.opts = 0 then return 0
  else do
    let primary := pageCachePickBucket s.opts len len
    match ← scanBucket len primary [] (s.heads primary) with
    | some p => pure p
    | none => scanOthers len primary (pageCacheBucketCount s.opts) 0

/-! ### Buckets -/

section

variable (o : MallocOpts)

include o

lemma bucketCount_pos : 0 < pageCacheBucketCount o :=
  Nat.two_pow_pos _

lemma bucketCount_le : pageCacheBucketCount o ≤ 32 := by
  calc 2 ^ min o.mutexes 5 ≤ 2 ^ 5 := Nat.pow_le_pow_right (by norm_num) (min_le_right _ _)
    _ = 32 := by norm_num

lemma pickBucket_lt (ptr len : ℕ) : pageCachePickBucket o ptr len < pageCacheBucketCount o := by
  have hle : pageCachePickBucket o ptr len ≤ pageCacheBucketCount o - 1 := and_le_right
  have hpos := bucketCount_pos o
  omega

lemma capacity_pos : 0 < pageCacheCapacity o := by
  unfold pageCacheCapacity
  positivity

lemma capacity_le : pageCacheCapacity o ≤ 2 ^ 18 := by
  unfold pageCacheCapacity
  have h : 2 ^ o.cachesize ≤ 2 ^ 8 := Nat.pow_le_pow_right (by norm_num) o.cachesize_le
  omega

end

def cachedEntries (s : Heap) : List CacheEntry := (List.range 32).flatMap s.heads

variable {b len : ℕ} {e : CacheEntry} {s : Heap} {E : Stop → Heap → Prop}

lemma flatMap_update_perm {α : Type} (f : ℕ → List α) {e : α} {pre post : List α}
    (hb : f b = pre ++ e :: post) :
    ∀ l : List ℕ, l.Nodup → b ∈ l → (l.flatMap f).Perm (e :: l.flatMap (update f b (pre ++ post))) := by
  intro l
  induction l with
  | nil => intro _ hmem; cases hmem
  | cons a l ih =>
    intro hnd hmem
    rw [nodup_cons] at hnd
    simp only [flatMap_cons]
    by_cases hab : a = b
    · subst hab
      have hrest : l.flatMap (update f a (pre ++ post)) = l.flatMap f := by
        apply flatMap_congr
        intro x hx
        rw [update_of_ne]
        rintro rfl
        exact hnd.1 hx
      rw [hrest, update_self, hb, append_assoc, append_assoc pre post]
      exact perm_middle
    · have hmem' : b ∈ l := by
        rcases mem_cons.1 hmem with h | h
        · exact absurd h.symm hab
        · exact h
      rw [update_of_ne hab]
      exact ((ih hnd.2 hmem').append_left (f a)).trans perm_middle

lemma cachedEntries_unlink {pre post : List CacheEntry} (hb : b < 32)
    (h : s.heads b = pre ++ e :: post) (s' : Heap)
    (hs' : s'.heads = update s.heads b (pre ++ post)) :
    (cachedEntries s).Perm (e :: cachedEntries s') := by
  unfold cachedEntries
  rw [hs']
  exact flatMap_update_perm s.heads h _ nodup_range (mem_range.2 hb)

lemma cachedEntries_push {s' : Heap} (hb : b < 32) (hs' : s'.heads = update s.heads b (e :: s.heads b)) :
    (cachedEntries s').Perm (e :: cachedEntries s) := by
  have hpush : s'.heads b = [] ++ e :: s.heads b := by
    rw [hs', update_self, nil_append]
  refine cachedEntries_unlink hb hpush s ?_
  rw [hs', update_idem, nil_append, update_eq_self]

lemma mem_cachedEntries : e ∈ cachedEntries s ↔ ∃ b < 32, e ∈ s.heads b := by
  simp [cachedEntries]

/-! ### Lookup -/

/-- The state once entry `e` is unlinked from bucket `b`, whose list becomes `l`, and its node is
unmapped. -/
def Heap.takeEntry (s : Heap) (b : ℕ) (l : List CacheEntry) (e : CacheEntry) : Heap :=
  { s with
    heads := Function.update s.heads b l
    cacheBytes := wrap (s.cacheBytes + 2 ^ 64 - e.len)
    mem := s.mem.munmap e.node.addr sizeofCacheEntry }

/-- **One bucket.**  The walk finds the first entry of the length asked for, or there is none. -/
theorem scanBucket_spec : ∀ (rest pre : List CacheEntry) (s : Heap), (∀ e ∈ rest, NodeOk s.mem e.node) →
      (scanBucket len b pre rest s).Sat (fun r s' => (r = none ∧ s' = s ∧ ∀ e ∈ rest, e.len ≠ len) ∨
        ∃ l e post, rest = l ++ e :: post ∧ e.len = len ∧ r = some e.ptr ∧
          s' = s.takeEntry b (pre ++ l ++ post) e) E := by
  intro rest
  induction rest with
  | nil =>
    intro pre s _
    exact .inl ⟨rfl, rfl, fun e he => by cases he⟩
  | cons e rest ih =>
    intro pre s hn
    rw [scanBucket, sat_bind, touch_ok (hn e mem_cons_self)]
    simp only [Outcome.sat_ok]
    rw [sat_ite]
    refine ⟨fun hlen => ?_, fun hlen => ?_⟩
    · exact .inr ⟨[], e, rest, rfl, hlen, rfl, by simp only [append_nil]; rfl⟩
    · refine (ih (pre ++ [e]) s (forall_mem_cons.1 hn).2).imp ?_
      rintro r s' (⟨hr, hs, hno⟩ | ⟨l, x, post, hrest, hx, hr, hs⟩)
      · refine .inl ⟨hr, hs, ?_⟩
        intro x hx
        rcases mem_cons.1 hx with rfl | hx
        · exact hlen
        · exact hno x hx
      · refine .inr ⟨e :: l, x, post, by rw [hrest, cons_append], hx, hr, ?_⟩
        rw [hs]
        simp

/-- What a lookup leaves: nothing found and nothing changed, or one entry of the length asked for
taken out of its bucket. -/
def Taken (s : Heap) (len : ℕ) (p : ℕ) (s' : Heap) : Prop :=
  (p = 0 ∧ s' = s) ∨
    ∃ b < pageCacheBucketCount s.opts, ∃ l e post, s.heads b = l ++ e :: post ∧ e.len = len ∧
      p = e.ptr ∧ s' = s.takeEntry b (l ++ post) e

lemma scanOthers_spec {primary : ℕ}
    (hn : ∀ b < pageCacheBucketCount s.opts, ∀ e ∈ s.heads b, NodeOk s.mem e.node)
    (hptr : ∀ b < pageCacheBucketCount s.opts, ∀ e ∈ s.heads b, e.ptr ≠ 0) :
    ∀ k b, b + k = pageCacheBucketCount s.opts →
    (scanOthers len primary k b s).Sat (fun p s' => Taken s len p s' ∧
        (p = 0 ↔ ∀ c < pageCacheBucketCount s.opts, b ≤ c → c ≠ primary → ∀ e ∈ s.heads c,
          e.len ≠ len)) E := by
  intro k
  induction k with
  | zero =>
    intro b hb
    refine ⟨.inl ⟨rfl, rfl⟩, fun _ c hc hbc => ?_, fun _ => rfl⟩
    omega
  | succ k ih =>
    intro b hb
    have hnext := ih (b + 1) (by omega)
    rw [scanOthers, sat_ite]
    refine ⟨fun hprim => ?_, fun hprim => ?_⟩
    · refine hnext.imp ?_
      rintro p s' ⟨htk, hiff⟩
      refine ⟨htk, hiff.trans ⟨fun hall c hc hbc hcp => ?_, fun hall c hc hbc => ?_⟩⟩
      · exact hall c hc (by omega) hcp
      · exact hall c hc (by omega)
    · refine (scanBucket_spec (s.heads b) [] s (hn b (by omega))).bind ?_
      rintro r s' (⟨hr, hs, hnone⟩ | ⟨l, e, post, hrest, hlen, hr, hs⟩)
      · subst hr hs
        refine hnext.imp ?_
        rintro p s'' ⟨htk, hiff⟩
        refine ⟨htk, hiff.trans ⟨fun hall c hc hbc hcp => ?_, fun hall c hc hbc => ?_⟩⟩
        · rcases eq_or_lt_of_le hbc with rfl | hlt
          · exact hnone
          · exact hall c hc hlt hcp
        · exact hall c hc (by omega)
      · subst hr
        have hmem : e ∈ s.heads b := by rw [hrest]; simp
        refine ⟨.inr ⟨b, by omega, l, e, post, hrest, hlen, rfl, hs⟩, fun h0 => ?_, fun hall => ?_⟩
        · exact absurd h0 (hptr b (by omega) e hmem)
        · exact absurd hlen (hall b (by omega) le_rfl hprim e hmem)

/-- **Lookup.**  With guard pages off and intact nodes, `page_cache_try_get` of a multiple of the
page size finds an entry of that length whenever some bucket has one. -/
theorem pageCacheTryGet_spec (hg : s.opts.guard = false) (hlen : len % 4096 = 0)
    (hn : ∀ b < pageCacheBucketCount s.opts, ∀ e ∈ s.heads b, NodeOk s.mem e.node)
    (hptr : ∀ b < pageCacheBucketCount s.opts, ∀ e ∈ s.heads b, e.ptr ≠ 0) :
    (pageCacheTryGet len s).Sat (fun p s' => Taken s len p s' ∧
      (p = 0 ↔ ∀ b < pageCacheBucketCount s.opts, ∀ e ∈ s.heads b, e.len ≠ len)) E := by
  have hcap := capacity_pos s.opts
  have hprim := pickBucket_lt s.opts len len
  rw [pageCacheTryGet, sat_bind, sat_get]
  rw [if_neg (by rw [hg]; simp only [Bool.false_eq_true, false_or]; omega), sat_bind]
  refine (scanBucket_spec (s.heads _) [] s (hn _ hprim)).imp ?_
  rintro r s' (⟨hr, hs, hnone⟩ | ⟨l, e, post, hrest, hel, hr, hs⟩)
  · subst hr hs
    refine (scanOthers_spec hn hptr _ 0 (zero_add _)).imp ?_
    rintro p s'' ⟨htk, hiff⟩
    refine ⟨htk, hiff.trans ⟨fun hall b hb => ?_, fun hall b hb _ _ => hall b hb⟩⟩
    by_cases hbp : b = pageCachePickBucket s'.opts len len
    · rw [hbp]; exact hnone
    · exact hall b hb (zero_le b) hbp
  · subst hr
    have hmem : e ∈ s.heads (pageCachePickBucket s.opts len len) := by rw [hrest]; simp
    refine ⟨.inr ⟨_, hprim, l, e, post, hrest, hel, rfl, hs⟩, fun h0 => ?_, fun hall => ?_⟩
    · exact absurd h0 (hptr _ hprim e hmem)
    · exact absurd hel (hall _ hprim e hmem)

end Musl.Malloc
