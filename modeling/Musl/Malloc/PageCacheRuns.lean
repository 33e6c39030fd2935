import Musl.Malloc.HeapTables

/-!
# Runs of the page cache

Any sequence of `page_cache_put` (of mapped regions of the caller that are not cached),
`page_cache_try_get` and `page_cache_trim`, with the program mapping new regions in between, under a
fixed option setting with guard pages off.

`CacheInv` is the invariant: the byte counter is the sum of the cached lengths and within the
capacity, the cached regions and the list nodes are pairwise apart and mapped, and no cached byte is
in a caller's hands.  `cacheStep_sat` keeps it over one call, and `cached_run_coherent` states what
follows for whole runs: the counter, the separation, and that a lookup answers null exactly when no
bucket has an entry of the length asked for.
-/

namespace Musl.Malloc

open Musl.Lib List Prog

/-- A call of the page cache, or the program mapping a region of its own. -/
inductive CacheOp where
  | put (ptr len : ℕ) (place : Option ℕ)
  | tryGet (len : ℕ)
  | trim
  | mmap (place : Option ℕ) (len : ℕ)

/-- Which bytes are in the hands of the callers because a lookup gave them out. -/
abbrev Handed : Type := ℕ → Bool

def cacheStep : CacheOp → Prog Stop (Heap × Handed) Unit
  | .put ptr len place => do
      Prog.beside (pageCachePut place ptr len)
      Prog.modify fun st => (st.1, fun x => st.2 x && !decide (ptr ≤ x ∧ x < ptr + len))
  | .tryGet len => do
      let p ← Prog.beside (pageCacheTryGet len)
      Prog.exec (p ≠ 0) (Prog.modify fun st =>
        (st.1, fun x => st.2 x || decide (p ≤ x ∧ x < p + len)))
  | .trim => Prog.beside pageCacheTrim
  | .mmap place len => do
      let _ ← Prog.beside (mmap place len)

/-- The region may be put: it is a page-aligned range of mapped memory that overlaps no cached
region and no node of the cache. -/
structure Putable (s : Heap) (ptr len : ℕ) : Prop where
  aligned : ptr % 4096 = 0
  low : 4096 ≤ ptr
  high : ptr + len ≤ 2 ^ 47
  mapped : ∀ x, ptr ≤ x → x < ptr + len → (s.mem.page (x / 4096)).isSome = true
  uncached : ∀ e ∈ cachedEntries s, ptr + len ≤ e.ptr ∨ e.ptr + e.len ≤ ptr
  unlisted : ∀ e ∈ cachedEntries s, ∀ x, ptr ≤ x → x < ptr + len → x / 4096 ≠ e.node.addr / 4096

def CacheUse (st : Heap × Handed) : CacheOp → Prop
  | .put ptr len _ => Putable st.1 ptr len
  | _ => True

/-! ### The invariant -/

/-- The pages of an entry: those of its region, and that of its node. -/
def Uses (e : CacheEntry) (k : ℕ) : Prop :=
  e.ptr / 4096 ≤ k ∧ k < (e.ptr + e.len) / 4096 ∨ k = e.node.addr / 4096

/-- A cached region: whole mapped pages of the user range, with an intact node. -/
structure EntryOk (m : Space) (e : CacheEntry) : Prop where
  aligned : e.ptr % 4096 = 0
  low : 4096 ≤ e.ptr
  pos : 0 < e.len
  whole : e.len % 4096 = 0
  mapped : ∀ k, Uses e k → (m.page k).isSome = true
  node : NodeOk m e.node

def EntryApart (e e' : CacheEntry) : Prop := ∀ k, Uses e k → ¬Uses e' k

/-- **The invariant of the page cache.** -/
structure CacheInv (st : Heap × Handed) : Prop where
  guard : st.1.opts.guard = false
  tables : Tables True st.1
  entries : ∀ e ∈ cachedEntries st.1, EntryOk st.1.mem e
  apart : (cachedEntries st.1).Pairwise EntryApart
  handed : ∀ e ∈ cachedEntries st.1, ∀ x, e.ptr ≤ x → x < e.ptr + e.len → st.2 x = false

variable {e e' : CacheEntry} {s : Heap} {m m' : Space} {a len b ptr : ℕ} {st st' : Heap × Handed}
  {E : Stop → Heap → Prop}

lemma EntryApart.symm (h : EntryApart e e') : EntryApart e' e := fun k hk hk' => h k hk' hk

section

variable (h : EntryOk m e)

include h

lemma EntryOk.disjoint (h' : EntryOk m e') (hap : EntryApart e e') :
    e.ptr + e.len ≤ e'.ptr ∨ e'.ptr + e'.len ≤ e.ptr := by
  obtain ⟨hal, -, hpos, hwh, -, -⟩ := h
  obtain ⟨hal', -, hpos', hwh', -, -⟩ := h'
  by_contra hcon
  rcases le_total e.ptr e'.ptr with hle | hle
  · exact hap (e'.ptr / 4096) (.inl ⟨by omega, by omega⟩) (.inl ⟨le_rfl, by omega⟩)
  · exact hap (e.ptr / 4096) (.inl ⟨le_rfl, by omega⟩) (.inl ⟨by omega, by omega⟩)

lemma EntryOk.of_pages (hm : ∀ k, Uses e k → m'.page k = m.page k) : EntryOk m' e :=
  { h with
    mapped := fun k hk => by rw [hm k hk]; exact h.mapped k hk
    node := (hm _ (.inr rfl)).trans h.node }

lemma EntryOk.munmap (hout : ∀ k, Uses e k → ¬(a / 4096 ≤ k ∧ k < a / 4096 + pagesOf len)) :
    EntryOk (m.munmap a len) e := by
  refine h.of_pages fun k hk => ?_
  unfold Space.munmap
  split
  · exact if_neg (hout k hk)
  · rfl

lemma EntryOk.not_uses {k : ℕ} (hk : m.page k = none) : ¬Uses e k := by
  intro hu
  have hmapped := h.mapped k hu
  rw [hk] at hmapped
  cases hmapped

lemma EntryOk.mmapAt (hp : m.placeable a len = true) : EntryOk (m.mmapAt a len) e :=
  h.of_pages fun k hk => if_neg fun hin => h.not_uses ((Space.placeable_iff.1 hp).2 k hin.1 hin.2) hk

end

lemma CacheInv.mem_heads (h : CacheInv st) (he : e ∈ cachedEntries st.1) :
    ∃ b < pageCacheBucketCount st.1.opts, e ∈ st.1.heads b := by
  obtain ⟨b, _, hb⟩ := mem_cachedEntries.1 he
  refine ⟨b, ?_, hb⟩
  by_contra hge
  rw [h.tables.buckets b (by omega)] at hb
  cases hb

lemma mem_cachedEntries_of_heads (hb : b < pageCacheBucketCount s.opts) (he : e ∈ s.heads b) :
    e ∈ cachedEntries s :=
  mem_cachedEntries.2 ⟨b, by have := bucketCount_le s.opts; omega, he⟩

/-- **Lookup from an invariant state.** -/
theorem CacheInv.tryGet (h : CacheInv st) (hlen : len % 4096 = 0) :
    (pageCacheTryGet len st.1).Sat (fun p s' => Taken st.1 len p s' ∧
      (p = 0 ↔ ∀ e ∈ cachedEntries st.1, e.len ≠ len)) E := by
  refine (pageCacheTryGet_spec h.guard hlen ?_ ?_).imp ?_
  · intro b hb e he
    exact (h.entries e (mem_cachedEntries_of_heads hb he)).node
  · intro b hb e he
    have := (h.entries e (mem_cachedEntries_of_heads hb he)).low
    omega
  · rintro p s' ⟨htk, hiff⟩
    refine ⟨htk, hiff.trans ⟨fun hall e he => ?_, fun hall b hb e he => ?_⟩⟩
    · obtain ⟨b, hb, heb⟩ := h.mem_heads he
      exact hall b hb e heb
    · exact hall e (mem_cachedEntries_of_heads hb he)

/-! ### One call keeps the invariant -/

lemma CacheInv.of_mem (h : CacheInv st) (hs : SameTables st.1 st'.1)
    (he : ∀ e ∈ cachedEntries st.1, EntryOk st'.1.mem e) (hhand : ∀ x, st'.2 x = true → st.2 x = true) :
    CacheInv st' := by
  refine ⟨by rw [hs.opts]; exact h.guard, h.tables.of_same hs, ?_, ?_, ?_⟩
  · rw [hs.cachedEntries]; exact he
  · rw [hs.cachedEntries]; exact h.apart
  · rw [hs.cachedEntries]
    intro e hmem x h1 h2
    cases hx : st'.2 x with
    | false => rfl
    | true => rw [← hhand x hx]; exact h.handed e hmem x h1 h2

lemma CacheInv.unlink (h : CacheInv st) (hb : b < pageCacheBucketCount st.1.opts)
    {l post : List CacheEntry} (hrest : st.1.heads b = l ++ e :: post) (hd : Handed)
    (hhand : ∀ x, hd x = true → st.2 x = true ∨ (e.ptr ≤ x ∧ x < e.ptr + e.len)) :
    CacheInv (st.1.takeEntry b (l ++ post) e, hd) := by
  have hperm : (cachedEntries st.1).Perm (e :: cachedEntries (st.1.takeEntry b (l ++ post) e)) :=
    cachedEntries_unlink (by have := bucketCount_le st.1.opts; omega) hrest _ rfl
  have hmem : ∀ x ∈ cachedEntries (st.1.takeEntry b (l ++ post) e), x ∈ cachedEntries st.1 :=
    fun x hx => hperm.mem_iff.2 (mem_cons_of_mem e hx)
  obtain ⟨hapart, hpw⟩ := pairwise_cons.1 ((hperm.pairwise_iff EntryApart.symm).1 h.apart)
  refine ⟨h.guard, h.tables.take hb hrest, ?_, hpw, ?_⟩
  · intro x hx
    refine (h.entries x (hmem x hx)).munmap fun k hk hin => hapart x hx k (.inr ?_) hk
    have hone : pagesOf sizeofCacheEntry = 1 := rfl
    omega
  · intro x hx y h1 h2
    by_contra hy
    rw [Bool.not_eq_false] at hy
    rcases hhand y hy with hst | hin
    · rw [h.handed x (hmem x hx) y h1 h2] at hst
      cases hst
    · have hdis :=
        (h.entries e (hperm.mem_iff.2 mem_cons_self)).disjoint (h.entries x (hmem x hx))
          (hapart x hx)
      omega

lemma Putable.pages (hp : Putable st.1 ptr len) (h : CacheInv st) (hwhole : len % 4096 = 0) {k : ℕ}
    (h1 : ptr / 4096 ≤ k) (h2 : k < (ptr + len) / 4096) :
    (st.1.mem.page k).isSome = true ∧ ∀ e ∈ cachedEntries st.1, ¬Uses e k := by
  have hal := hp.aligned
  have hk : k * 4096 / 4096 = k := Nat.mul_div_cancel k (by decide)
  refine ⟨?_, ?_⟩
  · have hmapped := hp.mapped (k * 4096) (by omega) (by omega)
    rwa [hk] at hmapped
  · rintro e he (⟨h3, h4⟩ | hnode)
    · have hun := hp.uncached e he
      have heok := h.entries e he
      omega
    · exact hp.unlisted e he (k * 4096) (by omega) (by omega) (hk.trans hnode)

lemma CacheInv.push (h : CacheInv st) (hp : Putable st.1 ptr len) (hlen : 0 < len)
    (hwhole : len % 4096 = 0) (hpl : st.1.mem.placeable a sizeofCacheEntry = true)
    (hroom : st.1.cacheBytes + len ≤ pageCacheCapacity st.1.opts)
    (hs : OutsideCache st.1 st'.1) (hm : st'.1.mem = st.1.mem.mmapAt a sizeofCacheEntry)
    (hh : st'.1.heads = Function.update st.1.heads (pageCachePickBucket st.1.opts ptr len)
      (⟨⟨a, st.1.mem.next⟩, ptr, len⟩ :: st.1.heads (pageCachePickBucket st.1.opts ptr len)))
    (hby : st'.1.cacheBytes = st.1.cacheBytes + len)
    (hhand : ∀ x, st'.2 x = true → st.2 x = true ∧ ¬(ptr ≤ x ∧ x < ptr + len)) : CacheInv st' := by
  have hb := pickBucket_lt st.1.opts ptr len
  have hperm := cachedEntries_push (by have := bucketCount_le st.1.opts; omega) hh
  have hfree : st.1.mem.page (a / 4096) = none :=
    (Space.placeable_iff.1 hpl).2 _ le_rfl (by unfold pagesOf sizeofCacheEntry; omega)
  have hnew : EntryOk st'.1.mem ⟨⟨a, st.1.mem.next⟩, ptr, len⟩ := by
    rw [hm]
    refine ⟨hp.aligned, hp.low, hlen, hwhole, fun k hk => ?_, nodeOk_mmapAt hpl⟩
    simp only [Space.mmapAt]
    split
    · rfl
    · rename_i hout
      rcases hk with hk | rfl
      · exact (hp.pages h hwhole hk.1 hk.2).1
      · exact absurd ⟨le_rfl, Nat.lt_succ_self (a / 4096)⟩ hout
  refine ⟨by rw [hs.opts]; exact h.guard, h.tables.push hroom hs hh hby, ?_, ?_, ?_⟩
  · intro e he
    rcases mem_cons.1 (hperm.mem_iff.1 he) with rfl | he
    · exact hnew
    · rw [hm]
      exact (h.entries e he).mmapAt hpl
  · refine (hperm.pairwise_iff EntryApart.symm).2 (pairwise_cons.2 ⟨?_, h.apart⟩)
    rintro e he k (hk | rfl)
    · exact (hp.pages h hwhole hk.1 hk.2).2 e he
    · exact (h.entries e he).not_uses hfree
  · intro e he x h1 h2
    by_contra hx
    rw [Bool.not_eq_false] at hx
    obtain ⟨hst, hout⟩ := hhand x hx
    rcases mem_cons.1 (hperm.mem_iff.1 he) with rfl | he
    · exact hout ⟨h1, h2⟩
    · rw [h.handed e he x h1 h2] at hst
      cases hst

lemma CacheInv.munmap (h : CacheInv st) (hp : Putable st.1 ptr len) :
    (munmap ptr len st.1).Sat (fun _ s' => CacheInv (s', st.2)) E := by
  refine sat_munmap fun tr _ => h.of_mem (.mem _ _ _) (fun e he => ?_) (fun _ hx => hx)
  have hal := hp.aligned
  have heok := h.entries e he
  have hea := heok.aligned
  refine heok.munmap fun k hk hin => ?_
  unfold pagesOf at hin
  rcases hk with hk | hk
  · have hun := hp.uncached e he
    omega
  · exact hp.unlisted e he (k * 4096) (by omega) (by omega) (by omega)

lemma pageCachePut_sat (h : CacheInv st) {place : Option ℕ} (hp : Putable st.1 ptr len) (hd : Handed)
    (hhand : ∀ x, hd x = true → st.2 x = true ∧ ¬(ptr ≤ x ∧ x < ptr + len)) :
    (pageCachePut place ptr len st.1).Sat (fun _ s' => CacheInv (s', hd)) E := by
  have h0 : CacheInv (st.1, hd) := h.of_mem (.refl _) h.entries fun x hx => (hhand x hx).1
  rw [pageCachePut, sat_bind, sat_get, sat_ite]
  refine ⟨fun _ => h0.munmap hp, fun hacc => ?_⟩
  simp only [cacheRefuses, not_or, not_not, not_lt] at hacc
  obtain ⟨_, hlen0, hwhole, _, _, hroom⟩ := hacc
  have hcap := capacity_le st.1.opts
  have hwithin := h.tables.within
  have hhigh := hp.high
  -- no wrap-around: the counter is within the capacity and the region within the address space
  have hsum : wrap (st.1.cacheBytes + len) = st.1.cacheBytes + len := wrap_of_lt (by omega)
  rw [hsum] at hroom
  rw [pushEntry, sat_bind, sat_get, sat_bind]
  refine sat_mmapNode (fun a _ hpl => ?_) ?_
  · exact h.push hp (by omega) hwhole hpl hroom ⟨rfl, rfl, rfl, rfl, rfl, rfl, rfl⟩ rfl rfl hsum hhand
  · have h1 : CacheInv (st.1.log .mapFailed, hd) := h0.of_mem (.mem _ _ _) h0.entries fun _ hx => hx
    exact h1.munmap ⟨hp.aligned, hp.low, hp.high, hp.mapped, hp.uncached, hp.unlisted⟩

/-- **One call keeps the invariant** and does not stop. -/
theorem cacheStep_sat (st : Heap × Handed) (op : CacheOp) (h : CacheInv st) (hu : CacheUse st op) :
    (cacheStep op st).Sat (fun _ st' => CacheInv st') (fun _ _ => False) := by
  cases op with
  | put ptr len place =>
    rw [cacheStep, sat_bind, sat_beside]
    refine (pageCachePut_sat h hu (fun x => st.2 x && !decide (ptr ≤ x ∧ x < ptr + len)) ?_).imp
      fun _ s' hs' => hs'
    intro x hx
    simpa only [Bool.and_eq_true, Bool.not_eq_true', decide_eq_false_iff_not] using hx
  | tryGet len =>
    rw [cacheStep, sat_bind, sat_beside]
    by_cases hlen : len % 4096 = 0
    · refine (h.tryGet hlen).imp ?_
      rintro p s' ⟨htk, _⟩
      rw [sat_exec]
      rcases htk with ⟨hp, hs⟩ | ⟨b, hb, l, e, post, hrest, hel, hp, hs⟩
      · exact ⟨fun hne => absurd hp hne, fun _ => by rw [hs]; exact h⟩
      · subst hp hel hs
        refine ⟨fun _ => h.unlink hb hrest _ ?_, fun hz => ?_⟩
        · intro x hx
          simpa using hx
        · have := (h.entries e (mem_cachedEntries_of_heads hb (by rw [hrest]; simp))).low
          omega
    · rw [pageCacheTryGet, sat_bind, sat_get, if_pos (.inr (.inl hlen))]
      simp only [sat_pure]
      rw [sat_exec]
      exact ⟨fun hne => absurd rfl hne, fun _ => h⟩
  | trim =>
    rw [cacheStep, sat_beside, pageCacheTrim, sat_bind, sat_get, sat_exec]
    have hw := h.tables.within
    exact ⟨fun hlt => absurd hlt (by omega), fun _ => h⟩
  | mmap place len =>
    rw [cacheStep, sat_bind, sat_beside]
    refine sat_mmap (fun a _ hp => ?_) ?_
    · exact h.of_mem (.mem _ _ _) (fun e he => (h.entries e he).mmapAt hp) fun _ hx => hx
    · exact h.of_mem (.mem _ _ _) h.entries fun _ hx => hx

/-! ### Whole runs -/

/-- What is promised of the page cache between two calls. -/
structure CacheCoherent (st : Heap × Handed) : Prop where
  /-- `__page_cache_bytes` is the sum of the cached lengths. -/
  bytes : st.1.cacheBytes = ((cachedEntries st.1).map CacheEntry.len).sum
  within : st.1.cacheBytes ≤ pageCacheCapacity st.1.opts
  /-- No byte is in two entries. -/
  disjoint : (cachedEntries st.1).Pairwise fun e e' =>
    e.ptr + e.len ≤ e'.ptr ∨ e'.ptr + e'.len ≤ e.ptr
  /-- No byte is both cached and handed out. -/
  notHanded : ∀ e ∈ cachedEntries st.1, ∀ x, e.ptr ≤ x → x < e.ptr + e.len → st.2 x = false
  /-- A lookup answers null exactly when no entry has the length asked for; otherwise it answers a
  region of exactly that length, and the entry of that region is what leaves the cache. -/
  lookup : ∀ len, len % 4096 = 0 →
    (pageCacheTryGet len st.1).Sat (fun p s' =>
      (p = 0 ↔ ∀ e ∈ cachedEntries st.1, e.len ≠ len) ∧
      (p = 0 → s' = st.1) ∧
      (p ≠ 0 → ∃ e, e.ptr = p ∧ e.len = len ∧ (cachedEntries st.1).Perm (e :: cachedEntries s')))
      (fun _ _ => False)

lemma CacheInv.coherent (h : CacheInv st) : CacheCoherent st := by
  refine ⟨h.tables.bytes, h.tables.within, ?_, h.handed, fun len hlen => ?_⟩
  · exact h.apart.imp_of_mem fun he he' hap => (h.entries _ he).disjoint (h.entries _ he') hap
  refine (h.tryGet hlen).imp ?_
  rintro p s' ⟨htk, hiff⟩
  rcases htk with ⟨hp, hs⟩ | ⟨b, hb, l, e, post, hrest, hel, hp, hs⟩
  · exact ⟨hiff, fun _ => hs, fun hne => absurd hp hne⟩
  · have hlow := (h.entries e (mem_cachedEntries_of_heads hb (by rw [hrest]; simp))).low
    refine ⟨hiff, fun h0 => by omega, fun _ => ⟨e, hp.symm, hel, ?_⟩⟩
    exact cachedEntries_unlink (by have := bucketCount_le st.1.opts; omega) hrest s'
      (by rw [hs]; rfl)

lemma cacheInv_start {o : MallocOpts} (hg : o.guard = false) (secret : UInt64) (m : Space) :
    CacheInv (Heap.start o secret m, fun _ => false) := by
  refine ⟨hg, tables_start o secret m, ?_, ?_, fun _ _ _ _ _ => rfl⟩
  · intro e he
    cases he
  · exact List.Pairwise.nil

/-- **The page cache over whole runs.**  Under any option setting without guard pages, every run of
insertions of mapped uncached regions, lookups and trims from the empty cache goes through without a
fault and leaves the counter, the lists and the lookup in agreement. -/
theorem cached_run_coherent (o : MallocOpts) (hg : o.guard = false) (secret : UInt64) (m : Space)
    (ops : List CacheOp)
    (hops : RunMeets cacheStep CacheUse (Heap.start o secret m, fun _ => false) ops) :
    (runList cacheStep ops (Heap.start o secret m, fun _ => false)).Sat
      (fun _ st => CacheCoherent st) (fun _ _ => False) :=
  (runList_sat cacheStep_sat ops _ (cacheInv_start hg secret m) hops).imp
    fun _ _ h => h.coherent

/-- A region is mapped, cached and looked up again. -/
theorem cached_run_coherent_reuse :
    (runList cacheStep [.mmap (some 65536) 4096, .put 65536 4096 (some 131072), .tryGet 4096]
      (Heap.start MallocOpts.initial 7 Space.empty, fun _ => false)).Sat
      (fun _ st => CacheCoherent st) (fun _ _ => False) := by
  refine cached_run_coherent MallocOpts.initial rfl 7 .empty _ ?_
  refine RunMeets.cons trivial rfl (RunMeets.cons ?_ rfl ⟨trivial, fun _ _ => trivial⟩)
  refine ⟨by decide, by decide, by decide, fun x h1 h2 => ?_, ?_, ?_⟩
  · have hx : x / 4096 = 16 := by omega
    rw [hx]
    rfl
  · decide
  · intro e he
    cases he

end Musl.Malloc
