import Musl.Malloc.DelayedChecks

/-!
# Freeing a block

`HeapInv` is the invariant of the allocator between two calls, with the holders of blocks beside its
tables.  `freeChunk_ok` says what `free_chunk` does to a block in use: its mapping is cached,
unmapped or quarantined (or lost, when there is no page for the quarantine node), and all other
blocks are left alone.

`free_chunk` does not always return.  `FreeOk` is when it does; it fails in the following cases.

* A delayed check finds a chunk due whose mapping is no longer the one that was freed, because it was
  unmapped or handed out again (`Waits`), or of which junk level 1 has filled only the first page
  while the check samples a later one.
* With `F` and `U` a chunk of a page or more is protected when it is registered, and with `U` a
  guarded one when it is quarantined; in both cases the header is on the protected page and is read
  right after.
-/

namespace Musl.Malloc

open Musl.Lib Musl.Lib.Space List Prog Nat

/-! ### The invariant -/

structure DelayedOk (s : Heap) : Prop where
  /-- Chunks of a page or more never get this far under `F` and `U`. -/
  short : s.opts.freecheck = true → s.opts.freeunmap = true → ∀ d ∈ s.delayed, d.len < 4096
  past : ∀ d ∈ s.delayed, d.when ≤ s.clock
  /-- A chunk is registered before its mapping is quarantined. -/
  parked : ∀ q ∈ s.guardQ, ∀ d ∈ s.delayed, d.addr = q.base + 4128 → d.when ≤ q.when

/-- **The invariant of the allocator**, beside the holders `X`. -/
structure HeapInv (o : MallocOpts) (sec : UInt64) (K : Block → Prop) (L : Prop) (s : Heap)
    (X : Multiset (Owner Holder)) : Prop where
  opts : s.opts = o
  secret : s.secret = sec
  owned : HeapOwned (chunkTenants o sec K) L s X
  delayed : DelayedOk s

def holderRegion : Owner Holder → Region :=
  (chunkTenants MallocOpts.initial 0 fun _ => True).regionOf

/-- The header had the length of the block in the memory `m`. -/
def AsIn (m : Space) (b : Block) : Prop := m.loadLE (userLenAt b.map) 8 = b.len

/-- Nothing else is known of a parked block. -/
def AnyBlock (_ : Block) : Prop := True

section Invariant

variable {o : MallocOpts} {sec : UInt64} {K K' : Block → Prop} {L : Prop} {s s' : Heap}
  {X : Multiset (Owner Holder)} {b : Block}

section

variable (h : HeapInv o sec K L s X)

include h

/-- Less may be known of the parked blocks. -/
lemma HeapInv.weaken (hK : ∀ b, FreedOk o s.mem b → K b → K' b) : HeapInv o sec K' L s X := by
  refine ⟨h.opts, h.secret, ⟨⟨?_, fun w hw => ?_⟩, h.owned.tables⟩, h.delayed⟩
  · exact h.owned.owned.layout
  · have hok := h.owned.owned.ok w hw
    cases w with
    | cached e =>
      obtain ⟨h1, h2, b, hr, hg, hb, hk⟩ := hok
      exact ⟨h1, h2, b, hr, hg, hb, hK b hb hk⟩
    | quar q =>
      obtain ⟨h1, h2, b, hr, hg, hb, hk⟩ := hok
      exact ⟨h1, h2, b, hr, hg, hb, hK b hb hk⟩
    | node nd => exact hok
    | raw r => trivial
    | tenant w =>
      cases w with
      | live b => exact hok
      | freed b => exact hok

lemma HeapInv.remember : HeapInv o sec (AsIn s.mem) L s X :=
  h.weaken fun _ hb _ => hb.header.userLen

lemma HeapInv.forget : HeapInv o sec AnyBlock L s X :=
  h.weaken fun _ _ _ => trivial

end

lemma HeapInv.live (h : HeapInv o sec K L s (.tenant (.live b) ::ₘ X)) :
    BlockOk s.opts s.secret s.mem b ∧ Placed b := by
  have hok : BlockOk o sec s.mem b := h.owned.ok (Multiset.mem_cons_self _ _)
  have hw : Whole s.mem b.region := h.owned.whole (Multiset.mem_cons_self _ _)
  rw [h.opts, h.secret]
  exact ⟨hok, hok.fits.placed hw⟩

lemma HeapInv.freed (h : HeapInv o sec K L s (.tenant (.freed b) ::ₘ X)) :
    FreedOk o s.mem b ∧ Placed b := by
  have hok : FreedOk o s.mem b := h.owned.ok (Multiset.mem_cons_self _ _)
  have hw : Whole s.mem b.region := h.owned.whole (Multiset.mem_cons_self _ _)
  exact ⟨hok, hok.fits.placed hw⟩

lemma DelayedOk.congr (h : DelayedOk s) (ho : s'.opts = s.opts) (hd : s'.delayed = s.delayed)
    (hc : s'.clock = s.clock) (hq : s'.guardQ = s.guardQ) : DelayedOk s' := by
  refine ⟨?_, ?_, ?_⟩
  · rw [ho, hd]; exact h.short
  · rw [hd, hc]; exact h.past
  · rw [hq, hd]; exact h.parked

lemma DelayedOk.of_same (h : DelayedOk s) (hs : SameTables s s') : DelayedOk s' :=
  h.congr hs.opts hs.delayed hs.clock hs.guardQ

lemma HeapInv.of_same (h : HeapInv o sec K L s X) (hs : SameTables s s') (hm : s'.mem = s.mem) :
    HeapInv o sec K L s' X :=
  ⟨hs.opts.trans h.opts, hs.secret.trans h.secret, h.owned.of_same hs hm, h.delayed.of_same hs⟩

lemma HeapInv.of_trace (h : HeapInv o sec K L s X) (ht : OnlyTrace s s') : HeapInv o sec K L s' X :=
  h.of_same ht.tables ht.mem

variable {w : Holder}

/-- A holder writes inside its own mapping and may become another holder of it. -/
lemma HeapInv.write (w' : Holder) (h : HeapInv o sec K L s (.tenant w ::ₘ X)) (hs : SameTables s s')
    (hpage : s'.mem.page = s.mem.page) (hnext : s'.mem.next = s.mem.next)
    (hout : SameOutside s.mem s'.mem w.block.base w.block.region.stop)
    (hreg : w'.block.region = w.block.region) (hok : (chunkTenants o sec K).Ok s'.mem w') :
    HeapInv o sec K L s' (.tenant w' ::ₘ X) ∧ Frame holderRegion s.mem s'.mem X := by
  obtain ⟨hown, hf⟩ := h.owned.write hs hpage hnext hout
    (show Tenants.regionOf _ (.tenant w') = _ from hreg) hok
  exact ⟨⟨hs.opts.trans h.opts, hs.secret.trans h.secret, hown, h.delayed.of_same hs⟩, hf⟩

lemma HeapInv.touches (w' : Holder) {lo hi : ℕ} (h : HeapInv o sec K L s (.tenant w ::ₘ X))
    (ht : Touches lo hi s s')
    (h1 : w.block.base ≤ lo) (h2 : hi ≤ w.block.region.stop) (hreg : w'.block.region = w.block.region)
    (hok : (chunkTenants o sec K).Ok s'.mem w') :
    HeapInv o sec K L s' (.tenant w' ::ₘ X) ∧ Frame holderRegion s.mem s'.mem X :=
  h.write w' ht.tables ht.page ht.next (ht.outside.widen h1 h2) hreg hok

end Invariant

/-! ### When a free returns -/

/-- The chunk of the record `d` is still there as it was freed: in the page cache, in the quarantine
or as the block `b` that is being freed.  Its length is read in `m₀`; a cached mapping of `avoid`
bytes does not count, because the call may take it. -/
def Waits (m₀ : Space) (s : Heap) (avoid : ℕ) (b : Block) (d : DelayedChunk) : Prop :=
  (∃ e ∈ cachedEntries s, e.len ≠ avoid ∧ e.ptr + 32 = d.addr ∧
    m₀.loadLE (userLenAt e.ptr) 8 = d.len) ∨
  (∃ q ∈ s.guardQ, q.base + 4128 = d.addr ∧ m₀.loadLE (userLenAt (q.base + 4096)) 8 = d.len) ∨
  (b.ptr = d.addr ∧ b.len = d.len)

/-- The bytes that a check samples in a chunk of `len` bytes were all filled on free. -/
def Covered (o : MallocOpts) (len : ℕ) : Prop := o.junklev = 2 ∨ len < 8192

/-- A check at the time `now` passes. -/
def CheckPasses (m₀ : Space) (s : Heap) (avoid : ℕ) (b : Block) (now : ℕ) : Prop :=
  ∀ d ∈ s.delayed, d.when < now → Waits m₀ s avoid b d ∧ Covered s.opts d.len

def Heap.full (s : Heap) : Prop := maxDelayedChunks ≤ s.delayed.length

instance (s : Heap) : Decidable s.full := inferInstanceAs (Decidable (_ ≤ _))

/-- A chunk that is freed now gets on the list: there is room, or the check that is run because there
is none makes some. -/
def Registers (s : Heap) (env : RegisterEnv) : Prop :=
  ¬s.full ∨ (env.fullDraw = 0 ∧ ∃ d ∈ s.delayed, d.when < s.clock + env.fullTick)

def registerTime (s : Heap) (env : RegisterEnv) : ℕ :=
  s.clock + (if s.full then env.fullTick else 0) + env.tick

/-- Once the chunk is on the list: it is not protected, and the check passes. -/
structure EnqueueOk (m₀ : Space) (s : Heap) (avoid : ℕ) (b : Block) (env : RegisterEnv) (now : ℕ) :
    Prop where
  unprotected : ¬(s.opts.freecheck = true ∧ s.opts.freeunmap = true ∧ 4096 ≤ b.len)
  check : env.draw = 0 → CheckPasses m₀ s avoid b (now + env.checkTick) ∧
    (0 < env.checkTick → Covered s.opts b.len)

/-- The registration returns, with the header still accessible. -/
structure RegisterOk (m₀ : Space) (s : Heap) (avoid : ℕ) (b : Block) (env : RegisterEnv) : Prop where
  cleanup : s.full → env.fullDraw = 0 → CheckPasses m₀ s avoid b (s.clock + env.fullTick)
  enqueue : Registers s env → EnqueueOk m₀ s avoid b env (registerTime s env)

/-- **When freeing the block `b` returns.** -/
structure FreeOk (m₀ : Space) (s : Heap) (avoid : ℕ) (b : Block) (env : FreeEnv) : Prop where
  register : 0 < b.len → 0 < s.opts.junklev → RegisterOk m₀ s avoid b env.reg
  unprotected : ¬(b.guarded = true ∧ s.opts.freeunmap = true ∧ 4096 ≤ b.len)

/-- What the conditions are about is as before, except that a cached mapping of `avoid` bytes may have
been taken. -/
structure Keeps (avoid : ℕ) (s s' : Heap) : Prop where
  opts : s'.opts = s.opts
  clock : s'.clock = s.clock
  delayed : s'.delayed = s.delayed
  guardQ : s'.guardQ = s.guardQ
  cached : ∀ e ∈ cachedEntries s, e.len ≠ avoid → e ∈ cachedEntries s'

variable {s s' : Heap} {avoid : ℕ}

lemma SameTables.keeps (h : SameTables s s') (avoid : ℕ) : Keeps avoid s s' :=
  ⟨h.opts, h.clock, h.delayed, h.guardQ, fun e he _ => by rw [h.cachedEntries]; exact he⟩

lemma Keeps.trans {s'' : Heap} (h : Keeps avoid s s') (h' : Keeps avoid s' s'') : Keeps avoid s s'' :=
  ⟨h'.opts.trans h.opts, h'.clock.trans h.clock, h'.delayed.trans h.delayed,
    h'.guardQ.trans h.guardQ, fun e he hne => h'.cached e (h.cached e he hne) hne⟩

lemma OutsideGuards.keeps (h : OutsideGuards s s') (hq : s'.guardQ = s.guardQ) (avoid : ℕ) :
    Keeps avoid s s' := by
  refine ⟨h.opts, h.clock, h.delayed, hq, fun e he _ => ?_⟩
  unfold cachedEntries at he ⊢
  rw [h.heads]
  exact he

lemma DelayedOk.of_keeps (h : DelayedOk s) (hs : Keeps avoid s s') : DelayedOk s' :=
  h.congr hs.opts hs.delayed hs.clock hs.guardQ

section Register

variable {o : MallocOpts} {sec : UInt64} {m₀ : Space} {L : Prop} {s s' : Heap} {avoid : ℕ}
  {X : Multiset (Owner Holder)} {b : Block} {d : DelayedChunk} {E : Stop → Heap → Prop}

variable {m : Space} {now : ℕ} {env : RegisterEnv}

/-- The fill of a freed block covers the samples of its check. -/
lemma clean_of_freed (hb : FreedOk o m b) (hp : Placed b) (ha : b.ptr = d.addr) (hl : b.len = d.len)
    (hlev : 0 < o.junklev) (hc : Covered o d.len) : Clean o m d := by
  obtain ⟨_, _, hroom⟩ := hb.fits.inside
  have hhigh := hp.high
  have hptr : b.ptr = b.map + 32 := rfl
  refine ⟨?_, by omega, ?_, hlev, hc⟩
  · exact accessible_sub hb.rw (by omega) (by omega)
  · rw [← ha, ← hl]
    exact hb.junk

/-- A cached mapping holds a freed block. -/
lemma HeapInv.cachedBlock {K : Block → Prop} {e : CacheEntry} (h : HeapInv o sec K L s X)
    (he : e ∈ cachedEntries s) :
    ∃ c, FreedOk o s.mem c ∧ Placed c ∧ K c ∧ c.map = e.ptr := by
  obtain ⟨_, _, c, hr, hg, hfree, hk⟩ := h.owned.owned.ok _ (mem_owners_cached he)
  have hwhole : Whole s.mem c.region := by rw [hr]; exact h.owned.owned.whole (mem_owners_cached he)
  exact ⟨c, hfree, hfree.fits.placed hwhole, hk, (Block.map_plain hg).trans (congrArg Region.base hr)⟩

/-- A quarantined mapping holds a freed block. -/
lemma HeapInv.quarBlock {K : Block → Prop} {q : GuardQuarantine} (h : HeapInv o sec K L s X)
    (hq : q ∈ s.guardQ) :
    ∃ c, FreedOk o s.mem c ∧ Placed c ∧ K c ∧ c.map = q.base + 4096 ∧
    c.region = ⟨q.base, pagesOf q.total⟩ := by
  obtain ⟨_, _, c, hr, hg, hfree, hk⟩ := h.owned.owned.ok _ (mem_owners_quar hq)
  have hwhole : Whole s.mem c.region := by rw [hr]; exact h.owned.owned.whole (mem_owners_quar hq)
  have hmap : c.map = q.base + 4096 :=
    (Block.map_guarded hg).trans (congrArg (· + 4096) (congrArg Region.base hr))
  exact ⟨c, hfree, hfree.fits.placed hwhole, hk, hmap, hr⟩

/-- What waits for its check still has the junk it was freed with. -/
lemma HeapInv.clean (h : HeapInv o sec (AsIn m₀) L s (.tenant (.freed b) ::ₘ X))
    (hw : Waits m₀ s avoid b d) (hlev : 0 < o.junklev) (hc : Covered o d.len) : Clean o s.mem d := by
  rcases hw with ⟨e, he, _, ha, hl⟩ | ⟨q, hq, ha, hl⟩ | ⟨ha, hl⟩
  · obtain ⟨c, hfree, hp, hlen, hmap⟩ := h.cachedBlock he
    unfold AsIn at hlen
    rw [hmap] at hlen
    exact clean_of_freed hfree hp (by unfold Block.ptr; omega) (by omega) hlev hc
  · obtain ⟨c, hfree, hp, hlen, hmap, _⟩ := h.quarBlock hq
    unfold AsIn at hlen
    rw [hmap] at hlen
    exact clean_of_freed hfree hp (by unfold Block.ptr; omega) (by omega) hlev hc
  · obtain ⟨hfree, hp⟩ := h.freed
    exact clean_of_freed hfree hp ha hl hlev hc

lemma HeapInv.quar_apart {K : Block → Prop} {w : Holder}
    (h : HeapInv o sec K L s (.tenant w ::ₘ X)) (hfits : Fits o w.block) :
    ∀ q ∈ s.guardQ, w.block.ptr ≠ q.base + 4128 := by
  intro q hq heq
  obtain ⟨c, hfree, _, _, hmap, hr⟩ := h.quarBlock hq
  -- both chunks would start at the same address
  have ho := h.owned.owned
  rw [owners_cons] at ho
  have hap := ho.apart (mem_owners_quar hq)
  obtain ⟨h1, h2, -⟩ := hfits.inside
  obtain ⟨-, h5, h6⟩ := hfree.fits.inside
  rw [hr] at h5
  have hstop : w.block.region.stop ≤ q.base ∨
      (⟨q.base, pagesOf q.total⟩ : Region).stop ≤ w.block.base := hap
  unfold Block.ptr at heq
  omega

lemma DelayedOk.checked (h : DelayedOk s) (hc : Checked now s s') (hle : s.clock ≤ now) :
    DelayedOk s' := by
  refine ⟨?_, ?_, ?_⟩
  · rw [hc.opts, hc.delayed]
    exact fun hf hu d hd => h.short hf hu d (mem_left.1 hd).1
  · rw [hc.delayed, hc.clock]
    exact fun d hd => (h.past d (mem_left.1 hd).1).trans hle
  · rw [hc.delayed]
    exact fun q hq d hd ha => h.parked q (hc.fewer q hq) d (mem_left.1 hd).1 ha

/-- The conditions depend on the tables only, and not on the cached mappings of `avoid` bytes. -/
lemma RegisterOk.of_keeps (h : RegisterOk m₀ s avoid b env) (hs : Keeps avoid s s') :
    RegisterOk m₀ s' avoid b env := by
  have hpass : ∀ {now}, CheckPasses m₀ s avoid b now → CheckPasses m₀ s' avoid b now := by
    intro now hc d hd hdue
    rw [hs.delayed] at hd
    obtain ⟨hw, hcov⟩ := hc d hd hdue
    refine ⟨?_, by rw [hs.opts]; exact hcov⟩
    rcases hw with ⟨e, he, hne, hrest⟩ | ⟨q, hq, hrest⟩ | hrest
    · exact .inl ⟨e, hs.cached e he hne, hne, hrest⟩
    · exact .inr (.inl ⟨q, by rw [hs.guardQ]; exact hq, hrest⟩)
    · exact .inr (.inr hrest)
  have hfull : s'.full = s.full := by unfold Heap.full; rw [hs.delayed]
  have htime : registerTime s' env = registerTime s env := by
    unfold registerTime
    simp [hfull, hs.clock]
  refine ⟨fun hf hd => ?_, fun hr => ?_⟩
  · rw [hs.clock]
    exact hpass (h.cleanup (hfull ▸ hf) hd)
  · have hreg : Registers s env := by
      unfold Registers at hr ⊢
      rw [hfull, hs.delayed, hs.clock] at hr
      exact hr
    have hen := h.enqueue hreg
    rw [htime]
    exact ⟨by rw [hs.opts]; exact hen.unprotected, fun hd =>
      ⟨hpass (hen.check hd).1, by rw [hs.opts]; exact (hen.check hd).2⟩⟩

lemma FreeOk.of_keeps {env : FreeEnv} (h : FreeOk m₀ s avoid b env) (hs : Keeps avoid s s') :
    FreeOk m₀ s' avoid b env := by
  refine ⟨fun hlen hlev => ?_, by rw [hs.opts]; exact h.unprotected⟩
  rw [hs.opts] at hlev
  exact (h.register hlen hlev).of_keeps hs

/-- **A check keeps the invariant** when it returns, and it returns when what is due waits. -/
theorem HeapInv.check {tick : ℕ} (avoid : ℕ) (h : HeapInv o sec (AsIn m₀) L s (.tenant (.freed b) ::ₘ X))
    (hlev : 0 < o.junklev)
    (hE : ¬(CheckPasses m₀ s avoid b (s.clock + tick) ∧ RefsPos s) → ∀ e s', E e s') :
    (checkDelayedChunks tick s).Sat (fun _ s' => HeapInv o sec (AsIn m₀) L s' (.tenant (.freed b) ::ₘ X) ∧
      Frame holderRegion s.mem s'.mem (.tenant (.freed b) ::ₘ X) ∧ Checked (s.clock + tick) s s') E := by
  refine (checkDelayedChunks_ok h.owned h.delayed.short fun hn => hE fun hall => hn ?_).imp ?_
  · refine ⟨fun d hd hdue => ?_, hall.2⟩
    obtain ⟨hw, hc⟩ := hall.1 d hd hdue
    rw [h.opts] at hc ⊢
    exact h.clean hw hlev hc
  · rintro _ s1 ⟨hown, hf, hc⟩
    exact ⟨⟨hc.opts.trans h.opts, hc.secret.trans h.secret, hown,
      h.delayed.checked hc (le_add_right _ _)⟩, hf, hc⟩

/-- What waits for a later check goes on waiting: a quarantined mapping that was parked after its
chunk was registered is not swept before the chunk is due. -/
lemma Waits.checked (hw : Waits m₀ s avoid b d) (hd : DelayedOk s) (ht : ∀ q ∈ s.guardQ, q.when ≤ now)
    (hmem : d ∈ s.delayed) (hnot : now ≤ d.when) (hc : Checked now s s') : Waits m₀ s' avoid b d := by
  rcases hw with ⟨e, he, hrest⟩ | ⟨q, hq, ha, hl⟩ | hrest
  · refine .inl ⟨e, ?_, hrest⟩
    unfold cachedEntries at he ⊢
    rw [hc.heads]
    exact he
  · have h1 := hd.parked q hq d hmem ha.symm
    have h2 := ht q hq
    exact .inr (.inl ⟨q, hc.fresh q hq (by omega), ha, hl⟩)
  · exact .inr (.inr hrest)

/-! A chunk that is protected takes its header along. -/

lemma roundPage_eq {x : ℕ} (h : x + 4095 < 2 ^ 64) : roundPage x = pagesOf x * 4096 := by
  unfold roundPage
  rw [wrap_of_lt h]
  rfl

lemma map_page (hw : Whole m b.region) : b.map % 4096 = 0 ∧ b.ptr / 4096 * 4096 = b.map := by
  have hal : b.base % 4096 = 0 := hw.aligned
  unfold Block.ptr Block.map
  split <;> omega

/-- Protecting the chunk takes its header away. -/
lemma header_dark (hfits : Fits o b) (hw : Whole m b.region) :
    (m.mprotect b.map (pagesOf (32 + b.len) * 4096) .none).rwPage (b.map / 4096) = false := by
  obtain ⟨h1, h2, h3⟩ := hfits.inside
  obtain ⟨hal, _⟩ := map_page hw
  have hspan := pagesOf_lt (32 + b.len)
  have hpos := pagesOf_pos (show 0 < 32 + b.len by omega)
  refine mprotect_none_dark hal (fun k hk1 hk2 => ?_) le_rfl (by rw [pagesOf_mul]; omega)
  rw [pagesOf_mul] at hk2
  have hend := page_end_le hal hk2
  have hx := hw.mapped (x := k * 4096) (show b.base ≤ _ by omega)
    (lt_of_lt_of_le (show k * 4096 < b.map + b.room by linarith) h2)
  rwa [Nat.mul_div_cancel k (by norm_num)] at hx

lemma registerRange (hp : Placed b) (hfits : Fits o b) (hw : Whole m b.region) :
    b.ptr / 4096 * 4096 = b.map ∧ roundPage (b.ptr + b.len - b.map) = pagesOf (32 + b.len) * 4096 := by
  obtain ⟨_, _, hroom⟩ := hfits.inside
  have hhigh := hp.high
  refine ⟨(map_page hw).2, ?_⟩
  rw [show b.ptr + b.len - b.map = 32 + b.len by unfold Block.ptr; omega]
  exact roundPage_eq (by omega)

/-- **The chunk gets on the list.**  If it is protected there, its header cannot be read any more. -/
theorem enqueue_ok (avoid : ℕ) (h : HeapInv o sec (AsIn m₀) L s (.tenant (.freed b) ::ₘ X))
    (hlev : 0 < o.junklev)
    (hE : ¬(EnqueueOk m₀ s avoid b env (s.clock + env.tick) ∧ RefsPos s) → ∀ e s', E e s') :
    (enqueue env b.ptr b.len s).Sat (fun _ s' =>
      (HeapInv o sec (AsIn m₀) L s' (.tenant (.freed b) ::ₘ X) ∧
        Frame holderRegion s.mem s'.mem (.tenant (.freed b) ::ₘ X)) ∨
        (s'.mem.rwPage (b.map / 4096) = false ∧
        ¬EnqueueOk m₀ s avoid b env (s.clock + env.tick))) E := by
  obtain ⟨hfree, hp⟩ := h.freed
  have hwhole : Whole s.mem b.region := h.owned.whole (Multiset.mem_cons_self _ _)
  obtain ⟨hbase, hround⟩ := registerRange hp hfree.fits hwhole
  rw [enqueue, sat_bind, monotonicSeconds, Outcome.sat_ok, sat_bind, sat_modify, sat_bind, sat_get,
    sat_bind, sat_exec]
  constructor
  · intro hprot
    have hno : ¬EnqueueOk m₀ s avoid b env (s.clock + env.tick) := fun hok =>
      hok.unprotected hprot
    have hall := hE fun hok => hno hok.1
    refine sat_crashIf (fun _ => hall _ _) fun _ => ?_
    rw [mprotect, sat_modify, sat_exec, hbase, hround]
    have hdark := header_dark hfree.fits hwhole
    refine ⟨fun _ => ?_, fun _ => .inr ⟨hdark, hno⟩⟩
    refine (checkDelayedChunks_dark env.checkTick (by exact hdark)).mono ?_ fun e s' _ => hall e s'
    exact fun _ s' hs' => .inr ⟨hs', hno⟩
  · intro hprot
    have h1 : HeapInv o sec (AsIn m₀) L { s with
        clock := s.clock + env.tick
        delayed := s.delayed ++ [⟨b.ptr, b.len, s.clock + env.tick⟩] }
        (.tenant (.freed b) ::ₘ X) := by
      refine ⟨h.opts, h.secret, h.owned.later env.tick _, ?_, ?_, ?_⟩
      · intro hf hu d hd
        rcases mem_append.1 hd with hd | hd
        · exact h.delayed.short hf hu d hd
        · rw [mem_singleton.1 hd]
          exact Nat.lt_of_not_le fun hle => hprot ⟨hf, hu, hle⟩
      · intro d hd
        rcases mem_append.1 hd with hd | hd
        · exact (h.delayed.past d hd).trans (le_add_right _ _)
        · rw [mem_singleton.1 hd]
      · intro q hq d hd ha
        rcases mem_append.1 hd with hd | hd
        · exact h.delayed.parked q hq d hd ha
        · rw [mem_singleton.1 hd] at ha
          exact absurd ha (h.quar_apart hfree.fits q hq)
    rw [sat_exec]
    refine ⟨fun hdraw => ?_, fun _ => .inl ⟨h1, .refl _ _⟩⟩
    refine (h1.check avoid hlev fun hn => hE fun hall => hn ⟨?_, hall.2⟩).imp ?_
    · obtain ⟨hpass, hown⟩ := hall.1.check hdraw
      intro d hd hdue
      rcases mem_append.1 hd with hd | hd
      · exact hpass d hd hdue
      · rw [mem_singleton.1 hd] at hdue ⊢
        have hlt : s.clock + env.tick < s.clock + env.tick + env.checkTick := hdue
        exact ⟨.inr (.inr ⟨rfl, rfl⟩), hown (by omega)⟩
    · rintro _ s2 ⟨h2, hf, _⟩
      exact .inl ⟨h2, hf⟩

lemma Checked.made_room (hc : Checked now s s') (hfull : s.full) (hroom : ¬s'.full) :
    ∃ d ∈ s.delayed, d.when < now := by
  by_contra hno
  have hnone : ∀ d ∈ s.delayed, ¬d.due now = true := by
    intro d hd hdue
    exact hno ⟨d, hd, due_iff.1 hdue⟩
  refine hroom ?_
  unfold Heap.full at hfull ⊢
  rw [hc.delayed, snapshotFrom_none [] [] s.delayed hnone]
  exact hfull

/-- **The registration**: the invariant is kept, or the header cannot be read any more. -/
theorem register_ok (h : HeapInv o sec (AsIn m₀) L s (.tenant (.freed b) ::ₘ X))
    (hE : ¬((0 < b.len → 0 < s.opts.junklev → RegisterOk m₀ s avoid b env) ∧ RefsPos s) → ∀ e s',
      E e s') :
    (registerDelayedChunk env b.ptr b.len s).Sat (fun _ s' =>
      (HeapInv o sec (AsIn m₀) L s' (.tenant (.freed b) ::ₘ X) ∧
        Frame holderRegion s.mem s'.mem (.tenant (.freed b) ::ₘ X)) ∨
      (s'.mem.rwPage (b.map / 4096) = false ∧ ∀ e s', E e s')) E := by
  rw [registerDelayedChunk, sat_bind, sat_get, sat_ite]
  refine ⟨fun _ => .inl ⟨h, .refl _ _⟩, fun hgo => ?_⟩
  simp only [not_or] at hgo
  have hlev' : 0 < o.junklev := by rw [← h.opts]; omega
  have hE' : ¬(RegisterOk m₀ s avoid b env ∧ RefsPos s) → ∀ e s', E e s' :=
    fun hn => hE fun hall => hn ⟨hall.1 (by omega) (by omega), hall.2⟩
  rw [sat_bind, sat_exec]
  constructor
  · -- the list is full and the draw calls for a check
    rintro ⟨hfull, hdraw⟩
    refine (h.check avoid hlev' fun hn => hE' fun hall =>
      hn ⟨hall.1.cleanup hfull hdraw, hall.2⟩).imp ?_
    rintro _ s1 ⟨h1, hf1, hc1⟩
    rw [sat_bind, sat_get, sat_ite]
    refine ⟨fun _ => .inl ⟨h1, hf1⟩, fun hroom => ?_⟩
    have hreg : Registers s env := .inr ⟨hdraw, hc1.made_room hfull hroom⟩
    have htime : registerTime s env = s1.clock + env.tick := by
      unfold registerTime
      rw [if_pos (show s.full from hfull), hc1.clock]
    -- what the second check needs held before the first one already
    have hcarry : EnqueueOk m₀ s avoid b env (registerTime s env) →
        EnqueueOk m₀ s1 avoid b env (s1.clock + env.tick) := by
      intro hok
      rw [htime] at hok
      refine ⟨by rw [hc1.opts]; exact hok.unprotected, fun hd => ⟨fun d hmem hdue => ?_, ?_⟩⟩
      · rw [hc1.delayed] at hmem
        obtain ⟨hmem, hnot⟩ := mem_left.1 hmem
        obtain ⟨hw, hcov⟩ := (hok.check hd).1 d hmem hdue
        refine ⟨hw.checked h.delayed (fun q hq => ?_) hmem hnot hc1, by rw [hc1.opts]; exact hcov⟩
        exact (h.owned.tables.times q hq).trans (le_add_right _ _)
      · rw [hc1.opts]
        exact (hok.check hd).2
    refine (enqueue_ok avoid h1 hlev' fun hn => hE' fun hall => hn ⟨?_, ?_⟩).imp ?_
    · exact hcarry (hall.1.enqueue hreg)
    · exact hall.2.of_subset hc1.listed
    · rintro _ s2 (⟨h2, hf2⟩ | ⟨hdark, hno⟩)
      · exact .inl ⟨h2, hf1.trans hf2⟩
      · exact .inr ⟨hdark, hE' fun hall => hno (hcarry (hall.1.enqueue hreg))⟩
  · intro hskip
    rw [sat_bind, sat_get, sat_ite]
    refine ⟨fun _ => .inl ⟨h, .refl _ _⟩, fun hroom => ?_⟩
    have hreg : Registers s env := .inl hroom
    have htime : registerTime s env = s.clock + env.tick := by
      unfold registerTime
      rw [if_neg (show ¬s.full from hroom), add_zero]
    have hcarry : RegisterOk m₀ s avoid b env → EnqueueOk m₀ s avoid b env (s.clock + env.tick) := by
      intro hok
      rw [← htime]
      exact hok.enqueue hreg
    refine (enqueue_ok avoid h hlev' fun hn => hE' fun hall =>
      hn ⟨hcarry hall.1, hall.2⟩).imp ?_
    rintro _ s2 (hok | ⟨hdark, hno⟩)
    · exact .inl hok
    · exact .inr ⟨hdark, hE' fun hall => hno (hcarry hall.1)⟩

end Register

/-! ### The end of a free -/

/-- The mapping of the block has left the program's hands: it is cached, unmapped or quarantined. -/
def HandedBack (b : Block) (s : Heap) : Prop :=
  PutAway b.base b.total s ∨ ∃ q ∈ s.guardQ, q.base = b.base ∧ q.total = b.total

/-- What a free of `b` leaves.  When there is no page for the quarantine node the mapping is lost. -/
def Released (o : MallocOpts) (sec : UInt64) (L : Prop) (X : Multiset (Owner Holder)) (b : Block)
    (s s' : Heap) : Prop :=
  Frame holderRegion s.mem s'.mem X ∧
  ((HeapInv o sec AnyBlock L s' X ∧ HandedBack b s') ∨
    (HeapInv o sec AnyBlock L s' (.tenant (.freed b) ::ₘ X) ∧ .mapFailed ∈ s'.trace))

section Release

variable {o : MallocOpts} {sec : UInt64} {K : Block → Prop} {m₀ : Space} {L : Prop} {s s' : Heap}
  {avoid : ℕ} {X : Multiset (Owner Holder)} {b : Block} {E : Stop → Heap → Prop}

lemma Released.of_frame {s0 : Heap} (hf : Frame holderRegion s0.mem s.mem X)
    (h : Released o sec L X b s s') : Released o sec L X b s0 s' :=
  ⟨hf.trans h.1, h.2⟩

/-- The header of a freed block is read. -/
lemma HeapInv.sat_readFreed {α : Type} {a n v : ℕ} {k : ℕ → Alloc α} {Q : α → Heap → Prop}
    (h : HeapInv o sec K L s (.tenant (.freed b) ::ₘ X)) (hin : b.map ≤ a ∧ a + n ≤ b.map + 32)
    (hv : s.mem.loadLE a n = v)
    (hk : ∀ s', OnlyTrace s s' → HeapInv o sec K L s' (.tenant (.freed b) ::ₘ X) → (k v s').Sat Q E) :
    ((load a n >>= k) s).Sat Q E := by
  obtain ⟨hfree, _⟩ := h.freed
  obtain ⟨_, _, hroom⟩ := hfree.fits.inside
  rw [sat_bind, load_ok (accessible_sub hfree.rw hin.1 (by omega)), Outcome.sat_ok, hv]
  exact hk _ ⟨_, rfl⟩ (h.of_trace ⟨_, rfl⟩)

variable {m : Space} {env : FreeEnv}

lemma Placed.baseOr (hw : Whole m b.region) (h : ℕ) : baseOr b.base h = b.base := by
  have hlow : 4096 ≤ b.base := hw.low
  unfold Malloc.baseOr
  rw [if_pos (by omega)]

/-- A block without guard pages is cached or unmapped. -/
lemma freePlain_ok (h : HeapInv o sec K L s (.tenant (.freed b) ::ₘ X)) (hg : b.guarded = false) :
    (freePlain env b.map b.flags s).Sat (fun _ s' => Released o sec L X b s s') E := by
  obtain ⟨hfree, _⟩ := h.freed
  have hwhole : Whole s.mem b.region := h.owned.whole (Multiset.mem_cons_self _ _)
  refine h.sat_readFreed (by unfold baseAt; omega) hfree.header.base fun s1 ht1 h1 => ?_
  refine h1.sat_readFreed (by unfold totalLenAt; omega) (ht1.mem ▸ hfree.header.total) fun s2 ht2 h2 => ?_
  have h2 := h2.forget
  have hm2 : s2.mem = s.mem := ht2.mem.trans ht1.mem
  rw [if_pos b.flags_conceal, Placed.baseOr hwhole]
  refine (pageCachePut_owned h2.owned rfl ⟨b, rfl, hg, by rw [hm2]; exact hfree, trivial⟩).imp ?_
  rintro _ s3 ⟨hown, hf, ho, hput⟩
  rw [hm2] at hf
  exact ⟨hf, .inl ⟨⟨ho.opts.trans h2.opts, ho.secret.trans h2.secret, hown,
    h2.delayed.congr ho.opts ho.delayed ho.clock ho.guardQ⟩, .inl hput⟩⟩

/-- A guarded block is quarantined, or lost for want of a node. -/
lemma quarantine_ok {place : Option ℕ} {tick : ℕ}
    (h : HeapInv o sec AnyBlock L s (.tenant (.freed b) ::ₘ X)) (hg : b.guarded = true) :
    (guardQuarantineAdd place tick b.base b.total s).Sat (fun _ s' => Released o sec L X b s s') E := by
  obtain ⟨hfree, _⟩ := h.freed
  obtain ⟨_, hmod⟩ := hfree.fits.guarded hg
  have hpos : 0 < b.total := by
    have hroom := hfree.fits.room
    unfold Block.room at hroom
    rw [if_pos hg] at hroom
    omega
  refine (guardQuarantineAdd_owned h.owned rfl ⟨b, rfl, hg, hfree, trivial⟩ hpos hmod).imp ?_
  rintro _ s1 ⟨ho, hf, ⟨hown, hclock, nd, hq⟩ | ⟨hown, hclock, hq, hmf⟩⟩
  · refine ⟨hf, .inl ⟨⟨ho.opts.trans h.opts, ho.secret.trans h.secret, hown, ?_, ?_, ?_⟩,
      .inr ⟨_, by rw [hq]; exact mem_cons_self, rfl, rfl⟩⟩⟩
    · rw [ho.opts, ho.delayed]; exact h.delayed.short
    · rw [ho.delayed, hclock]
      exact fun d hd => (h.delayed.past d hd).trans (le_add_right _ _)
    · rw [hq, ho.delayed]
      intro q hq d hd ha
      rcases mem_cons.1 hq with rfl | hq
      · exact (h.delayed.past d hd).trans (le_add_right _ _)
      · exact h.delayed.parked q hq d hd ha
  · exact ⟨hf, .inr ⟨⟨ho.opts.trans h.opts, ho.secret.trans h.secret, hown,
      h.delayed.congr ho.opts ho.delayed hclock hq⟩, hmf⟩⟩

lemma protectRange (hp : Placed b) (hfits : Fits o b) (hw : Whole m b.region) :
    roundPage (b.ptr + b.len) - b.ptr / 4096 * 4096 = pagesOf (32 + b.len) * 4096 := by
  obtain ⟨_, _, hroom⟩ := hfits.inside
  obtain ⟨hal, hpage⟩ := map_page hw
  have hhigh := hp.high
  have hptr : b.ptr = b.map + 32 := rfl
  obtain ⟨j, hj⟩ := dvd_of_mod_eq_zero hal
  rw [hpage, roundPage_eq (by omega), show b.ptr + b.len = 32 + b.len + 4096 * j by omega, hj]
  unfold pagesOf
  rw [show 32 + b.len + 4096 * j + 4095 = 32 + b.len + 4095 + 4096 * j by omega,
    add_mul_div_left _ _ (by norm_num), add_mul, mul_comm 4096 j, Nat.add_sub_cancel]

/-- A guarded block is given back unless option `U` takes its header away. -/
lemma freeGuarded_ok (h : HeapInv o sec K L s (.tenant (.freed b) ::ₘ X)) (hg : b.guarded = true)
    (hE : s.opts.freeunmap = true ∧ 4096 ≤ b.len → ∀ e s', E e s') :
    (freeGuarded env b.ptr b.map s).Sat (fun _ s' => Released o sec L X b s s') E := by
  obtain ⟨hfree, hp⟩ := h.freed
  have hwhole : Whole s.mem b.region := h.owned.whole (Multiset.mem_cons_self _ _)
  have hptr : b.ptr = b.map + 32 := rfl
  refine h.sat_readFreed (by unfold userLenAt; omega) hfree.header.userLen fun s1 ht1 h1 => ?_
  rw [sat_bind, protectChunk]
  by_cases hprot : s.opts.freeunmap = true ∧ 4096 ≤ b.len
  · -- the header is on the protected page, so the next load faults
    refine (chunkMprotect_range _ _ b.ptr b.len s1).mono ?_ fun _ _ _ => hE hprot _ _
    rintro _ s2 ⟨_, hyes, _⟩
    have hm2 := hyes ⟨by rw [ht1.tables.opts]; exact hprot.1, hprot.2, by omega⟩
    rw [ht1.mem, (map_page hwhole).2, ← (map_page hwhole).2, protectRange hp hfree.fits hwhole,
      (map_page hwhole).2] at hm2
    have hdark : s2.mem.rwPage (b.map / 4096) = false := by
      rw [hm2]
      exact header_dark hfree.fits hwhole
    rw [sat_bind, load_fault]
    · exact hE hprot _ _
    · have hal := (map_page hwhole).1
      refine not_accessible_of_dark (x := baseAt b.map) ?_ le_rfl (by omega)
      rw [show baseAt b.map / 4096 = b.map / 4096 by unfold baseAt; omega]
      exact hdark
  · have hskip : ¬(b.ptr ≠ 0 ∧ b.len ≠ 0 ∧ s1.opts.freeunmap = true ∧ 4096 ≤ b.len) := by
      rw [ht1.tables.opts]
      exact fun hn => hprot ⟨hn.2.2.1, hn.2.2.2⟩
    rw [chunkMprotect, sat_bind, sat_get, sat_exec]
    refine ⟨fun hn => absurd hn hskip, fun _ => ?_⟩
    refine h1.sat_readFreed (by unfold baseAt; omega) (ht1.mem ▸ hfree.header.base) fun s2 ht2 h2 => ?_
    have hm2 : s2.mem = s.mem := ht2.mem.trans ht1.mem
    refine h2.sat_readFreed (by unfold totalLenAt; omega) (hm2 ▸ hfree.header.total) fun s3 ht3 h3 => ?_
    have hm3 : s3.mem = s.mem := ht3.mem.trans hm2
    rw [Placed.baseOr hwhole]
    refine (quarantine_ok h3.forget hg).imp fun _ s4 hr => hr.of_frame ?_
    rw [hm3]
    exact .refl _ _

/-- **`free_chunk` on a block in use.** -/
theorem freeChunk_ok (avoid : ℕ) (h : HeapInv o sec (AsIn m₀) L s (.tenant (.live b) ::ₘ X))
    (hE : ¬(FreeOk m₀ s avoid b env ∧ RefsPos s) → ∀ e s', E e s') :
    (freeChunk env b.ptr s).Sat (fun _ s' => Released o sec L X b s s') E := by
  have hb := h.live.1
  have hp := h.live.2
  have hin := hb.fits.inside
  have hlow := hp.low
  have hptr : b.ptr ≠ 0 := by unfold Block.ptr; omega
  rw [freeChunk, if_neg hptr]
  refine (findHeader_ok "free" hp (by omega) hb.rw hb.header.magic).bind ?_
  rintro v s1 ⟨rfl, hm1, ht1⟩
  have hb1 : BlockOk s1.opts s1.secret s1.mem b := by
    rw [ht1.tables.opts, ht1.tables.secret, hm1]
    exact hb
  refine (markFreed_ok hp hb1).bind ?_
  rintro _ s2 ⟨ht2, hfree⟩
  have ht := ht1.trans ht2
  rw [ht1.tables.opts, h.opts] at hfree
  obtain ⟨h2, hf2⟩ := h.touches (.freed b) ht hin.1 hin.2.1 rfl hfree
  have hwhole : Whole s2.mem b.region := h2.owned.whole (Multiset.mem_cons_self _ _)
  rw [giveBack]
  refine h2.sat_readFreed (by unfold userLenAt; omega) hfree.header.userLen fun s3 ht3 h3 => ?_
  -- the tables are those of the start
  have hs3 := ht.tables.trans ht3.tables
  have hE3 : ¬((0 < b.len → 0 < s3.opts.junklev → RegisterOk m₀ s3 avoid b env.reg) ∧ RefsPos s3) →
      ∀ e s', E e s' := by
    intro hn
    refine hE fun hall => hn ⟨fun hlen hlev => ?_, ?_⟩
    · rw [hs3.opts] at hlev
      exact (hall.1.register hlen hlev).of_keeps (hs3.keeps avoid)
    · unfold RefsPos
      rw [hs3.guardList]
      exact hall.2
  refine (register_ok h3 hE3).bind ?_
  rintro _ s4 (⟨h4, hf4⟩ | ⟨hdark, hall⟩)
  · have hf : Frame holderRegion s.mem s4.mem X := by
      rw [ht3.mem] at hf4
      exact hf2.trans hf4.of_cons
    refine h4.sat_readFreed (by unfold flagsAt; omega) h4.freed.1.header.flags fun s5 ht5 h5 => ?_
    have hf5 : Frame holderRegion s.mem s5.mem X := by rw [ht5.mem]; exact hf
    rw [sat_ite]
    refine ⟨fun hg => ?_, fun hg => ?_⟩
    · have hg := b.flags_guard.1 hg
      refine (freeGuarded_ok h5 hg fun hprot => hE fun hall => ?_).imp fun _ _ hr => hr.of_frame hf5
      rw [h5.opts, ← h.opts] at hprot
      exact hall.1.unprotected ⟨hg, hprot⟩
    · have hg : b.guarded = false := by
        rw [b.flags_guard, Bool.not_eq_true] at hg
        exact hg
      exact (freePlain_ok h5 hg).imp fun _ _ hr => hr.of_frame hf5
  · -- the header is on a protected page
    have hal := (map_page hwhole).1
    rw [sat_bind, load_fault]
    · exact hall _ _
    · refine not_accessible_of_dark (x := flagsAt b.map) ?_ le_rfl (by omega)
      rw [show flagsAt b.map / 4096 = b.map / 4096 by unfold flagsAt; omega]
      exact hdark

end Release

end Musl.Malloc
