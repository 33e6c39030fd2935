import Musl.Malloc.FreeChunk

/-!
# Allocating a block

`mallocChunk_ok` says what `malloc_chunk` does beside the holders of other blocks: it answers the null
pointer, or a new block of the size asked for in a mapping of its own, and the mappings of all others
are left alone.
-/

namespace Musl.Malloc

open Musl.Lib Musl.Lib.Space Prog

def chunkLen (o : MallocOpts) (size : ℕ) : ℕ := size + canaryExtra o + 32

def Guards (o : MallocOpts) (size : ℕ) : Prop := o.guard = true ∧ 4096 ≤ chunkLen o size

def Oversize (o : MallocOpts) (size : ℕ) : Prop :=
  sizeMax - 32 - canaryExtra o < size ∨
    (Guards o size ∧ (roundPage (chunkLen o size) = 0 ∨ sizeMax - 8192 < roundPage (chunkLen o size)))

/-- **When an allocation does not stop** although mappings are granted. -/
structure AllocOk (o : MallocOpts) (size : ℕ) (env : MguardEnv) : Prop where
  sized : o.xmalloc = true → ¬Oversize o size
  granted : o.xmalloc = true → Guards o size → env.frontOk = true ∧ env.rearOk = true

/-- What an allocation of `size` bytes leaves when it answers `p`. -/
structure Allocated (o : MallocOpts) (sec : UInt64) (K : Block → Prop) (L : Prop)
    (X : Multiset (Owner Holder)) (size : ℕ) (s : Heap) (p : ℕ) (s' : Heap) : Prop where
  frame : Frame holderRegion s.mem s'.mem X
  keeps : Keeps (chunkLen o size) s s'
  block : (p = 0 ∧ HeapInv o sec K L s' X) ∨
    ∃ b, p = b.ptr ∧ b.len = size ∧ HeapInv o sec K L s' (.tenant (.live b) ::ₘ X)

section Allocate

variable {o : MallocOpts} {sec : UInt64} {K : Block → Prop} {L : Prop} {s s' : Heap}
  {X : Multiset (Owner Holder)} {size : ℕ} {env : MguardEnv} {E : Stop → Heap → Prop}

lemma roundPage_le {x : ℕ} (hx : x ≤ sizeMax) (h : roundPage x ≠ 0) : x ≤ roundPage x := by
  by_cases hlt : x + 4095 < 2 ^ 64
  · rw [roundPage_eq hlt]
    exact le_pagesOf x
  · refine absurd ?_ h
    unfold sizeMax at hx
    unfold roundPage wrap
    omega

lemma allocFails_ok (h : HeapInv o sec K L s' X) (hf : Frame holderRegion s.mem s'.mem X)
    (hk : Keeps (chunkLen o size) s s') (hE : o.xmalloc = true → ∀ e, E e s') :
    (allocFails s').Sat (Allocated o sec K L X size s) E := by
  rw [allocFails, sat_bind, sat_get, sat_bind, crashIf, sat_stopIf, h.opts]
  exact ⟨fun hx => hE hx _, fun _ => ⟨hf, hk, .inl ⟨rfl, h⟩⟩⟩

variable {b : Block} {mlen : ℕ}

/-- **A mapping becomes a block.** -/
theorem finish_owned {f : ℕ → ℕ} (hopts : s.opts = o) (hsec : s.secret = sec) (hd : DelayedOk s)
    (h : HeapOwned (chunkTenants o sec K) L s (.raw b.region ::ₘ X)) (hfits : Fits o b)
    (hrw : s.mem.accessible b.map b.room = true) (hf : f (s.mem.loadLE (flagsAt b.map) 4) = b.flags) :
    (finishChunk b.map b.len b.base b.total f s).Sat (fun p s' => p = b.ptr ∧ SameTables s s' ∧
      HeapInv o sec K L s' (.tenant (.live b) ::ₘ X) ∧ Frame holderRegion s.mem s'.mem X) E := by
  have hw : Whole s.mem b.region := h.whole (Multiset.mem_cons_self _ _)
  have hin := hfits.inside
  refine (finishChunk_ok (hfits.placed hw) (by rw [hopts]; exact hfits) hrw hf).imp ?_
  rintro p s' ⟨hp, ht, hb⟩
  rw [hopts, hsec] at hb
  obtain ⟨hown, hframe⟩ := h.write ht.tables ht.page ht.next
    (ht.outside.widen hin.1 hin.2.1)
    (show Tenants.regionOf _ (.tenant (.live b)) = _ from rfl) hb
  exact ⟨hp, ht.tables,
    ⟨ht.tables.opts.trans hopts, ht.tables.secret.trans hsec, hown, hd.of_same ht.tables⟩, hframe⟩

lemma Guarded.block {aligned : ℕ} (hg : Guarded (chunkTenants o sec K) L X aligned s b.base s')
    (hal : aligned % 4096 = 0) (hroom : 32 + b.len + canaryExtra o ≤ aligned) (hopt : o.guard = true)
    (hb : b.guarded = true) (htotal : b.total = aligned + 8192) :
    Fits o b ∧ s'.mem.accessible b.map b.room = true ∧ s'.mem.loadLE (flagsAt b.map) 4 = 0 := by
  rw [Block.map_guarded hb, Block.room_guarded hb, htotal, Nat.add_sub_cancel]
  refine ⟨⟨?_, fun _ => ⟨hopt, ?_⟩⟩, ?_, ?_⟩
  · rw [Block.room_guarded hb, htotal, Nat.add_sub_cancel]
    exact hroom
  · omega
  · rw [accessible_iff]
    exact fun x h1 h2 => (hg.interior x h1 h2).1
  · refine loadLE_zero 4 _ fun x h1 h2 => (hg.interior x ?_ ?_).2
    · unfold flagsAt at h1
      omega
    · unfold flagsAt at h2
      omega

/-- **A chunk inside guard pages.** -/
theorem mallocGuarded_ok (h : HeapInv o sec K L s X) (hsize : chunkLen o size ≤ sizeMax)
    (hg : Guards o size)
    (hE : ∀ e s', o.xmalloc = true → ¬AllocOk o size env ∨ .mapFailed ∈ s'.trace → E e s') :
    (mallocGuarded env size (chunkLen o size) s).Sat (Allocated o sec K L X size s) E := by
  -- with option `X` a failure is one of those that `AllocOk` names
  have hover : o.xmalloc = true → Oversize o size → ∀ e s', E e s' := fun hx ho e s' =>
    hE e s' hx (.inl fun hok => hok.sized hx ho)
  have hdeny : o.xmalloc = true → ¬(env.frontOk = true ∧ env.rearOk = true) → ∀ e s', E e s' :=
    fun hx hn e s' => hE e s' hx (.inl fun hok => hn (hok.granted hx hg))
  rw [mallocGuarded, sat_bind]
  by_cases hzero : roundPage (chunkLen o size) = 0
  · have hov : Oversize o size := .inr ⟨hg, .inl hzero⟩
    rw [hzero, mguard, sat_bind, sat_get, if_pos rfl, sat_bind, crashIf, sat_stopIf, h.opts]
    refine ⟨fun hx => hover hx hov _ _, fun _ => ?_⟩
    exact allocFails_ok h (.refl _ _) ((SameTables.refl s).keeps _) fun hx e => hover hx hov e s
  have hmod := roundPage_mod (chunkLen o size)
  have hle := roundPage_le hsize hzero
  have hal : guardAligned (roundPage (chunkLen o size)) = roundPage (chunkLen o size) := by
    unfold guardAligned
    rw [if_neg (by omega)]
  refine (mguard_owned h.owned (by rw [h.opts]; exact hg.1) (by omega)).imp ?_
  rintro r s1 (⟨base, rfl, hgd⟩ | ⟨rfl, hown, ho, hq, hf, hwhy⟩)
  · rw [hal] at hgd
    have hk1 := hgd.outside.keeps hgd.guardQ (chunkLen o size)
    show ((if roundPage (chunkLen o size) < chunkLen o size then _ else _ : Alloc ℕ) s1).Sat _ _
    rw [if_neg (by omega), Nat.add_sub_cancel]
    obtain ⟨b, rfl, htotal, rfl, hb⟩ : ∃ b : Block, b.base = base ∧
        b.total = roundPage (chunkLen o size) + 8192 ∧ b.len = size ∧ b.guarded = true :=
      ⟨⟨base, _, size, true⟩, rfl, rfl, rfl, rfl⟩
    have hroom : 32 + b.len + canaryExtra o ≤ roundPage (chunkLen o b.len) := by
      refine le_trans ?_ hle
      unfold chunkLen
      omega
    obtain ⟨hfits, hrw, hflags⟩ := hgd.block hmod hroom hg.1 hb htotal
    have hraw : HeapOwned (chunkTenants o sec K) L s1 (.raw b.region ::ₘ X) := by
      unfold Block.region
      rw [htotal]
      exact hgd.owned
    rw [← htotal, ← Block.map_guarded hb]
    refine (finish_owned (hk1.opts.trans h.opts) (hgd.outside.secret.trans h.secret)
      (h.delayed.of_keeps hk1) hraw hfits hrw ?_).imp ?_
    · rw [hflags]
      unfold Block.flags
      rw [if_pos hb]
      rfl
    · rintro p s2 ⟨hp, hs2, h2, hf2⟩
      exact ⟨hgd.frame.trans hf2, hk1.trans (hs2.keeps _), .inr ⟨b, hp, rfl, h2⟩⟩
  · have hk1 := ho.keeps hq (chunkLen o size)
    refine allocFails_ok ⟨ho.opts.trans h.opts, ho.secret.trans h.secret, hown,
      h.delayed.of_keeps hk1⟩ hf hk1 fun hx e => ?_
    rw [hal] at hwhy
    rcases hwhy with hbig | hno | hmf
    · exact hover hx (.inr ⟨hg, .inr hbig⟩) e s1
    · exact hdeny hx hno e s1
    · exact hE e s1 hx (.inr hmf)

structure Mapping (o : MallocOpts) (sec : UInt64) (K : Block → Prop) (L : Prop)
    (X : Multiset (Owner Holder)) (mlen : ℕ) (s : Heap) (p : ℕ) (s' : Heap) : Prop where
  owned : HeapOwned (chunkTenants o sec K) L s' (.raw ⟨p, pagesOf mlen⟩ ::ₘ X)
  secret : s'.secret = s.secret
  frame : Frame holderRegion s.mem s'.mem X
  keeps : Keeps mlen s s'
  rw : s'.mem.accessible p mlen = true
  flags : s'.mem.loadLE (flagsAt p) 4 = 0

variable (h : HeapInv o sec K L s X)

include h

lemma cachedMapping_ok :
    (cachedMapping mlen s).Sat (fun p s' => (p = 0 ∧ s' = s) ∨
      (p ≠ 0 ∧ Mapping o sec K L X mlen s p s')) E := by
  rw [cachedMapping, sat_bind, sat_get, sat_ite]
  refine ⟨fun hround => ?_, fun _ => .inl ⟨rfl, rfl⟩⟩
  by_cases hguard : s.opts.guard = true
  · rw [pageCacheTryGet, sat_bind, sat_get, if_pos (.inl hguard)]
    exact .inl ⟨rfl, rfl⟩
  rw [if_neg hguard] at hround ⊢
  have hmod : mlen % 4096 = 0 := by rw [← hround]; exact roundPage_mod mlen
  refine (pageCacheTryGet_owned h.owned hmod).imp ?_
  rintro p s' (hnone | ⟨hp, ⟨c, hr, hg, hfree, _⟩, hf, ho, hcached, hown⟩)
  · exact .inl hnone
  have hbase : c.base = p := congrArg Region.base hr
  have hpages : pagesOf c.total = pagesOf mlen := congrArg Region.pages hr
  have hmap := Block.map_plain hg
  have h' := hown (.raw ⟨p, pagesOf mlen⟩) rfl trivial
  refine .inr ⟨hp, h', ho.secret, hf, ⟨ho.opts, ho.clock, ho.delayed, ho.guardQ, hcached⟩, ?_, ?_⟩
  · have hal : p % 4096 = 0 :=
      (h'.whole (Multiset.mem_cons_self _ _)).aligned
    have hrw := hfree.rw
    rw [hmap, hbase, Block.room_plain hg] at hrw
    have hall := accessible_pages hal hrw
    have hle := le_pagesOf mlen
    exact accessible_sub hall le_rfl (by omega)
  · have hfl := hfree.header.flags
    rwa [hmap, hbase, Block.flags_plain hg] at hfl

lemma plainMapping_ok : (plainMapping env mlen s).Sat (fun r s' =>
      (r = none ∧ SameTables s s' ∧ s'.mem = s.mem ∧ .mapFailed ∈ s'.trace) ∨
      ∃ p, r = some p ∧ Mapping o sec K L X mlen s p s') E := by
  refine (cachedMapping_ok h).bind ?_
  rintro p s1 (⟨rfl, rfl⟩ | ⟨hp, hmap⟩)
  · refine sat_mmap (fun a _ hpl => ?_) (.inl ⟨rfl, .mem _ _ _, rfl, List.mem_cons_self⟩)
    have hs := SameTables.mem s1 (s1.mem.mmapAt a mlen) (.map a mlen :: s1.trace)
    obtain ⟨h', hf⟩ := h.owned.mmapAt hpl hs rfl
      (show Tenants.regionOf (chunkTenants o sec K) (.raw ⟨a, pagesOf mlen⟩) = _ from rfl) trivial
    obtain ⟨⟨hal, _, hpos, _⟩, _⟩ := placeable_iff.1 hpl
    have hle := le_pagesOf mlen
    refine .inr ⟨a, rfl, h', rfl, hf, hs.keeps _, mmapAt_accessible hal le_rfl (by omega), ?_⟩
    refine loadLE_zero 4 _ fun x h1 h2 => mmapAt_byte ?_ ?_
    · unfold flagsAt at h1
      omega
    · unfold flagsAt at h2
      omega
  · rw [if_pos hp]
    exact .inr ⟨p, rfl, hmap⟩

/-- **A chunk without guard pages.** -/
theorem mallocPlain_ok (hE : ∀ e s', o.xmalloc = true → .mapFailed ∈ s'.trace → E e s') :
    (mallocPlain env size (chunkLen o size) s).Sat (Allocated o sec K L X size s) E := by
  refine (plainMapping_ok h).bind ?_
  rintro r s1 (⟨rfl, hs, hm, hmf⟩ | ⟨p, rfl, hmap⟩)
  · refine allocFails_ok ⟨hs.opts.trans h.opts, hs.secret.trans h.secret, h.owned.of_same hs hm,
      h.delayed.of_same hs⟩ (by rw [hm]; exact .refl _ _) (hs.keeps _) fun hx e => hE e s1 hx hmf
  · obtain ⟨b, rfl, htotal, rfl, hb⟩ : ∃ b : Block, b.base = p ∧ b.total = chunkLen o size ∧
        b.len = size ∧ b.guarded = false := ⟨⟨p, _, size, false⟩, rfl, rfl, rfl, rfl⟩
    have hbm := Block.map_plain hb
    have hfits : Fits o b := by
      refine ⟨?_, fun hg => ?_⟩
      · rw [Block.room_plain hb, htotal]
        unfold chunkLen
        omega
      · rw [hb] at hg
        cases hg
    have hraw : HeapOwned (chunkTenants o sec K) L s1 (.raw b.region ::ₘ X) := by
      unfold Block.region
      rw [htotal]
      exact hmap.owned
    show (finishChunk b.base b.len b.base (chunkLen o b.len) _ s1).Sat _ _
    rw [← htotal]
    nth_rewrite 1 [← hbm]
    refine (finish_owned (hmap.keeps.opts.trans h.opts) (hmap.secret.trans h.secret)
      (h.delayed.of_keeps hmap.keeps) hraw hfits ?_ ?_).imp ?_
    · rw [hbm, Block.room_plain hb, htotal]
      exact hmap.rw
    · rw [hbm, hmap.flags, Block.flags_plain hb]
      rfl
    · rintro p s2 ⟨hp, hs2, h2, hf2⟩
      exact ⟨hmap.frame.trans hf2, hmap.keeps.trans (hs2.keeps _), .inr ⟨b, hp, rfl, h2⟩⟩

/-- **`malloc_chunk`.** -/
theorem mallocChunk_ok {flags : ℕ}
    (hE : ∀ e s', o.xmalloc = true → ¬AllocOk o size env ∨ .mapFailed ∈ s'.trace → E e s') :
    (mallocChunk env size flags s).Sat (Allocated o sec K L X size s) E := by
  rw [mallocChunk, sat_bind, sat_get, h.opts, sat_ite]
  refine ⟨fun hbig => ?_, fun hfit => ?_⟩
  · refine allocFails_ok h (.refl _ _) ((SameTables.refl s).keeps _) fun hx e => ?_
    exact hE e s hx (.inl fun hok => hok.sized hx (.inl hbig))
  · rw [sat_ite]
    refine ⟨fun hg => mallocGuarded_ok h ?_ hg hE, fun _ => ?_⟩
    · have hextra : canaryExtra o ≤ 8 := by unfold canaryExtra; split <;> omega
      unfold chunkLen sizeMax at *
      omega
    · exact mallocPlain_ok h fun e s' hx hmf => hE e s' hx (.inr hmf)

end Allocate

end Musl.Malloc
