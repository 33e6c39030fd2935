import Musl.Malloc.HeapTables
import Musl.Malloc.Mchunk

/-!
# Blocks

A **block** is a chunk as its header describes it: the mapping it came with, whether that mapping has
guard pages, and the bytes the caller asked for.

* `BlockOk`: a block in use: header, canary and user bytes lie in accessible memory, and the header
  says what the block is;
* `FreedOk`: a block after `free_chunk` has marked it: the same with the other magic, and the free
  pattern over the bytes that `fill_junk` reaches.

The specifications of the straight-line code follow: `findHeader_ok`, `markFreed_ok`,
`finishChunk_ok`, `shrinkChunk_ok`.
-/

namespace Musl.Malloc

open Musl.Lib Musl.Lib.Space List Prog Nat

/-! ### Working inside an interval -/

/-- The access stays inside `[lo, hi)` and clears nothing. -/
def Access.Inside (lo hi : ℕ) : Access → Prop
  | .read a n => lo ≤ a ∧ a + n ≤ hi
  | .write a n => lo ≤ a ∧ a + n ≤ hi
  | .fill a n v => lo ≤ a ∧ a + n ≤ hi ∧ v ≠ 0
  | _ => False

/-- Everything noted between the two states satisfies `P`. -/
def Emitted (P : Access → Prop) (s s' : Heap) : Prop :=
  ∃ evs, s'.trace = evs ++ s.trace ∧ ∀ ev ∈ evs, P ev

lemma Emitted.refl (P : Access → Prop) (s : Heap) : Emitted P s s :=
  ⟨[], rfl, fun _ h => nomatch h⟩

variable {P : Access → Prop} {s s' : Heap}

lemma Emitted.trans {s'' : Heap} (h : Emitted P s s') (h' : Emitted P s' s'') : Emitted P s s'' := by
  obtain ⟨e, he, hP⟩ := h
  obtain ⟨e', he', hP'⟩ := h'
  refine ⟨e' ++ e, by rw [he', he, append_assoc], fun ev hev => ?_⟩
  rcases mem_append.1 hev with hev | hev
  · exact hP' ev hev
  · exact hP ev hev

lemma Emitted.mono {Q : Access → Prop} (h : Emitted P s s') (hPQ : ∀ ev, P ev → Q ev) :
    Emitted Q s s' := by
  obtain ⟨e, he, hP⟩ := h
  exact ⟨e, he, fun ev hev => hPQ ev (hP ev hev)⟩

lemma Emitted.log (s : Heap) {ev : Access} (h : P ev) : Emitted P s (s.log ev) :=
  ⟨[ev], rfl, fun _ he => mem_singleton.1 he ▸ h⟩

/-- Bytes of `[lo, hi)` were read and written, and nothing else has changed. -/
structure Touches (lo hi : ℕ) (s s' : Heap) : Prop where
  tables : SameTables s s'
  page : s'.mem.page = s.mem.page
  next : s'.mem.next = s.mem.next
  outside : SameOutside s.mem s'.mem lo hi
  emitted : Emitted (Access.Inside lo hi) s s'

namespace Touches

variable {lo hi lo₁ hi₁ : ℕ} {s s' s'' : Heap}

lemma refl (lo hi : ℕ) (s : Heap) : Touches lo hi s s :=
  ⟨SameTables.refl s, rfl, rfl, SameOutside.refl _ _ _, Emitted.refl _ _⟩

section

variable (h : Touches lo hi s s')

include h

lemma trans (h' : Touches lo hi s' s'') : Touches lo hi s s'' :=
  ⟨h.tables.trans h'.tables, h'.page.trans h.page, h'.next.trans h.next, h.outside.trans h'.outside,
    h.emitted.trans h'.emitted⟩

lemma widen (h1 : lo₁ ≤ lo) (h2 : hi ≤ hi₁) : Touches lo₁ hi₁ s s' := by
  refine ⟨h.tables, h.page, h.next, h.outside.widen h1 h2, h.emitted.mono fun ev hev => ?_⟩
  cases ev with
  | read a n => exact ⟨by have := hev.1; omega, by have := hev.2; omega⟩
  | write a n => exact ⟨by have := hev.1; omega, by have := hev.2; omega⟩
  | fill a n v => exact ⟨by have := hev.1; omega, by have := hev.2.1; omega, hev.2.2⟩
  | _ => exact hev

lemma accessible (a n : ℕ) : s'.mem.accessible a n = s.mem.accessible a n :=
  accessible_congr_page h.page a n

end

end Touches

section Primitives

variable {s : Heap} {a n : ℕ} {E : Stop → Heap → Prop}

lemma load_touches (hacc : s.mem.accessible a n = true) :
    (load a n s).Sat (fun v s' => v = s.mem.loadLE a n ∧ s'.mem = s.mem ∧ Touches a (a + n) s s') E := by
  rw [load_ok hacc]
  refine ⟨rfl, rfl, .mem _ _ _, rfl, rfl, SameOutside.refl _ _ _, ?_⟩
  exact .log s (⟨le_rfl, le_rfl⟩)

lemma store_touches (v : ℕ) (hacc : s.mem.accessible a n = true) :
    (store a n v s).Sat (fun _ s' => s'.mem = s.mem.storeLE a n v ∧ Touches a (a + n) s s') E := by
  rw [store_ok hacc]
  refine ⟨rfl, .mem _ _ _, rfl, rfl, sameOutside_storeLE a n v, ?_⟩
  exact ⟨[.write a n], rfl, fun _ he => mem_singleton.1 he ▸ ⟨le_rfl, le_rfl⟩⟩

lemma memset_touches {v : UInt8} (hv : v ≠ 0) (hacc : s.mem.accessible a n = true) :
    (memset a n v s).Sat (fun _ s' => s'.mem = s.mem.fill a n v ∧ Touches a (a + n) s s') E := by
  rw [memset_ok hacc]
  refine ⟨rfl, .mem _ _ _, rfl, rfl, sameOutside_fill a n v, ?_⟩
  exact ⟨[.fill a n v], rfl, fun _ he => mem_singleton.1 he ▸ ⟨le_rfl, le_rfl, hv⟩⟩

end Primitives

/-! ### Blocks -/

/-- A chunk: its mapping, whether the mapping has guard pages, and the size asked for. -/
structure Block where
  base : ℕ
  total : ℕ
  len : ℕ
  guarded : Bool
  deriving DecidableEq, Repr

namespace Block

def map (b : Block) : ℕ := if b.guarded = true then b.base + 4096 else b.base

def room (b : Block) : ℕ := if b.guarded = true then b.total - 8192 else b.total

def ptr (b : Block) : ℕ := b.map + 32

def region (b : Block) : Region := ⟨b.base, pagesOf b.total⟩

def flags (b : Block) : ℕ := if b.guarded = true then flagGuard else 0

variable {b : Block}

lemma map_guarded (h : b.guarded = true) : b.map = b.base + 4096 := if_pos h

lemma room_guarded (h : b.guarded = true) : b.room = b.total - 8192 := if_pos h

section

variable (h : b.guarded = false)

include h

lemma map_plain : b.map = b.base := by
  unfold map
  rw [if_neg (by rw [h]; decide)]

lemma room_plain : b.room = b.total := by
  unfold room
  rw [if_neg (by rw [h]; decide)]

lemma flags_plain : b.flags = 0 := by
  unfold flags
  rw [if_neg (by rw [h]; decide)]

end

lemma flags_conceal (b : Block) : b.flags &&& flagConceal = 0 := by
  unfold flags
  split <;> rfl

lemma flags_guard (b : Block) : b.flags &&& flagGuard ≠ 0 ↔ b.guarded = true := by
  unfold flags
  cases b.guarded <;> decide

end Block

structure Fits (o : MallocOpts) (b : Block) : Prop where
  room : 32 + b.len + canaryExtra o ≤ b.room
  guarded : b.guarded = true → o.guard = true ∧ b.total % 4096 = 0

structure HeaderIs (m : Space) (b : Block) (magic : ℕ) : Prop where
  magic : m.loadLE (magicAt b.map) 4 = magic
  flags : m.loadLE (flagsAt b.map) 4 = b.flags
  userLen : m.loadLE (userLenAt b.map) 8 = b.len
  total : m.loadLE (totalLenAt b.map) 8 = b.total
  base : m.loadLE (baseAt b.map) 8 = b.base

structure BlockOk (o : MallocOpts) (secret : UInt64) (m : Space) (b : Block) : Prop where
  fits : Fits o b
  rw : m.accessible b.map b.room = true
  header : HeaderIs m b mchunkMagic
  canary : o.canaries = true → m.loadLE (b.ptr + b.len) 8 = makeCanary secret b.ptr b.len

/-- The bytes that `fill_junk` reaches in a chunk of `len` bytes that is freed. -/
def junkSpan (o : MallocOpts) (len : ℕ) : ℕ :=
  if o.junklev = 0 then 0 else if o.junklev = 2 then len else min len 4096

structure FreedOk (o : MallocOpts) (m : Space) (b : Block) : Prop where
  fits : Fits o b
  rw : m.accessible b.map b.room = true
  header : HeaderIs m b mchunkMagicFreed
  junk : ∀ x, b.ptr ≤ x → x < b.ptr + junkSpan o b.len → m.byte x = junkFree

section Local

variable {o : MallocOpts} {secret : UInt64} {m m' : Space} {b : Block} {magic lo hi : ℕ}

lemma junkSpan_le (o : MallocOpts) (len : ℕ) : junkSpan o len ≤ len := by
  unfold junkSpan
  split
  · exact zero_le _
  · split
    · exact le_rfl
    · exact min_le_left _ _

lemma Fits.inside (h : Fits o b) :
    b.base ≤ b.map ∧ b.map + b.room ≤ b.region.stop ∧ 32 + b.len + canaryExtra o ≤ b.room := by
  have hroom := h.room
  have hle := le_pagesOf b.total
  refine ⟨?_, ?_, hroom⟩
  · unfold Block.map
    split <;> omega
  · unfold Block.map Block.room Block.region Region.stop at *
    split at hroom <;> simp only at * <;> split <;> omega

lemma HeaderIs.of_same (h : HeaderIs m b magic) (hs : Same m m' lo hi) (h1 : lo ≤ b.map)
    (h2 : b.map + 32 ≤ hi) : HeaderIs m' b magic := by
  refine ⟨?_, ?_, ?_, ?_, ?_⟩
  · rw [hs.loadLE (by unfold magicAt; omega) (by unfold magicAt; omega)]; exact h.magic
  · rw [hs.loadLE (by unfold flagsAt; omega) (by unfold flagsAt; omega)]; exact h.flags
  · rw [hs.loadLE (by unfold userLenAt; omega) (by unfold userLenAt; omega)]; exact h.userLen
  · rw [hs.loadLE (by unfold totalLenAt; omega) (by unfold totalLenAt; omega)]; exact h.total
  · rw [hs.loadLE (by unfold baseAt; omega) (by unfold baseAt; omega)]; exact h.base

lemma BlockOk.of_same (h : BlockOk o secret m b) (hs : Same m m' b.region.base b.region.stop) :
    BlockOk o secret m' b := by
  obtain ⟨h1, h2, h3⟩ := h.fits.inside
  have hbase : b.region.base ≤ b.map := h1
  refine ⟨h.fits, hs.accessible hbase h2 h.rw, h.header.of_same hs hbase (by omega), fun hc => ?_⟩
  have hextra : canaryExtra o = 8 := by unfold canaryExtra; rw [if_pos hc]
  unfold Block.ptr at *
  rw [hs.loadLE (by omega) (by omega)]
  exact h.canary hc

lemma FreedOk.of_same (h : FreedOk o m b) (hs : Same m m' b.region.base b.region.stop) :
    FreedOk o m' b := by
  obtain ⟨h1, h2, h3⟩ := h.fits.inside
  have hbase : b.region.base ≤ b.map := h1
  have hspan := junkSpan_le o b.len
  refine ⟨h.fits, hs.accessible hbase h2 h.rw, h.header.of_same hs hbase (by omega),
    fun x hx1 hx2 => ?_⟩
  have hx := h.junk x hx1 hx2
  unfold Block.ptr at *
  rw [(hs x (by omega) (by omega)).2]
  exact hx

end Local

/-- Who holds a block: the program, or `free_chunk` after it has marked the block. -/
inductive Holder where
  | live (b : Block)
  | freed (b : Block)

def Holder.block : Holder → Block
  | .live b => b
  | .freed b => b

/-- Blocks as owners of mappings.  What is cached is a freed block without guard pages, what is
quarantined one with; `K` is what else is known of these blocks. -/
def chunkTenants (o : MallocOpts) (secret : UInt64) (K : Block → Prop) : Tenants Holder where
  region w := w.block.region
  Ok m
    | .live b => BlockOk o secret m b
    | .freed b => FreedOk o m b
  kept g m r := ∃ b : Block, b.region = r ∧ b.guarded = g ∧ FreedOk o m b ∧ K b
  ok_local := by
    intro m m' w hs hok
    cases w with
    | live b => exact BlockOk.of_same hok hs
    | freed b => exact FreedOk.of_same hok hs
  kept_local := by
    intro g m m' r hs hok
    obtain ⟨b, hr, hg, hb, hK⟩ := hok
    refine ⟨b, hr, hg, hb.of_same ?_, hK⟩
    rw [hr]
    exact hs

/-! ### Where a block is -/

/-- The block lies in the user range, at an address fit for a header. -/
structure Placed (b : Block) : Prop where
  low : 4096 ≤ b.map
  high : b.map + b.room ≤ 2 ^ 47
  aligned : b.map % 8 = 0

variable {b : Block}

lemma Fits.placed {o : MallocOpts} {m : Space} (h : Fits o b) (hw : Whole m b.region) : Placed b := by
  obtain ⟨h1, h2, _⟩ := h.inside
  have hlow : 4096 ≤ b.base := hw.low
  have hal : b.base % 4096 = 0 := hw.aligned
  have hhigh : b.region.stop ≤ 2 ^ 47 := hw.high
  refine ⟨by omega, by omega, ?_⟩
  unfold Block.map
  split <;> omega

lemma Placed.mchunkFromUser (h : Placed b) : mchunkFromUser b.ptr = b.map := by
  have hhigh := h.high
  unfold Malloc.mchunkFromUser Block.ptr
  rw [wrap_sub (by omega) (by omega)]
  omega

/-! ### Straight-line code on a block -/

section Code

variable {s : Heap} {b : Block} {E : Stop → Heap → Prop} {magic : ℕ}

lemma HeaderIs.of_touches {lo hi : ℕ} {s' : Heap} (h : HeaderIs s.mem b magic)
    (ht : Touches lo hi s s') (hap : b.map + 32 ≤ lo ∨ hi ≤ b.map) : HeaderIs s'.mem b magic :=
  h.of_same (ht.outside.same hap) le_rfl le_rfl

variable {m : Space} {a n len p : ℕ} {f : ℕ → ℕ}

lemma HeaderIs.mark (h : HeaderIs m b magic) {v : ℕ} (hv : v < 2 ^ 32) :
    HeaderIs (m.storeLE (magicAt b.map) 4 v) b v := by
  unfold magicAt
  refine ⟨?_, ?_, ?_, ?_, ?_⟩
  · exact (loadLE_storeLE 4 b.map v).trans (mod_eq_of_lt hv)
  · rw [loadLE_storeLE_apart (by unfold flagsAt; omega)]; exact h.flags
  · rw [loadLE_storeLE_apart (by unfold userLenAt; omega)]; exact h.userLen
  · rw [loadLE_storeLE_apart (by unfold totalLenAt; omega)]; exact h.total
  · rw [loadLE_storeLE_apart (by unfold baseAt; omega)]; exact h.base

lemma load_block (hrw : s.mem.accessible b.map b.room = true) (hin : b.map ≤ a ∧ a + n ≤ b.map + b.room) :
    (load a n s).Sat (fun v s' => v = s.mem.loadLE a n ∧ s'.mem = s.mem ∧
      Touches b.map (b.map + b.room) s s') E :=
  (load_touches (accessible_sub hrw hin.1 hin.2)).imp fun _ _ h => ⟨h.1, h.2.1, h.2.2.widen hin.1 hin.2⟩

lemma store_block (v : ℕ) (hrw : s.mem.accessible b.map b.room = true)
    (hin : b.map ≤ a ∧ a + n ≤ b.map + b.room) :
    (store a n v s).Sat (fun _ s' => s'.mem = s.mem.storeLE a n v ∧
      Touches b.map (b.map + b.room) s s') E :=
  (store_touches v (accessible_sub hrw hin.1 hin.2)).imp fun _ _ h => ⟨h.1, h.2.widen hin.1 hin.2⟩

/-- The header of a block is found. -/
lemma findHeader_ok (name : String) (hp : Placed b) (hroom : 32 ≤ b.room)
    (hrw : s.mem.accessible b.map b.room = true) (hm : s.mem.loadLE (magicAt b.map) 4 = mchunkMagic) :
    (findHeader name b.ptr s).Sat (fun h s' => h = b.map ∧ s'.mem = s.mem ∧
      Touches b.map (b.map + b.room) s s') E := by
  have hlow := hp.low
  rw [findHeader, hp.mchunkFromUser, sat_bind, crashIf, sat_stopIf]
  refine ⟨fun h0 => by omega, fun _ => ?_⟩
  refine (load_block hrw (by unfold magicAt; omega)).bind ?_
  rintro v s1 ⟨hv, hmem, ht⟩
  rw [hm] at hv
  subst hv
  rw [sat_bind, crashIf, sat_stopIf]
  refine ⟨fun h => absurd h (by decide), fun _ => ?_⟩
  rw [sat_bind, crashIf, sat_stopIf]
  exact ⟨fun h => absurd rfl h, fun _ => ⟨rfl, hmem, ht⟩⟩

lemma fillJunk_ok {onAlloc : Bool} (hp : p ≠ 0) (hacc : s.mem.accessible p len = true) :
    (fillJunk p len onAlloc s).Sat (fun _ s' => Touches p (p + len) s s' ∧
      (onAlloc = false → ∀ x, p ≤ x → x < p + junkSpan s.opts len → s'.mem.byte x = junkFree)) E := by
  -- one `memset` of the first `n` bytes
  have hset : ∀ n v, v ≠ 0 → n ≤ len → (onAlloc = false → v = junkFree) →
      junkSpan s.opts len ≤ n →
      (memset p n v s).Sat (fun _ s' => Touches p (p + len) s s' ∧
        (onAlloc = false → ∀ x, p ≤ x → x < p + junkSpan s.opts len → s'.mem.byte x = junkFree)) E := by
    intro n v hv hn hjunk hspan
    refine (memset_touches hv (accessible_sub hacc le_rfl (by omega))).imp ?_
    rintro _ s' ⟨hmem, ht⟩
    refine ⟨ht.widen le_rfl (by omega), fun hfree x h1 h2 => ?_⟩
    rw [hmem, fill_byte_in h1 (by omega)]
    exact hjunk hfree
  have hval : (if onAlloc = true then junkAlloc else junkFree) ≠ 0 := by
    split <;> decide
  have hfree : onAlloc = false → (if onAlloc = true then junkAlloc else junkFree) = junkFree := by
    intro h
    rw [h]
    rfl
  rw [fillJunk, sat_bind, sat_get, sat_ite]
  constructor
  · intro hskip
    refine ⟨Touches.refl _ _ _, fun hf x h1 h2 => ?_⟩
    have hzero : junkSpan s.opts len = 0 := by
      rcases hskip with h | h | h | h
      · exact absurd h hp
      · have := junkSpan_le s.opts len
        omega
      · rw [hf] at h
        exact absurd h.1 (by decide)
      · unfold junkSpan
        rw [if_pos h]
    omega
  · intro hgo
    simp only [not_or] at hgo
    have hlev := hgo.2.2.2
    rw [sat_ite]
    refine ⟨fun h2 => hset len _ hval le_rfl hfree (junkSpan_le _ _), fun h2 => ?_⟩
    have hspan : junkSpan s.opts len = min len 4096 := by
      unfold junkSpan
      rw [if_neg hlev, if_neg h2]
    rw [sat_ite]
    refine ⟨fun _ => hset len _ hval le_rfl hfree (junkSpan_le _ _), fun hbig => ?_⟩
    exact hset 4096 _ hval (by omega) hfree (by omega)

lemma makeCanary_lt (secret : UInt64) (p len : ℕ) : makeCanary secret p len < 2 ^ 64 := by
  unfold makeCanary
  simp only
  split
  · have h1 : secret.toNat < 2 ^ 64 := secret.toNat_lt
    have h2 : wrap p < 2 ^ 64 := mod_lt _ (by norm_num)
    have h3 : wrap len < 2 ^ 64 := mod_lt _ (by norm_num)
    exact xor_lt_two_pow (xor_lt_two_pow h1 h2) h3
  · norm_num

lemma setCanary_ok {size : ℕ} (hacc : s.mem.accessible (p + size) (canaryExtra s.opts) = true) :
    (setCanary p size s).Sat (fun _ s' => Touches (p + size) (p + size + canaryExtra s.opts) s s' ∧
      (s.opts.canaries = true → s'.mem.loadLE (p + size) 8 = makeCanary s.secret p size)) E := by
  rw [setCanary, sat_bind, sat_get, sat_exec]
  refine ⟨fun hc => ?_, fun hc => ⟨Touches.refl _ _ _, fun h => absurd h hc⟩⟩
  have hextra : canaryExtra s.opts = 8 := by unfold canaryExtra; rw [if_pos hc]
  rw [hextra] at hacc ⊢
  refine (store_touches _ hacc).imp fun _ s' h => ⟨h.2, fun _ => ?_⟩
  rw [h.1, loadLE_storeLE]
  exact mod_eq_of_lt (makeCanary_lt _ _ _)

/-- The bytes of a block are wiped or filled. -/
lemma wipe_ok {flags : ℕ} (hfl : flags &&& flagConceal = 0) (hp : p ≠ 0)
    (hacc : s.mem.accessible p len = true) :
    (wipe p len flags s).Sat (fun _ s' => Touches p (p + len) s s' ∧
      ∀ x, p ≤ x → x < p + junkSpan s.opts len → s'.mem.byte x = junkFree) E := by
  unfold wipe
  rw [if_neg (by rw [hfl]; simp)]
  exact (fillJunk_ok hp hacc).imp fun _ _ h => ⟨h.1, h.2 rfl⟩

section

variable (hp : Placed b) (hb : BlockOk s.opts s.secret s.mem b)

include hp hb

/-- The canary of a sound block passes. -/
lemma checkCanary_ok : (checkCanary b.ptr b.map s).Sat (fun _ s' => s'.mem = s.mem ∧
      Touches b.map (b.map + b.room) s s') E := by
  obtain ⟨_, _, hroom⟩ := hb.fits.inside
  have hhigh := hp.high
  rw [checkCanary, sat_bind, sat_get, sat_exec]
  refine ⟨fun hc => ?_, fun _ => ⟨rfl, Touches.refl _ _ _⟩⟩
  have hextra : canaryExtra s.opts = 8 := by unfold canaryExtra; rw [if_pos hc]
  have hstored := hb.canary hc
  have hwrap : wrap (b.ptr + b.len) = b.ptr + b.len :=
    wrap_of_lt (by unfold Block.ptr; omega)
  refine (load_block hb.rw (by unfold userLenAt; omega)).bind ?_
  rintro v s1 ⟨hv, hm1, ht1⟩
  rw [hb.header.userLen] at hv
  subst hv
  rw [sat_bind, crashIf, sat_stopIf]
  refine ⟨fun h => ?_, fun _ => ?_⟩
  · unfold sizeMax at h
    omega
  have hrw1 : s1.mem.accessible b.map b.room = true := by rw [hm1]; exact hb.rw
  rw [sat_bind, hwrap]
  refine (load_block hrw1 (by unfold Block.ptr; omega)).imp ?_
  rintro v s2 ⟨hv, hm2, ht2⟩
  rw [hm1, hstored] at hv
  subst hv
  rw [crashIf, sat_stopIf]
  exact ⟨fun h => absurd rfl h, fun _ => ⟨hm2.trans hm1, ht1.trans ht2⟩⟩

/-- **A block in use is marked and wiped.** -/
theorem markFreed_ok : (markFreed b.ptr b.map s).Sat (fun _ s' => Touches b.map (b.map + b.room) s s' ∧
      FreedOk s.opts s'.mem b) E := by
  obtain ⟨_, _, hroom⟩ := hb.fits.inside
  have hal := hp.aligned
  rw [markFreed, sat_bind, freecheck, sat_bind, sat_get, crashIf, sat_stopIf]
  refine ⟨fun h => absurd h.2.2 (by unfold Block.ptr; omega), fun _ => ?_⟩
  refine (checkCanary_ok hp hb).bind ?_
  rintro _ s1 ⟨hm1, ht1⟩
  rw [sat_bind]
  have hrw1 : s1.mem.accessible b.map b.room = true := by rw [hm1]; exact hb.rw
  refine (store_block mchunkMagicFreed hrw1 (by unfold magicAt; omega)).imp ?_
  rintro _ s2 ⟨hm2, ht2⟩
  have ht2' := ht1.trans ht2
  have hh2 : HeaderIs s2.mem b mchunkMagicFreed := by
    rw [hm2, hm1]
    exact hb.header.mark (by decide)
  have hrw2 : s2.mem.accessible b.map b.room = true := by rw [ht2'.accessible]; exact hb.rw
  refine (load_block hrw2 (by unfold flagsAt; omega)).bind ?_
  rintro v s3 ⟨hv, hm3, ht3⟩
  rw [hh2.flags] at hv
  subst hv
  rw [sat_bind]
  have hrw3 : s3.mem.accessible b.map b.room = true := by rw [hm3]; exact hrw2
  refine (load_block hrw3 (by unfold userLenAt; omega)).imp ?_
  rintro v s4 ⟨hv, hm4, ht4⟩
  rw [hm3, hh2.userLen] at hv
  subst hv
  have ht4' := (ht2'.trans ht3).trans ht4
  have hrw4 : s4.mem.accessible b.map b.room = true := by rw [hm4]; exact hrw3
  refine (wipe_ok b.flags_conceal (by unfold Block.ptr; omega)
    (accessible_sub hrw4 (by unfold Block.ptr; omega)
      (by unfold Block.ptr; omega))).imp ?_
  rintro _ s5 ⟨ht5, hjunk⟩
  have ht5' := ht4'.trans (ht5.widen (by unfold Block.ptr; omega)
    (by unfold Block.ptr; omega))
  refine ⟨ht5', hb.fits, by rw [ht5'.accessible]; exact hb.rw, ?_, ?_⟩
  · have hh4 : HeaderIs s4.mem b mchunkMagicFreed := by rw [hm4, hm3]; exact hh2
    exact hh4.of_touches ht5 (.inl le_rfl)
  · rw [← ht4'.tables.opts]
    exact hjunk

end

lemma headerIs_stores (m : Space) (b : Block) (hlen : b.len < 2 ^ 64) (htotal : b.total < 2 ^ 64)
    (hbase : b.base < 2 ^ 64) :
    HeaderIs (((((m.storeLE (magicAt b.map) 4 mchunkMagic).storeLE (userLenAt b.map) 8 b.len).storeLE
      (baseAt b.map) 8 b.base).storeLE (totalLenAt b.map) 8 b.total).storeLE (flagsAt b.map) 4 b.flags)
      b mchunkMagic := by
  unfold magicAt userLenAt baseAt totalLenAt flagsAt
  have hflags : b.flags < 256 ^ 4 := by
    unfold Block.flags
    split <;> decide
  refine ⟨?_, ?_, ?_, ?_, ?_⟩
  · unfold magicAt
    rw [loadLE_storeLE_apart (by omega), loadLE_storeLE_apart (by omega),
      loadLE_storeLE_apart (by omega), loadLE_storeLE_apart (by omega), loadLE_storeLE]
    decide
  · unfold flagsAt
    rw [loadLE_storeLE]
    exact mod_eq_of_lt hflags
  · unfold userLenAt
    rw [loadLE_storeLE_apart (by omega), loadLE_storeLE_apart (by omega),
      loadLE_storeLE_apart (by omega), loadLE_storeLE]
    exact mod_eq_of_lt hlen
  · unfold totalLenAt
    rw [loadLE_storeLE_apart (by omega), loadLE_storeLE]
    exact mod_eq_of_lt htotal
  · unfold baseAt
    rw [loadLE_storeLE_apart (by omega), loadLE_storeLE_apart (by omega), loadLE_storeLE]
    exact mod_eq_of_lt hbase

/-- The stores of a new header. -/
lemma newHeader_ok {k : Alloc ℕ} {Q : ℕ → Heap → Prop} (hp : Placed b) (hfits : Fits s.opts b)
    (hrw : s.mem.accessible b.map b.room = true) (hf : f (s.mem.loadLE (flagsAt b.map) 4) = b.flags)
    (hk : ∀ s', Touches b.map (b.map + b.room) s s' → HeaderIs s'.mem b mchunkMagic → (k s').Sat Q E) :
    ((do
      store (magicAt b.map) 4 mchunkMagic
      store (userLenAt b.map) 8 b.len
      setExtent b.map b.base b.total f
      k : Alloc ℕ) s).Sat Q E := by
  obtain ⟨hbm, _, hroom⟩ := hfits.inside
  have hhigh := hp.high
  have htotal : b.total < 2 ^ 64 := by
    unfold Block.room at hhigh
    split at hhigh <;> omega
  refine (store_block _ hrw (by unfold magicAt; omega)).bind ?_
  rintro _ s1 ⟨hm1, ht1⟩
  refine (store_block _ (by rw [ht1.accessible]; exact hrw) (by unfold userLenAt; omega)).bind ?_
  rintro _ s2 ⟨hm2, ht2⟩
  have ht2 := ht1.trans ht2
  rw [sat_bind]
  refine (store_block _ (by rw [ht2.accessible]; exact hrw) (by unfold baseAt; omega)).bind ?_
  rintro _ s3 ⟨hm3, ht3⟩
  have ht3 := ht2.trans ht3
  refine (store_block _ (by rw [ht3.accessible]; exact hrw) (by unfold totalLenAt; omega)).bind ?_
  rintro _ s4 ⟨hm4, ht4⟩
  have ht4 := ht3.trans ht4
  refine (load_block (by rw [ht4.accessible]; exact hrw) (by unfold flagsAt; omega)).bind ?_
  rintro v s5 ⟨hv, hm5, ht5⟩
  have ht5 := ht4.trans ht5
  -- none of the four stores hits the flags
  have hold : v = s.mem.loadLE (flagsAt b.map) 4 := by
    rw [hv, hm4, hm3, hm2, hm1]
    unfold flagsAt magicAt userLenAt baseAt totalLenAt
    rw [loadLE_storeLE_apart (by omega), loadLE_storeLE_apart (by omega),
      loadLE_storeLE_apart (by omega), loadLE_storeLE_apart (by omega)]
  rw [hold, hf]
  refine (store_block _ (by rw [ht5.accessible]; exact hrw) (by unfold flagsAt; omega)).imp ?_
  rintro _ s6 ⟨hm6, ht6⟩
  refine hk s6 (ht5.trans ht6) ?_
  rw [hm6, hm5, hm4, hm3, hm2, hm1]
  exact headerIs_stores s.mem b (by omega) htotal (by omega)

/-- **A new block.** -/
theorem finishChunk_ok (hp : Placed b) (hfits : Fits s.opts b)
    (hrw : s.mem.accessible b.map b.room = true)
    (hf : f (s.mem.loadLE (flagsAt b.map) 4) = b.flags) :
    (finishChunk b.map b.len b.base b.total f s).Sat (fun p s' => p = b.ptr ∧
      Touches b.map (b.map + b.room) s s' ∧ BlockOk s.opts s.secret s'.mem b) E := by
  obtain ⟨_, _, hroom⟩ := hfits.inside
  have hlow := hp.low
  unfold finishChunk
  refine newHeader_ok hp hfits hrw hf ?_
  intro s1 ht1 hh1
  have hrw1 : s1.mem.accessible b.map b.room = true := by rw [ht1.accessible]; exact hrw
  refine (fillJunk_ok (by omega) (accessible_sub hrw1 (by omega) (by omega))).bind ?_
  rintro _ s2 ⟨ht2, _⟩
  have hh2 := hh1.of_touches ht2 (.inl le_rfl)
  have ht2 := ht1.trans (ht2.widen (by omega)
    (by omega))
  have hrw2 : s2.mem.accessible b.map b.room = true := by rw [ht2.accessible]; exact hrw
  refine (setCanary_ok (accessible_sub hrw2 (by omega) ?_)).bind ?_
  · rw [ht2.tables.opts]
    omega
  rintro _ s3 ⟨ht3, hcan⟩
  rw [ht2.tables.opts] at ht3 hcan
  rw [ht2.tables.secret] at hcan
  have hh3 := hh2.of_touches ht3 (.inl (by omega))
  have ht3 := ht2.trans (ht3.widen (by omega)
    (by omega))
  exact ⟨rfl, ht3, hfits, by rw [ht3.accessible]; exact hrw, hh3, hcan⟩

lemma HeaderIs.resize (h : HeaderIs m b magic) (hn : n < 2 ^ 64) :
    HeaderIs (m.storeLE (userLenAt b.map) 8 n) { b with len := n } magic := by
  unfold userLenAt
  refine ⟨?_, ?_, ?_, ?_, ?_⟩
  · rw [loadLE_storeLE_apart (by show magicAt b.map + 4 ≤ _ ∨ _; unfold magicAt; omega)]
    exact h.magic
  · rw [loadLE_storeLE_apart (by show flagsAt b.map + 4 ≤ _ ∨ _; unfold flagsAt; omega)]
    exact h.flags
  · exact (loadLE_storeLE 8 (b.map + 8) n).trans (mod_eq_of_lt hn)
  · rw [loadLE_storeLE_apart (by
      show totalLenAt b.map + 8 ≤ _ ∨ _ ≤ totalLenAt b.map; unfold totalLenAt; omega)]
    exact h.total
  · rw [loadLE_storeLE_apart (by show baseAt b.map + 8 ≤ _ ∨ _ ≤ baseAt b.map; unfold baseAt; omega)]
    exact h.base

/-- **A block shrinks in place** and keeps the bytes it still has. -/
theorem shrinkChunk_ok {newlen : ℕ} (hp : Placed b) (hb : BlockOk s.opts s.secret s.mem b)
    (hlt : newlen < b.len) :
    (shrinkChunk b.ptr b.map b.len b.flags newlen s).Sat (fun p s' => p = b.ptr ∧
      Touches b.map (b.map + b.room) s s' ∧
      BlockOk s.opts s.secret s'.mem { b with len := newlen } ∧
      ∀ x, b.ptr ≤ x → x < b.ptr + newlen → s'.mem.byte x = s.mem.byte x) E := by
  obtain ⟨_, _, hroom⟩ := hb.fits.inside
  have hhigh := hp.high
  have hptr : b.ptr = b.map + 32 := rfl
  rw [shrinkChunk, sat_bind]
  refine (wipe_ok b.flags_conceal (by omega)
    (accessible_sub hb.rw (by omega) (by omega))).imp ?_
  rintro _ s1 ⟨ht1, _⟩
  have hh1 := hb.header.of_touches ht1 (.inl (by omega))
  have hd1 := ht1.outside
  have ht1 := ht1.widen (show b.map ≤ b.ptr + newlen by omega)
    (show b.ptr + newlen + (b.len - newlen) ≤ b.map + b.room by omega)
  refine (store_block newlen (by rw [ht1.accessible]; exact hb.rw) (by unfold userLenAt; omega)).bind ?_
  rintro _ s2 ⟨hm2, ht2⟩
  have hh2 : HeaderIs s2.mem { b with len := newlen } mchunkMagic := by
    rw [hm2]
    exact hh1.resize (by omega)
  have ht2 := ht1.trans ht2
  rw [sat_bind]
  refine (setCanary_ok (accessible_sub (by rw [ht2.accessible]; exact hb.rw)
    (by omega) (by rw [ht2.tables.opts]; omega))).imp ?_
  rintro _ s3 ⟨ht3, hcan⟩
  rw [ht2.tables.opts] at ht3 hcan
  rw [ht2.tables.secret] at hcan
  have hh3 := hh2.of_touches ht3 (.inl (by show b.map + 32 ≤ _; omega))
  have hd3 := ht3.outside
  have ht3 := ht2.trans (ht3.widen (by omega)
    (by omega))
  refine ⟨rfl, ht3, ⟨⟨?_, hb.fits.guarded⟩, ?_, hh3, hcan⟩, fun x h1 h2 => ?_⟩
  · show 32 + newlen + canaryExtra s.opts ≤ b.room
    omega
  · rw [ht3.accessible]
    exact hb.rw
  · rw [(hd3 x (by omega)).2, hm2, storeLE_byte_out (by unfold userLenAt; omega), (hd1 x (by omega)).2]

end Code

end Musl.Malloc
