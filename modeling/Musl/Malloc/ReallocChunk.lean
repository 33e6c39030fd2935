import Musl.Malloc.GuardedResize
import Musl.Malloc.MallocChunk

/-!
# Reallocating a block

`resizeChunk_ok` says what `realloc_chunk` does to a block in use when it is asked for another size:
it answers the null pointer and the block is as before, or a block of the new size that starts with
the bytes of the old one.

The four ways are: the same size, shrinking in place, growing a guarded mapping through `mreguard`, and
allocate-copy-free.  The third one never returns: `mreguard` answers the address right behind the
guard page, `realloc_chunk` takes it for a user pointer and reads a header in front of it.
-/

namespace Musl.Malloc

open Musl.Lib Musl.Lib.Space Prog Multiset

/-- The `n` bytes at `q` in `m'` are those at `p` in `m`. -/
def Copied (m m' : Space) (p q n : ℕ) : Prop := ∀ i, i < n → m'.byte (q + i) = m.byte (p + i)

/-- What is left of a freed block: nothing, or its mapping when there was no page for the quarantine
node. -/
def Lost (b : Block) (lost : Multiset (Owner Holder)) (s : Heap) : Prop :=
  lost = 0 ∨ (lost = {.tenant (.freed b)} ∧ .mapFailed ∈ s.trace)

def Moves (o : MallocOpts) (b : Block) (newlen : ℕ) : Prop :=
  b.len < newlen ∨ (newlen = b.len ∧ o.realloc = true)

/-- **When resizing the block `b` returns**: it stays where it is, or it has no guard pages and both
the allocation and the free return. -/
def ResizeOk (o : MallocOpts) (s : Heap) (b : Block) (newlen : ℕ) (env : ReallocEnv) : Prop :=
  Moves o b newlen → b.guarded = false ∧ AllocOk o newlen env.alloc ∧
    FreeOk s.mem s (chunkLen o newlen) b env.free

/-- What resizing the block `b` to `newlen` bytes leaves when it answers `q`. -/
structure Reallocated (o : MallocOpts) (sec : UInt64) (L : Prop) (X : Multiset (Owner Holder))
    (b : Block) (newlen : ℕ) (s : Heap) (q : ℕ) (s' : Heap) : Prop where
  frame : Frame holderRegion s.mem s'.mem X
  block : (q = 0 ∧ HeapInv o sec AnyBlock L s' (.tenant (.live b) ::ₘ X) ∧
      Same s.mem s'.mem b.region.base b.region.stop) ∨
    ∃ c lost, q = c.ptr ∧ c.len = newlen ∧ Copied s.mem s'.mem b.ptr q (min b.len newlen) ∧
      HeapInv o sec AnyBlock L s' (.tenant (.live c) ::ₘ (lost + X)) ∧ Lost b lost s'

section Realloc

variable {o : MallocOpts} {sec : UInt64} {K : Block → Prop} {L : Prop} {s s' : Heap}
  {X : Multiset (Owner Holder)} {b : Block} {newlen : ℕ} {env : ReallocEnv} {E : Stop → Heap → Prop}

lemma BlockOk.of_user {m m' : Space} (h : BlockOk o sec m b) (hpage : m'.page = m.page)
    (hout : SameOutside m m' b.ptr (b.ptr + b.len)) : BlockOk o sec m' b := by
  refine ⟨h.fits, ?_, ?_, fun hc => ?_⟩
  · rw [accessible_congr_page hpage]
    exact h.rw
  · exact h.header.of_same (hout.same (.inl le_rfl)) le_rfl le_rfl
  · have hs : Same m m' (b.ptr + b.len) (b.ptr + b.len + 8) := hout.same (.inr le_rfl)
    rw [hs.loadLE le_rfl le_rfl]
    exact h.canary hc

lemma HeapInv.userWrite (h : HeapInv o sec K L s (.tenant (.live b) ::ₘ X)) (hs : SameTables s s')
    (hpage : s'.mem.page = s.mem.page) (hnext : s'.mem.next = s.mem.next) {lo hi : ℕ}
    (hout : SameOutside s.mem s'.mem lo hi) (h1 : b.ptr ≤ lo) (h2 : hi ≤ b.ptr + b.len) :
    HeapInv o sec K L s' (.tenant (.live b) ::ₘ X) ∧ Frame holderRegion s.mem s'.mem X := by
  have hb : BlockOk o sec s.mem b := h.owned.ok (mem_cons_self _ _)
  have hin := hb.fits.inside
  have hptr : b.ptr = b.map + 32 := rfl
  refine h.write (.live b) hs hpage hnext (hout.widen ?_ ?_) rfl (hb.of_user hpage (hout.widen h1 h2))
  · show b.base ≤ lo
    omega
  · show hi ≤ b.region.stop
    omega

lemma copied_of_same (hfits : Fits o b) (hs : Same s.mem s'.mem b.region.base b.region.stop) {n : ℕ}
    (hn : n ≤ b.len) : Copied s.mem s'.mem b.ptr b.ptr n := by
  have hin := hfits.inside
  have hptr : b.ptr = b.map + 32 := rfl
  intro i hi
  refine (hs (b.ptr + i) ?_ ?_).2
  · show b.base ≤ _
    omega
  · omega

lemma Copied.trans {m m' m'' : Space} {p q r n : ℕ} (h : Copied m m' p q n)
    (h' : Copied m' m'' q r n) : Copied m m'' p r n :=
  fun i hi => (h' i hi).trans (h i hi)

lemma Released.lost (h : Released o sec L X b s s') :
    ∃ lost, Lost b lost s' ∧ HeapInv o sec AnyBlock L s' (lost + X) := by
  rcases h.2 with ⟨h', _⟩ | ⟨h', hmf⟩
  · exact ⟨0, .inl rfl, by rw [zero_add]; exact h'⟩
  · exact ⟨{.tenant (.freed b)}, .inr ⟨rfl, hmf⟩, by rw [singleton_add]; exact h'⟩

/-- **Allocate, copy, free.** -/
theorem moveChunk_ok (h : HeapInv o sec K L s (.tenant (.live b) ::ₘ X))
    (hE : ∀ e s', L ∨ ¬(AllocOk o newlen env.alloc ∧ FreeOk s.mem s (chunkLen o newlen) b env.free) ∨
      .mapFailed ∈ s'.trace → E e s') :
    (moveChunk env b.ptr b.len b.flags newlen s).Sat (Reallocated o sec L X b newlen s) E := by
  have hptr : ∀ c : Block, c.ptr = c.map + 32 := fun _ => rfl
  rw [moveChunk, sat_bind]
  refine (mallocChunk_ok h.remember fun e s' _ hbad => hE e s' (.inr ?_)).imp ?_
  · exact hbad.imp_left fun hn hall => hn hall.1
  intro p s1 hal
  rcases hal.block with ⟨rfl, h1⟩ | ⟨c, rfl, rfl, h1⟩
  · exact ⟨hal.frame.of_cons, .inl ⟨rfl, h1.forget, hal.frame _ (mem_cons_self _ _)⟩⟩
  -- both blocks are in use
  obtain ⟨hc, -⟩ := h1.live
  have h1' := h1
  rw [cons_swap] at h1'
  have hb := h1'.live.1
  have hinc := hc.fits.inside
  have hinb := hb.fits.inside
  rw [if_neg (by have := hptr c; omega), sat_bind, sat_exec]
  refine ⟨fun hn => absurd b.flags_conceal hn, fun _ => ?_⟩
  have hle : min b.len c.len ≤ b.len ∧ min b.len c.len ≤ c.len := ⟨min_le_left _ _, min_le_right _ _⟩
  generalize hn : min b.len c.len = n at hle ⊢
  rw [sat_bind, memcpy_ok (accessible_sub hb.rw (by have := hptr b; omega) (by have := hptr b; omega))
    (accessible_sub hc.rw (by have := hptr c; omega) (by have := hptr c; omega)), Outcome.sat_ok]
  have hs2 := SameTables.mem s1 (s1.mem.copy c.ptr b.ptr n) (.write c.ptr n :: .read b.ptr n :: s1.trace)
  obtain ⟨h2, hf2⟩ := h1.userWrite hs2 rfl rfl (sameOutside_copy c.ptr b.ptr n) le_rfl (by omega)
  rw [cons_swap] at h2
  rw [sat_bind]
  refine (freeChunk_ok (chunkLen o c.len) h2 fun hno e s' => ?_).imp ?_
  · by_cases hL : L
    · exact hE e s' (.inl hL)
    · refine hE e s' (.inr (.inl fun hall => hno ⟨?_, h2.owned.tables.refsPos hL⟩))
      exact hall.2.of_keeps (hal.keeps.trans (hs2.keeps _))
  intro _ s3 hr
  obtain ⟨lost, hlost, h3⟩ := hr.lost
  rw [add_cons] at h3
  refine ⟨?_, .inr ⟨c, lost, rfl, rfl, ?_, h3, hlost⟩⟩
  · exact (hal.frame.of_cons.trans hf2.of_cons).trans hr.1.of_cons
  · -- the old bytes survive the allocation, and the copy survives the free
    have hold : Copied s.mem s1.mem b.ptr b.ptr n :=
      copied_of_same hb.fits (hal.frame _ (mem_cons_self _ _)) hle.1
    have hcopy : Copied s1.mem (s1.mem.copy c.ptr b.ptr n) b.ptr c.ptr n := fun i hi => by
      rw [copy_byte_in (by omega) (by omega), Nat.add_sub_cancel_left]
    have hnew := copied_of_same hc.fits (hr.1 _ (mem_cons_self _ _)) hle.2
    rw [hn]
    exact (hold.trans hcopy).trans hnew

/-- **The header in front of a guarded mapping cannot be read.** -/
theorem adoptChunk_faults {nb flags : ℕ} (hal : nb % 4096 = 0) (hlow : 4096 ≤ nb) (hhigh : nb < 2 ^ 47)
    (hdark : s.mem.rwPage (nb / 4096) = false) {Q : ℕ → Heap → Prop} (hE : ∀ e s', E e s') :
    (adoptChunk (nb + 4096) newlen flags s).Sat Q E := by
  have hhead : mchunkFromUser (nb + 4096) = nb + 4064 := by
    unfold mchunkFromUser
    rw [wrap_sub (by omega) (by omega)]
    omega
  unfold adoptChunk
  rw [hhead, if_neg (by omega), sat_bind, load_fault]
  · exact hE _ _
  · refine not_accessible_of_dark (x := nb + 4064) ?_ le_rfl (by unfold magicAt; omega)
    rw [show (nb + 4064) / 4096 = nb / 4096 by omega]
    exact hdark

section

variable (h : HeapInv o sec K L s (.tenant (.live b) ::ₘ X))

include h

lemma growGuarded_ok (hg : b.guarded = true) (hL : L) (hfit : newlen ≤ roundPage newlen)
    (hE : ∀ e s', E e s') :
    (growChunk env b.ptr b.map b.len b.flags newlen s).Sat (Reallocated o sec L X b newlen s) E := by
  obtain rfl : L = True := eq_true hL
  have hb := h.live.1
  have hin := hb.fits.inside
  have hguard : s.opts.guard = true := (hb.fits.guarded hg).1
  rw [growChunk, if_pos (b.flags_guard.2 hg)]
  refine (load_block hb.rw (by unfold userLenAt; omega)).bind ?_
  rintro v s1 ⟨_, hm1, ht1⟩
  have h1 := h.of_same ht1.tables hm1
  rw [sat_bind]
  refine (mreguard_loose h1.owned (by rw [ht1.tables.opts]; exact hguard) hfit).mono ?_
    fun e s' _ => hE e s'
  rintro r s2 (⟨nb, rfl, hal, hlow, hhigh, hdark⟩ | ⟨rfl, hown, hf, ho, hq⟩)
  · exact adoptChunk_faults hal hlow hhigh hdark hE
  · rw [hm1] at hf
    have hk := ho.keeps hq 0
    have h2 : HeapInv o sec K True s2 (.tenant (.live b) ::ₘ X) :=
      ⟨ho.opts.trans h1.opts, ho.secret.trans h1.secret, hown, h1.delayed.of_keeps hk⟩
    refine (moveChunk_ok h2 fun e s' _ => hE e s').imp ?_
    intro q s3 hr
    refine ⟨hf.of_cons.trans hr.frame, ?_⟩
    have hsame : Same s.mem s2.mem b.region.base b.region.stop := hf _ (mem_cons_self _ _)
    rcases hr.block with ⟨hq, h3, hs⟩ | ⟨c, lost, hq, hc, hcopy, h3, hlost⟩
    · exact .inl ⟨hq, h3, hsame.trans hs⟩
    · refine .inr ⟨c, lost, hq, hc, ?_, h3, hlost⟩
      exact (copied_of_same hb.fits hsame (min_le_left _ _)).trans hcopy

/-- **`realloc_chunk` on a block in use, for another size.** -/
theorem resizeChunk_ok (hreg : b.guarded = true → Moves o b newlen → L ∧ newlen ≤ roundPage newlen)
    (hE : ∀ e s', L ∨ ¬ResizeOk o s b newlen env ∨ .mapFailed ∈ s'.trace → E e s') :
    (resizeChunk env b.ptr newlen s).Sat (Reallocated o sec L X b newlen s) E := by
  have hb := h.live.1
  have hp := h.live.2
  have hin := hb.fits.inside
  rw [resizeChunk]
  refine (findHeader_ok "realloc" hp (by omega) hb.rw hb.header.magic).bind ?_
  rintro v s1 ⟨rfl, hm1, ht1⟩
  refine (load_block (by rw [hm1]; exact hb.rw) (by unfold userLenAt; omega)).bind ?_
  rintro v s2 ⟨hv, hm2, ht2⟩
  rw [hm1, hb.header.userLen] at hv
  subst hv
  refine (load_block (by rw [hm2, hm1]; exact hb.rw) (by unfold flagsAt; omega)).bind ?_
  rintro v s3 ⟨hv, hm3, ht3⟩
  rw [hm2, hm1, hb.header.flags] at hv
  subst hv
  -- so far only the trace has grown
  have hm : s3.mem = s.mem := (hm3.trans hm2).trans hm1
  have hs : SameTables s s3 := (ht1.tables.trans ht2.tables).trans ht3.tables
  have h3 := (h.of_same hs hm).forget
  have hopts : s3.opts = o := h3.opts
  have hback : ∀ {q s'}, Reallocated o sec L X b newlen s3 q s' →
      Reallocated o sec L X b newlen s q s' := by
    rintro q s' ⟨hframe, hblock⟩
    rw [hm] at hframe hblock
    exact ⟨hframe, hblock⟩
  rw [sat_bind, sat_get, hopts, sat_ite]
  refine ⟨fun hsame => ?_, fun hother => ?_⟩
  · refine hback ⟨.refl _ _, .inr ⟨b, 0, rfl, hsame.1.symm, fun _ _ => rfl, ?_, .inl rfl⟩⟩
    rw [zero_add]
    exact h3
  rw [sat_ite]
  refine ⟨fun hlt => ?_, fun hge => ?_⟩
  · have hb3 := h3.live.1
    refine (shrinkChunk_ok hp hb3 hlt).imp ?_
    rintro q s4 ⟨rfl, ht4, hok, hdata⟩
    rw [hopts, h3.secret] at hok
    obtain ⟨h4, hf4⟩ := h3.touches (.live { b with len := newlen }) ht4 hin.1 hin.2.1 rfl hok
    refine hback ⟨hf4, .inr ⟨{ b with len := newlen }, 0, rfl, rfl, fun i hi => ?_, ?_, .inl rfl⟩⟩
    · have hle := min_le_right b.len newlen
      exact hdata (b.ptr + i) (by omega) (by omega)
    · rw [zero_add]
      exact h4
  · have hmoves : Moves o b newlen := by
      unfold Moves
      rcases lt_or_ge b.len newlen with hlt | hle
      · exact .inl hlt
      · refine .inr ⟨by omega, ?_⟩
        by_contra hno
        rw [Bool.not_eq_true] at hno
        exact hother ⟨by omega, hno⟩
    by_cases hg : b.guarded = true
    · obtain ⟨hL, hfit⟩ := hreg hg hmoves
      exact (growGuarded_ok h3 hg hL hfit fun e s' => hE e s' (.inl hL)).imp fun _ _ => hback
    · rw [growChunk, if_neg (fun hn => hg (b.flags_guard.1 hn))]
      refine (moveChunk_ok h3 fun e s' hbad => hE e s' ?_).imp fun _ _ => hback
      refine hbad.imp_right (.imp_left fun hno hok => hno ?_)
      obtain ⟨_, halloc, hfree⟩ := hok hmoves
      rw [hm]
      exact ⟨halloc, hfree.of_keeps (hs.keeps _)⟩

end

end Realloc

end Musl.Malloc
