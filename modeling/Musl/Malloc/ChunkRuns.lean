import Musl.Malloc.ReallocChunk

/-!
# Runs of a correct program

A program calls `malloc_chunk`, `realloc_chunk` and `free_chunk` and works in its blocks.  It is
**correct** when it gives back only pointers it holds and reads and writes only the bytes it asked for
(`Correct`).  The state of a run is the allocator together with the blocks the program holds.
-/

namespace Musl.Malloc

open Musl.Lib Musl.Lib.Space List Prog Multiset

/-! ### The program -/

/-- A call, with what it gets from outside, or an access of the program to its memory. -/
inductive ChunkOp where
  | malloc (env : MguardEnv) (size flags : ℕ)
  | realloc (env : ReallocEnv) (p newlen flags : ℕ)
  | free (env : FreeEnv) (p : ℕ)
  | read (a n : ℕ)
  | write (a n v : ℕ)

/-- The blocks a program holds: pointer and size of each. -/
abbrev HeldBlocks : Type := List (ℕ × ℕ)

/-- The block at `p` is given back. -/
def HeldBlocks.without (l : HeldBlocks) (p : ℕ) : HeldBlocks := l.eraseP fun b => decide (b.1 = p)

/-- The blocks after `realloc_chunk(p, newlen)` has answered `q`. -/
def HeldBlocks.realloc (l : HeldBlocks) (p newlen q : ℕ) : HeldBlocks :=
  if p = 0 then if q = 0 then l else (q, newlen) :: l
  else if newlen = 0 then l.without p
  else if q = 0 then l
  else (q, newlen) :: l.without p

def chunkStep : ChunkOp → Prog Stop (Heap × HeldBlocks) Unit
  | .malloc env size flags => do
      let p ← Prog.beside (mallocChunk env size flags)
      Prog.modify fun st => (st.1, if p = 0 then st.2 else (p, size) :: st.2)
  | .realloc env p newlen flags => do
      let q ← Prog.beside (reallocChunk env p newlen flags)
      Prog.modify fun st => (st.1, st.2.realloc p newlen q)
  | .free env p => do
      Prog.beside (freeChunk env p)
      Prog.modify fun st => (st.1, st.2.without p)
  | .read a n => do
      let _ ← Prog.beside (load a n)
      pure ()
  | .write a n v => Prog.beside (store a n v)

def HeldBlocks.Gives (l : HeldBlocks) (p : ℕ) : Prop := p = 0 ∨ ∃ n, (p, n) ∈ l

/-- The bytes `[a, a + n)` were asked for. -/
def HeldBlocks.Covers (l : HeldBlocks) (a n : ℕ) : Prop := ∃ b ∈ l, b.1 ≤ a ∧ a + n ≤ b.1 + b.2

/-- **The program is correct.** -/
def Correct (st : Heap × HeldBlocks) : ChunkOp → Prop
  | .malloc _ _ _ => True
  | .realloc _ p _ _ => st.2.Gives p
  | .free _ p => st.2.Gives p
  | .read a n => st.2.Covers a n
  | .write a n _ => st.2.Covers a n

/-- The block at the user pointer `p`, as its header describes it. -/
def blockAt (m : Space) (p : ℕ) : Block where
  base := m.loadLE (baseAt (mchunkFromUser p)) 8
  total := m.loadLE (totalLenAt (mchunkFromUser p)) 8
  len := m.loadLE (userLenAt (mchunkFromUser p)) 8
  guarded := decide (m.loadLE (flagsAt (mchunkFromUser p)) 4 &&& flagGuard ≠ 0)

/-- The condition on `realloc_chunk(p, newlen)`. -/
def ReallocOk (s : Heap) (env : ReallocEnv) (p newlen : ℕ) : Prop :=
  if p = 0 then AllocOk s.opts newlen env.alloc
  else if newlen = 0 then FreeOk s.mem s 0 (blockAt s.mem p) env.free
  else ResizeOk s.opts s (blockAt s.mem p) newlen env

/-- **When a call returns.** -/
def CallOk (st : Heap × HeldBlocks) : ChunkOp → Prop
  | .malloc env size _ => AllocOk st.1.opts size env
  | .realloc env p newlen _ => ReallocOk st.1 env p newlen
  | .free env p => p ≠ 0 → FreeOk st.1.mem st.1 0 (blockAt st.1.mem p) env
  | .read _ _ => True
  | .write _ _ _ => True

/-- A guarded block is not reallocated to a size whose rounding to pages wraps. -/
def Unwrapped (st : Heap × HeldBlocks) : ChunkOp → Prop
  | .realloc _ p newlen _ => (blockAt st.1.mem p).guarded = true → newlen ≤ roundPage newlen
  | _ => True

/-! ### The invariant of a run -/

def Block.held (b : Block) : ℕ × ℕ := (b.ptr, b.len)

def liveOwners (bs : List Block) : Multiset (Owner Holder) :=
  Multiset.ofList (bs.map fun b => .tenant (.live b))

lemma liveOwners_cons (b : Block) (bs : List Block) :
    liveOwners (b :: bs) = .tenant (.live b) ::ₘ liveOwners bs := rfl

/-- **The invariant of a run**: the program holds the blocks `bs`, and the mappings `lost` were lost. -/
def RunInv (o : MallocOpts) (sec : UInt64) (L : Prop) (st : Heap × HeldBlocks) : Prop :=
  ∃ bs lost, st.2 = bs.map Block.held ∧ HeapInv o sec AnyBlock L st.1 (liveOwners bs + lost)

section Invariant

variable {o : MallocOpts} {sec : UInt64} {K : Block → Prop} {L : Prop} {s s' : Heap}
  {X : Multiset (Owner Holder)} {b : Block} {l : HeldBlocks} {p n : ℕ}

/-- The header of a live block describes it. -/
lemma HeapInv.blockAt (h : HeapInv o sec K L s (.tenant (.live b) ::ₘ X)) : blockAt s.mem b.ptr = b := by
  obtain ⟨hb, hp⟩ := h.live
  have hh := hb.header
  unfold Malloc.blockAt
  rw [hp.mchunkFromUser, hh.base, hh.total, hh.userLen, hh.flags]
  have hg : decide (b.flags &&& flagGuard ≠ 0) = b.guarded := by
    by_cases hg : b.guarded = true
    · rw [hg, decide_eq_true_iff]
      exact b.flags_guard.2 hg
    · rw [decide_eq_false (fun hn => hg (b.flags_guard.1 hn))]
      exact (Bool.eq_false_iff.2 hg).symm
  rw [hg]

lemma HeapInv.ptr_ne {c : Block} (h : HeapInv o sec K L s (.tenant (.live b) ::ₘ X))
    (hc : .tenant (.live c) ∈ X) : c.ptr ≠ b.ptr := by
  intro heq
  have hb : BlockOk o sec s.mem b := h.owned.ok (mem_cons_self _ _)
  have hc' : BlockOk o sec s.mem c := h.owned.ok (mem_cons_of_mem hc)
  have ho := h.owned.owned
  rw [owners_cons] at ho
  have hap := ho.apart (mem_owners hc)
  have hinb := hb.fits.inside
  have hinc := hc'.fits.inside
  have hmap : c.map = b.map := by unfold Block.ptr at heq; omega
  have hap' : b.region.stop ≤ c.base ∨ c.region.stop ≤ b.base := hap
  omega

/-- Two live blocks lie apart. -/
lemma HeapInv.apart {c : Block} (h : HeapInv o sec K L s (.tenant (.live b) ::ₘ X))
    (hc : .tenant (.live c) ∈ X) :
    b.ptr + b.len + canaryExtra o + 32 ≤ c.ptr ∨ c.ptr + c.len + canaryExtra o + 32 ≤ b.ptr := by
  have hb : BlockOk o sec s.mem b := h.owned.ok (mem_cons_self _ _)
  have hc' : BlockOk o sec s.mem c := h.owned.ok (mem_cons_of_mem hc)
  have ho := h.owned.owned
  rw [owners_cons] at ho
  have hap : b.region.stop ≤ c.base ∨ c.region.stop ≤ b.base := ho.apart (mem_owners hc)
  have hinb := hb.fits.inside
  have hinc := hc'.fits.inside
  unfold Block.ptr
  omega

lemma HeapInv.aligned (h : HeapInv o sec K L s (.tenant (.live b) ::ₘ X)) : b.ptr % 32 = 0 := by
  have hbase : b.base % 4096 = 0 := (h.owned.whole (mem_cons_self _ _)).aligned
  unfold Block.ptr Block.map
  split <;> omega

lemma liveOwners_middle (pre post : List Block) (b : Block) :
    liveOwners (pre ++ b :: post) = .tenant (.live b) ::ₘ liveOwners (pre ++ post) :=
  coe_eq_coe.2 (perm_middle.map _)

/-- **A block that the program holds** is one of the holders; once it is put back, the program holds
it as before. -/
theorem RunInv.take (h : RunInv o sec L (s, l)) (hmem : (p, n) ∈ l) :
    ∃ b rest lost, b.ptr = p ∧ b.len = n ∧ l.without p = rest.map Block.held ∧
      HeapInv o sec AnyBlock L s (.tenant (.live b) ::ₘ (liveOwners rest + lost)) ∧
      ∀ s' lost', HeapInv o sec AnyBlock L s' (.tenant (.live b) ::ₘ (liveOwners rest + lost')) →
        RunInv o sec L (s', l) := by
  obtain ⟨bs, lost, hl, h⟩ := h
  simp only at hl h
  rw [hl] at hmem
  obtain ⟨c, hc, hheld⟩ := mem_map.1 hmem
  have hcp : c.ptr = p := congrArg Prod.fst hheld
  have hcn : c.len = n := congrArg Prod.snd hheld
  obtain ⟨b, pre, post, _, hbp, hbs, herase⟩ :=
    exists_of_eraseP (p := fun b : Block => decide (b.ptr = p)) hc (decide_eq_true hcp)
  rw [decide_eq_true_iff] at hbp
  have hsplit : ∀ lost, liveOwners bs + lost =
      .tenant (.live b) ::ₘ (liveOwners (pre ++ post) + lost) := by
    intro lost
    rw [hbs, liveOwners_middle, cons_add]
  rw [hsplit] at h
  -- the block found is the one asked for: no other has its pointer
  have hcb : c = b := by
    by_contra hne
    rw [hbs] at hc
    have hc' : c ∈ pre ++ post := by
      rcases mem_append.1 hc with hc | hc
      · exact mem_append_left _ hc
      · rcases mem_cons.1 hc with hc | hc
        · exact absurd hc hne
        · exact mem_append_right _ hc
    refine h.ptr_ne ?_ (hcp.trans hbp.symm)
    exact mem_add.2 (.inl (mem_coe.2 (mem_map_of_mem hc')))
  refine ⟨b, pre ++ post, lost, hbp, hcb ▸ hcn, ?_, h, fun s' lost' h' => ⟨bs, lost', hl, ?_⟩⟩
  · rw [hl, HeldBlocks.without, eraseP_map, ← herase]
    rfl
  · rw [hsplit]
    exact h'

/-- No two blocks overlap, nor do their canaries and headers, and the pointers are aligned. -/
def HeldBlocks.Sound (o : MallocOpts) (l : HeldBlocks) : Prop :=
  (∀ b ∈ l, b.1 % 32 = 0) ∧ l.Pairwise fun b c =>
    b.1 + b.2 + canaryExtra o + 32 ≤ c.1 ∨ c.1 + c.2 + canaryExtra o + 32 ≤ b.1

/-- What the program holds is sound. -/
lemma RunInv.sound (h : RunInv o sec L (s, l)) : l.Sound o := by
  refine ⟨fun c hc => ?_, ?_⟩
  · obtain ⟨b, _, _, hp, _, _, hb, _⟩ := h.take hc
    rw [← hp]
    exact hb.aligned
  obtain ⟨bs, lost, hl, h⟩ := h
  simp only at hl h
  rw [hl, pairwise_map]
  clear hl
  induction bs generalizing lost with
  | nil => exact .nil
  | cons b bs ih =>
    rw [liveOwners_cons, cons_add] at h
    refine pairwise_cons.2 ⟨fun c hc => h.apart (mem_add.2 (.inl (mem_coe.2 (mem_map_of_mem hc)))), ?_⟩
    refine ih (.tenant (.live b) ::ₘ lost) ?_
    rwa [add_cons]

lemma RunInv.join {rest : List Block} {lost : Multiset (Owner Holder)} (hl : l = rest.map Block.held)
    (h : HeapInv o sec AnyBlock L s (.tenant (.live b) ::ₘ (liveOwners rest + lost))) :
    RunInv o sec L (s, (b.ptr, b.len) :: l) := by
  refine ⟨b :: rest, lost, ?_, ?_⟩
  · rw [hl]
    rfl
  · rw [liveOwners_cons, cons_add]
    exact h

lemma RunInv.without_null (h : RunInv o sec L (s, l)) : l.without 0 = l := by
  refine eraseP_of_forall_not fun a ha => ?_
  obtain ⟨b, -, -, hp, _⟩ := h.take ha
  rw [decide_eq_true_iff, ← hp]
  unfold Block.ptr
  omega

end Invariant

/-! ### One call -/

section Step

variable {o : MallocOpts} {sec : UInt64} {L : Prop} {s : Heap} {l : HeldBlocks} {p n : ℕ}
  {E : Stop → Heap → Prop}

variable {flags : ℕ}

variable (h : RunInv o sec L (s, l))

include h

/-- Step: an allocation. -/
lemma RunInv.malloc {env : MguardEnv} {size : ℕ}
    (hE : ∀ e s', ¬AllocOk s.opts size env ∨ .mapFailed ∈ s'.trace → E e s') :
    (mallocChunk env size flags s).Sat (fun p s' =>
      RunInv o sec L (s', if p = 0 then l else (p, size) :: l)) E := by
  obtain ⟨bs, lost, hl, h⟩ := h
  rw [h.opts] at hE
  refine (mallocChunk_ok h fun e s' _ => hE e s').imp ?_
  intro p s' hal
  rcases hal.block with ⟨rfl, h'⟩ | ⟨b, rfl, rfl, h'⟩
  · exact ⟨bs, lost, hl, h'⟩
  · have hlow := h'.live.2.low
    exact RunInv.join hl h'

/-- Step: a free. -/
lemma RunInv.free {env : FreeEnv} (hg : l.Gives p)
    (hE : ∀ e s', L ∨ ¬(p ≠ 0 → FreeOk s.mem s 0 (blockAt s.mem p) env) → E e s') :
    (freeChunk env p s).Sat (fun _ s' => RunInv o sec L (s', l.without p)) E := by
  rcases hg with rfl | ⟨n, hmem⟩
  · rw [freeChunk, h.without_null]
    exact h
  obtain ⟨b, rest, lost, rfl, _, hrest, h, _⟩ := h.take hmem
  rw [h.blockAt] at hE
  refine (freeChunk_ok 0 h.remember fun hno e s' => ?_).imp ?_
  · by_cases hL : L
    · exact hE e s' (.inl hL)
    · refine hE e s' (.inr fun hok => hno ⟨hok ?_, h.owned.tables.refsPos hL⟩)
      unfold Block.ptr
      omega
  · intro _ s' hr
    obtain ⟨lost', _, h'⟩ := hr.lost
    refine ⟨rest, lost + lost', hrest, ?_⟩
    rw [← add_assoc, add_comm _ lost']
    exact h'

/-- Step: a reallocation. -/
lemma RunInv.realloc {env : ReallocEnv} {newlen : ℕ} (hg : l.Gives p)
    (hreg : (L ∧ ((blockAt s.mem p).guarded = true → newlen ≤ roundPage newlen)) ∨
      ReallocOk s env p newlen)
    (hE : ∀ e s', L ∨ ¬ReallocOk s env p newlen ∨ .mapFailed ∈ s'.trace → E e s') :
    (reallocChunk env p newlen flags s).Sat (fun q s' =>
      RunInv o sec L (s', l.realloc p newlen q)) E := by
  unfold ReallocOk at hE hreg
  unfold reallocChunk HeldBlocks.realloc
  by_cases hp : p = 0
  · simp only [if_pos hp] at hE ⊢
    exact h.malloc fun e s' hbad => hE e s' (.inr hbad)
  simp only [if_neg hp] at hE hreg ⊢
  by_cases h0 : newlen = 0
  · simp only [if_pos h0] at hE ⊢
    refine (h.free hg fun e s' hbad => hE e s' ?_).bind fun _ _ hr => hr
    exact hbad.imp_right fun hno => .inl fun hok => hno fun _ => hok
  simp only [if_neg h0] at hE hreg ⊢
  obtain ⟨n, hmem⟩ := hg.resolve_left hp
  obtain ⟨b, rest, lost, rfl, _, hrest, h, hkeep⟩ := h.take hmem
  rw [h.blockAt] at hE hreg
  rw [h.opts] at hE hreg
  refine (resizeChunk_ok h (fun hgd hmv => ?_) hE).imp ?_
  · rcases hreg with ⟨hL, hfit⟩ | hok
    · exact ⟨hL, hfit hgd⟩
    · rw [(hok hmv).1] at hgd
      cases hgd
  · intro q s' hr
    rcases hr.block with ⟨rfl, h', _⟩ | ⟨c, lost', rfl, rfl, _, h', _⟩
    · exact hkeep s' lost h'
    · have hlow := h'.live.2.low
      have hjoin : HeapInv o sec AnyBlock L s'
          (.tenant (.live c) ::ₘ (liveOwners rest + (lost + lost'))) := by
        rw [← add_assoc, add_comm _ lost']
        exact h'
      exact RunInv.join hrest hjoin

/-- Step: an access inside a held block. -/
lemma RunInv.covers {a : ℕ} (hc : l.Covers a n) :
    s.mem.accessible a n = true ∧ ∀ s', SameTables s s' → s'.mem.page = s.mem.page →
      s'.mem.next = s.mem.next → SameOutside s.mem s'.mem a (a + n) → RunInv o sec L (s', l) := by
  obtain ⟨⟨p, len⟩, hmem, h1, h2⟩ := hc
  obtain ⟨b, rest, lost, rfl, rfl, _, h, hkeep⟩ := h.take hmem
  have hb := h.live.1
  have hin := hb.fits.inside
  have hptr : b.ptr = b.map + 32 := rfl
  refine ⟨accessible_sub hb.rw (by omega) (by omega), fun s' hs hpage hnext hout => ?_⟩
  exact hkeep s' lost (h.userWrite hs hpage hnext hout h1 h2).1

end Step

variable {L : Prop} {o : MallocOpts} {sec : UInt64} {st : Heap × HeldBlocks} {m : Space} {b : Block}
    {s : Heap} {n p : ℕ}

/-- **One step of a correct program** keeps the invariant. -/
theorem chunkStep_ok {op : ChunkOp} {E : Stop → Heap × HeldBlocks → Prop} (h : RunInv o sec L st)
    (hc : Correct st op) (hreg : (L ∧ Unwrapped st op) ∨ CallOk st op)
    (hE : ∀ e st', L ∨ ¬CallOk st op ∨ .mapFailed ∈ st'.1.trace → E e st') :
    (chunkStep op st).Sat (fun _ st' => RunInv o sec L st') E := by
  obtain ⟨s, l⟩ := st
  cases op with
  | malloc env size flags =>
    rw [chunkStep, sat_bind, sat_beside]
    exact h.malloc fun e s' hbad => hE e (s', l) (.inr hbad)
  | realloc env p newlen flags =>
    rw [chunkStep, sat_bind, sat_beside]
    exact h.realloc hc hreg fun e s' hbad => hE e (s', l) hbad
  | free env p =>
    rw [chunkStep, sat_bind, sat_beside]
    exact h.free hc fun e s' hbad => hE e (s', l) (hbad.imp_right .inl)
  | read a n =>
    obtain ⟨hacc, hkeep⟩ := h.covers hc
    rw [chunkStep, sat_bind, sat_beside, load_ok hacc]
    exact hkeep _ (.mem _ _ _) rfl rfl (SameOutside.refl _ _ _)
  | write a n v =>
    obtain ⟨hacc, hkeep⟩ := h.covers hc
    rw [chunkStep, sat_beside, store_ok hacc]
    exact hkeep _ (.mem _ _ _) rfl rfl (sameOutside_storeLE a n v)

/-- A process starts with the invariant. -/
lemma runInv_start (o : MallocOpts) (sec : UInt64) (L : Prop) (hm : m.TagsUsed) :
    RunInv o sec L (Heap.start o sec m, []) := by
  refine ⟨[], 0, rfl, rfl, rfl, heapOwned_start o sec hm, ?_, ?_, ?_⟩
  · intro _ _ d hd
    cases hd
  · intro d hd
    cases hd
  · intro q hq
    cases hq

/-! ### Whole runs -/

/-- **A correct program is not stopped.**  In every run of a correct program whose calls meet the
condition, under every option setting, no call crashes or faults unless `mmap` has failed, and the
bytes the program asked for stay accessible. -/
theorem correct_run_returns (o : MallocOpts) (sec : UInt64) (m : Space) (hm : m.TagsUsed)
    (ops : List ChunkOp)
    (hops : RunMeets chunkStep (fun st op => Correct st op ∧ CallOk st op) (Heap.start o sec m, [])
      ops) :
    (runList chunkStep ops (Heap.start o sec m, [])).Sat
      (fun _ st => ∀ b ∈ st.2, st.1.mem.accessible b.1 b.2 = true)
      (fun _ st => .mapFailed ∈ st.1.trace) := by
  refine (runList_sat (fun st op h hC => ?_) ops _
    (runInv_start o sec False hm) hops).imp fun _ st h b hb => ?_
  · refine chunkStep_ok h hC.1 (.inr hC.2) fun e st' hbad => ?_
    rcases hbad with hf | hno | hmf
    · exact hf.elim
    · exact absurd hC.2 hno
    · exact hmf
  · exact (h.covers ⟨b, hb, le_rfl, le_rfl⟩).1

lemma FreeOk.quiet {m0 : Space} {avoid : ℕ} {env : FreeEnv} (hu : s.opts.freeunmap = false)
    (hfull : env.reg.fullDraw ≠ 0) (hdraw : env.reg.draw ≠ 0) : FreeOk m0 s avoid b env := by
  have hno : ¬s.opts.freeunmap = true := by rw [hu]; decide
  refine ⟨fun _ _ => ⟨fun _ hd => absurd hd hfull, fun _ => ⟨fun h => hno h.2.1, fun hd => ?_⟩⟩, ?_⟩
  · exact absurd hd hdraw
  · exact fun h => hno h.2.1

/-- Ten bytes from a fresh page at `a`. -/
def tenBytesAt (a : ℕ) : ChunkOp := .malloc ⟨some a, true, true, none⟩ 10 0

/-- A free that draws `draw` after its registration and reads the clock `tick` seconds later. -/
def freeAt (draw : Fin 16) (tick p : ℕ) : ChunkOp := .free ⟨⟨1, 0, 0, draw, tick⟩, none, 0⟩ p

/-- A block is allocated, written to and freed, with the default options. -/
theorem correct_run_returns_ten :
    let r := runList chunkStep [tenBytesAt 65536, .write 65568 8 5, freeAt 1 0 65568]
      (Heap.start .initial 7 Space.empty, [])
    r.isOk = true ∧ r.Sat (fun _ st => ∀ b ∈ st.2, st.1.mem.accessible b.1 b.2 = true)
      (fun _ st => .mapFailed ∈ st.1.trace) := by
  refine ⟨by decide +kernel, correct_run_returns .initial 7 .empty Space.empty_tagsUsed _ ?_⟩
  have hplain : AllocOk .initial 10 ⟨some 65536, true, true, none⟩ :=
    ⟨fun h => absurd h (by decide), fun h => absurd h (by decide)⟩
  refine ⟨⟨trivial, hplain⟩, fun st hst => ⟨⟨?_, trivial⟩, fun st' hst' => ⟨⟨?_, ?_⟩, ?_⟩⟩⟩
  · have hl : st.2 = [(65568, 10)] := by
      rw [show st = _ from (congrArg Outcome.state hst).symm]
      decide +kernel
    exact ⟨(65568, 10), by rw [hl]; exact mem_cons_self, by decide, by decide⟩
  · have hl : st'.2 = [(65568, 10)] := by
      rw [show st' = _ from (congrArg Outcome.state hst').symm,
        show st = _ from (congrArg Outcome.state hst).symm]
      decide +kernel
    exact .inr ⟨10, by rw [hl]; exact mem_cons_self⟩
  · have ho : st'.1.opts.freeunmap = false := by
      rw [show st' = _ from (congrArg Outcome.state hst').symm,
        show st = _ from (congrArg Outcome.state hst).symm]
      decide +kernel
    exact fun _ => FreeOk.quiet ho (by decide) (by decide)
  · exact fun _ _ => trivial

/-- With the default options, two blocks are allocated and freed.  The second free draws a check, two
seconds after the first chunk was registered, and reads the page that the first free has unmapped. -/
theorem correct_run_faults :
    let ops := [tenBytesAt 65536, freeAt 1 0 65568, tenBytesAt 131072, freeAt 0 2 131104]
    let r := runList chunkStep ops (Heap.start .initial 7 Space.empty, [])
    RunMeets chunkStep Correct (Heap.start .initial 7 Space.empty, []) ops ∧
      r.reason = some (.fault 65568) ∧ .mapFailed ∉ r.state.1.trace := by
  refine ⟨⟨trivial, fun st hst => ⟨.inr ⟨10, ?_⟩, fun st' hst' => ⟨trivial, fun st'' hst'' =>
    ⟨.inr ⟨10, ?_⟩, fun _ _ => trivial⟩⟩⟩⟩, by decide +kernel, by decide +kernel⟩
  · rw [show st = _ from (congrArg Outcome.state hst).symm]
    decide +kernel
  · rw [show st'' = _ from (congrArg Outcome.state hst'').symm,
      show st' = _ from (congrArg Outcome.state hst').symm,
      show st = _ from (congrArg Outcome.state hst).symm]
    decide +kernel

/-! ### What a reallocation keeps -/

/-- The block at `q` after `realloc_chunk(p, newlen)`, where `p` had `n` bytes: the bytes are those of
the old block, they and the canary are accessible, the header describes the mapping that holds the
block, and a free of the block that meets its condition returns and hands the whole mapping back (or
loses it because there is no page for the quarantine node). -/
structure ReallocKept (s : Heap) (p n newlen q : ℕ) (s' : Heap) : Prop where
  data : Copied s.mem s'.mem p q (min n newlen)
  rw : s'.mem.accessible q (newlen + canaryExtra s'.opts) = true
  magic : s'.mem.loadLE (magicAt (mchunkFromUser q)) 4 = mchunkMagic
  userLen : (blockAt s'.mem q).len = newlen
  whole : Whole s'.mem (blockAt s'.mem q).region
  inside : (blockAt s'.mem q).base ≤ mchunkFromUser q ∧
    q + newlen + canaryExtra s'.opts ≤ (blockAt s'.mem q).base + (blockAt s'.mem q).total
  freed : ∀ env, FreeOk s'.mem s' 0 (blockAt s'.mem q) env → RefsPos s' →
    (freeChunk env q s').Sat
      (fun _ s'' => HandedBack (blockAt s'.mem q) s'' ∨ .mapFailed ∈ s''.trace) (fun _ _ => False)

/-- A live block with the bytes of the old one is all that is asked for. -/
lemma reallocKept_of_live {s' : Heap} {X : Multiset (Owner Holder)}
    (h : HeapInv o sec AnyBlock L s' (.tenant (.live b) ::ₘ X))
    (hcopy : Copied s.mem s'.mem p b.ptr (min n b.len)) :
    ReallocKept s p n b.len b.ptr s' := by
  obtain ⟨hb, hp⟩ := h.live
  have hin := hb.fits.inside
  have hptr : b.ptr = b.map + 32 := rfl
  have hat := h.blockAt
  have hend : b.map + b.room ≤ b.base + b.total := by
    have hroom := hb.fits.room
    unfold Block.map Block.room at *
    split at hroom
    · rw [if_pos ‹_›, if_pos ‹_›]
      omega
    · rw [if_neg ‹_›, if_neg ‹_›]
  refine ⟨hcopy, accessible_sub hb.rw (by omega) (by omega), ?_, by rw [hat], ?_, ?_, ?_⟩
  · rw [hp.mchunkFromUser]
    exact hb.header.magic
  · rw [hat]
    exact h.owned.whole (mem_cons_self _ _)
  · rw [hat, hp.mchunkFromUser]
    exact ⟨hin.1, by omega⟩
  · intro env hok hrefs
    rw [hat] at hok ⊢
    refine (freeChunk_ok 0 h.remember fun hno => absurd ⟨hok, hrefs⟩ hno).imp fun _ s'' hr => ?_
    rcases hr.2 with ⟨_, hback⟩ | ⟨_, hmf⟩
    · exact .inl hback
    · exact .inr hmf

lemma RunInv.reallocated {env : ReallocEnv} {newlen flags : ℕ} (h : RunInv o sec True st)
    (hmem : (p, n) ∈ st.2) (hpos : 0 < newlen) (hfit : Unwrapped st (.realloc env p newlen flags)) :
    (reallocChunk env p newlen flags st.1).Sat
      (fun q s' => q ≠ 0 → ∃ c X,
        q = c.ptr ∧ newlen = c.len ∧ Copied st.1.mem s'.mem p c.ptr (min n newlen) ∧
        HeapInv o sec AnyBlock True s' (.tenant (.live c) ::ₘ X)) (fun _ _ => True) := by
  obtain ⟨s, l⟩ := st
  obtain ⟨b, rest, lost, rfl, rfl, _, h, _⟩ := h.take hmem
  have hlow := h.live.2.low
  have hfit' : b.guarded = true → newlen ≤ roundPage newlen := by
    have hfit' : (blockAt s.mem b.ptr).guarded = true → newlen ≤ roundPage newlen := hfit
    rw [h.blockAt] at hfit'
    exact hfit'
  unfold reallocChunk
  rw [if_neg (by unfold Block.ptr; omega), if_neg (by omega)]
  refine (resizeChunk_ok h (fun hg _ => ⟨trivial, hfit' hg⟩) fun _ _ _ => trivial).imp ?_
  intro q s' hr hq
  rcases hr.block with ⟨hq0, _⟩ | ⟨c, lost', rfl, hlen, hcopy, h', _⟩
  · exact absurd hq0 hq
  · exact ⟨c, _, rfl, hlen.symm, hcopy, h'⟩

/-- Every state of an unwrapped run has the invariant. -/
lemma runInv_reached (o : MallocOpts) (sec : UInt64) (hm : m.TagsUsed) {ops : List ChunkOp}
    (hops : RunMeets chunkStep (fun st op => Correct st op ∧
      Unwrapped st op) (Heap.start o sec m, []) ops) :
    (runList chunkStep ops (Heap.start o sec m, [])).Sat (fun _ st => RunInv o sec True st)
    (fun _ _ => True) :=
  runList_sat (fun _ _ h hC => chunkStep_ok h hC.1 (.inl ⟨trivial, hC.2⟩) fun _ _ _ => trivial) ops _
    (runInv_start o sec True hm) hops

/-- **A reallocation keeps the data and a block that can be freed**, under every option setting and
whatever the kernel answers, in every state that a correct program reaches without reallocating a
guarded block to a size whose rounding wraps. -/
theorem realloc_keeps (o : MallocOpts) (sec : UInt64) (m : Space) (hm : m.TagsUsed)
    (ops : List ChunkOp)
    (hops : RunMeets chunkStep (fun st op => Correct st op ∧ Unwrapped st op)
      (Heap.start o sec m, []) ops) :
    (runList chunkStep ops (Heap.start o sec m, [])).Sat
      (fun _ st => ∀ (env : ReallocEnv) (p n newlen flags : ℕ), (p, n) ∈ st.2 → 0 < newlen →
        Unwrapped st (.realloc env p newlen flags) →
        (reallocChunk env p newlen flags st.1).Sat
          (fun q s' => q ≠ 0 → ReallocKept st.1 p n newlen q s') (fun _ _ => True))
      (fun _ _ => True) := by
  refine (runInv_reached o sec hm hops).imp ?_
  intro _ st h env p n newlen flags hmem hpos hfit
  refine (h.reallocated hmem hpos hfit).imp ?_
  intro q s' hr hq
  obtain ⟨c, X, rfl, rfl, hcopy, h'⟩ := hr hq
  exact reallocKept_of_live h' hcopy

/-- A reallocation for which `mmap` answers `a`. -/
def moveTo (a : ℕ) : ReallocEnv :=
  ⟨⟨some a, true, true, none⟩, ⟨none, ⟨none, true, true, none⟩⟩, ⟨⟨1, 0, 0, 1, 0⟩, none, 0⟩⟩

/-- Ten bytes are reallocated to twenty, which moves them, and the new block is freed. -/
theorem realloc_keeps_ten :
    let r := runList chunkStep [tenBytesAt 65536] (Heap.start .initial 7 Space.empty, [])
    let c := reallocChunk (moveTo 131072) 65568 20 0 r.state.1
    r.isOk = true ∧ c.value = some 131104 ∧ ReallocKept r.state.1 65568 10 20 131104 c.state ∧
      (freeChunk ⟨⟨1, 0, 0, 1, 0⟩, none, 0⟩ 131104 c.state).isOk = true := by
  have hkept := (realloc_keeps .initial 7 Space.empty Space.empty_tagsUsed [tenBytesAt 65536]
    ⟨⟨trivial, trivial⟩, fun _ _ => trivial⟩).of_value (a := ()) (by decide +kernel)
  have hsat := hkept (moveTo 131072) 65568 10 20 0 (by decide +kernel) (by decide) fun _ => by decide
  exact ⟨by decide +kernel, by decide +kernel,
    hsat.of_value (by decide +kernel) (by decide), by decide +kernel⟩

/-- Options `G` and `U` on top of the defaults. -/
def guardUnmapOpts : MallocOpts := { MallocOpts.initial with guard := true, freeunmap := true }

/-- With options `G` and `U`, a guarded block of 5000 bytes is shrunk in place to 4500 bytes.  A free of
the block protects its first page and then reads the header that is on it. -/
theorem realloc_free_faults :
    let ops : List ChunkOp := [.malloc ⟨some 65536, true, true, some 1048576⟩ 5000 0,
      .realloc ⟨⟨none, true, true, none⟩, ⟨none, ⟨none, true, true, none⟩⟩,
        ⟨⟨1, 0, 0, 1, 0⟩, none, 0⟩⟩ 69664 4500 0]
    let r := runList chunkStep ops (Heap.start guardUnmapOpts 7 Space.empty, [])
    RunMeets chunkStep Correct (Heap.start guardUnmapOpts 7 Space.empty, []) ops ∧
      r.isOk = true ∧ r.state.2 = [(69664, 4500)] ∧
      (freeChunk ⟨⟨1, 0, 0, 1, 0⟩, none, 0⟩ 69664 r.state.1).reason = some (.fault 69656) := by
  refine ⟨⟨trivial, fun st hst => ⟨.inr ⟨5000, ?_⟩, fun _ _ => trivial⟩⟩, by decide +kernel,
    by decide +kernel, by decide +kernel⟩
  rw [show st = _ from (congrArg Outcome.state hst).symm]
  decide +kernel

/-! ### What the program holds -/

/-- **The blocks of a correct program never overlap**: in every state that it reaches, under every
option setting and whatever the kernel answers, each block lies behind the canary of the other, with
room for its header. -/
theorem held_blocks_apart (o : MallocOpts) (sec : UInt64) (m : Space) (hm : m.TagsUsed)
    (ops : List ChunkOp)
    (hops : RunMeets chunkStep (fun st op => Correct st op ∧
      Unwrapped st op) (Heap.start o sec m, []) ops) :
    (runList chunkStep ops (Heap.start o sec m, [])).Sat (fun _ st => st.2.Sound o) (fun _ _ => True) :=
  (runInv_reached o sec hm hops).imp fun _ _ h => h.sound

/-- Two blocks are allocated. -/
theorem held_blocks_apart_two :
    let r := runList chunkStep [tenBytesAt 65536, tenBytesAt 131072]
      (Heap.start .initial 7 Space.empty, [])
    r.isOk = true ∧ r.Sat (fun _ st => st.2.Sound .initial) (fun _ _ => True) :=
  ⟨by decide +kernel, held_blocks_apart .initial 7 Space.empty Space.empty_tagsUsed _
    ⟨⟨trivial, trivial⟩, fun _ _ => ⟨⟨trivial, trivial⟩, fun _ _ => trivial⟩⟩⟩

/-- The program leaves the block of `n` bytes at `p` alone. -/
def Spares (p n : ℕ) : ChunkOp → Prop
  | .realloc _ q _ _ | .free _ q => q ≠ p
  | .write a k _ => a + k ≤ p ∨ p + n ≤ a
  | _ => True

/-- The block is held, and has the bytes that it has in `m`. -/
def Intact (m : Space) (p n : ℕ) (st : Heap × HeldBlocks) : Prop :=
  (p, n) ∈ st.2 ∧ ∀ x, p ≤ x → x < p + n → st.1.mem.byte x = m.byte x

/-- A block keeps its bytes as long as a correct program leaves it alone. -/
def KeepsBytes (st : Heap × HeldBlocks) : Prop :=
  ∀ p n ops, (p, n) ∈ st.2 →
    RunMeets chunkStep (fun st op => (Correct st op ∧ Unwrapped st op) ∧ Spares p n op) st ops →
    (runList chunkStep ops st).Sat (fun _ st' => Intact st.1.mem p n st') (fun _ _ => True)

/-- What leaves the mappings of others alone leaves their bytes alone. -/
lemma HeapInv.held_bytes {bs : List Block} {lost Y : Multiset (Owner Holder)} {m' : Space}
    (h : HeapInv o sec AnyBlock L s Y) (hsub : liveOwners bs + lost ⊆ Y)
    (hf : Frame holderRegion s.mem m' (liveOwners bs + lost)) (hmem : (p, n) ∈ bs.map Block.held) :
    ∀ x, p ≤ x → x < p + n → m'.byte x = s.mem.byte x := by
  obtain ⟨b, hb, hheld⟩ := mem_map.1 hmem
  obtain ⟨rfl, rfl⟩ := Prod.mk.inj hheld
  have hw : .tenant (.live b) ∈ liveOwners bs + lost := mem_add.2 (.inl (mem_coe.2 (mem_map_of_mem hb)))
  have hok : BlockOk o sec s.mem b := h.owned.ok (hsub hw)
  have hin := hok.fits.inside
  intro x hle hlt
  unfold Block.ptr at hle hlt
  have hsame : Same s.mem m' b.base b.region.stop := hf _ hw
  exact (hsame x (by omega) (by omega)).2

section Intact

variable {l : HeldBlocks} {q : ℕ} (h : RunInv o sec True (s, l)) (hi : (p, n) ∈ l)
include h hi

lemma RunInv.malloc_intact (env : MguardEnv) (size flags : ℕ) : (mallocChunk env size flags s).Sat
    (fun q s' => Intact s.mem p n (s', if q = 0 then l else (q, size) :: l)) (fun _ _ => True) := by
  obtain ⟨bs, lost, hl, h⟩ := h
  simp only at hl h
  subst hl
  refine (mallocChunk_ok h fun _ _ _ _ => trivial).imp fun q s' hal => ⟨?_,
    h.held_bytes (Subset.refl _) hal.frame hi⟩
  dsimp only
  split
  · exact hi
  · exact mem_cons_of_mem _ hi

lemma RunInv.free_intact (env : FreeEnv) (hg : l.Gives q) (hne : q ≠ p) :
    (freeChunk env q s).Sat (fun _ s' => Intact s.mem p n (s', l.without q)) (fun _ _ => True) := by
  rcases hg with rfl | ⟨k, hmem⟩
  · rw [freeChunk, h.without_null]
    exact ⟨hi, fun _ _ _ => rfl⟩
  have hi' : (p, n) ∈ l.without q := (mem_eraseP_of_neg (by simpa using hne.symm)).2 hi
  obtain ⟨b, rest, lost, rfl, _, hrest, h, _⟩ := h.take hmem
  rw [hrest] at hi' ⊢
  exact (freeChunk_ok 0 h.remember fun _ _ _ => trivial).imp fun _ s' hr =>
    ⟨hi', h.held_bytes (subset_cons _ _) hr.1 hi'⟩

lemma RunInv.realloc_intact (env : ReallocEnv) {newlen flags : ℕ} (hg : l.Gives q) (hne : q ≠ p)
    (hfit : Unwrapped (s, l) (.realloc env q newlen flags)) : (reallocChunk env q newlen flags s).Sat
      (fun r s' => Intact s.mem p n (s', l.realloc q newlen r)) (fun _ _ => True) := by
  unfold reallocChunk HeldBlocks.realloc
  by_cases hq : q = 0
  · simp only [if_pos hq]
    exact h.malloc_intact hi _ _ _
  simp only [if_neg hq]
  by_cases h0 : newlen = 0
  · simp only [if_pos h0]
    exact (h.free_intact hi _ hg hne).bind fun _ _ hr => hr
  simp only [if_neg h0]
  obtain ⟨k, hmem⟩ := hg.resolve_left hq
  have hi' : (p, n) ∈ l.without q := (mem_eraseP_of_neg (by simpa using hne.symm)).2 hi
  obtain ⟨b, rest, lost, rfl, _, hrest, h, _⟩ := h.take hmem
  change (blockAt s.mem b.ptr).guarded = true → _ at hfit
  rw [h.blockAt] at hfit
  rw [hrest] at hi' ⊢
  refine (resizeChunk_ok h (fun hg _ => ⟨trivial, hfit hg⟩) fun _ _ _ => trivial).imp fun r s' hr =>
    ⟨?_, h.held_bytes (subset_cons _ _) hr.frame hi'⟩
  dsimp only
  split
  · exact hi
  · exact mem_cons_of_mem _ hi'

end Intact

/-- **One step of a correct program** keeps the bytes of a block that it leaves alone. -/
theorem chunkStep_intact {op : ChunkOp} (h : RunInv o sec True st) (hi : (p, n) ∈ st.2)
    (hc : Correct st op) (hfit : Unwrapped st op) (hs : Spares p n op) :
    (chunkStep op st).Sat (fun _ st' => Intact st.1.mem p n st') (fun _ _ => True) := by
  obtain ⟨s, l⟩ := st
  cases op with
  | malloc env size flags =>
    rw [chunkStep, sat_bind, sat_beside]
    exact h.malloc_intact hi env size flags
  | realloc env q newlen flags =>
    rw [chunkStep, sat_bind, sat_beside]
    exact h.realloc_intact hi env hc hs hfit
  | free env q =>
    rw [chunkStep, sat_bind, sat_beside]
    exact h.free_intact hi env hc hs
  | read a k =>
    rw [chunkStep, sat_bind, sat_beside, load_ok (h.covers hc).1]
    exact ⟨hi, fun _ _ _ => rfl⟩
  | write a k v =>
    rw [chunkStep, sat_beside, store_ok (h.covers hc).1]
    refine ⟨hi, fun x hle hlt => (sameOutside_storeLE a k v x ?_).2⟩
    change a + k ≤ p ∨ p + n ≤ a at hs
    omega

/-- **No call changes the bytes of another block**, in any state that a correct program reaches,
under every option setting and whatever the kernel answers. -/
theorem held_blocks_keep_bytes (o : MallocOpts) (sec : UInt64) (m : Space) (hm : m.TagsUsed)
    (ops : List ChunkOp)
    (hops : RunMeets chunkStep (fun st op => Correct st op ∧
      Unwrapped st op) (Heap.start o sec m, []) ops) :
    (runList chunkStep ops (Heap.start o sec m, [])).Sat (fun _ st => KeepsBytes st)
    (fun _ _ => True) := by
  refine (runInv_reached o sec hm hops).imp fun _ st₀ h₀ p n ops' hi₀ hops' => ?_
  refine (runList_sat (I := fun st => RunInv o sec True st ∧ Intact st₀.1.mem p n st) ?_ ops' st₀
    ⟨h₀, hi₀, fun _ _ _ => rfl⟩ hops').imp fun _ _ h => h.2
  rintro st op ⟨h, hi, hbytes⟩ ⟨hC, hs⟩
  have hkeep : (chunkStep op st).Sat (fun _ st' => Intact st₀.1.mem p n st') (fun _ _ => True) :=
    (chunkStep_intact h hi hC.1 hC.2 hs).imp fun _ _ hi' =>
      ⟨hi'.1, fun x hle hlt => (hi'.2 x hle hlt).trans (hbytes x hle hlt)⟩
  exact (chunkStep_ok h hC.1 (.inl ⟨trivial, hC.2⟩) fun _ _ _ => trivial).and hkeep

/-- Two blocks are allocated, and the second one is reallocated and freed while the first one is
left alone. -/
theorem held_blocks_keep_bytes_ten :
    let r := runList chunkStep [tenBytesAt 65536, .write 65568 8 5, tenBytesAt 131072]
      (Heap.start .initial 7 Space.empty, [])
    let r' := runList chunkStep [.realloc (moveTo 196608) 131104 20 0, freeAt 1 0 196640] r.state
    r.isOk = true ∧ r'.isOk = true ∧ r'.state.2 = [(65568, 10)] ∧
      Intact r.state.1.mem 65568 10 r'.state := by
  refine ⟨by decide +kernel, by decide +kernel, by decide +kernel, ?_⟩
  have hkeep := (held_blocks_keep_bytes .initial 7 Space.empty Space.empty_tagsUsed
    [tenBytesAt 65536, .write 65568 8 5, tenBytesAt 131072] ⟨⟨trivial, trivial⟩, fun st hst =>
      ⟨⟨⟨(65568, 10), by
        rw [show st = _ from (congrArg Outcome.state hst).symm]
        decide +kernel, by
          decide, by
            decide⟩, trivial⟩, fun _ _ => ⟨⟨trivial, trivial⟩, fun _ _ => trivial⟩⟩⟩).of_value
    (a := ()) (by decide +kernel)
  refine (hkeep 65568 10 [.realloc (moveTo 196608) 131104 20 0, freeAt 1 0 196640]
    (by decide +kernel) ?_).of_value
    (a := ()) (by decide +kernel)
  refine ⟨⟨⟨.inr ⟨10, by decide +kernel⟩, fun _ => by decide⟩, show 131104 ≠ 65568 by decide⟩,
    fun st hst =>
    ⟨⟨⟨.inr ⟨20, ?_⟩, trivial⟩, show 196640 ≠ 65568 by decide⟩, fun _ _ => trivial⟩⟩
  rw [show st = _ from (congrArg Outcome.state hst).symm]
  decide +kernel

end Musl.Malloc
