import Musl.Malloc.Blocks

/-!
# What the delayed checks look at

`check_delayed_chunks` inspects every chunk that is due.  An inspection passes when the chunk is
**clean**: its bytes are accessible, the free pattern covers the bytes that `fill_junk` reaches, and
the samples stay inside those bytes, which at junk level 1 means fewer than two pages.

A stop is excused (`hE`) only where a chunk that is due is not clean.
-/

namespace Musl.Malloc

open Musl.Lib Musl.Lib.Space List Prog Nat

def OnlyTrace (s s' : Heap) : Prop := ∃ tr, s' = { s with trace := tr }

lemma OnlyTrace.refl (s : Heap) : OnlyTrace s s := ⟨s.trace, rfl⟩

variable {s s' : Heap} {d : DelayedChunk} {now : ℕ} {l : List DelayedChunk}

lemma OnlyTrace.trans {s'' : Heap} (h : OnlyTrace s s') (h' : OnlyTrace s' s'') : OnlyTrace s s'' := by
  obtain ⟨_, rfl⟩ := h
  obtain ⟨tr, rfl⟩ := h'
  exact ⟨tr, rfl⟩

lemma OnlyTrace.mem (h : OnlyTrace s s') : s'.mem = s.mem := by
  obtain ⟨_, rfl⟩ := h
  rfl

lemma OnlyTrace.tables (h : OnlyTrace s s') : SameTables s s' := by
  obtain ⟨tr, rfl⟩ := h
  exact .mem s s.mem tr

/-! ### One inspection -/

/-- The chunk holds what `free_chunk` left in it, and the samples of the check look at nothing
else. -/
structure Clean (o : MallocOpts) (m : Space) (d : DelayedChunk) : Prop where
  rw : m.accessible d.addr d.len = true
  high : d.addr + d.len ≤ 2 ^ 47
  junk : ∀ x, d.addr ≤ x → x < d.addr + junkSpan o d.len → m.byte x = junkFree
  level : 0 < o.junklev
  covered : o.junklev = 2 ∨ d.len < 8192

section Inspection

variable {s : Heap} {E : Stop → Heap → Prop}

lemma scanJunk_ok : ∀ (n a : ℕ) (s : Heap), (¬s.mem.accessible a n = true → ∀ e s', E e s') →
    (scanJunk a n s).Sat (fun bad s' => OnlyTrace s s' ∧
      (bad = true → ∃ x, a ≤ x ∧ x < a + n ∧ s.mem.byte x ≠ junkFree)) E := by
  intro n
  induction n with
  | zero =>
    intro a s _
    exact ⟨OnlyTrace.refl s, fun h => absurd h Bool.false_ne_true⟩
  | succ n ih =>
    intro a s hE
    rw [scanJunk, sat_bind]
    by_cases hacc : s.mem.accessible a 1 = true
    · rw [load_ok hacc, Outcome.sat_ok, sat_ite]
      refine ⟨fun hne => ⟨⟨_, rfl⟩, fun _ => ⟨a, le_rfl, by omega, fun heq => hne ?_⟩⟩, fun _ => ?_⟩
      · rw [Space.loadLE, heq]
        rfl
      · refine (ih (a + 1) (s.log (.read a 1)) fun hn => hE fun hall => hn ?_).imp ?_
        · exact accessible_sub hall (by omega) (by omega)
        · rintro bad s' ⟨ht, hbad⟩
          refine ⟨OnlyTrace.trans ⟨_, rfl⟩ ht, fun hb => ?_⟩
          obtain ⟨x, h1, h2, hx⟩ := hbad hb
          exact ⟨x, by omega, by omega, hx⟩
    · rw [load_fault hacc]
      exact hE (fun hall => hacc (accessible_sub hall le_rfl (by omega))) _ _

lemma scanSamples_ok (base total : ℕ) : ∀ (offs : List ℕ) (s : Heap),
    (¬(∀ off ∈ offs, s.mem.accessible (segAddr base off) (segLen base total off) = true) → ∀ e s',
      E e s') →
    (scanSamples base total offs s).Sat (fun bad s' => OnlyTrace s s' ∧
      (bad = true → ∃ off ∈ offs, ∃ x, segAddr base off ≤ x ∧
        x < segAddr base off + segLen base total off ∧ s.mem.byte x ≠ junkFree)) E := by
  intro offs
  induction offs with
  | nil =>
    intro s _
    exact ⟨OnlyTrace.refl s, fun h => absurd h Bool.false_ne_true⟩
  | cons off offs ih =>
    intro s hE
    rw [scanSamples, sat_bind]
    have hscan := scanJunk_ok (segLen base total off) (segAddr base off) s
      fun hn => hE fun hall => hn (hall off mem_cons_self)
    refine hscan.imp ?_
    rintro bad s1 ⟨ht1, hbad⟩
    rw [sat_ite]
    refine ⟨fun hb => ⟨ht1, fun _ => ?_⟩, fun _ => ?_⟩
    · exact ⟨off, mem_cons_self, hbad hb⟩
    · refine (ih s1 fun hn => hE fun hall => hn fun o ho => ?_).imp ?_
      · rw [ht1.mem]
        exact hall o (mem_cons_of_mem off ho)
      · rintro bad s2 ⟨ht2, hbad2⟩
        refine ⟨ht1.trans ht2, fun hb => ?_⟩
        obtain ⟨o, ho, x, h1, h2, hx⟩ := hbad2 hb
        rw [ht1.mem] at hx
        exact ⟨o, mem_cons_of_mem off ho, x, h1, h2, hx⟩

variable {off total : ℕ} {d : DelayedChunk} {o : MallocOpts}

lemma sampleOffsets_le (hoff : off ∈ sampleOffsets total) (h : 4096 < total) : off < total := by
  unfold sampleOffsets at hoff
  simp only [mem_append, mem_singleton] at hoff
  rcases hoff with (hoff | hoff) | hoff
  · omega
  · split at hoff
    · rw [mem_singleton] at hoff
      omega
    · cases hoff
  · split at hoff
    · rw [mem_singleton] at hoff
      omega
    · cases hoff

lemma sampleOffsets_short (h1 : 4096 < total) (h2 : total < 8192) : sampleOffsets total = [0] := by
  have ht : (total - 4096) / 4096 = 0 := div_eq_of_lt (by omega)
  have hm : total / 2 / 4096 = 0 := div_eq_of_lt (by omega)
  unfold sampleOffsets
  simp only [ht, hm]
  rfl

lemma seg_eq {base : ℕ} (hhigh : base + total ≤ 2 ^ 47) (hoff : off < total) :
    segAddr base off = base + off ∧ segLen base total off = min 4096 (total - off) := by
  have h1 : segAddr base off = base + off := wrap_of_lt (by omega)
  refine ⟨h1, ?_⟩
  unfold segLen
  rw [h1, wrap_of_lt (by omega), wrap_of_lt (by omega),
    wrap_sub (by omega) (by omega)]
  split <;> omega

lemma Clean.sample {m : Space} (h : Clean o m d) (hbig : 4096 < d.len)
    (hoff : off ∈ sampleOffsets d.len) :
    segAddr d.addr off = d.addr + off ∧ off + segLen d.addr d.len off ≤ junkSpan o d.len := by
  have hlt := sampleOffsets_le hoff hbig
  obtain ⟨h1, h2⟩ := seg_eq h.high hlt
  have hlev := h.level
  refine ⟨h1, ?_⟩
  unfold junkSpan
  rw [if_neg (by omega)]
  rcases h.covered with h2lev | hshort
  · rw [if_pos h2lev]
    omega
  · rw [sampleOffsets_short hbig hshort, mem_singleton] at hoff
    split <;> omega

/-- **The inspection of a clean chunk finds nothing.** -/
theorem inspect_ok (hE : ¬Clean o s.mem d → ∀ e s', E e s') :
    (inspect d s).Sat (fun bad s' => OnlyTrace s s' ∧ (bad = true → ¬Clean o s.mem d)) E := by
  unfold inspect
  rw [sat_ite]
  constructor
  · intro hle
    refine (scanJunk_ok _ _ s fun hn => hE fun hc => hn hc.rw).imp ?_
    rintro bad s' ⟨ht, hbad⟩
    refine ⟨ht, fun hb hc => ?_⟩
    obtain ⟨x, h1, h2, hx⟩ := hbad hb
    have hlev := hc.level
    have hspan : junkSpan o d.len = d.len := by
      unfold junkSpan
      rw [if_neg (by omega), min_eq_left hle, ite_self]
    exact hx (hc.junk x h1 (by omega))
  · intro hbig
    rw [not_le] at hbig
    refine (scanSamples_ok _ _ _ s fun hn => hE fun hc => hn fun off hoff => ?_).imp ?_
    · obtain ⟨h1, h2⟩ := hc.sample hbig hoff
      have hspan := junkSpan_le o d.len
      exact accessible_sub hc.rw (by omega) (by omega)
    · rintro bad s' ⟨ht, hbad⟩
      refine ⟨ht, fun hb hc => ?_⟩
      obtain ⟨off, hoff, x, h1, h2, hx⟩ := hbad hb
      obtain ⟨h3, h4⟩ := hc.sample hbig hoff
      exact hx (hc.junk x (by omega) (by omega))

/-- One chunk of the snapshot; chunks of a page or more were never put on the list under `F` and
`U`. -/
lemma checkOne_ok (hshort : s.opts.freecheck = true → s.opts.freeunmap = true → d.len < 4096)
    (hE : ¬Clean s.opts s.mem d → ∀ e s', E e s') :
    (checkOne d s).Sat (fun _ s' => OnlyTrace s s') E := by
  have hno : ¬(s.opts.freecheck = true ∧ s.opts.freeunmap = true ∧ 4096 ≤ d.len) := by
    rintro ⟨hf, hu, hlen⟩
    have := hshort hf hu
    omega
  rw [checkOne, sat_bind, sat_get, sat_bind, sat_exec]
  refine ⟨fun h => absurd h hno, fun _ => ?_⟩
  refine (inspect_ok hE).bind ?_
  rintro bad s1 ⟨ht, hbad⟩
  rw [sat_bind, sat_exec]
  refine ⟨fun h => absurd h hno, fun _ => ?_⟩
  rw [crashIf, sat_stopIf]
  exact ⟨fun hb => hE (hbad hb) _ _, fun _ => ht⟩

/-- **The inspections.** -/
theorem checkAll_ok : ∀ (ds : List DelayedChunk) (s : Heap),
    (s.opts.freecheck = true → s.opts.freeunmap = true → ∀ d ∈ ds, d.len < 4096) →
    (¬(∀ d ∈ ds, Clean s.opts s.mem d) → ∀ e s', E e s') →
    (checkAll ds s).Sat (fun _ s' => OnlyTrace s s') E := by
  intro ds
  induction ds with
  | nil =>
    intro s _ _
    exact OnlyTrace.refl s
  | cons d ds ih =>
    intro s hshort hE
    rw [checkAll, sat_bind]
    refine (checkOne_ok (fun hf hu => hshort hf hu d mem_cons_self)
      fun hn => hE fun hall => hn (hall d mem_cons_self)).imp ?_
    intro _ s1 ht1
    have ho := ht1.tables.opts
    refine (ih s1 ?_ fun hn => hE fun hall => hn fun d' hd' => ?_).imp fun _ _ ht => ht1.trans ht
    · rw [ho]
      exact fun hf hu d' hd' => hshort hf hu d' (mem_cons_of_mem d hd')
    · rw [ho, ht1.mem]
      exact hall d' (mem_cons_of_mem d hd')

end Inspection

/-! ### The snapshot -/

lemma due_iff : d.due now = true ↔ d.when < now := by
  unfold DelayedChunk.due
  rw [decide_eq_true_iff]
  omega

lemma mem_snapshotFrom (snap kept l : List DelayedChunk) :
    (d ∈ (snapshotFrom now snap kept l).1 ↔ d ∈ snap ∨ (d ∈ l ∧ d.due now = true)) ∧
    (d ∈ (snapshotFrom now snap kept l).2 ↔ d ∈ kept ∨ (d ∈ l ∧ ¬d.due now = true)) := by
  fun_induction snapshotFrom now snap kept l with
  | case1 snap kept => simp
  | case2 snap kept x rest hdue ih =>
    obtain ⟨ih1, ih2⟩ := ih
    rw [ih1, ih2, (lastFirst_perm rest).mem_iff]
    grind
  | case3 snap kept x rest hdue ih =>
    obtain ⟨ih1, ih2⟩ := ih
    grind

lemma mem_snapshot : d ∈ (snapshotFrom now [] [] l).1 ↔ d ∈ l ∧ d.when < now := by
  rw [(mem_snapshotFrom [] [] l).1, due_iff]
  simp

lemma mem_left : d ∈ (snapshotFrom now [] [] l).2 ↔ d ∈ l ∧ now ≤ d.when := by
  rw [(mem_snapshotFrom [] [] l).2, due_iff]
  simp

lemma snapshotFrom_none (snap kept l : List DelayedChunk) (h : ∀ d ∈ l, ¬d.due now = true) :
    snapshotFrom now snap kept l = (snap, kept ++ l) := by
  induction l generalizing kept with
  | nil => rw [snapshotFrom, append_nil]
  | cons d l ih =>
    rw [snapshotFrom, if_neg (h d mem_cons_self), ih (kept ++ [d]) (forall_mem_cons.1 h).2, append_assoc]
    rfl

/-! ### The whole check -/

/-- What a check at time `now` does to the tables. -/
structure Checked (now : ℕ) (s s' : Heap) : Prop where
  opts : s'.opts = s.opts
  secret : s'.secret = s.secret
  clock : s'.clock = now
  delayed : s'.delayed = (snapshotFrom now [] [] s.delayed).2
  heads : s'.heads = s.heads
  listed : ∀ g ∈ s'.guardList, g ∈ s.guardList
  fewer : ∀ q ∈ s'.guardQ, q ∈ s.guardQ
  fresh : ∀ q ∈ s.guardQ, q.when = now → q ∈ s'.guardQ

section Check

variable {Ω : Type} {T : Tenants Ω} {L : Prop} {s : Heap} {X : Multiset (Owner Ω)}
  {E : Stop → Heap → Prop}

lemma HeapOwned.later (h : HeapOwned T L s X) (d : ℕ) (l : List DelayedChunk) :
    HeapOwned T L { s with clock := s.clock + d, delayed := l } X :=
  ⟨h.owned, h.tables.toCacheTable.congr rfl rfl rfl,
    { h.tables.toGuardTable with times := fun q hq => (h.tables.times q hq).trans (le_add_right _ _) }⟩

/-- **The check**: chunks that are due leave the list, old mappings leave the quarantine. -/
theorem checkDelayedChunks_ok {tick : ℕ} (h : HeapOwned T L s X)
    (hshort : s.opts.freecheck = true → s.opts.freeunmap = true → ∀ d ∈ s.delayed, d.len < 4096)
    (hE : ¬((∀ d ∈ s.delayed, d.when < s.clock + tick → Clean s.opts s.mem d) ∧ RefsPos s) → ∀ e s',
      E e s') :
    (checkDelayedChunks tick s).Sat (fun _ s' => HeapOwned T L s' X ∧
      Frame T.regionOf s.mem s'.mem X ∧ Checked (s.clock + tick) s s') E := by
  rw [checkDelayedChunks, sat_bind, monotonicSeconds, Outcome.sat_ok, sat_bind, sat_get, sat_bind,
    sat_modify, sat_bind]
  have h1 := h.later tick (snapshotFrom (s.clock + tick) [] [] s.delayed).2
  refine (checkAll_ok _ _ ?_ ?_).imp ?_
  · exact fun hf hu d hd => hshort hf hu d (mem_snapshot.1 hd).1
  · refine fun hn => hE fun hall => hn fun d hd => ?_
    obtain ⟨hmem, hdue⟩ := mem_snapshot.1 hd
    exact hall.1 d hmem hdue
  rintro _ s1 ⟨tr, rfl⟩
  have h2 : HeapOwned T L { s with
      clock := s.clock + tick
      delayed := (snapshotFrom (s.clock + tick) [] [] s.delayed).2
      trace := tr } X := h1.of_same (.mem _ _ _) rfl
  refine (sweepFrom_owned _ [] _ h2 rfl ?_ h2.tables.times).imp ?_
  · exact fun hn => hE fun hall => hn hall.2
  · intro _ s2 hs
    refine ⟨hs.owned, hs.frame, hs.outside.opts, hs.outside.secret, hs.outside.clock,
      hs.outside.delayed, hs.outside.heads, hs.listed, hs.fewer, hs.fresh⟩

end Check

/-! ### A page without access stays without

Whatever a check inspects or unmaps, it gives no page access that had none before.  So a chunk that
was protected when it was freed cannot be read by the rest of `free_chunk`. -/

section Dark

variable {s : Heap} {k : ℕ}

lemma touch_same (nd : Node) (s : Heap) : (touch nd s).Sat (fun _ s' => s' = s) (fun _ _ => True) := by
  unfold touch
  split
  · exact rfl
  · trivial

lemma guardRelease_dark (nd : Node) (h : s.mem.rwPage k = false) :
    (guardRelease nd s).Sat (fun _ s' => s'.mem.rwPage k = false) (fun _ _ => True) := by
  refine (touch_same nd s).bind ?_
  rintro _ s1 rfl
  rw [sat_bind, sat_get]
  cases s1.entryOf nd with
  | none => trivial
  | some g =>
    show (dropRef nd g s1).Sat _ _
    refine sat_crashIf (fun _ => trivial) fun _ => ?_
    rw [sat_exec]
    refine ⟨fun _ => ?_, fun _ => h⟩
    exact munmap_dark h

lemma removeFrom_dark (base : ℕ) : ∀ (l pre : List GuardEntry) (s : Heap), s.mem.rwPage k = false →
    (removeFrom base pre l s).Sat (fun _ s' => s'.mem.rwPage k = false) (fun _ _ => True) := by
  intro l
  induction l with
  | nil => intro _ _ h; exact h
  | cons g rest ih =>
    intro pre s h
    refine (touch_same g.node s).bind ?_
    rintro _ s1 rfl
    rw [sat_ite]
    refine ⟨fun _ => ?_, fun _ => ih (pre ++ [g]) s1 h⟩
    rw [sat_bind, sat_modify, sat_bind]
    exact guardRelease_dark g.node h

lemma removeGuardEntry_dark (base : ℕ) (h : s.mem.rwPage k = false) :
    (removeGuardEntry base s).Sat (fun _ s' => s'.mem.rwPage k = false) (fun _ _ => True) := by
  rw [removeGuardEntry, sat_bind, sat_get, sat_ite]
  exact ⟨fun _ => h, fun _ => removeFrom_dark base _ [] s h⟩

lemma sweepFrom_dark (now : ℕ) : ∀ (l pre : List GuardQuarantine) (s : Heap), s.mem.rwPage k = false →
    (sweepFrom now pre l s).Sat (fun _ s' => s'.mem.rwPage k = false) (fun _ _ => True) := by
  intro l
  induction l with
  | nil => intro _ _ h; exact h
  | cons q rest ih =>
    intro pre s h
    refine (touch_same q.node s).bind ?_
    rintro _ s1 rfl
    rw [sat_ite]
    refine ⟨fun _ => ?_, fun _ => ih (pre ++ [q]) s1 h⟩
    refine (removeGuardEntry_dark q.base (by exact h)).bind ?_
    intro _ s2 h2
    refine sat_crashIf (fun _ => trivial) fun _ => ?_
    rw [sat_bind]
    refine sat_munmap fun tr _ => ?_
    exact ih pre _ (munmap_dark (munmap_dark h2))

lemma chunkMprotect_range (name : String) (prot : Prot) (p size : ℕ) (s : Heap) :
    (chunkMprotect name prot p size s).Sat (fun _ s' => s'.opts = s.opts ∧
      ((s.opts.freeunmap = true ∧ 4096 ≤ size ∧ p ≠ 0) → s'.mem = s.mem.mprotect (p / 4096 * 4096)
        (roundPage (p + size) - p / 4096 * 4096) prot) ∧
      (¬(s.opts.freeunmap = true ∧ 4096 ≤ size ∧ p ≠ 0) → s' = s)) (fun _ _ => True) := by
  rw [chunkMprotect, sat_bind, sat_get, sat_exec]
  constructor
  · rintro ⟨hp, -, hu, hbig⟩
    refine sat_crashIf (fun _ => trivial) fun _ => ?_
    refine sat_crashIf (fun _ => trivial) fun _ => ?_
    exact ⟨rfl, fun _ => rfl, fun hn => absurd ⟨hu, hbig, hp⟩ hn⟩
  · intro hn
    refine ⟨rfl, fun hy => absurd ⟨hy.2.2, by omega, hy.1, hy.2.1⟩ hn, fun _ => rfl⟩

lemma inspect_same (d : DelayedChunk) (s : Heap) : (inspect d s).Sat (fun _ s' => OnlyTrace s s')
    (fun _ _ => True) :=
  (inspect_ok (o := s.opts) fun _ _ _ => trivial).imp fun _ _ h => h.1

lemma checkOne_dark (d : DelayedChunk) (h : s.mem.rwPage k = false) :
    (checkOne d s).Sat (fun _ s' => s'.mem.rwPage k = false) (fun _ _ => True) := by
  rw [checkOne, sat_bind, sat_get, sat_bind, sat_exec]
  constructor
  · intro hprot
    refine sat_crashIf (fun _ => trivial) fun _ => ?_
    refine (chunkMprotect_range _ _ d.addr d.len s).imp ?_
    rintro _ s1 ⟨ho1, hyes1, hno1⟩
    refine (inspect_same d s1).bind ?_
    rintro bad s2 ⟨tr, rfl⟩
    rw [sat_bind, sat_exec]
    refine ⟨fun _ => ?_, fun hn => absurd hprot hn⟩
    refine sat_crashIf (fun _ => trivial) fun _ => ?_
    refine (chunkMprotect_range _ _ d.addr d.len _).imp ?_
    rintro _ s3 ⟨_, hyes3, hno3⟩
    refine sat_stopIf.2 ⟨fun _ => trivial, fun _ => ?_⟩
    by_cases hc : s.opts.freeunmap = true ∧ 4096 ≤ d.len ∧ d.addr ≠ 0
    · rw [hyes3 (by rw [show _ = s.opts from ho1]; exact hc)]
      show rwPage (s1.mem.mprotect _ _ _) k = false
      rw [hyes1 hc]
      exact mprotect_pair_dark h
    · rw [hno3 (by rw [show _ = s.opts from ho1]; exact hc)]
      show s1.mem.rwPage k = false
      rw [hno1 hc]
      exact h
  · intro hprot
    refine (inspect_same d s).bind ?_
    rintro bad s1 ⟨-, rfl⟩
    rw [sat_bind, sat_exec]
    refine ⟨fun hy => absurd hy hprot, fun _ => ?_⟩
    rw [crashIf, sat_stopIf]
    exact ⟨fun _ => trivial, fun _ => h⟩

lemma checkAll_dark : ∀ (ds : List DelayedChunk) (s : Heap), s.mem.rwPage k = false →
    (checkAll ds s).Sat (fun _ s' => s'.mem.rwPage k = false) (fun _ _ => True) := by
  intro ds
  induction ds with
  | nil => intro _ h; exact h
  | cons d ds ih =>
    intro s h
    exact (checkOne_dark d h).bind fun _ s1 h1 => ih s1 h1

lemma checkDelayedChunks_dark (tick : ℕ) (h : s.mem.rwPage k = false) :
    (checkDelayedChunks tick s).Sat (fun _ s' => s'.mem.rwPage k = false) (fun _ _ => True) := by
  refine (checkAll_dark _ _ (by exact h)).bind ?_
  intro _ s1 h1
  exact sweepFrom_dark _ _ [] s1 h1

end Dark

end Musl.Malloc
