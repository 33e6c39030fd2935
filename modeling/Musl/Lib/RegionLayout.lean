import Musl.Lib.AddressSpace

/-!
# Layouts: who owns which mapping

A **region** is a page-aligned run of pages.  It is *whole* in a space when its pages are exactly the
pages of one mapping (one tag).  A **layout** of a space is a multiset of whole regions with distinct
bases.  Two regions of a layout never overlap (`Layout.apart`), because a shared page would give them
one tag and hence one base.

A call of the kernel adds a region to a layout, takes one out or keeps it.  So a program that works on
one region at a time never disturbs the others, which is what `Layout.same_of_mem` and its companions
say of the bytes and rights of the other regions.
-/

namespace Musl.Lib

open Multiset Option Nat

/-- A run of `pages` pages from the address `base` on. -/
structure Region where
  base : ℕ
  pages : ℕ
  deriving DecidableEq, Repr

def Region.stop (r : Region) : ℕ := r.base + r.pages * 4096

namespace Space

/-- The tag of page `k`, if it is mapped. -/
def tagAt (m : Space) (k : ℕ) : Option ℕ := (m.page k).map Page.tag

/-- Every tag on a page has been given out. -/
def TagsUsed (m : Space) : Prop := ∀ k t, m.tagAt k = some t → t < m.next

lemma empty_tagsUsed : TagsUsed empty := fun _ _ h => nomatch h

variable {m : Space} {r : Region}

lemma tagAt_of_page {m' : Space} (h : m'.page = m.page) : m'.tagAt = m.tagAt := by
  funext k
  simp [tagAt, h]

section

variable (m : Space) (a len : ℕ) (p : Prot)

lemma tagAt_mprotect : (m.mprotect a len p).tagAt = m.tagAt := by
  funext k
  unfold Space.mprotect tagAt
  split
  · show Option.map Page.tag (if _ then _ else _) = _
    split
    · rw [Option.map_map]; rfl
    · rfl
  · rfl

lemma next_mprotect : (m.mprotect a len p).next = m.next := by
  unfold Space.mprotect
  split <;> rfl

end

/-- The region is a whole mapping of the space: it lies in the user range, and some tag sits on its
pages and nowhere else. -/
structure Whole (m : Space) (r : Region) : Prop where
  aligned : r.base % 4096 = 0
  low : 4096 ≤ r.base
  pos : 0 < r.pages
  high : r.base + r.pages * 4096 ≤ 2 ^ 47
  tagged : ∃ t, ∀ k, m.tagAt k = some t ↔ r.base / 4096 ≤ k ∧ k < r.base / 4096 + r.pages

lemma Whole.mapped (h : Whole m r) {x : ℕ} (h1 : r.base ≤ x) (h2 : x < r.stop) :
    (m.page (x / 4096)).isSome = true := by
  obtain ⟨t, ht⟩ := h.tagged
  have ha := h.aligned
  unfold Region.stop at h2
  have := (ht (x / 4096)).2 (by omega)
  unfold tagAt at this
  cases hp : m.page (x / 4096) with
  | none => rw [hp] at this; cases this
  | some q => rfl

/-- **Whole regions with different bases do not overlap.** -/
theorem Whole.apart {r' : Region} (h : Whole m r) (h' : Whole m r') (hb : r.base ≠ r'.base) :
    r.stop ≤ r'.base ∨ r'.stop ≤ r.base := by
  obtain ⟨t, ht⟩ := h.tagged
  obtain ⟨t', ht'⟩ := h'.tagged
  have ha := h.aligned
  have ha' := h'.aligned
  have hp := h.pos
  have hp' := h'.pos
  unfold Region.stop
  by_contra hcon
  -- the larger of the two bases is a page of both regions, so the tags agree
  have key : ∀ k, r.base / 4096 ≤ k → k < r.base / 4096 + r.pages → r'.base / 4096 ≤ k →
      k < r'.base / 4096 + r'.pages → t = t' := by
    intro k h1 h2 h3 h4
    have e1 := (ht k).2 ⟨h1, h2⟩
    have e2 := (ht' k).2 ⟨h3, h4⟩
    rw [e1] at e2
    exact some.inj e2
  have htt : t = t' := by
    rcases le_total r.base r'.base with hle | hle
    · exact key (r'.base / 4096) (by omega) (by omega) (by omega) (by omega)
    · exact key (r.base / 4096) (by omega) (by omega) (by omega) (by omega)
  subst htt
  have l1 := (ht' (r.base / 4096)).1 ((ht _).2 (by omega))
  have l2 := (ht (r'.base / 4096)).1 ((ht' _).2 (by omega))
  omega

/-- **A layout**: whole regions with distinct bases, in a space whose tags are all used up. -/
structure Layout (m : Space) (rs : Multiset Region) : Prop where
  whole : ∀ r ∈ rs, Whole m r
  nodup : (rs.map Region.base).Nodup
  used : m.TagsUsed

namespace Layout

variable {m m' : Space} {rs : Multiset Region} {r : Region}

variable {r' : Region} {a len b len' : ℕ}

lemma apart (h : Layout m (r ::ₘ rs)) (hr' : r' ∈ rs) : r.stop ≤ r'.base ∨ r'.stop ≤ r.base := by
  have hb : r.base ≠ r'.base := by
    have hnd := h.nodup
    rw [map_cons, nodup_cons] at hnd
    intro he
    exact hnd.1 (he ▸ mem_map_of_mem Region.base hr')
  exact (h.whole r (mem_cons_self r rs)).apart
    (h.whole r' (mem_cons_of_mem hr')) hb

lemma of_tags (h : Layout m rs) (ht : m'.tagAt = m.tagAt) (hn : m'.next = m.next) : Layout m' rs where
  whole := fun r hr =>
    let w := h.whole r hr
    ⟨w.aligned, w.low, w.pos, w.high, by rw [ht]; exact w.tagged⟩
  nodup := h.nodup
  used := fun k t hk => by rw [ht] at hk; rw [hn]; exact h.used k t hk

section

variable (h : Layout m rs) (hp : m.placeable a len = true)

include h hp

lemma same_mmapAt (hr : r ∈ rs) :
    Same m (m.mmapAt a len) r.base r.stop := by
  obtain ⟨⟨ha, _, _, _⟩, hfree⟩ := placeable_iff.1 hp
  intro x h1 h2
  refine sameOutside_mmapAt ha x ?_
  by_contra hcon
  have hmap := (h.whole r hr).mapped h1 h2
  rw [hfree (x / 4096) (by omega) (by omega)] at hmap
  cases hmap

/-- **`mmap` adds a region.** -/
theorem mmapAt : Layout (m.mmapAt a len) (⟨a, pagesOf len⟩ ::ₘ rs) := by
  obtain ⟨⟨ha, hlo, hlen, hhi⟩, hfree⟩ := placeable_iff.1 hp
  have htag : ∀ k, (m.mmapAt a len).tagAt k =
      if a / 4096 ≤ k ∧ k < a / 4096 + pagesOf len then some m.next else m.tagAt k := by
    intro k
    unfold tagAt
    simp only [Space.mmapAt]
    split <;> rfl
  refine ⟨?_, ?_, ?_⟩
  · intro r hr
    rcases mem_cons.1 hr with rfl | hr
    · refine ⟨ha, hlo, pagesOf_pos hlen, hhi, m.next, fun k => ?_⟩
      rw [htag]
      split
      · rename_i hk; simp [hk]
      · rename_i hk
        refine ⟨fun e => absurd (h.used k _ e) (lt_irrefl _), fun hk' => absurd hk' hk⟩
    · obtain ⟨hal, hl, hpos, hh, t, ht⟩ := h.whole r hr
      refine ⟨hal, hl, hpos, hh, t, fun k => ?_⟩
      rw [htag]
      split
      · rename_i hk
        -- the tag is new, and the page was free before
        have hne : m.tagAt k = none := by unfold tagAt; rw [hfree k hk.1 hk.2]; rfl
        constructor
        · intro e
          have hte : t = m.next := (some.inj e).symm
          have := h.used (r.base / 4096) t ((ht _).2 (by omega))
          omega
        · intro hk'
          have := (ht k).2 hk'
          rw [hne] at this
          cases this
      · exact ht k
  · rw [map_cons, nodup_cons]
    refine ⟨?_, h.nodup⟩
    intro hmem
    obtain ⟨r', hr', hbase⟩ := mem_map.1 hmem
    have w := h.whole r' hr'
    have hwp := w.pos
    have hmap := w.mapped le_rfl (by unfold Region.stop; omega)
    have hpp := pagesOf_pos hlen
    rw [hbase, hfree (a / 4096) le_rfl (by omega)] at hmap
    cases hmap
  · intro k t hk
    rw [htag] at hk
    show t < m.next + 1
    split at hk
    · have := some.inj hk; omega
    · have := h.used k t hk; omega

end

variable (h : Layout m (r ::ₘ rs))

include h

variable (hlen : pagesOf len = r.pages)

include hlen

lemma same_munmap (hr' : r' ∈ rs) : Same m (m.munmap r.base len) r'.base r'.stop := by
  refine (sameOutside_munmap r.base len).same ?_
  rw [hlen]
  rcases h.apart hr' with hap | hap
  · exact .inr hap
  · exact .inl hap

/-- **`munmap` takes a region out.** -/
theorem munmap : Layout (m.munmap r.base len) rs := by
  have w := h.whole r (mem_cons_self r rs)
  have hal := w.aligned
  have hpos := w.pos
  have hhi := w.high
  have hlenpos : 0 < len := by
    rcases Nat.eq_zero_or_pos len with h0 | h0
    · rw [h0] at hlen; unfold pagesOf at hlen; omega
    · exact h0
  have hle := le_pagesOf len
  have hcond : r.base % 4096 = 0 ∧ 0 < len ∧ r.base + len ≤ 2 ^ 47 := by
    refine ⟨hal, hlenpos, ?_⟩
    omega
  have htag : ∀ k, (m.munmap r.base len).tagAt k =
      if r.base / 4096 ≤ k ∧ k < r.base / 4096 + r.pages then none else m.tagAt k := by
    intro k
    unfold tagAt Space.munmap
    rw [if_pos hcond, hlen]
    show Option.map Page.tag (if _ then _ else _) = _
    split <;> rfl
  refine ⟨?_, ?_, ?_⟩
  · intro r' hr'
    have hap := h.apart hr'
    obtain ⟨hal', hl', hpos', hh', t, ht⟩ := h.whole r' (mem_cons_of_mem hr')
    refine ⟨hal', hl', hpos', hh', t, fun k => ?_⟩
    unfold Region.stop at hap
    rw [htag]
    split
    · constructor
      · intro e; cases e
      · intro hk'; omega
    · exact ht k
  · have hnd := h.nodup
    rw [map_cons, nodup_cons] at hnd
    exact hnd.2
  · intro k t hk
    rw [htag] at hk
    have hnext : (m.munmap r.base len).next = m.next := by unfold Space.munmap; split <;> rfl
    rw [hnext]
    split at hk
    · cases hk
    · exact h.used k t hk

lemma munmap_gone {x : ℕ} (h1 : r.base ≤ x) (h2 : x < r.stop) :
    (m.munmap r.base len).page (x / 4096) = none := by
  have w := h.whole r (mem_cons_self r rs)
  have hal := w.aligned
  have hhi := w.high
  have hle := le_pagesOf len
  unfold Region.stop at h2
  unfold Space.munmap
  rw [if_pos (by
    refine ⟨hal, ?_, ?_⟩
    · rcases Nat.eq_zero_or_pos len with h0 | h0
      · rw [h0] at hlen; unfold pagesOf at hlen; omega
      · exact h0
    · rw [hlen] at hle; omega)]
  show (if _ then _ else _) = _
  rw [if_pos (by rw [hlen]; omega)]

lemma same_mremapTo (hrem : m.remappable r.base len b len' = true) (hr' : r' ∈ rs) :
    Same m (m.mremapTo r.base len b len') r'.base r'.stop := by
  obtain ⟨⟨hal, hbl, _, _, _, _⟩, _, hfree⟩ := remappable_iff.1 hrem
  have hap := h.apart hr'
  unfold Region.stop at hap
  intro x h1 h2
  have hmap := (h.whole r' (mem_cons_of_mem hr')).mapped h1 h2
  unfold Region.stop at h2
  -- `x` is neither in the new range, which was free or part of the old one, nor in the old range
  have hnew : ¬(b / 4096 ≤ x / 4096 ∧ x / 4096 < b / 4096 + pagesOf len') := by
    rintro ⟨h3, h4⟩
    rcases hfree (x / 4096) h3 h4 with hnone | ⟨hab, hin⟩
    · rw [hnone] at hmap
      cases hmap
    · omega
  refine ⟨?_, ?_⟩
  · simp only [Space.mremapTo]
    rw [if_neg hnew, if_neg (by rw [hlen]; omega)]
  · simp only [Space.mremapTo]
    rw [if_neg (by omega)]

/-- **`mremap` changes one region.** -/
theorem mremapTo (hrem : m.remappable r.base len b len' = true) :
    Layout (m.mremapTo r.base len b len') (⟨b, pagesOf len'⟩ ::ₘ rs) := by
  obtain ⟨⟨-, hbl, hblow, _, hlen', hhigh⟩, hold, hfree⟩ := remappable_iff.1 hrem
  have w := h.whole r (mem_cons_self r rs)
  have htag : ∀ k, (m.mremapTo r.base len b len').tagAt k =
      if b / 4096 ≤ k ∧ k < b / 4096 + pagesOf len' then some m.next
      else if r.base / 4096 ≤ k ∧ k < r.base / 4096 + r.pages then none else m.tagAt k := by
    intro k
    unfold tagAt
    simp only [Space.mremapTo, hlen]
    by_cases hk : b / 4096 ≤ k ∧ k < b / 4096 + pagesOf len'
    · rw [if_pos hk, if_pos hk]
      by_cases hk2 : k - b / 4096 < r.pages
      · rw [if_pos hk2]
        have hs := hold (r.base / 4096 + (k - b / 4096)) (by omega) (by rw [hlen]; omega)
        obtain ⟨q, hq⟩ := isSome_iff_exists.1 hs
        rw [hq]
        rfl
      · rw [if_neg hk2]
        rfl
    · rw [if_neg hk]
      split <;> rfl
  refine ⟨?_, ?_, ?_⟩
  · intro r' hr'
    rcases mem_cons.1 hr' with rfl | hr'
    · refine ⟨hbl, hblow, pagesOf_pos hlen', hhigh, m.next, fun k => ?_⟩
      rw [htag]
      by_cases hk : b / 4096 ≤ k ∧ k < b / 4096 + pagesOf len'
      · rw [if_pos hk]
        exact ⟨fun _ => hk, fun _ => rfl⟩
      · rw [if_neg hk]
        refine ⟨fun e => ?_, fun hk' => absurd hk' hk⟩
        split at e
        · cases e
        · exact absurd (h.used k _ e) (lt_irrefl _)
    · have hap := h.apart hr'
      have w' := h.whole r' (mem_cons_of_mem hr')
      obtain ⟨hal', hl', hpos', hh', t, ht⟩ := w'
      refine ⟨hal', hl', hpos', hh', t, fun k => ?_⟩
      unfold Region.stop at hap
      rw [htag]
      by_cases hk : b / 4096 ≤ k ∧ k < b / 4096 + pagesOf len'
      · rw [if_pos hk]
        -- the new pages were free or of the old region, so not of `r'`
        have hnot : ¬(r'.base / 4096 ≤ k ∧ k < r'.base / 4096 + r'.pages) := by
          intro hk'
          rcases hfree k hk.1 hk.2 with hnone | ⟨hab, hin⟩
          · have hkt := (ht k).2 hk'
            unfold tagAt at hkt
            rw [hnone] at hkt
            cases hkt
          · omega
        refine ⟨fun e => ?_, fun hk' => absurd hk' hnot⟩
        have hused := h.used (r'.base / 4096) t ((ht _).2 (by omega))
        have hte := some.inj e
        omega
      · rw [if_neg hk]
        split
        · refine ⟨fun e => (nomatch e), fun hk' => ?_⟩
          omega
        · exact ht k
  · have hnd := h.nodup
    rw [map_cons, nodup_cons] at hnd ⊢
    refine ⟨fun hmem => ?_, hnd.2⟩
    obtain ⟨r', hr', hbase⟩ := mem_map.1 hmem
    have w' := h.whole r' (mem_cons_of_mem hr')
    have hap := h.apart hr'
    have hpos' := w'.pos
    have hmap := w'.mapped le_rfl (by unfold Region.stop; omega)
    have hpp := pagesOf_pos hlen'
    unfold Region.stop at hap
    simp only at hbase
    rcases hfree (b / 4096) le_rfl (by omega) with hnone | ⟨hab, _⟩
    · rw [hbase, hnone] at hmap
      cases hmap
    · omega
  · intro k t hk
    rw [htag] at hk
    show t < m.next + 1
    split at hk
    · have := some.inj hk; omega
    · split at hk
      · cases hk
      · have := h.used k t hk; omega

end Layout

end Space

end Musl.Lib
