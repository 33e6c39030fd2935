import Musl.Lib.RegionLayout

/-!
# Owners of mappings

A program that manages mappings hands each of them to an **owner**: a live block, a cache entry, a
list node.  `Owned m ws` says that the owners `ws` hold whole mappings of the space `m` with distinct
bases, and that each of them satisfies its own condition `Ok m w`.

The conditions are **local**: they speak of the mapping of the owner only (`Local`).  Then every
operation on one mapping keeps the conditions of all other owners.

Each rule comes with the frame: `Frame m m' ws` says that the mappings of the owners `ws` are the
same, byte for byte and right for right, in both spaces.
-/

namespace Musl.Lib

open Multiset

namespace Space

variable {Ω : Type} {region : Ω → Region} {Ok : Space → Ω → Prop} {m m' m'' : Space}
  {w w' : Ω} {ws ws' : Multiset Ω}

/-- The condition of an owner depends on the mapping of that owner only. -/
def Local (region : Ω → Region) (Ok : Space → Ω → Prop) : Prop :=
  ∀ m m' w, Same m m' (region w).base (region w).stop → Ok m w → Ok m' w

/-- The mappings of the owners `ws` are the same in both spaces. -/
def Frame (region : Ω → Region) (m m' : Space) (ws : Multiset Ω) : Prop :=
  ∀ w ∈ ws, Same m m' (region w).base (region w).stop

lemma Frame.refl (m : Space) (ws : Multiset Ω) : Frame region m m ws :=
  fun _ _ => Same.refl m _ _

lemma Frame.trans (h : Frame region m m' ws) (h' : Frame region m' m'' ws) : Frame region m m'' ws :=
  fun w hw => (h w hw).trans (h' w hw)

lemma Frame.mono (h : Frame region m m' ws) (hsub : ws' ⊆ ws) : Frame region m m' ws' :=
  fun w hw => h w (hsub hw)

lemma Frame.of_cons (h : Frame region m m' (w ::ₘ ws)) : Frame region m m' ws :=
  h.mono (subset_cons ws w)

/-- **Owners of mappings**: whole mappings with distinct bases, each in the condition its owner
promises. -/
structure Owned (region : Ω → Region) (Ok : Space → Ω → Prop) (m : Space) (ws : Multiset Ω) :
    Prop where
  layout : Layout m (ws.map region)
  ok : ∀ w ∈ ws, Ok m w

namespace Owned

lemma whole (h : Owned region Ok m ws) (hw : w ∈ ws) : Whole m (region w) :=
  h.layout.whole _ (mem_map_of_mem region hw)

lemma apart (h : Owned region Ok m (w ::ₘ ws)) (hw : w' ∈ ws) :
    (region w).stop ≤ (region w').base ∨ (region w').stop ≤ (region w).base := by
  have hl := h.layout
  rw [map_cons] at hl
  exact hl.apart (mem_map_of_mem region hw)

lemma ok_of_frame (hloc : Local region Ok) (h : Owned region Ok m ws) (hf : Frame region m m' ws) :
    ∀ w ∈ ws, Ok m' w :=
  fun w hw => hloc m m' w (hf w hw) (h.ok w hw)

lemma swap (h : Owned region Ok m (w ::ₘ ws)) (hreg : region w' = region w) (hok : Ok m w') :
    Owned region Ok m (w' ::ₘ ws) := by
  refine ⟨?_, fun v hv => ?_⟩
  · have hl := h.layout
    rw [map_cons] at hl ⊢
    rw [hreg]
    exact hl
  · rcases mem_cons.1 hv with rfl | hv
    · exact hok
    · exact h.ok v (mem_cons_of_mem hv)

variable {len : ℕ}

variable (hloc : Local region Ok)

include hloc

/-- **A fresh mapping.** -/
theorem mmapAt (h : Owned region Ok m ws) {a : ℕ} (hp : m.placeable a len = true)
    (hreg : region w = ⟨a, pagesOf len⟩) (hok : Ok (m.mmapAt a len) w) :
    Owned region Ok (m.mmapAt a len) (w ::ₘ ws) ∧ Frame region m (m.mmapAt a len) ws := by
  have hframe : Frame region m (m.mmapAt a len) ws := fun v hv =>
    h.layout.same_mmapAt hp (mem_map_of_mem region hv)
  refine ⟨⟨?_, fun v hv => ?_⟩, hframe⟩
  · rw [map_cons, hreg]
    exact h.layout.mmapAt hp
  · rcases mem_cons.1 hv with rfl | hv
    · exact hok
    · exact h.ok_of_frame hloc hframe v hv

variable (h : Owned region Ok m (w ::ₘ ws))

include h

/-- **The mapping of an owner goes.** -/
theorem munmap (hlen : pagesOf len = (region w).pages) :
    Owned region Ok (m.munmap (region w).base len) ws ∧
    Frame region m (m.munmap (region w).base len) ws := by
  have hl := h.layout
  rw [map_cons] at hl
  have hframe : Frame region m (m.munmap (region w).base len) ws := fun v hv =>
    hl.same_munmap hlen (mem_map_of_mem region hv)
  refine ⟨⟨hl.munmap hlen, fun v hv => ?_⟩, hframe⟩
  exact hloc m _ v (hframe v hv) (h.ok v (mem_cons_of_mem hv))

/-- **Bytes and rights of one mapping change.** -/
theorem change (htag : m'.tagAt = m.tagAt) (hnext : m'.next = m.next)
    (hout : SameOutside m m' (region w).base (region w).stop) (hreg : region w' = region w)
    (hok : Ok m' w') :
    Owned region Ok m' (w' ::ₘ ws) ∧ Frame region m m' ws := by
  have hframe : Frame region m m' ws := by
    intro v hv
    refine hout.same ?_
    rcases h.apart hv with hap | hap
    · exact .inr hap
    · exact .inl hap
  refine ⟨⟨?_, fun v hv => ?_⟩, hframe⟩
  · have hl := h.layout.of_tags htag hnext
    rw [map_cons] at hl ⊢
    rw [hreg]
    exact hl
  · rcases mem_cons.1 hv with rfl | hv
    · exact hok
    · exact hloc m m' v (hframe v hv) (h.ok v (mem_cons_of_mem hv))

/-- **A mapping is moved or resized.** -/
theorem mremapTo {b len' : ℕ}
    (hlen : pagesOf len = (region w).pages) (hrem : m.remappable (region w).base len b len' = true)
    (hreg : region w' = ⟨b, pagesOf len'⟩) (hok : Ok (m.mremapTo (region w).base len b len') w') :
    Owned region Ok (m.mremapTo (region w).base len b len') (w' ::ₘ ws) ∧
      Frame region m (m.mremapTo (region w).base len b len') ws := by
  have hl := h.layout
  rw [map_cons] at hl
  have hframe : Frame region m (m.mremapTo (region w).base len b len') ws := fun v hv =>
    hl.same_mremapTo hlen hrem (mem_map_of_mem region hv)
  refine ⟨⟨?_, fun v hv => ?_⟩, hframe⟩
  · rw [map_cons, hreg]
    exact hl.mremapTo hlen hrem
  · rcases mem_cons.1 hv with rfl | hv
    · exact hok
    · exact hloc m _ v (hframe v hv) (h.ok v (mem_cons_of_mem hv))

end Owned

end Space

end Musl.Lib
