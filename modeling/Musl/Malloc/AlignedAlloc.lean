import Musl.Malloc.ChunkRuns

/-!
# `aligned_alloc_chunk`

For an alignment above eight the answer points into a larger chunk, without a header that
`free_chunk` could find, and the start of the chunk is stored in front of it even if there is no
chunk.  `aligned_alloc_iff`: nothing else is wrong.
-/

namespace Musl.Malloc

open Musl.Lib Musl.Lib.Space Prog

/-- **What `aligned_alloc_chunk` is for**: in every state that a correct program reaches, it answers
the null pointer or an aligned block that is held like one from `malloc_chunk`; only option `X`
makes it crash. -/
def GivesBack (align len : ℕ) : Prop :=
  ∀ (o : MallocOpts) (sec : UInt64) (m : Space) (ops : List ChunkOp), m.TagsUsed →
    RunMeets chunkStep (fun st op => Correct st op ∧ Unwrapped st op) (Heap.start o sec m, []) ops →
    (runList chunkStep ops (Heap.start o sec m, [])).Sat (fun _ st =>
    ∀ env mallocReplaced alignedReplaced flags,
      (alignedAllocChunk env mallocReplaced alignedReplaced align len flags st.1).Sat
        (fun p s' => p = 0 ∨ p % align = 0 ∧ ReallocKept st.1 p 0 len p s' ∧
          RunInv o sec True (s', (p, len) :: st.2))
        (fun _ _ => o.xmalloc = true)) (fun _ _ => True)

lemma mallocChunk_refused (size flags : ℕ) :
    (mallocChunk ⟨none, true, true, none⟩ size flags (Heap.start guardUnmapOpts 7 .empty)).Sat
      (fun p s' => p = 0 ∧ s'.mem = .empty) (fun _ _ => False) := by
  rw [mallocChunk, sat_bind, sat_get, sat_ite]
  refine ⟨fun _ => ⟨rfl, rfl⟩, fun _ => ?_⟩
  rw [sat_ite]
  refine ⟨fun _ => ?_, fun _ => ?_⟩
  · rw [mallocGuarded, sat_bind, mguard, sat_bind, sat_get, sat_ite]
    refine ⟨fun _ => ⟨rfl, rfl⟩, fun _ => ?_⟩
    rw [if_neg (by decide), sat_ite]
    exact ⟨fun _ => ⟨rfl, rfl⟩, fun _ => ⟨rfl, rfl⟩⟩
  · rw [mallocPlain, sat_bind, plainMapping, sat_bind, cachedMapping, sat_bind, sat_get, sat_ite]
    exact ⟨fun _ => ⟨rfl, rfl⟩, fun _ => ⟨rfl, rfl⟩⟩

variable {align len k : ℕ}

/-- A block is aligned and can be given back exactly if it is aligned like a pointer, or too large
to be had. -/
theorem aligned_alloc_iff (halign : align = 2 ^ k) (h8 : 8 ≤ align) (hk : k < 64)
    (hlen : len % align = 0) :
    GivesBack align len ↔ align = 8 ∨ sizeMax - (align + 7) < len := by
  constructor
  · intro h
    by_contra hno
    obtain ⟨hne, hfits⟩ := not_or.1 hno
    have hpow : align &&& (align - 1) = 0 := by
      rw [halign, Nat.and_two_pow_sub_one_eq_mod, Nat.mod_self]
    have hmax : align ≤ 2 ^ 63 := halign ▸ Nat.pow_le_pow_right (by decide) (by omega)
    have hup : alignUp (0 + 8) align = align := by
      have hone : (align + 7) / align = 1 := Nat.div_eq_of_lt_le (by omega) (by omega)
      rw [alignUp, wrap_of_lt (by omega), show 0 + 8 + (align - 1) = align + 7 by omega, hone, one_mul]
    obtain ⟨_, s', hmalloc, rfl, hmem⟩ :=
      (mallocChunk_refused (len + (align - 1 + 8)) 0).returns fun _ _ _ => id
    have hrun := h guardUnmapOpts 7 .empty [] Space.empty_tagsUsed trivial
    rw [runList_nil] at hrun
    have hcall := hrun ⟨none, true, true, none⟩ false false 0
    unfold alignedAllocChunk at hcall
    rw [if_neg (by simp), if_neg (by omega), if_neg (by omega), if_neg (by omega),
      if_neg (by omega), bind_ok hmalloc,
      hup] at hcall
    have hstore : store (wrap (align + 2 ^ 64 - 8)) 8 0 s' = _ := if_neg fun hacc => by
      rw [hmem] at hacc
      exact Bool.false_ne_true (accessible_iff.1 hacc _ le_rfl (by omega))
    rw [bind_stop hstore, Outcome.sat_stop] at hcall
    cases hcall
  · intro h o sec m ops hm hops
    refine (runInv_reached o sec hm hops).imp fun _ st hinv env mallocReplaced alignedReplaced flags => ?_
    unfold alignedAllocChunk
    split_ifs with h1 h2 h3 h4 h5
    · exact .inl rfl
    · exact .inl rfl
    · exact .inl rfl
    · obtain ⟨bs, lost, hl, hinv⟩ := hinv
      refine (mallocChunk_ok hinv fun _ _ hx _ => hx).imp fun p s' hal => ?_
      rcases hal.block with ⟨rfl, _⟩ | ⟨b, rfl, rfl, h'⟩
      · exact .inl rfl
      · have hmap := h'.live.2.aligned
        refine .inr ⟨?_, reallocKept_of_live h' fun i hi => by simp at hi, RunInv.join hl h'⟩
        rw [show align = 8 by omega]
        unfold Block.ptr
        omega
    · exact .inl rfl
    · omega

theorem aligned_alloc_iff_eight : GivesBack 8 24 :=
  (aligned_alloc_iff (k := 3) rfl le_rfl (by decide) rfl).2 (.inl rfl)

theorem aligned_alloc_sixteen :
    ∃ s', alignedAllocChunk ⟨some 65536, true, true,
      none⟩ false false 16 16 0 (Heap.start .initial 7 .empty) =
        .ok 65584 s' ∧ (freeChunk ⟨⟨1, 0, 0, 1, 0⟩, none, 0⟩ 65584 s').reason =
          some (.crash "free(): invalid or corrupted pointer\n") :=
  ⟨_, rfl, by decide +kernel⟩

end Musl.Malloc
