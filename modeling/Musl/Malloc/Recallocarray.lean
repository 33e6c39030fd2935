import Musl.Malloc.ChunkRuns

/-!
# `recallocarray`

`recallocarray` reallocates an array and clears the bytes by which it grew.  When the array shrinks it
clears the bytes that were given up as well, but only after `realloc_chunk` has given them up: behind
the new end of the block, where its canary is.  `recallocarray_respects_iff` says that this is the
only way the call leaves the block it returns.
-/

namespace Musl.Malloc

open Musl.Lib Musl.Lib.Space List Nat Prog

/-- The access writes below `hi` only. -/
def Access.WritesBelow (hi : ℕ) : Access → Prop
  | .write a n => a + n ≤ hi
  | .fill a n _ => a + n ≤ hi
  | _ => True

/-- `recallocarray`, after which `p` with `oldsize` bytes has become `q` with `newsize` bytes, respects
the block it returns: the old bytes are kept, the new ones are zero, what it writes itself once
`reallocarray` has returned is inside the block, and the canary is intact. -/
structure Respects (env : ReallocEnv) (s : Heap) (p nmemb size oldsize q : ℕ) (s' : Heap) : Prop where
  data : Copied s.mem s'.mem p q (min oldsize (nmemb * size))
  zero : ∀ i, min oldsize (nmemb * size) ≤ i → i < nmemb * size → s'.mem.byte (q + i) = 0
  confined : ∃ s₁, reallocarray env p nmemb size s = .ok q s₁ ∧
    Emitted (Access.WritesBelow (q + nmemb * size)) s₁ s'
  canary : s'.opts.canaries = true →
    s'.mem.loadLE (q + nmemb * size) 8 = makeCanary s'.secret q (nmemb * size)

section Clear

variable {o : MallocOpts} {sec : UInt64} {L : Prop} {s s₁ : Heap} {b : Block}
  {X : Multiset (Owner Holder)} {p oldsize newsize : ℕ} {E : Stop → Heap → Prop}

/-- What clearing leaves of the block `b` that `reallocarray` returned. -/
structure Cleared (m : Space) (p oldsize : ℕ) (b : Block) (s₁ s' : Heap) : Prop where
  data : Copied m s'.mem p b.ptr (min oldsize b.len)
  zero : ∀ i, min oldsize b.len ≤ i → i < b.len → s'.mem.byte (b.ptr + i) = 0
  confined : Emitted (Access.WritesBelow (b.ptr + b.len)) s₁ s'
  canary : s'.opts.canaries = true →
    s'.mem.loadLE (b.ptr + b.len) 8 = makeCanary s'.secret b.ptr b.len

lemma clearBeyond_grown (h : HeapInv o sec AnyBlock L s₁ (.tenant (.live b) ::ₘ X))
    (hcopy : Copied s.mem s₁.mem p b.ptr (min oldsize b.len)) (hle : oldsize ≤ b.len) :
    (clearBeyond b.ptr oldsize b.len s₁).Sat (fun _ s' => Cleared s.mem p oldsize b s₁ s') E := by
  obtain ⟨hb, hp⟩ := h.live
  have hin := hb.fits.inside
  have hptr : b.ptr = b.map + 32 := rfl
  unfold clearBeyond
  rw [sat_ite]
  refine ⟨fun hlt => ?_, fun hge => ?_⟩
  · rw [memset_ok (accessible_sub hb.rw (by omega) (by omega))]
    refine ⟨fun i hi => ?_, fun i h1 h2 => ?_, ?_, fun hc => ?_⟩
    · rw [← hcopy i hi]
      exact fill_byte_out (.inl (by omega))
    · exact fill_byte_in (by omega) (by omega)
    · exact ⟨[.fill (b.ptr + oldsize) (b.len - oldsize) 0], rfl, fun ev hev => by
        rw [mem_singleton.1 hev]
        show b.ptr + oldsize + (b.len - oldsize) ≤ b.ptr + b.len
        omega⟩
    · exact (loadLE_fill_apart (.inr (by omega))).trans (hb.canary hc)
  · rw [sat_exec]
    refine ⟨fun hlt => by omega, fun _ => ⟨hcopy, fun i h1 h2 => by omega, Emitted.refl _ _, ?_⟩⟩
    exact hb.canary

lemma clearBeyond_shrunk {q : ℕ} (hlt : newsize < oldsize) : (clearBeyond q oldsize newsize s₁).Sat
      (fun _ s' => ¬Emitted (Access.WritesBelow (q + newsize)) s₁ s') (fun _ _ => True) := by
  unfold clearBeyond
  rw [if_neg (by omega), sat_exec]
  refine ⟨fun _ => ?_, fun hge => absurd hlt hge⟩
  unfold memset
  split
  · rintro ⟨evs, htr, hall⟩
    have hev : Access.fill (q + newsize) (oldsize - newsize) 0 :: s₁.trace = evs ++ s₁.trace := htr
    have hevs : evs = [.fill (q + newsize) (oldsize - newsize) 0] :=
      (append_cancel_right hev).symm
    have hbelow : Access.WritesBelow (q + newsize) (.fill (q + newsize) (oldsize - newsize) 0) :=
      hall _ (by rw [hevs]; exact mem_cons_self)
    have hle : q + newsize + (oldsize - newsize) ≤ q + newsize := hbelow
    omega
  · trivial

end Clear

variable {env : ReallocEnv} {nmemb p size : ℕ}

lemma recallocarray_eq {oldnmemb : ℕ} (hp : p ≠ 0) (hold : oldnmemb * size < 2 ^ 64)
    (hnew : nmemb * size < 2 ^ 64) :
    recallocarray env p oldnmemb nmemb size = do
      let q ← reallocarray env p nmemb size
      if q = 0 then return 0
      else do
        clearBeyond q (oldnmemb * size) (nmemb * size)
        return q := by
  have hfits : ∀ n, n * size < 2 ^ 64 → ¬(n ≠ 0 ∧ sizeMax / n < size) := by
    rintro n hn ⟨hn0, hlt⟩
    have := (div_lt_iff_lt_mul (pos_of_ne_zero hn0)).1 hlt
    rw [mul_comm] at this
    unfold sizeMax at this
    omega
  unfold recallocarray
  rw [if_neg (hfits _ hnew), if_neg fun h => hfits _ hold h.2, if_pos hp]
  unfold wrap
  rw [mod_eq_of_lt hold, mod_eq_of_lt hnew]

lemma reallocarray_eq (hnew : nmemb * size < 2 ^ 64) :
    reallocarray env p nmemb size = reallocChunk env p (nmemb * size) 0 := by
  unfold reallocarray
  rw [if_neg, wrap, mod_eq_of_lt hnew]
  rintro ⟨hn0, hlt⟩
  have := (div_lt_iff_lt_mul (pos_of_ne_zero hn0)).1 hlt
  unfold sizeMax at this
  omega

lemma reallocarray_zero {s : Heap} (hp : p ≠ 0) :
    (reallocarray env p nmemb 0 s).Sat (fun q _ => q = 0) (fun _ _ => True) := by
  rw [reallocarray_eq (by omega), reallocChunk, if_neg hp, if_pos (mul_zero nmemb), sat_bind]
  cases freeChunk env.free p s with
  | ok _ _ => exact rfl
  | stop _ _ => trivial

/-- **`recallocarray` respects the block it returns exactly when the array does not shrink**, in every
state that a correct program reaches, under every option setting and whatever the kernel answers. -/
theorem recallocarray_respects_iff (o : MallocOpts) (sec : UInt64) (m : Space) (hm : m.TagsUsed)
    (ops : List ChunkOp)
    (hops : RunMeets chunkStep (fun st op => Correct st op ∧
      Unwrapped st op) (Heap.start o sec m, []) ops) :
    (runList chunkStep ops (Heap.start o sec m, [])).Sat (fun _ st =>
      ∀ (env : ReallocEnv) (p oldnmemb nmemb size : ℕ),
        (p, oldnmemb * size) ∈ st.2 → 0 < nmemb → nmemb * size < 2 ^ 64 →
        Unwrapped st (.realloc env p (nmemb * size) 0) →
        (recallocarray env p oldnmemb nmemb size st.1).Sat
          (fun q s' => q ≠ 0 → (Respects env st.1 p nmemb size (oldnmemb * size) q s' ↔ oldnmemb ≤ nmemb))
          (fun _ _ => True)) (fun _ _ => True) := by
  refine (runInv_reached o sec hm hops).imp ?_
  intro _ st h env p oldnmemb nmemb size hmem hpos hnew hfit
  obtain ⟨b, _, _, hptr, hlen, _, hlive, _⟩ := RunInv.take h hmem
  have hp : p ≠ 0 := by
    rw [← hptr, Block.ptr]
    omega
  have hold : oldnmemb * size < 2 ^ 64 := by
    rw [← hlen, ← hlive.live.1.header.userLen]
    exact loadLE_lt 8 _
  rw [recallocarray_eq hp hold hnew, Prog.sat_bind]
  rcases Nat.eq_zero_or_pos size with rfl | hsize
  · -- no bytes are asked for: the block is freed and the answer is null
    refine (reallocarray_zero hp).imp ?_
    rintro q s₁ rfl
    exact fun hq => absurd rfl hq
  have hre := h.reallocated hmem (Nat.mul_pos hpos hsize) hfit
  rw [← reallocarray_eq hnew] at hre
  cases heq : reallocarray env p nmemb size st.1 with
  | stop e s₁ => trivial
  | ok q s₁ =>
    rw [heq] at hre
    rw [Outcome.sat_ok, Prog.sat_ite]
    refine ⟨fun hq => fun hq' => absurd rfl hq', fun hq => ?_⟩
    obtain ⟨c, X, rfl, hclen, hcopy, hc⟩ := hre hq
    rw [Prog.sat_bind]
    rcases Nat.lt_or_ge nmemb oldnmemb with hlt | hge
    · refine (clearBeyond_shrunk (Nat.mul_lt_mul_of_pos_right hlt hsize)).imp ?_
      intro _ s' hout _
      refine ⟨fun hr => ?_, fun hle => absurd hlt (by omega)⟩
      obtain ⟨s2, hs2, hconf⟩ := hr.confined
      cases heq.symm.trans hs2
      exact absurd hconf hout
    · rw [hclen] at hcopy ⊢
      refine (clearBeyond_grown hc hcopy (hclen ▸ Nat.mul_le_mul_right size hge)).imp ?_
      intro _ s' hcl _
      refine ⟨fun _ => hge, fun _ => ?_⟩
      obtain ⟨hdata, hzero, hconf, hcanary⟩ := hcl
      rw [← hclen] at hdata hzero hconf hcanary
      exact ⟨hdata, hzero, ⟨s₁, heq, hconf⟩, hcanary⟩

/-- Option `C` on top of the defaults. -/
def canaryOpts : MallocOpts := { MallocOpts.initial with canaries := true }

/-- The environment of a reallocation that shrinks in place: nothing is asked from the kernel. -/
def inPlaceEnv : ReallocEnv :=
  ⟨⟨none, true, true, none⟩, ⟨none, ⟨none, true, true, none⟩⟩, ⟨⟨1, 0, 0, 1, 0⟩, none, 0⟩⟩

/-- An array of ten bytes grows to twenty elements, which moves it, and is freed. -/
theorem recallocarray_respects_ten :
    let r := runList chunkStep [tenBytesAt 65536] (Heap.start canaryOpts 7 Space.empty, [])
    let c := recallocarray (moveTo 131072) 65568 10 20 1 r.state.1
    r.isOk = true ∧ c.value = some 131104 ∧
      Respects (moveTo 131072) r.state.1 65568 20 1 (10 * 1) 131104 c.state ∧
      (freeChunk ⟨⟨1, 0, 0, 1, 0⟩, none, 0⟩ 131104 c.state).isOk = true := by
  have hiff :=
    (recallocarray_respects_iff canaryOpts 7 Space.empty Space.empty_tagsUsed [tenBytesAt 65536]
    ⟨⟨trivial, trivial⟩, fun _ _ => trivial⟩).of_value (a := ()) (by decide +kernel)
  have hsat :=
    hiff (moveTo 131072) 65568 10 20 1 (by decide +kernel) (by decide) (by decide) fun _ => by
      decide
  exact ⟨by decide +kernel, by decide +kernel,
    (hsat.of_value (by decide +kernel) (by decide)).2 (by decide),
    by decide +kernel⟩

/-- With option `C`, an array of ten bytes is shrunk to five.  The five bytes behind its new end are
cleared, the first bytes of the canary with them, and a free of the array crashes. -/
theorem recallocarray_destroys_canary :
    let r := runList chunkStep [tenBytesAt 65536] (Heap.start canaryOpts 7 Space.empty, [])
    let c := recallocarray inPlaceEnv 65568 10 5 1 r.state.1
    r.isOk = true ∧ r.state.2 = [(65568, 10 * 1)] ∧ c.isOk = true ∧
      c.state.trace.head? = some (.fill 65573 5 0) ∧
      (freeChunk ⟨⟨1, 0, 0, 1, 0⟩, none, 0⟩ 65568 c.state).reason =
        some (.crash "free(): chunk canary corrupted") := by
  refine ⟨?_, ?_, ?_, ?_, ?_⟩ <;> decide +kernel

end Musl.Malloc
