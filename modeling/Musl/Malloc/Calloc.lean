import Musl.Malloc.ChunkRuns

/-!
# `calloc`

`calloc` of `src/malloc/calloc.c` clears the block that `malloc` gave it.  `mal0_clear` goes down from
the end of the block, page by page, and writes only below the last pair of words of a page that is not
zero; the rest of less than a page at the front is for `memset`.  Nothing is cleared when
`__malloc_allzerop` finds the block zero.

The `malloc` below it is `malloc_chunk` of the default allocator, or a replacement that the program
brings with it.
-/

namespace Musl.Malloc.Calloc

open Musl.Lib List Nat

/-- The allocator with its memory, the writes of `calloc`, address and length of each, newest first, and
`errno`. -/
structure State where
  heap : Heap
  writes : List (ℕ × ℕ)
  errno : ℕ

def State.byte (s : State) (x : ℕ) : UInt8 := s.heap.mem.byte x

def enomem : ℕ := 12

/-- `memset` to zero. -/
def memset (a n : ℕ) (s : State) : State :=
  { s with heap := { s.heap with mem := s.heap.mem.fill a n 0 }, writes := (a, n) :: s.writes }

/-- The scan of a page with `k` pairs of words to go: where it stops, and the bytes that are left of
the page. -/
def scan (s : State) (pp : ℕ) : ℕ → ℕ × ℕ
  | 0 => (pp, 0)
  | k + 1 =>
    -- `((T *)pp)[-1] | ((T *)pp)[-2]`: a byte of the two words is not zero
    if ∃ x < pp, pp - 16 ≤ x ∧ s.byte x ≠ 0 then (pp, 16 * (k + 1)) else scan s (pp - 16) k

lemma scan_spec (s : State) (pp k : ℕ) (hk : 16 * k ≤ pp) :
    (scan s pp k).1 = pp - 16 * k + (scan s pp k).2 ∧
    (scan s pp k).1 ≤ pp ∧ ∀ x, (scan s pp k).1 ≤ x → x < pp → s.byte x = 0 := by
  induction k generalizing pp with
  | zero => exact ⟨rfl, le_rfl, fun x hle hlt => by simp [scan] at hle; omega⟩
  | succ k ih =>
    rw [scan]
    split_ifs with hset
    · exact ⟨by simp; omega, le_rfl, fun x hle hlt => by simp at hle; omega⟩
    · obtain ⟨hend, hle, hzero⟩ := ih (pp - 16) (by omega)
      refine ⟨by omega, by omega, fun x hx hlt => ?_⟩
      by_cases hlow : x < pp - 16
      · exact hzero x hx hlow
      · by_contra hne
        exact hset ⟨x, hlt, by omega, hne⟩

def clearLoop (p pp i : ℕ) (s : State) : ℕ × State :=
  let t := memset (pp - i) i s
  if pp - i - p < 4096 then (pp - i - p, t)
  else clearLoop p (scan t (pp - i) 256).1 (scan t (pp - i) 256).2 t
termination_by pp - i
decreasing_by
  obtain ⟨hend, -, -⟩ := scan_spec (memset (pp - i) i s) (pp - i) 256 (by omega)
  omega

def mal0Clear (p n : ℕ) (s : State) : ℕ × State :=
  if n < 4096 then (n, s) else clearLoop p (p + n) ((p + n) % 4096) s

/-- `__malloc_allzerop` of the default allocator. -/
def mallocAllzerop (s : State) (p : ℕ) : Bool :=
  p ≠ 0 ∧ mchunkFromUser p ≠ 0 ∧ s.heap.mem.loadLE (magicAt (mchunkFromUser p)) 4 = mchunkMagic ∧
    ∀ i < s.heap.mem.loadLE (userLenAt (mchunkFromUser p)) 8, s.byte (p + i) = 0

/-! ### `malloc` -/

instance (o : MallocOpts) (size : ℕ) : Decidable (Oversize o size) :=
  inferInstanceAs (Decidable (_ ∨ ((_ ∧ _) ∧ (_ ∨ _))))

/-- `errno` after a `malloc_chunk` that has failed: it sets `ENOMEM` itself when the size is too
large, and keeps the `errno` of the system call that was refused otherwise. -/
def failedErrno (o : MallocOpts) (size refused : ℕ) : ℕ := if Oversize o size then enomem else refused

/-- `malloc`: the default one, with the answers of the kernel and the `errno` of a refused call, or the
replacement of a program that sets `__malloc_replaced`. -/
inductive Allocator where
  | default (env : MguardEnv) (refused : ℕ)
  | replacement (malloc : ℕ → Prog Stop State ℕ)

def Allocator.replaced : Allocator → Bool
  | .default _ _ => false
  | .replacement _ => true

def Allocator.malloc : Allocator → ℕ → Prog Stop State ℕ
  | .default env refused, n => fun s =>
    match mallocChunk env n 0 s.heap with
    | .ok p h =>
      .ok p { s with heap := h, errno := if p = 0 then failedErrno s.heap.opts n refused else s.errno }
    | .stop e h => .stop e { s with heap := h }
  | .replacement malloc, n => malloc n

def calloc (a : Allocator) (m n : ℕ) : Prog Stop State ℕ :=
  if n ≠ 0 ∧ sizeMax / n < m then do
    Prog.modify fun s => { s with errno := enomem }
    return 0
  else do
    let p ← a.malloc (wrap (n * m))
    let s ← Prog.get
    if p = 0 ∨ a.replaced = false ∧ mallocAllzerop s p then return p
    else do
      let c := mal0Clear p (wrap (n * m)) s
      Prog.modify fun _ => memset p c.1 c.2
      return p

/-! ### What is cleared -/

/-- The block of `n` bytes at `p` is zero from `lo` on, after writes inside of the block. -/
structure Zeroed (p n lo : ℕ) (s s' : State) : Prop where
  zero : ∀ x, lo ≤ x → x < p + n → s'.byte x = 0
  outside : ∀ x, x < p ∨ p + n ≤ x → s'.byte x = s.byte x
  inside : ∃ ws, s'.writes = ws ++ s.writes ∧ ∀ w ∈ ws, p ≤ w.1 ∧ w.1 + w.2 ≤ p + n

variable {p n lo hi i : ℕ} {s s' : State}

lemma zeroed_refl (h : ∀ x, lo ≤ x → x < p + n → s.byte x = 0) : Zeroed p n lo s s :=
  ⟨h, fun _ _ => rfl, [], rfl, by simp⟩

lemma Zeroed.lower (h : Zeroed p n hi s s') (hzero : ∀ x, lo ≤ x → x < hi → s'.byte x = 0) :
    Zeroed p n lo s s' where
  zero x hle hlt := (lt_or_ge x hi).elim (hzero x hle) fun hge => h.zero x hge hlt
  outside := h.outside
  inside := h.inside

lemma Zeroed.memset (h : Zeroed p n (lo + i) s s') (hp : p ≤ lo) (hend : lo + i ≤ p + n) :
    Zeroed p n lo s (memset lo i s') where
  zero x hle hlt := by
    by_cases hx : x < lo + i
    · exact Space.fill_byte_in hle hx
    · exact (Space.fill_byte_out (by omega)).trans (h.zero x (by omega) hlt)
  outside x hx := (Space.fill_byte_out (by omega)).trans (h.outside x hx)
  inside := by
    obtain ⟨ws, heq, hin⟩ := h.inside
    refine ⟨(lo, i) :: ws, ?_, forall_mem_cons.2 ⟨⟨hp, hend⟩, hin⟩⟩
    rw [Calloc.memset, heq]
    rfl

lemma clearLoop_zeroed {pp : ℕ} (h : Zeroed p n pp s s') (hp : p + i ≤ pp) (hend : pp ≤ p + n) :
    Zeroed p n (p + (clearLoop p pp i s').1) s (clearLoop p pp i s').2 ∧ (clearLoop p pp i s').1 ≤ n := by
  fun_induction clearLoop p pp i s' with
  | case1 pp i s' t hlt =>
    rw [show p + (pp - i - p) = pp - i by omega]
    exact ⟨Zeroed.memset (by rwa [Nat.sub_add_cancel (by omega)]) (by omega) (by omega), by omega⟩
  | case2 pp i s' t hge ih =>
    obtain ⟨hstop, hle, hzero⟩ := scan_spec t (pp - i) 256 (by omega)
    have hset : Zeroed p n (pp - i) s t :=
      Zeroed.memset (by rwa [Nat.sub_add_cancel (by omega)]) (by omega) (by omega)
    exact ih (hset.lower hzero) (by omega) (by omega)

lemma mal0Clear_zeroed (p n : ℕ) (s : State) :
    Zeroed p n (p + (mal0Clear p n s).1) s (mal0Clear p n s).2 ∧ (mal0Clear p n s).1 ≤ n := by
  rw [mal0Clear]
  split_ifs with hn
  · exact ⟨zeroed_refl fun x hle hlt => by omega, le_rfl⟩
  · exact clearLoop_zeroed (zeroed_refl fun x hle hlt => by omega) (by omega) le_rfl

/-! ### What the allocator below does -/

/-- A kernel that refuses memory says `ENOMEM`, and so does a replacement that fails. -/
def Allocator.SaysEnomem (s : State) : Allocator → Prop
  | .default _ refused => refused = enomem
  | .replacement malloc => ∀ n t, malloc n s = .ok 0 t → t.errno = enomem

/-- The default allocator has the invariant of the states that a correct program reaches. -/
def Allocator.Reached (s : State) : Allocator → Prop
  | .default _ _ => ∃ L l, RunInv s.heap.opts s.heap.secret L (s.heap, l)
  | .replacement _ => True

variable {a : Allocator} {q : ℕ} {t : State} {e : Stop}

/-- The header of a new chunk has the length that was asked for, and only option `X` stops the call. -/
lemma mallocChunk_header (env : MguardEnv) (n : ℕ) {h : Heap} {L : Prop} {l : HeldBlocks}
    (hr : RunInv h.opts h.secret L (h, l)) :
    (mallocChunk env n 0 h).Sat
      (fun p h' => p ≠ 0 → h'.mem.loadLE (userLenAt (mchunkFromUser p)) 8 = n)
      (fun _ _ => h.opts.xmalloc = true) := by
  obtain ⟨bs, lost, -, hinv⟩ := hr
  refine (mallocChunk_ok hinv fun _ _ hx _ => hx).imp fun p h' hm hp => ?_
  rcases hm.block with ⟨hnull, -⟩ | ⟨b, rfl, rfl, hb⟩
  · exact absurd hnull hp
  · exact congrArg Block.len hb.blockAt

lemma malloc_header (hr : a.Reached s) (hdef : a.replaced = false) (hm : a.malloc n s = .ok q t)
    (hq : q ≠ 0) :
    t.heap.mem.loadLE (userLenAt (mchunkFromUser q)) 8 = n := by
  cases a with
  | replacement malloc => exact absurd hdef (by simp [Allocator.replaced])
  | default env refused =>
    obtain ⟨L, l, hr⟩ := hr
    have hchunk := mallocChunk_header env n hr
    rw [Allocator.malloc] at hm
    cases hc : mallocChunk env n 0 s.heap with
    | stop e h => simp [hc] at hm
    | ok p h =>
      rw [hc] at hchunk
      simp only [hc, Outcome.ok.injEq] at hm
      obtain ⟨rfl, rfl⟩ := hm
      exact hchunk hq

lemma malloc_errno (he : a.SaysEnomem s) (hm : a.malloc n s = .ok 0 t) : t.errno = enomem := by
  cases a with
  | replacement malloc => exact he n t hm
  | default env refused =>
    rw [Allocator.malloc] at hm
    cases hc : mallocChunk env n 0 s.heap with
    | stop e h => simp [hc] at hm
    | ok p h =>
      simp only [hc, Outcome.ok.injEq] at hm
      obtain ⟨rfl, rfl⟩ := hm
      have hrefused : refused = enomem := he
      simp [failedErrno, hrefused]

lemma malloc_stop {env : MguardEnv} {refused : ℕ} (hr : (Allocator.default env refused).Reached s)
    (hm : (Allocator.default env refused).malloc n s = .stop e t) : s.heap.opts.xmalloc = true := by
  obtain ⟨L, l, hr⟩ := hr
  have hchunk := mallocChunk_header env n hr
  rw [Allocator.malloc] at hm
  cases hc : mallocChunk env n 0 s.heap with
  | stop e' h => rwa [hc] at hchunk
  | ok p h => simp [hc] at hm

/-- **`calloc` answers a block of zeros**, written only inside, or the null pointer with `ENOMEM` if
the size overflows or `malloc` fails.  It stops only where `malloc` does, which of the default
allocator is the crash of option `X`. -/
theorem calloc_zeroed (a : Allocator) (m n : ℕ) (s : State) (he : a.SaysEnomem s) (hr : a.Reached s) :
    (calloc a m n s).Sat
      (fun p s' => (p = 0 ↔ 2 ^ 64 ≤ m * n ∨ ∃ t, a.malloc (m * n) s = .ok 0 t) ∧
        (p = 0 → s'.errno = enomem) ∧
        (p ≠ 0 → ∃ t, a.malloc (m * n) s = .ok p t ∧ Zeroed p (m * n) p t s'))
      (fun e s' => m * n < 2 ^ 64 ∧ a.malloc (m * n) s = .stop e s' ∧
        (a.replaced = false → s.heap.opts.xmalloc = true)) := by
  have hover : n ≠ 0 ∧ sizeMax / n < m ↔ 2 ^ 64 ≤ m * n := by
    rcases n.eq_zero_or_pos with rfl | hn
    · simp
    · rw [Nat.div_lt_iff_lt_mul hn, sizeMax]
      omega
  unfold calloc
  by_cases hbig : 2 ^ 64 ≤ m * n
  · rw [if_pos (hover.2 hbig)]
    exact ⟨⟨fun _ => .inl hbig, fun _ => rfl⟩, fun _ => rfl, fun hne => absurd rfl hne⟩
  rw [if_neg (mt hover.1 hbig), mul_comm n m, wrap_of_lt (by omega), Prog.sat_bind]
  simp only [hbig, false_or]
  cases hm : a.malloc (m * n) s with
  | stop e t =>
    refine ⟨by omega, rfl, fun hdef => ?_⟩
    cases a with
    | replacement malloc => exact absurd hdef (by simp [Allocator.replaced])
    | default env refused => exact malloc_stop hr hm
  | ok p t =>
    rw [Outcome.sat_ok, Prog.sat_bind, Prog.sat_get]
    split_ifs with hskip
    · refine ⟨⟨?_, ?_⟩, ?_, fun hne => ⟨t, rfl, zeroed_refl fun x hle hlt => ?_⟩⟩
      · rintro rfl
        exact ⟨t, rfl⟩
      · rintro ⟨t', ht'⟩
        exact (Outcome.ok.inj ht').1
      · rintro rfl
        exact malloc_errno he hm
      · obtain ⟨hdef, hall⟩ := hskip.resolve_left hne
        simp only [mallocAllzerop, malloc_header hr hdef hm hne, decide_eq_true_eq] at hall
        have hzero := hall.2.2.2 (x - p) (by omega)
        rwa [Nat.add_sub_cancel' hle] at hzero
    · have hne : p ≠ 0 := fun hnull => hskip (.inl hnull)
      obtain ⟨hclear, hle⟩ := mal0Clear_zeroed p (m * n) t
      refine ⟨⟨fun hnull => absurd hnull hne, ?_⟩, fun hnull => absurd hnull hne,
        fun _ => ⟨t, rfl, hclear.memset le_rfl (by omega)⟩⟩
      rintro ⟨t', ht'⟩
      exact absurd (Outcome.ok.inj ht').1 hne

/-- Option `J` twice: `malloc` fills a block with junk. -/
def junkHeap : Heap :=
  Heap.start { MallocOpts.initial with junklev := 2, junklev_le := le_rfl } 7 Space.empty

/-- The default allocator gives 5000 bytes of junk, and `calloc` clears them. -/
theorem calloc_zeroed_junk :
    let a : Allocator := .default ⟨some 65536, true, true, none⟩ enomem
    ∃ t, a.malloc 5000 ⟨junkHeap, [], 0⟩ = .ok 65568 t ∧ t.byte 65568 = junkAlloc ∧
      t.byte 70567 = junkAlloc ∧
      ∃ s', calloc a 5 1000 ⟨junkHeap, [], 0⟩ = .ok 65568 s' ∧ ∀ x, 65568 ≤ x → x < 70568 →
      s'.byte x = 0 := by
  intro a
  have hreach : a.Reached ⟨junkHeap, [], 0⟩ := ⟨True, [], runInv_start _ 7 True Space.empty_tagsUsed⟩
  have hsat := calloc_zeroed a 5 1000 ⟨junkHeap, [], 0⟩ rfl hreach
  obtain ⟨t, ht⟩ : ∃ t, a.malloc 5000 ⟨junkHeap, [], 0⟩ = .ok 65568 t := ⟨_, rfl⟩
  have hstate : t = (a.malloc 5000 ⟨junkHeap, [], 0⟩).state := by rw [ht]; rfl
  refine ⟨t, ht, by rw [hstate]; decide +kernel, by rw [hstate]; decide +kernel, ?_⟩
  cases hc : calloc a 5 1000 ⟨junkHeap, [], 0⟩ with
  | stop e s' =>
    rw [hc, Outcome.sat_stop, ht] at hsat
    exact absurd hsat.2.1 (by simp)
  | ok p s' =>
    rw [hc, Outcome.sat_ok, ht] at hsat
    have hne : p ≠ 0 := fun hnull => absurd (hsat.1.1 hnull) (by simp)
    obtain ⟨t', ht', hz⟩ := hsat.2.2 hne
    obtain ⟨rfl, -⟩ := Outcome.ok.inj ht'
    exact ⟨s', rfl, fun x hle hlt => hz.zero x hle hlt⟩

end Musl.Malloc.Calloc
