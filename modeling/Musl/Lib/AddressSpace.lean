import Mathlib.Tactic

/-!
# A paged address space

The memory of one process on a machine with 4096-byte pages and 47-bit user addresses (x86-64).  A
page is unmapped, mapped without access, or mapped readable and writable; every mapped page carries
the **tag** of the call that mapped it, so that "the mapping holding this address" is a set of pages
the kernel knows and not only something a program remembers.
-/

namespace Musl.Lib

open Option Nat

inductive Prot where
  | none
  | rw
  deriving DecidableEq, Repr

/-- A mapped page: its access rights and the tag of the mapping it belongs to. -/
structure Page where
  prot : Prot
  tag : ℕ
  deriving DecidableEq, Repr

/-- The address space: pages by page number, bytes by address, and the tag of the next mapping. -/
structure Space where
  page : ℕ → Option Page
  byte : ℕ → UInt8
  next : ℕ

/-- The number of pages that `len` bytes from a page boundary touch. -/
def pagesOf (len : ℕ) : ℕ := (len + 4095) / 4096

namespace Space

def empty : Space where
  page := fun _ => none
  byte := fun _ => 0
  next := 0

variable {m m' : Space}

/-! ### Access -/

/-- Is page `k` mapped readable and writable? -/
def rwPage (m : Space) (k : ℕ) : Bool :=
  match m.page k with
  | some ⟨.rw, _⟩ => true
  | _ => false

/-- Does the test hold on the `n` pages from `k` on? -/
def allPages (P : ℕ → Bool) : ℕ → ℕ → Bool
  | _, 0 => true
  | k, n + 1 => P k && allPages P (k + 1) n

lemma allPages_iff (P : ℕ → Bool) :
    ∀ n k, allPages P k n = true ↔ ∀ j, k ≤ j → j < k + n → P j = true := by
  intro n
  induction n with
  | zero => intro k; simp only [allPages, true_iff]; intro j h1 h2; omega
  | succ n ih =>
    intro k
    rw [allPages, Bool.and_eq_true, ih]
    constructor
    · rintro ⟨h0, h⟩ j h1 h2
      rcases eq_or_lt_of_le h1 with rfl | hlt
      · exact h0
      · exact h j (by omega) (by omega)
    · intro h
      exact ⟨h k (by omega) (by omega), fun j h1 h2 => h j (by omega) (by omega)⟩

/-- The number of pages that the bytes `[a, a + n)` touch. -/
def spanPages (a n : ℕ) : ℕ := if n = 0 then 0 else (a + n - 1) / 4096 + 1 - a / 4096

/-- May the bytes `[a, a + n)` be read and written? -/
def accessible (m : Space) (a n : ℕ) : Bool := allPages m.rwPage (a / 4096) (spanPages a n)

variable {a n b k x d s hi lo hi' lo' len : ℕ} {v : UInt8} {m m₁ m₂ : Space}

lemma accessible_iff : m.accessible a n = true ↔ ∀ x, a ≤ x → x < a + n → m.rwPage (x / 4096) = true := by
  rw [accessible, allPages_iff]
  constructor
  · intro h x h1 h2
    refine h (x / 4096) (by omega) ?_
    rw [spanPages, if_neg (by omega)]
    omega
  · intro h j h1 h2
    rw [spanPages] at h2
    split at h2
    · omega
    · rcases eq_or_lt_of_le h1 with rfl | hlt
      · exact h a (by omega) (by omega)
      · have hx := h (j * 4096) (by omega) (by omega)
        rwa [Nat.mul_div_cancel j (by norm_num)] at hx

lemma accessible_sub (h : m.accessible a n = true) (h1 : a ≤ b) (h2 : b + k ≤ a + n) :
    m.accessible b k = true := by
  rw [accessible_iff] at h ⊢
  intro x hx1 hx2
  exact h x (by omega) (by omega)

/-! ### Little-endian words, fills and copies -/

/-- The `n`-byte little-endian word at `a`. -/
def loadLE (m : Space) (a : ℕ) : ℕ → ℕ
  | 0 => 0
  | n + 1 => (m.byte a).toNat + 256 * loadLE m (a + 1) n

/-- Store the low `n` bytes of `v` at `a`, least significant first. -/
def storeLE (m : Space) (a n v : ℕ) : Space :=
  { m with byte := fun x => if a ≤ x ∧ x < a + n then UInt8.ofNat (v / 256 ^ (x - a)) else m.byte x }

/-- `memset(a, v, n)`. -/
def fill (m : Space) (a n : ℕ) (v : UInt8) : Space :=
  { m with byte := fun x => if a ≤ x ∧ x < a + n then v else m.byte x }

/-- `memcpy(d, s, n)`. -/
def copy (m : Space) (d s n : ℕ) : Space :=
  { m with byte := fun x => if d ≤ x ∧ x < d + n then m.byte (s + (x - d)) else m.byte x }

lemma accessible_congr_page (h : m'.page = m.page) (a n : ℕ) : m'.accessible a n = m.accessible a n := by
  have : m'.rwPage = m.rwPage := by funext k; simp only [rwPage, h]
  rw [accessible, accessible, this]

lemma storeLE_byte_out {v : ℕ} (h : x < a ∨ a + n ≤ x) : (m.storeLE a n v).byte x = m.byte x := by
  simp only [storeLE]; rw [if_neg (by omega)]

lemma fill_byte_in (h1 : a ≤ x) (h2 : x < a + n) : (m.fill a n v).byte x = v := by
  simp only [fill]; rw [if_pos ⟨h1, h2⟩]

lemma fill_byte_out (h : x < a ∨ a + n ≤ x) : (m.fill a n v).byte x = m.byte x := by
  simp only [fill]; rw [if_neg (by omega)]

lemma copy_byte_in (h1 : d ≤ x) (h2 : x < d + n) : (m.copy d s n).byte x = m.byte (s + (x - d)) := by
  simp only [copy]; rw [if_pos ⟨h1, h2⟩]

lemma copy_byte_out (h : x < d ∨ d + n ≤ x) : (m.copy d s n).byte x = m.byte x := by
  simp only [copy]; rw [if_neg (by omega)]

lemma loadLE_congr :
    ∀ (n a : ℕ), (∀ x, a ≤ x → x < a + n → m'.byte x = m.byte x) →
    m'.loadLE a n = m.loadLE a n := by
  intro n
  induction n with
  | zero => intro a _; rfl
  | succ n ih =>
    intro a h
    rw [loadLE, loadLE, h a (by omega) (by omega), ih (a + 1) (fun x h1 h2 => h x (by omega) (by omega))]

lemma loadLE_lt : ∀ (n a : ℕ), m.loadLE a n < 256 ^ n := by
  intro n
  induction n with
  | zero => intro a; simp [loadLE]
  | succ n ih =>
    intro a
    have hb : (m.byte a).toNat < 256 := (m.byte a).toNat_lt
    have h := ih (a + 1)
    rw [loadLE]
    omega

/-- **A stored word is read back**, cut to its width. -/
theorem loadLE_storeLE : ∀ (n a v : ℕ), (m.storeLE a n v).loadLE a n = v % 256 ^ n := by
  intro n
  induction n with
  | zero => intro a v; simp [loadLE, mod_one]
  | succ n ih =>
    intro a v
    have htail : (m.storeLE a (n + 1) v).loadLE (a + 1) n
        = (m.storeLE (a + 1) n (v / 256)).loadLE (a + 1) n := by
      apply loadLE_congr
      intro x h1 h2
      simp only [storeLE]
      rw [if_pos (by omega), if_pos (by omega), Nat.div_div_eq_div_mul]
      congr 2
      rw [show x - a = (x - (a + 1)) + 1 by omega]
      ring
    have hhead : ((m.storeLE a (n + 1) v).byte a).toNat = v % 256 := by
      simp only [storeLE]
      rw [if_pos (by omega), Nat.sub_self, pow_zero, Nat.div_one]
      exact UInt8.toNat_ofNat'
    rw [loadLE, hhead, htail, ih, pow_succ', mod_mul]

lemma loadLE_storeLE_apart {v : ℕ} (h : b + k ≤ a ∨ a + n ≤ b) :
    (m.storeLE a n v).loadLE b k = m.loadLE b k :=
  loadLE_congr k b fun _ h1 h2 => storeLE_byte_out (by omega)

lemma loadLE_fill_apart (h : b + k ≤ a ∨ a + n ≤ b) : (m.fill a n v).loadLE b k = m.loadLE b k :=
  loadLE_congr k b fun _ h1 h2 => fill_byte_out (by omega)

lemma loadLE_zero : ∀ (n a : ℕ), (∀ x, a ≤ x → x < a + n → m.byte x = 0) → m.loadLE a n = 0 := by
  intro n
  induction n with
  | zero => intro a _; rfl
  | succ n ih =>
    intro a h
    rw [loadLE, h a (by omega) (by omega), ih (a + 1) (fun x h1 h2 => h x (by omega) (by omega))]
    rfl

/-! ### Agreement of two spaces -/

/-- The two spaces agree on `[lo, hi)`, in bytes and in pages. -/
def Same (m m' : Space) (lo hi : ℕ) : Prop :=
  ∀ x, lo ≤ x → x < hi → m'.page (x / 4096) = m.page (x / 4096) ∧ m'.byte x = m.byte x

/-- The two spaces agree on every address outside `[lo, hi)`. -/
def SameOutside (m m' : Space) (lo hi : ℕ) : Prop :=
  ∀ x, (x < lo ∨ hi ≤ x) → m'.page (x / 4096) = m.page (x / 4096) ∧ m'.byte x = m.byte x

lemma Same.refl (m : Space) (lo hi : ℕ) : Same m m lo hi := fun _ _ _ => ⟨rfl, rfl⟩

lemma Same.trans (h : Same m m₁ lo hi) (h' : Same m₁ m₂ lo hi) : Same m m₂ lo hi := fun x h1 h2 =>
  ⟨(h' x h1 h2).1.trans (h x h1 h2).1, (h' x h1 h2).2.trans (h x h1 h2).2⟩

lemma Same.sub (h : Same m m' lo hi) (h1 : lo ≤ lo') (h2 : hi' ≤ hi) :
    Same m m' lo' hi' := fun x hx1 hx2 => h x (by omega) (by omega)

lemma SameOutside.refl (m : Space) (lo hi : ℕ) : SameOutside m m lo hi := fun _ _ => ⟨rfl, rfl⟩

lemma SameOutside.trans (h : SameOutside m m₁ lo hi) (h' : SameOutside m₁ m₂ lo hi) :
    SameOutside m m₂ lo hi := fun x hx =>
  ⟨(h' x hx).1.trans (h x hx).1, (h' x hx).2.trans (h x hx).2⟩

lemma SameOutside.widen (h : SameOutside m m' lo hi) (h1 : lo' ≤ lo) (h2 : hi ≤ hi') :
    SameOutside m m' lo' hi' := fun x hx => h x (by omega)

lemma SameOutside.same (h : SameOutside m m' lo hi) (hap : hi' ≤ lo ∨ hi ≤ lo') :
    Same m m' lo' hi' := fun x h1 h2 => h x (by omega)

lemma Same.rwPage (h : Same m m' lo hi) (h1 : lo ≤ x) (h2 : x < hi) :
    m'.rwPage (x / 4096) = m.rwPage (x / 4096) := by
  simp [Space.rwPage, (h x h1 h2).1]

section

variable (h : Same m m' lo hi) (h1 : lo ≤ a) (h2 : a + n ≤ hi)

include h h1 h2

lemma Same.accessible (hacc : m.accessible a n = true) : m'.accessible a n = true := by
  rw [accessible_iff] at hacc ⊢
  intro x hx1 hx2
  rw [h.rwPage (by omega) (by omega)]
  exact hacc x hx1 hx2

lemma Same.loadLE : m'.loadLE a n = m.loadLE a n :=
  loadLE_congr n a fun x hx1 hx2 => (h x (by omega) (by omega)).2

end

lemma sameOutside_storeLE (a n v : ℕ) : SameOutside m (m.storeLE a n v) a (a + n) :=
  fun _ hx => ⟨rfl, storeLE_byte_out hx⟩

lemma sameOutside_fill (a n : ℕ) (v : UInt8) : SameOutside m (m.fill a n v) a (a + n) :=
  fun _ hx => ⟨rfl, fill_byte_out hx⟩

lemma sameOutside_copy (d s n : ℕ) : SameOutside m (m.copy d s n) d (d + n) :=
  fun _ hx => ⟨rfl, copy_byte_out hx⟩

/-! ### The mapping calls -/

/-- May `len` bytes be mapped at `a`?  The address is a page boundary of the user range, not the
null page, and the pages are unmapped. -/
def placeable (m : Space) (a len : ℕ) : Bool :=
  decide (a % 4096 = 0 ∧ 4096 ≤ a ∧ 0 < len ∧ a + pagesOf len * 4096 ≤ 2 ^ 47)
    && allPages (fun k => (m.page k).isNone) (a / 4096) (pagesOf len)

/-- `mmap`: fresh zeroed readable and writable pages at `a`, under a new tag. -/
def mmapAt (m : Space) (a len : ℕ) : Space where
  page := fun k =>
    if a / 4096 ≤ k ∧ k < a / 4096 + pagesOf len then some ⟨.rw, m.next⟩ else m.page k
  byte := fun x => if a ≤ x ∧ x < a + pagesOf len * 4096 then 0 else m.byte x
  next := m.next + 1

/-- `munmap(a, len)`: the pages of the range go; a misaligned address or an empty range is refused
(`EINVAL`) and changes nothing. -/
def munmap (m : Space) (a len : ℕ) : Space :=
  if a % 4096 = 0 ∧ 0 < len ∧ a + len ≤ 2 ^ 47 then
    { m with page := fun k =>
        if a / 4096 ≤ k ∧ k < a / 4096 + pagesOf len then Option.none else m.page k }
  else m

/-- `mprotect(a, len, p)`: the pages of the range get the rights `p`.  The call is refused when the
address is misaligned or a page of the range is not mapped. -/
def mprotect (m : Space) (a len : ℕ) (p : Prot) : Space :=
  if a % 4096 = 0 ∧ allPages (fun k => (m.page k).isSome) (a / 4096) (pagesOf len) = true then
    { m with page := fun k =>
        if a / 4096 ≤ k ∧ k < a / 4096 + pagesOf len then
          (m.page k).map fun q => { q with prot := p }
        else m.page k }
  else m

/-- May the mapping at `a` of `len` bytes be resized to `len'` bytes at `b`?  In place the pages
beyond the old end must be free, elsewhere all of them, and the old pages must be mapped. -/
def remappable (m : Space) (a len b len' : ℕ) : Bool :=
  decide (a % 4096 = 0 ∧ b % 4096 = 0 ∧ 4096 ≤ b ∧ 0 < len ∧ 0 < len' ∧
      b + pagesOf len' * 4096 ≤ 2 ^ 47)
    && allPages (fun k => (m.page k).isSome) (a / 4096) (pagesOf len)
    && allPages (fun k => (m.page k).isNone ||
        (decide (a = b) && decide (k < a / 4096 + pagesOf len))) (b / 4096) (pagesOf len')

/-- `mremap(a, len, len', MREMAP_MAYMOVE)` answering `b`: the pages move with their rights and their
bytes, pages beyond the old size are fresh, and the old range is gone. -/
def mremapTo (m : Space) (a len b len' : ℕ) : Space where
  page := fun k =>
    if b / 4096 ≤ k ∧ k < b / 4096 + pagesOf len' then
      if k - b / 4096 < pagesOf len then
        (m.page (a / 4096 + (k - b / 4096))).map fun q => { q with tag := m.next }
      else some ⟨.rw, m.next⟩
    else if a / 4096 ≤ k ∧ k < a / 4096 + pagesOf len then Option.none
    else m.page k
  byte := fun x =>
    if b ≤ x ∧ x < b + pagesOf len' * 4096 then
      if x - b < pagesOf len * 4096 then m.byte (a + (x - b)) else 0
    else m.byte x
  next := m.next + 1

lemma placeable_iff :
    m.placeable a len = true ↔
    (a % 4096 = 0 ∧ 4096 ≤ a ∧ 0 < len ∧ a + pagesOf len * 4096 ≤ 2 ^ 47) ∧
      ∀ k, a / 4096 ≤ k → k < a / 4096 + pagesOf len → m.page k = none := by
  rw [placeable, Bool.and_eq_true, decide_eq_true_iff, allPages_iff]
  simp

lemma remappable_iff {len' : ℕ} : m.remappable a len b len' = true ↔
    (a % 4096 = 0 ∧ b % 4096 = 0 ∧ 4096 ≤ b ∧ 0 < len ∧ 0 < len' ∧ b + pagesOf len' * 4096 ≤ 2 ^ 47) ∧
    (∀ k, a / 4096 ≤ k → k < a / 4096 + pagesOf len → (m.page k).isSome = true) ∧
    ∀ k, b / 4096 ≤ k → k < b / 4096 + pagesOf len' → m.page k = none ∨
    (a = b ∧ k < a / 4096 + pagesOf len) := by
  rw [remappable, Bool.and_eq_true, Bool.and_eq_true, allPages_iff, allPages_iff]
  simp only [Bool.or_eq_true, Bool.and_eq_true, isNone_iff_eq_none, decide_eq_true_iff, and_assoc]

lemma pagesOf_pos (h : 0 < len) : 0 < pagesOf len := by
  unfold pagesOf; omega

lemma le_pagesOf (len : ℕ) : len ≤ pagesOf len * 4096 := by
  unfold pagesOf; omega

lemma pagesOf_lt (len : ℕ) : pagesOf len * 4096 < len + 4096 := by
  unfold pagesOf; omega

lemma page_end_le (ha : a % 4096 = 0) (hk : k < a / 4096 + n) : k * 4096 + 4096 ≤ a + n * 4096 := by
  have hcancel := Nat.div_mul_cancel (dvd_of_mod_eq_zero ha)
  omega

lemma pagesOf_mul (k : ℕ) : pagesOf (k * 4096) = k := by
  unfold pagesOf; omega

lemma mmapAt_rwPage (ha : a % 4096 = 0) (h1 : a ≤ x) (h2 : x < a + pagesOf len * 4096) :
    (m.mmapAt a len).rwPage (x / 4096) = true := by
  simp only [rwPage, mmapAt]
  rw [if_pos (by omega)]

lemma mmapAt_accessible (ha : a % 4096 = 0) (h1 : a ≤ b) (h2 : b + n ≤ a + pagesOf len * 4096) :
    (m.mmapAt a len).accessible b n = true := by
  rw [accessible_iff]
  intro x hx1 hx2
  exact mmapAt_rwPage ha (by omega) (by omega)

lemma mmapAt_byte (h1 : a ≤ x) (h2 : x < a + pagesOf len * 4096) : (m.mmapAt a len).byte x = 0 := by
  simp only [mmapAt]; rw [if_pos ⟨h1, h2⟩]

lemma sameOutside_mmapAt (ha : a % 4096 = 0) :
    SameOutside m (m.mmapAt a len) a (a + pagesOf len * 4096) := by
  intro x hx
  simp only [mmapAt]
  rw [if_neg (by omega), if_neg (by omega)]
  exact ⟨rfl, rfl⟩

lemma sameOutside_munmap (a len : ℕ) : SameOutside m (m.munmap a len) a (a + pagesOf len * 4096) := by
  intro x hx
  unfold munmap
  split
  · refine ⟨?_, rfl⟩
    show (if _ then _ else _) = _
    rw [if_neg (by omega)]
  · exact ⟨rfl, rfl⟩

lemma sameOutside_mprotect (a len : ℕ) (p : Prot) :
    SameOutside m (m.mprotect a len p) a (a + pagesOf len * 4096) := by
  intro x hx
  unfold mprotect
  split
  · refine ⟨?_, rfl⟩
    show (if _ then _ else _) = _
    rw [if_neg (by omega)]
  · exact ⟨rfl, rfl⟩

/-- The pages of the range are mapped, so that their rights can change. -/
def Mapped (m : Space) (a len : ℕ) : Prop :=
  ∀ k, a / 4096 ≤ k → k < a / 4096 + pagesOf len → (m.page k).isSome = true

lemma mprotect_page (ha : a % 4096 = 0) (hm : Mapped m a len) (p : Prot) (k : ℕ) :
    (m.mprotect a len p).page k =
      if a / 4096 ≤ k ∧ k < a / 4096 + pagesOf len then (m.page k).map fun q => { q with prot := p }
      else m.page k := by
  unfold mprotect
  rw [if_pos ⟨ha, (allPages_iff _ _ _).2 hm⟩]

lemma mprotect_refused (h : ¬(a % 4096 = 0 ∧ Mapped m a len)) (p : Prot) : m.mprotect a len p = m := by
  unfold mprotect
  rw [if_neg]
  rintro ⟨ha, hall⟩
  exact h ⟨ha, (allPages_iff _ _ _).1 hall⟩

lemma mprotect_none_dark (ha : a % 4096 = 0) (hm : Mapped m a len) (h1 : a / 4096 ≤ k)
    (h2 : k < a / 4096 + pagesOf len) : (m.mprotect a len .none).rwPage k = false := by
  unfold rwPage
  rw [mprotect_page ha hm, if_pos ⟨h1, h2⟩]
  cases m.page k <;> rfl

lemma mprotect_none_rwPage (ha : a % 4096 = 0) : (m.mprotect a 4096 .none).rwPage (a / 4096) = false := by
  have hone : pagesOf 4096 = 1 := rfl
  by_cases hm : Mapped m a 4096
  · exact mprotect_none_dark ha hm le_rfl (by omega)
  · rw [mprotect_refused (fun h => hm h.2)]
    unfold rwPage
    cases hp : m.page (a / 4096) with
    | none => rfl
    | some q =>
      refine absurd (fun k h1 h2 => ?_) hm
      rw [show k = a / 4096 by omega, hp]
      rfl

/-! A page without access gets it back only from `mmap`, `mremap` or a grant of rights. -/

section

variable (h : m.rwPage k = false)

include h

lemma munmap_dark : (m.munmap a len).rwPage k = false := by
  unfold munmap
  split
  · by_cases hk : a / 4096 ≤ k ∧ k < a / 4096 + pagesOf len
    · simp [rwPage, hk]
    · unfold rwPage at h ⊢
      simp only [if_neg hk]
      exact h
  · exact h

lemma mprotect_dark : (m.mprotect a len .none).rwPage k = false := by
  by_cases hm : a % 4096 = 0 ∧ Mapped m a len
  · by_cases hk : a / 4096 ≤ k ∧ k < a / 4096 + pagesOf len
    · exact mprotect_none_dark hm.1 hm.2 hk.1 hk.2
    · unfold rwPage at h ⊢
      rw [mprotect_page hm.1 hm.2, if_neg hk]
      exact h
  · rw [mprotect_refused hm]
    exact h

lemma mprotect_pair_dark : ((m.mprotect a len .rw).mprotect a len .none).rwPage k = false := by
  by_cases hm : a % 4096 = 0 ∧ Mapped m a len
  · have hm' : Mapped (m.mprotect a len .rw) a len := by
      intro j h1 h2
      rw [mprotect_page hm.1 hm.2, if_pos ⟨h1, h2⟩, isSome_map]
      exact hm.2 j h1 h2
    by_cases hk : a / 4096 ≤ k ∧ k < a / 4096 + pagesOf len
    · exact mprotect_none_dark hm.1 hm' hk.1 hk.2
    · unfold rwPage at h ⊢
      rw [mprotect_page hm.1 hm', if_neg hk, mprotect_page hm.1 hm.2, if_neg hk]
      exact h
  · rw [mprotect_refused hm]
    exact mprotect_dark h

end

lemma not_accessible_of_dark (h : m.rwPage (x / 4096) = false) (h1 : a ≤ x) (h2 : x < a + n) :
    ¬m.accessible a n = true := by
  intro hacc
  rw [accessible_iff] at hacc
  have := hacc x h1 h2
  rw [h] at this
  cases this

lemma accessible_pages (ha : a % 4096 = 0) (h : m.accessible a n = true) :
    m.accessible a (pagesOf n * 4096) = true := by
  rw [accessible_iff] at h ⊢
  intro x h1 h2
  unfold pagesOf at h2
  have hx := h (a + (x - a) / 4096 * 4096) (by omega) (by omega)
  rwa [show (a + (x - a) / 4096 * 4096) / 4096 = x / 4096 by omega] at hx

end Space

end Musl.Lib
