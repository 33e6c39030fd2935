import Mathlib.Data.Nat.Bitwise
import Mathlib.Data.Set.Insert

/-!
# Relative relocations in the compact form

`do_relr_relocs` of `ldso/dynlink.c` adds the base of a library to the words that a table names.  An
even entry is the offset of a word; an odd one is a bitmap of the 63 words that follow, and another
bitmap after it is about the 63 words after those.

Pointers are offsets from the base, and memory is a word for each offset.
-/

namespace Musl.Ldso.Relr

open List Nat

abbrev Words := ℕ → BitVec 64

/-- `*reloc_addr += (size_t)base`. -/
def bump (base : BitVec 64) (addr : ℕ) (m : Words) : Words := Function.update m addr (m addr + base)

def bitmapLoop (base : BitVec 64) (addr bitmap i : ℕ) (m : Words) : Words :=
  if bitmap >>> 1 = 0 then m
  else bitmapLoop base addr (bitmap >>> 1) (i + 1)
    (if bitmap >>> 1 &&& 1 = 1 then bump base (addr + 8 * i) m else m)
termination_by bitmap
decreasing_by
  rw [shiftRight_eq_div_pow] at *
  omega

def relrLoop (base : BitVec 64) : List ℕ → ℕ → Words → Words
  | [], _, m => m
  | r :: relr, addr, m =>
    if r &&& 1 = 0 then relrLoop base relr (r + 8) (bump base r m)
    else relrLoop base relr (addr + 8 * 63) (bitmapLoop base addr r 0 m)

/-- `do_relr_relocs`; the dynamic linker itself has been relocated before. -/
def doRelrRelocs (isLdso : Bool) (base : BitVec 64) (relr : List ℕ) (m : Words) : Words :=
  if isLdso then m else relrLoop base relr 0 m

/-! ### The table -/

/-- The entries for more offsets, while `acc` is the bitmap of words from `at_` on. -/
def encodeFrom (at_ acc : ℕ) : List ℕ → List ℕ
  | [] => if acc = 0 then [] else [2 * acc + 1]
  | o :: os =>
    if o < at_ + 8 * 63 then encodeFrom at_ (acc + 2 ^ ((o - at_) / 8)) os
    else if acc = 0 then o :: encodeFrom (o + 8) 0 os
    else if o < at_ + 8 * 126 then (2 * acc + 1) :: encodeFrom (at_ + 8 * 63)
    (2 ^ ((o - (at_ + 8 * 63)) / 8)) os
    else (2 * acc + 1) :: o :: encodeFrom (o + 8) 0 os

/-- The standard table: the first offset, bitmaps as long as they are not empty, and so on. -/
def encode : List ℕ → List ℕ
  | [] => []
  | o :: os => o :: encodeFrom (o + 8) 0 os

/-! ### Words to which the base is added -/

/-- The base is added to the words of a set, and no other word changes. -/
def Adds (base : BitVec 64) (S : Set ℕ) (m m' : Words) : Prop :=
  ∀ x, (x ∈ S → m' x = m x + base) ∧ (x ∉ S → m' x = m x)

variable {base : BitVec 64} {S T : Set ℕ} {m m' m'' : Words} {at_ acc : ℕ} {os : List ℕ}

lemma Adds.congr (h : Adds base S m m') (heq : ∀ x, x ∈ T ↔ x ∈ S) : Adds base T m m' :=
  fun x => ⟨fun hx => (h x).1 ((heq x).1 hx), fun hx => (h x).2 (mt (heq x).2 hx)⟩

lemma Adds.trans (h : Adds base S m m') (h' : Adds base T m' m'') (hd : ∀ x ∈ S, x ∉ T) :
    Adds base (S ∪ T) m m'' := by
  intro x
  by_cases hS : x ∈ S
  · exact ⟨fun _ => by rw [(h' x).2 (hd x hS), (h x).1 hS], fun hn => absurd (.inl hS) hn⟩
  · constructor
    · intro hx
      rw [(h' x).1 (hx.resolve_left hS), (h x).2 hS]
    · intro hn
      rw [(h' x).2 fun hT => hn (.inr hT), (h x).2 hS]

lemma adds_bump (a : ℕ) (m : Words) : Adds base {a} m (bump base a m) := by
  intro x
  by_cases hx : x = a <;> simp [bump, hx]

lemma adds_empty (h : ∀ x, x ∉ S) (m : Words) : Adds base S m m :=
  fun x => ⟨fun hx => absurd hx (h x), fun _ => rfl⟩

def bitWords (addr acc : ℕ) : Set ℕ := {x | ∃ k, acc.testBit k = true ∧ x = addr + 8 * k}

@[simp] lemma bitWords_zero (a : ℕ) : bitWords a 0 = ∅ := by simp [bitWords]

lemma mem_bitWords_half (x a n : ℕ) :
    x ∈ bitWords a n ↔ n % 2 = 1 ∧ x = a ∨ x ∈ bitWords (a + 8) (n / 2) := by
  constructor
  · rintro ⟨k, hk, rfl⟩
    cases k with
    | zero => exact .inl ⟨by simpa using hk, rfl⟩
    | succ k => exact .inr ⟨k, by rwa [testBit_succ] at hk, by omega⟩
  · rintro (⟨hodd, rfl⟩ | ⟨k, hk, rfl⟩)
    · exact ⟨0, by simpa using hodd, rfl⟩
    · exact ⟨k + 1, by rwa [testBit_succ], by omega⟩

lemma bitmapLoop_adds (base : BitVec 64) (addr bitmap i : ℕ) (m : Words) :
    Adds base (bitWords (addr + 8 * i) (bitmap / 2)) m (bitmapLoop base addr bitmap i m) := by
  induction bitmap using Nat.strong_induction_on generalizing i m with
  | h bitmap ih =>
    rw [bitmapLoop, shiftRight_one, and_one_is_mod]
    split_ifs with hzero hodd
    · exact adds_empty (by simp [hzero]) m
    · have hrest := (adds_bump (addr + 8 * i) m).trans (ih (bitmap / 2) (by omega) (i + 1) _) (by
        rintro _ rfl ⟨k, -, hk⟩
        omega)
      exact hrest.congr fun x => by simp [mem_bitWords_half x (addr + 8 * i), hodd, mul_add, add_assoc]
    · exact (ih (bitmap / 2) (by omega) (i + 1) m).congr fun x => by
        simp [mem_bitWords_half x (addr + 8 * i), hodd, mul_add, add_assoc]

/-- A table, read with the pointer at a word, adds the base to the words of a set; its entries are
values of `size_t`. -/
structure Table (base : BitVec 64) (relr : List ℕ) (addr : ℕ) (S : Set ℕ) : Prop where
  adds : ∀ m, Adds base S m (relrLoop base relr addr m)
  fits : (∀ x ∈ S, x < 2 ^ 64) → ∀ r ∈ relr, r < 2 ^ 64

variable {relr : List ℕ} {addr o : ℕ}

lemma Table.congr (h : Table base relr addr S) (heq : ∀ x, x ∈ T ↔ x ∈ S) : Table base relr addr T :=
  ⟨fun m => (h.adds m).congr heq, fun hT => h.fits fun x hx => hT x ((heq x).2 hx)⟩

lemma table_nil : Table base [] addr ∅ := ⟨adds_empty (by simp), by simp⟩

lemma Table.address (h : Table base relr (o + 8) S) (ho : 8 ∣ o) (hS : o ∉ S) (addr : ℕ) :
    Table base (o :: relr) addr ({o} ∪ S) where
  adds m := by
    have heven : o &&& 1 = 0 := by
      rw [and_one_is_mod]
      omega
    rw [relrLoop, if_pos heven]
    exact (adds_bump o m).trans (h.adds _) (by simpa)
  fits hsize := forall_mem_cons.2 ⟨hsize o (.inl rfl), h.fits fun x hx => hsize x (.inr hx)⟩

lemma Table.bitmap (h : Table base relr (addr + 8 * 63) S) (hacc : acc < 2 ^ 63)
    (hS : ∀ x ∈ bitWords addr acc, x ∉ S) :
    Table base ((2 * acc + 1) :: relr) addr (bitWords addr acc ∪ S) where
  adds m := by
    have hodd : ¬(2 * acc + 1) &&& 1 = 0 := by
      rw [and_one_is_mod]
      omega
    have hbits := bitmapLoop_adds base addr (2 * acc + 1) 0 m
    rw [mul_zero, add_zero, show (2 * acc + 1) / 2 = acc by omega] at hbits
    rw [relrLoop, if_neg hodd]
    exact hbits.trans (h.adds _) hS
  fits hsize := forall_mem_cons.2 ⟨by omega, h.fits fun x hx => hsize x (.inr hx)⟩

lemma mem_bitWords_add {a : ℕ} (ha : 8 ∣ a) (ho : 8 ∣ o) (hle : a ≤ o)
    (hacc : acc < 2 ^ ((o - a) / 8)) (x : ℕ) :
    x ∈ bitWords a (acc + 2 ^ ((o - a) / 8)) ↔ x ∈ bitWords a acc ∨ x = o := by
  have hbit : ∀ k, (acc + 2 ^ ((o - a) / 8)).testBit k = true ↔ acc.testBit k = true ∨
      k = (o - a) / 8 := by
    intro k
    have hor := two_pow_add_eq_or_of_lt hacc 1
    rw [mul_one] at hor
    rw [add_comm, hor, testBit_or, testBit_two_pow, Bool.or_eq_true, decide_eq_true_eq,
      or_comm, @eq_comm _ k]
  constructor
  · rintro ⟨k, hk, rfl⟩
    rcases (hbit k).1 hk with hk | rfl
    · exact .inl ⟨k, hk, rfl⟩
    · exact .inr (by omega)
  · rintro (⟨k, hk, rfl⟩ | rfl)
    · exact ⟨k, (hbit k).2 (.inl hk), rfl⟩
    · exact ⟨_, (hbit _).2 (.inr rfl), by omega⟩

/-- The words that are still to come are behind those of the bitmap. -/
def Behind (at_ acc : ℕ) (os : List ℕ) : Prop := ∀ o ∈ os, at_ ≤ o ∧ acc < 2 ^ ((o - at_) / 8)

lemma Behind.add (hat : 8 ∣ at_) (ho : 8 ∣ o) (hle : at_ ≤ o) (hacc : acc < 2 ^ ((o - at_) / 8))
    (hlt : ∀ x ∈ os, o < x) (haligned : ∀ x ∈ os, 8 ∣ x) : Behind at_ (acc + 2 ^ ((o - at_) / 8)) os := by
  intro x hx
  have hox := hlt x hx
  have hx8 := haligned x hx
  have hpow : 2 ^ ((o - at_) / 8 + 1) ≤ 2 ^ ((x - at_) / 8) := Nat.pow_le_pow_right (by decide) (by omega)
  rw [pow_succ] at hpow
  exact ⟨by omega, by omega⟩

lemma Behind.zero (ho : 8 ∣ o) (hlt : ∀ x ∈ os, o < x) (haligned : ∀ x ∈ os, 8 ∣ x) :
    Behind (o + 8) 0 os := by
  intro x hx
  have hox := hlt x hx
  have hx8 := haligned x hx
  exact ⟨by omega, Nat.two_pow_pos _⟩

lemma encodeFrom_table (hat : 8 ∣ at_) (hacc : acc < 2 ^ 63) (hos : os.Pairwise (· < ·))
    (haligned : ∀ o ∈ os, 8 ∣ o) (hbehind : Behind at_ acc os) :
    Table base (encodeFrom at_ acc os) at_ (bitWords at_ acc ∪ {x | x ∈ os}) := by
  induction os generalizing at_ acc with
  | nil =>
    rw [encodeFrom]
    split_ifs with hzero
    · exact table_nil.congr (by simp [hzero])
    · exact (table_nil.bitmap hacc (by simp)).congr (by simp)
  | cons o os ih =>
    obtain ⟨hlt, hos⟩ := pairwise_cons.1 hos
    obtain ⟨ho, haligned⟩ := forall_mem_cons.1 haligned
    obtain ⟨⟨hle, hbit⟩, -⟩ := forall_mem_cons.1 hbehind
    have hne : o ∉ os := fun hmem => lt_irrefl o (hlt o hmem)
    have haddress := fun addr =>
      ((ih (by omega) (by decide) hos haligned (.zero ho hlt haligned)).address ho (by simpa) addr).congr
        (T := {x | x ∈ o :: os}) (by simp)
    -- The word joins a bitmap that it is behind.
    have hbits : ∀ {a acc}, 8 ∣ a → a ≤ o → o < a + 8 * 63 → acc < 2 ^ ((o - a) / 8) →
        Table base (encodeFrom a (acc + 2 ^ ((o - a) / 8)) os) a
        (bitWords a acc ∪ {x | x ∈ o :: os}) := by
      intro a acc ha hao hoa hacc
      have hpow : 2 ^ ((o - a) / 8 + 1) ≤ 2 ^ 63 := Nat.pow_le_pow_right (by decide) (by omega)
      rw [pow_succ] at hpow
      refine (ih ha (by omega) hos haligned (.add ha ho hao hacc hlt haligned)).congr fun x => ?_
      simp [mem_bitWords_add ha ho hao hacc, or_assoc]
    have hbefore : at_ + 8 * 63 ≤ o → ∀ x ∈ bitWords at_ acc, x ≠ o ∧ x ∉ os := by
      rintro hfar _ ⟨k, hk, rfl⟩
      have hk63 : k < 63 :=
        (Nat.pow_lt_pow_iff_right (by decide)).1 ((ge_two_pow_of_testBit hk).trans_lt hacc)
      exact ⟨by omega, fun hmem => absurd (hlt _ hmem) (by omega)⟩
    rw [encodeFrom]
    split_ifs with hnear hzero hnext
    · exact hbits hat hle hnear hbit
    · exact (haddress at_).congr (by simp [hzero])
    · have hchain := hbits (a := at_ + 8 * 63) (by omega) (by omega) (by omega) (Nat.two_pow_pos _)
      rw [zero_add] at hchain
      exact (hchain.bitmap hacc (by simpa using hbefore (by omega))).congr (by simp)
    · exact ((haddress _).bitmap hacc (by simpa using hbefore (by omega))).congr (by simp)

/-- The table of increasing aligned offsets adds the base to the words at the offsets, to each once,
and to no other; its entries are values of `size_t` if the offsets are.  For the dynamic linker
itself nothing is left to do. -/
theorem relr_exact (hos : os.Pairwise (· < ·)) (haligned : ∀ o ∈ os, 8 ∣ o) (m : Words) :
    Adds base {x | x ∈ os} m (doRelrRelocs false base (encode os) m) ∧
      ((∀ o ∈ os, o < 2 ^ 64) → ∀ r ∈ encode os, r < 2 ^ 64) ∧
      doRelrRelocs true base (encode os) m = m := by
  have htable : Table base (encode os) 0 {x | x ∈ os} := by
    cases os with
    | nil => exact table_nil.congr (by simp)
    | cons o os =>
      obtain ⟨hlt, hos⟩ := pairwise_cons.1 hos
      obtain ⟨ho, haligned⟩ := forall_mem_cons.1 haligned
      have hne : o ∉ os := fun hmem => lt_irrefl o (hlt o hmem)
      have hrest : Table base _ (o + 8) _ :=
        encodeFrom_table (by omega) (by decide) hos haligned (.zero ho hlt haligned)
      exact (hrest.address ho (by simpa) 0).congr (by simp)
  exact ⟨htable.adds m, htable.fits, rfl⟩

theorem relr_exact_runs :
    encode [8, 16, 2048] = [8, 3, 2048] ∧
      Adds 4096 {x | x ∈ [8, 16, 2048]} (fun _ => 1)
      (doRelrRelocs false 4096 (encode [8, 16, 2048]) fun _ => 1) :=
  ⟨rfl, (relr_exact (by decide) (by decide) _).1⟩

end Musl.Ldso.Relr
