import Mathlib.Data.Nat.Digits.Lemmas

/-!
# Numerals

The text of a number in a base, and a reader that takes at most so many digits and stops at the
first symbol that is none.
-/

namespace Musl.Lib.Numeral

open List Nat

/-- The digits of `n` in base `b`, highest first; 0 has one digit. -/
def numeral (b n : ℕ) : List ℕ := if n = 0 then [0] else (Nat.digits b n).reverse

/-- The value of digits that follow a number `v`. -/
def value (b v : ℕ) (ds : List ℕ) : ℕ := ds.foldl (fun v d => b * v + d) v

@[simp] lemma value_nil (b v : ℕ) : value b v [] = v := rfl

@[simp] lemma value_cons (b v d : ℕ) (ds : List ℕ) : value b v (d :: ds) = value b (b * v + d) ds := rfl

lemma value_eq_ofDigits (b : ℕ) (ds : List ℕ) : value b 0 ds = ofDigits b ds.reverse := by
  rw [value, ofDigits_eq_foldr, foldr_reverse]
  simp only [cast_id, add_comm]

lemma value_numeral (b n : ℕ) : value b 0 (numeral b n) = n := by
  by_cases hn : n = 0
  · simp [numeral, hn]
  · rw [numeral, if_neg hn, value_eq_ofDigits, reverse_reverse, ofDigits_digits]

variable {b n : ℕ}

lemma lt_of_mem_numeral {d : ℕ} (hb : 1 < b) (hd : d ∈ numeral b n) : d < b := by
  by_cases hn : n = 0
  · have hzero : d = 0 := by simpa [numeral, hn] using hd
    omega
  · rw [numeral, if_neg hn, mem_reverse] at hd
    exact digits_lt_base hb hd

lemma numeral_ne_nil (b n : ℕ) : numeral b n ≠ [] := by
  by_cases hn : n = 0
  · simp [numeral, hn]
  · simp [numeral, hn, digits_ne_nil_iff_ne_zero]

lemma length_numeral_le {k : ℕ} (hb : 1 < b) (hk : 0 < k) (h : n < b ^ k) : (numeral b n).length ≤ k := by
  by_cases hn : n = 0
  · rw [numeral, if_pos hn]
    exact hk
  · rw [numeral, if_neg hn, length_reverse]
    exact (digits_length_le_iff hb n).2 h

@[simp] lemma numeral_zero (b : ℕ) : numeral b 0 = [0] := if_pos rfl

lemma head_numeral_eq_zero_iff (b n : ℕ) : (numeral b n).head? = some 0 ↔ n = 0 := by
  constructor
  · intro hhead
    by_contra hn
    rw [numeral, if_neg hn, head?_reverse,
      getLast?_eq_some_getLast (digits_ne_nil_iff_ne_zero.2 hn)] at hhead
    exact getLast_digit_ne_zero b hn (Option.some.inj hhead)
  · intro hn
    simp [hn]

section

variable {ds : List ℕ} (hb : 1 < b) (hds : ∀ d ∈ ds, d < b)

include hb hds

lemma value_lt : value b 0 ds < b ^ ds.length := by
  rw [value_eq_ofDigits, ← length_reverse]
  exact ofDigits_lt_base_pow_length hb fun d hd => hds d (mem_reverse.1 hd)

lemma numeral_value (hne : ds ≠ []) (hlead : 1 < ds.length → ds.head? ≠ some 0) :
    numeral b (value b 0 ds) = ds := by
  by_cases hzero : ds.head? = some 0
  · obtain ⟨ds, rfl⟩ := head?_eq_some_iff.1 hzero
    have hnil : ds = [] := length_eq_zero_iff.1 (by
      by_contra hlen
      exact hlead (by rw [length_cons]; omega) rfl)
    simp [hnil]
  · have hlast : ∀ h, ds.reverse.getLast h ≠ 0 := by
      intro h heq
      rw [getLast_reverse] at heq
      exact hzero (by rw [head?_eq_some_head hne, heq])
    have hdigits := digits_ofDigits b hb ds.reverse (fun d hd => hds d (mem_reverse.1 hd)) hlast
    have hpos : ofDigits b ds.reverse ≠ 0 := by
      intro h0
      rw [h0, digits_zero, eq_comm, reverse_eq_nil_iff] at hdigits
      exact hne hdigits
    rw [numeral, value_eq_ofDigits, if_neg hpos, hdigits, reverse_reverse]

end

section Text

variable {α : Type} (sym : ℕ → α) (digit : α → Option ℕ) (b : ℕ)

def text (n : ℕ) : List α := (numeral b n).map sym

/-- Reads at most `k` digits after the number `v`: the number and how many there were. -/
def scan : ℕ → ℕ → List α → ℕ × ℕ
  | 0, v, _ => (v, 0)
  | _ + 1, v, [] => (v, 0)
  | k + 1, v, c :: s =>
    match digit c with
    | none => (v, 0)
    | some d => ((scan k (b * v + d) s).1, (scan k (b * v + d) s).2 + 1)

/-- `rest` does not go on with a digit. -/
def Stops (rest : List α) : Prop := ∀ c ∈ rest.head?, digit c = none

variable {sym digit b}

lemma stops_nil : Stops digit [] := by
  intro c hc
  cases hc

variable {rest : List α} {k n : ℕ}

lemma stops_cons {c : α} (h : digit c = none) : Stops digit (c :: rest) := by
  intro c' hc'
  rw [← Option.some.inj hc', h]

lemma text_ne_nil (n : ℕ) : text sym b n ≠ [] := by
  simp [text, numeral_ne_nil]

lemma length_text_le (hb : 1 < b) (hk : 0 < k) (h : n < b ^ k) : (text sym b n).length ≤ k := by
  rw [text, length_map]
  exact length_numeral_le hb hk h

lemma scan_of_stops (k v : ℕ) (h : Stops digit rest) : scan digit b k v rest = (v, 0) := by
  match k, rest with
  | 0, _ => rfl
  | _ + 1, [] => rfl
  | k + 1, c :: rest => simp only [scan, h c rfl]

variable {t : List α} {ds : List ℕ} {v : ℕ}

/-- The digits at the start are read, up to the `k`-th or to the first symbol that is none. -/
lemma scan_append (ht : Forall₂ (fun c d => digit c = some d) t ds) (hk : t.length ≤ k)
    (hrest : t.length = k ∨ Stops digit rest) :
    scan digit b k v (t ++ rest) = (value b v ds, t.length) := by
  induction ht generalizing k v with
  | nil =>
    rcases hrest with rfl | hrest
    · rfl
    · exact scan_of_stops k v hrest
  | @cons c d t ds hd ht ih =>
    match k, hk with
    | k + 1, hk =>
      have hrest' : t.length = k ∨ Stops digit rest := hrest.imp_left Nat.succ.inj
      simp [scan, hd, ih (le_of_succ_le_succ hk) hrest', value_cons]

lemma exists_scan (digit : α → Option ℕ) (b k v : ℕ) (s : List α) :
    ∃ t ds rest, s = t ++ rest ∧ Forall₂ (fun c d => digit c = some d) t ds ∧ t.length ≤ k ∧
      (t.length = k ∨ Stops digit rest) ∧ scan digit b k v s = (value b v ds, t.length) := by
  induction k generalizing v s with
  | zero => exact ⟨[], [], s, rfl, .nil, le_rfl, .inl rfl, rfl⟩
  | succ k ih =>
    cases s with
    | nil => exact ⟨[], [], [], rfl, .nil, zero_le _, .inr stops_nil, rfl⟩
    | cons c s =>
      cases hc : digit c with
      | none =>
        exact ⟨[], [], c :: s, rfl, .nil, zero_le _,
          .inr (stops_cons hc), by simp only [scan, hc]; rfl⟩
      | some d =>
        obtain ⟨t, ds, rest, rfl, ht, hlen, hrest, hscan⟩ := ih (b * v + d) s
        refine ⟨c :: t, d :: ds, rest, rfl, .cons hc ht, succ_le_succ hlen,
          hrest.imp_left (congrArg succ), ?_⟩
        simp [scan, hc, hscan, value_cons]

lemma digits_map (h : ∀ d ∈ ds, digit (sym d) = some d) : Forall₂ (fun c d => digit c = some d)
    (ds.map sym) ds :=
  forall₂_map_left_iff.2 (forall₂_same.2 h)

lemma scan_text_base (c : ℕ) (hb : 1 < b) (hk : 0 < k) (hn : n < b ^ k)
    (hdigit : ∀ d < b, digit (sym d) = some d)
    (hrest : (text sym b n).length = k ∨ Stops digit rest) :
    scan digit c k 0 (text sym b n ++ rest) = (value c 0 (numeral b n), (text sym b n).length) := by
  have hds : Forall₂ (fun c d => digit c = some d) ((numeral b n).map sym) (numeral b n) :=
    digits_map fun d hd => hdigit d (lt_of_mem_numeral hb hd)
  rw [text, scan_append hds (by rw [length_map]; exact length_numeral_le hb hk hn) hrest]

lemma scan_text (hb : 1 < b) (hk : 0 < k) (hn : n < b ^ k) (hdigit : ∀ d < b, digit (sym d) = some d)
    (hrest : (text sym b n).length = k ∨ Stops digit rest) :
    scan digit b k 0 (text sym b n ++ rest) = (n, (text sym b n).length) := by
  rw [scan_text_base b hb hk hn hdigit hrest, value_numeral]

end Text

end Musl.Lib.Numeral
