import Mathlib

/-!
# Domain names in a message

A name in a message is a row of labels, each with its length before it, that ends with a zero byte or
with a pointer to an earlier place of the message where the rest of the name stands.

`NameAt m b o e ls` says that the labels `ls` stand at `o`: their own bytes end before `e`, and a pointer
among them leads to a place whose bytes, and what they lead to, end before `b`.  So a walk over a name
takes no byte twice, and bytes after `e` do not matter (`NameAt.congr`).
-/

namespace Musl.Lib.DnsName

open List Nat

abbrev Message := ℕ → UInt8

/-- The `n` bytes from `o` on. -/
def bytes (m : Message) (o n : ℕ) : List UInt8 := (List.range n).map fun i => m (o + i)

/-- The message after the bytes `bs` were stored at `o`. -/
def write (m : Message) (o : ℕ) (bs : List UInt8) : Message :=
  fun i => if o ≤ i ∧ i < o + bs.length then bs.getD (i - o) 0 else m i

@[simp] lemma bytes_length (m : Message) (o n : ℕ) : (bytes m o n).length = n := by
  simp [bytes]

variable {m m' : Message} {o off b e p : ℕ} {c : UInt8} {l : List UInt8} {ls rest : List (List UInt8)}

lemma bytes_congr {n : ℕ} (h : ∀ i, o ≤ i → i < o + n → m' i = m i) : bytes m' o n = bytes m o n := by
  apply map_congr_left
  intro i hi
  rw [mem_range] at hi
  exact h _ (by omega) (by omega)

lemma bytes_add (m : Message) (o n k : ℕ) : bytes m o (n + k) = bytes m o n ++ bytes m (o + n) k := by
  simp only [bytes, range_add, map_append, map_map]
  congr 1
  apply map_congr_left
  intro i _
  simp [add_assoc]

lemma write_out (m : Message) {i : ℕ} {bs : List UInt8} (h : i < o ∨ o + bs.length ≤ i) :
    write m o bs i = m i := if_neg (by omega)

lemma bytes_write (m : Message) (o : ℕ) (bs : List UInt8) : bytes (write m o bs) o bs.length = bs := by
  apply ext_getElem
  · simp
  · intro i hi _
    simp only [bytes_length] at hi
    simp [bytes, write, hi]

/-! ### Pointers -/

def target (m : Message) (o : ℕ) : ℕ := (m o &&& 0x3f).toNat <<< 8 ||| (m (o + 1)).toNat

lemma length_bits (h : c.toNat ≤ 63) : c &&& 0xc0 = 0 := by
  have hbits : ∀ n < 64, n &&& 192 = 0 := by decide
  apply UInt8.toNat_inj.1
  rw [UInt8.toNat_and]
  exact hbits _ (by omega)

lemma length_le_of_bits (h : c &&& 0xc0 = 0) : c.toNat ≤ 63 := by
  have hbits : ∀ n < 256, n &&& 192 = 0 → n ≤ 63 := by decide +kernel
  exact hbits _ c.toNat_lt (by simpa using congrArg UInt8.toNat h)

lemma pointer_bits (h : off < 0x4000) : UInt8.ofNat (0xc0 ||| off >>> 8) &&& 0xc0 = 0xc0 := by
  have hbits : ∀ n < 64, (0xc0 ||| n) % 256 &&& 192 = 192 := by decide
  apply UInt8.toNat_inj.1
  exact hbits _ (by omega)

lemma target_eq (h : off < 0x4000) (h0 : m o = UInt8.ofNat (0xc0 ||| off >>> 8))
    (h1 : m (o + 1) = UInt8.ofNat off) :
    target m o = off := by
  have hbits : ∀ n < 64, (0xc0 ||| n) % 256 &&& 63 = n := by decide
  have hhigh : (m o &&& 0x3f).toNat = off / 256 := by
    rw [h0, UInt8.toNat_and, shiftRight_eq_div_pow]
    exact hbits _ (by omega)
  have hlow : (m (o + 1)).toNat = off % 256 := by
    rw [h1, UInt8.toNat_ofNat']
  rw [target, ← shiftLeft_add_eq_or_of_lt (by omega)]
  omega

/-! ### Names -/

/-- The label `l` with its length stands at `o`. -/
structure LabelAt (m : Message) (o : ℕ) (l : List UInt8) : Prop where
  length : (m o).toNat = l.length
  pos : 0 < l.length
  le : l.length ≤ 63
  text : bytes m (o + 1) l.length = l

inductive NameAt (m : Message) : ℕ → ℕ → ℕ → List (List UInt8) → Prop where
  | root {b o : ℕ} : m o = 0 → NameAt m b o (o + 1) []
  | label {b o e : ℕ} {l : List UInt8} {ls : List (List UInt8)} :
    LabelAt m o l → NameAt m b (o + 1 + l.length) e ls → NameAt m b o e (l :: ls)
  | pointer {b o c e : ℕ} {ls : List (List UInt8)} :
    m o &&& 0xc0 = 0xc0 → NameAt m c (target m o) e ls → c ≤ target m o → e ≤ b → NameAt m b o (o + 2) ls

/-- The labels `ls` stand in a row from `o` to `p`. -/
def LabelsAt (m : Message) : ℕ → ℕ → List (List UInt8) → Prop
  | o, p, [] => o = p
  | o, p, l :: ls => LabelAt m o l ∧ LabelsAt m (o + 1 + l.length) p ls

lemma LabelAt.congr (h : LabelAt m o l) (hm : ∀ i, o ≤ i → i < o + 1 + l.length → m' i = m i) :
    LabelAt m' o l where
  length := by rw [hm o (le_refl o) (by omega), h.length]
  pos := h.pos
  le := h.le
  text := by rw [bytes_congr fun i h1 h2 => hm i (by omega) (by omega), h.text]

lemma LabelAt.ne_zero (h : LabelAt m o l) : m o ≠ 0 := by
  intro h0
  have hlen := h.length
  rw [h0] at hlen
  exact absurd hlen h.pos.ne

lemma NameAt.lt (h : NameAt m b o e ls) : o < e := by
  induction h with
  | root => omega
  | label _ _ ih => omega
  | pointer => omega

/-- **Only the bytes of a name matter**, and those before `b` that it leads to. -/
theorem NameAt.congr (h : NameAt m b o e ls) (hb : ∀ i, i < b → m' i = m i)
    (hm : ∀ i, o ≤ i → i < e → m' i = m i) :
    NameAt m' b o e ls := by
  induction h with
  | root h0 => exact .root (by rw [hm _ (le_refl _) (by omega), h0])
  | label hl hrest ih =>
    have hlt := hrest.lt
    refine .label (hl.congr fun i h1 h2 => hm i h1 (by omega)) (ih hb fun i h1 h2 => hm i (by omega) h2)
  | @pointer b o c e ls hbits hrest hc he ih =>
    have hlt := hrest.lt
    have h0 := hm o (le_refl _) (by omega)
    have h1 := hm (o + 1) (by omega) (by omega)
    have htarget : target m' o = target m o := by
      rw [target, target, h0, h1]
    refine .pointer (c := c) (by rw [h0, hbits]) ?_ (by rw [htarget]; exact hc) he
    rw [htarget]
    exact ih (fun i hi => hb i (by omega)) fun i _ h2 => hb i (by omega)

section

variable (h : LabelsAt m o p ls)

include h

lemma LabelsAt.nameAt (hrest : NameAt m b p e rest) : NameAt m b o e (ls ++ rest) := by
  induction ls generalizing o with
  | nil =>
    cases h
    exact hrest
  | cons l ls ih => exact .label h.1 (ih h.2)

lemma LabelsAt.le : o ≤ p := by
  induction ls generalizing o with
  | nil => exact le_of_eq h
  | cons l ls ih =>
    have := ih h.2
    omega

lemma LabelsAt.congr (hm : ∀ i, o ≤ i → i < p → m' i = m i) : LabelsAt m' o p ls := by
  induction ls generalizing o with
  | nil => exact h
  | cons l ls ih =>
    have hle := LabelsAt.le h.2
    exact ⟨h.1.congr fun i h1 h2 => hm i h1 (by omega), ih h.2 fun i h1 h2 => hm i (by omega) h2⟩

end

lemma NameAt.labels_pos (h : NameAt m b o e ls) : ∀ l ∈ ls, 0 < l.length := by
  induction h with
  | root => simp
  | label hl _ ih => exact forall_mem_cons.2 ⟨hl.pos, ih⟩
  | pointer _ _ _ _ ih => exact ih

/-- Labels and pointers lead from a place to the labels `ls`, wherever the pointers go; a byte with
one of the two high bits is taken for the start of a pointer. -/
inductive Follows (m : Message) : ℕ → List (List UInt8) → Prop where
  | root {o : ℕ} : m o = 0 → Follows m o []
  | label {o : ℕ} {l : List UInt8} {ls : List (List UInt8)} :
    LabelAt m o l → Follows m (o + 1 + l.length) ls → Follows m o (l :: ls)
  | pointer {o : ℕ} {ls : List (List UInt8)} : m o &&& 0xc0 ≠ 0 → Follows m (target m o) ls →
    Follows m o ls

lemma Follows.labels_pos (h : Follows m o ls) : ∀ l ∈ ls, 0 < l.length := by
  induction h with
  | root => simp
  | label hl _ ih => exact forall_mem_cons.2 ⟨hl.pos, ih⟩
  | pointer _ _ ih => exact ih

/-! ### The text of a name -/

def text : List (List UInt8) → List UInt8
  | [] => []
  | [l] => l
  | l :: l' :: ls => l ++ 46 :: text (l' :: ls)

lemma text_cons (h : ls ≠ []) : text (l :: ls) = l ++ 46 :: text ls := by
  cases ls with
  | nil => exact absurd rfl h
  | cons => rfl

lemma text_append (hls : ls ≠ []) (hrest : rest ≠ []) :
    text (ls ++ rest) = text ls ++ 46 :: text rest := by
  induction ls with
  | nil => exact absurd rfl hls
  | cons l ls ih =>
    cases ls with
    | nil => exact text_cons hrest
    | cons l' ls =>
      have hcons : text (l :: (l' :: ls ++ rest)) = l ++ 46 :: text (l' :: ls ++ rest) := rfl
      rw [cons_append, hcons, ih (cons_ne_nil l' ls), text_cons (cons_ne_nil l' ls)]
      simp

lemma two_mul_length_le (h : ∀ l ∈ ls, 0 < l.length) : 2 * ls.length ≤ (text ls).length + 1 := by
  induction ls with
  | nil => simp
  | cons l ls ih =>
    have hl := h l mem_cons_self
    have hls := ih (forall_mem_cons.1 h).2
    cases ls with
    | nil =>
      simp only [text, length_cons, length_nil]
      omega
    | cons l' ls =>
      simp only [text, length_cons, length_append] at hls ⊢
      omega

end Musl.Lib.DnsName
