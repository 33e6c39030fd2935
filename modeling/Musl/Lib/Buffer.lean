import Mathlib

/-!
# Buffers

A buffer is a list of fixed length.  Reading and writing outside of it has no value.
-/

namespace Musl.Lib.Buffer

open List

variable {α : Type*}

def put (b : List α) (i : ℕ) (bs : List α) : Option (List α) :=
  if i + bs.length ≤ b.length then some (b.take i ++ bs ++ b.drop (i + bs.length)) else none

def sub (b : List α) (i n : ℕ) : Option (List α) :=
  if i + n ≤ b.length then some ((b.drop i).take n) else none

variable {b bs rest t u : List α} {i n : ℕ}

/-- `b'` is the buffer `b` after values have been written to it. -/
structure Written (b : List α) (i : ℕ) (bs b' : List α) : Prop where
  eq : put b i bs = some b'
  length : b'.length = b.length
  take : ∀ n ≤ i, b'.take n = b.take n
  take_add : b'.take (i + bs.length) = b.take i ++ bs
  drop : b'.drop i = bs ++ b.drop (i + bs.length)
  drop_of_le : ∀ n, i + bs.length ≤ n → b'.drop n = b.drop n

lemma exists_put (b : List α) (i : ℕ) (bs : List α) (h : i + bs.length ≤ b.length) :
    ∃ b', Written b i bs b' := by
  have hi : (b.take i).length = i := by
    rw [length_take]
    omega
  have hlen : (b.take i ++ bs).length = i + bs.length := by rw [length_append, hi]
  refine ⟨b.take i ++ bs ++ b.drop (i + bs.length), by rw [put, if_pos h], ?_, fun n hn => ?_, ?_,
    ?_, fun n hn => ?_⟩
  · rw [length_append, length_drop]
    omega
  · rw [append_assoc, take_append_of_le_length (by omega), take_take, min_eq_left hn]
  · rw [← hlen, take_left]
  · rw [append_assoc, drop_left' hi]
  · rw [drop_append, hlen, drop_of_length_le (by omega), nil_append, drop_drop, Nat.add_sub_cancel' hn]

lemma getElem?_of_drop (h : b.drop i = rest) (j : ℕ) : b[i + j]? = rest[j]? := by
  rw [← h, getElem?_drop]

lemma sub_of_drop (h : b.drop i = t ++ u) (hlen : i + t.length ≤ b.length) :
    sub b i t.length = some t := by
  rw [sub, if_pos hlen, h, take_left]

end Musl.Lib.Buffer
