import Mathlib.Data.List.Nodup

/-!
# Lists as finite maps

The elements of a list may have a key each, and no two have the same.  Such a list is a finite map
from keys to elements: `lookup` is the first element that has the key, and replacing an element,
adding one at the end and dropping those of a key are an update each.
-/

namespace Musl.Lib.Keyed

open List Option Function

variable {α κ : Type*} {key key' : α → Option κ} {pre post l : List α} {a b : α} {k : κ}

/-! ### Different keys -/

def Distinct (key : α → Option κ) (l : List α) : Prop := (l.filterMap key).Nodup

lemma Distinct.congr (h : Distinct key l) (heq : ∀ a ∈ l, key' a = key a) : Distinct key' l := by
  rwa [Distinct, filterMap_congr heq]

lemma Distinct.filter (h : Distinct key l) (p : α → Bool) : Distinct key (l.filter p) :=
  h.sublist (Sublist.filterMap _ filter_sublist)

lemma Distinct.other (h : Distinct key (pre ++ a :: post)) (ha : key a = some k) :
    (∀ b ∈ pre, key b ≠ some k) ∧ ∀ b ∈ post, key b ≠ some k := by
  rw [Distinct, filterMap_append, filterMap_cons_some ha, nodup_append] at h
  obtain ⟨-, hpost, hpre⟩ := h
  constructor
  · intro b hb hk
    exact hpre k (mem_filterMap.2 ⟨b, hb, hk⟩) k mem_cons_self rfl
  · intro b hb hk
    exact (nodup_cons.1 hpost).1 (mem_filterMap.2 ⟨b, hb, hk⟩)

lemma Distinct.replace (h : Distinct key (pre ++ a :: post)) (hab : key b = key a) :
    Distinct key (pre ++ b :: post) := by
  rw [Distinct, filterMap_append, filterMap_cons, hab, ← filterMap_cons, ← filterMap_append]
  exact h

lemma Distinct.snoc (h : Distinct key l) (hnew : ∀ a ∈ l, key a ≠ some k) (hb : key b = some k) :
    Distinct key (l ++ [b]) := by
  rw [Distinct, filterMap_append, filterMap_cons_some hb, nodup_append]
  refine ⟨h, nodup_singleton k, ?_⟩
  rintro j hj j' hj' rfl
  obtain ⟨a, ha, hak⟩ := mem_filterMap.1 hj
  rw [filterMap_nil, mem_singleton] at hj'
  exact hnew a ha (hj' ▸ hak)

/-! ### The element of a key -/

variable [DecidableEq κ]

def lookup (key : α → Option κ) (l : List α) (k : κ) : Option α := l.find? fun a => key a = some k

lemma lookup_cons_self (ha : key a = some k) : lookup key (a :: l) k = some a := by
  simp [lookup, ha]

lemma lookup_cons_ne (ha : key a ≠ some k) : lookup key (a :: l) k = lookup key l k := by
  simp [lookup, ha]

lemma lookup_append : lookup key (pre ++ post) k = (lookup key pre k).or (lookup key post k) :=
  find?_append

lemma lookup_none (h : ∀ a ∈ l, key a ≠ some k) : lookup key l k = none :=
  find?_eq_none.2 fun a ha => by simpa using h a ha

lemma lookup_some (h : lookup key l k = some a) : a ∈ l ∧ key a = some k :=
  ⟨mem_of_find?_eq_some h, by simpa using find?_some h⟩

lemma lookup_congr (heq : ∀ a ∈ l, key' a = key a) : lookup key' l = lookup key l := by
  funext k
  induction l with
  | nil => rfl
  | cons a l ih =>
    have hrest := ih (forall_mem_cons.1 heq).2
    have ha := heq a mem_cons_self
    by_cases hk : key a = some k
    · rw [lookup_cons_self hk, lookup_cons_self (ha.trans hk)]
    · rw [lookup_cons_ne hk, lookup_cons_ne (ha ▸ hk), hrest]

lemma lookup_replace (h : ∀ c ∈ pre, key c ≠ some k) (ha : key a = some k) (hb : key b = some k) :
    lookup key (pre ++ b :: post) = update (lookup key (pre ++ a :: post)) k (some b) := by
  funext j
  rcases eq_or_ne j k with rfl | hj
  · rw [update_self, lookup_append, lookup_none h, lookup_cons_self hb, none_or]
  · have hne : ∀ c, key c = some k → key c ≠ some j := by
      intro c hc
      simp [hc, hj.symm]
    rw [update_of_ne hj, lookup_append, lookup_append, lookup_cons_ne (hne a ha),
      lookup_cons_ne (hne b hb)]

lemma lookup_snoc (hnew : ∀ a ∈ l, key a ≠ some k) (hb : key b = some k) :
    lookup key (l ++ [b]) = update (lookup key l) k (some b) := by
  funext j
  rcases eq_or_ne j k with rfl | hj
  · rw [update_self, lookup_append, lookup_none hnew, lookup_cons_self hb, none_or]
  · have hne : key b ≠ some j := by simp [hb, hj.symm]
    rw [update_of_ne hj, lookup_append, lookup_cons_ne hne]
    exact or_none

lemma lookup_filter_ne :
    lookup key (l.filter fun a => key a ≠ some k) = update (lookup key l) k none := by
  funext j
  rcases eq_or_ne j k with rfl | hj
  · rw [update_self]
    refine lookup_none fun a ha => ?_
    simpa using (mem_filter.1 ha).2
  · rw [update_of_ne hj, lookup, find?_filter]
    congr 1
    funext a
    by_cases ha : key a = some j
    · simp [ha, hj]
    · simp [ha]

end Musl.Lib.Keyed
