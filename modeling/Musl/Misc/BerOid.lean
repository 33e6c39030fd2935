import Musl.Misc.Ber

/-!
# Object identifiers in BER

An object identifier becomes the octets of an element and is read back from them.  Its first two
components share the first octet; each of the others is written seven bits an octet.
-/

namespace Musl.Ber

open Musl.Lib List Nat

/-- A `struct ber_oid`: `bo_n` entries of `bo_id`. -/
abbrev Oid := List UInt32

/-- The octets of a value but the last, by the shifts; one that leaves nothing of the value has no
octet. -/
def shiftOctets (v : ℕ) (ks : List ℕ) : List UInt8 :=
  (ks.filter fun k => v ≥ 2 ^ k).map fun k => UInt8.ofNat (v >>> k) ||| 0x80

def componentOctets (v : ℕ) : List UInt8 := shiftOctets v [28, 21, 14, 7] ++ [UInt8.ofNat v &&& 0x7f]

/-- `ober_oid2ber`: the octets, of which it returns the number. -/
def oid2ber : Oid → List UInt8
  | a :: b :: ids =>
    if ids.length + 2 > 64 ∨ a > 2 ∨ b > 40 then []
    else ((a * 40 + b) :: ids).flatMap fun v => componentOctets v.toNat
  | _ => []

/-- `ober_add_oid`. -/
def addOid (o : Oid) : Option Elm :=
  let buf := oid2ber o
  if buf.length = 0 then none
    else some (.elm { getElement 6 with len := buf.length } (.val buf) .null .null)

/-- The loop of `ober_get_oid`: the components so far, and what there is of the next one. -/
def oidLoop : Oid → UInt32 → List UInt8 → Oid
  | ids, _, [] => ids
  | ids, cur, b :: buf =>
    if ids.length < 64 then
      let cur := cur <<< 7 + (b &&& 0x7f).toUInt32
      if b &&& 0x80 ≠ 0 then oidLoop ids cur buf else oidLoop (ids ++ [cur]) 0 buf
    else ids

/-- `ober_get_oid`. -/
def getOid : Elm → Option Oid
  | .elm h (.val (b :: buf)) _ _ =>
    if h.encoding ≠ 6 then none
    else some (oidLoop [(b / 40).toUInt32, (b % 40).toUInt32] 0 (buf.take (h.len - 1)))
  | _ => none

lemma shiftLeft_add_group (q : ℕ) {u : UInt8} (hu : u.toNat % 128 = q % 128) :
    UInt32.ofNat (q / 128) <<< 7 + (u &&& 0x7f).toUInt32 = UInt32.ofNat q := by
  have hlow : (u &&& 0x7f).toNat = u.toNat % 128 := by
    rw [UInt8.toNat_and]
    exact and_two_pow_sub_one_eq_mod u.toNat 7
  have hseven : (7 : UInt32).toNat % 32 = 7 := rfl
  rw [← UInt32.toNat_inj, UInt32.toNat_add, UInt32.toNat_shiftLeft, UInt8.toNat_toUInt32, hlow, hu,
    hseven,
    shiftLeft_eq, UInt32.toNat_ofNat', UInt32.toNat_ofNat']
  omega

section Components

variable {ids : Oid} (hids : ids.length < 64)
include hids

lemma oidLoop_shift (v k : ℕ) (ks : List ℕ) (rest : List UInt8) :
    oidLoop ids (UInt32.ofNat (v >>> (k + 7))) (shiftOctets v (k :: ks) ++ rest) =
      oidLoop ids (UInt32.ofNat (v >>> k)) (shiftOctets v ks ++ rest) := by
  have hbits : ∀ u : UInt8, (u ||| 0x80) &&& 0x80 ≠ 0 ∧ (u ||| 0x80).toNat % 128 = u.toNat % 128 := by
    rintro ⟨u⟩
    revert u
    decide +kernel
  have hdiv : v >>> (k + 7) = v >>> k / 128 := by
    rw [shiftRight_add]
    exact shiftRight_eq_div_pow _ 7
  by_cases hk : v ≥ 2 ^ k
  · obtain ⟨hmore, hlow⟩ := hbits (UInt8.ofNat (v >>> k))
    have hcur := shiftLeft_add_group (v >>> k) (hlow.trans (by rw [UInt8.toNat_ofNat']; omega))
    rw [shiftOctets, filter_cons_of_pos (by simpa using hk), map_cons, cons_append, oidLoop, if_pos hids]
    simp only [if_pos hmore, hdiv, hcur]
    rfl
  · have hzero : v >>> k = 0 := by
      rw [shiftRight_eq_div_pow]
      exact div_eq_of_lt (not_le.1 hk)
    rw [shiftOctets, filter_cons_of_neg (by simpa using hk), hdiv, hzero]
    rfl

lemma oidLoop_component (v : UInt32) (rest : List UInt8) :
    oidLoop ids 0 (componentOctets v.toNat ++ rest) = oidLoop (ids ++ [v]) 0 rest := by
  have hstart : v.toNat >>> (28 + 7) = 0 := by
    rw [shiftRight_eq_div_pow]
    exact div_eq_of_lt (v.toNat_lt.trans (by decide))
  have hlast : ∀ u : UInt8, u &&& 0x7f &&& 0x80 = 0 ∧ (u &&& 0x7f).toNat % 128 = u.toNat % 128 := by
    rintro ⟨u⟩
    revert u
    decide +kernel
  obtain ⟨hmore, hlow⟩ := hlast (UInt8.ofNat v.toNat)
  have hcur := shiftLeft_add_group v.toNat (hlow.trans (by rw [UInt8.toNat_ofNat']; omega))
  rw [UInt32.ofNat_toNat] at hcur
  calc oidLoop ids 0 (componentOctets v.toNat ++ rest)
    _ = oidLoop ids (UInt32.ofNat (v.toNat >>> (28 + 7))) (componentOctets v.toNat ++ rest) := by
      rw [hstart]; rfl
    _ = oidLoop ids (UInt32.ofNat (v.toNat / 128)) ((UInt8.ofNat v.toNat &&& 0x7f) :: rest) := by
      rw [componentOctets, append_assoc, oidLoop_shift hids, oidLoop_shift hids v.toNat 21,
        oidLoop_shift hids v.toNat 14, oidLoop_shift hids v.toNat 7, shiftRight_eq_div_pow]
      rfl
    _ = oidLoop (ids ++ [v]) 0 rest := by
      rw [oidLoop, if_pos hids]
      simp only [hmore, hcur, ne_eq, not_true_eq_false, if_false]

end Components

lemma oidLoop_components (vs : List UInt32) {ids : Oid} (hids : ids.length + vs.length ≤ 64) :
    oidLoop ids 0 (vs.flatMap fun v => componentOctets v.toNat) = ids ++ vs := by
  induction vs generalizing ids with
  | nil => rw [flatMap_nil, oidLoop, append_nil]
  | cons v vs ih =>
    rw [length_cons] at hids
    rw [flatMap_cons, oidLoop_component (by omega),
      ih (by rw [length_append, length_singleton]; omega), append_assoc,
      singleton_append]

variable {a b : UInt32} {ids : Oid}

lemma bounds_of_taken (h : ¬(ids.length + 2 > 64 ∨ a > 2 ∨ b > 40)) :
    ids.length + 2 ≤ 64 ∧ a.toNat ≤ 2 ∧ b.toNat ≤ 40 := by
  rwa [not_or, not_or, not_lt, UInt32.not_lt, UInt32.not_lt] at h

lemma getOid_addOid (htaken : ¬(ids.length + 2 > 64 ∨ a > 2 ∨ b > 40)) :
    (addOid (a :: b :: ids)).bind getOid =
    some (UInt32.ofNat ((a.toNat * 40 + b.toNat) / 40) :: UInt32.ofNat
      ((a.toNat * 40 + b.toNat) % 40) :: ids) := by
  obtain ⟨hlen, ha, hb⟩ := bounds_of_taken htaken
  have hsum : (a * 40 + b).toNat = a.toNat * 40 + b.toNat := by
    have hforty : (40 : UInt32).toNat = 40 := rfl
    rw [UInt32.toNat_add, UInt32.toNat_mul, hforty]
    omega
  -- the first two components have one octet
  have hfirst : ∀ v ≤ 120, componentOctets v = [UInt8.ofNat v] ∧ (UInt8.ofNat v / 40).toUInt32 =
    UInt32.ofNat (v / 40) ∧
      (UInt8.ofNat v % 40).toUInt32 = UInt32.ofNat (v % 40) := by decide +kernel
  obtain ⟨hone, hdiv, hmod⟩ := hfirst (a.toNat * 40 + b.toNat) (by omega)
  have hoctets : oid2ber (a :: b :: ids) =
      UInt8.ofNat (a.toNat * 40 + b.toNat) :: ids.flatMap fun v => componentOctets v.toNat := by
    rw [oid2ber, if_neg htaken, flatMap_cons, hsum, hone, singleton_append]
  simp only [addOid, hoctets, length_cons, Nat.add_one_ne_zero, if_false, Option.bind_some, getOid,
    getElement, ne_eq,
    not_true_eq_false, Nat.add_sub_cancel, take_length, hdiv, hmod]
  rw [oidLoop_components ids (by rw [length_cons, length_singleton]; omega), cons_append,
    singleton_append]

/-- **Object identifiers** that `ober_oid2ber` takes come back from the element just when the second
component is not 40: the check lets it through, and the reader then takes it for one more in the
first component. -/
theorem oid_round_trip_iff (o : Oid) (h : (oid2ber o).length ≠ 0) :
    (addOid o).bind getOid = some o ↔ o[1]? ≠ some 40 := by
  -- only identifiers of two components and more have octets
  rcases o with _ | ⟨a, _ | ⟨b, ids⟩⟩
  · exact absurd rfl h
  · exact absurd rfl h
  by_cases hbad : ids.length + 2 > 64 ∨ a > 2 ∨ b > 40
  · rw [oid2ber, if_pos hbad] at h
    exact absurd rfl h
  obtain ⟨hlen, ha, hb⟩ := bounds_of_taken hbad
  rw [getOid_addOid hbad]
  have hforty : (40 : UInt32).toNat = 40 := rfl
  simp only [Option.some.injEq, cons.injEq, and_true, getElem?_cons_succ, getElem?_cons_zero, ne_eq,
    ← UInt32.toNat_inj, UInt32.toNat_ofNat']
  omega

/-- An identifier with the largest component comes back. -/
theorem oid_round_trip_largest : (oid2ber [1, 39, 4294967295]).length ≠ 0 ∧
    (addOid [1, 39, 4294967295]).bind getOid = some [1, 39, 4294967295] :=
  ⟨by decide +kernel, (oid_round_trip_iff [1, 39, 4294967295] (by decide +kernel)).2 (by decide)⟩

/-- 0.40.7 is taken, and comes back as 1.0.7. -/
theorem oid_forty :
    (oid2ber [0, 40, 7]).length ≠ 0 ∧ (addOid [0, 40, 7]).bind getOid = some [1, 0, 7] := by
  decide +kernel

end Musl.Ber
