import Musl.Lib.OpenAddressing

/-!
# `hsearch`: a hash table refines a finite map

`search/hsearch.c` keeps its entries in a table of `mask + 1` slots, a power of two, and looks for a
key at the hash, 1 place on, 2 places on from there, and so on.  An `ENTER` that makes the table
three quarters full moves everything into a table twice as large; if there is no memory for it, the
entry just made is taken back.

The slots are the pairs of a key and its data, as in `ENTRY`.  A key is a pointer, of type `κ`;
`str` says which string it points to, and the strings do not change during a run.  The null pointer
is `none`.  A loop is followed for as many probes as the table has slots, and `none` says that it
has not stopped by then.  Whether `calloc` has memory to give is an argument of each call.
-/

namespace Musl.Search

open Musl.Lib List Option Function Nat

structure Entry (κ δ : Type) where
  key : Option κ
  data : δ

/-- `struct __tab`.  The null pointer `entries` of a table just made is the empty list. -/
structure Tab (κ δ : Type) where
  entries : List (Entry κ δ)
  mask : UInt64
  used : UInt64

inductive Action
  | find
  | enter
deriving DecidableEq

section Model

variable {κ δ : Type} (str : κ → List UInt8)

def keyhash (k : List UInt8) : UInt64 := k.foldl (fun h c => 31 * h + c.toUInt64) 0

/-- `for (i=hash,j=1; ; i+=j++)`: the first slot that the loop stops at. -/
def probe (stop : Entry κ δ → Bool) (entries : List (Entry κ δ)) (mask : UInt64) :
    ℕ → UInt64 → UInt64 → Option ℕ
  | 0, _, _ => none
  | fuel + 1, i, j =>
    match entries[(i &&& mask).toNat]? with
    | none => none
    | some e => if stop e then some (i &&& mask).toNat else probe stop entries mask fuel (i + j) (j + 1)

/-- `!newe->key`. -/
def isFree (e : Entry κ δ) : Bool := e.key.isNone

/-- `!e->key || strcmp(e->key, key) == 0`. -/
def isFreeOr (name : List UInt8) (e : Entry κ δ) : Bool :=
  match e.key with
  | none => true
  | some k => str k == name

def lookup (key : κ) (hash : UInt64) (t : Tab κ δ) : Option ℕ :=
  probe (isFreeOr str (str key)) t.entries t.mask t.entries.length hash 1

/-- `for (newsize = MINSIZE; newsize < nel; newsize *= 2);`, with `nel` at most `2 ^ 63`. -/
def newsizeFrom : ℕ → UInt64 → UInt64 → UInt64
  | 0, _, newsize => newsize
  | fuel + 1, nel, newsize => if newsize < nel then newsizeFrom fuel nel (newsize * 2) else newsize

def minSize : UInt64 := 8
def maxSize : UInt64 := 0xffffffffffffffff / 2 + 1

def newsize (nel : UInt64) : UInt64 :=
  newsizeFrom 60 (if maxSize < nel then maxSize else nel) minSize

/-- `calloc(newsize, sizeof *htab->__tab->entries)`: `ENTRY` has 16 bytes. -/
def callocEntries [Inhabited δ] (granted : Bool) (n : UInt64) : Option (List (Entry κ δ)) :=
  if (2 ^ 64 - 1) / 16 < n.toNat ∨ granted = false then none
    else some (List.replicate n.toNat ⟨none, default⟩)

def rehash (mask : UInt64) : List (Entry κ δ) → List (Entry κ δ) → Option (List (Entry κ δ))
  | [], new => some new
  | e :: old, new =>
    match e.key with
    | none => rehash mask old new
    | some k => do
      let p ← probe isFree new mask new.length (keyhash (str k)) 1
      rehash mask old (new.set p e)

/-- `resize`: false, and the table as it was, if there is no memory. -/
def resize [Inhabited δ] (nel : UInt64) (granted : Bool) (t : Tab κ δ) : Option (Bool × Tab κ δ) :=
  match callocEntries granted (newsize nel) with
  | none => some (false, t)
  | some new => do
    let mask := newsize nel - 1
    let entries ← rehash str mask t.entries new
    return (true, ⟨entries, mask, t.used⟩)

/-- `__hcreate_r`: null if one of the two allocations fails. -/
def hcreateR [Inhabited δ] (nel : UInt64) (grantedTab granted : Bool) : Option (Option (Tab κ δ)) :=
  if grantedTab = false then some none
  else do
    let (r, t) ← resize str nel granted ⟨[], 0, 0⟩
    return if r then some t else none

/-- A call of `hsearch_r`: the two fields of `item`, and whether `calloc` has memory during the call. -/
structure Call (κ δ : Type) where
  key : κ
  data : δ
  action : Action
  granted : Bool

/-- `*e = item; ++htab->__tab->used`. -/
def Tab.put (t : Tab κ δ) (e : ℕ) (c : Call κ δ) : Tab κ δ :=
  { t with entries := t.entries.set e ⟨some c.key, c.data⟩, used := t.used + 1 }

/-- `htab->__tab->used--; e->key = 0`. -/
def Tab.takeBack (t : Tab κ δ) (e : ℕ) : Tab κ δ :=
  { t with used := t.used - 1, entries := t.entries.modify e fun x => { x with key := none } }

/-- `__hsearch_r` from `*e = item;` on. -/
def enterAt [Inhabited δ] (c : Call κ δ) (e : ℕ) (t : Tab κ δ) : Option (Option ℕ × Tab κ δ) :=
  if t.mask - t.mask / 4 < (t.put e c).used then do
    let (r, t) ← resize str (2 * (t.put e c).used) c.granted (t.put e c)
    if r = false then return (none, t.takeBack e)
    let e ← lookup str c.key (keyhash (str c.key)) t
    return (some e, t)
  else some (some e, t.put e c)

/-- `__hsearch_r`: the slot that `*retval` points to, null if it returns 0. -/
def hsearchR [Inhabited δ] (c : Call κ δ) (t : Tab κ δ) : Option (Option ℕ × Tab κ δ) := do
  let e ← lookup str c.key (keyhash (str c.key)) t
  if ((t.entries[e]?).bind Entry.key).isSome then return (some e, t)
  if c.action = .find then return (none, t)
  enterAt str c e t

def Tab.entryAt (t : Tab κ δ) (e : ℕ) : Option (κ × δ) := do
  let x ← t.entries[e]?
  let k ← x.key
  return (k, x.data)

/-- A sequence of calls, with what `*retval` points to after each. -/
def hsearchRun [Inhabited δ] : List (Call κ δ) → Tab κ δ → Option (List (Option (κ × δ)) × Tab κ δ)
  | [], t => some ([], t)
  | c :: cs, t => do
    let (e, t) ← hsearchR str c t
    let (outs, t') ← hsearchRun cs t
    return (e.bind t.entryAt :: outs, t')

def contents (t : Tab κ δ) (name : List UInt8) : Option (κ × δ) :=
  t.entries.findSome? fun e => (e.key.filter fun k => str k == name).map fun k => (k, e.data)

/-! ### The finite map -/

/-- One call on a finite map.  An `ENTER` of a new name may be refused, if there is no memory for it. -/
inductive MapStep (c : Call κ δ) :
    (List UInt8 → Option (κ × δ)) → Option (κ × δ) → (List UInt8 → Option (κ × δ)) → Prop
  | present {m x} (h : m (str c.key) = some x) : MapStep c m (some x) m
  | notFound {m} (h : m (str c.key) = none) (ha : c.action = .find) : MapStep c m none m
  | added {m} (h : m (str c.key) = none) (ha : c.action = .enter) :
      MapStep c m (some (c.key, c.data)) (Function.update m (str c.key) (some (c.key, c.data)))
  | refused {m} (h : m (str c.key) = none) (ha : c.action = .enter)
      (hfull : c.granted = true → 2 ^ 58 ≤ {name | (m name).isSome}.ncard) : MapStep c m none m

inductive MapRun : (List UInt8 → Option (κ × δ)) → List (Call κ δ) → List (Option (κ × δ)) →
    (List UInt8 → Option (κ × δ)) → Prop
  | nil {m} : MapRun m [] [] m
  | cons {m m' m'' c cs out outs} (h : MapStep str c m out m') (hs : MapRun m' cs outs m'') :
      MapRun m (c :: cs) (out :: outs) m''

/-! ### Trying the slots -/

def places (n : ℕ) (name : List UInt8) (j : ℕ) : ℕ := ((keyhash name).toNat + triangle j) % 2 ^ n

def names (entries : List (Entry κ δ)) (p : ℕ) : Option (List UInt8) :=
  (entries[p]?).bind fun e => e.key.map str

structure SizeIs (n : ℕ) (entries : List (Entry κ δ)) (mask : UInt64) : Prop where
  least : 3 ≤ n
  most : n ≤ 59
  length : entries.length = 2 ^ n
  mask : mask.toNat = 2 ^ n - 1

variable {str} {n : ℕ} {entries : List (Entry κ δ)} {mask : UInt64}

lemma SizeIs.and_mask (h : SizeIs n entries mask) (i : UInt64) :
    (i &&& mask).toNat = i.toNat % 2 ^ n := by
  rw [UInt64.toNat_and, h.mask, and_two_pow_sub_one_eq_mod]

lemma places_lt (n : ℕ) (name : List UInt8) (j : ℕ) : places n name j < 2 ^ n :=
  Nat.mod_lt _ (Nat.two_pow_pos n)

variable {stop : Entry κ δ → Bool} {t : Tab κ δ}

/-- **The loop** stops at the first slot of the sequence at which it can, if there is one. -/
theorem probe_stops (h : SizeIs n entries mask) {name : List UInt8} {last : ℕ}
    (hlast : ∃ e, entries[places n name last]? = some e ∧ stop e = true) :
    ∀ (fuel s : ℕ) (i j : UInt64), i.toNat = ((keyhash name).toNat + triangle s) % 2 ^ 64 →
      j.toNat = (s + 1) % 2 ^ 64 → s ≤ last → last < s + fuel →
      ∃ r e, s ≤ r ∧ probe stop entries mask fuel i j = some (places n name r) ∧
        entries[places n name r]? = some e ∧ stop e = true ∧
        ∀ q, s ≤ q → q < r → ∀ e, entries[places n name q]? = some e → stop e = false := by
  intro fuel
  induction fuel with
  | zero =>
    intro s i j _ _ h1 h2
    omega
  | succ fuel ih =>
    intro s i j hi hj hs hfuel
    have hplace : (i &&& mask).toNat = places n name s := by
      rw [h.and_mask, hi]
      exact mod_mod_of_dvd _ (pow_dvd_pow 2 (by have := h.most; omega))
    have hin : places n name s < entries.length := h.length ▸ places_lt n name s
    have hslot : entries[places n name s]? = some entries[places n name s] := getElem?_eq_getElem hin
    rw [probe, hplace, hslot]
    dsimp only
    by_cases hstop : stop entries[places n name s] = true
    · refine ⟨s, _, le_rfl, if_pos hstop, hslot, hstop, ?_⟩
      intro q hq hq'
      omega
    · rw [if_neg hstop]
      have hne : s ≠ last := by
        rintro rfl
        obtain ⟨e, he, hse⟩ := hlast
        rw [hslot] at he
        exact hstop (some.inj he ▸ hse)
      obtain ⟨r, e, hr, hprobe, he, hse, hbefore⟩ := ih (s + 1) (i + j) (j + 1)
        (by rw [UInt64.toNat_add, hi, hj, triangle, ← add_mod, add_assoc])
        (by rw [UInt64.toNat_add, hj]; exact (add_mod _ _ _).symm) (by omega) (by omega)
      refine ⟨r, e, by omega, hprobe, he, hse, ?_⟩
      intro q hq hq' e' he'
      rcases eq_or_lt_of_le hq with rfl | hlt
      · rw [hslot] at he'
        exact some.inj he' ▸ Bool.eq_false_iff.2 hstop
      · exact hbefore q hlt hq' e' he'

lemma probe_returns (h : SizeIs n entries mask) (name : List UInt8)
    (hempty : ∃ (p : ℕ) (e : Entry κ δ), entries[p]? = some e ∧ stop e = true) :
    ∃ r e, probe stop entries mask entries.length (keyhash name) 1 = some (places n name r) ∧
      entries[places n name r]? = some e ∧ stop e = true ∧
      ∀ q < r, ∀ e, entries[places n name q]? = some e → stop e = false := by
  obtain ⟨p, e, hp, he⟩ := hempty
  have hin : p < 2 ^ n := by
    rw [← h.length]
    exact (List.getElem?_eq_some_iff.1 hp).1
  obtain ⟨last, hlast, rfl⟩ := exists_triangle n (keyhash name).toNat hin
  obtain ⟨r, e', _, hprobe, he', hstop, hbefore⟩ := probe_stops h
    (⟨e, hp, he⟩) entries.length 0 (keyhash name) 1
    (by rw [triangle, add_zero, mod_eq_of_lt (UInt64.toNat_lt _)]) rfl (zero_le _)
    (by rw [h.length]; omega)
  exact ⟨r, e', hprobe, he', hstop, fun q hq => hbefore q (zero_le q) hq⟩

/-! ### The names in a table -/

variable {e : Entry κ δ} {p : ℕ} {name : List UInt8}

lemma names_of_slot (h : entries[p]? = some e) : names str entries p = e.key.map str := by
  rw [names, h]
  rfl

lemma names_eq_some (h : names str entries p = some name) :
    ∃ k d, entries[p]? = some ⟨some k, d⟩ ∧ str k = name := by
  obtain ⟨e, he, hkey⟩ := bind_eq_some_iff.1 h
  obtain ⟨k, hk, hname⟩ := map_eq_some_iff.1 hkey
  exact ⟨k, e.data, by rw [he, ← hk], hname⟩

lemma isFreeOr_iff (h : entries[p]? = some e) :
    isFreeOr str name e = true ↔ names str entries p = none ∨ names str entries p = some name := by
  rw [names_of_slot h, isFreeOr]
  cases e.key with
  | none => simp
  | some k => simp

def HasRoom (entries : List (Entry κ δ)) : Prop := ∃ e ∈ entries, e.key = none

lemma HasRoom.exists (h : HasRoom entries) :
    ∃ (p : ℕ) (e : Entry κ δ), entries[p]? = some e ∧ e.key = none := by
  obtain ⟨e, he, hkey⟩ := h
  obtain ⟨p, hp⟩ := mem_iff_getElem?.mp he
  exact ⟨p, e, hp, hkey⟩

/-- **`lookup`.** -/
theorem lookup_stops (h : SizeIs n t.entries t.mask) (hroom : HasRoom t.entries) (key : κ) :
    ∃ r e, lookup str key (keyhash (str key)) t = some (places n (str key) r) ∧
      t.entries[places n (str key) r]? = some e ∧ StopsAt (places n) (names str t.entries)
      (str key) r := by
  obtain ⟨p, e0, hp, hkey⟩ := hroom.exists
  have hfree : isFreeOr str (str key) e0 = true := by rw [isFreeOr, hkey]
  obtain ⟨r, e, hprobe, he, hstop, hbefore⟩ := probe_returns h (str key) ⟨p, e0, hp, hfree⟩
  refine ⟨r, e, hprobe, he, (isFreeOr_iff he).1 hstop, ?_⟩
  intro i hi
  have hin : places n (str key) i < t.entries.length := h.length ▸ places_lt n _ i
  have hslot := getElem?_eq_getElem hin
  have hnot := hbefore i hi _ hslot
  rw [← Bool.not_eq_true, isFreeOr_iff hslot, not_or] at hnot
  exact hnot

def keyed (entries : List (Entry κ δ)) : ℕ := entries.countP fun e => e.key.isSome

lemma hasRoom_of_keyed (h : keyed entries < entries.length) : HasRoom entries := by
  by_contra hno
  have hall : ∀ e ∈ entries, e.key.isSome = true := by
    intro e he
    rw [isSome_iff_ne_none]
    exact fun hkey => hno ⟨e, he, hkey⟩
  rw [keyed, countP_eq_length.2 hall] at h
  exact lt_irrefl _ h

section Put

variable (hp : entries[p]? = some e)
include hp

lemma names_set (x : Entry κ δ) :
    names str (entries.set p x) = Function.update (names str entries) p (x.key.map str) := by
  have hin := (List.getElem?_eq_some_iff.1 hp).1
  funext q
  by_cases hq : q = p
  · rw [hq, update_self, names, getElem?_set_self hin]
    rfl
  · rw [update_of_ne hq, names, names, getElem?_set_ne (Ne.symm hq)]

lemma keyed_set (hkey : e.key = none) (k : κ) (d : δ) :
    keyed (entries.set p ⟨some k, d⟩) = keyed entries + 1 := by
  obtain ⟨hin, rfl⟩ := List.getElem?_eq_some_iff.1 hp
  rw [keyed, countP_set hin, if_neg (by rw [hkey]; simp)]
  rfl

lemma mem_set_iff (hkey : e.key = none) {x y : Entry κ δ} (hy : y.key ≠ none) :
    y ∈ entries.set p x ↔ y = x ∨ y ∈ entries := by
  have hin := (List.getElem?_eq_some_iff.1 hp).1
  constructor
  · intro h
    rcases mem_or_eq_of_mem_set h with h | h
    · exact .inr h
    · exact .inl h
  · rintro (rfl | h)
    · exact mem_set hin _
    · obtain ⟨q, hq⟩ := mem_iff_getElem?.mp h
      apply mem_iff_getElem?.mpr
      refine ⟨q, ?_⟩
      rw [getElem?_set_ne]
      · exact hq
      · rintro rfl
        rw [hp] at hq
        exact hy (some.inj hq ▸ hkey)

end Put

/-! ### The new table -/

def Apart (str : κ → List UInt8) (a b : Entry κ δ) : Prop :=
  ∀ k k', a.key = some k → b.key = some k' → str k ≠ str k'

/-- **The loop over the old table** moves every entry into the new one. -/
theorem rehash_ok {old : List (Entry κ δ)} (hold : old.Pairwise (Apart str)) :
    ∀ new : List (Entry κ δ), SizeIs n new mask → Hashed (places n) (names str new) →
      (∀ x ∈ old, ∀ y ∈ new, Apart str x y) → keyed new + keyed old < 2 ^ n →
      ∃ out, rehash str mask old new = some out ∧ SizeIs n out mask ∧ Hashed (places n) (names str out) ∧
        keyed out = keyed new + keyed old ∧ ∀ y :
        Entry κ δ, y.key ≠ none → (y ∈ out ↔ y ∈ new ∨ y ∈ old) := by
  induction hold with
  | nil =>
    intro new hsize hhash _ _
    exact ⟨new, rfl, hsize, hhash, rfl, fun y _ => by simp⟩
  | @cons x old hx hold ih =>
    intro new hsize hhash happart hroom
    rw [rehash]
    cases hkey : x.key with
    | none =>
      have hcount : keyed (x :: old) = keyed old := by simp [keyed, hkey]
      rw [hcount] at hroom ⊢
      obtain ⟨out, hout, hsize', hhash', hkeyed, hmem⟩ :=
        ih new hsize hhash (forall_mem_cons.1 happart).2 hroom
      refine ⟨out, hout, hsize', hhash', hkeyed, fun y hy => ?_⟩
      have hne : y ≠ x := fun h => hy (h ▸ hkey)
      rw [hmem y hy]
      simp [hne]
    | some k =>
      have hcount : keyed (x :: old) = keyed old + 1 := by simp [keyed, hkey]
      obtain ⟨p, e0, hp, hfree⟩ :=
        (hasRoom_of_keyed (hsize.length ▸ (by omega : keyed new < 2 ^ n))).exists
      have hnone : isFree e0 = true := by rw [isFree, hfree]; rfl
      obtain ⟨r, e, hprobe, he, hstop, hbefore⟩ := probe_returns hsize (str k) ⟨p, e0, hp, hnone⟩
      have hempty : e.key = none := isNone_iff_eq_none.1 hstop
      -- the name is not in the new table, and the slots before are taken
      have habsent : ∀ q, names str new q ≠ some (str k) := by
        intro q hq
        obtain ⟨k', d, hslot, hname⟩ := names_eq_some hq
        exact happart x mem_cons_self _ (mem_of_getElem? hslot) k k' hkey rfl hname.symm
      have htaken : Taken (places n) (names str new) (str k) r := by
        intro i hi
        have hin : places n (str k) i < new.length := hsize.length ▸ places_lt n _ i
        have hslot := getElem?_eq_getElem hin
        have hnot := hbefore i hi _ hslot
        rw [names_of_slot hslot, ne_eq, map_eq_none_iff, ← isNone_iff_eq_none]
        exact Bool.eq_false_iff.1 hnot
      have hset : new.set (places n (str k) r) x = new.set (places n (str k) r) ⟨some k,
        x.data⟩ := by rw [← hkey]
      obtain ⟨out, hout, hsize', hhash', hkeyed, hmem⟩ := ih (new.set (places n (str k) r) x)
        ⟨hsize.least, hsize.most, by rw [length_set, hsize.length], hsize.mask⟩
        (by rw [names_set he, hkey]; exact hhash.insert habsent htaken)
        (by
          intro y hy z hz
          rcases mem_or_eq_of_mem_set hz with hz | rfl
          · exact happart y (mem_cons_of_mem x hy) z hz
          · intro k1 k2 h1 h2 heq
            exact hx y hy k2 k1 h2 h1 heq.symm)
        (by rw [hset, keyed_set he hempty]; omega)
      refine ⟨out, ?_, hsize', hhash', ?_, fun y hy => ?_⟩
      · dsimp only
        rw [hprobe]
        exact hout
      · rw [hkeyed, hset, keyed_set he hempty]
        omega
      · rw [hmem y hy, mem_set_iff he hempty hy, mem_cons]
        tauto

lemma newsizeFrom_eq {nel : UInt64} (hnel : nel.toNat ≤ 2 ^ 63) :
    ∀ (fuel m : ℕ) (size : UInt64), size.toNat = 2 ^ m → m + fuel = 63 →
      ∃ n, m ≤ n ∧ n ≤ 63 ∧ (newsizeFrom fuel nel size).toNat = 2 ^ n ∧ nel.toNat ≤ 2 ^ n ∧
        (n = m ∨ 2 ^ n < 2 * nel.toNat) := by
  intro fuel
  induction fuel with
  | zero =>
    intro m size hsize hm
    obtain rfl : m = 63 := by omega
    exact ⟨63, le_rfl, le_rfl, hsize, hnel, .inl rfl⟩
  | succ fuel ih =>
    intro m size hsize hm
    rw [newsizeFrom]
    by_cases hlt : size < nel
    · rw [if_pos hlt]
      have hlt' : 2 ^ m < nel.toNat := hsize ▸ UInt64.lt_iff_toNat_lt.1 hlt
      have hdouble : (size * 2).toNat = 2 ^ (m + 1) := by
        have hle : 2 ^ (m + 1) ≤ 2 ^ 63 := Nat.pow_le_pow_right (by norm_num) (by omega)
        rw [UInt64.toNat_mul, hsize]
        exact mod_eq_of_lt (by rw [pow_succ] at hle; change 2 ^ m * 2 < 2 ^ 64; omega)
      obtain ⟨n, h1, h2, h3, h4, h5⟩ := ih (m + 1) (size * 2) hdouble (by omega)
      refine ⟨n, by omega, h2, h3, h4, .inr ?_⟩
      rcases h5 with rfl | h
      · omega
      · exact h
    · rw [if_neg hlt]
      refine ⟨m, le_rfl, by omega, hsize, ?_, .inl rfl⟩
      rw [← hsize]
      exact Nat.le_of_not_lt fun h => hlt (UInt64.lt_iff_toNat_lt.2 h)

lemma maxSize_toNat : maxSize.toNat = 2 ^ 63 := by decide

lemma newsize_eq (nel : UInt64) :
    ∃ n, 3 ≤ n ∧ n ≤ 63 ∧ (newsize nel).toNat = 2 ^ n ∧ min nel.toNat (2 ^ 63) ≤ 2 ^ n ∧
      (n = 3 ∨ 2 ^ n < 2 * nel.toNat) := by
  rw [newsize]
  by_cases hbig : maxSize < nel
  · rw [if_pos hbig]
    have hlt : 2 ^ 63 < nel.toNat := maxSize_toNat ▸ UInt64.lt_iff_toNat_lt.1 hbig
    obtain ⟨n, h1, h2, h3, h4, h5⟩ := newsizeFrom_eq maxSize_toNat.le 60 3 minSize rfl rfl
    rw [maxSize_toNat] at h4 h5
    exact ⟨n, h1, h2, h3, (min_le_right _ _).trans h4, h5.imp_right fun h => by omega⟩
  · rw [if_neg hbig]
    have hle : nel.toNat ≤ 2 ^ 63 := Nat.le_of_not_lt fun h =>
      hbig (UInt64.lt_iff_toNat_lt.2 (maxSize_toNat ▸ h))
    obtain ⟨n, h1, h2, h3, h4, h5⟩ := newsizeFrom_eq hle 60 3 minSize rfl rfl
    exact ⟨n, h1, h2, h3, (min_le_left _ _).trans h4, h5⟩

/-! ### The table between calls -/

structure TabOk (str : κ → List UInt8) (n : ℕ) (t : Tab κ δ) : Prop where
  size : SizeIs n t.entries t.mask
  hashed : Hashed (places n) (names str t.entries)
  used : t.used.toNat = keyed t.entries
  load : keyed t.entries ≤ 2 ^ n - 1 - (2 ^ n - 1) / 4

lemma TabOk.hasRoom (h : TabOk str n t) : HasRoom t.entries := by
  apply hasRoom_of_keyed
  have hpos := Nat.two_pow_pos n
  have hload := h.load
  rw [h.size.length]
  omega

lemma apart_of_hashed (h : Hashed (places n) (names str entries)) : entries.Pairwise (Apart str) := by
  apply pairwise_iff_getElem.2
  intro i j hi hj hij k k' hk hk' heq
  have h1 : names str entries i = some (str k) := by
    rw [names_of_slot (getElem?_eq_getElem hi), hk]
    rfl
  have h2 : names str entries j = some (str k) := by
    rw [names_of_slot (getElem?_eq_getElem hj), hk', heq]
    rfl
  have := h.unique h1 h2
  omega

/-- **What the table stores for a name.** -/
theorem contents_eq_some (h : Hashed (places n) (names str t.entries)) {k : κ} {d : δ} :
    contents str t name = some (k, d) ↔ (⟨some k, d⟩ : Entry κ δ) ∈ t.entries ∧ str k = name := by
  have hsome : ∀ {x}, contents str t name = some x → (⟨some x.1, x.2⟩ : Entry κ δ) ∈ t.entries ∧
      str x.1 = name := by
    intro x hx
    obtain ⟨e, he, hmap⟩ := exists_of_findSome?_eq_some hx
    obtain ⟨k', hk', hpair⟩ := map_eq_some_iff.1 hmap
    obtain ⟨hkey, hname⟩ := filter_eq_some_iff.1 hk'
    rw [← hpair, ← hkey]
    exact ⟨he, by simpa using hname⟩
  constructor
  · exact hsome
  · rintro ⟨hmem, rfl⟩
    obtain ⟨⟨k', d'⟩, hx⟩ : ∃ x, contents str t (str k) = some x := by
      rw [← isSome_iff_exists, contents, findSome?_isSome_iff]
      exact ⟨_, hmem, by simp⟩
    obtain ⟨hmem', hname⟩ := hsome hx
    obtain ⟨p, hp⟩ := mem_iff_getElem?.mp hmem
    obtain ⟨q, hq⟩ := mem_iff_getElem?.mp hmem'
    have hpq := h.unique (names_of_slot hp) ((names_of_slot hq).trans (congrArg some hname))
    rw [hpq, hq] at hp
    obtain ⟨rfl, rfl⟩ : k' = k ∧ d' = d := by simpa using hp
    exact hx

lemma contents_eq_none (h : ∀ p, names str t.entries p ≠ some name) : contents str t name = none := by
  rw [contents, findSome?_eq_none_iff]
  intro e he
  obtain ⟨p, hp⟩ := mem_iff_getElem?.mp he
  rw [map_eq_none_iff, filter_eq_none_iff]
  intro k hk hname
  apply h p
  rw [names_of_slot hp, hk, map_some, eq_of_beq hname]

section

variable (h : Hashed (places n) (names str t.entries))

include h

lemma contents_congr {m : ℕ} {t' : Tab κ δ} (h' : Hashed (places m) (names str t'.entries))
    (hmem : ∀ y : Entry κ δ, y.key ≠ none → (y ∈ t'.entries ↔ y ∈ t.entries)) :
    contents str t' = contents str t := by
  funext name
  apply ext
  rintro ⟨k, d⟩
  rw [contents_eq_some h, contents_eq_some h', hmem _ (by simp)]

lemma keyed_eq_ncard : keyed t.entries = {name | (contents str t name).isSome}.ncard := by
  have hnodup : (t.entries.filterMap fun e => e.key.map str).Nodup := by
    apply pairwise_filterMap.2
    refine (apart_of_hashed h).imp ?_
    intro a b hab x hx y hy
    obtain ⟨k, hk, rfl⟩ := map_eq_some_iff.1 hx
    obtain ⟨k', hk', rfl⟩ := map_eq_some_iff.1 hy
    exact hab k k' hk hk'
  have hset : {name | (contents str t name).isSome} =
      ↑(t.entries.filterMap fun e => e.key.map str).toFinset := by
    ext name
    rw [Set.mem_ofPred_eq, isSome_iff_exists, coe_toFinset, Set.mem_ofPred_eq, mem_filterMap]
    constructor
    · rintro ⟨⟨k, d⟩, hx⟩
      obtain ⟨hmem, hname⟩ := (contents_eq_some h).1 hx
      exact ⟨_, hmem, by rw [map_some, hname]⟩
    · rintro ⟨e, he, hmap⟩
      obtain ⟨k, hk, hname⟩ := map_eq_some_iff.1 hmap
      exact ⟨(k, e.data), (contents_eq_some h).2 ⟨hk ▸ he, hname⟩⟩
  rw [hset, Set.ncard_coe_finset, toFinset_card_of_nodup hnodup, length_filterMap_eq_countP, keyed]
  congr 1
  funext e
  exact (isSome_map).symm

lemma entryAt_eq (hp : names str t.entries p = some name) : t.entryAt p = contents str t name := by
  obtain ⟨k, d, hslot, hk⟩ := names_eq_some hp
  rw [(contents_eq_some h).2 ⟨mem_of_getElem? hslot, hk⟩, Tab.entryAt, hslot]
  rfl

end

lemma TabOk.limit (h : TabOk str n t) : (t.mask - t.mask / 4).toNat = 2 ^ n - 1 - (2 ^ n - 1) / 4 := by
  have hquarter : (t.mask / 4).toNat = (2 ^ n - 1) / 4 := by
    rw [UInt64.toNat_div, h.size.mask]
    rfl
  have hle : t.mask / 4 ≤ t.mask := UInt64.le_iff_toNat_le.2 (by rw [h.size.mask]; omega)
  rw [UInt64.toNat_sub_of_le _ _ hle, hquarter, h.size.mask]

/-- A new entry is put into the empty slot `p`, where the search for its key stopped. -/
structure Put (str : κ → List UInt8) (n : ℕ) (t : Tab κ δ) (e : Entry κ δ) (p : ℕ) (c : Call κ δ) :
    Prop where
  slot : t.entries[p]? = some e
  empty : e.key = none
  absent : ∀ q, names str t.entries q ≠ some (str c.key)
  hashed : Hashed (places n) (names str (t.put p c).entries)

section Put

variable {t : Tab κ δ} {c : Call κ δ}

lemma Put.of_stop (h : TabOk str n t) {r : ℕ}
    (hstop : StopsAt (places n) (names str t.entries) (str c.key) r)
    (hslot : t.entries[places n (str c.key) r]? = some e) (hkey : e.key = none) :
    Put str n t e (places n (str c.key) r) c := by
  have hempty : names str t.entries (places n (str c.key) r) = none := by
    rw [names_of_slot hslot, hkey]
    rfl
  have habsent := hstop.absent h.hashed hempty
  refine ⟨hslot, hkey, habsent, ?_⟩
  rw [Tab.put, names_set hslot]
  exact h.hashed.insert habsent hstop.taken

lemma Put.keyed (hput : Put str n t e p c) : keyed (t.put p c).entries = keyed t.entries + 1 :=
  keyed_set hput.slot hput.empty _ _

lemma Put.names_eq (hput : Put str n t e p c) : names str (t.put p c).entries p = some (str c.key) := by
  rw [Tab.put, names_set hput.slot, update_self]
  rfl

lemma TabOk.size_put (h : TabOk str n t) (p : ℕ) (c : Call κ δ) : SizeIs n (t.put p c).entries t.mask :=
  ⟨h.size.least, h.size.most, (length_set).trans h.size.length, h.size.mask⟩

variable (hput : Put str n t e p c)

include hput

lemma Put.used (h : TabOk str n t) : (t.put p c).used.toNat = Search.keyed (t.put p c).entries := by
  have hmost : 2 ^ n ≤ 2 ^ 59 := Nat.pow_le_pow_right (by norm_num) h.size.most
  have hload := h.load
  rw [hput.keyed, Tab.put, UInt64.toNat_add, h.used]
  exact mod_eq_of_lt (by change Search.keyed t.entries + 1 < 2 ^ 64; omega)

lemma Put.contents (h : TabOk str n t) {m : ℕ} {t' : Tab κ δ}
    (h' : Hashed (places m) (names str t'.entries))
    (hmem : ∀ y : Entry κ δ, y.key ≠ none → (y ∈ t'.entries ↔ y ∈ (t.put p c).entries)) :
    contents str t' = Function.update (Search.contents str t) (str c.key) (some (c.key, c.data)) := by
  funext name
  apply ext
  rintro ⟨k, d⟩
  rw [contents_eq_some h', hmem _ (by simp), Tab.put, mem_set_iff hput.slot hput.empty (by simp)]
  by_cases hname : name = str c.key
  · rw [hname, update_self]
    constructor
    · rintro ⟨heq | hmem', hk⟩
      · obtain ⟨rfl, rfl⟩ : k = c.key ∧ d = c.data := by simpa using heq
        rfl
      · obtain ⟨q, hq⟩ := mem_iff_getElem?.mp hmem'
        exact absurd ((names_of_slot hq).trans (congrArg some hk)) (hput.absent q)
    · intro heq
      obtain ⟨rfl, rfl⟩ : c.key = k ∧ c.data = d := by simpa using heq
      exact ⟨.inl rfl, rfl⟩
  · rw [update_of_ne hname, contents_eq_some h.hashed]
    constructor
    · rintro ⟨heq | hmem', hk⟩
      · obtain ⟨rfl, rfl⟩ : k = c.key ∧ d = c.data := by simpa using heq
        exact absurd hk.symm hname
      · exact ⟨hmem', hk⟩
    · rintro ⟨hmem', hk⟩
      exact ⟨.inr hmem', hk⟩

lemma Put.entries_takeBack : ((t.put p c).takeBack p).entries = t.entries.set p ⟨none, c.data⟩ := by
  have hin := (List.getElem?_eq_some_iff.1 hput.slot).1
  apply ext_getElem?
  intro q
  rw [Tab.takeBack, getElem?_modify, Tab.put]
  by_cases hq : q = p
  · rw [hq, getElem?_set_self hin, getElem?_set_self hin]
    simp
  · simp [Ne.symm hq]

lemma Put.names_takeBack : names str ((t.put p c).takeBack p).entries = names str t.entries := by
  rw [hput.entries_takeBack, names_set hput.slot]
  apply update_eq_self_iff.2
  rw [names_of_slot hput.slot, hput.empty]

/-- **The entry is taken back**: the table is in order as it was before. -/
theorem Put.takeBack (h : TabOk str n t) : TabOk str n ((t.put p c).takeBack p) := by
  have hkeyed : Search.keyed ((t.put p c).takeBack p).entries = Search.keyed t.entries := by
    obtain ⟨hin, hslot⟩ := List.getElem?_eq_some_iff.1 hput.slot
    rw [hput.entries_takeBack, Search.keyed, countP_set hin, hslot, if_neg (by simp [hput.empty])]
    rfl
  refine ⟨⟨h.size.least, h.size.most, ?_, h.size.mask⟩, ?_, ?_, ?_⟩
  · rw [hput.entries_takeBack, length_set, h.size.length]
  · rw [hput.names_takeBack]
    exact h.hashed
  · rw [hkeyed, ← h.used, Tab.takeBack, Tab.put, add_sub_cancel_right]
  · rw [hkeyed]
    exact h.load

lemma Put.contents_takeBack (h : TabOk str n t) :
    Search.contents str ((t.put p c).takeBack p) = Search.contents str t := by
  refine contents_congr h.hashed (hput.takeBack h).hashed fun y hy => ?_
  rw [hput.entries_takeBack, mem_set_iff hput.slot hput.empty hy]
  exact or_iff_right fun heq => hy (heq ▸ rfl)

end Put

section Calls

variable [Inhabited δ]

lemma names_replicate (m p : ℕ) : names str (replicate m (⟨none, default⟩ : Entry κ δ)) p = none := by
  rw [names, getElem?_replicate]
  split
  · rfl
  · rfl

/-- **`resize`.** -/
theorem resize_ok (t : Tab κ δ) (nel : UInt64) (granted : Bool) (happart : t.entries.Pairwise (Apart str))
    (hused : t.used.toNat = keyed t.entries) (hnel : 2 * keyed t.entries ≤ min nel.toNat (2 ^ 63)) :
    (resize str nel granted t = some (false, t) ∧ (granted = true → 2 ^ 59 < nel.toNat)) ∨
      ∃ m t', resize str nel granted t = some (true, t') ∧ TabOk str m t' ∧
        keyed t'.entries = keyed t.entries ∧ ∀ y :
        Entry κ δ, y.key ≠ none → (y ∈ t'.entries ↔ y ∈ t.entries) := by
  obtain ⟨m, hleast, _, hsize, hfits, hsmall⟩ := newsize_eq nel
  rw [resize, callocEntries, hsize]
  by_cases hfail : (2 ^ 64 - 1) / 16 < 2 ^ m ∨ granted = false
  · left
    rw [if_pos hfail]
    refine ⟨rfl, fun hgranted => ?_⟩
    have hbig : 2 ^ 60 ≤ 2 ^ m := by
      rcases hfail with h | h
      · omega
      · rw [hgranted] at h
        exact absurd h (by decide)
    rcases hsmall with rfl | h
    · norm_num at hbig
    · omega
  · right
    rw [if_neg hfail]
    have hmost : m ≤ 59 := by
      by_contra hm
      have := Nat.pow_le_pow_right (n := 2) (by norm_num) (show 60 ≤ m by omega)
      omega
    have hpos := Nat.two_pow_pos m
    have hmask : (newsize nel - 1).toNat = 2 ^ m - 1 := by
      rw [UInt64.toNat_sub_of_le _ _ (UInt64.le_iff_toNat_le.2 (by rw [hsize]; exact hpos)), hsize]
      rfl
    have hcleared : names str (replicate (2 ^ m) (⟨none, default⟩ : Entry κ δ)) = fun _ => none :=
      funext fun p => names_replicate _ p
    have hkeyed : keyed (replicate (2 ^ m) (⟨none, default⟩ : Entry κ δ)) = 0 := by
      simp [keyed]
    obtain ⟨out, hout, hsizeOut, hhash, hcount, hmem⟩ :=
      rehash_ok happart (replicate (2 ^ m) ⟨none, default⟩)
      ⟨hleast, hmost, length_replicate, hmask⟩ (by rw [hcleared]; exact Hashed.empty _)
      (by
        intro x _ y hy k k' _ hk'
        rw [eq_of_mem_replicate hy] at hk'
        exact absurd hk'.symm (some_ne_none k'))
      (by rw [hkeyed]; omega)
    rw [hkeyed, zero_add] at hcount
    refine ⟨m, ⟨out, newsize nel - 1, t.used⟩, ?_, ⟨hsizeOut, hhash, ?_, ?_⟩, hcount, fun y hy => ?_⟩
    · dsimp only
      rw [hout]
      rfl
    · rw [hused, hcount]
    · -- the new table is at most half full, and has at least eight slots
      rw [hcount]
      omega
    · rw [hmem y hy]
      refine or_iff_right fun h => hy ?_
      rw [eq_of_mem_replicate h]

variable {t : Tab κ δ}

/-- **An entry is added**, or taken back. -/
theorem enterAt_step (h : TabOk str n t) {c : Call κ δ} (haction : c.action = .enter)
    (hput : Put str n t e p c) :
    ∃ out t' m, enterAt str c p t = some (out, t') ∧ TabOk str m t' ∧
      MapStep str c (contents str t) (out.bind t'.entryAt) (contents str t') := by
  have hmost : 2 ^ n ≤ 2 ^ 59 := Nat.pow_le_pow_right (by norm_num) h.size.most
  have hload := h.load
  have hkeyed := hput.keyed
  have hused := hput.used h
  have hnone : contents str t (str c.key) = none := contents_eq_none hput.absent
  rw [enterAt]
  by_cases hfull : t.mask - t.mask / 4 < (t.put p c).used
  · have hnel : (2 * (t.put p c).used).toNat = 2 * (keyed t.entries + 1) := by
      rw [UInt64.toNat_mul, hused, hkeyed]
      exact mod_eq_of_lt (by change 2 * (keyed t.entries + 1) < 2 ^ 64; omega)
    rw [if_pos hfull]
    rcases resize_ok _ _ c.granted (apart_of_hashed hput.hashed) hused (by rw [hnel]; omega) with
      ⟨hres, hbig⟩ | ⟨m, t2, hres, hok, hkeyed2, hmem⟩
    · -- no memory: the slot is empty again
      rw [hres]
      refine ⟨none, (t.put p c).takeBack p, n, rfl, hput.takeBack h, ?_⟩
      rw [hput.contents_takeBack h]
      refine MapStep.refused hnone haction fun hgranted => ?_
      have := hbig hgranted
      rw [← keyed_eq_ncard h.hashed]
      omega
    · -- the entry is looked up in the new table
      have hcont := hput.contents h hok.hashed hmem
      obtain ⟨r, _, hlook, _, hstop⟩ := lookup_stops hok.size hok.hasRoom c.key
      have hname : names str t2.entries (places m (str c.key) r) = some (str c.key) := by
        refine hstop.stop.resolve_left fun hempty => ?_
        have habsent := contents_eq_none (hstop.absent hok.hashed hempty)
        rw [hcont, update_self] at habsent
        exact some_ne_none _ habsent
      rw [hres]
      refine ⟨some (places m (str c.key) r), t2, m, ?_, hok, ?_⟩
      · rw [bind_eq_bind, bind_some]
        dsimp only
        rw [hlook]
        rfl
      · rw [bind_some, entryAt_eq hok.hashed hname, hcont, update_self]
        exact MapStep.added hnone haction
  · rw [if_neg hfull]
    refine ⟨some p, t.put p c, n, rfl, ⟨h.size_put p c, hput.hashed, hused, ?_⟩, ?_⟩
    · rw [← hused, ← h.limit]
      exact Nat.le_of_not_lt fun hlt => hfull (UInt64.lt_iff_toNat_lt.2 hlt)
    · rw [bind_some, entryAt_eq hput.hashed hput.names_eq, hput.contents h hput.hashed (fun _ _ => .rfl),
        update_self]
      exact MapStep.added hnone haction

/-- **One call.** -/
theorem hsearchR_step (h : TabOk str n t) (c : Call κ δ) :
    ∃ e t' m, hsearchR str c t = some (e, t') ∧ TabOk str m t' ∧
      MapStep str c (contents str t) (e.bind t'.entryAt) (contents str t') := by
  obtain ⟨r, x, hlook, hslot, hstop⟩ := lookup_stops h.size h.hasRoom c.key
  rw [hsearchR, hlook, bind_eq_bind, bind_some, hslot, bind_some]
  cases hkey : x.key with
  | some k =>
    -- the key is there
    have hname : names str t.entries (places n (str c.key) r) = some (str c.key) := by
      refine hstop.stop.resolve_left fun hempty => ?_
      rw [names_of_slot hslot, hkey] at hempty
      exact some_ne_none _ hempty
    have hentry : t.entryAt (places n (str c.key) r) = some (k, x.data) := by
      rw [Tab.entryAt, hslot]
      simp [hkey]
    refine ⟨some (places n (str c.key) r), t, n, rfl, h, ?_⟩
    rw [bind_some, hentry]
    apply MapStep.present
    rw [← entryAt_eq h.hashed hname, hentry]
  | none =>
    have hput := Put.of_stop h hstop hslot hkey
    cases haction : c.action with
    | find => exact ⟨none, t, n, rfl, h, MapStep.notFound (contents_eq_none hput.absent) haction⟩
    | enter => exact enterAt_step h haction hput

/-- **A sequence of calls.** -/
theorem hsearchRun_ok : ∀ (cs : List (Call κ δ)) {n : ℕ} {t : Tab κ δ}, TabOk str n t →
    ∃ outs t' m, hsearchRun str cs t = some (outs, t') ∧ TabOk str m t' ∧
      MapRun str (contents str t) cs outs (contents str t') := by
  intro cs
  induction cs with
  | nil =>
    intro n t h
    exact ⟨[], t, n, rfl, h, MapRun.nil⟩
  | cons c cs ih =>
    intro n t h
    obtain ⟨e, t1, m, hcall, h1, hstep⟩ := hsearchR_step h c
    obtain ⟨outs, t', m', hrun, h', hsteps⟩ := ih h1
    refine ⟨e.bind t1.entryAt :: outs, t', m', ?_, h', MapRun.cons hstep hsteps⟩
    rw [hsearchRun, hcall, bind_eq_bind, bind_some]
    dsimp only
    rw [hrun]
    rfl

variable (κ δ str) in
lemma hcreateR_ok (nel : UInt64) (grantedTab granted : Bool) :
    ∃ r : Option (Tab κ δ), hcreateR str nel grantedTab granted = some r ∧
      ∀ t, r = some t → (∃ n, TabOk str n t) ∧ contents str t = fun _ => none := by
  rw [hcreateR]
  by_cases htab : grantedTab = false
  · exact ⟨none, if_pos htab, fun t ht => absurd ht.symm (some_ne_none t)⟩
  rw [if_neg htab]
  have hnil : ([] : List (Entry κ δ)).Pairwise (Apart str) := Pairwise.nil
  rcases resize_ok ⟨[], 0, 0⟩ nel granted hnil rfl (zero_le _) with
    ⟨hres, _⟩ | ⟨m, t', hres, hok, _, hmem⟩
  · rw [hres]
    exact ⟨none, rfl, fun t ht => absurd ht.symm (some_ne_none t)⟩
  · rw [hres]
    refine ⟨some t', rfl, fun t ht => ?_⟩
    obtain rfl := some.inj ht
    refine ⟨⟨m, hok⟩, funext fun name => ?_⟩
    rw [eq_none_iff_forall_not_mem]
    rintro ⟨k, d⟩ hkd
    have hin := ((contents_eq_some hok.hashed).1 hkd).1
    rw [hmem _ (by simp)] at hin
    exact absurd hin not_mem_nil

variable (str) in
/-- **`hsearch` refines a finite map.**  Whatever the size that was asked for and whenever `calloc`
fails, every sequence of calls returns; what the calls return, and what the table stores after them,
are those of a finite map, `used` is the number of its names, and a slot is empty. -/
theorem hsearch_refines_map (nel : UInt64) (grantedTab granted : Bool) :
    ∃ r : Option (Tab κ δ), hcreateR str nel grantedTab granted = some r ∧
      ∀ t₀, r = some t₀ → ∀ cs : List (Call κ δ), ∃ outs t, hsearchRun str cs t₀ = some (outs, t) ∧
        MapRun str (fun _ => none) cs outs (contents str t) ∧
        t.used.toNat = {name | (contents str t name).isSome}.ncard ∧ ∃ e ∈ t.entries, e.key = none := by
  obtain ⟨r, hcreate, hok⟩ := hcreateR_ok κ δ str nel grantedTab granted
  refine ⟨r, hcreate, fun t₀ ht0 cs => ?_⟩
  obtain ⟨⟨n, h0⟩, hempty⟩ := hok t₀ ht0
  obtain ⟨outs, t, m, hrun, h, hsteps⟩ := hsearchRun_ok cs h0
  exact ⟨outs, t, hrun, hempty ▸ hsteps, h.used.trans (keyed_eq_ncard h.hashed), h.hasRoom⟩

/-- A second entry of the same name is not stored. -/
example : ((hcreateR id 5 true true).bind fun r => r.bind fun t =>
    (hsearchRun id [⟨[97], 1, .enter, true⟩, ⟨[97], 2, .enter, true⟩, ⟨[98], 0, .find, true⟩] t).map
    (fun r => r.1)) =
      some [some ([97], 1), some ([97], (1 : ℕ)), none] := by decide +kernel

end Calls

end Model

end Musl.Search
