import Mathlib

/-!
# Symbol lookup by either hash table

`ldso/dynlink.c` looks a symbol up in the GNU hash table of an object if it has one, and in its SysV
hash table otherwise.  The SysV table is an array of buckets and a linked chain for each of them;
the GNU table has a Bloom filter of two bits a symbol before its buckets, and its chains are runs of
consecutive symbols whose hash values are compared without their lowest bit.

The tables are lists of 32-bit words, as in the file.  Reading past the end of one is `none`, and so
is a loop that has not ended after as many steps as the table has words.  A symbol is known by its
index, an object by its place in the list of those that are searched.
-/

namespace Musl.Ldso.Symbols

open List Option

/-- `Sym`, the fields that a search reads. -/
structure Sym where
  name : UInt32
  info : UInt8
  shndx : UInt16
  value : UInt64
deriving DecidableEq

/-- The symbol table of a `struct dso`; a null pointer is `none`. -/
structure Symtab where
  syms : List Sym
  strings : List UInt8
  versym : Option (List Int16)

/-- `struct dso`, the fields that a search reads. -/
structure Dso extends Symtab where
  hashtab : Option (List UInt32)
  ghashtab : Option (List UInt32)

/-! ### The hash functions -/

def sysvHash (s : List UInt8) : UInt32 :=
  let h := s.foldl (fun (h : UInt32) c =>
    let h := 16 * h + c.toUInt32
    h ^^^ (h >>> 24 &&& 0xf0)) 0
  h &&& 0xfffffff

def gnuHash (s : List UInt8) : UInt32 := s.foldl (fun h c => h + (h * 32 + c.toUInt32)) 5381

/-! ### The two lookups -/

def cstr (strings : List UInt8) (off : ℕ) : Option (List UInt8) :=
  if 0 ∈ strings.drop off then some ((strings.drop off).takeWhile (· ≠ 0)) else none

/-- `!dso->versym || dso->versym[i] >= 0`. -/
def visible (t : Symtab) (i : UInt32) : Option Bool :=
  match t.versym with
  | none => some true
  | some v => (v[i.toNat]?).map fun x => decide (0 ≤ x)

def nameOf (t : Symtab) (i : UInt32) : Option (List UInt8) :=
  (t.syms[i.toNat]?).bind fun sym => cstr t.strings sym.name.toNat

/-- The test that both loops make: the symbol is visible and its name is `s`. -/
def isNamed (t : Symtab) (s : List UInt8) (i : UInt32) : Option Bool := do
  if ← visible t i then
    let name ← nameOf t i
    return s == name
  else return false

/-- `hashtab[2+b]` of a SysV table, in the arithmetic of its words. -/
def sysvBucket (tab : List UInt32) (b : UInt32) : Option UInt32 := tab[(2 + b).toNat]?

/-- `hashtab[2+hashtab[0]+i]` of a SysV table. -/
def sysvNext (tab : List UInt32) (nbucket i : UInt32) : Option UInt32 :=
  tab[(2 + nbucket).toNat + i.toNat]?

/-- The loop of `sysv_lookup`, from symbol `i` on. -/
def sysvLoop (t : Symtab) (tab : List UInt32) (nbucket : UInt32) (s : List UInt8) :
    ℕ → UInt32 → Option (Option UInt32)
  | 0, _ => none
  | fuel + 1, i =>
    if i = 0 then some none
    else do
      if ← isNamed t s i then return some i
      let next ← sysvNext tab nbucket i
      sysvLoop t tab nbucket s fuel next

/-- `sysv_lookup` in the table `tab`. -/
def sysvLookup (s : List UInt8) (h : UInt32) (t : Symtab) (tab : List UInt32) :
    Option (Option UInt32) := do
  let nbucket ← tab[0]?
  if nbucket = 0 then none
  else
    let first ← sysvBucket tab (h % nbucket)
    sysvLoop t tab nbucket s tab.length first

/-- The loop of `gnu_lookup`, from symbol `i` on, whose hash value is the word at `place`. -/
def gnuLoop (t : Symtab) (tab : List UInt32) (s : List UInt8) (h1 : UInt32) :
    ℕ → UInt32 → ℕ → Option (Option UInt32)
  | 0, _, _ => none
  | fuel + 1, i, place => do
    let h2 ← tab[place]?
    let found ← if h1 = h2 ||| 1 then isNamed t s i else some false
    if found then return some i
    if h2 &&& 1 ≠ 0 then return none
    gnuLoop t tab s h1 fuel (i + 1) (place + 1)

def bucketsAt (bloomSize : UInt32) : ℕ := 4 + bloomSize.toNat * 2

def gnuLookup (h1 : UInt32) (tab : List UInt32) (t : Symtab) (s : List UInt8) :
    Option (Option UInt32) := do
  let nbuckets ← tab[0]?
  let symoffset ← tab[1]?
  let bloomSize ← tab[2]?
  if nbuckets = 0 then none
  else
    let i ← tab[bucketsAt bloomSize + (h1 % nbuckets).toNat]?
    if i = 0 then return none
    gnuLoop t tab s (h1 ||| 1) tab.length i (bucketsAt bloomSize + nbuckets.toNat + (i - symoffset).toNat)

/-- `bloomwords[k]`, two words of the table. -/
def bloomWord (tab : List UInt32) (k : ℕ) : Option UInt64 := do
  let low ← tab[4 + 2 * k]?
  let high ← tab[5 + 2 * k]?
  return low.toUInt64 ||| (high.toUInt64 <<< 32)

def gnuLookupFiltered (h1 : UInt32) (tab : List UInt32) (t : Symtab) (s : List UInt8) (fofs : UInt32)
    (fmask : UInt64) : Option (Option UInt32) := do
  let bloomSize ← tab[2]?
  let shift ← tab[3]?
  let f ← bloomWord tab (fofs &&& (bloomSize - 1)).toNat
  if f &&& fmask = 0 then return none
  if (f >>> ((h1 >>> shift) % 64).toUInt64) &&& 1 = 0 then return none
  gnuLookup h1 tab t s

/-- `gh / (8*sizeof(size_t))`. -/
def gnuWord (gh : UInt32) : UInt32 := gh / 64

/-- `1ul << gh % (8*sizeof(size_t))`. -/
def gnuMask (gh : UInt32) : UInt64 := 1 <<< (gh % 64).toUInt64

/-! ### The search through a list of objects -/

def okTypes : ℕ := 1 <<< 0 ||| 1 <<< 1 ||| 1 <<< 2 ||| 1 <<< 5 ||| 1 <<< 6

def okBinds : ℕ := 1 <<< 1 ||| 1 <<< 2 ||| 1 <<< 10

/-- What `find_sym2` asks of a symbol that was found; `STT_TLS` is 6. -/
def acceptable (needDef : Bool) (sym : Sym) : Bool :=
  let type := (sym.info &&& 0xf).toNat
  let bind := (sym.info >>> 4).toNat
  !(sym.shndx == 0 && (needDef || type == 6)) && !(sym.value == 0 && type != 6) &&
    1 <<< type &&& okTypes != 0 && 1 <<< bind &&& okBinds != 0

/-- The lookup in one object, with the SysV hash as far as it is known (0 if it is not). -/
def lookupIn (s : List UInt8) (h : UInt32) (d : Dso) : Option (Option UInt32 × UInt32) :=
  match d.ghashtab with
  | some ght => do
    let gh := gnuHash s
    let sym ← gnuLookupFiltered gh ght d.toSymtab s (gnuWord gh) (gnuMask gh)
    return (sym, h)
  | none => do
    let h := if h = 0 then sysvHash s else h
    let tab ← d.hashtab
    let sym ← sysvLookup s h d.toSymtab tab
    return (sym, h)

/-- The loop of `find_sym2` over the objects from the `k`th on: the object and the symbol. -/
def findLoop (s : List UInt8) (needDef : Bool) : ℕ → UInt32 → List Dso → Option (Option (ℕ × UInt32))
  | _, _, [] => some none
  | k, h, d :: ds => do
    let r ← lookupIn s h d
    match r.1 with
    | none => findLoop s needDef (k + 1) r.2 ds
    | some i =>
      let sym ← d.syms[i.toNat]?
      if acceptable needDef sym then return some (k, i)
      findLoop s needDef (k + 1) r.2 ds

/-- `find_sym2` over the objects that it visits. -/
def findSym2 (s : List UInt8) (needDef : Bool) (ds : List Dso) : Option (Option (ℕ × UInt32)) :=
  findLoop s needDef 0 0 ds

/-! ### Well-formed tables -/

/-- The symbols that are in the hash tables: each has a name and, if there are versions, one of
those; the names of the visible ones are different. -/
structure SymbolSet (t : Symtab) (S : Set UInt32) : Prop where
  named : ∀ i ∈ S, ∃ name, nameOf t i = some name
  versioned : ∀ i ∈ S, ∃ v, visible t i = some v
  distinct : ∀ i ∈ S, ∀ j ∈ S, visible t i = some true → visible t j = some true →
    nameOf t i = nameOf t j → i = j

/-- The chain of a SysV table from symbol `i` on. -/
inductive SysvChain (tab : List UInt32) (nbucket : UInt32) : UInt32 → List UInt32 → Prop
  | done : SysvChain tab nbucket 0 []
  | step {i next l} (hi : i ≠ 0) (hnext : sysvNext tab nbucket i = some next)
  (h : SysvChain tab nbucket next l) :
      SysvChain tab nbucket i (i :: l)

/-- A SysV table: every chain ends and holds symbols of the set only, and each of those is in the
chain of its hash. -/
structure SysvTable (t : Symtab) (S : Set UInt32) where
  tab : List UInt32
  nbucket : UInt32
  chain : UInt32 → List UInt32
  nbucket_eq : tab[0]? = some nbucket
  nbucket_pos : nbucket ≠ 0
  chains : ∀ b < nbucket, ∃ first, sysvBucket tab b = some first ∧ SysvChain tab nbucket first (chain b)
  sound : ∀ b < nbucket, ∀ i ∈ chain b, i ∈ S
  complete : ∀ i ∈ S, ∀ name, nameOf t i = some name → i ∈ chain (sysvHash name % nbucket)

/-- The chain of a GNU table from symbol `i` on, each with its hash value: it ends with the first
odd one. -/
inductive GnuChain (tab : List UInt32) : UInt32 → ℕ → List (UInt32 × UInt32) → Prop
  | last {i place h2} (hh : tab[place]? = some h2) (hodd : h2 &&& 1 ≠ 0) : GnuChain tab i place [(i, h2)]
  | step {i place h2 l} (hh : tab[place]? = some h2) (heven : h2 &&& 1 = 0)
  (h : GnuChain tab (i + 1) (place + 1) l) :
      GnuChain tab i place ((i, h2) :: l)

/-- A GNU table: every chain ends and holds symbols of the set only, each of those is in the chain
of its hash with its hash value but for the lowest bit, the size of the filter is a power of two,
and both bits of every symbol are set in it. -/
structure GnuTable (t : Symtab) (S : Set UInt32) where
  tab : List UInt32
  nbuckets : UInt32
  symoffset : UInt32
  bloomSize : UInt32
  shift : UInt32
  chain : UInt32 → List (UInt32 × UInt32)
  nbuckets_eq : tab[0]? = some nbuckets
  symoffset_eq : tab[1]? = some symoffset
  bloomSize_eq : tab[2]? = some bloomSize
  shift_eq : tab[3]? = some shift
  nbuckets_pos : nbuckets ≠ 0
  bloom_pow : ∃ e, bloomSize.toNat = 2 ^ e
  bloom_words : ∀ k < bloomSize.toNat, ∃ w, bloomWord tab k = some w
  chains : ∀ b < nbuckets, ∃ first, tab[bucketsAt bloomSize + b.toNat]? = some first ∧
    (first = 0 ∧ chain b = [] ∨ first ≠ 0 ∧
      GnuChain tab first (bucketsAt bloomSize + nbuckets.toNat + (first - symoffset).toNat) (chain b))
  sound : ∀ b < nbuckets, ∀ x ∈ chain b, x.1 ∈ S
  complete : ∀ i ∈ S, ∀ name, nameOf t i = some name →
    ∃ h2, (i, h2) ∈ chain (gnuHash name % nbuckets) ∧ gnuHash name ||| 1 = h2 ||| 1
  bloom : ∀ i ∈ S, ∀ name, nameOf t i = some name → ∀ w,
    bloomWord tab (gnuWord (gnuHash name) &&& (bloomSize - 1)).toNat = some w →
      w &&& gnuMask (gnuHash name) ≠ 0 ∧ (w >>> ((gnuHash name >>> shift) % 64).toUInt64) &&& 1 ≠ 0

/-! ### What a lookup has to find -/

section Lookup

variable {t : Symtab} {S : Set UInt32} {s : List UInt8} {r r' : Option UInt32} {i : UInt32}

/-- The symbol is one of the set, visible, and has the name. -/
def Carries (t : Symtab) (S : Set UInt32) (s : List UInt8) (i : UInt32) : Prop :=
  i ∈ S ∧ visible t i = some true ∧ nameOf t i = some s

/-- The result of a lookup is the symbol that has the name, if there is one. -/
def Finds (t : Symtab) (S : Set UInt32) (s : List UInt8) (r : Option UInt32) : Prop :=
  ∀ i, r = some i ↔ Carries t S s i

lemma Finds.unique (h : Finds t S s r) (h' : Finds t S s r') : r = r' :=
  Option.ext fun i => (h i).trans (h' i).symm

lemma isNamed_eq (h : SymbolSet t S) (hi : i ∈ S) :
    ∃ b, isNamed t s i = some b ∧ (b = true ↔ Carries t S s i) := by
  obtain ⟨name, hname⟩ := h.named i hi
  obtain ⟨v, hv⟩ := h.versioned i hi
  cases v with
  | false => exact ⟨false, by simp [isNamed, hv], by simp [Carries, hv]⟩
  | true =>
    refine ⟨s == name, by simp [isNamed, hv, hname], ?_⟩
    simp only [Carries, hi, hv, hname, beq_iff_eq, true_and, some.injEq]
    exact eq_comm

lemma finds_find (h : SymbolSet t S) {l : List UInt32} {p : UInt32 → Bool}
    (hp : ∀ i ∈ l, p i = true ↔ Carries t S s i) (hall : ∀ i, Carries t S s i → i ∈ l) :
    Finds t S s (l.find? p) := by
  intro i
  constructor
  · intro hi
    exact (hp i (mem_of_find?_eq_some hi)).1 (find?_some hi)
  · intro hi
    have hsome : (l.find? p).isSome := find?_isSome.2 ⟨i, hall i hi, (hp i (hall i hi)).2 hi⟩
    obtain ⟨j, hj⟩ := isSome_iff_exists.1 hsome
    have hc := (hp j (mem_of_find?_eq_some hj)).1 (find?_some hj)
    rw [hj, h.distinct j hc.1 i hi.1 hc.2.1 hi.2.1 (hc.2.2.trans hi.2.2.symm)]

end Lookup

section Sysv

variable {t : Symtab} {S : Set UInt32} {s : List UInt8} {tab : List UInt32} {nbucket i : UInt32}
    {l l' : List UInt32}

section

variable (h : SysvChain tab nbucket i l)

include h

lemma SysvChain.unique (h' : SysvChain tab nbucket i l') : l = l' := by
  induction h generalizing l' with
  | done =>
    cases h' with
    | done => rfl
    | step hi => exact absurd rfl hi
  | @step i next l hi hnext _ ih =>
    cases h' with
    | done => exact absurd rfl hi
    | step _ hnext' h' =>
      rw [hnext] at hnext'
      cases hnext'
      rw [ih h']

lemma SysvChain.from_mem {j : UInt32} (hj : j ∈ l) :
    ∃ l', SysvChain tab nbucket j l' ∧ l'.length ≤ l.length := by
  induction h with
  | done => simp at hj
  | @step i next l hi hnext h ih =>
    rcases mem_cons.1 hj with rfl | hj
    · exact ⟨_, .step hi hnext h, le_rfl⟩
    · obtain ⟨l', h', hle⟩ := ih hj
      exact ⟨l', h', hle.trans (by simp)⟩

/-- A chain that ends does not come back to a symbol, since a symbol has one successor. -/
lemma SysvChain.nodup : l.Nodup := by
  induction h with
  | done => exact nodup_nil
  | @step i next l hi hnext h ih =>
    refine nodup_cons.2 ⟨fun hmem => ?_, ih⟩
    obtain ⟨l', h', hle⟩ := h.from_mem hmem
    have := (SysvChain.step hi hnext h).unique h'
    rw [← this] at hle
    simp at hle

lemma SysvChain.place_lt : ∀ j ∈ l, 0 < j.toNat ∧ (2 + nbucket).toNat + j.toNat < tab.length := by
  induction h with
  | done => simp
  | @step i next l hi hnext _ ih =>
    have hpos : 0 < i.toNat := pos_of_ne_zero fun h0 => hi (UInt32.toNat_inj.1 h0)
    exact forall_mem_cons.2 ⟨⟨hpos, (List.getElem?_eq_some_iff.1 hnext).1⟩, ih⟩

/-- A chain has fewer symbols than the table has words: the words that link them are different, and
none is the first.
-/
lemma SysvChain.length_lt (hpos : 0 < tab.length) : l.length < tab.length := by
  have hinj : (l.map UInt32.toNat).Nodup := h.nodup.map fun _ _ => UInt32.toNat_inj.1
  have hsub : l.map UInt32.toNat ⊆ (range tab.length).erase 0 := by
    intro n hn
    obtain ⟨j, hj, rfl⟩ := mem_map.1 hn
    have := h.place_lt j hj
    rw [nodup_range.mem_erase_iff, mem_range]
    omega
  have hlen := (hinj.subperm hsub).length_le
  rw [length_map, length_erase_of_mem (mem_range.2 hpos), length_range] at hlen
  omega

end

lemma sysvLoop_eq (hS : SymbolSet t S) (h : SysvChain tab nbucket i l) (hsub : ∀ j ∈ l, j ∈ S) {fuel : ℕ}
    (hfuel : l.length < fuel) :
    sysvLoop t tab nbucket s fuel i = some (l.find? fun j => isNamed t s j == some true) := by
  induction h generalizing fuel with
  | done =>
    obtain ⟨fuel, rfl⟩ := Nat.exists_eq_add_one.2 hfuel
    rfl
  | @step i next l hi hnext _ ih =>
    obtain ⟨fuel, rfl⟩ := Nat.exists_eq_add_one.2 (Nat.zero_lt_of_lt hfuel)
    obtain ⟨b, hb, -⟩ := isNamed_eq hS (hsub i mem_cons_self)
    rw [sysvLoop, if_neg hi, hb]
    cases b with
    | true => simp [hb]
    | false =>
      have hrec := ih (forall_mem_cons.1 hsub).2 (Nat.lt_of_succ_lt_succ hfuel)
      simp [hb, hnext, hrec]

/-- **The lookup in a SysV table** finds the symbol that has the name. -/
theorem sysvLookup_spec (hS : SymbolSet t S) (T : SysvTable t S) (s : List UInt8) :
    ∃ r, sysvLookup s (sysvHash s) t T.tab = some r ∧ Finds t S s r := by
  have hb : sysvHash s % T.nbucket < T.nbucket := UInt32.mod_lt _ (UInt32.pos_iff_ne_zero.2 T.nbucket_pos)
  obtain ⟨first, hfirst, hchain⟩ := T.chains _ hb
  have hsub := T.sound _ hb
  have hpos : 0 < T.tab.length := (List.getElem?_eq_some_iff.1 T.nbucket_eq).1
  refine ⟨_, ?_, finds_find hS (l := T.chain (sysvHash s % T.nbucket)) (p := fun j =>
    isNamed t s j == some true) ?_ ?_⟩
  · rw [sysvLookup, T.nbucket_eq]
    simp only [bind_eq_bind, bind_some, if_neg T.nbucket_pos, hfirst]
    exact sysvLoop_eq hS hchain hsub (hchain.length_lt hpos)
  · intro i hi
    obtain ⟨b, hb, hiff⟩ := isNamed_eq hS (hsub i hi)
    rw [hb, ← hiff]
    simp
  · intro i hi
    exact T.complete i hi.1 s hi.2.2

end Sysv

section Gnu

variable {t : Symtab} {S : Set UInt32} {s : List UInt8} {tab : List UInt32} {i h1 : UInt32} {place : ℕ}
  {l : List (UInt32 × UInt32)}

lemma GnuChain.length_le (h : GnuChain tab i place l) : place + l.length ≤ tab.length := by
  induction h with
  | last hh _ => exact (List.getElem?_eq_some_iff.1 hh).1
  | step hh _ _ ih =>
    rw [length_cons]
    omega

lemma gnuLoop_eq (hS : SymbolSet t S) (h : GnuChain tab i place l) (hsub : ∀ x ∈ l, x.1 ∈ S) {fuel : ℕ}
    (hfuel : l.length ≤ fuel) : gnuLoop t tab s h1 fuel i place =
      some ((l.filter fun x => h1 == x.2 ||| 1).map Prod.fst |>.find? fun j =>
        isNamed t s j == some true) := by
  induction h generalizing fuel with
  | @last i place h2 hh hodd =>
    obtain ⟨fuel, rfl⟩ := Nat.exists_eq_add_one.2 (lt_of_lt_of_le zero_lt_one hfuel)
    obtain ⟨b, hb, -⟩ := isNamed_eq (s := s) hS (hsub _ mem_cons_self)
    by_cases heq : h1 = h2 ||| 1 <;> cases b <;> simp_all [gnuLoop]
  | @step i place h2 l hh heven h ih =>
    obtain ⟨fuel, rfl⟩ := Nat.exists_eq_add_one.2 (lt_of_lt_of_le (Nat.zero_lt_succ _) hfuel)
    obtain ⟨b, hb, -⟩ := isNamed_eq (s := s) hS (hsub _ mem_cons_self)
    have hrec := ih (forall_mem_cons.1 hsub).2 (Nat.le_of_succ_le_succ hfuel)
    rw [gnuLoop, hh]
    by_cases heq : h1 = h2 ||| 1
    · cases b with
      | true => simp [heq, hb]
      | false => simp [hb, heven, hrec]
    · simp [heq, heven, hrec]

lemma GnuTable.bloomWord_some (T : GnuTable t S) (fofs : UInt32) :
    ∃ w, bloomWord T.tab (fofs &&& (T.bloomSize - 1)).toNat = some w := by
  obtain ⟨e, he⟩ := T.bloom_pow
  have hpos : 0 < T.bloomSize.toNat := he ▸ Nat.two_pow_pos e
  have hone : (T.bloomSize - 1).toNat = T.bloomSize.toNat - 1 :=
    UInt32.toNat_sub_of_le _ _ (UInt32.le_iff_toNat_le.2 hpos)
  apply T.bloom_words
  calc (fofs &&& (T.bloomSize - 1)).toNat ≤ (T.bloomSize - 1).toNat := by
        exact Nat.and_le_right
    _ < T.bloomSize.toNat := by omega

lemma gnuLookup_spec (hS : SymbolSet t S) (T : GnuTable t S) (s : List UInt8) :
    ∃ r, gnuLookup (gnuHash s) T.tab t s = some r ∧ Finds t S s r := by
  have hb : gnuHash s % T.nbuckets < T.nbuckets :=
    UInt32.mod_lt _ (UInt32.pos_iff_ne_zero.2 T.nbuckets_pos)
  obtain ⟨first, hfirst, hchain⟩ := T.chains _ hb
  have hsub := T.sound _ hb
  set l := T.chain (gnuHash s % T.nbuckets)
  refine ⟨_, ?_, finds_find hS (l := (l.filter fun x => gnuHash s ||| 1 == x.2 ||| 1).map Prod.fst)
    (p := fun j => isNamed t s j == some true) ?_ ?_⟩
  · rw [gnuLookup, T.nbuckets_eq, T.symoffset_eq, T.bloomSize_eq]
    simp only [bind_eq_bind, bind_some, if_neg T.nbuckets_pos, hfirst]
    rcases hchain with ⟨rfl, hnil⟩ | ⟨hne, hchain⟩
    · rw [hnil]
      rfl
    · rw [if_neg hne]
      exact gnuLoop_eq hS hchain hsub (Nat.le_of_add_left_le hchain.length_le)
  · intro i hi
    obtain ⟨x, hx, rfl⟩ := mem_map.1 hi
    obtain ⟨b, hb, hiff⟩ := isNamed_eq hS (hsub x (mem_of_mem_filter hx))
    rw [hb, ← hiff]
    simp
  · intro i hi
    obtain ⟨h2, hmem, heq⟩ := T.complete i hi.1 s hi.2.2
    exact mem_map.2 ⟨(i, h2), mem_filter.2 ⟨hmem, beq_iff_eq.2 heq⟩, rfl⟩

/-- **The lookup in a GNU table** finds the symbol that has the name: the filter only keeps names
out that no symbol has. -/
theorem gnuLookupFiltered_spec (hS : SymbolSet t S) (T : GnuTable t S) (s : List UInt8) :
    ∃ r, gnuLookupFiltered (gnuHash s) T.tab t s (gnuWord (gnuHash s)) (gnuMask (gnuHash s)) = some r ∧
      Finds t S s r := by
  obtain ⟨w, hw⟩ := T.bloomWord_some (gnuWord (gnuHash s))
  have hnone : ¬(w &&& gnuMask (gnuHash s) ≠ 0 ∧
    (w >>> ((gnuHash s >>> T.shift) % 64).toUInt64) &&& 1 ≠ 0) →
      Finds t S s none := by
    intro hbits i
    constructor
    · intro h
      cases h
    · intro hi
      exact absurd (T.bloom i hi.1 s hi.2.2 w hw) hbits
  rw [gnuLookupFiltered, T.bloomSize_eq, T.shift_eq]
  simp only [bind_eq_bind, bind_some, hw]
  by_cases h1 : w &&& gnuMask (gnuHash s) = 0
  · rw [if_pos h1]
    exact ⟨none, rfl, hnone fun h => h.1 h1⟩
  rw [if_neg h1]
  by_cases h2 : (w >>> ((gnuHash s >>> T.shift) % 64).toUInt64) &&& 1 = 0
  · rw [if_pos h2]
    exact ⟨none, rfl, hnone fun h => h.2 h2⟩
  rw [if_neg h2]
  exact gnuLookup_spec hS T s

end Gnu

/-! ### Objects with both tables -/

inductive HashStyle
  | sysv
  | gnu
  | both
deriving DecidableEq

/-- A symbol table with a SysV and a GNU hash table that are well formed over the same symbols. -/
structure Object where
  symtab : Symtab
  symbols : Set UInt32
  symbolSet : SymbolSet symtab symbols
  sysv : SysvTable symtab symbols
  gnu : GnuTable symtab symbols

/-- The object as the dynamic linker sees it, with the tables of a style. -/
def Object.provide (o : Object) : HashStyle → Dso
  | .sysv => { o.symtab with hashtab := some o.sysv.tab, ghashtab := none }
  | .gnu => { o.symtab with hashtab := none, ghashtab := some o.gnu.tab }
  | .both => { o.symtab with hashtab := some o.sysv.tab, ghashtab := some o.gnu.tab }

@[simp] lemma Object.provide_toSymtab (o : Object) (style : HashStyle) :
    (o.provide style).toSymtab = o.symtab := by
  cases style <;> rfl

/-- The symbols `a` and `b`, both of them functions. -/
def twoNames : Symtab where
  syms := [⟨0, 0, 0, 0⟩, ⟨1, 0x12, 1, 0x1000⟩, ⟨3, 0x12, 1, 0x1010⟩]
  strings := [0, 97, 0, 98, 0]
  versym := none

/-- Both of them are in one bucket of each table; the GNU hash values differ in their lowest bit only. -/
def twoNamesObject : Object where
  symtab := twoNames
  symbols := {1, 2}
  symbolSet := {
    named := by rintro i (rfl | rfl); exacts [⟨[97], rfl⟩, ⟨[98], rfl⟩]
    versioned := fun _ _ => ⟨true, rfl⟩
    distinct := by
      rintro i (rfl | rfl) j (rfl | rfl) - - hname
      exacts [rfl, absurd hname (by decide), absurd hname (by decide), rfl] }
  sysv := {
    tab := [1, 3, 1, 0, 2, 0]
    nbucket := 1
    chain := fun _ => [1, 2]
    nbucket_eq := rfl
    nbucket_pos := by decide
    chains := by
      intro b hb
      obtain rfl : b = 0 := UInt32.lt_one_iff.1 hb
      exact ⟨1, rfl, .step (by decide) rfl (.step (by decide) rfl .done)⟩
    sound := by simp
    complete := by simp }
  gnu := {
    tab := [1, 1, 1, 6, 0x10000c0, 0, 1, 177670, 177671]
    nbuckets := 1
    symoffset := 1
    bloomSize := 1
    shift := 6
    chain := fun _ => [(1, 177670), (2, 177671)]
    nbuckets_eq := rfl
    symoffset_eq := rfl
    bloomSize_eq := rfl
    shift_eq := rfl
    nbuckets_pos := by decide
    bloom_pow := ⟨0, rfl⟩
    bloom_words := by
      intro k hk
      obtain rfl : k = 0 := Nat.lt_one_iff.1 hk
      exact ⟨_, rfl⟩
    chains := by
      intro b hb
      obtain rfl : b = 0 := UInt32.lt_one_iff.1 hb
      exact ⟨1, rfl, .inr ⟨by decide, .step rfl (by decide) (.last rfl (by decide))⟩⟩
    sound := by simp
    complete := by
      rintro i (rfl | rfl) name hname
      · obtain rfl : [97] = name := Option.some.inj hname
        exact ⟨177670, by decide, by decide⟩
      · obtain rfl : [98] = name := Option.some.inj hname
        exact ⟨177671, by decide, by decide⟩
    bloom := by
      rintro i (rfl | rfl) name hname w hw
      · obtain rfl : [97] = name := Option.some.inj hname
        obtain rfl : 0x10000c0 = w := Option.some.inj hw
        decide
      · obtain rfl : [98] = name := Option.some.inj hname
        obtain rfl : 0x10000c0 = w := Option.some.inj hw
        decide }

section Find

variable {s : List UInt8} {h h' : UInt32}

def HashKnown (s : List UInt8) (h : UInt32) : Prop := h = 0 ∨ h = sysvHash s

lemma HashKnown.value (hh : HashKnown s h) : (if h = 0 then sysvHash s else h) = sysvHash s := by
  split_ifs with h0
  · rfl
  · exact hh.resolve_left h0

lemma lookupIn_spec (o : Object) (style : HashStyle) (hh : HashKnown s h) :
    ∃ r h', lookupIn s h (o.provide style) = some (r, h') ∧ HashKnown s h' ∧
    Finds o.symtab o.symbols s r := by
  obtain ⟨r1, hr1, hf1⟩ := sysvLookup_spec o.symbolSet o.sysv s
  obtain ⟨r2, hr2, hf2⟩ := gnuLookupFiltered_spec o.symbolSet o.gnu s
  cases style with
  | sysv =>
    refine ⟨r1, sysvHash s, ?_, .inr rfl, hf1⟩
    simp [lookupIn, Object.provide, hh.value, hr1]
  | gnu =>
    refine ⟨r2, h, ?_, hh, hf2⟩
    simp [lookupIn, Object.provide, hr2]
  | both =>
    refine ⟨r2, h, ?_, hh, hf2⟩
    simp [lookupIn, Object.provide, hr2]

lemma Object.sym_of_finds (o : Object) {r : Option UInt32} {i : UInt32}
    (hf : Finds o.symtab o.symbols s r)
    (hr : r = some i) : ∃ sym, o.symtab.syms[i.toNat]? = some sym := by
  obtain ⟨-, -, hname⟩ := (hf i).1 hr
  obtain ⟨sym, hsym, -⟩ := bind_eq_some_iff.1 hname
  exact ⟨sym, hsym⟩

lemma findLoop_style (needDef : Bool) (os : List (Object × HashStyle × HashStyle)) (k : ℕ)
    (hh : HashKnown s h)
    (hh' : HashKnown s h') : ∃ r, findLoop s needDef k h (os.map fun o => o.1.provide o.2.1) = some r ∧
      findLoop s needDef k h' (os.map fun o => o.1.provide o.2.2) = some r := by
  induction os generalizing k h h' with
  | nil => exact ⟨none, rfl, rfl⟩
  | cons o os ih =>
    obtain ⟨o, a, b⟩ := o
    obtain ⟨r, h1, hl, hh1, hf⟩ := lookupIn_spec o a hh
    obtain ⟨r', h2, hl', hh2, hf'⟩ := lookupIn_spec o b hh'
    obtain rfl := hf.unique hf'
    obtain ⟨rest, hrest, hrest'⟩ := ih (k + 1) hh1 hh2
    simp only [map_cons, findLoop, hl, hl', bind_eq_bind]
    cases hr : r with
    | none => exact ⟨rest, hrest, hrest'⟩
    | some i =>
      obtain ⟨sym, hsym⟩ := o.sym_of_finds hf hr
      simp only [Object.provide_toSymtab, hsym, bind_some]
      by_cases hacc : acceptable needDef sym = true
      · exact ⟨some (k, i), by rw [if_pos hacc]; rfl, by rw [if_pos hacc]; rfl⟩
      · exact ⟨rest, by rw [if_neg hacc]; exact hrest, by rw [if_neg hacc]; exact hrest'⟩

end Find

/-- **Symbol lookup does not depend on the hash style.**  In an object whose two tables are well
formed over the same symbols, both lookups return for every string the symbol of that name, or null
if there is none; and the search through any list of such objects selects the same definition
whichever tables each of them provides. -/
theorem lookup_style_irrelevant (s : List UInt8) : (∀ o : Object, ∃ r,
      sysvLookup s (sysvHash s) o.symtab o.sysv.tab = some r ∧
      gnuLookupFiltered (gnuHash s) o.gnu.tab o.symtab s (gnuWord (gnuHash s))
      (gnuMask (gnuHash s)) = some r ∧
      ∀ i, r = some i ↔ i ∈ o.symbols ∧ visible o.symtab i = some true ∧ nameOf o.symtab i = some s) ∧
    ∀ (needDef : Bool) (os : List (Object × HashStyle × HashStyle)), ∃ r,
      findSym2 s needDef (os.map fun o => o.1.provide o.2.1) = some r ∧
      findSym2 s needDef (os.map fun o => o.1.provide o.2.2) = some r := by
  constructor
  · intro o
    obtain ⟨r, hr, hf⟩ := sysvLookup_spec o.symbolSet o.sysv s
    obtain ⟨r', hr', hf'⟩ := gnuLookupFiltered_spec o.symbolSet o.gnu s
    obtain rfl := hf.unique hf'
    exact ⟨r, hr, hr', hf⟩
  · intro needDef os
    exact findLoop_style needDef os 0 (.inl rfl) (.inl rfl)

example : findSym2 [98] true [twoNamesObject.provide .sysv] = some (some (0, 2)) ∧
    findSym2 [98] true [twoNamesObject.provide .gnu] = some (some (0, 2)) := by
  decide +kernel

end Musl.Ldso.Symbols
