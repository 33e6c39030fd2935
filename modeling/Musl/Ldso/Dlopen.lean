import Musl.Ldso.Ctors

/-!
# `dlopen`

A call of `dlopen` loads a library and what it depends on, makes the dependency list and the
constructor queue, and relocates.  Where something fails, a `longjmp` leads back to `dlopen`, which
cuts the lists off at their old ends and puts the old counters back.

The contents of memory that relocations write, the threads' copies of thread-local storage and the
run of the constructors are not part of the model; none of them can fail.
-/

namespace Musl.Ldso

open Musl.Lib Musl.Lib.PostOrder List Option Prog Nat Function Bool

/-! ### Loading -/

/-- What a file that was found holds: its path, whether it can be mapped, and whether it is another
`libc`. -/
structure OpenFile where
  pathname : Name
  mapped : Bool
  isLibc : Bool
  lib : Library
  deriving DecidableEq, Repr

/-- The files, as they are found by name from an object, and the dynamic linker's own object. -/
structure Files where
  ldso : ℕ
  ldsoName : Name
  find : Name → ℕ → Option OpenFile

/-- `-x` in `size_t`. -/
def neg64 (x : ℕ) : ℕ := (2 ^ 64 - x % 2 ^ 64) % 2 ^ 64

def maxp2 (a b : ℕ) : ℕ := neg64 (neg64 a &&& neg64 b)

/-- `tls_offset += size + align - 1; tls_offset -= (tls_offset + image) & (align-1);` -/
def nextTlsOffset (offset : ℕ) (t : TlsImage) : ℕ :=
  let o := offset + t.size + t.align - 1
  o - ((o + t.image) &&& (t.align - 1))

/-- A new object, as `calloc` and `map_library` leave it. -/
def newDso (f : OpenFile) (shortname : Option Name) : Dso where
  lib := f.lib
  name := f.pathname
  shortname := shortname
  deps := none
  ndepsDirect := 0
  nextDep := 0
  mark := false
  bfsBuilt := false
  relocated := false
  constructed := false
  ctorVisitor := none
  lazy := none
  lazyNext := none
  tlsId := 0
  tlsOffset := 0

/-- The end of `load_library`: the new object gets its thread-local storage and goes to the end of
the list. -/
def Ld.addDso (s : Ld) (f : OpenFile) (shortname : Option Name) : Ld :=
  let p := s.fresh
  match f.lib.tls with
  | none =>
    { s with
      dso := Function.update s.dso p (newDso f shortname)
      dsos := s.dsos ++ [p]
      fresh := p + 1 }
  | some t =>
    { s with
      dso := Function.update s.dso p
        { newDso f shortname with tlsId := s.tlsCnt + 1, tlsOffset := nextTlsOffset s.tlsOffset t }
      dsos := s.dsos ++ [p]
      fresh := p + 1
      tlsCnt := s.tlsCnt + 1
      tlsAlign := maxp2 s.tlsAlign t.align
      tlsOffset := nextTlsOffset s.tlsOffset t
      tlsList := s.tlsList ++ [p] }

def Ld.LazyTyped (s : Ld) : Prop := ∀ p, ∀ r ∈ (s.dso p).lazy.getD [], r.type = .plt ∨ r.type = .got

/-- The state between two calls: the dynamic linker itself is on the list, and all objects are
loaded and relocated. -/
structure Valid (E : Files) (s : Ld) : Prop where
  loaded : s.Loaded
  within : ∀ p ∈ s.dsos, ∀ d ∈ s.depList p, d ∈ s.dsos
  nodup : s.dsos.Nodup ∧ s.syms.Nodup ∧ s.tlsList.Nodup
  below : ∀ p ∈ s.dsos, p < s.fresh
  ldso : E.ldso ∈ s.dsos
  deps : ∀ p ∈ s.dsos, (s.dso p).deps ≠ none
  relocated : ∀ p ∈ s.dsos, (s.dso p).relocated = true
  lazies : s.LazyTyped
  runtime : s.runtime = true
  lddMode : s.lddMode = false

/-- What all steps of a call keep of the state `s` in which it was made. -/
structure Kept (s u : Ld) : Prop where
  dsos : s.dsos <+: u.dsos
  syms : s.syms <+: u.syms
  tlsList : s.tlsList <+: u.tlsList
  lazies : ∀ p ∈ s.dsos, (u.dso p).lazy = (s.dso p).lazy ∧ (u.dso p).lazyNext = (s.dso p).lazyNext
  relocated : ∀ p ∈ s.dsos, (u.dso p).relocated = true
  typed : u.LazyTyped

/-- The same, and no object that was there before is marked. -/
structure Clean (s u : Ld) : Prop extends Kept s u where
  marks : ∀ p ∈ s.dsos, (u.dso p).mark = false

variable {l m extra : List ℕ} {f : Dso → Dso} {p q fuel : ℕ} {r : Reloc} {rs : List Reloc} {v t : Ld}

variable {E : Files} {list : List Name} {s u : Ld}

lemma Ld.LazyTyped.upd (h : u.LazyTyped)
    (hf : ∀ r ∈ (f (u.dso p)).lazy.getD [], r.type = .plt ∨ r.type = .got) :
    (u.upd p f).LazyTyped := by
  intro q
  by_cases hqp : q = p
  · rw [hqp, upd_dso_self]
    exact hf
  · rw [upd_dso_of_ne _ _ hqp]
    exact h q

section

variable (h : Clean s u)

include h

lemma Clean.alloc : Clean s { u with allocs := u.allocs.tail } := { h with }

lemma Clean.upd (hp : (u.dso p).relocated = false)
    (hf : ∀ r ∈ (f (u.dso p)).lazy.getD [], r.type = .plt ∨ r.type = .got) : Clean s (u.upd p f) := by
  have hold : ∀ q ∈ s.dsos, (u.upd p f).dso q = u.dso q := by
    intro q hq
    apply upd_dso_of_ne
    rintro rfl
    rw [h.relocated q hq] at hp
    cases hp
  refine ⟨⟨h.dsos, h.syms, h.tlsList, ?_, ?_, h.typed.upd hf⟩, ?_⟩
  · intro q hq
    rw [hold q hq]
    exact h.lazies q hq
  · intro q hq
    rw [hold q hq]
    exact h.relocated q hq
  · intro q hq
    rw [hold q hq]
    exact h.marks q hq

end

section

variable (h : Clean s u)

include h

end

/-- The state while libraries are loaded; `cur` is the object whose dependencies are read. -/
structure Loading (s : Ld) (cur : Option ℕ) (u : Ld) : Prop where
  dsos : s.dsos <+: u.dsos
  syms : u.syms = s.syms
  tlsList : s.tlsList <+: u.tlsList
  runtime : u.runtime = true
  lddMode : u.lddMode = false
  below : ∀ p ∈ u.dsos, p < u.fresh
  old : ∀ p ∈ s.dsos, u.dso p = { s.dso p with shortname := (u.dso p).shortname }
  new : ∀ p ∈ u.dsos, p ∉ s.dsos → (u.dso p).mark = false ∧ (u.dso p).bfsBuilt = false
  deps : ∀ p ∈ u.dsos, ∀ d ∈ u.depList p, d ∈ u.dsos
  settled : ∀ p ∈ u.dsos, p ∉ s.dsos → cur ≠ some p → (u.dso p).ndepsDirect = (u.depList p).length
  typed : u.LazyTyped
  allocs : u.allocs <:+ s.allocs

/-- Objects stay, and their dependencies stay loaded. -/
structure Later (u v : Ld) : Prop where
  mem : ∀ p ∈ u.dsos, p ∈ v.dsos
  deps : ∀ p ∈ u.dsos, (u.dso p).deps ≠ none → (v.dso p).deps ≠ none

lemma Later.refl (u : Ld) : Later u u := ⟨fun _ h => h, fun _ _ h => h⟩

lemma Later.trans {u w : Ld} (h : Later u v) (h' : Later v w) : Later u w :=
  ⟨fun p hp => h'.mem p (h.mem p hp), fun p hp hd => h'.deps p (h.mem p hp) (h.deps p hp hd)⟩

variable {cur : Option ℕ}

lemma Loading.start (hs : Valid E s) (noload : Bool) : Loading s none { s with noload := noload } where
  dsos := prefix_rfl
  syms := rfl
  tlsList := prefix_rfl
  runtime := hs.runtime
  lddMode := hs.lddMode
  below := hs.below
  old _ _ := rfl
  new _ hp hnew := absurd hp hnew
  deps := hs.within
  settled _ hp hnew := absurd hp hnew
  typed := hs.lazies
  allocs := suffix_rfl

lemma Loading.clean (h : Loading s cur u) (hs : Valid E s) : Clean s u where
  dsos := h.dsos
  syms := by rw [h.syms]
  tlsList := h.tlsList
  lazies p hp := by
    rw [h.old p hp]
    exact ⟨rfl, rfl⟩
  relocated p hp := by
    rw [h.old p hp]
    exact hs.relocated p hp
  typed := h.typed
  marks p hp := by
    rw [h.old p hp]
    exact hs.loaded.marks p hp

/-- When loading is done, the next list can be built. -/
lemma Loading.loaded (h : Loading s none u) (hs : Valid E s) : u.Loaded := by
  have hold : ∀ p ∈ s.dsos, u.depList p = s.depList p ∧ u.direct p = s.direct p ∧
      (u.dso p).bfsBuilt = (s.dso p).bfsBuilt ∧ (u.DepsLoaded p ↔ s.DepsLoaded p) := by
    intro p hp
    unfold Ld.DepsLoaded Ld.direct Ld.depList
    rw [h.old p hp]
    exact ⟨rfl, rfl, rfl, .rfl⟩
  have hnew : ∀ p ∈ u.dsos, p ∉ s.dsos → u.direct p = u.depList p := by
    intro p hp hnot
    rw [Ld.direct, h.settled p hp hnot (some_ne_none p).symm, take_length]
  constructor
  · intro p hp d hd
    exact h.deps p hp d (direct_subset u p d hd)
  · intro p hp
    by_cases hps : p ∈ s.dsos
    · exact (hold p hps).2.2.2.2 (hs.loaded.loaded p hps)
    · exact (h.settled p hp hps (some_ne_none p).symm).le
  · intro p hp hbuilt
    by_cases hps : p ∈ s.dsos
    · rw [(hold p hps).1, (hold p hps).2.1]
      rw [(hold p hps).2.2.1] at hbuilt
      exact hs.loaded.unbuilt p hps hbuilt
    · exact (hnew p hp hps).symm
  · intro p hp hbuilt x hx d hd
    by_cases hps : p ∈ s.dsos
    · rw [(hold p hps).1] at hx ⊢
      rw [(hold p hps).2.2.1] at hbuilt
      rw [(hold x (hs.within p hps x hx)).2.1] at hd
      exact hs.loaded.built p hps hbuilt x hx d hd
    · rw [(h.new p hp hps).2] at hbuilt
      cases hbuilt
  · intro p hp
    by_cases hps : p ∈ s.dsos
    · exact (h.clean hs).marks p hps
    · exact (h.new p hp hps).1

lemma Loading.alloc (h : Loading s cur u) : Loading s cur { u with allocs := u.allocs.tail } :=
  { h with allocs := (tail_suffix _).trans h.allocs }

section

variable (u : Ld) (f : OpenFile) (name : Option Name)

lemma addDso_dso : ∃ id offset, (u.addDso f name).dso =
      update u.dso u.fresh { newDso f name with tlsId := id, tlsOffset := offset } := by
  unfold Ld.addDso
  cases f.lib.tls with
  | none => exact ⟨0, 0, rfl⟩
  | some t => exact ⟨u.tlsCnt + 1, nextTlsOffset u.tlsOffset t, rfl⟩

lemma addDso_lists :
    (u.addDso f name).dsos = u.dsos ++ [u.fresh] ∧ (u.addDso f name).fresh = u.fresh + 1 ∧
    (u.addDso f name).syms = u.syms ∧ u.tlsList <+: (u.addDso f name).tlsList ∧
    (u.addDso f name).runtime = u.runtime ∧ (u.addDso f name).lddMode = u.lddMode ∧
    (u.addDso f name).allocs = u.allocs := by
  unfold Ld.addDso
  cases f.lib.tls with
  | none => exact ⟨rfl, rfl, rfl, prefix_rfl, rfl, rfl, rfl⟩
  | some t => exact ⟨rfl, rfl, rfl, prefix_append _ _, rfl, rfl, rfl⟩

end

lemma Loading.addDso (h : Loading s cur u) (f : OpenFile) (name : Option Name) :
    Loading s cur (u.addDso f name) ∧ Later u (u.addDso f name) ∧ u.fresh ∈ (u.addDso f name).dsos := by
  obtain ⟨id, offset, hdso⟩ := addDso_dso u f name
  obtain ⟨hdsos, hfresh, hsyms, htls, hruntime, hldd, hallocs⟩ := addDso_lists u f name
  have hold : ∀ p ∈ u.dsos, (u.addDso f name).dso p = u.dso p := by
    intro p hp
    rw [hdso, update_of_ne (Nat.ne_of_lt (h.below p hp))]
  have hlist : ∀ p ∈ u.dsos, (u.addDso f name).depList p = u.depList p := by
    intro p hp
    rw [Ld.depList, hold p hp, Ld.depList]
  have hself : (u.addDso f name).dso u.fresh =
      { newDso f name with tlsId := id, tlsOffset := offset } := by
    rw [hdso, update_self]
  have hnil : (u.addDso f name).depList u.fresh = [] := by
    rw [Ld.depList, hself]
    rfl
  have hmem : ∀ p, p ∈ (u.addDso f name).dsos ↔ p ∈ u.dsos ∨ p = u.fresh := by
    intro p
    rw [hdsos, mem_append, mem_singleton]
  refine ⟨⟨?_, hsyms.trans h.syms, h.tlsList.trans htls, hruntime.trans h.runtime, hldd.trans h.lddMode,
    ?_, ?_, ?_, ?_, ?_, ?_, by rw [hallocs]; exact h.allocs⟩, ⟨?_, ?_⟩, (hmem _).2 (.inr rfl)⟩
  · rw [hdsos]
    exact h.dsos.trans (prefix_append _ _)
  · intro p hp
    rw [hfresh]
    rcases (hmem p).1 hp with hp | rfl
    · exact lt_succ_of_lt (h.below p hp)
    · exact lt_succ_self _
  · intro p hp
    rw [hold p (h.dsos.subset hp)]
    exact h.old p hp
  · intro p hp hnew
    rcases (hmem p).1 hp with hp | rfl
    · rw [hold p hp]
      exact h.new p hp hnew
    · rw [hself]
      exact ⟨rfl, rfl⟩
  · intro p hp d hd
    rcases (hmem p).1 hp with hp | rfl
    · rw [hlist p hp] at hd
      exact (hmem d).2 (.inl (h.deps p hp d hd))
    · rw [hnil] at hd
      cases hd
  · intro p hp hnew hcur
    rcases (hmem p).1 hp with hp | rfl
    · rw [hold p hp, hlist p hp]
      exact h.settled p hp hnew hcur
    · rw [hnil, hself]
      rfl
  · intro p
    by_cases hp : p = u.fresh
    · rw [hp, hself]
      intro r hr
      cases hr
    · rw [hdso, update_of_ne hp]
      exact h.typed p
  · intro p hp
    exact (hmem p).2 (.inl hp)
  · intro p hp hdeps
    rw [hold p hp]
    exact hdeps

/-- What `load_library` leaves: the object it returns is on the list, and where it returns none
nothing was loaded. -/
structure LoadPost (s : Ld) (cur : Option ℕ) (u : Ld) (r : Option ℕ) (v : Ld) : Prop where
  loading : Loading s cur v
  later : Later u v
  mem : ∀ d, r = some d → d ∈ v.dsos
  nothing : r = none → v = { u with allocs := v.allocs }

lemma LoadPost.found {d : ℕ} (h : Loading s cur v) (hlater : Later u v) (hd : d ∈ v.dsos) :
    LoadPost s cur u (some d) v :=
  ⟨h, hlater, fun _ hr => Option.some.inj hr ▸ hd, fun hr => nomatch hr⟩

section

variable (h : Loading s cur u)

include h

lemma LoadPost.missing : LoadPost s cur u none u :=
  ⟨h, .refl u, fun _ hr => (nomatch hr), fun _ => rfl⟩

section

variable (hldso : E.ldso ∈ s.dsos)

include hldso

end

end

section

variable (hs : Valid E s)

include hs

end

/-! ### Failed calls -/

lemma Kept.sameLists (h : Kept s t) (hlists : t.SameLists v)
    (hdso : ∀ q, (v.dso q).lazy = (t.dso q).lazy ∧ (v.dso q).lazyNext = (t.dso q).lazyNext ∧
      (v.dso q).relocated = (t.dso q).relocated) :
    Kept s v := by
  have heq := hlists.eq
  refine ⟨?_, ?_, ?_, ?_, ?_, ?_⟩
  · rw [heq]
    exact h.dsos
  · rw [heq]
    exact h.syms
  · rw [heq]
    exact h.tlsList
  · intro q hq
    rw [(hdso q).1, (hdso q).2.1]
    exact h.lazies q hq
  · intro q hq
    rw [(hdso q).2.2]
    exact h.relocated q hq
  · intro q
    rw [(hdso q).1]
    exact h.typed q

lemma Kept.extended (h : Kept s t) (hext : t.Extended v) (hv : v.Loaded) : Clean s v := by
  have hkept : Kept s v := by
    apply h.sameLists hext.lists
    intro q
    rw [hext.dso q]
    exact ⟨rfl, rfl, rfl⟩
  exact ⟨hkept, fun q hq => hv.marks q (hkept.dsos.subset hq)⟩

end Musl.Ldso
