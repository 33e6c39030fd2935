import Mathlib
import Musl.Lib.KeyedList

/-!
# The environment owns its strings

`setenv` copies its arguments to a string of its own, `putenv` puts the caller's string into the
environment.  Which strings are `setenv`'s is kept in a second table, `env_alloced`: when a string
leaves the environment, `__env_rm_add` frees it if it is in that table.  The array `environ` is the
one the program started with until the first variable is added, and after that the last one that
`__putenv` allocated, `oldenv`; `clearenv` sets it to null.

An address is a number and 0 is the null pointer; a block of the memory is a string or an array of
pointers, without the zero that ends it.  Blocks on the heap are those that the functions here have
allocated; the others are the program's. Reading or writing where there is no such block, and
freeing what is not on the heap, is `none`.  What the allocator returns is an argument of the call:
any address at which there is no block, so that addresses may be used again.  The array of the table
itself is a list.
-/

namespace Musl.Env

open Musl.Lib List Option Function

/-! ### Memory -/

abbrev Addr := ℕ

abbrev Str := List UInt8

inductive Data
  | str (bytes : Str)
  | arr (entries : List Addr)
deriving DecidableEq

structure Block where
  heap : Bool
  data : Data
deriving DecidableEq

/-- The memory, with a record of the addresses that were freed. -/
structure Mem where
  blocks : Finmap fun _ : Addr => Block
  freed : List Addr

def Mem.text (m : Mem) (p : Addr) : Option Str :=
  match m.blocks.lookup p with
  | some ⟨_, .str b⟩ => some b
  | _ => none

def Mem.array (m : Mem) (p : Addr) : Option (List Addr) :=
  match m.blocks.lookup p with
  | some ⟨_, .arr es⟩ => some es
  | _ => none

/-- An address that an allocation may return. -/
def Mem.Fresh (m : Mem) (p : Addr) : Prop := p ≠ 0 ∧ m.blocks.lookup p = none

def Mem.add (m : Mem) (p : Addr) (b : Block) : Mem := { m with blocks := m.blocks.insert p b }

def Mem.drop (m : Mem) (p : Addr) : Mem := { blocks := m.blocks.erase p, freed := m.freed ++ [p] }

def Mem.free (m : Mem) (p : Addr) : Option Mem :=
  if p = 0 then some m
  else match m.blocks.lookup p with
    | some ⟨true, _⟩ => some (m.drop p)
    | _ => none

def Mem.store (m : Mem) (p : Addr) (es : List Addr) : Option Mem :=
  match m.blocks.lookup p with
  | some ⟨h, .arr _⟩ => some (m.add p ⟨h, .arr es⟩)
  | _ => none

/-- The answers of the allocator during one call: that of `malloc` and of `realloc` in a state of
the memory, and whether `env_alloced` can be extended. -/
structure Alloc where
  malloc : Mem → Option Addr
  realloc : Mem → Addr → Option Addr
  table : Bool
  malloc_fresh : ∀ m p, malloc m = some p → m.Fresh p
  realloc_fresh : ∀ m p q, realloc m p = some q → q = p ∧ p ≠ 0 ∨ m.Fresh q

structure Alloc.Succeeds (a : Alloc) : Prop where
  malloc : ∀ m, ∃ p, a.malloc m = some p
  realloc : ∀ m p, ∃ q, a.realloc m p = some q
  table : a.table = true

/-! ### Strings -/

/-- The character `=`. -/
def equals : UInt8 := 61

/-- `__strchrnul(s, '=') - s`. -/
def nameLen (s : Str) : ℕ := (s.takeWhile (· ≠ equals)).length

/-- `!strncmp(s, t, n)`. -/
def strncmpEq (s t : Str) (n : ℕ) : Bool := s.take n == t.take n

/-! ### The functions -/

structure State where
  mem : Mem
  environ : Addr
  oldenv : Addr
  alloced : List Addr

/-- The loop of `__env_rm_add`: the table, what is left of `new`, and whether it found `old`. -/
def rmAddLoop (old : Addr) : List Addr → Addr → List Addr × Addr × Bool
  | [], new => ([], new, false)
  | a :: as, new =>
    if a = old then (new :: as, new, true)
    else if a = 0 ∧ new ≠ 0 then
      let r := rmAddLoop old as 0
      (new :: r.1, r.2)
    else
      let r := rmAddLoop old as new
      (a :: r.1, r.2)

def envRmAdd (table : Bool) (st : State) (old new : Addr) : Option State :=
  match rmAddLoop old st.alloced new with
  | (t, _, true) => do
    let mem ← st.mem.free old
    return { st with mem, alloced := t }
  | (t, new, false) =>
    if new = 0 then some { st with alloced := t }
    else if table then some { st with alloced := t ++ [new] }
    else some { st with alloced := t }

/-- The entries of `environ`, which may be null. -/
def entries (st : State) : Option (List Addr) :=
  if st.environ = 0 then some [] else st.mem.array st.environ

/-- The loop of `getenv`: the entry, and where its value begins. -/
def getLoop (m : Mem) (name : Str) (l : ℕ) : List Addr → Option (Option (Addr × ℕ))
  | [] => some none
  | e :: es => do
    let b ← m.text e
    if strncmpEq name b l ∧ b[l]? = some equals then return some (e, l + 1)
    getLoop m name l es

def getenv (st : State) (name : Str) : Option (Option (Addr × ℕ)) := do
  let l := nameLen name
  if l ≠ 0 ∧ name[l]? = none ∧ st.environ ≠ 0 then
    let es ← st.mem.array st.environ
    getLoop st.mem name l es
  else return none

/-- The loop of `__putenv`: the array with the string `s` in the place of the entry of the same
name, and that entry. -/
def putLoop (m : Mem) (s : Addr) (text : Str) (n : ℕ) : List Addr → Option (Option (List Addr × Addr))
  | [] => some none
  | e :: es => do
    let b ← m.text e
    if strncmpEq text b n then return some (s :: es, e)
    let r ← putLoop m s text n es
    return r.map fun r => (e :: r.1, r.2)

/-- `__putenv`: the new array, when the name is not there yet. -/
def growEnviron (a : Alloc) (st : State) (es : List Addr) : Option (Option (Mem × Addr)) :=
  if st.environ = st.oldenv then
    match a.realloc st.mem st.oldenv with
    | none => some none
    | some newenv => do
      let moved ← st.mem.free st.oldenv
      let mem := if newenv = st.oldenv then st.mem else moved
      return some (mem.add newenv ⟨true, .arr es⟩, newenv)
  else
    match a.malloc st.mem with
    | none => some none
    | some newenv => do
      let mem ← (st.mem.add newenv ⟨true, .arr es⟩).free st.oldenv
      return some (mem, newenv)

/-- `if (r) __env_rm_add(0, r)`. -/
def enterNew (table : Bool) (st : State) (r : Addr) : Option State :=
  if r ≠ 0 then envRmAdd table st 0 r else some st

/-- `__putenv`. -/
def putenvAt (a : Alloc) (st : State) (s : Addr) (l : ℕ) (r : Addr) : Option (State × ℤ) := do
  let es ← entries st
  let text ← st.mem.text s
  match ← putLoop st.mem s text (l + 1) es with
  | some (es', tmp) =>
    let mem ← st.mem.store st.environ es'
    let st ← envRmAdd a.table { st with mem } tmp r
    return (st, 0)
  | none =>
    match ← growEnviron a st es with
    | none =>
      let mem ← st.mem.free r
      return ({ st with mem }, -1)
    | some (mem, newenv) =>
      let mem ← mem.store newenv (es ++ [s])
      let st ← enterNew a.table { st with mem, environ := newenv, oldenv := newenv } r
      return (st, 0)

/-- `!overwrite && getenv(var)`. -/
def keepsOld (st : State) (var : Str) (overwrite : Bool) : Option Bool :=
  if overwrite then some false else (getenv st var).map Option.isSome

/-- `setenv`; `var` may be null. -/
def setenv (a : Alloc) (st : State) (var : Option Str) (value : Str) (overwrite : Bool) :
    Option (State × ℤ) :=
  match var with
  | none => some (st, -1)
  | some var => do
    let l1 := nameLen var
    if l1 = 0 ∨ var[l1]? ≠ none then return (st, -1)
    if ← keepsOld st var overwrite then return (st, 0)
    match a.malloc st.mem with
    | none => return (st, -1)
    | some s =>
      let text := var.take l1 ++ equals :: value
      putenvAt a { st with mem := st.mem.add s ⟨true, .str text⟩ } s l1 s

/-- The loop of `unsetenv`: the entries that stay. -/
def unsetLoop (name : Str) (l : ℕ) : List Addr → State → Option (List Addr × State)
  | [], st => some ([], st)
  | e :: es, st => do
    let b ← st.mem.text e
    if strncmpEq name b l ∧ b[l]? = some equals then
      let st ← envRmAdd false st e 0
      unsetLoop name l es st
    else
      let r ← unsetLoop name l es st
      return (e :: r.1, r.2)

def unsetenv (st : State) (name : Str) : Option (State × ℤ) := do
  let l := nameLen name
  if l = 0 ∨ name[l]? ≠ none then return (st, -1)
  if st.environ ≠ 0 then
    let es ← st.mem.array st.environ
    let (kept, st) ← unsetLoop name l es st
    let mem ← st.mem.store st.environ kept
    return ({ st with mem }, 0)
  else return (st, 0)

def putenv (a : Alloc) (st : State) (s : Addr) : Option (State × ℤ) := do
  let text ← st.mem.text s
  let l := nameLen text
  if l = 0 ∨ text[l]? = none then unsetenv st text
  else putenvAt a st s l 0

/-- `while (*e) __env_rm_add(*e++, 0)`. -/
def clearLoop : List Addr → State → Option State
  | [], st => some st
  | e :: es, st => do
    let st ← envRmAdd false st e 0
    clearLoop es st

def clearenv (st : State) : Option (State × ℤ) := do
  let es ← entries st
  let st ← clearLoop es { st with environ := 0 }
  return (st, 0)

/-! ### Sequences of calls -/

/-- A call; or the program makes a string of its own, which it may give to `putenv` later. -/
inductive Call
  | setenv (a : Alloc) (var : Option Str) (value : Str) (overwrite : Bool)
  | unsetenv (name : Str)
  | putenv (a : Alloc) (s : Addr)
  | clearenv
  | string (p : Addr) (text : Str)

def step (st : State) : Call → Option (State × ℤ)
  | .setenv a var value overwrite => setenv a st var value overwrite
  | .unsetenv name => unsetenv st name
  | .putenv a s => putenv a st s
  | .clearenv => clearenv st
  | .string p text => some ({ st with mem := st.mem.add p ⟨false, .str text⟩ }, 0)

/-- Allocations succeed, and the strings that are given to `putenv` are the program's. -/
def Allowed (st : State) : Call → Prop
  | .setenv a _ _ _ => a.Succeeds
  | .putenv a s => a.Succeeds ∧ ∃ text, st.mem.blocks.lookup s = some ⟨false, .str text⟩
  | .string p _ => st.mem.Fresh p
  | _ => True

/-! ### The finite map -/

/-- A name that can be set: not empty, and without `=`. -/
def Valid (name : Str) : Prop := name ≠ [] ∧ equals ∉ name

instance (name : Str) : Decidable (Valid name) := inferInstanceAs (Decidable (_ ∧ _))

def nameOf (text : Str) : Option Str :=
  let l := nameLen text
  if l ≠ 0 ∧ text[l]? = some equals then some (text.take l) else none

def valueOf (text : Str) : Str := text.drop (nameLen text + 1)

/-- The environment that the program means. -/
abbrev Bindings := Str → Option Str

/-- What a call is to do. -/
def effect (st : State) (m : Bindings) : Call → Bindings
  | .setenv _ (some var) value overwrite =>
    if Valid var ∧ (overwrite ∨ m var = none) then Function.update m var (some value) else m
  | .setenv _ none _ _ => m
  | .unsetenv name => if Valid name then Function.update m name none else m
  | .putenv _ s =>
    match st.mem.text s with
    | none => m
    | some text =>
      match nameOf text with
      | some name => Function.update m name (some (valueOf text))
      | none => if Valid text then Function.update m text none else m
  | .clearenv => fun _ => none
  | .string _ _ => m

/-! ### Names and values -/

section Strings

variable {name text value : Str} {l : ℕ}

lemma takeWhile_name (h : equals ∉ name) (rest : Str) :
    (name ++ rest).takeWhile (· ≠ equals) = name ++ rest.takeWhile (· ≠ equals) := by
  refine takeWhile_append_of_pos fun c hc => ?_
  simpa using fun heq : c = equals => h (heq ▸ hc)

lemma nameLen_append (h : equals ∉ name) : nameLen (name ++ equals :: value) = name.length := by
  rw [nameLen, takeWhile_name h, takeWhile_cons_of_neg (by simp), append_nil]

lemma nameLen_of_not_mem (h : equals ∉ name) : nameLen name = name.length := by
  have hwhole := takeWhile_name h []
  rw [takeWhile_nil, append_nil] at hwhole
  rw [nameLen, hwhole]

lemma split_name (text : Str) : (equals ∉ text ∧ nameLen text = text.length) ∨
      ∃ name value, equals ∉ name ∧ text = name ++ equals :: value := by
  by_cases h : equals ∈ text
  · right
    obtain ⟨name, value, rfl, hname⟩ := eq_append_cons_of_mem h
    exact ⟨name, value, hname, rfl⟩
  · exact .inl ⟨h, nameLen_of_not_mem h⟩

lemma nameOf_append (h : Valid name) : nameOf (name ++ equals :: value) = some name := by
  have hl : nameLen (name ++ equals :: value) = name.length := nameLen_append h.2
  simp [nameOf, hl, h.1]

lemma nameOf_eq_some :
    nameOf text = some name ↔ Valid name ∧ ∃ value, text = name ++ equals :: value := by
  constructor
  · intro h
    rcases split_name text with ⟨-, hl⟩ | ⟨n, v, hn, rfl⟩
    · simp [nameOf, hl] at h
    · rw [nameOf, nameLen_append hn] at h
      obtain ⟨hc, h⟩ := ite_none_right_eq_some.1 h
      rw [take_left, some.injEq] at h
      subst h
      exact ⟨⟨by simpa using hc.1, hn⟩, v, rfl⟩
  · rintro ⟨h, -, rfl⟩
    exact nameOf_append h

lemma valueOf_append (h : equals ∉ name) : valueOf (name ++ equals :: value) = value := by
  rw [valueOf, nameLen_append h, drop_append]
  simp

lemma valid_iff : Valid name ↔ ¬(nameLen name = 0 ∨ name[nameLen name]? ≠ none) := by
  rcases split_name name with ⟨h, hl⟩ | ⟨n, v, hn, rfl⟩
  · simp [Valid, h, hl]
  · simp [Valid, nameLen_append hn]

lemma matches_iff (h : Valid name) :
    (strncmpEq name text name.length ∧ text[name.length]? = some equals) ↔ nameOf text = some name := by
  rw [nameOf_eq_some, strncmpEq, beq_iff_eq, take_length]
  constructor
  · rintro ⟨htake, heq⟩
    obtain ⟨hlt, hget⟩ := List.getElem?_eq_some_iff.1 heq
    refine ⟨h, text.drop (name.length + 1), ?_⟩
    calc text = text.take name.length ++ text.drop name.length := (take_append_drop _ _).symm
      _ = name ++ equals :: text.drop (name.length + 1) := by rw [← htake, drop_eq_getElem_cons hlt, hget]
  · rintro ⟨-, -, rfl⟩
    simp

lemma strncmpEq_iff (h : Valid name) :
    strncmpEq (name ++ equals :: value) text (name.length + 1) = true ↔ nameOf text = some name := by
  rw [nameOf_eq_some, strncmpEq, beq_iff_eq]
  have htake : (name ++ equals :: value).take (name.length + 1) = name ++ [equals] := by
    rw [take_append]
    simp
  rw [htake]
  constructor
  · intro heq
    refine ⟨h, text.drop (name.length + 1), ?_⟩
    calc text = text.take (name.length + 1) ++ text.drop (name.length + 1) := (take_append_drop _ _).symm
      _ = name ++ equals :: text.drop (name.length + 1) := by rw [← heq, append_assoc, singleton_append]
  · rintro ⟨-, v, rfl⟩
    rw [take_append]
    simp

end Strings

/-! ### The table of allocated strings -/

def nonzero (t : List Addr) : List Addr := t.filter (· ≠ 0)

@[simp] lemma mem_nonzero {t : List Addr} {p : Addr} : p ∈ nonzero t ↔ p ∈ t ∧ p ≠ 0 := by
  simp [nonzero]

lemma nonzero_cons (a : Addr) (t : List Addr) : nonzero (a :: t) = nonzero [a] ++ nonzero t := by
  rw [nonzero, nonzero, nonzero, ← filter_append, singleton_append]

/-- The table after the loop of `__env_rm_add`, with `new` at the end if there was no place for it. -/
def filled (r : List Addr × Addr × Bool) : List Addr := if r.2.2 then r.1 else r.1 ++ nonzero [r.2.1]

section

variable (old : Addr) (t : List Addr) (new : Addr)

lemma rmAddLoop_found : (rmAddLoop old t new).2.2 = decide (old ∈ t) := by
  induction t generalizing new with
  | nil => rfl
  | cons a t ih =>
    rw [rmAddLoop]
    split_ifs with ha hfree
    · simp [ha]
    · simp [ih, Ne.symm ha]
    · simp [ih, Ne.symm ha]

lemma rmAddLoop_rest : (rmAddLoop old t new).2.1 = 0 ∨ (rmAddLoop old t new).2.1 = new := by
  induction t generalizing new with
  | nil => exact .inr rfl
  | cons a t ih =>
    rw [rmAddLoop]
    split_ifs with ha hfree
    · exact .inr rfl
    · exact .inl ((ih 0).elim id id)
    · exact ih new

end

lemma filled_cons (a : Addr) (r : List Addr × Addr × Bool) : filled (a :: r.1, r.2) = a :: filled r := by
  unfold filled
  split_ifs <;> rfl

/-- The loop puts `new` into the table and takes `old` out of it, in whatever order it meets their
places. -/
lemma rmAddLoop_perm (old : Addr) (t : List Addr) (new : Addr) :
    (nonzero (filled (rmAddLoop old t new))).Perm (nonzero [new] ++ (nonzero t).erase old) := by
  induction t generalizing new with
  | nil =>
    by_cases h : new = 0 <;> simp [rmAddLoop, filled, nonzero]
  | cons a t ih =>
    rw [rmAddLoop]
    by_cases ha : a = old
    · subst ha
      rw [if_pos rfl, filled, if_pos rfl, nonzero_cons]
      by_cases h0 : a = 0
      · rw [erase_of_not_mem (by simp [h0])]
        simp [nonzero, h0]
      · simp [nonzero, h0]
    rw [if_neg ha]
    by_cases hfree : a = 0 ∧ new ≠ 0
    · rw [if_pos hfree]
      rw [filled_cons, nonzero_cons]
      refine List.Perm.append_left _ ((ih 0).trans ?_)
      simp [nonzero, hfree.1]
    · rw [if_neg hfree]
      rw [filled_cons, nonzero_cons]
      refine ((ih new).append_left _).trans ?_
      rw [← append_assoc]
      refine (perm_append_comm.append_right _).trans ?_
      by_cases h0 : a = 0
      · simp [nonzero, h0]
      · simp [nonzero, h0, ha]

/-! ### What a release does to the memory -/

section Memory

variable {m m' m'' : Mem} {p q : Addr} {b : Block} {gone gone' : List Addr}

/-- A string that `setenv` has allocated. -/
def Mem.Owned (m : Mem) (p : Addr) : Prop := ∃ text, m.blocks.lookup p = some ⟨true, .str text⟩

def Mem.key (m : Mem) (p : Addr) : Option Str := (m.text p).bind nameOf

lemma Mem.key_eq {t : Str} (h : m.text p = some t) : m.key p = nameOf t := by
  rw [Mem.key, h, bind_some]

lemma Mem.Owned.text (h : m.Owned p) : ∃ t, m.text p = some t := by
  obtain ⟨t, ht⟩ := h
  exact ⟨t, by rw [Mem.text, ht]⟩

lemma Mem.lookup_add (m : Mem) (p q : Addr) (b : Block) :
    (m.add p b).blocks.lookup q = if q = p then some b else m.blocks.lookup q := by
  split_ifs with h
  · rw [h]
    exact Finmap.lookup_insert _
  · exact Finmap.lookup_insert_of_ne _ h

lemma Mem.Fresh.ne (h : m.Fresh p) (hq : m.blocks.lookup q ≠ none) : q ≠ p := by
  rintro rfl
  exact hq h.2

lemma lookup_ne_none_of_text {t : Str} (h : m.text p = some t) : m.blocks.lookup p ≠ none := by
  intro hn
  simp [Mem.text, hn] at h

lemma lookup_ne_none_of_array {es : List Addr} (h : m.array p = some es) : m.blocks.lookup p ≠ none := by
  intro hn
  simp [Mem.array, hn] at h

/-- The memory is the same, but that the blocks at some addresses were freed. -/
structure Released (m m' : Mem) (gone : List Addr) : Prop where
  blocks : ∀ q, m'.blocks.lookup q = if q ∈ gone then none else m.blocks.lookup q
  freed : m'.freed = m.freed ++ gone

lemma Released.refl (m : Mem) : Released m m [] := ⟨fun q => by simp, by simp⟩

lemma Released.eq_of_nil (h : Released m m' []) : m' = m := by
  have hblocks : m'.blocks = m.blocks := Finmap.ext_lookup fun q => by simp [h.blocks]
  have hfreed : m'.freed = m.freed := by rw [h.freed, append_nil]
  cases m
  cases m'
  exact congrArg₂ Mem.mk hblocks hfreed

lemma Released.drop (m : Mem) (p : Addr) : Released m (m.drop p) [p] := by
  refine ⟨fun q => ?_, rfl⟩
  split_ifs with h
  · rw [mem_singleton.1 h]
    exact Finmap.lookup_erase _ _
  · exact Finmap.lookup_erase_ne (by simpa using h)

section

variable (h : Released m m' gone)

include h

lemma Released.trans (h' : Released m' m'' gone') : Released m m'' (gone ++ gone') := by
  refine ⟨fun q => ?_, by rw [h'.freed, h.freed, append_assoc]⟩
  rw [h'.blocks, h.blocks]
  by_cases hq : q ∈ gone <;> by_cases hq' : q ∈ gone' <;> simp [hq]

lemma Released.text (hp : p ∉ gone) : m'.text p = m.text p := by
  rw [Mem.text, h.blocks, if_neg hp, Mem.text]

lemma Released.key (hp : p ∉ gone) : m'.key p = m.key p := by
  rw [Mem.key, h.text hp, Mem.key]

lemma Released.owned : m'.Owned p ↔ m.Owned p ∧ p ∉ gone := by
  rw [Mem.Owned, Mem.Owned, h.blocks]
  split_ifs with hp <;> simp [hp]

end

/-- The strings are as they were, but for those at some addresses. -/
structure Less (m m' : Mem) (gone : List Addr) : Prop where
  text : ∀ p ∉ gone, m'.text p = m.text p
  owned : ∀ p, m'.Owned p ↔ m.Owned p ∧ p ∉ gone

lemma Released.less (h : Released m m' gone) : Less m m' gone := ⟨fun _ hp => h.text hp, fun _ => h.owned⟩

lemma Less.trans (h : Less m m' gone) (h' : Less m' m'' gone') : Less m m'' (gone ++ gone') := by
  refine ⟨fun p hp => ?_, fun p => ?_⟩
  · rw [mem_append, not_or] at hp
    rw [h'.text p hp.2, h.text p hp.1]
  · rw [h'.owned, h.owned, mem_append, not_or, and_assoc]

abbrev SameStrings (m m' : Mem) : Prop := Less m m' []

lemma SameStrings.owned (h : SameStrings m m') (p : Addr) : m'.Owned p ↔ m.Owned p :=
  (Less.owned h p).trans (and_iff_left not_mem_nil)

lemma not_owned_of_text (h : m.text p = none) : ¬m.Owned p := by
  intro ho
  obtain ⟨t, ht⟩ := ho.text
  rw [h] at ht
  cases ht

lemma SameStrings.add_arr (h : m.text p = none) (onHeap : Bool) (es : List Addr) :
    SameStrings m (m.add p ⟨onHeap, .arr es⟩) := by
  constructor
  · intro q _
    rcases eq_or_ne q p with rfl | hq
    · rw [h, Mem.text, Mem.lookup_add, if_pos rfl]
    · rw [Mem.text, Mem.lookup_add, if_neg hq, Mem.text]
  · intro q
    rcases eq_or_ne q p with rfl | hq
    · simpa [Mem.Owned, Mem.lookup_add] using not_owned_of_text h
    · simp [Mem.Owned, Mem.lookup_add, hq]

lemma SameStrings.of_released (h : Released m m' gone) (hgone : ∀ p ∈ gone, m.text p = none) :
    SameStrings m m' := by
  constructor
  · intro q _
    by_cases hq : q ∈ gone
    · rw [hgone q hq, Mem.text, h.blocks, if_pos hq]
    · exact h.text hq
  · intro q
    rw [h.owned, and_iff_left not_mem_nil]
    exact ⟨fun hq => hq.1, fun hq => ⟨hq, fun hmem => not_owned_of_text (hgone q hmem) hq⟩⟩

end Memory

/-! ### One call of `__env_rm_add` -/

section RmAdd

variable {st : State} {old new : Addr} {table : Bool}

/-- The table is in step with the heap: it holds the strings of `setenv`, each once; `new` is still
missing. -/
structure TableOk (m : Mem) (alloced : List Addr) (new : Addr) : Prop where
  nodup : (nonzero alloced).Nodup
  owned : ∀ p, p ∈ nonzero alloced ↔ m.Owned p ∧ p ≠ new

variable {m : Mem}

lemma TableOk.congr {m' : Mem} {alloced : List Addr} (h : TableOk m alloced new) (hs : SameStrings m m') :
    TableOk m' alloced new :=
  ⟨h.nodup, fun p => (h.owned p).trans (and_congr_left' (SameStrings.owned hs p).symm)⟩

lemma Mem.Owned.ne_zero {p : Addr} (hp : m.Owned p) (h0 : m.blocks.lookup 0 = none) : p ≠ 0 := by
  rintro rfl
  obtain ⟨t, ht⟩ := hp
  rw [h0] at ht
  cases ht

lemma envRmAdd_eq (htable : table = true ∨ new = 0) (hown : ∀ p ∈ nonzero st.alloced, st.mem.Owned p) :
    ∃ m' t' gone, envRmAdd table st old new = some { st with mem := m', alloced := t' } ∧
      Released st.mem m' gone ∧ gone = (if old ∈ nonzero st.alloced then [old] else []) ∧
      (nonzero t').Perm (nonzero [new] ++ (nonzero st.alloced).erase old) := by
  have hperm := rmAddLoop_perm old st.alloced new
  have hfound := rmAddLoop_found old st.alloced new
  generalize hr : rmAddLoop old st.alloced new = r at hperm hfound
  obtain ⟨t, rest, found⟩ := r
  rw [envRmAdd, hr]
  cases found with
  | true =>
    have hmem : old ∈ st.alloced := of_decide_eq_true hfound.symm
    by_cases h0 : old = 0
    · refine ⟨st.mem, t, [], ?_, .refl _, by simp [h0], hperm⟩
      simp [Mem.free, h0]
    · have hin : old ∈ nonzero st.alloced := mem_nonzero.2 ⟨hmem, h0⟩
      obtain ⟨text, htext⟩ := hown old hin
      refine ⟨st.mem.drop old, t, [old], ?_, .drop _ _, (if_pos hin).symm, hperm⟩
      simp [Mem.free, h0, htext]
  | false =>
    have hmem : old ∉ st.alloced := of_decide_eq_false hfound.symm
    have hin : old ∉ nonzero st.alloced := fun h => hmem (mem_nonzero.1 h).1
    refine ⟨st.mem, t ++ nonzero [rest], [], ?_, .refl _, (if_neg hin).symm, hperm⟩
    by_cases hrest : rest = 0
    · simp [hrest, nonzero]
    · -- what is left of `new` is `new`, so the table could be extended
      have htrue : table = true := by
        refine htable.resolve_right fun hnew => hrest ?_
        have hlen := rmAddLoop_rest old st.alloced new
        rw [hr] at hlen
        exact hlen.resolve_right (by simpa [hnew] using hrest)
      simp [hrest, htrue, nonzero]

/-- Some strings have left the environment: those of them that were `setenv`'s are freed, and the
table is in step. -/
structure Frees (st st' : State) (gone : List Addr) (which : Addr → Prop) : Prop where
  environ : st'.environ = st.environ
  oldenv : st'.oldenv = st.oldenv
  released : Released st.mem st'.mem gone
  nodup : gone.Nodup
  mem_gone : ∀ p, p ∈ gone ↔ which p ∧ st.mem.Owned p
  table : TableOk st'.mem st'.alloced 0

lemma envRmAdd_spec (st : State) (table : Bool) (old : Addr) (h0 : st.mem.blocks.lookup 0 = none)
    (h : TableOk st.mem st.alloced new) (hold : old = new → old = 0) (hnew : new = 0 ∨ st.mem.Owned new)
    (htable : table = true ∨ new = 0) :
    ∃ st' gone, envRmAdd table st old new = some st' ∧ Frees st st' gone (· = old) := by
  obtain ⟨m', t', gone, heq, hrel, hgone, hperm⟩ := envRmAdd_eq htable fun p hp => ((h.owned p).1 hp).1
  have hmem : ∀ p, p ∈ gone ↔ p = old ∧ st.mem.Owned p := by
    intro p
    have hin : old ∈ nonzero st.alloced ↔ st.mem.Owned old := by
      rw [h.owned]
      exact ⟨fun hp => hp.1, fun hp => ⟨hp, fun heq => hp.ne_zero h0 (hold heq)⟩⟩
    rw [hgone]
    split_ifs with hcase
    · rw [mem_singleton]
      exact ⟨fun hp => ⟨hp, hp ▸ hin.1 hcase⟩, fun hp => hp.1⟩
    · simp only [not_mem_nil, false_iff]
      rintro ⟨rfl, hp⟩
      exact hcase (hin.2 hp)
  refine ⟨_, gone, heq, rfl, rfl, hrel, ?_, hmem, ?_, ?_⟩
  · rw [hgone]
    split_ifs <;> simp
  · -- `new` was not in the table before
    have hone : (nonzero [new]).Nodup := by by_cases hn : new = 0 <;> simp [nonzero, hn]
    refine hperm.nodup_iff.2 (nodup_append.2 ⟨hone, h.nodup.erase _, ?_⟩)
    rintro p hp q hq rfl
    have hpn : p = new := mem_singleton.1 (mem_nonzero.1 hp).1
    exact ((h.owned p).1 (mem_of_mem_erase hq)).2 hpn
  · intro p
    rw [hperm.mem_iff, mem_append, h.nodup.mem_erase_iff, h.owned, hrel.owned, hmem, mem_nonzero,
      mem_singleton]
    constructor
    · rintro (⟨rfl, hp⟩ | ⟨hne, ho, -⟩)
      · exact ⟨⟨hnew.resolve_left hp, fun hg => hp (hg.1 ▸ hold hg.1.symm)⟩, hp⟩
      · exact ⟨⟨ho, fun hg => hne hg.1⟩, ho.ne_zero h0⟩
    · rintro ⟨⟨ho, hg⟩, hp⟩
      by_cases hpn : p = new
      · exact .inl ⟨hpn, hp⟩
      · exact .inr ⟨fun heq => hg ⟨heq, ho⟩, ho, hpn⟩

variable {st' st'' : State} {gone gone' : List Addr} {which which' : Addr → Prop}

lemma Frees.refl (h : TableOk st.mem st.alloced 0) (hnone : ∀ p, ¬which p) : Frees st st [] which :=
  ⟨rfl, rfl, .refl _, nodup_nil, fun p => by simp [hnone p], h⟩

lemma Frees.trans (h : Frees st st' gone which) (h' : Frees st' st'' gone' which') :
    Frees st st'' (gone ++ gone') fun p => which p ∨ which' p := by
  refine ⟨h'.environ.trans h.environ, h'.oldenv.trans h.oldenv, h.released.trans h'.released, ?_,
    ?_, h'.table⟩
  · refine nodup_append.2 ⟨h.nodup, h'.nodup, ?_⟩
    rintro p hp q hq rfl
    exact (h.released.owned.1 ((h'.mem_gone p).1 hq).2).2 hp
  · intro p
    rw [mem_append, h'.mem_gone, h.released.owned, h.mem_gone]
    tauto

lemma enterNew_spec (st : State) (h0 : st.mem.blocks.lookup 0 = none) (h : TableOk st.mem st.alloced new)
    (hnew : new = 0 ∨ st.mem.Owned new) (htable : table = true) :
    ∃ st', enterNew table st new = some st' ∧ st'.mem = st.mem ∧ st'.environ = st.environ ∧
    st'.oldenv = st.oldenv ∧
      TableOk st'.mem st'.alloced 0 := by
  rw [enterNew]
  by_cases hn : new = 0
  · rw [if_neg (not_not.2 hn)]
    exact ⟨st, rfl, rfl, rfl, rfl, hn ▸ h⟩
  · rw [if_pos hn]
    obtain ⟨st', gone, heq, hf⟩ := envRmAdd_spec st table 0 h0 h (fun _ => rfl) hnew (.inl htable)
    have hnil : gone = [] := eq_nil_iff_forall_not_mem.2 fun p hp => by
      exact ((hf.mem_gone p).1 hp).2.ne_zero h0 ((hf.mem_gone p).1 hp).1
    exact ⟨st', heq, Released.eq_of_nil (hnil ▸ hf.released), hf.environ, hf.oldenv, hf.table⟩

lemma Frees.congr (h : Frees st st' gone which) (hw : ∀ p, which' p ↔ which p) :
    Frees st st' gone which' :=
  { h with mem_gone := fun p => (h.mem_gone p).trans (and_congr_left' (hw p).symm) }

lemma Frees.null (h : Frees st st' gone which) (h0 : st.mem.blocks.lookup 0 = none) :
    st'.mem.blocks.lookup 0 = none := by
  rw [h.released.blocks, h0, ite_self]

lemma clearLoop_spec (st : State) (es : List Addr) (h0 : st.mem.blocks.lookup 0 = none)
    (h : TableOk st.mem st.alloced 0) :
    ∃ st' gone, clearLoop es st = some st' ∧ Frees st st' gone (· ∈ es) := by
  induction es generalizing st with
  | nil => exact ⟨st, [], rfl, .refl h (by simp)⟩
  | cons e es ih =>
    obtain ⟨st1, gone1, heq1, hf1⟩ := envRmAdd_spec st false e h0 h id (.inl rfl) (.inr rfl)
    obtain ⟨st2, gone2, heq2, hf2⟩ := ih st1 (hf1.null h0) hf1.table
    refine ⟨st2, gone1 ++ gone2, ?_, (hf1.trans hf2).congr fun p => mem_cons⟩
    rw [clearLoop, heq1]
    exact heq2

/-- The loop of `unsetenv`: since the names are different, what is freed is not read again. -/
lemma unsetLoop_spec {name : Str} (hname : Valid name) (es : List Addr)
    (h0 : st.mem.blocks.lookup 0 = none)
    (h : TableOk st.mem st.alloced 0) (htexts : ∀ e ∈ es, ∃ b, st.mem.text e = some b)
    (hdist : Keyed.Distinct st.mem.key es) :
    ∃ st' gone,
    unsetLoop name name.length es st = some (es.filter fun e => st.mem.key e ≠ some name, st') ∧
      Frees st st' gone fun p => p ∈ es ∧ st.mem.key p = some name := by
  induction es generalizing st with
  | nil => exact ⟨st, [], rfl, .refl h (by simp)⟩
  | cons e es ih =>
    obtain ⟨b, hb⟩ := htexts e mem_cons_self
    have hkey := Mem.key_eq hb
    have htl : ∀ e ∈ es, ∃ b, st.mem.text e = some b := (forall_mem_cons.1 htexts).2
    have hdl : Keyed.Distinct st.mem.key es :=
      hdist.sublist ((sublist_cons_self e es).filterMap _)
    rw [unsetLoop, hb]
    simp only [bind_eq_bind, bind_some, matches_iff hname, ← hkey]
    by_cases hm : st.mem.key e = some name
    · rw [if_pos hm]
      obtain ⟨st1, gone1, heq1, hf1⟩ := envRmAdd_spec st false e h0 h id (.inl rfl) (.inr rfl)
      have hwhole : Keyed.Distinct st.mem.key ([] ++ e :: es) := hdist
      have hother := (hwhole.other hm).2
      have hstay : ∀ e' ∈ es, e' ∉ gone1 := by
        intro e' he' hg
        rw [((hf1.mem_gone e').1 hg).1] at he'
        exact hother e he' hm
      have hsame : ∀ e' ∈ es, st1.mem.key e' = st.mem.key e' :=
        fun e' he' => hf1.released.key (hstay e' he')
      obtain ⟨st2, gone2, heq2, hf2⟩ := ih (hf1.null h0) hf1.table
        (fun e' he' => by rw [hf1.released.text (hstay e' he')]; exact htl e' he') (hdl.congr hsame)
      refine ⟨st2, gone1 ++ gone2, ?_, (hf1.trans hf2).congr fun p => ?_⟩
      · rw [heq1, bind_some, heq2, filter_cons_of_neg (by simp [hm])]
        congr 2
        exact filter_congr fun e' he' => by rw [hsame e' he']
      · constructor
        · rintro ⟨hp, hk⟩
          rcases mem_cons.1 hp with rfl | hp
          · exact .inl rfl
          · exact absurd hk (hother p hp)
        · rintro (rfl | ⟨hp, hk⟩)
          · exact ⟨mem_cons_self, hm⟩
          · exact ⟨mem_cons_of_mem _ hp, hsame p hp ▸ hk⟩
    · rw [if_neg hm]
      obtain ⟨st1, gone1, heq1, hf1⟩ := ih h0 h htl hdl
      refine ⟨st1, gone1, ?_, hf1.congr fun p => ?_⟩
      · rw [heq1, filter_cons_of_pos (by simp [hm])]
        rfl
      · constructor
        · rintro ⟨hp, hk⟩
          rcases mem_cons.1 hp with rfl | hp
          · exact absurd hk hm
          · exact ⟨hp, hk⟩
        · rintro ⟨hp, hk⟩
          exact ⟨mem_cons_of_mem _ hp, hk⟩

end RmAdd

section Invariant

variable {st st' : State} {es es' : List Addr} {new : Addr} {m m' : Mem} {name : Str}

/-- The environment is well formed, with these entries; `new` is a string that was allocated and is
not in it yet. -/
structure Inv (st : State) (es : List Addr) (new : Addr) : Prop where
  null : st.mem.blocks.lookup 0 = none
  array : st.environ = 0 ∧ es = [] ∨ st.environ ≠ 0 ∧ st.mem.array st.environ = some es
  texts : ∀ e ∈ es, ∃ b, st.mem.text e = some b
  distinct : Keyed.Distinct st.mem.key es
  oldenv : st.oldenv = 0 ∨ ∃ l, st.mem.blocks.lookup st.oldenv = some ⟨true, .arr l⟩
  table : TableOk st.mem st.alloced new
  inside : ∀ p, st.mem.Owned p → p ≠ new → p ∈ es
  named : ∀ p, st.mem.Owned p → ∃ name, st.mem.key p = some name

lemma Inv.entries (h : Inv st es new) : entries st = some es := by
  rcases h.array with ⟨h0, rfl⟩ | ⟨h0, ha⟩
  · rw [Env.entries, if_pos h0]
  · rw [Env.entries, if_neg h0, ha]

def Mem.value (m : Mem) (p : Addr) : Option Str := (m.text p).map valueOf

def bindings (m : Mem) (es : List Addr) : Bindings :=
  fun name => (Keyed.lookup m.key es name).bind m.value

lemma bindings_congr (h : ∀ e ∈ es, m'.text e = m.text e) : bindings m' es = bindings m es := by
  have hkey : ∀ e ∈ es, m'.key e = m.key e := fun e he => by rw [Mem.key, h e he, Mem.key]
  funext name
  rw [bindings, Keyed.lookup_congr hkey, bindings]
  cases hl : Keyed.lookup m.key es name with
  | none => rfl
  | some e =>
    have he := (Keyed.lookup_some hl).1
    rw [bind_some, bind_some, Mem.value, h e he, Mem.value]

lemma bindings_update {key' : Option Addr} {name : Str}
    (h : Keyed.lookup m.key es' = update (Keyed.lookup m.key es) name key') :
    bindings m es' = update (bindings m es) name (key'.bind m.value) := by
  funext n
  rw [bindings, h]
  rcases eq_or_ne n name with rfl | hn
  · rw [update_self, update_self]
  · rw [update_of_ne hn, update_of_ne hn, bindings]

lemma getLoop_eq (hname : Valid name) (htexts : ∀ e ∈ es, ∃ b, m.text e = some b) :
    getLoop m name name.length es =
    some ((Keyed.lookup m.key es name).map fun e => (e, name.length + 1)) := by
  induction es with
  | nil => rfl
  | cons e es ih =>
    obtain ⟨b, hb⟩ := htexts e mem_cons_self
    have hkey := Mem.key_eq hb
    rw [getLoop, hb]
    simp only [bind_eq_bind, bind_some, matches_iff hname, ← hkey]
    by_cases hm : m.key e = some name
    · rw [if_pos hm, Keyed.lookup_cons_self hm]
      rfl
    · rw [if_neg hm, Keyed.lookup_cons_ne hm]
      exact ih (forall_mem_cons.1 htexts).2

/-- The value that the result of `getenv` points to. -/
def pointee (m : Mem) (r : Option (Addr × ℕ)) : Option Str :=
  r.bind fun p => (m.text p.1).map (·.drop p.2)

lemma bindings_invalid (hname : ¬Valid name) : bindings m es name = none := by
  rw [bindings, Keyed.lookup_none fun e _ hk => ?_, bind_none]
  obtain ⟨b, -, hb⟩ := bind_eq_some_iff.1 hk
  exact hname (nameOf_eq_some.1 hb).1

lemma getenv_eq (h : Inv st es new) (name : Str) :
    ∃ r, getenv st name = some r ∧ pointee st.mem r = bindings st.mem es name ∧
      (r = none ↔ bindings st.mem es name = none) := by
  by_cases hname : Valid name
  · have hl : nameLen name = name.length := nameLen_of_not_mem hname.2
    have hv := valid_iff.1 hname
    rw [not_or, not_not] at hv
    have hval : ∀ e, Keyed.lookup st.mem.key es name = some e →
        ∃ b, st.mem.text e = some b ∧ valueOf b = b.drop (name.length + 1) := by
      intro e he
      obtain ⟨b, hb, hn⟩ := bind_eq_some_iff.1 (Keyed.lookup_some he).2
      obtain ⟨-, v, rfl⟩ := nameOf_eq_some.1 hn
      exact ⟨_, hb, by rw [valueOf, nameLen_append hname.2]⟩
    refine ⟨(Keyed.lookup st.mem.key es name).map fun e => (e, name.length + 1), ?_, ?_, ?_⟩
    · rcases h.array with ⟨h0, rfl⟩ | ⟨h0, ha⟩
      · simp [getenv, h0, Keyed.lookup]
      · rw [getenv, if_pos ⟨hv.1, hv.2, h0⟩, ha, hl]
        exact getLoop_eq hname h.texts
    · cases hk : Keyed.lookup st.mem.key es name with
      | none => simp [pointee, bindings, hk]
      | some e =>
        obtain ⟨b, hb, hvb⟩ := hval e hk
        simp [pointee, bindings, hk, Mem.value, hb, hvb]
    · cases hk : Keyed.lookup st.mem.key es name with
      | none => simp [bindings, hk]
      | some e =>
        obtain ⟨b, hb, -⟩ := hval e hk
        simp [bindings, hk, Mem.value, hb]
  · refine ⟨none, ?_, (bindings_invalid hname).symm, by simp [bindings_invalid hname]⟩
    rw [valid_iff, not_not] at hname
    rw [getenv, if_neg]
    · rfl
    · rintro ⟨h1, h2, -⟩
      exact hname.elim h1 fun h3 => h3 h2

variable {gone l : List Addr} {onHeap : Bool} {p q e r s : Addr} {a : Alloc} {value : Str} {b : Block}

/-- What a call leaves: the invariant holds with the new entries, and of the strings of `setenv`
those and only those that are no longer in the environment were freed, each once. -/
structure StepOk (st st' : State) (es' : List Addr) : Prop where
  inv : Inv st' es' 0
  log : ∃ log, st'.mem.freed = st.mem.freed ++ log ∧ log.Nodup ∧ ∀ p, st.mem.Owned p → (p ∈ log ↔ p ∉ es')

/-- The new entries are strings that stay, and they hold all strings of `setenv` that stay. -/
structure Keeps (st : State) (gone es' : List Addr) : Prop where
  stay : ∀ e ∈ es', e ∉ gone
  texts : ∀ e ∈ es', ∃ b, st.mem.text e = some b
  distinct : Keyed.Distinct st.mem.key es'
  inside : ∀ p, st.mem.Owned p → p ∉ gone → p ∈ es'

lemma Keeps.stepOk (log : List Addr) (hk : Keeps st gone es') (h : Inv st es new)
    (hless : Less st.mem st'.mem gone) (hnull : st'.mem.blocks.lookup 0 = none)
    (harr : st'.environ = 0 ∧ es' = [] ∨ st'.environ ≠ 0 ∧ st'.mem.array st'.environ = some es')
    (hold : st'.oldenv = 0 ∨ ∃ l, st'.mem.blocks.lookup st'.oldenv = some ⟨true, .arr l⟩)
    (htable : TableOk st'.mem st'.alloced 0) (hlog : st'.mem.freed = st.mem.freed ++ log)
    (hnodup : log.Nodup) (hmem : ∀ p, st.mem.Owned p → (p ∈ log ↔ p ∈ gone)) :
    StepOk st st' es' ∧ bindings st'.mem es' = bindings st.mem es' := by
  have htext : ∀ e ∈ es', st'.mem.text e = st.mem.text e := fun e he => hless.text e (hk.stay e he)
  have hkey : ∀ p ∉ gone, st'.mem.key p = st.mem.key p := fun p hp => by
    rw [Mem.key, hless.text p hp, Mem.key]
  refine ⟨⟨⟨hnull, harr, ?_, ?_, hold, htable, ?_, ?_⟩, log, hlog, hnodup, ?_⟩, bindings_congr htext⟩
  · intro e he
    rw [htext e he]
    exact hk.texts e he
  · exact hk.distinct.congr fun e he => hkey e (hk.stay e he)
  · intro p hp _
    obtain ⟨ho, hg⟩ := (hless.owned p).1 hp
    exact hk.inside p ho hg
  · intro p hp
    obtain ⟨ho, hg⟩ := (hless.owned p).1 hp
    rw [hkey p hg]
    exact h.named p ho
  · intro p hp
    rw [hmem p hp]
    exact ⟨fun hg he => hk.stay p he hg, fun he => by_contra fun hg => he (hk.inside p hp hg)⟩

lemma Inv.stepOk_refl (h : Inv st es 0) : StepOk st st es := by
  refine ⟨h, [], (append_nil _).symm, nodup_nil, fun p hp => ?_⟩
  simp [h.inside p hp (hp.ne_zero h.null)]

lemma Mem.store_eq (h : m.array new = some es) (es' : List Addr) :
    ∃ onHeap, m.blocks.lookup new = some ⟨onHeap, .arr es⟩ ∧
    m.store new es' = some (m.add new ⟨onHeap, .arr es'⟩) := by
  rw [Mem.array] at h
  split at h
  · next onHeap l heq =>
    cases h
    exact ⟨onHeap, heq, by rw [Mem.store, heq]⟩
  · cases h

section

variable (h : m.blocks.lookup p = some ⟨onHeap, .arr l⟩)

include h

lemma text_none_of_arr : m.text p = none := by
  rw [Mem.text, h]

lemma not_owned_of_arr : ¬m.Owned p :=
  not_owned_of_text (text_none_of_arr h)

end

lemma Frees.array {which : Addr → Prop} (hf : Frees st st' gone which)
    (h : st.mem.blocks.lookup p = some ⟨onHeap, .arr l⟩) :
    st'.mem.blocks.lookup p = some ⟨onHeap, .arr l⟩ := by
  rw [hf.released.blocks, if_neg fun hg => not_owned_of_arr h ((hf.mem_gone p).1 hg).2, h]

lemma heapArr_add {l' : List Addr} (es' : List Addr) (hq : m.blocks.lookup q = some ⟨onHeap, .arr l⟩)
    (hp : m.blocks.lookup p = some ⟨true, .arr l'⟩) :
    ∃ l'', (m.add q ⟨onHeap, .arr es'⟩).blocks.lookup p = some ⟨true, .arr l''⟩ := by
  rw [Mem.lookup_add]
  split_ifs with hpq
  · subst hpq
    rw [hp] at hq
    cases hq
    exact ⟨es', rfl⟩
  · exact ⟨l', hp⟩

/-! ### The calls -/

lemma putLoop_cases (s : Addr) (value : Str) (hname : Valid name)
    (htexts : ∀ e ∈ es, ∃ b, m.text e = some b) :
    ((∀ e ∈ es, m.key e ≠ some name) ∧ putLoop m s (name ++ equals :: value) (name.length + 1) es =
      some none) ∨
      ∃ pre e post, es = pre ++ e :: post ∧ m.key e = some name ∧ (∀ c ∈ pre, m.key c ≠ some name) ∧
        putLoop m s (name ++ equals :: value)
        (name.length + 1) es = some (some (pre ++ s :: post, e)) := by
  induction es with
  | nil => exact .inl ⟨by simp, rfl⟩
  | cons e es ih =>
    obtain ⟨b, hb⟩ := htexts e mem_cons_self
    have hkey := Mem.key_eq hb
    rw [putLoop, hb]
    simp only [bind_eq_bind, bind_some, strncmpEq_iff hname, ← hkey]
    by_cases hm : m.key e = some name
    · exact .inr ⟨[], e, es, rfl, hm, by simp, by rw [if_pos hm]; rfl⟩
    rw [if_neg hm]
    rcases ih fun e he => htexts e (mem_cons_of_mem _ he) with ⟨hno, heq⟩ | ⟨pre, e', post, rfl, hk,
      hpre, heq⟩
    · exact .inl ⟨forall_mem_cons.2 ⟨hm, hno⟩, by rw [heq]; rfl⟩
    · exact .inr ⟨e :: pre, e', post, rfl, hk, forall_mem_cons.2 ⟨hm, hpre⟩, by rw [heq]; rfl⟩

lemma growEnviron_spec (h : Inv st es new) (ha : a.Succeeds) :
    ∃ m' newenv log, growEnviron a st es = some (some (m', newenv)) ∧ SameStrings st.mem m' ∧
      m'.blocks.lookup newenv = some ⟨true, .arr es⟩ ∧ newenv ≠ 0 ∧ m'.blocks.lookup 0 = none ∧
      m'.freed = st.mem.freed ++ log ∧ log.Nodup ∧ ∀ p ∈ log, ¬st.mem.Owned p := by
  -- freeing `oldenv`, in a memory that agrees with the present one there
  have hfree : ∀ m1, m1.blocks.lookup st.oldenv = st.mem.blocks.lookup st.oldenv →
      ∃ m2 log, m1.free st.oldenv = some m2 ∧ Released m1 m2 log ∧ SameStrings m1 m2 ∧ log.Nodup ∧
        (∀ p ∈ log, ¬st.mem.Owned p) ∧ ∀ p ∈ log, p = st.oldenv := by
    intro m1 hsame
    rcases h.oldenv with h0 | ⟨l, hl⟩
    · exact ⟨m1, [], by rw [Mem.free, if_pos h0], .refl _, .of_released (.refl _) (by simp),
        nodup_nil, by simp,
        by simp⟩
    · have hne : st.oldenv ≠ 0 := fun h0 => by
        rw [h0, h.null] at hl
        cases hl
      have hrel := Released.drop m1 st.oldenv
      refine ⟨m1.drop st.oldenv, [st.oldenv], ?_, hrel, .of_released hrel ?_, nodup_singleton _,
        ?_, by simp⟩
      · rw [Mem.free, if_neg hne, hsame, hl]
      · intro p hp
        rw [mem_singleton.1 hp]
        exact text_none_of_arr (hsame.trans hl)
      · intro p hp
        rw [mem_singleton.1 hp]
        exact not_owned_of_arr hl
  have hfresh : ∀ {m1 : Mem} {q : Addr},
      m1.blocks.lookup q = none → SameStrings m1 (m1.add q ⟨true, .arr es⟩) := by
    intro m1 q hq
    exact .add_arr (by rw [Mem.text, hq]) _ _
  have hneOld : ∀ q, st.mem.Fresh q → st.oldenv ≠ q := by
    intro q hq
    rcases h.oldenv with h0 | ⟨l, hl⟩
    · exact fun heq => hq.1 (heq ▸ h0)
    · exact hq.ne (by simp [hl])
  rw [growEnviron]
  by_cases henv : st.environ = st.oldenv
  · rw [if_pos henv]
    obtain ⟨q, hq⟩ := ha.realloc st.mem st.oldenv
    obtain ⟨m2, log, hm2, hrel, hsame, hnodup, hno, hlog⟩ := hfree st.mem rfl
    rw [hq]
    simp only [hm2, bind_eq_bind, bind_some]
    rcases a.realloc_fresh _ _ _ hq with ⟨rfl, hq0⟩ | hqf
    · -- the array grows in place
      obtain ⟨l, hl⟩ := h.oldenv.resolve_left hq0
      rw [if_pos rfl]
      refine ⟨_, _, [], rfl, .add_arr (text_none_of_arr hl) _ _, ?_, hq0, ?_, (append_nil _).symm,
        nodup_nil, by simp⟩
      · rw [Mem.lookup_add, if_pos rfl]
      · rw [Mem.lookup_add, if_neg hq0.symm, h.null]
    · have hnone : m2.blocks.lookup q = none := by rw [hrel.blocks, hqf.2, ite_self]
      rw [if_neg (hneOld q hqf).symm]
      refine ⟨_, _, log, rfl, hsame.trans (hfresh hnone), ?_, hqf.1, ?_, hrel.freed, hnodup, hno⟩
      · rw [Mem.lookup_add, if_pos rfl]
      · rw [Mem.lookup_add, if_neg hqf.1.symm, hrel.blocks, h.null, ite_self]
  · rw [if_neg henv]
    obtain ⟨q, hq⟩ := ha.malloc st.mem
    have hqf := a.malloc_fresh _ _ hq
    have hne := hneOld q hqf
    obtain ⟨m2, log, hm2, hrel, hsame, hnodup, hno, hlog⟩ := hfree (st.mem.add q ⟨true, .arr es⟩)
      (by rw [Mem.lookup_add, if_neg hne])
    rw [hq]
    simp only [hm2]
    refine ⟨m2, q, log, rfl, (hfresh hqf.2).trans hsame, ?_, hqf.1, ?_, hrel.freed, hnodup, hno⟩
    · rw [hrel.blocks, if_neg fun hmem => hne (hlog q hmem).symm, Mem.lookup_add, if_pos rfl]
    · rw [hrel.blocks, Mem.lookup_add, if_neg hqf.1.symm, h.null, ite_self]

/-- The string that `__putenv` enters: the program's, or one that `setenv` has just allocated. -/
def Entering (st : State) (es : List Addr) (s r : Addr) : Prop :=
  r = 0 ∧ ¬st.mem.Owned s ∨ r = s ∧ st.mem.Owned s ∧ s ∉ es

section

variable (hr : Entering st es s r)

include hr

lemma Entering.not_freed (he : e ∈ es) : ¬(s = e ∧ st.mem.Owned s) := by
  rintro ⟨rfl, ho⟩
  rcases hr with ⟨-, hno⟩ | ⟨-, -, hs⟩
  · exact hno ho
  · exact hs he

lemma Entering.owned (h : SameStrings st.mem m) : r = 0 ∨ m.Owned r := by
  rcases hr with ⟨rfl, -⟩ | ⟨rfl, ho, -⟩
  · exact .inl rfl
  · exact .inr ((SameStrings.owned h r).2 ho)

lemma Entering.inside (h : Inv st es r) (hp : st.mem.Owned p) : p = s ∨ p ∈ es := by
  by_cases hps : p = s
  · exact .inl hps
  · refine .inr (h.inside p hp fun hpr => ?_)
    rcases hr with ⟨rfl, -⟩ | ⟨rfl, -, -⟩
    · exact hp.ne_zero h.null hpr
    · exact hps hpr

end

lemma putenvAt_replace {pre post : List Addr} (h : Inv st (pre ++ e :: post) r) (ha : a.Succeeds)
    (hname : Valid name)
    (htext : st.mem.text s = some (name ++ equals :: value)) (hr : Entering st (pre ++ e :: post) s r)
    (he : st.mem.key e = some name) (hpre : ∀ c ∈ pre, st.mem.key c ≠ some name)
    (hput : putLoop st.mem s (name ++ equals :: value) (name.length + 1) (pre ++ e :: post) =
      some (some (pre ++ s :: post, e))) :
    ∃ st', putenvAt a st s name.length r = some (st', 0) ∧ StepOk st st' (pre ++ s :: post) ∧
      bindings st'.mem (pre ++ s :: post) = bindings st.mem (pre ++ s :: post) := by
  have hmem : e ∈ pre ++ e :: post := by simp
  obtain ⟨h0, harr⟩ := h.array.resolve_left fun hn => by simp at hn
  obtain ⟨onHeap, hblock, hstore⟩ := Mem.store_eq harr (pre ++ s :: post)
  have hsame : SameStrings st.mem (st.mem.add st.environ ⟨onHeap, .arr (pre ++ s :: post)⟩) :=
    .add_arr (text_none_of_arr hblock) _ _
  set m1 := st.mem.add st.environ ⟨onHeap, .arr (pre ++ s :: post)⟩ with hm1
  have hnull : m1.blocks.lookup 0 = none := by rw [Mem.lookup_add, if_neg h0.symm, h.null]
  have hold : e = r → e = 0 := by
    intro her
    rcases hr with ⟨rfl, -⟩ | ⟨rfl, -, hs⟩
    · exact her
    · exact absurd (her ▸ hmem) hs
  obtain ⟨st', gone, heq, hf⟩ := envRmAdd_spec { st with mem := m1 } a.table e hnull (h.table.congr hsame)
    hold (hr.owned hsame) (.inl ha.table)
  have hgone : ∀ p, p ∈ gone ↔ p = e ∧ st.mem.Owned p := fun p =>
    (hf.mem_gone p).trans (and_congr_right' (SameStrings.owned hsame p))
  have hother := h.distinct.other he
  -- the entry that is replaced is no other's, and not the string that replaces it
  have hkeeps : Keeps st gone (pre ++ s :: post) := by
    constructor
    · intro c hc hg
      obtain ⟨rfl, ho⟩ := (hgone c).1 hg
      rcases mem_append.1 hc with hc | hc
      · exact hpre c hc he
      rcases mem_cons.1 hc with hcs | hc
      · exact hr.not_freed hmem ⟨hcs.symm, hcs ▸ ho⟩
      · exact hother.2 c hc he
    · have htexts := forall_mem_append.1 h.texts
      exact forall_mem_append.2 ⟨htexts.1, forall_mem_cons.2 ⟨⟨_, htext⟩, (forall_mem_cons.1 htexts.2).2⟩⟩
    · refine h.distinct.replace ?_
      rw [he, Mem.key_eq htext, nameOf_append hname]
    · intro p hp hg
      rcases hr.inside h hp with rfl | hin
      · simp
      have hpe : p ≠ e := fun hpe => hg ((hgone p).2 ⟨hpe, hp⟩)
      simpa [hpe, or_left_comm] using Or.inr hin
  have henv : m1.blocks.lookup st.environ = some ⟨onHeap, .arr (pre ++ s :: post)⟩ := by
    rw [Mem.lookup_add, if_pos rfl]
  refine ⟨st', ?_, hkeeps.stepOk gone h (Less.trans hsame hf.released.less) (hf.null hnull)
    (.inr ?_) ?_ hf.table
    hf.released.freed hf.nodup fun p _ => .rfl⟩
  · rw [putenvAt, h.entries, htext]
    simp only [bind_eq_bind, bind_some, hput, hstore, heq]
    rfl
  · rw [hf.environ]
    exact ⟨h0, by rw [Mem.array, hf.array henv]⟩
  · rw [hf.oldenv]
    refine h.oldenv.imp id ?_
    rintro ⟨l, hl⟩
    obtain ⟨l', hl'⟩ := heapArr_add (pre ++ s :: post) hblock hl
    exact ⟨l', hf.array hl'⟩

section

variable (h : Inv st es r) (ha : a.Succeeds) (hname : Valid name) (htext : st.mem.text s = some
  (name ++ equals :: value)) (hr : Entering st es s r)

include h ha hname htext hr

lemma putenvAt_append (hno : ∀ e ∈ es, st.mem.key e ≠ some name)
    (hput : putLoop st.mem s (name ++ equals :: value) (name.length + 1) es = some none) :
    ∃ st', putenvAt a st s name.length r = some (st', 0) ∧ StepOk st st' (es ++ [s]) ∧
      bindings st'.mem (es ++ [s]) = bindings st.mem (es ++ [s]) := by
  obtain ⟨m1, newenv, log, hgrow, hsame1, hblock, hne, hnull1, hfreed, hnodup, hlogNo⟩ :=
    growEnviron_spec h ha
  have harr1 : m1.array newenv = some es := by rw [Mem.array, hblock]
  obtain ⟨onHeap, hblock', hstore⟩ := Mem.store_eq harr1 (es ++ [s])
  obtain rfl : true = onHeap := by
    rw [hblock] at hblock'
    cases hblock'
    rfl
  have hsame2 : SameStrings m1 (m1.add newenv ⟨true, .arr (es ++ [s])⟩) :=
    .add_arr (text_none_of_arr hblock) _ _
  set m2 := m1.add newenv ⟨true, .arr (es ++ [s])⟩ with hm2
  have hsame := hsame1.trans hsame2
  have hnull : m2.blocks.lookup 0 = none := by rw [Mem.lookup_add, if_neg hne.symm, hnull1]
  have harr : m2.blocks.lookup newenv = some ⟨true, .arr (es ++ [s])⟩ := by
    rw [Mem.lookup_add, if_pos rfl]
  have hkeeps : Keeps st [] (es ++ [s]) := by
    constructor
    · simp
    · exact forall_mem_append.2 ⟨h.texts, forall_mem_singleton.2 ⟨_, htext⟩⟩
    · refine h.distinct.snoc hno ?_
      rw [Mem.key_eq htext, nameOf_append hname]
    · intro p hp _
      rcases hr.inside h hp with rfl | hin
      · simp
      · exact mem_append_left _ hin
  obtain ⟨st', heq, hmem, henv, hold, htab⟩ := enterNew_spec
    { st with mem := m2, environ := newenv, oldenv := newenv } hnull (h.table.congr hsame)
      (hr.owned hsame) ha.table
  refine ⟨st', ?_,
    hkeeps.stepOk log h (hmem ▸ hsame) (hmem ▸ hnull) (.inr ?_) (.inr ?_) htab ?_ hnodup ?_⟩
  · rw [putenvAt, h.entries, htext]
    simp only [bind_eq_bind, bind_some, hput, hgrow, hstore, heq]
    rfl
  · rw [henv, hmem, Mem.array, harr]
    exact ⟨hne, rfl⟩
  · rw [hold, hmem]
    exact ⟨_, harr⟩
  · rw [hmem]
    exact hfreed
  · intro p hp
    simpa using fun hl => hlogNo p hl hp

lemma putenvAt_ok : ∃ st' es', putenvAt a st s name.length r = some (st', 0) ∧ StepOk st st' es' ∧
      bindings st'.mem es' = update (bindings st.mem es) name (some value) := by
  have hkey : st.mem.key s = some name := by rw [Mem.key_eq htext, nameOf_append hname]
  have hvalue : (some s).bind st.mem.value = some value := by
    rw [bind_some, Mem.value, htext, map_some, valueOf_append hname.2]
  rcases putLoop_cases s value hname h.texts with ⟨hno, hput⟩ | ⟨pre, e, post, rfl, he, hpre, hput⟩
  · obtain ⟨st', heq, hok, hb⟩ := putenvAt_append h ha hname htext hr hno hput
    refine ⟨st', _, heq, hok, ?_⟩
    rw [hb, bindings_update (Keyed.lookup_snoc hno hkey), hvalue]
  · obtain ⟨st', heq, hok, hb⟩ := putenvAt_replace h ha hname htext hr he hpre hput
    refine ⟨st', _, heq, hok, ?_⟩
    rw [hb, bindings_update (Keyed.lookup_replace hpre he hkey), hvalue]

end

lemma Mem.Fresh.lookup_add (h : m.Fresh p) (hq : m.blocks.lookup q ≠ none) :
    (m.add p b).blocks.lookup q = m.blocks.lookup q := by
  rw [Mem.lookup_add, if_neg (h.ne hq)]

lemma Mem.Fresh.text_add (h : m.Fresh p) (hq : ∃ t, m.text q = some t) :
    (m.add p b).text q = m.text q := by
  obtain ⟨t, ht⟩ := hq
  rw [Mem.text, h.lookup_add (lookup_ne_none_of_text ht), Mem.text]

lemma Inv.add_fresh (h : Inv st es new) (hp : st.mem.Fresh p) (b : Block) :
    (st.mem.add p b).blocks.lookup 0 = none ∧
      (st.environ = 0 ∧ es = [] ∨ st.environ ≠ 0 ∧ (st.mem.add p b).array st.environ = some es) ∧
      (∀ e ∈ es, ∃ t, (st.mem.add p b).text e = some t) ∧ Keyed.Distinct (st.mem.add p b).key es ∧
      (st.oldenv = 0 ∨ ∃ l, (st.mem.add p b).blocks.lookup st.oldenv = some ⟨true, .arr l⟩) ∧
      bindings (st.mem.add p b) es = bindings st.mem es := by
  have htext : ∀ e ∈ es, (st.mem.add p b).text e = st.mem.text e := fun e he => hp.text_add (h.texts e he)
  refine ⟨?_, ?_, ?_, ?_, ?_, bindings_congr htext⟩
  · rw [Mem.lookup_add, if_neg hp.1.symm, h.null]
  · refine h.array.imp id fun ha => ⟨ha.1, ?_⟩
    rw [← ha.2, Mem.array, hp.lookup_add (lookup_ne_none_of_array ha.2), Mem.array]
  · intro e he
    rw [htext e he]
    exact h.texts e he
  · exact h.distinct.congr fun e he => by rw [Mem.key, htext e he, Mem.key]
  · refine h.oldenv.imp id ?_
    rintro ⟨l, hl⟩
    exact ⟨l, by rw [← hl]; exact hp.lookup_add (by simp [hl])⟩

variable (h : Inv st es 0)

include h

lemma Inv.add_string (hs : st.mem.Fresh s) (hname : Valid name) (value : Str) :
    Inv { st with mem := st.mem.add s ⟨true, .str (name ++ equals :: value)⟩ } es s ∧
      (st.mem.add s ⟨true, .str (name ++ equals :: value)⟩).text s = some (name ++ equals :: value) ∧
      Entering { st with mem := st.mem.add s ⟨true, .str (name ++ equals :: value)⟩ } es s s ∧
      bindings (st.mem.add s ⟨true, .str (name ++ equals :: value)⟩) es = bindings st.mem es ∧
      ∀ p, st.mem.Owned p → (st.mem.add s ⟨true, .str (name ++ equals :: value)⟩).Owned p := by
  set m1 := st.mem.add s ⟨true, .str (name ++ equals :: value)⟩
  have hlook : m1.blocks.lookup s = some ⟨true, .str (name ++ equals :: value)⟩ := by
    rw [Mem.lookup_add, if_pos rfl]
  have htext : m1.text s = some (name ++ equals :: value) := by rw [Mem.text, hlook]
  obtain ⟨hnull, harr, htexts, hdist, hold, hbind⟩ :=
    h.add_fresh hs ⟨true, .str (name ++ equals :: value)⟩
  have hnot : s ∉ es := fun he => by
    obtain ⟨t, ht⟩ := h.texts s he
    exact lookup_ne_none_of_text ht hs.2
  have howned : ∀ p, m1.Owned p ↔ st.mem.Owned p ∨ p = s := by
    intro p
    rcases eq_or_ne p s with rfl | hp
    · exact ⟨fun _ => .inr rfl, fun _ => ⟨_, hlook⟩⟩
    · rw [Mem.Owned, Mem.lookup_add, Mem.Owned]
      simp [hp]
  refine ⟨⟨hnull, harr, htexts, hdist, hold, ⟨h.table.nodup, ?_⟩, ?_, ?_⟩, htext,
    .inr ⟨rfl, (howned s).2 (.inr rfl), hnot⟩, hbind, fun p hp => (howned p).2 (.inl hp)⟩
  · intro p
    rw [h.table.owned, howned]
    constructor
    · rintro ⟨ho, -⟩
      refine ⟨.inl ho, ?_⟩
      rintro rfl
      obtain ⟨t, ht⟩ := ho
      rw [hs.2] at ht
      cases ht
    · rintro ⟨ho, hne⟩
      have ho := ho.resolve_right hne
      exact ⟨ho, ho.ne_zero h.null⟩
  · intro p hp hne
    have ho := ((howned p).1 hp).resolve_right hne
    exact h.inside p ho (ho.ne_zero h.null)
  · intro p hp
    rcases (howned p).1 hp with ho | rfl
    · rw [Mem.key, hs.text_add ho.text]
      exact h.named p ho
    · exact ⟨name, by rw [Mem.key_eq htext, nameOf_append hname]⟩

lemma setenv_ok (ha : a.Succeeds) (var : Option Str) (value : Str) (overwrite : Bool) :
    ∃ st' es' ret, setenv a st var value overwrite = some (st', ret) ∧ StepOk st st' es' ∧
      bindings st'.mem es' = effect st (bindings st.mem es) (.setenv a var value overwrite) := by
  cases var with
  | none => exact ⟨st, es, -1, rfl, h.stepOk_refl, rfl⟩
  | some var =>
    rw [setenv]
    by_cases hvar : Valid var
    swap
    · refine ⟨st, es, -1, ?_, h.stepOk_refl, ?_⟩
      · rw [if_pos (not_not.1 (mt valid_iff.2 hvar))]
        rfl
      · rw [effect, if_neg fun hc => hvar hc.1]
    rw [if_neg (valid_iff.1 hvar), nameLen_of_not_mem hvar.2]
    obtain ⟨old, hold, -, hnone⟩ := getenv_eq h var
    by_cases hset : overwrite = true ∨ bindings st.mem es var = none
    swap
    · -- the variable is set and is not to be overwritten
      rw [not_or] at hset
      obtain ⟨p, rfl⟩ := ne_none_iff_exists'.1 (mt hnone.1 hset.2)
      refine ⟨st, es, 0, ?_, h.stepOk_refl, ?_⟩
      · simp [keepsOld, hset.1, hold]
      · rw [effect, if_neg fun hc => by simp [hset.1, hset.2] at hc]
    have hgo : keepsOld st var overwrite = some false := by
      rw [keepsOld]
      rcases hset with ho | hb
      · rw [if_pos ho]
      · rw [hold, hnone.2 hb]
        exact ite_self _
    obtain ⟨s, hs⟩ := ha.malloc st.mem
    have hfresh := a.malloc_fresh _ _ hs
    simp only [hgo, hs, take_length]
    obtain ⟨hinv, htext, hent, hbind, hold⟩ := h.add_string hfresh hvar value
    obtain ⟨st', es', heq, hok, hb⟩ := putenvAt_ok hinv ha hvar htext hent
    obtain ⟨log, hlog, hnodup, hmem⟩ := hok.log
    refine ⟨st', es', 0, heq, ⟨hok.inv, log, hlog, hnodup, fun p hp => hmem p (hold p hp)⟩, ?_⟩
    rw [hb, hbind, effect, if_pos ⟨hvar, hset⟩]

lemma unsetenv_ok (name : Str) :
    ∃ st' es' ret, unsetenv st name = some (st', ret) ∧ StepOk st st' es' ∧ bindings st'.mem es' =
        if Valid name then update (bindings st.mem es) name none else bindings st.mem es := by
  rw [unsetenv]
  by_cases hname : Valid name
  swap
  · refine ⟨st, es, -1, ?_, h.stepOk_refl, by rw [if_neg hname]⟩
    rw [if_pos (not_not.1 (mt valid_iff.2 hname))]
    rfl
  rw [if_neg (valid_iff.1 hname), nameLen_of_not_mem hname.2, if_pos hname]
  rcases h.array with ⟨h0, rfl⟩ | ⟨h0, harr⟩
  · refine ⟨st, [], 0, by simp [h0], h.stepOk_refl, ?_⟩
    funext n
    rcases eq_or_ne n name with rfl | hn
    · rw [update_self]
      rfl
    · rw [update_of_ne hn]
  obtain ⟨st1, gone, heq, hf⟩ := unsetLoop_spec hname es h.null h.table h.texts h.distinct
  set kept := es.filter fun e => st.mem.key e ≠ some name
  obtain ⟨onHeap, hblock, -⟩ := Mem.store_eq harr kept
  have harr1 : st1.mem.array st.environ = some es := by rw [Mem.array, hf.array hblock]
  obtain ⟨onHeap', hblock', hstore⟩ := Mem.store_eq harr1 kept
  have hsame : SameStrings st1.mem (st1.mem.add st.environ ⟨onHeap', .arr kept⟩) :=
    .add_arr (text_none_of_arr hblock') _ _
  have hkeeps : Keeps st gone kept := by
    constructor
    · intro e he hg
      exact of_decide_eq_true (mem_filter.1 he).2 ((hf.mem_gone e).1 hg).1.2
    · exact fun e he => h.texts e (mem_of_mem_filter he)
    · exact h.distinct.filter _
    · intro p hp hg
      have hin : p ∈ es := h.inside p hp (hp.ne_zero h.null)
      refine mem_filter.2 ⟨hin, decide_eq_true fun hk => hg ((hf.mem_gone p).2 ⟨⟨hin, hk⟩, hp⟩)⟩
  let st2 : State :=
    { st1 with mem := st1.mem.add st.environ ⟨onHeap', .arr kept⟩, environ := st.environ }
  have hless : Less st.mem st2.mem gone := append_nil gone ▸ hf.released.less.trans hsame
  obtain ⟨hok, hb⟩ := hkeeps.stepOk gone h hless
    (by rw [Mem.lookup_add, if_neg h0.symm, hf.null h.null])
    (.inr ⟨h0, by rw [Mem.array, Mem.lookup_add, if_pos rfl]⟩)
    (by
      rw [hf.oldenv]
      refine h.oldenv.imp id ?_
      rintro ⟨l, hl⟩
      exact heapArr_add kept hblock' (hf.array hl))
    (hf.table.congr hsame) hf.released.freed hf.nodup fun p _ => .rfl
  refine ⟨_, kept, 0, ?_, hok, ?_⟩
  · rw [if_pos h0, harr]
    simp only [bind_eq_bind, bind_some, heq, hf.environ, hstore]
    rfl
  · rw [hb, bindings_update Keyed.lookup_filter_ne, bind_none]

lemma putenv_ok {text : Str} (ha : a.Succeeds) (hs : st.mem.blocks.lookup s = some ⟨false, .str text⟩) :
    ∃ st' es' ret, putenv a st s = some (st', ret) ∧ StepOk st st' es' ∧
      bindings st'.mem es' = effect st (bindings st.mem es) (.putenv a s) := by
  have htext : st.mem.text s = some text := by rw [Mem.text, hs]
  rw [putenv, effect, htext]
  simp only [bind_eq_bind, bind_some]
  cases hname : nameOf text with
  | some name =>
    obtain ⟨hv, value, rfl⟩ := nameOf_eq_some.1 hname
    have hno : ¬st.mem.Owned s := by simp [Mem.Owned, hs]
    obtain ⟨st', es', heq, hok, hb⟩ := putenvAt_ok h ha hv htext (.inl ⟨rfl, hno⟩)
    refine ⟨st', es', 0, ?_, hok, ?_⟩
    · rw [nameLen_append hv.2, if_neg (by simp [hv.1]), heq]
    · rw [hb, valueOf_append hv.2]
  | none =>
    have hcond : nameLen text = 0 ∨ text[nameLen text]? = none := by
      by_contra hc
      rw [not_or] at hc
      rcases split_name text with ⟨-, hl⟩ | ⟨n, v, hn, rfl⟩
      · exact hc.2 (by simp [hl])
      · rw [nameLen_append hn] at hc
        rw [nameOf_append ⟨by simpa using hc.1, hn⟩] at hname
        cases hname
    rw [if_pos hcond]
    exact unsetenv_ok h text

lemma clearenv_ok :
    ∃ st', clearenv st = some (st', 0) ∧ StepOk st st' [] ∧ bindings st'.mem [] = fun _ =>
    none := by
  obtain ⟨st', gone, heq, hf⟩ := clearLoop_spec { st with environ := 0 } es h.null h.table
  have hkeeps : Keeps st gone [] := by
    refine ⟨by simp, by simp, nodup_nil, fun p hp hg => absurd ((hf.mem_gone p).2 ⟨?_, hp⟩) hg⟩
    exact h.inside p hp (hp.ne_zero h.null)
  refine ⟨st', ?_,
    (hkeeps.stepOk gone h hf.released.less (hf.null h.null) (.inl ⟨hf.environ, rfl⟩) ?_ hf.table
    hf.released.freed hf.nodup fun p _ => .rfl).1, rfl⟩
  · rw [clearenv, h.entries]
    simp only [bind_eq_bind, bind_some, heq]
    rfl
  · rw [hf.oldenv]
    refine h.oldenv.imp id ?_
    rintro ⟨l, hl⟩
    exact ⟨l, hf.array hl⟩

lemma string_ok (hp : st.mem.Fresh p) (text : Str) :
    StepOk st { st with mem := st.mem.add p ⟨false, .str text⟩ } es ∧
      bindings (st.mem.add p ⟨false, .str text⟩) es = bindings st.mem es := by
  have howned : ∀ q, (st.mem.add p ⟨false, .str text⟩).Owned q ↔ st.mem.Owned q := by
    intro q
    rcases eq_or_ne q p with rfl | hq
    · simp [Mem.Owned, Mem.lookup_add, hp.2]
    · rw [Mem.Owned, Mem.lookup_add, if_neg hq, Mem.Owned]
  obtain ⟨hnull, harr, htexts, hdist, hold, hbind⟩ := h.add_fresh hp ⟨false, .str text⟩
  refine ⟨⟨⟨hnull, harr, htexts, hdist, hold, ⟨h.table.nodup, ?_⟩, ?_, ?_⟩, h.stepOk_refl.log⟩, hbind⟩
  · exact fun q => (h.table.owned q).trans (and_congr_left' (howned q).symm)
  · exact fun q hq hne => h.inside q ((howned q).1 hq) hne
  · intro q hq
    have ho := (howned q).1 hq
    rw [Mem.key, hp.text_add ho.text]
    exact h.named q ho

/-- **One call**: it does not fault, and does to the environment what it is to do. -/
theorem step_ok (c : Call) (hc : Allowed st c) :
    ∃ st' es' ret, step st c = some (st', ret) ∧ StepOk st st' es' ∧
      bindings st'.mem es' = effect st (bindings st.mem es) c := by
  cases c with
  | setenv a var value overwrite => exact setenv_ok h hc var value overwrite
  | unsetenv name => exact unsetenv_ok h name
  | putenv a s =>
    obtain ⟨ha, text, hs⟩ := hc
    exact putenv_ok h ha hs
  | clearenv =>
    obtain ⟨st', heq, hok, hb⟩ := clearenv_ok h
    exact ⟨st', [], 0, heq, hok, hb⟩
  | string p text => exact ⟨_, es, 0, rfl, string_ok h hc text⟩

end Invariant

/-! ### Sequences of calls from the start -/

/-- The environment that a program starts with: all strings are the program's, and no name is there
twice. -/
structure Initial (st : State) (es : List Addr) : Prop where
  null : st.mem.blocks.lookup 0 = none
  array : st.environ = 0 ∧ es = [] ∨ st.environ ≠ 0 ∧ st.mem.array st.environ = some es
  texts : ∀ e ∈ es, ∃ b, st.mem.text e = some b
  distinct : Keyed.Distinct st.mem.key es
  programs : ∀ p b, st.mem.blocks.lookup p = some b → b.heap = false
  oldenv : st.oldenv = 0
  alloced : st.alloced = []

/-- The states that sequences of calls lead to, each with the map that the program means. -/
inductive Run (st₀ : State) (m₀ : Bindings) : State → Bindings → Prop
  | start : Run st₀ m₀ st₀ m₀
  | call {st st' : State} {m : Bindings} {c : Call} {ret : ℤ} (h : Run st₀ m₀ st m) (hc : Allowed st c)
      (hstep : step st c = some (st', ret)) : Run st₀ m₀ st' (effect st m c)

section Runs

variable {st₀ st : State} {es₀ : List Addr} {m : Bindings}

lemma Initial.inv (h : Initial st₀ es₀) : Inv st₀ es₀ 0 := by
  have hno : ∀ p, ¬st₀.mem.Owned p := by
    rintro p ⟨t, ht⟩
    exact absurd (h.programs p _ ht) (by simp)
  refine ⟨h.null, h.array, h.texts, h.distinct, .inl h.oldenv, ⟨?_, ?_⟩, fun p hp => absurd hp (hno p),
    fun p hp => absurd hp (hno p)⟩
  · rw [h.alloced]
    exact nodup_nil
  · intro p
    simp [h.alloced, hno p]

lemma Run.inv (h0 : Initial st₀ es₀) (h : Run st₀ (bindings st₀.mem es₀) st m) :
    ∃ es, Inv st es 0 ∧ bindings st.mem es = m := by
  induction h with
  | start => exact ⟨es₀, h0.inv, rfl⟩
  | @call st st' m c ret _ hc hstep ih =>
    obtain ⟨es, hinv, rfl⟩ := ih
    obtain ⟨st1, es', ret', heq, hok, hb⟩ := step_ok hinv c hc
    rw [heq] at hstep
    cases hstep
    exact ⟨es', hok.inv, hb⟩

/-- **The environment refines a finite map and owns its strings.**  After every sequence of calls
`getenv` returns the value of the map, and null where there is none; the array and the strings that
`environ` leads to are there, and no string of `setenv`'s is left that it does not lead to.  The
next call does not fault, so that nothing is freed twice, and it frees of those strings the ones
that it takes out of the environment, each once, and no others. -/
theorem environ_refines_map (h₀ : Initial st₀ es₀) (h : Run st₀ (bindings st₀.mem es₀) st m) :
    (∀ name, ∃ r, getenv st name = some r ∧ pointee st.mem r = m name ∧ (r = none ↔ m name = none)) ∧
    (∃ es, entries st = some es ∧ (∀ e ∈ es, ∃ t, st.mem.text e = some t) ∧ ∀ p,
      st.mem.Owned p → p ∈ es) ∧
    ∀ c, Allowed st c → ∃ st' ret es' log, step st c = some (st', ret) ∧ entries st' = some es' ∧
      st'.mem.freed = st.mem.freed ++ log ∧ log.Nodup ∧ ∀ p, st.mem.Owned p → (p ∈ log ↔ p ∉ es') := by
  obtain ⟨es, hinv, rfl⟩ := h.inv h₀
  refine ⟨getenv_eq hinv, ⟨es, hinv.entries, hinv.texts, fun p hp =>
    hinv.inside p hp (hp.ne_zero hinv.null)⟩, fun c hc => ?_⟩
  obtain ⟨st', es', ret, heq, hok, -⟩ := step_ok hinv c hc
  obtain ⟨log, hlog⟩ := hok.log
  exact ⟨st', ret, es', log, heq, hok.inv.entries, hlog⟩

end Runs

/-- An allocator that never uses an address below one that is in use. -/
def bump : Alloc where
  malloc m := some (m.blocks.keys.sup id + 1)
  realloc m _ := some (m.blocks.keys.sup id + 1)
  table := true
  malloc_fresh := by
    rintro m p ⟨⟩
    refine ⟨Nat.succ_ne_zero _, Finmap.lookup_eq_none.2 fun hmem => ?_⟩
    exact Nat.not_succ_le_self _ (Finset.le_sup (f := id) (Finmap.mem_keys.2 hmem))
  realloc_fresh := by
    rintro m p q ⟨⟩
    refine .inr ⟨Nat.succ_ne_zero _, Finmap.lookup_eq_none.2 fun hmem => ?_⟩
    exact Nat.not_succ_le_self _ (Finset.le_sup (f := id) (Finmap.mem_keys.2 hmem))

lemma bump_succeeds : bump.Succeeds := ⟨fun _ => ⟨_, rfl⟩, fun _ _ => ⟨_, rfl⟩, rfl⟩

/-- A program with the environment `A=x`. -/
def oneVariable : State where
  mem :=
    { blocks := (Finmap.singleton 2 ⟨false, .str [65, equals, 120]⟩).insert 1 ⟨false, .arr [2]⟩,
      freed := [] }
  environ := 1
  oldenv := 0
  alloced := []

lemma oneVariable_lookup (p : Addr) : oneVariable.mem.blocks.lookup p =
    if p = 1 then some ⟨false, .arr [2]⟩ else if p = 2 then some ⟨false, .str [65, equals, 120]⟩
    else none := by
  rw [oneVariable]
  split_ifs with h1 h2
  · rw [h1, Finmap.lookup_insert]
  · rw [h2, Finmap.lookup_insert_of_ne _ (by decide), Finmap.lookup_singleton_eq]
  · rw [Finmap.lookup_insert_of_ne _ h1, Finmap.lookup_eq_none, Finmap.mem_singleton]
    exact h2

lemma oneVariable_initial : Initial oneVariable [2] := by
  refine ⟨by decide, .inr ⟨by decide, by decide⟩, ?_, by rw [Keyed.Distinct]; decide, ?_, rfl, rfl⟩
  · intro e he
    rw [mem_singleton.1 he]
    exact ⟨[65, equals, 120], by decide⟩
  · intro p b hb
    rw [oneVariable_lookup] at hb
    split_ifs at hb <;> cases hb <;> rfl

/-- `A` is set twice, and the second value is read. -/
theorem environ_refines_map_set_twice : ∃ st, (∃ m, Run oneVariable (bindings oneVariable.mem [2]) st m) ∧
    ∃ r, getenv st [65] = some r ∧ pointee st.mem r = some [50] := by
  have hrun0 : Run oneVariable (bindings oneVariable.mem [2]) oneVariable _ := .start
  obtain ⟨st1, ret1, -, -, hstep1, -⟩ :=
    (environ_refines_map oneVariable_initial hrun0).2.2 (.setenv bump (some [65]) [49] true) bump_succeeds
  have hrun1 := hrun0.call (c := .setenv bump (some [65]) [49] true) bump_succeeds hstep1
  obtain ⟨st2, ret2, -, -, hstep2, -⟩ :=
    (environ_refines_map oneVariable_initial hrun1).2.2 (.setenv bump (some [65]) [50] true) bump_succeeds
  have hrun2 := hrun1.call (c := .setenv bump (some [65]) [50] true) bump_succeeds hstep2
  obtain ⟨r, hr, hval, -⟩ := (environ_refines_map oneVariable_initial hrun2).1 [65]
  refine ⟨st2, ⟨_, hrun2⟩, r, hr, ?_⟩
  rw [hval, effect, if_pos ⟨by decide, .inl rfl⟩, update_self]

end Musl.Env
