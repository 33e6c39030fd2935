import Musl.Lib.FaultProgram

/-!
# The state of the dynamic linker

A loaded object (`struct dso`) is known by a number, its address.  The lists that the code threads through
the objects (`next`, `syms_next`, `tls.next`) are lists here, with their tails at the end; `lazy_next`
stays a field, since nothing in the code keeps an object from being put on the lazy list twice.

An allocation, or a call of `mprotect`, fails or not as `allocs` says; when the list is used up,
they succeed.
-/

namespace Musl.Ldso

open Musl.Lib

abbrev Name := List Char

/-- The relocation types that `do_relocs` tells apart. -/
inductive RelType where
  | none | symbolic | usymbolic | got | plt | relative | offset | offset32 | symOrRel | copy
  | funcdesc | funcdescVal | dtpmod | dtpoff | tpoff | tpoffNeg | tlsdesc | unsupported
  deriving DecidableEq, Repr

/-- The symbol of a relocation: its name, and what `st_info` and `st_shndx` say. -/
structure SymRef where
  name : Name
  isLocal : Bool
  isWeak : Bool
  isUndef : Bool
  deriving DecidableEq, Repr

/-- A relocation; `sym` is missing if `R_SYM(rel[1])` is 0. -/
structure Reloc where
  type : RelType
  sym : Option SymRef
  deriving DecidableEq, Repr

/-- The thread-local image of a library: `tls.size`, `tls.align` and the address `tls.image`. -/
structure TlsImage where
  size : ℕ
  align : ℕ
  image : ℕ
  deriving DecidableEq, Repr

/-- What a library file holds: its device and inode as one number, `DT_NEEDED`, the symbols that a
search accepts (with `st_shndx != 0`), its relocations, whether it asks for immediate binding, and
whether it has a range to be made read-only. -/
structure Library where
  file : ℕ
  needed : List Name
  defines : List (Name × Bool)
  relocs : List Reloc
  bindNow : Bool
  relro : Bool
  tls : Option TlsImage
  deriving DecidableEq, Repr

/-- `struct dso`.  `deps` is `none` before the direct dependencies are loaded; `lazy` holds the
relocations put off, `none` for a null pointer; `ctorVisitor` is the `tid` of the thread that runs
the constructors. -/
structure Dso where
  lib : Library
  name : Name
  shortname : Option Name
  deps : Option (List ℕ)
  ndepsDirect : ℕ
  nextDep : ℕ
  mark : Bool
  bfsBuilt : Bool
  relocated : Bool
  constructed : Bool
  ctorVisitor : Option ℤ
  lazy : Option (List Reloc)
  lazyNext : Option ℕ
  tlsId : ℕ
  tlsOffset : ℕ
  deriving DecidableEq, Repr

/-- The linker: the objects from `head` to `tail`, the global symbol chain up to `syms_tail`, the objects
with thread-local storage up to `tls_tail`, and the counters. -/
structure Ld where
  dsos : List ℕ
  dso : ℕ → Dso
  fresh : ℕ
  syms : List ℕ
  lazyHead : Option ℕ
  tlsList : List ℕ
  tlsCnt : ℕ
  tlsOffset : ℕ
  tlsAlign : ℕ
  staticTlsCnt : ℕ
  lddMode : Bool
  runtime : Bool
  noload : Bool
  allocs : List Bool

/-- Why the linker does not go on: a `longjmp` to `rtld_fail`, or what has no meaning in C (a step
out of an array, a loop without an end). -/
inductive LdStop where
  | jump
  | stuck
  deriving DecidableEq, Repr

def Ld.upd (s : Ld) (p : ℕ) (f : Dso → Dso) : Ld :=
  { s with dso := Function.update s.dso p (f (s.dso p)) }

def Ld.updAll (s : Ld) (ps : List ℕ) (f : Dso → Dso) : Ld := ps.foldl (fun s p => s.upd p f) s

def Ld.depList (s : Ld) (p : ℕ) : List ℕ := (s.dso p).deps.getD []

/-- The direct dependencies: the first `ndeps_direct` entries of `deps`. -/
def Ld.direct (s : Ld) (p : ℕ) : List ℕ := (s.depList p).take (s.dso p).ndepsDirect

def takeAlloc : Prog LdStop Ld Bool :=
  fun s => .ok (s.allocs.headD true) { s with allocs := s.allocs.tail }

@[simp] lemma upd_dso_self (s : Ld) (p : ℕ) (f : Dso → Dso) : (s.upd p f).dso p = f (s.dso p) := by
  simp [Ld.upd]

lemma upd_dso_of_ne (s : Ld) {p q : ℕ} (f : Dso → Dso) (h : q ≠ p) : (s.upd p f).dso q = s.dso q := by
  simp [Ld.upd, Function.update_of_ne h]

end Musl.Ldso
