import Musl.Lib.Numeral
import Musl.Lib.Octets

/-!
# BER elements, written and read back

`misc/ber.c` writes a tree of elements in two passes: `ober_calc_len` goes through the tree and sets
the length of every container, and `ober_dump_element` puts the octets into a buffer of the length
that it returned.  The reader gets the tree back from the octets; it takes the tag of an element for
its encoding, and refuses integers that are longer than need be.

An element is its header, its value and two links, to its first child and to its next sibling, and
`null` is the null pointer.  `be_sub`, `be_val` and `be_numeric` are one word of memory in the
source, of which the encoding says what it is. Failures are `none`, and so are accesses out of
bounds.  A `long long` is an integer, converted to and from its 64 bits where the source does it.
-/

namespace Musl.Ber

open Musl.Lib Musl.Lib.Octets List Option Nat

/-! ### Elements -/

variable {val k : ℕ} {os : List UInt8}

inductive Kind
  | eoc
  | boolean
  | integer
  | bitstring
  | octetstring
  | null
  | object
  | enumerated
  | sequence
  | set
  | other
deriving DecidableEq

/-- `BER_TYPE_EOC`, …, by their numbers. -/
def kindOf : ℕ → Kind
  | 0 => .eoc
  | 1 => .boolean
  | 2 => .integer
  | 3 => .bitstring
  | 4 => .octetstring
  | 5 => .null
  | 6 => .object
  | 10 => .enumerated
  | 16 => .sequence
  | 17 => .set
  | _ => .other

/-- `BER_TYPE_SEQUENCE` or `BER_TYPE_SET`. -/
def isContainer (encoding : ℕ) : Bool := encoding == 16 || encoding == 17

/-- `be_type`, `be_encoding`, `be_class` and `be_len`. -/
structure Header where
  type : ℕ
  encoding : ℕ
  cls : ℕ
  len : ℕ
deriving DecidableEq

/-- `be_numeric` or `be_val`, where it is one of these. -/
inductive Value
  | none
  | numeric (v : ℤ)
  | val (bytes : List UInt8)
deriving DecidableEq

/-- A pointer to a `struct ber_element`. -/
inductive Elm
  | null
  | elm (hdr : Header) (value : Value) (sub next : Elm)
deriving DecidableEq

/-- `ober_get_element`, with the header of `ober_set_header(elm, BER_CLASS_UNIVERSAL,
BER_TYPE_DEFAULT)`. -/
def getElement (encoding : ℕ) : Header := { type := encoding, encoding, cls := 0, len := 0 }

/-! ### The length of an integer -/

/-- `val & 0xff`. -/
def lowOctet (val : ℤ) : UInt8 := UInt8.ofNat (val % 256).toNat

/-- The variables of the loop in `ober_add_integer`. -/
structure Scan where
  val : ℤ
  last : UInt8
  len : ℕ

def scanStep (s : Scan) (i : ℕ) : Scan :=
  let cur := lowOctet s.val
  let len := if cur ≠ 0 ∧ cur ≠ 0xff then i else s.len
  let len := if (cur = 0 ∧ s.last &&& 0x80 ≠ 0) ∨ (cur = 0xff ∧ s.last &&& 0x80 = 0) then i else len
  { val := s.val / 256, last := cur, len }

/-- The first `n` rounds of it. -/
def scan (val : ℤ) (n : ℕ) : Scan := (List.range n).foldl scanStep { val, last := 0, len := 0 }

/-- `be_len` of an integer. -/
def intLen (val : ℤ) : ℕ := (scan val 8).len + 1

/-! ### Writing -/

/-- `ober_calc_len`: the element with the lengths of its containers, and its length with those that
follow. -/
def calcLen : Elm → Elm × ℕ
  | .null => (.null, 0)
  | .elm h value sub next =>
    let counts := sub ≠ .null ∧ isContainer h.encoding
    let h := if counts then { h with len := (calcLen sub).2 } else h
    let sub := if counts then (calcLen sub).1 else sub
    let size := 2
    let size := if h.type > 30 then size + (Nat.digits 128 h.type).length else size
    let size := if h.len ≥ 0x80 then size + (Nat.digits 256 h.len).length else size
    let size := size + (calcLen next).2
    (.elm h value sub (calcLen next).1, if h.cls = 0 ∧ h.type = 0 ∧ h.len = 0 then 0 else h.len + size)

/-- The write buffer, from `br_wbuf` to `br_wend`, and how far `br_wptr` is. -/
structure WBuf where
  buf : List UInt8
  ptr : ℕ

/-- `ober_putc`. -/
def putc (w : WBuf) (c : UInt8) : WBuf :=
  { buf := if w.ptr + 1 ≤ w.buf.length then w.buf.set w.ptr c else w.buf, ptr := w.ptr + 1 }

def overwrite (buf : List UInt8) (at_ : ℕ) (bytes : List UInt8) : List UInt8 :=
  buf.take at_ ++ bytes ++ buf.drop (at_ + bytes.length)

/-- `ober_write`. -/
def write (w : WBuf) (bytes : List UInt8) : WBuf :=
  { buf := if w.ptr + bytes.length ≤ w.buf.length then overwrite w.buf w.ptr bytes else w.buf
    ptr := w.ptr + bytes.length }

/-- The octets of a tag above 30: seven bits in each, and the highest bit set in all but the last. -/
def typeOctets (type : ℕ) : List UInt8 :=
  match Nat.digits 128 type with
  | [] => []
  | d :: ds => (ds.reverse.map fun d => UInt8.ofNat d ||| 0x80) ++ [UInt8.ofNat d]

def idOctets (h : Header) : List UInt8 :=
  let constructed : UInt8 := if isContainer h.encoding then 0x20 else 0
  let cls := UInt8.ofNat h.cls <<< 6
  if h.type ≤ 30 then [UInt8.ofNat h.type ||| cls ||| constructed]
  else (0x1f ||| cls ||| constructed) :: typeOctets h.type

def lenOctets (len : ℕ) : Option (List UInt8) :=
  if len < 0x80 then some [UInt8.ofNat len]
  else
    let buf := (Nat.digits 256 len).map UInt8.ofNat
    if buf.length ≤ 5 then some ((UInt8.ofNat buf.length ||| 0x80) :: buf.reverse) else none

/-- `ober_dump_header`. -/
def dumpHeader (w : WBuf) (h : Header) : Option WBuf := do
  let len ← lenOctets h.len
  return (idOctets h ++ len).foldl putc w

/-- The `switch` of `ober_dump_element`; `dumpSub` writes the children. -/
def dumpValue (h : Header) (value : Value) (dumpSub : WBuf → Option WBuf) (w : WBuf) : Option WBuf :=
  match kindOf h.encoding, value with
  | .boolean, .numeric v | .integer, .numeric v | .enumerated, .numeric v =>
    let l := (v % 2 ^ 64).toNat
    some ((octets l h.len).foldl putc w)
  | .bitstring, .val bytes | .octetstring, .val bytes | .object, .val bytes =>
    if h.len ≤ bytes.length then some (write w (bytes.take h.len)) else none
  | .null, _ | .eoc, _ | .other, _ => some w
  | .sequence, _ | .set, _ => dumpSub w
  | _, _ => none

/-- `ober_dump_element`. -/
def dumpElement : Elm → WBuf → Option WBuf
  | .null, w => some w
  | .elm h value sub next, w => do
    let w ← dumpHeader w h
    let w ← dumpValue h value (dumpElement sub) w
    dumpElement next w

/-- The buffer for `len` octets: the one that there is, if it is long enough, or a new one, with
`malloc` in it. -/
def bufferFor (old : Option (List UInt8)) (malloc : ℕ → UInt8) (len : ℕ) : List UInt8 :=
  match old with
  | some buf => if buf.length < len then (List.range len).map malloc else buf
  | none => (List.range len).map malloc

/-- `ober_write_elements`: the buffer, the length, and the tree with the lengths that were set. -/
def writeElements (old : Option (List UInt8)) (malloc : ℕ → UInt8) (root : Elm) :
    Option (WBuf × ℕ × Elm) := do
  let r := calcLen root
  let w ← dumpElement r.1 { buf := bufferFor old malloc r.2, ptr := 0 }
  return (w, r.2, r.1)

/-! ### Reading -/

/-- `ober_getc`. -/
def getc : List UInt8 → Option (UInt8 × List UInt8)
  | [] => none
  | u :: bs => some (u, bs)

/-- The loop of `get_id` over the octets of a tag above 30: the tag, and how many there were. -/
def tagLoop : ℕ → ℕ → List UInt8 → Option (ℕ × ℕ × List UInt8)
  | _, _, [] => none
  | i, t, u :: bs =>
    if i = 0 ∧ u &&& 0x7f = 0 then none
    else
      let t := (t <<< 7 ||| (u &&& 0x7f).toNat) % 2 ^ 32
      if i + 1 > 4 then none
      else if u &&& 0x80 ≠ 0 then tagLoop (i + 1) t bs
      else some (t, i + 1, bs)

/-- What `get_id` finds. -/
structure Id where
  tag : ℕ
  cls : ℕ
  cstruct : Bool
deriving DecidableEq

/-- `get_id`, with the number of octets and what follows them. -/
def getId (bs : List UInt8) : Option (Id × ℕ × List UInt8) := do
  let (u, bs) ← getc bs
  let cls := (u >>> 6 &&& 3).toNat
  let cstruct := u &&& 0x20 == 0x20
  if u &&& 0x1f ≠ 0x1f then return ({ tag := (u &&& 0x1f).toNat, cls, cstruct }, 1, bs)
  let (t, i, bs) ← tagLoop 0 0 bs
  return ({ tag := t, cls, cstruct }, i + 1, bs)

/-- The loop of `get_len`. -/
def lenLoop : ℕ → ℕ → List UInt8 → Option (ℕ × List UInt8)
  | 0, s, bs => some (s, bs)
  | _ + 1, _, [] => none
  | n + 1, s, u :: bs => lenLoop n (s <<< 8 ||| u.toNat) bs

/-- `get_len`, with the number of octets and what follows them. -/
def getLen (bs : List UInt8) : Option (ℕ × ℕ × List UInt8) := do
  let (u, bs) ← getc bs
  if u &&& 0x80 = 0 then return (u.toNat, 1, bs)
  let n := (u &&& 0x7f).toNat
  if u = 0x80 ∨ u = 0xff ∨ 4 < n then none
  else
    let (s, bs) ← lenLoop n 0 bs
    return (s, n + 1, bs)

/-- The loop that reads an integer; `val` has 64 bits. -/
def numericLoop : ℕ → ℕ → ℕ → UInt8 → List UInt8 → Option (ℕ × List UInt8)
  | 0, _, val, _, bs => some (val, bs)
  | _ + 1, _, _, _, [] => none
  | n + 1, i, val, last, c :: bs =>
    if (i = 1 ∧ last = 0 ∧ c &&& 0x80 = 0) ∨ (i = 1 ∧ last = 0xff ∧ c &&& 0x80 ≠ 0) then none
    else numericLoop n (i + 1) (val <<< 8 % 2 ^ 64 ||| c.toNat) c bs

def extendSign (len val : ℕ) : ℕ :=
  if len < 8 ∧ val >>> ((len - 1) * 8) &&& 0x80 ≠ 0 then val ||| (2 ^ 64 - 1) <<< (len * 8) % 2 ^ 64
    else val

/-- The case of integers in `ober_read_element`. -/
def readNumeric (len : ℕ) (bs : List UInt8) : Option (ℤ × List UInt8) :=
  if len < 1 ∨ len > 8 then none
  else (numericLoop len 0 0 0 bs).map fun r => (Int.bmod (extendSign len r.1) (2 ^ 64), r.2)

/-- `ober_read` of the value of a string. -/
def readBytes (len : ℕ) (bs : List UInt8) : Option (List UInt8 × List UInt8) :=
  if len > bs.length then none else some (bs.take len, bs.drop len)

/-- The encoding that an element gets, without an application callback. -/
def encodingOf (id : Id) : ℕ := if id.cstruct then 16 else if id.cls = 0 then id.tag else 5

def mustBePrimitive (tag : ℕ) : Bool := tag == 1 || tag == 2 || tag == 10 || tag == 5

/-- The value of an element that has been allocated for it, by its encoding; `readSub` reads the
children. -/
def readValue (readSub : ℕ → List UInt8 → Option (Elm × List UInt8)) (encoding len : ℕ)
    (bs : List UInt8) :
    Option (Value × Elm × List UInt8) :=
  match kindOf encoding with
  | .eoc | .other => some (.none, .null, bs)
  | .boolean => if len ≠ 1 then none else (readNumeric len bs).map fun r => (.numeric r.1, .null, r.2)
  | .integer | .enumerated => (readNumeric len bs).map fun r => (.numeric r.1, .null, r.2)
  | .bitstring | .octetstring | .object => (readBytes len bs).map fun r => (.val r.1, .null, r.2)
  | .null => if len ≠ 0 then none else some (.none, .null, bs)
  | .sequence | .set => (readSub len bs).map fun r => (.none, r.1, r.2)

/-- `ober_read_element`: the element, its length with that of its header, and what follows it. -/
def readElementWith (readSub : ℕ → List UInt8 → Option (Elm × List UInt8)) (bs : List UInt8) :
    Option (Elm × ℕ × List UInt8) := do
  let (id, r₁, bs) ← getId bs
  let (len, r₂, bs) ← getLen bs
  if (id.cls = 0 ∧ mustBePrimitive id.tag ∧ id.cstruct) ∨ len > bs.length then none
  else
    let encoding := encodingOf id
    let (value, sub, bs) ← readValue readSub encoding len bs
    return (.elm { type := id.tag, encoding, cls := id.cls, len } value sub .null, r₁ + r₂ + len, bs)

def Elm.withNext : Elm → Elm → Elm
  | .null, _ => .null
  | .elm h value sub _, next => .elm h value sub next

/-- The loop over the children of a container, of which `elements` have been read and `len` octets
are left: `next` is allocated for the next one. -/
def readSub : ℕ → ℤ → ℕ → List UInt8 → Option (Elm × List UInt8)
  | 0, _, _, _ => none
  | fuel + 1, len, elements, bs =>
    if len > 0 then
      if elements ≥ 65535 then none
      else do
        let (e, r, bs) ← readElementWith (fun len bs => readSub fuel len 0 bs) bs
        let (next, bs) ← readSub fuel (len - r) (elements + 1) bs
        return (e.withNext next, bs)
    else if elements = 0 then some (.elm (getElement 0) .none .null .null, bs)
    else some (.null, bs)

/-- `ober_read_element` with as many levels and siblings as there can be in the octets. -/
def readElement (bs : List UInt8) : Option (Elm × ℕ × List UInt8) :=
  readElementWith (fun len bs' => readSub (bs.length + 1) len 0 bs') bs

/-- `ober_read_elements(ber, NULL)`: the tree, and the octets that are left. -/
def readElements (bs : List UInt8) : Option (Elm × List UInt8) := do
  let (root, _, bs) ← readElement bs
  return (root, bs)

/-! ### The trees that are built -/

/-- A value for `ober_add_integer`, …: what is not a container. -/
inductive Leaf
  | integer (v : Int64)
  | enumerated (v : Int64)
  | boolean (b : Bool)
  | octetstring (bytes : List UInt8)
  | bitstring (bytes : List UInt8)
  | null
  | object (bytes : List UInt8)
deriving DecidableEq

def Leaf.build : Leaf → Header × Value
  | .integer v => ({ getElement 2 with len := intLen v.toInt }, .numeric v.toInt)
  | .enumerated v => ({ getElement 10 with len := intLen v.toInt }, .numeric v.toInt)
  | .boolean b => ({ getElement 1 with len := 1 }, .numeric (if b then 0xff else 0))
  | .octetstring bytes => ({ getElement 4 with len := bytes.length }, .val bytes)
  | .bitstring bytes => ({ getElement 3 with len := bytes.length }, .val bytes)
  | .null => (getElement 5, .none)
  | .object bytes => ({ getElement 6 with len := bytes.length }, .val bytes)

def siblings : Elm → ℕ
  | .null => 0
  | .elm _ _ _ next => siblings next + 1

/-- Siblings that are built from leaves and from sequences and sets that are not empty, each of at
most 65535 elements. The length of a container is not known before the tree is written. -/
inductive Built : Elm → Prop
  | null : Built .null
  | leaf (l : Leaf) {next : Elm} (hnext : Built next) : Built (.elm l.build.1 l.build.2 .null next)
  | container {encoding : ℕ} (henc : encoding = 16 ∨ encoding = 17) (len : ℕ) {sub next : Elm}
  (hsub : Built sub) (hne : sub ≠ .null) (hcount : siblings sub ≤ 65535) (hnext : Built next) :
      Built (.elm { getElement encoding with len } .none sub next)

/-- What a program gets from an element, by `ober_get_integer`, `ober_get_boolean`,
`ober_get_nstring`, …. -/
inductive Content
  | none
  | number (v : ℤ)
  | truth (b : Bool)
  | bytes (b : List UInt8)
deriving DecidableEq

def content (h : Header) (value : Value) : Content :=
  match kindOf h.encoding, value with
  | .boolean, .numeric v => .truth (v ≠ 0)
  | .integer, .numeric v | .enumerated, .numeric v => .number v
  | .bitstring, .val b | .octetstring, .val b | .object, .val b => .bytes (b.take h.len)
  | _, _ => .none

/-- A tree with the same classes, types, nesting, order and values. -/
inductive SameTree : Elm → Elm → Prop
  | null : SameTree .null .null
  | elm {h h' : Header} {v v' : Value} {sub sub' next next' : Elm} (hcls : h'.cls = h.cls)
  (htype : h'.type = h.type)
      (hval : content h' v' = content h v) (hsub : SameTree sub sub') (hnext : SameTree next next') :
      SameTree (.elm h v sub next) (.elm h' v' sub' next')

section Integers

variable {z : ℤ} {n k m l : ℕ}

lemma toNat_lowOctet (v : ℤ) : ((lowOctet v).toNat : ℤ) = v % 256 := by
  rw [lowOctet, UInt8.toNat_ofNat']
  omega

/-- The highest octet only repeats the sign of the next one. -/
def Repeats (top next : UInt8) : Prop := top = 0 ∧ next &&& 0x80 = 0 ∨ top = 0xff ∧ next &&& 0x80 ≠ 0

instance (top next : UInt8) : Decidable (Repeats top next) := inferInstanceAs (Decidable (_ ∨ _))

lemma repeats_iff (top next : UInt8) :
    Repeats top next ↔ top.toNat = 0 ∧ next.toNat < 128 ∨ top.toNat = 255 ∧ ¬next.toNat < 128 := by
  have hhigh : next &&& 0x80 = 0 ↔ next.toNat < 128 := by
    rw [← not_iff_not, not_lt]
    exact and_0x80 next
  rw [Repeats, Ne, hhigh, eq_zero, eq_0xff]

lemma scanStep_eq (s : Scan) (i : ℕ) : scanStep s i =
    { val := s.val / 256, last := lowOctet s.val,
      len := if Repeats (lowOctet s.val) s.last then s.len else i } := by
  rw [scanStep, Scan.mk.injEq]
  refine ⟨rfl, rfl, ?_⟩
  dsimp only [Repeats]
  by_cases h0 : lowOctet s.val = 0 <;> by_cases h1 : lowOctet s.val = 0xff <;>
    by_cases h2 : s.last &&& 0x80 = 0 <;> simp_all

/-- The state of the loop after `n + 1` rounds: the octets so far have the same signed value as the
lowest `len + 1` of them, and with one octet less that would not be so. -/
structure ScanOk (z : ℤ) (n : ℕ) (s : Scan) : Prop where
  val : s.val = z / 256 ^ (n + 1)
  last : s.last = lowOctet (z / 256 ^ n)
  le : s.len ≤ n
  same : Int.bmod z (256 ^ (n + 1)) = Int.bmod z (256 ^ (s.len + 1))
  minimal : ∀ k, s.len = k + 1 → ¬Repeats (lowOctet (z / 256 ^ (k + 1))) (lowOctet (z / 256 ^ k))

lemma scan_ok (z : ℤ) (n : ℕ) : ScanOk z n (scan z (n + 1)) := by
  induction n with
  | zero =>
    have hone : scan z 1 = { val := z / 256, last := lowOctet z, len := 0 } := by
      change scanStep { val := z, last := 0, len := 0 } 0 = _
      rw [scanStep_eq, ite_self]
    rw [hone]
    exact ⟨by simp, by simp, le_rfl, rfl, by simp⟩
  | succ n ih =>
    have hstep : scan z (n + 2) = scanStep (scan z (n + 1)) (n + 1) := by
      rw [scan, range_succ, foldl_append]
      rfl
    have hval : (scan z (n + 1)).val / 256 = z / 256 ^ (n + 2) := by
      rw [ih.val, Int.pow_succ 256 (n + 1), Int.ediv_ediv_of_nonneg (pow_pos (n + 1)).le]
    rw [hstep, scanStep_eq]
    by_cases hrep : Repeats (lowOctet (scan z (n + 1)).val) (scan z (n + 1)).last
    · rw [if_pos hrep]
      refine ⟨hval, by rw [ih.val], ih.le.trans (le_succ n), ?_, ih.minimal⟩
      rw [ih.val, ih.last, repeats_iff] at hrep
      have htop := toNat_lowOctet (z / 256 ^ (n + 1))
      have hnext := toNat_lowOctet (z / 256 ^ n)
      exact (bmod_succ z n (by omega)).trans ih.same
    · rw [if_neg hrep]
      refine ⟨hval, by rw [ih.val], le_rfl, rfl, fun k hk => ?_⟩
      obtain rfl : n = k := succ_injective hk
      rwa [ih.val, ih.last] at hrep

lemma octet_bits (z : ℤ) {j : ℕ} (hj : j < 8) : octet (z % 2 ^ 64).toNat j = lowOctet (z / 256 ^ j) := by
  rw [← UInt8.toNat_inj, toNat_octet]
  have hlow := toNat_lowOctet (z / 256 ^ j)
  have hcast : (((z % 2 ^ 64).toNat / 256 ^ j % 256 : ℕ) : ℤ) = z % 2 ^ 64 / 256 ^ j % 256 := by
    push_cast
    rw [Int.toNat_of_nonneg (Int.emod_nonneg z (by decide))]
  have hsame : z % 2 ^ 64 / 256 ^ j % 256 = z / 256 ^ j % 256 := by
    interval_cases j <;> omega
  omega

/-- The loop that reads an integer, from the octets of a number of which the first says more than
the sign. -/
lemma numericLoop_octets (l : ℕ) {n m i : ℕ} (last : UInt8) (rest : List UInt8) (hval : val < 256 ^ m)
    (hm : m + n ≤ 8) (hsecond : i = 1 → ∀ k, n = k + 1 → ¬Repeats last (octet l k))
    (hfirst : i = 0 → ∀ k, n = k + 2 → ¬Repeats (octet l (k + 1)) (octet l k)) :
    numericLoop n i val last (octets l n ++ rest) = some (value val (octets l n), rest) := by
  induction n generalizing m i val last with
  | zero => rfl
  | succ n ih =>
    have hpow : 256 ^ m ≤ 256 ^ 7 := Nat.pow_le_pow_right (by decide) (by omega)
    have hc := (octet l n).toNat_lt
    have hnext : val <<< 8 % 2 ^ 64 ||| (octet l n).toNat = val * 256 + (octet l n).toNat := by
      rw [mod_eq_of_lt (by rw [shiftLeft_eq]; omega), shiftLeft_or]
    have hcheck : ¬((i = 1 ∧ last = 0 ∧ octet l n &&& 0x80 = 0) ∨
        (i = 1 ∧ last = 0xff ∧ octet l n &&& 0x80 ≠ 0)) := by
      rw [← and_or_left]
      rintro ⟨hi, hrep⟩
      exact hsecond hi n rfl hrep
    rw [octets, cons_append, numericLoop, if_neg hcheck, hnext, ih (m := m + 1)]
    · rfl
    · omega
    · omega
    · intro hi k hk
      subst hk
      exact hfirst (succ_injective hi) k rfl
    · intro hi
      omega

lemma or_ones {m : ℕ} (hm : m ≤ 8) (hval : val < 256 ^ m) :
    val ||| (2 ^ 64 - 1) <<< (m * 8) % 2 ^ 64 = val + (2 ^ 64 - 256 ^ m) := by
  have hones : (2 ^ 64 - 1) <<< (m * 8) % 2 ^ 64 = (2 ^ (64 - m * 8) - 1) <<< (m * 8) := by
    interval_cases m <;> rfl
  have hsize : (2 ^ (64 - m * 8) - 1) <<< (m * 8) = 2 ^ 64 - 256 ^ m := by
    interval_cases m <;> rfl
  have hlt : val < 2 ^ (m * 8) := by rwa [mul_comm, two_pow_eight_mul]
  rw [hones, Nat.or_comm, ← Nat.shiftLeft_add_eq_or_of_lt hlt, hsize, Nat.add_comm]

lemma extendSign_eq (hk : k < 8) (hval : val < 256 ^ (k + 1)) :
    extendSign (k + 1) val = if k < 7 ∧ 128 * 256 ^ k ≤ val then val + (2 ^ 64 - 256 ^ (k + 1))
    else val := by
  have hbit : ∀ x < 256, (x &&& 0x80 ≠ 0 ↔ 128 ≤ x) := by decide +kernel
  have htop : val >>> ((k + 1 - 1) * 8) = val / 256 ^ k := by
    rw [Nat.add_sub_cancel, Nat.shiftRight_eq_div_pow, Nat.mul_comm, two_pow_eight_mul]
  have hlt : val / 256 ^ k < 256 := by
    rw [Nat.div_lt_iff_lt_mul (Nat.pow_pos (by decide)), Nat.mul_comm]
    exact hval
  have hcond : (k + 1 < 8 ∧ val >>> ((k + 1 - 1) * 8) &&& 0x80 ≠ 0) ↔ k < 7 ∧ 128 * 256 ^ k ≤ val := by
    rw [htop, hbit _ hlt, Nat.le_div_iff_mul_le (Nat.pow_pos (by decide)), Nat.succ_lt_succ_iff]
  rw [extendSign, or_ones hk hval]
  by_cases h : k < 7 ∧ 128 * 256 ^ k ≤ val
  · rw [if_pos (hcond.2 h), if_pos h]
  · rw [if_neg (mt hcond.1 h), if_neg h]

lemma bmod_extendSign (z : ℤ) (hk : k < 8) (hval : (val : ℤ) = z % 256 ^ (k + 1)) :
    Int.bmod (extendSign (k + 1) val) (2 ^ 64) = Int.bmod z (256 ^ (k + 1)) := by
  have hlt : (val : ℤ) < 256 ^ (k + 1) := hval ▸ Int.emod_lt_of_pos z (pow_pos _)
  have hhalf := emod_lt_half_iff z k
  rw [bmod_eq, extendSign_eq hk (by exact_mod_cast hlt)]
  simp only [Int.bmod_def]
  interval_cases k <;> split_ifs <;> omega

/-- **An integer read back**, from its octets: there are as many as `ober_add_integer` has found. -/
theorem readNumeric_octets (z : ℤ) (hk : k < 8)
    (hmin : ∀ j, k = j + 1 → ¬Repeats (lowOctet (z / 256 ^ (j + 1))) (lowOctet (z / 256 ^ j)))
    (rest : List UInt8) :
    readNumeric (k + 1)
    (octets (z % 2 ^ 64).toNat (k + 1) ++ rest) = some (Int.bmod z (256 ^ (k + 1)), rest) := by
  have hloop := numericLoop_octets (z % 2 ^ 64).toNat (n := k + 1) (i := 0) 0 rest
    (show 0 < 256 ^ 0 by decide) (by omega) (by simp) (by
      intro _ j hj
      obtain rfl : k = j + 1 := succ_injective hj
      rw [octet_bits z (by omega), octet_bits z (by omega)]
      exact hmin j rfl)
  rw [value_octets, zero_mul, zero_add] at hloop
  have hval : (((z % 2 ^ 64).toNat % 256 ^ (k + 1) : ℕ) : ℤ) = z % 256 ^ (k + 1) := by
    push_cast
    rw [Int.toNat_of_nonneg (Int.emod_nonneg z (by decide))]
    exact Int.emod_emod_of_dvd z (by interval_cases k <;> decide)
  rw [readNumeric, if_neg (by omega), hloop, map_some, bmod_extendSign z hk hval]

lemma bmod_int64 (v : Int64) : Int.bmod v.toInt (256 ^ 8) = v.toInt := by
  have hlow := v.le_toInt
  have hhigh := v.toInt_lt
  exact Int.bmod_eq_of_le (by omega) (by omega)

lemma readNumeric_intLen (v : Int64) (rest : List UInt8) :
    readNumeric (intLen v.toInt)
    (octets (v.toInt % 2 ^ 64).toNat (intLen v.toInt) ++ rest) = some (v.toInt, rest) := by
  have hscan := scan_ok v.toInt 7
  rw [intLen, readNumeric_octets v.toInt (lt_succ_of_le hscan.le) hscan.minimal, ← hscan.same, bmod_int64]

end Integers

section Buffer

variable {w : WBuf} {a b : List UInt8}

lemma write_nil (w : WBuf) : write w [] = w := by
  simp [write, overwrite]

lemma write_append (h : w.ptr + (a ++ b).length ≤ w.buf.length) :
    write (write w a) b = write w (a ++ b) := by
  rw [length_append] at h
  have ha : w.ptr + a.length ≤ w.buf.length := by omega
  have htake : (overwrite w.buf w.ptr a).take (w.ptr + a.length) = w.buf.take w.ptr ++ a := by
    rw [overwrite, take_left']
    rw [length_append, length_take]
    omega
  have hdrop : (overwrite w.buf w.ptr a).drop (w.ptr + a.length + b.length) =
      w.buf.drop (w.ptr + (a ++ b).length) := by
    have hlen : (w.buf.take w.ptr ++ a).length = w.ptr + a.length := by
      rw [length_append, length_take]
      omega
    rw [overwrite, drop_append, drop_eq_nil_of_le (by omega), nil_append, hlen, drop_drop, length_append]
    congr 1
    omega
  have hlen : (overwrite w.buf w.ptr a).length = w.buf.length := by
    simp only [overwrite, length_append, length_take, length_drop]
    omega
  simp only [write, length_append, if_pos ha, if_pos h, hlen, add_assoc]
  rw [WBuf.mk.injEq]
  refine ⟨?_, rfl⟩
  rw [overwrite, htake, hdrop, overwrite]
  simp

lemma putc_eq (c : UInt8) (h : w.ptr + 1 ≤ w.buf.length) : putc w c = write w [c] := by
  have hlen : w.ptr + [c].length ≤ w.buf.length := h
  rw [putc, write, if_pos h, if_pos hlen, overwrite, set_eq_take_append_cons_drop,
    if_pos (lt_of_succ_le h), append_assoc]
  rfl

lemma foldl_putc (h : w.ptr + a.length ≤ w.buf.length) : a.foldl putc w = write w a := by
  induction a generalizing w with
  | nil => rw [write_nil, foldl_nil]
  | cons c a ih =>
    rw [length_cons] at h
    have hc : w.ptr + 1 ≤ w.buf.length := by omega
    have happ : write (write w [c]) a = write w (c :: a) := write_append (by simpa [add_comm] using h)
    have hbuf : (write w [c]).buf.length = w.buf.length := by
      rw [← putc_eq c hc, putc, if_pos hc, length_set]
    rw [foldl_cons, putc_eq c hc, ih, happ]
    change w.ptr + 1 + a.length ≤ _
    omega

lemma length_write (h : w.ptr + a.length ≤ w.buf.length) : (write w a).buf.length = w.buf.length := by
  rw [write, if_pos h]
  simp only [overwrite, length_append, length_take, length_drop]
  omega

end Buffer

/-! ### The length of an element -/

section Length

variable {len : ℕ}

lemma lenLoop_digits (ds : List ℕ) (hds : ∀ d ∈ ds, d < 256) (v : ℕ) (rest : List UInt8) :
    lenLoop ds.length v (ds.map UInt8.ofNat ++ rest) = some (Numeral.value 256 v ds, rest) := by
  induction ds generalizing v with
  | nil => rfl
  | cons d ds ih =>
    have hd : (UInt8.ofNat d).toNat = d := UInt8.toNat_ofNat_of_lt' (hds d mem_cons_self)
    rw [map_cons, cons_append, length_cons, lenLoop, ih (forall_mem_cons.1 hds).2,
      shiftLeft_or, hd, Numeral.value_cons, mul_comm v 256]

def moreOctets (len : ℕ) : ℕ := if len ≥ 0x80 then (Nat.digits 256 len).length else 0

lemma lenOctets_spec (h : len < 2 ^ 32) : ∃ os, lenOctets len = some os ∧ os.length = 1 + moreOctets len ∧
    ∀ rest, getLen (os ++ rest) = some (len, os.length, rest) := by
  by_cases hshort : len < 0x80
  · refine ⟨[UInt8.ofNat len], by rw [lenOctets, if_pos hshort], by simp [moreOctets, hshort],
      fun rest => ?_⟩
    have htoNat : (UInt8.ofNat len).toNat = len := UInt8.toNat_ofNat_of_lt' (by change len < 256; omega)
    have hhigh : UInt8.ofNat len &&& 0x80 = 0 := by
      by_contra hne
      have := (and_0x80 _).1 hne
      omega
    simp [getLen, getc, hhigh, htoNat]
  · have hne : len ≠ 0 := by omega
    have hcount : (digits 256 len).length ≤ 4 := (digits_length_le_iff (by decide) len).2 h
    have hpos : 0 < (digits 256 len).length := length_pos_iff.2 (digits_ne_nil_iff_ne_zero.2 hne)
    have hnum : Numeral.numeral 256 len = (digits 256 len).reverse := if_neg hne
    have hloop : ∀ rest,
      lenLoop (digits 256 len).length 0 (((digits 256 len).map UInt8.ofNat).reverse ++ rest) =
        some (len, rest) := by
      intro rest
      have hdigits := lenLoop_digits (Numeral.numeral 256 len)
        (fun d hd => Numeral.lt_of_mem_numeral (by decide) hd) 0 rest
      rwa [Numeral.value_numeral, hnum, length_reverse, map_reverse] at hdigits
    -- the first octet is the number of those that follow
    have hfirst : ∀ n, 0 < n → n ≤ 4 → ∀ u, u = UInt8.ofNat n ||| 0x80 → u &&& 0x80 ≠ 0 ∧
      (u &&& 0x7f).toNat = n ∧
        ¬(u = 0x80 ∨ u = 0xff ∨ 4 < n) := by
      rintro n hpos hle u rfl
      interval_cases n <;> decide
    obtain ⟨hmore, hn, hok⟩ := hfirst _ hpos hcount _ rfl
    refine ⟨(UInt8.ofNat (digits 256 len).length ||| 0x80) :: ((digits 256 len).map UInt8.ofNat).reverse,
      ?_, ?_, fun rest => ?_⟩
    · simp [lenOctets, if_neg hshort, if_pos (hcount.trans (show 4 ≤ 5 by decide))]
    · rw [length_cons, length_reverse, length_map, moreOctets, if_pos (not_lt.1 hshort), add_comm]
    · rw [getLen, cons_append, getc]
      simp only [bind_eq_bind, bind_some, if_neg hmore, hn, if_neg hok, hloop, length_cons,
        length_map, length_reverse]
      rfl

end Length

/-! ### The octets of a tree -/

/-- The octets of the value of an element, with those of its children. -/
def bodyOctets (h : Header) (value : Value) (sub : List UInt8) : List UInt8 :=
  match kindOf h.encoding, value with
  | .boolean, .numeric v | .integer, .numeric v | .enumerated, .numeric v =>
    octets (v % 2 ^ 64).toNat h.len
  | .bitstring, .val bytes | .octetstring, .val bytes | .object, .val bytes => bytes.take h.len
  | .sequence, _ | .set, _ => sub
  | _, _ => []

def encode : Elm → List UInt8
  | .null => []
  | .elm h value sub next =>
    idOctets h ++ (lenOctets h.len).getD [] ++ bodyOctets h value (encode sub) ++ encode next

/-- A tree in which the lengths of the containers are those of their children. -/
inductive Sized : Elm → Prop
  | null : Sized .null
  | leaf (l : Leaf) {next : Elm} (hlen : l.build.1.len < 2 ^ 32) (hnext : Sized next) :
      Sized (.elm l.build.1 l.build.2 .null next)
  | container {encoding len : ℕ} (henc : encoding = 16 ∨ encoding = 17) {sub next : Elm}
  (hsub : Sized sub)
      (hne : sub ≠ .null) (hcount : siblings sub ≤ 65535) (hlen : len = (encode sub).length)
      (hlt : len < 2 ^ 32)
      (hnext : Sized next) : Sized (.elm { getElement encoding with len } .none sub next)

section Trees

variable {e sub next : Elm} {h : Header} {v : Value} {w : WBuf}

lemma id_spec (h : Header) (htype : h.type ≤ 30) (hcls : h.cls = 0) : ∃ u, idOctets h = [u] ∧
    ∀ rest, getId (u :: rest) =
    some ({ tag := h.type, cls := 0, cstruct := isContainer h.encoding }, 1, rest) := by
  have hbits : ∀ t ≤ 30, ∀ c : Bool,
      ((UInt8.ofNat t ||| UInt8.ofNat 0 <<< 6 ||| (if c then 0x20 else 0)) >>> 6 &&& 3).toNat = 0 ∧
      ((UInt8.ofNat t ||| UInt8.ofNat 0 <<< 6 ||| (if c then 0x20 else 0)) &&& 0x20 == 0x20) = c ∧
      (UInt8.ofNat t ||| UInt8.ofNat 0 <<< 6 ||| (if c then 0x20 else 0)) &&& 0x1f ≠ 0x1f ∧
      ((UInt8.ofNat t ||| UInt8.ofNat 0 <<< 6 ||| (if c then 0x20 else 0)) &&& 0x1f).toNat = t := by
        decide +kernel
  obtain ⟨hu, hc, hmask, htag⟩ := hbits h.type htype (isContainer h.encoding)
  refine ⟨_, by rw [idOctets, hcls]; exact if_pos htype, fun rest => ?_⟩
  rw [getId, getc]
  simp only [bind_eq_bind, bind_some, if_pos hmask, hu, hc, htag]
  rfl

lemma Leaf.header_spec (l : Leaf) : l.build.1.type ≤ 30 ∧ l.build.1.type ≠ 0 ∧ l.build.1.cls = 0 ∧
    isContainer l.build.1.encoding = false := by
  cases l <;> simp [Leaf.build, getElement, isContainer]

lemma Leaf.length_body (l : Leaf) : (bodyOctets l.build.1 l.build.2 []).length = l.build.1.len := by
  cases l <;> simp [Leaf.build, bodyOctets, kindOf, getElement]

section

variable (hs : Sized (.elm h v sub next))

include hs

lemma Sized.tail : Sized next := by
  cases hs with
  | leaf l _ hnext => exact hnext
  | container _ _ _ _ _ _ hnext => exact hnext

lemma Sized.children : Sized sub := by
  cases hs with
  | leaf l _ _ => exact .null
  | container _ hsub _ _ _ _ _ => exact hsub

lemma Sized.head :
    ∃ u os, idOctets h = [u] ∧ lenOctets h.len = some os ∧ os.length = 1 + moreOctets h.len ∧
      (∀ rest, getId (u :: rest) =
        some ({ tag := h.type, cls := 0, cstruct := isContainer h.encoding }, 1, rest)) ∧
      (∀ rest, getLen (os ++ rest) = some (h.len, os.length, rest)) ∧
      (bodyOctets h v (encode sub)).length = h.len ∧ (encode sub).length ≤ h.len := by
  have hheader : h.type ≤ 30 ∧ h.cls = 0 ∧ h.len < 2 ^ 32 ∧
      (bodyOctets h v (encode sub)).length = h.len ∧ (encode sub).length ≤ h.len := by
    cases hs with
    | leaf l hlen _ => exact ⟨l.header_spec.1, l.header_spec.2.2.1, hlen, l.length_body, Nat.zero_le _⟩
    | container henc _ _ _ hlen hlt _ =>
      subst hlen
      rcases henc with rfl | rfl <;> exact ⟨by simp [getElement], rfl, hlt, rfl, le_rfl⟩
  obtain ⟨htype, hcls, hlen, hbody, hsub⟩ := hheader
  obtain ⟨u, hu, hid⟩ := id_spec h htype hcls
  obtain ⟨os, hos, hlength, hget⟩ := lenOctets_spec hlen
  exact ⟨u, os, hu, hos, hlength, hid, hget, hbody, hsub⟩

lemma Sized.length_encode :
    (encode (.elm h v sub next)).length = 2 + moreOctets h.len + h.len + (encode next).length := by
  obtain ⟨u, os, hu, hos, hlength, -, -, hbody, -⟩ := hs.head
  simp only [encode, hu, hos, getD_some, length_append, length_singleton]
  omega

end

/-! ### The first pass -/

def headerOctets (type len : ℕ) : ℕ :=
  2 + (if type > 30 then (digits 128 type).length else 0) + moreOctets len

/-- The length of an element of which the children have `n` octets. -/
def Header.contents (h : Header) (n : ℕ) : ℕ := if isContainer h.encoding then n else h.len

lemma calcLen_elm (hempty : isContainer h.encoding → sub = .null → h.len = 0) (v : Value)
    (next : Elm) : calcLen (.elm h v sub next) =
    (.elm { h with len := h.contents (calcLen sub).2 } v
      (if isContainer h.encoding then (calcLen sub).1 else sub)
      (calcLen next).1, if h.cls = 0 ∧ h.type = 0 ∧ h.contents (calcLen sub).2 = 0 then 0
      else h.contents (calcLen sub).2 + (headerOctets h.type (h.contents (calcLen sub).2) +
        (calcLen next).2)) := by
  have hlen : (if sub ≠ .null ∧ isContainer h.encoding then { h with len := (calcLen sub).2 } else h) =
      { h with len := h.contents (calcLen sub).2 } := by
    obtain ⟨_, encoding, _, _⟩ := h
    by_cases hcont : isContainer encoding <;> by_cases hnull : sub = .null <;> simp_all [calcLen,
      Header.contents]
  have hsub : (if sub ≠ .null ∧ isContainer h.encoding then (calcLen sub).1 else sub) =
      if isContainer h.encoding then (calcLen sub).1 else sub := by
    by_cases hnull : sub = .null <;> simp [hnull, calcLen]
  simp only [calcLen, hlen, hsub, headerOctets, moreOctets]
  split_ifs <;> rfl

lemma calcLen_leaf (l : Leaf) (next : Elm) : calcLen (.elm l.build.1 l.build.2 .null next) =
    (.elm l.build.1 l.build.2 .null (calcLen next).1,
      l.build.1.len + (2 + moreOctets l.build.1.len + (calcLen next).2)) := by
  obtain ⟨htype, hne, -, hcont⟩ := l.header_spec
  rw [calcLen_elm (by simp [hcont])]
  simp [Header.contents, hcont, hne, headerOctets, not_lt.2 htype]

lemma calcLen_container {encoding : ℕ} (henc : encoding = 16 ∨ encoding = 17) (len : ℕ)
    (hne : sub ≠ .null)
    (next : Elm) : calcLen (.elm { getElement encoding with len } .none sub next) =
    (.elm { getElement encoding with len := (calcLen sub).2 } .none (calcLen sub).1 (calcLen next).1,
      (calcLen sub).2 + (2 + moreOctets (calcLen sub).2 + (calcLen next).2)) := by
  have hcont : isContainer encoding = true := by rcases henc with rfl | rfl <;> rfl
  rw [calcLen_elm fun _ h => absurd h hne]
  rcases henc with rfl | rfl <;> simp [Header.contents, getElement, hcont, headerOctets]

lemma calcLen_eq_null : (calcLen e).1 = .null ↔ e = .null := by
  cases e with
  | null => exact .rfl
  | elm h value sub next => simp [calcLen]

lemma siblings_calcLen (e : Elm) : siblings (calcLen e).1 = siblings e := by
  induction e with
  | null => rfl
  | elm h value sub next _ ih => simp only [calcLen, siblings, ih]

lemma content_none (h : Header) : content h .none = .none := by
  unfold content
  cases kindOf h.encoding <;> rfl

/-- **The first pass** finds the length that the tree will have. -/
theorem calcLen_spec (h : Built e) (hlen : (calcLen e).2 < 2 ^ 32) :
    Sized (calcLen e).1 ∧ (calcLen e).2 = (encode (calcLen e).1).length ∧ SameTree e (calcLen e).1 := by
  induction h with
  | null => exact ⟨.null, rfl, .null⟩
  | @leaf l next _ ih =>
    rw [calcLen_leaf] at hlen ⊢
    obtain ⟨hsized, hnext, hsame⟩ := ih (by omega)
    have hleaf := Sized.leaf l (by omega) hsized
    refine ⟨hleaf, ?_, .elm rfl rfl rfl .null hsame⟩
    rw [hleaf.length_encode]
    omega
  | @container encoding henc len sub next _ hne hcount _ ihs ihn =>
    rw [calcLen_container henc len hne] at hlen ⊢
    obtain ⟨hsub, hsublen, hsubsame⟩ := ihs (by omega)
    obtain ⟨hsized, -, hsame⟩ := ihn (by omega)
    have hcont :=
      Sized.container henc hsub (mt calcLen_eq_null.1 hne) (by rwa [siblings_calcLen]) hsublen
        (by omega)
      hsized
    refine ⟨hcont, ?_, .elm rfl rfl (by simp [content_none]) hsubsame hsame⟩
    rw [hcont.length_encode]
    dsimp only
    omega

/-! ### The second pass -/

lemma dumpHeader_eq (hos : lenOctets h.len = some os)
    (hfits : w.ptr + (idOctets h ++ os).length ≤ w.buf.length) :
    dumpHeader w h = some (write w (idOctets h ++ os)) := by
  rw [dumpHeader, hos, ← foldl_putc hfits]
  rfl

lemma Leaf.dumpValue_eq (l : Leaf) (dumpSub : WBuf → Option WBuf)
    (hfits : w.ptr + (bodyOctets l.build.1 l.build.2 []).length ≤ w.buf.length) :
    dumpValue l.build.1 l.build.2 dumpSub w = some (write w (bodyOctets l.build.1 l.build.2 [])) := by
  cases l with
  | integer v | enumerated v | boolean v => exact congrArg some (foldl_putc hfits)
  | octetstring bytes | bitstring bytes | object bytes => exact if_pos le_rfl
  | null => exact congrArg some (write_nil w).symm

lemma dump_append {value : Value} (hos : lenOctets h.len = some os)
    (hfits : w.ptr + (encode (.elm h value sub next)).length ≤ w.buf.length)
    (hvalue : ∀ w : WBuf, w.ptr + (bodyOctets h value (encode sub)).length ≤ w.buf.length →
      dumpValue h value (dumpElement sub) w = some (write w (bodyOctets h value (encode sub))))
    (hnext : ∀ w : WBuf, w.ptr + (encode next).length ≤ w.buf.length →
      dumpElement next w = some (write w (encode next))) :
    dumpElement (.elm h value sub next) w = some (write w (encode (.elm h value sub next))) := by
  simp only [encode, hos, getD_some, length_append] at hfits ⊢
  set hdr := idOctets h ++ os
  set body := bodyOctets h value (encode sub)
  have hlen : hdr.length = (idOctets h).length + os.length := length_append
  have hfits1 : w.ptr + hdr.length ≤ w.buf.length := by omega
  have hfits2 : w.ptr + (hdr ++ body).length ≤ w.buf.length := by
    rw [length_append]
    omega
  have hstep2 : (write w hdr).ptr + body.length ≤ (write w hdr).buf.length := by
    rw [length_write hfits1]
    change w.ptr + hdr.length + body.length ≤ _
    omega
  have hstep3 : (write w (hdr ++ body)).ptr + (encode next).length ≤
      (write w (hdr ++ body)).buf.length := by
    rw [length_write hfits2]
    change w.ptr + (hdr ++ body).length + (encode next).length ≤ _
    rw [length_append]
    omega
  have hfits3 : w.ptr + (hdr ++ body ++ encode next).length ≤ w.buf.length := by
    rw [length_append, length_append]
    omega
  rw [dumpElement, dumpHeader_eq hos hfits1]
  simp only [bind_eq_bind, bind_some]
  rw [hvalue _ hstep2, write_append hfits2, bind_some, hnext _ hstep3, write_append hfits3]

/-- **The second pass** writes the octets of the tree. -/
theorem dumpElement_spec (h : Sized e) :
    ∀ w : WBuf,
    w.ptr + (encode e).length ≤ w.buf.length → dumpElement e w = some (write w (encode e)) := by
  induction e with
  | null =>
    intro w _
    rw [encode, write_nil, dumpElement]
  | elm hdr value sub next ihs ihn =>
    intro w hfits
    obtain ⟨u, os, -, hos, -⟩ := h.head
    refine dump_append hos hfits (fun w hw => ?_) (ihn h.tail)
    cases h with
    | leaf l _ _ => exact l.dumpValue_eq _ hw
    | container henc hsub _ _ _ _ _ => rcases henc with rfl | rfl <;> exact ihs hsub w hw

/-! ### Reading back -/

lemma content_congr (h h' : Header) (henc : h.encoding = h'.encoding) (hlen : h.len = h'.len)
    (v : Value) :
    content h v = content h' v := by
  unfold content
  rw [henc, hlen]

/-- The value of a leaf is read back: the same, but that the octet of true is taken for −1. -/
lemma Leaf.readValue_eq (l : Leaf) (readSub : ℕ → List UInt8 → Option (Elm × List UInt8))
    (rest : List UInt8) :
    ∃ v, readValue readSub l.build.1.encoding l.build.1.len (bodyOctets l.build.1 l.build.2 [] ++ rest) =
        some (v, .null, rest) ∧ content l.build.1 v = content l.build.1 l.build.2 := by
  have hstring : ∀ bytes : List UInt8,
      readBytes bytes.length (bytes.take bytes.length ++ rest) = some (bytes, rest) := by
    intro bytes
    rw [take_length, readBytes, if_neg (by simp), take_left, drop_left]
  cases l with
  | integer v | enumerated v =>
    exact ⟨.numeric v.toInt, congrArg (Option.map _) (readNumeric_intLen v rest), rfl⟩
  | boolean b =>
    refine ⟨.numeric (Int.bmod (if b then 0xff else 0) (256 ^ 1)), ?_, by cases b <;> rfl⟩
    have hread := readNumeric_octets (if b then 0xff else 0) (k := 0) (by decide) (by simp) rest
    have hvalue : ∀ bs, readValue readSub 1 1 bs = (readNumeric 1 bs).map fun r => (.numeric r.1,
        .null, r.2) := by
      simp [readValue, kindOf]
    exact (hvalue _).trans (congrArg (Option.map _) hread)
  | octetstring bytes | bitstring bytes | object bytes =>
    exact ⟨.val bytes, congrArg (Option.map _) (hstring bytes), rfl⟩
  | null => exact ⟨.none, rfl, rfl⟩

lemma readElementWith_eq {readSub : ℕ → List UInt8 → Option (Elm × List UInt8)}
    {bs rest : List UInt8} {u : UInt8}
    (hid : ∀ rest, getId (u :: rest) =
      some ({ tag := h.type, cls := 0, cstruct := isContainer h.encoding }, 1, rest))
    (hlen : ∀ rest, getLen (os ++ rest) = some (h.len, os.length, rest))
    (hprim : ¬(mustBePrimitive h.type ∧ isContainer h.encoding)) (hle : h.len ≤ bs.length)
    (hvalue : readValue readSub (if isContainer h.encoding then 16 else h.type) h.len bs =
      some (v, sub, rest)) :
    readElementWith readSub ([u] ++ os ++ bs) =
      some (.elm
        { type := h.type, encoding := if isContainer h.encoding then 16 else h.type, cls := 0,
          len := h.len }
        v sub .null, 1 + os.length + h.len, rest) := by
  rw [append_assoc, singleton_append, readElementWith, hid]
  simp only [bind_eq_bind, bind_some, hlen, encodingOf, hvalue, if_true]
  rw [if_neg]
  · rfl
  · rintro (hc | hc)
    · exact hprim hc.2
    · exact absurd hle (not_le.2 hc)

def depth : Elm → ℕ
  | .null => 1
  | .elm _ _ sub next => 1 + depth sub + depth next

lemma Sized.depth_le (h : Sized e) : depth e ≤ (encode e).length + 1 := by
  induction e with
  | null => exact le_rfl
  | elm hdr value sub next ihs ihn =>
    obtain ⟨u, os, -, -, -, -, -, -, hsub⟩ := h.head
    have hs := ihs h.children
    have hn := ihn h.tail
    rw [depth, h.length_encode]
    omega

lemma SameTree.withNext {h h' : Header} {v v' : Value} {sub sub' next next' : Elm}
    (hs : SameTree (.elm h v sub .null) (.elm h' v' sub' .null)) (hnext : SameTree next next') :
    SameTree (.elm h v sub next) (.elm h' v' sub' next') := by
  cases hs with
  | elm hcls htype hval hsub _ => exact .elm hcls htype hval hsub hnext

/-- Siblings are read back, of which some others were read before. -/
def ReadsBack (e : Elm) : Prop := ∀ (fuel elements : ℕ) (rest : List UInt8), depth e ≤ fuel →
  elements + siblings e ≤ 65535 → (e = .null → elements ≠ 0) →
  ∃ e', readSub fuel (encode e).length elements (encode e ++ rest) = some (e', rest) ∧ SameTree e e'

lemma readOne (hs : Sized (.elm h v sub next)) (hsub : ReadsBack sub)
    {fuel : ℕ} (hfuel : depth sub ≤ fuel) (rest : List UInt8) :
    ∃ h' v' sub' r, readElementWith (fun len bs => readSub fuel len 0 bs)
    (encode (.elm h v sub next) ++ rest) =
        some (.elm h' v' sub' .null, r, encode next ++ rest) ∧
      r + (encode next).length = (encode (.elm h v sub next)).length ∧ 0 < r ∧
      SameTree (.elm h v sub .null) (.elm h' v' sub' .null) := by
  obtain ⟨u, os, hu, hos, hosl, hid, hget, hbody, -⟩ := hs.head
  have hvalue : ¬(mustBePrimitive h.type ∧ isContainer h.encoding) ∧
      ∃ v' sub', readValue (fun len bs => readSub fuel len 0 bs) (if isContainer h.encoding then 16
      else h.type) h.len
          (bodyOctets h v (encode sub) ++ (encode next ++ rest)) = some (v', sub', encode next ++ rest) ∧
        ∀ h' : Header, h'.cls = 0 → h'.type = h.type →
        h'.encoding = (if isContainer h.encoding then 16 else h.type) →
          h'.len = h.len → SameTree (.elm h v sub .null) (.elm h' v' sub' .null) := by
    cases hs with
    | leaf l _ _ =>
      obtain ⟨-, -, hcls, hcont⟩ := l.header_spec
      obtain ⟨v, hv, hcontent⟩ :=
        l.readValue_eq (fun len bs => readSub fuel len 0 bs) (encode next ++ rest)
      have henc : (if isContainer l.build.1.encoding then 16 else l.build.1.type) =
          l.build.1.encoding := by
        cases l <;> rfl
      refine ⟨by simp [hcont], v, .null, by rw [henc]; exact hv, fun h' hcls' htype henc' hlen => ?_⟩
      refine .elm (hcls'.trans hcls.symm) htype ?_ .null .null
      rw [← hcontent]
      exact content_congr _ _ (henc'.trans henc) hlen v
    | @container encoding len henc _ _ _ hne hcount hlen _ _ =>
      subst hlen
      obtain ⟨e1, hread, hsame⟩ :=
        hsub fuel 0 (encode next ++ rest) hfuel (by omega) fun h => absurd h hne
      have hvalue := congrArg (Option.map fun r => (Value.none, r.1, r.2)) hread
      refine ⟨?_, .none, e1, ?_,
        fun h' hcls htype _ _ => .elm hcls htype (by simp [content_none]) hsame .null⟩ <;>
        rcases henc with rfl | rfl
      · simp [mustBePrimitive, getElement]
      · simp [mustBePrimitive, getElement]
      · exact hvalue
      · exact hvalue
  obtain ⟨hprim, v', sub', hread, hsame⟩ := hvalue
  have hsplit : encode (.elm h v sub next) ++ rest =
      [u] ++ os ++ (bodyOctets h v (encode sub) ++ (encode next ++ rest)) := by
    simp [encode, hu, hos]
  have helem := readElementWith_eq hid hget hprim (by rw [length_append]; omega) hread
  rw [← hsplit] at helem
  refine ⟨_, _, _, _, helem, ?_, by omega, hsame _ rfl rfl rfl rfl⟩
  rw [hs.length_encode]
  omega

/-- **The reader** gets siblings back from their octets. -/
theorem readSub_encode (h : Sized e) : ReadsBack e := by
  induction e with
  | null =>
    intro fuel elements rest hfuel _ hne
    obtain ⟨fuel, rfl⟩ := exists_eq_add_one.2 hfuel
    refine ⟨.null, ?_, .null⟩
    rw [readSub, if_neg (hne rfl)]
    rfl
  | elm hdr value sub next ihs ihn =>
    intro fuel elements rest hfuel hcount _
    rw [depth] at hfuel
    rw [siblings] at hcount
    obtain _ | fuel := fuel
    · omega
    obtain ⟨h', v', sub', r, helem, hr, hpos, hsame⟩ :=
      readOne h (ihs h.children) (show depth sub ≤ fuel by omega) rest
    obtain ⟨e2, hread, hsame2⟩ := ihn h.tail fuel (elements + 1) rest (by omega) (by omega) (by omega)
    have hleft : ((encode (.elm hdr value sub next)).length : ℤ) - r = (encode next).length := by omega
    refine ⟨.elm h' v' sub' e2, ?_, hsame.withNext hsame2⟩
    rw [readSub, if_pos (by omega), if_neg (by omega), helem]
    simp only [bind_eq_bind, bind_some, hleft, hread]
    rfl

lemma SameTree.trans {e1 e2 e3 : Elm} (h : SameTree e1 e2) (h' : SameTree e2 e3) : SameTree e1 e3 := by
  induction h generalizing e3 with
  | null => exact h'
  | elm hcls htype hval _ _ ihs ihn =>
    cases h' with
    | elm hcls' htype' hval' hsub' hnext' =>
      exact .elm (hcls'.trans hcls) (htype'.trans htype) (hval'.trans hval) (ihs hsub') (ihn hnext')

/-- **BER encoding round-trips.**  Every tree that is built from a single root and has fewer than
2^31 octets is written, into a new buffer or one that is there; from the octets that were written
`ober_read_elements` gets a tree with the same classes, types, nesting, order and values, and
nothing is left of them. -/
theorem ber_round_trip {root : Elm} (h : Built root) (hroot : siblings root = 1)
    (hlen : (calcLen root).2 < 2 ^ 31) (old : Option (List UInt8)) (malloc : ℕ → UInt8) :
    ∃ w len root' tree, writeElements old malloc root = some (w, len, root') ∧ w.ptr = len ∧
    len ≤ w.buf.length ∧
      readElements (w.buf.take len) = some (tree, []) ∧ SameTree root tree := by
  obtain ⟨hsized, hcalc, hsame⟩ := calcLen_spec h (by omega)
  have hsib := siblings_calcLen root
  rw [hroot] at hsib
  set e := (calcLen root).1 with he
  set len := (calcLen root).2 with hl
  have hfits : len ≤ (bufferFor old malloc len).length := by
    cases old with
    | none => simp [bufferFor]
    | some buf =>
      rw [bufferFor]
      split_ifs with hshort
      · simp
      · omega
  set buf := bufferFor old malloc len with hbuf
  have hdump := dumpElement_spec hsized { buf, ptr := 0 } (by dsimp only; omega)
  have hwrite : write { buf, ptr := 0 } (encode e) = { buf := encode e ++ buf.drop len, ptr := len } := by
    rw [write, if_pos (by dsimp only; omega), overwrite, hcalc]
    simp
  have htake : (encode e ++ buf.drop len).take len = encode e := by
    rw [hcalc]
    exact take_left
  -- the root is the only element
  cases heq : e with
  | null =>
    rw [heq] at hsib
    cases hsib
  | elm hdr value sub next =>
    rw [heq] at hsib hsized hsame htake
    obtain rfl : next = .null := by
      cases next with
      | null => rfl
      | elm _ _ _ _ => simp [siblings] at hsib
    have hdepth := hsized.depth_le
    rw [depth] at hdepth
    obtain ⟨h', v', sub', r, helem, -, -, hback⟩ := readOne hsized (readSub_encode hsized.children)
      (show depth sub ≤ (encode (.elm hdr value sub .null)).length + 1 by omega) []
    refine ⟨{ buf := encode e ++ buf.drop len, ptr := len }, len, e, .elm h' v' sub' .null, ?_, rfl,
      ?_, ?_,
      hsame.trans hback⟩
    · rw [writeElements, hdump, hwrite]
      rfl
    · rw [length_append]
      omega
    · rw [heq, htake, readElements, readElement]
      rw [append_nil] at helem
      rw [helem]
      rfl

end Trees

def sampleTree : Elm :=
  .elm (getElement 16) .none
    (.elm (Leaf.integer 300).build.1 (Leaf.integer 300).build.2 .null
      (.elm (Leaf.boolean true).build.1 (Leaf.boolean true).build.2 .null
        (.elm (getElement 17) .none (.elm Leaf.null.build.1 Leaf.null.build.2 .null .null) .null)))
    .null

lemma sampleTree_built : Built sampleTree := by
  have hset : Built
    (.elm (getElement 17) .none (.elm Leaf.null.build.1 Leaf.null.build.2 .null .null) .null) :=
    .container (.inr rfl) 0 (.leaf .null .null) (by decide) (by decide) .null
  exact .container (.inl rfl) 0 (.leaf (.integer 300) (.leaf (.boolean true) hset)) (by decide)
    (by decide) .null

theorem ber_round_trip_sequence :
    ∃ w len root' tree, writeElements none (fun _ => 0) sampleTree = some (w, len, root') ∧
    w.ptr = len ∧ len ≤ w.buf.length ∧ readElements (w.buf.take len) = some (tree, []) ∧
    SameTree sampleTree tree :=
  ber_round_trip sampleTree_built rfl (by decide +kernel) none fun _ => 0

end Musl.Ber
