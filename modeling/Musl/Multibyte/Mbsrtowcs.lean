import Musl.Multibyte.Mbrtowc

/-!
# Strings: `mbsrtowcs`

`mbsrtowcs` has two unrolled decoders, one that stores and one that counts, each with a fast path for
four ASCII bytes at an aligned address and an entry into the middle of a character for a state that an
earlier call has left.

The reference is `iterate`: `mbrtowc`, one character at a time.
-/

namespace Musl.Multibyte

open Musl.Lib.Utf8 List Option Nat
open String (utf8EncodeChar)

/-- `size_t`. -/
abbrev Size : Type := BitVec 64

section Code

variable (mem : ℕ → UInt8)

/-- `*s - 1u < 0x7f`. -/
def asciiByte (b : UInt8) : Bool := word b - 1 < 0x7f

/-- `*(w32*)s`. -/
def load32 (s : ℕ) : Word :=
  word (mem s) + word (mem (s + 1)) <<< 8 + word (mem (s + 2)) <<< 16 + word (mem (s + 3)) <<< 24

/-- `!((w | w-0x01010101) & 0x80808080)`. -/
def asciiWord (w : Word) : Bool := (w ||| (w - 0x01010101)) &&& 0x80808080 == 0

/-- The end of one character: a `break` with `c` and `s`, or the character and the position behind it. -/
inductive One where
  | bad (c : Word) (s : ℕ)
  | done (wc : Word) (s : ℕ)
  deriving DecidableEq, Repr

/-- From `resume` to the store. -/
def store1 (c : Word) (s : ℕ) : One :=
  if OOB c (mem s) then .bad c (s - 1)
  else
    let c := shiftIn c (mem s)
    if c &&& 1#32 <<< 31 = 0 then .done c (s + 1)
    else if notCont (mem (s + 1)) then .bad c (s + 1 - 2)
    else
      let c := shiftIn c (mem (s + 1))
      if c &&& 1#32 <<< 31 = 0 then .done c (s + 2)
      else if notCont (mem (s + 2)) then .bad c (s + 2 - 3)
      else .done (shiftIn c (mem (s + 2))) (s + 3)

/-- From `resume0` to `wn--`: the state is not shifted, its marks are tested in place. -/
def count1 (c : Word) (s : ℕ) : One :=
  if OOB c (mem s) then .bad c (s - 1)
  else if c &&& 1#32 <<< 25 = 0 then .done 0 (s + 1)
  else if notCont (mem (s + 1)) then .bad c (s + 1 - 2)
  else if c &&& 1#32 <<< 19 = 0 then .done 0 (s + 2)
  else if notCont (mem (s + 2)) then .bad c (s + 2 - 3)
  else .done 0 (s + 3)

/-- A return: the value, what `*src` is then (`none` for the null pointer) and the wide characters
stored. -/
structure Conv where
  ret : ℕ
  src : Option ℕ
  out : List Word
  deriving DecidableEq, Repr

def storeEnd (wn0 : Size) (c : Word) (s : ℕ) (wn : Size) (out : List Word) : Conv :=
  if c = 0 ∧ mem s = 0 then ⟨(wn0 - wn).toNat, none, out ++ [0]⟩ else ⟨minus1, some s, out⟩

/-- Behind the loops, without a destination; `*src` stays `s0`. -/
def countEnd (wn0 : Size) (s0 : ℕ) (c : Word) (s : ℕ) (wn : Size) : Conv :=
  if c = 0 ∧ mem s = 0 then ⟨(wn0 - wn).toNat, some s0, []⟩ else ⟨minus1, some s0, []⟩

def storeWords : ℕ → ℕ → Size → List Word → Option (ℕ × Size × List Word)
  | 0, _, _, _ => none
  | fuel + 1, s, wn, out =>
    if 5 ≤ wn ∧ asciiWord (load32 mem s) then
      storeWords fuel (s + 4) (wn - 4)
        (out ++ [word (mem s), word (mem (s + 1)), word (mem (s + 2)), word (mem (s + 3))])
    else some (s, wn, out)

/-- The fast path of the storing loop, at an ASCII byte on a word boundary. -/
def storeFast (fuel s : ℕ) (wn : Size) (out : List Word) : Option (ℕ × Size × List Word) :=
  if asciiByte (mem s) ∧ s % 4 = 0 then storeWords mem fuel s wn out else some (s, wn, out)

def countWords : ℕ → ℕ → Size → Option (ℕ × Size)
  | 0, _, _ => none
  | fuel + 1, s, wn =>
    if asciiWord (load32 mem s) then countWords fuel (s + 4) (wn - 4) else some (s, wn)

/-- The fast path of the counting loop, at an ASCII byte on a word boundary. -/
def countFast (fuel s : ℕ) (wn : Size) : Option (ℕ × Size) :=
  if asciiByte (mem s) ∧ s % 4 = 0 then countWords mem fuel s wn else some (s, wn)

def storeLoop (wn0 : Size) : ℕ → ℕ → Size → List Word → Option Conv
  | 0, _, _, _ => none
  | fuel + 1, s, wn, out =>
    if wn = 0 then some ⟨wn0.toNat, some s, out⟩
    else do
      let (s, wn, out) ← storeFast mem (fuel + 1) s wn out
      if asciiByte (mem s) then storeLoop wn0 fuel (s + 1) (wn - 1) (out ++ [word (mem s)])
      else if notLead (mem s) then some (storeEnd mem wn0 0 s wn out)
      else
        match store1 mem (leadState (mem s)) (s + 1) with
        | .bad c s => some (storeEnd mem wn0 c s wn out)
        | .done wc s => storeLoop wn0 fuel s (wn - 1) (out ++ [wc])

def countLoop (wn0 : Size) (s0 : ℕ) : ℕ → ℕ → Size → Option Conv
  | 0, _, _ => none
  | fuel + 1, s, wn => do
      let (s, wn) ← countFast mem (fuel + 1) s wn
      if asciiByte (mem s) then countLoop wn0 s0 fuel (s + 1) (wn - 1)
      else if notLead (mem s) then some (countEnd mem wn0 s0 0 s wn)
      else
        match count1 mem (leadState (mem s)) (s + 1) with
        | .bad c s => some (countEnd mem wn0 s0 c s wn)
        | .done _ s => countLoop wn0 s0 fuel s (wn - 1)

def byteLoop (wn0 : Size) : ℕ → ℕ → Size → List Word → Option Conv
  | 0, _, _, _ => none
  | fuel + 1, s, wn, out =>
    if wn = 0 then some ⟨wn0.toNat, some s, out⟩
    else if mem s = 0 then some ⟨(wn0 - wn).toNat, none, out ++ [0]⟩
    else byteLoop wn0 fuel (s + 1) (wn - 1) (out ++ [codeUnit (mem s)])

def strlen : ℕ → ℕ → Option ℕ
  | 0, _ => none
  | fuel + 1, s => if mem s = 0 then some 0 else (strlen fuel (s + 1)).map (· + 1)

/-- `mbsrtowcs`, with the state left; `ws` says whether there is a destination, and a null `st` is the
initial state.  At most `fuel` rounds are made. -/
def mbsrtowcs (fuel : ℕ) (utf8 ws : Bool) (s : ℕ) (wn : Size) (st : Word) : Option (Conv × Word) :=
  if st ≠ 0 then
    if ws then
      match store1 mem st s with
      | .bad c s => some (storeEnd mem wn c s wn [], 0)
      | .done wc s' => (storeLoop mem wn fuel s' (wn - 1) [wc]).map (·, 0)
    else
      match count1 mem st s with
      | .bad c s' => some (countEnd mem wn s c s' wn, st)
      | .done _ s' => (countLoop mem wn s fuel s' (wn - 1)).map (·, st)
  else if utf8 = false then
    if ws then (byteLoop mem wn fuel s wn []).map (·, st)
    else (strlen mem fuel s).map fun n => (⟨n, some s, []⟩, st)
  else if ws then (storeLoop mem wn fuel s wn []).map (·, st)
  else (countLoop mem wn s fuel s wn).map (·, st)

/-! ### The reference -/

/-- The `n` bytes at `s`. -/
def bytesAt : ℕ → ℕ → List UInt8
  | _, 0 => []
  | s, n + 1 => mem s :: bytesAt (s + 1) n

/-- Why the conversion ends: as many characters as were asked for are stored, the null character was
read, or `mbrtowc` has returned -1. -/
inductive Ended where
  | full (s : ℕ)
  | null
  | bad (s : ℕ)
  deriving DecidableEq, Repr

/-- `mbrtowc` called for one character after the other on the string that ends at `e`, until `limit`
characters are there: the characters, and why it ends. -/
def iterate (e : ℕ) : ℕ → Option ℕ → ℕ → Word → Option (List Word × Ended)
  | 0, _, _, _ => none
  | fuel + 1, limit, s, st =>
    if limit = some 0 then some ([], .full s)
    else
      let m := mbrtowc true (some (bytesAt mem s (e + 1 - s))) st
      if m.ret = minus1 ∨ m.ret = minus2 then some ([], .bad s)
      else if m.ret = 0 then some ([], .null)
      else (iterate e fuel (limit.map (· - 1)) (s + m.ret) m.st).map fun r => (m.wc.toList ++ r.1, r.2)

/-- What the reference returns for a source `s0`. -/
def refConv (ws : Bool) (s0 : ℕ) (r : List Word × Ended) : Conv :=
  match r.2 with
  | .full s => ⟨r.1.length, some s, r.1⟩
  | .null => if ws then ⟨r.1.length, none, r.1 ++ [0]⟩ else ⟨r.1.length, some s0, []⟩
  | .bad s => if ws then ⟨minus1, some s, r.1⟩ else ⟨minus1, some s0, []⟩

end Code

/-! ### Bytes -/

lemma asciiByte_table : ∀ b : Fin 256, (asciiByte (UInt8.ofFin b) = true ↔ 0 < b.val ∧ b.val < 0x80) := by
  decide +kernel

lemma asciiByte_iff (b : UInt8) : asciiByte b = true ↔ 0 < b.toNat ∧ b.toNat < 0x80 :=
  asciiByte_table b.toFin

lemma toNat_load32 (mem : ℕ → UInt8) (s : ℕ) : (load32 mem s).toNat =
    (mem s).toNat + (mem (s + 1)).toNat * 2 ^ 8 + (mem (s + 2)).toNat * 2 ^ 16 +
    (mem (s + 3)).toNat * 2 ^ 24 := by
  have h0 := (mem s).toNat_lt
  have h1 := (mem (s + 1)).toNat_lt
  have h2 := (mem (s + 2)).toNat_lt
  have h3 := (mem (s + 3)).toNat_lt
  unfold load32
  simp only [BitVec.toNat_add, BitVec.toNat_shiftLeft, toNat_word]
  omega

lemma bits_of_and_eq_zero {x y m : Word} (h : (x ||| y) &&& m = 0) (i : ℕ)
    (hm : m.getLsbD i = true) : x.toNat / 2 ^ i % 2 = 0 ∧ y.toNat / 2 ^ i % 2 = 0 := by
  have hbit : ((x ||| y) &&& m).getLsbD i = false := by
    rw [h]
    exact BitVec.getLsbD_zero
  rw [BitVec.getLsbD_and, hm, Bool.and_true, BitVec.getLsbD_or, Bool.or_eq_false_iff, BitVec.getLsbD,
    BitVec.getLsbD, testBit_eq_decide_div_mod_eq, testBit_eq_decide_div_mod_eq,
    decide_eq_false_iff_not, decide_eq_false_iff_not] at hbit
  omega

/-- **Four bytes that pass the test of the fast path are ASCII**, none of them null. -/
theorem asciiWord_bytes {mem : ℕ → UInt8} {s : ℕ} (h : asciiWord (load32 mem s) = true) :
    asciiByte (mem s) = true ∧ asciiByte (mem (s + 1)) = true ∧ asciiByte (mem (s + 2)) = true ∧
      asciiByte (mem (s + 3)) = true := by
  have hw := toNat_load32 mem s
  have h0 := (mem s).toNat_lt
  have h1 := (mem (s + 1)).toNat_lt
  have h2 := (mem (s + 2)).toNat_lt
  have hand : (load32 mem s ||| (load32 mem s - 0x01010101)) &&& 0x80808080 = 0 := beq_iff_eq.1 h
  have hsub : (load32 mem s - 0x01010101).toNat = (2 ^ 32 - 0x01010101 + (load32 mem s).toNat) % 2 ^ 32 :=
    BitVec.toNat_sub _ _
  have b7 := bits_of_and_eq_zero hand 7 (by decide)
  have b15 := bits_of_and_eq_zero hand 15 (by decide)
  have b23 := bits_of_and_eq_zero hand 23 (by decide)
  have b31 := bits_of_and_eq_zero hand 31 (by decide)
  simp only [asciiByte_iff]
  -- from the lowest byte up: a null byte would borrow and leave its own upper bit set
  have l0 : 0 < (mem s).toNat ∧ (mem s).toNat < 128 := by omega
  have l1 : 0 < (mem (s + 1)).toNat ∧ (mem (s + 1)).toNat < 128 := by omega
  have l2 : 0 < (mem (s + 2)).toNat ∧ (mem (s + 2)).toNat < 128 := by omega
  have l3 : 0 < (mem (s + 3)).toNat ∧ (mem (s + 3)).toNat < 128 := by omega
  exact ⟨l0, l1, l2, l3⟩

/-! ### One character -/

/-- The string at `s` ends at `e`. -/
structure StringAt (mem : ℕ → UInt8) (s e : ℕ) : Prop where
  le : s ≤ e
  null : mem e = 0
  rest : ∀ a, s ≤ a → a < e → mem a ≠ 0

/-- What can be read from `s` on: a string that ends at `e`, or `m` bytes at least.  A character
ends at `b` at the latest. -/
structure Source (mem : ℕ → UInt8) (b e m s : ℕ) : Prop where
  le : s ≤ b
  bound : b ≤ e + 1
  room : (StringAt mem s e ∧ b = e) ∨ s + m ≤ b

section Char

variable {mem : ℕ → UInt8} {s b e m : ℕ} {c : Word} {w : Window}

lemma StringAt.source (h : StringAt mem s e) (m : ℕ) : Source mem e e m s :=
  ⟨h.le, le_succ e, .inl ⟨h, rfl⟩⟩

lemma Source.mono (h : Source mem b e m s) {k : ℕ} (hk : k ≤ m) : Source mem b e k s :=
  ⟨h.le, h.bound, h.room.imp_right (le_trans (Nat.add_le_add_left hk s))⟩

section

variable (h : Source mem b e (m + 1) s)

include h

lemma Source.le_end : s ≤ e := by
  have hbound := h.bound
  rcases h.room with ⟨hs, _⟩ | hroom
  · exact hs.le
  · omega

lemma Source.bytesAt : bytesAt mem s (e + 1 - s) = mem s :: bytesAt mem (s + 1) (e + 1 - (s + 1)) := by
  have hle := h.le_end
  rw [show e + 1 - s = e + 1 - (s + 1) + 1 by omega]
  rfl

lemma Source.next (hs : (mem s).toNat ≠ 0) : Source mem b e m (s + 1) := by
  rcases h.room with ⟨hstr, rfl⟩ | hroom
  · have hle := hstr.le
    have hne : s ≠ b := by
      rintro rfl
      rw [hstr.null] at hs
      exact hs rfl
    have hnext : StringAt mem (s + 1) b := ⟨by omega, hstr.null, fun a h1 h2 => hstr.rest a (by omega) h2⟩
    exact hnext.source m
  · exact ⟨by omega, h.bound, .inr (by omega)⟩

end

lemma length_bytesAt (mem : ℕ → UInt8) (s n : ℕ) : (bytesAt mem s n).length = n := by
  induction n generalizing s with
  | zero => rfl
  | succ n ih => rw [Multibyte.bytesAt, length_cons, ih]

lemma take_bytesAt (mem : ℕ → UInt8) {s n k : ℕ} (h : k ≤ n) :
    (bytesAt mem s n).take k = bytesAt mem s k := by
  induction k generalizing s n with
  | zero => rfl
  | succ k ih =>
    obtain _ | n := n
    · omega
    rw [Multibyte.bytesAt, take_succ_cons, ih (by omega)]
    rfl

lemma mbrtowcLoop_byte (hs : Source mem b e (m + 1) s) (hc : Packs c w) (hlo : w.lo ≤ (mem s).toNat)
    (hhi : (mem s).toNat ≤ w.hi) :
    Source mem b e m (s + 1) ∧ ((shiftIn c (mem s) &&& 1#32 <<< 31 = 0 ∧ w.more = 0 ∧
          ∀ N, mbrtowcLoop N c (mem s) (bytesAt mem (s + 1) (e + 1 - (s + 1))) =
            ⟨N - (e + 1 - (s + 1)), 0, some (shiftIn c (mem s))⟩) ∨
        (shiftIn c (mem s) &&& 1#32 <<< 31 ≠ 0 ∧ 0 < w.more ∧ Packs (shiftIn c (mem s)) (w.next (mem s)) ∧
          ∀ N b' rest, mbrtowcLoop N c (mem s) (b' :: rest) =
            if notCont b' then ilseq else mbrtowcLoop N (shiftIn c (mem s)) b' rest)) := by
  have hb := hc.lo_le
  refine ⟨hs.next (by omega), ?_⟩
  rcases Nat.eq_zero_or_pos w.more with hmore | hmore
  · obtain ⟨hval, hlt⟩ := hc.shift_last hmore hlo hhi
    have hmark : shiftIn c (mem s) &&& 1#32 <<< 31 = 0 := mark_eq_zero_iff.2 (by omega)
    refine .inl ⟨hmark, hmore, fun N => ?_⟩
    have hlen := length_bytesAt mem (s + 1) (e + 1 - (s + 1))
    generalize bytesAt mem (s + 1) (e + 1 - (s + 1)) = rest at hlen
    rw [← hlen]
    cases rest <;> rw [mbrtowcLoop] <;> simp only [if_pos hmark] <;> rfl
  · have hc' := hc.shift hmore hlo hhi
    have hbounds := hc'.bounds
    have hmark : shiftIn c (mem s) &&& 1#32 <<< 31 ≠ 0 := by
      rw [Ne, mark_eq_zero_iff, hc'.toNat_eq]
      omega
    refine .inr ⟨hmark, hmore, hc', fun N b' rest => ?_⟩
    rw [mbrtowcLoop]
    simp only [if_neg hmark]

lemma next_bounds {b b' : UInt8} (h : ¬notCont b' = true) :
    (w.next b).lo ≤ b'.toNat ∧ b'.toNat ≤ (w.next b).hi := by
  have hcont := (notCont_iff b').not.1 h
  have hbounds : 128 ≤ b'.toNat ∧ b'.toNat ≤ 191 := by omega
  exact hbounds

/-- **What an unrolled decoder does at `s`**, compared with the loop of `mbrtowc`: it fails when the loop
does, one byte before the first that it was given, or ends at the same character and byte. -/
def SameRead (mem : ℕ → UInt8) (b e m s : ℕ) (c : Word) : One → Prop
  | .bad c' s' => c' ≠ 0 ∧ s' = s - 1 ∧
      ∀ N, mbrtowcRest N c (bytesAt mem s (e + 1 - s)) = ilseq
  | .done wc s' => s < s' ∧ Source mem b e m s' ∧
      ∀ N, mbrtowcRest N c (bytesAt mem s (e + 1 - s)) = ⟨N - (e + 1 - s'), 0, some wc⟩

/-- **The storing decoder reads what `mbrtowc` reads**, three bytes at most. -/
theorem store1_same (hs : Source mem b e (m + 3) s) (hc : Packs c w) :
    SameRead mem b e m s c (store1 mem c s) := by
  unfold store1
  by_cases hoob : OOB c (mem s) = true
  · rw [if_pos hoob]
    refine ⟨hc.ne_zero, rfl, fun N => ?_⟩
    rw [hs.bytesAt, mbrtowcRest, if_pos hoob]
  have hin := hc.oob_iff.not.1 hoob
  have hrest : ∀ N, mbrtowcRest N c (bytesAt mem s (e + 1 - s)) =
      mbrtowcLoop N c (mem s) (bytesAt mem (s + 1) (e + 1 - (s + 1))) := by
    intro N
    rw [hs.bytesAt, mbrtowcRest, if_neg hoob]
  rw [if_neg hoob]
  obtain ⟨hs1, ⟨hmark, _, hlast⟩ | ⟨hmark, -, hc1, hstep⟩⟩ := mbrtowcLoop_byte hs hc (by omega) (by omega)
  · -- two bytes in all, or the last one of a pending character
    rw [if_pos hmark]
    exact ⟨by omega, hs1.mono (by omega), fun N => (hrest N).trans (hlast N)⟩
  rw [if_neg hmark]
  by_cases hn1 : notCont (mem (s + 1)) = true
  · rw [if_pos hn1]
    refine ⟨hc1.ne_zero, rfl, fun N => ?_⟩
    rw [hrest, hs1.bytesAt, hstep, if_pos hn1]
  have hrest1 : ∀ N, mbrtowcRest N c (bytesAt mem s (e + 1 - s)) =
      mbrtowcLoop N (shiftIn c (mem s)) (mem (s + 1)) (bytesAt mem (s + 2) (e + 1 - (s + 2))) := by
    intro N
    rw [hrest, hs1.bytesAt, hstep, if_neg hn1]
  rw [if_neg hn1]
  obtain ⟨hs2, ⟨hmark1, _, hlast⟩ | ⟨hmark1, hmore1, hc2, hstep1⟩⟩ :=
    mbrtowcLoop_byte hs1 hc1 (next_bounds hn1).1 (next_bounds hn1).2
  · rw [if_pos hmark1]
    exact ⟨by omega, hs2.mono (by omega), fun N => (hrest1 N).trans (hlast N)⟩
  rw [if_neg hmark1]
  by_cases hn2 : notCont (mem (s + 2)) = true
  · rw [if_pos hn2]
    refine ⟨hc2.ne_zero, rfl, fun N => ?_⟩
    rw [hrest1, hs2.bytesAt, hstep1, if_pos hn2]
  rw [if_neg hn2]
  obtain ⟨hs3, ⟨_, _, hlast⟩ | ⟨_, hmore2, _⟩⟩ :=
    mbrtowcLoop_byte hs2 hc2 (next_bounds hn2).1 (next_bounds hn2).2
  · refine ⟨by omega, hs3, fun N => ?_⟩
    rw [hrest1, hs2.bytesAt, hstep1, if_neg hn2]
    exact hlast N
  · have hle := hc.more
    have hpos : 0 < w.more - 1 - 1 := hmore2
    omega

lemma bit_eq_zero_iff (c : Word) {i : ℕ} (hi : i < 32) :
    c &&& 1#32 <<< i = 0 ↔ c.toNat / 2 ^ i % 2 = 0 := by
  have htwo : 1#32 <<< i = BitVec.twoPow 32 i := (BitVec.twoPow_eq 32 i).symm
  have hne : BitVec.twoPow 32 i ≠ 0 := by
    intro h
    have := congrArg BitVec.toNat h
    rw [BitVec.toNat_twoPow_of_lt hi] at this
    exact absurd this (by positivity)
  rw [htwo, BitVec.and_twoPow, BitVec.getLsbD, testBit_eq_decide_div_mod_eq]
  by_cases h : c.toNat / 2 ^ i % 2 = 1
  · rw [decide_eq_true h]
    exact iff_of_false hne (by omega)
  · rw [decide_eq_false h]
    exact iff_of_true rfl (by omega)

lemma shiftIn_mark {b : UInt8} (hlo : 0x80 ≤ b.toNat) (hhi : b.toNat ≤ 0xbf) :
    (shiftIn c b &&& 1#32 <<< 31 = 0 ↔ c &&& 1#32 <<< 25 = 0) ∧
      (shiftIn c b &&& 1#32 <<< 25 = 0 ↔ c &&& 1#32 <<< 19 = 0) := by
  rw [bit_eq_zero_iff _ (by decide), bit_eq_zero_iff _ (by decide), bit_eq_zero_iff _ (by decide),
    bit_eq_zero_iff _ (by decide), toNat_shift hlo hhi]
  omega

/-- **The counting decoder** ends where the storing one does. -/
theorem count1_same (mem : ℕ → UInt8) (s : ℕ) (hc : Packs c w) :
    (∃ wc s', store1 mem c s = .done wc s' ∧ count1 mem c s = .done 0 s') ∨
      ∃ c1 s', store1 mem c s = .bad c1 s' ∧ count1 mem c s = .bad c s' := by
  unfold store1 count1
  have hb := hc.lo_le
  by_cases hoob : OOB c (mem s) = true
  · rw [if_pos hoob, if_pos hoob]
    exact .inr ⟨_, _, rfl, rfl⟩
  have hin := hc.oob_iff.not.1 hoob
  have hmark := shiftIn_mark (c := c) (b := mem s) (by omega) (by omega)
  rw [if_neg hoob, if_neg hoob]
  simp only [hmark.1]
  by_cases h25 : c &&& 1#32 <<< 25 = 0
  · rw [if_pos h25, if_pos h25]
    exact .inl ⟨_, _, rfl, rfl⟩
  rw [if_neg h25, if_neg h25]
  by_cases hn1 : notCont (mem (s + 1)) = true
  · rw [if_pos hn1, if_pos hn1]
    exact .inr ⟨_, _, rfl, rfl⟩
  have hin1 := (notCont_iff _).not.1 hn1
  have hmark1 := shiftIn_mark (c := shiftIn c (mem s)) (b := mem (s + 1)) (by omega) (by omega)
  rw [if_neg hn1, if_neg hn1]
  simp only [hmark1.1, hmark.2]
  by_cases h19 : c &&& 1#32 <<< 19 = 0
  · rw [if_pos h19, if_pos h19]
    exact .inl ⟨_, _, rfl, rfl⟩
  rw [if_neg h19, if_neg h19]
  by_cases hn2 : notCont (mem (s + 2)) = true
  · rw [if_pos hn2, if_pos hn2]
    exact .inr ⟨_, _, rfl, rfl⟩
  · rw [if_neg hn2, if_neg hn2]
    exact .inl ⟨_, _, rfl, rfl⟩

end Char

/-! ### The reference, step by step -/

/-- What `mbrtowc`, called for one character after the other, reads from `s` on. -/
inductive Runs (mem : ℕ → UInt8) (b e : ℕ) : Option ℕ → ℕ → Word → List Word → Ended → Prop
  | full {s : ℕ} {st : Word} : Runs mem b e (some 0) s st [] (.full s)
  | null {limit : Option ℕ} {s : ℕ} {st : Word} : limit ≠ some 0 →
      mbrtowc true (some (bytesAt mem s (e + 1 - s))) st = ⟨0, 0, some 0⟩ →
      Runs mem b e limit s st [] .null
  | bad {limit : Option ℕ} {s : ℕ} {st : Word} : limit ≠ some 0 →
      mbrtowc true (some (bytesAt mem s (e + 1 - s))) st = ilseq → Runs mem b e limit s st [] (.bad s)
  | char {limit : Option ℕ} {s s' : ℕ} {st wc : Word} {cs : List Word} {en : Ended} :
  limit ≠ some 0 → s < s' → s' ≤ b →
      mbrtowc true (some (bytesAt mem s (e + 1 - s))) st = ⟨s' - s, 0, some wc⟩ →
      Runs mem b e (limit.map (· - 1)) s' 0 cs en → Runs mem b e limit s st (wc :: cs) en

section Reference

variable {mem : ℕ → UInt8} {s b e m : ℕ} {limit : Option ℕ} {st : Word} {cs : List Word} {en : Ended}

lemma Runs.length_le (h : Runs mem b e limit s st cs en) (hs : s ≤ b) : cs.length + s ≤ b := by
  induction h with
  | full => simpa using hs
  | null => simpa using hs
  | bad => simpa using hs
  | char _ hlt hle _ _ ih =>
    rw [length_cons]
    omega

lemma Runs.limit_eq {a : ℕ} (h : Runs mem b e limit s st cs (.full a)) : limit = some cs.length := by
  generalize hen : Ended.full a = en at h
  induction h with
  | full => rfl
  | null => cases hen
  | bad => cases hen
  | @char limit s s' st wc cs en hlimit _ _ _ _ ih =>
    cases limit with
    | none => cases ih hen
    | some n =>
      have hn : n ≠ 0 := fun h0 => hlimit (by rw [h0])
      have hpred : n - 1 = cs.length := some.inj (ih hen)
      rw [length_cons, ← hpred, Nat.sub_add_cancel (pos_of_ne_zero hn)]

lemma Runs.le_end (h : Runs mem b e limit s st cs en) {a : ℕ} (ha : en = .full a ∨ en = .bad a) :
    s ≤ a := by
  induction h with
  | full =>
    rcases ha with ha | ha <;> cases ha
    exact le_rfl
  | null => rcases ha with ha | ha <;> cases ha
  | bad =>
    rcases ha with ha | ha <;> cases ha
    exact le_rfl
  | char _ hlt _ _ _ ih => exact hlt.le.trans (ih ha)

/-- **It is the reference**, with fuel for the characters. -/
theorem Runs.iterate_eq (h : Runs mem b e limit s st cs en) (hb : b < 2 ^ 64 - 2) {fuel : ℕ}
    (hfuel : cs.length < fuel) :
    iterate mem e fuel limit s st = some (cs, en) := by
  induction h generalizing fuel with
  | full =>
    obtain _ | f := fuel
    · omega
    rw [iterate, if_pos rfl]
  | null hlimit hm =>
    obtain _ | f := fuel
    · omega
    rw [iterate, if_neg hlimit, hm]
    rfl
  | bad hlimit hm =>
    obtain _ | f := fuel
    · omega
    rw [iterate, if_neg hlimit, hm]
    rfl
  | @char limit s s' st wc cs en hlimit hlt hle hm _ ih =>
    rw [length_cons] at hfuel
    obtain _ | f := fuel
    · omega
    rw [iterate, if_neg hlimit, hm]
    simp only
    rw [if_neg, if_neg (by omega), show s + (s' - s) = s' by omega, ih (by omega)]
    · rfl
    · unfold minus1 minus2
      omega

section

variable (hs : Source mem b e (m + 1) s)

include hs

lemma runs_null (h0 : mem s = 0) (hlimit : limit ≠ some 0) : Runs mem b e limit s 0 [] .null := by
  refine .null hlimit ?_
  rw [hs.bytesAt, h0]
  rfl

lemma runs_notLead (ha : ¬asciiByte (mem s) = true)
    (hn : notLead (mem s) = true) (h0 : mem s ≠ 0) (hlimit : limit ≠ some 0) :
    Runs mem b e limit s 0 [] (.bad s) := by
  have hge : ¬mem s < 0x80 := by
    intro hlt
    have hpos : (mem s).toNat ≠ 0 := fun h => h0 (UInt8.toNat_inj.1 h)
    exact ha ((asciiByte_iff _).2 ⟨by omega, hlt⟩)
  refine .bad hlimit ?_
  rw [hs.bytesAt, mbrtowc]
  simp [if_neg hge, if_pos hn]

lemma mbrtowc_ascii (hb : asciiByte (mem s) = true) : Source mem b e m (s + 1) ∧
      mbrtowc true (some (bytesAt mem s (e + 1 - s))) 0 = ⟨s + 1 - s, 0, some (word (mem s))⟩ := by
  have hin := (asciiByte_iff _).1 hb
  refine ⟨hs.next (by omega), ?_⟩
  have hlt : mem s < 0x80 := hin.2
  have hne : mem s ≠ 0 := by
    intro h0
    rw [h0] at hin
    exact absurd hin.1 (by decide)
  rw [hs.bytesAt, mbrtowc, Nat.add_sub_cancel_left]
  simp [if_pos hlt, if_neg hne]

end

lemma notLead_false_table : ∀ b : Fin 256, notLead (UInt8.ofFin b) = false → 128 ≤ b.val := by
  decide +kernel

lemma mbrtowc_lead (hs : Source mem b e (m + 1) s) (hn : ¬notLead (mem s) = true) :
    Source mem b e m (s + 1) ∧ (∃ w, Packs (leadState (mem s)) w) ∧
    mbrtowc true (some (bytesAt mem s (e + 1 - s))) 0 =
        mbrtowcRest (e + 1 - s) (leadState (mem s)) (bytesAt mem (s + 1) (e + 1 - (s + 1))) := by
  have hge : 128 ≤ (mem s).toNat := notLead_false_table (mem s).toFin (Bool.eq_false_iff.2 hn)
  have hle := hs.le_end
  have hlt : ¬mem s < 0x80 := not_lt.2 hge
  obtain ⟨w, hw⟩ := ne_none_iff_exists'.1 ((notLead_iff hge).not.1 hn)
  refine ⟨hs.next (by omega), ⟨w, leadState_packs hw⟩, ?_⟩
  rw [hs.bytesAt, mbrtowc]
  simp only [if_true, if_neg hlt, Bool.true_eq_false, if_false, if_neg hn, length_bytesAt]
  rw [show e + 1 - (s + 1) + 1 = e + 1 - s by omega]

lemma mbrtowc_pending (hst : st ≠ 0) (hs : Source mem b e (m + 1) s) :
    mbrtowc true (some (bytesAt mem s (e + 1 - s))) st =
    mbrtowcRest (e + 1 - s) st (bytesAt mem s (e + 1 - s)) := by
  have hle := hs.le_end
  rw [hs.bytesAt, mbrtowc]
  simp only [if_neg hst, length_bytesAt]
  rw [show e + 1 - (s + 1) + 1 = e + 1 - s by omega]

/-- The return is that for the characters that are read from `s` on, after those in `out`. -/
def Answers (mem : ℕ → UInt8) (b e : ℕ) (conv : List Word → Ended → Conv) (limit : Option ℕ) (s : ℕ)
    (st : Word)
    (out : List Word) (x : Option Conv) : Prop :=
  ∃ cs en, Runs mem b e limit s st cs en ∧ x = some (conv (out ++ cs) en)

variable {conv : List Word → Ended → Conv} {out : List Word} {x : Option Conv}

lemma Runs.answers (h : Runs mem b e limit s st [] en) :
    Answers mem b e conv limit s st out (some (conv out en)) := by
  refine ⟨[], en, h, ?_⟩
  rw [append_nil]

lemma Answers.char {s' : ℕ} {wc : Word} (hlimit : limit ≠ some 0) (hlt : s < s') (hle : s' ≤ b)
    (hm : mbrtowc true (some (bytesAt mem s (e + 1 - s))) st = ⟨s' - s, 0, some wc⟩)
    (h : Answers mem b e conv (limit.map (· - 1)) s' 0 (out ++ [wc]) x) :
    Answers mem b e conv limit s st out x := by
  obtain ⟨cs, en, hruns, hx⟩ := h
  refine ⟨wc :: cs, en, .char hlimit hlt hle hm hruns, ?_⟩
  rw [hx, append_assoc]
  rfl

lemma Answers.read {c : Word} {s1 s' : ℕ} {wc : Word} (hlimit : limit ≠ some 0) (hle : s ≤ s1)
    (hsame : SameRead mem b e m s1 c (.done wc s'))
    (hm : mbrtowc true (some (bytesAt mem s (e + 1 - s))) st =
      mbrtowcRest (e + 1 - s) c (bytesAt mem s1 (e + 1 - s1)))
    (h : Answers mem b e conv (limit.map (· - 1)) s' 0 (out ++ [wc]) x) :
    Answers mem b e conv limit s st out x := by
  obtain ⟨hlt, hs', hread⟩ := hsame
  have hbound := hs'.bound
  have hle' := hs'.le
  refine .char hlimit (by omega) hle' ?_ h
  rw [hm, hread, show e + 1 - s - (e + 1 - s') = s' - s by omega]

lemma Answers.ascii (hs : Source mem b e (m + 1) s) (hb : asciiByte (mem s) = true)
    (hlimit : limit ≠ some 0)
    (h : Answers mem b e conv (limit.map (· - 1)) (s + 1) 0 (out ++ [word (mem s)]) x) :
    Answers mem b e conv limit s 0 out x :=
  .char hlimit (lt_succ_self s) (mbrtowc_ascii hs hb).1.le (mbrtowc_ascii hs hb).2 h

section

variable (hs : Source mem b e (m + 4) s) (hw : asciiWord (load32 mem s) = true)

include hs hw

lemma Answers.asciiWord (hlimit : ∀ k < 4, limit ≠ some k)
    (h : Answers mem b e conv (limit.map (· - 4)) (s + 4) 0
      (out ++ [word (mem s), word (mem (s + 1)), word (mem (s + 2)), word (mem (s + 3))]) x) :
    Answers mem b e conv limit s 0 out x := by
  obtain ⟨b0, b1, b2, b3⟩ := asciiWord_bytes hw
  have hs1 := (mbrtowc_ascii hs b0).1
  have hs2 := (mbrtowc_ascii hs1 b1).1
  have hs3 := (mbrtowc_ascii hs2 b2).1
  have hpred : ∀ {l : Option ℕ} {k : ℕ}, (∀ i < k + 1, l ≠ some i) →
      l ≠ some 0 ∧ ∀ i < k, l.map (· - 1) ≠ some i := by
    intro l k hl
    refine ⟨hl 0 (succ_pos k), fun i hi heq => ?_⟩
    obtain ⟨n, rfl, rfl⟩ := map_eq_some_iff.1 heq
    exact hl n (by omega) rfl
  obtain ⟨h0, hl1⟩ := hpred hlimit
  obtain ⟨h1, hl2⟩ := hpred hl1
  obtain ⟨h2, hl3⟩ := hpred hl2
  refine .ascii hs b0 h0 (.ascii hs1 b1 h1 (.ascii hs2 b2 h2 (.ascii hs3 b3 (hpred hl3).1 ?_)))
  simp only [Option.map_map, append_assoc]
  exact h

lemma Source.asciiWord : Source mem b e m (s + 4) := by
  obtain ⟨b0, b1, b2, b3⟩ := asciiWord_bytes hw
  exact (mbrtowc_ascii (mbrtowc_ascii (mbrtowc_ascii (mbrtowc_ascii hs b0).1 b1).1 b2).1 b3).1

end

end Reference

/-! ### The loops -/

def storeConv (wn0 : Size) (out : List Word) : Ended → Conv
  | .full s => ⟨wn0.toNat, some s, out⟩
  | .null => ⟨(BitVec.ofNat 64 out.length).toNat, none, out ++ [0]⟩
  | .bad s => ⟨minus1, some s, out⟩

/-- The return of the counting loop after the characters `out`. -/
def countConv (s0 : ℕ) (out : List Word) : Ended → Conv
  | .full _ => ⟨(BitVec.ofNat 64 out.length).toNat, some s0, []⟩
  | .null => ⟨(BitVec.ofNat 64 out.length).toNat, some s0, []⟩
  | .bad _ => ⟨minus1, some s0, []⟩

/-- From `s` to `s'` a fast path has read characters, which are in `out'` with those before. -/
structure Skipped (mem : ℕ → UInt8) (b e : ℕ) (wn0 : Size) (limit : Option ℕ) (s : ℕ) (out : List Word)
    (limit' : Option ℕ) (s' : ℕ) (wn' : Size) (out' : List Word) : Prop where
  le : s ≤ s'
  left : wn' = wn0 - BitVec.ofNat 64 out'.length
  answers : ∀ conv x, Answers mem b e conv limit' s' 0 out' x → Answers mem b e conv limit s 0 out x

section Loops

variable {mem : ℕ → UInt8} {s b e fuel : ℕ} {wn wn0 : Size} {out : List Word} {limit : Option ℕ}

lemma Skipped.refl (hleft : wn = wn0 - BitVec.ofNat 64 out.length) :
    Skipped mem b e wn0 limit s out limit s wn out := ⟨le_rfl, hleft, fun _ _ h => h⟩

lemma limit_ne (h : wn ≠ 0) : some wn.toNat ≠ some 0 :=
  fun h0 => h (BitVec.eq_of_toNat_eq (some.inj h0))

lemma toNat_sub_one (h : wn ≠ 0) : (wn - 1).toNat = wn.toNat - 1 := by
  have hpos : wn.toNat ≠ 0 := fun h0 => h (BitVec.eq_of_toNat_eq h0)
  exact BitVec.toNat_sub_of_le (BitVec.le_def.2 (one_le_iff_ne_zero.2 hpos))

lemma limit_pred (h : wn ≠ 0) : (some wn.toNat).map (· - 1) = some (wn - 1).toNat := by
  rw [toNat_sub_one h]
  rfl

lemma left_append (h : wn = wn0 - BitVec.ofNat 64 out.length) (l : List Word) :
    wn - BitVec.ofNat 64 l.length = wn0 - BitVec.ofNat 64 (out ++ l).length := by
  rw [h, length_append, BitVec.ofNat_add]
  exact sub_sub _ _ _

section

variable (hs : Source mem b e (4 * wn.toNat) s)

include hs

section

variable (hwn : wn ≠ 0) (hfuel : e - s < fuel) (hleft : wn = wn0 - BitVec.ofNat 64 out.length)

include hwn hfuel hleft

/-- **The fast path of the storing loop** is that many single characters; it leaves room for one more. -/
theorem storeWords_skips :
    ∃ s' wn' out', storeWords mem fuel s wn out = some (s', wn', out') ∧
    Source mem b e (4 * wn'.toNat) s' ∧ wn' ≠ 0 ∧
      Skipped mem b e wn0 (some wn.toNat) s out (some wn'.toNat) s' wn' out' := by
  induction fuel generalizing s wn out with
  | zero => omega
  | succ fuel ih =>
    rw [storeWords]
    by_cases hcond : 5 ≤ wn ∧ asciiWord (load32 mem s) = true
    · rw [if_pos hcond]
      have hfive : 5 ≤ wn.toNat := BitVec.le_def.1 hcond.1
      have hsub : (wn - 4).toNat = wn.toNat - 4 :=
        BitVec.toNat_sub_of_le (BitVec.le_def.2 (le_of_succ_le hfive))
      have hne : wn - 4 ≠ 0 :=
        fun h0 => absurd (hsub.symm.trans (congrArg BitVec.toNat h0)) (sub_ne_zero_of_lt hfive)
      have hfour : Source mem b e (4 * (wn - 4).toNat + 4) s := hs.mono (by omega)
      have hs4 := hfour.asciiWord hcond.2
      have hend : s + 4 ≤ e := (hs4.mono (by omega : 0 + 1 ≤ _)).le_end
      have hleft4 :=
        left_append hleft [word (mem s), word (mem (s + 1)), word (mem (s + 2)), word (mem (s + 3))]
      obtain ⟨s', wn', out', heq, hs', hwn', hskip⟩ := ih hs4 hne (by omega) hleft4
      have hle := hskip.le
      refine ⟨s', wn', out', heq, hs', hwn', by omega, hskip.left, fun conv x hx => ?_⟩
      refine .asciiWord hfour hcond.2 (fun k hk heq => ?_) ?_
      · have := some.inj heq
        omega
      · rw [map_some, ← hsub]
        exact hskip.answers conv x hx
    · rw [if_neg hcond]
      exact ⟨s, wn, out, rfl, hs, hwn, .refl hleft⟩

lemma storeFast_skips :
    ∃ s' wn' out', storeFast mem fuel s wn out = some (s', wn', out') ∧
    Source mem b e (4 * wn'.toNat) s' ∧ wn' ≠ 0 ∧
      Skipped mem b e wn0 (some wn.toNat) s out (some wn'.toNat) s' wn' out' := by
  unfold storeFast
  split
  · exact storeWords_skips hs hwn hfuel hleft
  · exact ⟨s, wn, out, rfl, hs, hwn, .refl hleft⟩

end

/-- **The storing loop is the reference** from a character boundary on, on a string or where there
are four bytes for every character. -/
theorem storeLoop_answers (hfuel : e - s < fuel) (hleft : wn = wn0 - BitVec.ofNat 64 out.length) :
    Answers mem b e (storeConv wn0) (some wn.toNat) s 0 out (storeLoop mem wn0 fuel s wn out) := by
  induction fuel generalizing s wn out with
  | zero => omega
  | succ fuel ih =>
    rw [storeLoop]
    by_cases hzero : wn = 0
    · rw [hzero]
      exact Runs.full.answers
    rw [if_neg hzero]
    obtain ⟨s', wn', out', heq, hs', hwn', hskip⟩ := storeFast_skips hs hzero hfuel hleft
    rw [heq]
    simp only [bind_eq_bind, bind_some]
    refine hskip.answers _ _ ?_
    have hle := hskip.le
    have hlimit := limit_ne hwn'
    have hpos : wn'.toNat ≠ 0 := fun h0 => hlimit (congrArg some h0)
    have hsub := toNat_sub_one hwn'
    have hroom : Source mem b e (4 * (wn' - 1).toNat + 3 + 1) s' := hs'.mono (by omega)
    have hmore : ∀ wc s1, s' < s1 → Source mem b e (4 * (wn' - 1).toNat) s1 →
        Answers mem b e (storeConv wn0) ((some wn'.toNat).map (· - 1)) s1 0 (out' ++ [wc])
          (storeLoop mem wn0 fuel s1 (wn' - 1) (out' ++ [wc])) := by
      intro wc s1 hlt hs₁
      have hle1 := hs₁.le
      have hbound := hs₁.bound
      have hfuel1 : e - s1 < fuel := by
        rcases hroom.room with ⟨_, hb⟩ | hroom <;> omega
      rw [limit_pred hwn']
      exact ih hs₁ hfuel1 (left_append hskip.left [wc])
    by_cases ha : asciiByte (mem s') = true
    · rw [if_pos ha]
      exact .ascii hroom ha hlimit
        (hmore _ _ (lt_succ_self s') ((mbrtowc_ascii hroom ha).1.mono (by omega)))
    rw [if_neg ha]
    by_cases hn : notLead (mem s') = true
    · rw [if_pos hn]
      by_cases h0 : mem s' = 0
      · have hret : wn0 - wn' = BitVec.ofNat 64 out'.length := by rw [hskip.left, sub_sub_cancel]
        rw [storeEnd, if_pos ⟨rfl, h0⟩, hret]
        exact (runs_null hroom h0 hlimit).answers
      · rw [storeEnd, if_neg fun h => h0 h.2]
        exact (runs_notLead hroom ha hn h0 hlimit).answers
    rw [if_neg hn]
    obtain ⟨hs1, ⟨w, hw⟩, hm⟩ := mbrtowc_lead hroom hn
    have hsame := store1_same hs1 hw
    generalize store1 mem (leadState (mem s')) (s' + 1) = one at hsame
    cases one with
    | bad c s1 =>
      obtain ⟨hc, rfl, hread⟩ := hsame
      simp only [storeEnd, if_neg fun h : c = 0 ∧ _ => hc h.1]
      exact (Runs.bad hlimit (hm.trans (hread _))).answers
    | done wc s1 =>
      have hlt : s' + 1 < s1 := hsame.1
      exact .read hlimit (le_succ s') hsame hm (hmore wc s1 (by omega) hsame.2.1)

end

section

variable (hs : ∀ m, Source mem e e m s) (hfuel : e - s < fuel)
    (hleft : wn = wn0 - BitVec.ofNat 64 out.length)

include hs hfuel hleft

/-- **The fast path of the counting loop.** -/
theorem countWords_skips :
    ∃ s' wn' out', countWords mem fuel s wn = some (s', wn') ∧ (∀ m, Source mem e e m s') ∧
      Skipped mem e e wn0 none s out none s' wn' out' := by
  induction fuel generalizing s wn out with
  | zero => omega
  | succ fuel ih =>
    rw [countWords]
    by_cases hcond : asciiWord (load32 mem s) = true
    · rw [if_pos hcond]
      have hs4 : ∀ m, Source mem e e m (s + 4) := fun m => (hs (m + 4)).asciiWord hcond
      have hend := (hs4 0).le
      have hleft4 :=
        left_append hleft [word (mem s), word (mem (s + 1)), word (mem (s + 2)), word (mem (s + 3))]
      obtain ⟨s', wn', out', heq, hs', hskip⟩ := ih hs4 (by omega) hleft4
      have hle := hskip.le
      exact ⟨s', wn', out', heq, hs', by omega, hskip.left, fun conv x hx =>
        .asciiWord (hs (0 + 4)) hcond (fun _ _ => nofun) (hskip.answers conv x hx)⟩
    · rw [if_neg hcond]
      exact ⟨s, wn, out, rfl, hs, .refl hleft⟩

lemma countFast_skips :
    ∃ s' wn' out', countFast mem fuel s wn = some (s', wn') ∧ (∀ m, Source mem e e m s') ∧
      Skipped mem e e wn0 none s out none s' wn' out' := by
  unfold countFast
  split
  · exact countWords_skips hs hfuel hleft
  · exact ⟨s, wn, out, rfl, hs, .refl hleft⟩

end

/-- **The counting loop is the reference** from a character boundary of a string on. -/
theorem countLoop_answers (s0 : ℕ) (hs : ∀ m, Source mem e e m s) (hfuel : e - s < fuel)
    (hleft : wn = wn0 - BitVec.ofNat 64 out.length) :
    Answers mem e e (countConv s0) none s 0 out (countLoop mem wn0 s0 fuel s wn) := by
  induction fuel generalizing s wn out with
  | zero => omega
  | succ fuel ih =>
    have hno : none ≠ some 0 := nofun
    rw [countLoop]
    obtain ⟨s', wn', out', heq, hs', hskip⟩ := countFast_skips hs hfuel hleft
    rw [heq]
    simp only [bind_eq_bind, bind_some]
    refine hskip.answers _ _ ?_
    have hle := hskip.le
    have hmore : ∀ wc s1, s' < s1 → (∀ m, Source mem e e m s1) →
        Answers mem e e (countConv s0) none s1 0 (out' ++ [wc])
        (countLoop mem wn0 s0 fuel s1 (wn' - 1)) := by
      intro wc s1 hlt hs1
      have hle1 := (hs1 0).le
      exact ih hs1 (by omega) (left_append hskip.left [wc])
    by_cases ha : asciiByte (mem s') = true
    · rw [if_pos ha]
      exact .ascii (hs' 1) ha hno (hmore _ _ (lt_succ_self s') fun m =>
        (mbrtowc_ascii (hs' (m + 1)) ha).1)
    rw [if_neg ha]
    by_cases hn : notLead (mem s') = true
    · rw [if_pos hn]
      by_cases h0 : mem s' = 0
      · rw [countEnd, if_pos ⟨rfl, h0⟩, hskip.left, sub_sub_cancel]
        exact (runs_null (hs' 1) h0 hno).answers
      · rw [countEnd, if_neg fun h => h0 h.2]
        exact (runs_notLead (hs' 1) ha hn h0 hno).answers
    rw [if_neg hn]
    obtain ⟨-, ⟨w, hw⟩, hm⟩ := mbrtowc_lead (hs' 1) hn
    have hsame := fun m => store1_same (mbrtowc_lead (hs' (m + 3 + 1)) hn).1 hw
    rcases count1_same mem (s' + 1) hw with ⟨wc, s1, hst, hct⟩ | ⟨c1, s1, hst, hct⟩
    · rw [hst] at hsame
      have hlt : s' + 1 < s1 := (hsame 0).1
      simp only [hct]
      exact .read hno (le_succ s') (hsame 0) hm (hmore wc s1 (by omega) fun m => (hsame m).2.1)
    · rw [hst] at hsame
      simp only [hct, countEnd, if_neg fun h : leadState (mem s') = 0 ∧ _ => hw.ne_zero h.1]
      exact (Runs.bad hno (hm.trans ((hsame 0).2.2 _))).answers

end Loops

section Function

variable {mem : ℕ → UInt8} {s b e fuel : ℕ} {wn : Size} {st : Word} {pre : List UInt8}
    {cs : List Word} {en : Ended} {w : Window}

lemma storeConv_eq (h : Runs mem b e (some wn.toNat) s st cs en) (hlen : cs.length < 2 ^ 64) :
    storeConv wn cs en = refConv true s (cs, en) := by
  cases en with
  | full a =>
    have hfull := some.inj h.limit_eq
    unfold storeConv refConv
    simp [hfull]
  | null =>
    unfold storeConv refConv
    simp only [BitVec.toNat_ofNat, mod_eq_of_lt hlen, if_true]
  | bad a => rfl

lemma countConv_eq (h : Runs mem b e none s st cs en) (hlen : cs.length < 2 ^ 64) :
    countConv s cs en = refConv false s (cs, en) := by
  cases en with
  | full a => cases h.limit_eq
  | null =>
    unfold countConv refConv
    simp only [BitVec.toNat_ofNat, mod_eq_of_lt hlen, Bool.false_eq_true, if_false]
  | bad a => rfl

lemma mbsrtowcs_initial (wn : Size) (hs : Source mem b e (4 * wn.toNat) s) (hfuel : e - s < fuel) :
    ∃ cs en, Runs mem b e (some wn.toNat) s 0 cs en ∧
      mbsrtowcs mem fuel true true s wn 0 = some (storeConv wn cs en, 0) := by
  have hstore : Answers mem b e (storeConv wn) (some wn.toNat) s 0 [] (storeLoop mem wn fuel s wn []) :=
    storeLoop_answers hs hfuel (sub_zero wn).symm
  obtain ⟨cs, en, hruns, hloop⟩ := hstore
  refine ⟨cs, en, hruns, ?_⟩
  unfold mbsrtowcs
  simp only [ne_eq, hloop]
  rfl

lemma mbsrtowcs_resumed (wn : Size) {wc : Word} {s' : ℕ} (hs : Source mem b e (4 * (wn - 1).toNat + 3) s)
    (hc : Packs st w) (hone : store1 mem st s = .done wc s') (hfuel : e - s < fuel) :
    ∃ cs en, mbsrtowcs mem fuel true true s wn st = some (storeConv wn (wc :: cs) en, 0) ∧
    cs.length + s < b ∧
      (wn ≠ 0 → Runs mem b e (some wn.toNat) s st (wc :: cs) en) := by
  have hsame := store1_same hs hc
  rw [hone] at hsame
  obtain ⟨hlt, hs', hread⟩ := hsame
  have hbound := hs'.bound
  have hle := hs'.le
  have hstore : Answers mem b e (storeConv wn) (some (wn - 1).toNat) s' 0 [wc]
    (storeLoop mem wn fuel s' (wn - 1) [wc]) :=
    storeLoop_answers hs' (by omega) rfl
  obtain ⟨cs, en, hruns, hloop⟩ := hstore
  have hlen := hruns.length_le hle
  refine ⟨cs, en, ?_, by omega, fun hwn => .char (limit_ne hwn) hlt hle ?_ (by rwa [limit_pred hwn])⟩
  · unfold mbsrtowcs
    simp only [ne_eq, hc.ne_zero, hone, hloop]
    rfl
  · rw [mbrtowc_pending hc.ne_zero (hs.mono (by omega : 0 + 1 ≤ _)), hread,
      show e + 1 - s - (e + 1 - s') = s' - s by omega]

lemma mbsrtowcs_dropped (fuel : ℕ) (wn : Size) {c1 : Word} {s1 : ℕ} (hs : Source mem b e (0 + 3) s)
    (hc : Packs st w) (hone : store1 mem st s = .bad c1 s1) :
    mbsrtowcs mem fuel true true s wn st = some (⟨minus1, some (s - 1), []⟩, 0) ∧
      (wn ≠ 0 → Runs mem b e (some wn.toNat) s st [] (.bad s)) := by
  have hsame := store1_same hs hc
  rw [hone] at hsame
  obtain ⟨hc1, rfl, hread⟩ := hsame
  constructor
  · unfold mbsrtowcs
    simp only [ne_eq, hc.ne_zero, not_false_eq_true, if_true, hone, storeEnd, hc1, false_and, if_false]
  · intro hwn
    exact .bad (limit_ne hwn) ((mbrtowc_pending hc.ne_zero hs).trans (hread _))

lemma mbsrtowcs_counts (wn : Size) (hs : ∀ m, Source mem e e m s) (hst : StateOf st pre)
    (hfuel : e - s < fuel) :
    ∃ cs en, Runs mem e e none s st cs en ∧ mbsrtowcs mem fuel true false s wn st =
    some (countConv s cs en, st) := by
  have hno : none ≠ some 0 := nofun
  unfold mbsrtowcs
  rcases hst with ⟨rfl, _⟩ | ⟨w, _, hc⟩
  · have hcount : Answers mem e e (countConv s) none s 0 [] (countLoop mem wn s fuel s wn) :=
      countLoop_answers s hs hfuel (sub_zero wn).symm
    obtain ⟨cs, en, hruns, hloop⟩ := hcount
    refine ⟨cs, en, hruns, ?_⟩
    simp only [ne_eq, hloop]
    rfl
  · have hsame := fun m => store1_same (hs (m + 3)) hc
    have hm := mbrtowc_pending hc.ne_zero (hs 1)
    simp only [ne_eq, hc.ne_zero]
    rcases count1_same mem s hc with ⟨wc, s1, hone, hct⟩ | ⟨c1, s1, hone, hct⟩
    · rw [hone] at hsame
      have hlt : s < s1 := (hsame 0).1
      have hloop : Answers mem e e (countConv s) none s1 0 ([] ++ [wc])
        (countLoop mem wn s fuel s1 (wn - 1)) :=
        countLoop_answers s (fun m => (hsame m).2.1) (by omega) rfl
      obtain ⟨cs, en, hruns, heq⟩ := Answers.read hno le_rfl (hsame 0) hm hloop
      refine ⟨cs, en, hruns, ?_⟩
      simp only [hct, heq]
      rfl
    · rw [hone] at hsame
      refine ⟨[], .bad s, .bad hno (hm.trans ((hsame 0).2.2 _)), ?_⟩
      simp only [hct, countEnd, hc.ne_zero]
      rfl

/-- The bytes at `s` complete the character whose first bytes are `pre`. -/
def Completes (mem : ℕ → UInt8) (e : ℕ) (pre : List UInt8) (s : ℕ) : Prop :=
  ∃ (c : Char) (k : ℕ), s + k ≤ e ∧ utf8EncodeChar c = pre ++ bytesAt mem s k

lemma completes_iff (hw : w.Describes pre) (hc : Packs st w) (hs : Source mem b e (0 + 3) s) :
    Completes mem b pre s ↔ ∃ wc s', store1 mem st s = .done wc s' := by
  have hbound := hs.bound
  have hsame := store1_same hs hc
  have hread := mbrtowc_reads (.inr ⟨w, hw, hc⟩) (bytesAt mem s (e + 1 - s))
  rw [mbrtowc_pending hc.ne_zero hs] at hread
  constructor
  · rintro ⟨c, k, hk, henc⟩
    have heq := hread.eq_char (k := k) (by rw [length_bytesAt]; omega)
      (by rw [take_bytesAt mem (by omega)]; exact henc)
    cases hone : store1 mem st s with
    | done wc s' => exact ⟨wc, s', rfl⟩
    | bad c' s' =>
      rw [hone] at hsame
      rw [hsame.2.2] at heq
      cases congrArg Mbr.wc heq
  · rintro ⟨wc, s', hone⟩
    rw [hone] at hsame
    obtain ⟨hlt, hs', hrest⟩ := hsame
    have hle' := hs'.le
    have hret : e + 1 - s - (e + 1 - s') = s' - s := by omega
    rw [hrest, hret] at hread
    have hexact := hread.exact
    obtain ⟨c, rfl⟩ := hread.stored rfl
    obtain ⟨_, _, henc⟩ := (hexact.char c (s' - s)).1 ⟨rfl, by
      unfold consumed
      rw [if_neg (by simp only; omega)]⟩
    refine ⟨c, s' - s, by omega, ?_⟩
    rwa [take_bytesAt mem (by omega)] at henc

/-- **When `mbsrtowcs` is iterated `mbrtowc`.**

For every string, every destination or none and every state of an incomplete character `pre`, the
function and the reference both return.  They return the same, and `*src` is not before `s`, exactly
when no character is pending, or nothing is stored, or there is room for a character and the bytes at
`s` complete the pending one. -/
theorem mbsrtowcs_iff (mem : ℕ → UInt8) (s e : ℕ) (hs : StringAt mem s e) (hpos : 0 < s)
    (he : e < 2 ^ 64 - 2) (ws : Bool) (wn : Size) (st : Word) (pre : List UInt8) (hst : StateOf st pre)
    (fuel : ℕ) (hfuel : e - s < fuel) :
    ∃ conv st' r, mbsrtowcs mem fuel true ws s wn st = some (conv, st') ∧
      iterate mem e fuel (if ws then some wn.toNat else none) s st = some r ∧
      ((conv = refConv ws s r ∧ ∀ a, conv.src = some a → s ≤ a) ↔
        (st = 0 ∨ ws = false ∨ (wn ≠ 0 ∧ Completes mem e pre s))) := by
  have hle := hs.le
  -- where the two agree, the reference also bounds `*src`
  have hagree : ∀ {cs en}, Runs mem e e (if ws then some wn.toNat else none) s st cs en →
      iterate mem e fuel (if ws then some wn.toNat else none) s st = some (cs, en) ∧
        ∀ a, (refConv ws s (cs, en)).src = some a → s ≤ a := by
    intro cs en hr
    have hlen := hr.length_le hle
    refine ⟨hr.iterate_eq he (by omega), fun a ha => ?_⟩
    cases en with
    | full a' =>
      cases ha
      exact hr.le_end (.inl rfl)
    | null =>
      cases ws <;> cases ha
      exact le_rfl
    | bad a' =>
      cases ws <;> cases ha
      · exact le_rfl
      · exact hr.le_end (.inr rfl)
  cases ws with
  | false =>
    obtain ⟨cs, en, hr, hm⟩ := mbsrtowcs_counts wn hs.source hst hfuel
    have hlen := hr.length_le hle
    rw [countConv_eq hr (by omega)] at hm
    exact ⟨_, _, _, hm, (hagree hr).1, iff_of_true ⟨rfl, (hagree hr).2⟩ (.inr (.inl rfl))⟩
  | true =>
    rcases hst with ⟨rfl, rfl⟩ | ⟨w, hw, hc⟩
    · obtain ⟨cs, en, hr, hm⟩ := mbsrtowcs_initial wn (hs.source _) hfuel
      have hlen := hr.length_le hle
      rw [storeConv_eq hr (by omega)] at hm
      exact ⟨_, _, _, hm, (hagree hr).1, iff_of_true ⟨rfl, (hagree hr).2⟩ (.inl rfl)⟩
    have hcond : ¬(wn ≠ 0 ∧ Completes mem e pre s) →
        ¬(st = 0 ∨ true = false ∨ (wn ≠ 0 ∧ Completes mem e pre s)) := by
      rintro hno (h | h | h)
      · exact hc.ne_zero h
      · cases h
      · exact hno h
    cases hone : store1 mem st s with
    | done wc s1 =>
      have hcomp := (completes_iff hw hc (hs.source _)).2 ⟨wc, s1, hone⟩
      obtain ⟨cs, en, hm, hlen, hr⟩ := mbsrtowcs_resumed wn (hs.source _) hc hone hfuel
      by_cases hwn : wn = 0
      · -- nothing may be stored, and the character is
        refine ⟨_, 0, ([], .full s), hm, ?_, iff_of_false ?_ (hcond fun h => h.1 hwn)⟩
        · rw [hwn]
          exact (Runs.full).iterate_eq he (zero_lt_of_lt hfuel)
        · rintro ⟨hconv, _⟩
          have hout := congrArg Conv.out hconv
          cases en <;> cases hout
      · have hr := hr hwn
        rw [storeConv_eq hr (by rw [length_cons]; omega)] at hm
        exact ⟨_, _, _, hm, (hagree hr).1, iff_of_true ⟨rfl, (hagree hr).2⟩ (.inr (.inr ⟨hwn, hcomp⟩))⟩
    | bad c1 s1 =>
      obtain ⟨hm, hr⟩ := mbsrtowcs_dropped fuel wn (hs.source _) hc hone
      have hnot : ¬Completes mem e pre s := by
        intro hcomp
        obtain ⟨wc, s', hdone⟩ := (completes_iff hw hc (hs.source _)).1 hcomp
        rw [hone] at hdone
        cases hdone
      have hpos := zero_lt_of_lt hfuel
      obtain ⟨r, hr⟩ : ∃ r, iterate mem e fuel (some wn.toNat) s st = some r := by
        by_cases hwn : wn = 0
        · rw [hwn]
          exact ⟨_, (Runs.full).iterate_eq he hpos⟩
        · exact ⟨_, (hr hwn).iterate_eq he hpos⟩
      refine ⟨_, 0, r, hm, hr, iff_of_false ?_ (hcond fun h => hnot h.2)⟩
      rintro ⟨_, hsrc⟩
      have := hsrc (s - 1) rfl
      omega

end Function

/-- A memory with the bytes `l` at 4096. -/
def memWith (l : List UInt8) (a : ℕ) : UInt8 := if a < 4096 then 0 else l.getD (a - 4096) 0

/-- U+20AC and `a`, the first byte of the former having been read by an earlier call. -/
theorem mbsrtowcs_iff_euro :
    let mem := memWith [0x82, 0xac, 0x61]
    let st := (mbrtowc true (some [0xe2]) 0).st
    StringAt mem 4096 4099 ∧ StateOf st [0xe2] ∧
      mbsrtowcs mem 4 true true 4096 8 st = some (⟨2, none, [0x20ac, 0x61, 0]⟩, 0) ∧
      ∃ conv st' r, mbsrtowcs mem 4 true true 4096 8 st = some (conv, st') ∧
        iterate mem 4099 4 (if true then some (8 : Size).toNat else none) 4096 st = some r ∧
        ((conv = refConv true 4096 r ∧ ∀ a, conv.src = some a → 4096 ≤ a) ↔
          (st = 0 ∨ true = false ∨ ((8 : Size) ≠ 0 ∧ Completes mem 4099 [0xe2] 4096))) := by
  have hs : StringAt (memWith [0x82, 0xac, 0x61]) 4096 4099 := by
    refine ⟨by decide, by decide, fun a h1 h2 => ?_⟩
    obtain rfl | rfl | rfl : a = 4096 ∨ a = 4097 ∨ a = 4098 := by omega
    all_goals decide
  have hst : StateOf (leadState 0xe2) [0xe2] :=
    .inr ⟨⟨1, 2, 128, 191⟩, leadWindow_describes (by decide), leadState_packs (by decide)⟩
  exact ⟨hs, hst, by decide +kernel,
    mbsrtowcs_iff _ 4096 4099 hs (by decide) (by decide) true 8 (leadState 0xe2) [0xe2] hst 4 (by decide)⟩

/-- After the first byte of U+20AC, a source that does not go on with a continuation byte sets `*src` one
byte before it; and a source that does is stored, null character included, in a destination of no
characters. -/
theorem mbsrtowcs_leaves_source :
    let st := (mbrtowc true (some [0xe2]) 0).st
    StateOf st [0xe2] ∧
      mbsrtowcs (memWith [0x61]) 2 true true 4096 8 st = some (⟨minus1, some 4095, []⟩, 0) ∧
      iterate (memWith [0x61]) 4097 2 (some 8) 4096 st = some ([], .bad 4096) ∧
      mbsrtowcs (memWith [0x82, 0xac, 0x61]) 4 true true 4096 0 st =
        some (⟨2, none, [0x20ac, 0x61, 0]⟩, 0) ∧
      iterate (memWith [0x82, 0xac, 0x61]) 4099 4 (some 0) 4096 st = some ([], .full 4096) := by
  have hst : StateOf (leadState 0xe2) [0xe2] :=
    .inr ⟨⟨1, 2, 128, 191⟩, leadWindow_describes (by decide), leadState_packs (by decide)⟩
  refine ⟨hst, ?_, ?_, ?_, ?_⟩ <;> decide +kernel

end Musl.Multibyte
