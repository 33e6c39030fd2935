import Mathlib.Data.List.TakeWhile
import Musl.Network.InetNtop

/-!
# Networks as text

`inet_net_ntop` prints an address and a prefix length, and `inet_net_pton` reads them and clears the
bits of the address after the prefix.
-/

namespace Musl.Network

open Musl.Lib.Numeral List Option Nat Function

/-! ### The code -/

def Family.size : Family → ℕ
  | .inet => 4
  | .inet6 => 16
  | .other => 0

def Family.maxBits : Family → ℤ
  | .inet => 32
  | .inet6 => 128
  | .other => -1

/-- `INET_ADDRSTRLEN` and `INET6_ADDRSTRLEN` -/
def Family.strLen : Family → ℕ
  | .inet => 16
  | .inet6 => 46
  | .other => 0

/-- All ones of a machine word, shifted so that the highest `bits` are left, or 0 for no bits. -/
def prefixMask (width bits : ℕ) : ℕ :=
  if bits = 0 then 0 else ((2 ^ width - 1) <<< (width - bits)) % 2 ^ width

/-- `bits == 0 ? 0 : 0xffffffffu << (32 - bits)` -/
def mask32 (bits : ℕ) : ℕ := prefixMask 32 bits

/-- `rem_bits ? (0xFF << (8 - rem_bits)) : 0x00`, cut to a byte. -/
def mask8 (rem : ℕ) : ℕ := prefixMask 8 rem

/-- `apply_mask`; for IPv4 `htonl` brings the mask into the byte order of the address. -/
def applyMask (af : Family) (bits : ℕ) (a : ℕ → UInt8) : ℕ → UInt8 :=
  match af with
  | .inet =>
    fun k => if k < 4 then UInt8.ofNat ((a k).toNat &&& (mask32 bits >>> (8 * (3 - k))) % 2 ^ 8)
      else a k
  | .inet6 => fun k =>
    if 16 ≤ k ∨ k < bits / 8 then a k
    else if k = bits / 8 then UInt8.ofNat ((a k).toNat &&& mask8 (bits % 8))
    else 0
  | .other => a

def isspace (c : Char) : Bool := c = ' ' ∨ (9 ≤ c.toNat ∧ c.toNat < 14)

/-- The sign of a number: whether there is a minus, and what follows. -/
def signOf : List Char → Bool × List Char
  | '-' :: s => (true, s)
  | '+' :: s => (false, s)
  | s => (false, s)

/-- `strtol` with base 10: the number, and the text from `endp` on. -/
def strtol (s : List Char) : ℤ × List Char :=
  let t := signOf (s.dropWhile isspace)
  let r := scan decval 10 t.2.length 0 t.2
  if r.2 = 0 then (0, s)
  else (if t.1 then max (-r.1) (-2 ^ 63) else min r.1 (2 ^ 63 - 1), t.2.drop r.2)

/-- `inet_net_pton`, with pointers that are not null. -/
def inetNetPton (af : Family) (src : List Char) (a : ℕ → UInt8) (size : ℕ) : ℤ × (ℕ → UInt8) :=
  let buf := src.take 127
  let slash := buf.dropWhile (· ≠ '/')
  let val := strtol slash.tail
  if af = .other then (-1, a)
  else if slash ≠ [] ∧ (val.2 ≠ [] ∨ val.1 < 0 ∨ af.maxBits < val.1) then (-1, a)
  else
    let bits := if slash = [] then af.maxBits else val.1
    let r := inetPton af (buf.takeWhile (· ≠ '/')) a
    if r.1 ≠ 1 then (-1, r.2)
    else if size < af.size then (-1, r.2)
    else (bits, applyMask af bits.toNat r.2)

/-- `inet_net_ntop`, with pointers that are not null. -/
def inetNetNtop (af : Family) (src : ℕ → UInt8) (bits : ℤ) (size : ℕ) : Option (List Char) :=
  match inetNtop af src 46 with
  | none => none
  | some addrbuf =>
    if bits < 0 ∨ af.maxBits < bits then none
    else
      let dst := addrbuf ++ '/' :: decText bits.toNat
      if size ≤ dst.length then none else some dst

/-! ### The mask -/

/-- Bit `k` of an address, from the highest bit of the first byte on. -/
def bitAt (a : ℕ → UInt8) (k : ℕ) : Bool := (a (k / 8)).toNat.testBit (7 - k % 8)

variable {bits j n k : ℕ} {af : Family}

lemma testBit_prefixMask {width : ℕ} (hbits : bits ≤ width) (hj : j < width) :
    (prefixMask width bits).testBit j = decide (width ≤ j + bits) := by
  rw [prefixMask]
  split_ifs with hzero
  · rw [zero_testBit, eq_comm, decide_eq_false_iff_not]
    omega
  · rw [testBit_mod_two_pow, testBit_shiftLeft, testBit_two_pow_sub_one, decide_eq_true hj,
      decide_eq_true (show j - (width - bits) < width by omega), Bool.and_true]
    exact decide_eq_decide.2 (by omega)

lemma testBit_toNat_ofNat (hj : j < 8) : (UInt8.ofNat n).toNat.testBit j = n.testBit j := by
  rw [UInt8.toNat_ofNat', testBit_mod_two_pow, decide_eq_true hj, Bool.true_and]

lemma bitAt_applyMask_inet (hbits : bits ≤ 32) (hk : k < 32) (a : ℕ → UInt8) :
    bitAt (applyMask .inet bits a) k = (decide (k < bits) && bitAt a k) := by
  have hbyte : k / 8 < 4 := by omega
  have hbit : 7 - k % 8 < 8 := by omega
  have hmask : (mask32 bits).testBit (8 * (3 - k / 8) + (7 - k % 8)) = decide (k < bits) := by
    rw [mask32, testBit_prefixMask hbits (by omega)]
    exact decide_eq_decide.2 (by omega)
  simp only [bitAt, applyMask, if_pos hbyte]
  rw [testBit_toNat_ofNat hbit, testBit_and, testBit_mod_two_pow, decide_eq_true hbit, Bool.true_and,
    testBit_shiftRight, hmask, Bool.and_comm]

lemma bitAt_applyMask_inet6 (hk : k < 128) (a : ℕ → UInt8) :
    bitAt (applyMask .inet6 bits a) k = (decide (k < bits) && bitAt a k) := by
  have hbit : 7 - k % 8 < 8 := by omega
  have hrange : ¬16 ≤ k / 8 := by omega
  simp only [bitAt, applyMask]
  split_ifs with hkeep hedge
  · rw [decide_eq_true (by omega), Bool.true_and]
  · -- The byte in which the prefix ends.
    have hmask : (mask8 (bits % 8)).testBit (7 - k % 8) = decide (k < bits) := by
      rw [mask8, testBit_prefixMask (by omega) hbit]
      exact decide_eq_decide.2 (by omega)
    rw [testBit_toNat_ofNat hbit, testBit_and, hmask, Bool.and_comm]
  · rw [decide_eq_false (by omega)]
    exact zero_testBit _

/-! ### The prefix length -/

lemma isspace_xdigit : ∀ d < 10, isspace (xdigit d) = false := by decide

lemma signOf_xdigit {d : ℕ} (hd : d < 10) (s : List Char) :
    signOf (xdigit d :: s) = (false, xdigit d :: s) := by
  interval_cases d <;> rfl

lemma strtol_decText (hn : n < 2 ^ 63) : strtol (decText n) = ((n : ℤ), []) := by
  obtain ⟨d, ds, hcons⟩ := exists_cons_of_ne_nil (numeral_ne_nil 10 n)
  have hlt : d < 10 := lt_of_mem_numeral (by decide) (by rw [hcons]; exact mem_cons_self)
  have htext : decText n = xdigit d :: ds.map xdigit := by rw [decText, text, hcons, map_cons]
  have hsign : signOf ((decText n).dropWhile isspace) = (false, decText n) := by
    rw [htext, dropWhile_cons_of_neg (by simp [isspace_xdigit d hlt]), signOf_xdigit hlt]
  have hdigits : ∀ d ∈ numeral 10 n, decval (xdigit d) = some d :=
    fun d hd => decval_xdigit d (lt_of_mem_numeral (by decide) hd)
  have hscan : scan decval 10 (decText n).length 0 (decText n) = (n, (decText n).length) := by
    have h := scan_append (b := 10) (v := 0) (digits_map hdigits) le_rfl (.inr stops_nil)
    rwa [append_nil, value_numeral] at h
  have hne : (decText n).length ≠ 0 := by rw [htext]; exact succ_ne_zero _
  have hmin : min (n : ℤ) (2 ^ 63 - 1) = n := by omega
  simp only [strtol, hsign, hscan, if_neg hne, Bool.false_eq_true, if_false, hmin, drop_length]

/-! ### The text of an address -/

/-- What `inet_ntop` prints. -/
def addrText (af : Family) (a : ℕ → UInt8) : List Char :=
  match af with
  | .inet => dotted a
  | .inet6 => compress (fullText a)
  | .other => []

lemma inetNtop_eq (haf : af ≠ .other) (a : ℕ → UInt8) (l : ℕ) :
    inetNtop af a l = if (addrText af a).length < l then some (addrText af a) else none := by
  cases af with
  | inet => rfl
  | inet6 => rfl
  | other => exact absurd rfl haf

lemma length_addrText_lt (haf : af ≠ .other) (a : ℕ → UInt8) : (addrText af a).length < af.strLen := by
  cases af with
  | inet => exact lt_succ_of_le (length_dotted_le a)
  | inet6 => exact lt_succ_of_le ((length_compress_le _).trans (length_fullText_le a))
  | other => exact absurd rfl haf

lemma inetPton_addrText (haf : af ≠ .other) (a m : ℕ → UInt8) :
    (inetPton af (addrText af a) m).1 = 1 ∧ ∀ k < af.size, (inetPton af (addrText af a) m).2 k = a k := by
  cases af with
  | inet =>
    simp only [addrText, inetPton_dotted, true_and]
    exact fun k hk => if_pos hk
  | inet6 => exact inetPton_compress a m
  | other => exact absurd rfl haf

lemma xdigit_ne_slash : ∀ d < 16, xdigit d ≠ '/' := by decide

lemma slash_notMem_text {b : ℕ} (hb : 1 < b) (hb16 : b ≤ 16) (n : ℕ) : '/' ∉ text xdigit b n := by
  intro hmem
  obtain ⟨d, hd, heq⟩ := mem_map.1 hmem
  have hlt := lt_of_mem_numeral hb hd
  exact xdigit_ne_slash d (by omega) heq

lemma slash_notMem_dotted (a : ℕ → UInt8) : '/' ∉ dotted a := by
  have hdec : ∀ n, '/' ∉ decText n := slash_notMem_text (by decide) (by decide)
  simp [dotted, hdec]

lemma IsGroup.slash_notMem {t : List Char} {g : ℕ} (h : IsGroup t g) : '/' ∉ t := by
  obtain ⟨ds, hds, -⟩ := h.forall₂
  have hall := ((forall₂_and_left _ _).1 (hds.imp fun c d hc => ⟨isSome_of_eq_some hc, hc⟩)).1
  exact fun hmem => absurd (hall '/' hmem) (by decide)

lemma IsGroups.text {ts : List (List Char)} {gs : List ℕ} (h : IsGroups ts gs) :
    '/' ∉ join ts ∧ (join ts).length ≤ 5 * gs.length + 5 := by
  induction h with
  | nil => exact ⟨not_mem_nil, zero_le _⟩
  | dotted b => exact ⟨slash_notMem_dotted b, length_dotted_le b⟩
  | @cons t g ts gs h _ ih =>
    have hlen := h.2.1
    by_cases hts : ts = []
    · rw [hts, join]
      exact ⟨h.slash_notMem, by omega⟩
    · rw [join_cons t hts, length_append, length_cons, length_cons, mem_append, mem_cons, not_or, not_or]
      exact ⟨⟨h.slash_notMem, by decide, ih.1⟩, by omega⟩

lemma IsAddress.text {s : List Char} {gs : List ℕ} (h : IsAddress s gs) : '/' ∉ s ∧ s.length ≤ 47 := by
  cases h with
  | full h hlen =>
    have htext := h.text
    exact ⟨htext.1, by omega⟩
  | gap hpre hpost hlen =>
    obtain ⟨hno, hle⟩ := (isGroups_of_forall₂ hpre).text
    obtain ⟨hno', hle'⟩ := hpost.text
    rw [mem_append, mem_cons, mem_cons, length_append, length_cons, length_cons]
    refine ⟨?_, by omega⟩
    rintro (hmem | hcolon | hcolon | hmem)
    · exact hno hmem
    · exact absurd hcolon (by decide)
    · exact absurd hcolon (by decide)
    · exact hno' hmem

lemma inetPton_text {s : List Char} {a : ℕ → UInt8} (h : (inetPton af s a).1 = 1) :
    '/' ∉ s ∧ s.length ≤ 47 ∧ ∀ m, (inetPton af s m).1 = 1 := by
  have hpos : 0 < (inetPton af s a).1 := by rw [h]; decide
  cases af with
  | inet =>
    obtain ⟨b, rfl⟩ := exists_dotted hpos
    exact ⟨slash_notMem_dotted b, (length_dotted_le b).trans (by decide),
      fun m => by rw [inetPton_dotted]⟩
  | inet6 =>
    obtain ⟨gs, hs⟩ := isAddress_of_inetPton hpos
    exact ⟨hs.text.1, hs.text.2, fun m => by rw [inetPton_of_isAddress hs]⟩
  | other => cases h

lemma slash_notMem_addrText (haf : af ≠ .other) (a : ℕ → UInt8) : '/' ∉ addrText af a :=
  (inetPton_text (inetPton_addrText haf a a).1).1

/-! ### Networks -/

lemma inetNetNtop_eq (haf : af ≠ .other) (a : ℕ → UInt8) (hbits : (bits : ℤ) ≤ af.maxBits) (size : ℕ) :
    inetNetNtop af a bits size = if size ≤ (addrText af a ++ '/' :: decText bits).length then none
      else some (addrText af a ++ '/' :: decText bits) := by
  have hlength := length_addrText_lt haf a
  have hfits : (addrText af a).length < 46 := by
    cases af with
    | inet => exact hlength.trans (by decide)
    | inet6 => exact hlength
    | other => exact absurd rfl haf
  have hrange : ¬((bits : ℤ) < 0 ∨ af.maxBits < bits) := by omega
  simp [inetNetNtop, inetNtop_eq haf, if_pos hfits, if_neg hrange]

lemma length_decText_bits (hbits : (bits : ℤ) ≤ af.maxBits) : (decText bits).length ≤ 3 := by
  have hmax : af.maxBits ≤ 128 := by cases af <;> decide
  exact length_text_le (by decide) (by decide) (by omega)

lemma split_slash {s t : List Char} (hs : '/' ∉ s) :
    (s ++ '/' :: t).takeWhile (· ≠ '/') = s ∧ (s ++ '/' :: t).dropWhile (· ≠ '/') = '/' :: t := by
  have hall : ∀ c ∈ s, decide (c ≠ '/') = true := fun c hc => decide_eq_true fun heq => hs (heq ▸ hc)
  constructor
  · rw [takeWhile_append_of_pos hall]
    simp
  · rw [dropWhile_append_of_pos hall]
    simp

lemma inetNetPton_eq (haf : af ≠ .other) (a m : ℕ → UInt8) (hbits : (bits : ℤ) ≤ af.maxBits)
    (hn : af.size ≤ n) :
    inetNetPton af (addrText af a ++ '/' :: decText bits) m n =
      ((bits : ℤ), applyMask af bits (inetPton af (addrText af a) m).2) := by
  have hlength := length_addrText_lt haf a
  have hdec := length_decText_bits hbits
  have hstr : af.strLen ≤ 46 := by cases af <;> decide
  have hmax : af.maxBits ≤ 128 := by cases af <;> decide
  have htake : (addrText af a ++ '/' :: decText bits).take 127 = addrText af a ++
      '/' :: decText bits := by
    apply take_of_length_le
    rw [length_append, length_cons]
    omega
  obtain ⟨hbefore, hafter⟩ := split_slash (t := decText bits) (slash_notMem_addrText haf a)
  have hbits63 : bits < 2 ^ 63 := by omega
  have hok : ¬('/' :: decText bits ≠ [] ∧
      ((([] : List Char) ≠ []) ∨ (bits : ℤ) < 0 ∨ af.maxBits < bits)) := by
    intro hbad
    rcases hbad.2 with hnil | hneg | hlarge
    · exact hnil rfl
    · omega
    · omega
  have hone : ¬(inetPton af (addrText af a) m).1 ≠ 1 := not_not.2 (inetPton_addrText haf a m).1
  have hroom : ¬n < af.size := by omega
  simp only [inetNetPton, htake, hbefore, hafter, tail_cons, strtol_decText hbits63, if_neg haf,
    if_neg hok,
    if_neg hone, if_neg hroom, if_neg (cons_ne_nil '/' (decText bits)), Int.toNat_natCast]

lemma bitAt_applyMask (haf : af ≠ .other) (hbits : (bits : ℤ) ≤ af.maxBits) (hk : k < 8 * af.size)
    (a : ℕ → UInt8) :
    bitAt (applyMask af bits a) k = (decide (k < bits) && bitAt a k) := by
  cases af with
  | inet => exact bitAt_applyMask_inet (by simpa [Family.maxBits] using hbits) hk a
  | inet6 => exact bitAt_applyMask_inet6 hk a
  | other => exact absurd rfl haf

/-- An address comes back from its text, and a network from its own, with the bits after the prefix
cleared. -/
theorem inet_round_trip (af : Family) (haf : af ≠ .other) (a m : ℕ → UInt8) :
    (∀ l, af.strLen ≤ l → (inetNtop af a l).isSome) ∧
    (∀ l s, inetNtop af a l = some s → (inetPton af s m).1 = 1 ∧ ∀ k < af.size,
      (inetPton af s m).2 k = a k) ∧
    ∀ bits : ℕ,
    (bits : ℤ) ≤ af.maxBits → (∀ size, af.strLen + 4 ≤ size → (inetNetNtop af a bits size).isSome) ∧
      ∀ size s n, inetNetNtop af a bits size = some s → af.size ≤ n → (inetNetPton af s m n).1 = bits ∧
          ∀ k < 8 * af.size, bitAt (inetNetPton af s m n).2 k = (decide (k < bits) && bitAt a k) := by
  have hlength := length_addrText_lt haf a
  refine ⟨?_, ?_, ?_⟩
  · intro l hl
    rw [inetNtop_eq haf, if_pos (by omega)]
    rfl
  · intro l s hs
    rw [inetNtop_eq haf] at hs
    split_ifs at hs
    rw [← some.inj hs]
    exact inetPton_addrText haf a m
  · intro bits hbits
    constructor
    · intro size hsize
      have hdec := length_decText_bits hbits
      rw [inetNetNtop_eq haf a hbits, if_neg (by rw [length_append, length_cons]; omega)]
      rfl
    · intro size s n hs hn
      rw [inetNetNtop_eq haf a hbits] at hs
      split_ifs at hs
      rw [← some.inj hs, inetNetPton_eq haf a m hbits hn]
      refine ⟨rfl, fun k hk => ?_⟩
      rw [bitAt_applyMask haf hbits hk, bitAt, bitAt, (inetPton_addrText haf a m).2 (k / 8) (by omega)]

/-- The address 1234::1 with a prefix of 12 bits. -/
theorem inet_round_trip_inet6 : (inetNetPton .inet6 "1234::1/12".toList (fun _ => 0) 16).1 = 12 ∧
      bitAt (inetNetPton .inet6 "1234::1/12".toList (fun _ => 0) 16).2 6 = true := by
  have hnet := (inet_round_trip .inet6 (by decide)
    (fun k => if k = 0 then 18 else if k = 1 then 52 else if k = 15 then 1 else 0)
    (fun _ => 0)).2.2 12 (by decide)
  obtain ⟨hbits, hmask⟩ := hnet.2 64 "1234::1/12".toList 16 (by decide +kernel) (by decide)
  exact ⟨hbits, (hmask 6 (by decide)).trans (by decide)⟩

/-! ### What `inet_pton` stores -/

section Stores

variable {v size : ℕ} {s rest front : List Char} {a a' : ℕ → UInt8} {ip : List ℕ} {brk : Option ℕ}
  {t : List Char} {g i : ℕ}

/-- The text begins with that many numbers of a dotted address, with dots between them; the last one
has all the digits that `inet_pton` reads there. -/
inductive Octets : ℕ → List Char → Prop
  | last {v : ℕ} {rest : List Char} (hv : v < 256) (h : ReadsDigits (decText v) rest) :
    Octets 1 (decText v ++ rest)
  | dot {k v : ℕ} {rest : List Char} (hv : v < 256) (h : Octets (k + 1) rest) :
    Octets (k + 2) (decText v ++ '.' :: rest)

lemma readsDigits_dot (t rest : List Char) : ReadsDigits t ('.' :: rest) := .inr (stops_cons (by decide))

lemma Octets.exists_decText (h : Octets k s) :
    ∃ v < 256, ∃ rest, s = decText v ++ rest ∧ ReadsDigits (decText v) rest := by
  cases h with
  | last hv h => exact ⟨_, hv, _, rfl, h⟩
  | dot hv _ => exact ⟨_, hv, _, rfl, readsDigits_dot _ _⟩

lemma octets_succ (hv : v < 256) (hrest : ReadsDigits (decText v) rest) :
    Octets (k + 2) (decText v ++ rest) ↔ ∃ rest', rest = '.' :: rest' ∧ Octets (k + 1) rest' := by
  constructor
  · intro h
    generalize hs : decText v ++ rest = s at h
    cases h with
    | @dot _ w rest' hw h =>
      have hscan := scan_decText hv hrest
      rw [hs, scan_decText hw (readsDigits_dot _ _), Prod.mk.injEq] at hscan
      obtain ⟨rfl, -⟩ := hscan
      exact ⟨rest', append_cancel_left hs, h⟩
  · rintro ⟨rest', rfl, h⟩
    exact .dot hv h

lemma Octets.mono (h : Octets (k + 1) s) (hj : j ≤ k) : Octets (j + 1) s := by
  induction k generalizing j s with
  | zero =>
    obtain rfl : j = 0 := by omega
    exact h
  | succ k ih =>
    cases h with
    | dot hv h =>
      cases j with
      | zero => exact .last hv (readsDigits_dot _ _)
      | succ j => exact .dot hv (ih h (by omega))

lemma ptonLoop_below (n : ℕ) (s : List Char) (a : ℕ → UInt8) (hk : k < i) :
    (ptonLoop n i s a).2 k = a k := by
  induction n generalizing i s a with
  | zero => rfl
  | succ n ih =>
    rw [ptonLoop]
    dsimp only
    split
    · rfl
    · split
      · exact update_of_ne hk.ne _ _
      · split
        · rw [ih _ _ (by omega), update_of_ne hk.ne]
        · exact update_of_ne hk.ne _ _

/-- **The bytes that are stored for an IPv4 address**: as many as the text has numbers at its start,
whether it is an address or not. -/
theorem ptonLoop_stores (n i : ℕ) (s : List Char) (j : ℕ) :
    (¬(j < n ∧ Octets (j + 1) s) → ∀ a, (ptonLoop n i s a).2 (i + j) = a (i + j)) ∧
      (j < n → Octets (j + 1) s → ∀ a a',
        (ptonLoop n i s a).2 (i + j) = (ptonLoop n i s a').2 (i + j)) := by
  induction n generalizing i s j with
  | zero => exact ⟨fun _ _ => rfl, fun h => absurd h (not_lt_zero j)⟩
  | succ n ih =>
    by_cases hbad : (scan decval 10 3 0 s).2 = 0 ∨ (1 < (scan decval 10 3 0 s).2 ∧ s.head? = some '0') ∨
      255 < (scan decval 10 3 0 s).1
    · have hnone : ∀ a, ptonLoop (n + 1) i s a = (0, a) := fun a => by
        rw [ptonLoop]
        exact if_pos hbad
      refine ⟨fun _ a => by rw [hnone], fun _ h => ?_⟩
      obtain ⟨v, hv, rest, rfl, hrest⟩ := h.exists_decText
      rw [scan_decText hv hrest] at hbad
      exact absurd hbad (decText_valid hv rest)
    obtain ⟨v, hv, rest, rfl, hrest⟩ := exists_octet hbad
    have hdot : ∀ rest' a, rest = '.' :: rest' →
        ptonLoop (n + 1) i (decText v ++ rest) a =
        ptonLoop n (i + 1) rest' (update a i (UInt8.ofNat v)) := by
      rintro rest' a rfl
      exact ptonLoop_dot hv i rest' a
    have hend : (¬∃ rest', rest = '.' :: rest') → ∀ a,
        (ptonLoop (n + 1) i (decText v ++ rest) a).2 = update a i (UInt8.ofNat v) := by
      intro hno a
      rw [ptonLoop]
      simp only [scan_decText hv hrest, if_neg (decText_valid hv _), drop_left]
      split
      · rfl
      · next c rest' =>
        have hc : c ≠ '.' := fun hc => hno ⟨rest', by rw [hc]⟩
        rw [if_neg hc]
    by_cases hmore : ∃ rest', rest = '.' :: rest'
    · obtain ⟨rest', rfl⟩ := hmore
      simp only [hdot rest' _ rfl]
      cases j with
      | zero =>
        refine ⟨fun hno => absurd ⟨succ_pos n, .last hv hrest⟩ hno, fun _ _ a a' => ?_⟩
        rw [add_zero, ptonLoop_below _ _ _ (lt_succ_self i), ptonLoop_below _ _ _ (lt_succ_self i),
          update_self, update_self]
      | succ j =>
        have hiff : Octets (j + 1 + 1) (decText v ++ '.' :: rest') ↔ Octets (j + 1) rest' := by
          rw [octets_succ hv hrest]
          simp
        obtain ⟨hkeep, hsame⟩ := ih (i + 1) rest' j
        rw [hiff, show i + (j + 1) = i + 1 + j by omega]
        refine ⟨fun hno a => ?_, fun hj ho a a' => hsame (by omega) ho _ _⟩
        rw [hkeep (fun h => hno ⟨by omega, h.2⟩), update_of_ne (by omega)]
    · simp only [hend hmore]
      cases j with
      | zero =>
        refine ⟨fun hno => absurd ⟨succ_pos n, .last hv hrest⟩ hno, fun _ _ a a' => ?_⟩
        rw [add_zero, update_self, update_self]
      | succ j =>
        refine ⟨fun _ a => update_of_ne (by omega) _ _, fun _ ho => ?_⟩
        obtain ⟨rest', rfl, -⟩ := (octets_succ hv hrest).1 ho
        exact absurd ⟨rest', rfl⟩ hmore

lemma inet_writes_iff :
    (∀ a k, size ≤ k → (inetPton .inet s a).2 k = a k) ↔ ¬(size < 4 ∧ Octets (size + 1) s) := by
  have hstores := ptonLoop_stores 4 0 s
  simp only [zero_add] at hstores
  constructor
  · rintro h ⟨hsize, ho⟩
    have hsame := (hstores size).2 hsize ho (fun _ => 0) fun _ => 1
    have h0 := h (fun _ => 0) size le_rfl
    have h1 := h (fun _ => 1) size le_rfl
    rw [inetPton] at h0 h1
    rw [h0, h1] at hsame
    exact absurd hsame (by decide)
  · intro hno a k hk
    exact (hstores k).1 (fun h => hno ⟨by omega, h.2.mono hk⟩) a

/-- A text for which all bytes of an IPv6 address are stored: an address, or one with anything after
the first group and dot of an IPv4 address at its end. -/
def StoresInet6 (s : List Char) : Prop :=
  (∃ gs, IsAddress s gs) ∨ ∃ front t g rest, s = front ++ (t ++ '.' :: rest) ∧ front.getLast? = some ':' ∧
    IsGroup t g ∧ ∃ gs, IsAddress (front ++ dotted fun _ => 0) gs

lemma dotted_zero : ∃ t g rest, IsGroup t g ∧ dotted (fun _ => 0) = t ++ '.' :: rest := by
  obtain ⟨g, hg⟩ := isGroup_decText (show (0 : UInt8).toNat < 256 by decide)
  exact ⟨_, g, _, hg, rfl⟩

/-- The loop ends at an IPv4 address: what stands before it does not depend on it. -/
lemma groupLoop_v4 {r : Groups} {x : List Char} (h : groupLoop n s ip brk = some r)
    (hn : n + ip.length = 8) (hx : r.v4 = some x) :
    ∃ front, s = front ++ x ∧ (front = [] ∨ front.getLast? = some ':') ∧
    (∃ t g rest, IsGroup t g ∧ x = t ++ '.' :: rest) ∧
      ∀ t g rest, IsGroup t g → ∃ ip', groupLoop n (front ++ (t ++ '.' :: rest)) ip brk =
        some ⟨ip', r.brk, some (t ++ '.' :: rest)⟩ := by
  induction n generalizing s ip brk with
  | zero => cases h
  | succ n ih =>
    have hlen : ∀ g, n + (ip ++ [g]).length = 8 := fun g => by
      rw [length_append, length_singleton]
      omega
    rw [groupLoop] at h
    by_cases hgap : s.head? = some ':' ∧ brk = none
    · obtain ⟨hcolon, rfl⟩ := hgap
      obtain ⟨s, rfl⟩ := head?_eq_some_iff.1 hcolon
      rw [if_pos ⟨hcolon, rfl⟩, tail_cons] at h
      split_ifs at h with hs h7
      · obtain rfl := Option.some.inj h
        cases hx
      obtain ⟨front, rfl, hfront, hdot, hother⟩ := ih h (hlen 0)
      refine ⟨':' :: front, rfl, .inr ?_, hdot, fun t g rest hg => ?_⟩
      · rcases hfront with rfl | hlast
        · rfl
        · rw [getLast?_cons, hlast]
          rfl
      · obtain ⟨ip', hloop⟩ := hother t g rest hg
        exact ⟨ip', by simp [groupLoop, h7, hloop]⟩
    · obtain ⟨t, ds, rest, rfl, ht, hle, -, hscan⟩ := exists_scan hexval 16 4 0 s
      by_cases hzero : t.length = 0
      · simp only [if_neg hgap, hscan, if_pos hzero] at h
        cases h
      simp only [hscan, drop_left, if_neg hgap, if_neg hzero] at h
      have hg : IsGroup t (value 16 0 ds) :=
        ⟨fun hnil => hzero (by rw [hnil]; rfl), hle, ds, ht.imp fun c d => hexval_eq_some_iff.1, rfl⟩
      cases rest with
      | nil =>
        dsimp only at h
        split_ifs at h
        obtain rfl := Option.some.inj h
        cases hx
      | cons c rest =>
        dsimp only at h
        split_ifs at h with h7 hcolon hdot
        · subst hcolon
          obtain ⟨front, rfl, hfront, hdot, hother⟩ := ih h (hlen _)
          refine ⟨t ++ ':' :: front, by simp, .inr ?_, hdot, fun t' g' rest' hg' => ?_⟩
          · rcases hfront with rfl | hlast
            · simp
            · rw [getLast?_append, getLast?_cons, hlast]
              rfl
          · obtain ⟨ip', hloop⟩ := hother t' g' rest' hg'
            exact ⟨ip', by rw [append_assoc, cons_append, groupLoop_colon hg h7, hloop]⟩
        · obtain rfl := Option.some.inj h
          obtain rfl := Option.some.inj hx
          rw [not_or, not_not] at hdot
          have hend : brk ≠ none ∨ ip.length = 6 := by
            by_contra hnot
            rw [not_or, not_not] at hnot
            exact hdot.2 ⟨by omega, hnot.1⟩
          obtain ⟨rfl, -⟩ := hdot
          exact ⟨[], rfl, .inl rfl, ⟨t, _, rest, hg, rfl⟩, fun t' g' rest' hg' =>
            ⟨_, groupLoop_dot hg' h7 hend rest'⟩⟩

/-- A round of the loop at a group that something follows. -/
lemma groupLoop_group {c : Char} (h : IsGroup t g) (hstop : t.length = 4 ∨ Stops hexval (c :: rest)) :
    groupLoop (n + 1) (t ++ c :: rest) ip brk =
      if ip.length = 7 then none
      else if c = ':' then groupLoop n rest (ip ++ [g]) brk
      else if c ≠ '.' ∨ (ip.length < 6 ∧ brk = none) then none
      else some ⟨ip ++ [g, 0], brk, some (t ++ c :: rest)⟩ := by
  have hne : t.length ≠ 0 := fun hzero => h.1 (length_eq_zero_iff.1 hzero)
  obtain ⟨ds, hds, hg⟩ := h.forall₂
  have hscan : scan hexval 16 4 0 (t ++ c :: rest) = (g, t.length) := hg ▸ scan_append hds h.2.1 hstop
  simp only [groupLoop, h.head, false_and, if_false, hscan, hne, drop_left]

/-- What comes after the first group and dot at the end does not matter for the loop. -/
lemma groupLoop_isSome {t t' : List Char} {g g' : ℕ} (hg : IsGroup t g) (hg' : IsGroup t' g')
    (rest rest' : List Char) (hfront : front = [] ∨ front.getLast? = some ':')
    (h : (groupLoop n (front ++ (t ++ '.' :: rest)) ip brk).isSome) :
    (groupLoop n (front ++ (t' ++ '.' :: rest')) ip brk).isSome := by
  induction n generalizing front ip brk with
  | zero => cases h
  | succ n ih =>
    cases front with
    | nil =>
      have hdot : '.' ≠ ':' := by decide
      rw [nil_append, groupLoop_group hg (.inr (stops_cons rfl)), if_neg hdot] at h
      rw [nil_append, groupLoop_group hg' (.inr (stops_cons rfl)), if_neg hdot]
      by_cases h7 : ip.length = 7
      · rw [if_pos h7] at h
        cases h
      rw [if_neg h7] at h ⊢
      by_cases hend : ip.length < 6 ∧ brk = none
      · rw [if_pos (.inr hend)] at h
        cases h
      · rw [if_neg (not_or.2 ⟨not_not.2 rfl, hend⟩)]
        rfl
    | cons c front =>
      have hlast : (c :: front).getLast? = some ':' := hfront.resolve_left (cons_ne_nil _ _)
      have hsuffix : ∀ f, f <:+ c :: front → f = [] ∨ f.getLast? = some ':' := fun f hf => by
        obtain ⟨pre, hpre⟩ := hf
        by_cases hnil : f = []
        · exact .inl hnil
        · rw [← hpre, getLast?_append_of_ne_nil _ hnil] at hlast
          exact .inr hlast
      by_cases hc : c = ':'
      · subst hc
        cases brk with
        | none =>
          rw [cons_append, groupLoop, head?_cons, tail_cons, if_pos ⟨rfl, rfl⟩, if_neg (by simp)] at h ⊢
          by_cases h7 : ip.length = 7
          · rw [if_pos h7] at h
            cases h
          rw [if_neg h7] at h ⊢
          exact ih (hsuffix _ (suffix_cons _ _)) h
        | some b =>
          have hscan : scan hexval 16 4 0 (':' :: (front ++ (t ++ '.' :: rest))) = (0, 0) := rfl
          simp [groupLoop, hscan] at h
      · obtain ⟨u, ds, rem, hu, hds, hle, hstop, -⟩ := exists_scan hexval 16 4 0 (c :: front)
        have hhex : ∀ x ∈ u, (hexval x).isSome :=
          ((forall₂_and_left _ _).1 (hds.imp fun c d hc => ⟨isSome_of_eq_some hc, hc⟩)).1
        cases rem with
        | nil =>
          rw [append_nil] at hu
          have hmem := hhex ':' (hu ▸ mem_of_getLast? hlast)
          exact absurd hmem (by decide)
        | cons c' rem =>
          have hstop' : ∀ x, u.length = 4 ∨ Stops hexval (c' :: (rem ++ x)) := fun x =>
            hstop.imp_right fun hs y hy => hs y hy
          by_cases hnil : u = []
          · subst hnil
            obtain ⟨rfl, rfl⟩ := cons.inj hu
            have hnone : hexval c = none := hstop.elim (fun h => by cases h) fun hs => hs c rfl
            simp [groupLoop, hc, scan, hnone] at h
          · have hgroup : IsGroup u (value 16 0 ds) :=
              ⟨hnil, hle, ds, hds.imp fun c d => hexval_eq_some_iff.1, rfl⟩
            rw [hu, append_assoc, cons_append, groupLoop_group hgroup (hstop' _)] at h ⊢
            by_cases h7 : ip.length = 7
            · rw [if_pos h7] at h
              cases h
            rw [if_neg h7] at h ⊢
            by_cases hcolon : c' = ':'
            · rw [if_pos hcolon] at h ⊢
              exact ih (hsuffix _ (hu ▸ (suffix_cons _ _).trans (suffix_append _ _))) h
            · rw [if_neg hcolon] at h ⊢
              by_cases hend : c' ≠ '.' ∨ (ip.length < 6 ∧ brk = none)
              · rw [if_pos hend] at h
                cases h
              · rw [if_neg hend]
                rfl

/-- The colons at the start are looked at before the loop. -/
lemma leadingColon_append (h : front.getLast? = some ':') :
    (∀ x, x.head? ≠ some ':' → leadingColon (front ++ x) = none) ∨
      ∃ f, f.getLast? = some ':' ∧ ∀ x, leadingColon (front ++ x) = some (f ++ x) := by
  cases front with
  | nil => cases h
  | cons c front =>
    by_cases hc : c = ':'
    · subst hc
      cases front with
      | nil => exact .inl fun x hx => by simp [leadingColon, hx]
      | cons d front =>
        by_cases hd : d = ':'
        · subst hd
          rw [getLast?_cons_cons] at h
          exact .inr ⟨_, h, fun x => rfl⟩
        · exact .inl fun x _ => by simp [leadingColon, hd]
    · exact .inr ⟨_, h, fun x => by simp [leadingColon, hc]⟩

lemma isSome_of_isAddress {gs : List ℕ} (h : IsAddress s gs) :
    ((leadingColon s).bind fun s => groupLoop 8 s [] none).isSome := by
  obtain ⟨t, gs', k', hlead, hreads, -⟩ := h.reads
  obtain ⟨r, hloop, -⟩ :=
    groupLoop_of_reads hreads (show 0 = ([] : List ℕ).length from rfl) rfl (fun j hj => by cases hj)
      fun _ => 0
  rw [hlead, Option.bind_some, hloop]
  rfl

/-- **The loop for IPv6 ends well** for these texts and no others. -/
theorem storesInet6_iff :
    StoresInet6 s ↔ ((leadingColon s).bind fun s => groupLoop 8 s [] none).isSome := by
  obtain ⟨t₀, g₀, rest₀, hg₀, hzero⟩ := dotted_zero
  constructor
  · rintro (⟨gs, h⟩ | ⟨front, t, g, rest, rfl, hlast, hg, gs, h⟩)
    · exact isSome_of_isAddress h
    · have hsome := isSome_of_isAddress h
      rw [hzero] at hsome
      rcases leadingColon_append hlast with hnone | ⟨f, hf, hlead⟩
      · rw [hnone _ (hg₀.head _)] at hsome
        cases hsome
      · rw [hlead, Option.bind_some] at hsome ⊢
        exact groupLoop_isSome hg₀ hg _ _ (.inr hf) hsome
  · intro h
    cases hlead : leadingColon s with
    | none =>
      rw [hlead] at h
      cases h
    | some s' =>
      rw [hlead, Option.bind_some] at h
      obtain ⟨r, hloop⟩ := isSome_iff_exists.1 h
      have haddr : ∀ x y, leadingColon x = some y → ∀ r', groupLoop 8 y [] none = some r' →
          0 < (r'.store fun _ => 0).1 → ∃ gs, IsAddress x gs := by
        intro x y hx r' hr' hpos
        refine isAddress_of_inetPton (a := fun _ => 0) ?_
        rw [inetPton_inet6, hx, Option.bind_some, hr']
        exact hpos
      cases hv4 : r.v4 with
      | none =>
        refine .inl (haddr s s' hlead r hloop ?_)
        rw [Groups.store, hv4]
        exact Int.one_pos
      | some x =>
        obtain ⟨front, rfl, hfront, ⟨t, g, rest, hg, rfl⟩, hother⟩ := groupLoop_v4 hloop rfl hv4
        have hlast : front.getLast? = some ':' := by
          refine hfront.resolve_left ?_
          rintro rfl
          rw [nil_append, groupLoop_group hg (.inr (stops_cons rfl))] at hloop
          simp at hloop
        -- the text is the one of the loop, or has a colon more
        obtain ⟨front', hfront', rfl⟩ : ∃ f, f.getLast? = some ':' ∧ s = f ++ (t ++ '.' :: rest) := by
          rw [leadingColon] at hlead
          split_ifs at hlead with hs htail
          · obtain ⟨s, rfl⟩ := head?_eq_some_iff.1 hs
            refine ⟨':' :: front, by rw [getLast?_cons, hlast]; rfl, ?_⟩
            rw [cons_append, ← Option.some.inj hlead, tail_cons]
          · exact ⟨front, hlast, Option.some.inj hlead⟩
        rcases leadingColon_append hfront' with hnone | ⟨f, -, hf⟩
        · rw [hnone _ (hg.head _)] at hlead
          cases hlead
        rw [hf, Option.some.injEq, append_cancel_right_eq] at hlead
        subst hlead
        refine .inr ⟨front', t, g, rest, rfl, hfront', hg, ?_⟩
        obtain ⟨ip', hloop'⟩ := hother t₀ g₀ rest₀ hg₀
        rw [← hzero] at hloop'
        refine haddr _ _ (hf _) _ hloop' ?_
        simp only [Groups.store, ptonLoop_dotted]
        exact Int.one_pos

lemma ptonLoop_above (n : ℕ) (s : List Char) (a : ℕ → UInt8) (hk : i + n ≤ k) :
    (ptonLoop n i s a).2 k = a k := by
  obtain ⟨j, rfl⟩ := Nat.exists_eq_add_of_le (show i ≤ k by omega)
  exact (ptonLoop_stores n i s j).1 (fun h => by omega) a

lemma ptonLoop_congr (n i : ℕ) (s : List Char) (h : a k = a' k) :
    (ptonLoop n i s a).2 k = (ptonLoop n i s a').2 k := by
  rcases lt_or_ge k i with hlt | hge
  · rw [ptonLoop_below _ _ _ hlt, ptonLoop_below _ _ _ hlt, h]
  · obtain ⟨j, rfl⟩ := Nat.exists_eq_add_of_le hge
    obtain ⟨hkeep, hsame⟩ := ptonLoop_stores n i s j
    by_cases hj : j < n ∧ Octets (j + 1) s
    · exact hsame hj.1 hj.2 a a'
    · rw [hkeep hj, hkeep hj, h]

/-- All bytes of the address are stored, and no others. -/
lemma Groups.store_above (r : Groups) (a : ℕ → UInt8) (hk : 16 ≤ k) : (r.store a).2 k = a k := by
  have hgroups : storeGroups (expand r.ip r.brk) a k = a k := if_neg (not_lt.2 hk)
  cases hv4 : r.v4 with
  | none => simpa only [Groups.store, hv4] using hgroups
  | some x =>
    have hloop := ptonLoop_above (i := 12) 4 x (storeGroups (expand r.ip r.brk) a) hk
    simp only [Groups.store, hv4]
    split_ifs
    all_goals exact hloop.trans hgroups

lemma Groups.store_congr (r : Groups) (a a' : ℕ → UInt8) (hk : k < 16) :
    (r.store a).2 k = (r.store a').2 k := by
  have hgroups : storeGroups (expand r.ip r.brk) a k = storeGroups (expand r.ip r.brk) a' k := by
    simp only [storeGroups, if_pos hk]
  cases hv4 : r.v4 with
  | none => simpa only [Groups.store, hv4] using hgroups
  | some x =>
    have hloop := ptonLoop_congr 4 12 x hgroups
    simp only [Groups.store, hv4]
    split_ifs
    all_goals exact hloop

lemma inet6_writes_iff :
    (∀ a k, size ≤ k → (inetPton .inet6 s a).2 k = a k) ↔ ¬(size < 16 ∧ StoresInet6 s) := by
  rw [storesInet6_iff]
  simp only [inetPton_inet6]
  cases (leadingColon s).bind fun s => groupLoop 8 s [] none with
  | none => simp
  | some r =>
    simp only [isSome_some, and_true, not_lt]
    constructor
    · intro h
      by_contra hsize
      have hsame := r.store_congr (fun _ => 0) (fun _ => 1) (not_le.1 hsize)
      rw [h _ size le_rfl, h _ size le_rfl] at hsame
      exact absurd hsame (by decide)
    · exact fun hsize a k hk => r.store_above a (hsize.trans hk)

end Stores

/-! ### The prefix length as `strtol` takes it -/

/-- What passes for a prefix length: nothing, or digits after blanks and a sign, with a minus for
zero only. -/
def LaxPrefixLength (af : Family) (u : List Char) : Prop :=
  u = [] ∨ ∃ blanks sign ds, u = blanks ++ (sign ++ ds.map xdigit) ∧ (∀ c ∈ blanks, isspace c = true) ∧
    (sign = [] ∨ sign = ['+'] ∨ sign = ['-'] ∧ value 10 0 ds = 0) ∧ ds ≠ [] ∧ (∀ d ∈ ds, d < 10) ∧
    (value 10 0 ds : ℤ) ≤ af.maxBits

lemma signOf_spec (s : List Char) : ∃ sign, s = sign ++ (signOf s).2 ∧
    (sign = [] ∧ (signOf s).1 = false ∨ sign = ['+'] ∧ (signOf s).1 = false ∨ sign = ['-'] ∧
      (signOf s).1 = true) := by
  unfold signOf
  split
  · exact ⟨['-'], rfl, by simp⟩
  · exact ⟨['+'], rfl, by simp⟩
  · exact ⟨[], rfl, by simp⟩

/-- **The checks on what `strtol` returns** pass for these texts and no others. -/
theorem strtol_passes_iff (af : Family) (haf : af ≠ .other) (u : List Char) :
    ¬((strtol u).2 ≠ [] ∨ (strtol u).1 < 0 ∨ af.maxBits < (strtol u).1) ↔ LaxPrefixLength af u := by
  have hmax : 0 ≤ af.maxBits ∧ af.maxBits ≤ 128 := by
    cases af with
    | inet => decide
    | inet6 => decide
    | other => exact absurd rfl haf
  constructor
  · intro h
    rw [not_or, not_not, not_or, not_lt, not_lt] at h
    obtain ⟨hend, hneg, hle⟩ := h
    obtain ⟨sign, hsign, hcases⟩ := signOf_spec (u.dropWhile isspace)
    obtain ⟨t, ds, rest, htext, ht, -, -, hscan⟩ :=
      exists_scan decval 10 (signOf (u.dropWhile isspace)).2.length 0 (signOf (u.dropWhile isspace)).2
    by_cases hzero : t.length = 0
    · left
      simpa only [strtol, hscan, if_pos hzero] using hend
    simp only [strtol, hscan, if_neg hzero] at hend hneg hle
    rw [htext, drop_left] at hend
    subst hend
    obtain ⟨hds, hchars⟩ := (forall₂_and_left _ _).1 (ht.imp fun c d => decval_eq_some).flip
    obtain rfl : t = ds.map xdigit := by
      rw [← forall₂_eq_eq_eq, forall₂_map_right_iff]
      exact hchars.flip
    refine .inr ⟨u.takeWhile isspace, sign, ds, ?_, fun c hc => mem_takeWhile_imp hc, ?_, ?_, hds, ?_⟩
    · rw [append_nil] at htext
      rw [← htext, ← hsign, takeWhile_append_dropWhile]
    · rcases hcases with ⟨rfl, -⟩ | ⟨rfl, -⟩ | ⟨rfl, hminus⟩
      · exact .inl rfl
      · exact .inr (.inl rfl)
      · rw [hminus, if_pos rfl] at hneg
        exact .inr (.inr ⟨rfl, by omega⟩)
    · rintro rfl
      exact hzero rfl
    · rcases hcases with ⟨-, hplus⟩ | ⟨-, hplus⟩ | ⟨-, hminus⟩
      · rw [hplus, if_neg Bool.false_ne_true] at hle
        omega
      · rw [hplus, if_neg Bool.false_ne_true] at hle
        omega
      · rw [hminus, if_pos rfl] at hneg
        omega
  · rintro (rfl | ⟨blanks, sign, ds, rfl, hblanks, hsign, hne, hds, hle⟩)
    · rw [show strtol [] = (0, []) from rfl]
      simp only [ne_eq, not_true_eq_false, lt_irrefl, false_or, not_lt]
      exact hmax.1
    obtain ⟨d, ds', rfl⟩ := exists_cons_of_ne_nil hne
    have hd := hds d mem_cons_self
    have hskip : (blanks ++ (sign ++ (d :: ds').map xdigit)).dropWhile isspace =
        sign ++ (d :: ds').map xdigit := by
      rw [dropWhile_append_of_pos hblanks]
      rcases hsign with rfl | rfl | ⟨rfl, -⟩
      · exact dropWhile_cons_of_neg (by simp [isspace_xdigit d hd])
      · rfl
      · rfl
    have hscan : scan decval 10 ((d :: ds').map xdigit).length 0 ((d :: ds').map xdigit) =
        (value 10 0 (d :: ds'), ((d :: ds').map xdigit).length) := by
      have hread :=
        scan_append (b := 10) (v := 0) (digits_map fun d hd => decval_xdigit d (hds d hd)) le_rfl
        (.inr stops_nil)
      rwa [append_nil] at hread
    have hlength : ((d :: ds').map xdigit).length ≠ 0 := by simp
    generalize hv : value 10 0 (d :: ds') = v at *
    rcases hsign with rfl | rfl | ⟨rfl, hzero⟩
    · have hsignOf : signOf ([] ++ (d :: ds').map xdigit) = (false, (d :: ds').map xdigit) :=
        signOf_xdigit hd _
      simp only [strtol, hskip, hsignOf, hscan, if_neg hlength, drop_length]
      simp
      omega
    · have hsignOf : signOf (['+'] ++ (d :: ds').map xdigit) = (false, (d :: ds').map xdigit) := rfl
      simp only [strtol, hskip, hsignOf, hscan, if_neg hlength, drop_length]
      simp
      omega
    · have hsignOf : signOf (['-'] ++ (d :: ds').map xdigit) = (true, (d :: ds').map xdigit) := rfl
      simp only [strtol, hskip, hsignOf, hscan, if_neg hlength, drop_length]
      simp
      omega

/-! ### What is accepted and what is written -/

def IsPrefixLength (af : Family) (t : List Char) : Prop :=
  t ≠ [] ∧ ∃ ds, t = ds.map xdigit ∧ (∀ d ∈ ds, d < 10) ∧ (value 10 0 ds : ℤ) ≤ af.maxBits

/-- An address that `inet_pton` accepts, alone or with a prefix length. -/
def IsNetwork (af : Family) (src : List Char) : Prop :=
  ∃ s, (∀ a, (inetPton af s a).1 = 1) ∧ (src = s ∨ ∃ t, IsPrefixLength af t ∧ src = s ++ '/' :: t)

/-- Nothing is written after the first `size` bytes, and only networks are accepted. -/
structure Validates (af : Family) (src : List Char) (size : ℕ) : Prop where
  writes : ∀ a k, size ≤ k → (inetNetPton af src a size).2 k = a k
  accepts : ∀ a, 0 ≤ (inetNetPton af src a size).1 → IsNetwork af src

def bufAddr (src : List Char) : List Char := (src.take 127).takeWhile (· ≠ '/')

/-- The checks on what `strtol` makes of the text after the slash pass, or there is no slash. -/
def PrefixPasses (af : Family) (src : List Char) : Prop :=
  let slash := (src.take 127).dropWhile (· ≠ '/')
  ¬(slash ≠ [] ∧ ((strtol slash.tail).2 ≠ [] ∨ (strtol slash.tail).1 < 0 ∨
    af.maxBits < (strtol slash.tail).1))

variable {src : List Char}

lemma applyMask_of_le (a : ℕ → UInt8) (hk : af.size ≤ k) : applyMask af bits a k = a k := by
  cases af with
  | inet => exact if_neg (not_lt.2 hk)
  | inet6 => exact if_pos (.inl hk)
  | other => rfl

lemma inetNetPton_passes (haf : af ≠ .other) (h : PrefixPasses af src) (a : ℕ → UInt8) (size : ℕ) :
    (∀ k, size ≤ k → (inetNetPton af src a size).2 k = (inetPton af (bufAddr src) a).2 k) ∧
      (0 ≤ (inetNetPton af src a size).1 ↔ (inetPton af (bufAddr src) a).1 = 1 ∧ af.size ≤ size) := by
  have hmax : 0 ≤ af.maxBits := by
    cases af with
    | inet => decide
    | inet6 => decide
    | other => exact absurd rfl haf
  simp only [inetNetPton, if_neg haf, if_neg h, ← bufAddr.eq_1]
  by_cases hone : (inetPton af (bufAddr src) a).1 = 1
  swap
  · rw [if_pos hone]
    exact ⟨fun _ _ => rfl, by simp [hone]⟩
  rw [if_neg (not_not.2 hone)]
  by_cases hsize : size < af.size
  · rw [if_pos hsize]
    exact ⟨fun _ _ => rfl, by simp [hsize]⟩
  · rw [if_neg hsize]
    refine ⟨fun k hk => applyMask_of_le _ (by omega), ?_⟩
    simp only [hone, not_lt.1 hsize, and_self, iff_true]
    split_ifs with hslash
    · exact hmax
    · exact not_lt.1 fun hneg => h ⟨hslash, .inr (.inl hneg)⟩

lemma isNetwork_iff (h : ∀ a, (inetPton af (bufAddr src) a).1 = 1) :
    IsNetwork af src ↔ ('/' ∈ src → IsPrefixLength af (src.dropWhile (· ≠ '/')).tail) := by
  have haddr : src.takeWhile (· ≠ '/') = bufAddr src := by
    have hlen := (inetPton_text (h fun _ => 0)).2.1
    rw [bufAddr] at hlen ⊢
    rw [← take_takeWhile] at hlen ⊢
    rw [length_take] at hlen
    rw [take_of_length_le (by omega)]
  constructor
  · rintro ⟨s, hs, rfl | ⟨t, ht, rfl⟩⟩ hmem
    · exact absurd hmem (inetPton_text (hs fun _ => 0)).1
    · rw [(split_slash (inetPton_text (hs fun _ => 0)).1).2]
      exact ht
  · intro hprefix
    refine ⟨bufAddr src, h, ?_⟩
    have hsplit := takeWhile_append_dropWhile (p := fun c => decide (c ≠ '/')) (l := src)
    rw [haddr] at hsplit
    by_cases hmem : '/' ∈ src
    · refine .inr ⟨_, hprefix hmem, ?_⟩
      cases hdrop : src.dropWhile (· ≠ '/') with
      | nil => exact absurd (dropWhile_eq_nil_iff.1 hdrop '/' hmem) (by decide)
      | cons c t =>
        have hc := head?_dropWhile_not (fun c => decide (c ≠ '/')) src
        rw [hdrop] at hc hsplit
        obtain rfl : c = '/' := by simpa using hc
        exact hsplit.symm
    · refine .inl (hsplit.symm.trans ?_)
      have hall : ∀ c ∈ src, decide (c ≠ '/') = true :=
        fun c hc => decide_eq_true fun heq => hmem (heq ▸ hc)
      rw [dropWhile_eq_nil_iff.2 hall, append_nil]

/-- What the stores of `inet_pton` and the checks have to come to. -/
lemma validates_iff (af : Family) (src : List Char) (size : ℕ) :
    Validates af src size ↔ (af ≠ .other → PrefixPasses af src →
      (∀ a k, size ≤ k → (inetPton af (bufAddr src) a).2 k = a k) ∧
        (af.size ≤ size → (∀ a, (inetPton af (bufAddr src) a).1 = 1) → '/' ∈ src →
          IsPrefixLength af (src.dropWhile (· ≠ '/')).tail)) := by
  constructor
  · intro h haf hpass
    refine ⟨fun a k hk => ?_, fun hsize hone => ?_⟩
    · rw [← (inetNetPton_passes haf hpass a size).1 k hk]
      exact h.writes a k hk
    · rw [← isNetwork_iff hone]
      exact h.accepts (fun _ => 0) ((inetNetPton_passes haf hpass _ size).2.2 ⟨hone _, hsize⟩)
  · intro h
    have hfail : (∀ a, inetNetPton af src a size = (-1, a)) → Validates af src size := by
      refine fun hnone => ⟨fun a k _ => by rw [hnone], fun a ha => ?_⟩
      rw [hnone] at ha
      exact absurd ha (show ¬0 ≤ -1 by decide)
    by_cases haf : af = .other
    · exact hfail fun a => if_pos haf
    by_cases hpass : PrefixPasses af src
    · obtain ⟨hwrites, haccepts⟩ := h haf hpass
      refine ⟨fun a k hk => ((inetNetPton_passes haf hpass a size).1 k hk).trans (hwrites a k hk),
        fun a ha => ?_⟩
      obtain ⟨hone, hsize⟩ := (inetNetPton_passes haf hpass a size).2.1 ha
      have hall := (inetPton_text hone).2.2
      exact (isNetwork_iff hall).2 (haccepts hsize hall)
    · refine hfail fun a => ?_
      simp only [inetNetPton, if_neg haf, if_pos (not_not.1 hpass)]

/-- The text after the first slash. -/
def afterSlash (s : List Char) : List Char := (s.dropWhile (· ≠ '/')).tail

lemma prefixPasses_iff (haf : af ≠ .other) :
    PrefixPasses af src ↔ ('/' ∈ src.take 127 → LaxPrefixLength af (afterSlash (src.take 127))) := by
  have hslash : (src.take 127).dropWhile (· ≠ '/') ≠ [] ↔ '/' ∈ src.take 127 := by
    rw [Ne, dropWhile_eq_nil_iff]
    simp
  rw [PrefixPasses, not_and, hslash, strtol_passes_iff af haf]
  rfl

/-- The text of an address, in four numbers or in eight groups. -/
def IsAddressText (af : Family) (s : List Char) : Prop :=
  match af with
  | .inet => ∃ b, s = dotted b
  | .inet6 => ∃ gs, IsAddress s gs
  | .other => False

lemma accepted_iff (haf : af ≠ .other) (s : List Char) :
    (∀ a, (inetPton af s a).1 = 1) ↔ IsAddressText af s := by
  cases af with
  | inet =>
    constructor
    · intro h
      exact exists_dotted (i := 0) (a := fun _ => 0)
        (by rw [show (ptonLoop 4 0 s _).1 = 1 from h _]; decide)
    · rintro ⟨b, rfl⟩ a
      rw [inetPton_dotted]
  | inet6 =>
    constructor
    · intro h
      exact isAddress_of_inetPton (a := fun _ => 0) (by rw [h]; decide)
    · rintro ⟨gs, h⟩ a
      rw [inetPton_of_isAddress h]
  | other => exact absurd rfl haf

/-- `inet_pton` stores more than `size` bytes: the text begins with more than `size` numbers of an
IPv4 address, or has the form for which all of an IPv6 address is stored. -/
def StoresBeyond (af : Family) (s : List Char) (size : ℕ) : Prop :=
  match af with
  | .inet => size < 4 ∧ Octets (size + 1) s
  | .inet6 => size < 16 ∧ StoresInet6 s
  | .other => False

/-- **When `inet_net_pton` validates its arguments**: what passes for a prefix length has to be one
if there is an address before it, and the text before it must not be one of which more than `size`
bytes are stored. -/
theorem inetNetPton_validates_iff (af : Family) (src : List Char) (size : ℕ) :
    Validates af src size ↔ (af ≠ .other →
      ('/' ∈ src.take 127 → LaxPrefixLength af (afterSlash (src.take 127))) →
        ¬StoresBeyond af (bufAddr src) size ∧
          (af.size ≤ size → IsAddressText af (bufAddr src) → '/' ∈ src →
            IsPrefixLength af (afterSlash src))) := by
  rw [validates_iff]
  refine forall_congr' fun haf => ?_
  have hwrites : (∀ a k, size ≤ k → (inetPton af (bufAddr src) a).2 k = a k) ↔
      ¬StoresBeyond af (bufAddr src) size := by
    cases af with
    | inet => exact inet_writes_iff
    | inet6 => exact inet6_writes_iff
    | other => exact absurd rfl haf
  rw [prefixPasses_iff haf, hwrites, accepted_iff haf]
  rfl

/-- A buffer of no bytes gets the address, and a slash without a number is accepted. -/
theorem not_validates :
    ¬Validates .inet "1.2.3.4".toList 0 ∧ (inetNetPton .inet "1.2.3.4".toList (fun _ => 0) 0).1 = -1 ∧
      ¬Validates .inet "1.2.3.4/".toList 4 := by
  refine ⟨fun h => ?_, by decide +kernel, fun h => ?_⟩
  · exact absurd (h.writes (fun _ => 0) 0 le_rfl) (by decide +kernel)
  · obtain ⟨s, hs, heq | ⟨t, ht, heq⟩⟩ := h.accepts (fun _ => 0) (by decide +kernel)
    · exact (inetPton_text (hs fun _ => 0)).1 (heq ▸ (by decide : '/' ∈ "1.2.3.4/".toList))
    · have hsplit := (split_slash (t := t) (inetPton_text (hs fun _ => 0)).1).2
      rw [← heq] at hsplit
      exact ht.1 (cons.inj hsplit).2.symm

/-- The network 10.0.0.0/8. -/
theorem inetNetPton_validates_ten : Validates .inet "10.0.0.0/8".toList 4 := by
  refine (inetNetPton_validates_iff .inet "10.0.0.0/8".toList 4).2 fun _ _ => ⟨fun h => ?_,
    fun _ _ _ => ?_⟩
  · exact absurd h.1 (lt_irrefl 4)
  · exact ⟨by decide, [8], by decide, by decide, by decide⟩

end Musl.Network
