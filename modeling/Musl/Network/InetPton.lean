import Mathlib.Data.List.GetD
import Musl.Lib.Numeral

/-!
# `inet_pton`

The text of an IPv4 address has four numbers with dots between them.  That of an IPv6 address has
eight groups of hexadecimal digits with colons between them; `::` stands for groups that are zero,
and the last two groups may be written as an IPv4 address.  One loop reads the groups and notes
where the gap is.

A string is the list of its characters before the terminating zero, and memory is a function from
offsets to bytes.
-/

namespace Musl.Network

open Musl.Lib.Numeral List Nat Function

/-! ### The code -/

/-- `AF_INET`, `AF_INET6` and all others. -/
inductive Family where
  | inet
  | inet6
  | other
  deriving DecidableEq, Repr

/-- A digit as `%x` and `%d` print it. -/
def xdigit (d : ℕ) : Char := Char.ofNat (if d < 10 then 48 + d else 87 + d)

/-- `%d` for a number that is not negative. -/
def decText (n : ℕ) : List Char := text xdigit 10 n

/-- `"%d.%d.%d.%d"` -/
def dotted (a : ℕ → UInt8) : List Char :=
  decText (a 0).toNat ++
    '.' :: (decText (a 1).toNat ++ '.' :: (decText (a 2).toNat ++ '.' :: decText (a 3).toNat))

/-- `256*a[2*k]+a[2*k+1]` -/
def group (a : ℕ → UInt8) (k : ℕ) : ℕ := 256 * (a (2 * k)).toNat + (a (2 * k + 1)).toNat

def hexval (c : Char) : Option ℕ :=
  if 48 ≤ c.toNat ∧ c.toNat < 58 then some (c.toNat - 48)
  else if 97 ≤ c.toNat ||| 32 ∧ c.toNat ||| 32 < 103 then some ((c.toNat ||| 32) - 87)
  else none

/-- `isdigit(c)`, with the value. -/
def decval (c : Char) : Option ℕ := if 48 ≤ c.toNat ∧ c.toNat < 58 then some (c.toNat - 48) else none

/-- The loop of `inet_pton` for IPv4 from the byte `i` on, with `4 - i` bytes to go. -/
def ptonLoop : ℕ → ℕ → List Char → (ℕ → UInt8) → ℤ × (ℕ → UInt8)
  | 0, _, _, a => (0, a)
  | n + 1, i, s, a =>
    let r := scan decval 10 3 0 s
    if r.2 = 0 ∨ (1 < r.2 ∧ s.head? = some '0') ∨ 255 < r.1 then (0, a)
    else
      let a := Function.update a i (UInt8.ofNat r.1)
      match s.drop r.2 with
      | [] => (if n = 0 then 1 else 0, a)
      | c :: rest => if c = '.' then ptonLoop n (i + 1) rest a else (0, a)

/-- What the loop for IPv6 found: the groups `ip[0]` to `ip[i]`, where the `::` is, and the rest of
the text if it is an IPv4 address. -/
structure Groups where
  ip : List ℕ
  brk : Option ℕ
  v4 : Option (List Char)
  deriving DecidableEq, Repr

/-- The loop of `inet_pton` for IPv6; `ip` are the groups so far, so that `i` is their number. -/
def groupLoop : ℕ → List Char → List ℕ → Option ℕ → Option Groups
  | 0, _, _, _ => none
  | n + 1, s, ip, brk =>
    if s.head? = some ':' ∧ brk = none then
      if s.tail = [] then some ⟨ip ++ [0], some ip.length, none⟩
      else if ip.length = 7 then none
      else groupLoop n s.tail (ip ++ [0]) (some ip.length)
    else
      let r := scan hexval 16 4 0 s
      if r.2 = 0 then none
      else
        match s.drop r.2 with
        | [] => if brk ≠ none ∨ ip.length = 7 then some ⟨ip ++ [r.1], brk, none⟩ else none
        | c :: rest =>
          if ip.length = 7 then none
          else if c = ':' then groupLoop n rest (ip ++ [r.1]) brk
          else if c ≠ '.' ∨ (ip.length < 6 ∧ brk = none) then none
          else some ⟨ip ++ [r.1, 0], brk, some s⟩

/-- The eight groups, with zeros in the place of `::`. -/
def expand (ip : List ℕ) : Option ℕ → List ℕ
  | none => ip
  | some brk => ip.take brk ++ List.replicate (8 - ip.length) 0 ++ ip.drop brk

def storeGroups (ip : List ℕ) (a : ℕ → UInt8) : ℕ → UInt8 := fun k =>
  if k < 16 then UInt8.ofNat (if k % 2 = 0 then ip.getD (k / 2) 0 / 256 else ip.getD
    (k / 2) 0 % 256) else a k

/-- `*s==':' && *++s!=':'`: nothing if so, and `s` otherwise. -/
def leadingColon (s : List Char) : Option (List Char) :=
  if s.head? = some ':' then (if s.tail.head? = some ':' then some s.tail else none) else some s

def inetPton (af : Family) (s : List Char) (a : ℕ → UInt8) : ℤ × (ℕ → UInt8) :=
  match af with
  | .inet => ptonLoop 4 0 s a
  | .inet6 =>
    match (leadingColon s).bind fun s => groupLoop 8 s [] none with
    | none => (0, a)
    | some r =>
      let a := storeGroups (expand r.ip r.brk) a
      match r.v4 with
      | none => (1, a)
      | some s =>
        if (ptonLoop 4 12 s a).1 ≤ 0 then (0, (ptonLoop 4 12 s a).2) else (1, (ptonLoop 4 12 s a).2)
  | .other => (-1, a)

/-! ### The grammar -/

def IsHexDigit (c : Char) (d : ℕ) : Prop := d < 16 ∧ (c = xdigit d ∨ c = (xdigit d).toUpper)

def IsGroup (t : List Char) (g : ℕ) : Prop :=
  t ≠ [] ∧ t.length ≤ 4 ∧ ∃ ds, Forall₂ IsHexDigit t ds ∧ g = value 16 0 ds

/-- Groups, the last two of which may be written as an IPv4 address. -/
inductive IsGroups : List (List Char) → List ℕ → Prop
  | nil : IsGroups [] []
  | dotted (b : ℕ → UInt8) : IsGroups [dotted b] [group b 0, group b 1]
  | cons {t g ts gs} : IsGroup t g → IsGroups ts gs → IsGroups (t :: ts) (g :: gs)

def join : List (List Char) → List Char
  | [] => []
  | [t] => t
  | t :: u :: ts => t ++ ':' :: join (u :: ts)

/-- The text of an IPv6 address, with its eight groups: all of them, or those before and after `::`,
which stands for one group at least. -/
inductive IsAddress : List Char → List ℕ → Prop
  | full {ts gs} (h : IsGroups ts gs) (hlen : gs.length = 8) : IsAddress (join ts) gs
  | gap {ts us pre post} (hpre : Forall₂ IsGroup ts pre) (hpost : IsGroups us post)
      (hlen : pre.length + post.length < 8) :
    IsAddress (join ts ++ ':' :: ':' :: join us)
      (pre ++ List.replicate (8 - (pre.length + post.length)) 0 ++ post)

/-! ### The loop as rules -/

/-- The ways through the body of the loop, with `i` groups and the gap at `brk` so far.  `gs` are
the groups to come, and the gap is at `k` in the end. -/
inductive Reads : ℕ → Option ℕ → List Char → List ℕ → Option ℕ → Prop
  | last {i brk t g} (h : IsGroup t g) (hi : i < 8) (hend : brk ≠ none ∨ i = 7) : Reads i brk t [g] brk
  | dotted {i brk} (b : ℕ → UInt8) (hi : i < 7) (hend : brk ≠ none ∨ i = 6) :
    Reads i brk (dotted b) [group b 0, group b 1] brk
  | next {i brk t g s gs k} (h : IsGroup t g) (hi : i < 7) (hr : Reads (i + 1) brk s gs k) :
    Reads i brk (t ++ ':' :: s) (g :: gs) k
  | gapEnd {i} (hi : i < 8) : Reads i none [':'] [0] (some i)
  | gap {i s gs k} (hi : i < 7) (hr : Reads (i + 1) (some i) s gs k) : Reads i none (':' :: s) (0 :: gs) k

/-! ### Digits -/

variable {c : Char} {s t rest : List Char} {ts : List (List Char)} {ip gs ds pre post : List ℕ}
    {brk : Option ℕ} {a b : ℕ → UInt8} {d g i k n : ℕ}

lemma hexval_xdigit : ∀ d < 16, hexval (xdigit d) = some d := by decide

lemma decval_xdigit : ∀ d < 10, decval (xdigit d) = some d := by decide

lemma xdigit_eq_zero_iff : ∀ d < 16, xdigit d = '0' ↔ d = 0 := by decide

lemma hexval_eq_some_iff : hexval c = some d ↔ IsHexDigit c d := by
  constructor
  · intro h
    have hlt : c.toNat < 128 := by
      have hle : c.toNat ≤ c.toNat ||| 32 := left_le_or
      unfold hexval at h
      split_ifs at h with hdec hhex
      · omega
      · omega
    have hall : ∀ n < 128, ∀ d ∈ hexval (Char.ofNat n), d < 16 ∧
        (Char.ofNat n = xdigit d ∨ Char.ofNat n = (xdigit d).toUpper) := by decide +kernel
    have hc := hall c.toNat hlt
    rw [Char.ofNat_toNat] at hc
    exact hc d h
  · rintro ⟨hd, rfl | rfl⟩
    · exact hexval_xdigit d hd
    · exact (by decide : ∀ d < 16, hexval (xdigit d).toUpper = some d) d hd

lemma decval_eq_some (h : decval c = some d) : d < 10 ∧ c = xdigit d := by
  unfold decval at h
  split_ifs at h with hc
  obtain rfl := Option.some.inj h
  have hlt : c.toNat - 48 < 10 := by omega
  refine ⟨hlt, ?_⟩
  rw [xdigit, if_pos hlt, Nat.add_sub_cancel' hc.1, Char.ofNat_toNat]

section

variable (h : IsGroup t g)

include h

lemma IsGroup.forall₂ : ∃ ds, Forall₂ (fun c d => hexval c = some d) t ds ∧ g = value 16 0 ds := by
  obtain ⟨-, -, ds, hds, hg⟩ := h
  exact ⟨ds, hds.imp fun c d => hexval_eq_some_iff.2, hg⟩

lemma IsGroup.scan_eq (hrest : Stops hexval rest) : scan hexval 16 4 0 (t ++ rest) = (g, t.length) := by
  obtain ⟨ds, hds, rfl⟩ := h.forall₂
  exact scan_append hds h.2.1 (.inr hrest)

lemma IsGroup.lt : g < 65536 := by
  obtain ⟨-, hlen, ds, hds, rfl⟩ := h
  have hlt : ∀ d ∈ ds, d < 16 := ((forall₂_and_left _ _).1 hds.flip).1
  calc value 16 0 ds < 16 ^ ds.length := value_lt (by decide) hlt
    _ ≤ 16 ^ 4 := Nat.pow_le_pow_right (by decide) (hds.length_eq ▸ hlen)

lemma IsGroup.head (rest : List Char) : (t ++ rest).head? ≠ some ':' := by
  obtain ⟨ds, hds, -⟩ := h.forall₂
  cases hds with
  | nil => exact absurd rfl h.1
  | cons hd _ =>
    intro hcolon
    rw [Option.some.inj hcolon] at hd
    cases hd

end

/-! ### IPv4 -/

lemma decText_valid (hn : n < 256) (rest : List Char) :
    ¬((decText n).length = 0 ∨ (1 < (decText n).length ∧ (decText n ++ rest).head? = some '0') ∨
      255 < n) := by
  intro hbad
  rcases hbad with hempty | ⟨hlong, hzero⟩ | hlarge
  · exact text_ne_nil n (length_eq_zero_iff.1 hempty)
  · obtain ⟨d, ds, hcons⟩ := exists_cons_of_ne_nil (numeral_ne_nil 10 n)
    have hlt : d < 10 := lt_of_mem_numeral (by decide) (by rw [hcons]; exact mem_cons_self)
    rw [decText, text, hcons, map_cons, cons_append, head?_cons, Option.some.injEq,
      xdigit_eq_zero_iff d (by omega)] at hzero
    have hn0 : n = 0 := by rw [← head_numeral_eq_zero_iff 10, hcons, hzero, head?_cons]
    subst hn0
    exact absurd hlong (by decide)
  · omega

/-- The digits `t` are those that `inet_pton` reads of `t ++ rest`. -/
def ReadsDigits (t rest : List Char) : Prop := t.length = 3 ∨ Stops decval rest

lemma scan_decText (hn : n < 256) (hrest : ReadsDigits (decText n) rest) :
    scan decval 10 3 0 (decText n ++ rest) = (n, (decText n).length) :=
  scan_text (by decide) (by decide) (by omega) decval_xdigit hrest

lemma ptonLoop_dot (hn : n < 256) (i : ℕ) (rest : List Char) (a : ℕ → UInt8) :
    ptonLoop (k + 1) i (decText n ++ '.' :: rest) a =
    ptonLoop k (i + 1) rest (update a i (UInt8.ofNat n)) := by
  have hstop : Stops decval ('.' :: rest) := stops_cons (by decide)
  simp only [ptonLoop, scan_decText hn (.inr hstop), if_neg (decText_valid hn _), drop_left, if_true]

lemma ptonLoop_last (hn : n < 256) (i : ℕ) (a : ℕ → UInt8) :
    ptonLoop 1 i (decText n) a = (1, update a i (UInt8.ofNat n)) := by
  have hscan := scan_decText hn (.inr stops_nil)
  have hvalid := decText_valid hn []
  rw [append_nil] at hscan hvalid
  simp only [ptonLoop, hscan, if_neg hvalid, drop_length, if_true]

lemma ptonLoop_dotted (i : ℕ) (a m : ℕ → UInt8) :
    ptonLoop 4 i (dotted a) m = (1, fun k => if i ≤ k ∧ k < i + 4 then a (k - i) else m k) := by
  have hlt : ∀ k, (a k).toNat < 256 := fun k => (a k).toNat_lt
  rw [dotted, ptonLoop_dot (hlt 0), ptonLoop_dot (hlt 1), ptonLoop_dot (hlt 2), ptonLoop_last (hlt 3)]
  simp only [UInt8.ofNat_toNat]
  congr 1
  funext k
  simp only [update_apply]
  split_ifs
  all_goals first | rfl | omega | exact congrArg a (by omega)

/-- Digits that are not refused are the text of a byte. -/
lemma exists_octet
    (hbad : ¬((scan decval 10 3 0 s).2 = 0 ∨ (1 < (scan decval 10 3 0 s).2 ∧ s.head? = some '0') ∨
    255 < (scan decval 10 3 0 s).1)) : ∃ v < 256, ∃ rest,
    s = decText v ++ rest ∧ ReadsDigits (decText v) rest := by
  obtain ⟨t, ds, rest, rfl, ht, -, hrest, hscan⟩ := exists_scan decval 10 3 0 s
  obtain ⟨hds, htext⟩ := (forall₂_and_left _ _).1 (ht.imp fun c d => decval_eq_some).flip
  obtain rfl : t = ds.map xdigit := by
    rw [← forall₂_eq_eq_eq, forall₂_map_right_iff]
    exact htext.flip
  rw [length_map] at hscan
  rw [hscan, not_or, not_or] at hbad
  obtain ⟨hne, hlead, hle⟩ := hbad
  have hdec : ds.map xdigit = decText (value 10 0 ds) := by
    rw [decText, text, numeral_value (by decide) hds (fun hnil => hne (by rw [hnil]; rfl))]
    intro hlong hzero
    obtain ⟨ds, rfl⟩ := head?_eq_some_iff.1 hzero
    exact hlead ⟨hlong, rfl⟩
  rw [hdec] at hrest ⊢
  exact ⟨value 10 0 ds, by omega, rest, rfl, hrest⟩

lemma ptonLoop_pos (h : 0 < (ptonLoop (n + 1) i s a).1) : ∃ v < 256, (n = 0 ∧ s = decText v) ∨
      ∃ rest a', s = decText v ++ '.' :: rest ∧ 0 < (ptonLoop n (i + 1) rest a').1 := by
  rw [ptonLoop] at h
  by_cases hbad : (scan decval 10 3 0 s).2 = 0 ∨ (1 < (scan decval 10 3 0 s).2 ∧ s.head? = some '0') ∨
    255 < (scan decval 10 3 0 s).1
  · simp only [if_pos hbad] at h
    exact absurd h (lt_irrefl 0)
  obtain ⟨v, hv, rest, rfl, hrest⟩ := exists_octet hbad
  simp only [scan_decText hv hrest, if_neg (decText_valid hv _), drop_left] at h
  refine ⟨v, hv, ?_⟩
  cases rest with
  | nil =>
    refine .inl ⟨?_, append_nil _⟩
    by_contra hn
    simp [hn] at h
  | cons c rest =>
    dsimp only at h
    split_ifs at h with hc
    · exact .inr ⟨rest, _, by rw [hc], h⟩
    · exact absurd h (lt_irrefl 0)

lemma exists_dotted (h : 0 < (ptonLoop 4 i s a).1) : ∃ b, s = dotted b := by
  obtain ⟨v0, h0, ⟨hn, -⟩ | ⟨s1, a1, rfl, hs1⟩⟩ := ptonLoop_pos h
  · cases hn
  obtain ⟨v1, h1, ⟨hn, -⟩ | ⟨s2, a2, rfl, hs2⟩⟩ := ptonLoop_pos hs1
  · cases hn
  obtain ⟨v2, h2, ⟨hn, -⟩ | ⟨s3, a3, rfl, hs3⟩⟩ := ptonLoop_pos hs2
  · cases hn
  obtain ⟨v3, h3, ⟨-, rfl⟩ | ⟨s4, a4, -, hs4⟩⟩ := ptonLoop_pos hs3
  · refine ⟨fun k => UInt8.ofNat ([v0, v1, v2, v3].getD k 0), ?_⟩
    simp [dotted, mod_eq_of_lt h0, mod_eq_of_lt h1, mod_eq_of_lt h2, mod_eq_of_lt h3]
  · exact absurd hs4 (lt_irrefl 0)

/-! ### What the loop reads -/

/-- What `inet_pton` does after the loop. -/
def Groups.store (r : Groups) (a : ℕ → UInt8) : ℤ × (ℕ → UInt8) :=
  let a := storeGroups (expand r.ip r.brk) a
  match r.v4 with
  | none => (1, a)
  | some s => if (ptonLoop 4 12 s a).1 ≤ 0 then (0, (ptonLoop 4 12 s a).2) else (1, (ptonLoop 4 12 s a).2)

lemma inetPton_inet6 (s : List Char) (a : ℕ → UInt8) : inetPton .inet6 s a =
      match (leadingColon s).bind fun s => groupLoop 8 s [] none with
      | none => (0, a)
      | some r => r.store a := rfl

lemma storeGroups_group (m : ℕ → UInt8) (hk : k < 16) (hip : ip.getD (k / 2) 0 = group a (k / 2)) :
    storeGroups ip m k = a k := by
  have hlow := (a (2 * (k / 2) + 1)).toNat_lt
  simp only [storeGroups, if_pos hk, hip, group]
  by_cases heven : k % 2 = 0
  · have hindex : 2 * (k / 2) = k := by omega
    rw [if_pos heven, show (256 * (a (2 * (k / 2))).toNat + (a (2 * (k / 2) + 1)).toNat) / 256 =
      (a (2 * (k / 2))).toNat by omega, UInt8.ofNat_toNat, hindex]
  · have hindex : 2 * (k / 2) + 1 = k := by omega
    rw [if_neg heven, show (256 * (a (2 * (k / 2))).toNat + (a (2 * (k / 2) + 1)).toNat) % 256 =
      (a (2 * (k / 2) + 1)).toNat by omega, UInt8.ofNat_toNat, hindex]

section

variable (hbrk : ∀ j, brk = some j → j < ip.length) (hend : brk ≠ none ∨ ip.length = 6)
    (hlen : ip.length < 7)

include hbrk hend hlen

lemma expand_append : ∃ e, e.length = 6 ∧ ∀ x y, expand (ip ++ [x, y]) brk = e ++ [x, y] := by
  cases brk with
  | none => exact ⟨ip, hend.resolve_left fun h => h rfl, fun x y => rfl⟩
  | some j =>
    have hj := hbrk j rfl
    refine ⟨ip.take j ++ replicate (6 - ip.length) 0 ++ ip.drop j, ?_, fun x y => ?_⟩
    · simp only [length_append, length_take, length_replicate, length_drop]
      omega
    · rw [expand, length_append, take_append_of_le_length hj.le, drop_append_of_le_length hj.le,
        show 8 - (ip.length + [x, y].length) = 6 - ip.length by
          simp only [length_cons, length_nil]; omega]
      simp

lemma store_dotted (b a : ℕ → UInt8) (x : ℕ) : (Groups.mk (ip ++ [x, 0]) brk (some (dotted b))).store a =
      (1, storeGroups (expand (ip ++ [group b 0, group b 1]) brk) a) := by
  obtain ⟨e, he, hexpand⟩ := expand_append hbrk hend hlen
  simp only [Groups.store, ptonLoop_dotted, hexpand]
  rw [if_neg (by decide)]
  congr 1
  funext k
  split_ifs with hk
  · refine (storeGroups_group (a := fun k => b (k - 12)) a hk.2 ?_).symm
    obtain hk | hk : k / 2 = 6 ∨ k / 2 = 7 := by omega
    · rw [hk, ← he, getD_append_right _ _ _ _ le_rfl, he]
      rfl
    · rw [hk, getD_append_right _ _ _ _ (by omega), he]
      rfl
  · simp only [storeGroups]
    split_ifs with h16 heven
    · rw [getD_append _ _ _ _ (by omega), getD_append _ _ _ _ (by omega)]
    · rw [getD_append _ _ _ _ (by omega), getD_append _ _ _ _ (by omega)]
    · rfl

end

variable {k' : Option ℕ}

lemma groupLoop_last (h : IsGroup t g) (hend : brk ≠ none ∨ ip.length = 7) :
    groupLoop (n + 1) t ip brk = some ⟨ip ++ [g], brk, none⟩ := by
  have hne : t.length ≠ 0 := fun hzero => h.1 (length_eq_zero_iff.1 hzero)
  have hhead := h.head []
  have hscan := h.scan_eq stops_nil
  rw [append_nil] at hhead hscan
  simp [groupLoop, hhead, hscan, hne, if_pos hend]

lemma groupLoop_colon (h : IsGroup t g) (hlen : ip.length ≠ 7) (rest : List Char) :
    groupLoop (n + 1) (t ++ ':' :: rest) ip brk = groupLoop n rest (ip ++ [g]) brk := by
  have hne : t.length ≠ 0 := fun hzero => h.1 (length_eq_zero_iff.1 hzero)
  have hstop : Stops hexval (':' :: rest) := stops_cons rfl
  simp only [groupLoop, h.head, false_and, if_false, h.scan_eq hstop, hne, drop_left, hlen, if_true]

lemma groupLoop_dot (h : IsGroup t g) (hlen : ip.length ≠ 7) (hend : brk ≠ none ∨ ip.length = 6)
    (rest : List Char) :
    groupLoop (n + 1) (t ++ '.' :: rest) ip brk = some ⟨ip ++ [g, 0], brk, some (t ++ '.' :: rest)⟩ := by
  have hne : t.length ≠ 0 := fun hzero => h.1 (length_eq_zero_iff.1 hzero)
  have hstop : Stops hexval ('.' :: rest) := stops_cons rfl
  have hdot : '.' ≠ ':' := by decide
  have hlast : ¬(ip.length < 6 ∧ brk = none) := by
    rintro ⟨hlt, hnone⟩
    rcases hend with hsome | hsix
    · exact hsome hnone
    · omega
  simp only [groupLoop, h.head, false_and, if_false, h.scan_eq hstop, hne, drop_left, hlen, hdot,
    hlast, ne_eq, not_true,
    or_self]

lemma isGroup_decText (hn : n < 256) : ∃ g, IsGroup (decText n) g := by
  refine ⟨_, text_ne_nil n, length_text_le (by decide) (by decide) (by omega), numeral 10 n, ?_, rfl⟩
  refine (digits_map fun d hd => hexval_xdigit d ?_).imp fun c d => hexval_eq_some_iff.1
  exact (lt_of_mem_numeral (by decide) hd).trans (by decide)

lemma Reads.ne_nil (h : Reads i brk s gs k') : s ≠ [] := by
  cases h with
  | last h _ _ => exact h.1
  | dotted b _ _ => simp [Network.dotted]
  | next _ _ _ => simp
  | gapEnd _ => exact cons_ne_nil _ _
  | gap _ _ => exact cons_ne_nil _ _

lemma groupLoop_of_reads (h : Reads i brk s gs k') (hi : i = ip.length) (hn : n + i = 8)
    (hbrk : ∀ j, brk = some j → j < ip.length) (a : ℕ → UInt8) :
    ∃ r, groupLoop n s ip brk = some r ∧ r.store a = (1, storeGroups (expand (ip ++ gs) k') a) := by
  induction h generalizing n ip with
  | @last i brk t g h hlt hend =>
    obtain _ | n := n
    · omega
    subst hi
    exact ⟨_, groupLoop_last h hend, rfl⟩
  | @dotted i brk b hlt hend =>
    obtain _ | n := n
    · omega
    subst hi
    obtain ⟨g, hg⟩ := isGroup_decText (b 0).toNat_lt
    exact ⟨_, groupLoop_dot hg hlt.ne hend _, store_dotted hbrk hend hlt b a g⟩
  | @next i brk t g s gs k' h hlt hr ih =>
    obtain _ | n := n
    · omega
    subst hi
    obtain ⟨r, hloop, hstore⟩ : ∃ r, groupLoop n s (ip ++ [g]) brk = some r ∧ _ :=
      ih (by simp) (by omega) fun j hj => (hbrk j hj).trans (by simp)
    exact ⟨r, (groupLoop_colon h hlt.ne s).trans hloop, by rw [hstore, append_assoc, singleton_append]⟩
  | @gapEnd i hlt =>
    obtain _ | n := n
    · omega
    subst hi
    exact ⟨_, rfl, rfl⟩
  | @gap i s gs k' hlt hr ih =>
    obtain _ | n := n
    · omega
    subst hi
    obtain ⟨r, hloop, hstore⟩ : ∃ r, groupLoop n s (ip ++ [0]) (some ip.length) = some r ∧ _ :=
      ih (by simp) (by omega) fun j hj => by
        rw [← Option.some.inj hj]
        simp
    refine ⟨r, ?_, by rw [hstore, append_assoc, singleton_append]⟩
    simp [groupLoop, if_neg hr.ne_nil, if_neg hlt.ne, hloop]

lemma reads_of_groupLoop {r : Groups} (h : groupLoop n s ip brk = some r) (hn : n + ip.length = 8)
    (hr : 0 < (r.store a).1) : ∃ gs k', Reads ip.length brk s gs k' := by
  induction n generalizing s ip brk with
  | zero => cases h
  | succ n ih =>
    have hlen : ∀ g, n + (ip ++ [g]).length = 8 := fun g => by
      rw [length_append, length_singleton]
      omega
    rw [groupLoop] at h
    by_cases hgap : s.head? = some ':' ∧ brk = none
    · obtain ⟨hcolon, rfl⟩ := hgap
      obtain ⟨s, rfl⟩ := head?_eq_some_iff.1 hcolon
      rw [if_pos ⟨hcolon, rfl⟩, tail_cons] at h
      by_cases hs : s = []
      · subst hs
        exact ⟨_, _, .gapEnd (by omega)⟩
      split_ifs at h with h7
      obtain ⟨gs, k', hreads⟩ := ih h (hlen 0)
      rw [length_append] at hreads
      exact ⟨_, _, .gap (by omega) hreads⟩
    · obtain ⟨t, ds, rest, rfl, ht, hle, -, hscan⟩ := exists_scan hexval 16 4 0 s
      by_cases hzero : t.length = 0
      · simp only [if_neg hgap, hscan, if_pos hzero] at h
        cases h
      simp only [hscan, drop_left] at h
      have hg : IsGroup t (value 16 0 ds) :=
        ⟨fun hnil => hzero (by rw [hnil]; rfl), hle, ds, ht.imp fun c d => hexval_eq_some_iff.1, rfl⟩
      cases rest with
      | nil =>
        dsimp only at h
        split_ifs at h with hend
        rw [append_nil]
        exact ⟨_, _, .last hg (by omega) hend⟩
      | cons c rest =>
        dsimp only at h
        split_ifs at h with h7 hcolon hdot
        · obtain ⟨gs, k', hreads⟩ := ih h (hlen _)
          rw [length_append] at hreads
          rw [hcolon]
          exact ⟨_, _, .next hg (by omega) hreads⟩
        · obtain rfl := Option.some.inj h
          simp only [Groups.store] at hr
          split_ifs at hr with hpos
          · exact absurd hr (lt_irrefl 0)
          obtain ⟨b, hb⟩ := exists_dotted (not_le.1 hpos)
          rw [hb]
          refine ⟨_, _, .dotted b (by omega) ?_⟩
          by_contra hnot
          rw [not_or, not_not] at hnot hdot
          exact hdot.2 ⟨by omega, hnot.1⟩

/-! ### The grammar and the rules -/

lemma join_cons (t : List Char) (hts : ts ≠ []) : join (t :: ts) = t ++ ':' :: join ts := by
  obtain ⟨u, -, rfl⟩ := exists_cons_of_ne_nil hts
  rfl

lemma Reads.isGroups (h : Reads i brk s gs k') :
    (∃ ts, ts ≠ [] ∧ IsGroups ts gs ∧ s = join ts ∧ k' = brk ∧ i + gs.length ≤ 8 ∧
      (brk = none → i + gs.length = 8)) ∨
      brk = none ∧ ∃ ts us pre post, Forall₂ IsGroup ts pre ∧ IsGroups us post ∧
        s = ts.flatMap (· ++ [':']) ++ ':' :: join us ∧ gs = pre ++ 0 :: post ∧
        k' = some (i + pre.length) ∧
        i + pre.length + post.length < 8 := by
  induction h with
  | @last i brk t g h hi hend =>
    refine .inl ⟨[t], cons_ne_nil _ _, .cons h .nil, rfl, rfl, by rw [length_singleton]; omega,
      fun hnone => ?_⟩
    rw [hend.resolve_left fun hsome => hsome hnone]
    rfl
  | @dotted i brk b hi hend =>
    refine .inl ⟨_, cons_ne_nil _ _, .dotted b, rfl,
      rfl, by simp only [length_cons, length_nil]; omega, fun hnone => ?_⟩
    rw [hend.resolve_left fun hsome => hsome hnone]
    rfl
  | @next i brk t g s gs k' h hi hr ih =>
    rcases ih with ⟨ts, hne, hts, rfl, hk, hle, hfull⟩ | ⟨hbrk, ts, us, pre, post, hpre, hpost, rfl,
      rfl, hk, hlen⟩
    · refine .inl ⟨t :: ts, cons_ne_nil _ _, .cons h hts, (join_cons t hne).symm, hk, ?_, fun hnone => ?_⟩
      · rw [length_cons]
        omega
      · rw [length_cons, ← hfull hnone]
        omega
    · refine .inr ⟨hbrk, t :: ts, us, g :: pre, post, .cons h hpre, hpost, ?_, rfl, ?_, ?_⟩
      · simp
      · rw [hk, length_cons, add_right_comm, add_assoc]
      · rw [length_cons]
        omega
  | @gapEnd i hi => exact .inr ⟨rfl, [], [], [], [], .nil, .nil, rfl, rfl, rfl, hi⟩
  | @gap i s gs k' hi hr ih =>
    rcases ih with ⟨ts, -, hts, rfl, hk, hle, -⟩ | ⟨hbrk, -⟩
    · exact .inr ⟨rfl, [], ts, [], gs, .nil, hts, rfl, rfl, hk, by rw [length_nil]; omega⟩
    · cases hbrk

lemma IsGroups.pos (h : IsGroups ts gs) (hts : ts ≠ []) : 0 < gs.length := by
  cases h with
  | nil => exact absurd rfl hts
  | dotted b => exact zero_lt_succ _
  | cons _ _ => exact zero_lt_succ _

lemma reads_groups (h : IsGroups ts gs) (hts : ts ≠ []) (hlen : i + gs.length ≤ 8)
    (hend : brk ≠ none ∨ i + gs.length = 8) : Reads i brk (join ts) gs brk := by
  induction h generalizing i with
  | nil => exact absurd rfl hts
  | dotted b =>
    simp only [length_cons, length_nil] at hlen hend
    exact .dotted b (by omega) (hend.imp_right fun h8 => by omega)
  | @cons t g ts gs h hgs ih =>
    rw [length_cons] at hlen hend
    by_cases hnil : ts = []
    · subst hnil
      cases hgs with
      | nil => exact .last h (by omega) (hend.imp_right fun h8 => by simpa using h8)
    · rw [join_cons t hnil]
      have hpos := hgs.pos hnil
      exact .next h (by omega) (ih hnil (by omega) (hend.imp_right fun h8 => by omega))

lemma reads_front {ts : List (List Char)} (h : Forall₂ IsGroup ts pre) (hlen : i + pre.length < 8)
    (hr : Reads (i + pre.length) brk s gs k') : Reads i brk (ts.flatMap (· ++ [':']) ++ s)
    (pre ++ gs) k' := by
  induction h generalizing i with
  | nil => exact hr
  | @cons t g ts pre h _ ih =>
    rw [length_cons] at hlen hr
    rw [flatMap_cons, append_assoc, append_assoc]
    exact .next h (by omega) (ih (by omega) (by rwa [add_right_comm]))

lemma flatMap_colon (hts : ts ≠ []) (s : List Char) :
    ts.flatMap (· ++ [':']) ++ s = join ts ++ ':' :: s := by
  induction ts with
  | nil => exact absurd rfl hts
  | cons t ts ih =>
    by_cases hnil : ts = []
    · simp [hnil, join]
    · rw [flatMap_cons, append_assoc, ih hnil, join_cons t hnil]
      simp

lemma isGroups_of_forall₂ (h : Forall₂ IsGroup ts pre) : IsGroups ts pre := by
  induction h with
  | nil => exact .nil
  | cons h _ ih => exact .cons h ih

lemma IsGroups.head (h : IsGroups ts gs) (hts : ts ≠ []) (rest : List Char) :
    (join ts ++ rest).head? ≠ some ':' := by
  cases h with
  | nil => exact absurd rfl hts
  | dotted b =>
    obtain ⟨g, hg⟩ := isGroup_decText (b 0).toNat_lt
    rw [join, Network.dotted, append_assoc]
    exact hg.head _
  | @cons t g ts gs h _ =>
    by_cases hnil : ts = []
    · rw [hnil]
      exact h.head rest
    · rw [join_cons t hnil, append_assoc]
      exact h.head _

lemma group_lt (a : ℕ → UInt8) (k : ℕ) : group a k < 65536 := by
  have hhigh := (a (2 * k)).toNat_lt
  have hlow := (a (2 * k + 1)).toNat_lt
  simp only [group]
  omega

lemma IsGroups.lt (h : IsGroups ts gs) : ∀ g ∈ gs, g < 65536 := by
  induction h with
  | nil => exact forall_mem_nil _
  | dotted b => exact forall_mem_cons.2 ⟨group_lt b 0, forall_mem_singleton.2 (group_lt b 1)⟩
  | cons h _ ih => exact forall_mem_cons.2 ⟨h.lt, ih⟩

/-! ### Addresses -/

lemma expand_gap (pre post : List ℕ) (hlen : pre.length + post.length < 8) :
    expand (pre ++ 0 :: post)
    (some pre.length) = pre ++ replicate (8 - (pre.length + post.length)) 0 ++ post := by
  have hcount : 8 - (pre.length + post.length) = 8 - (pre ++ 0 :: post).length + 1 := by
    rw [length_append, length_cons]
    omega
  rw [expand, hcount, take_left, drop_left, replicate_succ']
  simp

lemma IsAddress.reads (h : IsAddress s gs) :
    ∃ t gs' k', leadingColon s = some t ∧ Reads 0 none t gs' k' ∧ expand gs' k' = gs := by
  cases h with
  | @full ts gs h hlen =>
    have hts : ts ≠ [] := by
      rintro rfl
      cases h
      cases hlen
    have hhead := h.head hts []
    rw [append_nil] at hhead
    exact ⟨join ts, gs, none, if_neg hhead, reads_groups h hts (by omega) (.inr (by omega)), rfl⟩
  | @gap ts us pre post hpre hpost hlen =>
    have hgap : Reads (0 + pre.length) none (':' :: join us) (0 :: post) (some (0 + pre.length)) := by
      by_cases hus : us = []
      · subst hus
        cases hpost
        exact .gapEnd (by omega)
      · have hpos := hpost.pos hus
        exact .gap (by omega) (reads_groups hpost hus (by omega) (.inl (Option.some_ne_none _)))
    have hreads := reads_front hpre (by omega) hgap
    rw [zero_add] at hreads
    refine ⟨_, _, _, ?_, hreads, expand_gap pre post hlen⟩
    by_cases hts : ts = []
    · subst hts
      rfl
    · rw [flatMap_colon hts, leadingColon, if_neg ((isGroups_of_forall₂ hpre).head hts _)]

lemma inetPton_of_isAddress (h : IsAddress s gs) (a : ℕ → UInt8) :
    inetPton .inet6 s a = (1, storeGroups gs a) := by
  obtain ⟨t, gs', k', hlead, hreads, rfl⟩ := h.reads
  obtain ⟨r, hloop, hstore⟩ : ∃ r, groupLoop 8 t [] none = some r ∧ _ :=
    groupLoop_of_reads hreads rfl rfl (fun j hj => by cases hj) a
  rw [inetPton_inet6, hlead, Option.bind_some, hloop]
  exact hstore

lemma leadingColon_of_head (h : leadingColon s = some t) (ht : t.head? ≠ some ':') : s = t := by
  rw [leadingColon] at h
  split_ifs at h with hs htail
  · exact absurd (Option.some.inj h ▸ htail) ht
  · exact Option.some.inj h

lemma isAddress_of_inetPton (h : 0 < (inetPton .inet6 s a).1) : ∃ gs, IsAddress s gs := by
  rw [inetPton_inet6] at h
  cases hlead : leadingColon s with
  | none =>
    rw [hlead] at h
    exact absurd h (lt_irrefl 0)
  | some t =>
    rw [hlead, Option.bind_some] at h
    cases hloop : groupLoop 8 t [] none with
    | none =>
      rw [hloop] at h
      exact absurd h (lt_irrefl 0)
    | some r =>
      rw [hloop] at h
      obtain ⟨gs, k', hreads⟩ := reads_of_groupLoop hloop rfl h
      rcases hreads.isGroups with ⟨ts, hts, hgs, rfl, -, -, hfull⟩ |
        ⟨-, ts, us, pre, post, hpre, hpost, rfl, -, -, hlen⟩
      · have hhead := hgs.head hts []
        rw [append_nil] at hhead
        rw [leadingColon_of_head hlead hhead]
        exact ⟨gs, .full hgs (by simpa using hfull rfl)⟩
      rw [length_nil, zero_add] at hlen
      by_cases hts : ts = []
      · subst hts
        obtain rfl : s = ':' :: ':' :: join us := by
          rw [leadingColon] at hlead
          split_ifs at hlead with hs htail
          · obtain ⟨s, rfl⟩ := head?_eq_some_iff.1 hs
            exact congrArg (cons ':') (Option.some.inj hlead)
          · rw [Option.some.inj hlead] at hs
            exact absurd rfl hs
        exact ⟨_, .gap hpre hpost hlen⟩
      · rw [flatMap_colon hts] at hlead
        rw [leadingColon_of_head hlead ((isGroups_of_forall₂ hpre).head hts _)]
        exact ⟨_, .gap hpre hpost hlen⟩

lemma IsAddress.getD_lt (h : IsAddress s gs) (k : ℕ) : gs.getD k 0 < 65536 := by
  have hall : ∀ g ∈ gs, g < 65536 := by
    cases h with
    | full h _ => exact h.lt
    | gap hpre hpost _ =>
      intro g hg
      simp only [mem_append, mem_replicate] at hg
      rcases hg with (hg | ⟨-, rfl⟩) | hg
      · exact (isGroups_of_forall₂ hpre).lt g hg
      · decide
      · exact hpost.lt g hg
  rw [getD_eq_getElem?_getD]
  cases hget : gs[k]? with
  | none => decide
  | some g => exact hall g (mem_of_getElem? hget)

lemma group_storeGroups (hk : k < 8) (hip : ip.getD k 0 < 65536) (a : ℕ → UInt8) :
    group (storeGroups ip a) k = ip.getD k 0 := by
  have hhigh : (2 * k) / 2 = k := by omega
  have hlow : (2 * k + 1) / 2 = k := by omega
  simp only [group, storeGroups, if_pos (show 2 * k < 16 by omega), if_pos (show 2 * k + 1 < 16 by omega),
    if_pos (show 2 * k % 2 = 0 by omega), if_neg (show ¬(2 * k + 1) % 2 = 0 by omega), hhigh, hlow,
    UInt8.toNat_ofNat']
  omega

/-- **`inet_pton` for IPv6** accepts the texts of addresses and no others, and stores the address. -/
theorem inetPton_inet6_iff (s : List Char) (a : ℕ → UInt8) :
    ((inetPton .inet6 s a).1 = 1 ↔ ∃ gs, IsAddress s gs) ∧
      ∀ gs, IsAddress s gs → (∀ k < 8, group (inetPton .inet6 s a).2 k = gs.getD k 0) ∧
        ∀ k, 16 ≤ k → (inetPton .inet6 s a).2 k = a k := by
  refine ⟨⟨fun h => isAddress_of_inetPton (by rw [h]; decide), ?_⟩, fun gs h => ?_⟩
  · rintro ⟨gs, h⟩
    rw [inetPton_of_isAddress h a]
  · rw [inetPton_of_isAddress h a]
    exact ⟨fun k hk => group_storeGroups hk (h.getD_lt k) a, fun k hk => if_neg (by omega)⟩

end Musl.Network
