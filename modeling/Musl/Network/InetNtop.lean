import Musl.Network.InetPton

/-!
# Addresses as text

`inet_ntop` prints an address.  For IPv6 the text is printed in full first, and then one run of zero
groups is replaced by `::`, found by a search in the text itself: a stretch of the characters `:`
and `0` that begins at a colon or at the start.
-/

namespace Musl.Network

open Musl.Lib.Numeral List Option Nat

/-! ### The code -/

/-- `%x` -/
def hexText (n : ℕ) : List Char := text xdigit 16 n

/-- Groups with a colon after each, `"%x:%x:"` and so on. -/
def colons (gs : List ℕ) : List Char := gs.flatMap fun g => hexText g ++ [':']

/-- `strspn(s, ":0")` -/
def spanZeros (s : List Char) : ℕ := (s.takeWhile fun c => c = ':' ∨ c = '0').length

/-- The search for a stretch of zeros: `best` and `max` at the end of the loop. -/
def findZeros : List Char → ℕ → ℕ → ℕ → ℕ × ℕ
  | [], _, best, max => (best, max)
  | c :: s, i, best, max =>
    if i ≠ 0 ∧ c ≠ ':' then findZeros s (i + 1) best max
    else if max + (if best = 0 then 1 else 0) <
    spanZeros (c :: s) then findZeros s (i + 1) i (spanZeros (c :: s))
    else findZeros s (i + 1) best max

/-- Replaces the stretch that was found by `::`. -/
def compress (buf : List Char) : List Char :=
  let r := findZeros buf 0 0 2
  if 3 < r.2 then buf.take r.1 ++ [':', ':'] ++ buf.drop (r.1 + r.2) else buf

/-- The first twelve bytes are those of an IPv4 address in IPv6. -/
def mapped (a : ℕ → UInt8) : Bool := (List.range 12).map a == [0, 0, 0, 0, 0, 0, 0, 0, 0, 0, 255, 255]

def fullText (a : ℕ → UInt8) : List Char :=
  if mapped a then colons ((List.range 6).map (group a)) ++ dotted (fun k => a (12 + k))
  else colons ((List.range 7).map (group a)) ++ hexText (group a 7)

/-- `inet_ntop` with a buffer of `l` bytes. -/
def inetNtop (af : Family) (a : ℕ → UInt8) (l : ℕ) : Option (List Char) :=
  match af with
  | .inet => if (dotted a).length < l then some (dotted a) else none
  | .inet6 => if (compress (fullText a)).length < l then some (compress (fullText a)) else none
  | .other => none

/-! ### Digits -/

lemma xdigit_ne_colon : ∀ d < 16, xdigit d ≠ ':' := by decide

lemma colon_notMem_hexText (g : ℕ) : ':' ∉ hexText g := by
  intro hmem
  obtain ⟨d, hd, heq⟩ := mem_map.1 hmem
  exact xdigit_ne_colon d (lt_of_mem_numeral (by decide) hd) heq

lemma hexText_zero : hexText 0 = ['0'] := by decide

variable {g n i k : ℕ} {rest : List Char} {ip gs : List ℕ} {brk : Option ℕ} {a : ℕ → UInt8}

lemma hexText_of_ne_zero (hg : g ≠ 0) : ∃ c s, hexText g = c :: s ∧ c ≠ ':' ∧ c ≠ '0' := by
  obtain ⟨d, ds, hcons⟩ := exists_cons_of_ne_nil (numeral_ne_nil 16 g)
  have hlt : d < 16 := lt_of_mem_numeral (by decide) (by rw [hcons]; exact mem_cons_self)
  have hd : d ≠ 0 := by
    intro hzero
    apply hg
    rw [← head_numeral_eq_zero_iff 16, hcons, hzero, head?_cons]
  refine ⟨xdigit d, ds.map xdigit, ?_, xdigit_ne_colon d hlt,
    fun hzero => hd ((xdigit_eq_zero_iff d hlt).1 hzero)⟩
  rw [hexText, text, hcons, map_cons]

/-! ### The text of groups -/

def groupText : List ℕ → List Char
  | [] => []
  | [g] => hexText g
  | g :: g' :: gs => hexText g ++ ':' :: groupText (g' :: gs)

lemma colons_cons (g : ℕ) (gs : List ℕ) : colons (g :: gs) = hexText g ++ ':' :: colons gs := by
  simp [colons]

lemma groupText_append (pre : List ℕ) (g : ℕ) (post : List ℕ) :
    groupText (pre ++ g :: post) = colons pre ++ groupText (g :: post) := by
  induction pre with
  | nil => rfl
  | cons h pre ih =>
    simp only [colons_cons, append_assoc, cons_append, ← ih]
    cases pre <;> rfl

/-! ### The search for zeros -/

lemma spanZeros_cons_of_ne {c : Char} (hcolon : c ≠ ':') (hzero : c ≠ '0') (s : List Char) :
    spanZeros (c :: s) = 0 := by
  simp [spanZeros, hcolon, hzero]

lemma spanZeros_colon (s : List Char) : spanZeros (':' :: s) = spanZeros s + 1 := by
  simp [spanZeros]

lemma spanZeros_zero (s : List Char) : spanZeros ('0' :: s) = spanZeros s + 1 := by
  simp [spanZeros]

lemma spanZeros_le (s : List Char) : spanZeros s ≤ s.length := ( takeWhile_prefix _).length_le

/-- A stretch of zeros and colons at the start of a text of groups ends with a group: it is made of
zero groups, and what follows it is the text of the others. -/
lemma spanZeros_groupText (gs : List ℕ) :
    ∃ z rest, gs = replicate z 0 ++ rest ∧ (groupText gs).drop (spanZeros (groupText gs)) =
    groupText rest ∧
      spanZeros (groupText gs) ≤ 2 * z := by
  induction gs with
  | nil => exact ⟨0, [], rfl, rfl, le_rfl⟩
  | cons g gs ih =>
    by_cases hg : g = 0
    · subst hg
      match gs, ih with
      | [], _ => exact ⟨1, [], rfl, by decide, by decide⟩
      | g' :: gs, ih =>
        obtain ⟨z, rest, hsplit, hdrop, hspan⟩ := ih
        refine ⟨z + 1, rest, by rw [hsplit, replicate_succ, cons_append], ?_, ?_⟩
        · exact hdrop
        · rw [groupText, hexText_zero, singleton_append, spanZeros_zero, spanZeros_colon]
          omega
    · obtain ⟨c, s, htext, hcolon, hzero⟩ := hexText_of_ne_zero hg
      have hspan : spanZeros (groupText (g :: gs)) = 0 := by
        match gs with
        | [] => rw [groupText, htext, spanZeros_cons_of_ne hcolon hzero]
        | g' :: gs => rw [groupText, htext, cons_append, spanZeros_cons_of_ne hcolon hzero]
      exact ⟨0, g :: gs, rfl, by rw [hspan, drop_zero], by rw [hspan]⟩

lemma groupText_drop_colon (h : (groupText gs).drop i = ':' :: rest) :
    ∃ pre post, gs = pre ++ post ∧ pre ≠ [] ∧ (groupText gs).take i ++ [':'] = colons pre ∧
    rest = groupText post := by
  induction gs generalizing i with
  | nil => simp [groupText] at h
  | cons g gs ih =>
    have hmem : ∀ s t, (hexText g).drop i ++ s = ':' :: t → i < (hexText g).length → False := by
      intro s t heq hlt
      rw [drop_eq_getElem_cons hlt, cons_append, cons.injEq] at heq
      exact colon_notMem_hexText g (heq.1 ▸ getElem_mem hlt)
    cases gs with
    | nil =>
      rw [groupText] at h
      rcases lt_or_ge i (hexText g).length with hlt | hge
      · exact (hmem [] rest (by rw [append_nil, h]) hlt).elim
      · rw [drop_of_length_le hge] at h
        cases h
    | cons g' gs =>
      rw [groupText] at h ⊢
      rcases lt_trichotomy i (hexText g).length with hlt | heq | hgt
      · rw [drop_append_of_le_length hlt.le] at h
        exact (hmem _ rest h hlt).elim
      · rw [heq, drop_left, cons.injEq] at h
        exact ⟨[g], g' :: gs, rfl, cons_ne_nil _ _, by rw [heq]; simp [colons], h.2.symm⟩
      · -- The colon is one of the text after the first group.
        obtain ⟨k, rfl⟩ : ∃ k, i = (hexText g).length + (k + 1) := ⟨i - (hexText g).length - 1, by omega⟩
        rw [drop_length_add_append] at h
        obtain ⟨pre, post, hsplit, -, htake, hrest⟩ := ih h
        refine ⟨g :: pre, post, by rw [hsplit, cons_append], cons_ne_nil _ _, ?_, hrest⟩
        rw [take_length_add_append, colons_cons, ← htake]
        simp

lemma findZeros_spec (buf s : List Char) (i best max : ℕ) (hs : buf.drop i = s)
    (h : max = 2 ∨ ((best = 0 ∨ (buf.drop best).head? = some ':') ∧ max = spanZeros (buf.drop best))) :
    (findZeros s i best max).2 = 2 ∨
      (((findZeros s i best max).1 = 0 ∨ (buf.drop (findZeros s i best max).1).head? = some ':') ∧
        (findZeros s i best max).2 = spanZeros (buf.drop (findZeros s i best max).1)) := by
  induction s generalizing i best max with
  | nil => exact h
  | cons c s ih =>
    have hnext : buf.drop (i + 1) = s := by rw [← drop_drop, hs, drop_succ_cons, drop_zero]
    simp only [findZeros]
    generalize (if best = 0 then 1 else 0) = handicap
    split_ifs with hskip hmore
    · exact ih _ _ _ hnext h
    · apply ih _ _ _ hnext
      have hcolon : i = 0 ∨ c = ':' := by
        by_cases hi : i = 0
        · exact .inl hi
        · exact .inr (by_contra fun hc => hskip ⟨hi, hc⟩)
      refine .inr ⟨hcolon.imp_right fun hc => ?_, by rw [hs]⟩
      rw [hs, hc, head?_cons]
    · exact ih _ _ _ hnext h

lemma compress_groupText (gs : List ℕ) :
    compress (groupText gs) = groupText gs ∨ ∃ pre z post, gs = pre ++ replicate z 0 ++ post ∧ 2 ≤ z ∧
      compress (groupText gs) = (if pre = [] then [':'] else []) ++
      (colons pre ++ ':' :: groupText post) := by
  have hspec := findZeros_spec (groupText gs) (groupText gs) 0 0 2 drop_zero (.inl rfl)
  simp only [compress]
  generalize findZeros (groupText gs) 0 0 2 = r at hspec ⊢
  obtain ⟨best, max⟩ := r
  by_cases hlong : 3 < max
  swap
  · exact .inl (if_neg hlong)
  right
  rw [if_pos hlong]
  obtain ⟨hbest, hmax⟩ := hspec.resolve_left (by omega)
  rcases hbest with rfl | hcolon
  · rw [drop_zero] at hmax
    obtain ⟨z, post, hsplit, hdrop, hspan⟩ := spanZeros_groupText gs
    refine ⟨[], z, post, hsplit, by omega, ?_⟩
    rw [zero_add, hmax, hdrop]
    rfl
  · obtain ⟨rest, hrest⟩ : ∃ rest, (groupText gs).drop best = ':' :: rest := by
      cases hdrop : (groupText gs).drop best with
      | nil => simp [hdrop] at hcolon
      | cons c rest =>
        rw [hdrop, head?_cons, some.injEq] at hcolon
        exact ⟨rest, by rw [hcolon]⟩
    obtain ⟨pre, post', hsplit, hne, htake, rfl⟩ := groupText_drop_colon hrest
    obtain ⟨z, post, hpost, hdrop, hspan⟩ := spanZeros_groupText post'
    rw [hrest, spanZeros_colon] at hmax
    refine ⟨pre, z, post, by rw [hsplit, hpost, append_assoc], by omega, ?_⟩
    rw [← drop_drop, hrest, hmax, drop_succ_cons, hdrop, if_neg hne, ← htake]
    simp

lemma length_compress_le (buf : List Char) : (compress buf).length ≤ buf.length := by
  have hspec := findZeros_spec buf buf 0 0 2 drop_zero (.inl rfl)
  simp only [compress]
  generalize findZeros buf 0 0 2 = r at hspec ⊢
  split_ifs with hlong
  · have hle := spanZeros_le (buf.drop r.1)
    rw [length_drop] at hle
    simp only [length_append, length_take, length_drop, length_cons, length_nil]
    omega
  · rfl

lemma length_decText_le (hn : n < 256) : (decText n).length ≤ 3 :=
  length_text_le (by decide) (by decide) (by omega)

lemma length_dotted_le (a : ℕ → UInt8) : (dotted a).length ≤ 15 := by
  have hlt : ∀ k, (decText (a k).toNat).length ≤ 3 := fun k => length_decText_le (a k).toNat_lt
  have h0 := hlt 0
  have h1 := hlt 1
  have h2 := hlt 2
  have h3 := hlt 3
  simp only [dotted, length_append, length_cons]
  omega

/-! ### An IPv4 address in IPv6 -/

lemma findZeros_of_no_colon {s : List Char} (hs : ':' ∉ s) (hi : i ≠ 0) (best max : ℕ) :
    findZeros s i best max = (best, max) := by
  induction s generalizing i with
  | nil => rfl
  | cons c s ih =>
    rw [mem_cons, not_or] at hs
    have hskip : i ≠ 0 ∧ c ≠ ':' := ⟨hi, fun heq => hs.1 heq.symm⟩
    rw [findZeros, if_pos hskip]
    exact ih hs.2 (succ_ne_zero i)

lemma spanZeros_append_dot (s rest : List Char) : spanZeros (s ++ '.' :: rest) ≤ s.length := by
  induction s with
  | nil => rw [nil_append]; rfl
  | cons c s ih =>
    by_cases hc : c = ':' ∨ c = '0'
    · have hspan : spanZeros (c :: s ++ '.' :: rest) = spanZeros (s ++ '.' :: rest) + 1 := by
        simp [spanZeros, hc]
      rw [length_cons]
      omega
    · rw [not_or] at hc
      rw [cons_append, spanZeros_cons_of_ne hc.1 hc.2]
      exact zero_le _

lemma colon_notMem_decText (n : ℕ) : ':' ∉ decText n := by
  intro hmem
  obtain ⟨d, hd, heq⟩ := mem_map.1 hmem
  have hlt : d < 10 := lt_of_mem_numeral (by decide) hd
  exact xdigit_ne_colon d (by omega) heq

lemma colon_notMem_dotted (a : ℕ → UInt8) : ':' ∉ dotted a := by
  simp [dotted, colon_notMem_decText]

lemma compress_mapped {d : List Char} (hd : ':' ∉ d) (hspan : spanZeros d ≤ 3) :
    compress (colons [0, 0, 0, 0, 0, 65535] ++ d) = ':' :: ':' :: (colons [65535] ++ d) := by
  have hfull : colons [0, 0, 0, 0, 0, 65535] =
      ['0', ':', '0', ':', '0', ':', '0', ':', '0', ':', 'f', 'f', 'f', 'f', ':'] := by decide
  have hlast : colons [65535] = ['f', 'f', 'f', 'f', ':'] := by decide
  have hfind : findZeros (colons [0, 0, 0, 0, 0, 65535] ++ d) 0 0 2 = (0, 10) := by
    rw [hfull]
    simp [findZeros, spanZeros_zero, spanZeros_colon, spanZeros_cons_of_ne, findZeros_of_no_colon hd]
    omega
  rw [compress, hfind]
  rfl

lemma groups_of_mapped (h : mapped a = true) : (range 6).map (group a) = [0, 0, 0, 0, 0, 65535] := by
  have hbytes : (range 12).map a = [0, 0, 0, 0, 0, 0, 0, 0, 0, 0, 255, 255] := by simpa [mapped] using h
  rw [show range 12 = [0, 1, 2, 3, 4, 5, 6, 7, 8, 9, 10, 11] from rfl] at hbytes
  simp only [map_cons, cons.injEq] at hbytes
  rw [show range 6 = [0, 1, 2, 3, 4, 5] from rfl]
  simp [group, hbytes]

/-! ### Text and back -/

lemma isGroup_hexText (hg : g < 65536) : IsGroup (hexText g) g := by
  refine ⟨text_ne_nil g, length_text_le (by decide) (by decide) hg, numeral 16 g, ?_,
    (value_numeral 16 g).symm⟩
  exact (digits_map fun d hd => hexval_xdigit d (lt_of_mem_numeral (by decide) hd)).imp fun c d =>
    hexval_eq_some_iff.1

lemma forall₂_hexText (hgs : ∀ g ∈ gs, g < 65536) : Forall₂ IsGroup (gs.map hexText) gs :=
  forall₂_map_left_iff.2 (forall₂_same.2 fun g hg => isGroup_hexText (hgs g hg))

lemma groupText_eq (gs : List ℕ) : groupText gs = join (gs.map hexText) := by
  induction gs with
  | nil => rfl
  | cons g gs ih =>
    cases gs with
    | nil => rfl
    | cons g' gs =>
      rw [groupText, ih]
      rfl

lemma gap_eq (pre post : List ℕ) :
    (if pre = [] then [':'] else []) ++ (colons pre ++ ':' :: groupText post) =
      join (pre.map hexText) ++ ':' :: ':' :: join (post.map hexText) := by
  rw [groupText_eq]
  by_cases hnil : pre = []
  · subst hnil
    rfl
  · have hcolons : colons pre = (pre.map hexText).flatMap (· ++ [':']) := by rw [colons, flatMap_map]
    rw [if_neg hnil, nil_append, hcolons, flatMap_colon (by simpa using hnil)]

lemma isAddress_compress (hgs : ∀ g ∈ gs, g < 65536) (hlen : gs.length = 8) :
    IsAddress (compress (groupText gs)) gs := by
  rcases compress_groupText gs with hsame | ⟨pre, z, post, rfl, hz, htext⟩
  · rw [hsame, groupText_eq]
    exact .full (isGroups_of_forall₂ (forall₂_hexText hgs)) hlen
  · rw [length_append, length_append, length_replicate] at hlen
    have hpre : ∀ g ∈ pre, g < 65536 := fun g hg => hgs g (by simp [hg])
    have hpost : ∀ g ∈ post, g < 65536 := fun g hg => hgs g (by simp [hg])
    have haddr :=
      IsAddress.gap (forall₂_hexText hpre) (isGroups_of_forall₂ (forall₂_hexText hpost)) (by omega)
    rw [show 8 - (pre.length + post.length) = z by omega] at haddr
    rwa [htext, gap_eq]

lemma isAddress_fullText (a : ℕ → UInt8) :
    IsAddress (compress (fullText a)) ((range 8).map (group a)) := by
  have hgs : ∀ n, ∀ g ∈ (range n).map (group a), g < 65536 := by
    intro n g hg
    obtain ⟨k, -, rfl⟩ := mem_map.1 hg
    exact group_lt a k
  by_cases hmapped : mapped a
  · have hgroups := groups_of_mapped hmapped
    have hspan : spanZeros (dotted (fun k => a (12 + k))) ≤ 3 :=
      (spanZeros_append_dot _ _).trans (length_decText_le (a 12).toNat_lt)
    have hall : (range 8).map (group a) = [0, 0, 0, 0, 0, 65535] ++ [group a 6, group a 7] := by
      rw [← hgroups]
      rfl
    have hlast : IsGroup (hexText 65535) 65535 := isGroup_hexText (by decide)
    rw [fullText, if_pos hmapped, hgroups, compress_mapped (colon_notMem_dotted _) hspan, hall]
    have haddr := IsAddress.gap .nil (.cons hlast (.dotted fun k => a (12 + k))) (by simp)
    simpa [join, colons, group] using haddr
  · have hrange : (range 8).map (group a) = (range 7).map (group a) ++ [group a 7] := by
      rw [range_succ, map_append, map_singleton]
    have hfull : fullText a = groupText ((range 8).map (group a)) := by
      rw [fullText, if_neg hmapped, hrange, groupText_append, groupText]
    rw [hfull]
    exact isAddress_compress (hgs 8) (by simp)

lemma inetPton_dotted (a m : ℕ → UInt8) :
    inetPton .inet (dotted a) m = (1, fun k => if k < 4 then a k else m k) := by
  simp [inetPton, ptonLoop_dotted]

lemma inetPton_compress (a m : ℕ → UInt8) : (inetPton .inet6 (compress (fullText a)) m).1 = 1 ∧
      ∀ k < 16, (inetPton .inet6 (compress (fullText a)) m).2 k = a k := by
  rw [inetPton_of_isAddress (isAddress_fullText a)]
  refine ⟨rfl, fun k hk => storeGroups_group m hk ?_⟩
  rw [getD_eq_getElem?_getD, getElem?_map, getElem?_range (by omega), map_some, getD_some]

lemma length_colons_le (hgs : ∀ g ∈ gs, g < 65536) : (colons gs).length ≤ 5 * gs.length := by
  induction gs with
  | nil => exact le_rfl
  | cons g gs ih =>
    have hhead : (hexText g).length ≤ 4 := length_text_le (by decide) (by decide) (hgs g mem_cons_self)
    have hrest := ih (forall_mem_cons.1 hgs).2
    rw [colons_cons, length_append, length_cons, length_cons]
    omega

lemma length_fullText_le (a : ℕ → UInt8) : (fullText a).length ≤ 45 := by
  have hgroups : ∀ n, ∀ g ∈ (range n).map (group a), g < 65536 := by
    intro n g hg
    obtain ⟨k, -, rfl⟩ := mem_map.1 hg
    exact group_lt a k
  rw [fullText]
  split_ifs
  · have hcolons := length_colons_le (hgroups 6)
    have hdotted := length_dotted_le (fun k => a (12 + k))
    rw [length_map, length_range] at hcolons
    rw [length_append]
    omega
  · have hcolons := length_colons_le (hgroups 7)
    have hlast : (hexText (group a 7)).length ≤ 4 := length_text_le (by decide) (by decide) (group_lt a 7)
    rw [length_map, length_range] at hcolons
    rw [length_append]
    omega

end Musl.Network
