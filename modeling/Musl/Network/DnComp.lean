import Musl.Lib.DnsName

/-!
# Compressed names

`dn_comp` appends a name to a message; it looks for the longest end of the name that stands in the message
already, at one of the places in `dnptrs`, and points to it.  `dn_expand` reads a name, following the
pointers, for at most one round per two bytes of the message.

Places are offsets from the start of the message, the pointer `base` of the source.
-/

namespace Musl.Network

open Musl.Lib.DnsName List Option Nat

/-! ### The code -/

/-- `getoffs`: the offsets of the labels, the last one first.  `some []` is the return of 0.  `none`
stands for a walk of more than `fuel` rounds, and for a store past the end of `offs[128]`. -/
def getoffs (m : Message) : ℕ → ℕ → List ℕ → Option (List ℕ)
  | 0, _, _ => none
  | fuel + 1, s, offs =>
    if m s &&& 0xc0 ≠ 0 then
      if m s &&& 0xc0 ≠ 0xc0 then some [] else getoffs m fuel (target m s) offs
    else if m s = 0 then some offs
    else if 0x4000 ≤ s then some []
    else if 128 ≤ offs.length then none
    else getoffs m fuel (s + (m s).toNat + 1) (s :: offs)

/-- `getlens` of a name, of which `n` bytes of the first label are done; `none` is the return of 0.
The test is `j-k-1u > 62`.  A name of 253 bytes has 127 labels at most, for `lens[127]`
(`two_mul_length_le`). -/
def getlens : List UInt8 → ℕ → Option (List ℕ)
  | [], n => if 62 < (n + 2 ^ 32 - 1) % 2 ^ 32 then none else some [n]
  | c :: s, n =>
    if c = 46 then
      if 62 < (n + 2 ^ 32 - 1) % 2 ^ 32 then none else (getlens s 0).map (n :: ·)
    else getlens s (n + 1)

/-- The loop of `match`, over the lengths and the offsets from the last one on: the value of `m` and of
`*offset`. -/
def matchLoop (msg : Message) (src : List UInt8) : List ℕ → List ℕ → ℕ → ℕ → ℕ → ℕ × ℕ
  | l :: lens, o :: offs, tail, m, offset =>
    let tail := tail - l
    if l ≠ (msg o).toNat ∨ bytes msg (o + 1) l ≠ (src.drop tail).take l then (m, offset)
    else
      let m := if lens ≠ [] then m + l + 1 else m + l
      if lens = [] ∨ offs = [] then (m, o) else matchLoop msg src lens offs (tail - 1) m o
  | _, _, _, m, offset => (m, offset)

/-- `match`. -/
def matchName (fuel : ℕ) (msg : Message) (dn : ℕ) (src : List UInt8) (tail : ℕ) (lens : List ℕ) :
    Option (ℕ × ℕ) := do
  let offs ← getoffs msg fuel dn []
  if offs = [] then return (0, 0)
  else return matchLoop msg src lens.reverse offs tail 0 0

/-- The loop of `dn_comp` over `dnptrs`: `bestlen` and `bestoff`. -/
def bestMatch (fuel : ℕ) (msg : Message) (src : List UInt8) (l : ℕ) (lens : List ℕ) :
    List ℕ → ℕ × ℕ → Option (ℕ × ℕ)
  | [], best => some best
  | p :: ps, best => do
    let r ← matchName fuel msg p src l lens
    if best.1 < r.1 then
      if r.1 = l then return r else bestMatch fuel msg src l lens ps r
    else bestMatch fuel msg src l lens ps best

/-- `for (i=j=0; i<l-bestlen; i+=lens[j++]+1) dst[i] = lens[j];` -/
def putLens (dst u : ℕ) : List ℕ → ℕ → Message → ℕ × Message
  | [], i, m => (i, m)
  | n :: lens, i, m =>
    if i < u then putLens dst u lens (i + n + 1) (write m (dst + i) [UInt8.ofNat n]) else (i, m)

/-- The encoding of the unmatched part and of the tail: `i` and the message. -/
def encodeName (m : Message) (src : List UInt8) (dst l : ℕ) (lens : List ℕ) (bestlen bestoff : ℕ) :
    ℕ × Message :=
  let r := putLens dst (l - bestlen) lens 0 (write m (dst + 1) (src.take (l - bestlen)))
  if bestlen ≠ 0 then
    (r.1 + 2, write r.2 (dst + r.1) [UInt8.ofNat (0xc0 ||| bestoff >>> 8), UInt8.ofNat bestoff])
  else (r.1 + 1, write r.2 (dst + r.1) [0])

/-- The result of `dn_comp` that is not -1. -/
structure Appended where
  ret : ℕ
  msg : Message
  dnptrs : Option (List ℕ)

/-- `strnlen(src, 255)`, less one if the name ends with a dot. -/
def nameLength (src : List UInt8) : ℕ :=
  let l := ((src.takeWhile (· ≠ 0)).take 255).length
  if l ≠ 0 ∧ src.getD (l - 1) 0 = 46 then l - 1 else l

/-- `l-bestlen+2+(bestlen-1 < l-1)`, where `bestlen-1` is converted to `size_t`. -/
def needed (l bestlen : ℕ) : ℕ := l - bestlen + 2 + if ((bestlen : ℤ) - 1) % 2 ^ 64 < l - 1 then 1 else 0

/-- `save dst pointer`, if there is an entry left for it. -/
def savePtr (dnptrs : Option (List ℕ)) (lastdnptr : Option ℕ) (dst i : ℕ) : Option (List ℕ) :=
  match dnptrs, lastdnptr with
  | some ps, some last => if 2 < i ∧ ps.length + 2 < last then some (ps ++ [dst]) else dnptrs
  | _, _ => dnptrs

/-- `dn_comp`; `some none` is the return of -1, `none` a `match` that does not end.  `dnptrs` are
the places after the first entry, which is the start of the message; there are none if `dnptrs` or
its first entry is null.  `lastdnptr` counts from `dnptrs`. -/
def dnComp (fuel : ℕ) (m : Message) (src : List UInt8) (dst : ℕ) (space : ℤ) (dnptrs : Option (List ℕ))
    (lastdnptr : Option ℕ) : Option (Option Appended) :=
  let l := nameLength src
  if 253 < l ∨ space ≤ 0 then some none
  else if l = 0 then some (some ⟨1, write m dst [0], dnptrs⟩)
  else
    match getlens (src.take l) 0 with
    | none => some none
    | some lens => do
      let best ← bestMatch fuel m src l lens (dnptrs.getD []) (0, 0)
      if space < needed l best.1 then some none
      else
        let r := encodeName m src dst l lens best.1 best.2
        some (some ⟨r.1, r.2, savePtr dnptrs lastdnptr dst r.1⟩)

/-- The loop of `dn_expand`: `len` and the bytes of `dest`; `none` is the return of -1. -/
def expandLoop (m : Message) (eom dend src : ℕ) : ℕ → ℕ → List UInt8 → Option ℕ → Option (ℕ × List UInt8)
  | 0, _, _, _ => none
  | n + 1, p, dest, len =>
    if m p &&& 0xc0 ≠ 0 then
      if p + 1 = eom then none
      else if eom ≤ target m p then none
      else expandLoop m eom dend src n (target m p) dest (some (len.getD (p + 2 - src)))
    else if m p ≠ 0 then
      let dest := if dest ≠ [] then dest ++ [46] else dest
      let j := (m p).toNat
      if eom ≤ p + 1 + j ∨ dend ≤ dest.length + j then none
      else expandLoop m eom dend src n (p + 1 + j) (dest ++ bytes m (p + 1) j) len
    else some (len.getD (p + 1 - src), dest)

/-- `__dn_expand`.  The message has `eom` bytes; the counter goes up by two. -/
def dnExpand (m : Message) (eom src : ℕ) (space : ℤ) : Option (ℕ × List UInt8) :=
  if src = eom ∨ space ≤ 0 then none
  else expandLoop m eom (if 254 < space then 254 else space.toNat) src ((eom + 1) / 2) src [] none

/-! ### Expansion -/

/-- What `dest` holds after the labels `ls`. -/
def joined (dest : List UInt8) : List (List UInt8) → List UInt8
  | [] => dest
  | l :: ls => joined ((if dest ≠ [] then dest ++ [46] else dest) ++ l) ls

variable {dest l src : List UInt8} {ls back front : List (List UInt8)} {b e eom n o lim fuel dst i : ℕ}
  {m msg : Message} {offs : List ℕ}

lemma joined_of_ne (hdest : dest ≠ []) (hls : ls ≠ []) : joined dest ls = dest ++ 46 :: text ls := by
  induction ls generalizing dest with
  | nil => exact absurd rfl hls
  | cons l ls ih =>
    rw [joined, if_pos hdest]
    cases ls with
    | nil => simp [joined, text]
    | cons l' ls =>
      rw [ih (by simp) (cons_ne_nil l' ls), text_cons (cons_ne_nil l' ls)]
      simp

lemma joined_nil (h : ∀ l ∈ ls, 0 < l.length) : joined [] ls = text ls := by
  cases ls with
  | nil => rfl
  | cons l ls =>
    have hl := h l mem_cons_self
    cases ls with
    | nil => simp [joined, text]
    | cons l' ls =>
      rw [joined, joined_of_ne (by simpa using ne_nil_of_length_pos hl) (cons_ne_nil l' ls),
        text_cons (cons_ne_nil l' ls)]
      simp

lemma length_le_joined (dest : List UInt8) (ls : List (List UInt8)) :
    dest.length ≤ (joined dest ls).length := by
  induction ls generalizing dest with
  | nil => exact le_refl _
  | cons l ls ih =>
    refine le_trans ?_ (ih _)
    split <;> simp only [length_append] <;> omega

/-- **The loop reads a name**: a round takes two bytes of the message or more, and no byte is taken
twice. -/
theorem expandLoop_nameAt (h : NameAt m b o e ls) {dend src : ℕ} {len : Option ℕ} (hn : e - o + b ≤ 2 * n)
    (he : e ≤ eom) (hb : b ≤ eom) (hdest : (joined dest ls).length < dend) (hsrc : len = none → src ≤ o) :
    expandLoop m eom dend src n o dest len = some (len.getD (e - src), joined dest ls) := by
  induction h generalizing n dest len with
  | root h0 =>
    obtain _ | n := n
    · omega
    simp [expandLoop, h0, joined]
  | @label b o e l ls hl hrest ih =>
    have hlt := hrest.lt
    have hpos := hl.pos
    obtain _ | n := n
    · omega
    have hbits := length_bits (hl.length.trans_le hl.le)
    rw [joined] at hdest ⊢
    have hle := length_le_joined ((if dest ≠ [] then dest ++ [46] else dest) ++ l) ls
    rw [length_append] at hle
    rw [expandLoop, if_neg (by simp [hbits]), if_pos hl.ne_zero, hl.length]
    simp only [hl.text]
    rw [if_neg (by omega)]
    exact ih (by omega) he hb hdest fun hnone => by have := hsrc hnone; omega
  | @pointer b o c e ls hbits hrest hc hle ih =>
    have hlt := hrest.lt
    obtain _ | n := n
    · omega
    rw [expandLoop, if_pos (by rw [hbits]; decide), if_neg (by omega), if_neg (by omega)]
    rw [ih (by omega) (by omega) (by omega) hdest (by simp)]
    rfl

/-- **`dn_expand` reads a name of the message.** -/
theorem dnExpand_nameAt {space : ℤ} (h : NameAt m b o e ls) (hb : b ≤ o) (he : e ≤ eom)
    (hlen : (text ls).length ≤ 253)
    (hspace : (text ls).length < space) : dnExpand m eom o space = some (e - o, text ls) := by
  have hlt := h.lt
  have hjoin := joined_nil h.labels_pos
  rw [dnExpand, if_neg (by omega), expandLoop_nameAt h (by omega) he (by omega) ?_ fun _ =>
    le_refl o, hjoin]
  · rfl
  · rw [hjoin]
    split <;> omega

/-! ### The labels of a name -/

/-- **`getlens` finds the labels** of a name; the first of them has begun with `l`. -/
theorem getlens_labels {s : List UInt8} {lens : List ℕ} (h : getlens s l.length = some lens)
    (hlen : l.length + s.length < 2 ^ 32) :
    ∃ ls, lens = ls.map length ∧ text ls = l ++ s ∧ ls ≠ [] ∧ ∀ l ∈ ls, 0 < l.length ∧ l.length ≤ 63 := by
  induction s generalizing l lens with
  | nil =>
    rw [getlens] at h
    split at h
    · cases h
    · cases h
      refine ⟨[l], rfl, by simp [text], cons_ne_nil l [], ?_⟩
      simp only [mem_singleton, forall_eq] at hlen ⊢
      omega
  | cons c s ih =>
    rw [length_cons] at hlen
    rw [getlens] at h
    split at h
    · rename_i hdot
      split at h
      · cases h
      · obtain ⟨lens', hrest, rfl⟩ := map_eq_some_iff.1 h
        obtain ⟨ls, rfl, htext, hne, hls⟩ := ih (l := []) hrest (by rw [length_nil]; omega)
        refine ⟨l :: ls, rfl, by rw [text_cons hne, htext, hdot, nil_append], cons_ne_nil l ls, ?_⟩
        exact forall_mem_cons.2 ⟨by omega, hls⟩
    · have hlength : (l ++ [c]).length = l.length + 1 := by simp
      rw [← hlength] at h
      obtain ⟨ls, rfl, htext, hne, hls⟩ := ih h (by omega)
      exact ⟨ls, rfl, by rw [htext, append_assoc, singleton_append], hne, hls⟩

/-- The labels `ls` stand at `o`, before `lim`. -/
def Stands (m : Message) (lim o : ℕ) (ls : List (List UInt8)) : Prop :=
  ∃ b e, NameAt m b o e ls ∧ b ≤ o ∧ e ≤ lim

/-- Offsets of the labels of a name, from the last one on; `rest` are the labels after them. -/
def Tracks (m : Message) (lim : ℕ) : List ℕ → List (List UInt8) → List (List UInt8) → Prop
  | [], [], _ => True
  | o :: offs, l :: ls, rest =>
    (Stands m lim o (l :: rest) ∧ LabelAt m o l ∧ o < 0x4000) ∧ Tracks m lim offs ls (l :: rest)
  | _, _, _ => False

lemma Tracks.length {rest : List (List UInt8)} (h : Tracks m lim offs ls rest) :
    offs.length = ls.length := by
  induction offs generalizing ls rest with
  | nil => cases ls with
    | nil => rfl
    | cons => exact h.elim
  | cons o offs ih => cases ls with
    | nil => exact h.elim
    | cons l ls => simp [ih h.2]

/-- **`getoffs` finds the labels of a name of the message**, or gives up. -/
theorem getoffs_nameAt (h : NameAt m b o e ls) {before : List (List UInt8)} (hb : b ≤ o) (he : e ≤ lim)
    (hfuel : e - o + b ≤ 2 * n) (hcount : ls.length + before.length ≤ 128)
    (hoffs : Tracks m lim offs before ls) :
    ∃ r, getoffs m n o offs = some r ∧ (r = [] ∨ Tracks m lim r (ls.reverse ++ before) []) := by
  induction h generalizing n offs before with
  | root h0 =>
    obtain _ | k := n
    · omega
    exact ⟨offs, by simp [getoffs, h0], .inr hoffs⟩
  | @label b o e l ls hl hrest ih =>
    have hlt := hrest.lt
    have hpos := hl.pos
    have hsame := hoffs.length
    obtain _ | k := n
    · omega
    have hbits := length_bits (hl.length.trans_le hl.le)
    rw [length_cons] at hcount
    rw [getoffs, if_neg (by simp [hbits]), if_neg hl.ne_zero]
    split
    · exact ⟨[], rfl, .inl rfl⟩
    · rw [if_neg (by omega), hl.length, show o + l.length + 1 = o + 1 + l.length by omega]
      have hstands : Stands m lim o (l :: ls) := ⟨b, e, .label hl hrest, hb, he⟩
      have htracks : Tracks m lim (o :: offs) (l :: before) ls := ⟨⟨hstands, hl, by omega⟩, hoffs⟩
      obtain ⟨r, hr, hcases⟩ := ih (n := k) (by omega) he (by omega) (by rw [length_cons]; omega) htracks
      refine ⟨r, hr, ?_⟩
      rw [reverse_cons, append_assoc]
      exact hcases
  | @pointer b o c e ls hbits hrest hc hle ih =>
    have hlt := hrest.lt
    obtain _ | k := n
    · omega
    rw [getoffs, if_pos (by rw [hbits]; decide), if_neg (by simp [hbits])]
    exact ih hc (by omega) (by omega) hcount hoffs

/-! ### The longest match -/

/-- An end of the name stands at `off`; `k` bytes of the text are left out before it, with their dot. -/
def Found (m : Message) (lim : ℕ) (ls : List (List UInt8)) (k off : ℕ) : Prop :=
  ∃ front back, ls = front ++ back ∧ back ≠ [] ∧ k + (text front).length = (text ls).length ∧
    off < 0x4000 ∧
    Stands m lim off back

lemma take_last {X : List UInt8} (h : X ++ l <+: src) :
    (src.drop ((X ++ l).length - l.length)).take l.length = l := by
  obtain ⟨t, rfl⟩ := h
  simp

lemma text_reverse_cons (l : List UInt8) (rls : List (List UInt8)) :
    text (l :: rls).reverse = (if rls = [] then [] else text rls.reverse ++ [46]) ++ l := by
  cases rls with
  | nil => rfl
  | cons l' rls =>
    rw [reverse_cons, text_append (by simp) (by simp)]
    simp [text]

/-- **The loop of `match`** goes on from an end `back` of the name that stands at `off`. -/
theorem matchLoop_found {rls : List (List UInt8)} (hne : rls ≠ []) {rds : List (List UInt8)} (m off : ℕ)
    (htext : text rls.reverse <+: src) (hoffs : Tracks msg lim offs rds back)
    (hm : back = [] ∧ m = 0 ∨ back ≠ [] ∧ m = (text back).length + 1 ∧ off < 0x4000 ∧
      Stands msg lim off back) :
    let r := matchLoop msg src (rls.map length) offs (text rls.reverse).length m off
    r.1 = 0 ∨ Found msg lim (rls.reverse ++ back) r.1 r.2 := by
  induction rls generalizing offs rds back m off with
  | nil => exact absurd rfl hne
  | cons l rls ih =>
    have hrev : (l :: rls).reverse ≠ [] := by simp
    -- the loop stops here with what it has
    have hstop : m = 0 ∨ Found msg lim ((l :: rls).reverse ++ back) m off := by
      rcases hm with ⟨-, h0⟩ | ⟨hback, hm, hoff, hstands⟩
      · exact .inl h0
      · refine .inr ⟨_, back, rfl, hback, ?_, hoff, hstands⟩
        rw [text_append hrev hback, length_append, length_cons]
        omega
    cases offs with
    | nil => exact hstop
    | cons o offs =>
      cases rds with
      | nil => exact hoffs.elim
      | cons d rds =>
        obtain ⟨⟨hstands, hlabel, hlow⟩, hrest⟩ := hoffs
        simp only [map_cons, matchLoop]
        split
        · exact hstop
        · rename_i hsame
          rw [not_or, not_not, not_not] at hsame
          have hsplit := text_reverse_cons l rls
          rw [hsplit] at htext
          have hd : d = l := by
            have h1 := hlabel.text
            rw [← hlabel.length, ← hsame.1, hsame.2, hsplit, take_last htext] at h1
            exact h1.symm
          subst hd
          have hlength : m + d.length = (text (d :: back)).length := by
            rcases hm with ⟨hback, h0⟩ | ⟨hback, h1, -, -⟩
            · rw [hback, h0, zero_add, text]
            · rw [text_cons hback, length_append, length_cons]
              omega
          have hback : d :: back ≠ [] := cons_ne_nil d back
          have happ : (d :: rls).reverse ++ back = rls.reverse ++ d :: back := by simp
          rw [happ]
          cases rls with
          | nil =>
            refine .inr ⟨[], d :: back, rfl, hback, ?_, hlow, hstands⟩
            simpa [text] using hlength
          | cons l' rls =>
            have hm' : m + d.length + 1 = (text (d :: back)).length + 1 := by rw [hlength]
            rw [if_neg (cons_ne_nil l' rls)] at hsplit htext
            have htail : (text (d :: l' :: rls).reverse).length - d.length - 1 =
                (text (l' :: rls).reverse).length := by
              rw [hsplit, length_append, length_append, length_singleton]
              omega
            simp only [map_cons, ne_eq, reduceCtorEq, not_false_eq_true, if_true, htail]
            split
            · refine .inr ⟨_, d :: back, rfl, hback, ?_, hlow, hstands⟩
              rw [text_append (by simp) hback, length_append, length_cons]
              omega
            · have hfront : text (l' :: rls).reverse <+: src := by
                refine IsPrefix.trans ?_ htext
                rw [append_assoc]
                exact prefix_append _ _
              exact ih (cons_ne_nil l' rls) _ _ hfront hrest (.inr ⟨hback, hm', hlow, hstands⟩)

/-- **`match` finds an end of the name**, or nothing. -/
theorem matchName_found {dn : ℕ} {ds : List (List UInt8)} (hne : ls ≠ []) (htext : text ls <+: src)
    (hdn : Stands msg lim dn ds) (hds : ds.length ≤ 128) (hfuel : lim ≤ 2 * fuel) :
    ∃ r, matchName fuel msg dn src (text ls).length (ls.map length) = some r ∧
      (r.1 = 0 ∨ Found msg lim ls r.1 r.2) := by
  obtain ⟨b, e, hname, hb, he⟩ := hdn
  have hlt := hname.lt
  have hnil : Tracks msg lim [] [] ds := trivial
  obtain ⟨offs, hoffs, hcases⟩ := getoffs_nameAt hname hb he (show e - dn + b ≤ 2 * fuel by omega)
    (by simpa using hds) hnil
  unfold matchName
  rw [hoffs]
  simp only [bind_eq_bind, bind_some]
  split
  · exact ⟨_, rfl, .inl rfl⟩
  · rename_i hoffs'
    refine ⟨_, rfl, ?_⟩
    have htracks := hcases.resolve_left hoffs'
    have hrev : ls.reverse ≠ [] := by simpa using hne
    have h := matchLoop_found hrev 0 0 (by simpa using htext) htracks (.inl ⟨rfl, rfl⟩)
    simpa using h

/-- **The loop over `dnptrs`** keeps an end of the name. -/
theorem bestMatch_found (hne : ls ≠ []) (htext : text ls <+: src) (hfuel : lim ≤ 2 * fuel) {ps : List ℕ}
    (hps : ∀ p ∈ ps, ∃ ds, Stands msg lim p ds ∧ ds.length ≤ 128) (best : ℕ × ℕ)
    (hbest : best.1 = 0 ∨ Found msg lim ls best.1 best.2) :
    ∃ r, bestMatch fuel msg src (text ls).length (ls.map length) ps best = some r ∧
      (r.1 = 0 ∨ Found msg lim ls r.1 r.2) := by
  induction ps generalizing best with
  | nil => exact ⟨best, rfl, hbest⟩
  | cons p ps ih =>
    obtain ⟨ds, hdn, hds⟩ := hps p mem_cons_self
    obtain ⟨r, hr, hfound⟩ := matchName_found hne htext hdn hds hfuel
    have hps' := (forall_mem_cons.1 hps).2
    rw [bestMatch, hr]
    simp only [bind_eq_bind, bind_some]
    split
    · split
      · exact ⟨r, rfl, hfound⟩
      · exact ih hps' r hfound
    · exact ih hps' best hbest

/-! ### The encoding -/

lemma putLens_stop {u : ℕ} (lens : List ℕ) (m : Message) (h : u ≤ i) :
    putLens dst u lens i m = (i, m) := by
  cases lens with
  | nil => rfl
  | cons n lens => rw [putLens, if_neg (by omega)]

lemma labelAt_write (h : 0 < l.length ∧ l.length ≤ 63) (hm : bytes m (o + 1) l.length = l) :
    LabelAt (write m o [UInt8.ofNat l.length]) o l where
  length := by
    simp only [write, length_singleton]
    rw [if_pos (by omega), Nat.sub_self, getD_cons_zero, UInt8.toNat_ofNat']
    omega
  pos := h.1
  le := h.2
  text := by
    rw [bytes_congr fun i h1 h2 => write_out m (.inr (by rw [length_singleton]; omega)), hm]

/-- **The loop that stores the lengths** turns the text of the labels `ls` into the labels; it stops at
the labels `rest` that are left to a pointer. -/
theorem putLens_labels (rest : List (List UInt8)) (hls : ∀ l ∈ ls, 0 < l.length ∧ l.length ≤ 63) (dst : ℕ)
    (hm : bytes m (dst + i + 1) (text ls).length = text ls) :
    let r := putLens dst (i + (text ls).length) ((ls ++ rest).map length) i m
    r.1 = (if ls = [] then i else i + (text ls).length + 1) ∧ LabelsAt r.2 (dst + i) (dst + r.1) ls ∧
      ∀ x, x < dst + i ∨ dst + r.1 ≤ x → r.2 x = m x := by
  induction ls generalizing i m with
  | nil =>
    intro r
    have hr : r = (i, m) := putLens_stop _ m (le_refl i)
    rw [hr]
    exact ⟨rfl, rfl, fun _ _ => rfl⟩
  | cons l ls ih =>
    obtain ⟨hl, hls⟩ := forall_mem_cons.1 hls
    cases ls with
    | nil =>
      intro r
      have hr : r = (i + l.length + 1, write m (dst + i) [UInt8.ofNat l.length]) := by
        simp only [r, cons_append, map_cons, putLens, text]
        rw [if_pos (by omega), putLens_stop _ _ (by omega)]
      rw [hr]
      refine ⟨rfl, ⟨labelAt_write hl hm, ?_⟩, ?_⟩
      · simp only [LabelsAt]
        omega
      · intro x hx
        exact write_out m (by rw [length_singleton]; omega)
    | cons l' ls =>
      have htext : text (l :: l' :: ls) = l ++ 46 :: text (l' :: ls) := rfl
      have hlength : (text (l :: l' :: ls)).length = l.length + (1 + (text (l' :: ls)).length) := by
        rw [htext, length_append, length_cons, add_comm 1]
      rw [hlength, bytes_add, bytes_add] at hm
      obtain ⟨hml, hmrest⟩ := append_inj hm (by simp)
      have hrest : bytes (write m (dst + i) [UInt8.ofNat l.length]) (dst + (i + l.length + 1) + 1)
          (text (l' :: ls)).length = text (l' :: ls) := by
        rw [bytes_congr fun x h1 h2 => write_out m (.inr (by rw [length_singleton]; omega))]
        rw [show dst + (i + l.length + 1) + 1 = dst + i + 1 + l.length + 1 by omega]
        exact (cons.inj hmrest).2
      obtain ⟨h1, h2, h3⟩ := ih hls hrest
      have hr : putLens dst (i + (text (l :: l' :: ls)).length) ((l :: l' :: ls ++ rest).map length) i m =
          putLens dst (i + l.length + 1 + (text (l' :: ls)).length) ((l' :: ls ++ rest).map length)
            (i + l.length + 1) (write m (dst + i) [UInt8.ofNat l.length]) := by
        rw [cons_append, map_cons, putLens, if_pos (by omega)]
        congr 1
        omega
      intro r
      rw [show r = _ from hr]
      rw [if_neg (cons_ne_nil l' ls)] at h1
      rw [if_neg (cons_ne_nil l (l' :: ls))]
      refine ⟨by omega, ⟨?_, ?_⟩, ?_⟩
      · exact (labelAt_write hl hml).congr fun x hx1 hx2 => h3 x (.inl (by omega))
      · rw [show dst + i + 1 + l.length = dst + (i + l.length + 1) by omega]
        exact h2
      · intro x hx
        rw [h3 x (by omega)]
        exact write_out m (by rw [length_singleton]; omega)

lemma write_in (m : Message) {k : ℕ} {bs : List UInt8} (h : k < bs.length) :
    write m o bs (o + k) = bs.getD k 0 := by
  rw [write, if_pos (by omega), Nat.add_sub_cancel_left]

lemma putLens_copy (back : List (List UInt8)) (m : Message) (dst : ℕ)
    (hfront : ∀ l ∈ front, 0 < l.length ∧ l.length ≤ 63) (htext : text front <+: src) :
    let r := putLens dst (text front).length ((front ++ back).map length) 0
      (write m (dst + 1) (src.take (text front).length))
    r.1 = (if front = [] then 0 else (text front).length + 1) ∧ LabelsAt r.2 dst (dst + r.1) front ∧
      ∀ x, x < dst ∨ dst + r.1 ≤ x → r.2 x = m x := by
  have htake : src.take (text front).length = text front := (prefix_iff_eq_take.1 htext).symm
  rw [htake]
  have h := putLens_labels back hfront dst (i := 0) (bytes_write m (dst + 1) (text front))
  simp only [zero_add] at h
  obtain ⟨h1, h2, h3⟩ := h
  refine ⟨h1, h2, fun x hx => ?_⟩
  rw [h3 x hx]
  apply write_out
  split at h1
  · rename_i hnil
    rw [hnil, text, length_nil]
    omega
  · omega

lemma text_front : text front <+: text (front ++ back) := by
  by_cases hfront : front = []
  · rw [hfront]
    exact nil_prefix
  · by_cases hback : back = []
    · rw [hback, append_nil]
    · rw [text_append hfront hback]
      exact prefix_append _ _

/-- **The encoding stands for the name**, fits in the space that was tested and leaves the rest of the
message alone. -/
theorem encodeName_spec (hne : ls ≠ []) (hls : ∀ l ∈ ls, 0 < l.length ∧ l.length ≤ 63)
    (htext : text ls <+: src)
    {bestlen bestoff : ℕ} (hbest : bestlen = 0 ∨ Found m dst ls bestlen bestoff) :
    let r := encodeName m src dst (text ls).length (ls.map length) bestlen bestoff
    NameAt r.2 dst dst (dst + r.1) ls ∧ r.1 ≤ needed (text ls).length bestlen ∧
      ∀ x, x < dst ∨ dst + r.1 ≤ x → r.2 x = m x := by
  by_cases h0 : bestlen = 0
  · -- no match: all labels and a zero
    obtain ⟨h1, h2, h3⟩ := putLens_copy [] m dst hls htext
    rw [append_nil] at h1 h2 h3
    rw [if_neg hne] at h1
    simp only [encodeName, h0, ne_eq, not_true_eq_false, if_false]
    generalize putLens dst (text ls).length (ls.map length) 0 _ = r at h1 h2 h3 ⊢
    refine ⟨?_, ?_, fun x hx => ?_⟩
    · have hroot : NameAt (write r.2 (dst + r.1) [0]) dst (dst + r.1) (dst + r.1 + 1) [] :=
        .root (by simp [write])
      have h := LabelsAt.nameAt (h2.congr fun x hx1 hx2 => write_out r.2 (.inl hx2)) hroot
      rwa [append_nil] at h
    · unfold needed
      omega
    · rw [write_out _ (by rw [length_singleton]; omega), h3 x (by omega)]
  · obtain ⟨front, back, rfl, -, hk, hlow, b, e, hname, hb, he⟩ := hbest.resolve_left h0
    have hfront := fun l hl => hls l (mem_append_left back hl)
    obtain ⟨h1, h2, h3⟩ := putLens_copy back m dst hfront (text_front.trans htext)
    simp only [encodeName, if_pos h0, show (text (front ++ back)).length - bestlen =
      (text front).length by omega]
    generalize putLens dst (text front).length ((front ++ back).map length) 0 _ = r at h1 h2 h3 ⊢
    have hlt := hname.lt
    generalize hm' : write r.2 (dst + r.1) [UInt8.ofNat (0xc0 ||| bestoff >>> 8),
      UInt8.ofNat bestoff] = m'
    have hout : ∀ x, x < dst + r.1 ∨ dst + r.1 + 2 ≤ x → m' x = r.2 x := by
      intro x hx
      rw [← hm']
      exact write_out r.2 hx
    refine ⟨?_, ?_, fun x hx => by rw [hout x (by omega), h3 x (by omega)]⟩
    · have h0 : m' (dst + r.1) = UInt8.ofNat (0xc0 ||| bestoff >>> 8) := by
        rw [← hm']
        exact write_in r.2 (k := 0) (by simp)
      have htarget : target m' (dst + r.1) = bestoff := by
        apply target_eq hlow h0
        rw [← hm']
        exact write_in r.2 (by simp)
      have hold : ∀ x, x < e → m' x = m x := fun x hx => by rw [hout x (by omega), h3 x (by omega)]
      have hptr : NameAt m' dst (dst + r.1) (dst + r.1 + 2) back := by
        apply NameAt.pointer
        · rw [h0, pointer_bits hlow]
        · rw [htarget]
          exact hname.congr (fun x hx => hold x (by omega)) fun x _ hx => hold x hx
        · rw [htarget]
          exact hb
        · exact he
      exact LabelsAt.nameAt (h2.congr fun x _ hx => hout x (.inl hx)) hptr
    · -- a match that leaves labels over leaves text over
      have hpos : front ≠ [] → 0 < (text front).length := by
        intro hne
        have h := two_mul_length_le fun l hl => (hfront l hl).1
        have := length_pos_iff.2 hne
        omega
      unfold needed
      split at h1
      · omega
      · rename_i hne
        have := hpos hne
        rw [if_pos (by omega)]
        omega

/-! ### The function -/

def cString (src : List UInt8) : List UInt8 := src.takeWhile (· ≠ 0)

def withoutDot (s : List UInt8) : List UInt8 := if s.getLast? = some 46 then s.dropLast else s

lemma take_nameLength (h : nameLength src ≤ 253) :
    src.take (nameLength src) = withoutDot (cString src) := by
  obtain ⟨t, ht⟩ : cString src <+: src := takeWhile_prefix _
  have hmin : ((src.takeWhile (· ≠ 0)).take 255).length = min 255 (cString src).length := length_take
  unfold nameLength at h ⊢
  simp only [hmin] at h ⊢
  -- a longer string would have been refused
  have hshort : (cString src).length < 255 := by
    by_contra hlong
    split at h <;> omega
  rw [min_eq_right (by omega)]
  generalize cString src = s at ht
  subst ht
  rcases eq_nil_or_concat s with rfl | ⟨s', c, rfl⟩
  · simp [withoutDot]
  · have hlast : (s'.concat c ++ t).getD ((s'.concat c).length - 1) 0 = c := by simp
    have hget : (s'.concat c).getLast? = some c := by simp
    have hne : (s'.concat c).length ≠ 0 := by simp
    rw [hlast, withoutDot, hget]
    by_cases hc : c = 46
    · rw [if_pos ⟨hne, hc⟩, if_pos (by rw [hc])]
      simp
    · rw [if_neg fun h => hc h.2, if_neg fun h => hc (some.inj h)]
      exact take_left

lemma nameLength_le (src : List UInt8) : nameLength src ≤ src.length := by
  have h1 : ((src.takeWhile (· ≠ 0)).take 255).length ≤ (src.takeWhile (· ≠ 0)).length :=
    IsPrefix.length_le <| take_prefix _ _
  have h2 : (src.takeWhile (· ≠ 0)).length ≤ src.length :=
    IsPrefix.length_le <| takeWhile_prefix _
  unfold nameLength
  simp only
  split <;> omega

lemma savePtr_cases (dnptrs : Option (List ℕ)) (lastdnptr : Option ℕ) (dst i : ℕ) :
    savePtr dnptrs lastdnptr dst i = dnptrs ∨
    savePtr dnptrs lastdnptr dst i = dnptrs.map (· ++ [dst]) := by
  unfold savePtr
  split
  · split
    · exact .inr rfl
    · exact .inl rfl
  · exact .inl rfl

/-- What `dn_comp` does where it does not return -1. -/
structure Appends (m : Message) (src : List UInt8) (dst : ℕ) (space : ℤ) (dnptrs : Option (List ℕ))
    (a : Appended) :
    Prop where
  name : ∃ ls, NameAt a.msg dst dst (dst + a.ret) ls ∧ text ls = withoutDot (cString src) ∧
    (text ls).length ≤ 253
  space_le : a.ret ≤ space
  frame : ∀ x, x < dst ∨ dst + a.ret ≤ x → a.msg x = m x
  saved : a.dnptrs = dnptrs ∨ a.dnptrs = dnptrs.map (· ++ [dst])

/-- **`dn_comp` appends the name**, if the pointers lead to names of the message. -/
theorem dnComp_spec (src : List UInt8) (space : ℤ) {dnptrs : Option (List ℕ)} (lastdnptr : Option ℕ)
    (hfuel : dst ≤ 2 * fuel) (hps : ∀ p ∈ dnptrs.getD [], ∃ ds, Stands m dst p ds ∧ ds.length ≤ 128) :
    ∃ r, dnComp fuel m src dst space dnptrs lastdnptr = some r ∧
      ∀ a, r = some a → Appends m src dst space dnptrs a := by
  unfold dnComp
  by_cases hreject : 253 < nameLength src ∨ space ≤ 0
  · rw [if_pos hreject]
    exact ⟨none, rfl, fun a h => by cases h⟩
  rw [if_neg hreject]
  rw [not_or, not_lt] at hreject
  have hname := take_nameLength hreject.1
  by_cases hempty : nameLength src = 0
  · -- the root
    rw [if_pos hempty]
    refine ⟨_, rfl, fun a h => ?_⟩
    cases h
    rw [hempty] at hname
    refine ⟨⟨[], .root (by simp [write]), hname, by simp [text]⟩, by simp only; omega,
      fun x hx => ?_, .inl rfl⟩
    exact write_out m (by rw [length_singleton]; omega)
  rw [if_neg hempty]
  cases hlens : getlens (src.take (nameLength src)) 0 with
  | none => exact ⟨none, rfl, fun a h => by cases h⟩
  | some lens =>
    obtain ⟨ls, rfl, htext, hne, hls⟩ := getlens_labels (l := []) hlens (by simp; omega)
    rw [nil_append] at htext
    have hlength : nameLength src = (text ls).length := by
      rw [htext, length_take, min_eq_left (nameLength_le src)]
    have hsrc : text ls <+: src := by
      rw [htext]
      exact take_prefix _ _
    obtain ⟨best, hbest, hfound⟩ := bestMatch_found hne hsrc hfuel hps (0, 0) (.inl rfl)
    simp only [hlength, hbest, bind_eq_bind, bind_some]
    split
    · exact ⟨none, rfl, fun a h => by cases h⟩
    · refine ⟨_, rfl, fun a h => ?_⟩
      cases h
      obtain ⟨h1, h2, h3⟩ := encodeName_spec hne hls hsrc hfound
      refine ⟨⟨ls, h1, by rw [htext, hname], by omega⟩, ?_, h3, ?_⟩
      · simp only
        omega
      · exact savePtr_cases dnptrs lastdnptr dst _

/-! ### Runs -/

/-- Bytes that the caller stores, such as the header of a record, and a name that it appends after
them. -/
structure Append where
  gap : List UInt8
  name : List UInt8
  space : ℤ

/-- A name that was appended: where, and what `dn_comp` returned. -/
structure Entry where
  off : ℕ
  name : List UInt8
  ret : ℕ
  deriving DecidableEq, Repr

/-- A message of `fin` bytes that is being written, and its names so far. -/
structure Writer where
  msg : Message
  fin : ℕ
  dnptrs : List ℕ
  entries : List Entry

/-- One append, with `last` entries in `dnptrs`.  A name at an offset of 0x4000 or more, and one that
`dn_comp` refuses, is left out. -/
def Writer.append (fuel last : ℕ) (w : Writer) (a : Append) : Option Writer :=
  let dst := w.fin + a.gap.length
  let msg := write w.msg w.fin a.gap
  if 0x4000 ≤ dst then some w
  else
    match dnComp fuel msg a.name dst a.space (some w.dnptrs) (some last) with
    | none => none
    | some none => some { w with msg := msg, fin := dst }
    | some (some r) => some
      { msg := r.msg
        fin := dst + r.ret
        dnptrs := r.dnptrs.getD []
        entries := w.entries ++ [⟨dst, a.name, r.ret⟩] }

def Writer.run (fuel last : ℕ) : Writer → List Append → Option Writer
  | w, [] => some w
  | w, a :: as => (w.append fuel last a).bind fun w => w.run fuel last as

def Writer.start (msg : Message) : Writer := ⟨msg, 0, [], []⟩

def Entry.Kept (m : Message) (fin : ℕ) (en : Entry) : Prop :=
  ∃ ls b, NameAt m b en.off (en.off + en.ret) ls ∧ b ≤ en.off ∧ en.off + en.ret ≤ fin ∧
    text ls = withoutDot (cString en.name) ∧ (text ls).length ≤ 253

/-- **The invariant**: all names stand, and the pointers are theirs. -/
structure Writer.Inv (w : Writer) : Prop where
  kept : ∀ en ∈ w.entries, en.Kept w.msg w.fin
  ptrs : ∀ p ∈ w.dnptrs, ∃ en ∈ w.entries, en.off = p

variable {en : Entry} {fin : ℕ} {w : Writer}

lemma Entry.Kept.congr {m' : Message} {fin' : ℕ} (h : en.Kept m fin) (hm : ∀ x, x < fin → m' x = m x)
    (hfin : fin ≤ fin') : en.Kept m' fin' := by
  obtain ⟨ls, b, hname, hb, he, htext, hlen⟩ := h
  exact ⟨ls, b, hname.congr (fun x hx => hm x (by omega)) fun x _ hx => hm x (by omega),
    hb, by omega, htext, hlen⟩

lemma Entry.Kept.stands (h : en.Kept m fin) : ∃ ds, Stands m fin en.off ds ∧ ds.length ≤ 128 := by
  obtain ⟨ls, b, hname, hb, he, -, hlen⟩ := h
  have h := two_mul_length_le hname.labels_pos
  exact ⟨ls, ⟨b, _, hname, hb, he⟩, by omega⟩

section

variable (h : w.Inv) (hfuel : 0x2000 ≤ fuel) (last : ℕ)

include h hfuel

/-- **An append keeps the invariant.** -/
theorem Writer.Inv.append (a : Append) : ∃ w', w.append fuel last a = some w' ∧ w'.Inv := by
  unfold Writer.append
  simp only
  split
  · exact ⟨w, rfl, h⟩
  have hkept : ∀ en ∈ w.entries, en.Kept (write w.msg w.fin a.gap) (w.fin + a.gap.length) := fun en hen =>
    (h.kept en hen).congr (fun x hx => write_out w.msg (.inl hx)) (by omega)
  have hps : ∀ p ∈ (some w.dnptrs).getD [], ∃ ds,
      Stands (write w.msg w.fin a.gap) (w.fin + a.gap.length) p ds ∧ ds.length ≤ 128 := by
    intro p hp
    obtain ⟨en, hen, rfl⟩ := h.ptrs p hp
    exact (hkept en hen).stands
  obtain ⟨r, hr, hspec⟩ := dnComp_spec a.name a.space (some last)
    (show w.fin + a.gap.length ≤ 2 * fuel by omega) hps
  rw [hr]
  cases r with
  | none => exact ⟨_, rfl, hkept, h.ptrs⟩
  | some r =>
    obtain ⟨⟨ls, hname, htext, hlen⟩, -, hframe, hsaved⟩ := hspec r rfl
    refine ⟨_, rfl, ?_, ?_⟩
    · intro en hen
      rcases mem_append.1 hen with hen | hen
      · exact (hkept en hen).congr (fun x hx => hframe x (.inl hx)) (by simp only; omega)
      · rw [mem_singleton.1 hen]
        exact ⟨ls, _, hname, le_refl _, le_refl _, htext, hlen⟩
    · intro p hp
      have hcases : p ∈ w.dnptrs ∨ p = w.fin + a.gap.length := by
        rcases hsaved with hs | hs <;> rw [hs] at hp
        · exact .inl hp
        · simpa using hp
      rcases hcases with hp | rfl
      · obtain ⟨en, hen, hoff⟩ := h.ptrs p hp
        exact ⟨en, mem_append_left _ hen, hoff⟩
      · exact ⟨_, mem_append_right _ (mem_singleton.2 rfl), rfl⟩

lemma Writer.Inv.run (as : List Append) : ∃ w', w.run fuel last as = some w' ∧ w'.Inv := by
  induction as generalizing w with
  | nil => exact ⟨w, rfl, h⟩
  | cons a as ih =>
    obtain ⟨w', hw', hinv⟩ := h.append hfuel last a
    rw [Writer.run, hw']
    exact ih hinv

end

/-- **Names are read back as they were written.**  In every message that is written name by name, each
`dn_comp` ends, and `dn_expand` at the offset of a name returns the name without its trailing dot, and the
length that `dn_comp` returned. -/
theorem run_round_trips (msg : Message) {fuel : ℕ} (hfuel : 0x2000 ≤ fuel) (last : ℕ) (as : List Append) :
    ∃ w, (Writer.start msg).run fuel last as = some w ∧ ∀ en ∈ w.entries, ∀ (eom : ℕ) (space : ℤ),
      w.fin ≤ eom → (withoutDot (cString en.name)).length < space →
      dnExpand w.msg eom en.off space = some (en.ret, withoutDot (cString en.name)) := by
  have hstart : (Writer.start msg).Inv := ⟨by simp [Writer.start], by simp [Writer.start]⟩
  obtain ⟨w, hw, hinv⟩ := hstart.run hfuel last as
  refine ⟨w, hw, ?_⟩
  intro en hen eom space heom hspace
  obtain ⟨ls, b, hname, hb, he, htext, hlen⟩ := hinv.kept en hen
  rw [← htext] at hspace ⊢
  rw [dnExpand_nameAt hname hb (by omega) hlen hspace, Nat.add_sub_cancel_left]

/-- `a.bc` after a header of two bytes, then `d.bc.` and `bc`: the second points into the first, the
third is a pointer only. -/
def threeNames : List Append :=
  [⟨[1, 2], [97, 46, 98, 99], 100⟩, ⟨[], [100, 46, 98, 99, 46], 100⟩, ⟨[], [98, 99], 100⟩]

theorem run_round_trips_three : ∃ w, (Writer.start fun _ => 0).run 0x2000 10 threeNames = some w ∧
    w.entries = [⟨2, [97, 46, 98, 99], 6⟩, ⟨8, [100, 46, 98, 99, 46], 4⟩, ⟨12, [98, 99], 2⟩] ∧
    dnExpand w.msg w.fin 8 256 = some (4, [100, 46, 98, 99]) := by
  obtain ⟨w, hw, h⟩ := run_round_trips (fun _ => 0) (le_refl 0x2000) 10 threeNames
  have hentries : ((Writer.start fun _ => 0).run 0x2000 10 threeNames).map Writer.entries =
      some [⟨2, [97, 46, 98, 99], 6⟩, ⟨8, [100, 46, 98, 99, 46], 4⟩, ⟨12, [98, 99], 2⟩] := by
        decide +kernel
  rw [hw, map_some, some.injEq] at hentries
  refine ⟨w, hw, hentries, ?_⟩
  exact h ⟨8, [100, 46, 98, 99, 46], 4⟩ (by rw [hentries]; decide) w.fin 256 (le_refl _) (by decide)

end Musl.Network
