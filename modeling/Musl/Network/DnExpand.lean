import Musl.Lib.Buffer
import Musl.Network.DnComp

/-!
# `dn_expand` on any packet

The message comes from the network: pointers may lead anywhere, also in circles.  Here `dn_expand`
reads the message and writes to the buffer `dest` byte by byte, with the counter of type `int` that
ends a walk in a circle; a read or write outside of them and an overflow of the counter have no
value.
-/

namespace Musl.Network.Checked

open Musl.Lib.DnsName Musl.Lib.Buffer List Option

/-! ### The code -/

def intMin : ℤ := -2147483648
def intMax : ℤ := 2147483647

/-- The conversion of a `ptrdiff_t` to `int`. -/
def toInt (x : ℤ) : ℤ := (x + 2147483648) % 4294967296 - 2147483648

/-- `i += 2`. -/
def addTwo (i : ℤ) : Option ℤ := if i + 2 ≤ intMax then some (i + 2) else none

/-- The variables of the loop; `q` is the place of the pointer `dest` in the buffer. -/
structure Walk where
  p : ℕ
  dest : List UInt8
  q : ℕ
  len : ℤ

/-- A round ends with `return`, or not. -/
inductive Next where
  | done (ret : ℤ) (dest : List UInt8)
  | next (w : Walk)

/-- `if (dest != dbegin) *dest++ = '.';` -/
def putDot (dest : List UInt8) (q : ℕ) : Option (List UInt8 × ℕ) :=
  if q ≠ 0 then (put dest q [46]).map fun dest => (dest, q + 1) else some (dest, q)

variable (m : List UInt8) (src dend : ℕ)

def round (w : Walk) : Option Next := do
  let c ← m[w.p]?
  if c &&& 0xc0 ≠ 0 then
    if w.p + 1 = m.length then some (.done (-1) w.dest)
    else do
      let d ← m[w.p + 1]?
      let j := (c &&& 0x3f).toNat <<< 8 ||| d.toNat
      let len := if w.len < 0 then toInt (w.p + 2 - src) else w.len
      if j ≥ m.length then some (.done (-1) w.dest) else some (.next { w with p := j, len })
  else if c ≠ 0 then do
    let d ← putDot w.dest w.q
    let j := c.toNat
    if j ≥ m.length - (w.p + 1) ∨ j ≥ dend - d.2 then some (.done (-1) d.1)
    else do
      let dest ← put d.1 d.2 (← sub m (w.p + 1) j)
      some (.next { w with p := w.p + 1 + j, dest, q := d.2 + j })
  else do
    let dest ← put w.dest w.q [0]
    some (.done (if w.len < 0 then toInt (w.p + 1 - src) else w.len) dest)

/-- `for (i=0; i < end-base; i+=2)`, for at most so many rounds. -/
def loop : ℕ → ℤ → Walk → Option (ℤ × List UInt8)
  | 0, _, _ => none
  | rounds + 1, i, w =>
    if i < m.length then do
      match ← round m src dend w with
      | .done ret dest => some (ret, dest)
      | .next w => loop rounds (← addTwo i) w
    else some (-1, w.dest)

/-- `__dn_expand(base, end, src, dest, space)`: the return value and the buffer at `dest`. -/
def dnExpand (rounds : ℕ) (dest : List UInt8) (space : ℤ) : Option (ℤ × List UInt8) :=
  if src = m.length ∨ space ≤ 0 then some (-1, dest)
  else loop m src (if 254 < space then 254 else space.toNat) rounds 0 ⟨src, dest, 0, -1⟩

/-! ### A round -/

variable {m src dend} {dest₀ dest : List UInt8} {len : Option ℕ} {w : Walk}

def message (m : List UInt8) : Message := fun i => m.getD i 0

variable {p n eom r : ℕ} {msg : Message} {name : List UInt8}

lemma getElem?_eq_message (h : p < m.length) : m[p]? = some (message m p) := by
  rw [message, getD_eq_getElem?_getD, getElem?_eq_getElem h, getD_some]

lemma sub_eq_bytes (h : p + n ≤ m.length) : sub m p n = some (bytes (message m) p n) := by
  rw [sub, if_pos h]
  congr 1
  apply ext_getElem
  · rw [length_take, length_drop, bytes_length]
    omega
  · intro i hi hi'
    rw [bytes_length] at hi'
    simp [bytes, message, getElem?_eq_getElem (show p + i < m.length by omega)]

/-- The buffer holds the text and is as it was from `dend` on. -/
structure Holds (dend : ℕ) (dest₀ buf text : List UInt8) : Prop where
  lt : text.length < dend
  take : buf.take text.length = text
  length : buf.length = dest₀.length
  drop : buf.drop dend = dest₀.drop dend

lemma Holds.put {buf text : List UInt8} (h : Holds dend dest₀ buf text) (bs : List UInt8)
    (hcap : dend ≤ dest₀.length) (hle : text.length + bs.length ≤ dend) :
    ∃ buf', put buf text.length bs = some buf' ∧ buf'.take (text.length + bs.length) = text ++ bs ∧
      buf'.length = dest₀.length ∧ buf'.drop dend = dest₀.drop dend := by
  have hlen := h.length
  have hfits : text.length + bs.length ≤ buf.length := by omega
  obtain ⟨buf', w⟩ := exists_put buf text.length bs hfits
  exact ⟨buf',
    w.eq, by rw [w.take_add, h.take], by rw [w.length, hlen], by rw [w.drop_of_le _ hle, h.drop]⟩

/-- The walk is where `expandLoop` is, with the text and the length that it has. -/
structure Sim (m : List UInt8) (src dend : ℕ) (dest₀ : List UInt8) (w : Walk) (dest : List UInt8)
    (len : Option ℕ) :
    Prop where
  p_lt : w.p < m.length
  q_eq : w.q = dest.length
  holds : Holds dend dest₀ w.dest dest
  len_eq : w.len = len.elim (-1) fun n => (n : ℤ)
  near : len = none → src ≤ w.p ∧ w.p ≤ src + (if dest ≠ [] then dest ++ [46] else dest).length

/-- The result is that of `expandLoop`, and the text is in the buffer with a zero byte after it. -/
def Result (dend : ℕ) (dest₀ : List UInt8) (r : Option (ℕ × List UInt8)) (ret : ℤ)
    (buf : List UInt8) : Prop :=
  buf.length = dest₀.length ∧ buf.drop dend = dest₀.drop dend ∧
    match r with
    | none => ret = -1
    | some (n, name) => ret = n ∧ name.length < dend ∧ buf.take (name.length + 1) = name ++ [0]

def RoundOk (m : List UInt8) (src dend : ℕ) (dest₀ dest : List UInt8) (len : Option ℕ) (n p : ℕ) :
    Next → Prop
  | .done ret buf =>
    Result dend dest₀ (expandLoop (message m) m.length dend src (n + 1) p dest len) ret buf
  | .next w => ∃ dest' len', Sim m src dend dest₀ w dest' len' ∧
      expandLoop (message m) m.length dend src (n + 1) p dest len =
        expandLoop (message m) m.length dend src n w.p dest' len'

lemma length_dotted (dest : List UInt8) :
    dest.length ≤ (if dest ≠ [] then dest ++ [46] else dest).length ∧
      (if dest ≠ [] then dest ++ [46] else dest).length ≤ dest.length + 1 := by
  split_ifs <;> simp

section

variable (h : Sim m src dend dest₀ w dest len)

include h

/-- `if (len < 0) len = p+k-src;` -/
lemma Sim.len_set (hdend : dend ≤ 254) {k : ℕ} (hk : k ≤ 2) :
    (if w.len < 0 then toInt (w.p + k - src) else w.len) = ((len.getD (w.p + k - src) : ℕ) : ℤ) := by
  have hlt := h.holds.lt
  have hdot := length_dotted dest
  cases len with
  | none =>
    have hlen : w.len = -1 := h.len_eq
    have hnear := h.near rfl
    rw [toInt, getD_none]
    omega
  | some n =>
    have hlen : w.len = n := h.len_eq
    rw [if_neg (by omega), hlen, getD_some]

/-- **A round** stays inside of the message and of the buffer. -/
theorem round_sim (hdend : dend ≤ 254) (hcap : dend ≤ dest₀.length) (n : ℕ) :
    ∃ nx, round m src dend w = some nx ∧ RoundOk m src dend dest₀ dest len n w.p nx := by
  have hp := h.p_lt
  have hq := h.q_eq
  have hheld := h.holds
  have hlt := hheld.lt
  rw [round, getElem?_eq_message hp]
  simp only [bind_eq_bind, bind_some]
  by_cases hptr : message m w.p &&& 0xc0 ≠ 0
  · -- a pointer
    rw [if_pos hptr]
    by_cases hend : w.p + 1 = m.length
    · rw [if_pos hend]
      refine ⟨_, rfl, hheld.length, hheld.drop, ?_⟩
      rw [expandLoop, if_pos hptr, if_pos hend]
    rw [if_neg hend, getElem?_eq_message (by omega), bind_some]
    have htarget : (message m w.p &&& 0x3f).toNat <<< 8 ||| (message m (w.p + 1)).toNat =
      target (message m) w.p := rfl
    rw [htarget]
    by_cases hout : target (message m) w.p ≥ m.length
    · rw [if_pos hout]
      refine ⟨_, rfl, hheld.length, hheld.drop, ?_⟩
      rw [expandLoop, if_pos hptr, if_neg hend, if_pos hout]
    · rw [if_neg hout]
      refine ⟨_, rfl, dest, some (len.getD (w.p + 2 - src)),
        ⟨not_le.1 hout, hq, hheld, ?_, fun hnone => ?_⟩, ?_⟩
      · exact h.len_set hdend le_rfl
      · exact absurd hnone (by simp)
      · rw [expandLoop, if_pos hptr, if_neg hend, if_neg hout]
  rw [if_neg hptr]
  by_cases hzero : message m w.p ≠ 0
  · -- a label
    rw [if_pos hzero]
    obtain ⟨buf, hdot, hbuf⟩ : ∃ buf,
      putDot w.dest w.q = some (buf, (if dest ≠ [] then dest ++ [46] else dest).length) ∧
        buf.length = dest₀.length ∧ buf.drop dend = dest₀.drop dend ∧
        buf.take (if dest ≠ [] then dest ++ [46] else dest).length = if dest ≠ [] then dest ++ [46]
        else dest := by
      rw [putDot, hq]
      by_cases hnil : dest = []
      · subst hnil
        exact ⟨w.dest, rfl, hheld.length, hheld.drop, rfl⟩
      · have hne : dest.length ≠ 0 := fun hz => hnil (length_eq_zero_iff.1 hz)
        obtain ⟨buf, hput, htake, hlen, hdrop⟩ := hheld.put [46] hcap (by rw [length_singleton]; omega)
        refine ⟨buf, ?_, hlen, hdrop, ?_⟩
        · rw [if_pos hne, hput, if_pos hnil, length_append]
          rfl
        · rw [if_pos hnil, length_append]
          exact htake
    rw [hdot, bind_some]
    obtain ⟨dotted, hdotted⟩ : ∃ d, d = if dest ≠ [] then dest ++ [46] else dest := ⟨_, rfl⟩
    have hdlen := length_dotted dest
    rw [← hdotted] at hbuf hdlen ⊢
    have hexpand : expandLoop (message m) m.length dend src (n + 1) w.p dest len =
        if m.length ≤ w.p + 1 + (message m w.p).toNat ∨ dend ≤ dotted.length + (message m w.p).toNat
        then none
        else expandLoop (message m) m.length dend src n (w.p + 1 + (message m w.p).toNat)
          (dotted ++ bytes (message m) (w.p + 1) (message m w.p).toNat) len := by
      rw [expandLoop, if_neg hptr, if_pos hzero, ← hdotted]
    by_cases hfar : (message m w.p).toNat ≥ m.length - (w.p + 1) ∨
      (message m w.p).toNat ≥ dend - dotted.length
    · rw [if_pos hfar]
      refine ⟨_, rfl, hbuf.1, hbuf.2.1, ?_⟩
      rw [hexpand, if_pos (by omega)]
    · rw [if_neg hfar]
      have hheld' : Holds dend dest₀ buf dotted := ⟨by omega, hbuf.2.2, hbuf.1, hbuf.2.1⟩
      obtain ⟨buf', hput, htake, hlen, hdrop⟩ :=
        hheld'.put (bytes (message m) (w.p + 1) (message m w.p).toNat) hcap
        (by rw [bytes_length]; omega)
      rw [sub_eq_bytes (by omega), bind_some, hput]
      refine ⟨_, rfl, dotted ++ bytes (message m) (w.p + 1) (message m w.p).toNat, len,
        ⟨by dsimp only; omega, ?_, ⟨?_, ?_, hlen, hdrop⟩, h.len_eq, fun hnone => ?_⟩, ?_⟩
      · rw [length_append, bytes_length]
      · rw [length_append, bytes_length]
        omega
      · rw [length_append]
        exact htake
      · have hnear := h.near hnone
        rw [← hdotted] at hnear
        have hmore := length_dotted (dotted ++ bytes (message m) (w.p + 1) (message m w.p).toNat)
        have hj : (message m w.p).toNat ≠ 0 := fun hz => hzero (UInt8.toNat_inj.1 hz)
        rw [if_pos (by rw [ne_eq, ← length_eq_zero_iff, length_append, bytes_length]; omega)] at hmore ⊢
        rw [length_append, length_append, bytes_length, length_singleton]
        dsimp only
        omega
      · rw [hexpand, if_neg (by omega)]
  · -- the end
    rw [if_neg hzero]
    obtain ⟨buf, hput, htake, hlen, hdrop⟩ := hheld.put [0] hcap (by rw [length_singleton]; omega)
    rw [hq, hput]
    refine ⟨_, rfl, hlen, hdrop, ?_⟩
    rw [expandLoop, if_neg hptr, if_neg hzero]
    exact ⟨h.len_set hdend (k := 1) (by omega), hlt, htake⟩

/-! ### The loop -/

/-- **The loop** ends by its counter. -/
theorem loop_sim (hdend : dend ≤ 254) (hcap : dend ≤ dest₀.length)
    (hm : (m.length : ℤ) < intMax) {i : ℕ} (hn : n = (m.length - i + 1) / 2) (hi : i ≤ m.length + 1) :
    ∃ ret buf, (∀ rounds, n < rounds → loop m src dend rounds i w = some (ret, buf)) ∧
      Result dend dest₀ (expandLoop (message m) m.length dend src n w.p dest len) ret buf := by
  induction n generalizing i w dest len with
  | zero =>
    refine ⟨-1, w.dest, fun rounds hrounds => ?_, h.holds.length, h.holds.drop, rfl⟩
    obtain _ | rounds := rounds
    · omega
    rw [loop, if_neg (by omega)]
  | succ n ih =>
    obtain ⟨nx, hround, hok⟩ := round_sim h hdend hcap n
    cases nx with
    | done ret buf =>
      refine ⟨ret, buf, fun rounds hrounds => ?_, hok⟩
      obtain _ | rounds := rounds
      · omega
      rw [loop, if_pos (by omega), hround]
      rfl
    | next w' =>
      obtain ⟨dest', len', hsim, heq⟩ := hok
      obtain ⟨ret, buf, hloop, hres⟩ := ih hsim (i := i + 2) (by omega) (by omega)
      refine ⟨ret, buf, fun rounds hrounds => ?_, by rw [heq]; exact hres⟩
      obtain _ | rounds := rounds
      · omega
      have hadd : addTwo i = some ((i + 2 : ℕ) : ℤ) := by
        rw [addTwo, if_pos (by omega)]
        rfl
      rw [loop, if_pos (by omega), hround]
      simp only [hadd]
      exact hloop rounds (by omega)

end

lemma expandLoop_cases {x : ℕ × List UInt8}
    (h : expandLoop msg eom dend src (n + 1) p dest len = some x) :
    (msg p &&& 0xc0 ≠ 0 ∧
      expandLoop msg eom dend src n (target msg p) dest (some (len.getD (p + 2 - src))) = some x) ∨
    (∃ l, LabelAt msg p l ∧ expandLoop msg eom dend src n (p + 1 + l.length)
      ((if dest ≠ [] then dest ++ [46] else dest) ++ l) len = some x) ∨
    (msg p = 0 ∧ x = (len.getD (p + 1 - src), dest)) := by
  rw [expandLoop] at h
  by_cases hptr : msg p &&& 0xc0 ≠ 0
  · refine .inl ⟨hptr, ?_⟩
    rw [if_pos hptr] at h
    by_cases hend : p + 1 = eom
    · rw [if_pos hend] at h
      cases h
    rw [if_neg hend] at h
    by_cases hout : eom ≤ target msg p
    · rw [if_pos hout] at h
      cases h
    · rwa [if_neg hout] at h
  rw [if_neg hptr] at h
  by_cases hzero : msg p ≠ 0
  · refine .inr (.inl ⟨bytes msg (p + 1) (msg p).toNat, ?_, ?_⟩)
    · have hj : (msg p).toNat ≠ 0 := fun hz => hzero (UInt8.toNat_inj.1 hz)
      refine ⟨(bytes_length _ _ _).symm, by rw [bytes_length]; omega, ?_, by rw [bytes_length]⟩
      rw [bytes_length]
      exact length_le_of_bits (not_not.1 hptr)
    · rw [if_pos hzero] at h
      by_cases hfar : eom ≤ p + 1 + (msg p).toNat ∨
          dend ≤ (if dest ≠ [] then dest ++ [46] else dest).length + (msg p).toNat
      · rw [if_pos hfar] at h
        cases h
      · rw [if_neg hfar] at h
        rwa [bytes_length]
  · rw [if_neg hzero] at h
    exact .inr (.inr ⟨not_not.1 hzero, (some.inj h).symm⟩)

lemma expandLoop_follows (h : expandLoop msg eom dend src n p dest len = some (r, name)) :
    ∃ ls, Follows msg p ls ∧ name = joined dest ls := by
  induction n generalizing p dest len with
  | zero => exact absurd h (by simp [expandLoop])
  | succ n ih =>
    rcases expandLoop_cases h with ⟨hptr, hrest⟩ | ⟨l, hl, hrest⟩ | ⟨hzero, heq⟩
    · obtain ⟨ls, hls, hname⟩ := ih hrest
      exact ⟨ls, .pointer hptr hls, hname⟩
    · obtain ⟨ls, hls, hname⟩ := ih hrest
      exact ⟨l :: ls, .label hl hls, hname⟩
    · cases heq
      exact ⟨[], .root hzero, rfl⟩

lemma expandLoop_pos (hp : len = none → src ≤ p) (hlen : ∀ k, len = some k → 0 < k)
    (h : expandLoop msg eom dend src n p dest len = some (r, name)) : 0 < r := by
  induction n generalizing p dest len with
  | zero => exact absurd h (by simp [expandLoop])
  | succ n ih =>
    have hset : ∀ k, 0 < k → 0 < len.getD (p + k - src) := by
      intro k hk
      cases len with
      | none =>
        have := hp rfl
        rw [getD_none]
        omega
      | some l => exact hlen l rfl
    rcases expandLoop_cases h with ⟨-, hrest⟩ | ⟨l, -, hrest⟩ | ⟨-, heq⟩
    · refine ih (fun hnone => absurd hnone (by simp)) (fun k hk => ?_) hrest
      cases hk
      exact hset 2 (by decide)
    · exact ih (fun hnone => by have := hp hnone; omega) hlen hrest
    · cases heq
      exact hset 1 (by decide)

/-- **`dn_expand` is safe on any packet** of fewer than `INT_MAX` bytes.  It returns after finitely
many rounds, without an access outside of the message and of the first `min(space, 254)` bytes of
`dest`, and with what `Network.dnExpand` says; a positive length comes with the text of the labels
that stand at `src`. -/
theorem dnExpand_safe {m : List UInt8} (hm : (m.length : ℤ) < intMax) {src : ℕ}
    (hsrc : src ≤ m.length) {dest : List UInt8} {space : ℤ} (hspace : space ≤ dest.length) :
    ∃ ret buf, (∀ rounds, m.length < rounds → dnExpand m src rounds dest space = some (ret, buf)) ∧
      buf.length = dest.length ∧ buf.drop (min space 254).toNat = dest.drop (min space 254).toNat ∧
      (0 < ret → ∃ ls, Follows (message m) src ls ∧ (text ls).length < min space 254 ∧
        buf.take ((text ls).length + 1) = text ls ++ [0] ∧
        Network.dnExpand (message m) m.length src space = some (ret.toNat, text ls)) ∧
      (¬0 < ret → ret = -1 ∧ Network.dnExpand (message m) m.length src space = none) := by
  by_cases hout : src = m.length ∨ space ≤ 0
  · refine ⟨-1, dest, fun rounds _ => ?_, rfl, rfl, fun hpos => absurd hpos (by decide),
      fun _ => ⟨rfl, ?_⟩⟩
    · rw [dnExpand, if_pos hout]
    · rw [Network.dnExpand, if_pos hout]
  obtain ⟨dend, hdend⟩ : ∃ dend, dend = if 254 < space then 254 else space.toNat := ⟨_, rfl⟩
  have hmin : (min space 254).toNat = dend := by
    rw [hdend]
    split_ifs <;> omega
  have hbound : 0 < dend ∧ dend ≤ 254 ∧ dend ≤ dest.length := by
    rw [hdend]
    split_ifs <;> omega
  have hsim : Sim m src dend dest ⟨src, dest, 0, -1⟩ [] none :=
    ⟨by dsimp only; omega, rfl, ⟨hbound.1, rfl, rfl, rfl⟩, rfl, fun _ => ⟨le_rfl, le_rfl⟩⟩
  have hold : Network.dnExpand (message m) m.length src space =
      expandLoop (message m) m.length dend src ((m.length + 1) / 2) src [] none := by
    rw [Network.dnExpand, if_neg hout, hdend]
  obtain ⟨ret, buf, hloop, hres⟩ := loop_sim hsim hbound.2.1 hbound.2.2 hm rfl (Nat.zero_le _)
  rw [Nat.sub_zero] at hloop hres
  rw [hmin, hold]
  obtain ⟨hlen, hdrop, hmatch⟩ := hres
  refine ⟨ret, buf, fun rounds hrounds => ?_, hlen, hdrop, ?_⟩
  · rw [dnExpand, if_neg hout, ← hdend]
    exact hloop rounds (by omega)
  cases hexp : expandLoop (message m) m.length dend src ((m.length + 1) / 2) src [] none with
  | none =>
    rw [hexp] at hmatch
    have hret : ret = -1 := hmatch
    exact ⟨fun hpos => by omega, fun _ => ⟨hret, rfl⟩⟩
  | some r =>
    obtain ⟨n, name⟩ := r
    rw [hexp] at hmatch
    obtain ⟨hret, hlt, htake⟩ := hmatch
    obtain ⟨ls, hls, hname⟩ := expandLoop_follows hexp
    rw [joined_nil hls.labels_pos] at hname
    subst hname
    have hpos := expandLoop_pos (fun _ => le_rfl) (fun k hk => absurd hk (by simp)) hexp
    exact ⟨fun _ => ⟨ls, hls, by omega, htake, by rw [hret, Int.toNat_natCast]⟩, fun hneg => by omega⟩

/-- A pointer to itself: the walk ends when the counter has passed the end of the message. -/
theorem dnExpand_safe_circle : ∃ ret buf,
    (∀ rounds, 2 < rounds → dnExpand [0xc0, 0] 0 rounds [7, 7] 2 = some (ret, buf)) ∧ buf = [7, 7] := by
  obtain ⟨ret, buf, hres, hlen, -, -, hneg⟩ :=
    @dnExpand_safe [0xc0, 0] (by decide) 0 (by decide) [7, 7] 2 (by decide)
  refine ⟨ret, buf, hres, ?_⟩
  have heval : dnExpand [0xc0, 0] 0 3 [7, 7] 2 = some (-1, [7, 7]) := by decide +kernel
  rw [hres 3 (by decide)] at heval
  cases heval
  rfl

lemma loop_circle {m : List UInt8} (h0 : m[0]? = some 0xc0) (h1 : m[0 + 1]? = some 0)
    (hlen : (m.length : ℤ) = intMax) (rounds : ℕ) {i : ℤ} {len : ℤ} (hi : i % 2 = 0 ∧ i < intMax) :
    loop m 0 2 rounds i ⟨0, [7, 7], 0, len⟩ = none := by
  have htarget : ((0xc0 : UInt8) &&& 0x3f).toNat <<< 8 ||| (0 : UInt8).toNat = 0 := by decide
  have hlong : ¬0 + 1 = m.length ∧ ¬0 ≥ m.length := by
    unfold intMax at hlen
    omega
  have hround : ∀ len, ∃ len', round m 0 2 ⟨0, [7, 7], 0, len⟩ = some (.next ⟨0, [7, 7], 0, len'⟩) := by
    intro len
    refine ⟨if len < 0 then toInt ((0 : ℕ) + 2 - (0 : ℕ)) else len, ?_⟩
    rw [round]
    simp only [h0, bind_eq_bind, bind_some, if_neg hlong.1, h1, htarget, if_neg hlong.2]
    rw [if_pos (by decide)]
  induction rounds generalizing i len with
  | zero => rfl
  | succ rounds ih =>
    obtain ⟨len', hnext⟩ := hround len
    rw [loop, if_pos (by rw [hlen]; exact hi.2), hnext]
    simp only [bind_eq_bind, bind_some]
    by_cases hmore : i + 2 ≤ intMax
    · rw [addTwo, if_pos hmore]
      unfold intMax at hmore
      exact ih ⟨by omega, by unfold intMax; omega⟩
    · rw [addTwo, if_neg hmore, bind_none]

/-- The same pointer at the start of a message of `INT_MAX` bytes: the counter would have to go
beyond `INT_MAX`. -/
theorem dnExpand_circle_overflows :
    ((0xc0 :: 0 :: replicate (intMax - 2).toNat (0 : UInt8)).length : ℤ) = intMax ∧
      ∀ rounds, dnExpand (0xc0 :: 0 :: replicate (intMax - 2).toNat 0) 0 rounds [7, 7] 2 = none := by
  have hlen : ((0xc0 :: 0 :: replicate (intMax - 2).toNat (0 : UInt8)).length : ℤ) = intMax := by
    rw [length_cons, length_cons, length_replicate]
    unfold intMax
    omega
  refine ⟨hlen, fun rounds => ?_⟩
  have h0 : (0xc0 :: 0 :: replicate (intMax - 2).toNat (0 : UInt8))[0]? = some 0xc0 := rfl
  have h1 : (0xc0 :: 0 :: replicate (intMax - 2).toNat (0 : UInt8))[0 + 1]? = some 0 := rfl
  generalize 0xc0 :: 0 :: replicate (intMax - 2).toNat (0 : UInt8) = m at hlen h0 h1
  have hstart : ¬(0 = m.length ∨ (2 : ℤ) ≤ 0) := by
    unfold intMax at hlen
    omega
  rw [dnExpand, if_neg hstart]
  exact loop_circle h0 h1 hlen rounds ⟨rfl, by decide⟩

end Musl.Network.Checked
