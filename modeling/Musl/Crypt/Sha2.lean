import Musl.Lib.Octets

/-!
# SHA-2: updates and padding

`SHA256Update`, `SHA256Pad` and their twins for SHA-512 in `src/crypt/hash_sha2.c`, over any block
transform.  Of the buffer only the octets of one block are modelled: a copy that would go beyond
them has no value.
-/

namespace Musl.Crypt.Sha2

open Musl.Lib.Octets List

inductive Alg where
  | sha256
  | sha512

namespace Alg

/-- `SHA256_BLOCK_LENGTH`, `SHA512_BLOCK_LENGTH`. -/
def block : Alg → ℕ
  | sha256 => 64
  | sha512 => 128

/-- `SHA256_SHORT_BLOCK_LENGTH`, `SHA512_SHORT_BLOCK_LENGTH`. -/
def short : Alg → ℕ
  | sha256 => 64 - 8
  | sha512 => 128 - 16

/-- How much is cleared before the last transform if the padding takes two blocks. -/
def clear : Alg → ℕ
  | sha256 => 64 - 8
  | sha512 => 128 - 2

/-- `bitcount[0] += n`, or `ADDINC128(bitcount, n)`. -/
def addinc : Alg → ℕ × ℕ → ℕ → ℕ × ℕ
  | sha256, w, n => ((w.1 + n) % 2 ^ 64, w.2)
  | sha512, w, n => ((w.1 + n) % 2 ^ 64, if (w.1 + n) % 2 ^ 64 < n then (w.2 + 1) % 2 ^ 64 else w.2)

/-- What `BE_64_TO_8` stores after the short block. -/
def field : Alg → ℕ × ℕ → List UInt8
  | sha256, w => octets w.1 8
  | sha512, w => octets w.2 8 ++ octets w.1 8

lemma block_pos (a : Alg) : 0 < a.block := by cases a <;> decide

end Alg

structure Context (σ : Type) where
  state : σ
  bitcount : ℕ × ℕ
  buffer : List UInt8

/-- `memcpy(&buffer[i], bs, ...)`. -/
def put (a : Alg) (buf : List UInt8) (i : ℕ) (bs : List UInt8) : Option (List UInt8) :=
  if i + bs.length ≤ a.block then some (buf.take i ++ (bs ++ buf.drop (i + bs.length))) else none

section

variable {σ : Type} (a : Alg) (transform : σ → List UInt8 → σ)

def init (s : σ) : Context σ := ⟨s, (0, 0), replicate a.block 0⟩

def Context.count (c : Context σ) (len : ℕ) : ℕ × ℕ := a.addinc c.bitcount (8 * len % 2 ^ 64)

def Context.usedspace (c : Context σ) : ℕ := c.bitcount.1 / 8 % a.block

/-- The loop over complete blocks, and the data left after it. -/
def blockLoop (c : Context σ) (data : List UInt8) : Context σ × List UInt8 :=
  if a.block ≤ data.length then
    blockLoop { c with state := transform c.state (data.take a.block), bitcount := c.count a a.block }
      (data.drop a.block)
  else (c, data)
termination_by data.length
decreasing_by
  rw [length_drop]
  exact Nat.sub_lt (a.block_pos.trans_le ‹_›) a.block_pos

def updateBlocks (c : Context σ) (data : List UInt8) : Option (Context σ) := do
  let (c, data) := blockLoop a transform c data
  if data.length > 0 then
    let buf ← put a c.buffer 0 data
    return { c with buffer := buf, bitcount := c.count a data.length }
  else return c

def update (c : Context σ) (data : List UInt8) : Option (Context σ) := do
  if data.length = 0 then return c
  let used := c.usedspace a
  if used > 0 then
    let free := a.block - used
    if data.length ≥ free then
      let buf ← put a c.buffer used (data.take free)
      updateBlocks a transform ⟨transform c.state buf, c.count a free, buf⟩ (data.drop free)
    else
      let buf ← put a c.buffer used data
      return { c with buffer := buf, bitcount := c.count a data.length }
  else updateBlocks a transform c data

/-- The padding up to the short block; `memset` of nothing is left out in the source. -/
def padShort (c : Context σ) : Option (σ × List UInt8) := do
  let used := c.usedspace a
  if used > 0 then
    let buf ← put a c.buffer used [0x80]
    if used + 1 ≤ a.short then
      let buf ← put a buf (used + 1) (replicate (a.short - (used + 1)) 0)
      return (c.state, buf)
    else
      let buf ← put a buf (used + 1) (replicate (a.block - (used + 1)) 0)
      let cleared ← put a buf 0 (replicate a.clear 0)
      return (transform c.state buf, cleared)
  else
    let buf ← put a c.buffer 0 (replicate a.short 0)
    let buf ← put a buf 0 [0x80]
    return (c.state, buf)

def pad (c : Context σ) : Option (Context σ) := do
  let (state, buf) ← padShort a transform c
  let buf ← put a buf a.short (a.field c.bitcount)
  return ⟨transform state buf, c.bitcount, buf⟩

def digest (s : σ) (chunks : List (List UInt8)) : Option σ := do
  let c ← chunks.foldlM (update a transform) (init a s)
  let c ← pad a transform c
  return c.state

/-! ### The padded message -/

def blocksOf (l : List UInt8) : List (List UInt8) :=
  if a.block ≤ l.length then l.take a.block :: blocksOf (l.drop a.block) else []
termination_by l.length
decreasing_by
  rw [length_drop]
  exact Nat.sub_lt (a.block_pos.trans_le ‹_›) a.block_pos

/-- A one bit, the fewest zeros that lead to a short block, and the length in bits. -/
def padded (m : List UInt8) : List UInt8 :=
  m ++ 0x80 :: replicate ((a.short + a.block - (m.length + 1) % a.block) % a.block) 0 ++
    octets (8 * m.length) (a.block - a.short)

lemma blocksOf_flatten {bs : List (List UInt8)} (h : ∀ b ∈ bs, b.length = a.block) :
    blocksOf a bs.flatten = bs := by
  induction bs with
  | nil =>
    rw [blocksOf, if_neg]
    exact a.block_pos.not_ge
  | cons b bs ih =>
    rw [forall_mem_cons] at h
    rw [blocksOf, flatten_cons, if_pos (by rw [length_append, h.1]; exact Nat.le_add_right _ _),
      take_left' h.1,
      drop_left' h.1, ih h.2]

/-- The transform was applied to the blocks of `m`; `r` is left of it. -/
def Absorbed (s : σ) (m : List UInt8) (state : σ) (r : List UInt8) : Prop :=
  r.length < a.block ∧ ∃ bs : List (List UInt8),
    (∀ b ∈ bs, b.length = a.block) ∧ m = bs.flatten ++ r ∧ state = bs.foldl transform s

/-- The context after the message `m`. -/
structure Holds (s : σ) (m : List UInt8) (c : Context σ) : Prop where
  len : c.buffer.length = a.block
  count : c.bitcount = (8 * m.length, 0)
  absorbed : Absorbed a transform s m c.state (c.buffer.take (m.length % a.block))

end

section

variable {σ : Type} {a : Alg} {f : σ → List UInt8 → σ} {s state : σ} {m r d buf : List UInt8}
    {c : Context σ} {i : ℕ}

lemma Absorbed.fill (h : Absorbed a f s m state r) (hd : r.length + d.length = a.block) :
    Absorbed a f s (m ++ d) (f state (r ++ d)) [] := by
  obtain ⟨-, bs, hbs, rfl, rfl⟩ := h
  refine ⟨a.block_pos, bs ++ [r ++ d], ?_, by simp, by simp⟩
  intro b hb
  rcases mem_append.1 hb with hb | hb
  · exact hbs b hb
  · rw [mem_singleton.1 hb, length_append, hd]

lemma Absorbed.state_eq (h : Absorbed a f s m state []) : state = (blocksOf a m).foldl f s := by
  obtain ⟨-, bs, hbs, rfl, rfl⟩ := h
  rw [append_nil, blocksOf_flatten a hbs]

/-! ### Updates -/

lemma exists_put (hlen : buf.length = a.block) (h : i + d.length ≤ a.block) :
    ∃ buf', put a buf i d = some buf' ∧ buf'.length = a.block ∧
    buf'.take (i + d.length) = buf.take i ++ d := by
  refine ⟨_, if_pos h, ?_, ?_⟩
  · simp only [length_append, length_take, length_drop]
    omega
  · rw [← append_assoc, take_left']
    simp only [length_append, length_take]
    omega

section

variable (h : Holds a f s m c)
include h

lemma Holds.usedspace : c.usedspace a = m.length % a.block := by
  rw [Context.usedspace, h.count, Nat.mul_div_cancel_left _ (by decide)]

lemma Holds.length_rest : (c.buffer.take (m.length % a.block)).length = m.length % a.block := by
  rw [length_take, h.len, min_eq_left (Nat.mod_lt _ a.block_pos).le]

lemma Holds.count_add (hsum : (m ++ d).length < 2 ^ 61) :
    c.count a d.length = (8 * (m ++ d).length, 0) := by
  rw [length_append] at hsum ⊢
  have hfits : 8 * m.length + 8 * d.length < 2 ^ 64 := by omega
  rw [Context.count, h.count, Nat.mod_eq_of_lt (by omega), mul_add]
  cases a with
  | sha256 => rw [Alg.addinc, Nat.mod_eq_of_lt hfits]
  | sha512 => rw [Alg.addinc, Nat.mod_eq_of_lt hfits, if_neg (by omega)]

lemma Holds.fill (hd : m.length % a.block + d.length = a.block) (hsum : (m ++ d).length < 2 ^ 61)
    (hbuf : buf.length = a.block) :
    Holds a f s (m ++ d)
      ⟨f c.state (c.buffer.take (m.length % a.block) ++ d), c.count a d.length, buf⟩ := by
  refine ⟨hbuf, h.count_add hsum, ?_⟩
  rw [show (m ++ d).length % a.block = 0 by rw [length_append, ← Nat.mod_add_mod, hd, Nat.mod_self]]
  exact h.absorbed.fill (by rw [h.length_rest, hd])

lemma Holds.keep (hd : m.length % a.block + d.length < a.block) (hsum : (m ++ d).length < 2 ^ 61) :
    ∃ buf, put a c.buffer (m.length % a.block) d = some buf ∧
      Holds a f s (m ++ d) { c with buffer := buf, bitcount := c.count a d.length } := by
  obtain ⟨buf, hput, hlen, htake⟩ := exists_put h.len hd.le
  refine ⟨buf, hput, hlen, h.count_add hsum, ?_⟩
  obtain ⟨-, bs, hbs, hm, hstate⟩ := h.absorbed
  rw [length_append, ← Nat.mod_add_mod, Nat.mod_eq_of_lt hd, htake]
  refine ⟨?_, bs, hbs, ?_, hstate⟩
  · rwa [length_append, h.length_rest]
  · rw [← append_assoc, ← hm]

end

lemma updateBlocks_holds (h : Holds a f s m c) (hm : m.length % a.block = 0) {data : List UInt8}
    (hsum : (m ++ data).length < 2 ^ 61) :
    ∃ c', updateBlocks a f c data = some c' ∧ Holds a f s (m ++ data) c' := by
  rw [updateBlocks]
  fun_induction blockLoop a f c data generalizing m with
  | case1 c data hle ih =>
    have hlen : (data.take a.block).length = a.block := length_take_of_le hle
    have hfill := h.fill (d := data.take a.block) (by rw [hm, hlen, zero_add])
      (by rw [length_append] at hsum ⊢; omega) h.len
    rw [hm, take_zero, nil_append, hlen] at hfill
    have happ : m ++ data = m ++ data.take a.block ++ data.drop a.block := by simp
    rw [happ] at hsum ⊢
    exact ih hfill (by rw [length_append, hlen, Nat.add_mod_right, hm]) hsum
  | case2 c data hlt =>
    by_cases hd : data.length = 0
    · rw [length_eq_zero_iff.1 hd, append_nil]
      exact ⟨c, rfl, h⟩
    · obtain ⟨buf, hput, hkeep⟩ := h.keep (d := data) (by omega) hsum
      rw [hm] at hput
      refine ⟨_, ?_, hkeep⟩
      simp [Nat.pos_of_ne_zero hd, hput]

/-- **An update adds its data to the message.** -/
theorem update_holds (h : Holds a f s m c) (data : List UInt8) (hsum : (m ++ data).length < 2 ^ 61) :
    ∃ c', update a f c data = some c' ∧ Holds a f s (m ++ data) c' := by
  have hlt := Nat.mod_lt m.length a.block_pos
  rw [update, h.usedspace]
  by_cases hd : data.length = 0
  · rw [if_pos hd, length_eq_zero_iff.1 hd, append_nil]
    exact ⟨c, rfl, h⟩
  rw [if_neg hd]
  by_cases hu : m.length % a.block > 0
  · by_cases hfree : data.length ≥ a.block - m.length % a.block
    · obtain ⟨x, y, rfl, hx⟩ : ∃ x y, data = x ++ y ∧ x.length = a.block - m.length % a.block :=
        ⟨_, _, (take_append_drop _ data).symm, length_take_of_le hfree⟩
      have hfull : m.length % a.block + x.length = a.block := by omega
      obtain ⟨buf, hput, hbuf, htake⟩ := exists_put h.len hfull.le
      rw [← append_assoc] at hsum ⊢
      have hfill := h.fill hfull (by rw [length_append] at hsum; omega) hbuf
      rw [← htake, hfull, take_of_length_le hbuf.le] at hfill
      obtain ⟨c', hupdate, hholds⟩ := updateBlocks_holds hfill
        (by rw [length_append, ← Nat.mod_add_mod, hfull, Nat.mod_self]) hsum
      refine ⟨c', ?_, hholds⟩
      rw [if_pos hu, if_pos hfree, ← hx, take_left, drop_left, hput]
      exact hupdate
    · obtain ⟨buf, hput, hkeep⟩ := h.keep (d := data) (by omega) hsum
      refine ⟨_, ?_, hkeep⟩
      simp [hu, hfree, hput]
  · obtain ⟨c', hupdate, hholds⟩ := updateBlocks_holds h (by omega) hsum
    exact ⟨c', by simp [hu, hupdate], hholds⟩

/-! ### Padding -/

lemma field_eq {n : ℕ} (hn : n < 2 ^ 64) : a.field (n, 0) = octets n (a.block - a.short) := by
  have hzero (k : ℕ) : octet n (8 + k) = octet 0 k := by
    rw [octet, octet, Nat.shiftRight_eq_zero n (8 * (8 + k)), Nat.zero_shiftRight]
    exact hn.trans_le (Nat.pow_le_pow_right (by decide) (by omega))
  cases a with
  | sha256 => rfl
  | sha512 =>
    show octets 0 8 ++ octets n 8 = octets n 16
    simp only [octets, ← hzero, nil_append, cons_append, Nat.reduceAdd]

lemma zeros_eq (n : ℕ) : (a.short + a.block - (n + 1) % a.block) % a.block =
    if n % a.block + 1 ≤ a.short then a.short - (n % a.block + 1)
    else a.block - (n % a.block + 1) + a.short := by
  split <;> cases a <;> simp only [Alg.short, Alg.block] at * <;> omega

lemma Absorbed.last (h : Absorbed a f s m state r) (hlen : buf.length = a.block)
    (htake : buf.take a.short = r ++ d) {n : ℕ} (hn : n < 2 ^ 64) :
    ∃ buf', put a buf a.short (a.field (n, 0)) = some buf' ∧
      Absorbed a f s (m ++ (d ++ octets n (a.block - a.short))) (f state buf') [] := by
  have hshort : a.short + (octets n (a.block - a.short)).length = a.block := by
    rw [length_octets]
    cases a <;> rfl
  obtain ⟨buf', hput, hlen', htake'⟩ := exists_put hlen hshort.le
  have hbuf : buf' = r ++ (d ++ octets n (a.block - a.short)) := by
    rw [← append_assoc, ← htake, ← htake', hshort, take_of_length_le hlen'.le]
  rw [field_eq hn]
  refine ⟨buf', hput, ?_⟩
  rw [hbuf]
  apply h.fill
  rw [← length_append, ← hbuf, hlen']

lemma padShort_absorbs (h : Holds a f s m c) :
    ∃ st b m' r d, padShort a f c = some (st, b) ∧ b.length = a.block ∧ Absorbed a f s m' st r ∧
      b.take a.short = r ++ d ∧
      m' ++ d = m ++ 0x80 :: replicate ((a.short + a.block - (m.length + 1) % a.block) % a.block) 0 := by
  have hlt := Nat.mod_lt m.length a.block_pos
  have habs := h.absorbed
  have hclear : 1 ≤ a.short ∧ a.short ≤ a.clear ∧ a.clear ≤ a.block := by cases a <;> decide
  rw [padShort, h.usedspace, zeros_eq]
  generalize m.length % a.block = u at hlt habs ⊢
  by_cases hu : u > 0
  · obtain ⟨b1, hput1, hlen1, htake1⟩ := exists_put (d := [0x80]) h.len hlt
    rw [length_singleton] at htake1
    by_cases hs : u + 1 ≤ a.short
    · obtain ⟨b2, hput2, hlen2, htake2⟩ := exists_put (i := u + 1)
        (d := replicate (a.short - (u + 1)) 0) hlen1 (by rw [length_replicate]; omega)
      rw [length_replicate, Nat.add_sub_cancel' hs, htake1, append_assoc] at htake2
      exact ⟨c.state, b2, m, _, _, by simp [hu, hs, hput1, hput2], hlen2, habs, htake2, by simp [hs]⟩
    · obtain ⟨b2, hput2, hlen2, htake2⟩ := exists_put (i := u + 1)
        (d := replicate (a.block - (u + 1)) 0) hlen1 (by rw [length_replicate]; omega)
      rw [length_replicate, Nat.add_sub_cancel' hlt, take_of_length_le hlen2.le, htake1,
        append_assoc] at htake2
      obtain ⟨b3, hput3, hlen3, htake3⟩ := exists_put (i := 0) (d := replicate a.clear 0) hlen2
        (by rw [length_replicate]; omega)
      have hfirst := habs.fill (by rw [← length_append, ← htake2, hlen2])
      rw [← htake2] at hfirst
      refine ⟨_, b3, _, [], replicate a.short 0, by simp [hu, hs, hput1, hput2, hput3], hlen3,
        hfirst, ?_, ?_⟩
      · rw [length_replicate, zero_add] at htake3
        rw [← min_eq_left hclear.2.1, ← take_take, htake3]
        simp
      · simp [hs, replicate_append_replicate]
  · have hzero : u = 0 := by omega
    obtain ⟨k, hk⟩ := Nat.exists_eq_add_one.2 hclear.1
    rw [hzero, take_zero] at habs
    refine ⟨c.state, 0x80 :: (replicate k 0 ++ c.buffer.drop (k + 1)), m, [], 0x80 :: replicate k 0,
      ?_, ?_, habs, ?_, ?_⟩
    · have hone : 1 ≤ a.block := a.block_pos
      have hfits : k + 1 ≤ a.block := by omega
      simp [hu, put, hk, hfits, hone, replicate_succ]
    · simp [h.len]
      omega
    · simp [hk]
    · simp [hzero, hk]

/-- **Padding transforms what is left of the padded message.** -/
theorem pad_absorbs (h : Holds a f s m c) (hm : m.length < 2 ^ 61) :
    ∃ c', pad a f c = some c' ∧ Absorbed a f s (padded a m) c'.state [] := by
  obtain ⟨st, b, m', r, d, hpad, hlen, habs, htake, hmsg⟩ := padShort_absorbs h
  obtain ⟨b', hput, hlast⟩ := habs.last hlen htake (n := 8 * m.length) (by omega)
  refine ⟨⟨f st b', c.bitcount, b'⟩, ?_, ?_⟩
  · rw [← h.count] at hput
    simp [pad, hpad, hput]
  · rwa [padded, ← hmsg, append_assoc]

lemma updates_hold (h : Holds a f s m c) (chunks : List (List UInt8))
    (hsum : (m ++ chunks.flatten).length < 2 ^ 61) :
    ∃ c', chunks.foldlM (update a f) c = some c' ∧ Holds a f s (m ++ chunks.flatten) c' := by
  induction chunks generalizing m c with
  | nil => exact ⟨c, rfl, by rwa [flatten_nil, append_nil]⟩
  | cons data chunks ih =>
    rw [flatten_cons, ← append_assoc] at hsum ⊢
    obtain ⟨c1, hupdate, hholds⟩ := update_holds h data (by rw [length_append] at hsum; omega)
    rw [foldlM_cons, hupdate]
    exact ih hholds hsum

lemma digest_eq (a : Alg) (f : σ → List UInt8 → σ) (s : σ) (chunks : List (List UInt8))
    (hlen : chunks.flatten.length < 2 ^ 61) :
    digest a f s chunks = some ((blocksOf a (padded a chunks.flatten)).foldl f s) := by
  have hinit : Holds a f s [] (init a s) := ⟨length_replicate, rfl, a.block_pos, [], by simp [init]⟩
  obtain ⟨c, hupdates, hholds⟩ := updates_hold hinit chunks hlen
  obtain ⟨c', hpad, habs⟩ := pad_absorbs hholds hlen
  simp [digest, hupdates, hpad, habs.state_eq]

/-- **Updates are independent of chunking.** -/
theorem sha2_chunking (a : Alg) (f : σ → List UInt8 → σ) (s : σ) (chunks : List (List UInt8))
    (hlen : chunks.flatten.length < 2 ^ 61) :
    digest a f s chunks = some ((blocksOf a (padded a chunks.flatten)).foldl f s) ∧
      digest a f s chunks = digest a f s [chunks.flatten] := by
  have hone : [chunks.flatten].flatten = chunks.flatten := flatten_singleton
  refine ⟨digest_eq a f s chunks hlen, ?_⟩
  rw [digest_eq a f s chunks hlen, digest_eq a f s _ (by rwa [hone]), hone]

theorem sha2_chunking_abc :
    digest .sha256 (fun l b => l ++ [b]) []
    [[97], [], [98, 99]] = digest .sha256 (fun l b => l ++ [b]) [] [[97, 98, 99]] :=
  (sha2_chunking .sha256 _ _ [[97], [], [98, 99]] (by decide)).2

end

end Musl.Crypt.Sha2
