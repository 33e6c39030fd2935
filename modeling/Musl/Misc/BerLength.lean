import Musl.Misc.Ber

/-!
# The length of a tree and what is written of it

`ober_calc_len` and `ober_dump_element` go through a tree by two recursions, and on two kinds of
elements they differ. For an element of universal type 0 and length 0 the first counts nothing, nor
for those that follow, while the second writes them; and for end-of-contents, or a type that has no
case in the `switch`, the first counts a length of which the second writes nothing.  The reader
makes both, the first for every container that is empty.
-/

namespace Musl.Ber

open List Option Nat

/-- `br_wptr` is advanced by `n`. -/
def AdvancesBy (dump : WBuf → Option WBuf) (n : ℕ) : Prop :=
  ∀ w, ∃ w', dump w = some w' ∧ w'.ptr = w.ptr + n

/-- The length of each container is the number of octets that are written for its children. -/
def LengthsExact : Elm → Prop
  | .null => True
  | .elm h _ sub next =>
    (isContainer h.encoding → AdvancesBy (dumpElement sub) h.len ∧ LengthsExact sub) ∧ LengthsExact next

/-- Siblings that are added, with `ober_add_eoc` and empty containers among them, or read. -/
inductive Produced : Elm → Prop
  | null : Produced .null
  | leaf (l : Leaf) {next : Elm} (hnext : Produced next) : Produced (.elm l.build.1 l.build.2 .null next)
  | eoc {next : Elm} (hnext : Produced next) : Produced (.elm (getElement 0) .none .null next)
  | container {encoding : ℕ} (henc : encoding = 16 ∨ encoding = 17) {sub next : Elm} (hsub : Produced sub)
      (hnext : Produced next) : Produced (.elm (getElement encoding) .none sub next)
  | read {bs rest : List UInt8} {e next : Elm} (hread : readElements bs = some (e, rest))
  (hnext : Produced next) :
      Produced (e.withNext next)

/-! ### Where the passes differ -/

def Header.bare (h : Header) : Bool := kindOf h.encoding = .eoc ∨ kindOf h.encoding = .other

def octetCount : Elm → ℕ
  | .null => 0
  | .elm h _ sub next =>
    let len := h.contents (octetCount sub)
    headerOctets h.type len + (if h.bare then 0 else len) + octetCount next

/-- The octets that are written and not counted: those of an empty element and of all that follow it. -/
def uncounted : Elm → ℕ
  | .null => 0
  | .elm h v sub next =>
    if h.cls = 0 ∧ h.type = 0 ∧ h.contents (octetCount sub) = 0 then octetCount (.elm h v sub next)
    else uncounted next

def unwritten : Elm → ℕ
  | .null => 0
  | .elm h _ sub next =>
    if h.cls = 0 ∧ h.type = 0 ∧ h.contents (octetCount sub) = 0 then 0
    else (if h.bare then h.len else 0) + unwritten next

/-- In every container as much is not counted as is not written, and the lengths have at most five
octets. -/
def Balanced : Elm → Prop
  | .null => True
  | .elm h _ sub next => h.contents (octetCount sub) < 2 ^ 40 ∧
    (isContainer h.encoding → Balanced sub ∧ uncounted sub = unwritten sub) ∧ Balanced next

/-! ### What is written -/

section Dump

variable {h : Header} {v : Value} {f g : WBuf → Option WBuf} {n m : ℕ}

lemma AdvancesBy.unique (hn : AdvancesBy f n) (hm : AdvancesBy f m) : n = m := by
  obtain ⟨w, hw, hptr⟩ := hn { buf := [], ptr := 0 }
  obtain ⟨w', hw', hptr'⟩ := hm { buf := [], ptr := 0 }
  obtain rfl : w = w' := some.inj (hw.symm.trans hw')
  omega

lemma AdvancesBy.bind (hf : AdvancesBy f n) (hg : AdvancesBy g m) :
    AdvancesBy (fun w => f w >>= g) (n + m) := by
  intro w
  obtain ⟨w1, hw1, hptr1⟩ := hf w
  obtain ⟨w2, hw2, hptr2⟩ := hg w1
  exact ⟨w2, by simpa [hw1] using hw2, by omega⟩

lemma ptr_foldl_putc (bs : List UInt8) (w : WBuf) : (bs.foldl putc w).ptr = w.ptr + bs.length := by
  induction bs generalizing w with
  | nil => rfl
  | cons c bs ih =>
    rw [foldl_cons, ih, length_cons, putc]
    dsimp only
    omega

lemma length_idOctets (h : Header) :
    (idOctets h).length = 1 + if h.type > 30 then (digits 128 h.type).length else 0 := by
  have htype : (typeOctets h.type).length = (digits 128 h.type).length := by
    rw [typeOctets]
    split <;> simp [*]
  rw [idOctets]
  split_ifs <;> first | omega | simp [htype, add_comm]

lemma dumpHeader_spec (h : Header) :
    if h.len < 2 ^ 40 then AdvancesBy (dumpHeader · h)
    (headerOctets h.type h.len) else ∀ w, dumpHeader w h = none := by
  have hcount : (digits 256 h.len).length ≤ 5 ↔ h.len < 2 ^ 40 := digits_length_le_iff (by decide) h.len
  have hlen : if h.len < 2 ^ 40 then ∃ os, lenOctets h.len = some os ∧ os.length = 1 + moreOctets h.len
      else lenOctets h.len = none := by
    simp only [lenOctets, length_map, moreOctets]
    split_ifs <;> first | omega | simp [add_comm]
  split_ifs at hlen ⊢ with hfits
  · obtain ⟨os, hos, hlength⟩ := hlen
    intro w
    refine ⟨(idOctets h ++ os).foldl putc w, by simp [dumpHeader, hos], ?_⟩
    rw [ptr_foldl_putc, length_append, length_idOctets, headerOctets]
    omega
  · intro w
    rw [dumpHeader, hlen]
    rfl

/-- A value that is written as long as the header says, if at all. -/
def Suits (h : Header) : Value → Prop
  | .numeric _ =>
    kindOf h.encoding = .boolean ∨ kindOf h.encoding = .integer ∨ kindOf h.encoding = .enumerated
  | .val bytes =>
    (kindOf h.encoding = .bitstring ∨ kindOf h.encoding = .octetstring ∨
      kindOf h.encoding = .object) ∧
      h.len = bytes.length
  | .none => kindOf h.encoding = .eoc ∨ kindOf h.encoding = .other ∨ kindOf h.encoding = .null ∧ h.len = 0

lemma Suits.advances (hs : Suits h v) : AdvancesBy (dumpValue h v f) (if h.bare then 0 else h.len) := by
  intro w
  cases v with
  | none => rcases hs with hk | hk | ⟨hk, hlen⟩ <;> simp [dumpValue, Header.bare, *]
  | numeric v =>
    rcases hs with hk | hk | hk <;> simp [dumpValue, Header.bare, hk, ptr_foldl_putc]
  | val bytes =>
    obtain ⟨hk, hlen⟩ := hs
    rcases hk with hk | hk | hk <;> simp [dumpValue, Header.bare, hk, hlen, write]

lemma isContainer_iff (encoding : ℕ) :
    isContainer encoding ↔ kindOf encoding = .sequence ∨ kindOf encoding = .set := by
  unfold kindOf
  split <;> simp_all [isContainer]

end Dump

/-- Elements with values that suit them, in containers of which the empty ones have length 0. -/
inductive Formed : Elm → Prop
  | null : Formed .null
  | elm {h : Header} {v : Value} {sub next : Elm} (hvalue : ¬isContainer h.encoding → Suits h v)
      (hempty : isContainer h.encoding → sub = .null → h.len = 0)
      (hsub : isContainer h.encoding → Formed sub)
      (hnext : Formed next) : Formed (.elm h v sub next)

section Passes

variable {e sub next : Elm} {h : Header} {v : Value}

lemma Formed.primitive (hs : Suits h v) (hnext : Formed next) : Formed (.elm h v sub next) := by
  have hcont : ¬isContainer h.encoding := by
    rw [isContainer_iff]
    rintro (hk | hk) <;> cases v <;> simp [Suits, hk] at hs
  exact .elm (fun _ => hs) (absurd · hcont) (absurd · hcont) hnext

lemma len_lt_of_dump {w w' : WBuf} (hdump : dumpElement (.elm h v sub next) w = some w') :
    h.len < 2 ^ 40 ∧ ∃ w, dumpElement next w = some w' := by
  have hheader := dumpHeader_spec h
  obtain ⟨w1, hw1, hdump⟩ := bind_eq_some_iff.1 hdump
  obtain ⟨w2, -, hdump⟩ := bind_eq_some_iff.1 hdump
  split_ifs at hheader with hfits
  · exact ⟨hfits, w2, hdump⟩
  · rw [hheader] at hw1
    cases hw1

lemma Header.contents_of_bare (h : Header) (n : ℕ) (hbare : h.bare) : h.contents n = h.len := by
  refine if_neg fun hcont => ?_
  rcases (isContainer_iff _).1 hcont with hk | hk <;> simp [Header.bare, hk] at hbare

lemma value_advances {n : ℕ} (hvalue : ¬isContainer h.encoding → Suits h v)
    (hsub : isContainer h.encoding → AdvancesBy (dumpElement sub) n) :
    AdvancesBy (dumpValue { h with len := h.contents n } v (dumpElement sub))
    (if h.bare then 0 else h.contents n) := by
  by_cases hcont : isContainer h.encoding
  · intro w
    obtain ⟨w', hw'⟩ := hsub hcont w
    refine ⟨w', ?_⟩
    rcases (isContainer_iff _).1 hcont with hk | hk <;> simpa [dumpValue, Header.bare,
      Header.contents, hcont, hk] using hw'
  · rw [Header.contents, if_neg hcont]
    exact (hvalue hcont).advances

lemma dump_advances {n m : ℕ} (hfits : h.len < 2 ^ 40)
    (hvalue : AdvancesBy (dumpValue h v (dumpElement sub)) n)
    (hnext : AdvancesBy (dumpElement next) m) :
    AdvancesBy (dumpElement (.elm h v sub next)) (headerOctets h.type h.len + (n + m)) := by
  have hheader := dumpHeader_spec h
  rw [if_pos hfits] at hheader
  exact hheader.bind (hvalue.bind hnext)

/-- **The two passes**, by what they leave out in the containers below. -/
theorem passes_spec (hf : Formed e) :
    (∀ w w', dumpElement (calcLen e).1 w = some w' → LengthsExact (calcLen e).1 → Balanced e) ∧
    (Balanced e → AdvancesBy (dumpElement (calcLen e).1) (octetCount e) ∧ LengthsExact (calcLen e).1 ∧
      (calcLen e).2 + uncounted e = octetCount e + unwritten e) := by
  induction hf with
  | null => exact ⟨fun _ _ _ _ => trivial, fun _ => ⟨fun w => ⟨w, rfl, rfl⟩, trivial, rfl⟩⟩
  | @elm h v sub next hvalue hempty _ _ ihs ihn =>
    have hcontents : (isContainer h.encoding → (calcLen sub).2 = octetCount sub) →
        h.contents (calcLen sub).2 = h.contents (octetCount sub) := by
      intro heq
      rw [Header.contents, Header.contents]
      split_ifs with hcont
      · exact heq hcont
      · rfl
    rw [calcLen_elm hempty]
    constructor
    · intro w w' hdump hexact
      obtain ⟨hfits, w1, hdump⟩ := len_lt_of_dump hdump
      have hsub : isContainer h.encoding →
          (Balanced sub ∧ uncounted sub = unwritten sub) ∧ (calcLen sub).2 = octetCount sub := by
        intro hcont
        have hin := hexact.1 hcont
        simp only [Header.contents, if_pos hcont] at hin
        obtain ⟨w2, hw2, -⟩ := hin.1 w
        have hbal := (ihs hcont).1 _ _ hw2 hin.2
        obtain ⟨hadv, -, hcalc⟩ := (ihs hcont).2 hbal
        have hlen := hin.1.unique hadv
        exact ⟨⟨hbal, by omega⟩, hlen⟩
      rw [hcontents fun hcont => (hsub hcont).2] at hfits
      exact ⟨hfits, fun hcont => (hsub hcont).1, ihn.1 _ _ hdump hexact.2⟩
    · rintro ⟨hfits, hsub, hnext⟩
      have hin : isContainer h.encoding → AdvancesBy (dumpElement (calcLen sub).1) (octetCount sub) ∧
          LengthsExact (calcLen sub).1 ∧ (calcLen sub).2 = octetCount sub := by
        intro hcont
        obtain ⟨hbal, heq⟩ := hsub hcont
        obtain ⟨hadv, hexact, hcalc⟩ := (ihs hcont).2 hbal
        exact ⟨hadv, hexact, by omega⟩
      obtain ⟨hadv, hexact, -⟩ := ihn.2 hnext
      rw [hcontents fun hcont => (hin hcont).2.2]
      refine ⟨?_, ⟨fun hcont => ?_, hexact⟩, ?_⟩
      · rw [octetCount, add_assoc]
        refine dump_advances hfits (value_advances hvalue fun hcont => ?_) hadv
        rw [if_pos hcont]
        exact (hin hcont).1
      · simp only [Header.contents, if_pos hcont]
        exact ⟨(hin hcont).1, (hin hcont).2.1⟩
      · have hbare := h.contents_of_bare (octetCount sub)
        simp only [octetCount, uncounted, unwritten]
        split_ifs <;> simp_all <;> omega

/-! ### What the reader makes -/

variable {readSub : ℕ → List UInt8 → Option (Elm × List UInt8)} {bs rest : List UInt8}
  (hsub : ∀ len bs sub rest, readSub len bs = some (sub, rest) → Formed sub ∧ sub ≠ .null)

include hsub

lemma readValue_formed {encoding len : ℕ}
    (hread : readValue readSub encoding len bs = some (v, sub, rest)) (type cls : ℕ)
    (hnext : Formed next) :
    Formed (.elm { type, encoding, cls, len } v sub next) := by
  cases hk : kindOf encoding <;> simp only [readValue, hk] at hread
  case eoc =>
    cases hread
    exact .primitive (.inl hk) hnext
  case other =>
    cases hread
    exact .primitive (.inr (.inl hk)) hnext
  case null =>
    split_ifs at hread with hlen
    cases hread
    exact .primitive (.inr (.inr ⟨hk, not_not.1 hlen⟩)) hnext
  case boolean =>
    split_ifs at hread
    obtain ⟨r, -, heq⟩ := map_eq_some_iff.1 hread
    cases heq
    exact .primitive (.inl hk) hnext
  case integer | enumerated =>
    obtain ⟨r, -, heq⟩ := map_eq_some_iff.1 hread
    cases heq
    exact .primitive (by simp [Suits, hk]) hnext
  case bitstring | octetstring | object =>
    obtain ⟨r, hbytes, heq⟩ := map_eq_some_iff.1 hread
    cases heq
    rw [readBytes] at hbytes
    split_ifs at hbytes with hlen
    cases hbytes
    exact .primitive ⟨by simp [hk], (length_take_of_le (not_lt.1 hlen)).symm⟩ hnext
  case sequence | set =>
    obtain ⟨r, hr, heq⟩ := map_eq_some_iff.1 hread
    cases heq
    obtain ⟨hformed, hne⟩ := hsub _ _ _ _ hr
    have hcont : isContainer encoding := (isContainer_iff _).2 (by simp [hk])
    exact .elm (absurd hcont) (fun _ h => absurd h hne) (fun _ => hformed) hnext

lemma readElementWith_formed {r : ℕ} (hread : readElementWith readSub bs = some (e, r, rest))
    (hnext : Formed next) :
    Formed (e.withNext next) ∧ e.withNext next ≠ .null := by
  simp only [readElementWith, bind_eq_bind, bind_eq_some_iff] at hread
  obtain ⟨⟨id, r1, bs1⟩, -, ⟨len, r2, bs2⟩, -, hread⟩ := hread
  split at hread
  · cases hread
  obtain ⟨⟨v, sub, bs3⟩, hv, heq⟩ := bind_eq_some_iff.1 hread
  cases heq
  exact ⟨readValue_formed hsub hv _ _ hnext, Elm.noConfusion⟩

omit hsub

lemma readSub_formed {fuel elements : ℕ} {len : ℤ}
    (hread : Ber.readSub fuel len elements bs = some (e, rest)) :
    Formed e ∧ (elements = 0 → e ≠ .null) := by
  induction fuel generalizing e len elements bs rest with
  | zero => cases hread
  | succ fuel ih =>
    rw [Ber.readSub] at hread
    split_ifs at hread with hlen hmany hnone
    · obtain ⟨⟨e1, r, bs1⟩, helem, hread⟩ := bind_eq_some_iff.1 hread
      obtain ⟨⟨next, bs2⟩, hnext, heq⟩ := bind_eq_some_iff.1 hread
      cases heq
      obtain ⟨hformed, hne⟩ :=
        readElementWith_formed (fun _ _ _ _ hsub => ⟨(ih hsub).1, (ih hsub).2 rfl⟩) helem
        (ih hnext).1
      exact ⟨hformed, fun _ => hne⟩
    · cases hread
      exact ⟨.primitive (.inl rfl) .null, fun _ => Elm.noConfusion⟩
    · cases hread
      exact ⟨.null, fun h => absurd h hnone⟩

lemma Produced.formed (h : Produced e) : Formed e := by
  induction h with
  | null => exact .null
  | leaf l _ ih => exact .primitive (by cases l <;> simp [Suits, Leaf.build, kindOf, getElement]) ih
  | eoc _ ih => exact .primitive (.inl rfl) ih
  | @container encoding henc _ _ _ _ ihs ihn =>
    have hcont : isContainer encoding := by rcases henc with rfl | rfl <;> rfl
    exact .elm (absurd hcont) (fun _ _ => rfl) (fun _ => ihs) ihn
  | read hread _ ih =>
    obtain ⟨⟨root, r, bs'⟩, helem, heq⟩ := bind_eq_some_iff.1 hread
    cases heq
    exact (readElementWith_formed (fun _ _ _ _ hsub =>
      ⟨(readSub_formed hsub).1, (readSub_formed hsub).2 rfl⟩)
      helem ih).1

/-- **The length that is predicted is that which is written**, and those of the containers are those
of their children, if and only if on every level the octets that are not counted are as many as
those that are not written, and no length has more than five octets. -/
theorem ber_lengths_iff (h : Produced e) :
    AdvancesBy (dumpElement (calcLen e).1) (calcLen e).2 ∧ LengthsExact (calcLen e).1 ↔
      Balanced e ∧ uncounted e = unwritten e := by
  obtain ⟨hbal, hspec⟩ := passes_spec h.formed
  constructor
  · rintro ⟨hadv, hexact⟩
    obtain ⟨w, hw, -⟩ := hadv { buf := [], ptr := 0 }
    have hb := hbal _ _ hw hexact
    obtain ⟨hadv', -, hcalc⟩ := hspec hb
    have hlen := hadv.unique hadv'
    exact ⟨hb, by omega⟩
  · rintro ⟨hb, heq⟩
    obtain ⟨hadv, hexact, hcalc⟩ := hspec hb
    obtain hlen : (calcLen e).2 = octetCount e := by omega
    exact ⟨hlen ▸ hadv, hexact⟩

/-- A sequence of one null: both passes find two octets in it. -/
theorem ber_lengths_sequence :
    ∃ e, e = Elm.elm (getElement 16) .none (.elm (getElement 5) .none .null .null) .null ∧
    AdvancesBy (dumpElement (calcLen e).1) (calcLen e).2 ∧ LengthsExact (calcLen e).1 := by
  refine ⟨_, rfl, (ber_lengths_iff (.container (.inl rfl) (.leaf .null .null) .null)).2 ?_⟩
  refine ⟨⟨by decide, fun _ =>
    ⟨⟨by decide, by simp [isContainer, Leaf.build, getElement], trivial⟩, by decide⟩, trivial⟩, by
      decide⟩

/-- `30 00` is read as a sequence with an end-of-contents in it: two octets are counted and four are
written. -/
theorem ber_lengths_empty : ∃ e, readElements [0x30, 0] = some (e, []) ∧ (calcLen e).2 = 2 ∧
    AdvancesBy (dumpElement (calcLen e).1) 4 :=
  ⟨_, rfl, by decide +kernel, fun _ => ⟨_, rfl, rfl⟩⟩

end Passes

end Musl.Ber
