import Musl.Network.NsParse

/-!
# The resolver's own parser

`__dns_parse` calls a function for every answer of a message.  It does not walk over the labels of a
name: it looks for the first byte that is zero or at least 0x80 and takes it for the end.
-/

namespace Musl.Network

open Musl.Lib.DnsName Option List Nat

/-! ### The code -/

/-- `while (p-r < rlen && *p-1U < 127) p++;`, for at most `n` rounds. -/
def scanLoop (m : Message) (rlen : ℕ) : ℕ → ℕ → ℕ
  | 0, p => p
  | n + 1, p => if p < rlen ∧ m p ≠ 0 ∧ m p < 128 then scanLoop m rlen n (p + 1) else p

/-- The byte that is taken for the end of the name at `p`. -/
def scanName (m : Message) (rlen p : ℕ) : ℕ := scanLoop m rlen (rlen - p) p

/-- `p + 1 + !!*p` -/
def afterName (m : Message) (p : ℕ) : ℕ := p + 1 + if m p ≠ 0 then 1 else 0

/-- The arguments of a call: the low byte of the type, and the data. -/
structure DnsCall where
  rr : UInt8
  data : ℕ
  len : ℕ
  deriving DecidableEq, Repr

/-- The loop over the questions; `none` is the return of -1. -/
def skipQuestions (m : Message) (rlen : ℕ) : ℕ → ℕ → Option ℕ
  | 0, p => some p
  | qdcount + 1, p =>
    let p := scanName m rlen p
    if rlen < p + 6 then none else skipQuestions m rlen qdcount (afterName m p + 4)

/-- The loop over the answers, for a function that returns 0: what is returned, and the calls. -/
def answerLoop (m : Message) (rlen : ℕ) : ℕ → ℕ → ℤ × List DnsCall
  | 0, _ => (0, [])
  | ancount + 1, p =>
    let p := scanName m rlen p
    if rlen < p + 12 then (-1, [])
    else
      let p := afterName m p
      let len := (m (p + 8)).toNat * 256 + (m (p + 9)).toNat
      if rlen < p + (len + 10) then (-1, [])
      else
        let r := answerLoop m rlen ancount (p + 10 + len)
        (r.1, ⟨m (p + 1), p + 10, len⟩ :: r.2)

def dnsParse (m : Message) (rlen : ℕ) : ℤ × List DnsCall :=
  if rlen < 12 then (-1, [])
  else if m 3 &&& 15 ≠ 0 then (0, [])
  else
    match skipQuestions m rlen ((m 4).toNat * 256 + (m 5).toNat) 12 with
    | none => (-1, [])
    | some p => answerLoop m rlen ((m 6).toNat * 256 + (m 7).toNat) p

/-! ### The answers of a message -/

/-- The records from `p` on, as `dn_skipname` finds them. -/
def answersFrom (m : Message) (eom : ℕ) : ℕ → ℕ → List DnsCall
  | 0, _ => []
  | n + 1, p =>
    match dnSkipname m eom p, skipRecord m eom 1 p with
    | some r, some q => ⟨m (p + r + 1), p + r + 10, nsGet16 m (p + r + 8)⟩ :: answersFrom m eom n q
    | _, _ => []

def NsMsg.answers (m : Message) (h : NsMsg) : List DnsCall :=
  answersFrom m h.eom (h.count 1) ((h.start 1).getD 0)

/-- The calls are for the answers of the message, with the data that `ns_parserr` reports. -/
def ReportsAnswers (m : Message) (h : NsMsg) : Prop :=
  (dnsParse m h.eom).2 = h.answers m ∧
    ∀ (k : ℕ) rr h', nsParserr m h 1 k = (.ok rr, h') →
      ∃ c, (dnsParse m h.eom).2[k]? = some c ∧ rr.rdata = some c.data ∧ rr.rdlength = c.len

/-- The name from `s` to `e` is found by looking for a byte that is zero or at least 0x80: all bytes
before the zero byte or the pointer at its end are in 1..0x7f, or all but the last one before a zero
byte, which is at least 0x80 then.  From that byte on the message has `room` bytes. -/
def NameFound (m : Message) (eom room s e : ℕ) : Prop :=
  ∃ z, s ≤ z ∧ (∀ i, s ≤ i → i < z → m i ≠ 0 ∧ m i < 128) ∧
    (m z = 0 ∧ z + 1 = e ∨ 128 ≤ m z ∧ z + 2 = e) ∧
    z + room ≤ eom

/-- The names of all records of a section, which are those that `dn_skipname` walks over. -/
def NamesFound (m : Message) (h : NsMsg) (sect room : ℕ) : Prop :=
  ∀ k s r, k < h.count sect → h.recordPos m sect k = some s → dnSkipname m h.eom s = some r →
    NameFound m h.eom room s (s + r)

section Answers

variable {m : Message} {eom : ℕ}

lemma nsGet16_eq (m : Message) (p : ℕ) : nsGet16 m p = (m p).toNat * 256 + (m (p + 1)).toNat := by
  rw [nsGet16, ← shiftLeft_add_eq_or_of_lt (m (p + 1)).toNat_lt, shiftLeft_eq]

variable {p q e k n s room : ℕ} {rr : NsRr}

lemma scanLoop_spec (m : Message) (eom n p : ℕ) : p ≤ scanLoop m eom n p ∧
    (∀ i, p ≤ i → i < scanLoop m eom n p → m i ≠ 0 ∧ m i < 128) ∧
      (eom ≤ p + n → scanLoop m eom n p < eom → m (scanLoop m eom n p) = 0 ∨
        128 ≤ m (scanLoop m eom n p)) := by
  induction n generalizing p with
  | zero => exact ⟨le_rfl, fun i h1 h2 => absurd h2 (not_lt.2 h1), fun h1 h2 => absurd h2 (not_lt.2 h1)⟩
  | succ n ih =>
    rw [scanLoop]
    split_ifs with hgo
    · obtain ⟨hle, htext, hstop⟩ := ih (p + 1)
      refine ⟨by omega, fun i h1 h2 => ?_, fun h1 => hstop (by omega)⟩
      rcases h1.eq_or_lt with rfl | hlt
      · exact hgo.2
      · exact htext i hlt h2
    · refine ⟨le_rfl, fun i h1 h2 => absurd h2 (not_lt.2 h1), fun _ hlt => ?_⟩
      by_contra hno
      rw [not_or, UInt8.not_le] at hno
      exact hgo ⟨hlt, hno⟩

/-- **The scan finds the end of a name** exactly if it is the first byte that is zero or at least 0x80. -/
theorem nameFound_iff (hroom : 0 < room) : NameFound m eom room s e ↔
    scanName m eom s + room ≤ eom ∧ afterName m (scanName m eom s) = e := by
  obtain ⟨hle, htext, hstop⟩ := scanLoop_spec m eom (eom - s) s
  rw [← scanName.eq_1] at hle htext hstop
  generalize scanName m eom s = z at *
  constructor
  · rintro ⟨y, hsy, hy, hend, hfits⟩
    have hyz : y = z := by
      rcases lt_trichotomy y z with hlt | heq | hgt
      · obtain ⟨h0, h1⟩ := htext y hsy hlt
        rcases hend with ⟨hzero, -⟩ | ⟨hhigh, -⟩
        · exact absurd hzero h0
        · exact absurd h1 (UInt8.not_lt.2 hhigh)
      · exact heq
      · obtain ⟨h0, h1⟩ := hy z hle hgt
        rcases hstop (by omega) (by omega) with hzero | hhigh
        · exact absurd hzero h0
        · exact absurd h1 (UInt8.not_lt.2 hhigh)
    subst hyz
    refine ⟨hfits, ?_⟩
    rcases hend with ⟨hzero, rfl⟩ | ⟨hhigh, rfl⟩
    · rw [afterName, if_neg (not_not.2 hzero)]
    · have hne : m y ≠ 0 := fun h0 => by
        rw [h0] at hhigh
        exact absurd hhigh (by decide)
      rw [afterName, if_pos hne]
  · rintro ⟨hfits, hafter⟩
    refine ⟨z, hle, htext, ?_, hfits⟩
    rw [afterName] at hafter
    by_cases h0 : m z = 0
    · rw [if_neg (not_not.2 h0)] at hafter
      exact .inl ⟨h0, hafter⟩
    · rw [if_pos h0] at hafter
      exact .inr ⟨(hstop (by omega) (by omega)).resolve_left h0, hafter⟩

lemma skipRecord_answer (h : skipRecord m eom 1 p = some q) :
    ∃ r, dnSkipname m eom p = some r ∧ q = p + r + 10 + nsGet16 m (p + r + 8) ∧ q ≤ eom := by
  simp only [skipRecord] at h
  split at h
  · cases h
  · next r hr =>
    refine ⟨r, hr, ?_⟩
    split at h
    · cases h
    · rw [if_pos one_ne_zero] at h
      split at h
      · cases h
      · split at h
        · cases h
        · cases h
          exact ⟨rfl, by omega⟩

/-- **The calls are those of the walk**, exactly if the end of every name is found. -/
theorem answerLoop_iff (n s : ℕ) (hwalk : nsSkiprr m eom 1 n s = some e) :
    (answerLoop m eom n s).2 = answersFrom m eom n s ↔
      ∀ k t r, k < n → nsSkiprr m eom 1 k s = some t → dnSkipname m eom t = some r →
        NameFound m eom 12 t (t + r) := by
  induction n generalizing s with
  | zero => simp [answerLoop, answersFrom]
  | succ n ih =>
    obtain ⟨q, hq, hrest⟩ := bind_eq_some_iff.1 hwalk
    obtain ⟨r, hr, hqr, hle⟩ := skipRecord_answer hq
    -- the first record, and the others
    have hsplit : (∀ k t r, k < n + 1 → nsSkiprr m eom 1 k s = some t → dnSkipname m eom t = some r →
          NameFound m eom 12 t (t + r)) ↔
        NameFound m eom 12 s (s + r) ∧ ∀ k t r, k < n → nsSkiprr m eom 1 k q = some t →
        dnSkipname m eom t = some r →
          NameFound m eom 12 t (t + r) := by
      constructor
      · intro h
        refine ⟨h 0 s r (succ_pos n) rfl hr, fun k t r' hk ht hr' => ?_⟩
        exact h (k + 1) t r' (succ_lt_succ hk) (by rw [nsSkiprr, hq, bind_some, ht]) hr'
      · rintro ⟨hfirst, hothers⟩ k t r' hk ht hr'
        cases k with
        | zero =>
          cases ht
          rw [hr] at hr'
          cases hr'
          exact hfirst
        | succ k =>
          rw [nsSkiprr, hq] at ht
          exact hothers k t r' (lt_of_succ_lt_succ hk) ht hr'
    rw [hsplit, nameFound_iff (by decide), answersFrom, hr, hq, answerLoop]
    dsimp only
    generalize scanName m eom s = z
    by_cases hroom : eom < z + 12
    · rw [if_pos hroom]
      constructor
      · intro h
        cases h
      · rintro ⟨⟨hz, _⟩, _⟩
        omega
    · rw [if_neg hroom]
      by_cases hend : afterName m z = s + r
      · have hlen : (m (s + r + 8)).toNat * 256 + (m (s + r + 9)).toNat = nsGet16 m (s + r + 8) :=
          (nsGet16_eq m _).symm
        rw [hend, hlen, if_neg (by omega), ← hqr]
        simp only [cons.injEq]
        rw [ih q hrest]
        simp [not_lt.1 hroom]
      · constructor
        · intro h
          split at h
          · cases h
          · have hcall := congrArg DnsCall.data (cons.inj h).1
            simp only at hcall
            omega
        · rintro ⟨⟨_, h⟩, _⟩
          exact absurd h hend

/-- Where the ends of their names are found, the questions are walked over. -/
lemma skipQuestions_eq (n p : ℕ) (hwalk : nsSkiprr m eom 0 n p = some s)
    (hfound : ∀ k t r, k < n → nsSkiprr m eom 0 k p = some t → dnSkipname m eom t = some r →
      NameFound m eom 6 t (t + r)) : skipQuestions m eom n p = some s := by
  induction n generalizing p with
  | zero => exact hwalk
  | succ n ih =>
    obtain ⟨q, hq, hrest⟩ := bind_eq_some_iff.1 hwalk
    obtain ⟨r, hr, rfl⟩ : ∃ r, dnSkipname m eom p = some r ∧ q = p + r + 4 := by
      simp only [skipRecord] at hq
      split at hq
      · cases hq
      · next r hr =>
        split at hq
        · cases hq
        · rw [if_neg (not_not.2 rfl)] at hq
          exact ⟨r, hr, (some.inj hq).symm⟩
    obtain ⟨hroom, hend⟩ := (nameFound_iff (by decide)).1 (hfound 0 p r (succ_pos n) rfl hr)
    rw [skipQuestions]
    rw [if_neg (not_lt.2 hroom), hend]
    refine ih _ hrest fun k t r' hk ht => hfound (k + 1) t r' (succ_lt_succ hk) ?_
    rw [nsSkiprr, hq, bind_some, ht]

lemma answersFrom_get {t r : ℕ} (hwalk : nsSkiprr m eom 1 n s = some e) (hk : k < n)
    (ht : nsSkiprr m eom 1 k s = some t) (hr : dnSkipname m eom t = some r) :
    (answersFrom m eom n s)[k]? = some ⟨m (t + r + 1), t + r + 10, nsGet16 m (t + r + 8)⟩ := by
  induction n generalizing s k with
  | zero => exact absurd hk (not_lt_zero k)
  | succ n ih =>
    obtain ⟨q, hq, hrest⟩ := bind_eq_some_iff.1 hwalk
    obtain ⟨r', hr', _⟩ := skipRecord_answer hq
    rw [answersFrom, hr', hq]
    cases k with
    | zero =>
      cases ht
      rw [hr] at hr'
      cases hr'
      rfl
    | succ k =>
      rw [nsSkiprr, hq] at ht
      exact ih hrest (lt_of_succ_lt_succ hk) ht

variable {h : NsMsg} {msglen : ℕ}

lemma nsInitparse_header (hinit : nsInitparse m msglen = some h) :
    12 ≤ h.eom ∧ h.count 0 = nsGet16 m 4 ∧ h.count 1 = nsGet16 m 6 := by
  simp only [nsInitparse] at hinit
  split at hinit
  · cases hinit
  · split at hinit
    · cases hinit
    · split at hinit
      · cases hinit
      · cases hinit
        exact ⟨by simp only; omega, rfl, rfl⟩

/-- The answers begin where the questions end. -/
lemma nsInitparse_questions (hinit : nsInitparse m msglen = some h) (hsome : h.count 1 ≠ 0) :
    ∃ s, h.start 1 = some s ∧ nsSkiprr m h.eom 0 (h.count 0) 12 = some s ∧
      (h.count 0 ≠ 0 → h.start 0 = some 12) := by
  simp only [nsInitparse] at hinit
  split at hinit
  · cases hinit
  · split at hinit
    · cases hinit
    · next r hr =>
      split at hinit
      · cases hinit
      · cases hinit
        have h1 : nsGet16 m 6 ≠ 0 := hsome
        have hanswers : ∀ q r',
          findSections m msglen 1 [nsGet16 m 6, nsGet16 m 8, nsGet16 m 10] q = some r' →
            r'.1.getD 0 none = some q := by
          intro q r' hr'
          rw [findSections, if_pos h1] at hr'
          split at hr'
          · cases hr'
          · obtain ⟨_, -, rfl⟩ := map_eq_some_iff.1 hr'
            rfl
        rw [findSections] at hr
        split at hr
        · split at hr
          · cases hr
          · next q hq =>
            obtain ⟨r', hr', rfl⟩ := map_eq_some_iff.1 hr
            exact ⟨q, hanswers q r' hr', hq, fun _ => rfl⟩
        · next h0 =>
          obtain ⟨r', hr', rfl⟩ := map_eq_some_iff.1 hr
          refine ⟨12, hanswers 12 r' hr', ?_, fun hne => absurd hne h0⟩
          show nsSkiprr m msglen 0 (nsGet16 m 4) 12 = some 12
          rw [not_not.1 h0]
          rfl

lemma NsMsg.Walked.answers (hwalk : h.Walked m) (hsome : h.count 1 ≠ 0) :
    ∃ s e, h.start 1 = some s ∧ nsSkiprr m h.eom 1 (h.count 1) s = some e := by
  obtain ⟨n, hn⟩ := exists_eq_succ_of_ne_zero hsome
  obtain ⟨_, e, _, _, he⟩ := hwalk.pos 1 n (by omega)
  obtain ⟨s, hs, hse⟩ := bind_eq_some_iff.1 he
  rw [hn]
  exact ⟨s, e, hs, hse⟩

lemma nsParserr_range {sect : ℕ} {h' : NsMsg} (hread : nsParserr m h sect k = (.ok rr, h')) :
    sect < 4 ∧ k < h.count sect := by
  have hcount : (h.enter sect).count sect = h.count sect := by
    rw [NsMsg.enter]
    split <;> rfl
  have hnum : (if (k : ℤ) = -1 then (h.enter sect).rrnum else k) = k := if_neg (by omega)
  by_cases hsect : 4 ≤ sect
  · rw [nsParserr, if_pos hsect] at hread
    cases hread
  · refine ⟨not_le.1 hsect, ?_⟩
    by_contra hk
    simp only [nsParserr, if_neg hsect, hnum, hcount,
      if_pos (Or.inr (Int.ofNat_le.2 (not_lt.1 hk)))] at hread
    cases hread

lemma readRr_data (hread : readRr m eom 1 p = (.ok rr, q))
    (hagree : ∀ r name, dnExpand m eom p 1025 = some (r, name) → dnSkipname m eom p = some r) :
    ∃ r, dnSkipname m eom p = some r ∧ rr.rdata = some (p + r + 10) ∧
    rr.rdlength = nsGet16 m (p + r + 8) := by
  simp only [readRr] at hread
  cases hname : dnExpand m eom p 1025 with
  | none =>
    rw [hname] at hread
    cases hread
  | some r =>
    obtain ⟨r, name⟩ := r
    simp only [hname] at hread
    refine ⟨r, hagree r name hname, ?_⟩
    split at hread
    · cases hread
    · rw [if_pos one_ne_zero] at hread
      split at hread
      · cases hread
      · split at hread
        · cases hread
        · cases hread
          exact ⟨rfl, rfl⟩

/-- **`__dns_parse` and `ns_parserr`**: the calls are for the answers of the message if the ends of
the names of questions and answers are found, and only if those of the answers are, where those of
the questions are. -/
theorem dnsParse_iff (hinit : nsInitparse m msglen = some h) (hrcode : m 3 &&& 15 = 0)
    (hplain : PlainNames m h) :
    (h.count 1 = 0 ∨ NamesFound m h 0 6 ∧ NamesFound m h 1 12 → ReportsAnswers m h) ∧
      (NamesFound m h 0 6 → ReportsAnswers m h → h.count 1 = 0 ∨ NamesFound m h 1 12) := by
  have hwalk : h.Walked m := nsInitparse_walked hinit
  obtain ⟨hlen, hqd, han⟩ := nsInitparse_header hinit
  rw [nsGet16_eq] at hqd han
  have hparse : dnsParse m h.eom =
      match skipQuestions m h.eom (h.count 0) 12 with
      | none => (-1, [])
      | some p => answerLoop m h.eom (h.count 1) p := by
    rw [dnsParse, if_neg (Nat.not_lt_of_le hlen), if_neg (not_not.2 hrcode), hqd, han]
  by_cases hnone : h.count 1 = 0
  · refine ⟨fun _ => ⟨?_, fun k rr h' hread => ?_⟩, fun _ _ => .inl hnone⟩
    · rw [hparse, NsMsg.answers, hnone]
      split
      · rfl
      · rfl
    · have hk := (nsParserr_range hread).2
      omega
  -- the calls, where the questions are walked over
  obtain ⟨s, hs, hquestions, hstart⟩ := nsInitparse_questions hinit hnone
  obtain ⟨s', e, hs', he⟩ := hwalk.answers hnone
  obtain rfl : s' = s := some.inj (hs'.symm.trans hs)
  have hcalls (hq : NamesFound m h 0 6) : (dnsParse m h.eom).2 = h.answers m ↔ NamesFound m h 1 12 := by
    have hskip : skipQuestions m h.eom (h.count 0) 12 = some s' := by
      refine skipQuestions_eq _ _ hquestions fun k t r hk ht => hq k t r hk ?_
      rw [NsMsg.recordPos, hstart (by omega), bind_some]
      exact ht
    rw [hparse, NsMsg.answers, hskip, hs, getD_some]
    simp only [NamesFound, NsMsg.recordPos, hs, bind_some]
    exact answerLoop_iff (h.count 1) s' he
  refine ⟨fun hcond => ?_, fun hq hreports => .inr ((hcalls hq).1 hreports.1)⟩
  obtain ⟨hq, ha⟩ := hcond.resolve_left hnone
  refine ⟨(hcalls hq).2 ha, fun k rr h' hread => ?_⟩
  obtain ⟨hsect, hk⟩ := nsParserr_range hread
  obtain ⟨p, hp, heq⟩ := nsParserr_eq hwalk (.fresh hwalk) hsect k (if_neg (by omega)) hk
  rw [heq] at hread
  have hrr : (readRr m h.eom 1 p).1 = .ok rr := by
    simp only [parsed] at hread
    split at hread
    · cases hread
    · next rr' hrr =>
      cases hread
      exact hrr
  obtain ⟨r, hr, hdata, hlength⟩ :=
    readRr_data (Prod.ext hrr rfl) fun r name => hplain.agrees 1 k p r name hk hp
  rw [NsMsg.recordPos, hs, bind_some] at hp
  refine ⟨⟨m (p + r + 1), p + r + 10, nsGet16 m (p + r + 8)⟩, ?_, hdata, hlength⟩
  rw [(hcalls hq).2 ha, NsMsg.answers, hs, getD_some]
  exact answersFrom_get he hk hp hr

end Answers

/-! ### Two messages -/

/-- The question `a`, and an answer for a pointer to it. -/
def oneAnswer : Message := fun i =>
  [0, 0, 0, 0, 0, 1, 0, 1, 0, 0, 0, 0, 1, 97, 0, 0, 1, 0, 1,
    0xc0, 12, 0, 1, 0, 1, 0, 0, 0, 0, 0, 4, 1, 2, 3, 4].getD i 0

def highBytes : Message := fun i =>
  [0, 0, 0, 0, 0, 0, 0, 1, 0, 0, 0, 0, 3, 0xc3, 0xa9, 97, 0, 0, 1, 0, 1, 0, 0, 0, 0, 0, 4, 1, 2, 3,
    4].getD i 0

/-- What `ns_initparse` makes of them. -/
def oneAnswerHandle : NsMsg := ⟨35, 0, 0, [1, 1, 0, 0], [some 12, some 19, none, none], 4, -1, none⟩

def highBytesHandle : NsMsg := ⟨31, 0, 0, [0, 1, 0, 0], [none, some 12, none, none], 4, -1, none⟩

lemma oneAnswer_plain : PlainNames oneAnswer oneAnswerHandle := by
  intro sect k p hk hp
  rcases sect with _ | _ | _ | _ | sect
  · have hzero : k = 0 := lt_one_iff.1 hk
    subst hzero
    cases hp
    exact ⟨15, .label (by decide) (by decide) (.zero (by decide) (by decide))⟩
  · have hzero : k = 0 := lt_one_iff.1 hk
    subst hzero
    cases hp
    exact ⟨21, .pointer (by decide) (by decide)⟩
  · exact absurd hk (not_lt_zero k)
  · exact absurd hk (not_lt_zero k)
  · exact absurd hk (not_lt_zero k)

lemma highBytes_plain : PlainNames highBytes highBytesHandle := by
  intro sect k p hk hp
  rcases sect with _ | _ | _ | _ | sect
  · exact absurd hk (not_lt_zero k)
  · have hzero : k = 0 := lt_one_iff.1 hk
    subst hzero
    cases hp
    exact ⟨17, .label (by decide) (by decide) (.zero (by decide) (by decide))⟩
  · exact absurd hk (not_lt_zero k)
  · exact absurd hk (not_lt_zero k)
  · exact absurd hk (not_lt_zero k)

theorem dnsParse_iff_one : ReportsAnswers oneAnswer oneAnswerHandle := by
  apply (dnsParse_iff (show nsInitparse oneAnswer 35 = some _ by decide) (by decide) oneAnswer_plain).1
  refine .inr ⟨fun k s r hk hs hr => ?_, fun k s r hk hs hr => ?_⟩
  · have hzero : k = 0 := lt_one_iff.1 hk
    subst hzero
    cases hs
    have hname : dnSkipname oneAnswer 35 12 = some 3 := by decide
    cases hname.symm.trans hr
    exact (nameFound_iff (by decide)).2 ⟨by decide, by decide⟩
  · have hzero : k = 0 := lt_one_iff.1 hk
    subst hzero
    cases hs
    have hname : dnSkipname oneAnswer 35 19 = some 2 := by decide
    cases hname.symm.trans hr
    exact (nameFound_iff (by decide)).2 ⟨by decide, by decide⟩

/-- The byte c3 is taken for a pointer: the call is for no data at 25, and not for the four bytes at
27. -/
theorem dnsParse_high_bytes :
    nsInitparse highBytes 31 = some highBytesHandle ∧ highBytes 3 &&& 15 = 0 ∧
    PlainNames highBytes highBytesHandle ∧
      (dnsParse highBytes 31).2 = [⟨0, 25, 0⟩] ∧ highBytesHandle.answers highBytes = [⟨1, 27, 4⟩] ∧
      ¬ReportsAnswers highBytes highBytesHandle := by
  refine ⟨by decide, by decide, highBytes_plain, by decide, by decide, fun hreports => ?_⟩
  exact absurd hreports.1 (by decide)

end Musl.Network
