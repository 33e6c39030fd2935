import Musl.Network.DnComp

/-!
# Reading the records of a message

`ns_initparse` walks over all records of a message with `dn_skipname` and notes where the four
sections start. `ns_parserr` reads one record; the handle keeps the place after it, so that the next
one need not be looked for again. That place is reckoned with the length that `dn_expand` reports.

Places are offsets from the start of the message.
-/

namespace Musl.Network

open Musl.Lib.DnsName List Option

/-! ### The code -/

def nsGet16 (m : Message) (p : ℕ) : ℕ := (m p).toNat <<< 8 ||| (m (p + 1)).toNat

def nsGet32 (m : Message) (p : ℕ) : ℕ :=
  (m p).toNat <<< 24 ||| (m (p + 1)).toNat <<< 16 ||| (m (p + 2)).toNat <<< 8 ||| (m (p + 3)).toNat

/-- The loop of `dn_skipname`, for at most `n` rounds: the place after the name. -/
def skipLoop (m : Message) (eom : ℕ) : ℕ → ℕ → Option ℕ
  | 0, _ => none
  | n + 1, p =>
    if eom ≤ p then none
    else if m p = 0 then some (p + 1)
    else if 192 ≤ m p then
      if p + 1 < eom then some (p + 2) else none
    else if eom < p + (m p).toNat + 1 then none
    else skipLoop m eom n (p + (m p).toNat + 1)

/-- `dn_skipname`; `none` is the return of -1.  A round takes a byte of the message or more. -/
def dnSkipname (m : Message) (eom s : ℕ) : Option ℕ := (skipLoop m eom (eom - s) s).map (· - s)

/-- One round of `ns_skiprr`: the place after the record at `p`. -/
def skipRecord (m : Message) (eom sect p : ℕ) : Option ℕ :=
  match dnSkipname m eom p with
  | none => none
  | some r =>
    if eom < p + r + 4 then none
    else if sect ≠ 0 then
      if eom < p + r + 4 + 6 then none
      else if eom < p + r + 4 + 6 + nsGet16 m (p + r + 4 + 4) then none
      else some (p + r + 4 + 6 + nsGet16 m (p + r + 4 + 4))
    else some (p + r + 4)

/-- `ns_skiprr`: the place after `count` records. -/
def nsSkiprr (m : Message) (eom sect : ℕ) : ℕ → ℕ → Option ℕ
  | 0, p => some p
  | count + 1, p => (skipRecord m eom sect p).bind fun q => nsSkiprr m eom sect count q

/-- `ns_msg`.  `sections` and `msgPtr` are offsets from `_msg`, or null. -/
structure NsMsg where
  eom : ℕ
  id : ℕ
  flags : ℕ
  counts : List ℕ
  sections : List (Option ℕ)
  sect : ℕ
  rrnum : ℤ
  msgPtr : Option ℕ
  deriving DecidableEq, Repr

/-- The loop of `ns_initparse` over the sections from `i` on: where they start, and the place after
them. -/
def findSections (m : Message) (eom : ℕ) : ℕ → List ℕ → ℕ → Option (List (Option ℕ) × ℕ)
  | _, [], p => some ([], p)
  | i, count :: counts, p =>
    if count ≠ 0 then
      match nsSkiprr m eom i count p with
      | none => none
      | some q => (findSections m eom (i + 1) counts q).map fun r => (some p :: r.1, r.2)
    else (findSections m eom (i + 1) counts p).map fun r => (none :: r.1, r.2)

/-- `ns_initparse`; `none` is the return of -1. -/
def nsInitparse (m : Message) (msglen : ℕ) : Option NsMsg :=
  if msglen < 12 then none
  else
    let counts := [nsGet16 m 4, nsGet16 m 6, nsGet16 m 8, nsGet16 m 10]
    match findSections m msglen 0 counts 12 with
    | none => none
    | some r =>
      if r.2 ≠ msglen then none else some ⟨msglen, nsGet16 m 0, nsGet16 m 2, counts, r.1, 4, -1,
        none⟩

structure NsRr where
  name : List UInt8
  type : ℕ
  rrClass : ℕ
  ttl : ℕ
  rdlength : ℕ
  rdata : Option ℕ
  deriving DecidableEq, Repr

/-- `errno` after a return of -1. -/
inductive NsError where
  | nodev
  | msgsize
  deriving DecidableEq, Repr

/-- The part of `ns_parserr` that reads the record at `p`: what is read, and `_msg_ptr`. -/
def readRr (m : Message) (eom sect p : ℕ) : Except NsError NsRr × ℕ :=
  match dnExpand m eom p 1025 with
  | none => (.error .msgsize, p)
  | some (r, name) =>
    let p := p + r
    if eom < p + 4 then (.error .msgsize, p)
    else
      let type := nsGet16 m p
      let rrClass := nsGet16 m (p + 2)
      let p := p + 4
      if sect ≠ 0 then
        if eom < p + 6 then (.error .msgsize, p)
        else
          let ttl := nsGet32 m p
          let rdlength := nsGet16 m (p + 4)
          let p := p + 6
          if eom < p + rdlength then (.error .msgsize, p)
          else (.ok ⟨name, type, rrClass, ttl, rdlength, some p⟩, p + rdlength)
      else (.ok ⟨name, type, rrClass, 0, 0, none⟩, p)

/-- `_counts[i]` -/
def NsMsg.count (h : NsMsg) (i : ℕ) : ℕ := h.counts.getD i 0

/-- `_sections[i]` -/
def NsMsg.start (h : NsMsg) (i : ℕ) : Option ℕ := h.sections.getD i none

/-- `handle->_rrnum = 0; handle->_msg_ptr = handle->_sections[section];` -/
def NsMsg.rewind (h : NsMsg) (sect : ℕ) : NsMsg := { h with rrnum := 0, msgPtr := h.start sect }

def NsMsg.enter (h : NsMsg) (sect : ℕ) : NsMsg :=
  if sect ≠ h.sect then { h.rewind sect with sect := sect } else h

/-- Go on to record `n`; `none` if `ns_skiprr` fails. -/
def NsMsg.forward (m : Message) (h : NsMsg) (sect : ℕ) (n : ℤ) : Option NsMsg :=
  if h.rrnum < n then
    (nsSkiprr m h.eom sect (n - h.rrnum).toNat (h.msgPtr.getD 0)).map fun p =>
      { h with msgPtr := some p, rrnum := n }
  else some h

def NsMsg.advance (h : NsMsg) (sect : ℕ) : NsMsg :=
  let h := { h with rrnum := h.rrnum + 1 }
  if (h.count sect : ℤ) < h.rrnum then
    if sect + 1 = 4 then { h with sect := sect + 1, rrnum := -1, msgPtr := none }
    else { h with sect := sect + 1, rrnum := 0 }
  else h

def nsParserr (m : Message) (h : NsMsg) (sect : ℕ) (rrnum : ℤ) : Except NsError NsRr × NsMsg :=
  if 4 ≤ sect then (.error .nodev, h)
  else
    let h := h.enter sect
    let n := if rrnum = -1 then h.rrnum else rrnum
    if n < 0 ∨ (h.count sect : ℤ) ≤ n then (.error .nodev, h)
    else
      let h := if n < h.rrnum then h.rewind sect else h
      match h.forward m sect n with
      | none => (.error .msgsize, h)
      | some h =>
        let r := readRr m h.eom sect (h.msgPtr.getD 0)
        let h := { h with msgPtr := some r.2 }
        match r.1 with
        | .error e => (.error e, h)
        | .ok rr => (.ok rr, h.advance sect)

def NsMsg.run (m : Message) (h : NsMsg) (reqs : List (ℕ × ℤ)) : NsMsg :=
  reqs.foldl (fun h q => (nsParserr m h q.1 q.2).2) h

/-! ### The walk over the records -/

section Walk

variable {m : Message} {eom sect : ℕ}

lemma skiprr_add (a b p : ℕ) :
    nsSkiprr m eom sect (a + b) p = (nsSkiprr m eom sect a p).bind (nsSkiprr m eom sect b) := by
  induction a generalizing p with
  | zero => rw [zero_add, nsSkiprr, bind_some]
  | succ a ih =>
    rw [Nat.succ_add, nsSkiprr, nsSkiprr, bind_assoc]
    congr 1
    funext q
    exact ih q

lemma skiprr_one (p : ℕ) : nsSkiprr m eom sect 1 p = skipRecord m eom sect p := by
  simp [nsSkiprr]

variable {e p : ℕ}

lemma skiprr_of_le {a b : ℕ} (h : nsSkiprr m eom sect b p = some e) (hab : a ≤ b) :
    ∃ q, nsSkiprr m eom sect a p = some q ∧ nsSkiprr m eom sect (b - a) q = some e := by
  rw [← Nat.add_sub_cancel' hab, skiprr_add] at h
  exact bind_eq_some_iff.1 h

lemma findSections_walk {counts : List ℕ} {i : ℕ} {starts : List (Option ℕ)}
    (h : findSections m eom i counts p = some (starts, e)) (j : ℕ) :
    if counts.getD j 0 = 0 then starts.getD j none = none
    else ∃ s q, starts.getD j none = some s ∧ nsSkiprr m eom (i + j) (counts.getD j 0) s = some q := by
  induction counts generalizing i p starts j with
  | nil =>
    cases h
    simp
  | cons count counts ih =>
    simp only [findSections] at h
    split at h
    · next hcount =>
      split at h
      · cases h
      · next q hq =>
        obtain ⟨r, hr, heq⟩ := map_eq_some_iff.1 h
        cases heq
        cases j with
        | zero =>
          rw [getD_cons_zero, if_neg hcount]
          exact ⟨p, q, rfl, hq⟩
        | succ j =>
          have hrest := ih hr j
          rw [show i + (j + 1) = i + 1 + j by omega]
          exact hrest
    · next hcount =>
      obtain ⟨r, hr, heq⟩ := map_eq_some_iff.1 h
      cases heq
      rw [not_not] at hcount
      cases j with
      | zero =>
        rw [getD_cons_zero, getD_cons_zero, if_pos hcount]
      | succ j =>
        have hrest := ih hr j
        rw [show i + (j + 1) = i + 1 + j by omega]
        exact hrest

end Walk

/-! ### The place in the handle -/

/-- The place of record `k` of a section. -/
def NsMsg.recordPos (m : Message) (h : NsMsg) (sect k : ℕ) : Option ℕ :=
  (h.start sect).bind (nsSkiprr m h.eom sect k)

/-- What `ns_initparse` has found out. -/
structure NsMsg.Walked (m : Message) (h : NsMsg) : Prop where
  pos : ∀ sect k, k < h.count sect → ∃ p q, h.recordPos m sect k = some p ∧
    skipRecord m h.eom sect p = some q ∧
    h.recordPos m sect (k + 1) = some q
  sect : h.sect = 4

/-- The same message, with the place of record `rrnum` in the handle. -/
structure InPlace (m : Message) (h₀ h : NsMsg) : Prop where
  eom : h.eom = h₀.eom
  counts : h.counts = h₀.counts
  sections : h.sections = h₀.sections
  place : h.sect < 4 → ∃ k : ℕ, h.rrnum = k ∧ k ≤ h.count h.sect ∧ h.msgPtr = h.recordPos m h.sect k

/-- `dn_expand` fails on the name of a record, or its length is that of `dn_skipname`. -/
def Agrees (m : Message) (h : NsMsg) : Prop :=
  ∀ sect k p r name, k < h.count sect → h.recordPos m sect k = some p → dnExpand m h.eom p 1025 =
    some (r, name) →
    dnSkipname m h.eom p = some r

section Handle

variable {m : Message} {h₀ h : NsMsg} {sect : ℕ}

lemma nsInitparse_walked {msglen : ℕ} (hinit : nsInitparse m msglen = some h) : h.Walked m := by
  simp only [nsInitparse] at hinit
  split at hinit
  · cases hinit
  · split at hinit
    · cases hinit
    · next r hr =>
      split at hinit
      · cases hinit
      · cases hinit
        refine ⟨?_, rfl⟩
        intro sect k hk
        have hwalk := findSections_walk hr sect
        rw [zero_add] at hwalk
        have hcount : [nsGet16 m 4, nsGet16 m 6, nsGet16 m 8, nsGet16 m 10].getD sect 0 ≠ 0 :=
          ne_of_gt (Nat.zero_lt_of_lt hk)
        rw [if_neg hcount] at hwalk
        obtain ⟨s, e, hs, he⟩ := hwalk
        obtain ⟨q, hq, _⟩ := skiprr_of_le he (Nat.succ_le_of_lt hk)
        obtain ⟨p, hp, hstep⟩ := skiprr_of_le hq (Nat.le_succ k)
        rw [Nat.succ_eq_add_one, Nat.add_sub_cancel_left, skiprr_one] at hstep
        refine ⟨p, q, ?_, hstep, ?_⟩
        · rw [NsMsg.recordPos, NsMsg.start, hs]
          exact hp
        · rw [NsMsg.recordPos, NsMsg.start, hs]
          exact hq

lemma InPlace.count_eq (hin : InPlace m h₀ h) (sect : ℕ) : h.count sect = h₀.count sect := by
  rw [NsMsg.count, NsMsg.count, hin.counts]

lemma InPlace.recordPos_eq (hin : InPlace m h₀ h) (sect k : ℕ) :
    h.recordPos m sect k = h₀.recordPos m sect k := by
  rw [NsMsg.recordPos, NsMsg.recordPos, NsMsg.start, NsMsg.start, hin.sections, hin.eom]

lemma InPlace.fresh (hwalk : h.Walked m) : InPlace m h h :=
  ⟨rfl, rfl, rfl, fun hlt => absurd hwalk.sect (Nat.ne_of_lt hlt)⟩

lemma start_eq_recordPos (h : NsMsg) (sect : ℕ) : h.start sect = h.recordPos m sect 0 := by
  simp only [NsMsg.recordPos]
  cases h.start sect with
  | none => rfl
  | some s => rfl

lemma InPlace.enter (hin : InPlace m h₀ h) (sect : ℕ) :
    InPlace m h₀ (h.enter sect) ∧ (h.enter sect).sect = sect := by
  simp only [NsMsg.enter]
  split
  · refine ⟨⟨hin.eom, hin.counts, hin.sections, fun _ => ⟨0, rfl, Nat.zero_le _, ?_⟩⟩, rfl⟩
    exact start_eq_recordPos h sect
  · next heq =>
    rw [not_not] at heq
    exact ⟨hin, heq.symm⟩

/-- The handle with the place of record `k`. -/
def NsMsg.atRecord (h : NsMsg) (k p : ℕ) : NsMsg := { h with rrnum := k, msgPtr := some p }

variable {k p q : ℕ}

lemma InPlace.forward_eq (hwalk : h₀.Walked m) (hin : InPlace m h₀ h) (hat : h.sect = sect)
    (hsect : sect < 4)
    (hk : k < h₀.count sect) : ∃ p, h₀.recordPos m sect k = some p ∧
      (if (k : ℤ) < h.rrnum then h.rewind sect else h).forward m sect k = some (h.atRecord k p) := by
  obtain ⟨p, _, hp, _⟩ := hwalk.pos sect k hk
  refine ⟨p, hp, ?_⟩
  subst hat
  obtain ⟨j, hj, _, hptr⟩ := hin.place hsect
  -- from record `i`, which is the first one or that of the handle
  have hskip : ∀ i, i < k → ∃ q,
      h₀.recordPos m h.sect i = some q ∧ nsSkiprr m h.eom h.sect (k - i) q = some p := by
    intro i hi
    simp only [NsMsg.recordPos] at hp ⊢
    obtain ⟨s, hs, hsp⟩ := bind_eq_some_iff.1 hp
    rw [hs, hin.eom]
    exact skiprr_of_le hsp hi.le
  rw [hin.recordPos_eq] at hptr
  by_cases hback : k < h.rrnum
  · rw [if_pos hback]
    by_cases hzero : k = 0
    · subst hzero
      rw [NsMsg.forward, if_neg (by simp [NsMsg.rewind])]
      simp [NsMsg.rewind, NsMsg.atRecord, start_eq_recordPos (m := m) h, hin.recordPos_eq, hp]
    · obtain ⟨q, hq, hpq⟩ := hskip 0 (pos_of_ne_zero hzero)
      have hstart : h.start h.sect = some q := by rw [start_eq_recordPos, hin.recordPos_eq, hq]
      rw [NsMsg.forward, if_pos (by simp only [NsMsg.rewind]; omega)]
      simp only [NsMsg.rewind, hstart, getD_some, sub_zero, Int.toNat_natCast]
      rw [Nat.sub_zero] at hpq
      rw [hpq]
      rfl
  · rw [if_neg hback, NsMsg.forward]
    by_cases hahead : h.rrnum < k
    · have hjk : j < k := by omega
      obtain ⟨q, hq, hpq⟩ := hskip j hjk
      rw [if_pos hahead, hptr, hq, getD_some, hj, show (k - (j : ℤ)).toNat = k - j by omega, hpq]
      rfl
    · have hjk : j = k := by omega
      subst hjk
      rw [if_neg hahead, NsMsg.atRecord, ← hp, ← hptr, ← hj]

/-- What `ns_parserr` gives for a record, of a handle that has come to the record. -/
def parsed (h : NsMsg) (sect : ℕ) (r : Except NsError NsRr × ℕ) : Except NsError NsRr × NsMsg :=
  match r.1 with
  | .error e => (.error e, { h with msgPtr := some r.2 })
  | .ok rr => (.ok rr, { h with msgPtr := some r.2 }.advance sect)

/-- **What `ns_parserr` reads** is at the place where the walk comes to. -/
theorem nsParserr_eq (hwalk : h₀.Walked m) (hin : InPlace m h₀ h) (hsect : sect < 4) (rrnum : ℤ)
    (hnum : (if rrnum = -1 then (h.enter sect).rrnum else rrnum) = k) (hk : k < h₀.count sect) :
    ∃ p, h₀.recordPos m sect k = some p ∧
      nsParserr m h sect rrnum = parsed ((h.enter sect).atRecord k p) sect (readRr m h₀.eom sect p) := by
  obtain ⟨henter, hat⟩ := hin.enter sect
  obtain ⟨p, hp, hforward⟩ := henter.forward_eq hwalk hat hsect hk
  refine ⟨p, hp, ?_⟩
  have hrange : ¬((k : ℤ) < 0 ∨ ((h.enter sect).count sect : ℤ) ≤ k) := by
    rw [henter.count_eq]
    omega
  simp only [nsParserr, if_neg (Nat.not_le_of_lt hsect), hnum, if_neg hrange, hforward]
  simp [NsMsg.atRecord, henter.eom, parsed]

lemma InPlace.atRecord (hin : InPlace m h₀ h) (hk : k ≤ h₀.count h.sect)
    (hp : h₀.recordPos m h.sect k = some p) :
    InPlace m h₀ (h.atRecord k p) := by
  refine ⟨hin.eom, hin.counts, hin.sections, fun _ => ⟨k, rfl, ?_, ?_⟩⟩
  · rw [← hin.count_eq] at hk
    exact hk
  · rw [← hin.recordPos_eq] at hp
    exact hp.symm

lemma atRecord_advance (hk : k < h.count sect) :
    { h.atRecord k p with msgPtr := some q }.advance sect = h.atRecord (k + 1) q := by
  have hlast : ¬((h.count sect : ℤ) < k + 1) := by omega
  exact (if_neg hlast).trans rfl

lemma readRr_place {eom : ℕ} (hskip : skipRecord m eom sect p = some q)
    (hagree : ∀ r name, dnExpand m eom p 1025 = some (r, name) → dnSkipname m eom p = some r) :
    (∃ e, readRr m eom sect p = (.error e, p)) ∨ ∃ rr, readRr m eom sect p = (.ok rr, q) := by
  simp only [readRr]
  cases hname : dnExpand m eom p 1025 with
  | none => exact .inl ⟨_, rfl⟩
  | some r =>
    obtain ⟨r, name⟩ := r
    rw [skipRecord, hagree r name hname] at hskip
    simp only at hskip ⊢
    right
    split at hskip
    · cases hskip
    · next hfixed =>
      rw [if_neg hfixed]
      split at hskip
      · next hqd =>
        rw [if_pos hqd]
        split at hskip
        · cases hskip
        · next hlen =>
          rw [if_neg hlen]
          split at hskip
          · cases hskip
          · next hdata =>
            rw [if_neg hdata]
            cases hskip
            exact ⟨_, rfl⟩
      · next hqd =>
        rw [if_neg hqd]
        cases hskip
        exact ⟨_, rfl⟩

section

variable (hwalk : h₀.Walked m) (hagree : Agrees m h₀) (hin : InPlace m h₀ h)

include hwalk hagree hin

/-- **The place is kept**, whatever is asked for. -/
theorem InPlace.parserr (sect : ℕ) (rrnum : ℤ) : InPlace m h₀ (nsParserr m h sect rrnum).2 := by
  by_cases hsect : 4 ≤ sect
  · simp only [nsParserr, if_pos hsect]
    exact hin
  · rw [not_le] at hsect
    obtain ⟨henter, hat⟩ := hin.enter sect
    generalize hn : (if rrnum = -1 then (h.enter sect).rrnum else rrnum) = n
    by_cases hrange : n < 0 ∨ ((h.enter sect).count sect : ℤ) ≤ n
    · simp only [nsParserr, if_neg (Nat.not_le_of_lt hsect), hn, if_pos hrange]
      exact henter
    · obtain ⟨k, rfl⟩ : ∃ k : ℕ, n = k := ⟨n.toNat, by omega⟩
      have hk : k < h₀.count sect := by
        rw [← henter.count_eq]
        omega
      obtain ⟨p, hp, heq⟩ := nsParserr_eq hwalk hin hsect rrnum hn hk
      obtain ⟨p', q, hp', hskip, hq⟩ := hwalk.pos sect k hk
      rw [hp, some.injEq] at hp'
      subst hp'
      rcases readRr_place hskip fun r name => hagree sect k p r name hk hp with ⟨e, hread⟩ | ⟨rr, hread⟩
      · rw [heq, hread]
        exact henter.atRecord (hat.symm ▸ hk.le) (hat.symm ▸ hp)
      · have hcount : k < (h.enter sect).count sect := by
          rw [henter.count_eq]
          exact hk
        simp only [heq, hread, parsed, atRecord_advance hcount]
        exact henter.atRecord (hat.symm ▸ hk) (hat.symm ▸ hq)

lemma InPlace.run (reqs : List (ℕ × ℤ)) : InPlace m h₀ (h.run m reqs) := by
  induction reqs generalizing h with
  | nil => exact hin
  | cons q reqs ih => exact ih (hin.parserr hwalk hagree q.1 q.2)

end

/-- **Records do not depend on what was asked for before**, for a message on whose names `dn_expand` and
`dn_skipname` agree. -/
theorem nsParserr_run {msglen : ℕ} (hinit : nsInitparse m msglen = some h) (hagree : Agrees m h)
    (reqs : List (ℕ × ℤ)) {sect k : ℕ} (hsect : sect < 4) (hk : k < h.count sect) :
    (nsParserr m (h.run m reqs) sect k).1 = (nsParserr m h sect k).1 := by
  have hwalk : h.Walked m := nsInitparse_walked hinit
  have hfresh : InPlace m h h := .fresh hwalk
  have hnum : ∀ h : NsMsg, (if (k : ℤ) = -1 then (h.enter sect).rrnum else k) = k :=
    fun h => if_neg (by omega)
  obtain ⟨p, hp, heq⟩ := nsParserr_eq hwalk (hfresh.run hwalk hagree reqs) hsect k (hnum _) hk
  obtain ⟨p', hp', heq'⟩ := nsParserr_eq hwalk hfresh hsect k (hnum _) hk
  rw [hp, some.injEq] at hp'
  subst hp'
  rw [heq, heq', parsed, parsed]
  cases (readRr m h.eom sect p).1 with
  | error e => rfl
  | ok rr => rfl

end Handle

/-! ### Names of labels and pointers -/

/-- A name from `p` to `e`: labels of at most 63 bytes, and a zero byte or a pointer at the end. -/
inductive PlainName (m : Message) (eom : ℕ) : ℕ → ℕ → Prop where
  | zero {p : ℕ} : p < eom → m p = 0 → PlainName m eom p (p + 1)
  | pointer {p : ℕ} : p + 1 < eom → 0xc0 ≤ m p → PlainName m eom p (p + 2)
  | label {p e : ℕ} : m p ≠ 0 → m p < 0x40 → PlainName m eom (p + 1 + (m p).toNat) e → PlainName m eom p e

section Plain

variable {m : Message} {eom p e : ℕ}

lemma PlainName.lt (h : PlainName m eom p e) : p < e ∧ e ≤ eom := by
  induction h with
  | zero hp _ => omega
  | pointer hp _ => omega
  | label _ _ _ ih => omega

variable {c : UInt8} {n dend r src : ℕ} {dest name : List UInt8}

lemma pointer_byte (h : 0xc0 ≤ c) : c &&& 0xc0 ≠ 0 ∧ c ≠ 0 := by
  have hbits : ∀ n < 64, (192 + n) &&& 192 ≠ 0 := by decide
  have hc : 192 ≤ c.toNat := UInt8.le_iff_toNat_le.1 h
  have hlt := c.toNat_lt
  constructor
  · intro hzero
    have hnat := congrArg UInt8.toNat hzero
    refine hbits (c.toNat - 192) (by omega) ?_
    rw [Nat.add_sub_cancel' hc]
    exact hnat
  · rintro rfl
    exact absurd hc (by decide)

lemma label_byte (h : c < 0x40) : c &&& 0xc0 = 0 ∧ ¬(192 ≤ c) := by
  have hc : c.toNat < 64 := UInt8.lt_iff_toNat_lt.1 h
  refine ⟨length_bits (by omega), fun hle => ?_⟩
  have hle : 192 ≤ c.toNat := UInt8.le_iff_toNat_le.1 hle
  omega

lemma skipLoop_plain (h : PlainName m eom p e) (hn : eom - p ≤ n) : skipLoop m eom n p = some e := by
  induction h generalizing n with
  | zero hp h0 =>
    obtain _ | n := n
    · omega
    rw [skipLoop, if_neg (by omega), if_pos h0]
  | @pointer p hp hptr =>
    obtain _ | n := n
    · omega
    rw [skipLoop, if_neg (by omega), if_neg (pointer_byte hptr).2, if_pos hptr, if_pos hp]
  | @label p e h0 hlen hrest ih =>
    obtain ⟨hlt, hle⟩ := hrest.lt
    obtain _ | n := n
    · omega
    rw [skipLoop, if_neg (by omega), if_neg h0, if_neg (label_byte hlen).2, if_neg (by omega),
      add_right_comm]
    exact ih (by omega)

lemma expandLoop_len {len : ℕ}
    (h : expandLoop m eom dend src n p dest (some len) = some (r, name)) : r = len := by
  induction n generalizing p dest with
  | zero => cases h
  | succ n ih =>
    simp only [expandLoop] at h
    split at h
    · split at h
      · cases h
      · split at h
        · cases h
        · exact ih h
    · generalize (if dest ≠ [] then dest ++ [46] else dest) = dest' at h
      split at h
      · split at h
        · cases h
        · exact ih h
      · cases h
        rfl

lemma expandLoop_plain (h : PlainName m eom p e)
    (hr : expandLoop m eom dend src n p dest none = some (r, name)) :
    r = e - src := by
  induction h generalizing n dest with
  | zero hp h0 =>
    cases n with
    | zero => cases hr
    | succ n =>
      simp only [expandLoop, h0] at hr
      cases hr
      rfl
  | @pointer p hp hptr =>
    cases n with
    | zero => cases hr
    | succ n =>
      rw [expandLoop, if_pos (pointer_byte hptr).1] at hr
      split at hr
      · cases hr
      · split at hr
        · cases hr
        · exact expandLoop_len hr
  | @label p e h0 hlen hrest ih =>
    cases n with
    | zero => cases hr
    | succ n =>
      rw [expandLoop, if_neg (by rw [(label_byte hlen).1]; simp), if_pos h0] at hr
      generalize (if dest ≠ [] then dest ++ [46] else dest) = dest' at hr
      simp only at hr
      split at hr
      · cases hr
      · exact ih hr

/-- **The two walks agree on a plain name.** -/
theorem PlainName.expand_eq_skip (h : PlainName m eom p e) {space : ℤ}
    (hr : dnExpand m eom p space = some (r, name)) :
    dnSkipname m eom p = some r := by
  rw [dnSkipname, skipLoop_plain h le_rfl, map_some]
  rw [dnExpand] at hr
  split at hr
  · cases hr
  · rw [expandLoop_plain h hr]

end Plain

def PlainNames (m : Message) (h : NsMsg) : Prop :=
  ∀ sect k p, k < h.count sect → h.recordPos m sect k = some p → ∃ e, PlainName m h.eom p e

lemma PlainNames.agrees {m : Message} {h : NsMsg} (hplain : PlainNames m h) : Agrees m h := by
  intro sect k p r name hk hp hr
  obtain ⟨e, he⟩ := hplain sect k p hk hp
  exact he.expand_eq_skip hr

/-! ### Two messages -/

def twoHeader : List UInt8 := [0, 0, 0, 0, 0, 2, 0, 0, 0, 0, 0, 0]

/-- The questions `a`, and a pointer to it. -/
def plainMessage : Message :=
  fun i => (twoHeader ++ [1, 97, 0, 0, 1, 0, 1, 0xc0, 12, 0, 28, 0, 1]).getD i 0

/-- A label of 64 bytes, of which the first two are a pointer to a zero byte for `dn_expand`, and
the root. -/
def longLabel : Message := fun i =>
  (twoHeader ++ [64, 0] ++ List.replicate 63 0 ++ [0, 0, 1, 0, 1, 0, 0, 1, 0, 1]).getD i 0

/-- What `ns_initparse` makes of two questions. -/
def twoQuestions (eom : ℕ) : NsMsg := ⟨eom, 0, 0, [2, 0, 0, 0], [some 12, none, none, none], 4, -1, none⟩

lemma plainMessage_agrees : Agrees plainMessage (twoQuestions 25) := by
  apply PlainNames.agrees
  intro sect k p hk hp
  have hsect : sect = 0 := by
    by_contra hne
    obtain ⟨s, rfl⟩ := Nat.exists_eq_succ_of_ne_zero hne
    have hzero : (twoQuestions 25).count s.succ = 0 := by
      rcases s with _ | _ | _ | s <;> rfl
    rw [hzero] at hk
    exact absurd hk (Nat.not_lt_zero k)
  subst hsect
  have hcount : (twoQuestions 25).count 0 = 2 := rfl
  rw [hcount] at hk
  interval_cases k
  · cases hp
    exact ⟨15, .label (by decide) (by decide) (.zero (by decide) (by decide))⟩
  · have hpos : (twoQuestions 25).recordPos plainMessage 0 1 = some 19 := by decide
    cases hp
    exact ⟨21, .pointer (by decide) (by decide)⟩

/-- The second question after the first one, and alone. -/
theorem nsParserr_run_plain :
    (nsParserr plainMessage ((twoQuestions 25).run plainMessage [(0, 0)]) 0 (1 : ℕ)).1 =
      (nsParserr plainMessage (twoQuestions 25) 0 (1 : ℕ)).1 :=
  nsParserr_run (show nsInitparse plainMessage 25 = some _ by decide) plainMessage_agrees [(0, 0)]
    (by decide)
    (by decide)

/-- The second question is of another type if the first one was read before. -/
theorem nsParserr_order_matters : nsInitparse longLabel 87 = some (twoQuestions 87) ∧
      (nsParserr longLabel (twoQuestions 87) 0 1).1 = .ok ⟨[], 1, 1, 0, 0, none⟩ ∧
      (nsParserr longLabel ((twoQuestions 87).run longLabel [(0, 0)]) 0 1).1 = .ok ⟨[], 0, 0, 0, 0,
        none⟩ := by
  decide +kernel

end Musl.Network
