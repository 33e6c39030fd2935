import Musl.Lib.DnsName

/-!
# Names in packets of the asynchronous resolver

`dname_expand` follows the labels and pointers of a name.  A pointer has to lead before the place at
which the current run of labels began, which is why the walk ends.  A label may end where the packet
ends, though, and the length of the next label is read there.

`mem` is the memory from the start of the packet on, of which the first `len` bytes are the packet;
the places that are read are noted.
-/

namespace Musl.Network.Asr

open Musl.Lib.DnsName List Option Nat

/-! ### The code -/

/-- The variables of `dname_expand`.  `fin` is `end`, `reads` the places that were read, the last
one first; `dst` are the bytes that were stored, if there is a buffer. -/
structure Scan where
  offset : ℕ
  start : ℕ
  fin : ℕ
  res : ℕ
  dst : Option (List UInt8)
  max : ℕ
  reads : List ℕ

/-- What `dname_expand` returns, and `*newoffset` if it was set. -/
structure Result where
  ret : ℤ
  newoffset : Option ℕ
  dst : Option (List UInt8)
  reads : List ℕ

/-- `return -1`. -/
def Scan.fail (s : Scan) : Result := ⟨-1, none, s.dst, s.reads⟩

def Scan.finish (s : Scan) : Result where
  ret := s.res + 1
  newoffset := some (if s.fin < s.offset + 1 then s.offset + 1 else s.fin)
  dst := if s.max ≠ 0 then s.dst.map (· ++ [0]) else s.dst
  reads := s.reads

def dnameCheckLabel (l : ℕ) : ℤ := if l = 0 ∨ l > 63 then -1 else 0

variable (mem : Message) (len : ℕ)

/-- `ptr = 256 * (n & ~0xc0) + data[offset + 1];` -/
def ptr (offset : ℕ) : ℕ := 256 * ((mem offset).toNat &&& 0x3f) + (mem (offset + 1)).toNat

def Scan.read (s : Scan) (i : ℕ) : Scan := { s with reads := i :: s.reads }

@[simp] lemma Scan.read_offset (s : Scan) (i : ℕ) : (s.read i).offset = s.offset := rfl

@[simp] lemma Scan.read_start (s : Scan) (i : ℕ) : (s.read i).start = s.start := rfl

def Scan.follow (s : Scan) (ptr : ℕ) : Scan :=
  { s with fin := if s.fin < s.offset + 2 then s.offset + 2 else s.fin, offset := ptr, start := ptr }

/-- `memmove(dst, data + offset, count)`. -/
def Scan.copy (s : Scan) (n : ℕ) : Scan :=
  match s.dst with
  | some dst =>
    if s.max ≠ 0 then
      let count := if s.max < n + 1 then s.max else n + 1
      { s with
        dst := some (dst ++ bytes mem s.offset count)
        max := s.max - count
        reads := (List.range' s.offset count).reverse ++ s.reads }
    else s
  | none => s

/-- A label of `n` bytes. -/
def Scan.label (s : Scan) (n : ℕ) : Scan :=
  let s := s.copy mem n
  { s with
    res := s.res + n + 1
    offset := s.offset + n + 1
    fin := if s.fin < s.offset + n + 1 then s.offset + n + 1 else s.fin }

/-- One round of `for (; (n = data[offset]); )`: the function returns, or the walk goes on. -/
def round (s : Scan) : Result ⊕ Scan :=
  let n := (mem s.offset).toNat
  let t := s.read s.offset
  if n = 0 then .inl t.finish
  else if n &&& 0xc0 = 0xc0 then
    if s.offset + 2 > len then .inl t.fail
    else
      let t := t.read (s.offset + 1)
      if ptr mem s.offset ≥ s.start then .inl t.fail else .inr (t.follow (ptr mem s.offset))
  else if s.offset + n + 1 > len then .inl t.fail
  else if dnameCheckLabel n = -1 then .inl t.fail
  else .inr (t.label mem n)

def loop : ℕ → Scan → Option Result
  | 0, _ => none
  | rounds + 1, s =>
    match round mem len s with
    | .inl r => some r
    | .inr t => loop rounds t

def dnameExpand (rounds offset : ℕ) (dst : Option (List UInt8)) (max : ℕ) : Option Result :=
  if offset ≥ len then some ⟨-1, none, dst, []⟩
  else loop mem len rounds ⟨offset, offset, offset, 0, dst, max, []⟩

/-! ### The places of the walk -/

/-- From a place and the start of its run the walk goes on to another one: over a pointer, or over a
label that the packet has room for. -/
inductive Step : ℕ × ℕ → ℕ × ℕ → Prop where
  | pointer {start o : ℕ} (hbits : (mem o).toNat &&& 0xc0 = 0xc0) (hroom : o + 2 ≤ len)
    (hback : ptr mem o < start) :
    Step (start, o) (ptr mem o, ptr mem o)
  | label {start o : ℕ} (hpos : 0 < (mem o).toNat) (hle : (mem o).toNat ≤ 63)
    (hroom : o + (mem o).toNat + 1 ≤ len) :
    Step (start, o) (start, o + (mem o).toNat + 1)

/-- The walk from a place on never comes to the end of the packet. -/
def StaysInside (x : ℕ × ℕ) : Prop := ∀ y, Relation.ReflTransGen (Step mem len) x y → y.2 ≠ len

variable {mem len}

variable {x y : ℕ × ℕ} {s : Scan}

lemma Step.unique {z : ℕ × ℕ} (hy : Step mem len x y) (hz : Step mem len x z) : y = z := by
  have hbits : ∀ n ≤ 63, n &&& 0xc0 ≠ 0xc0 := by decide
  cases hy with
  | pointer hp _ _ =>
    cases hz with
    | pointer _ _ _ => rfl
    | label _ hle _ => exact absurd hp (hbits _ hle)
  | label _ hle _ =>
    cases hz with
    | pointer hp _ _ => exact absurd hp (hbits _ hle)
    | label _ _ _ => rfl

lemma staysInside_step (hx : x.2 ≠ len) (h : Step mem len x y) :
    StaysInside mem len x ↔ StaysInside mem len y := by
  constructor
  · exact fun hall z hz => hall z (hz.head h)
  · intro hall z hz
    rcases hz.cases_head with rfl | ⟨w, hw, hwz⟩
    · exact hx
    · exact hall z (h.unique hw ▸ hwz)

lemma staysInside_stop (hx : x.2 ≠ len) (h : ∀ y, ¬Step mem len x y) : StaysInside mem len x := by
  intro z hz
  rcases hz.cases_head with rfl | ⟨w, hw, -⟩
  · exact hx
  · exact absurd hw (h w)

/-- A bound on the steps from a place on: every pointer leads before the start of the run, every
label closer to the end. -/
def remaining (len : ℕ) (x : ℕ × ℕ) : ℕ := x.1 * (len + 2) + (len + 1 - x.2)

lemma Step.remaining_lt (h : Step mem len x y) : remaining len y < remaining len x := by
  cases h with
  | @pointer start o _ hroom hback =>
    have hmul : (ptr mem o + 1) * (len + 2) ≤ start * (len + 2) := mul_le_mul_right _ hback
    rw [add_mul] at hmul
    simp only [remaining]
    omega
  | label hpos _ hroom =>
    simp only [remaining]
    omega

/-! ### One round -/

/-- No place outside of the packet was read, and a new offset is not after its end. -/
def Result.Inside (len : ℕ) (r : Result) : Prop := (∀ i ∈ r.reads, i < len) ∧ ∀ e ∈ r.newoffset, e ≤ len

/-- What holds at the start of a round as long as the walk has stayed inside of the packet. -/
structure Scan.Inside (len : ℕ) (s : Scan) : Prop where
  reads : ∀ i ∈ s.reads, i < len
  fin : s.fin ≤ len
  offset : s.offset ≤ len
  start : s.start ≤ len

section

variable (h : s.Inside len)

include h

lemma Scan.Inside.read {i : ℕ} (hi : i < len) : (s.read i).Inside len where
  reads := by
    intro j hj
    rcases mem_cons.1 hj with rfl | hj
    · exact hi
    · exact h.reads j hj
  fin := h.fin
  offset := h.offset
  start := h.start

lemma Scan.Inside.fail : s.fail.Inside len :=
  ⟨h.reads, fun e he => absurd he (not_mem_none e)⟩

lemma Scan.Inside.finish (hlt : s.offset < len) : s.finish.Inside len := by
  refine ⟨h.reads, ?_⟩
  intro e he
  have hfin := h.fin
  obtain rfl := mem_some.1 he
  split <;> omega

lemma Scan.Inside.follow {ptr : ℕ} (hroom : s.offset + 2 ≤ len) (hptr : ptr ≤ len) :
    (s.follow ptr).Inside len where
  reads := h.reads
  fin := by
    have hfin := h.fin
    show (if s.fin < s.offset + 2 then s.offset + 2 else s.fin) ≤ len
    split <;> omega
  offset := hptr
  start := hptr

end

lemma Scan.copy_frame (mem : Message) (s : Scan) (n : ℕ) :
    (s.copy mem n).offset = s.offset ∧ (s.copy mem n).start = s.start ∧ (s.copy mem n).fin = s.fin ∧
      ∀ i ∈ (s.copy mem n).reads, i ∈ s.reads ∨ s.offset ≤ i ∧ i < s.offset + n + 1 := by
  obtain ⟨-, -, -, -, _ | -, max, -⟩ := s
  · exact ⟨rfl, rfl, rfl, fun i hi => .inl hi⟩
  · by_cases hmax : max ≠ 0
    · simp only [Scan.copy, if_pos hmax, true_and]
      intro i hi
      rcases mem_append.1 hi with hi | hi
      · rw [mem_reverse, mem_range'_1] at hi
        refine .inr ⟨hi.1, ?_⟩
        split at hi <;> omega
      · exact .inl hi
    · simp only [Scan.copy, if_neg hmax, true_and]
      exact fun i hi => .inl hi

lemma Scan.Inside.label (h : s.Inside len) {n : ℕ} (hroom : s.offset + n + 1 ≤ len) :
    (s.label mem n).Inside len := by
  obtain ⟨hoffset, hstart, hfin, hreads⟩ := s.copy_frame mem n
  refine ⟨?_, ?_, ?_, ?_⟩
  · intro i hi
    rcases hreads i hi with hi | hi
    · exact h.reads i hi
    · omega
  · have hle := h.fin
    simp only [Scan.label]
    split <;> omega
  · simp only [Scan.label, hoffset]
    exact hroom
  · simp only [Scan.label, hstart]
    exact h.start

lemma round_cases (mem : Message) (len : ℕ) (s : Scan) :
    (∃ r, round mem len s = .inl r ∧ s.offset ∈ r.reads ∧
      (∀ y, ¬Step mem len (s.start, s.offset) y) ∧ (s.Inside len → s.offset < len → r.Inside len)) ∨
    ∃ t, round mem len s = .inr t ∧
      Step mem len (s.start, s.offset) (t.start, t.offset) ∧ (s.Inside len → t.Inside len) := by
  rw [round]
  have hbits : ∀ n ≤ 63, n &&& 0xc0 ≠ 0xc0 := by decide
  by_cases hzero : (mem s.offset).toNat = 0
  · rw [if_pos hzero]
    refine .inl ⟨_, rfl, mem_cons_self, ?_, fun h hlt => (h.read hlt).finish hlt⟩
    rintro y (⟨hp, -, -⟩ | ⟨hpos, -, -⟩)
    · exact hbits 0 (by omega) (hzero ▸ hp)
    · omega
  rw [if_neg hzero]
  by_cases hp : (mem s.offset).toNat &&& 0xc0 = 0xc0
  · rw [if_pos hp]
    have hnot : ∀ y, Step mem len (s.start, s.offset) y →
        s.offset + 2 ≤ len ∧ ptr mem s.offset < s.start := by
      rintro y (⟨-, hroom, hback⟩ | ⟨-, hle, -⟩)
      · exact ⟨hroom, hback⟩
      · exact absurd hp (hbits _ hle)
    by_cases hroom : s.offset + 2 > len
    · rw [if_pos hroom]
      exact .inl ⟨_, rfl, mem_cons_self, fun y hy => absurd (hnot y hy).1 (by omega),
        fun h hlt => (h.read hlt).fail⟩
    rw [if_neg hroom]
    by_cases hback : ptr mem s.offset ≥ s.start
    · rw [if_pos hback]
      exact .inl ⟨_, rfl, mem_cons_of_mem _ mem_cons_self, fun y hy => absurd (hnot y hy).2 (by omega),
        fun h hlt => ((h.read hlt).read (by omega)).fail⟩
    · rw [if_neg hback]
      refine .inr ⟨_, rfl, .pointer hp (by omega) (by omega), ?_⟩
      intro h
      have hstart := h.start
      exact ((h.read (by omega)).read (by omega)).follow (by simp only [Scan.read_offset]; omega)
        (by omega)
  · rw [if_neg hp]
    have hnot : ∀ y, Step mem len (s.start, s.offset) y →
        (mem s.offset).toNat ≤ 63 ∧ s.offset + (mem s.offset).toNat + 1 ≤ len := by
      rintro y (⟨hbit, -, -⟩ | ⟨-, hle, hroom⟩)
      · exact absurd hbit hp
      · exact ⟨hle, hroom⟩
    by_cases hroom : s.offset + (mem s.offset).toNat + 1 > len
    · rw [if_pos hroom]
      exact .inl ⟨_, rfl, mem_cons_self, fun y hy => absurd (hnot y hy).2 (by omega),
        fun h hlt => (h.read hlt).fail⟩
    rw [if_neg hroom]
    by_cases hle : (mem s.offset).toNat ≤ 63
    · have hcheck : dnameCheckLabel (mem s.offset).toNat ≠ -1 := by
        rw [dnameCheckLabel, if_neg (by omega)]
        decide
      rw [if_neg hcheck]
      refine .inr ⟨_, rfl, ?_, ?_⟩
      · obtain ⟨hoffset, hstart, -, -⟩ := (s.read s.offset).copy_frame mem (mem s.offset).toNat
        simp only [Scan.label, hoffset, hstart]
        exact .label (by omega) hle (by omega)
      · exact fun h => (h.read (by omega)).label (by simp only [Scan.read_offset]; omega)
    · have hcheck : dnameCheckLabel (mem s.offset).toNat = -1 := by
        rw [dnameCheckLabel, if_pos (by omega)]
      rw [if_pos hcheck]
      exact .inl ⟨_, rfl, mem_cons_self, fun y hy => absurd (hnot y hy).1 hle,
        fun h hlt => (h.read hlt).fail⟩

/-! ### The walk -/

lemma Step.offset_lt (h : Step mem len x y) : x.2 < len := by
  cases h with
  | pointer _ hroom _ => exact lt_of_lt_of_le (Nat.lt_add_of_pos_right (by decide)) hroom
  | label _ _ hroom => exact lt_of_lt_of_le (lt_succ_of_le (le_add_right _ _)) hroom

/-- The walk ends, and it stays inside of the packet if and only if no place that it comes to is the
end of the packet. -/
lemma loop_spec (mem : Message) (s : Scan) (h : s.Inside len) :
    ∃ r, (∀ rounds > remaining len (s.start, s.offset), loop mem len rounds s = some r) ∧
      (r.Inside len ↔ StaysInside mem len (s.start, s.offset)) := by
  -- along the steps of the walk, each of which leaves fewer
  induction hn : remaining len (s.start, s.offset) using Nat.strong_induction_on generalizing s with
  | _ n ih =>
    rcases round_cases mem len s with ⟨r, hround, hread, hstop, hinside⟩ | ⟨t, hround, hstep, hinside⟩
    · refine ⟨r, ?_, ?_⟩
      · rintro (_ | rounds) hrounds
        · exact absurd hrounds (not_lt_zero _)
        · rw [loop, hround]
      · by_cases hlt : s.offset < len
        · exact iff_of_true (hinside h hlt) (staysInside_stop (Nat.ne_of_lt hlt) hstop)
        · have hend : s.offset = len := le_antisymm h.offset (Nat.le_of_not_lt hlt)
          exact iff_of_false (fun hr => hlt (hr.1 _ hread)) (fun hall => hall _ .refl hend)
    · obtain ⟨r, hloop, hiff⟩ := ih _ (hn ▸ hstep.remaining_lt) t (hinside h) rfl
      refine ⟨r, ?_, ?_⟩
      · rintro (_ | rounds) hrounds
        · exact absurd hrounds (not_lt_zero _)
        · rw [loop, hround]
          have hless := hstep.remaining_lt
          exact hloop rounds (by omega)
      · rw [hiff, staysInside_step (Nat.ne_of_lt hstep.offset_lt) hstep]

/-- `dname_expand` returns, and what it reads and its new offset lie inside of the packet if and
only if the labels and pointers from `offset` on never lead to the end of the packet. -/
theorem dnameExpand_inside (mem : Message) (len offset : ℕ) (dst : Option (List UInt8)) (max : ℕ) :
    ∃ r, (∀ rounds ≥ (offset + 1) * (len + 2), dnameExpand mem len rounds offset dst max = some r) ∧
      (((∀ i ∈ r.reads, i < len) ∧ ∀ e, r.newoffset = some e → e ≤ len) ↔
        (offset < len → StaysInside mem len (offset, offset))) := by
  by_cases hlt : offset < len
  · obtain ⟨r, hloop, hiff⟩ := loop_spec mem ⟨offset, offset, offset, 0, dst, max, []⟩
      ⟨fun i hi => absurd hi not_mem_nil, hlt.le, hlt.le, hlt.le⟩
    refine ⟨r, ?_, ?_⟩
    · intro rounds hrounds
      rw [dnameExpand, if_neg (by omega)]
      refine hloop rounds ?_
      rw [add_mul] at hrounds
      simp only [remaining]
      omega
    · simp only [hlt, forall_true_left, ← hiff]
      rfl
  · refine ⟨⟨-1, none, dst, []⟩, ?_, ?_⟩
    · intro rounds _
      rw [dnameExpand, if_pos (by omega)]
    · exact iff_of_true ⟨fun i hi => absurd hi not_mem_nil, fun e he => absurd he (some_ne_none e).symm⟩
        (fun h => absurd h hlt)

/-- The name `a` with the byte after its label. -/
def nameA : Message := fun i => if i = 0 then 1 else if i = 1 then 'a'.toNat.toUInt8 else 0

/-- If the packet has the byte after the label, nothing else is read. -/
theorem dnameExpand_inside_name :
    (0 < 3 → StaysInside nameA 3 (0, 0)) ∧ ∃ r,
    (∀ rounds ≥ 5, dnameExpand nameA 3 rounds 0 none 0 = some r) ∧
      (∀ i ∈ r.reads, i < 3) ∧ ∀ e, r.newoffset = some e → e ≤ 3 := by
  have hstop : ∀ y, ¬Step nameA 3 (0, 2) y := by
    rintro y (⟨hp, -, -⟩ | ⟨hpos, -, -⟩)
    · exact absurd hp (by decide)
    · exact absurd hpos (by decide)
  have hstay : StaysInside nameA 3 (0, 0) :=
    (staysInside_step (by decide) (.label (by decide) (by decide) (by decide))).2
      (staysInside_stop (by decide) hstop)
  obtain ⟨r, hr, hiff⟩ := dnameExpand_inside nameA 3 0 none 0
  exact ⟨fun _ => hstay, r, hr, hiff.2 fun _ => hstay⟩

/-- If the packet ends with the label, the byte after it is read, and if this is zero the new offset
is after the end.
-/
theorem dnameExpand_reads_past_end :
    ∃ r, (∀ rounds ≥ 2, dnameExpand nameA 2 rounds 0 none 0 = some r) ∧ 2 ∈ r.reads ∧
    r.newoffset = some 3 := by
  have hrun : ∃ r, (∀ rounds, dnameExpand nameA 2 (rounds + 2) 0 none 0 = some r) ∧ 2 ∈ r.reads ∧
    r.newoffset = some 3 :=
    ⟨_, fun _ => rfl, by decide, by decide⟩
  obtain ⟨r, hr, hreads, hoffset⟩ := hrun
  refine ⟨r, fun rounds hrounds => ?_, hreads, hoffset⟩
  rw [← hr (rounds - 2), Nat.sub_add_cancel hrounds]

end Musl.Network.Asr
