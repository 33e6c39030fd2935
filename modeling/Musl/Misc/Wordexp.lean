import Mathlib.Tactic

/-!
# `wordexp`

`do_wordexp` lets a shell expand a string and puts the words that come back into a vector of
pointers.  The vector is known by the slots that were last allocated for it; a store beyond them is
an `Overrun`.  The index of the next word, the capacity `l` and the allocation itself are kept
apart, as in the code.

The shell, the pipe to it and the outcome of each allocation come from outside (`System`).  Words
are values of any type: the code does not look into them.
-/

namespace Musl.Misc

open List Nat Bool

variable {allocs : List Bool} {i l : ℕ}

/-- A slot of an array of pointers: not written yet, null, or a word. -/
inductive Slot (ω : Type) where
  | junk
  | null
  | word (w : ω)
  deriving DecidableEq, Repr

structure Overrun where
  index : ℕ
  size : ℕ
  deriving DecidableEq, Repr

/-- `wordexp_t`; the vector is missing for a null pointer. -/
structure WordexpT (ω : Type) where
  wordc : ℕ
  wordv : Option (List (Slot ω))
  offs : ℕ
  deriving DecidableEq, Repr

/-- `WRDE_APPEND`, `WRDE_DOOFFS`, `WRDE_REUSE` and `WRDE_NOCMD`; `WRDE_SHOWERR` is for the shell. -/
structure WordFlags where
  append : Bool
  doOffs : Bool
  reuse : Bool
  noCmd : Bool
  deriving DecidableEq, Repr

/-- The values that `do_wordexp` returns. -/
inductive WordResult where
  | ok
  | nospace
  | badChar
  | cmdSub
  | badSyntax
  deriving DecidableEq, Repr

/-- What comes from outside: whether `pipe2`, `fork` and `fdopen` succeed, the words that `getword`
returns (the first is the `x` of the command), whether the stream ends after them, and whether the
allocations succeed. -/
structure System (ω : Type) where
  pipe : Bool
  fork : Bool
  fdopen : Bool
  words : List ω
  eof : Bool
  allocs : List Bool

variable {ω : Type}

def wordfree (we : WordexpT ω) : WordexpT ω :=
  match we.wordv with
  | none => we
  | some _ => { we with wordv := none, wordc := 0 }

/-- The check for `WRDE_NOCMD`: quotes `sq` and `dq`, and the depth of parentheses. -/
def checkCmd (sq dq : Bool) (np : ℕ) : List Char → Option WordResult
  | [] => none
  | c :: cs =>
    if c = '\x5c' then
      if sq then checkCmd sq dq np cs
      else
        match cs with
        | [] => some .badSyntax
        | _ :: cs => checkCmd sq dq np cs
    else if c = '\x27' then checkCmd (if dq then sq else !sq) dq np cs
    else if c = '\x22' then checkCmd sq (if sq then dq else !dq) np cs
    else if c = '(' ∧ np ≠ 0 then checkCmd sq dq (np + 1) cs
    else if c = ')' ∧ np ≠ 0 then checkCmd sq dq (np - 1) cs
    else if c ∈ ['(', ')', '\n', '|', '&', ';', '<', '>', '\x7b', '\x7d'] then
      if sq ∨ dq ∨ np ≠ 0 then checkCmd sq dq np cs else some .badChar
    else if c = '$' ∧ !sq then
      match cs with
      | '(' :: '(' :: cs => checkCmd sq dq (np + 2) cs
      | '(' :: _ => some .cmdSub
      | cs => checkCmd sq dq np cs
    else if c = '\x60' ∧ !sq then some .cmdSub
    else checkCmd sq dq np cs

/-- `wv[i] = x` -/
def store (wv : Option (List (Slot ω))) (i : ℕ) (x : Slot ω) : Except Overrun (Option (List (Slot ω))) :=
  if i < (wv.getD []).length then .ok (some ((wv.getD []).set i x)) else .error ⟨i, (wv.getD []).length⟩

/-- `realloc(wv, n*sizeof(char *))` -/
def resize (wv : Option (List (Slot ω))) (n : ℕ) : List (Slot ω) :=
  (wv.getD []).take n ++ List.replicate (n - (wv.getD []).length) .junk

/-- What is left when the loop ends: the index, the vector, the allocations to come, and whether it
ran out of memory. -/
structure Filled (ω : Type) where
  i : ℕ
  wv : Option (List (Slot ω))
  allocs : List Bool
  short : Bool

/-- `while ((w = getword(f)))` -/
def wordLoop (i l : ℕ) (wv : Option (List (Slot ω))) (allocs : List Bool) :
    List ω → Except Overrun (Filled ω)
  | [] => .ok ⟨i, wv, allocs, false⟩
  | w :: ws =>
    if l ≤ i + 1 then
      let n := l + (l / 2 + 10)
      if allocs.headD true then do
        let wv ← store (some (resize wv n)) i (.word w)
        let wv ← store wv (i + 1) .null
        wordLoop (i + 1) n wv allocs.tail ws
      else .ok ⟨i, wv, allocs.tail, true⟩
    else do
      let wv ← store wv i (.word w)
      let wv ← store wv (i + 1) .null
      wordLoop (i + 1) l wv allocs ws

/-- `for (i=we->we_offs; i; i--) we->we_wordv[i-1] = 0;` -/
def clearOffs : ℕ → Option (List (Slot ω)) → Except Overrun (Option (List (Slot ω)))
  | 0, wv => .ok wv
  | i + 1, wv => do
    let wv ← store wv i .null
    clearOffs i wv

def clearVector (offs : ℕ) : Option (List (Slot ω)) → Except Overrun (Option (List (Slot ω)))
  | none => .ok none
  | some v => clearOffs offs (some v)

/-- What `do_wordexp` does after the loop. -/
def finishWordexp (flags : WordFlags) (we : WordexpT ω) (eof : Bool) (r : Filled ω) :
    Except Overrun (WordResult × WordexpT ω) :=
  let err := if eof && !r.short then WordResult.ok else .nospace
  let wv := if r.wv.isNone && r.allocs.headD true then some (List.replicate (r.i + 1) Slot.null) else r.wv
  if flags.doOffs then do
    let wv ← clearVector we.offs wv
    .ok (err, { we with wordv := wv, wordc := r.i - we.offs })
  else .ok (err, { we with wordv := wv, wordc := r.i })

/-- `nospace:` -/
def wordNospace (flags : WordFlags) (we : WordexpT ω) : WordResult × WordexpT ω :=
  if flags.append then (.nospace, we) else (.nospace, { we with wordc := 0, wordv := none })

/-- `SIZE_MAX/sizeof(void *)/4` -/
def maxOffs : ℕ := (2 ^ 64 - 1) / 8 / 4

def readWords (sys : System ω) (flags : WordFlags) (we : WordexpT ω) (i : ℕ)
    (wv : Option (List (Slot ω))) :
    Except Overrun (WordResult × WordexpT ω) :=
  let l := if wv.isSome then i + 1 else 0
  if sys.words.isEmpty && sys.eof then .ok (.badSyntax, we)
  else do
    let r ← wordLoop i l wv sys.allocs sys.words.tail
    finishWordexp flags we sys.eof r

def doWordexp (sys : System ω) (s : List Char) (we : WordexpT ω) (flags : WordFlags) :
    Except Overrun (WordResult × WordexpT ω) :=
  let we := if flags.reuse then wordfree we else we
  match if flags.noCmd then checkCmd false false 0 s else none with
  | some err => .ok (err, we)
  | none =>
    let wc := if flags.append then we.wordc else 0
    let wv := if flags.append then we.wordv else none
    if flags.doOffs && maxOffs < we.offs then .ok (wordNospace flags we)
    else
      let we := if flags.doOffs then we else { we with offs := 0 }
      if sys.pipe && sys.fork && sys.fdopen then readWords sys flags we (wc + we.offs) wv
      else .ok (wordNospace flags we)

/-! ### The vector -/

/-- **What a vector should be**: null pointers for the offset, the words, a null pointer. -/
def Holds (we : WordexpT ω) (ws : List ω) : Prop :=
  we.wordc = ws.length ∧ ∃ rest,
    we.wordv = some (List.replicate we.offs .null ++ ws.map .word ++ .null :: rest)

lemma store_append (pre : List (Slot ω)) (x y : Slot ω) (rest : List (Slot ω)) :
    store (some (pre ++ x :: rest)) pre.length y = .ok (some (pre ++ y :: rest)) := by
  simp [store]

def storeWord (wv : Option (List (Slot ω))) (i : ℕ) (w : ω) :
    Except Overrun (Option (List (Slot ω))) := do
  let wv ← store wv i (.word w)
  store wv (i + 1) .null

lemma storeWord_eq (pre : List (Slot ω)) (x y : Slot ω) (rest : List (Slot ω)) (w : ω) :
    storeWord (some (pre ++ x :: y :: rest)) pre.length w =
    .ok (some (pre ++ .word w :: .null :: rest)) := by
  have hfirst := store_append pre x (.word w) (y :: rest)
  have hsecond := store_append (pre ++ [.word w]) y .null rest
  simp only [length_append, append_assoc] at hsecond
  simp only [storeWord, hfirst]
  exact hsecond

lemma split_two {pre v : List (Slot ω)} (hv : pre <+: v) (hlen : pre.length + 1 < v.length) :
    ∃ x y rest, v = pre ++ x :: y :: rest := by
  obtain ⟨rest, rfl⟩ := hv
  match rest with
  | [] => simp at hlen
  | [x] => simp at hlen
  | x :: y :: rest => exact ⟨x, y, rest, rfl⟩

lemma wordLoop_grow (h : l ≤ i + 1) (wv : Option (List (Slot ω)))
    (halloc : allocs.headD true = true) (w : ω) (ws :
    List ω) :
    wordLoop i l wv allocs (w :: ws) = (do
      let wv ← storeWord (some (resize wv (l + (l / 2 + 10)))) i w
      wordLoop (i + 1) (l + (l / 2 + 10)) wv allocs.tail ws) := by
  simp only [wordLoop, if_pos h, halloc, if_true, storeWord, bind_assoc]

lemma wordLoop_room (h : ¬l ≤ i + 1) (wv : Option (List (Slot ω))) (allocs : List Bool) (w : ω)
    (ws : List ω) :
    wordLoop i l wv allocs (w :: ws) = (do
      let wv ← storeWord wv i w
      wordLoop (i + 1) l wv allocs ws) := by
  simp [wordLoop, if_neg h, storeWord]

lemma resize_length (wv : Option (List (Slot ω))) (n : ℕ) : (resize wv n).length = n := by
  simp only [resize, length_append, length_take, length_replicate]
  omega

lemma resize_begins {pre v : List (Slot ω)} (h : pre <+: v) {n : ℕ} (hn : pre.length ≤ n) :
    pre <+: resize (some v) n := by
  obtain ⟨-, rfl⟩ := h
  simp only [resize, Option.getD_some]
  rw [take_append, take_of_length_le hn, append_assoc]
  exact prefix_append _ _

lemma all_true_tail (h : ∀ b ∈ allocs, b = true) :
    allocs.headD true = true ∧ ∀ b ∈ allocs.tail, b = true := by
  cases allocs with
  | nil => exact ⟨rfl, h⟩
  | cons b rest => exact ⟨h b mem_cons_self, (forall_mem_cons.1 h).2⟩

/-- **The loop.**  Once the slots before the index are there with a null pointer after them, and the
capacity is no more than what is allocated, all words are stored after each other. -/
theorem wordLoop_running (ws : List ω) (pre rest : List (Slot ω)) (hlow : pre.length + 1 ≤ l)
    (hhigh : l ≤ (pre ++ .null :: rest).length) (halloc : ∀ b ∈ allocs, b = true) :
    ∃ more left, wordLoop pre.length l (some (pre ++ .null :: rest)) allocs ws =
      .ok ⟨pre.length + ws.length, some (pre ++ ws.map .word ++ .null :: more), left, false⟩ := by
  induction ws generalizing pre rest l allocs with
  | nil => exact ⟨rest, allocs, by simp [wordLoop]⟩
  | cons w ws ih =>
    obtain ⟨hhead, htail⟩ := all_true_tail halloc
    have hbegins : pre <+: pre ++ .null :: rest := prefix_append _ _
    -- the word goes into the vector as it is, or into one that has grown
    have hstep : ∀ v m left, pre <+: v → pre.length + 1 < m → m ≤ v.length →
        wordLoop pre.length l (some (pre ++ .null :: rest)) allocs (w :: ws) =
          (do
            let wv ← storeWord (some v) pre.length w
            wordLoop (pre.length + 1) m wv left ws) → (∀ b ∈ left, b = true) →
        ∃ more left, wordLoop pre.length l (some (pre ++ .null :: rest)) allocs (w :: ws) =
          .ok ⟨pre.length + (w :: ws).length, some (pre ++ (w :: ws).map .word ++ .null :: more),
          left, false⟩ := by
      intro v m left hv hm hlen heq hleft
      obtain ⟨x, y, rest', rfl⟩ := split_two hv (by omega)
      have hlow' : (pre ++ [Slot.word w]).length + 1 ≤ m := by
        rw [length_append, length_singleton]
        omega
      have hhigh' : m ≤ ((pre ++ [Slot.word w]) ++ .null :: rest').length := by
        simp only [length_append, length_cons] at hlen ⊢
        omega
      obtain ⟨more, left', hrun⟩ := ih (pre ++ [.word w]) rest' hlow' hhigh' hleft
      refine ⟨more, left', ?_⟩
      rw [heq, storeWord_eq]
      simp only [append_assoc, length_append] at hrun
      simp only [length_cons, append_assoc]
      rw [show pre.length + (ws.length + 1) = pre.length + 1 + ws.length by omega]
      exact hrun
    by_cases hroom : l ≤ pre.length + 1
    · exact hstep _ _ _ (resize_begins hbegins (by omega)) (by omega) (resize_length _ _).ge
        (wordLoop_grow hroom _ hhead w ws) htail
    · exact hstep _ _ _ hbegins (by omega) hhigh (wordLoop_room hroom _ _ w ws) halloc

/-- **A vector that is new** has ten slots after the first word: an index up to eight fits. -/
theorem wordLoop_fresh (hi : i ≤ 8) (w : ω) (ws : List ω) (halloc : ∀ b ∈ allocs, b = true) :
    ∃ more left, wordLoop i 0 none allocs (w :: ws) =
      .ok ⟨i + (ws.length + 1), some (replicate i .junk ++ (w :: ws).map .word ++ .null :: more),
        left, false⟩ := by
  obtain ⟨hhead, htail⟩ := all_true_tail halloc
  obtain ⟨k, hk⟩ := Nat.exists_eq_add_of_le hi
  have hnew : resize (none : Option (List (Slot ω))) 10 =
      replicate i .junk ++ .junk :: .junk :: replicate k .junk := by
    simp only [resize, Option.getD_none, take_nil, length_nil, nil_append]
    rw [← replicate_succ, ← replicate_succ, ← replicate_add]
    congr 1
    omega
  have hstore := storeWord_eq (replicate i .junk) .junk .junk (replicate k .junk) w
  rw [length_replicate] at hstore
  obtain ⟨more, left, hrun⟩ := wordLoop_running ws (replicate i .junk ++ [.word w])
    (replicate k .junk) (l := 10) (by simp; omega) (by simp; omega) htail
  refine ⟨more, left, ?_⟩
  rw [wordLoop_grow (zero_le _) _ hhead, hnew, hstore]
  simp only [append_assoc, length_append, length_replicate] at hrun
  simp only [append_assoc]
  rw [show i + (ws.length + 1) = i + 1 + ws.length by omega]
  exact hrun

lemma wordLoop_overrun (hi : 8 < i) (w : ω) (ws : List ω) (halloc : ∀ b ∈ allocs, b = true) :
    ∃ e, wordLoop i 0 none allocs (w :: ws) = .error e := by
  obtain ⟨hhead, -⟩ := all_true_tail halloc
  have hlen : (resize (none : Option (List (Slot ω))) 10).length = 10 := resize_length _ _
  rw [wordLoop_grow (zero_le _) _ hhead]
  by_cases hten : i < 10
  · have hfirst : store (some (resize none 10)) i (Slot.word w) =
        .ok (some ((resize none 10).set i (.word w))) := by
      simp [store, hlen, if_pos hten]
    have hsecond : store (some ((resize none 10).set i (Slot.word w))) (i + 1) .null =
        .error ⟨i + 1, 10⟩ := by
      simp only [store, Option.getD_some, length_set, hlen]
      rw [if_neg (by omega)]
    refine ⟨⟨i + 1, 10⟩, ?_⟩
    simp only [storeWord, hfirst]
    simp [bind, Except.bind, hsecond]
  · have hfirst : store (some (resize none 10)) i (Slot.word w) = .error ⟨i, 10⟩ := by
      simp [store, hlen, if_neg hten]
    refine ⟨⟨i, 10⟩, ?_⟩
    simp only [storeWord, hfirst]
    rfl

/-! ### The offset -/

lemma clearOffs_eq (slots tail : List (Slot ω)) :
    clearOffs slots.length (some (slots ++ tail)) =
    .ok (some (replicate slots.length .null ++ tail)) := by
  induction slots using reverseRecOn generalizing tail with
  | nil => rfl
  | append_singleton slots x ih =>
    have hstore := store_append slots x .null tail
    rw [length_append, length_singleton, append_assoc, singleton_append, clearOffs, hstore]
    exact (ih (.null :: tail)).trans (by rw [replicate_succ', append_assoc, singleton_append])

def callOffs (flags : WordFlags) (we : WordexpT ω) : ℕ := if flags.doOffs then we.offs else 0

lemma finishWordexp_eq {flags : WordFlags} {we : WordexpT ω} (hoffs : callOffs flags we = we.offs)
    (eof : Bool)
    {slots : List (Slot ω)} (hslots : slots.length = we.offs) (tail : List (Slot ω)) (n : ℕ)
    (allocs : List Bool) :
    finishWordexp flags we eof ⟨we.offs + n, some (slots ++ tail), allocs, false⟩ =
      .ok (if eof then .ok else .nospace,
        { we with wordv := some (replicate we.offs .null ++ tail), wordc := n }) := by
  have hclear := clearOffs_eq slots tail
  rw [hslots] at hclear
  cases hdo : flags.doOffs with
  | true =>
    simp only [finishWordexp, hdo, clearVector, Option.isNone_some, Bool.false_and, false_eq_true,
      if_false, hclear, Nat.add_sub_cancel_left, Bool.not_false, Bool.and_true]
    rfl
  | false =>
    have hzero : we.offs = 0 := by
      rw [← hoffs, callOffs, hdo]
      rfl
    rw [hzero] at hslots
    rw [length_eq_zero_iff.1 hslots]
    simp [finishWordexp, hdo, hzero]

/-- `if (!wv) wv = calloc(i+1, sizeof *wv);` -/
lemma finishWordexp_calloc (flags : WordFlags) (we : WordexpT ω) (eof : Bool) (i : ℕ)
    (halloc : allocs.headD true =
    true) : finishWordexp flags we eof ⟨i, none, allocs, false⟩ =
      finishWordexp flags we eof ⟨i, some (replicate (i + 1) .null), allocs, false⟩ := by
  simp only [finishWordexp, Option.isNone_none, Option.isNone_some, halloc, Bool.true_and, if_true,
    Bool.false_and,
    false_eq_true, if_false]

/-- **What a call should do**: stay within the vector, and leave the old words and the new ones if
it succeeds. -/
def WordexpOk (r : Except Overrun (WordResult × WordexpT ω)) (offs : ℕ) (ws : List ω) : Prop :=
  ∃ err we, r = .ok (err, we) ∧ (err = .ok → we.offs = offs ∧ Holds we ws)

section

variable {sys : System ω} (halloc : ∀ b ∈ sys.allocs, b = true) {flags : WordFlags} {we : WordexpT ω}
  (hoffs : callOffs flags we = we.offs)

include halloc hoffs

lemma readWords_append (old : List ω) (rest : List (Slot ω)) :
    WordexpOk (readWords sys flags we (old.length + we.offs)
      (some (replicate we.offs .null ++ old.map .word ++ .null :: rest))) we.offs
      (old ++ sys.words.tail) := by
  simp only [readWords, Option.isSome_some, if_true]
  by_cases hnone : (sys.words.isEmpty && sys.eof) = true
  · rw [if_pos hnone]
    exact ⟨.badSyntax, we, rfl, fun h => by cases h⟩
  · rw [if_neg hnone]
    obtain ⟨more, left, hrun⟩ :=
      wordLoop_running sys.words.tail (replicate we.offs .null ++ old.map .word) rest
      (l := old.length + we.offs + 1) (by simp; omega) (by simp; omega) halloc
    have hindex : (replicate we.offs Slot.null ++ old.map Slot.word).length = old.length + we.offs := by
      simp [add_comm]
    rw [hindex] at hrun
    have hfinish := finishWordexp_eq hoffs sys.eof (length_replicate (a := Slot.null))
      (old.map .word ++ sys.words.tail.map .word ++ .null :: more)
        (old.length + sys.words.tail.length) left
    rw [show we.offs + (old.length + sys.words.tail.length) =
      old.length + we.offs + sys.words.tail.length by omega,
      ← append_assoc, ← append_assoc] at hfinish
    rw [hrun]
    refine ⟨_, _, hfinish, fun _ => ⟨rfl, ?_, more, ?_⟩⟩
    · simp
    · simp

lemma readWords_new :
    WordexpOk (readWords sys flags we we.offs none) we.offs sys.words.tail ↔ sys.words.tail = [] ∨
    we.offs ≤ 8 := by
  obtain ⟨hhead, -⟩ := all_true_tail halloc
  simp only [readWords, Option.isSome_none, false_eq_true, if_false]
  by_cases hnone : (sys.words.isEmpty && sys.eof) = true
  · rw [if_pos hnone]
    have hempty : sys.words.tail = [] := by
      rw [and_eq_true, List.isEmpty_iff] at hnone
      rw [hnone.1, tail_nil]
    exact iff_of_true ⟨.badSyntax, we, rfl, fun h => by cases h⟩ (.inl hempty)
  · rw [if_neg hnone]
    cases hwords : sys.words.tail with
    | nil =>
      have hfinish := finishWordexp_eq hoffs sys.eof (length_replicate (a := Slot.null))
        [.null] 0 sys.allocs
      rw [← replicate_succ', add_zero, ← finishWordexp_calloc flags we sys.eof we.offs hhead] at hfinish
      exact iff_of_true ⟨_, _, hfinish, fun _ => ⟨rfl, rfl, [], by simp [replicate_succ']⟩⟩ (.inl rfl)
    | cons w ws =>
      by_cases hfits : we.offs ≤ 8
      · obtain ⟨more, left, hrun⟩ := wordLoop_fresh hfits w ws halloc
        have hfinish := finishWordexp_eq hoffs sys.eof (length_replicate (a := Slot.junk))
          ((w :: ws).map .word ++ .null :: more) (ws.length + 1) left
        rw [← append_assoc] at hfinish
        rw [hrun]
        exact iff_of_true ⟨_, _, hfinish, fun _ => ⟨rfl, rfl, more, by simp⟩⟩ (.inr hfits)
      · obtain ⟨e, hrun⟩ := wordLoop_overrun (Nat.lt_of_not_le hfits) w ws halloc
        rw [hrun]
        refine iff_of_false ?_ ?_
        · rintro ⟨err, we', hok, -⟩
          cases hok
        · rintro (hnil | hle)
          · cases hnil
          · exact hfits hle

end

/-- **A valid `wordexp_t`** for a call with these flags, with the words `old` that are to be kept.
To be added to, it has no vector or one that holds its words after the offset of the call; to be
freed, it has no vector or any. -/
def ValidWe (flags : WordFlags) (we : WordexpT ω) (old : List ω) : Prop :=
  if flags.reuse then (we.wordv = none → we.wordc = 0) ∧ old = []
  else if flags.append then
    (we.wordv = none ∧ we.wordc = 0 ∧ old = []) ∨ (Holds we old ∧ callOffs flags we = we.offs)
  else old = []

/-- The call runs a shell: the string may be expanded, the offset is not too large, and there is a
pipe and a process. -/
def RunsShell (sys : System ω) (s : List Char) (we : WordexpT ω) (flags : WordFlags) : Prop :=
  (if flags.noCmd then checkCmd false false 0 s else none) = none ∧
    (flags.doOffs && maxOffs < we.offs) = false ∧
    (sys.pipe && sys.fork && sys.fdopen) = true

def AddsTo (we : WordexpT ω) (flags : WordFlags) : Prop :=
  flags.append = true ∧ flags.reuse = false ∧ we.wordv ≠ none

lemma ValidWe.start {flags : WordFlags} {we : WordexpT ω} {old : List ω} (h : ValidWe flags we old) :
    let we1 := if flags.reuse then wordfree we else we
    let wc := if flags.append then we1.wordc else 0
    let wv := if flags.append then we1.wordv else none
    we1.offs = we.offs ∧
    ((¬AddsTo we flags ∧ wc = 0 ∧ wv = none ∧ old = []) ∨
      (AddsTo we flags ∧ wc = old.length ∧ callOffs flags we = we.offs ∧
        ∃ rest, wv = some (replicate we.offs .null ++ old.map .word ++ .null :: rest))) := by
  intro we1 wc wv
  unfold ValidWe at h
  cases hreuse : flags.reuse with
  | true =>
    rw [hreuse] at h
    have hnot : ¬AddsTo we flags := fun hadds => by rw [hadds.2.1] at hreuse; cases hreuse
    have hfree : we1.wordv = none ∧ we1.wordc = 0 ∧ we1.offs = we.offs := by
      simp only [we1, hreuse, wordfree]
      cases hv : we.wordv with
      | none => exact ⟨hv, h.1 hv, rfl⟩
      | some v => exact ⟨rfl, rfl, rfl⟩
    refine ⟨hfree.2.2, .inl ⟨hnot, ?_, ?_, h.2⟩⟩
    · simp only [wc, hfree.2.1, ite_self]
    · simp only [wv, hfree.1, ite_self]
  | false =>
    rw [hreuse] at h
    have hwe : we1 = we := by simp only [we1, hreuse, false_eq_true, if_false]
    refine ⟨by rw [hwe], ?_⟩
    cases happend : flags.append with
    | false =>
      rw [happend] at h
      have hnot : ¬AddsTo we flags := fun hadds => by rw [hadds.1] at happend; cases happend
      exact .inl ⟨hnot, by simp [wc, happend], by simp [wv, happend], h⟩
    | true =>
      rw [happend] at h
      rcases h with ⟨hnone, hzero, hold⟩ | ⟨⟨hcount, rest, hv⟩, hoffs⟩
      · exact .inl ⟨fun hadds =>
          hadds.2.2 hnone, by simp [wc, hwe, hzero], by simp [wv, hwe, hnone], hold⟩
      · refine .inr ⟨⟨happend, hreuse, by simp [hv]⟩, by simp [wc, hwe, happend, hcount], hoffs, rest, ?_⟩
        simp only [wv, hwe, happend, if_true, hv]

lemma checkCmd_ne_ok (sq dq : Bool) (np : ℕ) (cs : List Char) : checkCmd sq dq np cs ≠ some .ok := by
  fun_induction checkCmd sq dq np cs <;> simp_all

section

variable {sys : System ω} {s : List Char} {we : WordexpT ω} {flags : WordFlags}

lemma doWordexp_early (h : ¬RunsShell sys s we flags)
    (hoffs : (if flags.reuse then wordfree we else we).offs =
    we.offs) : ∃ err we', doWordexp sys s we flags = .ok (err, we') ∧ err ≠ .ok := by
  have hnospace : ∀ we2 : WordexpT ω, (wordNospace flags we2).1 ≠ .ok := by
    intro we2
    unfold wordNospace
    split
    · exact WordResult.noConfusion
    · exact WordResult.noConfusion
  simp only [doWordexp, hoffs]
  cases hcheck : if flags.noCmd then checkCmd false false 0 s else none with
  | some err =>
    refine ⟨err, _, rfl, ?_⟩
    rintro rfl
    split at hcheck
    · exact checkCmd_ne_ok _ _ _ _ hcheck
    · cases hcheck
  | none =>
    by_cases hlimit : (flags.doOffs && decide (maxOffs < we.offs)) = true
    · rw [if_pos hlimit]
      exact ⟨_, _, rfl, hnospace _⟩
    · rw [if_neg hlimit, if_neg fun hsys => h ⟨hcheck, by simpa using hlimit, hsys⟩]
      exact ⟨_, _, rfl, hnospace _⟩

lemma doWordexp_shell (h : RunsShell sys s we flags)
    (hoffs : (if flags.reuse then wordfree we else we).offs =
    we.offs) :
    let we1 := if flags.reuse then wordfree we else we
    ∃ we2, we2.offs = callOffs flags we ∧ callOffs flags we2 = we2.offs ∧
      doWordexp sys s we flags =
      readWords sys flags we2 ((if flags.append then we1.wordc else 0) + we2.offs)
        (if flags.append then we1.wordv else none) := by
  intro we1
  obtain ⟨hcheck, hlimit, hsys⟩ := h
  refine ⟨if flags.doOffs then we1 else { we1 with offs := 0 }, ?_, ?_, ?_⟩
  · unfold callOffs
    split
    · exact hoffs
    · rfl
  · unfold callOffs
    split
    · rfl
    · rfl
  · simp only [doWordexp, hcheck, hoffs, hlimit, hsys]
    rfl

end

/-- **`wordexp` and its vector.**  For a valid `wordexp_t` and memory that does not run out, the
stores are all within the vector and the words are what they should be, if and only if no shell is
run, or it gives no word, or the call adds to a vector, or the offset is at most eight. -/
theorem doWordexp_iff {sys : System ω} (halloc : ∀ b ∈ sys.allocs, b = true) (s : List Char)
    {we : WordexpT ω} {flags : WordFlags} {old : List ω} (h : ValidWe flags we old) :
    WordexpOk (doWordexp sys s we flags) (callOffs flags we) (old ++ sys.words.tail) ↔
      (RunsShell sys s we flags → sys.words.tail = [] ∨ AddsTo we flags ∨ callOffs flags we ≤ 8) := by
  obtain ⟨hoffs, hstart⟩ := h.start
  by_cases hshell : RunsShell sys s we flags
  · obtain ⟨we2, hcall, hcall2, hrun⟩ := doWordexp_shell hshell hoffs
    rw [hrun, ← hcall]
    rcases hstart with ⟨hnot, hwc, hwv, rfl⟩ | ⟨hadds, hwc, hsame, rest, hwv⟩
    · rw [hwc, hwv, zero_add, nil_append, readWords_new halloc hcall2]
      constructor
      · rintro (hnil | hle) _
        · exact .inl hnil
        · exact .inr (.inr hle)
      · intro himp
        rcases himp hshell with hnil | hadds | hle
        · exact .inl hnil
        · exact absurd hadds hnot
        · exact .inr hle
    · rw [hwc, hwv, ← hsame, ← hcall]
      exact iff_of_true (readWords_append halloc hcall2 old rest) fun _ => .inr (.inl hadds)
  · obtain ⟨err, we', hrun, herr⟩ := doWordexp_early hshell hoffs
    exact iff_of_true ⟨err, we', hrun, fun hok => absurd hok herr⟩ fun hruns => absurd hruns hshell

/-- A shell that prints the words `a` and `b`. -/
def twoWords : System Char := ⟨true, true, true, ['x', 'a', 'b'], true, []⟩

/-- Two words fit after an offset of eight. -/
theorem doWordexp_iff_eight :
    WordexpOk (doWordexp twoWords ['a', ' ', 'b'] ⟨0, none, 8⟩ ⟨false, true, false, false⟩) 8 ['a',
      'b'] := by
  have hvalid : ValidWe ⟨false, true, false, false⟩ (⟨0, none, 8⟩ : WordexpT Char) [] := rfl
  have halloc : ∀ b ∈ twoWords.allocs, b = true := by simp [twoWords]
  exact (doWordexp_iff halloc ['a', ' ', 'b'] hvalid).2 fun _ => .inr (.inr (by decide))

/-- After an offset of nine the null pointer behind the first word is stored outside. -/
theorem doWordexp_overruns : ValidWe ⟨false, true, false, false⟩ (⟨0, none, 9⟩ : WordexpT Char) [] ∧
    (∀ b ∈ twoWords.allocs, b = true) ∧
    doWordexp twoWords ['a', ' ', 'b'] ⟨0, none, 9⟩ ⟨false, true, false, false⟩ = .error ⟨10, 10⟩ :=
  ⟨rfl, by simp [twoWords], by decide⟩

end Musl.Misc
