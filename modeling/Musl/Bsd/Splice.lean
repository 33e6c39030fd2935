import Mathlib

/-!
# The emulation of `splice` on BSD

`bsd/splice.c` moves bytes from one descriptor to another through a buffer of its own: it reads up
to 64 KiB, writes what it has read in as many calls as it takes, and starts again.  A write that
would block ends the inner loop when the caller has set `SPLICE_F_NONBLOCK`, and what was read and
not written is in nobody's hands then.

A read returns what it is given, cut to the size that was asked for; nothing is the end of the file.
A write accepts at least one byte.  `none` as a result of a loop says that it waits for the next
result of the kernel.
-/

namespace Musl.Bsd

open List Option Prod

/-- The errors that the loops look at; `EWOULDBLOCK` is `EAGAIN`. -/
inductive Errno
  | eintr
  | eagain
  | other
deriving DecidableEq

/-- The result of `read` or `pread`. -/
inductive ReadResult
  | got (bytes : List UInt8)
  | failed (e : Errno)

/-- The result of `write`, `send` or `pwrite`: `took k` is `k + 1` bytes, or all of them if there
are fewer. -/
inductive WriteResult
  | took (k : ℕ)
  | failed (e : Errno)

/-- The arguments: which descriptors are pipes, `*off_in` and `*off_out` where they are given, which
is for descriptors that are not pipes only, `len` and `flags`. -/
structure Args where
  inPipe : Bool
  outPipe : Bool
  offIn : Option ℤ
  offOut : Option ℤ
  len : ℕ
  flags : UInt32
  len_lt : len < 2 ^ 63
  offIn_none : inPipe = true → offIn = none
  offOut_none : outPipe = true → offOut = none

/-- `flags & SPLICE_F_NONBLOCK`. -/
def Args.nonblock (a : Args) : Prop := a.flags &&& 2 ≠ 0

instance (a : Args) : Decidable a.nonblock := inferInstanceAs (Decidable (_ ≠ _))

def Args.bothPipes (a : Args) : Prop := a.inPipe = true ∧ a.outPipe = true

instance (a : Args) : Decidable a.bothPipes := inferInstanceAs (Decidable (_ ∧ _))

/-- The offsets, and the bytes of each successful call with the offset it was given. -/
structure Transfer where
  offIn : Option ℤ
  offOut : Option ℤ
  reads : List (Option ℤ × List UInt8)
  writes : List (Option ℤ × List UInt8)
deriving DecidableEq

/-- How the inner loop ends: everything is written, a write would block, or one failed. -/
inductive WriteEnd
  | done
  | blocked
  | failed
deriving DecidableEq

/-- `while (written < n)`, with the bytes that are not written yet.  Between two pipes the offsets
are not used. -/
def writeLoop (a : Args) :
    List UInt8 → Transfer → List WriteResult → Option (WriteEnd × Transfer × List WriteResult)
  | [], s, ws => some (.done, s, ws)
  | _ :: _, _, [] => none
  | b :: bs, s, .took k :: ws =>
    let m := min (k + 1) (b :: bs).length
    let off := if a.bothPipes then none else s.offOut
    writeLoop a ((b :: bs).drop m)
      { s with
        offOut := if a.bothPipes then s.offOut else s.offOut.map (· + m)
        writes := s.writes ++ [(off, (b :: bs).take m)] } ws
  | b :: bs, s, .failed e :: ws =>
    if a.nonblock ∧ e = .eagain then some (.blocked, s, ws)
    else if e = .eintr then writeLoop a (b :: bs) s ws
    else some (.failed, s, ws)

def bufSize : ℕ := 65536

/-- `while (total < (ssize_t)len)`: what `splice` returns. -/
def readLoop (a : Args) : List ReadResult → ℕ → Transfer → List WriteResult → Option (ℤ × Transfer)
  | [], total, s, _ => if a.len ≤ total then some (total, s) else none
  | .failed e :: rs, total, s, ws =>
    if a.len ≤ total then some (total, s)
    else if a.bothPipes then some (total, s)
    else if e = .eintr then readLoop a rs total s ws
    else if a.nonblock ∧ e = .eagain then some (total, s)
    else some (-1, s)
  | .got bytes :: rs, total, s, ws =>
    if a.len ≤ total then some (total, s)
    else
      let data := bytes.take (if a.len - total < bufSize then a.len - total else bufSize)
      if data = [] then some (total, s)
      else
        let off := if a.bothPipes then none else s.offIn
        match writeLoop a data { s with reads := s.reads ++ [(off, data)] } ws with
        | none => none
        | some (.failed, s, _) => some (-1, s)
        | some (_, s, ws) =>
          readLoop a rs (total + data.length)
            { s with offIn := if a.bothPipes then s.offIn else s.offIn.map (· + data.length) } ws

/-- `splice`, with the results of the reads and of the writes. -/
def splice (a : Args) (rs : List ReadResult) (ws : List WriteResult) : Option (ℤ × Transfer) :=
  readLoop a rs 0 ⟨a.offIn, a.offOut, [], []⟩ ws

/-! ### Conservation -/

def bytesOf (calls : List (Option ℤ × List UInt8)) : List UInt8 := calls.flatMap Prod.snd

def Consecutive (off : Option ℤ) : List (Option ℤ × List UInt8) → Prop
  | [] => True
  | c :: calls => c.1 = off ∧ Consecutive (off.map (· + c.2.length)) calls

/-- `total` bytes were read, the same bytes in the same order were written, and the offsets have
moved by `total`. -/
structure Conserved (a : Args) (total : ℤ) (s : Transfer) : Prop where
  count : ((bytesOf s.reads).length : ℤ) = total
  same : bytesOf s.writes = bytesOf s.reads
  offIn : s.offIn = a.offIn.map (· + total)
  offOut : s.offOut = a.offOut.map (· + total)
  readsAt : Consecutive a.offIn s.reads
  writesAt : Consecutive a.offOut s.writes

lemma bytesOf_snoc (cs : List (Option ℤ × List UInt8)) (off : Option ℤ) (bs : List UInt8) :
    bytesOf (cs ++ [(off, bs)]) = bytesOf cs ++ bs := by
  simp [bytesOf]

lemma Consecutive.snoc {off : Option ℤ} {cs : List (Option ℤ × List UInt8)} (h : Consecutive off cs)
    (bs : List UInt8) : Consecutive off (cs ++ [(off.map (· + ((bytesOf cs).length : ℤ)), bs)]) := by
  induction cs generalizing off with
  | nil => simp [Consecutive, bytesOf]
  | cons c cs ih =>
    obtain ⟨hc, hcs⟩ := h
    refine ⟨hc, ?_⟩
    have := ih hcs
    have hlen : ((bytesOf (c :: cs)).length : ℤ) = c.2.length + (bytesOf cs).length := by
      simp [bytesOf]
    rw [hlen]
    convert this using 5
    simp

variable {a : Args}

lemma Args.offIn_of_pipes (h : a.bothPipes) : a.offIn = none := a.offIn_none h.1

lemma Args.offOut_of_pipes (h : a.bothPipes) : a.offOut = none := a.offOut_none h.2

/-- What holds while `buf` is not written: the rest is conserved on the side of the writes. -/
structure Pending (a : Args) (buf : List UInt8) (s : Transfer) : Prop where
  same : bytesOf s.writes ++ buf = bytesOf s.reads
  offOut : s.offOut = a.offOut.map (· + ((bytesOf s.writes).length : ℤ))
  writesAt : Consecutive a.offOut s.writes

lemma Pending.took {buf : List UInt8} {s : Transfer} (h : Pending a buf s) {m : ℕ} (hm : m ≤ buf.length) :
    Pending a (buf.drop m) { s with
      offOut := if a.bothPipes then s.offOut else s.offOut.map (· + (m : ℤ))
      writes := s.writes ++ [(if a.bothPipes then none else s.offOut, buf.take m)] } := by
  have hoff : (if a.bothPipes then s.offOut else s.offOut.map (· + m)) = s.offOut.map (· + (m : ℤ)) := by
    split
    · rw [h.offOut, Args.offOut_of_pipes ‹_›]
      rfl
    · rfl
  have hat : (if a.bothPipes then none else s.offOut) = s.offOut := by
    split
    · rw [h.offOut, Args.offOut_of_pipes ‹_›]
      rfl
    · rfl
  rw [hoff, hat]
  constructor
  · rw [bytesOf_snoc, append_assoc, take_append_drop]
    exact h.same
  · rw [bytesOf_snoc, length_append, length_take, min_eq_left hm, h.offOut, Option.map_map]
    push_cast
    congr 1
    funext x
    exact add_assoc _ _ _
  · rw [h.offOut]
    exact h.writesAt.snoc _

/-- **The inner loop**, where no write gives up: it ends with everything written, or fails. -/
theorem writeLoop_conserves (hn : ¬a.nonblock) : ∀ (ws : List WriteResult) (buf : List UInt8)
    {s : Transfer},
    Pending a buf s → ∀ {e s' ws'}, writeLoop a buf s ws = some (e, s', ws') →
    e = .failed ∨ (e = .done ∧ Pending a [] s' ∧ s'.reads = s.reads ∧ s'.offIn = s.offIn) := by
  intro ws
  induction ws with
  | nil =>
    intro buf s h e s' ws' hrun
    cases buf with
    | nil =>
      obtain ⟨rfl, rfl, rfl⟩ := hrun
      exact .inr ⟨rfl, h, rfl, rfl⟩
    | cons b bs => simp [writeLoop] at hrun
  | cons w ws ih =>
    intro buf s h e s' ws' hrun
    cases buf with
    | nil =>
      obtain ⟨rfl, rfl, rfl⟩ := hrun
      exact .inr ⟨rfl, h, rfl, rfl⟩
    | cons b bs =>
      cases w with
      | took k =>
        exact ih _ (h.took (min_le_right _ _)) hrun
      | failed err =>
        rw [writeLoop, if_neg fun hc => hn hc.1] at hrun
        by_cases hintr : err = .eintr
        · rw [if_pos hintr] at hrun
          exact ih _ h hrun
        · rw [if_neg hintr] at hrun
          simp only [some.injEq, mk.injEq] at hrun
          exact .inl hrun.1.symm

lemma Conserved.next {total : ℕ} {s s1 : Transfer} (h : Conserved a total s) (data : List UInt8)
    (hdone : Pending a [] s1)
    (hreads : s1.reads = s.reads ++ [(s.offIn, data)]) (hoffIn : s1.offIn = s.offIn) :
    Conserved a ↑(total + data.length)
      { s1 with offIn := if a.bothPipes then s1.offIn else s1.offIn.map (· + (data.length : ℤ)) } := by
  have hsame : bytesOf s1.writes = bytesOf s1.reads := by
    rw [← hdone.same, append_nil]
  have hcount : ((bytesOf s1.reads).length : ℤ) = ↑(total + data.length) := by
    rw [hreads, bytesOf_snoc, length_append]
    push_cast
    rw [h.count]
  refine ⟨hcount, hsame, ?_, ?_, ?_, hdone.writesAt⟩
  · have hmap : (s1.offIn.map (· + (data.length : ℤ))) =
        a.offIn.map (· + ((total + data.length : ℕ) : ℤ)) := by
      rw [hoffIn, h.offIn, Option.map_map]
      congr 1
      funext x
      exact add_assoc _ _ _
    split
    · rw [hoffIn, h.offIn, Args.offIn_of_pipes ‹_›]
      rfl
    · exact hmap
  · rw [hdone.offOut, hsame, hcount]
  · rw [hreads, h.offIn, ← h.count]
    exact h.readsAt.snoc data

/-- **The outer loop**, where no write gives up. -/
theorem readLoop_conserves (hn : ¬a.nonblock) : ∀ (rs : List ReadResult) {total : ℕ} {s : Transfer}
    (ws : List WriteResult),
    Conserved a total s → ∀ {r s'}, readLoop a rs total s ws = some (r, s') → r = -1 ∨
    Conserved a r s' := by
  intro rs
  induction rs with
  | nil =>
    intro total s ws h r s' hrun
    rw [readLoop] at hrun
    by_cases hlen : a.len ≤ total
    · rw [if_pos hlen] at hrun
      obtain ⟨rfl, rfl⟩ := hrun
      exact .inr h
    · rw [if_neg hlen] at hrun
      exact absurd hrun.symm (some_ne_none _)
  | cons res rs ih =>
    intro total s ws h r s' hrun
    have hstop : ∀ {r s'}, some ((total : ℤ), s) = some (r, s') → r = -1 ∨ Conserved a r s' := by
      intro r s' heq
      obtain ⟨rfl, rfl⟩ := heq
      exact .inr h
    cases res with
    | failed e =>
      rw [readLoop] at hrun
      split at hrun
      · exact hstop hrun
      split at hrun
      · exact hstop hrun
      split at hrun
      · exact ih ws h hrun
      split at hrun
      · exact hstop hrun
      · simp only [some.injEq, mk.injEq] at hrun
        exact .inl hrun.1.symm
    | got bytes =>
      rw [readLoop] at hrun
      split at hrun
      · exact hstop hrun
      dsimp only at hrun
      generalize bytes.take _ = data at hrun
      split at hrun
      · exact hstop hrun
      have hat : (if a.bothPipes then none else s.offIn) = s.offIn := by
        split
        · rw [h.offIn, Args.offIn_of_pipes ‹_›]
          rfl
        · rfl
      rw [hat] at hrun
      have hpending : Pending a data { s with reads := s.reads ++ [(s.offIn, data)] } := by
        refine ⟨?_, ?_, h.writesAt⟩
        · rw [bytesOf_snoc, h.same]
        · rw [h.same, h.count]
          exact h.offOut
      cases hloop : writeLoop a data { s with reads := s.reads ++ [(s.offIn, data)] } ws with
      | none =>
        rw [hloop] at hrun
        exact absurd hrun.symm (some_ne_none _)
      | some out =>
        obtain ⟨e, s1, ws1⟩ := out
        rw [hloop] at hrun
        rcases writeLoop_conserves hn ws data hpending hloop with rfl | ⟨rfl, hdone, hreads, hoffIn⟩
        · simp only [some.injEq, mk.injEq] at hrun
          exact .inl hrun.1.symm
        · exact ih ws1 (h.next data hdone hreads hoffIn) hrun

lemma Conserved.start (a : Args) : Conserved a 0 ⟨a.offIn, a.offOut, [], []⟩ := by
  refine ⟨rfl, rfl, ?_, ?_, trivial, trivial⟩
  · simp
  · simp

lemma splice_blocked (hn : a.nonblock) (hlen : a.len ≠ 0) :
    ∃ s, splice a [.got [0], .got []] [.failed .eagain] = some (1, s) ∧ bytesOf s.writes = [] := by
  have hpos : ¬a.len ≤ 0 := by omega
  have htake : [(0 : UInt8)].take (if a.len - 0 < bufSize then a.len - 0 else bufSize) = [0] := by
    apply take_of_length_le
    rw [length_singleton]
    split
    · omega
    · decide
  have hwrite : ∀ s ws, writeLoop a [0] s (.failed .eagain :: ws) = some (.blocked, s, ws) := by
    intro s ws
    rw [writeLoop, if_pos ⟨hn, rfl⟩]
  have hrest : ∀ s ws, readLoop a [.got []] 1 s ws = some (1, s) := by
    intro s ws
    rw [readLoop]
    split
    · rfl
    · rw [take_nil]
      rfl
  rw [splice, readLoop, if_neg hpos, htake]
  dsimp only
  rw [hwrite]
  exact ⟨_, hrest _ _, rfl⟩

/-- **`splice` loses no byte**, whatever the kernel returns, if and only if `SPLICE_F_NONBLOCK` is
not set or there is nothing to move. -/
theorem splice_conserves_iff (a : Args) :
    (∀ rs ws r s, splice a rs ws = some (r, s) → 0 ≤ r → Conserved a r s) ↔ ¬a.nonblock ∨ a.len = 0 := by
  constructor
  · intro h
    by_contra hno
    obtain ⟨hn, hlen⟩ := not_or.1 hno
    obtain ⟨s, hrun, hnone⟩ := splice_blocked (not_not.1 hn) hlen
    have hcons := h _ _ 1 s hrun (by decide)
    have hcount := hcons.count
    rw [← hcons.same, hnone] at hcount
    exact absurd hcount (by decide)
  · rintro (hn | hlen) rs ws r s hrun hr
    · rcases readLoop_conserves hn rs ws (Conserved.start a) hrun with rfl | h
      · exact absurd hr (by decide)
      · exact h
    · have hzero : some (0, (⟨a.offIn, a.offOut, [], []⟩ : Transfer)) = some (r, s) := by
        rw [← hrun, splice]
        cases rs with
        | nil => rw [readLoop, if_pos hlen.le]; rfl
        | cons res rs =>
          cases res with
          | failed e => rw [readLoop, if_pos hlen.le]; rfl
          | got bytes => rw [readLoop, if_pos hlen.le]; rfl
      obtain ⟨rfl, rfl⟩ : 0 = r ∧ (⟨a.offIn, a.offOut, [], []⟩ : Transfer) = s := by simpa using hzero
      exact Conserved.start a

/-- From a pipe to a socket, without `SPLICE_F_NONBLOCK`. -/
def pipeToSocket : Args :=
  ⟨true, false, none, none, 5, 0, by decide, fun _ => rfl, fun h => absurd h (by decide)⟩

/-- Nothing is lost from the pipe to the socket; here the five bytes go in two writes. -/
theorem splice_conserves_pipeToSocket :
    (¬pipeToSocket.nonblock ∨ pipeToSocket.len = 0) ∧
      (∀ rs ws r s, splice pipeToSocket rs ws = some (r, s) → 0 ≤ r → Conserved pipeToSocket r s) ∧
      splice pipeToSocket [.got [104, 101, 108, 108, 111]] [.took 2, .failed .eintr, .took 7] =
        some (5, ⟨none, none, [(none, [104, 101, 108, 108, 111])],
          [(none, [104, 101, 108]), (none, [108, 111])]⟩) :=
  ⟨.inl (by decide), (splice_conserves_iff pipeToSocket).2 (.inl (by decide)), by decide +kernel⟩

/-- From a pipe to a pipe, with `SPLICE_F_NONBLOCK`. -/
def pipeToPipe : Args := ⟨true, true, none, none, 5, 2, by decide, fun _ => rfl, fun _ => rfl⟩

/-- **The pipe is full**: five bytes are read, none is written, and 5 is returned. -/
theorem splice_loses_bytes :
    splice pipeToPipe [.got [104, 101, 108, 108, 111]] [.failed .eagain] =
        some (5, ⟨none, none, [(none, [104, 101, 108, 108, 111])], []⟩) ∧
      ¬Conserved pipeToPipe 5 ⟨none, none, [(none, [104, 101, 108, 108, 111])], []⟩ :=
  ⟨by decide +kernel, fun h => absurd h.same (by decide)⟩

end Musl.Bsd
