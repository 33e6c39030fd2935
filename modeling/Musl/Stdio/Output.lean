import Musl.Stdio.RegularFile

/-!
# Output that may fail

`__stdio_write` gives the pending bytes and those of the caller to `writev` as two vectors.  The
kernel takes some of them, and the vectors are advanced; or there is an error, and what is left is
lost.
-/

namespace Musl.Stdio.Output

open List Option Nat

/-! ### The code -/

/-- The other end of the descriptor: the bytes that were handed over, whether there was an error,
and what `writev` will do: take one byte more than the number, or fail. -/
structure Sink where
  handed : List UInt8
  failed : Bool
  calls : ℕ → Option ℕ

/-- `writev`; `none` is an error. -/
def Sink.writev (iov : List (List UInt8)) (k : Sink) : Option ℕ × Sink :=
  let calls := fun i => k.calls (i + 1)
  match k.calls 0 with
  | none => (none, { k with failed := true, calls })
  | some c =>
    let cnt := min (c + 1) iov.flatten.length
    (some cnt, { k with handed := k.handed ++ iov.flatten.take cnt, calls })

/-- The loop of `__stdio_write`, with what is left of `iov` when there is an error. -/
def writevLoop : ℕ → List (List UInt8) → ℕ → Sink → Option (List (List UInt8)) × Sink
  | 0, _, _, k => (none, k)
  | fuel + 1, iov, rem, k =>
    let r := k.writev iov
    match r.1 with
    | none => (some iov, r.2)
    | some cnt => if cnt = rem then (none, r.2) else writevLoop fuel (advance iov cnt) (rem - cnt) r.2

def stdioWrite (s : List UInt8) (f : File Sink) : ℕ × File Sink :=
  let iov := if f.pending = [] then [s] else [f.pending, s]
  let rem := f.pending.length + s.length
  let r := writevLoop (rem + 1) iov rem f.cookie
  match r.1 with
  | none => (s.length, { f with cookie := r.2, wbuf := some [] })
  | some iov =>
    (if iov.length = 2 then 0 else s.length - (iov.headD []).length,
      { f with cookie := r.2, wbuf := none, err := true })

inductive Put where
  | fwrite (w : Items)
  | fputc (c : UInt8)

def Put.bytes : Put → List UInt8
  | .fwrite w => w.bytes
  | .fputc c => [c]

def opened (noRead append lineBuf : Bool) (bufSize : ℕ) (calls : ℕ → Option ℕ) : File Sink :=
  ⟨noRead, false, false, false, append, none, none, bufSize, lineBuf, ⟨[], false, calls⟩⟩

section Calls

variable (o : Ops Sink)

/-- The hooks of a stream: any, but for the one that writes. -/
def ops : Ops Sink := { o with write := stdioWrite }

def Put.exec (f : File Sink) : Put → File Sink
  | .fwrite w => (Stdio.fwrite (ops o) w f).2
  | .fputc c => (Stdio.fputc (ops o) c f).2

/-- The stream after a sequence of calls, or after the one with the first error. -/
def run : List Put → File Sink → File Sink
  | [], f => f
  | p :: ps, f => if (p.exec o f).cookie.failed then p.exec o f else run ps (p.exec o f)

/-- The same with `fflush` at the end. -/
def runFlush (ps : List Put) (f : File Sink) : File Sink :=
  let g := run o ps f
  if g.cookie.failed then g else (fflush (ops o) g).2

end Calls

/-! ### The vectors -/

variable {p s h total : List UInt8} {iov : List (List UInt8)} {k : Sink} {f : File Sink} {m rem fuel : ℕ}

/-- The vectors for `p` and `s` after `m` bytes of them. -/
def IovAt (p s : List UInt8) (m : ℕ) (iov : List (List UInt8)) : Prop :=
  (m ≤ p.length ∧ iov = [p.drop m, s]) ∨ (p.length ≤ m ∧ iov = [s.drop (m - p.length)])

lemma IovAt.flatten (h : IovAt p s m iov) : iov.flatten = (p ++ s).drop m := by
  rcases h with ⟨hm, rfl⟩ | ⟨hm, rfl⟩
  · rw [drop_append_of_le_length hm]
    simp
  · rw [drop_append, drop_of_length_le hm]
    simp

lemma IovAt.advance {cnt : ℕ} (h : IovAt p s m iov) : IovAt p s (m + cnt) (Stdio.advance iov cnt) := by
  rcases h with ⟨hm, rfl⟩ | ⟨hm, rfl⟩
  · rw [Stdio.advance, length_drop]
    split_ifs with hlt
    · exact .inr ⟨by omega, by rw [show m + cnt - p.length = cnt - (p.length - m) by omega]⟩
    · exact .inl ⟨by omega, by rw [drop_drop]⟩
  · refine .inr ⟨by omega, ?_⟩
    rw [Stdio.advance, drop_drop, show m + cnt - p.length = m - p.length + cnt by omega]

lemma IovAt.own (h : IovAt p s m iov) (hm : m < (p ++ s).length) :
    (if iov.length = 2 then 0 else s.length - (iov.headD []).length) = m - p.length := by
  rw [length_append] at hm
  rcases h with ⟨hle, rfl⟩ | ⟨-, rfl⟩
  · rw [if_pos (show [p.drop m, s].length = 2 from rfl)]
    omega
  · rw [if_neg (by simp), headD_cons, length_drop]
    omega

/-- The answers of `writev` that are left when some were used. -/
def Later (calls calls' : ℕ → Option ℕ) : Prop := ∃ n, calls' = fun i => calls (i + n)

lemma Later.trans {calls calls' calls'' : ℕ → Option ℕ} (h : Later calls calls')
    (h' : Later calls' calls'') :
    Later calls calls'' := by
  obtain ⟨n, rfl⟩ := h
  obtain ⟨n', rfl⟩ := h'
  exact ⟨n' + n, by simp only [add_assoc]⟩

lemma Later.error {calls calls' : ℕ → Option ℕ} (h : Later calls calls') (herr : ∃ i, calls' i = none) :
    ∃ i, calls i = none := by
  obtain ⟨n, rfl⟩ := h
  obtain ⟨i, hi⟩ := herr
  exact ⟨i + n, hi⟩

lemma writevLoop_spec (hiov : IovAt p s m iov) (hm : m < (p ++ s).length)
    (hrem : rem = (p ++ s).length - m)
    (hfuel : rem < fuel) (hk : k.failed = false) (hh : k.handed = h ++ (p ++ s).take m) :
    ∃ e k', writevLoop fuel iov rem k = (e, k') ∧
      ((e = none ∧ k'.failed = false ∧ k'.handed = h ++ (p ++ s) ∧ Later k.calls k'.calls) ∨
        ∃ left m', e = some left ∧ IovAt p s m' left ∧ m' < (p ++ s).length ∧ k'.failed = true ∧
          k'.handed = h ++ (p ++ s).take m' ∧ ∃ i, k.calls i = none) := by
  induction fuel generalizing m iov rem k with
  | zero => exact absurd hfuel (not_lt_zero _)
  | succ fuel ih =>
    rw [writevLoop]
    cases hc : k.calls 0 with
    | none =>
      simp only [Sink.writev, hc]
      exact ⟨_, _, rfl, .inr ⟨iov, m, rfl, hiov, hm, rfl, hh, 0, hc⟩⟩
    | some c =>
      simp only [Sink.writev, hc, hiov.flatten, length_drop]
      generalize hcnt : min (c + 1) ((p ++ s).length - m) = cnt
      have htake : h ++ (p ++ s).take m ++ ((p ++ s).drop m).take cnt = h ++ (p ++ s).take (m + cnt) := by
        rw [append_assoc, take_add]
      rw [hh, htake]
      split_ifs with hall
      · refine ⟨_, _, rfl, .inl ⟨rfl, hk, ?_, 1, rfl⟩⟩
        rw [take_of_length_le (by omega)]
      · obtain ⟨e, k', hloop, hcases⟩ := ih (k := { k with
            handed := h ++ (p ++ s).take (m + cnt), calls := fun i => k.calls (i + 1) })
          hiov.advance (by omega) (show rem - cnt = _ by omega) (by omega) hk rfl
        refine ⟨e, k', hloop, ?_⟩
        rcases hcases with ⟨he, hfine, hhanded, n, hn⟩ | ⟨left, m', he, hleft, hm', hfailed,
          hhanded, i, hi⟩
        · exact .inl ⟨he, hfine, hhanded, n + 1, hn⟩
        · exact .inr ⟨left, m', he, hleft, hm', hfailed, hhanded, i + 1, hi⟩

/-! ### What is handed over and what is pending -/

/-- The bytes put so far are handed over or pending, and `writev` goes on with the rest of its answers. -/
structure Held (calls : ℕ → Option ℕ) (total : List UInt8) (f : File Sink) : Prop where
  noWrite : f.noWrite = false
  unread : f.unread = []
  fine : f.cookie.failed = false
  bytes : f.cookie.handed ++ f.pending = total
  later : Later calls f.cookie.calls

/-- There was an error after the first `m` bytes of all, which `writev` has reported. -/
def Broke (calls : ℕ → Option ℕ) (total : List UInt8) (m : ℕ) (f : File Sink) : Prop :=
  f.cookie.failed = true ∧ m < total.length ∧ f.cookie.handed = total.take m ∧ ∃ i, calls i = none

/-- What a write of `s` leads to, with the number that is returned. -/
def Wrote (calls : ℕ → Option ℕ) (total s : List UInt8) (r : ℕ × File Sink) : Prop :=
  (Held calls (total ++ s) r.2 ∧ r.2.wbuf.isSome ∧ r.1 = s.length) ∨ ∃ m,
    Broke calls (total ++ s) m r.2 ∧ r.1 = m - total.length

variable {calls : ℕ → Option ℕ}

lemma Held.store (hf : Held calls total f) (hw : f.wbuf.isSome) (s : List UInt8) :
    Held calls (total ++ s) (f.store s) ∧ (f.store s).wbuf.isSome := by
  obtain ⟨p, hp⟩ := isSome_iff_exists.1 hw
  refine ⟨⟨hf.noWrite, hf.unread, hf.fine, ?_, hf.later⟩, by simp [File.store, hp]⟩
  rw [← hf.bytes]
  simp [File.pending, File.store, hp]

/-- **The write hook.** -/
theorem stdioWrite_wrote (hf : Held calls total f) (hpos : 0 < (f.pending ++ s).length) :
    Wrote calls total s (stdioWrite s f) ∧ (stdioWrite s f).2.pending = [] ∧
    (stdioWrite s f).2.unread = [] := by
  have hstart : IovAt f.pending s 0 (if f.pending = [] then [s] else [f.pending, s]) := by
    split_ifs with hp
    · exact .inr ⟨by rw [hp]; exact le_rfl, by rw [Nat.zero_sub, drop_zero]⟩
    · exact .inl ⟨zero_le _, rfl⟩
  have hrem : f.pending.length + s.length = (f.pending ++ s).length - 0 := by
    rw [length_append, Nat.sub_zero]
  have htotal : f.cookie.handed ++ (f.pending ++ s) = total ++ s := by rw [← hf.bytes, append_assoc]
  have hlen := congrArg length hf.bytes
  rw [length_append] at hlen
  obtain ⟨e, k, hloop, hcases⟩ :=
    writevLoop_spec (h := f.cookie.handed) hstart hpos hrem (lt_succ_self _) hf.fine (by simp)
  simp only [stdioWrite, hloop]
  rcases hcases with ⟨rfl, hfine, hhanded, hlater⟩ | ⟨left, m, rfl, hleft, hm, hfailed, hhanded, herr⟩
  · refine ⟨.inl ⟨⟨hf.noWrite, hf.unread, hfine, ?_, hf.later.trans hlater⟩, rfl, rfl⟩, rfl, hf.unread⟩
    exact (append_nil _).trans (hhanded.trans htotal)
  · refine ⟨.inr ⟨f.cookie.handed.length + m, ⟨hfailed, ?_, ?_, hf.later.error herr⟩, ?_⟩, rfl, hf.unread⟩
    · rw [length_append]
      omega
    · rw [← htotal, take_length_add_append]
      exact hhanded
    · exact (hleft.own hm).trans (by omega)

variable (o : Ops Sink)

lemma enterWriting_held (hf : Held calls total f) :
    (enterWriting f).1 = false ∧ Held calls total (enterWriting f).2 ∧
    (enterWriting f).2.wbuf.isSome := by
  rw [enterWriting]
  split_ifs with hw
  · exact ⟨rfl, hf, hw⟩
  · have hnone : f.wbuf = none := by simpa using hw
    have hbytes := hf.bytes
    rw [pending_of_none hnone] at hbytes
    rw [towrite, if_neg (by rw [hf.noWrite]; decide)]
    exact ⟨rfl, ⟨hf.noWrite, rfl, hf.fine, hbytes, hf.later⟩, rfl⟩

lemma bufferOrWrite_wrote (hf : Held calls total f) (hw : f.wbuf.isSome) (s : List UInt8) :
    Wrote calls total s (bufferOrWrite (ops o) s f) := by
  rw [bufferOrWrite]
  generalize hi : (if f.lineBuf then lastLine s s.length else 0) = i
  have hile : i ≤ s.length := by
    rw [← hi]
    split_ifs
    · exact lastLine_le s _
    · exact zero_le _
  by_cases hroom : f.bufSize - f.pending.length < s.length
  · rw [if_pos hroom]
    exact (stdioWrite_wrote hf (by rw [length_append]; omega)).1
  rw [if_neg hroom]
  by_cases hzero : i = 0
  · rw [if_pos hzero]
    exact .inl ⟨(hf.store hw s).1, (hf.store hw s).2, rfl⟩
  rw [if_neg hzero]
  -- the lines are written, and the rest is stored
  have hlen : (s.take i).length = i := length_take_of_le hile
  have hall : total ++ s.take i ++ s.drop i = total ++ s := by rw [append_assoc, take_append_drop]
  rcases (stdioWrite_wrote (s := s.take i) hf (by rw [length_append]; omega)).1 with
    ⟨hheld, hwbuf, hret⟩ | ⟨m, ⟨hfailed, hm, hhanded, herr⟩, hret⟩
  · rw [if_neg (by rw [ops, hret, hlen]; exact lt_irrefl i)]
    exact .inl ⟨hall ▸ (hheld.store hwbuf _).1, (hheld.store hwbuf _).2, rfl⟩
  · rw [length_append] at hm
    rw [if_pos (by rw [ops, hret]; omega)]
    refine .inr ⟨m, ⟨hfailed, by rw [length_append]; omega, hhanded.trans ?_, herr⟩, hret⟩
    rw [← hall, @take_append_of_le_length _ (total ++ s.take i) _ _ (by rw [length_append]; omega)]

lemma fwritex_wrote (hf : Held calls total f) (s : List UInt8) :
    Wrote calls total s (fwritex (ops o) s f) := by
  obtain ⟨hfirst, hheld, hwbuf⟩ := enterWriting_held hf
  rw [fwritex, hfirst]
  exact bufferOrWrite_wrote o hheld hwbuf s

lemma fputc_wrote (hf : Held calls total f) (c : UInt8) :
    Held calls (total ++ [c])
    (fputc (ops o) c f).2 ∨ ∃ m, Broke calls (total ++ [c]) m (fputc (ops o) c f).2 := by
  rw [fputc]
  split
  · next hfast => exact .inl (hf.store hfast.2.1 [c]).1
  · obtain ⟨hfirst, hheld, hwbuf⟩ := enterWriting_held hf
    rw [overflow, hfirst]
    simp only [Bool.false_eq_true, if_false]
    split
    · exact .inl (hheld.store hwbuf [c]).1
    · exact (stdioWrite_wrote hheld (by rw [length_append, length_singleton]; omega)).1.imp (fun h => h.1)
        (Exists.imp fun _ h => h.1)

lemma run_wrote (ps : List Put) (hf : Held calls total f) :
    Held calls (total ++ ps.flatMap Put.bytes) (run o ps f) ∨
      ∃ m, Broke calls (total ++ ps.flatMap Put.bytes) m (run o ps f) := by
  induction ps generalizing total f with
  | nil => exact .inl (by rwa [flatMap_nil, append_nil])
  | cons p ps ih =>
    have hcall : Held calls (total ++ p.bytes) (p.exec o f) ∨ ∃ m,
        Broke calls (total ++ p.bytes) m (p.exec o f) := by
      cases p with
      | fwrite w => exact (fwritex_wrote o hf w.bytes).imp (fun h => h.1) (Exists.imp fun _ h => h.1)
      | fputc c => exact fputc_wrote o hf c
    rw [run, flatMap_cons, ← append_assoc]
    rcases hcall with hheld | ⟨m, hfailed, hm, hhanded, herr⟩
    · rw [if_neg (by rw [hheld.fine]; decide)]
      exact ih hheld
    · rw [if_pos hfailed]
      refine .inr ⟨m, hfailed, by rw [length_append]; omega, ?_, herr⟩
      rw [hhanded, take_append_of_le_length hm.le]

lemma fflush_cookie (h : (flushPending (ops o) f).unread = []) :
    (fflush (ops o) f).2.cookie = (flushPending (ops o) f).cookie := by
  rw [fflush]
  split_ifs <;> rfl

lemma fflush_handed (hf : Held calls total f) : let k := (fflush (ops o) f).2.cookie
    k.handed = total ∨ (k.failed = true ∧ k.handed <+: total ∧ ∃ i, calls i = none) := by
  have hbytes := hf.bytes
  by_cases hp : f.pending = []
  · rw [hp, append_nil] at hbytes
    have hflush : flushPending (ops o) f = f := if_pos hp
    rw [fflush_cookie o (hflush.symm ▸ hf.unread), hflush]
    exact .inl hbytes
  · have hflush : flushPending (ops o) f = (stdioWrite [] f).2 := if_neg hp
    obtain ⟨hwrote, hnone, hunread⟩ := stdioWrite_wrote (s := []) hf (by simpa [length_pos_iff] using hp)
    rw [fflush_cookie o (hflush.symm ▸ hunread), hflush]
    rw [Wrote, append_nil] at hwrote
    rcases hwrote with ⟨hdone, -⟩ | ⟨m, ⟨hfailed, -, hhanded, herr⟩, -⟩
    · exact .inl (by rw [← hdone.bytes, hnone, append_nil])
    · exact .inr ⟨hfailed, hhanded ▸ take_prefix _ _, herr⟩

lemma runFlush_handed (ps : List Put) (hf : Held calls total f) : let k := (runFlush o ps f).cookie
    k.handed = total ++ ps.flatMap Put.bytes ∨
      (k.failed = true ∧ k.handed <+: total ++ ps.flatMap Put.bytes ∧ ∃ i, calls i = none) := by
  rw [runFlush]
  rcases run_wrote o ps hf with hheld | ⟨m, hfailed, -, hhanded, herr⟩
  · rw [if_neg (by rw [hheld.fine]; decide)]
    exact fflush_handed o hheld
  · rw [if_pos hfailed]
    exact .inr ⟨hfailed, hhanded ▸ take_prefix _ _, herr⟩

/-- **Buffered output**: up to the first error the bytes handed over are the first of those passed
in, all of them if there is none, and the call of `__fwritex` with the error returns how many of its
own were handed over.  An error is one that `writev` has reported. -/
theorem output_exact (noRead append lineBuf : Bool) (bufSize : ℕ) (calls : ℕ → Option ℕ) (ps : List Put) :
    let f := opened noRead append lineBuf bufSize calls
    let k := (runFlush o ps f).cookie
    k.handed <+: ps.flatMap Put.bytes ∧ (k.failed = false → k.handed = ps.flatMap Put.bytes) ∧
      ((∀ i, calls i ≠ none) → k.handed = ps.flatMap Put.bytes) ∧
      ∀ s, let g := run o ps f
        let r := fwritex (ops o) s g
        g.cookie.failed = false → r.2.cookie.failed = true →
          r.2.cookie.handed <+: ps.flatMap Put.bytes ++ s ∧
            r.1 = r.2.cookie.handed.length - (ps.flatMap Put.bytes).length := by
  intro f k
  have hf : Held calls [] f := ⟨rfl, rfl, rfl, rfl, 0, rfl⟩
  refine ⟨?_, ?_, ?_, ?_⟩
  · rcases runFlush_handed o ps hf with hall | ⟨-, hle, -⟩
    · exact hall ▸ prefix_rfl
    · exact hle
  · intro hfine
    rcases runFlush_handed o ps hf with hall | ⟨hfailed, -⟩
    · exact hall
    · exact absurd (hfailed.symm.trans hfine) (by decide)
  · intro hnever
    rcases runFlush_handed o ps hf with hall | ⟨-, -, i, hi⟩
    · exact hall
    · exact absurd hi (hnever i)
  · intro s g r hg hr
    rcases run_wrote o ps hf with hheld | ⟨m, hfailed, -⟩
    · rcases fwritex_wrote o hheld s with ⟨hdone, -⟩ | ⟨m, ⟨-, hm, hhanded, -⟩, hret⟩
      · exact absurd (hr.symm.trans hdone.fine) (by decide)
      · refine ⟨hhanded ▸ take_prefix _ _, hret.trans ?_⟩
        rw [hhanded, length_take_of_le hm.le, nil_append]
    · exact absurd (hfailed.symm.trans hg) (by decide)

end Musl.Stdio.Output
