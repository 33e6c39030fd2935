import Mathlib.Data.List.Infix
import Musl.Stdio.File

/-!
# Streams on a regular file

The hooks of a stream that `fopen` returns make system calls on a descriptor.  For a regular file
the kernel keeps the bytes and an offset; a `read`, `readv` or `writev` may stop early, wherever it
likes.  What the program sees is one file with one position: the bytes not yet written count as
written, and those read ahead do not count as read.
-/

namespace Musl.Stdio

open List Option Nat

/-! ### The code -/

/-- A regular file behind a descriptor.  `counts` are the kernel's choices: a call for `n` bytes moves
`min (counts 0 + 1) n` of them, and less at the end of the file. -/
structure Kernel where
  data : List UInt8
  off : ℕ
  counts : ℕ → ℕ

/-- `bs` written at `pos`; a gap after the end is filled with zeros. -/
def overwrite (data : List UInt8) (pos : ℕ) (bs : List UInt8) : List UInt8 :=
  if bs = [] then data
  else data.take pos ++ List.replicate (pos - data.length) 0 ++ bs ++ data.drop (pos + bs.length)

/-- `read` and `readv`, for `n` bytes in all. -/
def Kernel.read (n : ℕ) (k : Kernel) : List UInt8 × Kernel :=
  let bs := (k.data.drop k.off).take (min (k.counts 0 + 1) n)
  (bs, { k with off := k.off + bs.length, counts := fun i => k.counts (i + 1) })

def Kernel.writev (iov : List (List UInt8)) (k : Kernel) : ℕ × Kernel :=
  let cnt := min (k.counts 0 + 1) iov.flatten.length
  (cnt, ⟨overwrite k.data k.off (iov.flatten.take cnt), k.off + cnt, fun i => k.counts (i + 1)⟩)

/-- Where a seek goes, in a file of `size` bytes from the position `pos`. -/
def seekTarget (size pos : ℕ) (off : ℤ) : Whence → ℤ
  | .seekSet => off
  | .seekCur => pos + off
  | .seekEnd => size + off
  | .invalid => -1

def Kernel.lseek (off : ℤ) (whence : Whence) (k : Kernel) : ℤ × Kernel :=
  let target := seekTarget k.data.length k.off off whence
  if target < 0 then (-1, k) else (target, { k with off := target.toNat })

/-- `__stdio_read`: the last byte of the request comes out of the buffer, if there is a buffer. -/
def stdioRead (len : ℕ) (f : File Kernel) : List UInt8 × File Kernel :=
  let len0 := if f.bufSize = 0 then len else len - 1
  let r := f.cookie.read (len0 + f.bufSize)
  let g := { f with cookie := r.2 }
  if r.1 = [] then ([], { g with eof := true })
  else if r.1.length ≤ len0 then (r.1, g)
  else
    let rest := r.1.drop len0
    if f.bufSize = 0 then (r.1.take len0, { g with rbuf := some rest })
    else (r.1.take len0 ++ rest.take 1, { g with rbuf := some (rest.drop 1) })

/-- `iov` after `cnt` bytes of it were written. -/
def advance : List (List UInt8) → ℕ → List (List UInt8)
  | [], _ => []
  | [v], cnt => [v.drop cnt]
  | v :: u :: us, cnt => if v.length < cnt then u.drop (cnt - v.length) :: us else v.drop cnt :: u :: us

/-- The loop of `__stdio_write`. -/
def writevLoop : ℕ → List (List UInt8) → ℕ → Kernel → Kernel
  | 0, _, _, k => k
  | fuel + 1, iov, rem, k =>
    let r := k.writev iov
    if r.1 = rem then r.2 else writevLoop fuel (advance iov r.1) (rem - r.1) r.2

/-- `__stdio_write`; every `writev` writes a byte at least. -/
def stdioWrite (s : List UInt8) (f : File Kernel) : ℕ × File Kernel :=
  let iov := if f.pending = [] then [s] else [f.pending, s]
  let rem := f.pending.length + s.length
  (s.length, { f with cookie := writevLoop (rem + 1) iov rem f.cookie, wbuf := some [] })

def stdioSeek (off : ℤ) (whence : Whence) (f : File Kernel) : ℤ × File Kernel :=
  let r := f.cookie.lseek off whence
  (r.1, { f with cookie := r.2 })

/-- The hooks that `__fdopen` installs. -/
def fileOps : Ops Kernel := ⟨stdioRead, stdioWrite, stdioSeek⟩

/-! ### What is promised -/

/-- The file as the program sees it, and the number of bytes before the next one. -/
structure Contents where
  data : List UInt8
  pos : ℕ

def Contents.write (a : Contents) (bs : List UInt8) : Contents :=
  ⟨overwrite a.data a.pos bs, a.pos + bs.length⟩

/-- Reading `n` bytes at the position. -/
def Contents.skip (a : Contents) (n : ℕ) : Contents := { a with pos := a.pos + n }

inductive Call where
  | fread (size nmemb : ℕ)
  | fgetc
  | fwrite (w : Items)
  | fputc (c : UInt8)
  | fflush
  | fseek (off : ℤ) (whence : Whence)

structure Reply where
  ret : ℤ
  bytes : List UInt8

def exec : Call → File Kernel → Reply × File Kernel
  | .fread size nmemb, f => let r := fread fileOps size nmemb f; (⟨r.1, r.2.1⟩, r.2.2)
  | .fgetc, f =>
    let r := fgetc fileOps f
    (⟨(r.1.map fun c => (c.toNat : ℤ)).getD (-1), r.1.toList⟩, r.2)
  | .fwrite w, f => let r := fwrite fileOps w f; (⟨r.1, []⟩, r.2)
  | .fputc c, f =>
    let r := fputc fileOps c f
    (⟨(r.1.map fun c => (c.toNat : ℤ)).getD (-1), []⟩, r.2)
  | .fflush, f => let r := fflush fileOps f; (⟨if r.1 then 0 else -1, []⟩, r.2)
  | .fseek off whence, f => let r := fseeko fileOps off whence f; (⟨if r.1 then 0 else -1, []⟩, r.2)

def Contents.after (a : Contents) : Call → Reply → Contents
  | .fread _ _, reply => a.skip reply.bytes.length
  | .fgetc, reply => a.skip reply.bytes.length
  | .fwrite w, _ => a.write w.bytes
  | .fputc c, _ => a.write [c]
  | .fflush, _ => a
  | .fseek off whence, reply =>
    if reply.ret = 0 then { a with pos := (seekTarget a.data.length a.pos off whence).toNat } else a

/-- Bytes delivered by a request for `n`: those at the position, and all of them unless the end was
met before. -/
def DeliversAt (a : Contents) (f : File Kernel) (n : ℕ) (bs : List UInt8) : Prop :=
  bs <+: a.data.drop a.pos ∧ (f.eof = false → bs = (a.data.drop a.pos).take n)

instance (a : Contents) (f : File Kernel) (n : ℕ) (bs : List UInt8) : Decidable (DeliversAt a f n bs) :=
  inferInstanceAs (Decidable (_ ∧ _))

/-- A call from `f` to `g` does what the contents say. -/
def Right (a : Contents) (f g : File Kernel) : Call → Reply → Prop
  | .fread size nmemb, reply => DeliversAt a f (size * nmemb % 2 ^ 64) reply.bytes
  | .fgetc, reply => DeliversAt a f 1 reply.bytes
  | .fwrite w, reply => reply.ret = if w.size = 0 then 0 else w.nmemb
  | .fputc c, reply => reply.ret = c.toNat
  | .fflush, reply => reply.ret = 0 ∧ g.cookie.data = a.data
  | .fseek off whence, reply =>
    (reply.ret = 0 ↔ 0 ≤ seekTarget a.data.length a.pos off whence) ∧
    (whence ≠ .invalid → g.cookie.data = a.data)

instance (a : Contents) (f g : File Kernel) (reply : Reply) : (c : Call) → Decidable (Right a f g c reply)
  | .fread _ _ => inferInstanceAs (Decidable (DeliversAt _ _ _ _))
  | .fgetc => inferInstanceAs (Decidable (DeliversAt _ _ _ _))
  | .fwrite _ => inferInstanceAs (Decidable (_ = _))
  | .fputc _ => inferInstanceAs (Decidable (_ = _))
  | .fflush => inferInstanceAs (Decidable (_ ∧ _))
  | .fseek _ _ => inferInstanceAs (Decidable ((_ ↔ _) ∧ (_ → _)))

/-- In a sequence of calls every one is right, and `ftell` gives the position before and after each. -/
def Faithful : List Call → File Kernel → Contents → Prop
  | [], f, a => ftello fileOps f = a.pos
  | c :: cs, f, a =>
    ftello fileOps f = a.pos ∧ Right a f (exec c f).2 c (exec c f).1 ∧
      Faithful cs (exec c f).2 (a.after c (exec c f).1)

instance decidableFaithful :
    (cs : List Call) → (f : File Kernel) → (a : Contents) → Decidable (Faithful cs f a)
  | [], _, _ => inferInstanceAs (Decidable (_ = _))
  | c :: cs, f, a =>
    have := decidableFaithful cs (exec c f).2 (a.after c (exec c f).1)
    inferInstanceAs (Decidable (_ ∧ _ ∧ _))

/-- Whether bytes were read since the last `fflush` or successful `fseek`. -/
def Call.reading (reading : Bool) (reply : Reply) : Call → Bool
  | .fread _ _ => true
  | .fgetc => true
  | .fwrite _ => reading
  | .fputc _ => reading
  | .fflush => false
  | .fseek _ _ => reading && decide (reply.ret ≠ 0)

def Call.writes : Call → Bool
  | .fwrite _ => true
  | .fputc _ => true
  | _ => false

/-- Between a read and a later write there is a successful `fseek` or an `fflush`. -/
def Separated : Bool → List Call → File Kernel → Prop
  | _, [], _ => True
  | reading, c :: cs, f =>
    (c.writes = true → reading = false) ∧ Separated (c.reading reading (exec c f).1) cs (exec c f).2

/-- A stream just opened for reading and writing, and not for appending; the buffer may have any size. -/
structure Fresh (f : File Kernel) : Prop where
  noRead : f.noRead = false
  noWrite : f.noWrite = false
  append : f.append = false
  rbuf : f.rbuf = none
  wbuf : f.wbuf = none

/-! ### Writing in pieces -/

section

variable (data : List UInt8) (pos : ℕ)

@[simp] lemma overwrite_nil : overwrite data pos [] = data := if_pos rfl

lemma length_padded : (data.take pos ++ replicate (pos - data.length) 0).length = pos := by
  rw [length_append, length_take, length_replicate]
  omega

lemma overwrite_append (x y : List UInt8) :
    overwrite (overwrite data pos x) (pos + x.length) y = overwrite data pos (x ++ y) := by
  by_cases hx : x = []
  · simp [hx]
  by_cases hy : y = []
  · simp [hy]
  have hlen := length_padded data pos
  generalize hpad : data.take pos ++ replicate (pos - data.length) 0 = pad at hlen
  have hxlen : (pad ++ x).length = pos + x.length := by rw [length_append, hlen]
  have hxy : x ++ y ≠ [] := by simp [hx]
  simp only [overwrite, if_neg hx, if_neg hy, if_neg hxy, hpad]
  have htake : (pad ++ x ++ data.drop (pos + x.length)).take (pos + x.length) = pad ++ x := by
    rw [← hxlen, take_left]
  have hfull : pos + x.length - (pad ++ x ++ data.drop (pos + x.length)).length = 0 := by
    rw [length_append]
    omega
  have hdrop : (pad ++ x ++ data.drop (pos + x.length)).drop (pos + x.length + y.length) =
      data.drop (pos + (x ++ y).length) := by
    rw [← hxlen, drop_length_add_append, hxlen, drop_drop, length_append, add_assoc]
  rw [htake, hfull, hdrop, replicate_zero, append_nil, append_assoc pad x y]

end

lemma flatten_advance {iov : List (List UInt8)} {cnt : ℕ} (htwo : iov.length ≤ 2)
    (hcnt : cnt ≤ iov.flatten.length) :
    (advance iov cnt).flatten = iov.flatten.drop cnt := by
  match iov with
  | [] => simp [advance]
  | [v] => simp [advance]
  | [v, u] =>
    simp only [advance, flatten_cons, drop_append]
    split_ifs with hlt
    · rw [drop_of_length_le hlt.le]
      simp
    · have hzero : cnt - v.length = 0 := by omega
      simp [hzero]
  | _ :: _ :: _ :: _ =>
    simp only [length_cons] at htwo
    omega

lemma length_advance_le (iov : List (List UInt8)) (cnt : ℕ) : (advance iov cnt).length ≤ iov.length := by
  match iov with
  | [] => rfl
  | [v] => rfl
  | v :: u :: us =>
    simp only [advance]
    split_ifs
    · simp
    · rfl

lemma writev_eq (iov : List (List UInt8)) (k : Kernel) :
    ∃ cnt counts,
    k.writev iov = (cnt, ⟨overwrite k.data k.off (iov.flatten.take cnt), k.off + cnt, counts⟩) ∧
      cnt ≤ iov.flatten.length ∧ (0 < iov.flatten.length → 0 < cnt) :=
  ⟨_, _, rfl, by omega, by omega⟩

lemma writevLoop_eq (fuel : ℕ) (iov : List (List UInt8)) (k : Kernel) (htwo : iov.length ≤ 2)
    (hfuel : iov.flatten.length < fuel) :
    (writevLoop fuel iov iov.flatten.length k).data = overwrite k.data k.off iov.flatten ∧
      (writevLoop fuel iov iov.flatten.length k).off = k.off + iov.flatten.length := by
  induction fuel generalizing iov k with
  | zero => omega
  | succ fuel ih =>
    obtain ⟨cnt, counts, hwritev, hle, hpos⟩ := writev_eq iov k
    simp only [writevLoop, hwritev]
    split_ifs with hall
    · rw [hall, take_length]
      exact ⟨rfl, rfl⟩
    · have hadvance := flatten_advance htwo hle
      have hlen : (advance iov cnt).flatten.length = iov.flatten.length - cnt := by
        rw [hadvance, length_drop]
      have hrest :=
        ih (advance iov cnt) ⟨overwrite k.data k.off (iov.flatten.take cnt), k.off + cnt, counts⟩
        ((length_advance_le iov cnt).trans htwo) (by omega)
      have htake : (iov.flatten.take cnt).length = cnt := length_take_of_le hle
      rw [hlen, hadvance] at hrest
      rw [hrest.1, hrest.2]
      constructor
      · have happend := overwrite_append k.data k.off (iov.flatten.take cnt) (iov.flatten.drop cnt)
        rwa [htake, take_append_drop] at happend
      · dsimp only
        omega

lemma stdioWrite_eq (s : List UInt8) (f : File Kernel) :
    ∃ k, stdioWrite s f = (s.length, { f with cookie := k, wbuf := some [] }) ∧
      k.data = overwrite f.cookie.data f.cookie.off (f.pending ++ s) ∧
      k.off = f.cookie.off + f.pending.length + s.length := by
  have hiov : ∃ iov, iov = (if f.pending = [] then [s] else [f.pending, s]) ∧ iov.length ≤ 2 ∧
      iov.flatten = f.pending ++ s := by
    by_cases hp : f.pending = []
    · exact ⟨[s], by simp [hp]⟩
    · exact ⟨[f.pending, s], by simp [hp]⟩
  obtain ⟨iov, hif, htwo, hflatten⟩ := hiov
  have hlen : iov.flatten.length = f.pending.length + s.length := by rw [hflatten, length_append]
  have hloop := writevLoop_eq (f.pending.length + s.length + 1) iov f.cookie htwo (by omega)
  rw [hlen, hflatten, ← add_assoc] at hloop
  exact ⟨_, by rw [stdioWrite, ← hif], hloop⟩

lemma read_eq (n : ℕ) (k : Kernel) :
    ∃ bs k', k.read n = (bs, k') ∧ k'.data = k.data ∧ k'.off = k.off + bs.length ∧
    bs <+: k.data.drop k.off ∧
      bs.length ≤ n ∧ (0 < n → bs = [] → k.data.drop k.off = []) := by
  refine ⟨_, _, rfl, rfl, rfl, take_prefix _ _, ?_, fun hn hnil => ?_⟩
  · rw [length_take]
    omega
  · rcases take_eq_nil_iff.1 hnil with hzero | hdrop
    · omega
    · exact hdrop

variable {f : File Kernel} {a : Contents} {reading : Bool}

lemma stdioRead_eq {len : ℕ} (hr : f.rbuf = some []) (hlen : 0 < len) :
    ∃ k bs rest rbuf eof, stdioRead len f = (bs, { f with cookie := k, rbuf := rbuf, eof := eof }) ∧
      k.data = f.cookie.data ∧ k.off = f.cookie.off + (bs ++ rest).length ∧
      bs ++ rest <+: f.cookie.data.drop f.cookie.off ∧ rbuf.getD [] = rest ∧ rest.length ≤ f.bufSize ∧
      bs.length ≤ len ∧ (bs.length < len → rest = []) ∧ (bs = [] → f.cookie.data.drop f.cookie.off = []) ∧
      (bs ≠ [] → eof = f.eof) := by
  simp only [stdioRead]
  generalize hlen0 : (if f.bufSize = 0 then len else len - 1) = len0
  obtain ⟨bs, k, hread, hdata, hoff, hfront, hle, hend⟩ := read_eq (len0 + f.bufSize) f.cookie
  have hreq : 0 < len0 + f.bufSize := by split_ifs at hlen0 <;> omega
  have hlen0_le : len0 ≤ len := by split_ifs at hlen0 <;> omega
  simp only [hread]
  by_cases hnil : bs = []
  · subst hnil
    exact ⟨k, [], [], f.rbuf, true, if_pos rfl, hdata, hoff, nil_prefix, by rw [hr]; rfl, zero_le _,
      zero_le _, fun _ => rfl, fun _ => hend hreq rfl, fun hne => absurd rfl hne⟩
  by_cases hshort : bs.length ≤ len0
  · refine ⟨k, bs, [], f.rbuf, f.eof, by rw [if_neg hnil, if_pos hshort], hdata, ?_, ?_, by rw [hr]; rfl,
      zero_le _, hshort.trans hlen0_le, fun _ => rfl, fun h => absurd h hnil, fun _ => rfl⟩
    · rwa [append_nil]
    · rwa [append_nil]
  · -- The request is complete, and its last byte is the first one in the buffer.
    have hbuf : f.bufSize ≠ 0 := by
      intro hzero
      omega
    rw [if_neg hbuf] at hlen0
    have htake : bs.take len0 ++ (bs.drop len0).take 1 = bs.take len := by
      rw [← take_add, show len0 + 1 = len by omega]
    have hdrop : (bs.drop len0).drop 1 = bs.drop len := by rw [drop_drop, show len0 + 1 = len by omega]
    have hfull : (bs.take len).length = len := length_take_of_le (by omega)
    refine ⟨k, bs.take len, bs.drop len, some (bs.drop len), f.eof, ?_, hdata, ?_, ?_, rfl, ?_,
      hfull.le, ?_, ?_,
      fun _ => rfl⟩
    · rw [if_neg hnil, if_neg hshort, if_neg hbuf, htake, hdrop]
    · rwa [take_append_drop]
    · rwa [take_append_drop]
    · rw [length_drop]
      omega
    · intro hlt
      omega
    · intro hzero
      rw [hzero] at hfull
      exact absurd hfull (by simp; omega)

/-! ### The buffer and the kernel's file -/

/-- The contents that a stream stands for: the kernel's file with the pending bytes written, at a
position before the bytes that were read ahead. -/
structure Models (f : File Kernel) (a : Contents) : Prop where
  noRead : f.noRead = false
  noWrite : f.noWrite = false
  append : f.append = false
  data : a.data = overwrite f.cookie.data f.cookie.off f.pending
  pos : a.pos + f.unread.length = f.cookie.off + f.pending.length
  unread : f.unread <+: f.cookie.data.drop a.pos
  oneMode : f.rbuf = none ∨ f.wbuf = none
  pendingFits : f.pending.length ≤ f.bufSize
  unreadFits : f.unread.length ≤ f.bufSize

lemma unread_of_none (h : f.rbuf = none) : f.unread = [] := by
  simp [File.unread, h]

lemma Fresh.models (hf : Fresh f) : Models f ⟨f.cookie.data, f.cookie.off⟩ := by
  obtain ⟨hnord, hnowr, happend, hrbuf, hwbuf⟩ := hf
  have hpending : f.pending = [] := pending_of_none hwbuf
  have hunread : f.unread = [] := unread_of_none hrbuf
  refine ⟨hnord, hnowr, happend, ?_, ?_, ?_, .inl hrbuf, ?_, ?_⟩
  all_goals simp [hpending, hunread]

lemma Contents.skip_skip (a : Contents) (m n : ℕ) : (a.skip m).skip n = a.skip (m + n) := by
  simp only [Contents.skip, add_assoc]

lemma Contents.write_write (a : Contents) (x y : List UInt8) :
    (a.write x).write y = a.write (x ++ y) := by
  simp only [Contents.write, overwrite_append, length_append, add_assoc]

lemma lastLine_le (s : List UInt8) (n : ℕ) : lastLine s n ≤ n := by
  induction n with
  | zero => rfl
  | succ n ih =>
    simp only [lastLine]
    split_ifs
    · rfl
    · exact ih.trans (le_succ n)

lemma deliversAt_append {n : ℕ} {bs more : List UInt8} (hfront : bs <+: a.data.drop a.pos)
    (hle : bs.length ≤ n)
    (hmore : DeliversAt (a.skip bs.length) f (n - bs.length) more) : DeliversAt a f n (bs ++ more) := by
  obtain ⟨rest, hrest⟩ := hfront
  obtain ⟨hmore, hfull⟩ := hmore
  have hdrop : (a.skip bs.length).data.drop (a.skip bs.length).pos = rest := by
    simp only [Contents.skip]
    rw [← drop_drop, ← hrest, drop_left]
  rw [hdrop] at hmore hfull
  constructor
  · rw [← hrest]
    exact (prefix_append_right_inj bs).2 hmore
  · intro heof
    rw [← hrest, hfull heof, take_append, take_of_length_le hle]

namespace Models

variable {f : File Kernel} {a : Contents}

section

variable (h : Models f a)

include h

lemma data_eq (hp : f.pending = []) : f.cookie.data = a.data := by
  rw [h.data, hp, overwrite_nil]

lemma unread_of_pending (hp : f.pending ≠ []) : f.rbuf = none := by
  rcases h.oneMode with hr | hw
  · exact hr
  · exact absurd (pending_of_none hw) hp

lemma leaveWriting (hp : f.pending = []) : Models { f with wbuf := none } a := by
  have hpos := h.pos
  have hdata := h.data
  rw [hp] at hpos hdata
  exact ⟨h.noRead, h.noWrite, h.append, hdata, hpos, h.unread, .inr rfl, zero_le _, h.unreadFits⟩

lemma stdioWrite (hr : f.rbuf = none) (s : List UInt8) : Models (Stdio.stdioWrite s f).2 (a.write s) := by
  have hunread : f.unread = [] := unread_of_none hr
  have hpos := h.pos
  rw [hunread, length_nil, add_zero] at hpos
  obtain ⟨k, heq, hdata, hoff⟩ := stdioWrite_eq s f
  rw [heq]
  have hunread' : File.unread { f with cookie := k, wbuf := some [] } = [] := hunread
  refine ⟨h.noRead, h.noWrite, h.append, ?_, ?_, ?_, .inl hr, zero_le _, ?_⟩
  · simp only [Contents.write, File.pending, getD_some, overwrite_nil]
    rw [hdata, h.data, hpos, overwrite_append]
  · simp only [Contents.write, File.pending, getD_some, hunread']
    omega
  · rw [hunread']
    exact nil_prefix
  · rw [hunread']
    exact zero_le _

lemma flush : Models (flushPending fileOps f) a ∧ (flushPending fileOps f).pending = [] ∧
      (flushPending fileOps f).cookie.data = a.data ∧ (flushPending fileOps f).rbuf = f.rbuf ∧
      (flushPending fileOps f).eof = f.eof ∧ (f.pending ≠ [] → (flushPending fileOps f).wbuf ≠ none) := by
  by_cases hp : f.pending = []
  · rw [flushPending_of_nil _ hp]
    exact ⟨h, hp, h.data_eq hp, rfl, rfl, fun hne => absurd hp hne⟩
  · have hwrite := h.stdioWrite (h.unread_of_pending hp) []
    obtain ⟨k, heq, -⟩ := stdioWrite_eq [] f
    have hflush : flushPending fileOps f = (Stdio.stdioWrite [] f).2 := by
      rw [flushPending, if_neg hp, fileOps]
    have hsame : a.write [] = a := by simp [Contents.write]
    rw [← hflush] at hwrite
    have hpending : (flushPending fileOps f).pending = [] := by rw [hflush]; rfl
    refine ⟨hwrite, hpending, hwrite.data_eq hpending, ?_, ?_, fun _ => ?_⟩
    all_goals simp [hflush, heq]

/-! ### Reading -/

lemma enterReading (hu : f.unread = []) (hw : f.wbuf = none) : Models { f with rbuf := some [] } a := by
  have hpos := h.pos
  rw [hu] at hpos
  exact ⟨h.noRead, h.noWrite, h.append, h.data, hpos, nil_prefix, .inr hw, h.pendingFits, zero_le _⟩

lemma toread (hu : f.unread = []) :
    ∃ g, Stdio.toread fileOps f = (f.eof, g) ∧ Models g a ∧ g.rbuf = some [] ∧ g.wbuf = none ∧
    g.eof = f.eof := by
  obtain ⟨hflush, hpending, -, hrbuf, heof, -⟩ := h.flush
  simp only [Stdio.toread]
  generalize flushPending fileOps f = g at hflush hpending hrbuf heof
  have hunread : g.unread = [] := by rw [File.unread, hrbuf]; exact hu
  have hmodels := (hflush.leaveWriting hpending).enterReading hunread rfl
  exact ⟨_, by simp [hflush.noRead, heof], hmodels, rfl, rfl, heof⟩

lemma took (hu : f.unread = []) (hw : f.wbuf = none) {k : Kernel} {bs rest : List UInt8}
    {rbuf : Option (List UInt8)} {eof : Bool} (hdata : k.data = f.cookie.data)
    (hoff : k.off = f.cookie.off + (bs ++ rest).length)
    (hbytes : bs ++ rest <+: f.cookie.data.drop f.cookie.off)
    (hrbuf : rbuf.getD [] = rest) (hfits : rest.length ≤ f.bufSize) :
    Models { f with cookie := k, rbuf := rbuf, eof := eof } (a.skip bs.length) := by
  have hpending : f.pending = [] := pending_of_none hw
  have hpos := h.pos
  rw [hu, hpending, length_nil, add_zero, add_zero] at hpos
  obtain ⟨more, hmore⟩ := hbytes
  refine ⟨h.noRead, h.noWrite, h.append, ?_, ?_, ?_, .inr hw, h.pendingFits, ?_⟩
  · show a.data = overwrite k.data k.off f.pending
    rw [hpending, overwrite_nil, hdata, h.data_eq hpending]
  · show a.pos + bs.length + (rbuf.getD []).length = k.off + f.pending.length
    rw [hrbuf, hpending, hoff, length_append, length_nil]
    omega
  · show rbuf.getD [] <+: k.data.drop (a.pos + bs.length)
    rw [hrbuf, hdata, hpos, ← drop_drop, ← hmore, append_assoc, drop_left]
    exact prefix_append rest more
  · show (rbuf.getD []).length ≤ f.bufSize
    rwa [hrbuf]

lemma stdioRead (hr : f.rbuf = some []) (hw : f.wbuf = none) {len : ℕ} (hlen : 0 < len) :
    ∃ bs g, Stdio.stdioRead len f = (bs, g) ∧ Models g (a.skip bs.length) ∧ bs.length ≤ len ∧
      bs <+: a.data.drop a.pos ∧ (bs.length < len → g.unread = []) ∧ (bs = [] → a.data.drop a.pos = []) ∧
      (bs ≠ [] → g.eof = f.eof) := by
  have hunread : f.unread = [] := by rw [File.unread, hr, getD_some]
  have hpending : f.pending = [] := pending_of_none hw
  have hpos := h.pos
  rw [hunread, hpending, length_nil, add_zero] at hpos
  obtain ⟨k, bs, rest, rbuf, eof, heq, hdata, hoff, hbytes, hrbuf, hfits, hle, hall, hend, heof⟩ :=
    stdioRead_eq hr hlen
  rw [← h.data_eq hpending, hpos]
  refine ⟨bs, _, heq, h.took hunread hw hdata hoff hbytes hrbuf hfits, hle, ?_, ?_, hend, heof⟩
  · exact (prefix_append bs rest).trans hbytes
  · intro hlt
    rw [File.unread, hrbuf, hall hlt]

end

lemma readLoop (fuel : ℕ) {l : ℕ} (hfuel : l ≤ fuel) (h : Models f a) (hu : 0 < l → f.unread = []) :
    ∃ bs missing g, Stdio.readLoop fileOps fuel l f = (bs, missing, g) ∧ Models g (a.skip bs.length) ∧
      DeliversAt a f l bs := by
  induction fuel generalizing l f a with
  | zero =>
    obtain rfl : l = 0 := by omega
    exact ⟨[], 0, f, rfl, h, nil_prefix, fun _ => rfl⟩
  | succ fuel ih =>
    by_cases hl : l = 0
    · subst hl
      exact ⟨[], 0, f, rfl, h, nil_prefix, fun _ => rfl⟩
    have hpos : 0 < l := by omega
    obtain ⟨t, htoread, ht, hrbuf, hwbuf, hteof⟩ := h.toread (hu hpos)
    cases heof : f.eof with
    | true =>
      rw [heof] at htoread
      refine ⟨[], l, t, ?_, ht, nil_prefix, fun hfalse => absurd (heof.symm.trans hfalse) (by decide)⟩
      simp [Stdio.readLoop, if_neg hl, htoread]
    | false =>
      rw [heof] at htoread
      obtain ⟨bs, g, hread, hg, hle, hfront, hall, hend, hgeof⟩ := ht.stdioRead hrbuf hwbuf hpos
      rw [readLoop_step fileOps fuel hl htoread hread]
      by_cases hnil : bs = []
      · subst hnil
        exact ⟨[], l, g, if_pos rfl, hg, nil_prefix, fun _ => by rw [hend rfl, take_nil]⟩
      · obtain ⟨more, missing, g', hloop, hg', hmore, hfull⟩ :=
          ih (l := l - bs.length) (by have := length_pos_iff.2 hnil; omega) hg (fun hlt =>
            hall (by omega))
        rw [if_neg hnil, hloop]
        refine ⟨bs ++ more, missing, g', rfl, ?_, ?_⟩
        · rwa [length_append, ← Contents.skip_skip]
        · exact deliversAt_append hfront hle ⟨hmore, fun _ => hfull (by rw [hgeof hnil, hteof, heof])⟩

section

variable (h : Models f a)

include h

lemma unread_front : f.unread <+: a.data.drop a.pos := by
  by_cases hp : f.pending = []
  · rw [← h.data_eq hp]
    exact h.unread
  · rw [unread_of_none (h.unread_of_pending hp)]
    exact nil_prefix

lemma consume {k : ℕ} (hk : k ≤ f.unread.length) : Models { f with rbuf := f.rbuf.map (·.drop k) }
    (a.skip k) := by
  have hunread : (f.rbuf.map (·.drop k)).getD [] = f.unread.drop k := by
    cases hr : f.rbuf <;> simp [File.unread, hr]
  have hpos := h.pos
  refine ⟨h.noRead, h.noWrite, h.append, h.data, ?_, ?_, ?_, h.pendingFits, ?_⟩
  · show a.pos + k + ((f.rbuf.map (·.drop k)).getD []).length = f.cookie.off + f.pending.length
    rw [hunread, length_drop]
    omega
  · show (f.rbuf.map (·.drop k)).getD [] <+: f.cookie.data.drop (a.pos + k)
    rw [hunread, ← drop_drop]
    exact IsPrefix.drop h.unread k
  · rcases h.oneMode with hr | hw
    · exact .inl (by simp [hr])
    · exact .inr hw
  · show ((f.rbuf.map (·.drop k)).getD []).length ≤ f.bufSize
    have hfits := h.unreadFits
    rw [hunread, length_drop]
    omega

lemma freadBytes (len : ℕ) :
    ∃ bs missing g, Stdio.freadBytes fileOps len f = (bs, missing, g) ∧ Models g (a.skip bs.length) ∧
      DeliversAt a f len bs := by
  simp only [Stdio.freadBytes]
  generalize hk : min f.unread.length len = k
  have htake : (f.unread.take k).length = k := length_take_of_le (by omega)
  have hconsume := h.consume (show k ≤ f.unread.length by omega)
  have hempty : 0 < len - k → File.unread { f with rbuf := f.rbuf.map (·.drop k) } = [] := by
    intro hlt
    have hdrop : f.unread.drop k = [] := drop_of_length_le (by omega)
    cases hr : f.rbuf with
    | none => rfl
    | some u => simpa [File.unread, hr] using hdrop
  obtain ⟨more, missing, g, hloop, hg, hmore⟩ := readLoop (len - k) le_rfl hconsume hempty
  rw [hloop]
  refine ⟨f.unread.take k ++ more, missing, g, rfl, ?_, ?_⟩
  · rwa [length_append, htake, ← Contents.skip_skip]
  · apply deliversAt_append (( take_prefix k f.unread).trans h.unread_front)
    · omega
    · rw [htake]
      exact hmore

lemma fgetc :
    ∃ bs g, Stdio.fgetc fileOps f = (bs.head?, g) ∧ bs.length ≤ 1 ∧ Models g (a.skip bs.length) ∧
      DeliversAt a f 1 bs := by
  cases hu : f.unread with
  | nil =>
    obtain ⟨t, htoread, ht, hrbuf, hwbuf, -⟩ := h.toread hu
    simp only [Stdio.fgetc, hu, uflow, htoread]
    cases heof : f.eof with
    | true =>
      exact ⟨[], t, rfl, zero_le _, ht, nil_prefix,
        fun hfalse => absurd (heof.symm.trans hfalse) (by decide)⟩
    | false =>
      obtain ⟨bs, g, hread, hg, hle, hfront, -, hend, -⟩ := ht.stdioRead hrbuf hwbuf one_pos
      refine ⟨bs, g, ?_, hle, hg, hfront, fun _ => ?_⟩
      · simp [fileOps, hread]
      · by_cases hnil : bs = []
        · rw [hend hnil, hnil, take_nil]
        · have hone : bs.length = 1 := by have := length_pos_iff.2 hnil; omega
          rw [← hone]
          exact prefix_iff_eq_take.1 hfront
  | cons c rest =>
    have hconsume := h.consume (k := 1) (by simp [hu])
    have hmap : f.rbuf.map (·.drop 1) = some rest := by
      cases hr : f.rbuf with
      | none => simp [File.unread, hr] at hu
      | some u =>
        simp only [File.unread, hr, getD_some] at hu
        simp [hu]
    rw [hmap] at hconsume
    have hfront : [c] <+: a.data.drop a.pos :=
      (by simp [hu] : [c] <+: f.unread).trans h.unread_front
    refine ⟨[c], _, by simp [Stdio.fgetc, hu], le_rfl, hconsume, hfront, fun _ => ?_⟩
    exact prefix_iff_eq_take.1 hfront

/-! ### Writing -/

lemma enterWriting (hu : f.unread = []) :
    ∃ g p, Stdio.enterWriting f = (false, g) ∧ Models g a ∧ g.rbuf = none ∧ g.wbuf = some p := by
  cases hw : f.wbuf with
  | some p =>
    have hr : f.rbuf = none := by simpa [hw] using h.oneMode
    exact ⟨f, p, by simp [Stdio.enterWriting, hw], h, hr, hw⟩
  | none =>
    have hpending : f.pending = [] := pending_of_none hw
    have hdata := h.data
    have hpos := h.pos
    rw [hpending] at hdata hpos
    rw [hu] at hpos
    exact ⟨{ f with rbuf := none, wbuf := some [] },
      [], by simp [Stdio.enterWriting, towrite, hw, h.noWrite],
      ⟨h.noRead, h.noWrite, h.append, hdata, hpos, nil_prefix, .inl rfl, zero_le _, zero_le _⟩, rfl, rfl⟩

end

variable {p : List UInt8}

variable (h : Models f a)

include h

lemma store (hr : f.rbuf = none) (hw : f.wbuf = some p) {s : List UInt8}
    (hfits : p.length + s.length ≤ f.bufSize) : Models (f.store s) (a.write s) := by
  have hpending : f.pending = p := by rw [File.pending, hw, getD_some]
  have hstore : (f.store s).pending = p ++ s := by simp [File.store, File.pending, hw]
  have hunread : (f.store s).unread = [] := unread_of_none hr
  have hpos := h.pos
  rw [unread_of_none hr, hpending, length_nil, add_zero] at hpos
  refine ⟨h.noRead, h.noWrite, h.append, ?_, ?_, ?_, .inl hr, ?_, ?_⟩
  · rw [hstore]
    simp only [Contents.write, File.store]
    rw [h.data, hpending, hpos, overwrite_append]
  · rw [hstore, hunread]
    simp only [Contents.write, File.store, length_append, length_nil]
    omega
  · rw [hunread]
    exact nil_prefix
  · rw [hstore, length_append]
    exact hfits
  · rw [hunread]
    exact zero_le _

lemma bufferOrWrite (hr : f.rbuf = none) (hw : f.wbuf = some p) (s : List UInt8) :
    ∃ g, Stdio.bufferOrWrite fileOps s f = (s.length, g) ∧ Models g (a.write s) ∧ g.rbuf = none := by
  have hpending : f.pending = p := by rw [File.pending, hw, getD_some]
  have hfits := h.pendingFits
  simp only [Stdio.bufferOrWrite, hpending]
  rw [hpending] at hfits
  generalize hi : (if f.lineBuf then lastLine s s.length else 0) = i
  have hile : i ≤ s.length := by
    rw [← hi]
    split_ifs
    · exact lastLine_le s s.length
    · exact zero_le _
  by_cases hlong : f.bufSize - p.length < s.length
  · obtain ⟨k, heq, -⟩ := stdioWrite_eq s f
    have hmodels := h.stdioWrite hr s
    rw [heq] at hmodels
    exact ⟨_, by rw [if_pos hlong]; exact heq, hmodels, hr⟩
  rw [if_neg hlong]
  by_cases hzero : i = 0
  · exact ⟨_, if_pos hzero, h.store hr hw (by omega), hr⟩
  · -- The lines go out with the pending bytes, and what is left stays in the buffer.
    obtain ⟨k, heq, -⟩ := stdioWrite_eq (s.take i) f
    have htake : (s.take i).length = i := length_take_of_le hile
    have hmodels := h.stdioWrite hr (s.take i)
    rw [heq] at hmodels
    have hrest := hmodels.store (s := s.drop i) hr rfl (by simp only [length_drop, length_nil]; omega)
    rw [Contents.write_write, take_append_drop] at hrest
    refine ⟨_, ?_, hrest, hr⟩
    simp [if_neg hzero, fileOps, heq, htake]

lemma fwritex (hu : f.unread = []) (s : List UInt8) :
    ∃ g, Stdio.fwritex fileOps s f = (s.length, g) ∧ Models g (a.write s) ∧ g.rbuf = none := by
  obtain ⟨g, p, henter, hg, hr, hw⟩ := h.enterWriting hu
  simp only [Stdio.fwritex, henter]
  exact hg.bufferOrWrite hr hw s

lemma fputc (hu : f.unread = []) (c : UInt8) :
    ∃ g, Stdio.fputc fileOps c f = (some c, g) ∧ Models g (a.write [c]) ∧ g.rbuf = none := by
  have hoverflow : ∃ g, overflow fileOps c f = (some c, g) ∧ Models g (a.write [c]) ∧ g.rbuf = none := by
    obtain ⟨g, p, henter, hg, hr, hw⟩ := h.enterWriting hu
    have hpending : g.pending = p := by rw [File.pending, hw, getD_some]
    have hfits := hg.pendingFits
    simp only [overflow, henter, Bool.false_eq_true, if_false]
    by_cases hroom : g.pending.length ≠ g.bufSize ∧ ¬(g.lineBuf ∧ c = 10)
    · refine ⟨_, if_pos hroom, hg.store hr hw ?_, hr⟩
      rw [hpending] at hroom hfits
      rw [length_singleton]
      omega
    · obtain ⟨k, heq, -⟩ := stdioWrite_eq [c] g
      have hmodels := hg.stdioWrite hr [c]
      refine ⟨_, ?_, hmodels, hr⟩
      simp only [if_neg hroom, fileOps, heq, length_singleton, if_true]
  simp only [Stdio.fputc]
  split_ifs with hroom
  · obtain ⟨-, hsome, hne⟩ := hroom
    obtain ⟨p, hw⟩ := isSome_iff_exists.1 hsome
    have hr : f.rbuf = none := by simpa [hw] using h.oneMode
    have hpending : f.pending = p := by rw [File.pending, hw, getD_some]
    have hfits := h.pendingFits
    refine ⟨_, rfl, h.store hr hw ?_, hr⟩
    rw [hpending] at hne hfits
    rw [length_singleton]
    omega
  · exact hoverflow

/-! ### Flushing and seeking -/

lemma seeked (hp : f.pending = []) (pos : ℕ) (eof : Bool) :
    Models { f with cookie := { f.cookie with off := pos }, wbuf := none, rbuf := none, eof := eof }
      { a with pos := pos } := by
  refine ⟨h.noRead, h.noWrite, h.append, ?_, ?_, nil_prefix, .inl rfl, zero_le _, zero_le _⟩
  · simp [h.data_eq hp]
  · simp [File.unread]

lemma fflush : ∃ g, Stdio.fflush fileOps f = (true, g) ∧ Models g a ∧ g.cookie.data = a.data ∧
    g.rbuf = none := by
  obtain ⟨hflush, hpending, hdata, -, -, hsome⟩ := h.flush
  simp only [Stdio.fflush]
  generalize flushPending fileOps f = g at hflush hpending hdata hsome
  have hpos := hflush.pos
  rw [hpending, length_nil, add_zero] at hpos
  rw [if_neg (fun hfail => hsome hfail.1 hfail.2)]
  have hseek : (if g.unread = [] then g else (fileOps.seek (-g.unread.length) .seekCur g).2) =
      { g with cookie := { g.cookie with off := a.pos } } := by
    split_ifs with hu
    · rw [hu, length_nil, add_zero] at hpos
      rw [hpos]
    · have htarget : seekTarget g.cookie.data.length g.cookie.off (-g.unread.length) .seekCur =
          a.pos := by
        simp only [seekTarget]
        omega
      have hnonneg : ¬(a.pos : ℤ) < 0 := by omega
      simp [fileOps, stdioSeek, Kernel.lseek, htarget, if_neg hnonneg]
  rw [hseek]
  exact ⟨_, rfl, hflush.seeked hpending a.pos g.eof, hdata, rfl⟩

lemma fseeko (off : ℤ) {whence : Whence} (hvalid : whence ≠ .invalid) : ∃ g, g.cookie.data = a.data ∧
      if 0 ≤ seekTarget a.data.length a.pos off whence then
        Stdio.fseeko fileOps off whence f = (true, g) ∧ g.rbuf = none ∧
          Models g { a with pos := (seekTarget a.data.length a.pos off whence).toNat }
      else Stdio.fseeko fileOps off whence f = (false, g) ∧ g.rbuf = f.rbuf ∧ Models g a := by
  obtain ⟨hflush, hpending, hdata, hrbuf, -, hsome⟩ := h.flush
  simp only [Stdio.fseeko, if_neg hvalid]
  generalize flushPending fileOps f = g at hflush hpending hdata hrbuf hsome
  have hpos := hflush.pos
  have hunread : g.unread = f.unread := by rw [File.unread, hrbuf, File.unread]
  rw [hpending, hunread, length_nil] at hpos
  rw [if_neg (fun hfail => hsome hfail.1 hfail.2)]
  generalize hoff : (if whence = .seekCur ∧ f.rbuf.isSome then off - f.unread.length else off) = off'
  have htarget : seekTarget g.cookie.data.length g.cookie.off off' whence =
      seekTarget a.data.length a.pos off whence := by
    subst hoff
    cases whence with
    | seekSet => simp [seekTarget]
    | seekCur =>
      have hadjust : (if f.rbuf.isSome then off - f.unread.length else off) = off - f.unread.length := by
        cases hr : f.rbuf <;> simp [File.unread, hr]
      simp only [seekTarget, true_and]
      omega
    | seekEnd => simp [seekTarget, hdata]
    | invalid => exact absurd rfl hvalid
  simp only [fileOps, stdioSeek, Kernel.lseek, htarget]
  generalize seekTarget a.data.length a.pos off whence = target
  by_cases hneg : target < 0
  · refine ⟨{ g with wbuf := none }, hdata, ?_⟩
    rw [if_neg (by omega : ¬0 ≤ target)]
    exact ⟨by simp [hneg], hrbuf, hflush.leaveWriting hpending⟩
  · refine ⟨{ g with
        cookie := { g.cookie with off := target.toNat }, wbuf := none, rbuf := none, eof := false },
      hdata, ?_⟩
    rw [if_pos (by omega : 0 ≤ target)]
    exact ⟨by simp [if_neg hneg], rfl, hflush.seeked hpending target.toNat false⟩

lemma ftello : Stdio.ftello fileOps f = a.pos := by
  have hnonneg : ¬(f.cookie.off : ℤ) < 0 := by omega
  have hseek : (fileOps.seek 0 .seekCur f).1 = f.cookie.off := by
    simp [fileOps, stdioSeek, Kernel.lseek, seekTarget, if_neg hnonneg]
  have hpos := h.pos
  simp only [Stdio.ftello, h.append, Bool.false_eq_true, false_and, if_false]
  cases hr : f.rbuf with
  | none =>
    rw [unread_of_none hr] at hpos
    simp only [isSome_none, Bool.false_eq_true, if_false]
    simp only [length_nil] at hpos
    omega
  | some u =>
    have hw : f.wbuf = none := by simpa [hr] using h.oneMode
    rw [pending_of_none hw, length_nil] at hpos
    simp only [isSome_some, if_true]
    omega

end Models

/-! ### Sequences of calls -/

/-- After a call the stream stands for the contents after it; and it has nothing read ahead, unless
it was left in reading mode. -/
lemma exec_models (h : Models f a) (c : Call) (hreading : reading = false → f.unread = [])
    (hwrites : c.writes = true → reading = false) :
    Models (exec c f).2 (a.after c (exec c f).1) ∧ Right a f (exec c f).2 c (exec c f).1 ∧
      (c.reading reading (exec c f).1 = false → (exec c f).2.unread = []) := by
  cases c with
  | fread size nmemb =>
    obtain ⟨bs, missing, g, hfread, hg, hbytes⟩ := h.freadBytes (size * nmemb % 2 ^ 64)
    simp only [exec, fread, hfread, Call.reading]
    exact ⟨hg, hbytes, fun hfalse => absurd hfalse (by decide)⟩
  | fgetc =>
    obtain ⟨bs, g, hfgetc, hone, hg, hbytes⟩ := h.fgetc
    have hlist : bs.head?.toList = bs := by
      match bs, hone with
      | [], _ => rfl
      | [c], _ => rfl
    simp only [exec, hfgetc, Call.reading, hlist]
    exact ⟨hg, hbytes, fun hfalse => absurd hfalse (by decide)⟩
  | fwrite w =>
    obtain ⟨g, hfwritex, hg, hr⟩ := h.fwritex (hreading (hwrites rfl)) w.bytes
    simp only [exec, fwrite, hfwritex, Right, if_true]
    exact ⟨hg, trivial, fun _ => unread_of_none hr⟩
  | fputc c =>
    obtain ⟨g, hfputc, hg, hr⟩ := h.fputc (hreading (hwrites rfl)) c
    simp only [exec, hfputc]
    exact ⟨hg, rfl, fun _ => unread_of_none hr⟩
  | fflush =>
    obtain ⟨g, hfflush, hg, hdata, hr⟩ := h.fflush
    simp only [exec, hfflush, Right, if_true]
    exact ⟨hg, ⟨trivial, hdata⟩, fun _ => unread_of_none hr⟩
  | fseek off whence =>
    by_cases hvalid : whence = .invalid
    · subst hvalid
      have hfail : fseeko fileOps off .invalid f = (false, f) := if_pos rfl
      simp [exec, hfail, Contents.after, Right, Call.reading, seekTarget, h]
      exact hreading
    · obtain ⟨g, hdata, hcases⟩ := h.fseeko off hvalid
      split_ifs at hcases with htarget
      · obtain ⟨hseek, hr, hg⟩ := hcases
        simp only [exec, hseek, Right, if_true]
        exact ⟨hg, ⟨iff_of_true trivial htarget, fun _ => hdata⟩, fun _ => unread_of_none hr⟩
      · obtain ⟨hseek, hr, hg⟩ := hcases
        have hunread : g.unread = f.unread := by rw [File.unread, hr, File.unread]
        simp [exec, hseek, Right, Call.reading, hunread]
        exact ⟨hg, ⟨by omega, fun _ => hdata⟩, hreading⟩

lemma faithful_of_models (cs : List Call) (h : Models f a) (hreading : reading = false → f.unread = [])
    (hcs : Separated reading cs f) : Faithful cs f a := by
  induction cs generalizing f a reading with
  | nil => exact h.ftello
  | cons c cs ih =>
    obtain ⟨hmodels, hright, hnext⟩ := exec_models h c hreading hcs.1
    exact ⟨h.ftello, hright, ih hmodels hnext hcs.2⟩

/-- With a successful `fseek` or an `fflush` between a read and a write, the program sees one file
with one position. -/
theorem stream_faithful (f : File Kernel) (hf : Fresh f) (cs : List Call) (hcs : Separated false cs f) :
    Faithful cs f ⟨f.cookie.data, f.cookie.off⟩ :=
  faithful_of_models cs hf.models (fun _ => unread_of_none hf.rbuf) hcs

/-- A stream on a file of three bytes, from which the kernel gives at most two at a time. -/
def threeBytes : File Kernel :=
  { noRead := false, noWrite := false, eof := false, err := false, append := false, rbuf := none,
    wbuf := none, bufSize := 4, lineBuf := true, cookie := ⟨[97, 98, 99], 0, fun _ => 1⟩ }

theorem stream_faithful_threeBytes :
    Faithful [.fgetc, .fseek 1 .seekSet, .fputc 88, .fseek (-1) .seekCur, .fread 2 2, .fflush] threeBytes
      ⟨[97, 98, 99], 0⟩ :=
  stream_faithful threeBytes ⟨rfl, rfl, rfl, rfl, rfl⟩ _
    ⟨by decide, by decide, by decide, by decide, by decide, by decide, trivial⟩

/-- Between a read and a later write there is an `fseek`, whatever it returns. -/
def seekBetween : Bool → List Call → Bool
  | _, [] => true
  | reading, c :: cs => !(c.writes && reading) && seekBetween (c.reading reading ⟨0, []⟩) cs

/-- If the `fseek` between them fails, the bytes that were read ahead are dropped, and the write
goes after them. -/
theorem failed_fseek_moves :
    Fresh threeBytes ∧ seekBetween false [.fgetc, .fseek (-5) .seekSet, .fputc 88, .fflush] = true ∧
      ¬Faithful [.fgetc, .fseek (-5) .seekSet, .fputc 88, .fflush] threeBytes ⟨[97, 98, 99], 0⟩ :=
  ⟨⟨rfl, rfl, rfl, rfl, rfl⟩, by decide, by decide⟩

end Musl.Stdio
