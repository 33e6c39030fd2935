import Mathlib.Algebra.Order.Ring.Int
import Mathlib.Data.List.TakeDrop

/-!
# Streams

A `FILE` is a buffer between the caller and three hooks, `f->read`, `f->write` and `f->seek`.  The
buffer is either in reading mode, with the unread bytes between `rpos` and `rend`, or in writing
mode, with the pending bytes between `wbase` and `wpos`, or in none.  The write hook is the one that
has to take the pending bytes along: `f->write(f, s, l)` means the pending bytes and then `s`.

The functions here are the same for every stream; `Ops` are the hooks.
-/

namespace Musl.Stdio

open List

/-- The argument `whence` of a seek. -/
inductive Whence where
  | seekSet
  | seekCur
  | seekEnd
  | invalid
  deriving DecidableEq, Repr

/-- `FILE`: `rbuf` are the bytes from `rpos` to `rend`, missing if `rend` is null, and `wbuf` those
from `wbase` to `wpos`, missing if `wend` is null.  `lineBuf` says that `lbf` is `'\n'` and not
`EOF`. -/
structure File (κ : Type) where
  noRead : Bool
  noWrite : Bool
  eof : Bool
  err : Bool
  append : Bool
  rbuf : Option (List UInt8)
  wbuf : Option (List UInt8)
  bufSize : ℕ
  lineBuf : Bool
  cookie : κ
  deriving DecidableEq, Repr

/-- The hooks.  `read` gives the bytes it stored, `write` and `seek` what they return. -/
structure Ops (κ : Type) where
  read : ℕ → File κ → List UInt8 × File κ
  write : List UInt8 → File κ → ℕ × File κ
  seek : ℤ → Whence → File κ → ℤ × File κ

/-- An array of `nmemb` objects for `fwrite`; the product of `size_t` may wrap. -/
structure Items where
  size : ℕ
  nmemb : ℕ
  bytes : List UInt8
  length_eq : bytes.length = size * nmemb % 2 ^ 64

variable {κ : Type}

/-- The bytes between `rpos` and `rend`. -/
def File.unread (f : File κ) : List UInt8 := f.rbuf.getD []

/-- The bytes between `wbase` and `wpos`. -/
def File.pending (f : File κ) : List UInt8 := f.wbuf.getD []

/-- `memcpy(f->wpos, s, l); f->wpos += l` -/
def File.store (f : File κ) (s : List UInt8) : File κ := { f with wbuf := f.wbuf.map (· ++ s) }

/-- `if (f->wpos != f->wbase) f->write(f, 0, 0)` -/
def flushPending (ops : Ops κ) (f : File κ) : File κ := if f.pending = [] then f else (ops.write [] f).2

/-- `__toread`; the result says whether it is `EOF`. -/
def toread (ops : Ops κ) (f : File κ) : Bool × File κ :=
  let g := { flushPending ops f with wbuf := none }
  if g.noRead then (true, { g with err := true }) else (g.eof, { g with rbuf := some [] })

def towrite (f : File κ) : Bool × File κ :=
  if f.noWrite then (true, { f with err := true }) else (false, { f with rbuf := none, wbuf := some [] })

/-- `!f->wend && __towrite(f)` -/
def enterWriting (f : File κ) : Bool × File κ := if f.wbuf.isSome then (false, f) else towrite f

/-- `for (i=l; i && s[i-1] != '\n'; i--);` -/
def lastLine (s : List UInt8) : ℕ → ℕ
  | 0 => 0
  | i + 1 => if s.getD i 0 = 10 then i + 1 else lastLine s i

/-- `__fwritex`, once the stream is in writing mode. -/
def bufferOrWrite (ops : Ops κ) (s : List UInt8) (f : File κ) : ℕ × File κ :=
  let i := if f.lineBuf then lastLine s s.length else 0
  if f.bufSize - f.pending.length < s.length then ops.write s f
  else if i = 0 then (s.length, f.store s)
  else
    let r := ops.write (s.take i) f
    if r.1 < i then r else (s.length, r.2.store (s.drop i))

def fwritex (ops : Ops κ) (s : List UInt8) (f : File κ) : ℕ × File κ :=
  let t := enterWriting f
  if t.1 then (0, t.2) else bufferOrWrite ops s t.2

def fwrite (ops : Ops κ) (w : Items) (f : File κ) : ℕ × File κ :=
  let r := fwritex ops w.bytes f
  (if r.1 = w.bytes.length then (if w.size = 0 then 0 else w.nmemb) else r.1 / w.size, r.2)

/-- `__overflow`; `none` is `EOF`. -/
def overflow (ops : Ops κ) (c : UInt8) (f : File κ) : Option UInt8 × File κ :=
  let t := enterWriting f
  if t.1 then (none, t.2)
  else if t.2.pending.length ≠ t.2.bufSize ∧ ¬(t.2.lineBuf ∧ c = 10) then (some c, t.2.store [c])
  else
    let r := ops.write [c] t.2
    (if r.1 = 1 then some c else none, r.2)

/-- `putc_unlocked`: outside writing mode `wpos` and `wend` are both null. -/
def fputc (ops : Ops κ) (c : UInt8) (f : File κ) : Option UInt8 × File κ :=
  if ¬(f.lineBuf ∧ c = 10) ∧ f.wbuf.isSome ∧ f.pending.length ≠ f.bufSize then (some c, f.store [c])
  else overflow ops c f

/-- The loop of `fread`: the bytes stored, how many are still missing, and the stream. -/
def readLoop (ops : Ops κ) : ℕ → ℕ → File κ → List UInt8 × ℕ × File κ
  | 0, l, f => ([], l, f)
  | fuel + 1, l, f =>
    if l = 0 then ([], 0, f)
    else
      let t := toread ops f
      if t.1 then ([], l, t.2)
      else
        let r := ops.read l t.2
        if r.1 = [] then ([], l, r.2)
        else
          let q := readLoop ops fuel (l - r.1.length) r.2
          (r.1 ++ q.1, q.2)

/-- The bytes that `fread` stores for a request of `len` bytes, how many are missing, and the
stream.  Every iteration reads a byte at least. -/
def freadBytes (ops : Ops κ) (len : ℕ) (f : File κ) : List UInt8 × ℕ × File κ :=
  let k := min f.unread.length len
  let q := readLoop ops (len - k) (len - k) { f with rbuf := f.rbuf.map (·.drop k) }
  (f.unread.take k ++ q.1, q.2)

def fread (ops : Ops κ) (size nmemb : ℕ) (f : File κ) : ℕ × List UInt8 × File κ :=
  let len := size * nmemb % 2 ^ 64
  let q := freadBytes ops len f
  (if q.2.1 = 0 then (if size = 0 then 0 else nmemb) else (len - q.2.1) / size, q.1, q.2.2)

/-- `__uflow`; `none` is `EOF`. -/
def uflow (ops : Ops κ) (f : File κ) : Option UInt8 × File κ :=
  let t := toread ops f
  if t.1 then (none, t.2)
  else
    let r := ops.read 1 t.2
    (r.1.head?, r.2)

/-- `getc_unlocked` -/
def fgetc (ops : Ops κ) (f : File κ) : Option UInt8 × File κ :=
  match f.unread with
  | c :: rest => (some c, { f with rbuf := some rest })
  | [] => uflow ops f

/-- `fflush`; `false` is `EOF`. -/
def fflush (ops : Ops κ) (f : File κ) : Bool × File κ :=
  let g := flushPending ops f
  if f.pending ≠ [] ∧ g.wbuf = none then (false, g)
  else
    let h := if g.unread = [] then g else (ops.seek (-g.unread.length) .seekCur g).2
    (true, { h with wbuf := none, rbuf := none })

/-- `__fseeko_unlocked`; `false` is -1. -/
def fseeko (ops : Ops κ) (off : ℤ) (whence : Whence) (f : File κ) : Bool × File κ :=
  if whence = .invalid then (false, f)
  else
    let g := flushPending ops f
    let off := if whence = .seekCur ∧ f.rbuf.isSome then off - f.unread.length else off
    if f.pending ≠ [] ∧ g.wbuf = none then (false, g)
    else
      let r := ops.seek off whence { g with wbuf := none }
      if r.1 < 0 then (false, r.2) else (true, { r.2 with rbuf := none, eof := false })

/-- `__ftello_unlocked` -/
def ftello (ops : Ops κ) (f : File κ) : ℤ :=
  let pos := (ops.seek 0 (if f.append ∧ f.pending ≠ [] then .seekEnd else .seekCur) f).1
  if pos < 0 then pos
  else if f.rbuf.isSome then pos - f.unread.length
  else pos + f.pending.length

variable {f : File κ}

@[simp] lemma flushPending_of_nil (ops : Ops κ) (h : f.pending = []) : flushPending ops f = f := by
  simp [flushPending, if_pos h]

@[simp] lemma pending_of_none (h : f.wbuf = none) : f.pending = [] := by
  simp [File.pending, h]

lemma readLoop_step (ops : Ops κ) (fuel : ℕ) {l : ℕ} {t g : File κ} {bs : List UInt8} (hl : l ≠ 0)
    (htoread : toread ops f = (false, t)) (hread : ops.read l t = (bs, g)) :
    readLoop ops (fuel + 1) l f = if bs = [] then ([], l, g) else
      (bs ++ (readLoop ops fuel (l - bs.length) g).1, (readLoop ops fuel (l - bs.length) g).2) := by
  simp [readLoop, if_neg hl, htoread, hread]

lemma freadBytes_of_unread_nil (ops : Ops κ) (len : ℕ) (h : f.unread = []) :
    freadBytes ops len f = readLoop ops len len f := by
  have hmap : f.rbuf.map (·.drop 0) = f.rbuf := by simp
  simp [freadBytes, h]

end Musl.Stdio
