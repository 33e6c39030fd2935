import Musl.Stdio.File

/-!
# Streams of callbacks

`funopen` makes a stream out of a cookie and the caller's functions.  Its write hook passes on the
bytes it is called with and leaves the pending ones where they are, so `fflush` drops them; and the
two flags that say which direction is closed are exchanged.
-/

namespace Musl.Stdio

open List Option Nat

variable {κ : Type}

/-! ### The code -/

/-- The functions given to `funopen`.  `readfn` has a count as its result, and the bytes that it
stored. -/
structure Callbacks (κ : Type) where
  readfn : Option (κ → ℤ → ℤ × List UInt8 × κ)
  writefn : Option (κ → List UInt8 → ℤ → ℤ × κ)
  seekfn : Option (κ → ℤ → Whence → ℤ × κ)

/-- `struct fun_cookie` without the functions; `passed` are the bytes that `writefn` was called with
so far. -/
structure FunCookie (κ : Type) where
  cookie : κ
  passed : List UInt8
  deriving DecidableEq, Repr

/-- The conversion `(int)len`. -/
def toInt (len : ℕ) : ℤ := if len % 2 ^ 32 < 2 ^ 31 then len % 2 ^ 32 else len % 2 ^ 32 - 2 ^ 32

def funRead (cb : Callbacks κ) (len : ℕ) (f : File (FunCookie κ)) : List UInt8 × File (FunCookie κ) :=
  match cb.readfn with
  | none => ([], { f with err := true })
  | some readfn =>
    let r := readfn f.cookie.cookie (toInt len)
    let g := { f with cookie := { f.cookie with cookie := r.2.2 } }
    if r.1 < 0 then ([], { g with err := true })
    else if r.1 = 0 then ([], { g with eof := true })
    else (r.2.1.take r.1.toNat, g)

def funWrite (cb : Callbacks κ) (s : List UInt8) (f : File (FunCookie κ)) : ℕ × File (FunCookie κ) :=
  match cb.writefn with
  | none => (0, { f with err := true })
  | some writefn =>
    let r := writefn f.cookie.cookie s (toInt s.length)
    let g := { f with cookie := ⟨r.2, f.cookie.passed ++ s.take (toInt s.length).toNat⟩ }
    if r.1 < 0 then (0, { g with err := true }) else (r.1.toNat, g)

def funSeek (cb : Callbacks κ) (off : ℤ) (whence : Whence) (f : File (FunCookie κ)) :
    ℤ × File (FunCookie κ) :=
  match cb.seekfn with
  | none => (-1, f)
  | some seekfn =>
    let r := seekfn f.cookie.cookie off whence
    (r.1, { f with cookie := { f.cookie with cookie := r.2 } })

def funOps (cb : Callbacks κ) : Ops (FunCookie κ) := ⟨funRead cb, funWrite cb, funSeek cb⟩

/-- `funopen`, with memory for the stream; `bufSize` is `BUFSIZ`. -/
def funopen (cookie : κ) (cb : Callbacks κ) : Option (File (FunCookie κ)) :=
  if cb.readfn.isNone ∧ cb.writefn.isNone then none
  else some
    { noRead := cb.readfn.isSome ∧ cb.writefn.isNone
      noWrite := cb.writefn.isSome ∧ cb.readfn.isNone
      eof := false, err := false, append := false, rbuf := none, wbuf := none
      bufSize := 1024, lineBuf := false, cookie := ⟨cookie, []⟩ }

def fropen (cookie : κ) (readfn : κ → ℤ → ℤ × List UInt8 × κ) : Option (File (FunCookie κ)) :=
  funopen cookie ⟨some readfn, none, none⟩

def fwopen (cookie : κ) (writefn : κ → List UInt8 → ℤ → ℤ × κ) : Option (File (FunCookie κ)) :=
  funopen cookie ⟨none, some writefn, none⟩

/-! ### What is promised -/

/-- A sequence of `fwrite`s. -/
def fwriteAll (ops : Ops κ) (ws : List Items) (f : File κ) : File κ :=
  ws.foldl (fun g w => (fwrite ops w g).2) f

/-- The bytes that a sequence of `fread`s stores, each given with its size and number. -/
def freadAll (ops : Ops κ) : List (ℕ × ℕ) → File κ → List UInt8
  | [], _ => []
  | (size, nmemb) :: rs, f =>
    let r := fread ops size nmemb f
    r.2.1 ++ freadAll ops rs r.2.2

/-- Everything written before an `fflush` was passed to `writefn`, in order and once. -/
def PassesAll (cb : Callbacks κ) (ws : List Items) (f : File (FunCookie κ)) : Prop :=
  (fflush (funOps cb) (fwriteAll (funOps cb) ws f)).2.cookie.passed = f.cookie.passed ++
    (ws.map (·.bytes)).flatten

instance (cb : Callbacks κ) (ws : List Items) (f : File (FunCookie κ)) : Decidable (PassesAll cb ws f) :=
  inferInstanceAs (Decidable (_ = _))

/-- `source` are the bytes that `readfn` will still supply: a positive count up to the request while
there are some, and then 0. -/
def Supplies (readfn : κ → ℤ → ℤ × List UInt8 × κ) (source : κ → List UInt8) : Prop :=
  ∀ c n, (readfn c n).1 = (readfn c n).2.1.length ∧ (readfn c n).1 ≤ n.toNat ∧
    source c = (readfn c n).2.1 ++ source (readfn c n).2.2 ∧ (0 < n → (readfn c n).1 = 0 → source c = [])

def requested (rs : List (ℕ × ℕ)) : ℕ := (rs.map fun r => r.1 * r.2 % 2 ^ 64).sum

/-- The `fread`s get the bytes of the source, in order, as many as they ask for or until it ends. -/
def Delivers (cb : Callbacks κ) (source : κ → List UInt8) (rs : List (ℕ × ℕ))
    (f : File (FunCookie κ)) : Prop :=
  freadAll (funOps cb) rs f = (source f.cookie.cookie).take (requested rs)

instance (cb : Callbacks κ) (source : κ → List UInt8) (rs : List (ℕ × ℕ)) (f : File (FunCookie κ)) :
    Decidable (Delivers cb source rs f) :=
  inferInstanceAs (Decidable (_ = _))

/-- No request is cut short by the conversion to `int` while more bytes are left. -/
def RequestsFit : List (ℕ × ℕ) → List UInt8 → Prop
  | [], _ => True
  | (size, nmemb) :: rs, left =>
    let l := size * nmemb % 2 ^ 64
    (l < 2 ^ 31 ∨ left.length ≤ (toInt l).toNat) ∧ RequestsFit rs (left.drop l)

/-! ### Conversion to `int` -/

variable {l k : ℕ} {cb : Callbacks κ} {f : File (FunCookie κ)} {source : κ → List UInt8} {cookie : κ}

lemma toInt_of_lt (h : l < 2 ^ 31) : toInt l = l := by
  simp only [toInt]
  split <;> omega

lemma toInt_toNat_lt (h : ¬l < 2 ^ 31) : (toInt l).toNat < l := by
  simp only [toInt]
  split <;> omega

lemma toInt_sub (h : (k : ℤ) ≤ toInt l) : toInt (l - k) = toInt l - k := by
  simp only [toInt] at h ⊢
  split at h <;> split <;> omega

lemma toInt_sub_lt (hk : 0 < k) (h : (k : ℤ) ≤ toInt l) : l - k < 2 ^ 31 ↔ l < 2 ^ 31 := by
  simp only [toInt] at h
  split at h <;> omega

/-! ### Writing -/

/-- A stream in which bytes can be written, as `funopen` sets it up. -/
structure Writable (f : File (FunCookie κ)) : Prop where
  noWrite : f.noWrite = false
  bufSize : f.bufSize = 1024
  lineBuf : f.lineBuf = false

lemma funWrite_eq (h : cb.writefn.isSome) (s : List UInt8) (f : File (FunCookie κ)) :
    ∃ c e, (funWrite cb s f).2 =
      { f with cookie := ⟨c, f.cookie.passed ++ s.take (toInt s.length).toNat⟩, err := e } := by
  obtain ⟨writefn, hw⟩ := isSome_iff_exists.1 h
  simp only [funWrite, hw]
  split
  · exact ⟨_, _, rfl⟩
  · exact ⟨_, _, rfl⟩

lemma enterWriting_of_writable (hf : Writable f) :
    (enterWriting f).1 = false ∧ Writable (enterWriting f).2 ∧ (enterWriting f).2.wbuf = some f.pending ∧
      (enterWriting f).2.cookie = f.cookie := by
  obtain ⟨hno, hsize, hline⟩ := hf
  cases hw : f.wbuf with
  | none => simp [enterWriting, towrite, hw, hno, Writable.mk, hsize, hline]
  | some p => simp [enterWriting, File.pending, hw, Writable.mk, hno, hsize, hline]

lemma fwrite_passed (h : cb.writefn.isSome) (w : Items) (hf : Writable f) :
    Writable (fwrite (funOps cb) w f).2 ∧
    if 1024 - f.pending.length < w.bytes.length then (fwrite (funOps cb) w f).2.pending = f.pending ∧
      (fwrite (funOps cb) w f).2.cookie.passed = f.cookie.passed ++
      w.bytes.take (toInt w.bytes.length).toNat else
      (fwrite (funOps cb) w f).2.pending = f.pending ++ w.bytes ∧
      (fwrite (funOps cb) w f).2.cookie = f.cookie := by
  obtain ⟨hnot, ⟨hno, hsize, hline⟩, hbuf, hcookie⟩ := enterWriting_of_writable hf
  have hpending : (enterWriting f).2.pending = f.pending := by simp [File.pending, hbuf]
  simp only [fwrite, fwritex, hnot, bufferOrWrite, hsize, hline, hpending, Bool.false_eq_true, if_false]
  split_ifs with hlong
  · obtain ⟨c, e, hwrite⟩ := funWrite_eq h w.bytes (enterWriting f).2
    simp [funOps, hwrite, Writable.mk, hno, hsize, hline, File.pending, hbuf, hcookie]
  · simp [File.store, File.pending, hbuf, hcookie, Writable.mk, hno, hsize, hline]

lemma fwriteAll_cons (ops : Ops κ) (w : Items) (ws : List Items) (f : File κ) :
    fwriteAll ops (w :: ws) f = fwriteAll ops ws (fwrite ops w f).2 := rfl

section

variable (h : cb.writefn.isSome) (ws : List Items) (hf : Writable f)

include h hf

lemma fwriteAll_passed_length :
    (fwriteAll (funOps cb) ws f).cookie.passed.length ≤
    f.cookie.passed.length + (ws.map (·.bytes)).flatten.length := by
  induction ws generalizing f with
  | nil => simp [fwriteAll]
  | cons w ws ih =>
    obtain ⟨hwritable, hpassed⟩ := fwrite_passed h w hf
    have hrest := ih hwritable
    have hhead : (fwrite (funOps cb) w f).2.cookie.passed.length ≤
        f.cookie.passed.length + w.bytes.length := by
      split_ifs at hpassed
      · rw [hpassed.2, length_append, length_take]
        omega
      · rw [hpassed.2]
        omega
    rw [fwriteAll_cons, map_cons, flatten_cons, length_append]
    omega

lemma fwriteAll_passed_iff :
    (fwriteAll (funOps cb) ws f).cookie.passed = f.cookie.passed ++ (ws.map (·.bytes)).flatten ↔
      ∀ w ∈ ws, w.bytes = [] ∨ (1024 - f.pending.length < w.bytes.length ∧ w.bytes.length < 2 ^ 31) := by
  induction ws generalizing f with
  | nil => simp [fwriteAll]
  | cons w ws ih =>
    obtain ⟨hwritable, hpassed⟩ := fwrite_passed h w hf
    have hlength := fwriteAll_passed_length h ws hwritable
    have hrest := ih hwritable
    rw [fwriteAll_cons, map_cons, flatten_cons, forall_mem_cons, ← append_assoc]
    split_ifs at hpassed with hlong
    · rw [hpassed.1, hpassed.2] at hrest
      rw [hpassed.2, length_append, length_take] at hlength
      have hne : w.bytes ≠ [] := by
        intro hnil
        simp [hnil] at hlong
      by_cases hfits : w.bytes.length < 2 ^ 31
      · rw [toInt_of_lt hfits, Int.toNat_natCast, take_length] at hrest
        rw [hrest]
        exact ⟨fun hall => ⟨.inr ⟨hlong, hfits⟩, hall⟩, And.right⟩
      · -- The count was cut, and what is missing does not come later.
        have hcut := toInt_toNat_lt hfits
        constructor
        · intro hall
          rw [hall, length_append, length_append] at hlength
          omega
        · intro hall
          exact absurd hall.1 (not_or.2 ⟨hne, fun hshort => hfits hshort.2⟩)
    · rw [hpassed.1, hpassed.2] at hrest
      rw [hpassed.2] at hlength
      by_cases hnil : w.bytes = []
      · rw [hnil] at hrest
        rw [hnil, append_nil, hrest]
        simp
      · -- The bytes are in the buffer, where the hook does not look.
        have hpos := length_pos_iff.2 hnil
        constructor
        · intro hall
          rw [hall, length_append, length_append] at hlength
          omega
        · intro hall
          exact absurd hall.1 (not_or.2 ⟨hnil, fun hshort => hlong hshort.1⟩)

end

lemma fflush_passed (h : cb.writefn.isSome) (f : File (FunCookie κ)) :
    (fflush (funOps cb) f).2.cookie.passed = f.cookie.passed := by
  have hflush : (flushPending (funOps cb) f).cookie.passed = f.cookie.passed := by
    obtain ⟨c, e, hwrite⟩ := funWrite_eq h [] f
    simp only [flushPending, funOps, hwrite]
    split <;> simp
  have hseek : ∀ g : File (FunCookie κ), ∀ off whence,
      ((funOps cb).seek off whence g).2.cookie.passed = g.cookie.passed := by
    intro g off whence
    simp only [funOps, funSeek]
    split <;> rfl
  simp only [fflush]
  split_ifs
  · exact hflush
  · exact hflush
  · exact (hseek _ _ _).trans hflush

lemma fwriteAll_closed (ops : Ops κ) (ws : List Items) {f : File κ} (hno : f.noWrite = true)
    (hbuf : f.wbuf = none) :
    (fwriteAll ops ws f).cookie = f.cookie := by
  induction ws generalizing f with
  | nil => rfl
  | cons w ws ih =>
    have hfwrite : (fwrite ops w f).2 = { f with err := true } := by
      simp [fwrite, fwritex, enterWriting, towrite, hbuf, hno]
    rw [fwriteAll_cons, hfwrite]
    exact ih hno hbuf

/-! ### Reading -/

/-- A stream in which bytes can be read, with nothing in its buffer. -/
structure Readable (f : File κ) : Prop where
  noRead : f.noRead = false
  unread : f.unread = []
  wbuf : f.wbuf = none

lemma toread_of_readable (ops : Ops κ) {f : File κ} {e : Bool} (hf : Readable f) (he : f.eof = e) :
    toread ops f = (e, { f with rbuf := some [] }) := by
  obtain ⟨hno, -, hbuf⟩ := hf
  simp [toread, hno, ← hbuf, he]

lemma funRead_supplied {readfn} (hread : cb.readfn = some readfn) (hsource : Supplies readfn source)
    (l : ℕ) (hf : Readable f) (heof : f.eof = false) :
    ∃ bs g, funRead cb l f = (bs, g) ∧ Readable g ∧ bs.length ≤ (toInt l).toNat ∧
      source f.cookie.cookie = bs ++ source g.cookie.cookie ∧ g.eof = decide (bs = []) ∧
      (0 < toInt l → bs = [] → source f.cookie.cookie = []) := by
  obtain ⟨hno, hunread, hbuf⟩ := hf
  obtain ⟨hret, hle, hsplit, hend⟩ := hsource f.cookie.cookie (toInt l)
  generalize hr : readfn f.cookie.cookie (toInt l) = r at hret hle hsplit hend
  obtain ⟨ret, bs, c⟩ := r
  dsimp only at hret hle hsplit hend
  subst hret
  refine ⟨bs, { f with cookie := { f.cookie with cookie := c }, eof := decide (bs = []) }, ?_,
    ⟨hno, hunread, hbuf⟩,
    by omega, hsplit, rfl, fun hpos hnil => hend hpos (by simp [hnil])⟩
  cases bs with
  | nil => simp [funRead, hread, hr]
  | cons b bs =>
    have hret : ¬((b :: bs).length : ℤ) < 0 ∧ ((b :: bs).length : ℤ) ≠ 0 := by
      rw [length_cons]
      omega
    simp only [funRead, hread, hr, if_neg hret.1, if_neg hret.2]
    simp [heof]

lemma readLoop_supplied {readfn} (hread : cb.readfn = some readfn)
    (hsource : Supplies readfn source) (fuel l : ℕ)
    (hfuel : l ≤ fuel) (hf : Readable f) (heof : f.eof = false) :
    ∃ missing g, readLoop (funOps cb) fuel l f = ((source f.cookie.cookie).take (toInt l).toNat,
      missing, g) ∧
      Readable g ∧ source g.cookie.cookie = (source f.cookie.cookie).drop (toInt l).toNat ∧
      (g.eof = false ↔ l < 2 ^ 31 ∧ l ≤ (source f.cookie.cookie).length) := by
  induction fuel generalizing l f with
  | zero =>
    obtain rfl : l = 0 := by omega
    exact ⟨0, f, by simp [readLoop, toInt], hf, by simp [toInt], by simp [heof]⟩
  | succ fuel ih =>
    by_cases hl : l = 0
    · subst hl
      exact ⟨0, f, by simp [readLoop, toInt], hf, by simp [toInt], by simp [heof]⟩
    have htoread : Readable { f with rbuf := some [] } := ⟨hf.noRead, rfl, hf.wbuf⟩
    obtain ⟨bs, g, hcall, hg, hle, hsplit, hgeof, hend⟩ := funRead_supplied hread hsource l htoread heof
    have hstep := readLoop_step (funOps cb) fuel hl (toread_of_readable _ hf heof) hcall
    by_cases hnil : bs = []
    · -- 0 from `readfn`: the source is empty, or the converted request is not positive.
      have hnone : (toInt l).toNat = 0 ∨ source f.cookie.cookie = [] := by
        by_cases hpos : 0 < toInt l
        · exact .inr (hend hpos hnil)
        · exact .inl (by omega)
      have hshort : ¬(l < 2 ^ 31 ∧ l ≤ (source f.cookie.cookie).length) := by
        rintro ⟨hlt, hlen⟩
        rw [hend (by rw [toInt_of_lt hlt]; omega) hnil] at hlen
        exact hl (le_zero.1 hlen)
      subst hnil
      rw [hstep]
      refine ⟨l, g, ?_, hg, ?_, iff_of_false (by simp [hgeof]) hshort⟩
      · rcases hnone with h | h <;> simp [h]
      · rw [← nil_append (source g.cookie.cookie), ← hsplit]
        rcases hnone with h | h <;> simp [h]
    · have hpos := length_pos_iff.2 hnil
      have hle' : bs.length ≤ toInt l := by omega
      obtain ⟨missing, g', hloop, hreadable, hdrop, heof'⟩ :=
        ih (l - bs.length) (by omega) hg (by simp [hgeof, hnil])
      have hcount : (toInt l).toNat = bs.length + (toInt (l - bs.length)).toNat := by
        rw [toInt_sub hle']
        omega
      rw [hstep, if_neg hnil, hloop]
      refine ⟨missing, g', ?_, hreadable, ?_, ?_⟩
      · rw [hsplit, hcount, take_length_add_append]
      · rw [hdrop, hsplit, hcount, drop_length_add_append]
      · have hlt := toInt_sub_lt hpos hle'
        rw [heof', hsplit, length_append]
        omega

structure Closed (f : File κ) : Prop where
  noRead : f.noRead = true ∨ f.eof = true
  unread : f.unread = []
  wbuf : f.wbuf = none

lemma toread_of_closed (ops : Ops κ) {f : File κ} (hf : Closed f) :
    (toread ops f).1 = true ∧ Closed (toread ops f).2 := by
  obtain ⟨hno, hunread, hbuf⟩ := hf
  simp only [toread, flushPending_of_nil ops (pending_of_none hbuf)]
  cases hread : f.noRead with
  | true => exact ⟨rfl, .inl rfl, hunread, rfl⟩
  | false =>
    have heof : f.eof = true := by simpa [hread] using hno
    exact ⟨heof, .inr heof, rfl, rfl⟩

lemma freadAll_closed (ops : Ops κ) (rs : List (ℕ × ℕ)) {f : File κ} (hf : Closed f) :
    freadAll ops rs f = [] := by
  induction rs generalizing f with
  | nil => rfl
  | cons r rs ih =>
    obtain ⟨size, nmemb⟩ := r
    have hstep : ∃ missing g, readLoop ops (size * nmemb % 2 ^ 64) (size * nmemb % 2 ^ 64) f = ([],
      missing, g) ∧
        Closed g := by
      cases size * nmemb % 2 ^ 64 with
      | zero => exact ⟨0, f, rfl, hf⟩
      | succ l =>
        obtain ⟨htoread, hg⟩ := toread_of_closed ops hf
        exact ⟨l + 1, _, by simp [readLoop, htoread], hg⟩
    obtain ⟨missing, g, hloop, hg⟩ := hstep
    simp only [freadAll, fread, freadBytes_of_unread_nil ops _ hf.unread, hloop, ih hg, append_nil]

lemma requested_cons (size nmemb : ℕ) (rs : List (ℕ × ℕ)) :
    requested ((size, nmemb) :: rs) = size * nmemb % 2 ^ 64 + requested rs := by
  simp [requested]

lemma requestsFit_nil (rs : List (ℕ × ℕ)) : RequestsFit rs [] := by
  induction rs with
  | nil => trivial
  | cons r rs ih => exact ⟨.inr (zero_le _), by rwa [drop_nil]⟩

lemma requestsFit_of_requested_zero {rs : List (ℕ × ℕ)} (h : requested rs = 0) (left : List UInt8) :
    RequestsFit rs left := by
  induction rs generalizing left with
  | nil => trivial
  | cons r rs ih =>
    rw [requested_cons] at h
    exact ⟨.inl (by omega), ih (by omega) _⟩

lemma freadAll_delivers_iff {readfn} (hread : cb.readfn = some readfn) (hsource : Supplies readfn source)
    (rs : List (ℕ × ℕ)) (hf : Readable f) (heof : f.eof = false) :
    Delivers cb source rs f ↔ RequestsFit rs (source f.cookie.cookie) := by
  induction rs generalizing f with
  | nil => simp [Delivers, freadAll, requested, RequestsFit]
  | cons r rs ih =>
    obtain ⟨size, nmemb⟩ := r
    generalize hl : size * nmemb % 2 ^ 64 = l
    obtain ⟨missing, g, hloop, hg, hdrop, hgeof⟩ := readLoop_supplied hread hsource l l le_rfl hf heof
    have hhead : freadAll (funOps cb) ((size, nmemb) :: rs) f =
        (source f.cookie.cookie).take (toInt l).toNat ++ freadAll (funOps cb) rs g := by
      simp only [freadAll, fread, hl, freadBytes_of_unread_nil _ _ hf.unread, hloop]
    simp only [Delivers, RequestsFit, hhead, requested_cons, hl]
    by_cases hfull : l < 2 ^ 31 ∧ l ≤ (source f.cookie.cookie).length
    · have hrest := ih hg (hgeof.2 hfull)
      rw [toInt_of_lt hfull.1, Int.toNat_natCast] at hdrop ⊢
      rw [Delivers, hdrop] at hrest
      rw [take_add, append_cancel_left_eq, hrest]
      exact ⟨fun hfit => ⟨.inl hfull.1, hfit⟩, And.right⟩
    · -- The stream is at its end now; whatever the source still has is lost.
      have hgclosed : Closed g :=
        ⟨.inr (Bool.eq_true_of_not_eq_false fun hopen => hfull (hgeof.1 hopen)), hg.unread, hg.wbuf⟩
      rw [freadAll_closed _ rs hgclosed, append_nil]
      by_cases hlt : l < 2 ^ 31
      · have hlen : (source f.cookie.cookie).length ≤ l := by omega
        rw [toInt_of_lt hlt, Int.toNat_natCast, take_of_length_le hlen, take_of_length_le (by omega),
          drop_of_length_le hlen]
        exact iff_of_true rfl ⟨.inl hlt, requestsFit_nil rs⟩
      · have hcut := toInt_toNat_lt hlt
        constructor
        · intro hall
          have hlen := congrArg length hall
          rw [length_take, length_take] at hlen
          have hle : (source f.cookie.cookie).length ≤ (toInt l).toNat := by omega
          rw [drop_of_length_le (by omega)]
          exact ⟨.inr hle, requestsFit_nil rs⟩
        · intro hall
          have hle : (source f.cookie.cookie).length ≤ (toInt l).toNat := hall.1.resolve_left hlt
          rw [take_of_length_le hle, take_of_length_le (by omega)]

/-! ### The stream that `funopen` returns -/

lemma funopen_passesAll_iff (hopen : funopen cookie cb = some f) (hw : cb.writefn.isSome)
    (ws : List Items) :
    PassesAll cb ws f ↔ (∀ w ∈ ws, w.bytes = []) ∨
      (cb.readfn.isSome ∧ ∀ w ∈ ws,
        w.bytes = [] ∨ (1024 < w.bytes.length ∧ w.bytes.length < 2 ^ 31)) := by
  have hnone : cb.writefn.isNone = false := by simpa using hw
  simp only [funopen, hnone, Bool.false_eq_true, and_false, if_false, some.injEq] at hopen
  rw [PassesAll, fflush_passed hw]
  cases hr : cb.readfn with
  | none =>
    have hclosed : f.noWrite = true ∧ f.wbuf = none := by simp [← hopen, hw, hr]
    rw [fwriteAll_closed _ ws hclosed.1 hclosed.2, self_eq_append_right]
    simp
  | some readfn =>
    have hwritable : Writable f := by
      subst hopen
      exact ⟨by simp [hr], rfl, rfl⟩
    have hpending : f.pending = [] := pending_of_none (by rw [← hopen])
    rw [fwriteAll_passed_iff hw ws hwritable, hpending]
    simp only [length_nil, isSome_some, true_and]
    constructor
    · exact .inr
    · intro hall
      rcases hall with hnil | hlong
      · exact fun w hmem => .inl (hnil w hmem)
      · exact hlong

lemma funopen_delivers_iff (hopen : funopen cookie cb = some f) {readfn} (hr : cb.readfn = some readfn)
    (hsource : Supplies readfn source) (rs : List (ℕ × ℕ)) : Delivers cb source rs f ↔
      (source cookie = [] ∨ requested rs = 0) ∨ (cb.writefn.isSome ∧ RequestsFit rs (source cookie)) := by
  simp only [funopen, hr, isNone_some, Bool.false_eq_true, false_and, if_false, some.injEq] at hopen
  have hcookie : f.cookie.cookie = cookie := by rw [← hopen]
  cases hw : cb.writefn with
  | none =>
    have hclosed : Closed f := by
      subst hopen
      exact ⟨.inl (by simp [hw]), rfl, rfl⟩
    rw [Delivers, freadAll_closed _ rs hclosed, hcookie, eq_comm, take_eq_nil_iff, or_comm]
    simp
  | some writefn =>
    have hreadable : Readable f := by
      subst hopen
      exact ⟨by simp [hw], rfl, rfl⟩
    rw [freadAll_delivers_iff hr hsource rs hreadable (by rw [← hopen]), hcookie]
    simp only [isSome_some, true_and]
    constructor
    · exact .inr
    · intro hall
      rcases hall with (hnil | hzero) | hfit
      · rw [hnil]
        exact requestsFit_nil rs
      · exact requestsFit_of_requested_zero hzero _
      · exact hfit

/-- A stream of callbacks carries its data exactly if both callbacks are given, no `fwrite` fits
into the buffer and no count is cut by the conversion to `int`; or if there is nothing to carry. -/
theorem funopen_iff (cookie : κ) (cb : Callbacks κ) (f : File (FunCookie κ))
    (hopen : funopen cookie cb = some f) :
    (cb.writefn.isSome → ∀ ws, PassesAll cb ws f ↔ (∀ w ∈ ws, w.bytes = []) ∨
        (cb.readfn.isSome ∧ ∀ w ∈ ws, w.bytes = [] ∨ (1024 < w.bytes.length ∧ w.bytes.length < 2 ^ 31))) ∧
    ∀ readfn source, cb.readfn = some readfn → Supplies readfn source → ∀ rs, Delivers cb source rs f ↔
      (source cookie = [] ∨ requested rs = 0) ∨ (cb.writefn.isSome ∧ RequestsFit rs (source cookie)) := by
  constructor
  · intro hw ws
    exact funopen_passesAll_iff hopen hw ws
  · intro readfn source hr hsource rs
    exact funopen_delivers_iff hopen hr hsource rs

/-- Callbacks on a list of bytes: reading takes them off one at a time, writing accepts everything. -/
def queueRead (c : List UInt8) (n : ℤ) : ℤ × List UInt8 × List UInt8 :=
  if n ≤ 0 then (0, [], c) else ((c.take 1).length, c.take 1, c.drop 1)

def queueWrite (c : List UInt8) (_ : List UInt8) (n : ℤ) : ℤ × List UInt8 := (n, c)

def queueFile (noRead noWrite : Bool) (c : List UInt8) : File (FunCookie (List UInt8)) :=
  { noRead := noRead, noWrite := noWrite, eof := false, err := false, append := false, rbuf := none,
    wbuf := none, bufSize := 1024, lineBuf := false, cookie := ⟨c, []⟩ }

lemma queueRead_supplies : Supplies queueRead id := by
  intro c n
  by_cases hn : n ≤ 0
  · simp [queueRead, hn]
  · cases c with
    | nil => simp [queueRead]
    | cons b c =>
      simp [queueRead, hn]
      omega

theorem funopen_iff_queue : PassesAll ⟨some queueRead, some queueWrite, none⟩
      [⟨1, 1025, List.replicate 1025 7, length_replicate.trans (by decide)⟩]
      (queueFile false false [1, 2, 3]) ∧
    Delivers ⟨some queueRead, some queueWrite, none⟩ id [(1, 2), (4, 5)]
    (queueFile false false [1, 2, 3]) := by
  obtain ⟨hwrite, hread⟩ := funopen_iff [1, 2, 3] ⟨some queueRead, some queueWrite, none⟩
    (queueFile false false [1, 2, 3]) rfl
  constructor
  · rw [hwrite rfl]
    refine .inr ⟨rfl, fun w hmem => .inr ?_⟩
    rw [mem_singleton.1 hmem, length_replicate]
    decide
  · rw [hread queueRead id rfl queueRead_supplies]
    exact .inr ⟨rfl, by simp [RequestsFit]⟩

/-- Three bytes written are lost if both callbacks are given, and if only `writefn` is; and with
`readfn` alone nothing can be read. -/
theorem funopen_loses_bytes :
    funopen [] ⟨some queueRead, some queueWrite, none⟩ = some (queueFile false false []) ∧
    ¬PassesAll ⟨some queueRead, some queueWrite, none⟩ [⟨1, 3, [1, 2, 3], rfl⟩]
    (queueFile false false []) ∧
    fwopen [] queueWrite = some (queueFile false true []) ∧
    ¬PassesAll ⟨none, some queueWrite, none⟩ [⟨1, 3, [1, 2, 3], rfl⟩] (queueFile false true []) ∧
    fropen [1, 2, 3] queueRead = some (queueFile true false [1, 2, 3]) ∧
    ¬Delivers ⟨some queueRead, none, none⟩ id [(1, 3)] (queueFile true false [1, 2, 3]) := by
  decide

end Musl.Stdio
