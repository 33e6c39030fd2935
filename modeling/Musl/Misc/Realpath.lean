import Musl.Lib.Buffer
import Musl.Lib.PathResolution

/-!
# `realpath`

The path that is not yet resolved is a string at the end of the buffer `stack`, from `p` on.  Each
round of the loop takes a component off it and appends the component to `output`, which has `q`
bytes, to ask `readlink` about it.  The text of a link is put back in front of what is left.  A
relative path begins with `nup` times `..` in `output`; that part is applied to the working
directory at the end.  `check_dir` says that it is not yet known whether `output` is a directory.

An access outside of a buffer has no value.
-/

namespace Musl.Realpath

open Musl.Lib.Path Musl.Lib.Buffer List Option Nat

/-! ### The file system -/

inductive Errno
  | einval
  | enoent
  | enotdir
  | eloop
  | enametoolong
  | erange
deriving DecidableEq

structure IsName (n : Text) : Prop where
  ne_nil : n ≠ []
  ne_dot : n ≠ dot
  ne_dotdot : n ≠ dotdot
  slash : Lib.Path.slash ∉ n
  nul : 0 ∉ n

/-- A file system and a working directory; the path of the latter has no links. -/
structure System where
  root : Node
  cwd : List Text
  cwd_names : ∀ n ∈ cwd, IsName n
  cwd_dir : IsDir root cwd

def joined : List Text → Text
  | [] => []
  | [n] => n
  | n :: m :: ns => n ++ slash :: joined (m :: ns)

def pathText (ns : List Text) : Text := slash :: joined ns

def Node.isDirAt (root : Node) (ns : List Text) : Bool := (root.find ns).any Node.isDir

/-- The path walk of the kernel up to a link, with what it does from there. -/
def walkNames (root : Node) (follow : List Text → List Token → Except Errno (List Text)) :
    List Text → List Token → Except Errno (List Text)
  | ns, [] => .ok ns
  | ns, .slash :: ts => if Node.isDirAt root ns then walkNames root follow ns ts else .error .enotdir
  | ns, .name n :: ts =>
    if Node.isDirAt root ns = false then .error .enotdir
    else if n = dot then walkNames root follow ns ts
    else if n = dotdot then walkNames root follow ns.dropLast ts
    else
      match root.find (ns ++ [n]) with
      | none => .error .enoent
      | some (.link t _) => follow (start ns t) (tokens t ++ ts)
      | some _ => walkNames root follow (ns ++ [n]) ts

/-- The path walk of the kernel, which follows at most `links` links. -/
def walk (root : Node) : ℕ → List Text → List Token → Except Errno (List Text)
  | 0 => walkNames root fun _ _ => .error .eloop
  | links + 1 => walkNames root (walk root links)

lemma exists_walkNames (root : Node) (links : ℕ) : ∃ follow, walk root links = walkNames root follow := by
  cases links with
  | zero => exact ⟨_, rfl⟩
  | succ links => exact ⟨_, rfl⟩

@[simp] lemma walk_nil (root : Node) (links : ℕ) (ns : List Text) : walk root links ns [] = .ok ns := by
  obtain ⟨follow, hwalk⟩ := exists_walkNames root links
  rw [hwalk, walkNames]

def maxSymlinks : ℕ := 40

namespace System

variable (sys : System)

/-- What `readlink` finds: the text of a link, which is not followed. -/
def readlink (path : Text) : Except Errno Text :=
  let ts := tokens path
  match ts.getLast? with
  | some (.name n) =>
    if n = dot ∨ n = dotdot then (walk sys.root maxSymlinks (start sys.cwd path) ts).bind fun _ =>
      .error .einval
    else
      (walk sys.root maxSymlinks (start sys.cwd path) ts.dropLast).bind fun ns =>
        if Node.isDirAt sys.root ns = false then .error .enotdir
        else
          match sys.root.find (ns ++ [n]) with
          | none => .error .enoent
          | some (.link t _) => .ok t
          | some _ => .error .einval
  | _ => (walk sys.root maxSymlinks (start sys.cwd path) ts).bind fun _ => .error .einval

def cwdText : Text := pathText sys.cwd

end System

/-! ### The buffers -/

def pathMax : ℕ := 4096

def symloopMax : ℕ := 40

abbrev Buf := List UInt8

def putSlash (needed : Bool) (b : Buf) (i : ℕ) : Option Buf := if needed then put b i [slash] else some b

/-- The bytes from a place on up to one that stops the search, which is read as well. -/
def runLength (stop : UInt8 → Bool) (b : Buf) (i : ℕ) : Option ℕ :=
  let n := ((b.drop i).takeWhile fun c => !stop c).length
  if i + n < b.length then some n else none

def slashLen (b : Buf) (i : ℕ) : Option ℕ := runLength (fun c => c ≠ slash) b i

/-- `__strchrnul(b + i, '/') - (b + i)`. -/
def componentLen (b : Buf) (i : ℕ) : Option ℕ := runLength (fun c => c = slash ∨ c = 0) b i

/-- `while (i > least && b[i-1] != '/') i--`. -/
def backToSlash (least : ℕ) (b : Buf) : ℕ → Option ℕ
  | 0 => some 0
  | i + 1 => if i + 1 > least then do
      let c ← b[i]?
      if c ≠ slash then backToSlash least b i else some (i + 1)
    else some (i + 1)

/-! ### The loop -/

structure State where
  stack : Buf
  output : Buf
  p : ℕ
  q : ℕ
  cnt : ℕ
  nup : ℕ
  checkDir : UInt8

/-- How a round ends: `continue`, `goto restart`, `break` or an error. -/
inductive Next
  | next (s : State)
  | restart (s : State)
  | leave (s : State)
  | fail (e : Errno)

section Loop

variable (sys : System)

/-- `stack[p] == '/' && stack[p+1] != '/'`. -/
def isSpecial (stack : Buf) (p : ℕ) : Option Bool := do
  let c ← stack[p]?
  if c = slash then (stack[p + 1]?).map fun d => decide (d ≠ slash) else some false

/-- The stack starts with `/`. -/
def atRoot (s : State) : Option Next := do
  let output ← put s.output 0 [slash]
  let special ← isSpecial s.stack (s.p + 1)
  let output ← putSlash special output 1
  some (.next { s with output, p := s.p + 1, q := if special then 2 else 1, nup := 0, checkDir := 0 })

/-- `output` ends in a component, so that a slash is needed before the next one. -/
def needsSlash (s : State) : Option Bool :=
  if s.q = 0 then some false else (s.output[s.q - 1]?).map fun c => decide (c ≠ slash)

/-- The component is `..`. -/
def isUp (s : State) (l0 : ℕ) : Option Bool :=
  if l0 = 2 then do
    let c ← s.stack[s.p - 2]?
    let d ← s.stack[s.p - 1]?
    some (decide (c = 46 ∧ d = 46))
  else some false

/-- `..` takes the last component off `output`. -/
def cancel (s : State) : Option Next := do
  let q ← backToSlash 0 s.output s.q
  let c ← s.output[0]?
  some (.next { s with q := if q > 1 ∧ (q > 2 ∨ c ≠ slash) then q - 1 else q, checkDir := 0 })

/-- `readlink` says that the component is not a link. -/
def notLink (s : State) (l0 l : ℕ) (up : Bool) : Option Next :=
  if up then cancel s
  else do
    let c ← s.stack[s.p]?
    some (.next { s with q := if l0 ≠ 0 then s.q + l else s.q, checkDir := c })

/-- Slashes on the stack are skipped if the text of the link, of `k` bytes, ends in one. -/
def skipSlashes (stack : Buf) (p k : ℕ) : Option ℕ := do
  let c ← stack[k - 1]?
  if c = slash then slashLen stack p else some 0

/-- The text of a link is put on the stack. -/
def isLink (s : State) (text : Text) : Option Next := do
  let k := text.length
  let stack ← put s.stack 0 text
  if s.cnt + 1 = symloopMax then some (.fail .eloop)
  else do
    let skip ← skipSlashes stack s.p k
    let p := s.p + skip
    if k ≤ p then do
      let stack ← put stack (p - k) (← sub stack 0 k)
      some (.restart { s with stack, p := p - k, cnt := s.cnt + 1 })
    else none

/-- `readlink(output, stack, p)`. -/
def askLink (s : State) (l0 l : ℕ) (up : Bool) : Option Next := do
  let path ← sub s.output 0 (s.q + l)
  match sys.readlink path with
  | .error e => if e = .einval then notLink s l0 l up else some (.fail e)
  | .ok text =>
    if text.length ≥ s.p then do
      let _ ← put s.stack 0 (text.take s.p)
      some (.fail .enametoolong)
    else if text = [] then some (.fail .enoent)
    else isLink s text

/-- The next component is at the end of `output`, and `p` is after it. -/
def copied (s : State) (l0 l : ℕ) : Option Next := do
  let up ← isUp s l0
  if up ∧ s.q ≤ 3 * s.nup then some (.next { s with nup := s.nup + 1, q := s.q + l })
  else if up ∧ s.checkDir = 0 then cancel s
  else askLink sys s l0 l up

/-- A component of `l0` bytes. -/
def component (s : State) (l0 : ℕ) : Option Next := do
  let sep ← needsSlash s
  if sep ∧ s.p = 0 then some (.fail .enametoolong)
  else do
    let stack ← putSlash sep s.stack (s.p - 1)
    let p := if sep then s.p - 1 else s.p
    let l := if sep then l0 + 1 else l0
    if s.q + l ≥ pathMax then some (.fail .enametoolong)
    else do
      let output ← put s.output s.q (← sub stack p l)
      let output ← put output (s.q + l) [0]
      copied sys { s with stack, output, p := p + l } l0 l

def round (s : State) : Option Next := do
  let c ← s.stack[s.p]?
  if c = slash then atRoot s
  else do
    let l0 ← componentLen s.stack s.p
    if l0 = 0 ∧ s.checkDir = 0 then some (.leave s)
    else if l0 = 1 ∧ c = 46 then some (.next { s with p := s.p + l0 })
    else component sys s l0

def loop : ℕ → State → Option (Except Errno State)
  | 0, _ => none
  | rounds + 1, s => do
    match ← round sys s with
    | .next s =>
      let n ← slashLen s.stack s.p
      loop rounds { s with p := s.p + n }
    | .restart s => loop rounds s
    | .leave s => some (.ok s)
    | .fail e => some (.error e)

end Loop

/-! ### The end -/

/-- `while (nup--)`: the length that is left of the working directory, and the place after `..` in
`output`. -/
def applyUps (stack : Buf) (q : ℕ) : ℕ → ℕ → ℕ → Option (ℕ × ℕ)
  | 0, l, p => some (l, p)
  | nup + 1, l, p => do
    let l ← backToSlash 1 stack l
    let p := p + 2
    applyUps stack q nup (if l > 1 then l - 1 else l) (if p < q then p + 1 else p)

/-- A relative path is put after the working directory, whose path is in the stack with `l` bytes. -/
def prepend (stack output : Buf) (p q l : ℕ) : Option (Except Errno (Buf × ℕ)) :=
  if q < p then none
  else do
    let c ← stack[l - 1]?
    let sep := decide (q - p ≠ 0 ∧ c ≠ slash)
    let stack ← putSlash sep stack l
    let l := if sep then l + 1 else l
    if l + (q - p) + 1 ≥ pathMax then some (.error .enametoolong)
    else do
      let output ← put output l (← sub output p (q - p + 1))
      let output ← put output 0 (← sub stack 0 l)
      some (.ok (output, l + (q - p)))

/-- A relative path in `output`. -/
def relative (sys : System) (s : State) (output : Buf) : Option (Except Errno Text) :=
  if sys.cwdText.length + 1 > pathMax + 1 then some (.error .erange)
  else do
    let stack ← put s.stack 0 (sys.cwdText ++ [0])
    let lp ← applyUps stack s.q s.nup sys.cwdText.length 0
    match ← prepend stack output lp.2 s.q lp.1 with
    | .error e => some (.error e)
    | .ok (output, q) => (sub output 0 q).map .ok

/-- What is after the loop; the result is the string in `output`. -/
def finish (sys : System) (s : State) : Option (Except Errno Text) := do
  let output ← put s.output s.q [0]
  let c ← output[0]?
  if c = slash then (sub output 0 s.q).map .ok else relative sys s output

structure FileName where
  text : Text
  noNul : 0 ∉ text

def maxRounds : ℕ := (symloopMax + 1) * (2 * pathMax + 4)

/-- `realpath(filename, resolved)`; `junk` is in the buffers at the beginning. -/
def realpath (sys : System) (junk : ℕ → UInt8) (filename : Option FileName) :
    Option (Except Errno Text) :=
  match filename with
  | none => some (.error .einval)
  | some filename =>
    let l := min filename.text.length (pathMax + 1)
    if l = 0 then some (.error .enoent)
    else if l ≥ pathMax then some (.error .enametoolong)
    else do
      let stack := (List.range (pathMax + 1)).map junk
      let output := (List.range pathMax).map junk
      let p := pathMax + 1 - l - 1
      let stack ← put stack p (filename.text.take l ++ [0])
      match ← loop sys maxRounds { stack, output, p, q := 0, cnt := 0, nup := 0, checkDir := 0 } with
      | .error e => some (.error e)
      | .ok s => finish sys s

/-! ### Reading and writing -/

section Buffers

variable {b : Buf} {bs rest t u : List UInt8} {i n : ℕ}

lemma runLength_of_drop {stop : UInt8 → Bool} {c : UInt8} (h : b.drop i = t ++ c :: u)
    (ht : ∀ d ∈ t, stop d = false)
    (hc : stop c = true) : runLength stop b i = some t.length := by
  have htake : (b.drop i).takeWhile (fun d => !stop d) = t := by
    rw [h, takeWhile_append_of_pos fun d hd => by rw [ht d hd]; rfl,
      takeWhile_cons_of_neg (by rw [hc]; decide),
      append_nil]
  have hlen := congrArg length h
  rw [length_drop, length_append, length_cons] at hlen
  rw [runLength, htake, if_pos (by omega)]

lemma backToSlash_eq {least : ℕ} {x y : List UInt8} (hi : i ≤ b.length) (htake : b.take i = x ++ y)
    (hy : slash ∉ y) (hx : x = [] ∨ x.getLast? = some slash) (hleast : least ≤ x.length) :
    backToSlash least b i = some x.length := by
  induction y using reverseRecOn generalizing i with
  | nil =>
    rw [append_nil] at htake
    have hlen : i = x.length := by
      rw [← htake, length_take]
      omega
    cases i with
    | zero => rw [backToSlash, ← hlen]
    | succ i =>
      have hne : x ≠ [] := by
        rintro rfl
        exact absurd hlen (by simp)
      have hlast := hx.resolve_left hne
      have hget : b[i]? = some slash := by
        rw [← getElem?_take_of_lt (lt_succ_self i), htake, ← hlast, getLast?_eq_getElem?, ← hlen]
        rfl
      rw [backToSlash, hget, ← hlen]
      simp
  | append_singleton y c ih =>
    rw [← append_assoc] at htake
    have hlen := congrArg length htake
    rw [length_take, length_append, length_append, length_singleton] at hlen
    obtain ⟨i, rfl⟩ : ∃ i', i = i' + 1 := ⟨i - 1, by omega⟩
    have hget : b[i]? = some c := by
      rw [← getElem?_take_of_lt (lt_succ_self i), htake, getElem?_append_right (by simp; omega)]
      simp [show i - (x.length + y.length) = 0 by omega]
    have hc : c ≠ slash := fun heq => hy (by simp [heq])
    have htake' : b.take i = x ++ y := by
      have hi' : i = (x ++ y).length := by
        rw [length_append]
        omega
      rw [← min_eq_left (le_succ i), ← take_take, htake, hi', take_left]
    rw [backToSlash, if_pos (by omega), hget]
    simp only [bind_eq_bind, bind_some, if_pos hc]
    exact ih (by omega) htake' fun hmem => hy (mem_append_left _ hmem)

end Buffers

/-! ### The components of `output` -/

section Output

variable {root₀ c n u : Text} {cs names : List Text} {nup : ℕ}

def sep (cs : List Text) : Text := if cs = [] then [] else [slash]

def glue : List Text → Text
  | [] => []
  | c :: cs => glue cs ++ sep cs ++ c

/-- A component that can be in `output`. -/
structure IsComponent (c : Text) : Prop where
  ne_nil : c ≠ []
  ne_dot : c ≠ dot
  slash : Lib.Path.slash ∉ c
  nul : 0 ∉ c

lemma IsName.component (h : IsName n) : IsComponent n := ⟨h.ne_nil, h.ne_dot, h.slash, h.nul⟩

lemma dotdot_component : IsComponent dotdot := by
  constructor <;> decide

def IsRoot (root₀ : Text) : Prop := root₀ = [] ∨ root₀ = [slash] ∨ root₀ = [slash, slash]

@[simp] lemma sep_cons (c : Text) (cs : List Text) : sep (c :: cs) = [slash] := rfl

@[simp] lemma sep_nil : sep [] = [] := rfl

lemma joined_append (ns : List Text) (n : Text) : joined (ns ++ [n]) = joined ns ++ sep ns ++ n := by
  induction ns with
  | nil => rfl
  | cons m ns ih =>
    cases ns with
    | nil => simp [joined]
    | cons l ns =>
      rw [cons_append, cons_append, joined, ← cons_append, ih, joined]
      simp

lemma glue_eq (cs : List Text) : glue cs = joined cs.reverse := by
  induction cs with
  | nil => rfl
  | cons c cs ih =>
    have hsep : sep cs.reverse = sep cs := by simp [sep]
    rw [glue, reverse_cons, joined_append, ih, hsep]

lemma getLast?_glue (root₀ : Text) (h : ∀ c ∈ cs, IsComponent c) (hne : cs ≠ []) :
    ∃ d, (root₀ ++ glue cs).getLast? = some d ∧ d ≠ slash := by
  cases cs with
  | nil => exact absurd rfl hne
  | cons c cs =>
    have hc := h c mem_cons_self
    obtain ⟨d, hd⟩ : ∃ d, c.getLast? = some d := ⟨c.getLast hc.ne_nil, getLast?_eq_some_getLast hc.ne_nil⟩
    refine ⟨d, ?_, fun heq => hc.slash (heq ▸ mem_of_getLast? hd)⟩
    rw [glue, ← append_assoc, getLast?_append, hd]
    rfl

/-- `q && output[q-1] != '/'`. -/
lemma needs_sep (hroot : IsRoot root₀) (h : ∀ c ∈ cs, IsComponent c) :
    (∃ d ∈ (root₀ ++ glue cs).getLast?, d ≠ slash) ↔ cs ≠ [] := by
  constructor
  · rintro ⟨d, hd, hne⟩ rfl
    rcases hroot with rfl | rfl | rfl
    · exact absurd hd (by simp [glue])
    · exact hne (by simpa [glue] using hd.symm)
    · exact hne (by simpa [glue] using hd.symm)
  · intro hne
    obtain ⟨d, hd, hslash⟩ := getLast?_glue root₀ h hne
    exact ⟨d, hd, hslash⟩

lemma head?_glue (h : ∀ c ∈ cs, IsComponent c) (hne : cs ≠ []) :
    ∃ d, (glue cs ++ u).head? = some d ∧ d ≠ slash := by
  induction cs generalizing u with
  | nil => exact absurd rfl hne
  | cons c cs ih =>
    cases cs with
    | nil =>
      have hc := h c mem_cons_self
      obtain ⟨d, c', rfl⟩ := exists_cons_of_ne_nil hc.ne_nil
      exact ⟨d, rfl, fun heq => hc.slash (heq ▸ mem_cons_self)⟩
    | cons c' cs =>
      rw [glue, append_assoc, append_assoc]
      exact ih (forall_mem_cons.1 h).2 (cons_ne_nil c' cs)

lemma length_glue_dotdot (nup : ℕ) : (glue (replicate nup dotdot)).length = 3 * nup - 1 := by
  induction nup with
  | zero => rfl
  | succ nup ih =>
    rw [replicate_succ, glue, length_append, length_append, ih]
    cases nup with
    | zero => rfl
    | succ nup =>
      simp only [replicate_succ, sep_cons, dotdot, length_cons, length_nil]
      omega

lemma lt_length_glue (nup : ℕ) (h : ∀ n ∈ names, IsName n) (hne : names ≠ []) :
    3 * nup < (glue (names ++ replicate nup dotdot)).length := by
  induction names with
  | nil => exact absurd rfl hne
  | cons n names ih =>
    have hpos := length_pos_iff.2 (h n mem_cons_self).ne_nil
    rw [cons_append, glue, length_append, length_append]
    by_cases hnames : names = []
    · have hups := length_glue_dotdot nup
      rw [hnames, nil_append, hups]
      cases nup with
      | zero => omega
      | succ nup =>
        simp only [replicate_succ, sep_cons, length_singleton]
        omega
    · have hrec := ih (forall_mem_cons.1 h).2 hnames
      omega

/-- `q <= 3*nup`: there is nothing to cancel. -/
lemma length_le_iff (hroot : IsRoot root₀) (hnup : root₀ ≠ [] → nup = 0) (h : ∀ n ∈ names, IsName n) :
    (root₀ ++ glue (names ++ replicate nup dotdot)).length ≤ 3 * nup ↔ root₀ = [] ∧ names = [] := by
  constructor
  · intro hle
    have hnames : names = [] := by
      by_contra hne
      have hlt := lt_length_glue nup h hne
      rw [length_append] at hle
      omega
    refine ⟨?_, hnames⟩
    by_contra hne
    have hpos := length_pos_iff.2 hne
    rw [hnup hne, length_append] at hle
    omega
  · rintro ⟨rfl, rfl⟩
    rw [nil_append, nil_append, length_glue_dotdot]
    omega

end Output

/-! ### The path walk along `output` -/

section Walk

variable {sys : System} {root₀ n u : Text} {ns₀ ns cs : List Text} {links : ℕ}

/-- Components, the last one first, lead to a place without a link on the way. -/
def Reached (root : Node) (ns₀ : List Text) : List Text → List Text → Prop
  | [], ns => ns = ns₀ ∧ IsDir root ns₀
  | c :: cs, ns => ∃ ns', Reached root ns₀ cs ns' ∧ IsDir root ns' ∧ IsComponent c ∧
      if c = dotdot then ns = ns'.dropLast
      else ns = ns' ++ [c] ∧ ∃ node, root.find (ns' ++ [c]) = some node ∧ node.isLink = false

section

variable (h : Reached sys.root ns₀ cs ns)

include h

lemma Reached.component : ∀ c ∈ cs, IsComponent c := by
  induction cs generalizing ns with
  | nil => exact forall_mem_nil _
  | cons d cs ih =>
    obtain ⟨ns', hrec, -, hd, -⟩ := h
    exact forall_mem_cons.2 ⟨hd, ih hrec⟩

lemma Reached.root_isDir : IsDir sys.root ns₀ := by
  induction cs generalizing ns with
  | nil => exact h.2
  | cons c cs ih =>
    obtain ⟨ns', hrec, -⟩ := h
    exact ih hrec

lemma Reached.exists_node : ∃ node, sys.root.find ns = some node ∧ node.isLink = false := by
  cases cs with
  | nil =>
    obtain ⟨rfl, node, hnode, hdir⟩ := h
    exact ⟨node, hnode, Node.not_isLink_of_isDir hdir⟩
  | cons c cs =>
    obtain ⟨ns', -, hdir, -, hc⟩ := h
    split_ifs at hc
    · obtain ⟨node, hnode, hdir⟩ := hdir.dropLast
      exact ⟨node, hc ▸ hnode, Node.not_isLink_of_isDir hdir⟩
    · obtain ⟨rfl, node, hnode, hlink⟩ := hc
      exact ⟨node, hnode, hlink⟩

end

section

variable (root : Node) (ns : List Text)

lemma isDirAt_iff : Node.isDirAt root ns = true ↔ IsDir root ns := by
  rw [Node.isDirAt, Option.any_eq_true]
  rfl

lemma isDirAt_eq_false : Node.isDirAt root ns = false ↔ ¬IsDir root ns := by
  rw [← isDirAt_iff, Bool.not_eq_true]

lemma walk_slash (ts : List Token) :
    walk root links ns (.slash :: ts) = if Node.isDirAt root ns then walk root links ns ts
    else .error .enotdir := by
  obtain ⟨follow, hwalk⟩ := exists_walkNames root links
  rw [hwalk, walkNames]

end

variable {root : Node}

lemma walk_up (h : IsDir root ns) (ts : List Token) :
    walk root links ns (.name dotdot :: ts) = walk root links ns.dropLast ts := by
  obtain ⟨follow, hwalk⟩ := exists_walkNames root links
  rw [hwalk, walkNames, if_neg (by rw [isDirAt_eq_false]; exact not_not.2 h), if_neg (by decide),
    if_pos rfl]

lemma walk_name {node : Node} (hn : n ≠ dot) (hn' : n ≠ dotdot)
    (hfind : root.find (ns ++ [n]) = some node) (hnode : node.isLink = false) (ts : List Token) :
    walk root links ns (.name n :: ts) = walk root links (ns ++ [n]) ts := by
  have hdir := IsDir.of_find hfind
  obtain ⟨follow, hwalk⟩ := exists_walkNames root links
  rw [hwalk, walkNames, if_neg (by rw [isDirAt_eq_false]; exact not_not.2 hdir), if_neg hn,
    if_neg hn', hfind]
  cases node with
  | dir entries => rfl
  | file => rfl
  | link t noNul => exact absurd hnode (by simp [Node.isLink])

lemma walk_glue (h : Reached sys.root ns₀ cs ns) (hu : AtEnd u) :
    walk sys.root links ns₀ (tokens (glue cs ++ u)) = walk sys.root links ns (tokens u) := by
  induction cs generalizing ns u with
  | nil =>
    obtain ⟨rfl, -⟩ := h
    rfl
  | cons c cs ih =>
    obtain ⟨ns', hrec, hdir, hc, hlast⟩ := h
    -- up to the last component
    have hbefore : walk sys.root links ns₀ (tokens (glue (c :: cs) ++ u)) =
        walk sys.root links ns' (.name c :: tokens u) := by
      rw [glue, append_assoc, append_assoc]
      cases cs with
      | nil =>
        obtain ⟨rfl, -⟩ := hrec
        rw [sep_nil, nil_append, glue, nil_append, tokens_name hc.ne_nil hc.slash hu]
      | cons d cs =>
        rw [sep_cons, singleton_append, ih hrec (atEnd_slash _), tokens_slash,
          tokens_name hc.ne_nil hc.slash hu, walk_slash, if_pos ((isDirAt_iff _ _).2 hdir)]
    rw [hbefore]
    split_ifs at hlast with hup
    · rw [hup, hlast]
      exact walk_up hdir _
    · obtain ⟨rfl, node, hfind, hlink⟩ := hlast
      exact walk_name hc.ne_dot hup hfind hlink _

/-- Where a path in `output` starts. -/
def System.origin (sys : System) (root₀ : Text) : List Text := if root₀ = [] then sys.cwd else []

lemma start_output (hroot : IsRoot root₀) (h : ∀ c ∈ cs, IsComponent c)
    (hu : cs = [] → u.head? ≠ some slash) :
    start sys.cwd (root₀ ++ (glue cs ++ u)) = sys.origin root₀ := by
  rw [start, System.origin]
  rcases hroot with rfl | rfl | rfl
  · rw [if_pos rfl, if_neg]
    by_cases hcs : cs = []
    · rw [hcs]
      exact hu hcs
    · obtain ⟨d, hd, hne⟩ := head?_glue h hcs
      rw [nil_append, hd]
      exact fun heq => hne (some.inj heq)
  · rfl
  · rfl

lemma walk_output (links : ℕ) (hroot : IsRoot root₀) (h : Reached sys.root (sys.origin root₀) cs ns)
    (hu : AtEnd u) :
    walk sys.root links (sys.origin root₀)
    (tokens (root₀ ++ (glue cs ++ u))) = walk sys.root links ns (tokens u) := by
  have hdir := (isDirAt_iff _ _).2 h.root_isDir
  rcases hroot with rfl | rfl | rfl
  · exact walk_glue h hu
  · rw [singleton_append, tokens_slash, walk_slash, if_pos hdir]
    exact walk_glue h hu
  · rw [cons_append, singleton_append, tokens_slash, tokens_slash, walk_slash, if_pos hdir,
      walk_slash, if_pos hdir]
    exact walk_glue h hu

lemma atEnd_sep (cs : List Text) : AtEnd (sep cs) := by
  intro c hc
  cases cs with
  | nil => exact absurd hc (by simp)
  | cons d cs => simpa using hc.symm

variable (hroot : IsRoot root₀)

include hroot

lemma tokens_output (hn : n ≠ []) (hslash : slash ∉ n) :
    tokens (root₀ ++ (glue cs ++ (sep cs ++ n))) = tokens (root₀ ++ (glue cs ++ sep cs)) ++
    [.name n] := by
  have hname : tokens n = [.name n] := by
    have hend := tokens_name hn hslash (t := []) (by simp [AtEnd])
    rwa [append_nil] at hend
  cases cs with
  | nil =>
    simp only [glue, sep_nil, nil_append]
    rcases hroot with rfl | rfl | rfl
    · exact hname
    · rw [singleton_append, tokens_slash, hname]
      rfl
    · rw [cons_append, singleton_append, tokens_slash, tokens_slash, hname]
      rfl
  | cons c cs =>
    rw [sep_cons, singleton_append, ← append_assoc, ← append_assoc, tokens_append (atEnd_slash n),
      tokens_append (atEnd_slash []), tokens_slash, hname, append_assoc]
    rfl

variable (h : Reached sys.root (sys.origin root₀) cs ns)

include h

lemma walk_parent : walk sys.root links (sys.origin root₀) (tokens (root₀ ++ (glue cs ++ sep cs))) =
      if Node.isDirAt sys.root ns then .ok ns else .error .enotdir := by
  rw [walk_output links hroot h (atEnd_sep cs)]
  cases cs with
  | nil =>
    obtain ⟨rfl, hdir⟩ := h
    rw [if_pos ((isDirAt_iff _ _).2 hdir), sep_nil, tokens, walk_nil]
  | cons c cs => rw [sep_cons, tokens_slash, walk_slash, tokens, walk_nil]

lemma start_component (hslash : slash ∉ n) :
    start sys.cwd (root₀ ++ (glue cs ++ (sep cs ++ n))) = sys.origin root₀ := by
  refine start_output hroot h.component fun hcs heq => ?_
  rw [hcs, sep_nil] at heq
  exact hslash (mem_of_head? heq)

/-- **`readlink` of a name** in the directory that `output` is. -/
theorem readlink_name (hn : IsComponent n)
    (hup : n ≠ dotdot) :
    sys.readlink (root₀ ++ (glue cs ++ (sep cs ++ n))) = if Node.isDirAt sys.root ns then
        match sys.root.find (ns ++ [n]) with
        | none => .error .enoent
        | some (.link t _) => .ok t
        | some _ => .error .einval else .error .enotdir := by
  rw [System.readlink, tokens_output hroot hn.ne_nil hn.slash, start_component hroot h hn.slash]
  simp only [getLast?_concat, dropLast_concat]
  rw [if_neg (not_or.2 ⟨hn.ne_dot, hup⟩), walk_parent hroot h]
  split_ifs with hdir
  · simp only [Except.bind, hdir, Bool.true_eq_false, if_false]
  · rfl

/-- **`readlink` of `..`** says whether `output` is a directory. -/
theorem readlink_up : sys.readlink (root₀ ++ (glue cs ++ (sep cs ++ dotdot))) =
      .error (if Node.isDirAt sys.root ns then .einval else .enotdir) := by
  have hwalk : walk sys.root maxSymlinks (sys.origin root₀)
    (tokens (root₀ ++ (glue cs ++ (sep cs ++ dotdot)))) =
      if Node.isDirAt sys.root ns then .ok ns.dropLast else .error .enotdir := by
    split_ifs with hdir
    · have hup : Reached sys.root (sys.origin root₀) (dotdot :: cs) ns.dropLast :=
        ⟨ns, h, (isDirAt_iff _ _).1 hdir, dotdot_component, by rw [if_pos rfl]⟩
      have hwalk := walk_output maxSymlinks (u := []) hroot hup (by simp [AtEnd])
      rw [glue, append_nil, append_assoc] at hwalk
      rw [hwalk, tokens, walk_nil]
    · -- the first component starts at a directory
      cases cs with
      | nil =>
        obtain ⟨rfl, hdir'⟩ := h
        exact absurd ((isDirAt_iff _ _).2 hdir') hdir
      | cons c cs =>
        rw [sep_cons, singleton_append, walk_output maxSymlinks hroot h (atEnd_slash _),
          tokens_slash, walk_slash, if_neg hdir]
  rw [System.readlink, start_component hroot h (by decide), hwalk,
    tokens_output hroot (by decide) (by decide)]
  simp only [getLast?_concat]
  rw [if_pos (.inr trivial)]
  split_ifs <;> rfl

/-- **`readlink` of a path that ends in a slash** does the same. -/
theorem readlink_slash (hne : cs ≠ []) :
    sys.readlink (root₀ ++ (glue cs ++ sep cs)) =
    .error (if Node.isDirAt sys.root ns then .einval else .enotdir) := by
  have hstart := start_component hroot h (not_mem_nil)
  rw [append_nil] at hstart
  rw [System.readlink, hstart, walk_parent hroot h]
  obtain ⟨c, cs, rfl⟩ := exists_cons_of_ne_nil hne
  have htok : tokens (root₀ ++ (glue (c :: cs) ++ [slash])) = tokens (root₀ ++ glue (c :: cs)) ++
      [.slash] := by
    rw [← append_assoc, tokens_append (atEnd_slash [])]
    rfl
  rw [sep_cons, htok]
  simp only [getLast?_concat]
  split_ifs <;> rfl

end Walk

/-! ### What is left to be resolved -/

section Meaning

variable {sys : System} {goal : List Text → Prop} {rest root₀ n t : Text} {checkDir : Bool} {nup : ℕ}
  {names ns : List Text}

/-- What is on the stack leads to a place, from the one that `output` is.  An absolute path starts
at the root; otherwise `output` has to be a directory if that is not yet known. -/
def Remains (root : Node) (ns : List Text) (checkDir : Bool) (rest : Text) (r : List Text) : Prop :=
  if rest.head? = some slash then Resolves root [] (tokens rest) r
  else Resolves root ns ((if checkDir then [.slash] else []) ++ tokens rest) r

/-- `output` is the place `ns`, and what is left leads to where the whole path does. -/
structure Means (sys : System) (goal : List Text → Prop) (rest : Text) (checkDir : Bool) (nup : ℕ)
    (root₀ : Text)
    (names ns : List Text) : Prop where
  root : IsRoot root₀
  ups : root₀ ≠ [] → nup = 0
  isName : ∀ n ∈ names, IsName n
  reached : Reached sys.root (sys.origin root₀) (names ++ List.replicate nup dotdot) ns
  pending : checkDir = true → names ≠ []
  known : checkDir = false → IsDir sys.root ns ∨ rest = []
  key : ∀ r, Remains sys.root ns checkDir rest r → goal r

variable {r : List Text} {root : Node} {text : Text}

lemma remains_strip : Remains root ns checkDir (strip t) r ↔
      Resolves root ns ((if checkDir then [.slash] else []) ++ tokens (strip t)) r := by
  rw [Remains, if_neg (head?_strip t)]

lemma head?_component (hne : n ≠ []) (hslash : slash ∉ n) : (n ++ t).head? ≠ some slash := by
  obtain ⟨c, n, rfl⟩ := exists_cons_of_ne_nil hne
  intro heq
  obtain rfl : c = slash := by simpa using heq
  exact hslash mem_cons_self

lemma Means.key_component (h : Means sys goal (n ++ t) checkDir nup root₀ names ns) (hne : n ≠ [])
    (hslash : slash ∉ n) (ht : AtEnd t)
    (hr : Resolves sys.root ns ((if checkDir then [.slash] else []) ++ .name n :: tokens t) r) :
    goal r := by
  refine h.key r ?_
  rw [Remains, if_neg (head?_component hne hslash), tokens_name hne hslash ht]
  exact hr

lemma resolves_pending {ts : List Token} (hdir : IsDir root ns) (h : Resolves root ns ts r) :
    Resolves root ns ((if checkDir then [.slash] else []) ++ ts) r := by
  cases checkDir with
  | false => exact h
  | true => exact .slash hdir h

/-- `/` or `//` at the beginning. -/
def rootText (t : Text) : Text :=
  if t.head? = some slash ∧ t.tail.head? ≠ some slash then [slash, slash] else [slash]

lemma isRoot_rootText (t : Text) : IsRoot (rootText t) ∧ rootText t ≠ [] := by
  rw [rootText]
  split_ifs
  · exact ⟨.inr (.inr rfl), by simp⟩
  · exact ⟨.inr (.inl rfl), by simp⟩

def pushBack (text t : Text) : Text := text ++ if text.getLast? = some slash then strip t else t

lemma head?_pushBack (h : text ≠ []) : (pushBack text t).head? = text.head? := by
  obtain ⟨c, -, rfl⟩ := exists_cons_of_ne_nil h
  rfl

lemma resolves_pushBack (htext : text ≠ []) (ht : AtEnd t)
    (hr : Resolves root ns (tokens (pushBack text t)) r) :
    Resolves root ns (tokens text ++ tokens t) r := by
  rw [pushBack] at hr
  split_ifs at hr with hlast
  · obtain ⟨u, rfl⟩ : ∃ u, text = u ++ [slash] := by
      obtain ⟨u, c, hu⟩ := eq_nil_or_concat text |>.resolve_left htext
      rw [hu, concat_eq_append] at hlast ⊢
      obtain rfl : c = slash := by simpa using hlast
      exact ⟨u, rfl⟩
    rw [append_assoc, singleton_append, tokens_append (atEnd_slash _)] at hr
    rw [tokens_append (atEnd_slash []), append_assoc]
    refine hr.append_congr fun ns' r' hr' => ?_
    obtain ⟨j, hj⟩ := exists_strip t
    rw [hj]
    exact hr'.slash_slashes j
  · rwa [tokens_append ht] at hr

namespace Means

lemma isDir_root (h : Means sys goal rest checkDir nup root₀ names ns) : IsDir sys.root [] :=
  h.reached.root_isDir.root

lemma absolute (h : Means sys goal (slash :: t) checkDir nup root₀ names ns) :
    Means sys goal (strip t) false 0 (rootText t) [] [] where
  root := (isRoot_rootText t).1
  ups _ := rfl
  isName := forall_mem_nil _
  reached := ⟨by rw [System.origin, if_neg (isRoot_rootText t).2], by
    rw [System.origin, if_neg (isRoot_rootText t).2]
    exact h.isDir_root⟩
  pending := fun hf => absurd hf (by decide)
  known _ := Or.inl h.isDir_root
  key r hr := by
    rw [remains_strip] at hr
    refine h.key r ?_
    exact .slash h.isDir_root (hr.of_strip h.isDir_root)

lemma dot (h : Means sys goal (dot ++ t) checkDir nup root₀ names ns) (ht : AtEnd t) :
    Means sys goal (strip t) checkDir nup root₀ names ns where
  __ := h
  known hf := Or.inl ((h.known hf).resolve_right (by simp [Lib.Path.dot]))
  key r hr := by
    rw [remains_strip] at hr
    refine h.key_component (by decide) (by decide) ht ?_
    cases checkDir with
    | false =>
      have hdir := (h.known rfl).resolve_right (by simp [Lib.Path.dot])
      exact .dot hdir (Resolves.of_strip hdir hr)
    | true =>
      cases hr with
      | slash hdir hr => exact .slash hdir (.dot hdir (hr.of_strip hdir))

lemma key_up (h : Means sys goal (dotdot ++ t) checkDir nup root₀ names ns) (ht : AtEnd t)
    (hdir : IsDir sys.root ns)
    {r : List Text} (hr : Remains sys.root ns.dropLast false (strip t) r) : goal r := by
  rw [remains_strip] at hr
  exact h.key_component (by decide) (by decide) ht
    (resolves_pending hdir (.up hdir (hr.of_strip hdir.dropLast)))

lemma up (h : Means sys goal (dotdot ++ t) checkDir nup [] [] ns) (ht : AtEnd t) :
    checkDir = false ∧ Means sys goal (strip t) false (nup + 1) [] [] ns.dropLast := by
  have hcheck : checkDir = false := by
    by_contra hne
    exact h.pending (Bool.not_eq_false _ ▸ hne) rfl
  have hdir := (h.known hcheck).resolve_right (by simp [dotdot])
  refine ⟨hcheck, h.root, fun hne => absurd rfl hne, h.isName, ?_, fun hf => absurd hf (by decide),
    fun _ => .inl hdir.dropLast,
    fun r hr => h.key_up ht hdir hr⟩
  exact ⟨ns, h.reached, hdir, dotdot_component, by rw [if_pos rfl]⟩

lemma cancel (h : Means sys goal (dotdot ++ t) checkDir nup root₀ names ns) (ht : AtEnd t)
    (hdir : IsDir sys.root ns) (hne : ¬(root₀ = [] ∧ names = [])) :
    Means sys goal (strip t) false nup root₀ names.tail ns.dropLast := by
  refine ⟨h.root, h.ups, fun n hn => h.isName n (mem_of_mem_tail hn), ?_, fun hf => absurd hf (by decide),
    fun _ => .inl hdir.dropLast, fun r hr => h.key_up ht hdir hr⟩
  have hreached := h.reached
  cases names with
  | nil =>
    have hroot : root₀ ≠ [] := fun heq => hne ⟨heq, rfl⟩
    rw [h.ups hroot] at hreached ⊢
    obtain ⟨rfl, hdir'⟩ := hreached
    rw [System.origin, if_neg hroot] at hdir' ⊢
    exact ⟨rfl, hdir'⟩
  | cons n names =>
    obtain ⟨ns', hrec, -, -, hn⟩ := hreached
    rw [if_neg (h.isName n mem_cons_self).ne_dotdot] at hn
    rw [hn.1, dropLast_concat]
    exact hrec

lemma name {node : Node} (h : Means sys goal (n ++ t) checkDir nup root₀ names ns) (ht : AtEnd t)
    (hn : IsName n) (hfind : sys.root.find (ns ++ [n]) = some node) (hnode : node.isLink = false) :
    Means sys goal (strip t) (decide (t ≠ [])) nup root₀ (n :: names) (ns ++ [n]) := by
  have hdir := IsDir.of_find hfind
  refine ⟨h.root, h.ups, forall_mem_cons.2 ⟨hn, h.isName⟩, ⟨ns, h.reached, hdir, hn.component, ?_⟩,
    fun _ => cons_ne_nil n names, fun hf => .inr ?_, fun r hr => ?_⟩
  · rw [if_neg hn.ne_dotdot]
    exact ⟨rfl, node, hfind, hnode⟩
  · have hnil : t = [] := by simpa using hf
    rw [hnil]
    rfl
  · rw [remains_strip] at hr
    refine h.key_component hn.ne_nil hn.slash ht
      (resolves_pending hdir (.name hn.ne_dot hn.ne_dotdot hfind hnode ?_))
    by_cases hnil : t = []
    · subst hnil
      simpa [strip] using hr
    · rw [decide_eq_true hnil] at hr
      cases hr with
      | slash hdir hr => exact hr.of_strip hdir

lemma check (h : Means sys goal [] true nup root₀ names ns) (hdir : IsDir sys.root ns) :
    Means sys goal [] false nup root₀ names ns where
  __ := h
  pending := fun hf => absurd hf (by decide)
  known _ := Or.inl hdir
  key r hr := by
    refine h.key r ?_
    exact .slash hdir hr

lemma link {text : Text} {noNul : 0 ∉ text}
    (h : Means sys goal (n ++ t) checkDir nup root₀ names ns) (ht : AtEnd t)
    (hn : IsName n) (hfind : sys.root.find (ns ++ [n]) = some (.link text noNul)) (htext : text ≠ []) :
    Means sys goal (pushBack text t) checkDir nup root₀ names ns := by
  have hdir := IsDir.of_find hfind
  refine ⟨h.root, h.ups, h.isName, h.reached, h.pending, fun hf => .inl hdir, fun r hr => ?_⟩
  refine h.key_component hn.ne_nil hn.slash ht
    (resolves_pending hdir (.link hn.ne_dot hn.ne_dotdot hfind htext ?_))
  rw [Remains, head?_pushBack htext] at hr
  rw [start]
  by_cases habs : text.head? = some slash
  · rw [if_pos habs] at hr ⊢
    exact resolves_pushBack htext ht hr
  · rw [if_neg habs] at hr ⊢
    cases checkDir with
    | false => exact resolves_pushBack htext ht hr
    | true =>
      cases hr with
      | slash _ hr => exact resolves_pushBack htext ht hr

end Means

end Meaning

section Round

variable {sys : System} {goal : List Text → Prop} {s s' : State} {rest out root₀ n t : Text}
    {names ns cs : List Text}

structure View (s : State) (rest out : Text) : Prop where
  stackLen : s.stack.length = pathMax + 1
  outLen : s.output.length = pathMax
  unread : s.stack.drop s.p = rest ++ [0]
  noNul : 0 ∉ rest
  written : s.output.take s.q = out
  q_lt : s.q < pathMax

namespace View

lemma p_add (v : View s rest out) : s.p + rest.length = pathMax := by
  have hlen := congrArg length v.unread
  rw [length_drop, v.stackLen, length_append, length_singleton] at hlen
  omega

lemma q_eq (v : View s rest out) : s.q = out.length := by
  have hq := v.q_lt
  rw [← v.written, length_take, v.outLen, min_eq_left hq.le]

lemma advance (v : View s (n ++ t) out) : View { s with p := s.p + n.length } t out where
  __ := v
  unread := by
    rw [← drop_drop, v.unread, append_assoc, drop_left]
  noNul h := v.noNul (mem_append_right _ h)

lemma slashLen_eq (v : View s t out) :
    ∃ j, slashLen s.stack s.p = some j ∧ View { s with p := s.p + j } (strip t) out := by
  have hsplit : t = (t.takeWhile fun c => c = slash) ++ strip t := (takeWhile_append_dropWhile).symm
  have hrun : ∀ d ∈ t.takeWhile fun c => c = slash, decide (d ≠ slash) = false := fun d hd => by
    simpa using mem_takeWhile_imp hd
  have hv : View s ((t.takeWhile fun c => c = slash) ++ strip t) out := hsplit ▸ v
  refine ⟨(t.takeWhile fun c => c = slash).length, ?_, hv.advance⟩
  obtain ⟨c, u, hc, hne⟩ : ∃ c u, strip t ++ [0] = c :: u ∧ c ≠ slash := by
    cases hs : strip t with
    | nil => exact ⟨0, [], rfl, by decide⟩
    | cons c u => exact ⟨c, u ++ [0], rfl, fun heq => head?_strip t (by rw [hs, heq]; rfl)⟩
  refine runLength_of_drop (u := u) ?_ hrun (by simpa using hne)
  rw [hv.unread, append_assoc, hc]

lemma componentLen_eq (v : View s (n ++ t) out) (hn : slash ∉ n) (ht : AtEnd t) :
    componentLen s.stack s.p = some n.length := by
  have hrun : ∀ d ∈ n, decide (d = slash ∨ d = 0) = false := fun d hd => by
    have h1 : d ≠ slash := fun heq => hn (heq ▸ hd)
    have h2 : d ≠ 0 := fun heq => v.noNul (heq ▸ mem_append_left _ hd)
    simp [h1, h2]
  have hun := v.unread
  rw [append_assoc] at hun
  cases t with
  | nil => exact runLength_of_drop hun hrun (by decide)
  | cons c t =>
    obtain rfl : c = slash := ht c rfl
    exact runLength_of_drop hun hrun (by decide)

lemma head (v : View s rest out) : s.stack[s.p]? = (rest ++ [0])[0]? := getElem?_of_drop v.unread 0

end View

def measure (s : State) : ℕ :=
  (symloopMax - s.cnt) * (2 * pathMax + 4) + 2 * (pathMax - s.p) + if s.checkDir = 0 then 0 else 1

def Good (sys : System) (goal : List Text → Prop) (s : State) : Prop :=
  s.cnt < symloopMax ∧ ∃ rest root₀ names ns,
    View s rest (root₀ ++ glue (names ++ List.replicate s.nup dotdot)) ∧
    Means sys goal rest (decide (s.checkDir ≠ 0)) s.nup root₀ names ns

def Finished (sys : System) (goal : List Text → Prop) (s : State) : Prop :=
  ∃ root₀ names ns, View s [] (root₀ ++ glue (names ++ List.replicate s.nup dotdot)) ∧
    Means sys goal [] false s.nup root₀ names ns

def RoundOk (sys : System) (goal : List Text → Prop) (s : State) : Next → Prop
  | .next s' => ∃ j, slashLen s'.stack s'.p = some j ∧ Good sys goal { s' with p := s'.p + j } ∧
      measure { s' with p := s'.p + j } < measure s
  | .restart s' => Good sys goal s' ∧ measure s' < measure s
  | .leave s' => Finished sys goal s'
  | .fail _ => True

lemma next_ok (hcnt : s.cnt < symloopMax) (hcnt' : s'.cnt = s.cnt)
    (v : View s' t (root₀ ++ glue (names ++ replicate s'.nup dotdot)))
    (m : Means sys goal (strip t) (decide (s'.checkDir ≠ 0)) s'.nup root₀ names ns)
    (hp : s.p < s'.p ∨ s.p = s'.p ∧ s'.checkDir = 0 ∧ s.checkDir ≠ 0) :
    RoundOk sys goal s (.next s') := by
  obtain ⟨j, hj, hv⟩ := v.slashLen_eq
  refine ⟨j, hj, ⟨by rw [← hcnt'] at hcnt; exact hcnt, strip t, root₀, names, ns, hv, m⟩, ?_⟩
  have hle := v.p_add
  simp only [measure, hcnt']
  rcases hp with hp | ⟨hp, hc', hc⟩
  · split_ifs <;> omega
  · rw [if_pos hc', if_neg hc]
    omega

lemma needsSlash_eq (v : View s rest (root₀ ++ glue cs)) (hroot : IsRoot root₀)
    (hcs : ∀ c ∈ cs, IsComponent c) :
    needsSlash s = some (decide (cs ≠ [])) := by
  have hiff := needs_sep hroot hcs
  have hq := v.q_eq
  rw [needsSlash]
  by_cases h0 : s.q = 0
  · rw [if_pos h0]
    have hnil : root₀ ++ glue cs = [] := length_eq_zero_iff.1 (by omega)
    rw [hnil] at hiff
    simpa using hiff
  · rw [if_neg h0]
    have hget : s.output[s.q - 1]? = (root₀ ++ glue cs).getLast? := by
      rw [getLast?_eq_getElem?, ← hq, ← v.written, getElem?_take_of_lt (by omega)]
    rw [hget]
    obtain ⟨d, hd⟩ : ∃ d, (root₀ ++ glue cs).getLast? = some d := by
      have hne : root₀ ++ glue cs ≠ [] := fun hnil => h0 (by rw [hq, hnil]; rfl)
      exact ⟨_, getLast?_eq_some_getLast hne⟩
    rw [hd] at hiff ⊢
    simp only [map_some, some.injEq, decide_eq_decide]
    rw [← hiff]
    simp

/-- The next component is after `output`, and what is left is after it on the stack. -/
structure Copied (s : State) (n t out seg : Text) : Prop where
  view : View s t out
  comp : s.stack.drop (s.p - n.length) = n ++ (t ++ [0])
  le : n.length ≤ s.p
  path : s.output.take (s.q + seg.length) = out ++ seg
  bound : s.q + seg.length < pathMax

/-- The state `s'` in a round from `s`, when the component `n` has been copied. -/
structure Taken (sys : System) (goal : List Text → Prop) (s s' : State) (n t root₀ : Text)
    (names ns : List Text) :
    Prop where
  cnt : s.cnt < symloopMax
  same : s'.cnt = s.cnt
  copied : Copied s' n t (root₀ ++ glue (names ++ List.replicate s'.nup dotdot))
    (sep (names ++ List.replicate s'.nup dotdot) ++ n)
  means : Means sys goal (n ++ t) (decide (s'.checkDir ≠ 0)) s'.nup root₀ names ns
  ends : AtEnd t

lemma isUp_eq (h : Copied s n t out rest) : isUp s n.length = some (decide (n = dotdot)) := by
  rw [isUp]
  have hle := h.le
  split_ifs with h2
  · have h1 := getElem?_of_drop h.comp 0
    have h₂ := getElem?_of_drop h.comp 1
    rw [h2] at h1 h₂
    rw [show s.p - 2 + 0 = s.p - 2 from rfl] at h1
    rw [show s.p - 2 + 1 = s.p - 1 by omega] at h₂
    obtain ⟨c, d, rfl⟩ : ∃ c d, n = [c, d] := length_eq_two.1 h2
    rw [h1, h₂]
    simp [dotdot]
  · have hne : n ≠ dotdot := fun heq => h2 (by rw [heq]; rfl)
    rw [decide_eq_false hne]

variable {x : Text} {checkDir : Bool}

lemma backToSlash_output (v : View s t ((root₀ ++ (glue cs ++ sep cs)) ++ x)) (hroot : IsRoot root₀)
    (hx : slash ∉ x) : backToSlash 0 s.output s.q = some (root₀ ++ (glue cs ++ sep cs)).length := by
  have hq := v.q_lt
  have hlen := v.outLen
  refine backToSlash_eq (by omega) v.written hx ?_ (zero_le _)
  cases cs with
  | nil =>
    rcases hroot with rfl | rfl | rfl
    · exact .inl rfl
    · exact .inr rfl
    · exact .inr rfl
  | cons c cs =>
    rw [← append_assoc]
    exact .inr getLast?_concat

lemma cancel_length (hroot : IsRoot root₀) (hcs : ∀ c ∈ cs, IsComponent c) {c : UInt8} {l : ℕ}
    (hc : (root₀ ++ (glue cs ++ sep cs)) ++ x = c :: rest)
    (hl : (root₀ ++ (glue cs ++ sep cs)).length = l) :
    (if l > 1 ∧ (l > 2 ∨ c ≠ slash) then l - 1 else l) = (root₀ ++ glue cs).length := by
  subst hl
  cases cs with
  | nil =>
    simp only [glue, sep_nil, append_nil] at hc ⊢
    rcases hroot with rfl | rfl | rfl
    · rfl
    · rfl
    · have hslash : c = slash := by
        exact (cons.inj hc).1.symm
      rw [if_neg (by simp [hslash])]
  | cons d cs =>
    obtain ⟨e, he, hne⟩ := head?_glue hcs (cons_ne_nil d cs)
    have hpos : 0 < (glue (d :: cs)).length := by
      have hd := length_pos_iff.2 (hcs d mem_cons_self).ne_nil
      rw [glue, length_append]
      omega
    have hlong : (root₀ ++ (glue (d :: cs) ++ sep (d :: cs))).length =
        (root₀ ++ glue (d :: cs)).length + 1 := by
      rw [← append_assoc, sep_cons, length_append, length_singleton]
    have hmore : (root₀ ++ glue (d :: cs)).length + 1 > 2 ∨ c ≠ slash := by
      rcases hroot with rfl | rfl | rfl
      · refine .inr fun hslash => hne ?_
        rw [nil_append, append_assoc] at hc
        rw [hc, hslash] at he
        exact (some.inj he).symm
      · refine .inl ?_
        rw [length_append, length_singleton]
        omega
      · refine .inl ?_
        rw [length_append]
        simp only [length_cons]
        omega
    rw [hlong, if_pos ⟨by rw [length_append]; omega, hmore⟩, Nat.add_sub_cancel]

lemma View.cut (v : View s t ((root₀ ++ glue cs) ++ x)) :
    View { s with q := (root₀ ++ glue cs).length, checkDir := 0 } t (root₀ ++ glue cs) where
  __ := v
  written := by
    have hle := (prefix_append (root₀ ++ glue cs) x).length_le
    rw [← v.q_eq] at hle
    rw [← min_eq_left hle, ← take_take, v.written, take_left]
  q_lt := by
    have hle := (prefix_append (root₀ ++ glue cs) x).length_le
    rw [← v.q_eq] at hle
    exact lt_of_le_of_lt hle v.q_lt

lemma cancel_ok (h : Taken sys goal s s' dotdot t root₀ names ns) (hdir : IsDir sys.root ns)
    (hne : ¬(root₀ = [] ∧ names = [])) (hp : s.p < s'.p) :
    ∃ nx, cancel s' = some nx ∧ RoundOk sys goal s nx := by
  have v := h.copied.view
  have m := h.means
  have m' := m.cancel h.ends hdir hne
  set cs := names.tail ++ replicate s'.nup dotdot with hcs
  have hcomp : ∀ c ∈ cs, IsComponent c := m'.reached.component
  -- what `output` has after the components that stay
  obtain ⟨x, hx, hslash⟩ : ∃ x,
      root₀ ++ glue (names ++ replicate s'.nup dotdot) = (root₀ ++ (glue cs ++ sep cs)) ++ x ∧
      slash ∉ x := by
    cases names with
    | nil =>
      have hnup := m.ups fun heq => hne ⟨heq, rfl⟩
      exact ⟨[], by simp [hcs, hnup], not_mem_nil⟩
    | cons d names =>
      exact ⟨d, by rw [cons_append, glue, ← append_assoc]; rfl, (m.isName d mem_cons_self).slash⟩
  rw [hx] at v
  have hback := backToSlash_output v m.root hslash
  obtain ⟨c, rest, hc⟩ : ∃ c rest, s'.output = c :: rest :=
    exists_cons_of_ne_nil fun hnil => by
      have hlen := v.outLen
      rw [hnil] at hlen
      exact absurd hlen (by decide)
  have hall : (root₀ ++ (glue cs ++ sep cs)) ++ (x ++ s'.output.drop s'.q) = c :: rest := by
    rw [← append_assoc, ← v.written, take_append_drop, hc]
  have hcut := cancel_length m.root hcomp hall rfl
  have hx' : (root₀ ++ (glue cs ++ sep cs)) ++ x = (root₀ ++ glue cs) ++ (sep cs ++ x) := by simp
  rw [hx'] at v
  refine ⟨.next { s' with q := (root₀ ++ glue cs).length, checkDir := 0 }, ?_,
    next_ok h.cnt h.same v.cut m' (.inl hp)⟩
  rw [cancel, hback, hc]
  simp only [bind_eq_bind, bind_some, getElem?_cons_zero, hcut]

lemma isLink_ok {text : Text} {noNul : 0 ∉ text} (h : Taken sys goal s s' n t root₀ names ns)
    (hn : IsName n)
    (hfind : sys.root.find (ns ++ [n]) = some (.link text noNul)) (htext : text ≠ [])
    (hfits : text.length < s'.p) :
    ∃ nx, isLink s' text = some nx ∧ RoundOk sys goal s nx := by
  have hcnt := h.cnt
  have hcnt' := h.same
  have v := h.copied.view
  have hp := v.p_add
  have hlen := v.stackLen
  obtain ⟨stack, w⟩ := exists_put s'.stack 0 text (by omega)
  rw [isLink, w.eq]
  simp only [bind_eq_bind, bind_some]
  by_cases hloop : s'.cnt + 1 = symloopMax
  · rw [if_pos hloop]
    exact ⟨_, rfl, trivial⟩
  rw [if_neg hloop]
  have hlen' := w.length.trans hlen
  have hunread : stack.drop s'.p = t ++ [0] := by rw [w.drop_of_le _ (by omega), v.unread]
  have v' : View { s' with stack } t (root₀ ++ glue (names ++ replicate s'.nup dotdot)) :=
    ⟨hlen', v.outLen, hunread, v.noNul, v.written, v.q_lt⟩
  -- slashes are skipped after a text that ends in one
  obtain ⟨j, u, hskip, hu, hpush, hj⟩ : ∃ j u, skipSlashes stack s'.p text.length = some j ∧
      stack.drop (s'.p + j) = u ++ [0] ∧ pushBack text t = text ++ u ∧ 0 ∉ u := by
    have hlast : stack[text.length - 1]? = text.getLast? := by
      have hget := getElem?_of_drop w.drop (text.length - 1)
      have hpos := length_pos_iff.2 htext
      rw [zero_add] at hget
      rw [hget, getElem?_append_left (by omega), getLast?_eq_getElem?]
    obtain ⟨c, hc⟩ : ∃ c, text.getLast? = some c := ⟨_, getLast?_eq_some_getLast htext⟩
    rw [skipSlashes, hlast, hc, bind_eq_bind, bind_some, pushBack, hc]
    by_cases hslash : c = slash
    · obtain ⟨j, hj, hv⟩ := v'.slashLen_eq
      refine ⟨j, strip t, by rw [if_pos hslash]; exact hj,
        hv.unread, by rw [if_pos (by rw [hslash])], hv.noNul⟩
    · refine ⟨0, t, by rw [if_neg hslash], hunread, ?_, v.noNul⟩
      rw [if_neg fun heq => hslash (some.inj heq)]
  have hule : s'.p + j + u.length = pathMax := by
    have hdrop := congrArg length hu
    rw [length_drop, length_append, length_singleton] at hdrop
    omega
  rw [hskip]
  simp only [bind_some]
  rw [if_pos (by omega), sub_of_drop w.drop (by omega), bind_some]
  obtain ⟨stack', w'⟩ := exists_put stack (s'.p + j - text.length) text (by omega)
  rw [w'.eq]
  refine ⟨_, rfl, ⟨by dsimp only; omega, pushBack text t, root₀, names, ns,
    ⟨?_, v.outLen, ?_, ?_, v.written, v.q_lt⟩, ?_⟩, ?_⟩
  · rw [w'.length, hlen']
  · rw [w'.drop, Nat.sub_add_cancel (by omega), hu, hpush, append_assoc]
  · rw [hpush, mem_append]
    exact not_or.2 ⟨noNul, hj⟩
  · exact h.means.link h.ends hn hfind htext
  · simp only [measure, hcnt']
    have hdown : symloopMax - s.cnt = symloopMax - (s.cnt + 1) + 1 := by omega
    rw [hdown, add_mul]
    split_ifs <;> omega

lemma View.after (v : View s t out) (ht : AtEnd t) : ∃ c, s.stack[s.p]? = some c ∧ (c ≠ 0 ↔ t ≠ []) := by
  have hhead := v.head
  cases t with
  | nil => exact ⟨0, hhead, by simp⟩
  | cons c t =>
    obtain rfl : c = slash := ht c rfl
    exact ⟨slash, hhead, by simp [slash]⟩

lemma Copied.sub_eq (h : Copied s n t out rest) :
    sub s.output 0 (s.q + rest.length) = some (out ++ rest) := by
  have hbound := h.bound
  have hlen := h.view.outLen
  rw [sub, if_pos (by omega), drop_zero, h.path]

lemma Copied.accept (h : Copied s n t out rest) (nup : ℕ) (checkDir : UInt8) :
    View { s with q := s.q + rest.length, nup, checkDir } t (out ++ rest) where
  __ := h.view
  written := h.path
  q_lt := h.bound

lemma copied_up (h : Taken sys goal s s' dotdot t root₀ names ns) (hp : s.p < s'.p) :
    ∃ nx, copied sys s' dotdot.length (sep (names ++ replicate s'.nup dotdot) ++ dotdot).length =
    some nx ∧
      RoundOk sys goal s nx := by
  have v := h.copied.view
  have m := h.means
  have hiff := length_le_iff m.root m.ups m.isName
  rw [copied, isUp_eq h.copied, decide_eq_true rfl]
  simp only [bind_eq_bind, bind_some, true_and]
  by_cases hle : s'.q ≤ 3 * s'.nup
  · -- nothing can be cancelled
    rw [if_pos hle]
    rw [v.q_eq, hiff] at hle
    obtain ⟨rfl, rfl⟩ := hle
    obtain ⟨hcheck, m'⟩ := m.up h.ends
    have hv := h.copied.accept (s'.nup + 1) s'.checkDir
    rw [append_assoc, ← append_assoc (glue _)] at hv
    rw [← hcheck] at m'
    exact ⟨_, rfl, next_ok h.cnt h.same hv m' (.inl hp)⟩
  rw [if_neg hle]
  have hne : ¬(root₀ = [] ∧ names = []) := fun hnil => hle (by rw [v.q_eq]; exact hiff.2 hnil)
  by_cases hcheck : s'.checkDir = 0
  · rw [if_pos hcheck]
    have hdir := (m.known (decide_eq_false (not_not.2 hcheck))).resolve_right (by simp [dotdot])
    exact cancel_ok h hdir hne hp
  · rw [if_neg hcheck, askLink, h.copied.sub_eq, bind_eq_bind, bind_some, append_assoc,
      readlink_up m.root m.reached]
    by_cases hdir : Node.isDirAt sys.root ns
    · rw [if_pos hdir]
      exact cancel_ok h ((isDirAt_iff _ _).1 hdir) hne hp
    · rw [if_neg hdir]
      exact ⟨_, rfl, trivial⟩

lemma copied_nil (h : Taken sys goal s s' [] [] root₀ names ns) (hcheck : s'.checkDir ≠ 0)
    (hcheck' : s.checkDir = s'.checkDir) (hp : s.p = s'.p) :
    ∃ nx, copied sys s' 0 (sep (names ++ replicate s'.nup dotdot) ++ []).length = some nx ∧
    RoundOk sys goal s nx := by
  have v := h.copied.view
  have m := h.means
  have hup := isUp_eq h.copied
  rw [decide_eq_true hcheck] at m
  have hne : names ++ replicate s'.nup dotdot ≠ [] :=
    fun hnil => m.pending rfl (append_eq_nil_iff.1 hnil).1
  rw [length_nil] at hup
  rw [copied, hup]
  simp only [bind_eq_bind, bind_some]
  rw [askLink, h.copied.sub_eq, bind_eq_bind, bind_some, append_nil, append_assoc,
    readlink_slash m.root m.reached hne]
  by_cases hdir : Node.isDirAt sys.root ns
  · rw [if_pos hdir]
    have hbyte : s'.stack[s'.p]? = some 0 := v.head
    simp only [notLink, hbyte]
    exact ⟨_, rfl, next_ok h.cnt h.same { v with }
      (m.check ((isDirAt_iff _ _).1 hdir)) (.inr ⟨hp, rfl, by rw [hcheck']; exact hcheck⟩)⟩
  · rw [if_neg hdir]
    exact ⟨_, rfl, trivial⟩

lemma notLink_ok {node : Node} (h : Taken sys goal s s' n t root₀ names ns) (hn : IsName n)
    (hp : s.p < s'.p)
    (hfind : sys.root.find (ns ++ [n]) = some node) (hnode : node.isLink = false) :
    ∃ nx, notLink s' n.length (sep (names ++ replicate s'.nup dotdot) ++ n).length false = some nx ∧
      RoundOk sys goal s nx := by
  obtain ⟨c, hc, hiff⟩ := h.copied.view.after h.ends
  have hlen : n.length ≠ 0 := fun hzero => hn.ne_nil (length_eq_zero_iff.1 hzero)
  rw [notLink, hc]
  simp only [if_pos hlen]
  have hv := h.copied.accept s'.nup c
  have m' := h.means.name h.ends hn hfind hnode
  rw [append_assoc, ← append_assoc (glue _)] at hv
  rw [← decide_eq_decide.2 hiff] at m'
  exact ⟨_, rfl, next_ok h.cnt h.same hv m' (.inl hp)⟩

lemma copied_name (h : Taken sys goal s s' n t root₀ names ns) (hn : IsName n) (hp : s.p < s'.p) :
    ∃ nx, copied sys s' n.length (sep (names ++ replicate s'.nup dotdot) ++ n).length = some nx ∧
      RoundOk sys goal s nx := by
  have v := h.copied.view
  rw [copied, isUp_eq h.copied, decide_eq_false hn.ne_dotdot]
  simp only [bind_eq_bind, bind_some]
  rw [askLink, h.copied.sub_eq, bind_eq_bind, bind_some, append_assoc,
    readlink_name h.means.root h.means.reached hn.component hn.ne_dotdot]
  by_cases hdir : Node.isDirAt sys.root ns
  · rw [if_pos hdir]
    cases hfind : sys.root.find (ns ++ [n]) with
    | none => exact ⟨_, rfl, trivial⟩
    | some node =>
      cases node with
      | dir entries => exact notLink_ok h hn hp hfind rfl
      | file => exact notLink_ok h hn hp hfind rfl
      | link text noNul =>
        dsimp only
        by_cases hlong : text.length ≥ s'.p
        · have hadd := v.p_add
          have hlen := v.stackLen
          obtain ⟨stack, w⟩ := exists_put s'.stack 0 (text.take s'.p) (by rw [length_take]; omega)
          rw [if_pos hlong, w.eq]
          exact ⟨_, rfl, trivial⟩
        rw [if_neg hlong]
        by_cases htext : text = []
        · rw [if_pos htext]
          exact ⟨_, rfl, trivial⟩
        · rw [if_neg htext]
          exact isLink_ok h hn hfind htext (not_le.1 hlong)
  · rw [if_neg hdir]
    exact ⟨_, rfl, trivial⟩

lemma exists_copied {stack : Buf} {p : ℕ} {sep0 : Text} (v : View s (n ++ t) out)
    (hlen : stack.length = pathMax + 1)
    (hdrop : stack.drop p = (sep0 ++ n) ++ (t ++ [0])) (hbound : s.q + (sep0 ++ n).length < pathMax) :
    ∃ o output, put s.output s.q (sep0 ++ n) = some o ∧ put o (s.q + (sep0 ++ n).length)
    [0] = some output ∧
      Copied { s with stack, output, p := p + (sep0 ++ n).length } n t out (sep0 ++ n) := by
  have hout := v.outLen
  obtain ⟨o, w⟩ := exists_put s.output s.q (sep0 ++ n) (by omega)
  obtain ⟨output, w'⟩ :=
    exists_put o (s.q + (sep0 ++ n).length) [0] (by rw [w.length, length_singleton]; omega)
  refine ⟨o, output, w.eq, w'.eq, ⟨hlen, ?_, ?_, ?_, ?_, v.q_lt⟩, ?_, ?_, ?_, hbound⟩
  · rw [w'.length, w.length, hout]
  · rw [← drop_drop, hdrop, drop_left]
  · exact fun hmem => v.noNul (mem_append_right _ hmem)
  · rw [w'.take _ (le_add_right _ _), w.take _ le_rfl, v.written]
  · rw [length_append, ← add_assoc, Nat.add_sub_cancel, ← drop_drop, hdrop, append_assoc, drop_left]
  · dsimp only
    rw [length_append]
    omega
  · exact (w'.take _ le_rfl).trans (by rw [w.take_add, v.written])

/-- **A component**. -/
theorem component_ok (hcnt : s.cnt < symloopMax)
    (v : View s (n ++ t) (root₀ ++ glue (names ++ replicate s.nup dotdot)))
    (m : Means sys goal (n ++ t) (decide (s.checkDir ≠ 0)) s.nup root₀ names ns) (ht : AtEnd t)
    (hslash : slash ∉ n) (hdot : n ≠ dot) (hend : n = [] → t = [] ∧ s.checkDir ≠ 0) :
    ∃ nx, component sys s n.length = some nx ∧ RoundOk sys goal s nx := by
  obtain ⟨cs, hcs⟩ : ∃ cs, cs = names ++ replicate s.nup dotdot := ⟨_, rfl⟩
  rw [← hcs] at v
  have hcomp : ∀ c ∈ cs, IsComponent c := hcs ▸ m.reached.component
  have hlen := v.stackLen
  have hp := v.p_add
  rw [component, needsSlash_eq v m.root hcomp]
  simp only [bind_eq_bind, bind_some, decide_eq_true_eq, putSlash]
  by_cases hfull : cs ≠ [] ∧ s.p = 0
  · rw [if_pos hfull]
    exact ⟨_, rfl, trivial⟩
  rw [if_neg hfull]
  -- the slash before the component is put on the stack
  obtain ⟨stack, p, hstack, hp', hl, hlen', hdrop, hadd⟩ : ∃ stack p,
      (if cs ≠ [] then put s.stack (s.p - 1) [slash] else some s.stack) = some stack ∧
      (if cs ≠ [] then s.p - 1 else s.p) = p ∧ (if cs ≠ [] then n.length + 1 else n.length) =
      (sep cs ++ n).length ∧
      stack.length = pathMax + 1 ∧ stack.drop p = (sep cs ++ n) ++ (t ++ [0]) ∧
      p + (sep cs ++ n).length = s.p + n.length := by
    cases cs with
    | nil =>
      exact ⟨s.stack, s.p, rfl, rfl, rfl, hlen, by rw [v.unread, sep_nil, nil_append, append_assoc],
        rfl⟩
    | cons c cs =>
      have hpos : s.p ≠ 0 := fun hzero => hfull ⟨cons_ne_nil c cs, hzero⟩
      obtain ⟨stack, w⟩ := exists_put s.stack (s.p - 1) [slash] (by rw [length_singleton]; omega)
      have hnext : s.p - 1 + [slash].length = s.p := by
        rw [length_singleton]
        omega
      have hlen1 : (sep (c :: cs) ++ n).length = n.length + 1 := rfl
      simp only [if_pos (cons_ne_nil c cs), hlen1]
      refine ⟨stack, s.p - 1, w.eq, rfl, trivial, w.length.trans hlen, ?_, by omega⟩
      rw [w.drop, hnext, v.unread, sep_cons, append_assoc, append_assoc]
  rw [hstack, hl, hp', bind_some]
  by_cases hlong : s.q + (sep cs ++ n).length ≥ pathMax
  · rw [if_pos hlong]
    exact ⟨_, rfl, trivial⟩
  obtain ⟨o, output, ho, houtput, hcop⟩ := exists_copied v hlen' hdrop (not_le.1 hlong)
  have hfits : p + (sep cs ++ n).length ≤ stack.length := by
    rw [length_append] at hp
    omega
  rw [if_neg hlong, sub_of_drop hdrop hfits, bind_some, ho, bind_some, houtput]
  rw [hadd] at hcop ⊢
  subst hcs
  have hm : Taken sys goal s { s with stack, output, p := s.p + n.length } n t root₀ names ns :=
    ⟨hcnt, rfl, hcop, m, ht⟩
  by_cases hnil : n = []
  · obtain ⟨rfl, hcheck⟩ := hend hnil
    subst hnil
    exact copied_nil hm hcheck rfl rfl
  have hlt : s.p < s.p + n.length := Nat.lt_add_of_pos_right (length_pos_iff.2 hnil)
  by_cases hup : n = dotdot
  · subst hup
    exact copied_up hm hlt
  · have hnul : 0 ∉ n := fun hmem => v.noNul (mem_append_left _ hmem)
    exact copied_name hm ⟨hnil, hdot, hup, hslash, hnul⟩ hlt

lemma isSpecial_eq (v : View s (slash :: t) out) :
    ∃ b, isSpecial s.stack (s.p + 1) = some b ∧ rootText t = if b then [slash, slash] else [slash] := by
  have h1 := getElem?_of_drop v.unread 1
  have h2 := getElem?_of_drop v.unread 2
  rw [isSpecial, h1]
  cases t with
  | nil => exact ⟨false, by simp [slash], by decide⟩
  | cons c t =>
    by_cases hc : c = slash
    · rw [h2]
      cases t with
      | nil => exact ⟨true, by simp [hc, slash], by simp [rootText, hc]⟩
      | cons d t =>
        refine ⟨decide (d ≠ slash), by simp [hc], ?_⟩
        simp [rootText, hc]
    · refine ⟨false, by simp [hc], ?_⟩
      simp [rootText, hc]

lemma atRoot_ok (hcnt : s.cnt < symloopMax) (v : View s (slash :: t) out)
    (m : Means sys goal (slash :: t) (decide (s.checkDir ≠ 0)) s.nup root₀ names ns) :
    ∃ nx, atRoot s = some nx ∧ RoundOk sys goal s nx := by
  have m' := m.absolute
  obtain ⟨b, hb, hroot⟩ := isSpecial_eq v
  have hout := v.outLen
  obtain ⟨o, w⟩ := exists_put s.output 0 [slash] (by rw [hout]; decide)
  obtain ⟨output, hslash, hlen, htake⟩ : ∃ output, putSlash b o 1 = some output ∧
    output.length = pathMax ∧
      output.take (if b then 2 else 1) = rootText t := by
    rw [hroot]
    cases b with
    | false => exact ⟨o, rfl, w.length.trans hout, w.take_add⟩
    | true =>
      obtain ⟨output, w'⟩ := exists_put o 1 [slash] (by rw [w.length, hout]; decide)
      exact ⟨output, w'.eq, by rw [w'.length, w.length, hout],
        w'.take_add.trans (congrArg (· ++ [slash]) w.take_add)⟩
  rw [atRoot, w.eq, hb]
  simp only [bind_eq_bind, bind_some, hslash]
  have hadv := v.advance (n := [slash])
  have hv : View { s with output, p := s.p + 1, q := if b then 2 else 1, nup := 0, checkDir := 0 } t
      (rootText t ++ glue ([] ++ replicate 0 dotdot)) := by
    refine ⟨v.stackLen, hlen, hadv.unread, hadv.noNul, ?_, ?_⟩
    · rw [htake]
      simp [glue]
    · dsimp only
      split_ifs <;> decide
  exact ⟨_, rfl, next_ok hcnt rfl hv m' (.inl (lt_succ_self _))⟩

/-- **A round** stays inside of the buffers and keeps what the path means. -/
theorem round_spec (h : Good sys goal s) : ∃ nx, round sys s = some nx ∧ RoundOk sys goal s nx := by
  obtain ⟨hcnt, rest, root₀, names, ns, v, m⟩ := h
  have hhead := v.head
  by_cases hslash : rest.head? = some slash
  · obtain ⟨t, rfl⟩ : ∃ t, rest = slash :: t := head?_eq_some_iff.1 hslash
    rw [round, hhead]
    exact atRoot_ok hcnt v m
  · -- the component and what is after it
    obtain ⟨n, t, rfl, hn, ht⟩ : ∃ n t, rest = n ++ t ∧ slash ∉ n ∧ AtEnd t := by
      refine ⟨rest.takeWhile fun c => c ≠ slash, rest.dropWhile fun c => c ≠ slash,
        (takeWhile_append_dropWhile).symm, fun hmem => ?_, fun c hc => ?_⟩
      · simpa using mem_takeWhile_imp hmem
      · have hne := head?_dropWhile_not (fun c => decide (c ≠ slash)) rest
        rw [hc] at hne
        simpa using hne
    have hnil : n = [] → t = [] := by
      rintro rfl
      cases t with
      | nil => rfl
      | cons c t => exact absurd (by rw [ht c rfl]; rfl) hslash
    obtain ⟨c, hc, hne⟩ : ∃ c, (n ++ t ++ [0])[0]? = some c ∧ c ≠ slash := by
      cases hrest : n ++ t with
      | nil => exact ⟨0, rfl, by decide⟩
      | cons c u => exact ⟨c, rfl, fun heq => hslash (by rw [hrest, heq]; rfl)⟩
    rw [round, hhead, hc]
    simp only [bind_eq_bind, bind_some, if_neg hne, v.componentLen_eq hn ht]
    by_cases hleave : n.length = 0 ∧ s.checkDir = 0
    · rw [if_pos hleave]
      obtain ⟨hlen, hcheck⟩ := hleave
      obtain rfl := length_eq_zero_iff.1 hlen
      obtain rfl := hnil rfl
      rw [decide_eq_false (not_not.2 hcheck)] at m
      exact ⟨_, rfl, root₀, names, ns, v, m⟩
    rw [if_neg hleave]
    have hdot : (n.length = 1 ∧ c = 46) ↔ n = dot := by
      constructor
      · rintro ⟨hlen, rfl⟩
        obtain ⟨d, rfl⟩ := length_eq_one_iff.1 hlen
        obtain rfl : d = 46 := by simpa using hc
        rfl
      · rintro rfl
        exact ⟨rfl, by simpa [dot] using hc.symm⟩
    by_cases hn' : n = dot
    · rw [if_pos (hdot.2 hn')]
      subst hn'
      exact ⟨_, rfl, next_ok hcnt rfl v.advance (m.dot ht) (.inl (lt_succ_self _))⟩
    · rw [if_neg fun heq => hn' (hdot.1 heq)]
      exact component_ok hcnt v m ht hn hn' fun heq =>
        ⟨hnil heq, fun hcheck => hleave ⟨by rw [heq]; rfl, hcheck⟩⟩

/-- **The loop** ends, and the path is resolved. -/
theorem loop_spec {rounds : ℕ} (h : Good sys goal s) (hrounds : measure s < rounds) :
    ∃ e, loop sys rounds s = some e ∧ ∀ s', e = .ok s' → Finished sys goal s' := by
  induction rounds generalizing s with
  | zero => exact absurd hrounds (not_lt_zero _)
  | succ rounds ih =>
    obtain ⟨nx, hnx, hok⟩ := round_spec h
    rw [loop, hnx]
    cases nx with
    | next s' =>
      obtain ⟨j, hj, hgood, hlt⟩ := hok
      simp only [bind_eq_bind, bind_some, hj]
      exact ih hgood (by omega)
    | restart s' => exact ih hok.1 (by have hlt := hok.2; omega)
    | leave s' =>
      refine ⟨_, rfl, fun s'' heq => ?_⟩
      cases heq
      exact hok
    | fail e => exact ⟨_, rfl, fun s'' heq => by cases heq⟩

end Round

section Result

variable {sys : System} {goal : List Text → Prop} {s : State} {names ns ns₀ cs ds : List Text} {nup : ℕ}

lemma glue_append (ds : List Text) (hcs : cs ≠ []) : glue (cs ++ ds) = glue ds ++ sep ds ++ glue cs := by
  induction cs with
  | nil => exact absurd rfl hcs
  | cons c cs ih =>
    cases cs with
    | nil => rfl
    | cons c' cs =>
      have hlast : glue (c :: c' :: cs) = glue (c' :: cs) ++ [slash] ++ c := rfl
      rw [cons_append, glue, ih (cons_ne_nil c' cs), cons_append, sep_cons, hlast]
      simp

lemma joined_append_of_ne_nil (hds : ds ≠ []) : joined (cs ++ ds) = joined cs ++ sep cs ++ joined ds := by
  have hsep : sep cs.reverse = sep cs := by simp [sep]
  have happ := glue_append cs.reverse (reverse_ne_nil_iff.2 hds)
  rw [glue_eq, glue_eq, glue_eq, hsep, reverse_append, reverse_reverse, reverse_reverse] at happ
  exact happ

variable {root : Node} {l p q : ℕ} {stack output : Buf}

lemma Reached.of_names (h : Reached root ns₀ (names ++ cs) ns) (hnames : ∀ n ∈ names, IsName n) :
    ∃ ns', Reached root ns₀ cs ns' ∧ ns = ns' ++ names.reverse := by
  induction names generalizing ns with
  | nil => exact ⟨ns, h, (append_nil ns).symm⟩
  | cons n names ih =>
    obtain ⟨ns1, hrec, -, -, hn⟩ := h
    rw [if_neg (hnames n mem_cons_self).ne_dotdot] at hn
    obtain ⟨ns', hns', rfl⟩ := ih hrec (forall_mem_cons.1 hnames).2
    exact ⟨ns', hns', by rw [hn.1, reverse_cons, append_assoc]⟩

lemma Reached.of_ups (h : Reached root ns₀ (replicate nup dotdot) ns) :
    ns = ns₀.take (ns₀.length - nup) := by
  induction nup generalizing ns with
  | zero => rw [h.1, Nat.sub_zero, take_length]
  | succ nup ih =>
    obtain ⟨ns', hrec, -, -, hns⟩ := h
    rw [hns, ih hrec, dropLast_eq_take, take_take, length_take]
    congr 1
    omega

lemma backToSlash_pathText (hns : ∀ n ∈ ns, IsName n) (hl : l = (pathText ns).length)
    (htake : stack.take l = pathText ns) :
    ∃ i, backToSlash 1 stack l = some i ∧
    (if i > 1 then i - 1 else i) = (pathText ns.dropLast).length := by
  have hle : l ≤ stack.length := by
    have hlen := congrArg length htake
    rw [length_take] at hlen
    omega
  rcases eq_nil_or_concat ns with rfl | ⟨ms, m, rfl⟩
  · refine ⟨1, backToSlash_eq (x := [slash]) hle (by rw [htake]; rfl) (not_mem_nil)
      (.inr rfl) le_rfl, rfl⟩
  · rw [concat_eq_append] at htake hl hns ⊢
    have hm : IsName m := hns m (by simp)
    rw [pathText, joined_append] at htake
    refine ⟨_, backToSlash_eq (x := slash :: joined ms ++ sep ms) hle (by rw [htake]; simp) hm.slash
      (.inr ?_) ?_, ?_⟩
    · cases ms with
      | nil => rfl
      | cons k ms => rw [sep_cons]; exact getLast?_concat
    · simp
    · rw [dropLast_concat, pathText]
      cases ms with
      | nil => rfl
      | cons k ms =>
        rw [sep_cons, length_append, length_singleton, if_pos (by simp), Nat.add_sub_cancel]

/-- `while (nup--)`. -/
lemma applyUps_spec (nup k : ℕ) (hns : ∀ n ∈ ns, IsName n) (hl : l = (pathText ns).length)
    (htake : stack.take l = pathText ns) (hp : p = min (3 * k) q) (hq : 3 * (k + nup) ≤ q + 1) :
    ∃ l', applyUps stack q nup l p = some (l', min (3 * (k + nup)) q) ∧
      l' = (pathText (ns.take (ns.length - nup))).length ∧ l' ≤ l ∧
      stack.take l' = pathText (ns.take (ns.length - nup)) := by
  induction nup generalizing ns l p k with
  | zero =>
    refine ⟨l, by rw [applyUps, hp, add_zero], ?_, le_rfl, ?_⟩
    · rw [Nat.sub_zero, take_length, hl]
    · rw [Nat.sub_zero, take_length, htake]
  | succ nup ih =>
    obtain ⟨i, hi, hl'⟩ := backToSlash_pathText hns hl htake
    have hdrop : ∃ t, pathText ns = pathText ns.dropLast ++ t := by
      rcases eq_nil_or_concat ns with rfl | ⟨ms, m, rfl⟩
      · exact ⟨[], rfl⟩
      · rw [concat_eq_append, pathText, joined_append]
        exact ⟨sep ms ++ m, by simp [pathText]⟩
    obtain ⟨t, ht⟩ := hdrop
    have hle : (pathText ns.dropLast).length ≤ l := by
      rw [hl, ht, length_append]
      omega
    have htake' : stack.take (pathText ns.dropLast).length = pathText ns.dropLast := by
      rw [← min_eq_left hle, ← take_take, htake, ht, take_left]
    have hp' : (if p + 2 < q then p + 2 + 1 else p + 2) = min (3 * (k + 1)) q := by
      split_ifs <;> omega
    obtain ⟨l', hups, hlen, hl'le, hstack⟩ := ih (k + 1)
      (fun n hn => hns n (mem_of_mem_dropLast hn)) rfl htake' hp' (by omega)
    have hrest : ns.dropLast.take (ns.dropLast.length - nup) = ns.take (ns.length - (nup + 1)) := by
      rw [length_dropLast, dropLast_eq_take, take_take]
      congr 1
      omega
    rw [hrest] at hlen hstack
    refine ⟨l', ?_, hlen, hl'le.trans hle, hstack⟩
    rw [applyUps, hi]
    simp only [bind_eq_bind, bind_some]
    rw [hl', hups]
    congr 3
    omega

lemma glue_ups (nup : ℕ) (hnames : ∀ n ∈ names, IsName n) :
    ∃ x, glue (names ++ replicate nup dotdot) = x ++ joined names.reverse ∧
      x.length = min (3 * nup) (glue (names ++ replicate nup dotdot)).length ∧
      3 * nup ≤ (glue (names ++ replicate nup dotdot)).length + 1 := by
  have hups := length_glue_dotdot nup
  by_cases hne : names = []
  · subst hne
    refine ⟨glue (replicate nup dotdot), by simp [joined], ?_⟩
    rw [nil_append]
    exact ⟨by omega, by omega⟩
  · have hlt := lt_length_glue nup hnames hne
    refine ⟨glue (replicate nup dotdot) ++ sep (replicate nup dotdot), ?_, ?_, by omega⟩
    · rw [glue_append _ hne, glue_eq names]
    · rw [min_eq_left hlt.le, length_append, hups]
      cases nup with
      | zero => rfl
      | succ nup =>
        rw [replicate_succ, sep_cons, length_singleton]
        omega

lemma getLast_pathText (hns : ∀ n ∈ ns, IsName n) :
    ∃ c, (pathText ns)[(pathText ns).length - 1]? = some c ∧ (c ≠ slash ↔ ns ≠ []) := by
  rw [← getLast?_eq_getElem?]
  by_cases hne : ns = []
  · exact ⟨slash, by rw [hne]; rfl, by simp [hne]⟩
  · have hcomp : ∀ n ∈ ns.reverse, IsComponent n := fun n hn => (hns n (mem_reverse.1 hn)).component
    obtain ⟨d, hd, hslash⟩ := getLast?_glue [slash] hcomp (by simpa using hne)
    rw [glue_eq, reverse_reverse] at hd
    exact ⟨d, hd, by simp [hslash, hne]⟩

/-- **A relative path after the working directory**. -/
theorem prepend_spec {x : Text} (hns : ∀ n ∈ ns, IsName n) (hl : l = (pathText ns).length)
    (htake : stack.take l = pathText ns) (hstack : l + 1 ≤ stack.length) (hout : output.length = pathMax)
    (hq : q < pathMax) (hread : output.take q = x ++ joined ds) (hx : x.length = p)
    (hds : ∀ n ∈ ds, IsName n) :
    ∃ e, prepend stack output p q l = some e ∧ ∀ o,
    e = .ok o → sub o.1 0 o.2 = some (pathText (ns ++ ds)) := by
  have hlen : q = p + (joined ds).length := by
    have hlen := congrArg length hread
    rw [length_take, length_append] at hlen
    omega
  have hempty : q - p ≠ 0 ↔ ds ≠ [] := by
    rw [hlen]
    cases ds with
    | nil => simp [joined]
    | cons d ds =>
      have hd := length_pos_iff.2 (hds d mem_cons_self).ne_nil
      have hpos : 0 < (joined (d :: ds)).length := by
        cases ds with
        | nil => exact hd
        | cons d' ds =>
          rw [joined, length_append]
          omega
      simp only [ne_eq, cons_ne_nil, not_false_eq_true, iff_true]
      omega
  obtain ⟨c, hc, hslash⟩ := getLast_pathText hns
  have hget : stack[l - 1]? = some c := by
    have hpos : l - 1 < l := by
      rw [hl, pathText, length_cons]
      omega
    rw [← getElem?_take_of_lt hpos, htake, hl, hc]
  rw [prepend, if_neg (by omega), hget]
  simp only [bind_eq_bind, bind_some, decide_eq_true_eq, hempty, hslash]
  -- the working directory and a slash
  obtain ⟨stack', hput, hlen', hwhole⟩ : ∃ stack', putSlash (decide (ds ≠ [] ∧ ns ≠ [])) stack l =
    some stack' ∧
      stack'.length = stack.length ∧
      ∃ y, stack'.take (if ds ≠ [] ∧ ns ≠ [] then l + 1 else l) = y ∧
      y ++ joined ds = pathText (ns ++ ds) ∧
        y.length = if ds ≠ [] ∧ ns ≠ [] then l + 1 else l := by
    by_cases hboth : ds ≠ [] ∧ ns ≠ []
    · obtain ⟨stack', w⟩ := exists_put stack l [slash] hstack
      have hadd : stack'.take (l + 1) = _ := w.take_add
      refine ⟨stack', by rw [putSlash, if_pos (by simpa using hboth)]; exact w.eq, w.length, _, rfl,
        ?_, ?_⟩
      · obtain ⟨m, ms, hm⟩ := exists_cons_of_ne_nil hboth.2
        rw [if_pos hboth, hadd, htake, pathText, pathText, joined_append_of_ne_nil hboth.1, hm]
        simp
      · rw [if_pos hboth, length_take, w.length, min_eq_left hstack]
    · refine ⟨stack, by rw [putSlash, if_neg (by simpa using hboth)], rfl,
        pathText ns, by rw [if_neg hboth, htake], ?_, ?_⟩
      · by_cases hdn : ds = []
        · simp [hdn, joined]
        · have hnn : ns = [] := by
            by_contra hnn
            exact hboth ⟨hdn, hnn⟩
          rw [hnn]
          rfl
      · rw [if_neg hboth, hl]
  obtain ⟨y, hy, hpath, hylen⟩ := hwhole
  rw [hput, bind_some]
  by_cases hlong : (if ds ≠ [] ∧ ns ≠ [] then l + 1 else l) + (q - p) + 1 ≥ pathMax
  · rw [if_pos hlong]
    exact ⟨_, rfl, fun o ho => by cases ho⟩
  rw [if_neg hlong, ← hylen]
  rw [← hylen] at hlong hy
  -- the names are moved, with the byte after them
  obtain ⟨b, u, hu⟩ : ∃ b u, output.drop q = b :: u := exists_cons_of_ne_nil fun hnil => by
    have hdrop := congrArg length hnil
    rw [length_drop, length_nil] at hdrop
    omega
  have hdrop : output.drop p = (joined ds ++ [b]) ++ u := by
    have hall := take_append_drop q output
    rw [hread, hu] at hall
    rw [← hall, append_assoc, drop_left' hx]
    simp
  have hmoved : q - p + 1 = (joined ds ++ [b]).length := by
    rw [length_append, length_singleton]
    omega
  obtain ⟨o1, w⟩ := exists_put output y.length (joined ds ++ [b]) (by rw [← hmoved]; omega)
  have hsub : sub stack' 0 y.length = some y := by
    have hyle : y.length ≤ stack'.length := by
      rw [← hy, length_take]
      exact min_le_right _ _
    rw [sub, if_pos (by omega), drop_zero, hy]
  obtain ⟨o2, w'⟩ := exists_put o1 0 y (by rw [w.length]; omega)
  rw [hmoved, sub_of_drop hdrop (by rw [← hmoved]; omega), bind_some, w.eq, bind_some, hsub, bind_some,
    w'.eq]
  refine ⟨_, rfl, fun o ho => ?_⟩
  cases ho
  have hres : y.length + (q - p) = (y ++ joined ds).length := by
    rw [length_append]
    omega
  rw [← hpath, hres]
  refine sub_of_drop (u := [b] ++ output.drop (y.length + (joined ds ++ [b]).length)) ?_ ?_
  · rw [w'.drop, zero_add, w.drop]
    simp
  · rw [w'.length, w.length]
    omega

/-- A text is the absolute path of a place without links on the way; it may begin with `//`. -/
structure IsPathOf (root : Node) (ns : List Text) (r : Text) : Prop where
  names : ∀ n ∈ ns, IsName n
  noLink : ∀ k, ∃ node, root.find (ns.take k) = some node ∧ node.isLink = false
  text : r = slash :: joined ns ∨ r = slash :: slash :: joined ns

lemma noLink_take {node : Node} (hfind : root.find ns = some node) (hnode : node.isLink = false) (k : ℕ) :
    ∃ node, root.find (ns.take k) = some node ∧ node.isLink = false := by
  by_cases hk : ns.length ≤ k
  · exact ⟨node, by rw [take_of_length_le hk, hfind], hnode⟩
  · have happ : root.find (ns.take k ++ ns.drop k) = some node := by rw [take_append_drop, hfind]
    have hne : ns.drop k ≠ [] := fun hnil => hk (drop_eq_nil_iff.1 hnil)
    obtain ⟨dir, hdir, hisDir⟩ := IsDir.of_append happ hne
    exact ⟨dir, hdir, Node.not_isLink_of_isDir hisDir⟩

lemma relative_spec (sys : System) (v : View s [] (glue (names ++ replicate s.nup dotdot)))
    (hnames : ∀ n ∈ names, IsName n) (hout : output.length = pathMax)
    (hwritten : output.take s.q = glue (names ++ replicate s.nup dotdot)) :
    ∃ e, relative sys s output = some e ∧
      ∀ r, e = .ok r → r = pathText (sys.cwd.take (sys.cwd.length - s.nup) ++ names.reverse) := by
  have hstack := v.stackLen
  rw [relative, System.cwdText]
  by_cases hrange : (pathText sys.cwd).length + 1 > pathMax + 1
  · rw [if_pos hrange]
    exact ⟨_, rfl, fun r hr => by cases hr⟩
  rw [if_neg hrange]
  obtain ⟨stack, w⟩ :=
    exists_put s.stack 0 (pathText sys.cwd ++ [0]) (by rw [length_append, length_singleton]; omega)
  have hlen := w.length
  rw [w.eq, bind_eq_bind, bind_some]
  have htext : stack.take (pathText sys.cwd).length = pathText sys.cwd := by
    have hle : (pathText sys.cwd).length ≤ 0 + (pathText sys.cwd ++ [0]).length := by
      rw [length_append]
      omega
    rw [← min_eq_left hle, ← take_take, w.take_add, take_zero, nil_append, take_left]
  obtain ⟨x, hx, hxlen, hups⟩ := glue_ups s.nup hnames
  rw [← v.q_eq] at hxlen hups
  obtain ⟨l, happly, hl, hle, hltake⟩ := applyUps_spec s.nup 0 (p := 0) (q := s.q) sys.cwd_names rfl htext
    (by simp) (by omega)
  rw [zero_add] at happly
  rw [happly, bind_eq_bind, bind_some]
  obtain ⟨e, he, hres⟩ := prepend_spec (fun n hn => sys.cwd_names n (mem_of_mem_take hn)) hl hltake
    (by omega) hout v.q_lt (hwritten.trans hx) hxlen (fun n hn => hnames n (mem_reverse.1 hn))
  rw [he, bind_eq_bind, bind_some]
  cases e with
  | error e => exact ⟨_, rfl, fun r hr => by cases hr⟩
  | ok o =>
    dsimp only
    rw [hres o rfl]
    refine ⟨_, rfl, fun r hr => ?_⟩
    cases hr
    rfl

/-- **The end**: the result is the path of the place that was reached. -/
theorem finish_spec (h : Finished sys goal s) :
    ∃ e, finish sys s = some e ∧ ∀ r, e = .ok r → ∃ ns, goal ns ∧ IsPathOf sys.root ns r := by
  obtain ⟨root₀, names, ns, v, m⟩ := h
  have hgoal : goal ns := m.key ns (by rw [Remains]; exact .done ns)
  obtain ⟨node, hfind, hnode⟩ := m.reached.exists_node
  obtain ⟨ns', hups, hns⟩ := m.reached.of_names m.isName
  have hplace := hups.of_ups
  have hout := v.outLen
  have hq := v.q_lt
  obtain ⟨output, w⟩ := exists_put s.output s.q [0] (by rw [length_singleton]; omega)
  have hwritten := (w.take _ le_rfl).trans v.written
  have hlen := w.length.trans hout
  rw [finish, w.eq, bind_eq_bind, bind_some]
  have hall := take_append_drop s.q output
  rw [hwritten] at hall
  by_cases hroot : root₀ = []
  · subst hroot
    obtain ⟨c, hc, hne⟩ : ∃ c, output[0]? = some c ∧ c ≠ slash := by
      rw [← head?_eq_getElem?, ← hall]
      by_cases hcs : names ++ replicate s.nup dotdot = []
      · rw [hcs, w.drop]
        exact ⟨0, rfl, by decide⟩
      · exact head?_glue m.reached.component hcs
    obtain ⟨e, he, hr⟩ := relative_spec sys v m.isName hlen hwritten
    rw [hc, bind_eq_bind, bind_some, if_neg hne, he]
    refine ⟨e, rfl, fun r heq => ⟨ns, hgoal, fun n hn => ?_, noLink_take hfind hnode, .inl ?_⟩⟩
    · rw [hns, mem_append] at hn
      rcases hn with hn | hn
      · exact sys.cwd_names n (mem_of_mem_take (hplace ▸ hn))
      · exact m.isName n (mem_reverse.1 hn)
    · rw [hr r heq, hns, hplace]
      rfl
  · -- an absolute path is in `output`
    have hnup := m.ups hroot
    rw [System.origin, if_neg hroot] at hplace
    have hns' : ns = names.reverse := by
      rw [hns, hplace, take_nil, nil_append]
    have hc : output[0]? = some slash := by
      rw [← hall]
      rcases m.root with rfl | rfl | rfl
      · exact absurd rfl hroot
      · rfl
      · rfl
    have hsub : sub output 0 s.q = some (root₀ ++ joined ns) := by
      rw [sub, if_pos (by omega), drop_zero, hwritten, hnup, replicate_zero, append_nil, glue_eq, hns']
    rw [hc, bind_eq_bind, bind_some, hsub]
    refine ⟨_, rfl, fun r heq => ⟨ns, hgoal, fun n hn => ?_, noLink_take hfind hnode, ?_⟩⟩
    · exact m.isName n (mem_reverse.1 (hns' ▸ hn))
    · cases heq
      rcases m.root with rfl | rfl | rfl
      · exact absurd rfl hroot
      · exact .inl rfl
      · exact .inr rfl

lemma good_start (sys : System) (name : FileName) (hstack : stack.length = pathMax + 1)
    (hout : output.length = pathMax) (hdrop : stack.drop p = name.text ++ [0]) :
    Good sys (Resolves sys.root (start sys.cwd name.text) (tokens name.text))
      { stack, output, p, q := 0, cnt := 0, nup := 0, checkDir := 0 } := by
  have hcnt : 0 < symloopMax := by decide
  have hq : 0 < pathMax := by decide
  refine ⟨hcnt, name.text, [], [], sys.cwd, ⟨hstack, hout, hdrop, name.noNul, rfl, hq⟩, .inl rfl,
    fun hroot => absurd rfl hroot, forall_mem_nil _, ⟨?_, ?_⟩, fun hf => ?_,
    fun _ => .inl sys.cwd_dir, fun r hr => ?_⟩
  · rw [System.origin, if_pos rfl]
  · exact sys.cwd_dir
  · exact absurd hf (by simp)
  · rw [Remains] at hr
    rw [start]
    by_cases habs : name.text.head? = some slash
    · rw [if_pos habs] at hr ⊢
      exact hr
    · rw [if_neg habs] at hr ⊢
      exact hr

lemma measure_start (p : ℕ) (stack output : Buf) :
    measure { stack, output, p, q := 0, cnt := 0, nup := 0, checkDir := 0 } < maxRounds := by
  rw [measure, maxRounds, if_pos rfl]
  simp only [pathMax]
  omega

/-- **`realpath`** stays inside of its buffers and comes to an end.  What it returns is the absolute
path of the place that the file name leads to, component by component; it fails if there is no such
place. -/
theorem realpath_resolves (sys : System) (junk : ℕ → UInt8) (filename : Option FileName) :
    ∃ result, realpath sys junk filename = some result ∧ (∀ r, result = .ok r → ∃ name ns,
      filename = some name ∧
        Resolves sys.root (start sys.cwd name.text) (tokens name.text) ns ∧ IsPathOf sys.root ns r ∧
        ∀ ns', Resolves sys.root (start sys.cwd name.text) (tokens name.text) ns' → ns' = ns) ∧
      (∀ name, filename = some name →
        (¬∃ ns, Resolves sys.root (start sys.cwd name.text) (tokens name.text) ns) → ∃ e,
        result = .error e) := by
  suffices hmain : ∃ result, realpath sys junk filename = some result ∧ ∀ r, result = .ok r → ∃ name ns,
      filename = some name ∧ Resolves sys.root (start sys.cwd name.text) (tokens name.text) ns ∧
        IsPathOf sys.root ns r by
    obtain ⟨result, hres, hok⟩ := hmain
    refine ⟨result, hres, fun r hr => ?_, fun name hname hnone => ?_⟩
    · obtain ⟨name, ns, hname, hns, hpath⟩ := hok r hr
      exact ⟨name, ns, hname, hns, hpath, fun ns' hns' => hns'.unique hns⟩
    · cases result with
      | error e => exact ⟨e, rfl⟩
      | ok r =>
        obtain ⟨name', ns, hname', hns, -⟩ := hok r rfl
        obtain rfl := some.inj (hname.symm.trans hname')
        exact absurd ⟨ns, hns⟩ hnone
  cases filename with
  | none => exact ⟨_, rfl, fun r hr => by cases hr⟩
  | some name =>
    rw [realpath]
    dsimp only
    by_cases hzero : min name.text.length (pathMax + 1) = 0
    · rw [if_pos hzero]
      exact ⟨_, rfl, fun r hr => by cases hr⟩
    rw [if_neg hzero]
    by_cases hlong : min name.text.length (pathMax + 1) ≥ pathMax
    · rw [if_pos hlong]
      exact ⟨_, rfl, fun r hr => by cases hr⟩
    have hmin : min name.text.length (pathMax + 1) = name.text.length := by omega
    rw [hmin] at hzero hlong
    rw [hmin, if_neg hlong, take_length]
    have hjunk : ((range (pathMax + 1)).map junk).length = pathMax + 1 := by simp
    have hjunk' : ((range pathMax).map junk).length = pathMax := by simp
    generalize (range (pathMax + 1)).map junk = junk0 at *
    obtain ⟨stack, w⟩ := exists_put junk0 (pathMax + 1 - name.text.length - 1) (name.text ++ [0])
      (by rw [length_append, length_singleton]; omega)
    have hend : junk0.drop (pathMax + 1 - name.text.length - 1 + (name.text ++ [0]).length) = [] := by
      rw [drop_eq_nil_iff, length_append, length_singleton]
      omega
    have hdrop := w.drop
    rw [hend, append_nil] at hdrop
    rw [w.eq, bind_eq_bind, bind_some]
    have hgood := good_start sys name (w.length.trans hjunk) hjunk' hdrop
    obtain ⟨e, he, hok⟩ := loop_spec hgood (measure_start _ _ _)
    rw [he, bind_eq_bind]
    cases e with
    | error e => exact ⟨_, rfl, fun r hr => by cases hr⟩
    | ok s =>
      obtain ⟨result, hres, hpath⟩ := finish_spec (hok s rfl)
      refine ⟨result, hres, fun r hr => ?_⟩
      obtain ⟨ns, hns, hns'⟩ := hpath r hr
      exact ⟨name, ns, rfl, hns, hns'⟩

end Result

/-- The working directory `a` has a link `l` to `../b`, which is a file. -/
def linkSystem : System where
  root := .dir [([97], .dir [([108], .link [46, 46, 47, 98] (by decide))]), ([98], .file)]
  cwd := [[97]]
  cwd_names := by
    intro n hn
    obtain rfl := mem_singleton.1 hn
    exact ⟨by decide, by decide, by decide, by decide, by decide⟩
  cwd_dir := ⟨_, rfl, rfl⟩

/-- `../a/l`. -/
def linkName : FileName := ⟨[46, 46, 47, 97, 47, 108], by decide⟩

lemma realpath_link :
    (realpath linkSystem (fun _ => 0) (some linkName)).map Except.toOption =
    some (some [47, 98]) := by
  decide +kernel

/-- From `../a/l`, which leads up, down and over the link, comes `/b`. -/
theorem realpath_resolves_link : ∃ r ns, realpath linkSystem (fun _ => 0)
    (some linkName) = some (.ok r) ∧ r = [47, 98] ∧
    Resolves linkSystem.root [[97]] (tokens linkName.text) ns ∧ IsPathOf linkSystem.root ns r := by
  obtain ⟨result, hres, hok, -⟩ := realpath_resolves linkSystem (fun _ => 0) (some linkName)
  have hlink := realpath_link
  rw [hres] at hlink
  cases result with
  | error e => cases hlink
  | ok r =>
    obtain ⟨name, ns, hname, hns, hpath, -⟩ := hok r rfl
    obtain rfl := some.inj hname
    exact ⟨r, ns, hres, some.inj (some.inj hlink), hns, hpath⟩

end Musl.Realpath
