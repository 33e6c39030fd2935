import Mathlib

/-!
# Resolution of path names

A file system is a tree of directories, files and symbolic links.  A path is resolved component by
component from a directory: `.` stays, `..` goes to the parent, and a link is replaced by its text,
which starts at the root if it begins with a slash.  What stands before a slash has to be a
directory.

The place that is reached is the list of the names from the root to it, none of them of a link.
-/

namespace Musl.Lib.Path

open List

abbrev Text := List UInt8

def slash : UInt8 := 47

def dot : Text := [46]

def dotdot : Text := [46, 46]

/-- A node of the tree; the text of a link is a C string. -/
inductive Node
  | dir (entries : List (Text × Node))
  | file
  | link (text : Text) (noNul : 0 ∉ text)

namespace Node

def child : Node → Text → Option Node
  | dir entries, n => (entries.find? fun e => e.1 = n).map Prod.snd
  | _, _ => none

def find (root : Node) : List Text → Option Node
  | [] => some root
  | n :: ns => (root.child n).bind fun node => find node ns

def isDir : Node → Bool
  | dir _ => true
  | _ => false

def isLink : Node → Bool
  | link _ _ => true
  | _ => false

lemma find_append (root : Node) (ns ms : List Text) :
    root.find (ns ++ ms) = (root.find ns).bind fun node => node.find ms := by
  induction ns generalizing root with
  | nil => rfl
  | cons n ns ih =>
    rw [cons_append, find, find, Option.bind_assoc]
    congr 1
    funext node
    exact ih node

lemma find_snoc (root : Node) (ns : List Text) (n : Text) :
    root.find (ns ++ [n]) = (root.find ns).bind fun node => node.child n := by
  rw [find_append]
  congr 1
  funext node
  rw [find]
  cases node.child n <;> rfl

lemma isDir_of_child {node node' : Node} {n : Text} (h : node.child n = some node') :
    node.isDir = true := by
  cases node with
  | dir entries => rfl
  | file => exact absurd h (by simp [child])
  | link text noNul => exact absurd h (by simp [child])

lemma not_isLink_of_isDir {node : Node} (h : node.isDir = true) : node.isLink = false := by
  cases node with
  | dir entries => rfl
  | file => rfl
  | link text noNul => exact absurd h (by simp [isDir])

end Node

def IsDir (root : Node) (ns : List Text) : Prop := ∃ node, root.find ns = some node ∧ node.isDir = true

lemma IsDir.of_find {root node : Node} {ns : List Text} {n : Text}
    (h : root.find (ns ++ [n]) = some node) :
    IsDir root ns := by
  rw [Node.find_snoc] at h
  obtain ⟨parent, hparent, hchild⟩ := Option.bind_eq_some_iff.1 h
  exact ⟨parent, hparent, Node.isDir_of_child hchild⟩

lemma IsDir.of_append {root node : Node} {ns ms : List Text} (h : root.find (ns ++ ms) = some node)
    (hms : ms ≠ []) :
    IsDir root ns := by
  induction ms using reverseRecOn generalizing node with
  | nil => exact absurd rfl hms
  | append_singleton ms m ih =>
    rw [← append_assoc] at h
    obtain ⟨parent, hparent, hdir⟩ := IsDir.of_find h
    by_cases hne : ms = []
    · rw [hne, append_nil] at hparent
      exact ⟨parent, hparent, hdir⟩
    · exact ih hparent hne

lemma IsDir.dropLast {root : Node} {ns : List Text} (h : IsDir root ns) : IsDir root ns.dropLast := by
  rcases eq_nil_or_concat ns with rfl | ⟨ms, m, rfl⟩
  · exact h
  · obtain ⟨node, hnode, -⟩ := h
    rw [concat_eq_append] at hnode ⊢
    rw [dropLast_concat]
    exact IsDir.of_find hnode

lemma IsDir.root {root : Node} {ns : List Text} (h : IsDir root ns) : IsDir root [] := by
  induction ns using reverseRecOn with
  | nil => exact h
  | append_singleton ns n ih =>
    obtain ⟨node, hnode, -⟩ := h
    exact ih (IsDir.of_find hnode)

/-! ### Components -/

inductive Token
  | slash
  | name (n : Text)
deriving DecidableEq

def tokens : Text → List Token
  | [] => []
  | c :: cs =>
    if c = slash then .slash :: tokens cs
    else
      match tokens cs with
      | .name n :: ts => .name (c :: n) :: ts
      | ts => .name [c] :: ts

def AtEnd (t : Text) : Prop := ∀ c ∈ t.head?, c = slash

lemma atEnd_slash (t : Text) : AtEnd (slash :: t) := fun d hd => by simpa using hd.symm

lemma tokens_slash (cs : Text) : tokens (slash :: cs) = .slash :: tokens cs := by
  rw [tokens, if_pos rfl]

lemma tokens_name {n t : Text} (hne : n ≠ []) (hn : slash ∉ n) (ht : AtEnd t) :
    tokens (n ++ t) = .name n :: tokens t := by
  induction n with
  | nil => exact absurd rfl hne
  | cons c n ih =>
    have hc : c ≠ slash := fun heq => hn (heq ▸ mem_cons_self)
    rw [cons_append, tokens, if_neg hc]
    cases n with
    | nil =>
      rw [nil_append]
      cases t with
      | nil => rfl
      | cons d t =>
        obtain rfl : d = slash := ht d rfl
        rw [tokens_slash]
    | cons d n => rw [ih (by simp) fun hmem => hn (mem_cons_of_mem _ hmem)]

lemma tokens_append {t u : Text} (hu : AtEnd u) : tokens (t ++ u) = tokens t ++ tokens u := by
  induction t with
  | nil => rfl
  | cons c t ih =>
    rw [cons_append, tokens, tokens, ih]
    split_ifs with hc
    · rfl
    · cases htok : tokens t with
      | nil =>
        cases u with
        | nil => rfl
        | cons d u =>
          obtain rfl : d = slash := hu d rfl
          rfl
      | cons k ts => cases k <;> rfl

def strip (t : Text) : Text := t.dropWhile fun c => c = slash

lemma head?_strip (t : Text) : (strip t).head? ≠ some slash := by
  induction t with
  | nil => simp [strip]
  | cons c t ih =>
    by_cases hc : c = slash
    · have hstrip : strip (c :: t) = strip t := by simp [strip, hc]
      rw [hstrip]
      exact ih
    · simp [strip, hc]

lemma exists_strip (t : Text) : ∃ j, tokens t = replicate j .slash ++ tokens (strip t) := by
  induction t with
  | nil => exact ⟨0, rfl⟩
  | cons c t ih =>
    by_cases hc : c = slash
    · obtain ⟨j, hj⟩ := ih
      subst hc
      have hstrip : strip (slash :: t) = strip t := by simp [strip]
      exact ⟨j + 1, by rw [tokens_slash, hj]; rfl⟩
    · have hstrip : strip (c :: t) = c :: t := by simp [strip, hc]
      exact ⟨0, by rw [hstrip]; rfl⟩

/-! ### Resolution -/

def start (ns : List Text) (t : Text) : List Text := if t.head? = some slash then [] else ns

inductive Resolves (root : Node) : List Text → List Token → List Text → Prop
  | done (ns : List Text) : Resolves root ns [] ns
  | slash {ns r : List Text} {ts : List Token} (hdir : IsDir root ns) (h : Resolves root ns ts r) :
      Resolves root ns (.slash :: ts) r
  | dot {ns r : List Text} {ts : List Token} (hdir : IsDir root ns) (h : Resolves root ns ts r) :
      Resolves root ns (.name dot :: ts) r
  | up {ns r : List Text} {ts : List Token} (hdir : IsDir root ns) (h : Resolves root ns.dropLast ts r) :
      Resolves root ns (.name dotdot :: ts) r
  | name {ns r : List Text} {ts : List Token} {n : Text} {node : Node} (hn : n ≠ Path.dot)
  (hn' : n ≠ dotdot) (hfind : root.find (ns ++ [n]) = some node) (hnode : node.isLink = false)
      (h : Resolves root (ns ++ [n]) ts r) :
      Resolves root ns (.name n :: ts) r
  | link {ns r : List Text} {ts : List Token} {n t : Text} {noNul : 0 ∉ t} (hn : n ≠ Path.dot)
  (hn' : n ≠ dotdot) (hfind : root.find (ns ++ [n]) = some (.link t noNul)) (ht : t ≠ [])
      (h : Resolves root (start ns t) (tokens t ++ ts) r) : Resolves root ns (.name n :: ts) r

section Resolves

variable {root : Node} {ns r r' : List Text} {ts us us' : List Token}

lemma Resolves.unique (h : Resolves root ns ts r) (h' : Resolves root ns ts r') : r = r' := by
  induction h with
  | done ns =>
    cases h' with
    | done => rfl
  | slash hdir _ ih =>
    cases h' with
    | slash _ h' => exact ih h'
  | dot hdir _ ih =>
    cases h' with
    | dot _ h' => exact ih h'
    | name hn => exact absurd rfl hn
    | link hn => exact absurd rfl hn
  | up hdir _ ih =>
    cases h' with
    | up _ h' => exact ih h'
    | name _ hn' => exact absurd rfl hn'
    | link _ hn' => exact absurd rfl hn'
  | name hn hn' hfind hnode _ ih =>
    cases h' with
    | dot => exact absurd rfl hn
    | up => exact absurd rfl hn'
    | name _ _ _ _ h' => exact ih h'
    | link _ _ hfind' =>
      rw [hfind] at hfind'
      cases hfind'
      exact absurd hnode (by simp [Node.isLink])
  | link hn hn' hfind ht _ ih =>
    cases h' with
    | dot => exact absurd rfl hn
    | up => exact absurd rfl hn'
    | name _ _ hfind' hnode =>
      rw [hfind] at hfind'
      cases hfind'
      exact absurd hnode (by simp [Node.isLink])
    | link _ _ hfind' _ h' =>
      rw [hfind] at hfind'
      cases hfind'
      exact ih h'

lemma Resolves.append_congr (hus : ∀ ns r, Resolves root ns us r → Resolves root ns us' r)
    (h : Resolves root ns (ts ++ us) r) : Resolves root ns (ts ++ us') r := by
  generalize hall : ts ++ us = all at h
  induction h generalizing ts with
  | done ns =>
    obtain ⟨rfl, rfl⟩ := append_eq_nil_iff.1 hall
    exact hus _ _ (.done ns)
  | slash hdir h ih =>
    cases ts with
    | nil => exact hus _ _ (by rw [nil_append] at hall; exact hall ▸ .slash hdir h)
    | cons k ts =>
      obtain ⟨rfl, rfl⟩ := cons.inj hall
      exact .slash hdir (ih rfl)
  | dot hdir h ih =>
    cases ts with
    | nil => exact hus _ _ (by rw [nil_append] at hall; exact hall ▸ .dot hdir h)
    | cons k ts =>
      obtain ⟨rfl, rfl⟩ := cons.inj hall
      exact .dot hdir (ih rfl)
  | up hdir h ih =>
    cases ts with
    | nil => exact hus _ _ (by rw [nil_append] at hall; exact hall ▸ .up hdir h)
    | cons k ts =>
      obtain ⟨rfl, rfl⟩ := cons.inj hall
      exact .up hdir (ih rfl)
  | name hn hn' hfind hnode h ih =>
    cases ts with
    | nil => exact hus _ _ (by rw [nil_append] at hall; exact hall ▸ .name hn hn' hfind hnode h)
    | cons k ts =>
      obtain ⟨rfl, rfl⟩ := cons.inj hall
      exact .name hn hn' hfind hnode (ih rfl)
  | link hn hn' hfind ht h ih =>
    cases ts with
    | nil => exact hus _ _ (by rw [nil_append] at hall; exact hall ▸ .link hn hn' hfind ht h)
    | cons k ts =>
      obtain ⟨rfl, rfl⟩ := cons.inj hall
      refine .link hn hn' hfind ht ?_
      change Resolves root _ (_ ++ (ts ++ us')) _
      rw [← append_assoc]
      exact ih (append_assoc _ _ _)

lemma Resolves.slashes (hdir : IsDir root ns) (j : ℕ) (h : Resolves root ns ts r) :
    Resolves root ns (replicate j .slash ++ ts) r := by
  induction j with
  | zero => exact h
  | succ j ih => exact .slash hdir ih

lemma Resolves.slash_slashes (j : ℕ) (h : Resolves root ns (.slash :: ts) r) :
    Resolves root ns (.slash :: (replicate j .slash ++ ts)) r := by
  cases h with
  | slash hdir h => exact .slash hdir (h.slashes hdir j)

lemma Resolves.of_strip {t : Text} (hdir : IsDir root ns) (h : Resolves root ns (tokens (strip t)) r) :
    Resolves root ns (tokens t) r := by
  obtain ⟨j, hj⟩ := exists_strip t
  rw [hj]
  exact h.slashes hdir j

end Resolves

end Musl.Lib.Path
