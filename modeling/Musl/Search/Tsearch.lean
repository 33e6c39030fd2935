import Musl.Lib.AvlTree

/-!
# `tsearch` and `tdelete` keep an AVL tree

`search/tsearch.c` and `search/tdelete.c` walk down from the root and remember the links they follow
in an array of `MAXH` of them; after a node was added or removed at the end of the path, they
balance the nodes on the path from the end upwards, and stop as soon as the height of one has not
changed.

A node is an address, a key and the stored height.  `rootp` is not null.  Where the source would
read through a null pointer or write past the end of the array, the result is `none`.  What `malloc`
returns is an argument of the call; it never hands out the address of a node that is in the tree.
-/

namespace Musl.Search

open Musl.Lib Musl.Lib.BinTree Nat

/-- `struct node` without its links. -/
structure Node (κ : Type) where
  addr : UInt64
  key : κ
  h : ℤ
deriving DecidableEq

abbrev Tree (κ : Type) := BinTree (Node κ)

/-- A comparison function: a total preorder, in which keys that compare equal count as the same. -/
structure Comparison (κ : Type) where
  fn : κ → κ → ℤ
  swap : ∀ a b, 0 < fn a b ↔ fn b a < 0
  trans : ∀ a b c, fn a b ≤ 0 → fn b c ≤ 0 → fn a c ≤ 0

section Model

variable {κ : Type}

def height (t : Tree κ) : ℤ := t.ht Node.h

/-- `rot`: the node `x` with the subtree `near` on the side `dir`, which is deeper, and `far` on the
other.  The new subtree, and by how much it is higher. -/
def rot (x : Node κ) (near far : Tree κ) (dir : Bool) : Option (Tree κ × ℤ) :=
  match near with
  | nil => none
  | node y yl yr =>
    let hz := height (pick (!dir) yl yr)
    if height (pick dir yl yr) < hz then
      match pick (!dir) yl yr with
      | nil => none
      | node z zl zr =>
        let x' := join dir { x with h := hz } (pick (!dir) zl zr) far
        let y' := join dir { y with h := hz } (pick dir yl yr) (pick dir zl zr)
        some (join dir { z with h := hz + 1 } y' x', hz + 1 - x.h)
    else
      let x' := join dir { x with h := hz + 1 } (pick (!dir) yl yr) far
      some (join dir { y with h := hz + 2 } (pick dir yl yr) x', hz + 2 - x.h)

/-- `__tsearch_balance`; the comparison is one of `unsigned int`. -/
def balance : Tree κ → Option (Tree κ × ℤ)
  | nil => none
  | node n l r =>
    if (height l - height r + 1) % 2 ^ 32 < 3 then
      let h := if height l < height r then height r + 1 else height l + 1
      some (node { n with h := h } l r, h - n.h)
    else
      let dir := decide (height l < height r)
      rot n (pick dir l r) (pick (!dir) l r) dir

/-- `while (i && __tsearch_balance(a[--i]));` -/
def rebalance : List (Frame (Node κ)) → Tree κ → Option (Tree κ)
  | [], t => some t
  | f :: fs, t => do
    let (t', d) ← balance (f.fill t)
    if d = 0 then return plug fs t'
    rebalance fs t'

def maxH : ℕ := 8 * 8 * 3 / 2

/-- There is room for one more link after `k` nodes of the path: `tsearch` has 1 entry before them
in an array of `MAXH`, `tdelete` 2 in one of `MAXH + 1`. -/
def Fits (k : ℕ) : Prop := k + 1 < maxH

instance (k : ℕ) : Decidable (Fits k) := inferInstanceAs (Decidable (_ < _))

/-- The loop that looks for a key: the subtree it ends at, empty if the key is not there, and the
path to it. -/
def descend (cmp : κ → κ → ℤ) (key : κ) :
    Tree κ → List (Frame (Node κ)) → Option (Tree κ × List (Frame (Node κ)))
  | nil, path => some (nil, path)
  | node n l r, path =>
    if cmp key n.key = 0 then some (node n l r, path)
    else if Fits path.length then
      if 0 < cmp key n.key then descend cmp key r (⟨n, true, l⟩ :: path)
      else descend cmp key l (⟨n, false, r⟩ :: path)
    else none

def addrs (t : Tree κ) : List UInt64 := t.flat.map Node.addr

/-- `malloc(sizeof *r)`. -/
def mallocNode (mem : Option UInt64) (t : Tree κ) : Option UInt64 := mem.filter fun p => p ∉ addrs t

/-- `tsearch`: the node that is returned, null if there is no memory, and the tree. -/
def tsearch (cmp : κ → κ → ℤ) (key : κ) (mem : Option UInt64) (t : Tree κ) :
    Option (Option UInt64 × Tree κ) := do
  let (sub, path) ← descend cmp key t []
  match sub with
  | node n _ _ => return (some n.addr, t)
  | nil =>
    match mallocNode mem t with
    | none => return (none, t)
    | some r =>
      let t' ← rebalance path (node ⟨r, key, 1⟩ nil nil)
      return (some r, t')

/-- `while (n->a[1])`, from a node `k` nodes down the path on: the last node, its left subtree and
the path to it. -/
def predecessor (k : ℕ) :
    Tree κ → List (Frame (Node κ)) → Option (Node κ × Tree κ × List (Frame (Node κ)))
  | nil, _ => none
  | node n l nil, rights => some (n, l, rights)
  | node n l (node n' l' r'), rights =>
    if Fits (k + rights.length) then predecessor k (node n' l' r') (⟨n, true, l⟩ :: rights) else none

/-- `parent = *a[i-2]`; for the root this is the root itself. -/
def parentOf (path : List (Frame (Node κ))) (n : Node κ) : UInt64 :=
  match path with
  | [] => n.addr
  | f :: _ => f.label.addr

/-- `tdelete` once the node is found: it has no left subtree and its right one moves up, or the node
before it gives its key and is freed instead. -/
def removeNode (path : List (Frame (Node κ))) (n : Node κ) (l r : Tree κ) : Option (Tree κ) :=
  match l with
  | nil => rebalance path r
  | node .. =>
    if Fits path.length then do
      let (m, child, rights) ← predecessor (path.length + 1) l []
      rebalance (rights ++ ⟨{ n with key := m.key }, false, r⟩ :: path) child
    else none

/-- `tdelete`: the node that is returned, null if the key is not there, and the tree. -/
def tdelete (cmp : κ → κ → ℤ) (key : κ) (t : Tree κ) : Option (Option UInt64 × Tree κ) := do
  let (sub, path) ← descend cmp key t []
  match sub with
  | nil => return (none, t)
  | node n l r =>
    let t' ← removeNode path n l r
    return (some (parentOf path n), t')

inductive TreeOp (κ : Type)
  | tsearch (key : κ) (mem : Option UInt64)
  | tdelete (key : κ)

def treeStep (cmp : κ → κ → ℤ) (op : TreeOp κ) (t : Tree κ) : Option (Option UInt64 × Tree κ) :=
  match op with
  | .tsearch key mem => tsearch cmp key mem t
  | .tdelete key => tdelete cmp key t

def treeRun (cmp : κ → κ → ℤ) : List (TreeOp κ) → Tree κ → Option (List (Option UInt64) × Tree κ)
  | [], t => some ([], t)
  | op :: ops, t => do
    let (out, t) ← treeStep cmp op t
    let (outs, t) ← treeRun cmp ops t
    return (out :: outs, t)

/-! ### The set of keys -/

/-- One call on a set of keys and the set of the addresses in use.  A `tsearch` gets no memory if
`malloc` returns null; it never returns an address in use. -/
inductive SetStep (cmp : Comparison κ) :
    TreeOp κ → Set κ → Set UInt64 → Option UInt64 → Set κ → Set UInt64 → Prop
  | found {key mem S live k p} (hk : k ∈ S) (h : cmp.fn key k = 0) (hp : p ∈ live) :
      SetStep cmp (.tsearch key mem) S live (some p) S live
  | added {key p S live} (h : ∀ k ∈ S, cmp.fn key k ≠ 0) (hp : p ∉ live) :
      SetStep cmp (.tsearch key (some p)) S live (some p) (insert key S) (insert p live)
  | noMemory {key mem S live} (h : ∀ k ∈ S, cmp.fn key k ≠ 0) (hm : ∀ p, mem = some p → p ∈ live) :
      SetStep cmp (.tsearch key mem) S live none S live
  | removed {key S live k p q} (hk : k ∈ S) (h : cmp.fn key k = 0) (hp : p ∈ live) (hq : q ∈ live) :
      SetStep cmp (.tdelete key) S live (some p) (S \ {k}) (live \ {q})
  | absent {key S live} (h : ∀ k ∈ S, cmp.fn key k ≠ 0) : SetStep cmp (.tdelete key) S live none S live

inductive SetRun (cmp : Comparison κ) :
    List (TreeOp κ) → Set κ → Set UInt64 → List (Option UInt64) → Set κ → Set UInt64 → Prop
  | nil {S live} : SetRun cmp [] S live [] S live
  | cons {op ops S live out S' live' outs S'' live''} (h : SetStep cmp op S live out S' live')
      (hs : SetRun cmp ops S' live' outs S'' live'') :
      SetRun cmp (op :: ops) S live (out :: outs) S'' live''

/-! ### Balancing a node -/

def items (t : Tree κ) : List (UInt64 × κ) := t.flat.map fun n => (n.addr, n.key)

section

variable (dir : Bool) (x : Node κ) (near far : Tree κ)

lemma items_join : items (join dir x near far) =
      if dir then items far ++ (x.addr, x.key) :: items near
      else items near ++ (x.addr, x.key) :: items far := by
  unfold join items
  cases dir with
  | false => simp [flat]
  | true => simp [flat]

lemma height_join : height (join dir x near far) = x.h := ht_join _ _ _ _

end

variable {t far near t' : Tree κ}

lemma height_nonneg (h : t.Avl Node.h) : 0 ≤ height t := ht_nonneg h

lemma avl_sides {dir : Bool} {x : Node κ} :
    (join dir x near far).Avl Node.h ↔ near.Avl Node.h ∧ far.Avl Node.h ∧
      x.h = max (height near)
      (height far) + 1 ∧ height near - height far ≤ 1 ∧ height far - height near ≤ 1 := by
  rw [avl_join, abs_le]
  unfold height
  constructor
  · rintro ⟨h1, h2, h3, h4, h5⟩
    exact ⟨h1, h2, h3, h5, by omega⟩
  · rintro ⟨h1, h2, h3, h4, h5⟩
    exact ⟨h1, h2, h3, by omega, h4⟩

/-- **`rot`**, for a side that is two higher than the other. -/
theorem rot_ok (x : Node κ) (hnear : near.Avl Node.h) (hfar : far.Avl Node.h)
    (hdiff : height near = height far + 2) (dir : Bool) :
    ∃ t, rot x near far dir = some (t, height t - x.h) ∧ t.Avl Node.h ∧
    items t = items (join dir x near far) ∧
      (height t = height near ∨ height t = height near + 1) := by
  have hpos := height_nonneg hfar
  cases near with
  | nil =>
    have : height (nil : Tree κ) = 0 := rfl
    omega
  | node y yl yr =>
    rw [rot]
    rw [node_eq_join dir y yl yr, height_join] at *
    obtain ⟨hd, hz, hy, hle, hle'⟩ := avl_sides.1 hnear
    generalize pick dir yl yr = d at *
    generalize pick (!dir) yl yr = z at *
    by_cases hdeep : height d < height z
    · rw [if_pos hdeep]
      cases z with
      | nil =>
        have : height (nil : Tree κ) = 0 := rfl
        omega
      | node z zl zr =>
        dsimp only
        rw [node_eq_join dir z zl zr, height_join] at *
        obtain ⟨hc, hb, hzh, hcb, hbc⟩ := avl_sides.1 hz
        generalize pick dir zl zr = c at *
        generalize pick (!dir) zl zr = b at *
        refine ⟨_, by rw [height_join], ?_, ?_, .inl ?_⟩
        · have hx : (join dir { x with h := z.h } b far).Avl Node.h :=
            avl_sides.2 ⟨hb, hfar, by dsimp only; omega, by omega, by omega⟩
          have hy' : (join dir { y with h := z.h } d c).Avl Node.h :=
            avl_sides.2 ⟨hd, hc, by dsimp only; omega, by omega, by omega⟩
          refine avl_sides.2 ⟨hy', hx, ?_⟩
          simp only [height_join]
          omega
        · simp only [items_join]
          cases dir with
          | false => simp
          | true => simp
        · rw [height_join]
          dsimp only
          omega
    · rw [if_neg hdeep]
      refine ⟨_, by rw [height_join], ?_, ?_, ?_⟩
      · have hx : (join dir { x with h := height z + 1 } z far).Avl Node.h :=
          avl_sides.2 ⟨hz, hfar, by dsimp only; omega, by omega, by omega⟩
        refine avl_sides.2 ⟨hd, hx, ?_⟩
        simp only [height_join]
        omega
      · simp only [items_join]
        cases dir with
        | false => simp
        | true => simp
      · rw [height_join]
        dsimp only
        omega

/-- **`__tsearch_balance`**, for two sides whose heights differ by two at most. -/
theorem balance_ok (n : Node κ) {l r : Tree κ} (hl : l.Avl Node.h) (hr : r.Avl Node.h)
    (hle : height l - height r ≤ 2) (hge : height r - height l ≤ 2) :
    ∃ t, balance (node n l r) = some (t, height t - n.h) ∧ t.Avl Node.h ∧ items t = items (node n l r) ∧
      max (height l) (height r) ≤ height t ∧ height t ≤ max (height l) (height r) + 1 ∧
      (height l - height r ≤ 1 → height r - height l ≤ 1 → height t = max (height l) (height r) + 1) := by
  rw [balance]
  by_cases heven : (height l - height r + 1) % 2 ^ 32 < 3
  · rw [if_pos heven]
    have hh : (if height l < height r then height r + 1 else height l + 1) =
        max (height l) (height r) + 1 := by
      split
      · omega
      · omega
    rw [hh]
    have hnode : height (node { n with h := max (height l) (height r) + 1 } l r) =
      max (height l) (height r) + 1 := rfl
    refine ⟨_, rfl, ?_, ?_, by omega, by omega, fun _ _ => hnode⟩
    · rw [node_eq_join false]
      exact avl_sides.2 ⟨hl, hr,
        rfl, by change height l - height r ≤ 1; omega, by change height r - height l ≤ 1; omega⟩
    · simp [items, flat]
  · rw [if_neg heven]
    by_cases hdir : height l < height r
    · rw [decide_eq_true hdir]
      obtain ⟨t, hrot, havl, hitems, hh⟩ := rot_ok n hr hl (by omega) true
      exact ⟨t, hrot, havl, hitems, by omega, by omega, fun _ _ => by omega⟩
    · rw [decide_eq_false hdir]
      obtain ⟨t, hrot, havl, hitems, hh⟩ := rot_ok n hl hr (by omega) false
      exact ⟨t, hrot, havl, hitems, by omega, by omega, fun _ _ => by omega⟩

lemma items_plug (fs : List (Frame (Node κ))) (t : Tree κ) :
    items (plug fs t) = (before fs).map (fun n => (n.addr, n.key)) ++ items t ++
    (after fs).map fun n => (n.addr, n.key) := by
  rw [items, flat_plug, List.map_append, List.map_append]
  rfl

/-- **The way up.**  A subtree whose height has changed by one at most is put at the end of a
balanced path; the nodes of the path are balanced until the height of one is what it was, and then
the whole tree is balanced. -/
theorem rebalance_ok {fs : List (Frame (Node κ))} {c : ℤ} (hfs : Around Node.h fs c) (ht : t.Avl Node.h)
    (hle : height t - c ≤ 1) (hge : c - height t ≤ 1) :
    ∃ t', rebalance fs t = some t' ∧ t'.Avl Node.h ∧ items t' = items (plug fs t) := by
  induction fs generalizing c t with
  | nil => exact ⟨t, rfl, ht, rfl⟩
  | cons f fs ih =>
    obtain ⟨hother, hlabel, hdiff, hrest⟩ := hfs
    rw [abs_le] at hdiff
    change f.label.h = max c (height f.other) + 1 at hlabel
    change -1 ≤ c - height f.other ∧ c - height f.other ≤ 1 at hdiff
    -- the node with the new subtree
    obtain ⟨t', hbal, havl, hitems, hlow, hhigh, heven⟩ : ∃ t',
      balance (f.fill t) = some (t', height t' - f.label.h) ∧
        t'.Avl Node.h ∧ items t' = items (f.fill t) ∧ max (height t) (height f.other) ≤ height t' ∧
        height t' ≤ max (height t) (height f.other) + 1 ∧
        (height t - height f.other ≤ 1 → height f.other - height t ≤ 1 →
          height t' = max (height t) (height f.other) + 1) := by
      unfold Frame.fill join
      cases f.dir with
      | false => exact balance_ok f.label ht hother (by omega) (by omega)
      | true =>
        obtain ⟨t', h1, h2, h3, h4, h5, h6⟩ := balance_ok f.label hother ht (by omega) (by omega)
        rw [max_comm] at h4 h5 h6
        exact ⟨t', h1, h2, h3, h4, h5, fun hl hr => h6 hr hl⟩
    have hsame : items (plug fs t') = items (plug (f :: fs) t) := by
      rw [plug, items_plug, items_plug, hitems]
    rw [rebalance, hbal, Option.bind_eq_bind, Option.bind_some]
    dsimp only
    by_cases hzero : height t' - f.label.h = 0
    · rw [if_pos hzero]
      refine ⟨plug fs t', rfl, avl_plug ?_ havl, hsame⟩
      change Around Node.h fs (height t')
      rw [show height t' = f.label.h by omega]
      exact hrest
    · rw [if_neg hzero]
      obtain ⟨t'', hup, havl', hitems'⟩ := ih hrest havl (by omega) (by omega)
      exact ⟨t'', hup, havl', hitems'.trans hsame⟩

/-! ### Looking for a key -/

lemma Comparison.lt_trans (cmp : Comparison κ) {a b c : κ} (h : cmp.fn a b < 0) (h' : cmp.fn b c < 0) :
    cmp.fn a c < 0 := by
  by_contra hac
  have hba : 0 < cmp.fn b a := (cmp.swap b a).2 h
  have hca : cmp.fn c a ≤ 0 := by
    by_contra hca
    exact hac ((cmp.swap c a).1 (by omega))
  have := cmp.trans b c a h'.le hca
  omega

def keysOf (t : Tree κ) : List κ := t.flat.map Node.key

@[simp] lemma keysOf_nil : keysOf (nil : Tree κ) = [] := rfl

@[simp] lemma keysOf_node (n : Node κ) (l r : Tree κ) :
    keysOf (node n l r) = keysOf l ++ n.key :: keysOf r := by
  simp [keysOf, flat]

@[simp] lemma addrs_nil : addrs (nil : Tree κ) = [] := rfl

@[simp] lemma addrs_node (n : Node κ) (l r : Tree κ) :
    addrs (node n l r) = addrs l ++ n.addr :: addrs r := by
  simp [addrs, flat]

lemma keysOf_congr (h : items t = items t') : keysOf t = keysOf t' := by
  have := congrArg (List.map Prod.snd) h
  rwa [items, items, List.map_map, List.map_map] at this

lemma addrs_congr (h : items t = items t') : addrs t = addrs t' := by
  have := congrArg (List.map Prod.fst) h
  rwa [items, items, List.map_map, List.map_map] at this

section

variable (path : List (Frame (Node κ))) (t : Tree κ)

lemma keysOf_plug :
    keysOf (plug path t) = (before path).map Node.key ++ keysOf t ++ (after path).map Node.key := by
  rw [keysOf, flat_plug, List.map_append, List.map_append]
  rfl

lemma addrs_plug :
    addrs (plug path t) = (before path).map Node.addr ++ addrs t ++ (after path).map Node.addr := by
  rw [addrs, flat_plug, List.map_append, List.map_append]
  rfl

end

def Ordered (cmp : Comparison κ) (t : Tree κ) : Prop := (keysOf t).Pairwise fun a b => cmp.fn a b < 0

structure TreeOk (cmp : Comparison κ) (t : Tree κ) : Prop where
  ordered : Ordered cmp t
  avl : t.Avl Node.h
  distinct : (addrs t).Nodup

/-- **The height is less than `MAXH`**: the addresses of the nodes are different. -/
theorem TreeOk.height_lt {cmp : Comparison κ} (h : TreeOk cmp t) : height t < maxH := by
  by_contra hbig
  have hfib : fib 98 ≤ t.flat.length + 1 :=
    (fib_mono (by change 98 ≤ (height t).toNat + 2; rw [maxH] at hbig; omega)).trans (fib_le_size h.avl)
  have hlen : t.flat.length ≤ 2 ^ 64 := by
    have hnodup : ((addrs t).map UInt64.toNat).Nodup := h.distinct.map fun _ _ => UInt64.toNat_inj.1
    have hsub : (addrs t).map UInt64.toNat ⊆ List.range (2 ^ 64) := by
      intro a ha
      obtain ⟨p, _, rfl⟩ := List.mem_map.1 ha
      exact List.mem_range.2 p.toNat_lt
    have hle := (List.subperm_of_subset hnodup hsub).length_le
    rwa [List.length_map, List.length_range, addrs, List.length_map] at hle
  have hvalue : fib 98 = 135301852344706746049 := by decide +kernel
  omega

section Descend

variable {cmp : Comparison κ} {key : κ}

/-- The keys beside the path are those that are smaller and those that are greater. -/
structure Between (cmp : Comparison κ) (key : κ) (path : List (Frame (Node κ))) : Prop where
  left : ∀ n ∈ before path, cmp.fn n.key key < 0
  right : ∀ n ∈ after path, cmp.fn key n.key < 0

lemma Between.root (cmp : Comparison κ) (key : κ) : Between cmp key [] :=
  ⟨fun _ hn => absurd hn List.not_mem_nil, fun _ hn => absurd hn List.not_mem_nil⟩

/-- **The search** ends at the key or at the place where it belongs. -/
theorem descend_ok {t0 : Tree κ} (h : TreeOk cmp t0) (key : κ) :
    ∀ (t : Tree κ) (path : List (Frame (Node κ))),
    plug path t = t0 → Between cmp key path →
    ∃ sub path', descend cmp.fn key t path = some (sub, path') ∧ plug path' sub = t0 ∧
    Between cmp key path' ∧
      ∀ n l r, sub = node n l r → cmp.fn key n.key = 0 := by
  intro t
  induction t with
  | nil =>
    intro path hplug hbetween
    exact ⟨nil, path, rfl, hplug, hbetween, fun n l r hn => by cases hn⟩
  | node n l r ihl ihr =>
    intro path hplug hbetween
    rw [descend]
    by_cases hzero : cmp.fn key n.key = 0
    · rw [if_pos hzero]
      refine ⟨node n l r, path, rfl, hplug, hbetween, fun n' l' r' hn => ?_⟩
      cases hn
      exact hzero
    rw [if_neg hzero]
    -- the path is shorter than the tree is high
    have hfits : Fits path.length := by
      have hlen := length_le_ht (hplug ▸ h.avl)
      obtain ⟨_, hsub⟩ := around_of_avl (hplug ▸ h.avl)
      obtain ⟨hl, _, hn, _⟩ := hsub
      have hpos := ht_nonneg hl
      have hlt := h.height_lt
      change ↑path.length + n.h ≤ _ at hlen
      rw [hplug] at hlen
      change _ ≤ height t0 at hlen
      rw [Fits]
      omega
    rw [if_pos hfits]
    have hord : ((plug path (node n l r)).flat.map Node.key).Pairwise fun a b => cmp.fn a b < 0 :=
      hplug ▸ h.ordered
    have hflat : (node n l r).flat = l.flat ++ n :: r.flat := rfl
    rw [flat_plug, List.pairwise_map] at hord
    obtain ⟨hord, _, _⟩ := List.pairwise_append.1 hord
    obtain ⟨_, hord, _⟩ := List.pairwise_append.1 hord
    obtain ⟨_, hordr, hordl⟩ := List.pairwise_append.1 hord
    by_cases hpos : 0 < cmp.fn key n.key
    · rw [if_pos hpos]
      have hn : cmp.fn n.key key < 0 := (cmp.swap key n.key).1 hpos
      refine ihr (⟨n, true, l⟩ :: path) hplug ⟨?_, ?_⟩
      · intro x hx
        simp only [before, if_true, List.mem_append, List.mem_singleton] at hx
        rcases hx with hx | hx | rfl
        · exact hbetween.left x hx
        · exact cmp.lt_trans (hordl x hx n List.mem_cons_self) hn
        · exact hn
      · intro x hx
        exact hbetween.right x hx
    · rw [if_neg hpos]
      have hn : cmp.fn key n.key < 0 := by omega
      refine ihl (⟨n, false, r⟩ :: path) hplug ⟨?_, ?_⟩
      · intro x hx
        simp only [before, Bool.false_eq_true, if_false, List.append_nil] at hx
        exact hbetween.left x hx
      · intro x hx
        simp only [after, Bool.false_eq_true, if_false, List.mem_append, List.mem_cons] at hx
        rcases hx with (rfl | hx) | hx
        · exact hn
        · exact cmp.lt_trans hn ((List.pairwise_cons.1 hordr).1 x hx)
        · exact hbetween.right x hx

lemma Between.absent {path : List (Frame (Node κ))} (h : Between cmp key path) :
    ∀ k ∈ keysOf (plug path nil), cmp.fn key k ≠ 0 := by
  intro k hk
  rw [keysOf, flat_plug] at hk
  obtain ⟨n, hn, rfl⟩ := List.mem_map.1 hk
  simp only [flat, List.append_nil, List.mem_append] at hn
  rcases hn with hn | hn
  · exact ((cmp.swap key n.key).2 (h.left n hn)).ne'
  · exact (h.right n hn).ne

end Descend

section Calls

variable {cmp : Comparison κ} {key : κ} {t : Tree κ}

def keySet (t : Tree κ) : Set κ := {k | k ∈ keysOf t}

def addrSet (t : Tree κ) : Set UInt64 := {p | p ∈ addrs t}

section

variable (path : List (Frame (Node κ))) (n : Node κ) (l r : Tree κ)

lemma mem_addrSet_plug : n.addr ∈ addrSet (plug path (node n l r)) := by
  change n.addr ∈ addrs _
  simp [addrs_plug]

lemma mem_keySet_plug : n.key ∈ keySet (plug path (node n l r)) := by
  change n.key ∈ keysOf _
  simp [keysOf_plug]

end

variable {path : List (Frame (Node κ))} {t' : Tree κ}

lemma TreeOk.add (h : TreeOk cmp t) (hplug : plug path nil = t) (hbetween : Between cmp key path)
    {r : UInt64} (hr : r ∉ addrs t) (havl : t'.Avl Node.h)
    (hitems : items t' = items (plug path (node ⟨r, key, 1⟩ nil nil))) :
    TreeOk cmp t' ∧ keySet t' = insert key (keySet t) ∧ addrSet t' = insert r (addrSet t) := by
  subst hplug
  have hkeys : keysOf (plug path nil) = (before path).map Node.key ++ (after path).map Node.key := by
    simp [keysOf_plug]
  have hkeys' : keysOf t' = (before path).map Node.key ++ key :: (after path).map Node.key := by
    simp [keysOf_congr hitems, keysOf_plug]
  have haddrs : addrs (plug path nil) = (before path).map Node.addr ++ (after path).map Node.addr := by
    simp [addrs_plug]
  have haddrs' : addrs t' = (before path).map Node.addr ++ r :: (after path).map Node.addr := by
    simp [addrs_congr hitems, addrs_plug]
  refine ⟨⟨?_, havl, ?_⟩, ?_, ?_⟩
  · have hord := h.ordered
    rw [Ordered, hkeys, List.pairwise_append] at hord
    obtain ⟨hleft, hright, hcross⟩ := hord
    rw [Ordered, hkeys', List.pairwise_append]
    refine ⟨hleft, List.pairwise_cons.2 ⟨?_, hright⟩, ?_⟩
    · intro k hk
      obtain ⟨n, hn, rfl⟩ := List.mem_map.1 hk
      exact hbetween.right n hn
    · intro a ha b hb
      rcases List.mem_cons.1 hb with rfl | hb
      · obtain ⟨n, hn, rfl⟩ := List.mem_map.1 ha
        exact hbetween.left n hn
      · exact hcross a ha b hb
  · have hnodup := h.distinct
    rw [haddrs] at hnodup hr
    rw [haddrs', List.nodup_middle, List.nodup_cons]
    exact ⟨hr, hnodup⟩
  · ext k
    change k ∈ keysOf t' ↔ k = key ∨ k ∈ keysOf _
    rw [hkeys, hkeys']
    simp only [List.mem_append, List.mem_cons]
    tauto
  · ext p
    change p ∈ addrs t' ↔ p = r ∨ p ∈ addrs _
    rw [haddrs, haddrs']
    simp only [List.mem_append, List.mem_cons]
    tauto

/-- **`tsearch`.** -/
theorem tsearch_ok (h : TreeOk cmp t) (key : κ) (mem : Option UInt64) :
    ∃ out t', tsearch cmp.fn key mem t = some (out, t') ∧ TreeOk cmp t' ∧
      SetStep cmp (.tsearch key mem) (keySet t) (addrSet t) out (keySet t')
      (addrSet t') ∧ (mem = none → t' = t) := by
  obtain ⟨sub, path, hdescend, hplug, hbetween, hfound⟩ :=
    descend_ok h key t [] rfl (Between.root cmp key)
  rw [tsearch, hdescend, Option.bind_eq_bind, Option.bind_some]
  cases sub with
  | node n l r =>
    refine ⟨some n.addr, t, rfl, h, ?_, fun _ => rfl⟩
    refine SetStep.found ?_ (hfound n l r rfl) (hplug ▸ mem_addrSet_plug path n l r)
    exact hplug ▸ mem_keySet_plug path n l r
  | nil =>
    have habsent : ∀ k ∈ keySet t, cmp.fn key k ≠ 0 := hplug ▸ hbetween.absent
    cases hmem : mallocNode mem t with
    | none =>
      refine ⟨none, t, rfl, h, SetStep.noMemory habsent ?_, fun _ => rfl⟩
      rintro p rfl
      rw [mallocNode, Option.filter_eq_none_iff] at hmem
      change p ∈ addrs t
      simpa using hmem p rfl
    | some r =>
      obtain ⟨rfl, hr⟩ : mem = some r ∧ r ∉ addrs t := by
        rw [mallocNode, Option.filter_eq_some_iff] at hmem
        exact ⟨hmem.1, by simpa using hmem.2⟩
      obtain ⟨haround, _⟩ := around_of_avl (hplug ▸ h.avl)
      have hone : height (node ⟨r, key, 1⟩ nil nil : Tree κ) = 1 := rfl
      have hzero : (nil : Tree κ).ht Node.h = 0 := rfl
      obtain ⟨t', hup, havl, hitems⟩ := rebalance_ok haround
        (show (node ⟨r, key, 1⟩ nil nil : Tree κ).Avl Node.h from ⟨trivial, trivial, rfl, by simp⟩)
          (by omega) (by omega)
      obtain ⟨hok, hkeys, haddrs⟩ := h.add hplug hbetween hr havl hitems
      refine ⟨some r, t', by dsimp only; rw [hup]; rfl, hok, ?_,
        fun hnone => absurd hnone (Option.some_ne_none r)⟩
      rw [hkeys, haddrs]
      exact SetStep.added habsent hr

/-- **The walk to the predecessor** ends at the last node of the subtree. -/
theorem predecessor_ok {t0 : Tree κ} (havl : t0.Avl Node.h) {k : ℕ} (hk : k + height t0 < maxH) :
    ∀ (n : Node κ) (l r : Tree κ)
    (rights : List (Frame (Node κ))), plug rights (node n l r) = t0 → after rights = [] →
    ∃ m child rights', predecessor k (node n l r) rights = some (m, child, rights') ∧
      plug rights' (node m child nil) = t0 ∧ after rights' = [] := by
  intro n l r
  induction r generalizing n l with
  | nil =>
    intro rights hplug hafter
    exact ⟨n, l, rights, rfl, hplug, hafter⟩
  | node n' l' r' _ ih =>
    intro rights hplug hafter
    have hfits : Fits (k + rights.length) := by
      have hlen := length_le_ht (hplug ▸ havl)
      obtain ⟨hl, _, hn, _⟩ := (around_of_avl (hplug ▸ havl)).2
      have hpos := ht_nonneg hl
      rw [hplug] at hlen
      change ↑rights.length + n.h ≤ height t0 at hlen
      rw [Fits]
      omega
    rw [predecessor, if_pos hfits]
    exact ih n' l' (⟨n, true, l⟩ :: rights) hplug (by rw [after, hafter]; rfl)

lemma TreeOk.remove (h : TreeOk cmp t) (havl : t'.Avl Node.h) {X Y : List κ} {k : κ}
    {U V : List UInt64} {q : UInt64}
    (hkeys : keysOf t = X ++ k :: Y) (hkeys' : keysOf t' = X ++ Y) (haddrs : addrs t = U ++ q :: V)
    (haddrs' : addrs t' = U ++ V) :
    TreeOk cmp t' ∧ keySet t' = keySet t \ {k} ∧ addrSet t' = addrSet t \ {q} := by
  have hord := h.ordered
  rw [Ordered, hkeys, List.pairwise_append, List.pairwise_cons] at hord
  obtain ⟨hX, ⟨hkY, hY⟩, hcross⟩ := hord
  have hne : ∀ x, cmp.fn x x < 0 → False := by
    intro x hx
    have := (cmp.swap x x).2 hx
    omega
  have hdistinct := h.distinct
  rw [haddrs, List.nodup_middle, List.nodup_cons] at hdistinct
  refine ⟨⟨?_, havl, ?_⟩, ?_, ?_⟩
  · rw [Ordered, hkeys', List.pairwise_append]
    exact ⟨hX, hY, fun a ha b hb => hcross a ha b (List.mem_cons_of_mem k hb)⟩
  · rw [haddrs']
    exact hdistinct.2
  · ext x
    change x ∈ keysOf t' ↔ x ∈ keysOf t ∧ x ≠ k
    rw [hkeys, hkeys', List.mem_append, List.mem_append, List.mem_cons]
    constructor
    · rintro (hx | hx)
      · exact ⟨.inl hx, fun heq => hne k (heq ▸ hcross x hx k List.mem_cons_self)⟩
      · exact ⟨.inr (.inr hx), fun heq => hne k (heq ▸ hkY x hx)⟩
    · rintro ⟨hx | hx | hx, hxk⟩
      · exact .inl hx
      · exact absurd hx hxk
      · exact .inr hx
  · ext x
    change x ∈ addrs t' ↔ x ∈ addrs t ∧ x ≠ q
    rw [haddrs, haddrs', List.mem_append, List.mem_append, List.mem_cons]
    constructor
    · intro hx
      refine ⟨hx.imp_right .inr, fun heq => hdistinct.1 ?_⟩
      rw [← heq]
      exact List.mem_append.2 hx
    · rintro ⟨hx | hx | hx, hxq⟩
      · exact .inl hx
      · exact absurd hx hxq
      · exact .inr hx

/-- **The node of a key is removed.** -/
theorem removeNode_ok (h : TreeOk cmp t) {n : Node κ} {l r : Tree κ}
    (hplug : plug path (node n l r) = t) :
    ∃ t' q, removeNode path n l r = some t' ∧ TreeOk cmp t' ∧ q ∈ addrSet t ∧
      keySet t' = keySet t \ {n.key} ∧ addrSet t' = addrSet t \ {q} := by
  have hlen := length_le_ht (hplug ▸ h.avl)
  obtain ⟨haround, hsub⟩ := around_of_avl (hplug ▸ h.avl)
  rw [hplug] at hlen
  change ↑path.length + n.h ≤ height t at hlen
  have hlt := h.height_lt
  rw [node_eq_join false] at hsub
  obtain ⟨hl, hr, hh, hdiff, hdiff'⟩ := avl_sides.1 hsub
  change l.Avl Node.h at hl
  change r.Avl Node.h at hr
  change n.h = max (height l) (height r) + 1 at hh
  change height r - height l ≤ 1 at hdiff'
  have hrpos := height_nonneg hr
  cases l with
  | nil =>
    have hzero : height (nil : Tree κ) = 0 := rfl
    change Around Node.h path n.h at haround
    obtain ⟨t', hup, havl, hitems⟩ := rebalance_ok haround hr (by omega) (by omega)
    have hmem : n.addr ∈ addrSet t := hplug ▸ mem_addrSet_plug path n nil r
    obtain ⟨hok, hkeys, haddrs⟩ := h.remove havl
      (X := (before path).map Node.key) (Y := keysOf r ++ (after path).map Node.key) (k := n.key)
      (U := (before path).map Node.addr) (V := addrs r ++ (after path).map Node.addr) (q := n.addr)
      (by simp [← hplug, keysOf_plug]) (by simp [keysOf_congr hitems, keysOf_plug])
      (by simp [← hplug, addrs_plug]) (by simp [addrs_congr hitems, addrs_plug])
    exact ⟨t', n.addr, hup, hok, hmem, hkeys, haddrs⟩
  | node x xl xr =>
    have hfits : Fits path.length := by
      rw [Fits]
      omega
    obtain ⟨m, child, rights, hpred, hrights, hafter⟩ :=
      predecessor_ok hl (k := path.length + 1) (by push_cast; omega) x xl xr [] rfl rfl
    -- the path with the key moved up is balanced as before
    have haround' : Around Node.h (⟨{ n with key := m.key }, false, r⟩ :: path) (height (node x xl xr)) :=
      ⟨hr, hh, abs_le.2 ⟨by change -1 ≤ height _ - height r; omega, hdiff⟩, haround⟩
    have havl1 := avl_plug haround' hl
    rw [← hrights, ← plug_append] at havl1
    obtain ⟨hall, hm⟩ := around_of_avl havl1
    obtain ⟨hchild, _, hmh, _⟩ := hm
    change m.h = max (height child) 0 + 1 at hmh
    change Around Node.h _ m.h at hall
    have hcpos := height_nonneg hchild
    obtain ⟨t', hup, havl, hitems⟩ := rebalance_ok hall hchild (by omega) (by omega)
    have hflat : keysOf (node x xl xr) = (before rights).map Node.key ++ keysOf child ++ [m.key] := by
      simp [← hrights, keysOf_plug, hafter]
    have hflat' : addrs (node x xl xr) = (before rights).map Node.addr ++ addrs child ++ [m.addr] := by
      simp [← hrights, addrs_plug, hafter]
    have hmem : m.addr ∈ addrSet t := by
      change m.addr ∈ addrs t
      rw [← hplug, addrs_plug, addrs_node, hflat']
      simp
    obtain ⟨hok, hkeys, haddrs⟩ := h.remove havl
      (X := (before path).map Node.key ++ (before rights).map Node.key ++ keysOf child ++ [m.key])
      (Y := keysOf r ++ (after path).map Node.key) (k := n.key)
      (U := (before path).map Node.addr ++ (before rights).map Node.addr ++ addrs child)
      (V := n.addr :: addrs r ++ (after path).map Node.addr) (q := m.addr)
      (by rw [← hplug, keysOf_plug, keysOf_node, hflat]; simp)
      (by
        rw [keysOf_congr hitems, keysOf_plug, before_append, after_append, hafter]
        simp [before, after, keysOf])
      (by rw [← hplug, addrs_plug, addrs_node, hflat']; simp)
      (by
        rw [addrs_congr hitems, addrs_plug, before_append, after_append, hafter]
        simp [before, after, addrs])
    refine ⟨t', m.addr, ?_, hok, hmem, hkeys, haddrs⟩
    rw [removeNode, if_pos hfits, hpred]
    exact hup

lemma parentOf_mem (path : List (Frame (Node κ))) (n : Node κ) (l r : Tree κ) :
    parentOf path n ∈ addrSet (plug path (node n l r)) := by
  cases path with
  | nil => exact mem_addrSet_plug [] n l r
  | cons f fs =>
    change f.label.addr ∈ addrSet (plug fs (f.fill (node n l r)))
    unfold Frame.fill join
    split
    · exact mem_addrSet_plug fs _ _ _
    · exact mem_addrSet_plug fs _ _ _

/-- **`tdelete`.** -/
theorem tdelete_ok (h : TreeOk cmp t) (key : κ) :
    ∃ out t', tdelete cmp.fn key t = some (out, t') ∧ TreeOk cmp t' ∧
      SetStep cmp (.tdelete key) (keySet t) (addrSet t) out (keySet t') (addrSet t') := by
  obtain ⟨sub, path, hdescend, hplug, hbetween, hfound⟩ :=
    descend_ok h key t [] rfl (Between.root cmp key)
  rw [tdelete, hdescend, Option.bind_eq_bind, Option.bind_some]
  cases sub with
  | nil => exact ⟨none, t, rfl, h, SetStep.absent (hplug ▸ hbetween.absent)⟩
  | node n l r =>
    obtain ⟨t', q, hremove, hok, hq, hkeys, haddrs⟩ := removeNode_ok h hplug
    refine ⟨some (parentOf path n), t', ?_, hok, ?_⟩
    · dsimp only
      rw [hremove]
      rfl
    · rw [hkeys, haddrs]
      exact SetStep.removed (hplug ▸ mem_keySet_plug path n l r) (hfound n l r rfl)
        (hplug ▸ parentOf_mem path n l r) hq

/-- **One call.** -/
theorem treeStep_ok (h : TreeOk cmp t) (op : TreeOp κ) :
    ∃ out t', treeStep cmp.fn op t = some (out, t') ∧ TreeOk cmp t' ∧
      SetStep cmp op (keySet t) (addrSet t) out (keySet t') (addrSet t') := by
  cases op with
  | tsearch key mem =>
    obtain ⟨out, t', hcall, hok, hstep, _⟩ := tsearch_ok h key mem
    exact ⟨out, t', hcall, hok, hstep⟩
  | tdelete key => exact tdelete_ok h key

/-- **A sequence of calls.** -/
theorem treeRun_ok (h : TreeOk cmp t) (ops : List (TreeOp κ)) :
    ∃ outs t', treeRun cmp.fn ops t = some (outs, t') ∧ TreeOk cmp t' ∧
      SetRun cmp ops (keySet t) (addrSet t) outs (keySet t') (addrSet t') := by
  induction ops generalizing t with
  | nil => exact ⟨[], t, rfl, h, SetRun.nil⟩
  | cons op ops ih =>
    obtain ⟨out, t1, hcall, h1, hstep⟩ := treeStep_ok h op
    obtain ⟨outs, t', hrun, h', hsteps⟩ := ih h1
    refine ⟨out :: outs, t', ?_, h', SetRun.cons hstep hsteps⟩
    rw [treeRun, hcall, Option.bind_eq_bind, Option.bind_some]
    dsimp only
    rw [hrun]
    rfl

lemma TreeOk.empty (cmp : Comparison κ) : TreeOk cmp nil := ⟨List.Pairwise.nil, trivial, List.nodup_nil⟩

/-- **The tree after every sequence of calls**: no call reads through a null pointer or writes past
the array of links; the keys are in strict order, every stored height is one more than that of the
higher side, the two sides differ by one at most; the keys are those that were inserted and not
deleted since; and a call that gets no memory leaves the tree as it is. -/
theorem avl_after_run (cmp : Comparison κ) (ops : List (TreeOp κ)) :
    ∃ outs t, treeRun cmp.fn ops nil = some (outs, t) ∧ Ordered cmp t ∧ t.Avl Node.h ∧
      SetRun cmp ops ∅ ∅ outs (keySet t)
      (addrSet t) ∧ ∀ key, ∃ out, tsearch cmp.fn key none t = some (out, t) := by
  obtain ⟨outs, t, hrun, hok, hsteps⟩ := treeRun_ok (TreeOk.empty cmp) ops
  have hkeys : keySet (nil : Tree κ) = ∅ :=
    Set.eq_empty_of_forall_notMem fun _ hk => absurd hk List.not_mem_nil
  have haddrs : addrSet (nil : Tree κ) = ∅ :=
    Set.eq_empty_of_forall_notMem fun _ hp => absurd hp List.not_mem_nil
  refine ⟨outs, t, hrun, hok.ordered, hok.avl, hkeys ▸ haddrs ▸ hsteps, fun key => ?_⟩
  obtain ⟨out, t', hcall, _, _, hsame⟩ := tsearch_ok hok key none
  exact ⟨out, hsame rfl ▸ hcall⟩

/-- Integers, compared by their difference. -/
def intComparison : Comparison ℤ where
  fn a b := a - b
  swap a b := by omega
  trans a b c h h' := by omega

/-- Three keys in ascending order make a rotation; then there is no memory for a fourth, and the
root is deleted. -/
def rotateOps : List (TreeOp ℤ) :=
  [.tsearch 1 (some 16), .tsearch 2 (some 32), .tsearch 3 (some 48), .tsearch 4 none, .tdelete 2]

theorem avl_after_rotation :
    ∃ outs t, treeRun intComparison.fn rotateOps nil = some (outs, t) ∧ t.Avl Node.h ∧
    SetRun intComparison rotateOps ∅ ∅ outs (keySet t) (addrSet t) ∧ keysOf t = [1, 3] := by
  obtain ⟨outs, t, hrun, -, havl, hset, -⟩ := avl_after_run intComparison rotateOps
  refine ⟨outs, t, hrun, havl, hset, ?_⟩
  have hkeys : (treeRun intComparison.fn rotateOps nil).map (fun r => keysOf r.2) = some [1,
    3] := by decide +kernel
  rw [hrun] at hkeys
  exact Option.some.inj hkeys

/-! ### `tfind`, `twalk` and `tdestroy` -/

def tfind (cmp : κ → κ → ℤ) (key : κ) : Tree κ → Option UInt64
  | nil => none
  | node n l r =>
    if cmp key n.key = 0 then some n.addr
    else if cmp key n.key > 0 then tfind cmp key r else tfind cmp key l

inductive Visit where
  | preorder
  | postorder
  | endorder
  | leaf
  deriving DecidableEq

/-- The calls of `action` by `walk`. -/
def walk : Tree κ → ℕ → List (Node κ × Visit × ℕ)
  | nil, _ => []
  | node n l r, d =>
    if n.h = 1 then [(n, .leaf, d)]
    else (n, .preorder, d) :: walk l (d + 1) ++ (n, .postorder,
      d) :: walk r (d + 1) ++ [(n, .endorder, d)]

/-- The second visit of a node, or the only one. -/
def Visit.inOrder : Visit → Bool
  | postorder | leaf => true
  | _ => false

lemma walk_inOrder (h : t.Avl Node.h) (d : ℕ) :
    ((walk t d).filter fun v => v.2.1.inOrder).map Prod.fst = t.flat := by
  induction t generalizing d with
  | nil => rfl
  | node n l r ihl ihr =>
    obtain ⟨hl, hr, hh, -⟩ := h
    rw [walk, flat]
    split
    case isTrue hone =>
      -- a node of height 1 has no children
      have hleaf {s : Tree κ} (hs : s.Avl Node.h) (hle : s.ht Node.h ≤ 0) : s = nil := by
        cases s with
        | nil => rfl
        | node x a b =>
          have ha := ht_nonneg hs.1
          have hx := hs.2.2.1
          change x.h ≤ 0 at hle
          omega
      rw [hleaf hl (by omega), hleaf hr (by omega)]
      rfl
    case isFalse hone =>
      simp [ihl hl, ihr hr, show Visit.preorder.inOrder = false from rfl,
        show Visit.postorder.inOrder = true from rfl,
        show Visit.endorder.inOrder = false from rfl]

lemma tfind_eq_some_iff (h : Ordered cmp t) {p : UInt64} :
    tfind cmp.fn key t = some p ↔ ∃ k, (p, k) ∈ items t ∧ cmp.fn key k = 0 := by
  have hlt {a b c : κ} (h1 : cmp.fn a b ≤ 0) (h2 : cmp.fn b c < 0) : cmp.fn a c < 0 := by
    by_contra hle
    have hback := cmp.trans c a b (by have := cmp.swap c a; omega) h1
    have := cmp.swap c b
    omega
  induction t with
  | nil => simp [tfind, items, flat]
  | node n l r ihl ihr =>
    rw [Ordered, keysOf_node, List.pairwise_append, List.pairwise_cons] at h
    obtain ⟨hl, ⟨hnr, hr⟩, hln⟩ := h
    have hitems : items (node n l r) = items l ++ (n.addr, n.key) :: items r := by simp [items, flat]
    have hkey {s : Tree κ} {k : κ} (hk : (p, k) ∈ items s) : k ∈ keysOf s := by
      obtain ⟨x, hx, hxk⟩ := List.mem_map.1 hk
      exact List.mem_map.2 ⟨x, hx, congrArg Prod.snd hxk⟩
    have hleft (k : κ) (hk : (p, k) ∈ items l) (h0 : cmp.fn key k = 0) : cmp.fn key n.key < 0 :=
      hlt h0.le (hln k (hkey hk) n.key (List.mem_cons_self ..))
    have hright (k : κ) (hk : (p, k) ∈ items r) (hle : cmp.fn key n.key ≤ 0) : cmp.fn key k < 0 :=
      hlt hle (hnr k (hkey hk))
    rw [tfind, hitems]
    simp only [List.mem_append, List.mem_cons, Prod.mk.injEq]
    rcases lt_trichotomy (cmp.fn key n.key) 0 with hc | hc | hc
    · rw [if_neg hc.ne, if_neg hc.not_gt]
      refine (ihl hl).trans (exists_congr fun k => and_congr_left fun h0 => ⟨.inl, ?_⟩)
      rintro (hk | ⟨-, rfl⟩ | hk)
      · exact hk
      · exact absurd h0 hc.ne
      · exact absurd h0 (hright k hk hc.le).ne
    · rw [if_pos hc, Option.some_inj]
      refine ⟨fun hp => ⟨n.key, .inr (.inl ⟨hp.symm, rfl⟩), hc⟩, ?_⟩
      rintro ⟨k, hk | ⟨hp, -⟩ | hk, h0⟩
      · exact absurd hc (hleft k hk h0).ne
      · exact hp.symm
      · exact absurd h0 (hright k hk hc.le).ne
    · rw [if_neg hc.ne', if_pos hc]
      refine (ihr hr).trans (exists_congr fun k => and_congr_left fun h0 =>
        ⟨fun hk => .inr (.inr hk), ?_⟩)
      rintro (hk | ⟨-, rfl⟩ | hk)
      · exact absurd hc (hleft k hk h0).not_gt
      · exact absurd h0 hc.ne'
      · exact hk

/-- **Lookups after every sequence of calls**: `tfind` returns the node of an equal key, if there is
one. -/
theorem tfind_after_run (cmp : Comparison κ) (ops : List (TreeOp κ)) :
    ∃ outs t, treeRun cmp.fn ops nil = some (outs, t) ∧
      ∀ key p, tfind cmp.fn key t = some p ↔ ∃ k, (p, k) ∈ items t ∧ cmp.fn key k = 0 := by
  obtain ⟨outs, t, hrun, hok, -⟩ := treeRun_ok (TreeOk.empty cmp) ops
  exact ⟨outs, t, hrun, fun _ _ => tfind_eq_some_iff hok.ordered⟩

/-- **Walks after every sequence of calls**: the second visits, or only ones, are of all nodes in
the order of their keys. -/
theorem twalk_after_run (cmp : Comparison κ) (ops : List (TreeOp κ)) :
    ∃ outs t, treeRun cmp.fn ops nil = some (outs, t) ∧
      ((walk t 0).filter fun v => v.2.1.inOrder).map Prod.fst = t.flat ∧ Ordered cmp t := by
  obtain ⟨outs, t, hrun, hok, -⟩ := treeRun_ok (TreeOk.empty cmp) ops
  exact ⟨outs, t, hrun, walk_inOrder hok.avl 0, hok.ordered⟩

/-- The nodes that `tdestroy` frees, and the keys that it gives to `freekey`. -/
def tdestroy : Tree κ → List (UInt64 × κ)
  | nil => []
  | node n l r => tdestroy l ++ tdestroy r ++ [(n.addr, n.key)]

lemma tdestroy_perm (t : Tree κ) : (tdestroy t).Perm (items t) := by
  induction t with
  | nil => exact .nil
  | node n l r ihl ihr =>
    rw [tdestroy, show items (node n l r) = items l ++ (n.addr, n.key) :: items r by simp [items, flat]]
    exact ((ihl.append ihr).append_right _).trans
      ((List.perm_append_singleton _ _).trans List.perm_middle.symm)

/-- **`tdestroy` frees every node once**, after every sequence of calls. -/
theorem tdestroy_after_run (cmp : Comparison κ) (ops : List (TreeOp κ)) :
    ∃ outs t, treeRun cmp.fn ops nil = some (outs, t) ∧ (tdestroy t).Perm (items t) ∧
      ((tdestroy t).map Prod.fst).Nodup := by
  obtain ⟨outs, t, hrun, hok, -⟩ := treeRun_ok (TreeOk.empty cmp) ops
  refine ⟨outs, t, hrun, tdestroy_perm t, ((tdestroy_perm t).map Prod.fst).nodup_iff.2 ?_⟩
  have haddrs : (items t).map Prod.fst = addrs t := by simp [items, addrs]
  rw [haddrs]
  exact hok.distinct

end Calls

end Model

end Musl.Search
