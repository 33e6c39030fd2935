import Mathlib

/-!
# Depth-first post-order

A search that walks a graph from a root along direct successors and puts a node out when all its
successors have been looked at.  Its state is the list of nodes put out so far, the path from the node
at hand back to the root, and for each node of the path the number of successors looked at.
-/

namespace Musl.Lib.PostOrder

open List

variable {V : Type*} (adj : V → List V)

/-- The node `d` is reached from `v` along successors. -/
def Reach : V → V → Prop := Relation.ReflTransGen fun v d => d ∈ adj v

/-- `d` stands before `v` in the list. -/
def Before (d v : V) (l : List V) : Prop := ∃ a b, l = a ++ v :: b ∧ d ∈ a

variable {adj}

lemma Before.append {d v : V} {l : List V} (h : Before d v l) (r : List V) : Before d v (l ++ r) := by
  obtain ⟨a, b, rfl, hd⟩ := h
  exact ⟨a, b ++ r, by simp, hd⟩

variable (adj)

/-- The state of a search from `root`: nodes are visited once; each node of the path is a successor of the
one after it; a successor that was looked at is out, or on the path and part of a cycle. -/
structure Search (root : V) (out path : List V) (next : V → ℕ) : Prop where
  nodup : (out ++ path).Nodup
  reach : ∀ v ∈ out ++ path, Reach adj root v
  root_mem : root ∈ out ++ path
  chain : path.IsChain fun c v => c ∈ adj v
  seen : ∀ v ∈ path, ∀ i < next v, ∀ d, (adj v)[i]? = some d → d ∈ out ∨ d ∈ path ∧ Reach adj d v
  closed : ∀ v ∈ out, ∀ d ∈ adj v, d ∈ out ++ path
  sorted : ∀ v ∈ out, ∀ d ∈ adj v, Before d v out ∨ Reach adj d v

variable {adj} {root p d : V} {out path : List V} {next next' : V → ℕ}

lemma reach_head (h : (p :: path).IsChain fun c v => c ∈ adj v) : ∀ v ∈ p :: path, Reach adj v p := by
  induction path generalizing p with
  | nil =>
    intro v hv
    rw [mem_singleton.1 hv]
    exact .refl
  | cons q path ih =>
    intro v hv
    rw [isChain_cons_cons] at h
    rcases mem_cons.1 hv with rfl | hv
    · exact .refl
    · exact (ih h.2 v hv).tail h.1

lemma Search.start (root : V) (h : next root = 0) : Search adj root [] [root] next where
  nodup := by simp
  reach := by simp [Reach, Relation.ReflTransGen.refl]
  root_mem := by simp
  chain := by simp
  seen := by
    intro v hv i hi
    rw [mem_singleton.1 hv, h] at hi
    exact absurd hi (Nat.not_lt_zero i)
  closed := by simp
  sorted := by simp

section

variable (h : Search adj root out (p :: path) next)

include h

lemma Search.skip (hd : (adj p)[next p]? = some d)
    (hvisited : d ∈ out ++ p :: path) (hp : next' p = next p + 1)
    (hother : ∀ v, v ≠ p → next' v = next v) :
    Search adj root out (p :: path) next' where
  __ := h
  seen := by
    intro v hv i hi e he
    by_cases hvp : v = p
    · subst hvp
      by_cases hnew : i = next v
      · -- the successor at hand: if it is not out, it is further down the path
        rw [hnew, hd] at he
        cases he
        rcases mem_append.1 hvisited with hout | hpath
        · exact .inl hout
        · exact .inr ⟨hpath, reach_head h.chain d hpath⟩
      · exact h.seen v hv i (by omega) e he
    · rw [hother v hvp] at hi
      exact h.seen v hv i hi e he

lemma Search.push (hd : d ∈ adj p) (hnew : d ∉ out ++ p :: path)
    (hzero : next' d = 0) (hother : ∀ v, v ≠ d → next' v = next v) :
    Search adj root out (d :: p :: path) next' where
  nodup := by
    rw [nodup_middle]
    exact nodup_cons.2 ⟨hnew, h.nodup⟩
  reach := by
    intro v hv
    rcases mem_append.1 hv with hv | hv
    · exact h.reach v (mem_append_left _ hv)
    · rcases mem_cons.1 hv with rfl | hv
      · exact (h.reach p (by simp)).tail hd
      · exact h.reach v (mem_append_right _ hv)
  root_mem := by
    rcases mem_append.1 h.root_mem with hr | hr
    · exact mem_append_left _ hr
    · exact mem_append_right _ (mem_cons_of_mem d hr)
  chain := isChain_cons_cons.2 ⟨hd, h.chain⟩
  seen := by
    intro v hv i hi e he
    rcases mem_cons.1 hv with rfl | hvp
    · rw [hzero] at hi
      exact absurd hi (Nat.not_lt_zero i)
    · rw [hother v (ne_of_mem_of_not_mem hvp fun hd => hnew (mem_append_right _ hd))] at hi
      exact (h.seen v hvp i hi e he).imp_right fun ⟨hpath, hreach⟩ => ⟨mem_cons_of_mem d hpath, hreach⟩
  closed := by
    intro v hv e he
    rcases mem_append.1 (h.closed v hv e he) with he | he
    · exact mem_append_left _ he
    · exact mem_append_right _ (mem_cons_of_mem d he)
  sorted := h.sorted

lemma Search.finish (hp : (adj p).length ≤ next p) : Search adj root (out ++ [p]) path next where
  nodup := by
    rw [append_assoc]
    exact h.nodup
  reach := by
    rw [append_assoc]
    exact h.reach
  root_mem := by
    rw [append_assoc]
    exact h.root_mem
  chain := h.chain.tail
  seen := by
    intro v hv i hi e he
    rcases h.seen v (mem_cons_of_mem p hv) i hi e he with hout | ⟨hpath, hreach⟩
    · exact .inl (mem_append_left _ hout)
    · rcases mem_cons.1 hpath with rfl | hpath
      · exact .inl (by simp)
      · exact .inr ⟨hpath, hreach⟩
  closed := by
    rw [append_assoc]
    intro v hv e he
    rcases mem_append.1 hv with hv | hv
    · exact h.closed v hv e he
    · rw [mem_singleton.1 hv] at he
      obtain ⟨i, hi⟩ := mem_iff_getElem?.mp he
      have hlt := (List.getElem?_eq_some_iff.1 hi).1
      rcases h.seen p mem_cons_self i (by omega) e hi with hout | ⟨hpath, -⟩
      · exact mem_append_left _ hout
      · exact mem_append_right _ hpath
  sorted := by
    intro v hv e he
    rcases mem_append.1 hv with hv | hv
    · exact (h.sorted v hv e he).imp_left fun hb => hb.append _
    · rw [mem_singleton.1 hv] at he ⊢
      obtain ⟨i, hi⟩ := mem_iff_getElem?.mp he
      have hlt := (List.getElem?_eq_some_iff.1 hi).1
      rcases h.seen p mem_cons_self i (by omega) e hi with hout | ⟨-, hreach⟩
      · exact .inl ⟨out, [], rfl, hout⟩
      · exact .inr hreach

end

/-- **The end of a search**: exactly the reachable nodes are out. -/
theorem Search.complete (h : Search adj root out [] next) (v : V) : v ∈ out ↔ Reach adj root v := by
  have hroot := h.root_mem
  rw [append_nil] at hroot
  constructor
  · intro hv
    exact h.reach v (mem_append_left _ hv)
  · intro hreach
    induction hreach with
    | refl => exact hroot
    | tail _ hedge ih =>
      have hmem := h.closed _ ih _ hedge
      rwa [append_nil] at hmem

lemma Search.length_le (h : Search adj root out path next) {all : List V}
    (hall : ∀ v, Reach adj root v → v ∈ all) :
    out.length + path.length ≤ all.length := by
  rw [← length_append]
  exact (subperm_of_subset h.nodup fun v hv => hall v (h.reach v hv)).length_le

/-! ### The moves that are left -/

variable (adj) in
lemma path_sum_congr (h : ∀ v ∈ path, next' v = next v) :
    (path.map fun v => (adj v).length - next' v + 2).sum =
    (path.map fun v => (adj v).length - next v + 2).sum := by
  congr 1
  apply map_congr_left
  intro v hv
  rw [h v hv]

variable [DecidableEq V] (adj)

/-- A bound for the moves that are left, where `all` are the nodes of the graph. -/
def potential (all : Finset V) (out path : List V) (next : V → ℕ) : ℕ :=
  ∑ v ∈ all with v ∉ out ++ path,
    ((adj v).length + 3) + (path.map fun v => (adj v).length - next v + 2).sum

variable {adj} {all : Finset V}

lemma potential_skip (hpath : p ∉ path) (hlt : next p < (adj p).length) (hp : next' p = next p + 1)
    (hother : ∀ v, v ≠ p → next' v = next v) :
    potential adj all out (p :: path) next' + 1 = potential adj all out (p :: path) next := by
  have hsum := path_sum_congr adj fun v hv => hother v (ne_of_mem_of_not_mem hv hpath)
  simp only [potential, map_cons, sum_cons]
  omega

lemma potential_push (hall : d ∈ all) (hnew : d ∉ out ++ p :: path) (hzero : next' d = 0)
    (hother : ∀ v, v ≠ d → next' v = next v) :
    potential adj all out (d :: p :: path) next' + 1 = potential adj all out (p :: path) next := by
  have hmem : d ∈ all.filter fun v => v ∉ out ++ p :: path := Finset.mem_filter.2 ⟨hall, hnew⟩
  have hfilter : (all.filter fun v => v ∉ out ++ d :: p :: path) =
      (all.filter fun v => v ∉ out ++ p :: path).erase d := by
    ext v
    simp only [Finset.mem_filter, Finset.mem_erase, mem_append, mem_cons]
    tauto
  have hpath : ∀ v ∈ p :: path, next' v = next v := fun v hv =>
    hother v (ne_of_mem_of_not_mem hv fun hd => hnew (mem_append_right _ hd))
  have herase := Finset.add_sum_erase _ (fun v => (adj v).length + 3) hmem
  unfold potential
  rw [hfilter, map_cons, sum_cons, path_sum_congr adj hpath]
  omega

lemma potential_finish :
    potential adj all (out ++ [p]) path next + 2 ≤ potential adj all out (p :: path) next := by
  unfold potential
  rw [append_assoc, singleton_append, map_cons, sum_cons]
  omega

lemma potential_start (hroot : root ∈ all) :
    potential adj all [] [root] next ≤ ∑ v ∈ all, ((adj v).length + 3) := by
  have hfilter : (all.filter fun v => v ∉ [] ++ [root]) = all.erase root := by
    ext v
    simp [and_comm]
  have herase := Finset.add_sum_erase all (fun v => (adj v).length + 3) hroot
  unfold potential
  rw [hfilter, map_singleton, sum_singleton]
  omega

end Musl.Lib.PostOrder
