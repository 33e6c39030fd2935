import Mathlib.Tactic

/-!
# Programs that return or stop

A program over a state type `σ` either **returns** a value together with the state it leaves, or
**stops** for good with a reason and the state it stopped in (a crash, a memory fault).  Nothing runs
after a stop.

Nothing here mentions a particular program.
-/

namespace Musl.Lib

/-- What running a program gives: a value and the state left, or a stop. -/
inductive Outcome (ε σ α : Type) where
  | ok (a : α) (s : σ)
  | stop (e : ε) (s : σ)

/-- A program over the state `σ` that may stop with a reason of type `ε`. -/
def Prog (ε σ α : Type) : Type := σ → Outcome ε σ α

variable {ε σ α β : Type}

namespace Outcome

def state : Outcome ε σ α → σ
  | ok _ s => s
  | stop _ s => s

def isOk : Outcome ε σ α → Bool
  | ok _ _ => true
  | stop _ _ => false

def reason : Outcome ε σ α → Option ε
  | ok _ _ => none
  | stop e _ => some e

def value : Outcome ε σ α → Option α
  | ok a _ => some a
  | stop _ _ => none

/-- A return satisfies `Q`, a stop satisfies `E`. -/
def Sat (r : Outcome ε σ α) (Q : α → σ → Prop) (E : ε → σ → Prop) : Prop :=
  match r with
  | ok a s => Q a s
  | stop e s => E e s

variable {E : ε → σ → Prop} {Q Q' : α → σ → Prop} {s : σ} {r : Outcome ε σ α}

@[simp] lemma sat_ok {a : α} : (ok a s : Outcome ε σ α).Sat Q E ↔ Q a s := Iff.rfl

@[simp] lemma sat_stop {e : ε} : (stop e s : Outcome ε σ α).Sat Q E ↔ E e s := Iff.rfl

/-- **Consequence.**  Both postconditions may be weakened. -/
theorem Sat.mono {E' : ε → σ → Prop} (h : r.Sat Q E) (hQ : ∀ a s, Q a s → Q' a s)
    (hE : ∀ e s, E e s → E' e s) :
    r.Sat Q' E' := by
  cases r with
  | ok a s => exact hQ a s h
  | stop e s => exact hE e s h

lemma Sat.imp (h : r.Sat Q E) (hQ : ∀ a s, Q a s → Q' a s) : r.Sat Q' E :=
  h.mono hQ fun _ _ he => he

lemma Sat.and (h : r.Sat Q E) (h' : r.Sat Q' E) : r.Sat (fun a s => Q a s ∧ Q' a s) E := by
  cases r with
  | ok a s => exact ⟨h, h'⟩
  | stop e s => exact h

lemma Sat.returns (h : r.Sat Q E) (hE : ∀ e s, r = stop e s → ¬E e s) : ∃ a s, r = ok a s ∧ Q a s := by
  cases r with
  | ok a s => exact ⟨a, s, rfl, h⟩
  | stop e s => exact absurd h (hE e s rfl)

/-- The postcondition of a call whose answer is known. -/
lemma Sat.of_value {a : α} (h : r.Sat Q E) (hv : r.value = some a) : Q a r.state := by
  cases r with
  | ok b s =>
    cases hv
    exact h
  | stop e s => cases hv

end Outcome

namespace Prog

instance : Monad (Prog ε σ) where
  pure a := fun s => .ok a s
  bind m f := fun s =>
    match m s with
    | .ok a s' => f a s'
    | .stop e s' => .stop e s'

def stopWith (e : ε) : Prog ε σ α := fun s => .stop e s

def stopIf (c : Prop) [Decidable c] (e : ε) : Prog ε σ Unit := fun s =>
  if c then .stop e s else .ok () s

def get : Prog ε σ σ := fun s => .ok s s

def modify (f : σ → σ) : Prog ε σ Unit := fun s => .ok () (f s)

/-- Run a program only when the test holds. -/
def exec (c : Prop) [Decidable c] (m : Prog ε σ Unit) : Prog ε σ Unit := fun s =>
  if c then m s else .ok () s

lemma bind_apply (m : Prog ε σ α) (f : α → Prog ε σ β) (s : σ) : (m >>= f) s = match m s with
      | .ok a s' => f a s'
      | .stop e s' => .stop e s' := rfl

variable {f : α → Prog ε σ β} {m : Prog ε σ α} {s s' : σ}

lemma bind_ok {a : α} (h : m s = .ok a s') : (m >>= f) s = f a s' := by
  rw [bind_apply, h]

lemma bind_stop {e : ε} (h : m s = .stop e s') : (m >>= f) s = .stop e s' := by
  rw [bind_apply, h]

/-! ### The rules of the judgment -/

section Rules

variable {Q : β → σ → Prop} {R : Unit → σ → Prop} {E : ε → σ → Prop} {s : σ}

@[simp] lemma sat_pure {b : β} : ((pure b : Prog ε σ β) s).Sat Q E ↔ Q b s := Iff.rfl

/-- **Sequencing.**  The second program runs from every return of the first. -/
theorem sat_bind {m : Prog ε σ α} {f : α → Prog ε σ β} :
    ((m >>= f) s).Sat Q E ↔ (m s).Sat (fun a s' => (f a s').Sat Q E) E := by
  rw [bind_apply]
  cases m s with
  | ok a s' => exact .rfl
  | stop e s' => exact .rfl

variable {e : ε} {c : Prop}

@[simp] lemma sat_stopWith : ((stopWith e : Prog ε σ β) s).Sat Q E ↔ E e s := Iff.rfl

lemma sat_stopIf [Decidable c] :
    ((stopIf c e : Prog ε σ Unit) s).Sat R E ↔ (c → E e s) ∧ (¬c → R () s) := by
  unfold stopIf
  by_cases h : c
  · simp [h]
  · simp [h]

@[simp] lemma sat_get {Q : σ → σ → Prop} : ((get : Prog ε σ σ) s).Sat Q E ↔ Q s s := Iff.rfl

@[simp] lemma sat_modify {f : σ → σ} : ((modify f : Prog ε σ Unit) s).Sat R E ↔ R () (f s) := Iff.rfl

lemma sat_exec [Decidable c] {m : Prog ε σ Unit} :
    ((exec c m) s).Sat R E ↔ (c → (m s).Sat R E) ∧ (¬c → R () s) := by
  unfold exec
  by_cases h : c
  · simp [h]
  · simp [h]

lemma sat_ite [Decidable c] {m k : Prog ε σ β} :
    ((if c then m else k) s).Sat Q E ↔ (c → (m s).Sat Q E) ∧ (¬c → (k s).Sat Q E) := by
  by_cases h : c
  · simp [h]
  · simp [h]

end Rules

/-! ### A program next to a state it does not see -/

variable {τ : Type}

/-- Run a program beside a second component of the state, which it leaves alone. -/
def beside (m : Prog ε σ α) : Prog ε (σ × τ) α := fun st =>
  match m st.1 with
  | .ok a s' => .ok a (s', st.2)
  | .stop e s' => .stop e (s', st.2)

lemma sat_beside {st : σ × τ} {Q : α → σ × τ → Prop} {E : ε → σ × τ → Prop} :
    ((beside m) st).Sat Q E ↔ (m st.1).Sat (fun a s' => Q a (s', st.2)) (fun e s' => E e (s', st.2)) := by
  unfold beside
  cases m st.1 with
  | ok a s' => exact .rfl
  | stop e s' => exact .rfl

end Prog

lemma Outcome.Sat.bind {m : Prog ε σ α} {f : α → Prog ε σ β} {s : σ} {P : α → σ → Prop} {Q : β → σ → Prop}
    {E : ε → σ → Prop} (h : (m s).Sat P E) (hf : ∀ a s', P a s' → (f a s').Sat Q E) :
    ((m >>= f) s).Sat Q E :=
  Prog.sat_bind.2 (h.imp hf)

/-! ### Running a list of operations -/

/-- Run the operations in order, threading the state; the run ends at the first stop. -/
def runList {ω : Type} (step : ω → Prog ε σ Unit) : List ω → Prog ε σ Unit
  | [] => pure ()
  | op :: ops => do
      step op
      runList step ops

variable {ω : Type} {C : σ → ω → Prop} {step : ω → Prog ε σ Unit}

lemma runList_nil (step : ω → Prog ε σ Unit) (s : σ) : runList step [] s = .ok () s := rfl

lemma runList_cons (step : ω → Prog ε σ Unit) (op : ω) (ops : List ω) :
    runList step (op :: ops) = (step op >>= fun _ => runList step ops) := rfl

-- a statement about a concrete run is not evaluated while it is elaborated
attribute [irreducible] runList

/-- Every operation of the run meets the condition `C` in the state it starts from. -/
def RunMeets {ω : Type} (step : ω → Prog ε σ Unit) (C : σ → ω → Prop) : σ → List ω → Prop
  | _, [] => True
  | s, op :: ops => C s op ∧ ∀ s', step op s = .ok () s' → RunMeets step C s' ops

lemma RunMeets.cons {s s' : σ} {op : ω} {ops : List ω} (hC : C s op) (hs : step op s = .ok () s')
    (hrest : RunMeets step C s' ops) : RunMeets step C s (op :: ops) := by
  refine ⟨hC, fun s'' hs'' => ?_⟩
  rw [hs] at hs''
  cases hs''
  exact hrest

/-- **The invariant rule.**  If each operation that meets the condition keeps `I` when it returns and
satisfies `E` when it stops, a run whose operations all meet the condition does the same. -/
theorem runList_sat {I : σ → Prop} {E : ε → σ → Prop}
    (hstep : ∀ s op, I s → C s op → (step op s).Sat (fun _ s' => I s') E) :
    ∀ (ops : List ω)
    (s : σ), I s → RunMeets step C s ops → (runList step ops s).Sat (fun _ s' => I s') E := by
  intro ops
  induction ops with
  | nil =>
    intro s hI _
    rw [runList_nil]
    exact hI
  | cons op ops ih =>
    intro s hI hC
    obtain ⟨hop, hrest⟩ := hC
    rw [runList_cons, Prog.sat_bind]
    have h := hstep s op hI hop
    cases hr : step op s with
    | ok u s' =>
      rw [hr] at h
      exact ih s' h (hrest s' hr)
    | stop e s' =>
      rw [hr] at h
      exact h

end Musl.Lib
