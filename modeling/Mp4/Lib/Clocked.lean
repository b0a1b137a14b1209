import Mathlib.Data.List.Basic

/-!
Runs of a synchronous machine. One input is consumed at each clock edge; a
condition on a cycle sees the input together with the state before the edge.
-/

set_option autoImplicit false
set_option relaxedAutoImplicit false

namespace Mp4.Lib.Clocked

universe u v w

variable {ι : Type u} {σ : Type v}

/-- The state after the listed cycles, the first input being consumed first. -/
def run (step : ι → σ → σ) (s : σ) : List ι → σ
  | [] => s
  | i :: is => run step (step i s) is

/-- A condition that every cycle of a run meets. -/
def Along (step : ι → σ → σ) (P : ι → σ → Prop) (s : σ) : List ι → Prop
  | [] => True
  | i :: is => P i s ∧ Along step P (step i s) is

instance decidableAlong (step : ι → σ → σ) (P : ι → σ → Prop) [∀ i s, Decidable (P i s)] :
    (s : σ) → (is : List ι) → Decidable (Along step P s is)
  | _, [] => inferInstanceAs (Decidable True)
  | s, i :: is =>
      @instDecidableAnd _ _ (inferInstanceAs (Decidable (P i s)))
        (decidableAlong step P (step i s) is)

theorem run_append (step : ι → σ → σ) (s : σ) (is js : List ι) :
    run step s (is ++ js) = run step (run step s is) js := by
  induction is generalizing s with
  | nil => rfl
  | cons i is ih => exact ih (step i s)

theorem along_append (step : ι → σ → σ) (P : ι → σ → Prop) (s : σ) (is js : List ι) :
    Along step P s (is ++ js) ↔ Along step P s is ∧ Along step P (run step s is) js := by
  induction is generalizing s with
  | nil => simp [Along, run]
  | cons i is ih => simp [Along, run, ih, and_assoc]

/-- The invariant rule: what holds initially and is kept by every admitted cycle
holds after every admitted run. -/
theorem run_invariant {step : ι → σ → σ} {A : ι → σ → Prop} {Inv : σ → Prop}
    (keep : ∀ i s, Inv s → A i s → Inv (step i s)) {s : σ} (start : Inv s)
    {is : List ι} (admitted : Along step A s is) : Inv (run step s is) := by
  induction is generalizing s with
  | nil => exact start
  | cons i is ih => exact ih (keep i s start admitted.1) admitted.2

theorem run_counted {step : ι → σ → σ} {A : ι → Prop} {Inv : Nat → σ → Prop}
    (keep : ∀ n i s, Inv n s → A i → Inv (n + 1) (step i s)) {n : Nat} {s : σ} (start : Inv n s)
    {is : List ι} (admitted : ∀ i ∈ is, A i) : Inv (n + is.length) (run step s is) := by
  induction is generalizing s n with
  | nil => exact start
  | cons i is ih =>
    rw [List.length_cons, Nat.add_comm is.length, ← Nat.add_assoc]
    apply ih (keep n i s start (admitted i List.mem_cons_self))
    intro j mem
    exact admitted j (List.mem_cons_of_mem i mem)

theorem along_invariant {step : ι → σ → σ} {A Q : ι → σ → Prop} {Inv : σ → Prop}
    (keep : ∀ i s, Inv s → A i s → Inv (step i s))
    (shows : ∀ i s, Inv s → A i s → Q i s) {s : σ} (start : Inv s)
    {is : List ι} (admitted : Along step A s is) : Along step Q s is := by
  induction is generalizing s with
  | nil => trivial
  | cons i is ih =>
      exact ⟨shows i s start admitted.1, ih (keep i s start admitted.1) admitted.2⟩

theorem along_of_forall {step : ι → σ → σ} {P : ι → σ → Prop} (all : ∀ i s, P i s) (s : σ)
    (is : List ι) : Along step P s is := by
  induction is generalizing s with
  | nil => trivial
  | cons i is ih => exact ⟨all i s, ih (step i s)⟩

theorem along_of_mem (step : ι → σ → σ) {P : ι → Prop} {s : σ} {is : List ι}
    (all : ∀ i ∈ is, P i) : Along step (fun i _ => P i) s is := by
  induction is generalizing s with
  | nil => trivial
  | cons i is ih =>
    refine ⟨all i List.mem_cons_self, ih ?_⟩
    intro j mem
    exact all j (List.mem_cons_of_mem i mem)

theorem along_iff {step : ι → σ → σ} {Q C : ι → σ → Prop} {Inv : σ → Prop}
    (keep : ∀ i s, Inv s → Inv (step i s)) (same : ∀ i s, Inv s → (Q i s ↔ C i s)) {s : σ}
    (start : Inv s) (is : List ι) : Along step Q s is ↔ Along step C s is := by
  induction is generalizing s with
  | nil => exact Iff.rfl
  | cons i is ih => exact and_congr (same i s start) (ih (keep i s start))

theorem along_congr {step : ι → σ → σ} {Q C : ι → σ → Prop} (same : ∀ i s, Q i s ↔ C i s) (s : σ)
    (is : List ι) : Along step Q s is ↔ Along step C s is := by
  have keep (_ : ι) (_ : σ) (always : True) : True := always
  exact along_iff (s := s) keep (fun i s _ => same i s) trivial is

/-- A condition on every state of a run, the first and the last one included. -/
def Throughout (step : ι → σ → σ) (Q : σ → Prop) (s : σ) : List ι → Prop
  | [] => Q s
  | i :: is => Q s ∧ Throughout step Q (step i s) is

theorem throughout_run {step : ι → σ → σ} {Q : σ → Prop} {s : σ} {is : List ι}
    (all : Throughout step Q s is) : Q (run step s is) := by
  induction is generalizing s with
  | nil => exact all
  | cons i is ih => exact ih all.2

theorem throughout_start {step : ι → σ → σ} {Q : σ → Prop} {s : σ} {is : List ι}
    (all : Throughout step Q s is) : Q s := by
  cases is with
  | nil => exact all
  | cons i is => exact all.1

theorem throughout_invariant {step : ι → σ → σ} {Q Inv : σ → Prop}
    (keep : ∀ i s, Inv s → Inv (step i s)) (shows : ∀ s, Inv s → Q s) {s : σ} (start : Inv s)
    (is : List ι) : Throughout step Q s is := by
  induction is generalizing s with
  | nil => exact shows s start
  | cons i is ih => exact ⟨shows s start, ih (keep i s start)⟩

/-- The exact condition of a property of runs: every cycle that meets it keeps the invariant,
and a cycle that does not meet it ends in a state without the property. -/
theorem throughout_iff {step : ι → σ → σ} {Inv Q : σ → Prop} {C : ι → σ → Prop}
    (shows : ∀ s, Inv s → Q s) (keep : ∀ i s, Inv s → C i s → Inv (step i s))
    (needs : ∀ i s, Inv s → Q (step i s) → C i s) {s : σ} (start : Inv s) (is : List ι) :
    Throughout step Q s is ↔ Along step C s is := by
  induction is generalizing s with
  | nil => exact ⟨fun _ => trivial, fun _ => shows s start⟩
  | cons i is ih =>
    constructor
    · intro all
      have met := needs i s start (throughout_start all.2)
      exact ⟨met, (ih (keep i s start met)).mp all.2⟩
    · intro met
      exact ⟨shows s start, (ih (keep i s start met.1)).mpr met.2⟩

theorem run_related {step : ι → σ → σ} {R : σ → σ → Prop}
    (keep : ∀ i s s', R s s' → R (step i s) (step i s')) {s s' : σ} (start : R s s')
    (is : List ι) : R (run step s is) (run step s' is) := by
  induction is generalizing s s' with
  | nil => exact start
  | cons i is ih => exact ih (keep i s s' start)

section Driven

variable {κ : Type w} {τ : Type w} {step : ι → σ → σ} {out : ι → σ → κ} {step' : κ → τ → τ}
  {view : σ → τ}

/-- What a machine drives in the cycles of a run. -/
def driven (step : ι → σ → σ) (out : ι → σ → κ) (s : σ) : List ι → List κ
  | [] => []
  | i :: is => out i s :: driven step out (step i s) is

/-- A machine whose view of itself steps under what it drives runs under it. -/
theorem run_driven (sim : ∀ i s, view (step i s) = step' (out i s) (view s)) (s : σ)
    (is : List ι) : view (run step s is) = run step' (view s) (driven step out s is) := by
  induction is generalizing s with
  | nil => rfl
  | cons i is ih =>
    rw [driven, run, run, ← sim]
    exact ih (step i s)

theorem along_driven (sim : ∀ i s, view (step i s) = step' (out i s) (view s))
    {P : κ → τ → Prop} {s : σ} {is : List ι}
    (all : Along step (fun i s => P (out i s) (view s)) s is) :
    Along step' P (view s) (driven step out s is) := by
  induction is generalizing s with
  | nil => trivial
  | cons i is ih =>
    refine ⟨all.1, ?_⟩
    rw [← sim]
    exact ih all.2

theorem countP_driven (p : κ → Bool) (q : ι → Bool) (same : ∀ i s, p (out i s) = q i) (s : σ)
    (is : List ι) : (driven step out s is).countP p = is.countP q := by
  induction is generalizing s with
  | nil => rfl
  | cons i is ih => rw [driven, List.countP_cons, List.countP_cons, ih, same]

end Driven

section Projected

variable {ρ : Type w} {step : ι → σ → σ} {step' : ι → ρ → ρ} {view : σ → ρ}

theorem run_projected (sim : ∀ i s, view (step i s) = step' i (view s)) (s : σ) (is : List ι) :
    view (run step s is) = run step' (view s) is := by
  induction is generalizing s with
  | nil => rfl
  | cons i is ih => rw [run, run, ih, sim]

theorem along_projected (sim : ∀ i s, view (step i s) = step' i (view s)) {P : ι → ρ → Prop}
    {s : σ} {is : List ι} (all : Along step' P (view s) is) :
    Along step (fun i s => P i (view s)) s is := by
  induction is generalizing s with
  | nil => trivial
  | cons i is ih =>
    refine ⟨all.1, ih ?_⟩
    rw [sim]
    exact all.2

end Projected

def chosen (step : ι → σ → σ) (choose : σ → ι) : Nat → σ → List ι
  | 0, _ => []
  | n + 1, s => choose s :: chosen step choose n (step (choose s) s)

section Chosen

variable {step : ι → σ → σ} {choose : σ → ι}

theorem length_chosen (n : Nat) (s : σ) : (chosen step choose n s).length = n := by
  induction n generalizing s with
  | zero => rfl
  | succ n ih => rw [chosen, List.length_cons, ih]

theorem along_chosen {P : ι → σ → Prop} (meets : ∀ s, P (choose s) s) (n : Nat) (s : σ) :
    Along step P s (chosen step choose n s) := by
  induction n generalizing s with
  | zero => trivial
  | succ n ih => exact ⟨meets s, ih (step (choose s) s)⟩

end Chosen

end Mp4.Lib.Clocked
