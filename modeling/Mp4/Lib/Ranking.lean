import Mp4.Lib.Clocked

/-!
Progress of a synchronous machine by a ranking: a number that falls in every cycle but in
those of a kind. Such a cycle comes within the rank, and the cycles of a run are at most so
many for each that comes.
-/

set_option autoImplicit false
set_option relaxedAutoImplicit false

namespace Mp4.Lib.Ranking

open Mp4.Lib.Clocked

universe u v

variable {ι : Type u} {σ : Type v} {step : ι → σ → σ} {A : ι → σ → Prop} {Inv : σ → Prop}
  {rank : σ → Nat}

/-- The cycles of a run in which a signal is up. -/
def visits (step : ι → σ → σ) (q : ι → σ → Bool) (s : σ) (is : List ι) : Nat :=
  (driven step q s is).countP id

theorem visits_cons (q : ι → σ → Bool) (s : σ) (i : ι) (is : List ι) :
    visits step q s (i :: is) = visits step q (step i s) is + if q i s then 1 else 0 := by
  rw [visits, driven, List.countP_cons]
  rfl

/-- A cycle of the kind comes before the signal has been up for more than `n` cycles. -/
def WithinVisits (step : ι → σ → σ) (q : ι → σ → Bool) (D : ι → σ → Prop) (n : Nat) (s : σ)
    (is : List ι) : Prop :=
  ∃ js i ks, is = js ++ i :: ks ∧ visits step q s js ≤ n ∧ D i (run step s js)

def Within (step : ι → σ → σ) (D : ι → σ → Prop) (n : Nat) (s : σ) (is : List ι) : Prop :=
  ∃ js i ks, is = js ++ i :: ks ∧ js.length ≤ n ∧ D i (run step s js)

section Visits

variable {q : ι → σ → Bool} {D : ι → σ → Prop} {n : Nat} {s : σ} {i : ι} {is : List ι}

theorem WithinVisits.now (here : D i s) : WithinVisits step q D n s (i :: is) :=
  ⟨[], i, is, rfl, Nat.zero_le _, here⟩

theorem WithinVisits.later (within : WithinVisits step q D n (step i s) is) :
    WithinVisits step q D (n + if q i s then 1 else 0) s (i :: is) := by
  obtain ⟨js, j, ks, split, soon, here⟩ := within
  refine ⟨i :: js, j, ks, by rw [split, List.cons_append], ?_, here⟩
  rw [visits_cons]
  exact Nat.add_le_add_right soon _

theorem WithinVisits.mono {m : Nat} (within : WithinVisits step q D n s is) (le : n ≤ m) :
    WithinVisits step q D m s is := by
  obtain ⟨js, i, ks, split, soon, here⟩ := within
  exact ⟨js, i, ks, split, Nat.le_trans soon le, here⟩

/-- The ranking rule: the rank never rises, and falls in every cycle with the signal up. -/
theorem withinVisits_of_rank (rank : σ → Nat) (keep : ∀ i s, Inv s → A i s → Inv (step i s))
    (falls : ∀ i s, Inv s → A i s →
      D i s ∨ rank (step i s) + (if q i s then 1 else 0) ≤ rank s)
    (start : Inv s) (admitted : Along step A s is) (long : rank s < visits step q s is) :
    WithinVisits step q D (rank s) s is := by
  induction is generalizing s with
  | nil => exact absurd long (Nat.not_lt_zero _)
  | cons i is ih =>
    rcases falls i s start admitted.1 with here | less
    · exact .now here
    · rw [visits_cons] at long
      have room : rank (step i s) < visits step q (step i s) is := by omega
      exact (ih (keep i s start admitted.1) admitted.2 room).later.mono less

theorem WithinVisits.of_held {P E : ι → σ → Prop}
    (holds : ∀ i j s, P i s → A i s → ¬E i s → A j (step i s) → P j (step i s))
    (serves : ∀ i s, P i s → D i s → E i s) (here : P i s) (admitted : Along step A s (i :: is))
    (within : WithinVisits step q D n s (i :: is)) : WithinVisits step q E n s (i :: is) := by
  induction is generalizing s i n with
  | nil =>
    obtain ⟨js, j, ks, split, soon, done⟩ := within
    obtain rfl : js = [] := by
      cases js with
      | nil => rfl
      | cons _ js => cases js <;> cases split
    cases split
    exact .now (serves i s here done)
  | cons j is ih =>
    by_cases answered : E i s
    · exact .now answered
    have here' := holds i j s here admitted.1 answered admitted.2.1
    obtain ⟨js, k, ks, split, soon, done⟩ := within
    cases js with
    | nil =>
      cases split
      exact absurd (serves i s here done) answered
    | cons i' js =>
      obtain ⟨rfl, tail⟩ := List.cons.inj split
      rw [visits_cons] at soon
      have rest := ih here' admitted.2 ⟨js, k, ks, tail, Nat.le_refl _, done⟩
      exact rest.later.mono soon

end Visits

theorem visits_always (step : ι → σ → σ) (s : σ) (is : List ι) :
    visits step (fun _ _ => true) s is = is.length := by
  induction is generalizing s with
  | nil => rfl
  | cons i is ih => rw [visits_cons, ih, List.length_cons, if_pos rfl]

theorem within_of_rank {D : ι → σ → Prop} (keep : ∀ i s, Inv s → A i s → Inv (step i s))
    (falls : ∀ i s, Inv s → A i s → D i s ∨ rank (step i s) < rank s) {s : σ} (start : Inv s)
    {is : List ι} (admitted : Along step A s is) (long : rank s < is.length) :
    Within step D (rank s) s is := by
  rw [← visits_always step s is] at long
  obtain ⟨js, i, ks, split, soon, here⟩ := withinVisits_of_rank rank keep falls start admitted long
  rw [visits_always] at soon
  exact ⟨js, i, ks, split, soon, here⟩

theorem Within.mono {D : ι → σ → Prop} {n m : Nat} {s : σ} {is : List ι}
    (within : Within step D n s is) (le : n ≤ m) : Within step D m s is := by
  obtain ⟨js, i, ks, split, soon, here⟩ := within
  exact ⟨js, i, ks, split, Nat.le_trans soon le, here⟩

theorem length_le_visits {q : ι → σ → Bool} {bound : Nat}
    (keep : ∀ i s, Inv s → A i s → Inv (step i s))
    (falls : ∀ i s, Inv s → A i s → q i s = true ∨ rank (step i s) < rank s)
    (bounded : ∀ s, Inv s → rank s ≤ bound) {s : σ} (start : Inv s) {is : List ι}
    (admitted : Along step A s is) :
    is.length ≤ (bound + 1) * visits step q s is + rank s := by
  induction is generalizing s with
  | nil => exact Nat.zero_le _
  | cons i is ih =>
    have kept := keep i s start admitted.1
    have rest := ih kept admitted.2
    have room := bounded _ kept
    rw [visits_cons, List.length_cons, Nat.mul_add]
    cases here : q i s with
    | true =>
      rw [if_pos rfl, Nat.mul_one]
      omega
    | false =>
      have less := (falls i s start admitted.1).resolve_left (by rw [here]; simp)
      rw [if_neg Bool.false_ne_true, Nat.mul_zero]
      omega

end Mp4.Lib.Ranking
