import Mathlib.Data.List.Basic

/-!
The ledger of a link on which a party offers a request in every cycle until it is
answered: the request that must still be there, the requests raised so far and the
answers given so far.
-/

set_option autoImplicit false
set_option relaxedAutoImplicit false

namespace Mp4.Lib.Handshake

universe u v

variable {ρ : Type u} {δ : Type v}

structure Port (ρ : Type u) (δ : Type v) where
  pending : Option ρ
  raised : List ρ
  answered : List (ρ × δ)

namespace Port

def idle : Port ρ δ := ⟨none, [], []⟩

def exchanged (offer : Option ρ) (answer : Option δ) : List (ρ × δ) :=
  match offer, answer with
  | some r, some d => [(r, d)]
  | _, _ => []

def next (p : Port ρ δ) (offer : Option ρ) (answer : Option δ) : Port ρ δ where
  pending := if answer.isSome then none else offer
  raised := if p.pending.isSome then p.raised else p.raised ++ offer.toList
  answered := p.answered ++ exchanged offer answer

/-- The pending request is still offered. -/
def Held (p : Port ρ δ) (offer : Option ρ) : Prop := ∀ r ∈ p.pending, offer = some r

instance [DecidableEq ρ] (p : Port ρ δ) (offer : Option ρ) : Decidable (p.Held offer) :=
  inferInstanceAs (Decidable (∀ r ∈ p.pending, offer = some r))

/-- Every raised request has been answered once, in order, but for the pending one. -/
def Balanced (p : Port ρ δ) : Prop := p.raised = p.answered.map Prod.fst ++ p.pending.toList

theorem balanced_idle : (idle : Port ρ δ).Balanced := rfl

theorem Balanced.next {p : Port ρ δ} {offer : Option ρ} {answer : Option δ}
    (balanced : p.Balanced) (held : p.Held offer) (asked : answer.isSome → offer.isSome) :
    (p.next offer answer).Balanced := by
  have raised : (p.next offer answer).raised = p.answered.map Prod.fst ++ offer.toList := by
    cases pending : p.pending with
    | none => simpa [Port.next, Balanced, pending] using balanced
    | some r =>
      rw [held r pending]
      simpa [Port.next, Balanced, pending] using balanced
  rw [Balanced, raised]
  cases offer with
  | none =>
    have quiet : answer = none := by simpa using asked
    simp [Port.next, exchanged, quiet]
  | some r => cases answer <;> simp [Port.next, exchanged]

end Port

end Mp4.Lib.Handshake
