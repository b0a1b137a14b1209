import Mathlib.Logic.Function.Basic
import Mp4.Memory.LineBus

/-!
What a cache shows on its two ports, cycle by cycle: the traffic of a request that is found, of
one whose line is read, and of one that makes the cache write a line back first; and which lines
were modified since they were filled.
-/

set_option autoImplicit false
set_option relaxedAutoImplicit false

namespace Mp4.Memory.LineEvents

open Mp4.Memory.Address

universe u v

/-- What one cycle shows on the two ports. -/
structure Event where
  /-- The request on the lower port, with `pmem_resp`. -/
  transfer : Option (LineBus.Request × Bool)
  memResp : Bool
  deriving DecidableEq

def Event.quiet : Event := ⟨none, false⟩

def Event.answer : Event := ⟨none, true⟩

def transaction (q : LineBus.Request) (waits : Nat) : List Event :=
  List.replicate waits ⟨some (q, false), false⟩ ++ [⟨some (q, true), false⟩]

/-- The cycles of a request up to its answer. -/
def Traffic (found dirty : Bool) (writeBack fetch : LineBus.Request) (events : List Event) : Prop :=
  if found then events = [.answer]
  else if dirty then
    ∃ n m, events = .quiet :: (transaction writeBack n ++ (transaction fetch m ++ [.answer]))
  else ∃ n, events = .quiet :: (transaction fetch n ++ [.answer])

section Traffic

variable {q writeBack fetch : LineBus.Request} {found dirty : Bool} {events : List Event}

theorem transaction_succ (q : LineBus.Request) (n : Nat) :
    transaction q (n + 1) = ⟨some (q, false), false⟩ :: transaction q n := by
  rw [transaction, List.replicate_succ]
  rfl

private theorem transaction_quiet {n : Nat} {e : Event} (here : e ∈ transaction q n) :
    e.memResp = false := by
  rcases List.mem_append.mp here with here | here
  · rw [List.eq_of_mem_replicate here]
  · rw [List.mem_singleton.mp here]

theorem exists_traffic (found dirty : Bool) (writeBack fetch : LineBus.Request) :
    ∃ events, Traffic found dirty writeBack fetch events := by
  unfold Traffic
  split_ifs
  · exact ⟨_, rfl⟩
  · exact ⟨_, 0, 0, rfl⟩
  · exact ⟨_, 0, rfl⟩

private theorem Traffic.answer_last (traffic : Traffic found dirty writeBack fetch events) :
    ∃ earlier, events = earlier ++ [.answer] ∧ ∀ e ∈ earlier, e.memResp = false := by
  unfold Traffic at traffic
  split_ifs at traffic
  · exact ⟨[], traffic, List.forall_mem_nil _⟩
  · obtain ⟨n, m, rfl⟩ := traffic
    refine ⟨.quiet :: (transaction writeBack n ++ transaction fetch m), by simp, ?_⟩
    intro e here
    rcases List.mem_cons.mp here with rfl | here
    · rfl
    · rcases List.mem_append.mp here with here | here
      · exact transaction_quiet here
      · exact transaction_quiet here
  · obtain ⟨n, rfl⟩ := traffic
    refine ⟨.quiet :: transaction fetch n, by simp, ?_⟩
    intro e here
    rcases List.mem_cons.mp here with rfl | here
    · rfl
    · exact transaction_quiet here

/-- Events that include an answer are the whole traffic, behind what the cache shows first. -/
theorem Traffic.complete (traffic : Traffic found dirty writeBack fetch events)
    {lead shown : List Event} (silent : ∀ e ∈ lead, e.memResp = false)
    (part : shown <+: lead ++ events) (answered : ∃ e ∈ shown, e.memResp = true) :
    shown = lead ++ events := by
  obtain ⟨earlier, rfl, quiet⟩ := traffic.answer_last
  rw [← List.append_assoc] at part ⊢
  rcases List.prefix_concat_iff.mp part with whole | short
  · exact whole
  · obtain ⟨e, here, answer⟩ := answered
    rcases List.mem_append.mp (short.subset here) with first | early
    · rw [silent e first] at answer
      cases answer
    · rw [quiet e early] at answer
      cases answer

end Traffic

section Served

variable {ι : Type u} {σ : Type v}

def served (step : ι → σ → σ) (event : σ → ι → Event) (s : σ) : List ι → List Event
  | [] => []
  | i :: is => event s i :: if (event s i).memResp then [] else served step event (step i s) is

variable {step : ι → σ → σ} {event : σ → ι → Event} {s : σ} {i : ι} {is : List ι}

theorem served_waits (quiet : (event s i).memResp = false) :
    served step event s (i :: is) = event s i :: served step event (step i s) is := by
  rw [served, quiet]
  rfl

theorem served_answer (answer : event s i = .answer) :
    served step event s (i :: is) = [.answer] := by
  rw [served, answer]
  rfl

end Served

/-- An answered write modifies its line, and a refill that is responded to fills its line anew. -/
def modifiedNext (writes fills : Bool) (written filled : LineAddr) (modified : LineAddr → Bool) :
    LineAddr → Bool :=
  if writes then Function.update modified written true
  else if fills then Function.update modified filled false
  else modified

theorem modifiedNext_quiet {writes fills : Bool} {written filled : LineAddr}
    {modified : LineAddr → Bool} (noWrite : writes = false) (noFill : fills = false) :
    modifiedNext writes fills written filled modified = modified := by
  rw [modifiedNext, noWrite, noFill]
  rfl

theorem modifiedNext_readOnly {writes fills : Bool} {written filled : LineAddr}
    {modified : LineAddr → Bool} (noWrite : writes = false) (none : ∀ l, modified l = false)
    (l : LineAddr) : modifiedNext writes fills written filled modified l = false := by
  rw [modifiedNext, noWrite, if_neg Bool.false_ne_true]
  split_ifs
  · by_cases same : l = filled
    · rw [same, Function.update_self]
    · rw [Function.update_of_ne same]
      exact none l
  · exact none l

end Mp4.Memory.LineEvents
