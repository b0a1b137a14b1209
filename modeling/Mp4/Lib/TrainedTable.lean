import Mathlib.Logic.Function.Basic
import Mp4.Lib.Clocked

/-!
A machine with a table that is trained one outcome at a time, beside the outcomes that each
entry was trained with. A rule that is replayed over these outcomes agrees with the entry until
a training in which the two differ.
-/

set_option autoImplicit false
set_option relaxedAutoImplicit false

namespace Mp4.Lib.TrainedTable

open Mp4.Lib.Clocked

universe u v w x y

variable {ι : Type u} {σ : Type v} {K : Type w} {V : Type x} {R : Type y}

/-- The machine, and the outcomes since it was last restarted. -/
structure Logged (σ : Type v) (K : Type w) where
  state : σ
  log : K → List Bool

def replay (rule : Bool → R → R) (init : R) (outcomes : List Bool) : R :=
  outcomes.foldl (fun r o => rule o r) init

theorem replay_snoc (rule : Bool → R → R) (init : R) (outcomes : List Bool) (o : Bool) :
    replay rule init (outcomes ++ [o]) = rule o (replay rule init outcomes) := by
  rw [replay, List.foldl_append]
  rfl

/-- What is read from an entry is the replay of a rule over its outcomes. -/
def Agrees (table : σ → K → V) (read : V → R) (other : Bool → R → R) (init : V) (k : K)
    (s : Logged σ K) : Prop :=
  read (table s.state k) = replay other (read init) (s.log k)

/-- A shift register holds the latest outcomes, bit `j` the one before the last `j`, and zeros
where there have been fewer. -/
def Remembers {n : Nat} (history : BitVec n) (outcomes : List Bool) : Prop :=
  ∀ j < n, history.getLsbD j = outcomes.reverse.getD j false

theorem remembers_nil (n : Nat) : Remembers (0#n) [] := by
  intro j _
  simp

theorem Remembers.shift {n : Nat} {history : BitVec n} {outcomes : List Bool}
    (remembers : Remembers history outcomes) (o : Bool) :
    Remembers (history <<< 1 ||| (BitVec.ofBool o).setWidth n) (outcomes ++ [o]) := by
  intro j inside
  rw [List.reverse_append, List.reverse_singleton, List.singleton_append]
  cases j with
  | zero => cases o <;> simp [inside]
  | succ j =>
    have before := remembers j (by omega)
    rw [List.getD_cons_succ, ← before]
    have out : ((BitVec.ofBool o).setWidth n).getLsbD (j + 1) = false := by
      rw [BitVec.getLsbD_setWidth, BitVec.getLsbD_of_ge (BitVec.ofBool o) (j + 1) (by omega)]
      exact Bool.and_false _
    rw [BitVec.getLsbD_or, out, Bool.or_false, BitVec.getLsbD_shiftLeft]
    simp [inside]

def saturate (max : Nat) (up : Bool) (c : Nat) : Nat := if up then min (c + 1) max else c - 1

variable [DecidableEq K] (next : ι → σ → σ) (restarts : ι → Bool)
  (trains : ι → σ → Option (K × Bool))

def Logged.step (i : ι) (s : Logged σ K) : Logged σ K where
  state := next i s.state
  log :=
    if restarts i then fun _ => []
    else match trains i s.state with
      | some (k, o) => Function.update s.log k (s.log k ++ [o])
      | none => s.log

/-- The table changes by restarts and by trainings with the rule. -/
structure Trains (table : σ → K → V) (rule : Bool → V → V) (init : V) : Prop where
  restart : ∀ i s k, restarts i = true → table (next i s) k = init
  train : ∀ i s k o, restarts i = false → trains i s = some (k, o) →
    table (next i s) = Function.update (table s) k (rule o (table s k))
  keep : ∀ i s, restarts i = false → trains i s = none → table (next i s) = table s

section Log

variable {next restarts trains} {i : ι} {s : Logged σ K}

theorem log_restart (restart : restarts i = true) :
    (s.step next restarts trains i).log = fun _ => [] := by
  simp [Logged.step, restart]

theorem log_none (running : restarts i = false) (none : trains i s.state = none) :
    (s.step next restarts trains i).log = s.log := by
  simp [Logged.step, running, none]

theorem log_some {k : K} {o : Bool} (running : restarts i = false)
    (some : trains i s.state = some (k, o)) :
    (s.step next restarts trains i).log = Function.update s.log k (s.log k ++ [o]) := by
  simp [Logged.step, running, some]

variable {table : σ → K → V} {rule : Bool → V → V} {init : V}

theorem Trains.entry_step (trained : Trains next restarts trains table rule init) (k : K) :
    (restarts i = true ∧ table (next i s.state) k = init ∧
      (s.step next restarts trains i).log k = []) ∨
    (∃ o, restarts i = false ∧ trains i s.state = some (k, o) ∧
      table (next i s.state) k = rule o (table s.state k) ∧
      (s.step next restarts trains i).log k = s.log k ++ [o]) ∨
    (restarts i = false ∧ (∀ o, trains i s.state ≠ some (k, o)) ∧
      table (next i s.state) k = table s.state k ∧
      (s.step next restarts trains i).log k = s.log k) := by
  cases restart : restarts i with
  | true =>
    refine Or.inl ⟨rfl, trained.restart i s.state k restart, ?_⟩
    rw [log_restart restart]
  | false =>
    cases event : trains i s.state with
    | none =>
      refine Or.inr (Or.inr ⟨rfl, ?_, ?_, ?_⟩)
      · intro o same
        cases same
      · rw [trained.keep i s.state restart event]
      · rw [log_none restart event]
    | some event' =>
      obtain ⟨k', o⟩ := event'
      by_cases here : k' = k
      · subst here
        refine Or.inr (Or.inl ⟨o, rfl, rfl, ?_, ?_⟩)
        · rw [trained.train i s.state k' o restart event, Function.update_self]
        · rw [log_some restart event, Function.update_self]
      · refine Or.inr (Or.inr ⟨rfl, ?_, ?_, ?_⟩)
        · intro o' same
          apply here
          exact congrArg Prod.fst (Option.some.inj same)
        · rw [trained.train i s.state k' o restart event, Function.update_of_ne (Ne.symm here)]
        · rw [log_some restart event, Function.update_of_ne (Ne.symm here)]

/-- Another rule that is replayed over the outcomes of an entry agrees with it throughout a run
exactly if the two rules agree in each training of the entry. -/
theorem Trains.agrees_iff (trained : Trains next restarts trains table rule init) {k : K}
    (read : V → R) (other : Bool → R → R) (start : Agrees table read other init k s)
    (is : List ι) :
    Throughout (Logged.step next restarts trains) (Agrees table read other init k) s is ↔
      Along (Logged.step next restarts trains)
        (fun i s => ∀ o, restarts i = false → trains i s.state = some (k, o) →
          read (rule o (table s.state k)) = other o (read (table s.state k))) s is := by
  have shows (s : Logged σ K) (now : Agrees table read other init k s) :
      Agrees table read other init k s := now
  refine throughout_iff shows (fun i s now agree => ?_) (fun i s now after o running event => ?_)
    start is
  · show read (table (next i s.state) k) = _
    rcases trained.entry_step (i := i) (s := s) k with
      ⟨-, entry, log⟩ | ⟨o, running, event, entry, log⟩ | ⟨-, -, entry, log⟩
    · rw [entry, log]
      rfl
    · rw [entry, log, replay_snoc, ← now]
      exact agree o running event
    · rw [entry, log, now]
  · have after' : read (table (next i s.state) k) = _ := after
    rw [trained.train i s.state k o running event, log_some running event, Function.update_self,
      Function.update_self, replay_snoc, ← now] at after'
    exact after'

end Log

end Mp4.Lib.TrainedTable
