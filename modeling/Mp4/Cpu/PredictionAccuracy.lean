import Mp4.Cpu.PatternCounters
import Mp4.Lib.MistakeBound

/-!
How often the entries of `global_br_pred` and `local_br_pred` are wrong about the branches that
are trained into them. The step from strongly not-taken to weakly taken costs at most a factor
of two against a two-bit counter, and saves at most a factor of two.
-/

set_option autoImplicit false
set_option relaxedAutoImplicit false

namespace Mp4.Cpu.PredictionAccuracy

open Mp4.Cpu.Rv32iTypes Mp4.Cpu.BranchPredictor Mp4.Cpu.PatternCounters
open Mp4.Lib.Clocked Mp4.Lib.TrainedTable Mp4.Lib.MistakeBound

def entry : Rule PatternState := ⟨PatternState.updated, PatternState.isTaken⟩

def counter : Rule Nat := ⟨saturate 3, fun c => decide (2 ≤ c)⟩

abbrev globalScored :=
  Scored.step GlobalBrPred.next PredictorIn.rst globalTrains GlobalBrPred.patternStates entry

abbrev localScored :=
  Scored.step LocalBrPred.next PredictorIn.rst localTrains LocalBrPred.patternStates entry

section Rule

def owed (p : PatternState) (taken : Bool) : Nat :=
  if taken then (if p.isTaken then 0 else 1) else level p - 1

private theorem pays_fixed : Pays entry fixed (fun _ _ => True) 2 owed where
  keeps _ _ _ _ := trivial
  pays o p d _ := by
    cases o <;> cases p <;> cases d <;> decide

/-- An entry is at its counter or one above it. -/
def Near (p : PatternState) (c : Nat) : Prop := c ≤ level p ∧ level p ≤ c + 1

private theorem near_cases {p : PatternState} {c : Nat} (near : Near p c) :
    p = .stronglyNotTaken ∧ c = 0 ∨ p = .weaklyNotTaken ∧ c = 0 ∨ p = .weaklyNotTaken ∧ c = 1 ∨
      p = .weaklyTaken ∧ c = 1 ∨ p = .weaklyTaken ∧ c = 2 ∨ p = .stronglyTaken ∧ c = 2 ∨
      p = .stronglyTaken ∧ c = 3 := by
  unfold Near level at near
  cases p <;> simp at near ⊢ <;> omega

theorem Near.step {p : PatternState} {c : Nat} (near : Near p c) (o : Bool) :
    Near (p.updated o) (saturate 3 o c) := by
  rcases near_cases near with ⟨rfl, rfl⟩ | ⟨rfl, rfl⟩ | ⟨rfl, rfl⟩ | ⟨rfl, rfl⟩ | ⟨rfl, rfl⟩ |
    ⟨rfl, rfl⟩ | ⟨rfl, rfl⟩ <;> cases o <;> unfold Near <;> decide

def apart (p : PatternState) (c : Nat) : Nat := if p.isTaken = decide (2 ≤ c) then 0 else 1

private theorem pays_counter : Pays entry counter Near 2 apart where
  keeps o _ _ near := near.step o
  pays o p c near := by
    rcases near_cases near with ⟨rfl, rfl⟩ | ⟨rfl, rfl⟩ | ⟨rfl, rfl⟩ | ⟨rfl, rfl⟩ | ⟨rfl, rfl⟩ |
      ⟨rfl, rfl⟩ | ⟨rfl, rfl⟩ <;> cases o <;> decide

private theorem pays_entry : Pays counter entry (fun c p => Near p c) 2 (fun c p => apart p c) where
  keeps o _ _ near := near.step o
  pays o c p near := by
    rcases near_cases near with ⟨rfl, rfl⟩ | ⟨rfl, rfl⟩ | ⟨rfl, rfl⟩ | ⟨rfl, rfl⟩ | ⟨rfl, rfl⟩ |
      ⟨rfl, rfl⟩ | ⟨rfl, rfl⟩ <;> cases o <;> decide

end Rule

section Tables

universe u v

variable {σ : Type u} {K : Type v} [DecidableEq K] {next : PredictorIn → σ → σ}
  {trains : PredictorIn → σ → Option (K × Bool)} {table : σ → K → PatternState}

/-- The mistakes of a run against those of counters and of a fixed choice of directions. -/
structure Accurate (f : K → Bool) (s : Scored σ K) : Prop where
  directions : s.wrong ≤ (reachedTrue f s.trained).card + 2 * fixed.misses f s.trained
  counters : s.wrong ≤ 2 * counter.misses (fun _ => 1) s.trained
  saved : counter.misses (fun _ => 1) s.trained ≤ 2 * s.wrong

theorem accurate_run (trained : Trains next PredictorIn.rst trains table PatternState.updated
      .weaklyNotTaken) {s : σ} (fresh : ∀ k, table s k = .weaklyNotTaken) (f : K → Bool)
    (is : List PredictorIn) :
    Accurate f (run (Scored.step next PredictorIn.rst trains table entry) ⟨s, [], 0⟩ is) := by
  have acc : Accounts table entry .weaklyNotTaken
      (run (Scored.step next PredictorIn.rst trains table entry) ⟨s, [], 0⟩ is) :=
    accounts_run trained fresh is
  have together : Near .weaklyNotTaken 1 := ⟨le_rfl, Nat.le_succ 1⟩
  constructor
  · have nothing : owed .weaklyNotTaken false = 0 := rfl
    have bound := pays_fixed.misses_le_fixed nothing f
      (run (Scored.step next PredictorIn.rst trains table entry) ⟨s, [], 0⟩ is).trained
    rw [show owed .weaklyNotTaken true = 1 from rfl, Nat.mul_one] at bound
    rw [acc.wrong]
    exact bound
  · rw [acc.wrong]
    exact pays_counter.misses_le_mul together rfl _
  · rw [acc.wrong]
    exact pays_entry.misses_le_mul together rfl _

end Tables

/-- In every run from reset, whatever is fetched and resolved: the entries of the two predictors
are wrong at most twice as often as two-bit counters trained with the same outcomes, these at
most twice as often as the entries, and the entries at most twice as often as any fixed choice
of a direction for each entry, and once more for each entry that it calls taken. -/
theorem accuracy (reset : PredictorIn) (rst : reset.rst = true) (is : List PredictorIn)
    (g : GlobalBrPred) (l : LocalBrPred) (f : BitVec 10 → Bool) (f' : BitVec 12 → Bool) :
    Accurate f (run globalScored ⟨g.next reset, [], 0⟩ is) ∧
      Accurate f' (run localScored ⟨l.next reset, [], 0⟩ is) := by
  constructor
  · apply accurate_run trains_global
    intro k
    exact trains_global.restart reset g k rst
  · apply accurate_run trains_local
    intro k
    exact trains_local.restart reset l k rst

theorem accuracy_twice :
    let is := [resolving 0x40#32 false, resolving 0x40#32 true, resolving 0x41#32 false]
    let s := run globalScored ⟨poweredGlobal.next resetting, [], 0⟩ is
    s.wrong = 2 ∧ s.wrong ≤ 2 * counter.misses (fun _ => 1) s.trained ∧
      counter.misses (fun _ => 1) s.trained = 1 := by
  intro is s
  have bounds := accuracy resetting rfl is poweredGlobal poweredLocal (fun _ => false)
    (fun _ => false)
  exact ⟨by decide, bounds.1.counters, by decide⟩

section Period

variable {p : Nat} {pattern : Nat → Bool}

/-- A branch with these low address bits resolves to the next outcome of the pattern. -/
def GlobalPattern (low : BitVec 10) (pattern : Nat → Bool) (i : PredictorIn)
    (s : Scored GlobalBrPred (BitVec 10)) : Prop :=
  resolves i = true → i.pcMemStage.extractLsb' 0 10 = low ∧ i.taken = pattern s.trained.length

/-- Of the branches with a history register those of one register resolve, and to the next
outcome of the pattern. -/
def LocalPattern (register : BitVec 3) (pattern : Nat → Bool) (i : PredictorIn)
    (s : Scored LocalBrPred (BitVec 12)) : Prop :=
  resolves i = true → i.pcMemStage.extractLsb' 3 5 = 0#5 →
    i.pcMemStage.extractLsb' 0 3 = register ∧ i.taken = pattern s.trained.length

instance decidableGlobalPattern (low : BitVec 10) (pattern : Nat → Bool) (i : PredictorIn)
    (s : Scored GlobalBrPred (BitVec 10)) : Decidable (GlobalPattern low pattern i s) := by
  unfold GlobalPattern
  infer_instance

instance decidableLocalPattern (register : BitVec 3) (pattern : Nat → Bool) (i : PredictorIn)
    (s : Scored LocalBrPred (BitVec 12)) : Decidable (LocalPattern register pattern i s) := by
  unfold LocalPattern
  infer_instance

private theorem global_histories {i : PredictorIn} (running : i.rst = false) (g : GlobalBrPred) :
    (g.next i).ghrData =
      if resolves i then g.ghrData <<< 1 ||| (BitVec.ofBool i.taken).setWidth 10
      else g.ghrData := by
  rw [resolves_eq running]
  cases stall : i.stall <;> cases load : i.load <;>
    simp [GlobalBrPred.next, running, stall, load]

private theorem indexed_global (low : BitVec 10) (pattern : Nat → Bool) :
    Indexed GlobalBrPred.next PredictorIn.rst globalTrains (GlobalPattern low pattern)
      GlobalBrPred.ghrData (fun h => low ^^^ h) pattern where
  restart i g rst := by simp [GlobalBrPred.next, rst]
  train i s k o admitted running event := by
    cases stores : resolves i with
    | false => simp [globalTrains, stores] at event
    | true =>
      rw [globalTrains, stores] at event
      obtain ⟨rfl, rfl⟩ := Prod.mk.inj (Option.some.inj event)
      obtain ⟨address, outcome⟩ := admitted stores
      refine ⟨?_, outcome, ?_⟩
      · rw [GlobalBrPred.phtIndex, address]
      · rw [global_histories running, stores, if_pos rfl]
  keep i s admitted running event := by
    cases stores : resolves i with
    | true => simp [globalTrains, stores] at event
    | false => rw [global_histories running, stores, if_neg Bool.false_ne_true]

private theorem indexed_local (register : BitVec 3) (pattern : Nat → Bool) :
    Indexed LocalBrPred.next PredictorIn.rst localTrains (LocalPattern register pattern)
      (fun l => l.localHistRegisters register) id pattern where
  restart i l rst := by simp [LocalBrPred.next, rst]
  train i s k o admitted running event := by
    cases stores : resolves i with
    | false => simp [localTrains, stores] at event
    | true =>
      by_cases inside : i.pcMemStage.extractLsb' 3 5 = 0#5
      · obtain ⟨own, outcome⟩ := admitted stores inside
        have index : s.state.phtIndex i.pcMemStage =
            some (s.state.localHistRegisters register) := by
          rw [LocalBrPred.phtIndex, if_pos inside, own]
        rw [localTrains, stores, index] at event
        obtain ⟨rfl, rfl⟩ := Prod.mk.inj (Option.some.inj event)
        refine ⟨rfl, outcome, ?_⟩
        rw [local_histories running, stores, if_pos rfl, index]
        simp only [own, Function.update_self]
      · simp [localTrains, stores, LocalBrPred.phtIndex, inside] at event
  keep i s admitted running event := by
    rw [local_histories running]
    cases stores : resolves i with
    | false => rfl
    | true =>
      cases found : s.state.phtIndex i.pcMemStage with
      | none => rfl
      | some index => simp [localTrains, stores, found] at event

/-- The global predictor learns every pattern of one branch that repeats within its ten bits of
history, and the local one within its twelve: however long the run is, whatever is fetched in it
and however often it is stalled, the mistakes since reset are at most the bits of the history
and two for each outcome of the period. -/
theorem learns_pattern (reset : PredictorIn) (rst : reset.rst = true) (is : List PredictorIn)
    (g : GlobalBrPred) (l : LocalBrPred) (low : BitVec 10) (register : BitVec 3) (pos : 0 < p)
    (periodic : ∀ j, pattern (j + p) = pattern j) :
    (p ≤ 10 → Along globalScored (GlobalPattern low pattern) ⟨g.next reset, [], 0⟩ is →
        (run globalScored ⟨g.next reset, [], 0⟩ is).wrong ≤ 10 + 2 * p) ∧
      (p ≤ 12 → Along localScored (LocalPattern register pattern) ⟨l.next reset, [], 0⟩ is →
        (run localScored ⟨l.next reset, [], 0⟩ is).wrong ≤ 12 + 2 * p) := by
  constructor
  · intro short admitted
    have injective : Function.Injective fun h : BitVec 10 => low ^^^ h := by
      intro h h' same
      simpa using same
    have bound := learns trains_global (indexed_global low pattern) pays_fixed rfl injective pos
      short periodic (fun k => trains_global.restart reset g k rst)
      ((indexed_global low pattern).restart reset g rst) admitted
    rw [show owed .weaklyNotTaken true = 1 from rfl, Nat.mul_one] at bound
    exact bound
  · intro short admitted
    have bound := learns trains_local (indexed_local register pattern) pays_fixed rfl
      Function.injective_id pos short periodic (fun k => trains_local.restart reset l k rst)
      ((indexed_local register pattern).restart reset l rst) admitted
    rw [show owed .weaklyNotTaken true = 1 from rfl, Nat.mul_one] at bound
    exact bound

theorem learns_pattern_alternating :
    let pattern (j : Nat) : Bool := decide (j % 2 = 0)
    let is := (List.range 8).map fun j => resolving 0x100#32 (pattern j)
    (run localScored ⟨poweredLocal.next resetting, [], 0⟩ is).wrong ≤ 16 ∧
      (run globalScored ⟨poweredGlobal.next resetting, [], 0⟩ is).wrong ≤ 14 := by
  intro pattern is
  have periodic (j : Nat) : pattern (j + 2) = pattern j := by simp [pattern]
  have bounds := learns_pattern resetting rfl is poweredGlobal poweredLocal 0x100#10 0#3
    (show 0 < 2 by decide) periodic
  constructor
  · apply bounds.2 (by decide)
    decide
  · apply bounds.1 (by decide)
    decide

end Period

end Mp4.Cpu.PredictionAccuracy
