import Mp4.Cpu.PatternCounters

/-!
The history registers of `local_br_pred`. The index has eight address bits and there are eight
registers, so that the branches of most addresses have none.
-/

set_option autoImplicit false
set_option relaxedAutoImplicit false

namespace Mp4.Cpu.LocalHistory

open Mp4.Cpu.Rv32iTypes Mp4.Cpu.BranchPredictor Mp4.Cpu.PatternCounters
open Mp4.Lib.Clocked Mp4.Lib.TrainedTable

def lowBits (pc : Rv32iWord) : BitVec 8 := pc.extractLsb' 0 8

/-- A resolved branch, whether it has a history register or not. -/
def branchResolves (i : PredictorIn) (_ : LocalBrPred) : Option (BitVec 8 × Bool) :=
  if resolves i then some (lowBits i.pcMemStage, i.taken) else none

abbrev historyStep := Logged.step LocalBrPred.next PredictorIn.rst branchResolves

/-- The register that an address leads to holds the last twelve outcomes of the branches with
the same low bits, and a lookup answers with the pattern entry that it selects. -/
def PerBranch (pc : Rv32iWord) (s : Logged LocalBrPred (BitVec 8)) : Prop :=
  ∃ history, s.state.phtIndex pc = some history ∧ Remembers history (s.log (lowBits pc)) ∧
    ∀ i : PredictorIn, i.read = true → i.pcIn = pc →
      s.state.flush i = (s.state.patternStates history).isTaken

def Remembered (s : Logged LocalBrPred (BitVec 8)) : Prop :=
  ∀ k : BitVec 3, Remembers (s.state.localHistRegisters k) (s.log (0#5 ++ k))

section Step

variable {i : PredictorIn} {s : Logged LocalBrPred (BitVec 8)}

private theorem lowBits_eq (pc : Rv32iWord) :
    lowBits pc = pc.extractLsb' 3 5 ++ (pc.extractLsb' 0 3 : BitVec 3) := by
  unfold lowBits
  ext j inside
  grind

private theorem append_inj {a a' : BitVec 5} {b b' : BitVec 3} (same : a ++ b = a' ++ b') :
    a = a' ∧ b = b' := by
  constructor
  · ext j inside
    have bit := congrArg (fun x : BitVec 8 => x.getLsbD (j + 3)) same
    grind
  · ext j inside
    have bit := congrArg (fun x : BitVec 8 => x.getLsbD j) same
    grind

private theorem remembered_start (l : LocalBrPred) {reset : PredictorIn} (rst : reset.rst = true) :
    Remembered ⟨l.next reset, fun _ => []⟩ := by
  intro k
  simp only [LocalBrPred.next, rst, if_true]
  exact remembers_nil 12

theorem remembered_step (i : PredictorIn) (s : Logged LocalBrPred (BitVec 8))
    (inv : Remembered s) : Remembered (historyStep i s) := by
  intro k
  cases rst : i.rst with
  | true =>
    rw [log_restart rst]
    exact remembered_start s.state rst k
  | false =>
    have registers : (historyStep i s).state.localHistRegisters = _ :=
      local_histories rst s.state
    cases stores : resolves i with
    | false =>
      have quiet : branchResolves i s.state = none := by simp [branchResolves, stores]
      rw [stores, if_neg Bool.false_ne_true] at registers
      rw [registers, log_none rst quiet]
      exact inv k
    | true =>
      have event : branchResolves i s.state = some (lowBits i.pcMemStage, i.taken) :=
        if_pos stores
      rw [stores, if_pos rfl, LocalBrPred.phtIndex] at registers
      rw [log_some rst event, lowBits_eq]
      by_cases inside : i.pcMemStage.extractLsb' 3 5 = 0#5
      · simp only [if_pos inside] at registers
        rw [registers, inside]
        by_cases own : k = i.pcMemStage.extractLsb' 0 3
        · rw [own, Function.update_self, Function.update_self]
          exact (inv _).shift i.taken
        · have apart : 0#5 ++ k ≠ 0#5 ++ (i.pcMemStage.extractLsb' 0 3 : BitVec 3) :=
            fun same => own (append_inj same).2
          rw [Function.update_of_ne own, Function.update_of_ne apart]
          exact inv k
      · -- the outcome is recorded for an address without a register, and the write is lost
        have apart : 0#5 ++ k ≠ i.pcMemStage.extractLsb' 3 5 ++
            (i.pcMemStage.extractLsb' 0 3 : BitVec 3) :=
          fun same => inside (append_inj same).1.symm
        rw [if_neg inside] at registers
        rw [registers, Function.update_of_ne apart]
        exact inv k

private theorem Remembered.perBranch (inv : Remembered s) {pc : Rv32iWord}
    (inside : pc.extractLsb' 3 5 = 0#5) : PerBranch pc s := by
  have index : s.state.phtIndex pc = some (s.state.localHistRegisters (pc.extractLsb' 0 3)) :=
    if_pos inside
  refine ⟨_, index, ?_, ?_⟩
  · rw [lowBits_eq, inside]
    exact inv _
  · rintro i read rfl
    rw [LocalBrPred.flush, if_pos read, index]

end Step

/-- In every run from reset a branch has its own history and is predicted from it exactly if
the address bits `7` to `3` are zero. -/
theorem local_history_iff (l : LocalBrPred) (reset : PredictorIn) (rst : reset.rst = true)
    (is : List PredictorIn) (pc : Rv32iWord) :
    Throughout historyStep (PerBranch pc) ⟨l.next reset, fun _ => []⟩ is ↔
      pc.extractLsb' 3 5 = 0#5 := by
  constructor
  · intro all
    obtain ⟨history, index, -⟩ := throughout_start all
    by_contra outside
    rw [LocalBrPred.phtIndex, if_neg outside] at index
    cases index
  · intro inside
    have shows (s : Logged LocalBrPred (BitVec 8)) (inv : Remembered s) : PerBranch pc s :=
      inv.perBranch inside
    exact throughout_invariant remembered_step shows (remembered_start l rst) is

theorem local_history_iff_shared :
    let is := [resolving 0x104#32 true, resolving 0x164#32 true, resolving 0x204#32 false]
    let start : Logged LocalBrPred (BitVec 8) := ⟨poweredLocal.next resetting, fun _ => []⟩
    Throughout historyStep (PerBranch 0x104#32) start is ∧
      (run historyStep start is).state.phtIndex 0x104#32 = some 0b10#12 := by
  intro is start
  refine ⟨?_, by decide⟩
  exact (local_history_iff poweredLocal resetting rfl is 0x104#32).mpr (by decide)

/-- The branch at the first address after reset has no history register; what it resolves to is
lost. -/
theorem local_history_none :
    let start : Logged LocalBrPred (BitVec 8) := ⟨poweredLocal.next resetting, fun _ => []⟩
    let s := historyStep (resolving 0x60#32 true) start
    s.log (lowBits 0x60#32) = [true] ∧ s.state.phtIndex 0x60#32 = none ∧
      s.state.localHistRegisters = start.state.localHistRegisters ∧ ¬PerBranch 0x60#32 s := by
  intro start s
  have index : s.state.phtIndex 0x60#32 = none := by decide
  refine ⟨by decide, index, ?_, ?_⟩
  · funext k
    revert k
    decide
  · rintro ⟨history, found, -⟩
    rw [index] at found
    cases found

end Mp4.Cpu.LocalHistory
