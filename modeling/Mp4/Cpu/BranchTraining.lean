import Mp4.Cpu.FetchAgreement
import Mp4.Cpu.PatternCounters

/-!
The training of `global_br_pred` against the branches that leave EX/MEM. The training waits for
`pc_stall`, the branch for the stall of EX/MEM; the two differ for a load-use hazard.
-/

set_option autoImplicit false
set_option relaxedAutoImplicit false

namespace Mp4.Cpu.BranchTraining

open Mp4.Cpu.Rv32iTypes Mp4.Cpu.PipelineRegs Mp4.Cpu.InstrDecode Mp4.Cpu.Pipeline
open Mp4.Cpu.BranchPredictor Mp4.Cpu.FetchAgreement
open Mp4.Cpu.PatternCounters (resolves resolves_eq global_patterns)
open Mp4.Lib.Clocked

abbrev Outcome := Rv32iWord × Bool

structure Tables where
  ghrData : BitVec 10
  patternStates : BitVec 10 → PatternState

def Tables.train (t : Tables) (b : Outcome) : Tables :=
  let index := b.1.extractLsb' 0 10 ^^^ t.ghrData
  { ghrData := t.ghrData <<< 1 ||| (BitVec.ofBool b.2).setWidth 10
    patternStates :=
      Function.update t.patternStates index ((t.patternStates index).updated b.2) }

def Tables.fresh : Tables := ⟨0#10, fun _ => .weaklyNotTaken⟩

def tables (g : GlobalBrPred) : Tables := ⟨g.ghrData, g.patternStates⟩

/-- The training inputs as they are wired: `update_hist_table` is one while a conditional branch
is in EX/MEM, and the outcome is `update_br_pred_taken` of the checker. -/
def wired (y : FetchIn) (s : Fetching) : FetchIn :=
  { y with
    load := s.core.exMem.opcode == opBr
    brTaken := s.core.checker.updateBrPredTaken
    pcMemStage := s.core.exMem.regPc }

def outcome (s : Fetching) : Outcome := (s.core.exMem.regPc, s.core.exMem.cmpVal)

def leaves (y : FetchIn) (s : Fetching) : Bool :=
  !y.rst && !(s.hazards y).stallMemWb && s.core.exMem.opcode == opBr

/-- The branches that have left EX/MEM since reset, and the outcomes that were trained. -/
structure Training where
  fetching : Fetching
  departed : List Outcome
  trained : List Outcome

namespace Training

variable (y : FetchIn) (t : Training)

def predictorIn : PredictorIn := t.fetching.predictorIn (wired y t.fetching)

def step (y : FetchIn) (t : Training) : Training where
  fetching := t.fetching.step (wired y t.fetching)
  departed :=
    if y.rst then []
    else if leaves y t.fetching then t.departed ++ [outcome t.fetching]
    else t.departed
  trained :=
    if y.rst then []
    else if resolves (t.predictorIn y) then
      t.trained ++ [((t.predictorIn y).pcMemStage, (t.predictorIn y).taken)]
    else t.trained

end Training

/-- Each branch that has left was trained once, in the order of leaving, and the tables are
those of a fresh predictor after these trainings. -/
structure TrainedOnce (t : Training) : Prop where
  trained : t.trained = t.departed
  tables : tables t.fetching.predictor.globalPred = t.departed.foldl Tables.train .fresh

/-- A branch leaves EX/MEM while the instructions behind it wait for a load. -/
def Loses (y : FetchIn) (t : Training) : Prop :=
  y.rst = false ∧ y.iCacheMiss = false ∧ y.dCacheMiss = false ∧
    t.fetching.core.exMem.opcode = opBr ∧ t.fetching.core.loadUse = true

instance decidableLoses (y : FetchIn) (t : Training) : Decidable (Loses y t) := by
  unfold Loses
  infer_instance

section Step

variable {y : FetchIn} {t : Training}

private theorem tables_next (i : PredictorIn) (g : GlobalBrPred) :
    tables (g.next i) =
      if i.rst then .fresh
      else if resolves i then (tables g).train (i.pcMemStage, i.taken)
      else tables g := by
  cases rst : i.rst with
  | true => simp [tables, GlobalBrPred.next, rst, Tables.fresh]
  | false =>
    have history : (g.next i).ghrData =
        if resolves i then g.ghrData <<< 1 ||| (BitVec.ofBool i.taken).setWidth 10
        else g.ghrData := by
      rw [resolves_eq rst]
      cases stall : i.stall <;> cases load : i.load <;> simp [GlobalBrPred.next, rst, stall, load]
    rw [tables, global_patterns rst, history]
    cases resolves i <;> rfl

private theorem updateBrPredTaken_eq (c : Core) (branch : c.exMem.opcode = opBr) :
    c.checker.updateBrPredTaken = c.exMem.cmpVal := by
  have other : ¬(opBr = opJal ∨ opBr = opJalr) := by decide
  rw [Core.checker, MemStage.staticNtPredictor, branch, if_neg other, if_pos rfl]
  cases c.exMem.cmpVal <;> cases c.exMem.brPredTaken <;> rfl

private theorem resolves_iff (running : y.rst = false) :
    resolves (t.predictorIn y) = true ↔
      y.iCacheMiss = false ∧ y.dCacheMiss = false ∧ t.fetching.core.exMem.opcode = opBr ∧
        t.fetching.core.loadUse = false := by
  have stall : (t.predictorIn y).stall =
      (y.iCacheMiss || y.dCacheMiss || t.fetching.core.loadUse) :=
    pcStall_eq (t.fetching.coreIn y) t.fetching.core
  have load : (t.predictorIn y).load = (t.fetching.core.exMem.opcode == opBr) := rfl
  have rst : (t.predictorIn y).rst = false := running
  rw [resolves_eq rst, stall, load]
  simp only [Bool.and_eq_true, Bool.not_eq_true', Bool.or_eq_false_iff, beq_iff_eq]
  tauto

private theorem leaves_iff (running : y.rst = false) :
    leaves y t.fetching = true ↔
      y.iCacheMiss = false ∧ y.dCacheMiss = false ∧ t.fetching.core.exMem.opcode = opBr := by
  have stall : (t.fetching.hazards y).stallMemWb = (y.iCacheMiss || y.dCacheMiss) :=
    stallMemWb_eq (t.fetching.coreIn y) t.fetching.core
  rw [leaves, stall, running]
  simp only [Bool.and_eq_true, Bool.not_eq_true', Bool.or_eq_false_iff, beq_iff_eq, Bool.not_false,
    true_and]
  tauto

private theorem trained_outcome (branch : t.fetching.core.exMem.opcode = opBr) :
    ((t.predictorIn y).pcMemStage, (t.predictorIn y).taken) = outcome t.fetching := by
  have taken : (t.predictorIn y).taken = t.fetching.core.exMem.cmpVal :=
    updateBrPredTaken_eq t.fetching.core branch
  rw [taken]
  rfl

private theorem trainedOnce_reset (rst : y.rst = true) (t : Training) : TrainedOnce (t.step y) := by
  constructor
  · simp [Training.step, rst]
  · have next := tables_next (t.predictorIn y) t.fetching.predictor.globalPred
    have rst' : (t.predictorIn y).rst = true := rst
    rw [rst', if_pos rfl] at next
    simp only [Training.step, rst, if_true, List.foldl_nil]
    exact next

private theorem trainedOnce_step (inv : TrainedOnce t) (kept : ¬Loses y t) :
    TrainedOnce (t.step y) := by
  cases rst : y.rst with
  | true => exact trainedOnce_reset rst t
  | false =>
    have next : tables (t.step y).fetching.predictor.globalPred = _ :=
      tables_next (t.predictorIn y) t.fetching.predictor.globalPred
    have rst' : (t.predictorIn y).rst = false := rst
    rw [rst', if_neg Bool.false_ne_true] at next
    cases gone : leaves y t.fetching with
    | true =>
      obtain ⟨iHit, dHit, branch⟩ := (leaves_iff rst).mp gone
      have free : t.fetching.core.loadUse = false := by
        by_contra waits
        exact kept ⟨rst, iHit, dHit, branch, (Bool.not_eq_false _).mp waits⟩
      have stores := (resolves_iff rst).mpr ⟨iHit, dHit, branch, free⟩
      have departed : (t.step y).departed = t.departed ++ [outcome t.fetching] := by
        simp [Training.step, rst, gone]
      have trained : (t.step y).trained = t.trained ++ [outcome t.fetching] := by
        simp [Training.step, rst, stores, trained_outcome branch]
      constructor
      · rw [trained, departed, inv.trained]
      · rw [next, departed, List.foldl_append, if_pos stores, trained_outcome branch, inv.tables]
        rfl
    | false =>
      have stores : resolves (t.predictorIn y) = false := by
        by_contra stores
        obtain ⟨iHit, dHit, branch, -⟩ := (resolves_iff rst).mp ((Bool.not_eq_false _).mp stores)
        have leaving := (leaves_iff rst).mpr ⟨iHit, dHit, branch⟩
        rw [gone] at leaving
        cases leaving
      constructor
      · simp [Training.step, rst, gone, stores, inv.trained]
      · rw [next, stores, if_neg Bool.false_ne_true, inv.tables]
        simp [Training.step, rst, gone]

private theorem not_loses (inv : TrainedOnce t) (after : TrainedOnce (t.step y)) : ¬Loses y t := by
  rintro ⟨rst, iHit, dHit, branch, waits⟩
  have gone := (leaves_iff (t := t) rst).mpr ⟨iHit, dHit, branch⟩
  have stores : ¬resolves (t.predictorIn y) = true := by
    intro stores
    have free := ((resolves_iff rst).mp stores).2.2.2
    rw [waits] at free
    cases free
  have same := congrArg List.length after.trained
  simp only [Training.step, rst, gone, stores, Bool.false_eq_true, if_false, if_true,
    List.length_append, List.length_singleton, inv.trained] at same
  omega

end Step

/-- From a cycle of reset on, for every fetched word and every pattern of misses, each branch
that leaves EX/MEM trains `global_br_pred` once and in order, in every state, exactly if no
branch leaves it while a load in ID/EX holds the program counter. -/
theorem trained_once_iff (t : Training) (reset : FetchIn) (rst : reset.rst = true)
    (cycles : List FetchIn) :
    Throughout Training.step TrainedOnce (t.step reset) cycles ↔
      Along Training.step (fun y t => ¬Loses y t) (t.step reset) cycles := by
  have start := trainedOnce_reset rst t
  have keep (y : FetchIn) (t : Training) (inv : TrainedOnce t) (kept : ¬Loses y t) :
      TrainedOnce (t.step y) := trainedOnce_step inv kept
  have needs (y : FetchIn) (t : Training) (inv : TrainedOnce t) (after : TrainedOnce (t.step y)) :
      ¬Loses y t := not_loses inv after
  exact throughout_iff (fun _ inv => inv) keep needs (s := t.step reset) start cycles

def poweredUpTraining : Training := ⟨poweredUpFetching, [], []⟩

theorem trained_once_iff_wait :
    let cycles := [fetching 0x00101463#32, fetching nopWord, fetching nopWord,
      { fetching nopWord with dCacheMiss := true }, fetching nopWord]
    let start := poweredUpTraining.step resetIn
    Throughout Training.step TrainedOnce start cycles ∧
      (run Training.step start cycles).trained = [(0x60#32, false)] := by
  intro cycles start
  refine ⟨?_, by decide⟩
  exact (trained_once_iff poweredUpTraining resetIn rfl cycles).mpr (by decide)

/-- `bne x0, x1, +8`, not taken, with `lw x1, 0(x0)` and `add x2, x1, x1` behind it: the branch
leaves EX/MEM untrained. -/
theorem trained_once_lost :
    let cycles := [fetching 0x00101463#32, fetching 0x00002083#32, fetching 0x00108133#32,
      fetching nopWord]
    let start := poweredUpTraining.step resetIn
    let t := run Training.step start cycles
    t.departed.map Prod.fst = [0x60#32] ∧ t.trained = [] ∧
      ¬Throughout Training.step TrainedOnce start cycles := by
  intro cycles start t
  have departed : t.departed.map Prod.fst = [0x60#32] := by decide
  have trained : t.trained = [] := by decide
  refine ⟨departed, trained, fun all => ?_⟩
  have same := (throughout_run all).trained
  rw [show run Training.step start cycles = t from rfl, trained] at same
  rw [← same] at departed
  cases departed

end Mp4.Cpu.BranchTraining
