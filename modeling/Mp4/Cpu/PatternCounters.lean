import Mp4.Cpu.BranchPredictor
import Mp4.Lib.TrainedTable

/-!
The pattern entries of the three predictors against two-bit saturating counters. The entries of
`global_br_pred` and `local_br_pred` follow the counter until a taken branch is trained into a
strongly not-taken entry; those of `meta_pred` are not counted at all.
-/

set_option autoImplicit false
set_option relaxedAutoImplicit false

namespace Mp4.Cpu.PatternCounters

open Mp4.Cpu.BranchPredictor Mp4.Lib.Clocked Mp4.Lib.TrainedTable

def level : PatternState → Nat
  | .stronglyNotTaken => 0
  | .weaklyNotTaken => 1
  | .weaklyTaken => 2
  | .stronglyTaken => 3

/-- Taken and not taken swapped. -/
def mirror : PatternState → PatternState
  | .stronglyNotTaken => .stronglyTaken
  | .weaklyNotTaken => .weaklyTaken
  | .weaklyTaken => .weaklyNotTaken
  | .stronglyTaken => .stronglyNotTaken

def Strong (p : PatternState) : Prop := p = .stronglyTaken ∨ p = .stronglyNotTaken

def resolves (i : PredictorIn) : Bool := !i.rst && !i.stall && i.load

def globalTrains (i : PredictorIn) (g : GlobalBrPred) : Option (BitVec 10 × Bool) :=
  if resolves i then some (g.phtIndex i.pcMemStage, i.taken) else none

def localTrains (i : PredictorIn) (l : LocalBrPred) : Option (BitVec 12 × Bool) :=
  if resolves i then (l.phtIndex i.pcMemStage).map fun k => (k, i.taken) else none

def metaTrains (i : PredictorIn) (m : MetaPred) : Option (BitVec 10 × Bool) :=
  if resolves i then some (m.phtIndex i, i.taken) else none

abbrev globalStep := Logged.step GlobalBrPred.next PredictorIn.rst globalTrains
abbrev localStep := Logged.step LocalBrPred.next PredictorIn.rst localTrains
abbrev metaStep := Logged.step MetaPred.next PredictorIn.rst metaTrains

universe u v

/-- An entry is the two-bit counter, run from weakly not-taken over what was trained into it. -/
def Counts {σ : Type u} {K : Type v} (table : σ → K → PatternState) (k : K) (s : Logged σ K) :
    Prop :=
  level (table s.state k) = replay (saturate 3) 1 (s.log k)

section Rule

private theorem level_updated (o : Bool) (p : PatternState) :
    level (p.updated o) = saturate 3 o (level p) ↔ ¬(o = true ∧ p = .stronglyNotTaken) := by
  cases p <;> cases o <;> decide

theorem hysteresis_iff {p : PatternState} (strong : Strong p) :
    (p.updated (!p.isTaken)).isTaken = p.isTaken ↔ p ≠ .stronglyNotTaken := by
  rcases strong with rfl | rfl <;> decide

private theorem two_contrary {p : PatternState} (strong : Strong p) :
    ((p.updated (!p.isTaken)).updated (!p.isTaken)).isTaken ≠ p.isTaken := by
  rcases strong with rfl | rfl <;> decide

theorem symmetric_iff (o : Bool) (p : PatternState) :
    (mirror p).updated (!o) = mirror (p.updated o) ↔
      ¬(o = true ∧ p = .stronglyNotTaken ∨ o = false ∧ p = .stronglyTaken) := by
  cases p <;> cases o <;> decide

end Rule

section Tables

variable {i : PredictorIn}

private theorem resolves_of_rst (rst : i.rst = true) : resolves i = false := by
  simp [resolves, rst]

theorem rst_of_resolves (stores : resolves i = true) : i.rst = false := by
  cases rst : i.rst with
  | false => rfl
  | true =>
    rw [resolves_of_rst rst] at stores
    cases stores

theorem resolves_eq (running : i.rst = false) : resolves i = (!i.stall && i.load) := by
  simp [resolves, running]

theorem global_patterns (running : i.rst = false) (g : GlobalBrPred) :
    (g.next i).patternStates =
      if resolves i then
        Function.update g.patternStates (g.phtIndex i.pcMemStage)
          ((g.patternStates (g.phtIndex i.pcMemStage)).updated i.taken)
      else g.patternStates := by
  rw [resolves_eq running]
  cases stall : i.stall <;> cases load : i.load <;>
    simp [GlobalBrPred.next, running, stall, load]

private theorem local_patterns (running : i.rst = false) (l : LocalBrPred) :
    (l.next i).patternStates =
      if resolves i then
        match l.phtIndex i.pcMemStage with
        | some index =>
            Function.update l.patternStates index ((l.patternStates index).updated i.taken)
        | none => l.patternStates
      else l.patternStates := by
  rw [resolves_eq running]
  cases found : l.phtIndex i.pcMemStage <;> cases stall : i.stall <;> cases load : i.load <;>
    simp [LocalBrPred.next, running, stall, load, found]

theorem local_histories (running : i.rst = false) (l : LocalBrPred) :
    (l.next i).localHistRegisters =
      if resolves i then
        match l.phtIndex i.pcMemStage with
        | some history =>
            Function.update l.localHistRegisters (i.pcMemStage.extractLsb' 0 3)
              (history <<< 1 ||| (BitVec.ofBool i.taken).setWidth 12)
        | none => l.localHistRegisters
      else l.localHistRegisters := by
  rw [resolves_eq running]
  cases found : l.phtIndex i.pcMemStage <;> cases stall : i.stall <;> cases load : i.load <;>
    simp [LocalBrPred.next, running, stall, load, found]

theorem meta_patterns (running : i.rst = false) (m : MetaPred) :
    (m.next i).patternStates =
      if resolves i then Function.update m.patternStates (m.phtIndex i) m.updatedPstate
      else m.patternStates := by
  rw [resolves_eq running]
  cases stall : i.stall <;> cases load : i.load <;> simp [MetaPred.next, running, stall, load]

theorem trains_global : Trains GlobalBrPred.next PredictorIn.rst globalTrains
    GlobalBrPred.patternStates PatternState.updated .weaklyNotTaken where
  restart i g k rst := by simp [GlobalBrPred.next, rst]
  train i g k o running event := by
    rw [global_patterns running]
    cases stores : resolves i with
    | false => simp [globalTrains, stores] at event
    | true =>
      rw [globalTrains, stores] at event
      obtain ⟨rfl, rfl⟩ := Prod.mk.inj (Option.some.inj event)
      rfl
  keep i g running event := by
    rw [global_patterns running]
    cases stores : resolves i with
    | false => rfl
    | true => simp [globalTrains, stores] at event

theorem trains_local : Trains LocalBrPred.next PredictorIn.rst localTrains
    LocalBrPred.patternStates PatternState.updated .weaklyNotTaken where
  restart i l k rst := by simp [LocalBrPred.next, rst]
  train i l k o running event := by
    rw [local_patterns running]
    cases stores : resolves i with
    | false => simp [localTrains, stores] at event
    | true =>
      rw [localTrains, stores] at event
      cases found : l.phtIndex i.pcMemStage with
      | none => simp [found] at event
      | some index =>
        rw [found] at event
        obtain ⟨rfl, rfl⟩ := Prod.mk.inj (Option.some.inj event)
        rfl
  keep i l running event := by
    rw [local_patterns running]
    cases stores : resolves i with
    | false => rfl
    | true =>
      cases found : l.phtIndex i.pcMemStage with
      | none => rfl
      | some index => simp [localTrains, stores, found] at event

variable {σ : Type u} {K : Type v} [DecidableEq K] {next : PredictorIn → σ → σ}
  {trains : PredictorIn → σ → Option (K × Bool)} {table : σ → K → PatternState}

theorem counts_iff (trained : Trains next PredictorIn.rst trains table PatternState.updated
      .weaklyNotTaken)
    (quiet : ∀ i s, i.rst = true → trains i s = none) {k : K} {s : σ}
    (fresh : table s k = .weaklyNotTaken) (is : List PredictorIn) :
    Throughout (Logged.step next PredictorIn.rst trains) (Counts table k) ⟨s, fun _ => []⟩ is ↔
      Along (Logged.step next PredictorIn.rst trains)
        (fun i s => trains i s.state = some (k, true) →
          table s.state k ≠ .stronglyNotTaken) ⟨s, fun _ => []⟩ is := by
  have start : Agrees table level (saturate 3) .weaklyNotTaken k ⟨s, fun _ => []⟩ := by
    show level (table s k) = 1
    rw [fresh]
    rfl
  apply (trained.agrees_iff level (saturate 3) start is).trans
  apply along_congr
  intro i s
  constructor
  · intro agree event strong
    cases rst : i.rst with
    | true =>
      rw [quiet i s.state rst] at event
      cases event
    | false => exact (level_updated true _).mp (agree true rst event) ⟨rfl, strong⟩
  · intro met o _ event
    apply (level_updated o _).mpr
    rintro ⟨rfl, strong⟩
    exact met event strong

end Tables

section Chooser

variable {i : PredictorIn} {s : Logged MetaPred (BitVec 10)} {k : BitVec 10}

/-- Nothing was trained into the entry, and what would be stored is the first value of
`updated_pstate`. -/
structure Untrained (k : BitVec 10) (s : Logged MetaPred (BitVec 10)) : Prop where
  updated : s.state.updatedPstate = .stronglyTaken
  entry : s.state.patternStates k = .weaklyNotTaken
  log : s.log k = []

private theorem Untrained.counts (untrained : Untrained k s) :
    Counts MetaPred.patternStates k s := by
  rw [Counts, untrained.entry, untrained.log]
  rfl

private theorem untrained_step (untrained : Untrained k s)
    (other : ∀ o, metaTrains i s.state ≠ some (k, o)) : Untrained k (metaStep i s) := by
  cases rst : i.rst with
  | true =>
    refine ⟨untrained.updated, ?_, ?_⟩
    · show (s.state.next i).patternStates k = _
      simp [MetaPred.next, rst]
    · rw [log_restart rst]
  | false =>
    have entry : (metaStep i s).state.patternStates = _ := meta_patterns rst s.state
    cases stores : resolves i with
    | false =>
      have quiet : metaTrains i s.state = none := by simp [metaTrains, stores]
      rw [stores, if_neg Bool.false_ne_true] at entry
      refine ⟨untrained.updated, ?_, ?_⟩
      · rw [entry]
        exact untrained.entry
      · rw [log_none rst quiet]
        exact untrained.log
    | true =>
      have event : metaTrains i s.state = some (s.state.phtIndex i, i.taken) := if_pos stores
      have ne : k ≠ s.state.phtIndex i := by
        rintro rfl
        exact other i.taken event
      rw [stores, if_pos rfl] at entry
      refine ⟨untrained.updated, ?_, ?_⟩
      · rw [entry, Function.update_of_ne ne]
        exact untrained.entry
      · rw [log_some rst event, Function.update_of_ne ne]
        exact untrained.log

private theorem not_counts_trained (untrained : Untrained k s) {o : Bool}
    (event : metaTrains i s.state = some (k, o)) :
    ¬Counts MetaPred.patternStates k (metaStep i s) := by
  cases stores : resolves i with
  | false => simp [metaTrains, stores] at event
  | true =>
    have running := rst_of_resolves stores
    have entry : (metaStep i s).state.patternStates = _ := meta_patterns running s.state
    have index : s.state.phtIndex i = k := by
      rw [metaTrains, stores] at event
      exact congrArg Prod.fst (Option.some.inj event)
    rw [stores, if_pos rfl, index, untrained.updated] at entry
    rw [Counts, entry, log_some running event, Function.update_self, Function.update_self,
      untrained.log]
    cases o <;> decide

private theorem counts_meta_iff (untrained : Untrained k s) (is : List PredictorIn) :
    Throughout metaStep (Counts MetaPred.patternStates k) s is ↔
      Along metaStep (fun i s => ∀ o, metaTrains i s.state ≠ some (k, o)) s is := by
  have needs (i : PredictorIn) (s : Logged MetaPred (BitVec 10)) (untrained : Untrained k s)
      (counts : Counts MetaPred.patternStates k (metaStep i s)) :
      ∀ o, metaTrains i s.state ≠ some (k, o) := by
    intro o event
    exact not_counts_trained untrained event counts
  exact throughout_iff (fun _ => Untrained.counts) (fun _ _ => untrained_step) needs untrained is

end Chooser

/-- After reset, an entry of the first two predictors is the two-bit counter of what was trained
into it exactly if no taken branch is trained into it while it is strongly not-taken, and an
entry of the chooser exactly if nothing is trained into it. The hysteresis fails in that state
and the symmetry in it and its mirror image; two contrary outcomes always change the
direction. -/
theorem pattern_counters_iff (reset : PredictorIn) (rst : reset.rst = true)
    (is : List PredictorIn) (g : GlobalBrPred) (l : LocalBrPred) (m : MetaPred)
    (powered : m.updatedPstate = .stronglyTaken) (k : BitVec 10) (k' : BitVec 12)
    (p : PatternState) (o : Bool) :
    (Throughout globalStep (Counts GlobalBrPred.patternStates k) ⟨g.next reset, fun _ => []⟩ is ↔
      Along globalStep (fun i s => globalTrains i s.state = some (k, true) →
        s.state.patternStates k ≠ .stronglyNotTaken) ⟨g.next reset, fun _ => []⟩ is) ∧
    (Throughout localStep (Counts LocalBrPred.patternStates k') ⟨l.next reset, fun _ => []⟩ is ↔
      Along localStep (fun i s => localTrains i s.state = some (k', true) →
        s.state.patternStates k' ≠ .stronglyNotTaken) ⟨l.next reset, fun _ => []⟩ is) ∧
    (Throughout metaStep (Counts MetaPred.patternStates k) ⟨m.next reset, fun _ => []⟩ is ↔
      Along metaStep (fun i s => ∀ o, metaTrains i s.state ≠ some (k, o))
        ⟨m.next reset, fun _ => []⟩ is) ∧
    (Strong p → ((p.updated (!p.isTaken)).isTaken = p.isTaken ↔ p ≠ .stronglyNotTaken)) ∧
    (Strong p → ((p.updated (!p.isTaken)).updated (!p.isTaken)).isTaken ≠ p.isTaken) ∧
    ((mirror p).updated (!o) = mirror (p.updated o) ↔
      ¬(o = true ∧ p = .stronglyNotTaken ∨ o = false ∧ p = .stronglyTaken)) := by
  refine ⟨?_, ?_, ?_, hysteresis_iff, two_contrary, symmetric_iff o p⟩
  · apply counts_iff trains_global
    · intro i g rst
      rw [globalTrains, resolves_of_rst rst]
      rfl
    · exact trains_global.restart reset g k rst
  · apply counts_iff trains_local
    · intro i l rst
      rw [localTrains, resolves_of_rst rst]
      rfl
    · exact trains_local.restart reset l k' rst
  · apply counts_meta_iff
    refine ⟨powered, ?_, rfl⟩
    simp [MetaPred.next, rst]

def resolving (pc : Rv32iTypes.Rv32iWord) (taken : Bool) : PredictorIn where
  rst := false
  read := false
  load := true
  stall := false
  taken := taken
  pcIn := 0#32
  pcMemStage := pc

def resetting : PredictorIn := { resolving 0#32 false with rst := true }

def poweredGlobal : GlobalBrPred := ⟨0#10, fun _ => .stronglyTaken, false⟩

def poweredLocal : LocalBrPred := ⟨fun _ => 0#12, fun _ => .stronglyTaken, false⟩

def poweredMeta : MetaPred := ⟨fun _ => .stronglyTaken, 0#10, .stronglyTaken, false⟩

theorem pattern_counters_iff_warm :
    let is := [resolving 0x40#32 true, resolving 0x41#32 true, resolving 0x43#32 false]
    let start : Logged GlobalBrPred (BitVec 10) := ⟨poweredGlobal.next resetting, fun _ => []⟩
    Throughout globalStep (Counts GlobalBrPred.patternStates 0x40#10) start is ∧
      (run globalStep start is).state.patternStates 0x40#10 = .weaklyTaken ∧
      (run globalStep start is).log 0x40#10 = [true, true, false] := by
  intro is start
  refine ⟨?_, by decide, by decide⟩
  have exactly := pattern_counters_iff resetting rfl is poweredGlobal poweredLocal poweredMeta rfl
    0x40#10 0#12 .stronglyTaken true
  apply exactly.1.mpr
  refine ⟨?_, ?_, ?_, trivial⟩
  · decide
  · decide
  · decide

/-- After a not-taken and a taken branch at `0x40` the entry predicts taken, where the counter
is back at weakly not-taken. -/
theorem pattern_counters_skip :
    let is := [resolving 0x40#32 false, resolving 0x40#32 true]
    let start : Logged GlobalBrPred (BitVec 10) := ⟨poweredGlobal.next resetting, fun _ => []⟩
    let s := run globalStep start is
    s.log 0x40#10 = [false, true] ∧ replay (saturate 3) 1 (s.log 0x40#10) = 1 ∧
      s.state.patternStates 0x40#10 = .weaklyTaken ∧
      ¬Counts GlobalBrPred.patternStates 0x40#10 s ∧
      (PatternState.stronglyNotTaken.updated true).isTaken = true ∧
      mirror (PatternState.stronglyNotTaken.updated true) ≠
        (mirror .stronglyNotTaken).updated false := by
  intro is start s
  have log : s.log 0x40#10 = [false, true] := by decide
  have entry : s.state.patternStates 0x40#10 = .weaklyTaken := by decide
  refine ⟨log, ?_, entry, ?_, by decide, by decide⟩
  · rw [log]
    decide
  · rw [Counts, entry, log]
    decide

end Mp4.Cpu.PatternCounters
