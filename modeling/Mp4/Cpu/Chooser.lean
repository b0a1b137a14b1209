import Mp4.Cpu.PatternCounters

/-!
The chooser `meta_pred` when a branch resolves. What it writes is the first value of
`updated_pstate`, and where it writes is the index of the last lookup, so that neither the
entry of the branch nor the two component predictors have a part in it.
-/

set_option autoImplicit false
set_option relaxedAutoImplicit false

namespace Mp4.Cpu.Chooser

open Mp4.Cpu.Rv32iTypes Mp4.Cpu.BranchPredictor Mp4.Cpu.PatternCounters Mp4.Lib.Clocked

def entryOf (pc : Rv32iWord) : BitVec 10 := pc.extractLsb' 0 10

/-- A table of `meta_pred` that is reached from power-up, where `updated_pstate` is the first
value of its type, through a reset. -/
def Reachable (m : MetaPred) : Prop :=
  ∃ (powered : MetaPred) (reset : PredictorIn) (is : List PredictorIn),
    powered.updatedPstate = .stronglyTaken ∧ reset.rst = true ∧
      m = run MetaPred.next (powered.next reset) is

structure Coarse (m : MetaPred) : Prop where
  updated : m.updatedPstate = .stronglyTaken
  entries : ∀ k, m.patternStates k = .weaklyNotTaken ∨ m.patternStates k = .stronglyTaken

section Reach

variable {i : PredictorIn} {m : MetaPred}

private theorem coarse_reset (powered : m.updatedPstate = .stronglyTaken) (rst : i.rst = true) :
    Coarse (m.next i) := by
  refine ⟨powered, fun k => Or.inl ?_⟩
  simp [MetaPred.next, rst]

private theorem next_stores (coarse : Coarse m) (stores : resolves i = true) :
    (m.next i).patternStates = Function.update m.patternStates (m.phtIndex i) .stronglyTaken := by
  rw [meta_patterns (rst_of_resolves stores), stores, if_pos rfl, coarse.updated]

private theorem coarse_next (i : PredictorIn) (m : MetaPred) (coarse : Coarse m) :
    Coarse (m.next i) := by
  cases rst : i.rst with
  | true => exact coarse_reset coarse.updated rst
  | false =>
    refine ⟨coarse.updated, fun k => ?_⟩
    cases stores : resolves i with
    | true =>
      rw [next_stores coarse stores]
      by_cases own : k = m.phtIndex i
      · rw [own, Function.update_self]
        exact Or.inr rfl
      · rw [Function.update_of_ne own]
        exact coarse.entries k
    | false =>
      rw [meta_patterns rst, stores, if_neg Bool.false_ne_true]
      exact coarse.entries k

private theorem Reachable.coarse (reachable : Reachable m) : Coarse m := by
  obtain ⟨powered, reset, is, first, rst, rfl⟩ := reachable
  have start := coarse_reset first rst
  have keep (i : PredictorIn) (m : MetaPred) (coarse : Coarse m) (_ : True) :
      Coarse (m.next i) := coarse_next i m coarse
  exact run_invariant keep start (along_of_forall (fun _ _ => trivial) _ is)

end Reach

def resolution (pcMemStage : Rv32iWord) (taken read : Bool) (pcIn : Rv32iWord) : PredictorIn where
  rst := false
  read := read
  load := true
  stall := false
  taken := taken
  pcIn := pcIn
  pcMemStage := pcMemStage

section Independence

variable {m : MetaPred} {own index : BitVec 10} {taken : Bool}

private theorem updated_coarse {p : PatternState}
    (coarse : p = .weaklyNotTaken ∨ p = .stronglyTaken)
    (taken : Bool) (fixed : p.updated taken = .stronglyTaken ∨ p.updated taken = p) :
    taken = true ∧ p = .stronglyTaken := by
  rcases coarse with rfl | rfl <;> cases taken <;> revert fixed <;> decide

theorem update_eq_iff (coarse : Coarse m) :
    Function.update m.patternStates index .stronglyTaken =
        Function.update m.patternStates own ((m.patternStates own).updated taken) ↔
      taken = true ∧ m.patternStates own = .stronglyTaken ∧
        m.patternStates index = .stronglyTaken := by
  constructor
  · intro same
    have atOwn := congrFun same own
    have atIndex := congrFun same index
    rw [Function.update_self] at atOwn atIndex
    by_cases here : index = own
    · subst here
      rw [Function.update_self] at atOwn
      obtain ⟨outcome, entry⟩ := updated_coarse (coarse.entries index) taken (Or.inl atOwn.symm)
      exact ⟨outcome, entry, entry⟩
    · rw [Function.update_of_ne (Ne.symm here)] at atOwn
      rw [Function.update_of_ne here] at atIndex
      obtain ⟨outcome, entry⟩ := updated_coarse (coarse.entries own) taken (Or.inr atOwn.symm)
      exact ⟨outcome, entry, atIndex.symm⟩
  · rintro ⟨rfl, atOwn, atIndex⟩
    have step : (m.patternStates own).updated true = m.patternStates own := by
      rw [atOwn]
      rfl
    rw [step, ← atIndex, Function.update_eq_self, Function.update_eq_self]

end Independence

/-- When a branch resolves, the table is the same for two lookups and is the step of the
branch's own entry exactly if the outcome is taken and that entry and the two written ones are
strongly taken already. -/
theorem chooser_update_iff (m : MetaPred) (reachable : Reachable m) (pcMemStage : Rv32iWord)
    (taken read read' : Bool) (pcIn pcIn' : Rv32iWord) :
    let i := resolution pcMemStage taken read pcIn
    let i' := resolution pcMemStage taken read' pcIn'
    let own := entryOf pcMemStage
    ((m.next i).patternStates = (m.next i').patternStates ∧
        (m.next i).patternStates =
          Function.update m.patternStates own ((m.patternStates own).updated taken)) ↔
      (taken = true ∧ m.patternStates own = .stronglyTaken ∧
        m.patternStates (m.phtIndex i) = .stronglyTaken ∧
        m.patternStates (m.phtIndex i') = .stronglyTaken) := by
  intro i i' own
  have coarse := reachable.coarse
  rw [next_stores (i := i) coarse rfl, next_stores (i := i') coarse rfl]
  constructor
  · rintro ⟨same, step⟩
    obtain ⟨outcome, entry, written⟩ := (update_eq_iff coarse).mp step
    obtain ⟨-, -, written'⟩ := (update_eq_iff coarse).mp (same.symm.trans step)
    exact ⟨outcome, entry, written, written'⟩
  · rintro ⟨outcome, entry, written, written'⟩
    have step := (update_eq_iff coarse).mpr ⟨outcome, entry, written⟩
    have step' := (update_eq_iff coarse).mpr ⟨outcome, entry, written'⟩
    exact ⟨step.trans step'.symm, step⟩

private theorem reachable_reset (is : List PredictorIn) :
    Reachable (run MetaPred.next (poweredMeta.next resetting) is) :=
  ⟨poweredMeta, resetting, is, rfl, rfl, rfl⟩

theorem chooser_update_iff_saturated :
    let m := run MetaPred.next (poweredMeta.next resetting) [resolution 0x40#32 true true 0x40#32]
    (m.next (resolution 0x40#32 true true 0x40#32)).patternStates =
      (m.next (resolution 0x40#32 true false 0#32)).patternStates := by
  intro m
  have condition := (chooser_update_iff m (reachable_reset _) 0x40#32 true true false 0x40#32
    0#32).mpr (by decide)
  exact condition.1

theorem chooser_update_redirected :
    let m := poweredMeta.next resetting
    let i := resolution 0x40#32 false true 0x80#32
    let i' := resolution 0x40#32 false false 0#32
    Reachable m ∧ (m.next i).patternStates (entryOf 0x80#32) = .stronglyTaken ∧
      (m.next i).patternStates ≠ (m.next i').patternStates ∧
      (m.next i).patternStates (entryOf 0x40#32) = m.patternStates (entryOf 0x40#32) ∧
      (m.patternStates (entryOf 0x40#32)).updated false ≠ m.patternStates (entryOf 0x40#32) := by
  intro m i i'
  refine ⟨reachable_reset [], by decide, ?_, by decide, by decide⟩
  intro same
  have entry := congrFun same (entryOf 0x80#32)
  revert entry
  decide

def globalGives (i : PredictorIn) (p : BrPredBlkbox) : Bool :=
  (p.globalPred.patternStates (p.globalPred.phtIndex i.pcMemStage)).isTaken == i.taken

/-- The outcome is what the local tables predict; without a history they predict nothing. -/
def localGives (i : PredictorIn) (p : BrPredBlkbox) : Bool :=
  match p.localPred.phtIndex i.pcMemStage with
  | some history => (p.localPred.patternStates history).isTaken == i.taken
  | none => false

/-- An entry moves toward the local predictor, which is the side of taken, or the global one, or
is saturated there. -/
def MovesToward (isLocal : Bool) (before after : PatternState) : Prop :=
  if isLocal then level before < level after ∨ before = .stronglyTaken ∧ after = .stronglyTaken
  else level after < level before ∨ before = .stronglyNotTaken ∧ after = .stronglyNotTaken

/-- Where exactly one component gives the outcome, the entry of the branch moves toward it. -/
def FollowsBetter (i : PredictorIn) (p : BrPredBlkbox) : Prop :=
  resolves i = true → globalGives i p ≠ localGives i p →
    MovesToward (localGives i p) (p.metaPred.patternStates (entryOf i.pcMemStage))
      ((p.next i).metaPred.patternStates (entryOf i.pcMemStage))

/-- Where exactly one component gives the outcome, it is the local one, and the entry of the
branch is the one that is written or is strongly taken already. -/
def LocalBetter (i : PredictorIn) (p : BrPredBlkbox) : Prop :=
  resolves i = true → globalGives i p ≠ localGives i p →
    localGives i p = true ∧ (p.metaPred.phtIndex i = entryOf i.pcMemStage ∨
      p.metaPred.patternStates (entryOf i.pcMemStage) = .stronglyTaken)

instance decidableLocalBetter (i : PredictorIn) (p : BrPredBlkbox) :
    Decidable (LocalBetter i p) := by
  unfold LocalBetter
  infer_instance

private theorem followsBetter_iff (i : PredictorIn) (p : BrPredBlkbox)
    (coarse : Coarse p.metaPred) :
    FollowsBetter i p ↔ LocalBetter i p := by
  unfold FollowsBetter LocalBetter
  refine forall_congr' fun stores => forall_congr' fun _ => ?_
  have after : (p.next i).metaPred.patternStates =
      Function.update p.metaPred.patternStates (p.metaPred.phtIndex i) .stronglyTaken :=
    next_stores coarse stores
  rw [after]
  have entry := coarse.entries (entryOf i.pcMemStage)
  by_cases own : p.metaPred.phtIndex i = entryOf i.pcMemStage
  · rw [own, Function.update_self]
    cases localGives i p <;> rcases entry with entry | entry <;> simp [MovesToward, entry, level]
  · rw [Function.update_of_ne (Ne.symm own)]
    cases localGives i p <;> rcases entry with entry | entry <;>
      simp [MovesToward, entry, own]

/-- In every run from reset the chooser follows the better predictor at each resolution exactly
if at each resolution at which one is better that is the local one, and the entry of the branch
is the one that is written or is strongly taken already. -/
theorem chooser_follows_iff (p : BrPredBlkbox) (powered : p.metaPred.updatedPstate = .stronglyTaken)
    (reset : PredictorIn) (rst : reset.rst = true) (is : List PredictorIn) :
    Along BrPredBlkbox.next FollowsBetter (p.next reset) is ↔
      Along BrPredBlkbox.next LocalBetter (p.next reset) is := by
  have keep (i : PredictorIn) (p : BrPredBlkbox) (coarse : Coarse p.metaPred) :
      Coarse (p.next i).metaPred := coarse_next i p.metaPred coarse
  have start : Coarse (p.next reset).metaPred := coarse_reset powered rst
  exact along_iff keep followsBetter_iff start is

def poweredBlkbox : BrPredBlkbox := ⟨poweredGlobal, poweredLocal, poweredMeta⟩

theorem chooser_follows_iff_local :
    let is := [resolution 0x100#32 true true 0x104#32, resolution 0x104#32 true true 0x104#32]
    Along BrPredBlkbox.next FollowsBetter (poweredBlkbox.next resetting) is := by
  intro is
  exact (chooser_follows_iff poweredBlkbox rfl resetting rfl is).mpr (by decide)

/-- Where a branch at `0x104` is not taken, the global predictor alone is right, and
the chooser turns to the local one. -/
theorem chooser_follows_wrong :
    let is := [resolution 0x100#32 true true 0x200#32]
    let i := resolution 0x104#32 false true 0x104#32
    let p := run BrPredBlkbox.next (poweredBlkbox.next resetting) is
    globalGives i p = true ∧ localGives i p = false ∧
      p.metaPred.patternStates (entryOf 0x104#32) = .weaklyNotTaken ∧
      (p.next i).metaPred.patternStates (entryOf 0x104#32) = .stronglyTaken ∧
      ¬FollowsBetter i p := by
  intro is i p
  have global : globalGives i p = true := by decide
  have local' : localGives i p = false := by decide
  have before : p.metaPred.patternStates (entryOf 0x104#32) = .weaklyNotTaken := by decide
  have after : (p.next i).metaPred.patternStates (entryOf 0x104#32) = .stronglyTaken := by decide
  refine ⟨global, local', before, after, ?_⟩
  intro follows
  have moves : MovesToward (localGives i p) (p.metaPred.patternStates (entryOf 0x104#32))
      ((p.next i).metaPred.patternStates (entryOf 0x104#32)) :=
    follows rfl (by rw [global, local']; decide)
  rw [local', before, after] at moves
  revert moves
  simp [MovesToward, level]

end Mp4.Cpu.Chooser
