import Mp4.Cpu.BranchPredictor
import Mp4.Cpu.ControlFlow
import Mp4.Cpu.DecodeHistory

/-!
`instr_fetch` with its branch predictor in front of the pipeline: the direction in which the
program counter moves against the prediction bit that IF/ID records, for arbitrary fetched
words. A word without a control word of its own may show that of a jump, so that the next-PC
select of EX/MEM has to be followed through the pipeline.
-/

set_option autoImplicit false
set_option relaxedAutoImplicit false

namespace Mp4.Cpu.FetchAgreement

open Mp4.Cpu.Rv32iTypes Mp4.Cpu.PipelineRegs Mp4.Cpu.InstrDecode
open Mp4.Cpu.InstrFetch Mp4.Cpu.Pipeline Mp4.Cpu.BranchPredictor Mp4.Cpu.ControlFlow
open Mp4.Cpu.DecodeHistory Mp4.Lib.Clocked

/-- The pipeline with its fetch stage. -/
structure Fetching where
  pc : Rv32iWord
  heldPredPc : Rv32iWord
  predictor : BrPredBlkbox
  core : Core

structure FetchIn where
  rst : Bool
  iCacheMiss : Bool
  dCacheMiss : Bool
  iCacheRdata : Rv32iWord
  dCacheRdata : Rv32iWord
  load : Bool
  brTaken : Bool
  pcMemStage : Rv32iWord

namespace Fetching

variable (y : FetchIn) (s : Fetching)

def hazards : Stall := s.core.hazards y.iCacheMiss y.dCacheMiss

def predictorIn : PredictorIn where
  rst := y.rst
  read := opcodeOf y.iCacheRdata == 0x63#7
  load := y.load
  stall := (s.hazards y).pcStall
  taken := y.brTaken
  pcIn := s.pc
  pcMemStage := y.pcMemStage

def brPredTaken : Bool := s.predictor.flush (s.predictorIn y)

def brPredPc : Rv32iWord := brPredPcOut s.heldPredPc s.pc y.iCacheRdata (s.brPredTaken y)

def fetched : IfId := ⟨s.pc, y.iCacheRdata, s.brPredTaken y, s.brPredPc y⟩

def coreIn : CoreIn where
  rst := y.rst
  flush := s.core.checker.flush
  iCacheMiss := y.iCacheMiss
  dCacheMiss := y.dCacheMiss
  fetched := s.fetched y
  dCacheRdata := y.dCacheRdata

def pcSel : Rv32iWord :=
  pcSelOut (s.brPredTaken y) s.core.checker.flush s.core.checker.mispredicted
    s.core.exMem.cntrlWord.pcmuxSel s.pc s.core.exMem.aluVal (s.brPredPc y) s.core.exMem.regPc

def step (y : FetchIn) (s : Fetching) : Fetching where
  pc := pcRegister y.rst (!(s.hazards y).pcStall) (s.pcSel y) s.pc
  heldPredPc := s.brPredPc y
  predictor := s.predictor.next (s.predictorIn y)
  core := s.core.next (s.coreIn y)

end Fetching

def JumpSel (w : Rv32iControlWord) : Prop := w.pcmuxSel = .aluOut ∨ w.pcmuxSel = .aluMod2

def JumpOp (opcode : Rv32iOpcode) : Prop := opcode = opJal ∨ opcode = opJalr

/-- A jump's select is never further along than the jump that it is from. -/
structure Followed (c : Core) : Prop where
  decoded : JumpSel c.decoded.cntrlWord → JumpOp (opcodeOf c.ifId.instrMemRdata) ∨
    JumpOp c.idEx.opcode ∨ JumpOp c.exMem.opcode
  idEx : JumpSel c.idEx.cntrlWord → JumpOp c.idEx.opcode ∨ JumpOp c.exMem.opcode
  exMem : JumpSel c.exMem.cntrlWord → JumpOp c.exMem.opcode

section Followed

variable {i : CoreIn} {c : Core}

private theorem jumpSel_assigned {held : Rv32iControlWord} {w : Rv32iWord}
    (assigned : Assigned (opcodeOf w) (funct3Of w)) (sel : JumpSel (controlWordOut held w)) :
    JumpOp (opcodeOf w) := by
  rw [controlWordOut, wordGenerator_assigned held zeroControlWord _ assigned] at sel
  by_contra other
  rw [JumpOp, not_or] at other
  have straight : (wordGenerator zeroControlWord (opcodeOf w) (funct3Of w) (funct7Of w)).pcmuxSel =
      .pcPlus4 ∨ (wordGenerator zeroControlWord (opcodeOf w) (funct3Of w)
        (funct7Of w)).pcmuxSel = .cmpOut := by
    simp only [wordGenerator, apply_ite Rv32iControlWord.pcmuxSel, setControlWord, zeroControlWord,
      if_neg other.1, if_neg other.2, ite_self]
    split_ifs <;> simp
  rcases straight with next | compare
  · rw [JumpSel, next] at sel
    simp at sel
  · rw [JumpSel, compare] at sel
    simp at sel

private theorem jumpSel_unassigned {held : Rv32iControlWord} {w : Rv32iWord}
    (unassigned : ¬Assigned (opcodeOf w) (funct3Of w)) :
    JumpSel (controlWordOut held w) ↔ JumpSel held := by
  rw [controlWordOut, wordGenerator_unassigned held _ unassigned]
  rfl

private theorem assigned_nop : Assigned (opcodeOf nopWord) (funct3Of nopWord) :=
  Or.inr (Or.inr (Or.inr (Or.inl rfl)))

theorem not_jumpOp_nop : ¬JumpOp (opcodeOf nopWord) := by
  rintro (jal | jalr)
  · cases jal
  · cases jalr

theorem flush_of_jump (jump : JumpOp c.exMem.opcode) : c.checker.flush = true := by
  rw [flush_eq, redirecting]
  rcases jump with jal | jalr
  · simp [jal]
  · simp [jalr]

private theorem followed_reset (rst : i.rst = true) (c : Core) : Followed (c.next i) := by
  have nop : (c.next i).ifId.instrMemRdata = nopWord := by
    rw [reset_ifId rst]
  refine ⟨fun sel => ?_, fun sel => ?_, fun sel => ?_⟩
  · refine absurd (jumpSel_assigned ?_ sel) ?_
    · rw [nop]
      exact assigned_nop
    · rw [nop]
      exact not_jumpOp_nop
  · rw [reset_idEx rst] at sel
    rcases sel with sel | sel <;> cases sel
  · rw [reset_exMem rst] at sel
    rcases sel with sel | sel <;> cases sel

theorem followed_next (flushes : i.flush = c.checker.flush) (inv : Followed c) :
    Followed (c.next i) := by
  cases running : i.rst with
  | true => exact followed_reset running c
  | false =>
    have noFlush (flush : c.checker.flush = false) : ¬JumpOp c.exMem.opcode := by
      intro jump
      rw [flush_of_jump jump] at flush
      cases flush
    have ifId := next_ifId (c := c) running
    have idEx := next_idEx (c := c) running
    have exMem := next_exMem (c := c) running
    rw [flushes] at ifId idEx exMem
    refine ⟨fun sel => ?_, fun sel => ?_, fun sel => ?_⟩
    · by_cases assigned : Assigned (opcodeOf (c.next i).ifId.instrMemRdata)
          (funct3Of (c.next i).ifId.instrMemRdata)
      · exact Or.inl (jumpSel_assigned assigned sel)
      have before : JumpSel c.decoded.cntrlWord := (jumpSel_unassigned assigned).mp sel
      cases flush : c.checker.flush with
      | true =>
        rw [ifId, flush] at assigned
        exact absurd assigned_nop assigned
      | false =>
        simp only [flush, Bool.false_eq_true, if_false] at ifId idEx exMem
        rcases inv.decoded before with word | jump | gone
        · by_cases held : (i.frozen || c.loadUse) = true
          · refine Or.inl ?_
            rw [ifId, if_pos held]
            exact word
          · refine Or.inr (Or.inl ?_)
            simp only [Bool.or_eq_true, not_or] at held
            rw [idEx, if_neg held.1, if_neg held.2]
            exact word
        · by_cases held : i.frozen = true
          · refine Or.inr (Or.inl ?_)
            rw [idEx, if_pos held]
            exact jump
          · refine Or.inr (Or.inr ?_)
            rw [exMem, if_neg held]
            exact jump
        · exact absurd gone (noFlush flush)
    · cases flush : c.checker.flush with
      | true =>
        rw [idEx, flush] at sel
        rcases sel with sel | sel <;> cases sel
      | false =>
        simp only [flush, Bool.false_eq_true, if_false] at idEx exMem
        rw [idEx] at sel ⊢
        rw [exMem]
        split_ifs at sel ⊢ with frozen loadUse
        · exact inv.idEx sel
        · rcases sel with sel | sel <;> cases sel
        · rcases inv.decoded sel with word | jump | gone
          · exact Or.inl word
          · exact Or.inr jump
          · exact absurd gone (noFlush flush)
    · rw [exMem] at sel ⊢
      split_ifs at sel ⊢ with frozen flush
      · exact inv.exMem sel
      · rcases sel with sel | sel <;> cases sel
      · rcases inv.idEx sel with jump | gone
        · exact jump
        · exact absurd gone (noFlush (Bool.eq_false_iff.mpr flush))

end Followed

/-- IF/ID accepts the fetched instruction: nothing stalls or flushes it. -/
def Accepts (y : FetchIn) (s : Fetching) : Prop :=
  y.rst = false ∧ (s.hazards y).stallIfId = false ∧ s.core.checker.flush = false

/-- The program counter goes where the recorded bit says, and the bit is set only for a
conditional branch. -/
structure Agrees (y : FetchIn) (s : Fetching) : Prop where
  recorded : (s.step y).core.ifId = s.fetched y
  taken : (s.step y).core.ifId.brPredTaken = true →
    (s.step y).pc = s.pc + bImm (s.step y).core.ifId.instrMemRdata ∧
      opcodeOf (s.step y).core.ifId.instrMemRdata = opBr
  notTaken : (s.step y).core.ifId.brPredTaken = false → (s.step y).pc = s.pc + 4#32

section Fetch

variable {y : FetchIn} {s : Fetching}

private theorem branch_of_brPredTaken (moving : (s.hazards y).pcStall = false)
    (taken : s.brPredTaken y = true) : opcodeOf y.iCacheRdata = 0x63#7 := by
  by_contra other
  have noRead : (s.predictorIn y).read = false := beq_eq_false_iff_ne.mpr other
  rw [Fetching.brPredTaken, BrPredBlkbox.flush_of_no_read _ _ noRead moving] at taken
  cases taken

private theorem straight_select (inv : Followed s.core) (flush : s.core.checker.flush = false) :
    s.core.exMem.cntrlWord.pcmuxSel = .pcPlus4 ∨ s.core.exMem.cntrlWord.pcmuxSel = .cmpOut := by
  have straight : ¬JumpSel s.core.exMem.cntrlWord := by
    intro sel
    rw [flush_of_jump (inv.exMem sel)] at flush
    cases flush
  rw [JumpSel] at straight
  cases sel : s.core.exMem.cntrlWord.pcmuxSel <;> simp_all

private theorem pcSel_taken (moving : (s.hazards y).pcStall = false)
    (flush : s.core.checker.flush = false) (taken : s.brPredTaken y = true) :
    s.pcSel y = s.pc + bImm y.iCacheRdata := by
  have branch := branch_of_brPredTaken moving taken
  have target : s.brPredPc y = s.pc + fetchBImm y.iCacheRdata := by
    rw [Fetching.brPredPc, brPredPcOut, taken]
    exact if_pos ⟨rfl, branch⟩
  rw [Fetching.pcSel, flush, mispredicted_of_not_flush flush, taken, target]
  rfl

private theorem pcSel_notTaken (inv : Followed s.core) (flush : s.core.checker.flush = false)
    (notTaken : s.brPredTaken y = false) : s.pcSel y = s.pc + 4#32 := by
  rw [Fetching.pcSel, flush, mispredicted_of_not_flush flush, notTaken]
  rcases straight_select inv flush with sel | sel
  · rw [sel]
    rfl
  · rw [sel]
    rfl

private theorem agrees_of_followed (inv : Followed s.core) (accepts : Accepts y s) :
    Agrees y s := by
  obtain ⟨running, moving, flush⟩ := accepts
  have stalls : (s.hazards y).pcStall = (s.hazards y).stallIfId :=
    (pcStall_eq (s.coreIn y) s.core).trans (stallIfId_eq (s.coreIn y) s.core).symm
  rw [moving] at stalls
  have free : ((s.coreIn y).frozen || s.core.loadUse) = false :=
    (stallIfId_eq (s.coreIn y) s.core).symm.trans moving
  have recorded : (s.step y).core.ifId = s.fetched y := by
    show (s.core.next (s.coreIn y)).ifId = _
    rw [next_ifId running, free]
    show (if s.core.checker.flush then _ else _) = _
    rw [flush]
    rfl
  have pc : (s.step y).pc = s.pcSel y := by
    show pcRegister y.rst (!(s.hazards y).pcStall) (s.pcSel y) s.pc = _
    rw [running, stalls]
    rfl
  refine ⟨recorded, fun taken => ?_, fun notTaken => ?_⟩
  · rw [recorded] at taken ⊢
    rw [pc]
    exact ⟨pcSel_taken stalls flush taken, branch_of_brPredTaken stalls taken⟩
  · rw [recorded] at notTaken
    rw [pc]
    exact pcSel_notTaken inv flush notTaken

end Fetch

def Fetching.behind (predictor : BrPredBlkbox) (heldPredPc : Rv32iWord) (s : Fetching) : Fetching :=
  { s with predictor := predictor, heldPredPc := heldPredPc }

/-- From a cycle of reset on, for every state of the predictor then and in any later cycle,
every fetched word and every pattern of misses, whenever IF/ID accepts an instruction the
program counter moves to its branch target if the recorded bit is set, which only a
conditional branch sets, and to the next word if it is not. -/
theorem prediction_agrees (s : Fetching) (reset : FetchIn) (rst : reset.rst = true)
    (predictor : BrPredBlkbox) (heldPredPc : Rv32iWord) (cycles : List FetchIn) :
    Along Fetching.step
      (fun y s => ∀ predictor heldPredPc, Accepts y (s.behind predictor heldPredPc) →
        Agrees y (s.behind predictor heldPredPc))
      ((s.step reset).behind predictor heldPredPc) cycles := by
  have start : Followed ((s.step reset).behind predictor heldPredPc).core :=
    followed_reset rst s.core
  have keep (y : FetchIn) (s : Fetching) (inv : Followed s.core) (_ : True) :
      Followed (s.step y).core := followed_next (i := s.coreIn y) rfl inv
  have shows (y : FetchIn) (s : Fetching) (inv : Followed s.core) (_ : True)
      (predictor : BrPredBlkbox) (heldPredPc : Rv32iWord) :
      Accepts y (s.behind predictor heldPredPc) → Agrees y (s.behind predictor heldPredPc) :=
    agrees_of_followed inv
  have free : Along Fetching.step (fun _ _ => True) ((s.step reset).behind predictor heldPredPc)
      cycles := along_of_forall (fun _ _ => trivial) _ cycles
  exact along_invariant keep shows start free

def Fetching.cycle (y : FetchIn) (s : Fetching) : Cycle where
  rst := y.rst
  iCacheMiss := y.iCacheMiss
  dCacheMiss := y.dCacheMiss
  predictor := s.brPredTaken y
  missRdata := y.iCacheRdata
  dCacheRdata := y.dCacheRdata

structure Simulates (s : Fetching) (p : Processor) : Prop where
  pc : p.pc = s.pc
  heldPredPc : p.heldPredPc = s.heldPredPc
  core : p.core = s.core

section Simulation

variable {y : FetchIn} {s : Fetching} {p : Processor} {prog : Program}

private theorem next_stalled {i : CoreIn} {c : Core} (other : IfId)
    (stalled : (c.hazards i.iCacheMiss i.dCacheMiss).stallIfId = true) :
    c.next { i with fetched := other } = c.next i := by
  have ifId : PipelineRegs.ifId i.rst true i.flush other c.ifId =
      PipelineRegs.ifId i.rst true i.flush i.fetched c.ifId := by
    cases i.rst <;> cases i.flush <;> rfl
  unfold Core.next
  simp only [stalled, ifId]

/-- The pipeline behind its predictor is `Processor` with that predictor's answers, so that
what is proved of `Processor` for every predictor holds of it. -/
theorem simulates_step (feeds : y.iCacheMiss = false → y.iCacheRdata = prog s.pc)
    (sim : Simulates s p) : Simulates (s.step y) (p.step prog (s.cycle y)) := by
  have rdata : p.iCacheRdata prog (s.cycle y) = y.iCacheRdata := by
    cases miss : y.iCacheMiss with
    | true => exact if_pos miss
    | false => exact (if_neg (by simp [Fetching.cycle, miss])).trans (sim.pc ▸ (feeds miss).symm)
  have brPredPc : p.brPredPc prog (s.cycle y) = s.brPredPc y := by
    rw [Processor.brPredPc, Processor.brPredTaken, rdata, sim.pc, sim.heldPredPc, Fetching.brPredPc]
    cases branch : opcodeOf y.iCacheRdata == opBr with
    | true => rw [Bool.and_true]; rfl
    | false =>
      have other : y.iCacheRdata.extractLsb' 0 7 ≠ 0x63#7 := beq_eq_false_iff_ne.mp branch
      simp [brPredPcOut, other]
  have coreIn : p.coreIn prog (s.cycle y) =
      { s.coreIn y with fetched := p.fetched prog (s.cycle y) } := by
    rw [Processor.coreIn, sim.core]
    rfl
  have stalls : (s.hazards y).stallIfId = (s.hazards y).pcStall :=
    (stallIfId_eq (s.coreIn y) s.core).trans (pcStall_eq (s.coreIn y) s.core).symm
  cases moving : (s.hazards y).pcStall with
  | true =>
    rw [moving] at stalls
    refine ⟨?_, brPredPc, ?_⟩
    · show pcRegister y.rst (!(p.core.hazards y.iCacheMiss y.dCacheMiss).pcStall) _ p.pc =
        pcRegister y.rst (!(s.hazards y).pcStall) _ s.pc
      rw [sim.core, sim.pc, show s.core.hazards y.iCacheMiss y.dCacheMiss = s.hazards y from rfl,
        moving]
      rfl
    · show p.core.next (p.coreIn prog (s.cycle y)) = s.core.next (s.coreIn y)
      rw [coreIn, sim.core]
      exact next_stalled _ stalls
  | false =>
    have taken : p.brPredTaken prog (s.cycle y) = s.brPredTaken y := by
      rw [Processor.brPredTaken, rdata]
      cases raw : s.brPredTaken y with
      | true =>
        have branch : (opcodeOf y.iCacheRdata == opBr) = true :=
          beq_iff_eq.mpr (branch_of_brPredTaken moving raw)
        simp [Fetching.cycle, raw, branch]
      | false => simp [Fetching.cycle, raw]
    have fetched : p.fetched prog (s.cycle y) = s.fetched y := by
      rw [Processor.fetched, rdata, taken, brPredPc, sim.pc]
      rfl
    have pcSel : p.pcSel prog (s.cycle y) = s.pcSel y := by
      rw [Processor.pcSel, taken, brPredPc, sim.core, sim.pc]
      rfl
    refine ⟨?_, brPredPc, ?_⟩
    · show pcRegister y.rst (!(p.core.hazards y.iCacheMiss y.dCacheMiss).pcStall) _ p.pc =
        pcRegister y.rst (!(s.hazards y).pcStall) _ s.pc
      rw [pcSel, sim.core, sim.pc]
      rfl
    · show p.core.next (p.coreIn prog (s.cycle y)) = s.core.next (s.coreIn y)
      rw [coreIn, fetched, sim.core]
      rfl

theorem simulates_run {ys : List FetchIn}
    (feeds : Along Fetching.step (fun y s => y.iCacheMiss = false → y.iCacheRdata = prog s.pc) s ys)
    (sim : Simulates s p) :
    ∃ cycles : List Cycle, cycles.map Cycle.rst = ys.map FetchIn.rst ∧
      Simulates (run Fetching.step s ys) (run (Processor.step prog) p cycles) := by
  induction ys generalizing s p with
  | nil => exact ⟨[], rfl, sim⟩
  | cons y ys ih =>
    obtain ⟨cycles, resets, rest⟩ := ih feeds.2 (simulates_step feeds.1 sim)
    exact ⟨s.cycle y :: cycles, by simp [resets, Fetching.cycle], rest⟩

end Simulation

def freshPredictor : BrPredBlkbox where
  globalPred := ⟨0#10, fun _ => .weaklyNotTaken, false⟩
  localPred := ⟨fun _ => 0#12, fun _ => .weaklyNotTaken, false⟩
  metaPred := ⟨fun _ => .weaklyNotTaken, 0#10, .stronglyTaken, false⟩

def poweredUpFetching : Fetching := ⟨0#32, 0#32, freshPredictor, poweredUp.core⟩

def fetching (word : Rv32iWord) : FetchIn :=
  ⟨false, false, false, word, 0#32, false, false, 0#32⟩

def resetIn : FetchIn := { fetching 0#32 with rst := true }

theorem prediction_agrees_trained :
    let train : FetchIn :=
      { fetching nopWord with load := true, brTaken := true, pcMemStage := 0x65#32 }
    let branch := fetching 0x00000863#32
    let s := (poweredUpFetching.step resetIn).behind freshPredictor 0#32
    Along Fetching.step
        (fun y s => ∀ predictor heldPredPc, Accepts y (s.behind predictor heldPredPc) →
          Agrees y (s.behind predictor heldPredPc)) s [train, branch] ∧
      Accepts branch (s.step train) ∧ (s.step train).brPredTaken branch = true ∧
      ((s.step train).step branch).pc = 0x74#32 := by
  intro train branch s
  refine ⟨prediction_agrees poweredUpFetching resetIn rfl freshPredictor 0#32 [train, branch],
    ?_, ?_, ?_⟩
  · exact ⟨rfl, by decide, by decide⟩
  · decide
  · decide

end Mp4.Cpu.FetchAgreement
