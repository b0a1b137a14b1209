import Mp4.Cpu.ControlFlow
import Mp4.Cpu.DecodeHistory
import Mp4.Cpu.StoreLanes

/-!
What a reset of `n` cycles leaves of the pipeline state before it. The control words are
cleared at once; the opcodes of ID/EX and EX/MEM are loaded from their inputs, so those of
the packets in flight are gone only after two and three cycles.
-/

set_option autoImplicit false
set_option relaxedAutoImplicit false

namespace Mp4.Cpu.Reset

open Mp4.Cpu.Rv32iTypes Mp4.Cpu.PipelineRegs Mp4.Cpu.InstrDecode Mp4.Cpu.Isa
open Mp4.Cpu.Execute Mp4.Cpu.MemStage Mp4.Cpu.InstrFetch Mp4.Cpu.SingleInstruction
open Mp4.Cpu.Pipeline Mp4.Cpu.DataInvariant Mp4.Cpu.ControlFlow Mp4.Cpu.DecodeHistory
open Mp4.Cpu.StoreLanes Mp4.Lib.Clocked

/-- What the surroundings see of a cycle: the program counter, the redirect, the register
write, the memory access, and the data and byte enables of a store. -/
structure Seen where
  pc : Rv32iWord
  flush : Bool
  regWrite : Option (Rv32iReg × Rv32iWord)
  access : Option Access
  wdata : Rv32iWord
  byteEnable : Option (BitVec 4)
  deriving DecidableEq

def byteEnableOf (c : Core) : Option (BitVec 4) :=
  if c.exMem.opcode = opStore ∧ StoreOp.ofFunct3 c.exMem.funct3 ≠ none then some c.byteEnable
  else none

def seen (s : Processor) : Seen where
  pc := s.pc
  flush := s.core.checker.flush
  regWrite := regWriteOf s.core.memWb
  access := accessOf s.core.exMem
  wdata := s.core.wdata
  byteEnable := byteEnableOf s.core

/-- The state with the recorded prediction targets, the opcode of MEM/WB and the held byte
enables blanked out, which nothing observable depends on. -/
def blank (c : Core) : Core :=
  { c with
    ifId := { c.ifId with brPredPc := 0#32 }
    idEx := { c.idEx with brPredPc := 0#32 }
    memWb := { c.memWb with opcode := 0#7 }
    heldByteEnable := 0#4 }

def strip (c : Core) : Core :=
  { blank c with
    heldCtrl := c.decoded.cntrlWord
    heldBrEn := c.executed.cmpVal
    heldChecker := c.checker }

structure Alike (s s' : Processor) : Prop where
  pc : s.pc = s'.pc
  core : strip s.core = strip s'.core

section Latches

private theorem wordGenerator_twice (held : Rv32iControlWord) (opcode : Rv32iOpcode)
    (funct3 : Funct3) (funct7 : BitVec 7) :
    wordGenerator (wordGenerator held opcode funct3 funct7) opcode funct3 funct7 =
      wordGenerator held opcode funct3 funct7 := by
  by_cases assigned : Assigned opcode funct3
  · exact wordGenerator_assigned _ held funct7 assigned
  · rw [wordGenerator_unassigned _ funct7 assigned, wordGenerator_unassigned _ funct7 assigned]

private theorem cmp_twice (held : Bool) (cmpop : Funct3) (a b : Rv32iWord) :
    Execute.cmp (Execute.cmp held cmpop a b) cmpop a b = Execute.cmp held cmpop a b := by
  unfold Execute.cmp
  split_ifs <;> rfl

private theorem checker_twice (held : Checker) (cmpOut : Bool) (opcode : Rv32iOpcode)
    (brPredTaken : Bool) :
    staticNtPredictor (staticNtPredictor held cmpOut opcode brPredTaken) cmpOut opcode
      brPredTaken = staticNtPredictor held cmpOut opcode brPredTaken := by
  unfold staticNtPredictor
  split_ifs <;> rfl

variable (c : Core)

private theorem strip_decoded : (strip c).decoded = { c.decoded with brPredPc := 0#32 } := by
  have same : (strip c).decoded.cntrlWord = c.decoded.cntrlWord := wordGenerator_twice _ _ _ _
  have rest : (strip c).decoded =
      { c.decoded with brPredPc := 0#32, cntrlWord := (strip c).decoded.cntrlWord } := rfl
  rw [rest, same]

private theorem strip_executed : (strip c).executed = c.executed := by
  have same : (strip c).executed.cmpVal = c.executed.cmpVal := cmp_twice _ _ _ _
  have rest : (strip c).executed = { c.executed with cmpVal := (strip c).executed.cmpVal } := rfl
  rw [rest, same]

private theorem strip_checker : (strip c).checker = c.checker := checker_twice _ _ _ _

end Latches

section Step

def blankIn (i : CoreIn) : CoreIn :=
  { i with fetched := { i.fetched with brPredPc := 0#32 } }

private theorem ifId_blank (rst stall flush : Bool) (input q : IfId) :
    { PipelineRegs.ifId rst stall flush input q with brPredPc := 0#32 } =
      { PipelineRegs.ifId rst stall flush { input with brPredPc := 0#32 }
        { q with brPredPc := 0#32 } with brPredPc := 0#32 } := by
  cases rst <;> cases flush <;> cases stall <;> rfl

private theorem idEx_blank (rst stall flush nop : Bool) (input q : IdEx) :
    { PipelineRegs.idEx rst stall flush nop input q with brPredPc := 0#32 } =
      { PipelineRegs.idEx rst stall flush nop { input with brPredPc := 0#32 }
        { q with brPredPc := 0#32 } with brPredPc := 0#32 } := by
  cases rst <;> cases flush <;> cases nop <;> cases stall <;> rfl

private theorem memWb_blank (rst stall : Bool) (input q : MemWb) :
    { PipelineRegs.memWb rst stall input q with opcode := 0#7 } =
      { PipelineRegs.memWb rst stall input { q with opcode := 0#7 } with opcode := 0#7 } := by
  cases rst <;> cases stall <;> rfl

private theorem blank_next (i : CoreIn) (c : Core) :
    blank (c.next i) = blank ((strip c).next (blankIn i)) := by
  have hazards : (strip c).hazards (blankIn i).iCacheMiss (blankIn i).dCacheMiss =
      c.hazards i.iCacheMiss i.dCacheMiss := rfl
  unfold Core.next
  rw [hazards, strip_decoded, strip_executed, strip_checker]
  generalize c.hazards i.iCacheMiss i.dCacheMiss = h
  unfold blank
  congr 1
  · exact ifId_blank i.rst h.stallIfId i.flush i.fetched c.ifId
  · exact idEx_blank i.rst h.stallIdEx i.flush h.stallNopIdEx c.decoded c.idEx
  · exact memWb_blank i.rst h.stallMemWb (memStage c.exMem i.dCacheRdata) c.memWb

private theorem strip_next (i : CoreIn) (c : Core) :
    strip (c.next i) = strip ((strip c).next (blankIn i)) := by
  have blanked (c : Core) : strip (blank c) = strip c := rfl
  rw [← blanked, blank_next, blanked]

variable {prog : Program} {y : Cycle} {s s' : Processor}

private theorem checker_alike (alike : Alike s s') : s.core.checker = s'.core.checker := by
  rw [← strip_checker, alike.core, strip_checker]

private theorem exMem_alike (alike : Alike s s') : s.core.exMem = s'.core.exMem := by
  have same := congrArg Core.exMem alike.core
  exact same

private theorem pcSelOut_straight (taken mispredicted : Bool) (sel : PcmuxSel)
    (pc aluVal target target' new : Rv32iWord) :
    pcSelOut false taken mispredicted sel pc aluVal target new =
      pcSelOut false taken mispredicted sel pc aluVal target' new := by
  cases taken <;> cases sel <;> rfl

private theorem pcSel_alike (alike : Alike s s') : s.pcSel prog y = s'.pcSel prog y := by
  have exMem := exMem_alike alike
  have rdata : s.iCacheRdata prog y = s'.iCacheRdata prog y := by
    rw [Processor.iCacheRdata, Processor.iCacheRdata, alike.pc]
  have taken : s.brPredTaken prog y = s'.brPredTaken prog y := by
    rw [Processor.brPredTaken, Processor.brPredTaken, rdata]
  rw [Processor.pcSel, Processor.pcSel, Processor.brPredPc, Processor.brPredPc,
    checker_alike alike, exMem, taken, alike.pc, rdata]
  cases predicted : s'.brPredTaken prog y with
  | true =>
    have branch : (s'.iCacheRdata prog y).extractLsb' 0 7 = 0x63#7 :=
      eq_of_beq ((Bool.and_eq_true _ _).mp predicted).2
    rw [brPredPcOut, brPredPcOut, if_pos ⟨rfl, branch⟩, if_pos ⟨rfl, branch⟩]
  | false => exact pcSelOut_straight _ _ _ _ _ _ _ _

private theorem coreIn_alike (alike : Alike s s') :
    blankIn (s.coreIn prog y) = blankIn (s'.coreIn prog y) := by
  have rdata : s.iCacheRdata prog y = s'.iCacheRdata prog y := by
    rw [Processor.iCacheRdata, Processor.iCacheRdata, alike.pc]
  simp only [blankIn, Processor.coreIn, Processor.fetched, Processor.brPredTaken, rdata, alike.pc,
    checker_alike alike]

private theorem alike_step (prog : Program) (y : Cycle) (s s' : Processor) (alike : Alike s s') :
    Alike (s.step prog y) (s'.step prog y) := by
  have hazards : s.core.hazards y.iCacheMiss y.dCacheMiss =
      s'.core.hazards y.iCacheMiss y.dCacheMiss := by
    have same := congrArg (fun c => Core.hazards c y.iCacheMiss y.dCacheMiss) alike.core
    exact same
  constructor
  · simp only [Processor.step, hazards, pcSel_alike alike, alike.pc]
  · show strip (s.core.next (s.coreIn prog y)) = strip (s'.core.next (s'.coreIn prog y))
    rw [strip_next, alike.core, coreIn_alike alike, ← strip_next]

private theorem byteEnableOf_strip (c : Core) : byteEnableOf (strip c) = byteEnableOf c := by
  have exMem : (strip c).exMem = c.exMem := rfl
  unfold byteEnableOf
  rw [exMem]
  by_cases store : c.exMem.opcode = opStore ∧ StoreOp.ofFunct3 c.exMem.funct3 ≠ none
  · obtain ⟨op, kind⟩ := Option.ne_none_iff_exists'.mp store.2
    have driven (held : BitVec 4) : memByteEnable held c.exMem = memByteEnable 0#4 c.exMem := by
      rw [memByteEnable, memByteEnable, store.1, funct3_of_kind kind]
      cases op <;> rfl
    have same : (strip c).byteEnable = c.byteEnable := (driven _).symm
    rw [if_pos store, if_pos store, same]
  · rw [if_neg store, if_neg store]

private theorem seen_alike (alike : Alike s s') : seen s = seen s' := by
  have observed (s : Processor) : seen s =
      { pc := s.pc
        flush := s.core.checker.flush
        regWrite := regWriteOf (strip s.core).memWb
        access := accessOf (strip s.core).exMem
        wdata := (strip s.core).wdata
        byteEnable := byteEnableOf (strip s.core) } := by
    rw [byteEnableOf_strip]
    rfl
  rw [observed, observed, alike.core, alike.pc, checker_alike alike]

end Step

section Bubbles

structure Bubbles (s : Processor) : Prop where
  ifId : s.tags.ifId = none → s.core.ifId.instrMemRdata = nopWord
  idEx : s.tags.idEx = none → IdleIdEx s.core.idEx
  exMem : s.tags.exMem = none → IdleExMem s.core.exMem

variable {prog : Program} {y : Cycle} {s : Processor}

private theorem idle_decoded {c : Core} (nop : c.ifId.instrMemRdata = nopWord) :
    IdleIdEx c.decoded := by
  unfold Core.decoded instrDecode
  rw [nop]
  exact ⟨rfl, rfl, rfl, rfl, rfl⟩

private theorem idle_executed {c : Core} (idle : IdleIdEx c.idEx) : IdleExMem c.executed :=
  ⟨idle.regDest, idle.readMem, idle.writeMem, idle.pcmuxSel, idle.opcode⟩

private theorem bubbles_step (running : y.rst = false) (inv : Bubbles s) :
    Bubbles (s.step prog y) := by
  have tags := step_tags prog s running
  have ifId : (s.step prog y).core.ifId =
      if s.core.checker.flush then ⟨s.core.ifId.pcReg, nopWord, false, 0#32⟩
      else if y.miss || s.core.loadUse then s.core.ifId
      else s.fetched prog y := next_ifId running
  have idEx : (s.step prog y).core.idEx =
      if s.core.checker.flush then
        clearedIdEx zeroControlWord 0x13#7 s.core.idEx.brPred s.core.idEx.brPredPc
      else if y.miss then s.core.idEx
      else if s.core.loadUse then clearedIdEx nopControlWord 0x13#7 false 0#32
      else s.core.decoded := next_idEx running
  have exMem := step_exMem prog s running
  refine ⟨fun none => ?_, fun none => ?_, fun none => ?_⟩
  · rw [tags] at none
    rw [ifId]
    dsimp only at none
    split_ifs at none ⊢ with flush held
    · rfl
    · exact inv.ifId none
  · rw [tags] at none
    rw [idEx]
    dsimp only at none
    split_ifs at none ⊢ with flush miss loadUse
    · exact ⟨rfl, rfl, rfl, rfl, rfl⟩
    · exact inv.idEx none
    · exact ⟨rfl, rfl, rfl, rfl, rfl⟩
    · exact idle_decoded (inv.ifId none)
  · rw [tags] at none
    rw [exMem]
    dsimp only at none
    split_ifs at none ⊢ with miss flush
    · exact inv.exMem none
    · exact ⟨rfl, rfl, rfl, rfl, rfl⟩
    · exact idle_executed (inv.idEx none)

private theorem bubble_silent {c : Core} (idle : IdleExMem c.exMem) :
    c.checker.flush = false ∧ accessOf c.exMem = none ∧
      ∀ rData, regWriteOf (memStage c.exMem rData) = none := by
  refine ⟨?_, ?_, fun rData => ?_⟩
  · rw [flush_eq, redirecting, idle.opcode]
    rfl
  · rw [accessOf, idle.readMem, idle.writeMem]
    rfl
  · rw [regWriteOf]
    exact if_neg fun write => write.2 idle.regDest

end Bubbles

section Cycles

/-- The state after reset, but for the opcodes that ID/EX and EX/MEM still carry. -/
structure ResetTo (idExOpcode exMemOpcode : Rv32iOpcode) (s : Processor) : Prop where
  pc : s.pc = 0x60#32
  tags : s.tags = .empty
  ifId : s.core.ifId = ⟨0#32, nopWord, false, 0#32⟩
  idEx : s.core.idEx = clearedIdEx zeroControlWord idExOpcode false 0#32
  exMem : s.core.exMem = clearedExMem exMemOpcode
  memWb : { s.core.memWb with opcode := 0x13#7 } = poweredUp.core.memWb
  regs : s.core.regs = fun _ => 0#32

variable {prog : Program} {y : Cycle} {s : Processor} {o o' : Rv32iOpcode}

variable (prog s) in
private theorem resetTo_first (rst : y.rst = true) :
    ResetTo (opcodeOf s.core.ifId.instrMemRdata) s.core.idEx.opcode (s.step prog y) := by
  constructor <;> simp only [Processor.step, Core.next, Tags.next, Processor.coreIn, rst] <;> rfl

variable (prog) in
private theorem resetTo_again (reset : ResetTo o o' s) (rst : y.rst = true) :
    ResetTo 0x13#7 o (s.step prog y) := by
  have first := resetTo_first prog s rst
  rw [reset.ifId, reset.idEx] at first
  exact first

theorem resetTo_run {resets : List Cycle} (reset : ResetTo 0x13#7 0x13#7 s)
    (rst : ∀ y ∈ resets, y.rst = true) :
    ResetTo 0x13#7 0x13#7 (run (Processor.step prog) s resets) := by
  induction resets generalizing s with
  | nil => exact reset
  | cons y ys ih =>
    exact ih (resetTo_again prog reset (rst y List.mem_cons_self))
      fun z hz => rst z (List.mem_cons_of_mem y hz)

def Drained (n : Nat) (s : Processor) : Prop :=
  (n ≤ 2 → opcodeOf s.core.ifId.instrMemRdata = 0x13#7) ∧
    (n ≤ 1 → s.core.idEx.opcode = 0x13#7)

/-- After reset the opcodes are those of no-ops exactly if the state was drained. -/
theorem resetTo_iff {resets : List Cycle} (prog : Program) (s : Processor)
    (some : 1 ≤ resets.length) (rst : ∀ y ∈ resets, y.rst = true) :
    ∃ o o', ResetTo o o' (run (Processor.step prog) s resets) ∧
      (Drained resets.length s ↔ o = 0x13#7 ∧ o' = 0x13#7) := by
  match resets, some with
  | [y1], _ =>
    have one := resetTo_first prog s (rst y1 (by simp))
    exact ⟨_, _, one, by simp [Drained]⟩
  | [y1, y2], _ =>
    have one := resetTo_first prog s (rst y1 (by simp))
    have two := resetTo_again prog one (rst y2 (by simp))
    exact ⟨_, _, two, by simp [Drained]⟩
  | y1 :: y2 :: y3 :: rest, _ =>
    have one := resetTo_first prog s (rst y1 (by simp))
    have two := resetTo_again prog one (rst y2 (by simp))
    have three := resetTo_again prog two (rst y3 (by simp))
    have all : ResetTo 0x13#7 0x13#7 (run (Processor.step prog) _ rest) :=
      resetTo_run three fun z hz => rst z (by simp [hz])
    exact ⟨_, _, all, by simp [Drained]⟩

/-- Nothing of the packets in flight before a reset is left: the state is that of an empty
pipeline, and in every later cycle a redirect, an access or a register write belongs to a
packet fetched since. -/
structure Erased (prog : Program) (s : Processor) : Prop where
  pc : s.pc = 0x60#32
  idEx : s.core.idEx.opcode = 0x13#7
  exMem : s.core.exMem.opcode = 0x13#7
  flush : s.core.checker.flush = false
  memWb : regWriteOf s.core.memWb = none
  tags : s.tags = .empty
  later : ∀ cycles : List Cycle, (∀ y ∈ cycles, y.rst = false) →
    let s' := run (Processor.step prog) s cycles
    s'.tags.exMem = none → s'.core.checker.flush = false ∧ accessOf s'.core.exMem = none ∧
      ∀ rData, regWriteOf (memStage s'.core.exMem rData) = none

theorem bubbles_run {cycles : List Cycle} (inv : Bubbles s)
    (running : ∀ y ∈ cycles, y.rst = false) :
    Bubbles (run (Processor.step prog) s cycles) := by
  induction cycles generalizing s with
  | nil => exact inv
  | cons y ys ih =>
    exact ih (bubbles_step (running y List.mem_cons_self) inv)
      fun z hz => running z (List.mem_cons_of_mem y hz)

private theorem erased_of_resetTo (prog : Program) (reset : ResetTo 0x13#7 0x13#7 s) :
    Erased prog s := by
  have bubbles : Bubbles s := by
    refine ⟨fun _ => ?_, fun _ => ?_, fun _ => ?_⟩
    · rw [reset.ifId]
    · rw [reset.idEx]
      exact ⟨rfl, rfl, rfl, rfl, rfl⟩
    · rw [reset.exMem]
      exact ⟨rfl, rfl, rfl, rfl, rfl⟩
  have idle : IdleExMem s.core.exMem := bubbles.exMem (by rw [reset.tags]; rfl)
  refine ⟨reset.pc, by rw [reset.idEx]; rfl, idle.opcode, (bubble_silent idle).1, ?_,
    reset.tags, ?_⟩
  · have dest : s.core.memWb.regDest = 0#5 := congrArg MemWb.regDest reset.memWb
    rw [regWriteOf]
    exact if_neg fun write => write.2 dest
  · intro cycles running s' none
    exact bubble_silent ((bubbles_run bubbles running).exMem none)

private theorem strip_resetTo (reset : ResetTo 0x13#7 0x13#7 s) :
    strip s.core = strip poweredUp.core := by
  obtain ⟨-, -, ifId, idEx, exMem, memWb, regs⟩ := reset
  generalize s.core = c at *
  obtain ⟨ifId', idEx', exMem', memWb', regs', heldCtrl, heldBrEn, heldChecker, heldByteEnable⟩ := c
  dsimp only at ifId idEx exMem memWb regs
  subst ifId idEx exMem regs
  obtain ⟨uImm, regDest, regPc, aluVal, cmpVal, cntrlWord, rData, opcode⟩ := memWb'
  injection memWb with uImm regDest regPc aluVal cmpVal cntrlWord rData
  subst uImm regDest regPc aluVal cmpVal cntrlWord rData
  rfl

private theorem alike_resetTo {s' : Processor} (reset : ResetTo 0x13#7 0x13#7 s)
    (reset' : ResetTo 0x13#7 0x13#7 s') : Alike s s' :=
  ⟨reset.pc.trans reset'.pc.symm, (strip_resetTo reset).trans (strip_resetTo reset').symm⟩

end Cycles

/-- A reset of `n` cycles makes two prior states one: nothing in flight is left of either,
and the same inputs then show the same. -/
def Erases (prog : Program) (n : Nat) (s s' : Processor) : Prop :=
  ∀ resets resets' : List Cycle, resets.length = n → resets'.length = n →
    (∀ y ∈ resets, y.rst = true) → (∀ y ∈ resets', y.rst = true) →
    let r := run (Processor.step prog) s resets
    let r' := run (Processor.step prog) s' resets'
    Erased prog r ∧ Erased prog r' ∧
      ∀ cycles, seen (run (Processor.step prog) r cycles) =
        seen (run (Processor.step prog) r' cycles)

/-- Reset erases the past of two states exactly if both were drained: always from three
cycles on, and for shorter resets when the opcodes that outlast it are those of no-ops. -/
theorem reset_erases_iff (prog : Program) (n : Nat) (some : 1 ≤ n) (s s' : Processor) :
    Erases prog n s s' ↔ Drained n s ∧ Drained n s' := by
  constructor
  · intro erases
    have length : (List.replicate n resetCycle).length = n := List.length_replicate
    have rst : ∀ y ∈ List.replicate n resetCycle, y.rst = true := by
      intro y mem
      rw [List.eq_of_mem_replicate mem]
      rfl
    have drained (t : Processor)
        (erased : Erased prog (run (Processor.step prog) t (List.replicate n resetCycle))) :
        Drained n t := by
      obtain ⟨o, o', reset, iff⟩ := resetTo_iff prog t (by omega) rst
      rw [length] at iff
      refine iff.mpr ⟨?_, ?_⟩
      · have opcode := erased.idEx
        rw [reset.idEx] at opcode
        exact opcode
      · have opcode := erased.exMem
        rw [reset.exMem] at opcode
        exact opcode
    obtain ⟨erased, erased', -⟩ := erases _ _ length length rst rst
    exact ⟨drained s erased, drained s' erased'⟩
  · rintro ⟨drained, drained'⟩ resets resets' length length' rst rst' r r'
    have settled (t : Processor) (ys : List Cycle) (long : ys.length = n)
        (rst : ∀ y ∈ ys, y.rst = true) (drained : Drained n t) :
        ResetTo 0x13#7 0x13#7 (run (Processor.step prog) t ys) := by
      obtain ⟨o, o', reset, iff⟩ := resetTo_iff prog t (by omega) rst
      rw [long] at iff
      obtain ⟨rfl, rfl⟩ := iff.mp drained
      exact reset
    have reset := settled s resets length rst drained
    have reset' := settled s' resets' length' rst' drained'
    refine ⟨erased_of_resetTo prog reset, erased_of_resetTo prog reset', fun cycles => ?_⟩
    exact seen_alike (run_related (alike_step prog) (alike_resetTo reset reset') cycles)

def jumpInFlight : Processor :=
  { poweredUp with
    core := { poweredUp.core with
      idEx := { poweredUp.core.idEx with
        opcode := opJal
        cntrlWord := controlWordOut zeroControlWord 0x0100006f#32 } } }

theorem reset_erases_iff_three : Erases (fun _ => nopWord) 3 jumpInFlight poweredUp :=
  (reset_erases_iff (fun _ => nopWord) 3 (by decide) jumpInFlight poweredUp).mpr
    ⟨⟨by decide, by decide⟩, by decide, by decide⟩

/-- After one cycle of reset EX/MEM carries the opcode of the `jal` and fetch goes on at
address zero instead of `0x64`. -/
theorem reset_leaves_jump :
    ¬Erases (fun _ => nopWord) 1 jumpInFlight poweredUp ∧
      (run (Processor.step fun _ => nopWord) jumpInFlight [resetCycle]).core.checker.flush = true ∧
      (run (Processor.step fun _ => nopWord) jumpInFlight [resetCycle, hitCycle]).pc = 0#32 ∧
      (run (Processor.step fun _ => nopWord) poweredUp [resetCycle, hitCycle]).pc = 0x64#32 := by
  refine ⟨fun erases => ?_, by decide, by decide, by decide⟩
  obtain ⟨erased, -, -⟩ := erases [resetCycle] [resetCycle] rfl rfl (by decide) (by decide)
  exact absurd erased.exMem (by decide)

end Mp4.Cpu.Reset
