import Mp4.Cpu.FetchAgreement

/-!
The held `mispredicted` of `static_nt_predictor` against the jumps that let it show. A branch
that sets it also flushes, so that a cleared word stands between the branch and any jump.
-/

set_option autoImplicit false
set_option relaxedAutoImplicit false

namespace Mp4.Cpu.StaleMispredict

open Mp4.Cpu.Rv32iTypes Mp4.Cpu.PipelineRegs Mp4.Cpu.InstrDecode Mp4.Cpu.Execute
open Mp4.Cpu.MemStage Mp4.Cpu.InstrFetch Mp4.Cpu.Pipeline Mp4.Cpu.ControlFlow
open Mp4.Cpu.FetchAgreement Mp4.Lib.Clocked

def even (w : Rv32iWord) : Rv32iWord := w.extractLsb' 1 31 ++ 0#1

def jumpTarget (c : Core) : Rv32iWord :=
  if c.idEx.opcode = opJal then c.idEx.pcReg + c.idEx.jImm
  else even (alumux1 c.forward.alumux1Sel c.idEx (forwardingVal c.exMem) c.regfilemux +
    c.idEx.iImm)

/-- The pipeline with its fetch stage, and the target of the instruction that EX/MEM loaded
last; the target drives nothing. -/
structure Jumping where
  fetching : Fetching
  target : Rv32iWord

namespace Jumping

def core (j : Jumping) : Core := j.fetching.core

def step (y : FetchIn) (j : Jumping) : Jumping where
  fetching := j.fetching.step y
  target := if (j.fetching.coreIn y).frozen then j.target else jumpTarget j.core

end Jumping

structure JumpDecoded (q : IdEx) : Prop where
  jal : q.opcode = opJal → q.rs1Id = 0#5 ∧ q.rs2Id = 0#5 ∧ q.cntrlWord.aluop = .aluAdd ∧
    q.cntrlWord.alumux1Sel = .pcOut ∧ q.cntrlWord.alumux2Sel = .jImm ∧
    q.cntrlWord.pcmuxSel = .aluOut
  jalr : q.opcode = opJalr → q.rs2Id = 0#5 ∧ q.cntrlWord.aluop = .aluAdd ∧
    q.cntrlWord.alumux2Sel = .iImm ∧ q.cntrlWord.pcmuxSel = .aluMod2

structure JumpExecuted (q : ExMem) (target : Rv32iWord) : Prop where
  jal : q.opcode = opJal → q.cntrlWord.pcmuxSel = .aluOut ∧ q.aluVal = target
  jalr : q.opcode = opJalr → q.cntrlWord.pcmuxSel = .aluMod2 ∧ even q.aluVal = target

/-- No jump is in EX/MEM behind a misprediction that is still held. -/
structure NoStale (j : Jumping) : Prop where
  idEx : JumpDecoded j.core.idEx
  exMem : JumpExecuted j.core.exMem j.target
  held : JumpOp j.core.exMem.opcode → j.core.heldChecker.mispredicted = false

section Decode

variable {i : CoreIn} {c : Core}

private theorem jumpDecoded_of_not_jump {q : IdEx} (other : ¬JumpOp q.opcode) : JumpDecoded q := by
  constructor
  · exact fun jal => absurd (Or.inl jal) other
  · exact fun jalr => absurd (Or.inr jalr) other

private theorem jumpExecuted_of_not_jump {q : ExMem} {target : Rv32iWord}
    (other : ¬JumpOp q.opcode) :
    JumpExecuted q target := by
  constructor
  · exact fun jal => absurd (Or.inl jal) other
  · exact fun jalr => absurd (Or.inr jalr) other

private theorem jumpDecoded_decoded (c : Core) : JumpDecoded c.decoded := by
  constructor
  · intro jal
    have op : opcodeOf c.ifId.instrMemRdata = opJal := jal
    have rs1 : c.decoded.rs1Id = 0#5 := by
      show rs1Id c.ifId.instrMemRdata = 0#5
      rw [rs1Id, op]
      rfl
    have rs2 : c.decoded.rs2Id = 0#5 := by
      show rs2Id c.ifId.instrMemRdata = 0#5
      rw [rs2Id, op]
      rfl
    have word : c.decoded.cntrlWord =
        setControlWord opJal .aluOut (funct3Of c.ifId.instrMemRdata) .rs2Out .aluAdd .pcOut .jImm
          false false true .pcPlus4 := by
      show wordGenerator _ (opcodeOf c.ifId.instrMemRdata) _ _ = _
      rw [op]
      rfl
    rw [word]
    exact ⟨rs1, rs2, rfl, rfl, rfl, rfl⟩
  · intro jalr
    have op : opcodeOf c.ifId.instrMemRdata = opJalr := jalr
    have rs2 : c.decoded.rs2Id = 0#5 := by
      show rs2Id c.ifId.instrMemRdata = 0#5
      rw [rs2Id, op]
      rfl
    have word : c.decoded.cntrlWord =
        setControlWord opJalr .aluMod2 (funct3Of c.ifId.instrMemRdata) .rs2Out .aluAdd .rs1Out
          .iImm false false true .pcPlus4 := by
      show wordGenerator _ (opcodeOf c.ifId.instrMemRdata) _ _ = _
      rw [op]
      rfl
    rw [word]
    exact ⟨rs2, rfl, rfl, rfl⟩

private theorem jumpExecuted_executed (decoded : JumpDecoded c.idEx) :
    JumpExecuted c.executed (jumpTarget c) := by
  constructor
  · intro jal
    have op : c.idEx.opcode = opJal := jal
    obtain ⟨rs1, rs2, add, sel1, sel2, pcmux⟩ := decoded.jal op
    have mux1 : c.forward.alumux1Sel = .pcOut := by
      simp [Core.forward, forwardingUnit, rs1, sel1]
    have mux2 : c.forward.alumux2Sel = .jImm := by
      simp [Core.forward, forwardingUnit, rs2, sel2]
    refine ⟨pcmux, ?_⟩
    rw [jumpTarget, if_pos op, Core.executed, execute, mux1, mux2, add]
    rfl
  · intro jalr
    have op : c.idEx.opcode = opJalr := jalr
    obtain ⟨rs2, add, sel2, pcmux⟩ := decoded.jalr op
    have other : c.idEx.opcode ≠ opJal := by
      rw [op]
      decide
    have mux2 : c.forward.alumux2Sel = .iImm := by
      simp [Core.forward, forwardingUnit, rs2, sel2]
    refine ⟨pcmux, ?_⟩
    rw [jumpTarget, if_neg other, Core.executed, execute, mux2, add]
    rfl

end Decode

section Step

variable {y : FetchIn} {j : Jumping}

private theorem not_jumpOp_imm : ¬JumpOp 0x13#7 := not_jumpOp_nop

private theorem held_next (running : y.rst = false)
    (held : JumpOp j.core.exMem.opcode → j.core.heldChecker.mispredicted = false)
    (jump : JumpOp (j.step y).core.exMem.opcode) :
    (j.step y).core.heldChecker.mispredicted = false := by
  have next : (j.step y).core.exMem = if (j.fetching.coreIn y).frozen then j.core.exMem
      else if j.core.checker.flush then clearedExMem 0x13#7 else j.core.executed :=
    next_exMem running
  show j.core.checker.mispredicted = false
  rw [next] at jump
  split_ifs at jump with frozen flush
  · rw [mispredicted_of_jump jump]
    exact held jump
  · exact absurd jump not_jumpOp_imm
  · exact mispredicted_of_not_flush (Bool.eq_false_iff.mpr flush)

theorem noStale_step (inv : NoStale j) (running : y.rst = false) : NoStale (j.step y) := by
  have idEx : (j.step y).core.idEx = if j.core.checker.flush then
        clearedIdEx zeroControlWord 0x13#7 j.core.idEx.brPred j.core.idEx.brPredPc
      else if (j.fetching.coreIn y).frozen then j.core.idEx
      else if j.core.loadUse then clearedIdEx nopControlWord 0x13#7 false 0#32
      else j.core.decoded := next_idEx running
  have exMem : (j.step y).core.exMem = if (j.fetching.coreIn y).frozen then j.core.exMem
      else if j.core.checker.flush then clearedExMem 0x13#7 else j.core.executed :=
    next_exMem running
  have target : (j.step y).target =
      if (j.fetching.coreIn y).frozen then j.target else jumpTarget j.core := rfl
  constructor
  · rw [idEx]
    split_ifs with flush frozen loadUse
    · exact jumpDecoded_of_not_jump not_jumpOp_imm
    · exact inv.idEx
    · exact jumpDecoded_of_not_jump not_jumpOp_imm
    · exact jumpDecoded_decoded j.core
  · rw [exMem, target]
    split_ifs with frozen flush
    · exact inv.exMem
    · exact jumpExecuted_of_not_jump not_jumpOp_imm
    · exact jumpExecuted_executed inv.idEx
  · exact held_next running inv.held

end Step

section Reset

variable {n : Nat} {y : FetchIn} {j : Jumping}

structure ResetOpcodes (n : Nat) (c : Core) : Prop where
  first : 1 ≤ n → c.ifId.instrMemRdata = nopWord
  second : 2 ≤ n → c.idEx.opcode = 0x13#7
  third : 3 ≤ n → c.exMem.opcode = 0x13#7

private theorem resetOpcodes_step (h : ResetOpcodes n j.core) (rst : y.rst = true) :
    ResetOpcodes (n + 1) (j.step y).core := by
  have rst' : (j.fetching.coreIn y).rst = true := rst
  have ifId : (j.step y).core.ifId = _ := reset_ifId rst' j.core
  have idEx : (j.step y).core.idEx = _ := reset_idEx rst' j.core
  have exMem : (j.step y).core.exMem = _ := reset_exMem rst' j.core
  constructor
  · intro _
    rw [ifId]
  · intro two
    have nop := h.first (by omega)
    rw [idEx, nop]
    rfl
  · intro three
    have idle := h.second (by omega)
    rw [exMem, idle]
    rfl

theorem resetOpcodes_run {resets : List FetchIn} (h : ResetOpcodes n j.core)
    (rst : ∀ y ∈ resets, y.rst = true) :
    ResetOpcodes (n + resets.length) (run Jumping.step j resets).core := by
  induction resets generalizing j n with
  | nil => exact h
  | cons y ys ih =>
    rw [List.length_cons, Nat.add_comm ys.length, ← Nat.add_assoc]
    apply ih
    · exact resetOpcodes_step h (rst y List.mem_cons_self)
    · intro z mem
      exact rst z (List.mem_cons_of_mem y mem)

private theorem noStale_reset {resets : List FetchIn} (rst : ∀ y ∈ resets, y.rst = true)
    (enough : 3 ≤ resets.length) (j : Jumping) : NoStale (run Jumping.step j resets) := by
  have none : ResetOpcodes 0 j.core := ⟨by omega, by omega, by omega⟩
  have settled := resetOpcodes_run none rst
  rw [Nat.zero_add] at settled
  have idEx := settled.second (by omega)
  have exMem := settled.third enough
  have noJump : ¬JumpOp (run Jumping.step j resets).core.exMem.opcode := by
    rw [exMem]
    exact not_jumpOp_imm
  constructor
  · apply jumpDecoded_of_not_jump
    rw [idEx]
    exact not_jumpOp_imm
  · exact jumpExecuted_of_not_jump noJump
  · exact fun jump => absurd jump noJump

end Reset

/-- A jump in EX/MEM is not diverted. -/
structure Undiverted (y : FetchIn) (j : Jumping) : Prop where
  held : j.core.heldChecker.mispredicted = false
  mispredicted : j.core.checker.mispredicted = false
  pcSel : j.fetching.pcSel y = j.target

private theorem undiverted_of_noStale {y : FetchIn} {j : Jumping} (inv : NoStale j)
    (jump : JumpOp j.core.exMem.opcode) : Undiverted y j := by
  have held := inv.held jump
  have shown : j.core.checker.mispredicted = false := by
    rw [mispredicted_of_jump jump]
    exact held
  have flush : j.core.checker.flush = true := flush_of_jump jump
  refine ⟨held, shown, ?_⟩
  have sel : j.fetching.pcSel y = pcmuxOut false true j.core.exMem.cntrlWord.pcmuxSel
      j.fetching.pc j.core.exMem.aluVal (j.fetching.brPredPc y) := by
    show pcSelOut _ j.core.checker.flush j.core.checker.mispredicted _ _ _ _ _ = _
    rw [pcSelOut, flush, shown]
    rfl
  rw [sel]
  rcases jump with jal | jalr
  · obtain ⟨pcmux, value⟩ := inv.exMem.jal jal
    rw [pcmux]
    exact value
  · obtain ⟨pcmux, value⟩ := inv.exMem.jalr jalr
    rw [pcmux]
    exact value

/-- From a reset of three cycles on, for every fetched word, every prediction and every pattern
of misses, a jump in EX/MEM meets no held misprediction and goes to its own target. -/
theorem jump_never_diverted (j : Jumping) (resets cycles : List FetchIn)
    (rst : ∀ y ∈ resets, y.rst = true) (enough : 3 ≤ resets.length)
    (running : ∀ y ∈ cycles, y.rst = false) :
    Along Jumping.step (fun y j => JumpOp j.core.exMem.opcode → Undiverted y j)
      (run Jumping.step j resets) cycles := by
  have keep (y : FetchIn) (j : Jumping) (inv : NoStale j) (running : y.rst = false) :
      NoStale (j.step y) := noStale_step inv running
  have shows (y : FetchIn) (j : Jumping) (inv : NoStale j) (_ : y.rst = false) :
      JumpOp j.core.exMem.opcode → Undiverted y j := undiverted_of_noStale inv
  have start := noStale_reset rst enough j
  have admitted : Along Jumping.step (fun y _ => y.rst = false) (run Jumping.step j resets)
      cycles := along_of_mem _ running
  exact along_invariant keep shows start admitted

/-- A `bne x0, x0, +16` that training makes predicted taken sets `mispredicted`; the
`jal x0, +16` at `0x68`, which is fetched next, still goes to `0x78`. -/
theorem jump_never_diverted_after_branch :
    let train : FetchIn :=
      { fetching nopWord with load := true, brTaken := true, pcMemStage := 0x65#32 }
    let nop := fetching nopWord
    let resets := List.replicate 3 resetIn
    let before := [train, fetching 0x00001863#32, nop, nop, nop]
    let after := [fetching 0x0100006f#32, nop, nop]
    let j := run Jumping.step ⟨poweredUpFetching, 0#32⟩ resets
    let last := run Jumping.step j (before ++ after)
    (run Jumping.step j before).core.heldChecker.mispredicted = true ∧
      last.core.exMem.opcode = opJal ∧ last.fetching.pcSel nop = 0x78#32 ∧ Undiverted nop last := by
  intro train nop resets before after j last
  have along := jump_never_diverted ⟨poweredUpFetching, 0#32⟩ resets (before ++ after ++ [nop])
    (by decide) (by decide) (by decide)
  rw [along_append] at along
  have jump : last.core.exMem.opcode = opJal := by decide
  refine ⟨by decide, jump, by decide, along.2.1 (Or.inl jump)⟩

end Mp4.Cpu.StaleMispredict
