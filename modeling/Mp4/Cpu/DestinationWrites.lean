import Mp4.Cpu.ControlFlow

/-!
A destination id against the write enable that travels beside it. The two come from different
case statements and are cleared by different constants; the read ports of `regfile` and the
store-data bypass look at the first and not at the second.
-/

set_option autoImplicit false
set_option relaxedAutoImplicit false

namespace Mp4.Cpu.DestinationWrites

open Mp4.Cpu.Rv32iTypes Mp4.Cpu.PipelineRegs Mp4.Cpu.InstrDecode Mp4.Cpu.Isa Mp4.Cpu.DecodeSpec
open Mp4.Cpu.Execute Mp4.Cpu.MemStage Mp4.Cpu.Pipeline
open Mp4.Cpu.ControlFlow Mp4.Lib.Clocked

/-- In each of the three registers a destination id other than zero is one that is written;
IF/ID holds a word that will keep it so. -/
structure WritesDest (c : Core) : Prop where
  ifId : Supported c.ifId.instrMemRdata
  idEx : c.idEx.regDest ≠ 0#5 → c.idEx.cntrlWord.writeReg = true
  exMem : c.exMem.regDest ≠ 0#5 → c.exMem.cntrlWord.writeReg = true
  memWb : c.memWb.regDest ≠ 0#5 → c.memWb.cntrlWord.writeReg = true

def LoadsSupported (i : CoreIn) (c : Core) : Prop :=
  i.rst = false → i.flush = false → (c.hazards i.iCacheMiss i.dCacheMiss).stallIfId = false →
    Supported i.fetched.instrMemRdata

def written (c : Core) : Regs :=
  regfileNext false c.memWb.cntrlWord.writeReg c.regs c.regfilemux c.memWb.regDest

/-- The two consumers deliver what is being written: a read port in its transparent case, and
the bypass from MEM/WB to the data of a store. -/
structure DeliversWritten (c : Core) : Prop where
  transparent : ∀ src, src = c.memWb.regDest ∧ c.memWb.regDest ≠ 0#5 →
    c.memWb.cntrlWord.writeReg = true ∧ c.readPort src = c.regfilemux
  port : ∀ src, c.readPort src = readReg (written c) src
  bypass : c.forward.rs2passmuxSel = .dataFromMemwb →
    c.memWb.cntrlWord.writeReg = true ∧ c.idEx.rs2Id = c.memWb.regDest ∧
      c.executed.reg2 = readReg (written c) c.idEx.rs2Id

section Step

variable {i : CoreIn} {c : Core}

private theorem writeReg_of_rdOut {w : Rv32iWord} (held : Rv32iControlWord)
    (supported : Supported w) (dest : rdOut w ≠ 0#5) : (controlWordOut held w).writeReg = true := by
  obtain ⟨i, enc⟩ := encodes_of_supported supported
  rw [controlWordOut_encodes held enc]
  rw [rdOut_encodes enc] at dest
  cases i with
  | branch | store => exact absurd rfl dest
  | lui | auipc | jal | jalr | load | arithImm | arith => rfl

private theorem supported_nop : Supported nopWord := by decide

private theorem writesDest_reset (rst : i.rst = true) (c : Core) : WritesDest (c.next i) := by
  constructor
  · rw [reset_ifId rst]
    exact supported_nop
  · rw [reset_idEx rst]
    exact fun dest => absurd rfl dest
  · rw [reset_exMem rst]
    exact fun dest => absurd rfl dest
  · exact fun dest => absurd (reset_memWb rst c) dest

theorem writesDest_next (inv : WritesDest c) (loads : LoadsSupported i c) :
    WritesDest (c.next i) := by
  cases running : i.rst with
  | true => exact writesDest_reset running c
  | false =>
    have stalls := stallIfId_eq i c
    constructor
    · rw [next_ifId running]
      split_ifs with flush held
      · exact supported_nop
      · exact inv.ifId
      · apply loads running (Bool.eq_false_iff.mpr flush)
        rw [stalls]
        exact Bool.eq_false_iff.mpr held
    · rw [next_idEx running]
      split_ifs with flush frozen loadUse
      · exact fun dest => absurd rfl dest
      · exact inv.idEx
      · exact fun dest => absurd rfl dest
      · exact writeReg_of_rdOut c.heldCtrl inv.ifId
    · rw [next_exMem running]
      split_ifs with frozen flush
      · exact inv.exMem
      · exact fun dest => absurd rfl dest
      · exact inv.idEx
    · rw [next_memWb running]
      split_ifs with frozen
      · exact inv.memWb
      · exact inv.exMem

private theorem readPort_written (memWb : c.memWb.regDest ≠ 0#5 → c.memWb.cntrlWord.writeReg = true)
    (src : Rv32iReg) : c.readPort src = readReg (written c) src := by
  unfold Core.readPort regfileRead readReg written regfileNext
  by_cases dest : c.memWb.regDest = 0#5
  · simp [dest]
  · have write := memWb dest
    by_cases same : src = c.memWb.regDest
    · simp [same, dest, write]
    · simp [same, dest, write, Function.update]

private theorem dest_of_bypass (bypass : c.forward.rs2passmuxSel = .dataFromMemwb) :
    c.memWb.regDest = c.idEx.rs2Id ∧ c.idEx.rs2Id ≠ 0#5 := by
  simp only [Core.forward, forwardingUnit] at bypass
  split_ifs at bypass with mem
  exact ⟨mem.2.2.1, mem.2.2.2⟩

private theorem WritesDest.delivers (inv : WritesDest c) : DeliversWritten c := by
  have port := readPort_written inv.memWb
  have transparent : ∀ src, src = c.memWb.regDest ∧ c.memWb.regDest ≠ 0#5 →
      c.memWb.cntrlWord.writeReg = true ∧ c.readPort src = c.regfilemux := by
    intro src same
    exact ⟨inv.memWb same.2, if_pos same⟩
  refine ⟨transparent, port, fun bypass => ?_⟩
  obtain ⟨dest, nonzero⟩ := dest_of_bypass bypass
  obtain ⟨write, delivered⟩ := transparent c.idEx.rs2Id ⟨dest.symm, dest ▸ nonzero⟩
  refine ⟨write, dest.symm, ?_⟩
  have reg2 : c.executed.reg2 = c.regfilemux := by
    simp only [Core.executed, execute, bypass, rs2passmux]
  rw [reg2, ← delivered]
  exact port c.idEx.rs2Id

end Step

/-- From a cycle of reset on, in every run of the pipeline that loads supported words, whatever
the misses, the load-use bubbles and the flushes, a destination id other than zero is one that
is written, and neither the read ports nor the store-data bypass deliver anything else than
the value that is being written. -/
theorem destination_writes (c : Core) (reset : CoreIn) (rst : reset.rst = true)
    (cycles : List CoreIn) (loads : Along Core.next LoadsSupported (c.next reset) cycles) :
    let c' := run Core.next (c.next reset) cycles
    (c'.idEx.regDest ≠ 0#5 → c'.idEx.cntrlWord.writeReg = true) ∧
    (c'.exMem.regDest ≠ 0#5 → c'.exMem.cntrlWord.writeReg = true) ∧
    (c'.memWb.regDest ≠ 0#5 → c'.memWb.cntrlWord.writeReg = true) ∧
    DeliversWritten c' := by
  have keep (i : CoreIn) (c : Core) (inv : WritesDest c) (loads : LoadsSupported i c) :
      WritesDest (c.next i) := writesDest_next inv loads
  have start := writesDest_reset rst c
  have inv := run_invariant keep start loads
  exact ⟨inv.idEx, inv.exMem, inv.memWb, inv.delivers⟩

def offering (word : Rv32iWord) : CoreIn :=
  ⟨false, false, false, false, ⟨0#32, word, false, 0#32⟩, 7#32⟩

theorem destination_writes_bypass :
    let cycles := [offering 0x00002083#32, offering nopWord, offering 0x00102023#32,
      offering nopWord]
    let c := run Core.next (poweredUp.core.next { offering nopWord with rst := true }) cycles
    c.memWb.regDest = 1#5 ∧ c.forward.rs2passmuxSel = .dataFromMemwb ∧ DeliversWritten c := by
  intro cycles c
  have supported : ∀ i ∈ cycles, Supported i.fetched.instrMemRdata := by decide
  have loads : Along Core.next LoadsSupported
      (poweredUp.core.next { offering nopWord with rst := true }) cycles := by
    refine ⟨?_, ?_, ?_, ?_, trivial⟩
    all_goals
      intro _ _ _
      apply supported
      simp [cycles]
  exact ⟨by decide, by decide, (destination_writes _ _ rfl cycles loads).2.2.2⟩

end Mp4.Cpu.DestinationWrites
