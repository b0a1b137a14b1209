import Mp4.Cpu.DestinationWrites
import Mp4.Cpu.StoreLanes
import Mp4.Cpu.Unpipelined

/-!
Write-back to memory forwarding of store data: the select that `forwardingunit`
computes against the word that `mem_stage` puts on `wdata_out`. At the ports of the two
modules they disagree; in the pipeline a store meets the load it follows one stage earlier.
-/

set_option autoImplicit false
set_option relaxedAutoImplicit false

namespace Mp4.Cpu.StoreForwarding

open Mp4.Cpu.Rv32iTypes Mp4.Cpu.PipelineRegs Mp4.Cpu.InstrDecode Mp4.Cpu.Execute
open Mp4.Cpu.MemStage Mp4.Cpu.Isa Mp4.Cpu.DecodeSpec Mp4.Cpu.SingleInstruction
open Mp4.Cpu.StoreLanes Mp4.Cpu.Unpipelined Mp4.Cpu.Pipeline Mp4.Cpu.DataInvariant
open Mp4.Cpu.DestinationWrites
open Mp4.Cpu.ControlFlow (poweredUp)
open Mp4.Lib.Bits Mp4.Lib.Clocked

/-- The instruction in MEM/WB writes loaded data to its destination. -/
def IsLoad (m : MemWb) : Prop := m.cntrlWord.readMem = true ∧ m.cntrlWord.writeReg = true

/-- The bytes that a store sends are those of `value`: the addressed lanes of its kind, and
the whole word for a code that is no store kind, which nothing rearranges. -/
def BytesFrom (q : ExMem) (value wdata : Rv32iWord) : Prop :=
  match StoreOp.ofFunct3 q.funct3 with
  | some op => ∀ j < op.size, slice 8 wdata (lane q + j) = slice 8 value j
  | none => wdata = value

def Aligned (q : ExMem) : Prop :=
  ∀ op, StoreOp.ofFunct3 q.funct3 = some op → op.size ∣ q.aluVal.toNat

/-- The select follows the load exactly, and whenever it does so do the bytes, over all
loaded data and all register values. -/
def Agrees (sel : CachemuxSel) (q : ExMem) (m : MemWb) : Prop :=
  (sel = .rDataMemWb ↔ IsLoad m ∧ m.regDest = q.rs2Id ∧ q.rs2Id ≠ 0#5) ∧
  (sel = .rDataMemWb → ∀ rData rs2Data,
    BytesFrom q rData (wdataOut sel rData { q with reg2 := rs2Data }))

section Ports

variable {q : ExMem}

end Ports

/-- A load that a store has to follow is never right in front of it: not in EX/MEM while the
store is in ID/EX, and so not in MEM/WB while it is in EX/MEM. -/
structure Apart (c : Core) : Prop where
  idEx : c.idEx.cntrlWord.writeMem = true → c.exMem.cntrlWord.readMem = true →
    c.exMem.regDest ≠ c.idEx.rs2Id
  exMem : c.exMem.cntrlWord.writeMem = true → c.memWb.cntrlWord.readMem = true →
    c.memWb.regDest ≠ c.exMem.rs2Id

section Step

variable {i : CoreIn} {c : Core}

private theorem Apart.select (apart : Apart c) (store : c.exMem.cntrlWord.writeMem = true) :
    c.forward.cachemuxSel = .rs2OutExMem := by
  refine if_neg ?_
  rintro ⟨-, ⟨load, -⟩, same⟩
  exact apart.exMem store load same.symm

private theorem Apart.agrees (apart : Apart c) (store : c.exMem.cntrlWord.writeMem = true) :
    Agrees c.forward.cachemuxSel c.exMem c.memWb := by
  rw [apart.select store]
  have kept : CachemuxSel.rs2OutExMem ≠ .rDataMemWb := by decide
  refine ⟨⟨fun taken => absurd taken kept, fun load => ?_⟩, fun taken => absurd taken kept⟩
  exact absurd load.2.1 (apart.exMem store load.1.1)

private theorem resetFor_run {resets : List CoreIn} (rst : ∀ i ∈ resets, i.rst = true) (c : Core) :
    ResetFor resets.length (run Core.next c resets) := by
  have fresh : ResetFor 0 c := ⟨by omega, by omega, by omega⟩
  have keep (n : Nat) (i : CoreIn) (c : Core) (h : ResetFor n c) (rst : i.rst = true) :
      ResetFor (n + 1) (c.next i) := resetFor_next h rst
  have settles := run_counted keep fresh rst
  rwa [Nat.zero_add] at settles

end Step

end Mp4.Cpu.StoreForwarding
