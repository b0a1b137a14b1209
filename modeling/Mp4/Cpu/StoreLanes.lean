import Mp4.Cpu.Isa
import Mp4.Cpu.MemStage
import Mp4.Lib.Bits

/-!
The byte lanes of a store on a naturally aligned address: which of the four lanes
`mem_byte_enable` selects and which bytes of `rs2` the rearranger puts there.
-/

set_option autoImplicit false
set_option relaxedAutoImplicit false

namespace Mp4.Cpu.StoreLanes

open Mp4.Cpu.Rv32iTypes Mp4.Cpu.PipelineRegs Mp4.Cpu.MemStage Mp4.Cpu.Isa Mp4.Lib.Bits

def lane (q : ExMem) : Nat := q.aluVal.toNat % 4

def storeFunct3 : StoreOp → Funct3
  | .sb => sb
  | .sh => sh
  | .sw => sw

section Lanes

variable {q : ExMem} {op : StoreOp}

theorem funct3_of_kind {f : Funct3} (kind : StoreOp.ofFunct3 f = some op) :
    f = storeFunct3 op := by
  unfold StoreOp.ofFunct3 at kind
  split_ifs at kind with b h w
  · cases kind
    exact b
  · cases kind
    exact h
  · cases kind
    exact w

private theorem lane_byte (q : ExMem) : lane q = (q.aluVal.extractLsb' 0 2).toNat := by
  simp [lane, BitVec.extractLsb'_toNat]

private theorem lane_half (aligned : 2 ∣ q.aluVal.toNat) :
    lane q = if q.aluVal.getLsbD 1 then 2 else 0 := by
  have upper : q.aluVal.getLsbD 1 = decide (lane q = 2) := by
    rw [BitVec.getLsbD, Nat.testBit_eq_decide_div_mod_eq, lane]
    simp only [decide_eq_decide]
    omega
  have even : lane q = 0 ∨ lane q = 2 := by
    rw [lane]
    omega
  rw [upper]
  rcases even with zero | two
  · simp [zero]
  · simp [two]

private theorem two_bits (l : BitVec 2) : l = 0b00#2 ∨ l = 0b01#2 ∨ l = 0b10#2 ∨ l = 0b11#2 := by
  revert l
  decide

private theorem memByteEnable_eq (held : BitVec 4) (store : q.opcode = opStore)
    (kind : StoreOp.ofFunct3 q.funct3 = some op) (aligned : op.size ∣ q.aluVal.toNat) :
    memByteEnable held q = (BitVec.allOnes op.size).setWidth 4 <<< lane q := by
  have funct3 := funct3_of_kind kind
  cases op with
  | sb =>
    rw [lane_byte, memByteEnable, store, funct3]
    rcases two_bits (q.aluVal.extractLsb' 0 2) with low | low | low | low <;> rw [low] <;> rfl
  | sh =>
    rw [lane_half aligned, memByteEnable, store, funct3]
    cases q.aluVal.getLsbD 1 <;> rfl
  | sw =>
    have zero : lane q = 0 := Nat.mod_eq_zero_of_dvd aligned
    rw [zero, memByteEnable, store, funct3]
    rfl

private theorem wdataOut_eq (sel : CachemuxSel) (rData : Rv32iWord) (store : q.opcode = opStore)
    (kind : StoreOp.ofFunct3 q.funct3 = some op) (aligned : op.size ∣ q.aluVal.toNat) :
    wdataOut sel rData q =
      (q.reg2.setWidth (8 * op.size)).setWidth 32 <<< (8 * lane q) := by
  have funct3 := funct3_of_kind kind
  cases op with
  | sb =>
    rw [lane_byte, wdataOut.eq_def, store, funct3]
    rcases two_bits (q.aluVal.extractLsb' 0 2) with low | low | low | low
    · rw [low]
      show 0#24 ++ q.reg2.extractLsb' 0 8 = (q.reg2.setWidth 8).setWidth 32 <<< 0
      ext i hi
      grind
    · rw [low]
      show 0#16 ++ q.reg2.extractLsb' 0 8 ++ 0#8 = (q.reg2.setWidth 8).setWidth 32 <<< 8
      ext i hi
      grind
    · rw [low]
      show 0#8 ++ q.reg2.extractLsb' 0 8 ++ 0#16 = (q.reg2.setWidth 8).setWidth 32 <<< 16
      ext i hi
      grind
    · rw [low]
      show q.reg2.extractLsb' 0 8 ++ 0#24 = (q.reg2.setWidth 8).setWidth 32 <<< 24
      ext i hi
      grind
  | sh =>
    rw [lane_half aligned, wdataOut.eq_def, store, funct3]
    cases q.aluVal.getLsbD 1 with
    | false =>
      show 0#16 ++ q.reg2.extractLsb' 0 16 = (q.reg2.setWidth 16).setWidth 32 <<< 0
      ext i hi
      grind
    | true =>
      show q.reg2.extractLsb' 0 16 ++ 0#16 = (q.reg2.setWidth 16).setWidth 32 <<< 16
      ext i hi
      grind
  | sw =>
    have zero : lane q = 0 := Nat.mod_eq_zero_of_dvd aligned
    rw [zero, wdataOut.eq_def, store, funct3]
    show q.reg2 = (q.reg2.setWidth 32).setWidth 32 <<< 0
    ext i hi
    grind

private theorem lane_add_size (aligned : op.size ∣ q.aluVal.toNat) : lane q + op.size ≤ 4 := by
  unfold lane
  cases op <;> simp only [StoreOp.size] at * <;> omega

theorem memByteEnable_lane (held : BitVec 4) (store : q.opcode = opStore)
    (kind : StoreOp.ofFunct3 q.funct3 = some op) (aligned : op.size ∣ q.aluVal.toNat) (j : Nat) :
    (memByteEnable held q).getLsbD j = decide (lane q ≤ j ∧ j < lane q + op.size) := by
  have room := lane_add_size aligned
  rw [memByteEnable_eq held store kind aligned, BitVec.getLsbD_shiftLeft, BitVec.getLsbD_setWidth,
    BitVec.getLsbD_allOnes]
  grind

theorem wdataOut_lane (sel : CachemuxSel) (rData : Rv32iWord) (store : q.opcode = opStore)
    (kind : StoreOp.ofFunct3 q.funct3 = some op) (aligned : op.size ∣ q.aluVal.toNat) {j : Nat}
    (inside : j < op.size) :
    slice 8 (wdataOut sel rData q) (lane q + j) = slice 8 q.reg2 j := by
  have room := lane_add_size aligned
  rw [wdataOut_eq sel rData store kind aligned]
  ext i hi
  simp only [slice, BitVec.getElem_extractLsb', BitVec.getLsbD_shiftLeft, BitVec.getLsbD_setWidth]
  grind

end Lanes

end Mp4.Cpu.StoreLanes
