import Mp4.Cpu.SingleInstruction
import Mp4.Cpu.StoreLanes
import Mp4.Memory.FourWay.Moves

/-!
Sub-word accesses end to end: a store from `mem_stage` through the bus adapter into the
masked write of the data array, and a load from the line through the bus adapter and
`writeback_stage`.
-/

set_option autoImplicit false
set_option relaxedAutoImplicit false

namespace Mp4.Memory.SubWord

open Mp4.Cpu.Rv32iTypes Mp4.Cpu.PipelineRegs Mp4.Cpu.MemStage Mp4.Cpu.Isa Mp4.Cpu.DecodeSpec
open Mp4.Cpu.StoreLanes Mp4.Cpu.SingleInstruction Mp4.Lib.Bits Mp4.Memory.Address
open Mp4.Memory.FourWay.Datapath Mp4.Memory.FourWay.Cache Mp4.Memory.FourWay.Refinement

def lineOffset (address : Word) : Nat := address.toNat % 32

def bytesAt (line : Line) (address : Word) (size : Nat) : BitVec (8 * size) :=
  line.extractLsb' (8 * lineOffset address) (8 * size)

def extend (op : LoadOp) (bytes : BitVec (8 * op.size)) : Word :=
  match op with
  | .lb | .lh => bytes.signExtend 32
  | .lbu | .lhu | .lw => bytes.setWidth 32

/-- What `mem_stage` asks of the data cache for the store in EX/MEM. -/
def storeRequest (held : BitVec 4) (sel : CachemuxSel) (rDataMemWb : Word) (q : ExMem) :
    Request where
  read := false
  write := true
  address := q.aluVal
  wdata := wdataOut sel rDataMemWb q
  byteEnable := memByteEnable held q

/-- The data array after the masked write of a request in set `s`. -/
def afterWrite {n : Nat} (r : Request) (s : BitVec n) (data : BitVec n → Line) :
    BitVec n → Line :=
  dataArrayNext (memByteEnable256 r.byteEnable r.address) s (memWdata256 r.wdata) data

private theorem lineOffset_eq (address : Word) :
    lineOffset address = (address.extractLsb' 2 3 ++ 0#2).toNat + address.toNat % 4 := by
  rw [base_eq, BitVec.extractLsb'_toNat, Nat.shiftRight_eq_div_pow, lineOffset]
  omega

private theorem slice_writeWord (line : Line) (address wdata : Word) (byteEnable : BitVec 4)
    {i : Nat} (inside : i < 32) :
    slice 8 (writeWord line address wdata byteEnable) i =
      if (address.extractLsb' 2 3 ++ 0#2).toNat ≤ i ∧
          byteEnable.getLsbD (i - (address.extractLsb' 2 3 ++ 0#2).toNat) = true then
        slice 8 wdata (i - (address.extractLsb' 2 3 ++ 0#2).toNat)
      else slice 8 line i := by
  unfold writeWord
  generalize (address.extractLsb' 2 3 ++ 0#2).toNat = base
  ext b hb
  have byte : (8 * i + b) / 8 = i := by omega
  have bound : 8 * i + b < 256 := by omega
  rw [slice, BitVec.getElem_extractLsb', BitVec.getLsbD_eq_getElem bound, getElem_ofBits]
  simp only [byte]
  split_ifs with enabled
  · have bit : 8 * i + b - 8 * base = 8 * (i - base) + b := by omega
    rw [slice, BitVec.getElem_extractLsb', bit]
  · rw [slice, BitVec.getElem_extractLsb', BitVec.getLsbD_eq_getElem bound]
    rfl

section Store

variable {held : BitVec 4} {sel : CachemuxSel} {rDataMemWb : Word} {q : ExMem} {op : StoreOp}

private theorem slice_written (line : Line) (store : q.opcode = opStore)
    (kind : StoreOp.ofFunct3 q.funct3 = some op) (aligned : op.size ∣ q.aluVal.toNat) {i : Nat}
    (inside : i < 32) :
    slice 8 (written (storeRequest held sel rDataMemWb q) line) i =
      if lineOffset q.aluVal ≤ i ∧ i < lineOffset q.aluVal + op.size then
        slice 8 q.reg2 (i - lineOffset q.aluVal)
      else slice 8 line i := by
  have offset : lineOffset q.aluVal = _ + lane q := lineOffset_eq q.aluVal
  have enable := memByteEnable_lane held store kind aligned
  rw [written_eq]
  show slice 8 (writeWord line q.aluVal (wdataOut sel rDataMemWb q) (memByteEnable held q)) i = _
  simp only [slice_writeWord _ _ _ _ inside, offset, enable]
  generalize (q.aluVal.extractLsb' 2 3 ++ 0#2).toNat = base
  by_cases here : base + lane q ≤ i ∧ i < base + lane q + op.size
  · have enabled : base ≤ i ∧ decide (lane q ≤ i - base ∧ i - base < lane q + op.size) = true := by
      rw [decide_eq_true_eq]
      omega
    have byte : i - (base + lane q) < op.size := by omega
    have lanes : i - base = lane q + (i - (base + lane q)) := by omega
    rw [if_pos enabled, if_pos here, lanes, wdataOut_lane sel rDataMemWb store kind aligned byte]
  · have disabled :
        ¬(base ≤ i ∧ decide (lane q ≤ i - base ∧ i - base < lane q + op.size) = true) := by
      rw [decide_eq_true_eq]
      omega
    rw [if_neg disabled, if_neg here]

end Store

private theorem regfilemuxOut_line (line : Line) {op : LoadOp} {m : MemWb}
    (select : m.cntrlWord.regfilemuxSel = loadSel op) (aligned : op.size ∣ m.aluVal.toNat)
    (read : m.rData = memRdata line m.aluVal) :
    regfilemuxOut m = extend op (bytesAt line m.aluVal op.size) := by
  have offset := lineOffset_eq m.aluVal
  have within : m.aluVal.toNat % 4 + op.size ≤ 4 := by
    cases op <;> simp only [LoadOp.size] at * <;> omega
  have unit : m.rData.extractLsb' (op.bit m.aluVal) (8 * op.size) =
      bytesAt line m.aluVal op.size := by
    rw [read, memRdata_eq, readWord, LoadOp.bit_of_aligned aligned, bytesAt, offset]
    ext i hi
    grind
  rw [load_value op m select, ← unit]
  cases op with
  | lw =>
    have word : LoadOp.lw.bit m.aluVal = 0 := by
      rw [LoadOp.bit_of_aligned aligned]
      have here : m.aluVal.toNat % 4 = 0 := Nat.mod_eq_zero_of_dvd aligned
      rw [here]
    rw [word]
    show m.rData = (m.rData.extractLsb' 0 32).setWidth 32
    ext i hi
    grind
  | _ => rfl

/-- The law of sub-word stores and loads: of the data array a store changes the set it is
written to, in that set the addressed bytes, and every aligned load of the resulting line
extends the bytes it addresses. -/
theorem subWord_law {n : Nat} (s : BitVec n) (data : BitVec n → Line) (held : BitVec 4)
    (sel : CachemuxSel) (rDataMemWb : Word) (q : ExMem) (op : StoreOp)
    (store : q.opcode = opStore) (kind : StoreOp.ofFunct3 q.funct3 = some op)
    (aligned : op.size ∣ q.aluVal.toNat) :
    let after := afterWrite (storeRequest held sel rDataMemWb q) s data
    (∀ i < 32, slice 8 (after s) i =
      if lineOffset q.aluVal ≤ i ∧ i < lineOffset q.aluVal + op.size then
        slice 8 q.reg2 (i - lineOffset q.aluVal)
      else slice 8 (data s) i) ∧
    (∀ t, t ≠ s → after t = data t) ∧
    ∀ (m : MemWb) (load : LoadOp), m.cntrlWord.regfilemuxSel = loadSel load →
      load.size ∣ m.aluVal.toNat → m.rData = memRdata (after s) m.aluVal →
      regfilemuxOut m = extend load (bytesAt (after s) m.aluVal load.size) := by
  intro after
  have here : after s = written (storeRequest held sel rDataMemWb q) (data s) :=
    Function.update_self s _ data
  refine ⟨?_, ?_, ?_⟩
  · intro i inside
    rw [here]
    exact slice_written (data s) store kind aligned inside
  · intro t other
    exact Function.update_of_ne other _ data
  · intro m load select aligned' read
    exact regfilemuxOut_line (after s) select aligned' read

def storingHalf : ExMem where
  regPc := 0x60#32
  uImm := 0#32
  reg2 := 0xdeadbeef#32
  regDest := 0#5
  cmpVal := false
  aluVal := 14#32
  cntrlWord := zeroControlWord
  funct3 := sh
  opcode := opStore
  rs2Id := 1#5
  brPredTaken := false

def loadingHalf (line : Line) : MemWb where
  uImm := 0#32
  regDest := 2#5
  regPc := 0x64#32
  aluVal := 14#32
  cmpVal := false
  cntrlWord := { zeroControlWord with regfilemuxSel := .lh }
  rData := memRdata line 14#32
  opcode := opLoad

theorem subWord_law_half :
    let after := afterWrite (storeRequest 0#4 .rs2OutExMem 0#32 storingHalf) 0#3 fun _ => 0#256
    slice 8 (after 0#3) 15 = 0xbe#8 ∧
      regfilemuxOut (loadingHalf (after 0#3)) = extend .lh (bytesAt (after 0#3) 14#32 2) := by
  intro after
  obtain ⟨bytes, -, loads⟩ := subWord_law 0#3 (fun _ => 0#256) 0#4 .rs2OutExMem 0#32 storingHalf
    .sh rfl rfl (by decide)
  exact ⟨(bytes 15 (by decide)).trans (by decide), loads (loadingHalf (after 0#3)) .lh rfl
    (by decide) rfl⟩

end Mp4.Memory.SubWord
