import Mathlib.Data.Option.Basic
import Mathlib.Logic.Function.Basic
import Mp4.Cpu.Rv32iTypes

/-!
The RV32I instructions that the processor supports and what each of them does,
stated from the instruction set and not from the hardware.
-/

set_option autoImplicit false
set_option relaxedAutoImplicit false

namespace Mp4.Cpu.Isa

open Mp4.Cpu.Rv32iTypes

inductive BranchOp
  | beq | bne | blt | bge | bltu | bgeu
  deriving DecidableEq, Repr

inductive LoadOp
  | lb | lh | lw | lbu | lhu
  deriving DecidableEq, Repr

inductive StoreOp
  | sb | sh | sw
  deriving DecidableEq, Repr

inductive ArithOp
  | add | sub | sll | slt | sltu | xor | srl | sra | or | and
  deriving DecidableEq, Repr

/-- A decoded instruction; immediates are already extended to 32 bits. -/
inductive Instr
  | lui (rd : Rv32iReg) (imm : Rv32iWord)
  | auipc (rd : Rv32iReg) (imm : Rv32iWord)
  | jal (rd : Rv32iReg) (imm : Rv32iWord)
  | jalr (rd rs1 : Rv32iReg) (imm : Rv32iWord)
  | branch (op : BranchOp) (rs1 rs2 : Rv32iReg) (imm : Rv32iWord)
  | load (op : LoadOp) (rd rs1 : Rv32iReg) (imm : Rv32iWord)
  | store (op : StoreOp) (rs1 rs2 : Rv32iReg) (imm : Rv32iWord)
  | arithImm (op : ArithOp) (rd rs1 : Rv32iReg) (imm : Rv32iWord)
  | arith (op : ArithOp) (rd rs1 rs2 : Rv32iReg)
  deriving DecidableEq, Repr

def BranchOp.ofFunct3 (f : Funct3) : Option BranchOp :=
  if f = 0#3 then some .beq
  else if f = 1#3 then some .bne
  else if f = 4#3 then some .blt
  else if f = 5#3 then some .bge
  else if f = 6#3 then some .bltu
  else if f = 7#3 then some .bgeu
  else none

def LoadOp.ofFunct3 (f : Funct3) : Option LoadOp :=
  if f = 0#3 then some .lb
  else if f = 1#3 then some .lh
  else if f = 2#3 then some .lw
  else if f = 4#3 then some .lbu
  else if f = 5#3 then some .lhu
  else none

def StoreOp.ofFunct3 (f : Funct3) : Option StoreOp :=
  if f = 0#3 then some .sb
  else if f = 1#3 then some .sh
  else if f = 2#3 then some .sw
  else none

/-- Register-immediate arithmetic; only the shifts constrain `funct7`. -/
def ArithOp.ofImm (f : Funct3) (g : BitVec 7) : Option ArithOp :=
  if f = 0#3 then some .add
  else if f = 1#3 then if g = 0#7 then some .sll else none
  else if f = 2#3 then some .slt
  else if f = 3#3 then some .sltu
  else if f = 4#3 then some .xor
  else if f = 5#3 then if g = 0#7 then some .srl else if g = 0x20#7 then some .sra else none
  else if f = 6#3 then some .or
  else some .and

def ArithOp.ofReg (f : Funct3) (g : BitVec 7) : Option ArithOp :=
  if g = 0#7 then
    if f = 0#3 then some .add
    else if f = 1#3 then some .sll
    else if f = 2#3 then some .slt
    else if f = 3#3 then some .sltu
    else if f = 4#3 then some .xor
    else if f = 5#3 then some .srl
    else if f = 6#3 then some .or
    else some .and
  else if g = 0x20#7 then
    if f = 0#3 then some .sub else if f = 5#3 then some .sra else none
  else none

def immI (w : Rv32iWord) : Rv32iWord := (w.extractLsb' 20 12).signExtend 32
def immS (w : Rv32iWord) : Rv32iWord :=
  (w.extractLsb' 25 7 ++ w.extractLsb' 7 5).signExtend 32
def immB (w : Rv32iWord) : Rv32iWord :=
  (w.extractLsb' 31 1 ++ w.extractLsb' 7 1 ++ w.extractLsb' 25 6 ++ w.extractLsb' 8 4 ++
    0#1).signExtend 32
def immU (w : Rv32iWord) : Rv32iWord := w.extractLsb' 12 20 ++ 0#12
def immJ (w : Rv32iWord) : Rv32iWord :=
  (w.extractLsb' 31 1 ++ w.extractLsb' 12 8 ++ w.extractLsb' 20 1 ++ w.extractLsb' 21 10 ++
    0#1).signExtend 32

def decode (w : Rv32iWord) : Option Instr :=
  let opcode := w.extractLsb' 0 7
  let rd := w.extractLsb' 7 5
  let f := w.extractLsb' 12 3
  let rs1 := w.extractLsb' 15 5
  let rs2 := w.extractLsb' 20 5
  let g := w.extractLsb' 25 7
  if opcode = opLui then some (.lui rd (immU w))
  else if opcode = opAuipc then some (.auipc rd (immU w))
  else if opcode = opJal then some (.jal rd (immJ w))
  else if opcode = opJalr then if f = 0#3 then some (.jalr rd rs1 (immI w)) else none
  else if opcode = opBr then (BranchOp.ofFunct3 f).map fun o => .branch o rs1 rs2 (immB w)
  else if opcode = opLoad then (LoadOp.ofFunct3 f).map fun o => .load o rd rs1 (immI w)
  else if opcode = opStore then (StoreOp.ofFunct3 f).map fun o => .store o rs1 rs2 (immS w)
  else if opcode = opImm then (ArithOp.ofImm f g).map fun o => .arithImm o rd rs1 (immI w)
  else if opcode = opReg then (ArithOp.ofReg f g).map fun o => .arith o rd rs1 rs2
  else none

def Supported (w : Rv32iWord) : Prop := (decode w).isSome

instance (w : Rv32iWord) : Decidable (Supported w) := inferInstanceAs (Decidable (_ = true))

def BranchOp.taken : BranchOp → Rv32iWord → Rv32iWord → Bool
  | .beq, a, b => decide (a = b)
  | .bne, a, b => decide (a ≠ b)
  | .blt, a, b => decide (a.toInt < b.toInt)
  | .bge, a, b => decide (b.toInt ≤ a.toInt)
  | .bltu, a, b => decide (a.toNat < b.toNat)
  | .bgeu, a, b => decide (b.toNat ≤ a.toNat)

/-- Shifts use the low five bits of the second operand. -/
def ArithOp.eval : ArithOp → Rv32iWord → Rv32iWord → Rv32iWord
  | .add, a, b => a + b
  | .sub, a, b => a - b
  | .sll, a, b => a <<< (b.toNat % 32)
  | .slt, a, b => if a.toInt < b.toInt then 1#32 else 0#32
  | .sltu, a, b => if a.toNat < b.toNat then 1#32 else 0#32
  | .xor, a, b => a ^^^ b
  | .srl, a, b => a >>> (b.toNat % 32)
  | .sra, a, b => a.sshiftRight (b.toNat % 32)
  | .or, a, b => a ||| b
  | .and, a, b => a &&& b

def LoadOp.size : LoadOp → Nat
  | .lb | .lbu => 1
  | .lh | .lhu => 2
  | .lw => 4

def StoreOp.size : StoreOp → Nat
  | .sb => 1
  | .sh => 2
  | .sw => 4

/-- The offset, in the aligned word containing an address, of the naturally aligned
unit at that address. -/
def LoadOp.bit (op : LoadOp) (address : Rv32iWord) : Nat :=
  8 * (address.toNat % 4 - address.toNat % op.size)

theorem LoadOp.bit_of_aligned {op : LoadOp} {address : Rv32iWord}
    (aligned : op.size ∣ address.toNat) : op.bit address = 8 * (address.toNat % 4) := by
  rw [LoadOp.bit, Nat.mod_eq_zero_of_dvd aligned, Nat.sub_zero]

def LoadOp.value (op : LoadOp) (address word : Rv32iWord) : Rv32iWord :=
  match op with
  | .lb => (word.extractLsb' (op.bit address) 8).signExtend 32
  | .lbu => (word.extractLsb' (op.bit address) 8).setWidth 32
  | .lh => (word.extractLsb' (op.bit address) 16).signExtend 32
  | .lhu => (word.extractLsb' (op.bit address) 16).setWidth 32
  | .lw => word

/-- `x0` is never written. -/
def writeTo (rd : Rv32iReg) (value : Rv32iWord) : Option (Rv32iReg × Rv32iWord) :=
  if rd = 0#5 then none else some (rd, value)

/-- The register write of an instruction at `pc` with source values `a` and `b`;
`word` is the aligned memory word at a load's address. -/
def Instr.regWrite (i : Instr) (pc a b word : Rv32iWord) : Option (Rv32iReg × Rv32iWord) :=
  match i with
  | .lui rd imm => writeTo rd imm
  | .auipc rd imm => writeTo rd (pc + imm)
  | .jal rd _ => writeTo rd (pc + 4#32)
  | .jalr rd _ _ => writeTo rd (pc + 4#32)
  | .branch _ _ _ _ => none
  | .load op rd _ imm => writeTo rd (op.value (a + imm) word)
  | .store _ _ _ _ => none
  | .arithImm op rd _ imm => writeTo rd (op.eval a imm)
  | .arith op rd _ _ => writeTo rd (op.eval a b)

def applyWrite (regs : Rv32iReg → Rv32iWord) (write : Option (Rv32iReg × Rv32iWord)) :
    Rv32iReg → Rv32iWord :=
  match write with
  | none => regs
  | some (rd, value) => Function.update regs rd value

theorem applyWrite_twice (regs : Rv32iReg → Rv32iWord)
    (write : Option (Rv32iReg × Rv32iWord)) :
    applyWrite (applyWrite regs write) write = applyWrite regs write := by
  rcases write with _ | ⟨rd, value⟩
  · rfl
  · simp only [applyWrite, Function.update_idem]

inductive Access
  | read (address : Rv32iWord)
  | write (address : Rv32iWord)
  deriving DecidableEq, Repr

def Instr.access (i : Instr) (a : Rv32iWord) : Option Access :=
  match i with
  | .load _ _ _ imm => some (.read (a + imm))
  | .store _ _ _ imm => some (.write (a + imm))
  | _ => none

def Instr.successor (i : Instr) (pc a b : Rv32iWord) : Rv32iWord :=
  match i with
  | .jal _ imm => pc + imm
  | .jalr _ _ imm => (a + imm) &&& ~~~1#32
  | .branch op _ _ imm => if op.taken a b then pc + imm else pc + 4#32
  | _ => pc + 4#32

def Instr.isJump : Instr → Bool
  | .jal _ _ | .jalr _ _ _ => true
  | _ => false

/-- Whether fetch went elsewhere than the successor: after every jump, and after
a branch whose prediction differs from its outcome. -/
def Instr.redirects (i : Instr) (pred : Bool) (a b : Rv32iWord) : Bool :=
  match i with
  | .jal _ _ | .jalr _ _ _ => true
  | .branch op _ _ _ => pred != op.taken a b
  | _ => false

end Mp4.Cpu.Isa
