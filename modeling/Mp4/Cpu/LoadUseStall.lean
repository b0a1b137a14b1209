import Mp4.Cpu.DecodeSpec

/-!
The load-use stall for a pair of supported words, the older in ID/EX and the younger in
decode, against the dependence of the two instructions.
-/

set_option autoImplicit false
set_option relaxedAutoImplicit false

namespace Mp4.Cpu.LoadUseStall

open Mp4.Cpu.Rv32iTypes Mp4.Cpu.InstrDecode Mp4.Cpu.Isa Mp4.Cpu.DecodeSpec

/-- The register is one that the instruction reads as `rs1` or `rs2`. -/
def Reads (j : Instr) (r : Rv32iReg) : Prop :=
  match j with
  | .lui _ _ | .auipc _ _ | .jal _ _ => False
  | .jalr _ rs1 _ | .load _ _ rs1 _ | .arithImm _ _ rs1 _ => r = rs1
  | .branch _ rs1 rs2 _ | .store _ rs1 rs2 _ | .arith _ _ rs1 rs2 => r = rs1 ∨ r = rs2

/-- The younger instruction reads what the older, a load, has yet to fetch. -/
def Waits (i j : Instr) : Prop :=
  match i with
  | .load _ rd _ _ => rd ≠ 0#5 ∧ Reads j rd
  | _ => False

def LoadsX0 (i : Instr) : Prop :=
  match i with
  | .load _ rd _ _ => rd = 0#5
  | _ => False

def waiting : Stall where
  pcStall := true
  stallIfId := true
  stallIdEx := true
  stallExMem := false
  stallMemWb := false
  stallNopIfId := false
  stallNopIdEx := true

def running : Stall where
  pcStall := false
  stallIfId := false
  stallIdEx := false
  stallExMem := false
  stallMemWb := false
  stallNopIfId := false
  stallNopIdEx := false

def stallOf (held : Rv32iControlWord) (v u : Rv32iWord) : Stall :=
  stall false false (rdOut v) (controlWordOut held v).readMem (rs1Id u) (rs2Id u)

/-- The unit stalls for a dependence and for nothing else. -/
def Exact (s : Stall) (i j : Instr) : Prop :=
  (Waits i j → s = waiting) ∧ (¬Waits i j → s = running)

section Pair

variable {held : Rv32iControlWord} {u v : Rv32iWord} {i j : Instr}

private theorem stallOf_eq (older : Encodes v i) (younger : Encodes u j) :
    stallOf held v u =
      if (formatWord (funct3Of v) i).readMem = true ∧ (dest i = source1 j ∨ dest i = source2 j)
      then waiting else running := by
  rw [stallOf, rdOut_encodes older, controlWordOut_encodes held older, rs1Id_encodes younger,
    rs2Id_encodes younger]
  simp only [stall, loadUse, Bool.false_eq_true, if_false, Bool.and_eq_true, Bool.or_eq_true,
    beq_iff_eq]
  rfl

private theorem reads_iff {r : Rv32iReg} (nonzero : r ≠ 0#5) :
    Reads j r ↔ r = source1 j ∨ r = source2 j := by
  cases j <;> simp [Reads, source1, source2, nonzero]

private theorem waiting_ne_running : waiting ≠ running := by decide

theorem exact_of_noLoad (other : ∀ op rd rs1 imm, i ≠ .load op rd rs1 imm)
    (older : Encodes v i) (younger : Encodes u j) : Exact (stallOf held v u) i j := by
  have noRead : (formatWord (funct3Of v) i).readMem = false := by
    cases i with
    | load op rd rs1 imm => exact absurd rfl (other op rd rs1 imm)
    | _ => rfl
  have noWait : ¬Waits i j := by
    cases i with
    | load op rd rs1 imm => exact absurd rfl (other op rd rs1 imm)
    | _ => exact id
  rw [stallOf_eq older younger, noRead]
  exact ⟨fun waits => absurd waits noWait, fun _ => if_neg fun stall => absurd stall.1 (by decide)⟩

theorem exact_of_load {op : LoadOp} {rd rs1 : Rv32iReg} {imm : Rv32iWord} (nonzero : rd ≠ 0#5)
    (older : Encodes v (.load op rd rs1 imm)) (younger : Encodes u j) :
    Exact (stallOf held v u) (.load op rd rs1 imm) j := by
  rw [stallOf_eq older younger]
  constructor
  · rintro ⟨-, reads⟩
    exact if_pos ⟨rfl, (reads_iff nonzero).mp reads⟩
  · intro free
    apply if_neg
    rintro ⟨-, same⟩
    exact free ⟨nonzero, (reads_iff nonzero).mpr same⟩

theorem exact_of_loadX0 {op : LoadOp} {rs1 : Rv32iReg} {imm : Rv32iWord}
    (older : Encodes v (.load op 0#5 rs1 imm)) (younger : Encodes u j) :
    Exact (stallOf held v u) (.load op 0#5 rs1 imm) j ↔ ¬(rs1Id u = 0#5 ∨ rs2Id u = 0#5) := by
  have noWait : ¬Waits (.load op 0#5 rs1 imm) j := fun waits => waits.1 rfl
  rw [stallOf_eq older younger, rs1Id_encodes younger, rs2Id_encodes younger]
  constructor
  · rintro ⟨-, free⟩ zero
    have same : dest (.load op 0#5 rs1 imm) = source1 j ∨
        dest (.load op 0#5 rs1 imm) = source2 j := zero.imp Eq.symm Eq.symm
    have still := free noWait
    rw [if_pos ⟨rfl, same⟩] at still
    exact waiting_ne_running still
  · intro nonzero
    refine ⟨fun waits => absurd waits noWait, fun _ => if_neg ?_⟩
    rintro ⟨-, same⟩
    exact nonzero (same.imp Eq.symm Eq.symm)

/-- The stall is exact unless the older instruction loads into `x0` while a source id of the
younger is zero. -/
theorem loadUse_exact_iff (held : Rv32iControlWord) (older : decode v = some i)
    (younger : decode u = some j) :
    Exact (stallOf held v u) i j ↔ ¬(LoadsX0 i ∧ (rs1Id u = 0#5 ∨ rs2Id u = 0#5)) := by
  have encV := encodes_of_decode older
  have encU := encodes_of_decode younger
  cases i with
  | load op rd rs1 imm =>
    by_cases zero : rd = 0#5
    · subst zero
      rw [exact_of_loadX0 encV encU, LoadsX0, eq_self, true_and]
    · exact iff_of_true (exact_of_load zero encV encU) fun loads => zero loads.1
  | _ => exact iff_of_true (exact_of_noLoad (by simp) encV encU) fun loads => loads.1

end Pair

theorem loadUse_exact_iff_dependent :
    Exact (stallOf zeroControlWord 0x00002083#32 0x00308133#32) (.load .lw 1#5 0#5 0#32)
      (.arith .add 2#5 1#5 3#5) := by
  apply (loadUse_exact_iff zeroControlWord (v := 0x00002083#32) (u := 0x00308133#32)
    (by decide) (by decide)).mpr
  rintro ⟨zero, -⟩
  exact absurd zero (show ¬1#5 = 0#5 by decide)

/-- `lw x0, 0(x1)` before `addi x2, x3, 1`, which has no second source and still waits. -/
theorem loadUse_spurious :
    decode 0x0000a003#32 = some (.load .lw 0#5 1#5 0#32) ∧
      decode 0x00118113#32 = some (.arithImm .add 2#5 3#5 1#32) ∧
      ¬Exact (stallOf zeroControlWord 0x0000a003#32 0x00118113#32) (.load .lw 0#5 1#5 0#32)
        (.arithImm .add 2#5 3#5 1#32) := by
  refine ⟨by decide, by decide, fun spec => ?_⟩
  have still := spec.2 fun waits => waits.1 rfl
  exact absurd still (by decide)

end Mp4.Cpu.LoadUseStall
