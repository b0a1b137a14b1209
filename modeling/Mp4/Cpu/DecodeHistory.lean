import Mp4.Cpu.DecodeSpec

/-!
Decode over a sequence of presented words: which words get a control word of their own,
and what the unsupported ones may do to registers and memory.
-/

set_option autoImplicit false
set_option relaxedAutoImplicit false

namespace Mp4.Cpu.DecodeHistory

open Mp4.Cpu.Rv32iTypes Mp4.Cpu.InstrDecode Mp4.Cpu.Isa Mp4.Cpu.DecodeSpec

def present (initial : Rv32iControlWord) (words : List Rv32iWord) : Rv32iControlWord :=
  words.foldl controlWordOut initial

structure Decoded where
  cntrlWord : Rv32iControlWord
  rs1Id : Rv32iReg
  rs2Id : Rv32iReg
  rdOut : Rv32iReg
  deriving DecidableEq, Repr

def decodeAfter (initial : Rv32iControlWord) (words : List Rv32iWord) (w : Rv32iWord) :
    Decoded where
  cntrlWord := present initial (words ++ [w])
  rs1Id := rs1Id w
  rs2Id := rs2Id w
  rdOut := rdOut w

/-- The outputs for `w` do not depend on the words before it. -/
def Memoryless (initial : Rv32iControlWord) (w : Rv32iWord) : Prop :=
  ∀ before before', decodeAfter initial before w = decodeAfter initial before' w

/-- The combinations of opcode and `funct3` that some supported instruction has. -/
def SupportedCode (opcode : Rv32iOpcode) (funct3 : Funct3) : Prop :=
  opcode = opLui ∨ opcode = opAuipc ∨ opcode = opJal ∨ opcode = opImm ∨ opcode = opReg ∨
    (opcode = opJalr ∧ funct3 = 0#3) ∨ (opcode = opBr ∧ BranchOp.ofFunct3 funct3 ≠ none) ∨
    (opcode = opLoad ∧ LoadOp.ofFunct3 funct3 ≠ none) ∨
    (opcode = opStore ∧ StoreOp.ofFunct3 funct3 ≠ none)

/-- Neither memory nor a register other than `x0` can be affected. -/
def Harmless (d : Decoded) : Prop :=
  d.cntrlWord.readMem = false ∧ d.cntrlWord.writeMem = false ∧
    (d.cntrlWord.writeReg = true → d.rdOut = 0#5)

/-- The combinations that the case statements of the generator assign. -/
def Assigned (opcode : Rv32iOpcode) (funct3 : Funct3) : Prop :=
  opcode = opLui ∨ opcode = opAuipc ∨ opcode = opJal ∨ opcode = opImm ∨ opcode = opReg ∨
    opcode = opJalr ∨ opcode = opBr ∨ opcode = opStore ∨
    (opcode = opLoad ∧ LoadOp.ofFunct3 funct3 ≠ none)

section Generator

variable {opcode : Rv32iOpcode} {funct3 : Funct3}

private theorem loadOp_none : LoadOp.ofFunct3 funct3 = none ↔
    funct3 ≠ lb ∧ funct3 ≠ lh ∧ funct3 ≠ lw ∧ funct3 ≠ lbu ∧ funct3 ≠ lhu := by
  revert funct3
  decide

theorem wordGenerator_assigned (held held' : Rv32iControlWord) (funct7 : BitVec 7)
    (assigned : Assigned opcode funct3) :
    wordGenerator held opcode funct3 funct7 = wordGenerator held' opcode funct3 funct7 := by
  rcases assigned with rfl | rfl | rfl | rfl | rfl | rfl | rfl | rfl | ⟨rfl, kind⟩
  case inr.inr.inr.inr.inr.inr.inr.inr =>
    obtain ⟨op, kind⟩ := Option.ne_none_iff_exists'.mp kind
    rw [wordGenerator_load held funct7 kind 0#5 0#5 0#32,
      wordGenerator_load held' funct7 kind 0#5 0#5 0#32]
  all_goals rfl

theorem wordGenerator_unassigned (held : Rv32iControlWord) (funct7 : BitVec 7)
    (unassigned : ¬Assigned opcode funct3) :
    wordGenerator held opcode funct3 funct7 = { held with opcode := opcode } := by
  simp only [Assigned, not_or, not_and, not_not] at unassigned
  obtain ⟨lui, auipc, jal, imm, reg, jalr, br, store, load⟩ := unassigned
  rw [wordGenerator, if_neg auipc, if_neg lui, if_neg jal, if_neg jalr, if_neg br]
  by_cases isLoad : opcode = opLoad
  · obtain ⟨b, h, w, bu, hu⟩ := loadOp_none.mp (load isLoad)
    rw [if_pos isLoad, if_neg b, if_neg h, if_neg w, if_neg bu, if_neg hu]
  · rw [if_neg isLoad, if_neg store, if_neg imm, if_neg reg]

private theorem SupportedCode.assigned (supported : SupportedCode opcode funct3) :
    Assigned opcode funct3 := by
  simp only [SupportedCode, Assigned] at *
  tauto

private theorem Assigned.cases (assigned : Assigned opcode funct3) :
    SupportedCode opcode funct3 ∨ opcode = opBr ∨ opcode = opJalr ∨ opcode = opStore := by
  simp only [SupportedCode, Assigned] at *
  tauto

end Generator

section Words

variable {initial : Rv32iControlWord} {w : Rv32iWord}

private theorem present_snoc (initial : Rv32iControlWord) (before : List Rv32iWord)
    (w : Rv32iWord) :
    present initial (before ++ [w]) = controlWordOut (present initial before) w := by
  simp [present]

theorem memoryless_of_assigned (initial : Rv32iControlWord)
    (assigned : Assigned (opcodeOf w) (funct3Of w)) : Memoryless initial w := by
  intro before before'
  have same := wordGenerator_assigned (present initial before) (present initial before')
    (funct7Of w) assigned
  rw [decodeAfter, decodeAfter, present_snoc, present_snoc, controlWordOut, controlWordOut, same]

theorem not_memoryless_of_unassigned (initial : Rv32iControlWord)
    (unassigned : ¬Assigned (opcodeOf w) (funct3Of w)) : ¬Memoryless initial w := by
  intro same
  have write := congrArg (fun d : Decoded => d.cntrlWord.writeMem)
    (same [0x00000023#32] [nopWord])
  have kept (before : List Rv32iWord) : (decodeAfter initial before w).cntrlWord.writeMem =
      (present initial before).writeMem := by
    rw [decodeAfter, present_snoc, controlWordOut, wordGenerator_unassigned _ _ unassigned]
  simp only [kept] at write
  exact Bool.noConfusion (write : true = false)

private theorem harmless_branch (before : List Rv32iWord) (branch : opcodeOf w = opBr) :
    Harmless (decodeAfter initial before w) := by
  simp only [Harmless, decodeAfter, present_snoc, controlWordOut, branch]
  exact ⟨rfl, rfl, fun write => absurd write Bool.false_ne_true⟩

private theorem harmless_jalr (before : List Rv32iWord) (jalr : opcodeOf w = opJalr) :
    Harmless (decodeAfter initial before w) ↔ rdOut w = 0#5 := by
  simp only [Harmless, decodeAfter, present_snoc, controlWordOut, jalr]
  exact ⟨fun h => h.2.2 rfl, fun zero => ⟨rfl, rfl, fun _ => zero⟩⟩

private theorem not_harmless_store (before : List Rv32iWord) (store : opcodeOf w = opStore) :
    ¬Harmless (decodeAfter initial before w) := by
  simp only [Harmless, decodeAfter, present_snoc, controlWordOut, store]
  exact fun h => Bool.noConfusion h.2.1

/-- Decode forgets the past and an unsupported word does nothing, for exactly the supported
combinations, the branches of any `funct3`, and the `jalr` words into `x0`. -/
theorem decode_history_iff (initial : Rv32iControlWord) (w : Rv32iWord) :
    (Memoryless initial w ∧ (¬SupportedCode (opcodeOf w) (funct3Of w) →
        ∀ before, Harmless (decodeAfter initial before w))) ↔
      (SupportedCode (opcodeOf w) (funct3Of w) ∨ opcodeOf w = opBr ∨
        (opcodeOf w = opJalr ∧ rdOut w = 0#5)) := by
  constructor
  · rintro ⟨memoryless, harmless⟩
    by_cases unsupported : SupportedCode (opcodeOf w) (funct3Of w)
    · exact Or.inl unsupported
    have assigned : Assigned (opcodeOf w) (funct3Of w) := by
      by_contra unassigned
      exact not_memoryless_of_unassigned initial unassigned memoryless
    have quiet := harmless unsupported []
    rcases assigned.cases with supported | branch | jalr | store
    · exact absurd supported unsupported
    · exact Or.inr (Or.inl branch)
    · exact Or.inr (Or.inr ⟨jalr, (harmless_jalr [] jalr).mp quiet⟩)
    · exact absurd quiet (not_harmless_store [] store)
  · rintro (supported | branch | ⟨jalr, zero⟩)
    · exact ⟨memoryless_of_assigned initial supported.assigned,
        fun unsupported => absurd supported unsupported⟩
    · refine ⟨memoryless_of_assigned initial ?_, fun _ before => harmless_branch before branch⟩
      simp [Assigned, branch]
    · refine ⟨memoryless_of_assigned initial ?_, fun _ before => ?_⟩
      · simp [Assigned, jalr]
      · exact (harmless_jalr before jalr).mpr zero

end Words

/-- The all-zero word is unsupported; after `sw x0, 0(x0)` it writes memory, and after a
no-op it does not. -/
theorem decode_history_store :
    ¬SupportedCode (opcodeOf 0#32) (funct3Of 0#32) ∧
      (decodeAfter zeroControlWord [0x00002023#32] 0#32).cntrlWord.writeMem = true ∧
      ¬Memoryless zeroControlWord 0#32 := by
  refine ⟨?_, by decide, fun same => ?_⟩
  · simp only [SupportedCode]
    decide
  · exact absurd (same [0x00002023#32] [nopWord]) (by decide)

end Mp4.Cpu.DecodeHistory
