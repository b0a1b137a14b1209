import Mp4.Cpu.Forwarding

/-!
The data invariant of the pipeline: each register holds either a bubble or a
packet whose contents are those of executing it alone on up-to-date registers.
It holds under every flush, every miss pattern and every fetched packet.
-/

set_option autoImplicit false
set_option relaxedAutoImplicit false

namespace Mp4.Cpu.DataInvariant

open Mp4.Cpu.Rv32iTypes Mp4.Cpu.PipelineRegs Mp4.Cpu.InstrDecode Mp4.Cpu.Isa Mp4.Cpu.DecodeSpec
open Mp4.Cpu.Execute Mp4.Cpu.MemStage Mp4.Cpu.SingleInstruction Mp4.Cpu.Pipeline
open Mp4.Cpu.Forwarding

/-- The registers once MEM/WB has written back. -/
def settled (c : Core) : Regs := applyWrite c.regs (regWriteOf c.memWb)

structure IdleIdEx (q : IdEx) : Prop where
  regDest : q.regDest = 0#5
  readMem : q.cntrlWord.readMem = false
  writeMem : q.cntrlWord.writeMem = false
  pcmuxSel : q.cntrlWord.pcmuxSel = .pcPlus4
  opcode : q.opcode = 0x13#7

structure IdleExMem (q : ExMem) : Prop where
  regDest : q.regDest = 0#5
  readMem : q.cntrlWord.readMem = false
  writeMem : q.cntrlWord.writeMem = false
  pcmuxSel : q.cntrlWord.pcmuxSel = .pcPlus4
  opcode : q.opcode = 0x13#7

inductive InIfId (c : Core) : Option IfId → Prop
  | bubble (nop : c.ifId.instrMemRdata = nopWord) : InIfId c none
  | packet (supported : Supported c.ifId.instrMemRdata) : InIfId c (some c.ifId)

def current (c : Core) (src : Rv32iReg) (read : Rv32iWord) : Rv32iWord :=
  if src ≠ 0#5 ∧ c.memWb.cntrlWord.writeReg ∧ c.memWb.regDest = src then c.regfilemux else read

inductive InIdEx (c : Core) : Option IfId → Prop
  | bubble (idle : IdleIdEx c.idEx) : InIdEx c none
  | packet {p : IfId} {i : Instr} {held : Rv32iControlWord} {x y : Rv32iWord}
      (enc : Encodes p.instrMemRdata i)
      (decoded : c.idEx = instrDecode held p x y)
      (operand1 : current c (source1 i) x = readReg (settled c) (source1 i))
      (operand2 : current c (source2 i) y = readReg (settled c) (source2 i))
      (noLoadUse : c.exMem.cntrlWord.readMem →
        c.exMem.regDest ≠ source1 i ∧ c.exMem.regDest ≠ source2 i) :
      InIdEx c (some p)

inductive InExMem (c : Core) : Option IfId → Prop
  | bubble (idle : IdleExMem c.exMem) : InExMem c none
  | packet {p : IfId} {i : Instr} {held : Rv32iControlWord} {heldCmp : Bool}
      (enc : Encodes p.instrMemRdata i)
      (agrees : Agrees c.exMem (executeOnce held heldCmp p
        (readReg (settled c) (source1 i)) (readReg (settled c) (source2 i)))) :
      InExMem c (some p)

/-- The invariant. The first field is what the transparent reads of `regfile` and
the store-data bypass rely on. -/
structure DataInv (c : Core) (t : Tags) : Prop where
  memWbWrites : c.memWb.regDest ≠ 0#5 → c.memWb.cntrlWord.writeReg
  ifId : InIfId c t.ifId
  idEx : InIdEx c t.idEx
  exMem : InExMem c t.exMem

theorem regfileNext_eq (regs : Regs) (m : MemWb) :
    regfileNext false m.cntrlWord.writeReg regs (regfilemuxOut m) m.regDest =
      applyWrite regs (regWriteOf m) := by
  by_cases h : m.cntrlWord.writeReg ∧ m.regDest ≠ 0#5 <;>
    simp [regfileNext, regWriteOf, applyWrite, h]

private theorem readReg_applyWrite (regs : Regs) (m : MemWb) (src : Rv32iReg) :
    readReg (applyWrite regs (regWriteOf m)) src =
      if src ≠ 0#5 ∧ m.cntrlWord.writeReg ∧ m.regDest = src then regfilemuxOut m
      else readReg regs src := by
  by_cases zero : src = 0#5
  · simp [readReg, zero]
  by_cases w : m.cntrlWord.writeReg ∧ m.regDest ≠ 0#5
  · by_cases same : m.regDest = src
    · simp [readReg, regWriteOf, applyWrite, w, same, zero]
    · simp [readReg, regWriteOf, applyWrite, w, zero, same, Function.update_of_ne (Ne.symm same)]
  · have notBoth : ¬(m.cntrlWord.writeReg ∧ m.regDest = src) := by
      rintro ⟨hw, rfl⟩
      exact w ⟨hw, zero⟩
    simp [readReg, regWriteOf, applyWrite, w, zero, notBoth]

private theorem readPort_eq {c : Core} (writes : c.memWb.regDest ≠ 0#5 → c.memWb.cntrlWord.writeReg)
    (src : Rv32iReg) : c.readPort src = readReg (settled c) src := by
  rw [settled, readReg_applyWrite, Core.readPort, regfileRead]
  grind [Core.regfilemux]

section Settled

variable {i : CoreIn} {c : Core} {t : Tags}

theorem settled_frozen (running : i.rst = false) (frozen : i.frozen = true) :
    settled (c.next i) = settled c := by
  rw [settled, next_regs running, next_memWb running, if_pos frozen]
  exact (congrArg (applyWrite · _) (regfileNext_eq c.regs c.memWb)).trans (applyWrite_twice _ _)

theorem settled_moved (running : i.rst = false) (moved : i.frozen = false) :
    settled (c.next i) =
      applyWrite (settled c) (regWriteOf (memStage c.exMem i.dCacheRdata)) := by
  rw [settled, next_regs running, next_memWb running, moved]
  exact congrArg (applyWrite · _) (regfileNext_eq c.regs c.memWb)

end Settled

section Stages

variable {i : CoreIn} {c : Core} {t : Tags}

private theorem forwardingVal_of_format {e : ExMem} {f : Funct3} {j : Instr}
    (word : e.cntrlWord = formatWord f j) (notLoad : e.cntrlWord.readMem = false)
    (rData : Rv32iWord) : forwardingVal e = regfilemuxOut (memStage e rData) := by
  have sel : e.cntrlWord.regfilemuxSel = (formatWord f j).regfilemuxSel := by rw [word]
  rw [word] at notLoad
  cases j with
  | load o _ _ _ => cases notLoad
  | arithImm o _ _ _ | arith o _ _ _ =>
    cases o <;> simp only [forwardingVal, regfilemuxOut, memStage, sel, formatWord,
      setControlWord, arithSel]
  | lui _ _ | auipc _ _ | jal _ _ | jalr _ _ _ | branch _ _ _ _ | store _ _ _ _ =>
    simp only [forwardingVal, regfilemuxOut, memStage, sel, formatWord, setControlWord]

private theorem InExMem.word {o : Option IfId} (h : InExMem c o) (real : o.isSome) :
    ∃ f j, c.exMem.cntrlWord = formatWord f j ∧ c.exMem.regDest = dest j := by
  cases h with
  | bubble _ => cases real
  | packet enc agrees =>
    exact ⟨_, _, agrees.cntrlWord.trans (by rw [executeOnce_encodes enc]; rfl),
      agrees.regDest.trans (by rw [executeOnce_encodes enc]; rfl)⟩

theorem InExMem.writes {o : Option IfId} (h : InExMem c o) (d : c.exMem.regDest ≠ 0#5) :
    c.exMem.cntrlWord.writeReg = true := by
  cases o with
  | none =>
    cases h with
    | bubble idle => exact absurd idle.regDest d
  | some p =>
    obtain ⟨f, j, word, dst⟩ := h.word rfl
    rw [word]
    rw [dst] at d
    cases j <;> first | rfl | exact absurd rfl d

private theorem InExMem.forwardingVal_eq {o : Option IfId} (h : InExMem c o)
    (d : c.exMem.regDest ≠ 0#5) (notLoad : c.exMem.cntrlWord.readMem = false)
    (rData : Rv32iWord) : forwardingVal c.exMem = regfilemuxOut (memStage c.exMem rData) := by
  cases o with
  | none =>
    cases h with
    | bubble idle => exact absurd idle.regDest d
  | some p =>
    obtain ⟨f, j, word, -⟩ := h.word rfl
    exact forwardingVal_of_format word notLoad rData

private theorem bypass_eq {o : Option IfId} (exMem : InExMem c o) {src : Rv32iReg} {x : Rv32iWord}
    (noLoad : c.exMem.cntrlWord.readMem → c.exMem.regDest ≠ src)
    (now : current c src x = readReg (settled c) src) (rData : Rv32iWord) :
    bypass c src x =
      readReg (applyWrite (settled c) (regWriteOf (memStage c.exMem rData))) src := by
  rw [readReg_applyWrite, ← now]
  by_cases hit : src ≠ 0#5 ∧ c.exMem.cntrlWord.writeReg ∧ c.exMem.regDest = src
  · have notLoad : c.exMem.cntrlWord.readMem = false := by
      by_contra load
      exact noLoad (by simpa using load) hit.2.2
    rw [bypass, if_pos hit, exMem.forwardingVal_eq (hit.2.2 ▸ hit.1) notLoad rData]
    exact (if_pos hit).symm
  · rw [bypass, if_neg hit]
    exact (if_neg hit).symm

private theorem executed_idle (idle : IdleIdEx c.idEx) : IdleExMem c.executed :=
  ⟨idle.regDest, idle.readMem, idle.writeMem, idle.pcmuxSel, idle.opcode⟩

theorem decoded_idle (nop : c.ifId.instrMemRdata = nopWord) : IdleIdEx c.decoded := by
  simp only [Core.decoded, instrDecode, nop]
  exact ⟨rfl, rfl, rfl, rfl, rfl⟩

theorem inExMem_executed {c' : Core} (inv : DataInv c t) (exMem' : c'.exMem = c.executed)
    (settled' : settled c' =
      applyWrite (settled c) (regWriteOf (memStage c.exMem i.dCacheRdata))) :
    InExMem c' t.idEx := by
  generalize ho : t.idEx = o
  have idEx := ho ▸ inv.idEx
  cases idEx with
  | bubble idle => exact .bubble (exMem' ▸ executed_idle idle)
  | @packet p j held x y enc decoded operand1 operand2 noLoadUse =>
    have a := bypass_eq inv.exMem (fun h => (noLoadUse h).1) operand1 i.dCacheRdata
    have b := bypass_eq inv.exMem (fun h => (noLoadUse h).2) operand2 i.dCacheRdata
    rw [← settled'] at a b
    exact .packet enc (exMem' ▸ executed_agrees held enc decoded inv.memWbWrites a b)

theorem inIdEx_decoded {c' : Core} (inv : DataInv c t) (noLoadUse : c.loadUse = false)
    (idEx' : c'.idEx = c.decoded) (exMem' : c'.exMem = c.executed)
    (memWb' : c'.memWb = memStage c.exMem i.dCacheRdata)
    (settled' : settled c' =
      applyWrite (settled c) (regWriteOf (memStage c.exMem i.dCacheRdata))) :
    InIdEx c' t.ifId := by
  generalize ho : t.ifId = o
  have ifId := ho ▸ inv.ifId
  have operand : ∀ src, current c' src (c.readPort src) = readReg (settled c') src := by
    intro src
    rw [settled', readReg_applyWrite, current, Core.regfilemux, memWb',
      readPort_eq inv.memWbWrites]
  cases ifId with
  | bubble nop => exact .bubble (idEx' ▸ decoded_idle nop)
  | packet supported =>
    obtain ⟨j, enc⟩ := encodes_of_supported supported
    refine .packet enc idEx' ?_ ?_ fun load => ?_
    · rw [rs1Id_encodes enc]
      exact operand _
    · rw [rs2Id_encodes enc]
      exact operand _
    · rw [exMem'] at load ⊢
      have free : ¬(c.idEx.regDest = rs1Id c.ifId.instrMemRdata ∨
          c.idEx.regDest = rs2Id c.ifId.instrMemRdata) := by
        have readMem : c.idEx.cntrlWord.readMem = true := load
        simpa [Core.loadUse, loadUse, readMem] using noLoadUse
      rw [rs1Id_encodes enc, rs2Id_encodes enc, not_or] at free
      exact free

private theorem InIfId.congr {c' : Core} {o : Option IfId} (h : InIfId c o)
    (ifId : c'.ifId = c.ifId) :
    InIfId c' o := by
  cases h with
  | bubble nop => exact .bubble (ifId ▸ nop)
  | packet supported =>
    rw [← ifId] at supported ⊢
    exact .packet supported

theorem InIdEx.congr {c' : Core} {o : Option IfId} (h : InIdEx c o) (idEx : c'.idEx = c.idEx)
    (exMem : c'.exMem = c.exMem) (memWb : c'.memWb = c.memWb) (regs : settled c' = settled c) :
    InIdEx c' o := by
  cases h with
  | bubble idle => exact .bubble (idEx ▸ idle)
  | packet enc decoded operand1 operand2 noLoadUse =>
    refine .packet enc (idEx.trans decoded) ?_ ?_ (exMem ▸ noLoadUse)
    · rwa [regs, current, Core.regfilemux, memWb]
    · rwa [regs, current, Core.regfilemux, memWb]

theorem InExMem.congr {c' : Core} {o : Option IfId} (h : InExMem c o)
    (exMem : c'.exMem = c.exMem) (regs : settled c' = settled c) : InExMem c' o := by
  cases h with
  | bubble idle => exact .bubble (exMem ▸ idle)
  | packet enc agrees => exact .packet enc (exMem.symm ▸ regs.symm ▸ agrees)

end Stages

/-- A packet in EX/MEM, compared with executing it on the settled registers whatever
the latches held. -/
theorem InExMem.agrees_once {c : Core} {p : IfId} (h : InExMem c (some p))
    (held : Rv32iControlWord) (heldCmp : Bool) :
    Agrees c.exMem (executeOnce held heldCmp p
      (readReg (settled c) (rs1Id p.instrMemRdata))
      (readReg (settled c) (rs2Id p.instrMemRdata))) := by
  cases h with
  | packet enc agrees =>
    rw [rs1Id_encodes enc, rs2Id_encodes enc]
    exact agrees.trans (executeOnce_agrees _ _ _ _ _ _ enc)

/-- What fetch may present to IF/ID: a no-op without a packet, or a supported packet. -/
inductive Offers (p : IfId) : Option IfId → Prop
  | bubble (nop : p.instrMemRdata = nopWord) : Offers p none
  | packet (supported : Supported p.instrMemRdata) : Offers p (some p)

/-- Every clock edge without reset keeps the data invariant. -/
theorem dataInv_next {i : CoreIn} {c : Core} {t : Tags} {offered : Option IfId}
    (running : i.rst = false)
    (offers : i.flush = false → i.frozen = false → c.loadUse = false → Offers i.fetched offered)
    (inv : DataInv c t) : DataInv (c.next i) (t.next i c offered) := by
  have memWb' := next_memWb (c := c) running
  have exMem' := next_exMem (c := c) running
  have idEx' := next_idEx (c := c) running
  have ifId' := next_ifId (c := c) running
  rw [next_tags offered running]
  cases frozen : i.frozen with
  | true =>
    have settled' := settled_frozen (c := c) running frozen
    simp only [frozen, if_true, Bool.true_or] at memWb' exMem' idEx' ifId' ⊢
    refine ⟨memWb' ▸ inv.memWbWrites, ?_, ?_, inv.exMem.congr exMem' settled'⟩
    · split_ifs at ifId' ⊢ with flush
      · exact .bubble (by rw [ifId'])
      · exact inv.ifId.congr ifId'
    · split_ifs at idEx' ⊢ with flush
      · exact .bubble (idEx' ▸ ⟨rfl, rfl, rfl, rfl, rfl⟩)
      · exact inv.idEx.congr idEx' exMem' memWb' settled'
  | false =>
    have settled' := settled_moved (c := c) running frozen
    simp only [frozen, Bool.false_or, Bool.false_eq_true, if_false] at memWb' exMem' idEx' ifId' ⊢
    refine ⟨memWb' ▸ inv.exMem.writes, ?_, ?_, ?_⟩
    · split_ifs at ifId' ⊢ with flush loadUse
      · exact .bubble (by rw [ifId'])
      · exact inv.ifId.congr ifId'
      · cases offers (Bool.eq_false_iff.mpr flush) frozen (Bool.eq_false_iff.mpr loadUse) with
        | bubble nop => exact .bubble (ifId' ▸ nop)
        | packet supported =>
          rw [← ifId'] at supported ⊢
          exact .packet supported
    · split_ifs at idEx' exMem' ⊢ with flush loadUse
      · exact .bubble (idEx' ▸ ⟨rfl, rfl, rfl, rfl, rfl⟩)
      · exact .bubble (idEx' ▸ ⟨rfl, rfl, rfl, rfl, rfl⟩)
      · exact inIdEx_decoded inv (by simpa using loadUse) idEx' exMem' memWb' settled'
    · change InExMem _ (if i.flush then none else t.idEx)
      split_ifs at exMem' ⊢ with flush
      · exact .bubble (exMem' ▸ ⟨rfl, rfl, rfl, rfl, rfl⟩)
      · exact inExMem_executed inv exMem' settled'

theorem dataInv_reset {n : Nat} {c : Core} (settles : ResetFor n c) (enough : 3 ≤ n) :
    DataInv c .empty := by
  obtain ⟨-, memWb, ifId⟩ := settles.first (by omega)
  refine ⟨fun writes => absurd memWb writes, .bubble ifId, .bubble ?_, .bubble ?_⟩
  · rw [settles.second (by omega)]
    exact ⟨rfl, rfl, rfl, rfl, rfl⟩
  · rw [settles.third enough]
    exact ⟨rfl, rfl, rfl, rfl, rfl⟩

end Mp4.Cpu.DataInvariant
