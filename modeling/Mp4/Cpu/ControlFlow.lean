import Mp4.Cpu.DataInvariant
import Mp4.Lib.Clocked

/-!
The pipeline with its fetch stage, fed by a program. The packets that leave EX/MEM
are the architectural execution order in every run in which no redirect meets a
load-use hazard; where they meet, the redirect is lost.
-/

set_option autoImplicit false
set_option relaxedAutoImplicit false

namespace Mp4.Cpu.ControlFlow

open Mp4.Cpu.Rv32iTypes Mp4.Cpu.PipelineRegs Mp4.Cpu.InstrDecode Mp4.Cpu.Isa Mp4.Cpu.DecodeSpec
open Mp4.Cpu.Execute Mp4.Cpu.MemStage Mp4.Cpu.InstrFetch Mp4.Cpu.SingleInstruction
open Mp4.Cpu.Pipeline Mp4.Cpu.Forwarding Mp4.Cpu.DataInvariant Mp4.Lib.Clocked

abbrev Program := Rv32iWord → Rv32iWord

/-- The processor, and the packets that have left EX/MEM since reset, each with the
word that the data cache returned. -/
structure Processor where
  pc : Rv32iWord
  heldPredPc : Rv32iWord
  core : Core
  tags : Tags
  retired : List (IfId × Rv32iWord)

/-- The inputs of a cycle; `predictor` is what the predictor answers for a conditional
branch, and `missRdata` what the instruction cache drives while it misses. -/
structure Cycle where
  rst : Bool
  iCacheMiss : Bool
  dCacheMiss : Bool
  predictor : Bool
  missRdata : Rv32iWord
  dCacheRdata : Rv32iWord

def Cycle.miss (y : Cycle) : Bool := y.iCacheMiss || y.dCacheMiss

namespace Processor

variable (prog : Program) (y : Cycle) (s : Processor)

def iCacheRdata : Rv32iWord := if y.iCacheMiss then y.missRdata else prog s.pc

/-- A taken prediction is given only for a fetched conditional branch. -/
def brPredTaken : Bool := y.predictor && opcodeOf (s.iCacheRdata prog y) == opBr

def brPredPc : Rv32iWord :=
  brPredPcOut s.heldPredPc s.pc (s.iCacheRdata prog y) (s.brPredTaken prog y)

def fetched : IfId :=
  ⟨s.pc, s.iCacheRdata prog y, s.brPredTaken prog y, s.brPredPc prog y⟩

def coreIn : CoreIn where
  rst := y.rst
  flush := s.core.checker.flush
  iCacheMiss := y.iCacheMiss
  dCacheMiss := y.dCacheMiss
  fetched := s.fetched prog y
  dCacheRdata := y.dCacheRdata

/-- `pc_sel_out`, with the outputs of `mem_stage` and `ex_mem` wired to `instr_fetch`. -/
def pcSel : Rv32iWord :=
  pcSelOut (s.brPredTaken prog y) s.core.checker.flush s.core.checker.mispredicted
    s.core.exMem.cntrlWord.pcmuxSel s.pc s.core.exMem.aluVal (s.brPredPc prog y)
    s.core.exMem.regPc

def step : Processor :=
  let i := s.coreIn prog y
  { pc := pcRegister y.rst (!(s.core.hazards y.iCacheMiss y.dCacheMiss).pcStall)
      (s.pcSel prog y) s.pc
    heldPredPc := s.brPredPc prog y
    core := s.core.next i
    tags := s.tags.next i s.core (some (s.fetched prog y))
    retired :=
      if y.rst then []
      else s.retired ++ ((leaving i s.core s.tags).map (·, y.dCacheRdata)).toList }

end Processor

structure Arch where
  pc : Rv32iWord
  regs : Regs

/-- One instruction of the program; `word` is what memory returns to a load. -/
def Arch.step (prog : Program) (s : Arch) (word : Rv32iWord) : Arch :=
  match decode (prog s.pc) with
  | none => s
  | some i =>
    let a := readReg s.regs (source1 i)
    let b := readReg s.regs (source2 i)
    { pc := i.successor s.pc a b
      regs := applyWrite s.regs (i.regWrite s.pc a b word) }

def Arch.start : Arch := ⟨0x60#32, fun _ => 0#32⟩

def InOrder (prog : Program) (s : Arch) : List (IfId × Rv32iWord) → Prop
  | [] => True
  | (p, word) :: rest =>
      (p.pcReg = s.pc ∧ p.instrMemRdata = prog s.pc) ∧ InOrder prog (s.step prog word) rest

instance decidableInOrder (prog : Program) :
    (s : Arch) → (ps : List (IfId × Rv32iWord)) → Decidable (InOrder prog s ps)
  | _, [] => inferInstanceAs (Decidable True)
  | s, (_, word) :: rest =>
      @instDecidableAnd _ _ inferInstance (decidableInOrder prog (s.step prog word) rest)

/-- The architectural state after a sequence of packets. -/
def Arch.after (prog : Program) (s : Arch) (ps : List (IfId × Rv32iWord)) : Arch :=
  ps.foldl (fun s p => s.step prog p.2) s

private theorem inOrder_snoc {prog : Program} {s : Arch} {ps : List (IfId × Rv32iWord)} {p : IfId}
    {word : Rv32iWord} :
    InOrder prog s (ps ++ [(p, word)]) ↔
      InOrder prog s ps ∧
        p.pcReg = (s.after prog ps).pc ∧ p.instrMemRdata = prog (s.after prog ps).pc := by
  induction ps generalizing s with
  | nil => simp [InOrder, Arch.after]
  | cons q ps ih =>
    rw [List.cons_append]
    simp only [InOrder, ih, and_assoc]
    rfl

/-- The redirecting instructions, by the contents of EX/MEM: a jump, or a branch whose
prediction differs from its outcome. -/
def redirecting (q : ExMem) : Bool :=
  q.opcode == opJal || q.opcode == opJalr ||
    (q.opcode == opBr && q.brPredTaken != q.cmpVal)

/-- The cycle in which the program counter is held for a load-use hazard while the
redirecting instruction leaves EX/MEM. -/
def losesRedirect (y : Cycle) (s : Processor) : Bool :=
  redirecting s.core.exMem && s.core.loadUse && !y.miss

theorem flush_eq (c : Core) : c.checker.flush = redirecting c.exMem := by
  unfold Core.checker staticNtPredictor redirecting
  cases c.exMem.cmpVal <;> cases c.exMem.brPredTaken <;> grind

theorem mispredicted_of_not_flush {c : Core} (h : c.checker.flush = false) :
    c.checker.mispredicted = false := by
  unfold Core.checker staticNtPredictor at h ⊢
  split_ifs at h ⊢ <;> rfl

theorem mispredicted_of_jump {c : Core}
    (jump : c.exMem.opcode = opJal ∨ c.exMem.opcode = opJalr) :
    c.checker.mispredicted = c.heldChecker.mispredicted := by
  unfold Core.checker staticNtPredictor
  rw [if_pos jump]

def predicted (p : IfId) : Rv32iWord :=
  if p.brPredTaken then p.pcReg + bImm p.instrMemRdata else p.pcReg + 4#32

/-- Packets that follow one another as predicted, from an address up to the
program counter of fetch. -/
def Path (pc : Rv32iWord) : Rv32iWord → List IfId → Prop
  | start, [] => pc = start
  | start, p :: ps => p.pcReg = start ∧ Path pc (predicted p) ps

theorem path_snoc {pc start : Rv32iWord} {ps : List IfId} {p : IfId} (h : Path pc start ps)
    (at_pc : p.pcReg = pc) : Path (predicted p) start (ps ++ [p]) := by
  induction ps generalizing start with
  | nil => exact ⟨at_pc.trans h, rfl⟩
  | cons q ps ih => exact ⟨h.1, ih h.2⟩

structure FromProgram (prog : Program) (p : IfId) : Prop where
  word : p.instrMemRdata = prog p.pcReg
  pred : p.brPredTaken = true → opcodeOf p.instrMemRdata = opBr

def inFlight (t : Tags) : List IfId := t.exMem.toList ++ t.idEx.toList ++ t.ifId.toList

/-- The control invariant. While EX/MEM redirects, the younger packets and the program
counter may be on a wrong path; otherwise all of them continue the retired ones. -/
structure CtrlInv (prog : Program) (s : Processor) : Prop where
  data : DataInv s.core s.tags
  packets : ∀ p ∈ inFlight s.tags, FromProgram prog p
  heldMispredicted : s.core.exMem.opcode = opJal ∨ s.core.exMem.opcode = opJalr →
    s.core.heldChecker.mispredicted = false
  inOrder : InOrder prog .start s.retired
  regs : settled s.core = (Arch.start.after prog s.retired).regs
  path : if redirecting s.core.exMem then
      ∃ p, s.tags.exMem = some p ∧ p.pcReg = (Arch.start.after prog s.retired).pc
    else Path s.pc (Arch.start.after prog s.retired).pc (inFlight s.tags)

section Retire

variable {prog : Program} {c : Core} {p : IfId} {a : Arch}

theorem retire_agrees (supported : Supported (prog a.pc)) (exMem : InExMem c (some p))
    (word : p.instrMemRdata = prog a.pc) (regs : settled c = a.regs) :
    ∃ i, decode (prog a.pc) = some i ∧ Encodes p.instrMemRdata i ∧
      Agrees c.exMem (executeOnce zeroControlWord false p (readReg a.regs (source1 i))
        (readReg a.regs (source2 i))) ∧
      i.redirects p.brPredTaken (readReg a.regs (source1 i)) (readReg a.regs (source2 i)) =
        redirecting c.exMem := by
  obtain ⟨i, dec⟩ := Option.isSome_iff_exists.mp supported
  have enc : Encodes p.instrMemRdata i := word ▸ encodes_of_decode dec
  have agrees := exMem.agrees_once zeroControlWord false
  rw [rs1Id_encodes enc, rs2Id_encodes enc, regs] at agrees
  have flush := congrArg Checker.flush (agrees.checker_eq c.heldChecker)
  exact ⟨i, dec, enc, agrees,
    (flush_correct c.heldChecker enc).symm.trans (flush.symm.trans (flush_eq c))⟩

private theorem retire_regs (supported : Supported (prog a.pc)) (exMem : InExMem c (some p))
    (pc : p.pcReg = a.pc) (word : p.instrMemRdata = prog a.pc) (regs : settled c = a.regs)
    (rData : Rv32iWord) :
    applyWrite (settled c) (regWriteOf (memStage c.exMem rData)) =
      (a.step prog rData).regs := by
  obtain ⟨i, dec, enc, agrees, -⟩ := retire_agrees supported exMem word regs
  rw [regs, agrees.regWriteOf_eq, regWrite_correct rData enc, Arch.step, dec, pc]

/-- An instruction that does not redirect is followed by what was predicted. -/
theorem successor_of_straight {i : Instr} {x y : Rv32iWord} (enc : Encodes p.instrMemRdata i)
    (pred : p.brPredTaken = true → opcodeOf p.instrMemRdata = opBr)
    (straight : i.redirects p.brPredTaken x y = false) :
    i.successor p.pcReg x y = predicted p := by
  cases enc with
  | jal op | jalr op => cases straight
  | @branch o op kind =>
    have agree : p.brPredTaken = o.taken x y := by simpa [Instr.redirects] using straight
    rw [predicted, agree]
    rfl
  | lui op | auipc op | load op _ | store op _ | arithImm op _ | arith op _ =>
    rw [op] at pred
    have notTaken : p.brPredTaken = false := by simpa using mt pred (by decide)
    rw [predicted, notTaken]
    rfl

private theorem retire_pc (supported : Supported (prog a.pc)) (exMem : InExMem c (some p))
    (pc : p.pcReg = a.pc) (fromProgram : FromProgram prog p) (regs : settled c = a.regs)
    (straight : redirecting c.exMem = false) (rData : Rv32iWord) :
    (a.step prog rData).pc = predicted p := by
  obtain ⟨i, dec, enc, -, redirects⟩ :=
    retire_agrees supported exMem (pc ▸ fromProgram.word) regs
  rw [Arch.step, dec, ← pc]
  exact successor_of_straight enc fromProgram.pred (redirects.trans straight)

theorem retire_redirect (supported : Supported (prog a.pc)) (exMem : InExMem c (some p))
    (pc : p.pcReg = a.pc) (word : p.instrMemRdata = prog a.pc) (regs : settled c = a.regs)
    (held : c.exMem.opcode = opJal ∨ c.exMem.opcode = opJalr →
      c.heldChecker.mispredicted = false)
    (redirect : redirecting c.exMem = true) (rData : Rv32iWord) (fetchPred : Bool)
    (fetchPc brPredPc : Rv32iWord) :
    pcSelOut fetchPred c.checker.flush c.checker.mispredicted c.exMem.cntrlWord.pcmuxSel fetchPc
      c.exMem.aluVal brPredPc c.exMem.regPc = (a.step prog rData).pc := by
  obtain ⟨i, dec, enc, agrees, redirects⟩ := retire_agrees supported exMem word regs
  have checker := agrees.checker_eq c.heldChecker
  have heldMispredicted : i.isJump → c.heldChecker.mispredicted = false := by
    intro jump
    refine held ?_
    rw [agrees.opcode, opcode_correct enc]
    cases i <;> first | exact .inl rfl | exact .inr rfl | cases jump
  rw [Arch.step, dec, ← pc]
  simp only [Core.checker, checker, agrees.cntrlWord, agrees.aluVal, agrees.regPc]
  exact pcSelOut_correct c.heldChecker fetchPred fetchPc brPredPc heldMispredicted enc
    (redirects.trans redirect)

end Retire

section Step

variable {prog : Program} {y : Cycle} {s : Processor}

theorem step_pc (prog : Program) (s : Processor) (running : y.rst = false) :
    (s.step prog y).pc = if y.miss || s.core.loadUse then s.pc else s.pcSel prog y := by
  have hold := pcStall_eq (s.coreIn prog y) s.core
  simp only [Processor.step, pcRegister, running]
  rw [show (s.core.hazards y.iCacheMiss y.dCacheMiss).pcStall =
    (y.miss || s.core.loadUse) from hold]
  cases y.miss || s.core.loadUse <;> rfl

theorem step_retired (prog : Program) (s : Processor) (running : y.rst = false) :
    (s.step prog y).retired =
      if y.miss then s.retired
      else s.retired ++ (s.tags.exMem.map (·, y.dCacheRdata)).toList := by
  have left : leaving (s.coreIn prog y) s.core s.tags = if y.miss then none else s.tags.exMem :=
    leaving_eq running
  simp only [Processor.step, running, left]
  cases y.miss <;> simp

theorem step_tags (prog : Program) (s : Processor) (running : y.rst = false) :
    (s.step prog y).tags =
      { ifId := if s.core.checker.flush then none
          else if y.miss || s.core.loadUse then s.tags.ifId else some (s.fetched prog y)
        idEx := if s.core.checker.flush then none else if y.miss then s.tags.idEx
          else if s.core.loadUse then none else s.tags.ifId
        exMem := if y.miss then s.tags.exMem else if s.core.checker.flush then none
          else s.tags.idEx } :=
  next_tags _ running

theorem step_exMem (prog : Program) (s : Processor) (running : y.rst = false) :
    (s.step prog y).core.exMem =
      if y.miss then s.core.exMem
      else if s.core.checker.flush then clearedExMem 0x13#7 else s.core.executed :=
  next_exMem running

theorem fromProgram_fetched (hit : y.miss = false) : FromProgram prog (s.fetched prog y) := by
  have rdata : s.iCacheRdata prog y = prog s.pc :=
    if_neg (by simp [(Bool.or_eq_false_iff.mp hit).1])
  refine ⟨rdata, fun taken => ?_⟩
  have both := (Bool.and_eq_true _ _).mp taken
  exact eq_of_beq both.2

theorem bubble_straight {c : Core} (h : InExMem c none) : redirecting c.exMem = false := by
  cases h with
  | bubble idle =>
    rw [redirecting, idle.opcode]
    rfl

private theorem straight_pcmuxSel {c : Core} {o : Option IfId} (h : InExMem c o)
    (straight : redirecting c.exMem = false) :
    c.exMem.cntrlWord.pcmuxSel = .pcPlus4 ∨ c.exMem.cntrlWord.pcmuxSel = .cmpOut := by
  cases h with
  | bubble idle => exact .inl idle.pcmuxSel
  | packet enc agrees =>
    rw [redirecting, agrees.opcode, opcode_correct enc] at straight
    rw [agrees.cntrlWord, executeOnce_encodes enc]
    cases enc with
    | jal op | jalr op => cases straight
    | branch op kind => exact .inr rfl
    | lui op | auipc op | load op _ | store op _ | arithImm op _ | arith op _ => exact .inl rfl

theorem pcSel_straight (prog : Program) (y : Cycle) (inv : DataInv s.core s.tags)
    (straight : s.core.checker.flush = false) :
    s.pcSel prog y = predicted (s.fetched prog y) := by
  have sel := straight_pcmuxSel inv.exMem ((flush_eq s.core).symm.trans straight)
  have mispredicted := mispredicted_of_not_flush straight
  rw [Processor.pcSel, straight, mispredicted]
  cases pred : s.brPredTaken prog y with
  | false =>
    simp only [predicted, Processor.fetched, pred]
    rcases sel with sel | sel <;> rw [sel] <;> rfl
  | true =>
    have branch : (s.iCacheRdata prog y).extractLsb' 0 7 = 0x63#7 :=
      eq_of_beq ((Bool.and_eq_true _ _).mp pred).2
    simp only [predicted, Processor.fetched, pred, Processor.brPredPc, brPredPcOut]
    rw [if_pos ⟨trivial, branch⟩]
    rfl

private theorem retire_moved (supported : ∀ pc, Supported (prog pc)) (inv : CtrlInv prog s)
    (running : y.rst = false) (moved : y.miss = false) :
    let a' := Arch.start.after prog (s.step prog y).retired
    InOrder prog .start (s.step prog y).retired ∧
    settled (s.step prog y).core = a'.regs ∧
    (redirecting s.core.exMem = true → s.pcSel prog y = a'.pc) ∧
    (redirecting s.core.exMem = false →
      Path s.pc a'.pc (s.tags.idEx.toList ++ s.tags.ifId.toList)) := by
  have settled' : settled (s.step prog y).core =
      applyWrite (settled s.core) (regWriteOf (memStage s.core.exMem y.dCacheRdata)) :=
    settled_moved running moved
  have retired' := step_retired prog s running
  rw [moved] at retired'
  simp only [Bool.false_eq_true, if_false] at retired'
  rw [retired', settled']
  have inOrder := inv.inOrder
  have regs := inv.regs
  have path := inv.path
  have packets := inv.packets
  generalize ho : s.tags.exMem = o at *
  have exMem := ho ▸ inv.data.exMem
  cases o with
  | none =>
    have straight := bubble_straight exMem
    rw [straight] at path
    have noReg : regWriteOf (memStage s.core.exMem y.dCacheRdata) = none := by
      cases exMem with
      | bubble idle => simp [regWriteOf, memStage, idle.regDest]
    rw [noReg, straight]
    simp only [Option.map_none, Option.toList_none, List.append_nil]
    refine ⟨inOrder, regs, fun h => (Bool.false_ne_true h).elim, fun _ => ?_⟩
    simpa [inFlight, ho] using path
  | some p =>
    have flight : inFlight s.tags = p :: (s.tags.idEx.toList ++ s.tags.ifId.toList) := by
      simp [inFlight, ho]
    have fromProgram := packets p (flight ▸ List.mem_cons_self)
    rw [flight] at path
    have at_pc : p.pcReg = (Arch.start.after prog s.retired).pc := by
      split_ifs at path
      · obtain ⟨q, same, at_pc⟩ := path
        exact Option.some.inj same ▸ at_pc
      · exact path.1
    have word : p.instrMemRdata = prog (Arch.start.after prog s.retired).pc :=
      at_pc ▸ fromProgram.word
    have after' : Arch.start.after prog (s.retired ++ [(p, y.dCacheRdata)]) =
        (Arch.start.after prog s.retired).step prog y.dCacheRdata := by
      simp [Arch.after]
    simp only [Option.map_some, Option.toList_some]
    rw [after']
    refine ⟨inOrder_snoc.mpr ⟨inOrder, at_pc, word⟩,
      retire_regs (supported _) exMem at_pc word regs _, fun redirect => ?_, fun straight => ?_⟩
    · exact retire_redirect (supported _) exMem at_pc word regs inv.heldMispredicted redirect
        _ _ _ _
    · rw [straight] at path
      rw [retire_pc (supported _) exMem at_pc fromProgram regs straight]
      exact path.2

private theorem path_oldest {c : Core} {t : Tags} {pc start : Rv32iWord} (exMem : InExMem c t.exMem)
    (path : Path pc start (inFlight t)) :
    if redirecting c.exMem then ∃ p, t.exMem = some p ∧ p.pcReg = start
    else Path pc start (inFlight t) := by
  split_ifs with redirect
  · cases h : t.exMem with
    | none =>
      rw [bubble_straight (h ▸ exMem)] at redirect
      cases redirect
    | some p =>
      simp only [inFlight, h] at path
      exact ⟨p, rfl, path.1⟩
  · exact path

theorem heldMispredicted_step (held : s.core.exMem.opcode = opJal ∨ s.core.exMem.opcode = opJalr →
      s.core.heldChecker.mispredicted = false) (running : y.rst = false)
    (jump : (s.step prog y).core.exMem.opcode = opJal ∨
      (s.step prog y).core.exMem.opcode = opJalr) :
    (s.step prog y).core.heldChecker.mispredicted = false := by
  change s.core.checker.mispredicted = false
  rw [step_exMem prog s running] at jump
  split_ifs at jump with miss flush
  · rw [mispredicted_of_jump jump]
    exact held jump
  · rcases jump with jump | jump <;> cases jump
  · exact mispredicted_of_not_flush (Bool.eq_false_iff.mpr flush)

private theorem packets_step (inv : CtrlInv prog s) (running : y.rst = false) :
    ∀ p ∈ inFlight (s.step prog y).tags, FromProgram prog p := by
  intro p mem
  have older : p ∈ inFlight s.tags ∨ y.miss = false ∧ p = s.fetched prog y := by
    rw [step_tags prog s running] at mem
    simp only [inFlight, List.mem_append] at mem ⊢
    cases miss : y.miss <;> cases flush : s.core.checker.flush <;>
      cases loadUse : s.core.loadUse <;> simp_all <;> grind
  rcases older with older | ⟨hit, rfl⟩
  · exact inv.packets p older
  · exact fromProgram_fetched hit

/-- The control invariant is kept by every cycle that loses no redirect. -/
theorem ctrlInv_step (supported : ∀ pc, Supported (prog pc)) (inv : CtrlInv prog s)
    (running : y.rst = false) (kept : losesRedirect y s = false) :
    CtrlInv prog (s.step prog y) := by
  have tags' := step_tags prog s running
  have pc' := step_pc prog s running
  have flush := flush_eq s.core
  have data : DataInv (s.step prog y).core (s.step prog y).tags := by
    refine dataInv_next running (fun _ moved _ => .packet ?_) inv.data
    have word : (s.fetched prog y).instrMemRdata = prog s.pc := (fromProgram_fetched moved).word
    exact word.symm ▸ supported s.pc
  have packets := packets_step inv running
  have held := @heldMispredicted_step prog y s inv.heldMispredicted running
  cases miss : y.miss with
  | true =>
    have retired' : (s.step prog y).retired = s.retired := by
      rw [step_retired prog s running, miss]
      rfl
    have exMem' : (s.step prog y).core.exMem = s.core.exMem := by
      rw [step_exMem prog s running, miss]; rfl
    have settled' : settled (s.step prog y).core = settled s.core := settled_frozen running miss
    refine ⟨data, packets, held, ?_, ?_, ?_⟩
    · exact retired'.symm ▸ inv.inOrder
    · rw [settled', retired', inv.regs]
    · have path := inv.path
      simp only [miss, flush, Bool.true_or, if_true] at tags' pc'
      rw [retired', exMem', pc', tags']
      cases redirect : redirecting s.core.exMem <;> rw [redirect] at path <;> exact path
  | false =>
    obtain ⟨inOrder, regs, redirected, straight⟩ := retire_moved supported inv running miss
    refine ⟨data, packets, held, inOrder, regs, path_oldest data.exMem ?_⟩
    simp only [miss, Bool.false_or, Bool.false_eq_true, if_false] at tags' pc'
    rw [tags', pc']
    cases redirect : redirecting s.core.exMem with
    | true =>
      have noLoadUse : s.core.loadUse = false := by
        simpa [losesRedirect, redirect, miss] using kept
      rw [flush, redirect, noLoadUse]
      exact redirected redirect
    | false =>
      have path := straight redirect
      rw [flush, redirect]
      cases loadUse : s.core.loadUse with
      | true => simpa [inFlight] using path
      | false =>
        have next := pcSel_straight prog y inv.data (flush.trans redirect)
        have longer := path_snoc (p := s.fetched prog y) path rfl
        simpa [inFlight, next] using longer

/-- How many cycles without a miss pass at most before the next packet retires. -/
def due (t : Tags) : Nat :=
  if t.exMem.isSome then 0 else if t.idEx.isSome then 1 else if t.ifId.isSome then 2 else 3

theorem due_le (t : Tags) : due t ≤ 3 := by
  unfold due
  split_ifs <;> omega

theorem due_step (exMem : InExMem s.core s.tags.exMem)
    (idEx : redirecting s.core.exMem = false → InIdEx s.core s.tags.idEx)
    (running : y.rst = false) :
    (if y.miss then 0 else 1) + 4 * s.retired.length + due (s.step prog y).tags ≤
      4 * (s.step prog y).retired.length + due s.tags := by
  have tags' := step_tags prog s running
  have retired' := step_retired prog s running
  have bound := due_le (s.step prog y).tags
  have flush := flush_eq s.core
  cases h3 : s.tags.exMem with
  | some p =>
    cases miss : y.miss with
    | true =>
      rw [miss] at tags' retired'
      simp [retired', tags', due, h3]
    | false =>
      rw [miss, h3] at retired'
      have length' : (s.step prog y).retired.length = s.retired.length + 1 := by simp [retired']
      simp only [Bool.false_eq_true, if_false]
      omega
  | none =>
    have bubble := bubble_straight (h3 ▸ exMem)
    have straight := flush.trans bubble
    have noLoadUse : s.tags.idEx = none → s.core.loadUse = false := by
      intro h2
      have idEx := h2 ▸ idEx bubble
      cases idEx with
      | bubble idle => simp [Core.loadUse, loadUse, idle.readMem]
    rw [h3, straight] at tags'
    rw [h3] at retired'
    cases miss : y.miss with
    | true =>
      rw [miss] at tags' retired'
      simp [retired', tags', due, h3]
    | false =>
      rw [miss] at tags' retired'
      rw [tags', retired']
      cases h2 : s.tags.idEx with
      | some p => simp [due, h3, h2]; omega
      | none =>
        rw [noLoadUse h2]
        cases h1 : s.tags.ifId with
        | some p => simp [due, h3, h2, h1]; omega
        | none => simp [due, h3, h2, h1]; omega

end Step

section Reset

variable {prog : Program} {y : Cycle} {s : Processor} {n : Nat}

structure ResetFor (n : Nat) (s : Processor) : Prop where
  first : 1 ≤ n → s.pc = 0x60#32 ∧ s.tags = .empty ∧ s.retired = []
  core : Pipeline.ResetFor n s.core

theorem resetFor_step (h : ResetFor n s) (rst : y.rst = true) :
    ResetFor (n + 1) (s.step prog y) := by
  have rst' : (s.coreIn prog y).rst = true := rst
  refine ⟨fun _ => ?_, resetFor_next h.core rst'⟩
  simp only [Processor.step, Tags.next, Processor.coreIn, rst]
  exact ⟨rfl, rfl, rfl⟩

theorem resetFor_run (prog : Program) {resets : List Cycle} (rst : ∀ y ∈ resets, y.rst = true)
    (s : Processor) : ResetFor resets.length (run (Processor.step prog) s resets) := by
  have fresh : ResetFor 0 s := ⟨by omega, by omega, by omega, by omega⟩
  have keep (n : Nat) (y : Cycle) (s : Processor) (h : ResetFor n s) (rst : y.rst = true) :
      ResetFor (n + 1) (s.step prog y) := resetFor_step h rst
  have settles := run_counted keep fresh rst
  rwa [Nat.zero_add] at settles

private theorem ctrlInv_reset (prog : Program) {resets : List Cycle}
    (rst : ∀ y ∈ resets, y.rst = true) (enough : 3 ≤ resets.length) (s : Processor) :
    CtrlInv prog (run (Processor.step prog) s resets) ∧
    (run (Processor.step prog) s resets).retired = [] := by
  have h := resetFor_run prog rst s
  obtain ⟨pc, tags, retired⟩ := h.first (by omega)
  obtain ⟨regs, memWb, -⟩ := h.core.first (by omega)
  have exMem := h.core.third enough
  have data := dataInv_reset h.core enough
  generalize run (Processor.step prog) s resets = s' at *
  refine ⟨⟨tags ▸ data, ?_, ?_, ?_, ?_, ?_⟩, retired⟩
  · rw [tags]
    exact fun p mem => absurd mem (List.not_mem_nil)
  · rw [exMem]
    rintro (jump | jump) <;> cases jump
  · rw [retired]
    trivial
  · rw [settled, regs, retired]
    simp [regWriteOf, memWb, applyWrite, Arch.after, Arch.start]
  · rw [exMem, retired, tags]
    exact pc

end Reset

/-- A run that loses no redirect keeps the invariant and retires at least one packet
in every four cycles without a miss. -/
theorem ctrlInv_run {prog : Program} {s : Processor} {cycles : List Cycle}
    (supported : ∀ pc, Supported (prog pc)) (inv : CtrlInv prog s)
    (running : ∀ y ∈ cycles, y.rst = false)
    (kept : Along (Processor.step prog) (fun y s => losesRedirect y s = false) s cycles) :
    let s' := run (Processor.step prog) s cycles
    CtrlInv prog s' ∧
    cycles.countP (fun y => !y.miss) + 4 * s.retired.length + due s'.tags ≤
      4 * s'.retired.length + due s.tags := by
  induction cycles generalizing s with
  | nil => exact ⟨inv, by simp [run]⟩
  | cons y ys ih =>
    have yRunning := running y List.mem_cons_self
    have progress := @due_step prog y s inv.data.exMem (fun _ => inv.data.idEx) yRunning
    obtain ⟨inv', bound⟩ := ih (ctrlInv_step supported inv yRunning kept.1)
      (fun z hz => running z (List.mem_cons_of_mem y hz)) kept.2
    refine ⟨inv', ?_⟩
    simp only [run, List.countP_cons] at bound ⊢
    cases miss : y.miss <;> simp only [miss] at progress ⊢ <;> simp at progress ⊢ <;> omega

/-- In every run after reset in which no redirect leaves EX/MEM during a load-use
hazard, the packets that pass from EX/MEM into MEM/WB are the architectural execution
of the program, one at least in every four cycles without a miss. -/
theorem retired_inOrder (prog : Program) (supported : ∀ pc, Supported (prog pc))
    (s : Processor) (resets cycles : List Cycle) (rst : ∀ y ∈ resets, y.rst = true)
    (enough : 3 ≤ resets.length) (running : ∀ y ∈ cycles, y.rst = false)
    (kept : Along (Processor.step prog) (fun y s => losesRedirect y s = false)
      (run (Processor.step prog) s resets) cycles) :
    let s' := run (Processor.step prog) s (resets ++ cycles)
    InOrder prog .start s'.retired ∧
    cycles.countP (fun y => !y.miss) ≤ 4 * s'.retired.length + 3 := by
  obtain ⟨start, empty⟩ := ctrlInv_reset prog rst enough s
  obtain ⟨inv, bound⟩ := ctrlInv_run supported start running kept
  rw [run_append]
  refine ⟨inv.inOrder, ?_⟩
  have first := due_le (run (Processor.step prog) s resets).tags
  rw [empty] at bound
  simp only [List.length_nil] at bound
  omega

def poweredUp : Processor where
  pc := 0#32
  heldPredPc := 0#32
  core :=
    { ifId := ⟨0#32, nopWord, false, 0#32⟩
      idEx := clearedIdEx zeroControlWord 0x13#7 false 0#32
      exMem := clearedExMem 0x13#7
      memWb :=
        { uImm := 0#32, regDest := 0#5, regPc := 0#32, aluVal := 0#32, cmpVal := false,
          cntrlWord := zeroControlWord, rData := 0#32, opcode := 0x13#7 }
      regs := fun _ => 0#32
      heldCtrl := zeroControlWord
      heldBrEn := false
      heldChecker := ⟨false, false, false⟩
      heldByteEnable := 0#4 }
  tags := .empty
  retired := []

def resetCycle : Cycle := ⟨true, false, false, false, 0#32, 0#32⟩
def hitCycle : Cycle := ⟨false, false, false, false, 0#32, 0#32⟩

/-- `jal x0, +16` at `0x60`, whose fall-through path is `lw x1, 0(x0)` followed by
`add x2, x1, x1`; no-ops elsewhere. -/
def jumpOverLoadUse : Program := fun pc =>
  if pc = 0x60#32 then 0x0100006f#32
  else if pc = 0x64#32 then 0x00002083#32
  else if pc = 0x68#32 then 0x00108133#32
  else nopWord

private theorem jumpOverLoadUse_supported (pc : Rv32iWord) : Supported (jumpOverLoadUse pc) := by
  unfold jumpOverLoadUse
  split_ifs <;> decide

theorem retired_inOrder_jump :
    let prog : Program := fun pc => if pc = 0x60#32 then 0x0100006f#32 else nopWord
    let s := run (Processor.step prog) poweredUp
      (List.replicate 3 resetCycle ++ List.replicate 9 hitCycle)
    InOrder prog .start s.retired ∧ 9 ≤ 4 * s.retired.length + 3 := by
  intro prog s
  refine retired_inOrder prog (fun pc => ?_) poweredUp (List.replicate 3 resetCycle)
    (List.replicate 9 hitCycle) (by decide) (by decide) (by decide) (by decide)
  change Supported (if pc = 0x60#32 then _ else _)
  split_ifs <;> decide

/-- The redirect of the jump is lost: after it the processor retires the word at `0x6c`
and not the one at `0x70`. -/
theorem retired_inOrder_lost :
    (∀ pc, Supported (jumpOverLoadUse pc)) ∧
    let s := run (Processor.step jumpOverLoadUse) poweredUp
      (List.replicate 3 resetCycle ++ List.replicate 8 hitCycle)
    s.retired.map (fun p => p.1.pcReg) = [0x60#32, 0x6c#32] ∧
    ¬InOrder jumpOverLoadUse .start s.retired :=
  ⟨jumpOverLoadUse_supported, by decide, by decide⟩

end Mp4.Cpu.ControlFlow
