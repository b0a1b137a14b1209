import Mp4.Machine.Architecture

/-!
The pipeline and its fetch stage between two memories that answer with a miss or with the
right word. The packets that leave EX/MEM are the instructions of the RV32I machine, their
loads and stores included; what is fetched on a wrong path may be anything.
-/

set_option autoImplicit false
set_option relaxedAutoImplicit false

namespace Mp4.Machine.Execution

open Mp4.Cpu.Rv32iTypes Mp4.Cpu.PipelineRegs Mp4.Cpu.InstrDecode Mp4.Cpu.Isa Mp4.Cpu.DecodeSpec
open Mp4.Cpu.MemStage Mp4.Cpu.InstrFetch Mp4.Cpu.SingleInstruction Mp4.Cpu.Pipeline
open Mp4.Cpu.Forwarding Mp4.Cpu.DataInvariant Mp4.Cpu.ControlFlow Mp4.Cpu.Unpipelined
open Mp4.Lib.Clocked Mp4.Lib.ByteMemory Mp4.Machine.Architecture

structure Signals where
  iCacheMiss : Bool
  dCacheMiss : Bool
  predictor : Bool
  iCacheRdata : Rv32iWord
  dCacheRdata : Rv32iWord
  dCacheResp : Bool
  deriving DecidableEq

namespace Signals

variable (z : Signals)

def program : Program := fun _ => z.iCacheRdata

def cycle : Cycle :=
  ⟨false, z.iCacheMiss, z.dCacheMiss, z.predictor, z.iCacheRdata, z.dCacheRdata⟩

def miss : Bool := z.iCacheMiss || z.dCacheMiss

end Signals

structure System where
  proc : Processor
  mem : Mem

namespace System

/-- One clock edge; a store in EX/MEM takes effect whenever the data cache responds. -/
def step (z : Signals) (s : System) : System where
  proc := s.proc.step z.program z.cycle
  mem := if z.dCacheResp then applyStore s.mem (memWrite s.proc.core) else s.mem

end System

/-- What the processor relies on in a cycle, `Q` being the addresses of the code: without a
miss, the fetched word is that of the image, a load gets the word of the data memory, and a
store is taken. -/
structure Served (Q : Rv32iWord → Prop) (image : Bytes 30) (z : Signals) (s : System) : Prop where
  fetch : z.iCacheMiss = false → Q s.proc.pc → z.iCacheRdata = wordAt image s.proc.pc
  load : z.dCacheMiss = false → s.proc.core.exMem.cntrlWord.readMem = true →
    z.dCacheRdata = readMem s.mem s.proc.core.exMem.aluVal
  store : z.dCacheMiss = false → s.proc.core.exMem.cntrlWord.writeMem = true →
    z.dCacheResp = true

instance (Q : Rv32iWord → Prop) [DecidablePred Q] (image : Bytes 30) (z : Signals) (s : System) :
    Decidable (Served Q image z s) :=
  decidable_of_iff ((z.iCacheMiss = false → Q s.proc.pc →
      z.iCacheRdata = wordAt image s.proc.pc) ∧
    (z.dCacheMiss = false → s.proc.core.exMem.cntrlWord.readMem = true →
      z.dCacheRdata = readMem s.mem s.proc.core.exMem.aluVal) ∧
    (z.dCacheMiss = false → s.proc.core.exMem.cntrlWord.writeMem = true → z.dCacheResp = true))
    ⟨fun ⟨fetch, load, store⟩ => ⟨fetch, load, store⟩, fun h => ⟨h.fetch, h.load, h.store⟩⟩

/-- A program that raises no exception, stays within its code and leaves it alone. -/
structure Proper (Q : Rv32iWord → Prop) (s : Hart) : Prop where
  legal : ∀ n, (trace s n).Legal
  within : ∀ n, Q (trace s n).pc
  unmodified : ∀ n, wordAt (trace s n).mem (trace s n).pc = wordAt s.mem (trace s n).pc

structure At (s : Hart) (p : IfId) : Prop where
  pc : p.pcReg = s.pc
  fetched : FromProgram (fun _ => s.fetch) p

section Retire

variable {h : Hart} {c : Core} {p : IfId} {rData : Rv32iWord}

theorem agrees_at (legal : h.Legal) (here : At h p) (exMem : InExMem c (some p))
    (regs : settled c = h.regs) :
    ∃ i, decode h.fetch = some i ∧ h.Aligned i ∧ Encodes p.instrMemRdata i ∧
      Agrees c.exMem (executeOnce zeroControlWord false p (h.operand1 i) (h.operand2 i)) ∧
      h.redirects p = redirecting c.exMem := by
  obtain ⟨i, dec, aligned⟩ := legal.decodes
  have supported : Supported h.fetch := by
    rw [Supported, dec]
    rfl
  obtain ⟨j, dec', enc, agrees, redirects⟩ := @retire_agrees
    (fun _ => h.fetch) c p h.arch supported exMem here.fetched.word regs
  obtain rfl : i = j := Option.some.inj (dec.symm.trans dec')
  exact ⟨i, dec, aligned, enc, agrees, (redirects_of_decode dec).trans redirects⟩

private theorem retire_regs (legal : h.Legal) (here : At h p) (exMem : InExMem c (some p))
    (regs : settled c = h.regs)
    (loaded : c.exMem.cntrlWord.readMem = true → rData = wordAt h.mem c.exMem.aluVal) :
    applyWrite (settled c) (regWriteOf (memStage c.exMem rData)) = h.step.regs := by
  obtain ⟨i, dec, aligned, enc, agrees, -⟩ := agrees_at legal here exMem regs
  rw [regs, agrees.regWriteOf_eq, regWrite_correct rData enc, step_of_decode dec, here.pc]
  refine congrArg (applyWrite h.regs) (regWrite_eq aligned ?_)
  intro op rd rs1 imm isLoad
  subst isLoad
  have contents : executeOnce zeroControlWord false p (h.operand1 (.load op rd rs1 imm))
      (h.operand2 (.load op rd rs1 imm)) = _ := executeOnce_encodes enc
  have readMem := agrees.cntrlWord
  have address := agrees.aluVal
  rw [contents] at readMem address
  cases enc with
  | load opcode kind =>
    have word := loaded (by rw [readMem]; rfl)
    rw [address] at word
    exact word

private theorem retire_mem (legal : h.Legal) (here : At h p) (exMem : InExMem c (some p))
    (regs : settled c = h.regs) :
    wordsOf h.step.mem = applyStore (wordsOf h.mem) (memWrite c) := by
  obtain ⟨i, dec, aligned, enc, agrees, -⟩ := agrees_at legal here exMem regs
  rw [memWrite_agrees exMem agrees 0#4, step_of_decode dec]
  exact stored_eq 0#4 enc aligned

private theorem retire_pc (legal : h.Legal) (here : At h p) (straight : h.redirects p = false) :
    h.step.pc = predicted p := by
  obtain ⟨i, dec, -⟩ := legal.decodes
  have enc : Encodes p.instrMemRdata i := here.fetched.word ▸ encodes_of_decode dec
  rw [redirects_of_decode dec] at straight
  rw [step_of_decode dec, ← here.pc]
  exact successor_of_straight enc here.fetched.pred straight

end Retire

/-- The packets from a state on and the program counter of fetch; from a redirect on they
may be anything. -/
def OnPath (h : Hart) (pc : Rv32iWord) : List IfId → Prop
  | [] => pc = h.pc
  | p :: ps => At h p ∧ (h.redirects p = false → OnPath h.step pc ps)

def behind (h : Hart) : Option IfId → Hart
  | none => h
  | some _ => h.step

def diverts (h : Hart) (o : Option IfId) : Bool := o.any h.redirects

section Path

variable {h start : Hart} {pc : Rv32iWord} {ps : List IfId} {p : IfId} {o : Option IfId}

private theorem onPath_behind (path : OnPath h pc (o.toList ++ ps))
    (straight : diverts h o = false) :
    OnPath (behind h o) pc ps := by
  cases o with
  | none => exact path
  | some p => exact path.2 straight

private theorem onPath_cut {pc' : Rv32iWord} {ps' : List IfId} (path : OnPath h pc (o.toList ++ ps))
    (diverted : diverts h o = true) : OnPath h pc' (o.toList ++ ps') := by
  cases o with
  | none => cases diverted
  | some p =>
    refine ⟨path.1, fun straight => ?_⟩
    have redirects : h.redirects p = true := diverted
    rw [straight] at redirects
    cases redirects

private theorem onPath_snoc (path : OnPath h pc ps) (reached : ∃ n, h = trace start n)
    (legal : ∀ n, (trace start n).Legal) (next : ∀ n, pc = (trace start n).pc →
      At (trace start n) p) : OnPath h (predicted p) (ps ++ [p]) := by
  induction ps generalizing h with
  | nil =>
    obtain ⟨n, rfl⟩ := reached
    have here := next n path
    exact ⟨here, fun straight => (retire_pc (legal n) here straight).symm⟩
  | cons q ps ih =>
    obtain ⟨n, rfl⟩ := reached
    exact ⟨path.1, fun straight => ih (path.2 straight) ⟨n + 1, rfl⟩⟩

theorem redirecting_eq {c : Core} (legal : h.Legal) (exMem : InExMem c o)
    (regs : settled c = h.regs) (path : OnPath h pc (o.toList ++ ps)) :
    redirecting c.exMem = diverts h o := by
  cases o with
  | none => exact bubble_straight exMem
  | some p =>
    obtain ⟨i, -, -, -, -, same⟩ := agrees_at legal path.1 exMem regs
    exact same.symm

end Path

/-- The state that EX/MEM finds: the trace after as many instructions as have retired. -/
def reached (start : Hart) (s : System) : Hart := trace start s.proc.retired.length

/-- What the pipeline registers hold. Everything behind a redirect in EX/MEM is left open. -/
structure Contents (p : Processor) : Prop where
  memWbWrites : p.core.memWb.regDest ≠ 0#5 → p.core.memWb.cntrlWord.writeReg
  exMem : InExMem p.core p.tags.exMem
  idEx : redirecting p.core.exMem = false → InIdEx p.core p.tags.idEx
  ifIdBubble : p.tags.ifId = none → p.core.ifId.instrMemRdata = nopWord
  ifIdPacket : ∀ q ∈ p.tags.ifId, q = p.core.ifId
  heldMispredicted : p.core.exMem.opcode = opJal ∨ p.core.exMem.opcode = opJalr →
    p.core.heldChecker.mispredicted = false

/-- The invariant of the pipeline over a proper program; a store in EX/MEM may have taken
effect already. -/
structure Inv (start : Hart) (s : System) : Prop where
  contents : Contents s.proc
  onPath : OnPath (reached start s) s.proc.pc
    (s.proc.tags.exMem.toList ++ (s.proc.tags.idEx.toList ++ s.proc.tags.ifId.toList))
  regs : settled s.proc.core = (reached start s).regs
  mem : s.mem = wordsOf (reached start s).mem ∨
    s.mem = applyStore (wordsOf (reached start s).mem) (memWrite s.proc.core)
  retired : s.proc.retired.map (fun r => (r.1.pcReg, r.1.instrMemRdata)) =
    (List.range s.proc.retired.length).map fun n => ((trace start n).pc, (trace start n).fetch)

def erased (c : Core) : Core := { c with ifId := ⟨0#32, nopWord, false, 0#32⟩ }

private theorem dataInv_erased {c : Core} {t : Tags} (memWbWrites : c.memWb.regDest ≠ 0#5 →
      c.memWb.cntrlWord.writeReg) (exMem : InExMem c t.exMem) (idEx : InIdEx c t.idEx) :
    DataInv (erased c) { t with ifId := none } :=
  ⟨memWbWrites, .bubble rfl, idEx.congr rfl rfl rfl rfl, exMem.congr rfl rfl⟩

private theorem memWrite_frozen {c c' : Core} {o : Option IfId} (exMem : InExMem c o)
    (exMem' : InExMem c' o) (same : c'.exMem = c.exMem) : memWrite c' = memWrite c := by
  rw [memWrite_eq exMem 0#4, memWrite_eq exMem' 0#4, same]

private theorem store_once {start : Hart} {s : System} (inv : Inv start s) :
    applyStore s.mem (memWrite s.proc.core) =
      applyStore (wordsOf (reached start s).mem) (memWrite s.proc.core) := by
  rcases inv.mem with before | taken
  · rw [before]
  · rw [taken, applyStore_twice]

section Frozen

variable {start : Hart} {z : Signals} {s : System}

theorem retired_frozen (frozen : z.miss = true) : (s.step z).proc.retired = s.proc.retired := by
  have step := step_retired (y := z.cycle) z.program s.proc rfl
  rw [show z.cycle.miss = true from frozen] at step
  exact step

theorem exMem_frozen (frozen : z.miss = true) :
    (s.step z).proc.core.exMem = s.proc.core.exMem := by
  have step := step_exMem (y := z.cycle) z.program s.proc rfl
  rw [show z.cycle.miss = true from frozen] at step
  exact step

theorem tags_frozen (frozen : z.miss = true) : (s.step z).proc.tags =
    if redirecting s.proc.core.exMem then ⟨none, none, s.proc.tags.exMem⟩ else s.proc.tags := by
  have step := step_tags (y := z.cycle) z.program s.proc rfl
  rw [show z.cycle.miss = true from frozen, flush_eq] at step
  refine Eq.trans step ?_
  cases redirecting s.proc.core.exMem <;> rfl

private theorem contents_frozen (contents : Contents s.proc) (frozen : z.miss = true) :
    Contents (s.step z).proc := by
  have flush : (s.proc.coreIn z.program z.cycle).flush = redirecting s.proc.core.exMem :=
    flush_eq s.proc.core
  have still : (s.proc.coreIn z.program z.cycle).frozen = true := frozen
  have tags' := tags_frozen (s := s) frozen
  have exMem' := exMem_frozen (s := s) frozen
  have memWb' := next_memWb (i := s.proc.coreIn z.program z.cycle) (c := s.proc.core) rfl
  have idEx' := next_idEx (i := s.proc.coreIn z.program z.cycle) (c := s.proc.core) rfl
  have ifId' := next_ifId (i := s.proc.coreIn z.program z.cycle) (c := s.proc.core) rfl
  have settled' : settled (s.step z).proc.core = settled s.proc.core := settled_frozen rfl frozen
  rw [if_pos still] at memWb'
  simp only [flush, still, Bool.true_or, if_true] at idEx' ifId'
  constructor
  · change (s.proc.core.next _).memWb.regDest ≠ 0#5 → (s.proc.core.next _).memWb.cntrlWord.writeReg
    rw [memWb']
    exact contents.memWbWrites
  · have tag : (s.step z).proc.tags.exMem = s.proc.tags.exMem := by
      rw [tags']
      split_ifs <;> rfl
    rw [tag]
    exact contents.exMem.congr exMem' settled'
  · intro straight
    rw [exMem'] at straight
    rw [straight] at tags' idEx'
    rw [tags']
    exact (contents.idEx straight).congr idEx' exMem' memWb' settled'
  · change _ → (s.proc.core.next _).ifId.instrMemRdata = nopWord
    rw [tags', ifId']
    cases redirecting s.proc.core.exMem with
    | true => exact fun _ => rfl
    | false => exact contents.ifIdBubble
  · change ∀ q ∈ _, q = (s.proc.core.next _).ifId
    rw [tags', ifId']
    cases redirecting s.proc.core.exMem with
    | true =>
      intro q packet
      cases packet
    | false => exact contents.ifIdPacket
  · exact heldMispredicted_step contents.heldMispredicted rfl

theorem inv_frozen (legal : ∀ n, (trace start n).Legal) (inv : Inv start s)
    (frozen : z.miss = true) : Inv start (s.step z) := by
  have retired' := retired_frozen (s := s) frozen
  have here : reached start (s.step z) = reached start s := by rw [reached, retired', reached]
  have tags' := tags_frozen (s := s) frozen
  have redirects := redirecting_eq (legal _) inv.contents.exMem inv.regs inv.onPath
  have contents := contents_frozen inv.contents frozen
  have tag : (s.step z).proc.tags.exMem = s.proc.tags.exMem := by
    rw [tags']
    split_ifs <;> rfl
  have write' : memWrite (s.step z).proc.core = memWrite s.proc.core :=
    memWrite_frozen inv.contents.exMem (tag ▸ contents.exMem) (exMem_frozen frozen)
  refine ⟨contents, ?_, ?_, ?_, ?_⟩
  · have pc' := step_pc (y := z.cycle) z.program s.proc rfl
    rw [show z.cycle.miss = true from frozen] at pc'
    have still : (s.step z).proc.pc = s.proc.pc := pc'
    rw [here, still, tags']
    cases redirect : redirecting s.proc.core.exMem with
    | true => exact onPath_cut inv.onPath (redirects.symm.trans redirect)
    | false => exact inv.onPath
  · rw [here, ← inv.regs]
    exact settled_frozen rfl frozen
  · rw [here, write']
    change (if z.dCacheResp then _ else _) = _ ∨ (if z.dCacheResp then _ else _) = _
    split_ifs
    · exact .inr (store_once inv)
    · exact inv.mem
  · rw [retired']
    exact inv.retired

end Frozen

section Moved

variable {Q : Rv32iWord → Prop} {start : Hart} {z : Signals} {s : System}

theorem memWrite_load {c : Core} {o : Option IfId} (exMem : InExMem c o)
    (load : c.exMem.cntrlWord.readMem = true) : memWrite c = none := by
  have noWrite : c.exMem.cntrlWord.writeMem = false := by
    cases exMem with
    | bubble idle => exact idle.writeMem
    | packet enc agrees =>
      rw [agrees.cntrlWord, executeOnce_encodes enc] at load ⊢
      cases enc with
      | load op kind => rfl
      | lui op | auipc op | jal op | jalr op | branch op _ | store op _ | arithImm op _
      | arith op _ => cases load
  simp [memWrite, noWrite]

theorem retired_moved (hit : z.miss = false) : (s.step z).proc.retired =
    s.proc.retired ++ (s.proc.tags.exMem.map (·, z.dCacheRdata)).toList := by
  have step := step_retired (y := z.cycle) z.program s.proc rfl
  rw [show z.cycle.miss = false from hit] at step
  exact step

private theorem reached_moved (hit : z.miss = false) :
    reached start (s.step z) = behind (reached start s) s.proc.tags.exMem := by
  rw [reached, retired_moved hit]
  cases s.proc.tags.exMem with
  | none => simp [behind, reached]
  | some p =>
    rw [List.length_append]
    rfl

private theorem regs_moved (legal : ∀ n, (trace start n).Legal) (inv : Inv start s)
    (hit : z.miss = false) (served : Served Q start.mem z s) :
    settled (s.step z).proc.core = (reached start (s.step z)).regs := by
  have moved : settled (s.step z).proc.core = applyWrite (settled s.proc.core)
      (regWriteOf (memStage s.proc.core.exMem z.dCacheRdata)) := settled_moved rfl hit
  have dHit : z.dCacheMiss = false := (Bool.or_eq_false_iff.mp hit).2
  have path := inv.onPath
  have exMem := inv.contents.exMem
  rw [moved, reached_moved hit]
  generalize s.proc.tags.exMem = o at path exMem
  cases o with
  | none =>
    have noReg : regWriteOf (memStage s.proc.core.exMem z.dCacheRdata) = none := by
      cases exMem with
      | bubble idle => simp [regWriteOf, memStage, idle.regDest]
    rw [noReg]
    exact inv.regs
  | some p =>
    refine retire_regs (legal _) path.1 exMem inv.regs fun load => ?_
    have same := store_once inv
    rw [memWrite_load exMem load] at same
    rw [served.load dHit load, show s.mem = _ from same]
    rfl

private theorem mem_moved (legal : ∀ n, (trace start n).Legal) (inv : Inv start s)
    (hit : z.miss = false) (served : Served Q start.mem z s) :
    (s.step z).mem = wordsOf (reached start (s.step z)).mem := by
  have dHit : z.dCacheMiss = false := (Bool.or_eq_false_iff.mp hit).2
  have path := inv.onPath
  have exMem := inv.contents.exMem
  have taken : (s.step z).mem = applyStore s.mem (memWrite s.proc.core) := by
    change (if z.dCacheResp then _ else _) = _
    cases writes : s.proc.core.exMem.cntrlWord.writeMem with
    | true => rw [served.store dHit writes, if_pos rfl]
    | false =>
      have noWrite : memWrite s.proc.core = none := by simp [memWrite, writes]
      rw [noWrite]
      cases z.dCacheResp <;> rfl
  rw [taken, store_once inv, reached_moved hit]
  generalize s.proc.tags.exMem = o at path exMem
  cases o with
  | none =>
    have noWrite : memWrite s.proc.core = none := by
      cases exMem with
      | bubble idle => simp [memWrite, idle.writeMem]
    rw [noWrite]
    rfl
  | some p => exact (retire_mem (legal _) path.1 exMem inv.regs).symm

private theorem exMem_moved (hit : z.miss = false) : (s.step z).proc.core.exMem =
    if redirecting s.proc.core.exMem then clearedExMem 0x13#7 else s.proc.core.executed := by
  have step := step_exMem (y := z.cycle) z.program s.proc rfl
  rw [show z.cycle.miss = false from hit, flush_eq] at step
  exact step

theorem tags_moved (hit : z.miss = false) : (s.step z).proc.tags =
    if redirecting s.proc.core.exMem then .empty
    else if s.proc.core.loadUse then ⟨s.proc.tags.ifId, none, s.proc.tags.idEx⟩
    else ⟨some (s.proc.fetched z.program z.cycle), s.proc.tags.ifId, s.proc.tags.idEx⟩ := by
  have step := step_tags (y := z.cycle) z.program s.proc rfl
  rw [show z.cycle.miss = false from hit, flush_eq] at step
  refine Eq.trans step ?_
  cases redirecting s.proc.core.exMem <;> cases s.proc.core.loadUse <;> rfl

private theorem contents_flushed (contents : Contents s.proc) (hit : z.miss = false)
    (redirect : redirecting s.proc.core.exMem = true) : Contents (s.step z).proc := by
  have flush : (s.proc.coreIn z.program z.cycle).flush = true :=
    (flush_eq s.proc.core).trans redirect
  have moves : (s.proc.coreIn z.program z.cycle).frozen = false := hit
  have tags' := tags_moved (s := s) hit
  have exMem' := exMem_moved (s := s) hit
  have memWb' := next_memWb (i := s.proc.coreIn z.program z.cycle) (c := s.proc.core) rfl
  have idEx' := next_idEx (i := s.proc.coreIn z.program z.cycle) (c := s.proc.core) rfl
  have ifId' := next_ifId (i := s.proc.coreIn z.program z.cycle) (c := s.proc.core) rfl
  rw [if_pos redirect] at tags' exMem'
  rw [moves] at memWb'
  rw [if_pos flush] at idEx' ifId'
  constructor
  · change (s.proc.core.next _).memWb.regDest ≠ 0#5 → (s.proc.core.next _).memWb.cntrlWord.writeReg
    rw [memWb']
    exact contents.exMem.writes
  · rw [tags']
    exact .bubble (exMem' ▸ ⟨rfl, rfl, rfl, rfl, rfl⟩)
  · intro _
    rw [tags']
    exact .bubble (idEx' ▸ ⟨rfl, rfl, rfl, rfl, rfl⟩)
  · intro _
    exact congrArg IfId.instrMemRdata ifId'
  · rw [tags']
    intro q packet
    cases packet
  · exact heldMispredicted_step contents.heldMispredicted rfl

private theorem inExMem_moved (contents : Contents s.proc) (hit : z.miss = false)
    (straight : redirecting s.proc.core.exMem = false) :
    InExMem (s.step z).proc.core s.proc.tags.idEx := by
  have exMem' := exMem_moved (s := s) hit
  rw [straight] at exMem'
  have inv := dataInv_erased contents.memWbWrites contents.exMem (contents.idEx straight)
  have settled' := @settled_moved (s.proc.coreIn z.program z.cycle) s.proc.core rfl hit
  exact @inExMem_executed _ (erased s.proc.core) { s.proc.tags with ifId := none } _ inv exMem'
    settled'

theorem pcSel_moved (contents : Contents s.proc)
    (straight : redirecting s.proc.core.exMem = false) :
    s.proc.pcSel z.program z.cycle = predicted (s.proc.fetched z.program z.cycle) := by
  have inv := dataInv_erased contents.memWbWrites contents.exMem (contents.idEx straight)
  exact @pcSel_straight
    { s.proc with core := erased s.proc.core, tags := { s.proc.tags with ifId := none } }
    z.program z.cycle inv ((flush_eq s.proc.core).trans straight)

private theorem inIfId_behind (legal : ∀ n, (trace start n).Legal) (contents : Contents s.proc)
    {h : Hart} (reachable : ∃ n, h = trace start n)
    (path : OnPath h s.proc.pc (s.proc.tags.idEx.toList ++ s.proc.tags.ifId.toList))
    (straight : diverts h s.proc.tags.idEx = false) :
    InIfId s.proc.core s.proc.tags.ifId := by
  cases ho : s.proc.tags.ifId with
  | none => exact .bubble (contents.ifIdBubble ho)
  | some p =>
    rw [ho] at path
    obtain ⟨n, here⟩ : ∃ n, behind h s.proc.tags.idEx = trace start n := by
      obtain ⟨n, rfl⟩ := reachable
      cases s.proc.tags.idEx with
      | none => exact ⟨n, rfl⟩
      | some q => exact ⟨n + 1, rfl⟩
    have next := (onPath_behind path straight).1
    rw [here] at next
    obtain ⟨i, dec, -⟩ := (legal n).decodes
    have supported : Supported p.instrMemRdata := by
      rw [next.fetched.word, Supported, dec]
      rfl
    obtain rfl := contents.ifIdPacket p ho
    exact .packet supported

theorem contents_moved (contents : Contents s.proc) (hit : z.miss = false)
    (straight : redirecting s.proc.core.exMem = false)
    (front : redirecting (s.step z).proc.core.exMem = false →
      InIfId s.proc.core s.proc.tags.ifId) : Contents (s.step z).proc := by
  have flush : (s.proc.coreIn z.program z.cycle).flush = false :=
    (flush_eq s.proc.core).trans straight
  have moves : (s.proc.coreIn z.program z.cycle).frozen = false := hit
  have tags' := tags_moved (s := s) hit
  have exMem' := exMem_moved (s := s) hit
  have memWb' := next_memWb (i := s.proc.coreIn z.program z.cycle) (c := s.proc.core) rfl
  have idEx' := next_idEx (i := s.proc.coreIn z.program z.cycle) (c := s.proc.core) rfl
  have ifId' := next_ifId (i := s.proc.coreIn z.program z.cycle) (c := s.proc.core) rfl
  have inExMem' := inExMem_moved contents hit straight
  rw [straight] at tags' exMem'
  simp only [moves, flush, Bool.false_or, Bool.false_eq_true, if_false] at memWb' idEx' ifId' tags'
  constructor
  · change (s.proc.core.next _).memWb.regDest ≠ 0#5 → (s.proc.core.next _).memWb.cntrlWord.writeReg
    rw [memWb']
    exact contents.exMem.writes
  · have tag : (s.step z).proc.tags.exMem = s.proc.tags.idEx := by
      rw [tags']
      split_ifs <;> rfl
    rw [tag]
    exact inExMem'
  · intro straight'
    have inv : DataInv s.proc.core s.proc.tags :=
      ⟨contents.memWbWrites, front straight', contents.idEx straight, contents.exMem⟩
    rw [tags']
    cases loadUse : s.proc.core.loadUse with
    | true =>
      rw [loadUse] at idEx'
      exact .bubble (idEx' ▸ ⟨rfl, rfl, rfl, rfl, rfl⟩)
    | false =>
      rw [loadUse] at idEx'
      exact inIdEx_decoded (i := s.proc.coreIn z.program z.cycle) inv loadUse idEx' exMem' memWb'
        (settled_moved rfl hit)
  · change _ → (s.proc.core.next _).ifId.instrMemRdata = nopWord
    rw [tags', ifId']
    cases s.proc.core.loadUse with
    | true => exact contents.ifIdBubble
    | false =>
      intro empty
      cases empty
  · change ∀ q ∈ _, q = (s.proc.core.next _).ifId
    rw [tags', ifId']
    cases s.proc.core.loadUse with
    | true => exact contents.ifIdPacket
    | false => exact fun q same => (Option.some.inj same).symm
  · exact heldMispredicted_step contents.heldMispredicted rfl

private theorem archStep_pc {prog : Program} {s : Arch} {i : Instr}
    (dec : decode (prog s.pc) = some i) (word : Rv32iWord) : (s.step prog word).pc =
      i.successor s.pc (readReg s.regs (source1 i)) (readReg s.regs (source2 i)) := by
  rw [Arch.step, dec]

private theorem pc_flushed (legal : ∀ n, (trace start n).Legal) (inv : Inv start s)
    (hit : z.miss = false) (redirect : redirecting s.proc.core.exMem = true)
    (kept : losesRedirect z.cycle s.proc = false) :
    (s.step z).proc.pc = (reached start (s.step z)).pc := by
  have noLoadUse : s.proc.core.loadUse = false := by
    have miss : z.cycle.miss = false := hit
    simpa [losesRedirect, redirect, miss] using kept
  have pc' := step_pc (y := z.cycle) z.program s.proc rfl
  rw [show z.cycle.miss = false from hit, noLoadUse] at pc'
  have path := inv.onPath
  have exMem := inv.contents.exMem
  rw [show (s.step z).proc.pc = _ from pc', reached_moved hit]
  generalize s.proc.tags.exMem = o at path exMem
  cases o with
  | none =>
    rw [bubble_straight exMem] at redirect
    cases redirect
  | some p =>
    obtain ⟨i, dec, -⟩ := (legal s.proc.retired.length).decodes
    have supported : Supported (reached start s).fetch := by
      rw [Supported, reached, dec]
      rfl
    have target := @retire_redirect (fun _ => (reached start s).fetch) _ p (reached start s).arch
      supported exMem path.1.pc path.1.fetched.word inv.regs inv.contents.heldMispredicted redirect
      0#32 (s.proc.brPredTaken z.program z.cycle) s.proc.pc (s.proc.brPredPc z.program z.cycle)
    refine Eq.trans target ?_
    have dec' : decode (reached start s).fetch = some i := dec
    rw [behind, step_of_decode dec']
    exact archStep_pc (s := (reached start s).arch) dec' _

private theorem fetched_at (proper : Proper Q start) (hit : z.miss = false)
    (served : Served Q start.mem z s) (n : Nat) (here : s.proc.pc = (trace start n).pc) :
    At (trace start n) (s.proc.fetched z.program z.cycle) := by
  have iHit : z.iCacheMiss = false := (Bool.or_eq_false_iff.mp hit).1
  have word := served.fetch iHit (here ▸ proper.within n)
  have fetched := fetch_eq (proper.legal n).fetchAligned
  rw [proper.unmodified n, ← here, ← word] at fetched
  refine ⟨here, ?_⟩
  have packet := @fromProgram_fetched z.program z.cycle s.proc hit
  exact ⟨packet.word.trans fetched.symm, packet.pred⟩

theorem inv_moved (proper : Proper Q start) (inv : Inv start s) (hit : z.miss = false)
    (served : Served Q start.mem z s) (kept : losesRedirect z.cycle s.proc = false) :
    Inv start (s.step z) := by
  have legal := proper.legal
  have regs := regs_moved legal inv hit served
  have mem := mem_moved legal inv hit served
  have next : reached start (s.step z) = behind (reached start s) s.proc.tags.exMem :=
    reached_moved hit
  have tags' := tags_moved (s := s) hit
  have redirects := redirecting_eq (legal _) inv.contents.exMem inv.regs inv.onPath
  have retired : (s.step z).proc.retired.map (fun r => (r.1.pcReg, r.1.instrMemRdata)) =
      (List.range (s.step z).proc.retired.length).map
        fun n => ((trace start n).pc, (trace start n).fetch) := by
    have path := inv.onPath
    rw [retired_moved hit]
    generalize s.proc.tags.exMem = o at path
    cases o with
    | none => simpa using inv.retired
    | some p =>
      have here := path.1
      rw [List.map_append, inv.retired, List.length_append]
      change _ = (List.range (_ + 1)).map _
      rw [List.range_succ, List.map_append]
      simp [reached, here.pc, here.fetched.word]
  cases redirect : redirecting s.proc.core.exMem with
  | true =>
    rw [redirect] at tags'
    have contents := contents_flushed inv.contents hit redirect
    refine ⟨contents, ?_, regs, .inl mem, retired⟩
    rw [tags']
    exact pc_flushed legal inv hit redirect kept
  | false =>
    rw [redirect] at tags'
    have straight : diverts (reached start s) s.proc.tags.exMem = false :=
      redirects.symm.trans redirect
    have path := onPath_behind inv.onPath straight
    rw [← next] at path
    have inExMem' := inExMem_moved inv.contents hit redirect
    have redirects' := redirecting_eq (legal _) inExMem' regs path
    have front (straight' : redirecting (s.step z).proc.core.exMem = false) :
        InIfId s.proc.core s.proc.tags.ifId :=
      inIfId_behind legal inv.contents ⟨_, rfl⟩ path (redirects'.symm.trans straight')
    refine ⟨contents_moved inv.contents hit redirect front, ?_, regs, .inl mem, retired⟩
    have pc' := step_pc (y := z.cycle) z.program s.proc rfl
    rw [show z.cycle.miss = false from hit] at pc'
    rw [tags', show (s.step z).proc.pc = _ from pc']
    cases loadUse : s.proc.core.loadUse with
    | true => simpa using path
    | false =>
      have sel := pcSel_moved (z := z) inv.contents redirect
      have longer := onPath_snoc (p := s.proc.fetched z.program z.cycle) path ⟨_, rfl⟩ legal
        (fetched_at proper hit served)
      simpa [sel] using longer

theorem inv_step (proper : Proper Q start) (z : Signals) (s : System) (inv : Inv start s)
    (ok : Served Q start.mem z s ∧ losesRedirect z.cycle s.proc = false) :
    Inv start (s.step z) := by
  cases miss : z.miss with
  | true => exact inv_frozen proper.legal inv miss
  | false => exact inv_moved proper inv miss ok.1 ok.2

end Moved

section Runs

variable {Q : Rv32iWord → Prop} {start : Hart}

def Admitted (Q : Rv32iWord → Prop) (image : Bytes 30) (z : Signals) (s : System) : Prop :=
  Served Q image z s ∧ losesRedirect z.cycle s.proc = false

instance (Q : Rv32iWord → Prop) [DecidablePred Q] (image : Bytes 30) (z : Signals) (s : System) :
    Decidable (Admitted Q image z s) := inferInstanceAs (Decidable (_ ∧ _))

/-- The processor has done the first instructions of the trace, and nothing else but perhaps
the store of the next one. -/
structure Follows (start : Hart) (s : System) : Prop where
  packets : s.proc.retired.map (fun r => (r.1.pcReg, r.1.instrMemRdata)) =
    (List.range s.proc.retired.length).map fun n => ((trace start n).pc, (trace start n).fetch)
  regs : settled s.proc.core = (trace start s.proc.retired.length).regs
  mem : s.mem = wordsOf (trace start s.proc.retired.length).mem ∨
    s.mem = wordsOf (trace start (s.proc.retired.length + 1)).mem

theorem Inv.follows {s : System} (legal : ∀ n, (trace start n).Legal) (inv : Inv start s) :
    Follows start s := by
  refine ⟨inv.retired, inv.regs, ?_⟩
  rcases inv.mem with before | taken
  · exact .inl before
  · have path := inv.onPath
    have exMem := inv.contents.exMem
    generalize s.proc.tags.exMem = o at path exMem
    cases o with
    | none =>
      have noWrite : memWrite s.proc.core = none := by
        cases exMem with
        | bubble idle => simp [memWrite, idle.writeMem]
      rw [noWrite] at taken
      exact .inl taken
    | some p =>
      refine .inr (taken.trans ?_)
      exact (retire_mem (legal _) path.1 exMem inv.regs).symm

/-- The pipeline follows the trace, one instruction at least in four cycles without a miss. -/
theorem inv_run (proper : Proper Q start) {s : System} (inv : Inv start s) {zs : List Signals}
    (admitted : Along System.step (Admitted Q start.mem) s zs) :
    Inv start (run System.step s zs) ∧
      zs.countP (fun z => !z.miss) + 4 * s.proc.retired.length +
          due (run System.step s zs).proc.tags ≤
        4 * (run System.step s zs).proc.retired.length + due s.proc.tags := by
  induction zs generalizing s with
  | nil => exact ⟨inv, by simp [run]⟩
  | cons z zs ih =>
    obtain ⟨inv', bound⟩ := ih (inv_step proper z s inv admitted.1) admitted.2
    have progress := @due_step z.program z.cycle s.proc inv.contents.exMem inv.contents.idEx rfl
    have misses : z.cycle.miss = z.miss := rfl
    have next : (s.step z).proc = s.proc.step z.program z.cycle := rfl
    refine ⟨inv', ?_⟩
    rw [misses, ← next] at progress
    simp only [run, List.countP_cons] at bound ⊢
    cases miss : z.miss <;> simp only [miss] at progress ⊢ <;> simp at progress ⊢ <;> omega

theorem inv_reset (prog : Program) {resets : List Cycle} (rst : ∀ y ∈ resets, y.rst = true)
    (enough : 3 ≤ resets.length) (p : Processor) (image : Bytes 30) :
    let p' := run (Processor.step prog) p resets
    Inv (boot image) ⟨p', wordsOf image⟩ ∧ p'.tags = .empty ∧ p'.retired = [] := by
  have settles := resetFor_run prog rst p
  intro p'
  change Mp4.Cpu.ControlFlow.ResetFor resets.length p' at settles
  generalize p' = p' at *
  obtain ⟨pc, tags, retired⟩ := settles.first (by omega)
  obtain ⟨regs, memWb, ifId⟩ := settles.core.first (by omega)
  have idEx := settles.core.second (by omega)
  have exMem := settles.core.third enough
  have here : reached (boot image) ⟨p', wordsOf image⟩ = boot image := by
    rw [reached, retired]
    rfl
  have quiet : regWriteOf p'.core.memWb = none := by simp [regWriteOf, memWb]
  refine ⟨⟨⟨?_, ?_, ?_, ?_, ?_, ?_⟩, ?_, ?_, ?_, ?_⟩, tags, retired⟩
  · exact fun writes => absurd memWb writes
  · exact tags ▸ .bubble (exMem ▸ ⟨rfl, rfl, rfl, rfl, rfl⟩)
  · exact fun _ => tags ▸ .bubble (idEx ▸ ⟨rfl, rfl, rfl, rfl, rfl⟩)
  · exact fun _ => ifId
  · rw [tags]
    intro q packet
    cases packet
  · rw [exMem]
    rintro (jump | jump) <;> cases jump
  · rw [here, tags]
    exact pc
  · rw [here, settled, quiet, regs]
    rfl
  · rw [here]
    exact .inl rfl
  · rw [retired]
    rfl

end Runs

/-- From reset, over every image whose program is proper, for every pattern of misses and
predictions and whatever is fetched on wrong paths: the packets that have left EX/MEM are the
instructions of the RV32I machine in order, the registers and the memory are the machine's,
and one instruction at least retires in every four cycles without a miss. -/
theorem executes_program (Q : Rv32iWord → Prop) (image : Bytes 30)
    (proper : Proper Q (boot image)) (prog : Program) (p : Processor) (resets : List Cycle)
    (rst : ∀ y ∈ resets, y.rst = true) (enough : 3 ≤ resets.length) (zs : List Signals)
    (admitted : Along System.step (Admitted Q image)
      ⟨run (Processor.step prog) p resets, wordsOf image⟩ zs) :
    let s := run System.step ⟨run (Processor.step prog) p resets, wordsOf image⟩ zs
    Follows (boot image) s ∧
      zs.countP (fun z => !z.miss) ≤ 4 * s.proc.retired.length + 3 := by
  intro s
  obtain ⟨start, -, empty⟩ := inv_reset prog rst enough p image
  obtain ⟨inv, bound⟩ := inv_run proper start admitted
  refine ⟨inv.follows proper.legal, ?_⟩
  have first := due_le (run (Processor.step prog) p resets).tags
  rw [empty] at bound
  simp only [List.length_nil] at bound
  change zs.countP (fun z => !z.miss) ≤ 4 * (run System.step _ zs).proc.retired.length + 3
  omega

/-- `addi x1, x0, 5`, `sb x1, 0(x0)`, `lb x2, 0(x0)` and a jump back to `0x60`. -/
def storeLoop : Words 30 := fun a =>
  if a = 0x18#30 then 0x00500093#32
  else if a = 0x19#30 then 0x00100023#32
  else if a = 0x1a#30 then 0x00000103#32
  else if a = 0x1b#30 then 0xff5ff06f#32
  else nopWord

def inLoop (pc : Rv32iWord) : Prop :=
  pc = 0x60#32 ∨ pc = 0x64#32 ∨ pc = 0x68#32 ∨ pc = 0x6c#32

instance : DecidablePred inLoop := fun _ => inferInstanceAs (Decidable (_ ∨ _))

structure Looping (s : Hart) : Prop where
  pc : inLoop s.pc
  code : ∀ a, a ≠ 0#30 → wordsOf s.mem a = storeLoop a

theorem looping_fetch {s : Hart} (looping : Looping s) :
    4 ∣ s.pc.toNat ∧ s.fetch = storeLoop (s.pc.extractLsb' 2 30) := by
  obtain ⟨pc, code⟩ := looping
  have aligned : 4 ∣ s.pc.toNat := by
    rcases pc with pc | pc | pc | pc <;> rw [pc] <;> decide
  refine ⟨aligned, ?_⟩
  rw [fetch_eq aligned]
  apply code
  rcases pc with pc | pc | pc | pc <;> rw [pc] <;> decide

private theorem looping_step {s : Hart} (looping : Looping s) : s.Legal ∧ Looping s.step := by
  obtain ⟨aligned, fetch⟩ := looping_fetch looping
  obtain ⟨pc, code⟩ := looping
  rcases pc with pc | pc | pc | pc <;> rw [pc] at fetch
  · have dec : decode s.fetch = some (.arithImm .add 1#5 0#5 5#32) := by rw [fetch]; decide
    refine ⟨⟨aligned, _, dec, trivial⟩, ?_⟩
    rw [step_of_decode dec, pc]
    exact ⟨.inr (.inl rfl), code⟩
  · have dec : decode s.fetch = some (.store .sb 0#5 1#5 0#32) := by rw [fetch]; decide
    refine ⟨⟨aligned, _, dec, Nat.one_dvd _⟩, ?_⟩
    rw [step_of_decode dec, pc]
    have address : wordAddress (s.operand1 (.store .sb 0#5 1#5 0#32) + 0#32) = 0#30 := by
      change wordAddress (0#32 + 0#32) = 0#30
      decide
    refine ⟨.inr (.inr (.inl rfl)), fun a other => ?_⟩
    have elsewhere : a ≠ wordAddress (s.operand1 (.store .sb 0#5 1#5 0#32) + 0#32) := by
      rw [address]
      exact other
    rw [← code a other]
    exact wordsOf_storeBytes_other (StoreOp.size_fits .sb) (Nat.one_dvd _) elsewhere
  · have dec : decode s.fetch = some (.load .lb 2#5 0#5 0#32) := by rw [fetch]; decide
    refine ⟨⟨aligned, _, dec, Nat.one_dvd _⟩, ?_⟩
    rw [step_of_decode dec, pc]
    exact ⟨.inr (.inr (.inr rfl)), code⟩
  · have dec : decode s.fetch = some (.jal 0#5 0xfffffff4#32) := by rw [fetch]; decide
    refine ⟨⟨aligned, _, dec, trivial⟩, ?_⟩
    rw [step_of_decode dec, pc]
    exact ⟨.inl rfl, code⟩

theorem looping (n : Nat) : Looping (trace (boot (bytesOf storeLoop)) n) := by
  induction n with
  | zero => exact ⟨.inl rfl, fun a _ => congrFun (wordsOf_bytesOf storeLoop) a⟩
  | succ n ih => exact (looping_step ih).2

theorem storeLoop_proper : Proper inLoop (boot (bytesOf storeLoop)) := by
  refine ⟨fun n => (looping_step (looping n)).1, fun n => (looping n).pc, fun n => ?_⟩
  have code : ∀ a, a ≠ 0#30 → wordsOf (trace (boot (bytesOf storeLoop)) n).mem a =
      wordsOf (boot (bytesOf storeLoop)).mem a := fun a other =>
    ((looping n).code a other).trans (congrFun (wordsOf_bytesOf storeLoop) a).symm
  apply code
  rcases (looping n).pc with pc | pc | pc | pc <;> rw [pc] <;> decide

def serving (word : Rv32iWord) : Signals := ⟨false, false, false, word, 5#32, true⟩

def turn : List Signals :=
  [serving 0x00500093#32, serving 0x00100023#32, serving 0x00000103#32, serving 0xff5ff06f#32,
    ⟨true, false, false, 7#32, 0#32, true⟩, serving 0xffffffff#32, serving 0xffffffff#32,
    serving 0xffffffff#32, serving 0x00500093#32]

theorem executes_program_loop :
    let s := run System.step ⟨run (Processor.step fun _ => 0#32) poweredUp
      (List.replicate 3 resetCycle), wordsOf (bytesOf storeLoop)⟩ turn
    s.proc.retired.length = 4 ∧ Follows (boot (bytesOf storeLoop)) s ∧
      turn.countP (fun z => !z.miss) ≤ 4 * 4 + 3 := by
  intro s
  have four : s.proc.retired.length = 4 := by decide +kernel
  have result := executes_program inLoop (bytesOf storeLoop) storeLoop_proper (fun _ => 0#32)
    poweredUp (List.replicate 3 resetCycle) (by decide) (by decide) turn (by decide +kernel)
  have progress := result.2
  change _ ≤ 4 * s.proc.retired.length + 3 at progress
  rw [four] at progress
  exact ⟨four, result.1, progress⟩

end Mp4.Machine.Execution
