import Mp4.Machine.Discipline
import Mp4.Memory.Hierarchy
import Mp4.Memory.LineWords

/-!
The processor with its two ports attached to the memory hierarchy. The caches, the arbiter,
the adaptor and the memory of bursts give the processor what it relies on, and the processor
asks as the hierarchy requires, so the whole executes the program in the memory of lines.
-/

set_option autoImplicit false
set_option relaxedAutoImplicit false

namespace Mp4.Machine.Attached

open Mp4.Cpu.Rv32iTypes Mp4.Cpu.PipelineRegs Mp4.Cpu.Isa Mp4.Cpu.DecodeSpec Mp4.Cpu.MemStage
open Mp4.Cpu.SingleInstruction Mp4.Cpu.Pipeline Mp4.Cpu.Forwarding Mp4.Cpu.DataInvariant
open Mp4.Cpu.ControlFlow Mp4.Cpu.Unpipelined Mp4.Lib.Clocked Mp4.Lib.Bits Mp4.Lib.ByteMemory
open Mp4.Memory.Address Mp4.Memory.CachelineAdaptor Mp4.Memory.FourWay.Cache
open Mp4.Memory.FourWay.Refinement Mp4.Memory.LineWords Mp4.Machine.Architecture
open Mp4.Machine.Execution Mp4.Machine.Discipline

/-- What is driven from outside in one cycle: the miss signals, the predictor's answer, the
memory of bursts and the PLRU bits that a hit settles on. -/
structure Inputs where
  iCacheMiss : Bool
  dCacheMiss : Bool
  predictor : Bool
  burstI : BitVec 64
  respI : Bool
  iLruOut : BitVec 3
  dLruOut : BitVec 3

structure Whole where
  proc : Processor
  memory : Mp4.Memory.Hierarchy.System

namespace Whole

variable (u : Inputs) (m : Whole)

def iRequest : Request := ⟨true, false, m.proc.pc, 0#32, 0#4⟩

def dRequest : Request where
  read := m.proc.core.exMem.cntrlWord.readMem
  write := m.proc.core.exMem.cntrlWord.writeMem
  address := m.proc.core.exMem.aluVal
  wdata := m.proc.core.wdata
  byteEnable := m.proc.core.byteEnable

def ports : Mp4.Memory.Hierarchy.Cycle :=
  ⟨m.iRequest, m.dRequest, u.burstI, u.respI, u.iLruOut, u.dLruOut⟩

def signals : Signals where
  iCacheMiss := u.iCacheMiss
  dCacheMiss := u.dCacheMiss
  predictor := u.predictor
  iCacheRdata := m.memory.iMemRdata (m.ports u)
  dCacheRdata := m.memory.dMemRdata (m.ports u)
  dCacheResp := m.memory.dMemResp (m.ports u)

def step (u : Inputs) (m : Whole) : Whole where
  proc := m.proc.step (m.signals u).program (m.signals u).cycle
  memory := m.memory.step (m.ports u)

/-- The processor with the flat memory that the data side stands for. -/
def view : Execution.System := ⟨m.proc, words m.memory.flat⟩

end Whole

/-- What the surroundings promise: a port is not said to hit before its cache answers, and the
beats of a read come in order. -/
structure Attends (u : Inputs) (m : Whole) : Prop where
  fetch : u.iCacheMiss = false → m.memory.iMemResp (m.ports u) = true
  access : u.dCacheMiss = false → m.dRequest.active = true → m.memory.dMemResp (m.ports u) = true
  answers : m.memory.burst.Answers (m.memory.adaptorInputs (m.ports u))

instance (u : Inputs) (m : Whole) : Decidable (Attends u m) :=
  decidable_of_iff ((u.iCacheMiss = false → m.memory.iMemResp (m.ports u) = true) ∧
      (u.dCacheMiss = false → m.dRequest.active = true →
        m.memory.dMemResp (m.ports u) = true) ∧
      m.memory.burst.Answers (m.memory.adaptorInputs (m.ports u)))
    ⟨fun ⟨fetch, access, answers⟩ => ⟨fetch, access, answers⟩,
      fun h => ⟨h.fetch, h.access, h.answers⟩⟩

/-- A program that raises no exception, stays within the lines of `Q` and stores to none of
them. -/
structure Hosted (Q : LineAddr → Prop) (start : Hart) : Prop where
  legal : ∀ n, (trace start n).Legal
  within : ∀ n, Q (lineAddr (trace start n).pc)
  spares : ∀ n op rs1 rs2 imm, decode (trace start n).fetch = some (.store op rs1 rs2 imm) →
    ¬Q (lineAddr ((trace start n).operand1 (.store op rs1 rs2 imm) + imm))

section Program

variable {Q : LineAddr → Prop} {start : Hart}

private theorem Hosted.code (hosted : Hosted Q start) (n : Nat) {a : BitVec 30}
    (inQ : Q (lineAddr (a ++ 0#2))) : wordsOf (trace start n).mem a = wordsOf start.mem a := by
  induction n with
  | zero => rfl
  | succ n ih =>
    obtain ⟨i, dec, aligned⟩ := (hosted.legal n).decodes
    rw [← ih, trace, step_of_decode dec]
    cases i with
    | store op rs1 rs2 imm =>
      have elsewhere := hosted.spares n op rs1 rs2 imm dec
      refine wordsOf_storeBytes_other (StoreOp.size_fits op) aligned ?_
      intro here
      rw [here, lineAddr_base] at inQ
      exact elsewhere inQ
    | lui _ _ | auipc _ _ | jal _ _ | jalr _ _ _ | branch _ _ _ _ | load _ _ _ _
    | arithImm _ _ _ _ | arith _ _ _ _ => rfl

private theorem Hosted.proper (hosted : Hosted Q start) :
    Proper (fun pc => Q (lineAddr pc)) start := by
  refine ⟨hosted.legal, hosted.within, fun n => ?_⟩
  apply hosted.code n
  change Q (lineAddr ((wordAddress (trace start n).pc : BitVec 30) ++ 0#2))
  rw [lineAddr_base]
  exact hosted.within n

end Program

/-- The processor executes the program over the flat memory, the hierarchy holds that memory, and
both ports still ask for what is pending. -/
structure Inv (Q : LineAddr → Prop) (start : Hart) (init : LineAddr → Line) (m : Whole) : Prop where
  pipe : Execution.Inv start m.view
  memory : Mp4.Memory.Hierarchy.Inv Q init m.memory
  iHeld : ∀ r ∈ m.memory.iPending, r = m.iRequest
  dHeld : ∀ r ∈ m.memory.dPending, r = m.dRequest

section Step

variable {Q : LineAddr → Prop} {start : Hart} {init : LineAddr → Line} {u : Inputs} {m : Whole}

private theorem oneKind {c : Core} {o : Option IfId} (exMem : InExMem c o) :
    ¬(c.exMem.cntrlWord.readMem = true ∧ c.exMem.cntrlWord.writeMem = true) := by
  rintro ⟨load, store⟩
  have none := memWrite_load exMem load
  simp [memWrite, store] at none

private theorem spares_code (hosted : Hosted Q start) (pipe : Execution.Inv start m.view)
    (store : m.proc.core.exMem.cntrlWord.writeMem = true) :
    ¬Q (lineAddr m.proc.core.exMem.aluVal) := by
  have exMem := pipe.contents.exMem
  have path := pipe.onPath
  have regs := pipe.regs
  change InExMem m.proc.core m.proc.tags.exMem at exMem
  change OnPath _ _ (m.proc.tags.exMem.toList ++ _) at path
  generalize m.proc.tags.exMem = o at exMem path
  cases o with
  | none =>
    cases exMem with
    | bubble idle =>
      rw [idle.writeMem] at store
      cases store
  | some p =>
    obtain ⟨i, dec, aligned, enc, agrees, -⟩ := agrees_at (hosted.legal _) path.1 exMem regs
    rw [agrees.cntrlWord, executeOnce_encodes enc] at store
    rw [agrees.aluVal, executeOnce_encodes enc]
    cases enc with
    | @store op opcode kind => exact hosted.spares _ _ _ _ _ dec
    | lui op | auipc op | jal op | jalr op | branch op _ | load op _ | arithImm op _
    | arith op _ => cases store

theorem asks_admitted (hosted : Hosted Q start) (inv : Inv Q start init m)
    (attends : Attends u m) : Mp4.Memory.Hierarchy.Admitted Q (m.ports u) m.memory where
  iHeld := inv.iHeld
  dHeld := inv.dHeld
  readOnly := rfl
  oneKind := oneKind inv.pipe.contents.exMem
  spares := spares_code hosted inv.pipe
  answers := attends.answers

/-- The hierarchy gives the processor what it relies on. -/
theorem gives_served (hosted : Hosted Q start) (image : wordsOf start.mem = words init)
    (inv : Inv Q start init m) (attends : Attends u m) :
    Served (fun pc => Q (lineAddr pc)) start.mem (m.signals u) m.view := by
  have coherent := Mp4.Memory.Hierarchy.inv_coherent (m.ports u) m.memory inv.memory
    (asks_admitted hosted inv attends)
  constructor
  · intro hit inQ
    have word := coherent.instruction (attends.fetch hit) rfl inQ
    have same : wordAt start.mem m.proc.pc = words init (wordAddress m.proc.pc) :=
      congrFun image (wordAddress m.proc.pc)
    change m.memory.iMemRdata (m.ports u) = wordAt start.mem m.proc.pc
    rw [same, ← readWord_words]
    exact word
  · intro hit load
    have active : m.dRequest.active = true := by
      have read : m.dRequest.read = true := load
      rw [Request.active, read]
      rfl
    have word := coherent.data (attends.access hit active) load
    rw [readWord_words] at word
    exact word
  · intro hit store
    have active : m.dRequest.active = true := by
      have write : m.dRequest.write = true := store
      rw [Request.active, write, Bool.or_true]
    exact attends.access hit active

theorem view_step (u : Inputs) (m : Whole) : (m.step u).view = m.view.step (m.signals u) := by
  have flat : words (m.step u).memory.flat =
      if m.memory.dMemResp (m.ports u) then
        applyStore (words m.memory.flat) (memWrite m.proc.core)
      else words m.memory.flat := by
    change words (flatNext _ m.dRequest m.memory.flat) = _
    cases resp : m.memory.dMemResp (m.ports u) with
    | false => rfl
    | true =>
      have writes : m.dRequest.write = m.proc.core.exMem.cntrlWord.writeMem := rfl
      rw [flatNext, writes, memWrite]
      cases m.proc.core.exMem.cntrlWord.writeMem with
      | false => rfl
      | true => exact words_update _ _ _ _
  change (⟨_, words (m.step u).memory.flat⟩ : Execution.System) = _
  rw [flat]
  rfl

private theorem memByteEnable_twice (held : BitVec 4) (q : ExMem) :
    memByteEnable (memByteEnable held q) q = memByteEnable held q := by
  by_cases store : q.opcode = opStore
  · simp only [memByteEnable, store, if_true]
    split_ifs <;> rfl
  · simp only [memByteEnable, store, if_false]

private theorem straight_of_active {c : Core} {o : Option IfId} (exMem : InExMem c o)
    (active : c.exMem.cntrlWord.readMem = true ∨ c.exMem.cntrlWord.writeMem = true) :
    redirecting c.exMem = false := by
  cases exMem with
  | bubble idle =>
    rw [idle.readMem, idle.writeMem] at active
    rcases active with load | store <;> contradiction
  | packet enc agrees =>
    rw [agrees.cntrlWord, executeOnce_encodes enc] at active
    rw [redirecting, agrees.opcode, opcode_correct enc]
    cases enc with
    | load op kind | store op kind => rfl
    | lui op | auipc op | jal op | jalr op | branch op _ | arithImm op _ | arith op _ =>
      rcases active with load | store <;> contradiction

theorem dRequest_frozen (pipe : Execution.Inv start m.view) (frozen : (m.signals u).miss = true)
    (active : m.dRequest.active = true) : (m.step u).dRequest = m.dRequest := by
  have kind : m.proc.core.exMem.cntrlWord.readMem = true ∨
      m.proc.core.exMem.cntrlWord.writeMem = true := (Bool.or_eq_true _ _).mp active
  have straight := straight_of_active pipe.contents.exMem kind
  let i := m.proc.coreIn (m.signals u).program (m.signals u).cycle
  have still : i.frozen = true := frozen
  have flush : i.flush = false := (flush_eq m.proc.core).trans straight
  have exMem' : (m.step u).proc.core.exMem = m.proc.core.exMem :=
    exMem_frozen (z := m.signals u) (s := m.view) frozen
  have memWb' := next_memWb (i := i) (c := m.proc.core) rfl
  have idEx' := next_idEx (i := i) (c := m.proc.core) rfl
  rw [if_pos still] at memWb'
  rw [flush, if_neg Bool.false_ne_true, if_pos still] at idEx'
  have core' : (m.step u).proc.core = m.proc.core.next i := rfl
  have held' : (m.step u).proc.core.heldByteEnable = m.proc.core.byteEnable := rfl
  have enable : (m.step u).proc.core.byteEnable = m.proc.core.byteEnable := by
    rw [Core.byteEnable, held', exMem', Core.byteEnable, memByteEnable_twice]
  have forward : (m.step u).proc.core.forward = m.proc.core.forward := by
    rw [Core.forward, exMem', core', memWb', idEx', Core.forward]
  have wdata : (m.step u).proc.core.wdata = m.proc.core.wdata := by
    rw [Core.wdata, forward, exMem', Core.regfilemux, core', memWb', Core.wdata, Core.regfilemux]
  rw [Whole.dRequest, Whole.dRequest, exMem', enable, wdata]

private theorem ports_held (pipe : Execution.Inv start m.view) (attends : Attends u m) :
    (∀ r ∈ (m.step u).memory.iPending, r = (m.step u).iRequest) ∧
      ∀ r ∈ (m.step u).memory.dPending, r = (m.step u).dRequest := by
  constructor
  · intro r pending
    change pendNext (m.memory.iMemResp (m.ports u)) m.iRequest = some r at pending
    unfold pendNext at pending
    split_ifs at pending with waits
    · obtain rfl := Option.some.inj pending
      obtain ⟨-, quiet⟩ := (Bool.and_eq_true _ _).mp waits
      rw [Bool.not_eq_true'] at quiet
      have miss : u.iCacheMiss = true := by
        by_contra hit
        rw [attends.fetch (by simpa using hit)] at quiet
        cases quiet
      have pc' := step_pc (y := (m.signals u).cycle) (m.signals u).program m.proc rfl
      have frozen : (m.signals u).cycle.miss = true := by
        change (u.iCacheMiss || u.dCacheMiss) = true
        rw [miss, Bool.true_or]
      rw [frozen] at pc'
      have still : (m.step u).proc.pc = m.proc.pc := pc'
      rw [Whole.iRequest, Whole.iRequest, still]
  · intro r pending
    change pendNext (m.memory.dMemResp (m.ports u)) m.dRequest = some r at pending
    unfold pendNext at pending
    split_ifs at pending with waits
    · obtain rfl := Option.some.inj pending
      obtain ⟨active, quiet⟩ := (Bool.and_eq_true _ _).mp waits
      have miss : u.dCacheMiss = true := by
        by_contra hit
        rw [attends.access (by simpa using hit) active] at quiet
        cases quiet
      have frozen : (m.signals u).miss = true := by
        change (u.iCacheMiss || u.dCacheMiss) = true
        rw [miss, Bool.or_true]
      exact (dRequest_frozen pipe frozen active).symm

theorem inv_step (hosted : Hosted Q start) (image : wordsOf start.mem = words init) (u : Inputs)
    (m : Whole) (inv : Inv Q start init m)
    (ok : Attends u m ∧ losesRedirect (m.signals u).cycle m.proc = false) :
    Inv Q start init (m.step u) := by
  have served := gives_served hosted image inv ok.1
  have held := ports_held inv.pipe ok.1
  refine ⟨?_, ?_, held.1, held.2⟩
  · rw [view_step]
    exact Execution.inv_step hosted.proper (m.signals u) m.view inv.pipe ⟨served, ok.2⟩
  · exact Mp4.Memory.Hierarchy.inv_step _ _ inv.memory (asks_admitted hosted inv ok.1)

theorem fetched_step (hosted : Hosted Q start)
    (guarded : Guarded (fun pc => Q (lineAddr pc)) start) (image : wordsOf start.mem = words init)
    (u : Inputs) (m : Whole)
    (inv : Inv Q start init m ∧ Fetched (fun pc => Q (lineAddr pc)) start.mem m.proc)
    (attends : Attends u m) :
    Inv Q start init (m.step u) ∧
      Fetched (fun pc => Q (lineAddr pc)) start.mem (m.step u).proc := by
  obtain ⟨inv, fetched⟩ := inv
  have served := gives_served hosted image inv attends
  have kept : losesRedirect (m.signals u).cycle m.proc = false :=
    redirect_kept (z := m.signals u) (s := m.view) guarded inv.pipe fetched
  have next := Discipline.fetched_step guarded hosted.proper (m.signals u) m.view
    ⟨inv.pipe, fetched⟩ served
  exact ⟨inv_step hosted image u m inv ⟨attends, kept⟩, next.2⟩

theorem run_bound (hosted : Hosted Q start)
    (guarded : Guarded (fun pc => Q (lineAddr pc)) start) (image : wordsOf start.mem = words init)
    (both : Inv Q start init m ∧ Fetched (fun pc => Q (lineAddr pc)) start.mem m.proc)
    {us : List Inputs} (attends : Along Whole.step Attends m us) :
    Inv Q start init (run Whole.step m us) ∧
      us.countP (fun u => !(u.iCacheMiss || u.dCacheMiss)) + 4 * m.proc.retired.length +
          due (run Whole.step m us).proc.tags ≤
        4 * (run Whole.step m us).proc.retired.length + due m.proc.tags := by
  have keep := fetched_step hosted guarded image
  have shows (u : Inputs) (m : Whole)
      (both : Inv Q start init m ∧ Fetched (fun pc => Q (lineAddr pc)) start.mem m.proc)
      (attends : Attends u m) :
      Admitted (fun pc => Q (lineAddr pc)) start.mem (m.signals u) m.view :=
    ⟨gives_served hosted image both.1 attends,
      redirect_kept (z := m.signals u) (s := m.view) guarded both.1.pipe both.2⟩
  have admitted := along_invariant keep shows both attends
  obtain ⟨-, bound⟩ := inv_run hosted.proper both.1.pipe
    (along_driven (fun u m => view_step u m) admitted)
  rw [← run_driven (fun u m => view_step u m)] at bound
  have hits : (driven Whole.step Whole.signals m us).countP (fun z => !z.miss) =
      us.countP fun u => !(u.iCacheMiss || u.dCacheMiss) :=
    countP_driven (fun z : Signals => !z.miss) (fun u => !(u.iCacheMiss || u.dCacheMiss))
      (fun _ _ => rfl) m us
  rw [hits] at bound
  exact ⟨(run_invariant keep both attends).1, bound⟩

end Step

/-- From reset, with any memory of lines whose program is hosted and guarded, for every burst
delay and every interleaving of misses: the processor and the hierarchy together execute the
program in the flat memory. -/
theorem attached_executes_program (Q : LineAddr → Prop) (init : LineAddr → Line)
    (hosted : Hosted Q (boot (bytesOf (words init))))
    (guarded : Guarded (fun pc => Q (lineAddr pc)) (boot (bytesOf (words init)))) (prog : Program)
    (p : Processor) (resets : List Cycle) (rst : ∀ y ∈ resets, y.rst = true)
    (enough : 3 ≤ resets.length) (iData dData : Fin 4 → BitVec 3 → Line) (adaptor : Adaptor)
    (us : List Inputs)
    (attends : Along Whole.step Attends
      ⟨run (Processor.step prog) p resets, .start iData dData adaptor init⟩ us) :
    let m := run Whole.step ⟨run (Processor.step prog) p resets, .start iData dData adaptor init⟩ us
    Follows (boot (bytesOf (words init))) m.view ∧
      us.countP (fun u => !(u.iCacheMiss || u.dCacheMiss)) ≤ 4 * m.proc.retired.length + 3 := by
  intro m
  let m₀ : Whole := ⟨run (Processor.step prog) p resets, .start iData dData adaptor init⟩
  have image : wordsOf (boot (bytesOf (words init))).mem = words init := wordsOf_bytesOf _
  obtain ⟨pipe, empty, none⟩ := inv_reset prog rst enough p (bytesOf (words init))
  have fetched := fetched_reset (Q := fun pc => Q (lineAddr pc)) pipe empty
  rw [wordsOf_bytesOf] at pipe
  change Execution.Inv _ m₀.view at pipe
  have start : Inv Q (boot (bytesOf (words init))) init m₀ :=
    ⟨pipe, Mp4.Memory.Hierarchy.inv_start iData dData adaptor, nofun, nofun⟩
  obtain ⟨inv, bound⟩ := run_bound hosted guarded image ⟨start, fetched⟩ attends
  refine ⟨inv.pipe.follows hosted.legal, ?_⟩
  have first := due_le (run (Processor.step prog) p resets).tags
  have length : m₀.proc.retired.length = 0 := congrArg List.length none
  rw [length] at bound
  change us.countP _ ≤ 4 * (run Whole.step m₀ us).proc.retired.length + 3
  change _ ≤ _ + due (run (Processor.step prog) p resets).tags at bound
  omega

theorem storeLoop_hosted : Hosted (· = 3#27) (boot (bytesOf storeLoop)) := by
  refine ⟨storeLoop_proper.legal, fun n => ?_, fun n op rs1 rs2 imm dec => ?_⟩
  · rcases (looping n).pc with pc | pc | pc | pc <;> rw [pc] <;> decide
  · rw [(looping_fetch (looping n)).2] at dec
    rcases (looping n).pc with pc | pc | pc | pc <;> rw [pc] at dec
    · have other : decode 0x00500093#32 = some (.arithImm .add 1#5 0#5 5#32) := by decide
      cases other.symm.trans dec
    · have store : decode 0x00100023#32 = some (.store .sb 0#5 1#5 0#32) := by decide
      cases store.symm.trans dec
      change lineAddr (0#32 + 0#32) ≠ 3#27
      decide
    · have other : decode 0x00000103#32 = some (.load .lb 2#5 0#5 0#32) := by decide
      cases other.symm.trans dec
    · have other : decode 0xff5ff06f#32 = some (.jal 0#5 0xfffffff4#32) := by decide
      cases other.symm.trans dec

def loopLines : LineAddr → Line := fun l =>
  if l = 3#27 then 0x00000013000000130000001300000013ff5ff06f000001030010002300500093#256
  else 0x0000001300000013000000130000001300000013000000130000001300000013#256

private theorem storeLoop_elsewhere {a : BitVec 30} (other : a.extractLsb' 3 27 ≠ 3#27) :
    storeLoop a = nopWord := by
  unfold storeLoop
  split_ifs with code code code code
  all_goals first | rfl | exact absurd (by rw [code]; decide) other

private theorem line_append (l : LineAddr) (k : BitVec 3) : (l ++ k).extractLsb' 3 27 = l := by
  ext j hj
  grind

theorem words_loopLines : words loopLines = storeLoop := by
  have nops : ∀ i : Fin 256,
      (0x0000001300000013000000130000001300000013000000130000001300000013#256).getLsbD i.val =
        nopWord.getLsbD (i.val % 32) := by decide +kernel
  have lines : loopLines = linesOf storeLoop := by
    funext l
    unfold loopLines
    split_ifs with code
    · rw [code]
      decide +kernel
    · ext i hi
      have other : (l ++ BitVec.ofNat 3 (i / 32)).extractLsb' 3 27 = l := line_append l _
      rw [linesOf, getElem_ofBits]
      dsimp only
      rw [storeLoop_elsewhere (by rw [other]; exact code), ← nops ⟨i, hi⟩]
      exact (BitVec.getLsbD_eq_getElem hi).symm
  rw [lines, words_linesOf]

end Mp4.Machine.Attached
