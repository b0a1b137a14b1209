import Mp4.Machine.Attached
import Mp4.Memory.TimedHierarchy
import Mathlib.Tactic.Ring

/-!
The processor, the hierarchy and `ParamMemory` together. Nothing is assumed of the memory, and
a port is said to miss exactly while its cache has not answered; then the machine executes its
program and retires instructions at a rate that depends on the delays alone.
-/

set_option autoImplicit false
set_option relaxedAutoImplicit false

namespace Mp4.Machine.Throughput

open Mp4.Cpu.PipelineRegs Mp4.Cpu.ControlFlow Mp4.Cpu.Pipeline
open Mp4.Lib.Clocked Mp4.Lib.Ranking Mp4.Lib.WriteBack Mp4.Lib.ByteMemory
open Mp4.Memory Mp4.Memory.Address Mp4.Memory.FourWay.Datapath
open Mp4.Memory.CachelineAdaptor Mp4.Memory.ParamMemory Mp4.Memory.FourWay.Cache
open Mp4.Memory.FourWay.Refinement Mp4.Memory.TimedHierarchy Mp4.Memory.LineWords
open Mp4.Machine.Architecture Mp4.Machine.Execution Mp4.Machine.Discipline Mp4.Machine.Attached

/-- What is driven from outside: the miss signals, the predictor's answer and the PLRU bits that
a hit settles on. -/
structure Drive where
  iCacheMiss : Bool
  dCacheMiss : Bool
  predictor : Bool
  iLruOut : BitVec 3
  dLruOut : BitVec 3

structure Closed where
  whole : Whole
  memory : ParamMemory.Mem

namespace Closed

variable (p : Params) (m : Closed) (u : Drive)

def inputs : Attached.Inputs :=
  ⟨u.iCacheMiss, u.dCacheMiss, u.predictor, m.memory.rdata, m.memory.resp, u.iLruOut, u.dLruOut⟩

def below : TimedHierarchy.System := ⟨m.whole.memory, m.memory⟩

def ports : TimedHierarchy.Ports :=
  ⟨m.whole.iRequest, m.whole.dRequest, u.iLruOut, u.dLruOut⟩

def step (u : Drive) (m : Closed) : Closed where
  whole := m.whole.step (m.inputs u)
  memory := (m.below.step p (m.ports u)).memory

private theorem below_step (u : Drive) (m : Closed) :
    (m.step p u).below = m.below.step p (m.ports u) := rfl

end Closed

/-- A port is said to miss while its cache has not answered, and in no other cycle. -/
structure Faithful (u : Drive) (m : Closed) : Prop where
  fetch : u.iCacheMiss = !m.below.iMemResp (m.ports u)
  access : u.dCacheMiss = (m.whole.dRequest.active && !m.below.dMemResp (m.ports u))

instance (u : Drive) (m : Closed) : Decidable (Faithful u m) :=
  decidable_of_iff (u.iCacheMiss = !m.below.iMemResp (m.ports u) ∧
      u.dCacheMiss = (m.whole.dRequest.active && !m.below.dMemResp (m.ports u)))
    ⟨fun ⟨fetch, access⟩ => ⟨fetch, access⟩, fun h => ⟨h.fetch, h.access⟩⟩

section Caches

variable {c : Cache4Way 3} {r : Request} {w : Fin 4}

private theorem found_memResp (active : r.active = true) (state : c.state = .hit)
    (live : (view c.arrays).live w (setIndex (lineAddr r.address)) = true)
    (addr : (view c.arrays).addr w (setIndex (lineAddr r.address)) = lineAddr r.address) :
    c.memResp r = true := by
  have active' : (r.read || r.write) = true := active
  rw [setIndex_lineAddr] at live addr
  have valid : c.arrays.valid w (index 3 r.address) = true := live
  have same : c.arrays.tags w (index 3 r.address) = tag 3 r.address := by
    apply lineOf_inj (s := index 3 r.address)
    rw [lineOf_tag]
    exact addr
  have hit : c.hits r w = true := by
    rw [hits_eq (by simp [state]), same, valid]
    simp
  have check : hitCheck (c.hits r) = true := (hitCheck_iff _).mpr ⟨w, hit⟩
  simp [Cache4Way.memResp, done, state, active', check]

private theorem memResp_kept (resp : Bool) (rdata : Line) (lru : BitVec 3)
    (answered : c.memResp r = true) :
    (c.next r resp rdata lru).memResp r = true := by
  have parts : (c.state == .hit && (r.read || r.write) && hitCheck (c.hits r)) = true := answered
  simp only [Bool.and_eq_true, beq_iff_eq] at parts
  obtain ⟨⟨state, active⟩, -⟩ := parts
  obtain ⟨live, addr⟩ := hit_holds state answered
  cases next_hit resp rdata lru state with
  | idle _ _ quiet | evict _ _ quiet | reuse _ _ quiet =>
    rw [answered] at quiet
    cases quiet
  | writeBack other | fill other =>
    rw [state] at other
    cases other
  | read _ _ _ state' view' =>
    rw [← view'] at live addr
    exact found_memResp active state' live addr
  | write w _ _ _ state' live addr view' =>
    apply found_memResp (w := w) active state'
    · rw [view']
      exact live
    · rw [view']
      exact addr

end Caches

/-- The whole executes the program, and the hierarchy gets on with its misses. -/
structure Inv (p : Params) (Q : LineAddr → Prop) (start : Hart) (init : LineAddr → Line)
    (m : Closed) : Prop where
  whole : Attached.Inv Q start init m.whole
  fetched : Fetched (fun pc => Q (lineAddr pc)) start.mem m.whole.proc
  below : TimedHierarchy.Inv p Q init m.below

def iServed (m : Closed) : Bool := m.whole.memory.iCache.memResp m.whole.iRequest

def dServed (m : Closed) : Bool :=
  !m.whole.dRequest.active || m.whole.memory.dCache.memResp m.whole.dRequest

def left (served : Bool) (rank : Nat) : Nat := if served then 0 else rank

/-- The cycles until the next one without a miss, at most. -/
def rank (p : Params) (m : Closed) : Nat :=
  max (left (iServed m) (iRank p m.below)) (left (dServed m) (dRank p m.below))

def moves (u : Drive) (_ : Closed) : Bool := !(u.iCacheMiss || u.dCacheMiss)

section Step

variable {p : Params} {Q : LineAddr → Prop} {start : Hart} {init : LineAddr → Line} {u : Drive}
  {m : Closed}

private theorem attends (inv : Inv p Q start init m) (faithful : Faithful u m) :
    Attends (m.inputs u) m.whole where
  fetch hit := by
    have missed := faithful.fetch.symm.trans hit
    rw [Bool.not_eq_false'] at missed
    exact missed
  access hit active := by
    have missed := faithful.access.symm.trans hit
    rw [active, Bool.true_and, Bool.not_eq_false'] at missed
    exact missed
  answers := tracks_answers inv.below.tracks rfl rfl

theorem below_admitted (hosted : Hosted Q start) (inv : Inv p Q start init m)
    (faithful : Faithful u m) : TimedHierarchy.Admitted Q (m.ports u) m.below := by
  obtain ⟨iHeld, dHeld, readOnly, oneKind, spares, -⟩ :=
    asks_admitted hosted inv.whole (attends inv faithful)
  exact ⟨iHeld, dHeld, readOnly, oneKind, spares⟩

theorem inv_step (hosted : Hosted Q start) (guarded : Guarded (fun pc => Q (lineAddr pc)) start)
    (image : wordsOf start.mem = words init) (u : Drive) (m : Closed) (inv : Inv p Q start init m)
    (faithful : Faithful u m) : Inv p Q start init (m.step p u) := by
  obtain ⟨whole, fetched⟩ := Attached.fetched_step hosted guarded image (m.inputs u) m.whole
    ⟨inv.whole, inv.fetched⟩ (attends inv faithful)
  refine ⟨whole, fetched, ?_⟩
  exact TimedHierarchy.inv_step (m.ports u) m.below inv.below (below_admitted hosted inv faithful)

private theorem attended_run (hosted : Hosted Q start)
    (guarded : Guarded (fun pc => Q (lineAddr pc)) start) (image : wordsOf start.mem = words init)
    (inv : Inv p Q start init m) {us : List Drive}
    (faithful : Along (Closed.step p) Faithful m us) :
    Along Whole.step Attends m.whole (driven (Closed.step p) (fun u m => m.inputs u) m us) := by
  have sim (u : Drive) (m : Closed) : (m.step p u).whole = m.whole.step (m.inputs u) := rfl
  have attended : Along (Closed.step p) (fun u m => Attends (m.inputs u) m.whole) m us :=
    along_invariant (inv_step hosted guarded image) (fun _ _ => attends) inv faithful
  exact along_driven sim attended

private theorem iServed_kept (frozen : (u.iCacheMiss || u.dCacheMiss) = true)
    (served : iServed m = true) :
    iServed (m.step p u) = true := by
  have pc' := step_pc (y := (m.whole.signals (m.inputs u)).cycle)
    (m.whole.signals (m.inputs u)).program m.whole.proc rfl
  have miss : (m.whole.signals (m.inputs u)).cycle.miss = true := frozen
  rw [miss] at pc'
  have still : (m.step p u).whole.proc.pc = m.whole.proc.pc := pc'
  have request : (m.step p u).whole.iRequest = m.whole.iRequest := by
    rw [Whole.iRequest, Whole.iRequest, still]
  rw [iServed, request]
  exact memResp_kept _ _ _ served

private theorem dServed_kept (inv : Inv p Q start init m)
    (frozen : (u.iCacheMiss || u.dCacheMiss) = true)
    (served : dServed m = true) : dServed (m.step p u) = true := by
  have still : (m.step p u).whole.proc.core.exMem = m.whole.proc.core.exMem :=
    exMem_frozen (z := m.whole.signals (m.inputs u)) (s := m.whole.view) frozen
  have active' : (m.step p u).whole.dRequest.active = m.whole.dRequest.active := by
    rw [Request.active, Request.active, Whole.dRequest, Whole.dRequest, still]
  cases active : m.whole.dRequest.active with
  | false => rw [dServed, active', active, Bool.not_false, Bool.true_or]
  | true =>
    have request : (m.step p u).whole.dRequest = m.whole.dRequest :=
      dRequest_frozen inv.whole.pipe frozen active
    rw [dServed, active, Bool.not_true, Bool.false_or] at served
    rw [dServed, request, active, Bool.not_true, Bool.false_or]
    exact memResp_kept _ _ _ served

private theorem left_falls {served served' : Bool} {r r' : Nat}
    (kept : served = true → served' = true) (falls : served = false → r' < r) :
    (left served' r' = 0 ∨ left served' r' < left served r) ∧
      (served = false → left served' r' < left served r) := by
  cases served with
  | true =>
    rw [kept rfl]
    exact ⟨.inl rfl, nofun⟩
  | false =>
    have less : left served' r' < left false r := by
      have room := falls rfl
      cases served' with
      | true => exact Nat.zero_lt_of_lt room
      | false => exact room
    exact ⟨.inr less, fun _ => less⟩

private theorem rank_falls (hosted : Hosted Q start) (u : Drive) (m : Closed)
    (inv : Inv p Q start init m)
    (faithful : Faithful u m) : moves u m = true ∨ rank p (m.step p u) < rank p m := by
  cases frozen : u.iCacheMiss || u.dCacheMiss with
  | false =>
    left
    rw [moves, frozen]
    rfl
  | true =>
    right
    have admitted := below_admitted hosted inv faithful
    have iLess := left_falls (iServed_kept (p := p) frozen) fun waits => by
      refine (iRank_falls (m.ports u) m.below inv.below admitted).resolve_left ?_
      intro answered
      have up : iServed m = true := answered rfl
      rw [waits] at up
      cases up
    have dLess := left_falls (dServed_kept inv frozen) fun waits => by
      obtain ⟨active, quiet⟩ := Bool.or_eq_false_iff.mp waits
      refine (dRank_falls (m.ports u) m.below inv.below admitted).resolve_left ?_
      intro answered
      rw [Bool.not_eq_false'] at active
      have up : m.whole.memory.dCache.memResp m.whole.dRequest = true := answered active
      rw [quiet] at up
      cases up
    have waits : iServed m = false ∨ dServed m = false := by
      by_contra both
      simp only [not_or, Bool.not_eq_false] at both
      have iHit : u.iCacheMiss = false := by
        rw [faithful.fetch]
        exact congrArg not both.1
      have dHit : u.dCacheMiss = false := by
        rw [faithful.access]
        have up := both.2
        rw [dServed] at up
        change (m.whole.dRequest.active && !m.whole.memory.dCache.memResp m.whole.dRequest) = false
        cases active : m.whole.dRequest.active <;> simp_all
      rw [iHit, dHit] at frozen
      cases frozen
    rw [rank, rank, Closed.below_step]
    have others := And.intro iLess.1 dLess.1
    rcases waits with waits | waits
    · have falls := iLess.2 waits
      omega
    · have falls := dLess.2 waits
      omega

end Step

private theorem rank_le {p : Params} {Q : LineAddr → Prop} {start : Hart} {init : LineAddr → Line}
    (m : Closed) (inv : Inv p Q start init m) : rank p m ≤ 3 * (slowest p + 8) + 1 := by
  have i := iRank_le inv.below
  have d := dRank_le inv.below
  have least (served : Bool) (r : Nat) : left served r ≤ r := by
    cases served with
    | true => exact Nat.zero_le r
    | false => exact Nat.le_refl r
  have i' := least (iServed m) (iRank p m.below)
  have d' := least (dServed m) (dRank p m.below)
  change max _ _ ≤ _
  omega

theorem inv_start {Q : LineAddr → Prop} (init : LineAddr → Line) (prog : Program)
    (proc : Processor) {resets : List Cycle} (rst : ∀ y ∈ resets, y.rst = true)
    (enough : 3 ≤ resets.length) (p : Params) (iData dData : Fin 4 → BitVec 3 → Line)
    (adaptor : Adaptor) (rdata : BitVec 64) :
    Inv p Q (boot (bytesOf (words init))) init
      ⟨⟨run (Processor.step prog) proc resets, .start iData dData adaptor init⟩,
        .reset init rdata⟩ := by
  obtain ⟨pipe, empty, -⟩ := inv_reset prog rst enough proc (bytesOf (words init))
  have fetched := fetched_reset (Q := fun pc => Q (lineAddr pc)) pipe empty
  rw [wordsOf_bytesOf] at pipe
  refine ⟨⟨pipe, ?_, nofun, nofun⟩, fetched, ?_⟩
  · exact Mp4.Memory.Hierarchy.inv_start iData dData adaptor
  · exact TimedHierarchy.inv_start iData dData adaptor rdata

/-- The cycles of a run, by the instructions that retire in it. -/
theorem length_le_retired {p : Params} {Q : LineAddr → Prop} {start : Hart}
    {init : LineAddr → Line} {m : Closed} (hosted : Hosted Q start)
    (guarded : Guarded (fun pc => Q (lineAddr pc)) start) (image : wordsOf start.mem = words init)
    (inv : Inv p Q start init m) (none : m.whole.proc.retired = []) {us : List Drive}
    (faithful : Along (Closed.step p) Faithful m us) :
    us.length ≤ 4 * (3 * slowest p + 26) *
      ((run (Closed.step p) m us).whole.proc.retired.length + 1) := by
  have keep := inv_step (p := p) hosted guarded image
  have paid := length_le_visits (q := moves) keep (rank_falls hosted) rank_le inv faithful
  have hits : visits (Closed.step p) moves m us =
      us.countP fun u => !(u.iCacheMiss || u.dCacheMiss) :=
    countP_driven id (fun u : Drive => !(u.iCacheMiss || u.dCacheMiss)) (fun _ _ => rfl) m us
  have attended := attended_run hosted guarded image inv faithful
  have sim (u : Drive) (m : Closed) : (m.step p u).whole = m.whole.step (m.inputs u) := rfl
  obtain ⟨-, bound⟩ := run_bound hosted guarded image ⟨inv.whole, inv.fetched⟩ attended
  rw [← run_driven sim] at bound
  have hits' : (driven (Closed.step p) (fun u m => m.inputs u) m us).countP
      (fun u => !(u.iCacheMiss || u.dCacheMiss)) =
        us.countP fun u => !(u.iCacheMiss || u.dCacheMiss) :=
    countP_driven (fun u : Attached.Inputs => !(u.iCacheMiss || u.dCacheMiss))
      (fun u : Drive => !(u.iCacheMiss || u.dCacheMiss)) (fun _ _ => rfl) m us
  rw [hits', ← hits] at bound
  have least := rank_le m inv
  have first := due_le m.whole.proc.tags
  have length : m.whole.proc.retired.length = 0 := congrArg List.length none
  have few : visits (Closed.step p) moves m us ≤
      4 * (run (Closed.step p) m us).whole.proc.retired.length + 3 := by
    rw [length] at bound
    omega
  calc us.length
      ≤ (3 * (slowest p + 8) + 1 + 1) * visits (Closed.step p) moves m us + rank p m := paid
    _ ≤ (3 * slowest p + 26) *
          (4 * (run (Closed.step p) m us).whole.proc.retired.length + 3) +
        (3 * slowest p + 26) := by
      refine Nat.add_le_add ?_ ?_
      · exact Nat.mul_le_mul (by omega) few
      · omega
    _ = 4 * (3 * slowest p + 26) *
          ((run (Closed.step p) m us).whole.proc.retired.length + 1) := by ring

/-- From reset, with any memory of lines whose program is hosted and guarded, with all delays and
all predictions: the processor, the caches, the arbiter, the adaptor and the memory execute
the program, the memory reports no error, and the number of retired instructions grows with
the cycles at a rate that the slower delay determines. -/
theorem closed_executes_program (p : Params) (Q : LineAddr → Prop) (init : LineAddr → Line)
    (hosted : Hosted Q (boot (bytesOf (words init))))
    (guarded : Guarded (fun pc => Q (lineAddr pc)) (boot (bytesOf (words init)))) (prog : Program)
    (proc : Processor) (resets : List Cycle) (rst : ∀ y ∈ resets, y.rst = true)
    (enough : 3 ≤ resets.length) (iData dData : Fin 4 → BitVec 3 → Line) (adaptor : Adaptor)
    (rdata : BitVec 64) (us : List Drive)
    (faithful : Along (Closed.step p) Faithful
      ⟨⟨run (Processor.step prog) proc resets, .start iData dData adaptor init⟩,
        .reset init rdata⟩ us) :
    let m := run (Closed.step p)
      ⟨⟨run (Processor.step prog) proc resets, .start iData dData adaptor init⟩,
        .reset init rdata⟩ us
    Follows (boot (bytesOf (words init))) m.whole.view ∧ m.memory.error = false ∧
      us.length ≤ 4 * (3 * slowest p + 26) * (m.whole.proc.retired.length + 1) := by
  intro m
  have image : wordsOf (boot (bytesOf (words init))).mem = words init := wordsOf_bytesOf _
  obtain ⟨-, -, none⟩ := inv_reset prog rst enough proc (bytesOf (words init))
  have start := inv_start (Q := Q) init prog proc rst enough p iData dData adaptor rdata
  have inv := run_invariant (inv_step (p := p) hosted guarded image) start faithful
  exact ⟨inv.whole.pipe.follows hosted.legal, inv.below.tracks.error,
    length_le_retired hosted guarded image start none faithful⟩

/-- The miss signals that say what is the case. -/
def honest (m : Closed) : Drive :=
  ⟨!iServed m, !dServed m, false, 0#3, 0#3⟩

private theorem honest_faithful (m : Closed) : Faithful (honest m) m := by
  refine ⟨rfl, ?_⟩
  change (!dServed m) = _
  rw [dServed, Bool.not_or, Bool.not_not]
  rfl

def coldLoop : Closed :=
  ⟨⟨run (Processor.step fun _ => 0#32) poweredUp (List.replicate 3 resetCycle),
    .start (fun _ _ => 0#256) (fun _ _ => 0#256) ⟨.reset, 0#256, 0, 0#32⟩ loopLines⟩,
      .reset loopLines 0#64⟩

def firstTurn : List Drive := chosen (Closed.step ⟨0, 0⟩) honest 417 coldLoop

theorem length_firstTurn : firstTurn.length = 417 := length_chosen 417 coldLoop

theorem firstTurn_faithful : Along (Closed.step ⟨0, 0⟩) Faithful coldLoop firstTurn :=
  along_chosen honest_faithful 417 coldLoop

theorem retired_turn {m : Whole}
    (long : 417 ≤ 4 * (3 * slowest ⟨0, 0⟩ + 26) * (m.proc.retired.length + 1))
    (follows : Follows (boot (bytesOf (words loopLines))) m.view) :
    (m.proc.retired.map fun r => (r.1.pcReg, r.1.instrMemRdata)).take 4 =
      [(0x60#32, 0x00500093#32), (0x64#32, 0x00100023#32), (0x68#32, 0x00000103#32),
        (0x6c#32, 0xff5ff06f#32)] := by
  have prompt : slowest ⟨0, 0⟩ = 0 := rfl
  rw [prompt] at long
  have turn : 4 ≤ m.proc.retired.length := by omega
  have packets := follows.packets
  change m.proc.retired.map _ = (List.range m.proc.retired.length).map _ at packets
  rw [packets, ← List.map_take, List.take_range, Nat.min_eq_left turn, words_loopLines]
  decide +kernel

theorem coldLoop_inv :
    Inv ⟨0, 0⟩ (· = 3#27) (boot (bytesOf (words loopLines))) loopLines coldLoop :=
  inv_start loopLines (fun _ => 0#32) poweredUp (by decide) (by decide) ⟨0, 0⟩ (fun _ _ => 0#256)
    (fun _ _ => 0#256) ⟨.reset, 0#256, 0, 0#32⟩ 0#64

theorem loopLines_hosted : Hosted (· = 3#27) (boot (bytesOf (words loopLines))) := by
  rw [words_loopLines]
  exact storeLoop_hosted

theorem loopLines_guarded :
    Guarded (fun pc => lineAddr pc = 3#27) (boot (bytesOf (words loopLines))) := by
  rw [words_loopLines]
  exact storeLoop_guarded (by decide) (by decide)

theorem closed_executes_program_loop :
    let m := run (Closed.step ⟨0, 0⟩) coldLoop firstTurn
    Follows (boot (bytesOf (words loopLines))) m.whole.view ∧ m.memory.error = false ∧
      (m.whole.proc.retired.map fun r => (r.1.pcReg, r.1.instrMemRdata)).take 4 =
        [(0x60#32, 0x00500093#32), (0x64#32, 0x00100023#32), (0x68#32, 0x00000103#32),
          (0x6c#32, 0xff5ff06f#32)] := by
  obtain ⟨follows, silent, length⟩ := closed_executes_program ⟨0, 0⟩ (· = 3#27) loopLines
    loopLines_hosted loopLines_guarded (fun _ => 0#32) poweredUp (List.replicate 3 resetCycle)
    (by decide) (by decide) (fun _ _ => 0#256) (fun _ _ => 0#256) ⟨.reset, 0#256, 0, 0#32⟩ 0#64
    firstTurn firstTurn_faithful
  rw [length_firstTurn] at length
  have turn := retired_turn length follows
  exact ⟨follows, silent, turn⟩

def firstInputs : List Attached.Inputs :=
  driven (Closed.step ⟨0, 0⟩) (fun u m => m.inputs u) coldLoop firstTurn

theorem attached_executes_program_loop :
    let m := run Whole.step coldLoop.whole firstInputs
    Follows (boot (bytesOf (words loopLines))) m.view ∧
      (m.proc.retired.map fun r => (r.1.pcReg, r.1.instrMemRdata)).take 4 =
        [(0x60#32, 0x00500093#32), (0x64#32, 0x00100023#32), (0x68#32, 0x00000103#32),
          (0x6c#32, 0xff5ff06f#32)] := by
  have image : wordsOf (boot (bytesOf (words loopLines))).mem = words loopLines := wordsOf_bytesOf _
  obtain ⟨follows, -⟩ := attached_executes_program (· = 3#27) loopLines loopLines_hosted
    loopLines_guarded (fun _ => 0#32) poweredUp (List.replicate 3 resetCycle) (by decide)
    (by decide) (fun _ _ => 0#256) (fun _ _ => 0#256) ⟨.reset, 0#256, 0, 0#32⟩ firstInputs
    (attended_run loopLines_hosted loopLines_guarded image coldLoop_inv firstTurn_faithful)
  have length := length_le_retired loopLines_hosted loopLines_guarded image coldLoop_inv rfl
    firstTurn_faithful
  have sim (u : Drive) (m : Closed) : (m.step ⟨0, 0⟩ u).whole = m.whole.step (m.inputs u) := rfl
  have same : (run (Closed.step ⟨0, 0⟩) coldLoop firstTurn).whole =
      run Whole.step coldLoop.whole firstInputs := run_driven sim coldLoop firstTurn
  rw [length_firstTurn, same] at length
  have turn := retired_turn length follows
  exact ⟨follows, turn⟩

end Mp4.Machine.Throughput
