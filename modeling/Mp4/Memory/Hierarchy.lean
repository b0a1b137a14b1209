import Mp4.Memory.ArbiterRouting
import Mp4.Memory.BurstMemory
import Mp4.Memory.FourWay.Bus

/-!
The memory hierarchy: an instruction and a data `cache_4_way`, the arbiter, the adaptor
and a memory of bursts, connected by port name. The caches see the arbiter's answers as
answers of one memory of lines, so each of them refines a flat memory.
-/

set_option autoImplicit false
set_option relaxedAutoImplicit false

namespace Mp4.Memory.Hierarchy

open Mp4.Lib.Handshake Mp4.Memory.Address Mp4.Memory.BurstMemory
open Mp4.Memory.CachelineAdaptor Mp4.Memory.FourWay.Datapath Mp4.Memory.FourWay.Cache
open Mp4.Memory.FourWay.Refinement Mp4.Memory.FourWay.Bus

structure Cycle where
  iRequest : Request
  dRequest : Request
  burstI : BitVec 64
  respI : Bool
  iLruOut : BitVec 3
  dLruOut : BitVec 3

/-- The components, with the ledger of the arbiter's links and what the answers amount to:
the memory of lines behind the caches and the flat memory of the data side. -/
structure System where
  iCache : Cache4Way 3
  dCache : Cache4Way 3
  arbiter : ArbiterRouting.System
  burst : Burst
  mem : LineAddr → Line
  flat : LineAddr → Line
  iPending : Option Request
  dPending : Option Request

namespace System

variable (s : System) (i : Cycle)

def lineO : Line := s.burst.adaptor.lineO ⟨0#256, 0#32, false, false, i.burstI, i.respI⟩

def arbiterInputs (dCacheWdata : Line) : Arbiter.Inputs where
  iCacheRead := pmemRead s.iCache.state
  iCacheAddress := s.iCache.pmemAddress i.iRequest
  dCacheRead := pmemRead s.dCache.state
  dCacheWrite := pmemWrite s.dCache.state
  dCacheAddress := s.dCache.pmemAddress i.dRequest
  dCacheWdata := dCacheWdata
  nextLevelArbMemResp := respO s.burst.adaptor.state
  nextLevelArbRdata := s.lineO i

/-- `d_cache_rdata` comes before the data cache's `pmem_wdata`. -/
def dCacheRdata : Line :=
  (Arbiter.outputs s.arbiter.state (s.arbiterInputs i 0#256)).dCacheRdata

def inputs : Arbiter.Inputs :=
  s.arbiterInputs i (s.dCache.cachelineOut i.dRequest (s.dCacheRdata i))

def outputs : Arbiter.Outputs := Arbiter.outputs s.arbiter.state (s.inputs i)

def adaptorInputs : CachelineAdaptor.Inputs where
  lineI := (s.outputs i).arbNextLevelWdata
  addressI := (s.outputs i).arbNextLevelAddress
  readI := (s.outputs i).arbNextLevelRead
  writeI := (s.outputs i).arbNextLevelWrite
  burstI := i.burstI
  respI := i.respI

def iMemResp : Bool := s.iCache.memResp i.iRequest

def dMemResp : Bool := s.dCache.memResp i.dRequest

def iMemRdata : Word := s.iCache.memRdata i.iRequest (s.outputs i).iCacheRdata

def dMemRdata : Word := s.dCache.memRdata i.dRequest (s.outputs i).dCacheRdata

def step (i : Cycle) (s : System) : System where
  iCache := s.iCache.next i.iRequest (s.outputs i).iCacheMemResp (s.outputs i).iCacheRdata i.iLruOut
  dCache := s.dCache.next i.dRequest (s.outputs i).dCacheMemResp (s.outputs i).dCacheRdata i.dLruOut
  arbiter := s.arbiter.step (s.inputs i)
  burst := s.burst.next (s.adaptorInputs i)
  mem := s.burst.memNext (s.adaptorInputs i) s.mem
  flat := flatNext (s.dMemResp i) i.dRequest s.flat
  iPending := pendNext (s.iMemResp i) i.iRequest
  dPending := pendNext (s.dMemResp i) i.dRequest

def start (iData dData : Fin 4 → BitVec 3 → Line) (adaptor : Adaptor) (init : LineAddr → Line) :
    System where
  iCache := .reset iData
  dCache := .reset dData
  arbiter := .start
  burst := ⟨.afterReset adaptor.valueRead adaptor.writeMux adaptor.addressO, init, 0⟩
  mem := init
  flat := init
  iPending := none
  dPending := none

end System

/-- Both ports hold their requests, the instruction side only reads, the data side never
does both and never writes a line of `Q`, and the memory gives its beats in order. -/
structure Admitted (Q : LineAddr → Prop) (i : Cycle) (s : System) : Prop where
  iHeld : ∀ r ∈ s.iPending, r = i.iRequest
  dHeld : ∀ r ∈ s.dPending, r = i.dRequest
  readOnly : i.iRequest.write = false
  oneKind : ¬(i.dRequest.read = true ∧ i.dRequest.write = true)
  spares : i.dRequest.write = true → ¬Q (lineAddr i.dRequest.address)
  answers : s.burst.Answers (s.adaptorInputs i)

instance (Q : LineAddr → Prop) [DecidablePred Q] (i : Cycle) (s : System) :
    Decidable (Admitted Q i s) :=
  decidable_of_iff ((∀ r ∈ s.iPending, r = i.iRequest) ∧ (∀ r ∈ s.dPending, r = i.dRequest) ∧
      i.iRequest.write = false ∧ ¬(i.dRequest.read = true ∧ i.dRequest.write = true) ∧
      (i.dRequest.write = true → ¬Q (lineAddr i.dRequest.address)) ∧
      s.burst.Answers (s.adaptorInputs i))
    ⟨fun ⟨iHeld, dHeld, readOnly, oneKind, spares, answers⟩ =>
      ⟨iHeld, dHeld, readOnly, oneKind, spares, answers⟩,
    fun h => ⟨h.iHeld, h.dHeld, h.readOnly, h.oneKind, h.spares, h.answers⟩⟩

/-- Answered reads return the flat memory's word on the data side and, on the lines of
`Q`, the initial memory's word on the instruction side. -/
structure Coherent (Q : LineAddr → Prop) (init : LineAddr → Line) (i : Cycle) (s : System) :
    Prop where
  data : s.dMemResp i = true → i.dRequest.read = true →
    s.dMemRdata i = readWord (s.flat (lineAddr i.dRequest.address)) i.dRequest.address
  instruction : s.iMemResp i = true → i.iRequest.read = true →
    Q (lineAddr i.iRequest.address) →
    s.iMemRdata i = readWord (init (lineAddr i.iRequest.address)) i.iRequest.address

def Carries (port : Port LineBus.Request Line) (c : Cache4Way 3) (pend : Option Request) : Prop :=
  ∀ q ∈ port.pending, ∃ r, pend = some r ∧ busRequest c r 0#256 = some q

structure Inv (Q : LineAddr → Prop) (init : LineAddr → Line) (s : System) : Prop where
  arbiter : ArbiterRouting.Inv s.arbiter
  backs : Backs s.mem s.burst s.arbiter.nextLevel.pending
  dHolds : Holds (fun _ => True) s.mem s.flat s.dCache s.dPending
  iHolds : Holds Q s.mem init s.iCache s.iPending
  neverWritten : NeverWritten s.iCache
  dCarries : Carries (s.arbiter.ports .dCache) s.dCache s.dPending
  iCarries : Carries (s.arbiter.ports .iCache) s.iCache s.iPending
  spared : ∀ l, Q l → s.flat l = init l ∧ s.mem l = init l

section Wires

variable {Q : LineAddr → Prop} {init : LineAddr → Line} {i : Cycle} {s : System}

private theorem offer_dCache : ArbiterRouting.offer (s.inputs i) .dCache =
    busRequest s.dCache i.dRequest 0#256 := by
  have wires : ArbiterRouting.offer (s.inputs i) .dCache =
      busRequest s.dCache i.dRequest (s.dCacheRdata i) := rfl
  rw [wires, busRequest_rdata]

private theorem offer_iCache (clean : NeverWritten s.iCache) :
    ArbiterRouting.offer (s.inputs i) .iCache = busRequest s.iCache i.iRequest 0#256 := by
  have wires : ArbiterRouting.offer (s.inputs i) .iCache =
      LineBus.request (pmemRead s.iCache.state) false (s.iCache.pmemAddress i.iRequest) 0#256 := rfl
  rw [wires]
  cases state : s.iCache.state with
  | hit =>
    rw [busRequest_hit state]
    rfl
  | missClean =>
    rw [busRequest_missClean state]
    rfl
  | missDirty => exact absurd state clean.state

private theorem carries_held {port : Port LineBus.Request Line} {c : Cache4Way 3}
    {pend : Option Request}
    (carries : Carries port c pend) {r : Request} (held : ∀ r' ∈ pend, r' = r) :
    port.Held (busRequest c r 0#256) := by
  intro q pending
  obtain ⟨r', holds, asks⟩ := carries q pending
  rw [← held r' holds, asks]

theorem holding (inv : Inv Q init s) (admitted : Admitted Q i s) :
    ArbiterRouting.Holding (s.inputs i) s.arbiter := by
  constructor
  · rw [offer_iCache inv.neverWritten]
    exact carries_held inv.iCarries admitted.iHeld
  · rw [offer_dCache]
    exact carries_held inv.dCarries admitted.dHeld

private theorem served (inv : Inv Q init s) (admitted : Admitted Q i s)
    (resp : respO s.burst.adaptor.state = true) :
    ∃ c q, ArbiterRouting.granted s.arbiter.state = some c ∧
      ArbiterRouting.offer (s.inputs i) c = some q ∧
      ArbiterRouting.nextOffer (s.outputs i) = some q ∧
      ∀ a, q = .read a → s.lineO i = s.mem (lineAddr a) := by
  obtain ⟨q, pending, line⟩ := backs_answer
    (i := ⟨0#256, 0#32, false, false, i.burstI, i.respI⟩) inv.backs resp
  cases state : ArbiterRouting.granted s.arbiter.state with
  | none =>
    have idle : s.arbiter.state = .idle := by
      cases h : s.arbiter.state <;> simp [ArbiterRouting.granted, h] at state ⊢
    rw [inv.arbiter.quiet idle] at pending
    cases pending
  | some c =>
    obtain ⟨r, held, passed, alone⟩ :=
      ArbiterRouting.served_offer inv.arbiter (holding inv admitted) state
    rw [← alone q pending] at held passed
    exact ⟨c, q, rfl, held, passed, line⟩

private theorem arbiter_admitted (inv : Inv Q init s) (admitted : Admitted Q i s) :
    ArbiterRouting.Admitted (s.inputs i) s.arbiter := by
  refine ⟨holding inv admitted, ?_⟩
  intro resp
  obtain ⟨_, q, _, _, passed, _⟩ := served inv admitted resp
  change (ArbiterRouting.nextOffer (s.outputs i)).isSome = true
  rw [passed]
  rfl

private theorem client_answer (inv : Inv Q init s) (admitted : Admitted Q i s)
    {c : ArbiterRouting.Client} (resp : ArbiterRouting.memResp (s.outputs i) c = true) :
    respO s.burst.adaptor.state = true ∧ ArbiterRouting.granted s.arbiter.state = some c ∧
      ∀ a, ArbiterRouting.offer (s.inputs i) c = some (.read a) →
        ArbiterRouting.rdata (s.outputs i) c = s.mem (lineAddr a) := by
  have given := ArbiterRouting.answer_outputs s.arbiter.state (s.inputs i) c
  change ArbiterRouting.answer (s.outputs i) c = _ at given
  rw [ArbiterRouting.answer, if_pos resp] at given
  split_ifs at given with serves
  have next : respO s.burst.adaptor.state = true ∧
      ArbiterRouting.rdata (s.outputs i) c = s.lineO i := by
    cases h : respO s.burst.adaptor.state with
    | false => simp [ArbiterRouting.nextAnswer, System.inputs, System.arbiterInputs, h] at given
    | true =>
      refine ⟨rfl, ?_⟩
      simpa [ArbiterRouting.nextAnswer, System.inputs, System.arbiterInputs, h] using given
  refine ⟨next.1, serves, ?_⟩
  intro a asks
  obtain ⟨c', q, serves', held, _, line⟩ := served inv admitted next.1
  rw [serves] at serves'
  obtain rfl := Option.some.inj serves'
  rw [asks] at held
  rw [next.2]
  exact line a (Option.some.inj held).symm

private theorem client_silent {c : ArbiterRouting.Client}
    (other : ArbiterRouting.granted s.arbiter.state ≠ some c) :
    ArbiterRouting.memResp (s.outputs i) c = false := by
  have given := ArbiterRouting.answer_outputs s.arbiter.state (s.inputs i) c
  change ArbiterRouting.answer (s.outputs i) c = _ at given
  rw [if_neg other, ArbiterRouting.answer] at given
  simpa using given

private theorem mem_next (inv : Inv Q init s) (admitted : Admitted Q i s) :
    (s.step i).mem = backing s.dCache i.dRequest (s.outputs i).dCacheMemResp
      (s.outputs i).dCacheRdata s.mem := by
  change s.burst.memNext (s.adaptorInputs i) s.mem = _
  cases resp : respO s.burst.adaptor.state with
  | false =>
    have silent : (s.outputs i).dCacheMemResp = false := by
      cases h : (s.outputs i).dCacheMemResp with
      | false => rfl
      | true =>
        have given := client_answer inv admitted (c := .dCache) h
        rw [resp] at given
        exact absurd given.1 (by simp)
    rw [Burst.memNext, resp, backing, silent, Bool.and_false]
    rfl
  | true =>
    obtain ⟨c, q, serves, held, passed, _⟩ := served inv admitted resp
    have offered : Burst.offer (s.adaptorInputs i) = some q := passed
    rw [Burst.memNext, resp, offered]
    change q.apply s.mem = _
    cases c with
    | iCache =>
      have silent : (s.outputs i).dCacheMemResp = false :=
        client_silent (c := .dCache) (by rw [serves]; simp)
      rw [offer_iCache inv.neverWritten] at held
      have reads : ∃ a, q = .read a := by
        cases state : s.iCache.state with
        | hit =>
          rw [busRequest_hit state] at held
          cases held
        | missClean =>
          rw [busRequest_missClean state] at held
          exact ⟨_, (Option.some.inj held).symm⟩
        | missDirty => exact absurd state inv.neverWritten.state
      obtain ⟨a, rfl⟩ := reads
      rw [backing, silent, Bool.and_false]
      rfl
    | dCache =>
      have given : (s.outputs i).dCacheMemResp = true := by
        have own := ArbiterRouting.answer_outputs s.arbiter.state (s.inputs i) .dCache
        rw [if_pos serves] at own
        by_contra silent
        change ArbiterRouting.answer (s.outputs i) .dCache = _ at own
        simp [ArbiterRouting.answer, ArbiterRouting.memResp, silent, ArbiterRouting.nextAnswer,
          System.inputs, System.arbiterInputs, resp] at own
      rw [offer_dCache] at held
      rw [backing, given, Bool.and_true]
      cases state : s.dCache.state with
      | hit =>
        rw [busRequest_hit state] at held
        cases held
      | missClean =>
        rw [busRequest_missClean state] at held
        rw [← Option.some.inj held]
        rfl
      | missDirty =>
        rw [busRequest_missDirty state] at held
        rw [← Option.some.inj held, cachelineOut_missDirty state]
        rfl

end Wires

section Step

variable {Q : LineAddr → Prop} {init : LineAddr → Line} {i : Cycle} {s : System}

private theorem dCache_next (inv : Inv Q init s) (admitted : Admitted Q i s) :
    Holds (fun _ => True) (s.step i).mem (s.step i).flat (s.step i).dCache
      (s.step i).dPending := by
  refine holds_next _ _ _ _ inv.dHolds (fun r' pend => (admitted.dHeld r' pend).symm) ?_
    (fun _ => trivial) ?_ fun l _ => congrFun (mem_next inv admitted) l
  · intro read
    by_contra write
    exact admitted.oneKind ⟨read, by simpa using write⟩
  · intro reads resp _
    have state : s.dCache.state = .missClean := by simpa [pmemRead] using reads
    refine (client_answer inv admitted (c := .dCache) resp).2.2 _ ?_
    rw [offer_dCache, busRequest_missClean state]

private theorem spared_next (inv : Inv Q init s) (admitted : Admitted Q i s) (l : LineAddr)
    (hl : Q l) :
    (s.step i).flat l = init l ∧ (s.step i).mem l = init l := by
  obtain ⟨flat, mem⟩ := inv.spared l hl
  constructor
  · change flatNext (s.dMemResp i) i.dRequest s.flat l = init l
    unfold flatNext
    split_ifs with wrote
    · have write : i.dRequest.write = true := ((Bool.and_eq_true _ _).mp wrote).2
      have other : l ≠ lineAddr i.dRequest.address := by
        intro here
        exact admitted.spares write (here ▸ hl)
      rw [Function.update_of_ne other, flat]
    · exact flat
  · rw [mem_next inv admitted]
    unfold backing
    split_ifs with writes
    · have state : s.dCache.state = .missDirty := by
        simpa [pmemWrite] using ((Bool.and_eq_true _ _).mp writes).1
      have value := writeBack_flat (s.outputs i).dCacheRdata inv.dHolds
        (fun r' pend => (admitted.dHeld r' pend).symm) state trivial
      by_cases here : l = lineAddr (s.dCache.pmemAddress i.dRequest)
      · rw [here, Function.update_self, value, ← here, flat]
      · rw [Function.update_of_ne here, mem]
    · exact mem

private theorem iCache_next (inv : Inv Q init s) (admitted : Admitted Q i s) :
    Holds Q (s.step i).mem init (s.step i).iCache (s.step i).iPending := by
  have same : flatNext (s.iMemResp i) i.iRequest init = init := by
    simp [flatNext, admitted.readOnly]
  have kept := holds_next (s.step i).mem (s.outputs i).iCacheMemResp
    (s.outputs i).iCacheRdata i.iLruOut inv.iHolds
    (fun r' pend => (admitted.iHeld r' pend).symm) (fun _ => admitted.readOnly)
    (fun write => by simp [admitted.readOnly] at write) ?_ ?_
  · change Holds Q _ (flatNext (s.iMemResp i) i.iRequest init) _ _ at kept
    rw [same] at kept
    exact kept
  · intro reads resp _
    have state : s.iCache.state = .missClean := by simpa [pmemRead] using reads
    refine (client_answer inv admitted (c := .iCache) resp).2.2 _ ?_
    rw [offer_iCache inv.neverWritten, busRequest_missClean state]
  · intro l hl
    have noWrite : pmemWrite s.iCache.state = false := by
      simpa [pmemWrite] using inv.neverWritten.state
    rw [(spared_next inv admitted l hl).2, backing, noWrite, Bool.false_and]
    exact (inv.spared l hl).2.symm

theorem carries_next {P : LineAddr → Prop} {mem flat : LineAddr → Line} {c : Cache4Way 3}
    {r : Request} {pend : Option Request} {rdata : Line} {lru : BitVec 3}
    {port : Port LineBus.Request Line} {client : ArbiterRouting.Client}
    (holds : Holds P mem flat c pend) (held : ∀ r' ∈ pend, r' = r)
    (offers : ArbiterRouting.offer (s.inputs i) client = busRequest c r 0#256) :
    Carries (port.next (ArbiterRouting.offer (s.inputs i) client)
        (ArbiterRouting.answer (s.outputs i) client))
      (c.next r (ArbiterRouting.memResp (s.outputs i) client) rdata lru)
      (pendNext (c.memResp r) r) := by
  intro q pending
  rw [Port.next] at pending
  cases resp : ArbiterRouting.memResp (s.outputs i) client with
  | true => simp [ArbiterRouting.answer, resp] at pending
  | false =>
    have asks : busRequest c r 0#256 = some q := by
      simpa [ArbiterRouting.answer, resp, offers] using pending
    obtain ⟨r', here, active, quiet⟩ := busRequest_pending holds asks
    obtain rfl := held r' here
    refine ⟨r', by simp [pendNext, active, quiet], ?_⟩
    have asks' : busRequest c r' rdata = some q := busRequest_rdata.trans asks
    exact busRequest_next asks'

theorem inv_step (i : Cycle) (s : System) (inv : Inv Q init s) (admitted : Admitted Q i s) :
    Inv Q init (s.step i) := by
  have arbiter := arbiter_admitted inv admitted
  have safe := ArbiterRouting.inv_safe inv.arbiter arbiter
  constructor
  · exact ArbiterRouting.inv_step _ _ inv.arbiter arbiter
  · have backs := backs_next (i := s.adaptorInputs i) inv.backs safe.stable safe.notBoth
      admitted.answers
    have pending : (s.step i).arbiter.nextLevel.pending =
        if respO s.burst.adaptor.state then none else Burst.offer (s.adaptorInputs i) := by
      have answered : (ArbiterRouting.nextAnswer (s.inputs i)).isSome =
          respO s.burst.adaptor.state := by
        cases h : respO s.burst.adaptor.state <;>
          simp [ArbiterRouting.nextAnswer, System.inputs, System.arbiterInputs, h]
      change (if (ArbiterRouting.nextAnswer (s.inputs i)).isSome then none
        else ArbiterRouting.nextOffer (s.outputs i)) = _
      rw [answered]
      rfl
    rw [pending]
    exact backs
  · exact dCache_next inv admitted
  · exact iCache_next inv admitted
  · exact inv.neverWritten.next admitted.readOnly _ _ _
  · exact carries_next inv.dHolds admitted.dHeld offer_dCache
  · exact carries_next inv.iHolds admitted.iHeld (offer_iCache inv.neverWritten)
  · exact spared_next inv admitted

theorem inv_coherent (i : Cycle) (s : System) (inv : Inv Q init s) (_ : Admitted Q i s) :
    Coherent Q init i s := by
  constructor
  · intro answered read
    exact holds_memRdata inv.dHolds answered read trivial
  · intro answered read inQ
    exact holds_memRdata inv.iHolds answered read inQ

theorem inv_start (iData dData : Fin 4 → BitVec 3 → Line) (adaptor : Adaptor) :
    Inv Q init (.start iData dData adaptor init) where
  arbiter := ArbiterRouting.inv_start
  backs := .reset rfl rfl rfl
  dHolds := holds_reset dData
  iHolds := holds_reset iData
  neverWritten := neverWritten_reset iData
  dCarries := by
    intro q pending
    cases pending
  iCarries := by
    intro q pending
    cases pending
  spared _ _ := ⟨rfl, rfl⟩

end Step

end Mp4.Memory.Hierarchy
