import Mp4.Lib.Modified
import Mp4.Memory.FourWay.Bus
import Mp4.Memory.FourWay.FlatMemory
import Mp4.Memory.LineEvents

/-!
The traffic of `cache_4_way` on its lower port, request by request: nothing on a hit, a read
of the line on a miss, and before it a write of the victim where that was modified.
-/

set_option autoImplicit false
set_option relaxedAutoImplicit false

namespace Mp4.Memory.FourWay.MissTraffic

open Mp4.Lib.Clocked Mp4.Lib.Replacement Mp4.Lib.Modified Mp4.Memory.Address Mp4.Memory.LineEvents
open Mp4.Memory.FourWay.Datapath Mp4.Memory.FourWay.Cache Mp4.Memory.FourWay.Refinement
open Mp4.Memory.FourWay.Bus
open Mp4.Memory.FourWay.FlatMemory (Cycle)

def fetch (r : Request) : LineBus.Request := .read (lineAddr r.address ++ 0#5)

/-- The write of the line that the way to replace holds, to the address of that line. -/
def writeBack (c : Cache4Way 3) (r : Request) : LineBus.Request :=
  let w := c.replace r
  let set := index 3 r.address
  .write (lineOf (c.arrays.tags w set) set ++ 0#5) (c.arrays.data w set)

/-- The cycles from the first one of a request to its answer. -/
def Traffic (c : Cache4Way 3) (r : Request) : List Event → Prop :=
  LineEvents.Traffic (c.memResp r) (c.arrays.dirty (c.replace r) (index 3 r.address))
    (writeBack c r) (fetch r)

/-- The cache with the lines that were modified since they were filled. -/
structure Tracked where
  cache : Cache4Way 3
  /-- The request that has to be held. -/
  pending : Option Request
  modified : LineAddr → Bool

def modifiedNext (c : Cache4Way 3) (r : Request) (resp : Bool) :
    (LineAddr → Bool) → LineAddr → Bool :=
  LineEvents.modifiedNext (c.memResp r && !r.read && r.write) (pmemRead c.state && resp)
    (lineAddr r.address) (lineAddr (c.pmemAddress r))

namespace Tracked

def step (i : Cycle) (s : Tracked) : Tracked where
  cache := s.cache.next i.request i.pmemResp i.pmemRdata i.lruOut
  pending := pendNext (s.cache.memResp i.request) i.request
  modified := modifiedNext s.cache i.request i.pmemResp s.modified

def start (data : Fin 4 → BitVec 3 → Line) : Tracked where
  cache := .reset data
  pending := none
  modified _ := false

def event (s : Tracked) (i : Cycle) : Event where
  transfer := (busRequest s.cache i.request i.pmemRdata).map fun q => (q, i.pmemResp)
  memResp := s.cache.memResp i.request

def served (s : Tracked) : List Cycle → List Event := LineEvents.served step event s

end Tracked

def Held (i : Cycle) (s : Tracked) : Prop := ∀ r ∈ s.pending, r = i.request

instance decidableHeld (i : Cycle) (s : Tracked) : Decidable (Held i s) := by
  unfold Held
  infer_instance

section Serve

variable {s : Tracked} {r : Request} {is : List Cycle}

private theorem step_move {i : Cycle} (asked : s.cache.state = .hit ∨ i.request.active = true) :
    Move s.cache (s.step i).cache i.request i.pmemResp i.pmemRdata :=
  next_move _ _ _ asked

private theorem event_answer {i : Cycle} (state : s.cache.state = .hit)
    (answered : s.cache.memResp i.request = true) : s.event i = .answer := by
  simp [Tracked.event, busRequest_hit state, answered, Event.answer]

private theorem served_quiet {i : Cycle} (state : s.cache.state = .hit)
    (quiet : s.cache.memResp i.request = false) :
    s.served (i :: is) = .quiet :: (s.step i).served is := by
  have event : s.event i = .quiet := by
    simp [Tracked.event, busRequest_hit state, quiet, Event.quiet]
  rw [← event]
  exact served_waits quiet

private theorem served_transfer {i : Cycle} {q : LineBus.Request}
    (asks : busRequest s.cache i.request i.pmemRdata = some q)
    (quiet : s.cache.memResp i.request = false) :
    s.served (i :: is) = ⟨some (q, i.pmemResp), false⟩ :: (s.step i).served is := by
  have event : s.event i = ⟨some (q, i.pmemResp), false⟩ := by simp [Tracked.event, asks, quiet]
  rw [← event]
  exact served_waits quiet

private theorem served_answered (state : s.cache.state = .hit) (answered : s.cache.memResp r = true)
    (presents : ∀ i ∈ is, i.request = r) : s.served is <+: [.answer] := by
  cases is with
  | nil => exact List.nil_prefix
  | cons i is =>
    obtain ⟨rfl, -⟩ := List.forall_mem_cons.mp presents
    have only : s.served (i :: is) = [.answer] := served_answer (event_answer state answered)
    exact only ▸ List.prefix_rfl

private theorem served_missClean (state : s.cache.state = .missClean) (active : r.active = true)
    (presents : ∀ i ∈ is, i.request = r) :
    ∃ n, s.served is <+: transaction (fetch r) n ++ [.answer] := by
  induction is generalizing s with
  | nil => exact ⟨0, List.nil_prefix⟩
  | cons i is ih =>
    obtain ⟨rfl, rest⟩ := List.forall_mem_cons.mp presents
    have asks : busRequest s.cache i.request i.pmemRdata = some (fetch i.request) := by
      rw [busRequest_missClean state, Cache4Way.pmemAddress, newAddress, newAddressSel, state]
      rfl
    obtain ⟨quiet, state', view'⟩ := (step_move (.inr active)).of_missClean state
    rw [served_transfer asks quiet]
    cases resp : i.pmemResp with
    | false =>
      rw [resp, if_neg Bool.false_ne_true] at state'
      obtain ⟨n, served⟩ := ih (s := s.step i) state' rest
      refine ⟨n + 1, ?_⟩
      rw [transaction_succ]
      exact (List.prefix_cons_inj _).mpr served
    | true =>
      rw [resp, if_pos rfl] at state'
      have answered := filled_memResp active state' view'
      exact ⟨0, (List.prefix_cons_inj _).mpr (served_answered state' answered rest)⟩

private theorem served_missDirty {q : LineBus.Request} (state : s.cache.state = .missDirty)
    (active : r.active = true) (asks : ∀ rdata, busRequest s.cache r rdata = some q)
    (presents : ∀ i ∈ is, i.request = r) :
    ∃ n m, s.served is <+: transaction q n ++ (transaction (fetch r) m ++ [.answer]) := by
  induction is generalizing s with
  | nil => exact ⟨0, 0, List.nil_prefix⟩
  | cons i is ih =>
    obtain ⟨rfl, rest⟩ := List.forall_mem_cons.mp presents
    obtain ⟨quiet, state', -, -⟩ := (step_move (.inr active)).of_missDirty state
    rw [served_transfer (asks i.pmemRdata) quiet]
    cases resp : i.pmemResp with
    | false =>
      rw [resp, if_neg Bool.false_ne_true] at state'
      have asks' (rdata : Line) : busRequest (s.step i).cache i.request rdata = some q := by
        rw [Tracked.step, resp]
        exact busRequest_next (asks i.pmemRdata)
      obtain ⟨n, m, served⟩ := ih (s := s.step i) state' asks' rest
      refine ⟨n + 1, m, ?_⟩
      rw [transaction_succ]
      exact (List.prefix_cons_inj _).mpr served
    | true =>
      rw [resp, if_pos rfl] at state'
      obtain ⟨m, served⟩ := served_missClean (s := s.step i) state' active rest
      exact ⟨0, m, (List.prefix_cons_inj _).mpr served⟩

private theorem busRequest_evict {c c' : Cache4Way 3} {rdata : Line}
    (state' : c'.state = .missDirty)
    (view' : view c'.arrays = view c.arrays) (replace' : c'.replace r = c.replace r) :
    busRequest c' r rdata = some (writeBack c r) := by
  have addr : lineOf (c'.arrays.tags (c.replace r) (index 3 r.address)) (index 3 r.address) =
      lineOf (c.arrays.tags (c.replace r) (index 3 r.address)) (index 3 r.address) :=
    congrArg (fun v => v.addr (c.replace r) (index 3 r.address)) view'
  have data : c'.arrays.data = c.arrays.data := congrArg (fun v => v.data) view'
  have none : c'.installs r (c'.replace r) = false := by
    simp [Cache4Way.installs, tagArrayLoad, state']
  have out : tagArrayOut c'.arrays r.address (c'.installs r) (c'.replace r) =
      c'.arrays.tags (c'.replace r) (index 3 r.address) := by
    simp [tagArrayOut, Arrays.array, none]
  have address : c'.pmemAddress r =
      lineOf (c.arrays.tags (c.replace r) (index 3 r.address)) (index 3 r.address) ++ 0#5 := by
    rw [Cache4Way.pmemAddress, out, newAddress, newAddressSel, state', replace', ← addr]
    exact victim_eq _ _
  rw [busRequest_missDirty state', address, data, replace', writeBack]

private theorem served_hit (state : s.cache.state = .hit) (active : r.active = true)
    (presents : ∀ i ∈ is, i.request = r) :
    ∃ events, Traffic s.cache r events ∧ s.served is <+: events := by
  cases is with
  | nil =>
    obtain ⟨events, traffic⟩ := exists_traffic (s.cache.memResp r) _ _ _
    exact ⟨events, traffic, List.nil_prefix⟩
  | cons i is =>
    unfold Traffic
    cases answered : s.cache.memResp r with
    | true => exact ⟨_, rfl, served_answered state answered presents⟩
    | false =>
      obtain ⟨rfl, rest⟩ := List.forall_mem_cons.mp presents
      obtain ⟨state', view', replace'⟩ :=
        (step_move (i := i) (.inl state)).of_miss state active answered
      rw [served_quiet state answered]
      cases dirty : s.cache.arrays.dirty (s.cache.replace i.request)
          (index 3 i.request.address) with
      | true =>
        rw [dirty] at state'
        have asks (rdata : Line) :
            busRequest (s.step i).cache i.request rdata = some (writeBack s.cache i.request) :=
          busRequest_evict state' view' replace'
        obtain ⟨n, m, served⟩ := served_missDirty (s := s.step i) state' active asks rest
        exact ⟨_, ⟨n, m, rfl⟩, (List.prefix_cons_inj _).mpr served⟩
      | false =>
        rw [dirty] at state'
        obtain ⟨n, served⟩ := served_missClean (s := s.step i) state' active rest
        exact ⟨_, ⟨n, rfl⟩, (List.prefix_cons_inj _).mpr served⟩

end Serve

/-- Outside state hit a request is pending, and what is owed was modified. -/
structure Inv (s : Tracked) : Prop where
  waiting : s.cache.state = .hit ∨ ∃ r, s.pending = some r ∧ r.active = true
  marks : ∀ i, Held i s →
    Accounted setIndex s.modified (phase s.cache i.request) (view s.cache.arrays)

section Invariant

variable {s : Tracked} {i : Cycle}

private theorem modifiedNext_quiet {c : Cache4Way 3} {r : Request} {resp : Bool}
    {modified : LineAddr → Bool} (noWrite : c.memResp r = false ∨ r.read = true)
    (noFill : c.state ≠ .missClean ∨ resp = false) :
    modifiedNext c r resp modified = modified := by
  apply LineEvents.modifiedNext_quiet
  · rcases noWrite with h | h <;> simp [h]
  · rcases noFill with h | h <;> simp [pmemRead, h]

private theorem Inv.active (inv : Inv s) (held : Held i s) :
    s.cache.state = .hit ∨ i.request.active = true := by
  rcases inv.waiting with hit | ⟨r, pending, active⟩
  · exact .inl hit
  · exact .inr (held r pending ▸ active)

private theorem marks_step (inv : Inv s) (held : Held i s) :
    Accounted setIndex (s.step i).modified (phase (s.step i).cache i.request)
      (view (s.step i).cache.arrays) := by
  have marks := inv.marks i held
  have home : ∀ w set, setIndex ((view s.cache.arrays).addr w set) = set :=
    fun _ _ => setIndex_lineOf _ _
  show Accounted setIndex (modifiedNext s.cache i.request i.pmemResp s.modified) _ _
  cases step_move (inv.active held) with
  | idle state _ quiet state' view' =>
    rw [phase_hit state] at marks
    rw [modifiedNext_quiet (.inl quiet) (.inl (by simp [state])), phase_hit state', view']
    exact marks
  | read state _ kind state' view' =>
    rw [phase_hit state] at marks
    rw [modifiedNext_quiet (.inr kind) (.inl (by simp [state])), phase_hit state', view']
    exact marks
  | write w state answered kind state' live addr view' =>
    rw [phase_hit state] at marks
    have modified : modifiedNext s.cache i.request i.pmemResp s.modified =
        Function.update s.modified (lineAddr i.request.address) true := by
      simp [modifiedNext, LineEvents.modifiedNext, answered, kind]
    rw [modified, phase_hit state', view']
    exact marks.stored live addr
  | evict state _ quiet owed absent state' view' replace' =>
    rw [phase_hit state] at marks
    rw [modifiedNext_quiet (.inl quiet) (.inl (by simp [state])), phase_missDirty state',
      view', replace']
    exact marks.evict owed absent
  | reuse state _ quiet settled absent state' view' replace' =>
    rw [phase_hit state] at marks
    rw [modifiedNext_quiet (.inl quiet) (.inl (by simp [state])), phase_missClean state',
      view', replace']
    exact marks.reuse settled absent
  | writeBack state quiet state' view' replace' =>
    rw [phase_missDirty state] at marks
    rw [modifiedNext_quiet (.inl quiet) (.inl (by simp [state])), view']
    cases resp : i.pmemResp with
    | false =>
      rw [resp, if_neg Bool.false_ne_true] at state'
      rw [phase_missDirty state', replace']
      exact marks.evictWait
    | true =>
      rw [resp, if_pos rfl] at state'
      rw [phase_missClean state', replace']
      exact marks.evicted
  | fill state quiet state' view' replace' =>
    rw [phase_missClean state] at marks
    cases resp : i.pmemResp with
    | false =>
      rw [resp, if_neg Bool.false_ne_true] at state'
      rw [modifiedNext_quiet (.inl quiet) (.inr rfl), phase_missClean state', view', replace']
      exact marks.fillWait
    | true =>
      rw [resp, if_pos rfl] at state'
      have modified : modifiedNext s.cache i.request true s.modified =
          Function.update s.modified (lineAddr i.request.address) false := by
        rw [modifiedNext, LineEvents.modifiedNext, quiet, state, pmemAddress_missClean state]
        rfl
      rw [modified, phase_hit state', view']
      exact marks.filled home

theorem inv_step (i : Cycle) (s : Tracked) (inv : Inv s) (held : Held i s) : Inv (s.step i) := by
  have marks := marks_step inv held
  have waits : (s.step i).cache.state = .hit ∨
      (s.step i).pending = some i.request ∧ i.request.active = true :=
    next_waits (inv.active held)
  rcases waits with state' | ⟨pending, active⟩
  · refine ⟨.inl state', fun i' _ => ?_⟩
    rw [phase_hit state'] at marks ⊢
    exact marks
  · refine ⟨.inr ⟨i.request, pending, active⟩, fun i' held' => ?_⟩
    rw [← held' i.request pending]
    exact marks

theorem inv_start (data : Fin 4 → BitVec 3 → Line) : Inv (.start data) := by
  refine ⟨.inl rfl, fun i _ => ?_⟩
  apply Accounted.empty
  intro w set
  rfl

private theorem Inv.writes_modified (inv : Inv s) (held : Held i s)
    (writes : s.cache.state = .missDirty) :
    s.modified (lineAddr (s.cache.pmemAddress i.request)) = true := by
  have marks := inv.marks i held
  rw [phase_missDirty writes] at marks
  rw [pmemAddress_missDirty writes, ← setIndex_lineAddr]
  exact marks.victim.2

private theorem modified_readOnly {is : List Cycle} (readOnly : ∀ i ∈ is, i.request.write = false)
    (start : ∀ l, s.modified l = false) (l : LineAddr) :
    (run Tracked.step s is).modified l = false := by
  have keep (i : Cycle) (s : Tracked) (none : ∀ l, s.modified l = false)
      (reads : i.request.write = false) : ∀ l, (s.step i).modified l = false :=
    modifiedNext_readOnly (by rw [reads, Bool.and_false]) none
  exact run_invariant keep start (along_of_mem Tracked.step readOnly) l

end Invariant

/-- In every state that is reached while requests are held, whatever the memory answers and
whenever: the two strobes are never both high, a write is for a line that an answered write
modified since it was filled, there is none where all requests only read, and a new request
sees the traffic of a hit, of a refill, or of a write-back and a refill. -/
theorem miss_traffic (data : Fin 4 → BitVec 3 → Line) (before : List Cycle)
    (held : Along Tracked.step Held (.start data) before) :
    let s := run Tracked.step (.start data) before
    ¬(pmemRead s.cache.state = true ∧ pmemWrite s.cache.state = true) ∧
    (∀ i, Held i s → pmemWrite s.cache.state = true →
      s.modified (lineAddr (s.cache.pmemAddress i.request)) = true) ∧
    ((∀ i ∈ before, i.request.write = false) → pmemWrite s.cache.state = false) ∧
    (s.pending = none → ∀ r, r.active = true → ∀ is, (∀ i ∈ is, i.request = r) →
      ∃ events, Traffic s.cache r events ∧ s.served is <+: events ∧
        ((∃ e ∈ s.served is, e.memResp = true) → s.served is = events)) := by
  intro s
  have inv : Inv s := run_invariant inv_step (inv_start data) held
  refine ⟨?_, ?_, ?_, ?_⟩
  · rintro ⟨reads, writes⟩
    have state := eq_of_beq reads
    simp [pmemWrite, state] at writes
  · intro i held' writes
    exact inv.writes_modified held' (eq_of_beq writes)
  · intro readOnly
    by_contra writes
    have state : s.cache.state = .missDirty := eq_of_beq ((Bool.not_eq_false _).mp writes)
    rcases inv.waiting with hit | ⟨r, pending, -⟩
    · rw [state] at hit
      cases hit
    · have held' : Held ⟨r, false, 0#256, 0#3⟩ s := by
        intro r' pending'
        exact Option.some.inj (pending'.symm.trans pending)
      have modified := inv.writes_modified held' state
      rw [modified_readOnly readOnly fun _ => rfl] at modified
      cases modified
  · intro free r active is presents
    have state : s.cache.state = .hit := by
      rcases inv.waiting with hit | ⟨r', pending, -⟩
      · exact hit
      · rw [free] at pending
        cases pending
    obtain ⟨events, traffic, part⟩ := served_hit state active presents
    exact ⟨events, traffic, part, traffic.complete (List.forall_mem_nil _) part⟩

def secondLine : List Cycle :=
  let read : Request := ⟨true, false, 0x15c#32, 0#32, 0#4⟩
  FlatMemory.maskedWrite ++
    [⟨read, false, 0#256, 0#3⟩, ⟨read, true, 5#256, 0#3⟩, ⟨read, false, 0#256, 0#3⟩]

def thirdRead : Request := ⟨true, false, 0x25c#32, 0#32, 0#4⟩

def thirdLine : List Cycle :=
  [⟨thirdRead, false, 0#256, 0#3⟩, ⟨thirdRead, false, 0#256, 0#3⟩, ⟨thirdRead, true, 0#256, 0#3⟩,
    ⟨thirdRead, true, 9#256, 0#3⟩, ⟨thirdRead, false, 0#256, 0#3⟩]

theorem miss_traffic_thirdLine :
    let s := run Tracked.step (.start fun _ _ => 0#256) secondLine
    s.served thirdLine =
        .quiet :: (transaction (.write 0x40#32 (0x11bbcc44#32 ++ 0#224)) 1 ++
          (transaction (.read 0x240#32) 0 ++ [.answer])) ∧
      ∃ events, Traffic s.cache thirdRead events ∧ s.served thirdLine = events := by
  intro s
  have held : Along Tracked.step Held (.start fun _ _ => 0#256) secondLine := by decide +kernel
  have free : s.pending = none := by decide +kernel
  obtain ⟨-, -, -, serves⟩ := miss_traffic (fun _ _ => 0#256) secondLine held
  obtain ⟨events, traffic, -, whole⟩ := serves free thirdRead rfl thirdLine (by decide)
  refine ⟨by decide +kernel, events, traffic, whole ?_⟩
  decide +kernel

end Mp4.Memory.FourWay.MissTraffic
