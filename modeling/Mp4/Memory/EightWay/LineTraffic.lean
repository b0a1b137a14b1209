import Mp4.Lib.Modified
import Mp4.Lib.Placement
import Mp4.Memory.EightWay.FlatMemory
import Mp4.Memory.EightWay.Moves
import Mp4.Memory.LineEvents

/-!
The traffic of `modular_cache` on its lower port and the representation invariant behind it.
A request is looked up one cycle after it is seen; from then on it sees what a request to
`cache_4_way` sees.
-/

set_option autoImplicit false
set_option relaxedAutoImplicit false

namespace Mp4.Memory.EightWay.LineTraffic

open Mp4.Lib.Clocked Mp4.Lib.WriteBack Mp4.Lib.Replacement Mp4.Lib.Modified Mp4.Lib.Placement
open Mp4.Memory.Address Mp4.Memory.LineEvents Mp4.Memory.EightWay.Datapath
open Mp4.Memory.EightWay.Cache Mp4.Memory.EightWay.Refinement Mp4.Memory.EightWay.Moves
open Mp4.Memory.EightWay.FlatMemory (Cycle)

def fetch (r : Request) : LineBus.Request := .read (lineAddr r.address ++ 0#5)

def writeBack (c : ModularCache 3) (r : Request) : LineBus.Request :=
  .write ((view c.arrays).addr (chosen c r) (setIndex (lineAddr r.address)) ++ 0#5)
    ((view c.arrays).data (chosen c r) (setIndex (lineAddr r.address)))

/-- The cycles from the look-up of a request to its answer. -/
def Traffic (c : ModularCache 3) (r : Request) : List Event → Prop :=
  LineEvents.Traffic (decide (Found c r)) (c.arrays.dirty (chosen c r) (index 3 r.address))
    (writeBack c r) (fetch r)

/-- The cache with the lines that were modified since they were filled. -/
structure Tracked where
  cache : ModularCache 3
  /-- The request that has to be held. -/
  pending : Option Request
  modified : LineAddr → Bool

def modifiedNext (c : ModularCache 3) (r : Request) (resp : Bool) :
    (LineAddr → Bool) → LineAddr → Bool :=
  LineEvents.modifiedNext (c.memResp r && !r.read && r.write) (pmemRead c.state && resp)
    (lineAddr r.address) (lineAddr (c.pmemAddress r))

namespace Tracked

def step (i : Cycle) (s : Tracked) : Tracked where
  cache := s.cache.next i.request i.pmemResp i.pmemRdata
  pending := pendNext (s.cache.memResp i.request) i.request
  modified := modifiedNext s.cache i.request i.pmemResp s.modified

def start (data : Fin 8 → BitVec 3 → Line) (outs : Outs) : Tracked where
  cache := .reset data outs
  pending := none
  modified _ := false

def event (s : Tracked) (i : Cycle) : Event where
  transfer := (busRequest s.cache i.request).map fun q => (q, i.pmemResp)
  memResp := s.cache.memResp i.request

def served (s : Tracked) : List Cycle → List Event := LineEvents.served step event s

end Tracked

def Held (i : Cycle) (s : Tracked) : Prop := ∀ r ∈ s.pending, r = i.request

instance decidableHeld (i : Cycle) (s : Tracked) : Decidable (Held i s) := by
  unfold Held
  infer_instance

section Serve

variable {s : Tracked} {r : Request} {is : List Cycle}

private theorem step_move {i : Cycle}
    (asked : s.cache.state = .stall ∨ i.request.active = true ∧ Current s.cache i.request) :
    Move s.cache (s.step i).cache i.request i.pmemResp i.pmemRdata :=
  next_move _ _ asked

private theorem step_current (s : Tracked) (i : Cycle) : Current (s.step i).cache i.request :=
  next_current

private theorem event_answer {i : Cycle} (state : s.cache.state = .hit)
    (answered : s.cache.memResp i.request = true) : s.event i = .answer := by
  simp [Tracked.event, busRequest_none (.inr state), answered, Event.answer]

private theorem served_quiet {i : Cycle} (state : s.cache.state = .stall ∨ s.cache.state = .hit)
    (quiet : s.cache.memResp i.request = false) :
    s.served (i :: is) = .quiet :: (s.step i).served is := by
  have event : s.event i = .quiet := by
    simp [Tracked.event, busRequest_none state, quiet, Event.quiet]
  rw [← event]
  exact served_waits quiet

private theorem served_transfer {i : Cycle} {q : LineBus.Request}
    (asks : busRequest s.cache i.request = some q) (quiet : s.cache.memResp i.request = false) :
    s.served (i :: is) = ⟨some (q, i.pmemResp), false⟩ :: (s.step i).served is := by
  have event : s.event i = ⟨some (q, i.pmemResp), false⟩ := by simp [Tracked.event, asks, quiet]
  rw [← event]
  exact served_waits quiet

private theorem served_found (state : s.cache.state = .hit) (current : Current s.cache r)
    (found : Found s.cache r) (presents : ∀ i ∈ is, i.request = r) :
    s.served is <+: [.answer] := by
  have answered := (memResp_iff state current).mpr found
  cases is with
  | nil => exact List.nil_prefix
  | cons i is =>
    obtain ⟨rfl, -⟩ := List.forall_mem_cons.mp presents
    have only : s.served (i :: is) = [.answer] := served_answer (event_answer state answered)
    exact only ▸ List.prefix_rfl

private theorem served_missClean (state : s.cache.state = .missClean) (active : r.active = true)
    (current : Current s.cache r) (presents : ∀ i ∈ is, i.request = r) :
    ∃ n, s.served is <+: transaction (fetch r) n ++ [.answer] := by
  induction is generalizing s with
  | nil => exact ⟨0, List.nil_prefix⟩
  | cons i is ih =>
    obtain ⟨rfl, rest⟩ := List.forall_mem_cons.mp presents
    have asks : busRequest s.cache i.request = some (fetch i.request) :=
      busRequest_missClean state
    have current' := step_current s i
    cases step_move (.inr ⟨active, current⟩) with
    | fill _ quiet state' view' =>
      rw [served_transfer asks quiet]
      cases resp : i.pmemResp with
      | false =>
        rw [resp, if_neg Bool.false_ne_true] at state'
        obtain ⟨n, served⟩ := ih (s := s.step i) state' current' rest
        refine ⟨n + 1, ?_⟩
        rw [transaction_succ]
        exact (List.prefix_cons_inj _).mpr served
      | true =>
        rw [resp, if_pos rfl] at state'
        have found : Found (s.step i).cache i.request := found_filled view'
        exact ⟨0, (List.prefix_cons_inj _).mpr (served_found state' current' found rest)⟩
    | idle other | ask other | read other | write _ other | evict other | reuse other
    | writeBack other =>
      rw [state] at other
      cases other

private theorem served_missDirty {q : LineBus.Request} (state : s.cache.state = .missDirty)
    (active : r.active = true) (current : Current s.cache r) (asks : writeBack s.cache r = q)
    (presents : ∀ i ∈ is, i.request = r) :
    ∃ n m, s.served is <+: transaction q n ++ (transaction (fetch r) m ++ [.answer]) := by
  induction is generalizing s with
  | nil => exact ⟨0, 0, List.nil_prefix⟩
  | cons i is ih =>
    obtain ⟨rfl, rest⟩ := List.forall_mem_cons.mp presents
    have port : busRequest s.cache i.request = some q :=
      (busRequest_missDirty state current).trans (congrArg some asks)
    have current' := step_current s i
    cases step_move (.inr ⟨active, current⟩) with
    | writeBack _ quiet state' view' =>
      rw [served_transfer port quiet]
      cases resp : i.pmemResp with
      | false =>
        rw [resp, if_neg Bool.false_ne_true] at state'
        have asks' : LineTraffic.writeBack (s.step i).cache i.request = q := by
          have chosen' : chosen (s.step i).cache i.request = chosen s.cache i.request :=
            chosen_next _ _ quiet
          rw [LineTraffic.writeBack, chosen', view', ← asks]
          rfl
        obtain ⟨n, m, served⟩ := ih (s := s.step i) state' current' asks' rest
        refine ⟨n + 1, m, ?_⟩
        rw [transaction_succ]
        exact (List.prefix_cons_inj _).mpr served
      | true =>
        rw [resp, if_pos rfl] at state'
        obtain ⟨m, served⟩ := served_missClean (s := s.step i) state' active current' rest
        exact ⟨0, m, (List.prefix_cons_inj _).mpr served⟩
    | idle other | ask other | read other | write _ other | evict other | reuse other
    | fill other =>
      rw [state] at other
      cases other

private theorem served_hit (state : s.cache.state = .hit) (active : r.active = true)
    (current : Current s.cache r) (presents : ∀ i ∈ is, i.request = r) :
    ∃ events, Traffic s.cache r events ∧ s.served is <+: events := by
  cases is with
  | nil =>
    obtain ⟨events, traffic⟩ := exists_traffic (decide (Found s.cache r)) _ _ _
    exact ⟨events, traffic, List.nil_prefix⟩
  | cons i is =>
    unfold Traffic
    by_cases found : Found s.cache r
    · rw [decide_eq_true found]
      exact ⟨_, rfl, served_found state current found presents⟩
    rw [decide_eq_false found]
    have unanswered : s.cache.memResp r = false := by
      by_contra answered
      exact found ((memResp_iff state current).mp ((Bool.not_eq_false _).mp answered))
    obtain ⟨rfl, rest⟩ := List.forall_mem_cons.mp presents
    have current' := step_current s i
    have owes : (view s.cache.arrays).owed (chosen s.cache i.request)
        (setIndex (lineAddr i.request.address)) =
          s.cache.arrays.dirty (chosen s.cache i.request) (index 3 i.request.address) := by
      rw [setIndex_lineAddr]
      rfl
    rw [served_quiet (.inr state) unanswered]
    cases step_move (i := i) (.inr ⟨active, current⟩) with
    | evict _ _ owed _ state' view' =>
      rw [owes] at owed
      rw [owed]
      have asks : writeBack (s.step i).cache i.request = writeBack s.cache i.request := by
        have chosen' : chosen (s.step i).cache i.request = chosen s.cache i.request :=
          chosen_next _ _ unanswered
        rw [writeBack, chosen', view']
        rfl
      obtain ⟨n, m, served⟩ := served_missDirty state' active current' asks rest
      exact ⟨_, ⟨n, m, rfl⟩, (List.prefix_cons_inj _).mpr served⟩
    | reuse _ _ settled _ state' view' =>
      rw [owes] at settled
      rw [settled]
      obtain ⟨n, served⟩ := served_missClean state' active current' rest
      exact ⟨_, ⟨n, rfl⟩, (List.prefix_cons_inj _).mpr served⟩
    | read _ answered | write _ _ answered =>
      rw [unanswered] at answered
      cases answered
    | idle other | ask other | writeBack other | fill other =>
      rw [state] at other
      cases other

private theorem served_stall (state : s.cache.state = .stall) (active : r.active = true)
    (presents : ∀ i ∈ is, i.request = r) :
    ∃ events, Traffic s.cache r events ∧ s.served is <+: .quiet :: events := by
  cases is with
  | nil =>
    obtain ⟨events, traffic⟩ := exists_traffic (decide (Found s.cache r)) _ _ _
    exact ⟨events, traffic, List.nil_prefix⟩
  | cons i is =>
    obtain ⟨rfl, rest⟩ := List.forall_mem_cons.mp presents
    have quiet : s.cache.memResp i.request = false := memResp_quiet (by simp [state])
    have current' := step_current s i
    rw [served_quiet (.inl state) quiet]
    cases step_move (i := i) (.inl state) with
    | ask _ _ state' view' =>
      obtain ⟨events, traffic, served⟩ := served_hit state' active current' rest
      refine ⟨events, ?_, (List.prefix_cons_inj _).mpr served⟩
      have chosen' : chosen (s.step i).cache i.request = chosen s.cache i.request :=
        chosen_next _ _ quiet
      have found' : Found (s.step i).cache i.request ↔ Found s.cache i.request := by
        rw [found_iff, found_iff, view']
      have dirty' : (s.step i).cache.arrays.dirty = s.cache.arrays.dirty :=
        congrArg (fun v => v.owed) view'
      have writes' : writeBack (s.step i).cache i.request = writeBack s.cache i.request := by
        rw [writeBack, chosen', view']
        rfl
      simpa only [Traffic, chosen', found', dirty', writes'] using traffic
    | idle _ inactive =>
      rw [active] at inactive
      cases inactive
    | read other | write _ other | evict other | reuse other | writeBack other | fill other =>
      rw [state] at other
      cases other

end Serve

def phase (c : ModularCache 3) (r : Request) : Phase (Fin 8) LineAddr :=
  match c.state with
  | .stall | .hit => .settled
  | .missDirty => .evicting (chosen c r) (lineAddr r.address)
  | .missClean => .filling (chosen c r) (lineAddr r.address)

/-- Outside state stall a request is pending and the registers show its set; what is owed was
modified, and every line stands in one way. -/
structure Inv (s : Tracked) : Prop where
  waiting : s.cache.state = .stall ∨
    ∃ r, s.pending = some r ∧ r.active = true ∧ Current s.cache r
  marks : ∀ i, Held i s →
    Accounted setIndex s.modified (phase s.cache i.request) (view s.cache.arrays)
  placed : ∀ i, Held i s → Placed setIndex (phase s.cache i.request) (view s.cache.arrays)

section Invariant

variable {s : Tracked} {i : Cycle} {c : ModularCache 3} {r : Request}

private theorem phase_settled (state : c.state = .stall ∨ c.state = .hit) :
    phase c r = .settled := by
  rcases state with state | state <;> rw [phase, state]

private theorem phase_missDirty (state : c.state = .missDirty) :
    phase c r = .evicting (chosen c r) (lineAddr r.address) := by
  rw [phase, state]

private theorem phase_missClean (state : c.state = .missClean) :
    phase c r = .filling (chosen c r) (lineAddr r.address) := by
  rw [phase, state]

private theorem modifiedNext_quiet {resp : Bool} {modified : LineAddr → Bool}
    (noWrite : c.memResp r = false ∨ r.read = true ∨ r.write = false)
    (noFill : c.state ≠ .missClean ∨ resp = false) :
    modifiedNext c r resp modified = modified := by
  apply LineEvents.modifiedNext_quiet
  · rcases noWrite with h | h | h <;> simp [h]
  · rcases noFill with h | h <;> simp [pmemRead, h]

private theorem Inv.asked (inv : Inv s) (held : Held i s) :
    s.cache.state = .stall ∨ i.request.active = true ∧ Current s.cache i.request := by
  rcases inv.waiting with stall | ⟨r, pending, active, current⟩
  · exact .inl stall
  · obtain rfl := held r pending
    exact .inr ⟨active, current⟩

private theorem phase_step (inv : Inv s) (held : Held i s) :
    Accounted setIndex (s.step i).modified (phase (s.step i).cache i.request)
        (view (s.step i).cache.arrays) ∧
      Placed setIndex (phase (s.step i).cache i.request) (view (s.step i).cache.arrays) := by
  have marks := inv.marks i held
  have placed := inv.placed i held
  have home : ∀ w set, setIndex ((view s.cache.arrays).addr w set) = set :=
    fun _ _ => setIndex_lineOf _ _
  have kept (quiet : s.cache.memResp i.request = false) :
      chosen (s.step i).cache i.request = chosen s.cache i.request := chosen_next _ _ quiet
  show Accounted setIndex (modifiedNext s.cache i.request i.pmemResp s.modified) _ _ ∧ _
  cases step_move (inv.asked held) with
  | idle state _ state' view' =>
    have quiet : s.cache.memResp i.request = false := memResp_quiet (by simp [state])
    rw [phase_settled (.inl state)] at marks placed
    rw [modifiedNext_quiet (.inl quiet) (.inl (by simp [state])), phase_settled (.inl state'),
      view']
    exact ⟨marks, placed⟩
  | ask state _ state' view' =>
    have quiet : s.cache.memResp i.request = false := memResp_quiet (by simp [state])
    rw [phase_settled (.inl state)] at marks placed
    rw [modifiedNext_quiet (.inl quiet) (.inl (by simp [state])), phase_settled (.inr state'),
      view']
    exact ⟨marks, placed⟩
  | read state _ kind state' view' =>
    rw [phase_settled (.inr state)] at marks placed
    rw [modifiedNext_quiet (.inr kind) (.inl (by simp [state])), phase_settled (.inl state'), view']
    exact ⟨marks, placed⟩
  | write w state answered kind state' live addr view' =>
    rw [phase_settled (.inr state)] at marks placed
    have modified : modifiedNext s.cache i.request i.pmemResp s.modified =
        Function.update s.modified (lineAddr i.request.address) true := by
      simp [modifiedNext, LineEvents.modifiedNext, answered, kind]
    rw [modified, phase_settled (.inl state'), view']
    exact ⟨marks.stored live addr, placed.stored live⟩
  | evict state quiet owed absent state' view' =>
    rw [phase_settled (.inr state)] at marks placed
    rw [modifiedNext_quiet (.inl quiet) (.inl (by simp [state])), phase_missDirty state',
      view', kept quiet]
    exact ⟨marks.evict owed absent, placed.evict absent⟩
  | reuse state quiet settled absent state' view' =>
    rw [phase_settled (.inr state)] at marks placed
    rw [modifiedNext_quiet (.inl quiet) (.inl (by simp [state])), phase_missClean state',
      view', kept quiet]
    exact ⟨marks.reuse settled absent, placed.reuse settled absent⟩
  | writeBack state quiet state' view' =>
    rw [phase_missDirty state] at marks placed
    rw [modifiedNext_quiet (.inl quiet) (.inl (by simp [state])), view']
    cases resp : i.pmemResp with
    | false =>
      rw [resp, if_neg Bool.false_ne_true] at state'
      rw [phase_missDirty state', kept quiet]
      exact ⟨marks.evictWait, placed.evictWait⟩
    | true =>
      rw [resp, if_pos rfl] at state'
      rw [phase_missClean state', kept quiet]
      exact ⟨marks.evicted, placed.evicted⟩
  | fill state quiet state' view' =>
    rw [phase_missClean state] at marks placed
    cases resp : i.pmemResp with
    | false =>
      rw [resp, if_neg Bool.false_ne_true] at state'
      rw [modifiedNext_quiet (.inl quiet) (.inr rfl), phase_missClean state', view', kept quiet]
      exact ⟨marks.fillWait, placed.fillWait⟩
    | true =>
      rw [resp, if_pos rfl] at state'
      have modified : modifiedNext s.cache i.request true s.modified =
          Function.update s.modified (lineAddr i.request.address) false := by
        rw [modifiedNext, LineEvents.modifiedNext, quiet, state, pmemAddress_missClean state]
        rfl
      rw [modified, phase_settled (.inr state'), view']
      exact ⟨marks.filled home, placed.filled⟩

private theorem next_waits (inv : Inv s) (held : Held i s) :
    (s.step i).cache.state = .stall ∨
      (s.step i).pending = some i.request ∧ i.request.active = true := by
  have pends (active : i.request.active = true) (quiet : s.cache.memResp i.request = false) :
      (s.step i).pending = some i.request ∧ i.request.active = true := by
    refine ⟨?_, active⟩
    show pendNext _ _ = _
    simp [pendNext, active, quiet]
  have active (moving : s.cache.state ≠ .stall) : i.request.active = true :=
    ((inv.asked held).resolve_left moving).1
  cases step_move (inv.asked held) with
  | idle _ _ state' => exact .inl state'
  | ask state active' => exact .inr (pends active' (memResp_quiet (by simp [state])))
  | read _ _ _ state' => exact .inl state'
  | write _ _ _ _ state' => exact .inl state'
  | evict state quiet => exact .inr (pends (active (by simp [state])) quiet)
  | reuse state quiet => exact .inr (pends (active (by simp [state])) quiet)
  | writeBack state quiet => exact .inr (pends (active (by simp [state])) quiet)
  | fill state quiet => exact .inr (pends (active (by simp [state])) quiet)

theorem inv_step (i : Cycle) (s : Tracked) (inv : Inv s) (held : Held i s) : Inv (s.step i) := by
  obtain ⟨marks, placed⟩ := phase_step inv held
  rcases next_waits inv held with state' | ⟨pending, active⟩
  · refine ⟨.inl state', fun i' _ => ?_, fun i' _ => ?_⟩
    · rw [phase_settled (.inl state')] at marks ⊢
      exact marks
    · rw [phase_settled (.inl state')] at placed ⊢
      exact placed
  · refine ⟨.inr ⟨i.request, pending, active, step_current s i⟩, fun i' held' => ?_,
      fun i' held' => ?_⟩
    · rw [← held' i.request pending]
      exact marks
    · rw [← held' i.request pending]
      exact placed

theorem inv_start (data : Fin 8 → BitVec 3 → Line) (outs : Outs) : Inv (.start data outs) := by
  refine ⟨.inl rfl, fun i _ => ?_, fun i _ => ?_⟩
  · apply Accounted.empty
    intro w set
    rfl
  · exact Placed.empty (fun _ _ => rfl) fun _ _ => rfl

private theorem Inv.writes_modified (inv : Inv s) (held : Held i s)
    (writes : s.cache.state = .missDirty) :
    s.modified (lineAddr (s.cache.pmemAddress i.request)) = true := by
  have marks := inv.marks i held
  obtain ⟨-, current⟩ := (inv.asked held).resolve_left (by simp [writes])
  rw [phase_missDirty writes] at marks
  rw [pmemAddress_missDirty writes current, replace_eq current, ← setIndex_lineAddr]
  exact marks.victim.2

private theorem modified_readOnly {is : List Cycle} (readOnly : ∀ i ∈ is, i.request.write = false)
    (start : ∀ l, s.modified l = false) (l : LineAddr) :
    (run Tracked.step s is).modified l = false := by
  have keep (i : Cycle) (s : Tracked) (none : ∀ l, s.modified l = false)
      (reads : i.request.write = false) : ∀ l, (s.step i).modified l = false :=
    modifiedNext_readOnly (by rw [reads, Bool.and_false]) none
  exact run_invariant keep start (along_of_mem Tracked.step readOnly) l

private theorem exists_held (s : Tracked) : ∃ i, Held i s := by
  cases pending : s.pending with
  | none =>
    refine ⟨⟨⟨false, false, 0#32, 0#256⟩, false, 0#256⟩, ?_⟩
    intro r mem
    rw [pending] at mem
    cases mem
  | some r =>
    refine ⟨⟨r, false, 0#256⟩, ?_⟩
    intro r' mem
    rw [pending] at mem
    exact (Option.some.inj mem).symm

end Invariant

/-- In every state that is reached while requests are held, whatever the memory answers and
whenever: no two valid ways of a set have the same tag, so that a pending request hits in at
most one way; a dirty way is valid; and during a refill, which is for the pending request, the
way to replace is not dirty and no other valid way has the requested tag. -/
theorem one_way_per_line (data : Fin 8 → BitVec 3 → Line) (outs : Outs) (is : List Cycle)
    (held : Along Tracked.step Held (.start data outs) is) :
    let s := run Tracked.step (.start data outs) is
    let c := s.cache
    (∀ w w' set, c.arrays.valid w set = true → c.arrays.valid w' set = true →
      c.arrays.tags w set = c.arrays.tags w' set → w = w') ∧
    (c.state = .hit → ∀ r ∈ s.pending, ∀ w w', c.hits r w = true → c.hits r w' = true → w = w') ∧
    (∀ w set, c.arrays.dirty w set = true → c.arrays.valid w set = true) ∧
    (c.state = .missClean → ∃ r, s.pending = some r ∧ r.active = true ∧
      c.arrays.dirty c.replace (index 3 r.address) = false ∧
      ∀ w, w ≠ c.replace → c.arrays.valid w (index 3 r.address) = true →
        c.arrays.tags w (index 3 r.address) ≠ tag 3 r.address) := by
  intro s c
  have inv : Inv s := run_invariant inv_step (inv_start data outs) held
  obtain ⟨i, held'⟩ := exists_held s
  have placed := inv.placed i held'
  have distinct := placed.distinct
  have unique : ∀ w w' set, c.arrays.valid w set = true → c.arrays.valid w' set = true →
      c.arrays.tags w set = c.arrays.tags w' set → w = w' := by
    intro w w' set live live' same
    exact distinct.unique w w' set live live' (congrArg (fun t => lineOf t set) same)
  refine ⟨unique, ?_, distinct.owedLive, ?_⟩
  · intro state r pending w w' hit hit'
    obtain rfl := held' r pending
    have moving : s.cache.state ≠ .stall := by
      rw [state]
      nofun
    obtain ⟨-, current⟩ := (inv.asked held').resolve_left moving
    rw [hits_eq current, Bool.and_eq_true, beq_iff_eq] at hit hit'
    exact unique w w' _ hit.2 hit'.2 (hit.1.symm.trans hit'.1)
  · intro state
    have moving : s.cache.state ≠ .stall := by
      rw [state]
      nofun
    obtain ⟨r, pending, active, current⟩ := inv.waiting.resolve_left moving
    obtain rfl : r = i.request := held' r pending
    rw [phase_missClean state] at placed
    obtain ⟨-, clean, absent⟩ := placed
    rw [setIndex_lineAddr] at clean
    rw [replace_eq current]
    refine ⟨i.request, pending, active, clean, fun w ne valid same => ?_⟩
    apply absent w
    · rw [setIndex_lineAddr]
      exact (put_other _ _ fun own => ne own.1).trans valid
    · rw [setIndex_lineAddr]
      show lineOf (c.arrays.tags w _) _ = _
      rw [same, lineOf_tag]

def leftover : Outs := ⟨fun _ => 1#24, fun _ => true, fun _ => true, 5#7, fun _ => 3#256⟩

theorem one_way_per_line_waiting :
    let s := run Tracked.step (.start (fun _ _ => 0#256) leftover) (FlatMemory.lineWrite.take 3)
    let c := s.cache
    c.state = .missClean ∧ c.arrays.valid 7 (index 3 0x140#32) = true ∧
      ∃ r, s.pending = some r ∧ r.active = true ∧
        c.arrays.dirty c.replace (index 3 r.address) = false ∧
        ∀ w, w ≠ c.replace → c.arrays.valid w (index 3 r.address) = true →
          c.arrays.tags w (index 3 r.address) ≠ tag 3 r.address := by
  intro s c
  have held : Along Tracked.step Held (.start (fun _ _ => 0#256) leftover)
      (FlatMemory.lineWrite.take 3) := by decide +kernel
  have state : c.state = .missClean := by decide +kernel
  refine ⟨state, by decide +kernel, ?_⟩
  exact (one_way_per_line (fun _ _ => 0#256) leftover _ held).2.2.2 state

/-- In every state that is reached while requests are held, whatever the memory answers and
whenever: the two strobes are never both high, a write is for a line that an answered write
modified since it was filled, there is none where all requests only read, and a new request
sees one cycle of look-up and then the traffic of a hit, of a refill, or of a write-back and a
refill. -/
theorem line_traffic (data : Fin 8 → BitVec 3 → Line) (outs : Outs) (before : List Cycle)
    (held : Along Tracked.step Held (.start data outs) before) :
    let s := run Tracked.step (.start data outs) before
    ¬(pmemRead s.cache.state = true ∧ pmemWrite s.cache.state = true) ∧
    (∀ i, Held i s → pmemWrite s.cache.state = true →
      s.modified (lineAddr (s.cache.pmemAddress i.request)) = true) ∧
    ((∀ i ∈ before, i.request.write = false) → pmemWrite s.cache.state = false) ∧
    (s.pending = none → ∀ r, r.active = true → ∀ is, (∀ i ∈ is, i.request = r) →
      ∃ events, Traffic s.cache r events ∧ s.served is <+: .quiet :: events ∧
        ((∃ e ∈ s.served is, e.memResp = true) → s.served is = .quiet :: events)) := by
  intro s
  have inv : Inv s := run_invariant inv_step (inv_start data outs) held
  refine ⟨?_, ?_, ?_, ?_⟩
  · rintro ⟨reads, writes⟩
    have state := eq_of_beq reads
    simp [pmemWrite, state] at writes
  · intro i held' writes
    exact inv.writes_modified held' (eq_of_beq writes)
  · intro readOnly
    by_contra writes
    have state : s.cache.state = .missDirty := eq_of_beq ((Bool.not_eq_false _).mp writes)
    obtain ⟨i, held'⟩ := exists_held s
    have modified := inv.writes_modified held' state
    rw [modified_readOnly readOnly fun _ => rfl] at modified
    cases modified
  · intro free r active is presents
    have state : s.cache.state = .stall := by
      rcases inv.waiting with stall | ⟨r', pending, -⟩
      · exact stall
      · rw [free] at pending
        cases pending
    obtain ⟨events, traffic, part⟩ := served_stall state active presents
    have silent : ∀ e ∈ [Event.quiet], e.memResp = false := by
      intro e here
      rw [List.mem_singleton.mp here]
      rfl
    exact ⟨events, traffic, part, traffic.complete silent part⟩

def secondRead : Request := ⟨true, false, 0x240#32, 0#256⟩

def secondLine : List Cycle :=
  [⟨secondRead, false, 0#256⟩, ⟨secondRead, false, 0#256⟩, ⟨secondRead, false, 0#256⟩,
    ⟨secondRead, true, 9#256⟩, ⟨secondRead, false, 0#256⟩]

theorem line_traffic_secondLine :
    let s := run Tracked.step (.start (fun _ _ => 0#256) leftover) FlatMemory.lineWrite
    s.served secondLine =
        .quiet :: .quiet :: (transaction (.read 0x240#32) 1 ++ [.answer]) ∧
      ∃ events, Traffic s.cache secondRead events ∧ s.served secondLine = .quiet :: events := by
  intro s
  have held : Along Tracked.step Held (.start (fun _ _ => 0#256) leftover)
      FlatMemory.lineWrite := by decide +kernel
  have free : s.pending = none := by decide +kernel
  obtain ⟨-, -, -, serves⟩ := line_traffic (fun _ _ => 0#256) leftover FlatMemory.lineWrite held
  obtain ⟨events, traffic, -, whole⟩ := serves free secondRead rfl secondLine (by decide)
  refine ⟨by decide +kernel, events, traffic, whole ?_⟩
  decide +kernel

end Mp4.Memory.EightWay.LineTraffic
