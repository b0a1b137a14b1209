import Mp4.Memory.EightWay.Refinement
import Mp4.Memory.LineBus

/-!
What one cycle of `modular_cache` can do, while a request is held. State stall is left for
state hit with the registers showing the request's set; there the request is answered, or its
miss goes through an eviction and a refill, or a refill, back to state hit.
-/

set_option autoImplicit false
set_option relaxedAutoImplicit false

namespace Mp4.Memory.EightWay.Moves

open Mp4.Lib.WriteBack Mp4.Lib.Replacement Mp4.Memory.Address Mp4.Memory.Arrays
open Mp4.Memory.EightWay.Datapath Mp4.Memory.EightWay.Cache Mp4.Memory.EightWay.Refinement

/-- The way that the stored replacement bits of the request's set lead to. -/
def chosen (c : ModularCache 3) (r : Request) : Fin 8 :=
  whichReplace (c.arrays.plru (index 3 r.address))

def Found (c : ModularCache 3) (r : Request) : Prop :=
  ∃ w, c.arrays.valid w (index 3 r.address) = true ∧
    c.arrays.tags w (index 3 r.address) = tag 3 r.address

instance decidableFound (c : ModularCache 3) (r : Request) : Decidable (Found c r) := by
  unfold Found
  infer_instance

def busRequest (c : ModularCache 3) (r : Request) : Option LineBus.Request :=
  LineBus.request (pmemRead c.state) (pmemWrite c.state) (c.pmemAddress r) (c.cachelineOut r)

/-- One cycle of a request that is held: from `c` to `c'`. -/
inductive Move (c c' : ModularCache 3) (r : Request) (resp : Bool) (rdata : Line) : Prop
  | idle (state : c.state = .stall) (inactive : r.active = false) (state' : c'.state = .stall)
      (view' : view c'.arrays = view c.arrays)
  | ask (state : c.state = .stall) (active : r.active = true) (state' : c'.state = .hit)
      (view' : view c'.arrays = view c.arrays)
  | read (state : c.state = .hit) (answered : c.memResp r = true)
      (kind : r.read = true ∨ r.write = false) (state' : c'.state = .stall)
      (view' : view c'.arrays = view c.arrays)
  | write (w : Fin 8) (state : c.state = .hit) (answered : c.memResp r = true)
      (kind : r.read = false ∧ r.write = true) (state' : c'.state = .stall)
      (live : (view c.arrays).live w (setIndex (lineAddr r.address)) = true)
      (addr : (view c.arrays).addr w (setIndex (lineAddr r.address)) = lineAddr r.address)
      (view' : view c'.arrays = store (view c.arrays) w (setIndex (lineAddr r.address)) r.wdata)
  | evict (state : c.state = .hit) (quiet : c.memResp r = false)
      (owed : (view c.arrays).owed (chosen c r) (setIndex (lineAddr r.address)) = true)
      (absent : Misses setIndex (view c.arrays) (lineAddr r.address))
      (state' : c'.state = .missDirty) (view' : view c'.arrays = view c.arrays)
  | reuse (state : c.state = .hit) (quiet : c.memResp r = false)
      (settled : (view c.arrays).owed (chosen c r) (setIndex (lineAddr r.address)) = false)
      (absent : Misses setIndex (view c.arrays) (lineAddr r.address))
      (state' : c'.state = .missClean) (view' : view c'.arrays = view c.arrays)
  | writeBack (state : c.state = .missDirty) (quiet : c.memResp r = false)
      (state' : c'.state = if resp then .missClean else .missDirty)
      (view' : view c'.arrays =
        clean (view c.arrays) (chosen c r) (setIndex (lineAddr r.address)))
  | fill (state : c.state = .missClean) (quiet : c.memResp r = false)
      (state' : c'.state = if resp then .hit else .missClean)
      (view' : view c'.arrays =
        refill (view c.arrays) setIndex (chosen c r) (lineAddr r.address) rdata)

section Step

variable {c : ModularCache 3} {r : Request} {resp : Bool} {rdata : Line}

theorem replace_eq (current : Current c r) : c.replace = chosen c r := by
  rw [ModularCache.replace, current]
  rfl

theorem memResp_iff (state : c.state = .hit) (current : Current c r) :
    c.memResp r = true ↔ Found c r := by
  have check : c.memResp r = hitCheck (c.hits r) := by simp [ModularCache.memResp, done, state]
  rw [check, hitCheck_iff]
  unfold Found
  simp only [hits_eq current, Bool.and_eq_true, beq_iff_eq]
  constructor
  · rintro ⟨w, same, valid⟩
    exact ⟨w, valid, same.symm⟩
  · rintro ⟨w, valid, same⟩
    exact ⟨w, same.symm, valid⟩

theorem found_iff (c : ModularCache 3) (r : Request) :
    Found c r ↔ ∃ w, (view c.arrays).live w (setIndex (lineAddr r.address)) = true ∧
      (view c.arrays).addr w (setIndex (lineAddr r.address)) = lineAddr r.address := by
  rw [setIndex_lineAddr]
  constructor
  · rintro ⟨w, valid, same⟩
    refine ⟨w, valid, ?_⟩
    show lineOf (c.arrays.tags w _) _ = _
    rw [same, lineOf_tag]
  · rintro ⟨w, valid, same⟩
    refine ⟨w, valid, ?_⟩
    apply lineOf_inj (s := index 3 r.address)
    rw [lineOf_tag]
    exact same

variable (resp rdata) in
theorem chosen_next (quiet : c.memResp r = false) :
    chosen (c.next r resp rdata) r = chosen c r := by
  have load : (c.loads r).lruLoad = false := quiet
  have same : (c.next r resp rdata).arrays.plru = c.arrays.plru := by
    simp [ModularCache.next, Arrays.next, load, arrayNext]
  rw [chosen, same, chosen]

variable (resp rdata) in
private theorem move_stall (state : c.state = .stall) :
    Move c (c.next r resp rdata) r resp rdata := by
  have noWrite : ∀ w, writesWay c.state r.read r.write (c.hits r) w = false := by
    intro w
    simp [writesWay, done, state]
  have idle := view_idle resp rdata (.inl state) noWrite
  have state' : (c.next r resp rdata).state = if r.active then .hit else .stall := by
    simp only [ModularCache.next, state, nextState, Request.active]
    rfl
  cases active : r.active with
  | false =>
    rw [active] at state'
    exact .idle state active state' idle
  | true =>
    rw [active] at state'
    exact .ask state active state' idle

variable (resp rdata) in
private theorem move_hit (state : c.state = .hit) (current : Current c r) :
    Move c (c.next r resp rdata) r resp rdata := by
  have state' := nextState_hit resp rdata state current
  cases answered : c.memResp r with
  | true =>
    rw [answered] at state'
    by_cases writes : r.read = false ∧ r.write = true
    · obtain ⟨live, addr⟩ := hit_holds current answered
      have view' : view (c.next r resp rdata).arrays =
          store (view c.arrays) (hitWay (c.hits r)) (index 3 r.address) r.wdata :=
        view_write state answered writes
      rw [← setIndex_lineAddr] at view'
      exact .write _ state answered writes state' live addr view'
    · have noWrite : ∀ w, writesWay c.state r.read r.write (c.hits r) w = false := by
        intro w
        simp only [writesWay]
        grind
      have kind : r.read = true ∨ r.write = false := by grind
      exact .read state answered kind state' (view_idle resp rdata (.inr state) noWrite)
  | false =>
    have noWrite : ∀ w, writesWay c.state r.read r.write (c.hits r) w = false := by
      intro w
      have none : done c.state (c.hits r) = false := answered
      simp [writesWay, none]
    have idle := view_idle resp rdata (.inr state) noWrite
    have absent := miss_absent state current answered
    have owed : (view c.arrays).owed (chosen c r) (setIndex (lineAddr r.address)) =
        c.arrays.dirty c.replace (index 3 r.address) := by
      rw [setIndex_lineAddr, replace_eq current]
      rfl
    rw [answered] at state'
    cases dirty : c.arrays.dirty c.replace (index 3 r.address) with
    | true =>
      rw [dirty] at state' owed
      exact .evict state answered owed absent state' idle
    | false =>
      rw [dirty] at state' owed
      exact .reuse state answered owed absent state' idle

variable (resp rdata) in
/-- The inversion of a cycle, in which the registers show the set of the request unless the
cache is in state stall. -/
theorem next_move (asked : c.state = .stall ∨ r.active = true ∧ Current c r) :
    Move c (c.next r resp rdata) r resp rdata := by
  cases state : c.state with
  | stall => exact move_stall resp rdata state
  | hit =>
    obtain ⟨-, current⟩ := asked.resolve_left (by simp [state])
    exact move_hit resp rdata state current
  | missDirty =>
    obtain ⟨-, current⟩ := asked.resolve_left (by simp [state])
    have view' := view_clean r resp rdata state
    rw [← setIndex_lineAddr, replace_eq current] at view'
    refine .writeBack state (memResp_quiet (by simp [state])) ?_ view'
    simp only [ModularCache.next, nextState, state]
  | missClean =>
    obtain ⟨active, current⟩ := asked.resolve_left (by simp [state])
    have view' := view_refill resp rdata state active
    rw [replace_eq current] at view'
    refine .fill state (memResp_quiet (by simp [state])) ?_ view'
    simp only [ModularCache.next, nextState, state]

theorem found_filled {c' : ModularCache 3} {w : Fin 8}
    (view' : view c'.arrays = refill (view c.arrays) setIndex w (lineAddr r.address) rdata) :
    Found c' r := by
  rw [found_iff, view']
  exact ⟨w, put_same _ _ _ _, put_same _ _ _ _⟩

end Step

section Wires

variable {c : ModularCache 3} {r : Request}

theorem busRequest_none (state : c.state = .stall ∨ c.state = .hit) : busRequest c r = none := by
  rcases state with state | state <;>
    simp [busRequest, LineBus.request, pmemRead, pmemWrite, state]

theorem busRequest_missClean (state : c.state = .missClean) :
    busRequest c r = some (.read (lineAddr r.address ++ 0#5)) := by
  simp [busRequest, LineBus.request, pmemRead, state, ModularCache.pmemAddress, newAddress,
    newAddressSel]

theorem busRequest_missDirty (state : c.state = .missDirty) (current : Current c r) :
    busRequest c r = some (.write
      ((view c.arrays).addr (chosen c r) (setIndex (lineAddr r.address)) ++ 0#5)
      ((view c.arrays).data (chosen c r) (setIndex (lineAddr r.address)))) := by
  have out : (tagArrayOut 3 c.outs c.replace).setWidth 24 =
      c.arrays.tags c.replace (index 3 r.address) := by
    rw [tagArrayOut, BitVec.setWidth_eq, BitVec.setWidth_eq, current]
    rfl
  have address : c.pmemAddress r =
      lineOf (c.arrays.tags c.replace (index 3 r.address)) (index 3 r.address) ++ 0#5 := by
    rw [ModularCache.pmemAddress, out, newAddress, newAddressSel, state]
    exact victim_eq _ _
  have line : c.cachelineOut r = c.arrays.data c.replace (index 3 r.address) := by
    rw [cachelineOut_stored current, state]
    rfl
  rw [busRequest, address, line, setIndex_lineAddr, ← replace_eq current, state]
  rfl

end Wires

end Mp4.Memory.EightWay.Moves
