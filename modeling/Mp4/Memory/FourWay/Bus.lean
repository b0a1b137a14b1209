import Mp4.Memory.FourWay.Refinement
import Mp4.Memory.LineBus

/-!
`cache_4_way` as a client of the next memory level: what it asks for stays the same until
it is answered, what it writes back is the flat memory's line, and a cache that is only
read never writes back.
-/

set_option autoImplicit false
set_option relaxedAutoImplicit false

namespace Mp4.Memory.FourWay.Bus

open Mp4.Lib.WriteBack Mp4.Lib.Replacement Mp4.Memory.Address Mp4.Memory.Arrays
open Mp4.Memory.FourWay.Datapath Mp4.Memory.FourWay.Cache Mp4.Memory.FourWay.Refinement

def busRequest (c : Cache4Way 3) (r : Request) (rdata : Line) : Option LineBus.Request :=
  LineBus.request (pmemRead c.state) (pmemWrite c.state) (c.pmemAddress r) (c.cachelineOut r rdata)

section Wires

variable {c : Cache4Way 3} {r : Request} {rdata rdata' : Line} {lru : BitVec 3}

theorem busRequest_hit (state : c.state = .hit) : busRequest c r rdata = none := by
  simp [busRequest, LineBus.request, pmemRead, pmemWrite, state]

theorem busRequest_missClean (state : c.state = .missClean) :
    busRequest c r rdata = some (.read (c.pmemAddress r)) := by
  simp [busRequest, LineBus.request, pmemRead, state]

theorem busRequest_missDirty (state : c.state = .missDirty) :
    busRequest c r rdata = some (.write (c.pmemAddress r)
      (c.arrays.data (c.replace r) (index 3 r.address))) := by
  simp [busRequest, LineBus.request, pmemRead, pmemWrite, state, cachelineOut_missDirty state]

theorem busRequest_rdata : busRequest c r rdata = busRequest c r rdata' := by
  cases state : c.state with
  | hit => rw [busRequest_hit state, busRequest_hit state]
  | missClean => rw [busRequest_missClean state, busRequest_missClean state]
  | missDirty => rw [busRequest_missDirty state, busRequest_missDirty state]

theorem busRequest_next {q : LineBus.Request} (asks : busRequest c r rdata = some q) :
    busRequest (c.next r false rdata lru) r rdata' = some q := by
  cases state : c.state with
  | hit =>
    rw [busRequest_hit state] at asks
    cases asks
  | missClean =>
    have state' : (c.next r false rdata lru).state = .missClean := by
      simp [Cache4Way.next, nextState, state]
    rw [busRequest_missClean state] at asks
    rw [busRequest_missClean state', ← asks]
    simp [Cache4Way.pmemAddress, newAddress, newAddressSel, state, state']
  | missDirty =>
    have state' : (c.next r false rdata lru).state = .missDirty := by
      simp [Cache4Way.next, nextState, state]
    have quiet : c.memResp r = false := by simp [Cache4Way.memResp, done, state]
    have replace' : (c.next r false rdata lru).replace r = c.replace r := by
      exact next_replace quiet
    have view' := view_clean r false rdata lru state
    have data' : (c.next r false rdata lru).arrays.data = c.arrays.data := congrArg View.data view'
    have tags' := (next_tags r false rdata lru
      (by simp [state] : c.state ≠ .missClean)).1
    have none : ∀ w, c.installs r w = false := by
      intro w
      simp [Cache4Way.installs, tagArrayLoad, state]
    have none' : ∀ w, (c.next r false rdata lru).installs r w = false := by
      intro w
      simp [Cache4Way.installs, tagArrayLoad, state']
    rw [busRequest_missDirty state] at asks
    rw [busRequest_missDirty state', ← asks, data', replace']
    simp only [Cache4Way.pmemAddress, tagArrayOut, array, none, none', tags', replace', state,
      state']

end Wires

section Flat

variable {P : LineAddr → Prop} {mem flat : LineAddr → Line} {c : Cache4Way 3} {r : Request}
  {rdata : Line} {pend : Option Request}

theorem busRequest_pending (inv : Holds P mem flat c pend) {q : LineBus.Request}
    (asks : busRequest c r rdata = some q) :
    ∃ r', pend = some r' ∧ r'.active = true ∧ c.memResp r = false := by
  cases inv with
  | hit state =>
    rw [busRequest_hit state] at asks
    cases asks
  | missDirty state active =>
    exact ⟨_, rfl, active, by simp [Cache4Way.memResp, done, state]⟩
  | missClean state active =>
    exact ⟨_, rfl, active, by simp [Cache4Way.memResp, done, state]⟩

variable (rdata) in
theorem writeBack_flat (inv : Holds P mem flat c pend) (held : ∀ r', pend = some r' → r = r')
    (state : c.state = .missDirty) (inP : P (lineAddr (c.pmemAddress r))) :
    c.cachelineOut r rdata = flat (lineAddr (c.pmemAddress r)) := by
  cases inv with
  | hit state' => simp [state] at state'
  | missClean state' => simp [state] at state'
  | @missDirty r' _ _ sound =>
    obtain rfl := held r' rfl
    have rep := sound.1
    rw [setIndex_lineAddr] at rep
    rw [pmemAddress_missDirty state] at inP ⊢
    rw [cachelineOut_missDirty state]
    exact rep.cached _ _ (rep.owedLive _ _ (put_same _ _ _ _)) inP

end Flat

/-- No way is dirty and nothing is being written back. -/
structure NeverWritten (c : Cache4Way 3) : Prop where
  dirty : ∀ w s, c.arrays.dirty w s = false
  state : c.state ≠ .missDirty

theorem neverWritten_reset (data : Fin 4 → BitVec 3 → Line) : NeverWritten (.reset data) :=
  ⟨fun _ _ => rfl, by simp [Cache4Way.reset]⟩

theorem NeverWritten.next {c : Cache4Way 3} (clean : NeverWritten c) {r : Request}
    (readOnly : r.write = false) (resp : Bool) (rdata : Line) (lru : BitVec 3) :
    NeverWritten (c.next r resp rdata lru) := by
  have noWrite : ∀ w, writesWay c.state r.read r.write (c.hits r) w = false := by
    intro w
    simp [writesWay, readOnly]
  have noLoad : ∀ w, dirtyLoad c.state r.read r.write (c.hits r) (c.replace r) w = false := by
    intro w
    simp [dirtyLoad, noWrite, clean.state]
  have victim : c.victimDirty r = false := by
    simp [Cache4Way.victimDirty, dirtyOut, array, noLoad, clean.dirty]
  constructor
  · intro w s
    simp [Cache4Way.next, Arrays.next, Cache4Way.loads, arrayNext, noLoad, clean.dirty]
  · cases state : c.state with
    | missDirty => exact absurd state clean.state
    | hit =>
      simp only [Cache4Way.next, state, nextState, victim, Bool.false_eq_true, if_false]
      split_ifs <;> simp
    | missClean =>
      simp only [Cache4Way.next, state, nextState]
      split_ifs <;> simp

end Mp4.Memory.FourWay.Bus
